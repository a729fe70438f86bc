import LuaLint.Library.Builtin.Words

/-!
# Lua 5.2

How Lua 5.2 differs from Lua 5.1.
-/

namespace LuaLint.Library.Builtin

def lua52Globals : NameMap Field :=
  fields [
    ("_ENV", value .fullWrite),
    ("bit32", group [
      ("arshift", function [need .number, need .number]),
      ("band", function [more]),
      ("bnot", function [need .number]),
      ("bor", function [more]),
      ("btest", function [more]),
      ("bxor", function [more]),
      ("extract", function [need .number, need .number, may .number]),
      ("lrotate", function [need .number, need .number]),
      ("lshift", function [need .number, need .number]),
      ("replace", function [need .number, need .number, need .number, may .number]),
      ("rrotate", function [need .number, need .number]),
      ("rshift", function [need .number, need .number])]),
    ("coroutine", group [
      ("running", function [])]),
    ("debug", group [
      ("getfenv", gone),
      ("getuservalue", function [need .any]),
      ("setfenv", gone),
      ("setuservalue", procedure [need .any, need .table]),
      ("upvalueid", function [need .function, need .number]),
      ("upvaluejoin", procedure [need .function, need .number, need .function, need .number])]),
    ("gcinfo", gone),
    ("getfenv", gone),
    ("load", function [need .any, may .string, may (oneOf ["b", "t", "bt"]), may .table]),
    ("loadfile", function [may .string, may (oneOf ["b", "t", "bt"]), may .table]),
    ("loadstring", gone),
    ("math", group [
      ("log", function [need .number, may .number]),
      ("log10", outdated (function [need .number])
        "`math.log10` is deprecated, use `math.log` with a base of 10 instead"
        ["math.log(%1, 10)"])]),
    ("module", outdated (procedure [need .string, more])
      "`module` is deprecated, return a table from the chunk instead" []),
    ("os", group [
      ("exit", procedure [may .any, may .bool])]),
    ("package", group [
      ("config", value .readOnly),
      ("loaders", gone),
      ("searchers", value .newFields),
      ("searchpath", function [need .string, need .string, may .string, may .string]),
      ("seeall", outdated (procedure [need .table])
        "`package.seeall` is deprecated along with `module`" [])]),
    ("rawlen", function [need .any]),
    ("setfenv", gone),
    ("string", group [
      ("rep", function [need .string, need .number, may .string])]),
    ("table", group [
      ("foreach", gone),
      ("foreachi", gone),
      ("getn", gone),
      ("maxn", outdated (function [reads (need .table)])
        "`table.maxn` is deprecated" []),
      ("pack", function [more]),
      ("setn", gone),
      ("unpack", function [reads (need .table), may .number, may .number])]),
    ("unpack", gone),
    ("xpcall", procedure [need .function, need .function, more])]

def lua52 : Library := ⟨"lua52", "lua51", lua52Globals, []⟩

end LuaLint.Library.Builtin
