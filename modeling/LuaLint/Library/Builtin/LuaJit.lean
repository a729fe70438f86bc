import LuaLint.Library.Builtin.Words

/-!
# LuaJIT

How LuaJIT differs from Lua 5.1.
-/

namespace LuaLint.Library.Builtin

def luaJitGlobals : NameMap Field :=
  fields [
    ("bit", group [
      ("arshift", function [need .number, need .number]),
      ("band", function [need .number, more]),
      ("bnot", function [need .number]),
      ("bor", function [need .number, more]),
      ("bswap", function [need .number]),
      ("bxor", function [need .number, more]),
      ("lshift", function [need .number, need .number]),
      ("rol", function [need .number, need .number]),
      ("ror", function [need .number, need .number]),
      ("rshift", function [need .number, need .number]),
      ("tobit", function [need .number]),
      ("tohex", function [need .number, may .number])]),
    ("jit", group [
      ("arch", value .readOnly),
      ("attach", procedure [need .function, may .string]),
      ("flush", procedure [may .any, may .bool]),
      ("off", procedure [may .any, may .bool]),
      ("on", procedure [may .any, may .bool]),
      ("opt", group [
        ("start", procedure [more])]),
      ("os", value .readOnly),
      ("status", function []),
      ("version", value .readOnly),
      ("version_num", value .readOnly)]),
    ("load", function [need .any, may .string, may (oneOf ["b", "t", "bt"])]),
    ("loadfile", function [may .string, may (oneOf ["b", "t", "bt"])]),
    ("package", group [
      ("searchpath", function [need .string, need .string, may .string, may .string])]),
    ("xpcall", procedure [need .function, need .function, more])]

def luaJit : Library := ⟨"luajit", "lua51", luaJitGlobals, []⟩

end LuaLint.Library.Builtin
