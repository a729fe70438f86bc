import LuaLint.Library.Builtin.Words

/-!
# Lua 5.3

How Lua 5.3 differs from Lua 5.2.
-/

namespace LuaLint.Library.Builtin

def lua53Globals : NameMap Field :=
  fields [
    ("coroutine", group [
      ("isyieldable", function [])]),
    ("math", group [
      ("atan", function [need .number, may .number]),
      ("atan2", outdated (function [need .number, need .number])
        "`math.atan2` is deprecated, use `math.atan` with two arguments instead"
        ["math.atan(%1, %2)"]),
      ("cosh", outdated (function [need .number])
        "`math.cosh` is deprecated" []),
      ("frexp", outdated (function [need .number])
        "`math.frexp` is deprecated" []),
      ("ldexp", outdated (function [need .number, need .number])
        "`math.ldexp` is deprecated, multiply by a power of two instead" ["%1 * 2.0 ^ %2"]),
      ("log10", gone),
      ("maxinteger", value .readOnly),
      ("mininteger", value .readOnly),
      ("pow", outdated (function [need .number, need .number])
        "`math.pow` is deprecated, use the `^` operator instead" ["%1 ^ %2"]),
      ("sinh", outdated (function [need .number])
        "`math.sinh` is deprecated" []),
      ("tanh", outdated (function [need .number])
        "`math.tanh` is deprecated" []),
      ("tointeger", function [need .any]),
      ("type", function [need .any]),
      ("ult", function [need .number, need .number])]),
    ("module", gone),
    ("package", group [
      ("seeall", gone)]),
    ("string", group [
      ("pack", function [need .string, more]),
      ("packsize", function [need .string]),
      ("unpack", function [need .string, need .string, may .number])]),
    ("table", group [
      ("maxn", gone),
      ("move", procedure [reads (need .table), need .number, need .number, need .number,
        may .table])]),
    ("utf8", group [
      ("char", function [more]),
      ("charpattern", value .readOnly),
      ("codepoint", function [need .string, may .number, may .number]),
      ("codes", function [need .string]),
      ("len", function [need .string, may .number, may .number]),
      ("offset", function [need .string, need .number, may .number])])]

def lua53 : Library := ⟨"lua53", "lua52", lua53Globals, []⟩

end LuaLint.Library.Builtin
