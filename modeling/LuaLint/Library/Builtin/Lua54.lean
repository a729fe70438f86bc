import LuaLint.Library.Builtin.Words

/-!
# Lua 5.4

How Lua 5.4 differs from Lua 5.3.
-/

namespace LuaLint.Library.Builtin

def lua54Globals : NameMap Field :=
  fields [
    ("bit32", gone),
    ("collectgarbage", procedure [may (oneOf ["collect", "stop", "restart", "count", "step",
      "isrunning", "incremental", "generational"]), may .number, may .number, may .number]),
    ("coroutine", group [
      ("close", procedure [need (shown "coroutine")]),
      ("running", function [])]),
    ("debug", group [
      ("getuservalue", function [need .any, may .number]),
      ("setcstacklimit", outdated (procedure [need .number])
        "`debug.setcstacklimit` does nothing since Lua 5.4.2" []),
      ("setuservalue", procedure [need .any, need .any, may .number])]),
    ("math", group [
      ("atan2", gone),
      ("cosh", gone),
      ("frexp", gone),
      ("ldexp", gone),
      ("pow", gone),
      ("random", function [may .number, may .number]),
      ("randomseed", procedure [may .number, may .number]),
      ("sinh", gone),
      ("tanh", gone)]),
    ("utf8", group [
      ("codes", function [need .string, may .bool])]),
    ("warn", procedure [need .string, more])]

def lua54 : Library := ⟨"lua54", "lua53", lua54Globals, []⟩

end LuaLint.Library.Builtin
