import LuaLint.Library.Builtin.Lua51
import LuaLint.Library.Builtin.Lua52
import LuaLint.Library.Builtin.Lua53
import LuaLint.Library.Builtin.Lua54
import LuaLint.Library.Builtin.LuaJit

/-!
# Libraries that are always available

Each library is put over the one it names as its base.
-/

namespace LuaLint.Library

open Builtin

def lua51 : Library := Builtin.lua51.prune

def lua52 : Library := Builtin.lua52.extend lua51

def lua53 : Library := Builtin.lua53.extend lua52

def lua54 : Library := Builtin.lua54.extend lua53

def luaJit : Library := Builtin.luaJit.extend lua51

def builtins : NameMap Library :=
  [("lua51", lua51), ("lua52", lua52), ("lua53", lua53), ("lua54", lua54), ("luajit", luaJit)]

def builtinNames : List Bytes := builtins.names

def builtin? (name : Bytes) : Option Library := builtins.get? name

def possible (path : List Bytes) : List Bytes :=
  NameMap.names (builtins.filter fun entry => (entry.2.find? path).isSome)

/-- Items in a sentence, with commas and a final "and". -/
def englishList : List Bytes → Bytes
  | [] => []
  | [a] => a
  | [a, b] => a ++ " and " ++ b
  | items => Bytes.join ", " items.dropLast ++ ", and " ++ items.getLastD []

/-- Hints about the libraries in which a path exists. `chosen` lists the libraries that were asked
for, unless none was. -/
def possibleNotes (path : List Bytes) (chosen : Option (List Bytes)) : List Bytes :=
  match possible path with
  | [] => []
  | first :: others =>
    let names := first :: others
    let ending : Bytes := if others.isEmpty then "y" else "ies"
    let found : Bytes := "`" ++ Bytes.join "." path ++ "` was found in the " ++ englishList names ++
      " standard librar" ++ ending
    match chosen with
    | none =>
      [found, "you can set the standard library by putting the following inside selene.toml:\n" ++
        Bytes.join "\n" (names.map fun name => "std = \"" ++ name ++ "\"")]
    | some known =>
      if names.all known.contains then
        [found, "it looks like all of the possible standard libraries are set.\n" ++
          "you may have an outdated copy in your root. try deleting it and running selene " ++
          "again.\nfor example, delete `" ++ first ++ ".yml` if you have it."]
      else [found]

end LuaLint.Library
