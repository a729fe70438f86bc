import LuaLint.Files.Glob
import LuaLint.Files.Tree

/-!
# Searching for sources

The Lua sources that some arguments stand for: files stand for themselves, and directories for all
sources below them.
-/

namespace LuaLint

namespace FileTree

def sourceExtensions : List Bytes := [".lua", ".luau"]

mutual

def sourcesIn (path : Bytes) : FileEntry → List Bytes
  | .file _ => if sourceExtensions.contains (Path.extension path) then [path] else []
  | .directory entries => sourcesAmong path entries

def sourcesAmong (path : Bytes) : List (Bytes × FileEntry) → List Bytes
  | [] => []
  | (name, e) :: rest => sourcesIn (Path.join path name) e ++ sourcesAmong path rest

end

def sourcesBelow (path : Bytes) (entries : FileTree) : List Bytes :=
  Bytes.sort (sourcesAmong path entries)

/-- Why an argument stands for nothing. -/
structure ExpandError where
  path : Bytes
  reason : ReadError
  deriving DecidableEq, Repr

def ExpandError.text (e : ExpandError) : Bytes :=
  "expanding " ++ e.path ++ ": stat " ++ e.path ++ ": " ++ e.reason.reason

def standardInput : Bytes := "-"

/-- The path that an argument names. Dots at its end, which ask for the directories below it, say
nothing new. -/
def argumentPath (arg : Bytes) : Bytes :=
  if arg.endsWith "/..." then
    let path := arg.dropEnd "/..."
    if path.isEmpty then "." else path
  else arg

def expandOne (tree : FileTree) (arg : Bytes) : Except ExpandError (List Bytes) :=
  if arg == standardInput then .ok [arg]
  else
    let path := argumentPath arg
    match tree.stat path with
    | .error e => .error ⟨path, e⟩
    | .ok (.file _) => .ok [path]
    | .ok (.directory entries) => .ok (sourcesBelow path entries)

/-- The sources that some arguments stand for, without those that a pattern excludes. The standard
input is never excluded. -/
def expand (tree : FileTree) (excludes args : List Bytes) : Except ExpandError (List Bytes) := do
  let paths ← args.mapM (expandOne tree)
  return paths.flatten.filter fun path =>
    path == standardInput || !Glob.excludes excludes path

end FileTree

end LuaLint
