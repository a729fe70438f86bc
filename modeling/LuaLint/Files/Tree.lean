import LuaLint.Text.NameMap
import LuaLint.Files.Path

/-!
# File trees

The files that the program can see, as a value. Programs that read files are functions of such a
tree, and what they write is a list of files.
-/

namespace LuaLint

/-- What a name in a directory stands for. -/
inductive FileEntry where
  | file (content : Bytes)
  /-- A directory with its entries in ascending order. -/
  | directory (entries : List (Bytes × FileEntry))
  deriving Inhabited

abbrev FileTree := NameMap FileEntry

/-- Why there is nothing to be found at a path. -/
inductive ReadError where
  | missing
  | notDirectory
  | isDirectory
  | tooLong
  /-- The path holds a zero byte. -/
  | invalid
  deriving DecidableEq, Repr

namespace ReadError

def reason : ReadError → Bytes
  | .missing => "no such file or directory"
  | .notDirectory => "not a directory"
  | .isDirectory => "is a directory"
  | .tooLong => "file name too long"
  | .invalid => "invalid argument"

/-- The message about a file that cannot be read. A directory can be opened but not read. -/
def message (path : Bytes) (e : ReadError) : Bytes :=
  (if e = .isDirectory then "read " else "open ") ++ path ++ ": " ++ e.reason

end ReadError

namespace FileTree

/-- Puts an entry at a path given by its parts. Directories along the way are made as needed. -/
def insertAt (e : FileEntry) : List Bytes → FileTree → FileTree
  | [], tree => tree
  | [name], tree =>
    match e, tree.get? name with
    | .directory [], some (.directory more) => tree.insert name (.directory more)
    | _, _ => tree.insert name e
  | name :: next :: rest, tree =>
    let inner : FileTree := match tree.get? name with
      | some (.directory entries) => entries
      | _ => []
    tree.insert name (.directory (insertAt e (next :: rest) inner))

/-- The tree of some files by their paths. A path that ends in a slash is that of an empty
directory. -/
def ofFiles (files : List (Bytes × Bytes)) : FileTree :=
  files.foldl (fun tree file =>
    let e : FileEntry := if file.1.endsWith "/" then .directory [] else .file file.2
    insertAt e (Path.parts file.1) tree) []

/-- What stands at a path given by its parts, with the directories that have been entered, innermost
first. -/
def find : List FileTree → List Bytes → Except ReadError FileEntry
  | [], _ => .error .missing
  | tree :: _, [] => .ok (.directory tree)
  | tree :: outer, name :: rest =>
    if name.length > 255 then .error .tooLong
    else if name == ".." then find outer rest
    else match tree.get? name with
      | none => .error .missing
      | some (.directory entries) => find (entries :: tree :: outer) rest
      | some (.file content) => if rest.isEmpty then .ok (.file content) else .error .notDirectory

/-- What stands at a path. Paths from the root lie outside of the tree. -/
def stat (tree : FileTree) (path : Bytes) : Except ReadError FileEntry :=
  if path.isEmpty || Path.isRooted path then .error .missing
  else if path.contains 0 then .error .invalid
  else match find [tree] (Path.parts path) with
    | .ok (.file content) => if path.endsWith "/" then .error .notDirectory else .ok (.file content)
    | other => other

def read (tree : FileTree) (path : Bytes) : Except ReadError Bytes :=
  match tree.stat path with
  | .ok (.file content) => .ok content
  | .ok (.directory _) => .error .isDirectory
  | .error e => .error e

mutual

def contents : FileEntry → List Bytes
  | .file content => [content]
  | .directory entries => contentsOf entries

def contentsOf : List (Bytes × FileEntry) → List Bytes
  | [] => []
  | (_, e) :: rest => contents e ++ contentsOf rest

end

end FileTree

end LuaLint
