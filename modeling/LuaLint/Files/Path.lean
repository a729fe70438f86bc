import LuaLint.Text.Bytes

/-!
# Paths

Names of files as sequences of parts with slashes between them.
-/

namespace LuaLint.Path

def slash : UInt8 := 47

def isRooted (path : Bytes) : Bool := path.head? == some slash

def parts (path : Bytes) : List Bytes :=
  (Bytes.split slash path).filter fun part : Bytes => !part.isEmpty && part != "."

/-- The parts that are left, last first, when a part `..` takes away the part before it. At the root
it has nothing to take away. -/
def collapse (rooted : Bool) : List Bytes → List Bytes → List Bytes
  | [], acc => acc
  | part :: rest, acc =>
    if part.isEmpty || part == "." then collapse rooted rest acc
    else if part == ".." then
      match acc with
      | [] => if rooted then collapse rooted rest [] else collapse rooted rest [part]
      | before :: outer =>
        if before == ".." then collapse rooted rest (part :: acc) else collapse rooted rest outer
    else collapse rooted rest (part :: acc)

/-- The shortest path that names the same place. The empty path becomes `.`. -/
def clean (path : Bytes) : Bytes :=
  let parts := (collapse (isRooted path) (Bytes.split slash path) []).reverse
  let body := Bytes.join "/" parts
  if isRooted path then slash :: body
  else if body.isEmpty then "." else body

def join (dir path : Bytes) : Bytes :=
  if dir.isEmpty && path.isEmpty then []
  else if dir.isEmpty then clean path
  else if path.isEmpty then clean dir
  else clean (dir ++ "/" ++ path)

def afterSlash (path : Bytes) : Bytes := (path.reverse.takeWhile (· != slash)).reverse

def directory (path : Bytes) : Bytes := clean (path.take (path.length - (afterSlash path).length))

def last (path : Bytes) : Bytes :=
  let trimmed := (path.reverse.dropWhile (· == slash)).reverse
  if path.isEmpty then "."
  else if trimmed.isEmpty then "/"
  else afterSlash trimmed

def extension (path : Bytes) : Bytes :=
  let name := afterSlash path
  let tail := (name.reverse.takeWhile (· != Bytes.byte '.')).reverse
  if tail.length = name.length then [] else Bytes.byte '.' :: tail

end LuaLint.Path
