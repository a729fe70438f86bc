import LuaLint.Command.Run

/-!
# The command line

Reads what the program needs of the world, runs it, and prints what comes of it. The program sees
the files below its working directory.
-/

namespace LuaLint.Terminal

/-! ## Reading -/

/-- How deep directories are entered. -/
def maxDepth : Nat := 64

/-- The files in some entries of a directory. What cannot be read is left out. -/
def snapshot : Nat → Array IO.FS.DirEntry → IO FileTree
  | 0, _ => return []
  | depth + 1, entries => do
    let mut tree : FileTree := []
    for e in entries do
      let name := Bytes.ofString e.fileName
      if ← e.path.isDir then
        let inner ← try e.path.readDir catch _ => pure #[]
        tree := NameMap.insert name (.directory (← snapshot depth inner)) tree
      else
        let content ← try some <$> IO.FS.readBinFile e.path catch _ => pure none
        if let some bytes := content then
          tree := NameMap.insert name (.file bytes.data.toList) tree
    return tree

def readVariables (names : List Bytes) : IO (List (Bytes × Bytes)) := do
  let mut found := []
  for name in names do
    if let some value ← IO.getEnv name.toText then
      found := (name, Bytes.ofString value) :: found
  return found

/-! ## Writing -/

def put (stream : IO.FS.Stream) (s : Bytes) : IO Unit := do
  stream.write ⟨s.toArray⟩
  stream.flush

def finish (r : CommandResult) : IO UInt32 := do
  for (path, content) in r.written do
    IO.FS.writeBinFile path.toText ⟨content.toArray⟩
  put (← IO.getStdout) r.output
  let err ← IO.getStderr
  put err r.errors
  if let some t := r.timings then
    put err (Bytes.join "\n" (t.heading :: t.lints) ++ [10])
  return r.code.toUInt32

/-! ## Editors -/

/-- The lines of a heading up to the empty one, or nothing at the end of the input. -/
partial def readHeading (stream : IO.FS.Stream) : IO (Option (List Bytes)) := do
  let line ← stream.getLine
  if line.isEmpty then return none
  let line := (Bytes.ofString line).filter fun b => b != 10 && b != 13
  if line.isEmpty then return some []
  return (← readHeading stream).map (line :: ·)

partial def readExactly (stream : IO.FS.Stream) (size : Nat) (acc : ByteArray) : IO Bytes := do
  if acc.size ≥ size then return acc.data.toList
  let chunk ← stream.read (min 65536 (size - acc.size)).toUSize
  if chunk.isEmpty then return acc.data.toList
  readExactly stream size (acc ++ chunk)

/-- Talks to an editor until it leaves. Diagnostics about a changed document follow at once. -/
partial def talk (l : Linter) (s : Session) (input output : IO.FS.Stream) : IO UInt32 := do
  let some lines ← readHeading input | return 0
  let some size := lines.findSome? Wire.lengthOf? | return 0
  let some message := JsonValue.read? (← readExactly input size .empty) | return 0
  let (s, sent) := s.respond l message
  let (s, late) := s.settle l
  put output ((sent ++ late.map Wire.ofNotice).flatMap Wire.frame)
  match s.exited with
  | some code => return code.toUInt32
  | none => talk l s input output

/-! ## The program -/

def run (words : List String) : IO UInt32 := do
  let args := words.map Bytes.ofString
  let files ← snapshot maxDepth (← (← IO.currentDir).readDir)
  let colorful := (← (← IO.getStdout).isTty) && (← IO.getEnv "NO_COLOR").isNone
  let s : Surroundings := ⟨files, [], [], colorful⟩
  let s := { s with environment := ← readVariables (relevantVariables s args) }
  let stdin ← IO.getStdin
  match prepare s args with
  | .ok (.lsp, _, setup) =>
    match setup.linter files with
    | .ok (linter, _) => talk linter .start stdin (← IO.getStdout)
    | .error _ => finish (runProgram s args)
  | _ =>
    if args.contains FileTree.standardInput then
      let input ← readExactly stdin (Nat.pow 2 31) .empty
      finish (runProgram { s with input } args)
    else finish (runProgram s args)

end LuaLint.Terminal

def main (words : List String) : IO UInt32 := LuaLint.Terminal.run words
