import LuaLint.Toml.Literal

/-!
# Reading TOML

A TOML document is a sequence of lines that set keys and open tables. Tables can be opened by a
header, come about because a header or a dotted key names something below them, or be written in
braces as a value.
-/

namespace LuaLint.Toml

/-! ## Tables -/

/-- What a key stands for while a document is being read. -/
inductive Item where
  | value (v : ConfigValue)
  /-- A table. `opened` tells whether a header has named it. -/
  | table (opened : Bool) (entries : List (Bytes × Item))
  /-- The tables of a list, the latest first. -/
  | tables (latest : List (Bytes × Item)) (earlier : List (List (Bytes × Item)))

abbrev Entries := NameMap Item

/-- Changes the table at a path, which is made as needed. `dotted` tells that the path is that of a
key: tables on it count as opened when they exist already. -/
def within? (dotted : Bool) (f : Entries → Option Entries) : List Bytes → Entries → Option Entries
  | [], entries => f entries
  | name :: rest, entries =>
    match entries.get? name with
    | none => (within? dotted f rest []).map fun inner => entries.insert name (.table false inner)
    | some (.table opened inner) =>
      (within? dotted f rest inner).map fun inner =>
        entries.insert name (.table (opened || dotted) inner)
    | some (.tables latest earlier) =>
      (within? dotted f rest latest).map fun inner =>
        entries.insert name (.tables inner earlier)
    | some (.value _) => none

def openTable (path : List Bytes) (entries : Entries) : Option Entries :=
  match path.getLast? with
  | none => none
  | some name =>
    within? false (fun inner =>
      match inner.get? name with
      | none => some (inner.insert name (.table true []))
      | some (.table false more) => some (inner.insert name (.table true more))
      | _ => none) path.dropLast entries

/-- A header in double brackets adds a table to the list at a path. -/
def openArray (path : List Bytes) (entries : Entries) : Option Entries :=
  match path.getLast? with
  | none => none
  | some name =>
    within? false (fun inner =>
      match inner.get? name with
      | none => some (inner.insert name (.tables [] []))
      | some (.tables latest earlier) => some (inner.insert name (.tables [] (latest :: earlier)))
      | _ => none) path.dropLast entries

def setKey (context path : List Bytes) (v : ConfigValue) (entries : Entries) : Option Entries :=
  match path.getLast? with
  | none => none
  | some name =>
    within? false (fun table =>
      within? true (fun inner =>
        match inner.get? name with
        | none => some (inner.insert name (.value v))
        | some _ => none) path.dropLast table) context entries

mutual

def Item.toValue : Item → ConfigValue
  | .value v => v
  | .table _ entries => .table (entriesValue entries)
  | .tables latest earlier => .list ((.table (entriesValue latest) :: tablesValue earlier).reverse)

def entriesValue : List (Bytes × Item) → List (Bytes × ConfigValue)
  | [] => []
  | (name, item) :: rest => (name, item.toValue) :: entriesValue rest

def tablesValue : List (List (Bytes × Item)) → List ConfigValue
  | [] => []
  | entries :: rest => .table (entriesValue entries) :: tablesValue rest

end

/-! ## Keys and values -/

def skipBlanks (cs : List Char) : List Char := cs.dropWhile fun c => c == ' ' || c == '\t'

def afterComment? (cs : List Char) : Option (List Char) :=
  let line := cs.takeWhile (· != '\n')
  if line.all isAllowed then some (cs.drop line.length) else none

/-- A text without the blanks, line feeds and comments at its beginning. -/
def skipGaps : Nat → List Char → Option (List Char)
  | 0, cs => some cs
  | fuel + 1, cs =>
    match skipBlanks cs with
    | '\n' :: rest => skipGaps fuel rest
    | '#' :: rest => (afterComment? rest).bind (skipGaps fuel)
    | rest => some rest

/-- What follows the rest of a line that holds nothing but a comment. -/
def lineEnd? (cs : List Char) : Option (List Char) :=
  match skipBlanks cs with
  | [] => some []
  | '\n' :: rest => some rest
  | '#' :: rest => (afterComment? rest).map List.tail
  | _ => none

def keyPart? (cs : List Char) : Option (Bytes × List Char) :=
  match cs with
  | '"' :: rest => (basicFrom (rest.length + 1) rest []).map fun (t, r) => (Bytes.ofChars t, r)
  | '\'' :: rest => (literalFrom rest []).map fun (t, r) => (Bytes.ofChars t, r)
  | cs =>
    let word := cs.takeWhile fun c => c.isAlphanum || c == '_' || c == '-'
    if word.isEmpty then none else some (Bytes.ofChars word, cs.drop word.length)

def key? : Nat → List Char → Option (List Bytes × List Char)
  | 0, _ => none
  | fuel + 1, cs => do
    let (part, rest) ← keyPart? (skipBlanks cs)
    match skipBlanks rest with
    | '.' :: more =>
      let (parts, rest) ← key? fuel more
      some (part :: parts, rest)
    | rest => some ([part], rest)

mutual

def value : Nat → List Char → Option (ConfigValue × List Char)
  | 0, _ => none
  | fuel + 1, cs =>
    match cs with
    | '[' :: rest => (items fuel rest).map fun (vs, r) => (.list vs, r)
    | '\x7b' :: rest =>
      match skipBlanks rest with
      | '\x7d' :: r => some (.table [], r)
      | _ => (inlineEntries fuel [] rest).map fun (es, r) => (.table (entriesValue es), r)
    | '"' :: _ | '\'' :: _ => (string? cs).map fun (t, r) => (.text (Bytes.ofChars t), r)
    | _ => bare? cs

def items : Nat → List Char → Option (List ConfigValue × List Char)
  | 0, _ => none
  | fuel + 1, cs =>
    match skipGaps (cs.length + 1) cs with
    | none => none
    | some (']' :: rest) => some ([], rest)
    | some body =>
      (value fuel body).bind fun (v, rest) =>
        match skipGaps (rest.length + 1) rest with
        | some (',' :: more) => (items fuel more).map fun (vs, r) => (v :: vs, r)
        | some (']' :: more) => some ([v], more)
        | _ => none

def inlineEntries : Nat → Entries → List Char → Option (Entries × List Char)
  | 0, _, _ => none
  | fuel + 1, entries, cs =>
    match key? (cs.length + 1) cs with
    | some (path, '=' :: rest) =>
      (value fuel (skipBlanks rest)).bind fun (v, rest) =>
        (setKey [] path v entries).bind fun entries =>
          match skipBlanks rest with
          | ',' :: more => inlineEntries fuel entries more
          | '\x7d' :: more => some (entries, more)
          | _ => none
    | _ => none

end

/-! ## Documents -/

/-- Reads the lines of a document. `context` is the path of the table that the last header
opened. -/
def lines : Nat → List Bytes → Entries → List Char → Option Entries
  | 0, _, _, _ => none
  | fuel + 1, context, entries, cs =>
    match skipGaps (cs.length + 1) cs with
    | none => none
    | some [] => some entries
    | some ('[' :: '[' :: rest) =>
      match key? (rest.length + 1) rest with
      | some (path, ']' :: ']' :: more) =>
        (openArray path entries).bind fun entries =>
          (lineEnd? more).bind (lines fuel path entries)
      | _ => none
    | some ('[' :: rest) =>
      match key? (rest.length + 1) rest with
      | some (path, ']' :: more) =>
        (openTable path entries).bind fun entries =>
          (lineEnd? more).bind (lines fuel path entries)
      | _ => none
    | some body =>
      match key? (body.length + 1) body with
      | some (path, '=' :: rest) =>
        (value (rest.length + 1) (skipBlanks rest)).bind fun (v, rest) =>
          (setKey context path v entries).bind fun entries =>
            (lineEnd? rest).bind (lines fuel context entries)
      | _ => none

/-- The table that a text describes, unless the text breaks the rules of the notation. -/
def read (source : Bytes) : Option (NameMap ConfigValue) := do
  let text ← source.toText?
  let cs := dropReturns text.toList
  let cs := if cs.head? = some '\ufeff' then cs.tail else cs
  let entries ← lines (cs.length + 1) [] [] cs
  some (entriesValue entries)

end LuaLint.Toml
