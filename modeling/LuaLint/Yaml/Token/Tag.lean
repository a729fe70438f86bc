import LuaLint.Yaml.Token.Scalar

/-!
# Tags and directives in YAML streams

How tags are written, and the directives at the beginning of a document.
-/

namespace LuaLint.Yaml

def isTagChar (c : Char) : Bool :=
  isWord c || [';', '/', '?', ':', '@', '&', '=', '+', '$', '.', '!', '~', '*', '\'', '(', ')',
    '[', ']', '%'].contains c

/-- The name that some characters of a tag denote. A percent sign is followed by the two digits of
a byte. -/
def tagText? : List Char → Option Bytes
  | [] => some []
  | '%' :: a :: b :: rest => do
    let x ← hexDigit? a
    let y ← hexDigit? b
    let more ← tagText? rest
    some ((x * 16 + y).toUInt8 :: more)
  | c :: rest => if c == '%' then none else (tagText? rest).map (Bytes.ofChar c ++ ·)

/-- Reads a tag: its shorthand, the rest of its name and its length. -/
def tag? (cs : List Char) : Option (Bytes × Bytes × Nat) :=
  match cs with
  | '!' :: '<' :: rest => do
    let body := rest.takeWhile isTagChar
    let name ← tagText? body
    if name.isEmpty || (rest.drop body.length).head? != some '>' then none
    else some ([], name, body.length + 3)
  | '!' :: rest =>
    let word := rest.takeWhile isWord
    match rest.drop word.length with
    | '!' :: more => do
      let body := more.takeWhile isTagChar
      let name ← tagText? body
      if name.isEmpty then none
      else some ("!" ++ Bytes.ofChars word ++ "!", name, word.length + body.length + 2)
    | _ => do
      let body := rest.takeWhile isTagChar
      let name ← tagText? body
      if name.isEmpty then some ([], "!", 1) else some ("!", name, body.length + 1)
  | _ => none

/-- Reads a directive from its percent sign on: what it says and the place after it. -/
def directive? (c : Cursor) : Option (TokenKind × Cursor) :=
  let c := c.advance
  let word := c.rest.takeWhile isWord
  let c := c.advanceBy word.length
  if word.isEmpty || !atGap c.rest then none
  else
    let c := c.skipWhile isBlank
    if word = ['Y', 'A', 'M', 'L'] then
      let major := c.rest.takeWhile Char.isDigit
      let c := c.advanceBy major.length
      let minor := (c.rest.drop 1).takeWhile Char.isDigit
      if major.isEmpty || minor.isEmpty || c.rest.head? != some '.' then none
      else some (.version (major = ['1'] && minor = ['1']), c.advanceBy (minor.length + 1))
    else if word = ['T', 'A', 'G'] then
      let shorthand := c.rest.takeWhile fun ch => isWord ch || ch == '!'
      let c := c.advanceBy shorthand.length
      let ahead := c.skipWhile isBlank
      let full := ahead.rest.takeWhile isTagChar
      let c' := ahead.advanceBy full.length
      if shorthand.head? != some '!' || shorthand.getLast? != some '!' || c.rest.isEmpty ||
          !(c.rest.head?.any isBlank) || full.isEmpty || !atGap c'.rest then none
      else (tagText? full).map fun name => (.tagDirective (Bytes.ofChars shorthand) name, c')
    else none

end LuaLint.Yaml
