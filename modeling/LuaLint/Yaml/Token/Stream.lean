import LuaLint.Yaml.Token.Tag

/-!
# The tokens of a YAML stream

Reading the tokens of a text one after the other. That a scalar is the key of a mapping is only
known when the colon behind it is met, so the token that says so is put in front of it afterwards.
-/

namespace LuaLint.Yaml

/-! ## The state between tokens -/

/-- A place where the key of a mapping may have begun. -/
structure SimpleKey where
  /-- Whether only a key can stand there. -/
  required : Bool
  number : Nat
  start : Cursor
  deriving Repr

/-- The state between two tokens. -/
structure Scanner where
  here : Cursor
  tokens : List Token
  count : Nat
  /-- The column of the innermost block, or -1 outside of all blocks. -/
  indent : Int
  /-- The columns of the blocks around it. -/
  indents : List Int
  keyAllowed : Bool
  /-- Where a key may have begun, inside of each bracket and then outside of all. -/
  keys : List (Option SimpleKey)
  deriving Repr

namespace Scanner

def start (text : List Char) : Scanner := ⟨⟨text, 0, 0, 0⟩, [], 0, -1, [], true, [none]⟩

def inFlow (s : Scanner) : Bool := s.keys.length > 1

def push (s : Scanner) (kind : TokenKind) (line : Nat) : Scanner :=
  { s with tokens := ⟨kind, line⟩ :: s.tokens, count := s.count + 1 }

def insertAt (s : Scanner) (number : Nat) (kind : TokenKind) (line : Nat) : Scanner :=
  let later := s.count - number
  { s with
    tokens := s.tokens.take later ++ ⟨kind, line⟩ :: s.tokens.drop later
    count := s.count + 1 }

/-- No key begins here any more, unless one has to. -/
def dropKey (s : Scanner) : Option Scanner :=
  match s.keys with
  | some k :: outer => if k.required then none else some { s with keys := none :: outer }
  | _ => some s

def saveKey (s : Scanner) : Option Scanner :=
  if s.keyAllowed then do
    let s ← s.dropKey
    let required := !s.inFlow && s.indent == s.here.column
    some { s with keys := some ⟨required, s.count, s.here⟩ :: s.keys.tail }
  else some s

/-- The place where the key before a colon began. A key fits on one line and is not too long. -/
def key? (s : Scanner) : Option (Option SimpleKey) :=
  match s.keys with
  | some k :: _ =>
    if k.start.line < s.here.line || k.start.index + 1024 < s.here.index then
      if k.required then none else some none
    else some (some k)
  | _ => some none

/-- A block opens in a column, unless the innermost one stands there already. -/
def openBlock (s : Scanner) (column : Nat) (number : Nat) (kind : TokenKind) (line : Nat) :
    Scanner :=
  if s.inFlow || s.indent ≥ column then s
  else
    { s.insertAt number kind line with indent := column, indents := s.indent :: s.indents }

def closeBlocks (column : Int) : List Int → Scanner → Scanner
  | [], s => s
  | outer :: rest, s =>
    if s.inFlow || s.indent ≤ column then s
    else closeBlocks column rest
      { s.push .blockEnd s.here.line with indent := outer, indents := rest }

/-- Blanks, line breaks and comments are passed. A tab does not count as a blank where a key may
begin. -/
def skipGap : Nat → Scanner → Scanner
  | 0, s => s
  | fuel + 1, s =>
    let c := s.here
    let c := if c.column == 0 && c.rest.head? = some '\ufeff' then c.advance else c
    let c := c.skipWhile fun ch => ch == ' ' || (ch == '\t' && (s.inFlow || !s.keyAllowed))
    let c := if c.rest.head? = some '#' then c.skipComments c.rest.length else c
    if (c.rest.head?).any isBreak then
      skipGap fuel { s with here := c.advance, keyAllowed := s.keyAllowed || !s.inFlow }
    else { s with here := c }

def take (s : Scanner) (kind : TokenKind) (n : Nat) : Scanner :=
  { s.push kind s.here.line with here := s.here.advanceBy n }

def outside (s : Scanner) : Option Scanner := do
  let s ← (closeBlocks (-1) s.indents s).dropKey
  some { s with keyAllowed := false }

def openFlow (s : Scanner) (kind : TokenKind) : Option Scanner := do
  let s ← s.saveKey
  some { s.take kind 1 with keys := none :: s.keys, keyAllowed := true }

def closeFlow (s : Scanner) (kind : TokenKind) : Option Scanner := do
  let s ← s.dropKey
  some { s.take kind 1 with
    keys := if s.inFlow then s.keys.tail else s.keys
    keyAllowed := false }

def flowEntry (s : Scanner) : Option Scanner := do
  let s ← s.dropKey
  some { s.take .flowEntry 1 with keyAllowed := true }

def blockEntry (s : Scanner) : Option Scanner := do
  if !s.inFlow && !s.keyAllowed then none
  let s := s.openBlock s.here.column s.count .blockSequenceStart s.here.line
  let s ← s.dropKey
  some { s.take .blockEntry 1 with keyAllowed := true }

def explicitKey (s : Scanner) : Option Scanner := do
  if !s.inFlow && !s.keyAllowed then none
  let s := s.openBlock s.here.column s.count .blockMappingStart s.here.line
  let s ← s.dropKey
  some { s.take .key 1 with keyAllowed := !s.inFlow }

def colon (s : Scanner) : Option Scanner := do
  match ← s.key? with
  | some k =>
    let s := s.insertAt k.number .key k.start.line
    let s := s.openBlock k.start.column k.number .blockMappingStart k.start.line
    some { s.take .value 1 with keys := none :: s.keys.tail, keyAllowed := false }
  | none =>
    if !s.inFlow && !s.keyAllowed then none
    let s := s.openBlock s.here.column s.count .blockMappingStart s.here.line
    some { s.take .value 1 with keys := none :: s.keys.tail, keyAllowed := !s.inFlow }

def anchor (s : Scanner) (kind : Bytes → TokenKind) : Option Scanner := do
  let s ← s.saveKey
  let word := (s.here.rest.drop 1).takeWhile isWord
  let next := s.here.rest.drop (word.length + 1)
  if word.isEmpty || !(atGap next || (next.head?).any (['?', ':', ',', ']', '\x7d', '%', '@',
      '\x60'].contains ·)) then none
  else some { s.take (kind (Bytes.ofChars word)) (word.length + 1) with keyAllowed := false }

def tag (s : Scanner) : Option Scanner := do
  let s ← s.saveKey
  let (shorthand, rest, n) ← tag? s.here.rest
  if !atGap (s.here.rest.drop n) then none
  else some { s.take (.tag shorthand rest) n with keyAllowed := false }

def scalar (s : Scanner) (plain : Bool) (e : ScalarEnd) : Scanner :=
  { s.push (.scalar plain (Bytes.ofChars e.text)) s.here.line with
    here := e.here
    keyAllowed := e.broken }

def block (s : Scanner) (literal : Bool) : Option Scanner := do
  let s ← s.dropKey
  let e ← blockScalar literal s.indent s.here
  some (s.scalar false e)

def quoted (s : Scanner) (double : Bool) : Option Scanner := do
  let s ← s.saveKey
  let e ← quotedFrom double (s.here.rest.length + 1) s.here.advance .none []
  some (s.scalar false e)

def plain (s : Scanner) : Option Scanner := do
  let s ← s.saveKey
  let e ← plainFrom (s.indent + 1) s.inFlow (s.here.rest.length + 1) s.here .none []
  some (s.scalar true e)

def directive (s : Scanner) : Option Scanner := do
  let s ← s.outside
  let (kind, c) ← directive? s.here
  let c := c.skipWhile isBlank
  let c := if c.rest.head? = some '#' then c.skipLine else c
  if c.rest.head?.all isBreak then some { s.push kind s.here.line with here := c.advance } else none

/-- The characters that cannot begin a scalar without quotes. -/
def signs : List Char :=
  ['-', '?', ':', ',', '[', ']', '\x7b', '\x7d', '#', '&', '*', '!', '|', '>', '\'', '"', '%',
    '@', '\x60']

/-- Reads one token. The place is not a gap and not the end. -/
def next? (s : Scanner) : Option Scanner :=
  match s.here.rest with
  | [] => none
  | ch :: rest =>
    let commented (r : Option Scanner) : Option Scanner :=
      r.map fun s => { s with here := s.here.skipTrailingComment }
    if s.here.column == 0 && ch == '%' then s.directive
    else if s.here.column == 0 && atDocumentMark s.here.rest then
      s.outside.map fun s => s.take (if ch == '-' then .documentStart else .documentEnd) 3
    else if ch == '[' then commented (s.openFlow .flowSequenceStart)
    else if ch == '\x7b' then commented (s.openFlow .flowMappingStart)
    else if ch == ']' then commented (s.closeFlow .flowSequenceEnd)
    else if ch == '\x7d' then commented (s.closeFlow .flowMappingEnd)
    else if ch == ',' then commented s.flowEntry
    else if ch == '-' && atGap rest then s.blockEntry
    else if ch == '?' && (s.inFlow || atGap rest) then commented s.explicitKey
    else if ch == ':' && (s.inFlow || atGap rest) then commented s.colon
    else if ch == '*' then commented (s.anchor .alias)
    else if ch == '&' then commented (s.anchor .anchor)
    else if ch == '!' then commented s.tag
    else if ch == '|' && !s.inFlow then s.block true
    else if ch == '>' && !s.inFlow then s.block false
    else if ch == '\'' then commented (s.quoted false)
    else if ch == '"' then commented (s.quoted true)
    else if !(signs.contains ch || isBlank ch) || (ch == '-' && !(rest.head?.any isBlank)) ||
        (!s.inFlow && (ch == '?' || ch == ':') && !atGap rest) then
      commented s.plain
    else none

/-- The end of the stream, which is also the end of its last line. -/
def finish (s : Scanner) : Option Scanner :=
  let last := if s.here.column = 0 then s.here.line else s.here.line + 1
  let ended : Scanner := { s with here := ⟨[], last, 0, s.here.index⟩ }
  ended.outside.map fun s => s.push .streamEnd last

def runFrom : Nat → Scanner → List Token
  | 0, s => (⟨.fault, s.here.line⟩ :: s.tokens).reverse
  | fuel + 1, s =>
    let s := skipGap (s.here.rest.length + 1) s
    let s := closeBlocks s.here.column s.indents s
    let fault := (⟨.fault, s.here.line⟩ :: s.tokens).reverse
    if s.here.rest.isEmpty then
      match s.finish with
      | none => fault
      | some s => s.tokens.reverse
    else match s.next? with
      | none => fault
      | some s => runFrom fuel s

end Scanner

/-! ## Streams -/

/-- A text with all line breaks of one character written as a line feed. -/
def unifyBreaks : List Char → List Char
  | '\r' :: '\n' :: rest => '\n' :: unifyBreaks rest
  | c :: rest => (if c == '\r' || c == '\u0085' then '\n' else c) :: unifyBreaks rest
  | [] => []

def isAllowed (c : Char) : Bool :=
  let n := c.toNat
  n == 9 || n == 10 || n == 13 || (32 ≤ n && n ≤ 126) || n == 0x85 || (0xA0 ≤ n && n ≤ 0xFFFD) ||
    0x10000 ≤ n

def tokens (text : List Char) : List Token :=
  let text := if text.head? = some '\ufeff' then text.tail else text
  if text.all isAllowed then Scanner.runFrom (text.length + 1) (.start (unifyBreaks text))
  else [⟨.fault, 0⟩]

end LuaLint.Yaml
