import LuaLint.Text.Quoted

/-!
# JSON values

Values of the JSON format and their compact text. Members of an object keep the order in which they
are given. The text is safe inside HTML: the characters `<`, `>` and `&` and the two line separators
of Unicode are escaped.
-/

namespace LuaLint

inductive JsonValue where
  | null
  | bool (value : Bool)
  | number (mantissa : Int) (scale : Nat)
  | text (value : Bytes)
  | list (items : List JsonValue)
  | object (members : List (Bytes × JsonValue))
  deriving Repr, Inhabited

namespace JsonValue

def int (n : Int) : JsonValue := .number n 0

def nat (n : Nat) : JsonValue := .int n

def texts (items : List Bytes) : JsonValue := .list (items.map .text)

/-- The members of an object. Other values have none. -/
def members : JsonValue → List (Bytes × JsonValue)
  | .object members => members
  | _ => []

/-- The member of an object with a given name, the last one when there are several. -/
def member? (name : Bytes) (value : JsonValue) : Option JsonValue :=
  (value.members.reverse.find? fun entry => entry.1 == name).map Prod.snd

/-! ## Text -/

def character (c : Char) : Bytes :=
  match c with
  | '"' => "\\\""
  | '\\' => "\\\\"
  | '\n' => "\\n"
  | '\r' => "\\r"
  | '\t' => "\\t"
  | '\x08' => "\\b"
  | '\x0c' => "\\f"
  | _ =>
    if c.toNat < 32 || c == '<' || c == '>' || c == '&' || c == '\u2028' || c == '\u2029' then
      "\\u" ++ Quoted.hex 4 c.toNat
    else Bytes.ofChar c

/-- A quoted text, every stray byte shown as U+FFFD. -/
def quoted (value : Bytes) : Bytes := "\"" ++ value.chars.flatMap character ++ "\""

def digits (mantissa : Int) (scale : Nat) : Bytes :=
  if scale == 0 then Bytes.ofInt mantissa
  else
    let whole := mantissa.natAbs / Nat.pow 10 scale
    let part := Bytes.ofNat (mantissa.natAbs % Nat.pow 10 scale)
    let sign : Bytes := if mantissa < 0 then "-" else ""
    let zeros : Bytes := List.replicate (scale - part.length) 48
    sign ++ Bytes.ofNat whole ++ "." ++ zeros ++ part

mutual

def render : JsonValue → Bytes
  | .null => "null"
  | .bool true => "true"
  | .bool false => "false"
  | .number mantissa scale => digits mantissa scale
  | .text value => quoted value
  | .list items => "[" ++ Bytes.join "," (renderAll items) ++ "]"
  | .object members => "\x7b" ++ Bytes.join "," (renderMembers members) ++ "\x7d"

def renderAll : List JsonValue → List Bytes
  | [] => []
  | v :: rest => v.render :: renderAll rest

def renderMembers : List (Bytes × JsonValue) → List Bytes
  | [] => []
  | (name, v) :: rest => (quoted name ++ ":" ++ v.render) :: renderMembers rest

end

end JsonValue

end LuaLint
