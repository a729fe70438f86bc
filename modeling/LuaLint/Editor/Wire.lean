import LuaLint.Editor.Server
import LuaLint.Json.Reader

/-!
# Talking to an editor

Messages travel as JSON texts, each after a heading that tells its length. Messages with an id are
requests and are answered. Notices that a message gives rise to come before its answer.
-/

namespace LuaLint

namespace Wire

/-! ## Headings -/

def lengthOf? (line : Bytes) : Option Nat := do
  let (name, value) ← Bytes.cut? 58 line
  if lowerCase name != "content-length" then none
  let digits := (value.dropWhile (· == 32)).filter (· != 13)
  if digits.isEmpty || !digits.all (fun b => 48 ≤ b && b ≤ 57) then none
  some (digits.foldl (fun n b => n * 10 + (b.toNat - 48)) 0)

/-- The lines of a heading up to the empty one, with the rest. -/
def heading? : Nat → Bytes → Option (List Bytes × Bytes)
  | 0, _ => none
  | fuel + 1, s => do
    let (line, rest) ← Bytes.cut? 10 s
    let line := line.filter (· != 13)
    if line.isEmpty then some ([], rest)
    else
      let (lines, rest) ← heading? fuel rest
      some (line :: lines, rest)

/-- The first message of what has been received, with the rest. -/
def takeFrame? (s : Bytes) : Option (Bytes × Bytes) := do
  let (lines, rest) ← heading? (s.length + 1) s
  let size ← lines.findSome? lengthOf?
  if rest.length < size then none
  some (rest.take size, rest.drop size)

def frame (v : JsonValue) : Bytes :=
  let body := v.render
  "Content-Length: " ++ Bytes.ofNat body.length ++ "\r\n\r\n" ++ body

/-! ## Answers -/

def version : Bytes × JsonValue := ("jsonrpc", .text "2.0")

def ofNotice (n : Notice) : JsonValue :=
  .object [("method", .text n.method), ("params", n.params), version]

def failure (code : Int) (message : Bytes) : Bytes × JsonValue :=
  ("error", .object [("code", .int code), ("message", .text message)])

def ofOutcome (id : JsonValue) (method : Bytes) (o : Outcome) : JsonValue :=
  let body : Bytes × JsonValue := match o with
    | .result value => ("result", value)
    | .unknownMethod => failure (-32601) ("method not supported: " ++ method)
    | .invalidParams => failure (-32602) []
    | other => failure (-32600) (other.message?.getD [])
  .object [("id", id), body, version]

end Wire

/-! ## Conversations -/

/-- The effect of a message: the session after it and what is sent. -/
def Session.respond (s : Session) (l : Linter) (message : JsonValue) :
    Session × List JsonValue :=
  let method := ((message.member? "method").bind JsonValue.asText?).getD []
  let params := (message.member? "params").getD .null
  let (s, outcome, notices) := s.receive l method params
  let s := if method == "exit" then { s with exited := some (s.exited.getD 0) } else s
  let answer : List JsonValue := match message.member? "id" with
    | some id => [Wire.ofOutcome id method outcome]
    | none => []
  (s, notices.map Wire.ofNotice ++ answer)

/-- What is said in the rest of a conversation. It ends when the editor leaves or says something
that is no message. -/
def Linter.converseFrom (l : Linter) : Nat → Session → Bytes → Bytes
  | 0, _, _ => []
  | fuel + 1, s, received =>
    match Wire.takeFrame? received with
    | none => []
    | some (body, rest) =>
      match JsonValue.read? body with
      | none => []
      | some message =>
        let (s, sent) := s.respond l message
        let said := sent.flatMap Wire.frame
        if s.exited.isSome then said else said ++ l.converseFrom fuel s rest

def Linter.converse (l : Linter) (received : Bytes) : Bytes :=
  l.converseFrom (received.length + 1) .start received

end LuaLint
