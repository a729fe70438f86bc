import LuaLint.Yaml.Node
import LuaLint.Yaml.Token.Stream

/-!
# Reading YAML

The first document of a YAML stream, from its tokens. Further documents are not looked at, except
for the two tokens that the end of the first one is told from.
-/

namespace LuaLint.Yaml

/-! ## State -/

/-- The state between two nodes. -/
structure Reader where
  tokens : List Token
  shorthands : List (Bytes × Bytes)
  /-- The numbers of the anchors by name, the latest first. -/
  names : List (Bytes × Nat)
  count : Nat
  /-- The nodes of the anchors whose nodes are complete. -/
  nodes : List (Nat × Node)

namespace Reader

def peek (r : Reader) : Token := r.tokens.headD ⟨.fault, 0⟩

def kind (r : Reader) : TokenKind := r.peek.kind

/-- The line of the next token, counted from one. -/
def line (r : Reader) : Nat := r.peek.line + 1

def skip (r : Reader) : Reader := { r with tokens := r.tokens.tail }

def addAnchor (r : Reader) (name : Bytes) : Reader × Nat :=
  ({ r with names := (name, r.count) :: r.names, count := r.count + 1 }, r.count)

def anchor? (r : Reader) (name : Bytes) : Option Nat :=
  (r.names.find? fun entry => entry.1 == name).map Prod.snd

def fullTag? (r : Reader) (shorthand rest : Bytes) : Option Bytes :=
  if shorthand.isEmpty then some rest
  else (r.shorthands.find? fun entry => entry.1 == shorthand).map fun entry => entry.2 ++ rest

end Reader

/-- What may stand in front of a node. -/
structure Properties where
  line : Nat
  anchor : Option Nat
  tag : Option Bytes

def tagProperty (r : Reader) : Option (Option Bytes × Reader) :=
  match r.kind with
  | .tag shorthand rest => (r.fullTag? shorthand rest).map fun name => (some name, r.skip)
  | _ => some (none, r)

def anchorProperty (r : Reader) : Option Nat × Reader :=
  match r.kind with
  | .anchor name =>
    let (r, id) := r.skip.addAnchor name
    (some id, r)
  | _ => (none, r)

/-- Reads an anchor and a tag in either order. -/
def properties (r : Reader) : Option (Properties × Reader) := do
  let line := r.line
  match anchorProperty r with
  | (some id, r) =>
    let (tag, r) ← tagProperty r
    some (⟨line, some id, tag⟩, r)
  | (none, r) =>
    let (tag, r) ← tagProperty r
    if tag.isSome then
      let (anchor, r) := anchorProperty r
      some (⟨line, anchor, tag⟩, r)
    else some (⟨line, none, none⟩, r)

def scalarTag (plain : Bool) (tag : Option Bytes) (value : Bytes) : Tag :=
  let spelled : Tag := if !plain then .str else if value == "<<" then .merge else .ofPlain value
  match tag with
  | some name => if name == "!" || name.isEmpty then spelled else .ofFull name
  | none => spelled

/-- A complete node, kept for the uses of its anchor. -/
def complete (p : Properties) (n : Node) (r : Reader) : Node × Reader :=
  match p.anchor with
  | some id => (n, { r with nodes := (id, n) :: r.nodes })
  | none => (n, r)

def emptyNode (line : Nat) : Node := .scalar line .null []

/-! ## Nodes -/

mutual

/-- Reads a node. The flags tell whether it may be an indented collection, and whether it may be a
list whose dashes stand in the column of the key before it. -/
def node : Nat → Bool → Bool → Reader → Option (Node × Reader)
  | 0, _, _, _ => none
  | fuel + 1, block, indentless, r =>
    match r.kind with
    | .alias name => (r.anchor? name).map fun id => (.alias r.line id, r.skip)
    | _ =>
      match properties r with
      | none => none
      | some (p, r) =>
        let withItems (flow : Bool) (read : Option (List Node × Reader)) :=
          read.map fun (items, r) => complete p (.sequence p.line flow items) r
        let withEntries (read : Option (List (Node × Node) × Reader)) :=
          read.map fun (entries, r) => complete p (.mapping p.line entries) r
        match r.kind with
        | .blockEntry =>
          if indentless then withItems false (indentlessItems fuel r)
          else if p.anchor.isSome || p.tag.isSome then
            some (complete p (.scalar p.line (scalarTag true p.tag []) []) r)
          else none
        | .scalar plain value =>
          some (complete p (.scalar p.line (scalarTag plain p.tag value) value) r.skip)
        | .flowSequenceStart => withItems true (flowItems fuel true r.skip)
        | .flowMappingStart => withEntries (flowEntries fuel true r.skip)
        | other =>
          if block && other == .blockSequenceStart then withItems false (blockItems fuel r.skip)
          else if block && other == .blockMappingStart then
            withEntries (blockEntries fuel r.skip)
          else if p.anchor.isSome || p.tag.isSome then
            some (complete p (.scalar p.line (scalarTag true p.tag []) []) r)
          else none

def blockItems : Nat → Reader → Option (List Node × Reader)
  | 0, _ => none
  | fuel + 1, r =>
    match r.kind with
    | .blockEntry =>
      let line := r.line
      let r := r.skip
      let item :=
        match r.kind with
        | .blockEntry | .blockEnd => some (emptyNode line, r)
        | _ => node fuel true false r
      item.bind fun (n, r) => (blockItems fuel r).map fun (rest, r) => (n :: rest, r)
    | .blockEnd => some ([], r.skip)
    | _ => none

def indentlessItems : Nat → Reader → Option (List Node × Reader)
  | 0, _ => none
  | fuel + 1, r =>
    match r.kind with
    | .blockEntry =>
      let line := r.line
      let r := r.skip
      let item :=
        match r.kind with
        | .blockEntry | .key | .value | .blockEnd => some (emptyNode line, r)
        | _ => node fuel true false r
      item.bind fun (n, r) => (indentlessItems fuel r).map fun (rest, r) => (n :: rest, r)
    | _ => some ([], r)

def blockEntries : Nat → Reader → Option (List (Node × Node) × Reader)
  | 0, _ => none
  | fuel + 1, r =>
    match r.kind with
    | .key =>
      let line := r.line
      let r := r.skip
      let key :=
        match r.kind with
        | .key | .value | .blockEnd => some (emptyNode line, r)
        | _ => node fuel true true r
      key.bind fun (k, r) => (blockValue fuel r).bind fun (v, r) =>
        (blockEntries fuel r).map fun (rest, r) => ((k, v) :: rest, r)
    | .blockEnd => some ([], r.skip)
    | _ => none

def blockValue : Nat → Reader → Option (Node × Reader)
  | 0, _ => none
  | fuel + 1, r =>
    match r.kind with
    | .value =>
      let line := r.line
      let r := r.skip
      match r.kind with
      | .key | .value | .blockEnd => some (emptyNode line, r)
      | _ => node fuel true true r
    | _ => some (emptyNode r.line, r)

def flowItems : Nat → Bool → Reader → Option (List Node × Reader)
  | 0, _, _ => none
  | fuel + 1, first, r =>
    match r.kind with
    | .flowSequenceEnd => some ([], r.skip)
    | other =>
      if !first && other != .flowEntry then none
      else
        let r := if first then r else r.skip
        let item :=
          match r.kind with
          | .flowSequenceEnd => none
          | .key => some (flowPair fuel r.line r.skip)
          | _ => some (node fuel false false r)
        match item with
        | none => some ([], r.skip)
        | some read =>
          read.bind fun (n, r) => (flowItems fuel false r).map fun (rest, r) => (n :: rest, r)

/-- Reads a mapping of one entry that stands among the items of a list in brackets. -/
def flowPair : Nat → Nat → Reader → Option (Node × Reader)
  | 0, _, _ => none
  | fuel + 1, line, r =>
    let key :=
      match r.kind with
      | .value | .flowEntry | .flowSequenceEnd => some (emptyNode r.line, r.skip)
      | _ => node fuel false false r
    key.bind fun (k, r) =>
      let value :=
        match r.kind with
        | .value =>
          let r := r.skip
          match r.kind with
          | .flowEntry | .flowSequenceEnd => some (emptyNode r.line, r)
          | _ => node fuel false false r
        | _ => some (emptyNode r.line, r)
      value.map fun (v, r) => (.mapping line [(k, v)], r)

def flowEntries : Nat → Bool → Reader → Option (List (Node × Node) × Reader)
  | 0, _, _ => none
  | fuel + 1, first, r =>
    match r.kind with
    | .flowMappingEnd => some ([], r.skip)
    | other =>
      if !first && other != .flowEntry then none
      else
        let r := if first then r else r.skip
        match r.kind with
        | .flowMappingEnd => some ([], r.skip)
        | .key =>
          let r := r.skip
          let key :=
            match r.kind with
            | .value | .flowEntry | .flowMappingEnd => some (emptyNode r.line, r)
            | _ => node fuel false false r
          key.bind fun (k, r) => (flowValue fuel r).bind fun (v, r) =>
            (flowEntries fuel false r).map fun (rest, r) => ((k, v) :: rest, r)
        | _ =>
          (node fuel false false r).bind fun (k, r) =>
            let value := emptyNode r.line
            (flowEntries fuel false r).map fun (rest, r) => ((k, value) :: rest, r)

def flowValue : Nat → Reader → Option (Node × Reader)
  | 0, _ => none
  | fuel + 1, r =>
    match r.kind with
    | .value =>
      let r := r.skip
      match r.kind with
      | .flowEntry | .flowMappingEnd => some (emptyNode r.line, r)
      | _ => node fuel false false r
    | _ => some (emptyNode r.line, r)

end

/-! ## Documents -/

/-- Reads the directives in front of a document, and whether there was one for the version. -/
def directives (versioned : Bool) : List Token → List (Bytes × Bytes) →
    Option (List Token × List (Bytes × Bytes))
  | ⟨.version supported, _⟩ :: rest, known =>
    if versioned || !supported then none else directives true rest known
  | ⟨.tagDirective shorthand full, _⟩ :: rest, known =>
    if known.any fun entry => entry.1 == shorthand then none
    else directives versioned rest ((shorthand, full) :: known)
  | rest, known => some (rest, known)

def usualShorthands : List (Bytes × Bytes) := [("!", "!"), ("!!", "tag:yaml.org,2002:")]

/-- The root of a document that begins with `---`, or which does so implicitly. -/
def rootNode (explicit : Bool) (fuel : Nat) (r : Reader) : Option (Node × Reader) :=
  match explicit, r.kind with
  | true, .version _ | true, .tagDirective _ _ | true, .documentStart | true, .documentEnd
  | true, .streamEnd => some (emptyNode r.line, r)
  | _, _ => node fuel true false r

def document? (tokens : List Token) : Option (Option Document) := do
  let fuel := 4 * tokens.length + 8
  match tokens.head?.map Token.kind with
  | some .streamEnd => some none
  | first =>
    let (rest, known) ← directives false tokens []
    let explicit := first = some .documentStart || rest.length != tokens.length
    if explicit && (rest.head?.map Token.kind) != some .documentStart then none
    let body := if explicit then rest.tail else rest
    let (root, r) ← rootNode explicit fuel ⟨body, known ++ usualShorthands, [], 0, []⟩
    if (r.tokens.take 3).any fun t => t.kind == .fault then none
    let anchors := (List.range r.count).map fun id =>
      ((r.nodes.find? fun entry => entry.1 == id).map Prod.snd).getD (emptyNode 0)
    some (some ⟨root, anchors⟩)

/-- The first document of a text. The outer result is missing when the text cannot be read, and the
inner one when the text holds no document. -/
def read (source : Bytes) : Option (Option Document) :=
  (source.toText?).bind fun text => document? (tokens text.toList)

end LuaLint.Yaml
