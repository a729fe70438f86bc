import LuaLint.Syntax.Basic

/-!
# Syntax trees elsewhere

The same tree as it stands in another text: every offset moves, and names may become other names.
What happens to a name may depend on where it stands.
-/

namespace LuaLint

/-! ## Relocations -/

/-- Where offsets move to and what names become. -/
structure Relocation where
  offset : Nat → Nat
  /-- What a name becomes that stands at an offset. -/
  name : Nat → Bytes → Bytes

def Ident.relocate (r : Relocation) (i : Ident) : Ident := ⟨r.offset i.pos, r.name i.pos i.name⟩

def LocalName.relocate (r : Relocation) (n : LocalName) : LocalName :=
  ⟨n.ident.relocate r, n.attrib.map fun a => ⟨a.toIdent.relocate r, r.offset a.stop⟩⟩

def FuncName.relocate (r : Relocation) (n : FuncName) : FuncName :=
  ⟨n.base.relocate r, n.fields.map (Ident.relocate r), n.method.map (Ident.relocate r)⟩

def CallForm.relocate (r : Relocation) : CallForm → CallForm
  | .parens lparen rparen => .parens (r.offset lparen) (r.offset rparen)
  | .literal => .literal

mutual

def Expr.relocate (r : Relocation) : Expr → Expr
  | .nil pos => .nil (r.offset pos)
  | .bool pos value => .bool (r.offset pos) value
  | .number pos raw => .number (r.offset pos) raw
  | .string pos raw value => .string (r.offset pos) raw value
  | .vararg pos => .vararg (r.offset pos)
  | .name i => .name (i.relocate r)
  | .function pos body => .function (r.offset pos) (body.relocate r)
  | .table lbrace fields rbrace =>
    .table (r.offset lbrace) (TableField.relocateAll r fields) (r.offset rbrace)
  | .binary op pos left right => .binary op (r.offset pos) (left.relocate r) (right.relocate r)
  | .unary op pos operand => .unary op (r.offset pos) (operand.relocate r)
  | .paren lparen inner rparen => .paren (r.offset lparen) (inner.relocate r) (r.offset rparen)
  | .field object i => .field (object.relocate r) (i.relocate r)
  | .element object lbrack key rbrack =>
    .element (object.relocate r) (r.offset lbrack) (key.relocate r) (r.offset rbrack)
  | .call callee method form args =>
    .call (callee.relocate r) (method.map (Ident.relocate r)) (form.relocate r)
      (Expr.relocateAll r args)

def Expr.relocateAll (r : Relocation) : List Expr → List Expr
  | [] => []
  | e :: es => e.relocate r :: Expr.relocateAll r es

def TableField.relocate (r : Relocation) : TableField → TableField
  | .positional value => .positional (value.relocate r)
  | .named i value => .named (i.relocate r) (value.relocate r)
  | .keyed lbrack key value => .keyed (r.offset lbrack) (key.relocate r) (value.relocate r)

def TableField.relocateAll (r : Relocation) : List TableField → List TableField
  | [] => []
  | f :: fs => f.relocate r :: TableField.relocateAll r fs

def FuncBody.relocate (r : Relocation) : FuncBody → FuncBody
  | .mk lparen params vararg rparen body endPos =>
    .mk (r.offset lparen) (params.map (Ident.relocate r)) (vararg.map r.offset) (r.offset rparen)
      (body.relocate r) (r.offset endPos)

def Stmt.relocate (r : Relocation) : Stmt → Stmt
  | .localAssign pos names values =>
    .localAssign (r.offset pos) (names.map (LocalName.relocate r)) (Expr.relocateAll r values)
  | .assign targets equal values =>
    .assign (Expr.relocateAll r targets) (r.offset equal) (Expr.relocateAll r values)
  | .call callee method form args =>
    .call (callee.relocate r) (method.map (Ident.relocate r)) (form.relocate r)
      (Expr.relocateAll r args)
  | .doBlock pos body endPos => .doBlock (r.offset pos) (body.relocate r) (r.offset endPos)
  | .whileLoop pos cond body endPos =>
    .whileLoop (r.offset pos) (cond.relocate r) (body.relocate r) (r.offset endPos)
  | .repeatLoop pos body untilPos cond =>
    .repeatLoop (r.offset pos) (body.relocate r) (r.offset untilPos) (cond.relocate r)
  | .ifThen pos cond thenPos body arms otherwise endPos =>
    .ifThen (r.offset pos) (cond.relocate r) (r.offset thenPos) (body.relocate r)
      (ElseIf.relocateAll r arms) (otherwise.relocate r) (r.offset endPos)
  | .numericFor pos var start limit step body endPos =>
    .numericFor (r.offset pos) (var.relocate r) (start.relocate r) (limit.relocate r)
      (Expr.relocateStep r step) (body.relocate r) (r.offset endPos)
  | .genericFor pos names exprs body endPos =>
    .genericFor (r.offset pos) (names.map (Ident.relocate r)) (Expr.relocateAll r exprs)
      (body.relocate r) (r.offset endPos)
  | .function pos name body => .function (r.offset pos) (name.relocate r) (body.relocate r)
  | .localFunction pos name body =>
    .localFunction (r.offset pos) (name.relocate r) (body.relocate r)
  | .ret pos values => .ret (r.offset pos) (Expr.relocateAll r values)
  | .brk pos => .brk (r.offset pos)
  | .goto pos target => .goto (r.offset pos) (target.relocate r)
  | .label pos name past => .label (r.offset pos) (name.relocate r) (r.offset past)

def Expr.relocateStep (r : Relocation) : Option Expr → Option Expr
  | none => none
  | some e => some (e.relocate r)

def Stmt.relocateAll (r : Relocation) : List Stmt → List Stmt
  | [] => []
  | s :: ss => s.relocate r :: Stmt.relocateAll r ss

def ElseIf.relocate (r : Relocation) : ElseIf → ElseIf
  | .mk pos cond thenPos body =>
    .mk (r.offset pos) (cond.relocate r) (r.offset thenPos) (body.relocate r)

def ElseIf.relocateAll (r : Relocation) : List ElseIf → List ElseIf
  | [] => []
  | arm :: arms => arm.relocate r :: ElseIf.relocateAll r arms

def ElsePart.relocate (r : Relocation) : ElsePart → ElsePart
  | .absent => .absent
  | .present pos body => .present (r.offset pos) (body.relocate r)

def Block.relocate (r : Relocation) : Block → Block
  | .mk pos stmts => .mk (r.offset pos) (Stmt.relocateAll r stmts)

end

/-! ## Forgetting offsets -/

/-- The relocation that forgets offsets and keeps names. -/
def Relocation.forget : Relocation := ⟨fun _ => 0, fun _ name => name⟩

@[simp] theorem Relocation.offset_forget (n : Nat) : forget.offset n = 0 := rfl

@[simp] theorem Relocation.name_forget (n : Nat) (name : Bytes) : forget.name n name = name := rfl

abbrev Ident.erase (i : Ident) : Ident := i.relocate .forget

abbrev LocalName.erase (n : LocalName) : LocalName := n.relocate .forget

abbrev FuncName.erase (n : FuncName) : FuncName := n.relocate .forget

abbrev CallForm.erase (form : CallForm) : CallForm := form.relocate .forget

abbrev Expr.erase (e : Expr) : Expr := e.relocate .forget

abbrev Expr.eraseAll (es : List Expr) : List Expr := Expr.relocateAll .forget es

abbrev TableField.erase (f : TableField) : TableField := f.relocate .forget

abbrev TableField.eraseAll (fs : List TableField) : List TableField := relocateAll .forget fs

abbrev FuncBody.erase (b : FuncBody) : FuncBody := b.relocate .forget

abbrev Stmt.erase (s : Stmt) : Stmt := s.relocate .forget

abbrev Stmt.eraseAll (ss : List Stmt) : List Stmt := relocateAll .forget ss

abbrev ElseIf.eraseAll (arms : List ElseIf) : List ElseIf := relocateAll .forget arms

abbrev Block.erase (b : Block) : Block := b.relocate .forget

end LuaLint
