import LuaLint.Syntax.Literal
import LuaLint.Proofs.Grammar.WellFormed

/-!
# Reading trees off their tokens

The tokens of a phrase in source order. A tree records every token of its source but the
separators: the semicolons around statements and the commas or semicolons after table entries. The
relation `Reads` says that a list of tokens writes a phrase, with those separators left free, and
that every offset in the tree is the offset of the token it belongs to.
-/

namespace LuaLint

/-! ## Single tokens -/

namespace Token

/-- A reserved word, operator or delimiter of the given kind, spelled as that kind is. -/
def Is (t : Token) (kind : TokenKind) : Prop := t.kind = kind ∧ t.text = Bytes.ofString kind.label

def ident (t : Token) : Ident := ⟨t.pos, t.text⟩

/-- A string token stands for a byte string. -/
inductive Denotes (t : Token) : Bytes → Prop where
  | quoted {value : Bytes} :
      t.kind = .string → Literal.unquote t.text = .ok value → Denotes t value
  | bracketed : t.kind = .longString → Denotes t (Literal.unbracket t.text)

def firstPos (ts : List Token) : Nat := (ts.map Token.pos).headD 0

end Token

/-! ## Names -/

/-- Names with a separator before each of them. -/
inductive ReadsNames (sep : TokenKind) : List Ident → List Token → Prop where
  | nil : ReadsNames sep [] []
  | cons {t u : Token} {is : List Ident} {ts : List Token} :
      t.Is sep → u.kind = .name → ReadsNames sep is ts →
      ReadsNames sep (u.ident :: is) ([t] ++ [u] ++ ts)

/-- A name declared by a `local` statement, with or without an attribute. -/
inductive ReadsLocal : LocalName → List Token → Prop where
  | plain {t : Token} : t.kind = .name → ReadsLocal ⟨t.ident, none⟩ [t]
  | attributed {t l w g : Token} :
      t.kind = .name → l.Is (.sign .less) → w.kind = .name → g.Is (.sign .greater) →
      ReadsLocal ⟨t.ident, some ⟨w.ident, g.stop⟩⟩ ([t] ++ [l] ++ [w] ++ [g])

/-- The names of a `local` statement. -/
inductive ReadsLocals : List LocalName → List Token → Prop where
  | last {n : LocalName} {ts : List Token} : ReadsLocal n ts → ReadsLocals [n] ts
  | cons {n : LocalName} {ns : List LocalName} {c : Token} {ts us : List Token} :
      ReadsLocal n ts → c.Is (.sign .comma) → ReadsLocals ns us →
      ReadsLocals (n :: ns) (ts ++ [c] ++ us)

/-- The parameters of a function, at least one. -/
inductive ReadsParams : List Ident → Option Nat → List Token → Prop where
  | vararg {t : Token} : t.Is (.sign .ellipsis) → ReadsParams [] (some t.pos) [t]
  | last {t : Token} : t.kind = .name → ReadsParams [t.ident] none [t]
  | cons {t c : Token} {is : List Ident} {v : Option Nat} {ts : List Token} :
      t.kind = .name → c.Is (.sign .comma) → ReadsParams is v ts →
      ReadsParams (t.ident :: is) v ([t] ++ [c] ++ ts)

/-- The name of a function statement. -/
inductive ReadsFuncName : FuncName → List Token → Prop where
  | plain {t : Token} {is : List Ident} {ts : List Token} :
      t.kind = .name → ReadsNames (.sign .dot) is ts →
      ReadsFuncName ⟨t.ident, is, none⟩ ([t] ++ ts)
  | method {t c m : Token} {is : List Ident} {ts : List Token} :
      t.kind = .name → ReadsNames (.sign .dot) is ts → c.Is (.sign .colon) → m.kind = .name →
      ReadsFuncName ⟨t.ident, is, some m.ident⟩ ([t] ++ ts ++ [c] ++ [m])

/-! ## Phrases -/

/-- A list of tokens writes a phrase. -/
inductive Reads : Phrase → List Token → Prop where
  | nil {t : Token} : t.Is (.keyword .nil) → Reads (.expr (.nil t.pos)) [t]
  | true {t : Token} : t.Is (.keyword .true) → Reads (.expr (.bool t.pos true)) [t]
  | false {t : Token} : t.Is (.keyword .false) → Reads (.expr (.bool t.pos false)) [t]
  | number {t : Token} : t.kind = .number → Reads (.expr (.number t.pos t.text)) [t]
  | string {t : Token} {value : Bytes} :
      t.Denotes value → Reads (.expr (.string t.pos t.text value)) [t]
  | vararg {t : Token} : t.Is (.sign .ellipsis) → Reads (.expr (.vararg t.pos)) [t]
  | name {t : Token} : t.kind = .name → Reads (.expr (.name t.ident)) [t]
  | functionExpr {t : Token} {b : FuncBody} {ts : List Token} :
      t.Is (.keyword .function) → Reads (.body b) ts →
      Reads (.expr (.function t.pos b)) ([t] ++ ts)
  | table {l r : Token} {fs : List TableField} {ts : List Token} :
      l.Is (.sign .leftBrace) → Reads (.fields fs) ts → r.Is (.sign .rightBrace) →
      Reads (.expr (.table l.pos fs r.pos)) ([l] ++ ts ++ [r])
  | binary {op : BinaryOp} {t : Token} {left right : Expr} {ts us : List Token} :
      Reads (.expr left) ts → t.Is op.token → Reads (.expr right) us →
      Reads (.expr (.binary op t.pos left right)) (ts ++ [t] ++ us)
  | unary {op : UnaryOp} {t : Token} {operand : Expr} {ts : List Token} :
      t.Is op.token → Reads (.expr operand) ts →
      Reads (.expr (.unary op t.pos operand)) ([t] ++ ts)
  | paren {l r : Token} {inner : Expr} {ts : List Token} :
      l.Is (.sign .leftParen) → Reads (.expr inner) ts → r.Is (.sign .rightParen) →
      Reads (.expr (.paren l.pos inner r.pos)) ([l] ++ ts ++ [r])
  | fieldAccess {object : Expr} {d t : Token} {ts : List Token} :
      Reads (.expr object) ts → d.Is (.sign .dot) → t.kind = .name →
      Reads (.expr (.field object t.ident)) (ts ++ [d] ++ [t])
  | element {object key : Expr} {l r : Token} {ts us : List Token} :
      Reads (.expr object) ts → l.Is (.sign .leftBracket) → Reads (.expr key) us →
      r.Is (.sign .rightBracket) →
      Reads (.expr (.element object l.pos key r.pos)) (ts ++ [l] ++ us ++ [r])
  | call {callee : Expr} {form : CallForm} {es : List Expr} {ts us : List Token} :
      Reads (.expr callee) ts → Reads (.args form es) us →
      Reads (.expr (.call callee none form es)) (ts ++ us)
  | methodCall {callee : Expr} {form : CallForm} {es : List Expr} {c m : Token}
      {ts us : List Token} :
      Reads (.expr callee) ts → c.Is (.sign .colon) → m.kind = .name → Reads (.args form es) us →
      Reads (.expr (.call callee (some m.ident) form es)) (ts ++ [c] ++ [m] ++ us)
  | noExprs : Reads (.exprs []) []
  | oneExpr {e : Expr} {ts : List Token} : Reads (.expr e) ts → Reads (.exprs [e]) ts
  | consExpr {e e' : Expr} {es : List Expr} {c : Token} {ts us : List Token} :
      Reads (.expr e) ts → c.Is (.sign .comma) → Reads (.exprs (e' :: es)) us →
      Reads (.exprs (e :: e' :: es)) (ts ++ [c] ++ us)
  | argList {l r : Token} {es : List Expr} {ts : List Token} :
      l.Is (.sign .leftParen) → Reads (.exprs es) ts → r.Is (.sign .rightParen) →
      Reads (.args (.parens l.pos r.pos) es) ([l] ++ ts ++ [r])
  | bareArg {e : Expr} {ts : List Token} :
      Reads (.expr e) ts → e.IsBareArgument → Reads (.args .literal [e]) ts
  | positional {e : Expr} {ts : List Token} :
      Reads (.expr e) ts → Reads (.field (.positional e)) ts
  | named {t a : Token} {e : Expr} {ts : List Token} :
      t.kind = .name → a.Is (.sign .assign) → Reads (.expr e) ts →
      Reads (.field (.named t.ident e)) ([t] ++ [a] ++ ts)
  | keyed {l r a : Token} {key e : Expr} {ts us : List Token} :
      l.Is (.sign .leftBracket) → Reads (.expr key) ts → r.Is (.sign .rightBracket) →
      a.Is (.sign .assign) → Reads (.expr e) us →
      Reads (.field (.keyed l.pos key e)) ([l] ++ ts ++ [r] ++ [a] ++ us)
  | noFields : Reads (.fields []) []
  | oneField {f : TableField} {ts : List Token} : Reads (.field f) ts → Reads (.fields [f]) ts
  | consField {f : TableField} {fs : List TableField} {c : Token} {ts us : List Token} :
      Reads (.field f) ts → c.Is (.sign .comma) ∨ c.Is (.sign .semicolon) → Reads (.fields fs) us →
      Reads (.fields (f :: fs)) (ts ++ [c] ++ us)
  | body {l r e : Token} {params : List Ident} {vararg : Option Nat} {ss : List Stmt}
      {ps ts : List Token} :
      l.Is (.sign .leftParen) →
      ReadsParams params vararg ps ∨ params = [] ∧ vararg = none ∧ ps = [] →
      r.Is (.sign .rightParen) → Reads (.stmts ss) ts → e.Is (.keyword .end) →
      Reads (.body (.mk l.pos params vararg r.pos (.mk (Token.firstPos (ts ++ [e])) ss) e.pos))
        ([l] ++ ps ++ [r] ++ ts ++ [e])
  | localNames {t : Token} {names : List LocalName} {ns : List Token} :
      t.Is (.keyword .local) → ReadsLocals names ns →
      Reads (.stmt (.localAssign t.pos names [])) ([t] ++ ns)
  | localAssign {t a : Token} {names : List LocalName} {values : List Expr}
      {ns ts : List Token} :
      t.Is (.keyword .local) → ReadsLocals names ns → a.Is (.sign .assign) → values ≠ [] →
      Reads (.exprs values) ts →
      Reads (.stmt (.localAssign t.pos names values)) ([t] ++ ns ++ [a] ++ ts)
  | assign {targets values : List Expr} {a : Token} {ts us : List Token} :
      targets ≠ [] → Reads (.exprs targets) ts → a.Is (.sign .assign) → values ≠ [] →
      Reads (.exprs values) us →
      Reads (.stmt (.assign targets a.pos values)) (ts ++ [a] ++ us)
  | callStmt {callee : Expr} {method : Option Ident} {form : CallForm} {es : List Expr}
      {ts : List Token} :
      Reads (.expr (.call callee method form es)) ts →
      Reads (.stmt (.call callee method form es)) ts
  | doBlock {t e : Token} {ss : List Stmt} {ts : List Token} :
      t.Is (.keyword .do) → Reads (.stmts ss) ts → e.Is (.keyword .end) →
      Reads (.stmt (.doBlock t.pos (.mk (Token.firstPos (ts ++ [e])) ss) e.pos))
        ([t] ++ ts ++ [e])
  | whileLoop {t d e : Token} {cond : Expr} {ss : List Stmt} {cs ts : List Token} :
      t.Is (.keyword .while) → Reads (.expr cond) cs → d.Is (.keyword .do) →
      Reads (.stmts ss) ts → e.Is (.keyword .end) →
      Reads (.stmt (.whileLoop t.pos cond (.mk (Token.firstPos (ts ++ [e])) ss) e.pos))
        ([t] ++ cs ++ [d] ++ ts ++ [e])
  | repeatLoop {t u : Token} {cond : Expr} {ss : List Stmt} {ts cs : List Token} :
      t.Is (.keyword .repeat) → Reads (.stmts ss) ts → u.Is (.keyword .until) →
      Reads (.expr cond) cs →
      Reads (.stmt (.repeatLoop t.pos (.mk (Token.firstPos (ts ++ [u])) ss) u.pos cond))
        ([t] ++ ts ++ [u] ++ cs)
  | ifThen {t h : Token} {cond : Expr} {ss : List Stmt} {arms : List ElseIf}
      {otherwise : ElsePart} {endPos : Nat} {cs ts us : List Token} :
      t.Is (.keyword .if) → Reads (.expr cond) cs → h.Is (.keyword .then) →
      Reads (.stmts ss) ts → Reads (.branches arms otherwise endPos) us →
      Reads (.stmt (.ifThen t.pos cond h.pos (.mk (Token.firstPos (ts ++ us)) ss) arms otherwise
        endPos)) ([t] ++ cs ++ [h] ++ ts ++ us)
  | countingFor {t v a c d e : Token} {first limit : Expr} {ss : List Stmt}
      {fs ls ts : List Token} :
      t.Is (.keyword .for) → v.kind = .name → a.Is (.sign .assign) → Reads (.expr first) fs →
      c.Is (.sign .comma) → Reads (.expr limit) ls → d.Is (.keyword .do) →
      Reads (.stmts ss) ts → e.Is (.keyword .end) →
      Reads (.stmt (.numericFor t.pos v.ident first limit none
          (.mk (Token.firstPos (ts ++ [e])) ss) e.pos))
        ([t] ++ [v] ++ [a] ++ fs ++ [c] ++ ls ++ [d] ++ ts ++ [e])
  | steppingFor {t v a c c' d e : Token} {first limit step : Expr} {ss : List Stmt}
      {fs ls ps ts : List Token} :
      t.Is (.keyword .for) → v.kind = .name → a.Is (.sign .assign) → Reads (.expr first) fs →
      c.Is (.sign .comma) → Reads (.expr limit) ls → c'.Is (.sign .comma) →
      Reads (.expr step) ps → d.Is (.keyword .do) → Reads (.stmts ss) ts →
      e.Is (.keyword .end) →
      Reads (.stmt (.numericFor t.pos v.ident first limit (some step)
          (.mk (Token.firstPos (ts ++ [e])) ss) e.pos))
        ([t] ++ [v] ++ [a] ++ fs ++ [c] ++ ls ++ [c'] ++ ps ++ [d] ++ ts ++ [e])
  | genericFor {t v n d e : Token} {names : List Ident} {es : List Expr} {ss : List Stmt}
      {ns xs ts : List Token} :
      t.Is (.keyword .for) → v.kind = .name → ReadsNames (.sign .comma) names ns →
      n.Is (.keyword .in) → Reads (.exprs es) xs → d.Is (.keyword .do) → Reads (.stmts ss) ts →
      e.Is (.keyword .end) →
      Reads (.stmt (.genericFor t.pos (v.ident :: names) es
          (.mk (Token.firstPos (ts ++ [e])) ss) e.pos))
        ([t] ++ [v] ++ ns ++ [n] ++ xs ++ [d] ++ ts ++ [e])
  | functionStmt {t : Token} {n : FuncName} {b : FuncBody} {ns ts : List Token} :
      t.Is (.keyword .function) → ReadsFuncName n ns → Reads (.body b) ts →
      Reads (.stmt (.function t.pos n b)) ([t] ++ ns ++ ts)
  | localFunction {t f n : Token} {b : FuncBody} {ts : List Token} :
      t.Is (.keyword .local) → f.Is (.keyword .function) → n.kind = .name → Reads (.body b) ts →
      Reads (.stmt (.localFunction t.pos n.ident b)) ([t] ++ [f] ++ [n] ++ ts)
  | ret {t : Token} {values : List Expr} {ts : List Token} :
      t.Is (.keyword .return) → Reads (.exprs values) ts →
      Reads (.stmt (.ret t.pos values)) ([t] ++ ts)
  | brk {t : Token} : t.Is (.keyword .break) → Reads (.stmt (.brk t.pos)) [t]
  | goto {t n : Token} :
      t.Is (.keyword .goto) → n.kind = .name → Reads (.stmt (.goto t.pos n.ident)) ([t] ++ [n])
  | label {t n u : Token} :
      t.Is (.sign .doubleColon) → n.kind = .name → u.Is (.sign .doubleColon) →
      Reads (.stmt (.label t.pos n.ident u.stop)) ([t] ++ [n] ++ [u])
  | noStmts : Reads (.stmts []) []
  | semicolon {t : Token} {ss : List Stmt} {ts : List Token} :
      t.Is (.sign .semicolon) → Reads (.stmts ss) ts → Reads (.stmts ss) ([t] ++ ts)
  | consStmt {s : Stmt} {ss : List Stmt} {ts us : List Token} :
      Reads (.stmt s) ts → Reads (.stmts ss) us → Reads (.stmts (s :: ss)) (ts ++ us)
  | noBranch {e : Token} : e.Is (.keyword .end) → Reads (.branches [] .absent e.pos) [e]
  | elseBranch {t e : Token} {ss : List Stmt} {ts : List Token} :
      t.Is (.keyword .else) → Reads (.stmts ss) ts → e.Is (.keyword .end) →
      Reads (.branches [] (.present t.pos (.mk (Token.firstPos (ts ++ [e])) ss)) e.pos)
        ([t] ++ ts ++ [e])
  | elseIfBranch {t h : Token} {cond : Expr} {ss : List Stmt} {arms : List ElseIf}
      {otherwise : ElsePart} {endPos : Nat} {cs ts us : List Token} :
      t.Is (.keyword .elseif) → Reads (.expr cond) cs → h.Is (.keyword .then) →
      Reads (.stmts ss) ts → Reads (.branches arms otherwise endPos) us →
      Reads (.branches (.mk t.pos cond h.pos (.mk (Token.firstPos (ts ++ us)) ss) :: arms)
        otherwise endPos) ([t] ++ cs ++ [h] ++ ts ++ us)

end LuaLint
