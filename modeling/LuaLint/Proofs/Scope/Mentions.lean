import Mathlib.Data.List.Forall2
import LuaLint.Proofs.Grammar.Reading
import LuaLint.Proofs.Scope.Binding

/-!
# The names of a chunk and what they are there for

Each name in a source, and each `...`, plays one role: it stands for a variable, or it declares one,
or it is a field, a label and so on. A piece of syntax lists its names with their roles in source
order, and the list leaves none of them out.

Main statements: `Reads.spelled`.
-/

namespace LuaLint

open Token TableField

/-! ## Roles -/

/-- What a name, or `...`, is there for. -/
inductive NameRole where
  /-- It is an expression, or the expression at the base of a chain. -/
  | value
  | target
  | functionName
  /-- It is declared by a `local` statement that has a value for it. -/
  | initialised
  | loopVariable
  /-- It is declared by a `local` statement without a value for it, or as a local function. -/
  | declared
  | parameter
  | field
  | method
  | key
  | label
  | attribute
  deriving DecidableEq, Repr

def NameRole.isUse : NameRole → Bool
  | .value | .target | .functionName | .initialised | .loopVariable => true
  | .declared | .parameter | .field | .method | .key | .label | .attribute => false

def NameRole.isDeclaration : NameRole → Bool
  | .initialised | .loopVariable | .declared | .parameter => true
  | .value | .target | .functionName | .field | .method | .key | .label | .attribute => false

def NameRole.isOwn (role : NameRole) : Bool := role.isUse && role.isDeclaration

def NameRole.isLookup (role : NameRole) : Bool := role.isUse && !role.isDeclaration

/-- A name with its role. -/
structure Mention where
  role : NameRole
  name : Bytes
  span : Span
  deriving DecidableEq, Repr

/-- Where a name stands that is an occurrence of a variable. -/
def Mention.use? (m : Mention) : Option Span := if m.role.isUse then some m.span else none

def Ident.mention (role : NameRole) (i : Ident) : Mention := ⟨role, i.name, i.span⟩

/-! ## The names in a piece of syntax -/

def LocalName.mentions (role : NameRole) (n : LocalName) : List Mention :=
  n.ident.mention role :: n.attrib.toList.map fun a => a.toIdent.mention .attribute

/-- The names of a `local` statement, of which the first ones have values. -/
def LocalName.mentionsOf : List LocalName → Nat → List Mention
  | [], _ => []
  | n :: names, 0 => n.mentions .declared ++ mentionsOf names 0
  | n :: names, values + 1 => n.mentions .initialised ++ mentionsOf names values

def FuncName.mentions (n : FuncName) : List Mention :=
  n.base.mention .functionName :: n.fields.map (Ident.mention .field) ++
    n.method.toList.map (Ident.mention .method)

def FuncBody.parameterMentions (params : List Ident) (vararg : Option Nat) : List Mention :=
  params.map (Ident.mention .parameter) ++
    vararg.toList.map fun pos => Ident.mention .parameter ⟨pos, varargName⟩

mutual

/-- The names in an expression. The name at its base, if there is one, has the given role. -/
def Expr.mentions (base : NameRole) : Expr → List Mention
  | .nil _ => []
  | .bool _ _ => []
  | .number _ _ => []
  | .string _ _ _ => []
  | .vararg pos => [Ident.mention .value ⟨pos, varargName⟩]
  | .name i => [i.mention base]
  | .function _ body => body.mentions
  | .table _ fields _ => TableField.mentions fields
  | .binary _ _ left right => left.mentions .value ++ right.mentions .value
  | .unary _ _ operand => operand.mentions .value
  -- A name in parentheses is a value, also at the base of a target.
  | .paren _ inner _ => inner.mentions .value
  | .field object n => object.mentions base ++ [n.mention .field]
  | .element object _ key _ => object.mentions base ++ key.mentions .value
  | .call callee method _ args =>
    callee.mentions base ++ method.toList.map (Ident.mention .method) ++
      Expr.mentionsOf .value args

def Expr.mentionsOf (base : NameRole) : List Expr → List Mention
  | [] => []
  | e :: rest => e.mentions base ++ Expr.mentionsOf base rest

def TableField.mentions : List TableField → List Mention
  | [] => []
  | .positional value :: rest => value.mentions .value ++ TableField.mentions rest
  | .named n value :: rest => n.mention .key :: value.mentions .value ++ TableField.mentions rest
  | .keyed _ key value :: rest =>
    key.mentions .value ++ value.mentions .value ++ TableField.mentions rest

def FuncBody.mentions : FuncBody → List Mention
  | .mk _ params vararg _ body _ => FuncBody.parameterMentions params vararg ++ body.mentions

def Stmt.mentions : Stmt → List Mention
  -- The names come first, although the values are evaluated before them.
  | .localAssign _ names values =>
    LocalName.mentionsOf names values.length ++ Expr.mentionsOf .value values
  | .assign targets _ values => Expr.mentionsOf .target targets ++ Expr.mentionsOf .value values
  | .call callee method _ args =>
    callee.mentions .value ++ method.toList.map (Ident.mention .method) ++
      Expr.mentionsOf .value args
  | .doBlock _ body _ => body.mentions
  | .whileLoop _ cond body _ => cond.mentions .value ++ body.mentions
  | .repeatLoop _ body _ cond => body.mentions ++ cond.mentions .value
  | .ifThen _ cond _ body arms otherwise _ =>
    cond.mentions .value ++ body.mentions ++ (ElseIf.mentions arms ++ otherwise.mentions)
  | .numericFor _ var start limit none body _ =>
    var.mention .loopVariable :: start.mentions .value ++ limit.mentions .value ++ body.mentions
  | .numericFor _ var start limit (some step) body _ =>
    var.mention .loopVariable :: start.mentions .value ++ limit.mentions .value ++
      step.mentions .value ++ body.mentions
  | .genericFor _ names exprs body _ =>
    names.map (Ident.mention .loopVariable) ++ Expr.mentionsOf .value exprs ++ body.mentions
  | .function _ n body => n.mentions ++ body.mentions
  | .localFunction _ n body => n.mention .declared :: body.mentions
  | .ret _ values => Expr.mentionsOf .value values
  | .brk _ => []
  | .goto _ n => [n.mention .label]
  | .label _ n _ => [n.mention .label]

def Stmt.mentionsOf : List Stmt → List Mention
  | [] => []
  | s :: rest => s.mentions ++ Stmt.mentionsOf rest

def ElseIf.mentions : List ElseIf → List Mention
  | [] => []
  | .mk _ cond _ body :: rest => cond.mentions .value ++ body.mentions ++ ElseIf.mentions rest

def ElsePart.mentions : ElsePart → List Mention
  | .absent => []
  | .present _ body => body.mentions

def Block.mentions : Block → List Mention
  | .mk _ stmts => Stmt.mentionsOf stmts

end

def Chunk.mentions (c : Chunk) : List Mention := c.block.mentions

/-! ## Names among tokens -/

def TokenKind.isMention : TokenKind → Bool
  | .name => true
  | .sign .ellipsis => true
  | _ => false

/-- A token spells a name, and stands where the tree says. -/
def Mention.At (m : Mention) (t : Token) : Prop := m.name = t.text ∧ m.span = ⟨t.pos, t.stop⟩

def Token.names (ts : List Token) : List Token := ts.filter fun t => t.kind.isMention

/-- Some names are those among some tokens, in order. -/
def Spelled (ms : List Mention) (ts : List Token) : Prop :=
  List.Forall₂ Mention.At ms (Token.names ts)

namespace Spelled

variable {ms ms' : List Mention} {ts ts' : List Token} {t : Token} {kind : TokenKind}

theorem nil : Spelled [] [] := List.Forall₂.nil

theorem append (h : Spelled ms ts) (h' : Spelled ms' ts') : Spelled (ms ++ ms') (ts ++ ts') := by
  rw [Spelled, names, List.filter_append]
  exact List.rel_append h h'

theorem name (ht : t.kind = .name) (role : NameRole) : Spelled [t.ident.mention role] [t] := by
  have hnames : names [t] = [t] := by simp [names, ht, TokenKind.isMention]
  rw [Spelled, hnames]
  exact .cons ⟨rfl, rfl⟩ .nil

theorem dots (ht : t.Is (.sign .ellipsis)) (role : NameRole) :
    Spelled [Ident.mention role ⟨t.pos, varargName⟩] [t] := by
  have htext : varargName = t.text := ht.2.symm
  have hnames : names [t] = [t] := by simp [names, ht.1, TokenKind.isMention]
  rw [Spelled, hnames]
  exact .cons ⟨htext, by simp [Ident.mention, Ident.span, stop, htext]⟩ .nil

theorem other (ht : t.kind.isMention = false) : Spelled [] [t] := by
  rw [Spelled, names, List.filter_singleton, ht]
  exact .nil

theorem sign (ht : t.Is kind) (hkind : kind.isMention = false) : Spelled [] [t] :=
  other (ht.1 ▸ hkind)

theorem before (h : Spelled ms ts) (ht : t.Is kind) (hkind : kind.isMention = false) :
    Spelled ms ([t] ++ ts) := (sign ht hkind).append h

theorem after (h : Spelled ms ts) (ht : t.Is kind) (hkind : kind.isMention = false) :
    Spelled ms (ts ++ [t]) := by
  simpa using h.append (sign ht hkind)

end Spelled

/-! ## Names of phrases -/

variable {ts : List Token}

theorem ReadsNames.spelled {sep : TokenKind} {is : List Ident} (h : ReadsNames sep is ts)
    (hsep : sep.isMention = false) (role : NameRole) :
    Spelled (is.map (Ident.mention role)) ts := by
  induction h with
  | nil => exact .nil
  | cons ht hu _ ih => exact ((Spelled.name hu role).before ht hsep).append ih

theorem ReadsLocal.spelled {n : LocalName} (h : ReadsLocal n ts) (role : NameRole) :
    Spelled (n.mentions role) ts := by
  cases h with
  | plain ht => exact .name ht role
  | attributed ht hl hw hg =>
    exact (((Spelled.name ht role).after hl rfl).append (.name hw .attribute)).after hg rfl

theorem LocalName.mentionsOf_cons (n : LocalName) (names : List LocalName) (values : Nat) :
    ∃ role, LocalName.mentionsOf (n :: names) values =
      n.mentions role ++ LocalName.mentionsOf names (values - 1) := by
  cases values with
  | zero => exact ⟨.declared, rfl⟩
  | succ values => exact ⟨.initialised, rfl⟩

theorem ReadsLocals.spelled {ns : List LocalName} (h : ReadsLocals ns ts) (values : Nat) :
    Spelled (LocalName.mentionsOf ns values) ts := by
  induction h generalizing values with
  | @last n ts hn =>
    obtain ⟨role, hrole⟩ := n.mentionsOf_cons [] values
    rw [hrole, LocalName.mentionsOf, List.append_nil]
    exact hn.spelled role
  | @cons n ns c ts us hn hc _ ih =>
    obtain ⟨role, hrole⟩ := n.mentionsOf_cons ns values
    rw [hrole]
    exact ((hn.spelled role).after hc rfl).append (ih _)

theorem ReadsParams.spelled {is : List Ident} {v : Option Nat} (h : ReadsParams is v ts) :
    Spelled (FuncBody.parameterMentions is v) ts := by
  induction h with
  | vararg ht => exact .dots ht .parameter
  | last ht => exact .name ht .parameter
  | cons ht hc _ ih => exact ((Spelled.name ht .parameter).after hc rfl).append ih

theorem ReadsFuncName.spelled {n : FuncName} (h : ReadsFuncName n ts) : Spelled n.mentions ts := by
  cases h with
  | plain ht his =>
    simpa [FuncName.mentions] using
      (Spelled.name ht .functionName).append (his.spelled rfl .field)
  | method ht his hc hm =>
    exact (((Spelled.name ht .functionName).append (his.spelled rfl .field)).after hc rfl).append
      (.name hm .method)

theorem UnaryOp.isMention_token (op : UnaryOp) : op.token.isMention = false := by
  cases op <;> rfl

theorem BinaryOp.isMention_token (op : BinaryOp) : op.token.isMention = false := by
  cases op <;> rfl

theorem Token.Denotes.isMention {t : Token} {value : Bytes} (h : t.Denotes value) :
    t.kind.isMention = false := by
  cases h with
  | quoted hkind _ => rw [hkind]; rfl
  | bracketed hkind => rw [hkind]; rfl

theorem TableField.mentions_cons (f : TableField) (fs : List TableField) :
    mentions (f :: fs) = mentions [f] ++ mentions fs := by
  cases f <;> simp [mentions]

/-- The names in a phrase. If it is made of expressions, their bases have the given role. -/
def Phrase.mentions (base : NameRole) : Phrase → List Mention
  | .expr e => e.mentions base
  | .exprs es => Expr.mentionsOf base es
  | .args _ es => Expr.mentionsOf .value es
  | .field f => TableField.mentions [f]
  | .fields fs => TableField.mentions fs
  | .body b => b.mentions
  | .stmt s => s.mentions
  | .stmts ss => Stmt.mentionsOf ss
  | .branches arms otherwise _ => ElseIf.mentions arms ++ otherwise.mentions

/-- The names of a phrase are those of its tokens, in order. -/
theorem Reads.spelled {p : Phrase} (h : Reads p ts) (base : NameRole) :
    Spelled (p.mentions base) ts := by
  -- The tokens around the parts of a phrase are words and signs. The names that a phrase has of its
  -- own are put in where they stand.
  induction h generalizing base with
  | nil ht => exact .sign ht rfl
  | true ht => exact .sign ht rfl
  | false ht => exact .sign ht rfl
  | number ht => exact .other (by rw [ht]; rfl)
  | string ht => exact .other ht.isMention
  | vararg ht => exact .dots ht .value
  | name ht => exact .name ht base
  | functionExpr ht _ ih => exact (ih base).before ht rfl
  | table hl _ hr ih => exact ((ih base).before hl rfl).after hr rfl
  | binary _ ht _ ihl ihr =>
    exact ((ihl .value).after ht (BinaryOp.isMention_token _)).append (ihr .value)
  | unary ht _ ih => exact (ih .value).before ht (UnaryOp.isMention_token _)
  | paren hl _ hr ih => exact ((ih .value).before hl rfl).after hr rfl
  | fieldAccess _ hd ht ih => exact ((ih base).after hd rfl).append (.name ht .field)
  | element _ hl _ hr ih ihkey =>
    exact (((ih base).after hl rfl).append (ihkey .value)).after hr rfl
  | call _ _ ih ihargs =>
    simpa [Phrase.mentions, Expr.mentions] using (ih base).append (ihargs base)
  | methodCall _ hc hm _ ih ihargs =>
    exact (((ih base).after hc rfl).append (.name hm .method)).append (ihargs base)
  | noExprs => exact .nil
  | oneExpr _ ih => simpa [Phrase.mentions, Expr.mentionsOf] using ih base
  | consExpr _ hc _ ih ihrest => exact ((ih base).after hc rfl).append (ihrest base)
  | argList hl _ hr ih => exact ((ih .value).before hl rfl).after hr rfl
  | bareArg _ _ ih => simpa [Phrase.mentions, Expr.mentionsOf] using ih .value
  | positional _ ih => simpa [Phrase.mentions, mentions] using ih .value
  | named ht ha _ ih =>
    simpa [Phrase.mentions, mentions] using
      ((Spelled.name ht .key).after ha rfl).append (ih .value)
  | keyed hl _ hr ha _ ihkey ih =>
    simpa [Phrase.mentions, mentions] using
      ((((ihkey .value).before hl rfl).after hr rfl).after ha rfl).append (ih .value)
  | noFields => exact .nil
  | oneField _ ih => exact ih base
  | consField _ hc _ ih ihrest =>
    rw [Phrase.mentions, mentions_cons]
    rcases hc with hc | hc
    · exact ((ih base).after hc rfl).append (ihrest base)
    · exact ((ih base).after hc rfl).append (ihrest base)
  | @body l r e params vararg ss ps ts hl hparams hr _ he ih =>
    have hnames : Spelled (FuncBody.parameterMentions params vararg) ps := by
      rcases hparams with hparams | ⟨rfl, rfl, rfl⟩
      · exact hparams.spelled
      · exact .nil
    exact (((hnames.before hl rfl).after hr rfl).append (ih base)).after he rfl
  | localNames ht hnames =>
    simpa [Phrase.mentions, Stmt.mentions, Expr.mentionsOf] using (hnames.spelled 0).before ht rfl
  | localAssign ht hnames ha _ _ ih =>
    exact (((hnames.spelled _).before ht rfl).after ha rfl).append (ih .value)
  | assign _ _ ha _ _ ihtargets ihvalues =>
    exact ((ihtargets .target).after ha rfl).append (ihvalues .value)
  | callStmt _ ih => exact ih .value
  | doBlock ht _ he ih => exact ((ih base).before ht rfl).after he rfl
  | whileLoop ht _ hd _ he ihcond ih =>
    exact ((((ihcond .value).before ht rfl).after hd rfl).append (ih base)).after he rfl
  | repeatLoop ht _ hu _ ih ihcond =>
    exact (((ih base).before ht rfl).after hu rfl).append (ihcond .value)
  | ifThen ht _ hh _ _ ihcond ih iharms =>
    exact ((((ihcond .value).before ht rfl).after hh rfl).append (ih base)).append (iharms base)
  | countingFor ht hv ha _ hc _ hd _ he ihfirst ihlimit ih =>
    exact ((((((((Spelled.name hv .loopVariable).before ht rfl).after ha rfl).append
      (ihfirst .value)).after hc rfl).append (ihlimit .value)).after hd rfl).append
        (ih base)).after he rfl
  | steppingFor ht hv ha _ hc _ hc' _ hd _ he ihfirst ihlimit ihstep ih =>
    exact ((((((((((Spelled.name hv .loopVariable).before ht rfl).after ha rfl).append
      (ihfirst .value)).after hc rfl).append (ihlimit .value)).after hc' rfl).append
        (ihstep .value)).after hd rfl).append (ih base)).after he rfl
  | genericFor ht hv hnames hn _ hd _ he ihexprs ih =>
    exact (((((((Spelled.name hv .loopVariable).before ht rfl).append
      (hnames.spelled rfl .loopVariable)).after hn rfl).append (ihexprs .value)).after
        hd rfl).append
        (ih base)).after he rfl
  | functionStmt ht hname _ ih => exact (hname.spelled.before ht rfl).append (ih base)
  | localFunction ht hf hn _ ih =>
    exact (((Spelled.sign ht rfl).after hf rfl).append (.name hn .declared)).append (ih base)
  | ret ht _ ih => exact (ih .value).before ht rfl
  | brk ht => exact .sign ht rfl
  | goto ht hn => exact (Spelled.name hn .label).before ht rfl
  | label ht hn hu => exact ((Spelled.name hn .label).before ht rfl).after hu rfl
  | noStmts => exact .nil
  | semicolon ht _ ih => exact (ih base).before ht rfl
  | consStmt _ _ ih ihrest => exact (ih base).append (ihrest base)
  | noBranch he => exact .sign he rfl
  | elseBranch ht _ he ih => exact ((ih base).before ht rfl).after he rfl
  | elseIfBranch ht _ hh _ _ ihcond ih iharms =>
    rw [Phrase.mentions, ElseIf.mentions, List.append_assoc]
    exact ((((ihcond .value).before ht rfl).after hh rfl).append (ih base)).append (iharms base)

end LuaLint
