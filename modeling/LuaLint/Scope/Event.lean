import LuaLint.Syntax.Chain
import LuaLint.Scope.Graph

/-!
# Scope events

What a chunk does to names, as a sequence of events in the order in which they take effect: scopes
open and close, names are declared, names are used. The order differs from that of the source where
the language says so: the values of a `local` statement are evaluated before its names are declared,
and each value of an assignment before its target.
-/

namespace LuaLint

/-! ## Events -/

structure Declaration where
  name : Bytes
  identifier : Span
  /-- The range of the declaring construct. -/
  definition : Span
  isSelf : Bool
  attrib : Option Bytes
  value : InitialValue
  deriving DecidableEq, Repr

def Declaration.ofIdent (i : Ident) : Declaration := ⟨i.name, i.span, i.span, false, none, .unknown⟩

/-- What is done with a name where it occurs. -/
structure Usage where
  read : Bool
  write : Option Write
  value : Option Span
  /-- The static indexes that follow the name. -/
  indexing : List IndexEntry
  deriving DecidableEq, Repr

namespace Usage

def reading : Usage := ⟨true, none, none, []⟩

def assigning (value : Option Span) : Usage := ⟨false, some .assign, value, []⟩

end Usage

structure Use where
  name : Bytes
  span : Span
  usage : Usage
  deriving DecidableEq, Repr

/-- A call statement whose callee is a name with static fields. -/
structure CallEvent where
  path : List Bytes
  /-- Where the first of those names stands. -/
  base : Span
  span : Span
  /-- For each argument that is a name, possibly indexed, where that name stands. -/
  args : List (Option Span)
  deriving DecidableEq, Repr

inductive ScopeEvent where
  | enter (kind : ScopeKind) (span : Span)
  | leave
  | declare (d : Declaration)
  | use (u : Use)
  /-- A name is written, which declares it unless it is declared already. -/
  | assign (u : Use)
  /-- A field of a name is defined, by a function statement whose name has the given range. -/
  | extend (u : Use) (definition : Span)
  | call (c : CallEvent)
  deriving DecidableEq, Repr

/-! ## Chains -/

/-- The static indexes along the links of a chain, up to the first call or dynamic index. -/
def staticIndexing : List Expr → List IndexEntry
  | .field _ n :: rest => ⟨n.name, n.span⟩ :: staticIndexing rest
  | .element _ _ key _ :: rest =>
    match key.strip with
    | .string pos raw value => ⟨value, (Expr.string pos raw value).span⟩ :: staticIndexing rest
    | _ => []
  | _ => []

/-- What a chain does with the name at its base. A write goes to the name only when no call
intervenes. -/
def Expr.usage (e : Expr) (write : Option Write) (value : Option Span) : Usage :=
  if e.hasCall then ⟨true, none, none, staticIndexing e.links⟩
  else ⟨true, write, value, staticIndexing e.links⟩

/-- A chain reads the name at its base, also where it is assigned to. -/
theorem Expr.read_usage (e : Expr) (write : Option Write) (value : Option Span) :
    (e.usage write value).read = true := by
  unfold Expr.usage
  split <;> rfl

theorem Expr.write_usage_none (e : Expr) : (e.usage none none).write = none := by
  unfold Expr.usage
  split <;> rfl

theorem Expr.indexing_usage (e : Expr) (write : Option Write) (value : Option Span) :
    (e.usage write value).indexing = staticIndexing e.links := by
  unfold Expr.usage
  split <;> rfl

/-- Where the name stands of which an expression is a chain of fields and elements. -/
def Expr.indexedName? (e : Expr) : Option Span :=
  match e.base with
  | .name i => if e.hasCall then none else some i.span
  | _ => none

/-- The event of a call statement, unless the callee has no static path. -/
def Call.events (c : Call) : List ScopeEvent :=
  match c.callee.base, c.isFirst, c.expr.namePath? with
  | .name i, true, some path => [.call ⟨path, i.span, c.calleeSpan, c.args.map Expr.indexedName?⟩]
  | _, _, _ => []

/-! ## Declarations -/

def Expr.initialValue (e : Expr) : InitialValue :=
  match e.strip with
  | .table _ [] _ => .emptyTable
  | .table _ (_ :: _) _ => .filledTable
  | _ => .unknown

/-- The declarations of a `local` statement of the given range. A name with a value of its own is
written at once. -/
def LocalName.events (stmt : Span) : List LocalName → List Expr → List ScopeEvent
  | [], _ => []
  | n :: names, [] =>
    .declare ⟨n.ident.name, n.ident.span, stmt, false, n.attrib.map (·.name), .unknown⟩ ::
      events stmt names []
  | n :: names, e :: values =>
    .declare ⟨n.ident.name, n.ident.span, stmt, false, n.attrib.map (·.name),
      e.initialValue⟩ ::
    .use ⟨n.ident.name, n.ident.span, .assigning (some e.span)⟩ :: events stmt names values

/-- A loop variable is declared and written. -/
def Ident.loopEvents (i : Ident) (definition : Span) (value : Option Span) : List ScopeEvent :=
  [.declare ⟨i.name, i.span, definition, false, none, .unknown⟩,
    .use ⟨i.name, i.span, .assigning value⟩]

/-- The implicit `self` of a method stands where the method's name does. -/
def Ident.selfEvent (method : Ident) : ScopeEvent :=
  .declare ⟨"self", method.span, method.span, true, none, .unknown⟩

def FuncName.event (n : FuncName) (body : Span) : ScopeEvent :=
  match n.fields ++ n.method.toList with
  | [] => .assign ⟨n.base.name, n.base.span, ⟨true, some .assign, some body, []⟩⟩
  | fields =>
    .extend ⟨n.base.name, n.base.span,
      ⟨true, some .extend, some body, fields.map fun i => ⟨i.name, i.span⟩⟩⟩ n.span

/-- The events of an assignment, from those of its values and those of its targets. A value comes
just before the target that takes it, and values without a target come last. -/
def interleave {α : Type} : List (List α) → List (List α) → List α
  | [], values => values.flatten
  | target :: targets, [] => target ++ interleave targets []
  | target :: targets, value :: values => value ++ target ++ interleave targets values

/-! ## Syntax -/

mutual

/-- The events of an expression. The argument `usage` is what the chain around the expression does
with the name at its base. -/
def Expr.events (usage : Option Usage) : Expr → List ScopeEvent
  | .nil _ => []
  | .bool _ _ => []
  | .number _ _ => []
  | .string _ _ _ => []
  | .vararg pos => [.use ⟨varargName, (Expr.vararg pos).span, .reading⟩]
  | .name i => [.use ⟨i.name, i.span, usage.getD .reading⟩]
  | .function _ body => body.events none
  | .table _ fields _ => TableField.events fields
  | .binary _ _ left right => left.events none ++ right.events none
  | .unary _ _ operand => operand.events none
  | .paren _ inner _ => inner.events none
  | .field object n =>
    object.events (some (usage.getD ((Expr.field object n).usage none none)))
  | .element object lbrack key rbrack =>
    object.events (some (usage.getD ((Expr.element object lbrack key rbrack).usage none none))) ++
      key.events none
  | .call callee method form args =>
    callee.events (some (usage.getD ((Expr.call callee method form args).usage none none))) ++
      Expr.eventsOf args

def Expr.eventsOf : List Expr → List ScopeEvent
  | [] => []
  | e :: rest => e.events none ++ Expr.eventsOf rest

def Expr.valueEvents : List Expr → List (List ScopeEvent)
  | [] => []
  | e :: rest => e.events none :: Expr.valueEvents rest

def Expr.targetEvents (values : List Span) : List Expr → List (List ScopeEvent)
  | [] => []
  | .name i :: rest =>
    [.assign ⟨i.name, i.span, .assigning values.head?⟩] :: Expr.targetEvents values.tail rest
  | e :: rest =>
    e.events (some (e.usage (some .assign) values.head?)) :: Expr.targetEvents values.tail rest

def TableField.events : List TableField → List ScopeEvent
  | [] => []
  | .positional value :: rest => value.events none ++ TableField.events rest
  | .named _ value :: rest => value.events none ++ TableField.events rest
  | .keyed _ key value :: rest => key.events none ++ value.events none ++ TableField.events rest

/-- The events of a function. A method declares its `self` before the parameters. -/
def FuncBody.events (method : Option Ident) : FuncBody → List ScopeEvent
  | .mk lparen params vararg _ body endPos =>
    .enter .function ⟨lparen, endPos + 3⟩ :: method.toList.map Ident.selfEvent ++
      params.map (fun i => .declare (.ofIdent i)) ++
      vararg.toList.map (fun pos => .declare (.ofIdent ⟨pos, varargName⟩)) ++
      body.events ++ [.leave]

def Stmt.events : Stmt → List ScopeEvent
  | .localAssign pos names values =>
    Expr.eventsOf values ++
      LocalName.events (Stmt.localAssign pos names values).span names values
  | .assign targets _ values =>
    interleave (Expr.targetEvents (values.map Expr.span) targets) (Expr.valueEvents values)
  | .call callee method form args =>
    callee.events (some ((Expr.call callee method form args).usage none none)) ++
      Expr.eventsOf args ++ (Call.mk callee method form args).events
  | .doBlock _ body _ => body.scoped .doBlock
  | .whileLoop _ cond body _ => cond.events none ++ body.scoped .loop
  | .repeatLoop _ body _ cond =>
    .enter .loop ⟨body.span.start, cond.stop⟩ :: body.events ++ cond.events none ++ [.leave]
  | .ifThen _ cond _ body arms otherwise _ =>
    cond.events none ++ body.scoped .branch ++ ElseIf.events arms ++ otherwise.events
  | .numericFor _ var start limit step body _ =>
    start.events none ++ limit.events none ++
      (match step with
      | none => []
      | some e => e.events none) ++
      .enter .loop body.span :: var.loopEvents ⟨var.pos, start.stop⟩ (some start.span) ++
      body.events ++ [.leave]
  | .genericFor _ names exprs body _ =>
    Expr.eventsOf exprs ++
      .enter .loop body.span :: (names.flatMap fun i => i.loopEvents i.span none) ++
      body.events ++ [.leave]
  | .function _ n body => n.event body.span :: body.events n.method
  | .localFunction pos n body =>
    .declare ⟨n.name, n.span, ⟨pos, body.stop⟩, false, none, .unknown⟩ :: body.events none
  | .ret _ values => Expr.eventsOf values
  | .brk _ => []
  | .goto _ _ => []
  | .label _ _ _ => []

def Stmt.eventsOf : List Stmt → List ScopeEvent
  | [] => []
  | s :: rest => s.events ++ Stmt.eventsOf rest

def ElseIf.events : List ElseIf → List ScopeEvent
  | [] => []
  | .mk _ cond _ body :: rest => cond.events none ++ body.scoped .branch ++ ElseIf.events rest

def ElsePart.events : ElsePart → List ScopeEvent
  | .absent => []
  | .present _ body => body.scoped .branch

def Block.events : Block → List ScopeEvent
  | .mk _ stmts => Stmt.eventsOf stmts

def Block.scoped (kind : ScopeKind) : Block → List ScopeEvent
  | .mk pos stmts => .enter kind (Block.mk pos stmts).span :: Stmt.eventsOf stmts ++ [.leave]

end

def Chunk.events (c : Chunk) : List ScopeEvent :=
  .enter .file ⟨0, c.size⟩ :: c.block.events ++ [.leave]

end LuaLint
