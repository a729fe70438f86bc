import LuaLint.Proofs.Scope.InStep
import LuaLint.Proofs.Scope.Mentions
import LuaLint.Proofs.Syntax.Parts

/-!
# What syntax does to scopes

A piece of syntax has names, nodes, occurrences of variables and scope events, and the same piece
elsewhere has events as well. How these hang together is settled by a few ways of making larger
pieces out of smaller ones. Trees are gone through once, here; whatever is to be known is then shown
of those few ways.

Main statements: `Block.acts`, `Block.inStep`.
-/

namespace LuaLint

open List Ident

variable {n : Node} {os : List Outline} {ms : List Mention} {bs : List Binding} {s : Stmt}
  {span' definition definition' : Span} {inner : Env} {attrib attrib' : Option Bytes}
  {place place' : Option Span} {role : NameRole}

/-! ## Ranges in order -/

def Outline.Reaches (os : List Outline) (off : Nat) : Prop :=
  ∃ o ∈ os, o.node.span.start ≤ off ∧ off < o.node.span.stop

theorem Outline.Placed.inside (h : (Outline.mk n os).Placed) {off : Nat}
    (hoff : Outline.Reaches os off) : n.span.start ≤ off ∧ off < n.span.stop := by
  obtain ⟨o, ho, hle, hlt⟩ := hoff
  cases h with
  | mk _ _ _ hos _ =>
    obtain ⟨hstart, hstop⟩ := hos o ho
    have := hstop (by omega)
    omega

/-- A range holds all that is reached below a node, and lies in the range of the node. -/
def Node.Spans (n : Node) (os : List Outline) (s : Span) : Prop :=
  (Outline.mk n os).Placed → (∀ off, Outline.Reaches os off → s.start ≤ off ∧ off < s.stop) ∧
    ∀ off, s.start ≤ off → off < s.stop → n.span.start ≤ off ∧ off < n.span.stop

theorem Node.spans_self (n : Node) (os : List Outline) : n.Spans os n.span :=
  fun h => ⟨fun _ hoff => h.inside hoff, fun _ hle hlt => ⟨hle, hlt⟩⟩

theorem Stmt.spans_repeat (pos untilPos : Nat) (body : Block) (cond : Expr) :
    (Node.stmt (.repeatLoop pos body untilPos cond)).Spans [body.outline, cond.outline]
      ⟨body.span.start, cond.stop⟩ := by
  have hbody : body.outline.node = .block body := by
    cases body
    rfl
  have hcond : cond.outline.node = .expr cond := by cases cond <;> rfl
  intro h
  cases h with
  | mk _ _ hplaced hos hordered =>
    have hstart := (hos body.outline (by simp)).1
    have hle := (hplaced body.outline (by simp)).le
    have hlt := (hplaced cond.outline (by simp)).lt (Node.not_isEmptyBlock (by rw [hcond]; rfl))
    have hnext := rel_of_pairwise_cons hordered (mem_singleton_self _)
    simp only [hbody, hcond] at hstart hle hlt hnext
    change pos ≤ body.span.start at hstart
    change body.span.start ≤ body.span.stop at hle
    change cond.span.start < cond.stop at hlt
    change body.span.stop ≤ cond.span.start at hnext
    refine ⟨?_, fun off hle hlt => ⟨Nat.le_trans hstart hle, hlt⟩⟩
    rintro off ⟨o, ho, hfrom, hto⟩
    rcases mem_pair.mp ho with rfl | rfl
    · rw [hbody] at hfrom hto
      exact ⟨hfrom, Nat.lt_trans (Nat.lt_of_lt_of_le hto hnext) hlt⟩
    · rw [hcond] at hfrom hto
      exact ⟨Nat.le_trans (Nat.le_trans hle hnext) hfrom, hto⟩

/-! ## Pieces of syntax -/

def Relocation.still : Relocation := ⟨id, fun _ name => name⟩

def ScopeEvent.use? : ScopeEvent → Option Use
  | .use u | .assign u | .extend u _ => some u
  | .enter _ _ | .leave | .declare _ | .call _ => none

/-- What is declared at the beginning of a scope. The `...` of a function is not seen in others. -/
def Env.enter (env : Env) : ScopeKind → Env
  | .function => env.inFunction
  | _ => env

def Node.stmt? : Node → Option Stmt
  | .stmt s => some s
  | _ => none

/-- Names, children and occurrences are those of a node, if that is a statement. What a statement
declares stands in front of its other parts. -/
def Node.Does (n : Node) (env : Env) (ms : List Mention) (os : List Outline) (bs : List Binding) :
    Prop :=
  ∀ s, n = .stmt s → ms = s.mentions ∧ bs = s.bindings env ∧
    ∃ rest, os = s.localNames.map Ident.outline ++ rest

theorem Node.Does.other {env : Env} (h : n.stmt? = none) : n.Does env ms os bs := by
  rintro s rfl
  cases h

theorem Node.Does.stmt {env : Env} (h : s.localNames = []) :
    (Node.stmt s).Does env s.mentions os (s.bindings env) := by
  rintro _ ⟨⟩
  exact ⟨rfl, rfl, os, by rw [h]; rfl⟩

theorem Node.Does.declaring {env : Env} (rest : List Outline)
    (h : os = s.localNames.map outline) :
    (Node.stmt s).Does env s.mentions (os ++ rest) (s.bindings env) := by
  rintro _ ⟨⟩
  exact ⟨rfl, rfl, rest, by rw [h]⟩

/-- A piece of syntax has some names, outlines, occurrences and events, and leads from one
environment to another. The last events are those of the same piece elsewhere. -/
inductive Acts (r : Relocation) : Env → Env → List Mention → List Outline → List Binding →
    List ScopeEvent → List ScopeEvent → Prop where
  | nil (env : Env) : Acts r env env [] [] [] [] []
  /-- One piece takes effect after another. The names stand in the same order, unless the first
  piece declares nothing. -/
  | join {env env' env'' ms ms' msAll os os' osAll bs bs' bsAll es es' fs fs'} :
      ms.Sublist msAll → ms'.Sublist msAll → (ms ++ ms').Perm msAll → (os ++ os').Perm osAll →
      (bs ++ bs').Perm bsAll → env' = env ∨ msAll = ms ++ ms' →
      Acts r env env' ms os bs es fs → Acts r env' env'' ms' os' bs' es' fs' →
      Acts r env env'' msAll osAll bsAll (es ++ es') (fs ++ fs')
  /-- Names that are not used do nothing. -/
  | more {env env' ms os bs es fs} (ms' : List Mention) (is : List Ident) :
      (∀ m ∈ ms', m.role.isUse = false) → Acts r env env' ms os bs es fs →
      Acts r env env' (ms ++ ms') (os ++ is.map Ident.outline) bs es fs
  | node {env env' ms os bs es fs} (n : Node) : n.Does env ms os bs →
      Acts r env env' ms os bs es fs → Acts r env env' ms [.mk n os] bs es fs
  /-- A name is used that is declared elsewhere. -/
  | lookup {env n e e' usage} {i : Ident} (role : NameRole) :
      role.isLookup = true → n = .expr (.name i) ∨ n = .expr (.vararg i.pos) ∧ i.name = varargName →
      e.use? = some ⟨i.name, i.span, usage⟩ → InStep r [e] [e'] →
      Acts r env env [i.mention role] [.mk n []] [⟨i.span, env i.name⟩] [e] [e']
  /-- A name takes a value where it is declared. A loop variable does so in a scope where it does
  not stand. -/
  | own {env os definition attrib value usage fs} {i : Ident} (role : NameRole) :
      role.isOwn = true → os = [i.outline] ∨ role = .loopVariable ∧ os = [] →
      InStep r [.declare ⟨i.name, i.span, definition, false, attrib, value⟩,
        .use ⟨i.name, i.span, usage⟩] fs →
      Acts r env (env.declare i.name i.span) [i.mention role] os [.own i]
        [.declare ⟨i.name, i.span, definition, false, attrib, value⟩, .use ⟨i.name, i.span, usage⟩]
          fs
  | declare {env os definition attrib value e'} {i : Ident} (role : NameRole) :
      os = [i.outline] ∨ os = [] → role.isDeclaration = true → role.isUse = false →
      InStep r [.declare ⟨i.name, i.span, definition, false, attrib, value⟩] [e'] →
      Acts r env (env.declare i.name i.span) [i.mention role] os []
        [.declare ⟨i.name, i.span, definition, false, attrib, value⟩] [e']
  | self {env} (m : Ident) : Acts r env (env.declare "self" m.span) [m.mention .method] [] []
      [m.selfEvent] [(m.relocate r).selfEvent]
  | calls {env env' ms os bs es fs} (c c' : Call) : Acts r env env' ms os bs es fs →
      Acts r env env' ms os bs (es ++ c.events) (fs ++ c'.events)
  /-- What is declared in a scope is forgotten at its end. -/
  | scope {env inner env' ms os bs es fs} (n : Node) {kind : ScopeKind} {span span' : Span} :
      n.Spans os span → n.Does env ms os bs → env.enter kind = inner →
      Acts r inner env' ms os bs es fs →
      Acts r env env ms [.mk n os] bs (.enter kind span :: es ++ [.leave])
        (.enter kind span' :: fs ++ [.leave])

namespace Acts

variable {r : Relocation} {env env' env'' : Env} {ms ms' : List Mention} {os os' : List Outline}
  {bs bs' : List Binding} {es es' fs fs' : List ScopeEvent}

theorem append (h : Acts r env env' ms os bs es fs) (h' : Acts r env' env'' ms' os' bs' es' fs') :
    Acts r env env'' (ms ++ ms') (os ++ os') (bs ++ bs') (es ++ es') (fs ++ fs') :=
  .join (sublist_append_left _ _) (sublist_append_right _ _) (.refl _) (.refl _) (.refl _)
    (.inr rfl) h h'

/-- What comes first in the source may take effect last. -/
theorem append_comm (h : Acts r env env ms os bs es fs)
    (h' : Acts r env env'' ms' os' bs' es' fs') :
    Acts r env env'' (ms' ++ ms) (os' ++ os) (bs ++ bs') (es ++ es') (fs ++ fs') :=
  .join (sublist_append_right _ _) (sublist_append_left _ _) perm_append_comm
    perm_append_comm (.refl _) (.inl rfl) h h'

theorem idents (h : Acts r env env' ms os bs es fs) (role : NameRole) (hrole : role.isUse = false)
    (is : List Ident) :
    Acts r env env' (ms ++ is.map (mention role)) (os ++ is.map outline) bs es fs := by
  refine .more _ is (fun m hm => ?_) h
  obtain ⟨i, -, rfl⟩ := mem_map.mp hm
  exact hrole

theorem within (n : Node) (hn : n.stmt? = none) {kind : ScopeKind}
    (hinner : env.enter kind = inner) (h : Acts r inner env' ms os bs es fs) :
    Acts r env env ms [.mk n os] bs (.enter kind n.span :: es ++ [.leave])
      (.enter kind span' :: fs ++ [.leave]) :=
  .scope n (n.spans_self os) (.other hn) hinner h

/-- Loop variables stand before what the loop runs over, but are declared after it. -/
theorem loop {msVars msAll : List Mention} {osAll : List Outline} {bsVars bsAll : List Binding}
    {vars vars' : List ScopeEvent} (names : List Ident) (b : Block)
    (hvars : Acts r env inner msVars [] bsVars vars vars') (h : Acts r env env ms os bs es fs)
    (hbody : Acts r inner env'' ms' os' bs' es' fs') (hms : msVars ++ ms ++ ms' = msAll)
    (hos : (names.map outline ++ os ++ [Outline.mk (.block b) os']).Perm osAll)
    (hbs : (bs ++ (bsVars ++ bs')).Perm bsAll) :
    Acts r env env msAll osAll bsAll (es ++ .enter .loop b.span :: vars ++ es' ++ [.leave])
      (fs ++ .enter .loop span' :: vars' ++ fs' ++ [.leave]) := by
  have hscope : Acts r env env (msVars ++ ms') [.mk (.block b) os'] (bsVars ++ bs')
      (.enter .loop b.span :: (vars ++ es') ++ [.leave])
      (.enter .loop span' :: (vars' ++ fs') ++ [.leave]) :=
    within (.block b) rfl rfl (hvars.append hbody)
  have hnames := h.more [] names (forall_mem_nil _)
  simp only [cons_append, append_assoc, append_nil] at hscope hnames hos hms ⊢
  subst hms
  refine .join (.trans (sublist_append_left _ _) (sublist_append_right _ _))
    (.append (.refl _) (sublist_append_right _ _)) (perm_append_comm_assoc _ _ _)
    (List.Perm.trans ?_ hos) hbs (.inl rfl) hnames hscope
  rw [append_assoc]
  exact perm_append_comm_assoc _ _ _

theorem ownIdent (i : Ident) (role : NameRole) (hrole : role.isOwn = true)
    (hos : os = [i.outline] ∨ role = .loopVariable ∧ os = []) {value value' : InitialValue} :
    Acts r env (env.declare i.name i.span) [i.mention role] os [.own i]
      [.declare ⟨i.name, i.span, definition, false, attrib, value⟩,
        .use ⟨i.name, i.span, .assigning place⟩]
      [.declare ⟨(i.relocate r).name, (i.relocate r).span, definition', false, attrib', value'⟩,
        .use ⟨(i.relocate r).name, (i.relocate r).span, .assigning place'⟩] :=
  .own role hrole hos (.declare (.inl ⟨rfl, rfl⟩) (.use (Use.becomes_of_ident r i rfl) .nil))

theorem declareIdent (i : Ident) (role : NameRole) (hrole : role.isDeclaration = true)
    (huse : role.isUse = false) {value value' : InitialValue} :
    Acts r env (env.declare i.name i.span) [i.mention role] [i.outline] []
      [.declare ⟨i.name, i.span, definition, false, attrib, value⟩]
      [.declare ⟨(i.relocate r).name, (i.relocate r).span, definition', false, attrib', value'⟩] :=
  .declare role (.inl rfl) hrole huse (.declare (.inl ⟨rfl, rfl⟩) .nil)

theorem assignIdent (i : Ident) :
    Acts r env env [i.mention .target] [i.outline] [⟨i.span, env i.name⟩]
      [.assign ⟨i.name, i.span, .assigning place⟩]
      [.assign ⟨(i.relocate r).name, (i.relocate r).span, .assigning place'⟩] :=
  .lookup .target rfl (.inl rfl) rfl (.assign (Use.becomes_of_ident r i rfl) .nil)

theorem loopVariable (i : Ident) (definition definition' : Span) (value value' : Option Span) :
    Acts r env (env.declare i.name i.span) [i.mention .loopVariable] [] [.own i]
      (i.loopEvents definition value) ((i.relocate r).loopEvents definition' value') :=
  ownIdent i .loopVariable rfl (.inr ⟨rfl, rfl⟩)

theorem loopVariables (env : Env) (names : List Ident) :
    Acts r env (env.declareAll names) (names.map (mention .loopVariable)) [] (names.map .own)
      (names.flatMap fun i => i.loopEvents i.span none)
      ((names.map (relocate r)).flatMap fun i => i.loopEvents i.span none) := by
  induction names generalizing env with
  | nil => exact .nil env
  | cons i names ih => exact (loopVariable i _ _ _ _).append (ih _)

theorem localNames (env : Env) (stmt stmt' : Span) (names : List LocalName) (values : List Expr) :
    Acts r env (env.declareAll (names.map LocalName.ident))
      (LocalName.mentionsOf names values.length) (names.map fun n => n.ident.outline)
      ((names.zip values).map fun p => .own p.1.ident) (LocalName.events stmt names values)
      (LocalName.events stmt' (names.map (LocalName.relocate r)) (Expr.relocateAll r values)) := by
  have hattribute : ∀ n : LocalName,
      ∀ m ∈ n.attrib.toList.map fun a => a.toIdent.mention .attribute, m.role.isUse = false := by
    intro n m hm
    obtain ⟨a, -, rfl⟩ := mem_map.mp hm
    rfl
  induction names generalizing env values with
  | nil => exact .nil env
  | cons n names ih =>
    cases values with
    | nil =>
      have hrest := ih (env.declare n.ident.name n.ident.span) []
      rw [zip_nil_right] at hrest ⊢
      exact ((declareIdent n.ident .declared rfl rfl).more _ [] (hattribute n)).append hrest
    | cons e values =>
      exact ((ownIdent n.ident .initialised rfl (.inl rfl)).more _ [] (hattribute n)).append
        (ih _ values)

theorem parameters (env : Env) (method : Option Ident) (params : List Ident) (vararg : Option Nat) :
    Acts r env.inFunction (env.parameters method params vararg)
      (method.toList.map (mention .method) ++ FuncBody.parameterMentions params vararg)
      (params.map outline) []
      (method.toList.map selfEvent ++ params.map (fun i => .declare (.ofIdent i)) ++
        vararg.toList.map fun pos => .declare (.ofIdent ⟨pos, varargName⟩))
      ((method.map (relocate r)).toList.map selfEvent ++
        (params.map (relocate r)).map (fun i => .declare (.ofIdent i)) ++
        (vararg.map r.offset).toList.map fun pos => .declare (.ofIdent ⟨pos, varargName⟩)) := by
  have hself : ∀ env : Env, Acts r env
      (method.toList.foldl (fun env m => env.declare "self" m.span) env)
      (method.toList.map (mention .method)) [] [] (method.toList.map selfEvent)
      ((method.map (relocate r)).toList.map selfEvent) := by
    intro env
    cases method with
    | none => exact .nil env
    | some m => exact .self m
  have hparams : ∀ env : Env, Acts r env (env.declareAll params)
      (params.map (mention .parameter)) (params.map outline) []
      (params.map fun i => .declare (.ofIdent i))
      ((params.map (relocate r)).map fun i => .declare (.ofIdent i)) := by
    intro env
    induction params generalizing env with
    | nil => exact .nil env
    | cons i params ih => exact (declareIdent i .parameter rfl rfl).append (ih _)
  have hvararg : ∀ env : Env, Acts r env
      (env.declareAll (vararg.toList.map fun pos => ⟨pos, varargName⟩))
      (vararg.toList.map fun pos => mention .parameter ⟨pos, varargName⟩) [] []
      (vararg.toList.map fun pos => .declare (.ofIdent ⟨pos, varargName⟩))
      ((vararg.map r.offset).toList.map fun pos => .declare (.ofIdent ⟨pos, varargName⟩)) := by
    intro env
    cases vararg with
    | none => exact .nil env
    | some pos =>
      exact .declare (i := ⟨pos, varargName⟩) .parameter (.inr rfl) rfl rfl
        (.declare (.inr ⟨.inr rfl, rfl⟩) .nil)
  -- First `self`, then the names, then `...`.
  have hall := ((hself env.inFunction).append (hparams _)).append (hvararg _)
  simpa [FuncBody.parameterMentions, Env.parameters] using hall

theorem funcName (env : Env) (n : FuncName) (body body' : Span) :
    Acts r env env (n.base.mention .functionName :: n.fields.map (mention .field)) [n.outline]
      [⟨n.base.span, env n.base.name⟩] [n.event body] [(n.relocate r).event body'] := by
  have hstep : InStep r [n.event body] [(n.relocate r).event body'] := by
    obtain ⟨base, fields, method⟩ := n
    cases fields with
    | nil =>
      cases method with
      | none => exact .assign (Use.becomes_of_ident r base rfl) .nil
      | some m => exact .extend (Use.becomes_of_ident r base rfl) .nil
    | cons i fields => exact .extend (Use.becomes_of_ident r base rfl) .nil
  obtain ⟨usage, huse⟩ : ∃ usage, (n.event body).use? = some ⟨n.base.name, n.base.span, usage⟩ := by
    unfold FuncName.event
    split
    · exact ⟨_, rfl⟩
    · exact ⟨_, rfl⟩
  have hbase : Acts r env env [n.base.mention .functionName] [n.base.outline]
      [⟨n.base.span, env n.base.name⟩] [n.event body] [(n.relocate r).event body'] :=
    .lookup .functionName rfl (.inl rfl) huse hstep
  have hnames := (hbase.idents .field rfl n.fields).more [] n.method.toList (forall_mem_nil _)
  rw [append_nil] at hnames
  have houtlines : [n.base.outline] ++ n.fields.map outline ++ n.method.toList.map outline =
      (n.names ++ n.method.toList).map outline := by simp [FuncName.names]
  rw [houtlines] at hnames
  exact hnames.node _ (.other rfl)

end Acts

/-! ## Assignments -/

/-- Each of several pieces of syntax leaves an environment as it is. -/
inductive ActsEach (r : Relocation) (env : Env) : List Mention → List Outline → List Binding →
    List (List ScopeEvent) → List (List ScopeEvent) → Prop where
  | nil : ActsEach r env [] [] [] [] []
  | cons {ms ms' os os' bs bs' es ess fs fss} :
      Acts r env env ms os bs es fs → ActsEach r env ms' os' bs' ess fss →
      ActsEach r env (ms ++ ms') (os ++ os') (bs ++ bs') (es :: ess) (fs :: fss)

namespace ActsEach

variable {r : Relocation} {env : Env} {ms ms' : List Mention} {os os' : List Outline}
  {bs bs' : List Binding} {targets targets' values values' : List (List ScopeEvent)}

theorem flatten (h : ActsEach r env ms os bs values values') :
    Acts r env env ms os bs values.flatten values'.flatten := by
  induction h with
  | nil => exact .nil env
  | cons hes _ ih => exact hes.append ih

theorem perm_exchange {α : Type} (value target targets values : List α) :
    (value ++ target ++ (targets ++ values)).Perm (target ++ targets ++ (value ++ values)) := by
  simp only [append_assoc]
  exact (perm_append_comm_assoc _ _ _).trans (.append_left _ (perm_append_comm_assoc _ _ _))

/-- The values of an assignment and its targets do what they would do apart. -/
theorem interleave (h : ActsEach r env ms os bs targets targets')
    (h' : ActsEach r env ms' os' bs' values values') :
    Acts r env env (ms ++ ms') (os ++ os') (bs ++ bs') (interleave targets values)
      (interleave targets' values') := by
  induction h generalizing ms' os' bs' values values' with
  | nil => exact h'.flatten
  | cons htarget _ ih =>
    cases h' with
    | nil => simpa [LuaLint.interleave] using htarget.append (ih .nil)
    | cons hvalue hvalues =>
      refine .join ?_ ?_ ((perm_append_comm.append_right _).trans (perm_exchange _ _ _ _))
        ((perm_append_comm.append_right _).trans (perm_exchange _ _ _ _)) (perm_exchange _ _ _ _)
        (.inl rfl) (hvalue.append_comm htarget) (ih hvalues)
      · exact .append (sublist_append_left _ _) (sublist_append_left _ _)
      · exact .append (sublist_append_right _ _) (sublist_append_right _ _)

end ActsEach

/-! ## Syntax -/

/-- The name at the base of a chain is used in some role, and is read here and elsewhere. -/
structure Chained (base : NameRole) (usage usage' : Option Usage) : Prop where
  lookup : base.isLookup = true
  same : (usage'.getD .reading).read = (usage.getD .reading).read
  read : (usage.getD .reading).read = true

namespace Chained

theorem value : Chained .value none none := ⟨rfl, rfl, rfl⟩

theorem base (hrole : role.isLookup = true) (e e' : Expr) (write : Option Write)
    (value value' : Option Span) :
    Chained role (some (e.usage write value)) (some (e'.usage write value')) :=
  ⟨hrole, (e'.read_usage write value').trans (e.read_usage write value).symm,
    e.read_usage write value⟩

theorem link {usage usage' : Option Usage} (h : Chained role usage usage') (e e' : Expr) :
    Chained role (some (usage.getD (e.usage none none)))
      (some (usage'.getD (e'.usage none none))) := by
  have hread : ∀ (usage : Option Usage) (e : Expr), (usage.getD .reading).read = true →
      (usage.getD (e.usage none none)).read = true := by
    intro usage e hread
    cases usage with
    | none => exact e.read_usage none none
    | some u => exact hread
  have hhere := hread usage e h.read
  exact ⟨h.lookup, (hread usage' e' (h.same.trans h.read)).trans hhere.symm, hhere⟩

end Chained

variable (r : Relocation)

mutual

/-- An expression declares nothing outside of the functions in it. What a chain does with the name
at its base is to read it, here and elsewhere. -/
theorem Expr.acts (env : Env) : ∀ (e : Expr) {base : NameRole} {usage usage' : Option Usage},
    Chained base usage usage' → Acts r env env (e.mentions base) [e.outline] (e.bindings env)
      (e.events usage) ((e.relocate r).events usage')
  | .nil _, _, _, _, _ | .bool _ _, _, _, _, _ | .number _ _, _, _, _, _
  | .string _ _ _, _, _, _, _ => (Acts.nil env).node _ (.other rfl)
  | .vararg pos, _, _, _, _ =>
    .lookup (i := ⟨pos, varargName⟩) .value rfl (.inr ⟨rfl, rfl⟩) rfl
      (.use ⟨rfl, .inr ⟨rfl, rfl⟩⟩ .nil)
  | .name i, base, _, _, h =>
    .lookup base h.lookup (.inl rfl) rfl (.use (Use.becomes_of_ident r i h.same) .nil)
  | .function _ body, _, _, _, _ => (FuncBody.acts env none body).node _ (.other rfl)
  | .table _ fields _, _, _, _, _ => (TableField.acts env fields).node _ (.other rfl)
  | .binary _ _ left right, _, _, _, _ =>
    ((Expr.acts env left .value).append (Expr.acts env right .value)).node _ (.other rfl)
  | .unary _ _ operand, _, _, _, _ => (Expr.acts env operand .value).node _ (.other rfl)
  | .paren _ inner _, _, _, _, _ => (Expr.acts env inner .value).node _ (.other rfl)
  | .field object i, _, _, _, h =>
    ((Expr.acts env object (h.link _ _)).idents .field rfl [i]).node _ (.other rfl)
  | .element object _ key _, _, _, _, h =>
    ((Expr.acts env object (h.link _ _)).append (Expr.acts env key .value)).node _ (.other rfl)
  | .call callee method _ args, _, _, _, h =>
    (((Expr.acts env callee (h.link _ _)).idents .method rfl method.toList).append
      (Expr.actsOf env args)).node _ (.other rfl)

theorem Expr.actsOf (env : Env) : ∀ es : List Expr,
    Acts r env env (Expr.mentionsOf .value es) (Expr.outlines es) (Expr.bindingsOf env es)
      (Expr.eventsOf es) (Expr.eventsOf (Expr.relocateAll r es))
  | [] => .nil env
  | e :: rest => (Expr.acts env e .value).append (Expr.actsOf env rest)

theorem Expr.values_act (env : Env) : ∀ es : List Expr,
    ActsEach r env (Expr.mentionsOf .value es) (Expr.outlines es) (Expr.bindingsOf env es)
      (Expr.valueEvents es) (Expr.valueEvents (Expr.relocateAll r es))
  | [] => .nil
  | e :: rest => .cons (Expr.acts env e .value) (Expr.values_act env rest)

theorem Expr.targets_act (env : Env) : ∀ (es : List Expr) (values values' : List Span),
    ActsEach r env (Expr.mentionsOf .target es) (Expr.outlines es) (Expr.bindingsOf env es)
      (Expr.targetEvents values es) (Expr.targetEvents values' (Expr.relocateAll r es))
  | [], _, _ => .nil
  | e :: rest, values, values' => by
    have he := fun write value value' => Expr.acts env e
      (Chained.base (rfl : NameRole.target.isLookup = true) e (e.relocate r) write value value')
    have hrest := Expr.targets_act env rest values.tail values'.tail
    cases e with
    | name i => exact .cons (.assignIdent i) hrest
    | _ => exact .cons (he _ _ _) hrest

theorem TableField.acts (env : Env) : ∀ fs : List TableField,
    Acts r env env (TableField.mentions fs) (TableField.outlines fs) (TableField.bindings env fs)
      (TableField.events fs) (TableField.events (TableField.relocateAll r fs))
  | [] => .nil env
  | .positional value :: rest =>
    ((Expr.acts env value .value).node _ (.other rfl)).append (TableField.acts env rest)
  | .named i value :: rest =>
    ((((Acts.nil env).idents .key rfl [i]).append (Expr.acts env value .value)).node _
      (.other rfl)).append (TableField.acts env rest)
  | .keyed _ key value :: rest =>
    (((Expr.acts env key .value).append (Expr.acts env value .value)).node _ (.other rfl)).append
      (TableField.acts env rest)

theorem FuncBody.acts (env : Env) (method : Option Ident) : ∀ b : FuncBody,
    Acts r env env (method.toList.map (mention .method) ++ b.mentions) [b.outline]
      (b.bindings env method) (b.events method)
      ((b.relocate r).events (method.map (relocate r)))
  | .mk lparen params vararg rparen body endPos => by
    have hbody := (Acts.parameters env method params vararg).append (Block.acts _ body)
    rw [append_assoc] at hbody
    exact .within (.funcBody (.mk lparen params vararg rparen body endPos)) rfl rfl hbody

theorem Stmt.acts (env : Env) : ∀ s : Stmt,
    Acts r env (s.scope env) s.mentions [s.outline] (s.bindings env) s.events (s.relocate r).events
  | .localAssign _ names values =>
    ((Expr.actsOf env values).append_comm (Acts.localNames env _ _ names values)).node _
      (.declaring _ (by simp [Stmt.localNames]))
  | .assign targets _ values =>
    ((Expr.targets_act env targets _ _).interleave (Expr.values_act env values)).node _ (.stmt rfl)
  | .call callee method _ args =>
    .node _ (.stmt rfl) (.calls _ _ (.node _ (.other rfl) (((Expr.acts env callee
      (.base rfl _ _ none none none)).idents .method rfl method.toList).append
        (Expr.actsOf env args))))
  | .doBlock _ body _ => (Block.acts_scoped env .doBlock rfl body).node _ (.stmt rfl)
  | .whileLoop _ cond body _ =>
    ((Expr.acts env cond .value).append (Block.acts_scoped env .loop rfl body)).node _ (.stmt rfl)
  | .repeatLoop pos body untilPos cond =>
    .scope _ (Stmt.spans_repeat pos untilPos body cond) (.stmt rfl) rfl
      ((Block.acts env body).append (Expr.acts _ cond .value))
  | .ifThen _ cond _ body arms otherwise _ => by
    have hfirst := (Expr.acts env cond .value).append (Block.acts_scoped env .branch rfl body)
    have hall := (hfirst.append (ElseIf.acts env arms)).append (ElsePart.acts env otherwise)
    rw [append_assoc (_ ++ _)] at hall
    exact hall.node _ (.stmt rfl)
  | .numericFor _ var start limit none (.mk pos stmts) _ =>
    .node _ (.stmt rfl) (.loop [var] (.mk pos stmts) (.loopVariable var _ _ _ _)
      (((Expr.acts env start .value).append (Expr.acts env limit .value)).append (.nil env))
      (Stmt.actsOf _ stmts) (by simp [Stmt.mentions, Block.mentions])
      (by simp [Block.outline]) (by simp [Stmt.bindings, Block.bindings]))
  | .numericFor _ var start limit (some step) (.mk pos stmts) _ =>
    .node _ (.stmt rfl) (.loop [var] (.mk pos stmts) (.loopVariable var _ _ _ _)
      (((Expr.acts env start .value).append (Expr.acts env limit .value)).append
        (Expr.acts env step .value))
      (Stmt.actsOf _ stmts) (by simp [Stmt.mentions, Block.mentions])
      (by simp [Block.outline]) (by simp [Stmt.bindings, Block.bindings]))
  | .genericFor _ names exprs (.mk pos stmts) _ =>
    .node _ (.stmt rfl) (.loop names (.mk pos stmts) (.loopVariables env names)
      (Expr.actsOf env exprs) (Stmt.actsOf _ stmts) (by simp [Stmt.mentions, Block.mentions])
      (by simp [Block.outline]) (by simp [Stmt.bindings, Block.bindings]))
  | .function _ n body => by
    have hall := (Acts.funcName env n body.span (body.relocate r).span).append
      (FuncBody.acts env n.method body)
    rw [← append_assoc] at hall
    exact hall.node _ (.stmt rfl)
  | .localFunction _ n body =>
    ((Acts.declareIdent n .declared rfl rfl).append (FuncBody.acts _ none body)).node _
      (.declaring _ rfl)
  | .ret _ values => (Expr.actsOf env values).node _ (.stmt rfl)
  | .brk _ => (Acts.nil env).node _ (.stmt rfl)
  | .goto _ n | .label _ n _ => ((Acts.nil env).idents .label rfl [n]).node _ (.stmt rfl)

theorem Stmt.actsOf (env : Env) : ∀ ss : List Stmt,
    Acts r env (ss.foldl Stmt.scope env) (Stmt.mentionsOf ss) (Stmt.outlines ss)
      (Stmt.bindingsOf env ss) (Stmt.eventsOf ss) (Stmt.eventsOf (Stmt.relocateAll r ss))
  | [] => .nil env
  | s :: rest => (Stmt.acts env s).append (Stmt.actsOf (s.scope env) rest)

theorem ElseIf.acts (env : Env) : ∀ arms : List ElseIf,
    Acts r env env (ElseIf.mentions arms) (ElseIf.outlines arms) (ElseIf.bindings env arms)
      (ElseIf.events arms) (ElseIf.events (ElseIf.relocateAll r arms))
  | [] => .nil env
  | .mk _ cond _ body :: rest =>
    (((Expr.acts env cond .value).append (Block.acts_scoped env .branch rfl body)).node _
      (.other rfl)).append (ElseIf.acts env rest)

theorem ElsePart.acts (env : Env) : ∀ p : ElsePart,
    Acts r env env p.mentions p.outlines (p.bindings env) p.events (p.relocate r).events
  | .absent => .nil env
  | .present _ body => Block.acts_scoped env .branch rfl body

theorem Block.acts (env : Env) : ∀ b : Block,
    Acts r env (b.scope env) b.mentions [b.outline] (b.bindings env) b.events (b.relocate r).events
  | .mk _ stmts => (Stmt.actsOf env stmts).node _ (.other rfl)

theorem Block.acts_scoped (env : Env) (kind : ScopeKind) (hkind : env.enter kind = env) :
    ∀ b : Block, Acts r env env b.mentions [b.outline] (b.bindings env) (b.scoped kind)
      ((b.relocate r).scoped kind)
  | .mk pos stmts => .within (.block (.mk pos stmts)) rfl hkind (Stmt.actsOf env stmts)

end

/-! ## Trees elsewhere -/

/-- The events elsewhere are the same events elsewhere. -/
theorem Acts.inStep {r : Relocation} {env env' : Env} {es fs : List ScopeEvent}
    (h : Acts r env env' ms os bs es fs) : InStep r es fs := by
  induction h with
  | nil env => exact .nil
  | join _ _ _ _ _ _ _ _ ih ih' => exact ih.append ih'
  | more _ _ _ _ ih => exact ih
  | node _ _ _ ih => exact ih
  | lookup _ _ _ _ hstep => exact hstep
  | own _ _ _ hstep => exact hstep
  | declare _ _ _ _ hstep => exact hstep
  | self m => exact .declare (.inr ⟨.inl rfl, rfl⟩) .nil
  | calls c c' _ ih => exact ih.append (.calls c c')
  | scope _ _ _ _ _ ih => exact ih.scope _ _ _

theorem Block.inStep (b : Block) : InStep r b.events (b.relocate r).events :=
  (Block.acts r .empty b).inStep

end LuaLint
