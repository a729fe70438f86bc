import Mathlib.Data.List.Infix
import LuaLint.Proofs.Syntax.Ranges

/-!
# The parts of a phrase

A phrase is made of phrases, and the tokens that write a part stand together among the tokens that
write the whole. What holds of an expression or a statement by the way it is written therefore holds
of every node of a chunk, at the place where the node stands.

Main statements: `Fits.grounded`, `Parser.sited_nodes`.
-/

namespace LuaLint

open List Outline

variable {s : Span} {ts run : List Token} {os : List Outline}

/-! ## Things on runs of tokens -/

/-- Each of some things is found on a run of some tokens. -/
def Sited {α : Type} (on : α → List Token → Prop) (xs : List α) (ts : List Token) : Prop :=
  ∀ x ∈ xs, ∃ run, run <:+: ts ∧ on x run

namespace Sited

variable {α : Type} {on : α → List Token → Prop} {xs ys : List α} {ts us : List Token}

theorem nil : Sited on [] ts := by
  intro x hx
  cases hx

theorem single {x : α} (h : on x ts) : Sited on [x] ts := by
  intro y hy
  rw [mem_singleton.mp hy]
  exact ⟨ts, infix_rfl, h⟩

theorem widen (h : Sited on xs ts) (hsub : ts <:+: us) : Sited on xs us := by
  intro x hx
  obtain ⟨run, hrun, hon⟩ := h x hx
  exact ⟨run, hrun.trans hsub, hon⟩

theorem left (h : Sited on xs us) (ts : List Token) : Sited on xs (ts ++ us) :=
  h.widen (suffix_append ts us).isInfix

theorem right (h : Sited on xs ts) (us : List Token) : Sited on xs (ts ++ us) :=
  h.widen (prefix_append ts us).isInfix

theorem both (h : Sited on xs ts) (h' : Sited on ys ts) : Sited on (xs ++ ys) ts := by
  intro x hx
  rcases mem_append.mp hx with hx | hx
  · exact h x hx
  · exact h' x hx

theorem cons {x : α} (h : Sited on [x] ts) (h' : Sited on xs ts) : Sited on (x :: xs) ts :=
  h.both h'

theorem append (h : Sited on xs ts) (h' : Sited on ys us) : Sited on (xs ++ ys) (ts ++ us) :=
  (h.right us).both (h'.left ts)

theorem subset (h : Sited on xs ts) (hsub : ys ⊆ xs) : Sited on ys ts := fun x hx => h x (hsub hx)

end Sited

def Span.Over (s : Span) (ts : List Token) : Prop := Starts s.start ts ∧ Stops s.stop ts

theorem Span.Over.runs (h : s.Over ts) : Runs ts s :=
  ⟨[], ts, [], by simp, h⟩

theorem Runs.widen (h : Runs run s) (hrun : run <:+: ts) : Runs ts s := by
  obtain ⟨before, after, rfl⟩ := hrun
  exact h.within before after

theorem Ordered.narrow (h : Ordered ts) (hrun : run <:+: ts) : Ordered run := by
  obtain ⟨before, after, rfl⟩ := hrun
  exact (append_iff.mp (append_iff.mp h).1).2.1

/-! ## Nodes on runs of tokens -/

/-- The nodes of some outlines are written by runs of some tokens. -/
def Grounded (os : List Outline) (ts : List Token) : Prop :=
  Sited Node.ReadFrom (Outline.nodesOf os) ts

theorem Outline.nodesOf_append (os os' : List Outline) :
    nodesOf (os ++ os') = nodesOf os ++ nodesOf os' := by
  simp only [nodesOf_eq_flatMap, flatMap_append]

theorem Expr.node_outline (e : Expr) : e.outline.node = .expr e := by
  cases e <;> rfl

theorem Expr.outlines_eq_map (es : List Expr) : outlines es = es.map outline := by
  induction es with
  | nil => rfl
  | cons e es ih => rw [outlines, ih, map_cons]

theorem Covers.grounded {rest : List Token} (h : Covers os ts rest) : Grounded os ts := by
  rw [Grounded]
  induction h with
  | nil => exact .nil
  | @empty pos os before after rest _ _ ih =>
    rw [nodesOf_cons, nodesOf_nil, nil_append]
    exact Sited.cons (.single trivial) (ih.left before)
  | @cons node children os before run after rest hread _ _ _ _ ihc ih =>
    rw [nodesOf_cons]
    have hbelow := ((Sited.single hread).cons ihc).left before
    exact hbelow.append ih

/-- Each node is written by its own run of tokens. -/
theorem Fits.grounded (h : Fits os ts) : Grounded os ts :=
  (h []).grounded

namespace Grounded

variable {ts : List Token}

theorem exists_token {α : Type} {xs : List α} {name : α → Ident}
    (h : Grounded (xs.map fun x => (name x).outline) ts) : ∀ x ∈ xs, ∃ t ∈ ts, name x =
    t.ident := by
  intro x hx
  have hmem : (name x).outline ∈ xs.map fun x => (name x).outline := mem_map_of_mem hx
  obtain ⟨run, hrun, hread⟩ := h _ (mem_nodesOf.mpr ⟨_, hmem, node_mem_nodes _⟩)
  have hread : Reads (.expr (.name (name x))) run := hread
  -- A name is written by one token.
  generalize name x = i at hread
  cases hread with
  | @name t _ => exact ⟨t, hrun.subset (mem_singleton_self t), rfl⟩

theorem sited_exprs {es : List Expr} (h : Grounded (Expr.outlines es) ts) :
    Sited (fun e run => Reads (.expr e) run) es ts := by
  intro e he
  refine h (.expr e) ?_
  rw [← e.node_outline, Expr.outlines_eq_map]
  exact mem_nodesOf.mpr ⟨_, mem_map_of_mem he, e.outline.node_mem_nodes⟩

end Grounded

/-! ## Ranges of parts -/

variable {ts : List Token}

theorem Reads.over_expr {e : Expr} (h : Reads (.expr e) ts) : e.span.Over ts :=
  ⟨h.fits.1, h.fits.2.1⟩

theorem Reads.over_stmt {s : Stmt} (h : Reads (.stmt s) ts) : s.span.Over ts :=
  ⟨h.fits.1, h.fits.2.1⟩

theorem Reads.call_parts {c : Call} (h : Reads (.expr c.expr) ts) :
    ∃ run us, ts = run ++ us ∧ c.calleeSpan.Over run ∧ Reads (.args c.form c.args) us := by
  obtain ⟨callee, method, form, args⟩ := c
  cases h with
  | @call _ _ _ ts us hcallee hargs => exact ⟨ts, us, rfl, hcallee.over_expr, hargs⟩
  | @methodCall _ _ _ c m ts us hcallee _ _ hargs =>
    refine ⟨ts ++ [c] ++ [m], us, rfl, ⟨?_, (Stops.single m).append _⟩, hargs⟩
    exact (hcallee.over_expr.1.append [c]).append [m]

def Stmt.localNames : Stmt → List Ident
  | .localAssign _ names _ => names.map LocalName.ident
  | .localFunction _ name _ => [name]
  | _ => []

theorem Reads.localName_pos {s : Stmt} (h : Reads (.stmt s) ts) (hts : Ordered ts) :
    ∀ i ∈ s.localNames, (∃ t ∈ ts, i.pos = t.pos) ∧ s.span.start < i.pos := by
  -- The first token is `local`, and the names are among the others.
  have hlater : ∀ {t : Token} {us : List Token} {i : Ident}, ts = t :: us →
      (∃ u ∈ us, i = u.ident) → (∃ u ∈ ts, i.pos = u.pos) ∧ s.span.start < i.pos := by
    rintro t us i rfl ⟨u, hu, rfl⟩
    refine ⟨⟨u, mem_cons_of_mem t hu, rfl⟩, ?_⟩
    obtain ⟨first, rest, heq, hstart⟩ := h.over_stmt.1
    cases heq
    have hlt := hts.nonempty t mem_cons_self
    have hle := (pairwise_cons.mp hts.pairwise).1 u hu
    rw [← hstart]
    exact Nat.lt_of_lt_of_le hlt hle
  intro i hi
  cases h with
  | @localNames t names ns _ hnames =>
    obtain ⟨n, hn, rfl⟩ := mem_map.mp hi
    exact hlater rfl (hnames.fits.1.grounded.exists_token n hn)
  | @localAssign t a names values ns us _ hnames _ _ _ =>
    obtain ⟨n, hn, rfl⟩ := mem_map.mp hi
    obtain ⟨u, hu, heq⟩ := hnames.fits.1.grounded.exists_token n hn
    exact hlater rfl ⟨u, by simp [hu], heq⟩
  | @localFunction t f n b us _ _ _ _ =>
    obtain rfl := mem_singleton.mp hi
    exact hlater rfl ⟨n, by simp, rfl⟩
  | _ => cases hi

namespace Parser

variable {source : Bytes} {chunk : Chunk}

/-- The nodes of a parsed chunk are written by runs of its tokens. -/
theorem sited_nodes (h : parse source = .ok chunk) :
    Sited Node.ReadFrom chunk.nodes (Lexer.codeTokens source) := by
  have hnodes : chunk.nodes = nodesOf [chunk.outline] := nodes_eq _
  rw [hnodes]
  rcases outline_of_parse h with ⟨pos, hempty⟩ | hfits
  · rw [hempty, nodesOf_cons, nodesOf_nil]
    exact .single trivial
  · exact hfits.grounded

end Parser

end LuaLint
