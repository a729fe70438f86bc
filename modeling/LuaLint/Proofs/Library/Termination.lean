import Mathlib.Data.Set.Card
import Mathlib.Logic.Function.Iterate
import Mathlib.Logic.Relation
import LuaLint.Proofs.Library.Decoded

/-!
# Documents that hold themselves

An anchor can be used inside of the node that it belongs to, so that a mapping may hold itself and
decoding it may go on for ever. The bound on the depth stands in for this.

To tell whether it is needed, the answer that is given at the bound is made a parameter: decoding
ends by itself if that answer makes no difference. The number of nodes is bound enough for that,
unless there is a node that holds itself on the way.

Main statement: `Decoder.library_ends`.
-/

namespace LuaLint

open Relation List

/-! ## Nodes of a document -/

namespace Yaml

mutual

/-- A node with the values below it. -/
def Node.values : Node → List Node
  | .mapping line entries => .mapping line entries :: valuesIn entries
  | n => [n]

def Node.valuesIn : List (Node × Node) → List Node
  | [] => []
  | (_, v) :: rest => v.values ++ valuesIn rest

end

theorem Node.mem_values (n : Node) : n ∈ n.values := by
  cases n <;> simp [values]

mutual

theorem Node.length_values_le : ∀ n : Node, n.values.length ≤ n.size
  | .scalar .. => Nat.le_refl 1
  | .sequence .. => by simp [values, size]
  | .mapping _ entries => by simpa [values, size] using Node.length_valuesIn_le entries
  | .alias .. => Nat.le_refl 1

theorem Node.length_valuesIn_le :
    ∀ entries : List (Node × Node), (valuesIn entries).length ≤ sizeOfEntries entries
  | [] => Nat.le_refl 0
  | (k, v) :: rest => by
    have hv := Node.length_values_le v
    have hrest := Node.length_valuesIn_le rest
    simp only [valuesIn, sizeOfEntries, length_append]
    omega

end

theorem Node.valuesIn_eq (entries : List (Node × Node)) :
    valuesIn entries = entries.flatMap fun e => e.2.values := by
  induction entries with
  | nil => rfl
  | cons e rest ih => rw [valuesIn, ih, flatMap_cons]

section Entries

variable {line : Nat} {entries : List (Node × Node)} {e : Node × Node}

mutual

theorem Node.mem_values_of_entry (he : e ∈ entries) :
    ∀ {n : Node}, .mapping line entries ∈ n.values → e.2 ∈ n.values
  | .mapping .., h => by
    rw [values, mem_cons] at h ⊢
    refine .inr ?_
    rcases h with h | h
    · cases h
      rw [valuesIn_eq]
      exact mem_flatMap.mpr ⟨e, he, mem_values _⟩
    · exact Node.mem_valuesIn_of_entry he h
  | .scalar .., h => by simp [values] at h
  | .sequence .., h => by simp [values] at h
  | .alias .., h => by simp [values] at h

theorem Node.mem_valuesIn_of_entry (he : e ∈ entries) :
    ∀ {pairs : List (Node × Node)}, .mapping line entries ∈ valuesIn pairs → e.2 ∈ valuesIn pairs
  | [], h => by simp [valuesIn] at h
  | (_, _) :: _, h => by
    rw [valuesIn, mem_append] at h ⊢
    exact h.imp (Node.mem_values_of_entry he) (Node.mem_valuesIn_of_entry he)

end

end Entries

namespace Document

variable {d : Document} {n m : Node}

/-- The nodes that can be met on the way through the mappings of a document. -/
def nodes (d : Document) : List Node := (d.root :: d.anchors).flatMap Node.values

theorem length_nodes_le (d : Document) : d.nodes.length ≤ d.size := by
  have hanchors : (d.anchors.flatMap Node.values).length ≤ Node.sizeOf d.anchors := by
    induction d.anchors with
    | nil => exact Nat.le_refl 0
    | cons n rest ih =>
      have hn := n.length_values_le
      simp only [flatMap_cons, length_append, Node.sizeOf]
      omega
  have hroot := d.root.length_values_le
  simp only [nodes, size, flatMap_cons, length_append]
  omega

/-- A mapping holds what its values stand for. -/
def Holds (d : Document) (n m : Node) : Prop :=
  ∃ line entries, d.resolve n = .mapping line entries ∧ ∃ e ∈ entries, m = d.resolve e.2

theorem resolve_mem_nodes (h : n ∈ d.nodes) : d.resolve n ∈ d.nodes := by
  unfold resolve
  split
  · rename_i line target
    cases htarget : d.anchors[target]? with
    | none => exact h
    | some anchor =>
      refine mem_flatMap.mpr ⟨anchor, mem_cons_of_mem _ ?_, anchor.mem_values⟩
      exact mem_of_getElem? htarget
  · exact h

theorem Holds.mem_nodes (h : d.Holds n m) (hn : n ∈ d.nodes) : m ∈ d.nodes := by
  obtain ⟨line, entries, hmapping, e, he, rfl⟩ := h
  have hmem := resolve_mem_nodes hn
  rw [hmapping] at hmem
  obtain ⟨top, htop, hmem⟩ := mem_flatMap.mp hmem
  exact resolve_mem_nodes (mem_flatMap.mpr ⟨top, htop, Node.mem_values_of_entry he hmem⟩)

theorem mem_nodes_of_root (d : Document) (h : TransGen d.Holds d.root n) : n ∈ d.nodes := by
  have hroot : d.root ∈ d.nodes := mem_flatMap.mpr ⟨_, mem_cons_self, d.root.mem_values⟩
  induction h with
  | single h => exact h.mem_nodes hroot
  | tail _ h ih => exact h.mem_nodes ih

end Document

end Yaml

namespace Decoder

variable {α β σ : Type} {d : Decoder} {n : Yaml.Node} {fuel : Nat}

/-! ## The answer at the bound -/

/-- Decoding a field where `stop` gives the answers at the bound. -/
def fieldFrom (d : Decoder) (stop : Yaml.Node → Result Field) (fuel : Nat) :
    Yaml.Node → Result Field :=
  d.fieldBy^[fuel] stop

theorem fieldFrom_succ (d : Decoder) (stop : Yaml.Node → Result Field) (fuel : Nat) :
    d.fieldFrom stop (fuel + 1) = d.fieldBy (d.fieldFrom stop fuel) :=
  Function.iterate_succ_apply' ..

theorem field_eq_fieldFrom (d : Decoder) (fuel : Nat) :
    d.field fuel = d.fieldFrom (fun n => d.fail n .endless) fuel := by
  induction fuel with
  | zero => rfl
  | succ fuel ih =>
    rw [fieldFrom_succ, ← ih]
    rfl

/-! ## Computations that decode nodes -/

/-- A computation decodes nodes that satisfy `S`, one after the other, and fails where one of them
does. -/
inductive Asks (S : Yaml.Node → Prop) : ((Yaml.Node → Result Field) → Result α) → Prop where
  | done (r : Result α) : Asks S fun _ => r
  | ask {m : Yaml.Node} {next : Field → (Yaml.Node → Result Field) → Result α} :
      S m → (∀ f, Asks S (next f)) → Asks S fun decode => (decode m).bind fun f => next f decode

namespace Asks

variable {S : Yaml.Node → Prop} {run : (Yaml.Node → Result Field) → Result α}

theorem bind (h : Asks S run) {next : α → (Yaml.Node → Result Field) → Result β}
    (hnext : ∀ a, Asks S (next a)) :
    Asks S fun decode => (run decode).bind fun a => next a decode := by
  induction h with
  | done r =>
    cases r with
    | error e => exact .done (.error e)
    | ok a => exact hnext a
  | @ask m next' hm _ ih =>
    -- The first node is still the first one that is decoded.
    convert Asks.ask hm ih using 2 with decode
    dsimp only
    cases decode m <;> rfl

theorem map (h : Asks S run) (g : α → β) : Asks S fun decode => (run decode).map g := by
  convert h.bind fun a => .done (.ok (g a)) using 2 with decode
  cases run decode <;> rfl

theorem pairs {step : (Yaml.Node → Result Field) → σ → Bytes → Yaml.Node → Yaml.Node → Result σ}
    {what : Bytes} (acc : σ)
    (h : ∀ acc key k v, d.document.Holds n v → Asks S fun decode => step decode acc key k v) :
    Asks S fun decode => d.pairs n what acc (step decode) := by
  unfold Decoder.pairs
  split
  · rename_i line entries hmapping
    have h : ∀ acc key k, ∀ e ∈ entries,
        Asks S fun decode => step decode acc key k (d.document.resolve e.2) :=
      fun acc key k e he => h acc key k _ ⟨line, entries, hmapping, e, he, rfl⟩
    clear hmapping
    induction entries generalizing acc with
    | nil => exact .done (.ok acc)
    | cons e rest ih =>
      obtain ⟨k, v⟩ := e
      cases k with
      | scalar line tag key =>
        refine (h acc key _ _ mem_cons_self).bind fun acc => ?_
        exact ih acc fun acc key k e he => h acc key k e (mem_cons_of_mem _ he)
      | _ => exact .done _
  · exact .done _

theorem nested {children : List (Bytes × Yaml.Node × Yaml.Node)} (h : ∀ c ∈ children, S c.2.2)
    (fields : NameMap Field) : Asks S fun decode => d.nested decode children fields := by
  induction children generalizing fields with
  | nil => exact .done (.ok fields)
  | cons c rest ih =>
    rw [forall_mem_cons] at h
    refine .ask h.1 fun f => ?_
    exact (Asks.done (d.place c.2.1 c.1 f fields)).bind fun fields => ih h.2 fields

end Asks

/-- A step leaves the nested fields as they are or adds one. -/
def Nests (f : FieldDraft) (child : Bytes × Yaml.Node × Yaml.Node) (r : Result FieldDraft) : Prop :=
  ∀ f', r = .ok f' → f'.children = f.children ∨ f'.children = child :: f.children

section Nests

variable {f : FieldDraft} {child : Bytes × Yaml.Node × Yaml.Node}

theorem nests_map {x : Result β} {g : β → FieldDraft} (h : ∀ b, (g b).children = f.children) :
    Nests f child (x.map g) := by
  intro f' hf'
  obtain ⟨b, -, rfl⟩ := map_eq_ok_iff.mp hf'
  exact .inl (h b)

theorem nests_ite {c : Prop} [Decidable c] {x y : Result FieldDraft} (hx : Nests f child x)
    (hy : Nests f child y) : Nests f child (if c then x else y) := by
  split
  · exact hx
  · exact hy

theorem nests_fieldKey (d : Decoder) (f : FieldDraft) (key : Bytes) (k v : Yaml.Node) :
    Nests f (key, k, v) (d.fieldKey f key k v) := by
  have hproperty : Nests f (key, k, v) (d.propertyKey f v) := by
    unfold propertyKey
    split
    · exact nests_map fun _ => rfl
    · split
      · rintro _ ⟨⟩
        exact .inl rfl
      · rintro _ ⟨⟩
    · rintro _ ⟨⟩
  have hwritable : Nests f (key, k, v) (d.writableKey f v) := by
    intro f' h
    obtain ⟨word, -, h⟩ := bind_eq_ok_iff.mp h
    split at h
    · cases h
      exact .inl rfl
    · cases h
  have hother : Nests f (key, k, v) (.ok { f with children := (key, k, v) :: f.children }) := by
    rintro _ ⟨⟩
    exact .inr rfl
  exact nests_ite (nests_map fun _ => rfl) <| nests_ite (nests_map fun _ => rfl) <|
    nests_ite hproperty <| nests_ite hwritable <| nests_ite (nests_map fun _ => rfl) <|
    nests_ite (nests_map fun _ => rfl) <| nests_ite (nests_map fun _ => rfl) <|
    nests_ite (nests_map fun _ => rfl) <| nests_ite (nests_map fun _ => rfl) <|
    nests_ite (nests_map fun _ => rfl) hother

end Nests

theorem holds_of_mem_children {draft : FieldDraft}
    (h : d.pairs n "field" .blank d.fieldKey = .ok draft) :
    ∀ c ∈ draft.children, d.document.Holds n c.2.2 := by
  unfold pairs at h
  split at h
  · rename_i line entries hmapping
    refine foldPairs_invariant (P := fun draft => ∀ c ∈ draft.children, d.document.Holds n c.2.2)
      (fun f f' key e he hf hstep => ?_) (by simp [FieldDraft.blank]) h
    rcases nests_fieldKey d f key _ _ f' hstep with hsame | hmore
    · rwa [hsame]
    · rw [hmore, forall_mem_cons]
      exact ⟨⟨line, entries, hmapping, e, he, rfl⟩, hf⟩
  · cases h

theorem asks_fieldBy (d : Decoder) (n : Yaml.Node) :
    Asks (d.document.Holds n) fun decode => d.fieldBy decode n := by
  unfold fieldBy
  cases hdraft : d.pairs n "field" .blank d.fieldKey with
  | error e => exact .done (.error e)
  | ok draft =>
    simp only [Except.bind]
    split
    · exact .done _
    · split
      · exact .done _
      · refine (Asks.done (d.checkedShape n draft)).bind fun shape => ?_
        refine (Asks.nested ?_ []).map _
        intro c hc
        exact holds_of_mem_children hdraft c (mem_reverse.mp hc)

theorem asks_fieldsBy {S : Yaml.Node → Prop} (h : ∀ m, d.document.Holds n m → S m) (what : Bytes)
    (init : NameMap Field) : Asks S fun decode => d.fieldsBy decode n what init :=
  Asks.pairs init fun fields text k v hv => .ask (h v hv) fun f => .done (d.place k text f fields)

theorem asks_libraryBy (d : Decoder) :
    Asks (TransGen d.document.Holds d.document.root) d.libraryBy := by
  refine (Asks.pairs Library.empty fun lib key k v hv => ?_).bind fun lib => .done _
  unfold libraryKeyBy
  split
  · exact .done _
  · split
    · exact .done _
    · split
      · refine (asks_fieldsBy (fun m hm => ?_) _ _).map _
        exact .tail (.single hv) hm
      · split
        · refine (Asks.pairs lib.structs fun tables name _ v' hv' => ?_).map _
          refine (asks_fieldsBy (fun m hm => ?_) _ _).map _
          exact .tail (.tail (.single hv) hv') hm
        · exact .done _

/-! ## Ends -/

/-- Within a bound, a computation does not depend on the answers at the bound. -/
def Ends (d : Decoder) (fuel : Nat) (run : (Yaml.Node → Result Field) → Result α) : Prop :=
  ∃ r, ∀ stop, run (d.fieldFrom stop fuel) = r

/-- A computation fails as the nodes at the bound do. -/
def Exceeds (d : Decoder) (fuel : Nat) (run : (Yaml.Node → Result Field) → Result α) : Prop :=
  ∀ e, run (d.fieldFrom (fun _ => .error e) fuel) = .error e

variable {S : Yaml.Node → Prop} {run : (Yaml.Node → Result Field) → Result α}

theorem Ends.not_exceeds (h : d.Ends fuel run) : ¬ d.Exceeds fuel run := by
  intro hexceeds
  obtain ⟨r, hr⟩ := h
  have h₀ := (hr _).symm.trans (hexceeds ⟨[], 0, .endless⟩)
  have h₁ := (hr _).symm.trans (hexceeds ⟨[], 1, .endless⟩)
  cases h₀.symm.trans h₁

theorem result_of_le (run : (Yaml.Node → Result Field) → Result α) {r : Result α}
    (h : ∀ stop, run (d.fieldFrom stop fuel) = r) {fuel' : Nat} (hle : fuel ≤ fuel')
    (stop : Yaml.Node → Result Field) : run (d.fieldFrom stop fuel') = r := by
  obtain ⟨more, rfl⟩ := Nat.exists_eq_add_of_le hle
  unfold fieldFrom at h ⊢
  rw [Function.iterate_add_apply]
  exact h _

theorem Asks.ends_or_exceeds_of (h : Asks S run)
    (hnodes : ∀ m, d.Ends fuel (· m) ∨ d.Exceeds fuel (· m)) : d.Ends fuel run ∨
    d.Exceeds fuel run := by
  induction h with
  | done r => exact .inl ⟨r, fun _ => rfl⟩
  | @ask m next _ _ ih =>
    -- If the first node ends, its field decides how the computation goes on.
    rcases hnodes m with ⟨r, hr⟩ | hexceeds
    · cases r with
      | error e => exact .inl ⟨.error e, fun stop => by simp only [hr, Except.bind]⟩
      | ok f => simpa only [Ends, Exceeds, hr, Except.bind] using ih f
    · refine .inr fun e => ?_
      simp only [hexceeds e, Except.bind]

theorem node_ends_or_exceeds (d : Decoder) (fuel : Nat) (n : Yaml.Node) :
    d.Ends fuel (· n) ∨ d.Exceeds fuel (· n) := by
  induction fuel generalizing n with
  | zero => exact .inr fun e => rfl
  | succ fuel ih =>
    have h := (asks_fieldBy d n).ends_or_exceeds_of ih
    simpa only [Ends, Exceeds, fieldFrom_succ] using h

theorem Asks.ends_or_exceeds (h : Asks S run) (fuel : Nat) : d.Ends fuel run ∨ d.Exceeds fuel run :=
  h.ends_or_exceeds_of (node_ends_or_exceeds d fuel)

/-- A computation that does not end decodes a node for which decoding does not end. With any other
bound, it does not end before that node does. -/
theorem Asks.exists_of_not_ends (h : Asks S run) (hnot : ¬ d.Ends fuel run) :
    ∃ m, S m ∧ ¬ d.Ends fuel (· m) ∧ ∀ fuel', d.Ends fuel' run → d.Ends fuel' (· m) := by
  induction h with
  | done r => exact absurd ⟨r, fun _ => rfl⟩ hnot
  | @ask m next hm hnext ih =>
    have hfirst : ∀ fuel', d.Ends fuel' (fun decode => (decode m).bind fun f => next f decode) →
        d.Ends fuel' (· m) := by
      intro fuel' hends
      refine (node_ends_or_exceeds d fuel' m).resolve_right fun hexceeds =>
        hends.not_exceeds fun e => ?_
      simp only [hexceeds e, Except.bind]
    by_cases hends : d.Ends fuel (· m)
    · obtain ⟨r, hr⟩ := hends
      cases r with
      | error e => exact absurd ⟨.error e, fun stop => by simp only [hr, Except.bind]⟩ hnot
      | ok f =>
        have hrun : ¬ d.Ends fuel (next f) := by simpa only [Ends, hr, Except.bind] using hnot
        obtain ⟨m', hm', hnot', hall⟩ := ih f hrun
        refine ⟨m', hm', hnot', fun fuel' hends => hall fuel' ?_⟩
        -- The first node has the same result with both bounds.
        obtain ⟨r', hr'⟩ := hfirst fuel' hends
        have heq : r' = .ok f :=
          (result_of_le (· m) hr' (Nat.le_max_right fuel fuel') fun _ => .ok f).symm.trans
            (result_of_le (· m) hr (Nat.le_max_left fuel fuel') _)
        subst heq
        simpa only [Ends, hr', Except.bind] using hends
    · exact ⟨m, hm, hends, hfirst⟩

/-! ## Nodes that hold themselves -/

/-- Decoding a field leads to decoding another one, which is to end before. -/
def Leads (d : Decoder) (n m : Yaml.Node) : Prop :=
  d.document.Holds n m ∧ ∀ fuel, d.Ends (fuel + 1) (· n) → d.Ends fuel (· m)

theorem exists_leads (h : ¬ d.Ends (fuel + 1) (· n)) : ∃ m, d.Leads n m ∧ ¬ d.Ends fuel (· m) := by
  have hsucc : ∀ fuel, d.Ends (fuel + 1) (· n) ↔ d.Ends fuel fun decode => d.fieldBy decode n := by
    simp only [Ends, fieldFrom_succ, implies_true]
  rw [hsucc] at h
  obtain ⟨m, hholds, hnot, hall⟩ := (asks_fieldBy d n).exists_of_not_ends h
  exact ⟨m, ⟨hholds, fun fuel' hends => hall fuel' ((hsucc fuel').mp hends)⟩, hnot⟩

theorem Leads.exists_lt {m : Yaml.Node} (h : d.Leads n m) (hends : d.Ends fuel (· n)) :
    ∃ fuel' < fuel, d.Ends fuel' (· m) := by
  cases fuel with
  | zero => exact absurd (fun e => rfl) hends.not_exceeds
  | succ fuel => exact ⟨fuel, fuel.lt_succ_self, h.2 fuel hends⟩

theorem exists_lt_of_transGen {m : Yaml.Node} (h : TransGen d.Leads n m)
    (hends : d.Ends fuel (· n)) :
    ∃ fuel' < fuel, d.Ends fuel' (· m) := by
  induction h with
  | single h => exact h.exists_lt hends
  | tail _ hlast ih =>
    obtain ⟨fuel₁, hlt₁, hends₁⟩ := ih
    obtain ⟨fuel₂, hlt₂, hends₂⟩ := hlast.exists_lt hends₁
    exact ⟨fuel₂, Nat.lt_trans hlt₂ hlt₁, hends₂⟩

theorem not_ends_of_loop (h : TransGen d.Leads n n) (fuel : Nat) : ¬ d.Ends fuel (· n) := by
  induction fuel using Nat.strong_induction_on with
  | _ fuel ih =>
    intro hends
    -- Once around the loop the same node would end within a smaller bound.
    obtain ⟨fuel', hlt, hends'⟩ := exists_lt_of_transGen h hends
    exact ih fuel' hlt hends'

/-- The nodes of the document that decoding a node leads to. -/
def below (d : Decoder) (n : Yaml.Node) : Set Yaml.Node :=
  {m | m ∈ d.document.nodes ∧ TransGen d.Leads n m}

theorem finite_below (d : Decoder) (n : Yaml.Node) : (d.below n).Finite :=
  d.document.nodes.finite_toSet.subset fun _ h => h.1

theorem ncard_below_le (d : Decoder) (n : Yaml.Node) : (d.below n).ncard ≤ d.document.size := by
  classical
  calc (d.below n).ncard ≤ (d.document.nodes.toFinset : Set Yaml.Node).ncard :=
        Set.ncard_le_ncard (fun m h => mem_toFinset.mpr h.1) (Finset.finite_toSet _)
    _ = d.document.nodes.toFinset.card := Set.ncard_coe_finset _
    _ ≤ d.document.nodes.length := toFinset_card_le _
    _ ≤ d.document.size := d.document.length_nodes_le

/-- Unless decoding a node leads to a loop, it ends within a bound above the number of nodes
below. -/
theorem ends_of_no_loop (hn : n ∈ d.document.nodes)
    (hloop : ∀ m, ReflTransGen d.Leads n m → ¬ TransGen d.Leads m m)
    (hcard : (d.below n).ncard < fuel) :
    d.Ends fuel (· n) := by
  induction fuel generalizing n with
  | zero => exact absurd hcard (Nat.not_lt_zero _)
  | succ fuel ih =>
    by_contra hnot
    obtain ⟨m, hleads, hnot⟩ := exists_leads hnot
    have hm : m ∈ d.document.nodes := hleads.1.mem_nodes hn
    -- The node itself is below the first one, but not below itself.
    have hlt : (d.below m).ncard < (d.below n).ncard := by
      apply Set.ncard_lt_ncard _ (d.finite_below n)
      refine ⟨fun l hl => ⟨hl.1, .head hleads hl.2⟩, fun hsub => ?_⟩
      exact hloop m (.single hleads) (hsub ⟨hm, .single hleads⟩).2
    exact hnot (ih hm (fun l hl => hloop l (.head hleads hl)) (by omega))

/-- Where decoding a library does not end within the number of nodes, there is a node that holds
itself, and no bound is enough. -/
theorem loop_of_not_ends (h : ¬ d.Ends (d.document.size + 1) d.libraryBy) :
    (∃ n, TransGen d.document.Holds d.document.root n ∧ TransGen d.document.Holds n n) ∧
      ∀ fuel, d.Exceeds fuel d.libraryBy := by
  -- There is a node to blame, and it leads to a loop, or else it would end.
  obtain ⟨m, hm, hnot, hall⟩ := (asks_libraryBy d).exists_of_not_ends h
  have hloop : ∃ l, ReflTransGen d.Leads m l ∧ TransGen d.Leads l l := by
    by_contra hno
    refine hnot (ends_of_no_loop (d.document.mem_nodes_of_root hm) ?_ ?_)
    · exact fun l hl hloop => hno ⟨l, hl, hloop⟩
    · exact Nat.lt_succ_of_le (d.ncard_below_le m)
  obtain ⟨l, hreach, hloop⟩ := hloop
  have hholds : ∀ a b, d.Leads a b → d.document.Holds a b := fun _ _ h => h.1
  refine ⟨⟨l, hm.trans_left (ReflTransGen.mono hholds _ _ hreach), TransGen.mono hholds _ _ hloop⟩,
    ?_⟩
  intro fuel
  refine ((asks_libraryBy d).ends_or_exceeds fuel).resolve_left fun hends => ?_
  obtain ⟨fuel', -, hends'⟩ := exists_lt_of_transGen (.trans_right hreach hloop) (hall fuel hends)
  exact not_ends_of_loop hloop fuel' hends'

/-- Decoding a library does not depend on the bound and on what happens there, if the bound is above
the number of nodes of the document. Otherwise there is a node that holds itself, and decoding fails
with whatever is given at the bound, however large that is. -/
theorem library_ends (d : Decoder) :
    (∀ stop fuel, d.document.size < fuel → d.libraryBy (d.fieldFrom stop fuel) = d.library) ∨
    (∃ n, TransGen d.document.Holds d.document.root n ∧ TransGen d.document.Holds n n) ∧
      ∀ fuel e, d.libraryBy (d.fieldFrom (fun _ => .error e) fuel) = .error e := by
  by_cases hends : d.Ends (d.document.size + 1) d.libraryBy
  · left
    obtain ⟨r, hr⟩ := hends
    intro stop fuel hfuel
    rw [library, field_eq_fieldFrom, hr]
    exact result_of_le d.libraryBy hr hfuel stop
  · exact .inr (loop_of_not_ends hends)

/-- A field that is nested in itself. -/
def loopText : Bytes := "globals:\n  a: &x\n    b: *x\n"

/-- A document can be written such that decoding it does not end. -/
theorem library_endless : ∃ document, Yaml.read loopText = some (some document) ∧
    ∀ fuel e, libraryBy ⟨"g.yml", document⟩
      (fieldFrom ⟨"g.yml", document⟩ (fun _ => .error e) fuel) =
      .error e := by
  -- With different errors at the bound the results are different.
  have hread : ∃ document ∈ (Yaml.read loopText).join, ∀ line < 2,
      failure? (libraryBy ⟨"g.yml", document⟩ (fieldFrom ⟨"g.yml", document⟩
        (fun _ => .error ⟨[], line, .endless⟩) (document.size + 1))) =
          some ⟨[], line, .endless⟩ := by
    decide +kernel
  obtain ⟨document, hread, hlines⟩ := hread
  refine ⟨document, Option.join_eq_some_iff.mp hread, (loop_of_not_ends ?_).2⟩
  rintro ⟨r, hr⟩
  have h₀ := hlines 0 (by decide)
  have h₁ := hlines 1 (by decide)
  rw [hr] at h₀ h₁
  cases h₀.symm.trans h₁

end Decoder

end LuaLint
