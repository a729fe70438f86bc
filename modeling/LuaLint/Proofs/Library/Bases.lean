import Mathlib.Data.Finset.Card
import Mathlib.Logic.Relation
import LuaLint.Proofs.Library.Loaded

/-!
# Bases of libraries

A document names the library below it, whose parts are looked up next to the document, and so on. A
part that is being loaded is not looked up again, so this ends before the bound on the depth is
reached: every part but the first stands in the base of some document.

What is being loaded is told by the names of the parts alone. So a cycle is reported where a part
leads back to a part of the same name, which need not be the same document.

Main statement: `Library.load_bases`.
-/

namespace LuaLint

open Relation List

variable {e : LoadError} {tree : FileTree} {content q : Bytes} {parts trail : List Bytes}

/-! ## Errors of results -/

section Results

variable {ε ε' α β : Type}

theorem bind_eq_error_iff {x : Except ε α} {f : α → Except ε β} {e : ε} :
    x.bind f = .error e ↔ x = .error e ∨ ∃ a, x = .ok a ∧ f a = .error e := by
  cases x <;> simp [Except.bind]

theorem map_eq_error_iff {x : Except ε α} {f : α → β} {e : ε} :
    x.map f = .error e ↔ x = .error e := by
  cases x <;> simp [Except.map]

theorem mapError_eq_error {x : Except ε α} {f : ε → ε'} {e : ε'} (h : x.mapError f = .error e) :
    ∃ cause, x = .error cause ∧ e = f cause := by
  cases x with
  | error cause =>
    cases h
    exact ⟨cause, rfl, rfl⟩
  | ok a => cases h

end Results

/-! ## Contents -/

namespace FileTree

theorem contents_subset {name : Bytes} {e : FileEntry} (h : tree.get? name = some e) :
    contents e ⊆ contentsOf tree := by
  have hmem : (name, e) ∈ tree := NameMap.mem_of_get? h
  clear h
  induction tree with
  | nil => cases hmem
  | cons entry rest ih =>
    obtain ⟨other, e'⟩ := entry
    rw [contentsOf]
    rcases mem_cons.mp hmem with heq | hmem
    · cases heq
      exact subset_append_left _ _
    · exact List.Subset.trans (ih hmem) (subset_append_right _ _)

theorem mem_contents_of_find {trees : List FileTree} {path : List Bytes} {all : List Bytes}
    (htrees : ∀ tree ∈ trees, contentsOf tree ⊆ all) (h : find trees path = .ok (.file content)) :
    content ∈ all := by
  -- The first tree is searched, and `..` goes back to those around it.
  induction path generalizing trees with
  | nil => cases trees <;> cases h
  | cons name rest ih =>
    cases trees with
    | nil => cases h
    | cons tree outer =>
      rw [forall_mem_cons] at htrees
      unfold find at h
      split at h
      · cases h
      split at h
      · exact ih htrees.2 h
      split at h
      · cases h
      · rename_i entries hget
        have hentries := List.Subset.trans (contents_subset hget) htrees.1
        exact ih (forall_mem_cons.mpr ⟨hentries, forall_mem_cons.mpr htrees⟩) h
      · rename_i found hget
        split at h
        · cases h
          exact htrees.1 (contents_subset hget mem_cons_self)
        · cases h

theorem mem_contentsOf_of_read {path : Bytes} (h : tree.read path = .ok content) :
    content ∈ contentsOf tree := by
  have hfind : find [tree] (Path.parts path) = .ok (.file content) := by
    unfold read stat at h
    split at h
    · rename_i found hstat
      cases h
      split at hstat
      · cases hstat
      split at hstat
      · cases hstat
      split at hstat
      · rename_i hfind
        split at hstat
        · cases hstat
        · cases hstat
          exact hfind
      · exact hstat
    · cases h
    · cases h
  exact mem_contents_of_find (by simp) hfind

end FileTree

namespace Library

variable {tree : FileTree} {fuel : Nat} {loading : List Bytes} {dir part name path text : Bytes}
  {doc : Library}

theorem mem_topScalars {d : Decoder} (h : d.library = .ok doc) :
    doc.base = [] ∨ doc.base ∈ d.document.topScalars := by
  obtain ⟨collected, hcollected, hclosed⟩ := bind_eq_ok_iff.mp h
  obtain ⟨rfl, -⟩ := closed_eq_ok_iff.mp hclosed
  unfold Decoder.pairs at hcollected
  split at hcollected
  · rename_i line entries hroot
    refine Decoder.foldPairs_invariant
      (P := fun lib => lib.base = [] ∨ lib.base ∈ d.document.topScalars)
      (fun lib lib' key e he hlib hstep => ?_) (.inl rfl) hcollected
    rcases libraryKey_cases hstep with ⟨base, _, hbase | hbase, rfl, -⟩ | ⟨_, -, -, rfl⟩ |
      ⟨_, -, -, rfl⟩
    · exact hbase ▸ hlib
    · right
      simp only [Yaml.Document.topScalars, hroot, mem_filterMap]
      obtain ⟨line, tag, hvalue⟩ :
          ∃ line tag, d.document.resolve e.2 = .scalar line tag base := by
        unfold Decoder.scalar at hbase
        split at hbase
        · cases hbase
          exact ⟨_, _, ‹_›⟩
        · cases hbase
      exact ⟨e, he, by rw [hvalue]⟩
    · exact hlib
    · exact hlib
  · cases hcollected

theorem base_of_ofMeta {v : ConfigValue} (h : ofMeta name v = .ok doc) :
    doc.base = [] ∨ ∃ about, v = .table about ∧ ∃ e ∈ about, e.2 = .text doc.base := by
  unfold ofMeta at h
  split at h
  · rename_i about
    obtain ⟨base, hbase, h⟩ := bind_eq_ok_iff.mp h
    obtain ⟨own, -, h⟩ := bind_eq_ok_iff.mp h
    have hdoc : doc.base = base := by
      split at h
      · cases h
        rfl
      · obtain ⟨n, -, h⟩ := bind_eq_ok_iff.mp h
        obtain ⟨tables, -, h⟩ := bind_eq_ok_iff.mp h
        cases h
        rfl
    unfold metaText at hbase
    split at hbase
    · cases hbase
      exact .inl hdoc
    · rename_i value hget
      cases hbase
      exact .inr ⟨about, rfl, _, NameMap.mem_of_get? hget, hdoc ▸ rfl⟩
    · cases hbase
  · cases h

theorem mem_basesIn (h : parseDocument path text = .ok doc) :
    doc.base = [] ∨ doc.base ∈ basesIn text := by
  have h := mapError_eq_ok_iff.mp h
  unfold basesIn
  split at h
  · obtain ⟨table, about, n, globals, htable, habout, -, rfl, -⟩ := parseOlder_cases h
    rcases habout with ⟨v, hv, habout⟩ | rfl
    · refine (base_of_ofMeta habout).imp_right ?_
      rintro ⟨about, rfl, e, he, hvalue⟩
      apply mem_append_right
      rw [htable, Option.bind_some, hv]
      exact mem_filterMap.mpr ⟨e, he, by rw [hvalue]⟩
    · exact .inl rfl
  · unfold parse at h
    split at h
    · cases h
    · cases h
    · rename_i d hread
      refine (mem_topScalars h).imp_right fun hmem => mem_append_left _ ?_
      rw [hread]
      exact hmem

/-! ## Enough fuel -/

theorem found?_eq_some {result : Except ReadError Bytes}
    (h : found? tree loading dir part = some (path, result)) :
    dir ≠ [] ∧ part ∉ loading ∧ findDocument? tree dir part extensions = some (path, result) := by
  unfold found? at h
  split at h
  · cases h
  · rename_i hguard
    simp only [Bool.or_eq_true, not_or, List.isEmpty_iff, contains_iff_mem] at hguard
    exact ⟨hguard.1, hguard.2, h⟩

theorem read_of_findDocument? {exts : List Bytes}
    (h : findDocument? tree dir part exts = some (path, .ok text)) : tree.read path = .ok text := by
  induction exts with
  | nil => cases h
  | cons ext rest ih =>
    simp only [findDocument?] at h
    split at h
    · exact ih h
    · obtain ⟨rfl, hread⟩ := Prod.mk.inj (Option.some.inj h)
      exact hread

/-- Every part of the base of a document that can be found is one of the parts in the tree. -/
theorem mem_baseParts (hfound : found? tree loading dir part = some (path, .ok text))
    (hparse : parseDocument path text = .ok doc) (hbase : doc.base ≠ []) :
    ∀ p ∈ nameParts doc.base, p ∈ baseParts tree := by
  intro p hp
  have hread := read_of_findDocument? (found?_eq_some hfound).2.2
  have hmem := (mem_basesIn hparse).resolve_left hbase
  exact mem_flatMap.mpr
    ⟨text, FileTree.mem_contentsOf_of_read hread, mem_flatMap.mpr ⟨_, hmem, hp⟩⟩

/-- The parts of bases that are not being loaded. -/
def room (tree : FileTree) (loading : List Bytes) : Finset Bytes :=
  (baseParts tree).toFinset \ loading.toFinset

theorem card_room_lt (hpart : part ∈ baseParts tree) (hloading : part ∉ loading) :
    (room tree (loading ++ [part])).card < (room tree loading).card := by
  apply Finset.card_lt_card
  refine Finset.ssubset_iff_of_subset ?_ |>.mpr
    ⟨part, by simp [room, hpart, hloading], by simp [room]⟩
  intro p
  simp +contextual [room]

/-- There is fuel for the name and for all that is below it. -/
structure Enough (tree : FileTree) (fuel : Nat) (loading : List Bytes) (name : Bytes) : Prop where
  pos : 0 < fuel
  below : ∀ p ∈ nameParts name, p ∉ loading → (room tree (loading ++ [p])).card + 1 < fuel

theorem enough_depthBound (h : depthBound tree ≤ fuel) (name : Bytes) :
    Enough tree fuel [] name := by
  unfold depthBound at h
  refine ⟨by omega, fun p _ _ => ?_⟩
  have hle : (room tree ([] ++ [p])).card ≤ (baseParts tree).length :=
    Nat.le_trans (Finset.card_le_card Finset.sdiff_subset) (toFinset_card_le _)
  omega

theorem Enough.base (h : Enough tree (fuel + 1) loading name) (hpart : part ∈ nameParts name)
    (hfound : found? tree loading dir part = some (path, .ok text))
    (hparse : parseDocument path text = .ok doc) (hbase : doc.base ≠ []) :
    Enough tree fuel (loading ++ [part]) doc.base := by
  -- Each part of the base stands in the tree, so that it takes room when it is loaded.
  have hroom := h.below part hpart (found?_eq_some hfound).2.1
  refine ⟨by omega, fun p hp hloading => ?_⟩
  have hlt := card_room_lt (mem_baseParts hfound hparse hbase p hp) hloading
  omega

theorem compose_congr {load load' : Bytes → Except LoadError (Library × Bool)}
    (h : ∀ part ∈ parts, load part = load' part) (acc : Option (Library × Bool)) :
    compose name load acc parts = compose name load' acc parts := by
  induction parts generalizing acc with
  | nil => rfl
  | cons part rest ih =>
    rw [forall_mem_cons] at h
    unfold compose
    rw [h.1]
    congr 1
    cases load' part with
    | error e => rfl
    | ok next => cases acc <;> exact ih h.2 _

theorem loadPart_congr {fuel' : Nat} (h : ∀ path text doc,
      found? tree loading dir part = some (path, .ok text) → parseDocument path text = .ok doc →
      doc.base ≠ [] → loadFrom tree fuel (loading ++ [part]) (Path.directory path) doc.base =
        loadFrom tree fuel' (loading ++ [part]) (Path.directory path) doc.base) :
    loadPart tree fuel loading dir part = loadPart tree fuel' loading dir part := by
  unfold loadPart
  split
  · rfl
  · rename_i path text hfound
    cases hparse : parseDocument path text with
    | error e => rfl
    | ok doc =>
      by_cases hbase : doc.base = []
      · simp [Except.bind, layer, hbase]
      · simp [Except.bind, layer, hbase, h path text doc hfound hparse hbase]
  · rfl

/-- Fuel that is enough makes no difference. -/
theorem loadFrom_eq_of_enough {fuel' : Nat} (h : Enough tree fuel loading name)
    (h' : Enough tree fuel' loading name) :
    loadFrom tree fuel loading dir name = loadFrom tree fuel' loading dir name := by
  induction fuel generalizing fuel' loading dir name with
  | zero => exact absurd h.pos (Nat.lt_irrefl 0)
  | succ fuel ih =>
    -- Both sides have a unit of fuel to spend on this name.
    obtain ⟨fuel', rfl⟩ := Nat.exists_eq_add_one.mpr h'.pos
    rw [loadFrom_succ, loadFrom_succ]
    congr 1
    refine compose_congr (fun part hpart => loadPart_congr ?_) none
    intro path text doc hfound hparse hbase
    exact ih (h.base hpart hfound hparse hbase) (h'.base hpart hfound hparse hbase)

/-! ## Cycles -/

/-- The segments below a segment, which is a directory and a part that is looked up there: the parts
of the base of the document found, to be looked up next to that document. -/
def segmentsBelow (tree : FileTree) (segment : Bytes × Bytes) : List (Bytes × Bytes) :=
  match found? tree [] segment.1 segment.2 with
  | some (path, .ok text) =>
    match parseDocument path text with
    | .ok doc =>
      if doc.base.isEmpty then [] else (nameParts doc.base).map fun part =>
        (Path.directory path, part)
    | .error _ => []
  | _ => []

def Follows (tree : FileTree) (upper lower : Bytes × Bytes) : Prop :=
  lower ∈ segmentsBelow tree upper

theorem follows_of_found? (hfound : found? tree loading dir part = some (path, .ok text))
    (hparse : parseDocument path text = .ok doc) (hbase : doc.base ≠ []) :
    ∀ p ∈ nameParts doc.base, Follows tree (dir, part) (Path.directory path, p) := by
  intro p hp
  obtain ⟨hdir, -, hfind⟩ := found?_eq_some hfound
  have hfound' : found? tree [] dir part = some (path, .ok text) := by simp [found?, hdir, hfind]
  simp only [Follows, segmentsBelow, hfound', hparse, List.isEmpty_iff, if_neg hbase]
  exact mem_map_of_mem hp

theorem compose_eq_error {load : Bytes → Except LoadError (Library × Bool)}
    {acc : Option (Library × Bool)} (h : compose name load acc parts = .error e) :
    e = .emptyName name ∨ ∃ part ∈ parts, load part = .error e := by
  induction parts generalizing acc with
  | nil => cases h
  | cons part rest ih =>
    unfold compose at h
    split at h
    · cases h
      exact .inl rfl
    · rcases bind_eq_error_iff.mp h with hload | ⟨next, -, h⟩
      · exact .inr ⟨part, mem_cons_self, hload⟩
      · have hrest : ∃ acc', compose name load acc' rest = .error e := by cases acc <;> exact ⟨_, h⟩
        obtain ⟨acc', h⟩ := hrest
        refine (ih h).imp_right ?_
        rintro ⟨p, hp, hload⟩
        exact ⟨p, mem_cons_of_mem _ hp, hload⟩

theorem layer_eq_error {loadBase : Bytes → Except LoadError Library}
    (h : doc.layer path loadBase = .error e) : (∃ fault, e = .faulty fault) ∨
      doc.base ≠ [] ∧ ∃ cause, loadBase doc.base = .error cause ∧ e =
        .inBase path doc.base cause := by
  unfold layer at h
  split at h
  · cases h
  · rename_i hbase
    rcases bind_eq_error_iff.mp h with h | ⟨base, -, h⟩
    · obtain ⟨cause, hload, rfl⟩ := mapError_eq_error h
      exact .inr ⟨by simpa using hbase, cause, hload, rfl⟩
    · rcases bind_eq_error_iff.mp h with h | ⟨_, -, h⟩
      · obtain ⟨fault, -, rfl⟩ := mapError_eq_error h
        exact .inl ⟨fault, rfl⟩
      · cases h

/-- A part for which a cycle is reported is being loaded already, or the report is about its
base. -/
theorem loadPart_cyclic (h : loadPart tree fuel loading dir part = .error e)
    (hroot : e.root = .cyclic q trail) : q = part ∧ part ∈ loading ∧ builtin? part = none ∨
    ∃ path text doc cause, found? tree loading dir part = some (path, .ok text) ∧
      parseDocument path text = .ok doc ∧ doc.base ≠ [] ∧
      loadFrom tree fuel (loading ++ [part]) (Path.directory path) doc.base = .error cause ∧
      cause.root = .cyclic q trail := by
  unfold loadPart at h
  split at h
  · cases h
    cases hroot
  · rename_i path text hfound
    rcases bind_eq_error_iff.mp h with h | ⟨doc, hparse, h⟩
    · obtain ⟨fault, -, rfl⟩ := mapError_eq_error h
      cases hroot
    · rcases layer_eq_error (map_eq_error_iff.mp h) with ⟨fault, rfl⟩ | ⟨hbase, cause, hload, rfl⟩
      · cases hroot
      · exact .inr ⟨path, text, doc, cause, hfound, hparse, hbase, hload, hroot⟩
  · split at h
    · cases h
    · rename_i hbuiltin
      split at h
      · rename_i hloading
        cases h
        cases hroot
        exact .inl ⟨rfl, by simpa using hloading, hbuiltin⟩
      · cases h
        cases hroot

/-- Where a cycle is reported, a segment leads to one with the same part. The induction is on the
fuel; what is being loaded leads to the parts of the name. -/
theorem cycle_of_loadFrom {R : Bytes × Bytes → Prop} (hR : ∀ x y, R x → Follows tree x y → R y)
    (hfuel : Enough tree fuel loading name) (hname : ∀ p ∈ nameParts name, R (dir, p))
    (hloading : ∀ p ∈ nameParts name, ∀ l ∈ loading,
      ∃ d, R (d, l) ∧ TransGen (Follows tree) (d, l) (dir, p))
    (h : loadFrom tree fuel loading dir name = .error e) (hroot : e.root = .cyclic q trail) :
    builtin? q = none ∧ ∃ d d', R (d, q) ∧ TransGen (Follows tree) (d, q) (d', q) := by
  induction fuel generalizing loading dir name e with
  | zero => exact absurd hfuel.pos (Nat.lt_irrefl 0)
  | succ fuel ih =>
    rw [loadFrom_succ] at h
    rcases compose_eq_error (map_eq_error_iff.mp h) with rfl | ⟨part, hpart, hload⟩
    · cases hroot
    rcases loadPart_cyclic hload hroot with
      ⟨rfl, hq, hbuiltin⟩ | ⟨path, text, doc, cause, hfound, hparse, hbase, hload, hroot⟩
    · -- The part has been met before: what led from there to here is the cycle.
      obtain ⟨d, hd, hpath⟩ := hloading q hpart q hq
      exact ⟨hbuiltin, d, dir, hd, hpath⟩
    · -- The report is about the base, to which the part now leads as well.
      have hbelow := follows_of_found? hfound hparse hbase
      refine ih (hfuel.base hpart hfound hparse hbase) ?_ ?_ hload hroot
      · exact fun p hp => hR _ _ (hname part hpart) (hbelow p hp)
      · intro p hp l hl
        rcases mem_append.mp hl with hl | hl
        · obtain ⟨d, hd, hpath⟩ := hloading part hpart l hl
          exact ⟨d, hd, hpath.tail (hbelow p hp)⟩
        · cases mem_singleton.mp hl
          exact ⟨dir, hname part hpart, .single (hbelow p hp)⟩

/-- Loading a library needs no more fuel than it has. It reports a cycle only where a part leads
back to a part of the same name that is not always available, in whichever directory. A part that is
not being loaded is read from its document, if there is one. -/
theorem load_bases (tree : FileTree) (dir name : Bytes) :
    (∀ fuel, depthBound tree ≤ fuel → loadFrom tree fuel [] dir name = load tree dir name) ∧
    (∀ e part trail, load tree dir name = .error e → e.root = .cyclic part trail →
      builtin? part = none ∧ ∃ first ∈ nameParts name, ∃ upper lower,
        ReflTransGen (Follows tree) (dir, first) (upper, part) ∧
        TransGen (Follows tree) (upper, part) (lower, part)) ∧
    ∀ fuel loading path text part, dir ≠ [] → part ∉ loading →
      findDocument? tree dir part extensions = some (path, .ok text) →
      loadPart tree fuel loading dir part = (parseDocument path text).bind fun doc =>
        (doc.layer path (loadFrom tree fuel (loading ++ [part]) (Path.directory path))).map
          (·, false) := by
  refine ⟨fun fuel hfuel => ?_, fun e part trail h hroot => ?_, ?_⟩
  · exact loadFrom_eq_of_enough (enough_depthBound hfuel name)
      (enough_depthBound (Nat.le_refl _) name)
  -- Everything on the way is reached from a part of the name.
  · have hcycle := cycle_of_loadFrom
      (R := fun x => ∃ first ∈ nameParts name, ReflTransGen (Follows tree) (dir, first) x)
      (fun x y ⟨first, hfirst, hreach⟩ hxy => ⟨first, hfirst, hreach.tail hxy⟩)
      (enough_depthBound (Nat.le_refl _) name) (fun p hp => ⟨p, hp, .refl⟩)
      (fun _ _ _ hl => absurd hl not_mem_nil) h hroot
    obtain ⟨hbuiltin, upper, lower, ⟨first, hfirst, hreach⟩, hpath⟩ := hcycle
    exact ⟨hbuiltin, first, hfirst, upper, lower, hreach, hpath⟩
  · intro fuel loading path text part hdir hloading hfind
    have hfound : found? tree loading dir part = some (path, .ok text) := by
      simp [found?, hdir, hloading, hfind]
    simp only [loadPart, hfound]

/-- Two documents that are below each other. -/
def mutualTree : FileTree := [("a.yml", .file "base: b\n"), ("b.yml", .file "base: a\n")]

theorem load_bases_mutual :
    ∃ e trail, load mutualTree "." "a" = .error e ∧ e.root = .cyclic "a" trail ∧
      ∃ upper lower, TransGen (Follows mutualTree) (upper, "a") (lower, "a") := by
  have hload : (failure? (load mutualTree "." "a")).map LoadError.root =
      some (.cyclic "a" ["a", "b", "a"]) := by
    decide +kernel
  obtain ⟨e, he, hroot⟩ := Option.map_eq_some_iff.mp hload
  have he := failure?_eq_some_iff.mp he
  obtain ⟨-, _, -, upper, lower, -, hcycle⟩ := (load_bases mutualTree "." "a").2.1 e _ _ he hroot
  exact ⟨e, _, he, hroot, upper, lower, hcycle⟩

/-- Three documents below each other, two of which have the same name in different directories. -/
def namesakeTree : FileTree :=
  [("a.yml", .file "base: sub/b\n"),
    ("sub", .directory
      [("a.yml", .file "globals:\n  x:\n    any: true\n"), ("b.yml", .file "base: a\n")])]

/-- The segments of these documents, each of which leads to the next one only. -/
def namesakeSegments : List (Bytes × Bytes) := [(".", "a"), (".", "sub/b"), ("sub", "a")]

theorem namesakeSegments_follows {i : Nat} {upper lower : Bytes × Bytes}
    (hupper : namesakeSegments[i]? = some upper) (h : Follows namesakeTree upper lower) :
    namesakeSegments[i + 1]? = some lower := by
  have hbelow : ∀ i < 3, ∀ s ∈ namesakeSegments[i]?, ∀ s' ∈ segmentsBelow namesakeTree s,
      namesakeSegments[i + 1]? = some s' := by
    decide +kernel
  exact hbelow i (List.getElem?_eq_some_iff.mp hupper).1 upper hupper lower h

/-- The document that a segment stands for. -/
def documentPath? (tree : FileTree) (segment : Bytes × Bytes) : Option Bytes :=
  (found? tree [] segment.1 segment.2).map Prod.fst

/-- A cycle is reported although no document is below itself. -/
theorem load_bases_namesake :
    load namesakeTree "." "a" = .error
      (.inBase "a.yml" "sub/b" (.inBase "sub/b.yml" "a" (.cyclic "a" ["a", "sub/b", "a"]))) ∧
    ∀ upper lower, ReflTransGen (Follows namesakeTree) (".", "a") upper →
      TransGen (Follows namesakeTree) upper lower →
      documentPath? namesakeTree upper ≠ documentPath? namesakeTree lower := by
  constructor
  · apply failure?_eq_some_iff.mp
    decide +kernel
  · have hpaths : ∀ i < 3, ∀ j < 3, i < j → ∀ s ∈ namesakeSegments[i]?, ∀ s' ∈ namesakeSegments[j]?,
        documentPath? namesakeTree s ≠ documentPath? namesakeTree s' := by
      decide +kernel
    intro upper lower hupper
    have hi : ∃ i : Nat, namesakeSegments[i]? = some upper := by
      induction hupper with
      | refl => exact ⟨0, rfl⟩
      | tail _ hlast ih =>
        obtain ⟨i, hi⟩ := ih
        exact ⟨i + 1, namesakeSegments_follows hi hlast⟩
    obtain ⟨i, hi⟩ := hi
    intro hlower
    have hj : ∃ j, i < j ∧ namesakeSegments[j]? = some lower := by
      induction hlower with
      | single h => exact ⟨i + 1, i.lt_succ_self, namesakeSegments_follows hi h⟩
      | tail _ hlast ih =>
        obtain ⟨j, hlt, hj⟩ := ih
        exact ⟨j + 1, Nat.lt_succ_of_lt hlt, namesakeSegments_follows hj hlast⟩
    obtain ⟨j, hlt, hj⟩ := hj
    have hj3 : j < 3 := (List.getElem?_eq_some_iff.mp hj).1
    exact hpaths i (Nat.lt_trans hlt hj3) j hj3 hlt upper hi lower hj

end Library

end LuaLint
