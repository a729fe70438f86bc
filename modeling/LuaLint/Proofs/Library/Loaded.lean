import LuaLint.Proofs.Library.Decoded

/-!
# Loaded libraries

Loading a name composes the libraries of its parts, each of which is a document over its base or
always available. What holds of a loaded library is proved along these lines: of documents, of a
document over a base, of a composition, and so of everything that can be loaded.

Main statements: `Library.loadPart_cases`, `Library.compose_invariant`, `Library.sound_of_loadFrom`.
-/

namespace LuaLint

variable {load : Bytes → Except LoadError (Library × Bool)} {acc acc' : Option (Library × Bool)}

namespace Library

variable {tree : FileTree} {fuel : Nat} {loading : List Bytes} {dir part name : Bytes}
  {lib : Library}

/-! ## Parts -/

/-- What is found in the directory for a part: a document with its path, unless the part is being
loaded already. -/
def found? (tree : FileTree) (loading : List Bytes) (dir part : Bytes) :
    Option (Bytes × Except ReadError Bytes) :=
  if dir.isEmpty || loading.contains part then none else findDocument? tree dir part extensions

/-- The library of one part of a name, and whether it is one that is always available. -/
def loadPart (tree : FileTree) (fuel : Nat) (loading : List Bytes) (dir part : Bytes) :
    Except LoadError (Library × Bool) :=
  match found? tree loading dir part with
  | some (path, .error e) => .error (.unreadable path e)
  | some (path, .ok text) =>
    (parseDocument path text).bind fun lib =>
      (lib.layer path (loadFrom tree fuel (loading ++ [part]) (Path.directory path))).map
        fun lib => (lib, false)
  | none =>
    match builtin? part with
    | some lib => .ok (lib, true)
    | none =>
      if loading.contains part then .error (.cyclic part (loading ++ [part]))
      else .error (.notFound part)

def finished : Option (Library × Bool) → Library
  | none => empty
  | some (lib, true) => lib
  | some (lib, false) => lib.prune

theorem loadFrom_succ : loadFrom tree (fuel + 1) loading dir name =
    (compose name (loadPart tree fuel loading dir) none (nameParts name)).map finished := by
  rfl

theorem layer_eq_ok_iff {doc : Library} {path : Bytes}
    {loadBase : Bytes → Except LoadError Library} : doc.layer path loadBase = .ok lib ↔
      doc.base = [] ∧ lib = doc ∨
      doc.base ≠ [] ∧ ∃ base, loadBase doc.base = .ok base ∧ lib = doc.extend base ∧
        lib.Closed := by
  unfold layer
  split
  · rename_i hbase
    have hbase : doc.base = [] := by simpa using hbase
    simp [hbase, eq_comm]
  · rename_i hbase
    have hbase : doc.base ≠ [] := by simpa using hbase
    constructor
    · intro h
      obtain ⟨base, hload, h⟩ := bind_eq_ok_iff.mp h
      obtain ⟨_, hcheck, h⟩ := bind_eq_ok_iff.mp h
      cases h
      refine .inr ⟨hbase, base, mapError_eq_ok_iff.mp hload, rfl, ?_⟩
      exact (checkStructs_eq_ok_iff path).mp (mapError_eq_ok_iff.mp hcheck)
    · rintro (⟨h, -⟩ | ⟨-, base, hload, rfl, hclosed⟩)
      · exact absurd h hbase
      · apply bind_eq_ok_iff.mpr
        refine ⟨base, mapError_eq_ok_iff.mpr hload, bind_eq_ok_iff.mpr ⟨(), ?_, rfl⟩⟩
        exact mapError_eq_ok_iff.mpr ((checkStructs_eq_ok_iff path).mpr hclosed)

/-- A part stands for a document without a base, for a document over its base, or for a library that
is always available. -/
theorem loadPart_cases {builtin : Bool}
    (h : loadPart tree fuel loading dir part = .ok (lib, builtin)) :
    (∃ path text doc, found? tree loading dir part = some (path, .ok text) ∧
      parseDocument path text = .ok doc ∧ builtin = false ∧
      (doc.base = [] ∧ lib = doc ∨
        doc.base ≠ [] ∧ ∃ base,
          loadFrom tree fuel (loading ++ [part]) (Path.directory path) doc.base = .ok base ∧
            lib = doc.extend base ∧ lib.Closed)) ∨
    found? tree loading dir part = none ∧ builtin? part = some lib ∧ builtin = true := by
  unfold loadPart at h
  split at h
  · cases h
  · rename_i path text hfound
    obtain ⟨doc, hparse, h⟩ := bind_eq_ok_iff.mp h
    obtain ⟨layered, hlayer, heq⟩ := map_eq_ok_iff.mp h
    cases heq
    exact .inl ⟨path, text, doc, hfound, hparse, rfl, layer_eq_ok_iff.mp hlayer⟩
  · rename_i hfound
    split at h
    · rename_i found hbuiltin
      cases h
      exact .inr ⟨hfound, hbuiltin, rfl⟩
    · split at h <;> cases h

/-! ## Compositions -/

/-- What holds of the library of every part and is preserved when such a library is put over what
has been composed holds of the composition. -/
theorem compose_invariant {P : Library × Bool → Prop} {parts : List Bytes}
    (hload : ∀ part ∈ parts, ∀ next, load part = .ok next → P next)
    (hstep : ∀ lib next, P lib → P next → P (next.1.extend lib.1, false))
    (hacc : ∀ lib ∈ acc, P lib) (h : compose name load acc parts = .ok acc') :
    ∀ lib ∈ acc', P lib := by
  induction parts generalizing acc with
  | nil =>
    cases h
    exact hacc
  | cons part rest ih =>
    rw [List.forall_mem_cons] at hload
    unfold compose at h
    split at h
    · cases h
    · obtain ⟨⟨next, builtin⟩, hnext, h⟩ := bind_eq_ok_iff.mp h
      have hP := hload.1 _ hnext
      cases acc with
      | none =>
        apply ih hload.2 _ h
        rintro _ ⟨⟩
        exact hP
      | some lib =>
        apply ih hload.2 _ h
        rintro _ ⟨⟩
        exact hstep lib _ (hacc lib rfl) hP

theorem compose_append {first last : List Bytes}
    (h : compose name load acc (first ++ last) = .ok acc') :
    ∃ mid, compose name load acc first = .ok mid ∧ compose name load mid last = .ok acc' := by
  induction first generalizing acc with
  | nil => exact ⟨acc, rfl, h⟩
  | cons part rest ih =>
    simp only [List.cons_append, compose] at h ⊢
    split at h
    · cases h
    · rename_i hpart
      obtain ⟨⟨next, builtin⟩, hnext, h⟩ := bind_eq_ok_iff.mp h
      simp only [if_neg hpart, hnext]
      cases acc with
      | none => exact ih h
      | some lib => exact ih h

/-! ## Libraries that are always available -/

def builtinDocuments : NameMap Library :=
  [("lua51", Builtin.lua51), ("lua52", Builtin.lua52), ("lua53", Builtin.lua53),
    ("lua54", Builtin.lua54), ("luajit", Builtin.luaJit)]

/-- The library of a name is the document of that name over its base, which is another such
library. -/
inductive Stacked : Bytes → Library → Prop where
  | bottom {name : Bytes} {doc : Library} : builtinDocuments.get? name = some doc → doc.base = [] →
      Stacked name doc.prune
  | stack {name : Bytes} {doc base : Library} : builtinDocuments.get? name = some doc →
    doc.base ≠ [] →
      nameParts doc.base = [doc.base] → Stacked doc.base base → Stacked name (doc.extend base)

theorem stacked_of_builtin? (h : builtin? name = some lib) : Stacked name lib := by
  have h51 : Stacked "lua51" lua51 := .bottom (by rfl) (by rfl)
  have h52 : Stacked "lua52" lua52 := .stack (by rfl) (by decide) (by decide) h51
  have h53 : Stacked "lua53" lua53 := .stack (by rfl) (by decide) (by decide) h52
  have h54 : Stacked "lua54" lua54 := .stack (by rfl) (by decide) (by decide) h53
  have hJit : Stacked "luajit" luaJit := .stack (by rfl) (by decide) (by decide) h51
  have hmem : (name, lib) ∈ builtins := NameMap.mem_of_get? h
  simp only [builtins, List.mem_cons, List.not_mem_nil, or_false, Prod.mk.injEq] at hmem
  rcases hmem with ⟨rfl, rfl⟩ | ⟨rfl, rfl⟩ | ⟨rfl, rfl⟩ | ⟨rfl, rfl⟩ | ⟨rfl, rfl⟩
  · exact h51
  · exact h52
  · exact h53
  · exact h54
  · exact hJit

/-! ## Sound libraries -/

/-- A regular library that has all the shared tables its fields stand for. -/
structure Sound (lib : Library) : Prop where
  regular : lib.Regular
  closed : lib.Closed

theorem sound_empty : empty.Sound := ⟨regular_empty, closed_empty⟩

theorem Sound.extend {base : Library} (h : lib.Sound) (hbase : base.Sound) :
    (lib.extend base).Sound :=
  ⟨h.regular.extend hbase.regular, Closed.extend h.regular hbase.regular h.closed hbase.closed⟩

theorem sound_of_builtinDocuments (h : builtinDocuments.get? name = some lib) : lib.Sound := by
  have hall : ∀ e ∈ builtinDocuments, e.2.Regular ∧ e.2.Closed := by decide +kernel
  obtain ⟨hregular, hclosed⟩ := hall _ (NameMap.mem_of_get? h)
  exact ⟨hregular, hclosed⟩

theorem Stacked.sound (h : Stacked name lib) : lib.Sound ∧ lib.Clean := by
  induction h with
  | bottom hdoc _ =>
    have hsound := sound_of_builtinDocuments hdoc
    exact ⟨hsound.extend sound_empty, clean_extend _ _⟩
  | stack hdoc _ _ _ ih =>
    have hsound := sound_of_builtinDocuments hdoc
    exact ⟨hsound.extend ih.1, clean_extend _ _⟩

/-- What is loaded is sound and free of markers, by induction on the fuel. -/
theorem sound_of_loadFrom (h : loadFrom tree fuel loading dir name = .ok lib) :
    lib.Sound ∧ lib.Clean := by
  induction fuel generalizing loading dir name lib with
  | zero => cases h
  | succ fuel ih =>
    rw [loadFrom_succ] at h
    obtain ⟨composed, hcompose, rfl⟩ := map_eq_ok_iff.mp h
    -- Each part is sound; the markers of a document may outlive it, those of the others do not.
    have hparts : ∀ part ∈ nameParts name, ∀ next, loadPart tree fuel loading dir part = .ok next →
        next.1.Sound ∧ (next.2 = true → next.1.Clean) := by
      rintro part - ⟨next, builtin⟩ hnext
      rcases loadPart_cases hnext with ⟨path, text, doc, -, hparse, rfl, hdoc⟩ | ⟨-, hbuiltin, rfl⟩
      · obtain ⟨hregular, hclosed⟩ := regular_of_parseDocument hparse
        refine ⟨?_, fun h => nomatch h⟩
        rcases hdoc with ⟨hbase, rfl⟩ | ⟨-, base, hbase, rfl, hlayered⟩
        · exact ⟨hregular, hclosed hbase⟩
        · exact ⟨hregular.extend (ih hbase).1.regular, hlayered⟩
      · obtain ⟨hsound, hclean⟩ := (stacked_of_builtin? hbuiltin).sound
        exact ⟨hsound, fun _ => hclean⟩
    have hcomposed : ∀ lib ∈ composed, lib.1.Sound ∧ (lib.2 = true → lib.1.Clean) := by
      apply compose_invariant hparts _ _ hcompose
      · intro lib next hlib hnext
        exact ⟨hnext.1.extend hlib.1, fun h => nomatch h⟩
      · exact fun _ h => nomatch h
    match composed, hcomposed with
    | none, _ => exact ⟨sound_empty, clean_empty⟩
    | some (lib, true), h => exact ⟨(h _ rfl).1, (h _ rfl).2 rfl⟩
    | some (lib, false), h =>
      have hsound := (h _ rfl).1
      exact ⟨hsound.extend sound_empty, clean_extend _ _⟩

end Library

end LuaLint
