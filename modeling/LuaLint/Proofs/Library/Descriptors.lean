import LuaLint.Library.Decode
import LuaLint.Library.Encode

/-!
# Descriptions are read back

The description of a field without its nested fields is decoded to that field again. A document that
has been written out and read in need not be the very tree that was written: lines and the style of
lists may differ. All statements therefore speak of trees that are alike in kinds, tags and values.

Main statements: `Decoder.argument_of_alike`, `Decoder.field_of_descriptor`.
-/

namespace LuaLint

variable {line : Nat} {n : Node} {items : List Node}

namespace Yaml

/-! ## Alike nodes -/

mutual

/-- Two nodes agree in kinds, tags and values. An alias is alike to nothing, since what it stands
for is not part of the node. -/
def Node.Alike : Node → Node → Prop
  | .scalar _ tag value, .scalar _ tag' value' => tag = tag' ∧ value = value'
  | .sequence _ _ items, .sequence _ _ items' => Node.AlikeAll items items'
  | .mapping _ entries, .mapping _ entries' => Node.AlikeEntries entries entries'
  | _, _ => False

def Node.AlikeAll : List Node → List Node → Prop
  | [], [] => True
  | n :: rest, n' :: rest' => n.Alike n' ∧ Node.AlikeAll rest rest'
  | _, _ => False

def Node.AlikeEntries : List (Node × Node) → List (Node × Node) → Prop
  | [], [] => True
  | (k, v) :: rest, (k', v') :: rest' =>
    k.Alike k' ∧ v.Alike v' ∧ Node.AlikeEntries rest rest'
  | _, _ => False

end

namespace Node

mutual

def decAlike : (n n' : Node) → Decidable (n.Alike n')
  | .scalar _ tag value, .scalar _ tag' value' =>
    inferInstanceAs (Decidable (tag = tag' ∧ value = value'))
  | .sequence _ _ items, .sequence _ _ items' => decAlikeAll items items'
  | .mapping _ entries, .mapping _ entries' => decAlikeEntries entries entries'
  | .scalar .., .sequence .. | .scalar .., .mapping .. | .scalar .., .alias .. => isFalse id
  | .sequence .., .scalar .. | .sequence .., .mapping .. | .sequence .., .alias .. => isFalse id
  | .mapping .., .scalar .. | .mapping .., .sequence .. | .mapping .., .alias .. => isFalse id
  | .alias .., .scalar .. | .alias .., .sequence .. => isFalse id
  | .alias .., .mapping .. | .alias .., .alias .. => isFalse id

def decAlikeAll : (items items' : List Node) → Decidable (AlikeAll items items')
  | [], [] => isTrue trivial
  | n :: rest, n' :: rest' =>
    have := decAlike n n'
    have := decAlikeAll rest rest'
    inferInstanceAs (Decidable (n.Alike n' ∧ AlikeAll rest rest'))
  | [], _ :: _ | _ :: _, [] => isFalse id

def decAlikeEntries : (entries entries' : List (Node × Node)) →
    Decidable (AlikeEntries entries entries')
  | [], [] => isTrue trivial
  | (k, v) :: rest, (k', v') :: rest' =>
    have := decAlike k k'
    have := decAlike v v'
    have := decAlikeEntries rest rest'
    inferInstanceAs (Decidable (k.Alike k' ∧ v.Alike v' ∧ AlikeEntries rest rest'))
  | [], _ :: _ | _ :: _, [] => isFalse id

end

instance (n n' : Node) : Decidable (n.Alike n') := decAlike n n'

theorem alike_scalar {tag : Tag} {value : Bytes} (h : (Node.scalar line tag value).Alike n) :
    ∃ line', n = .scalar line' tag value := by
  cases n with
  | scalar line' tag' value' =>
    obtain ⟨rfl, rfl⟩ := h
    exact ⟨line', rfl⟩
  | _ => exact h.elim

theorem alike_sequence {flow : Bool} (h : (Node.sequence line flow items).Alike n) :
    ∃ line' flow' items', n = .sequence line' flow' items' ∧ AlikeAll items items' := by
  cases n with
  | sequence line' flow' items' => exact ⟨line', flow', items', rfl, h⟩
  | _ => exact h.elim

theorem alike_mapping {entries : List (Node × Node)} (h : (Node.mapping line entries).Alike n) :
    ∃ line' entries', n = .mapping line' entries' ∧ AlikeEntries entries entries' := by
  cases n with
  | mapping line' entries' => exact ⟨line', entries', rfl, h⟩
  | _ => exact h.elim

theorem alikeAll_nil (h : AlikeAll [] items) : items = [] := by
  cases items with
  | nil => rfl
  | cons n rest => exact h.elim

theorem alikeAll_cons {rest : List Node} (h : AlikeAll (n :: rest) items) :
    ∃ n' rest', items = n' :: rest' ∧ n.Alike n' ∧ AlikeAll rest rest' := by
  cases items with
  | nil => exact h.elim
  | cons n' rest' => exact ⟨n', rest', rfl, h⟩

theorem alikeEntries_nil {entries : List (Node × Node)} (h : AlikeEntries [] entries) :
    entries = [] := by
  cases entries with
  | nil => rfl
  | cons e rest => exact h.elim

theorem alikeEntries_cons {k v : Node} {rest entries : List (Node × Node)}
    (h : AlikeEntries ((k, v) :: rest) entries) :
    ∃ k' v' rest', entries = (k', v') :: rest' ∧ k.Alike k' ∧ v.Alike v' ∧
      AlikeEntries rest rest' := by
  cases entries with
  | nil => exact h.elim
  | cons e rest' => exact ⟨e.1, e.2, rest', rfl, h⟩

theorem alikeEntries_append {first last entries : List (Node × Node)}
    (h : AlikeEntries (first ++ last) entries) :
    ∃ first' last', entries = first' ++ last' ∧ AlikeEntries first first' ∧
      AlikeEntries last last' := by
  induction first generalizing entries with
  | nil => exact ⟨[], entries, rfl, trivial, h⟩
  | cons e rest ih =>
    obtain ⟨k', v', more, rfl, hk, hv, hmore⟩ := alikeEntries_cons h
    obtain ⟨first', last', rfl, hfirst, hlast⟩ := ih hmore
    exact ⟨(k', v') :: first', last', rfl, ⟨hk, hv, hfirst⟩, hlast⟩

theorem Alike.resolve_eq {n' : Node} (h : n.Alike n') (d : Document) : d.resolve n' = n' := by
  rcases n' with _ | _ | _ | ⟨line, target⟩
  · rfl
  · rfl
  · rfl
  · cases n <;> exact h.elim

theorem alikeAll_self (h : ∀ n ∈ items, n.Alike n) : AlikeAll items items := by
  induction items with
  | nil => trivial
  | cons n rest ih =>
    rw [List.forall_mem_cons] at h
    exact ⟨h.1, ih h.2⟩

theorem alikeEntries_self {entries : List (Node × Node)}
    (h : ∀ e ∈ entries, e.1.Alike e.1 ∧ e.2.Alike e.2) : AlikeEntries entries entries := by
  induction entries with
  | nil => trivial
  | cons e rest ih =>
    rw [List.forall_mem_cons] at h
    exact ⟨h.1.1, h.1.2, ih h.2⟩

@[simp] theorem text_alike_self (value : Bytes) : (Node.text value).Alike (Node.text value) :=
  ⟨rfl, rfl⟩

@[simp] theorem truth_alike_self (value : Bool) : (Node.truth value).Alike (Node.truth value) := by
  cases value <;> exact ⟨rfl, rfl⟩

@[simp] theorem texts_alike_self (values : List Bytes) : (texts values).Alike (texts values) := by
  apply alikeAll_self
  simp

end Node

end Yaml

/-! ## Pairs -/

namespace Decoder

variable {σ : Type} {d : Decoder} {what : Bytes} {f : σ → Bytes → Yaml.Node → Yaml.Node → Result σ}

theorem foldPairs_append {first last : List (Yaml.Node × Yaml.Node)} {a b : σ}
    (h : d.foldPairs what f first a = .ok b) :
    d.foldPairs what f (first ++ last) a = d.foldPairs what f last b := by
  induction first generalizing a with
  | nil =>
    cases h
    rfl
  | cons e rest ih =>
    obtain ⟨k, v⟩ := e
    cases k with
    | scalar line tag key =>
      simp only [foldPairs, List.cons_append] at h ⊢
      cases hstep : f a key (.scalar line tag key) (d.document.resolve v) with
      | error e =>
        rw [hstep] at h
        cases h
      | ok a' =>
        rw [hstep] at h
        exact ih h
    | _ => cases h

/-- Decoding any pairs alike to `entries` leads from `acc` to `acc'`. -/
def Folds (d : Decoder) (what : Bytes) (f : σ → Bytes → Yaml.Node → Yaml.Node → Result σ)
    (entries : List (Yaml.Node × Yaml.Node)) (acc acc' : σ) : Prop :=
  ∀ entries', Yaml.Node.AlikeEntries entries entries' → d.foldPairs what f entries' acc = .ok acc'

namespace Folds

variable {a b c : σ} {key : Bytes} {v : Yaml.Node} {entries more : List (Yaml.Node × Yaml.Node)}

theorem nil : Folds d what f [] a a := by
  intro entries' h
  rw [Yaml.Node.alikeEntries_nil h]
  rfl

theorem cons (hf : ∀ k v', v.Alike v' → f a key k v' = .ok b) (h : Folds d what f entries b c) :
    Folds d what f (Yaml.entry key v :: entries) a c := by
  intro entries' halike
  obtain ⟨k', v', rest', rfl, hk, hv, hrest⟩ := Yaml.Node.alikeEntries_cons halike
  obtain ⟨line, rfl⟩ := Yaml.Node.alike_scalar hk
  simp only [foldPairs, hv.resolve_eq, hf _ v' hv]
  exact h rest' hrest

theorem single (hf : ∀ k v', v.Alike v' → f a key k v' = .ok b) :
    Folds d what f [Yaml.entry key v] a b :=
  cons hf nil

theorem append (h₁ : Folds d what f entries a b) (h₂ : Folds d what f more b c) :
    Folds d what f (entries ++ more) a c := by
  intro entries' halike
  obtain ⟨first', last', rfl, hfirst, hlast⟩ := Yaml.Node.alikeEntries_append halike
  rw [foldPairs_append (h₁ first' hfirst)]
  exact h₂ last' hlast

/-- A mapping is folded up entry by entry. -/
theorem pairs_eq {n : Yaml.Node} (h : Folds d what f entries a b)
    (hn : (Yaml.Node.mapping line entries).Alike n) : d.pairs n what a f = .ok b := by
  obtain ⟨line', entries', rfl, halike⟩ := Yaml.Node.alike_mapping hn
  exact h entries' halike

end Folds

end Decoder

/-! ## Arguments -/

def Requirement.entries : Requirement → List (Yaml.Node × Yaml.Node)
  | .optional => [Yaml.entry "required" (.truth false)]
  | .required reason => if reason.isEmpty then [] else [Yaml.entry "required" (.text reason)]

def ArgType.node : ArgType → Yaml.Node
  | .constant values => Yaml.texts values
  | .display label => .mapping 0 [Yaml.entry "display" (.text label)]
  | t => .text t.label

def Observes.entries : Observes → List (Yaml.Node × Yaml.Node)
  | .readWrite => []
  | o => [Yaml.entry "observes" (.text o.label)]

theorem Argument.node_eq (r : Requirement) (t : ArgType) (o : Observes) : Argument.node ⟨r, t, o⟩ =
      .mapping 0 (r.entries ++ [Yaml.entry "type" t.node] ++ o.entries) := by
  cases r <;> cases t <;> cases o <;> rfl

namespace Decoder

variable {d : Decoder} {n : Yaml.Node}

theorem scalar_of_alike {text : Bytes} (h : (Yaml.Node.text text).Alike n) :
    d.scalar n = .ok text := by
  obtain ⟨line, rfl⟩ := Yaml.Node.alike_scalar h
  rfl

theorem boolean_of_alike {b current : Bool} (h : (Yaml.Node.truth b).Alike n) :
    d.boolean current n = .ok b := by
  cases b <;>
  · obtain ⟨line, rfl⟩ := Yaml.Node.alike_scalar h
    rfl

theorem trueOnly_of_alike {current : Bool} (h : (Yaml.Node.truth true).Alike n) :
    d.trueOnly current n = .ok true := by
  simp [trueOnly, boolean_of_alike h]

theorem strings?_of_alike (doc : Yaml.Document) {texts : List Bytes} {items : List Yaml.Node}
    (h : Yaml.Node.AlikeAll (texts.map .text) items) : doc.strings? items = some texts := by
  induction texts generalizing items with
  | nil =>
    rw [Yaml.Node.alikeAll_nil h]
    rfl
  | cons text rest ih =>
    obtain ⟨n, more, rfl, hn, hmore⟩ := Yaml.Node.alikeAll_cons h
    obtain ⟨line, rfl⟩ := Yaml.Node.alike_scalar hn
    simp [Yaml.Document.strings?, Yaml.Document.stringOf?, Yaml.Document.resolve,
      Yaml.Document.scalarText?, ih hmore]

theorem argumentType_of_alike {t : ArgType} (h : t.node.Alike n) : d.argumentType n = .ok t := by
  cases t with
  | constant values =>
    obtain ⟨line, flow, items, rfl, hitems⟩ := Yaml.Node.alike_sequence h
    simp [argumentType, strings?_of_alike d.document hitems]
  | display label =>
    obtain ⟨line, entries, rfl, hentries⟩ := Yaml.Node.alike_mapping h
    obtain ⟨k, v, rest, rfl, hk, hv, hrest⟩ := Yaml.Node.alikeEntries_cons hentries
    obtain ⟨_, rfl⟩ := Yaml.Node.alike_scalar hk
    obtain ⟨_, rfl⟩ := Yaml.Node.alike_scalar hv
    rw [Yaml.Node.alikeEntries_nil hrest]
    rfl
  | _ =>
    obtain ⟨line, rfl⟩ := Yaml.Node.alike_scalar h
    rfl

theorem observes_of_alike {o : Observes} (h : (Yaml.Node.text o.label).Alike n) :
    d.observes n = .ok o := by
  obtain ⟨line, rfl⟩ := Yaml.Node.alike_scalar h
  cases o <;> rfl

theorem folds_requirement (r : Requirement) (t : Option ArgType) (o : Observes) :
    Folds d "argument" d.argumentKey r.entries ⟨.required [], t, o⟩ ⟨r, t, o⟩ := by
  cases r with
  | optional =>
    refine .single fun k v' hv => ?_
    obtain ⟨line, rfl⟩ := Yaml.Node.alike_scalar hv
    rfl
  | required reason =>
    cases reason with
    | nil => exact .nil
    | cons b rest =>
      refine .single fun k v' hv => ?_
      obtain ⟨line, rfl⟩ := Yaml.Node.alike_scalar hv
      rfl

theorem folds_observes (r : Requirement) (t : Option ArgType) (o : Observes) :
    Folds d "argument" d.argumentKey o.entries ⟨r, t, .readWrite⟩ ⟨r, t, o⟩ := by
  cases o with
  | readWrite => exact .nil
  | _ =>
    refine .single fun k v' hv => ?_
    show (d.observes v').map _ = _
    rw [observes_of_alike hv]
    rfl

/-- A written argument is read back. -/
theorem argument_of_alike {a : Argument} (h : a.node.Alike n) : d.argument n = .ok a := by
  obtain ⟨r, t, o⟩ := a
  have htype : Folds d "argument" d.argumentKey [Yaml.entry "type" t.node]
      ⟨r, none, .readWrite⟩ ⟨r, some t, .readWrite⟩ := by
    refine .single fun k v' hv => ?_
    show (d.argumentType v').map _ = _
    rw [argumentType_of_alike hv]
    rfl
  have hfold := ((folds_requirement r none .readWrite).append htype).append
    (folds_observes r (some t) o)
  rw [Argument.node_eq] at h
  rw [argument, hfold.pairs_eq h]
  rfl

theorem argumentList_of_alike {args : List Argument} {items : List Yaml.Node}
    (h : Yaml.Node.AlikeAll (args.map Argument.node) items) : d.argumentList items = .ok args := by
  induction args generalizing items with
  | nil =>
    rw [Yaml.Node.alikeAll_nil h]
    rfl
  | cons a rest ih =>
    obtain ⟨n, more, rfl, hn, hmore⟩ := Yaml.Node.alikeAll_cons h
    simp only [argumentList, hn.resolve_eq, argument_of_alike hn, ih hmore]
    rfl

/-! ## Fields without their nested fields -/

/-- What is known of a field once the entries about its shape have been read. -/
def FieldDraft.ofShape : FieldShape → FieldDraft
  | .table => .blank
  | .any => { FieldDraft.blank with isAny := true }
  | .removed => { FieldDraft.blank with isRemoved := true }
  | .property w => { FieldDraft.blank with isProperty := true, writability := w }
  | .struct name => { FieldDraft.blank with struct := name }
  | .function f => { FieldDraft.blank with isFunction := true, function := f }

theorem folds_function (f : FunctionShape) :
    Folds d "field" d.fieldKey (FieldShape.function f).entries .blank (.ofShape (.function f)) := by
  obtain ⟨args, method, mustUse⟩ := f
  -- `method: true` makes the field a function before its arguments are met.
  have hmethod : Folds d "field" d.fieldKey
      (if method then [Yaml.entry "method" (.truth true)] else []) .blank
      { FieldDraft.blank with isFunction := method, function := ⟨[], method, false⟩ } := by
    cases method with
    | false => exact .nil
    | true =>
      refine .single fun k v' hv => ?_
      show (d.boolean _ v').map _ = _
      rw [boolean_of_alike hv]
      rfl
  have hmust : Folds d "field" d.fieldKey
      (if mustUse then [Yaml.entry "must_use" (.truth true)] else [])
      { FieldDraft.blank with isFunction := method, function := ⟨[], method, false⟩ }
      { FieldDraft.blank with isFunction := method, function := ⟨[], method, mustUse⟩ } := by
    cases mustUse with
    | false => exact .nil
    | true =>
      refine .single fun k v' hv => ?_
      show (d.boolean _ v').map _ = _
      rw [boolean_of_alike hv]
      rfl
  refine (hmethod.append hmust).append (.single fun k v' hv => ?_)
  obtain ⟨line, flow, items, rfl, hitems⟩ := Yaml.Node.alike_sequence hv
  show (d.argumentList items).map _ = _
  rw [argumentList_of_alike hitems]
  rfl

/-- The entries of a shape are read back as the shape. -/
theorem folds_shape (shape : FieldShape) :
    Folds d "field" d.fieldKey shape.entries .blank (.ofShape shape) := by
  cases shape with
  | table => exact .nil
  | any | removed =>
    refine .single fun k v' hv => ?_
    show (d.trueOnly _ v').map _ = _
    rw [trueOnly_of_alike hv]
    rfl
  | property w =>
    refine .single fun k v' hv => ?_
    obtain ⟨line, rfl⟩ := Yaml.Node.alike_scalar hv
    cases w <;> rfl
  | struct name =>
    refine .single fun k v' hv => ?_
    show (d.scalar v').map _ = _
    rw [scalar_of_alike hv]
    rfl
  | function f => exact folds_function f

theorem deprecation_of_alike {note : Deprecation} (hmessage : note.message ≠ [])
    (h : note.node.Alike n) : d.deprecation n = .ok note := by
  obtain ⟨message, replace⟩ := note
  have hfold : Folds d "deprecated" d.deprecationKey
      (Yaml.entry "message" (.text message) ::
        if replace.isEmpty then [] else [Yaml.entry "replace" (Yaml.texts replace)])
      ⟨[], []⟩ ⟨message, replace⟩ := by
    have hfirst : ∀ k v', (Yaml.Node.text message).Alike v' →
        d.deprecationKey ⟨[], []⟩ "message" k v' = .ok ⟨message, []⟩ := by
      intro k v' hv
      show (d.scalar v').map _ = _
      rw [scalar_of_alike hv]
      rfl
    refine .cons hfirst ?_
    cases replace with
    | nil => exact .nil
    | cons first rest =>
      refine .single fun k v' hv => ?_
      obtain ⟨line, flow, items, rfl, hitems⟩ := Yaml.Node.alike_sequence hv
      simp only [deprecationKey, strings?_of_alike d.document hitems]
      rfl
  obtain ⟨line, entries, rfl, -⟩ := Yaml.Node.alike_mapping h
  simp only [deprecation, hfold.pairs_eq h]
  cases message with
  | nil => exact absurd rfl hmessage
  | cons b rest => rfl

end Decoder

def Field.entries (f : Field) : List (Yaml.Node × Yaml.Node) :=
  f.shape.entries ++ (f.deprecated.toList.map fun d => Yaml.entry "deprecated" d.node) ++
    if f.description.isEmpty then [] else [Yaml.entry "description" (.text f.description)]

theorem Field.descriptor?_eq (f : Field) :
    f.descriptor? = if f.entries.isEmpty then none else some (.mapping 0 f.entries) := rfl

theorem Field.eq_table_of_isEmpty {f : Field} (h : f.entries.isEmpty = true) :
    f = .table f.children := by
  obtain ⟨shape, note, text, children⟩ := f
  rw [List.isEmpty_iff, entries, List.append_eq_nil_iff, List.append_eq_nil_iff] at h
  obtain ⟨⟨hshape, hnote⟩, htext⟩ := h
  have htable : shape = .table := by
    cases shape with
    | table => rfl
    | function f => simp [FieldShape.entries, Field.shape] at hshape
    | _ => cases hshape
  cases note with
  | some d => cases hnote
  | none =>
    cases text with
    | cons b rest => cases htext
    | nil => rw [htable]; rfl

namespace Decoder

variable {d : Decoder} {n : Yaml.Node} {f : Field}

theorem folds_entries (hmessage : ∀ note ∈ f.deprecated, note.message ≠ []) :
    Folds d "field" d.fieldKey f.entries .blank
      { FieldDraft.ofShape f.shape with
        deprecated := f.deprecated, description := f.description } := by
  obtain ⟨shape, deprecated, description, children⟩ := f
  have hdeprecated : Folds d "field" d.fieldKey
      (deprecated.toList.map fun d => Yaml.entry "deprecated" d.node) (.ofShape shape)
      { FieldDraft.ofShape shape with deprecated := deprecated } := by
    cases deprecated with
    | none => cases shape <;> exact .nil
    | some note =>
      refine .single fun k v' hv => ?_
      show (d.deprecation v').map _ = _
      rw [deprecation_of_alike (hmessage note rfl) hv]
      rfl
  refine ((folds_shape shape).append hdeprecated).append ?_
  cases description with
  | nil => cases shape <;> exact .nil
  | cons b rest =>
    refine .single fun k v' hv => ?_
    show (d.scalar v').map _ = _
    rw [scalar_of_alike hv]
    rfl

/-- A written field is read back, without what is in it. -/
theorem field_of_descriptor {described : Yaml.Node} {fuel : Nat}
    (hf : f.descriptor? = some described) (hmessage : ∀ note ∈ f.deprecated, note.message ≠ [])
    (hstruct : f.shape ≠ .struct []) (h : described.Alike n) :
    d.field (fuel + 1) n = .ok (f.withChildren []) := by
  have hfold := folds_entries (d := d) hmessage
  rw [Field.descriptor?_eq] at hf
  by_cases hempty : f.entries.isEmpty = true
  · simp [hempty] at hf
  · rw [if_neg hempty] at hf
    cases hf
    rw [field, fieldBy, hfold.pairs_eq h]
    obtain ⟨shape, deprecated, description, children⟩ := f
    cases shape with
    | any | removed | property w => rfl
    | function f =>
      obtain ⟨args, method, mustUse⟩ := f
      rfl
    | struct name =>
      cases name with
      | nil => exact absurd rfl hstruct
      | cons b rest => rfl
    | table =>
      -- A table about which there is nothing to say has no description at all.
      cases description with
      | cons b rest => rfl
      | nil =>
        cases deprecated with
        | none => exact absurd rfl hempty
        | some note => rfl

end Decoder

end LuaLint
