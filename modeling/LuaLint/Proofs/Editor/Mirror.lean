import Mathlib.Data.List.DropRight
import LuaLint.Editor.Server
import LuaLint.Proofs.Text.Names

/-!
# The store of documents mirrors the editor

A document is what the last message about its text has made of it since it was last closed, and the
other documents stay as they are. A change that carries no text empties its document, so that the
store is in step with an editor that sends no such change.

Main statements: `Session.documents_handle`, `Session.documents_after`, `Session.documents_mirror`.
-/

namespace LuaLint

open List DocumentStore

/-! ## What messages say about a document -/

namespace EditorMessage

/-- The texts that a message carries for a document, by opening it or by changes of its content. -/
def carried (uri : Bytes) : EditorMessage → List Bytes
  | .didOpen u text => if u = uri then [text] else []
  | .didChange u texts => if u = uri then texts else []
  | _ => []

/-- The text that a message leaves in a document, if it opens or changes it. -/
def text? (uri : Bytes) : EditorMessage → Option Bytes
  | .didOpen u text => if u = uri then some text else none
  | .didChange u texts => if u = uri then some (texts.getLastD []) else none
  | _ => none

/-- The message opens, changes or closes a document. -/
def Notifies (uri : Bytes) : EditorMessage → Prop
  | .didOpen u _ | .didChange u _ | .didClose u => u = uri
  | _ => False

/-- The messages since a document was last closed. -/
def sinceClosed (uri : Bytes) (ms : List EditorMessage) : List EditorMessage :=
  ms.rtakeWhile (· != .didClose uri)

/-- The message by which a document got its text. -/
def latest? (uri : Bytes) (ms : List EditorMessage) : Option EditorMessage :=
  ((sinceClosed uri ms).filter fun m => (m.text? uri).isSome).getLast?

theorem carried_of_text?_eq_none {uri : Bytes} {m : EditorMessage} (h : m.text? uri = none) :
    m.carried uri = [] := by
  cases m with
  | didOpen u | didChange u =>
    simp only [text?, ite_eq_right_iff, reduceCtorEq, imp_false] at h
    exact if_neg h
  | _ => rfl

theorem getLast?_carried {uri text : Bytes} {m : EditorMessage} (h : m.text? uri = some text)
    (hne : m ≠ .didChange uri []) : (m.carried uri).getLast? = some text := by
  cases m with
  | didOpen u =>
    obtain ⟨rfl, htext⟩ := Option.ite_none_right_eq_some.mp h
    simpa [carried] using htext
  | didChange u texts =>
    obtain ⟨rfl, htext⟩ := Option.ite_none_right_eq_some.mp h
    have htexts : texts ≠ [] := fun hnil => hne (by rw [hnil])
    simpa [carried, getLast?_eq_some_getLast htexts, getLastD_eq_getLast?] using htext
  | _ => cases h

theorem getLast?_filterMap_text? {uri : Bytes} {ms : List EditorMessage}
    (h : (ms.filter fun m => (m.text? uri).isSome).getLast? ≠ some (.didChange uri [])) :
    (ms.filterMap (text? uri)).getLast? = (ms.flatMap (carried uri)).getLast? := by
  induction ms using reverseRecOn with
  | nil => rfl
  | append_singleton ms m ih =>
    cases hm : m.text? uri with
    | none => simp_all [carried_of_text?_eq_none hm]
    | some text => simp_all [getLast?_carried hm]

theorem sinceClosed_append (uri : Bytes) (ms : List EditorMessage) (m : EditorMessage) :
    sinceClosed uri (ms ++ [m]) = if m = .didClose uri then [] else sinceClosed uri ms ++ [m] := by
  simp [sinceClosed, rtakeWhile_concat]

end EditorMessage

/-! ## Sessions -/

namespace Session

open EditorMessage

variable {l : Linter}

/-- The session after some messages. -/
def after (l : Linter) (ms : List EditorMessage) : Session :=
  ms.foldl (fun s m => (s.handle l m).1) start

theorem after_append (ms : List EditorMessage) (m : EditorMessage) :
    after l (ms ++ [m]) = ((after l ms).handle l m).1 := by
  simp [after]

/-- What a message does to a document. -/
theorem documents_handle (s : Session) (m : EditorMessage) (uri : Bytes) :
    (s.handle l m).1.documents.get? uri = if m = .didClose uri then none
      else ((m.text? uri).map Document.ofContent).or (s.documents.get? uri) := by
  cases m with
  | didOpen u text =>
    by_cases hu : u = uri
    · simp [handle, put, text?, hu]
    · simp [handle, put, text?, hu, NameMap.get?_insert_of_ne (Ne.symm hu)]
  | didChange u texts =>
    by_cases hu : u = uri
    · simp [handle, cancel, change, put, text?, hu]
    · simp [handle, cancel, change, put, text?, hu,
        NameMap.get?_insert_of_ne (Ne.symm hu)]
  | didClose u =>
    by_cases hu : u = uri
    · simp [handle, cancel, close, NameMap.get?_erase, hu]
    · simp [handle, cancel, close, NameMap.get?_erase, text?, hu, Ne.symm hu]
  | rename u p newName =>
    cases hrename : s.rename u p newName <;> simp [handle, hrename, text?]
  | _ => simp [handle, cancel, text?]

theorem documents_handle_of_ne (s : Session) {m : EditorMessage} {uri other : Bytes}
    (hm : m.Notifies uri) (hne : other ≠ uri) :
    (s.handle l m).1.documents.get? other = s.documents.get? other := by
  rw [documents_handle]
  cases m with
  | didOpen u | didChange u | didClose u =>
    obtain rfl : u = uri := hm
    simp [text?, Ne.symm hne]
  | _ => cases hm

/-- A document after some messages is made of the last text since it was closed. -/
theorem documents_after (ms : List EditorMessage) (uri : Bytes) : (after l ms).documents.get? uri =
      (((sinceClosed uri ms).filterMap (text? uri)).getLast?).map Document.ofContent := by
  induction ms using reverseRecOn with
  | nil => rfl
  | append_singleton ms m ih =>
    rw [after_append, documents_handle, ih, sinceClosed_append]
    by_cases hclose : m = .didClose uri
    · simp [hclose]
    · rw [if_neg hclose, if_neg hclose, filterMap_append, getLast?_append]
      cases hm : m.text? uri <;> simp [hm]

/-- The store of documents after any messages. The content of a document is the text left by the
last message since it was closed that opens or changes it. This is the last text that messages carry
for it, unless that message is a change that carries none. The graph belongs to the content and is
missing just when the content does not parse. A message about one document leaves all others as they
are. -/
theorem documents_mirror (l : Linter) (ms : List EditorMessage) (uri : Bytes) :
    ((after l ms).documents.get? uri).map Document.content =
      ((sinceClosed uri ms).filterMap (text? uri)).getLast? ∧
    (latest? uri ms ≠ some (.didChange uri []) →
      ((after l ms).documents.get? uri).map Document.content =
        ((sinceClosed uri ms).flatMap (carried uri)).getLast?) ∧
    (∀ d ∈ (after l ms).documents.get? uri,
      d.graph = (Parser.parse d.content).toOption.map Chunk.resolve ∧
      (d.graph = none ↔ ∃ e, Parser.parse d.content = .error e)) ∧
    ∀ m other, m.Notifies uri → other ≠ uri →
      (after l (ms ++ [m])).documents.get? other = (after l ms).documents.get? other := by
  have hcontent : ((after l ms).documents.get? uri).map Document.content =
      ((sinceClosed uri ms).filterMap (text? uri)).getLast? := by
    rw [documents_after, Option.map_map]
    exact Option.map_id'
  refine ⟨hcontent, fun hms => hcontent.trans (getLast?_filterMap_text? hms), fun d hd => ?_, ?_⟩
  · rw [documents_after, Option.mem_def, Option.map_eq_some_iff] at hd
    obtain ⟨text, -, rfl⟩ := hd
    refine ⟨rfl, ?_⟩
    cases hparse : Parser.parse text <;> simp [Document.ofContent, hparse, Except.toOption]
  · intro m other hm hne
    rw [after_append, documents_handle_of_ne _ hm hne]

/-- The first document is closed, and opened again by its last change; the second one is emptied by
a change without text, and mended by the next one. -/
theorem documents_mirror_reopened :
    let l : Linter := ⟨⟨fun _ => .error, .default⟩, default, none⟩
    let ms : List EditorMessage := [.didOpen "a" "x = 1", .didOpen "b" "y", .didChange "b" [],
      .didClose "a", .didChange "b" ["z", "y = 2"], .didChange "a" ["x ="]]
    latest? "b" ms = some (.didChange "b" ["z", "y = 2"]) ∧
      ((after l ms).documents.get? "a").map Document.content = some (Bytes.ofString "x =") ∧
      ((after l ms).documents.get? "b").map Document.content = some (Bytes.ofString "y = 2") ∧
      (after l (ms ++ [.didClose "b"])).documents.get? "a" = (after l ms).documents.get? "a" := by
  intro l ms
  have hlatest : latest? "b" ms = some (.didChange "b" ["z", "y = 2"]) := by decide
  refine ⟨hlatest, (documents_mirror l ms "a").1.trans (by decide), ?_, ?_⟩
  · exact ((documents_mirror l ms "b").2.1 (by rw [hlatest]; decide)).trans (by decide)
  · exact (documents_mirror l ms "b").2.2.2 _ "a" rfl (by decide)

/-- The last text that was carried is not what is stored, behind a change without text. -/
theorem documents_mirror_emptied :
    let l : Linter := ⟨⟨fun _ => .error, .default⟩, default, none⟩
    let ms : List EditorMessage := [.didOpen "a" "local x = 1", .didChange "a" []]
    ((sinceClosed "a" ms).flatMap (carried "a")).getLast? = some (Bytes.ofString "local x = 1") ∧
      ((after l ms).documents.get? "a").map Document.content = some [] := by
  decide

end Session

end LuaLint
