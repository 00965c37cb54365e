import Emend.Proofs.Json.Record
import Emend.Wire.Edit

namespace Emend

open Json Json.Value

variable {v : Value} {p : Literal → Bool}

theorem wellFormed_text (t : Text) : (Value.text t).wellFormed p = true := rfl

theorem height_text (t : Text) : (Value.text t).height = 0 := rfl

def Snippet.HasForm (s : Snippet) : Value → Prop :=
  HasMembers (isField ["filepath", "code", "language"])
    [("filepath".toList, .text s.path), ("code".toList, .text s.code),
      ("language".toList, .text s.language)]

namespace Snippet

variable {s : Snippet}

theorem hasForm_toJson (s : Snippet) : s.HasForm s.toJson := hasMembers_record _ _

theorem HasForm.wellFormed (h : s.HasForm v) : v.wellFormed p = true :=
  wellFormed_of_hasMembers h (by simp [wellFormed_text])

theorem ofJson?_of_hasForm (h : s.HasForm v) : Snippet.ofJson? v = some s := by
  obtain ⟨r, hr, -, hfind⟩ :=
    record?_of_hasMembers ["filepath", "code", "language"] h fieldOf_eq_none rfl (by decide)
  rw [ofJson?, hr]
  simp only [Option.bind_eq_bind, Option.bind_some, Record.required_of_find? (hfind "filepath"),
    Record.required_of_find? (hfind "code"), Record.withDefault_of_find? (hfind "language")]
  rfl

end Snippet

def Snapshot.HasForm (f : Snapshot) : Value → Prop :=
  HasMembers (isField ["filepath", "content"])
    [("filepath".toList, .text f.path), ("content".toList, .text f.content)]

namespace Snapshot

variable {f : Snapshot}

theorem hasForm_toJson (f : Snapshot) : f.HasForm f.toJson := hasMembers_record _ _

theorem HasForm.wellFormed (h : f.HasForm v) : v.wellFormed p = true :=
  wellFormed_of_hasMembers h (by simp [wellFormed_text])

theorem ofJson?_of_hasForm (h : f.HasForm v) : Snapshot.ofJson? v = some f := by
  obtain ⟨r, hr, -, hfind⟩ :=
    record?_of_hasMembers ["filepath", "content"] h fieldOf_eq_none rfl (by decide)
  rw [ofJson?, hr]
  simp only [Option.bind_eq_bind, Option.bind_some, Record.required_of_find? (hfind "filepath"),
    Record.required_of_find? (hfind "content")]
  rfl

end Snapshot

def FileSet.HasForm (files : FileSet) : Value → Prop := HasItems Snapshot.HasForm files

namespace FileSet

variable {files : FileSet}

theorem hasForm_toJson (files : FileSet) : files.HasForm files.toJson :=
  hasItems_map Snapshot.hasForm_toJson files

theorem HasForm.wellFormed (h : files.HasForm v) : v.wellFormed p = true :=
  wellFormed_of_hasItems h fun _ _ _ hf => hf.wellFormed

theorem ofJson?_of_hasForm (h : files.HasForm v) : FileSet.ofJson? v = some files := by
  rw [ofJson?, list?_of_hasItems h fun _ _ _ => Snapshot.ofJson?_of_hasForm, List.map_id']

end FileSet

def Change.HasForm (c : Change) : Value → Prop :=
  HasMembers (isField ["filepath", "searchBlock", "replaceBlock"])
    [("filepath".toList, .text c.path), ("searchBlock".toList, .text c.search),
      ("replaceBlock".toList, .text c.replacement)]

namespace Change

variable {c : Change}

theorem hasForm_toJson (c : Change) : c.HasForm c.toJson := hasMembers_record _ _

theorem HasForm.wellFormed (h : c.HasForm v) : v.wellFormed p = true :=
  wellFormed_of_hasMembers h (by simp [wellFormed_text])

theorem HasForm.height_le (h : c.HasForm v) : v.height ≤ 1 :=
  height_le_of_hasMembers h (by simp [height_text])

theorem ofJson?_of_hasForm (h : c.HasForm v) : Change.ofJson? v = some c := by
  obtain ⟨r, hr, -, hfind⟩ := record?_of_hasMembers ["filepath", "searchBlock", "replaceBlock"] h
    fieldOf_eq_none rfl (by decide)
  rw [ofJson?, hr]
  simp only [Option.bind_eq_bind, Option.bind_some, Record.required_of_find? (hfind "filepath"),
    Record.required_of_find? (hfind "searchBlock"),
    Record.required_of_find? (hfind "replaceBlock")]
  rfl

end Change

section

variable {α β : Type} [Numeral α]

/-- If the number has a literal, the literal satisfies the condition. -/
def Written (p : Literal → Bool) (s : α) : Prop := ∀ l, Numeral.literal? s = some l → p l = true

theorem wellFormed_numeral {s : α} (h : Written p s) : (numeral s).wellFormed p = true := by
  rw [numeral]
  split
  · exact h _ ‹_›
  · rfl

theorem height_numeral (s : α) : (numeral s).height = 0 := by
  rw [numeral]
  cases Numeral.literal? s <;> rfl

/-- The number's literal is read as its image. -/
def Reads [Numeral β] (f : α → β) (s : α) : Prop :=
  ∃ l, Numeral.literal? s = some l ∧ Numeral.ofLiteral? l = some (f s)

variable [Numeral β] {f : α → β}

theorem Reads.written {s : α} (h : Reads f s) : Written (inRange β) s := by
  obtain ⟨l, hl, hread⟩ := h
  rintro l' hl'
  obtain rfl : l = l' := Option.some.inj (hl.symm.trans hl')
  rw [inRange, hread]
  rfl

theorem Reads.numeral?_eq {s : α} (h : Reads f s) : numeral? (numeral s) = some (f s) := by
  obtain ⟨l, hl, hread⟩ := h
  rw [numeral, hl]
  exact hread

namespace ReconcileError

def scores : ReconcileError α → List α
  | noMatch _ score _ => [score]
  | missingSearch _ _ => []

def map (f : α → β) : ReconcileError α → ReconcileError β
  | noMatch path score search => .noMatch path (f score) search
  | missingSearch path replacement => .missingSearch path replacement

def HasForm : ReconcileError α → Value → Prop
  | noMatch path score search =>
      HasMembers (isFieldOrTag ["filepath", "best_score", "search_block"] "kind")
        [("kind".toList, .text "noMatch".toList), ("filepath".toList, .text path),
          ("best_score".toList, .numeral score), ("search_block".toList, .text search)]
  | missingSearch path replacement =>
      HasMembers (isFieldOrTag ["filepath", "replace_block"] "kind")
        [("kind".toList, .text "missingSearch".toList), ("filepath".toList, .text path),
          ("replace_block".toList, .text replacement)]

variable {e : ReconcileError α}

theorem hasForm_toJson (e : ReconcileError α) : e.HasForm e.toJson := by
  cases e <;> exact hasMembers_record _ _

theorem HasForm.wellFormed (h : e.HasForm v) (hscores : ∀ s ∈ e.scores, Written p s) :
    v.wellFormed p = true := by
  cases e with
  | noMatch path score search =>
      have hscore := wellFormed_numeral (hscores score (by simp [scores]))
      exact wellFormed_of_hasMembers h (by simp [wellFormed_text, hscore])
  | missingSearch path replacement =>
      exact wellFormed_of_hasMembers h (by simp [wellFormed_text])

theorem HasForm.height_le (h : e.HasForm v) : v.height ≤ 1 := by
  cases e <;> exact height_le_of_hasMembers h (by simp [height_text, height_numeral])

theorem HasForm.untag? (h : e.HasForm v) (hscores : ∀ s ∈ e.scores, Reads f s) :
    ∃ kind v', (∀ {γ : Type} (read : Value → Option γ),
        v.untag? read "kind" = (read (.text kind)).map (·, v')) ∧
      ofFields? kind v' = some (e.map f) := by
  cases e with
  | noMatch path score search =>
      obtain ⟨v', hv', hread⟩ := untag?_of_hasMembers h (by decide) (by simp)
      refine ⟨_, v', hread, ?_⟩
      obtain ⟨r, hr, -, hfind⟩ := record?_of_hasMembers ["filepath", "best_score", "search_block"]
        hv' fieldOf_eq_none_of_tag rfl (by decide)
      have hscore := (hscores score (by simp [scores])).numeral?_eq
      rw [ofFields?, if_pos rfl, hr]
      simp only [Option.bind_eq_bind, Option.bind_some,
        Record.required_of_find? (hfind "filepath"), Record.required_of_find? (hfind "best_score"),
        Record.required_of_find? (hfind "search_block")]
      rw [hscore]
      rfl
  | missingSearch path replacement =>
      obtain ⟨v', hv', hread⟩ := untag?_of_hasMembers h (by decide) (by simp)
      refine ⟨_, v', hread, ?_⟩
      obtain ⟨r, hr, -, hfind⟩ := record?_of_hasMembers ["filepath", "replace_block"]
        hv' fieldOf_eq_none_of_tag rfl (by decide)
      rw [ofFields?, if_neg (by decide), if_pos rfl, hr]
      simp only [Option.bind_eq_bind, Option.bind_some,
        Record.required_of_find? (hfind "filepath"),
        Record.required_of_find? (hfind "replace_block")]
      rfl

theorem ofJson?_of_hasForm (h : e.HasForm v) (hscores : ∀ s ∈ e.scores, Reads f s) {outer : Nat}
    (houter : outer < nestingLimit) : ofJson? outer v = some (e.map f) := by
  obtain ⟨kind, v', huntag, hfields⟩ := h.untag? hscores
  have hinside := h.wellFormed fun s hs => (hscores s hs).written
  have hheight : outer + v.height ≤ nestingLimit := by
    have := h.height_le
    omega
  rw [ofJson?, tagged?_eq "kind" hinside hheight, huntag]
  exact hfields

theorem ofKeptJson?_of_hasForm (h : e.HasForm v) (hscores : ∀ s ∈ e.scores, Reads f s) :
    ofKeptJson? v = some (e.map f) := by
  obtain ⟨kind, v', huntag, hfields⟩ := h.untag? hscores
  rw [ofKeptJson?, huntag]
  exact hfields

end ReconcileError

namespace Reconciliation

def scores (r : Reconciliation α) : List α := r.failures.flatMap ReconcileError.scores

def map (f : α → β) (r : Reconciliation α) : Reconciliation β :=
  ⟨r.changes, r.failures.map (·.map f)⟩

def HasForm (r : Reconciliation α) (v : Value) : Prop :=
  ∃ changes failures, HasItems Change.HasForm r.changes changes ∧
    HasItems ReconcileError.HasForm r.failures failures ∧
    HasMembers (isField ["changes", "failures"])
      [("changes".toList, changes), ("failures".toList, failures)] v

variable {r : Reconciliation α}

theorem hasForm_toJson (r : Reconciliation α) : r.HasForm r.toJson :=
  ⟨_, _, hasItems_map Change.hasForm_toJson _, hasItems_map ReconcileError.hasForm_toJson _,
    hasMembers_record _ _⟩

theorem HasForm.wellFormed (h : r.HasForm v) (hscores : ∀ s ∈ r.scores, Written p s) :
    v.wellFormed p = true := by
  obtain ⟨changes, failures, hchanges, hfailures, hmembers⟩ := h
  have hchanges' : changes.wellFormed p = true :=
    wellFormed_of_hasItems hchanges fun _ _ _ hc => hc.wellFormed
  have hfailures' : failures.wellFormed p = true :=
    wellFormed_of_hasItems hfailures fun e he _ hform =>
      hform.wellFormed fun s hs => hscores s (List.mem_flatMap.2 ⟨e, he, hs⟩)
  exact wellFormed_of_hasMembers hmembers (by simp [hchanges', hfailures'])

theorem ofJson?_of_hasForm (h : r.HasForm v) (hscores : ∀ s ∈ r.scores, Reads f s) {outer : Nat}
    (houter : outer + 2 < nestingLimit) : ofJson? outer v = some (r.map f) := by
  obtain ⟨changes, failures, hchanges, hfailures, hmembers⟩ := h
  obtain ⟨found, hfound, -, hfind⟩ :=
    record?_of_hasMembers ["changes", "failures"] hmembers fieldOf_eq_none rfl (by decide)
  have hchanges' := list?_of_hasItems hchanges fun _ _ _ => Change.ofJson?_of_hasForm
  have hfailures' := list?_of_hasItems hfailures fun e he _ hform =>
    ReconcileError.ofJson?_of_hasForm hform
      (fun s hs => hscores s (List.mem_flatMap.2 ⟨e, he, hs⟩)) houter
  rw [ofJson?, hfound]
  simp only [Option.bind_eq_bind, Option.bind_some, Record.required_of_find? (hfind "changes"),
    Record.required_of_find? (hfind "failures")]
  rw [hchanges', hfailures', List.map_id']
  rfl

end Reconciliation

end

end Emend
