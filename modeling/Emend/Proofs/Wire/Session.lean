import Emend.Proofs.Decimal.Literal
import Emend.Proofs.Wire.Edit
import Emend.Wire.Session

namespace Emend

open Json Json.Value

variable {v : Value} {p : Literal → Bool}

theorem word?_nat {n : Nat} (h : n < word) : word? (.nat n) = some n := Literal.natBelow?_ofNat h

theorem height_nat (n : Nat) : (Value.nat n).height = 0 := rfl

theorem hasItems_text (ts : List Text) :
    HasItems (fun t v => v = .text t) ts (.array (ts.map Value.text)) := by
  apply hasItems_map
  intro t
  rfl

theorem list?_text (ts : List Text) : list? text? (.array (ts.map Value.text)) = some ts := by
  rw [list?_of_hasItems (hasItems_text ts) fun t _ v hv => by rw [hv]; rfl, List.map_id']

theorem wellFormed_texts (ts : List Text) :
    (Value.array (ts.map Value.text)).wellFormed p = true :=
  wellFormed_of_hasItems (hasItems_text ts) fun t _ v hv => by rw [hv]; rfl

theorem height_texts (ts : List Text) : (Value.array (ts.map Value.text)).height ≤ 1 :=
  height_le_of_hasItems (hasItems_text ts) fun t _ v hv => by rw [hv]; rfl

namespace Plan

variable {q : Plan}

def keys : List String := ["editInstructions", "edit_instructions"]

def members (q : Plan) (key : String) : List (Text × Value) :=
  [("message".toList, .text q.message), (key.toList, .array (q.instructions.map Value.text))]

def HasForm (q : Plan) (v : Value) : Prop :=
  ∃ key ∈ keys, HasMembers (isField fields) (q.members key) v

theorem hasForm_toJson (q : Plan) : q.HasForm q.toJson :=
  ⟨"editInstructions", by simp [keys], hasMembers_record _ _⟩

theorem wellFormed_members (q : Plan) (key : String) :
    ∀ m ∈ q.members key, m.2.wellFormed p = true := by
  simp [members, wellFormed_text, wellFormed_texts]

theorem HasForm.wellFormed (h : q.HasForm v) : v.wellFormed p = true := by
  obtain ⟨key, -, hmembers⟩ := h
  exact wellFormed_of_hasMembers hmembers (q.wellFormed_members key)

theorem ofJson?_of_hasMembers {known : Text → Bool} {key : String} (hkey : key ∈ keys)
    (h : HasMembers known (q.members key) v)
    (hknown : ∀ {k}, known k = false → fieldOf fields k = none) : Plan.ofJson? v = some q := by
  have hfound : ∃ r, v.record? fields = some r ∧ r.find? "message" = some (.text q.message) ∧
      r.find? "editInstructions" = some (.array (q.instructions.map Value.text)) := by
    simp only [keys, List.mem_cons, List.not_mem_nil, or_false] at hkey
    rcases hkey with rfl | rfl
    · obtain ⟨r, hr, -, hfind⟩ :=
        record?_of_hasMembers ["message", "editInstructions"] h hknown rfl (by decide)
      exact ⟨r, hr, hfind _, hfind _⟩
    · obtain ⟨r, hr, -, hfind⟩ :=
        record?_of_hasMembers ["message", "edit_instructions"] h hknown rfl (by decide)
      exact ⟨r, hr, hfind _, hfind _⟩
  obtain ⟨r, hr, hmessage, hinstructions⟩ := hfound
  rw [ofJson?, hr]
  simp only [Option.bind_eq_bind, Option.bind_some, Record.withDefault_of_find? hmessage,
    Record.withDefault_of_find? hinstructions, list?_text]
  rfl

theorem ofJson?_of_hasForm (h : q.HasForm v) : Plan.ofJson? v = some q := by
  obtain ⟨key, hkey, hmembers⟩ := h
  exact ofJson?_of_hasMembers hkey hmembers fieldOf_eq_none

end Plan

namespace EditRequest

variable {q : EditRequest}

def HasForm (q : EditRequest) (v : Value) : Prop :=
  ∃ snippets, HasItems Snippet.HasForm q.snippets snippets ∧
    HasMembers (isField ["snippets", "request"])
      [("snippets".toList, snippets), ("request".toList, .text q.request)] v

theorem hasForm_toJson (q : EditRequest) : q.HasForm q.toJson :=
  ⟨_, hasItems_map Snippet.hasForm_toJson _, hasMembers_record _ _⟩

theorem HasForm.wellFormed (h : q.HasForm v) : v.wellFormed p = true := by
  obtain ⟨snippets, hsnippets, hmembers⟩ := h
  have hinside : snippets.wellFormed p = true :=
    wellFormed_of_hasItems hsnippets fun _ _ _ hs => hs.wellFormed
  exact wellFormed_of_hasMembers hmembers (by simp [hinside, wellFormed_text])

theorem ofJson?_of_hasForm (h : q.HasForm v) : EditRequest.ofJson? v = some q := by
  obtain ⟨snippets, hsnippets, hmembers⟩ := h
  obtain ⟨r, hr, -, hfind⟩ :=
    record?_of_hasMembers ["snippets", "request"] hmembers fieldOf_eq_none rfl (by decide)
  have hread := list?_of_hasItems hsnippets fun _ _ _ => Snippet.ofJson?_of_hasForm
  rw [ofJson?, hr]
  simp only [Option.bind_eq_bind, Option.bind_some, Record.withDefault_of_find? (hfind "snippets"),
    Record.withDefault_of_find? (hfind "request")]
  rw [hread, List.map_id']
  rfl

end EditRequest

section

variable {α β : Type} [Numeral α] [Numeral β] {f : α → β}

namespace StreamMessage

def indexes : StreamMessage α → List Nat
  | progress index _ => [index]
  | plan _ => []
  | change index _ => [index]
  | error index _ _ => index.toList

def scores : StreamMessage α → List α
  | error _ _ (some e) => e.scores
  | _ => []

def map (f : α → β) : StreamMessage α → StreamMessage β
  | progress index text => .progress index text
  | plan q => .plan q
  | change index changes => .change index changes
  | error index message detail => .error index message (detail.map (·.map f))

def IsTagged (fields : List Field) (kind : String) (own : List (Text × Value)) : Value → Prop :=
  HasMembers (isFieldOrTag fields "type") (("type".toList, .text kind.toList) :: own)

def HasForm : StreamMessage α → Value → Prop
  | progress index text, v =>
      IsTagged ["index", "text"] "progress"
        [("index".toList, .nat index), ("text".toList, .text text)] v
  | plan q, v => ∃ key ∈ Plan.keys, IsTagged Plan.fields "plan" (q.members key) v
  | change index changes, v => ∃ items, HasItems Change.HasForm changes items ∧
      IsTagged ["index", "changes"] "change"
        [("index".toList, .nat index), ("changes".toList, items)] v
  | error index message none, v =>
      IsTagged ["index", "message", "detail"] "error"
        [("index".toList, orNull .nat index), ("message".toList, .text message)] v
  | error index message (some e), v => ∃ detail, e.HasForm detail ∧
      IsTagged ["index", "message", "detail"] "error"
        [("index".toList, orNull .nat index), ("message".toList, .text message),
          ("detail".toList, detail)] v

variable {m : StreamMessage α}

theorem hasForm_toJson (m : StreamMessage α) : m.HasForm m.toJson := by
  cases m with
  | progress index text => exact hasMembers_record _ _
  | plan q => exact ⟨"editInstructions", by simp [Plan.keys], hasMembers_record _ _⟩
  | change index changes =>
      exact ⟨_, hasItems_map Change.hasForm_toJson _, hasMembers_record _ _⟩
  | error index message detail =>
      cases detail with
      | none => exact hasMembers_record _ _
      | some e => exact ⟨_, e.hasForm_toJson, hasMembers_record _ _⟩

theorem IsTagged.untag?_eq {fields : List Field} {kind : String} {own : List (Text × Value)}
    (h : IsTagged fields kind own v) (hown : ∀ m ∈ own, m.1 ≠ "type".toList) :
    ∃ v', HasMembers (isFieldOrTag fields "type") own v' ∧
      v.untag? text? "type" = some (kind.toList, v') := by
  obtain ⟨v', hv', hread⟩ := untag?_of_hasMembers h (by simp [isFieldOrTag]) hown
  exact ⟨v', hv', hread text?⟩

theorem HasForm.wellFormed (h : m.HasForm v) (hindexes : ∀ i ∈ m.indexes, p (.ofNat i) = true)
    (hscores : ∀ s ∈ m.scores, Written p s) : v.wellFormed p = true := by
  have hnat {i : Nat} (hi : i ∈ m.indexes) : (Value.nat i).wellFormed p = true := hindexes i hi
  cases m with
  | progress index text =>
      have hindex := hnat (i := index) (by simp [indexes])
      exact wellFormed_of_hasMembers h (by simp [wellFormed_text, hindex])
  | plan q =>
      obtain ⟨key, -, hmembers⟩ := h
      apply wellFormed_of_hasMembers hmembers
      rw [List.forall_mem_cons]
      exact ⟨rfl, q.wellFormed_members key⟩
  | change index changes =>
      obtain ⟨items, hitems, hmembers⟩ := h
      have hindex := hnat (i := index) (by simp [indexes])
      have hinside : items.wellFormed p = true :=
        wellFormed_of_hasItems hitems fun _ _ _ hc => hc.wellFormed
      exact wellFormed_of_hasMembers hmembers (by simp [wellFormed_text, hindex, hinside])
  | error index message detail =>
      have hindex : (orNull Value.nat index).wellFormed p = true := by
        cases index with
        | none => rfl
        | some i => exact hnat (by simp [indexes])
      cases detail with
      | none => exact wellFormed_of_hasMembers h (by simp [wellFormed_text, hindex])
      | some e =>
          obtain ⟨detail, hdetail, hmembers⟩ := h
          have hinside : detail.wellFormed p = true := hdetail.wellFormed hscores
          exact wellFormed_of_hasMembers hmembers (by simp [wellFormed_text, hindex, hinside])

theorem HasForm.height_le (h : m.HasForm v) : v.height ≤ 3 := by
  cases m with
  | progress index text => exact height_le_of_hasMembers h (by simp [height_text, height_nat])
  | plan q =>
      obtain ⟨key, -, hmembers⟩ := h
      have hinside := Nat.le_succ_of_le (height_texts q.instructions)
      exact height_le_of_hasMembers hmembers (by simp [Plan.members, height_text, hinside])
  | change index changes =>
      obtain ⟨items, hitems, hmembers⟩ := h
      have hinside : items.height ≤ 2 := height_le_of_hasItems hitems fun _ _ _ hc => hc.height_le
      exact height_le_of_hasMembers hmembers (by simp [height_text, height_nat, hinside])
  | error index message detail =>
      have hindex : (orNull Value.nat index).height = 0 := by cases index <;> rfl
      cases detail with
      | none => exact height_le_of_hasMembers h (by simp [height_text, hindex])
      | some e =>
          obtain ⟨detail, hdetail, hmembers⟩ := h
          have hinside : detail.height ≤ 2 := Nat.le_succ_of_le hdetail.height_le
          exact height_le_of_hasMembers hmembers (by simp [height_text, hindex, hinside])

theorem ofFields?_progress {index : Nat} {text : Text}
    (h : HasMembers (isFieldOrTag ["index", "text"] "type")
      [("index".toList, .nat index), ("text".toList, .text text)] v) (hindex : index < word) :
    ofFields? "progress".toList v = some (.progress index text : StreamMessage β) := by
  obtain ⟨r, hr, -, hfind⟩ :=
    record?_of_hasMembers ["index", "text"] h fieldOf_eq_none_of_tag rfl (by decide)
  rw [ofFields?, if_pos rfl, hr]
  simp only [Option.bind_eq_bind, Option.bind_some, Record.required_of_find? (hfind "index"),
    Record.required_of_find? (hfind "text")]
  rw [word?_nat hindex]
  rfl

theorem ofFields?_plan {q : Plan} {key : String} (hkey : key ∈ Plan.keys)
    (h : HasMembers (isFieldOrTag Plan.fields "type") (q.members key) v) :
    ofFields? "plan".toList v = some (.plan q : StreamMessage β) := by
  rw [ofFields?, if_neg (by decide), if_pos rfl,
    Plan.ofJson?_of_hasMembers hkey h fieldOf_eq_none_of_tag]
  rfl

theorem ofFields?_change {index : Nat} {changes : List Change} {items : Value}
    (h : HasMembers (isFieldOrTag ["index", "changes"] "type")
      [("index".toList, .nat index), ("changes".toList, items)] v) (hindex : index < word)
    (hitems : HasItems Change.HasForm changes items) :
    ofFields? "change".toList v = some (.change index changes : StreamMessage β) := by
  obtain ⟨r, hr, -, hfind⟩ :=
    record?_of_hasMembers ["index", "changes"] h fieldOf_eq_none_of_tag rfl (by decide)
  have hread := list?_of_hasItems hitems fun _ _ _ => Change.ofJson?_of_hasForm
  rw [ofFields?, if_neg (by decide), if_neg (by decide), if_pos rfl, hr]
  simp only [Option.bind_eq_bind, Option.bind_some, Record.required_of_find? (hfind "index"),
    Record.required_of_find? (hfind "changes")]
  rw [word?_nat hindex, hread, List.map_id']
  rfl

theorem word?_of_orNull {index : Option Nat} (h : ∀ i ∈ index, i < word) :
    ∀ i, index = some i → Value.nat i ≠ .null ∧ word? (.nat i) = some i := by
  rintro i rfl
  exact ⟨by simp [Value.nat], word?_nat (h i rfl)⟩

theorem ofFields?_error {index : Option Nat} {message : Text}
    (h : HasMembers (isFieldOrTag ["index", "message", "detail"] "type")
      [("index".toList, orNull .nat index), ("message".toList, .text message)] v)
    (hindex : ∀ i ∈ index, i < word) :
    ofFields? "error".toList v = some (.error index message none : StreamMessage β) := by
  obtain ⟨r, hr, hkeyed, hfind⟩ :=
    record?_of_hasMembers ["index", "message"] h fieldOf_eq_none_of_tag rfl (by decide)
  rw [ofFields?, if_neg (by decide), if_neg (by decide), if_neg (by decide), if_pos rfl, hr]
  simp only [Option.bind_eq_bind, Option.bind_some,
    Record.optional_of_orNull (hfind "index") (word?_of_orNull hindex),
    Record.required_of_find? (hfind "message"),
    Record.optional_of_find?_eq_none (hfind "detail") hkeyed]
  rfl

theorem ofFields?_error_detail {index : Option Nat} {message : Text} {e : ReconcileError α}
    {detail : Value} (h : HasMembers (isFieldOrTag ["index", "message", "detail"] "type")
      [("index".toList, orNull .nat index), ("message".toList, .text message),
        ("detail".toList, detail)] v) (hindex : ∀ i ∈ index, i < word)
    (hdetail : e.HasForm detail) (hscores : ∀ s ∈ e.scores, Reads f s) :
    ofFields? "error".toList v = some (.error index message (some (e.map f))) := by
  obtain ⟨r, hr, -, hfind⟩ :=
    record?_of_hasMembers ["index", "message", "detail"] h fieldOf_eq_none_of_tag rfl (by decide)
  have hread := ReconcileError.ofKeptJson?_of_hasForm hdetail hscores
  have hne : detail ≠ .null := by
    rintro rfl
    cases hread
  rw [ofFields?, if_neg (by decide), if_neg (by decide), if_neg (by decide), if_pos rfl, hr]
  simp only [Option.bind_eq_bind, Option.bind_some,
    Record.optional_of_orNull (hfind "index") (word?_of_orNull hindex),
    Record.required_of_find? (hfind "message"), Record.optional_of_find? (hfind "detail") hne]
  rw [hread]
  rfl

theorem HasForm.untag? (h : m.HasForm v) (hindexes : ∀ i ∈ m.indexes, i < word)
    (hscores : ∀ s ∈ m.scores, Reads f s) :
    ∃ kind v', v.untag? text? "type" = some (kind, v') ∧ ofFields? kind v' = some (m.map f) := by
  cases m with
  | progress index text =>
      obtain ⟨v', hv', huntag⟩ := IsTagged.untag?_eq h (by simp)
      exact ⟨_, v', huntag, ofFields?_progress hv' (hindexes index (by simp [indexes]))⟩
  | plan q =>
      obtain ⟨key, hkey, hmembers⟩ := h
      obtain ⟨v', hv', huntag⟩ := hmembers.untag?_eq (by
        simp only [Plan.keys, List.mem_cons, List.not_mem_nil, or_false] at hkey
        rcases hkey with rfl | rfl <;> simp [Plan.members])
      exact ⟨_, v', huntag, ofFields?_plan hkey hv'⟩
  | change index changes =>
      obtain ⟨items, hitems, hmembers⟩ := h
      obtain ⟨v', hv', huntag⟩ := hmembers.untag?_eq (by simp)
      exact ⟨_, v', huntag, ofFields?_change hv' (hindexes index (by simp [indexes])) hitems⟩
  | error index message detail =>
      have hindex : ∀ i ∈ index, i < word := fun i hi =>
        hindexes i (by simpa [indexes] using hi)
      cases detail with
      | none =>
          obtain ⟨v', hv', huntag⟩ := IsTagged.untag?_eq h (by simp)
          exact ⟨_, v', huntag, ofFields?_error hv' hindex⟩
      | some e =>
          obtain ⟨detail, hdetail, hmembers⟩ := h
          obtain ⟨v', hv', huntag⟩ := hmembers.untag?_eq (by simp)
          exact ⟨_, v', huntag, ofFields?_error_detail hv' hindex hdetail hscores⟩

theorem ofJson?_of_hasForm (h : m.HasForm v)
    (hindexes : ∀ i ∈ m.indexes, i < word ∧ inRange β (.ofNat i) = true)
    (hscores : ∀ s ∈ m.scores, Reads f s) : ofJson? v = some (m.map f) := by
  obtain ⟨kind, v', huntag, hfields⟩ := h.untag? (fun i hi => (hindexes i hi).1) hscores
  have hinside := h.wellFormed (fun i hi => (hindexes i hi).2) fun s hs => (hscores s hs).written
  have hheight : 0 + v.height ≤ nestingLimit := by
    have hthree := h.height_le
    rw [nestingLimit]
    omega
  rw [ofJson?, tagged?_eq "type" hinside hheight, huntag]
  exact hfields

end StreamMessage

namespace InstructionResult

def scores (r : InstructionResult α) : List α := r.reconciliation.scores

def map (f : α → β) (r : InstructionResult α) : InstructionResult β :=
  ⟨r.index, r.instruction, r.reconciliation.map f, r.error⟩

def HasForm (r : InstructionResult α) (v : Value) : Prop :=
  ∃ reconciliation, r.reconciliation.HasForm reconciliation ∧
    HasMembers (isField ["index", "instruction", "reconciliation", "error"])
      [("index".toList, .nat r.index), ("instruction".toList, .text r.instruction),
        ("reconciliation".toList, reconciliation), ("error".toList, orNull .text r.error)] v

variable {r : InstructionResult α}

theorem hasForm_toJson (r : InstructionResult α) : r.HasForm r.toJson :=
  ⟨_, r.reconciliation.hasForm_toJson, hasMembers_record _ _⟩

theorem HasForm.wellFormed (h : r.HasForm v) (hindex : p (.ofNat r.index) = true)
    (hscores : ∀ s ∈ r.scores, Written p s) : v.wellFormed p = true := by
  obtain ⟨reconciliation, hreconciliation, hmembers⟩ := h
  have hnat : (Value.nat r.index).wellFormed p = true := hindex
  have hinside : reconciliation.wellFormed p = true := hreconciliation.wellFormed hscores
  have herror : (orNull Value.text r.error).wellFormed p = true := by cases r.error <;> rfl
  exact wellFormed_of_hasMembers hmembers (by simp [hnat, wellFormed_text, hinside, herror])

theorem ofJson?_of_hasForm (h : r.HasForm v) (hindex : r.index < word)
    (hscores : ∀ s ∈ r.scores, Reads f s) : ofJson? v = some (r.map f) := by
  obtain ⟨reconciliation, hreconciliation, hmembers⟩ := h
  obtain ⟨found, hfound, -, hfind⟩ := record?_of_hasMembers
    ["index", "instruction", "reconciliation", "error"] hmembers fieldOf_eq_none rfl (by decide)
  have hread : Reconciliation.ofJson? 1 reconciliation = some (r.reconciliation.map f) :=
    Reconciliation.ofJson?_of_hasForm hreconciliation hscores (by decide)
  have herror : ∀ t, r.error = some t → Value.text t ≠ .null ∧ text? (.text t) = some t :=
    fun t _ => ⟨by simp [Value.text], rfl⟩
  rw [ofJson?, hfound]
  simp only [Option.bind_eq_bind, Option.bind_some, Record.required_of_find? (hfind "index"),
    Record.required_of_find? (hfind "instruction"),
    Record.required_of_find? (hfind "reconciliation"),
    Record.optional_of_orNull (hfind "error") herror]
  rw [word?_nat hindex, hread]
  rfl

end InstructionResult

end

end Emend
