import Emend.Proofs.Session.Schedule

namespace Emend

theorem Listener.hears_isPrefix {β : Type} (l : Listener) (ms : List β) : l.hears ms <+: ms := by
  cases l with
  | stays => exact List.prefix_refl ms
  | hangsUpAfter n => exact List.take_prefix n ms

namespace StreamMessage

variable {α : Type}

def about (i : Nat) (ms : List (StreamMessage α)) : List (StreamMessage α) :=
  ms.filter (·.index? == some i)

theorem about_append (i : Nat) (ms ns : List (StreamMessage α)) :
    about i (ms ++ ns) = about i ms ++ about i ns := List.filter_append ms ns

theorem about_plan_cons (i : Nat) (p : Plan) (ms : List (StreamMessage α)) :
    about i (.plan p :: ms) = about i ms := rfl

theorem about_eq_self {i : Nat} {ms : List (StreamMessage α)}
    (h : ∀ m ∈ ms, m.index? = some i) : about i ms = ms := by
  apply List.filter_eq_self.2
  intro m hm
  simp [h m hm]

theorem about_eq_nil {i j : Nat} {ms : List (StreamMessage α)}
    (h : ∀ m ∈ ms, m.index? = some j) (hij : j ≠ i) : about i ms = [] := by
  apply List.filter_eq_nil_iff.2
  intro m hm
  simp [h m hm, hij]

end StreamMessage

/-- The messages that end an instruction: its changes and then what failed of them, or why there was
no response. -/
def InstructionResult.ending {α : Type} [Numeral α] (r : InstructionResult α) :
    List (StreamMessage α) :=
  match r.error with
  | some cause => [.error (some r.index) cause none]
  | none => .change r.index r.reconciliation.changes ::
      r.reconciliation.failures.map fun e => .error (some r.index) e.message (some e)

namespace Effect

variable {α : Type}

def messages (es : List (Effect α)) : List (StreamMessage α) := es.filterMap message?

@[simp] theorem messages_nil : messages ([] : List (Effect α)) = [] := rfl

@[simp] theorem messages_report_cons (e : Event α) (es : List (Effect α)) :
    messages (report e :: es) = messages es := rfl

@[simp] theorem messages_send_cons (m : StreamMessage α) (es : List (Effect α)) :
    messages (send m :: es) = m :: messages es := rfl

@[simp] theorem messages_append (es fs : List (Effect α)) :
    messages (es ++ fs) = messages es ++ messages fs := List.filterMap_append

@[simp] theorem messages_reports {β : Type} (f : β → Event α) (l : List β) :
    messages (l.map fun b => report (f b)) = [] := by
  induction l with
  | nil => rfl
  | cons b l ih => exact ih

@[simp] theorem messages_map_report (es : List (Event α)) : messages (es.map report) = [] :=
  messages_reports id es

@[simp] theorem messages_sends {β : Type} (f : β → StreamMessage α) (l : List β) :
    messages (l.map fun b => send (f b)) = l.map f := by
  induction l with
  | nil => rfl
  | cons b l ih => exact congrArg (f b :: ·) ih

/-- A listener that hangs up hears the start of what is said, and one that stays hears it all. -/
theorem messages_toListener (l : Listener) (es : List (Effect α)) :
    messages (toListener l es) = l.hears (messages es) := by
  induction es generalizing l with
  | nil =>
      cases l with
      | stays => rfl
      | hangsUpAfter n => exact List.take_nil.symm
  | cons e es ih =>
      cases e with
      | report e =>
          rw [toListener, messages_report_cons, messages_report_cons]
          exact ih l
      | send m =>
          rcases l with _ | _ | n
          · exact congrArg (m :: ·) (ih .stays)
          · exact ih (.hangsUpAfter 0)
          · exact congrArg (m :: ·) (ih (.hangsUpAfter n))

end Effect

namespace Session

open Schedule

variable {α : Type} [Score α] [Numeral α] (s : Session α) (files : FileSet)

def told (i : Nat) : Signal → List (StreamMessage α)
  | .note _ => []
  | .chunk text => [.progress i text]
  | .finish o => (s.resultOf files i [] o).ending

theorem messages_react (i : Nat) (sig : Signal) :
    Effect.messages (s.react files i sig) = s.told files i sig := by
  cases sig with
  | note n => rfl
  | chunk text => rfl
  | finish o =>
      cases o with
      | error cause => rfl
      | ok response =>
          rw [react, Effect.messages_append]
          simp [told, resultOf, InstructionResult.ending, StreamMessage.ofFailure]

theorem index?_of_mem_told {i : Nat} {sig : Signal} {m : StreamMessage α}
    (h : m ∈ s.told files i sig) : m.index? = some i := by
  cases sig with
  | note n => cases h
  | chunk text =>
      obtain rfl := List.mem_singleton.1 h
      rfl
  | finish o =>
      cases o with
      | error cause =>
          obtain rfl := List.mem_singleton.1 h
          rfl
      | ok response =>
          rcases List.mem_cons.1 h with rfl | h
          · rfl
          · obtain ⟨e, -, rfl⟩ := List.mem_map.1 h
            rfl

def emitted (turns : List Turn) : List (StreamMessage α) :=
  turns.flatMap fun t => s.told files t.call t.signal

theorem emitted_cons (i : Nat) (sig : Signal) (turns : List Turn) :
    s.emitted files (⟨i, sig⟩ :: turns) = s.told files i sig ++ s.emitted files turns :=
  List.flatMap_cons

theorem messages_effects (turns : List Turn) :
    Effect.messages (s.effects files turns) = s.emitted files turns := by
  induction turns with
  | nil => rfl
  | cons t turns ih =>
      rw [effects, List.flatMap_cons, ← effects, Effect.messages_append, messages_react, ih]
      exact (s.emitted_cons files t.call t.signal turns).symm

theorem about_emitted (i : Nat) (turns : List Turn) :
    StreamMessage.about i (s.emitted files turns) =
      (signalsOf i turns).flatMap (s.told files i) := by
  induction turns with
  | nil => rfl
  | cons t turns ih =>
      obtain ⟨j, sig⟩ := t
      rw [emitted_cons, StreamMessage.about_append, ih]
      -- All that a signal has told is about its own call.
      by_cases hj : j = i
      · subst hj
        rw [signalsOf_cons_self, List.flatMap_cons,
          StreamMessage.about_eq_self fun m hm => s.index?_of_mem_told files hm]
      · rw [signalsOf_cons_ne i hj,
          StreamMessage.about_eq_nil (fun m hm => s.index?_of_mem_told files hm) hj,
          List.nil_append]

theorem exists_signal_of_mem_emitted {turns : List Turn} {m : StreamMessage α}
    (h : m ∈ s.emitted files turns) :
    ∃ i, m.index? = some i ∧ signalsOf i turns ≠ [] := by
  obtain ⟨⟨i, sig⟩, ht, hm⟩ := List.mem_flatMap.1 h
  exact ⟨i, s.index?_of_mem_told files hm, signalsOf_ne_nil i ht⟩

theorem flatMap_told_of_no_outcome {sigs : List Signal} (h : ∀ sig ∈ sigs, sig.outcome? = none)
    (i : Nat) :
    sigs.flatMap (s.told files i) = (sigs.filterMap Signal.chunk?).map (.progress i) := by
  induction sigs with
  | nil => rfl
  | cons sig sigs ih =>
      rw [List.forall_mem_cons] at h
      rw [List.flatMap_cons, ih h.2]
      cases sig with
      | note n => rfl
      | chunk text => rfl
      | finish o => cases h.1

theorem flatMap_told_signals {r : Reply} (h : r.EndsOnce) (i : Nat) (instruction : Text) :
    r.signals.flatMap (s.told files i) =
      r.chunks.map (.progress i) ++ (s.resultOf files i instruction r.outcome).ending := by
  rw [Reply.signals, List.flatMap_append, s.flatMap_told_of_no_outcome files h,
    List.flatMap_singleton]
  cases r.outcome <;> rfl

theorem flatMap_told_filter_counts (i : Nat) (sigs : List Signal) :
    (sigs.filter Signal.counts).flatMap (s.told files i) = sigs.flatMap (s.told files i) := by
  induction sigs with
  | nil => rfl
  | cons sig sigs ih =>
      cases sig with
      | note n => exact ih
      | chunk text => exact congrArg (_ ++ ·) ih
      | finish o => exact congrArg (_ ++ ·) ih

theorem about_emitted_of_conductOf {i : Nat} {turns turns' : List Turn}
    (h : conductOf i turns = conductOf i turns') :
    StreamMessage.about i (s.emitted files turns) =
      StreamMessage.about i (s.emitted files turns') := by
  rw [about_emitted, about_emitted, ← flatMap_told_filter_counts,
    ← s.flatMap_told_filter_counts files i (signalsOf i turns')]
  exact congrArg _ h

end Session

end Emend
