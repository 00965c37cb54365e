import Emend.Session.Run
import Mathlib.Data.List.Induction

namespace Emend

namespace Signal

def chunk? : Signal → Option Text
  | note _ => none
  | chunk text => some text
  | finish _ => none

def outcome? : Signal → Option (Except Text Text)
  | note _ => none
  | chunk _ => none
  | finish o => some o

/-- The signal says something of the response, which notes do not. -/
def counts : Signal → Bool
  | note _ => false
  | chunk _ => true
  | finish _ => true

end Signal

namespace Reply

def chunks (r : Reply) : List Text := r.before.filterMap Signal.chunk?

/-- Nothing that the call delivers before its end is an end. -/
def EndsOnce (r : Reply) : Prop := ∀ sig ∈ r.before, sig.outcome? = none

theorem EndsOnce.findSome?_signals {r : Reply} (h : r.EndsOnce) :
    r.signals.findSome? Signal.outcome? = some r.outcome := by
  rw [signals, List.findSome?_append, List.findSome?_eq_none_iff.2 h]
  rfl

end Reply

namespace Schedule

variable (i : Nat)

theorem signalsOf_cons_self (sig : Signal) (turns : List Turn) :
    signalsOf i (⟨i, sig⟩ :: turns) = sig :: signalsOf i turns := by
  simp [signalsOf]

theorem signalsOf_cons_ne {j : Nat} (h : j ≠ i) (sig : Signal) (turns : List Turn) :
    signalsOf i (⟨j, sig⟩ :: turns) = signalsOf i turns := by
  simp [signalsOf, h]

/-- What a call hands out in a schedule, its notes left aside. -/
def conductOf (turns : List Turn) : List Signal := (signalsOf i turns).filter Signal.counts

theorem outcome?_eq_findSome? (turns : List Turn) :
    Session.outcome? i turns = (signalsOf i turns).findSome? Signal.outcome? := by
  induction turns with
  | nil => rfl
  | cons t turns ih =>
      obtain ⟨j, sig⟩ := t
      by_cases hj : j = i
      · subst hj
        rw [signalsOf_cons_self, List.findSome?_cons]
        cases sig with
        | note n => exact ih
        | chunk text => exact ih
        | finish o => exact if_pos rfl
      · rw [signalsOf_cons_ne i hj, ← ih]
        cases sig with
        | note n => rfl
        | chunk text => rfl
        | finish o => exact if_neg hj

theorem findSome?_filter_counts (sigs : List Signal) :
    (sigs.filter Signal.counts).findSome? Signal.outcome? = sigs.findSome? Signal.outcome? := by
  induction sigs with
  | nil => rfl
  | cons sig sigs ih =>
      cases sig with
      | note n => exact ih
      | chunk text => exact ih
      | finish o => rfl

theorem outcome?_eq_of_conductOf {turns turns' : List Turn}
    (h : conductOf i turns = conductOf i turns') :
    Session.outcome? i turns = Session.outcome? i turns' := by
  rw [outcome?_eq_findSome?, outcome?_eq_findSome?, ← findSome?_filter_counts,
    ← findSome?_filter_counts (signalsOf i turns')]
  exact congrArg _ h

theorem signalsOf_append (turns turns' : List Turn) :
    signalsOf i (turns ++ turns') = signalsOf i turns ++ signalsOf i turns' := List.filterMap_append

theorem signalsOf_map (j : Nat) (sigs : List Signal) :
    signalsOf i (sigs.map (Turn.mk j)) = if j = i then sigs else [] := by
  by_cases hj : j = i
  · subst hj
    rw [if_pos rfl]
    induction sigs with
    | nil => rfl
    | cons sig sigs ih => rw [List.map_cons, signalsOf_cons_self, ih]
  · rw [if_neg hj]
    induction sigs with
    | nil => rfl
    | cons sig sigs ih => rw [List.map_cons, signalsOf_cons_ne i hj, ih]

theorem signalsOf_ne_nil {sig : Signal} {turns : List Turn} (h : ⟨i, sig⟩ ∈ turns) :
    signalsOf i turns ≠ [] := by
  apply List.ne_nil_of_mem (a := sig)
  exact List.mem_filterMap.2 ⟨_, h, if_pos rfl⟩

theorem inTurn_concat (replies : List Reply) (r : Reply) :
    inTurn (replies ++ [r]) = inTurn replies ++ r.signals.map (Turn.mk replies.length) := by
  simp [inTurn, List.zipIdx_append]

theorem delivers_inTurn (replies : List Reply) : Delivers replies (inTurn replies) := by
  intro i
  induction replies using List.reverseRecOn with
  | nil => rfl
  | append_singleton replies r ih =>
      rw [inTurn_concat, signalsOf_append, ih, signalsOf_map]
      rcases Nat.lt_trichotomy i replies.length with hlt | rfl | hgt
      · rw [if_neg (Nat.ne_of_gt hlt), List.append_nil, List.getElem?_append_left hlt]
      · simp
      · have hlong : (replies ++ [r]).length ≤ i := by simpa using Nat.succ_le_of_lt hgt
        rw [if_neg (Nat.ne_of_lt hgt), List.getElem?_eq_none (Nat.le_of_lt hgt), List.getElem?_eq_none hlong]
        rfl

end Schedule

theorem PlanReply.signalsOf_eq {reply : PlanReply} {plan : Plan} {replies : Nat → Reply}
    {turns : List Turn} (hplan : reply.plan = .ok plan)
    (h : Schedule.Delivers (reply.replies replies) turns) (i : Nat) :
    Schedule.signalsOf i turns =
      if i < plan.instructions.length then (replies i).signals else [] := by
  rw [h i, PlanReply.replies, hplan]
  by_cases hi : i < plan.instructions.length
  · simp [hi]
  · simp [hi]

end Emend
