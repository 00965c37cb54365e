import Emend.Matching.Match

namespace Emend.Score

variable {α : Type} [Score α]

/-- The score is above or below another one. -/
def Comparable (a : α) : Prop := ∃ b, a < b ∨ b < a

/-- There are scores on both sides. -/
def Finite (a : α) : Prop := (∃ b, b < a) ∧ ∃ b, a < b

theorem Finite.comparable {a : α} (h : Finite a) : Comparable a :=
  let ⟨b, hb⟩ := h.2
  ⟨b, .inl hb⟩

end Emend.Score

namespace Emend

open Score

/-- Texts are short enough for a word to count their characters. -/
class LawfulScore (α : Type) [Score α] : Prop where
  lt_irrefl (a : α) : ¬a < a
  lt_trans {a b c : α} : a < b → b < c → a < c
  lt_or_lt {a b c : α} : Comparable b → a < c → a < b ∨ b < c
  le_iff {a b : α} : Comparable a → Comparable b → (a ≤ b ↔ ¬b < a)
  beq_iff {a b : α} : Comparable a → Comparable b → ((a == b) = true ↔ ¬a < b ∧ ¬b < a)
  transOrd : Std.TransOrd α
  compare_of_lt {a b : α} : a < b → compare a b = .lt
  finite_zero : Finite (ofNat 0 : α)
  comparable_noScore : Comparable (noScore : α)
  add_comm (a b : α) : a + b = b + a
  comparable_add {a b : α} : Finite a → Comparable b → Comparable (a + b)
  add_le_add {a a' b b' : α} : Finite a → Finite a' → Comparable b → Comparable b' →
    ¬a' < a → ¬b' < b → ¬a' + b' < a + b
  le_add_slack {a : α} : Comparable a → ¬a + slack < a
  finite_mul_similarity {w : α} {s t : Text} : s.length < word → t.length < word → Finite w →
    Finite (w * similarity s t)
  mul_similarity_le {w : α} {s t : Text} : s.length < word → t.length < word → Finite w →
    ¬w < ofNat 0 → ¬w < w * similarity s t
  mul_similarity_nonpos {w : α} {s t : Text} : s.length < word → t.length < word → Finite w →
    ¬ofNat 0 < w → ¬ofNat 0 < w * similarity s t

variable {α : Type} [Score α] [LawfulScore α] {a b c : α}

theorem not_lt_trans (hb : Comparable b) (h : ¬a < b) (h' : ¬b < c) : ¬a < c := by
  intro hac
  exact (LawfulScore.lt_or_lt hb hac).elim h h'

theorem not_lt_of_lt (h : a < b) : ¬b < a := by
  intro h'
  exact LawfulScore.lt_irrefl a (LawfulScore.lt_trans h h')

theorem lt_of_lt_of_not_lt (hc : Comparable c) (h : a < b) (h' : ¬c < b) : a < c :=
  (LawfulScore.lt_or_lt hc h).resolve_right h'

theorem lt_of_not_lt_of_lt (ha : Comparable a) (h : ¬b < a) (h' : b < c) : a < c :=
  (LawfulScore.lt_or_lt ha h').resolve_left h

theorem Score.larger_eq (ha : Comparable a) (hb : Comparable b) :
    larger a b = if b < a then a else b := by
  have hself : (a != a) = false := by
    rw [bne, (LawfulScore.beq_iff ha ha).2 ⟨LawfulScore.lt_irrefl a, LawfulScore.lt_irrefl a⟩]
    rfl
  rw [larger, hself, Bool.or_false]
  by_cases h : b < a
  · rw [if_pos h, if_neg]
    rw [decide_eq_true_iff, LawfulScore.le_iff ha hb]
    exact not_not_intro h
  · rw [if_neg h, if_pos]
    rw [decide_eq_true_iff, LawfulScore.le_iff ha hb]
    exact h

end Emend
