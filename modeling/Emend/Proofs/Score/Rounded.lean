import Emend.Proofs.Matching.Optimum
import Emend.Proofs.Similarity
import Mathlib.Algebra.Order.Field.Rat
import Mathlib.Data.Rat.Floor
import Mathlib.Order.Monotone.Basic
import Mathlib.Tactic.Linarith

namespace Emend

open Score

/-- A rounding of the rationals that keeps the numbers the search starts from. -/
structure Rounding where
  round : ℚ → ℚ
  mono : Monotone round
  idem (x : ℚ) : round (round x) = round x
  zero : round 0 = 0
  one : round 1 = 1
  neg_one : round (-1) = -1

namespace Rounding

def exact : Rounding where
  round := id
  mono := monotone_id
  idem _ := rfl
  zero := rfl
  one := rfl
  neg_one := rfl

/-- Down to the next multiple of `1 / n`. -/
def toParts (n : ℕ) (hn : 0 < n) : Rounding where
  round x := ⌊x * n⌋ / n
  mono x y h := by
    have hle : x * n ≤ y * n := mul_le_mul_of_nonneg_right h (Nat.cast_nonneg n)
    have hfloor : (⌊x * n⌋ : ℚ) ≤ ⌊y * n⌋ := by exact_mod_cast Int.floor_le_floor hle
    exact div_le_div_of_nonneg_right hfloor (Nat.cast_nonneg n)
  idem x := by
    have hne : (n : ℚ) ≠ 0 := by exact_mod_cast hn.ne'
    rw [div_mul_cancel₀ _ hne, Int.floor_intCast]
  zero := by rw [zero_mul, Int.floor_zero, Int.cast_zero, zero_div]
  one := by
    have hne : (n : ℚ) ≠ 0 := by exact_mod_cast hn.ne'
    rw [one_mul, Int.floor_natCast, Int.cast_natCast, div_self hne]
  neg_one := by
    have hne : (n : ℚ) ≠ 0 := by exact_mod_cast hn.ne'
    have hfloor : ⌊(-1 * n : ℚ)⌋ = -(n : ℤ) := by
      rw [neg_one_mul, ← Int.cast_natCast, ← Int.cast_neg, Int.floor_intCast]
    rw [hfloor, Int.cast_neg, Int.cast_natCast, neg_div, div_self hne]

variable (r : Rounding) {x : ℚ}

theorem nonneg (h : 0 ≤ x) : 0 ≤ r.round x :=
  calc 0 = r.round 0 := r.zero.symm
    _ ≤ r.round x := r.mono h

theorem nonpos (h : x ≤ 0) : r.round x ≤ 0 :=
  calc r.round x ≤ r.round 0 := r.mono h
    _ = 0 := r.zero

theorem one_le (h : 1 ≤ x) : 1 ≤ r.round x :=
  calc 1 = r.round 1 := r.one.symm
    _ ≤ r.round x := r.mono h

theorem le_one (h : x ≤ 1) : r.round x ≤ 1 :=
  calc r.round x ≤ r.round 1 := r.mono h
    _ = 1 := r.one

end Rounding

@[ext]
structure Rounded (r : Rounding) where
  val : ℚ
  round_val : r.round val = val

namespace Rounded

variable {r : Rounding}

def of (r : Rounding) (x : ℚ) : Rounded r := ⟨r.round x, r.idem x⟩

instance : Score (Rounded r) where
  add a b := of r (a.val + b.val)
  sub a b := of r (a.val - b.val)
  mul a b := of r (a.val * b.val)
  div a b := of r (a.val / b.val)
  neg a := of r (-a.val)
  natCast n := of r n
  lt a b := a.val < b.val
  le a b := a.val ≤ b.val
  beq a b := decide (a.val = b.val)
  compare a b := compare a.val b.val
  decLt a b := inferInstanceAs (Decidable (a.val < b.val))
  decLe a b := inferInstanceAs (Decidable (a.val ≤ b.val))

theorem lt_iff {a b : Rounded r} : a < b ↔ a.val < b.val := Iff.rfl

theorem not_lt_iff {a b : Rounded r} : ¬a < b ↔ b.val ≤ a.val := by
  rw [lt_iff, not_lt]

theorem beq_iff {a b : Rounded r} : (a == b) = true ↔ a.val = b.val := decide_eq_true_iff

theorem val_add (a b : Rounded r) : (a + b).val = r.round (a.val + b.val) := rfl

theorem val_sub (a b : Rounded r) : (a - b).val = r.round (a.val - b.val) := rfl

theorem val_mul (a b : Rounded r) : (a * b).val = r.round (a.val * b.val) := rfl

theorem val_neg (a : Rounded r) : (-a).val = r.round (-a.val) := rfl

theorem val_ofNat (n : ℕ) : (Score.ofNat n : Rounded r).val = r.round n := rfl

theorem val_quotient (a b : ℕ) :
    (Score.quotient a b : Rounded r).val = r.round (r.round a / r.round b) := rfl

theorem val_ofNat_zero : (Score.ofNat 0 : Rounded r).val = 0 := by
  rw [val_ofNat, Nat.cast_zero, r.zero]

theorem val_ofNat_one : (Score.ofNat 1 : Rounded r).val = 1 := by
  rw [val_ofNat, Nat.cast_one, r.one]

theorem val_noScore : (noScore : Rounded r).val = -1 := by
  rw [noScore, val_neg, val_ofNat_one, r.neg_one]

theorem comparable (a : Rounded r) : Comparable a := by
  by_cases h : a.val < 1
  · refine ⟨Score.ofNat 1, .inl ?_⟩
    rwa [lt_iff, val_ofNat_one]
  · refine ⟨Score.ofNat 0, .inr ?_⟩
    rw [lt_iff, val_ofNat_zero]
    linarith

theorem eq_of_not_lt {a b : Rounded r} (h : ¬a < b) (h' : ¬b < a) : a = b :=
  Rounded.ext (le_antisymm (not_lt_iff.1 h') (not_lt_iff.1 h))

theorem val_add_exact (a b : Rounded .exact) : (a + b).val = a.val + b.val := rfl

theorem val_sub_exact (a b : Rounded .exact) : (a - b).val = a.val - b.val := rfl

theorem val_mul_exact (a b : Rounded .exact) : (a * b).val = a.val * b.val := rfl

theorem val_ofNat_exact (n : ℕ) : (Score.ofNat n : Rounded .exact).val = n := rfl

theorem val_quotient_exact (a b : ℕ) : (Score.quotient a b : Rounded .exact).val = a / b := rfl

theorem val_quotient_mem {d n : ℕ} (hn : 0 < n) (hdn : d ≤ n) :
    0 ≤ (Score.quotient d n : Rounded r).val ∧ (Score.quotient d n : Rounded r).val ≤ 1 := by
  have hd : 0 ≤ r.round d := r.nonneg (Nat.cast_nonneg d)
  have hone : 1 ≤ r.round n := r.one_le (by exact_mod_cast hn)
  have hle : r.round d ≤ r.round n := r.mono (by exact_mod_cast hdn)
  rw [val_quotient]
  exact ⟨r.nonneg (div_nonneg hd (by linarith)), r.le_one (div_le_one_of_le₀ hle (by linarith))⟩

theorem val_similarity_mem (s t : Text) :
    0 ≤ (similarity s t : Rounded r).val ∧ (similarity s t : Rounded r).val ≤ 1 := by
  rw [similarity]
  split_ifs with h
  · rw [val_ofNat_one]
    exact ⟨zero_le_one, le_rfl⟩
  · have hle : indel s t ≤ s.length + t.length := Nat.sub_le _ _
    obtain ⟨hlow, hhigh⟩ := val_quotient_mem (r := r) (length_add_pos h) hle
    rw [val_sub, val_ofNat_one]
    exact ⟨r.nonneg (by linarith), r.le_one (by linarith)⟩

theorem val_mul_similarity_of_nonneg {w : Rounded r} (hw : 0 ≤ w.val) (s t : Text) :
    0 ≤ (w * similarity s t).val ∧ (w * similarity s t).val ≤ w.val := by
  obtain ⟨hlow, hhigh⟩ := val_similarity_mem (r := r) s t
  rw [val_mul]
  refine ⟨r.nonneg (mul_nonneg hw hlow), ?_⟩
  calc r.round (w.val * (similarity s t : Rounded r).val) ≤ r.round w.val :=
        r.mono (mul_le_of_le_one_right hw hhigh)
    _ = w.val := w.round_val

theorem val_mul_similarity_of_nonpos {w : Rounded r} (hw : w.val ≤ 0) (s t : Text) :
    w.val ≤ (w * similarity s t).val ∧ (w * similarity s t).val ≤ 0 := by
  obtain ⟨hlow, hhigh⟩ := val_similarity_mem (r := r) s t
  rw [val_mul]
  refine ⟨?_, r.nonpos (mul_nonpos_of_nonpos_of_nonneg hw hlow)⟩
  calc w.val = r.round w.val := w.round_val.symm
    _ ≤ r.round (w.val * (similarity s t : Rounded r).val) := r.mono (le_mul_of_le_one_right hw hhigh)

theorem finite_zero : Finite (Score.ofNat 0 : Rounded r) := by
  refine ⟨⟨noScore, ?_⟩, Score.ofNat 1, ?_⟩
  · rw [lt_iff, val_noScore, val_ofNat_zero]
    norm_num
  · rw [lt_iff, val_ofNat_zero, val_ofNat_one]
    norm_num

theorem le_add_slack (a : Rounded r) : a.val ≤ (a + slack).val := by
  have hslack : 0 ≤ (slack : Rounded r).val :=
    (val_quotient_mem (by norm_num) (by norm_num)).1
  rw [val_add]
  calc a.val = r.round a.val := a.round_val.symm
    _ ≤ r.round (a.val + (slack : Rounded r).val) := r.mono (by linarith)

theorem add_le_add {a a' b b' : Rounded r} (h : a.val ≤ a'.val) (h' : b.val ≤ b'.val) :
    (a + b).val ≤ (a' + b').val := by
  rw [val_add, val_add]
  exact r.mono (by linarith)

theorem finite_mul_similarity {w : Rounded r} (hw : Finite w) (s t : Text) :
    Finite (w * similarity s t) := by
  obtain ⟨⟨a, ha⟩, b, hb⟩ := hw
  obtain ⟨⟨a', ha'⟩, b', hb'⟩ := finite_zero (r := r)
  rw [lt_iff] at ha hb ha' hb'
  rw [val_ofNat_zero] at ha' hb'
  rcases le_total 0 w.val with hpos | hneg
  · obtain ⟨hlow, hhigh⟩ := val_mul_similarity_of_nonneg hpos s t
    exact ⟨⟨a', ha'.trans_le hlow⟩, b, hhigh.trans_lt hb⟩
  · obtain ⟨hlow, hhigh⟩ := val_mul_similarity_of_nonpos hneg s t
    exact ⟨⟨a, ha.trans_le hlow⟩, b', hhigh.trans_lt hb'⟩

instance : LawfulScore (Rounded r) where
  lt_irrefl a := lt_irrefl a.val
  lt_trans h h' := lt_trans (lt_iff.1 h) (lt_iff.1 h')
  lt_or_lt {a b c} _ h := (lt_or_ge a.val b.val).imp_right fun hba => hba.trans_lt (lt_iff.1 h)
  le_iff _ _ := not_lt_iff.symm
  beq_iff {a b} _ _ := by
    rw [beq_iff, not_lt_iff, not_lt_iff, le_antisymm_iff, and_comm]
  transOrd := inferInstanceAs (Std.TransCmp (compareOn Rounded.val))
  compare_of_lt h := compare_lt_iff_lt.2 (lt_iff.1 h)
  finite_zero := finite_zero
  comparable_noScore := comparable _
  add_comm a b := by
    apply Rounded.ext
    rw [val_add, val_add, add_comm]
  comparable_add _ _ := comparable _
  add_le_add _ _ _ _ h h' :=
    not_lt_iff.2 (add_le_add (not_lt_iff.1 h) (not_lt_iff.1 h'))
  le_add_slack {a} _ := not_lt_iff.2 (le_add_slack a)
  finite_mul_similarity _ _ hw := finite_mul_similarity hw _ _
  mul_similarity_le _ _ _ hpos := by
    rw [not_lt_iff, val_ofNat_zero] at hpos
    exact not_lt_iff.2 (val_mul_similarity_of_nonneg hpos _ _).2
  mul_similarity_nonpos _ _ _ hneg := by
    rw [not_lt_iff, val_ofNat_zero] at hneg
    rw [not_lt_iff, val_ofNat_zero]
    exact (val_mul_similarity_of_nonpos hneg _ _).2

theorem val_bodyOf_le (p : MatchPolicy (Rounded r)) (query lines : List Text) (w : Window) :
    (bodyOf p query lines w).val ≤ (bodyBound p).val := by
  rw [bodyOf, bodyBound, Score.larger_eq (comparable _) (comparable _)]
  split_ifs with h
  · rw [lt_iff, val_ofNat_zero] at h
    exact (val_mul_similarity_of_nonneg h.le _ _).2
  · rw [not_lt_iff, val_ofNat_zero] at h
    rw [val_ofNat_zero]
    exact (val_mul_similarity_of_nonpos h _ _).2

theorem prunable (p : MatchPolicy (Rounded r)) (query lines : List Text) :
    Prunable p query lines where
  score _ := comparable _
  bound _ := comparable _
  score_le {v w} h := by
    rw [not_lt_iff] at h ⊢
    rw [scoreOf_eq, LawfulScore.add_comm (endpointsOf p query lines w)]
    exact add_le_add (val_bodyOf_le p query lines v) h

end Rounded

end Emend
