import Emend.Proofs.Score.DoubleRounding

namespace Emend.Double

open Float.Model Float.Model.UnpackedFloat Nearest

theorem decreaseExponent_spec (m : ℕ) {e t : ℤ} (h : t ≤ e) :
    ((decreaseExponent m e t).1 * 2 ^ t : ℚ) = m * 2 ^ e := by
  have ht : e = t + (e - t).toNat := by omega
  rw [decreaseExponent]
  dsimp only
  generalize (e - t).toNat = k at ht
  rw [ht, zpow_add₀ (by norm_num), Nat.shiftLeft_eq, zpow_natCast]
  push_cast
  ring

theorem apply_mul (s : Sign) (n : ℕ) (x : ℚ) : (s.apply n : ℚ) * x = signed s (n * x) := by
  cases s
  · simp [Sign.apply, signed]
  · simp [Sign.apply, signed]

theorem signed_neg (s : Sign) (x : ℚ) : signed (-s) x = -signed s x := by
  cases s
  · exact (neg_neg x).symm
  · rfl

theorem signed_mul (s t : Sign) (x y : ℚ) : signed (s * t) (x * y) = signed s x * signed t y := by
  cases s <;> cases t
  · exact (neg_mul_neg x y).symm
  · exact (neg_mul x y).symm
  · exact (mul_neg x y).symm
  · rfl

theorem signed_div (s t : Sign) (x y : ℚ) : signed (s / t) (x / y) = signed s x / signed t y := by
  cases s <;> cases t
  · exact (neg_div_neg_eq x y).symm
  · exact (neg_div y x).symm
  · exact (div_neg x).symm
  · rfl

theorem isRounded_add {u v : UnpackedFloat} (hu : InRange u) (hv : InRange v)
    (hfu : u.isFinite = true) (hfv : v.isFinite = true) :
    IsRounded (UnpackedFloat.add Format.binary64 u v) (value u + value v) := by
  cases u with
  | infinity s => cases hfu
  | notANumber => cases hfu
  | zero s =>
      cases v with
      | infinity t => cases hfv
      | notANumber => cases hfv
      | zero t =>
          have hz (z : Sign) : IsRounded (.zero z) (value (.zero s) + value (.zero t)) := by
            simpa [value] using isRounded_zero z
          cases s <;> cases t <;> exact hz _
      | finite t n k hn => simpa [UnpackedFloat.add, value] using hv.isRounded rfl
  | finite s m e hm =>
      cases v with
      | infinity t => cases hfv
      | notANumber => cases hfv
      | zero t => simpa [UnpackedFloat.add, value] using hu.isRounded rfl
      | finite t n k hn =>
          have hsum := normalize_isRounded
            (s.apply (decreaseExponent m e (min e k)).1 + t.apply (decreaseExponent n k (min e k)).1)
            (min e k) .positive
          rw [Int.cast_add, add_mul, apply_mul, apply_mul, decreaseExponent_spec m (min_le_left e k),
            decreaseExponent_spec n (min_le_right e k)] at hsum
          exact hsum

theorem unpacked_add_comm (u v : UnpackedFloat) :
    UnpackedFloat.add Format.binary64 u v = UnpackedFloat.add Format.binary64 v u := by
  cases u with
  | infinity s =>
      cases v with
      | infinity t => cases s <;> cases t <;> rfl
      | notANumber => rfl
      | zero t => rfl
      | finite t n k hn => rfl
  | notANumber => cases v <;> rfl
  | zero s =>
      cases v with
      | infinity t => rfl
      | notANumber => rfl
      | zero t => cases s <;> cases t <;> rfl
      | finite t n k hn => rfl
  | finite s m e hm =>
      cases v with
      | infinity t => rfl
      | notANumber => rfl
      | zero t => rfl
      | finite t n k hn =>
          simp only [UnpackedFloat.add]
          rw [min_comm k e, Int.add_comm]

theorem unpacked_sub_eq (u v : UnpackedFloat) :
    UnpackedFloat.sub Format.binary64 u v = UnpackedFloat.add Format.binary64 u v.neg := by
  cases u with
  | infinity s => cases v <;> rfl
  | notANumber => cases v <;> rfl
  | zero s => cases v <;> rfl
  | finite s m e hm =>
      cases v with
      | infinity t => rfl
      | notANumber => rfl
      | zero t => rfl
      | finite t n k hn =>
          have happly (j : ℕ) : (-t).apply j = -t.apply j := by
            cases t
            · exact (Int.neg_neg _).symm
            · rfl
          simp only [UnpackedFloat.sub, UnpackedFloat.add, UnpackedFloat.neg, happly,
            Int.sub_eq_add_neg]

theorem value_neg (v : UnpackedFloat) : value v.neg = -value v := by
  cases v with
  | infinity s => exact signed_neg s _
  | notANumber => exact neg_zero.symm
  | zero s => exact neg_zero.symm
  | finite s m e hm => exact signed_neg s _

theorem InRange.neg {v : UnpackedFloat} (h : InRange v) : InRange v.neg := by
  cases v <;> exact h

theorem isFinite_neg {v : UnpackedFloat} (h : v.isFinite = true) : v.neg.isFinite = true := by
  cases v <;> exact h

theorem isRounded_sub {u v : UnpackedFloat} (hu : InRange u) (hv : InRange v)
    (hfu : u.isFinite = true) (hfv : v.isFinite = true) :
    IsRounded (UnpackedFloat.sub Format.binary64 u v) (value u - value v) := by
  rw [unpacked_sub_eq, sub_eq_add_neg, ← value_neg]
  exact isRounded_add hu hv.neg hfu (isFinite_neg hfv)

theorem isRounded_mul_finite (s t : Sign) {m n : ℕ} (hm : 0 < m) (hn : 0 < n) {e k : ℤ}
    (h : e + k ≤ (m * n).log2 + (e + k) - 52 ∨ e + k ≤ -1074) :
    IsRounded (UnpackedFloat.mul Format.binary64 (.finite s m e hm) (.finite t n k hn))
      (value (.finite s m e hm) * value (.finite t n k hn)) := by
  have hmn : 0 < m * n := Nat.mul_pos hm hn
  have hx : (0 : ℚ) < (m * n : ℕ) * 2 ^ (e + k) := magnitude_pos _ hmn
  have hval : signed (s * t) ((m * n : ℕ) * 2 ^ (e + k)) =
      value (.finite s m e hm) * value (.finite t n k hn) := by
    rw [value, value, ← signed_mul, zpow_add₀ (by norm_num)]
    push_cast
    congr 1
    ring
  rw [← hval]
  refine roundWithAccuracy_isRounded (s * t) hx ?_ ?_
  · rw [mul_div_cancel_right₀ _ (two_zpow_pos _).ne']
    exact Shows.exact _
  · rw [lastPlace_eq hmn]
    omega

theorem isRounded_mul {u v : UnpackedFloat} (hu : InRange u) (hv : InRange v)
    (hfu : u.isFinite = true) (hfv : v.isFinite = true) :
    IsRounded (UnpackedFloat.mul Format.binary64 u v) (value u * value v) := by
  cases u with
  | infinity s => cases hfu
  | notANumber => cases hfu
  | zero s =>
      cases v with
      | infinity t => cases hfv
      | notANumber => cases hfv
      | zero t => simpa [UnpackedFloat.mul, value] using isRounded_zero (s * t)
      | finite t n k hn => simpa [UnpackedFloat.mul, value] using isRounded_zero (s * t)
  | finite s m e hm =>
      cases v with
      | infinity t => cases hfv
      | notANumber => cases hfv
      | zero t => simpa [UnpackedFloat.mul, value] using isRounded_zero (s * t)
      | finite t n k hn =>
          refine isRounded_mul_finite s t hm hn ?_
          have hfull : 2 ^ 52 ≤ m ∨ 2 ^ 52 ≤ n → 52 ≤ (m * n).log2 := fun h =>
            (Nat.le_log2 (Nat.mul_pos hm hn).ne').2 (by rcases h with h | h <;> nlinarith)
          rcases hu.1.full with h | rfl
          · have := hfull (.inl h)
            omega
          · rcases hv.1.full with h | rfl
            · have := hfull (.inr h)
              omega
            · omega

theorem le_log_div {m n : ℕ} (hm : 0 < m) (hn : 0 < n) (e k : ℤ) :
    (m.log2 + e - (n.log2 + k) - 1 : ℤ) ≤ Int.log 2 ((m * 2 ^ e) / (n * 2 ^ k) : ℚ) := by
  have hx : (0 : ℚ) < m * 2 ^ e := magnitude_pos e hm
  have hy : (0 : ℚ) < n * 2 ^ k := magnitude_pos k hn
  rw [← Int.zpow_le_iff_le_log (b := 2) (by norm_num) (div_pos hx hy), le_div_iff₀ hy]
  have hm' : (2 : ℚ) ^ (m.log2 : ℤ) ≤ m := by exact_mod_cast Nat.log2_self_le hm.ne'
  have hn' : (n : ℚ) ≤ 2 ^ (n.log2 + 1 : ℤ) := by exact_mod_cast (Nat.lt_log2_self (n := n)).le
  rw [Nat.cast_ofNat]
  calc (2 : ℚ) ^ (m.log2 + e - (n.log2 + k) - 1 : ℤ) * (n * 2 ^ k)
      ≤ 2 ^ (m.log2 + e - (n.log2 + k) - 1 : ℤ) * (2 ^ (n.log2 + 1 : ℤ) * 2 ^ k) :=
        mul_le_mul_of_nonneg_left (mul_le_mul_of_nonneg_right hn' (two_zpow_pos k).le)
          (two_zpow_pos _).le
    _ = 2 ^ (m.log2 : ℤ) * 2 ^ e := by
        rw [← zpow_add₀ (by norm_num), ← zpow_add₀ (by norm_num), ← zpow_add₀ (by norm_num)]
        congr 1
        omega
    _ ≤ m * 2 ^ e := mul_le_mul_of_nonneg_right hm' (two_zpow_pos e).le

theorem isRounded_div {u v : UnpackedFloat} (hfu : u.isFinite = true) (hfv : v.isFinite = true)
    (hne : value v ≠ 0) : IsRounded (UnpackedFloat.div Format.binary64 u v) (value u / value v) := by
  cases v with
  | infinity t => cases hfv
  | notANumber => cases hfv
  | zero t => exact absurd rfl hne
  | finite t n k hn =>
      cases u with
      | infinity s => cases hfu
      | notANumber => cases hfu
      | zero s => simpa [UnpackedFloat.div, value] using isRounded_zero (s / t)
      | finite s m e hm =>
          have hx : (0 : ℚ) < m * 2 ^ e := magnitude_pos e hm
          have hy : (0 : ℚ) < n * 2 ^ k := magnitude_pos k hn
          rw [value, value, ← signed_div]
          rw [UnpackedFloat.div, divCore]
          dsimp only
          rw [targetExponent_eq, totalExponent, totalExponent]
          have hlog := le_log_div hm hn e k
          generalize ht : min (e - k) (max (m.log2 + 1 + e - (n.log2 + 1 + k) - 53) (-1074)) = t'
          obtain ⟨d, hd⟩ : ∃ d : ℕ, (d : ℤ) = e - k - t' := ⟨(e - k - t').toNat, by omega⟩
          have hd' : (e - k - t').toNat = d := by omega
          rw [hd']
          refine roundWithAccuracy_isRounded (s / t) (div_pos hx hy) ?_ ?_
          · have hval : (m * 2 ^ e / (n * 2 ^ k) : ℚ) / 2 ^ t' = (m <<< d : ℕ) / n := by
              have he : e = d + k + t' := by omega
              have hn0 : (n : ℚ) ≠ 0 := by exact_mod_cast hn.ne'
              rw [Nat.shiftLeft_eq, he, zpow_add₀ (by norm_num), zpow_add₀ (by norm_num),
                zpow_natCast]
              push_cast
              field_simp
            rw [hval]
            exact Shows.fraction _ hn
          · rw [lastPlace]
            omega

end Emend.Double
