import Emend.Proofs.Decimal.Exact
import Emend.Proofs.Score.Double

namespace Emend

open Double Nearest

namespace Dyadic

def value (x : Dyadic) : ℚ := (if x.negative then -1 else 1) * (x.mantissa * 2 ^ x.exponent)

end Dyadic

theorem Extended.exists_finite {s : Float} (h : s.isFinite = true) :
    ∃ d : Dyadic, Extended.ofDouble s = .finite d ∧ Canonical d.mantissa d.exponent ∧
      d.exponent ≤ 971 ∧ d.value = val s := by
  have hm : _ = s.toBits.toNat % 2 ^ 52 := toNat_unpackMantissa s.toModel.toBits.toBitVec
  have he : _ = s.toBits.toNat / 2 ^ 52 % 2048 := toNat_unpackExponent s.toModel.toBits.toBitVec
  have hs : ∀ x : ℚ, _ = (if s.toBits.toNat / 2 ^ 63 == 1 then -1 else 1) * x :=
    signed_unpackSign s.toModel.toBits.toBitVec
  have hpow : pow2 52 = 2 ^ 52 := rfl
  have hpow' : pow2 63 = 2 ^ 63 := rfl
  have hlow := Nat.mod_lt s.toBits.toNat (Nat.two_pow_pos 52)
  have hbias : (Float.Model.Format.binary64.exponentBias : ℤ) + (52 : ℕ) = 1075 := by decide
  change s.toModel.unpack.isFinite = true at h
  change ∃ d : Dyadic, _ ∧ _ ∧ _ ∧ d.value = Double.value s.toModel.unpack
  unfold Float.Model.unpack Float.Model.UnpackedFloat.unpack at h ⊢
  dsimp only at h ⊢
  split_ifs at h ⊢ with htop hnil hsub hzero
  · cases h
  · cases h
  · rw [hsub] at he
    rw [hzero] at hm
    rw [ofDouble, hpow, ← he, ← hm]
    refine ⟨_, rfl, ⟨Nat.two_pow_pos 53, le_rfl, .inr rfl⟩, ?_, ?_⟩
    · dsimp only
      decide
    · simp [Dyadic.value, Double.value]
  · rw [hsub] at he
    rw [ofDouble, hpow, hpow', ← he]
    refine ⟨_, rfl, ⟨hlow.trans (by decide), le_rfl, .inr rfl⟩, ?_, ?_⟩
    · dsimp only
      decide
    · rw [Double.value, hs, hm, hsub, hbias, Dyadic.value]
      rfl
  · have htop' : s.toBits.toNat / 2 ^ 52 % 2048 ≠ 2047 := fun heq =>
      htop (BitVec.eq_of_toNat_eq (he.trans heq))
    have hsub' : s.toBits.toNat / 2 ^ 52 % 2048 ≠ 0 := fun heq =>
      hsub (BitVec.eq_of_toNat_eq (he.trans heq))
    have hfield : s.toBits.toNat / 2 ^ 52 % 2048 < 2048 := Nat.mod_lt _ (by decide)
    rw [ofDouble, hpow, hpow', beq_eq_false_iff_ne.2 htop', beq_eq_false_iff_ne.2 hsub']
    refine ⟨_, rfl, ⟨?_, ?_, .inl ?_⟩, ?_, ?_⟩
    · dsimp only
      omega
    · dsimp only
      omega
    · exact Nat.le_add_right _ _
    · dsimp only
      omega
    · rw [Double.value, hs, Double.toNat_implicit_append, hm, he, hbias, Dyadic.value]

theorem zpow_eq_div {b : ℚ} (hb : b ≠ 0) (k : ℤ) : b ^ k = b ^ k.toNat / b ^ (-k).toNat := by
  rw [← zpow_natCast, ← zpow_natCast, ← zpow_sub₀ hb]
  congr 1
  omega

namespace Dyadic

variable {x : Dyadic} {c : ℕ} {t : ℤ}

def below (x : Dyadic) : ℚ := (x.mantissa - x.gapBelow / 4) * 2 ^ x.exponent

def above (x : Dyadic) : ℚ := (x.mantissa + 1 / 2) * 2 ^ x.exponent

theorem cast_pow10 (k : ℕ) : (pow10 k : ℚ) = 10 ^ k := Nat.cast_pow 10 k

theorem cast_up (x : Dyadic) : (x.up : ℚ) = 2 ^ x.exponent.toNat := Nat.cast_pow 2 _

theorem cast_down (x : Dyadic) : (x.down : ℚ) = 2 ^ (-x.exponent).toNat := Nat.cast_pow 2 _

theorem quarters_eq (x : Dyadic) (k : ℕ) (t : ℤ) : (k / 4 * 2 ^ x.exponent : ℚ) =
    (k * (x.up * pow10 (-t).toNat) : ℕ) / (4 * x.down * pow10 (-t).toNat : ℕ) := by
  rw [zpow_eq_div (by norm_num)]
  push_cast
  rw [cast_up, cast_down, cast_pow10]
  field_simp

theorem scaled_eq (x : Dyadic) (c : ℕ) (t : ℤ) : (c * 10 ^ t : ℚ) =
    (c * pow10 t.toNat * 4 * x.down : ℕ) / (4 * x.down * pow10 (-t).toNat : ℕ) := by
  rw [zpow_eq_div (by norm_num)]
  push_cast
  rw [cast_down, cast_pow10, cast_pow10]
  field_simp

theorem readsAs_iff (hx : x.mantissa ≠ 0) : x.ReadsAs c t ↔
    if x.mantissa % 2 = 0 then x.below ≤ c * 10 ^ t ∧ c * 10 ^ t ≤ x.above
    else x.below < c * 10 ^ t ∧ c * 10 ^ t < x.above := by
  have hbelow : x.below = ((4 * x.mantissa - x.gapBelow : ℕ) : ℚ) / 4 * 2 ^ x.exponent := by
    have := x.gapBelow_le
    rw [below, Nat.cast_sub (by omega)]
    push_cast
    ring
  have habove : x.above = ((4 * x.mantissa + 2 : ℕ) : ℚ) / 4 * 2 ^ x.exponent := by
    rw [above]
    push_cast
    ring
  have hpos : (0 : ℚ) < (4 * x.down * pow10 (-t).toNat : ℕ) := by
    exact_mod_cast Nat.mul_pos (Nat.mul_pos (by decide) (Nat.two_pow_pos _))
      (Nat.pow_pos (by decide))
  rw [hbelow, habove, quarters_eq x _ t, quarters_eq x _ t, scaled_eq x c t,
    div_le_div_iff_of_pos_right hpos, div_le_div_iff_of_pos_right hpos,
    div_lt_div_iff_of_pos_right hpos, div_lt_div_iff_of_pos_right hpos, Nat.cast_le, Nat.cast_le,
    Nat.cast_lt, Nat.cast_lt]
  rfl

theorem ReadsAs.bounds (h : x.ReadsAs c t) (hx : x.mantissa ≠ 0) :
    x.below ≤ c * 10 ^ t ∧ c * 10 ^ t ≤ x.above ∧
      (x.mantissa % 2 = 1 → x.below < c * 10 ^ t ∧ c * 10 ^ t < x.above) := by
  rw [readsAs_iff hx] at h
  split_ifs at h with heven
  · exact ⟨h.1, h.2, fun hodd => by omega⟩
  · exact ⟨h.1.le, h.2.le, fun _ => h⟩

theorem sub_half_le_below (x : Dyadic) : (x.mantissa - 1 / 2) * 2 ^ x.exponent ≤ x.below := by
  have hgap : (x.gapBelow : ℚ) ≤ 2 := by exact_mod_cast x.gapBelow_le
  exact mul_le_mul_of_nonneg_right (by linarith) (two_zpow_pos _).le

/-- Only what lies below a power of two has another last place than the number it reads as. -/
theorem lastPlace_cases {y : ℚ} (hx : x.mantissa ≠ 0) (hcan : Canonical x.mantissa x.exponent)
    (hlow : x.below ≤ y) (hhigh : y ≤ x.above) :
    lastPlace y = x.exponent ∨
      x.mantissa = 2 ^ 52 ∧ -1074 < x.exponent ∧ y < 2 ^ 52 * 2 ^ x.exponent := by
  have hp := two_zpow_pos x.exponent
  have hge := x.sub_half_le_below.trans hlow
  have hleast := hcan.least_le
  have hpos : 0 < y := by
    have hone : (1 : ℚ) ≤ x.mantissa := by exact_mod_cast Nat.one_le_iff_ne_zero.2 hx
    have hhalf : (0 : ℚ) < (x.mantissa - 1 / 2) * 2 ^ x.exponent := mul_pos (by linarith) hp
    linarith
  have htop : y < 2 ^ (x.exponent + 53) := by
    have hlt : (x.mantissa + 1 : ℚ) ≤ 2 ^ 53 := by exact_mod_cast hcan.lt_pow
    rw [zpow_add₀ (by norm_num), mul_comm]
    calc y ≤ x.above := hhigh
      _ < 2 ^ (53 : ℤ) * 2 ^ x.exponent :=
          mul_lt_mul_of_pos_right (hlt.trans_lt' (by linarith)) hp
  have hlog : Int.log 2 y < x.exponent + 53 :=
    (Int.lt_zpow_iff_log_lt (b := 2) (by norm_num) hpos).1 (by exact_mod_cast htop)
  by_cases hplace : lastPlace y = x.exponent
  · exact .inl hplace
  have hfiner : Int.log 2 y < x.exponent + 52 ∧ -1074 < x.exponent := by
    rw [lastPlace] at hplace
    omega
  have hlt : y < 2 ^ 52 * 2 ^ x.exponent := by
    have hlt' : y < 2 ^ (x.exponent + 52) := by
      exact_mod_cast (Int.lt_zpow_iff_log_lt (b := 2) (by norm_num) hpos).2 hfiner.1
    rwa [zpow_add₀ (by norm_num), mul_comm] at hlt'
  refine .inr ⟨?_, hfiner.2, hlt⟩
  by_contra hne
  have hnext : (2 ^ 52 + 1 : ℚ) ≤ x.mantissa := by
    have hfull := hcan.full
    exact_mod_cast (by omega : 2 ^ 52 + 1 ≤ x.mantissa)
  have hbeyond : (2 : ℚ) ^ 52 * 2 ^ x.exponent ≤ (x.mantissa - 1 / 2) * 2 ^ x.exponent :=
    mul_le_mul_of_nonneg_right (by linarith) hp.le
  linarith

/-- A number reads as the one that it is rounded to. -/
theorem ReadsAs.nearest_eq (h : x.ReadsAs c t) (hx : x.mantissa ≠ 0)
    (hcan : Canonical x.mantissa x.exponent) :
    nearest (c * 10 ^ t) = x.mantissa * 2 ^ x.exponent := by
  obtain ⟨hlow, hhigh, htie⟩ := h.bounds hx
  have hsub := x.sub_half_le_below
  rcases lastPlace_cases hx hcan hlow hhigh with hplace | ⟨hpower, hleast, hlt⟩
  · refine Nearest.nearest_eq (Nat.pos_of_ne_zero hx) hplace (hsub.trans hlow) hhigh fun hodd => ?_
    exact ⟨hsub.trans_lt (htie hodd).1, (htie hodd).2⟩
  · have hgap : x.gapBelow = 1 := if_pos ⟨hpower, hleast⟩
    rw [below, hgap, hpower] at hlow
    rw [hpower]
    push_cast at hlow ⊢
    exact nearest_eq_of_lt_power hleast hlow hlt

theorem cast_scaled_le (x : Dyadic) (k : ℕ) :
    ((x.mantissa * x.up * pow10 k / x.down : ℕ) : ℚ) ≤ x.mantissa * 2 ^ x.exponent * 10 ^ k := by
  refine Nat.cast_div_le.trans_eq ?_
  rw [zpow_eq_div (by norm_num) x.exponent]
  push_cast
  rw [cast_up, cast_down, cast_pow10]
  ring

theorem pow_point_le (hx : x.mantissa ≠ 0) (hleast : -1074 ≤ x.exponent) :
    (10 : ℚ) ^ (x.point - 1) ≤ x.mantissa * 2 ^ x.exponent := by
  have hscaled := x.cast_scaled_le 400
  have hne : x.mantissa * x.up * pow10 400 / x.down ≠ 0 := by
    have hdown : x.down ≤ pow10 400 :=
      calc x.down ≤ 2 ^ 1074 := Nat.pow_le_pow_right (by decide) (by omega)
        _ ≤ pow10 400 := by decide +kernel
    have hle : pow10 400 ≤ x.mantissa * x.up * pow10 400 :=
      Nat.le_mul_of_pos_left _ (Nat.mul_pos (Nat.pos_of_ne_zero hx) x.up_pos)
    exact (Nat.div_pos (hdown.trans hle) (Nat.two_pow_pos _)).ne'
  rw [point]
  generalize x.mantissa * x.up * pow10 400 / x.down = n at hscaled hne
  have hdigits := Literal.pow_le_natOfDigits (all_isDigit_digitsOfNat n) (head?_digitsOfNat hne)
  have hlength : 0 < (digitsOfNat n).length := List.length_pos_of_ne_nil (digitsOfNat_ne_nil n)
  have hcast : ((10 : ℚ) ^ ((digitsOfNat n).length - 1)) ≤ n := by
    rw [natOfDigits_digitsOfNat] at hdigits
    exact_mod_cast hdigits
  have hpower : ((digitsOfNat n).length : ℤ) - 400 - 1 =
      ((digitsOfNat n).length - 1 : ℕ) - (400 : ℕ) := by omega
  rw [hpower, zpow_sub₀ (by norm_num), zpow_natCast, zpow_natCast,
    div_le_iff₀ (pow_pos (by norm_num) _)]
  exact hcast.trans hscaled

theorem readsAs_of_near (hx : x.mantissa ≠ 0) (hlt : x.mantissa < 2 ^ 53)
    (hplace : (10 : ℚ) ^ (t + 16) ≤ x.mantissa * 2 ^ x.exponent)
    (hnear : |(c * 10 ^ t - x.mantissa * 2 ^ x.exponent : ℚ)| ≤ 10 ^ t / 2) : x.ReadsAs c t := by
  have hp := two_zpow_pos x.exponent
  have hstep : (10 : ℚ) ^ t / 2 < x.gapBelow / 4 * 2 ^ x.exponent := by
    rw [zpow_add₀ (by norm_num)] at hplace
    have hm : (x.mantissa / 10 ^ 16 / 2 : ℚ) < x.gapBelow / 4 := by
      rw [gapBelow]
      split_ifs with hpower
      · rw [hpower.1, pow2]
        norm_num
      · have hmlt : (x.mantissa : ℚ) < 2 ^ 53 := by exact_mod_cast hlt
        push_cast
        linarith
    calc (10 : ℚ) ^ t / 2 ≤ x.mantissa / 10 ^ 16 / 2 * 2 ^ x.exponent := by
          norm_num at hplace ⊢
          linarith
      _ < x.gapBelow / 4 * 2 ^ x.exponent := mul_lt_mul_of_pos_right hm hp
  have hgap : (x.gapBelow / 4 : ℚ) * 2 ^ x.exponent ≤ 1 / 2 * 2 ^ x.exponent := by
    have hle : (x.gapBelow : ℚ) ≤ 2 := by exact_mod_cast x.gapBelow_le
    exact mul_le_mul_of_nonneg_right (by linarith) hp.le
  obtain ⟨hlow, hhigh⟩ := abs_le.1 hnear
  have hbelow : x.below < c * 10 ^ t := by
    rw [below, sub_mul]
    linarith
  have habove : c * 10 ^ t < x.above := by
    rw [above, add_mul]
    linarith
  rw [readsAs_iff hx]
  split_ifs
  · exact ⟨hbelow.le, habove.le⟩
  · exact ⟨hbelow, habove⟩

theorem exists_onGrid? (hx : x.mantissa ≠ 0) (hlt : x.mantissa < 2 ^ 53)
    (hplace : (10 : ℚ) ^ (t + 16) ≤ x.mantissa * 2 ^ x.exponent) : ∃ c, x.onGrid? t = some c := by
  have hp : (0 : ℚ) < 10 ^ t := zpow_pos (by norm_num) t
  generalize hc : x.mantissa * x.up * pow10 (-t).toNat / (x.down * pow10 t.toNat) = c
  have hreads : x.ReadsAs c t ∨ x.ReadsAs (c + 1) t := by
    have hquotient : (x.mantissa * 2 ^ x.exponent / 10 ^ t : ℚ) =
        (x.mantissa * x.up * pow10 (-t).toNat : ℕ) / (x.down * pow10 t.toNat : ℕ) := by
      rw [zpow_eq_div (by norm_num) x.exponent, zpow_eq_div (by norm_num) t]
      push_cast
      rw [cast_up, cast_down, cast_pow10, cast_pow10]
      field_simp
    have hfloor : ⌊(x.mantissa * 2 ^ x.exponent / 10 ^ t : ℚ)⌋₊ = c := by
      rw [hquotient, Nat.floor_div_eq_div, hc]
    have hlow : (c * 10 ^ t : ℚ) ≤ x.mantissa * 2 ^ x.exponent := by
      rw [← le_div_iff₀ hp, ← hfloor]
      exact Nat.floor_le (div_nonneg (mul_nonneg (Nat.cast_nonneg _) (two_zpow_pos _).le) hp.le)
    have hhigh : (x.mantissa * 2 ^ x.exponent : ℚ) < (c + 1) * 10 ^ t := by
      rw [← div_lt_iff₀ hp, ← hfloor]
      exact Nat.lt_floor_add_one _
    rcases le_total (x.mantissa * 2 ^ x.exponent - c * 10 ^ t : ℚ) (10 ^ t / 2) with hnear | hfar
    · refine .inl (readsAs_of_near hx hlt hplace (abs_le.2 ⟨?_, ?_⟩)) <;> linarith
    · refine .inr (readsAs_of_near hx hlt hplace (abs_le.2 ⟨?_, ?_⟩)) <;> push_cast <;> linarith
  rw [onGrid?, hc]
  rcases hreads with h | h
  · rw [decide_eq_true h]
    cases decide (x.ReadsAs (c + 1) t) <;> exact ⟨_, rfl⟩
  · rw [decide_eq_true h]
    cases decide (x.ReadsAs c t) <;> exact ⟨_, rfl⟩

theorem exists_shortest? (hx : x.mantissa ≠ 0) (hcan : Canonical x.mantissa x.exponent) :
    ∃ found, x.shortest? = some found := by
  rw [← Option.isSome_iff_exists, Option.isSome_iff_ne_none]
  intro hnone
  have hlast := List.findSome?_eq_none_iff.1 hnone 16 (by simp)
  have hplace : (10 : ℚ) ^ (x.point - (16 + 1) + 16) ≤ x.mantissa * 2 ^ x.exponent := by
    rw [show x.point - (16 + 1) + 16 = x.point - 1 by ring]
    exact pow_point_le hx hcan.least_le
  obtain ⟨c, hc⟩ := exists_onGrid? hx hcan.lt_pow hplace
  rw [Option.map_eq_none_iff] at hlast
  cases hlast.symm.trans hc

theorem literal_eq (hx : x.mantissa ≠ 0) (hcan : Canonical x.mantissa x.exponent) :
    ∃ c t, x.ReadsAs c t ∧ x.literal = .ofDigits x.negative
      ((digitsOfNat c).dropEndWhile (· == '0')) (t + (digitsOfNat c).length) := by
  obtain ⟨⟨digits, point⟩, hfound⟩ := exists_shortest? hx hcan
  obtain ⟨c, t, hreads, rfl, rfl⟩ := exists_of_shortest? hfound
  exact ⟨c, t, hreads, by rw [literal, if_neg hx, hfound, Option.getD_some]⟩

theorem nearestSigned_value_literal (hcan : Canonical x.mantissa x.exponent) :
    nearestSigned x.literal.value = x.value := by
  by_cases hx : x.mantissa = 0
  · have hzero : x.literal.value = 0 := by
      rw [literal, if_pos hx, Literal.value]
      exact mul_eq_zero_of_left (mul_zero _) _
    rw [hzero, nearestSigned_of_nonneg le_rfl, nearest_zero, value, hx, Nat.cast_zero, zero_mul,
      mul_zero]
  obtain ⟨c, t, hreads, hliteral⟩ := literal_eq hx hcan
  have hnonneg : (0 : ℚ) ≤ c * 10 ^ t :=
    mul_nonneg (Nat.cast_nonneg c) (zpow_pos (by norm_num) t).le
  have hnearest := hreads.nearest_eq hx hcan
  rw [hliteral, Literal.value_ofDigits_shortest x.negative (hreads.ne_zero hx), value, ← hnearest]
  cases x.negative
  · rw [if_neg (by decide), one_mul, one_mul, nearestSigned_of_nonneg hnonneg]
  · rw [if_pos rfl, neg_one_mul, neg_one_mul, nearestSigned_neg hnonneg]

end Dyadic

/-- Every finite double has a literal, which JSON has too, and it denotes a number that is rounded
to the double. -/
theorem exists_literal? {s : Float} (h : s.isFinite = true) :
    ∃ l, Numeral.literal? s = some l ∧ l.isWritten = true ∧ Nearest.round l.value = val s := by
  obtain ⟨d, hd, hcan, -, hvalue⟩ := Extended.exists_finite h
  obtain ⟨-, hlow, hhigh⟩ := isFinite_iff.1 h
  refine ⟨d.literal, ?_, d.isWritten_literal, ?_⟩
  · simp only [Numeral.literal?]
    rw [hd]
  · rw [Nearest.round, Dyadic.nearestSigned_value_literal hcan, hvalue, min_eq_right hhigh.le,
      max_eq_right hlow.le]

end Emend
