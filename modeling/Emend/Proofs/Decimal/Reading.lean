import Emend.Proofs.Decimal.Double

namespace Emend

open Double Nearest Json.Reader

namespace Double

open Float.Model Float.Model.UnpackedFloat

/-- The number is the natural number, with its powers of two on whichever side they are whole. -/
def IsWhole (n : ℕ) : UnpackedFloat → Prop
  | .finite .positive m e _ => m * 2 ^ e.toNat = n * 2 ^ (-e).toNat
  | _ => False

instance (n : ℕ) (u : UnpackedFloat) : Decidable (IsWhole n u) := by
  unfold IsWhole
  split <;> infer_instance

theorem IsWhole.value_eq {n : ℕ} {u : UnpackedFloat} (h : IsWhole n u) :
    u.isFinite = true ∧ value u = n := by
  cases u with
  | infinity s => cases h
  | notANumber => cases h
  | zero s => cases h
  | finite s m e hm =>
      cases s with
      | negative => cases h
      | positive =>
          refine ⟨rfl, ?_⟩
          have hq : (m * 2 ^ e.toNat : ℚ) = n * 2 ^ (-e).toNat := by exact_mod_cast h
          rw [value, signed, zpow_eq_div (by norm_num) e, ← mul_div_assoc, hq, mul_div_assoc,
            div_self (by positivity), mul_one]

theorem isWhole_table : ∀ k : Fin 23,
    IsWhole (10 ^ k.val)
      (unpacked (getElem Float.exactlyRepresentablePowersOfTen k.val k.isLt)) := by
  decide +kernel

theorem isInf_eq_false {a : Float} (h : IsFinite a) : a.isInf = false := by
  show (unpacked a).isInf = false
  rw [IsFinite] at h
  cases hu : unpacked a with
  | infinity s =>
      rw [hu] at h
      cases h
  | notANumber => rfl
  | zero s => rfl
  | finite s m e hm => rfl

def largest : ℚ := (2 ^ 53 - 1) * 2 ^ (971 : ℤ)

/-- The largest value that is in range even if its factors are rounded first. -/
def roundingRoom : ℚ := (2 ^ 53 - 7 / 2) * 2 ^ (971 : ℤ)

theorem roundingRoom_le : roundingRoom ≤ largest :=
  mul_le_mul_of_nonneg_right (by norm_num) (two_zpow_pos 971).le

theorem roundingRoom_mul_le : roundingRoom * (1 + 2 ^ (-53 : ℤ)) ^ 2 ≤ largest := by
  rw [roundingRoom, largest, mul_right_comm]
  exact mul_le_mul_of_nonneg_right (by norm_num) (two_zpow_pos 971).le

theorem largest_eq : largest = ((2 ^ 53 - 1) * 2 ^ 971 : ℕ) := by
  rw [largest, Nat.cast_mul, Nat.cast_pow, Nat.cast_ofNat]
  congr 1
  norm_num

theorem largest_lt : largest < 10 ^ 309 := by
  have hpow : (2 ^ 53 - 1) * 2 ^ 971 < 10 ^ 309 := by decide +kernel
  rw [largest_eq]
  exact_mod_cast hpow

theorem pow_le_largest {k : Nat} (hk : k ≤ 308) : (10 ^ k : ℚ) ≤ largest := by
  have hpow : 10 ^ 308 ≤ (2 ^ 53 - 1) * 2 ^ 971 := by decide +kernel
  calc (10 ^ k : ℚ) ≤ 10 ^ 308 := pow_le_pow_right₀ (by norm_num) hk
    _ ≤ largest := by
        rw [largest_eq]
        exact_mod_cast hpow

theorem exists_largest : ∃ a : Float, IsFinite a ∧ val a = largest := by
  have hrange : InRange (.finite .positive (2 ^ 53 - 1) 971 (by decide)) :=
    ⟨⟨by decide, by decide, .inl (by decide)⟩, by decide⟩
  have hunpack := unpack_pack hrange
  refine ⟨.ofModel (.pack _), congrArg Float.Model.UnpackedFloat.isFinite hunpack, ?_⟩
  refine (congrArg value hunpack).trans ?_
  rw [value, signed, largest]
  congr 1
  norm_num

theorem isFinite_of_rounds {a : Float} {x : ℚ} (h : Rounds a x) (h0 : 0 ≤ x) (hx : x ≤ largest) :
    IsFinite a := by
  obtain ⟨top, hfin, hval⟩ := exists_largest
  have hlow : 0 ≤ val a := h.2 ▸ Nearest.round_nonneg h0
  have hhigh : val a ≤ val top := by
    rw [h.2, ← hfin.round_val]
    exact round_mono (hval ▸ hx)
  exact isFinite_iff.2 ⟨h.1, by linarith [bound_pos], hhigh.trans_lt (isFinite_iff.1 hfin).2.2⟩

theorem isFinite_mul {a b : Float} {m n : ℕ} (ha : Rounds a m) (hb : Rounds b n) (hfa : IsFinite a)
    (hfb : IsFinite b) (hroom : (m * n : ℚ) ≤ roundingRoom) : IsFinite (a * b) := by
  have hva : 0 ≤ val a := ha.2 ▸ Nearest.round_nonneg (Nat.cast_nonneg m)
  have hvb : 0 ≤ val b := hb.2 ▸ Nearest.round_nonneg (Nat.cast_nonneg n)
  refine isFinite_of_rounds (rounds_mul hfa hfb) (mul_nonneg hva hvb) ?_
  calc val a * val b ≤ m * (1 + 2 ^ (-53 : ℤ)) * (n * (1 + 2 ^ (-53 : ℤ))) :=
        mul_le_mul (ha.2 ▸ round_natCast_le m) (hb.2 ▸ round_natCast_le n) hvb (by positivity)
    _ = m * n * (1 + 2 ^ (-53 : ℤ)) ^ 2 := by ring
    _ ≤ roundingRoom * (1 + 2 ^ (-53 : ℤ)) ^ 2 :=
        mul_le_mul_of_nonneg_right hroom (by positivity)
    _ ≤ largest := roundingRoom_mul_le

end Double

namespace Literal

theorem rounds_powerOfTen {k : Nat} (hk : k ≤ 308) : Rounds (powerOfTen k) (10 ^ k) := by
  rw [powerOfTen, Float.ofScientific]
  by_cases h : (1 : ℕ) < 2 ^ 53 ∧ k ≤ 22
  · have htable := isWhole_table ⟨k, by omega⟩
    have hone : Rounds (1 : ℕ).toUInt64.toFloat 1 := by
      simpa using rounds_toFloat (1 : ℕ).toUInt64
    have hmul := rounds_mul (a := (1 : ℕ).toUInt64.toFloat) rfl htable.value_eq.1
    rw [hone.2, round_one, one_mul, val, htable.value_eq.2, Nat.cast_pow, Nat.cast_ofNat] at hmul
    rw [dif_pos h]
    exact hmul
  · rw [dif_neg h]
    have hround := isRounded_ofScientific (n := 1) (k := k) one_pos (by omega)
    rw [Nat.cast_one, one_mul] at hround
    exact rounds_pack hround

theorem exists_multiplyByPower? {s n : Nat} (hroom : (s * 10 ^ n : ℚ) ≤ roundingRoom) :
    ∃ y, multiplyByPower? (Float.ofNat s) n = some y := by
  have hs : Rounds (Float.ofNat s) s := rounds_ofNat s
  have hpow : (1 : ℚ) ≤ 10 ^ n := one_le_pow₀ (by norm_num)
  rw [multiplyByPower?]
  by_cases hn : n ≤ 308
  · have hle : (s : ℚ) ≤ s * 10 ^ n := le_mul_of_one_le_right (Nat.cast_nonneg s) hpow
    have hten := rounds_powerOfTen hn
    have hfs := isFinite_of_rounds hs (Nat.cast_nonneg s) (hle.trans (hroom.trans roundingRoom_le))
    have hften := isFinite_of_rounds hten (by linarith) (pow_le_largest hn)
    have hfin : IsFinite (Float.ofNat s * powerOfTen n) :=
      isFinite_mul (m := s) (n := 10 ^ n) hs (by exact_mod_cast hten) hfs hften
        (by exact_mod_cast hroom)
    rw [if_pos hn]
    exact ⟨_, if_neg (by simpa using isInf_eq_false hfin)⟩
  · obtain rfl : s = 0 := by
      by_contra hne
      have hone : (1 : ℚ) ≤ s := by exact_mod_cast Nat.one_le_iff_ne_zero.2 hne
      have hle : (10 : ℚ) ^ n ≤ s * 10 ^ n := le_mul_of_one_le_left (by linarith only [hpow]) hone
      have hbig : (10 : ℚ) ^ 309 ≤ 10 ^ n := pow_le_pow_right₀ (by norm_num) (by omega)
      exact absurd (hbig.trans (hle.trans (hroom.trans roundingRoom_le))) (not_le.2 largest_lt)
    exact ⟨_, by rw [if_neg hn, if_pos (by rfl)]⟩

theorem exists_scale? {s : Nat} {e : Int} (hroom : (s * 10 ^ e : ℚ) ≤ roundingRoom) :
    ∃ y, scale? s e = some y := by
  rw [scale?]
  split_ifs with he
  · refine exists_multiplyByPower? ?_
    rwa [← zpow_natCast, Int.toNat_of_nonneg he]
  · exact ⟨_, rfl⟩

theorem gatherWhole_eq {n : Nat} {ds : Text} (h : followedBy n ds < word) :
    gatherWhole n ds = (followedBy n ds, 0) := by
  induction ds generalizing n with
  | nil => rfl
  | cons d ds ih =>
      rw [gatherWhole, if_pos ((self_le_followedBy _ ds).trans_lt h)]
      exact ih h

theorem gatherWhole_natOfDigits {ds : Text} (h : natOfDigits ds < word) :
    gatherWhole 0 ds = (natOfDigits ds, 0) := gatherWhole_eq h

theorem gatherFraction_spec (n : Nat) (ds : Text) :
    ∃ k, ds.length = (gatherFraction n ds).2 + k ∧
      (gatherFraction n ds).1 * 10 ^ k ≤ followedBy n ds := by
  induction ds generalizing n with
  | nil => exact ⟨0, rfl, (Nat.mul_one n).le⟩
  | cons d ds ih =>
      rw [gatherFraction]
      split_ifs with hfits
      · obtain ⟨k, hlength, hle⟩ := ih (10 * n + digitValue d)
        refine ⟨k, ?_, hle⟩
        rw [List.length_cons, hlength]
        exact Nat.add_right_comm _ _ _
      · exact ⟨_, (Nat.zero_add _).symm, le_followedBy n (d :: ds)⟩

/-- What is left out of the significand only brings it closer to zero. -/
theorem significand_le_abs_value {l : Literal} {significand taken : Nat}
    (h : gatherFraction (natOfDigits l.whole) l.fraction = (significand, taken)) :
    (significand * 10 ^ (l.power - taken) : ℚ) ≤ |l.value| := by
  obtain ⟨k, hlength, hle⟩ := gatherFraction_spec (natOfDigits l.whole) l.fraction
  rw [h] at hlength hle
  rw [← natOfDigits_append] at hle
  have hcast : (significand * 10 ^ k : ℚ) ≤ natOfDigits (l.whole ++ l.fraction) := by
    exact_mod_cast hle
  have hpower : l.power - taken = k + (l.power - l.fraction.length) := by
    rw [hlength]
    push_cast
    ring
  rw [abs_value, hpower, zpow_add₀ (by norm_num), zpow_natCast, ← mul_assoc]
  exact mul_le_mul_of_nonneg_right hcast (zpow_pos (by norm_num) _).le

theorem exists_magnitude? {l : Literal} (hwhole : natOfDigits l.whole < word)
    (hexponent : ∀ digits, l.exponent = some (false, digits) → natOfDigits digits ≤ exponentLimit)
    (hroom : |l.value| ≤ roundingRoom) : ∃ y, l.magnitude? = some y := by
  cases hgather : gatherFraction (natOfDigits l.whole) l.fraction with
  | mk significand taken =>
      have hscaled := (significand_le_abs_value hgather).trans hroom
      rw [power] at hscaled
      rw [magnitude?, gatherWhole_natOfDigits hwhole]
      dsimp only
      rw [hgather]
      cases hexp : l.exponent with
      | none =>
          rw [hexp] at hscaled
          exact exists_scale? hscaled
      | some e =>
          obtain ⟨negative, digits⟩ := e
          rw [hexp] at hscaled
          cases negative with
          | true =>
              have hstart : (0 : ℕ) - (taken : ℤ) - natOfDigits digits =
                  -natOfDigits digits - taken := by
                push_cast
                ring
              dsimp only
              by_cases hlimit : exponentLimit < natOfDigits digits
              · exact ⟨0, by rw [if_pos hlimit, Bool.true_or, if_pos rfl]⟩
              · rw [if_neg hlimit, if_pos rfl, hstart]
                exact exists_scale? hscaled
          | false =>
              have hstart : (0 : ℕ) - (taken : ℤ) + natOfDigits digits =
                  natOfDigits digits - taken := by
                push_cast
                ring
              dsimp only
              rw [if_neg (not_lt.2 (hexponent digits hexp)), if_neg (by decide), hstart]
              exact exists_scale? hscaled

theorem exists_double? {l : Literal} (hwhole : natOfDigits l.whole < word)
    (hexponent : ∀ digits, l.exponent = some (false, digits) → natOfDigits digits ≤ exponentLimit)
    (hroom : |l.value| ≤ roundingRoom) : ∃ y, l.double? = some y := by
  obtain ⟨y, hy⟩ := exists_magnitude? hwhole hexponent hroom
  exact ⟨_, by rw [double?, hy]; rfl⟩

theorem length_whole_ofDigits_le (negative : Bool) (digits : Text) (point : ℤ) :
    (ofDigits negative digits point).whole.length ≤ 16 := by
  rw [ofDigits]
  split_ifs with hsmall hmiddle
  · exact Nat.le_of_ble_eq_true rfl
  · dsimp only
    rw [List.length_append, List.length_replicate, List.length_take]
    omega
  · dsimp only
    rw [List.length_take]
    omega

theorem point_le {digits : Text} {point : ℤ} (hall : digits.all isDigit = true)
    (hhead : digits.head?.any (· != '0') = true)
    (hroom : (natOfDigits digits * 10 ^ (point - digits.length) : ℚ) ≤ Double.largest) :
    point ≤ 309 := by
  have hlength : 0 < digits.length := by
    cases digits with
    | nil => cases hhead
    | cons d ds => exact Nat.succ_pos _
  have hlow : (10 : ℚ) ^ (point - 1) ≤ natOfDigits digits * 10 ^ (point - digits.length) := by
    have hsplit : point - 1 = (digits.length - 1 : ℕ) + (point - digits.length) := by omega
    have hdigits : ((10 ^ (digits.length - 1) : ℕ) : ℚ) ≤ natOfDigits digits := by
      exact_mod_cast pow_le_natOfDigits hall hhead
    rw [hsplit, zpow_add₀ (by norm_num), zpow_natCast]
    rw [Nat.cast_pow, Nat.cast_ofNat] at hdigits
    exact mul_le_mul_of_nonneg_right hdigits (zpow_pos (by norm_num) _).le
  have hlt : (10 : ℚ) ^ (point - 1) < 10 ^ (309 : ℤ) :=
    (hlow.trans hroom).trans_lt Double.largest_lt
  have := (zpow_lt_zpow_iff_right₀ (by norm_num)).1 hlt
  omega

theorem exists_double?_ofDigits (negative : Bool) {digits : Text} {point : ℤ}
    (hall : digits.all isDigit = true) (hhead : digits.head?.any (· != '0') = true)
    (hroom : (natOfDigits digits * 10 ^ (point - digits.length) : ℚ) ≤ Double.roundingRoom) :
    ∃ y, (ofDigits negative digits point).double? = some y := by
  have hne : digits ≠ [] := by
    rintro rfl
    cases hhead
  refine exists_double? ?_ ?_ (by rwa [abs_value_ofDigits negative hne])
  · have hdigits := all_isDigit_whole (isWritten_ofDigits negative point hall hhead)
    calc natOfDigits (ofDigits negative digits point).whole
        < 10 ^ (ofDigits negative digits point).whole.length := natOfDigits_lt hdigits
      _ ≤ 10 ^ 16 :=
          Nat.pow_le_pow_right (by decide) (length_whole_ofDigits_le negative digits point)
      _ < word := by decide
  · intro ds hds
    have hpoint := point_le hall hhead (hroom.trans Double.roundingRoom_le)
    have hlimit : exponentLimit = 2147483647 := rfl
    rw [ofDigits] at hds
    split_ifs at hds with hsmall hmiddle
    dsimp only at hds
    obtain ⟨hsign, rfl⟩ := Prod.mk.inj (Option.some.inj hds)
    rw [decide_eq_false_iff_not] at hsign
    rw [natOfDigits_digitsOfNat]
    omega

theorem exists_double?_ofNat {n : Nat} (h : n < word) : ∃ y, (ofNat n).double? = some y := by
  have hwhole : natOfDigits (ofNat n).whole = n := natOfDigits_digitsOfNat n
  have hvalue : |(ofNat n).value| = n := by
    rw [abs_value, ofNat, power_plain, List.append_nil, natOfDigits_digitsOfNat]
    simp
  refine exists_double? (hwhole.symm ▸ h) (fun _ hds => by cases hds) ?_
  have hn : (n : ℚ) ≤ 2 ^ 64 := by exact_mod_cast h.le
  calc |(ofNat n).value| ≤ 1 * 2 ^ (64 : ℤ) := by
        rw [hvalue, one_mul]
        exact_mod_cast hn
    _ ≤ Double.roundingRoom :=
        mul_le_mul (by norm_num) (zpow_le_zpow_right₀ (by norm_num) (by norm_num))
          (two_zpow_pos 64).le (by norm_num)

end Literal

namespace Dyadic

variable {x : Dyadic}

/-- A finite double lies half a step below the room for rounding, but for the last three. -/
theorem above_le (hm : x.mantissa < 2 ^ 53) (he : x.exponent ≤ 971)
    (h : x.exponent = 971 → x.mantissa < 2 ^ 53 - 3) :
    x.above ≤ Double.roundingRoom := by
  rcases he.eq_or_lt with heq | hlt
  · have hbelow := h heq
    have hle : (x.mantissa + 4 : ℚ) ≤ 2 ^ 53 := by
      exact_mod_cast (by omega : x.mantissa + 4 ≤ 2 ^ 53)
    rw [above, heq]
    exact mul_le_mul_of_nonneg_right (by linarith) (two_zpow_pos 971).le
  · have hle : (x.mantissa + 1 : ℚ) ≤ 2 ^ 53 := by exact_mod_cast hm
    calc x.above ≤ 2 ^ 53 * 2 ^ (970 : ℤ) :=
          mul_le_mul (by linarith)
            (zpow_le_zpow_right₀ (by norm_num) (by omega)) (two_zpow_pos _).le (by norm_num)
      _ = 2 ^ 52 * 2 ^ (971 : ℤ) := by
          rw [show (971 : ℤ) = 970 + 1 from rfl, zpow_add_one₀ (by norm_num)]
          ring
      _ ≤ Double.roundingRoom := mul_le_mul_of_nonneg_right (by norm_num) (two_zpow_pos 971).le

/-- The last three doubles, whose literals leave less room than two roundings might take. -/
theorem isSome_double?_top : ∀ (negative : Bool) (k : Fin 3),
    (⟨negative, 2 ^ 53 - 1 - k, 971⟩ : Dyadic).literal.double?.isSome = true := by
  decide +kernel

/-- The reader accepts the literal of every finite double. -/
theorem exists_double?_literal (hcan : Canonical x.mantissa x.exponent) (he : x.exponent ≤ 971) :
    ∃ y, x.literal.double? = some y := by
  by_cases hzero : x.mantissa = 0
  · rw [literal, if_pos hzero]
    exact ⟨_, rfl⟩
  by_cases htop : x.exponent = 971 ∧ 2 ^ 53 - 3 ≤ x.mantissa
  · have hlt := hcan.lt_pow
    obtain ⟨negative, m, e⟩ := x
    obtain ⟨rfl, hlow⟩ := htop
    dsimp only at hlt hlow
    obtain ⟨k, rfl⟩ : ∃ k : Fin 3, m = 2 ^ 53 - 1 - k :=
      ⟨⟨2 ^ 53 - 1 - m, by omega⟩, by dsimp only; omega⟩
    exact Option.isSome_iff_exists.1 (isSome_double?_top negative k)
  · obtain ⟨c, t, hreads, hliteral⟩ := literal_eq hzero hcan
    obtain ⟨hall, hhead⟩ := Literal.digits_dropEndWhile (hreads.ne_zero hzero)
    rw [hliteral]
    refine Literal.exists_double?_ofDigits x.negative hall hhead ?_
    rw [Literal.natOfDigits_shortest]
    exact (hreads.bounds hzero).2.1.trans (above_le hcan.lt_pow he (by omega))

end Dyadic

theorem exists_double?_of_literal? {s : Float} {l : Literal} (h : s.isFinite = true)
    (hl : Numeral.literal? s = some l) : ∃ y, l.double? = some y := by
  obtain ⟨d, hd, hcan, he, -⟩ := Extended.exists_finite h
  simp only [Numeral.literal?] at hl
  rw [hd] at hl
  obtain rfl := Option.some.inj hl
  exact Dyadic.exists_double?_literal hcan he

end Emend
