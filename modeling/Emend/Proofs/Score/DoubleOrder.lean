import Emend.Proofs.Score.DoubleValue
import Emend.Score

namespace Emend.Double

open Float.Model Float.Model.UnpackedFloat Nearest

theorem Canonical.compare_eq {m₁ m₂ : ℕ} {e₁ e₂ : ℤ} (h₁ : Canonical m₁ e₁) (h₂ : Canonical m₂ e₂) :
    (compare e₁ e₂).then (compare m₁ m₂) = compare (m₁ * 2 ^ e₁ : ℚ) (m₂ * 2 ^ e₂) := by
  rcases lt_trichotomy e₁ e₂ with he | rfl | he
  · rw [compare_lt_iff_lt.2 he, compare_lt_iff_lt.2 (h₁.lt_of_lt h₂ he)]
    rfl
  · rw [compare_eq_iff_eq.2 rfl, Ordering.then]
    rcases lt_trichotomy m₁ m₂ with hm | rfl | hm
    · rw [compare_lt_iff_lt.2 hm, compare_lt_iff_lt.2]
      exact mul_lt_mul_of_pos_right (by exact_mod_cast hm) (two_zpow_pos e₁)
    · rw [compare_eq_iff_eq.2 rfl, compare_eq_iff_eq.2 rfl]
    · rw [compare_gt_iff_gt.2 hm, compare_gt_iff_gt.2]
      exact mul_lt_mul_of_pos_right (by exact_mod_cast hm) (two_zpow_pos e₁)
  · rw [compare_gt_iff_gt.2 he, compare_gt_iff_gt.2 (h₂.lt_of_lt h₁ he)]
    rfl

theorem compare_neg_neg (x y : ℚ) : compare (-x) (-y) = (compare x y).swap := by
  rw [← (Std.OrientedCmp.eq_swap : compare y x = (compare x y).swap)]
  rcases lt_trichotomy x y with h | rfl | h
  · rw [compare_gt_iff_gt.2 (neg_lt_neg h), compare_gt_iff_gt.2 h]
  · rw [compare_eq_iff_eq.2 rfl, compare_eq_iff_eq.2 rfl]
  · rw [compare_lt_iff_lt.2 (neg_lt_neg h), compare_lt_iff_lt.2 h]

theorem compare_eq_none {u v : UnpackedFloat} (h : u = .notANumber ∨ v = .notANumber) :
    u.compare v = none := by
  rcases h with rfl | rfl
  · rfl
  · cases u with
    | infinity s => cases s <;> rfl
    | notANumber => rfl
    | zero s => rfl
    | finite s m e hm => cases s <;> rfl

theorem lt_eq_compare {x y : ℚ} (h : x < y) : some Ordering.lt = some (compare x y) := by
  rw [compare_lt_iff_lt.2 h]

theorem gt_eq_compare {x y : ℚ} (h : y < x) : some Ordering.gt = some (compare x y) := by
  rw [compare_gt_iff_gt.2 h]

theorem compare_infinity (s : Sign) {v : UnpackedFloat} (hv : InRange v) (hvn : v ≠ .notANumber) :
    (infinity s).compare v = some (compare (value (infinity s)) (value v)) := by
  have hb := bound_pos
  cases v with
  | notANumber => exact absurd rfl hvn
  | infinity t =>
      cases s <;> cases t
      · exact congrArg some (compare_eq_iff_eq.2 rfl).symm
      · exact lt_eq_compare (by simp only [value, signed]; linarith)
      · exact gt_eq_compare (by simp only [value, signed]; linarith)
      · exact congrArg some (compare_eq_iff_eq.2 rfl).symm
  | zero t =>
      cases s
      · exact lt_eq_compare (by simp only [value, signed]; linarith)
      · exact gt_eq_compare (by simp only [value, signed]; linarith)
  | finite t m e hm =>
      have hpos := magnitude_pos e hm
      have hbound := hv.1.lt_bound hv.2
      cases s <;> cases t
      · exact lt_eq_compare (by simp only [value, signed]; linarith)
      · exact lt_eq_compare (by simp only [value, signed]; linarith)
      · exact gt_eq_compare (by simp only [value, signed]; linarith)
      · exact gt_eq_compare (by simp only [value, signed]; linarith)

theorem compare_zero (s : Sign) {v : UnpackedFloat} (hvn : v ≠ .notANumber) :
    (zero s).compare v = some (compare (value (zero s)) (value v)) := by
  have hb := bound_pos
  cases v with
  | notANumber => exact absurd rfl hvn
  | infinity t =>
      cases t
      · exact gt_eq_compare (by simp only [value, signed]; linarith)
      · exact lt_eq_compare (by simp only [value, signed]; linarith)
  | zero t => exact congrArg some (compare_eq_iff_eq.2 rfl).symm
  | finite t m e hm =>
      have hpos := magnitude_pos e hm
      cases t
      · exact gt_eq_compare (by simp only [value, signed]; linarith)
      · exact lt_eq_compare (by simp only [value, signed]; linarith)

theorem compare_finite {s : Sign} {m : ℕ} {e : ℤ} {hm : 0 < m} {v : UnpackedFloat}
    (hu : InRange (finite s m e hm)) (hv : InRange v) (hvn : v ≠ .notANumber) :
    (finite s m e hm).compare v = some (compare (value (finite s m e hm)) (value v)) := by
  have hpos := magnitude_pos e hm
  have hbound := hu.1.lt_bound hu.2
  cases v with
  | notANumber => exact absurd rfl hvn
  | infinity t =>
      cases s <;> cases t
      · exact gt_eq_compare (by simp only [value, signed]; linarith)
      · exact lt_eq_compare (by simp only [value, signed]; linarith)
      · exact gt_eq_compare (by simp only [value, signed]; linarith)
      · exact lt_eq_compare (by simp only [value, signed]; linarith)
  | zero t =>
      cases s
      · exact lt_eq_compare (by simp only [value, signed]; linarith)
      · exact gt_eq_compare (by simp only [value, signed]; linarith)
  | finite t n k hn =>
      have hpos' := magnitude_pos k hn
      cases s <;> cases t
      · refine congrArg some ?_
        rw [value, value, signed, signed, compare_neg_neg, hu.1.compare_eq hv.1]
      · exact lt_eq_compare (by simp only [value, signed]; linarith)
      · exact gt_eq_compare (by simp only [value, signed]; linarith)
      · exact congrArg some (hu.1.compare_eq hv.1)

/-- The order of doubles is the order of their values. -/
theorem compare_eq_some {u v : UnpackedFloat} (hu : InRange u) (hv : InRange v)
    (hun : u ≠ .notANumber) (hvn : v ≠ .notANumber) :
    u.compare v = some (compare (value u) (value v)) := by
  cases u with
  | notANumber => exact absurd rfl hun
  | infinity s => exact compare_infinity s hv hvn
  | zero s => exact compare_zero s hvn
  | finite s m e hm => exact compare_finite hu hv hvn

theorem compare_eq_some_iff {u v : UnpackedFloat} (hu : InRange u) (hv : InRange v) {o : Ordering} :
    u.compare v = some o ↔
      u ≠ .notANumber ∧ v ≠ .notANumber ∧ compare (value u) (value v) = o := by
  by_cases h : u = .notANumber ∨ v = .notANumber
  · rw [compare_eq_none h]
    exact ⟨nofun, fun ⟨hun, hvn, _⟩ => absurd h (not_or_intro hun hvn)⟩
  · obtain ⟨hun, hvn⟩ := not_or.1 h
    rw [compare_eq_some hu hv hun hvn, Option.some.injEq]
    exact ⟨fun ho => ⟨hun, hvn, ho⟩, fun ho => ho.2.2⟩

theorem lt_iff {u v : UnpackedFloat} (hu : InRange u) (hv : InRange v) :
    u.lt v = true ↔ u ≠ .notANumber ∧ v ≠ .notANumber ∧ value u < value v := by
  rw [UnpackedFloat.lt, beq_iff_eq, compare_eq_some_iff hu hv, compare_lt_iff_lt]

theorem le_iff {u v : UnpackedFloat} (hu : InRange u) (hv : InRange v) :
    u.le v = true ↔ u ≠ .notANumber ∧ v ≠ .notANumber ∧ value u ≤ value v := by
  simp only [UnpackedFloat.le, Option.any_eq_true, compare_eq_some_iff hu hv]
  constructor
  · rintro ⟨o, ⟨hun, hvn, rfl⟩, ho⟩
    exact ⟨hun, hvn, compare_le_iff_le.1 (Ordering.isLE_iff_ne_gt.1 ho)⟩
  · rintro ⟨hun, hvn, hle⟩
    exact ⟨_, ⟨hun, hvn, rfl⟩, Ordering.isLE_iff_ne_gt.2 (compare_le_iff_le.2 hle)⟩

theorem beq_iff {u v : UnpackedFloat} (hu : InRange u) (hv : InRange v) :
    u.beq v = true ↔ u ≠ .notANumber ∧ v ≠ .notANumber ∧ value u = value v := by
  rw [UnpackedFloat.beq, beq_iff_eq, compare_eq_some_iff hu hv, compare_eq_iff_eq]

theorem Canonical.eq_of_eq {m₁ m₂ : ℕ} {e₁ e₂ : ℤ} (h₁ : Canonical m₁ e₁) (h₂ : Canonical m₂ e₂)
    (h : (m₁ * 2 ^ e₁ : ℚ) = m₂ * 2 ^ e₂) : m₁ = m₂ ∧ e₁ = e₂ := by
  rcases lt_trichotomy e₁ e₂ with he | rfl | he
  · exact absurd h (h₁.lt_of_lt h₂ he).ne
  · have hm : (m₁ : ℚ) = m₂ := mul_right_cancel₀ (two_zpow_pos e₁).ne' h
    exact ⟨by exact_mod_cast hm, rfl⟩
  · exact absurd h (h₂.lt_of_lt h₁ he).ne'

theorem eq_of_value_eq {u v : UnpackedFloat} (hu : InRange u) (hv : InRange v)
    (hun : u ≠ .notANumber) (hvn : v ≠ .notANumber) (hne : value v ≠ 0)
    (h : value u = value v) : u = v := by
  have hb := bound_pos
  cases v with
  | notANumber => exact absurd rfl hvn
  | zero t => exact absurd rfl hne
  | infinity t =>
      cases u with
      | notANumber => exact absurd rfl hun
      | zero s => exact absurd h.symm hne
      | infinity s =>
          cases s <;> cases t <;> simp only [value, signed] at h <;> first | rfl | linarith
      | finite s m e hm =>
          have hpos := magnitude_pos e hm
          have hlt := hu.1.lt_bound hu.2
          cases s <;> cases t <;> simp only [value, signed] at h <;> linarith
  | finite t n k hn =>
      have hpos := magnitude_pos k hn
      have hlt := hv.1.lt_bound hv.2
      cases u with
      | notANumber => exact absurd rfl hun
      | zero s => exact absurd h.symm hne
      | infinity s =>
          cases s <;> cases t <;> simp only [value, signed] at h <;> linarith
      | finite s m e hm =>
          have hpos' := magnitude_pos e hm
          have hmag : s = t ∧ (m * 2 ^ e : ℚ) = n * 2 ^ k := by
            cases s <;> cases t <;> simp only [value, signed] at h
            · exact ⟨rfl, neg_inj.1 h⟩
            · linarith
            · linarith
            · exact ⟨rfl, h⟩
          obtain ⟨rfl, hmag⟩ := hmag
          obtain ⟨rfl, rfl⟩ := hu.1.eq_of_eq hv.1 hmag
          rfl

/-- The value that the low 63 bits of a number give. -/
def magnitudeOf (k : ℕ) : ℚ :=
  if k / 2 ^ 52 = 0 then (k % 2 ^ 52 : ℕ) * 2 ^ (-1074 : ℤ)
  else (2 ^ 52 + k % 2 ^ 52 : ℕ) * 2 ^ ((k / 2 ^ 52 : ℕ) - 1075 : ℤ)

theorem magnitudeOf_lt (k : ℕ) : magnitudeOf k < 2 ^ ((k / 2 ^ 52 : ℕ) - 1022 : ℤ) := by
  have hlow := Nat.mod_lt k (Nat.two_pow_pos 52)
  rw [magnitudeOf]
  split_ifs with h
  · have hm : ((k % 2 ^ 52 : ℕ) : ℚ) < 2 ^ (52 : ℤ) := by exact_mod_cast hlow
    rw [h]
    calc ((k % 2 ^ 52 : ℕ) : ℚ) * 2 ^ (-1074 : ℤ) < 2 ^ (52 : ℤ) * 2 ^ (-1074 : ℤ) :=
          mul_lt_mul_of_pos_right hm (two_zpow_pos _)
      _ = 2 ^ ((0 : ℕ) - 1022 : ℤ) := by
          rw [← zpow_add₀ (by norm_num)]
          norm_num
  · have hm : ((2 ^ 52 + k % 2 ^ 52 : ℕ) : ℚ) < 2 ^ (53 : ℤ) := by
      exact_mod_cast (by omega : 2 ^ 52 + k % 2 ^ 52 < 2 ^ 53)
    calc ((2 ^ 52 + k % 2 ^ 52 : ℕ) : ℚ) * 2 ^ ((k / 2 ^ 52 : ℕ) - 1075 : ℤ)
        < 2 ^ (53 : ℤ) * 2 ^ ((k / 2 ^ 52 : ℕ) - 1075 : ℤ) :=
          mul_lt_mul_of_pos_right hm (two_zpow_pos _)
      _ = 2 ^ ((k / 2 ^ 52 : ℕ) - 1022 : ℤ) := by
          rw [← zpow_add₀ (by norm_num)]
          congr 1
          omega

theorem le_magnitudeOf {k : ℕ} (h : k / 2 ^ 52 ≠ 0) :
    2 ^ ((k / 2 ^ 52 : ℕ) - 1023 : ℤ) ≤ magnitudeOf k := by
  have hm : (2 : ℚ) ^ (52 : ℤ) ≤ (2 ^ 52 + k % 2 ^ 52 : ℕ) := by
    exact_mod_cast Nat.le_add_right (2 ^ 52) (k % 2 ^ 52)
  rw [magnitudeOf, if_neg h]
  calc (2 : ℚ) ^ ((k / 2 ^ 52 : ℕ) - 1023 : ℤ)
      = 2 ^ (52 : ℤ) * 2 ^ ((k / 2 ^ 52 : ℕ) - 1075 : ℤ) := by
        rw [← zpow_add₀ (by norm_num)]
        congr 1
        omega
    _ ≤ (2 ^ 52 + k % 2 ^ 52 : ℕ) * 2 ^ ((k / 2 ^ 52 : ℕ) - 1075 : ℤ) :=
        mul_le_mul_of_nonneg_right hm (two_zpow_pos _).le

theorem magnitudeOf_mono : Monotone magnitudeOf := by
  intro j k h
  rcases (Nat.div_le_div_right (c := 2 ^ 52) h).lt_or_eq with hlt | heq
  · calc magnitudeOf j ≤ 2 ^ ((j / 2 ^ 52 : ℕ) - 1022 : ℤ) := (magnitudeOf_lt j).le
      _ ≤ 2 ^ ((k / 2 ^ 52 : ℕ) - 1023 : ℤ) := zpow_le_zpow_right₀ (by norm_num) (by omega)
      _ ≤ magnitudeOf k := le_magnitudeOf (by omega)
  · -- With the same exponent the rest of the bits decides.
    have hle : j % 2 ^ 52 ≤ k % 2 ^ 52 := by omega
    rw [magnitudeOf, magnitudeOf, heq]
    split_ifs
    · exact mul_le_mul_of_nonneg_right (by exact_mod_cast hle) (two_zpow_pos _).le
    · exact mul_le_mul_of_nonneg_right (by exact_mod_cast Nat.add_le_add_left hle _)
        (two_zpow_pos _).le

theorem toNat_unpackMantissa (b : BitVec 64) :
    (@unpackMantissa Format.binary64 b).toNat = b.toNat % 2 ^ 52 := by
  rw [unpackMantissa, BitVec.toNat_cast, BitVec.extractLsb_toNat]
  simp

theorem toNat_unpackExponent (b : BitVec 64) :
    (@unpackExponent Format.binary64 b).toNat = b.toNat / 2 ^ 52 % 2048 := by
  rw [unpackExponent, BitVec.toNat_cast, BitVec.extractLsb_toNat, Nat.shiftRight_eq_div_pow]
  rfl

theorem signed_unpackSign (b : BitVec 64) (x : ℚ) :
    signed (.ofBitVec (@unpackSign Format.binary64 b)) x =
      (if b.toNat / 2 ^ 63 == 1 then -1 else 1) * x := by
  have hbit : (@unpackSign Format.binary64 b).toNat = b.toNat / 2 ^ 63 := by
    have hlt := b.isLt
    rw [unpackSign, BitVec.toNat_cast, BitVec.extractLsb_toNat, Nat.shiftRight_eq_div_pow]
    change b.toNat / 2 ^ 63 % 2 = _
    omega
  rw [← hbit]
  generalize @unpackSign Format.binary64 b = sign
  rcases BitVec.eq_zero_or_eq_one sign with rfl | rfl
  · simp [signed, Sign.ofBitVec]
  · simp [signed, Sign.ofBitVec]

/-- The bound stands where the next power of two would, behind the greatest exponent. -/
theorem bound_eq : bound = ((2 ^ 52 + (0#52).toNat : ℕ) : ℚ) * 2 ^ (((-1#11).toNat : ℤ) - 1075) := by
  have hexp : ((-1#11).toNat : ℤ) - 1075 = 972 := by decide
  have hman : ((2 ^ 52 + (0#52).toNat : ℕ) : ℚ) = 2 ^ (52 : ℤ) := by norm_num
  rw [hexp, hman, ← zpow_add₀ (by norm_num)]
  rfl

theorem value_unpack_eq {d : Float.Model} (h : d.unpack ≠ .notANumber) :
    value d.unpack = signed (.ofBitVec (@unpackSign Format.binary64 d.toBits.toBitVec))
      (magnitudeOf (d.toBits.toNat % 2 ^ 63)) := by
  have hdiv : d.toBits.toNat % 2 ^ 63 / 2 ^ 52 =
      (@unpackExponent Format.binary64 d.toBits.toBitVec).toNat := by
    rw [toNat_unpackExponent, UInt64.toNat_toBitVec]
    omega
  have hmod : d.toBits.toNat % 2 ^ 63 % 2 ^ 52 =
      (@unpackMantissa Format.binary64 d.toBits.toBitVec).toNat := by
    rw [toNat_unpackMantissa, UInt64.toNat_toBitVec]
    omega
  have hbias : (Format.binary64.exponentBias : ℤ) + (52 : ℕ) = 1075 := by decide
  rw [magnitudeOf, hdiv, hmod]
  revert h
  unfold Float.Model.unpack UnpackedFloat.unpack
  dsimp only
  rw [hbias]
  by_cases htop : @unpackExponent Format.binary64 d.toBits.toBitVec = -1#11
  · rw [if_pos htop]
    intro h
    have hnil : @unpackMantissa Format.binary64 d.toBits.toBitVec = 0#52 := by
      by_contra hne
      exact h (if_neg hne)
    rw [if_pos hnil, htop, hnil, value, if_neg (by decide), bound_eq]
  rw [if_neg htop]
  by_cases hlow : @unpackExponent Format.binary64 d.toBits.toBitVec = 0#11
  · intro h
    rw [if_pos hlow, if_pos (by rw [hlow]; rfl)]
    by_cases hnil : @unpackMantissa Format.binary64 d.toBits.toBitVec = 0#52
    · rw [dif_pos hnil, hnil, value]
      cases Sign.ofBitVec (@unpackSign Format.binary64 d.toBits.toBitVec) <;> simp [signed]
    · rw [dif_neg hnil, hlow]
      rfl
  · intro h
    have hne : (@unpackExponent Format.binary64 d.toBits.toBitVec).toNat ≠ 0 :=
      fun h0 => hlow (BitVec.eq_of_toNat_eq h0)
    rw [if_neg hlow, if_neg hne, value, toNat_implicit_append]

theorem value_unpack_of_lt {d : Float.Model} (h : d.unpack ≠ .notANumber)
    (hlt : d.toBits.toNat < 2 ^ 63) : value d.unpack = magnitudeOf d.toBits.toNat := by
  rw [value_unpack_eq h, signed_unpackSign, UInt64.toNat_toBitVec, Nat.div_eq_of_lt hlt,
    Nat.mod_eq_of_lt hlt]
  exact one_mul _

theorem value_unpack_of_le {d : Float.Model} (h : d.unpack ≠ .notANumber)
    (hle : 2 ^ 63 ≤ d.toBits.toNat) : value d.unpack = -magnitudeOf (d.toBits.toNat - 2 ^ 63) := by
  have hbits := d.toBits.toNat_lt
  have hdiv : d.toBits.toNat / 2 ^ 63 = 1 := by omega
  have hmod : d.toBits.toNat % 2 ^ 63 = d.toBits.toNat - 2 ^ 63 := by omega
  rw [value_unpack_eq h, signed_unpackSign, UInt64.toNat_toBitVec, hdiv, hmod]
  exact neg_one_mul _

theorem magnitudeOf_nonneg (k : ℕ) : 0 ≤ magnitudeOf k := by
  rw [magnitudeOf]
  split_ifs
  · exact mul_nonneg (Nat.cast_nonneg _) (two_zpow_pos _).le
  · exact mul_nonneg (Nat.cast_nonneg _) (two_zpow_pos _).le

theorem place_of_lt {a : Float} (h : a.toModel.toBits.toNat < 2 ^ 63) :
    place a = a.toModel.toBits.toNat := if_pos h

theorem place_of_le {a : Float} (h : 2 ^ 63 ≤ a.toModel.toBits.toNat) :
    place a = -((a.toModel.toBits.toNat - 2 ^ 63 : ℕ) + 1) := by
  refine (if_neg (not_lt.2 h)).trans ?_
  exact Int.negSucc_eq _

/-- The greater a number, the later its place. -/
theorem place_lt_place {a b : Float} (ha : a.toModel.unpack ≠ .notANumber)
    (hb : b.toModel.unpack ≠ .notANumber) (h : value a.toModel.unpack < value b.toModel.unpack) :
    place a < place b := by
  have hnonneg := magnitudeOf_nonneg
  rcases lt_or_ge a.toModel.toBits.toNat (2 ^ 63) with ha' | ha' <;>
    rcases lt_or_ge b.toModel.toBits.toNat (2 ^ 63) with hb' | hb'
  · rw [value_unpack_of_lt ha ha', value_unpack_of_lt hb hb'] at h
    rw [place_of_lt ha', place_of_lt hb']
    exact_mod_cast magnitudeOf_mono.reflect_lt h
  · rw [value_unpack_of_lt ha ha', value_unpack_of_le hb hb'] at h
    linarith [hnonneg a.toModel.toBits.toNat, hnonneg (b.toModel.toBits.toNat - 2 ^ 63)]
  · rw [place_of_le ha', place_of_lt hb']
    omega
  · rw [value_unpack_of_le ha ha', value_unpack_of_le hb hb', neg_lt_neg_iff] at h
    rw [place_of_le ha', place_of_le hb']
    have := magnitudeOf_mono.reflect_lt h
    omega

end Emend.Double
