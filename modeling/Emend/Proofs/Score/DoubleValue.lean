import Emend.Proofs.Score.Nearest
import Mathlib

namespace Emend.Double

open Float.Model Float.Model.UnpackedFloat Nearest

def signed : Sign → ℚ → ℚ
  | .negative, x => -x
  | .positive, x => x

def value : UnpackedFloat → ℚ
  | .infinity s => signed s bound
  | .notANumber => 0
  | .zero _ => 0
  | .finite s m e _ => signed s (m * 2 ^ e)

/-- A mantissa of 53 binary digits, with fewer only at the least exponent. -/
structure Canonical (m : ℕ) (e : ℤ) : Prop where
  lt_pow : m < 2 ^ 53
  least_le : -1074 ≤ e
  full : 2 ^ 52 ≤ m ∨ e = -1074

/-- The value is that of a double, but for its size. -/
def IsCanonical : UnpackedFloat → Prop
  | .finite _ m e _ => Canonical m e
  | _ => True

/-- The value is that of a double. -/
def InRange : UnpackedFloat → Prop
  | .finite _ m e _ => Canonical m e ∧ e ≤ 971
  | _ => True

theorem toNat_implicit_append (m : BitVec 52) : (1#1 ++ m).toNat = 2 ^ 52 + m.toNat := by
  rw [BitVec.toNat_append, ← Nat.shiftLeft_add_eq_or_of_lt m.isLt]
  simp

theorem unpack_pack_normal (s : Sign) {m : ℕ} {e : ℤ} (hm : 0 < m) (hlo : 2 ^ 52 ≤ m)
    (hhi : m < 2 ^ 53) (hleast : -1074 ≤ e) (he : e ≤ 971) :
    (Float.Model.pack (.finite s m e hm)).unpack = .finite s m e hm := by
  obtain ⟨b, hb⟩ : ∃ b : ℕ, (b : ℤ) = e + 1075 := ⟨(e + 1075).toNat, by omega⟩
  have hlog : m.log2 = 52 := (Nat.log2_eq_iff (by omega)).2 ⟨hlo, hhi⟩
  have hbias : (e + (Format.binary64.exponentBias : ℤ) + (52 : ℕ)).toNat = b := by
    simp only [Format.exponentBias]
    omega
  have hbn : (BitVec.ofNat 11 b).toNat = b := by
    rw [BitVec.toNat_ofNat]
    omega
  have hmn : (BitVec.ofNat 52 m).toNat = m - 2 ^ 52 := by
    rw [BitVec.toNat_ofNat]
    omega
  have htop : BitVec.ofNat 11 b ≠ -1#11 := fun h => by
    have := congrArg BitVec.toNat h
    simp only [hbn, BitVec.neg_one_eq_allOnes, BitVec.toNat_allOnes] at this
    omega
  have hzero : BitVec.ofNat 11 b ≠ 0#11 := fun h => by
    have := congrArg BitVec.toNat h
    simp only [hbn, BitVec.toNat_ofNat] at this
    omega
  have hpack : UnpackedFloat.pack Format.binary64 (.finite s m e hm) =
      packComponents Format.binary64 s (BitVec.ofNat 11 b) (BitVec.ofNat 52 m) := by
    simp only [UnpackedFloat.pack, hbias, hlog]
    rw [if_neg (by omega), if_pos (by rfl)]
  unfold Float.Model.unpack Float.Model.pack
  simp only [hpack, UnpackedFloat.unpack, unpackExponent_packComponents,
    unpackMantissa_packComponents, unpackSign_packComponents, Sign.ofBitVec_toBitVec]
  rw [if_neg htop, if_neg hzero]
  congr 1
  · rw [toNat_implicit_append, hmn]
    omega
  · simp only [hbn, Format.exponentBias]
    omega

theorem unpack_pack_subnormal (s : Sign) {m : ℕ} (hm : 0 < m) (hhi : m < 2 ^ 52) :
    (Float.Model.pack (.finite s m (-1074) hm)).unpack = .finite s m (-1074) hm := by
  have hlog : m.log2 < 52 := (Nat.log2_lt (by omega)).2 hhi
  have hmn : (BitVec.ofNat 52 m).toNat = m := by
    rw [BitVec.toNat_ofNat]
    omega
  have hzero : BitVec.ofNat 52 m ≠ 0#52 := fun h => by
    have := congrArg BitVec.toNat h
    simp only [hmn, BitVec.toNat_ofNat] at this
    omega
  have hpack : UnpackedFloat.pack Format.binary64 (.finite s m (-1074) hm) =
      packComponents Format.binary64 s 0#11 (BitVec.ofNat 52 m) := by
    have hbias : ((-1074 : ℤ) + (Format.binary64.exponentBias : ℤ) + (52 : ℕ)).toNat = 1 := by
      decide
    simp only [UnpackedFloat.pack, hbias]
    rw [if_neg (by decide), if_neg (by simp only [Format.mantissaBits]; omega)]
  unfold Float.Model.unpack Float.Model.pack
  simp only [hpack, UnpackedFloat.unpack, unpackExponent_packComponents,
    unpackMantissa_packComponents, unpackSign_packComponents, Sign.ofBitVec_toBitVec]
  rw [if_neg (by decide), if_pos trivial, dif_neg hzero]
  congr 1

theorem unpack_pack_infinity (s : Sign) :
    (Float.Model.pack (.infinity s)).unpack = .infinity s := by
  cases s <;> rfl

theorem unpack_pack_zero (s : Sign) : (Float.Model.pack (.zero s)).unpack = .zero s := by
  cases s <;> rfl

theorem unpack_pack_notANumber : (Float.Model.pack .notANumber).unpack = .notANumber := rfl

theorem unpack_pack_overflow (s : Sign) {m : ℕ} {e : ℤ} (hm : 0 < m) (he : 972 ≤ e) :
    (Float.Model.pack (.finite s m e hm)).unpack = .infinity s := by
  have hbig : 2 ^ Format.binary64.exponentBits ≤
      (e + (Format.binary64.exponentBias : ℤ) + (52 : ℕ)).toNat + 1 := by
    simp only [Format.exponentBias]
    omega
  have hpack : UnpackedFloat.pack Format.binary64 (.finite s m e hm) =
      packedInfinity Format.binary64 s := by
    simp only [UnpackedFloat.pack]
    rw [if_pos hbig]
  have hinf : Float.Model.pack (.finite s m e hm) = Float.Model.pack (.infinity s) := by
    unfold Float.Model.pack
    simp only [hpack]
    rfl
  rw [hinf, unpack_pack_infinity]

theorem unpack_pack {u : UnpackedFloat} (h : InRange u) : (Float.Model.pack u).unpack = u := by
  cases u with
  | infinity s => exact unpack_pack_infinity s
  | notANumber => exact unpack_pack_notANumber
  | zero s => exact unpack_pack_zero s
  | finite s m e hm =>
      obtain ⟨⟨hlt, hleast, hfull⟩, he⟩ := h
      rcases hfull with hlo | rfl
      · exact unpack_pack_normal s hm hlo hlt hleast he
      · rcases Nat.lt_or_ge m (2 ^ 52) with hlo | hlo
        · exact unpack_pack_subnormal s hm hlo
        · exact unpack_pack_normal s hm hlo hlt hleast he

theorem inRange_unpack (d : Float.Model) : InRange d.unpack := by
  unfold Float.Model.unpack UnpackedFloat.unpack
  dsimp only
  have hexp : (@unpackExponent Format.binary64 d.toBits.toBitVec).toNat < 2048 :=
    (@unpackExponent Format.binary64 d.toBits.toBitVec).isLt
  have hman : (@unpackMantissa Format.binary64 d.toBits.toBitVec).toNat < 2 ^ 52 :=
    (@unpackMantissa Format.binary64 d.toBits.toBitVec).isLt
  have hbias : (Format.binary64.exponentBias : ℤ) + (52 : ℕ) = 1075 := by decide
  rw [hbias]
  split_ifs with htop hnil hlow hnone
  · trivial
  · trivial
  · trivial
  · rw [hlow]
    exact ⟨⟨by omega, by decide, .inr (by decide)⟩, by decide⟩
  · have hpos : (@unpackExponent Format.binary64 d.toBits.toBitVec).toNat ≠ 0 :=
      fun h => hlow (BitVec.eq_of_toNat_eq h)
    have htop' : (@unpackExponent Format.binary64 d.toBits.toBitVec).toNat ≠ 2047 :=
      fun h => htop (BitVec.eq_of_toNat_eq h)
    have hmant := toNat_implicit_append (@unpackMantissa Format.binary64 d.toBits.toBitVec)
    refine ⟨⟨?_, ?_, .inl ?_⟩, ?_⟩ <;> omega

theorem Canonical.lt_of_lt {m₁ m₂ : ℕ} {e₁ e₂ : ℤ} (h₁ : Canonical m₁ e₁) (h₂ : Canonical m₂ e₂)
    (he : e₁ < e₂) : (m₁ * 2 ^ e₁ : ℚ) < m₂ * 2 ^ e₂ := by
  have hfull : 2 ^ 52 ≤ m₂ := by
    have := h₁.least_le
    rcases h₂.full with h | h <;> omega
  calc (m₁ * 2 ^ e₁ : ℚ) < (2 ^ 53 : ℕ) * 2 ^ e₁ :=
        mul_lt_mul_of_pos_right (by exact_mod_cast h₁.lt_pow) (two_zpow_pos e₁)
    _ = (2 ^ 52 : ℕ) * 2 ^ (e₁ + 1) := by
        rw [zpow_add_one₀ (by norm_num)]
        push_cast
        ring
    _ ≤ m₂ * 2 ^ e₂ :=
        mul_le_mul (by exact_mod_cast hfull) (zpow_le_zpow_right₀ (by norm_num) (by omega))
          (two_zpow_pos _).le (Nat.cast_nonneg _)

theorem Canonical.lt_bound {m : ℕ} {e : ℤ} (h : Canonical m e) (he : e ≤ 971) :
    (m * 2 ^ e : ℚ) < bound := by
  have hm : (m : ℚ) < 2 ^ (53 : ℤ) := by exact_mod_cast h.lt_pow
  calc (m * 2 ^ e : ℚ) < 2 ^ (53 : ℤ) * 2 ^ e := mul_lt_mul_of_pos_right hm (two_zpow_pos e)
    _ ≤ 2 ^ (53 : ℤ) * 2 ^ (971 : ℤ) :=
        mul_le_mul_of_nonneg_left (zpow_le_zpow_right₀ (by norm_num) he) (two_zpow_pos 53).le
    _ = bound := by
        rw [← zpow_add₀ (by norm_num)]
        rfl

theorem Canonical.bound_le {m : ℕ} {e : ℤ} (h : Canonical m e) (he : 972 ≤ e) :
    bound ≤ m * 2 ^ e := by
  have hm : (2 : ℚ) ^ (52 : ℤ) ≤ m := by
    have := h.full
    exact_mod_cast (by omega : 2 ^ 52 ≤ m)
  calc bound = 2 ^ (52 : ℤ) * 2 ^ (972 : ℤ) := by
        rw [← zpow_add₀ (by norm_num)]
        rfl
    _ ≤ m * 2 ^ e :=
        mul_le_mul hm (zpow_le_zpow_right₀ (by norm_num) he) (two_zpow_pos _).le
          (Nat.cast_nonneg _)

theorem magnitude_pos {m : ℕ} (e : ℤ) (hm : 0 < m) : (0 : ℚ) < m * 2 ^ e :=
  mul_pos (by exact_mod_cast hm) (two_zpow_pos e)

end Emend.Double
