import Emend.Proofs.Score.DoubleArithmetic
import Emend.Proofs.Score.DoubleOrder
import Emend.Proofs.Score.Lawful
import Emend.Proofs.Similarity

namespace Emend.Double

open Nearest

def unpacked (a : Float) : Float.Model.UnpackedFloat := a.toModel.unpack

def IsNumber (a : Float) : Prop := unpacked a ≠ .notANumber

/-- The value of a number; an infinity counts as the bound. -/
def val (a : Float) : ℚ := value (unpacked a)

def IsFinite (a : Float) : Prop := (unpacked a).isFinite = true

/-- The double is the rounded result of an exact computation. -/
def Rounds (a : Float) (x : ℚ) : Prop := IsNumber a ∧ val a = Nearest.round x

theorem inRange (a : Float) : InRange (unpacked a) := inRange_unpack a.toModel

theorem lt_iff_val {a b : Float} : a < b ↔ IsNumber a ∧ IsNumber b ∧ val a < val b := by
  have h : a < b ↔ (unpacked a).lt (unpacked b) = true := by
    show decide (a.toModel < b.toModel) = true ↔ _
    rw [decide_eq_true_iff]
    rfl
  rw [h, lt_iff (inRange a) (inRange b)]
  rfl

theorem le_iff_val {a b : Float} : a ≤ b ↔ IsNumber a ∧ IsNumber b ∧ val a ≤ val b := by
  have h : a ≤ b ↔ (unpacked a).le (unpacked b) = true := by
    show decide (a.toModel ≤ b.toModel) = true ↔ _
    rw [decide_eq_true_iff]
    rfl
  rw [h, le_iff (inRange a) (inRange b)]
  rfl

theorem beq_iff_val {a b : Float} :
    (a == b) = true ↔ IsNumber a ∧ IsNumber b ∧ val a = val b :=
  beq_iff (inRange a) (inRange b)

theorem compare_of_lt {a b : Float} (h : a < b) : compare a b = .lt := by
  obtain ⟨ha, hb, hlt⟩ := lt_iff_val.1 h
  exact compare_lt_iff_lt.2 (place_lt_place ha hb hlt)

theorem IsFinite.isNumber {a : Float} (h : IsFinite a) : IsNumber a := fun hn => by
  rw [IsFinite, hn] at h
  cases h

theorem isFinite_iff {a : Float} : IsFinite a ↔ IsNumber a ∧ -bound < val a ∧ val a < bound := by
  have hb := bound_pos
  have hr := inRange a
  rw [IsFinite, IsNumber, val]
  cases hu : unpacked a with
  | infinity s => cases s <;> simp [Float.Model.UnpackedFloat.isFinite, value, signed]
  | notANumber => simp [Float.Model.UnpackedFloat.isFinite]
  | zero s => simpa [Float.Model.UnpackedFloat.isFinite, value] using hb
  | finite s m e hm =>
      rw [hu] at hr
      have hpos := magnitude_pos e hm
      have hlt := hr.1.lt_bound hr.2
      cases s <;> simp [Float.Model.UnpackedFloat.isFinite, value, signed] <;>
        constructor <;> linarith

theorem rounds_pack {u : Float.Model.UnpackedFloat} {x : ℚ} (h : IsRounded u x) :
    Rounds (.ofModel (.pack u)) x := h.unpack_pack

theorem rounds_add {a b : Float} (ha : IsFinite a) (hb : IsFinite b) :
    Rounds (a + b) (val a + val b) := rounds_pack (isRounded_add (inRange a) (inRange b) ha hb)

theorem rounds_sub {a b : Float} (ha : IsFinite a) (hb : IsFinite b) :
    Rounds (a - b) (val a - val b) := rounds_pack (isRounded_sub (inRange a) (inRange b) ha hb)

theorem rounds_mul {a b : Float} (ha : IsFinite a) (hb : IsFinite b) :
    Rounds (a * b) (val a * val b) := rounds_pack (isRounded_mul (inRange a) (inRange b) ha hb)

theorem rounds_div {a b : Float} (ha : IsFinite a) (hb : IsFinite b) (hne : val b ≠ 0) :
    Rounds (a / b) (val a / val b) := rounds_pack (isRounded_div ha hb hne)

theorem IsFinite.round_val {a : Float} (h : IsFinite a) : Nearest.round (val a) = val a := by
  obtain ⟨-, hlow, hhigh⟩ := isFinite_iff.1 h
  have hval : val a = nearestSigned (val a) := ((inRange a).isRounded h).value_eq
  rw [Nearest.round, ← hval, min_eq_right hhigh.le, max_eq_right hlow.le]

theorem add_of_not_isFinite {a b : Float} (ha : IsFinite a) (hb : IsNumber b) (hinf : ¬IsFinite b) :
    IsNumber (a + b) ∧ val (a + b) = val b := by
  obtain ⟨s, hs⟩ : ∃ s, unpacked b = .infinity s := by
    rw [IsFinite] at hinf
    cases hu : unpacked b with
    | infinity s => exact ⟨s, rfl⟩
    | notANumber => exact absurd hu hb
    | zero s => exact absurd rfl (hu ▸ hinf)
    | finite s m e hm => exact absurd rfl (hu ▸ hinf)
  have hadd : unpacked (a + b) = .infinity s := by
    show (Float.Model.pack (Float.Model.UnpackedFloat.add _ (unpacked a) (unpacked b))).unpack = _
    rw [hs]
    rw [IsFinite] at ha
    cases hu : unpacked a with
    | infinity t => rw [hu] at ha; cases ha
    | notANumber => rw [hu] at ha; cases ha
    | zero t => exact unpack_pack_infinity s
    | finite t m e hm => exact unpack_pack_infinity s
  exact ⟨by rw [IsNumber, hadd]; nofun, by rw [val, val, hadd, hs]⟩

theorem add_comm (a b : Float) : a + b = b + a :=
  congrArg (fun u => Float.ofModel (.pack u)) (unpacked_add_comm (unpacked a) (unpacked b))

theorem Rounds.isFinite {a : Float} {n : ℕ} (h : Rounds a n) (hn : n ≤ 2 ^ 100) : IsFinite a := by
  have hlow : (0 : ℚ) ≤ Nearest.round n := round_zero ▸ round_mono (Nat.cast_nonneg n)
  have hhigh : Nearest.round n < bound := round_lt_bound (Nat.cast_nonneg n) (by exact_mod_cast hn)
  refine isFinite_iff.2 ⟨h.1, ?_, ?_⟩
  · rw [h.2]
    linarith [bound_pos]
  · rw [h.2]
    exact hhigh

theorem rounds_toFloat (k : UInt64) : Rounds k.toFloat k.toNat := by
  have h := normalize_isRounded k.toNat 0 .positive
  rw [zpow_zero, mul_one, Int.cast_natCast] at h
  exact rounds_pack h

theorem val_one : val (getElem Float.exactlyRepresentablePowersOfTen 0 (by decide)) = 1 := by
  have h : unpacked (getElem Float.exactlyRepresentablePowersOfTen 0 (by decide)) =
      .finite .positive (2 ^ 52) (-52) (by decide) := rfl
  rw [val, h, value, signed]
  norm_num

theorem isRounded_ofScientific {n k : ℕ} (hn : 0 < n) (hk : k ≤ 2048) :
    IsRounded (Float.Model.UnpackedFloat.ofScientific .binary64 n k) (n * 10 ^ k) := by
  have hshift : 0 < n <<< 53 := by
    rw [Nat.shiftLeft_eq]
    omega
  have hpow : 0 < 10 ^ k := Nat.pow_pos (by decide)
  have hmul := isRounded_mul_finite .positive .positive hshift hpow (e := -53) (k := 0) (by
    have : 53 ≤ (n <<< 53 * 10 ^ k).log2 := by
      rw [Nat.le_log2 (Nat.mul_pos hshift hpow).ne', Nat.shiftLeft_eq]
      nlinarith [Nat.two_pow_pos 53]
    omega)
  have hval : value (.finite .positive (n <<< 53) (-53) hshift) *
      value (.finite .positive (10 ^ k) 0 hpow) = n * 10 ^ k := by
    rw [value, value, signed, signed, Nat.shiftLeft_eq, zpow_neg, Nat.cast_mul]
    push_cast
    field_simp
  have hbits : (2 : ℤ) ^ Float.Model.Format.binary64.exponentBits = 2048 := rfl
  rw [hval] at hmul
  rw [Float.Model.UnpackedFloat.ofScientific]
  rw [dif_neg hn.ne', if_neg (by omega), if_neg (by omega), if_pos (by omega)]
  exact hmul

theorem rounds_ofNat (n : ℕ) : Rounds (Score.ofNat n) n := by
  show Rounds (Float.ofScientific n false 0) n
  rw [Float.ofScientific]
  by_cases h : n < 2 ^ 53 ∧ 0 ≤ 22
  · have hmod : n.toUInt64.toNat = n := by
      rw [UInt64.toNat_ofNat']
      omega
    have hword := rounds_toFloat n.toUInt64
    rw [hmod] at hword
    have hfin : IsFinite n.toUInt64.toFloat := hword.isFinite (by omega)
    have hone : IsFinite (getElem Float.exactlyRepresentablePowersOfTen 0 (by decide)) := rfl
    have hmul := rounds_mul hfin hone
    rw [val_one, mul_one, Rounds, hfin.round_val, hword.2] at hmul
    rw [dif_pos h]
    exact hmul
  · rw [dif_neg h]
    have hround := isRounded_ofScientific (n := n) (k := 0) (by omega) (by omega)
    rw [pow_zero, mul_one] at hround
    exact rounds_pack hround

theorem val_ofNat_zero : val (Score.ofNat 0) = 0 := by
  rw [(rounds_ofNat 0).2, Nat.cast_zero, round_zero]

theorem val_ofNat_one : val (Score.ofNat 1) = 1 := by
  have h : unpacked (Score.ofNat 1) = .finite .positive (2 ^ 52) (-52) (by decide) := rfl
  rw [val, h, value, signed]
  norm_num

theorem round_one : Nearest.round 1 = 1 := by
  rw [← Nat.cast_one, ← (rounds_ofNat 1).2, val_ofNat_one, Nat.cast_one]

theorem round_unit {x : ℚ} (h0 : 0 ≤ x) (h1 : x ≤ 1) :
    0 ≤ Nearest.round x ∧ Nearest.round x ≤ 1 :=
  ⟨round_zero ▸ round_mono h0, (round_mono h1).trans round_one.le⟩

structure InUnit (a : Float) : Prop where
  isFinite : IsFinite a
  nonneg : 0 ≤ val a
  le_one : val a ≤ 1

theorem inUnit_ofNat_one : InUnit (Score.ofNat 1) :=
  ⟨rfl, by rw [val_ofNat_one]; norm_num, val_ofNat_one.le⟩

theorem Rounds.inUnit {a : Float} {x : ℚ} (h : Rounds a x) (h0 : 0 ≤ x) (h1 : x ≤ 1) :
    InUnit a := by
  obtain ⟨hlow, hhigh⟩ := round_unit h0 h1
  have hb : 1 < bound := one_lt_zpow₀ (by norm_num) (by norm_num)
  rw [← h.2] at hlow hhigh
  exact ⟨isFinite_iff.2 ⟨h.1, by linarith, by linarith⟩, hlow, hhigh⟩

theorem rounds_quotient {d n : ℕ} (hn : 0 < n) (hdn : d ≤ n) (hlt : n ≤ 2 ^ 100) :
    Rounds (Score.quotient d n) (Nearest.round d / Nearest.round n) ∧
      0 ≤ Nearest.round d ∧ Nearest.round d ≤ Nearest.round n ∧ 1 ≤ Nearest.round n := by
  have hd := rounds_ofNat d
  have hn' := rounds_ofNat n
  have hone : 1 ≤ Nearest.round n := by
    rw [← round_one]
    exact round_mono (by exact_mod_cast hn)
  have hle : Nearest.round d ≤ Nearest.round n := round_mono (by exact_mod_cast hdn)
  have hzero : 0 ≤ Nearest.round d := round_zero ▸ round_mono (Nat.cast_nonneg d)
  have hdiv := rounds_div (hd.isFinite (hdn.trans hlt)) (hn'.isFinite hlt)
    (by rw [hn'.2]; linarith)
  rw [hd.2, hn'.2] at hdiv
  exact ⟨hdiv, hzero, hle, hone⟩

theorem inUnit_quotient {d n : ℕ} (hn : 0 < n) (hdn : d ≤ n) (hlt : n ≤ 2 ^ 100) :
    InUnit (Score.quotient d n) := by
  obtain ⟨hdiv, hzero, hle, hone⟩ := rounds_quotient hn hdn hlt
  exact hdiv.inUnit (div_nonneg hzero (by linarith)) (div_le_one_of_le₀ hle (by linarith))

theorem inUnit_one_sub {q : Float} (h : InUnit q) : InUnit (Score.ofNat 1 - q) := by
  have hsub := rounds_sub inUnit_ofNat_one.isFinite h.isFinite
  have h0 := h.nonneg
  have h1 := h.le_one
  rw [val_ofNat_one] at hsub
  exact hsub.inUnit (by linarith) (by linarith)

theorem inUnit_similarity {s t : Text} (hs : s.length < word) (ht : t.length < word) :
    InUnit (similarity s t) := by
  rw [similarity]
  split_ifs with h
  · exact inUnit_ofNat_one
  · have hle : s.length + t.length ≤ 2 ^ 100 := by
      have hword : word = 2 ^ 64 := rfl
      omega
    exact inUnit_one_sub (inUnit_quotient (length_add_pos h) (Nat.sub_le _ (2 * common s t)) hle)

theorem mul_inUnit {w a : Float} (hw : IsFinite w) (ha : InUnit a) :
    IsFinite (w * a) ∧ min 0 (val w) ≤ val (w * a) ∧ val (w * a) ≤ max 0 (val w) := by
  obtain ⟨hfin, h0, h1⟩ := ha
  obtain ⟨hnum, hval⟩ := rounds_mul hw hfin
  obtain ⟨-, hlow, hhigh⟩ := isFinite_iff.1 hw
  have hmin : Nearest.round (min 0 (val w)) = min 0 (val w) := by
    rcases min_choice 0 (val w) with h | h
    · rw [h, round_zero]
    · rw [h, hw.round_val]
  have hmax : Nearest.round (max 0 (val w)) = max 0 (val w) := by
    rcases max_choice 0 (val w) with h | h
    · rw [h, round_zero]
    · rw [h, hw.round_val]
  have hfrom : min 0 (val w) ≤ val (w * a) := by
    rw [hval, ← hmin]
    refine round_mono ?_
    rcases le_total 0 (val w) with h | h
    · rw [min_eq_left h]
      exact mul_nonneg h h0
    · rw [min_eq_right h]
      nlinarith
  have hto : val (w * a) ≤ max 0 (val w) := by
    rw [hval, ← hmax]
    refine round_mono ?_
    rcases le_total 0 (val w) with h | h
    · rw [max_eq_right h]
      nlinarith
    · rw [max_eq_left h]
      exact mul_nonpos_of_nonpos_of_nonneg h h0
  have hb := bound_pos
  refine ⟨isFinite_iff.2 ⟨hnum, ?_, ?_⟩, hfrom, hto⟩
  · exact (lt_min (by linarith) hlow).trans_le hfrom
  · exact hto.trans_lt (max_lt hb hhigh)

theorem not_lt_iff {a b : Float} (ha : IsNumber a) (hb : IsNumber b) :
    ¬a < b ↔ val b ≤ val a := by
  rw [lt_iff_val, not_and, not_and, not_lt]
  exact ⟨fun h => h ha hb, fun h _ _ => h⟩

def infinity (s : Float.Model.UnpackedFloat.Sign) : Float := .ofModel (.pack (.infinity s))

theorem unpacked_infinity (s : Float.Model.UnpackedFloat.Sign) :
    unpacked (infinity s) = .infinity s := unpack_pack_infinity s

theorem val_infinity_positive : val (infinity .positive) = bound := by
  rw [val, unpacked_infinity, value, signed]

theorem val_infinity_negative : val (infinity .negative) = -bound := by
  rw [val, unpacked_infinity, value, signed]

theorem isNumber_infinity (s : Float.Model.UnpackedFloat.Sign) : IsNumber (infinity s) := by
  rw [IsNumber, unpacked_infinity]
  nofun

theorem val_mem_bounds (a : Float) : -bound ≤ val a ∧ val a ≤ bound := by
  have hb := bound_pos
  by_cases h : IsFinite a
  · obtain ⟨-, hlow, hhigh⟩ := isFinite_iff.1 h
    exact ⟨hlow.le, hhigh.le⟩
  rw [IsFinite] at h
  rw [val]
  cases hu : unpacked a with
  | infinity s =>
      cases s <;> rw [value, signed]
      · exact ⟨le_rfl, by linarith⟩
      · exact ⟨by linarith, le_rfl⟩
  | notANumber => exact ⟨by rw [value]; linarith, by rw [value]; linarith⟩
  | zero s => exact absurd rfl (hu ▸ h)
  | finite s m e hm => exact absurd rfl (hu ▸ h)

theorem comparable_iff {a : Float} : Score.Comparable a ↔ IsNumber a := by
  constructor
  · rintro ⟨b, h | h⟩
    · exact (lt_iff_val.1 h).1
    · exact (lt_iff_val.1 h).2.1
  · intro ha
    rcases lt_or_ge (val a) bound with h | h
    · exact ⟨infinity .positive, .inl (lt_iff_val.2 ⟨ha, isNumber_infinity _,
        val_infinity_positive ▸ h⟩)⟩
    · refine ⟨infinity .negative, .inr (lt_iff_val.2 ⟨isNumber_infinity _, ha, ?_⟩)⟩
      rw [val_infinity_negative]
      linarith [bound_pos]

theorem finite_iff {a : Float} : Score.Finite a ↔ IsFinite a := by
  rw [isFinite_iff]
  constructor
  · rintro ⟨⟨b, hb⟩, c, hc⟩
    rw [lt_iff_val] at hb hc
    exact ⟨hc.1, (val_mem_bounds b).1.trans_lt hb.2.2, hc.2.2.trans_le (val_mem_bounds c).2⟩
  · rintro ⟨ha, hlow, hhigh⟩
    rw [← val_infinity_negative] at hlow
    rw [← val_infinity_positive] at hhigh
    exact ⟨⟨_, lt_iff_val.2 ⟨isNumber_infinity _, ha, hlow⟩⟩,
      _, lt_iff_val.2 ⟨ha, isNumber_infinity _, hhigh⟩⟩

theorem unpacked_injective {a b : Float} (h : unpacked a = unpacked b) : a = b := by
  obtain ⟨⟨⟨bits⟩, hvalid⟩⟩ := a
  obtain ⟨⟨⟨bits'⟩, hvalid'⟩⟩ := b
  obtain rfl : bits = bits' :=
    (Float.Model.UnpackedFloat.unpack_inj_of_valid hvalid hvalid').1 h
  rfl

theorem eq_of_val_eq {a b : Float} (ha : IsNumber a) (hb : IsNumber b) (hne : val b ≠ 0)
    (h : val a = val b) : a = b :=
  unpacked_injective (eq_of_value_eq (inRange a) (inRange b) ha hb hne h)

theorem val_eq_of_not_isFinite {a : Float} (ha : IsNumber a) (h : ¬IsFinite a) :
    val a = -bound ∨ val a = bound := by
  obtain ⟨hlow, hhigh⟩ := val_mem_bounds a
  by_contra hne
  push Not at hne
  exact h (isFinite_iff.2 ⟨ha, lt_of_le_of_ne hlow hne.1.symm, lt_of_le_of_ne hhigh hne.2⟩)

theorem isNumber_add {a b : Float} (ha : IsFinite a) (hb : IsNumber b) : IsNumber (a + b) := by
  by_cases h : IsFinite b
  · exact (rounds_add ha h).1
  · exact (add_of_not_isFinite ha hb h).1

theorem add_le_add {a a' b b' : Float} (ha : IsFinite a) (ha' : IsFinite a') (hb : IsNumber b)
    (hb' : IsNumber b') (hle : val a ≤ val a') (hle' : val b ≤ val b') :
    val (a + b) ≤ val (a' + b') := by
  by_cases h : IsFinite b
  · by_cases h' : IsFinite b'
    · rw [(rounds_add ha h).2, (rounds_add ha' h').2]
      exact round_mono (by linarith)
    · rw [(add_of_not_isFinite ha' hb' h').2]
      rcases val_eq_of_not_isFinite hb' h' with he | he
      · have := (isFinite_iff.1 h).2.1
        linarith
      · rw [he]
        exact (val_mem_bounds _).2
  · rw [(add_of_not_isFinite ha hb h).2]
    rcases val_eq_of_not_isFinite hb h with he | he
    · rw [he]
      exact (val_mem_bounds _).1
    · have h' : ¬IsFinite b' := fun hf => by
        have := (isFinite_iff.1 hf).2.2
        linarith
      rw [(add_of_not_isFinite ha' hb' h').2]
      exact hle'

theorem le_add_slack {a : Float} (ha : IsNumber a) :
    IsNumber (a + slack) ∧ val a ≤ val (a + slack) := by
  have hs : IsFinite slack := rfl
  have hpos : 0 ≤ val slack := (inUnit_quotient (by decide) (by decide) (by decide)).nonneg
  rw [add_comm]
  refine ⟨isNumber_add hs ha, ?_⟩
  by_cases h : IsFinite a
  · rw [(rounds_add hs h).2]
    calc val a = Nearest.round (val a) := h.round_val.symm
      _ ≤ Nearest.round (val slack + val a) := round_mono (by linarith)
  · exact (add_of_not_isFinite hs ha h).2.ge

end Emend.Double

namespace Emend

open Double

instance : LawfulScore Float where
  lt_irrefl a h := lt_irrefl _ (lt_iff_val.1 h).2.2
  lt_trans h h' := lt_iff_val.2
    ⟨(lt_iff_val.1 h).1, (lt_iff_val.1 h').2.1, (lt_iff_val.1 h).2.2.trans (lt_iff_val.1 h').2.2⟩
  lt_or_lt {a b c} hb h := by
    rw [comparable_iff] at hb
    rw [lt_iff_val] at h
    obtain ⟨ha, hc, hlt⟩ := h
    rcases lt_or_ge (val a) (val b) with hab | hab
    · exact .inl (lt_iff_val.2 ⟨ha, hb, hab⟩)
    · exact .inr (lt_iff_val.2 ⟨hb, hc, hab.trans_lt hlt⟩)
  le_iff ha hb := by
    rw [comparable_iff] at ha hb
    rw [not_lt_iff hb ha, le_iff_val]
    exact ⟨fun h => h.2.2, fun h => ⟨ha, hb, h⟩⟩
  beq_iff ha hb := by
    rw [comparable_iff] at ha hb
    rw [not_lt_iff ha hb, not_lt_iff hb ha, beq_iff_val]
    exact ⟨fun h => ⟨h.2.2.ge, h.2.2.le⟩, fun h => ⟨ha, hb, le_antisymm h.2 h.1⟩⟩
  transOrd := inferInstanceAs (Std.TransCmp (compareOn place))
  compare_of_lt := compare_of_lt
  finite_zero := finite_iff.2 rfl
  comparable_noScore := (finite_iff.2 (rfl : IsFinite noScore)).comparable
  add_comm := Double.add_comm
  comparable_add ha hb :=
    comparable_iff.2 (isNumber_add (finite_iff.1 ha) (comparable_iff.1 hb))
  add_le_add ha ha' hb hb' hle hle' := by
    rw [finite_iff] at ha ha'
    rw [comparable_iff] at hb hb'
    rw [not_lt_iff ha'.isNumber ha.isNumber] at hle
    rw [not_lt_iff hb' hb] at hle'
    rw [not_lt_iff (isNumber_add ha' hb') (isNumber_add ha hb)]
    exact Double.add_le_add ha ha' hb hb' hle hle'
  le_add_slack {a} ha := by
    rw [comparable_iff] at ha
    obtain ⟨hnum, hle⟩ := Double.le_add_slack ha
    rwa [not_lt_iff hnum ha]
  finite_mul_similarity hs ht hw :=
    finite_iff.2 (mul_inUnit (finite_iff.1 hw) (inUnit_similarity hs ht)).1
  mul_similarity_le hs ht hw hpos := by
    rw [finite_iff] at hw
    obtain ⟨hfin, -, hle⟩ := mul_inUnit hw (inUnit_similarity hs ht)
    have hzero : IsFinite (Score.ofNat 0) := rfl
    rw [not_lt_iff hw.isNumber hzero.isNumber, val_ofNat_zero] at hpos
    rw [not_lt_iff hw.isNumber hfin.isNumber]
    rwa [max_eq_right hpos] at hle
  mul_similarity_nonpos hs ht hw hneg := by
    rw [finite_iff] at hw
    obtain ⟨hfin, -, hle⟩ := mul_inUnit hw (inUnit_similarity hs ht)
    have hzero : IsFinite (Score.ofNat 0) := rfl
    rw [not_lt_iff hzero.isNumber hw.isNumber, val_ofNat_zero] at hneg
    rw [not_lt_iff hzero.isNumber hfin.isNumber, val_ofNat_zero]
    rwa [max_eq_left hneg] at hle

end Emend
