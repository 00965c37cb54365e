import Emend.Proofs.Score.DoubleValue

namespace Emend.Double

open Float.Model Float.Model.UnpackedFloat Nearest

/-- The mantissa is the whole part, the round bit tells whether a half follows, and the sticky bit
whether anything is left. -/
def Shows (em : ExtendedMantissa) (y : ℚ) : Prop :=
  ∃ f : ℚ, 0 ≤ f ∧ f < 1 / 2 ∧ (em.stickyBit = true ↔ 0 < f) ∧
    y = em.mantissa + (if em.roundBit then 1 / 2 else 0) + f

namespace Shows

variable {em : ExtendedMantissa} {y : ℚ}

theorem le (h : Shows em y) : (em.mantissa : ℚ) ≤ y := by
  obtain ⟨f, hf, -, -, rfl⟩ := h
  split_ifs <;> linarith

theorem lt_add_one (h : Shows em y) : y < em.mantissa + 1 := by
  obtain ⟨f, -, hf, -, rfl⟩ := h
  split_ifs <;> linarith

theorem floor_eq (h : Shows em y) : ⌊y⌋₊ = em.mantissa :=
  (Nat.floor_eq_iff ((Nat.cast_nonneg _).trans h.le)).2 ⟨h.le, h.lt_add_one⟩

theorem exact (m : ℕ) : Shows (.ofMantissaAndAccuracy m .exact) m :=
  ⟨0, le_rfl, by norm_num, by simp [ExtendedMantissa.ofMantissaAndAccuracy],
    by simp [ExtendedMantissa.ofMantissaAndAccuracy]⟩

theorem roundedMantissa_eq (h : Shows em y) : em.roundedMantissa = halfEven y := by
  rw [halfEven]
  rw [h.floor_eq]
  obtain ⟨m, r, s⟩ := em
  obtain ⟨f, hf, hf', hs, rfl⟩ := h
  cases r <;> cases s
  · obtain rfl : f = 0 := le_antisymm (by simpa using hs) hf
    simp [ExtendedMantissa.roundedMantissa, ExtendedMantissa.accuracy, Accuracy.roundToNearestEven]
  · rw [if_pos (by simpa using hf')]
    rfl
  · obtain rfl : f = 0 := le_antisymm (by simpa using hs) hf
    simp [ExtendedMantissa.roundedMantissa, ExtendedMantissa.accuracy, Accuracy.roundToNearestEven]
  · have hpos : 0 < f := by simpa using hs
    dsimp only
    rw [if_neg (by simpa using hf), if_pos (by simpa using hpos)]
    rfl

theorem shiftRightOne (h : Shows em y) : Shows em.shiftRightOne (y / 2) := by
  obtain ⟨m, r, s⟩ := em
  obtain ⟨f, hf, hf', hs, rfl⟩ := h
  have hm : (m : ℚ) = 2 * (m / 2 : ℕ) + (m % 2 : ℕ) := by exact_mod_cast (Nat.div_add_mod m 2).symm
  refine ⟨((if r then 1 / 2 else 0) + f) / 2, ?_, ?_, ?_, ?_⟩
  · split_ifs <;> linarith
  · split_ifs <;> linarith
  · cases r
    · simpa [ExtendedMantissa.shiftRightOne] using hs
    · simp only [ExtendedMantissa.shiftRightOne, Bool.true_or, true_iff, if_true]
      linarith
  · rcases Nat.mod_two_eq_zero_or_one m with h2 | h2 <;>
      simp only [ExtendedMantissa.shiftRightOne, h2, bne_self_eq_false, Bool.false_eq_true, if_false,
        Nat.cast_zero, Nat.cast_one, one_ne_zero, bne_iff_ne, ne_eq, not_false_eq_true, if_true]
        at hm ⊢ <;>
      linarith

theorem shiftRight (h : Shows em y) (n : ℕ) : Shows (em >>> n) (y / 2 ^ n) := by
  induction n with
  | zero =>
      rw [pow_zero, div_one]
      exact h
  | succ n ih =>
      rw [pow_succ, ← div_div]
      exact ih.shiftRightOne

theorem fraction (n : ℕ) {d : ℕ} (hd : 0 < d) :
    Shows (.ofMantissaAndAccuracy (n / d) (accuracyOfFraction (n % d) d)) (n / d : ℚ) := by
  have hd' : (0 : ℚ) < d := by exact_mod_cast hd
  have hrest : ((n % d : ℕ) : ℚ) < d := by exact_mod_cast Nat.mod_lt n hd
  have hsplit : (n / d : ℚ) = (n / d : ℕ) + (n % d : ℕ) / d := by
    rw [div_eq_iff hd'.ne', add_mul, div_mul_cancel₀ _ hd'.ne']
    exact_mod_cast (Nat.div_add_mod' n d).symm
  rw [hsplit, accuracyOfFraction]
  generalize n % d = r at hrest
  split_ifs with hr
  · rw [hr]
    simpa using exact (n / d)
  have hr' : (0 : ℚ) < r := by exact_mod_cast Nat.pos_of_ne_zero hr
  rcases lt_trichotomy (2 * r) d with h | h | h
  · have hq : (2 * r : ℚ) < d := by exact_mod_cast h
    rw [compare_lt_iff_lt.2 h]
    refine ⟨r / d, (div_pos hr' hd').le, ?_, ?_, by simp [ExtendedMantissa.ofMantissaAndAccuracy]⟩
    · rw [div_lt_iff₀ hd']
      linarith
    · simp only [ExtendedMantissa.ofMantissaAndAccuracy, true_iff]
      exact div_pos hr' hd'
  · have hq : (2 * r : ℚ) = d := by exact_mod_cast h
    rw [compare_eq_iff_eq.2 h]
    refine ⟨0, le_rfl, by norm_num, by simp [ExtendedMantissa.ofMantissaAndAccuracy], ?_⟩
    simp only [ExtendedMantissa.ofMantissaAndAccuracy, if_true, add_zero]
    rw [← hq, div_mul_cancel_right₀ hr'.ne']
    norm_num
  · have hq : (d : ℚ) < 2 * r := by exact_mod_cast h
    have hhalf : (1 / 2 : ℚ) < r / d := by
      rw [lt_div_iff₀ hd']
      linarith
    have hone : (r / d : ℚ) < 1 := (div_lt_one hd').2 hrest
    rw [compare_gt_iff_gt.2 h]
    refine ⟨r / d - 1 / 2, by linarith, by linarith, ?_, ?_⟩
    · simp only [ExtendedMantissa.ofMantissaAndAccuracy, true_iff]
      linarith
    · simp only [ExtendedMantissa.ofMantissaAndAccuracy, if_true]
      ring

end Shows

theorem log_eq {x : ℚ} {m : ℕ} {e : ℤ} (hm : 0 < m) (hle : (m : ℚ) ≤ x / 2 ^ e)
    (hlt : x / 2 ^ e < m + 1) : Int.log 2 x = m.log2 + e := by
  have he := two_zpow_pos e
  have hm' : (0 : ℚ) < m := by exact_mod_cast hm
  have hx : 0 < x := by
    have := mul_pos (hm'.trans_le hle) he
    rwa [div_mul_cancel₀ _ he.ne'] at this
  have hlow : ((2 : ℕ) : ℚ) ^ (m.log2 + e : ℤ) ≤ x := by
    rw [zpow_add₀ (by norm_num), ← le_div_iff₀ (by exact_mod_cast he)]
    refine le_trans ?_ hle
    exact_mod_cast Nat.log2_self_le hm.ne'
  have hhigh : x < ((2 : ℕ) : ℚ) ^ (m.log2 + e + 1 : ℤ) := by
    rw [add_right_comm, zpow_add₀ (by norm_num), ← div_lt_iff₀ (by exact_mod_cast he)]
    refine lt_of_lt_of_le hlt ?_
    exact_mod_cast Nat.lt_log2_self (n := m)
  have h₁ := (Int.zpow_le_iff_le_log (b := 2) (by norm_num) hx).1 hlow
  have h₂ := (Int.lt_zpow_iff_log_lt (b := 2) (by norm_num) hx).1 hhigh
  omega

theorem targetExponent_eq (t : ℤ) :
    Format.binary64.targetExponent t = max (t - 53) (-1074) := rfl

theorem targetExponent_eq_lastPlace {x : ℚ} {em : ExtendedMantissa} {e : ℤ} (hx : 0 < x)
    (h : Shows em (x / 2 ^ e)) (he : e ≤ lastPlace x) :
    Format.binary64.targetExponent (totalExponent em.mantissa e) = lastPlace x := by
  rw [targetExponent_eq, totalExponent]
  rcases em.mantissa.eq_zero_or_pos with hm | hm
  · -- Nothing is left of the number, so it lies below the least exponent.
    have hlog : Int.log 2 x < e := by
      have hlt := h.lt_add_one
      rw [hm, Nat.cast_zero, zero_add, div_lt_one (two_zpow_pos e)] at hlt
      exact (Int.lt_zpow_iff_log_lt (b := 2) (by norm_num) hx).1 (by exact_mod_cast hlt)
    have h0 : Nat.log2 0 = 0 := by decide
    rw [hm, h0]
    rw [lastPlace] at he ⊢
    omega
  · have hlog := log_eq hm h.le h.lt_add_one
    rw [lastPlace]
    omega

theorem mantissa_ofMantissaAndAccuracy (m : ℕ) (a : Accuracy) :
    (ExtendedMantissa.ofMantissaAndAccuracy m a).mantissa = m := by
  rcases a with _ | _ | _ | _ <;> rfl

theorem shiftToTargetExponent_spec {x : ℚ} {m : ℕ} {e : ℤ} {a : Accuracy} (hx : 0 < x)
    (h : Shows (.ofMantissaAndAccuracy m a) (x / 2 ^ e)) (he : e ≤ lastPlace x) :
    (shiftToTargetExponent Format.binary64 m e a).2 = lastPlace x ∧
      Shows (shiftToTargetExponent Format.binary64 m e a).1 (x / 2 ^ lastPlace x) := by
  have ht := targetExponent_eq_lastPlace hx h he
  rw [mantissa_ofMantissaAndAccuracy] at ht
  have hs : e + ((lastPlace x - e).toNat : ℤ) = lastPlace x := by omega
  rw [shiftToTargetExponent, shiftToExponent]
  rw [ht]
  refine ⟨hs, ?_⟩
  have hshift := h.shiftRight (lastPlace x - e).toNat
  rwa [div_div, ← zpow_natCast, ← zpow_add₀ (by norm_num), hs] at hshift

/-- A finite result with the nearest value, whose exponent may still be too large to be packed. -/
structure IsRounded (u : UnpackedFloat) (y : ℚ) : Prop where
  isFinite : u.isFinite = true
  canonical : IsCanonical u
  value_eq : value u = nearestSigned y

theorem isRounded_zero (s : Sign) : IsRounded (.zero s) 0 :=
  ⟨rfl, trivial, by rw [nearestSigned_of_nonneg le_rfl, nearest_zero]; rfl⟩

theorem nearestSigned_signed (s : Sign) {x : ℚ} (hx : 0 ≤ x) :
    nearestSigned (signed s x) = signed s (nearest x) := by
  cases s
  · exact nearestSigned_neg hx
  · exact nearestSigned_of_nonneg hx

theorem rounded_le (x : ℚ) : halfEven (x / 2 ^ lastPlace x) ≤ 2 ^ 53 := by
  have hlt : x < ((2 : ℕ) : ℚ) ^ (Int.log 2 x + 1) :=
    Int.lt_zpow_succ_log_self (b := 2) (by norm_num) x
  have hdiv : x / 2 ^ lastPlace x ≤ ((2 ^ 53 : ℕ) : ℚ) := by
    rw [div_le_iff₀ (two_zpow_pos _)]
    refine hlt.le.trans ?_
    rw [Nat.cast_ofNat, Nat.cast_pow, Nat.cast_ofNat, ← zpow_natCast, ← zpow_add₀ (by norm_num)]
    refine zpow_le_zpow_right₀ (by norm_num) ?_
    rw [lastPlace]
    push_cast
    omega
  simpa only [halfEven_natCast] using halfEven_mono hdiv

theorem le_rounded {x : ℚ} (hx : 0 < x) (h : lastPlace x ≠ -1074) :
    2 ^ 52 ≤ halfEven (x / 2 ^ lastPlace x) := by
  have hle : ((2 : ℕ) : ℚ) ^ Int.log 2 x ≤ x := Int.zpow_log_le_self (b := 2) (by norm_num) hx
  have hdiv : ((2 ^ 52 : ℕ) : ℚ) ≤ x / 2 ^ lastPlace x := by
    rw [le_div_iff₀ (two_zpow_pos _)]
    refine le_trans ?_ hle
    rw [Nat.cast_ofNat, Nat.cast_pow, Nat.cast_ofNat, ← zpow_natCast, ← zpow_add₀ (by norm_num)]
    refine zpow_le_zpow_right₀ (by norm_num) ?_
    rw [lastPlace] at h ⊢
    push_cast
    omega
  simpa only [halfEven_natCast] using halfEven_mono hdiv

/-- The second shift, after rounding has carried into a bit that does not fit. -/
theorem shiftToTargetExponent_rounded {n : ℕ} {k : ℤ} (hk : -1074 ≤ k) (hn : n ≤ 2 ^ 53)
    (hfull : k ≠ -1074 → 2 ^ 52 ≤ n) :
    ∃ (m : ℕ) (e : ℤ), (shiftToTargetExponent Format.binary64 n k .exact).1.mantissa = m ∧
      (shiftToTargetExponent Format.binary64 n k .exact).2 = e ∧ Canonical m e ∧
      (m * 2 ^ e : ℚ) = n * 2 ^ k := by
  rw [shiftToTargetExponent, shiftToExponent]
  rw [targetExponent_eq, totalExponent]
  dsimp only
  -- Only a carry into the next power of two leaves something to shift.
  rcases hn.lt_or_eq with hlt | rfl
  · have hlog : n.log2 ≤ 52 := by
      rcases n.eq_zero_or_pos with rfl | hpos
      · decide
      · have := (Nat.log2_lt (n := n) (k := 53) hpos.ne').2 hlt
        omega
    have hshift : (max (n.log2 + 1 + k - 53) (-1074) - k).toNat = 0 := by omega
    refine ⟨n, k, ?_, ?_, ⟨hlt, hk, ?_⟩, rfl⟩
    · rw [hshift]
      rfl
    · rw [hshift]
      simp
    · by_cases h : k = -1074
      · exact .inr h
      · exact .inl (hfull h)
  · have hlog : (2 ^ 53).log2 = 53 := by decide
    have hshift : (max (((2 ^ 53).log2 : ℤ) + 1 + k - 53) (-1074) - k).toNat = 1 := by
      rw [hlog]
      omega
    refine ⟨2 ^ 52, k + 1, ?_, ?_, ⟨by norm_num, by omega, .inl le_rfl⟩, ?_⟩
    · rw [hshift]
      rfl
    · rw [hshift]
      rfl
    · rw [zpow_add_one₀ (by norm_num)]
      push_cast
      ring

theorem roundWithAccuracy_isRounded (s : Sign) {x : ℚ} {m : ℕ} {e : ℤ} {a : Accuracy} (hx : 0 < x)
    (h : Shows (.ofMantissaAndAccuracy m a) (x / 2 ^ e)) (he : e ≤ lastPlace x) :
    IsRounded (roundWithAccuracy Format.binary64 s m e a) (signed s x) := by
  obtain ⟨hexp, hshows⟩ := shiftToTargetExponent_spec hx h he
  obtain ⟨m', e', hm', he', hcan, hval⟩ :=
    shiftToTargetExponent_rounded (k := lastPlace x) (le_max_right _ _) (rounded_le x)
      (le_rounded hx)
  have hnear : nearest x = m' * 2 ^ e' := hval.symm
  rw [roundWithAccuracy]
  dsimp only
  rw [hexp, hshows.roundedMantissa_eq]
  simp only [hm', he']
  split_ifs with hzero
  · refine ⟨rfl, trivial, ?_⟩
    rw [nearestSigned_signed s hx.le, hnear, hzero]
    cases s <;> simp [value, signed]
  · refine ⟨rfl, hcan, ?_⟩
    rw [nearestSigned_signed s hx.le, hnear]
    rfl

theorem lastPlace_eq {m : ℕ} (hm : 0 < m) (e : ℤ) :
    lastPlace (m * 2 ^ e) = max (m.log2 + e - 52) (-1074) := by
  have h : (m * 2 ^ e : ℚ) / 2 ^ e = m := mul_div_cancel_right₀ _ (two_zpow_pos e).ne'
  rw [lastPlace, log_eq hm h.ge (by rw [h]; exact lt_add_one _)]

theorem roundExact_isRounded (s : Sign) {m : ℕ} (hm : 0 < m) (e : ℤ) :
    IsRounded (UnpackedFloat.round Format.binary64 s m e) (signed s (m * 2 ^ e)) := by
  have hpos : (0 : ℚ) < m * 2 ^ e := magnitude_pos e hm
  have ht : Format.binary64.targetExponent (totalExponent m e) = lastPlace (m * 2 ^ e) := by
    rw [targetExponent_eq, totalExponent, lastPlace_eq hm]
    omega
  rw [UnpackedFloat.round, decreaseExponent]
  rw [ht]
  dsimp only
  generalize hk : (e - lastPlace (m * 2 ^ e)).toNat = k
  refine roundWithAccuracy_isRounded s hpos ?_ (by omega)
  have hval : (m * 2 ^ e : ℚ) / 2 ^ (e - k : ℤ) = (m <<< k : ℕ) := by
    rw [div_eq_iff (two_zpow_pos _).ne', Nat.shiftLeft_eq, zpow_sub₀ (by norm_num), zpow_natCast]
    push_cast
    field_simp
  rw [hval]
  exact Shows.exact _

theorem normalize_isRounded (n : ℤ) (e : ℤ) (z : Sign) :
    IsRounded (UnpackedFloat.normalize Format.binary64 n e z) (n * 2 ^ e) := by
  rw [UnpackedFloat.normalize]
  rcases lt_trichotomy n 0 with hn | rfl | hn
  · have hcast : ((-n).toNat : ℚ) = -n := by exact_mod_cast Int.toNat_of_nonneg (by omega : 0 ≤ -n)
    rw [compare_lt_iff_lt.2 hn]
    simpa [signed, hcast] using roundExact_isRounded .negative (by omega : 0 < (-n).toNat) e
  · simpa using isRounded_zero z
  · have hcast : (n.toNat : ℚ) = n := by exact_mod_cast Int.toNat_of_nonneg hn.le
    rw [compare_gt_iff_gt.2 hn]
    simpa [signed, hcast] using roundExact_isRounded .positive (by omega : 0 < n.toNat) e

theorem InRange.isRounded {u : UnpackedFloat} (h : InRange u) (hf : u.isFinite = true) :
    IsRounded u (value u) := by
  cases u with
  | infinity s => cases hf
  | notANumber => cases hf
  | zero s => exact isRounded_zero s
  | finite s m e hm =>
      refine ⟨rfl, h.1, ?_⟩
      have hlast : lastPlace (m * 2 ^ e) = e := by
        rw [lastPlace_eq hm]
        obtain ⟨⟨hlt, hleast, hfull⟩, -⟩ := h
        have hlog : m.log2 < 53 := (Nat.log2_lt hm.ne').2 hlt
        rcases hfull with hlo | rfl
        · have := (Nat.le_log2 hm.ne').2 hlo
          omega
        · omega
      have hnear : nearest (m * 2 ^ e) = m * 2 ^ e := by
        rw [nearest, hlast, mul_div_cancel_right₀ _ (two_zpow_pos e).ne', halfEven_natCast]
      rw [value, nearestSigned_signed s (magnitude_pos e hm).le, hnear]

/-- Packing turns what is too large into an infinity, whose value is the bound. -/
theorem IsRounded.unpack_pack {u : UnpackedFloat} {y : ℚ} (h : IsRounded u y) :
    (Float.Model.pack u).unpack ≠ .notANumber ∧
      value (Float.Model.pack u).unpack = Nearest.round y := by
  have hb := bound_pos
  obtain ⟨hf, hcan, hval⟩ := h
  rw [Nearest.round]
  rw [← hval]
  cases u with
  | infinity s => cases hf
  | notANumber => cases hf
  | zero s =>
      rw [unpack_pack_zero]
      constructor
      · intro hn
        cases hn
      · simp [value, hb.le]
  | finite s m e hm =>
      have hpos := magnitude_pos e hm
      rcases lt_or_ge 971 e with he | he
      · have hle := hcan.bound_le he
        rw [unpack_pack_overflow s hm he]
        constructor
        · intro hn
          cases hn
        · cases s
          · rw [value, value, signed, signed,
              max_eq_left ((min_le_right _ _).trans (neg_le_neg hle))]
          · rw [value, value, signed, signed, min_eq_left hle, max_eq_right (by linarith)]
      · have hlt := hcan.lt_bound he
        rw [Double.unpack_pack (u := .finite s m e hm) ⟨hcan, he⟩]
        constructor
        · intro hn
          cases hn
        · cases s
          · simp only [value, signed]
            rw [min_eq_right (by linarith), max_eq_right (by linarith)]
          · simp only [value, signed]
            rw [min_eq_right (by linarith), max_eq_right (by linarith)]

end Emend.Double
