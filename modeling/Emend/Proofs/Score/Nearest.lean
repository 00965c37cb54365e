import Mathlib.Algebra.Order.Floor.Semifield
import Mathlib.Data.Int.Log
import Mathlib.Data.Rat.Floor
import Mathlib.Tactic.Linarith
import Mathlib.Tactic.Ring

namespace Emend.Nearest

/-- The nearest natural number; a half goes to the even neighbour. -/
def halfEven (x : ℚ) : ℕ :=
  let q := ⌊x⌋₊
  if x < q + 1 / 2 then q else if q + 1 / 2 < x then q + 1 else q + q % 2

theorem floor_le_halfEven (x : ℚ) : ⌊x⌋₊ ≤ halfEven x := by
  simp only [halfEven]
  split_ifs <;> omega

theorem halfEven_le_floor_add_one (x : ℚ) : halfEven x ≤ ⌊x⌋₊ + 1 := by
  simp only [halfEven]
  split_ifs <;> omega

theorem halfEven_mono {x y : ℚ} (h : x ≤ y) : halfEven x ≤ halfEven y := by
  rcases (Nat.floor_mono h).lt_or_eq with hlt | heq
  · have hx := halfEven_le_floor_add_one x
    have hy := floor_le_halfEven y
    omega
  · unfold halfEven
    dsimp only
    rw [heq]
    split_ifs <;> first | omega | (exfalso; linarith)

@[simp] theorem halfEven_natCast (n : ℕ) : halfEven n = n := by
  simp [halfEven]

theorem halfEven_le_add_half {x : ℚ} (h : 0 ≤ x) : (halfEven x : ℚ) ≤ x + 1 / 2 := by
  have hfloor : (⌊x⌋₊ : ℚ) ≤ x := Nat.floor_le h
  simp only [halfEven]
  split_ifs with hlow hhigh
  · linarith
  · push_cast
    linarith
  · have hodd : ((⌊x⌋₊ % 2 : ℕ) : ℚ) ≤ 1 := by
      exact_mod_cast Nat.lt_succ_iff.1 (Nat.mod_lt _ two_pos)
    push_cast
    linarith

theorem two_zpow_pos (k : ℤ) : (0 : ℚ) < 2 ^ k := zpow_pos (by norm_num) k

/-- The exponent of the last binary digit that is kept of a number. -/
def lastPlace (x : ℚ) : ℤ := max (Int.log 2 x - 52) (-1074)

/-- The nearest number with 53 binary digits. -/
def nearest (x : ℚ) : ℚ := halfEven (x / 2 ^ lastPlace x) * 2 ^ lastPlace x

theorem nearest_nonneg (x : ℚ) : 0 ≤ nearest x :=
  mul_nonneg (Nat.cast_nonneg _) (two_zpow_pos _).le

theorem nearest_zero : nearest 0 = 0 := by
  simp [nearest, halfEven]

theorem lastPlace_mono {x y : ℚ} (hx : 0 < x) (h : x ≤ y) : lastPlace x ≤ lastPlace y :=
  max_le_max (sub_le_sub_right (Int.log_mono_right hx h) _) le_rfl

theorem exists_zpow_eq_mul {j k : ℤ} (h : j ≤ k) :
    ∃ n : ℕ, (2 : ℚ) ^ k = ((2 ^ n : ℕ) : ℚ) * 2 ^ j := by
  refine ⟨(k - j).toNat, ?_⟩
  rw [Nat.cast_pow, Nat.cast_ofNat, ← zpow_natCast, ← zpow_add₀ (by norm_num)]
  congr 1
  omega

theorem nearest_le_zpow {x : ℚ} {k : ℤ} (hk : lastPlace x ≤ k) (hx : x ≤ 2 ^ (k + 53)) :
    nearest x ≤ 2 ^ (k + 53) := by
  have hp := two_zpow_pos (lastPlace x)
  obtain ⟨n, hpow⟩ := exists_zpow_eq_mul (by omega : lastPlace x ≤ k + 53)
  have hdiv : x / 2 ^ lastPlace x ≤ ((2 ^ n : ℕ) : ℚ) := (div_le_iff₀ hp).2 (hpow ▸ hx)
  have hhalf : halfEven (x / 2 ^ lastPlace x) ≤ 2 ^ n := by
    simpa only [halfEven_natCast] using halfEven_mono hdiv
  rw [nearest, hpow]
  exact mul_le_mul_of_nonneg_right (by exact_mod_cast hhalf) hp.le

theorem zpow_le_nearest {x : ℚ} {k : ℤ} (hk : lastPlace x ≤ k) (hx : 2 ^ k ≤ x) :
    2 ^ k ≤ nearest x := by
  have hp := two_zpow_pos (lastPlace x)
  obtain ⟨n, hpow⟩ := exists_zpow_eq_mul hk
  have hdiv : ((2 ^ n : ℕ) : ℚ) ≤ x / 2 ^ lastPlace x := (le_div_iff₀ hp).2 (hpow ▸ hx)
  have hhalf : 2 ^ n ≤ halfEven (x / 2 ^ lastPlace x) := by
    simpa only [halfEven_natCast] using halfEven_mono hdiv
  rw [nearest, hpow]
  exact mul_le_mul_of_nonneg_right (by exact_mod_cast hhalf) hp.le

theorem nearest_mono {x y : ℚ} (hx : 0 ≤ x) (h : x ≤ y) : nearest x ≤ nearest y := by
  rcases hx.eq_or_lt with rfl | hpos
  · rw [nearest_zero]
    exact nearest_nonneg y
  rcases (lastPlace_mono hpos h).lt_or_eq with hlt | heq
  · -- A power of two lies between numbers whose last places differ.
    have hx' : x < 2 ^ (Int.log 2 x + 1) := by
      exact_mod_cast Int.lt_zpow_succ_log_self (b := 2) (by norm_num) x
    have hy' : (2 : ℚ) ^ Int.log 2 y ≤ y := by
      exact_mod_cast Int.zpow_log_le_self (b := 2) (by norm_num) (hpos.trans_le h)
    have hk : Int.log 2 y = (lastPlace y - 1) + 53 := by
      simp only [lastPlace] at hlt ⊢
      omega
    have hk' : Int.log 2 x + 1 ≤ (lastPlace y - 1) + 53 := by
      rw [lastPlace] at hlt ⊢
      omega
    calc nearest x ≤ 2 ^ (lastPlace y - 1 + 53) :=
          nearest_le_zpow (by omega)
            (hx'.le.trans (zpow_le_zpow_right₀ (by norm_num) hk'))
      _ ≤ nearest y := by
          rw [← hk]
          exact zpow_le_nearest (by omega) hy'
  · rw [nearest]
    rw [heq]
    have hp := two_zpow_pos (lastPlace y)
    refine mul_le_mul_of_nonneg_right ?_ hp.le
    exact_mod_cast halfEven_mono ((div_le_div_iff_of_pos_right hp).2 h)

/-- A number that is not below one moves up by at most half a unit in the last of its places. -/
theorem nearest_le_of_one_le {x : ℚ} (h : 1 ≤ x) : nearest x ≤ x * (1 + 2 ^ (-53 : ℤ)) := by
  have hlast : lastPlace x = Int.log 2 x - 52 := by
    have hlog := Int.log_mono_right (b := 2) one_pos h
    rw [Int.log_one_right] at hlog
    rw [lastPlace, max_eq_left (by omega)]
  have hunit : (2 : ℚ) ^ lastPlace x ≤ x * 2 ^ (-52 : ℤ) := by
    have hpow : ((2 : ℕ) : ℚ) ^ Int.log 2 x ≤ x := Int.zpow_log_le_self (by norm_num) (by linarith)
    rw [hlast, sub_eq_add_neg, zpow_add₀ (by norm_num)]
    exact mul_le_mul_of_nonneg_right (by exact_mod_cast hpow) (two_zpow_pos _).le
  have hp := two_zpow_pos (lastPlace x)
  calc nearest x ≤ (x / 2 ^ lastPlace x + 1 / 2) * 2 ^ lastPlace x :=
        mul_le_mul_of_nonneg_right (halfEven_le_add_half (div_nonneg (by linarith) hp.le)) hp.le
    _ = x + 1 / 2 * 2 ^ lastPlace x := by rw [add_mul, div_mul_cancel₀ _ hp.ne']
    _ ≤ x + 1 / 2 * (x * 2 ^ (-52 : ℤ)) :=
        add_le_add_right (mul_le_mul_of_nonneg_left hunit (by norm_num)) x
    _ = x * (1 + 2 ^ (-53 : ℤ)) := by norm_num; ring

theorem halfEven_eq {z : ℚ} {m : ℕ} (hm : 0 < m) (hlow : m - 1 / 2 ≤ z) (hhigh : z ≤ m + 1 / 2)
    (htie : m % 2 = 1 → m - 1 / 2 < z ∧ z < m + 1 / 2) : halfEven z = m := by
  rcases lt_or_ge z m with hlt | hge
  · have hfloor : ⌊z⌋₊ = m - 1 := by
      rw [Nat.floor_eq_iff (by have : (1 : ℚ) ≤ m := by exact_mod_cast hm
                               linarith)]
      rw [Nat.cast_pred hm]
      constructor <;> linarith
    have hcast : ((m - 1 : ℕ) : ℚ) = m - 1 := Nat.cast_pred hm
    simp only [halfEven]
    rw [hfloor, hcast, if_neg (by linarith)]
    split_ifs with hup
    · omega
    · have heven : m % 2 ≠ 1 := fun h => hup (by linarith [htie h])
      omega
  · have hfloor : ⌊z⌋₊ = m := by
      rw [Nat.floor_eq_iff ((Nat.cast_nonneg m).trans hge)]
      constructor <;> linarith
    simp only [halfEven]
    rw [hfloor]
    split_ifs with hdown hup
    · rfl
    · linarith
    · have heven : m % 2 ≠ 1 := fun h => hdown (by linarith [htie h])
      omega

theorem log_eq {y : ℚ} {k : ℤ} (hlow : 2 ^ k ≤ y) (hhigh : y < 2 ^ (k + 1)) :
    Int.log 2 y = k := by
  have hpos : 0 < y := (two_zpow_pos k).trans_le hlow
  have hle := (Int.zpow_le_iff_le_log (b := 2) (by norm_num) hpos).1 (by exact_mod_cast hlow)
  have hlt := (Int.lt_zpow_iff_log_lt (b := 2) (by norm_num) hpos).1 (by exact_mod_cast hhigh)
  omega

theorem nearest_eq {y : ℚ} {m : ℕ} {e : ℤ} (hm : 0 < m) (hlast : lastPlace y = e)
    (hlow : (m - 1 / 2) * 2 ^ e ≤ y) (hhigh : y ≤ (m + 1 / 2) * 2 ^ e)
    (htie : m % 2 = 1 → (m - 1 / 2) * 2 ^ e < y ∧ y < (m + 1 / 2) * 2 ^ e) :
    nearest y = m * 2 ^ e := by
  have hp := two_zpow_pos e
  rw [nearest]
  rw [hlast, halfEven_eq hm ((le_div_iff₀ hp).2 hlow) ((div_le_iff₀ hp).2 hhigh)]
  intro hodd
  rw [lt_div_iff₀ hp, div_lt_iff₀ hp]
  exact htie hodd

/-- Below a power of two the last place is finer. -/
theorem nearest_eq_of_lt_power {y : ℚ} {e : ℤ} (he : -1074 < e)
    (hlow : (2 ^ 52 - 1 / 4) * 2 ^ e ≤ y) (hlt : y < 2 ^ 52 * 2 ^ e) :
    nearest y = 2 ^ 52 * 2 ^ e := by
  have hp := two_zpow_pos (e - 1)
  have hhalf : (2 : ℚ) ^ e = 2 * 2 ^ (e - 1) := by
    rw [zpow_sub_one₀ (by norm_num)]
    ring
  rw [hhalf] at hlow hlt ⊢
  have hpower : (2 : ℚ) ^ (e - 1 + 52) = 2 ^ 52 * 2 ^ (e - 1) := by
    rw [zpow_add₀ (by norm_num), mul_comm]
    norm_num
  have hpower' : (2 : ℚ) ^ (e - 1 + 52 + 1) = 2 * (2 ^ 52 * 2 ^ (e - 1)) := by
    rw [zpow_add_one₀ (by norm_num), hpower, mul_comm]
  have hlog : Int.log 2 y = e - 1 + 52 :=
    log_eq (by rw [hpower]; linarith) (by rw [hpower']; linarith)
  have hplace : lastPlace y = e - 1 := by
    rw [lastPlace, hlog]
    omega
  have hnearest := nearest_eq (m := 2 ^ 53) (by norm_num) hplace (by push_cast; linarith)
    (by push_cast; linarith) (by norm_num)
  rw [hnearest]
  push_cast
  ring

def nearestSigned (x : ℚ) : ℚ := if x < 0 then -nearest (-x) else nearest x

theorem nearestSigned_of_nonneg {x : ℚ} (h : 0 ≤ x) : nearestSigned x = nearest x :=
  if_neg (not_lt.2 h)

theorem nearestSigned_neg {x : ℚ} (h : 0 ≤ x) : nearestSigned (-x) = -nearest x := by
  rcases h.eq_or_lt with rfl | hpos
  · rw [neg_zero, nearestSigned_of_nonneg le_rfl, nearest_zero, neg_zero]
  · rw [nearestSigned, if_pos (neg_neg_of_pos hpos), neg_neg]

theorem nearestSigned_mono {x y : ℚ} (h : x ≤ y) : nearestSigned x ≤ nearestSigned y := by
  simp only [nearestSigned]
  split_ifs with hx hy hy
  · exact neg_le_neg (nearest_mono (by linarith) (by linarith))
  · have := nearest_nonneg (-x)
    have := nearest_nonneg y
    linarith
  · linarith
  · exact nearest_mono (by linarith) h

/-- What stands for infinity. -/
def bound : ℚ := 2 ^ (1024 : ℤ)

theorem bound_pos : 0 < bound := two_zpow_pos _

/-- The rounded value, which goes no further than the bound. -/
def round (x : ℚ) : ℚ := max (-bound) (min bound (nearestSigned x))

theorem round_mono {x y : ℚ} (h : x ≤ y) : round x ≤ round y :=
  max_le_max le_rfl (min_le_min le_rfl (nearestSigned_mono h))

theorem round_lt_bound {x : ℚ} (h0 : 0 ≤ x) (h : x ≤ 2 ^ (100 : ℤ)) : round x < bound := by
  have hnear : nearest x ≤ 2 ^ (101 : ℤ) := by
    rcases h0.eq_or_lt with rfl | hpos
    · rw [nearest_zero]
      exact (two_zpow_pos _).le
    · have hlog : Int.log 2 x ≤ 100 := by
        have hle : x ≤ ((2 : ℕ) : ℚ) ^ (100 : ℤ) := by exact_mod_cast h
        have := Int.log_mono_right (b := 2) hpos hle
        rwa [Int.log_zpow (by norm_num)] at this
      have hlast : lastPlace x ≤ 48 := by
        rw [lastPlace]
        omega
      exact nearest_le_zpow hlast (h.trans (zpow_le_zpow_right₀ (by norm_num) (by norm_num)))
  have hlt : (2 : ℚ) ^ (101 : ℤ) < bound := zpow_lt_zpow_right₀ (by norm_num) (by norm_num)
  rw [round, nearestSigned_of_nonneg h0]
  exact max_lt (by linarith [bound_pos]) ((min_le_right _ _).trans_lt (hnear.trans_lt hlt))

theorem round_zero : round 0 = 0 := by
  rw [round, nearestSigned_of_nonneg le_rfl, nearest_zero, min_eq_right bound_pos.le,
    max_eq_right (by linarith [bound_pos])]

theorem round_nonneg {x : ℚ} (h : 0 ≤ x) : 0 ≤ round x := round_zero ▸ round_mono h

theorem round_natCast_le (n : ℕ) : round n ≤ n * (1 + 2 ^ (-53 : ℤ)) := by
  rcases Nat.eq_zero_or_pos n with rfl | hpos
  · rw [Nat.cast_zero, round_zero, zero_mul]
  have hone : (1 : ℚ) ≤ n := by exact_mod_cast hpos
  have hnonneg := nearest_nonneg n
  rw [round, nearestSigned_of_nonneg (by linarith)]
  exact (max_le (by linarith [bound_pos]) (min_le_right _ _)).trans (nearest_le_of_one_le hone)

end Emend.Nearest
