import Emend.Decimal.Numeral
import Emend.Proofs.Decimal.Literal
import Mathlib.Algebra.Order.Field.Rat
import Mathlib.Algebra.Order.Ring.Abs
import Mathlib.Data.Rat.Cast.Order

namespace Emend

namespace Literal

def power (l : Literal) : ℤ :=
  match l.exponent with
  | none => 0
  | some (negative, digits) => if negative then -natOfDigits digits else natOfDigits digits

/-- The number that the literal denotes. -/
def value (l : Literal) : ℚ :=
  (if l.negative then -1 else 1) * natOfDigits (l.whole ++ l.fraction) *
    10 ^ (l.power - l.fraction.length)

theorem abs_value (l : Literal) :
    |l.value| = natOfDigits (l.whole ++ l.fraction) * 10 ^ (l.power - l.fraction.length) := by
  have hpow : (0 : ℚ) ≤ 10 ^ (l.power - l.fraction.length) := (zpow_pos (by norm_num) _).le
  rw [value, abs_mul, abs_mul, abs_of_nonneg hpow, Nat.abs_cast]
  cases l.negative <;> simp

theorem value_eq_sign_mul_abs (l : Literal) :
    l.value = (if l.negative then -1 else 1) * |l.value| := by
  rw [abs_value, value, mul_assoc]

theorem power_plain (negative : Bool) (whole fraction : Text) :
    (⟨negative, whole, fraction, none⟩ : Literal).power = 0 := rfl

theorem power_signed (negative : Bool) (whole fraction : Text) (e : ℤ) :
    (⟨negative, whole, fraction, some (decide (e < 0), digitsOfNat e.natAbs)⟩ : Literal).power =
      e := by
  rw [power]
  dsimp only
  rw [natOfDigits_digitsOfNat]
  by_cases he : e < 0
  · rw [if_pos (decide_eq_true he)]
    omega
  · rw [if_neg (by simpa using he)]
    omega

theorem negative_ofDigits (negative : Bool) (digits : Text) (point : ℤ) :
    (ofDigits negative digits point).negative = negative := by
  rw [ofDigits]
  split_ifs <;> rfl

theorem abs_value_ofDigits (negative : Bool) {digits : Text} (h : digits ≠ []) (point : ℤ) :
    |(ofDigits negative digits point).value| =
      natOfDigits digits * 10 ^ (point - digits.length) := by
  rw [abs_value, ofDigits]
  split_ifs with hsmall hmiddle
  · have hdigits : natOfDigits (['0'] ++ (List.replicate (-point).toNat '0' ++ digits)) =
        natOfDigits digits := natOfDigits_zeros_append ((-point).toNat + 1) digits
    have hpower : (0 : ℤ) - (List.replicate (-point).toNat '0' ++ digits).length =
        point - digits.length := by
      rw [List.length_append, List.length_replicate]
      omega
    rw [hdigits, power_plain, hpower]
  · obtain ⟨p, rfl⟩ : ∃ p : ℕ, point = p := ⟨point.toNat, by omega⟩
    dsimp only
    rw [power_plain, Int.toNat_natCast]
    by_cases hlength : digits.length ≤ p
    · obtain ⟨k, rfl⟩ := Nat.exists_eq_add_of_le hlength
      have hzeros : digits ++ List.replicate k '0' ++ ['0'] =
          digits ++ List.replicate (k + 1) '0' := by
        rw [List.append_assoc, ← List.replicate_succ']
      rw [List.drop_eq_nil_of_le hlength, if_pos rfl, List.take_of_length_le hlength,
        Nat.add_sub_cancel_left, hzeros, natOfDigits_append_zeros]
      push_cast
      rw [mul_assoc, ← zpow_natCast, ← zpow_add₀ (by norm_num)]
      congr 2
      rw [List.length_singleton]
      push_cast
      ring
    · have hdrop : digits.drop p ≠ [] := by
        rw [ne_eq, List.drop_eq_nil_iff]
        exact hlength
      rw [if_neg hdrop, List.length_take, min_eq_left (by omega), Nat.sub_self, List.replicate_zero,
        List.append_nil, List.take_append_drop, List.length_drop]
      congr 2
      omega
  · obtain ⟨d, ds, rfl⟩ := List.exists_cons_of_ne_nil h
    dsimp only
    rw [power_signed, List.take_succ_cons, List.take_zero, List.drop_succ_cons, List.drop_zero]
    congr 2
    rw [List.length_cons]
    push_cast
    ring

theorem natOfDigits_shortest (c : Nat) (t : ℤ) :
    (natOfDigits ((digitsOfNat c).dropEndWhile (· == '0')) *
      10 ^ (t + (digitsOfNat c).length - ((digitsOfNat c).dropEndWhile (· == '0')).length) : ℚ) =
        c * 10 ^ t := by
  obtain ⟨zeros, hzeros, hdigits⟩ := (digitsOfNat c).exists_append_of_dropEndWhile (· == '0')
  obtain ⟨k, rfl⟩ : ∃ k, zeros = List.replicate k '0' :=
    ⟨_, List.eq_replicate_of_mem fun d hd => beq_iff_eq.1 (hzeros d hd)⟩
  generalize (digitsOfNat c).dropEndWhile (· == '0') = kept at hdigits
  have hc : (c : ℚ) = natOfDigits kept * 10 ^ k := by
    rw [← natOfDigits_digitsOfNat c, hdigits, natOfDigits_append_zeros]
    push_cast
    rfl
  have hpower : t + (digitsOfNat c).length - kept.length = k + t := by
    rw [hdigits, List.length_append, List.length_replicate]
    push_cast
    ring
  rw [hc, hpower, zpow_add₀ (by norm_num), zpow_natCast, mul_assoc]

theorem value_ofDigits_shortest (negative : Bool) {c : Nat} (hc : c ≠ 0) (t : ℤ) :
    (ofDigits negative ((digitsOfNat c).dropEndWhile (· == '0'))
      (t + (digitsOfNat c).length)).value = (if negative then -1 else 1) * (c * 10 ^ t) := by
  have hne : (digitsOfNat c).dropEndWhile (· == '0') ≠ [] := fun hnil => by
    have hhead := (digits_dropEndWhile hc).2
    rw [hnil] at hhead
    cases hhead
  rw [value_eq_sign_mul_abs, negative_ofDigits, abs_value_ofDigits negative hne,
    natOfDigits_shortest]

def ofQuotient (negative : Bool) (n k : Nat) : Literal :=
  ⟨negative, digitsOfNat n, [], some (true, digitsOfNat k)⟩

end Literal

/-- Numbers are read without rounding. Those with a denominator that divides a power of ten have a
literal. -/
instance instNumeralRat : Numeral ℚ where
  literal? x :=
    if x.den ∣ 10 ^ x.den then
      some (.ofQuotient (x < 0) (x.num.natAbs * (10 ^ x.den / x.den)) x.den)
    else none
  ofLiteral? l := some l.value
  twoPlaces x :=
    let n := roundDiv (x.num.natAbs * 100) x.den
    (if x < 0 then ['-'] else []) ++ digitsOfNat (n / 100) ++
      ['.', (n / 10 % 10).digitChar, (n % 10).digitChar]

end Emend
