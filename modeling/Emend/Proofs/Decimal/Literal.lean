import Emend.Decimal.Double
import Emend.Proofs.Json.Reader
import Emend.Proofs.Text.Blank
import Mathlib.Data.List.Induction
import Mathlib.Data.Nat.Digits.Defs
import Mathlib.Tactic.Ring

namespace Emend

open Json.Reader

theorem natOfDigits_digitsOfNat (n : Nat) : natOfDigits (digitsOfNat n) = n :=
  Nat.ofDigitChars_ten_toDigits

theorem digitsOfNat_ne_nil (n : Nat) : digitsOfNat n ≠ [] := Nat.toDigits_ne_nil

theorem all_isDigit_digitsOfNat (n : Nat) : (digitsOfNat n).all isDigit = true := by
  rw [List.all_eq_true]
  intro c hc
  have hdigit := Nat.isDigit_of_mem_toDigits (by decide) (by decide) hc
  simpa [isDigit, Char.isDigit, Char.le_def] using hdigit

theorem digitsOfNat_eq (n : Nat) :
    digitsOfNat n =
      if n < 10 then [n.digitChar] else digitsOfNat (n / 10) ++ [(n % 10).digitChar] :=
  Nat.toDigits_eq_if (by decide)

theorem head?_digitsOfNat {n : Nat} (h : n ≠ 0) : (digitsOfNat n).head?.any (· != '0') = true := by
  induction n using Nat.strongRecOn with
  | _ n ih =>
      rw [digitsOfNat_eq]
      split_ifs with hlt
      · have hall : ∀ n < 10, n ≠ 0 → [Nat.digitChar n].head?.any (· != '0') = true := by decide
        exact hall n hlt h
      · have hhead := ih (n / 10) (by omega) (by omega)
        cases hdigits : digitsOfNat (n / 10) with
        | nil => exact absurd hdigits (digitsOfNat_ne_nil _)
        | cons c cs =>
            rw [hdigits] at hhead
            exact hhead

namespace Literal

theorem digits_dropEndWhile {c : Nat} (h : c ≠ 0) :
    ((digitsOfNat c).dropEndWhile (· == '0')).all isDigit = true ∧
      ((digitsOfNat c).dropEndWhile (· == '0')).head?.any (· != '0') = true := by
  obtain ⟨zeros, hzeros, hdigits⟩ := (digitsOfNat c).exists_append_of_dropEndWhile (· == '0')
  have hall := all_isDigit_digitsOfNat c
  have hhead := head?_digitsOfNat h
  rw [hdigits, List.all_append, Bool.and_eq_true] at hall
  rw [hdigits] at hhead
  refine ⟨hall.1, ?_⟩
  cases hkept : (digitsOfNat c).dropEndWhile (· == '0') with
  | nil =>
      rw [hkept, List.nil_append] at hhead
      cases zeros with
      | nil => cases hhead
      | cons d ds =>
          obtain rfl : d = '0' := by simpa using hzeros d (by simp)
          cases hhead
  | cons d ds =>
      rw [hkept] at hhead
      exact hhead

theorem digitValue_le {d : Char} (h : isDigit d = true) : digitValue d ≤ 9 := by
  rw [isDigit, Bool.and_eq_true, decide_eq_true_eq, decide_eq_true_eq] at h
  have hle : d.toNat ≤ '9'.toNat := h.2
  exact Nat.sub_le_sub_right hle _

theorem one_le_digitValue {d : Char} (h : isDigit d = true) (hne : d ≠ '0') :
    1 ≤ digitValue d := by
  rw [isDigit, Bool.and_eq_true, decide_eq_true_eq, decide_eq_true_eq] at h
  have hlt : '0'.toNat < d.toNat := lt_of_le_of_ne h.1 fun he => hne (Char.toNat_inj.1 he).symm
  exact Nat.sub_pos_of_lt hlt

def followedBy (n : Nat) (ds : Text) : Nat := ds.foldl (fun n d => 10 * n + digitValue d) n

theorem natOfDigits_append (ds es : Text) :
    natOfDigits (ds ++ es) = followedBy (natOfDigits ds) es := List.foldl_append

theorem le_followedBy (n : Nat) (ds : Text) : n * 10 ^ ds.length ≤ followedBy n ds := by
  induction ds generalizing n with
  | nil => exact (Nat.mul_one n).le
  | cons d ds ih =>
      calc n * 10 ^ (ds.length + 1) = 10 * n * 10 ^ ds.length := by ring
        _ ≤ (10 * n + digitValue d) * 10 ^ ds.length :=
            Nat.mul_le_mul_right _ (Nat.le_add_right _ _)
        _ ≤ followedBy n (d :: ds) := ih _

theorem self_le_followedBy (n : Nat) (ds : Text) : n ≤ followedBy n ds :=
  (Nat.le_mul_of_pos_right n (Nat.pow_pos (by decide))).trans (le_followedBy n ds)

theorem followedBy_lt (n : Nat) {ds : Text} (h : ds.all isDigit = true) :
    followedBy n ds < (n + 1) * 10 ^ ds.length := by
  induction ds generalizing n with
  | nil => exact (Nat.lt_succ_self n).trans_eq (Nat.mul_one _).symm
  | cons d ds ih =>
      rw [List.all_cons, Bool.and_eq_true] at h
      have hd := digitValue_le h.1
      calc followedBy (10 * n + digitValue d) ds < (10 * n + digitValue d + 1) * 10 ^ ds.length :=
            ih _ h.2
        _ ≤ (n + 1) * 10 * 10 ^ ds.length := Nat.mul_le_mul_right _ (by omega)
        _ = (n + 1) * 10 ^ (ds.length + 1) := by ring

theorem followedBy_zeros (n k : Nat) : followedBy n (List.replicate k '0') = n * 10 ^ k := by
  induction k generalizing n with
  | zero => exact (Nat.mul_one n).symm
  | succ k ih =>
      calc followedBy n (List.replicate (k + 1) '0')
          = followedBy (10 * n + digitValue '0') (List.replicate k '0') := by
            rw [List.replicate_succ, followedBy, followedBy, List.foldl_cons]
        _ = (10 * n + digitValue '0') * 10 ^ k := ih _
        _ = n * 10 ^ (k + 1) := by
            rw [digitValue, Nat.sub_self]
            ring

theorem natOfDigits_zeros_append (k : Nat) (ds : Text) :
    natOfDigits (List.replicate k '0' ++ ds) = natOfDigits ds := by
  have hzeros : natOfDigits (List.replicate k '0') = 0 :=
    (followedBy_zeros 0 k).trans (Nat.zero_mul _)
  rw [natOfDigits_append, hzeros]
  rfl

theorem natOfDigits_append_zeros (ds : Text) (k : Nat) :
    natOfDigits (ds ++ List.replicate k '0') = natOfDigits ds * 10 ^ k := by
  rw [natOfDigits_append, followedBy_zeros]

theorem natOfDigits_lt {ds : Text} (h : ds.all isDigit = true) :
    natOfDigits ds < 10 ^ ds.length :=
  (followedBy_lt 0 h).trans_eq (by rw [Nat.zero_add, Nat.one_mul])

theorem pow_le_natOfDigits {digits : Text} (hall : digits.all isDigit = true)
    (hhead : digits.head?.any (· != '0') = true) :
    10 ^ (digits.length - 1) ≤ natOfDigits digits := by
  cases digits with
  | nil => cases hhead
  | cons d ds =>
      have hd : 1 ≤ digitValue d := by
        rw [List.all_cons, Bool.and_eq_true] at hall
        have hne : d ≠ '0' := by simpa using hhead
        exact one_le_digitValue hall.1 hne
      calc 10 ^ ds.length ≤ digitValue d * 10 ^ ds.length := Nat.le_mul_of_pos_left _ hd
        _ ≤ followedBy (digitValue d) ds := le_followedBy _ ds
        _ = natOfDigits (d :: ds) := by
          rw [natOfDigits, List.foldl_cons, Nat.mul_zero, Nat.zero_add, followedBy]

theorem all_isDigit_whole {l : Literal} (h : l.isWritten = true) :
    l.whole.all isDigit = true := by
  simp only [isWritten, Bool.and_eq_true, Bool.or_eq_true, beq_iff_eq] at h
  rcases h.1.1 with hzero | hwhole
  · rw [hzero]
    rfl
  · exact hwhole.2

theorem isWritten_ofNat (n : Nat) : (Literal.ofNat n).isWritten = true := by
  by_cases h : n = 0
  · subst h
    decide
  · simp [isWritten, ofNat, head?_digitsOfNat h, all_isDigit_digitsOfNat]

theorem natBelow?_ofNat {n bound : Nat} (h : n < bound) : (ofNat n).natBelow? bound = some n := by
  have hnat : (ofNat n).nat? = some n := by simp [nat?, ofNat, natOfDigits_digitsOfNat]
  rw [natBelow?, hnat, Option.filter_some, if_pos (by simpa using h)]

/-- Digits without a zero in front make a literal wherever the point is. -/
theorem isWritten_ofDigits (negative : Bool) {digits : Text} (point : Int)
    (hall : digits.all isDigit = true) (hhead : digits.head?.any (· != '0') = true) :
    (ofDigits negative digits point).isWritten = true := by
  have hzeros (n : Nat) : (List.replicate n '0').all isDigit = true := by
    rw [List.all_eq_true]
    intro c hc
    rw [List.eq_of_mem_replicate hc]
    rfl
  cases digits with
  | nil => cases hhead
  | cons d ds =>
      have hzero : d ≠ '0' := by simpa using hhead
      rw [List.all_cons, Bool.and_eq_true] at hall
      have htake (n : Nat) : (ds.take n).all isDigit = true :=
        List.all_eq_true.2 fun c hc => List.all_eq_true.1 hall.2 c (List.mem_of_mem_take hc)
      have hdrop (n : Nat) : (ds.drop n).all isDigit = true :=
        List.all_eq_true.2 fun c hc => List.all_eq_true.1 hall.2 c (List.mem_of_mem_drop hc)
      have hdigit : isDigit '0' = true := rfl
      rw [ofDigits]
      split_ifs with hsmall hmiddle
      · simp [isWritten, hzeros, hall.1, hall.2]
      · obtain ⟨n, hn⟩ : ∃ n : Nat, point.toNat = n + 1 := ⟨point.toNat - 1, by omega⟩
        rw [hn, List.take_succ_cons, List.drop_succ_cons]
        cases hfraction : ds.drop n with
        | nil => simp [isWritten, hzeros, hall.1, htake, hzero, hdigit]
        | cons c cs =>
            have hrest := hdrop n
            rw [hfraction] at hrest
            simp [isWritten, hzeros, hall.1, htake, hzero, List.all_cons ▸ hrest]
      · simp [isWritten, hall.1, hall.2, hzero, digitsOfNat_ne_nil, all_isDigit_digitsOfNat]

end Literal

namespace Dyadic

variable {x : Dyadic} {c : Nat} {t : Int}

theorem up_pos (x : Dyadic) : 0 < x.up := Nat.two_pow_pos _

theorem gapBelow_le (x : Dyadic) : x.gapBelow ≤ 2 := by
  rw [gapBelow]
  split_ifs <;> decide

theorem ReadsAs.ne_zero (h : x.ReadsAs c t) (hx : x.mantissa ≠ 0) : c ≠ 0 := by
  rintro rfl
  have hscale : 0 < x.up * pow10 (-t).toNat := Nat.mul_pos x.up_pos (Nat.pow_pos (by decide))
  have hlow : 0 < (4 * x.mantissa - x.gapBelow) * (x.up * pow10 (-t).toNat) := by
    refine Nat.mul_pos ?_ hscale
    have := x.gapBelow_le
    omega
  rw [ReadsAs] at h
  simp only [Nat.zero_mul] at h
  split_ifs at h <;> omega

theorem readsAs_of_onGrid? (h : x.onGrid? t = some c) : x.ReadsAs c t := by
  have hround (a b : Nat) : roundDiv a b = a / b ∨ roundDiv a b = a / b + 1 := by
    rw [roundDiv]
    split_ifs <;> simp
  rw [onGrid?] at h
  split at h
  · rename_i hlow hhigh
    obtain rfl := Option.some.inj h
    rcases hround (x.mantissa * x.up * pow10 (-t).toNat) (x.down * pow10 t.toNat) with heq | heq
    · rw [heq]
      exact of_decide_eq_true hlow
    · rw [heq]
      exact of_decide_eq_true hhigh
  · rename_i hlow hhigh
    exact Option.some.inj h ▸ of_decide_eq_true hlow
  · rename_i hlow hhigh
    exact Option.some.inj h ▸ of_decide_eq_true hhigh
  · cases h

theorem exists_of_shortest? {digits : Text} {point : Int}
    (h : x.shortest? = some (digits, point)) :
    ∃ c t, x.ReadsAs c t ∧ digits = (digitsOfNat c).dropEndWhile (· == '0') ∧
      point = t + (digitsOfNat c).length := by
  obtain ⟨n, -, hn⟩ := List.exists_of_findSome?_eq_some h
  obtain ⟨c, hc, heq⟩ := Option.map_eq_some_iff.1 hn
  obtain ⟨rfl, rfl⟩ := Prod.mk.inj heq
  exact ⟨c, _, readsAs_of_onGrid? hc, rfl, rfl⟩

theorem isWritten_literal (x : Dyadic) : x.literal.isWritten = true := by
  rw [literal]
  split_ifs with hx
  · rfl
  · cases hshortest : x.shortest? with
    | none => rfl
    | some found =>
        obtain ⟨c, t, hreads, hdigits, -⟩ := exists_of_shortest? hshortest
        have hdropped := Literal.digits_dropEndWhile (hreads.ne_zero hx)
        rw [← hdigits] at hdropped
        exact Literal.isWritten_ofDigits x.negative found.2 hdropped.1 hdropped.2

end Dyadic

end Emend
