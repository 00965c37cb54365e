import Emend.Decimal.Literal
import Emend.Score

namespace Emend

/-- A number `± mantissa · 2 ^ exponent`. -/
structure Dyadic where
  negative : Bool
  mantissa : Nat
  exponent : Int

inductive Extended
  | finite (x : Dyadic)
  | infinite (negative : Bool)
  | undefined

def Extended.ofDouble (x : Float) : Extended :=
  let bits := x.toBits.toNat
  let negative := bits / pow2 63 == 1
  let field : Nat := bits / pow2 52 % 2048
  let low := bits % pow2 52
  if field == 2047 then if low == 0 then .infinite negative else .undefined
  else if field == 0 then .finite ⟨negative, low, -1074⟩
  else .finite ⟨negative, pow2 52 + low, (field : Int) - 1075⟩

def roundDiv (a b : Nat) : Nat :=
  let q := a / b
  let r := a % b
  if 2 * r < b then q else if b < 2 * r then q + 1 else if q % 2 = 0 then q else q + 1

namespace Dyadic

variable (x : Dyadic)

def up : Nat := pow2 x.exponent.toNat

def down : Nat := pow2 (-x.exponent).toNat

def toPlaces (places : Nat) : Text :=
  let n := roundDiv (x.mantissa * x.up * pow10 places) x.down
  let low := digitsOfNat (n % pow10 places)
  (if x.negative then ['-'] else []) ++ digitsOfNat (n / pow10 places) ++
    '.' :: (List.replicate (places - low.length) '0' ++ low)

/-- Quarters of the last place between the number and the half-way points below and above it.
Below a power of two the grid of doubles is twice as fine, except at the bottom of the range. -/
def gapBelow : Nat := if x.mantissa = pow2 52 ∧ -1074 < x.exponent then 1 else 2

/-- `c · 10 ^ t` rounds to the number: it lies between the half-way points, or is one of them and
the mantissa is even. -/
def ReadsAs (c : Nat) (t : Int) : Prop :=
  let point := c * pow10 t.toNat * 4 * x.down
  let scale := x.up * pow10 (-t).toNat
  let low := (4 * x.mantissa - x.gapBelow) * scale
  let high := (4 * x.mantissa + 2) * scale
  if x.mantissa % 2 = 0 then low ≤ point ∧ point ≤ high else low < point ∧ point < high

instance (c : Nat) (t : Int) : Decidable (x.ReadsAs c t) := by
  unfold ReadsAs; infer_instance

/-- The one of the number's two neighbours among the multiples of `10 ^ t` that reads back, the
nearer if both do; of two equally near the even one. -/
def onGrid? (t : Int) : Option Nat :=
  let a := x.mantissa * x.up * pow10 (-t).toNat
  let b := x.down * pow10 t.toNat
  let c := a / b
  match decide (x.ReadsAs c t), decide (x.ReadsAs (c + 1) t) with
  | true, true => some (roundDiv a b)
  | true, false => some c
  | false, true => some (c + 1)
  | false, false => none

def point : Int := (digitsOfNat (x.mantissa * x.up * pow10 400 / x.down)).length - 400

def shortest? : Option (Text × Int) :=
  (List.range 17).findSome? fun (n : Nat) =>
    let t : Int := x.point - (n + 1)
    (x.onGrid? t).map fun c =>
      let digits := digitsOfNat c
      (digits.dropEndWhile (· == '0'), t + digits.length)

def literal : Literal :=
  if x.mantissa = 0 then ⟨x.negative, ['0'], ['0'], none⟩
  else
    let (digits, point) := x.shortest?.getD ([], 0)
    .ofDigits x.negative digits point

end Dyadic

end Emend
