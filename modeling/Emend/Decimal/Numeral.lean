import Emend.Decimal.Double

namespace Emend

namespace Literal

/-- Digits before the point, as long as the significand fits in a word, and the number of digits
left over. -/
def gatherWhole : Nat → Text → Nat × Nat
  | n, [] => (n, 0)
  | n, d :: ds =>
      if 10 * n + digitValue d < word then gatherWhole (10 * n + digitValue d) ds
      else (n, ds.length + 1)

def gatherFraction : Nat → Text → Nat × Nat
  | n, [] => (n, 0)
  | n, d :: ds =>
      if 10 * n + digitValue d < word then
        let (significand, taken) := gatherFraction (10 * n + digitValue d) ds
        (significand, taken + 1)
      else (n, 0)

def exponentLimit : Nat := pow2 31 - 1

def powerOfTen (n : Nat) : Float := Float.ofScientific 1 false n

/-- Divides by `10 ^ n`, in steps that are doubles themselves. -/
def divideByPower (x : Float) (n : Nat) : Float :=
  if n ≤ 308 then x / powerOfTen n
  else if x == 0 then x
  else divideByPower (x / powerOfTen 308) (n - 308)
termination_by n

def multiplyByPower? (x : Float) (n : Nat) : Option Float :=
  if n ≤ 308 then
    let y := x * powerOfTen n
    if y.isInf then none else some y
  else if x == 0 then some x
  else none

def scale? (significand : Nat) (exponent : Int) : Option Float :=
  if 0 ≤ exponent then multiplyByPower? (Float.ofNat significand) exponent.toNat
  else some (divideByPower (Float.ofNat significand) (-exponent).toNat)

def magnitude? (l : Literal) : Option Float :=
  let (whole, left) := gatherWhole 0 l.whole
  let (significand, taken) := gatherFraction whole l.fraction
  let start : Int := left - taken
  match l.exponent with
  | none => scale? significand start
  | some (negative, digits) =>
      let e := natOfDigits digits
      if exponentLimit < e then
        if negative || significand == 0 then some 0 else none
      else scale? significand (if negative then start - e else start + e)

def double? (l : Literal) : Option Float :=
  l.magnitude?.map fun x => if l.negative then -x else x

end Literal

class Numeral (α : Type) where
  literal? : α → Option Literal
  ofLiteral? : Literal → Option α
  twoPlaces : α → Text

instance instNumeralFloat : Numeral Float where
  literal? x :=
    match Extended.ofDouble x with
    | .finite d => some d.literal
    | _ => none
  ofLiteral? := Literal.double?
  twoPlaces x :=
    match Extended.ofDouble x with
    | .finite d => d.toPlaces 2
    | .infinite negative => (if negative then "-inf" else "inf").toList
    | .undefined => "NaN".toList

end Emend
