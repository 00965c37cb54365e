import Emend.Text.Basic

namespace Emend

def digitValue (c : Char) : Nat := c.toNat - '0'.toNat

def natOfDigits (ds : Text) : Nat := ds.foldl (fun n d => 10 * n + digitValue d) 0

def pow10 (n : Nat) : Nat := Nat.pow 10 n

def digitsOfNat (n : Nat) : Text := Nat.toDigits 10 n

/-- Sign, digits, digits after the point, and the sign and digits of an exponent. No digits after
the point means that there is no point. -/
structure Literal where
  negative : Bool := false
  whole : Text := []
  fraction : Text := []
  exponent : Option (Bool × Text) := none
deriving DecidableEq, Inhabited

namespace Literal

def ofNat (n : Nat) : Literal := { whole := digitsOfNat n }

def render (l : Literal) : Text :=
  (if l.negative then ['-'] else []) ++ l.whole ++
    (if l.fraction = [] then [] else '.' :: l.fraction) ++
    match l.exponent with
    | none => []
    | some (negative, digits) => 'e' :: (if negative then '-' else '+') :: digits

def nat? (l : Literal) : Option Nat :=
  if l.negative || l.fraction != [] || l.exponent.isSome then none else some (natOfDigits l.whole)

def natBelow? (bound : Nat) (l : Literal) : Option Nat := l.nat?.filter (· < bound)

/-- A number with leading digit `d₁` of `0.d₁d₂… · 10 ^ point`. It is written in full from
`1e-5` up to `1e16`, with a digit on either side of the point, and otherwise with an exponent. -/
def ofDigits (negative : Bool) (digits : Text) (point : Int) : Literal :=
  if -5 < point ∧ point ≤ 0 then
    ⟨negative, ['0'], List.replicate (-point).toNat '0' ++ digits, none⟩
  else if 0 < point ∧ point ≤ 16 then
    let whole := digits.take point.toNat
    let fraction := digits.drop point.toNat
    ⟨negative, whole ++ List.replicate (point.toNat - whole.length) '0',
      if fraction = [] then ['0'] else fraction, none⟩
  else
    let e := point - 1
    ⟨negative, digits.take 1, digits.drop 1, some (e < 0, digitsOfNat e.natAbs)⟩

end Literal

end Emend
