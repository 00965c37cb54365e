namespace Emend

def pow2 (n : Nat) : Nat := Nat.pow 2 n

def word : Nat := pow2 64

/-- Numbers with the comparisons of doubles. Some may be neither above, below nor equal to others,
but `compare` puts all of them in order. -/
class Score (α : Type) extends Add α, Sub α, Mul α, Div α, Neg α, NatCast α, LT α, LE α, BEq α,
    Ord α where
  decLt : (a b : α) → Decidable (a < b)
  decLe : (a b : α) → Decidable (a ≤ b)

instance instDecidableLess {α : Type} [Score α] (a b : α) : Decidable (a < b) := Score.decLt a b

instance instDecidableLessEq {α : Type} [Score α] (a b : α) : Decidable (a ≤ b) := Score.decLe a b

/-- The bits of a double as a signed integer, with those of a negative one counting down. Zero comes
after negative zero, and what is no number after everything. -/
def Double.place (x : Float) : Int :=
  let bits := x.toBits.toNat
  if bits < pow2 63 then .ofNat bits else .negSucc (bits - pow2 63)

instance instScoreFloat : Score Float where
  natCast := Float.ofNat
  compare a b := compare (Double.place a) (Double.place b)
  decLt _ _ := inferInstance
  decLe _ _ := inferInstance

namespace Score

variable {α : Type} [Score α]

def ofNat (n : Nat) : α := (n : α)

def quotient (a b : Nat) : α := (a : α) / (b : α)

/-- The larger one; what is no number gives way. -/
def larger (a b : α) : α := if a ≤ b || a != a then b else a

end Score

end Emend
