import Emend.Text.Basic

namespace Emend

abbrev Bytes := List UInt8

namespace Utf8

def encode (s : Text) : Bytes := s.flatMap String.utf8EncodeChar

/-- Where a decoder stands: between characters, or after the first bytes of one, with the bytes
still owed, the range of the next one and the bits gathered. -/
inductive Point
  | between
  | inside (owed low high bits : Nat)

def lead (b : Nat) : Point × List (Option Char) :=
  if b < 0x80 then (.between, [some (Char.ofNat b)])
  else if 0xC2 ≤ b ∧ b ≤ 0xDF then (.inside 1 0x80 0xBF (b - 0xC0), [])
  else if b = 0xE0 then (.inside 2 0xA0 0xBF 0, [])
  else if b = 0xED then (.inside 2 0x80 0x9F 0xD, [])
  else if 0xE1 ≤ b ∧ b ≤ 0xEF then (.inside 2 0x80 0xBF (b - 0xE0), [])
  else if b = 0xF0 then (.inside 3 0x90 0xBF 0, [])
  else if 0xF1 ≤ b ∧ b ≤ 0xF3 then (.inside 3 0x80 0xBF (b - 0xF0), [])
  else if b = 0xF4 then (.inside 3 0x80 0x8F 4, [])
  else (.between, [none])

def next : Point → Nat → Point × List (Option Char)
  | .between, b => lead b
  | .inside owed low high bits, b =>
      if low ≤ b ∧ b ≤ high then
        let bits := bits * 64 + (b - 0x80)
        if owed ≤ 1 then (.between, [some (Char.ofNat bits)])
        else (.inside (owed - 1) 0x80 0xBF bits, [])
      else
        let (p, us) := lead b
        (p, none :: us)

def unitsFrom : Point → Bytes → List (Option Char)
  | .between, [] => []
  | .inside .., [] => [none]
  | p, b :: bs => (next p b.toNat).2 ++ unitsFrom (next p b.toNat).1 bs

def units (bs : Bytes) : List (Option Char) := unitsFrom .between bs

def decode? (bs : Bytes) : Option Text := (units bs).mapM id

def replacementChar : Char := '\uFFFD'

/-- The text with a replacement character where there is no other. -/
def decodeLossy (bs : Bytes) : Text := (units bs).map (·.getD replacementChar)

end Utf8

def Text.byteLength (s : Text) : Nat := (Utf8.encode s).length

namespace Utf16

def isHigh (u : Nat) : Bool := 0xD800 ≤ u && u < 0xDC00

def isLow (u : Nat) : Bool := 0xDC00 ≤ u && u < 0xE000

def lead (u : Nat) : Option Nat × Text :=
  if isHigh u then (some u, [])
  else if isLow u then (none, [Utf8.replacementChar])
  else (none, [Char.ofNat u])

def next : Option Nat → Nat → Option Nat × Text
  | none, u => lead u
  | some h, u =>
      if isLow u then (none, [Char.ofNat (0x10000 + (h - 0xD800) * 0x400 + (u - 0xDC00))])
      else
        let (high, s) := lead u
        (high, Utf8.replacementChar :: s)

def decodeFrom (unit : Nat → Nat → Nat) : Option Nat → Bytes → Text
  | none, [] => []
  | some _, [] | _, [_] => [Utf8.replacementChar]
  | high, a :: b :: bs =>
      let u := unit a.toNat b.toNat
      (next high u).2 ++ decodeFrom unit (next high u).1 bs

end Utf16

def decodeMarked : Bytes → Text
  | 0xEF :: 0xBB :: 0xBF :: bs => Utf8.decodeLossy bs
  | 0xFF :: 0xFE :: bs => Utf16.decodeFrom (fun a b => a + 256 * b) none bs
  | 0xFE :: 0xFF :: bs => Utf16.decodeFrom (fun a b => 256 * a + b) none bs
  | bs => Utf8.decodeLossy bs

end Emend
