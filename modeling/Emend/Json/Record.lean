import Emend.Decimal.Numeral
import Emend.Json.Reader

namespace Emend.Json

structure Field where
  name : Text
  aliases : List Text := []

instance : Coe String Field := ⟨fun s => { name := s.toList }⟩

namespace Field

def named (f : Field) (k : Text) : Bool := k == f.name || f.aliases.contains k

end Field

/-- The fields found, and whether they were found by name. -/
structure Record where
  keyed : Bool
  found : List (Text × Value)

namespace Record

variable {β : Type} (r : Record) (name : String)

def find? : Option Value := r.found.lookup name.toList

def required (read : Value → Option β) : Option β := (r.find? name).bind read

def withDefault (default : β) (read : Value → Option β) : Option β :=
  match r.find? name with
  | none => some default
  | some v => read v

/-- A field that may be null, or absent where fields go by name. -/
def optional (read : Value → Option β) : Option (Option β) :=
  match r.find? name with
  | none => if r.keyed then some none else none
  | some .null => some none
  | some v => (read v).map some

end Record

namespace Value

def fieldOf (fields : List Field) (k : Text) : Option Text :=
  (fields.find? (·.named k)).map Field.name

def keyed? (fields : List Field) : List (Str × Value) → Option (List (Text × Value))
  | [] => some []
  | (none, _) :: _ => none
  | (some k, v) :: ms => do
      let found ← keyed? fields ms
      match fieldOf fields k with
      | none => some found
      | some name => if (found.lookup name).isSome then none else some ((name, v) :: found)

def record? (fields : List Field) : Value → Option Record
  | .object ms => (keyed? fields ms).map (⟨true, ·⟩)
  | .array vs =>
      if fields.length < vs.length then none
      else some ⟨false, (fields.map Field.name).zip vs⟩
  | _ => none

def text? : Value → Option Text
  | .string s => s
  | _ => none

def natBelow? (bound : Nat) : Value → Option Nat
  | .number n => n.natBelow? bound
  | _ => none

def word? : Value → Option Nat := natBelow? word

def numeral? {α : Type} [Numeral α] : Value → Option α
  | .number n => Numeral.ofLiteral? n
  | _ => none

def list? {β : Type} (read : Value → Option β) : Value → Option (List β)
  | .array vs => vs.mapM read
  | _ => none

def numeral {α : Type} [Numeral α] (x : α) : Value :=
  match Numeral.literal? x with
  | some l => .number l
  | none => .null

def orNull {β : Type} (write : β → Value) : Option β → Value
  | none => .null
  | some b => write b

mutual

def wellFormed (inRange : Literal → Bool) : Value → Bool
  | .number n => inRange n
  | .string s => s.isSome
  | .array vs => wellFormedItems inRange vs
  | .object ms => wellFormedMembers inRange ms
  | _ => true

def wellFormedItems (inRange : Literal → Bool) : List Value → Bool
  | [] => true
  | v :: vs => wellFormed inRange v && wellFormedItems inRange vs

def wellFormedMember (inRange : Literal → Bool) : Str × Value → Bool
  | (k, v) => k.isSome && wellFormed inRange v

def wellFormedMembers (inRange : Literal → Bool) : List (Str × Value) → Bool
  | [] => true
  | m :: ms => wellFormedMember inRange m && wellFormedMembers inRange ms

end

def nestingLimit : Nat := 127

def untag? {β : Type} (read : Value → Option β) (tag : String) : Value → Option (β × Value)
  | .object ms =>
      let isTag (m : Str × Value) : Bool := m.1 == some tag.toList
      match ms.filter isTag with
      | [(_, t)] => (read t).map (·, .object (ms.filter fun m => !isTag m))
      | _ => none
  | .array (t :: vs) => (read t).map (·, .array vs)
  | _ => none

/-- A tagged value is kept as a whole until the tag is known, so nothing inside it may be
ill-formed, and it may not be nested too deeply. `outer` counts the arrays and objects around
it. -/
def tagged? (inRange : Literal → Bool) (outer : Nat) (tag : String) (v : Value) :
    Option (Text × Value) :=
  if !v.wellFormed inRange || nestingLimit < outer + v.height then none
  else v.untag? text? tag

def keptKind? (kinds : List Text) : Value → Option Text
  | .number n => n.nat?.bind fun i => kinds[i]?
  | v => v.text?

end Value

end Emend.Json
