import Emend.Decimal.Literal

namespace Emend.Json

/-- The text of a string. There is none where the string holds half of a surrogate pair or bytes
that are no character. -/
abbrev Str := Option Text

/-- Numbers stay as they are written; an object keeps its members in order, repeated keys too. -/
inductive Value
  | null
  | bool (b : Bool)
  | number (n : Literal)
  | string (s : Str)
  | array (items : List Value)
  | object (members : List (Str × Value))
deriving Inhabited

def hexDigit (n : Nat) : Char := if n < 10 then Char.ofNat (n + 48) else Char.ofNat (n + 87)

def escape (c : Char) : Text :=
  if c = '"' then ['\\', '"']
  else if c = '\\' then ['\\', '\\']
  else if c = '\x08' then ['\\', 'b']
  else if c = '\x0c' then ['\\', 'f']
  else if c = '\n' then ['\\', 'n']
  else if c = '\r' then ['\\', 'r']
  else if c = '\t' then ['\\', 't']
  else if c.toNat < 32 then
    ['\\', 'u', '0', '0', hexDigit (c.toNat / 16), hexDigit (c.toNat % 16)]
  else [c]

def Str.render : Str → Text
  | some s => '"' :: s.flatMap escape ++ ['"']
  | none => ['"', '\\', 'u', 'd', '8', '0', '0', '"']

namespace Value

def text (s : Text) : Value := .string (some s)

def nat (n : Nat) : Value := .number (.ofNat n)

def record (fields : List (Text × Value)) : Value :=
  .object (fields.map fun (k, v) => (some k, v))

mutual

def render : Value → Text
  | .null => "null".toList
  | .bool true => "true".toList
  | .bool false => "false".toList
  | .number n => n.render
  | .string s => s.render
  | .array [] => ['[', ']']
  | .array (v :: vs) => '[' :: render v ++ renderItems vs
  | .object [] => ['\x7b', '\x7d']
  | .object (m :: ms) => '\x7b' :: renderMember m ++ renderMembers ms

def renderItems : List Value → Text
  | [] => [']']
  | v :: vs => ',' :: render v ++ renderItems vs

def renderMember : Str × Value → Text
  | (k, v) => k.render ++ ':' :: render v

def renderMembers : List (Str × Value) → Text
  | [] => ['\x7d']
  | m :: ms => ',' :: renderMember m ++ renderMembers ms

end

mutual

def height : Value → Nat
  | .array vs => heightItems vs + 1
  | .object ms => heightMembers ms + 1
  | _ => 0

def heightItems : List Value → Nat
  | [] => 0
  | v :: vs => max (height v) (heightItems vs)

def heightMember : Str × Value → Nat
  | (_, v) => height v

def heightMembers : List (Str × Value) → Nat
  | [] => 0
  | m :: ms => max (heightMember m) (heightMembers ms)

end

end Value

end Emend.Json
