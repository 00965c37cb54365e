import Emend.Json.Value

namespace Emend.Json

inductive Frame
  | items (done : List Value)
  | members (done : List (Str × Value))
  | member (done : List (Str × Value)) (key : Str)

/-- Inside a string: between characters, after a backslash, in the digits of a code unit, or
between the two code units of a surrogate pair. -/
inductive StringPoint
  | plain
  | escaped
  | unit (high : Option Nat) (digits value : Nat)
  | halfway (high : Nat)
  | halfwayEscaped (high : Nat)

inductive NumberPoint
  | sign
  | zero
  | whole
  | point
  | fraction
  | mark
  | exponentSign
  | exponent

/-- What the reader is in the middle of. The text of a string is gathered back to front. -/
inductive Focus
  | value
  | firstItem
  | firstKey
  | nextKey
  | colon
  | done (v : Value)
  | name (rest : Text) (v : Value)
  | number (at_ : NumberPoint) (n : Literal)
  | string (isKey : Bool) (at_ : StringPoint) (gathered : Str)

structure State where
  stack : List Frame
  focus : Focus

namespace Reader

def isSpace (c : Char) : Bool := c == ' ' || c == '\t' || c == '\n' || c == '\r'

def isDigit (c : Char) : Bool := '0' ≤ c && c ≤ '9'

def begin (stack : List Frame) (c : Char) : Option State :=
  if c = '"' then some ⟨stack, .string false .plain (some [])⟩
  else if c = '[' then some ⟨.items [] :: stack, .firstItem⟩
  else if c = '\x7b' then some ⟨.members [] :: stack, .firstKey⟩
  else if c = 't' then some ⟨stack, .name ['r', 'u', 'e'] (.bool true)⟩
  else if c = 'f' then some ⟨stack, .name ['a', 'l', 's', 'e'] (.bool false)⟩
  else if c = 'n' then some ⟨stack, .name ['u', 'l', 'l'] .null⟩
  else if c = '-' then some ⟨stack, .number .sign { negative := true }⟩
  else if c = '0' then some ⟨stack, .number .zero { whole := [c] }⟩
  else if isDigit c then some ⟨stack, .number .whole { whole := [c] }⟩
  else none

def after (stack : List Frame) (v : Value) (c : Char) : Option State :=
  if isSpace c then some ⟨stack, .done v⟩
  else match stack with
    | .items vs :: rest =>
        if c = ',' then some ⟨.items (v :: vs) :: rest, .value⟩
        else if c = ']' then some ⟨rest, .done (.array (v :: vs).reverse)⟩
        else none
    | .member ms k :: rest =>
        if c = ',' then some ⟨.members ((k, v) :: ms) :: rest, .nextKey⟩
        else if c = '\x7d' then some ⟨rest, .done (.object ((k, v) :: ms).reverse)⟩
        else none
    | _ => none

def inNumber (stack : List Frame) (p : NumberPoint) (n : Literal) (c : Char) : Option State :=
  let go p n := some ⟨stack, .number p n⟩
  let more (sign : Bool) (ds : Text) : Literal := { n with exponent := some (sign, ds ++ [c]) }
  let marked := { n with exponent := some (false, []) }
  let ended := after stack (.number n) c
  match p with
  | .sign =>
      if c = '0' then go .zero { n with whole := [c] }
      else if isDigit c then go .whole { n with whole := [c] }
      else none
  | .zero =>
      if c = '.' then go .point n
      else if c = 'e' ∨ c = 'E' then go .mark marked
      else if isDigit c then none
      else ended
  | .whole =>
      if c = '.' then go .point n
      else if c = 'e' ∨ c = 'E' then go .mark marked
      else if isDigit c then go .whole { n with whole := n.whole ++ [c] }
      else ended
  | .point => if isDigit c then go .fraction { n with fraction := [c] } else none
  | .fraction =>
      if c = 'e' ∨ c = 'E' then go .mark marked
      else if isDigit c then go .fraction { n with fraction := n.fraction ++ [c] }
      else ended
  | .mark =>
      if c = '+' then go .exponentSign n
      else if c = '-' then go .exponentSign { n with exponent := some (true, []) }
      else if isDigit c then go .exponent (more false [])
      else none
  | .exponentSign | .exponent =>
      match n.exponent, isDigit c, p with
      | some (sign, ds), true, _ => go .exponent (more sign ds)
      | _, false, .exponent => ended
      | _, _, _ => none

def close (stack : List Frame) (isKey : Bool) (gathered : Str) : Option State :=
  let s := gathered.map List.reverse
  match isKey, stack with
  | true, .members ms :: rest => some ⟨.member ms s :: rest, .colon⟩
  | false, _ => some ⟨stack, .done (.string s)⟩
  | true, _ => none

def hexValue? (c : Char) : Option Nat :=
  if isDigit c then some (c.toNat - 48)
  else if 'a' ≤ c ∧ c ≤ 'f' then some (c.toNat - 87)
  else if 'A' ≤ c ∧ c ≤ 'F' then some (c.toNat - 55)
  else none

def escaped? (c : Char) : Option Char :=
  match c with
  | '"' => some '"'
  | '\\' => some '\\'
  | '/' => some '/'
  | 'b' => some '\x08'
  | 'f' => some '\x0c'
  | 'n' => some '\n'
  | 'r' => some '\r'
  | 't' => some '\t'
  | _ => none

def isHigh (u : Nat) : Bool := 0xD800 ≤ u && u < 0xDC00

def isLow (u : Nat) : Bool := 0xDC00 ≤ u && u < 0xE000

/-- The whole of a code unit has been read, maybe after the first unit of a pair. A unit of a
pair that stands alone leaves the string without a text. -/
def codeUnit (high : Option Nat) (u : Nat) (gathered : Str) : StringPoint × Str :=
  match high with
  | some h =>
      if isLow u then
        (.plain, gathered.map (Char.ofNat (0x10000 + (h - 0xD800) * 0x400 + (u - 0xDC00)) :: ·))
      else (.plain, none)
  | none =>
      if isHigh u then (.halfway u, gathered)
      else if isLow u then (.plain, none)
      else (.plain, gathered.map (Char.ofNat u :: ·))

def inPlain (stack : List Frame) (isKey : Bool) (gathered : Str) (c : Char) : Option State :=
  if c = '"' then close stack isKey gathered
  else if c = '\\' then some ⟨stack, .string isKey .escaped gathered⟩
  else if c.toNat < 32 then none
  else some ⟨stack, .string isKey .plain (gathered.map (c :: ·))⟩

def inEscape (stack : List Frame) (isKey : Bool) (gathered : Str) (c : Char) : Option State :=
  if c = 'u' then some ⟨stack, .string isKey (.unit none 0 0) gathered⟩
  else (escaped? c).map fun d => ⟨stack, .string isKey .plain (gathered.map (d :: ·))⟩

def inString (stack : List Frame) (isKey : Bool) (p : StringPoint) (gathered : Str) (c : Char) :
    Option State :=
  match p with
  | .plain => inPlain stack isKey gathered c
  | .escaped => inEscape stack isKey gathered c
  | .unit high digits value =>
      (hexValue? c).map fun d =>
        let u := 16 * value + d
        if digits = 3 then
          let (p, gathered) := codeUnit high u gathered
          ⟨stack, .string isKey p gathered⟩
        else ⟨stack, .string isKey (.unit high (digits + 1) u) gathered⟩
  | .halfway high =>
      if c = '\\' then some ⟨stack, .string isKey (.halfwayEscaped high) gathered⟩
      else inPlain stack isKey none c
  | .halfwayEscaped high =>
      if c = 'u' then some ⟨stack, .string isKey (.unit (some high) 0 0) gathered⟩
      else inEscape stack isKey none c

def step (s : State) (c : Char) : Option State :=
  match s.focus with
  | .value => if isSpace c then some s else begin s.stack c
  | .firstItem =>
      if isSpace c then some s
      else if c = ']' then some ⟨s.stack.tail, .done (.array [])⟩
      else begin s.stack c
  | .firstKey =>
      if isSpace c then some s
      else if c = '\x7d' then some ⟨s.stack.tail, .done (.object [])⟩
      else if c = '"' then some ⟨s.stack, .string true .plain (some [])⟩
      else none
  | .nextKey =>
      if isSpace c then some s
      else if c = '"' then some ⟨s.stack, .string true .plain (some [])⟩
      else none
  | .colon =>
      if isSpace c then some s else if c = ':' then some ⟨s.stack, .value⟩ else none
  | .done v => after s.stack v c
  | .name [] v => after s.stack v c
  | .name (d :: rest) v => if c = d then some ⟨s.stack, .name rest v⟩ else none
  | .number p n => inNumber s.stack p n c
  | .string isKey p gathered => inString s.stack isKey p gathered c

def spoil (s : State) : Option State :=
  match s.focus with
  | .string isKey .plain _ | .string isKey (.halfway _) _ =>
      some ⟨s.stack, .string isKey .plain none⟩
  | _ => none

def finish (s : State) : Option Value :=
  match s.stack, s.focus with
  | [], .done v => some v
  | [], .name [] v => some v
  | [], .number p n =>
      match p with
      | .zero | .whole | .fraction | .exponent => some (.number n)
      | _ => none
  | _, _ => none

def start : State := ⟨[], .value⟩

end Reader

def read? (t : Text) : Option Value := (t.foldlM Reader.step Reader.start).bind Reader.finish

/-- The same for text in which some places hold no character. -/
def readUnits? (us : List (Option Char)) : Option Value :=
  (us.foldlM
    (fun s u => match u with
      | some c => Reader.step s c
      | none => Reader.spoil s) Reader.start).bind Reader.finish

end Emend.Json
