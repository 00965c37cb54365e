namespace Emend

abbrev Text := List Char

/-- The Unicode property `White_Space`, as inclusive ranges of code points. -/
def blankRanges : List (Nat × Nat) :=
  [(0x09, 0x0D), (0x20, 0x20), (0x85, 0x85), (0xA0, 0xA0), (0x1680, 0x1680), (0x2000, 0x200A),
    (0x2028, 0x2029), (0x202F, 0x202F), (0x205F, 0x205F), (0x3000, 0x3000)]

def isBlank (c : Char) : Bool :=
  blankRanges.any fun r => r.1 ≤ c.toNat && c.toNat ≤ r.2

namespace Text

variable (p : Char → Bool)

def dropEndWhile (s : Text) : Text := (s.reverse.dropWhile p).reverse

def trimStart (s : Text) : Text := s.dropWhile isBlank

def trimEnd (s : Text) : Text := s.dropEndWhile isBlank

def trim (s : Text) : Text := s.trimStart.trimEnd

def blank (s : Text) : Bool := s.all isBlank

/-- The pieces between line feeds; there is always at least one. -/
def pieces : Text → List Text
  | [] => [[]]
  | c :: s =>
      if c = '\n' then [] :: pieces s
      else match pieces s with
        | [] => [[c]]
        | l :: ls => (c :: l) :: ls

def unlines (ls : List Text) : Text := ['\n'].intercalate ls

def terminated (ls : List Text) : Text := ls.flatMap (· ++ ['\n'])

def dropReturn (l : Text) : Text := if l.getLast? = some '\r' then l.dropLast else l

/-- What a list of pieces means when line feeds end lines: nothing follows a final one, and a
carriage return belongs to the line feed after it. -/
def linesOfPieces : List Text → List Text
  | [] => []
  | [l] => if l = [] then [] else [l]
  | l :: ls => dropReturn l :: linesOfPieces ls

def lines (s : Text) : List Text := linesOfPieces s.pieces

theorem pieces_ne_nil (s : Text) : s.pieces ≠ [] := by
  cases s with
  | nil => simp [pieces]
  | cons c s =>
      by_cases h : c = '\n'
      · simp [pieces, h]
      · cases hs : pieces s <;> simp [pieces, h, hs]

theorem unlines_pieces (s : Text) : unlines s.pieces = s := by
  induction s with
  | nil => rfl
  | cons c s ih =>
      cases hs : pieces s with
      | nil => exact absurd hs (pieces_ne_nil s)
      | cons l ls =>
          rw [hs] at ih
          by_cases h : c = '\n'
          · simpa [pieces, h, hs, unlines, List.intercalate] using ih
          · cases ls <;> simp_all [pieces, unlines, List.intercalate]

end Text

end Emend
