import Emend.Proofs.Json.Reader

namespace Emend.Json

open Reader

def isLetter (c : Char) : Bool := "truefalsn".toList.contains c

def isFigure (c : Char) : Bool := isDigit c || "+-.eE".toList.contains c

/-- The characters that may stand outside strings. -/
def isMark (c : Char) : Bool :=
  isSpace c || isLetter c || isFigure c || "[]\x7b\x7d,:".toList.contains c

namespace Focus

def AtValue (f : Focus) : Prop := f = .value ∨ f = .firstItem

def AtKey (f : Focus) : Prop := f = .firstKey ∨ f = .nextKey

/-- A value has been read, whether or not the reader knows yet that it ends here. -/
inductive HasRead : Focus → Value → Prop
  | done (v : Value) : HasRead (.done v) v
  | name (v : Value) : HasRead (.name [] v) v
  | number (p : NumberPoint) (n : Literal) : HasRead (.number p n) (.number n)

end Focus

def Value.isPlain : Value → Bool
  | .array _ | .object _ => false
  | _ => true

/-- What a character may do to the reader, where the inside of numbers and of escapes is not
told. -/
inductive Moves : State → Char → State → Prop
  | wait {stack f c} (hc : isSpace c = true) (hf : f.AtValue ∨ f.AtKey ∨ f = .colon) :
      Moves ⟨stack, f⟩ c ⟨stack, f⟩
  | text {stack f} (hf : f.AtValue) :
      Moves ⟨stack, f⟩ '"' ⟨stack, .string false .plain (some [])⟩
  | items {stack f} (hf : f.AtValue) : Moves ⟨stack, f⟩ '[' ⟨.items [] :: stack, .firstItem⟩
  | members {stack f} (hf : f.AtValue) :
      Moves ⟨stack, f⟩ '\x7b' ⟨.members [] :: stack, .firstKey⟩
  | noItems {stack} : Moves ⟨stack, .firstItem⟩ ']' ⟨stack.tail, .done (.array [])⟩
  | noMembers {stack} : Moves ⟨stack, .firstKey⟩ '\x7d' ⟨stack.tail, .done (.object [])⟩
  | name {stack f c rest v} (hf : f.AtValue) (hc : (c :: rest).all isLetter = true)
      (hv : v.isPlain = true) : Moves ⟨stack, f⟩ c ⟨stack, .name rest v⟩
  | letter {stack c rest v} : Moves ⟨stack, .name (c :: rest) v⟩ c ⟨stack, .name rest v⟩
  | figure {stack f c p n} (hf : f.AtValue ∨ ∃ q m, f = .number q m) (hc : isFigure c = true) :
      Moves ⟨stack, f⟩ c ⟨stack, .number p n⟩
  | key {stack f} (hf : f.AtKey) : Moves ⟨stack, f⟩ '"' ⟨stack, .string true .plain (some [])⟩
  | colon {stack} : Moves ⟨stack, .colon⟩ ':' ⟨stack, .value⟩
  | rest {stack f c v} (hf : f.HasRead v) (hc : isSpace c = true) :
      Moves ⟨stack, f⟩ c ⟨stack, .done v⟩
  | nextItem {vs stack f v} (hf : f.HasRead v) :
      Moves ⟨.items vs :: stack, f⟩ ',' ⟨.items (v :: vs) :: stack, .value⟩
  | lastItem {vs stack f v} (hf : f.HasRead v) :
      Moves ⟨.items vs :: stack, f⟩ ']' ⟨stack, .done (.array (v :: vs).reverse)⟩
  | nextMember {ms k stack f v} (hf : f.HasRead v) :
      Moves ⟨.member ms k :: stack, f⟩ ',' ⟨.members ((k, v) :: ms) :: stack, .nextKey⟩
  | lastMember {ms k stack f v} (hf : f.HasRead v) :
      Moves ⟨.member ms k :: stack, f⟩ '\x7d' ⟨stack, .done (.object ((k, v) :: ms).reverse)⟩
  | char {stack isKey g c} (hc : c ≠ '"' ∧ c ≠ '\\') :
      Moves ⟨stack, .string isKey .plain g⟩ c ⟨stack, .string isKey .plain (g.map (c :: ·))⟩
  | escape {stack isKey p g c q g'} (hp : p ≠ .plain ∨ c = '\\') :
      Moves ⟨stack, .string isKey p g⟩ c ⟨stack, .string isKey q g'⟩
  | endKey {ms stack p g g'} (hp : p = .plain → g' = g) :
      Moves ⟨.members ms :: stack, .string true p g⟩ '"'
        ⟨.member ms (g'.map List.reverse) :: stack, .colon⟩
  | endText {stack p g g'} : Moves ⟨stack, .string false p g⟩ '"' ⟨stack, .done (.string g')⟩

variable {s s' : State} {c : Char} {stack : List Frame} {f : Focus} {v : Value}

theorem isFigure_of_isDigit (h : isDigit c = true) : isFigure c = true := by simp [isFigure, h]

theorem moves_begin (hf : f.AtValue) (h : begin stack c = some s) : Moves ⟨stack, f⟩ c s := by
  unfold begin at h
  split_ifs at h with h1 h2 h3 h4 h5 h6 h7 h8 h9 <;> cases h
  · exact h1 ▸ .text hf
  · exact h2 ▸ .items hf
  · exact h3 ▸ .members hf
  · exact .name hf (by subst h4; rfl) rfl
  · exact .name hf (by subst h5; rfl) rfl
  · exact .name hf (by subst h6; rfl) rfl
  · exact .figure (.inl hf) (by subst h7; rfl)
  · exact .figure (.inl hf) (by subst h8; rfl)
  · exact .figure (.inl hf) (isFigure_of_isDigit h9)

theorem moves_after (hf : f.HasRead v) (h : after stack v c = some s) : Moves ⟨stack, f⟩ c s := by
  unfold after at h
  split at h
  · rename_i hspace
    cases h
    exact .rest hf hspace
  · split at h
    · split at h
      · rename_i hc
        cases h
        exact hc ▸ .nextItem hf
      · split at h <;> cases h
        rename_i hc
        exact hc ▸ .lastItem hf
    · split at h
      · rename_i hc
        cases h
        exact hc ▸ .nextMember hf
      · split at h <;> cases h
        rename_i hc
        exact hc ▸ .lastMember hf
    · cases h

theorem moves_inNumber {p : NumberPoint} {n : Literal} (h : inNumber stack p n c = some s) :
    Moves ⟨stack, .number p n⟩ c s := by
  have hgo {q : NumberPoint} {m : Literal} (hc : isFigure c = true) :
      Moves ⟨stack, .number p n⟩ c ⟨stack, .number q m⟩ := .figure (.inr ⟨p, n, rfl⟩) hc
  have hend (h : after stack (.number n) c = some s) : Moves ⟨stack, .number p n⟩ c s :=
    moves_after (.number p n) h
  have hdigit {q : NumberPoint} {m : Literal} (hc : isDigit c = true)
      (h : some (⟨stack, .number q m⟩ : State) = some s) : Moves ⟨stack, .number p n⟩ c s :=
    Option.some.inj h ▸ hgo (isFigure_of_isDigit hc)
  unfold inNumber at h
  cases p with
  | sign =>
      dsimp only at h
      split_ifs at h with hzero hc
      · cases h
        exact hgo (by subst hzero; rfl)
      · exact hdigit hc h
  | zero =>
      dsimp only at h
      split_ifs at h with hpoint hmark hc
      · cases h
        exact hgo (by subst hpoint; rfl)
      · cases h
        rcases hmark with rfl | rfl
        · exact hgo rfl
        · exact hgo rfl
      · exact hend h
  | whole =>
      dsimp only at h
      split_ifs at h with hpoint hmark hc
      · cases h
        exact hgo (by subst hpoint; rfl)
      · cases h
        rcases hmark with rfl | rfl
        · exact hgo rfl
        · exact hgo rfl
      · exact hdigit hc h
      · exact hend h
  | point =>
      dsimp only at h
      split_ifs at h with hc
      exact hdigit hc h
  | fraction =>
      dsimp only at h
      split_ifs at h with hmark hc
      · cases h
        rcases hmark with rfl | rfl
        · exact hgo rfl
        · exact hgo rfl
      · exact hdigit hc h
      · exact hend h
  | mark =>
      dsimp only at h
      split_ifs at h with hplus hminus hc
      · cases h
        exact hgo (by subst hplus; rfl)
      · cases h
        exact hgo (by subst hminus; rfl)
      · exact hdigit hc h
  | exponentSign | exponent =>
      dsimp only at h
      split at h
      · rename_i hc
        exact hdigit hc h
      · exact hend h
      · cases h

theorem moves_inString {isKey : Bool} {p : StringPoint} {g : Str}
    (h : inString stack isKey p g c = some s) : Moves ⟨stack, .string isKey p g⟩ c s := by
  have hclose {g' : Str} (hg : p = .plain → g' = g) (h : close stack isKey g' = some s) :
      Moves ⟨stack, .string isKey p g⟩ '"' s := by
    unfold close at h
    split at h
    · cases h
      exact .endKey hg
    · cases h
      exact .endText
    · cases h
  cases p with
  | plain =>
      simp only [inString, inPlain] at h
      split_ifs at h with hquote hslash
      · exact hquote ▸ hclose (fun _ => rfl) h
      · cases h
        exact .escape (.inr hslash)
      · cases h
        exact .char ⟨hquote, hslash⟩
  | escaped =>
      simp only [inString, inEscape] at h
      split_ifs at h
      · cases h
        exact .escape (.inl (by simp))
      · obtain ⟨d, -, rfl⟩ := Option.map_eq_some_iff.1 h
        exact .escape (.inl (by simp))
  | unit high digits value =>
      obtain ⟨d, -, rfl⟩ := Option.map_eq_some_iff.1 h
      dsimp only
      split
      · exact .escape (.inl (by simp))
      · exact .escape (.inl (by simp))
  | halfway high =>
      simp only [inString, inPlain] at h
      split_ifs at h with hslash hquote
      · cases h
        exact .escape (.inl (by simp))
      · exact hquote ▸ hclose (by simp) h
      · cases h
        exact .escape (.inl (by simp))
  | halfwayEscaped high =>
      simp only [inString, inEscape] at h
      split_ifs at h
      · cases h
        exact .escape (.inl (by simp))
      · obtain ⟨d, -, rfl⟩ := Option.map_eq_some_iff.1 h
        exact .escape (.inl (by simp))

theorem moves_of_step (h : step s c = some s') : Moves s c s' := by
  obtain ⟨stack, f⟩ := s
  cases f with
  | value =>
      simp only [step] at h
      split at h
      · rename_i hc
        cases h
        exact .wait hc (.inl (.inl rfl))
      · exact moves_begin (.inl rfl) h
  | firstItem =>
      simp only [step] at h
      split_ifs at h with hc hend
      · cases h
        exact .wait hc (.inl (.inr rfl))
      · cases h
        exact hend ▸ .noItems
      · exact moves_begin (.inr rfl) h
  | firstKey =>
      simp only [step] at h
      split_ifs at h with hc hend hkey <;> cases h
      · exact .wait hc (.inr (.inl (.inl rfl)))
      · exact hend ▸ .noMembers
      · exact hkey ▸ .key (.inl rfl)
  | nextKey =>
      simp only [step] at h
      split_ifs at h with hc hkey <;> cases h
      · exact .wait hc (.inr (.inl (.inr rfl)))
      · exact hkey ▸ .key (.inr rfl)
  | colon =>
      simp only [step] at h
      split_ifs at h with hc hcolon <;> cases h
      · exact .wait hc (.inr (.inr rfl))
      · exact hcolon ▸ .colon
  | done v => exact moves_after (.done v) h
  | name rest v =>
      cases rest with
      | nil => exact moves_after (.name v) h
      | cons d rest =>
          simp only [step] at h
          split at h <;> cases h
          rename_i hc
          exact hc ▸ .letter
  | number p n => exact moves_inNumber h
  | string isKey p g => exact moves_inString h

end Emend.Json
