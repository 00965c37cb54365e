import Emend.Text.Basic

namespace Emend.Text

def after? : (pat s : Text) → Option Text
  | [], s => some s
  | _ :: _, [] => none
  | p :: pat, c :: s => if p = c then after? pat s else none

def startsWith (s pat : Text) : Bool := (after? pat s).isSome

def endsWith (s pat : Text) : Bool := startsWith s.reverse pat.reverse

/-- The text before the first occurrence of `pat` and the text after it. -/
def cut? (pat : Text) : Text → Option (Text × Text)
  | [] => (after? pat []).map ([], ·)
  | c :: s =>
      match after? pat (c :: s) with
      | some rest => some ([], rest)
      | none => (cut? pat s).map fun (before, rest) => (c :: before, rest)

def includes (s pat : Text) : Bool := (cut? pat s).isSome

def replaceFirst? (pat new s : Text) : Option Text :=
  (cut? pat s).map fun (before, rest) => before ++ new ++ rest

theorem eq_append_of_after? {pat s rest : Text} (h : after? pat s = some rest) :
    s = pat ++ rest := by
  induction pat generalizing s with
  | nil => simpa [after?] using h
  | cons p pat ih =>
      cases s with
      | nil => simp [after?] at h
      | cons c s =>
          by_cases hc : p = c
          · simp only [after?, hc, if_true] at h
            simp [hc, ih h]
          · simp [after?, hc] at h

theorem after?_append (pat rest : Text) : after? pat (pat ++ rest) = some rest := by
  induction pat with
  | nil => rfl
  | cons p pat ih => simp [after?, ih]

theorem eq_append_of_cut? {pat s before rest : Text} (h : cut? pat s = some (before, rest)) :
    s = before ++ pat ++ rest := by
  induction s generalizing before with
  | nil =>
      obtain ⟨_, hr, he⟩ := Option.map_eq_some_iff.1 h
      cases he
      exact eq_append_of_after? hr
  | cons c s ih =>
      cases ha : after? pat (c :: s) with
      | some r =>
          simp only [cut?, ha, Option.some.injEq, Prod.mk.injEq] at h
          obtain ⟨rfl, rfl⟩ := h
          exact eq_append_of_after? ha
      | none =>
          simp only [cut?, ha] at h
          obtain ⟨⟨b, r⟩, hr, he⟩ := Option.map_eq_some_iff.1 h
          cases he
          simp [ih hr]

end Emend.Text
