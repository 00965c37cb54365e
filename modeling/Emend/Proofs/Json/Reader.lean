import Emend.Json.Record
import Mathlib.Data.Char
import Mathlib.Tactic.SplitIfs

namespace Emend

open Json.Reader

/-- The literal is one that JSON has: there are digits where they belong, and no zero stands before
other digits. -/
def Literal.isWritten (l : Literal) : Bool :=
  (l.whole == ['0'] || l.whole.head?.any (· != '0') && l.whole.all isDigit) &&
    l.fraction.all isDigit && l.exponent.all fun e => e.2 != [] && e.2.all isDigit

namespace Json.Reader

def run (s : State) (t : Text) : Option State := t.foldlM step s

variable {s s' : State} {t u : Text} {c : Char} {stack : List Frame} {v : Value}

theorem run_nil (s : State) : run s [] = some s := rfl

theorem run_cons (s : State) (c : Char) (t : Text) :
    run s (c :: t) = (step s c).bind (run · t) := rfl

theorem run_append (s : State) (t u : Text) : run s (t ++ u) = (run s t).bind (run · u) :=
  List.foldlM_append

theorem run_of_step (h : step s c = some s') (t : Text) : run s (c :: t) = run s' t := by
  rw [run_cons, h, Option.bind_some]

theorem run_of_run (h : run s t = some s') (u : Text) : run s (t ++ u) = run s' u := by
  rw [run_append, h, Option.bind_some]

/-- The value has been read, whether or not the reader knows yet that it ends here. -/
inductive Holds (stack : List Frame) : Value → State → Prop
  | done (v : Value) : Holds stack v ⟨stack, .done v⟩
  | name (v : Value) : Holds stack v ⟨stack, .name [] v⟩
  | zero (n : Literal) : Holds stack (.number n) ⟨stack, .number .zero n⟩
  | whole (n : Literal) : Holds stack (.number n) ⟨stack, .number .whole n⟩
  | fraction (n : Literal) : Holds stack (.number n) ⟨stack, .number .fraction n⟩
  | exponent (n : Literal) : Holds stack (.number n) ⟨stack, .number .exponent n⟩

def Ends (c : Char) : Prop := c ≠ '.' ∧ c ≠ 'e' ∧ c ≠ 'E' ∧ isDigit c = false

instance (c : Char) : Decidable (Ends c) := inferInstanceAs (Decidable (_ ∧ _ ∧ _ ∧ _))

theorem Holds.step_eq (h : Holds stack v s) (hc : Ends c) : step s c = after stack v c := by
  obtain ⟨hpoint, he, hE, hdigit⟩ := hc
  cases h with
  | done v | name v => rfl
  | zero n | whole n | fraction n => simp [step, inNumber, hpoint, he, hE, hdigit]
  | exponent n => cases hexp : n.exponent <;> simp [step, inNumber, hexp, hdigit]

theorem Holds.finish_eq (h : Holds [] v s) : finish s = some v := by
  cases h <;> rfl

theorem hexValue?_hexDigit {n : Nat} (h : n < 16) : hexValue? (hexDigit n) = some n := by
  have hall : ∀ n < 16, hexValue? (hexDigit n) = some n := by decide
  exact hall n h

theorem run_escape (stack : List Frame) (isKey : Bool) (gathered : Text) (c : Char) :
    run ⟨stack, .string isKey .plain (some gathered)⟩ (escape c) =
      some ⟨stack, .string isKey .plain (some (c :: gathered))⟩ := by
  rw [escape]
  split_ifs with h1 h2 h3 h4 h5 h6 h7 h8
  · subst h1; rfl
  · subst h2; rfl
  · subst h3; rfl
  · subst h4; rfl
  · subst h5; rfl
  · subst h6; rfl
  · subst h7; rfl
  · have hhigh := hexValue?_hexDigit (n := c.toNat / 16) (by omega)
    have hlow := hexValue?_hexDigit (n := c.toNat % 16) (by omega)
    have hzero : hexValue? '0' = some 0 := rfl
    have hvalue : 16 * (c.toNat / 16) + c.toNat % 16 = c.toNat := Nat.div_add_mod ..
    have hunit : codeUnit none c.toNat (some gathered) = (.plain, some (c :: gathered)) := by
      have hisHigh : isHigh c.toNat = false := by simp [isHigh]; omega
      have hisLow : isLow c.toNat = false := by simp [isLow]; omega
      simp [codeUnit, hisHigh, hisLow, Char.ofNat_toNat]
    simp [run_cons, run_nil, step, inString, inPlain, inEscape, hzero, hhigh, hlow, hvalue, hunit]
  · simp [run_cons, run_nil, step, inString, inPlain, h1, h2, h8]

theorem run_escapes (stack : List Frame) (isKey : Bool) (gathered t : Text) :
    run ⟨stack, .string isKey .plain (some gathered)⟩ (t.flatMap escape) =
      some ⟨stack, .string isKey .plain (some (t.reverse ++ gathered))⟩ := by
  induction t generalizing gathered with
  | nil => rfl
  | cons c t ih =>
      rw [List.flatMap_cons, run_of_run (run_escape stack isKey gathered c), ih]
      simp

theorem run_string (stack : List Frame) (isKey : Bool) (t : Text) :
    run ⟨stack, .string isKey .plain (some [])⟩ (t.flatMap escape ++ ['"']) =
      close stack isKey (some t.reverse) := by
  rw [run_of_run (run_escapes stack isKey [] t), List.append_nil, run_cons]
  have hstep : step ⟨stack, .string isKey .plain (some t.reverse)⟩ '"' =
      close stack isKey (some t.reverse) := rfl
  rw [hstep]
  cases close stack isKey (some t.reverse) <;> rfl

theorem ne_of_isDigit (h : isDigit c = true) : c ≠ '.' ∧ c ≠ 'e' ∧ c ≠ 'E' ∧ c ≠ '+' ∧ c ≠ '-' := by
  refine ⟨?_, ?_, ?_, ?_, ?_⟩ <;> rintro rfl <;> cases h

theorem run_digits {p : NumberPoint} {put : Text → Literal}
    (hstep : ∀ ds c, isDigit c = true →
      step ⟨stack, .number p (put ds)⟩ c = some ⟨stack, .number p (put (ds ++ [c]))⟩)
    (ds : Text) (ht : t.all isDigit = true) :
    run ⟨stack, .number p (put ds)⟩ t = some ⟨stack, .number p (put (ds ++ t))⟩ := by
  induction t generalizing ds with
  | nil => rw [List.append_nil]; rfl
  | cons c t ih =>
      rw [List.all_cons, Bool.and_eq_true] at ht
      rw [run_of_step (hstep ds c ht.1), ih _ ht.2, List.append_assoc]
      rfl

inductive Expects (stack : List Frame) : State → Prop
  | value : Expects stack ⟨stack, .value⟩
  | firstItem : Expects stack ⟨stack, .firstItem⟩

theorem Expects.step_eq (h : Expects stack s) (hspace : isSpace c = false) (hc : c ≠ ']') :
    step s c = begin stack c := by
  cases h <;> simp [step, hspace, hc]

theorem not_isSpace_of_isDigit (h : isDigit c = true) : isSpace c = false := by
  by_contra hspace
  rw [Bool.not_eq_false, isSpace] at hspace
  simp only [Bool.or_eq_true, beq_iff_eq] at hspace
  rcases hspace with ((rfl | rfl) | rfl) | rfl <;> cases h

theorem begin_of_isDigit (stack : List Frame) (h : isDigit c = true) (hzero : c ≠ '0') :
    begin stack c = some ⟨stack, .number .whole { whole := [c] }⟩ := by
  have hne {d : Char} (hd : isDigit d = false) : c ≠ d := by
    rintro rfl
    rw [h] at hd
    cases hd
  rw [begin, if_neg (hne rfl), if_neg (hne rfl), if_neg (hne rfl), if_neg (hne rfl),
    if_neg (hne rfl), if_neg (hne rfl), if_neg (hne rfl), if_neg hzero, if_pos h]

theorem run_whole (hs : Expects stack s) (negative : Bool) {whole : Text}
    (h : (whole == ['0'] || whole.head?.any (· != '0') && whole.all isDigit) = true) :
    ∃ p, (p = .zero ∨ p = .whole) ∧
      run s ((if negative then ['-'] else []) ++ whole) =
        some ⟨stack, .number p { negative := negative, whole := whole }⟩ := by
  rw [Bool.or_eq_true, beq_iff_eq] at h
  rcases h with rfl | h
  · refine ⟨.zero, .inl rfl, ?_⟩
    cases negative <;> cases hs <;> rfl
  · cases whole with
    | nil => cases h
    | cons d ds =>
        simp only [List.head?_cons, Option.any_some, bne_iff_ne, List.all_cons, Bool.and_eq_true] at h
        obtain ⟨hzero, hd, hds⟩ := h
        refine ⟨.whole, .inr rfl, ?_⟩
        have hstep (negative : Bool) (ds : Text) (c : Char) (hc : isDigit c = true) :
            step ⟨stack, .number .whole { negative := negative, whole := ds }⟩ c =
              some ⟨stack, .number .whole { negative := negative, whole := ds ++ [c] }⟩ := by
          obtain ⟨hpoint, he, hE, -⟩ := ne_of_isDigit hc
          simp [step, inNumber, hpoint, he, hE, hc]
        cases negative with
        | false =>
            have hfirst := (hs.step_eq (not_isSpace_of_isDigit hd) (by rintro rfl; cases hd)).trans
              (begin_of_isDigit stack hd hzero)
            exact (run_of_step hfirst ds).trans (run_digits (hstep false) [d] hds)
        | true =>
            have hsign : step s '-' = some ⟨stack, .number .sign { negative := true }⟩ :=
              (hs.step_eq rfl (by decide)).trans rfl
            have hfirst : step ⟨stack, .number .sign { negative := true }⟩ d =
                some ⟨stack, .number .whole { negative := true, whole := [d] }⟩ := by
              simp [step, inNumber, hzero, hd]
            exact (run_of_step hsign _).trans ((run_of_step hfirst ds).trans
              (run_digits (hstep true) [d] hds))

theorem run_fraction (stack : List Frame) {p : NumberPoint} (hp : p = .zero ∨ p = .whole) (n : Literal)
    {fraction : Text} (hn : n.fraction = []) (h : fraction.all isDigit = true) :
    ∃ q, (q = .zero ∨ q = .whole ∨ q = .fraction) ∧
      run ⟨stack, .number p n⟩ (if fraction = [] then [] else '.' :: fraction) =
        some ⟨stack, .number q { n with fraction := fraction }⟩ := by
  cases fraction with
  | nil =>
      refine ⟨p, hp.imp_right .inl, ?_⟩
      cases n
      cases hn
      rfl
  | cons d ds =>
      rw [List.all_cons, Bool.and_eq_true] at h
      refine ⟨.fraction, by simp, ?_⟩
      have hpoint : step ⟨stack, .number p n⟩ '.' = some ⟨stack, .number .point n⟩ := by
        rcases hp with rfl | rfl <;> rfl
      have hfirst : step ⟨stack, .number .point n⟩ d =
          some ⟨stack, .number .fraction { n with fraction := [d] }⟩ := by
        simp [step, inNumber, h.1]
      have hstep (ds : Text) (c : Char) (hc : isDigit c = true) :
          step ⟨stack, .number .fraction { n with fraction := ds }⟩ c =
            some ⟨stack, .number .fraction { n with fraction := ds ++ [c] }⟩ := by
        obtain ⟨-, he, hE, -⟩ := ne_of_isDigit hc
        simp [step, inNumber, he, hE, hc]
      rw [if_neg (List.cons_ne_nil d ds)]
      exact (run_of_step hpoint _).trans
        ((run_of_step hfirst ds).trans (run_digits hstep [d] h.2))

theorem run_exponent {p : NumberPoint} (hp : p = .zero ∨ p = .whole ∨ p = .fraction) (n : Literal)
    (negative : Bool) {digits : Text} (hne : digits ≠ []) (h : digits.all isDigit = true) :
    run ⟨stack, .number p n⟩ ('e' :: (if negative then '-' else '+') :: digits) =
      some ⟨stack, .number .exponent { n with exponent := some (negative, digits) }⟩ := by
  cases digits with
  | nil => exact absurd rfl hne
  | cons d ds =>
      rw [List.all_cons, Bool.and_eq_true] at h
      have hmark : step ⟨stack, .number p n⟩ 'e' =
          some ⟨stack, .number .mark { n with exponent := some (false, []) }⟩ := by
        rcases hp with rfl | rfl | rfl <;> rfl
      have hsign : step ⟨stack, .number .mark { n with exponent := some (false, []) }⟩
          (if negative then '-' else '+') =
          some ⟨stack, .number .exponentSign { n with exponent := some (negative, []) }⟩ := by
        cases negative <;> rfl
      have hfirst : step ⟨stack, .number .exponentSign { n with exponent := some (negative, []) }⟩ d =
          some ⟨stack, .number .exponent { n with exponent := some (negative, [d]) }⟩ := by
        simp [step, inNumber, h.1]
      have hstep (ds : Text) (c : Char) (hc : isDigit c = true) :
          step ⟨stack, .number .exponent { n with exponent := some (negative, ds) }⟩ c =
            some ⟨stack, .number .exponent { n with exponent := some (negative, ds ++ [c]) }⟩ := by
        simp [step, inNumber, hc]
      exact (run_of_step hmark _).trans ((run_of_step hsign _).trans
        ((run_of_step hfirst ds).trans (run_digits hstep [d] h.2)))

theorem run_number (hs : Expects stack s) {n : Literal} (h : n.isWritten = true) :
    ∃ s', run s n.render = some s' ∧ Holds stack (.number n) s' := by
  obtain ⟨negative, whole, fraction, exponent⟩ := n
  simp only [Literal.isWritten, Bool.and_eq_true] at h
  obtain ⟨⟨hwhole, hfraction⟩, hexponent⟩ := h
  obtain ⟨p, hp, hrun⟩ := run_whole hs negative hwhole
  obtain ⟨q, hq, hrun'⟩ := run_fraction stack hp
    { negative := negative, whole := whole } rfl hfraction
  rw [Literal.render, run_of_run (by rw [run_of_run hrun, hrun'])]
  cases exponent with
  | none =>
      refine ⟨_, rfl, ?_⟩
      rcases hq with rfl | rfl | rfl
      · exact .zero _
      · exact .whole _
      · exact .fraction _
  | some e =>
      obtain ⟨sign, digits⟩ := e
      simp only [Option.all_some, Bool.and_eq_true, bne_iff_ne] at hexponent
      exact ⟨_, run_exponent hq _ sign hexponent.1 hexponent.2, .exponent _⟩

theorem run_name (hs : Expects stack s) (hspace : isSpace c = false) (hc : c ≠ ']')
    (hbegin : begin stack c = some ⟨stack, .name t v⟩) :
    ∃ s', run s (c :: t) = some s' ∧ Holds stack v s' := by
  refine ⟨⟨stack, .name [] v⟩, ?_, .name v⟩
  rw [run_of_step ((hs.step_eq hspace hc).trans hbegin)]
  clear hbegin
  induction t with
  | nil => rfl
  | cons d t ih =>
      have hstep : step ⟨stack, .name (d :: t) v⟩ d = some ⟨stack, .name t v⟩ := by simp [step]
      rw [run_of_step hstep, ih]

theorem run_key (ms : List (Str × Value)) {focus : Focus}
    (hfocus : focus = .firstKey ∨ focus = .nextKey) (k : Text) :
    run ⟨.members ms :: stack, focus⟩ (Str.render (some k) ++ [':']) =
      some ⟨.member ms (some k) :: stack, .value⟩ := by
  have hquote : step ⟨.members ms :: stack, focus⟩ '"' =
      some ⟨.members ms :: stack, .string true .plain (some [])⟩ := by
    rcases hfocus with rfl | rfl <;> rfl
  have hclose : close (.members ms :: stack) true (some k.reverse) =
      some ⟨.member ms (some k) :: stack, .colon⟩ := by
    simp [close]
  rw [Str.render, List.cons_append, List.cons_append, run_of_step hquote,
    run_of_run ((run_string _ true k).trans hclose)]
  rfl

theorem run_text (hs : Expects stack s) (t : Text) :
    run s (Str.render (some t)) = some ⟨stack, .done (.string (some t))⟩ := by
  have hquote : step s '"' = some ⟨stack, .string false .plain (some [])⟩ :=
    (hs.step_eq rfl (by decide)).trans rfl
  have hclose : close stack false (some t.reverse) = some ⟨stack, .done (.string (some t))⟩ := by
    simp [close]
  exact (run_of_step hquote _).trans ((run_string stack false t).trans hclose)

mutual

theorem run_render (v : Value) (h : v.wellFormed Literal.isWritten = true) {stack : List Frame}
    {s : State} (hs : Expects stack s) :
    ∃ s', run s v.render = some s' ∧ Holds stack v s' := by
  match v with
  | .null => exact run_name hs rfl (by decide) rfl
  | .bool true => exact run_name hs rfl (by decide) rfl
  | .bool false => exact run_name hs rfl (by decide) rfl
  | .number n => exact run_number hs h
  | .string none => cases h
  | .string (some t) => exact ⟨_, run_text hs t, .done _⟩
  | .array [] =>
      refine ⟨⟨stack, .done (.array [])⟩, ?_, .done _⟩
      cases hs <;> rfl
  | .array (v :: vs) =>
      rw [Value.wellFormed, Value.wellFormedItems, Bool.and_eq_true] at h
      have hopen : step s '[' = some ⟨.items [] :: stack, .firstItem⟩ :=
        (hs.step_eq rfl (by decide)).trans rfl
      obtain ⟨s', hrun, hholds⟩ := run_render v h.1 (.firstItem : Expects (.items [] :: stack) _)
      refine ⟨_, ?_, .done _⟩
      exact (run_of_step hopen _).trans
        ((run_of_run hrun _).trans (run_renderItems vs h.2 hholds))
  | .object [] =>
      refine ⟨⟨stack, .done (.object [])⟩, ?_, .done _⟩
      cases hs <;> rfl
  | .object (m :: ms) =>
      rw [Value.wellFormed, Value.wellFormedMembers, Bool.and_eq_true] at h
      have hopen : step s '\x7b' = some ⟨.members [] :: stack, .firstKey⟩ :=
        (hs.step_eq rfl (by decide)).trans rfl
      obtain ⟨s', hrun, hholds⟩ := run_renderMember m h.1 [] (.inl rfl)
      refine ⟨_, ?_, .done _⟩
      exact (run_of_step hopen _).trans
        ((run_of_run hrun _).trans (run_renderMembers ms h.2 hholds))

theorem run_renderItems (vs : List Value) (h : Value.wellFormedItems Literal.isWritten vs = true)
    {stack : List Frame} {done : List Value} {v : Value} {s : State}
    (hs : Holds (.items done :: stack) v s) :
    run s (Value.renderItems vs) = some ⟨stack, .done (.array (done.reverse ++ v :: vs))⟩ := by
  match vs with
  | [] =>
      rw [Value.renderItems, run_of_step ((hs.step_eq (by decide)).trans rfl), run_nil]
      simp
  | w :: ws =>
      rw [Value.wellFormedItems, Bool.and_eq_true] at h
      have hcomma : step s ',' = some ⟨.items (v :: done) :: stack, .value⟩ :=
        (hs.step_eq (by decide)).trans rfl
      obtain ⟨s', hrun, hholds⟩ :=
        run_render w h.1 (.value : Expects (.items (v :: done) :: stack) _)
      rw [Value.renderItems, List.cons_append, run_of_step hcomma, run_of_run hrun,
        run_renderItems ws h.2 hholds]
      simp

theorem run_renderMember (m : Str × Value)
    (h : Value.wellFormedMember Literal.isWritten m = true) {stack : List Frame}
    (ms : List (Str × Value)) {focus : Focus} (hfocus : focus = .firstKey ∨ focus = .nextKey) :
    ∃ s', run ⟨.members ms :: stack, focus⟩ (Value.renderMember m) = some s' ∧
      Holds (.member ms m.1 :: stack) m.2 s' := by
  match m with
  | (none, v) => cases h
  | (some k, v) =>
      rw [Value.wellFormedMember, Bool.and_eq_true] at h
      obtain ⟨s', hrun, hholds⟩ :=
        run_render v h.2 (.value : Expects (.member ms (some k) :: stack) _)
      refine ⟨s', ?_, hholds⟩
      have htext : Value.renderMember (some k, v) = (Str.render (some k) ++ [':']) ++ v.render := by
        simp [Value.renderMember]
      rw [htext, run_of_run (run_key ms hfocus k), hrun]

theorem run_renderMembers (ms : List (Str × Value))
    (h : Value.wellFormedMembers Literal.isWritten ms = true) {stack : List Frame}
    {done : List (Str × Value)} {m : Str × Value} {s : State}
    (hs : Holds (.member done m.1 :: stack) m.2 s) :
    run s (Value.renderMembers ms) = some ⟨stack, .done (.object (done.reverse ++ m :: ms))⟩ := by
  match ms with
  | [] =>
      rw [Value.renderMembers, run_of_step ((hs.step_eq (by decide)).trans rfl), run_nil]
      simp
  | n :: ns =>
      rw [Value.wellFormedMembers, Bool.and_eq_true] at h
      have hcomma : step s ',' = some ⟨.members (m :: done) :: stack, .nextKey⟩ :=
        (hs.step_eq (by decide)).trans rfl
      obtain ⟨s', hrun, hholds⟩ := run_renderMember n h.1 (m :: done) (.inr rfl)
      rw [Value.renderMembers, List.cons_append, run_of_step hcomma, run_of_run hrun,
        run_renderMembers ns h.2 hholds]
      simp

end

end Json.Reader

theorem Json.read?_render {v : Json.Value} (h : v.wellFormed Literal.isWritten = true) :
    Json.read? v.render = some v := by
  obtain ⟨s, hrun, hholds⟩ := Json.Reader.run_render v h .value
  have hfold : v.render.foldlM step start = some s := hrun
  rw [Json.read?, hfold, Option.bind_some, hholds.finish_eq]

end Emend
