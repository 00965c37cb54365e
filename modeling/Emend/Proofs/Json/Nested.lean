import Emend.Proofs.Json.Step

namespace Emend.Json

open Reader

namespace Focus

def isOutside : Focus → Bool
  | .string .. => false
  | .name rest v => rest.all isLetter && v.isPlain
  | _ => true

def isInside : Focus → Bool
  | .string _ .plain _ => true
  | _ => false

def isString : Focus → Bool
  | .string .. => true
  | _ => false

end Focus

variable {s s' r r' : State} {c : Char} {t u : Text} {v : Value} {f : Focus}

theorem run_keeps {P : State → Prop} {Q : Char → Prop}
    (hstep : ∀ {s c s'}, P s → Q c → step s c = some s' → P s') (hs : P s) (hu : ∀ c ∈ u, Q c)
    (h : run s u = some s') : P s' := by
  induction u generalizing s with
  | nil => exact Option.some.inj h ▸ hs
  | cons c u ih =>
      rw [List.forall_mem_cons] at hu
      rw [run_cons] at h
      obtain ⟨s₁, hs₁, h⟩ := Option.bind_eq_some_iff.1 h
      exact ih (hstep hs hu.1 hs₁) hu.2 h

theorem isMark_of_isSpace (h : isSpace c = true) : isMark c = true := by simp [isMark, h]

theorem isMark_of_isLetter (h : isLetter c = true) : isMark c = true := by simp [isMark, h]

theorem isMark_of_isFigure (h : isFigure c = true) : isMark c = true := by simp [isMark, h]

theorem ne_quote_of_isMark (h : isMark c = true) : c ≠ '"' := by
  rintro rfl
  exact absurd h (by decide)

/-- A character outside strings is a mark, or a quotation mark that leads into a string. -/
theorem step_of_isOutside (hs : s.focus.isOutside = true) (h : step s c = some s') :
    c = '"' ∧ s'.focus.isInside = true ∨ isMark c = true ∧ s'.focus.isOutside = true := by
  cases moves_of_step h with
  | wait hc hf => exact .inr ⟨isMark_of_isSpace hc, hs⟩
  | text hf | key hf => exact .inl ⟨rfl, rfl⟩
  | items hf | members hf | noItems | noMembers | colon | nextItem hf | lastItem hf
  | nextMember hf | lastMember hf => exact .inr ⟨by decide, rfl⟩
  | name hf hc hv =>
      rw [List.all_cons, Bool.and_eq_true] at hc
      exact .inr ⟨isMark_of_isLetter hc.1, by simp [Focus.isOutside, hc.2, hv]⟩
  | letter =>
      simp only [Focus.isOutside, List.all_cons, Bool.and_eq_true] at hs
      exact .inr ⟨isMark_of_isLetter hs.1.1, by simp [Focus.isOutside, hs.1.2, hs.2]⟩
  | figure hf hc => exact .inr ⟨isMark_of_isFigure hc, rfl⟩
  | rest hf hc => exact .inr ⟨isMark_of_isSpace hc, rfl⟩
  | char hc | escape hp | endKey hp | endText => cases hs

/-- In a string only a quotation mark leads out, and only a backslash to an escape. -/
theorem step_of_isInside (hs : s.focus.isInside = true) (h : step s c = some s') :
    c = '"' ∧ s'.focus.isOutside = true ∨ c = '\\' ∨ c ≠ '"' ∧ s'.focus.isInside = true := by
  cases moves_of_step h with
  | wait hc hf => rcases hf with (rfl | rfl) | (rfl | rfl) | rfl <;> cases hs
  | text hf | items hf | members hf | name hf hc hv => rcases hf with rfl | rfl <;> cases hs
  | key hf => rcases hf with rfl | rfl <;> cases hs
  | figure hf hc => rcases hf with (rfl | rfl) | ⟨q, m, rfl⟩ <;> cases hs
  | noItems | noMembers | colon | letter => cases hs
  | rest hf hc | nextItem hf | lastItem hf | nextMember hf | lastMember hf => cases hf <;> cases hs
  | char hc => exact .inr (.inr ⟨hc.1, rfl⟩)
  | escape hp =>
      rename_i p g q g'
      cases p with
      | plain => exact .inr (.inl (hp.resolve_left fun hne => hne rfl))
      | escaped | unit high digits value | halfway high | halfwayEscaped high => cases hs
  | endKey hp | endText => exact .inl ⟨rfl, rfl⟩

def Opposed (s r : State) : Prop :=
  s.focus.isInside = true ∧ r.focus.isOutside = true ∨
    s.focus.isOutside = true ∧ r.focus.isInside = true

/-- A character that a text inside a string of another text may have, for both to be read. -/
def isShared (c : Char) : Bool := c == '"' || isMark c

theorem ne_backslash_of_isShared (h : isShared c = true) : c ≠ '\\' := by
  rintro rfl
  exact absurd h (by decide)

theorem isShared_and_opposed (hs : s.focus.isInside = true) (hr : r.focus.isOutside = true)
    (h : step s c = some s') (h' : step r c = some r') :
    isShared c = true ∧ Opposed s' r' := by
  have hshared : isShared c = true := by
    rcases step_of_isOutside hr h' with ⟨rfl, -⟩ | ⟨hmark, -⟩
    · rfl
    · simp [isShared, hmark]
  refine ⟨hshared, ?_⟩
  rcases step_of_isOutside hr h' with ⟨rfl, hin⟩ | ⟨hmark, hout⟩
  · rcases step_of_isInside hs h with ⟨-, hout⟩ | hslash | ⟨hne, -⟩
    · exact .inr ⟨hout, hin⟩
    · cases hslash
    · exact absurd rfl hne
  · rcases step_of_isInside hs h with ⟨hquote, -⟩ | hslash | ⟨-, hin⟩
    · exact absurd hquote (ne_quote_of_isMark hmark)
    · exact absurd hslash (ne_backslash_of_isShared hshared)
    · exact .inl ⟨hin, hout⟩

theorem Opposed.symm (h : Opposed s r) : Opposed r s :=
  h.elim (fun h => .inr h.symm) fun h => .inl h.symm

theorem Opposed.step (ho : Opposed s r) (h : step s c = some s') (h' : step r c = some r') :
    isShared c = true ∧ Opposed s' r' := by
  rcases ho with ⟨hs, hr⟩ | ⟨hs, hr⟩
  · exact isShared_and_opposed hs hr h h'
  · obtain ⟨hshared, ho⟩ := isShared_and_opposed hr hs h' h
    exact ⟨hshared, ho.symm⟩

theorem Opposed.run (ho : Opposed s r) (h : run s u = some s') (h' : run r u = some r') :
    ∀ c ∈ u, isShared c = true := by
  induction u generalizing s r with
  | nil => simp
  | cons c u ih =>
      rw [run_cons] at h h'
      obtain ⟨s₁, hs₁, h⟩ := Option.bind_eq_some_iff.1 h
      obtain ⟨r₁, hr₁, h'⟩ := Option.bind_eq_some_iff.1 h'
      obtain ⟨hshared, ho⟩ := ho.step hs₁ hr₁
      rw [List.forall_mem_cons]
      exact ⟨hshared, ih ho h h'⟩

def State.Proper (s : State) : Prop := s.focus.isString = true ∨ s.focus.isOutside = true

theorem Focus.isString_of_isInside (h : f.isInside = true) : f.isString = true := by
  cases f with
  | string isKey p g => rfl
  | value | firstItem | firstKey | nextKey | colon | done v | name rest v | number p n => cases h

theorem step_of_isString (hs : s.focus.isString = true) (h : step s c = some s') :
    c = '"' ∧ s'.focus.isOutside = true ∨ s'.focus.isString = true := by
  obtain ⟨stack, f⟩ := s
  cases f with
  | string isKey p g =>
      cases moves_of_step h with
      | char hc | escape hp => exact .inr rfl
      | endKey hp | endText => exact .inl ⟨rfl, rfl⟩
      | wait hc hf => rcases hf with (hf | hf) | (hf | hf) | hf <;> cases hf
      | text hf | items hf | members hf | name hf hc hv | key hf =>
          rcases hf with hf | hf <;> cases hf
      | figure hf hc => rcases hf with (hf | hf) | ⟨q, m, hf⟩ <;> cases hf
      | rest hf hc | nextItem hf | lastItem hf | nextMember hf | lastMember hf => cases hf
  | value | firstItem | firstKey | nextKey | colon | done v | name rest v | number p n => cases hs

theorem State.Proper.step (hs : s.Proper) (h : Reader.step s c = some s') : s'.Proper := by
  rcases hs with hs | hs
  · rcases step_of_isString hs h with ⟨-, hout⟩ | hstring
    · exact .inr hout
    · exact .inl hstring
  · rcases step_of_isOutside hs h with ⟨-, hin⟩ | ⟨-, hout⟩
    · exact .inl (Focus.isString_of_isInside hin)
    · exact .inr hout

theorem proper_of_run (h : run start u = some s) : s.Proper :=
  run_keeps (Q := fun _ => True) (fun hs _ => hs.step) (.inr rfl) (fun _ _ => trivial) h

theorem isInside_of_isString (hs : s.focus.isString = true) (hhex : hexValue? c = none)
    (hescaped : escaped? c = none) (hu : c ≠ 'u') (h : step s c = some s') :
    s'.focus.isInside = true := by
  have hquote : c ≠ '"' := by
    rintro rfl
    cases hescaped
  have hslash : c ≠ '\\' := by
    rintro rfl
    cases hescaped
  obtain ⟨stack, f⟩ := s
  cases f with
  | string isKey p g =>
      cases p <;>
        simp only [step, inString, inPlain, inEscape, hhex, hescaped, hu, hquote, hslash, if_false,
          Option.map_none] at h
      · split at h <;> cases h
        rfl
      · cases h
      · cases h
      · split at h <;> cases h
        rfl
      · cases h
  | value | firstItem | firstKey | nextKey | colon | done v | name rest v | number p n => cases hs

theorem isInside_run (hs : s.focus.isInside = true) (hu : ∀ c ∈ u, c ≠ '"' ∧ c ≠ '\\')
    (h : run s u = some s') : s'.focus.isInside = true := by
  refine run_keeps (P := fun s => s.focus.isInside = true) (fun hs hc h => ?_) hs hu h
  rcases step_of_isInside hs h with ⟨hquote, -⟩ | hslash | ⟨-, hin⟩
  · exact absurd hquote hc.1
  · exact absurd hslash hc.2
  · exact hin

section

variable (p : Char → Bool)

def Str.IsOver (k : Str) : Prop := ∀ t, k = some t → ∀ c ∈ t, p c = true

def Value.KeysOver : Value → Prop
  | .object ms => ∀ m ∈ ms, Str.IsOver p m.1
  | _ => True

def Frame.KeysOver : Frame → Prop
  | .items _ => True
  | .members ms => ∀ m ∈ ms, Str.IsOver p m.1
  | .member ms k => (∀ m ∈ ms, Str.IsOver p m.1) ∧ Str.IsOver p k

def Focus.KeysOver : Focus → Prop
  | .done v | .name _ v => v.KeysOver p
  | .string _ q g => q = .plain ∧ Str.IsOver p g
  | _ => True

structure State.KeysOver (s : State) : Prop where
  stack : ∀ f ∈ s.stack, f.KeysOver p
  focus : s.focus.KeysOver p

variable {p}

theorem Value.keysOver_of_isPlain (h : v.isPlain = true) : v.KeysOver p := by
  cases v with
  | object ms => exact absurd h Bool.false_ne_true
  | array vs | null | bool b | number n | string k => trivial

theorem Focus.HasRead.keysOver (h : f.HasRead v) (hf : f.KeysOver p) : v.KeysOver p := by
  cases h with
  | done v | name v => exact hf
  | number q n => trivial

theorem Str.IsOver.cons {g : Str} (h : Str.IsOver p g) (hc : p c = true) :
    Str.IsOver p (g.map (c :: ·)) := by
  rintro t ht
  obtain ⟨u, hu, rfl⟩ := Option.map_eq_some_iff.1 ht
  rw [List.forall_mem_cons]
  exact ⟨hc, h u hu⟩

theorem Str.IsOver.reverse {g : Str} (h : Str.IsOver p g) : Str.IsOver p (g.map List.reverse) := by
  rintro t ht c hc
  obtain ⟨u, hu, rfl⟩ := Option.map_eq_some_iff.1 ht
  exact h u hu c (List.mem_reverse.1 hc)

theorem State.KeysOver.step (hs : s.KeysOver p) (hc : p c = true ∧ c ≠ '\\')
    (h : Reader.step s c = some s') : s'.KeysOver p := by
  obtain ⟨hstack, hfocus⟩ := hs
  cases moves_of_step h with
  | wait _ _ => exact ⟨hstack, hfocus⟩
  | text _ | key _ => exact ⟨hstack, rfl, by simp [Str.IsOver]⟩
  | items _ | members _ => exact ⟨by simpa [Frame.KeysOver] using hstack, trivial⟩
  | noItems => exact ⟨fun f hf => hstack f (List.mem_of_mem_tail hf), trivial⟩
  | noMembers =>
      refine ⟨fun f hf => hstack f (List.mem_of_mem_tail hf), ?_⟩
      simp [Focus.KeysOver, Value.KeysOver]
  | name _ _ hv => exact ⟨hstack, Value.keysOver_of_isPlain hv⟩
  | letter => exact ⟨hstack, hfocus⟩
  | figure _ _ | colon => exact ⟨hstack, trivial⟩
  | rest hf _ => exact ⟨hstack, hf.keysOver hfocus⟩
  | nextItem hf => exact ⟨by simpa [Frame.KeysOver] using hstack, trivial⟩
  | lastItem hf => exact ⟨fun f hf => hstack f (List.mem_cons_of_mem _ hf), trivial⟩
  | nextMember hf =>
      rw [List.forall_mem_cons] at hstack
      refine ⟨List.forall_mem_cons.2 ⟨?_, hstack.2⟩, trivial⟩
      exact List.forall_mem_cons.2 ⟨hstack.1.2, hstack.1.1⟩
  | lastMember hf =>
      rw [List.forall_mem_cons] at hstack
      refine ⟨hstack.2, ?_⟩
      intro m hm
      rw [List.mem_reverse] at hm
      rcases List.mem_cons.1 hm with rfl | hm
      · exact hstack.1.2
      · exact hstack.1.1 m hm
  | char _ => exact ⟨hstack, rfl, hfocus.2.cons hc.1⟩
  | escape hp => exact absurd hfocus.1 (hp.resolve_right hc.2)
  | endKey hp =>
      rw [List.forall_mem_cons] at hstack
      refine ⟨List.forall_mem_cons.2 ⟨⟨hstack.1, ?_⟩, hstack.2⟩, trivial⟩
      rw [hp hfocus.1]
      exact hfocus.2.reverse
  | endText => exact ⟨hstack, trivial⟩

theorem hasRead_of_finish (h : finish s = some v) : s.stack = [] ∧ s.focus.HasRead v := by
  obtain ⟨_ | ⟨frame, stack⟩, f⟩ := s
  · refine ⟨rfl, ?_⟩
    cases f with
    | done w =>
        cases h
        exact .done v
    | name rest w =>
        cases rest with
        | nil =>
            cases h
            exact .name v
        | cons c rest => cases h
    | number q n =>
        cases q <;> cases h
        all_goals exact .number _ n
    | value | firstItem | firstKey | nextKey | colon | string isKey q g => cases h
  · cases f <;> cases h

theorem read?_eq_some_iff : Json.read? t = some v ↔ ∃ s, run start t = some s ∧ finish s = some v :=
  Option.bind_eq_some_iff

/-- The keys of an object whose text has no backslash are made of characters of the text. -/
theorem isOver_of_read? {ms : List (Str × Value)} (h : Json.read? t = some (.object ms))
    (ht : ∀ c ∈ t, p c = true ∧ c ≠ '\\') : ∀ m ∈ ms, Str.IsOver p m.1 := by
  obtain ⟨s, hrun, hfinish⟩ := read?_eq_some_iff.1 h
  have hstart : start.KeysOver p := ⟨nofun, trivial⟩
  have hs := run_keeps (P := State.KeysOver p) (fun hs hc => hs.step hc) hstart ht hrun
  exact (hasRead_of_finish hfinish).2.keysOver hs.focus

end

/-- An object whose text stands inside a string of another text that is read has no other keys. -/
theorem isOver_of_inside {ms : List (Str × Value)} (hs : s.focus.isInside = true)
    (h : run s t = some s') (hread : Json.read? t = some (.object ms)) :
    ∀ m ∈ ms, Str.IsOver isShared m.1 := by
  obtain ⟨r, hrun, -⟩ := read?_eq_some_iff.1 hread
  have hopposed : Opposed s start := .inl ⟨hs, rfl⟩
  exact isOver_of_read? hread fun c hc =>
    ⟨hopposed.run h hrun c hc, ne_backslash_of_isShared (hopposed.run h hrun c hc)⟩

end Emend.Json
