import Emend.Proofs.Json.Nested

namespace Emend.Json

open Reader

variable {s s' : State} {c : Char} {t : Text} {v x : Value} {stack : List Frame}

def State.above (s : State) (below : List Frame) : State := ⟨s.stack ++ below, s.focus⟩

/-- A reader that may close an array or object at once has opened it. -/
def State.Grounded (s : State) : Prop :=
  s.focus = .firstItem ∨ s.focus = .firstKey → s.stack ≠ []

theorem State.Grounded.step (hs : s.Grounded) (h : Reader.step s c = some s') : s'.Grounded := by
  cases moves_of_step h with
  | wait _ _ => exact hs
  | items _ | members _ => exact fun _ => List.cons_ne_nil _ _
  | text _ | key _ | noItems | noMembers | name _ _ _ | letter | figure _ _ | colon | rest _ _
  | nextItem _ | lastItem _ | nextMember _ | lastMember _ | char _ | escape _ | endKey _
  | endText => exact fun hf => by rcases hf with hf | hf <;> cases hf

theorem begin_above (h : begin stack c = some s) (below : List Frame) :
    begin (stack ++ below) c = some (s.above below) := by
  unfold begin at h ⊢
  split_ifs at h ⊢ <;> cases h <;> rfl

theorem after_above (h : after stack v c = some s) (below : List Frame) :
    after (stack ++ below) v c = some (s.above below) := by
  unfold after at h ⊢
  split at h
  · rename_i hspace
    rw [if_pos hspace]
    cases h
    rfl
  · rename_i hspace
    rw [if_neg hspace]
    rcases stack with _ | ⟨frame, stack⟩
    · cases h
    · cases frame with
      | items vs =>
          simp only [List.cons_append] at h ⊢
          split_ifs at h ⊢ <;> cases h <;> rfl
      | members ms => cases h
      | member ms k =>
          simp only [List.cons_append] at h ⊢
          split_ifs at h ⊢ <;> cases h <;> rfl

theorem inNumber_above {p : NumberPoint} {n : Literal} (h : inNumber stack p n c = some s)
    (below : List Frame) : inNumber (stack ++ below) p n c = some (s.above below) := by
  unfold inNumber at h ⊢
  cases p with
  | sign | point | mark =>
      dsimp only at h ⊢
      split_ifs at h ⊢ <;> cases h <;> rfl
  | zero =>
      dsimp only at h ⊢
      split_ifs at h ⊢
      · cases h
        rfl
      · cases h
        rfl
      · exact after_above h below
  | whole =>
      dsimp only at h ⊢
      split_ifs at h ⊢
      · cases h
        rfl
      · cases h
        rfl
      · cases h
        rfl
      · exact after_above h below
  | fraction =>
      dsimp only at h ⊢
      split_ifs at h ⊢
      · cases h
        rfl
      · cases h
        rfl
      · exact after_above h below
  | exponentSign | exponent =>
      dsimp only at h ⊢
      split at h
      · cases h
        simp_all [State.above]
      · simp_all [after_above]
      · cases h

theorem close_above {isKey : Bool} {g : Str} (h : close stack isKey g = some s)
    (below : List Frame) : close (stack ++ below) isKey g = some (s.above below) := by
  unfold close at h
  split at h
  · cases h
    rfl
  · cases h
    rfl
  · cases h

theorem inString_above {isKey : Bool} {p : StringPoint} {g : Str}
    (h : inString stack isKey p g c = some s) (below : List Frame) :
    inString (stack ++ below) isKey p g c = some (s.above below) := by
  cases p with
  | plain =>
      simp only [inString, inPlain] at h ⊢
      split_ifs at h ⊢
      · exact close_above h below
      all_goals cases h; rfl
  | escaped =>
      simp only [inString, inEscape] at h ⊢
      split_ifs at h ⊢
      · cases h; rfl
      · obtain ⟨d, hd, rfl⟩ := Option.map_eq_some_iff.1 h
        rw [hd]
        rfl
  | unit high digits value =>
      obtain ⟨d, hd, rfl⟩ := Option.map_eq_some_iff.1 h
      simp only [inString, hd, Option.map_some]
      split <;> rfl
  | halfway high =>
      simp only [inString, inPlain] at h ⊢
      split_ifs at h ⊢
      · cases h; rfl
      · exact close_above h below
      · cases h; rfl
  | halfwayEscaped high =>
      simp only [inString, inEscape] at h ⊢
      split_ifs at h ⊢
      · cases h; rfl
      · obtain ⟨d, hd, rfl⟩ := Option.map_eq_some_iff.1 h
        rw [hd]
        rfl

theorem step_above (hs : s.Grounded) (h : step s c = some s') (below : List Frame) :
    step (s.above below) c = some (s'.above below) := by
  obtain ⟨stack, f⟩ := s
  cases f with
  | value =>
      simp only [step, State.above] at h ⊢
      split_ifs at h ⊢
      · cases h
        rfl
      · exact begin_above h below
  | firstItem =>
      simp only [step, State.above] at h ⊢
      split_ifs at h ⊢
      · cases h
        rfl
      · cases h
        rw [List.tail_append_of_ne_nil (hs (.inl rfl))]
      · exact begin_above h below
  | firstKey =>
      simp only [step, State.above] at h ⊢
      split_ifs at h ⊢ <;> cases h
      · rfl
      · rw [List.tail_append_of_ne_nil (hs (.inr rfl))]
      · rfl
  | nextKey | colon =>
      simp only [step, State.above] at h ⊢
      split_ifs at h ⊢ <;> cases h
      · rfl
      · rfl
  | done v => exact after_above h below
  | name rest v =>
      cases rest with
      | nil => exact after_above h below
      | cons d rest =>
          simp only [step, State.above] at h ⊢
          split at h <;> cases h
          rw [if_pos ‹_›]
  | number p n => exact inNumber_above h below
  | string isKey p g => exact inString_above h below

/-- What lies open below does not matter to a text that is read to its end. -/
theorem run_above (hs : s.Grounded) (h : run s t = some s') (below : List Frame) :
    run (s.above below) t = some (s'.above below) := by
  induction t generalizing s with
  | nil => rw [← Option.some.inj h]; rfl
  | cons c t ih =>
      rw [run_cons] at h
      obtain ⟨s₁, hs₁, h⟩ := Option.bind_eq_some_iff.1 h
      rw [run_of_step (step_above hs hs₁ below)]
      exact ih (hs.step hs₁) h

/-- The value is `x`, or an array that holds such a value. -/
inductive Around (x : Value) : Value → Prop
  | self : Around x x
  | array {vs : List Value} {v : Value} (hv : v ∈ vs) (h : Around x v) : Around x (.array vs)

structure State.InArrays (s : State) : Prop where
  frames : ∀ f ∈ s.stack, ∃ vs, f = .items vs
  first : s.focus = .firstItem → s.stack.head? = some (.items [])
  noKey : ¬s.focus.AtKey ∧ s.focus ≠ .colon

theorem State.InArrays.step (hs : s.InArrays) (hc : c ≠ '\x7b') (h : Reader.step s c = some s') :
    s'.InArrays := by
  obtain ⟨hframes, hfirst, hnoKey⟩ := hs
  have hnot {f : Focus} (h : f ≠ .firstKey ∧ f ≠ .nextKey ∧ f ≠ .colon) :
      ¬f.AtKey ∧ f ≠ .colon := ⟨not_or.2 ⟨h.1, h.2.1⟩, h.2.2⟩
  cases moves_of_step h with
  | wait _ _ => exact ⟨hframes, hfirst, hnoKey⟩
  | items _ =>
      refine ⟨?_, fun _ => rfl, hnot ⟨nofun, nofun, nofun⟩⟩
      exact List.forall_mem_cons.2 ⟨⟨[], rfl⟩, hframes⟩
  | members _ => exact absurd rfl hc
  | noMembers => exact absurd (.inl rfl) hnoKey.1
  | key hf => exact absurd hf hnoKey.1
  | colon => exact absurd rfl hnoKey.2
  | noItems =>
      exact ⟨fun f hf => hframes f (List.mem_of_mem_tail hf), nofun, hnot ⟨nofun, nofun, nofun⟩⟩
  | text _ | name _ _ _ | letter | figure _ _ | rest _ _ | char _ | escape _ | endText =>
      exact ⟨hframes, nofun, hnot ⟨nofun, nofun, nofun⟩⟩
  | nextItem hf =>
      rw [List.forall_mem_cons] at hframes
      refine ⟨?_, nofun, hnot ⟨nofun, nofun, nofun⟩⟩
      exact List.forall_mem_cons.2 ⟨⟨_, rfl⟩, hframes.2⟩
  | lastItem hf =>
      exact ⟨fun f hf => hframes f (List.mem_cons_of_mem _ hf), nofun, hnot ⟨nofun, nofun, nofun⟩⟩
  | nextMember _ | lastMember _ | endKey _ =>
      obtain ⟨vs, hvs⟩ := hframes _ (List.mem_cons_self ..)
      cases hvs

def Held (x : Value) (stack : List Frame) : Prop :=
  ∃ vs, .items vs ∈ stack ∧ ∃ v ∈ vs, Around x v

theorem Held.cons (h : Held x stack) (frame : Frame) : Held x (frame :: stack) :=
  let ⟨vs, hvs, hv⟩ := h
  ⟨vs, List.mem_cons_of_mem frame hvs, hv⟩

theorem Held.of_cons {vs : List Value} (h : Held x (.items vs :: stack)) :
    (∃ v ∈ vs, Around x v) ∨ Held x stack := by
  obtain ⟨ws, hws, hw⟩ := h
  rcases List.mem_cons.1 hws with heq | hws
  · cases heq
    exact .inl hw
  · exact .inr ⟨ws, hws, hw⟩

/-- The value has been read, and only arrays have been opened around it. -/
structure State.Encloses (x : Value) (s : State) : Prop where
  inArrays : s.InArrays
  held : Held x s.stack ∨ ∃ v, s.focus = .done v ∧ Around x v

theorem State.Encloses.step (hs : s.Encloses x) (hc : c ≠ '\x7b')
    (h : Reader.step s c = some s') : s'.Encloses x := by
  refine ⟨hs.inArrays.step hc h, ?_⟩
  obtain ⟨⟨hframes, hfirst, hnoKey⟩, hheld⟩ := hs
  have hstack (hnot : ∀ v, s.focus ≠ .done v) : Held x s.stack :=
    hheld.resolve_right fun ⟨v, hv, _⟩ => hnot v hv
  cases moves_of_step h with
  | wait _ _ => exact hheld
  | members _ => exact absurd rfl hc
  | noMembers => exact absurd (.inl rfl) hnoKey.1
  | key hf => exact absurd hf hnoKey.1
  | colon => exact absurd rfl hnoKey.2
  | nextMember _ | lastMember _ | endKey _ =>
      obtain ⟨vs, hvs⟩ := hframes _ (List.mem_cons_self ..)
      cases hvs
  | text hf | name hf _ _ => exact .inl (hstack (by rcases hf with rfl | rfl <;> nofun))
  | items hf => exact .inl ((hstack (by rcases hf with rfl | rfl <;> nofun)).cons _)
  | figure hf _ => exact .inl (hstack (by rcases hf with (rfl | rfl) | ⟨q, m, rfl⟩ <;> nofun))
  | letter | char _ | escape _ | endText => exact .inl (hstack nofun)
  | noItems =>
      rename_i stack
      have hin := hstack nofun
      rcases stack with _ | ⟨frame, stack⟩
      · exact .inl hin
      · obtain rfl : frame = .items [] := Option.some.inj (hfirst rfl)
        exact .inl (hin.of_cons.resolve_left (by simp))
  | rest hf _ =>
      rcases hheld with hin | ⟨v, rfl, hv⟩
      · exact .inl hin
      · cases hf
        exact .inr ⟨_, rfl, hv⟩
  | nextItem hf =>
      rcases hheld with hin | ⟨v, rfl, hv⟩
      · rcases hin.of_cons with ⟨w, hw, haround⟩ | hin
        · exact .inl ⟨_, List.mem_cons_self .., w, List.mem_cons_of_mem _ hw, haround⟩
        · exact .inl (hin.cons _)
      · cases hf
        exact .inl ⟨_, List.mem_cons_self .., _, List.mem_cons_self .., hv⟩
  | lastItem hf =>
      rcases hheld with hin | ⟨v, rfl, hv⟩
      · rcases hin.of_cons with ⟨w, hw, haround⟩ | hin
        · exact .inr ⟨_, rfl, .array (List.mem_reverse.2 (List.mem_cons_of_mem _ hw)) haround⟩
        · exact .inl hin
      · cases hf
        exact .inr ⟨_, rfl, .array (List.mem_reverse.2 (List.mem_cons_self ..)) hv⟩

theorem step_open (hs : s.focus.isOutside = true) (h : step s '\x7b' = some s') :
    s' = (⟨[.members []], .firstKey⟩ : State).above s.stack := by
  cases moves_of_step h with
  | members _ => rfl
  | wait hc _ | name _ hc _ | figure _ hc | rest _ hc => cases hc
  | letter | char _ | escape _ => cases hs

theorem run_object {ms : List (Str × Value)} {inner : Text} (hs : s.focus.isOutside = true)
    (hread : Json.read? ('\x7b' :: inner) = some (.object ms))
    (h : run s ('\x7b' :: inner) = some s') : s' = ⟨s.stack, .done (.object ms)⟩ := by
  obtain ⟨r, hrun, hfinish⟩ := read?_eq_some_iff.1 hread
  have hopen : step start '\x7b' = some ⟨[.members []], .firstKey⟩ := rfl
  have hproper := proper_of_run hrun
  rw [run_of_step hopen] at hrun
  rw [run_cons] at h
  obtain ⟨s₁, hs₁, h⟩ := Option.bind_eq_some_iff.1 h
  rw [step_open hs hs₁, run_above (fun _ => List.cons_ne_nil _ _) hrun] at h
  obtain ⟨stack, f⟩ := r
  obtain ⟨rfl, hhas⟩ := hasRead_of_finish hfinish
  cases hhas with
  | done v => exact (Option.some.inj h).symm
  | name v => rcases hproper with hname | hname <;> cases hname

/-- An object is read as the whole of a text, or an array around it is, or it lies in a string and
has no keys but those of shared characters. -/
theorem around_of_read? {ms : List (Str × Value)} {before inner after : Text}
    (hobject : Json.read? ('\x7b' :: inner) = some (.object ms))
    (hbefore : '\x7b' ∉ before) (hafter : '\x7b' ∉ after)
    (hread : Json.read? (before ++ '\x7b' :: inner ++ after) = some v) :
    Around (.object ms) v ∨ ∀ m ∈ ms, Str.IsOver isShared m.1 := by
  obtain ⟨s₃, hrun, hfinish⟩ := read?_eq_some_iff.1 hread
  rw [run_append] at hrun
  obtain ⟨s₂, hrun, hrest⟩ := Option.bind_eq_some_iff.1 hrun
  rw [run_append] at hrun
  obtain ⟨s₁, hfirst, hrun⟩ := Option.bind_eq_some_iff.1 hrun
  rcases proper_of_run hfirst with hstring | houtside
  · -- the object's own reader is in no string where the reader of the whole is in one
    right
    rw [run_cons] at hrun
    obtain ⟨s, hs, hrun⟩ := Option.bind_eq_some_iff.1 hrun
    have hin := isInside_of_isString hstring rfl rfl (by decide) hs
    obtain ⟨r, hinner, -⟩ := read?_eq_some_iff.1 hobject
    have hopen : step start '\x7b' = some ⟨[.members []], .firstKey⟩ := rfl
    rw [run_of_step hopen] at hinner
    have hopposed : Opposed s ⟨[.members []], .firstKey⟩ := .inl ⟨hin, rfl⟩
    refine isOver_of_read? hobject (List.forall_mem_cons.2 ⟨⟨rfl, by decide⟩, fun c hc => ?_⟩)
    have hshared := hopposed.run hrun hinner c hc
    exact ⟨hshared, ne_backslash_of_isShared hshared⟩
  · -- without a brace before it only arrays are open, and they close around it
    left
    have harrays : s₁.InArrays := by
      refine run_keeps (P := State.InArrays) (fun hs hc => hs.step hc) ?_
        (fun c hc => ne_of_mem_of_not_mem hc hbefore) hfirst
      exact ⟨nofun, nofun, not_or.2 ⟨nofun, nofun⟩, nofun⟩
    rw [run_object houtside hobject hrun] at hrest
    have hencloses : State.Encloses (.object ms) ⟨s₁.stack, .done (.object ms)⟩ :=
      ⟨⟨harrays.frames, nofun, not_or.2 ⟨nofun, nofun⟩, nofun⟩, .inr ⟨_, rfl, .self⟩⟩
    have hend := run_keeps (P := State.Encloses (.object ms)) (fun hs hc => hs.step hc) hencloses
      (fun c hc => ne_of_mem_of_not_mem hc hafter) hrest
    obtain ⟨stack, f⟩ := s₃
    obtain ⟨rfl, hhas⟩ := hasRead_of_finish hfinish
    rcases hend.held with ⟨vs, hvs, -⟩ | ⟨w, rfl, hw⟩
    · cases hvs
    · cases hhas
      exact hw

end Emend.Json
