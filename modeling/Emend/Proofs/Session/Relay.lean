import Emend.Proofs.Session.Stream
import Emend.Session.Relay

namespace Emend

namespace Relay

variable {α : Type} [Numeral α] {throws : Nat → Option Text} {r r' : Relay α}

/-- The texts of all messages in the order of sending: those delivered, those that wait and those
ahead. -/
def texts (r : Relay α) : List Text :=
  r.delivered ++ (r.queue ++ Effect.messages r.ahead).map StreamMessage.jsonText

theorem texts_step (m : Mover) : (r.step throws m).texts = r.texts := by
  obtain ⟨ahead, queue, delivered, events⟩ := r
  cases m with
  | session =>
      rcases ahead with _ | ⟨_ | _, es⟩
      · rfl
      · simp [step, texts]
      · rfl
  | listener =>
      cases queue with
      | nil => rfl
      | cons q queue => simp [step, texts]

theorem ahead_step_session : (r.step throws .session).ahead = r.ahead.tail := by
  obtain ⟨ahead, queue, delivered, events⟩ := r
  rcases ahead with _ | ⟨_ | _, es⟩ <;> rfl

theorem ahead_step_listener : (r.step throws .listener).ahead = r.ahead := by
  obtain ⟨ahead, queue, delivered, events⟩ := r
  cases queue <;> rfl

theorem queue_step_listener : (r.step throws .listener).queue = r.queue.tail := by
  obtain ⟨ahead, queue, delivered, events⟩ := r
  cases queue <;> rfl

theorem step_session_of_ended (h : r.ahead = []) : r.step throws .session = r := by
  rw [step, h]

theorem step_listener_of_empty (h : r.queue = []) : r.step throws .listener = r := by
  rw [step, h]

def silent (r : Relay α) : Relay α := { r with events := [] }

theorem silent_step (h : r.silent = r'.silent) (throws throws' : Nat → Option Text) (m : Mover) :
    (r.step throws m).silent = (r'.step throws' m).silent := by
  obtain ⟨ahead, queue, delivered, events⟩ := r
  obtain ⟨ahead', queue', delivered', events'⟩ := r'
  cases h
  cases m with
  | session => rcases ahead with _ | ⟨_ | _, es⟩ <;> rfl
  | listener => cases queue <;> rfl

theorem texts_run (movers : List Mover) : (r.run throws movers).texts = r.texts := by
  induction movers generalizing r with
  | nil => rfl
  | cons m movers ih => exact ih.trans (texts_step m)

theorem ahead_run (movers : List Mover) :
    (r.run throws movers).ahead = r.ahead.drop (movers.count .session) := by
  induction movers generalizing r with
  | nil => rfl
  | cons m movers ih =>
      refine (ih (r := r.step throws m)).trans ?_
      cases m with
      | session => rw [ahead_step_session, List.drop_tail, List.count_cons_self]
      | listener => rw [ahead_step_listener, List.count_cons_of_ne (by decide)]

theorem length_queue_le : r.queue.length ≤ r.texts.length := by
  simp only [texts, List.length_append, List.length_map]
  omega

theorem delivered_eq_texts (hahead : r.ahead = []) (hqueue : r.queue = []) :
    r.delivered = r.texts := by
  rw [texts, hahead, hqueue]
  simp

end Relay

namespace Streaming

variable {α : Type} {outcome : Option (Except Text (List (InstructionResult α)))}
  {c c' : Streaming α}

/-- What the session has returned is what it comes to, and the loop has ended only after it. -/
structure Sound (outcome : Option (Except Text (List (InstructionResult α)))) (c : Streaming α) :
    Prop where
  returned : c.returned.isSome = true → c.returned = outcome ∧ c.relay.ahead = []
  drained : c.drained = true → c.returned.isSome = true ∧ c.relay.queue = []

theorem sound_start (session : SessionRun α) : Sound session.outcome (start session) :=
  ⟨nofun, nofun⟩

variable [Numeral α] {throws : Nat → Option Text}

theorem relay_run (movers : List Relay.Mover) :
    (c.run throws outcome movers).relay = c.relay.run throws movers := by
  induction movers generalizing c with
  | nil => rfl
  | cons m movers ih =>
      refine (ih (c := c.step throws outcome m)).trans ?_
      cases m <;> rfl

def silent (c : Streaming α) : Streaming α := { c with relay := c.relay.silent }

theorem silent_step (h : c.silent = c'.silent) (throws throws' : Nat → Option Text)
    (m : Relay.Mover) : (c.step throws outcome m).silent = (c'.step throws' outcome m).silent := by
  obtain ⟨r, returned, drained⟩ := c
  obtain ⟨r', returned', drained'⟩ := c'
  obtain ⟨hrelay, rfl, rfl⟩ := Streaming.mk.inj h
  have hahead : r.ahead = r'.ahead := (congrArg Relay.ahead hrelay :)
  have hqueue : r.queue = r'.queue := (congrArg Relay.queue hrelay :)
  have hstep := Relay.silent_step hrelay throws throws' m
  cases m with
  | session => simp only [step, silent, hstep, hahead]
  | listener => simp only [step, silent, hstep, hqueue]

/-- What the calls of the listener throw makes no difference but to the reports. -/
theorem silent_run (h : c.silent = c'.silent) (throws throws' : Nat → Option Text)
    (movers : List Relay.Mover) :
    (c.run throws outcome movers).silent = (c'.run throws' outcome movers).silent := by
  induction movers generalizing c c' with
  | nil => exact h
  | cons m movers ih => exact ih (silent_step h throws throws' m)

theorem Sound.step (h : Sound outcome c) (m : Relay.Mover) :
    Sound outcome (c.step throws outcome m) := by
  obtain ⟨r, returned, drained⟩ := c
  cases m with
  | session =>
      by_cases hahead : r.ahead = []
      · simp only [Streaming.step, hahead, List.isEmpty_nil, if_true,
          Relay.step_session_of_ended hahead]
        refine ⟨fun _ => ⟨rfl, hahead⟩, fun hdrained => ?_⟩
        obtain ⟨hreturned, hqueue⟩ := h.drained hdrained
        exact ⟨(h.returned hreturned).1 ▸ hreturned, hqueue⟩
      · have hpending : ¬returned.isSome = true := fun hreturned =>
          hahead (h.returned hreturned).2
        have hopen : ¬drained = true := fun hdrained => hpending (h.drained hdrained).1
        simp only [Streaming.step, List.isEmpty_iff, hahead, if_false]
        exact ⟨fun hreturned => absurd hreturned hpending, fun hdrained => absurd hdrained hopen⟩
  | listener =>
      by_cases hqueue : r.queue = []
      · simp only [Streaming.step, hqueue, List.isEmpty_nil, if_true,
          Relay.step_listener_of_empty hqueue]
        exact ⟨h.returned, fun hreturned => ⟨hreturned, hqueue⟩⟩
      · have hopen : ¬drained = true := fun hdrained => hqueue (h.drained hdrained).2
        simp only [Streaming.step, List.isEmpty_iff, hqueue, if_false]
        refine ⟨fun hreturned => ?_, fun hdrained => absurd hdrained hopen⟩
        obtain ⟨houtcome, hahead⟩ := h.returned hreturned
        exact ⟨houtcome, Relay.ahead_step_listener.trans hahead⟩

theorem Sound.run (h : Sound outcome c) (movers : List Relay.Mover) :
    Sound outcome (c.run throws outcome movers) := by
  induction movers generalizing c with
  | nil => exact h
  | cons m movers ih => exact ih (h.step m)

theorem run_append (movers movers' : List Relay.Mover) :
    c.run throws outcome (movers ++ movers') =
      (c.run throws outcome movers).run throws outcome movers' :=
  List.foldl_append ..

theorem returned_run_of_returned (h : c.returned = outcome) (movers : List Relay.Mover) :
    (c.run throws outcome movers).returned = outcome := by
  induction movers generalizing c with
  | nil => exact h
  | cons m movers ih =>
      apply ih
      cases m with
      | session => simp [step, h]
      | listener => exact h

theorem returned_run {movers : List Relay.Mover}
    (h : c.relay.ahead.length < movers.count .session) :
    (c.run throws outcome movers).returned = outcome := by
  induction movers generalizing c with
  | nil => simp at h
  | cons m movers ih =>
      cases m with
      | session =>
          by_cases hahead : c.relay.ahead = []
          · exact returned_run_of_returned (by simp [step, hahead]) movers
          · refine ih (c := c.step throws outcome .session) ?_
            have hlength := List.length_pos_iff.2 hahead
            rw [List.count_cons_self] at h
            simp only [step, Relay.ahead_step_session, List.length_tail]
            omega
      | listener =>
          refine ih (c := c.step throws outcome .listener) ?_
          rw [List.count_cons_of_ne (by decide)] at h
          simpa only [step, Relay.ahead_step_listener] using h

theorem run_of_drained (h : Sound outcome c) (hdrained : c.drained = true)
    (movers : List Relay.Mover) : c.run throws outcome movers = c := by
  obtain ⟨hreturned, hqueue⟩ := h.drained hdrained
  obtain ⟨houtcome, hahead⟩ := h.returned hreturned
  have hstep (m : Relay.Mover) : c.step throws outcome m = c := by
    obtain ⟨r, returned, drained⟩ := c
    cases m with
    | session => simp_all [step, Relay.step_session_of_ended]
    | listener => simp_all [step, Relay.step_listener_of_empty]
  induction movers with
  | nil => rfl
  | cons m movers ih => rw [run, List.foldl_cons, hstep, ← run, ih]

/-- When the session has returned, a turn for each message that waits and one more end the loop. -/
theorem drained_run (h : Sound outcome c) (hreturned : c.returned.isSome = true)
    {movers : List Relay.Mover} (hlength : c.relay.queue.length < movers.count .listener) :
    (c.run throws outcome movers).drained = true := by
  induction movers generalizing c with
  | nil => simp at hlength
  | cons m movers ih =>
      obtain ⟨houtcome, hahead⟩ := h.returned hreturned
      cases m with
      | session =>
          refine ih (c := c.step throws outcome .session) (h.step _) ?_ ?_
          · simpa [step, hahead, ← houtcome] using hreturned
          · rw [List.count_cons_of_ne (by decide)] at hlength
            simpa only [step, Relay.step_session_of_ended hahead] using hlength
      | listener =>
          by_cases hqueue : c.relay.queue = []
          · have hdrained : (c.step throws outcome .listener).drained = true := by
              simpa [step, hqueue] using hreturned
            rw [run, List.foldl_cons, ← run, run_of_drained (h.step _) hdrained]
            exact hdrained
          · refine ih (c := c.step throws outcome .listener) (h.step _) hreturned ?_
            have hlong := List.length_pos_iff.2 hqueue
            rw [List.count_cons_self] at hlength
            simp only [step, Relay.queue_step_listener, List.length_tail]
            omega

theorem drained_run_append {first later : List Relay.Mover} (h : Sound outcome c)
    (houtcome : outcome.isSome = true) (hfirst : c.relay.ahead.length < first.count .session)
    (hlater : c.relay.texts.length < later.count .listener) :
    (c.run throws outcome (first ++ later)).drained = true := by
  rw [run_append]
  apply drained_run (h.run first)
  · rwa [returned_run hfirst]
  · refine Nat.lt_of_le_of_lt Relay.length_queue_le ?_
    rwa [relay_run, Relay.texts_run]

theorem answerOf_eq : answerOf (α := α) =
    fun o => (o.map InstructionResult.listText).mapError StreamError.session := by
  funext o
  cases o <;> rfl

section

variable (session : SessionRun α) (movers : List Relay.Mover)

theorem texts_run_start :
    (run throws outcome (start session) movers).relay.texts =
      session.messages.map StreamMessage.jsonText := by
  rw [relay_run, Relay.texts_run]
  rfl

theorem callbacks_run_start :
    (run throws outcome (start session) movers).callbacks <+:
      session.messages.map StreamMessage.jsonText := by
  rw [← texts_run_start session movers]
  exact List.prefix_append _ _

/-- An answer comes after the last message, and it is what the session comes to. -/
theorem callbacks_of_answer {answer : Except StreamError Text}
    (h : (run throws session.outcome (start session) movers).answer? = some answer) :
    (run throws session.outcome (start session) movers).callbacks =
        session.messages.map StreamMessage.jsonText ∧
      session.outcome.map answerOf = some answer := by
  have hsound : Sound session.outcome (run throws session.outcome (start session) movers) :=
    (sound_start session).run movers
  rw [answer?] at h
  split at h
  · rename_i hdrained
    obtain ⟨hreturned, hqueue⟩ := hsound.drained hdrained
    obtain ⟨houtcome, hahead⟩ := hsound.returned hreturned
    rw [callbacks, Relay.delivered_eq_texts hahead hqueue, texts_run_start, ← houtcome]
    exact ⟨rfl, h⟩
  · cases h

theorem isSome_answer?_run (houtcome : session.outcome.isSome = true)
    {first later : List Relay.Mover} (hfirst : session.effects.length < first.count .session)
    (hlater : session.messages.length < later.count .listener) :
    (run throws session.outcome (start session) (movers ++ (first ++ later))).answer?.isSome =
      true := by
  have hsound : Sound session.outcome (run throws session.outcome (start session) movers) :=
    (sound_start session).run movers
  have hahead : (run throws session.outcome (start session) movers).relay.ahead.length <
      first.count .session := by
    rw [relay_run, Relay.ahead_run, List.length_drop]
    exact Nat.lt_of_le_of_lt (Nat.sub_le _ _) hfirst
  have htexts : (run throws session.outcome (start session) movers).relay.texts.length <
      later.count .listener := by
    rwa [texts_run_start, List.length_map]
  have hdrained : ((run throws session.outcome (start session) movers).run throws session.outcome
      (first ++ later)).drained = true :=
    drained_run_append hsound houtcome hahead htexts
  rw [run_append, answer?, if_pos hdrained, Option.isSome_map]
  exact ((hsound.run _).drained hdrained).1

theorem isSome_answer?_afterwards (throws : Nat → Option Text)
    (houtcome : session.outcome.isSome = true) :
    (run throws session.outcome (start session) (afterwards session)).answer?.isSome = true := by
  have hfirst : session.effects.length <
      (List.replicate (session.effects.length + 1) Relay.Mover.session).count .session := by simp
  have hlater : session.messages.length <
      (List.replicate (session.messages.length + 1) Relay.Mover.listener).count .listener := by simp
  exact isSome_answer?_run session [] houtcome hfirst hlater

theorem callbacks_run_congr (throws throws' : Nat → Option Text) :
    (run throws' outcome (start session) movers).callbacks =
        (run throws outcome (start session) movers).callbacks ∧
      (run throws' outcome (start session) movers).answer? =
        (run throws outcome (start session) movers).answer? := by
  have hsilent : (run throws' outcome (start session) movers).silent =
      (run throws outcome (start session) movers).silent := silent_run rfl throws' throws movers
  constructor
  · exact (congrArg callbacks hsilent :)
  · exact (congrArg answer? hsilent :)

end

end Streaming

end Emend
