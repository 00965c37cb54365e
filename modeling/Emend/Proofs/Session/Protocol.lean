import Emend.Proofs.Session.Run

namespace Emend

def Reply.failure? (r : Reply) : Option Text :=
  match r.outcome with
  | .ok _ => none
  | .error cause => some cause

/-- What the messages of a session are to its plan, to the replies of its calls and to its results. -/
structure Protocol {α : Type} [Numeral α] (plan : Plan) (replies : Nat → Reply)
    (messages : List (StreamMessage α)) (results : List (InstructionResult α)) : Prop where
  /-- The plan comes first and once, and all else is about an instruction of the plan. -/
  plan_first : ∃ rest, messages = .plan plan :: rest ∧ (∀ p, .plan p ∉ rest) ∧
    ∀ m ∈ rest, ∃ i < plan.instructions.length, m.index? = some i
  length_results : results.length = plan.instructions.length
  instruction : ∀ i instruction, plan.instructions[i]? = some instruction →
    ∃ r, results[i]? = some r ∧ r.index = i ∧ r.instruction = instruction ∧
      r.error = (replies i).failure? ∧
      StreamMessage.about i messages = (replies i).chunks.map (.progress i) ++ r.ending

namespace Session

open Schedule

variable {α : Type} [Score α] (s : Session α) (files : FileSet)

theorem error_resultOf (r : Reply) (i : Nat) (instruction : Text) :
    (s.resultOf files i instruction r.outcome).error = r.failure? := by
  rw [Reply.failure?]
  cases r.outcome <;> rfl

theorem index_resultOf (i : Nat) (instruction : Text) (o : Except Text Text) :
    (s.resultOf files i instruction o).index = i := by
  cases o <;> rfl

theorem instruction_resultOf (i : Nat) (instruction : Text) (o : Except Text Text) :
    (s.resultOf files i instruction o).instruction = instruction := by
  cases o <;> rfl

variable [Numeral α]

section

variable {reply : PlanReply} {replies : Nat → Reply} {turns : List Turn} {plan : Plan}

theorem outcome?_of_delivers (hreplies : ∀ i, (replies i).EndsOnce)
    (hplan : reply.plan = .ok plan) (hturns : Delivers (reply.replies replies) turns) {i : Nat}
    (hi : i < plan.instructions.length) : outcome? i turns = some (replies i).outcome := by
  rw [outcome?_eq_findSome?, PlanReply.signalsOf_eq hplan hturns, if_pos hi]
  exact (hreplies i).findSome?_signals

theorem protocol_emitted (hreplies : ∀ i, (replies i).EndsOnce) (hplan : reply.plan = .ok plan)
    (hturns : Delivers (reply.replies replies) turns) :
    ∃ results, s.results? files plan turns = some results ∧
      Protocol plan replies (.plan plan :: s.emitted files turns) results := by
  have houtcome (i : Nat) (hi : i < plan.instructions.length) :=
    outcome?_of_delivers hreplies hplan hturns hi
  obtain ⟨results, hresults⟩ := s.exists_results? files fun i hi => ⟨_, houtcome i hi⟩
  have habout : ∀ m ∈ s.emitted files turns, ∃ i < plan.instructions.length, m.index? = some i := by
    intro m hm
    obtain ⟨i, hindex, hsignals⟩ := s.exists_signal_of_mem_emitted files hm
    rw [PlanReply.signalsOf_eq hplan hturns] at hsignals
    by_cases hi : i < plan.instructions.length
    · exact ⟨i, hi, hindex⟩
    · exact absurd (if_neg hi) hsignals
  refine ⟨results, hresults, ⟨_, rfl, ?_, habout⟩, s.length_results? files hresults, ?_⟩
  · intro p hp
    obtain ⟨i, -, hindex⟩ := habout _ hp
    cases hindex
  · intro i instruction hinstruction
    obtain ⟨hi, -⟩ := List.getElem?_eq_some_iff.1 hinstruction
    refine ⟨_, s.getElem?_of_results? files hresults hinstruction (houtcome i hi),
      s.index_resultOf .., s.instruction_resultOf .., s.error_resultOf .., ?_⟩
    rw [← s.flatMap_told_signals files (hreplies i) i instruction]
    have hrest := s.about_emitted files i turns
    rw [PlanReply.signalsOf_eq hplan hturns, if_pos hi] at hrest
    exact hrest

/-- Whatever the planner answers, and however the calls of the instructions come to deliver what
they reply: without a plan there is one message and no further call, and with a plan the messages
follow the protocol. A listener that hangs up misses the rest of them and changes nothing else. -/
theorem run_protocol (request : EditRequest) (hreplies : ∀ i, (replies i).EndsOnce)
    (hturns : Delivers (reply.replies replies) turns) (listener : Listener) :
    let run := s.run listener request reply turns
    ∃ emitted, run.messages = listener.hears emitted ∧
      (∀ cause, reply.plan = .error cause → emitted = [.error none cause none] ∧
        run.outcome = some (.error cause) ∧
        run.calls = [planCall (.ofSnippets request.snippets) request.request]) ∧
      (∀ plan, reply.plan = .ok plan → ∃ results, run.outcome = some (.ok results) ∧
        Protocol plan replies emitted results) := by
  dsimp only
  cases hplan : reply.plan with
  | error cause =>
      obtain ⟨hmessages, houtcome, hcalls⟩ := s.run_of_error hplan request listener turns
      refine ⟨[.error none cause none], hmessages, ?_, nofun⟩
      rintro _ ⟨⟩
      exact ⟨rfl, houtcome, hcalls⟩
  | ok plan =>
      obtain ⟨hmessages, -⟩ := s.run_of_plan hplan request listener turns
      obtain ⟨results, hresults, hprotocol⟩ :=
        s.protocol_emitted (.ofSnippets request.snippets) hreplies hplan hturns
      refine ⟨_, hmessages, nofun, ?_⟩
      rintro _ ⟨⟩
      exact ⟨results, s.outcome_run hplan hresults listener, hprotocol⟩

end

def twoPlanned : PlanReply where
  outcome := .ok
    "\x7b\"message\": \"On it\", \"editInstructions\": [\"wait\", \"explode\"]\x7d".toList

theorem plan_twoPlanned :
    twoPlanned.plan = .ok ⟨"On it".toList, ["wait".toList, "explode".toList]⟩ := rfl

def twoReplies : Nat → Reply
  | 0 => ⟨[.chunk "No ".toList, .chunk "changes.".toList], .ok "No changes.".toList⟩
  | _ => ⟨[.note (.refused "overloaded".toList)], .error "overloaded".toList⟩

def twoAtOnce : List Turn :=
  [⟨0, .chunk "No ".toList⟩, ⟨1, .note (.refused "overloaded".toList)⟩,
    ⟨1, .finish (.error "overloaded".toList)⟩, ⟨0, .chunk "changes.".toList⟩,
    ⟨0, .finish (.ok "No changes.".toList)⟩]

theorem endsOnce_twoReplies (i : Nat) : (twoReplies i).EndsOnce := by
  intro sig hsig
  cases i with
  | zero =>
      rcases List.mem_pair.1 hsig with rfl | rfl
      · rfl
      · rfl
  | succ i =>
      obtain rfl := List.mem_singleton.1 hsig
      rfl

theorem delivers_twoAtOnce : Delivers (twoPlanned.replies twoReplies) twoAtOnce := by
  rw [PlanReply.replies, plan_twoPlanned]
  rintro (_ | _ | i)
  · rfl
  · rfl
  · simp [signalsOf, twoAtOnce]

theorem run_protocol_twoAtOnce :
    let session : Session Float := { policy := .standard }
    let run := session.run .stays {} twoPlanned twoAtOnce
    ∃ results, run.outcome = some (.ok results) ∧
      Protocol ⟨"On it".toList, ["wait".toList, "explode".toList]⟩ twoReplies run.messages
        results := by
  intro session run
  obtain ⟨emitted, hmessages, -, hplan⟩ :=
    run_protocol session {} endsOnce_twoReplies delivers_twoAtOnce .stays
  obtain ⟨results, houtcome, hprotocol⟩ := hplan _ plan_twoPlanned
  have hall : run.messages = emitted := hmessages
  exact ⟨results, houtcome, hall ▸ hprotocol⟩

end Session

end Emend
