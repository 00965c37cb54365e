import Emend.Proofs.Session.Protocol

namespace Emend

namespace Session

open Schedule

variable {α : Type} [Score α] (s : Session α) (files : FileSet) {plan : Plan}
  {turns turns' : List Turn} {i : Nat}

theorem getElem?_results?_congr {results results' : List (InstructionResult α)}
    (h : s.results? files plan turns = some results)
    (h' : s.results? files plan turns' = some results')
    (hconduct : conductOf i turns = conductOf i turns') : results[i]? = results'[i]? := by
  apply Option.map_injective fun _ _ => Option.some.inj
  rw [s.results?_getElem? files h, s.results?_getElem? files h',
    outcome?_eq_of_conductOf i hconduct]

theorem reconciliation_of_results? {results : List (InstructionResult α)}
    (h : s.results? files plan turns = some results) (hi : i < plan.instructions.length)
    {response : Text} (hresponse : outcome? i turns = some (.ok response)) :
    ∃ r, results[i]? = some r ∧ r.error = none ∧
      r.reconciliation = reconcile s.policy files response :=
  ⟨_, s.getElem?_of_results? files h (List.getElem?_eq_getElem hi) hresponse, rfl, rfl⟩

variable [Numeral α]

/-- What a listener hears about an instruction, if it stays, and what it hears before it hangs up. -/
theorem about_messages_run {reply : PlanReply} (hplan : reply.plan = .ok plan)
    (request : EditRequest) (listener : Listener) (turns : List Turn) (i : Nat) :
    StreamMessage.about i (s.run listener request reply turns).messages <+:
        StreamMessage.about i (s.emitted (.ofSnippets request.snippets) turns) ∧
      (listener = .stays →
        StreamMessage.about i (s.run listener request reply turns).messages =
          StreamMessage.about i (s.emitted (.ofSnippets request.snippets) turns)) := by
  rw [(s.run_of_plan hplan request listener turns).1,
    ← StreamMessage.about_plan_cons i plan (s.emitted _ turns)]
  constructor
  · exact List.IsPrefix.filter _ (listener.hears_isPrefix _)
  · rintro rfl
    rfl

/-- Let two sessions come to the same plan. An instruction whose call does the same in both has the
same result in both, and the same messages if nobody hangs up; a listener that does hears the start
of them. If every call does the same, so do the sessions. A result is that of the response alone. -/
theorem run_independent {reply₁ reply₂ : PlanReply} (hplan₁ : reply₁.plan = .ok plan)
    (hplan₂ : reply₂.plan = .ok plan) (request : EditRequest) (listener₁ listener₂ : Listener)
    (turns₁ turns₂ : List Turn) :
    let run₁ := s.run listener₁ request reply₁ turns₁
    let run₂ := s.run listener₂ request reply₂ turns₂
    (∀ i, conductOf i turns₁ = conductOf i turns₂ →
      (Ended plan turns₁ → Ended plan turns₂ →
        ∃ results₁ results₂, run₁.outcome = some (.ok results₁) ∧
          run₂.outcome = some (.ok results₂) ∧ results₁[i]? = results₂[i]?) ∧
      (listener₁ = .stays →
        StreamMessage.about i run₂.messages <+: StreamMessage.about i run₁.messages ∧
        (listener₂ = .stays →
          StreamMessage.about i run₂.messages = StreamMessage.about i run₁.messages))) ∧
    ((∀ i < plan.instructions.length, conductOf i turns₁ = conductOf i turns₂) →
      run₁.outcome = run₂.outcome) ∧
    (Ended plan turns₁ → ∃ results, run₁.outcome = some (.ok results) ∧
      results.length = plan.instructions.length ∧
      ∀ i < plan.instructions.length, ∀ response, outcome? i turns₁ = some (.ok response) →
        ∃ r, results[i]? = some r ∧ r.error = none ∧
          r.reconciliation = reconcile s.policy (.ofSnippets request.snippets) response) := by
  intro run₁ run₂
  refine ⟨fun i hconduct => ⟨?_, ?_⟩, ?_, ?_⟩
  · intro hended₁ hended₂
    obtain ⟨results₁, hresults₁⟩ := s.exists_results? (.ofSnippets request.snippets) hended₁
    obtain ⟨results₂, hresults₂⟩ := s.exists_results? (.ofSnippets request.snippets) hended₂
    exact ⟨results₁, results₂, s.outcome_run hplan₁ hresults₁ listener₁,
      s.outcome_run hplan₂ hresults₂ listener₂,
      s.getElem?_results?_congr _ hresults₁ hresults₂ hconduct⟩
  · intro hstays₁
    obtain ⟨-, hall₁⟩ := s.about_messages_run hplan₁ request listener₁ turns₁ i
    obtain ⟨hstart₂, hall₂⟩ := s.about_messages_run hplan₂ request listener₂ turns₂ i
    rw [hall₁ hstays₁, s.about_emitted_of_conductOf _ hconduct]
    exact ⟨hstart₂, hall₂⟩
  · intro hconduct
    have houtcome₁ : run₁.outcome = _ := (s.run_of_plan hplan₁ request listener₁ turns₁).2
    have houtcome₂ : run₂.outcome = _ := (s.run_of_plan hplan₂ request listener₂ turns₂).2
    rw [houtcome₁, houtcome₂]
    apply congrArg
    exact s.results?_congr _ fun i hi => outcome?_eq_of_conductOf i (hconduct i hi)
  · intro hended
    obtain ⟨results, hresults⟩ := s.exists_results? (.ofSnippets request.snippets) hended
    refine ⟨results, s.outcome_run hplan₁ hresults listener₁, s.length_results? _ hresults, ?_⟩
    intro i hi response hresponse
    exact s.reconciliation_of_results? _ hresults hi hresponse

def twoOtherwise : List Turn :=
  [⟨1, .chunk "x".toList⟩, ⟨0, .chunk "No ".toList⟩, ⟨0, .chunk "changes.".toList⟩,
    ⟨0, .finish (.ok "No changes.".toList)⟩, ⟨1, .finish (.ok "x".toList)⟩]

theorem ended_of_two {message : Text} {instructions : List Text} (h : instructions.length = 2)
    {turns : List Turn} {o o' : Except Text Text} (hzero : outcome? 0 turns = some o)
    (hone : outcome? 1 turns = some o') : Ended ⟨message, instructions⟩ turns := by
  rintro (_ | _ | i) hi
  · exact ⟨o, hzero⟩
  · exact ⟨o', hone⟩
  · dsimp only at hi
    omega

/-- The listener of the second session hangs up after the first call's second chunk. -/
theorem run_independent_twoOtherwise :
    let session : Session Float := { policy := .standard }
    let run := session.run .stays {} twoPlanned twoAtOnce
    let run' := session.run (.hangsUpAfter 4) {} twoPlanned twoOtherwise
    (∃ results results', run.outcome = some (.ok results) ∧ run'.outcome = some (.ok results') ∧
      results[0]? = results'[0]?) ∧
    StreamMessage.about 0 run'.messages <+: StreamMessage.about 0 run.messages := by
  intro session run run'
  obtain ⟨hresults, hmessages⟩ := (run_independent session plan_twoPlanned plan_twoPlanned {}
    .stays (.hangsUpAfter 4) twoAtOnce twoOtherwise).1 0 rfl
  exact ⟨hresults (ended_of_two rfl rfl rfl) (ended_of_two rfl rfl rfl), (hmessages rfl).1⟩

end Session

end Emend
