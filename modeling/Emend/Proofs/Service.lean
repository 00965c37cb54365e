import Emend.Proofs.Session.Protocol
import Emend.Proofs.Session.Relay
import Emend.Proofs.Wire.RoundTrip
import Emend.Service

namespace Emend

theorem Session.exists_outcome {α : Type} [Score α] [Numeral α] (s : Session α)
    {request : EditRequest} {planning : PlanReply} {plan : Plan} {replies : Nat → Reply}
    {turns : List Turn} (hplan : planning.plan = .ok plan) (hreplies : ∀ i, (replies i).EndsOnce)
    (hturns : Schedule.Delivers (planning.replies replies) turns) (listener : Listener) :
    ∃ results, (s.run listener request planning turns).outcome = some (.ok results) := by
  obtain ⟨results, hresults⟩ := s.exists_results? (.ofSnippets request.snippets) fun i hi =>
    ⟨_, outcome?_of_delivers hreplies hplan hturns hi⟩
  exact ⟨results, s.outcome_run hplan hresults listener⟩

theorem Exchange.endsOnce_toReply (e : Exchange) : e.toReply.EndsOnce := by
  intro sig hsig
  rcases List.mem_append.1 hsig with hsig | hsig
  · obtain ⟨text, -, rfl⟩ := List.mem_map.1 hsig
    rfl
  · obtain ⟨n, -, rfl⟩ := List.mem_map.1 hsig
    rfl

namespace Service

open Schedule

variable {α : Type} (config : ModelConfig) (s : Session α) (request : EditRequest)
  (answers : Nat → HttpAnswer)

theorem length_exchanges {plan : Plan}
    (hplan : (exchanges config s request answers).1.toPlanReply.plan = .ok plan) :
    (exchanges config s request answers).2.length = plan.instructions.length := by
  revert hplan
  rw [exchanges]
  dsimp only
  split
  · rename_i hnone
    rw [hnone]
    nofun
  · rename_i hsome
    rw [hsome]
    rintro ⟨⟩
    simp

theorem exchanges_of_error {cause : Text}
    (hplan : (exchanges config s request answers).1.toPlanReply.plan = .error cause) :
    (exchanges config s request answers).2 = [] := by
  revert hplan
  rw [exchanges]
  dsimp only
  split
  · exact fun _ => rfl
  · rename_i hsome
    rw [hsome]
    nofun

theorem exists_replies_exchanges :
    ∃ replies : Nat → Reply, (∀ i, (replies i).EndsOnce) ∧
      (exchanges config s request answers).1.toPlanReply.replies replies =
        (exchanges config s request answers).2.map Exchange.toReply := by
  refine ⟨fun i => ((exchanges config s request answers).2[i]?.map Exchange.toReply).getD {},
    fun i => ?_, ?_⟩
  · dsimp only
    cases (exchanges config s request answers).2[i]? with
    | none => exact List.forall_mem_nil _
    | some e => exact e.endsOnce_toReply
  · rw [PlanReply.replies]
    split
    · rename_i plan hplan
      rw [← length_exchanges config s request answers hplan]
      refine List.ext_getElem (by simp) fun i _ hi => ?_
      rw [List.length_map] at hi
      simp [hi]
    · rename_i cause hplan
      rw [exchanges_of_error config s request answers hplan, List.map_nil]

variable [Score α] [Numeral α]

theorem outcome_of_inTurn (listener : Listener) :
    ∃ o, (s.run listener request (exchanges config s request answers).1.toPlanReply
      (inTurn ((exchanges config s request answers).2.map Exchange.toReply))).outcome = some o := by
  obtain ⟨replies, hends, hreplies⟩ := exists_replies_exchanges config s request answers
  rw [← hreplies]
  cases hplan : (exchanges config s request answers).1.toPlanReply.plan with
  | error cause => exact ⟨_, (s.run_of_error hplan request listener _).2.1⟩
  | ok plan =>
      obtain ⟨results, h⟩ := s.exists_outcome hplan hends (delivers_inTurn _) listener
      exact ⟨_, h⟩

theorem streamEdits_eq {requestJson : Text}
    (hread : (Json.read? requestJson).bind EditRequest.ofJson? = some request)
    (reporterSet : Bool) (apiKey : Text) (throws : Nat → Option Text) :
    let s : Session α := { policy := .standard }
    let called := exchanges { apiKey := apiKey } s request answers
    let session := s.run .stays request called.1.toPlanReply
      (inTurn (called.2.map Exchange.toReply))
    let streamed := streamEdits (α := α) reporterSet requestJson apiKey answers throws
    streamed.messages = session.messages.map StreamMessage.jsonText ∧
      session.outcome.map Streaming.answerOf = some streamed.outcome := by
  intro s called session streamed
  obtain ⟨o, houtcome⟩ := outcome_of_inTurn { apiKey := apiKey } s request answers .stays
  have hreturns : session.outcome.isSome = true := Option.isSome_of_eq_some houtcome
  obtain ⟨answer, hanswer⟩ := Option.isSome_iff_exists.1
    (Streaming.isSome_answer?_afterwards session throws hreturns)
  obtain ⟨hcallbacks, hcomes⟩ := Streaming.callbacks_of_answer session _ hanswer
  have hstreamed : streamed.outcome = answer := by
    simp only [streamed, streamEdits, hread]
    exact congrArg (Option.getD · _) hanswer
  refine ⟨?_, hstreamed ▸ hcomes⟩
  simp only [streamed, streamEdits, hread]
  exact hcallbacks

/-- At every moment of a streaming call the listener has been called with the start of what the
session says, in order and each message once. The call answers only after the last message, with
what the session comes to, and it does answer once both sides have had their turns. What the calls
of the listener throw changes neither. A session without a plan says that one error, and a session
whose calls end has results. The texts are JSON texts of the messages and of the results, and the
service's texts and answer are those of its own order of turns. -/
theorem streaming_forwards (s : Session Float) (request : EditRequest) (planning : PlanReply)
    (turns : List Turn) (throws : Nat → Option Text) (movers : List Relay.Mover) :
    let session := s.run .stays request planning turns
    let call := Streaming.run throws session.outcome (.start session) movers
    let texts := session.messages.map StreamMessage.jsonText
    let comesTo := session.outcome.map fun o =>
      (o.map InstructionResult.listText).mapError StreamError.session
    call.callbacks <+: texts ∧
    (∀ answer, call.answer? = some answer → call.callbacks = texts ∧ comesTo = some answer) ∧
    (∀ throws', let other := Streaming.run throws' session.outcome (.start session) movers
      other.callbacks = call.callbacks ∧ other.answer? = call.answer?) ∧
    (session.outcome.isSome = true → ∀ first later : List Relay.Mover,
      session.effects.length < first.count .session →
      session.messages.length < later.count .listener →
      (Streaming.run throws session.outcome (.start session)
        (movers ++ (first ++ later))).answer?.isSome = true) ∧
    (∀ cause, planning.plan = .error cause →
      session.messages = [.error none cause none] ∧ session.outcome = some (.error cause)) ∧
    (∀ plan replies, planning.plan = .ok plan → (∀ i, (replies i).EndsOnce) →
      Delivers (planning.replies replies) turns →
      ∃ results, session.outcome = some (.ok results)) ∧
    (∀ m ∈ session.messages, Json.read? m.jsonText = some m.toJson ∧
      ((∀ i ∈ m.indexes, i < word) → (∀ x ∈ m.scores, x.isFinite = true) →
        StreamMessage.ofJson? m.toJson = some (m.map (reread ℚ)))) ∧
    (∀ results, session.outcome = some (.ok results) →
      let written := Json.Value.array (results.map InstructionResult.toJson)
      Json.read? (InstructionResult.listText results) = some written ∧
      ((∀ r ∈ results, r.index < word ∧ ∀ x ∈ r.scores, x.isFinite = true) →
        written.list? InstructionResult.ofJson? = some (results.map (·.map (reread ℚ))))) ∧
    ∀ reporterSet requestJson apiKey answers,
      (Json.read? requestJson).bind EditRequest.ofJson? = some request →
      s = { policy := .standard } →
      let called := exchanges { apiKey := apiKey } s request answers
      planning = called.1.toPlanReply → turns = inTurn (called.2.map Exchange.toReply) →
      let streamed := streamEdits (α := Float) reporterSet requestJson apiKey answers throws
      streamed.messages = texts ∧ comesTo = some streamed.outcome := by
  intro session call texts comesTo
  have hcomesTo : session.outcome.map Streaming.answerOf = comesTo :=
    congrFun (congrArg Option.map Streaming.answerOf_eq) session.outcome
  refine ⟨Streaming.callbacks_run_start session movers, ?_,
    fun throws' => Streaming.callbacks_run_congr session movers throws throws',
    fun houtcome first later => Streaming.isSome_answer?_run session movers houtcome, ?_, ?_, ?_,
    ?_, ?_⟩
  · rw [← hcomesTo]
    exact fun answer => Streaming.callbacks_of_answer session movers
  · intro cause hplan
    obtain ⟨hmessages, houtcome, -⟩ := s.run_of_error hplan request .stays turns
    exact ⟨hmessages, houtcome⟩
  · intro plan replies hplan hreplies hturns
    exact s.exists_outcome hplan hreplies hturns .stays
  · intro m _
    refine ⟨m.read?_jsonText, fun hindexes hscores => ?_⟩
    exact readsNumbers_rat.ofJson?_message hindexes hscores m.hasForm_toJson
  · intro results _
    exact ⟨InstructionResult.read?_listText results, InstructionResult.list?_ofJson?⟩
  · rintro reporterSet requestJson apiKey answers hread rfl called rfl rfl
    rw [← hcomesTo]
    exact streamEdits_eq request answers hread reporterSet apiKey throws

/-- Every call of the listener throws, and still it has been called with all there is to say when
the answer comes. -/
theorem streaming_forwards_twoAtOnce :
    let s : Session Float := { policy := .standard }
    let session := s.run .stays {} Session.twoPlanned Session.twoAtOnce
    ∃ movers results, session.outcome = some (.ok results) ∧
      let call := Streaming.run (fun _ => some "boom".toList) session.outcome (.start session) movers
      call.callbacks = session.messages.map StreamMessage.jsonText ∧
        call.answer? = some (.ok (InstructionResult.listText results)) := by
  intro s session
  let first : List Relay.Mover := List.replicate (session.effects.length + 1) .session
  let later : List Relay.Mover := List.replicate (session.messages.length + 1) .listener
  obtain ⟨-, -, -, hanswers, -, hends, -⟩ := streaming_forwards s {} Session.twoPlanned
    Session.twoAtOnce (fun _ => some "boom".toList) []
  obtain ⟨results, houtcome⟩ := hends _ _ Session.plan_twoPlanned Session.endsOnce_twoReplies
    Session.delivers_twoAtOnce
  have hanswered := hanswers (by rw [houtcome]; rfl) first later (by simp [first, session])
    (by simp [later, session])
  obtain ⟨answer, hanswer⟩ := Option.isSome_iff_exists.1 hanswered
  obtain ⟨-, hanswer_eq, -⟩ := streaming_forwards s {} Session.twoPlanned Session.twoAtOnce
    (fun _ => some "boom".toList) (first ++ later)
  obtain ⟨hcallbacks, hcomes⟩ := hanswer_eq answer hanswer
  rw [houtcome] at hcomes
  exact ⟨first ++ later, results, houtcome, hcallbacks, hanswer.trans hcomes.symm⟩

end Service

end Emend
