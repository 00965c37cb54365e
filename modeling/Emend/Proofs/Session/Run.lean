import Emend.Proofs.Session.Stream
import Mathlib.Data.List.Infix

namespace Emend

theorem mapM_eq_some_iff {β γ : Type} {f : β → Option γ} {l : List β} {l' : List γ} :
    l.mapM f = some l' ↔ l.map f = l'.map some := by
  induction l generalizing l' with
  | nil => cases l' <;> simp
  | cons a l ih =>
      rw [List.mapM_cons, List.map_cons]
      cases ha : f a with
      | none => cases l' <;> simp
      | some b =>
          cases l' with
          | nil => simp [Option.bind_eq_some_iff]
          | cons b' l' =>
              rw [List.map_cons, List.cons.injEq, ← ih, Option.some.injEq, and_comm]
              simp [Option.bind_eq_some_iff]

theorem SessionRun.messages_eq {α : Type} (r : SessionRun α) :
    r.messages = Effect.messages r.effects := rfl

namespace Session

open Schedule

variable {α : Type} [Score α] (s : Session α)

section

variable (files : FileSet) (plan : Plan) (turns : List Turn)

def Ended : Prop := ∀ i < plan.instructions.length, ∃ o, outcome? i turns = some o

variable {plan turns}

theorem results?_getElem? {results : List (InstructionResult α)}
    (h : s.results? files plan turns = some results) (i : Nat) :
    results[i]?.map some = plan.instructions[i]?.map fun instruction =>
      (outcome? i turns).map (s.resultOf files i instruction) := by
  have hmap := congrArg (·[i]?) (mapM_eq_some_iff.1 h)
  simpa [Function.comp_def] using hmap.symm

theorem length_results? {results : List (InstructionResult α)}
    (h : s.results? files plan turns = some results) :
    results.length = plan.instructions.length := by
  simpa using (congrArg List.length (mapM_eq_some_iff.1 h)).symm

theorem getElem?_of_results? {results : List (InstructionResult α)}
    (h : s.results? files plan turns = some results) {i : Nat} {instruction : Text}
    (hi : plan.instructions[i]? = some instruction) {o : Except Text Text}
    (ho : outcome? i turns = some o) :
    results[i]? = some (s.resultOf files i instruction o) := by
  have h := s.results?_getElem? files h i
  rw [hi, Option.map_some, ho, Option.map_some] at h
  exact Option.map_injective (fun _ _ => Option.some.inj) h

theorem exists_results? (h : Ended plan turns) :
    ∃ results, s.results? files plan turns = some results := by
  refine ⟨plan.instructions.zipIdx.map fun p =>
    s.resultOf files p.2 p.1 ((outcome? p.2 turns).getD (.ok [])), mapM_eq_some_iff.2 ?_⟩
  rw [List.map_map]
  apply List.map_congr_left
  rintro ⟨instruction, i⟩ hmem
  obtain ⟨o, ho⟩ := h i (List.mem_zipIdx' hmem).1
  simp [ho]

theorem results?_congr {turns' : List Turn}
    (h : ∀ i < plan.instructions.length, outcome? i turns = outcome? i turns') :
    s.results? files plan turns = s.results? files plan turns' := by
  apply Option.ext
  intro results
  rw [results?, results?, mapM_eq_some_iff, mapM_eq_some_iff]
  apply Eq.congr_left
  apply List.map_congr_left
  rintro ⟨instruction, i⟩ hmem
  exact congrArg (Option.map (s.resultOf files i instruction)) (h i (List.mem_zipIdx' hmem).1)

end

variable [Numeral α]

variable {reply : PlanReply} {plan : Plan} {cause : Text}

theorem run_of_plan (hplan : reply.plan = .ok plan) (request : EditRequest) (listener : Listener)
    (turns : List Turn) :
    (s.run listener request reply turns).messages =
        listener.hears (.plan plan :: s.emitted (.ofSnippets request.snippets) turns) ∧
      (s.run listener request reply turns).outcome =
        (s.results? (.ofSnippets request.snippets) plan turns).map .ok := by
  rw [← messages_effects, run]
  simp only [hplan]
  cases s.results? (.ofSnippets request.snippets) plan turns with
  | none => exact ⟨by simp [SessionRun.messages_eq, Effect.messages_toListener], rfl⟩
  | some results => exact ⟨by simp [SessionRun.messages_eq, Effect.messages_toListener], rfl⟩

theorem outcome_run (hplan : reply.plan = .ok plan) {request : EditRequest} {turns : List Turn}
    {results : List (InstructionResult α)}
    (h : s.results? (.ofSnippets request.snippets) plan turns = some results)
    (listener : Listener) :
    (s.run listener request reply turns).outcome = some (.ok results) := by
  rw [(s.run_of_plan hplan request listener turns).2, h, Option.map_some]

theorem run_of_error (hplan : reply.plan = .error cause) (request : EditRequest)
    (listener : Listener) (turns : List Turn) :
    (s.run listener request reply turns).messages = listener.hears [.error none cause none] ∧
      (s.run listener request reply turns).outcome = some (.error cause) ∧
      (s.run listener request reply turns).calls =
        [planCall (.ofSnippets request.snippets) request.request] := by
  rw [run]
  simp [hplan, SessionRun.messages_eq, Effect.messages_toListener]

end Session

end Emend
