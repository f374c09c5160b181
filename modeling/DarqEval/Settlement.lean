import DarqEval.Compose

namespace DarqEval

open Lib

/-!
# Fetching first and deciding then

The decisions made with the crate fetch from a capability in their first strategy and finalize a
disposition in their last one.  What such a run returns depends on the answer and the disposition
only.

* `settlement` — what is returned;
* `Settles` — the runs that fetch first and decide then; `Settles.result_eq` — they return it;
* `Settles.disposed` — what is known of a result.
-/

variable {D : Decision}

/-- The settlement of an input: rejected, failed for want of an answer, or disposed of, unless the
    output approved for it is rejected. -/
def settlement (ctx : EvalContext D) (strategy : String)
    (answer : Except CapabilityError CapabilityResult) (disp : DecisionDisposition D) :
    Except PipelineError (DecisionDisposition D) :=
  match D.validateInput ctx.input with
  | .error e => .error (.inputValidation e)
  | .ok () =>
    match answer with
    | .error e => .error (.strategyFailed strategy (.capabilityError e.toString))
    | .ok _ =>
      match disp with
      | .auto output =>
        match D.validateOutput output ctx.constraints with
        | .error e => .error (.outputValidation e)
        | .ok () => .ok disp
      | _ => .ok disp

/-- The run fails if its first strategy gets no answer, and otherwise reaches the disposition. -/
structure Settles (p : EvalPipeline D) (ctx : EvalContext D) (strategy : String)
    (answer : Except CapabilityError CapabilityResult) (disp : DecisionDisposition D) : Prop where
  enforceConstraints : p.enforceConstraints = true
  unanswered : D.validateInput ctx.input = .ok () → ∀ e, answer = .error e →
    (p.visits ctx).findSome? (fun v => failure p.failFast v.stage v.out) =
      some (.strategyFailed strategy (.capabilityError e.toString))
  answered : D.validateInput ctx.input = .ok () → ∀ a, answer = .ok a →
    (p.visits ctx).findSome? (fun v => failure p.failFast v.stage v.out) = none ∧
      p.disposition ctx = some disp

namespace Settles

variable {p : EvalPipeline D} {ctx : EvalContext D} {strategy : String}
  {answer : Except CapabilityError CapabilityResult} {disp : DecisionDisposition D}
  (h : Settles p ctx strategy answer disp)

include h

/-- **Settling.** The run returns the settlement of its input. -/
theorem result_eq : (p.execute ctx).result.map EvalResult.disposition =
    (settlement ctx strategy answer disp).map some := by
  rw [EvalPipeline.execute_result]
  cases hinput : D.validateInput ctx.input with
  | error e =>
    rw [refusal_of_invalid hinput]
    simp only [settlement, hinput]
    rfl
  | ok _ =>
    rw [refusal_eq_or hinput]
    cases hanswer : answer with
    | error e =>
      rw [h.unanswered hinput e hanswer]
      simp only [settlement, hinput]
      rfl
    | ok a =>
      obtain ⟨hfailure, hdisp⟩ := h.answered hinput a hanswer
      have hsummary : (p.summary ctx).disposition = some disp := hdisp
      rw [hfailure, Option.none_or, hdisp]
      simp only [settlement, hinput]
      -- only the output of an approval is validated
      cases disp with
      | auto output =>
        cases hout : D.validateOutput output ctx.constraints with
        | error e => simp [EvalPipeline.outputError, h.enforceConstraints, hout, Except.map]
        | ok _ => simp [EvalPipeline.outputError, h.enforceConstraints, hout, Except.map, hsummary]
      | review provisional reasons => simp [EvalPipeline.outputError, Except.map, hsummary]
      | deny reasons => simp [EvalPipeline.outputError, Except.map, hsummary]

theorem result_of_settled {d : DecisionDisposition D}
    (hsettled : settlement ctx strategy answer disp = .ok d) :
    ∃ r, (p.execute ctx).result = .ok r ∧ r.disposition = some d := by
  have hresult := h.result_eq
  rw [hsettled] at hresult
  cases hr : (p.execute ctx).result with
  | error e =>
    rw [hr] at hresult
    cases hresult
  | ok r =>
    rw [hr] at hresult
    exact ⟨r, rfl, Except.ok.inj hresult⟩

theorem result_of_unsettled {e : PipelineError}
    (hunsettled : settlement ctx strategy answer disp = .error e) :
    (p.execute ctx).result = .error e := by
  have hresult := h.result_eq
  rw [hunsettled] at hresult
  cases hr : (p.execute ctx).result with
  | error e =>
    rw [hr] at hresult
    exact congrArg Except.error (Except.error.inj hresult)
  | ok r =>
    rw [hr] at hresult
    cases hresult

/-- Behind a result stand a valid input, an answer, the disposition, and the validation of what was
    approved. -/
theorem disposed {r : EvalResult D} (hr : (p.execute ctx).result = .ok r) :
    D.validateInput ctx.input = .ok () ∧ (∃ a, answer = .ok a) ∧ r.disposition = some disp ∧
      ∀ output, disp = .auto output → D.validateOutput output ctx.constraints = .ok () := by
  obtain ⟨hrefusal, rfl⟩ := EvalPipeline.execute_eq_ok.mp hr
  have hinput := EvalPipeline.validateInput_of_refusal hrefusal
  cases hanswer : answer with
  | error e =>
    rw [refusal_eq_or hinput, h.unanswered hinput e hanswer] at hrefusal
    cases hrefusal
  | ok a =>
    have hdisp := (h.answered hinput a hanswer).2
    refine ⟨hinput, ⟨a, rfl⟩, hdisp, fun output houtput => ?_⟩
    rw [houtput] at hdisp
    exact EvalPipeline.validateOutput_of_refusal hrefusal hdisp h.enforceConstraints

end Settles

end DarqEval
