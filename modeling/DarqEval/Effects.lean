import DarqEval.Alike

namespace DarqEval

open Lib

/-!
# What an output does to a run

How a run goes on behind an evaluation, and what it decides, depends on the artifacts and the
control directive of its output; findings, proposals and explanations are listed only.

* `Output.effect` — what is left of an output without them;
* `commit_eq_effect`, `stopping_eq_effect`, `verdict_eq_effect` — it decides what a run does;
* `SameEffects` — two runs whose visits have the same effects, one by one;
* `SameEffects.execute_ok` — if one of them returns a result, so does the other, with the same
  disposition and the same new artifacts.
-/

variable {D : Decision}

/-- The patch of an output, with its artifacts and its control directive only.  A failed evaluation
    has none under `fail_fast`, and adds nothing and continues without. -/
def Output.effect (failFast : Bool) : Output D → Option (StrategyPatch D)
  | .ok patch => some ⟨patch.artifacts, [], [], [], patch.control⟩
  | .error _ => if failFast then none else some ⟨[], [], [], [], .continue⟩

section Effect

variable (failFast : Bool) (out : Output D)

theorem patchOf_eq_effect : (patchOf out).flatMap StrategyPatch.artifacts =
    (Output.effect failFast out).elim [] StrategyPatch.artifacts := by
  cases out with
  | ok patch => simp [Output.effect]
  | error e => cases failFast <;> rfl

theorem commit_eq_effect (ctx : EvalContext D) : Output.commit out ctx =
    ctx.merge ((Output.effect failFast out).elim [] StrategyPatch.artifacts) := by
  rw [commit_eq, patchOf_eq_effect failFast]

theorem stopping_eq_effect (phase : Phase) : stopping failFast phase out =
    (Output.effect failFast out).elim true (fun patch => stopping failFast phase (.ok patch)) := by
  cases out with
  | ok patch => rfl
  | error e => cases failFast <;> rfl

theorem verdict_eq_effect (phase : Phase) : verdict phase out =
    (Output.effect failFast out).bind (fun patch => verdict phase (.ok patch)) := by
  cases out with
  | ok patch => rfl
  | error e => cases failFast <;> rfl

theorem failure_eq_none_iff_effect (s : EvalStrategy D) :
    failure failFast s out = none ↔ Output.effect failFast out ≠ none := by
  cases out with
  | ok patch => simp [failure, Output.effect]
  | error e => cases failFast <;> simp [failure, Output.effect]

end Effect

/-! ### Runs with the same effects -/

/-- The phase and the effect of a visit. -/
def effectAt (failFast : Bool) (v : StrategyVisit D) : Phase × Option (StrategyPatch D) :=
  (v.stage.phase, Output.effect failFast v.out)

section EffectAt

variable (failFast : Bool) (vs : List (StrategyVisit D))

theorem artifacts_eq_effectAt : (patches vs).flatMap StrategyPatch.artifacts =
    (vs.map (effectAt failFast)).flatMap (fun e => e.2.elim [] StrategyPatch.artifacts) := by
  rw [patches, List.flatMap_assoc, List.flatMap_map]
  simp only [patchOf_eq_effect failFast, effectAt]

theorem findSome?_verdict_eq_effectAt : vs.findSome? (fun v => verdict v.stage.phase v.out) =
    (vs.map (effectAt failFast)).findSome?
      (fun e => e.2.bind (fun patch => verdict e.1 (.ok patch))) := by
  rw [List.findSome?_map]
  exact congrArg (vs.findSome? ·) (funext (fun v => verdict_eq_effect failFast v.out v.stage.phase))

theorem findSome?_failure_iff_effectAt :
    vs.findSome? (fun v => failure failFast v.stage v.out) = none ↔
      ∀ e ∈ vs.map (effectAt failFast), e.2 ≠ none := by
  rw [List.findSome?_eq_none_iff, List.forall_mem_map]
  simp only [failure_eq_none_iff_effect, effectAt]

end EffectAt

/-- Two runs with the same flags, input and constraints whose visits have the same effects. -/
structure SameEffects (p : EvalPipeline D) (ctx : EvalContext D) (p' : EvalPipeline D)
    (ctx' : EvalContext D) : Prop where
  failFast : p.failFast = p'.failFast
  enforceConstraints : p.enforceConstraints = p'.enforceConstraints
  input : ctx.input = ctx'.input
  constraints : ctx.constraints = ctx'.constraints
  visits : (p.visits ctx).map (effectAt p.failFast) = (p'.visits ctx').map (effectAt p.failFast)

namespace SameEffects

variable {p p' : EvalPipeline D} {ctx ctx' : EvalContext D} (h : SameEffects p ctx p' ctx')

include h

theorem newArtifacts_eq : p.newArtifacts ctx = p'.newArtifacts ctx' := by
  rw [EvalPipeline.newArtifacts, EvalPipeline.newArtifacts, artifacts_eq_effectAt p.failFast,
    artifacts_eq_effectAt p.failFast, h.visits]

theorem disposition_eq : p.disposition ctx = p'.disposition ctx' := by
  rw [EvalPipeline.disposition, EvalPipeline.disposition, findSome?_verdict_eq_effectAt p.failFast,
    findSome?_verdict_eq_effectAt p.failFast, h.visits]

/-- Neither run is refused if one is not; the errors of strategies may differ. -/
theorem refusal_eq_none (hrefusal : p.refusal ctx = none) : p'.refusal ctx' = none := by
  have hinput := EvalPipeline.validateInput_of_refusal hrefusal
  have houtput : p.outputError ctx (p.disposition ctx) =
      p'.outputError ctx' (p'.disposition ctx') := by
    unfold EvalPipeline.outputError
    rw [h.disposition_eq, h.enforceConstraints, h.constraints]
  unfold EvalPipeline.refusal at hrefusal ⊢
  rw [hinput] at hrefusal
  rw [← h.input, hinput]
  obtain ⟨hfailure, hvalid⟩ := Option.or_eq_none_iff.mp hrefusal
  refine Option.or_eq_none_iff.mpr ⟨?_, houtput ▸ hvalid⟩
  rw [← h.failFast, findSome?_failure_iff_effectAt, ← h.visits]
  exact (findSome?_failure_iff_effectAt p.failFast (p.visits ctx)).mp hfailure

/-- **Runs with the same effects** from the same store return results with the same disposition and
    the same artifacts, if one of them returns a result. -/
theorem execute_ok (hstore : ctx.artifacts = ctx'.artifacts) {r : EvalResult D}
    (hr : (p.execute ctx).result = .ok r) :
    ∃ r', (p'.execute ctx').result = .ok r' ∧ r'.disposition = r.disposition ∧
      r'.artifacts = r.artifacts := by
  obtain ⟨hrefusal, rfl⟩ := EvalPipeline.execute_eq_ok.mp hr
  refine ⟨_, EvalPipeline.execute_eq_ok.mpr ⟨h.refusal_eq_none hrefusal, rfl⟩,
    h.disposition_eq.symm, ?_⟩
  simp only [EvalPipeline.summary, h.newArtifacts_eq, hstore]

end SameEffects

end DarqEval
