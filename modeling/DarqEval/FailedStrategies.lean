import DarqEval.Alike
import DarqEval.Positions

namespace DarqEval

open Lib

/-!
# Failed strategies

Without `fail_fast`, a strategy that fails leaves its own records and nothing else: whatever a
sub-pipeline merged inside itself before it failed, the run is that of the pipeline without the
failed strategies.

* `withoutFailed p ctx` — the pipeline without the strategies that failed in the run;
* `visits_withoutFailed` — its run makes the visits that did not fail;
* `execute_withoutFailed` — it executes to the same result, without the failed steps.
-/

variable {D : Decision}

namespace EvalPipeline

/-- The positions of the strategies whose evaluation returned an error in the run. -/
def failedPositions (p : EvalPipeline D) (ctx : EvalContext D) : List Nat :=
  ((p.indexedVisits ctx).filter (fun v => !v.out.isOk)).map (fun v => v.stage.2)

/-- Whether the strategy is registered at a position that did not fail in the run. -/
def survives (p : EvalPipeline D) (ctx : EvalContext D) (x : EvalStrategy D × Nat) : Bool :=
  x.2 ∉ p.failedPositions ctx

/-- The pipeline without the strategies whose evaluation returned an error in the run. -/
def withoutFailed (p : EvalPipeline D) (ctx : EvalContext D) : EvalPipeline D :=
  { p with strategies := (p.strategies.zipIdx.filter (p.survives ctx)).map Prod.fst }

/-- Among the visits of a run, those of surviving strategies are those that returned `Ok`. -/
theorem survives_eq {p : EvalPipeline D} {ctx : EvalContext D}
    {v : Visit (EvalStrategy D × Nat) (EvalContext D) (Output D)} (hv : v ∈ p.indexedVisits ctx) :
    p.survives ctx v.stage = v.out.isOk := by
  cases hok : v.out.isOk with
  | true =>
    apply decide_eq_true
    intro hmem
    -- a failed visit at the same position would be this one
    obtain ⟨w, hw, hposition⟩ := List.mem_map.mp hmem
    obtain ⟨hw, hfailed⟩ := List.mem_filter.mp hw
    obtain rfl := List.inj_on_of_nodup_map (p.nodup_indexedVisits ctx) hw hv hposition
    rw [hok] at hfailed
    cases hfailed
  | false =>
    apply decide_eq_false
    intro hnot
    refine hnot (List.mem_map.mpr ⟨v, List.mem_filter.mpr ⟨hv, ?_⟩, rfl⟩)
    rw [hok]
    rfl

/-! ### The run without the failed strategies -/

theorem order_withoutFailed (p : EvalPipeline D) (ctx : EvalContext D) :
    (p.withoutFailed ctx).order = (p.indices.filter (p.survives ctx)).map Prod.fst := by
  show sortBy EvalStrategy.sortKey ((p.strategies.zipIdx.filter (p.survives ctx)).map Prod.fst) = _
  rw [sortBy_map, sortBy_filter]
  rfl

/-- A failed visit changes nothing and, without `fail_fast`, stops nothing. -/
theorem idle_of_failed {p : EvalPipeline D} (hfailFast : p.failFast = false) {out : Output D}
    (hout : out.isOk = false) (phase : Phase) (ctx : EvalContext D) :
    Output.commit out ctx = ctx ∧ stopping p.failFast phase out = false := by
  cases out with
  | ok patch => cases hout
  | error e => exact ⟨rfl, hfailFast⟩

/-- **Step.** The run without the failed strategies visits the others on the same contexts, with
    the same outputs. -/
theorem visits_withoutFailed {p : EvalPipeline D} (hfailFast : p.failFast = false)
    (ctx : EvalContext D) :
    List.Forall₂ (fun v v' => v.stage = v'.stage ∧ v.seen = v'.seen ∧ v.out = v'.out)
      ((p.visits ctx).filter (fun v => v.out.isOk)) ((p.withoutFailed ctx).visits ctx) := by
  have hleft : (p.visits ctx).filter (fun v => v.out.isOk) =
      ((p.indexedVisits ctx).filter (fun v => v.out.isOk)).map (Visit.mapStage Prod.fst) := by
    rw [← indexedVisits_mapStage, List.filter_map]
    rfl
  have hsurvivors : (p.indexedVisits ctx).filter (fun v => p.survives ctx v.stage) =
      (p.indexedVisits ctx).filter (fun v => v.out.isOk) :=
    List.filter_congr (fun v hv => survives_eq hv)
  have hright : (p.withoutFailed ctx).visits ctx =
      (((p.indexedVisits ctx).filter (fun v => v.out.isOk)).map
        (fun v => { v with later := v.later.filter (p.survives ctx) })).map
          (Visit.mapStage Prod.fst) := by
    rw [← hsurvivors, visits, order_withoutFailed]
    show (if (D.validateInput ctx.input).isOk then p.process.visits _ ctx else []) = _
    by_cases hinput : (D.validateInput ctx.input).isOk
    · have hvisits : p.indexedVisits ctx = (p.process.comap Prod.fst).visits p.indices ctx :=
        if_pos hinput
      rw [if_pos hinput, Process.visits_map, hvisits, ← Process.visits_filter]
      intro v hv hdropped
      rw [← hvisits] at hv
      rw [survives_eq hv] at hdropped
      exact idle_of_failed hfailFast hdropped v.stage.1.phase v.seen
    · have hnone : p.indexedVisits ctx = [] := if_neg hinput
      rw [if_neg hinput, hnone]
      rfl
  rw [hleft, hright, List.forall₂_map_left_iff, List.forall₂_map_right_iff,
    List.forall₂_map_right_iff, List.forall₂_same]
  exact fun v _ => ⟨rfl, rfl, rfl⟩

end EvalPipeline

/-! ### What failed visits contribute -/

/-- The step is that of a failed strategy. -/
def PipelineStep.failed (step : PipelineStep) : Bool :=
  match step.outcome with
  | .failed _ => true
  | _ => false

theorem failed_stepOf (s : EvalStrategy D) (out : Output D) :
    (stepOf s out).failed = !out.isOk := by
  match out with
  | .error e => rfl
  | .ok ⟨_, _, _, _, control⟩ =>
    cases control with
    | finalize disp => by_cases h : s.phase = .decide <;> simp [stepOf, outcomeOf,
        PipelineStep.failed, h, Except.isOk, Except.toBool]
    | _ => rfl

theorem exists_error_of_isOk {out : Output D} (h : out.isOk = false) : ∃ e, out = .error e := by
  cases out with
  | ok patch => cases h
  | error e => exact ⟨e, rfl⟩

section Execute

variable {p : EvalPipeline D} (hfailFast : p.failFast = false) (ctx : EvalContext D)

include hfailFast

theorem sameVisit_withoutFailed : List.Forall₂ SameVisit
    ((p.visits ctx).filter (fun v => v.out.isOk)) ((p.withoutFailed ctx).visits ctx) :=
  (EvalPipeline.visits_withoutFailed hfailFast ctx).imp
    (fun _ _ h => ⟨congrArg EvalStrategy.label h.1, h.2.2⟩)

theorem patches_withoutFailed :
    patches ((p.withoutFailed ctx).visits ctx) = patches (p.visits ctx) := by
  rw [← patches_sameVisit (sameVisit_withoutFailed hfailFast ctx)]
  refine flatMap_filter (fun v _ hfailed => ?_)
  obtain ⟨e, hout⟩ := exists_error_of_isOk hfailed
  rw [hout]
  rfl

theorem disposition_withoutFailed :
    (p.withoutFailed ctx).disposition ctx = p.disposition ctx := by
  have hvisits := findSome?_sameVisit (f := fun v => verdict v.stage.phase v.out)
    (sameVisit_withoutFailed hfailFast ctx) (fun _ _ hv => by rw [hv.2, label_phase hv.1])
  rw [EvalPipeline.disposition, ← hvisits]
  refine findSome?_filter (fun v _ hfailed => ?_)
  obtain ⟨e, hout⟩ := exists_error_of_isOk hfailed
  rw [hout]
  rfl

theorem explanations_withoutFailed :
    (p.withoutFailed ctx).explanations ctx = p.explanations ctx := by
  have hvisits := flatMap_sameVisit (f := fun v => explanationsOf v.stage v.out)
    (sameVisit_withoutFailed hfailFast ctx) (fun _ _ hv => by rw [hv.2, explanationsOf_congr hv.1])
  rw [EvalPipeline.explanations, ← hvisits]
  refine flatMap_filter (fun v _ hfailed => ?_)
  obtain ⟨e, hout⟩ := exists_error_of_isOk hfailed
  rw [hout]
  rfl

theorem refusal_withoutFailed : (p.withoutFailed ctx).refusal ctx = p.refusal ctx := by
  -- without `fail_fast` no strategy error is returned
  have hnone : ∀ vs : List (StrategyVisit D),
      vs.findSome? (fun v => failure false v.stage v.out) = none := by
    intro vs
    rw [List.findSome?_eq_none_iff]
    intro v _
    cases v.out with
    | ok patch => rfl
    | error e => rfl
  have hflag : (p.withoutFailed ctx).failFast = false := hfailFast
  unfold EvalPipeline.refusal
  rw [disposition_withoutFailed hfailFast ctx, hflag, hfailFast, hnone, hnone]
  rfl

theorem steps_withoutFailed :
    ((p.withoutFailed ctx).visits ctx).map (fun v => stepOf v.stage v.out) =
      ((p.visits ctx).map (fun v => stepOf v.stage v.out)).filter (fun step => !step.failed) := by
  have hvisits := map_sameVisit (f := fun v => stepOf v.stage v.out)
    (sameVisit_withoutFailed hfailFast ctx) (fun _ _ hv => by rw [hv.2, stepOf_congr hv.1])
  rw [← hvisits, List.filter_map]
  refine congrArg (List.map _) (List.filter_congr (fun v _ => ?_))
  rw [Function.comp_apply, failed_stepOf, Bool.not_not]

/-- **A failed strategy leaves no trace in the decision.** Without `fail_fast`, the pipeline
    without the strategies that failed in a run returns the same error, or a result with the same
    store, disposition, findings, proposals and explanations, and the steps that did not fail. -/
theorem execute_withoutFailed :
    ((p.withoutFailed ctx).execute ctx).ctx = (p.execute ctx).ctx ∧
    (∀ e, ((p.withoutFailed ctx).execute ctx).result = .error e ↔
      (p.execute ctx).result = .error e) ∧
    ∀ r, (p.execute ctx).result = .ok r →
      ∃ r', ((p.withoutFailed ctx).execute ctx).result = .ok r' ∧
        r'.artifacts = r.artifacts ∧ r'.disposition = r.disposition ∧ r'.findings = r.findings ∧
        r'.proposals = r.proposals ∧ r'.trace.explanations = r.trace.explanations ∧
        r'.steps = r.steps.filter (fun step => !step.failed) := by
  have hpatches := patches_withoutFailed hfailFast ctx
  have hartifacts : (p.withoutFailed ctx).newArtifacts ctx = p.newArtifacts ctx := by
    rw [EvalPipeline.newArtifacts, hpatches, EvalPipeline.newArtifacts]
  have hrefusal := refusal_withoutFailed hfailFast ctx
  refine ⟨?_, EvalPipeline.execute_error_congr hrefusal, fun r hr => ?_⟩
  · rw [EvalPipeline.execute_ctx, EvalPipeline.execute_ctx, hartifacts]
  · obtain ⟨rfl, hr'⟩ := EvalPipeline.execute_ok_congr hrefusal.symm hr
    refine ⟨_, hr', ?_, ?_, ?_, ?_, ?_, ?_⟩
    · simp only [EvalPipeline.summary, hartifacts]
    · exact disposition_withoutFailed hfailFast ctx
    · simp only [EvalPipeline.summary, hpatches]
    · simp only [EvalPipeline.summary, hpatches]
    · rw [EvalPipeline.summary_explanations, EvalPipeline.summary_explanations,
        explanations_withoutFailed hfailFast ctx]
    · exact steps_withoutFailed hfailFast ctx

end Execute

namespace Sample

/-- A leaf that stores a piece of evidence. -/
def collector : EvalStrategy decision where
  id := "collector"
  version := ⟨1, 0, 0⟩
  phase := .enrich
  priority := 0
  evaluate := fun _ _ =>
    .ok ⟨[⟨"evidence", .null, "collector", "1.0.0", "v1", "", .deterministic⟩], [], [], [],
      .continue⟩

/-- A leaf that fails. -/
def crasher : EvalStrategy decision where
  id := "crasher"
  version := ⟨1, 0, 0⟩
  phase := .evaluate
  priority := 0
  evaluate := fun _ _ => .error (.internal "simulated crash")

/-- A sub-pipeline that merges the evidence inside itself and then fails, in front of a decider,
    without `fail_fast`. -/
def tolerant : EvalPipeline decision :=
  ⟨"sample", [(pipeline [collector, crasher]).toStrategy 0,
    leaf "decider" .decide (.finalize (.auto (2 : Nat)))], .new, true, false⟩

end Sample

/-- Without the sub-pipeline that failed halfway, the decider alone ends in the same approval. -/
theorem execute_withoutFailed_sub :
    ∃ r', ((Sample.tolerant.withoutFailed Sample.context).execute Sample.context).result = .ok r' ∧
      r'.artifacts = Sample.context.artifacts ∧ r'.disposition = some (.auto (2 : Nat)) ∧
      r'.steps = [⟨"decider", "Decide", .finalized⟩] := by
  have hr : (Sample.tolerant.execute Sample.context).result =
      .ok (Sample.tolerant.summary Sample.context) :=
    EvalPipeline.execute_eq_ok.mpr ⟨rfl, rfl⟩
  obtain ⟨r', hr', hartifacts, hdisp, -, -, -, hsteps⟩ :=
    (execute_withoutFailed (p := Sample.tolerant) rfl Sample.context).2.2 _ hr
  exact ⟨r', hr', hartifacts, hdisp, hsteps⟩

end DarqEval
