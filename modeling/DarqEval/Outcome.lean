import DarqEval.Execute

namespace DarqEval

open Lib

/-!
# How a run ends

The outcome of `execute` in terms of the first strategy that stops the run.

* `visitAll p ctx` — every strategy, in sorted order, evaluated on the context left by the
  patches of the earlier ones, whether or not one of them stops the run (`visitAll_split`);
* `firstStopping p ctx` — the first of these that stops it;
* `execute_outcome` — when the run returns an error and which, and otherwise its disposition
  and its steps.
-/

variable {D : Decision}

namespace EvalPipeline

/-- Every strategy evaluated in turn on the context the earlier ones left. -/
def visitAll (p : EvalPipeline D) (ctx : EvalContext D) : List (StrategyVisit D) :=
  p.process.visitAll p.order ctx

/-- The sorted order is the stable one: the registered strategies by non-decreasing key, those
    with equal keys in the order of registration. -/
theorem order_stable (p : EvalPipeline D) :
    p.order.Perm p.strategies ∧ p.order.Pairwise (fun s s' => s.sortKey ≤ s'.sortKey) ∧
      ∀ key, p.order.filter (fun s => s.sortKey = key) =
        p.strategies.filter (fun s => s.sortKey = key) := by
  refine ⟨sortBy_perm _ _, sortBy_pairwise _ _, fun key => ?_⟩
  refine sortBy_stable p.strategies (fun s s' hs hs' => ?_)
  exact (of_decide_eq_true hs).trans (of_decide_eq_true hs').symm

/-- `visitAll` evaluates the strategies in sorted order, each once. -/
theorem visitAll_stage (p : EvalPipeline D) (ctx : EvalContext D) :
    (p.visitAll ctx).map Visit.stage = p.order := p.process.visitAll_stage p.order ctx

/-- Each strategy is evaluated with the patches of the earlier ones merged. -/
theorem visitAll_split {p : EvalPipeline D} {ctx : EvalContext D} {pre post : List (StrategyVisit D)}
    {v : StrategyVisit D} (h : p.visitAll ctx = pre ++ v :: post) :
    v.seen = ctx.merge ((patches pre).flatMap StrategyPatch.artifacts) ∧
      v.out = v.stage.evaluate v.seen p.capabilities := by
  obtain ⟨hseen, hout⟩ := p.process.visitAll_split h
  rw [commitAll_eq] at hseen
  exact ⟨hseen, hout⟩

/-- Whether a visit stops the run. -/
def stopsAt (p : EvalPipeline D) (v : StrategyVisit D) : Bool :=
  stopping p.failFast v.stage.phase v.out

/-- The first strategy that stops the run. -/
def firstStopping (p : EvalPipeline D) (ctx : EvalContext D) : Option (StrategyVisit D) :=
  (p.visitAll ctx).find? p.stopsAt

/-- The run evaluates the strategies up to and including the first stopping one. -/
theorem visits_eq_takeThrough {p : EvalPipeline D} {ctx : EvalContext D}
    (h : D.validateInput ctx.input = .ok ()) :
    p.visits ctx = takeThrough p.stopsAt (p.visitAll ctx) := by
  unfold visits
  rw [h]
  exact p.process.visits_eq_takeThrough p.order ctx

/-- The disposition is the verdict of the first stopping strategy. -/
theorem disposition_eq_bind {p : EvalPipeline D} {ctx : EvalContext D}
    (h : D.validateInput ctx.input = .ok ()) :
    p.disposition ctx = (p.firstStopping ctx).bind (fun v => verdict v.stage.phase v.out) := by
  unfold disposition firstStopping
  rw [visits_eq_takeThrough h]
  exact findSome?_takeThrough p.stopsAt (fun v d hv => stopping_of_verdict hv) _

/-- The strategy error returned is that of the first stopping strategy. -/
theorem findSome?_failure_eq_bind {p : EvalPipeline D} {ctx : EvalContext D}
    (h : D.validateInput ctx.input = .ok ()) :
    (p.visits ctx).findSome? (fun v => failure p.failFast v.stage v.out) =
      (p.firstStopping ctx).bind (fun v => failure p.failFast v.stage v.out) := by
  unfold firstStopping
  rw [visits_eq_takeThrough h]
  exact findSome?_takeThrough p.stopsAt (fun v e hv => stopping_of_failure hv) _

/-- A failing strategy among the stopping ones is one under `fail_fast`. -/
theorem failure_of_stopsAt {p : EvalPipeline D} {v : StrategyVisit D} (hv : p.stopsAt v = true) :
    failure p.failFast v.stage v.out =
      match v.out with
      | .ok _ => none
      | .error e => some (.strategyFailed v.stage.id e) := by
  unfold stopsAt at hv
  cases hout : v.out with
  | ok patch => rfl
  | error e =>
    rw [hout] at hv
    simp only [stopping] at hv
    simp [failure, hv]

/-- A finalizing strategy among the stopping ones is in the Decide phase. -/
theorem verdict_of_stopsAt {p : EvalPipeline D} {v : StrategyVisit D} (hv : p.stopsAt v = true) :
    verdict v.stage.phase v.out =
      match v.out with
      | .ok ⟨_, _, _, _, .finalize disp⟩ => some disp
      | .ok ⟨_, _, _, _, .escalate reason⟩ => some (.review none [reason])
      | _ => none := by
  unfold stopsAt at hv
  match hout : v.out with
  | .error e => rfl
  | .ok ⟨_, _, _, _, control⟩ => cases control <;> simp_all [stopping, verdict]

theorem outputError_eq_some {p : EvalPipeline D} {ctx : EvalContext D}
    {disp : Option (DecisionDisposition D)} {e : PipelineError} :
    p.outputError ctx disp = some e ↔
      ∃ output ve, disp = some (.auto output) ∧ p.enforceConstraints = true ∧
        D.validateOutput output ctx.constraints = .error ve ∧ e = .outputValidation ve := by
  unfold outputError
  rcases disp with _ | ⟨output | _ | _⟩
  · simp
  · by_cases henf : p.enforceConstraints = true
    · cases hout : D.validateOutput output ctx.constraints with
      | ok _ => simp [henf, hout]
      | error ve =>
        simp only [henf, if_true, hout]
        constructor
        · intro h
          exact ⟨output, ve, rfl, trivial, hout, (Option.some.inj h).symm⟩
        · rintro ⟨_, ve', hdisp, _, hout', rfl⟩
          cases hdisp
          rw [hout] at hout'
          cases hout'
          rfl
    · simp [henf]
  · simp
  · simp

/-- The error returned behind the input validation. -/
theorem refusal_of_valid {p : EvalPipeline D} {ctx : EvalContext D}
    (h : D.validateInput ctx.input = .ok ()) :
    p.refusal ctx =
      ((p.firstStopping ctx).bind (fun v => failure p.failFast v.stage v.out)).or
        (p.outputError ctx ((p.firstStopping ctx).bind (fun v => verdict v.stage.phase v.out))) := by
  unfold refusal
  rw [h, ← findSome?_failure_eq_bind h, ← disposition_eq_bind h]

/-- **The error of a run**: the input is rejected, or the first stopping strategy failed, or
    the output it decided on is rejected. -/
theorem refusal_eq_some (p : EvalPipeline D) (ctx : EvalContext D) (e : PipelineError) :
    p.refusal ctx = some e ↔
      (∃ ve, D.validateInput ctx.input = .error ve ∧ e = .inputValidation ve) ∨
      (D.validateInput ctx.input = .ok () ∧ ∃ v, p.firstStopping ctx = some v ∧
        ((∃ err, v.out = .error err ∧ e = .strategyFailed v.stage.id err) ∨
          ∃ patch output ve, v.out = .ok patch ∧ patch.control = .finalize (.auto output) ∧
            p.enforceConstraints = true ∧
            D.validateOutput output ctx.constraints = .error ve ∧ e = .outputValidation ve)) := by
  cases hinput : D.validateInput ctx.input with
  | error ve =>
    simp only [refusal, hinput, Option.some.injEq, Except.error.injEq, exists_eq_left',
      reduceCtorEq, false_and, or_false]
    exact eq_comm
  | ok _ =>
    -- with the input accepted, all is decided by the first stopping strategy
    rw [refusal_of_valid hinput]
    simp only [reduceCtorEq, false_and, exists_false, false_or, true_and]
    cases hfirst : p.firstStopping ctx with
    | none => simp [outputError]
    | some v =>
      have hv : p.stopsAt v = true := List.find?_some hfirst
      rw [Option.bind_some, Option.bind_some, failure_of_stopsAt hv, verdict_of_stopsAt hv]
      simp only [Option.some.injEq, exists_eq_left']
      cases hout : v.out with
      | error err =>
        simp only [Option.some_or, Option.some.injEq, Except.error.injEq, exists_eq_left',
          reduceCtorEq, false_and, exists_false, or_false]
        exact eq_comm
      | ok patch =>
        obtain ⟨_, _, _, _, control⟩ := patch
        cases control <;> simp [outputError_eq_some]

/-- **Outcome of a run.** `visitAll` runs the registered strategies in the stable order of their
    keys, each on the context that the patches of the earlier ones left.  `execute` returns an error
    exactly when the input is rejected, the first stopping one of them failed, or the output it
    finalized is rejected under enforced constraints; otherwise the disposition is the one the
    first stopping strategy decided on, and there is one step for each strategy up to and
    including it. -/
theorem execute_outcome (p : EvalPipeline D) (ctx : EvalContext D) :
    (p.order.Perm p.strategies ∧ p.order.Pairwise (fun s s' => s.sortKey ≤ s'.sortKey) ∧
      ∀ key, p.order.filter (fun s => s.sortKey = key) =
        p.strategies.filter (fun s => s.sortKey = key)) ∧
    ((p.visitAll ctx).map Visit.stage = p.order ∧
      ∀ pre v post, p.visitAll ctx = pre ++ v :: post →
        v.seen = ctx.merge ((patches pre).flatMap StrategyPatch.artifacts) ∧
          v.out = v.stage.evaluate v.seen p.capabilities) ∧
    (∀ e, (p.execute ctx).result = .error e ↔
      (∃ ve, D.validateInput ctx.input = .error ve ∧ e = .inputValidation ve) ∨
      (D.validateInput ctx.input = .ok () ∧ ∃ v, p.firstStopping ctx = some v ∧
        ((∃ err, v.out = .error err ∧ e = .strategyFailed v.stage.id err) ∨
          ∃ patch output ve, v.out = .ok patch ∧ patch.control = .finalize (.auto output) ∧
            p.enforceConstraints = true ∧
            D.validateOutput output ctx.constraints = .error ve ∧ e = .outputValidation ve))) ∧
    (∀ r, (p.execute ctx).result = .ok r →
      (∀ v, p.firstStopping ctx = some v →
        (∃ patch, v.out = .ok patch ∧
          ((∃ disp, patch.control = .finalize disp ∧ r.disposition = some disp) ∨
            (∃ reason, patch.control = .escalate reason ∧
              r.disposition = some (.review none [reason])) ∨
            (∃ reason, patch.control = .halt reason ∧ r.disposition = none))) ∧
        ∃ pre post, p.visitAll ctx = pre ++ v :: post ∧ (∀ u ∈ pre, p.stopsAt u = false) ∧
          r.steps = (pre ++ [v]).map (fun u => stepOf u.stage u.out)) ∧
      (p.firstStopping ctx = none →
        r.disposition = none ∧
          r.steps = (p.visitAll ctx).map (fun u => stepOf u.stage u.out))) := by
  refine ⟨p.order_stable, ⟨p.visitAll_stage ctx, fun pre v post h => visitAll_split h⟩,
    fun e => execute_eq_error.trans (p.refusal_eq_some ctx e), fun r hr => ?_⟩
  obtain ⟨hnone, rfl⟩ := execute_eq_ok.mp hr
  have hinput := validateInput_of_refusal hnone
  have hdisp : (p.summary ctx).disposition =
      (p.firstStopping ctx).bind (fun v => verdict v.stage.phase v.out) :=
    disposition_eq_bind hinput
  have hsteps : (p.summary ctx).steps =
      (takeThrough p.stopsAt (p.visitAll ctx)).map (fun u => stepOf u.stage u.out) := by
    rw [← visits_eq_takeThrough hinput]; rfl
  refine ⟨fun v hfirst => ⟨?_, ?_⟩, fun hfirst => ⟨?_, ?_⟩⟩
  · -- the first stopping strategy did not fail, or the run would have returned its error
    have hv : p.stopsAt v = true := List.find?_some hfirst
    rw [refusal_of_valid hinput, hfirst, Option.bind_some, failure_of_stopsAt hv] at hnone
    rw [hfirst, Option.bind_some, verdict_of_stopsAt hv] at hdisp
    unfold stopsAt at hv
    match hout : v.out with
    | .error err => rw [hout] at hnone; cases hnone
    | .ok ⟨_, _, _, _, control⟩ =>
      rw [hout] at hdisp hv
      cases control with
      | «continue» => cases hv
      | finalize disp => exact ⟨_, rfl, Or.inl ⟨disp, rfl, hdisp⟩⟩
      | escalate reason => exact ⟨_, rfl, Or.inr (Or.inl ⟨reason, rfl, hdisp⟩)⟩
      | halt reason => exact ⟨_, rfl, Or.inr (Or.inr ⟨reason, rfl, hdisp⟩)⟩
  · obtain ⟨pre, htake, hpre⟩ := takeThrough_eq_concat p.stopsAt hfirst
    obtain ⟨post, hpost⟩ := takeThrough_isPrefix p.stopsAt (p.visitAll ctx)
    refine ⟨pre, post, ?_, fun u hu => eq_false_of_ne_true (hpre u hu), by rw [hsteps, htake]⟩
    rw [← hpost, htake, List.append_assoc, List.singleton_append]
  · rw [hdisp, hfirst]; rfl
  · rw [hsteps, takeThrough_eq_self p.stopsAt hfirst]

end EvalPipeline

end DarqEval
