import DarqEval.Run

namespace DarqEval

open Lib

/-!
# `execute` computes the run

The loop and what follows it return exactly what `Run.lean` reads off the visits.

* `execute_ctx` — the context a run leaves, whatever it returns;
* `execute_result` — its error, or its summary; `execute_eq_ok`, `execute_eq_error` invert it;
* `evaluate_eq` — what a sub-pipeline hands to its parent.
-/

variable {D : Decision}

namespace EvalPipeline

/-! ### Behind the loop -/

/-- The validation behind the loop fails with the run's output error; a halted run, having no
    disposition, is not affected by the guard on it. -/
theorem validateOutput_eq (p : EvalPipeline D) (st : LoopState D)
    (hhalted : st.halted = true → st.disposition = none) :
    p.validateOutput st =
      match p.outputError st.ctx st.disposition with
      | some e => .error e
      | none => .ok { st with trace := st.trace.recordAll (p.outputEvents st.disposition) } := by
  obtain ⟨ctx, trace, steps, findings, proposals, disposition, versions, phase, halted⟩ := st
  unfold validateOutput outputError outputEvents
  cases halted with
  | true =>
    -- nothing to validate on either side of the guard
    have hdisp : disposition = none := hhalted rfl
    simp [hdisp]
  | false =>
    cases henf : p.enforceConstraints with
    | false => rcases disposition with _ | ⟨_ | _ | _⟩ <;> simp
    | true =>
      rcases disposition with _ | ⟨output | _ | _⟩
      · simp
      · cases hout : D.validateOutput output ctx.constraints with
        | error e => simp [hout]
        | ok _ => simp [hout]; rfl
      · simp
      · simp

/-- The loop's locals behind the loop. -/
def finalState (p : EvalPipeline D) (ctx : EvalContext D) : LoopState D :=
  (LoopState.init ctx ((TraceHandle.new ctx.evalId).record .inputValidated)).absorbAll
    (p.visits ctx)

@[simp] theorem finalState_ctx (p : EvalPipeline D) (ctx : EvalContext D) :
    (p.finalState ctx).ctx = ctx.merge (p.newArtifacts ctx) := rfl

theorem finalState_disposition (p : EvalPipeline D) (ctx : EvalContext D) :
    (p.finalState ctx).disposition = p.disposition ctx := foldl_verdict_eq p ctx

/-- A run halted behind the loop has no disposition. -/
theorem finalState_halted (p : EvalPipeline D) (ctx : EvalContext D)
    (h : (p.finalState ctx).halted = true) : (p.finalState ctx).disposition = none := by
  -- the flag is raised by a visit that halts, or was raised before
  have hany : ∀ (vs : List (StrategyVisit D)) (b : Bool),
      vs.foldl (fun halted v => halts v.out || halted) b = true →
        b = true ∨ ∃ v ∈ vs, halts v.out = true := by
    intro vs
    induction vs with
    | nil => exact fun b hb => Or.inl hb
    | cons v vs ih =>
      intro b hb
      rcases ih _ hb with hb' | ⟨u, hu, huh⟩
      · rcases (Bool.or_eq_true _ _).mp hb' with hv | hb''
        · exact Or.inr ⟨v, List.mem_cons_self, hv⟩
        · exact Or.inl hb''
      · exact Or.inr ⟨u, List.mem_cons_of_mem v hu, huh⟩
  rcases hany (p.visits ctx) false h with hfalse | ⟨v, hv, hhalt⟩
  · cases hfalse
  · rw [finalState_disposition]
    exact disposition_of_halted hv hhalt

theorem execute_of_invalid {p : EvalPipeline D} {ctx : EvalContext D} {e : ValidationError}
    (h : D.validateInput ctx.input = .error e) :
    p.execute ctx = ⟨ctx, .error (.inputValidation e)⟩ := by
  unfold execute
  simp only [h]

theorem execute_of_valid {p : EvalPipeline D} {ctx : EvalContext D}
    (h : D.validateInput ctx.input = .ok ()) :
    p.execute ctx =
      match (p.visits ctx).findSome? (fun v => failure p.failFast v.stage v.out) with
      | some e => ⟨(p.finalState ctx).ctx, .error e⟩
      | none => p.finish (p.finalState ctx) := by
  have hvisits : p.visits ctx = p.process.visits p.order ctx := by
    simp [visits, h, Except.isOk, Except.toBool]
  have hctx (t : TraceHandle) : (LoopState.init ctx t).ctx = ctx := rfl
  unfold execute finalState
  simp only [h, runStrategies_eq, hvisits, hctx]
  cases (p.process.visits p.order ctx).findSome? (fun v => failure p.failFast v.stage v.out) <;>
    rfl

/-- The context a run leaves: the given one with the artifacts of its patches merged, whatever
    the run returns. -/
theorem execute_ctx (p : EvalPipeline D) (ctx : EvalContext D) :
    (p.execute ctx).ctx = ctx.merge (p.newArtifacts ctx) := by
  cases hinput : D.validateInput ctx.input with
  | error e =>
    rw [execute_of_invalid hinput]
    simp [newArtifacts, visits, hinput, Except.isOk, Except.toBool, patches]
  | ok _ =>
    rw [execute_of_valid hinput]
    cases (p.visits ctx).findSome? (fun v => failure p.failFast v.stage v.out) <;> rfl

/-- **Refinement.** `execute` returns the run's error, if it has one, and its summary
    otherwise. -/
theorem execute_result (p : EvalPipeline D) (ctx : EvalContext D) :
    (p.execute ctx).result =
      match p.refusal ctx with
      | some e => .error e
      | none => .ok (p.summary ctx) := by
  unfold refusal
  cases hinput : D.validateInput ctx.input with
  | error e => rw [execute_of_invalid hinput]
  | ok _ =>
    rw [execute_of_valid hinput]
    cases (p.visits ctx).findSome? (fun v => failure p.failFast v.stage v.out) with
    | some e => rfl
    | none =>
      -- closing the last phase touches the trace alone
      have hclose : (p.finalState ctx).closePhase.halted = true →
          (p.finalState ctx).closePhase.disposition = none := by
        rw [closePhase_eq]
        exact p.finalState_halted ctx
      simp only [finish, validateOutput_eq p _ hclose]
      simp only [closePhase_eq, finalState_disposition, finalState_ctx, Option.none_or]
      -- a run merges artifacts only, so the constraints are still the caller's
      have houtput : p.outputError (ctx.merge (p.newArtifacts ctx)) (p.disposition ctx) =
        p.outputError ctx (p.disposition ctx) := rfl
      rw [houtput]
      cases p.outputError ctx (p.disposition ctx) with
      | some e => rfl
      | none =>
        have htrace : (p.summary ctx).trace =
            ((((p.finalState ctx).trace.recordAll
              (transition.closing (p.finalState ctx).currentPhase)).recordAll
              (p.outputEvents (p.disposition ctx))).record .pipelineCompleted) := by
          simp only [summary, events, finalState, LoopState.absorbAll, LoopState.init,
            explanations, TraceHandle.recordAll_append, TraceHandle.recordAll_cons,
            TraceHandle.recordAll_nil, TraceHandle.record_explainAll,
            TraceHandle.recordAll_explainAll, List.cons_append]
        simp only [Except.map, toResult, ← htrace]
        rfl

theorem execute_eq_ok {p : EvalPipeline D} {ctx : EvalContext D} {r : EvalResult D} :
    (p.execute ctx).result = .ok r ↔ p.refusal ctx = none ∧ r = p.summary ctx := by
  rw [execute_result]
  cases p.refusal ctx with
  | some e => simp
  | none => simp [eq_comm]

theorem execute_eq_error {p : EvalPipeline D} {ctx : EvalContext D} {e : PipelineError} :
    (p.execute ctx).result = .error e ↔ p.refusal ctx = some e := by
  rw [execute_result]
  cases p.refusal ctx with
  | some e' => simp
  | none => simp

/-- Of two runs that are refused alike, each returns the errors of the other. -/
theorem execute_error_congr {p p' : EvalPipeline D} {ctx ctx' : EvalContext D}
    (h : p.refusal ctx = p'.refusal ctx') (e : PipelineError) :
    (p.execute ctx).result = .error e ↔ (p'.execute ctx').result = .error e := by
  rw [execute_eq_error, execute_eq_error, h]

/-- Of two runs that are refused alike, one returns its summary if the other does. -/
theorem execute_ok_congr {p p' : EvalPipeline D} {ctx ctx' : EvalContext D}
    (h : p.refusal ctx = p'.refusal ctx') {r : EvalResult D} (hr : (p.execute ctx).result = .ok r) :
    r = p.summary ctx ∧ (p'.execute ctx').result = .ok (p'.summary ctx') := by
  obtain ⟨hrefusal, heq⟩ := execute_eq_ok.mp hr
  rw [h] at hrefusal
  exact ⟨heq, execute_eq_ok.mpr ⟨hrefusal, rfl⟩⟩

/-- A run that returns a result had its input accepted. -/
theorem validateInput_of_refusal {p : EvalPipeline D} {ctx : EvalContext D}
    (h : p.refusal ctx = none) : D.validateInput ctx.input = .ok () := by
  unfold refusal at h
  cases hinput : D.validateInput ctx.input with
  | error e => rw [hinput] at h; cases h
  | ok _ => rfl

/-- A run that returns an approval under enforced constraints had its output accepted. -/
theorem validateOutput_of_refusal {p : EvalPipeline D} {ctx : EvalContext D} {output : D.Output}
    (h : p.refusal ctx = none) (hdisp : p.disposition ctx = some (.auto output))
    (henforce : p.enforceConstraints = true) : D.validateOutput output ctx.constraints = .ok () := by
  have hinput := validateInput_of_refusal h
  unfold refusal at h
  rw [hinput, hdisp] at h
  have houtput : p.outputError ctx (some (.auto output)) = none := (Option.or_eq_none_iff.mp h).2
  simp only [outputError, henforce, if_true] at houtput
  cases hout : D.validateOutput output ctx.constraints with
  | error e => rw [hout] at houtput; cases houtput
  | ok _ => rfl

/-! ### Nested runs -/

/-- The control directive a sub-pipeline derives from its disposition. -/
def controlOf : Option (DecisionDisposition D) → Control D
  | some disp => .finalize disp
  | none => .continue

/-- The patch a sub-pipeline returns for its run. -/
def runPatch (p : EvalPipeline D) (ctx : EvalContext D) : StrategyPatch D where
  artifacts := p.newArtifacts ctx
  findings := (patches (p.visits ctx)).flatMap StrategyPatch.findings
  proposals := (patches (p.visits ctx)).flatMap StrategyPatch.proposals
  explanations := p.explanations ctx
  control := controlOf (p.disposition ctx)

/-- The error a sub-pipeline returns for the error of its run. -/
def runError (p : EvalPipeline D) (e : PipelineError) : EvalError :=
  .internal ("sub-pipeline '" ++ p.name ++ "' failed: " ++ e.toString)

/-- **Nesting.** A sub-pipeline evaluates to its run's error or its run's patch: cutting the
    parent's entries off the child's store leaves exactly what the run added. -/
theorem evaluate_eq (p : EvalPipeline D) (newV4 : Uuid) (ctx : EvalContext D)
    (caps : CapabilitySet) :
    p.evaluate newV4 ctx caps =
      match p.refusal (childContext newV4 ctx) with
      | some e => .error (p.runError e)
      | none => .ok (p.runPatch (childContext newV4 ctx)) := by
  have hdrop : ((childContext newV4 ctx).artifacts.appendAll
      (p.newArtifacts (childContext newV4 ctx))).intoEntries.drop ctx.artifacts.len =
        p.newArtifacts (childContext newV4 ctx) :=
    ArtifactStore.drop_len_appendAll ctx.artifacts _
  unfold evaluate
  simp only [execute_ctx, EvalContext.merge_artifacts, hdrop, execute_result]
  cases p.refusal (childContext newV4 ctx) with
  | some e => rfl
  | none =>
    have hexpl : (p.summary (childContext newV4 ctx)).trace.explanations =
        p.explanations (childContext newV4 ctx) := by
      simp [summary]
    simp only [hexpl]
    rfl

theorem evaluate_eq_ok {p : EvalPipeline D} {newV4 : Uuid} {ctx : EvalContext D}
    {caps : CapabilitySet} {patch : StrategyPatch D} :
    p.evaluate newV4 ctx caps = .ok patch ↔
      p.refusal (childContext newV4 ctx) = none ∧ patch = p.runPatch (childContext newV4 ctx) := by
  rw [evaluate_eq]
  cases p.refusal (childContext newV4 ctx) with
  | some e => simp
  | none => simp [eq_comm]

end EvalPipeline

end DarqEval
