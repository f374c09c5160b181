import DarqEval.Lib.Stages
import DarqEval.Pipeline

namespace DarqEval

open Lib

/-!
# What one visit does

A *visit* is one strategy evaluation of a run: the strategy, the context it was given and the
output it returned.  All that an iteration of the loop of `execute` does follows from them:

* `stopping`, `verdict`, `halts`, `failure` — how the output bears on the run;
* `stepOf`, `eventsOf`, `explanationsOf` — what is recorded for it;
* `runStrategy_eq` — one iteration absorbs the output into the loop's locals and ends as the
  output says.
-/

variable {D : Decision}

/-- What evaluating a strategy returns. -/
abbrev Output (D : Decision) := Except EvalError (StrategyPatch D)

/-- One strategy evaluation of a run. -/
abbrev StrategyVisit (D : Decision) := Visit (EvalStrategy D) (EvalContext D) (Output D)

/-! ### What one visit contributes -/

/-- The context after the output's patch, if any, is merged. -/
def Output.commit (out : Output D) (ctx : EvalContext D) : EvalContext D :=
  match out with
  | .ok patch => ctx.merge patch.artifacts
  | .error _ => ctx

/-- Whether a strategy of the given phase stops the run by its output. -/
def stopping (failFast : Bool) (phase : Phase) : Output D → Bool
  | .ok patch =>
    match patch.control with
    | .continue => false
    -- outside the Decide phase a finalization is downgraded to `Continue`
    | .finalize _ => decide (phase = .decide)
    | .escalate _ => true
    | .halt _ => true
  | .error _ => failFast

/-- The disposition a strategy of the given phase decides on by its output. -/
def verdict (phase : Phase) : Output D → Option (DecisionDisposition D)
  | .ok patch =>
    match patch.control with
    | .continue => none
    | .finalize disp => if phase = .decide then some disp else none
    -- an escalation is honoured in every phase
    | .escalate reason => some (.review none [reason])
    | .halt _ => none
  | .error _ => none

/-- Whether the output halts the run. -/
def halts : Output D → Bool
  | .ok ⟨_, _, _, _, .halt _⟩ => true
  | _ => false

/-- The error a strategy returns from the run by its output. -/
def failure (failFast : Bool) (s : EvalStrategy D) : Output D → Option PipelineError
  | .ok _ => none
  | .error e => if failFast then some (.strategyFailed s.id e) else none

/-- The outcome of the step recorded for an output. -/
def outcomeOf (phase : Phase) : Output D → StepOutcome
  | .ok patch =>
    match patch.control with
    | .continue => .continued
    | .finalize _ => if phase = .decide then .finalized else .finalizeIgnored
    | .escalate _ => .escalated
    | .halt reason => .halted reason.message
  | .error e => .failed e.toString

/-- The step recorded for a strategy and its output. -/
def stepOf (s : EvalStrategy D) (out : Output D) : PipelineStep :=
  ⟨s.id, s.phase.toString, outcomeOf s.phase out⟩

/-- The events recorded for the control directive of a merged patch. -/
def controlEvents (s : EvalStrategy D) : Control D → List TraceEvent
  | .finalize _ =>
    if s.phase = .decide then [.decisionFinalized s.id]
    else [.finalizeIgnored s.id s.phase.toString]
  | _ => []

/-- The block of events recorded for a strategy and its output. -/
def eventsOf (s : EvalStrategy D) (out : Output D) : List TraceEvent :=
  .strategyStarted s.id s.phase.toString ::
    match out with
    | .ok patch =>
      .strategyCompleted s.id s.phase.toString :: .patchMerged s.id patch.artifacts.length ::
        controlEvents s patch.control
    | .error e => [.strategyFailed s.id e.toString]

/-- The pipeline's own explanation of a control directive. -/
def controlExplanations (s : EvalStrategy D) : Control D → List ExplanationNode
  | .finalize _ =>
    if s.phase = .decide then []
    else
      [{ source := s.id
         kind := .invariantViolation
         detail := "Control::Finalize emitted in " ++ s.phase.toString ++
           " phase — downgraded to Continue"
         artifactRefs := []
         policyRefs := [] }]
  | .escalate reason =>
    [{ source := s.id
       kind := .escalationTriggered
       detail := reason.message
       artifactRefs := []
       policyRefs := [] }]
  | _ => []

/-- The explanations recorded for a strategy and its output. -/
def explanationsOf (s : EvalStrategy D) : Output D → List ExplanationNode
  | .ok patch => patch.explanations ++ controlExplanations s patch.control
  | .error _ => []

/-- The events of a change from the current phase, if any, to the next one. -/
def transition (current : Option Phase) (phase : Phase) : List TraceEvent :=
  if current = some phase then []
  else closing current ++ [.phaseStarted phase.toString]
where
  /-- The event that closes the current phase. -/
  closing : Option Phase → List TraceEvent
    | some prev => [.phaseCompleted prev.toString]
    | none => []

/-- The patch of an output, if it is one. -/
def patchOf (out : Output D) : List (StrategyPatch D) := out.toOption.toList

@[simp] theorem patchOf_ok (patch : StrategyPatch D) :
    patchOf (.ok patch : Output D) = [patch] := rfl
@[simp] theorem patchOf_error (e : EvalError) : patchOf (.error e : Output D) = [] := rfl

theorem mem_patchOf {out : Output D} {patch : StrategyPatch D} :
    patch ∈ patchOf out ↔ out = .ok patch := by
  cases out with
  | error e => simp
  | ok p => simp [eq_comm]

theorem commit_eq (out : Output D) (ctx : EvalContext D) :
    Output.commit out ctx = ctx.merge ((patchOf out).flatMap StrategyPatch.artifacts) := by
  cases out with
  | error e => simp [Output.commit]
  | ok patch => simp [Output.commit]

/-- A strategy decides on a disposition by finalizing it in the Decide phase, or by escalating. -/
theorem verdict_eq_some {phase : Phase} {out : Output D} {disp : DecisionDisposition D} :
    verdict phase out = some disp ↔ ∃ patch, out = .ok patch ∧
      ((patch.control = .finalize disp ∧ phase = .decide) ∨
        ∃ reason, patch.control = .escalate reason ∧ disp = .review none [reason]) := by
  match out with
  | .error e => simp [verdict]
  | .ok ⟨_, _, _, _, control⟩ =>
    cases control with
    | «continue» => simp [verdict]
    | halt reason => simp [verdict]
    | escalate reason => simp [verdict, eq_comm]
    | finalize disp' =>
      by_cases hphase : phase = .decide
      · simp [verdict, hphase]
      · simp [verdict, hphase]

/-- A strategy that decides on a disposition stops the run. -/
theorem stopping_of_verdict {failFast : Bool} {phase : Phase} {out : Output D}
    {disp : DecisionDisposition D} (h : verdict phase out = some disp) :
    stopping failFast phase out = true := by
  match out with
  | .error e => simp [verdict] at h
  | .ok ⟨_, _, _, _, control⟩ => cases control <;> simp_all [verdict, stopping]

/-- A strategy that halts decides on nothing. -/
theorem verdict_of_halts {phase : Phase} {out : Output D} (h : halts out = true) :
    verdict phase out = none := by
  match out with
  | .error e => rfl
  | .ok ⟨_, _, _, _, control⟩ => cases control <;> simp_all [verdict, halts]

/-- A strategy that halts stops the run. -/
theorem stopping_of_halts {failFast : Bool} {phase : Phase} {out : Output D}
    (h : halts out = true) : stopping failFast phase out = true := by
  match out with
  | .error e => simp [halts] at h
  | .ok ⟨_, _, _, _, control⟩ => cases control <;> simp_all [stopping, halts]

/-- A strategy whose error is returned stops the run. -/
theorem stopping_of_failure {failFast : Bool} {s : EvalStrategy D} {out : Output D}
    {e : PipelineError} (h : failure failFast s out = some e) :
    stopping failFast s.phase out = true := by
  cases out with
  | ok patch => simp [failure] at h
  | error e => cases failFast <;> simp_all [failure, stopping]

/-! ### One iteration absorbs one visit -/

/-- The loop's locals after a strategy and its output. -/
def LoopState.absorb (st : LoopState D) (s : EvalStrategy D) (out : Output D) : LoopState D where
  ctx := Output.commit out st.ctx
  trace := (st.trace.recordAll (transition st.currentPhase s.phase ++ eventsOf s out)).explainAll
    (explanationsOf s out)
  steps := st.steps ++ [stepOf s out]
  allFindings := st.allFindings ++ (patchOf out).flatMap StrategyPatch.findings
  allProposals := st.allProposals ++ (patchOf out).flatMap StrategyPatch.proposals
  disposition := (verdict s.phase out).or st.disposition
  strategyVersions := st.strategyVersions ++ [(s.id, s.version.toString)]
  currentPhase := some s.phase
  halted := halts out || st.halted

/-- How an iteration ends whose locals became `st`. -/
def Flow.ofOutput (failFast : Bool) (s : EvalStrategy D) (out : Output D) (st : LoopState D) :
    Flow D :=
  match failure failFast s out with
  | some e => .fail st e
  | none => if stopping failFast s.phase out then .break st else .next st

theorem closePhase_eq (st : LoopState D) :
    st.closePhase = { st with trace := st.trace.recordAll (transition.closing st.currentPhase) } := by
  obtain ⟨_, _, _, _, _, _, _, current, _⟩ := st
  cases current <;> rfl

theorem enterPhase_eq (st : LoopState D) (phase : Phase) :
    st.enterPhase phase = { st with
      currentPhase := some phase
      trace := st.trace.recordAll (transition st.currentPhase phase) } := by
  unfold LoopState.enterPhase transition
  by_cases h : st.currentPhase = some phase
  · simp [h]
    rw [← h]
  · simp only [ne_eq, h, not_false_eq_true, if_true, if_false, closePhase_eq,
      TraceHandle.recordAll_append]
    rfl

theorem startStrategy_eq (st : LoopState D) (s : EvalStrategy D) :
    st.startStrategy s = { st with
      currentPhase := some s.phase
      strategyVersions := st.strategyVersions ++ [(s.id, s.version.toString)]
      trace := (st.trace.recordAll (transition st.currentPhase s.phase)).record
        (.strategyStarted s.id s.phase.toString) } := by
  simp only [LoopState.startStrategy, enterPhase_eq]

/-- Acting on the control directive of a patch merged into `st` ends the iteration as the
    output says. -/
theorem processControl_eq (failFast : Bool) (st : LoopState D) (s : EvalStrategy D)
    (patch : StrategyPatch D) :
    st.processControl s patch.control =
      Flow.ofOutput failFast s (.ok patch) { st with
        trace := (st.trace.recordAll (controlEvents s patch.control)).explainAll
          (controlExplanations s patch.control)
        steps := st.steps ++ [stepOf s (.ok patch)]
        disposition := (verdict s.phase (.ok patch)).or st.disposition
        halted := halts (.ok patch : Output D) || st.halted } := by
  obtain ⟨artifacts, findings, proposals, explanations, control⟩ := patch
  cases control
  case «continue» => simp [LoopState.processControl, Flow.ofOutput, failure, stopping, controlEvents,
    controlExplanations, stepOf, outcomeOf, verdict, halts, LoopState.pushStep]
  case finalize disp =>
    by_cases hphase : s.phase = .decide <;>
      simp [LoopState.processControl, Flow.ofOutput, failure, stopping, controlEvents,
        controlExplanations, stepOf, outcomeOf, verdict, halts, LoopState.pushStep, hphase] <;> rfl
  case escalate reason =>
    simp [LoopState.processControl, Flow.ofOutput, failure, stopping, controlEvents,
      controlExplanations, stepOf, outcomeOf, verdict, halts, LoopState.pushStep]
    rfl
  case halt reason =>
    simp [LoopState.processControl, Flow.ofOutput, failure, stopping, controlEvents,
      controlExplanations, stepOf, outcomeOf, verdict, halts, LoopState.pushStep]

/-- **Step lemma.** One iteration of the loop absorbs its strategy's output and ends as the
    output says. -/
theorem runStrategy_eq (p : EvalPipeline D) (st : LoopState D) (s : EvalStrategy D) :
    p.runStrategy st s =
      let out := s.evaluate st.ctx p.capabilities
      Flow.ofOutput p.failFast s out (st.absorb s out) := by
  have hctx : (st.startStrategy s).ctx = st.ctx := by rw [startStrategy_eq]
  simp only [EvalPipeline.runStrategy, hctx]
  cases hout : s.evaluate st.ctx p.capabilities with
  | error e =>
    -- under `fail_fast` the error is returned, otherwise only recorded
    cases hff : p.failFast <;>
      simp [LoopState.strategyFailed, Flow.ofOutput, failure, stopping, LoopState.absorb,
        startStrategy_eq, LoopState.pushStep, TraceHandle.recordAll_append,
        eventsOf, explanationsOf, Output.commit, stepOf, outcomeOf, verdict, halts] <;> rfl
  | ok patch =>
    simp only [processControl_eq p.failFast]
    congr 1
    -- merging records its events around the explanations, `absorb` all events first
    simp only [LoopState.absorb, startStrategy_eq, LoopState.mergePatch, eventsOf,
      explanationsOf, Output.commit, patchOf_ok, List.flatMap_cons, List.flatMap_nil,
      List.append_nil, TraceHandle.recordAll_append, TraceHandle.recordAll_cons,
      TraceHandle.explainAll_append, TraceHandle.record_explainAll,
      TraceHandle.recordAll_explainAll]

end DarqEval
