import DarqEval.Lib.SortBy
import DarqEval.Result

namespace DarqEval

/-!
# The evaluation pipeline

`EvalPipeline.execute` sorts the strategies by `(phase, priority, id)`, evaluates them in turn,
merges each patch into the context and acts on its control directive.  The loop is a step
function on the loop's mutable locals:

* `LoopState` — those locals, the caller's `&mut` context among them;
* `Flow` — how an iteration ends: go on, `break`, or return an error;
* `runStrategy` — one iteration, `runStrategies` — the loop, `finish` — what follows it.

The context is part of the outcome (`Execution`) also when `execute` returns an error.
`toStrategy` is the pipeline's own `EvalStrategy` implementation, by which pipelines nest.
-/

variable {D : Decision}

/-- Errors from pipeline execution (engine failures, not business outcomes). -/
inductive PipelineError where
  | inputValidation (e : ValidationError)
  | outputValidation (e : ValidationError)
  | strategyFailed (strategy : String) (error : EvalError)
  | internal (reason : String)
deriving DecidableEq

/-- The `Display` text of a pipeline error. -/
def PipelineError.toString : PipelineError → String
  | .inputValidation e => "input validation failed: " ++ e.toString
  | .outputValidation e => "output validation failed: " ++ e.toString
  | .strategyFailed strategy error => "strategy '" ++ strategy ++ "' failed: " ++ error.toString
  | .internal reason => "internal pipeline error: " ++ reason

/-- An evaluation pipeline. -/
structure EvalPipeline (D : Decision) where
  name : String
  strategies : List (EvalStrategy D)
  capabilities : CapabilitySet
  enforceConstraints : Bool
  failFast : Bool

/-- What a call of `execute` leaves behind: the caller's context and the returned result. -/
structure Execution (D : Decision) where
  ctx : EvalContext D
  result : Except PipelineError (EvalResult D)

/-! ### The strategy loop -/

/-- The mutable locals of `execute`. -/
structure LoopState (D : Decision) where
  ctx : EvalContext D
  trace : TraceHandle
  steps : List PipelineStep
  allFindings : List Finding
  allProposals : List (Proposal D)
  disposition : Option (DecisionDisposition D)
  strategyVersions : List (String × String)
  currentPhase : Option Phase
  halted : Bool

/-- How an iteration of the loop ends. -/
inductive Flow (D : Decision) where
  | next (st : LoopState D)
  | break (st : LoopState D)
  | fail (st : LoopState D) (e : PipelineError)

namespace LoopState

/-- The locals before the first iteration. -/
def init (ctx : EvalContext D) (trace : TraceHandle) : LoopState D where
  ctx := ctx
  trace := trace
  steps := []
  allFindings := []
  allProposals := []
  disposition := none
  strategyVersions := []
  currentPhase := none
  halted := false

/-- `steps.push(..)` for the strategy at hand. -/
def pushStep (st : LoopState D) (s : EvalStrategy D) (outcome : StepOutcome) : LoopState D :=
  { st with steps := st.steps ++ [⟨s.id, s.phase.toString, outcome⟩] }

/-- Record that the current phase, if any, is over. -/
def closePhase (st : LoopState D) : LoopState D :=
  match st.currentPhase with
  | some prev => { st with trace := st.trace.record (.phaseCompleted prev.toString) }
  | none => st

/-- Record a phase transition if the strategy's phase is not the current one. -/
def enterPhase (st : LoopState D) (phase : Phase) : LoopState D :=
  if st.currentPhase ≠ some phase then
    let st := st.closePhase
    { st with
      currentPhase := some phase
      trace := st.trace.record (.phaseStarted phase.toString) }
  else st

/-- What an iteration records before it evaluates its strategy. -/
def startStrategy (st : LoopState D) (s : EvalStrategy D) : LoopState D :=
  let st := st.enterPhase s.phase
  { st with
    strategyVersions := st.strategyVersions ++ [(s.id, s.version.toString)]
    trace := st.trace.record (.strategyStarted s.id s.phase.toString) }

/-- Merge a returned patch into the context and the accumulators. -/
def mergePatch (st : LoopState D) (s : EvalStrategy D) (patch : StrategyPatch D) :
    LoopState D :=
  let trace := st.trace.record (.strategyCompleted s.id s.phase.toString)
  -- the strategy's own explanations come before those of its control directive
  let trace := trace.explainAll patch.explanations
  { st with
    ctx := st.ctx.merge patch.artifacts
    allFindings := st.allFindings ++ patch.findings
    allProposals := st.allProposals ++ patch.proposals
    trace := trace.record (.patchMerged s.id patch.artifacts.length) }

/-- Act on the control directive of a merged patch. -/
def processControl (st : LoopState D) (s : EvalStrategy D) : Control D → Flow D
  | .continue => .next (st.pushStep s .continued)
  | .finalize disp =>
    -- `Finalize` is only valid in the Decide phase; elsewhere it is downgraded to `Continue`.
    if s.phase ≠ .decide then
      let trace := st.trace.record (.finalizeIgnored s.id s.phase.toString)
      let trace := trace.explain
        { source := s.id
          kind := .invariantViolation
          detail := "Control::Finalize emitted in " ++ s.phase.toString ++
            " phase — downgraded to Continue"
          artifactRefs := []
          policyRefs := [] }
      .next ({ st with trace := trace }.pushStep s .finalizeIgnored)
    else
      let trace := st.trace.record (.decisionFinalized s.id)
      .break ({ st with trace := trace, disposition := some disp }.pushStep s .finalized)
  | .escalate reason =>
    let trace := st.trace.explain
      { source := s.id
        kind := .escalationTriggered
        detail := reason.message
        artifactRefs := []
        policyRefs := [] }
    .break ({ st with trace := trace, disposition := some (.review none [reason]) }.pushStep
      s .escalated)
  | .halt reason => .break { st.pushStep s (.halted reason.message) with halted := true }

/-- Record a failed strategy; under `fail_fast` the error is returned. -/
def strategyFailed (st : LoopState D) (failFast : Bool) (s : EvalStrategy D) (e : EvalError) :
    Flow D :=
  let st := { st with trace := st.trace.record (.strategyFailed s.id e.toString) }
  let st := st.pushStep s (.failed e.toString)
  -- a failure that is not returned leaves no patch, and the next strategy runs
  if failFast then .fail st (.strategyFailed s.id e) else .next st

end LoopState

namespace EvalPipeline

/-- Create a new pipeline with the given name. -/
def new (D : Decision) (name : String) : EvalPipeline D := ⟨name, [], .new, true, true⟩

/-- Add a strategy to this pipeline. -/
def addStrategy (p : EvalPipeline D) (s : EvalStrategy D) : EvalPipeline D :=
  { p with strategies := p.strategies ++ [s] }

/-- Set the capability set for this pipeline. -/
def withCapabilities (p : EvalPipeline D) (capabilities : CapabilitySet) : EvalPipeline D :=
  { p with capabilities := capabilities }

/-- Set whether to enforce output constraints. -/
def withEnforceConstraints (p : EvalPipeline D) (enforce : Bool) : EvalPipeline D :=
  { p with enforceConstraints := enforce }

/-- Set whether to fail fast on strategy errors. -/
def withFailFast (p : EvalPipeline D) (failFast : Bool) : EvalPipeline D :=
  { p with failFast := failFast }

theorem foldl_addStrategy (ss : List (EvalStrategy D)) (p : EvalPipeline D) :
    ss.foldl addStrategy p = { p with strategies := p.strategies ++ ss } := by
  induction ss generalizing p with
  | nil => simp
  | cons s ss ih =>
    rw [List.foldl_cons, ih]
    simp [addStrategy]

/-- The builder makes every pipeline: a result about all of them is one about those that were
    built, with their strategies in the order of registration. -/
theorem build_eq (p : EvalPipeline D) :
    (((p.strategies.foldl addStrategy (new D p.name)).withCapabilities
      p.capabilities).withEnforceConstraints p.enforceConstraints).withFailFast p.failFast = p := by
  rw [foldl_addStrategy]
  rfl

/-- The strategies in the order of the stable sort by `(phase, priority, id)`. -/
def order (p : EvalPipeline D) : List (EvalStrategy D) :=
  Lib.sortBy EvalStrategy.sortKey p.strategies

/-- One iteration of the loop: evaluate a strategy and merge what it returned. -/
def runStrategy (p : EvalPipeline D) (st : LoopState D) (s : EvalStrategy D) : Flow D :=
  let st := st.startStrategy s
  match s.evaluate st.ctx p.capabilities with
  | .ok patch => (st.mergePatch s patch).processControl s patch.control
  | .error e => st.strategyFailed p.failFast s e

/-- The loop over the sorted strategies, with the error it returned, if any. -/
def runStrategies (p : EvalPipeline D) :
    List (EvalStrategy D) → LoopState D → LoopState D × Option PipelineError
  | [], st => (st, none)
  | s :: rest, st =>
    match p.runStrategy st s with
    | .next st => p.runStrategies rest st
    | .break st => (st, none)
    | .fail st e => (st, some e)

/-- Validate an automatic output if constraints are enforced and the run was not halted. -/
def validateOutput (p : EvalPipeline D) (st : LoopState D) : Except PipelineError (LoopState D) :=
  if p.enforceConstraints && !st.halted then
    match st.disposition with
    | some (.auto output) =>
      match D.validateOutput output st.ctx.constraints with
      | .error e => .error (.outputValidation e)
      | .ok () => .ok { st with trace := st.trace.record .outputValidated }
    | _ => .ok st
  else .ok st

/-- The result of a completed run, with its snapshot. -/
def toResult (p : EvalPipeline D) (st : LoopState D) : EvalResult D where
  evalId := st.ctx.evalId
  pipeline := p.name
  disposition := st.disposition
  proposals := st.allProposals
  findings := st.allFindings
  artifacts := st.ctx.artifacts
  steps := st.steps
  trace := st.trace.record .pipelineCompleted
  snapshot := Snapshot.capture D st.ctx.evalId st.ctx.mode .exact st.ctx.runMeta st.ctx.input
    st.ctx.constraints st.ctx.policy st.ctx.artifacts st.strategyVersions

/-- What `execute` does behind the loop. -/
def finish (p : EvalPipeline D) (st : LoopState D) : Execution D :=
  ⟨st.ctx, (p.validateOutput st.closePhase).map p.toResult⟩

/-- Execute the pipeline against the given context. -/
def execute (p : EvalPipeline D) (ctx : EvalContext D) : Execution D :=
  let trace := TraceHandle.new ctx.evalId
  match D.validateInput ctx.input with
  | .error e => ⟨ctx, .error (.inputValidation e)⟩
  | .ok () =>
    match p.runStrategies p.order (.init ctx (trace.record .inputValidated)) with
    | (st, some e) => ⟨st.ctx, .error e⟩
    | (st, none) => p.finish st

/-! ### Pipelines as strategies -/

/-- The earliest phase of the strategies, `Enrich` if there is none. -/
def phase (p : EvalPipeline D) : Phase :=
  (p.strategies.map EvalStrategy.phase).min?.getD .enrich

/-- The child context of a nested evaluation, under a fresh identifier. -/
def childContext (newV4 : Uuid) (ctx : EvalContext D) : EvalContext D :=
  { ctx with evalId := newV4, memo := .new }

/-- `EvalStrategy::evaluate` of a pipeline; `newV4` is the identifier `Uuid::new_v4` draws. -/
def evaluate (p : EvalPipeline D) (newV4 : Uuid) (ctx : EvalContext D)
    (_capabilities : CapabilitySet) : Except EvalError (StrategyPatch D) :=
  let child := p.execute (childContext newV4 ctx)
  match child.result with
  | .error e => .error (.internal ("sub-pipeline '" ++ p.name ++ "' failed: " ++ e.toString))
  | .ok result =>
    let parentLen := ctx.artifacts.len
    -- `skip(parent_len)`: what stands behind the entries copied from the parent
    let childArtifacts := child.ctx.artifacts.intoEntries.drop parentLen
    -- a run without a disposition continues, whether it ran through or was halted
    let control :=
      match result.disposition with
      | some disp => .finalize disp
      | none => .continue
    .ok ⟨childArtifacts, result.findings, result.proposals, result.trace.explanations, control⟩

/-- A pipeline as a strategy of another one. -/
def toStrategy (p : EvalPipeline D) (newV4 : Uuid) : EvalStrategy D where
  id := p.name
  version := ⟨0, 1, 0⟩
  phase := p.phase
  priority := 0
  evaluate := p.evaluate newV4

end EvalPipeline

/-! ### A decision small enough to run

Numbers bounded by a constraint, with leaf strategies that return a fixed control directive.
-/

namespace Sample

/-- Outputs must not exceed the constraint; every input is accepted. -/
def decision : Decision where
  kind := "sample"
  Input := Nat
  Output := Nat
  Constraints := Nat
  validateInput := fun _ => .ok ()
  validateOutput := fun output bound =>
    if output ≤ bound then .ok () else .error (.constraintViolation "too large" none)
  inputToValue := fun _ => some .null
  constraintsToValue := fun _ => some .null

/-- A context for the sample decision, with the constraint 10. -/
def context : EvalContext decision where
  evalId := 0
  input := (1 : Nat)
  constraints := (10 : Nat)
  policy := .new 0 "policy" "1.0.0"
  artifacts := .new
  memo := .new
  runMeta := ⟨"sample", "case", "tenant", "test", "run", "0.1.0", 0, ∅⟩
  mode := .live

/-- A leaf that returns the given control directive and nothing else. -/
def leaf (id : String) (phase : Phase) (control : Control decision) : EvalStrategy decision where
  id := id
  version := ⟨1, 0, 0⟩
  phase := phase
  priority := 0
  evaluate := fun _ _ => .ok ⟨[], [], [], [], control⟩

/-- A pipeline of the sample decision without capabilities. -/
def pipeline (strategies : List (EvalStrategy decision)) : EvalPipeline decision :=
  ⟨"sample", strategies, .new, true, true⟩

-- A decider approves, whatever an earlier phase tried to finalize.
example :
    ((pipeline [leaf "decider" .decide (.finalize (.auto (2 : Nat))),
        leaf "early" .evaluate (.finalize (.auto (9 : Nat)))]).execute context).result.map
      EvalResult.disposition = .ok (some (.auto (2 : Nat))) := rfl

end Sample

end DarqEval
