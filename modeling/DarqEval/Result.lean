import DarqEval.Strategy

namespace DarqEval

/-!
# Evaluation results and snapshots

The complete output of a pipeline run, with the snapshot taken for replay.
-/

/-- The outcome of a single pipeline step. -/
inductive StepOutcome where
  | continued
  | finalized
  | escalated
  | halted (reason : String)
  | failed (error : String)
  | finalizeIgnored
deriving DecidableEq

/-- A record of a single pipeline step execution. -/
structure PipelineStep where
  strategy : String
  phase : String
  outcome : StepOutcome
deriving DecidableEq

/-- Replay fidelity level for snapshots. -/
inductive ReplayFidelity where
  | semantic
  | exact
deriving DecidableEq

/-- A snapshot of a pipeline evaluation for replay or audit. -/
structure Snapshot where
  evalId : Uuid
  decisionKind : String
  mode : EvalMode
  fidelity : ReplayFidelity
  runMeta : RunMeta
  inputJson : Value
  constraintsJson : Value
  policyBundle : PolicyBundle
  artifacts : List Artifact
  strategyVersions : List (String × String)

/-- Capture a snapshot from a completed evaluation: all artifacts with `exact` fidelity, the
    external ones with `semantic`. -/
def Snapshot.capture (D : Decision) (evalId : Uuid) (mode : EvalMode) (fidelity : ReplayFidelity)
    (runMeta : RunMeta) (input : D.Input) (constraints : D.Constraints) (policy : PolicyBundle)
    (artifacts : ArtifactStore) (strategyVersions : List (String × String)) : Snapshot where
  evalId := evalId
  decisionKind := D.kind
  mode := mode
  fidelity := fidelity
  runMeta := runMeta
  inputJson := (D.inputToValue input).getD default
  constraintsJson := (D.constraintsToValue constraints).getD default
  policyBundle := policy
  artifacts :=
    match fidelity with
    | .exact => artifacts.intoEntries
    | .semantic => artifacts.intoEntries.filter (fun a => a.replayClass = .external)
  strategyVersions := strategyVersions

/-- The complete result of a pipeline evaluation. -/
structure EvalResult (D : Decision) where
  evalId : Uuid
  pipeline : String
  disposition : Option (DecisionDisposition D)
  proposals : List (Proposal D)
  findings : List Finding
  artifacts : ArtifactStore
  steps : List PipelineStep
  trace : TraceHandle
  snapshot : Snapshot

end DarqEval
