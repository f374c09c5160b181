import DarqEval.Capability
import DarqEval.Context
import DarqEval.Trace
import Mathlib.Data.Int.Order.Basic
import Mathlib.Data.Prod.Lex
import Mathlib.Data.String.Basic

namespace DarqEval

/-!
# Strategies

The pluggable evaluation logic.  A strategy runs in one of three phases and returns a
`StrategyPatch`: artifacts, findings, proposals, explanations and a control directive.

`EvalStrategy` is the trait object.  One run of a pipeline evaluates each of its strategies at
most once, so whatever a strategy reads besides its arguments (a clock, a state of its own),
its answer in that run is a function of the context and the capabilities.
-/

/-- The three phases of pipeline evaluation. -/
inductive Phase where
  | enrich
  | evaluate
  | decide
deriving DecidableEq

namespace Phase

/-- The discriminant of a phase, which its derived order compares. -/
def toNat : Phase → Nat
  | .enrich => 0
  | .evaluate => 1
  | .decide => 2

theorem toNat_injective : Function.Injective toNat := by
  intro a b h
  cases a <;> cases b <;> first | rfl | cases h

instance : LinearOrder Phase := LinearOrder.lift' toNat toNat_injective

/-- The `Display` text of a phase. -/
def toString : Phase → String
  | .enrich => "Enrich"
  | .evaluate => "Evaluate"
  | .decide => "Decide"

end Phase

/-- Semantic version of a strategy. -/
structure StrategyVersion where
  major : UInt32
  minor : UInt32
  patch : UInt32
deriving DecidableEq

/-- The `Display` text of a version. -/
def StrategyVersion.toString (v : StrategyVersion) : String :=
  v.major.toNat.repr ++ "." ++ v.minor.toNat.repr ++ "." ++ v.patch.toNat.repr

/-- A named metric in a decision basis. -/
structure BasisMetric where
  name : String
  value : F64
  unit : Option String
deriving DecidableEq

/-- The evidence and rationale supporting a proposal. -/
structure DecisionBasis where
  metrics : List BasisMetric
  artifactRefs : List String
  policyRefs : List String
  rationale : String
deriving DecidableEq

/-- A proposed decision output with its supporting evidence. -/
structure Proposal (D : Decision) where
  output : D.Output
  proposedBy : String
  basis : DecisionBasis

/-- Severity levels for findings. -/
inductive Severity where
  | info
  | warning
  | critical
deriving DecidableEq

/-- A finding produced by a strategy. -/
structure Finding where
  source : String
  severity : Severity
  code : String
  message : String
  artifactRefs : List String
deriving DecidableEq

/-- Reason for escalating a decision to human review. -/
structure ReviewReason where
  code : String
  message : String
deriving DecidableEq

/-- Reason for denying a decision. -/
structure DenyReason where
  code : String
  message : String
deriving DecidableEq

/-- Reason for halting the pipeline. -/
structure HaltReason where
  code : String
  message : String
deriving DecidableEq

/-- The final disposition of a decision. -/
inductive DecisionDisposition (D : Decision) where
  | auto (output : D.Output)
  | review (provisional : Option D.Output) (reasons : List ReviewReason)
  | deny (reasons : List DenyReason)

/-- Control flow directive from a strategy. -/
inductive Control (D : Decision) where
  | continue
  | finalize (disposition : DecisionDisposition D)
  | escalate (reason : ReviewReason)
  | halt (reason : HaltReason)

/-- The output of a strategy execution, merged into the pipeline context. -/
structure StrategyPatch (D : Decision) where
  artifacts : List Artifact
  findings : List Finding
  proposals : List (Proposal D)
  explanations : List ExplanationNode
  control : Control D

/-- Errors from strategy evaluation (engine failures, not business outcomes). -/
inductive EvalError where
  | missingArtifact (key : String)
  | capabilityError (reason : String)
  | internal (reason : String)
  | validationError (reason : String)
deriving DecidableEq

/-- The `Display` text of an evaluation error. -/
def EvalError.toString : EvalError → String
  | .missingArtifact key => "missing artifact: " ++ key
  | .capabilityError reason => "capability error: " ++ reason
  | .internal reason => "internal error: " ++ reason
  | .validationError reason => "validation error: " ++ reason

/-- `dyn EvalStrategy<D>`: a pluggable evaluation strategy.  `priority` is an `i32`. -/
structure EvalStrategy (D : Decision) where
  id : String
  version : StrategyVersion
  phase : Phase
  priority : Int
  evaluate : EvalContext D → CapabilitySet → Except EvalError (StrategyPatch D)

/-- The key `(phase, priority, id)` strategies are sorted by. -/
def EvalStrategy.sortKey {D : Decision} (s : EvalStrategy D) : Phase ×ₗ Int ×ₗ String :=
  -- `str` is ordered by bytes, which in UTF-8 is the order of the code points
  toLex (s.phase, toLex (s.priority, s.id))

end DarqEval
