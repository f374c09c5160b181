import DarqEval.Artifact
import DarqEval.Decision
import DarqEval.Policy

namespace DarqEval

/-!
# The evaluation context

Everything a strategy is handed.  The pipeline owns the context and changes nothing in it but
the artifact store.
-/

/-- The mode of evaluation. -/
inductive EvalMode where
  | live
  | replay
  | shadow
  | simulation
deriving DecidableEq

/-- Metadata about an evaluation run. -/
structure RunMeta where
  decisionId : String
  caseId : String
  tenant : String
  triggeredBy : String
  reason : String
  engineVersion : String
  timestamp : DateTime
  tags : HashMap String String

namespace RunMeta

/-- Create metadata with the engine version set from the crate version. -/
def new (now : DateTime) (decisionId caseId tenant triggeredBy reason : String) : RunMeta :=
  ⟨decisionId, caseId, tenant, triggeredBy, reason, "0.1.0", now, ∅⟩

/-- Add a tag, in place of the one with its key, if there is one. -/
def withTag (info : RunMeta) (key value : String) : RunMeta :=
  { info with tags := info.tags.insert key value }

end RunMeta

/-- A boxed `dyn Any`: the identity of its type and its content. -/
structure AnyBox where
  typeName : String
  content : Value

/-- Ephemeral scratch storage, not replayed. -/
structure MemoStore where
  entries : HashMap String AnyBox

/-- Create an empty memo store. -/
def MemoStore.new : MemoStore := ⟨∅⟩

namespace MemoStore

/-- Store a value in the memo under a key, in place of any value there. -/
def set (memo : MemoStore) (key : String) (value : AnyBox) : MemoStore :=
  ⟨memo.entries.insert key value⟩

/-- Retrieve a value from the memo by key and type. -/
def get (memo : MemoStore) (key typeName : String) : Option Value :=
  -- `downcast_ref::<T>()`, which looks at the identity of the type only
  (memo.entries.lookup key).bind
    (fun value => if value.typeName = typeName then some value.content else none)

end MemoStore

/-- The evaluation context for a decision. -/
structure EvalContext (D : Decision) where
  evalId : Uuid
  input : D.Input
  constraints : D.Constraints
  policy : PolicyBundle
  artifacts : ArtifactStore
  memo : MemoStore
  runMeta : RunMeta
  mode : EvalMode

variable {D : Decision}

/-- Create a new evaluation context; `newV4` is the identifier `Uuid::new_v4` draws. -/
def EvalContext.new (newV4 : Uuid) (input : D.Input) (constraints : D.Constraints)
    (policy : PolicyBundle) (runMeta : RunMeta) (mode : EvalMode) : EvalContext D where
  evalId := newV4
  input := input
  constraints := constraints
  policy := policy
  artifacts := .new
  memo := .new
  runMeta := runMeta
  mode := mode

/-- The context after a patch's artifacts are merged. -/
def EvalContext.merge (ctx : EvalContext D) (artifacts : List Artifact) : EvalContext D :=
  { ctx with artifacts := ctx.artifacts.appendAll artifacts }

namespace EvalContext

@[simp] theorem merge_artifacts (ctx : EvalContext D) (xs : List Artifact) :
    (ctx.merge xs).artifacts = ctx.artifacts.appendAll xs := rfl
@[simp] theorem merge_input (ctx : EvalContext D) (xs : List Artifact) :
    (ctx.merge xs).input = ctx.input := rfl
@[simp] theorem merge_nil (ctx : EvalContext D) : ctx.merge [] = ctx := by
  simp [merge]

theorem merge_merge (ctx : EvalContext D) (xs ys : List Artifact) :
    (ctx.merge xs).merge ys = ctx.merge (xs ++ ys) := by
  simp [merge, ArtifactStore.appendAll_appendAll]

end EvalContext

end DarqEval
