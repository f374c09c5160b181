import DarqEval.Primitives

namespace DarqEval

/-!
# Structured tracing

The audit trail of one evaluation run: events under consecutive sequence numbers, and the
explanations of the pipeline and its strategies.  Wall-clock timestamps are left out: they are
stamped on events and read by nothing.
-/

/-- Events recorded during pipeline evaluation. -/
inductive TraceEvent where
  | inputValidated
  | outputValidated
  | phaseStarted (phase : String)
  | phaseCompleted (phase : String)
  | strategyStarted (strategy phase : String)
  | strategyCompleted (strategy phase : String)
  | strategyFailed (strategy error : String)
  | patchMerged (strategy : String) (artifacts : Nat)
  | decisionFinalized (strategy : String)
  | pipelineCompleted
  | capabilityInvoked (capability key : String)
  | capabilityRecorded (capability key : String)
  | finalizeIgnored (strategy phase : String)
  | custom (kind detail : String)
deriving DecidableEq

/-- A trace event paired with its logical sequence number. -/
structure TimestampedEvent where
  seq : Nat
  event : TraceEvent
deriving DecidableEq

/-- Classification of explanation nodes. -/
inductive ExplanationKind where
  | ruleMatched
  | thresholdExceeded
  | evidenceMissing
  | proposalDominated
  | escalationTriggered
  | invariantViolation
  | enrichment
  | custom (kind : String)
deriving DecidableEq

/-- A structured explanation node for audit and analytics. -/
structure ExplanationNode where
  source : String
  kind : ExplanationKind
  detail : String
  artifactRefs : List String
  policyRefs : List String
deriving DecidableEq

/-- A handle to the trace of a single evaluation run.  The counter is a `u64` in the source,
    which a vector of events cannot outgrow. -/
structure TraceHandle where
  evalId : Uuid
  events : List TimestampedEvent
  explanations : List ExplanationNode
  seqCounter : Nat
deriving DecidableEq

namespace TraceHandle

/-- Create a new trace handle for the given evaluation ID. -/
def new (evalId : Uuid) : TraceHandle := ⟨evalId, [], [], 0⟩

/-- Record a trace event under the next sequence number. -/
def record (t : TraceHandle) (event : TraceEvent) : TraceHandle :=
  { t with events := t.events ++ [⟨t.seqCounter, event⟩], seqCounter := t.seqCounter + 1 }

/-- Add an explanation node to the trace. -/
def explain (t : TraceHandle) (node : ExplanationNode) : TraceHandle :=
  { t with explanations := t.explanations ++ [node] }

/-- Add multiple explanation nodes to the trace. -/
def explainAll (t : TraceHandle) (nodes : List ExplanationNode) : TraceHandle :=
  { t with explanations := t.explanations ++ nodes }

/-- Merge events and explanations from a child trace into this trace. -/
def merge (t child : TraceHandle) : TraceHandle :=
  (child.events.foldl (fun t e => t.record e.event) t).explainAll child.explanations

/-- Record several events in turn. -/
def recordAll (t : TraceHandle) (events : List TraceEvent) : TraceHandle :=
  events.foldl record t

/-! ### Traces up to the bookkeeping of sequence numbers -/

/-- The recorded events without their sequence numbers. -/
def payloads (t : TraceHandle) : List TraceEvent := t.events.map TimestampedEvent.event

@[simp] theorem payloads_new (evalId : Uuid) : (new evalId).payloads = [] := rfl
@[simp] theorem payloads_record (t : TraceHandle) (e : TraceEvent) :
    (t.record e).payloads = t.payloads ++ [e] := by simp [payloads, record]
@[simp] theorem payloads_explainAll (t : TraceHandle) (ns : List ExplanationNode) :
    (t.explainAll ns).payloads = t.payloads := rfl

@[simp] theorem payloads_recordAll (t : TraceHandle) (es : List TraceEvent) :
    (t.recordAll es).payloads = t.payloads ++ es := by
  induction es generalizing t with
  | nil => simp [recordAll]
  | cons e es ih =>
    show ((t.record e).recordAll es).payloads = _
    rw [ih, payloads_record, List.append_assoc, List.singleton_append]

@[simp] theorem explanations_new (evalId : Uuid) : (new evalId).explanations = [] := rfl
@[simp] theorem explanations_explainAll (t : TraceHandle) (ns : List ExplanationNode) :
    (t.explainAll ns).explanations = t.explanations ++ ns := rfl

@[simp] theorem explanations_recordAll (t : TraceHandle) (es : List TraceEvent) :
    (t.recordAll es).explanations = t.explanations := by
  induction es generalizing t with
  | nil => rfl
  | cons e es ih => exact ih (t.record e)

@[simp] theorem recordAll_nil (t : TraceHandle) : t.recordAll [] = t := rfl

theorem recordAll_cons (t : TraceHandle) (e : TraceEvent) (es : List TraceEvent) :
    t.recordAll (e :: es) = (t.record e).recordAll es := rfl

theorem recordAll_append (t : TraceHandle) (es fs : List TraceEvent) :
    t.recordAll (es ++ fs) = (t.recordAll es).recordAll fs := List.foldl_append

theorem explainAll_append (t : TraceHandle) (ms ns : List ExplanationNode) :
    t.explainAll (ms ++ ns) = (t.explainAll ms).explainAll ns := by
  simp [explainAll]

@[simp] theorem explainAll_nil (t : TraceHandle) : t.explainAll [] = t := by simp [explainAll]

theorem record_explainAll (t : TraceHandle) (ns : List ExplanationNode) (e : TraceEvent) :
    (t.explainAll ns).record e = (t.record e).explainAll ns := rfl

/-- Events and explanations are kept apart, so recording and explaining commute. -/
theorem recordAll_explainAll (t : TraceHandle) (ns : List ExplanationNode)
    (es : List TraceEvent) :
    (t.explainAll ns).recordAll es = (t.recordAll es).explainAll ns := by
  induction es generalizing t with
  | nil => rfl
  | cons e es ih => exact ih (t.record e)

/-- A merge records the payloads of the child anew. -/
theorem merge_eq (t child : TraceHandle) :
    t.merge child = (t.recordAll child.payloads).explainAll child.explanations := by
  rw [merge, recordAll, payloads, List.foldl_map]

/-! ### Sequence numbers -/

/-- Event number `i` carries sequence number `i`, and the counter is the next one. -/
structure Gapless (t : TraceHandle) : Prop where
  seq : t.events.map TimestampedEvent.seq = List.range t.events.length
  counter : t.seqCounter = t.events.length

theorem gapless_new (evalId : Uuid) : (new evalId).Gapless := ⟨rfl, rfl⟩

theorem Gapless.record {t : TraceHandle} (h : t.Gapless) (e : TraceEvent) :
    (t.record e).Gapless where
  seq := by
    simp only [TraceHandle.record, List.map_append, List.map_cons, List.map_nil, h.seq,
      List.length_append, List.length_singleton, List.range_succ, h.counter]
  counter := by simp [TraceHandle.record, h.counter]

theorem Gapless.explain {t : TraceHandle} (h : t.Gapless) (n : ExplanationNode) :
    (t.explain n).Gapless := ⟨h.seq, h.counter⟩

theorem Gapless.explainAll {t : TraceHandle} (h : t.Gapless) (ns : List ExplanationNode) :
    (t.explainAll ns).Gapless := ⟨h.seq, h.counter⟩

theorem Gapless.recordAll {t : TraceHandle} (h : t.Gapless) (es : List TraceEvent) :
    (t.recordAll es).Gapless := by
  induction es generalizing t with
  | nil => exact h
  | cons e es ih => exact ih (h.record e)

/-- A gapless trace is determined by its identifier, its payloads and its explanations. -/
theorem Gapless.events_eq {t : TraceHandle} (h : t.Gapless) :
    t.events = List.zipWith TimestampedEvent.mk (List.range t.payloads.length) t.payloads := by
  have hlen : t.payloads.length = t.events.length := List.length_map _
  rw [hlen, ← h.seq, payloads]
  clear h hlen
  induction t.events with
  | nil => rfl
  | cons e es ih => rw [List.map_cons, List.map_cons, List.zipWith_cons_cons, ← ih]

end TraceHandle

end DarqEval
