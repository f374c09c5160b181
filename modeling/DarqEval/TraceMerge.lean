import DarqEval.Trace

namespace DarqEval

/-!
# Merging traces

The counter of a trace is a `u64` beside the vector of events, and a merge numbers the events of
a whole child trace anew.

* `Machine.TraceHandle` — a trace with its numbers as the machine holds them;
* `TraceHandle.toMachine` — the machine's view of a trace: its numbers wrapped around;
* `TraceCall`, `TraceCall.build` — calls on a trace, merged children being built by calls of
  their own, and the trace they build;
* `applyAll_toMachine` — calls in any order record their events and explain their explanations;
* `built_gapless` — with fewer than `2 ^ 64` events, the numbers have no gap.
-/

/-! ### Traces with machine integers -/

namespace Machine

/-- A trace event paired with its logical sequence number. -/
structure TimestampedEvent where
  seq : UInt64
  event : TraceEvent
deriving DecidableEq

/-- A handle to the trace of a single evaluation run. -/
structure TraceHandle where
  evalId : Uuid
  events : List TimestampedEvent
  explanations : List ExplanationNode
  seqCounter : UInt64
deriving DecidableEq

namespace TraceHandle

/-- Create a new trace handle for the given evaluation ID. -/
def new (evalId : Uuid) : TraceHandle := ⟨evalId, [], [], 0⟩

/-- Record a trace event under the next sequence number. -/
def record (t : TraceHandle) (event : TraceEvent) : TraceHandle :=
  -- `+= 1`, which a debug build checks for the overflow that is a wrap-around here
  { t with events := t.events ++ [⟨t.seqCounter, event⟩], seqCounter := t.seqCounter + 1 }

/-- Add an explanation node to the trace. -/
def explain (t : TraceHandle) (node : ExplanationNode) : TraceHandle :=
  { t with explanations := t.explanations ++ [node] }

/-- Add multiple explanation nodes to the trace. -/
def explainAll (t : TraceHandle) (nodes : List ExplanationNode) : TraceHandle :=
  { t with explanations := t.explanations ++ nodes }

/-- Merge events and explanations from a child trace into this trace. -/
def merge (t child : TraceHandle) : TraceHandle :=
  (child.events.foldl (fun t e => t.record e.event) t).explainAll child.explanations

end TraceHandle

end Machine

/-! ### The machine's view of a trace -/

/-- The event under its number as the machine holds it. -/
def TimestampedEvent.toMachine (e : TimestampedEvent) : Machine.TimestampedEvent :=
  ⟨UInt64.ofNat e.seq, e.event⟩

namespace TraceHandle

/-- The trace with its numbers as the machine holds them. -/
def toMachine (t : TraceHandle) : Machine.TraceHandle where
  evalId := t.evalId
  events := t.events.map TimestampedEvent.toMachine
  explanations := t.explanations
  seqCounter := UInt64.ofNat t.seqCounter

theorem toMachine_new (evalId : Uuid) : (new evalId).toMachine = .new evalId := rfl

theorem toMachine_record (t : TraceHandle) (e : TraceEvent) :
    t.toMachine.record e = (t.record e).toMachine := by
  simp [toMachine, record, Machine.TraceHandle.record, TimestampedEvent.toMachine,
    UInt64.ofNat_add]

theorem toMachine_explain (t : TraceHandle) (n : ExplanationNode) :
    t.toMachine.explain n = (t.explain n).toMachine := rfl

theorem toMachine_explainAll (t : TraceHandle) (ns : List ExplanationNode) :
    t.toMachine.explainAll ns = (t.explainAll ns).toMachine := rfl

/-- **Refinement.** The machine merges as it is meant to, whatever numbers the child carries. -/
theorem toMachine_merge (t child : TraceHandle) :
    t.toMachine.merge child.toMachine = (t.merge child).toMachine := by
  have hrecords : ∀ (es : List TimestampedEvent) (t : TraceHandle),
      (es.map TimestampedEvent.toMachine).foldl (fun t e => t.record e.event) t.toMachine =
        (es.foldl (fun t e => t.record e.event) t).toMachine := by
    intro es
    induction es with
    | nil => exact fun _ => rfl
    | cons e es ih =>
      intro t
      rw [List.map_cons, List.foldl_cons, List.foldl_cons, ← ih (t.record e.event),
        ← toMachine_record]
      rfl
  rw [Machine.TraceHandle.merge, merge, ← toMachine_explainAll, ← hrecords]
  rfl

theorem payloads_toMachine (t : TraceHandle) :
    t.toMachine.events.map Machine.TimestampedEvent.event = t.payloads := by
  rw [toMachine, List.map_map]
  rfl

/-- **No wrap-around.** With fewer than `2 ^ 64` events, the machine's numbers are those of the
    trace: event number `i` carries `i`, and the counter is the number of events. -/
theorem Gapless.toMachine {t : TraceHandle} (h : t.Gapless)
    (hcount : t.events.length < UInt64.size) :
    (∀ (i : Nat) (hi : i < t.toMachine.events.length), (t.toMachine.events[i]).seq.toNat = i) ∧
      t.toMachine.seqCounter.toNat = t.toMachine.events.length := by
  have hlength : t.toMachine.events.length = t.events.length := List.length_map _
  constructor
  · intro i hi
    have hi' : i < t.events.length := by omega
    have hseq : t.events[i].seq = i := by
      have hmap := congrArg (fun l => l[i]?) h.seq
      simpa [hi'] using hmap
    have hevent : t.toMachine.events[i] = t.events[i].toMachine := by
      simp [TraceHandle.toMachine]
    have hsmall : i < UInt64.size := Nat.lt_trans hi' hcount
    rw [hevent, TimestampedEvent.toMachine, hseq]
    exact UInt64.toNat_ofNat_of_lt' hsmall
  · show (UInt64.ofNat t.seqCounter).toNat = _
    rw [hlength, h.counter]
    exact UInt64.toNat_ofNat_of_lt' hcount

end TraceHandle

/-! ### Calls -/

/-- A call on a trace; a merged child is built by calls of its own. -/
inductive TraceCall where
  | record (event : TraceEvent)
  | explain (node : ExplanationNode)
  | explainAll (nodes : List ExplanationNode)
  | merge (evalId : Uuid) (calls : List TraceCall)

namespace TraceCall

mutual

/-- The trace after a call. -/
def apply (t : Machine.TraceHandle) : TraceCall → Machine.TraceHandle
  | .record event => t.record event
  | .explain node => t.explain node
  | .explainAll nodes => t.explainAll nodes
  | .merge evalId calls => t.merge (applyAll (.new evalId) calls)

/-- The trace after calls, one after another. -/
def applyAll (t : Machine.TraceHandle) : List TraceCall → Machine.TraceHandle
  | [] => t
  | call :: calls => applyAll (call.apply t) calls

end

/-- The trace built by calls from a new one. -/
def build (evalId : Uuid) (calls : List TraceCall) : Machine.TraceHandle :=
  applyAll (.new evalId) calls

mutual

/-- The events a call records: for a merge, those of the calls that built the child. -/
def events : TraceCall → List TraceEvent
  | .record event => [event]
  | .explain _ => []
  | .explainAll _ => []
  | .merge _ calls => eventsAll calls

def eventsAll : List TraceCall → List TraceEvent
  | [] => []
  | call :: calls => call.events ++ eventsAll calls

end

mutual

/-- The explanations a call adds: for a merge, those of the calls that built the child. -/
def explanations : TraceCall → List ExplanationNode
  | .record _ => []
  | .explain node => [node]
  | .explainAll nodes => nodes
  | .merge _ calls => explanationsAll calls

def explanationsAll : List TraceCall → List ExplanationNode
  | [] => []
  | call :: calls => call.explanations ++ explanationsAll calls

end

/-! ### What calls build -/

mutual

/-- **Step.** A call records its events and adds its explanations, in whatever way the child of a
    merge was built. -/
theorem apply_toMachine : ∀ (t : TraceHandle) (call : TraceCall),
    call.apply t.toMachine =
      ((t.recordAll call.events).explainAll call.explanations).toMachine
  | t, .record event => by
    rw [apply, TraceHandle.toMachine_record, explanations, TraceHandle.explainAll_nil]
    rfl
  | t, .explain node => by
    rw [apply, TraceHandle.toMachine_explain]
    rfl
  | t, .explainAll nodes => by
    rw [apply, TraceHandle.toMachine_explainAll]
    rfl
  | t, .merge evalId calls => by
    have hchild := applyAll_toMachine (.new evalId) calls
    rw [apply, ← TraceHandle.toMachine_new, hchild, TraceHandle.toMachine_merge,
      TraceHandle.merge_eq]
    simp [events, explanations]

/-- **Run lemma.** Calls record their events and add their explanations, in call order. -/
theorem applyAll_toMachine : ∀ (t : TraceHandle) (calls : List TraceCall),
    applyAll t.toMachine calls =
      ((t.recordAll (eventsAll calls)).explainAll (explanationsAll calls)).toMachine
  | t, [] => by simp [applyAll, eventsAll, explanationsAll]
  | t, call :: calls => by
    rw [applyAll, apply_toMachine t call, applyAll_toMachine _ calls, eventsAll, explanationsAll,
      TraceHandle.recordAll_explainAll, TraceHandle.recordAll_append,
      TraceHandle.explainAll_append]

end

/-- Calls build the machine's view of a gapless trace with their events and explanations. -/
theorem build_toMachine (evalId : Uuid) (calls : List TraceCall) :
    ∃ t : TraceHandle, build evalId calls = t.toMachine ∧ t.Gapless ∧
      t.payloads = eventsAll calls ∧ t.explanations = explanationsAll calls := by
  refine ⟨((TraceHandle.new evalId).recordAll (eventsAll calls)).explainAll
    (explanationsAll calls), ?_, ?_, ?_, ?_⟩
  · rw [build, ← TraceHandle.toMachine_new, applyAll_toMachine]
  · exact ((TraceHandle.gapless_new evalId).recordAll _).explainAll _
  · simp
  · simp

end TraceCall

/-- **Sequence numbers stay gapless.** In every trace built by calls, with children merged that
    are built by calls to any depth, and with fewer than `2 ^ 64` events in all: event number `i`
    carries `i`, the counter is the number of events, and the events and explanations are those
    of the calls and of the calls of the merged children, in call order. -/
theorem built_gapless (evalId : Uuid) (calls : List TraceCall)
    (hcount : (TraceCall.eventsAll calls).length < UInt64.size) :
    (∀ (i : Nat) (hi : i < (TraceCall.build evalId calls).events.length),
      ((TraceCall.build evalId calls).events[i]).seq.toNat = i) ∧
    (TraceCall.build evalId calls).seqCounter.toNat =
      (TraceCall.build evalId calls).events.length ∧
    (TraceCall.build evalId calls).events.map Machine.TimestampedEvent.event =
      TraceCall.eventsAll calls ∧
    (TraceCall.build evalId calls).explanations = TraceCall.explanationsAll calls := by
  obtain ⟨t, hbuild, hgapless, hpayloads, hexplanations⟩ := TraceCall.build_toMachine evalId calls
  have hlength : t.events.length < UInt64.size := by
    rw [← hpayloads, TraceHandle.payloads, List.length_map] at hcount
    exact hcount
  rw [hbuild]
  obtain ⟨hseq, hcounter⟩ := hgapless.toMachine hlength
  exact ⟨hseq, hcounter, t.payloads_toMachine.trans hpayloads, hexplanations⟩

/-- Events around a merged child, which has merged a child of its own. -/
def Sample.traceCalls : List TraceCall :=
  [.record .inputValidated,
    .merge 1 [.record (.custom "child" "first"), .merge 2 [.record (.custom "grandchild" "only")],
      .explainAll [⟨"child", .enrichment, "added", [], []⟩]],
    .record .pipelineCompleted]

/-- The children's events, numbered from zero in their own traces, follow on. -/
theorem built_gapless_nested :
    ∃ hi : 2 < (TraceCall.build 0 Sample.traceCalls).events.length,
      ((TraceCall.build 0 Sample.traceCalls).events[2]).seq.toNat = 2 ∧
      (TraceCall.build 0 Sample.traceCalls).events.map Machine.TimestampedEvent.event =
        [.inputValidated, .custom "child" "first", .custom "grandchild" "only",
          .pipelineCompleted] := by
  obtain ⟨hseq, -, hevents, -⟩ := built_gapless 0 Sample.traceCalls (by decide)
  have hi : 2 < (TraceCall.build 0 Sample.traceCalls).events.length := by
    rw [← List.length_map Machine.TimestampedEvent.event, hevents]
    decide
  exact ⟨hi, hseq 2 hi, hevents⟩

end DarqEval
