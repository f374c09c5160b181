import DarqEval.Floats
import DarqEval.Replay

namespace DarqEval

open Lib

/-!
# Replays from snapshots

A snapshot stores the input and the constraints of its run as JSON.  A replay reads them back,
takes over the policy, starts from an empty store with the recorded capabilities, and captures a
snapshot of its own, from which it can be replayed in turn.

* `Value.fields` — reading the fields of a struct back from JSON;
* `Snapshot.rebuild` — the context of a replay;
* `replays_alike` — if the store of the live run answers its fetches, replays and their replays end
  like it;
* `rebuilt_alike` — so they do if their contexts are rebuilt from the snapshots.
-/

/-! ### Reading structs -/

namespace Value

/-- `String::deserialize`. -/
def asString : Value → Option String
  | .string s => some s
  | _ => none

/-- The values of the fields a derived `Deserialize` reads: the entries of an object, which may hold
    others too, or the items of an array, which may not. -/
def fields (names : List String) : Value → Option (List Value)
  | .object map => names.mapM (fun name => map.lookup name)
  | .array items => if items.length = names.length then some items else none
  | _ => none

theorem mapM_lookup {map entries : List (String × Value)}
    (h : ∀ e ∈ entries, map.lookup e.1 = some e.2) :
    (entries.map Prod.fst).mapM (fun name => map.lookup name) = some (entries.map Prod.snd) := by
  induction entries with
  | nil => rfl
  | cons e entries ih =>
    have htail := ih (fun f hf => h f (List.mem_cons_of_mem _ hf))
    rw [List.map_cons, List.mapM_cons, h e List.mem_cons_self, htail]
    rfl

/-- The fields of a struct are read back from the object that was written of them. -/
theorem fields_ofEntries (kind : MapKind) {names : List String} (h : names.Nodup)
    {entries : List (String × Value)} (hnames : entries.map Prod.fst = names) :
    (object (kind.ofEntries entries)).fields names = some (entries.map Prod.snd) := by
  subst hnames
  have hperm := kind.ofEntries_perm h
  refine mapM_lookup (fun e he => ?_)
  rw [lookup_eq_of_perm ((hperm.map Prod.fst).nodup_iff.mpr h) hperm]
  exact (lookup_eq_some_iff_mem h).mpr he

end Value

variable {D : Decision}

/-- The `Deserialize` implementations of the data a snapshot stores, `none` where they fail. -/
structure Deserialize (D : Decision) where
  input : Value → Option D.Input
  constraints : Value → Option D.Constraints

/-- The context of a replay, with the identifier `Uuid::new_v4` draws and metadata of its own. -/
def Snapshot.rebuild (de : Deserialize D) (newV4 : Uuid) (runMeta : RunMeta)
    (snapshot : Snapshot) : Option (EvalContext D) := do
  let input ← de.input snapshot.inputJson
  let constraints ← de.constraints snapshot.constraintsJson
  return .new newV4 input constraints snapshot.policyBundle runMeta .replay

/-- The input and the constraints of the context are read back from the JSON written of them. -/
structure Deserialize.ReadsBack (de : Deserialize D) (ctx : EvalContext D) : Prop where
  input : de.input ((D.inputToValue ctx.input).getD default) = some ctx.input
  constraints : de.constraints ((D.constraintsToValue ctx.constraints).getD default) =
    some ctx.constraints

theorem Deserialize.ReadsBack.of_sameInputs {de : Deserialize D} {c c' : EvalContext D}
    (h : de.ReadsBack c) (hsame : SameInputs c c') : de.ReadsBack c' := by
  refine ⟨?_, ?_⟩
  · rw [← hsame.input]
    exact h.input
  · rw [← hsame.constraints]
    exact h.constraints

/-- Every snapshot of a run is rebuilt to what is read back of its input and constraints. -/
theorem rebuild_snapshotAt (de : Deserialize D) (p : EvalPipeline D) (ctx : EvalContext D)
    (fidelity : ReplayFidelity) (strategyVersions : List (String × String)) (newV4 : Uuid)
    (runMeta : RunMeta) :
    ((p.execute ctx).snapshotAt fidelity strategyVersions).rebuild de newV4 runMeta =
      (de.input ((D.inputToValue ctx.input).getD default)).bind (fun input =>
        (de.constraints ((D.constraintsToValue ctx.constraints).getD default)).map (fun constraints =>
          .new newV4 input constraints ctx.policy runMeta .replay)) := by
  rw [Execution.snapshotAt, EvalPipeline.execute_ctx, Snapshot.rebuild]
  show (de.input ((D.inputToValue ctx.input).getD default)).bind _ = _
  congr 1
  funext input
  rw [Option.map_eq_bind]
  rfl

/-- If input and constraints are read back on conditions, the snapshot is rebuilt on both. -/
theorem rebuild_eq_ite {de : Deserialize D} {ctx : EvalContext D} {P Q : Prop} [Decidable P]
    [Decidable Q]
    (hinput : de.input ((D.inputToValue ctx.input).getD default) =
      if P then some ctx.input else none)
    (hconstraints : de.constraints ((D.constraintsToValue ctx.constraints).getD default) =
      if Q then some ctx.constraints else none)
    (p : EvalPipeline D) (fidelity : ReplayFidelity) (strategyVersions : List (String × String))
    (newV4 : Uuid) (runMeta : RunMeta) :
    ((p.execute ctx).snapshotAt fidelity strategyVersions).rebuild de newV4 runMeta =
      if P ∧ Q then some (.new newV4 ctx.input ctx.constraints ctx.policy runMeta .replay)
      else none := by
  rw [rebuild_snapshotAt, hinput, hconstraints]
  by_cases hP : P
  · by_cases hQ : Q
    · rw [if_pos hP, if_pos hQ, if_pos ⟨hP, hQ⟩]
      rfl
    · have hnot : ¬ (P ∧ Q) := fun h => hQ h.2
      rw [if_pos hP, if_neg hQ, if_neg hnot]
      rfl
  · have hnot : ¬ (P ∧ Q) := fun h => hP h.1
    rw [if_neg hP, if_neg hnot]
    rfl

theorem rebuild_of_readsBack {de : Deserialize D} {ctx : EvalContext D} (h : de.ReadsBack ctx)
    (p : EvalPipeline D) (fidelity : ReplayFidelity) (strategyVersions : List (String × String))
    (newV4 : Uuid) (runMeta : RunMeta) :
    ((p.execute ctx).snapshotAt fidelity strategyVersions).rebuild de newV4 runMeta =
      some (.new newV4 ctx.input ctx.constraints ctx.policy runMeta .replay) := by
  rw [rebuild_snapshotAt, h.input, h.constraints]
  rfl

/-- Capabilities recorded from a run that left no external artifact of a source do not know it. -/
theorem fetch_of_unrecorded {x : Execution D} {name : String}
    (h : ∀ a ∈ x.ctx.artifacts.entries, a.isExternal → a.source ≠ name) {fidelity : ReplayFidelity}
    {strategyVersions : List (String × String)} {caps : List Capability}
    (hcaps : caps.Perm ((RecordedCapability.fromArtifacts
      (x.snapshotAt fidelity strategyVersions).artifacts).map RecordedCapability.toCapability))
    (key : String) : (CapabilitySet.new.registerAll caps).fetch name key =
      .error (.notFound ("capability '" ++ name ++ "' not registered")) :=
  (answer_of_snapshot hcaps (name, key)).trans (replayAnswer_of_unrecorded h key)

/-! ### Replays of replays -/

/-- The capabilities and the context of the live run, or of a replay of such a run: a run on the
    same inputs, with the capabilities recorded from a snapshot of either fidelity. -/
inductive Replayed (p : FetchPipeline D) (live : CapabilitySet) (ctx : EvalContext D) :
    CapabilitySet → EvalContext D → Prop
  | live : Replayed p live ctx live ctx
  | replay {caps : CapabilitySet} {c c' : EvalContext D} {r : EvalResult D}
      {recorded : List Capability} (fidelity : ReplayFidelity) :
    Replayed p live ctx caps c → ((p.pipeline caps).execute c).result = .ok r →
    recorded.Perm ((RecordedCapability.fromArtifacts (((p.pipeline caps).execute c).snapshotAt
      fidelity r.snapshot.strategyVersions).artifacts).map RecordedCapability.toCapability) →
    SameInputs ctx c' → Replayed p live ctx (CapabilitySet.new.registerAll recorded) c'

theorem Replayed.sameInputs {p : FetchPipeline D} {live caps : CapabilitySet}
    {ctx c : EvalContext D} (h : Replayed p live ctx caps c) : SameInputs ctx c := by
  cases h with
  | live => exact ⟨rfl, rfl, rfl, rfl⟩
  | replay _ _ _ _ hinputs => exact hinputs

/-- The store a run leaves answers the fetches of the run as they were answered live. -/
def AnsweredByStore (p : FetchPipeline D) (live : CapabilitySet) (ctx : EvalContext D) : Prop :=
  ∀ v ∈ p.visits live ctx, ∀ q ∈ fetches live v, live.answer q =
    replayAnswer ((p.pipeline live).execute ctx).ctx.artifacts.entries q.1 q.2

/-- If the store of the live run answers the fetches it made, then every replay, replay of a replay,
    and so on, ends like the live run. -/
theorem replays_alike {p : FetchPipeline D} {live : CapabilitySet} {ctx : EvalContext D}
    (hanswered : AnsweredByStore p live ctx) {caps : CapabilitySet} {c : EvalContext D}
    (h : Replayed p live ctx caps c) :
    ((p.pipeline live).execute ctx).Alike ((p.pipeline caps).execute c) := by
  induction h with
  | live =>
    exact replay_alike p ⟨rfl, rfl, rfl, rfl⟩ (fun _ _ _ _ => rfl)
  | replay fidelity _ hr hrecorded hinputs ih =>
    -- the run that is replayed left the store of the live run
    refine replay_alike p hinputs (fun v hv q hq => ?_)
    rw [answer_of_snapshot hrecorded, ← ih.artifacts]
    exact hanswered v hv q hq

/-! ### Replays from snapshots alone -/

/-- The capabilities and the context of the live run, or of a replay that is rebuilt from a snapshot
    of such a run, of either fidelity. -/
inductive Rebuilt (de : Deserialize D) (p : FetchPipeline D) (live : CapabilitySet)
    (ctx : EvalContext D) : CapabilitySet → EvalContext D → Prop
  | live : Rebuilt de p live ctx live ctx
  | replay {caps : CapabilitySet} {c c' : EvalContext D} {r : EvalResult D} {snapshot : Snapshot}
      {recorded : List Capability} (fidelity : ReplayFidelity) (newV4 : Uuid) (runMeta : RunMeta) :
    Rebuilt de p live ctx caps c → ((p.pipeline caps).execute c).result = .ok r →
    snapshot = ((p.pipeline caps).execute c).snapshotAt fidelity r.snapshot.strategyVersions →
    recorded.Perm ((RecordedCapability.fromArtifacts snapshot.artifacts).map
      RecordedCapability.toCapability) →
    snapshot.rebuild de newV4 runMeta = some c' →
    Rebuilt de p live ctx (CapabilitySet.new.registerAll recorded) c'

section Rebuilt

variable {de : Deserialize D} {p : FetchPipeline D} {live caps : CapabilitySet}
  {ctx c : EvalContext D}

/-- What is rebuilt has the inputs of the live run. -/
theorem Rebuilt.replayed (hread : de.ReadsBack ctx) (hempty : ctx.artifacts = .new)
    (h : Rebuilt de p live ctx caps c) : Replayed p live ctx caps c := by
  induction h with
  | live => exact .live
  | @replay _ _ c' _ _ _ fidelity newV4 runMeta _ hr hsnapshot hrecorded hc' ih =>
    subst hsnapshot
    refine .replay fidelity ih hr hrecorded ?_
    have hsame := ih.sameInputs
    rw [rebuild_of_readsBack (hread.of_sameInputs hsame)] at hc'
    obtain rfl := Option.some.inj hc'
    exact ⟨hsame.input, hsame.constraints, hsame.policy, hempty⟩

/-- **Replays from snapshots.** Let a flat pipeline's strategies depend on input, constraints, policy,
    store and their fetches only.  If input and constraints are read back from their JSON, and the
    store of the live run, which started from an empty one, answers the fetches it made, then every
    replay rebuilt from a snapshot, replay rebuilt from a snapshot of a replay, and so on, ends
    like the live run, and each of its snapshots can be rebuilt in turn. -/
theorem rebuilt_alike (hread : de.ReadsBack ctx) (hempty : ctx.artifacts = .new)
    (hanswered : AnsweredByStore p live ctx) (h : Rebuilt de p live ctx caps c) :
    ((p.pipeline live).execute ctx).Alike ((p.pipeline caps).execute c) ∧
      ∀ fidelity strategyVersions newV4 runMeta,
        (((p.pipeline caps).execute c).snapshotAt fidelity strategyVersions).rebuild de newV4
          runMeta = some (.new newV4 ctx.input ctx.constraints ctx.policy runMeta .replay) := by
  have hreplayed := h.replayed hread hempty
  refine ⟨replays_alike hanswered hreplayed, fun fidelity strategyVersions newV4 runMeta => ?_⟩
  have hsame := hreplayed.sameInputs
  rw [rebuild_of_readsBack (hread.of_sameInputs hsame), hsame.input, hsame.constraints,
    hsame.policy]

end Rebuilt

namespace Sample

/-- A decision whose snapshots hold its input. -/
def stored : Decision where
  kind := "stored"
  Input := UInt64
  Output := Nat
  Constraints := UInt64
  validateInput := fun _ => .ok ()
  validateOutput := fun _ _ => .ok ()
  inputToValue := fun n => some (.number (.posInt n))
  constraintsToValue := fun n => some (.number (.posInt n))

/-- A context for it. -/
def storedContext (newV4 : Uuid) (mode : EvalMode) : EvalContext stored :=
  .new newV4 (4 : UInt64) (10 : UInt64) (.new 0 "policy" "1.0.0") context.runMeta mode

/-- A pipeline that stores the price of steel under the names it is fetched by. -/
def storing : FetchPipeline stored :=
  ⟨"sample", [{
    id := "market"
    version := ⟨1, 0, 0⟩
    phase := .enrich
    priority := 0
    evaluate := fun _ _ _ _ => .ask ("market", "steel") (fun
      | .ok result => .done (.ok ⟨[external "steel" "market" result.value], [], [], [], .continue⟩)
      | .error _ => .done (.ok ⟨[], [], [], [], .continue⟩)) }], true, true⟩

/-- The capabilities recorded from its run. -/
def recordedMarket : CapabilitySet :=
  CapabilitySet.new.registerAll ((RecordedCapability.fromArtifacts
    [external "steel" "market" (.string "steel")]).map RecordedCapability.toCapability)

end Sample

/-- The pipeline is replayed from its snapshot, and replayed from the snapshot of the replay. -/
theorem rebuilt_alike_twice :
    ((Sample.storing.pipeline Sample.market).execute (Sample.storedContext 0 .live)).Alike
      ((Sample.storing.pipeline Sample.recordedMarket).execute
        (Sample.storedContext 2 .replay)) := by
  let de : Deserialize Sample.stored := ⟨Value.asU64, Value.asU64⟩
  have hread : de.ReadsBack (Sample.storedContext 0 .live) := ⟨rfl, rfl⟩
  have hanswered : AnsweredByStore Sample.storing Sample.market
      (Sample.storedContext 0 .live) := by
    intro v hv q hq
    obtain rfl := List.mem_singleton.mp hv
    obtain rfl := List.mem_singleton.mp hq
    rfl
  have honce : Rebuilt de Sample.storing Sample.market (Sample.storedContext 0 .live)
      Sample.recordedMarket (Sample.storedContext 1 .replay) :=
    .replay .semantic 1 Sample.context.runMeta .live
      (EvalPipeline.execute_eq_ok.mpr ⟨rfl, rfl⟩) rfl (List.Perm.refl _) rfl
  have htwice : Rebuilt de Sample.storing Sample.market (Sample.storedContext 0 .live)
      Sample.recordedMarket (Sample.storedContext 2 .replay) :=
    .replay .exact 2 Sample.context.runMeta honce
      (EvalPipeline.execute_eq_ok.mpr ⟨rfl, rfl⟩) rfl (List.Perm.refl _) rfl
  exact (rebuilt_alike hread rfl hanswered htwice).1

end DarqEval
