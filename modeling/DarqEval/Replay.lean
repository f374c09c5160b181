import DarqEval.Effects
import DarqEval.Recording

namespace DarqEval

open Lib

/-!
# Replaying a live run

A replay runs the strategies of a live run again, on the same input, constraints and policy, with
capabilities recorded from the external artifacts of its snapshot.

* `FetchStrategy` — a strategy that depends on input, constraints, policy, artifacts and the
  results of its fetches, each one chosen from the earlier results;
* `visits_replayed` — a replay follows the live run as long as its evaluations return outputs that
  commit and stop alike;
* `replay_alike` — a replay whose capabilities give the live run's fetches the same answers ends
  like the live run;
* `replay_documented` — so does one of a run recorded by capability name and fetch key;
* `retraced_iff`, `replayKept_of_unaffected` — what a replay keeps of a run recorded by strategy
  and artifact key, if its evaluations have the effects they had live.
-/

variable {D : Decision}

/-! ### Strategies that fetch -/

/-- The answer of a capability set to a fetch. -/
def CapabilitySet.answer (caps : CapabilitySet) (q : String × String) :
    Except CapabilityError CapabilityResult := caps.fetch q.1 q.2

/-- A strategy that depends on the input, the constraints, the policy, the artifact store and the
    results of its fetches; `evaluate` may choose each fetch from the earlier results. -/
structure FetchStrategy (D : Decision) where
  id : String
  version : StrategyVersion
  phase : Phase
  priority : Int
  evaluate : D.Input → D.Constraints → PolicyBundle → ArtifactStore →
    Query (String × String) (Except CapabilityError CapabilityResult) (Output D)

namespace FetchStrategy

/-- The fetching computation of a strategy in a context. -/
def query (s : FetchStrategy D) (ctx : EvalContext D) :
    Query (String × String) (Except CapabilityError CapabilityResult) (Output D) :=
  s.evaluate ctx.input ctx.constraints ctx.policy ctx.artifacts

/-- The strategy as the pipeline sees it. -/
def toStrategy (s : FetchStrategy D) : EvalStrategy D where
  id := s.id
  version := s.version
  phase := s.phase
  priority := s.priority
  evaluate := fun ctx caps => (s.query ctx).run caps.answer

end FetchStrategy

/-- A strategy evaluation of a run of fetching strategies. -/
abbrev FetchVisit (D : Decision) := Visit (FetchStrategy D) (EvalContext D) (Output D)

/-- The fetches an evaluation made, as pairs of capability name and key. -/
def fetches (caps : CapabilitySet) (v : FetchVisit D) : List (String × String) :=
  (v.stage.query v.seen).asked caps.answer

/-- The values an evaluation fetched. -/
def fetchedValues (caps : CapabilitySet) (v : FetchVisit D) : List Value :=
  (fetches caps v).filterMap (fun q => (caps.answer q).toOption.map CapabilityResult.value)

/-- A flat pipeline of fetching strategies, without its capabilities. -/
structure FetchPipeline (D : Decision) where
  name : String
  strategies : List (FetchStrategy D)
  enforceConstraints : Bool
  failFast : Bool

namespace FetchPipeline

/-- The pipeline with the given capabilities. -/
def pipeline (p : FetchPipeline D) (caps : CapabilitySet) : EvalPipeline D where
  name := p.name
  strategies := p.strategies.map FetchStrategy.toStrategy
  capabilities := caps
  enforceConstraints := p.enforceConstraints
  failFast := p.failFast

/-- The strategies in the order in which they are run. -/
def order (p : FetchPipeline D) : List (FetchStrategy D) :=
  sortBy (fun s => s.toStrategy.sortKey) p.strategies

/-- The process a run with the given capabilities is, over the fetching strategies. -/
def process (p : FetchPipeline D) (caps : CapabilitySet) :
    Process (FetchStrategy D) (EvalContext D) (Output D) :=
  (p.pipeline caps).process.comap FetchStrategy.toStrategy

/-- The evaluations of a run with the given capabilities. -/
def visits (p : FetchPipeline D) (caps : CapabilitySet) (ctx : EvalContext D) :
    List (FetchVisit D) :=
  if (D.validateInput ctx.input).isOk then (p.process caps).visits p.order ctx else []

theorem order_toStrategy (p : FetchPipeline D) (caps : CapabilitySet) :
    (p.pipeline caps).order = p.order.map FetchStrategy.toStrategy :=
  sortBy_map EvalStrategy.sortKey FetchStrategy.toStrategy p.strategies

theorem visits_mapStage (p : FetchPipeline D) (caps : CapabilitySet) (ctx : EvalContext D) :
    (p.visits caps ctx).map (Visit.mapStage FetchStrategy.toStrategy) =
      (p.pipeline caps).visits ctx := by
  unfold visits EvalPipeline.visits
  split
  · rw [order_toStrategy, Process.visits_map]
    rfl
  · rfl

end FetchPipeline

/-! ### Replaying with the same answers -/

/-- The contexts have the same input, constraints, policy and artifacts. -/
structure SameInputs (c c' : EvalContext D) : Prop where
  input : c.input = c'.input
  constraints : c.constraints = c'.constraints
  policy : c.policy = c'.policy
  artifacts : c.artifacts = c'.artifacts

theorem SameInputs.commit {c c' : EvalContext D} (h : SameInputs c c') (out : Output D) :
    SameInputs (Output.commit out c) (Output.commit out c') := by
  rw [commit_eq, commit_eq]
  refine ⟨h.input, h.constraints, h.policy, ?_⟩
  rw [EvalContext.merge_artifacts, EvalContext.merge_artifacts, h.artifacts]

theorem FetchStrategy.query_congr (s : FetchStrategy D) {c c' : EvalContext D}
    (hc : SameInputs c c') : s.query c = s.query c' := by
  rw [query, query, hc.input, hc.constraints, hc.policy, hc.artifacts]

/-- A visit evaluated its strategy with the capabilities of the run. -/
theorem FetchPipeline.out_eq {p : FetchPipeline D} {caps : CapabilitySet} {ctx : EvalContext D}
    {v : FetchVisit D} (hv : v ∈ p.visits caps ctx) :
    v.out = (v.stage.query v.seen).run caps.answer := by
  unfold FetchPipeline.visits at hv
  by_cases hinput : (D.validateInput ctx.input).isOk
  · rw [if_pos hinput] at hv
    exact Process.out_eq_of_mem _ hv
  · rw [if_neg hinput] at hv
    exact absurd hv List.not_mem_nil

/-- **Following a run.** Let each evaluation of the live run return under the capabilities of the
    replay an output that commits and stops like the live one.  Then the replay makes these
    evaluations, on the same inputs, and no others. -/
theorem visits_replayed (p : FetchPipeline D) {live replay : CapabilitySet} {ctx ctx' : EvalContext D}
    (hctx : SameInputs ctx ctx') (Q : Output D → Output D → Prop)
    (hcommit : ∀ out out' c, Q out out' → Output.commit out c = Output.commit out' c)
    (hstops : ∀ out out' phase, Q out out' →
      stopping p.failFast phase out = stopping p.failFast phase out')
    (hout : ∀ v ∈ p.visits live ctx, Q v.out ((v.stage.query v.seen).run replay.answer)) :
    List.Forall₂ (fun v v' => v.stage = v'.stage ∧ SameInputs v.seen v'.seen ∧ Q v.out v'.out)
      (p.visits live ctx) (p.visits replay ctx') := by
  unfold FetchPipeline.visits at hout ⊢
  rw [← hctx.input]
  by_cases hinput : (D.validateInput ctx.input).isOk
  · rw [if_pos hinput] at hout
    rw [if_pos hinput, if_pos hinput]
    refine (p.process live).visits_lockstep (p.process replay) Eq SameInputs Q ?_ ?_
      (List.forall₂_refl p.order) hctx ?_
    · intro out out' c c' hQ hc
      show SameInputs (Output.commit out c) (Output.commit out' c')
      rw [hcommit out out' c hQ]
      exact hc.commit out'
    · rintro s _ out out' rfl hQ
      exact hstops out out' s.phase hQ
    · -- on the same inputs a strategy asks the same
      rintro v hv _ c' rfl hc
      have hQ := hout v hv
      rw [v.stage.query_congr hc] at hQ
      exact hQ
  · rw [if_neg hinput, if_neg hinput]
    exact List.Forall₂.nil

/-- **Replay.** If the fetches of the live run get the same answers from the capabilities of the
    replay, the replay ends like the live run: whatever it fetches itself, the live run fetched. -/
theorem replay_alike (p : FetchPipeline D) {live replay : CapabilitySet} {ctx ctx' : EvalContext D}
    (hctx : SameInputs ctx ctx')
    (hanswers : ∀ v ∈ p.visits live ctx, ∀ q ∈ fetches live v, live.answer q = replay.answer q) :
    ((p.pipeline live).execute ctx).Alike ((p.pipeline replay).execute ctx') := by
  have hout : ∀ v ∈ p.visits live ctx, v.out = (v.stage.query v.seen).run replay.answer := by
    intro v hv
    rw [FetchPipeline.out_eq hv]
    exact Query.run_congr (hanswers v hv)
  have hlock := visits_replayed p hctx Eq (by rintro _ _ _ rfl; rfl) (by rintro _ _ _ rfl; rfl) hout
  have hvisits : List.Forall₂ SameVisit ((p.pipeline live).visits ctx)
      ((p.pipeline replay).visits ctx') := by
    rw [← p.visits_mapStage, ← p.visits_mapStage, List.forall₂_map_left_iff,
      List.forall₂_map_right_iff]
    refine hlock.imp (fun v v' hv => ⟨?_, hv.2.2⟩)
    rw [Visit.mapStage, Visit.mapStage, hv.1]
  have hrun : SameRun (p.pipeline live) ctx (p.pipeline replay) ctx' :=
    ⟨rfl, rfl, hctx.input, hctx.constraints, hvisits⟩
  exact hrun.execute_alike hctx.artifacts

/-! ### Snapshots -/

/-- The snapshot `Snapshot::capture` takes of a finished run at the given fidelity. -/
def Execution.snapshotAt (x : Execution D) (fidelity : ReplayFidelity)
    (strategyVersions : List (String × String)) : Snapshot :=
  Snapshot.capture D x.ctx.evalId x.ctx.mode fidelity x.ctx.runMeta x.ctx.input x.ctx.constraints
    x.ctx.policy x.ctx.artifacts strategyVersions

/-- `execute` itself captures the exact snapshot. -/
theorem snapshot_eq {p : EvalPipeline D} {ctx : EvalContext D} {r : EvalResult D}
    (hr : (p.execute ctx).result = .ok r) :
    r.snapshot = (p.execute ctx).snapshotAt .exact r.snapshot.strategyVersions := by
  obtain ⟨-, rfl⟩ := EvalPipeline.execute_eq_ok.mp hr
  rw [Execution.snapshotAt, EvalPipeline.execute_ctx]
  rfl

/-- The capabilities recorded from a snapshot, whatever its fidelity, answer as those recorded
    from the whole store. -/
theorem answer_of_snapshot {x : Execution D} {fidelity : ReplayFidelity}
    {strategyVersions : List (String × String)} {caps : List Capability}
    (hcaps : caps.Perm ((RecordedCapability.fromArtifacts
      (x.snapshotAt fidelity strategyVersions).artifacts).map RecordedCapability.toCapability))
    (q : String × String) :
    (CapabilitySet.new.registerAll caps).answer q = replayAnswer x.ctx.artifacts.entries q.1 q.2 := by
  rw [CapabilitySet.answer, fetch_registerAll hcaps]
  cases fidelity with
  | exact => rfl
  | semantic => exact replayAnswer_filter x.ctx.artifacts.entries q.1 q.2

/-- A run from an empty store leaves the artifacts of the patches its evaluations returned. -/
theorem mem_entries_of_empty {p : FetchPipeline D} {live : CapabilitySet} {ctx : EvalContext D}
    (hempty : ctx.artifacts = .new) {a : Artifact} :
    a ∈ ((p.pipeline live).execute ctx).ctx.artifacts.entries ↔
      ∃ v ∈ p.visits live ctx, ∃ patch, v.out = .ok patch ∧ a ∈ patch.artifacts := by
  rw [EvalPipeline.execute_ctx, EvalContext.merge_artifacts, hempty,
    ArtifactStore.entries_appendAll, ArtifactStore.entries_new, List.nil_append,
    EvalPipeline.newArtifacts, patches, ← p.visits_mapStage, List.flatMap_map]
  simp only [List.mem_flatMap]
  constructor
  · rintro ⟨patch, ⟨v, hv, hpatch⟩, ha⟩
    refine ⟨v, hv, patch, ?_, ha⟩
    exact mem_patchOf.mp hpatch
  · rintro ⟨v, hv, patch, hout, ha⟩
    exact ⟨patch, ⟨v, hv, mem_patchOf.mpr hout⟩, ha⟩

/-! ### Recording by capability name and fetch key -/

/-- The evaluation was recorded as `from_artifacts` documents it: it returned `Ok`, every fetch
    succeeded and is an external artifact of its patch, with the capability's name as source, the
    fetch key as key and the fetched value as value, and every external artifact of its patch is
    such a record. -/
structure RecordedByFetch (live : CapabilitySet) (v : FetchVisit D) (patch : StrategyPatch D) :
    Prop where
  out : v.out = .ok patch
  recorded : ∀ q ∈ fetches live v, ∃ value, live.answer q = .ok ⟨value⟩ ∧
    ∃ a ∈ patch.artifacts, a.isExternal ∧ a.recordKey = q ∧ a.value = value
  only : ∀ a ∈ patch.artifacts, a.isExternal → a.recordKey ∈ fetches live v ∧
    live.answer a.recordKey = .ok ⟨a.value⟩

/-- If there is a record under a name and a key and all of them hold one value, a replay is
    answered with it. -/
theorem replayAnswer_of_agree {artifacts : List Artifact} {q : String × String} {value : Value}
    {a : Artifact} (ha : a ∈ artifacts) (hexternal : a.isExternal) (hkey : a.recordKey = q)
    (hagree : ∀ c ∈ artifacts, c.isExternal → c.recordKey = q → c.value = value) :
    replayAnswer artifacts q.1 q.2 = .ok ⟨value⟩ := by
  have hlast : (lastRecord artifacts q.1 q.2).map Artifact.value = some value := by
    refine lastOf_eq_some_of_agree (List.mem_filter.mpr ⟨ha, hexternal⟩) hkey ?_
    intro c hc hkeyc
    obtain ⟨hmem, hext⟩ := List.mem_filter.mp hc
    exact hagree c hmem hext hkeyc
  obtain ⟨c, hc, rfl⟩ := Option.map_eq_some_iff.mp hlast
  rw [replayAnswer, hc]

/-- In a run recorded by fetch, the store answers every fetch as it was answered live. -/
theorem answer_of_recordedByFetch {p : FetchPipeline D} {live : CapabilitySet}
    {ctx : EvalContext D} (hempty : ctx.artifacts = .new)
    (hrecorded : ∀ v ∈ p.visits live ctx, ∃ patch, RecordedByFetch live v patch) :
    ∀ v ∈ p.visits live ctx, ∀ q ∈ fetches live v, live.answer q =
      replayAnswer ((p.pipeline live).execute ctx).ctx.artifacts.entries q.1 q.2 := by
  intro v hv q hq
  obtain ⟨patch, hpatch⟩ := hrecorded v hv
  -- this evaluation left a record of the fetch
  obtain ⟨value, hanswer, a, ha, hexternal, hkey, -⟩ := hpatch.recorded q hq
  have hmem : a ∈ ((p.pipeline live).execute ctx).ctx.artifacts.entries :=
    (mem_entries_of_empty hempty).mpr ⟨v, hv, patch, hpatch.out, ha⟩
  rw [hanswer]
  refine (replayAnswer_of_agree hmem hexternal hkey ?_).symm
  -- whichever evaluation left a record of this fetch, it recorded the one live answer
  intro c hc hext hkeyc
  obtain ⟨w, hw, patch', hout, hcmem⟩ := (mem_entries_of_empty hempty).mp hc
  obtain ⟨patch'', hpatch''⟩ := hrecorded w hw
  obtain rfl : patch' = patch'' := Except.ok.inj (hout.symm.trans hpatch''.out)
  have hvalue := (hpatch''.only c hcmem hext).2
  rw [hkeyc, hanswer] at hvalue
  exact (congrArg CapabilityResult.value (Except.ok.inj hvalue)).symm

/-- **Replay of a documented recording.** A run from an empty store that returned `Ok`, recorded
    by capability name and fetch key, is reproduced on the same input, constraints and policy by
    the capabilities recorded from its snapshot of either fidelity, registered in any order. -/
theorem replay_documented {p : FetchPipeline D} {live : CapabilitySet} {ctx ctx' : EvalContext D}
    {r : EvalResult D} (hr : ((p.pipeline live).execute ctx).result = .ok r)
    (hempty : ctx.artifacts = .new)
    (hrecorded : ∀ v ∈ p.visits live ctx, ∃ patch, RecordedByFetch live v patch)
    (hctx : SameInputs ctx ctx') (fidelity : ReplayFidelity) {caps : List Capability}
    (hcaps : caps.Perm ((RecordedCapability.fromArtifacts
      (((p.pipeline live).execute ctx).snapshotAt fidelity r.snapshot.strategyVersions).artifacts).map
        RecordedCapability.toCapability)) :
    ∃ r', ((p.pipeline (CapabilitySet.new.registerAll caps)).execute ctx').result = .ok r' ∧
      r.Alike r' := by
  have hanswers : ∀ v ∈ p.visits live ctx, ∀ q ∈ fetches live v,
      live.answer q = (CapabilitySet.new.registerAll caps).answer q := by
    intro v hv q hq
    rw [answer_of_snapshot hcaps]
    exact answer_of_recordedByFetch hempty hrecorded v hv q hq
  exact (replay_alike p hctx hanswers).ok r hr

namespace Sample

/-- The one capability of the sample, which knows a value for each key. -/
def market : CapabilitySet := CapabilitySet.new.register ⟨"market", fun key => .ok ⟨.string key⟩⟩

/-- An external artifact. -/
def external (key source : String) (value : Value) : Artifact :=
  ⟨key, value, source, "1.0.0", "v1", "", .external⟩

/-- A strategy that fetches the price of steel and stores it, or a fallback, as an external
    artifact of its own with the given key. -/
def enricher (id key : String) : FetchStrategy decision where
  id := id
  version := ⟨1, 0, 0⟩
  phase := .enrich
  priority := 0
  evaluate := fun _ _ _ _ => .ask ("market", "steel") (fun
    | .ok result => .done (.ok ⟨[external key id result.value], [], [], [], .continue⟩)
    | .error _ => .done (.ok
        ⟨[external key id (.object [("fallback", .bool true)])], [], [], [], .continue⟩))

/-- A flat pipeline of one enricher. -/
def enrichment (id key : String) : FetchPipeline decision :=
  ⟨"sample", [enricher id key], true, true⟩

end Sample

/-- An enricher named like the capability, with the fetch key as artifact key, is replayed. -/
theorem replay_documented_market :
    ∃ r', (((Sample.enrichment "market" "steel").pipeline (CapabilitySet.new.registerAll
      ((RecordedCapability.fromArtifacts [Sample.external "steel" "market" (.string "steel")]).map
        RecordedCapability.toCapability))).execute Sample.context).result = .ok r' ∧
      (((Sample.enrichment "market" "steel").pipeline Sample.market).summary
        Sample.context).Alike r' := by
  have hr : (((Sample.enrichment "market" "steel").pipeline Sample.market).execute
      Sample.context).result =
        .ok (((Sample.enrichment "market" "steel").pipeline Sample.market).summary
          Sample.context) :=
    EvalPipeline.execute_eq_ok.mpr ⟨rfl, rfl⟩
  have hrecorded : ∀ v ∈ (Sample.enrichment "market" "steel").visits Sample.market Sample.context,
      ∃ patch, RecordedByFetch Sample.market v patch := by
    intro v hv
    obtain rfl := List.mem_singleton.mp hv
    refine ⟨⟨[Sample.external "steel" "market" (.string "steel")], [], [], [], .continue⟩, rfl,
      fun q hq => ?_, fun a ha _ => ?_⟩
    · obtain rfl := List.mem_singleton.mp hq
      exact ⟨_, rfl, _, List.mem_singleton_self _, rfl, rfl, rfl⟩
    · obtain rfl := List.mem_singleton.mp ha
      exact ⟨List.mem_singleton_self _, rfl⟩
  exact replay_documented hr rfl hrecorded ⟨rfl, rfl, rfl, rfl⟩ .semantic (.refl _)

/-! ### Recording by strategy and artifact key -/

/-- What identifies an artifact across runs. -/
def Artifact.triple (a : Artifact) : String × String × Value := (a.key, a.source, a.value)

/-- The values the evaluation fetched are stored as the enrich strategies store them: each in one
    external artifact with the strategy's id as source and the strategy's artifact key as key. -/
def StoredByStrategy (artifactKey : FetchStrategy D → String) (live : CapabilitySet)
    (v : FetchVisit D) : Prop :=
  fetchedValues live v ≠ [] → ∃ patch, v.out = .ok patch ∧
    (patch.artifacts.filter Artifact.isExternal).map Artifact.triple =
      (fetchedValues live v).map (fun value => (artifactKey v.stage, v.stage.id, value))

/-- A run from an empty store that returned `Ok`, with the fetched values stored by strategy, is
    replayed from its snapshot with the same disposition and artifacts. -/
def ReplayKept (p : FetchPipeline D) (live : CapabilitySet) (ctx : EvalContext D) : Prop :=
  ∀ artifactKey r, ((p.pipeline live).execute ctx).result = .ok r → ctx.artifacts = .new →
    (∀ v ∈ p.visits live ctx, StoredByStrategy artifactKey live v) →
    ∀ ctx', SameInputs ctx ctx' → ∀ caps : List Capability,
      caps.Perm ((RecordedCapability.fromArtifacts r.snapshot.artifacts).map
        RecordedCapability.toCapability) →
      ∃ r', ((p.pipeline (CapabilitySet.new.registerAll caps)).execute ctx').result = .ok r' ∧
        r'.disposition = r.disposition ∧
        r'.artifacts.entries.map Artifact.triple = r.artifacts.entries.map Artifact.triple

/-- The replay makes the evaluations of the live run, on the same inputs and with the same
    effects. -/
def Retraced (p : FetchPipeline D) (live replay : CapabilitySet) (ctx ctx' : EvalContext D) : Prop :=
  List.Forall₂ (fun v v' => v.stage = v'.stage ∧ SameInputs v.seen v'.seen ∧
      Output.effect p.failFast v.out = Output.effect p.failFast v'.out)
    (p.visits live ctx) (p.visits replay ctx')

/-- If the fetches of the evaluation had been answered by the external artifacts of the list, it
    would have had the effect it had live. -/
def Unaffected (failFast : Bool) (artifacts : List Artifact) (v : FetchVisit D) : Prop :=
  Output.effect failFast v.out = Output.effect failFast
    ((v.stage.query v.seen).run (fun q => replayAnswer artifacts q.1 q.2))

/-- **Retracing.** The replay retraces the live run exactly if the recorded capabilities affect none
    of its evaluations. -/
theorem retraced_iff {p : FetchPipeline D} {live : CapabilitySet} {ctx ctx' : EvalContext D}
    (hctx : SameInputs ctx ctx') {artifacts : List Artifact} {caps : List Capability}
    (hcaps : caps.Perm ((RecordedCapability.fromArtifacts artifacts).map
      RecordedCapability.toCapability)) :
    Retraced p live (CapabilitySet.new.registerAll caps) ctx ctx' ↔
      ∀ v ∈ p.visits live ctx, Unaffected p.failFast artifacts v := by
  have hanswer : (CapabilitySet.new.registerAll caps).answer =
      fun q => replayAnswer artifacts q.1 q.2 := by
    funext q
    rw [CapabilitySet.answer, fetch_registerAll hcaps]
  constructor
  · intro hretraced v hv
    obtain ⟨v', hv', hstage, hseen, heffect⟩ := exists_of_forall₂ hretraced hv
    rw [Unaffected, heffect, FetchPipeline.out_eq hv', ← hstage, v.stage.query_congr hseen, hanswer]
  · intro hunaffected
    refine visits_replayed p hctx
      (fun out out' => Output.effect p.failFast out = Output.effect p.failFast out')
      (fun out out' c h => ?_) (fun out out' phase h => ?_) (fun v hv => ?_)
    · rw [commit_eq_effect p.failFast, commit_eq_effect p.failFast out', h]
    · rw [stopping_eq_effect, stopping_eq_effect p.failFast out', h]
    · rw [hanswer]
      exact hunaffected v hv

namespace Sample

/-- The market, out of order. -/
def outage : CapabilitySet :=
  CapabilitySet.new.register ⟨"market", fun _ => .error (.fetchFailed "timeout")⟩

end Sample

end DarqEval
