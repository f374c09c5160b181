import DarqEval.Priorities

namespace DarqEval

open Lib

/-!
# Retries

An attempt to execute a pipeline leaves what its strategies have emitted in the context, even if it
fails, and the caller may execute the pipeline on that context again.  Where strategies read the
latest artifacts only, and only at keys that are written in front of them or not at all, what
earlier attempts left is never read.

* `SameLatest keys` — contexts whose stores have the same latest artifacts at the given keys;
* `EvalStrategy.Overwrites` — the keys a strategy reads so, and those at which each of its patches
  has an artifact;
* `Restartable` — the pipelines meant above; `overwrites_toStrategy`, as sub-pipelines;
* `Attempted` — the contexts that attempts leave;
* `execute_retried` — an attempt on one of them is like the first one.
-/

variable {D : Decision}

/-! ### Contexts with the same latest artifacts -/

/-- The contexts differ at most in their stores, and there not in the latest artifacts at the given
    keys. -/
structure SameLatest (keys : Set String) (c c' : EvalContext D) : Prop where
  context : c' = { c with artifacts := c'.artifacts }
  getLatest : ∀ key ∈ keys, c.artifacts.getLatest key = c'.artifacts.getLatest key

theorem ArtifactStore.getLatest_appendAll (store : ArtifactStore) (xs : List Artifact)
    (key : String) : (store.appendAll xs).getLatest key =
      (xs.filter (fun a => a.key = key)).getLast?.or (store.getLatest key) := by
  rw [ArtifactStore.getLatest_eq_getLast?, ArtifactStore.getLatest_eq_getLast?,
    ArtifactStore.getAll_appendAll, List.getLast?_append]

namespace SameLatest

variable {keys : Set String} {c c' : EvalContext D}

theorem refl (keys : Set String) (c : EvalContext D) : SameLatest keys c c := ⟨rfl, fun _ _ => rfl⟩

theorem trans {c'' : EvalContext D} (h : SameLatest keys c c') (h' : SameLatest keys c' c'') :
    SameLatest keys c c'' :=
  ⟨by rw [h'.context, h.context],
    fun key hkey => (h.getLatest key hkey).trans (h'.getLatest key hkey)⟩

theorem mono {keys' : Set String} (h : SameLatest keys c c') (hsub : keys' ⊆ keys) :
    SameLatest keys' c c' :=
  ⟨h.context, fun key hkey => h.getLatest key (hsub hkey)⟩

theorem input (h : SameLatest keys c c') : c.input = c'.input := by rw [h.context]
theorem constraints (h : SameLatest keys c c') : c.constraints = c'.constraints := by rw [h.context]

theorem childContext (h : SameLatest keys c c') (newV4 : Uuid) :
    SameLatest keys (EvalPipeline.childContext newV4 c) (EvalPipeline.childContext newV4 c') where
  context := by
    rw [h.context]
    rfl
  getLatest := h.getLatest

/-- Merged artifacts are the latest ones at their keys. -/
theorem merge {keys' : Set String} (h : SameLatest keys c c') (xs : List Artifact)
    (hkeys : ∀ key ∈ keys', key ∈ keys ∨ ∃ a ∈ xs, a.key = key) :
    SameLatest keys' (c.merge xs) (c'.merge xs) where
  context := by
    rw [h.context]
    rfl
  getLatest key hkey := by
    rw [EvalContext.merge_artifacts, EvalContext.merge_artifacts,
      ArtifactStore.getLatest_appendAll, ArtifactStore.getLatest_appendAll]
    cases hlast : (xs.filter (fun a => a.key = key)).getLast? with
    | some a => rfl
    | none =>
      -- nothing is merged at this key
      have hnone := List.getLast?_eq_none_iff.mp hlast
      rw [h.getLatest key ((hkeys key hkey).resolve_right (fun ⟨a, ha, hakey⟩ => ?_))]
      have hmem : a ∈ xs.filter (fun a => a.key = key) :=
        List.mem_filter.mpr ⟨ha, decide_eq_true hakey⟩
      rw [hnone] at hmem
      exact absurd hmem List.not_mem_nil

/-- Artifacts at other keys do not show. -/
theorem of_merge {xs : List Artifact} (hxs : ∀ a ∈ xs, a.key ∉ keys) (c : EvalContext D) :
    SameLatest keys c (c.merge xs) where
  context := rfl
  getLatest key hkey := by
    have hnone : xs.filter (fun a => a.key = key) = [] := by
      rw [List.filter_eq_nil_iff]
      intro a ha hakey
      exact hxs a ha (of_decide_eq_true hakey ▸ hkey)
    rw [EvalContext.merge_artifacts, ArtifactStore.getLatest_appendAll, hnone, List.getLast?_nil,
      Option.none_or]

end SameLatest

/-! ### What strategies overwrite -/

/-- The strategy reads the store by the latest artifacts at some keys only, and each patch it
    returns has artifacts at some keys, all of them. -/
structure EvalStrategy.Overwrites (s : EvalStrategy D) (reads writes : Set String) : Prop where
  reads : ∀ c c' caps, SameLatest reads c c' → s.evaluate c caps = s.evaluate c' caps
  writes : ∀ c caps patch, s.evaluate c caps = .ok patch →
    ∀ key, key ∈ writes ↔ ∃ a ∈ patch.artifacts, a.key = key

/-- The keys of any of the strategies. -/
def keysOf (keys : EvalStrategy D → Set String) (strategies : List (EvalStrategy D)) : Set String :=
  {key | ∃ s ∈ strategies, key ∈ keys s}

/-- The pipeline fails with its first strategy that fails, and no strategy reads at a key that it
    writes itself, or that another strategy does that is not sorted in front of it. -/
structure Restartable (p : EvalPipeline D) (reads writes : EvalStrategy D → Set String) : Prop where
  failFast : p.failFast = true
  overwrites : ∀ s ∈ p.strategies, s.Overwrites (reads s) (writes s)
  ordered : ∀ s ∈ p.strategies, ∀ t ∈ p.strategies, s.sortKey ≤ t.sortKey →
    Disjoint (reads s) (writes t)

/-- Visits with equal answers pair up. -/
theorem sameVisit_of_answer {vs vs' : List (StrategyVisit D)}
    (h : vs.map Visit.answer = vs'.map Visit.answer) : List.Forall₂ SameVisit vs vs' := by
  have hanswers : List.Forall₂ Eq (vs.map Visit.answer) (vs'.map Visit.answer) := by
    rw [h]
    exact List.forall₂_refl _
  rw [List.forall₂_map_left_iff, List.forall₂_map_right_iff] at hanswers
  refine hanswers.imp (fun v v' hv => ?_)
  obtain ⟨hstage, hout⟩ := Prod.mk.inj hv
  exact ⟨congrArg EvalStrategy.label hstage, hout⟩

namespace Restartable

variable {p : EvalPipeline D} {reads writes : EvalStrategy D → Set String}
  (h : Restartable p reads writes)

include h

/-- The strategies that are sorted behind a strategy write nothing that it reads. -/
theorem reads_pending {s : EvalStrategy D} {later : List (EvalStrategy D)}
    (hsuffix : (s :: later).IsSuffix p.order) {key : String} (hkey : key ∈ reads s) :
    key ∉ keysOf writes (s :: later) := by
  rintro ⟨t, ht, hwritten⟩
  have hmem : ∀ u ∈ s :: later, u ∈ p.strategies := fun u hu => mem_sortBy.mp (hsuffix.subset hu)
  have hsorted := (sortBy_pairwise EvalStrategy.sortKey p.strategies).sublist hsuffix.sublist
  have hle : s.sortKey ≤ t.sortKey := by
    rcases List.mem_cons.mp ht with rfl | ht
    · exact le_refl _
    · exact (List.pairwise_cons.mp hsorted).1 t ht
  exact Set.disjoint_left.mp
    (h.ordered s (hmem s List.mem_cons_self) t (hmem t ht) hle) hkey hwritten

/-- **Pending keys.** Contexts with the same latest artifacts wherever the pipeline reads but does
    not write are run alike: at the other keys the artifacts are written before they are read. -/
theorem sameRun {c c' : EvalContext D}
    (hc : SameLatest (keysOf reads p.strategies \ keysOf writes p.strategies) c c') :
    SameRun p c p c' := by
  refine ⟨rfl, rfl, hc.input, hc.constraints, sameVisit_of_answer ?_⟩
  rcases hinput : D.validateInput c.input with e | ⟨⟩
  · rw [visits_of_invalid hinput, visits_of_invalid (hc.input ▸ hinput)]
  rw [visits_of_valid hinput, visits_of_valid (hc.input ▸ hinput)]
  have hmem : ∀ s later, (s :: later).IsSuffix p.order → s ∈ p.strategies :=
    fun s later hsuffix => mem_sortBy.mp (hsuffix.subset List.mem_cons_self)
  -- while some strategies are still to come, the contexts may differ at the keys they write
  refine Process.visits_pending (T := fun later c c' =>
    SameLatest (keysOf reads p.strategies \ keysOf writes later) c c') ?_ ?_ ?_
  · intro s later hsuffix c c' hpending
    have hs := hmem s later hsuffix
    refine (h.overwrites s hs).reads _ _ _ (hpending.mono (fun key hkey => ?_))
    exact ⟨⟨s, hs, hkey⟩, h.reads_pending hsuffix hkey⟩
  · intro s later hsuffix c c' hpending hgo
    -- a strategy that does not stop the run has returned a patch
    have hok : ∃ patch, s.evaluate c p.capabilities = .ok patch := by
      cases hout : s.evaluate c p.capabilities with
      | ok patch => exact ⟨patch, rfl⟩
      | error e =>
        have hstop : p.process.stops s (s.evaluate c p.capabilities) = p.failFast := by
          rw [hout]
          rfl
        exact absurd (h.failFast.symm.trans (hstop.symm.trans hgo)) Bool.true_eq_false_eq_False
    obtain ⟨patch, hpatch⟩ := hok
    show SameLatest _ (Output.commit (s.evaluate c p.capabilities) c)
      (Output.commit (s.evaluate c p.capabilities) c')
    rw [hpatch]
    refine hpending.merge patch.artifacts (fun key hkey => ?_)
    have hwrites := (h.overwrites s (hmem s later hsuffix)).writes c _ patch hpatch key
    by_cases hwritten : key ∈ writes s
    · exact Or.inr (hwrites.mp hwritten)
    · refine Or.inl ⟨hkey.1, ?_⟩
      rintro ⟨t, ht, hin⟩
      rcases List.mem_cons.mp ht with rfl | ht
      · exact hwritten hin
      · exact hkey.2 ⟨t, ht, hin⟩
  · refine hc.mono (fun key hkey => ⟨hkey.1, ?_⟩)
    rintro ⟨t, ht, hin⟩
    exact hkey.2 ⟨t, mem_sortBy.mpr ht, hin⟩

/-- A run emits at keys its strategies write. -/
theorem key_mem {ctx : EvalContext D} {caps : CapabilitySet} {a : Artifact}
    (ha : a ∈ (p.withCapabilities caps).newArtifacts ctx) : a.key ∈ keysOf writes p.strategies := by
  obtain ⟨patch, hpatch, ha⟩ := List.mem_flatMap.mp ha
  obtain ⟨v, hv, hpatch⟩ := List.mem_flatMap.mp hpatch
  obtain ⟨hmem, hout⟩ := EvalPipeline.visits_spec hv
  rw [mem_patchOf.mp hpatch] at hout
  have hwrites := (h.overwrites v.stage hmem).writes _ _ patch hout.symm a.key
  exact ⟨v.stage, hmem, hwrites.mpr ⟨a, ha, rfl⟩⟩

/-- **Restartable sub-pipelines.** A sub-pipeline that evaluates all of its strategies whenever it
    returns a patch reads what they read and do not write, and overwrites what they write. -/
theorem overwrites_toStrategy
    (hall : ∀ c, p.refusal c = none → (p.visits c).map Visit.stage = p.order) (newV4 : Uuid) :
    (p.toStrategy newV4).Overwrites (keysOf reads p.strategies \ keysOf writes p.strategies)
      (keysOf writes p.strategies) where
  reads c c' caps hc := (h.sameRun (hc.childContext newV4)).evaluate_eq rfl caps caps
  writes c caps patch hpatch key := by
    have hevaluate : p.evaluate newV4 c caps = .ok patch := hpatch
    obtain ⟨hrefusal, rfl⟩ := EvalPipeline.evaluate_eq_ok.mp hevaluate
    constructor
    · rintro ⟨s, hs, hkey⟩
      have hvisited : s ∈ (p.visits (EvalPipeline.childContext newV4 c)).map Visit.stage := by
        rw [hall _ hrefusal]
        exact mem_sortBy.mpr hs
      obtain ⟨v, hv, rfl⟩ := List.mem_map.mp hvisited
      obtain ⟨-, hout⟩ := EvalPipeline.visits_spec hv
      cases hpatch : v.out with
      | ok q =>
        -- the strategy's patch was merged
        rw [hpatch] at hout
        obtain ⟨a, ha, hakey⟩ := ((h.overwrites _ hs).writes _ _ q hout.symm key).mp hkey
        refine ⟨a, List.mem_flatMap.mpr ⟨q, List.mem_flatMap.mpr ⟨v, hv, ?_⟩, ha⟩, hakey⟩
        exact mem_patchOf.mpr hpatch
      | error e =>
        -- or the run would have failed
        rw [refusal_eq_or (EvalPipeline.validateInput_of_refusal hrefusal)] at hrefusal
        have hnone := List.findSome?_eq_none_iff.mp (Option.or_eq_none_iff.mp hrefusal).1 v hv
        rw [hpatch, h.failFast] at hnone
        cases hnone
    · rintro ⟨a, ha, rfl⟩
      have hemitted : a ∈ (p.withCapabilities p.capabilities).newArtifacts
        (EvalPipeline.childContext newV4 c) := ha
      exact h.key_mem hemitted

end Restartable

/-! ### Attempts -/

/-- The contexts that attempts to execute a pipeline leave, each with capabilities of its own. -/
inductive Attempted (p : EvalPipeline D) (ctx : EvalContext D) : EvalContext D → Prop
  | none : Attempted p ctx ctx
  | again {c : EvalContext D} (caps : CapabilitySet) : Attempted p ctx c →
    Attempted p ctx ((p.withCapabilities caps).execute c).ctx

/-- The result with another store. -/
def EvalResult.withArtifacts (r : EvalResult D) (artifacts : ArtifactStore) : EvalResult D :=
  { r with
    artifacts := artifacts
    snapshot := { r.snapshot with artifacts := artifacts.intoEntries } }

section Retried

variable {p : EvalPipeline D} {reads writes : EvalStrategy D → Set String}
  (h : Restartable p reads writes) {ctx c : EvalContext D}

include h

/-- Attempts do not change the latest artifacts at keys that are not written. -/
theorem Attempted.sameLatest (hc : Attempted p ctx c) :
    SameLatest (keysOf writes p.strategies)ᶜ ctx c := by
  induction hc with
  | none => exact .refl _ ctx
  | @again c caps _ ih =>
    have hkeys : ∀ a ∈ (p.withCapabilities caps).newArtifacts c,
        a.key ∉ (keysOf writes p.strategies)ᶜ := fun a ha hkey => hkey (h.key_mem ha)
    rw [EvalPipeline.execute_ctx]
    exact ih.trans (.of_merge hkeys c)

/-- **Retries.** Let a pipeline be executed on a context that any number of attempts with other
    capabilities left, failed ones among them.  If it is restartable, it emits the same artifacts,
    and returns the same error or the same result as on the original context, but for the
    artifacts that were there; the latest ones at the keys it emits are the same.  The sub-pipelines
    draw the same identifiers in all executions. -/
theorem execute_retried (hc : Attempted p ctx c) :
    ∃ emitted, (p.execute ctx).ctx = ctx.merge emitted ∧ (p.execute c).ctx = c.merge emitted ∧
      (∀ e, (p.execute ctx).result = .error e ↔ (p.execute c).result = .error e) ∧
      (∀ r, (p.execute ctx).result = .ok r →
        (p.execute c).result = .ok (r.withArtifacts (c.artifacts.appendAll emitted))) ∧
      SameLatest ({key | ∃ a ∈ emitted, a.key = key} ∪ (keysOf writes p.strategies)ᶜ)
        (p.execute ctx).ctx (p.execute c).ctx := by
  have hlatest := hc.sameLatest h
  have hrun : SameRun p ctx p c := h.sameRun (hlatest.mono (fun _ hkey => hkey.2))
  refine ⟨p.newArtifacts ctx, p.execute_ctx ctx, ?_,
    EvalPipeline.execute_error_congr hrun.refusal_eq, fun r hr => ?_, ?_⟩
  · rw [EvalPipeline.execute_ctx, hrun.newArtifacts_eq]
  · obtain ⟨rfl, hr'⟩ := EvalPipeline.execute_ok_congr hrun.refusal_eq hr
    rw [hr']
    congr 1
    unfold EvalPipeline.summary EvalResult.withArtifacts
    simp only [hrun.disposition_eq, hrun.patches_eq, hrun.newArtifacts_eq, hrun.steps_eq,
      hrun.events_eq, hrun.explanations_eq, hrun.versions_eq]
    rw [hlatest.context]
    rfl
  · rw [EvalPipeline.execute_ctx, EvalPipeline.execute_ctx, ← hrun.newArtifacts_eq]
    exact hlatest.merge _ (fun key hkey => hkey.symm)

end Retried

namespace Sample

/-- A strategy that fetches an amount and stores it. -/
def fetcher (key : String) : EvalStrategy decision where
  id := key
  version := ⟨1, 0, 0⟩
  phase := .enrich
  priority := 0
  evaluate := fun _ capabilities =>
    match capabilities.fetch "market" key with
    | .error e => .error (.capabilityError e.toString)
    | .ok result =>
      .ok ⟨[⟨key, result.value, key, "1.0.0", "v1", "", .external⟩], [], [], [], .continue⟩

/-- A decider that approves the latest amount under the key "north". -/
def amountDecider : EvalStrategy decision where
  id := "amount"
  version := ⟨1, 0, 0⟩
  phase := .decide
  priority := 0
  evaluate := fun ctx _ =>
    match ctx.artifacts.getRequired "north" with
    | .error e => .error (.missingArtifact e.toString)
    | .ok artifact =>
      let amount : Nat := match artifact.value with
        | .number (.posInt n) => n.toNat
        | _ => 0
      .ok ⟨[], [], [], [], .finalize (.auto amount)⟩

/-- A market that answers some keys. -/
def marketOf (answers : List (String × UInt64)) : CapabilitySet :=
  CapabilitySet.new.register
    ⟨"market", fun key =>
      match answers.lookup key with
      | some n => .ok ⟨.number (.posInt n)⟩
      | none => .error (.notFound key)⟩

/-- The pipeline of a sub-pipeline that needs no capability. -/
def others : EvalPipeline decision :=
  Settings.pipeline ⟨"others", .new, true, true⟩ [emitter "south"]

/-- Two amounts are fetched, with a sub-pipeline between them. -/
def fetching : EvalPipeline decision :=
  (pipeline [fetcher "north", others.toStrategy 0, fetcher "west", amountDecider]).withCapabilities
    (marketOf [("north", 5), ("west", 1)])

/-- The decider reads at "north". -/
def fetchingReads (s : EvalStrategy decision) : Set String :=
  if s.phase = .decide then {"north"} else ∅

/-- The sub-pipeline writes at "south", the others at their identifiers. -/
def fetchingWrites (s : EvalStrategy decision) : Set String :=
  if s.phase = .decide then ∅ else if s.id = "others" then {"south"} else {s.id}

theorem overwrites_fetcher (key : String) : (fetcher key).Overwrites ∅ {key} where
  reads _ _ _ _ := rfl
  writes _ caps patch hpatch k := by
    unfold fetcher at hpatch
    cases hfetch : caps.fetch "market" key with
    | error e =>
      simp only [hfetch] at hpatch
      cases hpatch
    | ok result =>
      simp only [hfetch, Except.ok.injEq] at hpatch
      subst hpatch
      simp [eq_comm]

theorem overwrites_emitter (key : String) : (emitter key).Overwrites ∅ {key} where
  reads _ _ _ _ := rfl
  writes _ _ patch hpatch k := by
    obtain rfl := Except.ok.inj hpatch
    simp [eq_comm]

theorem overwrites_amountDecider : amountDecider.Overwrites {"north"} ∅ where
  reads c c' _ hc := by
    simp only [amountDecider, ArtifactStore.getRequired, hc.getLatest "north" rfl]
  writes c _ patch hpatch k := by
    unfold amountDecider at hpatch
    cases hrequired : c.artifacts.getRequired "north" with
    | error e =>
      simp only [hrequired] at hpatch
      cases hpatch
    | ok artifact =>
      simp only [hrequired, Except.ok.injEq] at hpatch
      subst hpatch
      simp

theorem overwrites_others : (others.toStrategy 0).Overwrites ∅ {"south"} := by
  have hrestartable : Restartable others (fun _ => ∅) (fun _ => {"south"}) := by
    refine ⟨rfl, fun s hs => ?_, fun _ _ _ _ _ => Set.empty_disjoint _⟩
    obtain rfl := List.mem_singleton.mp hs
    exact overwrites_emitter "south"
  have hstrategy := hrestartable.overwrites_toStrategy (fun _ _ => rfl) 0
  have hreads : keysOf (fun _ => ∅) others.strategies = ∅ := by simp [keysOf]
  have hwrites : keysOf (fun _ => {"south"}) others.strategies = {"south"} := by
    simp [keysOf, others, Settings.pipeline]
  rwa [hreads, hwrites, Set.empty_sdiff] at hstrategy

theorem restartable_fetching : Restartable fetching fetchingReads fetchingWrites where
  failFast := rfl
  overwrites s hs := by
    simp only [fetching, pipeline, EvalPipeline.withCapabilities, List.mem_cons, List.not_mem_nil,
      or_false] at hs
    rcases hs with rfl | rfl | rfl | rfl
    · exact overwrites_fetcher "north"
    · exact overwrites_others
    · exact overwrites_fetcher "west"
    · exact overwrites_amountDecider
  ordered s _ t _ hle := by
    unfold fetchingReads fetchingWrites
    by_cases hs : s.phase = .decide
    · -- nothing is sorted behind the Decide phase
      have ht : t.phase = .decide := by
        have hphase := phase_le_of_sortKey_le hle
        rw [hs] at hphase
        revert hphase
        cases t.phase <;> decide
      rw [if_pos ht]
      exact Set.disjoint_empty _
    · rw [if_neg hs]
      exact Set.empty_disjoint _

end Sample

/-- A first attempt fails for want of the second amount, and leaves another first one. -/
theorem execute_retried_outage :
    ∃ r, (Sample.fetching.execute ((Sample.fetching.withCapabilities
        (Sample.marketOf [("north", 3)])).execute Sample.context).ctx).result = .ok r ∧
      r.disposition = some (.auto (5 : Nat)) := by
  have hattempt : Attempted Sample.fetching Sample.context _ :=
    .again (Sample.marketOf [("north", 3)]) .none
  obtain ⟨emitted, -, -, -, hok, -⟩ := execute_retried Sample.restartable_fetching hattempt
  have hr : (Sample.fetching.execute Sample.context).result =
      .ok (Sample.fetching.summary Sample.context) := EvalPipeline.execute_eq_ok.mpr ⟨rfl, rfl⟩
  exact ⟨_, hok _ hr, rfl⟩

end DarqEval
