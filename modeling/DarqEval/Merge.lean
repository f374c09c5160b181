import DarqEval.Leaves

namespace DarqEval

open Lib

/-!
# Exact merge over nesting trees

A sub-pipeline evaluation clones the store into a child context, extends it by a run of its
own and hands back what it cut off behind the parent's entries.  Nothing is lost, duplicated
or reordered at any depth:

* `merged_flatMap` — what an evaluation's patch carries is what the committed leaves inside it
  carried;
* `seen_artifacts` — the store each leaf was given is the initial one with the patches merged
  before it in its own and its ancestors' contexts;
* `execute_merge` — the final store and, for a run that returns a result, its findings and
  proposals.
-/

variable {D : Decision}

/-- A component of patches that a sub-pipeline hands on from the patches of its run. -/
def HandedOn {α : Type} (f : StrategyPatch D → List α) : Prop :=
  ∀ (p : EvalPipeline D) (ctx : EvalContext D),
    f (p.runPatch ctx) = (patches (p.visits ctx)).flatMap f

theorem handedOn_artifacts : HandedOn (D := D) StrategyPatch.artifacts := fun _ _ => rfl
theorem handedOn_findings : HandedOn (D := D) StrategyPatch.findings := fun _ _ => rfl
theorem handedOn_proposals : HandedOn (D := D) StrategyPatch.proposals := fun _ _ => rfl

/-- The patches of the visits behind a list of records. -/
theorem patches_visits (rs : List (RunRecord D)) :
    patches (rs.map RunRecord.visit) = rs.flatMap (fun r => patchOf r.visit.out) := by
  rw [patches, List.flatMap_map]

private theorem flatMap_mergedAll {α : Type} {f : StrategyPatch D → List α}
    {rs : List (RunRecord D)}
    (h : ∀ r ∈ rs, (patchOf r.visit.out).flatMap f = r.merged.flatMap f) :
    (patches (rs.map RunRecord.visit)).flatMap f = (RunRecord.mergedAll rs).flatMap f := by
  induction rs with
  | nil => rfl
  | cons r rs ih =>
    have hr := h r List.mem_cons_self
    have ih' := ih (fun r' hr' => h r' (List.mem_cons_of_mem r hr'))
    rw [patches_visits] at ih' ⊢
    rw [List.flatMap_cons, List.flatMap_append, hr, ih', RunRecord.mergedAll, List.flatMap_append]

/-- What the patch of an evaluation carries is what the leaf patches it commits carry. -/
theorem merged_flatMap {α : Type} {f : StrategyPatch D → List α} (hf : HandedOn f)
    (t : PipelineTree D) (ctx : EvalContext D) :
    ∀ r ∈ t.records ctx, (patchOf r.visit.out).flatMap f = r.merged.flatMap f := by
  refine PipelineTree.record_induction ?_ ?_ t ctx
  · intro v
    rfl
  · intro newV4 t' v later _ hout ih
    -- the run's patch carries what its visits' patches carry, and these what their leaves do
    have hrun := flatMap_mergedAll ih
    rw [PipelineTree.records_visit] at hrun
    rw [RunRecord.visit, RunRecord.merged, hout, EvalPipeline.evaluate_eq]
    cases t'.pipeline.refusal (EvalPipeline.childContext newV4 v.seen) with
    | some e => rfl
    | none =>
      show (patchOf (.ok (t'.pipeline.runPatch _) : Output D)).flatMap f =
        (RunRecord.mergedAll _).flatMap f
      rw [← hrun, ← hf, patchOf_ok, List.flatMap_singleton]

/-- What the patches of a run carry is what its committed leaves carry. -/
theorem patches_flatMap {α : Type} {f : StrategyPatch D → List α} (hf : HandedOn f)
    (t : PipelineTree D) (ctx : EvalContext D) :
    (patches (t.pipeline.visits ctx)).flatMap f =
      (committedPatches (t.leaves ctx)).flatMap f := by
  rw [PipelineTree.leaves, ← RunRecord.mergedAll_eq, ← t.records_visit ctx]
  exact flatMap_mergedAll (merged_flatMap hf t ctx)

/-! ### What the leaves were given -/

/-- A visit sees the initial context with the patches of the earlier visits merged. -/
theorem visit_seen {p : EvalPipeline D} {ctx : EvalContext D} {pre post : List (StrategyVisit D)}
    {v : StrategyVisit D} (h : p.visits ctx = pre ++ v :: post) :
    v.seen = ctx.merge ((patches pre).flatMap StrategyPatch.artifacts) := by
  rw [(EvalPipeline.visits_split h).2.1, commitAll_eq]

/-- An evaluation of a run sees the initial store with the leaf patches committed before it. -/
theorem record_seen {t : PipelineTree D} {ctx : EvalContext D} {pre post : List (RunRecord D)}
    {r : RunRecord D} (h : t.records ctx = pre ++ r :: post) :
    r.visit.seen = ctx.merge ((RunRecord.mergedAll pre).flatMap StrategyPatch.artifacts) := by
  have hvisits : t.pipeline.visits ctx =
      pre.map RunRecord.visit ++ r.visit :: post.map RunRecord.visit := by
    rw [← t.records_visit ctx, h, List.map_append, List.map_cons]
  have hpre : ∀ r' ∈ pre, r' ∈ t.records ctx := by
    intro r' hr'
    rw [h]
    exact List.mem_append_left _ hr'
  rw [visit_seen hvisits, flatMap_mergedAll]
  intro r' hr'
  exact merged_flatMap handedOn_artifacts t ctx r' (hpre r' hr')

/-- The leaves of a list of records, each one known to hand the stores down, are given the
    store of the list's context with the patches merged before them. -/
private theorem seen_of_records {t : PipelineTree D} {ctx : EvalContext D}
    (h : ∀ r ∈ t.records ctx, ∀ before base,
      r.visit.seen.artifacts.entries = base ++ before.flatMap StrategyPatch.artifacts →
      ∀ ℓ ∈ r.leaves before,
        ℓ.visit.seen.artifacts.entries = base ++ ℓ.before.flatMap StrategyPatch.artifacts)
    {before : List (StrategyPatch D)} {base : List Artifact}
    (hctx : ctx.artifacts.entries = base ++ before.flatMap StrategyPatch.artifacts) :
    ∀ ℓ ∈ RunRecord.leavesAll (t.records ctx) before,
      ℓ.visit.seen.artifacts.entries = base ++ ℓ.before.flatMap StrategyPatch.artifacts := by
  intro ℓ hℓ
  obtain ⟨pre, r, post, heq, hr⟩ := RunRecord.mem_leavesAll.mp hℓ
  have hmem : r ∈ t.records ctx := by
    rw [heq]; exact List.mem_append_cons_self
  -- the evaluation around the leaf saw the list's store and what was committed before it
  refine h r hmem _ base ?_ ℓ hr
  rw [record_seen heq, EvalContext.merge_artifacts, ArtifactStore.entries_appendAll, hctx,
    List.flatMap_append, List.append_assoc]

/-- The store a leaf inside an evaluation was given, from the store the evaluation was given. -/
theorem seen_artifacts (t : PipelineTree D) (ctx : EvalContext D) :
    ∀ r ∈ t.records ctx, ∀ before base,
      r.visit.seen.artifacts.entries = base ++ before.flatMap StrategyPatch.artifacts →
      ∀ ℓ ∈ r.leaves before,
        ℓ.visit.seen.artifacts.entries = base ++ ℓ.before.flatMap StrategyPatch.artifacts := by
  refine PipelineTree.record_induction ?_ ?_ t ctx
  · intro v before base hbase ℓ hℓ
    rw [RunRecord.leaves] at hℓ
    obtain rfl := List.mem_singleton.mp hℓ
    exact hbase
  · intro newV4 t' v later _ _ ih before base hbase ℓ hℓ
    rw [RunRecord.leaves] at hℓ
    obtain ⟨ℓ', hℓ', rfl⟩ := List.mem_map.mp hℓ
    exact seen_of_records ih hbase ℓ' hℓ'

/-- **Exact merge.** Whatever a run of a pipeline tree returns, the final store is the initial
    one followed by the artifacts of the committed leaf patches in execution order, and every
    executed leaf was given the initial store followed by the patches merged before it; a
    returned result carries the findings and proposals of the same patches. -/
theorem execute_merge (t : PipelineTree D) (ctx : EvalContext D) :
    (t.execute ctx).ctx.artifacts.entries =
        ctx.artifacts.entries ++
          (committedPatches (t.leaves ctx)).flatMap StrategyPatch.artifacts ∧
      (∀ ℓ ∈ t.leaves ctx, ℓ.visit.seen.artifacts.entries =
        ctx.artifacts.entries ++ ℓ.before.flatMap StrategyPatch.artifacts) ∧
      ∀ r, (t.execute ctx).result = .ok r →
        r.findings = (committedPatches (t.leaves ctx)).flatMap StrategyPatch.findings ∧
          r.proposals = (committedPatches (t.leaves ctx)).flatMap StrategyPatch.proposals := by
  refine ⟨?_, ?_, fun r hr => ?_⟩
  · rw [PipelineTree.execute, EvalPipeline.execute_ctx, EvalContext.merge_artifacts,
      ArtifactStore.entries_appendAll, EvalPipeline.newArtifacts,
      patches_flatMap handedOn_artifacts]
  · have hstart : ctx.artifacts.entries =
        ctx.artifacts.entries ++ ([] : List (StrategyPatch D)).flatMap StrategyPatch.artifacts := by
      simp
    exact seen_of_records (seen_artifacts t ctx) hstart
  · obtain ⟨_, rfl⟩ := EvalPipeline.execute_eq_ok.mp hr
    exact ⟨patches_flatMap handedOn_findings t ctx, patches_flatMap handedOn_proposals t ctx⟩

end DarqEval
