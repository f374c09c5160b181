import DarqEval.Merge

namespace DarqEval

open Lib

/-!
# Explanations over nesting trees

A sub-pipeline hands the explanations of its trace on to its parent, and every pipeline adds its own
where it downgrades a `Finalize` or processes an `Escalate`.  The trace of the root lists them all.

* `RunRecord.finished` — the evaluations of all depths that hand something on, in the order in which
  they end;
* `RunRecord.ownExplanations` — what each of them adds;
* `execute_explanations` — the explanations of a result, and that no leaf's are lost.
-/

variable {D : Decision}

namespace RunRecord

/-- The explanations an evaluation adds to those handed on from inside it. -/
def ownExplanations : RunRecord D → List ExplanationNode
  | .leaf visit => explanationsOf visit.stage visit.out
  | .sub visit _ _ _ =>
    (patchOf visit.out).flatMap (fun patch => controlExplanations visit.stage patch.control)

mutual

/-- An evaluation that returned `Ok`, behind those inside it that are handed on. -/
def finished : RunRecord D → List (RunRecord D)
  | .leaf visit => if visit.out.isOk then [.leaf visit] else []
  -- a sub-pipeline that fails hands nothing on
  | .sub visit pipeline inner later =>
    if visit.out.isOk then finishedAll inner ++ [.sub visit pipeline inner later] else []

/-- The evaluations of a list that returned `Ok`, each behind those inside it. -/
def finishedAll : List (RunRecord D) → List (RunRecord D)
  | [] => []
  | r :: rs => r.finished ++ finishedAll rs

end

/-- The explanations an evaluation hands on. -/
def explained (r : RunRecord D) : List ExplanationNode := r.finished.flatMap ownExplanations

theorem flatMap_finishedAll (rs : List (RunRecord D)) :
    (finishedAll rs).flatMap ownExplanations = rs.flatMap explained := by
  induction rs with
  | nil => rfl
  | cons r rs ih =>
    rw [finishedAll, List.flatMap_append, ih, List.flatMap_cons]
    rfl

theorem explained_leaf (v : StrategyVisit D) :
    (RunRecord.leaf v).explained = explanationsOf v.stage v.out := by
  unfold explained finished
  cases hout : v.out with
  | error e => rfl
  | ok patch =>
    show ownExplanations (.leaf v) ++ [] = _
    rw [List.append_nil, ownExplanations, hout]

theorem explained_sub_ok {v : StrategyVisit D} {patch : StrategyPatch D} (hout : v.out = .ok patch)
    (p : EvalPipeline D) (inner : List (RunRecord D)) (later : List (Tree D)) :
    (RunRecord.sub v p inner later).explained =
      inner.flatMap explained ++ controlExplanations v.stage patch.control := by
  have hok : v.out.isOk = true := by rw [hout]; rfl
  have hown : (RunRecord.sub v p inner later).ownExplanations =
      controlExplanations v.stage patch.control := by
    rw [ownExplanations, hout, patchOf_ok, List.flatMap_singleton]
  rw [explained, finished, if_pos hok, List.flatMap_append, flatMap_finishedAll,
    List.flatMap_singleton, hown]

theorem explained_sub_error {v : StrategyVisit D} {e : EvalError} (hout : v.out = .error e)
    (p : EvalPipeline D) (inner : List (RunRecord D)) (later : List (Tree D)) :
    (RunRecord.sub v p inner later).explained = [] := by
  have hfailed : ¬ v.out.isOk = true := by rw [hout]; exact Bool.false_ne_true
  rw [explained, finished, if_neg hfailed, List.flatMap_nil]

/-- The explanations of the leaf patches an evaluation commits are handed on in their order. -/
theorem merged_sublist_explained (r : RunRecord D) :
    (r.merged.flatMap StrategyPatch.explanations).Sublist r.explained := by
  match r with
  | .leaf v =>
    rw [explained_leaf, merged]
    cases v.out with
    | error e => exact List.Sublist.refl _
    | ok patch =>
      rw [patchOf_ok, List.flatMap_singleton]
      exact List.sublist_append_left _ _
  | .sub v p inner later =>
    rw [merged]
    cases hout : v.out with
    | error e =>
      rw [explained_sub_error hout, if_neg (by exact Bool.false_ne_true), List.flatMap_nil]
    | ok patch =>
      rw [explained_sub_ok hout, if_pos (by rfl)]
      exact (mergedAll_sublist inner).trans (List.sublist_append_left _ _)
where
  mergedAll_sublist : ∀ rs : List (RunRecord D),
      ((mergedAll rs).flatMap StrategyPatch.explanations).Sublist (rs.flatMap explained)
    | [] => List.Sublist.refl _
    | r :: rs => by
      rw [mergedAll, List.flatMap_append, List.flatMap_cons]
      exact (merged_sublist_explained r).append (mergedAll_sublist rs)

end RunRecord

/-- What an evaluation adds to its parent's trace is what it hands on. -/
theorem explanationsOf_record (t : PipelineTree D) (ctx : EvalContext D) :
    ∀ r ∈ t.records ctx, explanationsOf r.visit.stage r.visit.out = r.explained := by
  refine PipelineTree.record_induction ?_ ?_ t ctx
  · intro v
    exact (RunRecord.explained_leaf v).symm
  · intro newV4 t' v later _ hout ih
    rw [EvalPipeline.evaluate_eq] at hout
    rw [RunRecord.visit]
    cases hrefusal : t'.pipeline.refusal (EvalPipeline.childContext newV4 v.seen) with
    | some e =>
      rw [hrefusal] at hout
      rw [RunRecord.explained_sub_error hout, hout]
      rfl
    | none =>
      rw [hrefusal] at hout
      rw [RunRecord.explained_sub_ok hout, hout]
      -- the patch carries the explanations of the run inside
      have hinner : t'.pipeline.explanations (EvalPipeline.childContext newV4 v.seen) =
          (t'.records (EvalPipeline.childContext newV4 v.seen)).flatMap RunRecord.explained := by
        rw [EvalPipeline.explanations, ← t'.records_visit, List.flatMap_map]
        exact List.flatMap_congr ih
      rw [← hinner]
      rfl

/-- **Explanations at any depth.** The explanations of a result are those of the committed leaves
    and those the pipelines add, in the order in which the evaluations end; among them are all
    explanations of the committed leaf patches, in their order. -/
theorem execute_explanations (t : PipelineTree D) (ctx : EvalContext D) {r : EvalResult D}
    (hr : (t.execute ctx).result = .ok r) :
    r.trace.explanations =
        (RunRecord.finishedAll (t.records ctx)).flatMap RunRecord.ownExplanations ∧
      ((committedPatches (t.leaves ctx)).flatMap StrategyPatch.explanations).Sublist
        r.trace.explanations := by
  have hlisted : r.trace.explanations = (t.records ctx).flatMap RunRecord.explained := by
    obtain ⟨-, rfl⟩ := EvalPipeline.execute_eq_ok.mp hr
    rw [EvalPipeline.summary_explanations, EvalPipeline.explanations, ← t.records_visit,
      List.flatMap_map]
    exact List.flatMap_congr (explanationsOf_record t ctx)
  refine ⟨hlisted.trans (RunRecord.flatMap_finishedAll _).symm, ?_⟩
  rw [hlisted, PipelineTree.leaves, ← RunRecord.mergedAll_eq]
  exact RunRecord.merged_sublist_explained.mergedAll_sublist (t.records ctx)

/-- A decider behind a sub-pipeline with a strategy that finalizes early. -/
def Sample.downgraded : PipelineTree decision :=
  tree [sub "inner" [.leaf (leaf "early" .enrich (.finalize (.auto (9 : Nat))))],
    .leaf (leaf "decider" .decide (.finalize (.auto (2 : Nat))))]

/-- The sub-pipeline's explanation of what it downgraded is the only one. -/
theorem execute_explanations_downgraded :
    ∃ r, (Sample.downgraded.execute Sample.context).result = .ok r ∧
      r.trace.explanations.map ExplanationNode.source = ["early"] := by
  have hr : (Sample.downgraded.execute Sample.context).result =
      .ok (Sample.downgraded.pipeline.summary Sample.context) :=
    EvalPipeline.execute_eq_ok.mpr ⟨rfl, rfl⟩
  refine ⟨_, hr, ?_⟩
  rw [(execute_explanations Sample.downgraded Sample.context hr).1]
  rfl

end DarqEval
