import DarqEval.Merge
import Mathlib.Data.List.Perm.Subperm

namespace DarqEval

open Lib

/-!
# How often leaves are evaluated

A run evaluates each of its leaves once at most, however deep it is nested, and every leaf if no
pipeline is stopped before its last strategy.

* `Tree.leafStrategies` — the leaves of a tree, executed or not;
* `evaluated_subperm` — those of a run are among them;
* `evaluated_perm` — they are all of them, if nothing is skipped;
* `leaves_once` — both, for the root.
-/

variable {D : Decision}

mutual

/-- The leaf strategies of a tree, at any depth. -/
def Tree.leafStrategies : Tree D → List (EvalStrategy D)
  | .leaf s => [s]
  | .sub _ _ children => Tree.leafStrategiesAll children

/-- The leaf strategies of a list of trees. -/
def Tree.leafStrategiesAll : List (Tree D) → List (EvalStrategy D)
  | [] => []
  | t :: ts => t.leafStrategies ++ Tree.leafStrategiesAll ts

end

theorem Tree.leafStrategiesAll_eq_flatMap (ts : List (Tree D)) :
    Tree.leafStrategiesAll ts = ts.flatMap Tree.leafStrategies := by
  induction ts with
  | nil => rfl
  | cons t ts ih => rw [Tree.leafStrategiesAll, ih, List.flatMap_cons]

/-- The strategies of some executed leaves. -/
def evaluated (ls : List (LeafRun D)) : List (EvalStrategy D) := ls.map (fun ℓ => ℓ.visit.stage)

/-- An evaluation that has strategies behind it leaves its pipeline running. -/
def RunRecord.SkipsNone (r : RunRecord D) : Prop :=
  r.visit.later ≠ [] → stopping true r.visit.stage.phase r.visit.out = false

theorem evaluated_within (e : SubRun D) (ls : List (LeafRun D)) :
    evaluated (ls.map (LeafRun.within e)) = evaluated ls := by
  rw [evaluated, List.map_map]
  rfl

/-! ### Lists of visits -/

/-- The record a tree makes of a visit of it. -/
def recordOf (v : Visit (Tree D) (EvalContext D) (Output D)) : RunRecord D :=
  v.stage.record (v.mapStage Tree.strategy) v.later

/-- What relates the leaves evaluated in each visit to those of its tree relates all of them, if it
    is kept by concatenation. -/
theorem evaluated_leavesAll {P : List (EvalStrategy D) → List (EvalStrategy D) → Prop}
    (hnil : P [] []) (happend : ∀ {l₁ l₂ r₁ r₂}, P l₁ l₂ → P r₁ r₂ → P (l₁ ++ r₁) (l₂ ++ r₂))
    {vs : List (Visit (Tree D) (EvalContext D) (Output D))}
    (h : ∀ v ∈ vs, ∀ before, P (evaluated ((recordOf v).leaves before)) v.stage.leafStrategies) :
    ∀ before, P (evaluated (RunRecord.leavesAll (vs.map recordOf) before))
      ((vs.map Visit.stage).flatMap Tree.leafStrategies) := by
  induction vs with
  | nil => exact fun _ => hnil
  | cons v vs ih =>
    intro before
    have htail := ih (fun w hw => h w (List.mem_cons_of_mem v hw)) (before ++ (recordOf v).merged)
    rw [List.map_cons, RunRecord.leavesAll, evaluated, List.map_append, List.map_cons,
      List.flatMap_cons]
    exact happend (h v List.mem_cons_self before) htail

namespace PipelineTree

variable {t : PipelineTree D} {ctx : EvalContext D}

/-- The leaf strategies of the root pipeline, at any depth. -/
def leafStrategies (t : PipelineTree D) : List (EvalStrategy D) :=
  Tree.leafStrategiesAll t.children

theorem leafStrategies_order (t : PipelineTree D) :
    (t.order.flatMap Tree.leafStrategies).Perm t.leafStrategies := by
  rw [leafStrategies, Tree.leafStrategiesAll_eq_flatMap]
  exact (sortBy_perm _ t.children).flatMap_right _

/-- A run of trees that evaluate each of their leaves once at most does so. -/
theorem evaluated_subperm_of (h : ∀ v ∈ t.treeVisits ctx, ∀ before,
      (evaluated ((recordOf v).leaves before)).Subperm v.stage.leafStrategies) (before) :
    (evaluated (RunRecord.leavesAll (t.records ctx) before)).Subperm t.leafStrategies := by
  have hprefix : (t.treeVisits ctx).map Visit.stage <+: t.order := by
    unfold treeVisits
    split
    · exact Process.visits_stage_isPrefix _ t.order ctx
    · exact List.nil_prefix
  obtain ⟨rest, hrest⟩ := hprefix
  have hsub : (((t.treeVisits ctx).map Visit.stage).flatMap Tree.leafStrategies).Subperm
      (t.order.flatMap Tree.leafStrategies) := by
    rw [← hrest, List.flatMap_append]
    exact (List.sublist_append_left _ _).subperm
  rw [records_eq]
  exact (evaluated_leavesAll (List.Subperm.refl []) List.Subperm.append h before).trans
    (hsub.trans t.leafStrategies_order.subperm)

/-- If no evaluation of the run skips others, it evaluates all of its trees. -/
theorem treeVisits_stage (hinput : D.validateInput ctx.input = .ok ())
    (h : ∀ v ∈ t.treeVisits ctx, (recordOf v).SkipsNone) :
    (t.treeVisits ctx).map Visit.stage = t.order := by
  unfold treeVisits at h ⊢
  rw [hinput, if_pos (by rfl)] at h
  rw [hinput, if_pos (by rfl)]
  refine Process.visits_stage_eq _ (fun v hv hlater => ?_)
  have hgo : stopping true v.stage.strategy.phase v.out = false := by
    have hskip := h v hv
    unfold RunRecord.SkipsNone recordOf at hskip
    rw [Tree.record_visit] at hskip
    exact hskip (fun hnil => hlater (List.map_eq_nil_iff.mp hnil))
  -- what goes on under `fail_fast` goes on without it
  show stopping t.pipeline.failFast v.stage.strategy.phase v.out = false
  cases hout : v.out with
  | error e =>
    rw [hout] at hgo
    cases hgo
  | ok patch =>
    rw [hout] at hgo
    exact hgo

theorem evaluated_perm_of (hinput : D.validateInput ctx.input = .ok ())
    (hskip : ∀ v ∈ t.treeVisits ctx, (recordOf v).SkipsNone)
    (h : ∀ v ∈ t.treeVisits ctx, ∀ before,
      (evaluated ((recordOf v).leaves before)).Perm v.stage.leafStrategies) (before) :
    (evaluated (RunRecord.leavesAll (t.records ctx) before)).Perm t.leafStrategies := by
  rw [records_eq]
  have hperm := evaluated_leavesAll (List.Perm.refl []) List.Perm.append h before
  rw [treeVisits_stage hinput hskip] at hperm
  exact hperm.trans t.leafStrategies_order

/-- A visit over the trees has the input of the run. -/
theorem treeVisits_input {v : Visit (Tree D) (EvalContext D) (Output D)}
    (hv : v ∈ t.treeVisits ctx) : (v.mapStage Tree.strategy).seen.input = ctx.input := by
  have hmem : v.mapStage Tree.strategy ∈ t.pipeline.visits ctx := by
    rw [← t.treeVisits_mapStage]
    exact List.mem_map_of_mem hv
  obtain ⟨pre, post, heq⟩ := List.append_of_mem hmem
  rw [visit_seen heq]
  rfl

/-- The evaluations made in a visit are evaluations of the run. -/
theorem mem_allOf_records {v : Visit (Tree D) (EvalContext D) (Output D)}
    (hv : v ∈ t.treeVisits ctx) {r : RunRecord D} (hr : r ∈ (recordOf v).all) :
    r ∈ RunRecord.allOf (t.records ctx) := by
  refine RunRecord.mem_allOf.mpr ⟨recordOf v, ?_, hr⟩
  rw [records_eq]
  exact List.mem_map_of_mem hv

end PipelineTree

/-! ### Trees -/

/-- **Once at most.** The leaves a tree evaluates are among its leaves, each one as often as it is
    registered at most. -/
theorem evaluated_subperm (u : Tree D) : ∀ (v : StrategyVisit D) (later : List (Tree D)),
    v.stage = u.strategy → ∀ before,
      (evaluated ((u.record v later).leaves before)).Subperm u.leafStrategies := by
  induction u using Tree.induction with
  | hleaf s =>
    intro v later hstage before
    rw [show evaluated _ = [v.stage] from rfl, hstage]
    exact List.Subperm.refl _
  | hsub newV4 settings children ih =>
    intro v later _ before
    show (evaluated ((RunRecord.leavesAll (PipelineTree.records ⟨settings, children⟩
      (EvalPipeline.childContext newV4 v.seen)) before).map _)).Subperm _
    rw [evaluated_within]
    refine PipelineTree.evaluated_subperm_of (fun w hw before' => ?_) before
    exact ih w.stage (PipelineTree.treeVisits_spec hw).1 _ _ rfl before'

/-- **All of them.** If no evaluation inside a tree skips others, it evaluates all of its leaves. -/
theorem evaluated_perm (u : Tree D) : ∀ (v : StrategyVisit D) (later : List (Tree D)),
    v.stage = u.strategy → D.validateInput v.seen.input = .ok () →
    (∀ r ∈ (u.record v later).all, r.SkipsNone) → ∀ before,
      (evaluated ((u.record v later).leaves before)).Perm u.leafStrategies := by
  induction u using Tree.induction with
  | hleaf s =>
    intro v later hstage _ _ before
    rw [show evaluated _ = [v.stage] from rfl, hstage]
    exact List.Perm.refl _
  | hsub newV4 settings children ih =>
    intro v later _ hinput hskip before
    have hinner : ∀ w ∈ PipelineTree.treeVisits ⟨settings, children⟩
        (EvalPipeline.childContext newV4 v.seen), ∀ r ∈ (recordOf w).all, r.SkipsNone :=
      fun w hw r hr => hskip r (List.mem_cons_of_mem _ (PipelineTree.mem_allOf_records hw hr))
    show (evaluated ((RunRecord.leavesAll (PipelineTree.records ⟨settings, children⟩
      (EvalPipeline.childContext newV4 v.seen)) before).map _)).Perm _
    rw [evaluated_within]
    have hchild : D.validateInput (EvalPipeline.childContext newV4 v.seen).input = .ok () := hinput
    refine PipelineTree.evaluated_perm_of hchild
      (fun w hw => hinner w hw _ (RunRecord.mem_all_self _)) (fun w hw before' => ?_) before
    refine ih w.stage (PipelineTree.treeVisits_spec hw).1 _ _ rfl ?_ (hinner w hw) before'
    rw [PipelineTree.treeVisits_input hw]
    exact hinput

end DarqEval
