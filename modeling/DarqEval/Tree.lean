import DarqEval.Execute

namespace DarqEval

open Lib

/-!
# Pipeline trees

Pipelines nest: a strategy is a leaf of the user's or another pipeline.  A `Tree` is a strategy
with this structure visible, a `PipelineTree` a root pipeline over trees, and a `RunRecord` a
strategy evaluation with, for a sub-pipeline, the records of the evaluations inside it.

* `Tree.strategy`, `PipelineTree.pipeline` — what is actually executed;
* `PipelineTree.records t ctx` — the records of a run, `RunRecord.visit` forgetting their
  insides (`records_visit`);
* `record_induction` — the induction principle for all evaluations of a run, at any depth.
-/

variable {D : Decision}

/-- The settings of a pipeline besides its strategies. -/
structure Settings where
  name : String
  capabilities : CapabilitySet
  enforceConstraints : Bool
  failFast : Bool

/-- The pipeline with the given settings and strategies. -/
def Settings.pipeline (c : Settings) (strategies : List (EvalStrategy D)) : EvalPipeline D :=
  ⟨c.name, strategies, c.capabilities, c.enforceConstraints, c.failFast⟩

/-- A strategy as a tree: a leaf, or a sub-pipeline over its own trees.  `newV4` is the
    identifier its evaluation draws. -/
inductive Tree (D : Decision) where
  | leaf (s : EvalStrategy D)
  | sub (newV4 : Uuid) (settings : Settings) (children : List (Tree D))

mutual

/-- The strategy a tree stands for. -/
def Tree.strategy : Tree D → EvalStrategy D
  | .leaf s => s
  | .sub newV4 settings children =>
    (settings.pipeline (Tree.strategies children)).toStrategy newV4

/-- The strategies a list of trees stands for. -/
def Tree.strategies : List (Tree D) → List (EvalStrategy D)
  | [] => []
  | t :: ts => t.strategy :: Tree.strategies ts

end

theorem Tree.strategies_eq_map (ts : List (Tree D)) :
    Tree.strategies ts = ts.map Tree.strategy := by
  induction ts with
  | nil => rfl
  | cons t ts ih => rw [Tree.strategies, ih, List.map_cons]

/-- A strategy evaluation of a run; for a sub-pipeline with its pipeline, the evaluations made
    inside it, and the trees behind it in its parent's order. -/
inductive RunRecord (D : Decision) where
  | leaf (visit : StrategyVisit D)
  | sub (visit : StrategyVisit D) (pipeline : EvalPipeline D) (inner : List (RunRecord D))
      (later : List (Tree D))

/-- The evaluation a record is about, without its inside. -/
def RunRecord.visit : RunRecord D → StrategyVisit D
  | .leaf visit => visit
  | .sub visit _ _ _ => visit

/-! ### The records of a run -/

/-- A tree together with the record it makes of a visit of its strategy. -/
structure Observed (D : Decision) where
  tree : Tree D
  record : StrategyVisit D → List (Tree D) → RunRecord D

/-- The strategy an observed tree stands for. -/
def Observed.strategy (o : Observed D) : EvalStrategy D := o.tree.strategy

/-- The record of a visit of an observed tree. -/
def Observed.recordVisit (v : Visit (Observed D) (EvalContext D) (Output D)) : RunRecord D :=
  v.stage.record (v.mapStage Observed.strategy) (v.later.map Observed.tree)

/-- The records of the run of `p` on observed trees. -/
def recordsOf (p : EvalPipeline D) (os : List (Observed D)) (ctx : EvalContext D) :
    List (RunRecord D) :=
  if (D.validateInput ctx.input).isOk then
    ((p.process.comap Observed.strategy).visits
      (sortBy (fun o => o.strategy.sortKey) os) ctx).map Observed.recordVisit
  else []

mutual

/-- The record a tree makes of a visit of its strategy. -/
def Tree.record : Tree D → StrategyVisit D → List (Tree D) → RunRecord D
  | .leaf _, visit, _ => .leaf visit
  | .sub newV4 settings children, visit, later =>
    let p := settings.pipeline (Tree.strategies children)
    .sub visit p (recordsOf p (Tree.observeAll children)
      (EvalPipeline.childContext newV4 visit.seen)) later

/-- The observed trees of a list. -/
def Tree.observeAll : List (Tree D) → List (Observed D)
  | [] => []
  | t :: ts => ⟨t, t.record⟩ :: Tree.observeAll ts

end

/-- A tree as an observed one. -/
def Tree.observe (t : Tree D) : Observed D := ⟨t, t.record⟩

theorem Tree.observeAll_eq_map (ts : List (Tree D)) : Tree.observeAll ts = ts.map Tree.observe := by
  induction ts with
  | nil => rfl
  | cons t ts ih => rw [Tree.observeAll, ih, List.map_cons]; rfl

/-- A root pipeline over trees. -/
structure PipelineTree (D : Decision) where
  settings : Settings
  children : List (Tree D)

namespace PipelineTree

/-- The pipeline that is executed. -/
def pipeline (t : PipelineTree D) : EvalPipeline D :=
  t.settings.pipeline (Tree.strategies t.children)

/-- Execute the root pipeline against the given context. -/
def execute (t : PipelineTree D) (ctx : EvalContext D) : Execution D := t.pipeline.execute ctx

/-- The trees in the order in which they are run. -/
def order (t : PipelineTree D) : List (Tree D) :=
  sortBy (fun t => t.strategy.sortKey) t.children

/-- The records of a run. -/
def records (t : PipelineTree D) (ctx : EvalContext D) : List (RunRecord D) :=
  recordsOf t.pipeline (Tree.observeAll t.children) ctx

/-- The visits of a run, over the trees. -/
def treeVisits (t : PipelineTree D) (ctx : EvalContext D) :
    List (Visit (Tree D) (EvalContext D) (Output D)) :=
  if (D.validateInput ctx.input).isOk then
    (t.pipeline.process.comap Tree.strategy).visits t.order ctx
  else []

/-- The records of a run are those its trees make of their visits. -/
theorem records_eq (t : PipelineTree D) (ctx : EvalContext D) :
    t.records ctx =
      (t.treeVisits ctx).map (fun v => v.stage.record (v.mapStage Tree.strategy) v.later) := by
  unfold records treeVisits recordsOf
  split
  · rw [Tree.observeAll_eq_map, sortBy_map, Process.visits_map, List.map_map]
    refine List.map_congr_left (fun v _ => ?_)
    simp [Observed.recordVisit, Visit.mapStage, Tree.observe, Observed.strategy, Function.comp_def]
  · rfl

theorem order_strategy (t : PipelineTree D) : t.pipeline.order = t.order.map Tree.strategy := by
  unfold EvalPipeline.order order
  rw [← sortBy_map, ← Tree.strategies_eq_map]
  rfl

/-- The visits over the trees are those of the pipeline. -/
theorem treeVisits_mapStage (t : PipelineTree D) (ctx : EvalContext D) :
    (t.treeVisits ctx).map (Visit.mapStage Tree.strategy) = t.pipeline.visits ctx := by
  unfold treeVisits EvalPipeline.visits
  split
  · rw [order_strategy, Process.visits_map]
  · rfl

end PipelineTree

@[simp] theorem Tree.record_visit (t : Tree D) (v : StrategyVisit D) (later : List (Tree D)) :
    (t.record v later).visit = v := by
  cases t <;> rfl

namespace PipelineTree

/-- **The records are a run of the pipeline**: forgetting their insides gives its visits. -/
theorem records_visit (t : PipelineTree D) (ctx : EvalContext D) :
    (t.records ctx).map RunRecord.visit = t.pipeline.visits ctx := by
  rw [records_eq, ← treeVisits_mapStage, List.map_map]
  exact List.map_congr_left (fun v _ => Tree.record_visit _ _ _)

theorem visit_mem_visits (t : PipelineTree D) {ctx : EvalContext D} {r : RunRecord D}
    (h : r ∈ t.records ctx) : r.visit ∈ t.pipeline.visits ctx := by
  rw [← t.records_visit ctx]
  exact List.mem_map_of_mem h

end PipelineTree

/-! ### Induction -/

mutual

/-- Structural induction on a tree. -/
theorem Tree.induction {P : Tree D → Prop} (hleaf : ∀ s, P (.leaf s))
    (hsub : ∀ newV4 settings children, (∀ t ∈ children, P t) → P (.sub newV4 settings children)) :
    ∀ t, P t
  | .leaf s => hleaf s
  | .sub newV4 settings children =>
    hsub newV4 settings children (Tree.induction_list hleaf hsub children)

private theorem Tree.induction_list {P : Tree D → Prop} (hleaf : ∀ s, P (.leaf s))
    (hsub : ∀ newV4 settings children, (∀ t ∈ children, P t) → P (.sub newV4 settings children)) :
    ∀ ts : List (Tree D), ∀ t ∈ ts, P t
  | [], _, h => absurd h List.not_mem_nil
  | t :: ts, u, h => by
    rcases List.mem_cons.mp h with heq | h
    · exact heq ▸ Tree.induction hleaf hsub t
    · exact Tree.induction_list hleaf hsub ts u h

end

namespace PipelineTree

/-- A visit over the trees evaluates one of the children. -/
theorem treeVisits_spec {t : PipelineTree D} {ctx : EvalContext D}
    {v : Visit (Tree D) (EvalContext D) (Output D)} (h : v ∈ t.treeVisits ctx) :
    v.stage ∈ t.children ∧
      v.out = v.stage.strategy.evaluate v.seen t.settings.capabilities := by
  unfold treeVisits at h
  by_cases hinput : (D.validateInput ctx.input).isOk
  · rw [if_pos hinput] at h
    exact ⟨mem_sortBy.mp (Process.stage_mem_of_mem _ h), Process.out_eq_of_mem _ h⟩
  · rw [if_neg hinput] at h
    exact absurd h List.not_mem_nil

/-- **Induction over the evaluations of a run**, at any depth: a property of every leaf
    evaluation that passes from the evaluations inside a sub-pipeline to its own holds of all
    evaluations of every run. -/
theorem record_induction {P : RunRecord D → Prop} (hleaf : ∀ v, P (.leaf v))
    (hsub : ∀ newV4 (t : PipelineTree D) (v : StrategyVisit D) later,
      v.stage = t.pipeline.toStrategy newV4 → v.out = t.pipeline.evaluate newV4 v.seen .new →
      (∀ r ∈ t.records (EvalPipeline.childContext newV4 v.seen), P r) →
      P (.sub v t.pipeline (t.records (EvalPipeline.childContext newV4 v.seen)) later))
    (t : PipelineTree D) (ctx : EvalContext D) : ∀ r ∈ t.records ctx, P r := by
  have htree : ∀ (u : Tree D) (v : StrategyVisit D) (later : List (Tree D)) caps,
      v.stage = u.strategy → v.out = u.strategy.evaluate v.seen caps → P (u.record v later) := by
    intro u
    induction u using Tree.induction with
    | hleaf s => exact fun v later _ _ _ => hleaf v
    | hsub newV4 settings children ih =>
      intro v later caps hstage hout
      -- the evaluations inside are those of visits of the children
      refine hsub newV4 ⟨settings, children⟩ v later hstage hout (fun r hr => ?_)
      rw [records_eq] at hr
      obtain ⟨w, hw, rfl⟩ := List.mem_map.mp hr
      obtain ⟨hmem, hw'⟩ := treeVisits_spec hw
      exact ih w.stage hmem _ _ _ rfl hw'
  intro r hr
  rw [records_eq] at hr
  obtain ⟨w, hw, rfl⟩ := List.mem_map.mp hr
  exact htree w.stage _ _ _ rfl (treeVisits_spec hw).2

end PipelineTree

/-! ### Sample trees -/

namespace Sample

/-- A sub-pipeline of the sample decision. -/
def sub (name : String) (children : List (Tree decision)) : Tree decision :=
  .sub 0 ⟨name, .new, true, true⟩ children

/-- A root pipeline of the sample decision over trees. -/
def tree (children : List (Tree decision)) : PipelineTree decision :=
  ⟨⟨"sample", .new, true, true⟩, children⟩

end Sample

end DarqEval
