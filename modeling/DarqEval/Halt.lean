import DarqEval.Merge
import DarqEval.Nesting

namespace DarqEval

open Lib

/-!
# Halts across nesting

A halted sub-pipeline has no disposition, so its parent is told to continue, just as if the
sub-pipeline had run to its end.  What is registered behind it then runs.

* `Tree.hasLeaf` — whether a tree has a leaf strategy to execute at all;
* `leavesAll_recordsFrom_eq_nil` — running some trees executes no leaf exactly if none of them
  has one: trees without leaves return `Ok` and continue;
* `haltsLast_of_records` — when a committed halting leaf is the last one executed;
* `haltKept_iff` — when halts survive nesting.
-/

variable {D : Decision}

mutual

/-- Whether the tree has a leaf. -/
def Tree.hasLeaf : Tree D → Bool
  | .leaf _ => true
  | .sub _ _ children => Tree.anyLeaf children

/-- Whether one of the trees has a leaf. -/
def Tree.anyLeaf : List (Tree D) → Bool
  | [] => false
  | t :: ts => t.hasLeaf || Tree.anyLeaf ts

end

theorem Tree.anyLeaf_eq_false {ts : List (Tree D)} :
    Tree.anyLeaf ts = false ↔ ∀ t ∈ ts, t.hasLeaf = false := by
  induction ts with
  | nil => simp [Tree.anyLeaf]
  | cons t ts ih => simp [Tree.anyLeaf, ih]

/-! ### Running trees without leaves -/

/-- The record of a visit over the trees. -/
def Tree.recordVisit (v : Visit (Tree D) (EvalContext D) (Output D)) : RunRecord D :=
  v.stage.record (v.mapStage Tree.strategy) v.later

namespace PipelineTree

/-- The evaluations a run of `t` makes of the given trees, from a context on. -/
def recordsFrom (t : PipelineTree D) (ts : List (Tree D)) (ctx : EvalContext D) :
    List (RunRecord D) :=
  ((t.pipeline.process.comap Tree.strategy).visits ts ctx).map Tree.recordVisit

theorem records_eq_recordsFrom {t : PipelineTree D} {ctx : EvalContext D}
    (hinput : D.validateInput ctx.input = .ok ()) : t.records ctx = t.recordsFrom t.order ctx := by
  have hok : (D.validateInput ctx.input).isOk = true := by rw [hinput]; rfl
  rw [records_eq, treeVisits, if_pos hok]
  rfl

theorem recordsFrom_cons (t : PipelineTree D) (u : Tree D) (us : List (Tree D))
    (ctx : EvalContext D) :
    let out := u.strategy.evaluate ctx t.settings.capabilities
    t.recordsFrom (u :: us) ctx =
      u.record ⟨u.strategy, ctx, out, us.map Tree.strategy⟩ us ::
        if stopping t.settings.failFast u.strategy.phase out then []
        else t.recordsFrom us (Output.commit out ctx) := by
  intro out
  unfold recordsFrom
  rw [Process.visits_cons, List.map_cons]
  exact congrArg _ (apply_ite (List.map Tree.recordVisit) _ _ _)

end PipelineTree

/-- The patch of an output, if any, leaves the input as it is. -/
theorem commit_input (out : Output D) (ctx : EvalContext D) :
    (Output.commit out ctx).input = ctx.input := by
  rw [commit_eq, EvalContext.merge_input]

/-- The visits of a run see the input it was given. -/
theorem visit_input {p : EvalPipeline D} {ctx : EvalContext D} {v : StrategyVisit D}
    (hv : v ∈ p.visits ctx) : v.seen.input = ctx.input := by
  obtain ⟨pre, post, heq⟩ := List.append_of_mem hv
  rw [visit_seen heq, EvalContext.merge_input]

/-- A run all of whose visits return `Ok` and continue returns `Ok`, without a disposition. -/
theorem runs_through (p : EvalPipeline D) (ctx : EvalContext D)
    (hinput : D.validateInput ctx.input = .ok ())
    (h : ∀ v ∈ p.visits ctx, ∃ patch, v.out = .ok patch ∧ patch.control = .continue) :
    p.refusal ctx = none ∧ p.disposition ctx = none := by
  have hdisp : p.disposition ctx = none := by
    unfold EvalPipeline.disposition
    rw [List.findSome?_eq_none_iff]
    intro v hv
    obtain ⟨patch, hout, hcontrol⟩ := h v hv
    rw [hout, verdict, hcontrol]
  have hfail : (p.visits ctx).findSome? (fun v => failure p.failFast v.stage v.out) = none := by
    rw [List.findSome?_eq_none_iff]
    intro v hv
    obtain ⟨patch, hout, -⟩ := h v hv
    rw [hout, failure]
  refine ⟨?_, hdisp⟩
  rw [EvalPipeline.refusal, hinput, hdisp, hfail]
  rfl

/-- A tree without leaves returns `Ok` and continues. -/
theorem evaluate_of_not_hasLeaf (u : Tree D) (hu : u.hasLeaf = false) :
    ∀ (ctx : EvalContext D) (caps : CapabilitySet), D.validateInput ctx.input = .ok () →
      ∃ patch, u.strategy.evaluate ctx caps = .ok patch ∧ patch.control = .continue := by
  induction u using Tree.induction with
  | hleaf s => cases hu
  | hsub newV4 settings children ih =>
    intro ctx caps hinput
    rw [Tree.hasLeaf, Tree.anyLeaf_eq_false] at hu
    let t : PipelineTree D := ⟨settings, children⟩
    have hvisits : ∀ v ∈ t.pipeline.visits (EvalPipeline.childContext newV4 ctx),
        ∃ patch, v.out = .ok patch ∧ patch.control = .continue := by
      intro v hv
      have hseen : v.seen.input = (EvalPipeline.childContext newV4 ctx).input := visit_input hv
      rw [← PipelineTree.treeVisits_mapStage t] at hv
      obtain ⟨w, hw, rfl⟩ := List.mem_map.mp hv
      obtain ⟨hmem, hout⟩ := PipelineTree.treeVisits_spec hw
      have hinput' : D.validateInput w.seen.input = .ok () := by
        rw [show w.seen.input = ctx.input from hseen]
        exact hinput
      obtain ⟨patch, hpatch, hcontrol⟩ := ih w.stage hmem (hu w.stage hmem) w.seen _ hinput'
      exact ⟨patch, hout.trans hpatch, hcontrol⟩
    obtain ⟨hrefusal, hdisp⟩ :=
      runs_through t.pipeline (EvalPipeline.childContext newV4 ctx) hinput hvisits
    refine ⟨t.pipeline.runPatch (EvalPipeline.childContext newV4 ctx), ?_, ?_⟩
    · show t.pipeline.evaluate newV4 ctx caps = _
      exact EvalPipeline.evaluate_eq_ok.mpr ⟨hrefusal, rfl⟩
    · rw [EvalPipeline.runPatch, hdisp]
      rfl

/-- **Trees without leaves.** A run over some trees executes no leaf exactly if none of them has
    one. -/
theorem leavesAll_recordsFrom_eq_nil (t : PipelineTree D) {ts : List (Tree D)}
    (ih : ∀ u ∈ ts, ∀ (v : StrategyVisit D) later before,
      D.validateInput v.seen.input = .ok () →
        ((u.record v later).leaves before = [] ↔ u.hasLeaf = false))
    {ctx : EvalContext D} (hinput : D.validateInput ctx.input = .ok ())
    (before : List (StrategyPatch D)) :
    RunRecord.leavesAll (t.recordsFrom ts ctx) before = [] ↔ ∀ u ∈ ts, u.hasLeaf = false := by
  induction ts generalizing ctx before with
  | nil => simp [PipelineTree.recordsFrom, RunRecord.leavesAll]
  | cons u us ihus =>
    rw [PipelineTree.recordsFrom_cons, RunRecord.leavesAll, List.append_eq_nil_iff,
      ih u List.mem_cons_self _ _ _ hinput, List.forall_mem_cons]
    refine and_congr_right (fun hu => ?_)
    -- a tree without leaves continues, so the trees behind it run as well
    obtain ⟨patch, hout, hcontrol⟩ :=
      evaluate_of_not_hasLeaf u hu ctx t.settings.capabilities hinput
    have hstop : stopping t.settings.failFast u.strategy.phase (.ok patch : Output D) = false := by
      rw [stopping, hcontrol]
    have hinput' : D.validateInput (Output.commit (.ok patch) ctx).input = .ok () := by
      rw [commit_input]
      exact hinput
    rw [hout, hstop]
    apply ihus _ hinput'
    exact fun u' hu' => ih u' (List.mem_cons_of_mem u hu')

theorem leaves_record_eq_nil (u : Tree D) :
    ∀ (v : StrategyVisit D) later before, D.validateInput v.seen.input = .ok () →
      ((u.record v later).leaves before = [] ↔ u.hasLeaf = false) := by
  induction u using Tree.induction with
  | hleaf s =>
    intro v later before _
    simp [Tree.record, RunRecord.leaves, Tree.hasLeaf]
  | hsub newV4 settings children ih =>
    intro v later before hinput
    let t : PipelineTree D := ⟨settings, children⟩
    let ctx := EvalPipeline.childContext newV4 v.seen
    have hchild : D.validateInput ctx.input = .ok () := hinput
    have hrecords : t.records ctx = t.recordsFrom t.order ctx :=
      PipelineTree.records_eq_recordsFrom hchild
    have hleaves : RunRecord.leavesAll (t.recordsFrom t.order ctx) before = [] ↔
        ∀ u ∈ t.order, u.hasLeaf = false :=
      leavesAll_recordsFrom_eq_nil t (fun u hu => ih u (mem_sortBy.mp hu)) hchild before
    rw [Tree.hasLeaf, Tree.anyLeaf_eq_false]
    show (RunRecord.leavesAll (t.records ctx) before).map _ = [] ↔ _
    rw [List.map_eq_nil_iff, hrecords, hleaves]
    exact forall_congr' (fun u => by rw [PipelineTree.order, mem_sortBy])

/-! ### What runs behind a halt -/

/-- A halting leaf is the last one of a list of leaves exactly if nothing registered behind the
    sub-pipelines around it has a leaf. -/
def HaltsLast (ls : List (LeafRun D)) : Prop :=
  ∀ pre ℓ post, ls = pre ++ ℓ :: post → ℓ.committed = true → halts ℓ.visit.out = true →
    (post = [] ↔ ∀ e ∈ ℓ.path, ∀ u ∈ e.later, u.hasLeaf = false)

/-- The leaves inside a sub-pipeline evaluation halt last. -/
def RunRecord.HaltsInside : RunRecord D → Prop
  | .leaf _ => True
  | .sub _ _ inner _ => ∀ before, HaltsLast (RunRecord.leavesAll inner before)

/-- What a run does behind one of its records: nothing, if that evaluation stopped it, and the
    trees behind it otherwise. -/
theorem records_split {t : PipelineTree D} {ctx : EvalContext D}
    {rpre rpost : List (RunRecord D)} {r : RunRecord D}
    (h : t.records ctx = rpre ++ r :: rpost) :
    ∃ v : Visit (Tree D) (EvalContext D) (Output D), r = Tree.recordVisit v ∧
      v.out = v.stage.strategy.evaluate v.seen t.settings.capabilities ∧
      v.seen.input = ctx.input ∧ D.validateInput ctx.input = .ok () ∧
      rpost = if stopping t.settings.failFast v.stage.strategy.phase v.out then []
        else t.recordsFrom v.later (Output.commit v.out v.seen) := by
  have hinput : D.validateInput ctx.input = .ok () := by
    cases hv : D.validateInput ctx.input with
    | ok _ => rfl
    | error e =>
      rw [PipelineTree.records_eq, PipelineTree.treeVisits, hv] at h
      exact absurd h.symm (by simp [Except.isOk, Except.toBool])
  have hseen : r.visit.seen.input = ctx.input := by
    rw [record_seen h, EvalContext.merge_input]
  have hrecords := PipelineTree.records_eq_recordsFrom (t := t) hinput
  rw [h, PipelineTree.recordsFrom] at hrecords
  obtain ⟨vpre, vrest, hvisits, -, hrest⟩ := List.map_eq_append_iff.mp hrecords.symm
  obtain ⟨v, vpost, rfl, rfl, rfl⟩ := List.map_eq_cons_iff.mp hrest
  obtain ⟨-, -, hout, -, hpost⟩ := Process.visits_split _ hvisits
  refine ⟨v, rfl, hout, ?_, hinput, ?_⟩
  · rw [Tree.recordVisit, Tree.record_visit] at hseen
    exact hseen
  · rw [hpost]
    exact apply_ite (List.map Tree.recordVisit) _ _ _

/-- A run whose last leaf halts has no disposition. -/
theorem disposition_of_halts {t : PipelineTree D} {ctx : EvalContext D}
    {before : List (StrategyPatch D)} {pre : List (LeafRun D)} {ℓ : LeafRun D}
    (h : RunRecord.leavesAll (t.records ctx) before = pre ++ [ℓ])
    (hhalts : halts ℓ.visit.out = true) : t.pipeline.disposition ctx = none := by
  by_contra hne
  obtain ⟨disp, hdisp⟩ := Option.ne_none_iff_exists'.mp hne
  obtain ⟨pre', ℓ', hleaves, -, hverdict⟩ := exists_carried hdisp before
  obtain ⟨-, hlast⟩ := List.append_inj' (h.symm.trans hleaves) rfl
  obtain rfl : ℓ = ℓ' := List.singleton_inj.mp hlast
  rw [LeafRun.verdict, verdict_of_halts hhalts] at hverdict
  cases hverdict

/-- **Step.** If the leaves inside the sub-pipelines of a run halt last, its leaves do. -/
theorem haltsLast_of_records {t : PipelineTree D} {ctx : EvalContext D}
    (h : ∀ r ∈ t.records ctx, r.HaltsInside) (before : List (StrategyPatch D)) :
    HaltsLast (RunRecord.leavesAll (t.records ctx) before) := by
  intro pre ℓ post heq hcommitted hhalts
  obtain ⟨rpre, r, rpost, pre', post', hrecords, hleaves, rfl⟩ := RunRecord.leavesAll_split heq
  have hmem : r ∈ t.records ctx := by
    rw [hrecords]
    exact List.mem_append_cons_self
  have hinside : r.HaltsInside := h r hmem
  obtain ⟨⟨tree, seen, out, later⟩, rfl, hout, hseen, hinput, hpost⟩ := records_split hrecords
  cases tree with
  | leaf s =>
    -- the leaf itself stops the run
    rcases List.append_eq_singleton_iff.mp hleaves.symm with ⟨rfl, hℓ⟩ | ⟨-, hnil⟩
    · obtain ⟨rfl, rfl⟩ := List.cons.inj hℓ
      have hnil : rpost = [] := hpost.trans (if_pos (stopping_of_halts hhalts))
      rw [hnil]
      simp [RunRecord.leavesAll]
    · exact absurd hnil (List.cons_ne_nil _ _)
  | sub newV4 settings children =>
    let t' : PipelineTree D := ⟨settings, children⟩
    obtain ⟨ipre, irest, hinner, rfl, hrest⟩ := List.map_eq_append_iff.mp hleaves
    obtain ⟨ℓ', ipost, rfl, rfl, rfl⟩ := List.map_eq_cons_iff.mp hrest
    rw [LeafRun.committed_within, Bool.and_eq_true] at hcommitted
    have hiff := hinside _ ipre ℓ' ipost hinner hcommitted.2 hhalts
    rw [List.append_eq_nil_iff, List.map_eq_nil_iff, hiff, LeafRun.within_path,
      List.forall_mem_cons, and_comm]
    refine and_congr_left (fun hpath => ?_)
    -- the sub-pipeline ended with its halt, so it has no disposition and its parent continues
    have hdisp : t'.pipeline.disposition (EvalPipeline.childContext newV4 seen) = none := by
      rw [hiff.mpr hpath] at hinner
      exact disposition_of_halts hinner hhalts
    have hstop : stopping t.settings.failFast t'.pipeline.phase out = false := by
      have hout' : out = t'.pipeline.evaluate newV4 seen t.settings.capabilities := hout
      cases hpatch : out with
      | error e => rw [hpatch] at hcommitted; cases hcommitted.1
      | ok patch =>
        obtain ⟨-, rfl⟩ := EvalPipeline.evaluate_eq_ok.mp (hout'.symm.trans hpatch)
        rw [stopping, EvalPipeline.runPatch, hdisp]
        rfl
    have hpost' : rpost = t.recordsFrom later (Output.commit out seen) :=
      hpost.trans (if_neg (ne_true_of_eq_false hstop))
    have hinput' : D.validateInput (Output.commit out seen).input = .ok () := by
      rw [commit_input, show seen.input = ctx.input from hseen]
      exact hinput
    rw [hpost']
    apply leavesAll_recordsFrom_eq_nil t _ hinput'
    exact fun u _ => leaves_record_eq_nil u

/-- In every run, at every depth, the leaves inside sub-pipelines halt last. -/
theorem records_haltsInside (t : PipelineTree D) (ctx : EvalContext D) :
    ∀ r ∈ t.records ctx, r.HaltsInside := by
  refine PipelineTree.record_induction ?_ ?_ t ctx
  · exact fun v => trivial
  · exact fun newV4 t' v later _ _ ih before => haltsLast_of_records ih before

/-! ### Halts -/

/-- The leaf returned `Ok` with a halt. -/
def LeafRun.haltsRun (ℓ : LeafRun D) : Prop :=
  ∃ patch reason, ℓ.visit.out = .ok patch ∧ patch.control = .halt reason

theorem LeafRun.haltsRun_iff {ℓ : LeafRun D} : ℓ.haltsRun ↔ halts ℓ.visit.out = true := by
  unfold LeafRun.haltsRun
  match ℓ.visit.out with
  | .error e => simp [halts]
  | .ok ⟨_, _, _, _, control⟩ => cases control <;> simp [halts]

/-- In a run that returns `Ok`, no leaf is executed behind a committed one that halts, and there
    is no disposition. -/
def HaltKept (t : PipelineTree D) (ctx : EvalContext D) : Prop :=
  ∀ r, (t.execute ctx).result = .ok r → ∀ pre ℓ post, t.leaves ctx = pre ++ ℓ :: post →
    ℓ.committed = true → ℓ.haltsRun → post = [] ∧ r.disposition = none

/-- **When halts survive nesting.** Exactly when nothing registered behind the sub-pipelines
    around a halting leaf has a leaf to execute. -/
theorem haltKept_iff (t : PipelineTree D) (ctx : EvalContext D) :
    HaltKept t ctx ↔ ∀ r, (t.execute ctx).result = .ok r → ∀ ℓ ∈ t.leaves ctx,
      ℓ.committed = true → ℓ.haltsRun → ∀ e ∈ ℓ.path, ∀ u ∈ e.later, u.hasLeaf = false := by
  have hlast : HaltsLast (t.leaves ctx) := haltsLast_of_records (records_haltsInside t ctx) []
  constructor
  · intro hkept r hr ℓ hℓ hcommitted hhalts
    obtain ⟨pre, post, heq⟩ := List.append_of_mem hℓ
    have hpost : post = [] := (hkept r hr pre ℓ post heq hcommitted hhalts).1
    exact (hlast pre ℓ post heq hcommitted (LeafRun.haltsRun_iff.mp hhalts)).mp hpost
  · intro hcond r hr pre ℓ post heq hcommitted hhalts
    have hℓ : ℓ ∈ t.leaves ctx := by
      rw [heq]
      exact List.mem_append_cons_self
    have hhalts' : halts ℓ.visit.out = true := LeafRun.haltsRun_iff.mp hhalts
    have hpost : post = [] :=
      (hlast pre ℓ post heq hcommitted hhalts').mpr (hcond r hr ℓ hℓ hcommitted hhalts)
    obtain ⟨-, rfl⟩ := EvalPipeline.execute_eq_ok.mp hr
    rw [hpost] at heq
    exact ⟨hpost, disposition_of_halts heq hhalts'⟩

/-- A check that halts inside a sub-pipeline, in front of a decider. -/
def Sample.ignoredHalt : PipelineTree Sample.decision :=
  Sample.tree
    [Sample.sub "checks" [.leaf (Sample.leaf "check" .enrich (.halt ⟨"fraud", "suspected fraud"⟩))],
      .leaf (Sample.leaf "decider" .decide (.finalize (.auto (2 : Nat))))]

/-- The decider runs behind the halt, and the run approves. -/
theorem haltKept_ignored : ¬ HaltKept Sample.ignoredHalt Sample.context := by
  intro hkept
  have hdisp := (hkept _ (EvalPipeline.execute_eq_ok.mpr ⟨rfl, rfl⟩) [] _ _ rfl rfl
    ⟨_, _, rfl, rfl⟩).2
  have happroved : (Sample.ignoredHalt.pipeline.summary Sample.context).disposition =
      some (.auto (2 : Nat)) := rfl
  rw [happroved] at hdisp
  cases hdisp

end DarqEval
