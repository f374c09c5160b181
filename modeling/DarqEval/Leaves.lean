import DarqEval.Tree

namespace DarqEval

open Lib

/-!
# The executed leaves of a run

The leaf evaluations of a run in depth-first execution order, each with the sub-pipeline
evaluations that enclose it and the leaf patches that were merged before it.

* `RunRecord.merged` — the leaf patches an evaluation commits to its context;
* `RunRecord.leaves` — its leaf evaluations;
* `LeafRun.committed` — the leaf and every sub-pipeline evaluation around it returned `Ok`;
* `mem_leavesAll` — where a leaf of a list of records comes from;
* `RunRecord.all` — the evaluations of all depths, and how they correspond to the paths of the
  leaves (`leaf_of_mem_all`, `mem_all_of_leaf`).
-/

variable {D : Decision}

/-- A sub-pipeline evaluation around a leaf. -/
structure SubRun (D : Decision) where
  visit : StrategyVisit D
  pipeline : EvalPipeline D
  later : List (Tree D)

/-- A leaf evaluation: the sub-pipeline evaluations around it, outermost first, and the leaf
    patches merged before it in its own and its ancestors' contexts. -/
structure LeafRun (D : Decision) where
  visit : StrategyVisit D
  path : List (SubRun D)
  before : List (StrategyPatch D)

/-- The leaf and every sub-pipeline evaluation around it returned `Ok`. -/
def LeafRun.committed (ℓ : LeafRun D) : Bool :=
  ℓ.visit.out.isOk && ℓ.path.all (fun e => e.visit.out.isOk)

/-- The same leaf seen from outside a sub-pipeline evaluation. -/
def LeafRun.within (e : SubRun D) (ℓ : LeafRun D) : LeafRun D := { ℓ with path := e :: ℓ.path }

@[simp] theorem LeafRun.within_visit (e : SubRun D) (ℓ : LeafRun D) :
    (ℓ.within e).visit = ℓ.visit := rfl
@[simp] theorem LeafRun.within_path (e : SubRun D) (ℓ : LeafRun D) :
    (ℓ.within e).path = e :: ℓ.path := rfl
theorem LeafRun.committed_within (e : SubRun D) (ℓ : LeafRun D) :
    (ℓ.within e).committed = (e.visit.out.isOk && ℓ.committed) := by
  simp only [LeafRun.committed, LeafRun.within_visit, LeafRun.within_path, List.all_cons]
  exact Bool.and_left_comm _ _ _

mutual

/-- The leaf patches an evaluation commits to the context it was made in. -/
def RunRecord.merged : RunRecord D → List (StrategyPatch D)
  | .leaf visit => patchOf visit.out
  -- a sub-pipeline that fails hands nothing on, whatever its leaves committed inside it
  | .sub visit _ inner _ => if visit.out.isOk then RunRecord.mergedAll inner else []

/-- The leaf patches a list of evaluations commits. -/
def RunRecord.mergedAll : List (RunRecord D) → List (StrategyPatch D)
  | [] => []
  | r :: rs => r.merged ++ RunRecord.mergedAll rs

end

mutual

/-- The leaf evaluations of an evaluation, given the leaf patches merged before it. -/
def RunRecord.leaves : RunRecord D → List (StrategyPatch D) → List (LeafRun D)
  | .leaf visit, before => [⟨visit, [], before⟩]
  -- the child context starts from a copy of the parent's store
  | .sub visit pipeline inner later, before =>
    (RunRecord.leavesAll inner before).map (LeafRun.within ⟨visit, pipeline, later⟩)

/-- The leaf evaluations of a list of evaluations made in one context. -/
def RunRecord.leavesAll : List (RunRecord D) → List (StrategyPatch D) → List (LeafRun D)
  | [], _ => []
  | r :: rs, before => r.leaves before ++ RunRecord.leavesAll rs (before ++ r.merged)

end

/-- The executed leaves of a run, in depth-first execution order. -/
def PipelineTree.leaves (t : PipelineTree D) (ctx : EvalContext D) : List (LeafRun D) :=
  RunRecord.leavesAll (t.records ctx) []

/-- The patches of the committed ones among some leaves, in order. -/
def committedPatches (ls : List (LeafRun D)) : List (StrategyPatch D) :=
  (ls.filter LeafRun.committed).flatMap (fun ℓ => patchOf ℓ.visit.out)

/-! ### Lists of records -/

namespace RunRecord

@[simp] theorem mergedAll_nil : mergedAll ([] : List (RunRecord D)) = [] := rfl

theorem leavesAll_append (rs rs' : List (RunRecord D)) (before : List (StrategyPatch D)) :
    leavesAll (rs ++ rs') before =
      leavesAll rs before ++ leavesAll rs' (before ++ mergedAll rs) := by
  induction rs generalizing before with
  | nil => simp [leavesAll]
  | cons r rs ih =>
    rw [List.cons_append, leavesAll, leavesAll, ih, mergedAll, List.append_assoc,
      List.append_assoc]

/-- A leaf of a list of records is a leaf of one of them, behind the patches of the earlier
    ones. -/
theorem mem_leavesAll {rs : List (RunRecord D)} {before : List (StrategyPatch D)}
    {ℓ : LeafRun D} :
    ℓ ∈ leavesAll rs before ↔
      ∃ pre r post, rs = pre ++ r :: post ∧ ℓ ∈ r.leaves (before ++ mergedAll pre) := by
  constructor
  · intro h
    induction rs generalizing before with
    | nil => exact absurd h List.not_mem_nil
    | cons r rs ih =>
      rw [leavesAll] at h
      rcases List.mem_append.mp h with h | h
      · exact ⟨[], r, rs, rfl, by simpa using h⟩
      · obtain ⟨pre, r', post, rfl, hr'⟩ := ih h
        refine ⟨r :: pre, r', post, rfl, ?_⟩
        rw [mergedAll, ← List.append_assoc]
        exact hr'
  · rintro ⟨pre, r, post, rfl, h⟩
    rw [leavesAll_append, leavesAll]
    exact List.mem_append_right _ (List.mem_append_left _ h)

/-- A leaf of a list of records is a leaf of one of them. -/
theorem exists_of_mem_leavesAll {rs : List (RunRecord D)} {before : List (StrategyPatch D)}
    {ℓ : LeafRun D} (h : ℓ ∈ leavesAll rs before) : ∃ r ∈ rs, ∃ before', ℓ ∈ r.leaves before' := by
  obtain ⟨pre, r, post, rfl, hr⟩ := mem_leavesAll.mp h
  exact ⟨r, List.mem_append_cons_self, _, hr⟩

/-- An occurrence among the leaves of a list of records is one among the leaves of a record,
    with the leaves of the later records behind it. -/
theorem leavesAll_split {rs : List (RunRecord D)} {before : List (StrategyPatch D)}
    {pre post : List (LeafRun D)} {ℓ : LeafRun D}
    (h : leavesAll rs before = pre ++ ℓ :: post) :
    ∃ rpre r rpost pre' post', rs = rpre ++ r :: rpost ∧
      r.leaves (before ++ mergedAll rpre) = pre' ++ ℓ :: post' ∧
      post = post' ++ leavesAll rpost (before ++ mergedAll rpre ++ r.merged) := by
  induction rs generalizing before pre with
  | nil => exact absurd h.symm (by simp [leavesAll])
  | cons r rs ih =>
    rw [leavesAll] at h
    -- if the occurrence is behind the leaves of `r`, it is one among those of the later records
    have hbehind : ∀ mid, leavesAll rs (before ++ r.merged) = mid ++ ℓ :: post →
        ∃ rpre r' rpost pre' post', r :: rs = rpre ++ r' :: rpost ∧
          r'.leaves (before ++ mergedAll rpre) = pre' ++ ℓ :: post' ∧
          post = post' ++ leavesAll rpost (before ++ mergedAll rpre ++ r'.merged) := by
      intro mid hmid
      obtain ⟨rpre, r', rpost, pre', post', rfl, hleaves, hpost⟩ := ih hmid
      refine ⟨r :: rpre, r', rpost, pre', post', rfl, ?_, ?_⟩
      · rw [mergedAll, ← List.append_assoc]; exact hleaves
      · rw [mergedAll, ← List.append_assoc before]; exact hpost
    rcases List.append_eq_append_iff.mp h with ⟨mid, -, hmid⟩ | ⟨mid, hleaves, hmid⟩
    · exact hbehind mid hmid
    · cases mid with
      | nil => exact hbehind [] hmid.symm
      | cons ℓ' mid =>
        obtain ⟨rfl, rfl⟩ := List.cons.inj hmid
        exact ⟨[], r, rs, pre, mid, rfl, by simpa using hleaves, by simp⟩

theorem committedPatches_append (ls ls' : List (LeafRun D)) :
    committedPatches (ls ++ ls') = committedPatches ls ++ committedPatches ls' := by
  simp [committedPatches]

theorem committedPatches_within (e : SubRun D) (ls : List (LeafRun D)) :
    committedPatches (ls.map (LeafRun.within e)) =
      if e.visit.out.isOk then committedPatches ls else [] := by
  unfold committedPatches
  rw [List.filter_map]
  cases h : e.visit.out.isOk with
  | true =>
    have hp : LeafRun.committed ∘ LeafRun.within e = LeafRun.committed := by
      funext ℓ
      rw [Function.comp_apply, LeafRun.committed_within, h, Bool.true_and]
    rw [hp, List.flatMap_map]
    rfl
  | false =>
    have hp : LeafRun.committed ∘ LeafRun.within e = fun _ => false := by
      funext ℓ
      rw [Function.comp_apply, LeafRun.committed_within, h, Bool.false_and]
    rw [hp]
    simp

mutual

/-- The patches an evaluation commits are those of its committed leaves. -/
theorem merged_eq : ∀ (r : RunRecord D) (before : List (StrategyPatch D)),
    r.merged = committedPatches (r.leaves before)
  | .leaf visit, before => by
    unfold merged leaves committedPatches
    cases hout : visit.out <;> simp [LeafRun.committed, hout, Except.isOk, Except.toBool]
  | .sub visit pipeline inner later, before => by
    rw [merged, leaves, committedPatches_within, mergedAll_eq inner before]

/-- The patches a list of evaluations commits are those of its committed leaves. -/
theorem mergedAll_eq : ∀ (rs : List (RunRecord D)) (before : List (StrategyPatch D)),
    mergedAll rs = committedPatches (leavesAll rs before)
  | [], _ => rfl
  | r :: rs, before => by
    rw [mergedAll, leavesAll, committedPatches_append, ← merged_eq r before,
      ← mergedAll_eq rs (before ++ r.merged)]

end

/-! ### Evaluations of all depths -/

mutual

/-- An evaluation and those inside it, at any depth. -/
def all : RunRecord D → List (RunRecord D)
  | .leaf visit => [.leaf visit]
  | .sub visit pipeline inner later => .sub visit pipeline inner later :: allOf inner

/-- The evaluations of a list and those inside them. -/
def allOf : List (RunRecord D) → List (RunRecord D)
  | [] => []
  | r :: rs => r.all ++ allOf rs

end

theorem mem_all_self (r : RunRecord D) : r ∈ r.all := by
  cases r with
  | leaf v => exact List.mem_singleton_self _
  | sub v p inner later => exact List.mem_cons_self

theorem mem_allOf {rs : List (RunRecord D)} {r : RunRecord D} :
    r ∈ allOf rs ↔ ∃ r' ∈ rs, r ∈ r'.all := by
  induction rs with
  | nil => simp [allOf]
  | cons r' rs ih => rw [allOf, List.mem_append, ih]; simp

section Depth

variable {visit : StrategyVisit D} {pipeline : EvalPipeline D} {inner : List (RunRecord D)}
  {later : List (Tree D)}

mutual

/-- The leaves inside a sub-pipeline evaluation of any depth are leaves of the whole, with that
    evaluation on their paths. -/
theorem leaf_of_mem_all : ∀ (r : RunRecord D), .sub visit pipeline inner later ∈ r.all →
    ∀ before, ∃ before', ∀ ℓ ∈ leavesAll inner before', ∃ ℓ' ∈ r.leaves before, ∃ outer,
      ℓ'.visit = ℓ.visit ∧ ℓ'.path = outer ++ ⟨visit, pipeline, later⟩ :: ℓ.path
  | .leaf _, h, _ => by
    rw [all] at h
    cases List.mem_singleton.mp h
  | .sub visit' pipeline' inner' later', h, before => by
    rw [all] at h
    rcases List.mem_cons.mp h with heq | h
    · cases heq
      exact ⟨before, fun ℓ hℓ => ⟨_, List.mem_map_of_mem hℓ, [], rfl, rfl⟩⟩
    · obtain ⟨before', hbefore'⟩ := leaf_of_mem_allOf inner' h before
      refine ⟨before', fun ℓ hℓ => ?_⟩
      obtain ⟨ℓ', hℓ', outer, hvisit, hpath⟩ := hbefore' ℓ hℓ
      refine ⟨_, List.mem_map_of_mem hℓ', ⟨visit', pipeline', later'⟩ :: outer, hvisit, ?_⟩
      rw [LeafRun.within_path, hpath, List.cons_append]

/-- The leaves inside a sub-pipeline evaluation of any depth are leaves of the whole list. -/
theorem leaf_of_mem_allOf : ∀ (rs : List (RunRecord D)),
    .sub visit pipeline inner later ∈ allOf rs →
    ∀ before, ∃ before', ∀ ℓ ∈ leavesAll inner before', ∃ ℓ' ∈ leavesAll rs before, ∃ outer,
      ℓ'.visit = ℓ.visit ∧ ℓ'.path = outer ++ ⟨visit, pipeline, later⟩ :: ℓ.path
  | [], h, _ => absurd h List.not_mem_nil
  | r :: rs, h, before => by
    rw [allOf] at h
    rw [leavesAll]
    rcases List.mem_append.mp h with h | h
    · obtain ⟨before', hbefore'⟩ := leaf_of_mem_all r h before
      refine ⟨before', fun ℓ hℓ => ?_⟩
      obtain ⟨ℓ', hℓ', hspec⟩ := hbefore' ℓ hℓ
      exact ⟨ℓ', List.mem_append_left _ hℓ', hspec⟩
    · obtain ⟨before', hbefore'⟩ := leaf_of_mem_allOf rs h (before ++ r.merged)
      refine ⟨before', fun ℓ hℓ => ?_⟩
      obtain ⟨ℓ', hℓ', hspec⟩ := hbefore' ℓ hℓ
      exact ⟨ℓ', List.mem_append_right _ hℓ', hspec⟩

end

end Depth

section Path

variable {e : SubRun D} {rest : List (SubRun D)}

mutual

/-- Every evaluation on the path of a leaf is one of the evaluations, with that leaf inside. -/
theorem mem_all_of_leaf : ∀ (r : RunRecord D) (before : List (StrategyPatch D)) (ℓ : LeafRun D)
    (outer : List (SubRun D)), ℓ ∈ r.leaves before → ℓ.path = outer ++ e :: rest →
    ∃ inner before', .sub e.visit e.pipeline inner e.later ∈ r.all ∧
      ∃ ℓ' ∈ leavesAll inner before', ℓ'.visit = ℓ.visit ∧ ℓ'.path = rest
  | .leaf _, _, _, outer, h, hpath => by
    rw [leaves] at h
    obtain rfl := List.mem_singleton.mp h
    exact absurd hpath.symm (by simp)
  | .sub visit pipeline inner later, before, _, outer, h, hpath => by
    rw [leaves] at h
    obtain ⟨ℓ, hℓ, rfl⟩ := List.mem_map.mp h
    rw [LeafRun.within_path] at hpath
    cases outer with
    | nil =>
      obtain ⟨rfl, rfl⟩ := List.cons.inj hpath
      exact ⟨inner, before, by rw [all]; exact List.mem_cons_self, ℓ, hℓ, rfl, rfl⟩
    | cons e' outer =>
      obtain ⟨inner', before', hmem, hspec⟩ :=
        mem_allOf_of_leaf inner before ℓ outer hℓ (List.cons.inj hpath).2
      exact ⟨inner', before', by rw [all]; exact List.mem_cons_of_mem _ hmem, hspec⟩

/-- Every evaluation on the path of a leaf is one of the evaluations of the whole list. -/
theorem mem_allOf_of_leaf : ∀ (rs : List (RunRecord D)) (before : List (StrategyPatch D))
    (ℓ : LeafRun D) (outer : List (SubRun D)), ℓ ∈ leavesAll rs before →
    ℓ.path = outer ++ e :: rest →
    ∃ inner before', .sub e.visit e.pipeline inner e.later ∈ allOf rs ∧
      ∃ ℓ' ∈ leavesAll inner before', ℓ'.visit = ℓ.visit ∧ ℓ'.path = rest
  | [], _, _, _, h, _ => absurd h List.not_mem_nil
  | r :: rs, before, ℓ, outer, h, hpath => by
    rw [leavesAll] at h
    rcases List.mem_append.mp h with h | h
    · obtain ⟨inner, before', hmem, hspec⟩ := mem_all_of_leaf r before ℓ outer h hpath
      exact ⟨inner, before', by rw [allOf]; exact List.mem_append_left _ hmem, hspec⟩
    · obtain ⟨inner, before', hmem, hspec⟩ :=
        mem_allOf_of_leaf rs (before ++ r.merged) ℓ outer h hpath
      exact ⟨inner, before', by rw [allOf]; exact List.mem_append_right _ hmem, hspec⟩

end

end Path

end RunRecord

/-- What a sub-pipeline evaluation of any depth is: a run of a pipeline tree in a child context,
    evaluated by its parent as the strategy it stands for. -/
theorem PipelineTree.sub_of_mem_allOf {t : PipelineTree D} {ctx : EvalContext D}
    {visit : StrategyVisit D} {pipeline : EvalPipeline D} {inner : List (RunRecord D)}
    {later : List (Tree D)} (h : .sub visit pipeline inner later ∈ RunRecord.allOf (t.records ctx)) :
    ∃ newV4 t', pipeline = PipelineTree.pipeline t' ∧
      inner = t'.records (EvalPipeline.childContext newV4 visit.seen) ∧
      visit.stage = t'.pipeline.toStrategy newV4 ∧
      visit.out = t'.pipeline.evaluate newV4 visit.seen .new := by
  have hall : ∀ r ∈ t.records ctx, ∀ r' ∈ r.all, ∀ visit pipeline inner later,
      r' = .sub visit pipeline inner later →
      ∃ newV4 t', pipeline = PipelineTree.pipeline t' ∧
        inner = t'.records (EvalPipeline.childContext newV4 visit.seen) ∧
        visit.stage = t'.pipeline.toStrategy newV4 ∧
        visit.out = t'.pipeline.evaluate newV4 visit.seen .new := by
    refine record_induction ?_ ?_ t ctx
    · intro v r' hr' visit pipeline inner later heq
      rw [RunRecord.all] at hr'
      obtain rfl := List.mem_singleton.mp hr'
      cases heq
    · intro newV4 t' v later hstage hout ih r' hr' visit pipeline inner later' heq
      rw [RunRecord.all] at hr'
      rcases List.mem_cons.mp hr' with rfl | hr'
      · cases heq
        exact ⟨newV4, t', rfl, rfl, hstage, hout⟩
      · obtain ⟨r, hr, hr'⟩ := RunRecord.mem_allOf.mp hr'
        exact ih r hr r' hr' visit pipeline inner later' heq
  obtain ⟨r, hr, hmem⟩ := RunRecord.mem_allOf.mp h
  exact hall r hr _ hmem visit pipeline inner later rfl

end DarqEval
