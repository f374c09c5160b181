import DarqEval.Blind
import DarqEval.Merge
import DarqEval.Reorder

namespace DarqEval

open Lib

/-!
# What leaves are given

A sub-pipeline evaluates its strategies in a child context, with an identifier and a memo of its
own; everything else it takes over from its parent.

* `MemoStore.get_set` — reading a memo by key and type;
* `leaf_seen` — the whole context of a leaf at any depth: the root's own or a child of it, with
  the artifacts merged before the leaf;
* `Tree.Redrawn` — trees whose sub-pipelines draw other identifiers, as two executions of one
  pipeline do;
* `execute_of_sameReading` — the root's identifier and memo reach no leaf below the root.
-/

variable {D : Decision}

/-! ### The memo -/

namespace MemoStore

@[simp] theorem get_new (key typeName : String) : MemoStore.new.get key typeName = none := rfl

/-- A read gives the last value stored under the key, if it is asked for by its type. -/
theorem get_set (memo : MemoStore) (key key' typeName : String) (value : AnyBox) :
    (memo.set key value).get key' typeName =
      if key' = key then (if value.typeName = typeName then some value.content else none)
      else memo.get key' typeName := by
  unfold get set
  by_cases hkey : key' = key
  · rw [if_pos hkey, hkey, AList.lookup_insert, Option.bind_some]
  · rw [if_neg hkey, AList.lookup_insert_ne hkey]

end MemoStore

/-! ### The context of a leaf -/

/-- The leaves inside an evaluation made in `base` with some patches merged are given `base`, or a
    child of it, with the patches merged before them. -/
def RunRecord.GivenFrom (r : RunRecord D) : Prop :=
  ∀ (before : List (StrategyPatch D)) (base : EvalContext D),
    r.visit.seen = base.merge (before.flatMap StrategyPatch.artifacts) → ∀ ℓ ∈ r.leaves before,
      (ℓ.path = [] → ℓ.visit.seen = base.merge (ℓ.before.flatMap StrategyPatch.artifacts)) ∧
      (ℓ.path ≠ [] → ∃ newV4, ℓ.visit.seen =
        (EvalPipeline.childContext newV4 base).merge (ℓ.before.flatMap StrategyPatch.artifacts))

private theorem given_of_records {t : PipelineTree D} {ctx : EvalContext D}
    (h : ∀ r ∈ t.records ctx, r.GivenFrom) {before : List (StrategyPatch D)}
    {base : EvalContext D} (hctx : ctx = base.merge (before.flatMap StrategyPatch.artifacts)) :
    ∀ ℓ ∈ RunRecord.leavesAll (t.records ctx) before,
      (ℓ.path = [] → ℓ.visit.seen = base.merge (ℓ.before.flatMap StrategyPatch.artifacts)) ∧
      (ℓ.path ≠ [] → ∃ newV4, ℓ.visit.seen =
        (EvalPipeline.childContext newV4 base).merge
          (ℓ.before.flatMap StrategyPatch.artifacts)) := by
  intro ℓ hℓ
  obtain ⟨pre, r, post, heq, hr⟩ := RunRecord.mem_leavesAll.mp hℓ
  have hmem : r ∈ t.records ctx := by
    rw [heq]
    exact List.mem_append_cons_self
  refine h r hmem _ base ?_ ℓ hr
  rw [record_seen heq, hctx, EvalContext.merge_merge, List.flatMap_append]

theorem records_givenFrom (t : PipelineTree D) (ctx : EvalContext D) :
    ∀ r ∈ t.records ctx, r.GivenFrom := by
  refine PipelineTree.record_induction ?_ ?_ t ctx
  · intro v before base hbase ℓ hℓ
    rw [RunRecord.leaves] at hℓ
    obtain rfl := List.mem_singleton.mp hℓ
    exact ⟨fun _ => hbase, fun hpath => absurd rfl hpath⟩
  · intro newV4 t' v later _ _ ih before base hbase ℓ hℓ
    rw [RunRecord.leaves] at hℓ
    obtain ⟨ℓ', hℓ', rfl⟩ := List.mem_map.mp hℓ
    -- the run inside starts from a child of what the evaluation was given
    have hchild : EvalPipeline.childContext newV4 v.seen =
        (EvalPipeline.childContext newV4 base).merge
          (before.flatMap StrategyPatch.artifacts) := by
      rw [show v.seen = _ from hbase]
      rfl
    obtain ⟨hown, hbelow⟩ := given_of_records ih hchild ℓ' hℓ'
    refine ⟨fun hpath => absurd hpath (List.cons_ne_nil _ _), fun _ => ?_⟩
    by_cases hpath : ℓ'.path = []
    · exact ⟨newV4, hown hpath⟩
    · -- a child of a child is a child
      obtain ⟨newV4', hseen⟩ := hbelow hpath
      exact ⟨newV4', hseen⟩

/-- **What a leaf is given.** A leaf of the root is evaluated in the root's context, and a leaf of
    any sub-pipeline in a context that differs from it by a fresh identifier and an empty memo;
    either with the artifacts of the patches merged before it in its own and its ancestors'
    contexts, and whatever the run returns. -/
theorem leaf_seen (t : PipelineTree D) (ctx : EvalContext D) :
    ∀ ℓ ∈ t.leaves ctx,
      (ℓ.path = [] → ℓ.visit.seen = ctx.merge (ℓ.before.flatMap StrategyPatch.artifacts)) ∧
      (ℓ.path ≠ [] →
        (∃ newV4, ℓ.visit.seen =
          { ctx with
            evalId := newV4
            memo := .new
            artifacts := ctx.artifacts.appendAll (ℓ.before.flatMap StrategyPatch.artifacts) }) ∧
        ∀ key typeName, ℓ.visit.seen.memo.get key typeName = none) := by
  intro ℓ hℓ
  have hctx : ctx = ctx.merge (([] : List (StrategyPatch D)).flatMap StrategyPatch.artifacts) := by
    simp
  obtain ⟨hown, hbelow⟩ := given_of_records (records_givenFrom t ctx) hctx ℓ hℓ
  refine ⟨hown, fun hpath => ?_⟩
  obtain ⟨newV4, hseen⟩ := hbelow hpath
  refine ⟨⟨newV4, hseen⟩, fun key typeName => ?_⟩
  rw [hseen]
  exact MemoStore.get_new key typeName

namespace Sample

/-- A decider that looks for an earlier output in the memo. -/
def rememberer : EvalStrategy decision where
  id := "rememberer"
  version := ⟨1, 0, 0⟩
  phase := .decide
  priority := 0
  evaluate := fun ctx _ =>
    match ctx.memo.get "output" "u64" with
    | some (.number (.posInt n)) => .ok ⟨[], [], [], [], .finalize (.auto n.toNat)⟩
    | _ => .ok ⟨[], [], [], [], .continue⟩

/-- A context whose memo holds an output. -/
def remembering : EvalContext decision :=
  { context with memo := MemoStore.new.set "output" ⟨"u64", .number (.posInt 7)⟩ }

end Sample

/-- A decider inside a sub-pipeline finds nothing in the memo it is given. -/
theorem leaf_seen_remembering :
    ∃ ℓ ∈ (Sample.tree [Sample.sub "inner" [.leaf Sample.rememberer]]).leaves Sample.remembering,
      ℓ.path ≠ [] ∧ ℓ.visit.seen.memo.get "output" "u64" = none := by
  obtain ⟨ℓ, hℓ, hpath⟩ : ∃ ℓ ∈ (Sample.tree [Sample.sub "inner" [.leaf Sample.rememberer]]).leaves
      Sample.remembering, ℓ.path ≠ [] :=
    ⟨_, List.mem_cons_self, List.cons_ne_nil _ _⟩
  exact ⟨ℓ, hℓ, hpath, ((leaf_seen _ Sample.remembering ℓ hℓ).2 hpath).2 "output" "u64"⟩

/-! ### The memo stays where it is -/

/-- The contexts differ at most in the identifier. -/
def SameButId (c c' : EvalContext D) : Prop := c' = { c with evalId := c'.evalId }

/-- The trees differ in the identifiers their evaluations draw, but not in one that a leaf reads of
    its own sub-pipeline. -/
inductive Tree.Redrawn : Tree D → Tree D → Prop
  | leaf (s : EvalStrategy D) : Tree.Redrawn (.leaf s) (.leaf s)
  | sub (newV4 newV4' : Uuid) (settings : Settings) {ts ts' : List (Tree D)} :
    (newV4 ≠ newV4' → ∀ s, Tree.leaf s ∈ ts → s.BlindTo SameButId) →
    List.Forall₂ Tree.Redrawn ts ts' →
      Tree.Redrawn (.sub newV4 settings ts) (.sub newV4' settings ts')

/-- The root pipelines differ in the identifiers their sub-pipelines draw, but not in one that a
    leaf reads. -/
structure PipelineTree.Redrawn (t t' : PipelineTree D) : Prop where
  settings : t.settings = t'.settings
  children : List.Forall₂ Tree.Redrawn t.children t'.children

theorem unseen_eq : Unseen (D := D) Eq where
  input := congrArg EvalContext.input
  constraints := congrArg EvalContext.constraints
  merge xs := congrArg (EvalContext.merge · xs)
  childContext newV4 := congrArg (EvalPipeline.childContext newV4)

theorem unseen_sameButId : Unseen (D := D) SameButId where
  input h := by rw [h]
  constraints h := by rw [h]
  merge xs h := by
    unfold SameButId at h ⊢
    rw [h]
    rfl
  childContext newV4 h := by
    unfold SameButId at h ⊢
    rw [h]
    rfl

/-- What the child contexts of a redrawn sub-pipeline have in common is all that its own leaves look
    at: everything, or everything but an identifier drawn anew. -/
theorem exists_unseen_of_drawn {newV4 newV4' : Uuid} {ts : List (Tree D)}
    (hdrawn : newV4 ≠ newV4' → ∀ s, Tree.leaf s ∈ ts → s.BlindTo SameButId) :
    ∃ S : EvalContext D → EvalContext D → Prop, Unseen S ∧ (∀ c c', S c c' → SameReading c c') ∧
      (∀ s, Tree.leaf s ∈ ts → s.BlindTo S) ∧
      ∀ c c', SameReading c c' →
        S (EvalPipeline.childContext newV4 c) (EvalPipeline.childContext newV4' c') := by
  by_cases heq : newV4 = newV4'
  · refine ⟨Eq, unseen_eq, ?_, ?_, fun c c' hc => ?_⟩
    · rintro c _ rfl
      exact SameReading.refl c
    · rintro s _ c _ caps rfl
      rfl
    · rw [heq, hc]
      rfl
  · refine ⟨SameButId, unseen_sameButId, fun c c' hc => ?_, hdrawn heq, fun c c' hc => ?_⟩
    · unfold SameReading
      rw [hc]
    · unfold SameButId
      rw [hc]
      rfl

/-- **Redrawn trees return the same** wherever they are given the same but for identifier and memo,
    unless they are leaves that look at these. -/
theorem matched_of_redrawn (u : Tree D) {S : EvalContext D → EvalContext D → Prop} (hS : Unseen S)
    (hsame : ∀ c c', S c c' → SameReading c c') (hleaf : ∀ s, u = .leaf s → s.BlindTo S) :
    ∀ u', u.Redrawn u' → Matched S u.strategy u'.strategy := by
  induction u using Tree.induction generalizing S with
  | hleaf s =>
    intro u' h
    cases h
    exact ⟨rfl, hleaf s rfl⟩
  | hsub newV4 settings ts ih =>
    intro u' h
    cases h with
    | sub _ newV4' _ hdrawn hrel =>
      -- the children are compared in what the two child contexts have in common
      obtain ⟨S', hS', hsame', hleaf', hchild⟩ := exists_unseen_of_drawn hdrawn
      have hrel' := forall₂_strategies hrel (fun t ht t' htt' =>
        ih t ht hS' hsame' (fun s hs => hleaf' s (hs ▸ ht)) t' htt')
      refine ⟨?_, fun c c' caps hc => ?_⟩
      · have hphase := phase_matched settings hrel'
        simp only [EvalStrategy.label, Tree.strategy, EvalPipeline.toStrategy, hphase]
        rfl
      · have hrun := sameRun_of_matched settings hS' (order_matched settings hrel')
          (hchild c c' (hsame c c' hc))
        exact hrun.evaluate_eq rfl caps caps

/-- **The memo is not handed down.** If the root's own leaves read neither identifier nor memo, a
    tree executes alike whatever the two are, though the leaves of its sub-pipelines may read their
    memo, and their identifier where it is not drawn anew; and no run changes either. -/
theorem execute_of_sameReading {t t' : PipelineTree D} (hredrawn : t.Redrawn t')
    (ht : ∀ s, Tree.leaf s ∈ t.children → s.Steady) {ctx ctx' : EvalContext D}
    (h : SameReading ctx ctx') :
    (t.execute ctx).Alike (t'.execute ctx') ∧
      (t.execute ctx).ctx.memo = ctx.memo ∧ (t.execute ctx).ctx.evalId = ctx.evalId := by
  obtain ⟨hsettings, hrel⟩ := hredrawn
  have hrel' := forall₂_strategies hrel (fun u hu u' huu' =>
    matched_of_redrawn u unseen_sameReading (fun _ _ hc => hc) (fun s hs => ht s (hs ▸ hu)) u' huu')
  have hrun := sameRun_of_matched t.settings unseen_sameReading (order_matched t.settings hrel') h
  have hpipeline : t'.pipeline = t.settings.pipeline (Tree.strategies t'.children) := by
    rw [PipelineTree.pipeline, hsettings]
  refine ⟨?_, ?_, ?_⟩
  · rw [PipelineTree.execute, PipelineTree.execute, hpipeline]
    exact hrun.execute_alike h.artifacts
  · rw [PipelineTree.execute, EvalPipeline.execute_ctx]
    rfl
  · rw [PipelineTree.execute, EvalPipeline.execute_ctx]
    rfl

namespace Sample

/-- A sub-pipeline that draws the given identifier, with the decider that looks into the memo. -/
def recalling (newV4 : Uuid) : Tree decision :=
  .sub newV4 ⟨"inner", .new, true, true⟩ [.leaf rememberer]

end Sample

/-- Below the root, the decider finds nothing in the root's memo, whatever identifier its
    sub-pipeline draws. -/
theorem execute_of_sameReading_remembering :
    ((Sample.tree [Sample.recalling 3]).execute Sample.remembering).Alike
      ((Sample.tree [Sample.recalling 5]).execute Sample.context) := by
  have hblind : ∀ s, Tree.leaf s ∈ [Tree.leaf Sample.rememberer] → s.BlindTo SameButId := by
    rintro s hs c c' caps hc
    obtain rfl : s = Sample.rememberer := Tree.leaf.inj (List.mem_singleton.mp hs)
    unfold SameButId at hc
    rw [hc]
    rfl
  have hredrawn : (Sample.tree [Sample.recalling 3]).Redrawn (Sample.tree [Sample.recalling 5]) :=
    ⟨rfl, .cons (.sub 3 5 _ (fun _ => hblind) (.cons (.leaf _) .nil)) .nil⟩
  have hsteady : ∀ s, Tree.leaf s ∈ (Sample.tree [Sample.recalling 3]).children → s.Steady := by
    intro s hs
    cases List.mem_singleton.mp hs
  have hsame : SameReading Sample.remembering Sample.context := rfl
  exact (execute_of_sameReading hredrawn hsteady hsame).1

end DarqEval
