import DarqEval.Blind

namespace DarqEval

open Lib

/-!
# Registration order

Strategies run in the order of their `(phase, priority, id)`, so where these differ, the order
in which `add_strategy` was called is lost, at the root and inside sub-pipelines.

* `SameReading` — contexts that differ in nothing a steady strategy reads;
* `Tree.Reordered`, `PipelineTree.Reordered` — trees that differ in the order of registration;
* `interchangeable_of_reordered` — they stand for strategies that return the same;
* `execute_reordered` — they execute alike.
-/

variable {D : Decision}

/-- The contexts differ at most in identifier and memo. -/
def SameReading (c c' : EvalContext D) : Prop :=
  c' = { c with evalId := c'.evalId, memo := c'.memo }

/-- The strategy reads neither the identifier nor the memo. -/
def EvalStrategy.Steady (s : EvalStrategy D) : Prop :=
  ∀ c c' caps, SameReading c c' → s.evaluate c caps = s.evaluate c' caps

/-- The trees differ in the order in which strategies were registered, at any depth, and in the
    identifiers their evaluations draw. -/
inductive Tree.Reordered : Tree D → Tree D → Prop
  | leaf (s : EvalStrategy D) : Tree.Reordered (.leaf s) (.leaf s)
  | sub (newV4 newV4' : Uuid) (settings : Settings) {ts us ts' : List (Tree D)} :
    List.Forall₂ Tree.Reordered ts us → us.Perm ts' →
      Tree.Reordered (.sub newV4 settings ts) (.sub newV4' settings ts')

/-- The `(phase, priority, id)` of the given trees are pairwise distinct. -/
def DistinctKeys (ts : List (Tree D)) : Prop := (ts.map (fun t => t.strategy.sortKey)).Nodup

instance (ts : List (Tree D)) : Decidable (DistinctKeys ts) :=
  inferInstanceAs (Decidable (List.Nodup _))

/-- At every level the keys are distinct, and every leaf is steady. -/
inductive Tree.Orderly : Tree D → Prop
  | leaf {s : EvalStrategy D} : s.Steady → Tree.Orderly (.leaf s)
  | sub {newV4 : Uuid} {settings : Settings} {ts : List (Tree D)} : DistinctKeys ts →
    (∀ t ∈ ts, Tree.Orderly t) → Tree.Orderly (.sub newV4 settings ts)

/-- The root pipelines differ in the order in which strategies were registered, at any depth. -/
structure PipelineTree.Reordered (t t' : PipelineTree D) : Prop where
  settings : t.settings = t'.settings
  children : ∃ us, List.Forall₂ Tree.Reordered t.children us ∧ us.Perm t'.children

/-- At every level the keys are distinct, and every leaf is steady. -/
structure PipelineTree.Orderly (t : PipelineTree D) : Prop where
  distinct : DistinctKeys t.children
  children : ∀ u ∈ t.children, u.Orderly

/-! ### Contexts that read the same -/

namespace SameReading

theorem refl (c : EvalContext D) : SameReading c c := rfl

variable {c c' : EvalContext D} (h : SameReading c c')

include h

theorem input : c.input = c'.input := by rw [h]
theorem constraints : c.constraints = c'.constraints := by rw [h]
theorem artifacts : c.artifacts = c'.artifacts := by rw [h]

theorem merge (xs : List Artifact) : SameReading (c.merge xs) (c'.merge xs) := by
  unfold SameReading at h ⊢
  rw [h]
  rfl

theorem commit (out : Output D) : SameReading (Output.commit out c) (Output.commit out c') := by
  rw [commit_eq, commit_eq]
  exact h.merge _

theorem childContext (newV4 newV4' : Uuid) :
    SameReading (EvalPipeline.childContext newV4 c) (EvalPipeline.childContext newV4' c') := by
  unfold SameReading at h ⊢
  rw [h]
  rfl

end SameReading

theorem unseen_sameReading : Unseen (D := D) SameReading where
  input h := h.input
  constraints h := h.constraints
  merge xs h := h.merge xs
  childContext newV4 h := h.childContext newV4 newV4

/-! ### Pipelines over interchangeable strategies -/

/-- Equally labelled strategies that return the same in contexts that read the same. -/
def Interchangeable (s s' : EvalStrategy D) : Prop :=
  s.label = s'.label ∧ ∀ c c' caps, SameReading c c' → s.evaluate c caps = s'.evaluate c' caps

section Pipelines

variable {ss us ss' : List (EvalStrategy D)} (hrel : List.Forall₂ Interchangeable ss us)
  (hperm : us.Perm ss')

include hrel hperm

theorem phase_eq_of_interchangeable (c : Settings) :
    (c.pipeline ss).phase = (c.pipeline ss').phase := by
  rw [phase_matched c hrel]
  show ((us.map EvalStrategy.phase).min?.getD .enrich) = (ss'.map EvalStrategy.phase).min?.getD _
  rw [min?_eq_of_perm (hperm.map EvalStrategy.phase)]

/-- Strategies with distinct keys run in one order, however they were registered. -/
theorem order_of_interchangeable (c : Settings) (hkeys : (ss.map EvalStrategy.sortKey).Nodup) :
    List.Forall₂ Interchangeable (c.pipeline ss).order (c.pipeline ss').order := by
  have hsame : ss.map EvalStrategy.sortKey = us.map EvalStrategy.sortKey :=
    map_eq_of_forall₂ hrel (fun _ _ _ _ hs => EvalStrategy.sortKey_eq_of_label hs.1)
  -- the permutation is undone by the sort, the pointwise change is kept by it
  have hkeys' : (us.map EvalStrategy.sortKey).Nodup := by
    rw [← hsame]
    exact hkeys
  have hsort : (c.pipeline us).order = (c.pipeline ss').order := sortBy_eq_of_perm hperm hkeys'
  rw [← hsort]
  exact order_matched c hrel

theorem sameRun_of_interchangeable (c : Settings) (hkeys : (ss.map EvalStrategy.sortKey).Nodup)
    {ctx ctx' : EvalContext D} (hctx : SameReading ctx ctx') :
    SameRun (c.pipeline ss) ctx (c.pipeline ss') ctx' :=
  sameRun_of_matched c unseen_sameReading (order_of_interchangeable hrel hperm c hkeys) hctx

end Pipelines

/-! ### Reordered trees -/

/-- Trees related one by one stand for strategies related one by one. -/
theorem forall₂_strategies {T : Tree D → Tree D → Prop} {R : EvalStrategy D → EvalStrategy D → Prop}
    {ts us : List (Tree D)} (h : List.Forall₂ T ts us)
    (hts : ∀ t ∈ ts, ∀ u, T t u → R t.strategy u.strategy) :
    List.Forall₂ R (Tree.strategies ts) (Tree.strategies us) := by
  induction h with
  | nil => exact List.Forall₂.nil
  | @cons t u ts us htu _ ih =>
    exact List.Forall₂.cons (hts t List.mem_cons_self u htu)
      (ih (fun t' ht' => hts t' (List.mem_cons_of_mem _ ht')))

theorem distinctKeys_strategies {ts : List (Tree D)} (h : DistinctKeys ts) :
    ((Tree.strategies ts).map EvalStrategy.sortKey).Nodup := by
  rw [Tree.strategies_eq_map, List.map_map]
  exact h

theorem perm_strategies {us ts : List (Tree D)} (h : us.Perm ts) :
    (Tree.strategies us).Perm (Tree.strategies ts) := by
  rw [Tree.strategies_eq_map, Tree.strategies_eq_map]
  exact h.map Tree.strategy

/-- **Reordered trees return the same.** -/
theorem interchangeable_of_reordered (u : Tree D) (hu : u.Orderly) :
    ∀ u', u.Reordered u' → Interchangeable u.strategy u'.strategy := by
  induction u using Tree.induction with
  | hleaf s =>
    intro u' h
    cases h
    cases hu with
    | leaf hs => exact ⟨rfl, hs⟩
  | hsub newV4 settings ts ih =>
    intro u' h
    cases h with
    | sub _ newV4' _ hrel hperm =>
      cases hu with
      | sub hkeys hts =>
        have hrel' := forall₂_strategies hrel (fun t ht u htu => ih t ht (hts t ht) u htu)
        have hperm' := perm_strategies hperm
        have hkeys' := distinctKeys_strategies hkeys
        refine ⟨?_, fun c c' caps hc => ?_⟩
        · -- the computed phase is part of the parent's sort key
          have hphase := phase_eq_of_interchangeable hrel' hperm' settings
          simp only [EvalStrategy.label, Tree.strategy, EvalPipeline.toStrategy, hphase]
          rfl
        · have hrun := sameRun_of_interchangeable hrel' hperm' settings hkeys'
            (hc.childContext newV4 newV4')
          exact hrun.evaluate_eq rfl caps caps

/-- **Registration order does not matter.** Trees that differ in the order in which their
    strategies were registered, at any depth, execute alike, provided that the keys at each level
    differ and no leaf reads the identifier or the memo. -/
theorem execute_reordered {t t' : PipelineTree D} (h : t.Reordered t') (ht : t.Orderly)
    (ctx : EvalContext D) : (t.execute ctx).Alike (t'.execute ctx) := by
  obtain ⟨hsettings, us, hrel, hperm⟩ := h
  have hrel' := forall₂_strategies hrel
    (fun u hu u' huu' => interchangeable_of_reordered u (ht.children u hu) u' huu')
  have hrun := sameRun_of_interchangeable hrel' (perm_strategies hperm) t.settings
    (distinctKeys_strategies ht.distinct) (SameReading.refl ctx)
  have hpipeline : t'.pipeline = t.settings.pipeline (Tree.strategies t'.children) := by
    rw [PipelineTree.pipeline, hsettings]
  rw [PipelineTree.execute, PipelineTree.execute, hpipeline]
  exact hrun.execute_alike rfl

namespace Sample

/-- An early finalization and a check, to be registered in either order. -/
def early : Tree decision := .leaf (leaf "early" .evaluate (.finalize (.auto (9 : Nat))))

/-- A check that continues. -/
def check : Tree decision := .leaf (leaf "check" .evaluate .continue)

/-- A decider that approves. -/
def decider : Tree decision := .leaf (leaf "decider" .decide (.finalize (.auto (2 : Nat))))

end Sample

/-- A nested check behind its decider, or in front of it, makes no difference. -/
theorem execute_reordered_nested :
    ((Sample.tree [Sample.decider, Sample.sub "inner" [Sample.early, Sample.check]]).execute
      Sample.context).Alike
    ((Sample.tree [Sample.sub "inner" [Sample.check, Sample.early], Sample.decider]).execute
      Sample.context) := by
  have hinner : List.Forall₂ Tree.Reordered [Sample.early, Sample.check]
      [Sample.early, Sample.check] :=
    .cons (.leaf _) (.cons (.leaf _) .nil)
  have hrel : List.Forall₂ Tree.Reordered
      [Sample.decider, Sample.sub "inner" [Sample.early, Sample.check]]
      [Sample.decider, Sample.sub "inner" [Sample.check, Sample.early]] :=
    .cons (.leaf _) (.cons (.sub 0 0 _ hinner (.swap _ _ _)) .nil)
  have hreordered :
      (Sample.tree [Sample.decider, Sample.sub "inner" [Sample.early, Sample.check]]).Reordered
        (Sample.tree [Sample.sub "inner" [Sample.check, Sample.early], Sample.decider]) :=
    ⟨rfl, _, hrel, .swap _ _ _⟩
  have hleaf : ∀ id phase control, (Tree.leaf (Sample.leaf id phase control)).Orderly :=
    fun id phase control => .leaf (fun _ _ _ _ => rfl)
  have hsub : (Sample.sub "inner" [Sample.early, Sample.check]).Orderly := by
    refine .sub (by decide) (fun u hu => ?_)
    rcases List.mem_pair.mp hu with rfl | rfl <;> exact hleaf _ _ _
  have horderly :
      (Sample.tree [Sample.decider, Sample.sub "inner" [Sample.early, Sample.check]]).Orderly := by
    refine ⟨by decide, fun u hu => ?_⟩
    rcases List.mem_pair.mp hu with rfl | rfl
    · exact hleaf _ _ _
    · exact hsub
  exact execute_reordered hreordered horderly Sample.context

end DarqEval
