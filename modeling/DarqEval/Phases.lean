import DarqEval.Grammar
import DarqEval.Leaves

namespace DarqEval

open Lib

/-!
# Phases at any depth

A pipeline runs its strategies phase by phase, and a sub-pipeline in the earliest phase of its
strategies.  So the phases never decrease from a pipeline to those inside it; a leaf is run before
one of an earlier phase only if a sub-pipeline around it is run earlier than it says itself.

* `LeafRun.phases` — the phases of the pipelines around a leaf and its own;
* `InPhaseOrder` — when a leaf may be run before another one;
* `leaves_phases` — both hold of all leaves of a run.
-/

variable {D : Decision}

/-- A sub-pipeline is run no later than any of its strategies says. -/
theorem EvalPipeline.phase_le {p : EvalPipeline D} {s : EvalStrategy D} (h : s ∈ p.strategies) :
    p.phase ≤ s.phase := by
  have hmem : s.phase ∈ p.strategies.map EvalStrategy.phase := List.mem_map_of_mem h
  unfold EvalPipeline.phase
  cases hmin : (p.strategies.map EvalStrategy.phase).min? with
  | none =>
    rw [List.min?_eq_none_iff.mp hmin] at hmem
    exact absurd hmem List.not_mem_nil
  | some phase => exact (List.min?_eq_some_iff.mp hmin).2 _ hmem

/-- The phases of the pipelines around a leaf, outermost first, and its own. -/
def LeafRun.phases (ℓ : LeafRun D) : List Phase :=
  ℓ.path.map (fun e => e.visit.stage.phase) ++ [ℓ.visit.stage.phase]

theorem LeafRun.phases_within (e : SubRun D) (ℓ : LeafRun D) :
    (ℓ.within e).phases = e.visit.stage.phase :: ℓ.phases := rfl

/-- The first leaf is of no later phase than the second one, or a sub-pipeline around it is of an
    earlier phase than it is itself. -/
def InPhaseOrder (ℓ ℓ' : LeafRun D) : Prop :=
  ℓ.visit.stage.phase ≤ ℓ'.visit.stage.phase ∨
    ∃ e ∈ ℓ.path, e.visit.stage.phase < ℓ.visit.stage.phase

theorem InPhaseOrder.within {ℓ ℓ' : LeafRun D} (h : InPhaseOrder ℓ ℓ') (e : SubRun D) :
    InPhaseOrder (ℓ.within e) (ℓ'.within e) := by
  refine h.imp id (fun ⟨e', he', hlt⟩ => ⟨e', ?_, hlt⟩)
  rw [LeafRun.within_path]
  exact List.mem_cons_of_mem e he'

/-! ### The phases around a leaf -/

/-- The phases around the leaves of an evaluation start with its own and never decrease. -/
def RunRecord.PhasesInward (r : RunRecord D) : Prop :=
  ∀ before, ∀ ℓ ∈ r.leaves before,
    ℓ.phases.Pairwise (· ≤ ·) ∧ ∀ phase ∈ ℓ.phases, r.visit.stage.phase ≤ phase

theorem records_phasesInward (t : PipelineTree D) (ctx : EvalContext D) :
    ∀ r ∈ t.records ctx, r.PhasesInward := by
  refine PipelineTree.record_induction ?_ ?_ t ctx
  · intro v before ℓ hℓ
    rw [RunRecord.leaves] at hℓ
    obtain rfl := List.mem_singleton.mp hℓ
    refine ⟨List.pairwise_singleton _ _, fun phase hphase => ?_⟩
    obtain rfl := List.mem_singleton.mp hphase
    exact le_refl _
  · intro newV4 t' v later hstage _ ih before ℓ hℓ
    rw [RunRecord.leaves] at hℓ
    obtain ⟨ℓ', hℓ', rfl⟩ := List.mem_map.mp hℓ
    obtain ⟨r, hr, before', hr'⟩ := RunRecord.exists_of_mem_leavesAll hℓ'
    obtain ⟨hsorted, hle⟩ := ih r hr before' ℓ' hr'
    -- the evaluation around the leaf is of a strategy of the sub-pipeline
    have hmem := (EvalPipeline.visits_spec (t'.visit_mem_visits hr)).1
    have hphase : v.stage.phase ≤ r.visit.stage.phase := by
      rw [hstage]
      exact EvalPipeline.phase_le hmem
    have hall : ∀ phase ∈ ℓ'.phases, v.stage.phase ≤ phase :=
      fun phase hin => hphase.trans (hle phase hin)
    rw [LeafRun.phases_within]
    refine ⟨List.pairwise_cons.mpr ⟨hall, hsorted⟩, fun phase hin => ?_⟩
    rcases List.mem_cons.mp hin with rfl | hin
    · exact le_refl _
    · exact hall phase hin

/-! ### From leaf to leaf -/

/-- A leaf of the phase of the evaluation around it, or with a sub-pipeline of an earlier phase
    around it. -/
theorem phase_eq_or_lt {t : PipelineTree D} {ctx : EvalContext D} {r : RunRecord D}
    (hr : r ∈ t.records ctx) {before : List (StrategyPatch D)} {ℓ : LeafRun D}
    (hℓ : ℓ ∈ r.leaves before) : ℓ.visit.stage.phase = r.visit.stage.phase ∨
      ∃ e ∈ ℓ.path, e.visit.stage.phase < ℓ.visit.stage.phase := by
  have hle := (records_phasesInward t ctx r hr before ℓ hℓ).2 ℓ.visit.stage.phase
    (List.mem_append_right _ (List.mem_singleton_self _))
  cases r with
  | leaf v =>
    rw [RunRecord.leaves] at hℓ
    obtain rfl := List.mem_singleton.mp hℓ
    exact Or.inl rfl
  | sub v p inner later =>
    rw [RunRecord.leaves] at hℓ
    obtain ⟨ℓ', hℓ', rfl⟩ := List.mem_map.mp hℓ
    rcases hle.eq_or_lt with heq | hlt
    · exact Or.inl heq.symm
    · exact Or.inr ⟨⟨v, p, later⟩, List.mem_cons_self, hlt⟩

/-- The leaves of some evaluations are in phase order, if those of each one are, its phase is no
    later than theirs, and the evaluations are in phase order themselves. -/
theorem pairwise_leavesAll {rs : List (RunRecord D)}
    (hphases : (rs.map (fun r => r.visit.stage.phase)).Pairwise (· ≤ ·))
    (hinner : ∀ r ∈ rs, ∀ before, (r.leaves before).Pairwise InPhaseOrder)
    (hrecords : ∀ r ∈ rs, ∀ before, ∀ ℓ ∈ r.leaves before,
      r.visit.stage.phase ≤ ℓ.visit.stage.phase ∧ (ℓ.visit.stage.phase = r.visit.stage.phase ∨
        ∃ e ∈ ℓ.path, e.visit.stage.phase < ℓ.visit.stage.phase))
    (before : List (StrategyPatch D)) :
    (RunRecord.leavesAll rs before).Pairwise InPhaseOrder := by
  induction rs generalizing before with
  | nil => exact List.Pairwise.nil
  | cons r rs ih =>
    rw [List.map_cons] at hphases
    obtain ⟨hhead, htail⟩ := List.pairwise_cons.mp hphases
    rw [RunRecord.leavesAll, List.pairwise_append]
    refine ⟨hinner r List.mem_cons_self before,
      ih htail (fun r' hr' => hinner r' (List.mem_cons_of_mem r hr'))
        (fun r' hr' => hrecords r' (List.mem_cons_of_mem r hr')) _, fun ℓ hℓ ℓ' hℓ' => ?_⟩
    -- a leaf of a later record is of no earlier phase than this record
    obtain ⟨r', hr', before', hin⟩ := RunRecord.exists_of_mem_leavesAll hℓ'
    have hle : r.visit.stage.phase ≤ ℓ'.visit.stage.phase :=
      (hhead _ (List.mem_map_of_mem hr')).trans
        (hrecords r' (List.mem_cons_of_mem r hr') before' ℓ' hin).1
    refine (hrecords r List.mem_cons_self before ℓ hℓ).2.imp (fun heq => ?_) id
    rw [heq]
    exact hle

private theorem pairwise_of_records {t : PipelineTree D} {ctx : EvalContext D}
    (h : ∀ r ∈ t.records ctx, ∀ before, (r.leaves before).Pairwise InPhaseOrder)
    (before : List (StrategyPatch D)) :
    (RunRecord.leavesAll (t.records ctx) before).Pairwise InPhaseOrder := by
  refine pairwise_leavesAll ?_ h (fun r hr before' ℓ hℓ => ⟨?_, phase_eq_or_lt hr hℓ⟩) before
  · have hvisits := visits_phase_pairwise t.pipeline ctx
    rwa [← t.records_visit, List.map_map] at hvisits
  · exact (records_phasesInward t ctx r hr before' ℓ hℓ).2 _
      (List.mem_append_right _ (List.mem_singleton_self _))

theorem records_pairwise (t : PipelineTree D) (ctx : EvalContext D) :
    ∀ r ∈ t.records ctx, ∀ before, (r.leaves before).Pairwise InPhaseOrder := by
  refine PipelineTree.record_induction ?_ ?_ t ctx
  · intro v before
    exact List.pairwise_singleton _ _
  · intro newV4 t' v later _ _ ih before
    rw [RunRecord.leaves, List.pairwise_map]
    exact (pairwise_of_records ih before).imp (fun h => h.within _)

/-- **Phases at any depth.** The phases of the pipelines around a leaf and its own never decrease
    inwards; and of any two leaves of a run, at any depth, the one run first is of no later phase
    than the other, unless a sub-pipeline around it is of an earlier phase than it is itself. -/
theorem leaves_phases (t : PipelineTree D) (ctx : EvalContext D) :
    (t.leaves ctx).Pairwise InPhaseOrder ∧
      ∀ ℓ ∈ t.leaves ctx, ℓ.phases.Pairwise (· ≤ ·) := by
  refine ⟨pairwise_of_records (records_pairwise t ctx) [], fun ℓ hℓ => ?_⟩
  obtain ⟨r, hr, before, hin⟩ := RunRecord.exists_of_mem_leavesAll hℓ
  exact (records_phasesInward t ctx r hr before ℓ hin).1

-- A decider in a sub-pipeline with an enricher is run before the evaluation behind it.
example : ((Sample.tree [Sample.sub "mixed"
      [.leaf (Sample.leaf "early" .enrich .continue), .leaf (Sample.leaf "late" .decide .continue)],
    .leaf (Sample.leaf "scorer" .evaluate .continue)]).leaves Sample.context).map
      (fun ℓ => ℓ.visit.stage.phase) = [.enrich, .decide, .evaluate] := rfl

end DarqEval
