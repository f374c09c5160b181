import DarqEval.Leaves

namespace DarqEval

open Lib

/-!
# Dispositions across nesting

A sub-pipeline hands its disposition to its parent as `Control::Finalize`, which the parent
honours only if the sub-pipeline's computed phase is Decide.  So a leaf decides on the root's
disposition exactly when every sub-pipeline around it is in the Decide phase:

* `LeafRun.verdict`, `LeafRun.carried` — the disposition a leaf decides on in its own pipeline,
  and whether all pipelines around it carry it on;
* `disposition_of_carried`, `exists_carried` — the root's disposition is the verdict of a
  carried leaf, the last one executed;
* `decision_provenance` — where an automatic approval or a denial comes from.
-/

variable {D : Decision}

/-- The disposition a leaf decides on in its own pipeline. -/
def LeafRun.verdict (ℓ : LeafRun D) : Option (DecisionDisposition D) :=
  DarqEval.verdict ℓ.visit.stage.phase ℓ.visit.out

/-- Every sub-pipeline around the leaf returned `Ok` and is in the Decide phase. -/
def LeafRun.carried (ℓ : LeafRun D) : Prop :=
  ∀ e ∈ ℓ.path, e.visit.out.isOk = true ∧ e.pipeline.phase = .decide

theorem LeafRun.carried_within {e : SubRun D} {ℓ : LeafRun D} :
    (ℓ.within e).carried ↔
      (e.visit.out.isOk = true ∧ e.pipeline.phase = .decide) ∧ ℓ.carried := by
  simp [LeafRun.carried]

/-- What a sub-pipeline evaluation decides on in its parent: the disposition of its run, if it
    returned `Ok` and is in the Decide phase. -/
theorem verdict_evaluate {p : EvalPipeline D} {newV4 : Uuid} {ctx : EvalContext D}
    {caps : CapabilitySet} {disp : DecisionDisposition D} :
    verdict p.phase (p.evaluate newV4 ctx caps) = some disp ↔
      (p.evaluate newV4 ctx caps).isOk = true ∧ p.phase = .decide ∧
        p.disposition (EvalPipeline.childContext newV4 ctx) = some disp := by
  rw [EvalPipeline.evaluate_eq]
  cases p.refusal (EvalPipeline.childContext newV4 ctx) with
  | some e => simp [verdict, Except.isOk, Except.toBool]
  | none =>
    cases hdisp : p.disposition (EvalPipeline.childContext newV4 ctx) with
    | none =>
      simp [verdict, EvalPipeline.runPatch, hdisp, EvalPipeline.controlOf]
    | some d =>
      by_cases hphase : p.phase = .decide <;>
        simp [verdict, EvalPipeline.runPatch, hdisp, EvalPipeline.controlOf, hphase, Except.isOk,
          Except.toBool]

/-! ### The disposition is the verdict of a carried leaf -/

/-- An evaluation's verdict is that of the last leaf inside it, carried this far. -/
def RunRecord.Decides (r : RunRecord D) : Prop :=
  ∀ disp before, verdict r.visit.stage.phase r.visit.out = some disp →
    ∃ pre ℓ, r.leaves before = pre ++ [ℓ] ∧ ℓ.carried ∧ ℓ.verdict = some disp

/-- The verdict of a leaf carried this far is the evaluation's. -/
def RunRecord.Decided (r : RunRecord D) : Prop :=
  ∀ disp before, ∀ ℓ ∈ r.leaves before, ℓ.carried → ℓ.verdict = some disp →
    verdict r.visit.stage.phase r.visit.out = some disp

private theorem exists_carried_of_records {t : PipelineTree D} {ctx : EvalContext D}
    (h : ∀ r ∈ t.records ctx, r.Decides) {disp : DecisionDisposition D}
    (hdisp : t.pipeline.disposition ctx = some disp) (before : List (StrategyPatch D)) :
    ∃ pre ℓ, RunRecord.leavesAll (t.records ctx) before = pre ++ [ℓ] ∧ ℓ.carried ∧
      ℓ.verdict = some disp := by
  -- the last visit has the verdict; the leaf sought is the last one inside its record
  obtain ⟨vpre, v, hvisits, hverdict⟩ := EvalPipeline.exists_verdict_of_disposition hdisp
  rw [← t.records_visit ctx] at hvisits
  obtain ⟨rpre, rlast, heq, -, hlast⟩ := List.map_eq_append_iff.mp hvisits
  obtain ⟨r, hr, rfl⟩ := List.map_eq_singleton_iff.mp hlast
  subst hr
  have hmem : r ∈ t.records ctx := by rw [heq]; simp
  obtain ⟨pre, ℓ, hleaves, hcarried, hℓ⟩ :=
    h r hmem disp (before ++ RunRecord.mergedAll rpre) hverdict
  refine ⟨RunRecord.leavesAll rpre before ++ pre, ℓ, ?_, hcarried, hℓ⟩
  rw [heq, RunRecord.leavesAll_append, RunRecord.leavesAll, hleaves, RunRecord.leavesAll,
    List.append_nil, List.append_assoc]

private theorem disposition_of_records {t : PipelineTree D} {ctx : EvalContext D}
    (h : ∀ r ∈ t.records ctx, r.Decided) {disp : DecisionDisposition D}
    {before : List (StrategyPatch D)} {ℓ : LeafRun D}
    (hℓ : ℓ ∈ RunRecord.leavesAll (t.records ctx) before) (hcarried : ℓ.carried)
    (hverdict : ℓ.verdict = some disp) : t.pipeline.disposition ctx = some disp := by
  obtain ⟨r, hmem, before', hr⟩ := RunRecord.exists_of_mem_leavesAll hℓ
  exact EvalPipeline.disposition_of_verdict (t.visit_mem_visits hmem)
    (h r hmem disp before' ℓ hr hcarried hverdict)

theorem records_decide (t : PipelineTree D) (ctx : EvalContext D) :
    ∀ r ∈ t.records ctx, r.Decides := by
  refine PipelineTree.record_induction ?_ ?_ t ctx
  · intro v disp before hverdict
    exact ⟨[], ⟨v, [], before⟩, rfl, by simp [LeafRun.carried], hverdict⟩
  · intro newV4 t' v later hstage hout ih disp before hverdict
    rw [RunRecord.visit, hstage, hout] at hverdict
    obtain ⟨hok, hphase, hdisp⟩ := verdict_evaluate.mp hverdict
    obtain ⟨pre, ℓ, hleaves, hcarried, hℓ⟩ := exists_carried_of_records ih hdisp before
    refine ⟨pre.map (LeafRun.within ⟨v, t'.pipeline, later⟩),
      ℓ.within ⟨v, t'.pipeline, later⟩, ?_, ?_, hℓ⟩
    · rw [RunRecord.leaves, hleaves, List.map_append, List.map_singleton]
    · have hok' : v.out.isOk = true := by
        rw [hout]
        exact hok
      exact LeafRun.carried_within.mpr ⟨⟨hok', hphase⟩, hcarried⟩

theorem records_decided (t : PipelineTree D) (ctx : EvalContext D) :
    ∀ r ∈ t.records ctx, r.Decided := by
  refine PipelineTree.record_induction ?_ ?_ t ctx
  · intro v disp before ℓ hℓ _ hverdict
    rw [RunRecord.leaves] at hℓ
    obtain rfl := List.mem_singleton.mp hℓ
    exact hverdict
  · intro newV4 t' v later hstage hout ih disp before ℓ hℓ hcarried hverdict
    rw [RunRecord.leaves] at hℓ
    obtain ⟨ℓ', hℓ', rfl⟩ := List.mem_map.mp hℓ
    rw [LeafRun.carried_within, hout] at hcarried
    rw [RunRecord.visit, hstage, hout]
    exact verdict_evaluate.mpr ⟨hcarried.1.1, hcarried.1.2,
      disposition_of_records ih hℓ' hcarried.2 hverdict⟩

/-- The disposition of a run is the verdict of the last leaf executed, which is carried. -/
theorem exists_carried {t : PipelineTree D} {ctx : EvalContext D} {disp : DecisionDisposition D}
    (h : t.pipeline.disposition ctx = some disp) (before : List (StrategyPatch D)) :
    ∃ pre ℓ, RunRecord.leavesAll (t.records ctx) before = pre ++ [ℓ] ∧ ℓ.carried ∧
      ℓ.verdict = some disp :=
  exists_carried_of_records (records_decide t ctx) h before

/-- The disposition of a run is the verdict of a carried leaf. -/
theorem exists_mem_carried {t : PipelineTree D} {ctx : EvalContext D}
    {disp : DecisionDisposition D} (h : t.pipeline.disposition ctx = some disp)
    (before : List (StrategyPatch D)) :
    ∃ ℓ ∈ RunRecord.leavesAll (t.records ctx) before, ℓ.carried ∧ ℓ.verdict = some disp := by
  obtain ⟨pre, ℓ, hleaves, hcarried, hverdict⟩ := exists_carried h before
  refine ⟨ℓ, ?_, hcarried, hverdict⟩
  rw [hleaves]
  exact List.mem_append_cons_self

/-- The verdict of a carried leaf is the disposition of the run. -/
theorem disposition_of_carried {t : PipelineTree D} {ctx : EvalContext D}
    {disp : DecisionDisposition D} {before : List (StrategyPatch D)} {ℓ : LeafRun D}
    (hℓ : ℓ ∈ RunRecord.leavesAll (t.records ctx) before) (hcarried : ℓ.carried)
    (hverdict : ℓ.verdict = some disp) : t.pipeline.disposition ctx = some disp :=
  disposition_of_records (records_decided t ctx) hℓ hcarried hverdict

/-! ### Where decisions come from -/

/-- **Provenance of decisions.** An approval or denial was finalized by the last leaf executed,
    a Decide strategy inside Decide sub-pipelines only; the input was accepted, and an approved
    output passed the validation the root enforces. -/
theorem decision_provenance {t : PipelineTree D} {ctx : EvalContext D} {r : EvalResult D}
    {disp : DecisionDisposition D} (hr : (t.execute ctx).result = .ok r)
    (hdisp : r.disposition = some disp)
    (hkind : (∃ output, disp = .auto output) ∨ ∃ reasons, disp = .deny reasons) :
    D.validateInput ctx.input = .ok () ∧
      (∃ pre ℓ patch, t.leaves ctx = pre ++ [ℓ] ∧ ℓ.visit.stage.phase = .decide ∧
        ℓ.visit.out = .ok patch ∧ patch.control = .finalize disp ∧
        ∀ e ∈ ℓ.path, e.pipeline.phase = .decide) ∧
      ∀ output, disp = .auto output → t.settings.enforceConstraints = true →
        D.validateOutput output ctx.constraints = .ok () := by
  obtain ⟨hrefusal, rfl⟩ := EvalPipeline.execute_eq_ok.mp hr
  have hinput := EvalPipeline.validateInput_of_refusal hrefusal
  refine ⟨hinput, ?_, ?_⟩
  · obtain ⟨pre, ℓ, hleaves, hcarried, hverdict⟩ := exists_carried hdisp []
    obtain ⟨patch, hout, ⟨hcontrol, hphase⟩ | ⟨reason, _, hreview⟩⟩ := verdict_eq_some.mp hverdict
    · exact ⟨pre, ℓ, patch, hleaves, hphase, hout, hcontrol, fun e he => (hcarried e he).2⟩
    · -- an escalation decides on a review, which is neither an approval nor a denial
      rcases hkind with ⟨output, rfl⟩ | ⟨reasons, rfl⟩ <;> cases hreview
  · rintro output rfl henforce
    exact EvalPipeline.validateOutput_of_refusal hrefusal hdisp henforce

/-- A decider inside a sub-pipeline of its own. -/
def Sample.nestedDecider : PipelineTree Sample.decision :=
  Sample.tree
    [Sample.sub "inner" [.leaf (Sample.leaf "decider" .decide (.finalize (.auto (2 : Nat))))]]

/-- The nested decider's approval is the root's. -/
theorem decision_provenance_nested :
    ∃ pre ℓ patch, Sample.nestedDecider.leaves Sample.context = pre ++ [ℓ] ∧
      ℓ.visit.stage.phase = .decide ∧ ℓ.visit.out = .ok patch ∧
      patch.control = .finalize (.auto (2 : Nat)) ∧ ∀ e ∈ ℓ.path, e.pipeline.phase = .decide := by
  have hr : (Sample.nestedDecider.execute Sample.context).result =
      .ok (Sample.nestedDecider.pipeline.summary Sample.context) :=
    EvalPipeline.execute_eq_ok.mpr ⟨rfl, rfl⟩
  exact (decision_provenance hr rfl (Or.inl ⟨(2 : Nat), rfl⟩)).2.1

end DarqEval
