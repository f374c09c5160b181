import DarqEval.Downgrade
import DarqEval.Merge

namespace DarqEval

open Lib

/-!
# Critical findings

A run collects the findings of its strategies and looks at none of them: whether a critical one
blocks an automatic approval is left to the strategies, which are not shown any.

* `CriticalBlocks` — a run with a critical finding does not approve;
* `mem_findings`, `disposition_auto` — the findings and the approval of a run, from its leaves;
* `criticalBlocks_iff` — exactly when critical findings block.
-/

variable {D : Decision}

/-- A run that returns `Ok` with a critical finding does not approve automatically. -/
def CriticalBlocks (t : PipelineTree D) (ctx : EvalContext D) : Prop :=
  ∀ r, (t.execute ctx).result = .ok r → (∃ f ∈ r.findings, f.severity = .critical) →
    ∀ output, r.disposition ≠ some (.auto output)

/-- The leaf returned `Ok` with a critical finding. -/
def LeafRun.raisesCritical (ℓ : LeafRun D) : Prop :=
  ∃ patch, ℓ.visit.out = .ok patch ∧ ∃ f ∈ patch.findings, f.severity = .critical

/-- The leaf approves: it finalized an automatic approval in the Decide phase. -/
def LeafRun.approves (ℓ : LeafRun D) : Prop :=
  ℓ.visit.stage.phase = .decide ∧ ∃ output, ℓ.finalizes (.auto output)

/-- The findings of a run are those of its committed leaves. -/
theorem mem_findings {t : PipelineTree D} {ctx : EvalContext D} {r : EvalResult D}
    (hr : (t.execute ctx).result = .ok r) {f : Finding} :
    f ∈ r.findings ↔ ∃ ℓ ∈ t.leaves ctx, ℓ.committed = true ∧
      ∃ patch, ℓ.visit.out = .ok patch ∧ f ∈ patch.findings := by
  obtain ⟨-, rfl⟩ := EvalPipeline.execute_eq_ok.mp hr
  have hfindings : (t.pipeline.summary ctx).findings =
      (committedPatches (t.leaves ctx)).flatMap StrategyPatch.findings :=
    patches_flatMap handedOn_findings t ctx
  rw [hfindings, committedPatches]
  simp only [List.mem_flatMap, List.mem_filter, mem_patchOf]
  constructor
  · rintro ⟨patch, ⟨ℓ, ⟨hℓ, hcommitted⟩, hout⟩, hf⟩
    exact ⟨ℓ, hℓ, hcommitted, patch, hout, hf⟩
  · rintro ⟨ℓ, hℓ, hcommitted, patch, hout, hf⟩
    exact ⟨patch, ⟨ℓ, ⟨hℓ, hcommitted⟩, hout⟩, hf⟩

theorem LeafRun.approves_iff {ℓ : LeafRun D} :
    ℓ.approves ↔ ∃ output, ℓ.verdict = some (.auto output) := by
  constructor
  · rintro ⟨hphase, output, patch, hout, hcontrol⟩
    exact ⟨output, verdict_eq_some.mpr ⟨patch, hout, Or.inl ⟨hcontrol, hphase⟩⟩⟩
  · rintro ⟨output, hverdict⟩
    obtain ⟨patch, hout, ⟨hcontrol, hphase⟩ | ⟨reason, -, hreview⟩⟩ := verdict_eq_some.mp hverdict
    · exact ⟨hphase, output, patch, hout, hcontrol⟩
    · cases hreview

/-- A run approves exactly if a leaf inside Decide sub-pipelines only does. -/
theorem disposition_auto {t : PipelineTree D} {ctx : EvalContext D} {r : EvalResult D}
    (hr : (t.execute ctx).result = .ok r) :
    (∃ output, r.disposition = some (.auto output)) ↔
      ∃ ℓ ∈ t.leaves ctx, ℓ.carried ∧ ℓ.approves := by
  obtain ⟨-, rfl⟩ := EvalPipeline.execute_eq_ok.mp hr
  constructor
  · rintro ⟨output, hdisp⟩
    obtain ⟨ℓ, hℓ, hcarried, hverdict⟩ := exists_mem_carried hdisp []
    exact ⟨ℓ, hℓ, hcarried, LeafRun.approves_iff.mpr ⟨output, hverdict⟩⟩
  · rintro ⟨ℓ, hℓ, hcarried, happroves⟩
    obtain ⟨output, hverdict⟩ := LeafRun.approves_iff.mp happroves
    exact ⟨output, disposition_of_carried hℓ hcarried hverdict⟩

/-- **When critical findings block approval.** Exactly when the leaves of a run see to it: none
    approves, inside Decide sub-pipelines only, where a committed one raised a critical finding. -/
theorem criticalBlocks_iff (t : PipelineTree D) (ctx : EvalContext D) :
    CriticalBlocks t ctx ↔ ∀ r, (t.execute ctx).result = .ok r →
      (∃ ℓ ∈ t.leaves ctx, ℓ.committed = true ∧ ℓ.raisesCritical) →
        ∀ ℓ ∈ t.leaves ctx, ℓ.carried → ¬ ℓ.approves := by
  constructor
  · rintro hblocks r hr ⟨ℓ, hℓ, hcommitted, patch, hout, f, hf, hcritical⟩ ℓ' hℓ' hcarried happroves
    have hfinding : f ∈ r.findings := (mem_findings hr).mpr ⟨ℓ, hℓ, hcommitted, patch, hout, hf⟩
    obtain ⟨output, hdisp⟩ := (disposition_auto hr).mpr ⟨ℓ', hℓ', hcarried, happroves⟩
    exact hblocks r hr ⟨f, hfinding, hcritical⟩ output hdisp
  · rintro hcond r hr ⟨f, hf, hcritical⟩ output hdisp
    obtain ⟨ℓ, hℓ, hcommitted, patch, hout, hmem⟩ := (mem_findings hr).mp hf
    obtain ⟨ℓ', hℓ', hcarried, happroves⟩ := (disposition_auto hr).mp ⟨output, hdisp⟩
    exact hcond r hr ⟨ℓ, hℓ, hcommitted, patch, hout, f, hmem, hcritical⟩ ℓ' hℓ' hcarried happroves

/-- A checker that raises a critical finding and continues. -/
def Sample.checker : EvalStrategy Sample.decision where
  id := "checker"
  version := ⟨1, 0, 0⟩
  phase := .evaluate
  priority := 0
  evaluate := fun _ _ =>
    .ok ⟨[], [⟨"checker", .critical, "EXCEEDS_EARNED", "requested exceeds earned", []⟩], [], [],
      .continue⟩

/-- The checker in front of a decider. -/
def Sample.unblocked : PipelineTree Sample.decision :=
  Sample.tree
    [.leaf Sample.checker, .leaf (Sample.leaf "decider" .decide (.finalize (.auto (2 : Nat))))]

/-- The run approves with the critical finding in its result. -/
theorem criticalBlocks_unblocked : ¬ CriticalBlocks Sample.unblocked Sample.context := by
  intro hblocks
  exact hblocks _ (EvalPipeline.execute_eq_ok.mpr ⟨rfl, rfl⟩) ⟨_, List.mem_cons_self, rfl⟩
    (2 : Nat) rfl

end DarqEval
