import DarqEval.Leaves
import DarqEval.Lib.Code

namespace DarqEval

open Lib

/-!
# Strategy versions in snapshots

A run lists the versions of the strategies its own loop evaluated, and a sub-pipeline hands its
list to nobody: of the leaves inside it, its parent's snapshot says nothing.

* `StrategyVersion.toString_injective` — the text of a version tells the version;
* `VersionsComplete` — the root's snapshot lists every executed leaf;
* `versionsComplete_iff` — exactly when it does.
-/

variable {D : Decision}

/-! ### The text of a version -/

theorem StrategyVersion.toList_toString (v : StrategyVersion) :
    v.toString.toList = v.major.toNat.repr.toList ++
      '.' :: (v.minor.toNat.repr.toList ++ '.' :: v.patch.toNat.repr.toList) := by
  simp [StrategyVersion.toString]

/-- The text of a version tells the version: its numbers stand between dots. -/
theorem StrategyVersion.toString_injective : Function.Injective StrategyVersion.toString := by
  rintro ⟨major, minor, patch⟩ ⟨major', minor', patch'⟩ h
  let stop : Char → Prop := fun c => c = '.'
  have hsep : stop '.' := rfl
  have hdigit : ∀ c, stop c → c.isDigit = false := by
    rintro _ rfl
    rfl
  have hlast := Readable.pair hsep (readable_repr hdigit minor.toNat)
    (readable_repr hdigit patch.toNat)
  have hall := Readable.pair hsep (readable_repr hdigit major.toNat) hlast
  have htext := congrArg String.toList h
  rw [toList_toString, toList_toString] at htext
  have heq := hall.injective (b := (major'.toNat, minor'.toNat, patch'.toNat))
    ⟨trivial, trivial, trivial⟩ htext
  simp only [Prod.mk.injEq] at heq
  obtain ⟨hmajor, hminor, hpatch⟩ := heq
  rw [UInt32.toNat_inj.mp hmajor, UInt32.toNat_inj.mp hminor, UInt32.toNat_inj.mp hpatch]

/-! ### The leaves a snapshot lists -/

/-- The strategy has the identifier and the version of the leaf's. -/
def LeafRun.identifies (ℓ : LeafRun D) (s : EvalStrategy D) : Prop :=
  s.id = ℓ.visit.stage.id ∧ s.version = ℓ.visit.stage.version

/-- The leaf is the root's own, or inside a sub-pipeline evaluation that returned `Ok`. -/
def LeafRun.counted (ℓ : LeafRun D) : Prop :=
  ℓ.path = [] ∨ ∃ e ∈ ℓ.path, e.visit.out.isOk = true

/-- The snapshot of a run that returns `Ok` lists every executed leaf, and so differs from that
    of any run in which no strategy of that identifier has that version. -/
structure VersionsComplete (t : PipelineTree D) (ctx : EvalContext D) : Prop where
  complete : ∀ r, (t.execute ctx).result = .ok r → ∀ ℓ ∈ t.leaves ctx, ℓ.counted →
    (ℓ.visit.stage.id, ℓ.visit.stage.version.toString) ∈ r.snapshot.strategyVersions
  apart : ∀ r, (t.execute ctx).result = .ok r → ∀ ℓ ∈ t.leaves ctx, ℓ.counted →
    ∀ (t' : PipelineTree D) (ctx' : EvalContext D) r', (t'.execute ctx').result = .ok r' →
      (∀ rec ∈ RunRecord.allOf (t'.records ctx'), ¬ ℓ.identifies rec.visit.stage) →
      r.snapshot.strategyVersions ≠ r'.snapshot.strategyVersions

/-- A snapshot lists a leaf exactly if the root evaluated a strategy of its identifier and
    version. -/
theorem mem_strategyVersions {t : PipelineTree D} {ctx : EvalContext D} {r : EvalResult D}
    (hr : (t.execute ctx).result = .ok r) (ℓ : LeafRun D) :
    (ℓ.visit.stage.id, ℓ.visit.stage.version.toString) ∈ r.snapshot.strategyVersions ↔
      ∃ rec ∈ t.records ctx, ℓ.identifies rec.visit.stage := by
  obtain ⟨-, rfl⟩ := EvalPipeline.execute_eq_ok.mp hr
  have hversions : (t.pipeline.summary ctx).snapshot.strategyVersions =
      (t.records ctx).map (fun rec => (rec.visit.stage.id, rec.visit.stage.version.toString)) := by
    show (t.pipeline.visits ctx).map (fun v => (v.stage.id, v.stage.version.toString)) = _
    rw [← t.records_visit, List.map_map]
    rfl
  rw [hversions, List.mem_map]
  constructor
  · rintro ⟨rec, hrec, heq⟩
    obtain ⟨hid, hversion⟩ := Prod.mk.inj heq
    exact ⟨rec, hrec, hid, StrategyVersion.toString_injective hversion⟩
  · rintro ⟨rec, hrec, hid, hversion⟩
    exact ⟨rec, hrec, by rw [hid, hversion]⟩

/-- A leaf of no sub-pipeline is one of the root's own evaluations. -/
theorem exists_record_of_path_eq_nil {t : PipelineTree D} {ctx : EvalContext D} {ℓ : LeafRun D}
    (hℓ : ℓ ∈ t.leaves ctx) (hpath : ℓ.path = []) :
    ∃ rec ∈ t.records ctx, ℓ.identifies rec.visit.stage := by
  obtain ⟨rec, hmem, before, hrec⟩ := RunRecord.exists_of_mem_leavesAll hℓ
  refine ⟨rec, hmem, ?_⟩
  cases rec with
  | leaf visit =>
    rw [RunRecord.leaves] at hrec
    obtain rfl := List.mem_singleton.mp hrec
    exact ⟨rfl, rfl⟩
  | sub visit pipeline inner later =>
    rw [RunRecord.leaves] at hrec
    obtain ⟨ℓ', -, rfl⟩ := List.mem_map.mp hrec
    cases hpath

/-- **When snapshots list every leaf.** Exactly when for every leaf inside a sub-pipeline the root
    itself evaluated a strategy of the same identifier and version. -/
theorem versionsComplete_iff (t : PipelineTree D) (ctx : EvalContext D) :
    VersionsComplete t ctx ↔ ∀ r, (t.execute ctx).result = .ok r → ∀ ℓ ∈ t.leaves ctx,
      ℓ.path ≠ [] → ℓ.counted → ∃ rec ∈ t.records ctx, ℓ.identifies rec.visit.stage := by
  constructor
  · intro h r hr ℓ hℓ _ hcounted
    exact (mem_strategyVersions hr ℓ).mp (h.complete r hr ℓ hℓ hcounted)
  · intro hcond
    have hcomplete : ∀ r, (t.execute ctx).result = .ok r → ∀ ℓ ∈ t.leaves ctx, ℓ.counted →
        (ℓ.visit.stage.id, ℓ.visit.stage.version.toString) ∈ r.snapshot.strategyVersions := by
      intro r hr ℓ hℓ hcounted
      rw [mem_strategyVersions hr]
      by_cases hpath : ℓ.path = []
      · exact exists_record_of_path_eq_nil hℓ hpath
      · exact hcond r hr ℓ hℓ hpath hcounted
    refine ⟨hcomplete, fun r hr ℓ hℓ hcounted t' ctx' r' hr' hdiffer heq => ?_⟩
    -- listed in both snapshots, the leaf's version was evaluated in the other run too
    have hlisted := hcomplete r hr ℓ hℓ hcounted
    rw [heq, mem_strategyVersions hr'] at hlisted
    obtain ⟨rec, hrec, hid⟩ := hlisted
    have hall : rec ∈ RunRecord.allOf (t'.records ctx') := by
      refine RunRecord.mem_allOf.mpr ⟨rec, hrec, ?_⟩
      cases rec with
      | leaf visit => exact List.mem_singleton_self _
      | sub visit pipeline inner later => exact List.mem_cons_self
    exact hdiffer rec hall hid

/-- A check inside a sub-pipeline of its own. -/
def Sample.unlisted : PipelineTree Sample.decision :=
  Sample.tree [Sample.sub "inner" [.leaf (Sample.leaf "check" .evaluate .continue)]]

/-- The snapshot lists the sub-pipeline and not the check. -/
theorem versionsComplete_unlisted : ¬ VersionsComplete Sample.unlisted Sample.context := by
  intro h
  have hlisted := (mem_strategyVersions (EvalPipeline.execute_eq_ok.mpr ⟨rfl, rfl⟩) _).mp
    (h.complete _ (EvalPipeline.execute_eq_ok.mpr ⟨rfl, rfl⟩) _ List.mem_cons_self
      (Or.inr ⟨_, List.mem_cons_self, rfl⟩))
  obtain ⟨rec, hrec, hid, -⟩ := hlisted
  obtain rfl := List.mem_singleton.mp hrec
  have hne : "inner" ≠ "check" := by decide
  exact hne hid

end DarqEval
