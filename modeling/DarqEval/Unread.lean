import DarqEval.Priorities
import Mathlib.Data.List.Flatten

namespace DarqEval

open Lib

/-!
# Strategies nobody reads from

A strategy that emits artifacts for the record only, such as one that logs or measures, takes no
part in the decision: if no other strategy reads at its keys, and it does not stop the run, the
pipeline decides as without it.

* `EvalPipeline.restrict keep` — the pipeline of some of its strategies;
* `RestrictedRun` — a run that makes the visits of these strategies;
* `execute_restrict` — the others change nothing but what they list themselves.
-/

variable {D : Decision}

/-- The pipeline of some of its strategies. -/
def EvalPipeline.restrict (p : EvalPipeline D) (keep : EvalStrategy D → Bool) : EvalPipeline D :=
  { p with strategies := p.strategies.filter keep }

theorem EvalPipeline.order_restrict (p : EvalPipeline D) (keep : EvalStrategy D → Bool) :
    (p.restrict keep).order = p.order.filter keep :=
  sortBy_filter _ keep p.strategies

/-- A result that lists less than another one, with the same disposition and the same artifacts at
    the given keys. -/
structure EvalResult.Within (keys : Set String) (r r' : EvalResult D) : Prop where
  disposition : r'.disposition = r.disposition
  getAll : ∀ key ∈ keys, r'.artifacts.getAll key = r.artifacts.getAll key
  artifacts : r'.artifacts.entries.Sublist r.artifacts.entries
  findings : r'.findings.Sublist r.findings
  proposals : r'.proposals.Sublist r.proposals
  steps : r'.steps.Sublist r.steps
  explanations : r'.trace.explanations.Sublist r.trace.explanations
  strategyVersions : r'.snapshot.strategyVersions.Sublist r.snapshot.strategyVersions

/-- Executions with the same error or such results, that agree at the given keys. -/
structure Execution.Within (keys : Set String) (x x' : Execution D) : Prop where
  ctx : SameAt keys x.ctx x'.ctx
  error : ∀ e, x'.result = .error e ↔ x.result = .error e
  ok : ∀ r, x.result = .ok r → ∃ r', x'.result = .ok r' ∧ r.Within keys r'

/-- The second run makes those visits of the first one that some strategies are kept for, and no
    other visit stopped the first one. -/
structure RestrictedRun (keep : EvalStrategy D → Bool) (keys : Set String) (p p' : EvalPipeline D)
    (ctx : EvalContext D) : Prop where
  failFast : p'.failFast = p.failFast
  enforceConstraints : p'.enforceConstraints = p.enforceConstraints
  visits : (p'.visits ctx).map Visit.answer =
    ((p.visits ctx).map Visit.answer).filter (fun x => keep x.1)
  goes : ∀ v ∈ p.visits ctx, keep v.stage = false → p.stopsAt v = false
  ctx : SameAt keys (ctx.merge (p.newArtifacts ctx)) (ctx.merge (p'.newArtifacts ctx))

namespace RestrictedRun

variable {keep : EvalStrategy D → Bool} {keys : Set String} {p p' : EvalPipeline D}
  {ctx : EvalContext D} (h : RestrictedRun keep keys p p' ctx)

include h

/-- What is listed for each visit is listed for the visits that are left. -/
theorem flatMap_sublist {γ : Type*} (g : EvalStrategy D → Output D → List γ) :
    ((p'.visits ctx).flatMap (fun v => g v.stage v.out)).Sublist
      ((p.visits ctx).flatMap (fun v => g v.stage v.out)) := by
  rw [flatMap_answer, flatMap_answer, h.visits]
  exact List.filter_sublist.flatMap _

/-- What is found at visits that stop only is found alike. -/
theorem findSome?_eq {γ : Type*} (g : EvalStrategy D → Output D → Option γ)
    (hstop : ∀ s out, stopping p.failFast s.phase out = false → g s out = none) :
    (p'.visits ctx).findSome? (fun v => g v.stage v.out) =
      (p.visits ctx).findSome? (fun v => g v.stage v.out) := by
  rw [findSome?_answer, findSome?_answer, h.visits]
  refine findSome?_filter (fun x hx hkeep => ?_)
  obtain ⟨v, hv, rfl⟩ := List.mem_map.mp hx
  exact hstop _ _ (h.goes v hv hkeep)

theorem disposition_eq : p'.disposition ctx = p.disposition ctx :=
  h.findSome?_eq (fun s out => verdict s.phase out)
    (fun _ _ hgo => EvalPipeline.verdict_eq_none_of_not_stopping hgo)

theorem refusal_eq : p'.refusal ctx = p.refusal ctx := by
  have hfailure := h.findSome?_eq (failure p.failFast)
    (fun _ _ hgo => failure_eq_none_of_not_stopping hgo)
  unfold EvalPipeline.refusal EvalPipeline.outputError
  rw [h.failFast, hfailure, h.disposition_eq, h.enforceConstraints]

/-- What is listed in the patches is listed in the patches that are left. -/
theorem patches_sublist {γ : Type*} (g : StrategyPatch D → List γ) :
    ((patches (p'.visits ctx)).flatMap g).Sublist ((patches (p.visits ctx)).flatMap g) := by
  unfold patches
  rw [List.flatMap_assoc, List.flatMap_assoc]
  exact h.flatMap_sublist (fun _ out => (patchOf out).flatMap g)

theorem summary_within : (p.summary ctx).Within keys (p'.summary ctx) where
  disposition := h.disposition_eq
  getAll key hkey := (h.ctx.getAll key hkey).symm
  artifacts := (h.patches_sublist StrategyPatch.artifacts).append_left _
  findings := h.patches_sublist StrategyPatch.findings
  proposals := h.patches_sublist StrategyPatch.proposals
  steps := by
    have hsteps := h.flatMap_sublist (fun s out => [stepOf s out])
    rwa [← List.map_eq_flatMap, ← List.map_eq_flatMap] at hsteps
  explanations := by
    rw [EvalPipeline.summary_explanations, EvalPipeline.summary_explanations]
    exact h.flatMap_sublist explanationsOf
  strategyVersions := by
    have hversions := h.flatMap_sublist (fun s _ => [(s.id, s.version.toString)])
    rwa [← List.map_eq_flatMap, ← List.map_eq_flatMap] at hversions

/-- Restricted runs end in executions that list less. -/
theorem execute_within : (p.execute ctx).Within keys (p'.execute ctx) where
  ctx := by
    rw [EvalPipeline.execute_ctx, EvalPipeline.execute_ctx]
    exact h.ctx
  error := EvalPipeline.execute_error_congr h.refusal_eq
  ok r hr := by
    obtain ⟨rfl, hr'⟩ := EvalPipeline.execute_ok_congr h.refusal_eq.symm hr
    exact ⟨_, hr', h.summary_within⟩

end RestrictedRun

section Unread

variable {p : EvalPipeline D} {reads writes : EvalStrategy D → Set String}
  {keep : EvalStrategy D → Bool}

/-- The keys at which no strategy that is left out writes. -/
def EvalPipeline.keptKeys (p : EvalPipeline D) (writes : EvalStrategy D → Set String)
    (keep : EvalStrategy D → Bool) : Set String :=
  {key | ∀ t ∈ p.strategies, keep t = false → key ∉ writes t}

variable (hreads : ∀ s ∈ p.strategies, keep s = true → s.ReadsAt (reads s))
  (hemits : ∀ s ∈ p.strategies, keep s = false → s.EmitsAt (writes s))
  (hunread : ∀ s ∈ p.strategies, keep s = true → ∀ t ∈ p.strategies, keep t = false →
    Disjoint (reads s) (writes t))

include hreads hemits hunread

/-- **Leaving strategies out.** If no strategy that is kept reads what those left out write, and none
    of these stops the run, the kept ones are visited with the same outputs. -/
theorem restrictedRun_restrict {ctx : EvalContext D}
    (hgo : ∀ v ∈ p.visits ctx, keep v.stage = false → p.stopsAt v = false) :
    RestrictedRun keep (p.keptKeys writes keep) p (p.restrict keep) ctx := by
  rcases hinput : D.validateInput ctx.input with e | ⟨⟩
  · have hnone : ∀ q : EvalPipeline D, q.visits ctx = [] := fun q => visits_of_invalid hinput
    refine ⟨rfl, rfl, ?_, hgo, ?_⟩
    · rw [hnone, hnone]
      rfl
    · rw [EvalPipeline.newArtifacts, EvalPipeline.newArtifacts, hnone, hnone]
      exact (SameAt.equivalence _).refl _
  have hrespects : p.process.Respects (SameAt (p.keptKeys writes keep)) (p.order.filter keep) := by
    refine ⟨fun s hs c c' hc => ?_, fun out _ _ hc => hc.commit out⟩
    obtain ⟨hs, hkeep⟩ := List.mem_filter.mp hs
    have hmem : s ∈ p.strategies := mem_sortBy.mp hs
    refine hreads s hmem hkeep _ _ _ (hc.mono (fun key hkey t ht hleft => ?_))
    exact Set.disjoint_left.mp (hunread s hmem hkeep t ht hleft) hkey
  -- what is left out writes at none of the kept keys
  have hhidden : ∀ s ∈ p.order, keep s = false → ∀ c,
      SameAt (p.keptKeys writes keep) (p.process.commit (p.process.eval s c) c) c := by
    intro s hs hleft c
    have hmem : s ∈ p.strategies := mem_sortBy.mp hs
    refine (SameAt.equivalence _).symm (sameAt_commit (hemits s hmem hleft c _) ?_)
    exact Set.disjoint_left.mpr (fun key hkey hkept => hkept s hmem hleft hkey)
  have hgo' := hgo
  rw [visits_of_valid hinput] at hgo'
  obtain ⟨hanswers, hctx⟩ := Process.visits_restrict (SameAt.equivalence _) keep hrespects hhidden
    ((SameAt.equivalence _).refl ctx) hgo'
  have hvisits : (p.restrict keep).visits ctx = p.process.visits (p.order.filter keep) ctx := by
    rw [visits_of_valid hinput, EvalPipeline.order_restrict]
    rfl
  refine ⟨rfl, rfl, ?_, hgo, ?_⟩
  · rw [hvisits, visits_of_valid hinput]
    exact hanswers.symm
  · rw [EvalPipeline.newArtifacts, EvalPipeline.newArtifacts, hvisits, visits_of_valid hinput,
      ← commitAll_eq p, ← commitAll_eq p]
    exact hctx

/-- **Strategies nobody reads from.** If some strategies, sub-pipelines among them, do not stop the
    run, and the others read the store by key and at no key these write, then the pipeline without
    them, its sub-pipelines drawing the same identifiers, returns the same error or the same
    disposition, and leaves the same artifacts at all other keys; what it lists are the
    contributions of the other strategies. -/
theorem execute_restrict {ctx : EvalContext D}
    (hgo : ∀ v ∈ p.visits ctx, keep v.stage = false → p.stopsAt v = false) :
    (p.execute ctx).Within (p.keptKeys writes keep) ((p.restrict keep).execute ctx) :=
  (restrictedRun_restrict hreads hemits hunread hgo).execute_within

end Unread

namespace Sample

/-- A leaf that logs the keys of all the artifacts it is given. -/
def logger : EvalStrategy decision where
  id := "logger"
  version := ⟨1, 0, 0⟩
  phase := .evaluate
  priority := 0
  evaluate := fun ctx _ =>
    let keys := ctx.artifacts.entries.map (fun a => .string a.key)
    .ok ⟨[⟨"log", .array keys, "logger", "1.0.0", "v1", "", .derived⟩], [], [], [], .continue⟩

/-- A decider that counts artifacts with two keys, behind a sub-pipeline that logs them all. -/
def logged : EvalPipeline decision :=
  pipeline [emitter "north", (sub "log" [.leaf logger]).strategy, counter]

end Sample

/-- The decider approves the same without the log, which lists the artifact it counts. -/
theorem execute_restrict_logged :
    (Sample.logged.summary Sample.context).artifacts.getAll "log" ≠ [] ∧
      ∃ r', ((Sample.logged.restrict (fun s => s.phase ≠ .evaluate)).execute
        Sample.context).result = .ok r' ∧ r'.disposition = some (.auto (1 : Nat)) := by
  have hreads : ∀ s ∈ Sample.logged.strategies, decide (s.phase ≠ .evaluate) = true →
      s.ReadsAt {"north", "south"} := by
    intro s hs hkeep
    simp only [Sample.logged, Sample.pipeline, List.mem_cons, List.not_mem_nil, or_false] at hs
    rcases hs with rfl | rfl | rfl
    · exact fun _ _ _ _ => rfl
    · cases hkeep
    · exact Sample.counter_footprint.reads
  have hemits : ∀ s ∈ Sample.logged.strategies, decide (s.phase ≠ .evaluate) = false →
      s.EmitsAt {"log"} := by
    intro s hs hleft
    simp only [Sample.logged, Sample.pipeline, List.mem_cons, List.not_mem_nil, or_false] at hs
    rcases hs with rfl | rfl | rfl
    · cases hleft
    · refine Tree.emitsAt_strategy _ (.sub (fun t ht => ?_))
      obtain rfl := List.mem_singleton.mp ht
      refine .leaf (fun c caps patch hpatch a ha => ?_)
      obtain rfl := Except.ok.inj hpatch
      rw [List.mem_singleton.mp ha]
      rfl
    · cases hleft
  have hunread : ∀ s ∈ Sample.logged.strategies, decide (s.phase ≠ .evaluate) = true →
      ∀ t ∈ Sample.logged.strategies, decide (t.phase ≠ .evaluate) = false →
        Disjoint ({"north", "south"} : Set String) {"log"} :=
    fun _ _ _ _ _ _ => Set.disjoint_singleton_right.mpr (by simp)
  have hgo : ∀ v ∈ Sample.logged.visits Sample.context, decide (v.stage.phase ≠ .evaluate) = false →
      Sample.logged.stopsAt v = false := by decide
  have hr : (Sample.logged.execute Sample.context).result =
      .ok (Sample.logged.summary Sample.context) := EvalPipeline.execute_eq_ok.mpr ⟨rfl, rfl⟩
  obtain ⟨r', hr', hwithin⟩ := (execute_restrict hreads hemits hunread hgo).ok _ hr
  exact ⟨by decide, r', hr', hwithin.disposition⟩

end DarqEval
