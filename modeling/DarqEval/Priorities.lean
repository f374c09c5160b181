import DarqEval.Blind
import DarqEval.Compose
import DarqEval.Grammar
import DarqEval.Lib.Schedule
import DarqEval.Reads
import Mathlib.Data.Set.Lattice
import Mathlib.Order.CompletePartialOrder

namespace DarqEval

open Lib

/-!
# Priorities

Priorities order the strategies of a phase.  Strategies that neither read nor write what another
one writes are independent of it: exchanging them changes only the order in which their
contributions are listed.

* `SameAt keys` — contexts whose stores do not differ at the given keys;
* `EvalStrategy.ReadsAt`, `EvalStrategy.EmitsAt` — the keys a strategy reads and writes, together
  `EvalStrategy.Footprint`; `footprint_strategy`, that of a sub-pipeline;
* `commute_of_independent` — strategies with disjoint footprints commute;
* `execute_reprioritized` — what new priorities change, if the strategies they exchange are
  independent.
-/

variable {D : Decision}

/-! ### Contexts that agree at some keys -/

/-- The contexts differ at most in their stores, and there not at the given keys. -/
structure SameAt (keys : Set String) (c c' : EvalContext D) : Prop where
  context : c' = { c with artifacts := c'.artifacts }
  getAll : ∀ key ∈ keys, c.artifacts.getAll key = c'.artifacts.getAll key

theorem ArtifactStore.getAll_appendAll (store : ArtifactStore) (xs : List Artifact) (key : String) :
    (store.appendAll xs).getAll key = store.getAll key ++ xs.filter (fun a => a.key = key) := by
  rw [ArtifactStore.getAll, ArtifactStore.entries_appendAll, List.filter_append]
  rfl

namespace SameAt

variable {keys : Set String} {c c' : EvalContext D}

theorem equivalence (keys : Set String) : Equivalence (SameAt (D := D) keys) where
  refl _ := ⟨rfl, fun _ _ => rfl⟩
  symm h := ⟨by rw [h.context], fun key hkey => (h.getAll key hkey).symm⟩
  trans h h' := ⟨by rw [h'.context, h.context],
    fun key hkey => (h.getAll key hkey).trans (h'.getAll key hkey)⟩

theorem mono {keys' : Set String} (h : SameAt keys c c') (hsub : keys' ⊆ keys) : SameAt keys' c c' :=
  ⟨h.context, fun key hkey => h.getAll key (hsub hkey)⟩

theorem merge (h : SameAt keys c c') (xs : List Artifact) : SameAt keys (c.merge xs) (c'.merge xs) where
  context := by
    rw [h.context]
    rfl
  getAll key hkey := by
    rw [EvalContext.merge_artifacts, EvalContext.merge_artifacts, ArtifactStore.getAll_appendAll,
      ArtifactStore.getAll_appendAll, h.getAll key hkey]

theorem commit (h : SameAt keys c c') (out : Output D) :
    SameAt keys (Output.commit out c) (Output.commit out c') := by
  rw [commit_eq, commit_eq]
  exact h.merge _

theorem childContext (h : SameAt keys c c') (newV4 : Uuid) :
    SameAt keys (EvalPipeline.childContext newV4 c) (EvalPipeline.childContext newV4 c') where
  context := by
    rw [h.context]
    rfl
  getAll := h.getAll

theorem input (h : SameAt keys c c') : c.input = c'.input := by rw [h.context]
theorem constraints (h : SameAt keys c c') : c.constraints = c'.constraints := by rw [h.context]

theorem unseen (keys : Set String) : Unseen (D := D) (SameAt keys) where
  input h := h.input
  constraints h := h.constraints
  merge xs h := h.merge xs
  childContext newV4 h := h.childContext newV4

/-- The reads of one key agree. -/
theorem reads (h : SameAt keys c c') (key : String) (hkey : key ∈ keys) :
    c.artifacts.getLatest key = c'.artifacts.getLatest key ∧
      c.artifacts.getRequired key = c'.artifacts.getRequired key := by
  have hlatest : c.artifacts.getLatest key = c'.artifacts.getLatest key := by
    rw [ArtifactStore.getLatest_eq_getLast?, ArtifactStore.getLatest_eq_getLast?, h.getAll key hkey]
  refine ⟨hlatest, ?_⟩
  rw [ArtifactStore.getRequired, ArtifactStore.getRequired, hlatest]

end SameAt

/-! ### Footprints -/

/-- The strategy reads the store at some keys only. -/
def EvalStrategy.ReadsAt (s : EvalStrategy D) (reads : Set String) : Prop := s.BlindTo (SameAt reads)

/-- The strategy emits artifacts with some keys only. -/
def EvalStrategy.EmitsAt (s : EvalStrategy D) (writes : Set String) : Prop :=
  ∀ c caps patch, s.evaluate c caps = .ok patch → ∀ a ∈ patch.artifacts, a.key ∈ writes

/-- The strategy reads the store at some keys only, and emits artifacts with some keys only. -/
structure EvalStrategy.Footprint (s : EvalStrategy D) (reads writes : Set String) : Prop where
  reads : ∀ c c' caps, SameAt reads c c' → s.evaluate c caps = s.evaluate c' caps
  writes : ∀ c caps patch, s.evaluate c caps = .ok patch → ∀ a ∈ patch.artifacts, a.key ∈ writes

/-- Neither strategy writes what the other one reads or writes. -/
structure Independent (reads writes : EvalStrategy D → Set String) (s t : EvalStrategy D) : Prop where
  first : Disjoint (reads s) (writes t)
  second : Disjoint (writes s) (reads t)
  both : Disjoint (writes s) (writes t)

theorem Independent.symm {reads writes : EvalStrategy D → Set String} {s t : EvalStrategy D}
    (h : Independent reads writes s t) : Independent reads writes t s :=
  ⟨h.second.symm, h.first.symm, h.both.symm⟩

section Footprint

variable {s t : EvalStrategy D} {reads writes : EvalStrategy D → Set String}

/-- A strategy that writes none of some keys leaves them as they are. -/
theorem sameAt_commit {keys written : Set String} {c : EvalContext D} {out : Output D}
    (hout : ∀ patch, out = .ok patch → ∀ a ∈ patch.artifacts, a.key ∈ written)
    (hdisjoint : Disjoint written keys) : SameAt keys c (Output.commit out c) := by
  rw [commit_eq]
  refine ⟨rfl, fun key hkey => ?_⟩
  have hnone : ((patchOf out).flatMap StrategyPatch.artifacts).filter (fun a => a.key = key) = [] := by
    rw [List.filter_eq_nil_iff]
    intro a ha hkeya
    obtain ⟨patch, hpatch, ha⟩ := List.mem_flatMap.mp ha
    have hwritten := hout patch (mem_patchOf.mp hpatch) a ha
    rw [of_decide_eq_true hkeya] at hwritten
    exact Set.disjoint_left.mp hdisjoint hwritten hkey
  rw [EvalContext.merge_artifacts, ArtifactStore.getAll_appendAll, hnone, List.append_nil]

/-- **Independent strategies commute.** -/
theorem commute_of_independent (p : EvalPipeline D) (hs : s.Footprint (reads s) (writes s))
    (ht : t.Footprint (reads t) (writes t)) (h : Independent reads writes s t) :
    p.process.Commute (SameAt Set.univ) s t where
  first c := (hs.reads _ _ _ (sameAt_commit (ht.writes c _) h.first.symm)).symm
  second c := (ht.reads _ _ _ (sameAt_commit (hs.writes c _) h.second)).symm
  commit c := by
    show SameAt Set.univ
      (Output.commit (t.evaluate c p.capabilities) (Output.commit (s.evaluate c p.capabilities) c))
      (Output.commit (s.evaluate c p.capabilities) (Output.commit (t.evaluate c p.capabilities) c))
    refine ⟨by simp only [commit_eq]; rfl, fun key _ => ?_⟩
    by_cases hkey : key ∈ writes s
    · -- the second strategy writes nothing at this key
      have hkeys : Disjoint (writes t) {key} :=
        Set.disjoint_singleton_right.mpr (Set.disjoint_left.mp h.both hkey)
      have hleft := sameAt_commit (c := Output.commit (s.evaluate c p.capabilities) c)
        (ht.writes c p.capabilities) hkeys
      have hright := (sameAt_commit (c := c) (ht.writes c p.capabilities) hkeys).commit
        (s.evaluate c p.capabilities)
      exact (hleft.getAll key rfl).symm.trans (hright.getAll key rfl)
    · have hkeys : Disjoint (writes s) {key} := Set.disjoint_singleton_right.mpr hkey
      have hleft := (sameAt_commit (c := c) (hs.writes c p.capabilities) hkeys).commit
        (t.evaluate c p.capabilities)
      have hright := sameAt_commit (c := Output.commit (t.evaluate c p.capabilities) c)
        (hs.writes c p.capabilities) hkeys
      exact (hleft.getAll key rfl).symm.trans (hright.getAll key rfl)

end Footprint

/-! ### The footprint of a sub-pipeline -/

/-- Every leaf of the tree has the footprint. -/
inductive Tree.Footprint (reads writes : Set String) : Tree D → Prop
  | leaf {s : EvalStrategy D} : s.Footprint reads writes → Tree.Footprint reads writes (.leaf s)
  | sub {newV4 : Uuid} {settings : Settings} {children : List (Tree D)} :
    (∀ t ∈ children, Tree.Footprint reads writes t) →
      Tree.Footprint reads writes (.sub newV4 settings children)

/-- Every leaf of the tree emits artifacts with some keys only. -/
inductive Tree.EmitsAt (writes : Set String) : Tree D → Prop
  | leaf {s : EvalStrategy D} : s.EmitsAt writes → Tree.EmitsAt writes (.leaf s)
  | sub {newV4 : Uuid} {settings : Settings} {children : List (Tree D)} :
    (∀ t ∈ children, Tree.EmitsAt writes t) → Tree.EmitsAt writes (.sub newV4 settings children)

/-- A sub-pipeline emits what its leaves emit, at any depth. -/
theorem Tree.emitsAt_strategy {writes : Set String} (u : Tree D) (hu : u.EmitsAt writes) :
    u.strategy.EmitsAt writes := by
  induction u using Tree.induction with
  | hleaf s =>
    cases hu with
    | leaf hs => exact hs
  | hsub newV4 settings children ih =>
    cases hu with
    | sub hchildren =>
      intro c caps patch hpatch a ha
      have hevaluate : (settings.pipeline (Tree.strategies children)).evaluate newV4 c caps =
          .ok patch := hpatch
      -- the artifact is one of a patch that the run inside has merged
      obtain ⟨-, rfl⟩ := EvalPipeline.evaluate_eq_ok.mp hevaluate
      obtain ⟨q, hq, ha⟩ := List.mem_flatMap.mp ha
      obtain ⟨v, hv, hq⟩ := List.mem_flatMap.mp hq
      obtain ⟨hmem, hout⟩ := EvalPipeline.visits_spec hv
      rw [Settings.pipeline, Tree.strategies_eq_map] at hmem
      obtain ⟨t, ht, hstage⟩ := List.mem_map.mp hmem
      rw [mem_patchOf.mp hq, ← hstage] at hout
      exact ih t ht (hchildren t ht) v.seen _ q hout.symm a ha

/-- A footprint is one of reads and one of writes. -/
theorem Tree.Footprint.split {reads writes : Set String} (u : Tree D)
    (hu : u.Footprint reads writes) : u.BlindTo (SameAt reads) ∧ u.EmitsAt writes := by
  induction u using Tree.induction with
  | hleaf s =>
    cases hu with
    | leaf hs => exact ⟨.leaf hs.reads, .leaf hs.writes⟩
  | hsub newV4 settings children ih =>
    cases hu with
    | sub hchildren =>
      exact ⟨.sub (fun t ht => (ih t ht (hchildren t ht)).1),
        .sub (fun t ht => (ih t ht (hchildren t ht)).2)⟩

/-- **The footprint of a sub-pipeline** is that of its leaves, at any depth. -/
theorem footprint_strategy {reads writes : Set String} (u : Tree D)
    (hu : u.Footprint reads writes) : u.strategy.Footprint reads writes := by
  obtain ⟨hreads, hemits⟩ := Tree.Footprint.split u hu
  exact ⟨u.blindTo_strategy (SameAt.unseen reads) hreads, u.emitsAt_strategy hemits⟩

/-! ### Other priorities -/

/-- The strategy with another priority. -/
def EvalStrategy.withPriority (s : EvalStrategy D) (priority : Int) : EvalStrategy D :=
  { s with priority := priority }

/-- The pipeline with other priorities. -/
def EvalPipeline.reprioritized (p : EvalPipeline D) (priority : EvalStrategy D → Int) :
    EvalPipeline D :=
  { p with strategies := p.strategies.map (fun s => s.withPriority (priority s)) }

/-- The first strategy is in front of the second one by its own key, and behind it by the new
    priority. -/
def Exchanged (priority : EvalStrategy D → Int) (s t : EvalStrategy D) : Prop :=
  s ≠ t ∧ s.sortKey ≤ t.sortKey ∧
    (t.withPriority (priority t)).sortKey ≤ (s.withPriority (priority s)).sortKey

/-- Strategies of different phases are not exchanged. -/
theorem Exchanged.phase_eq {priority : EvalStrategy D → Int} {s t : EvalStrategy D}
    (h : Exchanged priority s t) : s.phase = t.phase := by
  have hnew : (t.withPriority (priority t)).phase ≤ (s.withPriority (priority s)).phase :=
    phase_le_of_sortKey_le h.2.2
  exact le_antisymm (phase_le_of_sortKey_le h.2.1) hnew

/-- The new priorities exchange the strategy with another one. -/
def EvalPipeline.Moved (p : EvalPipeline D) (priority : EvalStrategy D → Int) (s : EvalStrategy D) :
    Prop :=
  ∃ t ∈ p.strategies, Exchanged priority s t ∨ Exchanged priority t s

/-- Results that differ in the order in which the contributions of strategies are listed only. -/
structure EvalResult.Rescheduled (r r' : EvalResult D) : Prop where
  disposition : r.disposition = r'.disposition
  artifacts : r.artifacts.entries.Perm r'.artifacts.entries
  getAll : ∀ key, r.artifacts.getAll key = r'.artifacts.getAll key
  findings : r.findings.Perm r'.findings
  proposals : r.proposals.Perm r'.proposals
  steps : r.steps.Perm r'.steps
  explanations : r.trace.explanations.Perm r'.trace.explanations
  strategyVersions : r.snapshot.strategyVersions.Perm r'.snapshot.strategyVersions

/-- Executions with the same error or such results, that leave the same artifacts at every key. -/
structure Execution.Rescheduled (x x' : Execution D) : Prop where
  ctx : SameAt Set.univ x.ctx x'.ctx
  error : ∀ e, x.result = .error e ↔ x'.result = .error e
  ok : ∀ r, x.result = .ok r → ∃ r', x'.result = .ok r' ∧ r.Rescheduled r'

/-- The second run makes the visits of the first one in another order and with other priorities,
    and those that stop in their places. -/
structure RescheduledRun (p p' : EvalPipeline D) (ctx : EvalContext D) : Prop where
  failFast : p.failFast = p'.failFast
  enforceConstraints : p.enforceConstraints = p'.enforceConstraints
  visits : ∃ answers, Reschedule (fun x y => stopping p.failFast x.1.phase x.2 = false ∧
      stopping p.failFast y.1.phase y.2 = false) ((p.visits ctx).map Visit.answer) answers ∧
    ∃ priority : EvalStrategy D → Int, (p'.visits ctx).map Visit.answer =
      answers.map (fun x => (x.1.withPriority (priority x.1), x.2))
  ctx : SameAt Set.univ (ctx.merge (p.newArtifacts ctx)) (ctx.merge (p'.newArtifacts ctx))

/-- What is listed for visits is listed for their answers. -/
theorem flatMap_answer {γ : Type*} (g : EvalStrategy D → Output D → List γ)
    (vs : List (StrategyVisit D)) : vs.flatMap (fun v => g v.stage v.out) =
      (vs.map Visit.answer).flatMap (fun x => g x.1 x.2) := by
  rw [List.flatMap_map]
  rfl

/-- What is found at visits is found at their answers. -/
theorem findSome?_answer {γ : Type*} (g : EvalStrategy D → Output D → Option γ)
    (vs : List (StrategyVisit D)) : vs.findSome? (fun v => g v.stage v.out) =
      (vs.map Visit.answer).findSome? (fun x => g x.1 x.2) := by
  rw [List.findSome?_map]
  rfl

namespace RescheduledRun

variable {p p' : EvalPipeline D} {ctx : EvalContext D} (h : RescheduledRun p p' ctx)

include h

/-- What is listed for each visit is listed in another order. -/
theorem flatMap_perm {γ : Type*} (g : EvalStrategy D → Output D → List γ)
    (hg : ∀ s priority out, g (s.withPriority priority) out = g s out) :
    ((p.visits ctx).flatMap (fun v => g v.stage v.out)).Perm
      ((p'.visits ctx).flatMap (fun v => g v.stage v.out)) := by
  obtain ⟨answers, hanswers, priority, heq⟩ := h.visits
  have hsame : (answers.map (fun x => (x.1.withPriority (priority x.1), x.2))).flatMap
      (fun x => g x.1 x.2) = answers.flatMap (fun x => g x.1 x.2) := by
    simp only [List.flatMap_map, hg]
  rw [flatMap_answer, flatMap_answer, heq, hsame]
  exact hanswers.perm.flatMap_right _

/-- What is found at visits that stop only is found alike. -/
theorem findSome?_eq {γ : Type*} (g : EvalStrategy D → Output D → Option γ)
    (hg : ∀ s priority out, g (s.withPriority priority) out = g s out)
    (hstop : ∀ s out, stopping p.failFast s.phase out = false → g s out = none) :
    (p.visits ctx).findSome? (fun v => g v.stage v.out) =
      (p'.visits ctx).findSome? (fun v => g v.stage v.out) := by
  obtain ⟨answers, hanswers, priority, heq⟩ := h.visits
  have hsame : (answers.map (fun x => (x.1.withPriority (priority x.1), x.2))).findSome?
      (fun x => g x.1 x.2) = answers.findSome? (fun x => g x.1 x.2) := by
    simp only [List.findSome?_map, Function.comp_def, hg]
  rw [findSome?_answer, findSome?_answer, heq, hsame]
  exact hanswers.findSome?_eq (fun x y hxy => ⟨hstop _ _ hxy.1, hstop _ _ hxy.2⟩)

theorem disposition_eq : p.disposition ctx = p'.disposition ctx :=
  h.findSome?_eq (fun s out => verdict s.phase out) (fun _ _ _ => rfl)
    (fun _ _ hgo => EvalPipeline.verdict_eq_none_of_not_stopping hgo)

theorem refusal_eq : p.refusal ctx = p'.refusal ctx := by
  have hfailure : (p.visits ctx).findSome? (fun v => failure p.failFast v.stage v.out) =
      (p'.visits ctx).findSome? (fun v => failure p'.failFast v.stage v.out) := by
    rw [← h.failFast]
    refine h.findSome?_eq (failure p.failFast) (fun s priority out => ?_) (fun s out hgo => ?_)
    · cases out <;> rfl
    · exact failure_eq_none_of_not_stopping hgo
  unfold EvalPipeline.refusal EvalPipeline.outputError
  rw [hfailure, h.disposition_eq, h.enforceConstraints]

/-- What is listed in the patches is listed in another order. -/
theorem patches_perm {γ : Type*} (g : StrategyPatch D → List γ) :
    ((patches (p.visits ctx)).flatMap g).Perm ((patches (p'.visits ctx)).flatMap g) := by
  unfold patches
  rw [List.flatMap_assoc, List.flatMap_assoc]
  exact h.flatMap_perm (fun _ out => (patchOf out).flatMap g) (fun _ _ _ => rfl)

theorem summary_rescheduled : (p.summary ctx).Rescheduled (p'.summary ctx) where
  disposition := h.disposition_eq
  artifacts := (h.patches_perm StrategyPatch.artifacts).append_left _
  getAll key := h.ctx.getAll key (Set.mem_univ key)
  findings := h.patches_perm StrategyPatch.findings
  proposals := h.patches_perm StrategyPatch.proposals
  steps := by
    have hsteps := h.flatMap_perm (fun s out => [stepOf s out]) (fun _ _ _ => rfl)
    rwa [← List.map_eq_flatMap, ← List.map_eq_flatMap] at hsteps
  explanations := by
    rw [EvalPipeline.summary_explanations, EvalPipeline.summary_explanations]
    refine h.flatMap_perm explanationsOf (fun s priority out => ?_)
    cases out <;> rfl
  strategyVersions := by
    have hversions := h.flatMap_perm (fun s _ => [(s.id, s.version.toString)]) (fun _ _ _ => rfl)
    rwa [← List.map_eq_flatMap, ← List.map_eq_flatMap] at hversions

/-- Rescheduled runs end in rescheduled executions. -/
theorem execute_rescheduled : (p.execute ctx).Rescheduled (p'.execute ctx) where
  ctx := by
    rw [EvalPipeline.execute_ctx, EvalPipeline.execute_ctx]
    exact h.ctx
  error := EvalPipeline.execute_error_congr h.refusal_eq
  ok r hr := by
    obtain ⟨rfl, hr'⟩ := EvalPipeline.execute_ok_congr h.refusal_eq hr
    exact ⟨_, hr', h.summary_rescheduled⟩

end RescheduledRun

section Reprioritized

variable {p : EvalPipeline D} {reads writes : EvalStrategy D → Set String}
  (hfoot : ∀ s ∈ p.strategies, s.Footprint (reads s) (writes s))
  {priority : EvalStrategy D → Int}

/-- The order of the pipeline with other priorities, with the strategies as they were. -/
def EvalPipeline.newOrder (p : EvalPipeline D) (priority : EvalStrategy D → Int) :
    List (EvalStrategy D) :=
  sortBy (fun s => (s.withPriority (priority s)).sortKey) p.strategies

/-- The visits of the pipeline with other priorities. -/
theorem visits_reprioritized {ctx : EvalContext D} (hinput : D.validateInput ctx.input = .ok ()) :
    (p.reprioritized priority).visits ctx = (p.process.visits (p.newOrder priority) ctx).map
      (Visit.mapStage (fun s => s.withPriority (priority s))) := by
  have hcomap : (p.reprioritized priority).process.comap
      (fun s => s.withPriority (priority s)) = p.process := rfl
  have horder : (p.reprioritized priority).order =
      (p.newOrder priority).map (fun s => s.withPriority (priority s)) := sortBy_map _ _ _
  rw [visits_of_valid hinput, horder, Process.visits_map, hcomap]

include hfoot

/-- **Exchanging independent strategies.** If new priorities exchange independent strategies only,
    none of which stops the run, then the run with these priorities is a rescheduled one. -/
theorem rescheduledRun_reprioritized {ctx : EvalContext D}
    (hindependent : ∀ s ∈ p.strategies, ∀ t ∈ p.strategies, Exchanged priority s t →
      Independent reads writes s t)
    (hgo : ∀ v ∈ p.visits ctx, p.Moved priority v.stage → p.stopsAt v = false) :
    RescheduledRun p (p.reprioritized priority) ctx := by
  rcases hinput : D.validateInput ctx.input with e | ⟨⟩
  · have hnone : ∀ q : EvalPipeline D, q.visits ctx = [] := fun q => visits_of_invalid hinput
    refine ⟨rfl, rfl, ⟨[], ?_, priority, ?_⟩, ?_⟩
    · rw [hnone]
      exact .nil
    · rw [hnone]
      rfl
    · rw [EvalPipeline.newArtifacts, EvalPipeline.newArtifacts, hnone, hnone]
      exact (SameAt.equivalence Set.univ).refl _
  have hschedule : Reschedule
      (fun s t => s ∈ p.strategies ∧ t ∈ p.strategies ∧ Exchanged priority s t) p.order
      (p.newOrder priority) :=
    reschedule_sortBy (fun s hs t ht hne hkey hkey' => ⟨hs, ht, hne, hkey, hkey'⟩)
  have hrespects : p.process.Respects (SameAt Set.univ) p.order := by
    refine ⟨fun s hs c c' hc => ?_, fun out _ _ hc => hc.commit out⟩
    exact (hfoot s (mem_sortBy.mp hs)).reads _ _ _ (hc.mono (Set.subset_univ _))
  have hcommute : ∀ s t, (s ∈ p.strategies ∧ t ∈ p.strategies ∧ Exchanged priority s t) →
      p.process.Commute (SameAt Set.univ) s t := fun s t hst =>
    commute_of_independent p (hfoot s hst.1) (hfoot t hst.2.1) (hindependent s hst.1 t hst.2.1 hst.2.2)
  have hmoved : ∀ s t, (s ∈ p.strategies ∧ t ∈ p.strategies ∧ Exchanged priority s t) →
      p.Moved priority s ∧ p.Moved priority t := fun s t hst =>
    ⟨⟨t, hst.2.1, Or.inl hst.2.2⟩, ⟨s, hst.1, Or.inr hst.2.2⟩⟩
  rw [visits_of_valid hinput] at hgo
  obtain ⟨hanswers, hctx⟩ := Process.visits_reschedule (SameAt.equivalence Set.univ) hcommute hmoved
    hschedule hrespects ((SameAt.equivalence Set.univ).refl ctx) hgo
  refine ⟨rfl, rfl, ⟨_, visits_of_valid hinput ▸ hanswers, priority, ?_⟩, ?_⟩
  · rw [visits_reprioritized hinput, List.map_map, List.map_map]
    rfl
  · -- what the strategies commit is not changed by their priorities
    have hpatches : patches ((p.reprioritized priority).visits ctx) =
        patches (p.process.visits (p.newOrder priority) ctx) := by
      rw [visits_reprioritized hinput, patches, List.flatMap_map]
      rfl
    rw [EvalPipeline.newArtifacts, EvalPipeline.newArtifacts, hpatches, visits_of_valid hinput,
      ← commitAll_eq p, ← commitAll_eq p]
    exact hctx

/-- **New priorities.** Let all strategies read and write the store by key.  If those that new
    priorities exchange are independent of each other, and none of them stops the run, then a
    pipeline with these priorities, its sub-pipelines drawing the same identifiers, returns the same
    error or the same disposition, and leaves the same artifacts at every key; findings,
    proposals, explanations and steps are listed in another order. -/
theorem execute_reprioritized {ctx : EvalContext D}
    (hindependent : ∀ s ∈ p.strategies, ∀ t ∈ p.strategies, Exchanged priority s t →
      Independent reads writes s t)
    (hgo : ∀ v ∈ p.visits ctx, p.Moved priority v.stage → p.stopsAt v = false) :
    (p.execute ctx).Rescheduled ((p.reprioritized priority).execute ctx) :=
  (rescheduledRun_reprioritized hfoot hindependent hgo).execute_rescheduled

end Reprioritized

namespace Sample

/-- A leaf that stores an artifact with the given key. -/
def emitter (key : String) : EvalStrategy decision where
  id := key
  version := ⟨1, 0, 0⟩
  phase := .enrich
  priority := 0
  evaluate := fun _ _ =>
    .ok ⟨[⟨key, .null, key, "1.0.0", "v1", "", .deterministic⟩], [], [], [], .continue⟩

/-- A decider that approves of the number of the artifacts with two keys. -/
def counter : EvalStrategy decision where
  id := "counter"
  version := ⟨1, 0, 0⟩
  phase := .decide
  priority := 0
  evaluate := fun ctx _ =>
    .ok ⟨[], [], [], [], .finalize (.auto
      ((ctx.artifacts.getAll "north").length + (ctx.artifacts.getAll "south").length : Nat))⟩

/-- The artifact with the key "south" is emitted by a sub-pipeline. -/
def collected : EvalPipeline decision :=
  pipeline [emitter "north", (sub "others" [.leaf (emitter "south")]).strategy, counter]

/-- The counter reads the keys of the two leaves. -/
def readKeys (s : EvalStrategy decision) : Set String :=
  if s.phase = .decide then {"north", "south"} else ∅

/-- The two leaves write one key each. -/
def writtenKeys (s : EvalStrategy decision) : Set String :=
  if s.phase = .decide then ∅ else if s.id = "others" then {"south"} else {"north"}

theorem emitter_footprint (key : String) : (emitter key).Footprint ∅ {key} where
  reads _ _ _ _ := rfl
  writes _ _ patch hpatch a ha := by
    obtain rfl := Except.ok.inj hpatch
    rw [List.mem_singleton.mp ha]
    rfl

theorem counter_footprint : counter.Footprint {"north", "south"} ∅ where
  reads c c' _ hc := by
    simp only [counter, hc.getAll "north" (by simp), hc.getAll "south" (by simp)]
  writes _ _ patch hpatch a ha := by
    obtain rfl := Except.ok.inj hpatch
    cases ha

theorem collected_footprint :
    ∀ s ∈ collected.strategies, s.Footprint (readKeys s) (writtenKeys s) := by
  intro s hs
  simp only [collected, pipeline, List.mem_cons, List.not_mem_nil, or_false] at hs
  rcases hs with rfl | rfl | rfl
  · exact emitter_footprint "north"
  · refine footprint_strategy _ (.sub (fun t ht => ?_))
    obtain rfl := List.mem_singleton.mp ht
    exact .leaf (emitter_footprint "south")
  · exact counter_footprint

theorem collected_independent : Independent readKeys writtenKeys (emitter "north")
    (sub "others" [.leaf (emitter "south")]).strategy := by
  have hread : ∀ s : EvalStrategy decision, s.phase = .enrich → readKeys s = ∅ := by
    intro s hs
    rw [readKeys, hs, if_neg (by decide)]
  have hothers : writtenKeys (sub "others" [.leaf (emitter "south")]).strategy = {"south"} := rfl
  have hnorth : writtenKeys (emitter "north") = {"north"} := rfl
  refine ⟨?_, ?_, ?_⟩
  · rw [hread _ rfl]
    exact Set.disjoint_left.mpr (fun _ h => h.elim)
  · rw [hread _ rfl]
    exact Set.disjoint_left.mpr (fun _ _ h => h.elim)
  · rw [hothers, hnorth, Set.disjoint_singleton]
    decide

end Sample

/-- The sub-pipeline may be run first. -/
theorem execute_reprioritized_collected :
    (Sample.collected.execute Sample.context).Rescheduled
      ((Sample.collected.reprioritized
        (fun s => if s.id = "others" then -1 else s.priority)).execute Sample.context) := by
  have hcounter : ∀ s ∈ Sample.collected.strategies, s.phase = .decide → s = Sample.counter := by
    intro s hs hphase
    simp only [Sample.collected, Sample.pipeline, List.mem_cons, List.not_mem_nil, or_false] at hs
    rcases hs with rfl | rfl | rfl
    · cases hphase
    · cases hphase
    · rfl
  have hgo : ∀ v ∈ Sample.collected.visits Sample.context, v.stage.phase ≠ .decide →
      Sample.collected.stopsAt v = false := by
    decide
  refine execute_reprioritized Sample.collected_footprint (fun s hs t ht h => ?_)
    (fun v hv ⟨t, ht, h⟩ => hgo v hv (fun hphase => ?_))
  · have hphase := h.phase_eq
    simp only [Sample.collected, Sample.pipeline, List.mem_cons, List.not_mem_nil, or_false] at hs ht
    rcases hs with rfl | rfl | rfl <;> rcases ht with rfl | rfl | rfl
    · exact absurd rfl h.1
    · exact Sample.collected_independent
    · cases hphase
    · exact Sample.collected_independent.symm
    · exact absurd rfl h.1
    · cases hphase
    · cases hphase
    · cases hphase
    · exact absurd rfl h.1
  · -- the decider is alone in its phase
    have hstage := hcounter v.stage (EvalPipeline.visits_spec hv).1 hphase
    rcases h with h | h
    · exact h.1 (hstage.trans (hcounter t ht (h.phase_eq ▸ hphase)).symm)
    · exact h.1 ((hcounter t ht (h.phase_eq.trans hphase)).trans hstage.symm)

end DarqEval
