import DarqEval.Alike
import DarqEval.Leaves

namespace DarqEval

open Lib

/-!
# Flags

`fail_fast` says what becomes of a strategy that fails, and `enforce_constraints` whether an output
that is approved is validated.  Neither shows in a run in which nothing fails.

* `Tree.Loosened` — trees that differ in the flags of their pipelines, at any depth, without
  enforcing more;
* `SameVisits` — a run without failures, and one with the same visits that enforces no more;
* `strategy_loosened` — where no evaluation inside fails, loosened trees return the same;
* `execute_loosened` — loosening a tree does not change its runs without failures.
-/

variable {D : Decision}

/-- The settings differ in the flags, and the second ones do not enforce more. -/
structure Settings.Loosened (c c' : Settings) : Prop where
  name : c.name = c'.name
  capabilities : c.capabilities = c'.capabilities
  enforceConstraints : c'.enforceConstraints = true → c.enforceConstraints = true

/-- The settings of the trees are loosened, at any depth; their evaluations draw the same
    identifiers. -/
inductive Tree.Loosened : Tree D → Tree D → Prop
  | leaf (s : EvalStrategy D) : Tree.Loosened (.leaf s) (.leaf s)
  | sub (newV4 : Uuid) {c c' : Settings} {ts ts' : List (Tree D)} : c.Loosened c' →
    List.Forall₂ Tree.Loosened ts ts' → Tree.Loosened (.sub newV4 c ts) (.sub newV4 c' ts')

/-- The settings of the root pipelines are loosened, at any depth. -/
structure PipelineTree.Loosened (t t' : PipelineTree D) : Prop where
  settings : t.settings.Loosened t'.settings
  children : List.Forall₂ Tree.Loosened t.children t'.children

/-- No evaluation of the run fails, at any depth. -/
def PipelineTree.Flawless (t : PipelineTree D) (ctx : EvalContext D) : Prop :=
  ∀ r ∈ RunRecord.allOf (t.records ctx), r.visit.out.isOk = true

/-! ### Runs with the same visits -/

/-- The visits of the first run return `Ok`, the second run makes the same ones, and it does not
    enforce more. -/
structure SameVisits (p p' : EvalPipeline D) (ctx : EvalContext D) : Prop where
  visits : List.Forall₂ SameVisit (p.visits ctx) (p'.visits ctx)
  isOk : ∀ v ∈ p.visits ctx, v.out.isOk = true
  enforceConstraints : p'.enforceConstraints = true → p.enforceConstraints = true

theorem stopping_of_isOk {out : Output D} (h : out.isOk = true) (failFast failFast' : Bool)
    (phase : Phase) : stopping failFast phase out = stopping failFast' phase out := by
  cases out with
  | error e => cases h
  | ok patch => rfl

theorem failure_of_isOk {out : Output D} (h : out.isOk = true) (failFast : Bool)
    (s : EvalStrategy D) : failure failFast s out = none := by
  cases out with
  | error e => cases h
  | ok patch => rfl

namespace SameVisits

variable {p p' : EvalPipeline D} {ctx : EvalContext D} (h : SameVisits p p' ctx)

include h

theorem disposition_eq : p.disposition ctx = p'.disposition ctx :=
  findSome?_sameVisit h.visits (fun _ _ hv => by rw [hv.2, label_phase hv.1])

theorem patches_eq : patches (p.visits ctx) = patches (p'.visits ctx) := patches_sameVisit h.visits

theorem explanations_eq : p.explanations ctx = p'.explanations ctx :=
  flatMap_sameVisit h.visits (fun _ _ hv => by rw [hv.2, explanationsOf_congr hv.1])

theorem newArtifacts_eq : p.newArtifacts ctx = p'.newArtifacts ctx := by
  rw [EvalPipeline.newArtifacts, EvalPipeline.newArtifacts, h.patches_eq]

/-- The patch a sub-pipeline returns for its run. -/
theorem runPatch_eq : p.runPatch ctx = p'.runPatch ctx := by
  unfold EvalPipeline.runPatch
  rw [h.newArtifacts_eq, h.patches_eq, h.explanations_eq, h.disposition_eq]

/-- If the first run returns a result, the second one does. -/
theorem refusal_eq_none (hrefusal : p.refusal ctx = none) : p'.refusal ctx = none := by
  have hinput := EvalPipeline.validateInput_of_refusal hrefusal
  have hfailure : (p'.visits ctx).findSome? (fun v => failure p'.failFast v.stage v.out) = none := by
    have hsame := findSome?_sameVisit h.visits (f := fun v => failure p'.failFast v.stage v.out)
      (fun _ _ hv => by rw [hv.2, failure_congr hv.1])
    rw [← hsame, List.findSome?_eq_none_iff]
    exact fun v hv => failure_of_isOk (h.isOk v hv) _ _
  have houtput : p'.outputError ctx (p'.disposition ctx) = none := by
    rw [← h.disposition_eq]
    cases hdisp : p.disposition ctx with
    | none => rfl
    | some disp =>
      cases disp with
      | auto output =>
        -- what the second run validates, the first one did
        by_cases henforce : p'.enforceConstraints = true
        · have hvalid := EvalPipeline.validateOutput_of_refusal hrefusal hdisp
            (h.enforceConstraints henforce)
          simp only [EvalPipeline.outputError, henforce, if_true, hvalid]
        · rw [EvalPipeline.outputError, if_neg henforce]
      | review provisional reasons => rfl
      | deny reasons => rfl
  unfold EvalPipeline.refusal
  rw [hinput, hfailure, houtput]
  rfl

/-- Sub-pipelines of one name return the same, if the first one returns `Ok`. -/
theorem evaluate_eq {newV4 : Uuid} {c : EvalContext D} (caps : CapabilitySet)
    (hctx : ctx = EvalPipeline.childContext newV4 c)
    (hok : (p.evaluate newV4 c caps).isOk = true) :
    p'.evaluate newV4 c caps = p.evaluate newV4 c caps := by
  cases hout : p.evaluate newV4 c caps with
  | error e =>
    rw [hout] at hok
    cases hok
  | ok patch =>
    obtain ⟨hrefusal, rfl⟩ := EvalPipeline.evaluate_eq_ok.mp hout
    subst hctx
    exact EvalPipeline.evaluate_eq_ok.mpr ⟨h.refusal_eq_none hrefusal, h.runPatch_eq⟩

/-- The events of the two runs, but for the one of a validated output. -/
theorem filter_events :
    (p'.events ctx).filter (· ≠ .outputValidated) = (p.events ctx).filter (· ≠ .outputValidated) := by
  have houtput : ∀ (q : EvalPipeline D) disp,
      (q.outputEvents disp).filter (· ≠ .outputValidated) = [] := by
    intro q disp
    unfold EvalPipeline.outputEvents
    split
    · split <;> rfl
    · rfl
  unfold EvalPipeline.events
  simp only [List.filter_append, houtput, ← visitEvents_sameVisit h.visits,
    ← lastPhase_sameVisit h.visits]

/-- The results of the two runs. -/
theorem summary_eq (hname : p.name = p'.name) :
    p'.summary ctx = { p.summary ctx with trace := (p'.summary ctx).trace } := by
  have hversions : p.versions ctx = p'.versions ctx :=
    map_sameVisit h.visits (fun _ _ hv => by rw [label_id hv.1, label_version hv.1])
  have hsteps : (p.visits ctx).map (fun v => stepOf v.stage v.out) =
      (p'.visits ctx).map (fun v => stepOf v.stage v.out) :=
    map_sameVisit h.visits (fun _ _ hv => by rw [hv.2, stepOf_congr hv.1])
  simp only [EvalPipeline.summary, hname, h.disposition_eq, h.patches_eq, h.newArtifacts_eq, hsteps,
    hversions]

theorem summary_eq_of_enforceConstraints (hname : p.name = p'.name)
    (henforce : p'.enforceConstraints = p.enforceConstraints) : p'.summary ctx = p.summary ctx := by
  have hevents : p.events ctx = p'.events ctx := by
    unfold EvalPipeline.events EvalPipeline.outputEvents
    rw [visitEvents_sameVisit h.visits, lastPhase_sameVisit h.visits, h.disposition_eq, henforce]
  have htrace : (p'.summary ctx).trace = (p.summary ctx).trace := by
    simp only [EvalPipeline.summary, hevents, h.explanations_eq]
  rw [h.summary_eq hname, htrace]

end SameVisits

/-! ### Loosened trees -/

/-- A pipeline reads nothing of its flags before it runs. -/
theorem label_loosened (u : Tree D) : ∀ u', u.Loosened u' → u.strategy.label = u'.strategy.label := by
  induction u using Tree.induction with
  | hleaf s =>
    intro u' h
    cases h
    rfl
  | hsub newV4 c ts ih =>
    intro u' h
    cases h with
    | @sub _ _ c' _ ts' hc hts =>
      have hphases : (Tree.strategies ts).map EvalStrategy.phase =
          (Tree.strategies ts').map EvalStrategy.phase := by
        rw [Tree.strategies_eq_map, Tree.strategies_eq_map, List.map_map, List.map_map]
        exact map_eq_of_forall₂ hts (fun t ht t' _ htt' => label_phase (ih t ht t' htt'))
      have hphase : (c.pipeline (Tree.strategies ts)).phase =
          (c'.pipeline (Tree.strategies ts')).phase := by
        show ((Tree.strategies ts).map EvalStrategy.phase).min?.getD .enrich = _
        rw [hphases]
        rfl
      simp only [EvalStrategy.label, Tree.strategy, EvalPipeline.toStrategy, hphase]
      rw [show (c.pipeline (Tree.strategies ts)).name = (c'.pipeline (Tree.strategies ts')).name
        from hc.name]

/-- The trees of the two root pipelines are run in one order. -/
theorem forall₂_order_loosened {t t' : PipelineTree D} (h : t.Loosened t') :
    List.Forall₂ Tree.Loosened t.order t'.order :=
  sortBy_forall₂ (fun u u' hu => EvalStrategy.sortKey_eq_of_label (label_loosened u u' hu))
    h.children

/-- **The visits of a loosened run.** If no visit fails and the children return the same wherever
    the first run evaluates them, the second run makes the same visits. -/
theorem sameVisits_loosened {t t' : PipelineTree D} (h : t.Loosened t') {ctx : EvalContext D}
    (hchildren : ∀ v ∈ t.treeVisits ctx, v.out.isOk = true ∧
      ∀ u', v.stage.Loosened u' → v.out = u'.strategy.evaluate v.seen t.settings.capabilities) :
    SameVisits t.pipeline t'.pipeline ctx where
  visits := by
    have hlock : List.Forall₂ (fun v v' => v.stage.Loosened v'.stage ∧ v.seen = v'.seen ∧
        v.out = v'.out ∧ v.out.isOk = true) (t.treeVisits ctx) (t'.treeVisits ctx) := by
      unfold PipelineTree.treeVisits at hchildren ⊢
      by_cases hinput : (D.validateInput ctx.input).isOk
      · rw [if_pos hinput] at hchildren
        rw [if_pos hinput, if_pos hinput]
        have hcommit : ∀ (out out' : Output D) (c c' : EvalContext D),
            (out = out' ∧ out.isOk = true) → c = c' → Output.commit out c = Output.commit out' c' := by
          rintro out _ c _ ⟨rfl, -⟩ rfl
          rfl
        have hstops : ∀ (u u' : Tree D) (out out' : Output D), u.Loosened u' →
            (out = out' ∧ out.isOk = true) →
            stopping t.pipeline.failFast u.strategy.phase out =
              stopping t'.pipeline.failFast u'.strategy.phase out' := by
          rintro u u' out _ hu ⟨rfl, hok⟩
          rw [label_phase (label_loosened u u' hu)]
          exact stopping_of_isOk hok _ _ _
        refine Process.visits_lockstep _ _ Tree.Loosened Eq
          (fun (out out' : Output D) => out = out' ∧ out.isOk = true) hcommit hstops
          (forall₂_order_loosened h) rfl ?_
        rintro v hv u' _ hu rfl
        obtain ⟨hok, hout⟩ := hchildren v hv
        refine ⟨?_, hok⟩
        rw [hout u' hu, h.settings.capabilities]
        rfl
      · rw [if_neg hinput, if_neg hinput]
        exact List.Forall₂.nil
    rw [← t.treeVisits_mapStage, ← t'.treeVisits_mapStage, List.forall₂_map_left_iff,
      List.forall₂_map_right_iff]
    exact hlock.imp (fun v v' hv => ⟨label_loosened v.stage v'.stage hv.1, hv.2.2.1⟩)
  isOk := by
    intro v hv
    rw [← t.treeVisits_mapStage] at hv
    obtain ⟨w, hw, rfl⟩ := List.mem_map.mp hv
    exact (hchildren w hw).1
  enforceConstraints := h.settings.enforceConstraints

/-- The evaluations inside a record of the run are evaluations of the run. -/
theorem PipelineTree.Flawless.record {t : PipelineTree D} {ctx : EvalContext D} (h : t.Flawless ctx)
    {v : Visit (Tree D) (EvalContext D) (Output D)} (hv : v ∈ t.treeVisits ctx) :
    ∀ r ∈ (v.stage.record (v.mapStage Tree.strategy) v.later).all, r.visit.out.isOk = true := by
  intro r hr
  refine h r (RunRecord.mem_allOf.mpr ⟨_, ?_, hr⟩)
  rw [PipelineTree.records_eq]
  exact List.mem_map_of_mem hv

/-- **Loosened trees return the same** where no evaluation inside them fails. -/
theorem strategy_loosened (u : Tree D) : ∀ u', u.Loosened u' →
    ∀ (v : StrategyVisit D) (later : List (Tree D)) (caps : CapabilitySet),
      v.out = u.strategy.evaluate v.seen caps →
      (∀ r ∈ (u.record v later).all, r.visit.out.isOk = true) →
      v.out = u'.strategy.evaluate v.seen caps := by
  induction u using Tree.induction with
  | hleaf s =>
    intro u' h v later caps hout _
    cases h
    exact hout
  | hsub newV4 c ts ih =>
    intro u' h v later caps hout hflawless
    cases h with
    | @sub _ _ c' _ ts' hc hts =>
      have hown : v.out.isOk = true := by
        have hself := hflawless _ (RunRecord.mem_all_self _)
        rwa [Tree.record_visit] at hself
      have hinner : PipelineTree.Flawless ⟨c, ts⟩ (EvalPipeline.childContext newV4 v.seen) :=
        fun r hr => hflawless r (List.mem_cons_of_mem _ hr)
      have hsame : SameVisits (PipelineTree.pipeline ⟨c, ts⟩) (PipelineTree.pipeline ⟨c', ts'⟩)
          (EvalPipeline.childContext newV4 v.seen) := by
        refine sameVisits_loosened ⟨hc, hts⟩ (fun w hw => ?_)
        obtain ⟨hmem, hw'⟩ := PipelineTree.treeVisits_spec hw
        have hrecord := hinner.record hw
        refine ⟨?_, fun w' hw'' => ih w.stage hmem w' hw'' _ _ _ hw' hrecord⟩
        have hself := hrecord _ (RunRecord.mem_all_self _)
        rwa [Tree.record_visit] at hself
      rw [hout] at hown ⊢
      exact (hsame.evaluate_eq caps rfl hown).symm

/-- **Flags do not show in a run without failures.** If no evaluation of a run fails, at any depth,
    and it returns a result, then a tree with other `fail_fast` flags and some `enforce_constraints`
    flags cleared, at any depth, whose sub-pipelines draw the same identifiers, leaves the same
    context and returns the same result, but for the event of the validated output if the root's
    flag was cleared. -/
theorem execute_loosened {t t' : PipelineTree D} (h : t.Loosened t') {ctx : EvalContext D}
    (hflawless : t.Flawless ctx) {r : EvalResult D} (hr : (t.execute ctx).result = .ok r) :
    (t'.execute ctx).ctx = (t.execute ctx).ctx ∧
      ∃ r', (t'.execute ctx).result = .ok r' ∧ r' = { r with trace := r'.trace } ∧
        r'.trace.explanations = r.trace.explanations ∧
        r'.trace.payloads.filter (· ≠ .outputValidated) =
          r.trace.payloads.filter (· ≠ .outputValidated) ∧
        (t'.settings.enforceConstraints = t.settings.enforceConstraints → r' = r) := by
  have hsame : SameVisits t.pipeline t'.pipeline ctx := by
    refine sameVisits_loosened h (fun v hv => ?_)
    obtain ⟨-, hout⟩ := PipelineTree.treeVisits_spec hv
    have hrecord := hflawless.record hv
    refine ⟨?_, fun u' hu => strategy_loosened v.stage u' hu _ _ _ hout hrecord⟩
    have hself := hrecord _ (RunRecord.mem_all_self _)
    rwa [Tree.record_visit] at hself
  obtain ⟨hrefusal, rfl⟩ := EvalPipeline.execute_eq_ok.mp hr
  refine ⟨?_, t'.pipeline.summary ctx, EvalPipeline.execute_eq_ok.mpr
    ⟨hsame.refusal_eq_none hrefusal, rfl⟩, hsame.summary_eq h.settings.name, ?_, ?_,
    hsame.summary_eq_of_enforceConstraints h.settings.name⟩
  · rw [PipelineTree.execute, PipelineTree.execute, EvalPipeline.execute_ctx,
      EvalPipeline.execute_ctx, hsame.newArtifacts_eq]
  · rw [EvalPipeline.summary_explanations, EvalPipeline.summary_explanations, hsame.explanations_eq]
  · rw [EvalPipeline.summary_payloads, EvalPipeline.summary_payloads]
    exact hsame.filter_events

namespace Sample

/-- A check in a sub-pipeline, and a decider behind it, with the flags of both pipelines. -/
def flagged (enforceConstraints failFast : Bool) : PipelineTree decision :=
  ⟨⟨"sample", .new, enforceConstraints, failFast⟩,
    [.sub 0 ⟨"inner", .new, enforceConstraints, failFast⟩
      [.leaf (leaf "check" .evaluate .continue)],
    .leaf (leaf "decider" .decide (.finalize (.auto (2 : Nat))))]⟩

theorem flagged_loosened : (flagged true true).Loosened (flagged false false) := by
  have hsettings : ∀ name, Settings.Loosened ⟨name, .new, true, true⟩ ⟨name, .new, false, false⟩ :=
    fun _ => ⟨rfl, rfl, fun h => by cases h⟩
  exact ⟨hsettings "sample", .cons (.sub 0 (hsettings "inner") (.cons (.leaf _) .nil))
    (.cons (.leaf _) .nil)⟩

end Sample

/-- The decider approves the same without any flag. -/
theorem execute_loosened_flagged :
    ∃ r r', ((Sample.flagged true true).execute Sample.context).result = .ok r ∧
      ((Sample.flagged false false).execute Sample.context).result = .ok r' ∧
      r'.disposition = r.disposition := by
  have hflawless : (Sample.flagged true true).Flawless Sample.context := by
    unfold PipelineTree.Flawless
    decide
  obtain ⟨-, r', hr', heq, -⟩ :=
    execute_loosened Sample.flagged_loosened hflawless (EvalPipeline.execute_eq_ok.mpr ⟨rfl, rfl⟩)
  exact ⟨_, r', EvalPipeline.execute_eq_ok.mpr ⟨rfl, rfl⟩, hr', by rw [heq]⟩

end DarqEval
