import DarqEval.Execute

namespace DarqEval

open Lib

/-!
# Runs that agree

Two runs, perhaps of different pipelines in different contexts, whose visits pair up with equal
outputs of equally labelled strategies return and leave the same, up to the identifiers they
were given.

* `EvalStrategy.label` — all a pipeline reads of a strategy without evaluating it;
* `SameRun` — two runs with paired visits, and the same flags, input and constraints;
* `SameRun.execute_alike` — they end alike; `SameRun.evaluate_eq` — as sub-pipelines they return
  the same;
* `visits_sameRun` — visits pair up if the strategies do and are evaluated alike.
-/

variable {D : Decision}

/-- What a pipeline reads of a strategy without evaluating it. -/
def EvalStrategy.label (s : EvalStrategy D) : String × StrategyVersion × Phase × Int :=
  (s.id, s.version, s.phase, s.priority)

theorem EvalStrategy.sortKey_eq_of_label {s s' : EvalStrategy D} (h : s.label = s'.label) :
    s.sortKey = s'.sortKey := by
  simp only [EvalStrategy.label, Prod.mk.injEq] at h
  simp only [EvalStrategy.sortKey, h]

/-- Results that agree in all but the identifiers and the metadata of their runs. -/
structure EvalResult.Alike (r r' : EvalResult D) : Prop where
  disposition : r.disposition = r'.disposition
  proposals : r.proposals = r'.proposals
  findings : r.findings = r'.findings
  artifacts : r.artifacts = r'.artifacts
  steps : r.steps = r'.steps
  events : r.trace.events = r'.trace.events
  explanations : r.trace.explanations = r'.trace.explanations
  snapshotArtifacts : r.snapshot.artifacts = r'.snapshot.artifacts
  strategyVersions : r.snapshot.strategyVersions = r'.snapshot.strategyVersions

/-- Executions that leave the same store and both return the same error or both return `Ok`, with
    results that agree. -/
structure Execution.Alike (x x' : Execution D) : Prop where
  artifacts : x.ctx.artifacts = x'.ctx.artifacts
  error : ∀ e, x.result = .error e ↔ x'.result = .error e
  ok : ∀ r, x.result = .ok r → ∃ r', x'.result = .ok r' ∧ r.Alike r'

/-! ### What a visit contributes, from its label and output -/

/-- Two visits of equally labelled strategies with the same output. -/
def SameVisit (v v' : StrategyVisit D) : Prop := v.stage.label = v'.stage.label ∧ v.out = v'.out

section Label

variable {s s' : EvalStrategy D} (h : s.label = s'.label)

include h

theorem label_id : s.id = s'.id := (Prod.mk.inj h).1
theorem label_version : s.version = s'.version := (Prod.mk.inj (Prod.mk.inj h).2).1
theorem label_phase : s.phase = s'.phase := (Prod.mk.inj (Prod.mk.inj (Prod.mk.inj h).2).2).1

theorem stepOf_congr (out : Output D) : stepOf s out = stepOf s' out := by
  rw [stepOf, stepOf, label_id h, label_phase h]

theorem eventsOf_congr (out : Output D) : eventsOf s out = eventsOf s' out := by
  have hcontrol : ∀ control : Control D, controlEvents s control = controlEvents s' control := by
    intro control
    unfold controlEvents
    rw [label_id h, label_phase h]
  unfold eventsOf
  rw [label_id h, label_phase h]
  cases out with
  | error e => rfl
  | ok patch => simp only [hcontrol]

theorem explanationsOf_congr (out : Output D) : explanationsOf s out = explanationsOf s' out := by
  unfold explanationsOf controlExplanations
  rw [label_id h, label_phase h]

theorem failure_congr (failFast : Bool) (out : Output D) :
    failure failFast s out = failure failFast s' out := by
  unfold failure
  rw [label_id h]

end Label

/-! ### Runs with paired visits -/

section Visits

variable {vs vs' : List (StrategyVisit D)} (h : List.Forall₂ SameVisit vs vs')

include h

theorem map_sameVisit {γ : Type*} {f : StrategyVisit D → γ}
    (hf : ∀ v v', SameVisit v v' → f v = f v') : vs.map f = vs'.map f := by
  induction h with
  | nil => rfl
  | cons hv _ ih => rw [List.map_cons, List.map_cons, hf _ _ hv, ih]

theorem flatMap_sameVisit {γ : Type*} {f : StrategyVisit D → List γ}
    (hf : ∀ v v', SameVisit v v' → f v = f v') : vs.flatMap f = vs'.flatMap f := by
  rw [List.flatMap_def, List.flatMap_def, map_sameVisit h hf]

theorem findSome?_sameVisit {γ : Type*} {f : StrategyVisit D → Option γ}
    (hf : ∀ v v', SameVisit v v' → f v = f v') : vs.findSome? f = vs'.findSome? f := by
  induction h with
  | nil => rfl
  | cons hv _ ih => rw [List.findSome?_cons, List.findSome?_cons, hf _ _ hv, ih]

theorem patches_sameVisit : patches vs = patches vs' :=
  flatMap_sameVisit h (fun _ _ hv => by rw [hv.2])

theorem visitEvents_sameVisit (current : Option Phase) :
    visitEvents current vs = visitEvents current vs' := by
  induction h generalizing current with
  | nil => rfl
  | cons hv _ ih =>
    rw [visitEvents, visitEvents, ih, hv.2, eventsOf_congr hv.1, label_phase hv.1]

theorem lastPhase_sameVisit (current : Option Phase) :
    lastPhase current vs = lastPhase current vs' := by
  induction h generalizing current with
  | nil => rfl
  | cons hv _ ih =>
    simp only [lastPhase, List.foldl_cons] at ih ⊢
    rw [ih, label_phase hv.1]

end Visits

/-- Two runs with the same flags, input and constraints whose visits pair up. -/
structure SameRun (p : EvalPipeline D) (ctx : EvalContext D) (p' : EvalPipeline D)
    (ctx' : EvalContext D) : Prop where
  failFast : p.failFast = p'.failFast
  enforceConstraints : p.enforceConstraints = p'.enforceConstraints
  input : ctx.input = ctx'.input
  constraints : ctx.constraints = ctx'.constraints
  visits : List.Forall₂ SameVisit (p.visits ctx) (p'.visits ctx')

namespace SameRun

variable {p p' : EvalPipeline D} {ctx ctx' : EvalContext D} (h : SameRun p ctx p' ctx')

include h

theorem patches_eq : patches (p.visits ctx) = patches (p'.visits ctx') :=
  patches_sameVisit h.visits

theorem newArtifacts_eq : p.newArtifacts ctx = p'.newArtifacts ctx' := by
  rw [EvalPipeline.newArtifacts, EvalPipeline.newArtifacts, h.patches_eq]

theorem disposition_eq : p.disposition ctx = p'.disposition ctx' :=
  findSome?_sameVisit h.visits (fun _ _ hv => by rw [hv.2, label_phase hv.1])

theorem explanations_eq : p.explanations ctx = p'.explanations ctx' :=
  flatMap_sameVisit h.visits (fun _ _ hv => by rw [hv.2, explanationsOf_congr hv.1])

theorem versions_eq : p.versions ctx = p'.versions ctx' :=
  map_sameVisit h.visits (fun _ _ hv => by rw [label_id hv.1, label_version hv.1])

theorem steps_eq : (p.visits ctx).map (fun v => stepOf v.stage v.out) =
    (p'.visits ctx').map (fun v => stepOf v.stage v.out) :=
  map_sameVisit h.visits (fun _ _ hv => by rw [hv.2, stepOf_congr hv.1])

theorem events_eq : p.events ctx = p'.events ctx' := by
  unfold EvalPipeline.events EvalPipeline.outputEvents
  rw [visitEvents_sameVisit h.visits, lastPhase_sameVisit h.visits, h.disposition_eq,
    h.enforceConstraints]

theorem refusal_eq : p.refusal ctx = p'.refusal ctx' := by
  have hfail : (p.visits ctx).findSome? (fun v => failure p.failFast v.stage v.out) =
      (p'.visits ctx').findSome? (fun v => failure p'.failFast v.stage v.out) := by
    rw [h.failFast]
    exact findSome?_sameVisit h.visits (fun _ _ hv => by rw [hv.2, failure_congr hv.1])
  unfold EvalPipeline.refusal EvalPipeline.outputError
  rw [hfail, h.disposition_eq, h.enforceConstraints, h.constraints, h.input]

/-- The patch a sub-pipeline returns for its run. -/
theorem runPatch_eq : p.runPatch ctx = p'.runPatch ctx' := by
  unfold EvalPipeline.runPatch
  rw [h.newArtifacts_eq, h.patches_eq, h.explanations_eq, h.disposition_eq]

/-- The results of two runs from the same store. -/
theorem summary_alike (hstore : ctx.artifacts = ctx'.artifacts) :
    (p.summary ctx).Alike (p'.summary ctx') := by
  have htrace : (p.summary ctx).trace.events = (p'.summary ctx').trace.events := by
    have hpayloads : (p.summary ctx).trace.payloads = (p'.summary ctx').trace.payloads := by
      rw [EvalPipeline.summary_payloads, EvalPipeline.summary_payloads, h.events_eq]
    -- sequence numbers add nothing to the payloads of a gapless trace
    rw [(p.summary_gapless ctx).events_eq, (p'.summary_gapless ctx').events_eq, hpayloads]
  refine ⟨h.disposition_eq, ?_, ?_, ?_, h.steps_eq, htrace, ?_, ?_, h.versions_eq⟩
  · simp only [EvalPipeline.summary, h.patches_eq]
  · simp only [EvalPipeline.summary, h.patches_eq]
  · simp only [EvalPipeline.summary, h.newArtifacts_eq, hstore]
  · simp [EvalPipeline.summary, h.explanations_eq]
  · simp only [EvalPipeline.summary, Snapshot.capture, h.newArtifacts_eq, hstore]

/-- **Paired runs end alike.** -/
theorem execute_alike (hstore : ctx.artifacts = ctx'.artifacts) :
    (p.execute ctx).Alike (p'.execute ctx') where
  artifacts := by
    rw [EvalPipeline.execute_ctx, EvalPipeline.execute_ctx, EvalContext.merge_artifacts,
      EvalContext.merge_artifacts, h.newArtifacts_eq, hstore]
  error := EvalPipeline.execute_error_congr h.refusal_eq
  ok := by
    intro r hr
    obtain ⟨rfl, hr'⟩ := EvalPipeline.execute_ok_congr h.refusal_eq hr
    exact ⟨_, hr', h.summary_alike hstore⟩

end SameRun

/-- Sub-pipelines of the same name with paired runs return the same. -/
theorem SameRun.evaluate_eq {p p' : EvalPipeline D} {newV4 newV4' : Uuid} {ctx ctx' : EvalContext D}
    (h : SameRun p (EvalPipeline.childContext newV4 ctx) p' (EvalPipeline.childContext newV4' ctx'))
    (hname : p.name = p'.name) (caps caps' : CapabilitySet) :
    p.evaluate newV4 ctx caps = p'.evaluate newV4' ctx' caps' := by
  rw [EvalPipeline.evaluate_eq, EvalPipeline.evaluate_eq, h.refusal_eq, h.runPatch_eq]
  unfold EvalPipeline.runError
  rw [hname]

/-- **Lockstep.** The runs of two pipelines make paired visits if their strategies pair up by a
    relation `R` that keeps labels, and, wherever the first run evaluates one, its partner
    returns the same in contexts related by `S`. -/
theorem visits_sameRun {p p' : EvalPipeline D} {ctx ctx' : EvalContext D}
    (R : EvalStrategy D → EvalStrategy D → Prop) (S : EvalContext D → EvalContext D → Prop)
    (hlabel : ∀ s s', R s s' → s.label = s'.label)
    (hcommit : ∀ (out : Output D) c c', S c c' → S (Output.commit out c) (Output.commit out c'))
    (hfailFast : p.failFast = p'.failFast) (hinput : ctx.input = ctx'.input)
    (horder : List.Forall₂ R p.order p'.order) (hctx : S ctx ctx')
    (heval : ∀ v ∈ p.visits ctx, ∀ s' c', R v.stage s' → S v.seen c' →
      v.out = s'.evaluate c' p'.capabilities) :
    List.Forall₂ SameVisit (p.visits ctx) (p'.visits ctx') := by
  unfold EvalPipeline.visits at heval ⊢
  rw [← hinput]
  by_cases hok : (D.validateInput ctx.input).isOk
  · rw [if_pos hok] at heval
    rw [if_pos hok, if_pos hok]
    have hcommit' : ∀ (out out' : Output D) c c', out = out' → S c c' →
        S (Output.commit out c) (Output.commit out' c') := by
      rintro out _ c c' rfl hc
      exact hcommit out c c' hc
    have hstops : ∀ s s' (out out' : Output D), R s s' → out = out' →
        p.process.stops s out = p'.process.stops s' out' := by
      rintro s s' out _ hs rfl
      show stopping p.failFast s.phase out = stopping p'.failFast s'.phase out
      rw [hfailFast, label_phase (hlabel s s' hs)]
    have hlock := p.process.visits_lockstep p'.process R S Eq hcommit' hstops horder hctx heval
    exact hlock.imp (fun v v' hv => ⟨hlabel _ _ hv.1, hv.2.2⟩)
  · -- a rejected input makes no visits
    rw [if_neg hok, if_neg hok]
    exact List.Forall₂.nil

end DarqEval
