import DarqEval.Compose
import DarqEval.Reorder

namespace DarqEval

open Lib

/-!
# Inlining sub-pipelines

A sub-pipeline can be dissolved: its strategies registered in its parent in its place.

* `SameYield` — two lists of visits that contribute the same to a run but for their steps and
  events;
* `EvalResult.HandsUp` — a sub-pipeline's result of which the parent is handed all;
* `Inlined p q newV4 flat` — `flat` is `p` with `q` dissolved, `inlined_order` its order;
* `execute_inlined` — the two execute to the same outcome.
-/

variable {D : Decision}

/-! ### Runs that yield the same -/

/-- The visits contribute the same to a run, but for its steps, its events and its versions. -/
structure SameYield (failFast : Bool) (vs vs' : List (StrategyVisit D)) : Prop where
  artifacts : (patches vs).flatMap StrategyPatch.artifacts =
    (patches vs').flatMap StrategyPatch.artifacts
  findings : (patches vs).flatMap StrategyPatch.findings =
    (patches vs').flatMap StrategyPatch.findings
  proposals : (patches vs).flatMap StrategyPatch.proposals =
    (patches vs').flatMap StrategyPatch.proposals
  explanations : vs.flatMap (fun v => explanationsOf v.stage v.out) =
    vs'.flatMap (fun v => explanationsOf v.stage v.out)
  verdict : vs.findSome? (fun v => DarqEval.verdict v.stage.phase v.out) =
    vs'.findSome? (fun v => DarqEval.verdict v.stage.phase v.out)
  failure : vs.findSome? (fun v => DarqEval.failure failFast v.stage v.out) =
    vs'.findSome? (fun v => DarqEval.failure failFast v.stage v.out)

/-- Results that agree in all but the identifier, the steps, the events and the versions. -/
structure EvalResult.SameOutcome (r r' : EvalResult D) : Prop where
  disposition : r.disposition = r'.disposition
  artifacts : r.artifacts = r'.artifacts
  findings : r.findings = r'.findings
  proposals : r.proposals = r'.proposals
  explanations : r.trace.explanations = r'.trace.explanations
  snapshotArtifacts : r.snapshot.artifacts = r'.snapshot.artifacts

namespace SameYield

theorem of_sameVisit {failFast : Bool} {vs vs' : List (StrategyVisit D)}
    (h : List.Forall₂ SameVisit vs vs') : SameYield failFast vs vs' where
  artifacts := by rw [patches_sameVisit h]
  findings := by rw [patches_sameVisit h]
  proposals := by rw [patches_sameVisit h]
  explanations := flatMap_sameVisit h (fun _ _ hv => by rw [hv.2, explanationsOf_congr hv.1])
  verdict := findSome?_sameVisit h (fun _ _ hv => by rw [hv.2, label_phase hv.1])
  failure := findSome?_sameVisit h (fun _ _ hv => by rw [hv.2, failure_congr hv.1])

theorem append {failFast : Bool} {us us' vs vs' : List (StrategyVisit D)}
    (hu : SameYield failFast us us') (hv : SameYield failFast vs vs') :
    SameYield failFast (us ++ vs) (us' ++ vs') where
  artifacts := by
    simp only [patches, List.flatMap_append] at hu hv ⊢
    exact congrArg₂ _ hu.artifacts hv.artifacts
  findings := by
    simp only [patches, List.flatMap_append] at hu hv ⊢
    exact congrArg₂ _ hu.findings hv.findings
  proposals := by
    simp only [patches, List.flatMap_append] at hu hv ⊢
    exact congrArg₂ _ hu.proposals hv.proposals
  explanations := by
    rw [List.flatMap_append, List.flatMap_append, hu.explanations, hv.explanations]
  verdict := by
    rw [List.findSome?_append, List.findSome?_append, hu.verdict, hv.verdict]
  failure := by
    rw [List.findSome?_append, List.findSome?_append, hu.failure, hv.failure]

theorem refl {failFast : Bool} (vs : List (StrategyVisit D)) : SameYield failFast vs vs :=
  ⟨rfl, rfl, rfl, rfl, rfl, rfl⟩

theorem symm {failFast : Bool} {vs vs' : List (StrategyVisit D)} (h : SameYield failFast vs vs') :
    SameYield failFast vs' vs :=
  ⟨h.artifacts.symm, h.findings.symm, h.proposals.symm, h.explanations.symm, h.verdict.symm,
    h.failure.symm⟩

theorem trans {failFast : Bool} {us vs ws : List (StrategyVisit D)}
    (h : SameYield failFast us vs) (h' : SameYield failFast vs ws) : SameYield failFast us ws :=
  ⟨h.artifacts.trans h'.artifacts, h.findings.trans h'.findings, h.proposals.trans h'.proposals,
    h.explanations.trans h'.explanations, h.verdict.trans h'.verdict, h.failure.trans h'.failure⟩

section Execute

variable {p p' : EvalPipeline D} {ctx : EvalContext D} (hfailFast : p.failFast = p'.failFast)
  (henforce : p.enforceConstraints = p'.enforceConstraints)
  (h : SameYield p.failFast (p.visits ctx) (p'.visits ctx))

include hfailFast henforce h

theorem refusal_eq : p.refusal ctx = p'.refusal ctx := by
  unfold EvalPipeline.refusal EvalPipeline.outputError EvalPipeline.disposition
  rw [h.verdict, h.failure, hfailFast, henforce]

/-- Pipelines with the same flags whose runs yield the same execute to the same outcome. -/
theorem execute :
    (p.execute ctx).ctx = (p'.execute ctx).ctx ∧
      (∀ e, (p.execute ctx).result = .error e ↔ (p'.execute ctx).result = .error e) ∧
      ∀ r, (p.execute ctx).result = .ok r →
        ∃ r', (p'.execute ctx).result = .ok r' ∧ r.SameOutcome r' := by
  have hnew : p.newArtifacts ctx = p'.newArtifacts ctx := h.artifacts
  refine ⟨?_, EvalPipeline.execute_error_congr (h.refusal_eq hfailFast henforce), fun r hr => ?_⟩
  · rw [EvalPipeline.execute_ctx, EvalPipeline.execute_ctx, hnew]
  · obtain ⟨rfl, hr'⟩ := EvalPipeline.execute_ok_congr (h.refusal_eq hfailFast henforce) hr
    refine ⟨_, hr', h.verdict, ?_, h.findings, h.proposals, ?_, ?_⟩
    · simp only [EvalPipeline.summary, hnew]
    · rw [EvalPipeline.summary_explanations, EvalPipeline.summary_explanations]
      exact h.explanations
    · simp only [EvalPipeline.summary, Snapshot.capture, hnew]

end Execute

end SameYield

/-! ### The visit of a sub-pipeline and the visits inside it -/

/-- The sub-pipeline hands all of its result to its parent: no strategy halted it, and it reached
    a disposition only in the Decide phase. -/
def EvalResult.HandsUp (q : EvalPipeline D) (r : EvalResult D) : Prop :=
  (∀ step ∈ r.steps, ∀ reason, step.outcome ≠ .halted reason) ∧
    (r.disposition ≠ none → q.phase = .decide)

theorem halts_of_outcomeOf {phase : Phase} {out : Output D}
    (h : ∀ reason, outcomeOf phase out ≠ .halted reason) : halts out = false := by
  match out with
  | .error e => rfl
  | .ok ⟨_, _, _, _, control⟩ =>
    cases control with
    | halt reason => exact absurd rfl (h reason.message)
    | «continue» | finalize _ | escalate _ => rfl

/-- A visit that has no verdict, does not halt and returns no error does not stop the run. -/
theorem not_stopping_of_none {failFast : Bool} {s : EvalStrategy D} {out : Output D}
    (hverdict : verdict s.phase out = none) (hhalts : halts out = false)
    (hfailure : failure failFast s out = none) : stopping failFast s.phase out = false := by
  match out with
  | .error e => cases failFast <;> simp_all [failure, stopping]
  | .ok ⟨_, _, _, _, control⟩ => cases control <;> simp_all [stopping, verdict, halts]

section Inner

variable {q : EvalPipeline D} {newV4 : Uuid} {c : EvalContext D} {r : EvalResult D}
  (hr : (q.execute (EvalPipeline.childContext newV4 c)).result = .ok r) (hup : r.HandsUp q)

include hr hup

/-- What the parent is handed is what the visits inside contribute. -/
theorem sameYield_inner (caps : CapabilitySet) (later : List (EvalStrategy D)) :
    SameYield q.failFast [⟨q.toStrategy newV4, c, q.evaluate newV4 c caps, later⟩]
      (q.visits (EvalPipeline.childContext newV4 c)) := by
  obtain ⟨hrefusal, rfl⟩ := EvalPipeline.execute_eq_ok.mp hr
  have hinput := EvalPipeline.validateInput_of_refusal hrefusal
  have hout : q.evaluate newV4 c caps = .ok (q.runPatch (EvalPipeline.childContext newV4 c)) :=
    EvalPipeline.evaluate_eq_ok.mpr ⟨hrefusal, rfl⟩
  have hcontrol : ∀ disp, q.disposition (EvalPipeline.childContext newV4 c) = some disp →
      (q.toStrategy newV4).phase = .decide := by
    intro disp hdisp
    refine hup.2 (fun hnone => ?_)
    rw [show q.disposition _ = none from hnone] at hdisp
    cases hdisp
  rw [hout]
  refine ⟨?_, ?_, ?_, ?_, ?_, ?_⟩
  · simp [patches, EvalPipeline.runPatch, EvalPipeline.newArtifacts]
  · simp [patches, EvalPipeline.runPatch]
  · simp [patches, EvalPipeline.runPatch]
  · -- finalizing in the Decide phase adds no explanation of the parent's
    rw [List.flatMap_cons, List.flatMap_nil, List.append_nil]
    show q.explanations _ ++ controlExplanations (q.toStrategy newV4) (EvalPipeline.controlOf _) = _
    cases hdisp : q.disposition (EvalPipeline.childContext newV4 c) with
    | none => exact List.append_nil _
    | some disp =>
      rw [EvalPipeline.controlOf, controlExplanations, if_pos (hcontrol disp hdisp)]
      exact List.append_nil _
  · rw [List.findSome?_singleton]
    show verdict (q.toStrategy newV4).phase _ = q.disposition _
    cases hdisp : q.disposition (EvalPipeline.childContext newV4 c) with
    | none => simp [EvalPipeline.runPatch, hdisp, EvalPipeline.controlOf, verdict]
    | some disp =>
      simp [EvalPipeline.runPatch, hdisp, EvalPipeline.controlOf, verdict, hcontrol disp hdisp]
  · have hinner : (q.visits (EvalPipeline.childContext newV4 c)).findSome?
        (fun v => failure q.failFast v.stage v.out) = none := by
      unfold EvalPipeline.refusal at hrefusal
      rw [hinput] at hrefusal
      exact (Option.or_eq_none_iff.mp hrefusal).1
    rw [hinner]
    rfl

/-- The visit stops the parent exactly if a visit inside stops the sub-pipeline. -/
theorem stopping_inner (caps : CapabilitySet) :
    stopping q.failFast q.phase (q.evaluate newV4 c caps) =
      (q.visits (EvalPipeline.childContext newV4 c)).any q.stopsAt := by
  obtain ⟨hrefusal, rfl⟩ := EvalPipeline.execute_eq_ok.mp hr
  have hyield := sameYield_inner hr hup caps []
  have hout : q.evaluate newV4 c caps = .ok (q.runPatch (EvalPipeline.childContext newV4 c)) :=
    EvalPipeline.evaluate_eq_ok.mpr ⟨hrefusal, rfl⟩
  have hverdict := hyield.verdict
  rw [List.findSome?_singleton] at hverdict
  cases hdisp : q.disposition (EvalPipeline.childContext newV4 c) with
  | none =>
    have hany : (q.visits (EvalPipeline.childContext newV4 c)).any q.stopsAt = false := by
      rw [List.any_eq_false]
      intro v hv
      apply ne_true_of_eq_false
      have hnone : verdict v.stage.phase v.out = none :=
        List.findSome?_eq_none_iff.mp hdisp v hv
      have hfailure : failure q.failFast v.stage v.out = none := by
        have hall := hyield.failure.symm
        rw [hout] at hall
        exact List.findSome?_eq_none_iff.mp hall v hv
      have hhalts : halts v.out = false :=
        halts_of_outcomeOf (hup.1 (stepOf v.stage v.out) (List.mem_map_of_mem hv))
      exact not_stopping_of_none hnone hhalts hfailure
    rw [hany, hout]
    simp [stopping, EvalPipeline.runPatch, hdisp, EvalPipeline.controlOf]
  | some disp =>
    -- the disposition is the verdict of a visit, which stops
    obtain ⟨pre, v, hvisits, hv⟩ := EvalPipeline.exists_verdict_of_disposition hdisp
    have hany : (q.visits (EvalPipeline.childContext newV4 c)).any q.stopsAt = true := by
      rw [hvisits, List.any_append, List.any_cons]
      have hstop : q.stopsAt v = true := stopping_of_verdict hv
      rw [hstop, Bool.true_or, Bool.or_true]
    rw [hany]
    exact stopping_of_verdict (hverdict.trans hdisp)

end Inner

/-! ### Dissolving a sub-pipeline -/

/-- The pipeline `flat` has the strategies of `q` where `p` has `q` itself, with the flags and the
    capabilities of `p`.  Every other strategy stands on one side of all of them, as it does of
    `q`. -/
structure Inlined (p q : EvalPipeline D) (newV4 : Uuid) (flat : EvalPipeline D) : Prop where
  strategies : ∃ as bs, p.strategies = as ++ q.toStrategy newV4 :: bs ∧
    flat.strategies = as ++ q.strategies ++ bs ∧
    ∀ s ∈ as ++ bs,
      (s.sortKey < (q.toStrategy newV4).sortKey ∧ ∀ u ∈ q.strategies, s.sortKey < u.sortKey) ∨
      ((q.toStrategy newV4).sortKey < s.sortKey ∧ ∀ u ∈ q.strategies, u.sortKey < s.sortKey)
  capabilities : flat.capabilities = p.capabilities ∧ q.capabilities = p.capabilities
  failFast : flat.failFast = p.failFast ∧ q.failFast = p.failFast
  enforceConstraints : flat.enforceConstraints = p.enforceConstraints

/-- **The order of a dissolved sub-pipeline.** Its strategies run where it ran. -/
theorem inlined_order {p q flat : EvalPipeline D} {newV4 : Uuid} (h : Inlined p q newV4 flat) :
    ∃ hi, p.order = (p.before (q.toStrategy newV4).sortKey).order ++ q.toStrategy newV4 :: hi ∧
      flat.order = (p.before (q.toStrategy newV4).sortKey).order ++ (q.order ++ hi) := by
  obtain ⟨as, bs, hp, hflat, happart⟩ := h.strategies
  have hbefore : (p.before (q.toStrategy newV4).sortKey).order =
      sortBy EvalStrategy.sortKey
        ((as ++ bs).filter (fun s => s.sortKey < (q.toStrategy newV4).sortKey)) := by
    unfold EvalPipeline.order EvalPipeline.before
    rw [hp, List.filter_append, List.filter_append, List.filter_cons_of_neg (by simp)]
  have hown : ∀ s ∈ as ++ bs,
      (s.sortKey < (q.toStrategy newV4).sortKey ∧
        ∀ u ∈ [q.toStrategy newV4], s.sortKey < u.sortKey) ∨
      ((q.toStrategy newV4).sortKey < s.sortKey ∧
        ∀ u ∈ [q.toStrategy newV4], u.sortKey < s.sortKey) := by
    intro s hs
    simp only [List.mem_singleton, forall_eq]
    exact (happart s hs).imp (fun hlow => ⟨hlow.1, hlow.1⟩) (fun hhigh => ⟨hhigh.1, hhigh.1⟩)
  have hblock := sortBy_block hown
  rw [List.append_assoc, List.singleton_append] at hblock
  rw [hbefore]
  unfold EvalPipeline.order
  rw [hp, hflat]
  exact ⟨_, hblock, sortBy_block happart⟩

section Inlined

variable {p q flat : EvalPipeline D} {newV4 : Uuid} (h : Inlined p q newV4 flat)
  (hsteady : ∀ s ∈ q.strategies, s.Steady) {ctx : EvalContext D}

include h hsteady

/-- The strategies of the sub-pipeline make the same visits in its parent's context as in the
    child. -/
theorem sameVisit_inner {c : EvalContext D} (hinput : D.validateInput c.input = .ok ()) :
    List.Forall₂ SameVisit (p.process.visits q.order c)
      (q.visits (EvalPipeline.childContext newV4 c)) := by
  have hprocess : q.process = p.process :=
    EvalPipeline.process_congr h.capabilities.2 h.failFast.2
  have hchild : D.validateInput (EvalPipeline.childContext newV4 c).input = .ok () := hinput
  have hcommit : ∀ (out out' : Output D) c c', out = out' → SameReading c c' →
      SameReading (Output.commit out c) (Output.commit out' c') := by
    rintro out _ c c' rfl hc
    exact hc.commit out
  have hstops : ∀ s s' (out out' : Output D), s = s' → out = out' →
      p.process.stops s out = p.process.stops s' out' := by
    rintro s _ out _ rfl rfl
    rfl
  rw [visits_of_valid hchild, hprocess]
  refine List.Forall₂.imp (fun v v' hv => ⟨congrArg EvalStrategy.label hv.1, hv.2.2⟩)
    (p.process.visits_lockstep p.process Eq SameReading Eq hcommit hstops
      (List.forall₂_refl q.order) (show SameReading c _ from rfl) ?_)
  rintro v hv _ c' rfl hc
  rw [p.process.out_eq_of_mem hv]
  have hmem : v.stage ∈ q.strategies := mem_sortBy.mp (p.process.stage_mem_of_mem hv)
  exact hsteady v.stage hmem v.seen c' _ hc

omit hsteady in
/-- Paired visits stop alike. -/
theorem any_stopsAt_sameVisit {vs vs' : List (StrategyVisit D)}
    (hvs : List.Forall₂ SameVisit vs vs') : vs.any p.process.stopsAt = vs'.any q.stopsAt := by
  induction hvs with
  | nil => rfl
  | @cons v v' vs vs' hv _ ih =>
    have hstop : p.process.stopsAt v = q.stopsAt v' := by
      show stopping p.failFast v.stage.phase v.out = stopping q.failFast v'.stage.phase v'.out
      rw [hv.2, label_phase hv.1, h.failFast.2]
    rw [List.any_cons, List.any_cons, ih, hstop]

/-- From the sub-pipeline on, the two runs yield the same. -/
theorem sameYield_from {c : EvalContext D} {r : EvalResult D}
    (hr : (q.execute (EvalPipeline.childContext newV4 c)).result = .ok r) (hup : r.HandsUp q)
    (hi : List (EvalStrategy D)) :
    SameYield p.failFast (p.process.visits (q.toStrategy newV4 :: hi) c)
      (p.process.visits (q.order ++ hi) c) := by
  have hinput : D.validateInput (EvalPipeline.childContext newV4 c).input = .ok () :=
    EvalPipeline.validateInput_of_refusal (EvalPipeline.execute_eq_ok.mp hr).1
  have hsame := sameVisit_inner h hsteady (c := c) hinput
  have hyield := sameYield_inner hr hup p.capabilities hi
  rw [h.failFast.2] at hyield
  have hinner : SameYield p.failFast
      [⟨q.toStrategy newV4, c, q.evaluate newV4 c p.capabilities, hi⟩]
      ((p.process.visits q.order c).map (Visit.followedBy hi)) :=
    (hyield.trans (SameYield.of_sameVisit hsame).symm).trans
      (SameYield.of_sameVisit (sameVisit_followedBy hi _)).symm
  -- the sub-pipeline stops its parent exactly if its strategies do in its place
  have hstops : p.process.stops (q.toStrategy newV4) (q.evaluate newV4 c p.capabilities) =
      (p.process.visits q.order c).any p.process.stopsAt := by
    rw [any_stopsAt_sameVisit h hsame, ← stopping_inner hr hup p.capabilities, h.failFast.2]
    rfl
  have hcommit : p.process.commit (q.evaluate newV4 c p.capabilities) c =
      p.process.commitAll (p.process.visits q.order c) c := by
    have hartifacts := (hyield.trans (SameYield.of_sameVisit hsame).symm).artifacts
    rw [commitAll_eq, ← hartifacts]
    show Output.commit _ c = _
    rw [commit_eq, patches, List.flatMap_singleton]
  rw [Process.visits_append, Process.visits_cons, ← List.singleton_append]
  refine SameYield.append hinner ?_
  show SameYield _ (if p.process.stops _ (q.evaluate newV4 c p.capabilities) = true then []
    else p.process.visits hi (p.process.commit (q.evaluate newV4 c p.capabilities) c)) _
  rw [hstops, hcommit]
  exact SameYield.refl _

/-- The run of the dissolved pipeline yields what the run of its parent did. -/
theorem sameYield_inlined
    (hreached : ¬ (p.before (q.toStrategy newV4).sortKey).Stops ctx →
      ∃ r, (q.execute (EvalPipeline.childContext newV4
        ((p.before (q.toStrategy newV4).sortKey).execute ctx).ctx)).result = .ok r ∧
          r.HandsUp q) : SameYield p.failFast (p.visits ctx) (flat.visits ctx) := by
  rcases hinput : D.validateInput ctx.input with e | ⟨⟩
  · rw [visits_of_invalid hinput, visits_of_invalid hinput]
    exact SameYield.refl _
  obtain ⟨hi, hp, hflat⟩ := inlined_order h
  have hprocess : flat.process = p.process :=
    EvalPipeline.process_congr h.capabilities.1 h.failFast.1
  have hstops : flat.stopsAt = p.stopsAt := by
    funext v
    rw [EvalPipeline.stopsAt, EvalPipeline.stopsAt, h.failFast.1]
  have hvisits : p.process.visits (p.before (q.toStrategy newV4).sortKey).order ctx =
      (p.before (q.toStrategy newV4).sortKey).visits ctx := by
    rw [visits_of_valid hinput]
    rfl
  -- both runs begin with the visits in front of the sub-pipeline
  rw [visits_of_order hp hinput, visits_of_order hflat hinput, hprocess, hstops, hvisits]
  refine SameYield.append ?_ ?_
  · exact (SameYield.of_sameVisit (sameVisit_followedBy _ _)).trans
      (SameYield.of_sameVisit (sameVisit_followedBy _ _)).symm
  by_cases hany : ((p.before (q.toStrategy newV4).sortKey).visits ctx).any p.stopsAt = true
  · rw [if_pos hany, if_pos hany]
    exact SameYield.refl _
  · rw [if_neg hany, if_neg hany]
    have hgo : ¬ (p.before (q.toStrategy newV4).sortKey).Stops ctx := by
      rintro (⟨e, he⟩ | hstop)
      · rw [hinput] at he
        cases he
      · exact hany (List.any_eq_true.mpr hstop)
    obtain ⟨r, hr, hup⟩ := hreached hgo
    rw [← commitAll_visits hinput] at hr
    rw [← hvisits]
    exact sameYield_from h hsteady hr hup hi

/-- **Inlining.** If the sub-pipeline's strategies read neither identifier nor memo, and it returns
    `Ok` and hands up all of its result whenever its parent's run reaches it, its strategies can be
    registered in the parent in its place: the same error or the same outcome comes out, and the
    same context is left.  The parent's other sub-pipelines draw the same identifiers. -/
theorem execute_inlined
    (hreached : ¬ (p.before (q.toStrategy newV4).sortKey).Stops ctx →
      ∃ r, (q.execute (EvalPipeline.childContext newV4
        ((p.before (q.toStrategy newV4).sortKey).execute ctx).ctx)).result = .ok r ∧
          r.HandsUp q) :
    (p.execute ctx).ctx = (flat.execute ctx).ctx ∧
      (∀ e, (p.execute ctx).result = .error e ↔ (flat.execute ctx).result = .error e) ∧
      ∀ r, (p.execute ctx).result = .ok r →
        ∃ r', (flat.execute ctx).result = .ok r' ∧ r.SameOutcome r' :=
  SameYield.execute h.failFast.1.symm h.enforceConstraints.symm
    (sameYield_inlined h hsteady hreached)

end Inlined

namespace Sample

/-- A pipeline of one decider. -/
def deciding : EvalPipeline decision :=
  pipeline [leaf "decider" .decide (.finalize (.auto (2 : Nat)))]

/-- A decider behind an early strategy, in a sub-pipeline or not. -/
def nestedDeciding : EvalPipeline decision :=
  pipeline [leaf "early" .enrich .continue, deciding.toStrategy 0]

/-- The two strategies side by side. -/
def flatDeciding : EvalPipeline decision :=
  pipeline [leaf "early" .enrich .continue, leaf "decider" .decide (.finalize (.auto (2 : Nat)))]

theorem inlined_deciding : Inlined nestedDeciding deciding 0 flatDeciding where
  strategies := by
    refine ⟨[leaf "early" .enrich .continue], [], rfl, rfl, fun s hs => Or.inl ?_⟩
    obtain rfl := List.mem_singleton.mp hs
    have hphase : Phase.enrich < Phase.decide := by decide
    refine ⟨Prod.Lex.toLex_lt_toLex.mpr (Or.inl hphase), fun u hu => ?_⟩
    obtain rfl := List.mem_singleton.mp hu
    exact Prod.Lex.toLex_lt_toLex.mpr (Or.inl hphase)
  capabilities := ⟨rfl, rfl⟩
  failFast := ⟨rfl, rfl⟩
  enforceConstraints := rfl

end Sample

/-- The decider approves the same in its sub-pipeline as without it. -/
theorem execute_inlined_deciding :
    ∃ r', (Sample.flatDeciding.execute Sample.context).result = .ok r' ∧
      (Sample.nestedDeciding.summary Sample.context).SameOutcome r' := by
  have hsteady : ∀ s ∈ Sample.deciding.strategies, s.Steady := by
    intro s hs
    obtain rfl := List.mem_singleton.mp hs
    exact fun _ _ _ _ => rfl
  refine (execute_inlined Sample.inlined_deciding hsteady (fun _ => ⟨_, rfl, ?_, fun _ => rfl⟩)).2.2
    (Sample.nestedDeciding.summary Sample.context) rfl
  intro step hstep reason h
  obtain rfl := List.mem_singleton.mp hstep
  cases h

end DarqEval
