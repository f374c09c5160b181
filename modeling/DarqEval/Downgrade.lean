import DarqEval.Nesting

namespace DarqEval

open Lib

/-!
# Escalations and decisions that nesting drops

A sub-pipeline whose computed phase is not Decide has the disposition of its run ignored by its
parent, also when a Decide leaf finalized it or a leaf of any phase escalated.

* `EscalationKept`, `escalationKept_iff` — escalations reach the root, and exactly when;
* `DecisionKept`, `decisionKept_iff` — decisions of Decide leaves do, and exactly when.
-/

variable {D : Decision}

/-! ### Escalations -/

/-- The leaf returned `Ok` with an escalation for the given reason. -/
def LeafRun.escalates (ℓ : LeafRun D) (reason : ReviewReason) : Prop :=
  ∃ patch, ℓ.visit.out = .ok patch ∧ patch.control = .escalate reason

/-- The leaf decides in its own pipeline on a review for the given reason, among others. -/
def LeafRun.reviews (ℓ : LeafRun D) (reason : ReviewReason) : Prop :=
  ∃ provisional reasons, ℓ.verdict = some (.review provisional reasons) ∧ reason ∈ reasons

/-- Every escalation of a committed leaf, at whatever depth, reaches the disposition of a run
    that returns `Ok`. -/
def EscalationKept (t : PipelineTree D) (ctx : EvalContext D) : Prop :=
  ∀ r, (t.execute ctx).result = .ok r → ∀ ℓ ∈ t.leaves ctx, ∀ reason,
    ℓ.committed = true → ℓ.escalates reason →
      ∃ provisional reasons, r.disposition = some (.review provisional reasons) ∧
        reason ∈ reasons

theorem LeafRun.escalates.verdict_eq {ℓ : LeafRun D} {reason : ReviewReason}
    (h : ℓ.escalates reason) : ℓ.verdict = some (.review none [reason]) := by
  obtain ⟨patch, hout, hcontrol⟩ := h
  exact verdict_eq_some.mpr ⟨patch, hout, Or.inr ⟨reason, hcontrol, rfl⟩⟩

theorem LeafRun.isOk_of_committed {ℓ : LeafRun D} (h : ℓ.committed = true) :
    ∀ e ∈ ℓ.path, e.visit.out.isOk = true := by
  unfold LeafRun.committed at h
  have hpath := (Bool.and_eq_true_iff.mp h).2
  rwa [List.all_eq_true] at hpath

theorem LeafRun.carried_of_committed {ℓ : LeafRun D} (hcommitted : ℓ.committed = true)
    (hphase : ∀ e ∈ ℓ.path, e.pipeline.phase = .decide) : ℓ.carried :=
  fun e he => ⟨LeafRun.isOk_of_committed hcommitted e he, hphase e he⟩

/-- **When escalations survive nesting.** Exactly when every escalating leaf is inside Decide
    sub-pipelines only, or a review for the same reason is decided on inside such ones. -/
theorem escalationKept_iff (t : PipelineTree D) (ctx : EvalContext D) :
    EscalationKept t ctx ↔ ∀ r, (t.execute ctx).result = .ok r → ∀ ℓ ∈ t.leaves ctx, ∀ reason,
      ℓ.committed = true → ℓ.escalates reason →
        (∀ e ∈ ℓ.path, e.pipeline.phase = .decide) ∨
          ∃ ℓ' ∈ t.leaves ctx, ℓ'.carried ∧ ℓ'.reviews reason := by
  constructor
  · intro hkept r hr ℓ hℓ reason hcommitted hesc
    obtain ⟨provisional, reasons, hdisp, hmem⟩ := hkept r hr ℓ hℓ reason hcommitted hesc
    obtain ⟨_, rfl⟩ := EvalPipeline.execute_eq_ok.mp hr
    obtain ⟨ℓ', hℓ', hcarried, hverdict⟩ := exists_mem_carried hdisp []
    exact Or.inr ⟨ℓ', hℓ', hcarried, provisional, reasons, hverdict, hmem⟩
  · intro hcond r hr ℓ hℓ reason hcommitted hesc
    have hcond := hcond r hr ℓ hℓ reason hcommitted hesc
    obtain ⟨_, rfl⟩ := EvalPipeline.execute_eq_ok.mp hr
    rcases hcond with hphase | ⟨ℓ', hℓ', hcarried, provisional, reasons, hverdict, hmem⟩
    · have hcarried : ℓ.carried := LeafRun.carried_of_committed hcommitted hphase
      exact ⟨none, [reason], disposition_of_carried hℓ hcarried hesc.verdict_eq,
        List.mem_singleton_self reason⟩
    · exact ⟨provisional, reasons, disposition_of_carried hℓ' hcarried hverdict, hmem⟩

/-- A check that escalates inside an Enrich sub-pipeline, in front of a decider. -/
def Sample.lostEscalation : PipelineTree Sample.decision :=
  Sample.tree
    [Sample.sub "checks" [.leaf (Sample.leaf "check" .enrich (.escalate ⟨"limit", "over limit"⟩))],
      .leaf (Sample.leaf "decider" .decide (.finalize (.auto (2 : Nat))))]

/-- The escalation is ignored, and the run approves. -/
theorem escalationKept_lost : ¬ EscalationKept Sample.lostEscalation Sample.context := by
  intro hkept
  obtain ⟨provisional, reasons, hdisp, -⟩ :=
    hkept _ (EvalPipeline.execute_eq_ok.mpr ⟨rfl, rfl⟩) _ List.mem_cons_self ⟨"limit", "over limit"⟩
      rfl ⟨_, rfl, rfl⟩
  have happroved : (Sample.lostEscalation.pipeline.summary Sample.context).disposition =
      some (.auto (2 : Nat)) := rfl
  rw [happroved] at hdisp
  cases hdisp

/-! ### Decisions of the Decide phase -/

/-- The leaf returned `Ok` with the given disposition finalized. -/
def LeafRun.finalizes (ℓ : LeafRun D) (disp : DecisionDisposition D) : Prop :=
  ∃ patch, ℓ.visit.out = .ok patch ∧ patch.control = .finalize disp

/-- The leaf decides: it finalized in the Decide phase, or escalated in any phase. -/
def LeafRun.decides (ℓ : LeafRun D) : Prop :=
  (ℓ.visit.stage.phase = .decide ∧ ∃ disp, ℓ.finalizes disp) ∨ ∃ reason, ℓ.escalates reason

/-- The sub-pipelines around the leaf are in the Decide phase, as far out as they all return
    `Ok`. -/
def LeafRun.passes (ℓ : LeafRun D) : Prop :=
  ∀ outer e inner, ℓ.path = outer ++ e :: inner →
    (∀ x ∈ e :: inner, x.visit.out.isOk = true) → e.pipeline.phase = .decide

/-- An ignored finalization is recorded for the evaluation, as its step or as an event. -/
def RunRecord.ignored (r : RunRecord D) : Prop :=
  (stepOf r.visit.stage r.visit.out).outcome = .finalizeIgnored ∨
    ∃ id phase, .finalizeIgnored id phase ∈ eventsOf r.visit.stage r.visit.out

/-- In a run that returns `Ok`, every disposition a committed Decide leaf finalizes is the
    root's, and an ignored finalization is recorded, at any level, only for a leaf that
    finalized outside the Decide phase. -/
def DecisionKept (t : PipelineTree D) (ctx : EvalContext D) : Prop :=
  ∀ r, (t.execute ctx).result = .ok r →
    (∀ ℓ ∈ t.leaves ctx, ∀ disp, ℓ.visit.stage.phase = .decide → ℓ.committed = true →
      ℓ.finalizes disp → r.disposition = some disp) ∧
    ∀ rec ∈ RunRecord.allOf (t.records ctx), rec.ignored →
      ∃ v patch disp, rec = .leaf v ∧ v.stage.phase ≠ .decide ∧ v.out = .ok patch ∧
        patch.control = .finalize disp

theorem LeafRun.decides_iff {ℓ : LeafRun D} : ℓ.decides ↔ ∃ disp, ℓ.verdict = some disp := by
  constructor
  · rintro (⟨hphase, disp, patch, hout, hcontrol⟩ | ⟨reason, hesc⟩)
    · exact ⟨disp, verdict_eq_some.mpr ⟨patch, hout, Or.inl ⟨hcontrol, hphase⟩⟩⟩
    · exact ⟨_, hesc.verdict_eq⟩
  · rintro ⟨disp, hverdict⟩
    obtain ⟨patch, hout, ⟨hcontrol, hphase⟩ | ⟨reason, hcontrol, -⟩⟩ := verdict_eq_some.mp hverdict
    · exact Or.inl ⟨hphase, disp, patch, hout, hcontrol⟩
    · exact Or.inr ⟨reason, patch, hout, hcontrol⟩

/-- A committed leaf whose decision passes is carried to the root. -/
theorem LeafRun.carried_of_passes {ℓ : LeafRun D} (hcommitted : ℓ.committed = true)
    (hpasses : ℓ.passes) : ℓ.carried := by
  refine LeafRun.carried_of_committed hcommitted (fun e he => ?_)
  obtain ⟨outer, inner, hpath⟩ := List.append_of_mem he
  apply hpasses outer e inner hpath
  intro x hx
  have hx' : x ∈ ℓ.path := by
    rw [hpath]
    exact List.mem_append_right outer hx
  exact LeafRun.isOk_of_committed hcommitted x hx'

theorem RunRecord.ignored_iff {r : RunRecord D} :
    r.ignored ↔ r.visit.stage.phase ≠ .decide ∧
      ∃ patch disp, r.visit.out = .ok patch ∧ patch.control = .finalize disp := by
  unfold RunRecord.ignored
  match hout : r.visit.out with
  | .error e => simp [stepOf, outcomeOf, eventsOf]
  | .ok ⟨_, _, _, _, control⟩ =>
    cases control with
    | «continue» => simp [stepOf, outcomeOf, eventsOf, controlEvents]
    | escalate reason => simp [stepOf, outcomeOf, eventsOf, controlEvents]
    | halt reason => simp [stepOf, outcomeOf, eventsOf, controlEvents]
    | finalize disp =>
      by_cases hphase : r.visit.stage.phase = .decide
      · simp [stepOf, outcomeOf, eventsOf, controlEvents, hphase]
      · simp [stepOf, outcomeOf, eventsOf, controlEvents, hphase]

/-- A sub-pipeline that returns `Ok` finalizes the disposition of its run, if it has one. -/
theorem evaluate_finalizes {p : EvalPipeline D} {newV4 : Uuid} {ctx : EvalContext D}
    {caps : CapabilitySet} {patch : StrategyPatch D}
    (h : p.evaluate newV4 ctx caps = .ok patch) {disp : DecisionDisposition D} :
    patch.control = .finalize disp ↔
      p.disposition (EvalPipeline.childContext newV4 ctx) = some disp := by
  obtain ⟨-, rfl⟩ := EvalPipeline.evaluate_eq_ok.mp h
  rw [EvalPipeline.runPatch]
  cases p.disposition (EvalPipeline.childContext newV4 ctx) with
  | none => simp [EvalPipeline.controlOf]
  | some d => simp [EvalPipeline.controlOf]

/-- A list with an element that fails `q` has a last one. -/
private theorem exists_last_not {α : Type*} {q : α → Prop} {l : List α} (h : ∃ a ∈ l, ¬ q a) :
    ∃ pre a post, l = pre ++ a :: post ∧ ¬ q a ∧ ∀ b ∈ post, q b := by
  induction l with
  | nil =>
    obtain ⟨a, ha, -⟩ := h
    exact absurd ha List.not_mem_nil
  | cons x l ih =>
    by_cases hl : ∃ a ∈ l, ¬ q a
    · obtain ⟨pre, a, post, heq, ha, hpost⟩ := ih hl
      exact ⟨x :: pre, a, post, by rw [heq]; rfl, ha, hpost⟩
    · have hall : ∀ b ∈ l, q b := by
        intro b hb
        by_contra hqb
        exact hl ⟨b, hb, hqb⟩
      obtain ⟨a, ha, hqa⟩ := h
      rcases List.mem_cons.mp ha with rfl | ha
      · exact ⟨[], a, l, rfl, hqa, hall⟩
      · exact absurd (hall a ha) hqa

/-- If a leaf's decision gets through Decide sub-pipelines to one in another phase, the parent
    of that one ignores a finalization. -/
private theorem ignored_of_path {t : PipelineTree D} {ctx : EvalContext D} {ℓ : LeafRun D}
    {outer inner : List (SubRun D)} {e : SubRun D} (hℓ : ℓ ∈ t.leaves ctx)
    {disp : DecisionDisposition D} (hverdict : ℓ.verdict = some disp)
    (hpath : ℓ.path = outer ++ e :: inner) (hok : e.visit.out.isOk = true)
    (hphase : e.pipeline.phase ≠ .decide)
    (hinner : ∀ x ∈ inner, x.visit.out.isOk = true ∧ x.pipeline.phase = .decide) :
    ∃ records, .sub e.visit e.pipeline records e.later ∈ RunRecord.allOf (t.records ctx) ∧
      (RunRecord.sub e.visit e.pipeline records e.later).ignored := by
  obtain ⟨records, before', hmem, ℓ', hℓ', hvisit, hrest⟩ :=
    RunRecord.mem_allOf_of_leaf _ [] ℓ outer hℓ hpath
  refine ⟨records, hmem, ?_⟩
  obtain ⟨newV4, t', hp, rfl, hstage, hout⟩ := PipelineTree.sub_of_mem_allOf hmem
  have hcarried : ℓ'.carried := by
    intro x hx
    exact hinner x (hrest ▸ hx)
  have hverdict' : ℓ'.verdict = some disp := by
    rw [← hverdict, LeafRun.verdict, LeafRun.verdict, hvisit]
  have hdisp := disposition_of_carried hℓ' hcarried hverdict'
  have hstagePhase : e.visit.stage.phase ≠ .decide := by
    rw [hstage]
    show t'.pipeline.phase ≠ .decide
    rw [← hp]
    exact hphase
  apply RunRecord.ignored_iff.mpr
  refine ⟨hstagePhase, ?_⟩
  show ∃ patch disp, e.visit.out = .ok patch ∧ patch.control = .finalize disp
  cases hpatch : e.visit.out with
  | error err => rw [hpatch] at hok; cases hok
  | ok patch =>
    rw [hpatch] at hout
    exact ⟨patch, disp, rfl, (evaluate_finalizes hout.symm).mpr hdisp⟩

/-- An ignored finalization of a sub-pipeline hands on the decision of a leaf inside it. -/
private theorem exists_path_of_ignored {t : PipelineTree D} {ctx : EvalContext D}
    {visit : StrategyVisit D} {pipeline : EvalPipeline D} {records : List (RunRecord D)}
    {later : List (Tree D)}
    (hmem : .sub visit pipeline records later ∈ RunRecord.allOf (t.records ctx))
    (hignored : (RunRecord.sub visit pipeline records later).ignored) :
    pipeline.phase ≠ .decide ∧ visit.out.isOk = true ∧ ∃ ℓ ∈ t.leaves ctx, ∃ disp outer inner,
      ℓ.verdict = some disp ∧ ℓ.path = outer ++ ⟨visit, pipeline, later⟩ :: inner ∧
      ∀ x ∈ inner, x.visit.out.isOk = true := by
  obtain ⟨newV4, t', rfl, rfl, hstage, hout⟩ := PipelineTree.sub_of_mem_allOf hmem
  obtain ⟨hphase, patch, disp, hpatch, hcontrol⟩ := RunRecord.ignored_iff.mp hignored
  rw [RunRecord.visit] at hphase hpatch
  rw [hstage] at hphase
  rw [hout] at hpatch
  obtain ⟨before', hleaf⟩ := RunRecord.leaf_of_mem_allOf _ hmem []
  obtain ⟨ℓ, hℓ, hcarried, hverdict⟩ :=
    exists_mem_carried ((evaluate_finalizes hpatch).mp hcontrol) before'
  obtain ⟨ℓ', hℓ', outer, hvisit, hpath⟩ := hleaf ℓ hℓ
  have hok : visit.out.isOk = true := by
    rw [hout, hpatch]
    rfl
  have hverdict' : ℓ'.verdict = some disp := by
    rw [← hverdict, LeafRun.verdict, LeafRun.verdict, hvisit]
  have hinner : ∀ x ∈ ℓ.path, x.visit.out.isOk = true := fun x hx => (hcarried x hx).1
  exact ⟨hphase, hok, ℓ', hℓ', disp, outer, ℓ.path, hverdict', hpath, hinner⟩

/-- **When decisions survive nesting.** Exactly when the decision of every leaf passes: the
    sub-pipelines around it are in the Decide phase, as far out as they return `Ok`. -/
theorem decisionKept_iff (t : PipelineTree D) (ctx : EvalContext D) :
    DecisionKept t ctx ↔ ∀ r, (t.execute ctx).result = .ok r → ∀ ℓ ∈ t.leaves ctx,
      ℓ.decides → ℓ.passes := by
  constructor
  · intro hkept r hr ℓ hℓ hdecides outer e inner hpath hok
    by_contra hphase
    obtain ⟨disp, hverdict⟩ := LeafRun.decides_iff.mp hdecides
    -- the innermost sub-pipeline outside the Decide phase is the one whose parent ignores it
    obtain ⟨pre, e', post, heq, hphase', hpost⟩ :=
      exists_last_not (q := fun x : SubRun D => x.pipeline.phase = .decide)
        ⟨e, List.mem_cons_self, hphase⟩
    have hpath' : ℓ.path = (outer ++ pre) ++ e' :: post := by
      rw [hpath, heq, List.append_assoc]
    have hok' : ∀ x ∈ e' :: post, x.visit.out.isOk = true := by
      intro x hx
      apply hok x
      rw [heq]
      exact List.mem_append_right pre hx
    have hinner : ∀ x ∈ post, x.visit.out.isOk = true ∧ x.pipeline.phase = .decide := by
      intro x hx
      exact ⟨hok' x (List.mem_cons_of_mem e' hx), hpost x hx⟩
    obtain ⟨records, hrec, hignored⟩ := ignored_of_path hℓ hverdict hpath'
      (hok' e' List.mem_cons_self) hphase' hinner
    obtain ⟨v, patch, disp', hleaf, -⟩ := (hkept r hr).2 _ hrec hignored
    cases hleaf
  · intro hcond r hr
    have hpasses := hcond r hr
    obtain ⟨-, rfl⟩ := EvalPipeline.execute_eq_ok.mp hr
    refine ⟨?_, ?_⟩
    · intro ℓ hℓ disp hphase hcommitted hfinalizes
      have hcarried : ℓ.carried :=
        LeafRun.carried_of_passes hcommitted (hpasses ℓ hℓ (Or.inl ⟨hphase, disp, hfinalizes⟩))
      obtain ⟨patch, hout, hcontrol⟩ := hfinalizes
      have hverdict : ℓ.verdict = some disp :=
        verdict_eq_some.mpr ⟨patch, hout, Or.inl ⟨hcontrol, hphase⟩⟩
      exact disposition_of_carried hℓ hcarried hverdict
    · intro rec hrec hignored
      cases rec with
      | leaf v =>
        obtain ⟨hphase, patch, disp, hout, hcontrol⟩ := RunRecord.ignored_iff.mp hignored
        exact ⟨v, patch, disp, rfl, hphase, hout, hcontrol⟩
      | sub visit pipeline records later =>
        -- the decision of a leaf got here, so this sub-pipeline is in the Decide phase
        obtain ⟨hphase, hok, ℓ, hℓ, disp, outer, inner, hverdict, hpath, hinner⟩ :=
          exists_path_of_ignored hrec hignored
        have hdecides : ℓ.decides := LeafRun.decides_iff.mpr ⟨disp, hverdict⟩
        have hpathOk : ∀ x ∈ ⟨visit, pipeline, later⟩ :: inner, x.visit.out.isOk = true := by
          intro x hx
          rcases List.mem_cons.mp hx with rfl | hx
          · exact hok
          · exact hinner x hx
        exact absurd (hpasses ℓ hℓ hdecides outer _ inner hpath hpathOk) hphase

/-- A sub-pipeline that checks and decides, in front of nothing. -/
def Sample.droppedDecision : PipelineTree Sample.decision :=
  Sample.tree
    [Sample.sub "inner"
      [.leaf (Sample.leaf "check" .enrich .continue),
        .leaf (Sample.leaf "decider" .decide (.finalize (.auto (2 : Nat))))]]

/-- The decision is dropped, and the run ends without one. -/
theorem decisionKept_dropped : ¬ DecisionKept Sample.droppedDecision Sample.context := by
  intro hkept
  have hdisp := (hkept _ (EvalPipeline.execute_eq_ok.mpr ⟨rfl, rfl⟩)).1 _
    (List.mem_cons_of_mem _ List.mem_cons_self) (.auto (2 : Nat)) rfl rfl ⟨_, rfl, rfl⟩
  have hnone : (Sample.droppedDecision.pipeline.summary Sample.context).disposition = none := rfl
  rw [hnone] at hdisp
  cases hdisp

end DarqEval
