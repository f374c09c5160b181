import DarqEval.Positions

namespace DarqEval

open Lib

/-!
# Early finalizations

A `Finalize` outside the Decide phase is `Continue` with a note: the pipeline in which the
strategies of any set that run before Decide continue where they finalized makes the same run,
without the notes.

* `downgrade p chosen` — the pipeline in which the strategies at the chosen positions continue
  where they finalized;
* `indexedVisits_downgrade` — its run makes the same visits, with downgraded outputs;
* `visitBlocks` — the events of a run, strategy by strategy;
* `execute_downgrade` — what differs: the outcomes of the affected steps, and a note behind the
  events and one behind the explanations of each affected strategy.
-/

variable {D : Decision}

/-! ### The downgraded pipeline -/

/-- `Control::Continue` in place of a finalization. -/
def Control.downgraded : Control D → Control D
  | .finalize _ => .continue
  | control => control

/-- The same patch, continuing where it finalized. -/
def StrategyPatch.downgraded (patch : StrategyPatch D) : StrategyPatch D :=
  { patch with control := patch.control.downgraded }

/-- The output with a downgraded patch. -/
def Output.downgraded (out : Output D) : Output D := out.map StrategyPatch.downgraded

/-- The strategy that continues where `s` finalizes. -/
def EvalStrategy.downgraded (s : EvalStrategy D) : EvalStrategy D :=
  { s with evaluate := fun ctx caps => Output.downgraded (s.evaluate ctx caps) }

/-- The strategy at a position, downgraded if the position is chosen. -/
def downgradeAt (chosen : Nat → Bool) (x : EvalStrategy D × Nat) : EvalStrategy D :=
  if chosen x.2 then x.1.downgraded else x.1

/-- The output of the strategy at a position, downgraded if the position is chosen. -/
def outputAt (chosen : Nat → Bool) (x : EvalStrategy D × Nat) (out : Output D) : Output D :=
  if chosen x.2 then out.downgraded else out

/-- The pipeline in which the strategies at the chosen positions continue where they finalized. -/
def EvalPipeline.downgrade (p : EvalPipeline D) (chosen : Nat → Bool) : EvalPipeline D :=
  p.replace (downgradeAt chosen)

/-- The strategies at the chosen positions run before the Decide phase. -/
def EvalPipeline.Early (p : EvalPipeline D) (chosen : Nat → Bool) : Prop :=
  ∀ x ∈ p.strategies.zipIdx, chosen x.2 = true → x.1.phase ≠ .decide

/-! ### What a downgraded output contributes -/

/-- Whether the output finalizes, in whatever phase. -/
def Output.finalizes : Output D → Bool
  | .ok ⟨_, _, _, _, .finalize _⟩ => true
  | _ => false

/-- Whether a chosen strategy finalized. -/
def affected (chosen : Nat → Bool) (x : EvalStrategy D × Nat) (out : Output D) : Bool :=
  chosen x.2 && out.finalizes

/-- The event by which an affected visit differs. -/
def ignoredEvents (chosen : Nat → Bool) (x : EvalStrategy D × Nat) (out : Output D) :
    List TraceEvent :=
  if affected chosen x out then [.finalizeIgnored x.1.id x.1.phase.toString] else []

/-- The explanation by which an affected visit differs. -/
def ignoredExplanations (chosen : Nat → Bool) (x : EvalStrategy D × Nat) (out : Output D) :
    List ExplanationNode :=
  if affected chosen x out then
    [{ source := x.1.id
       kind := .invariantViolation
       detail := "Control::Finalize emitted in " ++ x.1.phase.toString ++
         " phase — downgraded to Continue"
       artifactRefs := []
       policyRefs := [] }]
  else []

@[simp] theorem downgradeAt_id (chosen : Nat → Bool) (x : EvalStrategy D × Nat) :
    (downgradeAt chosen x).id = x.1.id := by
  unfold downgradeAt
  split <;> rfl

@[simp] theorem downgradeAt_version (chosen : Nat → Bool) (x : EvalStrategy D × Nat) :
    (downgradeAt chosen x).version = x.1.version := by
  unfold downgradeAt
  split <;> rfl

@[simp] theorem downgradeAt_phase (chosen : Nat → Bool) (x : EvalStrategy D × Nat) :
    (downgradeAt chosen x).phase = x.1.phase := by
  unfold downgradeAt
  split <;> rfl

theorem downgradeAt_sortKey (chosen : Nat → Bool) (x : EvalStrategy D × Nat) :
    (downgradeAt chosen x).sortKey = x.1.sortKey := by
  unfold downgradeAt
  split <;> rfl

theorem downgradeAt_evaluate (chosen : Nat → Bool) (x : EvalStrategy D × Nat)
    (ctx : EvalContext D) (caps : CapabilitySet) :
    (downgradeAt chosen x).evaluate ctx caps = outputAt chosen x (x.1.evaluate ctx caps) := by
  unfold downgradeAt outputAt
  split <;> rfl

/-- The output of the strategy at a position finalized and now continues, or is as it was. -/
theorem outputAt_cases (chosen : Nat → Bool) (x : EvalStrategy D × Nat) (out : Output D) :
    (affected chosen x out = true ∧ chosen x.2 = true ∧ ∃ patch disp, out = .ok patch ∧
      patch.control = .finalize disp ∧
      outputAt chosen x out = .ok { patch with control := .continue }) ∨
    (affected chosen x out = false ∧ outputAt chosen x out = out) := by
  unfold affected outputAt
  cases hchosen : chosen x.2 with
  | false => exact Or.inr ⟨rfl, rfl⟩
  | true =>
    rw [if_pos rfl, Bool.true_and]
    match out with
    | .error e => exact Or.inr ⟨rfl, rfl⟩
    | .ok ⟨_, _, _, _, control⟩ =>
      cases control with
      | finalize disp => exact Or.inl ⟨rfl, rfl, _, disp, rfl, rfl, rfl⟩
      | _ => exact Or.inr ⟨rfl, rfl⟩

section Contribution

variable {chosen : Nat → Bool} {x : EvalStrategy D × Nat}

/-- A downgraded output commits the same artifacts. -/
theorem commit_outputAt (out : Output D) (ctx : EvalContext D) :
    Output.commit (outputAt chosen x out) ctx = Output.commit out ctx := by
  obtain ⟨-, -, patch, disp, rfl, hcontrol, hout⟩ | ⟨-, hout⟩ := outputAt_cases chosen x out
  · rw [hout]; rfl
  · rw [hout]

/-- Patches are downgraded in their control directive alone. -/
theorem patchOf_outputAt {γ : Type*} {f : StrategyPatch D → List γ}
    (hf : ∀ patch : StrategyPatch D, f { patch with control := .continue } = f patch)
    (out : Output D) :
    (patchOf (outputAt chosen x out)).flatMap f = (patchOf out).flatMap f := by
  obtain ⟨-, -, patch, disp, rfl, hcontrol, hout⟩ | ⟨-, hout⟩ := outputAt_cases chosen x out
  · rw [hout, patchOf_ok, patchOf_ok, List.flatMap_singleton, List.flatMap_singleton, hf]
  · rw [hout]

theorem failure_outputAt (failFast : Bool) (out : Output D) :
    failure failFast (downgradeAt chosen x) (outputAt chosen x out) =
      failure failFast x.1 out := by
  obtain ⟨-, -, patch, disp, rfl, hcontrol, hout⟩ | ⟨-, hout⟩ := outputAt_cases chosen x out
  · rw [hout]; rfl
  · rw [hout]
    unfold failure
    rw [downgradeAt_id]

/-- The step of a downgraded output reads `Continued` where the output finalized. -/
theorem stepOf_outputAt (out : Output D) :
    stepOf (downgradeAt chosen x) (outputAt chosen x out) =
      ⟨x.1.id, x.1.phase.toString,
        if affected chosen x out then .continued else outcomeOf x.1.phase out⟩ := by
  rw [stepOf, downgradeAt_id, downgradeAt_phase]
  obtain ⟨haffected, -, patch, disp, rfl, hcontrol, hout⟩ | ⟨haffected, hout⟩ :=
    outputAt_cases chosen x out
  · rw [hout, haffected]; rfl
  · rw [hout, haffected]; rfl

variable (hearly : chosen x.2 = true → x.1.phase ≠ .decide)

include hearly

/-- An early finalization stops no more than `Continue` does. -/
theorem stopping_outputAt (failFast : Bool) (out : Output D) :
    stopping failFast x.1.phase (outputAt chosen x out) = stopping failFast x.1.phase out := by
  obtain ⟨-, hchosen, patch, disp, rfl, hcontrol, hout⟩ | ⟨-, hout⟩ := outputAt_cases chosen x out
  · rw [hout]
    simp [stopping, hcontrol, hearly hchosen]
  · rw [hout]

theorem verdict_outputAt (out : Output D) :
    verdict x.1.phase (outputAt chosen x out) = verdict x.1.phase out := by
  obtain ⟨-, hchosen, patch, disp, rfl, hcontrol, hout⟩ | ⟨-, hout⟩ := outputAt_cases chosen x out
  · rw [hout]
    simp [verdict, hcontrol, hearly hchosen]
  · rw [hout]

theorem stepOf_of_early (out : Output D) :
    stepOf x.1 out = ⟨x.1.id, x.1.phase.toString,
      if affected chosen x out then .finalizeIgnored else outcomeOf x.1.phase out⟩ := by
  rw [stepOf]
  obtain ⟨haffected, hchosen, patch, disp, rfl, hcontrol, -⟩ | ⟨haffected, -⟩ :=
    outputAt_cases chosen x out
  · rw [haffected]
    simp [outcomeOf, hcontrol, hearly hchosen]
  · rw [haffected]; rfl

/-- **Events of an early finalization.** Those of the downgraded output, and the note. -/
theorem eventsOf_of_early (out : Output D) :
    eventsOf x.1 out = eventsOf (downgradeAt chosen x) (outputAt chosen x out) ++
      ignoredEvents chosen x out := by
  unfold ignoredEvents
  obtain ⟨haffected, hchosen, patch, disp, rfl, hcontrol, hout⟩ | ⟨haffected, hout⟩ :=
    outputAt_cases chosen x out
  · rw [hout, haffected]
    simp [eventsOf, controlEvents, hcontrol, hearly hchosen]
  · rw [hout, haffected]
    cases out <;> simp [eventsOf, controlEvents]

/-- **Explanations of an early finalization.** Those of the downgraded output, and the note. -/
theorem explanationsOf_of_early (out : Output D) :
    explanationsOf x.1 out = explanationsOf (downgradeAt chosen x) (outputAt chosen x out) ++
      ignoredExplanations chosen x out := by
  unfold ignoredExplanations
  obtain ⟨haffected, hchosen, patch, disp, rfl, hcontrol, hout⟩ | ⟨haffected, hout⟩ :=
    outputAt_cases chosen x out
  · rw [hout, haffected]
    simp [explanationsOf, controlExplanations, hcontrol, hearly hchosen]
  · rw [hout, haffected]
    cases out <;> simp [explanationsOf, controlExplanations]

end Contribution

/-! ### The run of the downgraded pipeline -/

/-- The visit of the downgraded pipeline in place of `v`. -/
def downgradeVisit (chosen : Nat → Bool) (v : IndexedVisit D) : IndexedVisit D :=
  v.rewrite (fun x => (downgradeAt chosen x, x.2)) (outputAt chosen)

section Run

variable {p : EvalPipeline D} {chosen : Nat → Bool} (hearly : p.Early chosen)
  (ctx : EvalContext D)

include hearly

theorem early_of_mem_indices {x : EvalStrategy D × Nat} (hx : x ∈ p.indices)
    (hchosen : chosen x.2 = true) : x.1.phase ≠ .decide :=
  hearly x ((sortBy_perm _ _).mem_iff.mp hx) hchosen

theorem early_of_mem_visits {v : IndexedVisit D} (hv : v ∈ p.indexedVisits ctx)
    (hchosen : chosen v.stage.2 = true) : v.stage.1.phase ≠ .decide := by
  unfold EvalPipeline.indexedVisits at hv
  split at hv
  · apply early_of_mem_indices hearly _ hchosen
    exact (p.process.comap Prod.fst).stage_mem_of_mem hv
  · cases hv

/-- **Run lemma.** The downgraded pipeline evaluates the same strategies, at the same positions,
    on the same contexts, and their outputs are downgraded. -/
theorem indexedVisits_downgrade :
    (p.downgrade chosen).indexedVisits ctx =
      (p.indexedVisits ctx).map (downgradeVisit chosen) := by
  have hindices : (p.downgrade chosen).indices =
      p.indices.map (fun x => (downgradeAt chosen x, x.2)) :=
    p.indices_replace (downgradeAt_sortKey chosen)
  unfold EvalPipeline.indexedVisits
  rw [hindices]
  by_cases hinput : (D.validateInput ctx.input).isOk
  · rw [if_pos hinput, if_pos hinput]
    apply Process.visits_rewrite
    · exact fun x out c => commit_outputAt out c
    · exact fun x _ c => downgradeAt_evaluate chosen x c p.capabilities
    · intro x hx out
      show stopping p.failFast (downgradeAt chosen x).phase (outputAt chosen x out) = _
      rw [downgradeAt_phase, stopping_outputAt (early_of_mem_indices hearly hx)]
      rfl
  · rw [if_neg hinput, if_neg hinput]; rfl

theorem visits_downgrade :
    (p.downgrade chosen).visits ctx =
      (p.indexedVisits ctx).map (fun v => (downgradeVisit chosen v).mapStage Prod.fst) := by
  rw [← EvalPipeline.indexedVisits_mapStage, indexedVisits_downgrade hearly, List.map_map]
  rfl

/-- What a visit contributes is the same in both runs, if it is for each downgraded output. -/
theorem map_downgrade {γ : Type*} {f : StrategyVisit D → γ}
    (hf : ∀ v : IndexedVisit D, (chosen v.stage.2 = true → v.stage.1.phase ≠ .decide) →
      f ((downgradeVisit chosen v).mapStage Prod.fst) = f (v.mapStage Prod.fst)) :
    ((p.downgrade chosen).visits ctx).map f = (p.visits ctx).map f := by
  rw [visits_downgrade hearly, ← EvalPipeline.indexedVisits_mapStage, List.map_map, List.map_map]
  exact List.map_congr_left (fun v hv => hf v (early_of_mem_visits hearly ctx hv))

theorem findSome?_downgrade {γ : Type*} {f : StrategyVisit D → Option γ}
    (hf : ∀ v : IndexedVisit D, (chosen v.stage.2 = true → v.stage.1.phase ≠ .decide) →
      f ((downgradeVisit chosen v).mapStage Prod.fst) = f (v.mapStage Prod.fst)) :
    ((p.downgrade chosen).visits ctx).findSome? f = (p.visits ctx).findSome? f := by
  have hmap := congrArg (List.findSome? id) (map_downgrade hearly ctx hf)
  rwa [List.findSome?_map, List.findSome?_map] at hmap

theorem patches_downgrade {γ : Type*} {f : StrategyPatch D → List γ}
    (hf : ∀ patch : StrategyPatch D, f { patch with control := .continue } = f patch) :
    (patches ((p.downgrade chosen).visits ctx)).flatMap f = (patches (p.visits ctx)).flatMap f := by
  rw [patches, patches, List.flatMap_assoc, List.flatMap_assoc, List.flatMap_def, List.flatMap_def]
  exact congrArg List.flatten (map_downgrade hearly ctx (fun v _ => patchOf_outputAt hf v.out))

theorem newArtifacts_downgrade : (p.downgrade chosen).newArtifacts ctx = p.newArtifacts ctx :=
  patches_downgrade hearly ctx (fun _ => rfl)

theorem disposition_downgrade : (p.downgrade chosen).disposition ctx = p.disposition ctx := by
  refine findSome?_downgrade hearly ctx (fun v hv => ?_)
  show verdict (downgradeAt chosen v.stage).phase (outputAt chosen v.stage v.out) = _
  rw [downgradeAt_phase, verdict_outputAt hv]
  rfl

theorem versions_downgrade : (p.downgrade chosen).versions ctx = p.versions ctx := by
  refine map_downgrade hearly ctx (fun v _ => ?_)
  show ((downgradeAt chosen v.stage).id, (downgradeAt chosen v.stage).version.toString) = _
  rw [downgradeAt_id, downgradeAt_version]
  rfl

theorem lastPhase_downgrade :
    lastPhase none ((p.downgrade chosen).visits ctx) = lastPhase none (p.visits ctx) := by
  have hphases : ((p.downgrade chosen).visits ctx).map (fun v => v.stage.phase) =
      (p.visits ctx).map (fun v => v.stage.phase) :=
    map_downgrade hearly ctx (fun v _ => downgradeAt_phase chosen v.stage)
  have hlast := congrArg (List.foldl (fun _ phase => some phase) (none : Option Phase)) hphases
  rwa [List.foldl_map, List.foldl_map] at hlast

theorem refusal_downgrade : (p.downgrade chosen).refusal ctx = p.refusal ctx := by
  have hfailure : ((p.downgrade chosen).visits ctx).findSome?
      (fun v => failure p.failFast v.stage v.out) =
        (p.visits ctx).findSome? (fun v => failure p.failFast v.stage v.out) :=
    findSome?_downgrade hearly ctx (fun v _ => failure_outputAt p.failFast v.out)
  have hflag : (p.downgrade chosen).failFast = p.failFast := rfl
  have houtput : (p.downgrade chosen).outputError ctx = p.outputError ctx := rfl
  unfold EvalPipeline.refusal
  rw [hflag, hfailure, houtput, disposition_downgrade hearly]

end Run

/-! ### Events, strategy by strategy -/

/-- The events of each of a list of visits: the phase transition in front of it, if there is one,
    and the strategy's own events. -/
def visitBlocks : Option Phase → List (StrategyVisit D) → List (List TraceEvent)
  | _, [] => []
  | current, v :: vs =>
    (transition current v.stage.phase ++ eventsOf v.stage v.out) ::
      visitBlocks (some v.stage.phase) vs

theorem visitEvents_eq_flatten (current : Option Phase) (vs : List (StrategyVisit D)) :
    visitEvents current vs = (visitBlocks current vs).flatten := by
  induction vs generalizing current with
  | nil => rfl
  | cons v vs ih => rw [visitEvents, visitBlocks, List.flatten_cons, ih]

/-- The events of visits are those of the downgraded visits, with the notes behind the blocks. -/
theorem visitEvents_of_early {chosen : Nat → Bool} (current : Option Phase)
    {vs : List (IndexedVisit D)}
    (hvs : ∀ v ∈ vs, chosen v.stage.2 = true → v.stage.1.phase ≠ .decide) :
    visitEvents current (vs.map (Visit.mapStage Prod.fst)) =
      (List.zipWith (· ++ ·)
        (visitBlocks current (vs.map (fun v => (downgradeVisit chosen v).mapStage Prod.fst)))
        (vs.map (fun v => ignoredEvents chosen v.stage v.out))).flatten := by
  induction vs generalizing current with
  | nil => rfl
  | cons v vs ih =>
    have hphase : ((downgradeVisit chosen v).mapStage Prod.fst).stage.phase = v.stage.1.phase :=
      downgradeAt_phase chosen v.stage
    rw [List.map_cons, List.map_cons, List.map_cons, visitEvents, visitBlocks,
      List.zipWith_cons_cons, List.flatten_cons, hphase]
    have htail := ih (some v.stage.1.phase) (fun u hu => hvs u (List.mem_cons_of_mem v hu))
    have hevents := eventsOf_of_early (hvs v List.mem_cons_self) v.out
    show transition current v.stage.1.phase ++ eventsOf v.stage.1 v.out ++
      visitEvents (some v.stage.1.phase) (vs.map (Visit.mapStage Prod.fst)) = _
    rw [htail, hevents, ← List.append_assoc]
    rfl

theorem explanations_of_early {chosen : Nat → Bool} {vs : List (IndexedVisit D)}
    (hvs : ∀ v ∈ vs, chosen v.stage.2 = true → v.stage.1.phase ≠ .decide) :
    (vs.map (Visit.mapStage Prod.fst)).flatMap (fun v => explanationsOf v.stage v.out) =
      (List.zipWith (· ++ ·)
        ((vs.map (fun v => (downgradeVisit chosen v).mapStage Prod.fst)).map
          (fun v => explanationsOf v.stage v.out))
        (vs.map (fun v => ignoredExplanations chosen v.stage v.out))).flatten := by
  induction vs with
  | nil => rfl
  | cons v vs ih =>
    have htail := ih (fun u hu => hvs u (List.mem_cons_of_mem v hu))
    have hexplanations := explanationsOf_of_early (hvs v List.mem_cons_self) v.out
    rw [List.map_cons, List.map_cons, List.map_cons, List.map_cons, List.zipWith_cons_cons,
      List.flatten_cons, List.flatMap_cons, htail]
    exact congrArg (· ++ _) hexplanations

/-! ### The executions -/

/-- How the result of a run and that of its downgraded run differ. -/
structure EvalResult.DiffersByNotes (p : EvalPipeline D) (chosen : Nat → Bool)
    (ctx : EvalContext D) (r r' : EvalResult D) : Prop where
  unchanged : r' = { r with steps := r'.steps, trace := r'.trace }
  ignoredSteps : r.steps = (p.indexedVisits ctx).map (fun v =>
    ⟨v.stage.1.id, v.stage.1.phase.toString,
      if affected chosen v.stage v.out then .finalizeIgnored
      else outcomeOf v.stage.1.phase v.out⟩)
  continuedSteps : r'.steps = (p.indexedVisits ctx).map (fun v =>
    ⟨v.stage.1.id, v.stage.1.phase.toString,
      if affected chosen v.stage v.out then .continued else outcomeOf v.stage.1.phase v.out⟩)
  -- the sequence numbers are consecutive in both traces
  gapless : r.trace.Gapless ∧ r'.trace.Gapless
  events : ∃ rest,
    r.trace.payloads = .inputValidated ::
      (List.zipWith (· ++ ·) (visitBlocks none ((p.downgrade chosen).visits ctx))
        ((p.indexedVisits ctx).map (fun v => ignoredEvents chosen v.stage v.out))).flatten ++
          rest ∧
    r'.trace.payloads =
      .inputValidated :: (visitBlocks none ((p.downgrade chosen).visits ctx)).flatten ++ rest
  explanations :
    r.trace.explanations = (List.zipWith (· ++ ·)
      (((p.downgrade chosen).visits ctx).map (fun v => explanationsOf v.stage v.out))
      ((p.indexedVisits ctx).map (fun v => ignoredExplanations chosen v.stage v.out))).flatten ∧
    r'.trace.explanations =
      (((p.downgrade chosen).visits ctx).map (fun v => explanationsOf v.stage v.out)).flatten

section Execute

variable {p : EvalPipeline D} {chosen : Nat → Bool} (hearly : p.Early chosen)
  (ctx : EvalContext D)

include hearly

/-- The results of the two runs. -/
theorem summary_differsByNotes :
    (p.summary ctx).DiffersByNotes p chosen ctx ((p.downgrade chosen).summary ctx) := by
  have hvs : ∀ v ∈ p.indexedVisits ctx, chosen v.stage.2 = true → v.stage.1.phase ≠ .decide :=
    fun v hv => early_of_mem_visits hearly ctx hv
  have hvisits := visits_downgrade hearly ctx
  have hfindings : (patches ((p.downgrade chosen).visits ctx)).flatMap StrategyPatch.findings =
      (patches (p.visits ctx)).flatMap StrategyPatch.findings :=
    patches_downgrade hearly ctx (fun _ => rfl)
  have hproposals : (patches ((p.downgrade chosen).visits ctx)).flatMap StrategyPatch.proposals =
      (patches (p.visits ctx)).flatMap StrategyPatch.proposals :=
    patches_downgrade hearly ctx (fun _ => rfl)
  refine ⟨?_, ?_, ?_, ⟨?_, ?_⟩, ?_, ?_⟩
  · unfold EvalPipeline.summary
    rw [newArtifacts_downgrade hearly, disposition_downgrade hearly, versions_downgrade hearly,
      hfindings, hproposals]
    rfl
  · show (p.visits ctx).map (fun v => stepOf v.stage v.out) = _
    rw [← EvalPipeline.indexedVisits_mapStage, List.map_map]
    exact List.map_congr_left (fun v hv => stepOf_of_early (hvs v hv) v.out)
  · show ((p.downgrade chosen).visits ctx).map (fun v => stepOf v.stage v.out) = _
    rw [hvisits, List.map_map]
    exact List.map_congr_left (fun v _ => stepOf_outputAt v.out)
  · exact p.summary_gapless ctx
  · exact (p.downgrade chosen).summary_gapless ctx
  · have houtput : (p.downgrade chosen).outputEvents = p.outputEvents := rfl
    refine ⟨transition.closing (lastPhase none (p.visits ctx)) ++
      p.outputEvents (p.disposition ctx) ++ [.pipelineCompleted], ?_, ?_⟩
    · rw [EvalPipeline.summary_payloads, EvalPipeline.events, hvisits,
        ← visitEvents_of_early none hvs, EvalPipeline.indexedVisits_mapStage]
      simp only [List.append_assoc, List.cons_append]
    · rw [EvalPipeline.summary_payloads, EvalPipeline.events, lastPhase_downgrade hearly,
        disposition_downgrade hearly, houtput, visitEvents_eq_flatten]
      simp only [List.append_assoc, List.cons_append]
  · constructor
    · rw [EvalPipeline.summary_explanations, EvalPipeline.explanations,
        ← EvalPipeline.indexedVisits_mapStage, explanations_of_early hvs, hvisits]
    · rw [EvalPipeline.summary_explanations, EvalPipeline.explanations, List.flatMap_def]

/-- **An early finalization is `Continue`.** For any set of strategies that run before Decide, the
    pipeline in which they continue where they finalized evaluates the same strategies on the
    same contexts, leaves the same store, returns the same error, or a result that differs by the
    notes on its affected steps alone. -/
theorem execute_downgrade :
    ((p.downgrade chosen).indexedVisits ctx).map (fun v => (v.stage.2, v.seen)) =
      (p.indexedVisits ctx).map (fun v => (v.stage.2, v.seen)) ∧
    ((p.downgrade chosen).execute ctx).ctx = (p.execute ctx).ctx ∧
    (∀ e, ((p.downgrade chosen).execute ctx).result = .error e ↔
      (p.execute ctx).result = .error e) ∧
    ∀ r, (p.execute ctx).result = .ok r →
      ∃ r', ((p.downgrade chosen).execute ctx).result = .ok r' ∧
        r.DiffersByNotes p chosen ctx r' := by
  have hrefusal := refusal_downgrade hearly ctx
  refine ⟨?_, ?_, EvalPipeline.execute_error_congr hrefusal, fun r hr => ?_⟩
  · rw [indexedVisits_downgrade hearly, List.map_map]
    rfl
  · rw [EvalPipeline.execute_ctx, EvalPipeline.execute_ctx, newArtifacts_downgrade hearly]
  · obtain ⟨rfl, hr'⟩ := EvalPipeline.execute_ok_congr hrefusal.symm hr
    exact ⟨_, hr', summary_differsByNotes hearly ctx⟩

end Execute

/-- Two early finalizers of different phases in front of a decider. -/
def Sample.hasty : EvalPipeline Sample.decision :=
  Sample.pipeline
    [Sample.leaf "decider" .decide (.finalize (.auto (2 : Nat))),
      Sample.leaf "early" .evaluate (.finalize (.auto (9 : Nat))),
      Sample.leaf "earlier" .enrich (.finalize (.deny []))]

/-- With both finalizers downgraded the decider still approves, and their steps continue. -/
theorem execute_downgrade_hasty :
    ∃ r', ((Sample.hasty.downgrade (· ≠ 0)).execute Sample.context).result = .ok r' ∧
      r'.disposition = some (.auto (2 : Nat)) ∧
      r'.steps = [⟨"earlier", "Enrich", .continued⟩, ⟨"early", "Evaluate", .continued⟩,
        ⟨"decider", "Decide", .finalized⟩] := by
  have hearly : Sample.hasty.Early (· ≠ 0) := by
    intro x hx hchosen
    rcases List.mem_cons.mp hx with rfl | hx
    · cases hchosen
    rcases List.mem_cons.mp hx with rfl | hx
    · exact fun h => nomatch h
    · obtain rfl := List.mem_singleton.mp hx
      exact fun h => nomatch h
  have hr : (Sample.hasty.execute Sample.context).result =
      .ok (Sample.hasty.summary Sample.context) :=
    EvalPipeline.execute_eq_ok.mpr ⟨rfl, rfl⟩
  obtain ⟨r', hr', hdiffers⟩ := (execute_downgrade hearly Sample.context).2.2.2 _ hr
  refine ⟨r', hr', ?_, hdiffers.continuedSteps⟩
  rw [hdiffers.unchanged]
  rfl

end DarqEval
