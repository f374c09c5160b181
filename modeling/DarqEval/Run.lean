import DarqEval.Visit

namespace DarqEval

open Lib

/-!
# What a run of one pipeline does

The abstract model of `execute`: a run is the list of visits its loop makes, and everything
`execute` returns is read off that list.

* `process p` — the sequential process of `p`: evaluate, merge, stop;
* `runStrategies_eq` — the loop absorbs the visits of the process;
* `visits p ctx` — the visits of a run, `visits_split` what is known at each of them;
* `disposition p ctx` — the verdict of the last visit (`disposition_of_split`);
* `refusal p ctx`, `summary p ctx` — the error or the result a run returns.
-/

variable {D : Decision}

/-! ### The loop absorbs the visits of the run -/

namespace EvalPipeline

/-- The sequential process a pipeline runs its strategies by. -/
def process (p : EvalPipeline D) : Process (EvalStrategy D) (EvalContext D) (Output D) where
  eval := fun s ctx => s.evaluate ctx p.capabilities
  commit := Output.commit
  stops := fun s out => stopping p.failFast s.phase out

end EvalPipeline

/-- The patches of a list of visits, in order. -/
def patches (vs : List (StrategyVisit D)) : List (StrategyPatch D) :=
  vs.flatMap (fun v => patchOf v.out)

/-- The events of a list of visits, with the phase transitions between them. -/
def visitEvents : Option Phase → List (StrategyVisit D) → List TraceEvent
  | _, [] => []
  | current, v :: vs =>
    transition current v.stage.phase ++ eventsOf v.stage v.out ++
      visitEvents (some v.stage.phase) vs

/-- The phase of the last of a list of visits, `current` if there is none. -/
def lastPhase (current : Option Phase) (vs : List (StrategyVisit D)) : Option Phase :=
  vs.foldl (fun _ v => some v.stage.phase) current

/-- The loop's locals after a list of visits. -/
def LoopState.absorbAll (st : LoopState D) (vs : List (StrategyVisit D)) : LoopState D where
  ctx := st.ctx.merge ((patches vs).flatMap StrategyPatch.artifacts)
  trace := (st.trace.recordAll (visitEvents st.currentPhase vs)).explainAll
    (vs.flatMap (fun v => explanationsOf v.stage v.out))
  steps := st.steps ++ vs.map (fun v => stepOf v.stage v.out)
  allFindings := st.allFindings ++ (patches vs).flatMap StrategyPatch.findings
  allProposals := st.allProposals ++ (patches vs).flatMap StrategyPatch.proposals
  disposition := vs.foldl (fun disp v => (verdict v.stage.phase v.out).or disp) st.disposition
  strategyVersions := st.strategyVersions ++
    vs.map (fun v => (v.stage.id, v.stage.version.toString))
  currentPhase := lastPhase st.currentPhase vs
  halted := vs.foldl (fun halted v => halts v.out || halted) st.halted

theorem absorbAll_nil (st : LoopState D) : st.absorbAll [] = st := by
  simp [LoopState.absorbAll, patches, visitEvents, lastPhase]

theorem absorbAll_cons (st : LoopState D) (v : StrategyVisit D) (vs : List (StrategyVisit D)) :
    st.absorbAll (v :: vs) = (st.absorb v.stage v.out).absorbAll vs := by
  simp only [LoopState.absorbAll, LoopState.absorb, patches, visitEvents, lastPhase, commit_eq,
    List.flatMap_cons, List.flatMap_append, List.map_cons, List.foldl_cons, List.append_assoc,
    List.singleton_append, EvalContext.merge_merge, TraceHandle.recordAll_append,
    TraceHandle.explainAll_append, TraceHandle.recordAll_explainAll]

/-- **Run lemma.** The loop absorbs the visits of the process, and returns the error of the
    visit that fails, if there is one. -/
theorem runStrategies_eq (p : EvalPipeline D) (ss : List (EvalStrategy D)) (st : LoopState D) :
    p.runStrategies ss st =
      (st.absorbAll (p.process.visits ss st.ctx),
        (p.process.visits ss st.ctx).findSome? (fun v => failure p.failFast v.stage v.out)) := by
  induction ss generalizing st with
  | nil => simp [EvalPipeline.runStrategies, absorbAll_nil]
  | cons s ss ih =>
    rw [EvalPipeline.runStrategies, runStrategy_eq, Process.visits_cons, absorbAll_cons]
    have hctx : (st.absorb s (s.evaluate st.ctx p.capabilities)).ctx =
        Output.commit (s.evaluate st.ctx p.capabilities) st.ctx := rfl
    simp only [EvalPipeline.process, Flow.ofOutput, List.findSome?_cons]
    -- the iteration fails, breaks, or goes on to the rest of the list
    cases hfail : failure p.failFast s (s.evaluate st.ctx p.capabilities) with
    | some e => simp only [stopping_of_failure hfail, if_true, absorbAll_nil]
    | none =>
      by_cases hstop : stopping p.failFast s.phase (s.evaluate st.ctx p.capabilities)
      · simp only [hstop, if_true, absorbAll_nil, List.findSome?_nil]
      · simp only [hstop, if_false, Bool.false_eq_true, ih, hctx]
        rfl

/-- The state after some visits is the context with their patches merged. -/
theorem commitAll_eq (p : EvalPipeline D) (vs : List (StrategyVisit D)) (ctx : EvalContext D) :
    p.process.commitAll vs ctx = ctx.merge ((patches vs).flatMap StrategyPatch.artifacts) := by
  induction vs generalizing ctx with
  | nil => simp [patches]
  | cons v vs ih =>
    rw [Process.commitAll_cons, ih]
    show (Output.commit v.out ctx).merge _ = _
    rw [commit_eq, EvalContext.merge_merge, patches, patches, List.flatMap_cons,
      List.flatMap_append]

/-! ### The run of a pipeline -/

namespace EvalPipeline

/-- The visits of a run; there are none if the input is rejected. -/
def visits (p : EvalPipeline D) (ctx : EvalContext D) : List (StrategyVisit D) :=
  if (D.validateInput ctx.input).isOk then p.process.visits p.order ctx else []

/-- The disposition a run reaches: the verdict of the one visit that has one. -/
def disposition (p : EvalPipeline D) (ctx : EvalContext D) : Option (DecisionDisposition D) :=
  (p.visits ctx).findSome? (fun v => verdict v.stage.phase v.out)

/-- The error of validating the output of an automatic disposition, if constraints are
    enforced. -/
def outputError (p : EvalPipeline D) (ctx : EvalContext D) :
    Option (DecisionDisposition D) → Option PipelineError
  | some (.auto output) =>
    if p.enforceConstraints then
      match D.validateOutput output ctx.constraints with
      | .error e => some (.outputValidation e)
      | .ok () => none
    else none
  | _ => none

/-- The error a run returns, if it returns one. -/
def refusal (p : EvalPipeline D) (ctx : EvalContext D) : Option PipelineError :=
  match D.validateInput ctx.input with
  | .error e => some (.inputValidation e)
  | .ok () =>
    ((p.visits ctx).findSome? (fun v => failure p.failFast v.stage v.out)).or
      (p.outputError ctx (p.disposition ctx))

/-- The artifacts a run adds to the store. -/
def newArtifacts (p : EvalPipeline D) (ctx : EvalContext D) : List Artifact :=
  (patches (p.visits ctx)).flatMap StrategyPatch.artifacts

/-- The event of a validated output. -/
def outputEvents (p : EvalPipeline D) : Option (DecisionDisposition D) → List TraceEvent
  | some (.auto _) => if p.enforceConstraints then [.outputValidated] else []
  | _ => []

/-- The events of a run that returns a result. -/
def events (p : EvalPipeline D) (ctx : EvalContext D) : List TraceEvent :=
  .inputValidated :: visitEvents none (p.visits ctx) ++
    transition.closing (lastPhase none (p.visits ctx)) ++ p.outputEvents (p.disposition ctx) ++
    [.pipelineCompleted]

/-- The explanations of a run that returns a result. -/
def explanations (p : EvalPipeline D) (ctx : EvalContext D) : List ExplanationNode :=
  (p.visits ctx).flatMap (fun v => explanationsOf v.stage v.out)

/-- The versions of the strategies a run evaluated. -/
def versions (p : EvalPipeline D) (ctx : EvalContext D) : List (String × String) :=
  (p.visits ctx).map (fun v => (v.stage.id, v.stage.version.toString))

/-- The result of a run that returns one. -/
def summary (p : EvalPipeline D) (ctx : EvalContext D) : EvalResult D where
  evalId := ctx.evalId
  pipeline := p.name
  disposition := p.disposition ctx
  proposals := (patches (p.visits ctx)).flatMap StrategyPatch.proposals
  findings := (patches (p.visits ctx)).flatMap StrategyPatch.findings
  artifacts := ctx.artifacts.appendAll (p.newArtifacts ctx)
  steps := (p.visits ctx).map (fun v => stepOf v.stage v.out)
  trace := ((TraceHandle.new ctx.evalId).recordAll (p.events ctx)).explainAll (p.explanations ctx)
  snapshot := Snapshot.capture D ctx.evalId ctx.mode .exact ctx.runMeta ctx.input ctx.constraints
    ctx.policy (ctx.artifacts.appendAll (p.newArtifacts ctx)) (p.versions ctx)

theorem summary_gapless (p : EvalPipeline D) (ctx : EvalContext D) :
    (p.summary ctx).trace.Gapless :=
  ((TraceHandle.gapless_new ctx.evalId).recordAll (p.events ctx)).explainAll (p.explanations ctx)

theorem summary_payloads (p : EvalPipeline D) (ctx : EvalContext D) :
    (p.summary ctx).trace.payloads = p.events ctx := by
  simp [summary]

theorem summary_explanations (p : EvalPipeline D) (ctx : EvalContext D) :
    (p.summary ctx).trace.explanations = p.explanations ctx := by
  simp [summary]

/-! ### The visits of a run -/

/-- What a run knows at each of its visits: the strategies around it, the context it saw, its
    output, and that no visit before it stopped the run. -/
theorem visits_split {p : EvalPipeline D} {ctx : EvalContext D}
    {pre post : List (StrategyVisit D)} {v : StrategyVisit D}
    (h : p.visits ctx = pre ++ v :: post) :
    p.order = pre.map Visit.stage ++ v.stage :: v.later ∧
      v.seen = p.process.commitAll pre ctx ∧
      v.out = v.stage.evaluate v.seen p.capabilities ∧
      (∀ u ∈ pre, stopping p.failFast u.stage.phase u.out = false) ∧
      post = if stopping p.failFast v.stage.phase v.out then []
        else p.process.visits v.later (Output.commit v.out v.seen) := by
  unfold visits at h
  by_cases hinput : (D.validateInput ctx.input).isOk
  · rw [if_pos hinput] at h
    exact p.process.visits_split h
  · rw [if_neg hinput] at h
    exact absurd h.symm (by simp)

/-- A visit of a run evaluates one of the strategies. -/
theorem visits_spec {p : EvalPipeline D} {ctx : EvalContext D} {v : StrategyVisit D}
    (h : v ∈ p.visits ctx) :
    v.stage ∈ p.strategies ∧ v.out = v.stage.evaluate v.seen p.capabilities := by
  obtain ⟨pre, post, heq⟩ := List.append_of_mem h
  obtain ⟨horder, -, hout, -⟩ := visits_split heq
  have hmem : v.stage ∈ p.order := by
    rw [horder]
    exact List.mem_append_cons_self
  exact ⟨mem_sortBy.mp hmem, hout⟩

/-- Only the last visit of a run stops it. -/
theorem visits_last {p : EvalPipeline D} {ctx : EvalContext D} {pre post : List (StrategyVisit D)}
    {v : StrategyVisit D} (h : p.visits ctx = pre ++ v :: post) (hpost : post ≠ []) :
    stopping p.failFast v.stage.phase v.out = false := by
  have hsplit := (visits_split h).2.2.2.2
  by_contra hstop
  rw [if_pos (eq_true_of_ne_false hstop)] at hsplit
  exact hpost hsplit

/-- A visit that stops the run is its last one. -/
theorem eq_concat_of_stopping {p : EvalPipeline D} {ctx : EvalContext D} {v : StrategyVisit D}
    (hv : v ∈ p.visits ctx) (hstop : stopping p.failFast v.stage.phase v.out = true) :
    ∃ pre, p.visits ctx = pre ++ [v] := by
  obtain ⟨pre, post, heq⟩ := List.append_of_mem hv
  have hpost : post = [] := by
    by_contra hne
    rw [visits_last heq hne] at hstop
    cases hstop
  exact ⟨pre, hpost ▸ heq⟩

theorem verdict_eq_none_of_not_stopping {failFast : Bool} {phase : Phase} {out : Output D}
    (h : stopping failFast phase out = false) : verdict phase out = none := by
  by_contra hne
  obtain ⟨disp, hdisp⟩ := Option.ne_none_iff_exists'.mp hne
  rw [stopping_of_verdict hdisp] at h
  cases h

/-- The disposition of a run is the verdict of its last visit. -/
theorem disposition_of_split {p : EvalPipeline D} {ctx : EvalContext D}
    {pre : List (StrategyVisit D)} {v : StrategyVisit D} (h : p.visits ctx = pre ++ [v]) :
    p.disposition ctx = verdict v.stage.phase v.out := by
  have hpre : pre.findSome? (fun v => verdict v.stage.phase v.out) = none := by
    rw [List.findSome?_eq_none_iff]
    exact fun u hu => verdict_eq_none_of_not_stopping ((visits_split h).2.2.2.1 u hu)
  rw [disposition, h, List.findSome?_append, hpre, Option.none_or, List.findSome?_singleton]

/-- A visit with a verdict is the last one, and decides on the disposition of the run. -/
theorem disposition_of_verdict {p : EvalPipeline D} {ctx : EvalContext D} {v : StrategyVisit D}
    (hv : v ∈ p.visits ctx) {disp : DecisionDisposition D}
    (hdisp : verdict v.stage.phase v.out = some disp) : p.disposition ctx = some disp := by
  obtain ⟨pre, heq⟩ := eq_concat_of_stopping hv (stopping_of_verdict hdisp)
  rw [disposition_of_split heq, hdisp]

/-- The disposition of a run is decided on by its last visit. -/
theorem exists_verdict_of_disposition {p : EvalPipeline D} {ctx : EvalContext D}
    {disp : DecisionDisposition D} (h : p.disposition ctx = some disp) :
    ∃ pre v, p.visits ctx = pre ++ [v] ∧ verdict v.stage.phase v.out = some disp := by
  obtain ⟨v, hv, hdisp⟩ := List.exists_of_findSome?_eq_some h
  obtain ⟨pre, heq⟩ := eq_concat_of_stopping hv (stopping_of_verdict hdisp)
  exact ⟨pre, v, heq, hdisp⟩

/-- If only the last element can have a value, the last value is the first one. -/
private theorem foldl_or_eq_findSome? {α β : Type*} {f : α → Option β} {l : List α}
    (h : ∀ pre a post, l = pre ++ a :: post → post ≠ [] → f a = none) (init : Option β) :
    l.foldl (fun acc a => (f a).or acc) init = (l.findSome? f).or init := by
  induction l generalizing init with
  | nil => rfl
  | cons a l ih =>
    have htail : ∀ pre b post, l = pre ++ b :: post → post ≠ [] → f b = none := by
      intro pre b post heq
      apply h (a :: pre) b post
      rw [heq]
      rfl
    have ih' := ih htail
    rw [List.foldl_cons, ih', List.findSome?_cons]
    cases hfa : f a with
    | none => rfl
    | some b =>
      -- an element with a value is the last one
      have hl : l = [] := by
        by_contra hne
        exact absurd (h [] a l rfl hne) (by simp [hfa])
      simp [hl]

/-- The loop's disposition is the run's. -/
theorem foldl_verdict_eq (p : EvalPipeline D) (ctx : EvalContext D) :
    (p.visits ctx).foldl (fun disp v => (verdict v.stage.phase v.out).or disp) none =
      p.disposition ctx := by
  rw [foldl_or_eq_findSome?, Option.or_none]
  · rfl
  · intro pre v post heq hpost
    exact verdict_eq_none_of_not_stopping (visits_last heq hpost)

/-- A halted run has no disposition. -/
theorem disposition_of_halted {p : EvalPipeline D} {ctx : EvalContext D} {v : StrategyVisit D}
    (hv : v ∈ p.visits ctx) (hhalt : halts v.out = true) : p.disposition ctx = none := by
  obtain ⟨pre, heq⟩ := eq_concat_of_stopping hv (stopping_of_halts hhalt)
  rw [disposition_of_split heq, verdict_of_halts hhalt]

end EvalPipeline

end DarqEval
