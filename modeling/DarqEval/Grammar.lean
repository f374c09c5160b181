import DarqEval.Execute
import Mathlib.Algebra.GroupWithZero.Nat

namespace DarqEval

open Lib

/-!
# The grammar of traces

The loop of `execute` emits its events piecemeal: a phase is opened when the first strategy of
another phase comes up, and closed when the next one does or behind the loop.  Since the
strategies are sorted, the result is bracketed:

* `bracket` — the events of one phase: `PhaseStarted`, the blocks of its strategies in turn,
  `PhaseCompleted`;
* `visitEvents_bracketed` — the events of visits with non-decreasing phases are the brackets of
  their groups of equal phase;
* `execute_trace` — the grammar of the trace of a run that returns a result.
-/

variable {D : Decision}

/-- The events of a group of visits of one phase. -/
def bracket (group : Phase × List (StrategyVisit D)) : List TraceEvent :=
  .phaseStarted group.1.toString :: group.2.flatMap (fun v => eventsOf v.stage v.out) ++
    [.phaseCompleted group.1.toString]

/-- The maximal groups of consecutive visits of equal phase: together they are the visits,
    none is empty, each has its phase, and the phases increase. -/
structure Grouped (vs : List (StrategyVisit D))
    (groups : List (Phase × List (StrategyVisit D))) : Prop where
  flatten : vs = groups.flatMap Prod.snd
  nonempty : ∀ g ∈ groups, g.2 ≠ []
  phase : ∀ g ∈ groups, ∀ v ∈ g.2, v.stage.phase = g.1
  increasing : (groups.map Prod.fst).Pairwise (· < ·)

/-- The visits left in the current phase `q` close it, and the visits behind them are bracketed
    by their phases, all later than `q`. -/
private theorem visitEvents_some (q : Phase) (vs : List (StrategyVisit D))
    (hq : ∀ v ∈ vs, q ≤ v.stage.phase)
    (hvs : (vs.map (fun v => v.stage.phase)).Pairwise (· ≤ ·)) :
    ∃ first groups, vs = first ++ groups.flatMap Prod.snd ∧
      (∀ v ∈ first, v.stage.phase = q) ∧
      Grouped (groups.flatMap Prod.snd) groups ∧ (∀ g ∈ groups, q < g.1) ∧
      visitEvents (some q) vs ++ transition.closing (lastPhase (some q) vs) =
        first.flatMap (fun v => eventsOf v.stage v.out) ++ [.phaseCompleted q.toString] ++
          groups.flatMap bracket := by
  induction vs generalizing q with
  | nil =>
    refine ⟨[], [], rfl, by simp, ⟨rfl, by simp, by simp, List.Pairwise.nil⟩, by simp, ?_⟩
    simp [visitEvents, lastPhase, transition.closing]
  | cons v vs ih =>
    rw [List.map_cons, List.pairwise_cons] at hvs
    have hv : ∀ u ∈ vs, v.stage.phase ≤ u.stage.phase :=
      fun u hu => hvs.1 _ (List.mem_map_of_mem hu)
    obtain ⟨first, groups, heq, hfirst, hgroups, hlt, hevents⟩ := ih v.stage.phase hv hvs.2
    have hlast : lastPhase (some q) (v :: vs) = lastPhase (some v.stage.phase) vs := rfl
    rcases eq_or_lt_of_le (hq v List.mem_cons_self) with hphase | hphase
    · -- the phase goes on: the visit joins the open bracket
      refine ⟨v :: first, groups, by rw [heq]; rfl, ?_, hgroups, hphase ▸ hlt, ?_⟩
      · intro u hu
        rcases List.mem_cons.mp hu with rfl | hu
        · exact hphase.symm
        · rw [hphase]; exact hfirst u hu
      · rw [hlast, visitEvents, hphase]
        simp only [transition, if_true, List.nil_append, List.flatMap_cons, List.append_assoc]
        rw [hevents]
        simp only [List.append_assoc]
    · -- another phase starts: the open bracket is closed and the visit opens the next one
      have hne : (some q) ≠ some v.stage.phase := fun h => hphase.ne (Option.some.inj h)
      refine ⟨[], (v.stage.phase, v :: first) :: groups, ?_, by simp, ?_, ?_, ?_⟩
      · rw [heq]; rfl
      · refine ⟨rfl, ?_, ?_, ?_⟩
        · intro g hg
          rcases List.mem_cons.mp hg with rfl | hg
          · exact List.cons_ne_nil _ _
          · exact hgroups.nonempty g hg
        · intro g hg u hu
          rcases List.mem_cons.mp hg with rfl | hg
          · rcases List.mem_cons.mp hu with rfl | hu
            · rfl
            · exact hfirst u hu
          · exact hgroups.phase g hg u hu
        · rw [List.map_cons, List.pairwise_cons]
          refine ⟨fun b hb => ?_, hgroups.increasing⟩
          obtain ⟨g, hg, rfl⟩ := List.mem_map.mp hb
          exact hlt g hg
      · intro g hg
        rcases List.mem_cons.mp hg with rfl | hg
        · exact hphase
        · exact hphase.trans (hlt g hg)
      · rw [hlast, visitEvents]
        simp only [transition, hne, if_false, transition.closing, List.append_assoc,
          List.flatMap_cons, bracket, List.flatMap_nil, List.nil_append] at hevents ⊢
        rw [hevents]
        simp

/-- **Bracketing.** The events of visits with non-decreasing phases, closed behind the last
    one, are the brackets of their groups of equal phase. -/
theorem visitEvents_bracketed (vs : List (StrategyVisit D))
    (hvs : (vs.map (fun v => v.stage.phase)).Pairwise (· ≤ ·)) :
    ∃ groups, Grouped vs groups ∧
      visitEvents none vs ++ transition.closing (lastPhase none vs) = groups.flatMap bracket := by
  cases vs with
  | nil => exact ⟨[], ⟨rfl, by simp, by simp, List.Pairwise.nil⟩, rfl⟩
  | cons v vs =>
    rw [List.map_cons, List.pairwise_cons] at hvs
    obtain ⟨first, groups, heq, hfirst, hgroups, hlt, hevents⟩ := visitEvents_some v.stage.phase vs
      (fun u hu => hvs.1 _ (List.mem_map_of_mem hu)) hvs.2
    refine ⟨(v.stage.phase, v :: first) :: groups, ⟨by rw [heq]; rfl, ?_, ?_, ?_⟩, ?_⟩
    · intro g hg
      rcases List.mem_cons.mp hg with rfl | hg
      · exact List.cons_ne_nil _ _
      · exact hgroups.nonempty g hg
    · intro g hg u hu
      rcases List.mem_cons.mp hg with rfl | hg
      · rcases List.mem_cons.mp hu with rfl | hu
        · rfl
        · exact hfirst u hu
      · exact hgroups.phase g hg u hu
    · rw [List.map_cons, List.pairwise_cons]
      refine ⟨fun b hb => ?_, hgroups.increasing⟩
      obtain ⟨g, hg, rfl⟩ := List.mem_map.mp hb
      exact hlt g hg
    · have hlast : lastPhase none (v :: vs) = lastPhase (some v.stage.phase) vs := rfl
      rw [hlast, visitEvents]
      simp only [transition, reduceCtorEq, if_false, transition.closing, List.append_assoc,
        List.nil_append, List.flatMap_cons, bracket] at hevents ⊢
      rw [hevents]
      simp

/-! ### The phases of a run -/

theorem phase_le_of_sortKey_le {s t : EvalStrategy D} (h : s.sortKey ≤ t.sortKey) :
    s.phase ≤ t.phase := by
  rcases Prod.Lex.toLex_le_toLex.mp h with hlt | ⟨heq, _⟩
  · exact hlt.le
  · exact heq.le

/-- The phases of a run never decrease. -/
theorem visits_phase_pairwise (p : EvalPipeline D) (ctx : EvalContext D) :
    ((p.visits ctx).map (fun v => v.stage.phase)).Pairwise (· ≤ ·) := by
  unfold EvalPipeline.visits
  split
  · have hprefix := (p.process.visits_stage_isPrefix p.order ctx).map EvalStrategy.phase
    rw [List.map_map] at hprefix
    refine List.Pairwise.sublist hprefix.sublist (List.pairwise_map.mpr ?_)
    exact (sortBy_pairwise EvalStrategy.sortKey p.strategies).imp phase_le_of_sortKey_le
  · exact List.Pairwise.nil

/-! ### The growth of the store -/

/-- The number of artifacts an event reports merged. -/
def mergedCount : TraceEvent → Nat
  | .patchMerged _ n => n
  | _ => 0

theorem sum_mergedCount_closing (current : Option Phase) :
    ((transition.closing current).map mergedCount).sum = 0 := by
  cases current <;> rfl

theorem sum_mergedCount_transition (current : Option Phase) (phase : Phase) :
    ((transition current phase).map mergedCount).sum = 0 := by
  unfold transition
  split
  · rfl
  · rw [List.map_append, List.sum_append, sum_mergedCount_closing]; rfl

theorem sum_mergedCount_eventsOf (s : EvalStrategy D) (out : Output D) :
    ((eventsOf s out).map mergedCount).sum =
      ((patchOf out).flatMap StrategyPatch.artifacts).length := by
  match out with
  | .error e => rfl
  | .ok ⟨_, _, _, _, control⟩ =>
    cases control
    case finalize => by_cases h : s.phase = .decide <;> simp [eventsOf, controlEvents, mergedCount, h]
    all_goals simp [eventsOf, controlEvents, mergedCount]

/-- The counts of the visits' events add up to their artifacts. -/
theorem sum_mergedCount_visitEvents (current : Option Phase) (vs : List (StrategyVisit D)) :
    ((visitEvents current vs).map mergedCount).sum =
      ((patches vs).flatMap StrategyPatch.artifacts).length := by
  induction vs generalizing current with
  | nil => rfl
  | cons v vs ih =>
    rw [visitEvents, List.map_append, List.map_append, List.sum_append, List.sum_append, ih,
      sum_mergedCount_transition, sum_mergedCount_eventsOf]
    simp [patches, List.flatMap_append]

/-! ### The grammar -/

/-- The grammar of the trace of a run of `p` on `ctx` that returned `r`. -/
structure TraceGrammar (p : EvalPipeline D) (ctx : EvalContext D) (r : EvalResult D) : Prop where
  /-- The events are bracketed phase by phase, in increasing order of the phases. -/
  bracketed : ∃ groups, Grouped (p.visits ctx) groups ∧
    r.trace.payloads = .inputValidated :: groups.flatMap bracket ++
      p.outputEvents r.disposition ++ [.pipelineCompleted]
  /-- A block that finalizes the decision is the last one. -/
  finalized_last : ∀ pre v post, p.visits ctx = pre ++ v :: post →
    ∀ id, .decisionFinalized id ∈ eventsOf v.stage v.out → post = []
  /-- The blocks correspond to the steps, one for one. -/
  steps : r.steps = (p.visits ctx).map (fun v => stepOf v.stage v.out)
  /-- The blocks correspond to the recorded versions, one for one. -/
  versions : r.snapshot.strategyVersions =
    (p.visits ctx).map (fun v => (v.stage.id, v.stage.version.toString))
  /-- The reported counts add up to the growth of the store. -/
  growth : ctx.artifacts.len + (r.trace.payloads.map mergedCount).sum = r.artifacts.len
  /-- Event number `i` carries sequence number `i`. -/
  seq : ∀ (i : Nat) (e : TimestampedEvent), r.trace.events[i]? = some e → e.seq = i

theorem not_finalized_of_not_stopping {failFast : Bool} {s : EvalStrategy D} {out : Output D}
    {id : String} (h : .decisionFinalized id ∈ eventsOf s out) :
    stopping failFast s.phase out = true := by
  match out with
  | .error e => simp [eventsOf] at h
  | .ok ⟨_, _, _, _, control⟩ =>
    cases control
    case finalize =>
      by_cases hphase : s.phase = .decide
      · simp [stopping, hphase]
      · simp [eventsOf, controlEvents, hphase] at h
    all_goals simp [eventsOf, controlEvents] at h

/-- **Trace grammar.** The trace of every run that returns a result obeys the grammar. -/
theorem execute_trace {p : EvalPipeline D} {ctx : EvalContext D} {r : EvalResult D}
    (hr : (p.execute ctx).result = .ok r) : TraceGrammar p ctx r := by
  obtain ⟨_, rfl⟩ := EvalPipeline.execute_eq_ok.mp hr
  have hpayloads := p.summary_payloads ctx
  have hgapless := p.summary_gapless ctx
  refine ⟨?_, ?_, rfl, rfl, ?_, ?_⟩
  · obtain ⟨groups, hgroups, hevents⟩ :=
      visitEvents_bracketed (p.visits ctx) (visits_phase_pairwise p ctx)
    refine ⟨groups, hgroups, ?_⟩
    rw [hpayloads, EvalPipeline.events, List.cons_append, hevents]
    rfl
  · -- a visit with another one behind it did not stop the run
    intro pre v post heq id hid
    by_contra hpost
    have hstop := EvalPipeline.visits_last heq hpost
    rw [not_finalized_of_not_stopping hid] at hstop
    cases hstop
  · -- only the blocks of the visits report merged artifacts
    have houtput : ((p.outputEvents (p.disposition ctx)).map mergedCount).sum = 0 := by
      unfold EvalPipeline.outputEvents
      split
      · split <;> rfl
      · rfl
    rw [hpayloads, EvalPipeline.events]
    simp only [List.map_append, List.map_cons, List.sum_append, List.sum_cons,
      sum_mergedCount_visitEvents, sum_mergedCount_closing, houtput]
    simp [EvalPipeline.summary, EvalPipeline.newArtifacts, ArtifactStore.len, mergedCount]
  · intro i e he
    have hseq := congrArg (fun l => l[i]?) hgapless.seq
    simp only [List.getElem?_map, he, Option.map_some] at hseq
    obtain ⟨hi, _⟩ := List.getElem?_eq_some_iff.mp he
    rw [List.getElem?_range hi] at hseq
    exact Option.some.inj hseq

/-- A run with an ignored finalization in front of the decider, and its events. -/
theorem execute_trace_ignored :
    let p := Sample.pipeline [Sample.leaf "decider" .decide (.finalize (.auto (2 : Nat))),
      Sample.leaf "early" .evaluate (.finalize (.auto (9 : Nat)))]
    ∃ r, (p.execute Sample.context).result = .ok r ∧ TraceGrammar p Sample.context r ∧
      r.trace.payloads = [.inputValidated,
        .phaseStarted "Evaluate",
        .strategyStarted "early" "Evaluate", .strategyCompleted "early" "Evaluate",
        .patchMerged "early" 0, .finalizeIgnored "early" "Evaluate",
        .phaseCompleted "Evaluate",
        .phaseStarted "Decide",
        .strategyStarted "decider" "Decide", .strategyCompleted "decider" "Decide",
        .patchMerged "decider" 0, .decisionFinalized "decider",
        .phaseCompleted "Decide",
        .outputValidated,
        .pipelineCompleted] := by
  refine ⟨_, EvalPipeline.execute_eq_ok.mpr ⟨rfl, rfl⟩,
    execute_trace (EvalPipeline.execute_eq_ok.mpr ⟨rfl, rfl⟩), ?_⟩
  rw [EvalPipeline.summary_payloads]
  rfl

end DarqEval
