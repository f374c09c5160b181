import DarqEval.Alike
import DarqEval.Merge
import DarqEval.Outcome

namespace DarqEval

open Lib

/-!
# Pipelines in stages

A pipeline whose strategies fall into two groups, one behind the other in the order of execution,
is two pipelines executed one after the other on one context.

* `Chained p q pq` — `pq` runs the strategies of `p` and then those of `q`;
* `visits_chained` — its run is that of `p` and, unless it stops, that of `q` behind it;
* `execute_chained_of_stops`, `execute_chained` — what it returns and leaves;
* `execute_cut` — every pipeline, cut at any key of its order, is such a chain.
-/

variable {D : Decision}

/-- The third pipeline runs the strategies of the first one and then those of the second one, with
    the capabilities and the flags of both. -/
structure Chained (p q pq : EvalPipeline D) : Prop where
  order : pq.order = p.order ++ q.order
  capabilities : p.capabilities = pq.capabilities ∧ q.capabilities = pq.capabilities
  failFast : p.failFast = pq.failFast ∧ q.failFast = pq.failFast
  enforceConstraints : p.enforceConstraints = pq.enforceConstraints ∧
    q.enforceConstraints = pq.enforceConstraints

/-- The result of a chain, from those of its two stages: the second one's disposition and store,
    and what either stage recorded. -/
structure EvalResult.Joined (r₁ r₂ r : EvalResult D) : Prop where
  disposition : r.disposition = r₂.disposition
  artifacts : r.artifacts = r₂.artifacts
  findings : r.findings = r₁.findings ++ r₂.findings
  proposals : r.proposals = r₁.proposals ++ r₂.proposals
  steps : r.steps = r₁.steps ++ r₂.steps
  explanations : r.trace.explanations = r₁.trace.explanations ++ r₂.trace.explanations
  snapshotArtifacts : r.snapshot.artifacts = r₂.snapshot.artifacts
  strategyVersions : r.snapshot.strategyVersions =
    r₁.snapshot.strategyVersions ++ r₂.snapshot.strategyVersions

/-- A visit of the run stops it, or the input is rejected. -/
def EvalPipeline.Stops (p : EvalPipeline D) (ctx : EvalContext D) : Prop :=
  (∃ e, D.validateInput ctx.input = .error e) ∨ ∃ v ∈ p.visits ctx, p.stopsAt v = true

theorem EvalPipeline.not_stops {p : EvalPipeline D} {ctx : EvalContext D} (h : ¬ p.Stops ctx) :
    D.validateInput ctx.input = .ok () ∧ ∀ v ∈ p.visits ctx, p.stopsAt v = false := by
  obtain ⟨hinput, hgoes⟩ := not_or.mp h
  constructor
  · cases hvalid : D.validateInput ctx.input with
    | ok _ => rfl
    | error e => exact absurd ⟨e, hvalid⟩ hinput
  · intro v hv
    by_contra hstop
    exact hgoes ⟨v, hv, eq_true_of_ne_false hstop⟩

theorem EvalPipeline.process_congr {p q : EvalPipeline D}
    (hcapabilities : p.capabilities = q.capabilities) (hfailFast : p.failFast = q.failFast) :
    p.process = q.process := by
  unfold EvalPipeline.process
  rw [hcapabilities, hfailFast]

/-- What is registered behind a visit plays no part in what it contributes. -/
theorem sameVisit_followedBy (bs : List (EvalStrategy D)) (vs : List (StrategyVisit D)) :
    List.Forall₂ SameVisit (vs.map (Visit.followedBy bs)) vs := by
  rw [List.forall₂_map_left_iff, List.forall₂_same]
  exact fun v _ => ⟨rfl, rfl⟩

/-- The visits of a run over two groups of strategies. -/
theorem visits_of_order {p : EvalPipeline D} {as bs : List (EvalStrategy D)}
    (horder : p.order = as ++ bs) {ctx : EvalContext D}
    (hinput : D.validateInput ctx.input = .ok ()) :
    p.visits ctx = (p.process.visits as ctx).map (Visit.followedBy bs) ++
      if (p.process.visits as ctx).any p.stopsAt then []
      else p.process.visits bs (p.process.commitAll (p.process.visits as ctx) ctx) := by
  unfold EvalPipeline.visits
  rw [hinput, if_pos (by rfl), horder]
  exact p.process.visits_append as bs ctx

theorem visits_of_valid {p : EvalPipeline D} {ctx : EvalContext D}
    (hinput : D.validateInput ctx.input = .ok ()) :
    p.visits ctx = p.process.visits p.order ctx := by
  unfold EvalPipeline.visits
  rw [hinput, if_pos (by rfl)]

theorem visits_of_invalid {p : EvalPipeline D} {ctx : EvalContext D} {e : ValidationError}
    (hinput : D.validateInput ctx.input = .error e) : p.visits ctx = [] := by
  unfold EvalPipeline.visits
  rw [hinput, if_neg (by exact Bool.false_ne_true)]

theorem refusal_of_invalid {p : EvalPipeline D} {ctx : EvalContext D} {e : ValidationError}
    (hinput : D.validateInput ctx.input = .error e) :
    p.refusal ctx = some (.inputValidation e) := by
  unfold EvalPipeline.refusal
  rw [hinput]

theorem refusal_eq_or {p : EvalPipeline D} {ctx : EvalContext D}
    (hinput : D.validateInput ctx.input = .ok ()) :
    p.refusal ctx = ((p.visits ctx).findSome? (fun v => failure p.failFast v.stage v.out)).or
      (p.outputError ctx (p.disposition ctx)) := by
  unfold EvalPipeline.refusal
  rw [hinput]

/-- The context behind a run is the one its visits leave. -/
theorem commitAll_visits {p : EvalPipeline D} {ctx : EvalContext D}
    (hinput : D.validateInput ctx.input = .ok ()) :
    p.process.commitAll (p.process.visits p.order ctx) ctx = (p.execute ctx).ctx := by
  rw [commitAll_eq, EvalPipeline.execute_ctx, EvalPipeline.newArtifacts, visits_of_valid hinput]

theorem failure_eq_none_of_not_stopping {failFast : Bool} {s : EvalStrategy D} {out : Output D}
    (h : stopping failFast s.phase out = false) : failure failFast s out = none := by
  by_contra hne
  obtain ⟨e, he⟩ := Option.ne_none_iff_exists'.mp hne
  rw [stopping_of_failure he] at h
  cases h

/-! ### Strategy by strategy -/

/-- A strategy that continues hands on to the ones behind it. -/
theorem visits_of_continue {p : EvalPipeline D} {s : EvalStrategy D} {ss : List (EvalStrategy D)}
    {ctx : EvalContext D} {patch : StrategyPatch D}
    (hout : s.evaluate ctx p.capabilities = .ok patch) (hcontrol : patch.control = .continue) :
    p.process.visits (s :: ss) ctx =
      ⟨s, ctx, .ok patch, ss⟩ :: p.process.visits ss (ctx.merge patch.artifacts) := by
  have hgo : p.process.stops s (.ok patch) = false := by
    show stopping p.failFast s.phase (.ok patch) = false
    rw [stopping, hcontrol]
  have hout' : p.process.eval s ctx = .ok patch := hout
  rw [Process.visits_cons, hout', hgo, if_neg Bool.false_ne_true]
  rfl

/-- A strategy that stops is the last one evaluated. -/
theorem visits_of_stopping {p : EvalPipeline D} {s : EvalStrategy D} {ss : List (EvalStrategy D)}
    {ctx : EvalContext D} {out : Output D} (hout : s.evaluate ctx p.capabilities = out)
    (hstop : stopping p.failFast s.phase out = true) :
    p.process.visits (s :: ss) ctx = [⟨s, ctx, out, ss⟩] := by
  have hout' : p.process.eval s ctx = out := hout
  have hstop' : p.process.stops s out = true := hstop
  rw [Process.visits_cons, hout', hstop', if_pos rfl]

section Chained

variable {p q pq : EvalPipeline D} (h : Chained p q pq) {ctx : EvalContext D}

include h

/-- **The run of a chain** is that of the first pipeline and, unless a visit of it stops, that of
    the second one on the context it leaves. -/
theorem visits_chained (hinput : D.validateInput ctx.input = .ok ()) :
    pq.visits ctx = (p.visits ctx).map (Visit.followedBy q.order) ++
      if (p.visits ctx).any p.stopsAt then [] else q.visits (p.execute ctx).ctx := by
  have hp : p.process = pq.process :=
    EvalPipeline.process_congr h.capabilities.1 h.failFast.1
  have hq : q.process = pq.process :=
    EvalPipeline.process_congr h.capabilities.2 h.failFast.2
  have hstops : p.stopsAt = pq.stopsAt := by
    funext v
    rw [EvalPipeline.stopsAt, EvalPipeline.stopsAt, h.failFast.1]
  have hinput' : D.validateInput (p.execute ctx).ctx.input = .ok () := by
    rw [EvalPipeline.execute_ctx]
    exact hinput
  rw [visits_of_order h.order hinput, visits_of_valid hinput, visits_of_valid hinput',
    ← commitAll_visits hinput, hp, hq, hstops]

/-- **A chain that stops early.** If the run of the first pipeline stops, the chain executes like
    it. -/
theorem execute_chained_of_stops (hstop : p.Stops ctx) :
    (pq.execute ctx).Alike (p.execute ctx) := by
  have hvisits : List.Forall₂ SameVisit (pq.visits ctx) (p.visits ctx) := by
    rcases hinput : D.validateInput ctx.input with e | ⟨⟩
    · rw [visits_of_invalid hinput, visits_of_invalid hinput]
      exact List.Forall₂.nil
    · rcases hstop with ⟨e, he⟩ | ⟨v, hv, hstop⟩
      · rw [hinput] at he
        cases he
      · have hany : (p.visits ctx).any p.stopsAt = true := List.any_eq_true.mpr ⟨v, hv, hstop⟩
        rw [visits_chained h hinput, if_pos hany, List.append_nil]
        exact sameVisit_followedBy q.order _
  have hrun : SameRun pq ctx p ctx :=
    ⟨h.failFast.1.symm, h.enforceConstraints.1.symm, rfl, rfl, hvisits⟩
  exact hrun.execute_alike rfl

/-- **A chain in two stages.** If the run of the first pipeline does not stop, it returns a result
    without a disposition, and the chain leaves, returns and decides what the second one does on
    the context the first one left, with what both recorded. -/
theorem execute_chained (hgo : ¬ p.Stops ctx) :
    ∃ r₁, (p.execute ctx).result = .ok r₁ ∧ r₁.disposition = none ∧
      (pq.execute ctx).ctx = (q.execute (p.execute ctx).ctx).ctx ∧
      (∀ e, (pq.execute ctx).result = .error e ↔
        (q.execute (p.execute ctx).ctx).result = .error e) ∧
      ∀ r₂, (q.execute (p.execute ctx).ctx).result = .ok r₂ →
        ∃ r, (pq.execute ctx).result = .ok r ∧ EvalResult.Joined r₁ r₂ r := by
  obtain ⟨hinput, hgoes⟩ := EvalPipeline.not_stops hgo
  have hany : (p.visits ctx).any p.stopsAt = false := by
    rw [List.any_eq_false]
    exact fun v hv => ne_true_of_eq_false (hgoes v hv)
  have hvisits := visits_chained h hinput
  rw [if_neg (ne_true_of_eq_false hany)] at hvisits
  -- none of the first visits fails or decides
  have hfail : ∀ failFast, p.failFast = failFast →
      (p.visits ctx).findSome? (fun v => failure failFast v.stage v.out) = none := by
    rintro _ rfl
    rw [List.findSome?_eq_none_iff]
    exact fun v hv => failure_eq_none_of_not_stopping (hgoes v hv)
  have hverdict : p.disposition ctx = none := by
    rw [EvalPipeline.disposition, List.findSome?_eq_none_iff]
    exact fun v hv => EvalPipeline.verdict_eq_none_of_not_stopping (hgoes v hv)
  have hr₁ : p.refusal ctx = none := by
    unfold EvalPipeline.refusal
    rw [hinput, hverdict]
    exact Option.or_eq_none_iff.mpr ⟨hfail _ rfl, rfl⟩
  have hfirst : List.Forall₂ SameVisit ((p.visits ctx).map (Visit.followedBy q.order))
      (p.visits ctx) := sameVisit_followedBy q.order _
  have hctx : (p.execute ctx).ctx = ctx.merge (p.newArtifacts ctx) := p.execute_ctx ctx
  have hpatches : patches (pq.visits ctx) =
      patches (p.visits ctx) ++ patches (q.visits (p.execute ctx).ctx) := by
    rw [hvisits, patches, List.flatMap_append]
    exact congrArg₂ _ (patches_sameVisit hfirst) rfl
  have hdisposition : pq.disposition ctx = q.disposition (p.execute ctx).ctx := by
    rw [EvalPipeline.disposition, hvisits, List.findSome?_append,
      findSome?_sameVisit hfirst (fun _ _ hv => by rw [hv.2, label_phase hv.1])]
    rw [EvalPipeline.disposition] at hverdict
    rw [hverdict, Option.none_or]
    rfl
  have hrefusal : pq.refusal ctx = q.refusal (p.execute ctx).ctx := by
    have hinput' : D.validateInput (p.execute ctx).ctx.input = .ok () := by
      rw [hctx]
      exact hinput
    have hconstraints : (p.execute ctx).ctx.constraints = ctx.constraints := by
      rw [hctx]
      rfl
    unfold EvalPipeline.refusal EvalPipeline.outputError
    rw [hinput, hinput', hdisposition, hvisits, List.findSome?_append,
      findSome?_sameVisit hfirst (fun _ _ hv => by rw [hv.2, failure_congr hv.1]),
      hfail _ h.failFast.1, Option.none_or, h.failFast.2, h.enforceConstraints.2, hconstraints]
  have hartifacts : ctx.merge (pq.newArtifacts ctx) =
      (p.execute ctx).ctx.merge (q.newArtifacts (p.execute ctx).ctx) := by
    rw [EvalPipeline.newArtifacts, hpatches, List.flatMap_append, ← EvalContext.merge_merge]
    exact congrArg (fun c => EvalContext.merge c _) hctx.symm
  refine ⟨p.summary ctx, EvalPipeline.execute_eq_ok.mpr ⟨hr₁, rfl⟩, hverdict, ?_,
    EvalPipeline.execute_error_congr hrefusal, fun r₂ hr₂ => ?_⟩
  · rw [EvalPipeline.execute_ctx, EvalPipeline.execute_ctx q, hartifacts]
  · obtain ⟨rfl, hr⟩ := EvalPipeline.execute_ok_congr hrefusal.symm hr₂
    refine ⟨pq.summary ctx, hr, hdisposition, ?_, ?_, ?_, ?_, ?_, ?_, ?_⟩
    · exact congrArg EvalContext.artifacts hartifacts
    · simp only [EvalPipeline.summary, hpatches, List.flatMap_append]
    · simp only [EvalPipeline.summary, hpatches, List.flatMap_append]
    · simp only [EvalPipeline.summary, hvisits, List.map_append]
      rw [map_sameVisit hfirst (fun _ _ hv => by rw [hv.2, stepOf_congr hv.1])]
    · rw [EvalPipeline.summary_explanations, EvalPipeline.summary_explanations,
        EvalPipeline.summary_explanations, EvalPipeline.explanations, hvisits,
        List.flatMap_append,
        flatMap_sameVisit hfirst (fun _ _ hv => by rw [hv.2, explanationsOf_congr hv.1])]
      rfl
    · exact congrArg (fun c => c.artifacts.intoEntries) hartifacts
    · show pq.versions ctx = p.versions ctx ++ q.versions _
      rw [EvalPipeline.versions, hvisits, List.map_append,
        map_sameVisit hfirst (fun _ _ hv => by rw [label_id hv.1, label_version hv.1])]
      rfl

end Chained

/-! ### Cutting a pipeline -/

namespace EvalPipeline

/-- The pipeline with the strategies whose key is below `k` only. -/
def before (p : EvalPipeline D) (k : Phase ×ₗ Int ×ₗ String) : EvalPipeline D :=
  { p with strategies := p.strategies.filter (fun s => s.sortKey < k) }

/-- The pipeline with the other strategies only. -/
def onwards (p : EvalPipeline D) (k : Phase ×ₗ Int ×ₗ String) : EvalPipeline D :=
  { p with strategies := p.strategies.filter (fun s => k ≤ s.sortKey) }

theorem chained_cut (p : EvalPipeline D) (k : Phase ×ₗ Int ×ₗ String) :
    Chained (p.before k) (p.onwards k) p where
  order := by
    have hsplit : ∀ s : EvalStrategy D, decide (k ≤ s.sortKey) = !decide (s.sortKey < k) := by
      intro s
      rw [← decide_not, decide_eq_decide, not_lt]
    unfold EvalPipeline.order before onwards
    simp only [hsplit]
    refine sortBy_cut (fun s _ s' _ hs hs' => ?_)
    exact (of_decide_eq_true hs).trans_le (not_lt.mp (of_decide_eq_false hs'))
  capabilities := ⟨rfl, rfl⟩
  failFast := ⟨rfl, rfl⟩
  enforceConstraints := ⟨rfl, rfl⟩

/-- **A pipeline runs in stages.** Wherever the order of its strategies is cut, a pipeline executes
    like the part before the cut if that part stops; and otherwise like the part behind the cut,
    executed on the context the first part left.  Each sub-pipeline draws the same identifier in its
    part as in the whole. -/
theorem execute_cut (p : EvalPipeline D) (k : Phase ×ₗ Int ×ₗ String) (ctx : EvalContext D) :
    ((p.before k).Stops ctx → (p.execute ctx).Alike ((p.before k).execute ctx)) ∧
    (¬ (p.before k).Stops ctx →
      ∃ r₁, ((p.before k).execute ctx).result = .ok r₁ ∧ r₁.disposition = none ∧
        (p.execute ctx).ctx = ((p.onwards k).execute ((p.before k).execute ctx).ctx).ctx ∧
        (∀ e, (p.execute ctx).result = .error e ↔
          ((p.onwards k).execute ((p.before k).execute ctx).ctx).result = .error e) ∧
        ∀ r₂, ((p.onwards k).execute ((p.before k).execute ctx).ctx).result = .ok r₂ →
          ∃ r, (p.execute ctx).result = .ok r ∧ EvalResult.Joined r₁ r₂ r) :=
  ⟨execute_chained_of_stops (p.chained_cut k), execute_chained (p.chained_cut k)⟩

end EvalPipeline

end DarqEval
