import DarqEval.Leaves
import DarqEval.Replay

namespace DarqEval

open Lib

/-!
# Capabilities across nesting

A pipeline hands its capability set to its strategies, and a sub-pipeline drops the one it is
handed: its own strategies get the set it was built with, which is empty unless it was given one.

* `innermost`, `LeafRun.capabilities` — the set a leaf is handed (`leaf_out`);
* `CapabilitiesSeen` — leaves inside sub-pipelines see the capabilities of the root;
* `capabilitiesSeen_iff` — exactly when they do.
-/

variable {D : Decision}

/-! ### The capability set a leaf is handed -/

/-- The capability set of the innermost of some nested pipelines, the outermost one's being
    `outer`. -/
def innermost (outer : CapabilitySet) : List (SubRun D) → CapabilitySet
  | [] => outer
  | e :: path => innermost e.pipeline.capabilities path

/-- The capability set a leaf of a run of `t` is handed. -/
def LeafRun.capabilities (t : PipelineTree D) (ℓ : LeafRun D) : CapabilitySet :=
  innermost t.settings.capabilities ℓ.path

/-- The root evaluates its strategies with its own capabilities. -/
theorem PipelineTree.record_out {t : PipelineTree D} {ctx : EvalContext D} {r : RunRecord D}
    (h : r ∈ t.records ctx) :
    r.visit.out = r.visit.stage.evaluate r.visit.seen t.settings.capabilities := by
  obtain ⟨pre, post, heq⟩ := List.append_of_mem (t.visit_mem_visits h)
  exact (EvalPipeline.visits_split heq).2.2.1

theorem leaf_out_of_records (t : PipelineTree D) (ctx : EvalContext D) :
    ∀ r ∈ t.records ctx, ∀ caps, r.visit.out = r.visit.stage.evaluate r.visit.seen caps →
      ∀ before, ∀ ℓ ∈ r.leaves before,
        ℓ.visit.out = ℓ.visit.stage.evaluate ℓ.visit.seen (innermost caps ℓ.path) := by
  refine PipelineTree.record_induction ?_ ?_ t ctx
  · intro v caps hout before ℓ hℓ
    rw [RunRecord.leaves] at hℓ
    obtain rfl := List.mem_singleton.mp hℓ
    exact hout
  · intro newV4 t' v later _ _ ih caps _ before ℓ hℓ
    rw [RunRecord.leaves] at hℓ
    obtain ⟨ℓ', hℓ', rfl⟩ := List.mem_map.mp hℓ
    obtain ⟨r, hmem, before', hr⟩ := RunRecord.exists_of_mem_leavesAll hℓ'
    -- whatever the sub-pipeline was handed, its own set is what its strategies get
    exact ih r hmem _ (PipelineTree.record_out hmem) _ ℓ' hr

/-- A leaf is evaluated with the capability set of the innermost pipeline around it. -/
theorem leaf_out {t : PipelineTree D} {ctx : EvalContext D} {ℓ : LeafRun D}
    (h : ℓ ∈ t.leaves ctx) :
    ℓ.visit.out = ℓ.visit.stage.evaluate ℓ.visit.seen (ℓ.capabilities t) := by
  obtain ⟨r, hmem, before, hr⟩ := RunRecord.exists_of_mem_leavesAll h
  exact leaf_out_of_records t ctx r hmem _ (PipelineTree.record_out hmem) _ ℓ hr

/-! ### What a leaf sees of the root's capabilities -/

theorem CapabilitySet.fetch_of_not_has {caps : CapabilitySet} {name : String}
    (h : caps.has name = false) (key : String) :
    caps.fetch name key = .error (.notFound ("capability '" ++ name ++ "' not registered")) := by
  rw [has, Option.isSome_eq_false_iff, Option.isNone_iff_eq_none] at h
  rw [fetch, h]

/-- A name registered in none of some nested pipelines is not in the innermost set. -/
theorem innermost_not_has {name : String} {path : List (SubRun D)} (hpath : path ≠ [])
    (h : ∀ e ∈ path, e.pipeline.capabilities.has name = false) (outer : CapabilitySet) :
    (innermost outer path).has name = false := by
  induction path generalizing outer with
  | nil => exact absurd rfl hpath
  | cons e path ih =>
    rw [innermost]
    cases path with
    | nil => exact h e List.mem_cons_self
    | cons e' path =>
      exact ih (List.cons_ne_nil e' path) (fun x hx => h x (List.mem_cons_of_mem e hx)) _

/-- The name is registered in the root and in no sub-pipeline around the leaf. -/
def LeafRun.Inherits (t : PipelineTree D) (ℓ : LeafRun D) (name : String) : Prop :=
  t.settings.capabilities.has name = true ∧
    ∀ e ∈ ℓ.path, e.pipeline.capabilities.has name = false

/-- A leaf at any depth fetches from the capabilities it inherits as if it were registered in the
    root, and one that fetches from these only returns what it would return there. -/
structure CapabilitiesSeen (t : PipelineTree D) (ctx : EvalContext D) : Prop where
  fetch : ∀ ℓ ∈ t.leaves ctx, ∀ name, ℓ.Inherits t name → ∀ key,
    (ℓ.capabilities t).fetch name key = t.settings.capabilities.fetch name key
  enriched : ∀ ℓ ∈ t.leaves ctx, ∀ s : FetchStrategy D, ℓ.visit.stage = s.toStrategy →
    (∀ q ∈ (s.query ℓ.visit.seen).asked t.settings.capabilities.answer, ℓ.Inherits t q.1) →
    ℓ.visit.out = s.toStrategy.evaluate ℓ.visit.seen t.settings.capabilities

/-- **When sub-pipelines see the root's capabilities.** Exactly when the inherited ones answer
    every fetch like a capability that is not registered. -/
theorem capabilitiesSeen_iff (t : PipelineTree D) (ctx : EvalContext D) :
    CapabilitiesSeen t ctx ↔ ∀ ℓ ∈ t.leaves ctx, ℓ.path ≠ [] → ∀ name, ℓ.Inherits t name →
      ∀ key, t.settings.capabilities.fetch name key =
        .error (.notFound ("capability '" ++ name ++ "' not registered")) := by
  constructor
  · intro hseen ℓ hℓ hpath name hname key
    have hunseen : (ℓ.capabilities t).has name = false := innermost_not_has hpath hname.2 _
    rw [← hseen.fetch ℓ hℓ name hname key]
    exact CapabilitySet.fetch_of_not_has hunseen key
  · intro hcond
    have hfetch : ∀ ℓ ∈ t.leaves ctx, ∀ name, ℓ.Inherits t name → ∀ key,
        (ℓ.capabilities t).fetch name key = t.settings.capabilities.fetch name key := by
      intro ℓ hℓ name hname key
      by_cases hpath : ℓ.path = []
      · rw [LeafRun.capabilities, hpath, innermost]
      · have hunseen : (ℓ.capabilities t).has name = false := innermost_not_has hpath hname.2 _
        rw [hcond ℓ hℓ hpath name hname key]
        exact CapabilitySet.fetch_of_not_has hunseen key
    refine ⟨hfetch, fun ℓ hℓ s hstage hasked => ?_⟩
    rw [leaf_out hℓ, hstage]
    -- the answers to the fetches it makes are the same, so it returns the same
    refine (Query.run_congr (fun q hq => ?_)).symm
    exact (hfetch ℓ hℓ q.1 (hasked q hq) q.2).symm

/-- An enricher inside a sub-pipeline of its own, under a root with the market capability. -/
def Sample.nestedEnricher : PipelineTree Sample.decision :=
  ⟨⟨"parent", Sample.market, true, true⟩,
    [Sample.sub "enrichment" [.leaf (Sample.enricher "enricher" "price.v1").toStrategy]]⟩

/-- The enricher does not find the market, and stores its fallback. -/
theorem capabilitiesSeen_lost : ¬ CapabilitiesSeen Sample.nestedEnricher Sample.context := by
  intro hseen
  have hinherits : ∀ ℓ ∈ Sample.nestedEnricher.leaves Sample.context,
      ℓ.Inherits Sample.nestedEnricher "market" := by
    intro ℓ hℓ
    obtain rfl := List.mem_singleton.mp hℓ
    refine ⟨rfl, fun e he => ?_⟩
    obtain rfl := List.mem_singleton.mp he
    rfl
  have hfetch := hseen.fetch _ List.mem_cons_self "market"
    (hinherits _ List.mem_cons_self) "steel"
  have hroot : Sample.nestedEnricher.settings.capabilities.fetch "market" "steel" =
      .ok ⟨.string "steel"⟩ := rfl
  rw [hroot] at hfetch
  cases hfetch

end DarqEval
