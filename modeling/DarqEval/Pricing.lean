import DarqEval.Canonical
import DarqEval.Floats
import DarqEval.Priorities
import DarqEval.Replays
import DarqEval.Settlement

namespace DarqEval.Pricing

open Lib

/-!
# Material pricing

A decision made with the crate: a material is priced by its cost and a margin, and the price is
approved, or passed on for review if the margin is low or the material is scarce.

* `blockHBPricing` — the decision; `competitorEnrichment`, `costPlusScorer`, `demandAwareScorer`,
  `pricingDecider` — its strategies; `pipeline` — its pipeline;
* `quotation` — what a material is quoted; `execute_pricing` — a run quotes it;
* `execute_scorers` — the order of the strategies does not matter;
* `scarcity_reviewed`, `approved_as_proposed` — what a quote means;
* `requote_refused` — the recorded capabilities do not answer the quote's fetch.
-/

/-! ### The decision -/

structure PricingInput where
  materialId : String
  baseCost : F64
  customerTier : String
  currentInventory : UInt64
  dailyDemand : UInt64

structure PricingOutput where
  unitPrice : F64
  marginPct : F64
  discountApplied : F64
  pricingTier : String

structure PricingConstraints where
  minMargin : F64
  maxPrice : F64

/-- The text of a share in percent, with one digit behind the point. -/
def percent (x : F64) : String := (x * 100.0).fixed 1 ++ "%"

def validateInput (input : PricingInput) : Except ValidationError Unit :=
  if input.baseCost ≤ 0.0 then
    .error (.invalidInput "base_cost must be positive" (some "base_cost"))
  else if input.materialId.isEmpty then .error (.missingField "material_id")
  else .ok ()

def validateOutput (output : PricingOutput) (constraints : PricingConstraints) :
    Except ValidationError Unit :=
  if output.marginPct < constraints.minMargin then
    .error (.constraintViolation
      ("margin " ++ percent output.marginPct ++ " below minimum " ++ percent constraints.minMargin)
      (some "min_margin"))
  else if output.unitPrice > constraints.maxPrice then
    .error (.constraintViolation
      ("price $" ++ output.unitPrice.fixed 2 ++ " exceeds maximum $" ++ constraints.maxPrice.fixed 2)
      (some "max_price"))
  else .ok ()

section

variable (serde : SerdeJson) (blake3 : List UInt8 → String)

/-- The pricing decision, with the `Serialize` implementations derived for its data. -/
abbrev blockHBPricing : Decision where
  kind := "blockhb.pricing"
  Input := PricingInput
  Output := PricingOutput
  Constraints := PricingConstraints
  validateInput := validateInput
  validateOutput := validateOutput
  inputToValue := fun input => some (.object (serde.mapKind.ofEntries
    [("material_id", .string input.materialId),
      ("base_cost", .ofF64 input.baseCost),
      ("customer_tier", .string input.customerTier),
      ("current_inventory", .number (.posInt input.currentInventory)),
      ("daily_demand", .number (.posInt input.dailyDemand))]))
  constraintsToValue := fun constraints => some (.object (serde.mapKind.ofEntries
    [("min_margin", .ofF64 constraints.minMargin), ("max_price", .ofF64 constraints.maxPrice)]))

/-- The `Deserialize` implementations derived for them. -/
def deserialize : Deserialize (blockHBPricing serde) where
  input := fun value =>
    match value.fields
      ["material_id", "base_cost", "customer_tier", "current_inventory", "daily_demand"] with
    | some [materialId, baseCost, customerTier, currentInventory, dailyDemand] => do
      return ⟨← materialId.asString, ← baseCost.asF64, ← customerTier.asString,
        ← currentInventory.asU64, ← dailyDemand.asU64⟩
    | _ => none
  constraints := fun value =>
    match value.fields ["min_margin", "max_price"] with
    | some [minMargin, maxPrice] => do return ⟨← minMargin.asF64, ← maxPrice.asF64⟩
    | _ => none

/-! ### Fetching competitor prices -/

/-- What the competitor enrichment returns for a fetched price. -/
def competitorPatch (result : CapabilityResult) : StrategyPatch (blockHBPricing serde) where
  artifacts := [.newExternal serde blake3 "pricing.competitor.v1" result.value
    "competitor_enrichment" "1.0.0" "v1"]
  findings := []
  proposals := []
  explanations :=
    [{ source := "competitor_enrichment"
       kind := .enrichment
       detail := "Fetched competitor pricing from market data service"
       artifactRefs := ["pricing.competitor.v1"]
       policyRefs := [] }]
  control := .continue

/-- Enrich phase: fetch competitor pricing from external source. -/
def competitorEnrichment : EvalStrategy (blockHBPricing serde) where
  id := "competitor_enrichment"
  version := ⟨1, 0, 0⟩
  phase := .enrich
  priority := 0
  evaluate := fun ctx capabilities =>
    match capabilities.fetch "market_data" ("competitor." ++ ctx.input.materialId) with
    | .error e => .error (.capabilityError e.toString)
    | .ok result => .ok (competitorPatch serde blake3 result)

/-! ### Cost and margin -/

def baseMargin (policy : PolicyBundle) : F64 := policy.getF64 "pricing.base_margin" 0.25

/-- The discount of a customer's tier. -/
def discount (policy : PolicyBundle) (input : PricingInput) : F64 :=
  match input.customerTier with
  | "preferred" => policy.getF64 "pricing.preferred_discount" 0.05
  | "enterprise" => policy.getF64 "pricing.enterprise_discount" 0.10
  | _ => 0.0

def margin (policy : PolicyBundle) (input : PricingInput) : F64 :=
  baseMargin policy - discount policy input

def unitPrice (policy : PolicyBundle) (input : PricingInput) : F64 :=
  input.baseCost * (1.0 + margin policy input)

/-- The entries of the scorer's `json!` object. -/
def costPlusEntries (policy : PolicyBundle) (input : PricingInput) : List (String × Value) :=
  [("base_cost", .ofF64 input.baseCost),
    ("base_margin", .ofF64 (baseMargin policy)),
    ("discount", .ofF64 (discount policy input)),
    ("effective_margin", .ofF64 (margin policy input)),
    ("unit_price", .ofF64 (unitPrice policy input))]

/-- The artifact of the scorer. -/
def costPlus (policy : PolicyBundle) (input : PricingInput) : Artifact :=
  .new serde blake3 "pricing.cost_plus.v1"
    (.object (serde.mapKind.ofEntries (costPlusEntries policy input)))
    "cost_plus_scorer" "1.0.0" "v1"

/-- The proposal of the scorer. -/
def proposal (policy : PolicyBundle) (input : PricingInput) : Proposal (blockHBPricing serde) where
  output := ⟨unitPrice policy input, margin policy input, discount policy input, input.customerTier⟩
  proposedBy := "cost_plus_scorer"
  basis :=
    { metrics :=
        [{ name := "margin_pct", value := margin policy input, unit := some "%" },
          { name := "unit_price", value := unitPrice policy input, unit := some "USD" }]
      artifactRefs := ["pricing.cost_plus.v1"]
      policyRefs := ["pricing.base_margin", "pricing.preferred_discount",
        "pricing.enterprise_discount"]
      rationale := "Cost-plus pricing: $" ++ input.baseCost.fixed 2 ++ " base * " ++
        percent (margin policy input) ++ " margin (after " ++ percent (discount policy input) ++
        " " ++ input.customerTier ++ " discount)" }

/-- What the scorer returns. -/
def costPlusPatch (policy : PolicyBundle) (input : PricingInput) :
    StrategyPatch (blockHBPricing serde) where
  artifacts := [costPlus serde blake3 policy input]
  findings := []
  proposals := [proposal serde policy input]
  explanations :=
    [{ source := "cost_plus_scorer"
       kind := .ruleMatched
       detail := "Applied " ++ percent (baseMargin policy) ++ " margin with " ++
         percent (discount policy input) ++ " tier discount"
       artifactRefs := ["pricing.cost_plus.v1"]
       policyRefs := ["pricing.base_margin"] }]
  control := .continue

/-- Evaluate phase: cost-plus scoring with tier-based discounts. -/
def costPlusScorer : EvalStrategy (blockHBPricing serde) where
  id := "cost_plus_scorer"
  version := ⟨1, 0, 0⟩
  phase := .evaluate
  priority := 0
  evaluate := fun ctx _capabilities => .ok (costPlusPatch serde blake3 ctx.policy ctx.input)

/-! ### Supply and demand -/

def scarcityDays (policy : PolicyBundle) : UInt64 :=
  (policy.getF64 "pricing.scarcity_days" 14.0).toU64

def excessDays (policy : PolicyBundle) : UInt64 :=
  (policy.getF64 "pricing.excess_days" 90.0).toU64

/-- For how many days the inventory lasts: `u64::MAX` without demand. -/
def daysOfSupply (input : PricingInput) : UInt64 :=
  if input.dailyDemand > 0 then input.currentInventory / input.dailyDemand
  else UInt64.ofNat (UInt64.size - 1)

/-- The findings of the demand-aware scorer. -/
def demandFindings (policy : PolicyBundle) (input : PricingInput) : List Finding :=
  if daysOfSupply input < scarcityDays policy then
    [{ source := "demand_aware_scorer"
       severity := .warning
       code := "SCARCITY"
       message := "Only " ++ (daysOfSupply input).toNat.repr ++
         " days of supply remaining (threshold: " ++ (scarcityDays policy).toNat.repr ++ ")"
       artifactRefs := ["pricing.demand.v1"] }]
  else if daysOfSupply input > excessDays policy then
    [{ source := "demand_aware_scorer"
       severity := .info
       code := "EXCESS"
       message := (daysOfSupply input).toNat.repr ++
         " days of supply — consider promotional pricing"
       artifactRefs := ["pricing.demand.v1"] }]
  else []

/-- The entries of the demand-aware scorer's `json!` object. -/
def demandEntries (policy : PolicyBundle) (input : PricingInput) : List (String × Value) :=
  [("days_of_supply", .number (.posInt (daysOfSupply input))),
    ("scarcity_threshold", .number (.posInt (scarcityDays policy))),
    ("excess_threshold", .number (.posInt (excessDays policy))),
    ("current_inventory", .number (.posInt input.currentInventory)),
    ("daily_demand", .number (.posInt input.dailyDemand))]

/-- The artifact of the demand-aware scorer. -/
def demand (policy : PolicyBundle) (input : PricingInput) : Artifact :=
  .new serde blake3 "pricing.demand.v1"
    (.object (serde.mapKind.ofEntries (demandEntries policy input)))
    "demand_aware_scorer" "1.0.0" "v1"

/-- What the demand-aware scorer returns. -/
def demandPatch (policy : PolicyBundle) (input : PricingInput) :
    StrategyPatch (blockHBPricing serde) where
  artifacts := [demand serde blake3 policy input]
  findings := demandFindings policy input
  proposals := []
  explanations :=
    [{ source := "demand_aware_scorer"
       kind := .enrichment
       detail := "Computed " ++ (daysOfSupply input).toNat.repr ++ " days of supply"
       artifactRefs := ["pricing.demand.v1"]
       policyRefs := ["pricing.scarcity_days", "pricing.excess_days"] }]
  control := .continue

/-- Evaluate phase: demand-aware scarcity detection. -/
def demandAwareScorer : EvalStrategy (blockHBPricing serde) where
  id := "demand_aware_scorer"
  version := ⟨1, 0, 0⟩
  phase := .evaluate
  priority := 1
  evaluate := fun ctx _capabilities => .ok (demandPatch serde blake3 ctx.policy ctx.input)

/-! ### The decider -/

def reviewThreshold (policy : PolicyBundle) : F64 :=
  policy.getF64 "pricing.review_threshold_margin" 0.10

/-- The reasons to review a margin, and a material if it is scarce. -/
def reviewReasons (policy : PolicyBundle) (margin : F64) (hasScarcity : Bool) : List ReviewReason :=
  (if margin < reviewThreshold policy then
    [{ code := "LOW_MARGIN"
       message := "Margin " ++ percent margin ++ " below review threshold " ++
         percent (reviewThreshold policy) }]
  else []) ++
  (if hasScarcity then
    [{ code := "SCARCITY"
       message := "Material is in scarcity — pricing review required" }]
  else [])

/-- The disposition of an output. -/
def disposition (policy : PolicyBundle) (output : PricingOutput) (hasScarcity : Bool) :
    DecisionDisposition (blockHBPricing serde) :=
  if output.marginPct < reviewThreshold policy ∨ hasScarcity then
    .review (some output) (reviewReasons policy output.marginPct hasScarcity)
  else .auto output

/-- What the decider returns for an output. -/
def decisionPatch (policy : PolicyBundle) (output : PricingOutput) (hasScarcity : Bool) :
    StrategyPatch (blockHBPricing serde) where
  artifacts := []
  findings := []
  proposals := []
  explanations :=
    [{ source := "pricing_decider"
       kind := .ruleMatched
       detail := "Pricing decision: margin=" ++ percent output.marginPct ++ ", scarcity=" ++
         (if hasScarcity then "true" else "false")
       artifactRefs := ["pricing.cost_plus.v1", "pricing.demand.v1"]
       policyRefs := ["pricing.review_threshold_margin"] }]
  control := .finalize (disposition serde policy output hasScarcity)

/-- Decide phase: finalize pricing based on artifacts, findings, and policy. -/
def pricingDecider : EvalStrategy (blockHBPricing serde) where
  id := "pricing_decider"
  version := ⟨1, 0, 0⟩
  phase := .decide
  priority := 0
  evaluate := fun ctx _capabilities =>
    match ctx.artifacts.getRequired "pricing.cost_plus.v1" with
    | .error e => .error (.missingArtifact e.toString)
    | .ok costPlus =>
      let margin := (costPlus.value.index "effective_margin").asF64.getD 0.0
      let unitPrice := (costPlus.value.index "unit_price").asF64.getD 0.0
      let discount := (costPlus.value.index "discount").asF64.getD 0.0
      let hasScarcity := ((ctx.artifacts.getLatest "pricing.demand.v1").bind
        (fun a => (a.value.index "days_of_supply").asU64)).map
          (fun days => decide (days < scarcityDays ctx.policy)) |>.getD false
      .ok (decisionPatch serde ctx.policy ⟨unitPrice, margin, discount, ctx.input.customerTier⟩
        hasScarcity)

/-! ### The pipeline -/

/-- The simulated capability; `now` is the RFC 3339 text of the current time. -/
def marketDataCapability (now : String) : Capability where
  name := "market_data"
  fetch := fun key => .ok ⟨.object (serde.mapKind.ofEntries
    [("key", .string key), ("competitor_price", .ofF64 125.50), ("competitor", .string "AcmeCorp"),
      ("fetched_at", .string now)])⟩

/-- The pipeline with the given capabilities. -/
def pipeline (capabilities : CapabilitySet) : EvalPipeline (blockHBPricing serde) :=
  (((((EvalPipeline.new _ "blockhb_pricing_v1").addStrategy
    (competitorEnrichment serde blake3)).addStrategy
    (costPlusScorer serde blake3)).addStrategy
    (demandAwareScorer serde blake3)).addStrategy
    (pricingDecider serde)).withCapabilities capabilities

/-! ### What the decider reads -/

/-- The output the decider finalizes: the proposed one, as far as its numbers are finite. -/
def quoted (policy : PolicyBundle) (input : PricingInput) : PricingOutput :=
  ⟨(unitPrice policy input).reread, (margin policy input).reread, (discount policy input).reread,
    input.customerTier⟩

/-- The material is scarce. -/
def isScarce (policy : PolicyBundle) (input : PricingInput) : Bool :=
  daysOfSupply input < scarcityDays policy

theorem index_costPlus (policy : PolicyBundle) (input : PricingInput) {key : String} {x : F64}
    (h : (costPlusEntries policy input).lookup key = some (.ofF64 x)) :
    ((costPlus serde blake3 policy input).value.index key).asF64.getD 0.0 = x.reread := by
  have hkeys : ((costPlusEntries policy input).map Prod.fst).Nodup := by
    simp [costPlusEntries]
  rw [costPlus, Artifact.new, Value.index_ofEntries _ hkeys, h, Option.getD_some,
    Value.getD_asF64_ofF64]

theorem index_demand (policy : PolicyBundle) (input : PricingInput) :
    ((demand serde blake3 policy input).value.index "days_of_supply").asU64 =
      some (daysOfSupply input) := by
  have hkeys : ((demandEntries policy input).map Prod.fst).Nodup := by
    simp [demandEntries]
  rw [demand, Artifact.new, Value.index_ofEntries _ hkeys]
  rfl

/-- Behind the scorers, the decider reads their artifacts, whatever the store held before. -/
theorem pricingDecider_eq {ctx : EvalContext (blockHBPricing serde)} (capabilities : CapabilitySet)
    {artifacts : ArtifactStore}
    (h : ctx.artifacts = artifacts.appendAll
      [costPlus serde blake3 ctx.policy ctx.input, demand serde blake3 ctx.policy ctx.input]) :
    (pricingDecider serde).evaluate ctx capabilities =
      .ok (decisionPatch serde ctx.policy (quoted ctx.policy ctx.input)
        (isScarce ctx.policy ctx.input)) := by
  have hcost : ctx.artifacts.getLatest "pricing.cost_plus.v1" =
      some (costPlus serde blake3 ctx.policy ctx.input) := by
    rw [h]
    simp [ArtifactStore.getLatest, costPlus, demand, Artifact.new]
  have hdemand : ctx.artifacts.getLatest "pricing.demand.v1" =
      some (demand serde blake3 ctx.policy ctx.input) := by
    rw [h]
    simp [ArtifactStore.getLatest, demand, Artifact.new]
  simp only [pricingDecider, ArtifactStore.getRequired, hcost, hdemand, Option.bind_some,
    index_demand, Option.map_some, Option.getD_some]
  rw [index_costPlus serde blake3 ctx.policy ctx.input rfl,
    index_costPlus serde blake3 ctx.policy ctx.input rfl,
    index_costPlus serde blake3 ctx.policy ctx.input rfl]
  rfl

/-! ### The run -/

section Run

variable {serde blake3} {capabilities : CapabilitySet} {ctx : EvalContext (blockHBPricing serde)}
  (hinput : validateInput ctx.input = .ok ())

theorem order_pipeline (capabilities : CapabilitySet) :
    (pipeline serde blake3 capabilities).order =
      [competitorEnrichment serde blake3, costPlusScorer serde blake3,
        demandAwareScorer serde blake3, pricingDecider serde] := rfl

include hinput

/-- Without a market price the run stops at the first strategy. -/
theorem visits_of_error {e : CapabilityError}
    (hfetch : capabilities.fetch "market_data" ("competitor." ++ ctx.input.materialId) = .error e) :
    (pipeline serde blake3 capabilities).visits ctx =
      [⟨competitorEnrichment serde blake3, ctx, .error (.capabilityError e.toString),
        [costPlusScorer serde blake3, demandAwareScorer serde blake3, pricingDecider serde]⟩] := by
  have hout : (competitorEnrichment serde blake3).evaluate ctx capabilities =
      .error (.capabilityError e.toString) := by
    simp only [competitorEnrichment, hfetch]
  rw [visits_of_valid hinput, order_pipeline]
  exact visits_of_stopping hout rfl

variable (blake3) in
/-- With a market price it evaluates all four. -/
theorem visits_of_price {result : CapabilityResult}
    (hfetch : capabilities.fetch "market_data" ("competitor." ++ ctx.input.materialId) =
      .ok result) :
    ∃ c₁ c₂ c₃, (pipeline serde blake3 capabilities).visits ctx =
      [⟨competitorEnrichment serde blake3, ctx, .ok (competitorPatch serde blake3 result),
        [costPlusScorer serde blake3, demandAwareScorer serde blake3, pricingDecider serde]⟩,
      ⟨costPlusScorer serde blake3, c₁, .ok (costPlusPatch serde blake3 ctx.policy ctx.input),
        [demandAwareScorer serde blake3, pricingDecider serde]⟩,
      ⟨demandAwareScorer serde blake3, c₂, .ok (demandPatch serde blake3 ctx.policy ctx.input),
        [pricingDecider serde]⟩,
      ⟨pricingDecider serde, c₃, .ok (decisionPatch serde ctx.policy (quoted ctx.policy ctx.input)
        (isScarce ctx.policy ctx.input)), []⟩] := by
  have hcompetitor : (competitorEnrichment serde blake3).evaluate ctx capabilities =
      .ok (competitorPatch serde blake3 result) := by
    simp only [competitorEnrichment, hfetch]
  let c₁ := ctx.merge (competitorPatch serde blake3 result).artifacts
  let c₂ := c₁.merge (costPlusPatch serde blake3 ctx.policy ctx.input).artifacts
  let c₃ := c₂.merge (demandPatch serde blake3 ctx.policy ctx.input).artifacts
  have hcost : (costPlusScorer serde blake3).evaluate c₁ capabilities =
      .ok (costPlusPatch serde blake3 ctx.policy ctx.input) := rfl
  have hdemand : (demandAwareScorer serde blake3).evaluate c₂ capabilities =
      .ok (demandPatch serde blake3 ctx.policy ctx.input) := rfl
  have hstore : c₃.artifacts = c₁.artifacts.appendAll
      [costPlus serde blake3 ctx.policy ctx.input, demand serde blake3 ctx.policy ctx.input] :=
    ArtifactStore.appendAll_appendAll _ _ _
  have hdecider : (pricingDecider serde).evaluate c₃ capabilities =
      .ok (decisionPatch serde ctx.policy (quoted ctx.policy ctx.input)
        (isScarce ctx.policy ctx.input)) := pricingDecider_eq serde blake3 capabilities hstore
  refine ⟨c₁, c₂, c₃, ?_⟩
  rw [visits_of_valid hinput, order_pipeline, visits_of_continue hcompetitor rfl,
    visits_of_continue hcost rfl, visits_of_continue hdemand rfl, visits_of_stopping hdecider rfl]

end Run

/-! ### What a material is quoted -/

variable (capabilities : CapabilitySet) (ctx : EvalContext (blockHBPricing serde))

theorem settles_pipeline :
    Settles (pipeline serde blake3 capabilities) ctx "competitor_enrichment"
      (capabilities.fetch "market_data" ("competitor." ++ ctx.input.materialId))
      (disposition serde ctx.policy (quoted ctx.policy ctx.input)
        (isScarce ctx.policy ctx.input)) where
  enforceConstraints := rfl
  unanswered hinput e he := by
    rw [visits_of_error hinput he]
    rfl
  answered hinput result hresult := by
    obtain ⟨c₁, c₂, c₃, hvisits⟩ := visits_of_price blake3 hinput hresult
    rw [EvalPipeline.disposition, hvisits]
    exact ⟨rfl, rfl⟩

private theorem recorded {r : EvalResult (blockHBPricing serde)}
    (hr : ((pipeline serde blake3 capabilities).execute ctx).result = .ok r) :
    r.findings = demandFindings ctx.policy ctx.input ∧
      r.proposals = [proposal serde ctx.policy ctx.input] := by
  obtain ⟨hinput, ⟨result, hresult⟩, -, -⟩ :=
    (settles_pipeline serde blake3 capabilities ctx).disposed hr
  obtain ⟨-, rfl⟩ := EvalPipeline.execute_eq_ok.mp hr
  obtain ⟨c₁, c₂, c₃, hvisits⟩ := visits_of_price blake3 hinput hresult
  constructor
  · rw [EvalPipeline.summary, hvisits]
    exact List.append_nil _
  · rw [EvalPipeline.summary, hvisits]
    rfl

/-- **A run quotes its material.** Whatever the store held before, a run returns the settlement of
    its input, with the findings of the demand-aware scorer and the one proposal. -/
theorem execute_pricing :
    ((pipeline serde blake3 capabilities).execute ctx).result.map EvalResult.disposition =
      (settlement ctx "competitor_enrichment"
        (capabilities.fetch "market_data" ("competitor." ++ ctx.input.materialId))
        (disposition serde ctx.policy (quoted ctx.policy ctx.input)
          (isScarce ctx.policy ctx.input))).map some ∧
    ∀ r, ((pipeline serde blake3 capabilities).execute ctx).result = .ok r →
      r.findings = demandFindings ctx.policy ctx.input ∧
        r.proposals = [proposal serde ctx.policy ctx.input] :=
  ⟨(settles_pipeline serde blake3 capabilities ctx).result_eq,
    fun _ hr => recorded serde blake3 capabilities ctx hr⟩

/-! ### The order of the scorers -/

section Priorities

/-- The keys a strategy reads artifacts at. -/
def readKeys (s : EvalStrategy (blockHBPricing serde)) : Set String :=
  if s.phase = .decide then {"pricing.cost_plus.v1", "pricing.demand.v1"} else ∅

/-- The keys a strategy emits artifacts with. -/
def writtenKeys (s : EvalStrategy (blockHBPricing serde)) : Set String :=
  if s.id = "competitor_enrichment" then {"pricing.competitor.v1"}
  else if s.id = "cost_plus_scorer" then {"pricing.cost_plus.v1"}
  else if s.id = "demand_aware_scorer" then {"pricing.demand.v1"}
  else ∅

theorem mem_strategies {s : EvalStrategy (blockHBPricing serde)} :
    s ∈ (pipeline serde blake3 capabilities).strategies ↔
      s = competitorEnrichment serde blake3 ∨ s = costPlusScorer serde blake3 ∨
        s = demandAwareScorer serde blake3 ∨ s = pricingDecider serde := by
  show s ∈ [competitorEnrichment serde blake3, costPlusScorer serde blake3,
    demandAwareScorer serde blake3, pricingDecider serde] ↔ _
  simp only [List.mem_cons, List.not_mem_nil, or_false]

theorem footprints : ∀ s ∈ (pipeline serde blake3 capabilities).strategies,
    s.Footprint (readKeys serde s) (writtenKeys serde s) := by
  intro s hs
  rcases (mem_strategies serde blake3 capabilities).mp hs with rfl | rfl | rfl | rfl
  · refine ⟨fun c c' caps hc => by rw [hc.context]; rfl, fun c caps patch hpatch a ha => ?_⟩
    simp only [competitorEnrichment] at hpatch
    split at hpatch
    · cases hpatch
    · obtain rfl := Except.ok.inj hpatch
      rw [List.mem_singleton.mp ha]
      rfl
  · refine ⟨fun c c' caps hc => by rw [hc.context]; rfl, fun c caps patch hpatch a ha => ?_⟩
    obtain rfl := Except.ok.inj hpatch
    rw [List.mem_singleton.mp ha]
    rfl
  · refine ⟨fun c c' caps hc => by rw [hc.context]; rfl, fun c caps patch hpatch a ha => ?_⟩
    obtain rfl := Except.ok.inj hpatch
    rw [List.mem_singleton.mp ha]
    rfl
  · refine ⟨fun c c' caps hc => ?_, fun c caps patch hpatch a ha => ?_⟩
    · have hcost := (hc.reads "pricing.cost_plus.v1" (Or.inl rfl)).2
      have hdemand := (hc.reads "pricing.demand.v1" (Or.inr rfl)).1
      simp only [pricingDecider, hcost, hdemand]
      rw [hc.context]
    · simp only [pricingDecider] at hpatch
      split at hpatch
      · cases hpatch
      · obtain rfl := Except.ok.inj hpatch
        cases ha

theorem scorers_independent : Independent (readKeys serde) (writtenKeys serde)
    (costPlusScorer serde blake3) (demandAwareScorer serde blake3) where
  first := Set.disjoint_left.mpr (fun _ h => h.elim)
  second := Set.disjoint_left.mpr (fun _ _ h => h.elim)
  both := by
    show Disjoint ({"pricing.cost_plus.v1"} : Set String) {"pricing.demand.v1"}
    rw [Set.disjoint_singleton]
    decide

variable {priority : EvalStrategy (blockHBPricing serde) → Int}
  {s t : EvalStrategy (blockHBPricing serde)}

/-- Whatever the priorities, they exchange the two scorers only. -/
theorem scorers_of_exchanged (hs : s ∈ (pipeline serde blake3 capabilities).strategies)
    (ht : t ∈ (pipeline serde blake3 capabilities).strategies) (h : Exchanged priority s t) :
    (s = costPlusScorer serde blake3 ∧ t = demandAwareScorer serde blake3) ∨
      (s = demandAwareScorer serde blake3 ∧ t = costPlusScorer serde blake3) := by
  have hphase := h.phase_eq
  rcases (mem_strategies serde blake3 capabilities).mp hs with rfl | rfl | rfl | rfl <;>
    rcases (mem_strategies serde blake3 capabilities).mp ht with rfl | rfl | rfl | rfl <;>
    first
    | exact absurd rfl h.1
    | exact Phase.noConfusion hphase
    | exact Or.inl ⟨rfl, rfl⟩
    | exact Or.inr ⟨rfl, rfl⟩

/-- **The order of the scorers does not matter.** Whatever priorities the strategies are given, a run
    returns the same error or the same disposition, and leaves the same artifacts at every key. -/
theorem execute_scorers (priority : EvalStrategy (blockHBPricing serde) → Int) :
    ((pipeline serde blake3 capabilities).execute ctx).Rescheduled
      (((pipeline serde blake3 capabilities).reprioritized priority).execute ctx) := by
  refine (rescheduledRun_reprioritized (footprints serde blake3 capabilities) (fun s hs t ht h => ?_)
    (fun v hv ⟨t, ht, h⟩ => ?_)).execute_rescheduled
  · rcases scorers_of_exchanged serde blake3 capabilities hs ht h with ⟨rfl, rfl⟩ | ⟨rfl, rfl⟩
    · exact scorers_independent serde blake3
    · exact (scorers_independent serde blake3).symm
  · -- neither scorer stops the run
    obtain ⟨hstage, hout⟩ := EvalPipeline.visits_spec hv
    have hscorer : v.stage = costPlusScorer serde blake3 ∨
        v.stage = demandAwareScorer serde blake3 := by
      rcases h with h | h
      · exact (scorers_of_exchanged serde blake3 capabilities hstage ht h).imp And.left And.left
      · exact ((scorers_of_exchanged serde blake3 capabilities ht hstage h).imp
          And.right And.right).symm
    rw [EvalPipeline.stopsAt, hout]
    rcases hscorer with hscorer | hscorer
    · rw [hscorer]
      rfl
    · rw [hscorer]
      rfl

end Priorities

/-! ### What that means for a quote -/

variable {serde blake3 capabilities ctx}

theorem mem_demandFindings {policy : PolicyBundle} {input : PricingInput} :
    (∃ f ∈ demandFindings policy input, f.code = "SCARCITY") ↔ isScarce policy input = true := by
  unfold demandFindings isScarce
  by_cases hscarce : daysOfSupply input < scarcityDays policy
  · simp [hscarce]
  · by_cases hexcess : daysOfSupply input > excessDays policy
    · simp [hscarce, hexcess]
    · simp [hscarce, hexcess]

/-- Without demand nothing is scarce, whatever the policy. -/
theorem isScarce_of_no_demand (policy : PolicyBundle) {input : PricingInput}
    (h : input.dailyDemand = 0) : isScarce policy input = false := by
  have hdays : daysOfSupply input = UInt64.ofNat (UInt64.size - 1) := by
    rw [daysOfSupply, h]
    rfl
  have hmax : (UInt64.ofNat (UInt64.size - 1)).toNat = UInt64.size - 1 := rfl
  have hlt := (scarcityDays policy).toNat_lt_size
  rw [isScarce, hdays, decide_eq_false_iff_not, UInt64.lt_iff_toNat_lt, hmax]
  omega

/-- **Scarcity is reviewed.** A material is found to be scarce exactly if the disposition is a review
    for scarcity, and never without demand. -/
theorem scarcity_reviewed {r : EvalResult (blockHBPricing serde)}
    (hr : ((pipeline serde blake3 capabilities).execute ctx).result = .ok r) :
    ((∃ f ∈ r.findings, f.code = "SCARCITY") ↔
      ∃ provisional reasons, r.disposition = some (.review provisional reasons) ∧
        ∃ reason ∈ reasons, reason.code = "SCARCITY") ∧
    ((∃ f ∈ r.findings, f.code = "SCARCITY") → ctx.input.dailyDemand ≠ 0) := by
  obtain ⟨-, -, hdisp, -⟩ := (settles_pipeline serde blake3 capabilities ctx).disposed hr
  rw [(recorded serde blake3 capabilities ctx hr).1, mem_demandFindings, hdisp]
  refine ⟨⟨fun hscarce => ?_, fun ⟨provisional, reasons, hreview, hreason⟩ => ?_⟩,
    fun hscarce hdemand => ?_⟩
  · refine ⟨_, _, congrArg some (if_pos (Or.inr hscarce)), ?_⟩
    unfold reviewReasons
    rw [hscarce, if_pos rfl]
    exact ⟨_, List.mem_append_right _ (List.mem_singleton_self _), rfl⟩
  · by_contra hscarce
    unfold disposition at hreview
    split at hreview
    · -- a low margin is reviewed for another reason
      obtain ⟨-, rfl⟩ := DecisionDisposition.review.inj (Option.some.inj hreview)
      obtain ⟨reason, hmem, hcode⟩ := hreason
      unfold reviewReasons at hmem
      rw [if_neg hscarce, List.append_nil] at hmem
      split at hmem
      · obtain rfl := List.mem_singleton.mp hmem
        exact absurd hcode (by decide : "LOW_MARGIN" ≠ "SCARCITY")
      · cases hmem
    · cases hreview
  · rw [isScarce_of_no_demand ctx.policy hdemand] at hscarce
    cases hscarce

/-- **What is approved is what was proposed.** The output approved or passed on for review is the
    proposed one, with zero for what is not finite in it; and what is approved is neither scarce nor
    below the margins nor above the price that are set for it. -/
theorem approved_as_proposed {r : EvalResult (blockHBPricing serde)}
    (hr : ((pipeline serde blake3 capabilities).execute ctx).result = .ok r) {output : PricingOutput}
    (houtput : r.disposition = some (.auto output) ∨
      ∃ reasons, r.disposition = some (.review (some output) reasons)) :
    (∃ p, r.proposals = [p] ∧
      output = ⟨p.output.unitPrice.reread, p.output.marginPct.reread, p.output.discountApplied.reread,
        p.output.pricingTier⟩) ∧
    (r.disposition = some (.auto output) →
      ¬ output.marginPct < reviewThreshold ctx.policy ∧
      ¬ output.marginPct < ctx.constraints.minMargin ∧
      ¬ output.unitPrice > ctx.constraints.maxPrice ∧
      ∀ f ∈ r.findings, f.code ≠ "SCARCITY") := by
  obtain ⟨-, -, hdisp, hvalid⟩ := (settles_pipeline serde blake3 capabilities ctx).disposed hr
  obtain ⟨hfindings, hproposals⟩ := recorded serde blake3 capabilities ctx hr
  have hquoted : output = quoted ctx.policy ctx.input := by
    rw [hdisp] at houtput
    unfold disposition at houtput
    split at houtput
    · rcases houtput with hauto | ⟨reasons, hreview⟩
      · cases hauto
      · exact (Option.some.inj (DecisionDisposition.review.inj (Option.some.inj hreview)).1).symm
    · rcases houtput with hauto | ⟨reasons, hreview⟩
      · exact (DecisionDisposition.auto.inj (Option.some.inj hauto)).symm
      · cases hreview
  subst hquoted
  refine ⟨⟨_, hproposals, rfl⟩, fun hauto => ?_⟩
  rw [hdisp, Option.some.injEq] at hauto
  have hout : validateOutput (quoted ctx.policy ctx.input) ctx.constraints = .ok () :=
    hvalid _ hauto
  have hgood : ¬ ((quoted ctx.policy ctx.input).marginPct < reviewThreshold ctx.policy ∨
      isScarce ctx.policy ctx.input = true) := by
    intro hbad
    rw [disposition, if_pos hbad] at hauto
    cases hauto
  unfold validateOutput at hout
  have hmargin : ¬ (quoted ctx.policy ctx.input).marginPct < ctx.constraints.minMargin := by
    intro hlow
    rw [if_pos hlow] at hout
    cases hout
  rw [if_neg hmargin] at hout
  refine ⟨fun hlow => hgood (Or.inl hlow), hmargin, fun hhigh => ?_, fun f hf hcode => ?_⟩
  · rw [if_pos hhigh] at hout
    cases hout
  · rw [hfindings] at hf
    exact hgood (Or.inr (mem_demandFindings.mp ⟨f, hf, hcode⟩))

/-! ### Replaying a quote -/

/-- The input is read back from a snapshot if its cost is finite. -/
theorem deserialize_input (input : PricingInput) :
    (deserialize serde).input (((blockHBPricing serde).inputToValue input).getD default) =
      if input.baseCost.isFinite then some input else none := by
  have hnames : ["material_id", "base_cost", "customer_tier", "current_inventory",
      "daily_demand"].Nodup := by decide
  simp only [deserialize, Option.getD_some]
  rw [Value.fields_ofEntries serde.mapKind hnames (by rfl)]
  simp only [List.map_cons, List.map_nil, Value.asF64_ofF64]
  split <;> rfl

theorem deserialize_constraints (constraints : PricingConstraints) :
    (deserialize serde).constraints
        (((blockHBPricing serde).constraintsToValue constraints).getD default) =
      if constraints.minMargin.isFinite ∧ constraints.maxPrice.isFinite then some constraints
      else none := by
  have hnames : ["min_margin", "max_price"].Nodup := by decide
  simp only [deserialize, Option.getD_some]
  rw [Value.fields_ofEntries serde.mapKind hnames (by rfl)]
  simp only [List.map_cons, List.map_nil, Value.asF64_ofF64]
  by_cases hmargin : constraints.minMargin.isFinite = true
  · by_cases hprice : constraints.maxPrice.isFinite = true
    · rw [if_pos hmargin, if_pos hprice, if_pos ⟨hmargin, hprice⟩]
      rfl
    · have hnot : ¬ (constraints.minMargin.isFinite = true ∧
          constraints.maxPrice.isFinite = true) := fun h => hprice h.2
      rw [if_pos hmargin, if_neg hprice, if_neg hnot]
      rfl
  · have hnot : ¬ (constraints.minMargin.isFinite = true ∧
        constraints.maxPrice.isFinite = true) := fun h => hmargin h.1
    rw [if_neg hmargin, if_neg hnot]
    rfl

/-- A run stores the market's answer under the strategy's name. -/
theorem unrecorded {r : EvalResult (blockHBPricing serde)}
    (hr : ((pipeline serde blake3 capabilities).execute ctx).result = .ok r)
    (hstore : ∀ a ∈ ctx.artifacts.entries, a.isExternal → a.source ≠ "market_data") :
    ∀ a ∈ ((pipeline serde blake3 capabilities).execute ctx).ctx.artifacts.entries,
      a.isExternal → a.source ≠ "market_data" := by
  obtain ⟨hinput, ⟨result, hresult⟩, -, -⟩ :=
    (settles_pipeline serde blake3 capabilities ctx).disposed hr
  obtain ⟨c₁, c₂, c₃, hvisits⟩ := visits_of_price blake3 hinput hresult
  have hnew : (pipeline serde blake3 capabilities).newArtifacts ctx =
      [.newExternal serde blake3 "pricing.competitor.v1" result.value "competitor_enrichment"
          "1.0.0" "v1",
        costPlus serde blake3 ctx.policy ctx.input, demand serde blake3 ctx.policy ctx.input] := by
    rw [EvalPipeline.newArtifacts, hvisits]
    rfl
  rw [EvalPipeline.execute_ctx, EvalContext.merge_artifacts, hnew,
    ArtifactStore.entries_appendAll]
  intro a ha hexternal
  rcases List.mem_append.mp ha with ha | ha
  · exact hstore a ha hexternal
  · rcases List.mem_cons.mp ha with rfl | ha
    · exact fun hsource => absurd hsource (by decide : "competitor_enrichment" ≠ "market_data")
    · -- the scorers' artifacts are not external
      rcases List.mem_cons.mp ha with rfl | ha
      · cases hexternal
      · obtain rfl := List.mem_singleton.mp ha
        cases hexternal

/-- **No quote is replayed.** The market's answer is stored under the strategy's name and the
    artifact's key, but fetched by the capability's name and the material: with the capabilities
    recorded from a snapshot of a run, the context rebuilt from it fails.  If the cost or a bound
    is not finite, there is no such context. -/
theorem requote_refused {r : EvalResult (blockHBPricing serde)}
    (hr : ((pipeline serde blake3 capabilities).execute ctx).result = .ok r)
    (hstore : ∀ a ∈ ctx.artifacts.entries, a.isExternal → a.source ≠ "market_data")
    (fidelity : ReplayFidelity) {snapshot : Snapshot}
    (hsnapshot : snapshot = ((pipeline serde blake3 capabilities).execute ctx).snapshotAt fidelity
      r.snapshot.strategyVersions) {caps : List Capability}
    (hcaps : caps.Perm ((RecordedCapability.fromArtifacts snapshot.artifacts).map
      RecordedCapability.toCapability)) (newV4 : Uuid) (runMeta : RunMeta) :
    (snapshot.rebuild (deserialize serde) newV4 runMeta).map (fun c =>
      ((pipeline serde blake3 (CapabilitySet.new.registerAll caps)).execute c).result) =
      if ctx.input.baseCost.isFinite ∧ ctx.constraints.minMargin.isFinite ∧
          ctx.constraints.maxPrice.isFinite then
        some (.error (.strategyFailed "competitor_enrichment" (.capabilityError
          (CapabilityError.notFound "capability 'market_data' not registered").toString)))
      else none := by
  subst hsnapshot
  rw [rebuild_eq_ite (deserialize_input ctx.input) (deserialize_constraints ctx.constraints)]
  by_cases hfinite : ctx.input.baseCost.isFinite ∧ ctx.constraints.minMargin.isFinite ∧
      ctx.constraints.maxPrice.isFinite
  · rw [if_pos hfinite, if_pos hfinite]
    have hvalid : validateInput ctx.input = .ok () :=
      ((settles_pipeline serde blake3 capabilities ctx).disposed hr).1
    have hfetch : (CapabilitySet.new.registerAll caps).fetch "market_data"
        ("competitor." ++ ctx.input.materialId) =
          .error (.notFound "capability 'market_data' not registered") :=
      fetch_of_unrecorded (unrecorded hr hstore) hcaps _
    -- the replay is settled like any quote whose price is not answered
    let c : EvalContext (blockHBPricing serde) :=
      .new newV4 ctx.input ctx.constraints ctx.policy runMeta .replay
    refine congrArg some ((settles_pipeline serde blake3 (CapabilitySet.new.registerAll caps)
      c).result_of_unsettled ?_)
    simp only [settlement, c, EvalContext.new, hvalid, hfetch]
  · rw [if_neg hfinite, if_neg hfinite]
    rfl

end

/-! ### The quote of the example -/

namespace Sample

/-- The policy of the example. -/
def policy : PolicyBundle :=
  (((((((PolicyBundle.new 0 "blockhb-pricing-v1" "1.0.0").withValue
    "pricing.base_margin" (.float 0.25)).withValue
    "pricing.preferred_discount" (.float 0.05)).withValue
    "pricing.enterprise_discount" (.float 0.10)).withValue
    "pricing.scarcity_days" (.float 14.0)).withValue
    "pricing.excess_days" (.float 90.0)).withValue
    "pricing.review_threshold_margin" (.float 0.10)).withChangelog
    "Initial pricing policy for BlockHB materials"

/-- The context of the example, with the given inventory. -/
def context (currentInventory : UInt64) : EvalContext (blockHBPricing DarqEval.Sample.serde) :=
  .new 0 ⟨"BHB-2024-STEEL", 100.0, "preferred", currentInventory, 20⟩ ⟨0.05, 200.0⟩ policy
    (RunMeta.new 0 "blockhb.pricing" "BHB-2024-STEEL-001" "blockhb" "api" "Customer quote request")
    .live

/-- The pipeline of the example. -/
def quoter : EvalPipeline (blockHBPricing DarqEval.Sample.serde) :=
  pipeline DarqEval.Sample.serde DarqEval.Sample.blake3
    (CapabilitySet.new.register
      (marketDataCapability DarqEval.Sample.serde "1970-01-01T00:00:00+00:00"))

end Sample

/-- An inventory for ten days is reviewed for scarcity. -/
theorem scarcity_reviewed_ten :
    ∃ r, (Sample.quoter.execute (Sample.context 200)).result = .ok r ∧
      ∃ provisional reasons, r.disposition = some (.review provisional reasons) ∧
        ∃ reason ∈ reasons, reason.code = "SCARCITY" := by
  have hsettled : ∃ r, (Sample.quoter.execute (Sample.context 200)).result = .ok r ∧
      r.disposition = some (disposition DarqEval.Sample.serde Sample.policy
        (quoted Sample.policy (Sample.context 200).input) true) :=
    (settles_pipeline _ _ _ _).result_of_settled rfl
  obtain ⟨r, hr, -⟩ := hsettled
  refine ⟨r, hr, (scarcity_reviewed hr).1.mp ?_⟩
  rw [(recorded _ _ _ _ hr).1]
  exact mem_demandFindings.mpr (by decide)

/-- An inventory for 25 days is quoted as proposed. -/
theorem approved_as_proposed_ample :
    ∃ r, (Sample.quoter.execute (Sample.context 500)).result = .ok r ∧
      ∃ output : PricingOutput, r.disposition = some (.auto output) ∧
        ¬ output.unitPrice > (200.0 : F64) := by
  have hsettled : ∃ r, (Sample.quoter.execute (Sample.context 500)).result = .ok r ∧
      r.disposition = some (.auto (quoted Sample.policy (Sample.context 500).input)) :=
    (settles_pipeline _ _ _ _).result_of_settled rfl
  obtain ⟨r, hr, hdisp⟩ := hsettled
  exact ⟨r, hr, _, hdisp, ((approved_as_proposed hr (Or.inl hdisp)).2 hdisp).2.2.1⟩

/-- That quote is not replayed. -/
theorem requote_refused_ample :
    ∃ r, (Sample.quoter.execute (Sample.context 500)).result = .ok r ∧
      (r.snapshot.rebuild (deserialize DarqEval.Sample.serde) 1 (Sample.context 500).runMeta).map
        (fun c => ((pipeline DarqEval.Sample.serde DarqEval.Sample.blake3
          (CapabilitySet.new.registerAll ((RecordedCapability.fromArtifacts
            r.snapshot.artifacts).map RecordedCapability.toCapability))).execute c).result) =
        some (.error (.strategyFailed "competitor_enrichment" (.capabilityError
          (CapabilityError.notFound "capability 'market_data' not registered").toString))) := by
  have hsettled : ∃ r, (Sample.quoter.execute (Sample.context 500)).result = .ok r ∧
      r.disposition = some (.auto (quoted Sample.policy (Sample.context 500).input)) :=
    (settles_pipeline _ _ _ _).result_of_settled rfl
  obtain ⟨r, hr, -⟩ := hsettled
  refine ⟨r, hr, ?_⟩
  rw [requote_refused hr (fun a ha => absurd ha List.not_mem_nil) .exact (snapshot_eq hr)
    (List.Perm.refl _), if_pos (by decide)]

end DarqEval.Pricing
