import DarqEval.Canonical
import DarqEval.Floats
import DarqEval.Replays
import DarqEval.Settlement

namespace DarqEval.Payout

open Lib

/-!
# Artist payouts

A decision made with the crate: an artist asks for a payout of what streaming has earned, which is
approved, passed on for review or denied.

* `darqRecordsPayout` — the decision; `ledgerEnrichment`, `eligibilityChecker`, `payoutDecider` —
  its strategies; `buildPipeline` — its pipeline;
* `disposition` — what becomes of a request; `execute_payout` — a run settles it;
* `critical_denied`, `approved_bounds`, `isNan_approved`, `execute_strictness` — what that means
  for a request;
* `replay_refused` — the recorded capabilities do not answer the payout's fetch.
-/

/-! ### The decision -/

structure PayoutInput where
  artistId : String
  requestedAmount : F64
  totalStreams : UInt64
  walletAddress : String

structure PayoutOutput where
  payoutAmount : F64
  artistId : String
  walletAddress : String
  earnedAmount : F64

structure PayoutConstraints where
  maxSinglePayout : F64

def validateInput (input : PayoutInput) : Except ValidationError Unit :=
  if input.artistId.isEmpty then .error (.missingField "artist_id")
  else if input.requestedAmount ≤ 0.0 then
    .error (.invalidInput "requested_amount must be positive" (some "requested_amount"))
  else if input.walletAddress.isEmpty then .error (.missingField "wallet_address")
  else .ok ()

def validateOutput (output : PayoutOutput) (constraints : PayoutConstraints) :
    Except ValidationError Unit :=
  if output.payoutAmount > constraints.maxSinglePayout then
    .error (.constraintViolation
      ("payout $" ++ output.payoutAmount.fixed 2 ++ " exceeds max single payout $" ++
        constraints.maxSinglePayout.fixed 2)
      (some "max_single_payout"))
  else .ok ()

section

variable (serde : SerdeJson) (blake3 : List UInt8 → String)

/-- The payout decision, with the `Serialize` implementations derived for its data. -/
abbrev darqRecordsPayout : Decision where
  kind := "darq_records.payout"
  Input := PayoutInput
  Output := PayoutOutput
  Constraints := PayoutConstraints
  validateInput := validateInput
  validateOutput := validateOutput
  inputToValue := fun input => some (.object (serde.mapKind.ofEntries
    [("artist_id", .string input.artistId),
      ("requested_amount", .ofF64 input.requestedAmount),
      ("total_streams", .number (.posInt input.totalStreams)),
      ("wallet_address", .string input.walletAddress)]))
  constraintsToValue := fun constraints => some (.object (serde.mapKind.ofEntries
    [("max_single_payout", .ofF64 constraints.maxSinglePayout)]))

/-- The `Deserialize` implementations derived for them. -/
def deserialize : Deserialize (darqRecordsPayout serde) where
  input := fun value =>
    match value.fields ["artist_id", "requested_amount", "total_streams", "wallet_address"] with
    | some [artistId, requestedAmount, totalStreams, walletAddress] => do
      return ⟨← artistId.asString, ← requestedAmount.asF64, ← totalStreams.asU64,
        ← walletAddress.asString⟩
    | _ => none
  constraints := fun value =>
    match value.fields ["max_single_payout"] with
    | some [maxSinglePayout] => do return ⟨← maxSinglePayout.asF64⟩
    | _ => none

/-! ### The strategies -/

/-- What the ledger enrichment returns for a fetched balance. -/
def ledgerPatch (result : CapabilityResult) : StrategyPatch (darqRecordsPayout serde) where
  artifacts := [.newExternal serde blake3 "payout.ledger_balance.v1" result.value
    "ledger_enrichment" "1.0.0" "v1"]
  findings := []
  proposals := []
  explanations :=
    [{ source := "ledger_enrichment"
       kind := .enrichment
       detail := "Fetched XRPL wallet balance"
       artifactRefs := ["payout.ledger_balance.v1"]
       policyRefs := [] }]
  control := .continue

/-- Enrich phase: fetch XRPL balance via capability. -/
def ledgerEnrichment : EvalStrategy (darqRecordsPayout serde) where
  id := "ledger_enrichment"
  version := ⟨1, 0, 0⟩
  phase := .enrich
  priority := 0
  evaluate := fun ctx capabilities =>
    match capabilities.fetch "xrpl_balance" (PayoutInput.walletAddress ctx.input) with
    | .error e => .error (.capabilityError e.toString)
    | .ok result => .ok (ledgerPatch serde blake3 result)

/-- The rate a policy sets for a stream. -/
def perStreamRate (policy : PolicyBundle) : F64 := policy.getF64 "payout.per_stream_rate" 0.004

/-- What the streams of a request have earned. -/
def earnedAmount (policy : PolicyBundle) (input : PayoutInput) : F64 :=
  .ofU64 input.totalStreams * perStreamRate policy

/-- The findings of the eligibility checker. -/
def eligibilityFindings (policy : PolicyBundle) (input : PayoutInput) : List Finding :=
  -- `as u64` of an `i64` keeps its bits
  let minStreams := (policy.getI64 "payout.min_streams" 100).toUInt64
  let minAmount := policy.getF64 "payout.min_amount" 1.0
  let earnedAmount := earnedAmount policy input
  (if input.totalStreams < minStreams then
    [{ source := "eligibility_checker"
       severity := .warning
       code := "BELOW_MIN_STREAMS"
       message := "Artist has " ++ input.totalStreams.toNat.repr ++ " streams, below minimum " ++
         minStreams.toNat.repr ++ " for payout"
       artifactRefs := [] }]
  else []) ++
  (if input.requestedAmount < minAmount then
    [{ source := "eligibility_checker"
       severity := .warning
       code := "BELOW_MIN_AMOUNT"
       message := "Requested $" ++ input.requestedAmount.fixed 2 ++ " below minimum payout $" ++
         minAmount.fixed 2
       artifactRefs := [] }]
  else []) ++
  (if input.requestedAmount > earnedAmount then
    [{ source := "eligibility_checker"
       severity := .critical
       code := "EXCEEDS_EARNED"
       message := "Requested $" ++ input.requestedAmount.fixed 2 ++ " exceeds earned $" ++
         earnedAmount.fixed 2
       artifactRefs := ["payout.eligibility.v1"] }]
  else [])

/-- The entries of the eligibility checker's `json!` object. -/
def eligibilityEntries (policy : PolicyBundle) (input : PayoutInput) : List (String × Value) :=
  let minStreams := (policy.getI64 "payout.min_streams" 100).toUInt64
  let minAmount := policy.getF64 "payout.min_amount" 1.0
  [("earned_amount", .ofF64 (earnedAmount policy input)),
    ("total_streams", .number (.posInt input.totalStreams)),
    ("per_stream_rate", .ofF64 (perStreamRate policy)),
    ("requested_amount", .ofF64 input.requestedAmount),
    ("eligible", .bool (input.totalStreams ≥ minStreams && input.requestedAmount ≥ minAmount))]

/-- The artifact of the eligibility checker. -/
def eligibility (policy : PolicyBundle) (input : PayoutInput) : Artifact :=
  .new serde blake3 "payout.eligibility.v1"
    (.object (serde.mapKind.ofEntries (eligibilityEntries policy input)))
    "eligibility_checker" "1.0.0" "v1"

/-- What the eligibility checker returns. -/
def eligibilityPatch (policy : PolicyBundle) (input : PayoutInput) :
    StrategyPatch (darqRecordsPayout serde) where
  artifacts := [eligibility serde blake3 policy input]
  findings := eligibilityFindings policy input
  proposals := []
  explanations :=
    [{ source := "eligibility_checker"
       kind := .ruleMatched
       detail := "Earned $" ++ (earnedAmount policy input).fixed 2 ++ " from " ++
         input.totalStreams.toNat.repr ++ " streams at $" ++ (perStreamRate policy).display ++
         "/stream"
       artifactRefs := ["payout.eligibility.v1"]
       policyRefs := ["payout.min_streams", "payout.per_stream_rate"] }]
  control := .continue

/-- Evaluate phase: check eligibility and compute earned amount. -/
def eligibilityChecker : EvalStrategy (darqRecordsPayout serde) where
  id := "eligibility_checker"
  version := ⟨1, 0, 0⟩
  phase := .evaluate
  priority := 0
  evaluate := fun ctx _capabilities => .ok (eligibilityPatch serde blake3 ctx.policy ctx.input)

/-- The largest amount a policy has approved without review. -/
def autoApproveMax (policy : PolicyBundle) : F64 := policy.getF64 "payout.auto_approve_max" 50.0

/-- The disposition of a request, given what it is read to have earned. -/
def disposition (policy : PolicyBundle) (input : PayoutInput) (earnedAmount : F64) :
    DecisionDisposition (darqRecordsPayout serde) :=
  let autoApproveMax := autoApproveMax policy
  let output : PayoutOutput :=
    ⟨input.requestedAmount, input.artistId, input.walletAddress, earnedAmount⟩
  if input.requestedAmount > earnedAmount then
    -- Deny: exceeds earned
    .deny
      [{ code := "EXCEEDS_EARNED"
         message := "Requested $" ++ input.requestedAmount.fixed 2 ++ " exceeds earned $" ++
           earnedAmount.fixed 2 }]
  else if input.requestedAmount > autoApproveMax then
    -- Review: exceeds auto-approve threshold
    .review (some output)
      [{ code := "EXCEEDS_AUTO_APPROVE"
         message := "Payout $" ++ input.requestedAmount.fixed 2 ++
           " exceeds auto-approve threshold $" ++ autoApproveMax.fixed 2 }]
  else
    -- Auto-approve
    .auto output

/-- What the decider returns, given what a request is read to have earned. -/
def decisionPatch (policy : PolicyBundle) (input : PayoutInput) (earnedAmount : F64) :
    StrategyPatch (darqRecordsPayout serde) where
  artifacts := []
  findings := []
  proposals := []
  explanations :=
    [{ source := "payout_decider"
       kind := .ruleMatched
       detail := "Payout decision: requested=$" ++ input.requestedAmount.fixed 2 ++ ", earned=$" ++
         earnedAmount.fixed 2 ++ ", auto_max=$" ++ (autoApproveMax policy).fixed 2
       artifactRefs := ["payout.eligibility.v1"]
       policyRefs := ["payout.auto_approve_max"] }]
  control := .finalize (disposition serde policy input earnedAmount)

/-- Decide phase: approve, review, or deny payout. -/
def payoutDecider : EvalStrategy (darqRecordsPayout serde) where
  id := "payout_decider"
  version := ⟨1, 0, 0⟩
  phase := .decide
  priority := 0
  evaluate := fun ctx _capabilities =>
    match ctx.artifacts.getRequired "payout.eligibility.v1" with
    | .error e => .error (.missingArtifact e.toString)
    | .ok eligibility =>
      let earnedAmount := ((eligibility.value.index "earned_amount").asF64).getD 0.0
      .ok (decisionPatch serde ctx.policy ctx.input earnedAmount)

/-! ### The pipeline -/

/-- The simulated capability; `now` is the RFC 3339 text of the current time. -/
def xrplBalanceCapability (now : String) (balance : F64) : Capability where
  name := "xrpl_balance"
  fetch := fun key => .ok ⟨.object (serde.mapKind.ofEntries
    [("address", .string key), ("balance_xrp", .ofF64 balance), ("fetched_at", .string now)])⟩

def buildPolicy (now : DateTime) : PolicyBundle :=
  (((((PolicyBundle.new now "darq-records-payout-v1" "1.0.0").withValue
    "payout.min_streams" (.int 100)).withValue
    "payout.min_amount" (.float 1.0)).withValue
    "payout.per_stream_rate" (.float 0.004)).withValue
    "payout.auto_approve_max" (.float 50.0))

/-- The pipeline with the given capabilities. -/
def pipeline (capabilities : CapabilitySet) : EvalPipeline (darqRecordsPayout serde) :=
  ((((EvalPipeline.new _ "darq_records_payout_v1").addStrategy
    (ledgerEnrichment serde blake3)).addStrategy
    (eligibilityChecker serde blake3)).addStrategy
    (payoutDecider serde)).withCapabilities capabilities

def buildPipeline (now : String) (balance : F64) : EvalPipeline (darqRecordsPayout serde) :=
  pipeline serde blake3 (CapabilitySet.new.register (xrplBalanceCapability serde now balance))

/-! ### What the strategies return -/

/-- What the decider reads a request to have earned. -/
def reportedEarned (policy : PolicyBundle) (input : PayoutInput) : F64 :=
  (earnedAmount policy input).reread

theorem index_eligibility (policy : PolicyBundle) (input : PayoutInput) :
    (((eligibility serde blake3 policy input).value.index "earned_amount").asF64).getD 0.0 =
      reportedEarned policy input := by
  have hkeys : ((eligibilityEntries policy input).map Prod.fst).Nodup := by
    simp [eligibilityEntries]
  have hlookup : (eligibilityEntries policy input).lookup "earned_amount" =
      some (.ofF64 (earnedAmount policy input)) := rfl
  rw [eligibility, Artifact.new, Value.index_ofEntries _ hkeys, hlookup, Option.getD_some,
    Value.getD_asF64_ofF64, reportedEarned]

/-- Behind the checker, the decider reads the checker's artifact, whatever the store held before. -/
theorem payoutDecider_eq {ctx : EvalContext (darqRecordsPayout serde)} (capabilities : CapabilitySet)
    {artifacts : ArtifactStore}
    (h : ctx.artifacts = artifacts.append (eligibility serde blake3 ctx.policy ctx.input)) :
    (payoutDecider serde).evaluate ctx capabilities =
      .ok (decisionPatch serde ctx.policy ctx.input (reportedEarned ctx.policy ctx.input)) := by
  have hlatest : ctx.artifacts.getLatest "payout.eligibility.v1" =
      some (eligibility serde blake3 ctx.policy ctx.input) := by
    rw [h]
    simp [ArtifactStore.getLatest, eligibility, Artifact.new]
  simp only [payoutDecider, ArtifactStore.getRequired, hlatest]
  rw [index_eligibility]

/-! ### The run -/

section Run

variable {serde blake3} {capabilities : CapabilitySet} {ctx : EvalContext (darqRecordsPayout serde)}
  (hinput : validateInput ctx.input = .ok ())

theorem order_pipeline (capabilities : CapabilitySet) :
    (pipeline serde blake3 capabilities).order =
      [ledgerEnrichment serde blake3, eligibilityChecker serde blake3, payoutDecider serde] := rfl

include hinput

/-- Without a balance the run stops at the first strategy. -/
theorem visits_of_error {e : CapabilityError}
    (hfetch : capabilities.fetch "xrpl_balance" ctx.input.walletAddress = .error e) :
    (pipeline serde blake3 capabilities).visits ctx =
      [⟨ledgerEnrichment serde blake3, ctx, .error (.capabilityError e.toString),
        [eligibilityChecker serde blake3, payoutDecider serde]⟩] := by
  have hout : (ledgerEnrichment serde blake3).evaluate ctx capabilities =
      .error (.capabilityError e.toString) := by
    simp only [ledgerEnrichment, hfetch]
  rw [visits_of_valid hinput, order_pipeline]
  exact visits_of_stopping hout rfl

variable (blake3) in
/-- With a balance it evaluates all three. -/
theorem visits_of_balance {result : CapabilityResult}
    (hfetch : capabilities.fetch "xrpl_balance" ctx.input.walletAddress = .ok result) :
    ∃ c₁ c₂, (pipeline serde blake3 capabilities).visits ctx =
      [⟨ledgerEnrichment serde blake3, ctx, .ok (ledgerPatch serde blake3 result),
        [eligibilityChecker serde blake3, payoutDecider serde]⟩,
      ⟨eligibilityChecker serde blake3, c₁, .ok (eligibilityPatch serde blake3 ctx.policy ctx.input),
        [payoutDecider serde]⟩,
      ⟨payoutDecider serde, c₂, .ok (decisionPatch serde ctx.policy ctx.input
        (reportedEarned ctx.policy ctx.input)), []⟩] := by
  have hledger : (ledgerEnrichment serde blake3).evaluate ctx capabilities =
      .ok (ledgerPatch serde blake3 result) := by
    simp only [ledgerEnrichment, hfetch]
  let c₁ := ctx.merge (ledgerPatch serde blake3 result).artifacts
  let c₂ := c₁.merge (eligibilityPatch serde blake3 ctx.policy ctx.input).artifacts
  have hchecker : (eligibilityChecker serde blake3).evaluate c₁ capabilities =
      .ok (eligibilityPatch serde blake3 ctx.policy ctx.input) := rfl
  have hdecider : (payoutDecider serde).evaluate c₂ capabilities =
      .ok (decisionPatch serde ctx.policy ctx.input (reportedEarned ctx.policy ctx.input)) :=
    payoutDecider_eq serde blake3 capabilities rfl
  refine ⟨c₁, c₂, ?_⟩
  rw [visits_of_valid hinput, order_pipeline, visits_of_continue hledger rfl,
    visits_of_continue hchecker rfl, visits_of_stopping hdecider rfl]

end Run

/-! ### What becomes of a request -/

variable (capabilities : CapabilitySet) (ctx : EvalContext (darqRecordsPayout serde))

theorem settles_pipeline :
    Settles (pipeline serde blake3 capabilities) ctx "ledger_enrichment"
      (capabilities.fetch "xrpl_balance" ctx.input.walletAddress)
      (disposition serde ctx.policy ctx.input (reportedEarned ctx.policy ctx.input)) where
  enforceConstraints := rfl
  unanswered hinput e he := by
    rw [visits_of_error hinput he]
    rfl
  answered hinput answer hanswer := by
    obtain ⟨c₁, c₂, hvisits⟩ := visits_of_balance blake3 hinput hanswer
    rw [EvalPipeline.disposition, hvisits]
    exact ⟨rfl, rfl⟩

private theorem recorded {r : EvalResult (darqRecordsPayout serde)}
    (hr : ((pipeline serde blake3 capabilities).execute ctx).result = .ok r) :
    r.findings = eligibilityFindings ctx.policy ctx.input ∧
      ∃ answer, capabilities.fetch "xrpl_balance" ctx.input.walletAddress = .ok answer ∧
        r.artifacts = ctx.artifacts.appendAll
          [.newExternal serde blake3 "payout.ledger_balance.v1" answer.value "ledger_enrichment"
            "1.0.0" "v1",
          eligibility serde blake3 ctx.policy ctx.input] := by
  obtain ⟨hinput, ⟨answer, hanswer⟩, -, -⟩ :=
    (settles_pipeline serde blake3 capabilities ctx).disposed hr
  obtain ⟨-, rfl⟩ := EvalPipeline.execute_eq_ok.mp hr
  obtain ⟨c₁, c₂, hvisits⟩ := visits_of_balance blake3 hinput hanswer
  refine ⟨?_, answer, hanswer, ?_⟩
  · rw [EvalPipeline.summary, hvisits]
    exact List.append_nil _
  · rw [EvalPipeline.summary, EvalPipeline.newArtifacts, hvisits]
    rfl

/-- **A run settles its request.** Whatever the store held before, a run returns the settlement of
    the request; a result has the findings of the eligibility checker, and the ledger's answer and
    the checker's calculation as the only new artifacts. -/
theorem execute_payout :
    ((pipeline serde blake3 capabilities).execute ctx).result.map EvalResult.disposition =
      (settlement ctx "ledger_enrichment"
        (capabilities.fetch "xrpl_balance" ctx.input.walletAddress)
        (disposition serde ctx.policy ctx.input (reportedEarned ctx.policy ctx.input))).map some ∧
    ∀ r, ((pipeline serde blake3 capabilities).execute ctx).result = .ok r →
      r.findings = eligibilityFindings ctx.policy ctx.input ∧
      ∃ answer, capabilities.fetch "xrpl_balance" ctx.input.walletAddress = .ok answer ∧
        r.artifacts = ctx.artifacts.appendAll
          [.newExternal serde blake3 "payout.ledger_balance.v1" answer.value "ledger_enrichment"
            "1.0.0" "v1",
          eligibility serde blake3 ctx.policy ctx.input] :=
  ⟨(settles_pipeline serde blake3 capabilities ctx).result_eq,
    fun _ hr => recorded serde blake3 capabilities ctx hr⟩

/-! ### What that means for a request -/

variable {serde blake3 capabilities ctx}

theorem mem_eligibilityFindings {policy : PolicyBundle} {input : PayoutInput} :
    (∃ f ∈ eligibilityFindings policy input, f.severity = .critical) ↔
      input.requestedAmount > earnedAmount policy input := by
  unfold eligibilityFindings
  by_cases h : input.requestedAmount > earnedAmount policy input
  · refine ⟨fun _ => h, fun _ => ?_⟩
    simp only [if_pos h]
    exact ⟨_, List.mem_append_right _ (List.mem_singleton_self _), rfl⟩
  · -- the other findings are warnings
    simp only [h, if_false, iff_false, List.append_nil]
    rintro ⟨f, hf, hcritical⟩
    rcases List.mem_append.mp hf with hf | hf
    · split at hf
      · rw [List.mem_singleton.mp hf] at hcritical
        cases hcritical
      · cases hf
    · split at hf
      · rw [List.mem_singleton.mp hf] at hcritical
        cases hcritical
      · cases hf

theorem validateInput_positive {input : PayoutInput} (h : validateInput input = .ok ()) :
    ¬ input.requestedAmount ≤ 0.0 := by
  unfold validateInput at h
  intro hle
  by_cases hartist : input.artistId.isEmpty = true
  · rw [if_pos hartist] at h
    cases h
  · rw [if_neg hartist, if_pos hle] at h
    cases h

/-- A valid request that exceeds what it earned exceeds what it is read to have earned. -/
theorem exceeds_reported {policy : PolicyBundle} {input : PayoutInput}
    (hinput : validateInput input = .ok ()) (h : input.requestedAmount > earnedAmount policy input) :
    input.requestedAmount > reportedEarned policy input := by
  unfold reportedEarned F64.reread
  by_cases hfinite : (earnedAmount policy input).isFinite = true
  · rw [if_pos hfinite]
    exact h
  · rw [if_neg hfinite]
    -- what is compared is no NaN, and what is valid is not below zero
    have hnan : input.requestedAmount.isNan = false := by
      by_contra hnan
      exact F64.not_lt_of_isNan (Or.inr (eq_true_of_ne_false hnan)) h
    exact F64.lt_of_not_le hnan rfl (validateInput_positive hinput)

/-- **A critical finding denies.** A request the checker finds to exceed what it earned is denied;
    and a request is denied for no other reason, unless what it earned is not a finite number. -/
theorem critical_denied {r : EvalResult (darqRecordsPayout serde)}
    (hr : ((pipeline serde blake3 capabilities).execute ctx).result = .ok r) :
    ((∃ f ∈ r.findings, f.severity = .critical) → ∃ reasons, r.disposition = some (.deny reasons)) ∧
    ((∃ reasons, r.disposition = some (.deny reasons)) →
      (∃ f ∈ r.findings, f.severity = .critical) ∨
        (earnedAmount ctx.policy ctx.input).isFinite = false) := by
  obtain ⟨hinput, -, hdisp, -⟩ := (settles_pipeline serde blake3 capabilities ctx).disposed hr
  rw [(recorded serde blake3 capabilities ctx hr).1, mem_eligibilityFindings, hdisp]
  refine ⟨fun hexceeds => ?_, fun ⟨reasons, hdeny⟩ => ?_⟩
  · unfold disposition
    rw [if_pos (exceeds_reported hinput hexceeds)]
    exact ⟨_, rfl⟩
  · by_cases hfinite : (earnedAmount ctx.policy ctx.input).isFinite = true
    · left
      by_contra hnot
      unfold disposition reportedEarned at hdeny
      rw [F64.reread_of_isFinite hfinite, if_neg hnot] at hdeny
      split at hdeny <;> cases hdeny
    · exact Or.inr (eq_false_of_ne_true hfinite)

/-- **Bounds of an approval.** -/
theorem approved_bounds {r : EvalResult (darqRecordsPayout serde)}
    (hr : ((pipeline serde blake3 capabilities).execute ctx).result = .ok r) {output : PayoutOutput}
    (houtput : r.disposition = some (.auto output)) :
    output = ⟨ctx.input.requestedAmount, ctx.input.artistId, ctx.input.walletAddress,
        reportedEarned ctx.policy ctx.input⟩ ∧
      (∀ f ∈ r.findings, f.severity ≠ .critical) ∧
      (output.payoutAmount.isNan = false →
        output.payoutAmount ≤ output.earnedAmount ∧
        ((autoApproveMax ctx.policy).isNan = false →
          output.payoutAmount ≤ autoApproveMax ctx.policy) ∧
        (ctx.constraints.maxSinglePayout.isNan = false →
          output.payoutAmount ≤ ctx.constraints.maxSinglePayout)) := by
  obtain ⟨hinput, -, hdisp, hvalid⟩ :=
    (settles_pipeline serde blake3 capabilities ctx).disposed hr
  rw [hdisp, Option.some.injEq] at houtput
  have hmax : validateOutput output ctx.constraints = .ok () := hvalid output houtput
  unfold disposition at houtput
  by_cases hexceeds : ctx.input.requestedAmount > reportedEarned ctx.policy ctx.input
  · rw [if_pos hexceeds] at houtput
    cases houtput
  by_cases hreview : ctx.input.requestedAmount > autoApproveMax ctx.policy
  · rw [if_neg hexceeds, if_pos hreview] at houtput
    cases houtput
  rw [if_neg hexceeds, if_neg hreview] at houtput
  obtain rfl := DecisionDisposition.auto.inj houtput
  refine ⟨rfl, fun f hf hcritical => ?_, fun hnan => ⟨?_, fun hauto => ?_, fun hbound => ?_⟩⟩
  · rw [(recorded serde blake3 capabilities ctx hr).1] at hf
    exact hexceeds (exceeds_reported hinput (mem_eligibilityFindings.mp ⟨f, hf, hcritical⟩))
  · exact F64.le_of_not_lt (F64.isNan_reread _) hnan hexceeds
  · exact F64.le_of_not_lt hauto hnan hreview
  · refine F64.le_of_not_lt hbound hnan (fun hlt => ?_)
    rw [validateOutput, if_pos hlt] at hmax
    cases hmax

/-- **A NaN is approved.** -/
theorem isNan_approved (hnan : ctx.input.requestedAmount.isNan = true)
    (hartist : ctx.input.artistId ≠ "") (hwallet : ctx.input.walletAddress ≠ "")
    {answer : CapabilityResult}
    (hfetch : capabilities.fetch "xrpl_balance" ctx.input.walletAddress = .ok answer) :
    ∃ r, ((pipeline serde blake3 capabilities).execute ctx).result = .ok r ∧
      r.disposition = some (.auto ⟨ctx.input.requestedAmount, ctx.input.artistId,
        ctx.input.walletAddress, reportedEarned ctx.policy ctx.input⟩) := by
  have hle : ¬ ctx.input.requestedAmount ≤ 0.0 := F64.not_le_of_isNan (Or.inl hnan)
  have hlt : ∀ x, ¬ ctx.input.requestedAmount > x := fun x => F64.not_lt_of_isNan (Or.inr hnan)
  have hinput : validateInput ctx.input = .ok () := by
    unfold validateInput
    rw [if_neg (by simpa using hartist), if_neg hle, if_neg (by simpa using hwallet)]
  have hdisp : disposition serde ctx.policy ctx.input (reportedEarned ctx.policy ctx.input) =
      .auto ⟨ctx.input.requestedAmount, ctx.input.artistId, ctx.input.walletAddress,
        reportedEarned ctx.policy ctx.input⟩ := by
    unfold disposition
    rw [if_neg (hlt _), if_neg (hlt _)]
  apply (settles_pipeline serde blake3 capabilities ctx).result_of_settled
  simp only [settlement, hinput, hfetch, hdisp, validateOutput, if_neg (hlt _)]

/-! ### Larger and smaller payouts -/

/-- Approval, review, denial. -/
def strictness : DecisionDisposition (darqRecordsPayout serde) → Nat
  | .auto _ => 0
  | .review _ _ => 1
  | .deny _ => 2

section Larger

variable {policy policy' : PolicyBundle} {input input' : PayoutInput}
  (hamount : input.requestedAmount ≤ input'.requestedAmount)
  (hearned : reportedEarned policy' input' ≤ reportedEarned policy input)
  (hmax : autoApproveMax policy = autoApproveMax policy' ∨
    autoApproveMax policy' ≤ autoApproveMax policy)

include hamount hearned hmax

/-- Asking for more of less, under a lower threshold, is disposed of at least as strictly. -/
theorem strictness_mono :
    strictness (disposition serde policy input (reportedEarned policy input)) ≤
      strictness (disposition serde policy' input' (reportedEarned policy' input')) := by
  unfold disposition
  by_cases hexceeds : input.requestedAmount > reportedEarned policy input
  · -- what exceeds the larger earnings exceeds the smaller ones
    have hexceeds' : input'.requestedAmount > reportedEarned policy' input' :=
      F64.lt_of_lt_of_le (F64.lt_of_le_of_lt hearned hexceeds) hamount
    simp only [if_pos hexceeds, if_pos hexceeds', strictness, le_refl]
  · rw [if_neg hexceeds]
    by_cases hreview : input.requestedAmount > autoApproveMax policy
    · have hreview' : input'.requestedAmount > autoApproveMax policy' := by
        rcases hmax with heq | hle
        · rw [← heq]
          exact F64.lt_of_lt_of_le hreview hamount
        · exact F64.lt_of_lt_of_le (F64.lt_of_le_of_lt hle hreview) hamount
      by_cases hexceeds' : input'.requestedAmount > reportedEarned policy' input'
      · simp only [if_pos hreview, if_pos hexceeds', strictness, Nat.one_le_ofNat]
      · simp only [if_pos hreview, if_neg hexceeds', if_pos hreview', strictness, le_refl]
    · simp only [if_neg hreview, strictness, Nat.zero_le]

end Larger

/-- **Larger payouts are disposed of more strictly.** Of two requests, that for the larger amount, by
    an artist who earned no more and under a threshold that is no higher, is not reviewed if the
    other one is denied, and not approved if the other one is reviewed or denied. -/
theorem execute_strictness {capabilities' : CapabilitySet}
    {ctx' : EvalContext (darqRecordsPayout serde)} {r r' : EvalResult (darqRecordsPayout serde)}
    (hr : ((pipeline serde blake3 capabilities).execute ctx).result = .ok r)
    (hr' : ((pipeline serde blake3 capabilities').execute ctx').result = .ok r')
    (hamount : ctx.input.requestedAmount ≤ ctx'.input.requestedAmount)
    (hearned : reportedEarned ctx'.policy ctx'.input ≤ reportedEarned ctx.policy ctx.input)
    (hmax : autoApproveMax ctx.policy = autoApproveMax ctx'.policy ∨
      autoApproveMax ctx'.policy ≤ autoApproveMax ctx.policy) :
    ∃ disp disp', r.disposition = some disp ∧ r'.disposition = some disp' ∧
      strictness disp ≤ strictness disp' := by
  obtain ⟨-, -, hdisp, -⟩ := (settles_pipeline serde blake3 capabilities ctx).disposed hr
  obtain ⟨-, -, hdisp', -⟩ := (settles_pipeline serde blake3 capabilities' ctx').disposed hr'
  exact ⟨_, _, hdisp, hdisp', strictness_mono hamount hearned hmax⟩

/-! ### Replaying a payout -/

/-- The request is read back from a snapshot if its amount is finite. -/
theorem deserialize_input (input : PayoutInput) :
    (deserialize serde).input (((darqRecordsPayout serde).inputToValue input).getD default) =
      if input.requestedAmount.isFinite then some input else none := by
  have hnames : ["artist_id", "requested_amount", "total_streams", "wallet_address"].Nodup := by
    decide
  simp only [deserialize, Option.getD_some]
  rw [Value.fields_ofEntries serde.mapKind hnames (by rfl)]
  simp only [List.map_cons, List.map_nil, Value.asF64_ofF64]
  split <;> rfl

theorem deserialize_constraints (constraints : PayoutConstraints) :
    (deserialize serde).constraints
        (((darqRecordsPayout serde).constraintsToValue constraints).getD default) =
      if constraints.maxSinglePayout.isFinite then some constraints else none := by
  have hnames : ["max_single_payout"].Nodup := by decide
  simp only [deserialize, Option.getD_some]
  rw [Value.fields_ofEntries serde.mapKind hnames (by rfl)]
  simp only [List.map_cons, List.map_nil, Value.asF64_ofF64]
  split <;> rfl

/-- A run stores the ledger's answer under the strategy's name. -/
theorem unrecorded {r : EvalResult (darqRecordsPayout serde)}
    (hr : ((pipeline serde blake3 capabilities).execute ctx).result = .ok r)
    (hstore : ∀ a ∈ ctx.artifacts.entries, a.isExternal → a.source ≠ "xrpl_balance") :
    ∀ a ∈ ((pipeline serde blake3 capabilities).execute ctx).ctx.artifacts.entries,
      a.isExternal → a.source ≠ "xrpl_balance" := by
  obtain ⟨-, answer, -, hartifacts⟩ := recorded serde blake3 capabilities ctx hr
  have hleft : ((pipeline serde blake3 capabilities).execute ctx).ctx.artifacts = r.artifacts := by
    obtain ⟨-, rfl⟩ := EvalPipeline.execute_eq_ok.mp hr
    rw [EvalPipeline.execute_ctx]
    rfl
  rw [hleft, hartifacts, ArtifactStore.entries_appendAll]
  intro a ha hexternal
  rcases List.mem_append.mp ha with ha | ha
  · exact hstore a ha hexternal
  · rcases List.mem_cons.mp ha with rfl | ha
    · exact fun hsource => absurd hsource (by decide : "ledger_enrichment" ≠ "xrpl_balance")
    · obtain rfl := List.mem_singleton.mp ha
      cases hexternal

/-- **No payout is replayed.** The ledger's answer is stored under the strategy's name and the
    artifact's key, but fetched by the capability's name and the wallet: with the capabilities
    recorded from a snapshot of a run, the context rebuilt from it fails.  If an amount is not
    finite, there is no such context. -/
theorem replay_refused {r : EvalResult (darqRecordsPayout serde)}
    (hr : ((pipeline serde blake3 capabilities).execute ctx).result = .ok r)
    (hstore : ∀ a ∈ ctx.artifacts.entries, a.isExternal → a.source ≠ "xrpl_balance")
    (fidelity : ReplayFidelity) {snapshot : Snapshot}
    (hsnapshot : snapshot = ((pipeline serde blake3 capabilities).execute ctx).snapshotAt fidelity
      r.snapshot.strategyVersions) {caps : List Capability}
    (hcaps : caps.Perm ((RecordedCapability.fromArtifacts snapshot.artifacts).map
      RecordedCapability.toCapability)) (newV4 : Uuid) (runMeta : RunMeta) :
    (snapshot.rebuild (deserialize serde) newV4 runMeta).map (fun c =>
      ((pipeline serde blake3 (CapabilitySet.new.registerAll caps)).execute c).result) =
      if ctx.input.requestedAmount.isFinite ∧ ctx.constraints.maxSinglePayout.isFinite then
        some (.error (.strategyFailed "ledger_enrichment" (.capabilityError
          (CapabilityError.notFound "capability 'xrpl_balance' not registered").toString)))
      else none := by
  subst hsnapshot
  rw [rebuild_eq_ite (deserialize_input ctx.input) (deserialize_constraints ctx.constraints)]
  by_cases hfinite : ctx.input.requestedAmount.isFinite ∧ ctx.constraints.maxSinglePayout.isFinite
  · rw [if_pos hfinite, if_pos hfinite]
    have hvalid : validateInput ctx.input = .ok () :=
      ((settles_pipeline serde blake3 capabilities ctx).disposed hr).1
    have hfetch : (CapabilitySet.new.registerAll caps).fetch "xrpl_balance"
        ctx.input.walletAddress = .error (.notFound "capability 'xrpl_balance' not registered") :=
      fetch_of_unrecorded (unrecorded hr hstore) hcaps ctx.input.walletAddress
    -- the replay is settled like any payout whose balance is not answered
    let c : EvalContext (darqRecordsPayout serde) :=
      .new newV4 ctx.input ctx.constraints ctx.policy runMeta .replay
    refine congrArg some ((settles_pipeline serde blake3 (CapabilitySet.new.registerAll caps)
      c).result_of_unsettled ?_)
    simp only [settlement, c, EvalContext.new, hvalid, hfetch]
  · rw [if_neg hfinite, if_neg hfinite]
    rfl

end

/-! ### The scenarios -/

namespace Sample

/-- The request of an artist with the wallet of the scenarios. -/
def request (requestedAmount : F64) (totalStreams : UInt64) : PayoutInput :=
  ⟨"artist_001", requestedAmount, totalStreams, "rDARQ1337xrpl..."⟩

/-- The context of a scenario. -/
def context (input : PayoutInput) : EvalContext (darqRecordsPayout DarqEval.Sample.serde) :=
  .new 0 input ⟨1000.0⟩ (buildPolicy 0)
    (RunMeta.new 0 "darq_records.payout" ("payout-" ++ input.artistId) "darq_records" "api"
      "Artist payout request") .live

/-- The pipeline of the scenarios. -/
def scenario : EvalPipeline (darqRecordsPayout DarqEval.Sample.serde) :=
  buildPipeline DarqEval.Sample.serde DarqEval.Sample.blake3 "1970-01-01T00:00:00+00:00" 500.0

/-- What a scenario disposes of its request, if nothing is wrong with it. -/
def disposed (input : PayoutInput) : DecisionDisposition (darqRecordsPayout DarqEval.Sample.serde) :=
  disposition DarqEval.Sample.serde (buildPolicy 0) input (reportedEarned (buildPolicy 0) input)

end Sample

/-- The payout that exceeds what it earned is denied. -/
theorem critical_denied_exceeding :
    ∃ r, (Sample.scenario.execute (Sample.context (Sample.request 500.0 1000))).result = .ok r ∧
      ∃ reasons, r.disposition = some (.deny reasons) := by
  have hsettled : ∃ r, (Sample.scenario.execute
      (Sample.context (Sample.request 500.0 1000))).result = .ok r ∧
      r.disposition = some (Sample.disposed (Sample.request 500.0 1000)) :=
    (settles_pipeline _ _ _ _).result_of_settled rfl
  obtain ⟨r, hr, -⟩ := hsettled
  have hcritical : ∃ f ∈ r.findings, f.severity = .critical := by
    rw [(recorded _ _ _ _ hr).1]
    exact mem_eligibilityFindings.mpr (by decide)
  exact ⟨r, hr, (critical_denied hr).1 hcritical⟩

/-- The small payout is approved within its bounds. -/
theorem approved_bounds_small :
    ∃ r, (Sample.scenario.execute (Sample.context (Sample.request 25.0 10000))).result = .ok r ∧
      (25.0 : F64) ≤ .ofU64 10000 * 0.004 ∧ (25.0 : F64) ≤ 50.0 ∧ (25.0 : F64) ≤ 1000.0 := by
  have hsettled : ∃ r, (Sample.scenario.execute
      (Sample.context (Sample.request 25.0 10000))).result = .ok r ∧
      r.disposition = some (.auto ⟨25.0, "artist_001", "rDARQ1337xrpl...",
        .ofU64 10000 * 0.004⟩) :=
    (settles_pipeline _ _ _ _).result_of_settled rfl
  obtain ⟨r, hr, hdisp⟩ := hsettled
  obtain ⟨hearned, hauto, hmax⟩ := (approved_bounds hr hdisp).2.2 rfl
  exact ⟨r, hr, hearned, hauto rfl, hmax rfl⟩

/-- A payout of a NaN is approved. -/
theorem isNan_approved_quiet :
    ∃ r, (Sample.scenario.execute
      (Sample.context (Sample.request ⟨0x7FF8000000000000⟩ 0))).result = .ok r ∧
      r.disposition = some (.auto ⟨⟨0x7FF8000000000000⟩, "artist_001", "rDARQ1337xrpl...",
        reportedEarned (buildPolicy 0) (Sample.request ⟨0x7FF8000000000000⟩ 0)⟩) :=
  isNan_approved rfl (by decide) (by decide) rfl

/-- The same artist's larger request is not disposed of more leniently than the small one. -/
theorem execute_strictness_small :
    ∃ r r', (Sample.scenario.execute (Sample.context (Sample.request 25.0 10000))).result = .ok r ∧
      (Sample.scenario.execute (Sample.context (Sample.request 500.0 10000))).result = .ok r' ∧
      ∃ disp disp', r.disposition = some disp ∧ r'.disposition = some disp' ∧
        strictness disp ≤ strictness disp' := by
  have hsmall : ∃ r, (Sample.scenario.execute
      (Sample.context (Sample.request 25.0 10000))).result = .ok r ∧
      r.disposition = some (Sample.disposed (Sample.request 25.0 10000)) :=
    (settles_pipeline _ _ _ _).result_of_settled rfl
  have hlarge : ∃ r, (Sample.scenario.execute
      (Sample.context (Sample.request 500.0 10000))).result = .ok r ∧
      r.disposition = some (Sample.disposed (Sample.request 500.0 10000)) :=
    (settles_pipeline _ _ _ _).result_of_settled rfl
  obtain ⟨r, hr, -⟩ := hsmall
  obtain ⟨r', hr', -⟩ := hlarge
  have hamount : (25.0 : F64) ≤ 500.0 := by decide
  have hearned : reportedEarned (buildPolicy 0) (Sample.request 500.0 10000) ≤
      reportedEarned (buildPolicy 0) (Sample.request 25.0 10000) := by decide
  exact ⟨r, r', hr, hr', execute_strictness hr hr' hamount hearned (Or.inl rfl)⟩

/-- The small payout is not replayed. -/
theorem replay_refused_small :
    ∃ r, (Sample.scenario.execute (Sample.context (Sample.request 25.0 10000))).result = .ok r ∧
      (r.snapshot.rebuild (deserialize DarqEval.Sample.serde) 1
        (Sample.context (Sample.request 25.0 10000)).runMeta).map (fun c =>
          ((pipeline DarqEval.Sample.serde DarqEval.Sample.blake3 (CapabilitySet.new.registerAll
            ((RecordedCapability.fromArtifacts r.snapshot.artifacts).map
              RecordedCapability.toCapability))).execute c).result) =
        some (.error (.strategyFailed "ledger_enrichment" (.capabilityError
          (CapabilityError.notFound "capability 'xrpl_balance' not registered").toString))) := by
  have hsettled : ∃ r, (Sample.scenario.execute
      (Sample.context (Sample.request 25.0 10000))).result = .ok r ∧
      r.disposition = some (Sample.disposed (Sample.request 25.0 10000)) :=
    (settles_pipeline _ _ _ _).result_of_settled rfl
  obtain ⟨r, hr, -⟩ := hsettled
  refine ⟨r, hr, ?_⟩
  rw [replay_refused hr (fun a ha => absurd ha List.not_mem_nil) .exact (snapshot_eq hr)
    (List.Perm.refl _), if_pos (by decide)]

end DarqEval.Payout
