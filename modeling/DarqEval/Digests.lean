import DarqEval.Canonical
import DarqEval.Merge

namespace DarqEval

open Lib

/-!
# Comparing runs by digests

The digest is a field of an artifact, set by the constructors and copied through every merge.  If
the leaves of two runs build their artifacts with the constructors, the digests in the two stores
tell whether the values are the same.

* `entries_invariant` — what holds of the initial artifacts and of those the leaves emit holds of
  all artifacts of the final store;
* `Artifact.Genuine` — built by a constructor from a well-formed value;
* `digests_eq_iff` — two runs leave the same digests exactly if they leave the same values.
-/

variable {D : Decision}

/-- The initial artifacts and all that the leaves of the run emit are of a kind. -/
structure PipelineTree.Deals (P : Artifact → Prop) (t : PipelineTree D) (ctx : EvalContext D) :
    Prop where
  initial : ∀ a ∈ ctx.artifacts.entries, P a
  emitted : ∀ ℓ ∈ t.leaves ctx, ∀ patch, ℓ.visit.out = .ok patch → ∀ a ∈ patch.artifacts, P a

/-- **Invariant.** Whatever a run returns, the artifacts it leaves are of that kind. -/
theorem entries_invariant {P : Artifact → Prop} {t : PipelineTree D} {ctx : EvalContext D}
    (h : t.Deals P ctx) : ∀ a ∈ (t.execute ctx).ctx.artifacts.entries, P a := by
  intro a ha
  rw [PipelineTree.execute, EvalPipeline.execute_ctx, EvalContext.merge_artifacts,
    ArtifactStore.entries_appendAll, EvalPipeline.newArtifacts,
    patches_flatMap handedOn_artifacts] at ha
  rcases List.mem_append.mp ha with ha | ha
  · exact h.initial a ha
  · obtain ⟨patch, hpatch, ha⟩ := List.mem_flatMap.mp ha
    obtain ⟨ℓ, hℓ, hout⟩ := List.mem_flatMap.mp hpatch
    exact h.emitted ℓ (List.mem_of_mem_filter hℓ) patch (mem_patchOf.mp hout) a ha

/-- The artifact was built by a constructor, from a value whose objects have distinct keys. -/
structure Artifact.Genuine (serde : SerdeJson) (blake3 : List UInt8 → String) (a : Artifact) :
    Prop where
  constructed : a.Constructed serde blake3
  wellFormed : a.value.WellFormed

section Genuine

variable {serde : SerdeJson} {blake3 : List UInt8 → String}

/-- The artifacts are the same but for the order of keys in their values, as far as values go. -/
def SameValues (as bs : List Artifact) : Prop :=
  List.Forall₂ (fun a b : Artifact => a.value.Same b.value) as bs

/-- Genuine artifacts have the same digests exactly if they have the same values, unless the hash
    takes their bytes for one another. -/
theorem map_digest_eq_iff (hserde : serde.Lawful) {as bs : List Artifact}
    (has : ∀ a ∈ as, a.Genuine serde blake3) (hbs : ∀ b ∈ bs, b.Genuine serde blake3)
    (hcollision : Set.InjOn blake3 {bytes | ∃ a ∈ as ++ bs, bytes = canonicalJsonBytes serde a.value}) :
    as.map Artifact.digest = bs.map Artifact.digest ↔ SameValues as bs := by
  have hpair : ∀ a ∈ as, ∀ b ∈ bs, a.digest = b.digest ↔ a.value.Same b.value := by
    intro a ha b hb
    rw [(has a ha).constructed.digest_eq, (hbs b hb).constructed.digest_eq,
      ← canonicalJsonBytes_eq_iff hserde (has a ha).wellFormed (hbs b hb).wellFormed]
    refine ⟨fun h => hcollision ?_ ?_ h, congrArg blake3⟩
    · exact ⟨a, List.mem_append_left bs ha, rfl⟩
    · exact ⟨b, List.mem_append_right as hb, rfl⟩
  constructor
  · exact fun h => forall₂_of_map_eq h (fun a ha b hb => (hpair a ha b hb).mp)
  · exact fun h => map_eq_of_forall₂ h (fun a ha b hb => (hpair a ha b hb).mpr)

/-- **Runs are compared by digests.** Take two runs of any trees, on any contexts, over genuine
    artifacts: every artifact left carries the digest of its value, and the digests of the two
    snapshots are equal, one by one, exactly if the values are the same up to the order of keys,
    unless the hash takes their bytes for one another. -/
theorem digests_eq_iff {D' : Decision} (hserde : serde.Lawful) {t : PipelineTree D}
    {t' : PipelineTree D'} {ctx : EvalContext D} {ctx' : EvalContext D'}
    (h : t.Deals (Artifact.Genuine serde blake3) ctx)
    (h' : t'.Deals (Artifact.Genuine serde blake3) ctx') :
    (∀ a ∈ (t.execute ctx).ctx.artifacts.entries, a.digest = computeDigest serde blake3 a.value) ∧
    ∀ r r', (t.execute ctx).result = .ok r → (t'.execute ctx').result = .ok r' →
      Set.InjOn blake3 {bytes | ∃ a ∈ r.snapshot.artifacts ++ r'.snapshot.artifacts,
        bytes = canonicalJsonBytes serde a.value} →
      (r.snapshot.artifacts.map Artifact.digest = r'.snapshot.artifacts.map Artifact.digest ↔
        SameValues r.snapshot.artifacts r'.snapshot.artifacts) := by
  have hleft := entries_invariant h
  have hleft' := entries_invariant h'
  refine ⟨fun a ha => (hleft a ha).constructed.digest_eq, fun r r' hr hr' hcollision => ?_⟩
  -- the snapshot of a run holds the store the run leaves
  obtain ⟨-, rfl⟩ := EvalPipeline.execute_eq_ok.mp hr
  obtain ⟨-, rfl⟩ := EvalPipeline.execute_eq_ok.mp hr'
  rw [PipelineTree.execute, EvalPipeline.execute_ctx] at hleft hleft'
  exact map_digest_eq_iff hserde hleft hleft' hcollision

end Genuine

namespace Sample

/-- An enricher that quotes the given metals. -/
def quoter (prices : List (String × UInt64)) : EvalStrategy decision where
  id := "enricher"
  version := ⟨1, 0, 0⟩
  phase := .enrich
  priority := 0
  evaluate := fun _ _ => .ok ⟨[quote prices], [], [], [], .continue⟩

theorem quote_genuine {k l : String} (hne : k ≠ l) (m n : UInt64) :
    (quote [(k, m), (l, n)]).Genuine serde blake3 :=
  ⟨.new _ _ _ _ _, Value.wellFormed_pair hne (.number trivial) (.number trivial)⟩

/-- The quotes of an enricher in a sub-pipeline. -/
def nestedQuotes (k l : String) (m n : UInt64) : PipelineTree decision :=
  tree [sub "inner" [.leaf (quoter [(k, m), (l, n)])]]

theorem nestedQuotes_deals {k l : String} (hne : k ≠ l) (m n : UInt64) :
    (nestedQuotes k l m n).Deals (Artifact.Genuine serde blake3) context where
  initial a ha := absurd ha List.not_mem_nil
  emitted ℓ hℓ patch hout a ha := by
    obtain rfl := List.mem_singleton.mp hℓ
    obtain rfl := Except.ok.inj hout
    rw [List.mem_singleton.mp ha]
    exact quote_genuine hne m n

end Sample

/-- Two nested enrichers that quote the same metals in another order leave the same digests. -/
theorem digests_eq_iff_quotes :
    ((Sample.nestedQuotes "steel" "iron" 4 3).pipeline.summary
        Sample.context).snapshot.artifacts.map Artifact.digest =
      ((Sample.nestedQuotes "iron" "steel" 3 4).pipeline.summary
        Sample.context).snapshot.artifacts.map Artifact.digest := by
  refine ((digests_eq_iff Sample.serde_lawful (Sample.nestedQuotes_deals (by decide) 4 3)
    (Sample.nestedQuotes_deals (by decide) 3 4)).2 _ _ (EvalPipeline.execute_eq_ok.mpr ⟨rfl, rfl⟩)
    (EvalPipeline.execute_eq_ok.mpr ⟨rfl, rfl⟩) Sample.blake3_injective.injOn).mpr ?_
  refine .cons (.object (List.Perm.swap _ _ _) rfl ?_) .nil
  exact .cons (.number _) (.cons (.number _) .nil)

end DarqEval
