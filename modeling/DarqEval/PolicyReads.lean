import DarqEval.Blind
import DarqEval.Fingerprint

namespace DarqEval

open Lib

/-!
# Reading a policy

Strategies read a policy by key and type, with a default for what is missing or of another type.
The fingerprint pins what they read, and so what a run over them returns.

* `getAs_of_built` — a read of a built bundle gives the last write of its key;
* `PolicyBundle.SameReads` — every typed read gives the same;
* `sameReads_of_agree` — policies that agree read the same, unless they hold floats that are not
  finite;
* `execute_of_fingerprint` — under policies with one fingerprint, runs end alike.
-/

/-- Every typed read of the two bundles gives the same. -/
structure PolicyBundle.SameReads (p q : PolicyBundle) : Prop where
  getF64 : p.getF64 = q.getF64
  getBool : p.getBool = q.getBool
  getI64 : p.getI64 = q.getI64
  getText : p.getText = q.getText

/-- Every float that a read of the bundle may give is finite. -/
def PolicyBundle.FiniteReads (p : PolicyBundle) : Prop :=
  ∀ key x, p.get key = some (.float x) → x.isFinite = true

namespace PolicyBundle

/-- **The last write counts.** A read of a built bundle gives the content of the last write of its
    key, and the default if there is none or it is of another variant. -/
theorem getAs_of_built {α : Type} (content : PolicyValue → Option α) {id version : String}
    {writes : List (String × PolicyValue)} {p : PolicyBundle}
    (h : PolicyBundle.Built id version writes p) (key : String) (default : α) :
    getAs content p key default =
      ((lastOf Prod.fst writes key).bind (fun w => content w.2)).getD default := by
  rw [getAs, h.lookup_eq, Option.bind_map]
  rfl

/-- Reads look at the values of a bundle one by one. -/
theorem getAs_congr {α : Type} {content : PolicyValue → Option α} {p q : PolicyBundle}
    {rel : F64 → F64 → Prop} (h : p.Agree rel q)
    (hcontent : ∀ key u v, p.get key = some u → u.Agree rel v → content u = content v) :
    getAs content p = getAs content q := by
  funext key default
  have hvalue := h.values key
  unfold getAs
  cases hp : p.values.lookup key with
  | none =>
    rw [hp] at hvalue
    cases hq : q.values.lookup key with
    | none => rfl
    | some v =>
      rw [hq] at hvalue
      cases hvalue
  | some u =>
    rw [hp] at hvalue
    cases hq : q.values.lookup key with
    | none =>
      rw [hq] at hvalue
      cases hvalue
    | some v =>
      rw [hq] at hvalue
      cases hvalue with
      | some huv => rw [Option.bind_some, Option.bind_some, hcontent key u v hp huv]

/-- Policies that agree up to floats that are not finite read the same if there are none. -/
theorem sameReads_of_agree {p q : PolicyBundle} (h : p.Agree F64.Conflated q)
    (hfinite : p.FiniteReads) : p.SameReads q where
  getF64 := by
    refine getAs_congr h (fun key u v hu huv => ?_)
    cases huv with
    | @float x y hxy =>
      rcases hxy with rfl | ⟨hx, -⟩
      · rfl
      · -- a finite float is conflated with itself only
        rw [hfinite key x hu] at hx
        cases hx
    | _ => rfl
  getBool := getAs_congr h (fun _ _ _ _ huv => by cases huv <;> rfl)
  getI64 := getAs_congr h (fun _ _ _ _ huv => by cases huv <;> rfl)
  getText := getAs_congr h (fun _ _ _ _ huv => by cases huv <;> rfl)

end PolicyBundle

/-! ### Runs under policies that read the same -/

variable {D : Decision}

/-- The contexts differ at most in their policies, which read the same. -/
structure SamePolicyReads (c c' : EvalContext D) : Prop where
  context : c' = { c with policy := c'.policy }
  policy : c.policy.SameReads c'.policy

theorem unseen_policy : Unseen (D := D) SamePolicyReads where
  input h := by rw [h.context]
  constraints h := by rw [h.context]
  merge := by
    intro c c' xs h
    refine ⟨?_, h.policy⟩
    rw [h.context]
    rfl
  childContext := by
    intro c c' newV4 h
    refine ⟨?_, h.policy⟩
    rw [h.context]
    rfl

/-- **The fingerprint pins the decision.** Leaves that know the policy by its typed reads only make
    a tree, its sub-pipelines drawing the same identifiers, execute alike under policies with the
    same fingerprint, unless the hash takes their bytes for one another or a read gives a float
    that is not finite. -/
theorem execute_of_fingerprint {serde : SerdeJson} (hserde : serde.Lawful)
    {blake3 : List UInt8 → String} {t : PipelineTree D}
    (ht : ∀ u ∈ t.children, u.BlindTo SamePolicyReads) {ctx : EvalContext D} {q : PolicyBundle}
    (hpolicy : ctx.policy.WellFormed) (hq : q.WellFormed) (hfinite : ctx.policy.FiniteReads)
    (hcollision : Set.InjOn blake3 {ctx.policy.canonicalBytes serde, q.canonicalBytes serde})
    (h : ctx.policy.fingerprint serde blake3 = q.fingerprint serde blake3) :
    (t.execute ctx).Alike (t.execute { ctx with policy := q }) := by
  have hbytes : ctx.policy.canonicalBytes serde = q.canonicalBytes serde :=
    hcollision (Set.mem_insert _ _) (Set.mem_insert_of_mem _ rfl) h
  have hagree := PolicyBundle.agree_of_canonicalBytes hserde hpolicy hq hbytes
  have hreads := PolicyBundle.sameReads_of_agree hagree hfinite
  exact execute_blind unseen_policy ht ⟨rfl, hreads⟩ rfl

namespace Sample

/-- A decider that approves of the limit the policy sets. -/
def limiter : EvalStrategy decision where
  id := "limiter"
  version := ⟨1, 0, 0⟩
  phase := .decide
  priority := 0
  evaluate := fun ctx _ =>
    .ok ⟨[], [], [], [], .finalize (.auto (ctx.policy.getI64 "limit" 0).toInt.toNat)⟩

theorem limiter_blind : limiter.BlindTo SamePolicyReads := by
  intro c c' _ h
  simp only [limiter, h.policy.getI64]

end Sample

/-- A nested limiter does not notice that the policy was annotated. -/
theorem execute_of_fingerprint_annotated :
    ((Sample.tree [Sample.sub "inner" [.leaf Sample.limiter]]).execute
      { Sample.context with policy := Sample.limit (.int 3) }).Alike
    ((Sample.tree [Sample.sub "inner" [.leaf Sample.limiter]]).execute
      { Sample.context with policy := (Sample.limit (.int 3)).withChangelog "approved" }) := by
  have hblind : ∀ u ∈ (Sample.tree [Sample.sub "inner" [.leaf Sample.limiter]]).children,
      u.BlindTo SamePolicyReads := by
    intro u hu
    obtain rfl := List.mem_singleton.mp hu
    refine .sub (fun w hw => ?_)
    obtain rfl := List.mem_singleton.mp hw
    exact .leaf Sample.limiter_blind
  have hfinite : (Sample.limit (.int 3)).FiniteReads := by
    intro key x hx
    by_cases hkey : key = "limit"
    · rw [PolicyBundle.get, hkey, Sample.lookup_limit] at hx
      cases hx
    · have hnone : (Sample.limit (.int 3)).values.lookup key = none := AList.lookup_insert_ne hkey
      rw [PolicyBundle.get, hnone] at hx
      cases hx
  exact execute_of_fingerprint Sample.serde_lawful hblind (Sample.limit_wellFormed (.int 3))
    (Sample.limit_wellFormed (.int 3)) hfinite Sample.blake3_injective.injOn rfl

end DarqEval
