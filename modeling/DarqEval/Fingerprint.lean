import DarqEval.Lib.Query
import DarqEval.PolicyJson

namespace DarqEval

open Lib

/-!
# Policy fingerprints

A policy is identified by a hash of its identifier, its version and its values as JSON.

* `canonicalBytes`, `fingerprint` — as the code has them;
* `PolicyBundle.Agree` — the same identifier and version, and values that agree;
* `agree_of_canonicalBytes` — what the bytes tell; `canonicalBytes_of_agree` — what they forget;
* `fingerprint_of_same` — the fingerprint depends on identifier, version and values alone;
* `separated_iff` — exactly which policies it tells apart.
-/

namespace PolicyBundle

/-- The values as a JSON map, collected into a `BTreeMap` first. -/
def valuesJson (kind : MapKind) (p : PolicyBundle) : List (String × Value) :=
  let sorted := p.values.iter.foldl (fun sorted e => insertSorted e.1 e.2 sorted) []
  kind.ofEntries (PolicyValue.toEntries kind sorted)

/-- The fields that are fingerprinted. -/
def fields (kind : MapKind) (p : PolicyBundle) : List (String × Value) :=
  [("id", .string p.id), ("version", .string p.version), ("values", .object (p.valuesJson kind))]

/-- Produce canonical bytes for fingerprinting.  `to_vec` of a value does not fail. -/
def canonicalBytes (serde : SerdeJson) (p : PolicyBundle) : List UInt8 :=
  toVec serde (.object (serde.mapKind.ofEntries (p.fields serde.mapKind)))

/-- Compute a blake3 fingerprint; `blake3` is the hash in hexadecimal. -/
def fingerprint (serde : SerdeJson) (blake3 : List UInt8 → String) (p : PolicyBundle) : String :=
  blake3 (p.canonicalBytes serde)

end PolicyBundle

/-- The same identifier and version, and values that agree. -/
structure PolicyBundle.Agree (rel : F64 → F64 → Prop) (p q : PolicyBundle) : Prop where
  id : p.id = q.id
  version : p.version = q.version
  values : ∀ k, Option.Rel (PolicyValue.Agree rel) (p.values.lookup k) (q.values.lookup k)

/-! ### The bytes of a policy -/

theorem HashMap.lookup_iter {α : Type} (m : HashMap String α) (k : String) :
    m.iter.lookup k = m.lookup k := by
  ext a
  rw [lookup_eq_some_iff_mem m.keys_iter, ← Option.mem_def, AList.mem_lookup_iff, HashMap.iter,
    List.mem_map]
  constructor
  · rintro ⟨e, he, heq⟩
    cases heq
    exact he
  · exact fun h => ⟨_, h, rfl⟩

namespace PolicyBundle

/-- The `BTreeMap` in front sorts the entries, and the library's map keeps them. -/
theorem valuesJson_eq (kind : MapKind) (p : PolicyBundle) :
    p.valuesJson kind = PolicyValue.toEntries kind (sortBy Prod.fst p.values.iter) := by
  unfold valuesJson
  rw [foldl_insertSorted p.values.keys_iter]
  apply kind.ofEntries_of_increasing
  unfold Increasing
  rw [PolicyValue.keys_toEntries]
  exact increasing_sortBy p.values.keys_iter

theorem valuesJson_perm (kind : MapKind) (p : PolicyBundle) :
    (p.valuesJson kind).Perm (PolicyValue.toEntries kind p.values.iter) := by
  rw [valuesJson_eq, PolicyValue.toEntries_eq_map, PolicyValue.toEntries_eq_map]
  exact (sortBy_perm Prod.fst p.values.iter).map _

theorem keys_fields (kind : MapKind) (p : PolicyBundle) :
    ((p.fields kind).map Prod.fst).Nodup := by
  show ["id", "version", "values"].Nodup
  decide

theorem wellFormed_fields (kind : MapKind) {p : PolicyBundle} (hp : p.WellFormed) :
    (Value.object (kind.ofEntries (p.fields kind))).WellFormed := by
  have hperm := kind.ofEntries_perm (p.keys_fields kind)
  have hvalues : (Value.object (p.valuesJson kind)).WellFormed := by
    have hentries := PolicyValue.wellFormed_toEntries kind p.values.keys_iter
      (fun e he => PolicyValue.wellFormed_toValue kind (hp e he))
    obtain ⟨hkeys, hwf⟩ := Value.wellFormed_object.mp hentries
    have hsame := (valuesJson_perm kind p).trans
      (PolicyValue.ofEntries_toEntries kind p.values.keys_iter).symm
    refine .object ((hsame.map Prod.fst).nodup_iff.mpr hkeys) ?_
    exact fun e he => hwf e (hsame.mem_iff.mp he)
  refine .object ((hperm.map Prod.fst).nodup_iff.mpr (p.keys_fields kind)) ?_
  intro e he
  have hmem := hperm.mem_iff.mp he
  simp only [fields, List.mem_cons, List.not_mem_nil, or_false] at hmem
  obtain rfl | rfl | rfl := hmem
  · exact .string _
  · exact .string _
  · exact hvalues

/-- Either kind of map holds each of the fields. -/
theorem fields_inj {kind : MapKind} {p q : PolicyBundle}
    (h : kind.ofEntries (p.fields kind) = kind.ofEntries (q.fields kind)) :
    p.id = q.id ∧ p.version = q.version ∧ p.valuesJson kind = q.valuesJson kind := by
  have hperm := kind.ofEntries_perm (p.keys_fields kind)
  rw [h] at hperm
  have hfields := hperm.symm.trans (kind.ofEntries_perm (q.keys_fields kind))
  have hlookup := lookup_eq_of_perm (p.keys_fields kind) hfields
  have hid : some (Value.string p.id) = some (Value.string q.id) := hlookup "id"
  have hversion : some (Value.string p.version) = some (Value.string q.version) :=
    hlookup "version"
  have hvalues : some (Value.object (p.valuesJson kind)) = some (.object (q.valuesJson kind)) :=
    hlookup "values"
  exact ⟨Value.string.inj (Option.some.inj hid), Value.string.inj (Option.some.inj hversion),
    Value.object.inj (Option.some.inj hvalues)⟩

/-- **What the bytes tell.** Policies with the same bytes agree, up to floats that are not
    finite. -/
theorem agree_of_canonicalBytes {serde : SerdeJson} (hserde : serde.Lawful) {p q : PolicyBundle}
    (hp : p.WellFormed) (hq : q.WellFormed)
    (h : p.canonicalBytes serde = q.canonicalBytes serde) : p.Agree F64.Conflated q := by
  have hfields := Value.object.inj (toVec_injective hserde (wellFormed_fields serde.mapKind hp)
    (wellFormed_fields serde.mapKind hq) h)
  obtain ⟨hid, hversion, hvalues⟩ := fields_inj hfields
  refine ⟨hid, hversion, fun k => ?_⟩
  have hperm : (PolicyValue.toEntries serde.mapKind p.values.iter).Perm
      (PolicyValue.toEntries serde.mapKind q.values.iter) := by
    have hleft := valuesJson_perm serde.mapKind p
    rw [hvalues] at hleft
    exact hleft.symm.trans (valuesJson_perm serde.mapKind q)
  rw [← HashMap.lookup_iter, ← HashMap.lookup_iter]
  exact PolicyValue.rel_lookup_of_perm p.values.keys_iter q.values.keys_iter hperm
    (fun e he e' he' heq => PolicyValue.agree_of_toValue (hp e he) (hq e' he') heq) k

/-- **What the bytes forget.** Policies that agree up to floats that are not finite have the same
    bytes. -/
theorem canonicalBytes_of_agree {serde : SerdeJson} (hkind : serde.mapKind = .bTreeMap)
    {p q : PolicyBundle} (hp : p.WellFormed) (hq : q.WellFormed) (h : p.Agree F64.Conflated q) :
    p.canonicalBytes serde = q.canonicalBytes serde := by
  have hrel : ∀ k, Option.Rel (PolicyValue.Agree F64.Conflated) (p.values.iter.lookup k)
      (q.values.iter.lookup k) := by
    intro k
    rw [HashMap.lookup_iter, HashMap.lookup_iter]
    exact h.values k
  have hperm := PolicyValue.perm_of_rel_lookup p.values.keys_iter q.values.keys_iter hrel
    (fun e he e' he' hab => PolicyValue.toValue_of_agree (hp e he) (hq e' he') hab)
  have hvalues : p.valuesJson .bTreeMap = q.valuesJson .bTreeMap := by
    have hkeys : ((PolicyValue.toEntries .bTreeMap p.values.iter).map Prod.fst).Nodup := by
      rw [PolicyValue.keys_toEntries]
      exact p.values.keys_iter
    have hsort := sortBy_eq_of_perm hperm hkeys
    rw [valuesJson_eq, valuesJson_eq]
    rw [PolicyValue.toEntries_eq_map, PolicyValue.toEntries_eq_map, sortBy_map, sortBy_map] at hsort
    rw [PolicyValue.toEntries_eq_map, PolicyValue.toEntries_eq_map]
    exact hsort
  unfold canonicalBytes fields
  rw [hkind, h.id, h.version, hvalues]

end PolicyBundle

/-! ### What the fingerprint depends on -/

theorem PolicyBundle.Agree.mono {rel rel' : F64 → F64 → Prop} (hrel : ∀ x y, rel x y → rel' x y)
    {p q : PolicyBundle} (h : p.Agree rel q) : p.Agree rel' q where
  id := h.id
  version := h.version
  values := fun k => optionRel_mono (h.values k) (fun _ _ _ _ huv => huv.mono hrel)

/-- The bundles the builder makes by the listed writes: commits and changelogs are set in between,
    and a map may change its iteration order at any time. -/
inductive PolicyBundle.Built (id version : String) :
    List (String × PolicyValue) → PolicyBundle → Prop
  | new (now : DateTime) : PolicyBundle.Built id version [] (.new now id version)
  | withValue {writes : List (String × PolicyValue)} {p : PolicyBundle} (key : String)
    (value : PolicyValue) : PolicyBundle.Built id version writes p →
      PolicyBundle.Built id version (writes ++ [(key, value)]) (p.withValue key value)
  | withCommit {writes : List (String × PolicyValue)} {p : PolicyBundle} (hash : String) :
    PolicyBundle.Built id version writes p →
      PolicyBundle.Built id version writes (p.withCommit hash)
  | withChangelog {writes : List (String × PolicyValue)} {p : PolicyBundle} (changelog : String) :
    PolicyBundle.Built id version writes p →
      PolicyBundle.Built id version writes (p.withChangelog changelog)
  | rehash {writes : List (String × PolicyValue)} {p : PolicyBundle}
    {values : HashMap String PolicyValue} : PolicyBundle.Built id version writes p →
      p.values.entries.Perm values.entries →
        PolicyBundle.Built id version writes { p with values := values }

namespace PolicyBundle.Built

variable {id version : String} {writes : List (String × PolicyValue)} {p : PolicyBundle}
  (h : PolicyBundle.Built id version writes p)

include h

theorem names_eq : p.id = id ∧ p.version = version := by
  induction h with
  | new now => exact ⟨rfl, rfl⟩
  | withValue _ _ _ ih | withCommit _ _ ih | withChangelog _ _ ih | rehash _ _ ih => exact ih

/-- **Run lemma.** A bundle holds the last write of every key. -/
theorem lookup_eq (k : String) :
    p.values.lookup k = (lastOf Prod.fst writes k).map Prod.snd := by
  induction h with
  | new now => exact AList.lookup_empty k
  | @withValue writes p key value _ ih =>
    show (p.values.insert key value).lookup k = _
    rw [lastOf_concat]
    by_cases hkey : key = k
    · rw [if_pos hkey, ← hkey, AList.lookup_insert]
      rfl
    · rw [if_neg hkey, AList.lookup_insert_ne (Ne.symm hkey), ih]
  | withCommit _ _ ih | withChangelog _ _ ih => exact ih
  | rehash _ hperm ih =>
    rw [← ih]
    exact (AList.perm_lookup hperm).symm

theorem wellFormed (hwrites : ∀ w ∈ writes, w.2.WellFormed) : p.WellFormed := by
  rintro ⟨k, v⟩ he
  have hlookup : p.values.lookup k = some v := by
    rw [← HashMap.lookup_iter]
    exact (lookup_eq_some_iff_mem p.values.keys_iter).mpr he
  rw [h.lookup_eq, Option.map_eq_some_iff] at hlookup
  obtain ⟨w, hw, rfl⟩ := hlookup
  exact hwrites w (mem_of_lastOf hw).1

end PolicyBundle.Built

/-- **What the fingerprint depends on.** Identifier, version and values alone: bundles in which
    these are the same, as finite maps at every depth, have the same bytes and fingerprint; and so
    have bundles built by writes of which the last ones are the same for every key. -/
theorem fingerprint_of_same {serde : SerdeJson} (hkind : serde.mapKind = .bTreeMap)
    (blake3 : List UInt8 → String) :
    (∀ p q : PolicyBundle, p.WellFormed → q.WellFormed → p.Agree F64.Same q →
      p.canonicalBytes serde = q.canonicalBytes serde ∧
        p.fingerprint serde blake3 = q.fingerprint serde blake3) ∧
    ∀ (id version : String) (writes writes' : List (String × PolicyValue)) (p q : PolicyBundle),
      (∀ w ∈ writes, w.2.WellFormed) → (∀ w ∈ writes', w.2.WellFormed) →
      PolicyBundle.Built id version writes p → PolicyBundle.Built id version writes' q →
      (∀ k, Option.Rel (PolicyValue.Agree F64.Same) ((lastOf Prod.fst writes k).map Prod.snd)
        ((lastOf Prod.fst writes' k).map Prod.snd)) →
      p.canonicalBytes serde = q.canonicalBytes serde ∧
        p.fingerprint serde blake3 = q.fingerprint serde blake3 := by
  have hsame : ∀ p q : PolicyBundle, p.WellFormed → q.WellFormed → p.Agree F64.Same q →
      p.canonicalBytes serde = q.canonicalBytes serde ∧
        p.fingerprint serde blake3 = q.fingerprint serde blake3 := by
    intro p q hp hq h
    have hbytes := PolicyBundle.canonicalBytes_of_agree hkind hp hq
      (h.mono (fun _ _ hxy => hxy.conflated))
    exact ⟨hbytes, congrArg blake3 hbytes⟩
  refine ⟨hsame, ?_⟩
  intro id version writes writes' p q hwrites hwrites' hp hq hlast
  refine hsame p q (hp.wellFormed hwrites) (hq.wellFormed hwrites') ⟨?_, ?_, fun k => ?_⟩
  · rw [hp.names_eq.1, hq.names_eq.1]
  · rw [hp.names_eq.2, hq.names_eq.2]
  · rw [hp.lookup_eq, hq.lookup_eq]
    exact hlast k

namespace Sample

/-- Rates by metal, and a flag; written once, with a commit. -/
def tariff : PolicyBundle :=
  (((PolicyBundle.new 0 "tariff" "1.0.0").withValue "rates"
    (.map [("steel", .int 4), ("iron", .int 3)])).withValue "strict" (.bool true)).withCommit "c0"

/-- The same rates in another iteration order; the flag is written first, and once more. -/
def tariffAgain : PolicyBundle :=
  (((PolicyBundle.new 1 "tariff" "1.0.0").withValue "strict" (.bool false)).withValue "rates"
    (.map [("iron", .int 3), ("steel", .int 4)])).withValue "strict" (.bool true)

theorem rates_wellFormed (k l : String) (m n : Int64) (hne : k ≠ l) :
    (PolicyValue.map [(k, .int m), (l, .int n)]).WellFormed := by
  refine .map (List.nodup_cons.mpr ⟨?_, List.nodup_singleton _⟩) ?_
  · exact fun h => hne (List.mem_singleton.mp h)
  · simp only [List.forall_mem_cons, List.not_mem_nil, false_implies, implies_true, and_true]
    exact ⟨.int m, .int n⟩

theorem rates_agree : PolicyValue.Agree F64.Same
    (.map [("steel", .int 4), ("iron", .int 3)]) (.map [("iron", .int 3), ("steel", .int 4)]) := by
  apply PolicyValue.Agree.map
  intro k
  by_cases hsteel : k = "steel"
  · subst hsteel
    exact .some (.int 4)
  · by_cases hiron : k = "iron"
    · subst hiron
      exact .some (.int 3)
    · simp only [List.lookup_cons, beq_eq_false_iff_ne.mpr hsteel, beq_eq_false_iff_ne.mpr hiron]
      exact .none

end Sample

/-- The two tariffs have one fingerprint. -/
theorem fingerprint_of_same_tariff :
    Sample.tariff.canonicalBytes Sample.serde = Sample.tariffAgain.canonicalBytes Sample.serde ∧
      Sample.tariff.fingerprint Sample.serde Sample.blake3 =
        Sample.tariffAgain.fingerprint Sample.serde Sample.blake3 := by
  refine (fingerprint_of_same rfl Sample.blake3).2 "tariff" "1.0.0"
    [("rates", .map [("steel", .int 4), ("iron", .int 3)]), ("strict", .bool true)]
    [("strict", .bool false), ("rates", .map [("iron", .int 3), ("steel", .int 4)]),
      ("strict", .bool true)] _ _ ?_ ?_ ?_ ?_ ?_
  · simp only [List.forall_mem_cons, List.not_mem_nil, false_implies, implies_true, and_true]
    exact ⟨Sample.rates_wellFormed _ _ _ _ (by decide), .bool true⟩
  · simp only [List.forall_mem_cons, List.not_mem_nil, false_implies, implies_true, and_true]
    exact ⟨.bool false, Sample.rates_wellFormed _ _ _ _ (by decide), .bool true⟩
  · exact .withCommit _ (.withValue _ _ (.withValue _ _ (.new _)))
  · exact .withValue _ _ (.withValue _ _ (.withValue _ _ (.new _)))
  · intro k
    by_cases hrates : k = "rates"
    · subst hrates
      exact .some Sample.rates_agree
    · by_cases hstrict : k = "strict"
      · subst hstrict
        exact .some (.bool true)
      · simp only [lastOf, List.foldl_cons, List.foldl_nil, Ne.symm hrates, Ne.symm hstrict,
          if_false]
        exact .none

/-! ### What the fingerprint tells apart -/

/-- Policies with the same bytes are the same. -/
def PolicyBundle.Separated (serde : SerdeJson) (p q : PolicyBundle) : Prop :=
  p.canonicalBytes serde = q.canonicalBytes serde → p.Agree F64.Same q

/-- The policies differ, but only by which floats stand where both have one that is not finite. -/
def PolicyBundle.DifferByNonFinite (p q : PolicyBundle) : Prop :=
  p.Agree F64.Conflated q ∧ ¬ p.Agree F64.Same q

/-- **When the fingerprint separates policies.** Exactly when they do not differ by floats that
    are not finite alone. -/
theorem separated_iff {serde : SerdeJson} (hserde : serde.Lawful)
    (hkind : serde.mapKind = .bTreeMap) {p q : PolicyBundle} (hp : p.WellFormed)
    (hq : q.WellFormed) : p.Separated serde q ↔ ¬ p.DifferByNonFinite q := by
  constructor
  · rintro hseparated ⟨hconflated, hdiffer⟩
    exact hdiffer (hseparated (PolicyBundle.canonicalBytes_of_agree hkind hp hq hconflated))
  · intro hnot hbytes
    by_contra hdiffer
    exact hnot ⟨PolicyBundle.agree_of_canonicalBytes hserde hp hq hbytes, hdiffer⟩

namespace Sample

/-- A policy with one value, a limit. -/
def limit (v : PolicyValue) : PolicyBundle :=
  (PolicyBundle.new 0 "policy" "1.0.0").withValue "limit" v

theorem lookup_limit (v : PolicyValue) : (limit v).values.lookup "limit" = some v :=
  AList.lookup_insert _

theorem limit_agree {rel : F64 → F64 → Prop} {u v : PolicyValue} :
    (limit u).Agree rel (limit v) ↔ u.Agree rel v := by
  constructor
  · intro h
    have hlimit := h.values "limit"
    rw [lookup_limit, lookup_limit] at hlimit
    cases hlimit with
    | some huv => exact huv
  · intro h
    refine ⟨rfl, rfl, fun k => ?_⟩
    by_cases hk : k = "limit"
    · rw [hk, lookup_limit, lookup_limit]
      exact .some h
    · show Option.Rel _ ((PolicyBundle.new 0 "policy" "1.0.0").values.insert "limit" u |>.lookup k)
        ((PolicyBundle.new 0 "policy" "1.0.0").values.insert "limit" v |>.lookup k)
      rw [AList.lookup_insert_ne hk, AList.lookup_insert_ne hk]
      exact .none

theorem limit_wellFormed {v : PolicyValue} (hv : v.WellFormed) : (limit v).WellFormed := by
  intro e he
  obtain rfl := List.mem_singleton.mp he
  exact hv

/-- A NaN, and positive infinity. -/
def nan : F64 := ⟨0x7FF8000000000000⟩
def infinity : F64 := ⟨0x7FF0000000000000⟩

end Sample

/-- Two limits are told apart: one as an integer, the other as a float. -/
theorem separated_limits :
    (Sample.limit (.int 1)).Separated Sample.serde (Sample.limit (.float Sample.infinity)) := by
  refine (separated_iff Sample.serde_lawful rfl (Sample.limit_wellFormed (.int 1))
    (Sample.limit_wellFormed (.float _))).mpr ?_
  rintro ⟨hconflated, -⟩
  cases Sample.limit_agree.mp hconflated

/-- A limit that is not a number has the bytes of an infinite one. -/
theorem separated_unlimited :
    ¬ (Sample.limit (.float Sample.nan)).Separated Sample.serde
      (Sample.limit (.float Sample.infinity)) := by
  intro hseparated
  have hconflated : PolicyValue.Agree F64.Conflated (.float Sample.nan)
      (.float Sample.infinity) := .float (Or.inr ⟨rfl, rfl⟩)
  have hkind : Sample.serde.mapKind = .bTreeMap := rfl
  have hbytes := PolicyBundle.canonicalBytes_of_agree hkind (Sample.limit_wellFormed (.float _))
    (Sample.limit_wellFormed (.float _)) (Sample.limit_agree.mpr hconflated)
  cases Sample.limit_agree.mp (hseparated hbytes) with
  | float hsame =>
    rcases hsame with heq | hnan
    · exact absurd heq (by decide)
    · exact absurd hnan.2 (by decide)

end DarqEval
