import DarqEval.Artifact
import DarqEval.Json

namespace DarqEval

open Lib

/-!
# Canonical JSON and digests

Artifacts are addressed by a digest of their value, for which the keys of every object are
sorted: at the top by a `BTreeMap`, below it by inserting the sorted keys into a new
`serde_json::Map`.

* `canonicalize`, `canonicalJsonBytes`, `computeDigest`, `Artifact.new` — as the code has them;
* `canonicalize_object` — the entries of a canonical object are sorted by their keys;
* `canonicalJsonBytes_eq` — the two ways of sorting agree;
* `Value.Same` — the same value, up to the order of keys at every depth;
* `canonicalize_eq_iff` — values are canonicalized alike exactly if they are the same;
* `digest_complete` — the canonical bytes, and the digests, tell values exactly up to that.
-/

mutual

/-- Recursively canonicalize a JSON value (sort object keys at every level). -/
def canonicalize (kind : MapKind) : Value → Value
  | .object map =>
    -- `canonicalize(&map[k])` for every key `k`
    let canonical := canonicalizeEntries kind map
    let keys := sortBy id (map.map Prod.fst)
    .object (keys.foldl (fun sorted k => kind.insert k ((canonical.lookup k).getD default) sorted)
      [])
  | .array arr => .array (canonicalizeItems kind arr)
  | other => other

def canonicalizeItems (kind : MapKind) : List Value → List Value
  | [] => []
  | v :: arr => canonicalize kind v :: canonicalizeItems kind arr

def canonicalizeEntries (kind : MapKind) : List (String × Value) → List (String × Value)
  | [] => []
  | (k, v) :: map => (k, canonicalize kind v) :: canonicalizeEntries kind map

end

/-- Recursively sort all object keys and produce canonical JSON bytes.  `to_vec` of a value does
    not fail. -/
def canonicalJsonBytes (serde : SerdeJson) : Value → List UInt8
  | .object map =>
    -- a `BTreeMap` over the keys
    mapToVec serde (map.foldl
      (fun sorted e => insertSorted e.1 (canonicalize serde.mapKind e.2) sorted) [])
  | .array arr => seqToVec serde (arr.map (canonicalize serde.mapKind))
  | other => toVec serde other

/-- Compute a blake3 digest of a JSON value; `blake3` is the hash in hexadecimal. -/
def computeDigest (serde : SerdeJson) (blake3 : List UInt8 → String) (value : Value) : String :=
  blake3 (canonicalJsonBytes serde value)

namespace Artifact

variable (serde : SerdeJson) (blake3 : List UInt8 → String)

/-- Create a new artifact with a canonical blake3 digest. -/
def new (key : String) (value : Value) (source sourceVersion schemaVersion : String) :
    Artifact where
  key := key
  value := value
  source := source
  sourceVersion := sourceVersion
  schemaVersion := schemaVersion
  digest := computeDigest serde blake3 value
  replayClass := .deterministic

/-- Create a new artifact marked as external. -/
def newExternal (key : String) (value : Value) (source sourceVersion schemaVersion : String) :
    Artifact :=
  { new serde blake3 key value source sourceVersion schemaVersion with replayClass := .external }

/-- Create a new artifact marked as derived. -/
def newDerived (key : String) (value : Value) (source sourceVersion schemaVersion : String) :
    Artifact :=
  { new serde blake3 key value source sourceVersion schemaVersion with replayClass := .derived }

/-- Set the replay class on this artifact. -/
def withReplayClass (artifact : Artifact) (replayClass : ReplayClass) : Artifact :=
  { artifact with replayClass := replayClass }

/-- The artifacts the constructors build. -/
inductive Constructed : Artifact → Prop
  | new (key : String) (value : Value) (source sourceVersion schemaVersion : String) :
    Constructed (new serde blake3 key value source sourceVersion schemaVersion)
  | newExternal (key : String) (value : Value) (source sourceVersion schemaVersion : String) :
    Constructed (newExternal serde blake3 key value source sourceVersion schemaVersion)
  | newDerived (key : String) (value : Value) (source sourceVersion schemaVersion : String) :
    Constructed (newDerived serde blake3 key value source sourceVersion schemaVersion)
  | withReplayClass {artifact : Artifact} (replayClass : ReplayClass) :
    Constructed artifact → Constructed (artifact.withReplayClass replayClass)

variable {serde blake3}

/-- **Invariant.** A constructed artifact carries the digest of its value. -/
theorem Constructed.digest_eq {artifact : Artifact} (h : Constructed serde blake3 artifact) :
    artifact.digest = computeDigest serde blake3 artifact.value := by
  induction h with
  | new | newExternal | newDerived => rfl
  | withReplayClass replayClass _ ih => exact ih

end Artifact

/-! ### Canonical values -/

/-- The entry with its value canonicalized. -/
def canonicalEntry (kind : MapKind) (e : String × Value) : String × Value :=
  (e.1, canonicalize kind e.2)

theorem canonicalizeItems_eq_map (kind : MapKind) (arr : List Value) :
    canonicalizeItems kind arr = arr.map (canonicalize kind) := by
  induction arr with
  | nil => rfl
  | cons v arr ih => rw [canonicalizeItems, ih, List.map_cons]

theorem canonicalizeEntries_eq_map (kind : MapKind) (map : List (String × Value)) :
    canonicalizeEntries kind map = map.map (canonicalEntry kind) := by
  induction map with
  | nil => rfl
  | cons e map ih => rw [canonicalizeEntries, ih, List.map_cons, canonicalEntry]

theorem keys_canonicalEntry (kind : MapKind) (map : List (String × Value)) :
    (map.map (canonicalEntry kind)).map Prod.fst = map.map Prod.fst := by
  rw [List.map_map]
  rfl

theorem canonicalize_array (kind : MapKind) (arr : List Value) :
    canonicalize kind (.array arr) = .array (arr.map (canonicalize kind)) := by
  rw [canonicalize, canonicalizeItems_eq_map]

/-- A canonical object has its entries, canonicalized, by increasing keys. -/
theorem canonicalize_object (kind : MapKind) {map : List (String × Value)}
    (hkeys : (map.map Prod.fst).Nodup) :
    canonicalize kind (.object map) =
      .object (sortBy Prod.fst (map.map (canonicalEntry kind))) := by
  have hnodup : ((map.map (canonicalEntry kind)).map Prod.fst).Nodup := by
    rw [keys_canonicalEntry]
    exact hkeys
  have hentries := map_lookup_sortBy hnodup default
  rw [keys_canonicalEntry] at hentries
  rw [canonicalize, canonicalizeEntries_eq_map]
  congr 1
  -- the loop over the keys inserts the sorted entries one after another
  have hloop := kind.ofEntries_of_increasing (increasing_sortBy hnodup)
  rw [MapKind.ofEntries, ← hentries, List.foldl_map] at hloop
  rw [hloop, hentries]

theorem keys_canonicalize {kind : MapKind} {map : List (String × Value)}
    (hkeys : (map.map Prod.fst).Nodup) :
    ((sortBy Prod.fst (map.map (canonicalEntry kind))).map Prod.fst).Nodup := by
  have hperm := (sortBy_perm Prod.fst (map.map (canonicalEntry kind))).map Prod.fst
  rw [hperm.nodup_iff, keys_canonicalEntry]
  exact hkeys

theorem wellFormed_canonicalize (kind : MapKind) {v : Value} (h : v.WellFormed) :
    (canonicalize kind v).WellFormed := by
  induction v using Value.induct with
  | null | bool | number | string => exact h
  | array items ih =>
    have hitems := Value.wellFormed_array.mp h
    rw [canonicalize_array, Value.wellFormed_array]
    intro v hv
    obtain ⟨u, hu, rfl⟩ := List.mem_map.mp hv
    exact ih u hu (hitems u hu)
  | object map ih =>
    obtain ⟨hkeys, hmap⟩ := Value.wellFormed_object.mp h
    rw [canonicalize_object kind hkeys, Value.wellFormed_object]
    refine ⟨keys_canonicalize hkeys, ?_⟩
    intro e he
    obtain ⟨e', he', rfl⟩ := List.mem_map.mp (mem_sortBy.mp he)
    exact ih e' he' (hmap e' he')

/-- **Two ways of sorting.** The canonical bytes are the compact text of the canonical value: the
    `BTreeMap` at the top sorts as the insertion of sorted keys does. -/
theorem canonicalJsonBytes_eq (serde : SerdeJson) {v : Value} (h : v.WellFormed) :
    canonicalJsonBytes serde v = toVec serde (canonicalize serde.mapKind v) := by
  cases v with
  | null | bool | number | string => rfl
  | array items => rw [canonicalize_array, toVec_array, canonicalJsonBytes]
  | object map =>
    have hkeys := (Value.wellFormed_object.mp h).1
    have hnodup : ((map.map (canonicalEntry serde.mapKind)).map Prod.fst).Nodup := by
      rw [keys_canonicalEntry]
      exact hkeys
    have hsorted := foldl_insertSorted hnodup
    rw [List.foldl_map] at hsorted
    rw [canonicalize_object serde.mapKind hkeys, toVec_object, ← hsorted]
    rfl

/-! ### What canonicalization forgets -/

/-- The same value, up to the order of object keys at every depth. -/
inductive Value.Same : Value → Value → Prop
  | null : Value.Same .null .null
  | bool (b : Bool) : Value.Same (.bool b) (.bool b)
  | number (n : Number) : Value.Same (.number n) (.number n)
  | string (s : String) : Value.Same (.string s) (.string s)
  | array {items items' : List Value} : List.Forall₂ Value.Same items items' →
    Value.Same (.array items) (.array items')
  -- the entries of one object, reordered, have the keys of the other and the same values
  | object {map reordered map' : List (String × Value)} : map.Perm reordered →
    reordered.map Prod.fst = map'.map Prod.fst →
    List.Forall₂ Value.Same (reordered.map Prod.snd) (map'.map Prod.snd) →
    Value.Same (.object map) (.object map')

theorem shape_canonicalize (kind : MapKind) (v : Value) :
    (canonicalize kind v).shape = v.shape := by
  cases v with
  | object map =>
    rw [canonicalize]
    rfl
  | _ => rfl

theorem shape_of_canonicalize {kind : MapKind} {v w : Value}
    (h : canonicalize kind v = canonicalize kind w) : v.shape = w.shape := by
  rw [← shape_canonicalize kind, h, shape_canonicalize]

/-- Values that are the same are canonicalized alike. -/
theorem canonicalize_of_same (kind : MapKind) {v w : Value} (hv : v.WellFormed) (h : v.Same w) :
    canonicalize kind v = canonicalize kind w := by
  induction v using Value.induct generalizing w with
  | null | bool | number | string => cases h; rfl
  | array items ih =>
    have hitems := Value.wellFormed_array.mp hv
    cases h with
    | array h =>
      rw [canonicalize_array, canonicalize_array]
      exact congrArg Value.array
        (map_eq_of_forall₂ h (fun u hu _ _ hsame => ih u hu (hitems u hu) hsame))
  | object map ih =>
    obtain ⟨hkeys, hmap⟩ := Value.wellFormed_object.mp hv
    cases h with
    | @object _ reordered map' hperm hfst hsnd =>
      have hkeys' : (reordered.map Prod.fst).Nodup := (hperm.map Prod.fst).nodup_iff.mp hkeys
      -- the sort undoes the reordering, and behind it the values are canonicalized alike
      have hsort : sortBy Prod.fst (map.map (canonicalEntry kind)) =
          sortBy Prod.fst (reordered.map (canonicalEntry kind)) := by
        apply sortBy_eq_of_perm (hperm.map _)
        rw [keys_canonicalEntry]
        exact hkeys
      have hvalues : (reordered.map Prod.snd).map (canonicalize kind) =
          (map'.map Prod.snd).map (canonicalize kind) := by
        refine map_eq_of_forall₂ hsnd (fun u hu u' _ hsame => ?_)
        obtain ⟨e, he, rfl⟩ := List.mem_map.mp hu
        have hmem : e ∈ map := hperm.mem_iff.mpr he
        exact ih e hmem (hmap e hmem) hsame
      have hentries : reordered.map (canonicalEntry kind) = map'.map (canonicalEntry kind) := by
        have hzip := congrArg₂ List.zip hfst hvalues
        rw [List.map_map, List.map_map] at hzip
        simp only [List.zip_map', Function.comp_apply] at hzip
        exact hzip
      rw [canonicalize_object kind hkeys, canonicalize_object kind (hfst ▸ hkeys'), hsort, hentries]

/-- Values that are canonicalized alike are the same. -/
theorem same_of_canonicalize (kind : MapKind) {v w : Value} (hv : v.WellFormed)
    (hw : w.WellFormed) (h : canonicalize kind v = canonicalize kind w) : v.Same w := by
  induction v using Value.induct generalizing w with
  | null =>
    have hshape := shape_of_canonicalize h
    cases w with
    | null => exact .null
    | _ => cases hshape
  | bool b =>
    have hshape := shape_of_canonicalize h
    cases w with
    | bool b' => cases h; exact .bool b
    | _ => cases hshape
  | number n =>
    have hshape := shape_of_canonicalize h
    cases w with
    | number n' => cases h; exact .number n
    | _ => cases hshape
  | string s =>
    have hshape := shape_of_canonicalize h
    cases w with
    | string s' => cases h; exact .string s
    | _ => cases hshape
  | array items ih =>
    have hshape := shape_of_canonicalize h
    cases w with
    | array items' =>
      have hitems := Value.wellFormed_array.mp hv
      have hitems' := Value.wellFormed_array.mp hw
      rw [canonicalize_array, canonicalize_array] at h
      apply Value.Same.array
      exact forall₂_of_map_eq (Value.array.inj h)
        (fun u hu u' hu' heq => ih u hu (hitems u hu) (hitems' u' hu') heq)
    | _ => cases hshape
  | object map ih =>
    have hshape := shape_of_canonicalize h
    cases w with
    | object map' =>
      obtain ⟨hkeys, hmap⟩ := Value.wellFormed_object.mp hv
      obtain ⟨hkeys', hmap'⟩ := Value.wellFormed_object.mp hw
      rw [canonicalize_object kind hkeys, canonicalize_object kind hkeys', Value.object.injEq,
        sortBy_map, sortBy_map] at h
      have hsorted : List.Forall₂ (fun e e' => e.1 = e'.1 ∧ e.2.Same e'.2)
          (sortBy Prod.fst map) (sortBy Prod.fst map') := by
        refine forall₂_of_map_eq h (fun e he e' he' heq => ?_)
        have hmem : e ∈ map := mem_sortBy.mp he
        obtain ⟨hkey, hvalue⟩ := Prod.mk.inj heq
        exact ⟨hkey, ih e hmem (hmap e hmem) (hmap' e' (mem_sortBy.mp he')) hvalue⟩
      obtain ⟨reordered, hperm, hrel⟩ := exists_perm_of_sortBy hsorted
      apply Value.Same.object hperm
      · exact map_eq_of_forall₂ hrel (fun _ _ _ _ h => h.1)
      · rw [List.forall₂_map_left_iff, List.forall₂_map_right_iff]
        exact hrel.imp (fun _ _ h => h.2)
    | _ => cases hshape

/-- **What is forgotten.** Values are canonicalized alike exactly if they are the same. -/
theorem canonicalize_eq_iff (kind : MapKind) {v w : Value} (hv : v.WellFormed)
    (hw : w.WellFormed) : canonicalize kind v = canonicalize kind w ↔ v.Same w :=
  ⟨same_of_canonicalize kind hv hw, canonicalize_of_same kind hv⟩

/-- Canonical bytes are equal exactly for values that are the same. -/
theorem canonicalJsonBytes_eq_iff {serde : SerdeJson} (hserde : serde.Lawful) {v w : Value}
    (hv : v.WellFormed) (hw : w.WellFormed) :
    canonicalJsonBytes serde v = canonicalJsonBytes serde w ↔ v.Same w := by
  rw [← canonicalize_eq_iff serde.mapKind hv hw, canonicalJsonBytes_eq serde hv,
    canonicalJsonBytes_eq serde hw]
  constructor
  · intro h
    exact toVec_injective hserde (wellFormed_canonicalize serde.mapKind hv)
      (wellFormed_canonicalize serde.mapKind hw) h
  · exact congrArg (toVec serde)

/-- **Canonical JSON is sound and complete.** Two values have the same canonical bytes exactly if
    they are the same up to the order of keys; and so have two constructed artifacts the same
    digest exactly if their values are, unless the hash takes their bytes for one another. -/
theorem digest_complete {serde : SerdeJson} (hserde : serde.Lawful)
    (blake3 : List UInt8 → String) :
    (∀ v w : Value, v.WellFormed → w.WellFormed →
      (canonicalJsonBytes serde v = canonicalJsonBytes serde w ↔ v.Same w)) ∧
    ∀ a b : Artifact, a.Constructed serde blake3 → b.Constructed serde blake3 →
      a.value.WellFormed → b.value.WellFormed →
      Set.InjOn blake3 {canonicalJsonBytes serde a.value, canonicalJsonBytes serde b.value} →
        (a.digest = b.digest ↔ a.value.Same b.value) := by
  refine ⟨fun v w hv hw => canonicalJsonBytes_eq_iff hserde hv hw, ?_⟩
  intro a b ha hb hva hvb hcollision
  rw [ha.digest_eq, hb.digest_eq, computeDigest, computeDigest,
    ← canonicalJsonBytes_eq_iff hserde hva hvb]
  constructor
  · exact fun h => hcollision (Set.mem_insert _ _) (Set.mem_insert_of_mem _ rfl) h
  · exact congrArg blake3

namespace Sample

/-- A quote for the given metals, in the order in which they were entered. -/
def quote (prices : List (String × UInt64)) : Artifact :=
  .new serde blake3 "price.v1" (.object (prices.map (fun p => (p.1, .number (.posInt p.2)))))
    "enricher" "1.0.0" "v1"

end Sample

/-- The order in which the keys were entered leaves the digest alone, a price does not. -/
theorem digest_complete_quote :
    (Sample.quote [("steel", 4), ("iron", 3)]).digest =
      (Sample.quote [("iron", 3), ("steel", 4)]).digest ∧
    (Sample.quote [("iron", 3)]).digest ≠ (Sample.quote [("iron", 4)]).digest := by
  have hnumber : ∀ n, (Value.number (.posInt n)).WellFormed := fun _ => .number trivial
  have htwo : ∀ k l m n, k ≠ l → (Sample.quote [(k, m), (l, n)]).value.WellFormed :=
    fun k l m n hne => Value.wellFormed_pair hne (hnumber m) (hnumber n)
  have hone : ∀ k m, (Sample.quote [(k, m)]).value.WellFormed :=
    fun k m => Value.wellFormed_singleton k (hnumber m)
  have hdigest := (digest_complete Sample.serde_lawful Sample.blake3).2
  constructor
  · refine (hdigest _ _ (.new _ _ _ _ _) (.new _ _ _ _ _) (htwo _ _ _ _ (by decide))
      (htwo _ _ _ _ (by decide)) Sample.blake3_injective.injOn).mpr ?_
    refine .object (List.Perm.swap _ _ _) rfl ?_
    exact .cons (.number _) (.cons (.number _) .nil)
  · intro h
    have hsame := (hdigest _ _ (.new _ _ _ _ _) (.new _ _ _ _ _) (hone _ _) (hone _ _)
      Sample.blake3_injective.injOn).mp h
    -- the one entry would have to keep its price
    cases hsame with
    | object hperm _ hsnd =>
      obtain rfl := List.singleton_perm.mp hperm
      cases hsnd with
      | cons hprice _ => cases hprice

end DarqEval
