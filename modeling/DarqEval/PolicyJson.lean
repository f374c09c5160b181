import DarqEval.Json
import DarqEval.Policy

namespace DarqEval

open Lib

/-!
# Policy values as JSON

A policy value is converted to JSON as an enum with its variant as tag; what cannot be written in
JSON, a float that is not finite, becomes `null`.

* `PolicyValue.toValue` — the conversion, as the code has it;
* `PolicyValue.Agree` — values equal as finite maps at every depth, up to a relation on floats;
* `agree_of_toValue` — what the JSON of a value tells; `toValue_of_agree` — what it forgets.
-/

/-- `serde_json::Number` of an `i64`. -/
def Number.ofI64 (n : Int64) : Number := if n < 0 then .negInt n else .posInt n.toUInt64

/-- `serde_json::Value` of an `f64`: JSON has no float that is not finite. -/
def Value.ofF64 (x : F64) : Value := if x.isFinite then .number (.float x) else .null

mutual

/-- `serde_json::to_value` of a policy value: an enum with the variant as tag. -/
def PolicyValue.toValue (kind : MapKind) : PolicyValue → Value
  | .float x => .object [("Float", .ofF64 x)]
  | .int n => .object [("Int", .number (.ofI64 n))]
  | .bool b => .object [("Bool", .bool b)]
  | .text s => .object [("Text", .string s)]
  | .list items => .object [("List", .array (PolicyValue.toItems kind items))]
  | .map entries =>
    .object [("Map", .object (kind.ofEntries (PolicyValue.toEntries kind entries)))]

def PolicyValue.toItems (kind : MapKind) : List PolicyValue → List Value
  | [] => []
  | v :: items => v.toValue kind :: PolicyValue.toItems kind items

def PolicyValue.toEntries (kind : MapKind) : List (String × PolicyValue) → List (String × Value)
  | [] => []
  | (k, v) :: entries => (k, v.toValue kind) :: PolicyValue.toEntries kind entries

end

/-! ### Values that agree -/

/-- The same float, all NaNs alike.  Zero and negative zero are two floats, and JSON keeps them
    apart. -/
def F64.Same (x y : F64) : Prop := x = y ∨ (x.isNan = true ∧ y.isNan = true)

/-- The same float, all that are not finite alike. -/
def F64.Conflated (x y : F64) : Prop := x = y ∨ (x.isFinite = false ∧ y.isFinite = false)

/-- Equal as finite maps at every depth, with related floats. -/
inductive PolicyValue.Agree (rel : F64 → F64 → Prop) : PolicyValue → PolicyValue → Prop
  | float {x y : F64} : rel x y → PolicyValue.Agree rel (.float x) (.float y)
  | int (n : Int64) : PolicyValue.Agree rel (.int n) (.int n)
  | bool (b : Bool) : PolicyValue.Agree rel (.bool b) (.bool b)
  | text (s : String) : PolicyValue.Agree rel (.text s) (.text s)
  | list {items items' : List PolicyValue} : List.Forall₂ (PolicyValue.Agree rel) items items' →
    PolicyValue.Agree rel (.list items) (.list items')
  | map {entries entries' : List (String × PolicyValue)} :
    (∀ k, Option.Rel (PolicyValue.Agree rel) (entries.lookup k) (entries'.lookup k)) →
    PolicyValue.Agree rel (.map entries) (.map entries')

theorem F64.Same.conflated {x y : F64} (h : F64.Same x y) : F64.Conflated x y := by
  have hnan : ∀ z : F64, z.isNan = true → z.isFinite = false := by
    intro z hz
    have hnot := (Bool.and_eq_true_iff.mp hz).1
    simpa using hnot
  exact h.imp_right (fun h => ⟨hnan x h.1, hnan y h.2⟩)

theorem PolicyValue.Agree.mono {rel rel' : F64 → F64 → Prop} (hrel : ∀ x y, rel x y → rel' x y)
    {u v : PolicyValue} (h : u.Agree rel v) : u.Agree rel' v := by
  induction u using PolicyValue.induct generalizing v with
  | float x =>
    cases h with
    | float h => exact .float (hrel _ _ h)
  | int n => cases h; exact .int n
  | bool b => cases h; exact .bool b
  | text s => cases h; exact .text s
  | list items ih =>
    cases h with
    | list h =>
      apply PolicyValue.Agree.list
      have hitems := List.forall₂_iff_zip.mp h
      refine List.forall₂_iff_zip.mpr ⟨hitems.1, fun hab => ?_⟩
      exact ih _ (List.of_mem_zip hab).1 (hitems.2 hab)
  | map entries ih =>
    cases h with
    | map h =>
      apply PolicyValue.Agree.map
      exact fun k => optionRel_mono (h k) (fun u hu _ _ huv => ih _ (mem_of_lookup hu) huv)

/-! ### The JSON of a policy value -/

namespace PolicyValue

/-- The entry with its value converted. -/
def toEntry (kind : MapKind) (e : String × PolicyValue) : String × Value := (e.1, e.2.toValue kind)

theorem toItems_eq_map (kind : MapKind) (items : List PolicyValue) :
    toItems kind items = items.map (toValue kind) := by
  induction items with
  | nil => rfl
  | cons v items ih => rw [toItems, ih, List.map_cons]

theorem toEntries_eq_map (kind : MapKind) (entries : List (String × PolicyValue)) :
    toEntries kind entries = entries.map (toEntry kind) := by
  induction entries with
  | nil => rfl
  | cons e entries ih => rw [toEntries, ih, List.map_cons, toEntry]

theorem keys_toEntries (kind : MapKind) (entries : List (String × PolicyValue)) :
    (toEntries kind entries).map Prod.fst = entries.map Prod.fst := by
  rw [toEntries_eq_map, List.map_map]
  rfl

/-- A map of either kind holds the converted entries. -/
theorem ofEntries_toEntries (kind : MapKind) {entries : List (String × PolicyValue)}
    (hkeys : (entries.map Prod.fst).Nodup) :
    (kind.ofEntries (toEntries kind entries)).Perm (toEntries kind entries) := by
  apply kind.ofEntries_perm
  rw [keys_toEntries]
  exact hkeys

theorem lookup_toEntries (kind : MapKind) (entries : List (String × PolicyValue)) (k : String) :
    (toEntries kind entries).lookup k = (entries.lookup k).map (toValue kind) := by
  rw [toEntries_eq_map]
  exact lookup_map (toValue kind) entries k

/-- The variants of the enum. -/
inductive Variant where
  | float
  | int
  | bool
  | text
  | list
  | map

/-- The name by which a variant is tagged. -/
def Variant.tag : Variant → String
  | float => "Float"
  | int => "Int"
  | bool => "Bool"
  | text => "Text"
  | list => "List"
  | map => "Map"

theorem Variant.tag_injective : Function.Injective Variant.tag := by
  intro a b h
  cases a <;> cases b <;> first | rfl | exact absurd h (by decide)

def variant : PolicyValue → Variant
  | float _ => .float
  | int _ => .int
  | bool _ => .bool
  | text _ => .text
  | list _ => .list
  | map _ => .map

theorem toValue_eq (kind : MapKind) (v : PolicyValue) :
    ∃ content, v.toValue kind = .object [(v.variant.tag, content)] := by
  cases v <;> exact ⟨_, rfl⟩

/-- The JSON of a value tells its variant. -/
theorem variant_eq {kind : MapKind} {u v : PolicyValue} (h : u.toValue kind = v.toValue kind) :
    u.variant = v.variant := by
  obtain ⟨content, hu⟩ := toValue_eq kind u
  obtain ⟨content', hv⟩ := toValue_eq kind v
  rw [hu, hv] at h
  simp only [Value.object.injEq, List.cons.injEq, Prod.mk.injEq] at h
  exact Variant.tag_injective h.1.1

/-- Under the same tag, the same JSON is the same content. -/
theorem tagged_inj {tag : String} {v w : Value} (h : Value.object [(tag, v)] = .object [(tag, w)]) :
    v = w := by
  simp only [Value.object.injEq, List.cons.injEq, Prod.mk.injEq, true_and, and_true] at h
  exact h

theorem wellFormed_ofI64 (n : Int64) : (Number.ofI64 n).WellFormed := by
  unfold Number.ofI64
  split
  · assumption
  · trivial

theorem wellFormed_ofF64 (x : F64) : (Value.ofF64 x).WellFormed := by
  unfold Value.ofF64
  split
  · apply Value.WellFormed.number
    assumption
  · exact .null

theorem ofI64_injective : Function.Injective Number.ofI64 := by
  intro m n h
  unfold Number.ofI64 at h
  split at h <;> split at h
  · exact Number.negInt.inj h
  · cases h
  · cases h
  · exact congrArg Int64.ofUInt64 (Number.posInt.inj h)

/-- What JSON loses: floats are written alike if they are equal or both not finite. -/
theorem ofF64_eq_iff {x y : F64} : Value.ofF64 x = Value.ofF64 y ↔ F64.Conflated x y := by
  unfold Value.ofF64 F64.Conflated
  by_cases hx : x.isFinite = true <;> by_cases hy : y.isFinite = true
  · simp [hx, hy]
  · simp only [hx, hy, if_true]
    constructor
    · intro h
      cases h
    · rintro (rfl | h)
      · exact absurd hx hy
      · cases h.1
  · simp only [hx, hy, if_true]
    constructor
    · intro h
      cases h
    · rintro (rfl | h)
      · exact absurd hy hx
      · cases h.2
  · simp [hx, hy]

/-- A map of either kind over converted entries is well-formed. -/
theorem wellFormed_toEntries (kind : MapKind) {entries : List (String × PolicyValue)}
    (hkeys : (entries.map Prod.fst).Nodup) (h : ∀ e ∈ entries, (e.2.toValue kind).WellFormed) :
    (Value.object (kind.ofEntries (toEntries kind entries))).WellFormed := by
  have hperm := ofEntries_toEntries kind hkeys
  refine .object ?_ ?_
  · rw [(hperm.map Prod.fst).nodup_iff, keys_toEntries]
    exact hkeys
  intro e he
  rw [hperm.mem_iff, toEntries_eq_map] at he
  obtain ⟨e', he', rfl⟩ := List.mem_map.mp he
  exact h e' he'

theorem wellFormed_toValue (kind : MapKind) {v : PolicyValue} (hv : v.WellFormed) :
    (v.toValue kind).WellFormed := by
  induction v using PolicyValue.induct with
  | float x => exact Value.wellFormed_singleton _ (wellFormed_ofF64 x)
  | int n => exact Value.wellFormed_singleton _ (.number (wellFormed_ofI64 n))
  | bool b => exact Value.wellFormed_singleton _ (.bool b)
  | text s => exact Value.wellFormed_singleton _ (.string s)
  | list items ih =>
    have hitems := wellFormed_list.mp hv
    rw [toValue, toItems_eq_map]
    apply Value.wellFormed_singleton
    apply Value.WellFormed.array
    intro w hw
    obtain ⟨u, hu, rfl⟩ := List.mem_map.mp hw
    exact ih u hu (hitems u hu)
  | map entries ih =>
    obtain ⟨hkeys, hentries⟩ := wellFormed_map.mp hv
    rw [toValue]
    apply Value.wellFormed_singleton
    exact wellFormed_toEntries kind hkeys (fun e he => ih e he (hentries e he))

/-- Entries converted alike, up to order, agree at every key. -/
theorem rel_lookup_of_perm {kind : MapKind} {rel : F64 → F64 → Prop}
    {entries entries' : List (String × PolicyValue)} (hkeys : (entries.map Prod.fst).Nodup)
    (hkeys' : (entries'.map Prod.fst).Nodup)
    (hperm : (toEntries kind entries).Perm (toEntries kind entries'))
    (ih : ∀ e ∈ entries, ∀ e' ∈ entries', e.2.toValue kind = e'.2.toValue kind →
      e.2.Agree rel e'.2) (k : String) :
    Option.Rel (Agree rel) (entries.lookup k) (entries'.lookup k) := by
  have hlookup := lookup_eq_of_perm (by rw [keys_toEntries]; exact hkeys) hperm k
  rw [lookup_toEntries, lookup_toEntries] at hlookup
  refine optionRel_of_map_eq hlookup (fun u hu v hv heq => ?_)
  exact ih _ ((lookup_eq_some_iff_mem hkeys).mp hu) _ ((lookup_eq_some_iff_mem hkeys').mp hv) heq

/-- Entries that agree at every key are converted alike, up to order. -/
theorem perm_of_rel_lookup {kind : MapKind} {rel : F64 → F64 → Prop}
    {entries entries' : List (String × PolicyValue)} (hkeys : (entries.map Prod.fst).Nodup)
    (hkeys' : (entries'.map Prod.fst).Nodup)
    (h : ∀ k, Option.Rel (Agree rel) (entries.lookup k) (entries'.lookup k))
    (ih : ∀ e ∈ entries, ∀ e' ∈ entries', e.2.Agree rel e'.2 →
      e.2.toValue kind = e'.2.toValue kind) :
    (toEntries kind entries).Perm (toEntries kind entries') := by
  apply perm_of_lookup_eq
  · rw [keys_toEntries]
    exact hkeys
  · rw [keys_toEntries]
    exact hkeys'
  · intro k
    rw [lookup_toEntries, lookup_toEntries]
    refine map_eq_of_optionRel (h k) (fun u hu v hv huv => ?_)
    exact ih _ ((lookup_eq_some_iff_mem hkeys).mp hu) _ ((lookup_eq_some_iff_mem hkeys').mp hv) huv

/-- **What the JSON tells.** Values with the same JSON agree, up to floats that are not finite. -/
theorem agree_of_toValue {kind : MapKind} {u v : PolicyValue} (hu : u.WellFormed)
    (hv : v.WellFormed) (h : u.toValue kind = v.toValue kind) : u.Agree F64.Conflated v := by
  induction u using PolicyValue.induct generalizing v with
  | float x =>
    have hvariant := variant_eq h
    cases v with
    | float y =>
      exact .float (ofF64_eq_iff.mp (tagged_inj h))
    | _ => cases hvariant
  | int n =>
    have hvariant := variant_eq h
    cases v with
    | int m =>
      obtain rfl := ofI64_injective (Value.number.inj (tagged_inj h))
      exact .int n
    | _ => cases hvariant
  | bool b =>
    have hvariant := variant_eq h
    cases v with
    | bool c =>
      cases h
      exact .bool b
    | _ => cases hvariant
  | text s =>
    have hvariant := variant_eq h
    cases v with
    | text t =>
      cases h
      exact .text s
    | _ => cases hvariant
  | list items ih =>
    have hvariant := variant_eq h
    cases v with
    | list items' =>
      have hitems := wellFormed_list.mp hu
      have hitems' := wellFormed_list.mp hv
      have hcontent := Value.array.inj (tagged_inj h)
      rw [toItems_eq_map, toItems_eq_map] at hcontent
      apply Agree.list
      exact forall₂_of_map_eq hcontent
        (fun a ha b hb heq => ih a ha (hitems a ha) (hitems' b hb) heq)
    | _ => cases hvariant
  | map entries ih =>
    have hvariant := variant_eq h
    cases v with
    | map entries' =>
      obtain ⟨hkeys, hentries⟩ := wellFormed_map.mp hu
      obtain ⟨hkeys', hentries'⟩ := wellFormed_map.mp hv
      have hcontent := Value.object.inj (tagged_inj h)
      have hperm : (toEntries kind entries).Perm (toEntries kind entries') := by
        have hleft := ofEntries_toEntries kind hkeys
        rw [hcontent] at hleft
        exact hleft.symm.trans (ofEntries_toEntries kind hkeys')
      apply Agree.map
      exact rel_lookup_of_perm hkeys hkeys' hperm
        (fun e he e' he' heq => ih e he (hentries e he) (hentries' e' he') heq)
    | _ => cases hvariant

/-- **What the JSON forgets.** Values that agree up to floats that are not finite have the same
    JSON, whatever the iteration orders of their maps: the library's map sorts them. -/
theorem toValue_of_agree {u v : PolicyValue} (hu : u.WellFormed) (hv : v.WellFormed)
    (h : u.Agree F64.Conflated v) : u.toValue .bTreeMap = v.toValue .bTreeMap := by
  induction u using PolicyValue.induct generalizing v with
  | float x =>
    cases h with
    | float h => rw [toValue, toValue, ofF64_eq_iff.mpr h]
  | int | bool | text => cases h; rfl
  | list items ih =>
    cases h with
    | list h =>
      have hitems := wellFormed_list.mp hu
      have hitems' := wellFormed_list.mp hv
      rw [toValue, toValue, toItems_eq_map, toItems_eq_map,
        map_eq_of_forall₂ h (fun a ha b hb hab => ih a ha (hitems a ha) (hitems' b hb) hab)]
  | map entries ih =>
    cases h with
    | map h =>
      obtain ⟨hkeys, hentries⟩ := wellFormed_map.mp hu
      obtain ⟨hkeys', hentries'⟩ := wellFormed_map.mp hv
      have hperm := perm_of_rel_lookup hkeys hkeys' h
        (fun e he e' he' hab => ih e he (hentries e he) (hentries' e' he') hab)
      rw [← keys_toEntries .bTreeMap] at hkeys hkeys'
      rw [toValue, toValue, MapKind.ofEntries_bTreeMap hkeys, MapKind.ofEntries_bTreeMap hkeys',
        sortBy_eq_of_perm hperm hkeys]

end PolicyValue

end DarqEval
