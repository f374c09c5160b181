import DarqEval.Canonical

namespace DarqEval

open Lib

/-!
# Canonical values inside others

A value is canonicalized on two ways: at the top, where its bytes are written, and below it, where
a value is built again.  Both are the same at every depth, so that a value has the same bytes
wherever it stands.

* `Value.get`, `Value.descend` — the value at an index, and at a path of indices;
* `descend_canonicalize` — what stands at a path of a canonical value;
* `gap` — the bytes of a value around the one at a path (`toVec_eq_fill`);
* `canonical_paths_agree` — the two ways agree.
-/

/-! ### Values inside others -/

/-- An index into a value: a position of an array, or a key of an object. -/
inductive Index where
  | item (i : Nat)
  | key (k : String)
deriving DecidableEq

namespace Value

/-- The value at an index. -/
def get : Value → Index → Option Value
  | .array items, .item i => items[i]?
  | .object map, .key k => map.lookup k
  | _, _ => none

/-- The value at a path of indices. -/
def descend (v : Value) : List Index → Option Value
  | [] => some v
  | i :: path => (v.get i).bind (fun u => u.descend path)

theorem wellFormed_get {v u : Value} (hv : v.WellFormed) {i : Index} (h : v.get i = some u) :
    u.WellFormed := by
  cases hv with
  | array hitems =>
    cases i with
    | item i => exact hitems u (List.mem_of_getElem? h)
    | key k => cases h
  | object _ hmap =>
    cases i with
    | item i => cases h
    | key k => exact hmap _ (mem_of_lookup h)
  | _ => cases i <;> cases h

/-- What stands anywhere in a well-formed value is well-formed. -/
theorem wellFormed_descend {v u : Value} (hv : v.WellFormed) {path : List Index}
    (h : v.descend path = some u) : u.WellFormed := by
  induction path generalizing v with
  | nil =>
    obtain rfl := Option.some.inj h
    exact hv
  | cons i path ih =>
    obtain ⟨x, hx, hpath⟩ := Option.bind_eq_some_iff.mp h
    exact ih (wellFormed_get hv hx) hpath

end Value

/-! ### Canonical values at every depth -/

/-- The values in a canonical value are those in the value, canonicalized. -/
theorem get_canonicalize (kind : MapKind) {v : Value} (hv : v.WellFormed) (i : Index) :
    (canonicalize kind v).get i = (v.get i).map (canonicalize kind) := by
  cases v with
  | array items =>
    rw [canonicalize_array]
    cases i with
    | item i => exact List.getElem?_map
    | key k => rfl
  | object map =>
    have hkeys := (Value.wellFormed_object.mp hv).1
    rw [canonicalize_object kind hkeys]
    cases i with
    | item i => rfl
    | key k =>
      -- the sort moves the entry, and the key finds it
      have hlookup := lookup_eq_of_perm (keys_canonicalize hkeys)
        (sortBy_perm Prod.fst (map.map (canonicalEntry kind))) k
      exact hlookup.trans (lookup_map (canonicalize kind) map k)
  | _ => cases i <;> rfl

/-- **Depth.** What stands at a path of a canonical value is what stands there in the value,
    canonicalized. -/
theorem descend_canonicalize (kind : MapKind) {v : Value} (hv : v.WellFormed) (path : List Index) :
    (canonicalize kind v).descend path = (v.descend path).map (canonicalize kind) := by
  induction path generalizing v with
  | nil => rfl
  | cons i path ih =>
    rw [Value.descend, Value.descend, get_canonicalize kind hv]
    cases hu : v.get i with
    | none => rfl
    | some u => exact ih (Value.wellFormed_get hv hu)

/-- A canonical object has the keys of the object it is made from, increasing. -/
theorem object_of_canonicalize {kind : MapKind} {v : Value} (hv : v.WellFormed)
    {map : List (String × Value)} (h : canonicalize kind v = .object map) :
    Increasing map ∧ ∃ map', v = .object map' ∧ (map.map Prod.fst).Perm (map'.map Prod.fst) := by
  have hshape : v.shape = Shape.object := by
    rw [← shape_canonicalize kind, h]
    rfl
  cases v with
  | object map' =>
    have hkeys := (Value.wellFormed_object.mp hv).1
    rw [canonicalize_object kind hkeys, Value.object.injEq] at h
    subst h
    constructor
    · apply increasing_sortBy
      rw [keys_canonicalEntry]
      exact hkeys
    · have hperm := (sortBy_perm Prod.fst (map'.map (canonicalEntry kind))).map Prod.fst
      rw [keys_canonicalEntry] at hperm
      exact ⟨map', rfl, hperm⟩
  | _ => cases hshape

/-- **Idempotence.** A canonical value is its own canonical value. -/
theorem canonicalize_canonicalize (kind : MapKind) {v : Value} (hv : v.WellFormed) :
    canonicalize kind (canonicalize kind v) = canonicalize kind v := by
  induction v using Value.induct with
  | null | bool | number | string => rfl
  | array items ih =>
    have hitems := Value.wellFormed_array.mp hv
    rw [canonicalize_array, canonicalize_array, List.map_map]
    exact congrArg Value.array (List.map_congr_left (fun u hu => ih u hu (hitems u hu)))
  | object map ih =>
    obtain ⟨hkeys, hmap⟩ := Value.wellFormed_object.mp hv
    have hentries : (map.map (canonicalEntry kind)).map (canonicalEntry kind) =
        map.map (canonicalEntry kind) := by
      rw [List.map_map]
      refine List.map_congr_left (fun e he => ?_)
      exact congrArg (Prod.mk e.1) (ih e he (hmap e he))
    -- what is sorted is sorted again, after its entries were canonicalized again
    have hperm := (sortBy_perm Prod.fst (map.map (canonicalEntry kind))).map (canonicalEntry kind)
    rw [hentries] at hperm
    have hsort : sortBy Prod.fst
        ((sortBy Prod.fst (map.map (canonicalEntry kind))).map (canonicalEntry kind)) =
          sortBy Prod.fst (map.map (canonicalEntry kind)) := by
      apply sortBy_eq_of_perm hperm
      rw [keys_canonicalEntry]
      exact keys_canonicalize hkeys
    rw [canonicalize_object kind hkeys, canonicalize_object kind (keys_canonicalize hkeys), hsort]

/-! ### The bytes around a value -/

/-- The bytes that `to_vec` writes before and after the value at an index. -/
def gapAt (serde : SerdeJson) : Value → Index → Gap UInt8
  | .array items, .item i =>
    .bracketed '['.toUInt8 ','.toUInt8 ']'.toUInt8 (toVec serde) (items.take i)
      (items.drop (i + 1))
  | .object map, .key k =>
    -- its key stands in front of it
    Gap.within ⟨serde.string k ++ [':'.toUInt8], []⟩
      (.bracketed '{'.toUInt8 ','.toUInt8 '}'.toUInt8 (entryText serde)
        (map.takeWhile (fun e => k != e.1)) (map.dropWhile (fun e => k != e.1)).tail)
  | _, _ => .whole

/-- The bytes that `to_vec` writes before and after the value at a path. -/
def gap (serde : SerdeJson) (v : Value) : List Index → Gap UInt8
  | [] => .whole
  | i :: path =>
    match v.get i with
    | some u => (gap serde u path).within (gapAt serde v i)
    | none => .whole

theorem toVec_eq_fill_gapAt (serde : SerdeJson) {v u : Value} {i : Index}
    (h : v.get i = some u) : toVec serde v = (gapAt serde v i).fill (toVec serde u) := by
  cases v with
  | array items =>
    cases i with
    | item i =>
      obtain ⟨hi, hitem⟩ := List.getElem?_eq_some_iff.mp h
      have hsplit : items = items.take i ++ u :: items.drop (i + 1) := by
        rw [← hitem, ← List.drop_eq_getElem_cons hi, List.take_append_drop]
      rw [toVec_array, seqToVec, gapAt, ← bracketed_eq_fill, ← hsplit]
    | key k => cases h
  | object map =>
    cases i with
    | item i => cases h
    | key k =>
      obtain ⟨pre, post, rfl, hpre⟩ := List.lookup_eq_some_iff.mp h
      have htake : (pre ++ (k, u) :: post).takeWhile (fun e => k != e.1) = pre := by
        rw [List.takeWhile_append_of_pos hpre, List.takeWhile_cons_of_neg (by simp),
          List.append_nil]
      have hdrop : (pre ++ (k, u) :: post).dropWhile (fun e => k != e.1) = (k, u) :: post := by
        rw [List.dropWhile_append_of_pos hpre, List.dropWhile_cons_of_neg (by simp)]
      rw [toVec_object, mapToVec, gapAt, htake, hdrop, bracketed_eq_fill, Gap.fill_within]
      simp only [entryText, Gap.fill, List.tail_cons, List.append_assoc, List.cons_append,
        List.nil_append, List.append_nil]
  | _ => cases i <;> cases h

/-- The text of a value is what is written around the value at a path, and its text. -/
theorem toVec_eq_fill (serde : SerdeJson) {v u : Value} {path : List Index}
    (h : v.descend path = some u) : toVec serde v = (gap serde v path).fill (toVec serde u) := by
  induction path generalizing v with
  | nil =>
    obtain rfl := Option.some.inj h
    rw [gap, Gap.fill_whole]
  | cons i path ih =>
    obtain ⟨x, hx, hpath⟩ := Option.bind_eq_some_iff.mp h
    rw [gap, hx, toVec_eq_fill_gapAt serde hx, ih hpath, ← Gap.fill_within]

/-- **The two ways agree.** For either kind of map: the canonical bytes of a value are the compact
    text of its canonical value; a canonical value is its own; its objects have increasing keys,
    those of the value's objects at the same paths; and a value that stands in another one has
    there, in the other's canonical bytes, its own canonical bytes. -/
theorem canonical_paths_agree (serde : SerdeJson) {w : Value} (hw : w.WellFormed) :
    canonicalJsonBytes serde w = toVec serde (canonicalize serde.mapKind w) ∧
    canonicalize serde.mapKind (canonicalize serde.mapKind w) = canonicalize serde.mapKind w ∧
    (∀ path map, (canonicalize serde.mapKind w).descend path = some (.object map) →
      Increasing map ∧ ∃ map', w.descend path = some (.object map') ∧
        (map.map Prod.fst).Perm (map'.map Prod.fst)) ∧
    ∀ path v, w.descend path = some v → canonicalJsonBytes serde w =
      (gap serde (canonicalize serde.mapKind w) path).fill (canonicalJsonBytes serde v) := by
  refine ⟨canonicalJsonBytes_eq serde hw, canonicalize_canonicalize serde.mapKind hw, ?_, ?_⟩
  · intro path map h
    rw [descend_canonicalize serde.mapKind hw, Option.map_eq_some_iff] at h
    obtain ⟨v, hv, hmap⟩ := h
    obtain ⟨hincreasing, map', rfl, hkeys⟩ :=
      object_of_canonicalize (Value.wellFormed_descend hw hv) hmap
    exact ⟨hincreasing, map', hv, hkeys⟩
  · intro path v hv
    have hcanonical : (canonicalize serde.mapKind w).descend path =
        some (canonicalize serde.mapKind v) := by
      rw [descend_canonicalize serde.mapKind hw, hv, Option.map_some]
    have hv' := Value.wellFormed_descend hw hv
    rw [canonicalJsonBytes_eq serde hw, canonicalJsonBytes_eq serde hv']
    exact toVec_eq_fill serde hcanonical

namespace Sample

/-- The sample rendering over maps that keep the order of insertion. -/
def insertionOrdered : SerdeJson := { serde with mapKind := .indexMap }

/-- A line of an order, with its keys out of order. -/
def line : Value := .object [("unit", .string "kg"), ("metal", .string "steel")]

/-- An order of one line, with its keys out of order. -/
def order : Value := .object [("lines", .array [line]), ("id", .string "7")]

theorem order_wellFormed : order.WellFormed := by
  have hline : line.WellFormed := Value.wellFormed_pair (by decide) (.string _) (.string _)
  refine Value.wellFormed_pair (by decide) (.array ?_) (.string _)
  intro v hv
  obtain rfl := List.mem_singleton.mp hv
  exact hline

end Sample

/-- The line stands in the bytes of the order with its own canonical bytes, though its map is
    not sorted by the library. -/
theorem canonical_paths_agree_order :
    canonicalJsonBytes Sample.insertionOrdered Sample.order =
      (gap Sample.insertionOrdered (canonicalize .indexMap Sample.order)
        [.key "lines", .item 0]).fill (canonicalJsonBytes Sample.insertionOrdered Sample.line) :=
  (canonical_paths_agree Sample.insertionOrdered Sample.order_wellFormed).2.2.2
    [.key "lines", .item 0] Sample.line rfl

end DarqEval
