import DarqEval.Lib.Code
import DarqEval.Lib.SortedMap
import DarqEval.Primitives
import Mathlib.Data.String.Basic
import Mathlib.Tactic.IntervalCases

namespace DarqEval

open Lib

/-!
# Compact JSON

What the crate relies on in `serde_json`: `to_vec` writes a `Value` without blanks, the entries of
an object in the map's iteration order.  How numbers and string literals are rendered is left to
the library (`SerdeJson`); what is assumed of it is `SerdeJson.Lawful`.

* `Value.WellFormed` — the values there are: distinct keys in every object, lawful numbers;
* `toVec` — the compact text of a value;
* `toVec_readable` — the text of a value tells the value, whatever follows it.
-/

/-! ### Values -/

/-- The invariants of `serde_json::Number`: what is not negative is a `PosInt`, and a `Float` is
    finite. -/
def Number.WellFormed : Number → Prop
  | .posInt _ => True
  | .negInt n => n < 0
  | .float x => x.isFinite = true

/-- The values `serde_json` builds: every object has distinct keys. -/
inductive Value.WellFormed : Value → Prop
  | null : Value.WellFormed .null
  | bool (b : Bool) : Value.WellFormed (.bool b)
  | number {n : Number} : n.WellFormed → Value.WellFormed (.number n)
  | string (s : String) : Value.WellFormed (.string s)
  | array {items : List Value} : (∀ v ∈ items, Value.WellFormed v) → Value.WellFormed (.array items)
  | object {map : List (String × Value)} : (map.map Prod.fst).Nodup →
    (∀ e ∈ map, Value.WellFormed e.2) → Value.WellFormed (.object map)

theorem Value.wellFormed_array {items : List Value} :
    (Value.array items).WellFormed ↔ ∀ v ∈ items, v.WellFormed := by
  constructor
  · intro h
    cases h with
    | array h => exact h
  · exact Value.WellFormed.array

theorem Value.wellFormed_object {map : List (String × Value)} :
    (Value.object map).WellFormed ↔ (map.map Prod.fst).Nodup ∧ ∀ e ∈ map, e.2.WellFormed := by
  constructor
  · intro h
    cases h with
    | object hkeys h => exact ⟨hkeys, h⟩
  · exact fun h => Value.WellFormed.object h.1 h.2

/-- An object over one entry is well-formed if its value is. -/
theorem Value.wellFormed_singleton (k : String) {v : Value} (h : v.WellFormed) :
    (Value.object [(k, v)]).WellFormed := by
  refine .object (List.nodup_singleton _) ?_
  intro e he
  obtain rfl := List.mem_singleton.mp he
  exact h

theorem Value.wellFormed_pair {k l : String} (hne : k ≠ l) {v w : Value} (hv : v.WellFormed)
    (hw : w.WellFormed) : (Value.object [(k, v), (l, w)]).WellFormed := by
  refine .object (List.nodup_cons.mpr ⟨?_, List.nodup_singleton _⟩) ?_
  · exact fun h => hne (List.mem_singleton.mp h)
  · intro e he
    rcases List.mem_cons.mp he with rfl | he
    · exact hv
    · obtain rfl := List.mem_singleton.mp he
      exact hw

/-- Induction over a value, its items and its entries. -/
@[elab_as_elim]
theorem Value.induct {motive : Value → Prop} (null : motive .null) (bool : ∀ b, motive (.bool b))
    (number : ∀ n, motive (.number n)) (string : ∀ s, motive (.string s))
    (array : ∀ items, (∀ v ∈ items, motive v) → motive (.array items))
    (object : ∀ map, (∀ e ∈ map, motive e.2) → motive (.object map)) (v : Value) : motive v := by
  refine @Value.rec motive (fun items => ∀ v ∈ items, motive v)
    (fun map => ∀ e ∈ map, motive e.2) (fun e => motive e.2) null bool number string array object
    ?_ ?_ ?_ ?_ ?_ v
  · exact fun v hv => absurd hv List.not_mem_nil
  · exact fun _ _ hhead htail => List.forall_mem_cons.mpr ⟨hhead, htail⟩
  · exact fun e he => absurd he List.not_mem_nil
  · exact fun _ _ hhead htail => List.forall_mem_cons.mpr ⟨hhead, htail⟩
  · exact fun _ _ hv => hv

/-! ### Compact text -/

/-- The bytes of an ASCII text. -/
def ascii (s : String) : List UInt8 := s.toList.map Char.toUInt8

/-- What holds of the bytes of an ASCII text is checked byte by byte. -/
theorem forall_ascii {s : String} {p : UInt8 → Prop} [DecidablePred p]
    (h : (ascii s).all (fun b => p b) = true) : ∀ b ∈ ascii s, p b :=
  fun b hb => of_decide_eq_true (List.all_eq_true.mp h b hb)

/-- `serde_json::Map` is a `BTreeMap`, or an `IndexMap` under the feature `preserve_order`. -/
inductive MapKind where
  | bTreeMap
  | indexMap

/-- `Map::insert`. -/
def MapKind.insert : MapKind → String → Value → List (String × Value) → List (String × Value)
  | .bTreeMap => insertSorted
  | .indexMap => insertLast

/-- A map built by inserting the given entries one after another. -/
def MapKind.ofEntries (kind : MapKind) (entries : List (String × Value)) : List (String × Value) :=
  entries.foldl (fun map e => kind.insert e.1 e.2 map) []

/-- The parts of `serde_json` that are left open: its kind of map, and how it writes string
    literals and numbers. -/
structure SerdeJson where
  mapKind : MapKind
  string : String → List UInt8
  number : Number → List UInt8

mutual

/-- `serde_json::to_vec` of a value. -/
def toVec (serde : SerdeJson) : Value → List UInt8
  | .null => ascii "null"
  | .bool b => ascii (if b then "true" else "false")
  | .number n => serde.number n
  | .string s => serde.string s
  | .array items => bracketed '['.toUInt8 ','.toUInt8 ']'.toUInt8 id (itemTexts serde items)
  | .object map => bracketed '{'.toUInt8 ','.toUInt8 '}'.toUInt8 id (entryTexts serde map)

def itemTexts (serde : SerdeJson) : List Value → List (List UInt8)
  | [] => []
  | v :: items => toVec serde v :: itemTexts serde items

def entryTexts (serde : SerdeJson) : List (String × Value) → List (List UInt8)
  | [] => []
  | (k, v) :: map => (serde.string k ++ ':'.toUInt8 :: toVec serde v) :: entryTexts serde map

end

/-- The text of an entry of an object. -/
def entryText (serde : SerdeJson) (e : String × Value) : List UInt8 :=
  serde.string e.1 ++ ':'.toUInt8 :: toVec serde e.2

/-- `to_vec` of a sequence of values. -/
def seqToVec (serde : SerdeJson) (items : List Value) : List UInt8 :=
  bracketed '['.toUInt8 ','.toUInt8 ']'.toUInt8 (toVec serde) items

/-- `to_vec` of a map, given as its entries in iteration order. -/
def mapToVec (serde : SerdeJson) (map : List (String × Value)) : List UInt8 :=
  bracketed '{'.toUInt8 ','.toUInt8 '}'.toUInt8 (entryText serde) map

theorem itemTexts_eq_map (serde : SerdeJson) (items : List Value) :
    itemTexts serde items = items.map (toVec serde) := by
  induction items with
  | nil => rfl
  | cons v items ih => rw [itemTexts, ih, List.map_cons]

theorem entryTexts_eq_map (serde : SerdeJson) (map : List (String × Value)) :
    entryTexts serde map = map.map (entryText serde) := by
  induction map with
  | nil => rfl
  | cons e map ih => rw [entryTexts, ih, List.map_cons, entryText]

theorem toVec_array (serde : SerdeJson) (items : List Value) :
    toVec serde (.array items) = seqToVec serde items := by
  rw [toVec, itemTexts_eq_map, bracketed_map]
  rfl

theorem toVec_object (serde : SerdeJson) (map : List (String × Value)) :
    toVec serde (.object map) = mapToVec serde map := by
  rw [toVec, entryTexts_eq_map, bracketed_map]
  rfl

/-! ### Maps of either kind -/

namespace MapKind

/-- Either kind of map puts a key larger than the others behind them. -/
theorem insert_of_lt (kind : MapKind) (k : String) (v : Value) (m : List (String × Value))
    (h : ∀ k' ∈ m.map Prod.fst, k' < k) : kind.insert k v m = m ++ [(k, v)] := by
  cases kind with
  | bTreeMap => exact insertSorted_of_lt h
  | indexMap => exact insertLast_of_lt h

/-- Either kind of map adds an entry with a new key. -/
theorem insert_perm (kind : MapKind) (k : String) (v : Value) (m : List (String × Value))
    (h : k ∉ m.map Prod.fst) : (kind.insert k v m).Perm ((k, v) :: m) := by
  cases kind with
  | bTreeMap => exact insertSorted_perm h
  | indexMap =>
    show (insertLast k v m).Perm _
    rw [insertLast_of_not_mem h]
    exact List.perm_append_singleton _ _

theorem ofEntries_of_increasing (kind : MapKind) {entries : List (String × Value)}
    (h : Increasing entries) : kind.ofEntries entries = entries :=
  foldl_insert_of_increasing kind.insert_of_lt h

theorem ofEntries_perm (kind : MapKind) {entries : List (String × Value)}
    (h : (entries.map Prod.fst).Nodup) : (kind.ofEntries entries).Perm entries :=
  foldl_insert_perm kind.insert_perm h

theorem ofEntries_bTreeMap {entries : List (String × Value)} (h : (entries.map Prod.fst).Nodup) :
    MapKind.bTreeMap.ofEntries entries = sortBy Prod.fst entries :=
  foldl_insertSorted h

end MapKind

/-! ### What is assumed of the library -/

/-- The bytes numbers are written with. -/
def numberBytes : List UInt8 := ascii "0123456789+-.eE"

/-- String literals are quoted and tell where they end; numbers are written with their own bytes,
    and no two alike. -/
structure SerdeJson.Lawful (serde : SerdeJson) : Prop where
  string_quoted : ∀ s, ∃ rest, serde.string s = '"'.toUInt8 :: rest
  string_readable : ∀ s, Readable (fun _ => True) (fun _ => True) serde.string s
  number_ne_nil : ∀ n : Number, n.WellFormed → serde.number n ≠ []
  number_bytes : ∀ n : Number, n.WellFormed → ∀ b ∈ serde.number n, b ∈ numberBytes
  number_injective : ∀ m n : Number, m.WellFormed → n.WellFormed →
    serde.number m = serde.number n → m = n

/-! ### Reading a text -/

/-- The kinds of values. -/
inductive Shape where
  | null
  | bool
  | number
  | string
  | array
  | object
deriving DecidableEq

def Value.shape : Value → Shape
  | .null => .null
  | .bool _ => .bool
  | .number _ => .number
  | .string _ => .string
  | .array _ => .array
  | .object _ => .object

/-- The kind of value a first byte announces. -/
def shapeOf (b : UInt8) : Option Shape :=
  if b = 'n'.toUInt8 then some .null
  else if b = 't'.toUInt8 ∨ b = 'f'.toUInt8 then some .bool
  else if b = '"'.toUInt8 then some .string
  else if b = '['.toUInt8 then some .array
  else if b = '{'.toUInt8 then some .object
  else if b ∈ numberBytes then some .number
  else none

/-- The bytes that may follow a value inside another one. -/
def Ending (b : UInt8) : Prop := b ∈ [','.toUInt8, ']'.toUInt8, '}'.toUInt8]

instance (b : UInt8) : Decidable (Ending b) := inferInstanceAs (Decidable (b ∈ _))

theorem shapeOf_number : ∀ b ∈ numberBytes, shapeOf b = some .number ∧ ¬ Ending b :=
  forall_ascii (by decide)

section Lawful

variable {serde : SerdeJson} (hserde : serde.Lawful)

include hserde

/-- The first byte of a text tells the kind of the value. -/
theorem toVec_cons {v : Value} (hv : v.WellFormed) :
    ∃ b rest, toVec serde v = b :: rest ∧ shapeOf b = some v.shape := by
  cases v with
  | null => exact ⟨_, _, rfl, rfl⟩
  | bool b => cases b <;> exact ⟨_, _, rfl, rfl⟩
  | number n =>
    cases hv with
    | number hn =>
      obtain ⟨b, rest, htext⟩ := List.exists_cons_of_ne_nil (hserde.number_ne_nil n hn)
      refine ⟨b, rest, htext, (shapeOf_number b ?_).1⟩
      apply hserde.number_bytes n hn
      rw [htext]
      exact List.mem_cons_self
  | string s =>
    obtain ⟨rest, htext⟩ := hserde.string_quoted s
    exact ⟨_, rest, htext, rfl⟩
  | array items => exact ⟨_, _, rfl, rfl⟩
  | object map => exact ⟨_, _, rfl, rfl⟩

/-- Values whose texts start alike are of one kind. -/
theorem shape_eq {v w : Value} (hv : v.WellFormed) (hw : w.WellFormed) {x y : List UInt8}
    (h : toVec serde v ++ x = toVec serde w ++ y) : v.shape = w.shape := by
  obtain ⟨b, rest, htext, hshape⟩ := toVec_cons hserde hv
  obtain ⟨b', rest', htext', hshape'⟩ := toVec_cons hserde hw
  rw [htext, htext', List.cons_append, List.cons_append] at h
  rw [(List.cons.inj h).1, hshape'] at hshape
  exact (Option.some.inj hshape).symm

/-- **Unique readability.** The text of a value tells the value and what follows it. -/
theorem toVec_readable {v : Value} (hv : v.WellFormed) :
    Readable Ending Value.WellFormed (toVec serde) v := by
  have hcomma : Ending ','.toUInt8 := List.mem_cons_self
  have hbracket : Ending ']'.toUInt8 := by decide
  have hbrace : Ending '}'.toUInt8 := by decide
  induction v using Value.induct with
  | null =>
    intro w hw x y _ _ heq
    have hshape := shape_eq hserde hv hw heq
    cases w with
    | null => exact ⟨rfl, List.append_cancel_left heq⟩
    | _ => cases hshape
  | bool b =>
    intro w hw x y _ _ heq
    have hshape := shape_eq hserde hv hw heq
    cases w with
    | bool b' =>
      cases b <;> cases b'
      · exact ⟨rfl, List.append_cancel_left heq⟩
      · cases heq
      · cases heq
      · exact ⟨rfl, List.append_cancel_left heq⟩
    | _ => cases hshape
  | number n =>
    intro w hw x y hx hy heq
    have hshape := shape_eq hserde hv hw heq
    cases w with
    | number n' =>
      cases hv with
      | number hn =>
        cases hw with
        | number hn' =>
          have hreadable : Readable Ending Number.WellFormed serde.number n :=
            Readable.of_not_stop hn (fun m hm => hserde.number_injective n m hn hm)
              (fun m hm b hb => (shapeOf_number b (hserde.number_bytes m hm b hb)).2)
          obtain ⟨rfl, hxy⟩ := hreadable n' hn' x y hx hy heq
          exact ⟨rfl, hxy⟩
    | _ => cases hshape
  | string s =>
    intro w hw x y _ _ heq
    have hshape := shape_eq hserde hv hw heq
    cases w with
    | string s' =>
      obtain ⟨rfl, hxy⟩ := hserde.string_readable s s' trivial x y (fun _ _ => trivial)
        (fun _ _ => trivial) heq
      exact ⟨rfl, hxy⟩
    | _ => cases hshape
  | array items ih =>
    intro w hw x y hx hy heq
    have hshape := shape_eq hserde hv hw heq
    cases w with
    | array items' =>
      have hitems := Value.wellFormed_array.mp hv
      have hstart : ∀ u : Value, u.WellFormed →
          ∃ c rest, toVec serde u = c :: rest ∧ c ≠ ']'.toUInt8 := by
        intro u hu
        obtain ⟨c, rest, htext, hc⟩ := toVec_cons hserde hu
        refine ⟨c, rest, htext, ?_⟩
        rintro rfl
        cases hc
      rw [toVec_array, toVec_array] at heq
      obtain ⟨rfl, hxy⟩ := Readable.bracketed hcomma hbracket (by decide) hstart hitems
        (fun u hu => ih u hu (hitems u hu)) items' (Value.wellFormed_array.mp hw) x y hx hy heq
      exact ⟨rfl, hxy⟩
    | _ => cases hshape
  | object map ih =>
    intro w hw x y hx hy heq
    have hshape := shape_eq hserde hv hw heq
    cases w with
    | object map' =>
      have hmap := (Value.wellFormed_object.mp hv).2
      have hstart : ∀ e : String × Value, True ∧ e.2.WellFormed →
          ∃ c rest, entryText serde e = c :: rest ∧ c ≠ '}'.toUInt8 := by
        intro e _
        obtain ⟨rest, htext⟩ := hserde.string_quoted e.1
        have hquote : '"'.toUInt8 ≠ '}'.toUInt8 := by decide
        refine ⟨'"'.toUInt8, rest ++ ':'.toUInt8 :: toVec serde e.2, ?_, hquote⟩
        rw [entryText, htext, List.cons_append]
      have hreadable : ∀ e ∈ map, Readable Ending (fun e => True ∧ e.2.WellFormed)
          (entryText serde) e := by
        intro e he
        exact Readable.pair trivial (hserde.string_readable e.1) (ih e he (hmap e he))
      rw [toVec_object, toVec_object] at heq
      obtain ⟨rfl, hxy⟩ := Readable.bracketed hcomma hbrace (by decide) hstart
        (fun e he => ⟨trivial, hmap e he⟩) hreadable map'
        (fun e he => ⟨trivial, (Value.wellFormed_object.mp hw).2 e he⟩) x y hx hy heq
      exact ⟨rfl, hxy⟩
    | _ => cases hshape

theorem toVec_injective {v w : Value} (hv : v.WellFormed) (hw : w.WellFormed)
    (h : toVec serde v = toVec serde w) : v = w :=
  (toVec_readable hserde hv).injective hw h

end Lawful

/-! ### A rendering small enough to run

Texts without control characters and integers are written as `serde_json` writes them; a float
is written by its bits, which is not how `serde_json` writes it.  A hash goes with it.
-/

namespace Sample

def string (s : String) : List UInt8 :=
  quoted '"'.toUInt8 '\\'.toUInt8 s.toByteArray.data.toList

def number : Number → List UInt8
  | .posInt n => ascii n.toNat.repr
  | .negInt n => '-'.toUInt8 :: ascii n.toInt.natAbs.repr
  | .float x => ascii x.bits.toNat.repr ++ ascii ".0"

/-- The rendering, with objects sorted by their keys. -/
def serde : SerdeJson := ⟨.bTreeMap, string, number⟩

theorem string_readable (s : String) :
    Readable (fun _ => True) (fun _ => True) string s := by
  have hne : '"'.toUInt8 ≠ '\\'.toUInt8 := by decide
  intro t _ x y hx hy h
  obtain ⟨hbytes, hxy⟩ := Readable.quoted hne s.toByteArray.data.toList _ trivial x y hx hy h
  have harrays := ByteArray.ext (Array.toList_inj.mp hbytes)
  exact ⟨String.toByteArray_inj.mp harrays, hxy⟩

/-- The characters of a numeral are decimal digits. -/
theorem mem_repr {n : Nat} {c : Char} (h : c ∈ n.repr.toList) : c ∈ "0123456789".toList := by
  rw [Nat.toList_repr] at h
  have hdigit := Nat.isDigit_of_mem_toDigits (by decide) (by decide) h
  simp only [Char.isDigit, ge_iff_le, Bool.and_eq_true, decide_eq_true_eq,
    UInt32.le_iff_toNat_le] at hdigit
  have hlow : 48 ≤ c.toNat := hdigit.1
  have hhigh : c.toNat ≤ 57 := hdigit.2
  rw [← Char.ofNat_toNat c]
  interval_cases c.toNat <;> decide

theorem ascii_repr_bytes {n : Nat} {b : UInt8} (h : b ∈ ascii n.repr) : b ∈ ascii "0123456789" := by
  obtain ⟨c, hc, rfl⟩ := List.mem_map.mp h
  exact List.mem_map_of_mem (mem_repr hc)

/-- A numeral is read off its bytes in front of anything but a digit. -/
theorem ascii_repr_readable {stop : UInt8 → Prop}
    (hstop : ∀ b ∈ ascii "0123456789", ¬ stop b) (n : Nat) :
    Readable stop (fun _ => True) (fun n : Nat => ascii n.repr) n := by
  refine Readable.of_not_stop trivial ?_ (fun m _ b hb => hstop b (ascii_repr_bytes hb))
  intro m _ h
  -- the bytes of digits are decoded again
  have hdecode : ∀ k : Nat, (ascii k.repr).map (fun b => Char.ofNat b.toNat) = k.repr.toList := by
    intro k
    have hdigits : "0123456789".toList.all (fun c => Char.ofNat c.toUInt8.toNat = c) = true := by
      decide
    have hdigit : ∀ c ∈ k.repr.toList, Char.ofNat c.toUInt8.toNat = c :=
      fun c hc => of_decide_eq_true (List.all_eq_true.mp hdigits c (mem_repr hc))
    rw [ascii, List.map_map]
    exact (List.map_congr_left hdigit).trans (List.map_id _)
  have hrepr : n.repr.toList = m.repr.toList := by
    rw [← hdecode n, h, hdecode m]
  rw [Nat.toList_repr, Nat.toList_repr] at hrepr
  rw [← Nat.ofDigitChars_ten_toDigits (n := n), hrepr, Nat.ofDigitChars_ten_toDigits]

theorem number_injective (m n : Number) (hm : m.WellFormed) (hn : n.WellFormed)
    (h : number m = number n) : m = n := by
  let stop : UInt8 → Prop := fun b => b = '.'.toUInt8
  have hstop : ∀ b ∈ ascii "0123456789", b ≠ '.'.toUInt8 := forall_ascii (by decide)
  have hnumeral := ascii_repr_readable hstop
  have hpoint : Stops stop (ascii ".0") := stops_cons.mpr rfl
  -- a numeral has no point, and no sign; a point is followed by nothing but the zero
  have hfloat : ∀ j k : Nat, ascii j.repr ≠ ascii k.repr ++ ascii ".0" := by
    intro j k heq
    rw [← List.append_nil (ascii j.repr)] at heq
    have hrest := (hnumeral j k trivial [] (ascii ".0") stops_nil hpoint heq).2
    cases hrest
  have hsign : ∀ (k : Nat) (rest : List UInt8), '-'.toUInt8 :: rest ≠ ascii k.repr := by
    intro k rest heq
    have hmem : '-'.toUInt8 ∈ ascii k.repr := by rw [← heq]; exact List.mem_cons_self
    exact absurd (ascii_repr_bytes hmem) (by decide)
  have hsign' : ∀ (k : Nat) (rest : List UInt8),
      '-'.toUInt8 :: rest ≠ ascii k.repr ++ ascii ".0" := by
    intro k rest heq
    have hmem : '-'.toUInt8 ∈ ascii k.repr ++ ascii ".0" := by rw [← heq]; exact List.mem_cons_self
    rcases List.mem_append.mp hmem with hmem | hmem
    · exact absurd (ascii_repr_bytes hmem) (by decide)
    · exact absurd hmem (by decide)
  cases m with
  | posInt m =>
    cases n with
    | posInt n => rw [UInt64.toNat_inj.mp ((hnumeral m.toNat).injective trivial h)]
    | negInt n => exact absurd h.symm (hsign _ _)
    | float x => exact absurd h (hfloat _ _)
  | negInt m =>
    cases n with
    | posInt n => exact absurd h (hsign _ _)
    | negInt n =>
      have habs : m.toInt.natAbs = n.toInt.natAbs :=
        (hnumeral m.toInt.natAbs).injective trivial (List.cons.inj h).2
      have hm' : m.toInt < 0 := Int64.lt_iff_toInt_lt.mp hm
      have hn' : n.toInt < 0 := Int64.lt_iff_toInt_lt.mp hn
      have hint : m.toInt = n.toInt := by omega
      rw [Int64.toInt_inj.mp hint]
    | float x => exact absurd h (hsign' _ _)
  | float x =>
    cases n with
    | posInt n => exact absurd h.symm (hfloat _ _)
    | negInt n => exact absurd h.symm (hsign' _ _)
    | float y =>
      have hbits := (hnumeral x.bits.toNat).injective trivial (List.append_cancel_right h)
      have heq : x = y := by
        cases x
        cases y
        exact congrArg F64.mk (UInt64.toNat_inj.mp hbits)
      rw [heq]

theorem serde_lawful : serde.Lawful where
  string_quoted := fun s => ⟨_, rfl⟩
  string_readable := string_readable
  number_ne_nil := by
    have hne : ∀ k : Nat, ascii k.repr ≠ [] := by
      intro k h
      have hnil : k.repr.toList = [] := List.map_eq_nil_iff.mp h
      rw [Nat.toList_repr] at hnil
      exact Nat.toDigits_ne_nil hnil
    intro n _
    cases n with
    | posInt n => exact hne _
    | negInt n => exact List.cons_ne_nil _ _
    | float x => exact List.append_ne_nil_of_left_ne_nil (hne _) _
  number_bytes := by
    have hdigit : ∀ k : Nat, ∀ b ∈ ascii k.repr, b ∈ numberBytes := by
      have hsub : ∀ b ∈ ascii "0123456789", b ∈ numberBytes := forall_ascii (by decide)
      exact fun k b hb => hsub b (ascii_repr_bytes hb)
    intro n _ b hb
    cases n with
    | posInt n => exact hdigit _ b hb
    | negInt n =>
      rcases List.mem_cons.mp hb with rfl | hb
      · decide
      · exact hdigit _ b hb
    | float x =>
      have hpoint : ∀ b ∈ ascii ".0", b ∈ numberBytes := forall_ascii (by decide)
      rcases List.mem_append.mp hb with hb | hb
      · exact hdigit _ b hb
      · exact hpoint b hb
  number_injective := number_injective

/-- A hash without collisions: each byte as a character. -/
def blake3 (bytes : List UInt8) : String := String.ofList (bytes.map (fun b => Char.ofNat b.toNat))

theorem blake3_injective : Function.Injective blake3 := by
  intro v w h
  have hcode : ∀ b : UInt8, (Char.ofNat b.toNat).toNat = b.toNat := by
    intro b
    have hvalid : b.toNat.isValidChar := by
      have := b.toNat_lt
      exact Or.inl (by omega)
    rw [Char.ofNat, dif_pos hvalid]
    rfl
  have hinj : Function.Injective (fun b : UInt8 => Char.ofNat b.toNat) := by
    intro b c heq
    apply UInt8.toNat_inj.mp
    rw [← hcode b, ← hcode c]
    exact congrArg Char.toNat heq
  exact List.map_injective_iff.mpr hinj (String.ofList_injective h)

end Sample

end DarqEval
