import Mathlib.Data.List.AList

namespace DarqEval

/-!
# Types of the libraries the crate builds on

What the crate takes from `std`, `uuid`, `chrono` and `serde_json`, as far as its own code
looks at them: identifiers and instants are compared and copied only, a float is its bit
pattern, a `HashMap` is its entries in iteration order with distinct keys.
-/

/-- `uuid::Uuid`: 128 bits, compared and copied. -/
abbrev Uuid := BitVec 128

/-- `chrono::DateTime<Utc>`, in nanoseconds since the epoch. -/
abbrev DateTime := Int

/-- `f64`, as its bit pattern. -/
structure F64 where
  bits : UInt64
deriving DecidableEq

/-- Neither infinite nor a NaN: the exponent is not the largest one. -/
def F64.isFinite (x : F64) : Bool := x.bits &&& 0x7FF0000000000000 != 0x7FF0000000000000

/-- `f64::is_nan`: the exponent is the largest one, and the mantissa is not zero. -/
def F64.isNan (x : F64) : Bool := !x.isFinite && x.bits &&& 0x000FFFFFFFFFFFFF != 0

/-- `std::collections::HashMap`: entries in iteration order, keys distinct. -/
abbrev HashMap (κ α : Type) := AList (fun _ : κ => α)

/-- `HashMap::into_values`, in iteration order. -/
def HashMap.intoValues {κ α : Type} (m : HashMap κ α) : List α :=
  m.entries.map Sigma.snd

/-- `HashMap::iter`, in iteration order. -/
def HashMap.iter {κ α : Type} (m : HashMap κ α) : List (κ × α) :=
  m.entries.map (fun e => (e.1, e.2))

theorem HashMap.keys_iter {κ α : Type} (m : HashMap κ α) : (m.iter.map Prod.fst).Nodup := by
  rw [iter, List.map_map]
  exact m.nodupKeys

/-- `serde_json::Number`. -/
inductive Number where
  | posInt (n : UInt64)
  | negInt (n : Int64)
  | float (x : F64)
deriving DecidableEq

/-- `serde_json::Value`; an object is its entries in iteration order. -/
inductive Value where
  | null
  | bool (b : Bool)
  | number (n : Number)
  | string (s : String)
  | array (items : List Value)
  | object (map : List (String × Value))

/-- `Value::default()` is `Null`. -/
instance : Inhabited Value := ⟨.null⟩

end DarqEval
