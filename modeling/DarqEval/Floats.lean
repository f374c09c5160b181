import DarqEval.PolicyJson
import Mathlib

namespace DarqEval

/-!
# Floating-point numbers

The arithmetic of `f64` on bit patterns, as far as the decisions built on the crate use it.  An
operation returns the canonical NaN where the language leaves the bits of a NaN open.

* `F64.ofU64`, `F64.toU64` — the casts `as f64` and `as u64`;
* `F64.fixed`, `F64.display` — the texts of `{:.n}` and `{}`;
* `F64.place`, `F64.lt_iff` — a NaN is in no order, and other numbers are in a total one;
* `Value.asF64`, `Value.asU64` — reading a number back from a JSON value.
-/

namespace F64

/-- The number a bit pattern stands for. -/
def toModel (x : F64) : Float.Model := .ofBits x.bits

/-- The bit pattern of a number. -/
def ofModel (x : Float.Model) : F64 := ⟨x.toBits⟩

instance : Add F64 := ⟨fun x y => ofModel (x.toModel + y.toModel)⟩
instance : Sub F64 := ⟨fun x y => ofModel (x.toModel - y.toModel)⟩
instance : Mul F64 := ⟨fun x y => ofModel (x.toModel * y.toModel)⟩

/-- Decimal literals. -/
instance : OfScientific F64 :=
  ⟨fun m neg e => ofModel (.ofScientific m (if neg then -e else e))⟩

instance : LT F64 := ⟨fun x y => x.toModel.lt y.toModel = true⟩
instance : LE F64 := ⟨fun x y => x.toModel.le y.toModel = true⟩
instance (x y : F64) : Decidable (x < y) := inferInstanceAs (Decidable (_ = true))
instance (x y : F64) : Decidable (x ≤ y) := inferInstanceAs (Decidable (_ = true))

/-- `as f64` of a `u64`. -/
def ofU64 (n : UInt64) : F64 := ofModel (.ofUInt64 n)

/-- `as u64` of an `f64`: the fraction is cut off, what is out of range is clamped, and a NaN is
    zero. -/
def toU64 (x : F64) : UInt64 := x.toModel.toUInt64

/-! ### Texts -/

/-- The decimal numeral of `n / 10 ^ digits` with that many digits behind the point. -/
def decimal (digits n : Nat) : String :=
  if digits = 0 then n.repr
  else
    let fraction := (n % 10 ^ digits).repr
    (n / 10 ^ digits).repr ++ "." ++ "".pushn '0' (digits - fraction.length) ++ fraction

/-- The fraction `m * 2 ^ e * 10 ^ k`. -/
def scaled (m : Nat) (e k : Int) : Nat × Nat :=
  (m * 2 ^ e.toNat * 10 ^ k.toNat, 2 ^ (-e).toNat * 10 ^ (-k).toNat)

/-- A fraction rounded to the nearest integer, a tie to the even one. -/
def roundEven (num den : Nat) : Nat :=
  match compare (2 * (num % den)) den with
  | .lt => num / den
  | .eq => num / den + num / den % 2
  | .gt => num / den + 1

/-- The text of a number, from that of its absolute value. -/
def signed (sign : Float.Model.UnpackedFloat.Sign) (text : String) : String :=
  match sign with
  | .negative => "-" ++ text
  | .positive => text

/-- `format!("{:.n}", x)`, for `n` digits. -/
def fixed (digits : Nat) (x : F64) : String :=
  match x.toModel.unpack with
  | .notANumber => "NaN"
  | .infinity sign => signed sign "inf"
  | .zero sign => signed sign (decimal digits 0)
  | .finite sign m e _ =>
    let (num, den) := scaled m e digits
    signed sign (decimal digits (roundEven num den))

/-- The multiple of `10 ^ k` closest to `m * 2 ^ e` of those next to it that are read as `x`. -/
def nearest (x : Float.Model) (m : Nat) (e k : Int) : Option Nat :=
  let (num, den) := scaled m e (-k)
  let low := num / den
  let isLow := Float.Model.ofScientific low k == x
  let isHigh := Float.Model.ofScientific (low + 1) k == x
  if isHigh && (!isLow || den ≤ 2 * (num % den)) then some (low + 1)
  else if isLow then some low
  else none

/-- The first multiple of a power of ten that is read as `x`, from the power `k` downwards. -/
def shortest (x : Float.Model) (m : Nat) (e : Int) : Nat → Int → Nat × Int
  | 0, k => (0, k)
  | fuel + 1, k =>
    match nearest x m e k with
    | some n => (n, k)
    | none => shortest x m e fuel (k - 1)

/-- `format!("{}", x)`: as few digits as tell the number. -/
def display (x : F64) : String :=
  match x.toModel.unpack with
  | .notANumber => "NaN"
  | .infinity sign => signed sign "inf"
  | .zero sign => signed sign "0"
  | .finite sign m e _ =>
    -- the largest number is below `10 ^ 309`, and no number has a digit behind the 1074th place
    let (n, k) := shortest x.toModel.abs m e (309 + 1074 + 1) 309
    signed sign (decimal (-k).toNat (n * 10 ^ k.toNat))

/-! ### NaNs -/

section Bits

open Float.Model (UnpackedFloat Format)
open Float.Model.UnpackedFloat

variable (b : BitVec 64)

private theorem getLsbD_exponent {i : Nat} (hi : i < 11) :
    (@unpackExponent .binary64 b).getLsbD i = b.getLsbD (52 + i) := by
  simp [unpackExponent, hi]

private theorem getLsbD_mantissa {i : Nat} (hi : i < 52) :
    (@unpackMantissa .binary64 b).getLsbD i = b.getLsbD i := by
  simp [unpackMantissa, hi]

/-- The exponent is the largest one. -/
private theorem exponent_eq :
    @unpackExponent .binary64 b = -1#_ ↔
      b &&& 0x7FF0000000000000#64 = 0x7FF0000000000000#64 := by
  have hmask : ∀ i < 64, (0x7FF0000000000000#64).getLsbD i = decide (52 ≤ i ∧ i < 63) := by decide
  have hones : ∀ i < 11, (-1#11).getLsbD i = true := by decide
  constructor
  · intro h
    refine BitVec.eq_of_getLsbD_eq (fun i hi => ?_)
    rw [BitVec.getLsbD_and, hmask i hi]
    by_cases hr : 52 ≤ i ∧ i < 63
    · have hbit := getLsbD_exponent b (i := i - 52) (by omega)
      rw [h, hones _ (by omega), Nat.add_sub_cancel' hr.1] at hbit
      rw [← hbit, Bool.true_and]
    · rw [decide_eq_false hr, Bool.and_false]
  · intro h
    refine BitVec.eq_of_getLsbD_eq (fun i hi => ?_)
    have hi' : i < 11 := hi
    have hbit := congrArg (fun v => v.getLsbD (52 + i)) h
    simp only [BitVec.getLsbD_and, hmask (52 + i) (by omega)] at hbit
    rw [getLsbD_exponent b hi', hones i hi']
    simpa [show 52 + i < 63 from by omega] using hbit

/-- The mantissa is zero. -/
private theorem mantissa_eq :
    @unpackMantissa .binary64 b = 0#_ ↔ b &&& 0x000FFFFFFFFFFFFF#64 = 0#64 := by
  have hmask : ∀ i < 64, (0x000FFFFFFFFFFFFF#64).getLsbD i = decide (i < 52) := by decide
  constructor
  · intro h
    refine BitVec.eq_of_getLsbD_eq (fun i hi => ?_)
    rw [BitVec.getLsbD_and, hmask i hi]
    by_cases hr : i < 52
    · have hbit := getLsbD_mantissa b hr
      rw [h] at hbit
      simp [← hbit]
    · simp [hr]
  · intro h
    refine BitVec.eq_of_getLsbD_eq (fun i hi => ?_)
    have hi' : i < 52 := hi
    have hbit := congrArg (fun v => v.getLsbD i) h
    simp only [BitVec.getLsbD_and, hmask i (by omega)] at hbit
    rw [getLsbD_mantissa b hi']
    simpa [hi'] using hbit

private theorem isNaN_unpack :
    (unpack Format.binary64 b).isNaN = true ↔
      @unpackExponent .binary64 b = -1#_ ∧
        @unpackMantissa .binary64 b ≠ 0#_ := by
  unfold unpack
  simp only []
  split
  · split <;> simp_all [UnpackedFloat.isNaN]
  · split
    · split <;> simp_all [UnpackedFloat.isNaN]
    · simp_all [UnpackedFloat.isNaN]

/-- Packing makes no NaN of anything else. -/
private theorem isNaN_unpack_pack (u : UnpackedFloat) :
    (unpack Format.binary64 (pack Format.binary64 u)).isNaN = u.isNaN := by
  rw [Bool.eq_iff_iff, isNaN_unpack]
  fun_cases pack Format.binary64 u with
  | case1 => simp [packedNaN, UnpackedFloat.isNaN]
  | case2 s => simp [packedInfinity, UnpackedFloat.isNaN]
  | case3 s => simp [packedZero, UnpackedFloat.isNaN]
  | case4 s m e hm biasedExponent h => simp [packedInfinity, UnpackedFloat.isNaN]
  | case5 s m e hm actualMantissaBits biasedExponent h₁ h₂ =>
    -- the exponent of a normal number is below the largest one
    have hlt : biasedExponent < 2047 := by
      simp only [not_le] at h₁
      omega
    have hne : BitVec.ofNat 11 biasedExponent ≠ 2047#11 := by
      rw [ne_eq, ← BitVec.toNat_inj, BitVec.toNat_ofNat, Nat.mod_eq_of_lt (by omega)]
      exact Nat.ne_of_lt hlt
    simp [UnpackedFloat.isNaN, hne]
  | case6 s m e hm actualMantissaBits biasedExponent h₁ h₂ => simp [UnpackedFloat.isNaN]

end Bits

/-- The NaNs are told by their bits. -/
theorem toModel_isNaN (x : F64) : x.toModel.isNaN = x.isNan := by
  show (Float.Model.UnpackedFloat.unpack Float.Model.Format.binary64
    (Float.Model.UnpackedFloat.pack Float.Model.Format.binary64
      (Float.Model.UnpackedFloat.unpack Float.Model.Format.binary64 x.bits.toBitVec))).isNaN = _
  rw [isNaN_unpack_pack, Bool.eq_iff_iff, isNaN_unpack, exponent_eq, ne_eq, mantissa_eq]
  simp only [isNan, isFinite]
  simp [← UInt64.toBitVec_inj]

/-! ### Comparisons -/

section Compare

open Float.Model (UnpackedFloat)

/-- The place of a number in the order of all of them; that of a NaN means nothing. -/
def place : UnpackedFloat → ℤ ×ₗ ℤ ×ₗ ℤ
  | .notANumber => toLex (0, toLex (0, 0))
  | .infinity .positive => toLex (2, toLex (0, 0))
  | .infinity .negative => toLex (-2, toLex (0, 0))
  | .zero _ => toLex (0, toLex (0, 0))
  | .finite .positive m e _ => toLex (1, toLex (e, (m : ℤ)))
  | .finite .negative m e _ => toLex (-1, toLex (-e, -(m : ℤ)))

private theorem compare_triple (a b c a' b' c' : ℤ) :
    compare (toLex (a, toLex (b, c)) : ℤ ×ₗ ℤ ×ₗ ℤ) (toLex (a', toLex (b', c'))) =
      (compare a a').then ((compare b b').then (compare c c')) := by
  simp only [Prod.Lex.compare_def, compareLex, compareOn, ofLex_toLex]

private theorem compare_cast (m n : Nat) : compare (m : ℤ) n = compare m n := by
  rcases lt_trichotomy m n with h | h | h
  · rw [compare_lt_iff_lt.mpr h, compare_lt_iff_lt.mpr (Int.ofNat_lt.mpr h)]
  · rw [compare_eq_iff_eq.mpr h, compare_eq_iff_eq.mpr (congrArg _ h)]
  · rw [compare_gt_iff_gt.mpr h, compare_gt_iff_gt.mpr (Int.ofNat_lt.mpr h)]

private theorem compare_neg (a b : ℤ) : compare (-a) (-b) = (compare a b).swap := by
  rw [Int.compare_swap]
  rcases lt_trichotomy a b with h | h | h
  · rw [compare_gt_iff_gt.mpr h, compare_gt_iff_gt.mpr (neg_lt_neg h)]
  · rw [compare_eq_iff_eq.mpr h.symm, compare_eq_iff_eq.mpr (congrArg _ h)]
  · rw [compare_lt_iff_lt.mpr h, compare_lt_iff_lt.mpr (neg_lt_neg h)]

/-- Numbers are compared by their places. -/
private theorem compare_eq {x y : UnpackedFloat} (hx : x.isNaN = false) (hy : y.isNaN = false) :
    x.compare y = some (compare (place x) (place y)) := by
  cases x with
  | notANumber => cases hx
  | infinity s =>
    cases y with
    | notANumber => cases hy
    | infinity s' | finite s' _ _ _ => cases s <;> cases s' <;> rfl
    | zero _ => cases s <;> rfl
  | zero s =>
    cases y with
    | notANumber => cases hy
    | infinity s' | finite s' _ _ _ => cases s' <;> rfl
    | zero _ => rfl
  | finite s m e hm =>
    cases y with
    | notANumber => cases hy
    | infinity s' => cases s <;> cases s' <;> rfl
    | zero _ => cases s <;> rfl
    | finite s' m' e' hm' =>
      cases s with
      | positive =>
        cases s' with
        | positive =>
          rw [place, place, compare_triple, compare_cast]
          rfl
        | negative => rfl
      | negative =>
        cases s' with
        | positive => rfl
        | negative =>
          -- below zero, larger exponents and mantissas come first
          rw [place, place, compare_triple, compare_neg e e', compare_neg (m : ℤ) m', compare_cast,
            ← Ordering.swap_then]
          rfl

/-- A NaN is compared with nothing. -/
private theorem compare_eq_none {x y : UnpackedFloat} (h : x.isNaN = true ∨ y.isNaN = true) :
    x.compare y = none := by
  rcases h with h | h
  · cases x with
    | notANumber => rfl
    | _ => cases h
  · cases y with
    | notANumber => cases x <;> rfl
    | _ => cases h

end Compare

variable {x y z : F64}

/-- A NaN is in no order with anything. -/
theorem not_lt_of_isNan (h : x.isNan = true ∨ y.isNan = true) : ¬ x < y := by
  rw [← toModel_isNaN, ← toModel_isNaN] at h
  have hnone : x.toModel.unpack.compare y.toModel.unpack = none := compare_eq_none h
  show ¬ (x.toModel.unpack.compare y.toModel.unpack == some .lt) = true
  rw [hnone]
  exact Bool.false_ne_true

theorem not_le_of_isNan (h : x.isNan = true ∨ y.isNan = true) : ¬ x ≤ y := by
  rw [← toModel_isNaN, ← toModel_isNaN] at h
  have hnone : x.toModel.unpack.compare y.toModel.unpack = none := compare_eq_none h
  show ¬ ((x.toModel.unpack.compare y.toModel.unpack).any Ordering.isLE) = true
  rw [hnone]
  exact Bool.false_ne_true

theorem isNan_of_lt (h : x < y) : x.isNan = false ∧ y.isNan = false := by
  by_contra hnan
  rw [not_and_or, Bool.not_eq_false, Bool.not_eq_false] at hnan
  exact not_lt_of_isNan hnan h

theorem isNan_of_le (h : x ≤ y) : x.isNan = false ∧ y.isNan = false := by
  by_contra hnan
  rw [not_and_or, Bool.not_eq_false, Bool.not_eq_false] at hnan
  exact not_le_of_isNan hnan h

/-- Without a NaN, numbers are ordered by their places. -/
theorem lt_iff (hx : x.isNan = false) (hy : y.isNan = false) :
    x < y ↔ place x.toModel.unpack < place y.toModel.unpack := by
  rw [← toModel_isNaN] at hx hy
  show (x.toModel.unpack.compare y.toModel.unpack == some .lt) = true ↔ _
  rw [compare_eq hx hy, beq_iff_eq, Option.some.injEq, compare_lt_iff_lt]

theorem le_iff (hx : x.isNan = false) (hy : y.isNan = false) :
    x ≤ y ↔ place x.toModel.unpack ≤ place y.toModel.unpack := by
  rw [← toModel_isNaN] at hx hy
  show ((x.toModel.unpack.compare y.toModel.unpack).any Ordering.isLE) = true ↔ _
  rw [compare_eq hx hy, Option.any_some, Ordering.isLE_iff_ne_gt]
  exact compare_le_iff_le

/-- Without a NaN the order is total. -/
theorem lt_of_not_le (hx : x.isNan = false) (hy : y.isNan = false) (h : ¬ x ≤ y) : y < x := by
  rw [le_iff hx hy] at h
  exact (lt_iff hy hx).mpr (not_le.mp h)

theorem le_of_not_lt (hx : x.isNan = false) (hy : y.isNan = false) (h : ¬ x < y) : y ≤ x := by
  rw [lt_iff hx hy] at h
  exact (le_iff hy hx).mpr (not_lt.mp h)

protected theorem lt_of_lt_of_le (h : x < y) (h' : y ≤ z) : x < z := by
  obtain ⟨hx, hy⟩ := isNan_of_lt h
  obtain ⟨-, hz⟩ := isNan_of_le h'
  exact (lt_iff hx hz).mpr (((lt_iff hx hy).mp h).trans_le ((le_iff hy hz).mp h'))

protected theorem lt_of_le_of_lt (h : x ≤ y) (h' : y < z) : x < z := by
  obtain ⟨hx, hy⟩ := isNan_of_le h
  obtain ⟨-, hz⟩ := isNan_of_lt h'
  exact (lt_iff hx hz).mpr (((le_iff hx hy).mp h).trans_lt ((lt_iff hy hz).mp h'))

end F64

/-! ### Numbers in JSON values -/

namespace Value

/-- `value[key]`, which is `Null` where there is no such entry. -/
def index (v : Value) (key : String) : Value :=
  match v with
  | .object map => (map.lookup key).getD .null
  | _ => .null

/-- `Value::as_f64`. -/
def asF64 : Value → Option F64
  | .number (.posInt n) => some (.ofU64 n)
  | .number (.negInt n) => some (.ofModel (.ofInt64 n))
  | .number (.float x) => some x
  | _ => none

/-- `Value::as_u64`. -/
def asU64 : Value → Option UInt64
  | .number (.posInt n) => some n
  | _ => none

/-- Entries with distinct keys are read back from the object built of them. -/
theorem index_ofEntries (kind : MapKind) {entries : List (String × Value)}
    (h : (entries.map Prod.fst).Nodup) (key : String) :
    (object (kind.ofEntries entries)).index key = (entries.lookup key).getD .null := by
  have hperm := kind.ofEntries_perm h
  show ((kind.ofEntries entries).lookup key).getD .null = _
  rw [Lib.lookup_eq_of_perm ((hperm.map Prod.fst).nodup_iff.mpr h) hperm]

/-- What is not finite is written as `Null`, and not read back. -/
theorem asF64_ofF64 (x : F64) : (ofF64 x).asF64 = if x.isFinite then some x else none := by
  unfold ofF64
  by_cases h : x.isFinite = true
  · rw [if_pos h, if_pos h]
    rfl
  · rw [if_neg h, if_neg h]
    rfl

end Value

/-- What a number is read as that was written to JSON, with zero where nothing is read. -/
def F64.reread (x : F64) : F64 := if x.isFinite then x else 0.0

theorem Value.getD_asF64_ofF64 (x : F64) : (ofF64 x).asF64.getD 0.0 = x.reread := by
  rw [asF64_ofF64, F64.reread]
  split <;> rfl

namespace F64

theorem reread_of_isFinite {x : F64} (h : x.isFinite = true) : x.reread = x := if_pos h

theorem isNan_reread (x : F64) : x.reread.isNan = false := by
  unfold reread isNan
  by_cases h : x.isFinite = true
  · rw [if_pos h, h]
    rfl
  · rw [if_neg h]
    rfl

end F64

end DarqEval
