import DarqEval.Primitives

namespace DarqEval

/-!
# Policy bundles

Versioned configuration that parameterizes an evaluation.  Contexts and snapshots carry a
bundle around; strategies read it.
-/

/-- A dynamically-typed policy value; a map is its entries in iteration order. -/
inductive PolicyValue where
  | float (x : F64)
  | int (n : Int64)
  | bool (b : Bool)
  | text (s : String)
  | list (items : List PolicyValue)
  | map (entries : List (String × PolicyValue))

/-- A versioned bundle of policy values with audit metadata. -/
structure PolicyBundle where
  id : String
  version : String
  effectiveAt : DateTime
  commitHash : Option String
  values : HashMap String PolicyValue
  changelog : Option String

/-- Create a new policy bundle with the given id and version, effective `now`. -/
def PolicyBundle.new (now : DateTime) (id version : String) : PolicyBundle where
  id := id
  version := version
  effectiveAt := now
  commitHash := none
  values := ∅
  changelog := none

namespace PolicyBundle

/-- Add a policy value, in place of the one with its key, if there is one. -/
def withValue (p : PolicyBundle) (key : String) (value : PolicyValue) : PolicyBundle :=
  { p with values := p.values.insert key value }

/-- Set the git commit hash. -/
def withCommit (p : PolicyBundle) (hash : String) : PolicyBundle :=
  { p with commitHash := some hash }

/-- Set the changelog entry. -/
def withChangelog (p : PolicyBundle) (changelog : String) : PolicyBundle :=
  { p with changelog := some changelog }

/-- Get a policy value by key. -/
def get (p : PolicyBundle) (key : String) : Option PolicyValue := p.values.lookup key

/-- Get the content of a policy value by key, falling back to a default if the value is missing or
    not of the expected variant. -/
def getAs {α : Type} (content : PolicyValue → Option α) (p : PolicyBundle) (key : String)
    (default : α) : α :=
  ((p.values.lookup key).bind content).getD default

/-- Get a float policy value, falling back to a default. -/
def getF64 : PolicyBundle → String → F64 → F64 := getAs (fun
  | .float v => some v
  | _ => none)

/-- Get a boolean policy value, falling back to a default. -/
def getBool : PolicyBundle → String → Bool → Bool := getAs (fun
  | .bool v => some v
  | _ => none)

/-- Get an integer policy value, falling back to a default. -/
def getI64 : PolicyBundle → String → Int64 → Int64 := getAs (fun
  | .int v => some v
  | _ => none)

/-- Get a string policy value, falling back to a default. -/
def getText : PolicyBundle → String → String → String := getAs (fun
  | .text v => some v
  | _ => none)

end PolicyBundle

/-! ### Well-formed policies -/

/-- The maps of a value are `HashMap`s: keys are distinct, at every depth. -/
inductive PolicyValue.WellFormed : PolicyValue → Prop
  | float (x : F64) : PolicyValue.WellFormed (.float x)
  | int (n : Int64) : PolicyValue.WellFormed (.int n)
  | bool (b : Bool) : PolicyValue.WellFormed (.bool b)
  | text (s : String) : PolicyValue.WellFormed (.text s)
  | list {items : List PolicyValue} : (∀ v ∈ items, PolicyValue.WellFormed v) →
    PolicyValue.WellFormed (.list items)
  | map {entries : List (String × PolicyValue)} : (entries.map Prod.fst).Nodup →
    (∀ e ∈ entries, PolicyValue.WellFormed e.2) → PolicyValue.WellFormed (.map entries)

/-- The values of a bundle are well-formed. -/
def PolicyBundle.WellFormed (p : PolicyBundle) : Prop := ∀ e ∈ p.values.iter, e.2.WellFormed

namespace PolicyValue

theorem wellFormed_list {items : List PolicyValue} :
    (list items).WellFormed ↔ ∀ v ∈ items, v.WellFormed := by
  constructor
  · intro h
    cases h with
    | list h => exact h
  · exact WellFormed.list

theorem wellFormed_map {entries : List (String × PolicyValue)} :
    (map entries).WellFormed ↔
      (entries.map Prod.fst).Nodup ∧ ∀ e ∈ entries, e.2.WellFormed := by
  constructor
  · intro h
    cases h with
    | map hkeys h => exact ⟨hkeys, h⟩
  · exact fun h => WellFormed.map h.1 h.2

/-- Induction over a policy value, its items and its entries. -/
@[elab_as_elim]
theorem induct {motive : PolicyValue → Prop} (float : ∀ x, motive (.float x))
    (int : ∀ n, motive (.int n)) (bool : ∀ b, motive (.bool b)) (text : ∀ s, motive (.text s))
    (list : ∀ items, (∀ v ∈ items, motive v) → motive (.list items))
    (map : ∀ entries, (∀ e ∈ entries, motive e.2) → motive (.map entries)) (v : PolicyValue) :
    motive v := by
  refine @PolicyValue.rec motive (fun items => ∀ v ∈ items, motive v)
    (fun entries => ∀ e ∈ entries, motive e.2) (fun e => motive e.2) float int bool text list map
    ?_ ?_ ?_ ?_ ?_ v
  · exact fun v hv => absurd hv List.not_mem_nil
  · exact fun _ _ hhead htail => List.forall_mem_cons.mpr ⟨hhead, htail⟩
  · exact fun e he => absurd he List.not_mem_nil
  · exact fun _ _ hhead htail => List.forall_mem_cons.mpr ⟨hhead, htail⟩
  · exact fun _ _ hv => hv

end PolicyValue

end DarqEval
