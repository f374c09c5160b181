import DarqEval.Primitives

namespace DarqEval

/-!
# The artifact store

Artifacts are the evidence strategies exchange.  The store is append-only: entries stand in
emission order and are never overwritten.
-/

/-- Classification of an artifact for replay purposes. -/
inductive ReplayClass where
  | deterministic
  | external
  | derived
deriving DecidableEq

/-- A single piece of versioned evidence produced by a strategy. -/
structure Artifact where
  key : String
  value : Value
  source : String
  sourceVersion : String
  schemaVersion : String
  digest : String
  replayClass : ReplayClass

/-- Errors from artifact operations. -/
inductive ArtifactError where
  | notFound (key : String)
deriving DecidableEq

/-- The `Display` text of an artifact error. -/
def ArtifactError.toString : ArtifactError → String
  | .notFound key => "artifact not found: " ++ key

/-- Append-only store of artifacts, in emission order. -/
structure ArtifactStore where
  entries : List Artifact

namespace ArtifactStore

/-- Create an empty artifact store. -/
def new : ArtifactStore := ⟨[]⟩

/-- Append a single artifact. -/
def append (store : ArtifactStore) (artifact : Artifact) : ArtifactStore :=
  ⟨store.entries ++ [artifact]⟩

/-- Append multiple artifacts. -/
def appendAll (store : ArtifactStore) (artifacts : List Artifact) : ArtifactStore :=
  ⟨store.entries ++ artifacts⟩

/-- Number of artifacts in the store. -/
def len (store : ArtifactStore) : Nat := store.entries.length

/-- The entries in emission order (`iter`, `into_entries`). -/
def intoEntries (store : ArtifactStore) : List Artifact := store.entries

/-- All artifacts with the given key, in emission order. -/
def getAll (store : ArtifactStore) (key : String) : List Artifact :=
  store.entries.filter (fun a => a.key = key)

/-- The last emitted artifact with the given key. -/
def getLatest (store : ArtifactStore) (key : String) : Option Artifact :=
  store.entries.reverse.find? (fun a => a.key = key)

/-- The latest artifact with the given key, or an error. -/
def getRequired (store : ArtifactStore) (key : String) : Except ArtifactError Artifact :=
  match store.getLatest key with
  | some a => .ok a
  | none => .error (.notFound key)

/-- The latest artifact with the given key from a specific source. -/
def getLatestBySource (store : ArtifactStore) (key source : String) : Option Artifact :=
  store.entries.reverse.find? (fun a => a.key = key && a.source = source)

/-- All artifacts produced by a specific strategy. -/
def fromSource (store : ArtifactStore) (source : String) : List Artifact :=
  store.entries.filter (fun a => a.source = source)

/-- All artifacts whose key starts with the given text. -/
def withPrefix (store : ArtifactStore) (start : String) : List Artifact :=
  -- `str::starts_with`, which on UTF-8 compares characters
  store.entries.filter (fun a => start.toList.isPrefixOf a.key.toList)

/-- All artifacts with `ReplayClass::External`. -/
def externalArtifacts (store : ArtifactStore) : List Artifact :=
  store.entries.filter (fun a => a.replayClass = .external)

@[simp] theorem entries_new : new.entries = [] := rfl

@[simp] theorem entries_append (store : ArtifactStore) (artifact : Artifact) :
    (store.append artifact).entries = store.entries ++ [artifact] := rfl

@[simp] theorem entries_appendAll (store : ArtifactStore) (artifacts : List Artifact) :
    (store.appendAll artifacts).entries = store.entries ++ artifacts := rfl

/-- Appending several artifacts is appending them one by one. -/
theorem foldl_append (store : ArtifactStore) (artifacts : List Artifact) :
    artifacts.foldl append store = store.appendAll artifacts := by
  induction artifacts generalizing store with
  | nil => simp [appendAll]
  | cons a artifacts ih =>
    rw [List.foldl_cons, ih]
    simp [append, appendAll]

@[simp] theorem appendAll_nil (store : ArtifactStore) : store.appendAll [] = store := by
  simp [appendAll]

theorem appendAll_appendAll (store : ArtifactStore) (xs ys : List Artifact) :
    (store.appendAll xs).appendAll ys = store.appendAll (xs ++ ys) := by
  simp [appendAll]

/-- Cutting the first `len` entries off an extension of the store leaves the extension. -/
theorem drop_len_appendAll (store : ArtifactStore) (xs : List Artifact) :
    (store.appendAll xs).intoEntries.drop store.len = xs := by
  simp [intoEntries, len]

end ArtifactStore

end DarqEval
