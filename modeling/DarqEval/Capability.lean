import DarqEval.Artifact

namespace DarqEval

/-!
# Capabilities

Named sources of external data.  A live capability fetches from outside; a
`RecordedCapability` replays the values of a snapshot's external artifacts.  A capability is
what a run sees of it: the answer it gives to each key.
-/

/-- Result of a capability fetch. -/
structure CapabilityResult where
  value : Value

/-- Errors from capability operations. -/
inductive CapabilityError where
  | notFound (key : String)
  | fetchFailed (reason : String)
deriving DecidableEq

/-- The `Display` text of a capability error. -/
def CapabilityError.toString : CapabilityError → String
  | .notFound key => "capability key not found: " ++ key
  | .fetchFailed reason => "capability fetch failed: " ++ reason

/-- A source of external data that can be injected into the pipeline. -/
structure Capability where
  name : String
  fetch : String → Except CapabilityError CapabilityResult

/-- A set of named capabilities available during evaluation. -/
structure CapabilitySet where
  capabilities : HashMap String Capability

namespace CapabilitySet

/-- Create an empty capability set. -/
def new : CapabilitySet := ⟨∅⟩

/-- Register a capability by name. -/
def register (set : CapabilitySet) (capability : Capability) : CapabilitySet :=
  ⟨set.capabilities.insert capability.name capability⟩

/-- Fetch from a named capability. -/
def fetch (set : CapabilitySet) (name key : String) : Except CapabilityError CapabilityResult :=
  match set.capabilities.lookup name with
  | none => .error (.notFound ("capability '" ++ name ++ "' not registered"))
  | some capability => capability.fetch key

/-- Check if a capability is registered. -/
def has (set : CapabilitySet) (name : String) : Bool :=
  (set.capabilities.lookup name).isSome

/-- Register a list of capabilities, first to last. -/
def registerAll (set : CapabilitySet) (capabilities : List Capability) : CapabilitySet :=
  capabilities.foldl register set

end CapabilitySet

/-- A recorded capability that replays previously captured values. -/
structure RecordedCapability where
  name : String
  recordings : HashMap String Value

namespace RecordedCapability

/-- Create a new recorded capability with the given name. -/
def new (name : String) : RecordedCapability := ⟨name, ∅⟩

/-- Record a value for a key. -/
def record (cap : RecordedCapability) (key : String) (value : Value) : RecordedCapability :=
  -- a later value replaces an earlier one under the same key
  { cap with recordings := cap.recordings.insert key value }

/-- `Capability::fetch` of a recorded capability. -/
def fetch (cap : RecordedCapability) (key : String) : Except CapabilityError CapabilityResult :=
  match cap.recordings.lookup key with
  | none => .error (.notFound key)
  | some value => .ok ⟨value⟩

/-- A recorded capability as a `dyn Capability`. -/
def toCapability (cap : RecordedCapability) : Capability := ⟨cap.name, cap.fetch⟩

/-- One round of the loop of `from_artifacts`: the recorder of an external artifact's source,
    created on demand, records its value. -/
def recordArtifact (bySource : HashMap String RecordedCapability) (artifact : Artifact) :
    HashMap String RecordedCapability :=
  if artifact.replayClass = .external then
    -- `entry(..).or_insert_with(..)`
    let cap := (bySource.lookup artifact.source).getD (new artifact.source)
    bySource.insert artifact.source (cap.record artifact.key artifact.value)
  else bySource

/-- Build recorded capabilities from a snapshot's external artifacts, grouped by source; the
    source leaves the order of the resulting list open. -/
def fromArtifacts (artifacts : List Artifact) : List RecordedCapability :=
  (artifacts.foldl recordArtifact ∅).intoValues

end RecordedCapability

end DarqEval
