import DarqEval.Lib.Query
import DarqEval.Result

namespace DarqEval

open Lib

/-!
# Recorded capabilities

What a capability set answers that was built from a snapshot's artifacts.

* `replayAnswer artifacts name key` — the value of the last external artifact with source `name`
  and key `key`, or the error of finding none;
* `fetch_registerAll` — registering the capabilities of `from_artifacts`, in any order, gives a
  set with these answers;
* `replayAnswer_filter` — the other artifacts play no part, so both fidelities answer alike;
* `recorded_latest` — what such a set answers and has, and that fidelities answer alike.
-/

/-- The artifact is external. -/
def Artifact.isExternal (a : Artifact) : Bool := a.replayClass = .external

/-- What an artifact records: a source and a key. -/
def Artifact.recordKey (a : Artifact) : String × String := (a.source, a.key)

/-- The last external artifact of the given source and key. -/
def lastRecord (artifacts : List Artifact) (name key : String) : Option Artifact :=
  lastOf Artifact.recordKey (artifacts.filter Artifact.isExternal) (name, key)

/-- What a set of recorded capabilities answers to a fetch. -/
def replayAnswer (artifacts : List Artifact) (name key : String) :
    Except CapabilityError CapabilityResult :=
  match lastRecord artifacts name key with
  | some a => .ok ⟨a.value⟩
  | none =>
    if artifacts.any (fun a => a.isExternal && a.source = name) then .error (.notFound key)
    else .error (.notFound ("capability '" ++ name ++ "' not registered"))

/-! ### The map from sources to recorders -/

namespace RecordedCapability

/-- The recorders after the artifacts are recorded. -/
def recorders (artifacts : List Artifact) : HashMap String RecordedCapability :=
  artifacts.foldl recordArtifact ∅

theorem recorders_concat (artifacts : List Artifact) (a : Artifact) :
    recorders (artifacts ++ [a]) = recordArtifact (recorders artifacts) a := by
  rw [recorders, List.foldl_append]
  rfl

/-- Each recorder stands under its own name. -/
theorem name_of_lookup {artifacts : List Artifact} {s : String} {cap : RecordedCapability}
    (h : (recorders artifacts).lookup s = some cap) : cap.name = s := by
  induction artifacts using List.reverseRecOn generalizing s cap with
  | nil => rw [show recorders [] = ∅ from rfl, AList.lookup_empty] at h; cases h
  | append_singleton artifacts a ih =>
    rw [recorders_concat, recordArtifact] at h
    by_cases hext : a.replayClass = .external
    · rw [if_pos hext] at h
      by_cases hs : s = a.source
      · rw [hs, AList.lookup_insert] at h
        obtain rfl := Option.some.inj h
        show ((recorders artifacts).lookup a.source |>.getD (new a.source)).name = s
        cases hold : (recorders artifacts).lookup a.source with
        | none => exact hs.symm
        | some old => exact (ih hold).trans hs.symm
      · rw [AList.lookup_insert_ne hs] at h
        exact ih h
    · rw [if_neg hext] at h
      exact ih h

/-- The sources with a recorder are those of the external artifacts. -/
theorem isSome_lookup (artifacts : List Artifact) (s : String) :
    ((recorders artifacts).lookup s).isSome =
      artifacts.any (fun a => a.isExternal && a.source = s) := by
  induction artifacts using List.reverseRecOn with
  | nil => rfl
  | append_singleton artifacts a ih =>
    rw [recorders_concat, recordArtifact, List.any_append, ← ih]
    by_cases hext : a.replayClass = .external
    · rw [if_pos hext]
      by_cases hs : s = a.source
      · rw [hs, AList.lookup_insert]
        simp [Artifact.isExternal, hext]
      · rw [AList.lookup_insert_ne hs]
        simp [Ne.symm hs]
    · rw [if_neg hext]
      simp [Artifact.isExternal, hext]

/-- The value recorded under a source and a key is that of the last record. -/
theorem recording_eq (artifacts : List Artifact) (s k : String) :
    ((recorders artifacts).lookup s).bind (fun cap => cap.recordings.lookup k) =
      (lastRecord artifacts s k).map Artifact.value := by
  induction artifacts using List.reverseRecOn with
  | nil => rfl
  | append_singleton artifacts a ih =>
    rw [recorders_concat, recordArtifact, lastRecord, List.filter_append]
    by_cases hext : a.replayClass = .external
    · have hfilter : [a].filter Artifact.isExternal = [a] := by simp [Artifact.isExternal, hext]
      rw [if_pos hext, hfilter, lastOf_concat]
      by_cases hs : s = a.source
      · rw [hs, AList.lookup_insert, Option.bind_some, record]
        by_cases hk : k = a.key
        · have hkey : a.recordKey = (a.source, k) := by rw [hk]; rfl
          rw [if_pos hkey, hk, AList.lookup_insert, Option.map_some]
        · have hkey : a.recordKey ≠ (a.source, k) := by
            intro h
            exact hk (Prod.mk.inj h).2.symm
          rw [AList.lookup_insert_ne hk, if_neg hkey]
          rw [hs, lastRecord] at ih
          rw [← ih]
          -- a recorder made for the artifact has nothing recorded before it
          cases (recorders artifacts).lookup a.source with
          | none => exact AList.lookup_empty k
          | some old => rfl
      · have hkey : a.recordKey ≠ (s, k) := by
          intro h
          exact hs (Prod.mk.inj h).1.symm
        rw [AList.lookup_insert_ne hs, if_neg hkey]
        exact ih
    · have hfilter : [a].filter Artifact.isExternal = [] := by simp [Artifact.isExternal, hext]
      rw [if_neg hext, hfilter, List.append_nil]
      exact ih

end RecordedCapability

/-! ### Registering the recorders -/

theorem CapabilitySet.registerAll_concat (set : CapabilitySet) (caps : List Capability)
    (cap : Capability) : set.registerAll (caps ++ [cap]) = (set.registerAll caps).register cap := by
  rw [registerAll, List.foldl_append]
  rfl

/-- Under each name, the capability registered last is found. -/
theorem CapabilitySet.lookup_registerAll (caps : List Capability) (name : String) :
    (CapabilitySet.new.registerAll caps).capabilities.lookup name =
      lastOf Capability.name caps name := by
  induction caps using List.reverseRecOn with
  | nil => exact AList.lookup_empty name
  | append_singleton caps cap ih =>
    rw [registerAll_concat, register, lastOf_concat]
    by_cases hname : cap.name = name
    · rw [if_pos hname, ← hname, AList.lookup_insert]
    · rw [if_neg hname, AList.lookup_insert_ne (Ne.symm hname), ih]

namespace RecordedCapability

/-- The names of the recorded capabilities are the sources, each one once. -/
theorem nodup_names (artifacts : List Artifact) :
    (((fromArtifacts artifacts).map toCapability).map Capability.name).Nodup := by
  have hnames : ((fromArtifacts artifacts).map toCapability).map Capability.name =
      (recorders artifacts).keys := by
    show (((recorders artifacts).entries.map Sigma.snd).map toCapability).map Capability.name =
      (recorders artifacts).entries.map Sigma.fst
    rw [List.map_map, List.map_map]
    refine List.map_congr_left (fun e he => ?_)
    exact name_of_lookup (AList.mem_lookup_iff.mpr he)
  rw [hnames]
  exact (recorders artifacts).keys_nodup

/-- The recorded capability of a given name is the recorder that stands under it. -/
theorem lastOf_fromArtifacts (artifacts : List Artifact) (name : String) :
    lastOf Capability.name ((fromArtifacts artifacts).map toCapability) name =
      ((recorders artifacts).lookup name).map toCapability := by
  ext cap
  rw [lastOf_eq_some (nodup_names artifacts), Option.map_eq_some_iff]
  constructor
  · rintro ⟨hcap, hname⟩
    obtain ⟨c, hc, rfl⟩ := List.mem_map.mp hcap
    obtain ⟨⟨s, c'⟩, he, rfl⟩ := List.mem_map.mp hc
    have hlookup : (recorders artifacts).lookup s = some c' := AList.mem_lookup_iff.mpr he
    have hs : s = name := (name_of_lookup hlookup).symm.trans hname
    exact ⟨c', hs ▸ hlookup, rfl⟩
  · rintro ⟨c, hlookup, rfl⟩
    have he : (⟨name, c⟩ : Sigma (fun _ => RecordedCapability)) ∈ (recorders artifacts).entries :=
      AList.mem_lookup_iff.mp hlookup
    exact ⟨List.mem_map.mpr ⟨c, List.mem_map.mpr ⟨_, he, rfl⟩, rfl⟩, name_of_lookup hlookup⟩

end RecordedCapability

/-- Registering the recorded capabilities in any order puts each recorder under its own name. -/
theorem lookup_registerAll_recorded {artifacts : List Artifact} {caps : List Capability}
    (hcaps : caps.Perm ((RecordedCapability.fromArtifacts artifacts).map
      RecordedCapability.toCapability)) (name : String) :
    (CapabilitySet.new.registerAll caps).capabilities.lookup name =
      ((RecordedCapability.recorders artifacts).lookup name).map
        RecordedCapability.toCapability := by
  have hnodup : (caps.map Capability.name).Nodup :=
    (hcaps.map Capability.name).nodup_iff.mpr (RecordedCapability.nodup_names artifacts)
  rw [CapabilitySet.lookup_registerAll, lastOf_eq_of_perm hcaps hnodup,
    RecordedCapability.lastOf_fromArtifacts]

/-- **Recorded answers.** A capability set made by registering the recorded capabilities of some
    artifacts, in any order, answers each fetch with the value of the last record. -/
theorem fetch_registerAll {artifacts : List Artifact} {caps : List Capability}
    (hcaps : caps.Perm ((RecordedCapability.fromArtifacts artifacts).map
      RecordedCapability.toCapability)) (name key : String) :
    (CapabilitySet.new.registerAll caps).fetch name key = replayAnswer artifacts name key := by
  have hrec := RecordedCapability.recording_eq artifacts name key
  have hsome := RecordedCapability.isSome_lookup artifacts name
  rw [CapabilitySet.fetch, lookup_registerAll_recorded hcaps, replayAnswer, ← hsome]
  cases hcap : (RecordedCapability.recorders artifacts).lookup name with
  | none =>
    rw [hcap, Option.bind_none] at hrec
    rw [Option.map_eq_none_iff.mp hrec.symm]
    rfl
  | some cap =>
    rw [hcap, Option.bind_some] at hrec
    show cap.fetch key = _
    rw [RecordedCapability.fetch, hrec]
    cases lastRecord artifacts name key with
    | none => rfl
    | some a => rfl

/-- A fetch from a name that is no external artifact's source is not answered. -/
theorem replayAnswer_of_unrecorded {artifacts : List Artifact} {name : String}
    (h : ∀ a ∈ artifacts, a.isExternal → a.source ≠ name) (key : String) :
    replayAnswer artifacts name key =
      .error (.notFound ("capability '" ++ name ++ "' not registered")) := by
  have hlast : lastRecord artifacts name key = none := by
    rw [lastRecord, lastOf_eq_none]
    intro a ha hkey
    obtain ⟨hmem, hext⟩ := List.mem_filter.mp ha
    exact h a hmem hext (Prod.mk.inj hkey).1
  have hany : artifacts.any (fun a => a.isExternal && a.source = name) = false := by
    rw [List.any_eq_false]
    intro a ha
    rw [Bool.and_eq_true, decide_eq_true_eq]
    rintro ⟨hext, hsource⟩
    exact h a ha hext hsource
  rw [replayAnswer, hlast, hany]
  rfl

/-- **Fidelity.** The answers do not depend on artifacts that are not external. -/
theorem replayAnswer_filter (artifacts : List Artifact) (name key : String) :
    replayAnswer (artifacts.filter (fun a => a.replayClass = .external)) name key =
      replayAnswer artifacts name key := by
  have hfilter : artifacts.filter (fun a => a.replayClass = .external) =
      artifacts.filter Artifact.isExternal := rfl
  have hrecord : lastRecord (artifacts.filter Artifact.isExternal) name key =
      lastRecord artifacts name key := by
    rw [lastRecord, List.filter_filter, lastRecord]
    simp only [Bool.and_self]
  rw [hfilter, replayAnswer, hrecord, List.any_filter, replayAnswer]
  simp only [← Bool.and_assoc, Bool.and_self]

/-- The last record is the last external artifact of the given source and key. -/
theorem lastRecord_eq_getLast? (artifacts : List Artifact) (name key : String) :
    lastRecord artifacts name key = (artifacts.filter (fun a =>
      a.replayClass = .external ∧ a.source = name ∧ a.key = key)).getLast? := by
  have hfilter : (artifacts.filter Artifact.isExternal).filter
      (fun a => a.recordKey = (name, key)) =
        artifacts.filter (fun a => a.replayClass = .external ∧ a.source = name ∧ a.key = key) := by
    rw [List.filter_filter]
    refine List.filter_congr (fun a _ => ?_)
    simp only [Artifact.recordKey, Artifact.isExternal, Prod.mk.injEq, Bool.decide_and]
    exact Bool.and_comm _ _
  rw [lastRecord, lastOf_eq_getLast?, hfilter]

/-- The names a set of recorded capabilities has are the sources of external artifacts. -/
theorem has_registerAll {artifacts : List Artifact} {caps : List Capability}
    (hcaps : caps.Perm ((RecordedCapability.fromArtifacts artifacts).map
      RecordedCapability.toCapability)) (name : String) :
    (CapabilitySet.new.registerAll caps).has name =
      artifacts.any (fun a => a.isExternal && a.source = name) := by
  rw [CapabilitySet.has, lookup_registerAll_recorded hcaps, Option.isSome_map,
    RecordedCapability.isSome_lookup]

/-- **Recorded capabilities answer with the latest recording.** However they are ordered, the
    capabilities recorded from some artifacts make up a set that answers each fetch with the value
    of the last external artifact of that source and key, and with `NotFound` if there is none;
    it has the sources of the external artifacts; and the sets recorded from an exact and from a
    semantic snapshot of one store answer alike. -/
theorem recorded_latest {artifacts : List Artifact} {caps : List Capability}
    (hcaps : caps.Perm ((RecordedCapability.fromArtifacts artifacts).map
      RecordedCapability.toCapability)) :
    (∀ name key a, (artifacts.filter (fun a =>
        a.replayClass = .external ∧ a.source = name ∧ a.key = key)).getLast? = some a →
      (CapabilitySet.new.registerAll caps).fetch name key = .ok ⟨a.value⟩) ∧
    (∀ name key, (∀ a ∈ artifacts, a.replayClass = .external → a.source = name → a.key ≠ key) →
      ∃ text, (CapabilitySet.new.registerAll caps).fetch name key = .error (.notFound text)) ∧
    (∀ name, (CapabilitySet.new.registerAll caps).has name = true ↔
      ∃ a ∈ artifacts, a.replayClass = .external ∧ a.source = name) ∧
    ∀ (D : Decision) (evalId : Uuid) (mode : EvalMode) (runMeta : RunMeta) (input : D.Input)
      (constraints : D.Constraints) (policy : PolicyBundle) (store : ArtifactStore)
      (strategyVersions : List (String × String)) (caps caps' : List Capability),
      caps.Perm ((RecordedCapability.fromArtifacts (Snapshot.capture D evalId mode .exact
        runMeta input constraints policy store strategyVersions).artifacts).map
          RecordedCapability.toCapability) →
      caps'.Perm ((RecordedCapability.fromArtifacts (Snapshot.capture D evalId mode .semantic
        runMeta input constraints policy store strategyVersions).artifacts).map
          RecordedCapability.toCapability) →
      ∀ name key, (CapabilitySet.new.registerAll caps).fetch name key =
        (CapabilitySet.new.registerAll caps').fetch name key := by
  refine ⟨?_, ?_, ?_, ?_⟩
  · intro name key a ha
    rw [fetch_registerAll hcaps, replayAnswer, lastRecord_eq_getLast?, ha]
  · intro name key hnone
    have hlast : lastRecord artifacts name key = none := by
      rw [lastRecord_eq_getLast?, List.getLast?_eq_none_iff, List.filter_eq_nil_iff]
      intro a ha hmatch
      obtain ⟨hext, hsource, hkey⟩ := of_decide_eq_true hmatch
      exact hnone a ha hext hsource hkey
    rw [fetch_registerAll hcaps, replayAnswer, hlast]
    -- without a record, it depends on the source whether the name is registered
    cases artifacts.any (fun a => a.isExternal && a.source = name) with
    | true => exact ⟨_, rfl⟩
    | false => exact ⟨_, rfl⟩
  · intro name
    rw [has_registerAll hcaps, List.any_eq_true]
    simp only [Artifact.isExternal, Bool.and_eq_true, decide_eq_true_eq]
  · intro D evalId mode runMeta input constraints policy store strategyVersions caps caps'
      hexact hsemantic name key
    rw [fetch_registerAll hexact, fetch_registerAll hsemantic]
    exact (replayAnswer_filter store.entries name key).symm

/-- Two recordings of one key under one source, between them one of another source. -/
def Sample.recordings : List Artifact :=
  [⟨"steel", .string "old", "market", "1.0.0", "v1", "", .external⟩,
    ⟨"steel", .string "other", "stock", "1.0.0", "v1", "", .external⟩,
    ⟨"steel", .string "new", "market", "1.0.0", "v1", "", .external⟩]

/-- The later recording is the answer, whichever capability is registered first. -/
theorem recorded_latest_market :
    (CapabilitySet.new.registerAll ((RecordedCapability.fromArtifacts Sample.recordings).map
      RecordedCapability.toCapability).reverse).fetch "market" "steel" = .ok ⟨.string "new"⟩ := by
  have hlatest := recorded_latest (List.reverse_perm
    ((RecordedCapability.fromArtifacts Sample.recordings).map RecordedCapability.toCapability))
  exact hlatest.1 "market" "steel" _ rfl

end DarqEval
