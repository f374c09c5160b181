import DarqEval.Artifact

namespace DarqEval

/-!
# Reading the artifact store

The reads of a store built by any history of appends.

* `StoreOp`, `ArtifactStore.history` — the two ways to append, and the store they build;
* `entries_history` — it holds what was emitted, in emission order;
* `getLatest_eq_getLast?` and its kin — a reverse search finds the last element of the
  corresponding forward filter;
* `reads_agree` — the reads against what was emitted, against each other, and over time.
-/

/-- A call that appends to a store. -/
inductive StoreOp where
  | append (artifact : Artifact)
  | appendAll (artifacts : List Artifact)

/-- The store after the call. -/
def StoreOp.apply (store : ArtifactStore) : StoreOp → ArtifactStore
  | .append artifact => store.append artifact
  | .appendAll artifacts => store.appendAll artifacts

/-- The artifacts the call emits. -/
def StoreOp.emitted : StoreOp → List Artifact
  | .append artifact => [artifact]
  | .appendAll artifacts => artifacts

namespace ArtifactStore

/-- The store built by a sequence of calls. -/
def history (ops : List StoreOp) : ArtifactStore := ops.foldl StoreOp.apply new

theorem entries_apply (store : ArtifactStore) (op : StoreOp) :
    (op.apply store).entries = store.entries ++ op.emitted := by
  cases op with
  | append artifact => rfl
  | appendAll artifacts => rfl

theorem entries_foldl_apply (ops : List StoreOp) (store : ArtifactStore) :
    (ops.foldl StoreOp.apply store).entries = store.entries ++ ops.flatMap StoreOp.emitted := by
  induction ops generalizing store with
  | nil => simp
  | cons op ops ih =>
    rw [List.foldl_cons, ih, entries_apply, List.flatMap_cons, List.append_assoc]

/-- A store holds what was emitted, in emission order. -/
theorem entries_history (ops : List StoreOp) :
    (history ops).entries = ops.flatMap StoreOp.emitted := by
  rw [history, entries_foldl_apply, entries_new, List.nil_append]

/-- Later calls only extend a store. -/
theorem entries_history_append (ops more : List StoreOp) :
    (history (ops ++ more)).entries =
      (history ops).entries ++ more.flatMap StoreOp.emitted := by
  rw [entries_history, entries_history, List.flatMap_append]

/-! ### Forward filters and reverse searches -/

theorem getLatest_eq_getLast? (store : ArtifactStore) (key : String) :
    store.getLatest key = (store.getAll key).getLast? := by
  rw [getAll, List.getLast?_filter, getLatest]

theorem getLatest_eq_none (store : ArtifactStore) (key : String) :
    store.getLatest key = none ↔ store.getAll key = [] := by
  rw [getLatest_eq_getLast?, List.getLast?_eq_none_iff]

theorem getRequired_eq_ok {store : ArtifactStore} {key : String} {a : Artifact} :
    store.getRequired key = .ok a ↔ store.getLatest key = some a := by
  rw [getRequired]
  cases store.getLatest key with
  | none => simp
  | some b => simp

theorem getRequired_eq_error {store : ArtifactStore} {key : String} {e : ArtifactError} :
    store.getRequired key = .error e ↔ store.getLatest key = none ∧ e = .notFound key := by
  rw [getRequired]
  cases store.getLatest key with
  | none => simp [eq_comm]
  | some b => simp

theorem getLatestBySource_eq_getLast?_getAll (store : ArtifactStore) (key source : String) :
    store.getLatestBySource key source =
      ((store.getAll key).filter (fun a => a.source = source)).getLast? := by
  rw [getAll, List.filter_filter, List.getLast?_filter, getLatestBySource]
  simp only [Bool.and_comm]

theorem getLatestBySource_eq_getLast?_fromSource (store : ArtifactStore) (key source : String) :
    store.getLatestBySource key source =
      ((store.fromSource source).filter (fun a => a.key = key)).getLast? := by
  rw [fromSource, List.filter_filter, List.getLast?_filter, getLatestBySource]

/-! ### Appending -/

/-- A read by a filter only grows when the store does. -/
theorem filter_isPrefix_of_entries {store store' : ArtifactStore} {more : List Artifact}
    (h : store'.entries = store.entries ++ more) (q : Artifact → Bool) :
    store.entries.filter q <+: store'.entries.filter q := by
  rw [h, List.filter_append]
  exact List.prefix_append _ _

/-- A reverse search changes only if one of the new artifacts matches. -/
theorem exists_of_find?_reverse_ne {store store' : ArtifactStore} {more : List Artifact}
    (h : store'.entries = store.entries ++ more) {q : Artifact → Bool}
    (hne : store'.entries.reverse.find? q ≠ store.entries.reverse.find? q) :
    ∃ a ∈ more, q a = true := by
  by_contra hnone
  -- without a match among the new artifacts the search goes on into the old ones
  have hmore : more.reverse.find? q = none := by
    rw [List.find?_eq_none]
    intro a ha hq
    exact hnone ⟨a, List.mem_reverse.mp ha, hq⟩
  apply hne
  rw [h, List.reverse_append, List.find?_append, hmore, Option.none_or]

/-- **Reads agree.** Over every history of appends, the list reads hold exactly the matching
    emitted artifacts in emission order, the latest reads are their last elements, and later
    calls only extend the former and change the latter only by a matching artifact. -/
theorem reads_agree (ops : List StoreOp) (key source start : String) :
    ((history ops).getAll key =
        (ops.flatMap StoreOp.emitted).filter (fun a => a.key = key) ∧
      (history ops).fromSource source =
        (ops.flatMap StoreOp.emitted).filter (fun a => a.source = source) ∧
      (history ops).withPrefix start =
        (ops.flatMap StoreOp.emitted).filter (fun a => start.toList.isPrefixOf a.key.toList) ∧
      (history ops).externalArtifacts =
        (ops.flatMap StoreOp.emitted).filter (fun a => a.replayClass = .external)) ∧
    ((history ops).getLatest key = ((history ops).getAll key).getLast? ∧
      ((history ops).getLatest key = none ↔ (history ops).getAll key = []) ∧
      (∀ a, (history ops).getRequired key = .ok a ↔ (history ops).getLatest key = some a) ∧
      (∀ e, (history ops).getRequired key = .error e ↔
        (history ops).getLatest key = none ∧ e = .notFound key) ∧
      (history ops).getLatestBySource key source =
        (((history ops).getAll key).filter (fun a => a.source = source)).getLast? ∧
      (history ops).getLatestBySource key source =
        (((history ops).fromSource source).filter (fun a => a.key = key)).getLast?) ∧
    ∀ more : List StoreOp,
      ((history ops).getAll key <+: (history (ops ++ more)).getAll key ∧
        (history ops).fromSource source <+: (history (ops ++ more)).fromSource source ∧
        (history ops).withPrefix start <+: (history (ops ++ more)).withPrefix start ∧
        (history ops).externalArtifacts <+: (history (ops ++ more)).externalArtifacts) ∧
      ((history (ops ++ more)).getLatest key ≠ (history ops).getLatest key →
        ∃ a ∈ more.flatMap StoreOp.emitted, a.key = key) ∧
      ((history (ops ++ more)).getLatestBySource key source ≠
          (history ops).getLatestBySource key source →
        ∃ a ∈ more.flatMap StoreOp.emitted, a.key = key ∧ a.source = source) := by
  refine ⟨?_, ?_, fun more => ?_⟩
  · rw [← entries_history]
    exact ⟨rfl, rfl, rfl, rfl⟩
  · exact ⟨getLatest_eq_getLast? _ _, getLatest_eq_none _ _, fun a => getRequired_eq_ok,
      fun e => getRequired_eq_error, getLatestBySource_eq_getLast?_getAll _ _ _,
      getLatestBySource_eq_getLast?_fromSource _ _ _⟩
  · have hmore := entries_history_append ops more
    refine ⟨⟨filter_isPrefix_of_entries hmore _, filter_isPrefix_of_entries hmore _,
      filter_isPrefix_of_entries hmore _, filter_isPrefix_of_entries hmore _⟩, ?_, ?_⟩
    · intro hne
      obtain ⟨a, ha, hq⟩ := exists_of_find?_reverse_ne hmore hne
      exact ⟨a, ha, of_decide_eq_true hq⟩
    · intro hne
      obtain ⟨a, ha, hq⟩ := exists_of_find?_reverse_ne hmore hne
      rw [Bool.and_eq_true, decide_eq_true_eq, decide_eq_true_eq] at hq
      exact ⟨a, ha, hq⟩

end ArtifactStore

end DarqEval
