import DarqEval.Lib.SortBy

namespace DarqEval.Lib

/-!
# Maps as lists of entries

A map with keys in a linear order, as its entries in iteration order.  Two ways to keep it:

* `insertSorted` — by increasing keys, as a search tree does;
* `insertLast` — by the time of insertion, as an index map does.

In both a second insertion of a key replaces its value.  Inserting entries with increasing keys
one after another builds the same list in either way (`foldl_insert_of_increasing`), and a search
tree sorts whatever it is built from (`foldl_insertSorted`).
-/

variable {κ α : Type*} [LinearOrder κ]

/-- The keys of the entries increase. -/
def Increasing (m : List (κ × α)) : Prop := (m.map Prod.fst).Pairwise (· < ·)

/-- Insert an entry by its key, in place of the one with that key, if there is one. -/
def insertSorted (k : κ) (a : α) : List (κ × α) → List (κ × α)
  | [] => [(k, a)]
  | e :: m =>
    if k < e.1 then (k, a) :: e :: m
    else if k = e.1 then (k, a) :: m
    else e :: insertSorted k a m

/-- Insert an entry in place of the one with its key, behind the others if there is none. -/
def insertLast (k : κ) (a : α) : List (κ × α) → List (κ × α)
  | [] => [(k, a)]
  | e :: m => if k = e.1 then (k, a) :: m else e :: insertLast k a m

/-! ### Increasing keys -/

theorem increasing_nil : Increasing ([] : List (κ × α)) := List.Pairwise.nil

theorem increasing_cons {e : κ × α} {m : List (κ × α)} :
    Increasing (e :: m) ↔ (∀ k ∈ m.map Prod.fst, e.1 < k) ∧ Increasing m := by
  unfold Increasing
  rw [List.map_cons, List.pairwise_cons]

theorem Increasing.nodup {m : List (κ × α)} (h : Increasing m) : (m.map Prod.fst).Nodup :=
  List.Pairwise.imp (fun hlt => hlt.ne) h

/-- A sort by distinct keys makes them increase. -/
theorem increasing_sortBy {m : List (κ × α)} (h : (m.map Prod.fst).Nodup) :
    Increasing (sortBy Prod.fst m) := by
  have hsorted : ((sortBy Prod.fst m).map Prod.fst).Pairwise (· ≤ ·) :=
    List.pairwise_map.mpr (sortBy_pairwise Prod.fst m)
  have hnodup : ((sortBy Prod.fst m).map Prod.fst).Nodup :=
    ((sortBy_perm Prod.fst m).map Prod.fst).nodup_iff.mpr h
  exact (hsorted.and hnodup).imp (fun hlt => lt_of_le_of_ne hlt.1 hlt.2)

/-- Entries with increasing keys are their own sort. -/
theorem Increasing.sortBy_eq {m : List (κ × α)} (h : Increasing m) : sortBy Prod.fst m = m := by
  apply List.Pairwise.insertionSort_eq
  exact (List.pairwise_map.mp h).imp le_of_lt

/-! ### Insertion into a search tree -/

theorem insertSorted_perm {k : κ} {a : α} {m : List (κ × α)} (h : k ∉ m.map Prod.fst) :
    (insertSorted k a m).Perm ((k, a) :: m) := by
  induction m with
  | nil => exact List.Perm.refl _
  | cons e m ih =>
    rw [List.map_cons, List.mem_cons, not_or] at h
    unfold insertSorted
    by_cases hlt : k < e.1
    · rw [if_pos hlt]
    · rw [if_neg hlt, if_neg h.1]
      exact ((ih h.2).cons e).trans (List.Perm.swap _ _ _)

theorem insertSorted_increasing {k : κ} {a : α} {m : List (κ × α)} (h : Increasing m) :
    Increasing (insertSorted k a m) := by
  -- an insertion adds no key but its own
  have hkeys : ∀ m : List (κ × α), ∀ k' ∈ (insertSorted k a m).map Prod.fst,
      k' = k ∨ k' ∈ m.map Prod.fst := by
    intro m
    induction m with
    | nil =>
      intro k' hk'
      exact Or.inl (List.mem_singleton.mp hk')
    | cons e m ih =>
      intro k' hk'
      unfold insertSorted at hk'
      split_ifs at hk' with hlt heq
      · exact List.mem_cons.mp hk'
      · rcases List.mem_cons.mp hk' with hk' | hk'
        · exact Or.inl hk'
        · exact Or.inr (List.mem_cons_of_mem _ hk')
      · rcases List.mem_cons.mp hk' with hk' | hk'
        · exact Or.inr (List.mem_cons.mpr (Or.inl hk'))
        · exact (ih k' hk').imp_right (List.mem_cons_of_mem _)
  induction m with
  | nil => exact List.pairwise_singleton _ _
  | cons e m ih =>
    obtain ⟨he, hm⟩ := increasing_cons.mp h
    unfold insertSorted
    by_cases hlt : k < e.1
    · rw [if_pos hlt]
      refine increasing_cons.mpr ⟨?_, h⟩
      intro k' hk'
      rcases List.mem_cons.mp hk' with rfl | hk'
      · exact hlt
      · exact hlt.trans (he k' hk')
    · rw [if_neg hlt]
      by_cases heq : k = e.1
      · rw [if_pos heq]
        exact increasing_cons.mpr ⟨fun k' hk' => heq ▸ he k' hk', hm⟩
      · rw [if_neg heq]
        refine increasing_cons.mpr ⟨?_, ih hm⟩
        intro k' hk'
        rcases hkeys m k' hk' with rfl | hk'
        · exact lt_of_le_of_ne (not_lt.mp hlt) (Ne.symm heq)
        · exact he k' hk'

/-! ### Insertion of increasing keys -/

theorem insertSorted_of_lt {k : κ} {a : α} {m : List (κ × α)} (h : ∀ k' ∈ m.map Prod.fst, k' < k) :
    insertSorted k a m = m ++ [(k, a)] := by
  induction m with
  | nil => rfl
  | cons e m ih =>
    have hlt : e.1 < k := h e.1 List.mem_cons_self
    have htail := ih (fun k' hk' => h k' (List.mem_cons_of_mem _ hk'))
    rw [insertSorted, if_neg (not_lt_of_gt hlt), if_neg hlt.ne', htail, List.cons_append]

theorem insertLast_of_lt {k : κ} {a : α} {m : List (κ × α)} (h : ∀ k' ∈ m.map Prod.fst, k' < k) :
    insertLast k a m = m ++ [(k, a)] := by
  induction m with
  | nil => rfl
  | cons e m ih =>
    have hlt : e.1 < k := h e.1 List.mem_cons_self
    have htail := ih (fun k' hk' => h k' (List.mem_cons_of_mem _ hk'))
    rw [insertLast, if_neg hlt.ne', htail, List.cons_append]

/-- Entries with increasing keys, inserted one after another, stay in order: all that is needed
    of the insertion is that a key larger than the others comes behind them. -/
theorem foldl_insert_of_increasing {insert : κ → α → List (κ × α) → List (κ × α)}
    (hinsert : ∀ k a m, (∀ k' ∈ m.map Prod.fst, k' < k) → insert k a m = m ++ [(k, a)])
    {m : List (κ × α)} (h : Increasing m) :
    m.foldl (fun built e => insert e.1 e.2 built) [] = m := by
  have hrun : ∀ m built : List (κ × α), Increasing (built ++ m) →
      m.foldl (fun built e => insert e.1 e.2 built) built = built ++ m := by
    intro m
    induction m with
    | nil =>
      intro built _
      rw [List.append_nil]
      rfl
    | cons e m ih =>
      intro built hincreasing
      have hlt : ∀ k' ∈ built.map Prod.fst, k' < e.1 := by
        unfold Increasing at hincreasing
        rw [List.map_append, List.map_cons] at hincreasing
        intro k' hk'
        exact (List.pairwise_append.mp hincreasing).2.2 k' hk' e.1 List.mem_cons_self
      have hmove : built ++ [(e.1, e.2)] ++ m = built ++ e :: m := by
        rw [List.append_assoc, List.singleton_append]
      rw [List.foldl_cons, hinsert _ _ _ hlt, ih _ (by rw [hmove]; exact hincreasing), hmove]
  exact hrun m [] h

/-! ### Insertion of distinct keys -/

theorem insertLast_of_not_mem {k : κ} {a : α} {m : List (κ × α)} (h : k ∉ m.map Prod.fst) :
    insertLast k a m = m ++ [(k, a)] := by
  induction m with
  | nil => rfl
  | cons e m ih =>
    rw [List.map_cons, List.mem_cons, not_or] at h
    rw [insertLast, if_neg h.1, ih h.2, List.cons_append]

omit [LinearOrder κ] in
/-- Entries with distinct keys, inserted one after another in whatever way, are all there: all
    that is needed of the insertion is that it adds an entry with a key of its own. -/
theorem foldl_insert_perm {insert : κ → α → List (κ × α) → List (κ × α)}
    (hinsert : ∀ k a m, k ∉ m.map Prod.fst → (insert k a m).Perm ((k, a) :: m))
    {m : List (κ × α)} (h : (m.map Prod.fst).Nodup) :
    (m.foldl (fun built e => insert e.1 e.2 built) []).Perm m := by
  have hrun : ∀ m built : List (κ × α), ((built ++ m).map Prod.fst).Nodup →
      (m.foldl (fun built e => insert e.1 e.2 built) built).Perm (built ++ m) := by
    intro m
    induction m with
    | nil =>
      intro built _
      rw [List.append_nil]
      exact List.Perm.refl _
    | cons e m ih =>
      intro built hnodup
      have hfresh : e.1 ∉ built.map Prod.fst := by
        rw [List.map_append, List.map_cons] at hnodup
        intro hmem
        exact (List.nodup_append.mp hnodup).2.2 _ hmem _ List.mem_cons_self rfl
      have hmove : (insert e.1 e.2 built ++ m).Perm (built ++ e :: m) :=
        ((hinsert _ _ _ hfresh).append_right m).trans List.perm_middle.symm
      exact (ih _ ((hmove.map Prod.fst).nodup_iff.mpr hnodup)).trans hmove
  exact hrun m [] h

/-- **A search tree sorts.** Built from entries with distinct keys, in any order, it holds them
    by increasing keys. -/
theorem foldl_insertSorted {m : List (κ × α)} (h : (m.map Prod.fst).Nodup) :
    m.foldl (fun sorted e => insertSorted e.1 e.2 sorted) [] = sortBy Prod.fst m := by
  have hincreasing : ∀ m built : List (κ × α), Increasing built →
      Increasing (m.foldl (fun sorted e => insertSorted e.1 e.2 sorted) built) := by
    intro m
    induction m with
    | nil => exact fun built hbuilt => hbuilt
    | cons e m ih => exact fun built hbuilt => ih _ (insertSorted_increasing hbuilt)
  have hperm := foldl_insert_perm (fun k a m => insertSorted_perm (k := k) (a := a) (m := m)) h
  have hsorted := hincreasing m [] increasing_nil
  rw [← hsorted.sortBy_eq]
  exact sortBy_eq_of_perm hperm hsorted.nodup

/-! ### Lookups -/

theorem mem_of_lookup {m : List (κ × α)} {k : κ} {a : α} (h : m.lookup k = some a) :
    (k, a) ∈ m := by
  obtain ⟨pre, post, rfl, -⟩ := List.lookup_eq_some_iff.mp h
  exact List.mem_append_cons_self

theorem lookup_eq_some_iff_mem {m : List (κ × α)} (h : (m.map Prod.fst).Nodup) {k : κ} {a : α} :
    m.lookup k = some a ↔ (k, a) ∈ m := by
  refine ⟨mem_of_lookup, fun hmem => ?_⟩
  obtain ⟨pre, post, rfl⟩ := List.append_of_mem hmem
  refine List.lookup_eq_some_iff.mpr ⟨pre, post, rfl, ?_⟩
  -- the key stands at no earlier entry
  intro e he
  rw [List.map_append, List.map_cons] at h
  have hne := (List.nodup_append.mp h).2.2 e.1 (List.mem_map_of_mem he) k List.mem_cons_self
  exact bne_iff_ne.mpr hne.symm

/-- A map that changes values alone changes what is looked up. -/
theorem lookup_map {β : Type*} (f : α → β) (m : List (κ × α)) (k : κ) :
    (m.map (fun e => (e.1, f e.2))).lookup k = (m.lookup k).map f := by
  induction m with
  | nil => rfl
  | cons e m ih =>
    rw [List.map_cons, List.lookup_cons, List.lookup_cons, ih]
    cases k == e.1 <;> rfl

/-- Maps that look up the same are the same up to order. -/
theorem perm_of_lookup_eq {m m' : List (κ × α)} (h : (m.map Prod.fst).Nodup)
    (h' : (m'.map Prod.fst).Nodup) (heq : ∀ k, m.lookup k = m'.lookup k) : m.Perm m' := by
  apply (List.perm_ext_iff_of_nodup (List.Nodup.of_map _ h) (List.Nodup.of_map _ h')).mpr
  rintro ⟨k, a⟩
  rw [← lookup_eq_some_iff_mem h, ← lookup_eq_some_iff_mem h', heq]

/-- Lookups do not depend on the order of the entries. -/
theorem lookup_eq_of_perm {m m' : List (κ × α)} (h : (m.map Prod.fst).Nodup) (hperm : m.Perm m')
    (k : κ) : m.lookup k = m'.lookup k := by
  have h' : (m'.map Prod.fst).Nodup := (hperm.map Prod.fst).nodup_iff.mp h
  ext a
  rw [lookup_eq_some_iff_mem h, lookup_eq_some_iff_mem h', hperm.mem_iff]

/-- Looking up the sorted keys of a map reads its entries off in the order of their keys. -/
theorem map_lookup_sortBy {m : List (κ × α)} (h : (m.map Prod.fst).Nodup) (default : α) :
    (sortBy id (m.map Prod.fst)).map (fun k => (k, (m.lookup k).getD default)) =
      sortBy Prod.fst m := by
  rw [sortBy_map, List.map_map]
  have hentry : ∀ e ∈ sortBy Prod.fst m, (e.1, (m.lookup e.1).getD default) = e := by
    intro e he
    rw [(lookup_eq_some_iff_mem h).mpr (mem_sortBy.mp he)]
    rfl
  exact (List.map_congr_left hentry).trans (List.map_id _)

end DarqEval.Lib
