import Mathlib.Data.List.Sort
import Mathlib.Data.List.Forall2
import Mathlib.Data.List.Perm.Basic

namespace DarqEval.Lib

/-!
# Stable sorting by a key

`sortBy key l` is the stable sort of `l` by a key in a linear order (`sortBy_stable`).  It is
determined by its input's elements alone once their keys differ (`sortBy_eq_of_perm`), it only
looks at the keys (`sortBy_map`, `sortBy_forall₂`), leaving elements out leaves the order of the
others alone (`sortBy_filter`), and it falls into parts wherever the keys do (`sortBy_cut`,
`sortBy_block`).
-/

variable {α β κ : Type*} [LinearOrder κ]

/-- The stable sort of a list by a key: elements with equal keys keep their order. -/
def sortBy (key : α → κ) (l : List α) : List α :=
  l.insertionSort (fun a b => key a ≤ key b)

theorem sortBy_perm (key : α → κ) (l : List α) : (sortBy key l).Perm l :=
  List.perm_insertionSort _ l

@[simp] theorem mem_sortBy {key : α → κ} {l : List α} {a : α} : a ∈ sortBy key l ↔ a ∈ l :=
  (sortBy_perm key l).mem_iff

/-- The keys of a sorted list never decrease. -/
theorem sortBy_pairwise (key : α → κ) (l : List α) :
    (sortBy key l).Pairwise (fun a b => key a ≤ key b) := by
  have : Std.Total (fun a b : α => key a ≤ key b) := ⟨fun a b => le_total (key a) (key b)⟩
  have : IsTrans α (fun a b : α => key a ≤ key b) := ⟨fun _ _ _ => le_trans⟩
  exact List.pairwise_insertionSort _ l

/-- **Stability.** A selection of elements with equal keys keeps its order. -/
theorem sortBy_stable {key : α → κ} {q : α → Bool} (l : List α)
    (hq : ∀ a b, q a = true → q b = true → key a = key b) :
    (sortBy key l).filter q = l.filter q := by
  have hpairwise : (l.filter q).Pairwise (fun a b => key a ≤ key b) := by
    refine List.pairwise_of_forall_mem_list (fun a ha b hb => ?_)
    exact (hq a b (List.mem_filter.mp ha).2 (List.mem_filter.mp hb).2).le
  have hsub : (l.filter q).Sublist (sortBy key l) :=
    List.sublist_insertionSort hpairwise List.filter_sublist
  have hfilter := hsub.filter q
  rw [List.filter_filter] at hfilter
  simp only [Bool.and_self] at hfilter
  -- nothing of the selection is lost in the sort, so the sublist is all of it
  have hlength := ((sortBy_perm key l).filter q).length_eq
  exact (hfilter.eq_of_length hlength.symm).symm

private theorem orderedInsert_of_forall_le {key : α → κ} {a : α} {l : List α}
    (h : ∀ b ∈ l, key a ≤ key b) :
    l.orderedInsert (fun x y => key x ≤ key y) a = a :: l := by
  cases l with
  | nil => rfl
  | cons b l => rw [List.orderedInsert_cons, if_pos (h b List.mem_cons_self)]

private theorem filter_orderedInsert {key : α → κ} {q : α → Bool} {a : α} {l : List α}
    (hl : l.Pairwise (fun x y => key x ≤ key y)) :
    (l.orderedInsert (fun x y => key x ≤ key y) a).filter q =
      if q a then (l.filter q).orderedInsert (fun x y => key x ≤ key y) a else l.filter q := by
  induction l with
  | nil => cases hq : q a <;> simp [hq]
  | cons b l ih =>
    obtain ⟨hb, hl'⟩ := List.pairwise_cons.mp hl
    rw [List.orderedInsert_cons]
    by_cases hab : key a ≤ key b
    · -- inserted in front, it stays in front of whatever is left of the list
      have hfront : ∀ c ∈ (b :: l).filter q, key a ≤ key c := by
        intro c hc
        rcases List.mem_cons.mp (List.mem_filter.mp hc).1 with rfl | hc
        · exact hab
        · exact hab.trans (hb c hc)
      rw [if_pos hab, orderedInsert_of_forall_le hfront, List.filter_cons]
    · rw [if_neg hab, List.filter_cons, ih hl', List.filter_cons]
      by_cases hqb : q b
      · rw [if_pos hqb, if_pos hqb, List.orderedInsert_cons, if_neg hab]
        exact apply_ite (List.cons b) (q a = true) _ _
      · rw [if_neg hqb, if_neg hqb]

/-- **Leaving elements out.** The sort of what a filter leaves is what it leaves of the sort. -/
theorem sortBy_filter (key : α → κ) (q : α → Bool) (l : List α) :
    sortBy key (l.filter q) = (sortBy key l).filter q := by
  induction l with
  | nil => rfl
  | cons a l ih =>
    show _ = ((sortBy key l).orderedInsert (fun x y => key x ≤ key y) a).filter q
    rw [filter_orderedInsert (sortBy_pairwise key l), ← ih, List.filter_cons]
    by_cases hq : q a
    · rw [if_pos hq, if_pos hq]
      rfl
    · rw [if_neg hq, if_neg hq]

/-- A sorted list falls into two parts if the keys of the one are below those of the other. -/
private theorem eq_filter_append_filter {key : α → κ} {q : α → Bool} {l : List α}
    (hl : l.Pairwise (fun a b => key a ≤ key b))
    (hq : ∀ a ∈ l, ∀ b ∈ l, q a = true → q b = false → key a < key b) :
    l = l.filter q ++ l.filter (fun a => !q a) := by
  induction l with
  | nil => rfl
  | cons a l ih =>
    obtain ⟨ha, hl'⟩ := List.pairwise_cons.mp hl
    by_cases hqa : q a = true
    · have ih' := ih hl' (fun b hb c hc =>
        hq b (List.mem_cons_of_mem a hb) c (List.mem_cons_of_mem a hc))
      rw [List.filter_cons_of_pos hqa, List.filter_cons_of_neg (by simp [hqa]), List.cons_append,
        ← ih']
    · -- what stands behind `a` is not of the first part either
      have hnot : ∀ b ∈ a :: l, q b = false := by
        intro b hb
        rcases List.mem_cons.mp hb with rfl | hmem
        · exact eq_false_of_ne_true hqa
        · by_contra hqb
          have hlt : key b < key a := hq b hb a List.mem_cons_self (eq_true_of_ne_false hqb)
            (eq_false_of_ne_true hqa)
          exact absurd hlt (not_lt.mpr (ha b hmem))
      have hnone : (a :: l).filter q = [] :=
        List.filter_eq_nil_iff.mpr (fun b hb => ne_true_of_eq_false (hnot b hb))
      have hall : (a :: l).filter (fun b => !q b) = a :: l :=
        List.filter_eq_self.mpr (fun b hb => by rw [hnot b hb]; rfl)
      rw [hnone, hall, List.nil_append]

/-- **Cutting.** If the keys of some elements are below those of the others, they come first, and
    either part is sorted by itself. -/
theorem sortBy_cut {key : α → κ} {q : α → Bool} {l : List α}
    (hq : ∀ a ∈ l, ∀ b ∈ l, q a = true → q b = false → key a < key b) :
    sortBy key l = sortBy key (l.filter q) ++ sortBy key (l.filter (fun a => !q a)) := by
  rw [sortBy_filter, sortBy_filter]
  refine eq_filter_append_filter (sortBy_pairwise key l) (fun a ha b hb => ?_)
  exact hq a (mem_sortBy.mp ha) b (mem_sortBy.mp hb)

section Block

variable {key : α → κ} {as ms bs : List α} {k : κ}

/-- If the elements around a block that are below `k` are below the block, and the others are not
    below `k` and the block not above them, the former come first. -/
private theorem sortBy_front
    (h : ∀ a ∈ as ++ bs, (key a < k ∧ ∀ m ∈ ms, key a < key m) ∨
      (k < key a ∧ ∀ m ∈ ms, key m < key a)) :
    sortBy key (as ++ ms ++ bs) =
      sortBy key ((as ++ bs).filter (fun a => key a < k)) ++
        sortBy key (as.filter (fun a => k < key a) ++ ms ++ bs.filter (fun a => k < key a)) := by
  let front : α → Bool := fun a => decide (key a < k ∧ ∀ m ∈ ms, key a < key m)
  have hfront : ∀ a ∈ as ++ bs, front a = decide (key a < k) := by
    intro a ha
    refine decide_eq_decide.mpr ⟨And.left, fun hak => ?_⟩
    rcases h a ha with hlow | hhigh
    · exact hlow
    · exact absurd hak (not_lt.mpr hhigh.1.le)
  have hback : ∀ a ∈ as ++ bs, (!front a) = decide (k < key a) := by
    intro a ha
    rw [hfront a ha, ← decide_not, decide_eq_decide, not_lt]
    refine ⟨fun hak => ?_, le_of_lt⟩
    rcases h a ha with hlow | hhigh
    · exact absurd hlow.1 (not_lt.mpr hak)
    · exact hhigh.1
  have hblock : ∀ m ∈ ms, front m = false :=
    fun m hm => decide_eq_false (fun hm' => absurd (hm'.2 m hm) (lt_irrefl _))
  have hcut : ∀ a ∈ as ++ ms ++ bs, ∀ b ∈ as ++ ms ++ bs, front a = true → front b = false →
      key a < key b := by
    intro a _ b hb hfa hfb
    obtain ⟨hak, ham⟩ := of_decide_eq_true hfa
    by_cases hbm : b ∈ ms
    · exact ham b hbm
    · have hb' : b ∈ as ++ bs := by
        simp only [List.mem_append] at hb ⊢
        tauto
      rw [hfront b hb', decide_eq_false_iff_not, not_lt] at hfb
      exact hak.trans_le hfb
  have has : ∀ a ∈ as, a ∈ as ++ bs := fun a ha => List.mem_append_left bs ha
  have hbs : ∀ b ∈ bs, b ∈ as ++ bs := fun b hb => List.mem_append_right as hb
  have hnone : ms.filter front = [] :=
    List.filter_eq_nil_iff.mpr (fun m hm => ne_true_of_eq_false (hblock m hm))
  have hall : ms.filter (fun a => !front a) = ms :=
    List.filter_eq_self.mpr (fun m hm => by rw [hblock m hm]; rfl)
  rw [sortBy_cut hcut, ← List.filter_congr hfront, ← List.filter_congr (fun a ha => hback a (has a ha)),
    ← List.filter_congr (fun b hb => hback b (hbs b hb))]
  simp only [List.filter_append, hnone, hall, List.append_nil]

/-- Elements around a block that are above it stand behind it. -/
private theorem sortBy_behind {key : α → κ} {as ms bs : List α}
    (h : ∀ a ∈ as ++ bs, ∀ m ∈ ms, key m < key a) :
    sortBy key (as ++ ms ++ bs) = sortBy key ms ++ sortBy key (as ++ bs) := by
  let block : α → Bool := fun a => decide (∀ b ∈ as ++ bs, key a < key b)
  have hblock : ∀ m ∈ ms, block m = true :=
    fun m hm => decide_eq_true (fun b hb => h b hb m hm)
  have hothers : ∀ a ∈ as ++ bs, block a = false :=
    fun a ha => decide_eq_false (fun hlt => absurd (hlt a ha) (lt_irrefl _))
  have hcut : ∀ a ∈ as ++ ms ++ bs, ∀ b ∈ as ++ ms ++ bs, block a = true → block b = false →
      key a < key b := by
    intro a _ b hb hba hbb
    refine of_decide_eq_true hba b ?_
    by_cases hbm : b ∈ ms
    · rw [hblock b hbm] at hbb
      cases hbb
    · simp only [List.mem_append] at hb ⊢
      tauto
  have has : ∀ a ∈ as, block a = false := fun a ha => hothers a (List.mem_append_left bs ha)
  have hbs : ∀ b ∈ bs, block b = false := fun b hb => hothers b (List.mem_append_right as hb)
  have hfirst : (as ++ ms ++ bs).filter block = ms := by
    rw [List.filter_append, List.filter_append, List.filter_eq_self.mpr hblock,
      List.filter_eq_nil_iff.mpr (fun a ha => ne_true_of_eq_false (has a ha)),
      List.filter_eq_nil_iff.mpr (fun b hb => ne_true_of_eq_false (hbs b hb)), List.nil_append,
      List.append_nil]
  have hthen : (as ++ ms ++ bs).filter (fun a => !block a) = as ++ bs := by
    have hnot : ∀ a ∈ as ++ bs, (!block a) = true := fun a ha => by rw [hothers a ha]; rfl
    have hnone : ms.filter (fun a => !block a) = [] :=
      List.filter_eq_nil_iff.mpr (fun m hm => by simp [hblock m hm])
    rw [List.filter_append, List.filter_append, hnone, List.append_nil, ← List.filter_append,
      List.filter_eq_self.mpr hnot]
  rw [sortBy_cut hcut, hfirst, hthen]

/-- **A block in the middle.** If every other element stands on one side of a block, as it does of
    the key `k`, the block stays together, with the elements below and above `k` around it. -/
theorem sortBy_block
    (h : ∀ a ∈ as ++ bs, (key a < k ∧ ∀ m ∈ ms, key a < key m) ∨
      (k < key a ∧ ∀ m ∈ ms, key m < key a)) :
    sortBy key (as ++ ms ++ bs) =
      sortBy key ((as ++ bs).filter (fun a => key a < k)) ++
        (sortBy key ms ++ sortBy key ((as ++ bs).filter (fun a => k < key a))) := by
  rw [sortBy_front h, List.filter_append (p := fun a => decide (k < key a))]
  congr 1
  refine sortBy_behind (fun a ha m hm => ?_)
  rw [← List.filter_append] at ha
  obtain ⟨ha, hka⟩ := List.mem_filter.mp ha
  rcases h a ha with hlow | hhigh
  · exact absurd (of_decide_eq_true hka) (not_lt.mpr hlow.1.le)
  · exact hhigh.2 m hm

end Block

/-- Sorting commutes with any map that keeps the key. -/
theorem sortBy_map (key : β → κ) (f : α → β) (l : List α) :
    sortBy key (l.map f) = (sortBy (fun a => key (f a)) l).map f :=
  (List.map_insertionSort _ _ f l (fun _ _ _ _ => Iff.rfl)).symm

/-- **Registration order.** Lists with the same elements and pairwise distinct keys have the
    same sort. -/
theorem sortBy_eq_of_perm {key : α → κ} {l l' : List α} (hl : l.Perm l')
    (hkeys : (l.map key).Nodup) : sortBy key l = sortBy key l' := by
  refine List.Perm.eq_of_pairwise ?_ (sortBy_pairwise key l) (sortBy_pairwise key l')
    ((sortBy_perm key l).trans (hl.trans (sortBy_perm key l').symm))
  -- two elements that stand in either order have one key, hence are one element
  intro a b ha hb hab hba
  have ha' : a ∈ l := mem_sortBy.mp ha
  have hb' : b ∈ l := hl.mem_iff.mpr (mem_sortBy.mp hb)
  exact List.inj_on_of_nodup_map hkeys ha' hb' (le_antisymm hab hba)

private theorem orderedInsert_forall₂ {R : α → β → Prop} {key : α → κ} {key' : β → κ}
    (hkey : ∀ a b, R a b → key a = key' b) {a : α} {b : β} (hab : R a b) {l : List α} {l' : List β}
    (hl : List.Forall₂ R l l') :
    List.Forall₂ R (l.orderedInsert (fun x y => key x ≤ key y) a)
      (l'.orderedInsert (fun x y => key' x ≤ key' y) b) := by
  induction hl with
  | nil => exact List.Forall₂.cons hab List.Forall₂.nil
  | @cons x y l l' hxy hl ih =>
    simp only [List.orderedInsert_cons, hkey a b hab, hkey x y hxy]
    by_cases h : key' b ≤ key' y
    · rw [if_pos h, if_pos h]; exact List.Forall₂.cons hab (List.Forall₂.cons hxy hl)
    · rw [if_neg h, if_neg h]; exact List.Forall₂.cons hxy ih

/-- Sorting keeps two lists related when related elements have equal keys. -/
theorem sortBy_forall₂ {R : α → β → Prop} {key : α → κ} {key' : β → κ}
    (hkey : ∀ a b, R a b → key a = key' b) {l : List α} {l' : List β} (hl : List.Forall₂ R l l') :
    List.Forall₂ R (sortBy key l) (sortBy key' l') := by
  induction hl with
  | nil => exact List.Forall₂.nil
  | cons hab _ ih => exact orderedInsert_forall₂ hkey hab ih

/-! ### Lists and options related element by element -/

/-- Lists with equal images are related, if elements with equal images are. -/
theorem forall₂_of_map_eq {γ : Type*} {R : α → β → Prop} {f : α → γ} {g : β → γ} {l : List α}
    {l' : List β} (h : l.map f = l'.map g) (hR : ∀ a ∈ l, ∀ b ∈ l', f a = g b → R a b) :
    List.Forall₂ R l l' := by
  have hlength : l.length = l'.length := by
    rw [← List.length_map f, h, List.length_map]
  apply List.forall₂_iff_get.mpr
  refine ⟨hlength, fun i hi hi' => ?_⟩
  apply hR _ (List.get_mem l ⟨i, hi⟩) _ (List.get_mem l' ⟨i, hi'⟩)
  have hi'' := congrArg (fun m => m[i]?) h
  simpa [hi, hi'] using hi''

/-- Related lists have equal images, if related elements have. -/
theorem map_eq_of_forall₂ {γ : Type*} {R : α → β → Prop} {f : α → γ} {g : β → γ} {l : List α}
    {l' : List β} (h : List.Forall₂ R l l') (hR : ∀ a ∈ l, ∀ b ∈ l', R a b → f a = g b) :
    l.map f = l'.map g := by
  induction h with
  | nil => rfl
  | @cons a b l l' hab _ ih =>
    have htail := ih
      (fun c hc d hd => hR c (List.mem_cons_of_mem a hc) d (List.mem_cons_of_mem b hd))
    rw [List.map_cons, List.map_cons, htail, hR a List.mem_cons_self b List.mem_cons_self hab]

/-- Every element of the first list has a partner in the second one. -/
theorem exists_of_forall₂ {R : α → β → Prop} {l : List α} {l' : List β} (h : List.Forall₂ R l l')
    {a : α} (ha : a ∈ l) : ∃ b ∈ l', R a b := by
  induction h with
  | nil => cases ha
  | @cons c b l l' hcb _ ih =>
    rcases List.mem_cons.mp ha with rfl | ha
    · exact ⟨b, List.mem_cons_self, hcb⟩
    · obtain ⟨b', hb', hab'⟩ := ih ha
      exact ⟨b', List.mem_cons_of_mem b hb', hab'⟩

/-- Related options are related by any relation that follows for their elements. -/
theorem optionRel_mono {R S : α → β → Prop} {o : Option α} {o' : Option β}
    (h : Option.Rel R o o') (hS : ∀ a ∈ o, ∀ b ∈ o', R a b → S a b) : Option.Rel S o o' := by
  cases h with
  | none => exact .none
  | some hab => exact .some (hS _ rfl _ rfl hab)

/-- Options with equal images are related, if elements with equal images are. -/
theorem optionRel_of_map_eq {γ : Type*} {R : α → β → Prop} {f : α → γ} {g : β → γ} {o : Option α}
    {o' : Option β} (h : o.map f = o'.map g) (hR : ∀ a ∈ o, ∀ b ∈ o', f a = g b → R a b) :
    Option.Rel R o o' := by
  cases o with
  | none =>
    obtain rfl := Option.map_eq_none_iff.mp h.symm
    exact .none
  | some a =>
    obtain ⟨b, rfl, hab⟩ := Option.map_eq_some_iff.mp h.symm
    exact .some (hR a rfl b rfl hab.symm)

/-- Related options have equal images, if related elements have. -/
theorem map_eq_of_optionRel {γ : Type*} {R : α → β → Prop} {f : α → γ} {g : β → γ} {o : Option α}
    {o' : Option β} (h : Option.Rel R o o') (hR : ∀ a ∈ o, ∀ b ∈ o', R a b → f a = g b) :
    o.map f = o'.map g := by
  cases h with
  | none => rfl
  | some hab => exact congrArg some (hR _ rfl _ rfl hab)

/-- Lists with related sorts are related after a reordering of one of them. -/
theorem exists_perm_of_sortBy {R : α → β → Prop} {key : α → κ} {key' : β → κ} {l : List α}
    {l' : List β} (h : List.Forall₂ R (sortBy key l) (sortBy key' l')) :
    ∃ reordered, l.Perm reordered ∧ List.Forall₂ R reordered l' := by
  have hcomp : Relation.Comp (List.Forall₂ R) List.Perm (sortBy key l) l' :=
    ⟨_, h, sortBy_perm key' l'⟩
  rw [List.forall₂_comp_perm_eq_perm_comp_forall₂] at hcomp
  obtain ⟨reordered, hperm, hrel⟩ := hcomp
  exact ⟨reordered, (sortBy_perm key l).symm.trans hperm, hrel⟩

/-- The least element of a list does not depend on the order of its elements. -/
theorem min?_eq_of_perm {l l' : List κ} (h : l.Perm l') : l.min? = l'.min? := by
  induction h with
  | nil => rfl
  | cons a _ ih => rw [List.min?_cons, List.min?_cons, ih]
  | swap a b l =>
    simp only [List.min?_cons, Option.some.injEq]
    cases l.min? with
    | none => exact min_comm b a
    | some m => exact min_left_comm b a m
  | trans _ _ ih ih' => exact ih.trans ih'

end DarqEval.Lib
