import DarqEval.Lib.SortBy
import DarqEval.Lib.Stages

namespace DarqEval.Lib

/-!
# Schedules

The order of independent stages does not matter: lists that differ by exchanges of neighbours are
run to the same effect, if the neighbours commute.

* `Reschedule I l l'` — `l'` is made of `l` by exchanging neighbours related by `I`;
* `reschedule_of_perm`, `reschedule_sortBy` — it is enough that `I` relates the pairs that stand
  the other way round, such as those on whose order two keys do not agree;
* `Process.Commute S a b` — the two stages do not see each other, and commit in either order to
  the same state up to `S`;
* `Process.visits_pending` — states that differ only where no stage to come looks;
* `Process.visits_reschedule` — rescheduled stages give the same outputs;
* `Process.visits_restrict` — so do the other stages, if stages are left out whose commits do not
  show in `S`.
-/

variable {α σ β κ : Type*}

/-- The second list is made of the first one by exchanges of neighbours. -/
inductive Reschedule (I : α → α → Prop) : List α → List α → Prop
  | nil : Reschedule I [] []
  | cons (a : α) {l l' : List α} : Reschedule I l l' → Reschedule I (a :: l) (a :: l')
  | swap {a b : α} (l : List α) : I a b → Reschedule I (a :: b :: l) (b :: a :: l)
  | trans {l₁ l₂ l₃ : List α} : Reschedule I l₁ l₂ → Reschedule I l₂ l₃ → Reschedule I l₁ l₃

namespace Reschedule

variable {I : α → α → Prop} {l l' : List α}

theorem refl (I : α → α → Prop) (l : List α) : Reschedule I l l := by
  induction l with
  | nil => exact .nil
  | cons a l ih => exact .cons a ih

theorem perm (h : Reschedule I l l') : l.Perm l' := by
  induction h with
  | nil => exact .nil
  | cons a _ ih => exact .cons a ih
  | swap l _ => exact .swap _ _ l
  | trans _ _ ih₁ ih₂ => exact ih₁.trans ih₂

/-- A search is not misled by the exchange of elements it does not stop at. -/
theorem findSome?_eq {f : α → Option β} (hf : ∀ a b, I a b → f a = none ∧ f b = none)
    (h : Reschedule I l l') : l.findSome? f = l'.findSome? f := by
  induction h with
  | nil => rfl
  | cons a _ ih => rw [List.findSome?_cons, List.findSome?_cons, ih]
  | @swap a b l hab =>
    obtain ⟨ha, hb⟩ := hf a b hab
    simp only [List.findSome?_cons, ha, hb]
  | trans _ _ ih₁ ih₂ => exact ih₁.trans ih₂

/-- An element is brought to the front past those it may be exchanged with. -/
theorem front {pre post : List α} {b : α} (h : ∀ a ∈ pre, I a b) :
    Reschedule I (pre ++ b :: post) (b :: (pre ++ post)) := by
  induction pre with
  | nil => exact .refl I _
  | cons a pre ih =>
    have hpre := ih (fun x hx => h x (List.mem_cons_of_mem a hx))
    exact (hpre.cons a).trans (.swap _ (h a List.mem_cons_self))

end Reschedule

/-- **Exchanged pairs.** Lists of the same elements are reschedules of each other, if any two that
    stand in one order in the first list and in the other one in the second may be exchanged. -/
theorem reschedule_of_perm {I : α → α → Prop} {l l' : List α} (hl : l.Perm l')
    (h : ∀ a b, a ≠ b → [a, b].Sublist l → [b, a].Sublist l' → I a b) : Reschedule I l l' := by
  induction l' generalizing l with
  | nil =>
    rw [hl.eq_nil]
    exact .nil
  | cons b l' ih =>
    obtain ⟨pre, post, rfl, hfirst⟩ := List.eq_append_cons_of_mem (hl.mem_iff.mpr List.mem_cons_self)
    have hrest : (pre ++ post).Perm l' :=
      List.Perm.cons_inv ((List.perm_middle.symm).trans hl)
    have hsub : (pre ++ post).Sublist (pre ++ b :: post) :=
      (List.Sublist.refl pre).append (List.sublist_cons_self b post)
    -- what stands in front of `b` in the first list stands behind it in the second one
    have hpre : ∀ a ∈ pre, I a b := by
      intro a ha
      have hne : a ≠ b := fun heq => hfirst (heq ▸ ha)
      have hbefore : [a, b].Sublist (pre ++ b :: post) :=
        (List.singleton_sublist.mpr ha).append (List.singleton_sublist.mpr List.mem_cons_self)
      have hbehind : a ∈ l' := hrest.mem_iff.mp (List.mem_append_left post ha)
      exact h a b hne hbefore ((List.singleton_sublist.mpr hbehind).cons_cons b)
    refine (Reschedule.front hpre).trans (.cons b (ih hrest (fun x y hne hxy hyx => ?_)))
    exact h x y hne (hxy.trans hsub) (hyx.trans (List.sublist_cons_self b l'))

/-- **Two keys.** The sorts by two keys are reschedules of each other, if any two elements on whose
    order the keys do not agree may be exchanged. -/
theorem reschedule_sortBy [LinearOrder κ] {I : α → α → Prop} {key key' : α → κ} {l : List α}
    (h : ∀ a ∈ l, ∀ b ∈ l, a ≠ b → key a ≤ key b → key' b ≤ key' a → I a b) :
    Reschedule I (sortBy key l) (sortBy key' l) := by
  refine reschedule_of_perm ((sortBy_perm key l).trans (sortBy_perm key' l).symm)
    (fun a b hne hab hba => ?_)
  have ha : a ∈ l := mem_sortBy.mp (hab.subset List.mem_cons_self)
  have hb : b ∈ l := mem_sortBy.mp (hba.subset List.mem_cons_self)
  exact h a ha b hb hne (List.pairwise_iff_forall_sublist.mp (sortBy_pairwise key l) hab)
    (List.pairwise_iff_forall_sublist.mp (sortBy_pairwise key' l) hba)

/-! ### Running a schedule -/

/-- The stage of a visit and its output. -/
def Visit.answer (v : Visit α σ β) : α × β := (v.stage, v.out)

namespace Process

variable (m : Process α σ β)

/-- Neither stage sees what the other one commits, and in either order they commit to the same
    state up to `S`. -/
structure Commute (S : σ → σ → Prop) (a b : α) : Prop where
  first : ∀ s, m.eval a (m.commit (m.eval b s) s) = m.eval a s
  second : ∀ s, m.eval b (m.commit (m.eval a s) s) = m.eval b s
  commit : ∀ s, S (m.commit (m.eval b s) (m.commit (m.eval a s) s))
    (m.commit (m.eval a s) (m.commit (m.eval b s) s))

/-- Stages that return the same on states related by `S`, which commits keep related. -/
structure Respects (S : σ → σ → Prop) (as : List α) : Prop where
  eval : ∀ a ∈ as, ∀ s s', S s s' → m.eval a s = m.eval a s'
  commit : ∀ b s s', S s s' → S (m.commit b s) (m.commit b s')

variable {m} {S : σ → σ → Prop}

theorem Respects.tail {a : α} {as : List α} (h : m.Respects S (a :: as)) : m.Respects S as :=
  ⟨fun x hx => h.eval x (List.mem_cons_of_mem a hx), h.commit⟩

theorem Respects.perm {as as' : List α} (h : m.Respects S as) (hperm : as.Perm as') :
    m.Respects S as' :=
  ⟨fun x hx => h.eval x (hperm.mem_iff.mpr hx), h.commit⟩

/-- On related states a run gives the same outputs and ends in related states. -/
theorem visits_respects {as : List α} (hS : m.Respects S as) {s s' : σ} (hs : S s s') :
    (m.visits as s).map Visit.answer = (m.visits as s').map Visit.answer ∧
      S (m.commitAll (m.visits as s) s) (m.commitAll (m.visits as s') s') := by
  induction as generalizing s s' with
  | nil => exact ⟨rfl, hs⟩
  | cons a as ih =>
    rw [visits_cons, visits_cons, ← hS.eval a List.mem_cons_self s s' hs]
    have hcommit := hS.commit (m.eval a s) s s' hs
    by_cases hstop : m.stops a (m.eval a s) = true
    · rw [if_pos hstop, if_pos hstop]
      exact ⟨rfl, hcommit⟩
    · rw [if_neg hstop, if_neg hstop]
      obtain ⟨hanswers, hstate⟩ := ih hS.tail hcommit
      exact ⟨congrArg (List.cons _) hanswers, hstate⟩

/-- **Pending rule.** Let the states of two runs be compared by a relation that depends on the stages
    still to come.  If each stage returns the same on states so related, and leaves related
    states where it does not stop, then the runs give the same outputs. -/
theorem visits_pending {T : List α → σ → σ → Prop} {as : List α}
    (heval : ∀ a later, (a :: later).IsSuffix as → ∀ s s', T (a :: later) s s' →
      m.eval a s = m.eval a s')
    (hcommit : ∀ a later, (a :: later).IsSuffix as → ∀ s s', T (a :: later) s s' →
      m.stops a (m.eval a s) = false → T later (m.commit (m.eval a s) s) (m.commit (m.eval a s) s'))
    {s s' : σ} (hs : T as s s') :
    (m.visits as s).map Visit.answer = (m.visits as s').map Visit.answer := by
  induction as generalizing s s' with
  | nil => rfl
  | cons a as ih =>
    have hself : (a :: as).IsSuffix (a :: as) := List.suffix_rfl
    have htail : ∀ b later, (b :: later).IsSuffix as → (b :: later).IsSuffix (a :: as) :=
      fun b later h => h.trans (List.suffix_cons a as)
    rw [visits_cons, visits_cons, ← heval a as hself s s' hs]
    by_cases hstop : m.stops a (m.eval a s) = true
    · rw [if_pos hstop, if_pos hstop]
      rfl
    · rw [if_neg hstop, if_neg hstop]
      have hstate := hcommit a as hself s s' hs (eq_false_of_ne_true hstop)
      exact congrArg (List.cons _) (ih (fun b later h => heval b later (htail b later h))
        (fun b later h => hcommit b later (htail b later h)) hstate)

/-- **Rescheduling.** If neighbours commute that are exchanged, and no visit of one of them stops,
    the rescheduled stages are visited with the same outputs, and end in the same state up to
    `S`; visits that stop are not exchanged. -/
theorem visits_reschedule (hequiv : Equivalence S) {I : α → α → Prop}
    (hcommute : ∀ a b, I a b → m.Commute S a b) {moved : α → Prop}
    (hmoved : ∀ a b, I a b → moved a ∧ moved b) {as as' : List α} (has : Reschedule I as as')
    (hS : m.Respects S as) {s s' : σ} (hs : S s s')
    (hgo : ∀ v ∈ m.visits as s, moved v.stage → m.stopsAt v = false) :
    Reschedule (fun x y => m.stops x.1 x.2 = false ∧ m.stops y.1 y.2 = false)
        ((m.visits as s).map Visit.answer) ((m.visits as' s').map Visit.answer) ∧
      S (m.commitAll (m.visits as s) s) (m.commitAll (m.visits as' s') s') := by
  induction has generalizing s s' with
  | nil => exact ⟨.nil, hs⟩
  | @cons a as as' _ ih =>
    rw [visits_cons] at hgo ⊢
    rw [visits_cons, ← hS.eval a List.mem_cons_self s s' hs]
    have hcommit := hS.commit (m.eval a s) s s' hs
    by_cases hstop : m.stops a (m.eval a s) = true
    · rw [if_pos hstop, if_pos hstop]
      exact ⟨.refl _ _, hcommit⟩
    · rw [if_neg hstop] at hgo
      rw [if_neg hstop, if_neg hstop]
      obtain ⟨hanswers, hstate⟩ := ih hS.tail hcommit (fun v hv => hgo v (List.mem_cons_of_mem _ hv))
      exact ⟨hanswers.cons _, hstate⟩
  | @swap a b l hab =>
    have hcom := hcommute a b hab
    obtain ⟨ha, hb⟩ := hmoved a b hab
    -- both runs evaluate both stages to what they return on `s`
    have hevalb : m.eval b s' = m.eval b s := (hS.eval b (by simp) s s' hs).symm
    have hevala : m.eval a (m.commit (m.eval b s) s') = m.eval a s := by
      rw [← hcom.first s]
      exact (hS.eval a (by simp) _ _ (hS.commit _ _ _ hs)).symm
    rw [visits_cons, visits_cons, hcom.second s] at hgo
    have hstopa : m.stops a (m.eval a s) = false := hgo _ List.mem_cons_self ha
    rw [if_neg (ne_true_of_eq_false hstopa)] at hgo
    have hstopb : m.stops b (m.eval b s) = false :=
      hgo _ (List.mem_cons_of_mem _ List.mem_cons_self) hb
    have hend : S (m.commit (m.eval b s) (m.commit (m.eval a s) s))
        (m.commit (m.eval a s) (m.commit (m.eval b s) s')) :=
      hequiv.trans (hcom.commit s) (hS.commit _ _ _ (hS.commit _ _ _ hs))
    obtain ⟨hanswers, hstate⟩ := visits_respects hS.tail.tail hend
    simp only [visits_cons, hevalb, hevala, hcom.second s, hstopa, hstopb, Bool.false_eq_true,
      if_false, List.map_cons, hanswers]
    exact ⟨.swap _ ⟨hstopa, hstopb⟩, hstate⟩
  | @trans l₁ l₂ l₃ h₁ _ ih₁ ih₂ =>
    obtain ⟨hanswers₁, hstate₁⟩ := ih₁ hS (hequiv.refl s) hgo
    -- the visits of the second list are those of the first one in another order
    have hgo₂ : ∀ v ∈ m.visits l₂ s, moved v.stage → m.stopsAt v = false := by
      intro v hv hmov
      have hmem : v.answer ∈ (m.visits l₁ s).map Visit.answer :=
        hanswers₁.perm.mem_iff.mpr (List.mem_map_of_mem hv)
      obtain ⟨w, hw, heq⟩ := List.mem_map.mp hmem
      obtain ⟨hstage, hout⟩ := Prod.mk.inj heq
      have hgow := hgo w hw (hstage ▸ hmov)
      rw [stopsAt, ← hstage, ← hout]
      exact hgow
    obtain ⟨hanswers₂, hstate₂⟩ := ih₂ (hS.perm h₁.perm) hs hgo₂
    exact ⟨hanswers₁.trans hanswers₂, hequiv.trans hstate₁ hstate₂⟩

/-- **Leaving stages out.** If the stages left out commit nothing that shows in `S`, and no visit of
    one of them stops, the other stages are visited with the same outputs, and end in the same
    state up to `S`. -/
theorem visits_restrict (hequiv : Equivalence S) (keep : α → Bool) {as : List α}
    (hS : m.Respects S (as.filter keep))
    (hhidden : ∀ a ∈ as, keep a = false → ∀ s, S (m.commit (m.eval a s) s) s) {s s' : σ}
    (hs : S s s') (hgo : ∀ v ∈ m.visits as s, keep v.stage = false → m.stopsAt v = false) :
    ((m.visits as s).map Visit.answer).filter (fun x => keep x.1) =
        (m.visits (as.filter keep) s').map Visit.answer ∧
      S (m.commitAll (m.visits as s) s) (m.commitAll (m.visits (as.filter keep) s') s') := by
  induction as generalizing s s' with
  | nil => exact ⟨rfl, hs⟩
  | cons a as ih =>
    have hhidden' := fun x hx => hhidden x (List.mem_cons_of_mem a hx)
    rw [visits_cons] at hgo ⊢
    cases hkeep : keep a with
    | true =>
      simp only [List.filter_cons, hkeep, if_true] at hS ⊢
      rw [visits_cons, ← hS.eval a List.mem_cons_self s s' hs, List.map_cons]
      simp only [Visit.answer, List.filter_cons, hkeep, if_true]
      have hcommit := hS.commit (m.eval a s) s s' hs
      by_cases hstop : m.stops a (m.eval a s) = true
      · rw [if_pos hstop, if_pos hstop]
        exact ⟨rfl, hcommit⟩
      · rw [if_neg hstop] at hgo ⊢
        rw [if_neg hstop]
        obtain ⟨hanswers, hstate⟩ := ih hS.tail hhidden' hcommit
          (fun v hv => hgo v (List.mem_cons_of_mem _ hv))
        exact ⟨congrArg (List.cons _) hanswers, hstate⟩
    | false =>
      have hstop : m.stops a (m.eval a s) = false := hgo _ List.mem_cons_self hkeep
      rw [if_neg (ne_true_of_eq_false hstop)] at hgo ⊢
      simp only [List.filter_cons, hkeep, Bool.false_eq_true, if_false] at hS
      simp only [Visit.answer, List.map_cons, List.filter_cons, hkeep, Bool.false_eq_true, if_false]
      -- the state behind the stage is related to the one without it
      have hcommit : S (m.commit (m.eval a s) s) s' :=
        hequiv.trans (hhidden a List.mem_cons_self hkeep s) hs
      exact ih hS hhidden' hcommit (fun v hv => hgo v (List.mem_cons_of_mem _ hv))

end Process

end DarqEval.Lib
