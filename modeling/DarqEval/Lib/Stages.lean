import Mathlib.Data.List.Forall2

namespace DarqEval.Lib

/-!
# Sequential processes with an early exit

A *process* runs a list of stages on a state.  Each stage is evaluated on the state the
earlier ones left, its output is committed to the state, and the run ends behind the first
stage whose output stops it.  This file develops the vocabulary for such runs:

* `takeThrough p l` — the prefix of `l` up to and including its first element with `p`;
* `flatMap_filter`, `findSome?_filter` — what a list keeps if some elements are left out;
* `Process.visitAll` — every stage evaluated in turn, as if none stopped;
* `Process.visits` — the evaluations an actual run makes, `takeThrough` of `visitAll`
  (`visits_eq_takeThrough`);
* `visits_split` — what is known at each visit: the state it saw, its output, and that no
  earlier visit stopped;
* `visits_append` — a run of stages in two groups is a run of the one and then of the other;
* `visits_filter` — stages that change and stop nothing can be left out;
* `visits_rewrite` — outputs that are rewritten without changing what they commit and stop;
* `visits_lockstep` — the simulation rule: two processes whose stages, states and outputs
  stay related make related visits.
-/

/-! ### The prefix through the first hit -/

section TakeThrough

variable {α : Type*} (p : α → Bool)

/-- The prefix of `l` up to and including the first element that satisfies `p`. -/
def takeThrough : List α → List α
  | [] => []
  | a :: l => a :: (if p a then [] else takeThrough l)

theorem takeThrough_cons (a : α) (l : List α) :
    takeThrough p (a :: l) = a :: (if p a then [] else takeThrough p l) := rfl

theorem takeThrough_isPrefix (l : List α) : takeThrough p l <+: l := by
  induction l with
  | nil => exact List.prefix_rfl
  | cons a l ih =>
    rw [takeThrough_cons]
    by_cases h : p a
    · rw [if_pos h]; exact ⟨l, rfl⟩
    · rw [if_neg h]; exact (List.cons_prefix_cons).mpr ⟨rfl, ih⟩

/-- Without a hit nothing is cut off. -/
theorem takeThrough_eq_self {l : List α} (h : l.find? p = none) : takeThrough p l = l := by
  induction l with
  | nil => rfl
  | cons a l ih =>
    rw [List.find?_eq_none] at h
    have ha : ¬ p a := h a List.mem_cons_self
    rw [takeThrough_cons, if_neg ha, ih]
    rw [List.find?_eq_none]
    exact fun x hx => h x (List.mem_cons_of_mem a hx)

/-- With a hit, the prefix ends in it and holds no earlier one. -/
theorem takeThrough_eq_concat {l : List α} {v : α} (h : l.find? p = some v) :
    ∃ pre, takeThrough p l = pre ++ [v] ∧ ∀ x ∈ pre, ¬ p x := by
  induction l with
  | nil => cases h
  | cons a l ih =>
    rw [takeThrough_cons]
    by_cases ha : p a
    · -- the head is the hit, and nothing stands before it
      rw [List.find?_cons_of_pos ha] at h
      obtain rfl := Option.some.inj h
      exact ⟨[], by rw [if_pos ha]; rfl, fun x hx => absurd hx List.not_mem_nil⟩
    · rw [List.find?_cons_of_neg ha] at h
      obtain ⟨pre, heq, hpre⟩ := ih h
      refine ⟨a :: pre, by rw [if_neg ha, heq]; rfl, fun x hx => ?_⟩
      rcases List.mem_cons.mp hx with rfl | hx
      · exact ha
      · exact hpre x hx

/-- The first value of `f` on the prefix is its value at the first hit, if only hits have one. -/
theorem findSome?_takeThrough {β : Type*} {f : α → Option β} (hf : ∀ a b, f a = some b → p a)
    (l : List α) : (takeThrough p l).findSome? f = (l.find? p).bind f := by
  -- an element that is no hit has no value, so it is skipped on both sides
  have hnone : ∀ a, ¬ p a → f a = none := by
    intro a ha
    cases hfa : f a with
    | none => rfl
    | some b => exact absurd (hf a b hfa) ha
  induction l with
  | nil => rfl
  | cons a l ih =>
    rw [takeThrough_cons, List.findSome?_cons]
    by_cases ha : p a
    · rw [if_pos ha, List.find?_cons_of_pos ha, Option.bind_some]
      cases f a <;> rfl
    · rw [if_neg ha, List.find?_cons_of_neg ha, hnone a ha]
      exact ih

end TakeThrough

/-! ### Lists without some elements -/

section Filter

variable {α γ : Type*} {keep : α → Bool} {l : List α}

/-- What the elements left out have none of is collected from the others. -/
theorem flatMap_filter {f : α → List γ} (h : ∀ a ∈ l, keep a = false → f a = []) :
    (l.filter keep).flatMap f = l.flatMap f := by
  induction l with
  | nil => rfl
  | cons a l ih =>
    have ih' := ih (fun x hx => h x (List.mem_cons_of_mem a hx))
    cases hkeep : keep a with
    | true => simp only [List.filter_cons, hkeep, if_true, List.flatMap_cons, ih']
    | false =>
      simp only [List.filter_cons, hkeep, Bool.false_eq_true, if_false, List.flatMap_cons,
        h a List.mem_cons_self hkeep, List.nil_append, ih']

/-- A search does not miss elements it would not stop at. -/
theorem findSome?_filter {f : α → Option γ} (h : ∀ a ∈ l, keep a = false → f a = none) :
    (l.filter keep).findSome? f = l.findSome? f := by
  induction l with
  | nil => rfl
  | cons a l ih =>
    have ih' := ih (fun x hx => h x (List.mem_cons_of_mem a hx))
    cases hkeep : keep a with
    | true => simp only [List.filter_cons, hkeep, if_true, List.findSome?_cons, ih']
    | false =>
      simp only [List.filter_cons, hkeep, Bool.false_eq_true, if_false, List.findSome?_cons,
        h a List.mem_cons_self hkeep, ih']

end Filter

/-! ### Processes and their visits -/

/-- A sequential process: how a stage is evaluated on a state, how its output changes the
    state, and which outputs end the run. -/
structure Process (α σ β : Type*) where
  eval : α → σ → β
  commit : β → σ → σ
  stops : α → β → Bool

/-- One evaluation made by a run: the stage, the state it saw, its output, and the stages
    registered behind it. -/
structure Visit (α σ β : Type*) where
  stage : α
  seen : σ
  out : β
  later : List α

/-- The same visit with its stages renamed. -/
def Visit.mapStage {α γ σ β : Type*} (f : γ → α) (v : Visit γ σ β) : Visit α σ β :=
  ⟨f v.stage, v.seen, v.out, v.later.map f⟩

/-- The same visit with its stages and its output rewritten. -/
def Visit.rewrite {α α' σ β β' : Type*} (f : α → α') (g : α → β → β') (v : Visit α σ β) :
    Visit α' σ β' :=
  ⟨f v.stage, v.seen, g v.stage v.out, v.later.map f⟩

/-- The same visit with further stages registered behind it. -/
def Visit.followedBy {α σ β : Type*} (bs : List α) (v : Visit α σ β) : Visit α σ β :=
  { v with later := v.later ++ bs }

namespace Process

variable {α σ β : Type*} (m : Process α σ β)

/-- Whether the run ends behind this visit. -/
def stopsAt (v : Visit α σ β) : Bool := m.stops v.stage v.out

/-- Every stage evaluated on the state the earlier ones left, stopping or not. -/
def visitAll : List α → σ → List (Visit α σ β)
  | [], _ => []
  | a :: as, s => ⟨a, s, m.eval a s, as⟩ :: visitAll as (m.commit (m.eval a s) s)

/-- The evaluations of a run, which ends behind the first stopping one. -/
def visits : List α → σ → List (Visit α σ β)
  | [], _ => []
  | a :: as, s =>
    ⟨a, s, m.eval a s, as⟩ ::
      (if m.stops a (m.eval a s) then [] else visits as (m.commit (m.eval a s) s))

@[simp] theorem visits_nil (s : σ) : m.visits [] s = [] := rfl

theorem visits_cons (a : α) (as : List α) (s : σ) :
    m.visits (a :: as) s =
      ⟨a, s, m.eval a s, as⟩ ::
        (if m.stops a (m.eval a s) then [] else m.visits as (m.commit (m.eval a s) s)) := rfl

theorem visits_eq_takeThrough (as : List α) (s : σ) :
    m.visits as s = takeThrough m.stopsAt (m.visitAll as s) := by
  induction as generalizing s with
  | nil => rfl
  | cons a as ih => rw [visits_cons, visitAll, takeThrough_cons, ih]; rfl

theorem visitAll_stage (as : List α) (s : σ) : (m.visitAll as s).map Visit.stage = as := by
  induction as generalizing s with
  | nil => rfl
  | cons a as ih => rw [visitAll, List.map_cons, ih]

/-- The state after the listed outputs are committed in turn. -/
def commitAll (vs : List (Visit α σ β)) (s : σ) : σ :=
  vs.foldl (fun s v => m.commit v.out s) s

@[simp] theorem commitAll_nil (s : σ) : m.commitAll [] s = s := rfl

@[simp] theorem commitAll_cons (v : Visit α σ β) (vs : List (Visit α σ β)) (s : σ) :
    m.commitAll (v :: vs) s = m.commitAll vs (m.commit v.out s) := rfl

/-- Each stage is evaluated on the state that the outputs before it are committed to. -/
theorem visitAll_split {as : List α} {s : σ} {pre post : List (Visit α σ β)} {v : Visit α σ β}
    (h : m.visitAll as s = pre ++ v :: post) :
    v.seen = m.commitAll pre s ∧ v.out = m.eval v.stage v.seen := by
  induction as generalizing s pre with
  | nil => simp [visitAll] at h
  | cons a as ih =>
    rw [visitAll] at h
    cases pre with
    | nil =>
      obtain ⟨rfl, -⟩ := List.cons.inj h
      exact ⟨rfl, rfl⟩
    | cons u pre =>
      obtain ⟨rfl, htail⟩ := List.cons.inj h
      obtain ⟨hseen, hout⟩ := ih htail
      exact ⟨hseen, hout⟩

/-- What a run knows at each of its visits: the stages around it, the state it saw, its
    output, and that no visit before it stopped. -/
theorem visits_split {as : List α} {s : σ} {pre post : List (Visit α σ β)}
    {v : Visit α σ β} (h : m.visits as s = pre ++ v :: post) :
    as = pre.map Visit.stage ++ v.stage :: v.later ∧
      v.seen = m.commitAll pre s ∧ v.out = m.eval v.stage v.seen ∧
      (∀ u ∈ pre, m.stopsAt u = false) ∧
      post = if m.stopsAt v then [] else m.visits v.later (m.commit v.out v.seen) := by
  induction as generalizing s pre with
  | nil => simp at h
  | cons a as ih =>
    rw [visits_cons] at h
    cases pre with
    | nil =>
      obtain ⟨rfl, rfl⟩ := List.cons.inj h
      exact ⟨rfl, rfl, rfl, fun u hu => absurd hu List.not_mem_nil, rfl⟩
    | cons u pre =>
      obtain ⟨rfl, htail⟩ := List.cons.inj h
      by_cases ha : m.stops a (m.eval a s)
      · -- a stopping head would leave no room for `v`
        rw [if_pos ha] at htail
        exact absurd htail.symm (by simp)
      · rw [if_neg ha] at htail
        obtain ⟨has, hseen, hout, hpre, hpost⟩ := ih htail
        have hearlier : ∀ w ∈ ⟨a, s, m.eval a s, as⟩ :: pre, m.stopsAt w = false := by
          intro w hw
          rcases List.mem_cons.mp hw with rfl | hw
          · exact eq_false_of_ne_true ha
          · exact hpre w hw
        exact ⟨by rw [has]; rfl, by rw [hseen]; rfl, hout, hearlier, hpost⟩

/-- A visit's output is its stage's evaluation on the state it saw. -/
theorem out_eq_of_mem {as : List α} {s : σ} {v : Visit α σ β} (h : v ∈ m.visits as s) :
    v.out = m.eval v.stage v.seen := by
  obtain ⟨pre, post, heq⟩ := List.append_of_mem h
  exact (m.visits_split heq).2.2.1

/-- A visited stage is one of the given ones. -/
theorem stage_mem_of_mem {as : List α} {s : σ} {v : Visit α σ β} (h : v ∈ m.visits as s) :
    v.stage ∈ as := by
  obtain ⟨pre, post, heq⟩ := List.append_of_mem h
  rw [(m.visits_split heq).1]
  exact List.mem_append_cons_self

/-- The visited stages are a prefix of the given ones. -/
theorem visits_stage_isPrefix (as : List α) (s : σ) : (m.visits as s).map Visit.stage <+: as := by
  rw [visits_eq_takeThrough]
  have hpre := (takeThrough_isPrefix m.stopsAt (m.visitAll as s)).map Visit.stage
  rwa [visitAll_stage] at hpre

/-- If no visit stops that has stages behind it, all stages are visited. -/
theorem visits_stage_eq {as : List α} {s : σ}
    (h : ∀ v ∈ m.visits as s, v.later ≠ [] → m.stopsAt v = false) :
    (m.visits as s).map Visit.stage = as := by
  induction as generalizing s with
  | nil => rfl
  | cons a as ih =>
    rw [visits_cons] at h ⊢
    by_cases has : as = []
    · rw [has]
      split <;> rfl
    · have hstop : m.stops a (m.eval a s) = false := h _ List.mem_cons_self has
      rw [if_neg (ne_true_of_eq_false hstop)] at h ⊢
      rw [List.map_cons, ih (fun v hv => h v (List.mem_cons_of_mem _ hv))]

/-! ### Stages behind others -/

/-- **Composition.** A run of stages in two groups is a run of the first group and, unless one of
    its visits stops, a run of the second group on the state the first one left. -/
theorem visits_append (as bs : List α) (s : σ) :
    m.visits (as ++ bs) s = (m.visits as s).map (Visit.followedBy bs) ++
      if (m.visits as s).any m.stopsAt then []
      else m.visits bs (m.commitAll (m.visits as s) s) := by
  induction as generalizing s with
  | nil => rfl
  | cons a as ih =>
    rw [List.cons_append, visits_cons, visits_cons, List.map_cons, List.cons_append]
    congr 1
    rw [List.any_cons, commitAll_cons]
    by_cases hstop : m.stops a (m.eval a s)
    · have hat : m.stopsAt ⟨a, s, m.eval a s, as⟩ = true := hstop
      rw [if_pos hstop, if_pos hstop, hat]
      rfl
    · have hat : m.stopsAt ⟨a, s, m.eval a s, as⟩ = false := eq_false_of_ne_true hstop
      rw [if_neg hstop, if_neg hstop, hat, Bool.false_or]
      exact ih _

/-! ### Leaving stages out -/

/-- **Idle stages.** If the visits of the stages left out change nothing and stop nothing, the
    other stages are visited as before. -/
theorem visits_filter (keep : α → Bool) {as : List α} {s : σ}
    (h : ∀ v ∈ m.visits as s, keep v.stage = false →
      m.commit v.out v.seen = v.seen ∧ m.stops v.stage v.out = false) :
    m.visits (as.filter keep) s =
      ((m.visits as s).filter (fun v => keep v.stage)).map
        (fun v => { v with later := v.later.filter keep }) := by
  induction as generalizing s with
  | nil => rfl
  | cons a as ih =>
    rw [visits_cons] at h ⊢
    -- what holds of the visits behind the head, if the run gets there
    have htail : m.stops a (m.eval a s) = false →
        ∀ v ∈ m.visits as (m.commit (m.eval a s) s), keep v.stage = false →
          m.commit v.out v.seen = v.seen ∧ m.stops v.stage v.out = false := by
      intro hstop v hv
      refine h v (List.mem_cons_of_mem _ ?_)
      rw [if_neg (ne_true_of_eq_false hstop)]
      exact hv
    cases hkeep : keep a with
    | true =>
      simp only [List.filter_cons, hkeep, if_true, visits_cons, List.map_cons]
      congr 1
      by_cases hstop : m.stops a (m.eval a s)
      · rw [if_pos hstop, if_pos hstop]; rfl
      · rw [if_neg hstop, if_neg hstop]
        exact ih (htail (eq_false_of_ne_true hstop))
    | false =>
      obtain ⟨hcommit, hstop⟩ := h _ List.mem_cons_self hkeep
      have ih' := ih (htail hstop)
      rw [if_neg (ne_true_of_eq_false hstop)]
      simp only [List.filter_cons, hkeep, Bool.false_eq_true, if_false]
      -- the head left the state as it was
      rw [← ih']
      exact congrArg (m.visits (as.filter keep)) hcommit.symm

/-! ### Comparing two runs -/

/-- The process that reads its stages through `f`. -/
def comap {γ : Type*} (f : γ → α) : Process γ σ β where
  eval := fun c s => m.eval (f c) s
  commit := m.commit
  stops := fun c b => m.stops (f c) b

theorem visits_map {γ : Type*} (f : γ → α) (cs : List γ) (s : σ) :
    m.visits (cs.map f) s = ((m.comap f).visits cs s).map (Visit.mapStage f) := by
  induction cs generalizing s with
  | nil => rfl
  | cons c cs ih =>
    rw [List.map_cons, visits_cons, visits_cons, List.map_cons]
    congr 1
    by_cases hc : m.stops (f c) (m.eval (f c) s)
    · rw [if_pos hc, if_pos (show (m.comap f).stops c ((m.comap f).eval c s) = true from hc)]; rfl
    · rw [if_neg hc, if_neg (show ¬ (m.comap f).stops c ((m.comap f).eval c s) = true from hc), ih]
      rfl

/-- **Rewriting rule.** If rewritten stages return rewritten outputs, which commit and stop as
    the outputs they are made of, then a run of the rewritten stages makes the rewritten visits. -/
theorem visits_rewrite {α' β' : Type*} (m' : Process α' σ β') (f : α → α') (g : α → β → β')
    (hcommit : ∀ a b s, m'.commit (g a b) s = m.commit b s) {as : List α}
    (heval : ∀ a ∈ as, ∀ s, m'.eval (f a) s = g a (m.eval a s))
    (hstops : ∀ a ∈ as, ∀ b, m'.stops (f a) (g a b) = m.stops a b) (s : σ) :
    m'.visits (as.map f) s = (m.visits as s).map (Visit.rewrite f g) := by
  induction as generalizing s with
  | nil => rfl
  | cons a as ih =>
    have ih' := ih (fun x hx => heval x (List.mem_cons_of_mem a hx))
      (fun x hx => hstops x (List.mem_cons_of_mem a hx))
    rw [List.map_cons, visits_cons, visits_cons, List.map_cons]
    rw [heval a List.mem_cons_self, hstops a List.mem_cons_self, hcommit]
    congr 1
    by_cases hstop : m.stops a (m.eval a s)
    · rw [if_pos hstop, if_pos hstop]; rfl
    · rw [if_neg hstop, if_neg hstop, ih']

variable {α' σ' β' : Type*} (m' : Process α' σ' β')

/-- **Lockstep rule.** If related stages evaluated on related states have related outputs
    (wherever the first run evaluates them), commits keep the states related, and related
    outputs stop alike, then the two runs make related visits, one for one. -/
theorem visits_lockstep (R : α → α' → Prop) (S : σ → σ' → Prop) (Q : β → β' → Prop)
    (hcommit : ∀ b b' s s', Q b b' → S s s' → S (m.commit b s) (m'.commit b' s'))
    (hstops : ∀ a a' b b', R a a' → Q b b' → m.stops a b = m'.stops a' b')
    {as : List α} {as' : List α'} (has : List.Forall₂ R as as') {s : σ} {s' : σ'} (hs : S s s')
    (heval : ∀ v ∈ m.visits as s, ∀ a' s', R v.stage a' → S v.seen s' →
      Q v.out (m'.eval a' s')) :
    List.Forall₂ (fun v v' => R v.stage v'.stage ∧ S v.seen v'.seen ∧ Q v.out v'.out)
      (m.visits as s) (m'.visits as' s') := by
  induction has generalizing s s' with
  | nil => exact List.Forall₂.nil
  | @cons a a' as as' ha _ ih =>
    rw [visits_cons] at heval ⊢
    rw [visits_cons]
    have hout : Q (m.eval a s) (m'.eval a' s') := heval _ List.mem_cons_self a' s' ha hs
    refine List.Forall₂.cons ⟨ha, hs, hout⟩ ?_
    -- related outputs stop alike, so both runs end here or both go on
    rw [← hstops a a' _ _ ha hout]
    by_cases hstop : m.stops a (m.eval a s)
    · rw [if_pos hstop, if_pos hstop]; exact List.Forall₂.nil
    · rw [if_neg hstop, if_neg hstop]
      refine ih (hcommit _ _ _ _ hout hs) (fun v hv => heval v ?_)
      rw [if_neg hstop]
      exact List.mem_cons_of_mem _ hv

end Process

end DarqEval.Lib
