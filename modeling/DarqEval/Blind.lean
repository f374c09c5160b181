import DarqEval.Alike
import DarqEval.Tree

namespace DarqEval

open Lib

/-!
# What strategies do not look at

Contexts may differ in what no leaf of a pipeline tree looks at, and the tree executes alike in
them: a pipeline itself reads the input, the constraints and the artifacts, writes artifacts, and
hands the rest on to the contexts of its sub-pipelines.

* `Unseen S` — a relation on contexts that no pipeline looks behind;
* `EvalStrategy.BlindTo S`, `Tree.BlindTo S` — strategies that do not look behind it either;
* `sameRun_of_matched` — strategies that match in related contexts make the same run;
* `Tree.blindTo_strategy` — sub-pipelines are blind to what their leaves are blind to;
* `execute_blind` — blind trees execute alike in related contexts.
-/

variable {D : Decision}

/-- Related contexts show a pipeline the same, and stay related in whatever it does to them. -/
structure Unseen (S : EvalContext D → EvalContext D → Prop) : Prop where
  input : ∀ {c c'}, S c c' → c.input = c'.input
  constraints : ∀ {c c'}, S c c' → c.constraints = c'.constraints
  merge : ∀ {c c'} xs, S c c' → S (c.merge xs) (c'.merge xs)
  childContext : ∀ {c c'} newV4, S c c' →
    S (EvalPipeline.childContext newV4 c) (EvalPipeline.childContext newV4 c')

/-- The strategy returns the same in related contexts. -/
def EvalStrategy.BlindTo (S : EvalContext D → EvalContext D → Prop) (s : EvalStrategy D) : Prop :=
  ∀ c c' caps, S c c' → s.evaluate c caps = s.evaluate c' caps

/-- Every leaf of the tree returns the same in related contexts. -/
inductive Tree.BlindTo (S : EvalContext D → EvalContext D → Prop) : Tree D → Prop
  | leaf {s : EvalStrategy D} : s.BlindTo S → Tree.BlindTo S (.leaf s)
  | sub {newV4 : Uuid} {settings : Settings} {children : List (Tree D)} :
    (∀ t ∈ children, Tree.BlindTo S t) → Tree.BlindTo S (.sub newV4 settings children)

/-- Equally labelled strategies that return the same in related contexts. -/
def Matched (S : EvalContext D → EvalContext D → Prop) (s s' : EvalStrategy D) : Prop :=
  s.label = s'.label ∧ ∀ c c' caps, S c c' → s.evaluate c caps = s'.evaluate c' caps

section Matched

variable {S : EvalContext D → EvalContext D → Prop} (settings : Settings)
  {ss ss' : List (EvalStrategy D)}

theorem phase_matched (hrel : List.Forall₂ (Matched S) ss ss') :
    (settings.pipeline ss).phase = (settings.pipeline ss').phase := by
  have hphases : ss.map EvalStrategy.phase = ss'.map EvalStrategy.phase :=
    map_eq_of_forall₂ hrel (fun _ _ _ _ hs => label_phase hs.1)
  show ((ss.map EvalStrategy.phase).min?.getD .enrich) = (ss'.map EvalStrategy.phase).min?.getD _
  rw [hphases]

theorem order_matched (hrel : List.Forall₂ (Matched S) ss ss') :
    List.Forall₂ (Matched S) (settings.pipeline ss).order (settings.pipeline ss').order :=
  sortBy_forall₂ (fun _ _ hs => EvalStrategy.sortKey_eq_of_label hs.1) hrel

/-- Pipelines that differ in their strategies, matched in their order, make the same run in related
    contexts. -/
theorem sameRun_of_matched (hS : Unseen S)
    (horder : List.Forall₂ (Matched S) (settings.pipeline ss).order (settings.pipeline ss').order)
    {ctx ctx' : EvalContext D} (hctx : S ctx ctx') :
    SameRun (settings.pipeline ss) ctx (settings.pipeline ss') ctx' where
  failFast := rfl
  enforceConstraints := rfl
  input := hS.input hctx
  constraints := hS.constraints hctx
  visits := by
    have hcommit : ∀ (out : Output D) c c', S c c' → S (Output.commit out c) (Output.commit out c') := by
      intro out c c' hc
      rw [commit_eq, commit_eq]
      exact hS.merge _ hc
    refine visits_sameRun (Matched S) S (fun _ _ hs => hs.1) hcommit rfl (hS.input hctx) horder
      hctx ?_
    intro v hv s' c' hs hc
    rw [(EvalPipeline.visits_spec hv).2]
    exact hs.2 v.seen c' _ hc

/-- A pipeline of blind strategies makes the same run in related contexts. -/
theorem sameRun_of_blind (hS : Unseen S) (hss : ∀ s ∈ ss, s.BlindTo S) {ctx ctx' : EvalContext D}
    (hctx : S ctx ctx') : SameRun (settings.pipeline ss) ctx (settings.pipeline ss) ctx' := by
  refine sameRun_of_matched settings hS (List.forall₂_same.mpr (fun s hs => ⟨rfl, ?_⟩)) hctx
  exact hss s (mem_sortBy.mp hs)

end Matched

/-- **Blindness passes through nesting.** A sub-pipeline is blind to what its leaves are blind
    to. -/
theorem Tree.blindTo_strategy {S : EvalContext D → EvalContext D → Prop} (hS : Unseen S)
    (u : Tree D) (hu : u.BlindTo S) : u.strategy.BlindTo S := by
  induction u using Tree.induction with
  | hleaf s =>
    cases hu with
    | leaf hs => exact hs
  | hsub newV4 settings children ih =>
    cases hu with
    | sub hchildren =>
      intro c c' caps hc
      have hstrategies : ∀ s ∈ Tree.strategies children, s.BlindTo S := by
        intro s hs
        rw [Tree.strategies_eq_map] at hs
        obtain ⟨t, ht, rfl⟩ := List.mem_map.mp hs
        exact ih t ht (hchildren t ht)
      have hrun := sameRun_of_blind settings hS hstrategies (hS.childContext newV4 hc)
      exact hrun.evaluate_eq rfl caps caps

/-- **Blind trees execute alike** in related contexts with the same store. -/
theorem execute_blind {S : EvalContext D → EvalContext D → Prop} (hS : Unseen S)
    {t : PipelineTree D} (ht : ∀ u ∈ t.children, u.BlindTo S) {ctx ctx' : EvalContext D}
    (hctx : S ctx ctx') (hstore : ctx.artifacts = ctx'.artifacts) :
    (t.execute ctx).Alike (t.execute ctx') := by
  have hstrategies : ∀ s ∈ Tree.strategies t.children, s.BlindTo S := by
    intro s hs
    rw [Tree.strategies_eq_map] at hs
    obtain ⟨u, hu, rfl⟩ := List.mem_map.mp hs
    exact u.blindTo_strategy hS (ht u hu)
  exact (sameRun_of_blind t.settings hS hstrategies hctx).execute_alike hstore

end DarqEval
