import DarqEval.Execute

namespace DarqEval

open Lib

/-!
# Positions of registration

A pipeline may hold one strategy twice, and a set of its strategies is a set of the positions at
which they are registered.

* `indices`, `indexedVisits` — the strategies and the visits of a run, with the positions at which
  the strategies are registered;
* `nodup_indexedVisits` — no position is visited twice;
* `indices_replace` — strategies replaced in place, by others with their sort keys, stay in order.
-/

variable {D : Decision}

/-- One strategy evaluation of a run, with the position at which the strategy is registered. -/
abbrev IndexedVisit (D : Decision) := Visit (EvalStrategy D × Nat) (EvalContext D) (Output D)

namespace EvalPipeline

/-- The strategies with the positions at which they are registered, in sorted order. -/
def indices (p : EvalPipeline D) : List (EvalStrategy D × Nat) :=
  sortBy (fun x => x.1.sortKey) p.strategies.zipIdx

/-- The visits of a run, with the positions at which the strategies are registered. -/
def indexedVisits (p : EvalPipeline D) (ctx : EvalContext D) :
    List (Visit (EvalStrategy D × Nat) (EvalContext D) (Output D)) :=
  if (D.validateInput ctx.input).isOk then (p.process.comap Prod.fst).visits p.indices ctx else []

theorem indices_fst (p : EvalPipeline D) : p.indices.map Prod.fst = p.order := by
  rw [indices, ← sortBy_map, List.zipIdx_map_fst, order]

theorem nodup_indices (p : EvalPipeline D) : (p.indices.map Prod.snd).Nodup := by
  have hperm : (p.indices.map Prod.snd).Perm (p.strategies.zipIdx.map Prod.snd) :=
    (sortBy_perm _ _).map Prod.snd
  rw [hperm.nodup_iff, List.zipIdx_map_snd]
  exact List.nodup_range'

theorem indexedVisits_mapStage (p : EvalPipeline D) (ctx : EvalContext D) :
    (p.indexedVisits ctx).map (Visit.mapStage Prod.fst) = p.visits ctx := by
  unfold indexedVisits visits
  split
  · rw [← indices_fst, Process.visits_map]
  · rfl

/-- No position is visited twice. -/
theorem nodup_indexedVisits (p : EvalPipeline D) (ctx : EvalContext D) :
    ((p.indexedVisits ctx).map (fun v => v.stage.2)).Nodup := by
  unfold indexedVisits
  split
  · have hstages := (p.process.comap Prod.fst).visits_stage_isPrefix p.indices ctx
    have hpositions := (hstages.map Prod.snd).sublist.nodup p.nodup_indices
    rwa [List.map_map] at hpositions
  · exact List.nodup_nil

/-- The positions of a list with positions are those it has. -/
private theorem zipIdx_zipIdx {α : Type*} (l : List α) (n : Nat) :
    (l.zipIdx n).zipIdx n = (l.zipIdx n).map (fun x => (x, x.2)) := by
  induction l generalizing n with
  | nil => rfl
  | cons a l ih => rw [List.zipIdx_cons, List.zipIdx_cons, ih, List.map_cons]

/-- The pipeline with each strategy replaced, in place, by the one `f` makes of it. -/
def replace (p : EvalPipeline D) (f : EvalStrategy D × Nat → EvalStrategy D) : EvalPipeline D :=
  { p with strategies := p.strategies.zipIdx.map f }

/-- Strategies replaced by others with their sort keys stay in order. -/
theorem indices_replace (p : EvalPipeline D) {f : EvalStrategy D × Nat → EvalStrategy D}
    (hkey : ∀ x, (f x).sortKey = x.1.sortKey) :
    (p.replace f).indices = p.indices.map (fun x => (f x, x.2)) := by
  have hpositions : (p.strategies.zipIdx.map f).zipIdx =
      p.strategies.zipIdx.map (fun x => (f x, x.2)) := by
    rw [List.zipIdx_map, zipIdx_zipIdx, List.map_map]
    rfl
  show sortBy (fun x => x.1.sortKey) (p.strategies.zipIdx.map f).zipIdx = _
  rw [hpositions, sortBy_map]
  simp only [hkey]
  rfl

end EvalPipeline

end DarqEval
