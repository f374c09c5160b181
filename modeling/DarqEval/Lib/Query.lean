import Mathlib.Data.List.Induction
import Mathlib.Data.List.Nodup

namespace DarqEval.Lib

/-!
# Adaptive queries and their records

A *query* is a computation that asks questions, each one chosen from the answers to the earlier
ones.  What it returns depends on the answers to the questions it asks and on nothing else
(`Query.run_congr`), so a log of records that agrees with the answers can replace whoever gave
them.  In such a log the last record about a question counts:

* `Query.run`, `Query.asked` — the result and the questions under given answers;
* `lastOf key log i` — the last record of a log about `i`;
* `lastOf_eq_some_of_agree` — it is any record about `i`, up to what they all agree on;
* `lastOf_eq_of_perm` — the order of a log with one record for each question is immaterial.
-/

/-- A computation that asks questions in `ι`, is answered in `ρ`, and returns an `α`. -/
inductive Query (ι ρ α : Type*) where
  | done (a : α)
  | ask (i : ι) (next : ρ → Query ι ρ α)

namespace Query

variable {ι ρ α : Type*}

/-- The result under the given answers. -/
def run (answer : ι → ρ) : Query ι ρ α → α
  | done a => a
  | ask i next => (next (answer i)).run answer

/-- The questions asked under the given answers, in order. -/
def asked (answer : ι → ρ) : Query ι ρ α → List ι
  | done _ => []
  | ask i next => i :: (next (answer i)).asked answer

/-- **Locality.** Answers that agree on the questions asked give the same result. -/
theorem run_congr {answer answer' : ι → ρ} {q : Query ι ρ α}
    (h : ∀ i ∈ q.asked answer, answer i = answer' i) : q.run answer = q.run answer' := by
  induction q with
  | done a => rfl
  | ask i next ih =>
    have hi : answer i = answer' i := h i List.mem_cons_self
    rw [run, run, ← hi]
    exact ih (answer i) (fun j hj => h j (List.mem_cons_of_mem i hj))

end Query

/-! ### The last record about a question -/

section LastOf

variable {ι β : Type*} [DecidableEq ι] {key : β → ι}

/-- The last record of the log about `i`. -/
def lastOf (key : β → ι) (log : List β) (i : ι) : Option β :=
  log.foldl (fun found b => if key b = i then some b else found) none

@[simp] theorem lastOf_nil (i : ι) : lastOf key [] i = none := rfl

theorem lastOf_concat (log : List β) (b : β) (i : ι) :
    lastOf key (log ++ [b]) i = if key b = i then some b else lastOf key log i := by
  rw [lastOf, List.foldl_append]
  rfl

theorem mem_of_lastOf {log : List β} {i : ι} {b : β} (h : lastOf key log i = some b) :
    b ∈ log ∧ key b = i := by
  induction log using List.reverseRecOn with
  | nil => cases h
  | append_singleton log c ih =>
    rw [lastOf_concat] at h
    by_cases hc : key c = i
    · rw [if_pos hc] at h
      obtain rfl := Option.some.inj h
      exact ⟨List.mem_append_cons_self, hc⟩
    · rw [if_neg hc] at h
      exact ⟨List.mem_append_left _ (ih h).1, (ih h).2⟩

theorem lastOf_eq_none {log : List β} {i : ι} :
    lastOf key log i = none ↔ ∀ b ∈ log, key b ≠ i := by
  induction log using List.reverseRecOn with
  | nil => simp
  | append_singleton log c ih =>
    rw [lastOf_concat]
    by_cases hc : key c = i
    · rw [if_pos hc]
      exact iff_of_false (by simp) (fun h => h c (by simp) hc)
    · rw [if_neg hc, ih]
      constructor
      · intro h b hb
        rcases List.mem_append.mp hb with hb | hb
        · exact h b hb
        · rw [List.mem_singleton.mp hb]
          exact hc
      · exact fun h b hb => h b (List.mem_append_left _ hb)

/-- The last record about `i` is the last one of those about `i`. -/
theorem lastOf_eq_getLast? (log : List β) (i : ι) :
    lastOf key log i = (log.filter (fun b => key b = i)).getLast? := by
  induction log using List.reverseRecOn with
  | nil => rfl
  | append_singleton log c ih =>
    rw [lastOf_concat, List.filter_append]
    by_cases hc : key c = i
    · have hfilter : [c].filter (fun b => key b = i) = [c] := by simp [hc]
      rw [if_pos hc, hfilter, List.getLast?_concat]
    · have hfilter : [c].filter (fun b => key b = i) = [] := by simp [hc]
      rw [if_neg hc, hfilter, List.append_nil, ih]

/-- If there is a record about `i` and all of them agree on `f`, the last one does. -/
theorem lastOf_eq_some_of_agree {γ : Type*} {f : β → γ} {log : List β} {i : ι} {b : β} {v : γ}
    (hb : b ∈ log) (hkey : key b = i) (hagree : ∀ c ∈ log, key c = i → f c = v) :
    (lastOf key log i).map f = some v := by
  cases hlast : lastOf key log i with
  | none => exact absurd hkey (lastOf_eq_none.mp hlast b hb)
  | some c =>
    obtain ⟨hc, hkeyc⟩ := mem_of_lastOf hlast
    rw [Option.map_some, hagree c hc hkeyc]

/-- In a log with one record for each question, the record about `i` is the last one. -/
theorem lastOf_eq_some {log : List β} (hnodup : (log.map key).Nodup) {i : ι} {b : β} :
    lastOf key log i = some b ↔ b ∈ log ∧ key b = i := by
  refine ⟨mem_of_lastOf, ?_⟩
  rintro ⟨hb, hkey⟩
  have hagree : ∀ c ∈ log, key c = i → c = b := by
    intro c hc hkeyc
    exact List.inj_on_of_nodup_map hnodup hc hb (hkeyc.trans hkey.symm)
  have hlast := lastOf_eq_some_of_agree (f := id) hb hkey hagree
  rwa [Option.map_id_fun, id_eq] at hlast

/-- The order of a log with one record for each question is immaterial. -/
theorem lastOf_eq_of_perm {log log' : List β} (hperm : log.Perm log')
    (hnodup : (log.map key).Nodup) (i : ι) : lastOf key log i = lastOf key log' i := by
  have hnodup' : (log'.map key).Nodup := (hperm.map key).nodup_iff.mp hnodup
  ext b
  rw [lastOf_eq_some hnodup, lastOf_eq_some hnodup', hperm.mem_iff]

end LastOf

end DarqEval.Lib
