import ColumnarEngine.Exec.Batch

/-!
# Sequences of `Sink` calls

The input of a breaker is a sequence of `Sink(batch, thread_id)` calls in any order. `sunkRows` are
the selected rows of all calls and `threadRows` those sunk on one thread; the threads together sink
all rows (`sum_threadRows`).
-/

namespace ColumnarEngine

/-- The selected rows of a sequence of `Sink` calls. -/
def sunkRows (calls : List (RecordBatch × ℕ)) : List Row := calls.flatMap fun c => c.1.rows

/-- The batches sunk on one thread, in order. -/
def threadBatches (calls : List (RecordBatch × ℕ)) (t : ℕ) : List RecordBatch :=
  (calls.filter fun c => c.2 = t).map Prod.fst

/-- The rows sunk on one thread, in order. -/
def threadRowList (calls : List (RecordBatch × ℕ)) (t : ℕ) : List Row :=
  (threadBatches calls t).flatMap RecordBatch.rows

/-- The rows sunk on one thread. -/
def threadRows (calls : List (RecordBatch × ℕ)) (t : ℕ) : Multiset Row :=
  (threadRowList calls t : List Row)

theorem threadBatches_append_self (calls : List (RecordBatch × ℕ)) (b : RecordBatch) (t : ℕ) :
    threadBatches (calls ++ [(b, t)]) t = threadBatches calls t ++ [b] := by
  simp [threadBatches, List.filter_append]

theorem threadBatches_append_of_ne {t t' : ℕ} (h : t ≠ t') (calls : List (RecordBatch × ℕ))
    (b : RecordBatch) : threadBatches (calls ++ [(b, t)]) t' = threadBatches calls t' := by
  simp [threadBatches, List.filter_append, h]

/-- A batch sunk on a thread is one of the calls. -/
theorem mem_threadBatches {calls : List (RecordBatch × ℕ)} {b : RecordBatch} {t : ℕ} :
    b ∈ threadBatches calls t ↔ (b, t) ∈ calls := by
  simp [threadBatches, eq_comm]

theorem threadRowList_append (calls calls' : List (RecordBatch × ℕ)) (t : ℕ) :
    threadRowList (calls ++ calls') t = threadRowList calls t ++ threadRowList calls' t := by
  simp [threadRowList, threadBatches]

theorem threadRowList_concat (calls : List (RecordBatch × ℕ)) (c : RecordBatch × ℕ) (t : ℕ) :
    threadRowList (calls ++ [c]) t =
      threadRowList calls t ++ if c.2 = t then c.1.rows else [] := by
  rw [threadRowList_append]
  by_cases h : c.2 = t <;> simp [threadRowList, threadBatches, h]

/-- What holds of the rows of every thread holds with one more call exactly if it does on the thread
of the call. -/
theorem forall_threadRowList_concat_iff {done : List (RecordBatch × ℕ)} {b : RecordBatch}
    {n tid : ℕ} {Q : List Row → Prop} (htid : tid < n)
    (hdone : ∀ t < n, Q (threadRowList done t)) :
    (∀ t < n, Q (threadRowList (done ++ [(b, tid)]) t)) ↔
      Q (threadRowList done tid ++ b.rows) := by
  constructor
  · intro h
    have hself := h tid htid
    rwa [threadRowList_concat, if_pos rfl] at hself
  · intro h t ht
    rw [threadRowList_concat]
    split_ifs with heq
    · obtain rfl : tid = t := heq
      exact h
    · rw [List.append_nil]
      exact hdone t ht

theorem threadRows_append (calls : List (RecordBatch × ℕ)) (b : RecordBatch) (t : ℕ) :
    threadRows (calls ++ [(b, t)]) =
      Function.update (threadRows calls) t (threadRows calls t + b.rows) := by
  funext t'
  by_cases h : t = t'
  · subst h
    rw [Function.update_self, threadRows, threadRowList, threadBatches_append_self]
    simp [threadRows, threadRowList]
  · rw [Function.update_of_ne (Ne.symm h), threadRows, threadRowList, threadBatches_append_of_ne h]
    rfl

theorem threadRowList_sublist (calls : List (RecordBatch × ℕ)) (t : ℕ) :
    (threadRowList calls t).Sublist (sunkRows calls) := by
  rw [threadRowList, threadBatches, List.flatMap_map]
  exact List.filter_sublist.flatMap _

theorem threadRows_le (calls : List (RecordBatch × ℕ)) (t : ℕ) :
    threadRows calls t ≤ sunkRows calls :=
  Multiset.coe_le.mpr (threadRowList_sublist calls t).subperm

/-- The rows that a thread has sunk after some of the calls are among those of all calls. -/
theorem threadRows_append_le {calls done rest : List (RecordBatch × ℕ)} {c : RecordBatch × ℕ}
    (hl : calls = done ++ c :: rest) : threadRows (done ++ [c]) c.2 ≤ sunkRows calls := by
  have hdone : (done ++ [c]).Sublist calls := by
    rw [hl, List.append_cons done c rest]
    exact List.sublist_append_left _ _
  exact le_trans (threadRows_le _ _) (Multiset.coe_le.mpr (hdone.flatMap _).subperm)

/-- The threads together sink all rows. -/
theorem sum_threadRows {calls : List (RecordBatch × ℕ)} {n : ℕ} (h : ∀ c ∈ calls, c.2 < n) :
    ∑ t ∈ Finset.range n, threadRows calls t = sunkRows calls := by
  induction calls with
  | nil => simp [threadRows, threadRowList, threadBatches, sunkRows]
  | cons c calls ih =>
      have hstep : ∀ t, threadRows (c :: calls) t =
          (if c.2 = t then (c.1.rows : Multiset Row) else 0) + threadRows calls t := by
        intro t
        by_cases hc : c.2 = t <;> simp [threadRows, threadRowList, threadBatches, hc]
      rw [Finset.sum_congr rfl fun t _ => hstep t, Finset.sum_add_distrib,
        ih fun c' hc' => h c' (List.mem_cons_of_mem c hc'), Finset.sum_ite_eq, if_pos]
      · simp [sunkRows]
      · exact Finset.mem_range.mpr (h c List.mem_cons_self)

/-- The rows of the threads, one thread after the other, are all rows. -/
theorem flatMap_threadRowList_perm {calls : List (RecordBatch × ℕ)} {n : ℕ}
    (h : ∀ c ∈ calls, c.2 < n) :
    ((List.range n).flatMap (threadRowList calls)).Perm (sunkRows calls) := by
  rw [← Multiset.coe_eq_coe, ← sum_threadRows h]
  clear h
  induction n with
  | zero => rfl
  | succ n ih =>
      rw [List.range_succ, List.flatMap_append, ← Multiset.coe_add, ih, Finset.sum_range_succ]
      simp [threadRows]

/-- Well-formed batches of the layout, on threads of the operator. -/
def ValidCalls (types : List ColumnType) (n : ℕ) (calls : List (RecordBatch × ℕ)) : Prop :=
  ∀ c ∈ calls, c.1.WellFormed ∧ c.1.types = types ∧ c.2 < n

/-- Every sunk row has the types of the layout. -/
theorem ValidCalls.rows_typed {types : List ColumnType} {n : ℕ} {calls : List (RecordBatch × ℕ)}
    (h : ValidCalls types n calls) : ∀ r ∈ sunkRows calls, List.Forall₂ Value.HasType r types := by
  intro r hr
  obtain ⟨c, hc, hrc⟩ := List.mem_flatMap.mp hr
  exact (h c hc).2.1 ▸ (h c hc).1.rows_typed r hrc

end ColumnarEngine
