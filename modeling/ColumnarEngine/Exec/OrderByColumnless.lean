import ColumnarEngine.Exec.OrderByCorrect

/-!
# ORDER BY of a child without columns

A child without columns has no column builders either, so `Sink` takes every call of a thread for
its first and counts only the last batch. The batch emitted has the rows that the bound, at its
widths, leaves of the last batches of the threads (`columnless_run`).
-/

namespace ColumnarEngine

open Found

/-! ## Cuts at the bound -/

/-- The rows left of `k` rows after the trim that may follow a `Sink` call. -/
def rowsLeft (total : Option ℕ) (k : ℕ) : ℕ :=
  match total with
  | none => k
  | some total => if total * 10 % 2 ^ 64 < k ∧ total < k then toUInt32 total else k

/-- The rows left of `k` rows by a cut at the bound, which is narrowed to `uint32_t`. -/
def cutRows (total : Option ℕ) (k : ℕ) : ℕ :=
  match total with
  | none => k
  | some total => if total < k then toUInt32 total else k

namespace OrderBySinkSourceOperator

variable {P : Platform} {A : SortAlgorithms ℕ}

/-- The number of sorted indices. -/
theorem length_sortIndices (op : OrderBySinkSourceOperator) {info : List (Column × Bool)}
    (hweak : StrictWeak (compareRows P info)) (n : ℕ) :
    (op.sortIndices P A info n).length = cutRows op.totalLimit n := by
  have hsort := A.sort_perm hweak (List.range n)
  unfold sortIndices cutRows
  cases op.totalLimit with
  | none => simpa using hsort.length_eq
  | some total =>
      dsimp only
      split_ifs with hcut
      · have hle := toUInt32_le_range hcut
        rw [List.length_take, (A.partialSort_perm hweak hle).length_eq, min_eq_left hle]
      · rw [hsort.length_eq, List.length_range]

/-! ## Runs -/

/-- The run has emitted the batch `b`. -/
def Emits (P : Platform) (A : SortAlgorithms ℕ) (op : OrderBySinkSourceOperator)
    (calls : List (RecordBatch × ℕ)) (b : RecordBatch) : Prop :=
  ∃ op₁ op₂, op.sinkAll P A calls = some op₁ ∧ op₁.finalize P A = some op₂ ∧
    op₂.getData.1 = some b

/-- A run emits one batch. -/
theorem Emits.unique {op : OrderBySinkSourceOperator} {calls : List (RecordBatch × ℕ)}
    {b b' : RecordBatch} (h : Emits P A op calls b) (h' : Emits P A op calls b') : b = b' := by
  obtain ⟨op₁, op₂, hrun, hfinal, hdata⟩ := h
  obtain ⟨op₁', op₂', hrun', hfinal', hdata'⟩ := h'
  obtain rfl : op₁ = op₁' := Option.some.inj (hrun.symm.trans hrun')
  obtain rfl : op₂ = op₂' := Option.some.inj (hfinal.symm.trans hfinal')
  exact Option.some.inj (hdata.symm.trans hdata')

/-- The number of rows of the last batch sunk on a thread. -/
def lastRows (calls : List (RecordBatch × ℕ)) (t : ℕ) : ℕ :=
  ((threadBatches calls t).getLast?.map RecordBatch.numRows).getD 0

/-- The comparator without sort columns. -/
theorem strictWeak_compareRows_nil : StrictWeak (compareRows P []) := StrictWeak.const_false

/-- Without columns a `Sink` call counts the rows of its batch only. -/
theorem sinkLocal_forgets {op : OrderBySinkSourceOperator} (htypes : op.columnTypes = [])
    (hsort : op.sortColumns = []) {b : RecordBatch} {loc : OrderByThreadState}
    (hloc : loc.columnBuilders = []) :
    op.sinkLocal P A b loc = some ⟨[], rowsLeft op.totalLimit b.numRows⟩ := by
  unfold sinkLocal
  simp only [hloc, htypes, List.isEmpty_nil, if_true, List.map_nil, List.length_nil, copyColumns,
    Option.bind_some, Nat.zero_add]
  cases hlimit : op.totalLimit with
  | none => rfl
  | some total =>
      have hlen := length_trimIndices (A := A) op (strictWeak_compareRows_nil (P := P)) b.numRows
      simp only [hlimit] at hlen
      simp only [rowsLeft, ite_and]
      by_cases htrim : total * 10 % 2 ^ 64 < b.numRows
      · rw [if_pos htrim, if_pos htrim, ← hlen]
        simp [trimLocalBatch, (Nat.zero_lt_of_lt htrim).ne', hsort, colsInfo, rebuild, htypes,
          copyColumns]
      · rw [if_neg htrim, if_neg htrim]

/-- Merging threads without columns adds their numbers of rows. -/
theorem mergeThreads_columnless {ts : List OrderByThreadState}
    (h : ∀ loc ∈ ts, loc.columnBuilders = []) (start : ℕ) :
    ts.foldlM mergeThread ([], start) =
      some ([], start + (ts.map OrderByThreadState.accumNumRows).sum) := by
  induction ts generalizing start with
  | nil => rfl
  | cons loc ts ih =>
      have hloc := h loc List.mem_cons_self
      have hstep : mergeThread ([], start) loc = some ([], start + loc.accumNumRows) := by
        unfold mergeThread
        split_ifs with hzero
        · rw [hzero, Nat.add_zero]
        · simp [copyColumns]
      rw [List.foldlM_cons, hstep, Option.bind_eq_bind, Option.bind_some,
        ih fun loc' h' => h loc' (List.mem_cons_of_mem loc h'), List.map_cons, List.sum_cons,
        Nat.add_assoc]

/-- **Without columns** every run emits a batch without columns: as many rows as the bound leaves of
the last batches of the threads, without the offset. -/
theorem columnless_run (limit offset : Option ℕ) {n : ℕ} {calls : List (RecordBatch × ℕ)}
    (hcalls : ValidCalls [] n calls) :
    let total := (create [] [] limit offset n).totalLimit
    Emits P A (create [] [] limit offset n) calls
      ⟨cutRows total ((List.range n).map fun t => rowsLeft total (lastRows calls t)).sum -
        offset.getD 0, none, []⟩ := by
  intro total
  set op := create [] [] limit offset n with hop
  obtain ⟨ts, hrun, hlen, hall⟩ := sinkAll_threads (P := P) (A := A) op (n := n) rfl
    (fun c hc => (hcalls c hc).2.2)
    (I := fun bs loc => loc = ⟨[], rowsLeft total
      ((bs.getLast?.map RecordBatch.numRows).getD 0)⟩)
    (by cases total <;> rfl)
    (by
      rintro t bs b loc - rfl
      exact ⟨_, sinkLocal_forgets rfl rfl rfl, by simp [total, hop]⟩)
  have hstates : ∀ loc ∈ ts, loc.columnBuilders = [] := by
    intro loc hloc
    obtain ⟨t, ht⟩ := List.mem_iff_getElem?.mp hloc
    rw [hall t loc ht]
  have hsum : (ts.map OrderByThreadState.accumNumRows).sum =
      ((List.range n).map fun t => rowsLeft total (lastRows calls t)).sum := by
    congr 1
    apply List.ext_getElem (by simp [hlen])
    intro t ht ht'
    have htlt : t < ts.length := by simpa using ht
    rw [List.getElem_map, hall t ts[t] (List.getElem?_eq_getElem htlt)]
    simp [lastRows]
  have hmerge := mergeThreads_columnless hstates 0
  rw [Nat.zero_add, hsum] at hmerge
  generalize ((List.range n).map fun t => rowsLeft total (lastRows calls t)).sum = num
    at hmerge ⊢
  have hsorted : (skipOffset { op with threadStates := ts }
      (sortIndices P A { op with threadStates := ts } [] num)).length =
        cutRows total num - offset.getD 0 := by
    rw [skipOffset_eq, List.length_drop, length_sortIndices _ strictWeak_compareRows_nil]
    rfl
  have hfinal : ({ op with threadStates := ts } : OrderBySinkSourceOperator).finalize P A =
      some { op with
        threadStates := ts
        resultBatch := some ⟨cutRows total num - offset.getD 0, none, []⟩ } := by
    unfold finalize
    show ((ts.foldlM mergeThread ([], 0)).bind _) = _
    rw [hmerge, Option.bind_some]
    split_ifs with hzero
    · obtain rfl : num = 0 := hzero
      have hcut : cutRows total 0 = 0 := by cases total <;> rfl
      rw [hcut, Nat.zero_sub]
    · simp [hop, create, colsInfo, rebuild, copyColumns] at hsorted ⊢
      exact hsorted
  exact ⟨_, _, hrun, hfinal, rfl⟩

/-- Rows of a batch without columns are empty. -/
theorem rows_columnless {b : RecordBatch} (hb : b.WellFormed) (hbt : b.types = []) :
    b.rows = List.replicate b.numRows [] := by
  have hcols : b.columns = [] := List.map_eq_nil_iff.mp hbt
  rw [List.eq_replicate_iff]
  refine ⟨hb.length_rows, ?_⟩
  intro r hr
  obtain ⟨i, -, rfl⟩ := List.mem_map.mp hr
  simp [RecordBatch.rowAt, hcols]

end OrderBySinkSourceOperator

end ColumnarEngine
