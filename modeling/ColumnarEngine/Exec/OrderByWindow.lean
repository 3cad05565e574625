import ColumnarEngine.Exec.OrderByColumnless

/-!
# The window ORDER BY emits

For a child with columns every run emits the window of a sorted arrangement of the sunk rows
(`window_of_columns`); for a child without columns the result is as long as the window of the last
batches of the threads (`window_of_columnless`). `orderBy_window_iff` puts the two together.
-/

namespace ColumnarEngine

open Found

/-- The lexicographic comparator of the sort columns on rows, each ascending or descending. -/
def lexBefore (sortColumns : List (ℕ × Bool)) : Row → Row → Bool :=
  lexLess (sortColumns.map fun s r r' =>
    if s.2 then decide (r'.getD s.1 default < r.getD s.1 default)
    else decide (r.getD s.1 default < r'.getD s.1 default))

/-- The sort columns name columns that are not floating. -/
def PlainSortKeys (types : List ColumnType) (sortColumns : List (ℕ × Bool)) : Prop :=
  ∀ s ∈ sortColumns, ∃ t, types[s.1]? = some t ∧ t.isFloating = false

namespace PlainSortKeys

variable {P : Platform} {types : List ColumnType} {sortColumns : List (ℕ × Bool)}

theorem sortKeys (h : PlainSortKeys types sortColumns) : SortKeys P types sortColumns := by
  intro s hs
  obtain ⟨t, ht, hplain⟩ := h s hs
  exact ⟨t, ht, strictWeak_less hplain⟩

/-- The engine's comparator is the lexicographic one. -/
theorem rowLess_eq (h : PlainSortKeys types sortColumns) :
    rowLess P types sortColumns = lexBefore sortColumns := by
  unfold rowLess lexBefore
  congr 1
  apply List.map_congr_left
  intro s hs
  obtain ⟨t, ht, hplain⟩ := h s hs
  have hd : types.getD s.1 default = t := by simp [ht]
  have hless : ∀ a b, Value.less P t a b = decide (a < b) := fun a b => by
    rw [Bool.eq_iff_iff, Value.less_iff P hplain, decide_eq_true_eq]
  funext r r'
  simp only [keyLess, hd, hless]

end PlainSortKeys

namespace OrderBySinkSourceOperator

variable {P : Platform} {A : SortAlgorithms ℕ}

/-- The limit and the offset fit the width of a row index together. -/
def FitsIndex (limit offset : Option ℕ) : Prop :=
  ∀ l, limit = some l → l + offset.getD 0 < 2 ^ 32

theorem totalLimit_create {limit offset : Option ℕ} (h : FitsIndex limit offset)
    (sortColumns : List (ℕ × Bool)) (types : List ColumnType) (n : ℕ) :
    (create sortColumns types limit offset n).totalLimit =
      limit.map fun l => l + offset.getD 0 := by
  cases limit with
  | none => rfl
  | some l =>
      have hl := h l rfl
      cases offset with
      | none => rfl
      | some o =>
          rw [Option.getD_some] at hl
          simp only [create, Option.map_some, Option.getD_some, Option.some.injEq]
          exact Nat.mod_eq_of_lt (by omega)

/-- **With columns** every run emits the window of a sorted arrangement of the sunk rows. -/
theorem window_of_columns {types : List ColumnType} (hne : types ≠ [])
    {sortColumns : List (ℕ × Bool)} (hkeys : PlainSortKeys types sortColumns)
    {limit offset : Option ℕ} (hfits : FitsIndex limit offset) {n : ℕ}
    {calls : List (RecordBatch × ℕ)} (hcalls : ValidCalls types n calls)
    (hrows : (sunkRows calls).length < 2 ^ 32) :
    ∃ b L, Emits P A (create sortColumns types limit offset n) calls b ∧
      L.Perm (sunkRows calls) ∧ L.Pairwise (NotAfter (lexBefore sortColumns)) ∧
      b.rows = window limit offset L := by
  set op := create sortColumns types limit offset n with hop
  have hsort : SortKeys P op.columnTypes op.sortColumns := hkeys.sortKeys
  set k := limit.elim (sunkRows calls).length fun l => l + offset.getD 0 with hk
  have hbounds : op.Bounds k := by
    intro total htotal
    rw [hop, totalLimit_create hfits] at htotal
    cases limit with
    | none => simp at htotal
    | some l =>
        obtain rfl : l + offset.getD 0 = total := by simpa using htotal
        exact ⟨hfits l rfl, rfl⟩
  obtain ⟨ts, hrun, hlen, hall⟩ := sinkAll_threads (P := P) (A := A) op (n := n) rfl
    (fun c hc => (hcalls c hc).2.2)
    (I := fun bs loc => LocalHolds P op k (bs.flatMap RecordBatch.rows) loc)
    ⟨[], ⟨rfl, Or.inr ⟨rfl, rfl⟩⟩, .refl _ _⟩
    (by
      intro t bs b loc hpre hI
      have hmem : b ∈ threadBatches calls t := hpre.subset (by simp)
      obtain ⟨hb, hbt, -⟩ := hcalls (b, t) (mem_threadBatches.mp hmem)
      rw [List.flatMap_append, List.flatMap_singleton]
      apply sinkLocal_holds hsort hne hbounds hI hb hbt
      have hsub := (hpre.sublist.flatMap RecordBatch.rows).trans (threadRowList_sublist calls t)
      rw [List.flatMap_append, List.flatMap_singleton] at hsub
      exact hsub.length_le.trans_lt hrows)
  have hperm := flatMap_threadRowList_perm fun c hc => (hcalls c hc).2.2
  rw [← hlen] at hperm
  obtain ⟨b, L, hfinal, hL, hsorted, hbrows⟩ := finalize_window (P := P) (A := A)
    { op with threadStates := ts } hsort hbounds (X := threadRowList calls) hall
    (by rw [hperm.length_eq]; exact hrows)
    (by
      intro hnone
      rw [hperm.length_eq]
      change op.totalLimit = none at hnone
      rw [hop, totalLimit_create hfits, Option.map_eq_none_iff] at hnone
      rw [hk, hnone, Option.elim_none])
    (by
      intro r hr
      obtain ⟨c, hc, hrc⟩ := List.mem_flatMap.mp (hperm.mem_iff.mp hr)
      have := ((hcalls c hc).1.rows_typed r hrc).length_eq
      rwa [(hcalls c hc).2.1] at this)
  refine ⟨b, L, ⟨_, _, hrun, hfinal, rfl⟩, hL.trans hperm, ?_, ?_⟩
  · rwa [← hkeys.rowLess_eq (P := P)]
  · rw [hbrows, hk]
    cases limit with
    | none =>
        rw [Option.elim_none, List.take_of_length_le ((hL.trans hperm).length_eq.le)]
        rfl
    | some l =>
        show (L.take (l + offset.getD 0)).drop (offset.getD 0) = (L.drop (offset.getD 0)).take l
        rw [List.drop_take, Nat.add_sub_cancel]

/-! ## A child without columns -/

/-- Trims do not change a sum cut at the bound. -/
theorem min_sum_rowsLeft {total : ℕ} (h : total < 2 ^ 32) (rows : List ℕ) :
    min total (rows.map (rowsLeft (some total))).sum = min total rows.sum := by
  induction rows with
  | nil => rfl
  | cons r rows ih =>
      simp only [List.map_cons, List.sum_cons, rowsLeft, toUInt32_of_lt h] at ih ⊢
      split_ifs with hcut <;> omega

/-- What trims and the cut leave of numbers of rows is their window. -/
theorem cutRows_sum_rowsLeft {limit offset : Option ℕ} (hfits : FitsIndex limit offset)
    {total : Option ℕ} (htotal : total = limit.map fun l => l + offset.getD 0) (rows : List ℕ) :
    cutRows total (rows.map (rowsLeft total)).sum - offset.getD 0 =
      windowSize limit offset rows.sum := by
  subst htotal
  cases limit with
  | none =>
      have hid : rowsLeft none = id := rfl
      rw [Option.map_none, hid, List.map_id]
      rfl
  | some l =>
      have hl := hfits l rfl
      have hmin := min_sum_rowsLeft hl rows
      simp only [Option.map_some, cutRows, windowSize, toUInt32_of_lt hl]
      split_ifs with hcut <;> omega

/-- **Without columns** every run emits as many rows as the window of the last batches of the
threads has. -/
theorem window_of_columnless {limit offset : Option ℕ} (hfits : FitsIndex limit offset) {n : ℕ}
    {calls : List (RecordBatch × ℕ)} (hcalls : ValidCalls [] n calls) :
    Emits P A (create [] [] limit offset n) calls
      ⟨windowSize limit offset ((List.range n).map (lastRows calls)).sum, none, []⟩ := by
  have hrun := columnless_run (P := P) (A := A) limit offset hcalls
  have hsize := cutRows_sum_rowsLeft hfits (totalLimit_create hfits [] [] n)
    ((List.range n).map (lastRows calls))
  rw [List.map_map] at hsize
  rw [← hsize]
  exact hrun

/-! ## The exact condition -/

theorem lexBefore_nil : NotAfter (lexBefore []) = fun _ _ => True := by
  funext r r'
  simp [NotAfter, lexBefore, lexLess]

/-- **ORDER BY emits the window of a sorted arrangement of the sunk rows** exactly when the child
has columns, or the last batches of the threads have as many rows in the window as all batches. -/
theorem orderBy_window_iff (P : Platform) (A : SortAlgorithms ℕ) {types : List ColumnType}
    {sortColumns : List (ℕ × Bool)} (hkeys : PlainSortKeys types sortColumns)
    {limit offset : Option ℕ} (hfits : FitsIndex limit offset) {n : ℕ}
    {calls : List (RecordBatch × ℕ)} (hcalls : ValidCalls types n calls)
    (hrows : (sunkRows calls).length < 2 ^ 32) :
    ∃ b, Emits P A (create sortColumns types limit offset n) calls b ∧
      ((∃ L, L.Perm (sunkRows calls) ∧ L.Pairwise (NotAfter (lexBefore sortColumns)) ∧
          b.rows = window limit offset L) ↔
        (types ≠ [] ∨ windowSize limit offset ((List.range n).map (lastRows calls)).sum =
          windowSize limit offset (sunkRows calls).length)) := by
  by_cases hne : types = []
  · subst hne
    obtain rfl : sortColumns = [] := by
      apply List.eq_nil_iff_forall_not_mem.mpr
      intro s hs
      obtain ⟨t, ht, -⟩ := hkeys s hs
      simp at ht
    refine ⟨_, window_of_columnless hfits hcalls, ?_⟩
    rw [rows_columnless ⟨0, by simp, by simp⟩ rfl]
    constructor
    · rintro ⟨L, hperm, -, hwindow⟩
      have hlen := congrArg List.length hwindow
      rw [List.length_replicate, length_window, hperm.length_eq] at hlen
      exact Or.inr hlen
    · rintro (h | hsize)
      · exact absurd rfl h
      · refine ⟨sunkRows calls, .refl _, ?_, ?_⟩
        · rw [lexBefore_nil]
          exact List.pairwise_of_forall fun _ _ => trivial
        · rw [hsize, eq_comm, List.eq_replicate_iff]
          refine ⟨length_window .., ?_⟩
          intro r hr
          have hmem : r ∈ sunkRows calls := by
            cases limit with
            | none => exact List.mem_of_mem_drop hr
            | some l => exact List.mem_of_mem_drop (List.mem_of_mem_take hr)
          obtain ⟨c, hc, hrc⟩ := List.mem_flatMap.mp hmem
          obtain ⟨hb, hbt, -⟩ := hcalls c hc
          rw [rows_columnless hb hbt] at hrc
          exact List.eq_of_mem_replicate hrc
  · obtain ⟨b, L, hemits, hwindow⟩ := window_of_columns (P := P) (A := A) hne hkeys hfits hcalls
      hrows
    exact ⟨b, hemits, fun _ => Or.inl hne, fun _ => ⟨L, hwindow⟩⟩

/-- The two newest names after the newest one, over two threads. -/
theorem orderBy_window_two_threads :
    let types : List ColumnType := [.string, .int32]
    let calls : List (RecordBatch × ℕ) :=
      [(⟨2, none, [.ofValues .string [.str (ascii "b"), .str (ascii "a")],
          .ofValues .int32 [.int 1, .int 3]]⟩, 1),
        (⟨1, some [1], [.ofValues .string [.str (ascii "c"), .str (ascii "d")],
          .ofValues .int32 [.int 4, .int 3]]⟩, 0)]
    ∃ b, Emits Platform.integral (.mergeSort ℕ)
        (create [(1, true), (0, false)] types (some 2) (some 1) 2) calls b ∧
      ((∃ L, L.Perm (sunkRows calls) ∧
          L.Pairwise (NotAfter (lexBefore [(1, true), (0, false)])) ∧
          b.rows = window (some 2) (some 1) L) ↔
        (types ≠ [] ∨
          windowSize (some 2) (some 1) ((List.range 2).map (lastRows calls)).sum =
            windowSize (some 2) (some 1) (sunkRows calls).length)) :=
  orderBy_window_iff Platform.integral (.mergeSort ℕ)
    (by
      intro s hs
      simp only [List.mem_cons, List.not_mem_nil, or_false] at hs
      rcases hs with rfl | rfl
      · exact ⟨.int32, rfl, rfl⟩
      · exact ⟨.string, rfl, rfl⟩)
    (by intro l hl; cases hl; decide) (by unfold ValidCalls; decide) (by decide)

/-- **Two batches without columns**, sunk on one thread: one of the two rows is emitted. -/
theorem orderBy_columnless_loses_rows :
    let calls : List (RecordBatch × ℕ) := [(⟨1, none, []⟩, 0), (⟨1, none, []⟩, 0)]
    ValidCalls [] 1 calls ∧ PlainSortKeys [] [] ∧ FitsIndex none none ∧
      (sunkRows calls).length = 2 ∧
      ∀ b, Emits Platform.integral (.mergeSort ℕ) (create [] [] none none 1) calls b →
        b.rows = [[]] ∧
        ¬ ∃ L, L.Perm (sunkRows calls) ∧ L.Pairwise (NotAfter (lexBefore [])) ∧
          b.rows = window none none L := by
  intro calls
  have hcalls : ValidCalls [] 1 calls := by unfold ValidCalls; decide
  have hfits : FitsIndex none none := by simp [FitsIndex]
  refine ⟨hcalls, by simp [PlainSortKeys], hfits, rfl, ?_⟩
  intro b hemits
  have hrows : b.rows = [[]] := by
    rw [hemits.unique (window_of_columnless hfits hcalls)]
    decide
  refine ⟨hrows, ?_⟩
  rintro ⟨L, hperm, -, hL⟩
  have hlen := congrArg List.length hL
  rw [hrows, length_window, hperm.length_eq] at hlen
  revert hlen
  decide

end OrderBySinkSourceOperator

end ColumnarEngine
