import ColumnarEngine.Exec.FilterCorrect
import ColumnarEngine.Exec.ScalarCorrect

/-!
# What a transform does to the rows

A transform moves columns, physical indices and selection vectors. As a list of rows, a well-formed
batch goes through a transform other than `Limit` row by row: a filter keeps a row or not, each
scalar function appends its value, `Drop` and `Reorder` pick values by position (`rows_execute`).
-/

namespace ColumnarEngine

/-- The rows of a batch that may be null. -/
def rowList (result : Option RecordBatch) : List Row := result.elim [] RecordBatch.rows

/-- The row with the value that the function appends to it. -/
def ScalarFunction.appendTo (P : Platform) (row : Row) (f : ScalarFunction) : Row :=
  row ++ [Value.conv f.returnType (f.valueAt P row)]

namespace TransformOperator

/-- What becomes of a row. A `Limit` decides by numbers of rows and leaves each as it is. -/
def onRow (P : Platform) (row : Row) : TransformOperator → Option Row
  | filter f => if f.passes P row then some row else none
  | scalar fs => some (fs.foldl (ScalarFunction.appendTo P) row)
  | drop idxs => some (idxs.map fun i => row.getD i default)
  | reorder idxs => some (idxs.map fun i => row.getD i default)
  | limit _ => some row

end TransformOperator

variable {P : Platform} {b : RecordBatch}

/-! ## Columns and rows -/

/-- The columns at some indices hold, in every row, the values at these positions. -/
theorem rowAt_gather {idxs : List ℕ} {columns : List Column}
    (h : gather b.columns idxs = some columns) (i : ℕ) :
    RecordBatch.rowAt { b with columns := columns } i =
      idxs.map fun j => (b.rowAt i).getD j default := by
  induction idxs generalizing columns with
  | nil =>
      obtain rfl : [] = columns := by simpa [gather] using h
      rfl
  | cons j idxs ih =>
      rw [gather_cons, Option.bind_eq_some_iff] at h
      obtain ⟨c, hc, h⟩ := h
      obtain ⟨rest, hrest, rfl⟩ := Option.map_eq_some_iff.mp h
      obtain ⟨hlt, rfl⟩ := List.getElem?_eq_some_iff.mp hc
      have htail := ih hrest
      rw [List.map_cons, ← htail, ScalarFunction.rowAt_getD hlt]
      rfl

/-- The batch with other columns has the same selected rows, of the new columns. -/
theorem rows_gather {idxs : List ℕ} {columns : List Column}
    (h : gather b.columns idxs = some columns) :
    RecordBatch.rows { b with columns := columns } =
      b.rows.map fun row => idxs.map fun j => row.getD j default := by
  rw [RecordBatch.rows, RecordBatch.rows, List.map_map]
  exact List.map_congr_left fun i _ => rowAt_gather h i

/-- A function holds its value at every selected row if the rows fit; without a column it is a
constant. -/
theorem ScalarFunction.getElem?_evaluate_fits (hb : b.WellFormed)
    (hfits : b.columns = [] → ∀ i ∈ b.selected, i < b.numRows) {f : ScalarFunction} {c : Column}
    (h : f.evaluate P b = some c) :
    ∀ i ∈ b.selected,
      c.data[i]? = some (Value.conv f.returnType (f.valueAt P (b.rowAt i))) := by
  by_cases hne : b.columns = []
  · have hwell := wellTyped_of_evaluate h
    have htypes : b.types = [] := by rw [RecordBatch.types, hne, List.map_nil]
    rw [htypes] at hwell
    intro i hi
    cases f with
    | constant type value =>
        obtain rfl := Option.some.inj h
        have hsize : physicalSizeOrRows b = b.numRows := by simp [physicalSizeOrRows, hne]
        rw [Column.ofValues_data, List.getElem?_map, hsize,
          List.getElem?_replicate_of_lt (hfits hne i hi)]
        rfl
    | extractMinute col | length col => simp [WellTyped] at hwell
    | timeTrunc col part => simp [WellTyped] at hwell
    | addConstant type col value => simp [WellTyped] at hwell
    | regexpReplace col pattern replacement => simp [WellTyped] at hwell
    | caseWhen cond trueBranch falseBranch type =>
        exact absurd hne (columns_ne_nil_of_wellTyped (htypes ▸ hwell.1))
  · exact getElem?_evaluate hb hne h

/-- An appended column appends its value to every selected row. -/
theorem rows_append_column (hb : b.WellFormed)
    (hfits : b.columns = [] → ∀ i ∈ b.selected, i < b.numRows) {f : ScalarFunction} {c : Column}
    (h : f.evaluate P b = some c) :
    RecordBatch.rows { b with columns := b.columns ++ [c] } = b.rows.map (f.appendTo P) := by
  rw [RecordBatch.rows, RecordBatch.rows, List.map_map]
  apply List.map_congr_left
  intro i hi
  have hvalue := ScalarFunction.getElem?_evaluate_fits hb hfits h i hi
  simp [RecordBatch.rowAt, ScalarFunction.appendTo, hvalue]

/-- The scalar functions append their values, one after the other. -/
theorem rows_scalarExecute {fs : List ScalarFunction} (hb : b.WellFormed)
    (hfits : (TransformOperator.scalar fs).FitsRows b) {b' : RecordBatch}
    (h : scalarExecute P fs b = some b') :
    b'.rows = b.rows.map fun row => fs.foldl (ScalarFunction.appendTo P) row := by
  induction fs generalizing b with
  | nil =>
      obtain rfl : b = b' := by simpa [scalarExecute] using h
      simp
  | cons f fs ih =>
      obtain ⟨c, hc, hrest⟩ := scalarExecute_cons h
      have hwell := (scalarExecute_eq_some h).1.1
      obtain ⟨c', hc', -, hsize⟩ := ScalarFunction.evaluate_sound (P := P) hb hwell
      obtain rfl : c = c' := Option.some.inj (hc.symm.trans hc')
      have hwf := (append_column_wellFormed_iff hb hsize).mpr hfits
      have hnext := ih hwf (by
        cases fs with
        | nil => trivial
        | cons g gs => exact fun hnil => absurd hnil (by simp)) hrest
      rw [hnext, rows_append_column hb hfits hc, List.map_map]
      rfl

/-- A filter keeps the rows that satisfy its formula. -/
theorem rows_filterExecute (hb : b.WellFormed) {f : FilterFunction} (hf : f.WellTyped b.types) :
    ∃ r, filterExecute P f b = some r ∧ rowList r = b.rows.filter fun row => f.passes P row := by
  have hrows : (b.selected.filter fun i => f.passes P (b.rowAt i)).map b.rowAt =
      b.rows.filter fun row => f.passes P row := by
    rw [RecordBatch.rows, List.filter_map]
    rfl
  rw [filterExecute, FilterFunction.evaluate_eq hb hf, Option.map_some]
  refine ⟨_, rfl, ?_⟩
  split_ifs with hempty
  · rw [List.isEmpty_iff] at hempty
    rw [← hrows, hempty]
    rfl
  · exact hrows

namespace TransformOperator

/-- **A transform treats the rows one by one**: on a well-formed batch that it is well typed for and
whose rows fit, `Execute` returns what becomes of each selected row, in order. -/
theorem rows_execute (hb : b.WellFormed) {t : TransformOperator} (hlimit : t.isLimit = false)
    (ht : t.WellTyped b.types) (hfits : t.FitsRows b) :
    ∃ r, t.execute P b = some r ∧ rowList r = b.rows.filterMap (t.onRow P) := by
  cases t with
  | limit n => simp [isLimit] at hlimit
  | filter f =>
      obtain ⟨r, hr, hrows⟩ := rows_filterExecute (P := P) hb ht
      refine ⟨r, hr, ?_⟩
      rw [hrows, ← List.filterMap_eq_filter]
      rfl
  | scalar fs =>
      obtain ⟨b', hb', -, -⟩ := scalarExecute_sound (P := P) hb ht hfits
      refine ⟨some b', by rw [execute, hb', Option.map_some], ?_⟩
      rw [show (scalar fs).onRow P = fun row => some (fs.foldl (ScalarFunction.appendTo P) row) from
        rfl, List.filterMap_eq_map']
      exact rows_scalarExecute hb hfits hb'
  | drop idxs =>
      obtain ⟨columns, hgather, -, -⟩ := gather_columns (b := b) ht.2
      refine ⟨some { b with columns := columns }, ?_, ?_⟩
      · rw [execute, dropExecute, if_pos ht.1, hgather]
        rfl
      · rw [show (drop idxs).onRow P = fun row => some (idxs.map fun i => row.getD i default) from
          rfl, List.filterMap_eq_map']
        exact rows_gather hgather
  | reorder idxs =>
      obtain ⟨columns, hgather, -, -⟩ := gather_columns (b := b) ht
      refine ⟨some { b with columns := columns }, ?_, ?_⟩
      · rw [execute, reorderExecute, hgather]
        rfl
      · have honRow : (reorder idxs).onRow P =
            fun row => some (idxs.map fun i => row.getD i default) := rfl
        rw [honRow, List.filterMap_eq_map']
        exact rows_gather hgather

end TransformOperator

end ColumnarEngine
