import ColumnarEngine.Column.Column

/-!
# Record batches

`RecordBatch` of `execution/Pipeline.h`, with the well-formedness every operator relies on, and the
reading of a batch as a list of rows. A batch keeps its columns at their physical length; the
selection vector lists the physical indices of its rows, and without one the rows are
`0 .. num_rows - 1`. `iterateColumnData` is `AggExpHelper::IterateColumnData`.
-/

namespace ColumnarEngine

/-- A row: one value for each column. -/
abbrev Row := List Value

/-- `struct RecordBatch`. -/
structure RecordBatch where
  numRows : ℕ
  selectionVector : Option (List ℕ)
  columns : List Column
  deriving DecidableEq

namespace RecordBatch

/-- The types of the columns. -/
def types (b : RecordBatch) : List ColumnType := b.columns.map Column.type

/-- The columns have physical length `P`. Without a selection vector `num_rows` is `P` (anything if
there is no column); a selection vector is strictly increasing, has `num_rows` entries, and all of
them are below `P` if there is a column. -/
def WellFormedAt (b : RecordBatch) (P : ℕ) : Prop :=
  (∀ c ∈ b.columns, c.size = P) ∧
    match b.selectionVector with
    | none => b.columns ≠ [] → b.numRows = P
    | some sel => sel.Pairwise (· < ·) ∧ sel.length = b.numRows ∧
        (b.columns ≠ [] → ∀ i ∈ sel, i < P)

/-- The batch is well formed for some physical length. -/
def WellFormed (b : RecordBatch) : Prop := ∃ P, b.WellFormedAt P

instance (b : RecordBatch) (P : ℕ) : Decidable (b.WellFormedAt P) :=
  match b with
  | ⟨n, none, columns⟩ =>
      inferInstanceAs (Decidable ((∀ c ∈ columns, c.size = P) ∧ (columns ≠ [] → n = P)))
  | ⟨n, some sel, columns⟩ =>
      inferInstanceAs (Decidable ((∀ c ∈ columns, c.size = P) ∧
        sel.Pairwise (· < ·) ∧ sel.length = n ∧ (columns ≠ [] → ∀ i ∈ sel, i < P)))

/-- The length of the first column. -/
def physicalSize (b : RecordBatch) : ℕ := (b.columns.head?.map Column.size).getD 0

/-- The first column decides the physical length. -/
theorem wellFormedAt_physicalSize {b : RecordBatch} (h : b.WellFormed) :
    b.WellFormedAt b.physicalSize := by
  obtain ⟨P, hP⟩ := h
  obtain ⟨n, sel, columns⟩ := b
  cases columns with
  | nil => cases sel <;> simp_all [WellFormedAt]
  | cons c columns => rwa [show physicalSize ⟨n, sel, c :: columns⟩ = P from hP.1 c (by simp)]

instance (b : RecordBatch) : Decidable b.WellFormed :=
  decidable_of_iff (b.WellFormedAt b.physicalSize) ⟨fun h => ⟨_, h⟩, wellFormedAt_physicalSize⟩

/-- The physical indices of the rows of the batch. -/
def selected (b : RecordBatch) : List ℕ :=
  match b.selectionVector with
  | none => List.range b.numRows
  | some sel => sel

/-- The row at a physical index. -/
def rowAt (b : RecordBatch) (i : ℕ) : Row := b.columns.map fun c => c.data.getD i default

/-- The selected rows, in order. -/
def rows (b : RecordBatch) : List Row := b.selected.map b.rowAt

/-- The physical indices a loop over `num_rows` visits; a selection vector that is too short is read
past its end. -/
def indices (b : RecordBatch) : Option (List ℕ) :=
  match b.selectionVector with
  | none => some (List.range b.numRows)
  | some sel => if b.numRows ≤ sel.length then some (sel.take b.numRows) else none

/-- `AggExpHelper::IterateColumnData<ColumnT>`: the elements passed to `func` with their physical
indices, in order (the logical index is the position). The column is cast to the class of `t`. -/
def iterateColumnData (b : RecordBatch) (t : ColumnType) (col : ℕ) : Option (List (Value × ℕ)) :=
  (b.columns[col]?).bind fun c =>
    if c.type = t then b.indices.bind fun is => (gather c.data is).map (·.zip is) else none

variable {b : RecordBatch}

theorem WellFormed.selected_lt (h : b.WellFormed) {c : Column} (hc : c ∈ b.columns) :
    ∀ i ∈ b.selected, i < c.size := by
  obtain ⟨P, hsize, hsel⟩ := h
  have hne : b.columns ≠ [] := List.ne_nil_of_mem hc
  rw [hsize c hc]
  unfold selected
  cases hb : b.selectionVector with
  | none =>
      rw [hb] at hsel
      simp [hsel hne]
  | some sel =>
      rw [hb] at hsel
      exact hsel.2.2 hne

theorem WellFormed.indices_eq (h : b.WellFormed) : b.indices = some b.selected := by
  obtain ⟨P, -, hsel⟩ := h
  unfold indices selected
  cases hb : b.selectionVector with
  | none => rfl
  | some sel =>
      rw [hb] at hsel
      simp [← hsel.2.1]

theorem WellFormed.length_selected (h : b.WellFormed) : b.selected.length = b.numRows := by
  obtain ⟨P, -, hsel⟩ := h
  unfold selected
  cases hb : b.selectionVector with
  | none => simp
  | some sel =>
      rw [hb] at hsel
      exact hsel.2.1

@[simp] theorem WellFormed.length_rows (h : b.WellFormed) : b.rows.length = b.numRows := by
  simp [rows, h.length_selected]

/-- The selected indices increase. -/
theorem WellFormed.selected_increasing (h : b.WellFormed) : b.selected.Pairwise (· < ·) := by
  obtain ⟨P, -, hsel⟩ := h
  unfold selected
  cases hb : b.selectionVector with
  | none => exact List.pairwise_lt_range
  | some sel =>
      rw [hb] at hsel
      exact hsel.1

/-- On a well-formed batch the loop passes every selected element of the column once, in order. -/
theorem WellFormed.iterateColumnData_eq (h : b.WellFormed) {c : Column} {t : ColumnType} {col : ℕ}
    (hc : b.columns[col]? = some c) (ht : c.type = t) :
    b.iterateColumnData t col = some (b.selected.map fun i => (c.data.getD i default, i)) := by
  have hmem : c ∈ b.columns := List.mem_of_getElem? hc
  have hlt : ∀ i ∈ b.selected, i < c.data.length := h.selected_lt hmem
  simp only [iterateColumnData, hc, Option.bind_some, ht, if_true, h.indices_eq,
    gather_eq_some hlt, Option.map_some]
  congr 1
  apply List.ext_getElem <;> simp

/-- A loop that was defined has read a column of the class it was cast to. -/
theorem getElem?_of_iterateColumnData {t : ColumnType} {col : ℕ} {es : List (Value × ℕ)}
    (h : b.iterateColumnData t col = some es) : b.types[col]? = some t := by
  obtain ⟨c, hc, h⟩ := Option.bind_eq_some_iff.mp h
  split_ifs at h with ht
  simp [types, hc, ht]

/-- What a helper with an optional selection visits on a well-formed batch. -/
theorem WellFormed.visit_eq (h : b.WellFormed) {c : Column} (hc : c ∈ b.columns) :
    c.visit b.selectionVector = some (b.selected.map fun i => c.data.getD i default) := by
  have hlt : ∀ i ∈ b.selected, i < c.data.length := h.selected_lt hc
  obtain ⟨P, hsize, hsel⟩ := h
  unfold Column.visit selected at *
  cases hb : b.selectionVector with
  | none =>
      rw [hb] at hsel
      have hrows : b.numRows = c.data.length := by
        rw [hsel (List.ne_nil_of_mem hc), ← hsize c hc]
        rfl
      simp only [hrows]
      congr 1
      apply List.ext_getElem (by simp)
      intro i hi hi'
      simp [List.getElem?_eq_getElem hi]
  | some sel =>
      rw [hb] at hlt
      exact gather_eq_some hlt

/-- Rows have one value of the right type for each column. -/
theorem WellFormed.rows_typed (h : b.WellFormed) :
    ∀ r ∈ b.rows, List.Forall₂ Value.HasType r b.types := by
  intro r hr
  obtain ⟨i, hi, rfl⟩ := List.mem_map.mp hr
  unfold rowAt types
  rw [List.forall₂_map_left_iff, List.forall₂_map_right_iff, List.forall₂_same]
  intro c hc
  have hlt : i < c.data.length := h.selected_lt hc i hi
  rw [List.getD_eq_getElem _ _ hlt]
  exact c.typed _ (List.getElem_mem hlt)

end RecordBatch

/-! ## Rows and columns -/

/-- The columns of a list of rows of width `w`. -/
def tableau (w : ℕ) (rs : List Row) : List (List Value) :=
  (List.range w).map fun j => rs.map fun r => r.getD j default

@[simp] theorem length_tableau (w : ℕ) (rs : List Row) : (tableau w rs).length = w := by
  simp [tableau]

theorem getElem_tableau {w j : ℕ} (rs : List Row) (hj : j < (tableau w rs).length) :
    (tableau w rs)[j] = rs.map fun r => r.getD j default := by
  simp [tableau]

/-- Values of rows of the given types have the type of their column. -/
theorem hasType_getD {types : List ColumnType} {r : Row} (hr : List.Forall₂ Value.HasType r types)
    {j : ℕ} (hj : j < types.length) : (r.getD j default).HasType types[j] := by
  have hlen := hr.length_eq
  rw [List.getD_eq_getElem _ _ (by omega)]
  exact hr.get (by omega) hj

end ColumnarEngine
