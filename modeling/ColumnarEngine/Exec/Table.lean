import ColumnarEngine.Exec.Batch

/-!
# Builders and columns holding a list of rows

The breakers accumulate rows column by column: `content` is the type and the elements of a builder
or a column, and `tableOf types rs` the contents of the columns that hold the rows `rs`.
`copyColumns` is the loop of `CopySelection` calls that all breakers run; `copyColumns_tableOf` says
that it appends rows.
-/

namespace ColumnarEngine

/-- Type and elements of a column. -/
def Column.content (c : Column) : ColumnType × List Value := (c.type, c.data)

/-- Type and elements of a builder. -/
def ColumnBuilder.content (b : ColumnBuilder) : ColumnType × List Value := (b.type, b.data)

@[simp] theorem ColumnBuilder.content_finish (b : ColumnBuilder) : b.finish.content = b.content :=
  rfl

/-- The contents of columns of the given types that hold the rows `rs`. -/
def tableOf (types : List ColumnType) (rs : List Row) : List (ColumnType × List Value) :=
  types.zip (tableau types.length rs)

/-- The loop `for (c < n) CopySelection(*dests[c], *srcs[c], indices)`. -/
def copyColumns : ℕ → List ColumnBuilder → List Column → Option (List ℕ) →
    Option (List ColumnBuilder)
  | 0, dests, _, _ => some dests
  | n + 1, d :: dests, s :: srcs, indices =>
      (copySelection d s indices).bind fun d' =>
        (copyColumns n dests srcs indices).map fun ds' => d' :: ds'
  | _ + 1, _, _, _ => none

@[simp] theorem length_tableOf (types : List ColumnType) (rs : List Row) :
    (tableOf types rs).length = types.length := by
  simp [tableOf]

theorem getElem_tableOf {types : List ColumnType} (rs : List Row) {j : ℕ}
    (hj : j < (tableOf types rs).length) :
    (tableOf types rs)[j] =
      (types.get ⟨j, by simpa using hj⟩, rs.map fun r => r.getD j default) := by
  simp [tableOf, tableau]

/-- No row: the contents of fresh builders. -/
theorem map_content_makeColumnBuilder (types : List ColumnType) :
    (types.map makeColumnBuilder).map ColumnBuilder.content = tableOf types [] := by
  apply List.ext_getElem (by simp)
  intro j hj hj'
  rw [getElem_tableOf]
  simp [ColumnBuilder.content]

@[simp] theorem map_fst_tableOf (types : List ColumnType) (rs : List Row) :
    (tableOf types rs).map Prod.fst = types := by
  apply List.ext_getElem (by simp)
  intro j hj hj'
  rw [List.getElem_map, getElem_tableOf]
  rfl

theorem map_type_of_content {bs : List ColumnBuilder} {types : List ColumnType} {rs : List Row}
    (h : bs.map ColumnBuilder.content = tableOf types rs) :
    bs.map ColumnBuilder.type = types := by
  rw [← map_fst_tableOf types rs, ← h, List.map_map]
  rfl

theorem map_content_finish {bs : List ColumnBuilder} {types : List ColumnType} {rs : List Row}
    (h : bs.map ColumnBuilder.content = tableOf types rs) :
    (bs.map ColumnBuilder.finish).map Column.content = tableOf types rs := by
  rw [← h, List.map_map]
  rfl

/-- The loop copies what each source visits to the builder of the same index. -/
theorem copyColumns_eq_some {indices : Option (List ℕ)} :
    ∀ {dests : List ColumnBuilder} {srcs : List Column} {vss : List (List Value)},
      dests.map ColumnBuilder.type = srcs.map Column.type →
      List.Forall₂ (fun s vs => s.visit indices = some vs) srcs vss →
      ∃ ds', copyColumns dests.length dests srcs indices = some ds' ∧
        ds'.map ColumnBuilder.content =
          List.zipWith (fun d vs => (d.type, d.data ++ vs)) dests vss
  | [], _, _, _, _ => ⟨[], rfl, rfl⟩
  | d :: dests, [], _, ht, _ => by simp at ht
  | d :: dests, s :: srcs, vs :: vss, ht, .cons hs hrest => by
      simp only [List.map_cons, List.cons.injEq] at ht
      obtain ⟨d', hd', htype, hdata⟩ := copySelection_eq_some ht.1 hs
      obtain ⟨ds', hds', hcontent⟩ := copyColumns_eq_some ht.2 hrest
      refine ⟨d' :: ds', by simp [copyColumns, hd', hds'], ?_⟩
      simp [hcontent, ColumnBuilder.content, htype, hdata]

/-- Copying a source that visits the rows `rs'` to builders that hold `rs` gives builders that hold
`rs ++ rs'`. -/
theorem copyColumns_tableOf {indices : Option (List ℕ)} {dests : List ColumnBuilder}
    {srcs : List Column} {types : List ColumnType} {rs rs' : List Row}
    (hd : dests.map ColumnBuilder.content = tableOf types rs) (hs : srcs.map Column.type = types)
    (hv : ∀ j, (hj : j < srcs.length) →
      srcs[j].visit indices = some (rs'.map fun r => r.getD j default)) :
    ∃ ds', copyColumns dests.length dests srcs indices = some ds' ∧
      ds'.map ColumnBuilder.content = tableOf types (rs ++ rs') := by
  have hlen : srcs.length = types.length := by rw [← hs, List.length_map]
  have hforall : List.Forall₂ (fun s vs => s.visit indices = some vs) srcs
      (tableau srcs.length rs') := by
    rw [List.forall₂_iff_get]
    refine ⟨by simp, ?_⟩
    intro j hj hj'
    simpa [getElem_tableau] using hv j hj
  obtain ⟨ds', hds', hcontent⟩ :=
    copyColumns_eq_some (by rw [map_type_of_content hd, hs]) hforall
  refine ⟨ds', hds', ?_⟩
  rw [hcontent]
  have hdlen : dests.length = types.length := by
    simpa using congrArg List.length hd
  apply List.ext_getElem (by simp [hdlen, hlen])
  intro j hj hj'
  have hjd : j < dests.length := by simp at hj; omega
  have hjt : j < (tableOf types rs).length := by simpa [hdlen] using hjd
  have hdj : dests[j].content = (tableOf types rs)[j] := by
    simp [← hd]
  rw [getElem_tableOf] at hdj ⊢
  simp only [ColumnBuilder.content, Prod.mk.injEq] at hdj
  simp [getElem_tableau, hdj.1, hdj.2]

/-! ## Columns that hold a list of rows -/

/-- The columns hold the rows `Y`. -/
def HoldRows (types : List ColumnType) (columns : List Column) (Y : List Row) : Prop :=
  columns.map Column.content = tableOf types Y

/-- An element of a column read at a row index. -/
theorem getD_map_rows (Y : List Row) (i j : ℕ) :
    (Y.map fun r => r.getD j default).getD i default = (Y.getD i default).getD j default := by
  rw [List.getD_eq_getElem?_getD, List.getElem?_map]
  cases hi : Y[i]? with
  | none =>
      have hY : Y.getD i default = default := by simp [hi]
      rw [hY]
      simp
      rfl
  | some r => simp [hi]

namespace HoldRows

variable {types : List ColumnType} {columns : List Column} {Y : List Row}

/-- The columns a list of builders finishes to. -/
theorem of_builders {builders : List ColumnBuilder}
    (h : builders.map ColumnBuilder.content = tableOf types Y) :
    HoldRows types (builders.map ColumnBuilder.finish) Y := map_content_finish h

theorem length_eq (h : HoldRows types columns Y) : columns.length = types.length := by
  simpa using congrArg List.length h

theorem map_type (h : HoldRows types columns Y) : columns.map Column.type = types := by
  rw [← map_fst_tableOf types Y, ← h, List.map_map]
  rfl

/-- The `j`-th column has the `j`-th elements of the rows. -/
theorem data_eq (h : HoldRows types columns Y) {j : ℕ} (hj : j < columns.length) :
    columns[j].data = Y.map fun r => r.getD j default := by
  have hjt : j < (tableOf types Y).length := by simpa [← h.length_eq]
  have hcontent : columns[j].content = (tableOf types Y)[j] := by
    unfold HoldRows at h
    simp [← h]
  rw [getElem_tableOf] at hcontent
  exact congrArg Prod.snd hcontent

theorem getElem (h : HoldRows types columns Y) {j : ℕ} {t : ColumnType} (ht : types[j]? = some t) :
    ∃ c, columns[j]? = some c ∧ c.type = t ∧ c.data = Y.map fun r => r.getD j default := by
  obtain ⟨hj, rfl⟩ := List.getElem?_eq_some_iff.mp ht
  have hjc : j < columns.length := h.length_eq ▸ hj
  refine ⟨columns[j], List.getElem?_eq_getElem hjc, ?_, h.data_eq hjc⟩
  have := h.map_type
  simp [← this]

/-- What a copy of all rows visits. -/
theorem visit_none (h : HoldRows types columns Y) (j : ℕ) (hj : j < columns.length) :
    columns[j].visit none = some (Y.map fun r => r.getD j default) :=
  congrArg some (h.data_eq hj)

/-- What a copy of the rows at some indices visits. -/
theorem visit_some (h : HoldRows types columns Y) {is : List ℕ} (his : ∀ i ∈ is, i < Y.length)
    (j : ℕ) (hj : j < columns.length) : columns[j].visit (some is) =
      some ((is.map fun i => Y.getD i default).map fun r => r.getD j default) := by
  have hrange : ∀ i ∈ is, i < columns[j].data.length := by simpa [h.data_eq hj] using his
  rw [Column.visit, gather_eq_some hrange, h.data_eq hj, List.map_map]
  simp only [getD_map_rows, Function.comp_def]

/-- The columns read at one row. -/
theorem row_eq (h : HoldRows types columns Y) {i : ℕ} (hi : i < Y.length)
    (hlen : Y[i].length = types.length) :
    columns.map (fun c => c.data.getD i default) = Y[i] := by
  apply List.ext_getElem (by simp [h.length_eq, hlen])
  intro j hj hj'
  have hjc : j < columns.length := by simpa using hj
  simp [h.data_eq hjc, List.getElem?_eq_getElem hi, List.getElem?_eq_getElem hj']

end HoldRows

/-! ## Batches that hold a list of rows -/

/-- A batch without a selection vector whose columns hold the rows `rs`. -/
def RecordBatch.Holds (b : RecordBatch) (types : List ColumnType) (rs : List Row) : Prop :=
  b.selectionVector = none ∧ b.numRows = rs.length ∧ HoldRows types b.columns rs

namespace RecordBatch.Holds

variable {b : RecordBatch} {types : List ColumnType} {rs : List Row}

theorem types_eq (h : b.Holds types rs) : b.types = types := h.2.2.map_type

/-- Every column has one entry for each row. -/
theorem size_eq (h : b.Holds types rs) : ∀ c ∈ b.columns, c.size = rs.length := by
  intro c hc
  obtain ⟨j, hj, rfl⟩ := List.getElem_of_mem hc
  simp [Column.size, h.2.2.data_eq hj]

/-- The rows of the batch are the rows it holds. -/
theorem rows_eq (h : b.Holds types rs) (hrs : ∀ r ∈ rs, r.length = types.length) :
    b.rows = rs := by
  obtain ⟨hsel, hnum, hcols⟩ := h
  unfold rows selected
  rw [hsel]
  simp only [hnum]
  apply List.ext_getElem (by simp)
  intro i hi hi'
  rw [List.getElem_map, List.getElem_range, rowAt]
  exact hcols.row_eq hi' (hrs _ (List.getElem_mem hi'))

end RecordBatch.Holds

/-- What copying a whole well-formed batch visits: the rows of the batch, column by column. -/
theorem RecordBatch.WellFormed.visit_rows {b : RecordBatch} (h : b.WellFormed) {j : ℕ}
    (hj : j < b.columns.length) :
    b.columns[j].visit b.selectionVector = some (b.rows.map fun r => r.getD j default) := by
  rw [h.visit_eq (List.getElem_mem hj)]
  simp [rows, rowAt, List.getElem?_eq_getElem hj, Function.comp_def]

/-! ## Row indices -/

/-- `static_cast<uint32_t>`. -/
def toUInt32 (n : ℕ) : ℕ := n % 2 ^ 32

theorem toUInt32_of_lt {n : ℕ} (h : n < 2 ^ 32) : toUInt32 n = n := Nat.mod_eq_of_lt h

theorem toUInt32_le (n : ℕ) : toUInt32 n ≤ n := Nat.mod_le _ _

end ColumnarEngine
