import ColumnarEngine.Exec.PipelineLimit
import ColumnarEngine.Exec.RowMeaning
import ColumnarEngine.Plan.WellFormed

/-!
# What a chain of transforms does to the rows

A batch that a chain without `Limit` keeps well formed goes through it row by row
(`rowList_chainResult`), and so do the batches of a source. `Placed` is a condition on the columns
of a source under which its batches stay well formed: every transform is well typed, and a scalar
function gets a column unless nothing has been selected before it.
-/

namespace ColumnarEngine

/-- What becomes of a row in a sequence of transforms. -/
def onRows (P : Platform) (ts : List TransformOperator) (row : Row) : Option Row :=
  ts.foldlM (fun row t => t.onRow P row) row

/-- The types of the columns behind a sequence of transforms. -/
def typesAfter (types : List ColumnType) (ts : List TransformOperator) : List ColumnType :=
  ts.foldl (fun types t => t.outputTypes types) types

namespace TransformOperator

/-- The transform may leave a selection vector. -/
def selects : TransformOperator → Bool
  | filter _ | limit _ => true
  | scalar _ | drop _ | reorder _ => false

/-- A scalar function gets a column, or a batch without selection vector. -/
def LiteralsFit (types : List ColumnType) (selected : Bool) : TransformOperator → Prop
  | scalar (_ :: _) => types = [] → selected = false
  | _ => True

end TransformOperator

/-- The transforms are made for columns of the types; `selected` says whether the batches may have a
selection vector. -/
def Placed : List ColumnType → Bool → List TransformOperator → Prop
  | _, _, [] => True
  | types, selected, t :: ts => t.WellTyped types ∧ t.LiteralsFit types selected ∧
      Placed (t.outputTypes types) (selected || t.selects) ts

variable {P : Platform} {t : TransformOperator} {ts : List TransformOperator} {b b' : RecordBatch}

/-! ## One batch -/

/-- A row goes through the first transform, then through the others. -/
theorem filterMap_onRows_cons (rows : List Row) :
    rows.filterMap (onRows P (t :: ts)) =
      (rows.filterMap (t.onRow P)).filterMap (onRows P ts) := by
  rw [List.filterMap_filterMap]
  rfl

/-- The first transform is well typed and its rows fit. -/
theorem KeepsWellFormed.head (h : KeepsWellFormed P (t :: ts) b) :
    t.WellTyped b.types ∧ t.FitsRows b :=
  (TransformOperator.returns_iff h.1 t).mp ⟨h.2.1, h.2.2.1⟩

theorem KeepsWellFormed.wellFormed (h : KeepsWellFormed P ts b) : b.WellFormed := by
  cases ts with
  | nil => exact h
  | cons t ts => exact h.1

/-- Where nothing is selected, no transform selects anything. -/
theorem TransformOperator.selected_of_empty (hb : b.numRows = 0) (hsel : b.selected = [])
    (h : t.execute P b = some (some b')) : b'.selected = [] := by
  cases t with
  | filter f =>
      obtain ⟨sel, hevaluate, h⟩ := Option.map_eq_some_iff.mp h
      obtain rfl := FilterFunction.evaluate_empty hb hevaluate
      simp at h
  | scalar fs =>
      obtain ⟨b₁, hb₁, h⟩ := Option.map_eq_some_iff.mp h
      obtain rfl := Option.some.inj h
      obtain ⟨-, columns, rfl⟩ := scalarExecute_eq_some hb₁
      exact hsel
  | drop idxs =>
      obtain ⟨b₁, hb₁, h⟩ := Option.map_eq_some_iff.mp h
      obtain rfl := Option.some.inj h
      unfold dropExecute at hb₁
      split_ifs at hb₁
      obtain ⟨columns, -, rfl⟩ := Option.map_eq_some_iff.mp hb₁
      exact hsel
  | reorder idxs =>
      obtain ⟨b₁, hb₁, h⟩ := Option.map_eq_some_iff.mp h
      obtain rfl := Option.some.inj h
      obtain ⟨columns, -, rfl⟩ := Option.map_eq_some_iff.mp hb₁
      exact hsel
  | limit n => simp [execute] at h

/-- No rows come of a batch that selects none. -/
theorem rowList_chainResult_of_empty (hb : b.numRows = 0) (hsel : b.selected = []) :
    rowList (chainResult P ts b) = [] := by
  induction ts generalizing b with
  | nil => simp [chainResult, rowList, RecordBatch.rows, hsel]
  | cons t ts ih =>
      rw [chainResult]
      cases hexec : (t.execute P b).join with
      | none => rfl
      | some b₁ =>
          have hsome := Option.join_eq_some_iff.mp hexec
          rw [Option.bind_some]
          exact ih (TransformOperator.numRows_of_empty hb hsome)
            (TransformOperator.selected_of_empty hb hsel hsome)

theorem RecordBatch.WellFormed.selected_of_empty (hb : b.WellFormed) (h : b.numRows = 0) :
    b.selected = [] := by
  rw [← List.length_eq_zero_iff, hb.length_selected, h]

/-- **A chain treats the rows one by one**, as long as it keeps the batch well formed, and
`num_rows` counts those that are left. -/
theorem rowList_chainResult (hts : ∀ t ∈ ts, t.isLimit = false) (h : KeepsWellFormed P ts b) :
    rowList (chainResult P ts b) = b.rows.filterMap (onRows P ts) ∧
      Pipeline.rowsBehind P ts b = (b.rows.filterMap (onRows P ts)).length := by
  induction ts generalizing b with
  | nil =>
      have hrows : b.rows.filterMap (onRows P []) = b.rows := List.filterMap_some
      rw [hrows]
      exact ⟨rfl, h.length_rows.symm⟩
  | cons t ts ih =>
      have hlimit := hts t List.mem_cons_self
      obtain ⟨htyped, hfits⟩ := h.head
      obtain ⟨r, hr, hrows⟩ := TransformOperator.rows_execute (P := P) h.1 hlimit htyped hfits
      rw [filterMap_onRows_cons, ← hrows, Pipeline.rowsBehind, chainResult, hr, Option.join_some]
      cases r with
      | none => exact ⟨rfl, rfl⟩
      | some b₁ =>
          rw [Option.bind_some]
          by_cases hpos : 0 < b₁.numRows
          · refine ih (fun t' ht' => hts t' (.tail t ht')) (h.2.2.2 b₁ ⟨hpos, ?_⟩)
            cases t with
            | limit n => simp [TransformOperator.isLimit] at hlimit
            | filter _ | scalar _ | drop _ | reorder _ => exact hr
          · have hzero : b₁.numRows = 0 := Nat.eq_zero_of_not_pos hpos
            have hreturns := (TransformOperator.returns_iff_execute (P := P) hlimit).mpr hr
            have hsel := (h.2.2.1 _ hreturns b₁ rfl).selected_of_empty hzero
            have hnone : rowList (some b₁) = [] := by
              rw [rowList, Option.elim_some, RecordBatch.rows, hsel, List.map_nil]
            rw [hnone, List.filterMap_nil, List.length_nil]
            exact ⟨rowList_chainResult_of_empty hzero hsel, Pipeline.rowsBehind_empty hzero⟩

/-! ## The batches of a source -/

section batches

variable {batches : List RecordBatch}

/-- The batches of a source behind the chain. -/
theorem flatMap_rowList_chainResult (hts : ∀ t ∈ ts, t.isLimit = false)
    (h : ∀ b ∈ batches, KeepsWellFormed P ts b) :
    batches.flatMap (fun b => rowList (chainResult P ts b)) =
      (batches.flatMap RecordBatch.rows).filterMap (onRows P ts) := by
  induction batches with
  | nil => rfl
  | cons b batches ih =>
      rw [List.flatMap_cons, List.flatMap_cons, List.filterMap_append,
        (rowList_chainResult hts (h b List.mem_cons_self)).1,
        ih fun b' hb' => h b' (List.mem_cons_of_mem b hb')]

/-- The rows of a result that may be null, as a multiset. -/
theorem rowsOf_eq (r : Option RecordBatch) : rowsOf r = (rowList r : Multiset Row) := by
  cases r <;> rfl

/-- Their rows, as a pipeline that ends with a `Limit` counts them. -/
theorem rowsAfter_eq (hts : ∀ t ∈ ts, t.isLimit = false)
    (h : ∀ b ∈ batches, KeepsWellFormed P ts b) :
    Pipeline.rowsAfter P ts batches =
      ((batches.flatMap RecordBatch.rows).filterMap (onRows P ts) : List Row) := by
  rw [← flatMap_rowList_chainResult hts h, Pipeline.rowsAfter]
  clear h
  induction batches with
  | nil => rfl
  | cons b batches ih =>
      rw [List.map_cons, List.sum_cons, ih, rowsOf_eq, List.flatMap_cons, ← Multiset.coe_add]

theorem totalBehind_eq (hts : ∀ t ∈ ts, t.isLimit = false)
    (h : ∀ b ∈ batches, KeepsWellFormed P ts b) :
    Pipeline.totalBehind P ts batches =
      ((batches.flatMap RecordBatch.rows).filterMap (onRows P ts)).length := by
  induction batches with
  | nil => rfl
  | cons b batches ih =>
      have htail := ih fun b' hb' => h b' (List.mem_cons_of_mem b hb')
      rw [Pipeline.totalBehind] at htail ⊢
      rw [List.map_cons, List.sum_cons, htail, (rowList_chainResult hts (h b List.mem_cons_self)).2,
        List.flatMap_cons, List.filterMap_append, List.length_append]

end batches

/-! ## The condition on the types -/

/-- A transform leaves a selection vector only if it selects or finds one. -/
theorem TransformOperator.Passes.selectionVector {selected : Bool} (h : t.Passes P b b')
    (hsel : selected = false → b.selectionVector = none)
    (hnone : (selected || t.selects) = false) : b'.selectionVector = none := by
  rw [Bool.or_eq_false_iff] at hnone
  have hb := hsel hnone.1
  cases t with
  | filter _ | limit _ => simp [selects] at hnone
  | scalar fs =>
      obtain ⟨b₁, hb₁, heq⟩ := Option.map_eq_some_iff.mp h.2
      obtain rfl := Option.some.inj heq
      obtain ⟨-, columns, rfl⟩ := scalarExecute_eq_some hb₁
      exact hb
  | drop idxs =>
      obtain ⟨b₁, hb₁, heq⟩ := Option.map_eq_some_iff.mp h.2
      obtain rfl := Option.some.inj heq
      unfold dropExecute at hb₁
      split_ifs at hb₁
      obtain ⟨columns, -, rfl⟩ := Option.map_eq_some_iff.mp hb₁
      exact hb
  | reorder idxs =>
      obtain ⟨b₁, hb₁, heq⟩ := Option.map_eq_some_iff.mp h.2
      obtain rfl := Option.some.inj heq
      obtain ⟨columns, -, rfl⟩ := Option.map_eq_some_iff.mp hb₁
      exact hb

/-- The rows of a batch without selection vector fit. -/
theorem TransformOperator.LiteralsFit.fitsRows {selected : Bool}
    (h : t.LiteralsFit b.types selected) (hsel : selected = false → b.selectionVector = none) :
    t.FitsRows b := by
  cases t with
  | filter _ | drop _ | reorder _ | limit _ => trivial
  | scalar fs =>
      cases fs with
      | nil => trivial
      | cons f fs =>
          intro hnil i hi
          have hnone := hsel (h (by rw [RecordBatch.types, hnil, List.map_nil]))
          rw [RecordBatch.selected, hnone] at hi
          exact List.mem_range.mp hi

/-- **Batches stay well formed** along transforms that are placed over their columns. -/
theorem Placed.keepsWellFormed {selected : Bool} (hb : b.WellFormed)
    (hsel : selected = false → b.selectionVector = none) (h : Placed b.types selected ts) :
    KeepsWellFormed P ts b := by
  induction ts generalizing b selected with
  | nil => exact hb
  | cons t ts ih =>
      obtain ⟨htyped, hliterals, hrest⟩ := h
      have hfits := hliterals.fitsRows hsel
      obtain ⟨hex, hgood⟩ := TransformOperator.returns_wellFormed (P := P) hb htyped hfits
      refine ⟨hb, hex, fun r hr b' hb' => (hgood r hr b' hb').1, ?_⟩
      intro b' hpasses
      obtain ⟨hwf, htypes⟩ := hgood _ hpasses.returns b' rfl
      exact ih hwf (hpasses.selectionVector hsel) (htypes ▸ hrest)

end ColumnarEngine
