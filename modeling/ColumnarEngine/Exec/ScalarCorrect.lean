import ColumnarEngine.Exec.FilterCorrect

/-!
# Projections are pointwise

A scalar function denotes a value of a row (`ScalarFunction.valueAt`). On a well-formed batch with a
column, `evaluate` writes that value at every selected physical index (`evaluate_computes`): the
mapping functions scatter over the selection, and the cursor of `CASE WHEN` finds the true indices
because they increase. A projection appends one such column per function (`scalarExecute_projects`).
-/

namespace ColumnarEngine

open Found

/-! ## The value of a function -/

/-- `a + b` of two elements, before it is stored. -/
def Value.sum (P : Platform) (t : ColumnType) : Value → Value → Value
  | .int m, .int n => .int (if t.isFloating then P.floatAdd t m n else m + n)
  | a, _ => a

/-- The value of a branch for a row. -/
def ResolvedBranch.valueAt (P : Platform) (type : ColumnType) (row : Row) : ResolvedBranch → Value
  | column colInd => row.getD colInd default
  | constant source value => Value.store P source type value

namespace ScalarFunction

/-- The value of the function for a row, before it is stored in a column of the return type. -/
def valueAt (P : Platform) (row : Row) : ScalarFunction → Value
  | extractMinute colInd => .int (Timestamp.extractMinute (row.getD colInd default).toInt)
  | timeTrunc colInd part => .int (Timestamp.truncate (row.getD colInd default).toInt part)
  | length colInd => .int (row.getD colInd default).length
  | constant _ value => value
  | addConstant type colInd value => Value.sum P type (row.getD colInd default) value
  | caseWhen condFunc trueBranch falseBranch type =>
      if condFunc.passes P row then trueBranch.valueAt P type row
      else falseBranch.valueAt P type row
  | regexpReplace colInd pattern replacement =>
      (row.getD colInd default).globalReplace P pattern replacement

/-- The column has the return type and the physical length of the batch, and at every selected index
the stored value of the row; this is the value itself when it fits the type. -/
structure Computes (P : Platform) (f : ScalarFunction) (b : RecordBatch) (c : Column) : Prop where
  type : c.type = f.returnType
  size : ∀ c' ∈ b.columns, c.size = c'.size
  stored : ∀ i ∈ b.selected, c.data[i]? = some (Value.conv f.returnType (f.valueAt P (b.rowAt i)))
  value : ∀ i ∈ b.selected, (f.valueAt P (b.rowAt i)).HasType f.returnType →
    c.data[i]? = some (f.valueAt P (b.rowAt i))

/-! ## Writing at the selected indices -/

/-- Every value written at an index of its own is found there. -/
theorem getElem?_scatter {size : ℕ} {zero : Value} {writes : List (Value × ℕ)}
    (hnodup : (writes.map Prod.snd).Nodup) {data : List Value}
    (h : scatter size zero writes = some data) : ∀ w ∈ writes, data[w.2]? = some w.1 := by
  induction writes using List.reverseRecOn generalizing data with
  | nil => simp
  | append_singleton writes w ih =>
      rw [scatter, List.foldlM_append, Option.bind_eq_bind, Option.bind_eq_some_iff] at h
      obtain ⟨before, hbefore, hlast⟩ := h
      obtain ⟨hlt, rfl⟩ : w.2 < before.length ∧ before.set w.2 w.1 = data := by
        simpa using hlast
      rw [List.map_append, List.map_singleton, List.nodup_append] at hnodup
      intro u hu
      rcases List.mem_append.mp hu with hu | hu
      · have hne : w.2 ≠ u.2 := fun heq =>
          hnodup.2.2 u.2 (List.mem_map_of_mem hu) w.2 List.mem_cons_self heq.symm
        rw [List.getElem?_set_ne hne]
        exact ih hnodup.1 hbefore u hu
      · rw [List.mem_singleton.mp hu, List.getElem?_set_self hlt]

/-- An increasing cursor that has not come to the first row yet does not come to it later. -/
theorem not_mem_of_head?_ne {i : ℕ} {is trueIndices : List ℕ} (his : ∀ j ∈ is, i < j)
    (htrue : trueIndices.Pairwise (· < ·)) (hsub : ∀ j ∈ trueIndices, j ∈ i :: is)
    (hhead : trueIndices.head? ≠ some i) : i ∉ trueIndices := by
  intro hi
  cases trueIndices with
  | nil => exact absurd hi List.not_mem_nil
  | cons t rest =>
      rcases List.mem_cons.mp hi with rfl | hi
      · exact hhead rfl
      · have hti := (List.pairwise_cons.mp htrue).1 i hi
        rcases List.mem_cons.mp (hsub t List.mem_cons_self) with rfl | ht
        · exact lt_irrefl t hti
        · exact lt_asymm hti (his t ht)

/-- The cursor of `CASE WHEN` is at the next true index, so each row takes the branch of its
condition. -/
theorem getElem?_caseLoop {trueView falseView : ColumnView} {is trueIndices : List ℕ}
    (his : is.Pairwise (· < ·)) (htrue : trueIndices.Pairwise (· < ·))
    (hsub : ∀ i ∈ trueIndices, i ∈ is) {vs : List Value}
    (h : caseLoop trueView falseView is trueIndices = some vs) :
    ∀ (k i : ℕ), is[k]? = some i →
      vs[k]? = if i ∈ trueIndices then trueView.get i else falseView.get i := by
  induction is generalizing trueIndices vs with
  | nil => simp
  | cons i is ih =>
      rw [List.pairwise_cons] at his
      rw [caseLoop] at h
      split_ifs at h with hhead
      · -- The cursor is at this row and moves on.
        obtain ⟨v, hv, h⟩ := Option.bind_eq_some_iff.mp h
        obtain ⟨vs, hvs, rfl⟩ := Option.map_eq_some_iff.mp h
        obtain ⟨rest, rfl⟩ : ∃ rest, trueIndices = i :: rest := List.head?_eq_some_iff.mp hhead
        rw [List.pairwise_cons] at htrue
        have hrest : ∀ j ∈ rest, j ∈ is := by
          intro j hj
          rcases List.mem_cons.mp (hsub j (List.mem_cons_of_mem i hj)) with rfl | hmem
          · exact absurd (htrue.1 j hj) (lt_irrefl j)
          · exact hmem
        intro k j hk
        cases k with
        | zero =>
            obtain rfl : i = j := Option.some.inj hk
            rw [if_pos List.mem_cons_self, hv]
            rfl
        | succ k =>
            have hne : j ≠ i := (his.1 j (List.mem_of_getElem? hk)).ne'
            have hmem : j ∈ i :: rest ↔ j ∈ rest := by simp [hne]
            rw [if_congr hmem rfl rfl]
            exact ih his.2 htrue.2 hrest hvs k j hk
      · -- The cursor is further on, so this row is not one of the true ones.
        obtain ⟨v, hv, h⟩ := Option.bind_eq_some_iff.mp h
        obtain ⟨vs, hvs, rfl⟩ := Option.map_eq_some_iff.mp h
        have hnot := not_mem_of_head?_ne his.1 htrue hsub hhead
        have hrest : ∀ j ∈ trueIndices, j ∈ is := by
          intro j hj
          rcases List.mem_cons.mp (hsub j hj) with rfl | hmem
          · exact absurd hj hnot
          · exact hmem
        intro k j hk
        cases k with
        | zero =>
            obtain rfl : i = j := Option.some.inj hk
            rw [if_neg hnot, hv]
            rfl
        | succ k => exact ih his.2 htrue hrest hvs k j hk

/-! ## Evaluate -/

variable {P : Platform} {b : RecordBatch}

/-- The row at a physical index has the elements of the columns. -/
theorem rowAt_getD {col i : ℕ} (hcol : col < b.columns.length) :
    (b.rowAt i).getD col default = b.columns[col].data.getD i default := by
  simp [RecordBatch.rowAt, List.getElem?_eq_getElem hcol]

/-- A function that maps a column holds at every selected index what it makes of the element. -/
theorem getElem?_mapColumn (hb : b.WellFormed) {input output : ColumnType} {col n : ℕ}
    {f : Value → Value} {c : Column} (h : mapColumn b n input output col f = some c) :
    ∀ i ∈ b.selected,
      c.data[i]? = some (Value.conv output (f ((b.rowAt i).getD col default))) := by
  obtain ⟨hlt, htype⟩ := List.getElem?_eq_some_iff.mp (getElem?_of_mapColumn h)
  have hcol : col < b.columns.length := by simpa [RecordBatch.types] using hlt
  have hct : b.columns[col].type = input := by simpa [RecordBatch.types] using htype
  rw [mapColumn, hb.iterateColumnData_eq (List.getElem?_eq_getElem hcol) hct, Option.bind_some,
    List.map_map] at h
  obtain ⟨data, hdata, rfl⟩ := Option.map_eq_some_iff.mp h
  have hnodup : ((b.selected.map ((fun e : Value × ℕ => (f e.1, e.2)) ∘
      fun i => (b.columns[col].data.getD i default, i))).map Prod.snd).Nodup := by
    rw [List.map_map]
    exact (List.map_id b.selected).symm ▸ hb.selected_increasing.imp ne_of_lt
  intro i hi
  have hwritten : data[i]? = some (f (b.columns[col].data.getD i default)) :=
    getElem?_scatter hnodup hdata _ (List.mem_map_of_mem hi)
  rw [rowAt_getD hcol, Column.ofValues_data, List.getElem?_map, hwritten]
  rfl

/-- The view of a branch has the branch's value at every row. -/
theorem get_buildView {type : ColumnType} {branch : ResolvedBranch} {view : ColumnView}
    (h : buildView P b type branch = some view) {i : ℕ} (hi : ∀ c ∈ b.columns, i < c.size) :
    view.get i = some (branch.valueAt P type (b.rowAt i)) := by
  cases branch with
  | constant source value =>
      obtain rfl := Option.some.inj h
      rfl
  | column col =>
      obtain ⟨c, hc, hview⟩ := Option.bind_eq_some_iff.mp h
      split_ifs at hview
      obtain rfl := Option.some.inj hview
      obtain ⟨hcol, rfl⟩ := List.getElem?_eq_some_iff.mp hc
      have hlt : i < b.columns[col].data.length := hi _ (List.getElem_mem hcol)
      rw [ResolvedBranch.valueAt, rowAt_getD hcol, List.getD_eq_getElem _ _ hlt]
      exact List.getElem?_eq_getElem hlt

/-- Adding in the width of the column stores the sum. -/
theorem conv_plus (t : ColumnType) (a v : Value) :
    Value.conv t (Value.plus P t a v) = Value.conv t (Value.sum P t a v) := by
  cases a with
  | str s => rfl
  | int m =>
      cases v with
      | str s => rfl
      | int n =>
          rw [Value.plus, Value.sum]
          exact Value.conv_eq_self (Value.hasType_conv t _)

/-- A selected index is below the length that the functions take for the batch's. -/
theorem selected_lt_physicalSize (hb : b.WellFormed) (hne : b.columns ≠ []) :
    ∀ i ∈ b.selected, i < physicalSizeOrRows b := by
  intro i hi
  obtain ⟨c, hc⟩ := List.exists_mem_of_ne_nil _ hne
  have hlt := hb.selected_lt hc i hi
  obtain ⟨p, hp⟩ := hb
  rwa [hp.1 c hc, ← physicalSizeOrRows_eq hp hne] at hlt

/-- The stored values of an evaluated function. -/
theorem getElem?_evaluate (hb : b.WellFormed) (hne : b.columns ≠ []) {f : ScalarFunction}
    {c : Column} (h : f.evaluate P b = some c) :
    ∀ i ∈ b.selected, c.data[i]? = some (Value.conv f.returnType (f.valueAt P (b.rowAt i))) := by
  have hwell := wellTyped_of_evaluate h
  intro i hi
  cases f with
  | extractMinute col =>
      obtain ⟨n, -, h⟩ := Option.bind_eq_some_iff.mp h
      exact getElem?_mapColumn hb h i hi
  | timeTrunc col part =>
      obtain ⟨n, -, h⟩ := Option.bind_eq_some_iff.mp h
      exact getElem?_mapColumn hb h i hi
  | length col =>
      obtain ⟨n, -, h⟩ := Option.bind_eq_some_iff.mp h
      exact getElem?_mapColumn hb h i hi
  | constant type value =>
      obtain rfl := Option.some.inj h
      rw [Column.ofValues_data, List.getElem?_map,
        List.getElem?_replicate_of_lt (selected_lt_physicalSize hb hne i hi)]
      rfl
  | addConstant type col value =>
      rw [evaluate] at h
      rw [getElem?_mapColumn hb h i hi]
      exact congrArg some (conv_plus _ _ _)
  | regexpReplace col pattern replacement =>
      rw [evaluate] at h
      exact getElem?_mapColumn hb h i hi
  | caseWhen cond trueBranch falseBranch type =>
      obtain ⟨sel, hsel, h⟩ := Option.bind_eq_some_iff.mp h
      obtain ⟨tv, htv, h⟩ := Option.bind_eq_some_iff.mp h
      obtain ⟨fv, hfv, h⟩ := Option.bind_eq_some_iff.mp h
      obtain ⟨vs, hvs, h⟩ := Option.bind_eq_some_iff.mp h
      obtain rfl : Column.ofValues type vs = c := Option.some.inj h
      obtain rfl := Option.some.inj (hsel.symm.trans (FilterFunction.evaluate_eq hb hwell.1))
      have hlt := selected_lt_physicalSize hb hne i hi
      have hloop := getElem?_caseLoop List.pairwise_lt_range (hb.selected_increasing.filter _)
        (fun j hj => List.mem_range.mpr
          (selected_lt_physicalSize hb hne j (List.mem_filter.mp hj).1))
        hvs i i (List.getElem?_range hlt)
      have htrue := get_buildView htv fun c' hc' => hb.selected_lt hc' i hi
      have hfalse := get_buildView hfv fun c' hc' => hb.selected_lt hc' i hi
      have hmem : i ∈ (b.selected.filter fun i => cond.passes P (b.rowAt i)) ↔
          cond.passes P (b.rowAt i) = true := by simp [hi]
      rw [if_congr hmem rfl rfl, htrue, hfalse, ← apply_ite some] at hloop
      rw [Column.ofValues_data, List.getElem?_map, hloop]
      rfl

/-- **A function evaluates pointwise**: its column has the value of every selected row. -/
theorem evaluate_computes (hb : b.WellFormed) (hne : b.columns ≠ []) {f : ScalarFunction}
    (hf : f.WellTyped b.types) : ∃ c, f.evaluate P b = some c ∧ f.Computes P b c := by
  obtain ⟨c, hc, htype, hsize⟩ := evaluate_sound (P := P) hb hf
  have hstored := getElem?_evaluate hb hne hc
  refine ⟨c, hc, htype, ?_, hstored, ?_⟩
  · intro c' hc'
    obtain ⟨p, hp⟩ := hb
    rw [hsize, physicalSizeOrRows_eq hp hne, hp.1 c' hc']
  · intro i hi hfits
    rw [hstored i hi, Value.conv_eq_self hfits]

end ScalarFunction

/-! ## Projections -/

/-- The projection keeps the columns, the row count and the selection vector and appends one column
for each function, which computes it on the batch with the columns before. -/
def Projects (P : Platform) (fs : List ScalarFunction) (b : RecordBatch) : Prop :=
  ∃ columns, scalarExecute P fs b = some { b with columns := b.columns ++ columns } ∧
    columns.length = fs.length ∧ ∀ (k : ℕ) f c, fs[k]? = some f → columns[k]? = some c →
      f.Computes P { b with columns := b.columns ++ columns.take k } c

/-- **A projection is pointwise and touches nothing else**, on every well-formed batch with a
column. -/
theorem scalarExecute_projects (P : Platform) {fs : List ScalarFunction} {b : RecordBatch}
    (hb : b.WellFormed) (hne : b.columns ≠ []) (hfs : ScalarsWellTyped b.types fs) :
    Projects P fs b := by
  induction fs generalizing b with
  | nil => exact ⟨[], by simp [scalarExecute], rfl, by simp⟩
  | cons f fs ih =>
      obtain ⟨c, hc, hcomputes⟩ := ScalarFunction.evaluate_computes (P := P) hb hne hfs.1
      set b₁ : RecordBatch := { b with columns := b.columns ++ [c] } with hb₁
      have hsize : c.size = physicalSizeOrRows b := by
        obtain ⟨c', hc', -, hsize⟩ := ScalarFunction.evaluate_sound (P := P) hb hfs.1
        rwa [Option.some.inj (hc.symm.trans hc')]
      have hwf : b₁.WellFormed := (append_column_wellFormed_iff hb hsize).mpr (absurd · hne)
      have htypes : b₁.types = b.types ++ [f.returnType] := by
        simp [hb₁, RecordBatch.types, hcomputes.type]
      obtain ⟨columns, hrun, hlen, hall⟩ := ih hwf (by simp [hb₁]) (htypes ▸ hfs.2)
      refine ⟨c :: columns, ?_, by rw [List.length_cons, hlen, List.length_cons], ?_⟩
      · rw [hb₁] at hrun
        simpa [scalarExecute, hc] using hrun
      · intro k g d hg hd
        cases k with
        | zero =>
            obtain rfl := Option.some.inj hg
            obtain rfl := Option.some.inj hd
            simpa using hcomputes
        | succ k => simpa [hb₁] using hall k g d hg hd

/-- On a filtered batch: a constant added, the length of a string, and `CASE WHEN` on the column
appended first. -/
theorem scalarExecute_projects_filtered :
    Projects Platform.integral
      [.addConstant .int32 0 (.int 5), .length 1,
        .caseWhen (.compare .greater .int32 2 (.int 6)) (.column 0) (.constant .int32 (.int 0)) .int32]
      ⟨2, some [0, 2], [Column.ofValues .int32 [.int 1, .int 9, .int 2],
        Column.ofValues .string [.str (ascii "ab"), .str [], .str (ascii "c")]]⟩ :=
  scalarExecute_projects _ (by decide) (by simp)
    ⟨rfl, rfl, ⟨rfl, rfl, trivial⟩, trivial⟩

end ColumnarEngine
