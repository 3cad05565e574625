import ColumnarEngine.Exec.Batch

/-!
# Filter functions

The classes of `expressions/FilterFunctions.h`. `evaluate` returns the physical indices of the rows
that pass; on a well-formed batch these are selected rows in increasing order
(`FilterFunction.evaluate_sound`).
-/

namespace ColumnarEngine

/-- `std::set_intersection` of two sorted ranges. -/
def setIntersection : List ℕ → List ℕ → List ℕ
  | a :: as, b :: bs =>
      if a < b then setIntersection as (b :: bs)
      else if b < a then setIntersection (a :: as) bs
      else a :: setIntersection as bs
  | _, _ => []
  termination_by as bs => as.length + bs.length

/-- `std::set_union` of two sorted ranges. -/
def setUnion : List ℕ → List ℕ → List ℕ
  | a :: as, b :: bs =>
      if a < b then a :: setUnion as (b :: bs)
      else if b < a then b :: setUnion (a :: as) bs
      else a :: setUnion as bs
  | [], bs => bs
  | as, [] => as
  termination_by as bs => as.length + bs.length

/-- The classes with a column and a constant, by their comparison of a value with the constant. -/
inductive Comparison
  | notEq | eq | greater | greaterEq | lessEq | like | notLike
  deriving DecidableEq, Repr

/-- The test on one value. -/
def Comparison.test (P : Platform) (t : ColumnType) (target value : Value) : Comparison → Bool
  | .notEq => !Value.equal P t value target
  | .eq => Value.equal P t value target
  | .greater => Value.less P t target value
  | .greaterEq => Value.less P t target value || Value.equal P t value target
  | .lessEq => Value.less P t value target || Value.equal P t value target
  | .like => value.contains target
  | .notLike => !value.contains target

/-- A filter function: a comparison of a column of the class of `type` with a constant, or a
conjunction or disjunction. -/
inductive FilterFunction
  | compare (cmp : Comparison) (type : ColumnType) (columnInd : ℕ) (target : Value)
  | and (left right : FilterFunction)
  | or (left right : FilterFunction)
  deriving DecidableEq, Repr

namespace FilterFunction

/-- `NotEqFilterFunction<ColumnT, ValueType>`. -/
def notEq := compare .notEq

/-- `EqFilterFunction<ColumnT, ValueType>`. -/
def eq := compare .eq

/-- `GreaterFilterFunction<ColumnT, ValueType>`. -/
def greater := compare .greater

/-- `GreaterEqFilterFunction<ColumnT, ValueType>`. -/
def greaterEq := compare .greaterEq

/-- `LessEqFilterFunction<ColumnT, ValueType>`. -/
def lessEq := compare .lessEq

/-- `LikeFilterFunction<StringColumn, std::string>`. -/
def like (columnInd : ℕ) (pattern : Bytes) := compare .like .string columnInd (.str pattern)

/-- `NotLikeFilterFunction<StringColumn, std::string>`. -/
def notLike (columnInd : ℕ) (pattern : Bytes) := compare .notLike .string columnInd (.str pattern)

variable (P : Platform)

/-- `Evaluate(batch)`: the physical indices of the rows that pass. -/
def evaluate (batch : RecordBatch) : FilterFunction → Option (List ℕ)
  | compare cmp type columnInd target =>
      (batch.iterateColumnData type columnInd).map fun elements =>
        (elements.filter fun e => cmp.test P type target e.1).map Prod.snd
  | and left right => do
      let leftRes ← left.evaluate batch
      let rightRes ← right.evaluate batch
      return setIntersection leftRes rightRes
  | or left right => do
      let leftRes ← left.evaluate batch
      let rightRes ← right.evaluate batch
      return setUnion leftRes rightRes

/-- Every comparison reads a column of its class. -/
def WellTyped (types : List ColumnType) : FilterFunction → Prop
  | compare _ type columnInd _ => types[columnInd]? = some type
  | and left right => left.WellTyped types ∧ right.WellTyped types
  | or left right => left.WellTyped types ∧ right.WellTyped types

end FilterFunction

/-! ## Sorted ranges -/

theorem mem_setUnion {a : ℕ} {as bs : List ℕ} : a ∈ setUnion as bs → a ∈ as ∨ a ∈ bs := by
  fun_induction setUnion as bs <;> simp_all <;> tauto

theorem mem_setIntersection {a : ℕ} {as bs : List ℕ} : a ∈ setIntersection as bs → a ∈ as := by
  fun_induction setIntersection as bs <;> simp_all
  tauto

/-- The intersection of increasing ranges is increasing. -/
theorem pairwise_setIntersection {as bs : List ℕ} (ha : as.Pairwise (· < ·)) :
    (setIntersection as bs).Pairwise (· < ·) := by
  fun_induction setIntersection as bs with
  | case1 a as b bs hab ih => exact ih ha.of_cons
  | case2 a as b bs _ hba ih => exact ih ha
  | case3 a as b bs _ _ ih =>
      refine List.pairwise_cons.mpr ⟨fun x hx => ?_, ih ha.of_cons⟩
      exact (List.pairwise_cons.mp ha).1 x (mem_setIntersection hx)
  | case4 => exact .nil

/-- The union of increasing ranges is increasing. -/
theorem pairwise_setUnion {as bs : List ℕ} (ha : as.Pairwise (· < ·)) (hb : bs.Pairwise (· < ·)) :
    (setUnion as bs).Pairwise (· < ·) := by
  fun_induction setUnion as bs with
  | case1 a as b bs hab ih =>
      refine List.pairwise_cons.mpr ⟨fun x hx => ?_, ih ha.of_cons hb⟩
      rcases mem_setUnion hx with hx | hx
      · exact (List.pairwise_cons.mp ha).1 x hx
      · rcases List.mem_cons.mp hx with rfl | hx
        · exact hab
        · exact hab.trans ((List.pairwise_cons.mp hb).1 x hx)
  | case2 a as b bs _ hba ih =>
      refine List.pairwise_cons.mpr ⟨fun x hx => ?_, ih ha hb.of_cons⟩
      rcases mem_setUnion hx with hx | hx
      · rcases List.mem_cons.mp hx with rfl | hx
        · exact hba
        · exact hba.trans ((List.pairwise_cons.mp ha).1 x hx)
      · exact (List.pairwise_cons.mp hb).1 x hx
  | case3 a as b bs hab hba ih =>
      obtain rfl : a = b := by omega
      refine List.pairwise_cons.mpr ⟨fun x hx => ?_, ih ha.of_cons hb.of_cons⟩
      rcases mem_setUnion hx with hx | hx
      · exact (List.pairwise_cons.mp ha).1 x hx
      · exact (List.pairwise_cons.mp hb).1 x hx
  | case4 => exact hb
  | case5 => exact ha

/-! ## Evaluation on well-formed batches -/

namespace FilterFunction

variable {P : Platform} {b : RecordBatch}

/-- A comparison returns the selected rows whose element passes the test. -/
theorem evaluate_compare (hb : b.WellFormed) (cmp : Comparison) {t : ColumnType} {col : ℕ}
    (target : Value) (ht : b.types[col]? = some t) :
    (compare cmp t col target).evaluate P b =
      some (b.selected.filter fun i => cmp.test P t target ((b.rowAt i).getD col default)) := by
  obtain ⟨hlt, htype⟩ := List.getElem?_eq_some_iff.mp ht
  have hlt' : col < b.columns.length := by simpa [RecordBatch.types] using hlt
  have hct : b.columns[col].type = t := by simpa [RecordBatch.types] using htype
  have hc := List.getElem?_eq_getElem hlt'
  have hrow : ∀ i, (b.rowAt i).getD col default = b.columns[col].data.getD i default := by
    intro i
    simp [RecordBatch.rowAt, hc]
  rw [evaluate, hb.iterateColumnData_eq hc hct, Option.map_some, List.filter_map, List.map_map]
  simp only [hrow, Function.comp_def, List.map_id']

/-- **`Evaluate`** of a well-typed filter on a well-formed batch returns selected rows, in
increasing order. -/
theorem evaluate_sound (hb : b.WellFormed) {f : FilterFunction} (hf : f.WellTyped b.types) :
    ∃ sel, f.evaluate P b = some sel ∧ sel.Pairwise (· < ·) ∧ ∀ i ∈ sel, i ∈ b.selected := by
  induction f with
  | compare cmp t col target =>
      exact ⟨_, evaluate_compare hb cmp target hf, hb.selected_increasing.filter _,
        fun i hi => (List.mem_filter.mp hi).1⟩
  | and left right ihl ihr =>
      obtain ⟨ls, hls, hlsorted, hlsel⟩ := ihl hf.1
      obtain ⟨rs, hrs, -, -⟩ := ihr hf.2
      exact ⟨_, by simp only [evaluate, hls, hrs]; rfl, pairwise_setIntersection hlsorted,
        fun i hi => hlsel i (mem_setIntersection hi)⟩
  | or left right ihl ihr =>
      obtain ⟨ls, hls, hlsorted, hlsel⟩ := ihl hf.1
      obtain ⟨rs, hrs, hrsorted, hrsel⟩ := ihr hf.2
      refine ⟨_, by simp only [evaluate, hls, hrs]; rfl, pairwise_setUnion hlsorted hrsorted, ?_⟩
      intro i hi
      exact (mem_setUnion hi).elim (hlsel i) (hrsel i)

/-- A defined `Evaluate` has read columns of the classes they were cast to. -/
theorem wellTyped_of_evaluate {f : FilterFunction} {sel : List ℕ} (h : f.evaluate P b = some sel) :
    f.WellTyped b.types := by
  induction f generalizing sel with
  | compare cmp t col target =>
      obtain ⟨elements, helems, -⟩ := Option.map_eq_some_iff.mp h
      exact RecordBatch.getElem?_of_iterateColumnData helems
  | and left right ihl ihr =>
      obtain ⟨ls, hls, h⟩ := Option.bind_eq_some_iff.mp h
      obtain ⟨rs, hrs, -⟩ := Option.bind_eq_some_iff.mp h
      exact ⟨ihl hls, ihr hrs⟩
  | or left right ihl ihr =>
      obtain ⟨ls, hls, h⟩ := Option.bind_eq_some_iff.mp h
      obtain ⟨rs, hrs, -⟩ := Option.bind_eq_some_iff.mp h
      exact ⟨ihl hls, ihr hrs⟩

end FilterFunction

end ColumnarEngine
