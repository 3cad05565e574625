import ColumnarEngine.Exec.FilterFunctions
import ColumnarEngine.Found.Partial
import ColumnarEngine.Types.Timestamp

/-!
# Scalar functions

The classes of `expressions/ScalarFunctions.h`. `evaluate` builds one column of the physical length
of the batch, which it takes from the first column, or from `num_rows` if there is none
(`physicalSizeOrRows`). That guess is wrong for a batch that has lost all its columns but not its
selection vector; elsewhere the new column fits the batch (`ScalarFunction.evaluate_sound`).
-/

namespace ColumnarEngine

open Found

/-- `batch.columns.empty() ? batch.num_rows : batch.columns[0]->Size()`. -/
def physicalSizeOrRows (batch : RecordBatch) : ℕ :=
  match batch.columns with
  | [] => batch.numRows
  | c :: _ => c.size

/-- `std::vector<T> result_data(physical_size)`, written at the given indices. -/
def scatter (size : ℕ) (zero : Value) (writes : List (Value × ℕ)) : Option (List Value) :=
  writes.foldlM (fun data w => if w.2 < data.length then some (data.set w.2 w.1) else none)
    (List.replicate size zero)

/-- A branch of `CASE WHEN`: the index of a column or a constant of a C++ type. -/
inductive ResolvedBranch
  | column (colInd : ℕ)
  | constant (type : ColumnType) (value : Value)
  deriving DecidableEq, Repr

/-- The scalar functions. `type` is the type of the column class the template is instantiated
with. -/
inductive ScalarFunction
  | extractMinute (colInd : ℕ)
  | timeTrunc (colInd : ℕ) (part : TimeUnitType)
  | length (colInd : ℕ)
  | constant (type : ColumnType) (constant : Value)
  | addConstant (type : ColumnType) (colInd : ℕ) (constant : Value)
  | caseWhen (condFunc : FilterFunction) (trueBranch falseBranch : ResolvedBranch)
      (type : ColumnType)
  | regexpReplace (colInd : ℕ) (pattern replacement : Bytes)
  deriving DecidableEq, Repr

namespace ScalarFunction

variable (P : Platform)

/-- The loop of the functions that map a column of type `input` to one of type `output`: the
results are written at the physical indices of the rows. -/
def mapColumn (batch : RecordBatch) (physicalSize : ℕ) (input output : ColumnType) (colInd : ℕ)
    (f : Value → Value) : Option Column :=
  (batch.iterateColumnData input colInd).bind fun elements =>
    (scatter physicalSize (Value.zero output) (elements.map fun e => (f e.1, e.2))).map
      (Column.ofValues output)

/-- `batch.columns[0]->Size()`. -/
def firstSize (batch : RecordBatch) : Option ℕ := batch.columns.head?.map Column.size

/-- `ViewVariant`: a view of a container or of one value. -/
inductive ColumnView
  | flat (container : List Value)
  | const (value : Value)

/-- `operator[]` of a view. -/
def ColumnView.get : ColumnView → ℕ → Option Value
  | flat container, i => container[i]?
  | const value, _ => some value

/-- `build_view`: a column is cast to the class of `type`, a constant converted to its element
type. -/
def buildView (batch : RecordBatch) (type : ColumnType) : ResolvedBranch → Option ColumnView
  | .column colInd =>
      (batch.columns[colInd]?).bind fun c => if c.type = type then some (.flat c.data) else none
  | .constant source value => some (.const (Value.store P source type value))

/-- The loop of `CASE WHEN` over the physical indices `is`: `trueIndices` is what is left from
`cur_ind` on. -/
def caseLoop (trueView falseView : ColumnView) : List ℕ → List ℕ → Option (List Value)
  | [], _ => some []
  | i :: is, trueIndices =>
      if trueIndices.head? = some i then
        (trueView.get i).bind fun v =>
          (caseLoop trueView falseView is trueIndices.tail).map (v :: ·)
      else
        (falseView.get i).bind fun v => (caseLoop trueView falseView is trueIndices).map (v :: ·)

/-- `Evaluate(batch)`. -/
def evaluate (batch : RecordBatch) : ScalarFunction → Option Column
  | extractMinute colInd =>
      (firstSize batch).bind fun n => mapColumn batch n .timestamp .int32 colInd fun v =>
        .int (Timestamp.extractMinute v.toInt)
  | timeTrunc colInd part =>
      (firstSize batch).bind fun n => mapColumn batch n .timestamp .timestamp colInd fun v =>
        .int (Timestamp.truncate v.toInt part)
  | length colInd =>
      (firstSize batch).bind fun n => mapColumn batch n .string .int64 colInd fun v =>
        .int v.length
  | constant type value =>
      some (Column.ofValues type (List.replicate (physicalSizeOrRows batch) value))
  | addConstant type colInd value =>
      mapColumn batch (physicalSizeOrRows batch) type type colInd fun v => Value.plus P type v value
  | caseWhen condFunc trueBranch falseBranch type => do
      let trueIndices ← condFunc.evaluate P batch
      let trueView ← buildView P batch type trueBranch
      let falseView ← buildView P batch type falseBranch
      let values ← caseLoop trueView falseView (List.range (physicalSizeOrRows batch)) trueIndices
      return Column.ofValues type values
  | regexpReplace colInd pattern replacement =>
      mapColumn batch (physicalSizeOrRows batch) .string .string colInd fun v =>
        v.globalReplace P pattern replacement

/-- The type of the column the class returns. -/
def returnType : ScalarFunction → ColumnType
  | extractMinute _ => .int32
  | timeTrunc _ _ => .timestamp
  | length _ => .int64
  | constant type _ => type
  | addConstant type _ _ => type
  | caseWhen _ _ _ type => type
  | regexpReplace _ _ _ => .string

/-- A branch reads a column of its class. -/
def branchWellTyped (types : List ColumnType) (type : ColumnType) : ResolvedBranch → Prop
  | .column colInd => types[colInd]? = some type
  | .constant _ _ => True

/-- Every column read has the class it is cast to. -/
def WellTyped (types : List ColumnType) : ScalarFunction → Prop
  | extractMinute colInd => types[colInd]? = some .timestamp
  | timeTrunc colInd _ => types[colInd]? = some .timestamp
  | length colInd => types[colInd]? = some .string
  | constant _ _ => True
  | addConstant type colInd _ => types[colInd]? = some type
  | caseWhen condFunc trueBranch falseBranch type =>
      condFunc.WellTyped types ∧ branchWellTyped types type trueBranch ∧
        branchWellTyped types type falseBranch
  | regexpReplace colInd _ _ => types[colInd]? = some .string

end ScalarFunction

/-! ## Writing at indices in range -/

/-- Writes in range are defined and keep the length. -/
theorem length_scatter {size : ℕ} {zero : Value} {writes : List (Value × ℕ)}
    (h : ∀ w ∈ writes, w.2 < size) :
    ∃ data, scatter size zero writes = some data ∧ data.length = size := by
  apply exists_foldlM (I := fun _ (data : List Value) => data.length = size) (by simp)
  intro done w rest hl data hlen
  have hlt : w.2 < data.length := hlen ▸ h w (by simp [hl])
  exact ⟨_, if_pos hlt, by simpa using hlen⟩

namespace ScalarFunction

variable {P : Platform} {b : RecordBatch}

/-- The length a function guesses is that of every column. -/
theorem physicalSizeOrRows_eq {p : ℕ} (hb : b.WellFormedAt p) (hne : b.columns ≠ []) :
    physicalSizeOrRows b = p := by
  unfold physicalSizeOrRows
  cases hcols : b.columns with
  | nil => exact absurd hcols hne
  | cons c cs => exact hb.1 c (by simp [hcols])

/-- A function that maps a column returns a column of the given length. -/
theorem mapColumn_sound (hb : b.WellFormed) {input output : ColumnType} {col : ℕ}
    (ht : b.types[col]? = some input) (f : Value → Value) :
    ∃ c, mapColumn b (physicalSizeOrRows b) input output col f = some c ∧ c.type = output ∧
      c.size = physicalSizeOrRows b := by
  obtain ⟨hlt, rfl⟩ := List.getElem?_eq_some_iff.mp ht
  have hlt' : col < b.columns.length := by simpa [RecordBatch.types] using hlt
  have hsel : ∀ i ∈ b.selected, i < physicalSizeOrRows b := by
    intro i hi
    obtain ⟨p, hp⟩ := hb
    rw [physicalSizeOrRows_eq hp (List.ne_nil_of_length_pos (by omega)),
      ← hp.1 _ (List.getElem_mem hlt')]
    exact RecordBatch.WellFormed.selected_lt ⟨p, hp⟩ (List.getElem_mem hlt') i hi
  obtain ⟨data, hdata, hlen⟩ := @length_scatter _ (Value.zero output)
    ((b.selected.map fun i => (b.columns[col].data.getD i default, i)).map
      fun e => (f e.1, e.2)) (by simpa using hsel)
  have hct : b.types[col] = b.columns[col].type := by simp [RecordBatch.types]
  refine ⟨Column.ofValues output data, ?_, rfl, by simp [Column.size, hlen]⟩
  rw [mapColumn, hct, hb.iterateColumnData_eq (List.getElem?_eq_getElem hlt') rfl,
    Option.bind_some, hdata, Option.map_some]

/-- The loop of `CASE WHEN` over views that are defined at the indices. -/
theorem length_caseLoop {trueView falseView : ColumnView} {is : List ℕ}
    (h : ∀ i ∈ is, (∃ v, trueView.get i = some v) ∧ ∃ v, falseView.get i = some v)
    (trueIndices : List ℕ) :
    ∃ vs, caseLoop trueView falseView is trueIndices = some vs ∧ vs.length = is.length := by
  induction is generalizing trueIndices with
  | nil => exact ⟨[], rfl, rfl⟩
  | cons i is ih =>
      obtain ⟨⟨v, hv⟩, w, hw⟩ := h i List.mem_cons_self
      have hrest := ih fun j hj => h j (List.mem_cons_of_mem i hj)
      unfold caseLoop
      split_ifs
      · obtain ⟨vs, hvs, hlen⟩ := hrest trueIndices.tail
        exact ⟨v :: vs, by simp [hv, hvs], by simp [hlen]⟩
      · obtain ⟨vs, hvs, hlen⟩ := hrest trueIndices
        exact ⟨w :: vs, by simp [hw, hvs], by simp [hlen]⟩

/-- A well-typed branch has a view that is defined at every index of the batch. -/
theorem buildView_sound {p : ℕ} (hb : b.WellFormedAt p) {type : ColumnType}
    {branch : ResolvedBranch} (ht : branchWellTyped b.types type branch) :
    ∃ view, buildView P b type branch = some view ∧ ∀ i < p, ∃ v, view.get i = some v := by
  cases branch with
  | constant source value => exact ⟨_, rfl, fun i _ => ⟨_, rfl⟩⟩
  | column col =>
      obtain ⟨hlt, htype⟩ := List.getElem?_eq_some_iff.mp ht
      have hlt' : col < b.columns.length := by simpa [RecordBatch.types] using hlt
      have hct : b.columns[col].type = type := by simpa [RecordBatch.types] using htype
      refine ⟨.flat b.columns[col].data, by simp [buildView, List.getElem?_eq_getElem hlt', hct],
        fun i hi => ?_⟩
      have hsize : b.columns[col].data.length = p := hb.1 _ (List.getElem_mem hlt')
      exact ⟨_, List.getElem?_eq_getElem (hsize ▸ hi)⟩

/-- A filter reads some column. -/
theorem columns_ne_nil_of_wellTyped {f : FilterFunction} (h : f.WellTyped b.types) :
    b.columns ≠ [] := by
  induction f with
  | compare cmp t col target =>
      rintro hcols
      simp [FilterFunction.WellTyped, RecordBatch.types, hcols] at h
  | and left right ihl _ => exact ihl h.1
  | or left right ihl _ => exact ihl h.1

/-- **`Evaluate`** of a well-typed function on a well-formed batch returns a column of the declared
class and of the guessed length. -/
theorem evaluate_sound (hb : b.WellFormed) {f : ScalarFunction} (hf : f.WellTyped b.types) :
    ∃ c, f.evaluate P b = some c ∧ c.type = f.returnType ∧ c.size = physicalSizeOrRows b := by
  have hfirst : ∀ {col : ℕ} {t : ColumnType}, b.types[col]? = some t →
      firstSize b = some (physicalSizeOrRows b) := by
    intro col t ht
    unfold firstSize physicalSizeOrRows
    cases hcols : b.columns with
    | nil => simp [RecordBatch.types, hcols] at ht
    | cons c cs => rfl
  cases f with
  | extractMinute col =>
      obtain ⟨c, hc, hrest⟩ := mapColumn_sound hb hf fun v => .int (Timestamp.extractMinute v.toInt)
      exact ⟨c, by rw [evaluate, hfirst hf, Option.bind_some]; exact hc, hrest⟩
  | timeTrunc col part =>
      obtain ⟨c, hc, hrest⟩ := mapColumn_sound hb hf fun v => .int (Timestamp.truncate v.toInt part)
      exact ⟨c, by rw [evaluate, hfirst hf, Option.bind_some]; exact hc, hrest⟩
  | length col =>
      obtain ⟨c, hc, hrest⟩ := mapColumn_sound hb hf fun v => .int v.length
      exact ⟨c, by rw [evaluate, hfirst hf, Option.bind_some]; exact hc, hrest⟩
  | constant type value => exact ⟨_, rfl, rfl, by simp [Column.size]⟩
  | addConstant type col value =>
      obtain ⟨c, hc, hrest⟩ := mapColumn_sound hb hf fun v => Value.plus P type v value
      exact ⟨c, by rw [evaluate]; exact hc, hrest⟩
  | regexpReplace col pattern replacement =>
      obtain ⟨c, hc, hrest⟩ := mapColumn_sound hb hf fun v => v.globalReplace P pattern replacement
      exact ⟨c, by rw [evaluate]; exact hc, hrest⟩
  | caseWhen cond trueBranch falseBranch type =>
      obtain ⟨hcond, htrue, hfalse⟩ := hf
      obtain ⟨sel, hsel, -⟩ := cond.evaluate_sound (P := P) hb hcond
      obtain ⟨p, hp⟩ := hb
      obtain ⟨tv, htv, htget⟩ := buildView_sound (P := P) hp htrue
      obtain ⟨fv, hfv, hfget⟩ := buildView_sound (P := P) hp hfalse
      have hsize := physicalSizeOrRows_eq hp (columns_ne_nil_of_wellTyped hcond)
      obtain ⟨vs, hvs, hlen⟩ := @length_caseLoop tv fv
        (List.range (physicalSizeOrRows b))
        (fun i hi => by
          have hlt : i < p := hsize ▸ List.mem_range.mp hi
          exact ⟨htget i hlt, hfget i hlt⟩) sel
      refine ⟨Column.ofValues type vs, ?_, rfl, by simpa [Column.size] using hlen⟩
      simp [evaluate, hsel, htv, hfv, hvs]

/-- A mapped column was of the class it was cast to. -/
theorem getElem?_of_mapColumn {n : ℕ} {input output : ColumnType} {col : ℕ} {f : Value → Value}
    {c : Column} (h : mapColumn b n input output col f = some c) : b.types[col]? = some input := by
  obtain ⟨elements, helems, -⟩ := Option.bind_eq_some_iff.mp h
  exact RecordBatch.getElem?_of_iterateColumnData helems

theorem type_of_mapColumn {n : ℕ} {input output : ColumnType} {col : ℕ} {f : Value → Value}
    {c : Column} (h : mapColumn b n input output col f = some c) : c.type = output := by
  obtain ⟨elements, -, h⟩ := Option.bind_eq_some_iff.mp h
  obtain ⟨data, -, rfl⟩ := Option.map_eq_some_iff.mp h
  rfl

theorem branchWellTyped_of_buildView {type : ColumnType} {branch : ResolvedBranch}
    {view : ColumnView} (h : buildView P b type branch = some view) :
    branchWellTyped b.types type branch := by
  cases branch with
  | constant source value => trivial
  | column col =>
      obtain ⟨c, hc, hview⟩ := Option.bind_eq_some_iff.mp h
      split_ifs at hview with ht
      simp [branchWellTyped, RecordBatch.types, hc, ht]

/-- A defined `Evaluate` has read columns of the classes they were cast to. -/
theorem wellTyped_of_evaluate {f : ScalarFunction} {c : Column} (h : f.evaluate P b = some c) :
    f.WellTyped b.types := by
  cases f with
  | extractMinute col =>
      obtain ⟨n, -, h⟩ := Option.bind_eq_some_iff.mp h
      exact getElem?_of_mapColumn h
  | timeTrunc col part =>
      obtain ⟨n, -, h⟩ := Option.bind_eq_some_iff.mp h
      exact getElem?_of_mapColumn h
  | length col =>
      obtain ⟨n, -, h⟩ := Option.bind_eq_some_iff.mp h
      exact getElem?_of_mapColumn h
  | constant type value => trivial
  | addConstant type col value =>
      rw [evaluate] at h
      exact getElem?_of_mapColumn h
  | regexpReplace col pattern replacement =>
      rw [evaluate] at h
      exact getElem?_of_mapColumn h
  | caseWhen cond trueBranch falseBranch type =>
      obtain ⟨sel, hsel, h⟩ := Option.bind_eq_some_iff.mp h
      obtain ⟨tv, htv, h⟩ := Option.bind_eq_some_iff.mp h
      obtain ⟨fv, hfv, -⟩ := Option.bind_eq_some_iff.mp h
      exact ⟨FilterFunction.wellTyped_of_evaluate hsel, branchWellTyped_of_buildView htv,
        branchWellTyped_of_buildView hfv⟩

/-- A defined `Evaluate` returns a column of the class's type. -/
theorem type_of_evaluate {f : ScalarFunction} {c : Column} (h : f.evaluate P b = some c) :
    c.type = f.returnType := by
  cases f with
  | extractMinute col =>
      obtain ⟨n, -, h⟩ := Option.bind_eq_some_iff.mp h
      exact type_of_mapColumn h
  | timeTrunc col part =>
      obtain ⟨n, -, h⟩ := Option.bind_eq_some_iff.mp h
      exact type_of_mapColumn h
  | length col =>
      obtain ⟨n, -, h⟩ := Option.bind_eq_some_iff.mp h
      exact type_of_mapColumn h
  | constant type value =>
      obtain rfl : Column.ofValues type _ = c := Option.some.inj h
      rfl
  | addConstant type col value =>
      rw [evaluate] at h
      exact type_of_mapColumn h
  | regexpReplace col pattern replacement =>
      rw [evaluate] at h
      exact type_of_mapColumn h
  | caseWhen cond trueBranch falseBranch type =>
      obtain ⟨sel, -, h⟩ := Option.bind_eq_some_iff.mp h
      obtain ⟨tv, -, h⟩ := Option.bind_eq_some_iff.mp h
      obtain ⟨fv, -, h⟩ := Option.bind_eq_some_iff.mp h
      obtain ⟨vs, -, h⟩ := Option.bind_eq_some_iff.mp h
      obtain rfl : Column.ofValues type vs = c := Option.some.inj h
      rfl

end ScalarFunction

end ColumnarEngine
