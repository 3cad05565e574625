import ColumnarEngine.Exec.FilterCorrect
import ColumnarEngine.Found.Wildcard
import ColumnarEngine.Plan.Expressions

/-!
# Filter expressions as formulas over names

A filter expression is a formula over the values of named columns. The function created from it
selects the rows that satisfy the formula, whatever was selected before (`filters_select`).

`Like` and `NotLike` build a substring test from a pattern by cutting off its first and its last
character. That is the pattern's meaning exactly if these are wildcards and no other character is
(`likeCorrect_iff`).
-/

namespace ColumnarEngine

open Found

/-! ## The formula -/

/-- The constant occurs in the string. -/
def Value.HasSubstring (value target : Value) : Prop :=
  ∃ text pattern, value = .str text ∧ target = .str pattern ∧ pattern <:+: text

/-- The comparison of a value with the constant. -/
def Comparison.Holds (target value : Value) : Comparison → Prop
  | .notEq => value ≠ target
  | .eq => value = target
  | .greater => target < value
  | .greaterEq => target ≤ value
  | .lessEq => value ≤ target
  | .like => value.HasSubstring target
  | .notLike => ¬ value.HasSubstring target

theorem Value.contains_iff (value target : Value) :
    value.contains target = true ↔ value.HasSubstring target := by
  cases value <;> cases target <;> simp [contains, HasSubstring]

/-- Outside the floating types the tests decide the comparisons. -/
theorem Comparison.test_iff (P : Platform) {t : ColumnType} (ht : t.isFloating = false)
    (target value : Value) (cmp : Comparison) :
    cmp.test P t target value = true ↔ cmp.Holds target value := by
  have hless := Value.less_iff P ht
  have hequal := Value.equal_iff P ht
  cases cmp with
  | notEq => rw [test, Bool.not_eq_true', ← Bool.not_eq_true, hequal]; rfl
  | eq => exact hequal value target
  | greater => exact hless target value
  | greaterEq =>
      rw [test, Bool.or_eq_true, hless, hequal, eq_comm]
      exact le_iff_lt_or_eq.symm
  | lessEq =>
      rw [test, Bool.or_eq_true, hless, hequal]
      exact le_iff_lt_or_eq.symm
  | like => exact Value.contains_iff value target
  | notLike =>
      rw [test, Bool.not_eq_true', ← Bool.not_eq_true, Value.contains_iff]
      rfl

/-- The value of the column of a name in a row, of the first one if there are several. -/
def Schema.valueOf (s : Schema) (row : Row) (columnName : Bytes) : Value :=
  row.getD (s.names.idxOf columnName) default

/-- The floating constants. -/
def ConstantType.isFloating : ConstantType → Bool
  | float | double | longdouble => true
  | _ => false

theorem ColumnType.isFloating_valueType (t : ColumnType) :
    t.valueType.isFloating = t.isFloating := by
  cases t <;> rfl

namespace FilterExpression

/-- The formula of an expression, on the named values of a row. -/
def Holds (s : Schema) (row : Row) : FilterExpression → Prop
  | compare cmp columnName _ value => cmp.Holds value (s.valueOf row columnName)
  | and left right => left.Holds s row ∧ right.Holds s row
  | or left right => left.Holds s row ∨ right.Holds s row

/-- No constant is a floating one. -/
def IsExact : FilterExpression → Prop
  | compare _ _ valueType _ => valueType.isFloating = false
  | and left right => left.IsExact ∧ right.IsExact
  | or left right => left.IsExact ∧ right.IsExact

/-- The function created passes the rows that satisfy the formula. -/
theorem passes_iff {P : Platform} {s : Schema} {e : FilterExpression} {f : FilterFunction}
    (h : e.createFilterFunction s = .ok f) (he : e.IsExact) (row : Row) :
    f.passes P row = true ↔ e.Holds s row := by
  induction e generalizing f with
  | compare cmp columnName valueType value =>
      obtain ⟨ind, t, hind, -, rfl, rfl⟩ := createFilterFunction_compare h
      rw [FilterFunction.passes, Holds, Schema.valueOf,
        (Schema.getColumnIndexByName_eq_ok.mp hind).2]
      exact cmp.test_iff P (t.isFloating_valueType.symm.trans he) _ _
  | and left right ihl ihr =>
      obtain ⟨l, r, hl, hr, rfl⟩ := createFilterFunction_bind h
      rw [FilterFunction.passes, Bool.and_eq_true, ihl hl he.1, ihr hr he.2]
      rfl
  | or left right ihl ihr =>
      obtain ⟨l, r, hl, hr, rfl⟩ := createFilterFunction_bind h
      rw [FilterFunction.passes, Bool.or_eq_true, ihl hl he.1, ihr hr he.2]
      rfl

end FilterExpression

section Filters

variable (P : Platform) {s : Schema} {b : RecordBatch}

/-- **Filters select by their formula**: `Evaluate` returns the selected indices of the rows that
satisfy it, in increasing order, and two filters in a row leave the batch of their conjunction. -/
theorem filters_select (hb : b.WellFormed) (ht : b.types = s.types) :
    (∀ e f, FilterExpression.createFilterFunction s e = .ok f → e.IsExact →
      ∃ sel, f.evaluate P b = some sel ∧ sel.Pairwise (· < ·) ∧
        ∀ i, i ∈ sel ↔ i ∈ b.selected ∧ e.Holds s (b.rowAt i)) ∧
    (∀ p q f g h, FilterExpression.createFilterFunction s p = .ok f →
      FilterExpression.createFilterFunction s q = .ok g →
      (FilterExpression.and p q).createFilterFunction s = .ok h →
      executeAll P [.filter f, .filter g] b = executeAll P [.filter h] b) := by
  constructor
  · intro e f hf he
    have htyped : f.WellTyped b.types := ht ▸ FilterExpression.createFilterFunction_wellTyped hf
    refine ⟨_, FilterFunction.evaluate_eq hb htyped, hb.selected_increasing.filter _, ?_⟩
    intro i
    rw [List.mem_filter, FilterExpression.passes_iff hf he]
  · intro p q f g h hf hg hand
    obtain ⟨f', g', hf', hg', rfl⟩ := FilterExpression.createFilterFunction_bind hand
    obtain rfl := Except.ok.inj (hf.symm.trans hf')
    obtain rfl := Except.ok.inj (hg.symm.trans hg')
    exact executeAll_filter_filter hb
      (ht ▸ FilterExpression.createFilterFunction_wellTyped hf)
      (ht ▸ FilterExpression.createFilterFunction_wellTyped hg)

end Filters

/-- An equality and a substring test on three rows, one of which is not selected. -/
theorem filters_select_three_rows :
    let s : Schema := ⟨[⟨ascii "a", .int32⟩, ⟨ascii "s", .string⟩]⟩
    let b : RecordBatch := ⟨2, some [0, 2], [Column.ofValues .int32 [.int 3, .int 5, .int 5],
      Column.ofValues .string [.str (ascii "abc"), .str (ascii "b"), .str (ascii "cb")]]⟩
    let f : FilterFunction := .eq .int32 0 (.int 5)
    let g : FilterFunction := .like 1 (ascii "b")
    (∃ sel, f.evaluate .integral b = some sel ∧ sel.Pairwise (· < ·) ∧
      ∀ i, i ∈ sel ↔ i ∈ b.selected ∧ (s.valueOf (b.rowAt i) (ascii "a") = .int 5)) ∧
    executeAll .integral [.filter f, .filter g] b =
      executeAll .integral [.filter (.and f g)] b := by
  intro s b f g
  have hselect := filters_select .integral (s := s) (b := b) (by decide) (by decide)
  exact ⟨hselect.1 (.eq (ascii "a") .int32 (.int 5)) f (by decide) rfl,
    hselect.2 (.eq (ascii "a") .int32 (.int 5)) (.like (ascii "s") (ascii "b")) f g (.and f g)
      (by decide) (by decide) (by decide)⟩

/-! ## LIKE -/

/-- `'%'`. -/
def percent : UInt8 := 37

/-- `value_` of `LikeExpression` and `NotLikeExpression`: `erase(begin())` and `pop_back()`,
undefined for a string that has become empty. -/
def likeValue : Bytes → Option Bytes
  | _ :: c :: rest => some (c :: rest).dropLast
  | _ => none

/-- `Like(column_name, target_val)` with a string. -/
def makeLike (columnName targetVal : Bytes) : Option FilterExpression :=
  (likeValue targetVal).map (FilterExpression.like columnName)

/-- `NotLike(column_name, target_val)` with a string. -/
def makeNotLike (columnName targetVal : Bytes) : Option FilterExpression :=
  (likeValue targetVal).map (FilterExpression.notLike columnName)

/-- The bytes of a string. -/
def Value.text : Value → Bytes
  | .str s => s
  | .int _ => []

/-- The filters of a pattern are constructed; if their functions are created, they select the rows
whose string matches the pattern and the rows whose string does not. -/
def LikeCorrect (pattern : Bytes) : Prop :=
  ∀ columnName, ∃ like notLike, makeLike columnName pattern = some like ∧
    makeNotLike columnName pattern = some notLike ∧
    ∀ (P : Platform) (s : Schema) (b : RecordBatch), b.WellFormed → b.types = s.types →
      (∀ f, like.createFilterFunction s = .ok f → f.evaluate P b = some (b.selected.filter fun i =>
        wildMatches percent pattern (s.valueOf (b.rowAt i) columnName).text)) ∧
      (∀ f, notLike.createFilterFunction s = .ok f → f.evaluate P b = some (b.selected.filter fun i =>
        !wildMatches percent pattern (s.valueOf (b.rowAt i) columnName).text))

/-- The constant is the pattern without its ends. -/
theorem likeValue_eq_some {pattern value : Bytes} :
    likeValue pattern = some value ↔ ∃ a z, pattern = a :: (value ++ [z]) := by
  constructor
  · intro h
    match pattern, h with
    | a :: c :: rest, h =>
        obtain rfl := Option.some.inj h
        exact ⟨a, (c :: rest).getLast (by simp), by rw [List.dropLast_concat_getLast]⟩
  · rintro ⟨a, z, rfl⟩
    cases value with
    | nil => rfl
    | cons c value =>
        have hdrop : ((c :: value) ++ [z]).dropLast = c :: value := List.dropLast_concat
        exact congrArg some hdrop

section Like

variable {P : Platform} {s : Schema} {b : RecordBatch} {columnName value : Bytes}
  {f : FilterFunction}

/-- The text of a row in the column of a name that is a string column. -/
theorem exists_text (hb : b.WellFormed) (ht : b.types = s.types)
    (htype : s.getColumnTypeByName columnName = .ok .string) {ind : ℕ}
    (hind : s.getColumnIndexByName columnName = .ok ind) {i : ℕ} (hi : i ∈ b.selected) :
    s.valueOf (b.rowAt i) columnName = .str (s.valueOf (b.rowAt i) columnName).text := by
  have hstring : b.types[ind]? = some .string := by
    rw [ht]
    exact Schema.types_getElem?_of_lookup hind htype
  obtain ⟨hlt, hget⟩ := List.getElem?_eq_some_iff.mp hstring
  have hrow := hasType_getD (hb.rows_typed _ (List.mem_map_of_mem hi)) hlt
  rw [hget] at hrow
  rw [Schema.valueOf, (Schema.getColumnIndexByName_eq_ok.mp hind).2]
  cases hvalue : (b.rowAt i).getD ind default with
  | int n =>
      rw [hvalue] at hrow
      exact absurd rfl hrow.1
  | str text => rfl

/-- What the function of a comparison with a string constant selects. -/
theorem evaluate_like (hb : b.WellFormed) (ht : b.types = s.types) {cmp : Comparison}
    (h : (FilterExpression.compare cmp columnName .stdString (.str value)).createFilterFunction s =
      .ok f) {test : Bytes → Bool}
    (htest : ∀ text, cmp.test P .string (.str value) (.str text) = test text) :
    f.evaluate P b = some (b.selected.filter fun i =>
      test (s.valueOf (b.rowAt i) columnName).text) := by
  have htyped : f.WellTyped b.types := ht ▸ FilterExpression.createFilterFunction_wellTyped h
  obtain ⟨ind, t, hind, htype, hvalueType, rfl⟩ := FilterExpression.createFilterFunction_compare h
  obtain rfl : t = .string := by cases t <;> simp_all [ColumnType.valueType]
  rw [FilterFunction.evaluate_eq hb htyped]
  refine congrArg some (List.filter_congr fun i hi => ?_)
  rw [← htest, ← exists_text hb ht htype hind hi, Schema.valueOf,
    (Schema.getColumnIndexByName_eq_ok.mp hind).2]
  rfl

/-- A wildcard at both ends and no other: the substring test is the pattern's meaning. -/
theorem likeCorrect_around {middle : Bytes} (hmiddle : percent ∉ middle) :
    LikeCorrect (percent :: (middle ++ [percent])) := by
  have hvalue : likeValue (percent :: (middle ++ [percent])) = some middle :=
    likeValue_eq_some.mpr ⟨percent, percent, rfl⟩
  have htest : ∀ text, decide (middle <:+: text) =
      wildMatches percent (percent :: (middle ++ [percent])) text := fun text => by
    rw [Bool.eq_iff_iff, wildMatches_around hmiddle, decide_eq_true_iff]
  refine fun columnName => ⟨.like columnName middle, .notLike columnName middle,
    by rw [makeLike, hvalue]; rfl, by rw [makeNotLike, hvalue]; rfl, fun P s b hb ht => ⟨?_, ?_⟩⟩
  · exact fun f hf => evaluate_like hb ht hf htest
  · exact fun f hf => evaluate_like hb ht hf fun text => congrArg not (htest text)

/-- One row with a string. -/
def oneString (text : Bytes) : RecordBatch := ⟨1, none, [Column.ofValues .string [.str text]]⟩

/-- The filters of a correct pattern test for its middle in every string. -/
theorem LikeCorrect.infix_iff {a z : UInt8} {middle : Bytes}
    (h : LikeCorrect (a :: (middle ++ [z]))) {text : Bytes}
    (htext : (Value.str text).HasType .string) :
    middle <:+: text ↔ wildMatches percent (a :: (middle ++ [z])) text = true := by
  have hvalue : likeValue (a :: (middle ++ [z])) = some middle :=
    likeValue_eq_some.mpr ⟨a, z, rfl⟩
  obtain ⟨like, notLike, hlike, -, hselect⟩ := h (ascii "s")
  obtain rfl : FilterExpression.like (ascii "s") middle = like := by
    simpa [makeLike, hvalue] using hlike
  have hb : (oneString text).WellFormed := ⟨1, by simp [oneString, Column.size], fun _ => rfl⟩
  have hf : (FilterExpression.like (ascii "s") middle).createFilterFunction
      ⟨[⟨ascii "s", .string⟩]⟩ = .ok (.like 0 middle) := rfl
  have hmatch := (hselect .integral ⟨[⟨ascii "s", .string⟩]⟩ (oneString text) hb rfl).1 _ hf
  rw [evaluate_like hb rfl hf fun _ => rfl] at hmatch
  have hrow : (Schema.valueOf ⟨[⟨ascii "s", .string⟩]⟩ ((oneString text).rowAt 0) (ascii "s")).text =
      text := by
    simp [Schema.valueOf, Schema.names, oneString, RecordBatch.rowAt, Value.conv_eq_self htext,
      Value.text]
  have hselected : (oneString text).selected = [0] := rfl
  rw [hselected] at hmatch
  by_cases hin : middle <:+: text <;>
    by_cases hwild : wildMatches percent (a :: (middle ++ [z])) text = true <;>
      simp_all [Value.contains, Comparison.test]

end Like

/-- **LIKE** has the pattern's meaning exactly when the pattern has a wildcard at both ends and no
other. -/
theorem likeCorrect_iff {pattern : Bytes} (hpattern : (Value.str pattern).HasType .string) :
    LikeCorrect pattern ↔
      ∃ middle, percent ∉ middle ∧ pattern = percent :: (middle ++ [percent]) := by
  constructor
  · intro h
    obtain ⟨like, -, hlike, -⟩ := h []
    obtain ⟨middle, hmiddle, -⟩ := Option.map_eq_some_iff.mp hlike
    obtain ⟨a, z, rfl⟩ := likeValue_eq_some.mp hmiddle
    have hsub : (letters percent (a :: (middle ++ [z]))).length ≤ (a :: (middle ++ [z])).length :=
      List.length_filter_le _ _
    have hshort : middle.length ≤ (a :: (middle ++ [z])).length := by
      simp only [List.length_cons, List.length_append]
      omega
    obtain ⟨rfl, rfl, hfree⟩ := star_ends_of_wildMatches
      ((h.infix_iff ⟨rfl, hsub.trans_lt hpattern.2⟩).mpr (wildMatches_letters _))
      ((h.infix_iff ⟨rfl, hshort.trans_lt hpattern.2⟩).mp (List.infix_refl middle))
    exact ⟨middle, hfree, rfl⟩
  · rintro ⟨middle, hfree, rfl⟩
    exact likeCorrect_around hfree

/-- The pattern `"%b%"`. -/
theorem likeCorrect_contains : LikeCorrect (ascii "%b%") :=
  (likeCorrect_iff (by decide)).mpr ⟨ascii "b", by decide, by decide⟩

/-- The pattern `"abc"` selects every string with a `b`. -/
theorem not_likeCorrect_exact : ¬ LikeCorrect (ascii "abc") := by
  intro h
  have hiff := @LikeCorrect.infix_iff 97 99 (ascii "b") h (ascii "b") (by decide)
  exact absurd (hiff.mp (List.infix_refl _)) (by decide)

end ColumnarEngine
