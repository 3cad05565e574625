import ColumnarEngine.Exec.AggregationFunctions

/-!
# What the aggregation functions compute

`AggregateKind.Represents` says which multisets of values a state stands for; sums and counts are
taken modulo the width of the state. `summarizes` shows that the element-wise code keeps this
relation, and `result_spec` reads the value of the aggregate off a final state whose exact sum fits
(`AggregateKind.Spec`, `AggregateKind.Fits`).

The kinds covered are those without floating point (`AggregateKind.Exact`).
-/

namespace ColumnarEngine

open Found

/-- The exact sum of a multiset of integers. -/
def exactSum (m : Multiset Value) : ℤ := (m.map Value.toInt).sum

@[simp] theorem exactSum_zero : exactSum 0 = 0 := rfl

@[simp] theorem exactSum_cons (v : Value) (m : Multiset Value) :
    exactSum (v ::ₘ m) = v.toInt + exactSum m := by
  simp [exactSum]

@[simp] theorem exactSum_add (m m' : Multiset Value) :
    exactSum (m + m') = exactSum m + exactSum m' := by
  simp [exactSum]

/-- A type whose elements are integers, added and compared as such. -/
def ColumnType.IsInteger (t : ColumnType) : Prop := t.isFloating = false ∧ t ≠ .string

instance (t : ColumnType) : Decidable t.IsInteger := by unfold ColumnType.IsInteger; infer_instance

/-- An integer element is its `toInt`. -/
theorem Value.eq_int_of_hasType {t : ColumnType} (ht : t ≠ .string) {v : Value}
    (hv : v.HasType t) : v = .int v.toInt := by
  cases v with
  | int n => rfl
  | str s => exact absurd hv.1 ht

/-- `a` does not lose against `b` for the operation. -/
def Operation.Beats : Operation → Value → Value → Prop
  | .sum, _, _ => True
  | .max, a, b => b ≤ a
  | .min, a, b => a ≤ b

/-- A member of the multiset that loses against no other. -/
def Operation.Extremum (op : Operation) (m : Multiset Value) (v : Value) : Prop :=
  v ∈ m ∧ ∀ u ∈ m, op.Beats v u

theorem Operation.Beats.refl (op : Operation) (a : Value) : op.Beats a a := by
  cases op <;> simp [Beats]

theorem Operation.Beats.trans {op : Operation} {a b c : Value} (h : op.Beats a b)
    (h' : op.Beats b c) : op.Beats a c := by
  cases op with
  | sum => trivial
  | max => exact le_trans (α := Value) h' h
  | min => exact le_trans (α := Value) h h'

/-- Outside the floating types `MAX` and `MIN` keep one of the two values, and it loses against
neither. -/
theorem Operation.apply_extremal {P : Platform} {t : ColumnType} {op : Operation} (hop : op ≠ .sum)
    (ht : t.isFloating = false) {a b : Value} (hb : b.HasType t) :
    (op.apply P t t a b = a ∨ op.apply P t t a b = b) ∧
      op.Beats (op.apply P t t a b) a ∧ op.Beats (op.apply P t t a b) b := by
  cases op with
  | sum => exact absurd rfl hop
  | max =>
      unfold apply
      simp only [Value.store_self P hb, Value.less_iff P ht]
      split_ifs with hlt
      · exact ⟨Or.inr rfl, le_of_lt (α := Value) hlt, le_refl (α := Value) b⟩
      · exact ⟨Or.inl rfl, le_refl (α := Value) a, not_lt.mp hlt⟩
  | min =>
      unfold apply
      simp only [Value.store_self P hb, Value.less_iff P ht]
      split_ifs with hlt
      · exact ⟨Or.inr rfl, le_of_lt (α := Value) hlt, le_refl (α := Value) b⟩
      · exact ⟨Or.inl rfl, le_refl (α := Value) a, not_lt.mp hlt⟩

/-- An extremum of one multiset and one of another: whichever of them wins is an extremum of
both. -/
theorem Operation.Extremum.add {P : Platform} {t : ColumnType} {op : Operation} (hop : op ≠ .sum)
    (ht : t.isFloating = false) {m m' : Multiset Value} {a b : Value} (hb : b.HasType t)
    (h : op.Extremum m a) (h' : op.Extremum m' b) : op.Extremum (m + m') (op.apply P t t a b) := by
  obtain ⟨hor, hbeats, hbeats'⟩ := apply_extremal (P := P) hop ht (a := a) hb
  constructor
  · rw [Multiset.mem_add]
    rcases hor with heq | heq
    · rw [heq]
      exact Or.inl h.1
    · rw [heq]
      exact Or.inr h'.1
  · intro u hu
    rcases Multiset.mem_add.mp hu with hu | hu
    · exact hbeats.trans (h.2 u hu)
    · exact hbeats'.trans (h'.2 u hu)

namespace AggregateKind

/-- The kinds without floating point: sums of integers into an integer type, extrema and distinct
counts of non-floating types, and counts. -/
def Exact : AggregateKind → Prop
  | typed input output .sum => input.IsInteger ∧ output.IsInteger
  | typed input output _ => input.isFloating = false ∧ output = input
  | count output => output = .int64
  | avg input _ state => input.IsInteger ∧ state.IsInteger
  | distinctCount input output => input.isFloating = false ∧ output = .int64

/-- The averages, whose result is a floating-point value. -/
def isAvg : AggregateKind → Bool
  | avg _ _ _ => true
  | _ => false

/-- The elements the aggregation accepts. -/
def Accepts (k : AggregateKind) (v : Value) : Prop := ∀ t, k.input = some t → v.HasType t

/-- The state stands for the multiset of values. -/
def Represents : (k : AggregateKind) → k.State → Multiset Value → Prop
  | typed _ output .sum, s, m =>
      (s.hasData = true ↔ m ≠ 0) ∧ s.value = .int (wrap output.elemSize (exactSum m))
  | typed _ output op, s, m =>
      (s.hasData = true ↔ m ≠ 0) ∧ s.value.HasType output ∧ (m ≠ 0 → op.Extremum m s.value)
  | count _, s, m => s = wrap 8 m.card
  | avg _ _ state, s, m =>
      s.sum = .int (wrap state.elemSize (exactSum m)) ∧ s.count = wrap 8 m.card
  | distinctCount _ _, s, m => List.Nodup s ∧ ∀ v, List.Mem v s ↔ v ∈ m

/-- The exact sum or count fits the state. -/
def Fits : AggregateKind → Multiset Value → Prop
  | typed _ output .sum, m => InWidth output.elemSize (exactSum m)
  | typed _ _ _, _ => True
  | count _, m => InWidth 8 m.card
  | avg _ _ state, m => InWidth state.elemSize (exactSum m) ∧ InWidth 8 m.card
  | distinctCount _ _, m => InWidth 8 m.card

instance (k : AggregateKind) (m : Multiset Value) : Decidable (k.Fits m) :=
  match k with
  | typed _ output .sum => inferInstanceAs (Decidable (InWidth output.elemSize (exactSum m)))
  | typed _ _ .max => inferInstanceAs (Decidable True)
  | typed _ _ .min => inferInstanceAs (Decidable True)
  | count _ => inferInstanceAs (Decidable (InWidth 8 m.card))
  | avg _ _ state =>
      inferInstanceAs (Decidable (InWidth state.elemSize (exactSum m) ∧ InWidth 8 m.card))
  | distinctCount _ _ => inferInstanceAs (Decidable (InWidth 8 m.card))

/-- The empty multiset fits. -/
theorem fits_zero (k : AggregateKind) : k.Fits 0 := by
  match k with
  | typed _ _ .sum => exact inWidth_zero _
  | typed _ _ .max => trivial
  | typed _ _ .min => trivial
  | count _ => exact inWidth_zero _
  | avg _ _ _ => exact ⟨inWidth_zero _, inWidth_zero _⟩
  | distinctCount _ _ => exact inWidth_zero _

/-- The value of the aggregate over a nonempty multiset. The average is the platform's division of
the exact sum by the number of values. -/
def Spec (P : Platform) : AggregateKind → Multiset Value → Value → Prop
  | typed _ _ .sum, m, v => v = .int (exactSum m)
  | typed _ _ op, m, v => op.Extremum m v
  | count _, m, v => v = .int m.card
  | avg _ _ state, m, v => v = .int (P.computeAvg state (exactSum m) m.card)
  | distinctCount _ _, m, v => v = .int m.toFinset.card

variable {P : Platform}

/-- The element-wise code of `SUM`. -/
theorem summarizes_sum {input output : ColumnType} (hi : input.IsInteger) (ho : output.IsInteger) :
    ((typed input output .sum).accumulator P).Summarizes (typed input output .sum).Accepts
      (Represents (typed input output .sum)) where
  init := by
    refine ⟨by simp [accumulator], ?_⟩
    simp [accumulator, Value.zero, ho.2, wrap_eq_self (inWidth_zero _)]
  step := by
    intro s m v hv hs
    obtain ⟨hdata, hvalue⟩ := hs
    generalize hn : v.toInt = n
    have hvn : v = .int n := hn ▸ Value.eq_int_of_hasType hi.2 (hv input rfl)
    simp only [accumulator, Operation.apply, hvn, Value.store_int P hi.1 ho.1 ho.2]
    by_cases hd : s.hasData = true
    · refine ⟨by simp [hd], ?_⟩
      simp only [hd, if_true, hvalue, Value.plus_int P ho.1 ho.2, exactSum_cons, Value.toInt,
        wrap_add_wrap, add_comm]
    · obtain rfl : m = 0 := by simpa [hd] using hdata
      simp [hd, Represents, Value.toInt, exactSum]
  merge := by
    rintro s s' m m' ⟨hdata, hvalue⟩ ⟨hdata', hvalue'⟩
    simp only [accumulator, Operation.apply, hvalue', Value.store_int P ho.1 ho.1 ho.2]
    by_cases hd' : s'.hasData = true
    · by_cases hd : s.hasData = true
      · refine ⟨by simp [hd, hd', hdata.mp hd], ?_⟩
        simp [hd, hd', hvalue, Value.plus_int P ho.1 ho.2]
      · obtain rfl : m = 0 := by simpa [hd] using hdata
        simpa [hd, hd', Represents] using ⟨hdata'.mp hd', hvalue'⟩
    · obtain rfl : m' = 0 := by simpa [hd'] using hdata'
      simpa [hd', Represents] using ⟨hdata, hvalue⟩

/-- The element-wise code of `MIN` and `MAX`. -/
theorem summarizes_extremum {t : ColumnType} {op : Operation} (hop : op ≠ .sum)
    (ht : t.isFloating = false) :
    ((typed t t op).accumulator P).Summarizes (typed t t op).Accepts
      (Represents (typed t t op)) := by
  have hrep : ∀ s m, Represents (typed t t op) s m ↔
      (s.hasData = true ↔ m ≠ 0) ∧ s.value.HasType t ∧ (m ≠ 0 → op.Extremum m s.value) := by
    cases op with
    | sum => exact absurd rfl hop
    | max => exact fun _ _ => Iff.rfl
    | min => exact fun _ _ => Iff.rfl
  have happly : ∀ {a b : Value}, a.HasType t → b.HasType t → (op.apply P t t a b).HasType t := by
    intro a b ha hb
    rcases (Operation.apply_extremal (P := P) hop ht (a := a) hb).1 with heq | heq <;> rw [heq]
    · exact ha
    · exact hb
  refine ⟨?_, ?_, ?_⟩
  · rw [hrep]
    refine ⟨by simp [accumulator], ?_, by simp⟩
    by_cases hstr : t = .string
    · simp [accumulator, Value.zero, hstr, Value.HasType]
    · simp [accumulator, Value.zero, hstr, Value.HasType, inWidth_zero]
  · intro s m v hv hs
    rw [hrep] at hs ⊢
    obtain ⟨hdata, htyped, hext⟩ := hs
    have hvt : v.HasType t := hv t rfl
    by_cases hd : s.hasData = true
    · simp only [accumulator, hd, if_true]
      refine ⟨by simp, happly htyped hvt, ?_⟩
      intro _
      have hone : op.Extremum {v} v :=
        ⟨Multiset.mem_singleton_self v, by simp [Operation.Beats.refl]⟩
      have := (hext (hdata.mp hd)).add (P := P) hop ht hvt hone
      rwa [add_comm, Multiset.singleton_add] at this
    · obtain rfl : m = 0 := by simpa [hd] using hdata
      simp only [accumulator, hd, Bool.false_eq_true, if_false, Value.store_self P hvt]
      exact ⟨by simp, hvt, fun _ => ⟨by simp, by simp [Operation.Beats.refl]⟩⟩
  · intro s s' m m' hs hs'
    rw [hrep] at hs hs' ⊢
    obtain ⟨hdata, htyped, hext⟩ := hs
    obtain ⟨hdata', htyped', hext'⟩ := hs'
    by_cases hd' : s'.hasData = true
    · by_cases hd : s.hasData = true
      · simp only [accumulator, hd, hd', if_true]
        refine ⟨by simp [hdata.mp hd], happly htyped htyped', ?_⟩
        intro _
        exact (hext (hdata.mp hd)).add hop ht htyped' (hext' (hdata'.mp hd'))
      · obtain rfl : m = 0 := by simpa [hd] using hdata
        simpa [accumulator, hd, hd'] using ⟨hdata'.mp hd', htyped', hext'⟩
    · obtain rfl : m' = 0 := by simpa [hd'] using hdata'
      simpa [accumulator, hd'] using ⟨hdata, htyped, hext⟩

/-- The element-wise code of `COUNT`. -/
theorem summarizes_count {output : ColumnType} :
    ((count output).accumulator P).Summarizes (count output).Accepts
      (Represents (count output)) where
  init := by simp [Represents, accumulator, wrap_eq_self (inWidth_zero _)]
  step := by
    intro s m v _ hs
    have hs : (s : ℤ) = wrap 8 (m.card : ℤ) := hs
    simp only [Represents, accumulator, hs, wrap_wrap_add, Multiset.card_cons, Nat.cast_add,
      Nat.cast_one]
  merge := by
    intro s s' m m' hs hs'
    have hs : (s : ℤ) = wrap 8 (m.card : ℤ) := hs
    have hs' : (s' : ℤ) = wrap 8 (m'.card : ℤ) := hs'
    simp only [Represents, accumulator, hs, hs', wrap_wrap_add, wrap_add_wrap, Multiset.card_add,
      Nat.cast_add]

/-- The element-wise code of `AVG`. -/
theorem summarizes_avg {input output state : ColumnType} (hi : input.IsInteger)
    (hs : state.IsInteger) :
    ((avg input output state).accumulator P).Summarizes (avg input output state).Accepts
      (Represents (avg input output state)) where
  init := by
    simp [Represents, accumulator, Value.zero, hs.2, wrap_eq_self (inWidth_zero _)]
  step := by
    rintro s m v hv ⟨hsum, hcount⟩
    rw [Value.eq_int_of_hasType hi.2 (hv input rfl)]
    simp only [accumulator, Represents, hsum, hcount, Value.store_int P hi.1 hs.1 hs.2,
      Value.plus_int P hs.1 hs.2, wrap_wrap_add, wrap_add_wrap, exactSum_cons, Value.toInt,
      Multiset.card_cons, add_comm]
    simp
  merge := by
    rintro s s' m m' ⟨hsum, hcount⟩ ⟨hsum', hcount'⟩
    simp [accumulator, Represents, hsum, hcount, hsum', hcount', Value.plus_int P hs.1 hs.2]

/-- Inserting into a set of distinct values. -/
theorem insertDistinct_spec {t : ColumnType} (ht : t.isFloating = false) {s : List Value}
    (hs : s.Nodup) (v : Value) :
    (insertDistinct P t s v).Nodup ∧ ∀ u, u ∈ insertDistinct P t s v ↔ u ∈ s ∨ u = v := by
  have hany : (s.any fun u => Value.equal P t u v) = true ↔ v ∈ s := by
    simp [List.any_eq_true, Value.equal_iff P ht]
  unfold insertDistinct
  split_ifs with hmem
  · rw [hany] at hmem
    exact ⟨hs, fun u => ⟨Or.inl, fun hor => hor.elim id fun heq => heq ▸ hmem⟩⟩
  · rw [hany] at hmem
    exact ⟨hs.append (List.nodup_singleton v) (by simpa using hmem), by simp⟩

/-- The element-wise code of `COUNT(DISTINCT)`. -/
theorem summarizes_distinctCount {input output : ColumnType} (hi : input.isFloating = false) :
    ((distinctCount input output).accumulator P).Summarizes (distinctCount input output).Accepts
      (Represents (distinctCount input output)) where
  init := ⟨List.nodup_nil, fun v => by simp [accumulator]; exact List.not_mem_nil⟩
  step := by
    rintro s m v - ⟨hnodup, hmem⟩
    obtain ⟨hnodup', hmem'⟩ := insertDistinct_spec (P := P) hi hnodup v
    refine ⟨hnodup', ?_⟩
    intro u
    rw [Multiset.mem_cons, ← hmem u, or_comm]
    exact hmem' u
  merge := by
    rintro s s' m m' ⟨hnodup, hmem⟩ ⟨-, hmem'⟩
    have hfold : ∀ (l s : List Value), s.Nodup → (l.foldl (insertDistinct P input) s).Nodup ∧
        ∀ u, u ∈ l.foldl (insertDistinct P input) s ↔ u ∈ s ∨ u ∈ l := by
      intro l
      induction l with
      | nil => exact fun s hs => ⟨hs, by simp⟩
      | cons v l ih =>
          intro s hs
          obtain ⟨hnodup', hins⟩ := insertDistinct_spec (P := P) hi hs v
          obtain ⟨hn, hm⟩ := ih _ hnodup'
          refine ⟨hn, ?_⟩
          intro u
          rw [List.foldl_cons, hm, hins, List.mem_cons, or_assoc]
    obtain ⟨hn, hm⟩ := hfold s' s hnodup
    refine ⟨hn, ?_⟩
    intro u
    rw [Multiset.mem_add, ← hmem, ← hmem']
    exact hm u

/-- **Every exact kind keeps its relation**: the states stand for multisets. -/
theorem summarizes {k : AggregateKind} (hk : k.Exact) :
    (k.accumulator P).Summarizes k.Accepts k.Represents := by
  match k, hk with
  | typed _ _ .sum, hk => exact summarizes_sum hk.1 hk.2
  | typed t _ .max, ⟨ht, rfl⟩ => exact summarizes_extremum (by simp) ht
  | typed t _ .min, ⟨ht, rfl⟩ => exact summarizes_extremum (by simp) ht
  | count _, _ => exact summarizes_count
  | avg _ _ _, hk => exact summarizes_avg hk.1 hk.2
  | distinctCount _ _, hk => exact summarizes_distinctCount hk.1

/-- A state of a nonempty multiset whose sums fit yields the value of the aggregate. -/
theorem result_spec {k : AggregateKind} {s : k.State} {m : Multiset Value}
    (hs : k.Represents s m) (hm : m ≠ 0) (hfits : k.Fits m) :
    k.Spec P m (k.result P s) := by
  match k with
  | typed _ _ .sum =>
      obtain ⟨-, hvalue⟩ := hs
      simpa [Spec, result, hvalue] using wrap_eq_self hfits
  | typed _ _ .max => exact hs.2.2 hm
  | typed _ _ .min => exact hs.2.2 hm
  | count _ =>
      have hs : (s : ℤ) = wrap 8 (m.card : ℤ) := hs
      simp only [Spec, result, hs, wrap_eq_self hfits]
  | avg _ _ state =>
      obtain ⟨hsum, hcount⟩ := hs
      have hpos : (0 : ℤ) < m.card := by
        exact_mod_cast Multiset.card_pos.mpr hm
      simp only [Spec, result, hsum, hcount, wrap_eq_self hfits.1, wrap_eq_self hfits.2, hpos,
        if_true, Value.toInt]
  | distinctCount _ _ =>
      obtain ⟨hnodup, hmem⟩ := hs
      have hset : m.toFinset = List.toFinset s := by
        ext v
        rw [Multiset.mem_toFinset, List.mem_toFinset]
        exact (hmem v).symm
      simp only [Spec, result, hset]
      rw [List.toFinset_card_of_nodup hnodup]

/-- The result has the output type once its sums fit, so that `AddValue` does not change it. -/
theorem result_hasType {k : AggregateKind} (hk : k.Exact) (havg : k.isAvg = false)
    {s : k.State} {m : Multiset Value} (hs : k.Represents s m) (hfits : k.Fits m) :
    (k.result P s).HasType k.output := by
  match k, hk with
  | typed _ o .sum, hk =>
      obtain ⟨-, hvalue⟩ := hs
      simpa [result, hvalue, output] using ⟨hk.2.2, inWidth_wrap _ _⟩
  | typed _ _ .max, _ => exact hs.2.1
  | typed _ _ .min, _ => exact hs.2.1
  | count _, hk =>
      have hs : (s : ℤ) = wrap 8 (m.card : ℤ) := hs
      obtain rfl := hk
      rw [result, hs]
      exact ⟨by decide, inWidth_wrap _ _⟩
  | avg _ _ _, _ => exact absurd havg (by simp [isAvg])
  | distinctCount _ _, hk =>
      obtain ⟨-, rfl⟩ := hk
      obtain ⟨hnodup, hmem⟩ := hs
      refine ⟨by simp [output], ?_⟩
      have hle : (List.length s : ℤ) ≤ m.card := by
        have hsub : (s : Multiset Value) ≤ m :=
          (Multiset.le_iff_subset (Multiset.coe_nodup.mpr hnodup)).mpr fun v hv =>
            (hmem v).mp (Multiset.mem_coe.mp hv)
        exact_mod_cast Multiset.card_le_card hsub
      have hnonneg : (0 : ℤ) ≤ List.length s := by positivity
      have hhi : 2 * (m.card : ℤ) < 256 ^ ColumnType.int64.elemSize := hfits.2
      have hpos : (0 : ℤ) < 256 ^ ColumnType.int64.elemSize := by positivity
      show InWidth ColumnType.int64.elemSize _
      exact ⟨by omega, by omega⟩

end AggregateKind

/-! ## Aggregates of rows -/

/-- The element of a row that an aggregation function visits. -/
def AggregationFunction.argument (f : AggregationFunction) (r : Row) : Value :=
  match f.kind.input with
  | none => default
  | some _ => r.getD f.columnIndex default

/-- The aggregation function is placed over columns of the given types: it reads a column of its
input class and declares its output class. -/
structure AggregationFunction.Placed (types : List ColumnType) (f : AggregationFunction) :
    Prop where
  column : ∀ t, f.kind.input = some t → types[f.columnIndex]? = some t
  output : f.columnType = f.kind.output

/-- The aggregation function is placed and free of floating point. -/
structure AggregationFunction.Declared (types : List ColumnType) (f : AggregationFunction) :
    Prop extends AggregationFunction.Placed types f where
  exact : f.kind.Exact

namespace AggregationFunction.Placed

variable {types : List ColumnType} {f : AggregationFunction}

/-- Typed rows have an element the function accepts. -/
theorem accepts (h : f.Placed types) {r : Row} (hr : List.Forall₂ Value.HasType r types) :
    f.kind.Accepts (f.argument r) := by
  intro t ht
  obtain ⟨hlt, rfl⟩ := List.getElem?_eq_some_iff.mp (h.column t ht)
  unfold argument
  rw [ht]
  exact hasType_getD hr hlt

/-- `Update` visits the argument of every row of a well-formed batch, in order. -/
theorem inputs_eq {b : RecordBatch} (hb : b.WellFormed) (h : f.Placed b.types) :
    f.kind.inputs f.columnIndex b = some (b.rows.map f.argument) := by
  unfold AggregateKind.inputs argument
  cases hk : f.kind.input with
  | none => simp [hb.length_rows]
  | some t =>
      obtain ⟨hlt, ht⟩ := List.getElem?_eq_some_iff.mp (h.column t hk)
      have hlt' : f.columnIndex < b.columns.length := by simpa [RecordBatch.types] using hlt
      have hc := List.getElem?_eq_getElem hlt'
      have hct : b.columns[f.columnIndex].type = t := by simpa [RecordBatch.types] using ht
      simp [hb.iterateColumnData_eq hc hct, RecordBatch.rows, RecordBatch.rowAt, hc]

end AggregationFunction.Placed

end ColumnarEngine
