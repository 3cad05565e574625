import ColumnarEngine.Types.Value

/-!
# Columns, column builders and the helpers that copy between them

`Column` and `ColumnBuilder` carry the proof that their elements have the column's type, so an
ill-typed column cannot be built; `AddValue` stores through `Value.conv`. `copySelection` and
`hashKeys` are the two static functions of `ExecutionHelper` that walk a column, with or without a
list of physical indices. `none` stands for undefined behaviour: an index out of range or a
`static_cast` to the wrong class.
-/

namespace ColumnarEngine

open Found

/-- A column: its type and its elements (`GetType`, `GetRawData`). -/
@[ext] structure Column where
  type : ColumnType
  data : List Value
  /-- Every element has the column's type. -/
  typed : ∀ v ∈ data, v.HasType type
  deriving DecidableEq

/-- `Column::Size`. -/
def Column.size (c : Column) : ℕ := c.data.length

/-- A builder: the type it was made for and the elements added so far. -/
@[ext] structure ColumnBuilder where
  type : ColumnType
  data : List Value
  /-- Every element has the builder's type. -/
  typed : ∀ v ∈ data, v.HasType type
  deriving DecidableEq

/-- A column of type `t` holding the given values, each stored as the type does. -/
def Column.ofValues (t : ColumnType) (vs : List Value) : Column where
  type := t
  data := vs.map (Value.conv t)
  typed := by
    intro v hv
    obtain ⟨u, -, rfl⟩ := List.mem_map.mp hv
    exact Value.hasType_conv t u

@[simp] theorem Column.ofValues_type (t : ColumnType) (vs : List Value) :
    (Column.ofValues t vs).type = t := rfl

@[simp] theorem Column.ofValues_data (t : ColumnType) (vs : List Value) :
    (Column.ofValues t vs).data = vs.map (Value.conv t) := rfl

/-- Storing values of the type changes none of them. -/
theorem map_conv_eq_self {t : ColumnType} {vs : List Value} (h : ∀ v ∈ vs, v.HasType t) :
    vs.map (Value.conv t) = vs := by
  conv_rhs => rw [← List.map_id vs]
  exact List.map_congr_left fun v hv => by simpa using Value.conv_eq_self (h v hv)

/-- `ColumnFactory::MakeColumnBuilder`. -/
def makeColumnBuilder (t : ColumnType) : ColumnBuilder := ⟨t, [], by simp⟩

namespace ColumnBuilder

/-- `AddValue`. -/
def addValue (b : ColumnBuilder) (v : Value) : ColumnBuilder where
  type := b.type
  data := b.data ++ [v.conv b.type]
  typed := by
    intro u hu
    rcases List.mem_append.mp hu with hu | hu
    · exact b.typed u hu
    · rw [List.mem_singleton.mp hu]
      exact Value.hasType_conv _ _

/-- A loop of `AddValue` calls. -/
def addValues (b : ColumnBuilder) (vs : List Value) : ColumnBuilder := vs.foldl addValue b

/-- `Finish`: the column of everything added. -/
def finish (b : ColumnBuilder) : Column := ⟨b.type, b.data, b.typed⟩

@[simp] theorem makeColumnBuilder_type (t : ColumnType) : (makeColumnBuilder t).type = t := rfl

@[simp] theorem makeColumnBuilder_data (t : ColumnType) : (makeColumnBuilder t).data = [] := rfl

@[simp] theorem finish_type (b : ColumnBuilder) : b.finish.type = b.type := rfl

@[simp] theorem finish_data (b : ColumnBuilder) : b.finish.data = b.data := rfl

@[simp] theorem addValue_type (b : ColumnBuilder) (v : Value) : (b.addValue v).type = b.type := rfl

@[simp] theorem addValue_data (b : ColumnBuilder) (v : Value) :
    (b.addValue v).data = b.data ++ [v.conv b.type] := rfl

@[simp] theorem addValues_type (b : ColumnBuilder) (vs : List Value) :
    (b.addValues vs).type = b.type := by
  induction vs generalizing b with
  | nil => rfl
  | cons v vs ih => simpa [addValues] using ih (b.addValue v)

@[simp] theorem addValues_data (b : ColumnBuilder) (vs : List Value) :
    (b.addValues vs).data = b.data ++ vs.map (Value.conv b.type) := by
  induction vs generalizing b with
  | nil => simp [addValues]
  | cons v vs ih =>
      have := ih (b.addValue v)
      simp only [addValues, List.foldl_cons, addValue_data, addValue_type, List.map_cons] at this ⊢
      rw [this, List.append_assoc]
      rfl

end ColumnBuilder

/-! ## Gathering elements by index -/

/-- The elements at the given indices, in the order of the indices. -/
def gather {α : Type*} (data : List α) (indices : List ℕ) : Option (List α) :=
  indices.mapM fun i => data[i]?

section gather

variable {α : Type*}

@[simp] theorem gather_nil (data : List α) : gather data [] = some [] := rfl

theorem gather_cons (data : List α) (i : ℕ) (is : List ℕ) :
    gather data (i :: is) = (data[i]?).bind fun a => (gather data is).map (a :: ·) := by
  cases h : data[i]? <;> simp [gather, List.mapM_cons, h, Option.map_eq_bind]

/-- Gathering succeeds when every index is in range, and reads the elements there. -/
theorem gather_eq_some [Inhabited α] {data : List α} {indices : List ℕ}
    (h : ∀ i ∈ indices, i < data.length) :
    gather data indices = some (indices.map fun i => data.getD i default) := by
  induction indices with
  | nil => rfl
  | cons i is ih =>
      have hi : i < data.length := h i List.mem_cons_self
      rw [gather_cons, ih fun j hj => h j (List.mem_cons_of_mem _ hj)]
      simp [List.getElem?_eq_getElem hi]

/-- A successful gather had every index in range. -/
theorem lt_of_gather {data vs : List α} {indices : List ℕ} (h : gather data indices = some vs) :
    ∀ i ∈ indices, i < data.length := by
  induction indices generalizing vs with
  | nil => simp
  | cons i is ih =>
      rw [gather_cons] at h
      cases hi : data[i]? with
      | none => simp [hi] at h
      | some a =>
          cases hrest : gather data is with
          | none => simp [hi, hrest] at h
          | some ws =>
              intro j hj
              rcases List.mem_cons.mp hj with rfl | hj
              · exact (List.getElem?_eq_some_iff.mp hi).1
              · exact ih hrest j hj

theorem mem_of_gather {data vs : List α} {indices : List ℕ} (h : gather data indices = some vs) :
    ∀ v ∈ vs, v ∈ data := by
  induction indices generalizing vs with
  | nil => simp_all
  | cons i is ih =>
      rw [gather_cons] at h
      cases hi : data[i]? with
      | none => simp [hi] at h
      | some a =>
          cases hrest : gather data is with
          | none => simp [hi, hrest] at h
          | some ws =>
              obtain rfl : a :: ws = vs := by simpa [hi, hrest] using h
              intro v hv
              rcases List.mem_cons.mp hv with rfl | hv
              · exact List.mem_of_getElem? hi
              · exact ih hrest v hv

end gather

/-! ## `ExecutionHelper` -/

/-- The elements a helper visits: all of them, or those at the given indices. -/
def Column.visit (c : Column) (indices : Option (List ℕ)) : Option (List Value) :=
  match indices with
  | none => some c.data
  | some is => gather c.data is

/-- `ExecutionHelper::CopySelection`. The builder is cast to the class of the source's type. -/
def copySelection (dest : ColumnBuilder) (src : Column) (indices : Option (List ℕ)) :
    Option ColumnBuilder :=
  if dest.type = src.type then (src.visit indices).map dest.addValues else none

/-- The bytes `HashKeys` appends for one element: the eight bytes of the length and the bytes of a
string, the raw bytes of a number (one byte for `CHAR`). -/
def keyBytes (t : ColumnType) : Value → Bytes
  | .str s => toLE 8 s.length ++ s
  | .int n => encodeInt t.elemSize n

/-- Append to the `i`-th key the bytes of the `i`-th value. -/
def appendEach (enc : Value → Bytes) : List Bytes → List Value → List Bytes
  | k :: ks, v :: vs => (k ++ enc v) :: appendEach enc ks vs
  | ks, _ => ks

/-- `ExecutionHelper::HashKeys`: writing past the last key is undefined. -/
def hashKeys (c : Column) (keys : List Bytes) (selection : Option (List ℕ)) :
    Option (List Bytes) :=
  (c.visit selection).bind fun vs =>
    if vs.length ≤ keys.length then some (appendEach (keyBytes c.type) keys vs) else none

/-- What a helper visits has the column's type. -/
theorem Column.typed_of_visit {c : Column} {indices : Option (List ℕ)} {vs : List Value}
    (h : c.visit indices = some vs) : ∀ v ∈ vs, v.HasType c.type := by
  cases indices with
  | none => exact fun v hv => c.typed v (by simp_all [visit])
  | some is => exact fun v hv => c.typed v (mem_of_gather h v hv)

/-- Copying to a builder of the same type appends exactly the elements visited. -/
theorem copySelection_eq_some {dest : ColumnBuilder} {src : Column} {indices : Option (List ℕ)}
    {vs : List Value} (ht : dest.type = src.type) (hv : src.visit indices = some vs) :
    ∃ b, copySelection dest src indices = some b ∧ b.type = dest.type ∧
      b.data = dest.data ++ vs := by
  refine ⟨dest.addValues vs, by simp [copySelection, ht, hv], by simp, ?_⟩
  rw [ColumnBuilder.addValues_data, map_conv_eq_self]
  rw [ht]
  exact Column.typed_of_visit hv

@[simp] theorem length_appendEach (enc : Value → Bytes) (ks : List Bytes) (vs : List Value) :
    (appendEach enc ks vs).length = ks.length := by
  induction ks generalizing vs with
  | nil => cases vs <;> rfl
  | cons k ks ih => cases vs <;> simp [appendEach, ih]

/-- The bytes of two elements of one type, followed by anything, determine the elements: numbers
have a fixed width and strings carry their length. -/
theorem keyBytes_append_inj {t : ColumnType} {u v : Value} (hu : u.HasType t) (hv : v.HasType t)
    {x y : Bytes} (h : keyBytes t u ++ x = keyBytes t v ++ y) : u = v ∧ x = y := by
  cases u with
  | int m =>
      cases v with
      | str s => exact absurd hv.1 hu.1
      | int n =>
          obtain ⟨hbytes, hrest⟩ := List.append_inj h (by simp [keyBytes])
          exact ⟨by rw [(encodeInt_inj hu.2 hv.2).mp hbytes], hrest⟩
  | str s =>
      cases v with
      | int n => exact absurd hu.1 hv.1
      | str s' =>
          simp only [keyBytes, List.append_assoc] at h
          obtain ⟨hlen, hrest⟩ := List.append_inj h (by simp)
          have hs := (toLE_inj hu.2 hv.2).mp hlen
          obtain ⟨hstr, htail⟩ := List.append_inj hrest hs
          exact ⟨by rw [hstr], htail⟩

end ColumnarEngine
