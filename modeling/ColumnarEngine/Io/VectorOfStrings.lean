import ColumnarEngine.Found.Partial
import ColumnarEngine.Types.Value

/-!
# Strings in one buffer

`VectorOfStrings2D` of `utils/VectorOfStrings.h`: the characters of all strings one after the other,
the offsets at which they end, and the number of strings in the first and in the current line.
`none` is an index out of range. `Holds` says which lines a container holds.

`adding_string_` is written but never read, and is left out.
-/

namespace ColumnarEngine

open Found

/-- `VectorOfStrings2D`. -/
structure VectorOfStrings2D where
  data : Bytes
  offsets : List ℕ
  columnSizes : List ℕ
  lines : ℕ
  columns : ℕ
  columnsInLine : ℕ
  deriving DecidableEq, Repr

namespace VectorOfStrings2D

/-- The constructor, and what `Clear` leaves. -/
def empty : VectorOfStrings2D := ⟨[], [0], [], 1, 0, 0⟩

/-- `Clear`. -/
def clear (_ : VectorOfStrings2D) : VectorOfStrings2D := empty

/-- `offsets_.back()`. -/
def lastOffset (r : VectorOfStrings2D) : ℕ := r.offsets.getLastD 0

/-- `column_sizes_` with the length of a string of the current line: a new entry in the first line,
added to the entry of the column in the others. -/
def addSize (r : VectorOfStrings2D) (len : ℕ) : Option (List ℕ) :=
  if r.lines = 1 then some (r.columnSizes ++ [len])
  else if r.columnsInLine < r.columnSizes.length then
    some (r.columnSizes.modify r.columnsInLine (· + len))
  else none

/-- `AddString`. -/
def addString (r : VectorOfStrings2D) (str : Bytes) : Option VectorOfStrings2D :=
  (r.addSize str.length).map fun columnSizes =>
    { r with
      data := r.data ++ str
      offsets := r.offsets ++ [(r.data ++ str).length]
      columnSizes := columnSizes
      columnsInLine := r.columnsInLine + 1 }

/-- `StartAddString`, which sets `adding_string_`. -/
def startAddString (r : VectorOfStrings2D) : VectorOfStrings2D := r

/-- `ContinueAddString` with a character. -/
def continueAddString (r : VectorOfStrings2D) (c : UInt8) : VectorOfStrings2D :=
  { r with data := r.data ++ [c] }

/-- `ContinueAddString` with a view. -/
def continueAddStringView (r : VectorOfStrings2D) (sv : Bytes) : VectorOfStrings2D :=
  { r with data := r.data ++ sv }

/-- `PopLastChar`. -/
def popLastChar (r : VectorOfStrings2D) : VectorOfStrings2D := { r with data := r.data.dropLast }

/-- `EndAddString`. -/
def endAddString (r : VectorOfStrings2D) : Option VectorOfStrings2D :=
  (r.addSize (r.data.length - r.lastOffset)).map fun columnSizes =>
    { r with
      offsets := r.offsets ++ [r.data.length]
      columnSizes := columnSizes
      columnsInLine := r.columnsInLine + 1 }

/-- `StartNewLine`. -/
def startNewLine (r : VectorOfStrings2D) : VectorOfStrings2D :=
  { r with
    columns := if r.lines = 1 then r.columnsInLine else r.columns
    lines := r.lines + 1
    columnsInLine := 0 }

/-- `GetString`. -/
def getString (r : VectorOfStrings2D) (index : ℕ) : Option Bytes :=
  (r.offsets[index]?).bind fun start =>
    (r.offsets[index + 1]?).map fun stop => (r.data.drop start).take (stop - start)

/-- `Width`. -/
def width (r : VectorOfStrings2D) : ℕ := if r.lines = 1 then r.columnsInLine else r.columns

/-- `GetString2D`. -/
def getString2D (r : VectorOfStrings2D) (rowIndex columnIndex : ℕ) : Option Bytes :=
  r.getString (rowIndex * r.width + columnIndex)

/-- `EmptyLastString`. -/
def emptyLastString (r : VectorOfStrings2D) : Bool := r.lastOffset == r.data.length

/-- `Height`. -/
def height (r : VectorOfStrings2D) : ℕ := if r.columnsInLine = 0 then r.lines - 1 else r.lines

/-- `ColumnSize`. -/
def columnSize (r : VectorOfStrings2D) (j : ℕ) : Option ℕ := r.columnSizes[j]?

/-- `ApproxByteSize`. -/
def approxByteSize (r : VectorOfStrings2D) : ℕ := r.data.length + r.offsets.length * 8

/-! ## The strings of a container -/

/-- The offsets of strings in one buffer. -/
def offsetsOf (strings : List Bytes) : List ℕ :=
  (List.range (strings.length + 1)).map fun i => (strings.take i).flatten.length

@[simp] theorem length_offsetsOf (strings : List Bytes) :
    (offsetsOf strings).length = strings.length + 1 := by simp [offsetsOf]

theorem getElem?_offsetsOf {strings : List Bytes} {i : ℕ} (h : i ≤ strings.length) :
    (offsetsOf strings)[i]? = some (strings.take i).flatten.length := by
  rw [offsetsOf, List.getElem?_map, List.getElem?_range (by omega), Option.map_some]

theorem offsetsOf_append_singleton (strings : List Bytes) (s : Bytes) :
    offsetsOf (strings ++ [s]) = offsetsOf strings ++ [(strings ++ [s]).flatten.length] := by
  unfold offsetsOf
  rw [List.length_append, List.length_singleton, List.range_succ, List.map_append,
    List.map_singleton, List.take_of_length_le (by simp)]
  congr 1
  apply List.map_congr_left
  intro i hi
  rw [List.take_append_of_le_length (by have := List.mem_range.mp hi; omega)]

@[simp] theorem getLastD_offsetsOf (strings : List Bytes) :
    (offsetsOf strings).getLastD 0 = strings.flatten.length := by
  induction strings using List.reverseRecOn with
  | nil => rfl
  | append_singleton strings s _ => simp [offsetsOf_append_singleton]

/-- The container holds the finished lines and the strings of the current line. -/
structure Holds (r : VectorOfStrings2D) (rows : List (List Bytes)) (cur : List Bytes) : Prop where
  data : r.data = (rows.flatten ++ cur).flatten
  offsets : r.offsets = offsetsOf (rows.flatten ++ cur)
  lines : r.lines = rows.length + 1
  columns : rows ≠ [] → r.columns = (rows.headD cur).length
  columnsInLine : r.columnsInLine = cur.length
  columnSizes : r.columnSizes.length = (rows.headD cur).length

/-- A new container holds nothing. -/
theorem holds_empty : Holds empty [] [] := ⟨rfl, rfl, rfl, fun h => absurd rfl h, rfl, rfl⟩

namespace Holds

variable {r : VectorOfStrings2D} {rows : List (List Bytes)} {cur : List Bytes}

/-- Nothing has been written after the last string. -/
theorem lastOffset_eq (h : Holds r rows cur) : r.lastOffset = r.data.length := by
  rw [lastOffset, h.offsets, getLastD_offsetsOf, h.data]

/-- Below the first line, the container is not in its first line. -/
theorem lines_ne_one (h : Holds r rows cur) (hrows : rows ≠ []) : r.lines ≠ 1 := by
  have := List.length_pos_of_ne_nil hrows
  rw [h.lines]
  omega

/-- The size of a string is kept in the first line, or below one of its columns. -/
theorem addSize (h : Holds r rows cur) (hwidth : rows ≠ [] → cur.length < (rows.headD cur).length)
    (s : Bytes) : ∃ sizes, r.addSize s.length = some sizes ∧
      sizes.length = (rows.headD (cur ++ [s])).length := by
  rw [VectorOfStrings2D.addSize]
  cases rows with
  | nil =>
      refine ⟨_, if_pos h.lines, ?_⟩
      rw [List.length_append, h.columnSizes]
      simp
  | cons row rows =>
      have hlt : r.columnsInLine < r.columnSizes.length := by
        rw [h.columnsInLine, h.columnSizes]
        exact hwidth (List.cons_ne_nil _ _)
      refine ⟨_, by rw [if_neg (h.lines_ne_one (List.cons_ne_nil _ _)), if_pos hlt], ?_⟩
      rw [List.length_modify, h.columnSizes]
      rfl

/-- A string is added in the first line, or below one of its columns. -/
theorem addString (h : Holds r rows cur) (hwidth : rows ≠ [] → cur.length < (rows.headD cur).length)
    (s : Bytes) : ∃ r', r.addString s = some r' ∧ Holds r' rows (cur ++ [s]) := by
  have hdata : r.data ++ s = (rows.flatten ++ (cur ++ [s])).flatten := by
    rw [h.data]
    simp
  have hoffsets : r.offsets ++ [(r.data ++ s).length] =
      offsetsOf (rows.flatten ++ (cur ++ [s])) := by
    rw [hdata, h.offsets, ← List.append_assoc, offsetsOf_append_singleton]
  have hhead : rows ≠ [] → rows.headD (cur ++ [s]) = rows.headD cur := by
    cases rows with
    | nil => exact fun hne => absurd rfl hne
    | cons row rows => exact fun _ => rfl
  obtain ⟨sizes, hsizes, hlen⟩ := h.addSize hwidth s
  refine ⟨⟨r.data ++ s, r.offsets ++ [(r.data ++ s).length], sizes, r.lines, r.columns,
    r.columnsInLine + 1⟩, ?_, hdata, hoffsets, h.lines, fun hne => ?_, ?_, hlen⟩
  · rw [VectorOfStrings2D.addString, hsizes, Option.map_some]
  · rw [hhead hne]
    exact h.columns hne
  · simp [h.columnsInLine]

/-- A string beyond the columns of the first line is written out of range. -/
theorem addString_eq_none (h : Holds r rows cur) (hrows : rows ≠ [])
    (hwidth : (rows.headD cur).length ≤ cur.length) (s : Bytes) : r.addString s = none := by
  have hlt : ¬ r.columnsInLine < r.columnSizes.length := by
    rw [h.columnsInLine, h.columnSizes]
    omega
  rw [VectorOfStrings2D.addString, VectorOfStrings2D.addSize, if_neg (h.lines_ne_one hrows),
    if_neg hlt, Option.map_none]

/-- Strings that fit below the first line are added. -/
theorem addStrings (h : Holds r rows cur) {strings : List Bytes}
    (hwidth : rows ≠ [] → cur.length + strings.length ≤ (rows.headD cur).length) :
    ∃ r', strings.foldlM VectorOfStrings2D.addString r = some r' ∧
      Holds r' rows (cur ++ strings) := by
  induction strings generalizing r cur with
  | nil => exact ⟨r, rfl, by rwa [List.append_nil]⟩
  | cons s strings ih =>
      have hhead : rows ≠ [] → rows.headD (cur ++ [s]) = rows.headD cur := by
        intro hne
        obtain ⟨row, rows', rfl⟩ := List.exists_cons_of_ne_nil hne
        rfl
      obtain ⟨r₁, hr₁, h₁⟩ := h.addString (fun hne => by
        have := hwidth hne
        rw [List.length_cons] at this
        omega) s
      obtain ⟨r₂, hr₂, h₂⟩ := ih h₁ (fun hne => by
        have := hwidth hne
        rw [hhead hne, List.length_append, List.length_singleton]
        rw [List.length_cons] at this
        omega)
      refine ⟨r₂, ?_, by simpa using h₂⟩
      rw [List.foldlM_cons, hr₁]
      exact hr₂

/-- Too many strings below the first line are written out of range. -/
theorem addStrings_eq_none (h : Holds r rows cur) (hrows : rows ≠ [])
    (hcur : cur.length ≤ (rows.headD cur).length) {strings : List Bytes}
    (hwidth : (rows.headD cur).length < cur.length + strings.length) :
    strings.foldlM VectorOfStrings2D.addString r = none := by
  induction strings generalizing r cur with
  | nil => exact absurd hwidth (not_lt.mpr hcur)
  | cons s strings ih =>
      have hhead : rows.headD (cur ++ [s]) = rows.headD cur := by
        obtain ⟨row, rows', rfl⟩ := List.exists_cons_of_ne_nil hrows
        rfl
      rw [List.foldlM_cons]
      obtain hlt | hge := Nat.lt_or_ge cur.length (rows.headD cur).length
      · obtain ⟨r₁, hr₁, h₁⟩ := h.addString (fun _ => hlt) s
        rw [hr₁]
        refine ih h₁ ?_ ?_
        · rw [hhead, List.length_append, List.length_singleton]
          exact hlt
        · rw [hhead, List.length_append, List.length_singleton]
          rw [List.length_cons] at hwidth
          omega
      · rw [h.addString_eq_none hrows hge]
        rfl

/-- The current line is finished. -/
theorem startNewLine (h : Holds r rows cur) : Holds r.startNewLine (rows ++ [cur]) [] := by
  have hhead : (rows ++ [cur]).headD [] = rows.headD cur := by cases rows <;> rfl
  refine ⟨?_, ?_, ?_, ?_, rfl, ?_⟩
  · rw [VectorOfStrings2D.startNewLine, h.data]
    simp
  · rw [VectorOfStrings2D.startNewLine, h.offsets]
    simp
  · simp [VectorOfStrings2D.startNewLine, h.lines]
  · intro _
    rw [hhead]
    simp only [VectorOfStrings2D.startNewLine, h.lines, h.columnsInLine]
    cases rows with
    | nil => rfl
    | cons row rows => rw [if_neg (by simp), h.columns (List.cons_ne_nil _ _)]
  · rw [hhead]
    exact h.columnSizes

/-- The strings are read back by their index. -/
theorem getString_eq (h : Holds r rows cur) (i : ℕ) :
    r.getString i = (rows.flatten ++ cur)[i]? := by
  obtain ⟨strings, hstrings⟩ : ∃ strings, strings = rows.flatten ++ cur := ⟨_, rfl⟩
  rw [getString, h.offsets, h.data, ← hstrings]
  by_cases hi : i < strings.length
  · have hsucc : strings.take (i + 1) = strings.take i ++ [strings[i]] :=
      List.take_succ_eq_append_getElem hi
    have hlen : (strings.take (i + 1)).flatten.length - (strings.take i).flatten.length =
        strings[i].length := by
      rw [hsucc, List.flatten_append, List.flatten_singleton, List.length_append,
        Nat.add_sub_cancel_left]
    have hsplit : strings.flatten =
        (strings.take i).flatten ++ (strings[i] ++ (strings.drop (i + 1)).flatten) := by
      have hall : strings.flatten =
          (strings.take (i + 1)).flatten ++ (strings.drop (i + 1)).flatten := by
        rw [← List.flatten_append, List.take_append_drop]
      rw [hall, hsucc, List.flatten_append, List.flatten_singleton, List.append_assoc]
    rw [getElem?_offsetsOf (by omega), getElem?_offsetsOf (by omega), Option.bind_some,
      Option.map_some, hlen, hsplit, List.drop_left, List.take_left, List.getElem?_eq_getElem hi]
  · have hstop : (offsetsOf strings)[i + 1]? = none :=
      List.getElem?_eq_none (by rw [length_offsetsOf]; omega)
    rw [hstop, List.getElem?_eq_none (Nat.le_of_not_lt hi)]
    cases (offsetsOf strings)[i]? with
    | none => rfl
    | some start => rfl

end Holds

end VectorOfStrings2D

end ColumnarEngine
