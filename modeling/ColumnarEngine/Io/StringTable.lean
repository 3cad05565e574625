import ColumnarEngine.Io.CsvScan

/-!
# Tables in a container of strings

A table is written into a `VectorOfStrings2D` cell by cell: in one call of `AddString`, or between
`StartAddString` and `EndAddString` with characters and views, and with characters popped behind a
check of `EmptyLastString`. Both ways add the text of the cell (`add_eq`). `Tallies` is the
invariant of the calls: besides the strings, the size of every column. A table of rows of one width
is read back from it whether or not its last line was finished (`build_reads`).
-/

namespace ColumnarEngine

open Found

namespace VectorOfStrings2D

/-! ## Calls -/

/-- A call between `StartAddString` and `EndAddString`: `ContinueAddString`, `PopLastChar` behind a
check of `EmptyLastString`, or the loop of the tokenizer that pops blanks. -/
inductive Edit
  | char (c : UInt8)
  | view (sv : Bytes)
  | pop
  | trim
  deriving DecidableEq, Repr

/-- What the call does to the container. -/
def Edit.apply (r : VectorOfStrings2D) : Edit → Option VectorOfStrings2D
  | .char c => some (r.continueAddString c)
  | .view sv => some (r.continueAddStringView sv)
  | .pop => some (if r.emptyLastString then r else r.popLastChar)
  | .trim => trimLastString r

/-- What the call does to the text of the cell. -/
def Edit.text (token : Bytes) : Edit → Bytes
  | .char c => token ++ [c]
  | .view sv => token ++ sv
  | .pop => token.dropLast
  | .trim => trimBlanks token

/-- The calls that write a cell. -/
inductive Cell
  | whole (str : Bytes)
  | edited (edits : List Edit)
  deriving DecidableEq, Repr

/-- The text of a cell. -/
def Cell.text : Cell → Bytes
  | .whole str => str
  | .edited edits => edits.foldl Edit.text []

/-- The calls that write a cell. -/
def Cell.add (r : VectorOfStrings2D) : Cell → Option VectorOfStrings2D
  | .whole str => r.addString str
  | .edited edits => (edits.foldlM Edit.apply r.startAddString).bind endAddString

/-- The rows are written with `StartNewLine` between them, and after the last if it is `closed`. -/
def build (r : VectorOfStrings2D) (closed : Bool) : List (List Cell) → Option VectorOfStrings2D
  | [] => some r
  | [row] => (row.foldlM Cell.add r).map fun r => if closed then r.startNewLine else r
  | row :: row' :: rows =>
      (row.foldlM Cell.add r).bind fun r => build r.startNewLine closed (row' :: rows)

/-- The texts of the cells of a table. -/
def texts (table : List (List Cell)) : List (List Bytes) := table.map (List.map Cell.text)

/-! ## Edits -/

variable {r : VectorOfStrings2D}

/-- A token written after the last string is what has been written after it. -/
theorem pending_withPending (h : r.Wf) (token : Bytes) : (r.withPending token).pending = token :=
  List.drop_left' (List.length_take_of_le h)

/-- A token is written in place of another. -/
theorem withPending_withPending (h : r.Wf) (token token' : Bytes) :
    (r.withPending token).withPending token' = r.withPending token' := by
  have htake : (r.data.take r.lastOffset ++ token).take r.lastOffset = r.data.take r.lastOffset :=
    List.take_left' (List.length_take_of_le h)
  unfold withPending
  simp only [lastOffset] at htake ⊢
  rw [htake]

theorem wf_withPending (h : r.Wf) (token : Bytes) : (r.withPending token).Wf := by
  have hlength := List.length_take_of_le h
  unfold Wf withPending
  simp only [lastOffset, List.length_append] at hlength ⊢
  omega

/-- Appending to the buffer appends to the token. -/
theorem append_eq (r : VectorOfStrings2D) (sv : Bytes) :
    { r with data := r.data ++ sv } = r.withPending (r.pending ++ sv) := by
  unfold withPending pending
  rw [← List.append_assoc, List.take_append_drop]

/-- Popping a character behind the check pops it off the token, if there is one. -/
theorem pop_eq (h : r.Wf) :
    (if r.emptyLastString then r else r.popLastChar) = r.withPending r.pending.dropLast := by
  split_ifs with hempty
  · have hsettled : r.Settled := beq_iff_eq.mp hempty
    have hpending := hsettled.pending
    conv_lhs => rw [← r.withPending_pending]
    rw [hpending, List.dropLast_nil]
  · have hpending : r.pending ≠ [] := by
      intro hnil
      apply hempty
      exact beq_iff_eq.mpr (h.settled hnil)
    have hdata : r.data.dropLast = r.data.take r.lastOffset ++ r.pending.dropLast := by
      rw [← List.dropLast_append_of_ne_nil hpending, pending, List.take_append_drop]
    unfold popLastChar withPending
    rw [hdata]

/-- An edit changes what has been written after the last string, and nothing before it. -/
theorem apply_eq (h : r.Wf) (edit : Edit) :
    edit.apply r = some (r.withPending (edit.text r.pending)) := by
  cases edit with
  | char c => exact congrArg some (r.append_eq [c])
  | view sv => exact congrArg some (r.append_eq sv)
  | pop => exact congrArg some (pop_eq h)
  | trim => exact trimLastString_eq h

/-- Edits change the token as they change its text. -/
theorem applies_eq (h : r.Wf) (edits : List Edit) :
    edits.foldlM Edit.apply r = some (r.withPending (edits.foldl Edit.text r.pending)) := by
  induction edits generalizing r with
  | nil => exact congrArg some r.withPending_pending.symm
  | cons edit edits ih =>
      rw [List.foldlM_cons, apply_eq h]
      show edits.foldlM Edit.apply (r.withPending (edit.text r.pending)) = _
      rw [ih (wf_withPending h _), pending_withPending h, withPending_withPending h]
      rfl

/-- A cell is added as its text, however it is written. -/
theorem add_eq (h : r.Settled) (cell : Cell) : cell.add r = r.addString cell.text := by
  cases cell with
  | whole str => rfl
  | edited edits =>
      show (edits.foldlM Edit.apply r).bind endAddString = r.addString (edits.foldl Edit.text [])
      rw [applies_eq h.wf, Option.bind_some, endAddString_withPending h.wf, h.pending, h.ended]

/-! ## The sizes of the columns -/

/-- The total length of the strings of a column. -/
def columnTotal (table : List (List Bytes)) (j : ℕ) : ℕ :=
  (table.map fun row => (row.getD j []).length).sum

theorem columnTotal_append (table table' : List (List Bytes)) (j : ℕ) :
    columnTotal (table ++ table') j = columnTotal table j + columnTotal table' j := by
  unfold columnTotal
  rw [List.map_append, List.sum_append]

/-- A string at the end of the last line counts for its column. -/
theorem columnTotal_string (rows : List (List Bytes)) (cur : List Bytes) (s : Bytes) (j : ℕ) :
    columnTotal (rows ++ [cur ++ [s]]) j =
      columnTotal (rows ++ [cur]) j + if j = cur.length then s.length else 0 := by
  have hlast : ((cur ++ [s]).getD j []).length =
      (cur.getD j []).length + if j = cur.length then s.length else 0 := by
    rw [List.getD_eq_getElem?_getD, List.getD_eq_getElem?_getD]
    rcases Nat.lt_trichotomy j cur.length with hlt | rfl | hgt
    · rw [List.getElem?_append_left hlt, if_neg hlt.ne, Nat.add_zero]
    · simp
    · have hnone : cur[j]? = none := List.getElem?_eq_none hgt.le
      have hnone' : (cur ++ [s])[j]? = none := by
        apply List.getElem?_eq_none
        rw [List.length_append, List.length_singleton]
        exact hgt
      rw [hnone, hnone', if_neg hgt.ne']
      rfl
  have hsingle : ∀ row : List Bytes, columnTotal [row] j = (row.getD j []).length := by
    intro row
    unfold columnTotal
    simp
  rw [columnTotal_append, columnTotal_append, hsingle, hsingle, hlast, Nat.add_assoc]

/-- A line without strings counts for no column. -/
theorem columnTotal_nil (rows : List (List Bytes)) (j : ℕ) :
    columnTotal (rows ++ [[]]) j = columnTotal rows j := by
  rw [columnTotal_append]
  rfl

/-- The container holds the finished lines and the current one, and the total of every column. -/
structure Tallies (r : VectorOfStrings2D) (rows : List (List Bytes)) (cur : List Bytes) : Prop
    extends Holds r rows cur where
  totals : ∀ j < (rows.headD cur).length,
    r.columnSizes[j]? = some (columnTotal (rows ++ [cur]) j)

/-- A new container holds nothing. -/
theorem tallies_empty : Tallies empty [] [] :=
  ⟨holds_empty, fun _ hj => absurd hj (Nat.not_lt_zero _)⟩

namespace Tallies

variable {rows : List (List Bytes)} {cur : List Bytes}

/-- Nothing has been written after the last string. -/
theorem settled (h : Tallies r rows cur) : r.Settled := h.toHolds.lastOffset_eq

/-- The size of a string is added to the total of its column. -/
theorem addSize_totals (h : Tallies r rows cur) {s : Bytes} {sizes : List ℕ}
    (hsizes : r.addSize s.length = some sizes) :
    ∀ j < (rows.headD (cur ++ [s])).length,
      sizes[j]? = some (columnTotal (rows ++ [cur ++ [s]]) j) := by
  intro j hj
  rw [columnTotal_string]
  unfold VectorOfStrings2D.addSize at hsizes
  cases rows with
  | nil =>
      have hlength : r.columnSizes.length = cur.length := h.columnSizes
      have hlines : r.lines = 1 := h.lines
      rw [if_pos hlines] at hsizes
      obtain rfl := Option.some.inj hsizes
      rcases Nat.lt_or_ge j cur.length with hlt | hge
      · rw [List.getElem?_append_left (hlength ▸ hlt), h.totals j hlt, if_neg hlt.ne, Nat.add_zero]
      · have hlast : j = cur.length := by
          rw [List.headD_nil, List.length_append, List.length_singleton] at hj
          omega
        have hzero : columnTotal ([] ++ [cur]) j = 0 := by
          unfold columnTotal
          simp [hlast]
        rw [hzero, Nat.zero_add, if_pos hlast, hlast, ← hlength, List.getElem?_concat_length]
  | cons row rows =>
      have hne := h.toHolds.lines_ne_one (List.cons_ne_nil _ _)
      rw [if_neg hne] at hsizes
      obtain ⟨-, hmodify⟩ := Option.ite_none_right_eq_some.mp hsizes
      obtain rfl := Option.some.inj hmodify
      rw [List.getElem?_modify, h.totals j hj, h.columnsInLine]
      by_cases heq : cur.length = j
      · rw [if_pos heq.symm]
        simp [heq]
      · rw [if_neg (Ne.symm heq), Nat.add_zero]
        simp [heq]

/-- A string is added in the first line, or below one of its columns. -/
theorem addString (h : Tallies r rows cur)
    (hwidth : rows ≠ [] → cur.length < (rows.headD cur).length) (s : Bytes) :
    ∃ r', r.addString s = some r' ∧ Tallies r' rows (cur ++ [s]) := by
  obtain ⟨r', hr', hholds⟩ := h.toHolds.addString hwidth s
  refine ⟨r', hr', hholds, ?_⟩
  obtain ⟨sizes, hsizes, rfl⟩ := Option.map_eq_some_iff.mp hr'
  exact h.addSize_totals hsizes

/-- The current line is finished. -/
theorem startNewLine (h : Tallies r rows cur) : Tallies r.startNewLine (rows ++ [cur]) [] := by
  refine ⟨h.toHolds.startNewLine, ?_⟩
  have hhead : (rows ++ [cur]).headD [] = rows.headD cur := by cases rows <;> rfl
  intro j hj
  rw [hhead] at hj
  rw [columnTotal_nil]
  exact h.totals j hj

end Tallies

/-! ## Tables -/

/-- The rows of a table have one width. -/
def Even (w : ℕ) (table : List (List Bytes)) : Prop := ∀ row ∈ table, row.length = w

theorem even_append {w : ℕ} {table table' : List (List Bytes)} :
    Even w (table ++ table') ↔ Even w table ∧ Even w table' := List.forall_mem_append

theorem even_singleton {w : ℕ} {row : List Bytes} : Even w [row] ↔ row.length = w :=
  List.forall_mem_singleton

/-- The first of rows of one width. -/
theorem Even.headD {w : ℕ} {table : List (List Bytes)} (h : Even w table) (hne : table ≠ [])
    (d : List Bytes) : (table.headD d).length = w := by
  obtain ⟨row, rest, rfl⟩ := List.exists_cons_of_ne_nil hne
  exact h row List.mem_cons_self

/-- The container reads as a table of rows of width `w`. -/
structure Reads (r : VectorOfStrings2D) (w : ℕ) (table : List (List Bytes)) : Prop where
  height : r.height = table.length
  width : table ≠ [] → r.width = w
  cell : ∀ i < table.length, ∀ j < w, r.getString2D i j = (table.getD i [])[j]?
  total : table ≠ [] → ∀ j < w, r.columnSize j = some (columnTotal table j)

namespace Tallies

variable {rows : List (List Bytes)} {cur : List Bytes} {w : ℕ}

/-- The cells of a line are added, up to the width of the lines above. -/
theorem addCells (h : Tallies r rows cur) (hrows : Even w rows) (cells : List Cell)
    (hwidth : cur.length + cells.length ≤ w) :
    ∃ r', cells.foldlM Cell.add r = some r' ∧ Tallies r' rows (cur ++ cells.map Cell.text) := by
  induction cells generalizing r cur with
  | nil => exact ⟨r, rfl, by rwa [List.map_nil, List.append_nil]⟩
  | cons cell cells ih =>
      rw [List.length_cons] at hwidth
      obtain ⟨r₁, hr₁, h₁⟩ := h.addString (fun hne => by rw [hrows.headD hne]; omega) cell.text
      have hlength : (cur ++ [cell.text]).length + cells.length ≤ w := by
        rw [List.length_append, List.length_singleton]
        omega
      obtain ⟨r₂, hr₂, h₂⟩ := ih h₁ hlength
      refine ⟨r₂, ?_, ?_⟩
      · rw [List.foldlM_cons, add_eq h.settled, hr₁]
        exact hr₂
      · rwa [List.append_assoc, List.singleton_append] at h₂

/-- The width is that of the lines above, or in the first line the number of its strings. -/
theorem width_eq (h : Tallies r rows cur) (hrows : Even w rows)
    (hcur : rows = [] → cur.length = w) :
    r.width = w := by
  unfold VectorOfStrings2D.width
  split_ifs with hlines
  · have hnil : rows = [] := by
      by_contra hne
      exact h.toHolds.lines_ne_one hne hlines
    rw [h.columnsInLine, hcur hnil]
  · have hne : rows ≠ [] := by
      rintro rfl
      exact hlines h.lines
    rw [h.columns hne, hrows.headD hne]

/-- The strings of lines of one width are read by line and column. -/
theorem getString2D_eq (h : Tallies r rows cur) {table : List (List Bytes)}
    (htable : Even w table) (hflatten : table.flatten = rows.flatten ++ cur) (hwidth : r.width = w)
    (i : ℕ) {j : ℕ} (hj : j < w) : r.getString2D i j = (table.getD i [])[j]? := by
  unfold getString2D
  rw [h.toHolds.getString_eq, hwidth, ← hflatten]
  exact getElem?_flatten_eq htable hj i

/-- A table whose last line was finished. -/
theorem reads (h : Tallies r rows []) (hrows : Even w rows) : Reads r w rows := by
  have hwidth : rows ≠ [] → r.width = w := fun hne => h.width_eq hrows fun hnil => absurd hnil hne
  refine ⟨?_, hwidth, ?_, ?_⟩
  · have hline : r.columnsInLine = 0 := h.columnsInLine
    unfold height
    rw [if_pos hline, h.lines, Nat.add_sub_cancel]
  · intro i hi j hj
    have hne : rows ≠ [] := List.ne_nil_of_length_pos (Nat.zero_lt_of_lt hi)
    exact h.getString2D_eq hrows (List.append_nil _).symm (hwidth hne) i hj
  · intro hne j hj
    rw [← columnTotal_nil]
    apply h.totals
    rwa [hrows.headD hne]

/-- A table whose last line was not finished. -/
theorem reads_open (h : Tallies r rows cur) (hw : 1 ≤ w) (hrows : Even w (rows ++ [cur])) :
    Reads r w (rows ++ [cur]) := by
  obtain ⟨hrows', hcur⟩ := even_append.mp hrows
  rw [even_singleton] at hcur
  have hwidth : r.width = w := h.width_eq hrows' fun _ => hcur
  refine ⟨?_, fun _ => hwidth, ?_, ?_⟩
  · unfold height
    rw [h.columnsInLine, hcur, if_neg (by omega), h.lines, List.length_append,
      List.length_singleton]
  · intro i _ j hj
    apply h.getString2D_eq hrows _ hwidth i hj
    rw [List.flatten_append, List.flatten_singleton]
  · intro _ j hj
    apply h.totals
    cases rows with
    | nil => rwa [List.headD_nil, hcur]
    | cons row rows => rwa [hrows'.headD (List.cons_ne_nil _ _)]

end Tallies

/-- Writing a table adds its lines; the last of them stays the current line unless it is finished
too. -/
theorem build_tallies {rows : List (List Bytes)} {w : ℕ} (h : Tallies r rows [])
    (hrows : Even w rows) {table : List (List Cell)} (htable : Even w (texts table))
    (closed : Bool) :
    ∃ r', build r closed table = some r' ∧
      (Tallies r' (rows ++ texts table) [] ∨
        closed = false ∧ ∃ init last, texts table = init ++ [last] ∧
          Tallies r' (rows ++ init) last) := by
  induction table generalizing r rows with
  | nil => exact ⟨r, rfl, Or.inl (by rwa [texts, List.map_nil, List.append_nil])⟩
  | cons row table ih =>
      have hcons : texts (row :: table) = [row.map Cell.text] ++ texts table := rfl
      rw [hcons] at htable ⊢
      obtain ⟨hrow, hrest⟩ := even_append.mp htable
      have hlength := even_singleton.mp hrow
      rw [List.length_map] at hlength
      obtain ⟨r₁, hr₁, h₁⟩ := h.addCells hrows row (by rw [List.length_nil]; omega)
      rw [List.nil_append] at h₁
      have hnext : Even w (rows ++ [row.map Cell.text]) := even_append.mpr ⟨hrows, hrow⟩
      cases table with
      | nil =>
          have hbuild : build r closed [row] =
              some (if closed then r₁.startNewLine else r₁) := by
            unfold build
            rw [hr₁, Option.map_some]
          refine ⟨_, hbuild, ?_⟩
          cases closed with
          | true => exact Or.inl h₁.startNewLine
          | false => exact Or.inr ⟨rfl, [], _, rfl, by rwa [List.append_nil]⟩
      | cons row' table =>
          obtain ⟨r₂, hr₂, hcases⟩ := ih h₁.startNewLine hnext hrest
          have hbuild : build r closed (row :: row' :: table) = some r₂ := by
            rw [build, hr₁]
            exact hr₂
          refine ⟨r₂, hbuild, ?_⟩
          rcases hcases with hclosed | ⟨hopen, init, last, htexts, hlast⟩
          · rw [List.append_assoc] at hclosed
            exact Or.inl hclosed
          · refine Or.inr ⟨hopen, [row.map Cell.text] ++ init, last, ?_, ?_⟩
            · rw [htexts, List.append_assoc]
            · rwa [List.append_assoc] at hlast

/-- The cells of rows of one width are texts of one width. -/
theorem even_texts {w : ℕ} {table : List (List Cell)} (h : ∀ row ∈ table, row.length = w) :
    Even w (texts table) := by
  intro row hrow
  obtain ⟨cells, hcells, rfl⟩ := List.mem_map.mp hrow
  rw [List.length_map]
  exact h cells hcells

/-- In a cell that is being written, the bytes of the cells before it stay, and are followed by the
text of the cell so far. -/
theorem edits_keep {w : ℕ} {done : List (List Cell)} (hdone : ∀ row ∈ done, row.length = w)
    {cells : List Cell} (hcells : cells.length < w) (edits : List Edit) :
    ∃ r r', ((build empty true done).bind fun r => cells.foldlM Cell.add r) = some r ∧
      r.data = ((texts done).flatten ++ cells.map Cell.text).flatten ∧
      edits.foldlM Edit.apply r.startAddString = some r' ∧
      r'.data = r.data ++ edits.foldl Edit.text [] := by
  have hrows := even_texts hdone
  obtain ⟨r₁, hr₁, hcases⟩ := build_tallies tallies_empty (List.forall_mem_nil _) hrows true
  obtain h₁ | ⟨hopen, -⟩ := hcases
  · rw [List.nil_append] at h₁
    obtain ⟨r, hr, h⟩ := h₁.addCells hrows cells (by rw [List.length_nil]; omega)
    rw [List.nil_append] at h
    refine ⟨r, _, by rw [hr₁]; exact hr, h.data, applies_eq h.settled.wf edits, ?_⟩
    have htake : r.data.take r.lastOffset = r.data := by rw [h.settled, List.take_length]
    rw [h.settled.pending]
    unfold withPending
    rw [htake]
  · exact absurd hopen (by decide)

/-- **Tables**: a table of rows of width `w` that is written into a new or cleared container, each
cell in either way and its last line finished or not, is read back cell by cell, with its height,
its width and the total length of every column; and while a cell is written, the bytes of the cells
before it stay. -/
theorem build_reads {w : ℕ} (hw : 1 ≤ w) {table : List (List Cell)}
    (htable : ∀ row ∈ table, row.length = w) (closed : Bool) (old : VectorOfStrings2D) :
    (∃ r, build empty closed table = some r ∧ build old.clear closed table = some r ∧
      Reads r w (texts table)) ∧
    ∀ done : List (List Cell), (∀ row ∈ done, row.length = w) →
      ∀ cells : List Cell, cells.length < w → ∀ edits : List Edit,
      ∃ r r', ((build empty true done).bind fun r => cells.foldlM Cell.add r) = some r ∧
        r.data = ((texts done).flatten ++ cells.map Cell.text).flatten ∧
        edits.foldlM Edit.apply r.startAddString = some r' ∧
        r'.data = r.data ++ edits.foldl Edit.text [] := by
  refine ⟨?_, fun done hdone cells hcells edits => edits_keep hdone hcells edits⟩
  have heven := even_texts htable
  obtain ⟨r, hr, hcases⟩ := build_tallies tallies_empty (List.forall_mem_nil _) heven closed
  refine ⟨r, hr, hr, ?_⟩
  rcases hcases with h | ⟨-, init, last, htexts, h⟩
  · exact h.reads heven
  · rw [htexts] at heven ⊢
    exact h.reads_open hw heven

/-- Two rows of two cells, the last line not finished; blanks are trimmed off a cell. -/
theorem build_reads_two :
    ∃ r, build empty false
        [[.whole (ascii "ab"), .edited [.view (ascii "c "), .trim]],
          [.edited [.char 32, .trim, .pop], .whole (ascii "def")]] = some r ∧
      r.getString2D 0 1 = some (ascii "c") ∧ r.getString2D 1 0 = some [] ∧
      r.height = 2 ∧ r.width = 2 ∧ r.columnSize 1 = some 4 := by
  obtain ⟨⟨r, hr, -, hreads⟩, -⟩ := @build_reads 2 (by decide)
    [[.whole (ascii "ab"), .edited [.view (ascii "c "), .trim]],
      [.edited [.char 32, .trim, .pop], .whole (ascii "def")]] (by decide) false empty
  refine ⟨r, hr, ?_, ?_, hreads.height, hreads.width (by decide), ?_⟩
  · exact hreads.cell 0 (by decide) 1 (by decide)
  · exact hreads.cell 1 (by decide) 0 (by decide)
  · exact hreads.total (by decide) 1 (by decide)

end VectorOfStrings2D

end ColumnarEngine
