import ColumnarEngine.Found.Transition
import ColumnarEngine.Io.CsvReader

/-!
# The size of the buffer does not matter

A session is a reader, a container and the results of the last calls. Two sessions that have the
same text still to read, whatever part of it is in their buffers, answer every sequence of calls
alike (`call_related`), and the loop of `GetNextRow` ends in each of them.
-/

namespace ColumnarEngine

open Found

/-- A call on a reader, its tokenizer or the container that the rows are added to. -/
inductive Call
  | getNextRow | readRow | readHeader | startNewLine | clear
  deriving DecidableEq, Repr

/-- A reader and a container, with the results of the last `ReadRow` and of the last `ReadHeader`.
-/
structure Session where
  reader : CsvReader
  rows : VectorOfStrings2D
  row : Option (Except Bytes Bool)
  header : Option (Except Bytes (List (Bytes × ColumnType)))

/-- What can be seen of a session: the rows read, the results, and `IsEOF` and `IsEndOfLine`. -/
structure Observation where
  rows : VectorOfStrings2D
  row : Option (Except Bytes Bool)
  header : Option (Except Bytes (List (Bytes × ColumnType)))
  isEOF : Bool
  isEndOfLine : Bool

namespace Session

/-- A new reader and a new container. -/
def start {bufferSize : ℕ} (h : 0 < bufferSize) (content : Bytes) (delim : UInt8) : Session :=
  ⟨.ofContent h content delim, .empty, none, none⟩

/-- One call. -/
def call (s : Session) : Call → Option Session
  | .getNextRow => (s.reader.tokenizer.getNextRow s.rows).map fun (t, rows) =>
      { s with reader := { s.reader with tokenizer := t }, rows := rows }
  | .readRow => (s.reader.readRow s.rows).map fun (row, reader, rows) =>
      { s with reader := reader, rows := rows, row := some row }
  | .readHeader => s.reader.readHeader.map fun (header, reader) =>
      { s with reader := reader, header := some header }
  | .startNewLine => some { s with rows := s.rows.startNewLine }
  | .clear => some { s with rows := .empty }

/-- What is seen after the last call. -/
def observe (s : Session) : Observation :=
  ⟨s.rows, s.row, s.header, s.reader.tokenizer.eofReached, s.reader.tokenizer.endOfLine⟩

end Session

/-! ## Sessions that agree on the text still to read -/

/-- After a row was added to a container, the text is valid and every string is ended. -/
theorem sound_of_addRow {delim : UInt8} {rows rows' : VectorOfStrings2D}
    {row : List Bytes × Option Bytes} {R : Reading} (h : addRow delim rows row = some (R, rows'))
    (hrows : rows.Settled) : R.Valid ∧ rows'.Settled := by
  obtain ⟨added, hadded, hpair⟩ := Option.map_eq_some_iff.mp h
  obtain ⟨rfl, rfl⟩ := Prod.mk.inj hpair
  exact ⟨Reading.valid_afterRow delim row.2,
    run_invariant (fun _ _ _ _ => VectorOfStrings2D.settled_addString) hrows hadded⟩

/-- Two tokenizers with the same text still to read. -/
structure SameText (t t' : CsvTokenizer) : Prop where
  reading : t.reading = t'.reading
  valid : t.reading.Valid

namespace SameText

variable {t t' : CsvTokenizer}

theorem eofReached (h : SameText t t') : t.eofReached = t'.eofReached :=
  congrArg Reading.eofReached h.reading

theorem endOfLine (h : SameText t t') : t.endOfLine = t'.endOfLine :=
  congrArg Reading.endOfLine h.reading

theorem resetLineFlag (h : SameText t t') : SameText t.resetLineFlag t'.resetLineFlag where
  reading :=
    Reading.ext (congrArg Reading.text h.reading :) (congrArg Reading.delim h.reading :) rfl
    h.eofReached
  valid := h.valid

/-- They find the same row. -/
theorem getNextRow (h : SameText t t') {rows : VectorOfStrings2D} (hrows : rows.Settled) :
    Related (fun r r' => SameText r.1 r'.1 ∧ r.2 = r'.2 ∧ r.2.Settled) (t.getNextRow rows)
      (t'.getNextRow rows) := by
  have hleft := CsvTokenizer.getNextRow_eq h.valid hrows
  have hright := CsvTokenizer.getNextRow_eq (h.reading ▸ h.valid) hrows
  have hdelim : t.delim = t'.delim := congrArg Reading.delim h.reading
  have htext : t.unread = t'.unread := congrArg Reading.text h.reading
  rw [hdelim, htext] at hleft
  cases hx : t.getNextRow rows with
  | none =>
      rw [hx, Option.map_none] at hleft
      rw [← hleft, Option.map_eq_none_iff] at hright
      rw [hright]
      exact .undefined
  | some r =>
      rw [hx, Option.map_some] at hleft
      rw [← hleft] at hright
      obtain ⟨r', hr', hsee⟩ := Option.map_eq_some_iff.mp hright
      obtain ⟨hvalid, hsettled⟩ := sound_of_addRow hleft.symm hrows
      obtain ⟨hreading, hrows'⟩ := Prod.mk.inj hsee
      rw [hr']
      exact .defined ⟨⟨hreading.symm, hvalid⟩, hrows'.symm, hsettled⟩

end SameText

/-- Two sessions that only differ in how much of the text is in the buffer. -/
structure Session.Same (s s' : Session) : Prop where
  tokenizer : SameText s.reader.tokenizer s'.reader.tokenizer
  expectedColumns : s.reader.expectedColumns = s'.reader.expectedColumns
  rows : s.rows = s'.rows
  settled : s.rows.Settled
  row : s.row = s'.row
  header : s.header = s'.header

namespace Session

variable {s s' : Session}

theorem Same.observe_eq (h : Same s s') : s.observe = s'.observe := by
  rw [observe, observe, h.rows, h.row, h.header, h.tokenizer.eofReached, h.tokenizer.endOfLine]

/-- The results of `ReadRow` are the same. -/
theorem Same.readRow (h : Same s s') :
    Related (fun r r' => r.1 = r'.1 ∧ SameText r.2.1.tokenizer r'.2.1.tokenizer ∧
      r.2.1.expectedColumns = r'.2.1.expectedColumns ∧ r.2.2 = r'.2.2 ∧ r.2.2.Settled)
      (s.reader.readRow s.rows) (s'.reader.readRow s'.rows) := by
  rw [CsvReader.readRow, CsvReader.readRow, ← h.tokenizer.eofReached, ← h.rows]
  split_ifs with heof
  · exact .defined ⟨rfl, h.tokenizer, h.expectedColumns, rfl, h.settled⟩
  · apply (h.tokenizer.getNextRow h.settled).map
    rintro ⟨t, rows⟩ ⟨t', rows'⟩ ⟨htext, rfl, hsettled⟩
    dsimp only
    rw [← htext.eofReached, ← h.expectedColumns]
    split_ifs with hend hwidth
    · exact ⟨rfl, htext, rfl, rfl, hsettled⟩
    · exact ⟨rfl, htext, rfl, rfl, hsettled⟩
    · exact ⟨rfl, htext.resetLineFlag, rfl, rfl, hsettled⟩

/-- The results of `ReadHeader` are the same. -/
theorem Same.readHeader (h : Same s s') :
    Related (fun r r' => r.1 = r'.1 ∧ SameText r.2.tokenizer r'.2.tokenizer ∧
      r.2.expectedColumns = r'.2.expectedColumns) s.reader.readHeader s'.reader.readHeader := by
  rw [CsvReader.readHeader, CsvReader.readHeader]
  have hempty : VectorOfStrings2D.empty.Settled := rfl
  apply (h.tokenizer.getNextRow hempty).bind
  rintro ⟨t, rows⟩ ⟨t', rows'⟩ ⟨htext, rfl, -⟩
  dsimp only
  cases (List.range rows.width).mapM rows.getString with
  | none => exact .undefined
  | some tokens => exact .defined ⟨rfl, htext.resetLineFlag, rfl⟩

/-- **A call** is answered alike. -/
theorem call_related (c : Call) (h : Same s s') : Related Same (s.call c) (s'.call c) := by
  cases c with
  | getNextRow =>
      rw [call, call, ← h.rows]
      apply (h.tokenizer.getNextRow h.settled).map
      rintro ⟨t, rows⟩ ⟨t', rows'⟩ ⟨htext, rfl, hsettled⟩
      exact ⟨htext, h.expectedColumns, rfl, hsettled, h.row, h.header⟩
  | readRow =>
      apply h.readRow.map
      rintro ⟨row, reader, rows⟩ ⟨row', reader', rows'⟩ ⟨rfl, htext, hcolumns, rfl, hsettled⟩
      exact ⟨htext, hcolumns, rfl, hsettled, rfl, h.header⟩
  | readHeader =>
      apply h.readHeader.map
      rintro ⟨header, reader⟩ ⟨header', reader'⟩ ⟨rfl, htext, hcolumns⟩
      exact ⟨htext, hcolumns, h.rows, h.settled, h.row, rfl⟩
  | startNewLine =>
      have hrows : s.rows.startNewLine = s'.rows.startNewLine := by rw [h.rows]
      exact .defined ⟨h.tokenizer, h.expectedColumns, hrows, h.settled, h.row, h.header⟩
  | clear => exact .defined ⟨h.tokenizer, h.expectedColumns, rfl, rfl, h.row, h.header⟩

/-- New sessions on one content. -/
theorem same_start {bufferSize bufferSize' : ℕ} (hpos : 0 < bufferSize) (hpos' : 0 < bufferSize')
    (content : Bytes) (delim : UInt8) :
    Same (start hpos content delim) (start hpos' content delim) where
  tokenizer := ⟨rfl, CsvTokenizer.valid_ofContent hpos content delim⟩
  expectedColumns := rfl
  rows := rfl
  settled := rfl
  row := rfl
  header := rfl

/-- **The size of the buffer does not matter**: for every content, every delimiter and every two
sizes of the buffer, every sequence of calls leads to the same rows, results and flags; and after
every sequence of calls the loop of `GetNextRow` ends, within one turn more than there are
characters left. -/
theorem run_observe_eq {bufferSize bufferSize' : ℕ} (hpos : 0 < bufferSize)
    (hpos' : 0 < bufferSize') (content : Bytes) (delim : UInt8) (calls : List Call) :
    (run call (start hpos content delim) calls).map observe =
        (run call (start hpos' content delim) calls).map observe ∧
      ∀ s, run call (start hpos content delim) calls = some s →
        ∀ n s', s.reader.tokenizer.unread.length < n →
          turns RowState.rowStep n ⟨s.reader.tokenizer, s.rows, false, false⟩ ≠
            some (.again s') := by
  refine ⟨(run_related (fun _ _ => call_related) (same_start hpos hpos' content delim) calls).map_eq
    fun _ _ => Same.observe_eq, fun s hs n s' hn => ?_⟩
  have hsame : Same s s := by
    have hrun := run_related (fun _ _ => call_related) (same_start hpos hpos content delim) calls
    rw [hs] at hrun
    cases hrun with
    | defined h => exact h
  exact CsvTokenizer.turns_rowStep_ne_again hsame.tokenizer.valid hsame.settled hn s'

/-- A buffer of one character and the real one, on a text with a doubled quote and a quoted
newline. -/
theorem run_observe_eq_one_character :
    (run call (start Nat.one_pos (ascii "a,\"b\"\"\n\"\n") 44) [.readRow, .readRow]).map observe =
      (run call (start (Nat.two_pow_pos 27) (ascii "a,\"b\"\"\n\"\n") 44)
        [.readRow, .readRow]).map observe :=
  (run_observe_eq Nat.one_pos (Nat.two_pow_pos 27) (ascii "a,\"b\"\"\n\"\n") 44
    [.readRow, .readRow]).1

end Session

end ColumnarEngine
