import ColumnarEngine.Found.Loop
import ColumnarEngine.Io.VectorOfStrings

/-!
# The CSV tokenizer

`io/CsvTokenizer.h` and `io/CsvTokenizer.cpp`: `GetNextRow` reads one row, character by character,
from a buffer that `RefillBuffer` fills from the file, and appends its fields to a container. The
loop of `GetNextRow` is a body (`rowStep`) and a bounded number of turns; `none` is undefined
behaviour of the container.
-/

namespace ColumnarEngine

open Found

/-- `'"'`. -/
def quote : UInt8 := 34

/-- `'\n'`. -/
def newline : UInt8 := 10

/-- `'\r'`. -/
def carriageReturn : UInt8 := 13

/-- The table `is_whitespace_`: a blank, a tab or a carriage return. -/
def isWhitespace (c : UInt8) : Bool := c = 32 ∨ c = 9 ∨ c = carriageReturn

/-- `CsvTokenizer`. The buffer is `buffer_[0, buffer_end_)`. -/
structure CsvTokenizer where
  /-- What has not been read from `file_`. -/
  file : Bytes
  /-- `buffer_.size()`. -/
  bufferSize : ℕ
  buffer : Bytes
  bufferPos : ℕ
  delim : UInt8
  endOfLine : Bool
  eofReached : Bool
  /-- The buffer has room for a character. -/
  bufferSize_pos : 0 < bufferSize
  deriving DecidableEq

namespace CsvTokenizer

/-- The constructor, for a file of the given content and a buffer of the given size. -/
def ofContent {bufferSize : ℕ} (h : 0 < bufferSize) (content : Bytes) (delim : UInt8) :
    CsvTokenizer :=
  ⟨content, bufferSize, [], 0, delim, false, false, h⟩

/-- `RefillBuffer`: the character read, if any. -/
def refillBuffer (t : CsvTokenizer) : Option UInt8 × CsvTokenizer :=
  if t.eofReached then (none, t)
  else
    let t :=
      { t with
        file := t.file.drop t.bufferSize
        buffer := t.file.take t.bufferSize
        bufferPos := 0 }
    match t.buffer with
    | [] => (none, { t with eofReached := true })
    | ch :: _ => (some ch, { t with bufferPos := 1 })

/-- The character at the position of the buffer, which is refilled if it is used up; the character
that `RefillBuffer` reads is given back by `--buffer_pos_`. -/
def peek (t : CsvTokenizer) : Option UInt8 × CsvTokenizer :=
  match t.buffer[t.bufferPos]? with
  | some ch => (some ch, t)
  | none =>
      match t.refillBuffer with
      | (some ch, t') => (some ch, { t' with bufferPos := t'.bufferPos - 1 })
      | (none, t') => (none, t')

/-- `buffer_pos_++`. -/
def advance (t : CsvTokenizer) : CsvTokenizer := { t with bufferPos := t.bufferPos + 1 }

/-- `ResetLineFlag`. -/
def resetLineFlag (t : CsvTokenizer) : CsvTokenizer := { t with endOfLine := false }

end CsvTokenizer

/-! ## Trailing blanks -/

/-- One turn of the loop that pops the blanks at the end of the last string. -/
def trimStep (rows : VectorOfStrings2D) : Option (Turn VectorOfStrings2D VectorOfStrings2D) :=
  if rows.emptyLastString then some (.leave rows)
  else
    (rows.data.getLast?).map fun c =>
      if isWhitespace c then .again rows.popLastChar else .leave rows

/-- The loop that pops the blanks at the end of the last string. -/
def trimLastString (rows : VectorOfStrings2D) : Option VectorOfStrings2D :=
  (turns trimStep (rows.data.length + 1) rows).bind Turn.result

/-! ## Rows -/

/-- The variables of `GetNextRow`. -/
structure RowState where
  tokenizer : CsvTokenizer
  rows : VectorOfStrings2D
  tokenStarted : Bool
  inQuotes : Bool

namespace RowState

/-- One turn of the loop of `GetNextRow`. -/
abbrev Step := Option (Turn RowState (CsvTokenizer × VectorOfStrings2D))

/-- The code after the loop: the last token, if one was started, and `end_of_line_`. -/
def finish (s : RowState) : Option (CsvTokenizer × VectorOfStrings2D) :=
  let t := { s.tokenizer with endOfLine := true }
  if s.tokenStarted ∨ ¬ s.tokenizer.eofReached then
    ((trimLastString s.rows).bind VectorOfStrings2D.endAddString).map fun rows => (t, rows)
  else some (t, s.rows)

/-- The character is appended to the token. -/
def continueToken (s : RowState) (ch : UInt8) : RowState :=
  { s with rows := s.rows.continueAddString ch }

/-- A character inside quotes: a quote followed by another is a character of the token, with the
next character looked at where the buffer may end; a carriage return is dropped. -/
def quotedStep (s : RowState) (ch : UInt8) : RowState :=
  if ch = quote then
    match s.tokenizer.peek with
    | (some next, t) =>
        if next = quote then { (s.continueToken quote) with tokenizer := t.advance }
        else { s with tokenizer := t, inQuotes := false }
    | (none, t) => { s with tokenizer := t, inQuotes := false }
  else if ch ≠ carriageReturn then s.continueToken ch
  else s

/-- A character outside quotes. -/
def plainStep (s : RowState) (ch : UInt8) : Step :=
  if ch = quote then some (.again { s with inQuotes := true })
  else if ch = s.tokenizer.delim ∨ ch = newline then
    ((trimLastString s.rows).bind VectorOfStrings2D.endAddString).map fun rows =>
      if ch = newline then .leave ({ s.tokenizer with endOfLine := true }, rows)
      else .again { s with rows := rows, tokenStarted := false }
  else if ch ≠ carriageReturn then some (.again (s.continueToken ch))
  else some (.again s)

/-- One turn of the loop of `GetNextRow`. -/
def rowStep (s : RowState) : Step :=
  match s.tokenizer.peek with
  | (none, t) => ({ s with tokenizer := t }.finish).map .leave
  | (some ch, t) =>
      let s := { s with tokenizer := t.advance }
      if ¬ s.tokenStarted ∧ ¬ s.inQuotes ∧ isWhitespace ch then some (.again s)
      else
        let s := { s with tokenStarted := true }
        if s.inQuotes then some (.again (s.quotedStep ch)) else s.plainStep ch

end RowState

namespace CsvTokenizer

/-- The text that is still to be read. -/
def unread (t : CsvTokenizer) : Bytes := t.buffer.drop t.bufferPos ++ t.file

/-- `GetNextRow(rows)`. Every turn but the last reads a character. -/
def getNextRow (t : CsvTokenizer) (rows : VectorOfStrings2D) :
    Option (CsvTokenizer × VectorOfStrings2D) :=
  (turns RowState.rowStep (t.unread.length + 1) ⟨t, rows, false, false⟩).bind Turn.result

end CsvTokenizer

end ColumnarEngine
