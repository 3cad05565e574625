import ColumnarEngine.Io.CsvTokenizer

/-!
# The tokenizer as a scan of its text

`scan` reads the fields of a row off a text, one character at a time and without a buffer: after a
quote inside quotes it waits for the next character to tell whether the quote was doubled.
`GetNextRow` reads the same fields for every size of the buffer and wherever its boundaries fall,
because all that it does depends on the text that is still unread (`getNextRow_eq`).
-/

namespace ColumnarEngine

open Found

/-! ## Scanning a text -/

/-- The text after the last character that is not a blank is dropped. -/
def trimBlanks (token : Bytes) : Bytes := token.rdropWhile isWhitespace

/-- Where a scan is: outside quotes, inside quotes, or behind a quote that was inside quotes. -/
inductive Mode
  | plain | quoted | closing
  deriving DecidableEq, Repr

/-- The fields of the rest of a row and the text after the row, `none` at the end of the text;
`token` is what has been read of the first field, if it was started. -/
def scan (delim : UInt8) : Mode → Bool → Bytes → Bytes → List Bytes × Option Bytes
  | _, started, token, [] => (if started then [trimBlanks token] else [], none)
  | mode, started, token, c :: text =>
      if mode = .quoted then
        if c = quote then scan delim .closing true token text
        else scan delim .quoted true (if c = carriageReturn then token else token ++ [c]) text
      else if ¬ started ∧ isWhitespace c then scan delim .plain false token text
      else if c = quote then
        scan delim .quoted true (if mode = .closing then token ++ [quote] else token) text
      else if c = newline then ([trimBlanks token], some text)
      else if c = delim then
        let (fields, rest) := scan delim .plain false [] text
        (trimBlanks token :: fields, rest)
      else scan delim .plain true (if c = carriageReturn then token else token ++ [c]) text

/-- The fields of the first row of a text and the text after it. -/
def firstRow (delim : UInt8) (text : Bytes) : List Bytes × Option Bytes :=
  scan delim .plain false [] text

section scan

variable {delim c : UInt8} {started : Bool} {token text : Bytes}

/-- The next character of a text that is not at its end. -/
theorem scan_cons {mode : Mode} :
    scan delim mode started token (c :: text) =
      if mode = .quoted then
        if c = quote then scan delim .closing true token text
        else scan delim .quoted true (if c = carriageReturn then token else token ++ [c]) text
      else if ¬ started ∧ isWhitespace c then scan delim .plain false token text
      else if c = quote then
        scan delim .quoted true (if mode = .closing then token ++ [quote] else token) text
      else if c = newline then ([trimBlanks token], some text)
      else if c = delim then
        (trimBlanks token :: (scan delim .plain false [] text).1,
          (scan delim .plain false [] text).2)
      else scan delim .plain true (if c = carriageReturn then token else token ++ [c]) text := rfl

theorem scan_quoted_quote :
    scan delim .quoted started token (quote :: text) = scan delim .closing true token text := by
  rw [scan_cons, if_pos rfl, if_pos rfl]

theorem scan_quoted_return :
    scan delim .quoted started token (carriageReturn :: text) =
      scan delim .quoted true token text := by
  rw [scan_cons, if_pos rfl, if_neg (by decide), if_pos rfl]

theorem scan_quoted_char (hquote : c ≠ quote) (hreturn : c ≠ carriageReturn) :
    scan delim .quoted started token (c :: text) = scan delim .quoted true (token ++ [c]) text := by
  rw [scan_cons, if_pos rfl, if_neg hquote, if_neg hreturn]

theorem scan_closing_quote :
    scan delim .closing started token (quote :: text) =
      scan delim .quoted true (token ++ [quote]) text := by
  have hblank : ¬ (¬ started ∧ isWhitespace quote) := fun h => absurd h.2 (by decide)
  rw [scan_cons, if_neg (by decide), if_neg hblank, if_pos rfl, if_pos rfl]

/-- Behind a quote that was not doubled a scan goes on as outside quotes. -/
theorem scan_closing (h : text.head? ≠ some quote) :
    scan delim .closing started token text = scan delim .plain started token text := by
  cases text with
  | nil => rfl
  | cons c text =>
      have hquote : c ≠ quote := fun hc => h (congrArg some hc)
      simp [scan_cons, hquote]

theorem scan_blank (hblank : isWhitespace c) :
    scan delim .plain false token (c :: text) = scan delim .plain false token text := by
  rw [scan_cons, if_neg (by decide), if_pos ⟨Bool.false_ne_true, hblank⟩]

theorem scan_quote :
    scan delim .plain started token (quote :: text) = scan delim .quoted true token text := by
  have hblank : ¬ (¬ started ∧ isWhitespace quote) := fun h => absurd h.2 (by decide)
  rw [scan_cons, if_neg (by decide), if_neg hblank, if_pos rfl, if_neg (by decide)]

theorem scan_newline :
    scan delim .plain started token (newline :: text) = ([trimBlanks token], some text) := by
  have hblank : ¬ (¬ started ∧ isWhitespace newline) := fun h => absurd h.2 (by decide)
  rw [scan_cons, if_neg (by decide), if_neg hblank, if_neg (by decide), if_pos rfl]

theorem scan_delim (hblank : ¬ (¬ started ∧ isWhitespace delim)) (hquote : delim ≠ quote)
    (hnewline : delim ≠ newline) :
    scan delim .plain started token (delim :: text) =
      (trimBlanks token :: (scan delim .plain false [] text).1,
        (scan delim .plain false [] text).2) := by
  rw [scan_cons, if_neg (by decide), if_neg hblank, if_neg hquote, if_neg hnewline, if_pos rfl]

theorem scan_return (hdelim : carriageReturn ≠ delim) :
    scan delim .plain true token (carriageReturn :: text) = scan delim .plain true token text := by
  rw [scan_cons, if_neg (by decide), if_neg (by simp), if_neg (by decide), if_neg (by decide),
    if_neg hdelim, if_pos rfl]

theorem scan_char (hblank : ¬ (¬ started ∧ isWhitespace c)) (hquote : c ≠ quote)
    (hnewline : c ≠ newline) (hdelim : c ≠ delim) (hreturn : c ≠ carriageReturn) :
    scan delim .plain started token (c :: text) = scan delim .plain true (token ++ [c]) text := by
  rw [scan_cons, if_neg (by decide), if_neg hblank, if_neg hquote, if_neg hnewline, if_neg hdelim,
    if_neg hreturn]

end scan

/-! ## What a tokenizer reads -/

/-- What the results of a tokenizer depend on. -/
@[ext] structure Reading where
  text : Bytes
  delim : UInt8
  endOfLine : Bool
  eofReached : Bool
  deriving DecidableEq

/-- Nothing is left to read at the end of the file. -/
def Reading.Valid (R : Reading) : Prop := R.eofReached → R.text = []

/-- A row has been read, and this text is left. -/
def Reading.afterRow (delim : UInt8) (rest : Option Bytes) : Reading :=
  ⟨rest.getD [], delim, true, rest.isNone⟩

theorem Reading.Valid.cons {R : Reading} (h : R.Valid) {c : UInt8} {rest : Bytes}
    (htext : R.text = c :: rest) : Reading.Valid { R with text := rest } :=
  fun heof => absurd (htext.symm.trans (h heof)) (List.cons_ne_nil _ _)

theorem Reading.valid_afterRow (delim : UInt8) (rest : Option Bytes) :
    (afterRow delim rest).Valid := by
  intro h
  cases rest with
  | none => rfl
  | some text => exact absurd h Bool.false_ne_true

namespace CsvTokenizer

/-- What the tokenizer still reads. -/
def reading (t : CsvTokenizer) : Reading := ⟨t.unread, t.delim, t.endOfLine, t.eofReached⟩

@[simp] theorem reading_text (t : CsvTokenizer) : t.reading.text = t.unread := rfl

@[simp] theorem reading_delim (t : CsvTokenizer) : t.reading.delim = t.delim := rfl

variable {t : CsvTokenizer}

/-- A refill takes some of the file into the buffer. -/
theorem refillBuffer_cons (heof : t.eofReached = false) {ch : UInt8} {rest : Bytes}
    (h : t.file = ch :: rest) :
    ∃ n, t.refillBuffer = (some ch, { t with
      file := rest.drop n
      buffer := ch :: rest.take n
      bufferPos := 1 }) := by
  obtain ⟨n, hn⟩ := Nat.exists_eq_succ_of_ne_zero t.bufferSize_pos.ne'
  refine ⟨n, ?_⟩
  rw [refillBuffer, if_neg (by simp [heof])]
  simp [h, hn]

/-- A refill at the end of the file. -/
theorem refillBuffer_nil (heof : t.eofReached = false) (h : t.file = []) :
    t.refillBuffer = (none, { t with
      file := []
      buffer := []
      bufferPos := 0
      eofReached := true }) := by
  rw [refillBuffer, if_neg (by simp [heof])]
  simp [h]

/-- The next character is found, in the buffer or by a refill. -/
theorem peek_cons (hv : t.reading.Valid) {ch : UInt8} {rest : Bytes} (h : t.unread = ch :: rest) :
    ∃ t', t.peek = (some ch, t') ∧ t'.reading = t.reading ∧
      t'.advance.reading = { t.reading with text := rest } := by
  cases hget : t.buffer[t.bufferPos]? with
  | some c =>
      obtain ⟨hlt, hc⟩ := List.getElem?_eq_some_iff.mp hget
      have hunread := h
      rw [unread, List.drop_eq_getElem_cons hlt, hc, List.cons_append, List.cons.injEq] at hunread
      obtain ⟨rfl, hrest⟩ := hunread
      refine ⟨t, by rw [peek, hget], rfl, ?_⟩
      rw [reading, unread, advance, hrest, reading]
  | none =>
      have hend : t.buffer.drop t.bufferPos = [] :=
        List.drop_eq_nil_of_le (List.getElem?_eq_none_iff.mp hget)
      have hfile : t.file = ch :: rest := by rw [← h, unread, hend, List.nil_append]
      have heof : t.eofReached = false := by
        rw [Bool.eq_false_iff]
        exact fun heof => absurd (h.symm.trans (hv heof)) (List.cons_ne_nil _ _)
      obtain ⟨n, hn⟩ := refillBuffer_cons heof hfile
      refine ⟨_, by rw [peek, hget, hn], ?_, ?_⟩
      · simp [reading, unread, hend, hfile]
      · simp [reading, unread, advance]

/-- At the end of the text nothing is found, and the end of the file is reached. -/
theorem peek_nil (h : t.unread = []) :
    ∃ t', t.peek = (none, t') ∧ t'.reading = { t.reading with eofReached := true } := by
  obtain ⟨hbuffer, hfile⟩ := List.append_eq_nil_iff.mp h
  have hget : t.buffer[t.bufferPos]? = none :=
    List.getElem?_eq_none (List.drop_eq_nil_iff.mp hbuffer)
  by_cases heof : t.eofReached
  · refine ⟨t, by rw [peek, hget, refillBuffer, if_pos heof], ?_⟩
    rw [reading, heof]
  · refine ⟨_, by rw [peek, hget, refillBuffer_nil (Bool.eq_false_iff.mpr heof) hfile], ?_⟩
    simp [reading, unread, hbuffer, hfile]

end CsvTokenizer

/-! ## The token being written -/

namespace VectorOfStrings2D

variable {r : VectorOfStrings2D}

/-- The offsets lie in the buffer. -/
def Wf (r : VectorOfStrings2D) : Prop := r.lastOffset ≤ r.data.length

/-- What has been written after the last string. -/
def pending (r : VectorOfStrings2D) : Bytes := r.data.drop r.lastOffset

/-- The container without what has been written after the last string. -/
def ended (r : VectorOfStrings2D) : VectorOfStrings2D :=
  { r with data := r.data.take r.lastOffset }

/-- The container with a token written after the last string. -/
def withPending (r : VectorOfStrings2D) (token : Bytes) : VectorOfStrings2D :=
  { r with data := r.data.take r.lastOffset ++ token }

theorem pending_continueAddString (h : r.Wf) (c : UInt8) :
    (r.continueAddString c).pending = r.pending ++ [c] := List.drop_append_of_le_length h

theorem ended_continueAddString (h : r.Wf) (c : UInt8) :
    (r.continueAddString c).ended = r.ended := by
  have htake : (r.data ++ [c]).take r.lastOffset = r.data.take r.lastOffset :=
    List.take_append_of_le_length h
  rw [ended, ended]
  simp only [continueAddString, lastOffset] at htake ⊢
  rw [htake]

theorem wf_continueAddString (h : r.Wf) (c : UInt8) : (r.continueAddString c).Wf :=
  le_trans h (by simp [continueAddString])

theorem withPending_pending (r : VectorOfStrings2D) : r.withPending r.pending = r := by
  rw [withPending, pending, List.take_append_drop]

/-- Nothing has been written after the last string. -/
def Settled (r : VectorOfStrings2D) : Prop := r.lastOffset = r.data.length

theorem Settled.wf (h : r.Settled) : r.Wf := Nat.le_of_eq h

theorem Settled.pending (h : r.Settled) : r.pending = [] :=
  List.drop_eq_nil_of_le (Nat.le_of_eq h.symm)

theorem Settled.ended (h : r.Settled) : r.ended = r := by
  rw [VectorOfStrings2D.ended, h, List.take_length]

theorem Wf.settled (h : r.Wf) (hpending : r.pending = []) : r.Settled :=
  le_antisymm h (List.drop_eq_nil_iff.mp hpending)

theorem settled_addString {s : Bytes} {r' : VectorOfStrings2D} (h : r.addString s = some r') :
    r'.Settled := by
  obtain ⟨sizes, -, rfl⟩ := Option.map_eq_some_iff.mp h
  simp [Settled, lastOffset]

end VectorOfStrings2D

/-- One turn of the trimming loop agrees with dropping all blanks of the token at once. -/
theorem trimStep_agrees {r : VectorOfStrings2D} (h : r.Wf) :
    TurnAgrees VectorOfStrings2D.Wf (fun r => r.data.length) id
      (fun r => some (r.withPending (trimBlanks r.pending))) r (trimStep r) := by
  by_cases hempty : r.emptyLastString
  · have hsettled : r.Settled := beq_iff_eq.mp hempty
    have hpending := r.withPending_pending
    rw [hsettled.pending] at hpending
    rw [trimStep, if_pos hempty]
    simp only [TurnAgrees, hsettled.pending, trimBlanks, List.rdropWhile_nil, hpending, id]
  · have hlt : r.lastOffset < r.data.length := by
      refine lt_of_le_of_ne h fun heq => hempty ?_
      rw [VectorOfStrings2D.emptyLastString, heq, beq_self_eq_true]
    obtain ⟨data, c, hdata⟩ := List.eq_nil_or_concat' r.data |>.resolve_left
      (List.ne_nil_of_length_pos (by omega))
    have hle : r.lastOffset ≤ data.length := by
      rw [hdata, List.length_append, List.length_singleton] at hlt
      omega
    have hlast : r.data.getLast? = some c := by rw [hdata, List.getLast?_concat]
    have hpending : r.pending = data.drop r.lastOffset ++ [c] := by
      rw [VectorOfStrings2D.pending, hdata, List.drop_append_of_le_length hle]
    rw [trimStep, if_neg hempty, hlast, Option.map_some]
    split_ifs with hblank
    · have hpop : r.popLastChar = { r with data := data } := by
        rw [VectorOfStrings2D.popLastChar, hdata, List.dropLast_concat]
      refine ⟨?_, ?_, ?_⟩
      · rw [hpop]
        exact hle
      · rw [hpop]
        simp only [hdata, List.length_append, List.length_singleton]
        exact Nat.lt_succ_self _
      · rw [hpop]
        dsimp only
        rw [hpending, trimBlanks, List.rdropWhile_concat_pos _ _ _ hblank]
        simp only [VectorOfStrings2D.withPending, hdata, List.take_append_of_le_length hle]
        rfl
    · have htrim : trimBlanks r.pending = r.pending := by
        rw [hpending, trimBlanks, List.rdropWhile_concat_neg _ _ _ hblank]
      simp only [TurnAgrees, htrim, r.withPending_pending, id]

/-- The trimming loop drops the blanks at the end of the token. -/
theorem trimLastString_eq {r : VectorOfStrings2D} (h : r.Wf) :
    trimLastString r = some (r.withPending (trimBlanks r.pending)) := by
  have hloop := turns_eq_of_agrees (fun s => trimStep_agrees) h (Nat.lt_succ_self r.data.length)
  rwa [Option.map_id] at hloop

/-- Ending a string adds what has been written after the last string. -/
theorem VectorOfStrings2D.endAddString_withPending {r : VectorOfStrings2D} (h : r.Wf)
    (token : Bytes) : (r.withPending token).endAddString = r.ended.addString token := by
  have hlen : (r.data.take r.lastOffset).length = r.lastOffset := List.length_take_of_le h
  rw [endAddString, addString]
  simp only [withPending, ended, lastOffset, addSize, List.length_append] at hlen ⊢
  rw [hlen, Nat.add_sub_cancel_left]
  rfl

/-- Trimming and ending a string adds the trimmed token to what was there before it. -/
theorem endToken_eq {r : VectorOfStrings2D} (h : r.Wf) :
    (trimLastString r).bind VectorOfStrings2D.endAddString =
      r.ended.addString (trimBlanks r.pending) := by
  rw [trimLastString_eq h, Option.bind_some, VectorOfStrings2D.endAddString_withPending h]

/-! ## The loop of `GetNextRow` -/

/-- The fields of a row are added to a container, and the text after the row is left. -/
def addRow (delim : UInt8) (rows : VectorOfStrings2D) (row : List Bytes × Option Bytes) :
    Option (Reading × VectorOfStrings2D) :=
  (row.1.foldlM VectorOfStrings2D.addString rows).map fun rows => (.afterRow delim row.2, rows)

namespace RowState

/-- The mode of a state between two turns. -/
def mode (s : RowState) : Mode := if s.inQuotes then .quoted else .plain

/-- What the loop comes to from a state. -/
def outcome (s : RowState) : Option (Reading × VectorOfStrings2D) :=
  addRow s.tokenizer.delim s.rows.ended
    (scan s.tokenizer.delim s.mode s.tokenStarted s.rows.pending s.tokenizer.unread)

/-- What holds between two turns. -/
structure Valid (s : RowState) : Prop where
  reading : s.tokenizer.reading.Valid
  rows : s.rows.Wf
  idle : s.tokenStarted = false → s.inQuotes = false ∧ s.rows.pending = []

/-- The characters that are still to be read. -/
def size (s : RowState) : ℕ := s.tokenizer.unread.length

/-- What is seen of a result. -/
def see (result : CsvTokenizer × VectorOfStrings2D) : Reading × VectorOfStrings2D :=
  (result.1.reading, result.2)

/-- `outcome` agrees with a turn. -/
abbrev Agrees (s : RowState) : Step → Prop := TurnAgrees Valid size see outcome s

variable {s : RowState}

/-- The code after the loop, which is only left at the end of the file. -/
theorem finish_eq (h : s.rows.Wf) (heof : s.tokenizer.eofReached) :
    s.finish = (if s.tokenStarted then s.rows.ended.addString (trimBlanks s.rows.pending)
      else some s.rows).map fun rows => ({ s.tokenizer with endOfLine := true }, rows) := by
  rw [finish]
  by_cases hstarted : s.tokenStarted = true
  · rw [if_pos (Or.inl hstarted), if_pos hstarted, endToken_eq h]
  · rw [if_neg (by simp [hstarted, heof]), if_neg hstarted, Option.map_some]

/-- At the end of the text the loop is left with the last token. -/
theorem rowStep_nil (hs : s.Valid) (h : s.tokenizer.unread = []) : s.Agrees s.rowStep := by
  obtain ⟨t, hpeek, hreading⟩ := CsvTokenizer.peek_nil h
  have heof : t.eofReached = true := congrArg Reading.eofReached hreading
  have hafter : ({ t with endOfLine := true } : CsvTokenizer).reading =
      .afterRow s.tokenizer.delim none :=
    Reading.ext ((congrArg Reading.text hreading).trans h) (congrArg Reading.delim hreading :) rfl
      heof
  rw [rowStep, hpeek]
  apply turnAgrees_leave
  rw [finish_eq (s := { s with tokenizer := t }) hs.rows heof, outcome, addRow, h, scan]
  simp only [Option.map_map, Function.comp_def, see, hafter]
  congr 1
  cases hstarted : s.tokenStarted with
  | true => simp
  | false =>
      have hsettled := hs.rows.settled (hs.idle hstarted).2
      simp [hsettled.ended]

/-- The state after a character that was read. -/
theorem rowStep_cons (hs : s.Valid) {ch : UInt8} {rest : Bytes}
    (h : s.tokenizer.unread = ch :: rest) :
    ∃ t, t.reading = { s.tokenizer.reading with text := rest } ∧
      s.rowStep =
        if ¬ s.tokenStarted ∧ ¬ s.inQuotes ∧ isWhitespace ch then
          some (.again { s with tokenizer := t })
        else if s.inQuotes then
          some (.again (quotedStep { s with tokenizer := t, tokenStarted := true } ch))
        else plainStep { s with tokenizer := t, tokenStarted := true } ch := by
  obtain ⟨t, hpeek, -, hadvance⟩ := CsvTokenizer.peek_cons hs.reading h
  refine ⟨t.advance, hadvance, ?_⟩
  rw [rowStep, hpeek]

/-- What a token goes on with: the same text, a longer token. -/
theorem outcome_continueToken (hs : s.rows.Wf) (ch : UInt8) :
    (s.continueToken ch).outcome = addRow s.tokenizer.delim s.rows.ended
      (scan s.tokenizer.delim s.mode s.tokenStarted (s.rows.pending ++ [ch])
        s.tokenizer.unread) := by
  rw [← s.rows.pending_continueAddString hs, ← s.rows.ended_continueAddString hs ch]
  rfl

theorem valid_continueToken (hs : s.Valid) (hstarted : s.tokenStarted = true) (ch : UInt8) :
    (s.continueToken ch).Valid :=
  ⟨hs.reading, s.rows.wf_continueAddString hs.rows ch,
    fun h => absurd (hstarted.symm.trans h) (by decide)⟩

/-- The state between two turns only matters through what its tokenizer reads. -/
theorem outcome_withTokenizer {t : CsvTokenizer} {R : Reading} (h : t.reading = R) :
    outcome { s with tokenizer := t } =
      addRow R.delim s.rows.ended (scan R.delim s.mode s.tokenStarted s.rows.pending R.text) := by
  subst h
  rfl

/-- A character inside quotes. -/
theorem quotedStep_agrees (hs : s.Valid) (hquotes : s.inQuotes = true)
    (hstarted : s.tokenStarted = true) (ch : UInt8) :
    Valid (s.quotedStep ch) ∧ (s.quotedStep ch).size ≤ s.size ∧
      addRow s.tokenizer.delim s.rows.ended
        (scan s.tokenizer.delim .quoted true s.rows.pending (ch :: s.tokenizer.unread)) =
        (s.quotedStep ch).outcome := by
  have hmode : s.mode = .quoted := if_pos hquotes
  have hidle : s.tokenStarted ≠ false := by rw [hstarted]; decide
  rw [quotedStep]
  split_ifs with hquote hreturn
  · rw [hquote, scan_quoted_quote]
    cases hrest : s.tokenizer.unread with
    | nil =>
        obtain ⟨t, hpeek, hreading⟩ := CsvTokenizer.peek_nil hrest
        have hunread : t.unread = [] := (congrArg Reading.text hreading).trans hrest
        rw [hpeek]
        refine ⟨⟨fun _ => hunread, hs.rows, fun h => absurd h hidle⟩, ?_, ?_⟩
        · simp [size, hunread]
        · rw [outcome_withTokenizer (s := { s with inQuotes := false }) hreading, hstarted,
            scan_closing (by simp)]
          exact congrArg (fun text => addRow s.tokenizer.delim s.rows.ended
            (scan s.tokenizer.delim .plain true s.rows.pending text)) hrest.symm
    | cons next rest =>
        obtain ⟨t, hpeek, hreading, hadvance⟩ := CsvTokenizer.peek_cons hs.reading hrest
        rw [hpeek]
        dsimp only
        split_ifs with hnext
        · have hread := hs.reading.cons hrest
          refine ⟨⟨hadvance ▸ hread, s.rows.wf_continueAddString hs.rows quote,
            fun h => absurd h hidle⟩, ?_, ?_⟩
          · rw [size, size, ← CsvTokenizer.reading_text, hadvance, hrest]
            exact Nat.le_succ _
          · rw [outcome_withTokenizer (s := s.continueToken quote) hadvance, hnext,
              scan_closing_quote, ← s.rows.pending_continueAddString hs.rows,
              ← s.rows.ended_continueAddString hs.rows quote]
            simp only [continueToken, mode, hquotes, hstarted, if_true]
            rfl
        · refine ⟨⟨hreading ▸ hs.reading, hs.rows, fun h => absurd h hidle⟩, ?_, ?_⟩
          · rw [size, size, ← CsvTokenizer.reading_text, hreading, CsvTokenizer.reading_text]
          · rw [outcome_withTokenizer (s := { s with inQuotes := false }) hreading, hstarted,
              scan_closing (by simpa using hnext), ← hrest]
            rfl
  · have hagain := outcome_continueToken hs.rows ch
    rw [hmode, hstarted] at hagain
    rw [scan_quoted_char hquote hreturn, hagain]
    exact ⟨valid_continueToken hs hstarted ch, le_rfl, rfl⟩
  · rw [not_not.mp hreturn, scan_quoted_return, outcome, hmode, hstarted]
    exact ⟨hs, le_rfl, rfl⟩

/-- A newline ends the token and the row. -/
theorem agrees_newline {s₀ : RowState} (hs : s.rows.Wf) (heof : s.tokenizer.eofReached = false)
    (hrow : s₀.outcome = addRow s.tokenizer.delim s.rows.ended
      ([trimBlanks s.rows.pending], some s.tokenizer.unread)) :
    s₀.Agrees (((trimLastString s.rows).bind VectorOfStrings2D.endAddString).map fun rows =>
      .leave ({ s.tokenizer with endOfLine := true }, rows)) := by
  have hafter : ({ s.tokenizer with endOfLine := true } : CsvTokenizer).reading =
      .afterRow s.tokenizer.delim (some s.tokenizer.unread) := Reading.ext rfl rfl rfl heof
  rw [endToken_eq hs]
  rw [addRow, List.foldlM_cons] at hrow
  cases hadd : s.rows.ended.addString (trimBlanks s.rows.pending) with
  | none => rwa [hadd] at hrow
  | some rows =>
      rw [hadd] at hrow
      exact hrow.trans (congrArg (fun R => some (R, rows)) hafter.symm)

/-- A delimiter ends the token, and the row goes on. -/
theorem agrees_delim {s₀ : RowState} {row : List Bytes × Option Bytes} (hs : s.Valid)
    (hquotes : s.inQuotes = false) (hsize : s.size < s₀.size)
    (hscan : row = scan s.tokenizer.delim .plain false [] s.tokenizer.unread)
    (hrow : s₀.outcome = addRow s.tokenizer.delim s.rows.ended
      (trimBlanks s.rows.pending :: row.1, row.2)) :
    s₀.Agrees (((trimLastString s.rows).bind VectorOfStrings2D.endAddString).map fun rows =>
      .again { s with rows := rows, tokenStarted := false }) := by
  rw [endToken_eq hs.rows]
  rw [addRow, List.foldlM_cons] at hrow
  cases hadd : s.rows.ended.addString (trimBlanks s.rows.pending) with
  | none => rwa [hadd] at hrow
  | some rows =>
      rw [hadd] at hrow
      have hsettled := VectorOfStrings2D.settled_addString hadd
      refine ⟨⟨hs.reading, hsettled.wf, fun _ => ⟨hquotes, hsettled.pending⟩⟩, hsize, hrow.trans ?_⟩
      rw [outcome, mode, hquotes, hsettled.ended, hsettled.pending, hscan]
      rfl

/-- A character outside quotes. -/
theorem plainStep_agrees {s₀ : RowState} {started : Bool} {ch : UInt8} (hs : s.Valid)
    (hquotes : s.inQuotes = false) (hstarted : s.tokenStarted = true)
    (heof : s.tokenizer.eofReached = false) (hsize : s.size < s₀.size)
    (hblank : ¬ (¬ started ∧ isWhitespace ch))
    (hrow : s₀.outcome = addRow s.tokenizer.delim s.rows.ended
      (scan s.tokenizer.delim .plain started s.rows.pending (ch :: s.tokenizer.unread))) :
    s₀.Agrees (s.plainStep ch) := by
  have hmode : s.mode = .plain := if_neg (by simp [hquotes])
  have hidle : s.tokenStarted ≠ false := by rw [hstarted]; decide
  rw [plainStep]
  by_cases hquote : ch = quote
  · rw [if_pos hquote]
    refine ⟨⟨hs.reading, hs.rows, fun h => absurd h hidle⟩, hsize, ?_⟩
    rw [hrow, hquote, scan_quote, outcome, hstarted]
    rfl
  rw [if_neg hquote]
  by_cases hnewline : ch = newline
  · simp only [hnewline, or_true, if_true]
    apply agrees_newline hs.rows heof
    rw [hrow, hnewline, scan_newline]
  by_cases hdelim : ch = s.tokenizer.delim
  · simp only [hdelim ▸ hnewline, hdelim, true_or, if_true, if_false]
    apply agrees_delim hs hquotes hsize rfl
    rw [hrow, hdelim, scan_delim (hdelim ▸ hblank) (hdelim ▸ hquote) (hdelim ▸ hnewline)]
  rw [if_neg (not_or.mpr ⟨hdelim, hnewline⟩)]
  split_ifs with hreturn
  · refine ⟨valid_continueToken hs hstarted ch, hsize, ?_⟩
    rw [hrow, outcome_continueToken hs.rows, hmode, hstarted,
      scan_char hblank hquote hnewline hdelim hreturn]
  · have hch : ch = carriageReturn := not_not.mp hreturn
    have hwhite : started = true := by
      by_contra h
      exact hblank ⟨h, by rw [hch]; decide⟩
    refine ⟨hs, hsize, ?_⟩
    rw [hrow, hwhite, hch, scan_return (hch ▸ hdelim), outcome, hmode, hstarted]

/-- **The body of `GetNextRow`** agrees with the scan of the text that is still unread. -/
theorem rowStep_agrees (hs : s.Valid) : s.Agrees s.rowStep := by
  cases hunread : s.tokenizer.unread with
  | nil => exact rowStep_nil hs hunread
  | cons ch rest =>
      obtain ⟨t, hreading, hstep⟩ := rowStep_cons hs hunread
      have hvalid : t.reading.Valid := hreading ▸ hs.reading.cons hunread
      have hrest : t.unread = rest := congrArg Reading.text hreading
      have hdelim : t.delim = s.tokenizer.delim := congrArg Reading.delim hreading
      have hsize : t.unread.length < s.size := by
        rw [size, hunread, hrest]
        exact Nat.lt_succ_self _
      have houtcome : s.outcome = addRow t.delim s.rows.ended
          (scan t.delim s.mode s.tokenStarted s.rows.pending (ch :: t.unread)) := by
        rw [outcome, hunread, hrest, hdelim]
      have hread : Valid { s with tokenizer := t, tokenStarted := true } :=
        ⟨hvalid, hs.rows, fun h => Bool.noConfusion h⟩
      rw [hstep]
      split_ifs with hskip hquotes
      · obtain ⟨hstarted, hplain, hblank⟩ := hskip
        rw [Bool.not_eq_true] at hstarted hplain
        refine ⟨⟨hvalid, hs.rows, hs.idle⟩, hsize, ?_⟩
        rw [houtcome, mode, hplain, hstarted]
        exact congrArg _ (scan_blank hblank)
      · have hstarted : s.tokenStarted = true := by
          by_contra h
          have hidle := (hs.idle (Bool.eq_false_iff.mpr h)).1
          exact absurd (hquotes.symm.trans hidle) (by decide)
        obtain ⟨hvalid', hsize', heq⟩ := quotedStep_agrees hread hquotes rfl ch
        refine ⟨hvalid', lt_of_le_of_lt hsize' hsize, ?_⟩
        rw [← heq, houtcome, mode, if_pos hquotes, hstarted]
      · rw [Bool.not_eq_true] at hquotes
        have heof : t.eofReached = false := by
          have heof : t.eofReached = s.tokenizer.eofReached := congrArg Reading.eofReached hreading
          rw [heof, Bool.eq_false_iff]
          exact fun h => absurd (hunread.symm.trans (hs.reading h)) (List.cons_ne_nil _ _)
        have hblank : ¬ (¬ s.tokenStarted ∧ isWhitespace ch) :=
          fun h => hskip ⟨h.1, by simp [hquotes], h.2⟩
        apply plainStep_agrees hread hquotes rfl heof hsize hblank
        rw [houtcome, mode, hquotes]
        rfl

end RowState

namespace CsvTokenizer

variable {t : CsvTokenizer} {rows : VectorOfStrings2D}

theorem valid_ofContent {bufferSize : ℕ} (h : 0 < bufferSize) (content : Bytes) (delim : UInt8) :
    (ofContent h content delim).reading.Valid := fun heof => Bool.noConfusion heof

theorem valid_start (ht : t.reading.Valid) (hrows : rows.Settled) :
    RowState.Valid ⟨t, rows, false, false⟩ :=
  ⟨ht, hrows.wf, fun _ => ⟨rfl, hrows.pending⟩⟩

/-- **The loop of `GetNextRow` ends**, by a result or an index out of range. -/
theorem turns_rowStep_ne_again (ht : t.reading.Valid) (hrows : rows.Settled) {n : ℕ}
    (hn : t.unread.length < n) (s : RowState) :
    turns RowState.rowStep n ⟨t, rows, false, false⟩ ≠ some (.again s) :=
  turns_ne_again (fun _ => RowState.rowStep_agrees) (valid_start ht hrows) hn s

/-- **`GetNextRow`** adds the fields that a scan of the unread text finds. -/
theorem getNextRow_eq (ht : t.reading.Valid) (hrows : rows.Settled) :
    (t.getNextRow rows).map RowState.see = addRow t.delim rows (firstRow t.delim t.unread) := by
  have hloop := turns_eq_of_agrees (fun _ => RowState.rowStep_agrees) (valid_start ht hrows)
    (Nat.lt_succ_self t.unread.length)
  rw [getNextRow, hloop, RowState.outcome, RowState.mode, hrows.ended, hrows.pending]
  rfl

end CsvTokenizer

end ColumnarEngine
