import ColumnarEngine.Io.CsvReader

/-!
# The rows of a CSV text

`Tokenizes` and `Delivers` are what a caller gets: the rows of successive calls of `GetNextRow`, or
of `ReadRow`, each on a cleared container, up to the end of the file. `RowsOf` finds the same rows
by scanning the text row by row (`tokenizes_iff`, `delivers_iff`).
-/

namespace ColumnarEngine

open Found

/-- The strings of a container, in order. -/
def VectorOfStrings2D.strings (r : VectorOfStrings2D) : Option (List Bytes) :=
  (List.range (r.offsets.length - 1)).mapM r.getString

/-- Successive calls of `GetNextRow` return the rows, and the call after the last of them finds no
field and the end of the file. -/
inductive Tokenizes : CsvTokenizer → List (List Bytes) → Prop
  | done {t t' : CsvTokenizer} {r : VectorOfStrings2D} (h : t.getNextRow .empty = some (t', r))
      (hfields : r.strings = some []) (heof : t'.eofReached = true) : Tokenizes t []
  | row {t t' : CsvTokenizer} {r : VectorOfStrings2D} {fields : List Bytes}
      {rows : List (List Bytes)} (h : t.getNextRow .empty = some (t', r))
      (hfields : r.strings = some fields) (hne : fields ≠ []) (hrest : Tokenizes t' rows) :
      Tokenizes t (fields :: rows)

/-- Successive calls of `ReadRow` have the results, rows or exceptions, and the call after the last
of them returns false. -/
inductive Delivers : CsvReader → List (Except Bytes (List Bytes)) → Prop
  | done {reader reader' : CsvReader} {r : VectorOfStrings2D}
      (h : reader.readRow .empty = some (.ok false, reader', r)) : Delivers reader []
  | row {reader reader' : CsvReader} {r : VectorOfStrings2D} {fields : List Bytes}
      {results : List (Except Bytes (List Bytes))}
      (h : reader.readRow .empty = some (.ok true, reader', r))
      (hfields : r.strings = some fields) (hrest : Delivers reader' results) :
      Delivers reader (.ok fields :: results)
  | mismatch {reader reader' : CsvReader} {r : VectorOfStrings2D} {text : Bytes}
      {results : List (Except Bytes (List Bytes))}
      (h : reader.readRow .empty = some (.error text, reader', r))
      (hrest : Delivers reader' results) : Delivers reader (.error text :: results)

/-- The rows of a text, each scanned off what the ones before it leave. -/
inductive RowsOf (delim : UInt8) : Bytes → List (List Bytes) → Prop
  | done {text : Bytes} (h : firstRow delim text = ([], none)) : RowsOf delim text []
  | row {text : Bytes} {rows : List (List Bytes)} (hne : (firstRow delim text).1 ≠ [])
      (hrest : RowsOf delim ((firstRow delim text).2.getD []) rows) :
      RowsOf delim text ((firstRow delim text).1 :: rows)

variable {delim : UInt8}

/-! ## One character of a scan -/

/-- What one character does to a scan. -/
inductive ScanStep (delim : UInt8) (mode : Mode) (started : Bool) (token : Bytes) (c : UInt8) : Prop
  | again (mode' : Mode) (started' : Bool) (token' : Bytes)
      (next : ∀ text, scan delim mode started token (c :: text) =
        scan delim mode' started' token' text)
      (idle : started' = false → mode' = .plain)
      (kept : started' = false → token' = token)
      (quotes : mode' = .quoted ↔ (mode = .quoted ↔ c ≠ quote))
      (shows : started' = (started || !isWhitespace c))
      (inside : mode = .quoted ∨ c = quote ∨ c ≠ newline ∧ (c = delim → started' = false))
  | endOfRow (plain : mode ≠ .quoted) (isNewline : c = newline)
      (next : ∀ text, scan delim mode started token (c :: text) = ([trimBlanks token], some text))
  | endOfField (plain : mode ≠ .quoted) (isDelim : c = delim) (noQuote : c ≠ quote)
      (next : ∀ text, scan delim mode started token (c :: text) =
        (trimBlanks token :: (scan delim .plain false [] text).1,
          (scan delim .plain false [] text).2))

/-- A character inside quotes. -/
theorem scanStep_quoted {started : Bool} (h : started = true) (token : Bytes) (c : UInt8) :
    ScanStep delim .quoted started token c := by
  subst h
  by_cases hquote : c = quote
  · subst hquote
    exact .again .closing true token (fun _ => scan_quoted_quote) (fun h => Bool.noConfusion h)
      (fun _ => rfl) (by simp) (by simp) (.inl rfl)
  by_cases hreturn : c = carriageReturn
  · subst hreturn
    exact .again .quoted true token (fun _ => scan_quoted_return) (fun h => Bool.noConfusion h)
      (fun _ => rfl) (by simp [hquote]) (by simp) (.inl rfl)
  · exact .again .quoted true (token ++ [c]) (fun _ => scan_quoted_char hquote hreturn)
      (fun h => Bool.noConfusion h) (fun h => Bool.noConfusion h) (by simp [hquote]) (by simp)
      (.inl rfl)

/-- A character outside quotes. -/
theorem scanStep_plain (started : Bool) (token : Bytes) (c : UInt8) :
    ScanStep delim .plain started token c := by
  by_cases hblank : ¬ started ∧ isWhitespace c
  · obtain ⟨hstarted, hwhite⟩ := hblank
    obtain rfl : started = false := Bool.eq_false_iff.mpr hstarted
    have hquote : c ≠ quote := by
      rintro rfl
      exact absurd hwhite (by decide)
    have hnewline : c ≠ newline := by
      rintro rfl
      exact absurd hwhite (by decide)
    exact .again .plain false token (fun _ => scan_blank hwhite) (fun _ => rfl) (fun _ => rfl)
      (by simp [hquote]) (by simp [hwhite]) (.inr (.inr ⟨hnewline, fun _ => rfl⟩))
  have hshows : (started || !isWhitespace c) = true := by
    cases started <;> simp_all
  by_cases hquote : c = quote
  · subst hquote
    exact .again .quoted true token (fun _ => scan_quote) (fun h => Bool.noConfusion h)
      (fun _ => rfl) (by simp) hshows.symm (.inr (.inl rfl))
  by_cases hnewline : c = newline
  · subst hnewline
    exact .endOfRow (by decide) rfl fun _ => scan_newline
  by_cases hdelim : c = delim
  · subst hdelim
    exact .endOfField (by decide) rfl hquote fun _ => scan_delim hblank hquote hnewline
  by_cases hreturn : c = carriageReturn
  · subst hreturn
    have hstarted : started = true := by
      cases started with
      | true => rfl
      | false => exact absurd ⟨Bool.false_ne_true, by decide⟩ hblank
    subst hstarted
    exact .again .plain true token (fun _ => scan_return hdelim) (fun h => Bool.noConfusion h)
      (fun _ => rfl) (by simp [hquote]) hshows.symm
      (.inr (.inr ⟨hnewline, fun h => absurd h hdelim⟩))
  · exact .again .plain true (token ++ [c])
      (fun _ => scan_char hblank hquote hnewline hdelim hreturn) (fun h => Bool.noConfusion h)
      (fun h => Bool.noConfusion h) (by simp [hquote]) hshows.symm
      (.inr (.inr ⟨hnewline, fun h => absurd h hdelim⟩))

/-- A character behind a quote that was inside quotes. -/
theorem scanStep_closing {started : Bool} (h : started = true) (token : Bytes) (c : UInt8) :
    ScanStep delim .closing started token c := by
  subst h
  by_cases hquote : c = quote
  · subst hquote
    exact .again .quoted true (token ++ [quote]) (fun _ => scan_closing_quote)
      (fun h => Bool.noConfusion h) (fun h => Bool.noConfusion h) (by simp) (by simp)
      (.inr (.inl rfl))
  have hplain : ∀ text, scan delim .closing true token (c :: text) =
      scan delim .plain true token (c :: text) := fun _ => scan_closing (by simpa using hquote)
  cases @scanStep_plain delim true token c with
  | again mode' started' token' next idle kept quotes shows inside =>
      exact .again mode' started' token' (fun text => (hplain text).trans (next text)) idle kept
        (by simpa using quotes) shows (inside.imp_left fun h => absurd h (by decide))
  | endOfRow plain isNewline next =>
      exact .endOfRow (by decide) isNewline fun text => (hplain text).trans (next text)
  | endOfField plain isDelim noQuote next =>
      exact .endOfField (by decide) isDelim noQuote fun text => (hplain text).trans (next text)

/-- **One character of a scan**, where a token is started inside and behind quotes. -/
theorem scan_step {mode : Mode} {started : Bool} (idle : started = false → mode = .plain)
    (token : Bytes) (c : UInt8) : ScanStep delim mode started token c := by
  have hstarted : mode ≠ .plain → started = true := fun h =>
    Bool.of_not_eq_false fun hfalse => h (idle hfalse)
  cases mode with
  | plain => exact scanStep_plain started token c
  | quoted => exact scanStep_quoted (hstarted (by decide)) token c
  | closing => exact scanStep_closing (hstarted (by decide)) token c

/-! ## Scanning row by row -/

/-- A row that ends before the text does ends at a newline, and has a field. -/
theorem scan_eq_some {mode : Mode} {started : Bool} (idle : started = false → mode = .plain)
    {token text rest : Bytes} (h : (scan delim mode started token text).2 = some rest) :
    (∃ row, text = row ++ newline :: rest) ∧ (scan delim mode started token text).1 ≠ [] := by
  induction text generalizing mode started token with
  | nil => simp [scan] at h
  | cons c text ih =>
      cases @scan_step delim _ _ idle token c with
      | again mode' started' token' next idle' =>
          rw [next] at h ⊢
          obtain ⟨⟨row, rfl⟩, hne⟩ := ih idle' h
          exact ⟨⟨c :: row, rfl⟩, hne⟩
      | endOfRow plain isNewline next =>
          rw [next] at h ⊢
          obtain rfl := Option.some.inj h
          exact ⟨⟨[], by rw [isNewline]; rfl⟩, List.cons_ne_nil _ _⟩
      | endOfField plain isDelim noQuote next =>
          rw [next] at h ⊢
          obtain ⟨⟨row, rfl⟩, -⟩ := ih (fun _ => rfl) h
          exact ⟨⟨c :: row, rfl⟩, List.cons_ne_nil _ _⟩

/-- A row without a field ends with the text. -/
theorem firstRow_eq {text : Bytes} (h : (firstRow delim text).1 = []) :
    firstRow delim text = ([], none) := by
  cases hrest : (firstRow delim text).2 with
  | none => exact Prod.ext h hrest
  | some rest => exact absurd h (scan_eq_some (fun _ => rfl) hrest).2

/-- Every row with a field shortens the text. -/
theorem length_rest_lt {text : Bytes} (h : (firstRow delim text).1 ≠ []) :
    ((firstRow delim text).2.getD []).length < text.length := by
  cases hrest : (firstRow delim text).2 with
  | none =>
      apply List.length_pos_of_ne_nil
      rintro rfl
      exact h rfl
  | some rest =>
      obtain ⟨row, rfl⟩ := (scan_eq_some (fun _ => rfl) hrest).1
      rw [Option.getD_some, List.length_append, List.length_cons]
      omega

/-- Every text has rows. -/
theorem exists_rowsOf (delim : UInt8) (text : Bytes) : ∃ rows, RowsOf delim text rows := by
  induction hlen : text.length using Nat.strong_induction_on generalizing text with
  | _ n ih =>
      by_cases h : (firstRow delim text).1 = []
      · exact ⟨[], .done (firstRow_eq h)⟩
      · obtain ⟨rows, hrows⟩ := ih _ (hlen ▸ length_rest_lt h) _ rfl
        exact ⟨_, .row h hrows⟩

/-- A text has one list of rows. -/
theorem RowsOf.unique {text : Bytes} {rows rows' : List (List Bytes)} (h : RowsOf delim text rows)
    (h' : RowsOf delim text rows') : rows = rows' := by
  induction h generalizing rows' with
  | done h =>
      cases h' with
      | done h' => rfl
      | row hne hrest => exact absurd (congrArg Prod.fst h) hne
  | row hne hrest ih =>
      cases h' with
      | done h' => exact absurd (congrArg Prod.fst h') hne
      | row hne' hrest' => rw [ih hrest']

theorem rowsOf_nil : RowsOf delim [] [] := .done rfl

/-- Every row has a field. -/
theorem RowsOf.ne_nil {text : Bytes} {rows : List (List Bytes)} (h : RowsOf delim text rows) :
    ∀ row ∈ rows, row ≠ [] := by
  induction h with
  | done h => simp
  | row hne hrest ih => exact List.forall_mem_cons.mpr ⟨hne, ih⟩

/-- The first row, if there is one, is what a scan finds first. -/
theorem RowsOf.firstRow_fields {text : Bytes} {rows : List (List Bytes)}
    (h : RowsOf delim text rows) : (firstRow delim text).1 = rows.headD [] := by
  cases h with
  | done hfirst => exact congrArg Prod.fst hfirst
  | row hne hrest => rfl

/-- A text has no more rows than characters. -/
theorem RowsOf.length_le {text : Bytes} {rows : List (List Bytes)} (h : RowsOf delim text rows) :
    rows.length ≤ text.length := by
  induction h with
  | done h => exact Nat.zero_le _
  | row hne hrest ih =>
      have hlt := length_rest_lt hne
      rw [List.length_cons]
      omega

/-- The rows of a text whose first row ends before the text does. -/
theorem rowsOf_iff_of_some {text rest : Bytes} {fields : List Bytes}
    (h : firstRow delim text = (fields, some rest)) {rows : List (List Bytes)} :
    RowsOf delim text rows ↔ ∃ rows', rows = fields :: rows' ∧ RowsOf delim rest rows' := by
  have hsome : (firstRow delim text).2 = some rest := congrArg Prod.snd h
  constructor
  · intro hrows
    cases hrows with
    | done hfirst => exact absurd (hsome.symm.trans (congrArg Prod.snd hfirst)) (by simp)
    | row hne hrest =>
        rw [hsome] at hrest
        exact ⟨_, congrArg (· :: _) (congrArg Prod.fst h), hrest⟩
  · rintro ⟨rows', rfl, hrest⟩
    have hrest' : RowsOf delim ((firstRow delim text).2.getD []) rows' := by
      rw [hsome]
      exact hrest
    have hrow := RowsOf.row (scan_eq_some (fun _ => rfl) hsome).2 hrest'
    rwa [h] at hrow

/-! ## What callers get -/

namespace VectorOfStrings2D

/-- The strings of a container with one line. -/
theorem Holds.strings_eq {r : VectorOfStrings2D} {fields : List Bytes} (h : r.Holds [] fields) :
    r.strings = some fields := by
  have hget : ∀ i, r.getString i = fields[i]? := h.getString_eq
  have hlen : r.offsets.length - 1 = fields.length := by
    rw [h.offsets, length_offsetsOf]
    rfl
  rw [strings, hlen, show r.getString = fun i => fields[i]? from funext hget]
  exact mapM_getElem?_range fields

end VectorOfStrings2D

namespace CsvTokenizer

variable {t : CsvTokenizer}

/-- A call of `GetNextRow` at the start of a line adds the fields that a scan finds, which must fit
below the first line. -/
theorem getNextRow_holds (ht : t.reading.Valid) {r : VectorOfStrings2D} {rows : List (List Bytes)}
    (h : r.Holds rows [])
    (hwidth : rows ≠ [] → (firstRow t.delim t.unread).1.length ≤ (rows.headD []).length) :
    ∃ t' r', t.getNextRow r = some (t', r') ∧
      t'.reading = .afterRow t.delim (firstRow t.delim t.unread).2 ∧
      r'.Holds rows (firstRow t.delim t.unread).1 := by
  obtain ⟨r', hr', hholds⟩ := h.addStrings fun hrows => (Nat.zero_add _).trans_le (hwidth hrows)
  have hsome := getNextRow_eq ht h.lastOffset_eq
  rw [addRow, hr', Option.map_some] at hsome
  obtain ⟨⟨t', r₁⟩, hnext, hsee⟩ := Option.map_eq_some_iff.mp hsome
  obtain ⟨hreading, rfl⟩ := Prod.mk.inj hsee
  exact ⟨t', r₁, hnext, hreading, hholds⟩

/-- A row longer than the first line is written out of range. -/
theorem getNextRow_eq_none (ht : t.reading.Valid) {r : VectorOfStrings2D}
    {rows : List (List Bytes)} (h : r.Holds rows []) (hrows : rows ≠ [])
    (hwidth : (rows.headD []).length < (firstRow t.delim t.unread).1.length) :
    t.getNextRow r = none := by
  have hadd := h.addStrings_eq_none hrows (Nat.zero_le _) (hwidth.trans_eq (Nat.zero_add _).symm)
  have hnone := getNextRow_eq ht h.lastOffset_eq
  rw [addRow, hadd, Option.map_none] at hnone
  exact Option.map_eq_none_iff.mp hnone

/-- A call of `GetNextRow` on a cleared container returns the fields that a scan finds. -/
theorem getNextRow_empty (ht : t.reading.Valid) :
    ∃ t' r, t.getNextRow .empty = some (t', r) ∧
      t'.reading = .afterRow t.delim (firstRow t.delim t.unread).2 ∧
      r.Holds [] (firstRow t.delim t.unread).1 :=
  t.getNextRow_holds ht VectorOfStrings2D.holds_empty fun h => absurd rfl h

end CsvTokenizer

/-- **`GetNextRow`**: successive calls return the rows of the unread text, and no others. -/
theorem tokenizes_iff {t : CsvTokenizer} (ht : t.reading.Valid) {rows : List (List Bytes)} :
    Tokenizes t rows ↔ RowsOf t.delim t.unread rows := by
  constructor
  · intro h
    induction h with
    | @done t t' r hnext hfields heof =>
        obtain ⟨t₁, r₁, hnext₁, hreading, hholds⟩ := t.getNextRow_empty ht
        obtain ⟨rfl, rfl⟩ := Prod.mk.inj (Option.some.inj (hnext.symm.trans hnext₁))
        exact .done (firstRow_eq (Option.some.inj (hholds.strings_eq.symm.trans hfields)))
    | @row t t' r fields rows hnext hfields hne hrest ih =>
        obtain ⟨t₁, r₁, hnext₁, hreading, hholds⟩ := t.getNextRow_empty ht
        obtain ⟨rfl, rfl⟩ := Prod.mk.inj (Option.some.inj (hnext.symm.trans hnext₁))
        obtain rfl := Option.some.inj (hholds.strings_eq.symm.trans hfields)
        have hrows := ih (hreading ▸ Reading.valid_afterRow _ _)
        rw [← CsvTokenizer.reading_delim, ← CsvTokenizer.reading_text, hreading] at hrows
        exact .row hne hrows
  · suffices h : ∀ {delim text rows}, RowsOf delim text rows → ∀ t : CsvTokenizer, t.reading.Valid →
        t.delim = delim → t.unread = text → Tokenizes t rows by
      exact fun hrows => h hrows t ht rfl rfl
    intro delim text rows h
    induction h with
    | done h =>
        rintro t ht rfl rfl
        obtain ⟨t', r, hnext, hreading, hholds⟩ := t.getNextRow_empty ht
        rw [h] at hreading hholds
        exact .done hnext hholds.strings_eq (congrArg Reading.eofReached hreading)
    | row hne hrest ih =>
        rintro t ht rfl rfl
        obtain ⟨t', r, hnext, hreading, hholds⟩ := t.getNextRow_empty ht
        exact .row hnext hholds.strings_eq hne (ih t' (hreading ▸ Reading.valid_afterRow _ _)
          (congrArg Reading.delim hreading) (congrArg Reading.text hreading))

namespace CsvReader

variable {reader : CsvReader}

/-- What `ReadRow` makes of a row: an exception if its width is not the expected one. -/
def checkRow (expectedColumns row : ℕ) (fields : List Bytes) : Except Bytes (List Bytes) :=
  if expectedColumns ≠ 0 ∧ fields.length ≠ expectedColumns then
    .error (widthMismatch expectedColumns fields.length row)
  else .ok fields

/-- The result of a call of `ReadRow` that finds the fields of a row, or none. -/
def callResult (expectedColumns row : ℕ) (fields : List Bytes) : Except Bytes Bool :=
  if fields = [] then .ok false else (checkRow expectedColumns row fields).map fun _ => true

/-- What the results of a reader depend on. -/
structure Reads (reader : CsvReader) (delim : UInt8) (text : Bytes) : Prop where
  valid : reader.tokenizer.reading.Valid
  delim_eq : reader.tokenizer.delim = delim
  unread : reader.tokenizer.unread = text

theorem reads_ofContent {bufferSize : ℕ} (hpos : 0 < bufferSize) (content : Bytes) (delim : UInt8)
    (n : ℕ) : Reads ⟨.ofContent hpos content delim, n⟩ delim content :=
  ⟨CsvTokenizer.valid_ofContent hpos _ _, rfl, rfl⟩

theorem Reads.of_afterRow {rest : Option Bytes}
    (h : reader.tokenizer.reading = .afterRow delim rest) :
    Reads reader delim (rest.getD []) :=
  ⟨h ▸ Reading.valid_afterRow _ _, congrArg Reading.delim h, congrArg Reading.text h⟩

/-- A call of `ReadRow` at the start of a line adds the fields that a scan finds, if any, which must
fit below the first line, and checks their number. -/
theorem readRow_holds {text : Bytes} (h : reader.Reads delim text) {r : VectorOfStrings2D}
    {rows : List (List Bytes)} (hr : r.Holds rows [])
    (hwidth : rows ≠ [] → (firstRow delim text).1.length ≤ (rows.headD []).length) :
    ∃ reader' r', reader.readRow r =
        some (callResult reader.expectedColumns (rows.length + 1) (firstRow delim text).1,
          reader', r') ∧
      reader'.expectedColumns = reader.expectedColumns ∧
      reader'.Reads delim ((firstRow delim text).2.getD []) ∧
      r'.Holds rows (firstRow delim text).1 := by
  obtain ⟨ht, rfl, rfl⟩ := h
  rw [readRow, callResult]
  by_cases heof : reader.tokenizer.eofReached
  · have hunread : reader.tokenizer.unread = [] := ht heof
    rw [if_pos heof, hunread]
    exact ⟨reader, r, rfl, rfl, ⟨ht, rfl, hunread⟩, hr⟩
  obtain ⟨t', r', hnext, hreading, hholds⟩ := reader.tokenizer.getNextRow_holds ht hr hwidth
  rw [if_neg heof, hnext, Option.map_some]
  dsimp only
  by_cases hempty : (firstRow reader.tokenizer.delim reader.tokenizer.unread).1 = []
  · have hcount : r'.columnsInLine = 0 := by rw [hholds.columnsInLine, hempty, List.length_nil]
    have hend : t'.eofReached = true := by
      rw [firstRow_eq hempty] at hreading
      exact congrArg Reading.eofReached hreading
    rw [if_pos ⟨hcount, hend⟩, if_pos hempty]
    exact ⟨_, r', rfl, rfl, .of_afterRow hreading, hholds⟩
  · have hcount : r'.columnsInLine ≠ 0 := by
      rw [hholds.columnsInLine]
      exact fun h => hempty (List.length_eq_zero_iff.mp h)
    have hheight : r'.height = rows.length + 1 := by
      rw [VectorOfStrings2D.height, if_neg hcount, hholds.lines]
    rw [if_neg (fun h => hcount h.1), if_neg hempty, checkRow, ← hholds.columnsInLine, hheight]
    by_cases hcolumns : reader.expectedColumns ≠ 0 ∧ r'.columnsInLine ≠ reader.expectedColumns
    · rw [if_pos hcolumns, if_pos hcolumns]
      exact ⟨_, r', rfl, rfl, .of_afterRow hreading, hholds⟩
    · have hreads : Reads ⟨t', reader.expectedColumns⟩ _ _ := .of_afterRow hreading
      rw [if_neg hcolumns, if_neg hcolumns]
      exact ⟨_, r', rfl, rfl, ⟨hreads.valid, hreads.delim_eq, hreads.unread⟩, hholds⟩

/-- A row longer than the first line is written out of range before its width is looked at. -/
theorem readRow_eq_none {text : Bytes} (h : reader.Reads delim text) {r : VectorOfStrings2D}
    {rows : List (List Bytes)} (hr : r.Holds rows []) (hrows : rows ≠ [])
    (hwidth : (rows.headD []).length < (firstRow delim text).1.length) :
    reader.readRow r = none := by
  obtain ⟨ht, rfl, rfl⟩ := h
  have heof : ¬ reader.tokenizer.eofReached := by
    intro heof
    have hunread : reader.tokenizer.unread = [] := ht heof
    rw [hunread] at hwidth
    exact absurd hwidth (Nat.not_lt_zero _)
  rw [readRow, if_neg heof, reader.tokenizer.getNextRow_eq_none ht hr hrows hwidth, Option.map_none]

/-- A call of `ReadRow` on a cleared container. -/
theorem readRow_empty {text : Bytes} (h : reader.Reads delim text) :
    ∃ reader' r, reader.readRow .empty =
        some (callResult reader.expectedColumns 1 (firstRow delim text).1, reader', r) ∧
      reader'.expectedColumns = reader.expectedColumns ∧
      reader'.Reads delim ((firstRow delim text).2.getD []) ∧
      r.strings = some (firstRow delim text).1 := by
  obtain ⟨reader', r, hread, hcolumns, hreads, hholds⟩ :=
    readRow_holds h VectorOfStrings2D.holds_empty fun h => absurd rfl h
  exact ⟨reader', r, hread, hcolumns, hreads, hholds.strings_eq⟩

/-- `ReadHeader` parses the fields of the first row and remembers their number. -/
theorem readHeader_eq {text : Bytes} (h : reader.Reads delim text) :
    ∃ reader', reader.readHeader =
        some ((firstRow delim text).1.mapM parseHeaderToken, reader') ∧
      reader'.expectedColumns = (firstRow delim text).1.length ∧
      reader'.Reads delim ((firstRow delim text).2.getD []) := by
  obtain ⟨ht, rfl, rfl⟩ := h
  obtain ⟨t', r, hnext, hreading, hholds⟩ := reader.tokenizer.getNextRow_empty ht
  have hwidth : r.width = (firstRow reader.tokenizer.delim reader.tokenizer.unread).1.length := by
    have hlines : r.lines = 1 := hholds.lines
    rw [VectorOfStrings2D.width, if_pos hlines, hholds.columnsInLine]
  have hget : r.getString = fun i => (firstRow reader.tokenizer.delim
      reader.tokenizer.unread).1[i]? := funext hholds.getString_eq
  have hreads : Reads ⟨t', r.width⟩ _ _ := .of_afterRow hreading
  refine ⟨⟨t'.resetLineFlag, r.width⟩, ?_, hwidth, hreads.valid, hreads.delim_eq, hreads.unread⟩
  rw [readHeader, hnext]
  simp only [Option.bind_eq_bind, Option.bind_some, hwidth, hget, mapM_getElem?_range]
  rfl

section callResult

variable {n row : ℕ} {fields : List Bytes}

theorem checkRow_cases (n row : ℕ) (fields : List Bytes) :
    checkRow n row fields = .ok fields ∨ ∃ text, checkRow n row fields = .error text := by
  rw [checkRow]
  split_ifs with h
  · exact .inr ⟨_, rfl⟩
  · exact .inl rfl

theorem callResult_eq_false : callResult n row fields = .ok false ↔ fields = [] := by
  by_cases hempty : fields = []
  · simp [callResult, hempty]
  · obtain hcheck | ⟨error, hcheck⟩ := checkRow_cases n row fields
    · simp [callResult, hempty, hcheck, Except.map]
    · simp [callResult, hempty, hcheck, Except.map]

theorem callResult_eq_true :
    callResult n row fields = .ok true ↔ fields ≠ [] ∧ checkRow n row fields = .ok fields := by
  by_cases hempty : fields = []
  · simp [callResult, hempty]
  · obtain hcheck | ⟨error, hcheck⟩ := checkRow_cases n row fields
    · simp [callResult, hempty, hcheck, Except.map]
    · simp [callResult, hempty, hcheck, Except.map]

theorem callResult_eq_error {text : Bytes} :
    callResult n row fields = .error text ↔ fields ≠ [] ∧ checkRow n row fields = .error text := by
  by_cases hempty : fields = []
  · simp [callResult, hempty]
  · obtain hcheck | ⟨error, hcheck⟩ := checkRow_cases n row fields
    · simp [callResult, hempty, hcheck, Except.map]
    · simp [callResult, hempty, hcheck, Except.map]

end callResult

/-- The results of successive calls are the checked rows. -/
theorem exists_rowsOf_of_delivers {results : List (Except Bytes (List Bytes))} {text : Bytes}
    (hdelivers : Delivers reader results) (h : reader.Reads delim text) :
    ∃ rows, RowsOf delim text rows ∧ results = rows.map (checkRow reader.expectedColumns 1) := by
  induction hdelivers generalizing text with
  | @done reader reader' r hread =>
      obtain ⟨reader₁, r₁, hread₁, -⟩ := readRow_empty h
      obtain ⟨hresult, -⟩ := Prod.mk.inj (Option.some.inj (hread.symm.trans hread₁))
      exact ⟨[], .done (firstRow_eq (callResult_eq_false.mp hresult.symm)), rfl⟩
  | @row reader reader' r fields results hread hfields hrest ih =>
      obtain ⟨reader₁, r₁, hread₁, hcolumns, hreads, hstrings⟩ := readRow_empty h
      obtain ⟨hresult, hpair⟩ := Prod.mk.inj (Option.some.inj (hread.symm.trans hread₁))
      obtain ⟨rfl, rfl⟩ := Prod.mk.inj hpair
      obtain rfl := Option.some.inj (hstrings.symm.trans hfields)
      obtain ⟨hne, hcheck⟩ := callResult_eq_true.mp hresult.symm
      obtain ⟨rows, hrows, rfl⟩ := ih hreads
      exact ⟨_, .row hne hrows, by rw [List.map_cons, hcheck, hcolumns]⟩
  | @mismatch reader reader' r error results hread hrest ih =>
      obtain ⟨reader₁, r₁, hread₁, hcolumns, hreads, -⟩ := readRow_empty h
      obtain ⟨hresult, hpair⟩ := Prod.mk.inj (Option.some.inj (hread.symm.trans hread₁))
      obtain ⟨rfl, rfl⟩ := Prod.mk.inj hpair
      obtain ⟨hne, hcheck⟩ := callResult_eq_error.mp hresult.symm
      obtain ⟨rows, hrows, rfl⟩ := ih hreads
      exact ⟨_, .row hne hrows, by rw [List.map_cons, hcheck, hcolumns]⟩

theorem checkRow_eq_ok {n row : ℕ} {fields fields' : List Bytes} :
    checkRow n row fields = .ok fields' ↔ fields = fields' ∧ (n ≠ 0 → fields.length = n) := by
  rw [checkRow]
  split_ifs with h
  · exact iff_of_false id fun h' => h.2 (h'.2 h.1)
  · rw [Except.ok.injEq]
    exact (and_iff_left fun hn => not_not.mp fun hne => h ⟨hn, hne⟩).symm

/-- Where no call throws, the results are the rows, all of the expected width. -/
theorem rowsOf_of_delivers {rows : List (List Bytes)} {text : Bytes}
    (hdelivers : Delivers reader (rows.map .ok)) (h : reader.Reads delim text) :
    RowsOf delim text rows ∧
      ∀ row ∈ rows, reader.expectedColumns ≠ 0 → row.length = reader.expectedColumns := by
  obtain ⟨rows', hrows', hresults⟩ := exists_rowsOf_of_delivers hdelivers h
  have hall : List.Forall₂ (fun row row' => checkRow reader.expectedColumns 1 row' = .ok row) rows
      rows' := by
    rw [← List.forall₂_map_left_iff (R := fun result row' =>
      checkRow reader.expectedColumns 1 row' = result), hresults, List.forall₂_map_left_iff]
    exact List.forall₂_same.mpr fun _ _ => rfl
  have hsame : List.Forall₂ (· = ·) rows rows' := hall.imp fun _ _ h => (checkRow_eq_ok.mp h).1.symm
  obtain rfl := List.forall₂_eq_eq_eq ▸ hsame
  exact ⟨hrows', fun row hrow => (checkRow_eq_ok.mp (List.forall₂_same.mp hall row hrow)).2⟩

/-- Successive calls check the rows of the unread text. -/
theorem delivers_of_rowsOf {text : Bytes} {rows : List (List Bytes)}
    (hrows : RowsOf delim text rows)
    (h : reader.Reads delim text) :
    Delivers reader (rows.map (checkRow reader.expectedColumns 1)) := by
  induction hrows generalizing reader with
  | done hfirst =>
      obtain ⟨reader', r, hread, -⟩ := readRow_empty h
      rw [hfirst] at hread
      exact .done hread
  | @row text rows hne hrest ih =>
      obtain ⟨reader', r, hread, hcolumns, hreads, hstrings⟩ := readRow_empty h
      have hdelivers := hcolumns ▸ ih hreads
      obtain hcheck | ⟨error, hcheck⟩ :=
        checkRow_cases reader.expectedColumns 1 (firstRow delim text).1
      · rw [callResult_eq_true.mpr ⟨hne, hcheck⟩] at hread
        rw [List.map_cons, hcheck]
        exact .row hread hstrings hdelivers
      · rw [callResult_eq_error.mpr ⟨hne, hcheck⟩] at hread
        rw [List.map_cons, hcheck]
        exact .mismatch hread hdelivers

/-- **`ReadRow`**: successive calls on a cleared container check the rows of the unread text, and no
others. -/
theorem delivers_iff {text : Bytes} (h : reader.Reads delim text)
    {results : List (Except Bytes (List Bytes))} :
    Delivers reader results ↔
      ∃ rows, RowsOf delim text rows ∧ results = rows.map (checkRow reader.expectedColumns 1) := by
  constructor
  · intro hdelivers
    exact exists_rowsOf_of_delivers hdelivers h
  · rintro ⟨rows, hrows, rfl⟩
    exact delivers_of_rowsOf hrows h

end CsvReader

end ColumnarEngine
