import ColumnarEngine.Io.CsvFields

/-!
# The newline at the end of a text

A text is read as the text with a newline after it unless the field that the newline ends consists
of blanks: at the end of the file such a field was not started and is not emitted, where a newline
emits an empty field (`readAlike_newline_iff`).
-/

namespace ColumnarEngine

open Found

/-- Reading two texts yields the same rows, and as rows of an expected width the same results. -/
def ReadAlike {bufferSize : ℕ} (hpos : 0 < bufferSize) (delim : UInt8) (text text' : Bytes) :
    Prop :=
  (∃ rows, Tokenizes (.ofContent hpos text delim) rows ∧
    Tokenizes (.ofContent hpos text' delim) rows) ∧
  ∀ expectedColumns, ∃ results, Delivers ⟨.ofContent hpos text delim, expectedColumns⟩ results ∧
    Delivers ⟨.ofContent hpos text' delim, expectedColumns⟩ results

/-- The text after the last delimiter or newline outside quotes, behind the start of a field. -/
def lastField (delim : UInt8) : Bool → Bytes → Bytes → Bytes
  | _, field, [] => field
  | inQuotes, field, c :: text =>
      if c = quote then lastField delim (!inQuotes) (field ++ [c]) text
      else if ¬ inQuotes ∧ (c = delim ∨ c = newline) then lastField delim false [] text
      else lastField delim inQuotes (field ++ [c]) text

/-- A field has a character that is not a blank. -/
def shows (field : Bytes) : Bool := field.any fun c => !isWhitespace c

/-- Whether a scan is inside quotes. -/
def Mode.inQuotes (mode : Mode) : Bool := mode = .quoted

variable {delim : UInt8} {mode mode' : Mode} {started : Bool} {token text : Bytes}

theorem shows_append (field : Bytes) (c : UInt8) :
    shows (field ++ [c]) = (shows field || !isWhitespace c) := by simp [shows]

/-- A scan does not end inside quotes. -/
def Closed (mode : Mode) (text : Bytes) : Prop := Even (text.count quote + mode.inQuotes.toNat)

/-- A character that a scan reads on turns the quotes if it is a quote. -/
theorem inQuotes_again {c : UInt8} (hquotes : mode' = .quoted ↔ (mode = .quoted ↔ c ≠ quote)) :
    mode'.inQuotes = if c = quote then !mode.inQuotes else mode.inQuotes := by
  by_cases hquote : c = quote
  · cases mode <;> simp_all [Mode.inQuotes]
  · cases mode <;> simp_all [Mode.inQuotes]

theorem Closed.of_again {c : UInt8} (h : Closed mode (c :: text))
    (hquotes : mode' = .quoted ↔ (mode = .quoted ↔ c ≠ quote)) : Closed mode' text := by
  rw [Closed, List.count_cons] at h
  rw [Closed, inQuotes_again hquotes]
  by_cases hquote : c = quote
  · rw [if_pos hquote]
    rw [if_pos (beq_iff_eq.mpr hquote)] at h
    cases hmode : mode.inQuotes with
    | false =>
        rw [hmode] at h
        exact h
    | true =>
        rw [hmode] at h
        have hodd : Odd (text.count quote + 1) := (Nat.even_add'.mp h).mpr odd_one
        exact Nat.odd_add_one.mp hodd |> Nat.not_odd_iff_even.mp
  · rw [if_neg hquote]
    rwa [if_neg (by simpa using hquote)] at h

/-- Behind a delimiter or a newline outside quotes. -/
theorem Closed.of_plain {c : UInt8} (h : Closed mode (c :: text)) (hplain : mode ≠ .quoted)
    (hquote : c ≠ quote) : Closed .plain text := by
  have hmode : mode.inQuotes = false := decide_eq_false hplain
  rw [Closed, List.count_cons_of_ne hquote, hmode] at h
  exact h

/-- A character that a scan reads on belongs to the last field, or is skipped before it. -/
theorem lastField_again {c : UInt8} {started' : Bool} {field : Bytes}
    (hquotes : mode' = .quoted ↔ (mode = .quoted ↔ c ≠ quote))
    (hshows : started' = (shows field || !isWhitespace c))
    (hinside : mode = .quoted ∨ c = quote ∨ c ≠ newline ∧ (c = delim → started' = false)) :
    ∃ field', started' = shows field' ∧ ∀ text,
      lastField delim mode.inQuotes field (c :: text) =
        lastField delim mode'.inQuotes field' text := by
  rw [← shows_append] at hshows
  by_cases hskip : mode ≠ .quoted ∧ c ≠ quote ∧ c = delim
  · obtain ⟨hplain, hquote, hdelim⟩ := hskip
    have hstarted : started' = false := by
      obtain h | h | h := hinside
      · exact absurd h hplain
      · exact absurd h hquote
      · exact h.2 hdelim
    have hmode : mode.inQuotes = false := decide_eq_false hplain
    refine ⟨[], hstarted, ?_⟩
    intro text
    rw [inQuotes_again hquotes, lastField, if_neg hquote, if_neg hquote, hmode,
      if_pos ⟨Bool.false_ne_true, .inl hdelim⟩]
  · refine ⟨field ++ [c], hshows, ?_⟩
    intro text
    have hkeep : c ≠ quote → ¬ (¬ mode.inQuotes ∧ (c = delim ∨ c = newline)) := by
      rintro hquote ⟨hmode, hend⟩
      have hplain : mode ≠ .quoted := fun h => hmode (decide_eq_true h)
      obtain hdelim | hnewline := hend
      · exact hskip ⟨hplain, hquote, hdelim⟩
      · obtain h | h | h := hinside
        · exact hplain h
        · exact hquote h
        · exact h.1 hnewline
    rw [inQuotes_again hquotes, lastField]
    by_cases hquote : c = quote
    · rw [if_pos hquote, if_pos hquote]
    · rw [if_neg hquote, if_neg hquote, if_neg (hkeep hquote)]

/-- A delimiter or a newline outside quotes starts a field. -/
theorem lastField_end {c : UInt8} (hplain : mode ≠ .quoted) (hquote : c ≠ quote)
    (hend : c = delim ∨ c = newline) (field text : Bytes) :
    lastField delim mode.inQuotes field (c :: text) = lastField delim false [] text := by
  have hmode : mode.inQuotes = false := decide_eq_false hplain
  rw [lastField, if_neg hquote, hmode, if_pos ⟨Bool.false_ne_true, hend⟩]

theorem newline_ne_quote : newline ≠ quote := by decide

/-- A row that ends before the text does is not changed by what follows the text. -/
theorem scan_append_of_some (hidle : started = false → mode = .plain) {field rest : Bytes}
    (hstarted : started = shows field) (h : (scan delim mode started token text).2 = some rest) :
    lastField delim mode.inQuotes field text = lastField delim false [] rest ∧
      (Closed mode text → Closed .plain rest) ∧
      ∀ tail, scan delim mode started token (text ++ tail) =
        ((scan delim mode started token text).1, some (rest ++ tail)) := by
  induction text generalizing mode started token field with
  | nil => simp [scan] at h
  | cons c text ih =>
      cases @scan_step delim _ _ hidle token c with
      | again mode' started' token' next idle kept quotes hshows inside =>
          rw [hstarted] at hshows
          obtain ⟨field', hstarted', hlast⟩ := lastField_again quotes hshows inside
          rw [next] at h
          obtain ⟨hfield, hclosed, hscan⟩ := ih idle hstarted' h
          refine ⟨(hlast text).trans hfield, fun h => hclosed (h.of_again quotes), ?_⟩
          intro tail
          rw [List.cons_append, next, next, hscan]
      | endOfRow plain isNewline next =>
          subst isNewline
          rw [next] at h
          obtain rfl := Option.some.inj h
          refine ⟨lastField_end plain newline_ne_quote (.inr rfl) field text,
            fun h => h.of_plain plain newline_ne_quote, fun tail => ?_⟩
          rw [List.cons_append, next, next]
      | endOfField plain isDelim noQuote next =>
          rw [next] at h
          obtain ⟨hfield, hclosed, hscan⟩ := @ih .plain false [] (fun _ => rfl) [] rfl h
          refine ⟨(lastField_end plain noQuote (.inl isDelim) field text).trans hfield,
            fun h => hclosed (h.of_plain plain noQuote), fun tail => ?_⟩
          rw [List.cons_append, next, next, hscan]

/-- A newline after the text ends its last row, with an empty field if the last field is blank. -/
theorem scan_append_newline (hidle : started = false → mode = .plain ∧ token = []) {field : Bytes}
    (hstarted : started = shows field) (hclosed : Closed mode text)
    (h : (scan delim mode started token text).2 = none) :
    scan delim mode started token (text ++ [newline]) =
      ((scan delim mode started token text).1 ++
        if shows (lastField delim mode.inQuotes field text) then [] else [[]], some []) := by
  induction text generalizing mode started token field with
  | nil =>
      have hplain : mode ≠ .quoted := by
        rintro rfl
        exact Nat.not_even_one hclosed
      have hnewline : scan delim mode started token [newline] = ([trimBlanks token], some []) := by
        cases mode with
        | plain => exact scan_newline
        | quoted => exact absurd rfl hplain
        | closing => exact (scan_closing (by decide)).trans scan_newline
      rw [List.nil_append, hnewline, scan, lastField, ← hstarted]
      cases hs : started with
      | true => rfl
      | false => rw [(hidle hs).2]; rfl
  | cons c text ih =>
      cases @scan_step delim _ _ (fun h => (hidle h).1) token c with
      | again mode' started' token' next idle kept quotes hshows inside =>
          have hidle' : started' = false → mode' = .plain ∧ token' = [] := by
            intro hs
            refine ⟨idle hs, (kept hs).trans (hidle ?_).2⟩
            rw [hs, eq_comm, Bool.or_eq_false_iff] at hshows
            exact hshows.1
          rw [hstarted] at hshows
          obtain ⟨field', hstarted', hlast⟩ := lastField_again quotes hshows inside
          rw [next] at h
          rw [List.cons_append, next, next, hlast, ih hidle' hstarted' (hclosed.of_again quotes) h]
      | endOfRow plain isNewline next =>
          rw [next] at h
          exact absurd h (by simp)
      | endOfField plain isDelim noQuote next =>
          rw [next] at h
          rw [List.cons_append, next, next, lastField_end plain noQuote (.inl isDelim),
            @ih .plain false [] (fun _ => ⟨rfl, rfl⟩) [] rfl (hclosed.of_plain plain noQuote) h]
          rfl

/-! ## Rows -/

/-- The first row of a text with a newline after it, where it ended with the text. -/
theorem firstRow_append_newline (hclosed : Closed .plain text)
    (h : (firstRow delim text).2 = none) :
    firstRow delim (text ++ [newline]) =
      ((firstRow delim text).1 ++ if shows (lastField delim false [] text) then [] else [[]],
        some []) :=
  @scan_append_newline delim .plain false [] text (fun _ => ⟨rfl, rfl⟩) [] rfl hclosed h

/-- The rows of a text without an open quote are those of the text with a newline after it exactly
when the last field is not blank. -/
theorem rowsOf_append_newline {rows rows' : List (List Bytes)} (hrows : RowsOf delim text rows)
    (hclosed : Closed .plain text) (hrows' : RowsOf delim (text ++ [newline]) rows') :
    rows = rows' ↔ shows (lastField delim false [] text) := by
  induction hrows generalizing rows' with
  | @done text hfirst =>
      have hnewline := firstRow_append_newline hclosed (congrArg Prod.snd hfirst)
      obtain ⟨rows'', rfl, -⟩ := (rowsOf_iff_of_some hnewline).mp hrows'
      have hne := (scan_eq_some (fun _ => rfl) (congrArg Prod.snd hnewline)).2
      rw [← firstRow, hnewline, hfirst, List.nil_append] at hne
      apply iff_of_false (by simp)
      intro hshows
      rw [if_pos hshows] at hne
      exact hne rfl
  | @row text rows hne hrest ih =>
      cases hend : (firstRow delim text).2 with
      | some rest =>
          obtain ⟨hfield, hclosed', hscan⟩ := @scan_append_of_some delim .plain false [] text
            (fun _ => rfl) [] rest rfl hend
          rw [hend] at hrest ih
          obtain ⟨rows'', rfl, hrows''⟩ := (rowsOf_iff_of_some (hscan [newline])).mp hrows'
          rw [List.cons.injEq, ih (hclosed' hclosed) hrows'']
          exact (and_iff_right rfl).trans (iff_of_eq (congrArg (shows · = true) hfield.symm))
      | none =>
          have hnewline := firstRow_append_newline hclosed hend
          rw [hend] at hrest
          obtain rfl := rowsOf_nil.unique hrest
          obtain ⟨rows'', rfl, hrows''⟩ := (rowsOf_iff_of_some hnewline).mp hrows'
          obtain rfl := rowsOf_nil.unique hrows''
          split_ifs with hshows <;> simp [hshows]

/-- **The final newline** is optional exactly when the last field of the text has a character that
is not a blank. -/
theorem readAlike_newline_iff {bufferSize : ℕ} (hpos : 0 < bufferSize)
    (heven : Even (text.count quote)) :
    ReadAlike hpos delim text (text ++ [newline]) ↔
      ∃ c ∈ lastField delim false [] text, isWhitespace c = false := by
  obtain ⟨rows, hrows⟩ := exists_rowsOf delim text
  obtain ⟨rows', hrows'⟩ := exists_rowsOf delim (text ++ [newline])
  have hiff := rowsOf_append_newline hrows heven hrows'
  rw [shows, List.any_eq_true] at hiff
  simp only [Bool.not_eq_true'] at hiff
  rw [← hiff]
  constructor
  · rintro ⟨⟨rows'', h, h'⟩, -⟩
    rw [tokenizes_iff (CsvTokenizer.valid_ofContent hpos _ _)] at h h'
    exact (hrows.unique h).trans (h'.unique hrows')
  · rintro rfl
    refine ⟨⟨rows, ?_, ?_⟩, fun n => ⟨rows.map (CsvReader.checkRow n 1), ?_, ?_⟩⟩
    · exact (tokenizes_iff (CsvTokenizer.valid_ofContent hpos _ _)).mpr hrows
    · exact (tokenizes_iff (CsvTokenizer.valid_ofContent hpos _ _)).mpr hrows'
    · exact CsvReader.delivers_of_rowsOf hrows (CsvReader.reads_ofContent hpos _ _ n)
    · exact CsvReader.delivers_of_rowsOf hrows' (CsvReader.reads_ofContent hpos _ _ n)

/-- A text that ends in a field that is not empty. -/
theorem readAlike_newline_comma :
    ReadAlike (Nat.two_pow_pos 27) comma (ascii "a,b") (ascii "a,b" ++ [newline]) :=
  (readAlike_newline_iff (Nat.two_pow_pos 27) (by decide)).mpr ⟨98, by decide, by decide⟩

/-- An empty last field is lost without the newline. -/
theorem not_readAlike_newline :
    ¬ ∀ text : Bytes, (∃ c ∈ text.rtakeWhile (· ≠ newline), isWhitespace c = false) →
      Even (text.count quote) →
        ReadAlike (Nat.two_pow_pos 27) comma text (text ++ [newline]) := by
  intro h
  have heven : Even ((ascii "a,").count quote) := by decide
  obtain ⟨⟨rows, hrows, hrows'⟩, -⟩ := h (ascii "a,") ⟨97, by decide, by decide⟩ heven
  rw [tokenizes_iff (CsvTokenizer.valid_ofContent _ _ _)] at hrows hrows'
  exact absurd ((rowsOf_append_newline hrows heven hrows').mp rfl) (by decide)

end ColumnarEngine
