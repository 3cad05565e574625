import ColumnarEngine.Io.CsvRows

/-!
# Rendered fields are read back

Two ways of writing a row: every field in quotes with its quotes doubled, and plain fields joined by
a delimiter. Quotes protect everything but carriage returns, which are dropped, and blanks at the
end, which are trimmed (`tokenizes_quotedText_iff`). Plain fields are read back unless the delimiter
is itself a blank and an empty field has it skipped (`tokenizes_renderRow_iff`).
-/

namespace ColumnarEngine

open Found

/-- Fields joined by a delimiter, and a newline. -/
def renderRow (delim : UInt8) (fields : List Bytes) : Bytes :=
  List.intercalate [delim] fields ++ [newline]

variable {delim : UInt8}

/-- A text is read as a field before a delimiter. -/
def ReadsAs (delim : UInt8) (text field : Bytes) : Prop :=
  ∀ rest, firstRow delim (text ++ delim :: rest) =
    (field :: (firstRow delim rest).1, (firstRow delim rest).2)

/-- A text is read as a field before a newline. -/
def EndsAs (delim : UInt8) (text field : Bytes) : Prop :=
  ∀ rest, firstRow delim (text ++ newline :: rest) = ([field], some rest)

theorem renderRow_singleton (field rest : Bytes) :
    renderRow delim [field] ++ rest = field ++ newline :: rest := by
  simp [renderRow]

theorem renderRow_cons_cons (field field' : Bytes) (fields : List Bytes) (rest : Bytes) :
    renderRow delim (field :: field' :: fields) ++ rest =
      field ++ delim :: (renderRow delim (field' :: fields) ++ rest) := by
  simp [renderRow, List.intercalate]

/-! ## Fields in quotes -/

/-- The quotes of a field doubled. -/
def doubleQuotes (field : Bytes) : Bytes :=
  field.flatMap fun c => if c = quote then [quote, quote] else [c]

/-- A field in quotes. -/
def quoteField (field : Bytes) : Bytes := quote :: (doubleQuotes field ++ [quote])

/-- The text of rows with every field in quotes. -/
def quotedText (rows : List (List Bytes)) : Bytes :=
  (rows.map fun row => renderRow comma (row.map quoteField)).flatten

/-- What is read of a field in quotes. -/
def unquoted (field : Bytes) : Bytes := trimBlanks (field.filter fun c => c ≠ carriageReturn)

/-- Inside quotes every character but a carriage return is read, doubled quotes once. -/
theorem scan_doubleQuotes (field token rest : Bytes) :
    scan delim .quoted true token (doubleQuotes field ++ rest) =
      scan delim .quoted true (token ++ field.filter fun c => c ≠ carriageReturn) rest := by
  induction field generalizing token with
  | nil => simp [doubleQuotes]
  | cons c field ih =>
      rw [doubleQuotes, List.flatMap_cons, List.append_assoc, ← doubleQuotes]
      by_cases hquote : c = quote
      · subst hquote
        rw [if_pos rfl, List.cons_append, List.cons_append, List.nil_append, scan_quoted_quote,
          scan_closing_quote, ih, List.filter_cons_of_pos (by decide), List.append_assoc]
        rfl
      by_cases hreturn : c = carriageReturn
      · subst hreturn
        rw [if_neg hquote, List.cons_append, List.nil_append, scan_quoted_return, ih,
          List.filter_cons_of_neg (by decide)]
      · rw [if_neg hquote, List.cons_append, List.nil_append, scan_quoted_char hquote hreturn, ih,
          List.filter_cons_of_pos (by simpa using hreturn), List.append_assoc]
        rfl

/-- A field in quotes, up to a character that is not a quote. -/
theorem scan_quoteField (field : Bytes) {rest : Bytes} (h : rest.head? ≠ some quote) :
    scan delim .plain false [] (quoteField field ++ rest) =
      scan delim .plain true (field.filter fun c => c ≠ carriageReturn) rest := by
  rw [quoteField, List.cons_append, List.append_assoc, scan_quote, scan_doubleQuotes,
    List.singleton_append, scan_quoted_quote, scan_closing h, List.nil_append]

theorem quoteField_readsAs (field : Bytes) : ReadsAs comma (quoteField field) (unquoted field) := by
  intro rest
  rw [firstRow, scan_quoteField field (by simp [comma, quote]),
    scan_delim (by simp) (by decide) (by decide)]
  rfl

theorem quoteField_endsAs (field : Bytes) : EndsAs comma (quoteField field) (unquoted field) := by
  intro rest
  rw [firstRow, scan_quoteField field (by simp [newline, quote]), scan_newline]
  rfl

/-- A row of fields in quotes. -/
theorem firstRow_quoted {fields : List Bytes} (hne : fields ≠ []) (rest : Bytes) :
    firstRow comma (renderRow comma (fields.map quoteField) ++ rest) =
      (fields.map unquoted, some rest) := by
  induction fields with
  | nil => exact absurd rfl hne
  | cons field fields ih =>
      cases fields with
      | nil => rw [List.map_singleton, renderRow_singleton, quoteField_endsAs field rest,
          List.map_singleton]
      | cons field' fields =>
          rw [List.map_cons, List.map_cons, renderRow_cons_cons, quoteField_readsAs field,
            ← List.map_cons, ih (List.cons_ne_nil _ _)]
          rfl

/-- Rows of fields in quotes. -/
theorem rowsOf_quotedText {rows : List (List Bytes)} (hne : ∀ row ∈ rows, row ≠ []) :
    RowsOf comma (quotedText rows) (rows.map fun row => row.map unquoted) := by
  induction rows with
  | nil => exact rowsOf_nil
  | cons row rows ih =>
      have hfirst : firstRow comma (quotedText (row :: rows)) =
          (row.map unquoted, some (quotedText rows)) := by
        rw [quotedText, List.map_cons, List.flatten_cons,
          firstRow_quoted (hne row List.mem_cons_self)]
        rfl
      have hrest := ih fun row' hrow' => hne row' (List.mem_cons_of_mem row hrow')
      exact (rowsOf_iff_of_some hfirst).mpr ⟨_, rfl, hrest⟩

/-- What is read of a field is the field when it has no carriage return and no blank at its end. -/
theorem unquoted_eq_self_iff {field : Bytes} :
    unquoted field = field ↔
      carriageReturn ∉ field ∧ ∀ c ∈ field.getLast?, isWhitespace c = false := by
  have htrim : trimBlanks field = field ↔ ∀ c ∈ field.getLast?, isWhitespace c = false := by
    rw [trimBlanks, List.rdropWhile_eq_self_iff]
    constructor
    · intro h c hc
      obtain ⟨hne, rfl⟩ := List.mem_getLast?_eq_getLast hc
      simpa using h hne
    · intro h hne
      simp [h _ (List.getLast?_eq_some_getLast hne)]
  constructor
  · intro h
    have hle : field.length ≤ (field.filter fun c => c ≠ carriageReturn).length := by
      conv_lhs => rw [← h]
      exact (List.rdropWhile_prefix _ _).length_le
    have hfilter := (List.filter_sublist (l := field)
      (p := fun c => decide (c ≠ carriageReturn))).eq_of_length_le hle
    rw [unquoted, hfilter] at h
    refine ⟨?_, htrim.mp h⟩
    intro hmem
    simpa using List.filter_eq_self.mp hfilter carriageReturn hmem
  · rintro ⟨hreturn, hlast⟩
    have hfilter : field.filter (fun c => c ≠ carriageReturn) = field :=
      List.filter_eq_self.mpr fun c hc => by
        simp only [ne_eq, decide_eq_true_eq]
        rintro rfl
        exact hreturn hc
    rw [unquoted, hfilter, htrim]
    exact hlast

theorem map_eq_self_iff {α : Type} {f : α → α} {l : List α} : l.map f = l ↔ ∀ a ∈ l, f a = a := by
  conv_lhs => rhs; rw [← List.map_id l]
  exact List.map_inj_left

/-- Successive calls of `GetNextRow` on rows of fields in quotes return what is read of the fields.
-/
theorem tokenizes_quotedText {bufferSize : ℕ} (hpos : 0 < bufferSize)
    {rows rows' : List (List Bytes)}
    (hne : ∀ row ∈ rows, row ≠ []) :
    Tokenizes (.ofContent hpos (quotedText rows) comma) rows' ↔
      rows.map (fun row => row.map unquoted) = rows' := by
  rw [tokenizes_iff (CsvTokenizer.valid_ofContent hpos _ _)]
  refine ⟨fun h => (rowsOf_quotedText hne).unique h, ?_⟩
  rintro rfl
  exact rowsOf_quotedText hne

/-- **Quotes** protect the contents of all fields exactly when no field contains a carriage return
or ends in a blank. -/
theorem tokenizes_quotedText_iff {bufferSize : ℕ} (hpos : 0 < bufferSize) {rows : List (List Bytes)}
    (hne : ∀ row ∈ rows, row ≠ []) :
    Tokenizes (.ofContent hpos (quotedText rows) comma) rows ↔
      ∀ row ∈ rows, ∀ field ∈ row,
        carriageReturn ∉ field ∧ ∀ c ∈ field.getLast?, isWhitespace c = false := by
  rw [tokenizes_quotedText hpos hne, map_eq_self_iff]
  apply forall₂_congr
  intro row _
  rw [map_eq_self_iff]
  exact forall₂_congr fun field _ => unquoted_eq_self_iff

/-- A comma, a doubled quote, a newline and a blank at the start. -/
theorem tokenizes_quotedText_comma :
    Tokenizes (.ofContent (Nat.two_pow_pos 27) (quotedText [[ascii "a,\"b\n", ascii " x"]]) comma)
      [[ascii "a,\"b\n", ascii " x"]] := by
  apply (tokenizes_quotedText_iff (Nat.two_pow_pos 27) (by decide)).mpr
  have hnewline : (ascii "a,\"b\n").getLast? = some newline := by decide
  have hx : (ascii " x").getLast? = some 120 := by decide
  simp only [List.mem_singleton, forall_eq, List.forall_mem_cons, hnewline, hx, Option.mem_some_iff,
    forall_eq']
  decide

/-- A blank at the end of a field in quotes is lost, and so is a carriage return. -/
theorem not_tokenizes_quotedText_blank :
    ¬ Tokenizes (.ofContent (Nat.two_pow_pos 27) (quotedText [[ascii "a "]]) comma) [[ascii "a "]] ∧
      ¬ Tokenizes (.ofContent (Nat.two_pow_pos 27) (quotedText [[ascii "a\rb"]]) comma)
        [[ascii "a\rb"]] := by
  constructor
  · rw [tokenizes_quotedText (Nat.two_pow_pos 27) (by decide)]
    decide
  · rw [tokenizes_quotedText (Nat.two_pow_pos 27) (by decide)]
    decide

/-! ## Plain fields -/

/-- A character that stands for itself outside quotes. -/
def PlainChar (delim c : UInt8) : Prop :=
  c ≠ delim ∧ c ≠ quote ∧ c ≠ newline ∧ isWhitespace c = false

instance : DecidablePred (PlainChar delim) :=
  fun c =>
    inferInstanceAs (Decidable (c ≠ delim ∧ c ≠ quote ∧ c ≠ newline ∧ isWhitespace c = false))

/-- What is read of plain fields: a delimiter that is a blank is skipped where no field was started.
-/
def keptFields (delim : UInt8) : List Bytes → List Bytes
  | [] => []
  | [field] => [field]
  | field :: fields =>
      if field = [] ∧ isWhitespace delim then keptFields delim fields
      else field :: keptFields delim fields

/-- Plain characters are read as they are. -/
theorem scan_plainChars {field : Bytes} (hplain : ∀ c ∈ field, PlainChar delim c) (started : Bool)
    (token rest : Bytes) :
    scan delim .plain started token (field ++ rest) =
      scan delim .plain (started || !field.isEmpty) (token ++ field) rest := by
  induction field generalizing started token with
  | nil => simp
  | cons c field ih =>
      obtain ⟨hdelim, hquote, hnewline, hblank⟩ := hplain c List.mem_cons_self
      have hreturn : c ≠ carriageReturn := by
        rintro rfl
        exact absurd hblank (by decide)
      have hstart : ¬ (¬ started ∧ isWhitespace c) := by simp [hblank]
      have hrest := ih (fun c' hc' => hplain c' (List.mem_cons_of_mem c hc')) true (token ++ [c])
      rw [List.cons_append, scan_char hstart hquote hnewline hdelim hreturn, hrest,
        List.append_assoc]
      simp

/-- Plain characters do not end in a blank. -/
theorem trimBlanks_plainChars {field : Bytes} (hplain : ∀ c ∈ field, PlainChar delim c) :
    trimBlanks field = field := by
  rw [trimBlanks, List.rdropWhile_eq_self_iff]
  intro hne
  rw [(hplain _ (List.getLast_mem hne)).2.2.2]
  exact Bool.false_ne_true

theorem plainChars_endsAs {field : Bytes} (hplain : ∀ c ∈ field, PlainChar delim c) :
    EndsAs delim field field := by
  intro rest
  rw [firstRow, scan_plainChars hplain, scan_newline, List.nil_append, trimBlanks_plainChars hplain]

/-- A plain field is read before a delimiter, unless the delimiter is skipped. -/
theorem plainChars_readsAs (hquote : delim ≠ quote) (hnewline : delim ≠ newline) {field : Bytes}
    (hplain : ∀ c ∈ field, PlainChar delim c) (hkept : ¬ (field = [] ∧ isWhitespace delim)) :
    ReadsAs delim field field := by
  intro rest
  have hstart : ¬ (¬ (false || !field.isEmpty) ∧ isWhitespace delim) := by simpa using hkept
  rw [firstRow, scan_plainChars hplain, scan_delim hstart hquote hnewline, List.nil_append,
    trimBlanks_plainChars hplain]
  rfl

/-- A row of plain fields. -/
theorem firstRow_plain (hquote : delim ≠ quote) (hnewline : delim ≠ newline) {fields : List Bytes}
    (hne : fields ≠ []) (hplain : ∀ field ∈ fields, ∀ c ∈ field, PlainChar delim c) (rest : Bytes) :
    firstRow delim (renderRow delim fields ++ rest) = (keptFields delim fields, some rest) := by
  induction fields with
  | nil => exact absurd rfl hne
  | cons field fields ih =>
      have hfield := hplain field List.mem_cons_self
      cases fields with
      | nil => rw [renderRow_singleton, plainChars_endsAs hfield rest, keptFields]
      | cons field' fields =>
          have hrest := ih (List.cons_ne_nil _ _) fun f hf =>
            hplain f (List.mem_cons_of_mem field hf)
          rw [renderRow_cons_cons, keptFields]
          split_ifs with hskip
          · obtain ⟨rfl, hblank⟩ := hskip
            rw [List.nil_append, firstRow, scan_blank hblank]
            exact hrest
          · rw [plainChars_readsAs hquote hnewline hfield hskip, hrest]
          · simp

/-- Every field but the last may be skipped. -/
theorem length_keptFields_le (delim : UInt8) (fields : List Bytes) :
    (keptFields delim fields).length ≤ fields.length := by
  fun_induction keptFields delim fields with
  | case1 => exact le_rfl
  | case2 field => exact le_rfl
  | case3 field fields hne hskip ih => exact le_trans ih (Nat.le_succ _)
  | case4 field fields hne hskip ih => exact Nat.succ_le_succ ih

theorem keptFields_eq_self_iff {fields : List Bytes} :
    keptFields delim fields = fields ↔
      isWhitespace delim = false ∨ ∀ field ∈ fields.dropLast, field ≠ [] := by
  fun_induction keptFields delim fields with
  | case1 => simp
  | case2 field => simp
  | case3 field fields hne hskip ih =>
      obtain ⟨rfl, hblank⟩ := hskip
      constructor
      · intro h
        have hle := length_keptFields_le delim fields
        rw [h, List.length_cons] at hle
        omega
      · rw [List.dropLast_cons_of_ne_nil hne, hblank]
        rintro (h | h)
        · exact Bool.noConfusion h
        · exact absurd rfl (h [] List.mem_cons_self)
  | case4 field fields hne hskip ih =>
      rw [List.dropLast_cons_of_ne_nil hne, List.forall_mem_cons, List.cons.injEq, ih]
      by_cases hblank : isWhitespace delim
      · have hfield : field ≠ [] := fun h => hskip ⟨h, hblank⟩
        simp [hblank, hfield]
      · simp [hblank]

/-- Successive calls of `GetNextRow` on a row of plain fields return what is read of the fields. -/
theorem tokenizes_renderRow {bufferSize : ℕ} (hpos : 0 < bufferSize) (hquote : delim ≠ quote)
    (hnewline : delim ≠ newline) {fields fields' : List Bytes} (hne : fields ≠ [])
    (hplain : ∀ field ∈ fields, ∀ c ∈ field, PlainChar delim c) :
    Tokenizes (.ofContent hpos (renderRow delim fields) delim) [fields'] ↔
      keptFields delim fields = fields' := by
  have hfirst : firstRow delim (renderRow delim fields) = (keptFields delim fields, some []) := by
    have h := firstRow_plain hquote hnewline hne hplain []
    rwa [List.append_nil] at h
  rw [tokenizes_iff (CsvTokenizer.valid_ofContent hpos _ _)]
  refine (rowsOf_iff_of_some hfirst).trans ⟨?_, ?_⟩
  · rintro ⟨rows, hrows, -⟩
    exact (List.cons.inj hrows).1.symm
  · rintro rfl
    exact ⟨[], rfl, rowsOf_nil⟩

/-- **Delimiters**: fields without special characters that are joined by a delimiter are read back
exactly when the delimiter is not a blank or no field but the last is empty. -/
theorem tokenizes_renderRow_iff {bufferSize : ℕ} (hpos : 0 < bufferSize) (hquote : delim ≠ quote)
    (hnewline : delim ≠ newline) {fields : List Bytes} (hne : fields ≠ [])
    (hplain : ∀ field ∈ fields, ∀ c ∈ field, PlainChar delim c) :
    Tokenizes (.ofContent hpos (renderRow delim fields) delim) [fields] ↔
      isWhitespace delim = false ∨ ∀ field ∈ fields.dropLast, field ≠ [] := by
  rw [tokenizes_renderRow hpos hquote hnewline hne hplain, keptFields_eq_self_iff]

/-- Empty fields at both ends of a row with the delimiter `';'`. -/
theorem tokenizes_renderRow_semicolon :
    Tokenizes (.ofContent (Nat.two_pow_pos 27) (renderRow 59 [[], ascii "ab", []]) 59)
      [[[], ascii "ab", []]] :=
  (tokenizes_renderRow_iff (Nat.two_pow_pos 27) (by decide) (by decide) (by decide)
    (by decide +kernel)).mpr (.inl (by decide))

/-- An empty first field before a blank is lost. -/
theorem not_tokenizes_renderRow_blank :
    ¬ Tokenizes (.ofContent (Nat.two_pow_pos 27) (renderRow 32 [[], ascii "a"]) 32)
      [[[], ascii "a"]] := by
  rw [tokenizes_renderRow (Nat.two_pow_pos 27) (by decide) (by decide) (by decide)
    (by decide +kernel)]
  decide

end ColumnarEngine
