import ColumnarEngine.Found.Faults
import ColumnarEngine.Found.Partial
import ColumnarEngine.Io.ConvertRows

/-!
# What the conversion looks up

Every row is read into a cache and every cell of a cache is looked up and parsed, in an order that
only depends on the lengths of the rows (`accesses`). The conversion ends with the fault of the
first of these that fails, and with nothing else (`convertRows_guarded`).
-/

namespace ColumnarEngine

open Found

variable {P : Platform}

/-- What a column of the type holds of a field. -/
def CellIs (P : Platform) (t : ColumnType) (field : Option Bytes) (v : Value) : Prop :=
  ∃ value u, field = some value ∧ t.fromString P value = .ok u ∧ v = u.conv t

/-- A field is looked up for a column and parsed. -/
def cellCheck (P : Platform) (type : Option ColumnType) (field : Option Bytes) :
    Except Fault Unit :=
  (Fault.ofOption type).bind fun t =>
    (Fault.ofOption field).bind fun value => (t.fromString P value).map fun _ => ()

/-- A cell is parsed. -/
theorem cellCheck_eq_ok {type : Option ColumnType} {field : Option Bytes}
    (h : cellCheck P type field = .ok ()) :
    ∃ t value v, type = some t ∧ field = some value ∧ t.fromString P value = .ok v := by
  cases type with
  | none => exact absurd h (by simp [cellCheck, Fault.ofOption, Except.bind])
  | some t =>
      cases field with
      | none => exact absurd h (by simp [cellCheck, Fault.ofOption, Except.bind])
      | some value =>
          cases hvalue : t.fromString P value with
          | error fault =>
              exact absurd h (by simp [cellCheck, Fault.ofOption, Except.bind, hvalue, Except.map])
          | ok v => exact ⟨t, value, v, rfl, rfl, hvalue⟩

/-- A lookup: a row that is read into a cache, or a cell of a cache. -/
inductive Access
  | row (cached : List (List Bytes)) (fields : List Bytes)
  | cell (cached : List (List Bytes)) (i j : ℕ)

/-- The outcome of a lookup, for columns of the types. -/
def Access.check (P : Platform) (n : ℕ) (types : List ColumnType) : Access → Except Fault Unit
  | .row cached fields => readInto n cached fields
  | .cell cached i j => cellCheck P types[j]? (cellAt cached i j)

/-- The cells of a cache, column by column. -/
def cells (cached : List (List Bytes)) : List Access :=
  (List.range (cached.headD []).length).flatMap fun j =>
    (List.range cached.length).map fun i => .cell cached i j

/-- The lookups of the conversion of rows, with some of them in the cache. -/
def accesses : ℕ → List (List Bytes) → List (List Bytes) → List Access
  | _, cached, [] => cells cached
  | accumulatedRows, cached, row :: rows =>
      .row cached row ::
        if Room accumulatedRows (cached ++ [row]) then
          accesses accumulatedRows (cached ++ [row]) rows
        else
          let accumulatedRows := accumulatedRows + (cached ++ [row]).length
          cells (cached ++ [row]) ++
            accesses (if kRowsPerChunk ≤ accumulatedRows then 0 else accumulatedRows) [] rows

/-! ## Loading a cache -/

/-- A builder has the cells appended. -/
def Appended (P : Platform) (cell : ℕ → Option Bytes) (rows : List ℕ) (b b' : ColumnBuilder) :
    Prop :=
  b'.type = b.type ∧ ∃ vs, b'.data = b.data ++ vs ∧
    List.Forall₂ (fun i v => CellIs P b.type (cell i) v) rows vs

/-- `AddBatch` appends the cells of its column. -/
theorem addBatch_guarded (cell : ℕ → Option Bytes) (height : ℕ) (b : ColumnBuilder) :
    Guarded (Appended P cell (List.range height) b)
      (checks (fun i => cellCheck P (some b.type) (cell i)) (List.range height))
      (b.addBatch P cell height) := by
  apply Guarded.foldlM (I := fun rows b' => Appended P cell rows b b') ⟨rfl, [], by simp, .nil⟩
  rintro done i rest - b' ⟨htype, vs, hdata, hcells⟩
  rw [htype]
  cases hfield : cell i with
  | none => exact .error _
  | some value =>
      cases hvalue : b.type.fromString P value with
      | error fault =>
          simp only [cellCheck, Fault.ofOption, Except.bind, bind, hvalue, Except.map]
          exact .error _
      | ok v =>
          simp only [cellCheck, Fault.ofOption, Except.bind, bind, hvalue, Except.map]
          refine .ok ⟨htype, vs ++ [v.conv b.type], ?_, ?_⟩
          · rw [ColumnBuilder.addValue_data, hdata, htype, List.append_assoc]
          · exact List.rel_append hcells (.cons ⟨value, v, hfield, hvalue, rfl⟩ .nil)

/-- The builders of the columns have the cells appended, and the others are as they were. -/
structure Loaded (P : Platform) (cell : ℕ → ℕ → Option Bytes) (columns rows : List ℕ)
    (builders builders' : List ColumnBuilder) : Prop where
  length : builders'.length = builders.length
  appended : ∀ j ∈ columns, ∀ b, builders[j]? = some b →
    ∃ b', builders'[j]? = some b' ∧ Appended P (fun i => cell i j) rows b b'
  kept : ∀ j ∉ columns, builders'[j]? = builders[j]?

theorem Appended.type_eq {cell : ℕ → Option Bytes} {rows : List ℕ} {b b' : ColumnBuilder}
    (h : Appended P cell rows b b') : b'.type = b.type := h.1

/-- The types of the builders stay. -/
theorem Loaded.types {cell : ℕ → ℕ → Option Bytes} {columns rows : List ℕ}
    {builders builders' : List ColumnBuilder} (h : Loaded P cell columns rows builders builders') :
    builders'.map ColumnBuilder.type = builders.map ColumnBuilder.type := by
  apply List.ext_getElem?
  intro j
  rw [List.getElem?_map, List.getElem?_map]
  by_cases hj : j ∈ columns
  · cases hb : builders[j]? with
    | none =>
        rw [List.getElem?_eq_none (by rw [h.length]; exact List.getElem?_eq_none_iff.mp hb)]
    | some b =>
        obtain ⟨b', hb', happended⟩ := h.appended j hj b hb
        rw [hb', Option.map_some, Option.map_some, happended.type_eq]
  · rw [h.kept j hj]

/-- A column is loaded next. -/
theorem Loaded.set {cell : ℕ → ℕ → Option Bytes} {columns rows : List ℕ}
    {builders builders' : List ColumnBuilder} (h : Loaded P cell columns rows builders builders')
    {j : ℕ} (hj : j ∉ columns) {b b' : ColumnBuilder} (hb : builders[j]? = some b)
    (happended : Appended P (fun i => cell i j) rows b b') :
    Loaded P cell (columns ++ [j]) rows builders (builders'.set j b') := by
  have hlt : j < builders'.length := by
    rw [h.length]
    exact (List.getElem?_eq_some_iff.mp hb).1
  refine ⟨List.length_set.trans h.length, ?_, ?_⟩
  · intro k hk c hc
    obtain hk | hk := List.mem_append.mp hk
    · obtain ⟨c', hc', hcells⟩ := h.appended k hk c hc
      have hne : j ≠ k := fun heq => hj (heq ▸ hk)
      exact ⟨c', (List.getElem?_set_ne hne).trans hc', hcells⟩
    · obtain rfl := List.mem_singleton.mp hk
      obtain rfl := Option.some.inj (hb.symm.trans hc)
      exact ⟨b', List.getElem?_set_self hlt, happended⟩
  · intro k hk
    have hne : j ≠ k := fun heq => hk (List.mem_append_right _ (List.mem_singleton.mpr heq.symm))
    rw [List.getElem?_set_ne hne]
    exact h.kept k fun hmem => hk (List.mem_append_left _ hmem)

/-- The columns of a cache are loaded one after another. -/
theorem addColumns_guarded (cell : ℕ → ℕ → Option Bytes) (width : ℕ) {height : ℕ}
    (hheight : 0 < height) (builders : List ColumnBuilder) :
    Guarded (Loaded P cell (List.range width) (List.range height) builders)
      (checks (fun j => checks (fun i => cellCheck P ((builders.map ColumnBuilder.type)[j]?)
        (cell i j)) (List.range height)) (List.range width))
      (addColumns P cell width height builders) := by
  refine Guarded.foldlM (I := fun columns builders' =>
    Loaded P cell columns (List.range height) builders builders') ⟨rfl, by simp, by simp⟩ ?_
  rintro done j rest hrange builders' hloaded
  have hnodup := List.nodup_range (n := width)
  have hj : j ∉ done := by
    rw [hrange, List.nodup_append] at hnodup
    exact fun hmem => hnodup.2.2 j hmem j List.mem_cons_self rfl
  rw [List.getElem?_map, hloaded.kept j hj]
  cases hb : builders[j]? with
  | none =>
      obtain ⟨h, rfl⟩ := Nat.exists_eq_succ_of_ne_zero hheight.ne'
      rw [List.range_succ_eq_map]
      exact .error _
  | some b =>
      exact (addBatch_guarded (fun i => cell i j) height b).bind_ok fun b' happended =>
        ⟨_, rfl, hloaded.set hj hb happended⟩

/-! ## Loading and flushing -/

/-- The builders and the header have the types. -/
structure Output.Sound (types : List ColumnType) (out : Output) : Prop where
  builders : out.builders.map ColumnBuilder.type = types
  header : out.writer.headerWritten
  metadata : out.writer.metadata.map ColumnMetadata.type = types

/-- The rows of a cache are in the builders. -/
structure LoadedRows (P : Platform) (cached : List (List Bytes)) (out out' : Output) : Prop where
  writer : out'.writer = out.writer
  batches : out'.batches = out.batches
  accumulatedRows : out'.accumulatedRows = out.accumulatedRows + cached.length
  builders : Loaded P (cellAt cached) (List.range (cached.headD []).length)
    (List.range cached.length) out.builders out'.builders

theorem LoadedRows.sound {cached : List (List Bytes)} {out out' : Output} {types : List ColumnType}
    (h : LoadedRows P cached out out') (hsound : out.Sound types) : out'.Sound types :=
  ⟨h.builders.types.trans hsound.builders, h.writer ▸ hsound.header, h.writer ▸ hsound.metadata⟩

variable {n : ℕ} {types : List ColumnType} {cached : List (List Bytes)} {out : Output}

theorem checks_cells (P : Platform) (n : ℕ) (types : List ColumnType)
    (cached : List (List Bytes)) :
    checks (Access.check P n types) (cells cached) =
      checks (fun j => checks (fun i => cellCheck P types[j]? (cellAt cached i j))
        (List.range cached.length)) (List.range (cached.headD []).length) := by
  rw [cells, checks_flatMap]
  refine congrArg (checks · _) (funext fun j => ?_)
  rw [checks_map]
  rfl

/-- Loading a cache looks its cells up. -/
theorem loadRows_guarded (hsound : out.Sound types) (hcached : cached ≠ []) :
    Guarded (LoadedRows P cached out) (checks (Access.check P n types) (cells cached))
      (loadRows P cached out) := by
  have hcolumns := addColumns_guarded (P := P) (cellAt cached) (cached.headD []).length
    (List.length_pos_of_ne_nil hcached) out.builders
  rw [hsound.builders, ← checks_cells P n] at hcolumns
  exact hcolumns.map fun builders hloaded => ⟨rfl, rfl, rfl, hloaded⟩

/-- The chunk is written, if its first column is not empty, and the builders are as new. -/
structure Flushed (out out' : Output) : Prop where
  builders : out'.builders = out.builders.map fun b => makeColumnBuilder b.type
  accumulatedRows : out'.accumulatedRows = 0
  batches : out'.batches = out.batches ++
    if 0 < ColumnarWriter.batchRows (out.builders.map ColumnBuilder.finish) then
      [out.builders.map ColumnBuilder.finish] else []

/-- A flush does not fail. -/
theorem exists_flush (hsound : out.Sound types) :
    ∃ out', out.flush = .ok out' ∧ Flushed out out' ∧ out'.Sound types := by
  have hbuilders : (out.builders.map fun b => makeColumnBuilder b.type).map ColumnBuilder.type =
      types := by
    rw [List.map_map, ← hsound.builders]
    rfl
  rw [Output.flush]
  split_ifs with hrows
  · have htypes : (out.builders.map ColumnBuilder.finish).map Column.type =
        out.writer.metadata.map ColumnMetadata.type := by
      rw [List.map_map, hsound.metadata, ← hsound.builders]
      rfl
    obtain ⟨w, hw, hheader, hmetadata⟩ := ColumnarWriter.exists_writeBatch hsound.header htypes
    dsimp only
    rw [hw]
    exact ⟨_, rfl, ⟨rfl, rfl, by rw [if_pos hrows]⟩, hbuilders, hheader,
      hmetadata.trans hsound.metadata⟩
  · exact ⟨_, rfl, ⟨rfl, rfl, by rw [if_neg hrows, List.append_nil]⟩, hbuilders, hsound.header,
      hsound.metadata⟩

/-! ## The conversion -/

/-- What a conversion that does not fail does to the output: it loads caches and flushes chunks. -/
inductive Converts (P : Platform) : List (List Bytes) → Output → List (List Bytes) → Output → Prop
  | done (out : Output) : Converts P [] out [] out
  | last {cached : List (List Bytes)} {out loaded out' : Output} (hcached : cached ≠ [])
      (hload : LoadedRows P cached out loaded) (hflush : Flushed loaded out') :
      Converts P cached out [] out'
  | cache {cached rows : List (List Bytes)} {row : List Bytes} {out out' : Output}
      (hroom : Room out.accumulatedRows (cached ++ [row]))
      (hrest : Converts P (cached ++ [row]) out rows out') :
      Converts P cached out (row :: rows) out'
  | load {cached rows : List (List Bytes)} {row : List Bytes} {out loaded out' : Output}
      (hroom : ¬ Room out.accumulatedRows (cached ++ [row]))
      (hload : LoadedRows P (cached ++ [row]) out loaded)
      (hpart : ¬ kRowsPerChunk ≤ loaded.accumulatedRows) (hrest : Converts P [] loaded rows out') :
      Converts P cached out (row :: rows) out'
  | flush {cached rows : List (List Bytes)} {row : List Bytes} {out loaded flushed out' : Output}
      (hroom : ¬ Room out.accumulatedRows (cached ++ [row]))
      (hload : LoadedRows P (cached ++ [row]) out loaded)
      (hfull : kRowsPerChunk ≤ loaded.accumulatedRows) (hflush : Flushed loaded flushed)
      (hrest : Converts P [] flushed rows out') : Converts P cached out (row :: rows) out'

/-- **The conversion** fails as the first lookup that fails, and only so. -/
theorem convertRows_guarded (hsound : out.Sound types) (rows : List (List Bytes)) :
    Guarded (fun out' => Converts P cached out rows out' ∧ out'.Sound types)
      (checks (Access.check P n types) (accesses out.accumulatedRows cached rows))
      (convertRows P n cached out rows) := by
  induction rows generalizing cached out with
  | nil =>
      rw [accesses, convertRows]
      by_cases hcached : cached = []
      · rw [if_pos hcached, hcached]
        exact .ok ⟨.done out, hsound⟩
      · rw [if_neg hcached]
        apply (loadRows_guarded hsound hcached).bind_ok
        intro loaded hload
        obtain ⟨out', hout', hflush, hsound'⟩ := exists_flush (hload.sound hsound)
        exact ⟨out', hout', .last hcached hload hflush, hsound'⟩
  | cons row rows ih =>
      rw [accesses, convertRows, checks, Access.check]
      cases readInto n cached row with
      | error fault => exact .error fault
      | ok _ =>
          simp only [Except.bind]
          by_cases hroom : Room out.accumulatedRows (cached ++ [row])
          · rw [if_pos hroom, if_pos hroom]
            exact (ih hsound).mono fun out' h => ⟨.cache hroom h.1, h.2⟩
          rw [if_neg hroom, if_neg hroom, checks_append]
          apply (loadRows_guarded hsound (by simp)).bind
          intro loaded hload
          have hloaded := hload.sound hsound
          rw [← hload.accumulatedRows]
          by_cases hfull : kRowsPerChunk ≤ loaded.accumulatedRows
          · obtain ⟨flushed, hflushed, hflush, hsound'⟩ := exists_flush hloaded
            rw [if_pos hfull, if_pos hfull, hflushed, ← hflush.accumulatedRows]
            exact (ih hsound').mono fun out' h => ⟨.flush hroom hload hfull hflush h.1, h.2⟩
          · rw [if_neg hfull, if_neg hfull]
            exact (ih hloaded).mono fun out' h => ⟨.load hroom hload hfull h.1, h.2⟩

end ColumnarEngine
