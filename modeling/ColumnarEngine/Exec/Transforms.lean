import ColumnarEngine.Exec.ScalarFunctions

/-!
# Transform operators

The `Execute` of the five transforms of `OperatorsBase.cpp`. Four of them are functions of the
batch; `LimitTransformOperator` shares a row counter and a flag with all workers, and `limitCut` is
what it does to a batch once it has added the rows to the counter. `Returns` covers all five: what
`Execute` can return for a batch, whatever the counter.

`returns_iff` is the exact condition under which a transform turns a well-formed batch into a
well-formed one.
-/

namespace ColumnarEngine

open Found

/-- The transform operators. -/
inductive TransformOperator
  | filter (filterFunction : FilterFunction)
  | scalar (scalarFunctions : List ScalarFunction)
  | drop (columnStayIndices : List ℕ)
  | reorder (newIndices : List ℕ)
  | limit (limit : ℕ)
  deriving DecidableEq, Repr

/-- `FilterTransformOperator::Execute`. -/
def filterExecute (P : Platform) (f : FilterFunction) (batch : RecordBatch) :
    Option (Option RecordBatch) :=
  (f.evaluate P batch).map fun selectionVector =>
    if selectionVector.isEmpty then none
    else some { batch with
      numRows := selectionVector.length
      selectionVector := some selectionVector }

/-- `ScalarTransformOperator::Execute`. -/
def scalarExecute (P : Platform) (fs : List ScalarFunction) (batch : RecordBatch) :
    Option RecordBatch :=
  fs.foldlM (fun batch f => (f.evaluate P batch).map fun c =>
    { batch with columns := batch.columns ++ [c] }) batch

/-- `DropTransformOperator::Execute` moves the columns; one moved a second time is a null pointer.
-/
def dropExecute (columnStayIndices : List ℕ) (batch : RecordBatch) : Option RecordBatch :=
  if columnStayIndices.Nodup then
    (gather batch.columns columnStayIndices).map fun columns => { batch with columns := columns }
  else none

/-- `ReorderTransformOperator::Execute`. -/
def reorderExecute (newIndices : List ℕ) (batch : RecordBatch) : Option RecordBatch :=
  (gather batch.columns newIndices).map fun columns => { batch with columns := columns }

/-- `LimitTransformOperator::Execute` after `fetch_add` has returned `oldRows`: the batch returned
and whether `done_` is set. -/
def limitCut (limit oldRows : ℕ) (batch : RecordBatch) : Option (Option RecordBatch × Bool) :=
  if limit ≤ oldRows then some (none, true)
  else
    let remaining := limit - oldRows
    if batch.numRows ≤ remaining then
      some (some batch, decide (limit ≤ (oldRows + batch.numRows) % 2 ^ 64))
    else
      match batch.selectionVector with
      | some sel =>
          if remaining ≤ sel.length then
            some (some { batch with
              numRows := remaining
              selectionVector := some (sel.take remaining) }, true)
          else none
      | none =>
          some (some { batch with
            numRows := remaining
            selectionVector := some (List.range remaining) }, true)

namespace TransformOperator

variable (P : Platform)

/-- `Execute` of the transforms without shared state: the batch returned, if any. -/
def execute (batch : RecordBatch) : TransformOperator → Option (Option RecordBatch)
  | filter f => filterExecute P f batch
  | scalar fs => (scalarExecute P fs batch).map some
  | drop idxs => (dropExecute idxs batch).map some
  | reorder idxs => (reorderExecute idxs batch).map some
  | limit _ => none

/-- `Execute` may return `r` for the batch. -/
def Returns (t : TransformOperator) (batch : RecordBatch) (r : Option RecordBatch) : Prop :=
  match t with
  | limit n => ∃ oldRows isDone, limitCut n oldRows batch = some (r, isDone)
  | t => t.execute P batch = some r

/-- Whether the operator is a `LimitTransformOperator`. -/
def isLimit : TransformOperator → Bool
  | limit _ => true
  | _ => false

/-- Without shared state, `Execute` returns one thing. -/
theorem returns_iff_execute {P : Platform} {t : TransformOperator} (ht : t.isLimit = false)
    {b : RecordBatch} {r : Option RecordBatch} : t.Returns P b r ↔ t.execute P b = some r := by
  cases t with
  | limit n => simp [isLimit] at ht
  | filter _ | scalar _ | drop _ | reorder _ => rfl

end TransformOperator

/-- `b'` is the result of applying all the transforms, in order, to `b`. -/
inductive Chain (P : Platform) : List TransformOperator → RecordBatch → RecordBatch → Prop
  | nil (b : RecordBatch) : Chain P [] b b
  | cons {t : TransformOperator} {ts : List TransformOperator} {b b₁ b' : RecordBatch} :
      t.Returns P b (some b₁) → Chain P ts b₁ b' → Chain P (t :: ts) b b'

/-- One more transform at the end. -/
theorem Chain.concat {P : Platform} {ts : List TransformOperator} {t : TransformOperator}
    {b b₁ b' : RecordBatch} (h : Chain P ts b b₁) (ht : t.Returns P b₁ (some b')) :
    Chain P (ts ++ [t]) b b' := by
  induction h with
  | nil b => exact .cons ht (.nil b')
  | cons hr _ ih => exact .cons hr (ih ht)

/-! ## Layout -/

/-- The scalar functions read columns of their classes, each after those before it have appended
their columns. -/
def ScalarsWellTyped : List ColumnType → List ScalarFunction → Prop
  | _, [] => True
  | types, f :: fs => f.WellTyped types ∧ ScalarsWellTyped (types ++ [f.returnType]) fs

namespace TransformOperator

/-- Every column the transform reads exists and has the class it is cast to. -/
def WellTyped (types : List ColumnType) : TransformOperator → Prop
  | filter f => f.WellTyped types
  | scalar fs => ScalarsWellTyped types fs
  | drop idxs => idxs.Nodup ∧ ∀ i ∈ idxs, i < types.length
  | reorder idxs => ∀ i ∈ idxs, i < types.length
  | limit _ => True

/-- The types of the columns of what the transform returns. -/
def outputTypes (types : List ColumnType) : TransformOperator → List ColumnType
  | filter _ => types
  | scalar fs => types ++ fs.map ScalarFunction.returnType
  | drop idxs => idxs.map fun i => types.getD i default
  | reorder idxs => idxs.map fun i => types.getD i default
  | limit _ => types

/-- A scalar function that gets no column but a selection vector takes `num_rows` for the physical
length; the selection vector must then stay below it. -/
def FitsRows (batch : RecordBatch) : TransformOperator → Prop
  | scalar (_ :: _) => batch.columns = [] → ∀ i ∈ batch.selected, i < batch.numRows
  | _ => True

end TransformOperator

/-! ## The transforms one by one -/

variable {P : Platform} {b : RecordBatch}

/-- Keeping the columns at some indices. -/
theorem gather_columns {idxs : List ℕ} (h : ∀ i ∈ idxs, i < b.types.length) :
    ∃ columns, gather b.columns idxs = some columns ∧ (∀ c ∈ columns, c ∈ b.columns) ∧
      columns.map Column.type = idxs.map fun i => b.types.getD i default := by
  induction idxs with
  | nil => exact ⟨[], rfl, by simp, rfl⟩
  | cons i idxs ih =>
      obtain ⟨columns, hgather, hmem, htypes⟩ := ih fun j hj => h j (List.mem_cons_of_mem i hj)
      have hi : i < b.columns.length := by simpa [RecordBatch.types] using h i List.mem_cons_self
      have hget := List.getElem?_eq_getElem hi
      refine ⟨b.columns[i] :: columns, by simp [gather_cons, hget, hgather], ?_, ?_⟩
      · rintro c hc
        rcases List.mem_cons.mp hc with rfl | hc
        · exact List.getElem_mem hi
        · exact hmem c hc
      · simp [htypes, RecordBatch.types, hget]

/-- A batch with some of the columns is well formed. -/
theorem RecordBatch.WellFormed.sub_columns (hb : b.WellFormed) {columns : List Column}
    (hmem : ∀ c ∈ columns, c ∈ b.columns) :
    RecordBatch.WellFormed { b with columns := columns } := by
  obtain ⟨p, hsize, hsel⟩ := hb
  have hne : columns ≠ [] → b.columns ≠ [] := by
    intro h hnil
    obtain ⟨c, hc⟩ := List.exists_mem_of_ne_nil columns h
    simpa [hnil] using hmem c hc
  refine ⟨p, fun c hc => hsize c (hmem c hc), ?_⟩
  cases hs : b.selectionVector with
  | none =>
      rw [hs] at hsel
      exact fun h => hsel (hne h)
  | some sel =>
      rw [hs] at hsel
      exact ⟨hsel.1, hsel.2.1, fun h => hsel.2.2 (hne h)⟩

/-- A batch with a selection vector of selected rows, in increasing order, is well formed. -/
theorem RecordBatch.WellFormed.sub_selection (hb : b.WellFormed) {sel : List ℕ}
    (hsorted : sel.Pairwise (· < ·)) (hmem : ∀ i ∈ sel, i ∈ b.selected) :
    RecordBatch.WellFormed { b with numRows := sel.length, selectionVector := some sel } := by
  have hlt := fun c hc i hi => hb.selected_lt (c := c) hc i (hmem i hi)
  obtain ⟨p, hsize, -⟩ := hb
  refine ⟨p, hsize, hsorted, rfl, ?_⟩
  intro hne i hi
  obtain ⟨c, hc⟩ := List.exists_mem_of_ne_nil _ hne
  exact hsize c hc ▸ hlt c hc i hi

/-- Appending a column of the guessed length keeps a batch well formed exactly when its rows fit. -/
theorem append_column_wellFormed_iff (hb : b.WellFormed) {c : Column}
    (hc : c.size = physicalSizeOrRows b) :
    RecordBatch.WellFormed { b with columns := b.columns ++ [c] } ↔
      (b.columns = [] → ∀ i ∈ b.selected, i < b.numRows) := by
  constructor
  · rintro hwf hnil i hi
    have hlt := hwf.selected_lt (c := c) (by simp) i hi
    rw [hc] at hlt
    simpa [physicalSizeOrRows, hnil] using hlt
  · intro hfits
    have hrange : ∀ i ∈ b.selected, i < physicalSizeOrRows b := by
      by_cases hnil : b.columns = []
      · simpa [physicalSizeOrRows, hnil] using hfits hnil
      · intro i hi
        obtain ⟨c', hc'⟩ := List.exists_mem_of_ne_nil _ hnil
        have hlt := hb.selected_lt hc' i hi
        obtain ⟨p, hp⟩ := hb
        rwa [hp.1 c' hc', ← ScalarFunction.physicalSizeOrRows_eq hp hnil] at hlt
    refine ⟨physicalSizeOrRows b, ?_, ?_⟩
    · intro c' hc'
      rcases List.mem_append.mp hc' with hc' | hc'
      · obtain ⟨p, hp⟩ := hb
        rw [hp.1 c' hc', ScalarFunction.physicalSizeOrRows_eq hp (List.ne_nil_of_mem hc')]
      · rw [List.mem_singleton.mp hc', hc]
    · unfold RecordBatch.selected at hrange
      cases hs : b.selectionVector with
      | none =>
          intro _
          by_cases hnil : b.columns = []
          · simp [physicalSizeOrRows, hnil]
          · obtain ⟨p, hp⟩ := hb
            rw [ScalarFunction.physicalSizeOrRows_eq hp hnil]
            have hsel := hp.2
            rw [hs] at hsel
            exact hsel hnil
      | some sel =>
          rw [hs] at hrange
          obtain ⟨p, -, hsel⟩ := hb
          rw [hs] at hsel
          exact ⟨hsel.1, hsel.2.1, fun _ => hrange⟩

/-- The scalar functions of a transform on a well-formed batch. -/
theorem scalarExecute_sound {fs : List ScalarFunction} (hb : b.WellFormed)
    (ht : ScalarsWellTyped b.types fs) (hfits : (TransformOperator.scalar fs).FitsRows b) :
    ∃ b', scalarExecute P fs b = some b' ∧ b'.WellFormed ∧
      b'.types = b.types ++ fs.map ScalarFunction.returnType := by
  induction fs generalizing b with
  | nil => exact ⟨b, rfl, hb, by simp⟩
  | cons f fs ih =>
      obtain ⟨c, hc, htype, hsize⟩ := ScalarFunction.evaluate_sound (P := P) hb ht.1
      set b₁ : RecordBatch := { b with columns := b.columns ++ [c] } with hb₁
      have hwf : b₁.WellFormed := (append_column_wellFormed_iff hb hsize).mpr hfits
      have htypes : b₁.types = b.types ++ [f.returnType] := by
        simp [hb₁, RecordBatch.types, htype]
      obtain ⟨b', hb', hwf', htypes'⟩ := ih hwf (htypes ▸ ht.2) (by
        cases fs with
        | nil => trivial
        | cons g gs => exact fun hnil => absurd hnil (by simp [hb₁]))
      refine ⟨b', ?_, hwf', by rw [htypes', htypes]; simp⟩
      simpa [scalarExecute, hc, ← hb₁] using hb'

/-- The first scalar function of a transform and the others. -/
theorem scalarExecute_cons {f : ScalarFunction} {fs : List ScalarFunction} {b' : RecordBatch}
    (h : scalarExecute P (f :: fs) b = some b') :
    ∃ c, f.evaluate P b = some c ∧
      scalarExecute P fs { b with columns := b.columns ++ [c] } = some b' := by
  unfold scalarExecute at h
  rw [List.foldlM_cons, Option.bind_eq_bind, Option.bind_eq_some_iff] at h
  obtain ⟨b₁, hb₁, h⟩ := h
  obtain ⟨c, hc, rfl⟩ := Option.map_eq_some_iff.mp hb₁
  exact ⟨c, hc, h⟩

/-- What the scalar functions of a transform have appended. -/
theorem scalarExecute_eq_some {fs : List ScalarFunction} {b' : RecordBatch}
    (h : scalarExecute P fs b = some b') :
    ScalarsWellTyped b.types fs ∧
      ∃ columns, b' = { b with columns := b.columns ++ columns } := by
  induction fs generalizing b with
  | nil =>
      obtain rfl : b = b' := by simpa [scalarExecute] using h
      exact ⟨trivial, [], by simp⟩
  | cons f fs ih =>
      obtain ⟨c, hc, h⟩ := scalarExecute_cons h
      obtain ⟨htyped, columns, rfl⟩ := ih h
      refine ⟨⟨ScalarFunction.wellTyped_of_evaluate hc, ?_⟩, c :: columns, by simp⟩
      simpa [RecordBatch.types, ScalarFunction.type_of_evaluate hc] using htyped

/-- If the batch with all the new columns is well formed, the rows fit the first one. -/
theorem fitsRows_of_scalarExecute (hb : b.WellFormed) {fs : List ScalarFunction} {b' : RecordBatch}
    (h : scalarExecute P fs b = some b') (hwf : b'.WellFormed) :
    (TransformOperator.scalar fs).FitsRows b := by
  cases fs with
  | nil => trivial
  | cons f fs =>
      obtain ⟨c, hc, hrest⟩ := scalarExecute_cons h
      obtain ⟨-, columns, rfl⟩ := scalarExecute_eq_some hrest
      have hfirst : RecordBatch.WellFormed { b with columns := b.columns ++ [c] } :=
        hwf.sub_columns fun c' hc' => List.mem_append_left columns hc'
      obtain ⟨c', hc', -, hsize⟩ :=
        ScalarFunction.evaluate_sound (P := P) hb (ScalarFunction.wellTyped_of_evaluate hc)
      obtain rfl : c = c' := Option.some.inj (hc.symm.trans hc')
      exact (append_column_wellFormed_iff hb hsize).mp hfirst

/-- A limit cuts the selected rows. -/
theorem limitCut_sound (hb : b.WellFormed) (limit oldRows : ℕ) :
    ∃ r isDone, limitCut limit oldRows b = some (r, isDone) ∧
      ∀ b', r = some b' → b'.WellFormed ∧ b'.types = b.types := by
  unfold limitCut
  dsimp only
  split_ifs with hover hwhole
  · exact ⟨_, _, rfl, by simp⟩
  · refine ⟨_, _, rfl, ?_⟩
    intro b' hb'
    obtain rfl := Option.some.inj hb'
    exact ⟨hb, rfl⟩
  · have hlen := hb.length_selected
    have hcut := hb.sub_selection (hb.selected_increasing.sublist (List.take_sublist
      (limit - oldRows) _)) fun i hi => List.mem_of_mem_take hi
    rw [List.length_take, hlen, min_eq_left (not_le.mp hwhole).le] at hcut
    unfold RecordBatch.selected at hlen hcut
    cases hs : b.selectionVector with
    | none =>
        rw [hs] at hcut
        rw [List.take_range, min_eq_left (not_le.mp hwhole).le] at hcut
        refine ⟨_, _, rfl, ?_⟩
        intro b' hb'
        obtain rfl := Option.some.inj hb'
        exact ⟨hcut, rfl⟩
    | some sel =>
        rw [hs] at hcut hlen
        dsimp only at hlen ⊢
        rw [if_pos (by omega)]
        refine ⟨_, _, rfl, ?_⟩
        intro b' hb'
        obtain rfl := Option.some.inj hb'
        exact ⟨hcut, rfl⟩

namespace TransformOperator

/-- A well-typed transform whose rows fit turns a well-formed batch into a well-formed one of its
output layout. -/
theorem returns_wellFormed (hb : b.WellFormed) {t : TransformOperator} (ht : t.WellTyped b.types)
    (hfits : t.FitsRows b) : (∃ r, t.Returns P b r) ∧
      ∀ r, t.Returns P b r →
        ∀ b', r = some b' → b'.WellFormed ∧ b'.types = t.outputTypes b.types := by
  have hunique : ∀ {r₀ : Option RecordBatch}, t.execute P b = some r₀ →
      (∀ b', r₀ = some b' → b'.WellFormed ∧ b'.types = t.outputTypes b.types) →
      t.isLimit = false → (∃ r, t.Returns P b r) ∧
        ∀ r, t.Returns P b r → ∀ b', r = some b' →
          b'.WellFormed ∧ b'.types = t.outputTypes b.types := by
    intro r₀ h₀ hgood hlimit
    refine ⟨⟨r₀, (returns_iff_execute hlimit).mpr h₀⟩, ?_⟩
    intro r hr
    obtain rfl := Option.some.inj (h₀.symm.trans ((returns_iff_execute hlimit).mp hr))
    exact hgood
  cases t with
  | filter f =>
      obtain ⟨sel, hsel, hsorted, hmem⟩ := f.evaluate_sound (P := P) hb ht
      refine hunique (by rw [execute, filterExecute, hsel, Option.map_some]) ?_ rfl
      intro b' hb'
      split_ifs at hb' with hempty
      obtain rfl := Option.some.inj hb'
      exact ⟨hb.sub_selection hsorted hmem, rfl⟩
  | scalar fs =>
      obtain ⟨b₁, hb₁, hwf, htypes⟩ := scalarExecute_sound (P := P) hb ht hfits
      refine hunique (by rw [execute, hb₁, Option.map_some]) ?_ rfl
      rintro b' hb'
      obtain rfl := Option.some.inj hb'
      exact ⟨hwf, htypes⟩
  | drop idxs =>
      obtain ⟨columns, hgather, hmem, htypes⟩ := gather_columns (b := b) ht.2
      refine hunique (by rw [execute, dropExecute, if_pos ht.1, hgather]; rfl) ?_ rfl
      rintro b' hb'
      obtain rfl := Option.some.inj hb'
      exact ⟨hb.sub_columns hmem, htypes⟩
  | reorder idxs =>
      obtain ⟨columns, hgather, hmem, htypes⟩ := gather_columns (b := b) ht
      refine hunique (by rw [execute, reorderExecute, hgather]; rfl) ?_ rfl
      rintro b' hb'
      obtain rfl := Option.some.inj hb'
      exact ⟨hb.sub_columns hmem, htypes⟩
  | limit n =>
      refine ⟨?_, ?_⟩
      · obtain ⟨r, isDone, hcut, -⟩ := limitCut_sound hb n 0
        exact ⟨r, 0, isDone, hcut⟩
      · rintro r ⟨oldRows, isDone, hr⟩
        obtain ⟨r', isDone', hcut, hgood⟩ := limitCut_sound hb n oldRows
        rw [hr, Option.some.injEq, Prod.mk.injEq] at hcut
        exact hcut.1 ▸ hgood

/-- **The exact condition**: a transform turns a well-formed batch into a well-formed one if and
only if it is well typed and its rows fit. -/
theorem returns_iff (hb : b.WellFormed) (t : TransformOperator) :
    ((∃ r, t.Returns P b r) ∧ ∀ r, t.Returns P b r → ∀ b', r = some b' → b'.WellFormed) ↔
      t.WellTyped b.types ∧ t.FitsRows b := by
  constructor
  · rintro ⟨⟨r, hr⟩, hgood⟩
    cases t with
    | filter f =>
        obtain ⟨sel, hsel, -⟩ := Option.map_eq_some_iff.mp hr
        exact ⟨FilterFunction.wellTyped_of_evaluate hsel, trivial⟩
    | scalar fs =>
        obtain ⟨b', hb', rfl⟩ := Option.map_eq_some_iff.mp hr
        exact ⟨(scalarExecute_eq_some hb').1,
          fitsRows_of_scalarExecute hb hb' (hgood _ hr b' rfl)⟩
    | drop idxs =>
        obtain ⟨b', hb', -⟩ := Option.map_eq_some_iff.mp hr
        unfold dropExecute at hb'
        split_ifs at hb' with hnodup
        obtain ⟨columns, hgather, -⟩ := Option.map_eq_some_iff.mp hb'
        exact ⟨⟨hnodup, by simpa [RecordBatch.types] using lt_of_gather hgather⟩, trivial⟩
    | reorder idxs =>
        obtain ⟨b', hb', -⟩ := Option.map_eq_some_iff.mp hr
        obtain ⟨columns, hgather, -⟩ := Option.map_eq_some_iff.mp hb'
        exact ⟨by simpa [WellTyped, RecordBatch.types] using lt_of_gather hgather, trivial⟩
    | limit n => exact ⟨trivial, trivial⟩
  · rintro ⟨ht, hfits⟩
    obtain ⟨hex, hgood⟩ := returns_wellFormed (P := P) hb ht hfits
    exact ⟨hex, fun r hr b' hb' => (hgood r hr b' hb').1⟩

end TransformOperator

end ColumnarEngine
