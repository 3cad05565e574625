import ColumnarEngine.Plan.Schedule

/-!
# Well-formed batches along a compiled chain

Whether the transforms of a compiled pipeline keep a source batch well formed. They do exactly where
each of them finds the columns it reads (`StepsRead`) and no scalar function guesses a wrong length
for a batch without columns (`FitsRows`). A compiled transform fits the columns of the schema, so of
a batch that has these only the casts are left to go wrong that compilation does not check
(`CastsMatch`, `compiled_wellFormed_iff`); the batch that an `ORDER BY` without rows hands on has no
columns. In `drop_literal_ill_formed` the guess is wrong.
-/

namespace ColumnarEngine

namespace TransformOperator

variable (P : Platform)

/-- The loop hands `b'` on to the next transform: `Execute` has returned it, it has rows, and a
`Limit` is not done. -/
def Passes (t : TransformOperator) (b b' : RecordBatch) : Prop :=
  0 < b'.numRows ∧
    match t with
    | limit n => ∃ oldRows, limitCut n oldRows b = some (some b', false)
    | t => t.execute P b = some (some b')

variable {P}

theorem Passes.returns {t : TransformOperator} {b b' : RecordBatch} (h : t.Passes P b b') :
    t.Returns P b (some b') := by
  cases t with
  | limit n =>
      obtain ⟨oldRows, hcut⟩ := h.2
      exact ⟨oldRows, false, hcut⟩
  | filter _ | scalar _ | drop _ | reorder _ => exact h.2

/-- The casts of the scalar functions match, each over the columns appended before it. -/
def ScalarCastsMatch : List ColumnType → List ScalarFunction → Prop
  | _, [] => True
  | types, f :: fs => f.CastsMatch types ∧ ScalarCastsMatch (types ++ [f.returnType]) fs

/-- The casts that compilation does not check match. -/
def CastsMatch (types : List ColumnType) : TransformOperator → Prop
  | scalar fs => ScalarCastsMatch types fs
  | _ => True

end TransformOperator

open TransformOperator

section chain

variable (P : Platform)

/-- The transforms keep the batch well formed: each is defined on the batch that reaches it, and
every batch it can return is well formed. -/
def KeepsWellFormed : List TransformOperator → RecordBatch → Prop
  | [], b => b.WellFormed
  | t :: ts, b => b.WellFormed ∧ (∃ r, t.Returns P b r) ∧
      (∀ r, t.Returns P b r → ∀ b', r = some b' → b'.WellFormed) ∧
      ∀ b', t.Passes P b b' → KeepsWellFormed ts b'

/-- Every transform meets the condition on the batch that reaches it: the columns it reads are there
and have the classes they are cast to, and a scalar function that gets no column gets selected rows
below `num_rows` only. -/
def StepsRead : List TransformOperator → RecordBatch → Prop
  | [], _ => True
  | t :: ts, b => t.WellTyped b.types ∧ t.FitsRows b ∧ ∀ b', t.Passes P b b' → StepsRead ts b'

/-- The same for batches of the columns of the schema: the casts of every transform match, and a
scalar function that gets no column gets selected rows below `num_rows` only. -/
def StepsMeet : List TransformOperator → RecordBatch → Prop
  | [], _ => True
  | t :: ts, b => t.CastsMatch b.types ∧ t.FitsRows b ∧ ∀ b', t.Passes P b b' → StepsMeet ts b'

end chain

variable {P : Platform}

/-- Functions that fit and whose casts match are well typed and append columns of the declared
types. -/
theorem scalars_wellTyped {fields : List Field} {fs : List ScalarFunction} {names : List Bytes}
    (hfit : ScalarsFit fields fs names) (hcasts : ScalarCastsMatch (typesOf fields) fs) :
    ScalarsWellTyped (typesOf fields) fs ∧
      typesOf (appendScalars fields fs names) =
        typesOf fields ++ fs.map ScalarFunction.returnType := by
  induction fs generalizing fields names with
  | nil => cases names <;> exact ⟨trivial, by simp [appendScalars]⟩
  | cons f fs ih =>
      cases names with
      | nil => exact hfit.elim
      | cons name names =>
          have htypes : typesOf (fields ++ [⟨name, f.declaredType (typesOf fields)⟩]) =
              typesOf fields ++ [f.returnType] := by
            simp [typesOf, ScalarFunction.declaredType_eq hcasts.1]
          obtain ⟨htyped, happend⟩ := ih hfit.2 (htypes ▸ hcasts.2)
          refine ⟨⟨hfit.1 hcasts.1, htypes ▸ htyped⟩, ?_⟩
          rw [appendScalars, happend, htypes, List.map_cons, List.append_assoc]
          rfl

theorem scalarCastsMatch_of_wellTyped {types : List ColumnType} {fs : List ScalarFunction}
    (h : ScalarsWellTyped types fs) : ScalarCastsMatch types fs := by
  induction fs generalizing types with
  | nil => trivial
  | cons f fs ih => exact ⟨ScalarFunction.castsMatch_of_wellTyped h.1, ih h.2⟩

/-- A compiled transform over columns of the schema is well typed exactly where its casts match, and
then it produces the columns of the schema. -/
theorem CompiledTransform.wellTyped_iff {fields : List Field} {t : CompiledTransform}
    (ht : t.Fits fields) :
    (t.op.WellTyped (typesOf fields) ↔ t.op.CastsMatch (typesOf fields)) ∧
      (t.op.CastsMatch (typesOf fields) →
        t.op.outputTypes (typesOf fields) = typesOf (t.outputFields fields)) := by
  obtain ⟨op, names⟩ := t
  have hgetD : ∀ idxs : List ℕ, (idxs.map fun i => (typesOf fields).getD i default) =
      typesOf (idxs.map fun i => fields.getD i default) := by
    intro idxs
    simp only [typesOf, List.map_map]
    apply List.map_congr_left
    intro i _
    simp only [Function.comp_apply, List.getD_eq_getElem?_getD, List.getElem?_map]
    cases fields[i]? <;> rfl
  cases op with
  | filter f => exact ⟨⟨fun _ => trivial, fun _ => ht⟩, fun _ => rfl⟩
  | scalar fs =>
      refine ⟨⟨scalarCastsMatch_of_wellTyped, fun h => (scalars_wellTyped ht h).1⟩, ?_⟩
      intro h
      exact (scalars_wellTyped ht h).2.symm
  | drop idxs =>
      refine ⟨⟨fun _ => trivial, fun _ => ⟨ht.1, ?_⟩⟩, fun _ => hgetD idxs⟩
      simpa using ht.2
  | reorder idxs =>
      have hlt : ∀ i ∈ idxs, i < fields.length := ht
      refine ⟨⟨fun _ => trivial, fun _ => ?_⟩, fun _ => hgetD idxs⟩
      simpa [WellTyped] using hlt
  | limit n => exact ⟨⟨fun _ => trivial, fun _ => trivial⟩, fun _ => rfl⟩

/-- Transforms keep a batch well formed exactly where each finds the columns it reads. -/
theorem keepsWellFormed_iff {ts : List TransformOperator} {b : RecordBatch} (hb : b.WellFormed) :
    KeepsWellFormed P ts b ↔ StepsRead P ts b := by
  induction ts generalizing b with
  | nil => exact ⟨fun _ => trivial, fun _ => hb⟩
  | cons t ts ih =>
      have hstep := returns_iff (P := P) hb t
      rw [KeepsWellFormed, StepsRead]
      constructor
      · rintro ⟨-, hex, hgood, hrest⟩
        obtain ⟨htyped, hfits⟩ := hstep.mp ⟨hex, hgood⟩
        refine ⟨htyped, hfits, ?_⟩
        intro b' hb'
        exact (ih (hgood _ hb'.returns b' rfl)).mp (hrest b' hb')
      · rintro ⟨htyped, hfits, hrest⟩
        obtain ⟨hex, hgood⟩ := hstep.mpr ⟨htyped, hfits⟩
        refine ⟨hb, hex, hgood, ?_⟩
        intro b' hb'
        exact (ih (hgood _ hb'.returns b' rfl)).mpr (hrest b' hb')

/-- Over columns that the transforms fit, only the casts are left to match. -/
theorem stepsRead_iff {fields : List Field} {ts : List CompiledTransform} {b : RecordBatch}
    (hts : TransformsFit fields ts) (hb : b.WellFormed) (htypes : b.types = typesOf fields) :
    StepsRead P (ts.map CompiledTransform.op) b ↔ StepsMeet P (ts.map CompiledTransform.op) b := by
  induction ts generalizing fields b with
  | nil => exact Iff.rfl
  | cons t ts ih =>
      obtain ⟨hcasts, houtput⟩ := CompiledTransform.wellTyped_iff hts.1
      rw [← htypes] at hcasts houtput
      rw [List.map_cons, StepsRead, StepsMeet, hcasts]
      refine and_congr_right fun hc => and_congr_right fun hfits => ?_
      refine forall_congr' fun b' => forall_congr' fun hb' => ?_
      -- the batches handed on are well formed, over the columns after the transform
      obtain ⟨-, hgood⟩ := returns_wellFormed (P := P) hb (hcasts.mpr hc) hfits
      obtain ⟨hwf, htypes'⟩ := hgood _ hb'.returns b' rfl
      exact ih hts.2 hwf (htypes'.trans (houtput hc))

/-- The types of the columns that the source of the pipeline at a position of the schedule emits. -/
def BuildContext.sourceTypes (ctx : BuildContext) (k : ℕ) : List ColumnType :=
  typesOf ((ctx.schedule.getD k {}).sourceFields ctx.breakers
    (scheduleFields ctx.breakers (ctx.schedule.take k)))

/-- The transform operators of the pipeline at a position of the schedule. -/
def BuildContext.transformsAt (ctx : BuildContext) (k : ℕ) : List TransformOperator :=
  (ctx.schedule.getD k {}).transforms.map CompiledTransform.op

/-- **Well-formedness along a compiled chain.** For every accepted plan and every pipeline of it, the
transforms keep a well-formed source batch well formed if and only if every transform meets the
condition on the batch that reaches it; of a batch with the columns of the source only the casts are
asked. -/
theorem compiled_wellFormed_iff {plan : PlanNode} {threads : ℕ} {ctx : BuildContext}
    (h : compile P plan threads = .ok ctx) {k : ℕ} (hk : k < ctx.schedule.length) {b : RecordBatch}
    (hb : b.WellFormed) :
    (KeepsWellFormed P (ctx.transformsAt k) b ↔ StepsRead P (ctx.transformsAt k) b) ∧
      (b.types = ctx.sourceTypes k →
        (StepsRead P (ctx.transformsAt k) b ↔ StepsMeet P (ctx.transformsAt k) b)) := by
  obtain ⟨ps, p, hps, -, hschedule⟩ := compile_schedule h
  have hget : ctx.schedule[k]? = some (ctx.schedule.getD k {}) := by
    rw [List.getD_eq_getElem _ _ hk, List.getElem?_eq_getElem hk]
  have hfits := hschedule.fits k _ (hps ▸ hget)
  rw [← hps] at hfits
  exact ⟨keepsWellFormed_iff hb, stepsRead_iff hfits.2 hb⟩

/-- A table with the `INT32` column `a`. -/
def tableA : MetadataTable := ⟨[⟨ascii "a", .int32, [0], [8]⟩], 2⟩

/-- Its one batch, with the values 3 and 5. -/
def batchA : RecordBatch := ⟨2, none, [Column.ofValues .int32 [.int 3, .int 5]]⟩

/-- The rows of the table with the value 5. -/
def filterA : PlanNode := .filter (.scan [ascii "a"] tableA) (.eq (ascii "a") .int32 (.int 5))

/-- A filter and a sum: both steps meet the condition. -/
theorem compiled_wellFormed_addConst :
    let plan := PlanNode.scalar filterA [.addConstant (ascii "a") .int32 (.int 1) []]
    ∃ ctx, compile Platform.integral plan 1 = .ok ctx ∧
      ctx.transformsAt 0 = [.filter (.eq .int32 0 (.int 5)), .scalar [.addConstant .int32 0 (.int 1)]] ∧
      KeepsWellFormed Platform.integral (ctx.transformsAt 0) batchA := by
  intro plan
  have hrun : (compile Platform.integral plan 1).toOption.map
      (fun ctx => (ctx.schedule.length, ctx.sourceTypes 0, ctx.transformsAt 0)) = some (1, [.int32],
        [.filter (.eq .int32 0 (.int 5)), .scalar [.addConstant .int32 0 (.int 1)]]) := by decide
  obtain ⟨ctx, hok, hresult⟩ := compile_eq_ok hrun
  obtain ⟨hlength, hresult⟩ := Prod.mk.inj hresult
  obtain ⟨htypes, htransforms⟩ := Prod.mk.inj hresult
  refine ⟨ctx, hok, htransforms, ?_⟩
  obtain ⟨hkeeps, hreads⟩ := compiled_wellFormed_iff hok (k := 0) (b := batchA) (by omega) (by decide)
  rw [hkeeps, hreads (htypes ▸ rfl), htransforms]
  refine ⟨trivial, trivial, fun b' hb' => ⟨⟨trivial, trivial⟩, fun hnil => ?_, fun _ _ => trivial⟩⟩
  have hfilter : filterExecute Platform.integral (.eq .int32 0 (.int 5)) batchA =
      some (some ⟨1, some [1], batchA.columns⟩) := by decide
  obtain rfl : ⟨1, some [1], batchA.columns⟩ = b' :=
    Option.some.inj (Option.some.inj (hfilter.symm.trans hb'.2))
  exact absurd hnil (by decide)

/-- **A literal after all columns are dropped**: the filter has left the selection 1, the literal
column has the length `num_rows`, which is 1, and the batch that is sunk selects an element past its
end. -/
theorem drop_literal_ill_formed :
    let plan := PlanNode.scalar (.drop filterA [ascii "a"]) [.constant (ascii "x") .int64 (.int 7)]
    ∃ ctx, compile Platform.integral plan 1 = .ok ctx ∧ batchA.WellFormed ∧
      batchA.types = ctx.sourceTypes 0 ∧
      Chain Platform.integral (ctx.transformsAt 0) batchA
        ⟨1, some [1], [Column.ofValues .int64 [.int 7]]⟩ ∧
      ¬ RecordBatch.WellFormed ⟨1, some [1], [Column.ofValues .int64 [.int 7]]⟩ ∧
      ¬ KeepsWellFormed Platform.integral (ctx.transformsAt 0) batchA := by
  intro plan
  have hrun : (compile Platform.integral plan 1).toOption.map
      (fun ctx => (ctx.sourceTypes 0, ctx.transformsAt 0)) = some ([.int32],
        [.filter (.eq .int32 0 (.int 5)), .drop [], .scalar [.constant .int64 (.int 7)]]) := by decide
  obtain ⟨ctx, hok, hresult⟩ := compile_eq_ok hrun
  obtain ⟨htypes, htransforms⟩ := Prod.mk.inj hresult
  have hfilter : TransformOperator.Passes Platform.integral (.filter (.eq .int32 0 (.int 5))) batchA
      ⟨1, some [1], batchA.columns⟩ := ⟨by decide, by decide⟩
  have hdrop : TransformOperator.Passes Platform.integral (.drop []) ⟨1, some [1], batchA.columns⟩
      ⟨1, some [1], []⟩ := ⟨by decide, by decide⟩
  have hscalar : TransformOperator.Passes Platform.integral (.scalar [.constant .int64 (.int 7)])
      ⟨1, some [1], []⟩ ⟨1, some [1], [Column.ofValues .int64 [.int 7]]⟩ := ⟨by decide, by decide⟩
  have hbad : ¬ RecordBatch.WellFormed ⟨1, some [1], [Column.ofValues .int64 [.int 7]]⟩ := by decide
  refine ⟨ctx, hok, by decide, htypes ▸ rfl, ?_, hbad, ?_⟩
  · rw [htransforms]
    exact .cons hfilter.returns (.cons hdrop.returns (.cons hscalar.returns (.nil _)))
  · intro h
    rw [htransforms] at h
    exact hbad (((h.2.2.2 _ hfilter).2.2.2 _ hdrop).2.2.1 _ hscalar.returns _ rfl)

end ColumnarEngine
