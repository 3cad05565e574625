import ColumnarEngine.Exec.PipelineProgress

/-!
# A pipeline that ends with a `Limit`

The `LIMIT n` of a query is the last transform of its pipeline. Every batch that comes out of the
transforms before it claims its rows from the counter of the `Limit`, a batch is cut where the
claims cross the limit, and a task that sees the flag stops taking batches. Whatever the
interleaving, the rows claimed and those that tasks have still to claim are the rows of the batches
taken, and the rows sunk and those held behind the `Limit` are the claimed ones up to the limit
(`LimitAccounts`). A task leaves only at the end of the source or when the limit has been claimed,
so after `Execute` exactly `n` rows have been sunk, or all if there are fewer (`limit_sinks`).
-/

namespace ColumnarEngine

open Found

/-- The `num_rows` of a result that may be null. -/
def numRowsOf (result : Option RecordBatch) : ℕ := result.elim 0 RecordBatch.numRows

/-- The rows of a result that may be null. -/
def rowsOf (result : Option RecordBatch) : Multiset Row := result.elim 0 fun b => b.rows

/-- What a `Limit` that finds `oldRows` in its counter returns: as many rows as fit below the limit,
of the rows of the batch. -/
theorem rowsOf_limitCut {limit oldRows : ℕ} {b : RecordBatch} (hrows : oldRows + b.numRows < 2 ^ 64)
    {r : Option RecordBatch} {isDone : Bool} (h : limitCut limit oldRows b = some (r, isDone)) :
    numRowsOf r + min limit oldRows = min limit (oldRows + b.numRows) ∧
      rowsOf r ≤ (b.rows : Multiset Row) ∧ (isDone = true → limit ≤ oldRows + b.numRows) := by
  unfold limitCut at h
  dsimp only at h
  split_ifs at h with hover hwhole
  · obtain ⟨rfl, rfl⟩ := Prod.mk.inj (Option.some.inj h)
    refine ⟨?_, Multiset.zero_le _, fun _ => by omega⟩
    simp only [numRowsOf, Option.elim_none]
    omega
  · obtain ⟨rfl, rfl⟩ := Prod.mk.inj (Option.some.inj h)
    rw [decide_eq_true_iff, Nat.mod_eq_of_lt hrows]
    refine ⟨?_, le_rfl, id⟩
    simp only [numRowsOf, Option.elim_some]
    omega
  · -- the batch is cut: its first selected indices stay
    have hcut : ∃ b', r = some b' ∧ isDone = true ∧ b'.numRows = limit - oldRows ∧
        b'.columns = b.columns ∧ b'.selected.Sublist b.selected := by
      cases hs : b.selectionVector with
      | none =>
          rw [hs] at h
          obtain ⟨rfl, rfl⟩ := Prod.mk.inj (Option.some.inj h)
          refine ⟨_, rfl, rfl, rfl, rfl, ?_⟩
          simp only [RecordBatch.selected, hs]
          exact List.range_sublist.mpr (not_le.mp hwhole).le
      | some sel =>
          rw [hs] at h
          dsimp only at h
          split_ifs at h
          obtain ⟨rfl, rfl⟩ := Prod.mk.inj (Option.some.inj h)
          refine ⟨_, rfl, rfl, rfl, rfl, ?_⟩
          simp only [RecordBatch.selected, hs]
          exact List.take_sublist _ _
    obtain ⟨b', rfl, rfl, hnum, hcolumns, hselected⟩ := hcut
    have hrowAt : b'.rowAt = b.rowAt := by
      funext i
      rw [RecordBatch.rowAt, RecordBatch.rowAt, hcolumns]
    have hsub : b'.rows.Sublist b.rows := by
      rw [RecordBatch.rows, RecordBatch.rows, hrowAt]
      exact hselected.map _
    refine ⟨?_, hsub.subperm, fun _ => by omega⟩
    simp only [numRowsOf, Option.elim_some, hnum]
    omega

namespace Pipeline

variable {σ τ : Type*} {P : Platform} {p : Pipeline σ τ}

/-! ## The steps of a task, with the counter of the `Limit` -/

/-- `Execute` of a `Limit`. -/
theorem executeTransform_limit {s s' : Shared σ τ} {i n : ℕ} {batch : RecordBatch}
    {point : TaskPoint} (hi : p.transforms[i]? = some (.limit n))
    (h : p.executeTransform P s i batch = some (s', point)) :
    ∃ result isDone, limitCut n (s.limits i).curRows batch = some (result, isDone) ∧
      s' = { s with
        limits := Function.update s.limits i
          ⟨((s.limits i).curRows + batch.numRows) % 2 ^ 64, (s.limits i).isDone⟩ } ∧
      point = if isDone then .storeDone i result else afterExecute i result := by
  rw [executeTransform, hi, Option.bind_some] at h
  obtain ⟨⟨result, isDone⟩, hcut, h⟩ := Option.map_eq_some_iff.mp h
  obtain ⟨rfl, rfl⟩ := Prod.mk.inj h
  exact ⟨result, isDone, hcut, rfl, rfl⟩

/-- `Execute` of another transform. -/
theorem executeTransform_of_not_limit {s s' : Shared σ τ} {i : ℕ} {t : TransformOperator}
    {batch : RecordBatch} {point : TaskPoint} (hi : p.transforms[i]? = some t)
    (ht : t.isLimit = false) (h : p.executeTransform P s i batch = some (s', point)) :
    ∃ result, t.execute P batch = some result ∧ s' = s ∧ point = afterExecute i result := by
  rw [executeTransform, hi, Option.bind_some] at h
  cases t with
  | limit n => simp [TransformOperator.isLimit] at ht
  | filter _ | scalar _ | drop _ | reorder _ =>
      obtain ⟨result, hresult, h⟩ := Option.map_eq_some_iff.mp h
      obtain ⟨rfl, rfl⟩ := Prod.mk.inj h
      exact ⟨result, hresult, rfl, rfl⟩

/-! ## Rows on their way -/

section accounts

variable (P : Platform) (ts : List TransformOperator) (n : ℕ)

/-- The rows of a batch behind a chain of transforms without `Limit`. -/
def rowsBehind (ts : List TransformOperator) (batch : RecordBatch) : ℕ :=
  numRowsOf (chainResult P ts batch)

/-- The rows of some batches behind the chain. -/
def totalBehind (ts : List TransformOperator) (batches : List RecordBatch) : ℕ :=
  (batches.map (rowsBehind P ts)).sum

/-- The rows themselves. -/
def rowsAfter (batches : List RecordBatch) : Multiset Row :=
  (batches.map fun b => rowsOf (chainResult P ts b)).sum

/-- The rows that a task has still to claim for its batch. -/
def unclaimed : TaskPoint → ℕ
  | .execute i batch => rowsBehind P (ts.drop i) batch
  | .isPipelineDone i batch => if i < ts.length then rowsBehind P (ts.drop (i + 1)) batch else 0
  | .getData | .storeDone _ _ | .sink _ _ | .countFinished => 0

/-- The rows that a task holds behind the `Limit`. -/
def held : TaskPoint → ℕ
  | .storeDone _ result => numRowsOf result
  | .isPipelineDone i batch => if i < ts.length then 0 else batch.numRows
  | .sink batch _ => batch.numRows
  | .getData | .execute _ _ | .countFinished => 0

/-- The rows that a task can still sink of its batch. -/
def inFlight : TaskPoint → Multiset Row
  | .execute i batch => rowsOf (chainResult P (ts.drop i) batch)
  | .isPipelineDone i batch => rowsOf (chainResult P (ts.drop (i + 1)) batch)
  | .storeDone _ result => rowsOf result
  | .sink batch _ => batch.rows
  | .getData | .countFinished => 0

/-- What a thread has of its task. -/
def ofThread {M : Type*} [Zero M] (f : TaskPoint → M) : PoolThread → M
  | .waiting => 0
  | .running _ point => f point

/-- Nothing more is needed: the source is used up, or the limit has been claimed. -/
def Settled (p : Pipeline σ τ) (s : Shared σ τ) : Prop :=
  p.source.pending s.source = [] ∨ n ≤ (s.limits ts.length).curRows

/-- What is known where a task stands: the flag is set, and a task leaves, for a reason. -/
def LimitPoint (p : Pipeline σ τ) (s : Shared σ τ) : TaskPoint → Prop
  | .execute i _ => i ≤ ts.length
  | .storeDone i _ => i = ts.length ∧ n ≤ (s.limits ts.length).curRows
  | .isPipelineDone i _ => i ≤ ts.length
  | .sink _ stop => stop = true → n ≤ (s.limits ts.length).curRows
  | .countFinished => Settled ts n p s
  | .getData => True

/-- The number of rows sunk. -/
def rowsSunk (s : Shared σ τ) : ℕ := (s.sunk.map fun c => c.1.numRows).sum

/-- The rows sunk. -/
def sunkRows (s : Shared σ τ) : Multiset Row := (s.sunk.map fun c => (c.1.rows : Multiset Row)).sum

/-- The number of rows, behind the chain, of the batches taken. -/
def rowsTaken (s : Shared σ τ) : ℕ := totalBehind P ts (s.taken.map Prod.fst)

/-- The rows, behind the chain, of the batches taken. -/
def takenRows (s : Shared σ τ) : Multiset Row := rowsAfter P ts (s.taken.map Prod.fst)

/-- The accounts of a run from a source. -/
structure LimitAccounts (p : Pipeline σ τ) (source : σ) (s : ExecState σ τ) : Prop where
  source_eq : p.source.pending source =
    s.shared.taken.map Prod.fst ++ p.source.pending s.shared.source
  claimed : (s.shared.limits ts.length).curRows + (s.threads.map (ofThread (unclaimed P ts))).sum =
    rowsTaken P ts s.shared
  sunk : rowsSunk s.shared + (s.threads.map (ofThread (held ts))).sum =
    min n (s.shared.limits ts.length).curRows
  rows : sunkRows s.shared + (s.threads.map (ofThread (inFlight P ts))).sum ≤
    takenRows P ts s.shared
  isDone : (s.shared.limits ts.length).isDone = true → n ≤ (s.shared.limits ts.length).curRows
  points : ∀ threadId point, .running threadId point ∈ s.threads →
    LimitPoint ts n p s.shared point
  counted : 0 < s.shared.numTasksFinished → Settled ts n p s.shared

/-- What a step of a task does to the accounts. -/
structure LimitTaskAccounts (p : Pipeline σ τ) (s : Shared σ τ) (point : TaskPoint)
    (s' : Shared σ τ) (next : Option TaskPoint) : Prop where
  source_eq : s.taken.map Prod.fst ++ p.source.pending s.source =
    s'.taken.map Prod.fst ++ p.source.pending s'.source
  claimed : (s'.limits ts.length).curRows + next.elim 0 (unclaimed P ts) + rowsTaken P ts s =
    (s.limits ts.length).curRows + unclaimed P ts point + rowsTaken P ts s'
  sunk : rowsSunk s' + next.elim 0 (held ts) + min n (s.limits ts.length).curRows =
    rowsSunk s + held ts point + min n (s'.limits ts.length).curRows
  rows : sunkRows s' + next.elim 0 (inFlight P ts) + takenRows P ts s ≤
    sunkRows s + inFlight P ts point + takenRows P ts s'
  grows : (s.limits ts.length).curRows ≤ (s'.limits ts.length).curRows
  settled : Settled ts n p s → Settled ts n p s'
  isDone : (s'.limits ts.length).isDone = true → n ≤ (s'.limits ts.length).curRows
  points : ∀ point', next = some point' → LimitPoint ts n p s' point'
  counted : s'.numTasksFinished = s.numTasksFinished + next.elim 1 fun _ => 0
  finished : next = none → point = .countFinished

end accounts

/-! ## Rows behind a chain -/

section rows

variable {ts : List TransformOperator}

theorem rowsBehind_nil (batch : RecordBatch) : rowsBehind P [] batch = batch.numRows := rfl

/-- No rows come of a batch without rows. -/
theorem rowsBehind_empty {batch : RecordBatch} (h : batch.numRows = 0) :
    rowsBehind P ts batch = 0 := by
  have hnone : deliver P ts (batch, 0) = none := deliver_empty h
  rw [deliver, Option.map_eq_none_iff, Option.filter_eq_none_iff] at hnone
  unfold rowsBehind
  cases hresult : chainResult P ts batch with
  | none => rfl
  | some b =>
      have hb := hnone b hresult
      simpa [numRowsOf] using hb

/-- The rows of a batch are those of the result of the next transform. -/
theorem rowsBehind_drop {i : ℕ} {t : TransformOperator} (hi : ts[i]? = some t)
    {batch : RecordBatch} {result : Option RecordBatch} (h : t.execute P batch = some result) :
    rowsBehind P (ts.drop i) batch = result.elim 0 (rowsBehind P (ts.drop (i + 1))) := by
  obtain ⟨hlt, rfl⟩ := List.getElem?_eq_some_iff.mp hi
  rw [List.drop_eq_getElem_cons hlt]
  cases result <;> simp [rowsBehind, chainResult, h, numRowsOf]

/-- Leaving the loop at a batch without rows loses none that are to be claimed. -/
theorem unclaimed_afterExecute {i : ℕ} (hi : i < ts.length) (result : Option RecordBatch) :
    unclaimed P ts (afterExecute i result) =
      result.elim 0 (rowsBehind P (ts.drop (i + 1))) := by
  cases result with
  | none => rfl
  | some b =>
      dsimp only [afterExecute, Option.elim]
      split_ifs with hrows
      · exact (rowsBehind_empty hrows).symm
      · exact if_pos hi

/-- Behind the `Limit` a task holds the rows of the result. -/
theorem held_afterExecute (result : Option RecordBatch) :
    held ts (afterExecute ts.length result) = numRowsOf result := by
  cases result with
  | none => rfl
  | some b =>
      dsimp only [afterExecute, numRowsOf, Option.elim]
      split_ifs with hrows
      · exact hrows.symm
      · exact if_neg (lt_irrefl _)

/-- Behind the `Limit` no rows are left to claim. -/
theorem unclaimed_afterExecute_last (result : Option RecordBatch) :
    unclaimed P ts (afterExecute ts.length result) = 0 := by
  cases result with
  | none => rfl
  | some b =>
      dsimp only [afterExecute]
      split_ifs
      · rfl
      · exact if_neg (lt_irrefl _)

/-- After a transform a task is at its flag or takes another batch. -/
theorem limitPoint_afterExecute {n i : ℕ} {s : Shared σ τ} (hi : i ≤ ts.length)
    (result : Option RecordBatch) : LimitPoint ts n p s (afterExecute i result) := by
  cases result with
  | none => trivial
  | some b =>
      dsimp only [afterExecute]
      split_ifs
      · trivial
      · exact hi

/-- The rows of a batch are those that come out of the transforms left, after one of them. -/
theorem rowsOf_chainResult_drop {i : ℕ} {t : TransformOperator} (hi : ts[i]? = some t)
    {batch : RecordBatch} {result : Option RecordBatch} (h : t.execute P batch = some result) :
    rowsOf (chainResult P (ts.drop i) batch) =
      result.elim 0 fun b => rowsOf (chainResult P (ts.drop (i + 1)) b) := by
  obtain ⟨hlt, rfl⟩ := List.getElem?_eq_some_iff.mp hi
  rw [List.drop_eq_getElem_cons hlt]
  cases result <;> simp [chainResult, h, rowsOf]

/-- Leaving the loop can only lose rows. -/
theorem inFlight_afterExecute (i : ℕ) (result : Option RecordBatch) :
    inFlight P ts (afterExecute i result) ≤
      result.elim 0 fun b => rowsOf (chainResult P (ts.drop (i + 1)) b) := by
  cases result with
  | none => exact le_rfl
  | some b =>
      dsimp only [afterExecute, Option.elim]
      split_ifs
      · exact Multiset.zero_le _
      · exact le_rfl

/-- Behind the `Limit` the rows of a batch are its own. -/
theorem rowsOf_chainResult_end (batch : RecordBatch) :
    rowsOf (chainResult P (ts.drop (ts.length + 1)) batch) = batch.rows := by
  rw [List.drop_of_length_le (Nat.le_succ _)]
  rfl

theorem inFlight_afterExecute_last (result : Option RecordBatch) :
    inFlight P ts (afterExecute ts.length result) ≤ rowsOf result := by
  apply (inFlight_afterExecute ts.length result).trans_eq
  cases result with
  | none => rfl
  | some b => exact rowsOf_chainResult_end b

theorem inFlight_afterTransforms (batch : RecordBatch) (stop : Bool) :
    inFlight P ts (afterTransforms batch stop) ≤ batch.rows := by
  unfold afterTransforms
  split_ifs
  · exact le_rfl
  · exact Multiset.zero_le _
  · exact Multiset.zero_le _

/-- A task that leaves the loop holds the rows of its batch. -/
theorem held_afterTransforms (batch : RecordBatch) (stop : Bool) :
    held ts (afterTransforms batch stop) = batch.numRows ∧
      unclaimed P ts (afterTransforms batch stop) = 0 := by
  unfold afterTransforms
  split_ifs with hrows
  · exact ⟨rfl, rfl⟩
  · exact ⟨by simp only [held]; omega, rfl⟩
  · exact ⟨by simp only [held]; omega, rfl⟩

end rows

/-! ## One step of a task -/

section steps

variable {ts : List TransformOperator} {n : ℕ} {s s' : Shared σ τ}

/-- The last transform is the `Limit`, and the only one. -/
structure EndsWithLimit (p : Pipeline σ τ) (ts : List TransformOperator) (n : ℕ) : Prop where
  transforms : p.transforms = ts ++ [.limit n]
  unlimited : ∀ t ∈ ts, t.isLimit = false

namespace EndsWithLimit

variable (h : EndsWithLimit p ts n)
include h

theorem length : p.transforms.length = ts.length + 1 := by
  rw [h.transforms, List.length_append, List.length_singleton]

theorem getElem?_last : p.transforms[ts.length]? = some (.limit n) := by
  rw [h.transforms, List.getElem?_concat_length]

theorem getElem?_lt {i : ℕ} (hi : i < ts.length) :
    ∃ t, ts[i]? = some t ∧ p.transforms[i]? = some t ∧ t.isLimit = false := by
  have hget : ts[i]? = some ts[i] := List.getElem?_eq_getElem hi
  refine ⟨ts[i], hget, ?_, h.unlimited _ (List.getElem_mem hi)⟩
  rw [h.transforms, List.getElem?_append_left hi, hget]

/-- Up to the `Limit` the loop goes on. -/
theorem enterTransform {i : ℕ} (hi : i ≤ ts.length) (batch : RecordBatch) :
    p.enterTransform i batch = .execute i batch := by
  unfold Pipeline.enterTransform
  rw [h.length, if_pos (Nat.lt_succ_of_le hi)]

/-- Behind the `Limit` it ends. -/
theorem enterTransform_end (batch : RecordBatch) :
    p.enterTransform (ts.length + 1) batch = afterTransforms batch false := by
  unfold Pipeline.enterTransform
  rw [h.length, if_neg (lt_irrefl _)]

theorem isPipelineDone_lt {i : ℕ} (hi : i < ts.length) (s : Shared σ τ) :
    p.isPipelineDone s i = false := by
  obtain ⟨t, -, hget, hlimit⟩ := h.getElem?_lt hi
  cases t with
  | limit n => simp [TransformOperator.isLimit] at hlimit
  | filter _ | scalar _ | drop _ | reorder _ => simp [Pipeline.isPipelineDone, hget]

theorem isPipelineDone_last (s : Shared σ τ) :
    p.isPipelineDone s ts.length = (s.limits ts.length).isDone := by
  simp [Pipeline.isPipelineDone, h.getElem?_last]

end EndsWithLimit

/-- A step that moves no rows. -/
theorem limitTask_moves {point point' : TaskPoint}
    (hdone : (s.limits ts.length).isDone = true → n ≤ (s.limits ts.length).curRows)
    (hunclaimed : unclaimed P ts point' = unclaimed P ts point)
    (hheld : held ts point' = held ts point)
    (hrows : inFlight P ts point' ≤ inFlight P ts point) (hpoint : LimitPoint ts n p s point') :
    LimitTaskAccounts P ts n p s point s (some point') where
  source_eq := rfl
  claimed := by rw [← hunclaimed]; rfl
  sunk := by rw [← hheld]; rfl
  rows := add_le_add_left (add_le_add_right hrows _) _
  grows := le_rfl
  settled := id
  isDone := hdone
  points := by rintro _ ⟨⟩; exact hpoint
  counted := rfl
  finished := by simp

/-- `GetData` at the end of the source. -/
theorem limitTask_drained {source : σ}
    (hdone : (s.limits ts.length).isDone = true → n ≤ (s.limits ts.length).curRows)
    (h : p.source.getData s.source = some (none, source)) :
    LimitTaskAccounts P ts n p s .getData { s with source := source } (some .countFinished) := by
  have hnone := p.source.exhausted h
  have hnext : p.source.pending source = [] := by
    simpa [hnone] using (p.source.pending_eq h).symm
  refine ⟨by rw [hnone, hnext], rfl, rfl, le_rfl, le_rfl, fun _ => .inl hnext, hdone, ?_, rfl,
    by simp⟩
  rintro _ ⟨⟩
  exact .inl hnext

/-- `GetData` of a batch: its rows behind the chain are to be claimed. -/
theorem limitTask_took (hlast : EndsWithLimit p ts n) {source : σ} {batch : RecordBatch}
    {threadId : ℕ}
    (hdone : (s.limits ts.length).isDone = true → n ≤ (s.limits ts.length).curRows)
    (h : p.source.getData s.source = some (some batch, source)) :
    LimitTaskAccounts P ts n p s .getData
      { s with source := source, taken := s.taken ++ [(batch, threadId)] }
      (some (p.enterTransform 0 batch)) := by
  have hpending := p.source.pending_eq h
  rw [hlast.enterTransform (Nat.zero_le _)]
  refine ⟨by rw [hpending]; simp, ?_, rfl, ?_, le_rfl, ?_, hdone, ?_, rfl, by simp⟩
  · have htaken : rowsTaken P ts { s with
        source := source, taken := s.taken ++ [(batch, threadId)] } =
        rowsTaken P ts s + rowsBehind P ts batch := by
      simp [rowsTaken, totalBehind]
    rw [htaken]
    simp only [Option.elim_some, unclaimed, List.drop_zero]
    omega
  · have htaken : takenRows P ts { s with
        source := source, taken := s.taken ++ [(batch, threadId)] } =
        takenRows P ts s + rowsOf (chainResult P ts batch) := by
      simp [takenRows, rowsAfter]
    rw [htaken]
    simp only [Option.elim_some, inFlight, List.drop_zero, add_zero]
    rw [add_assoc, add_comm (rowsOf _)]
    rfl
  · rintro (hnil | hclaimed)
    · simp [hpending] at hnil
    · exact .inr hclaimed
  · rintro _ ⟨⟩
    exact Nat.zero_le _

/-- `Execute` of a transform before the `Limit`. -/
theorem limitTask_executed (hlast : EndsWithLimit p ts n) {i : ℕ} (hi : i < ts.length)
    {batch : RecordBatch} {point : TaskPoint}
    (hdone : (s.limits ts.length).isDone = true → n ≤ (s.limits ts.length).curRows)
    (h : p.executeTransform P s i batch = some (s', point)) :
    LimitTaskAccounts P ts n p s (.execute i batch) s' (some point) := by
  obtain ⟨t, hget, htransform, hlimit⟩ := hlast.getElem?_lt hi
  obtain ⟨result, hresult, rfl, rfl⟩ := executeTransform_of_not_limit htransform hlimit h
  apply limitTask_moves hdone
  · rw [unclaimed_afterExecute hi, unclaimed, rowsBehind_drop hget hresult]
  · cases result with
    | none => rfl
    | some b =>
        dsimp only [afterExecute]
        split_ifs
        · rfl
        · exact if_pos hi
  · rw [inFlight, rowsOf_chainResult_drop hget hresult]
    exact inFlight_afterExecute i result
  · exact limitPoint_afterExecute hi.le result

/-- A step that leaves another counter at the `Limit`. -/
theorem limitTask_counter {point point' : TaskPoint} {counter : LimitState}
    (hclaimed : counter.curRows + unclaimed P ts point' =
      (s.limits ts.length).curRows + unclaimed P ts point)
    (hsunk : held ts point' + min n (s.limits ts.length).curRows =
      held ts point + min n counter.curRows)
    (hrows : inFlight P ts point' ≤ inFlight P ts point)
    (hgrows : (s.limits ts.length).curRows ≤ counter.curRows)
    (hdone : counter.isDone = true → n ≤ counter.curRows)
    (hpoint : LimitPoint ts n p
      { s with limits := Function.update s.limits ts.length counter } point') :
    LimitTaskAccounts P ts n p s point
      { s with limits := Function.update s.limits ts.length counter } (some point') := by
  have hcounter : Function.update s.limits ts.length counter ts.length = counter :=
    Function.update_self ..
  refine ⟨rfl, ?_, ?_, add_le_add_left (add_le_add_right hrows _) _, ?_, ?_, ?_, ?_, rfl, by simp⟩
  · show (Function.update s.limits ts.length counter ts.length).curRows + _ + rowsTaken P ts s =
      _ + rowsTaken P ts s
    rw [hcounter, Option.elim_some, hclaimed]
  · show rowsSunk s + held ts point' + _ =
      _ + min n (Function.update s.limits ts.length counter ts.length).curRows
    rw [hcounter, add_assoc, add_assoc, hsunk]
  · exact hgrows.trans_eq (congrArg LimitState.curRows hcounter.symm)
  · apply Or.imp_right
    intro h
    exact (h.trans hgrows).trans_eq (congrArg LimitState.curRows hcounter.symm)
  · dsimp only
    rw [hcounter]
    exact hdone
  · rintro _ ⟨⟩
    exact hpoint

/-- `Execute` of the `Limit` claims the rows of the batch. -/
theorem limitTask_claimed (hlast : EndsWithLimit p ts n) {batch : RecordBatch} {point : TaskPoint}
    (hfits : (s.limits ts.length).curRows + batch.numRows < 2 ^ 64)
    (hdone : (s.limits ts.length).isDone = true → n ≤ (s.limits ts.length).curRows)
    (h : p.executeTransform P s ts.length batch = some (s', point)) :
    LimitTaskAccounts P ts n p s (.execute ts.length batch) s' (some point) := by
  obtain ⟨result, isDone, hcut, rfl, rfl⟩ := executeTransform_limit hlast.getElem?_last h
  obtain ⟨hsunk, hrows, hreached⟩ := rowsOf_limitCut hfits hcut
  have hbehind : unclaimed P ts (.execute ts.length batch) = batch.numRows ∧
      inFlight P ts (.execute ts.length batch) = batch.rows := by
    rw [unclaimed, inFlight, List.drop_length]
    exact ⟨rfl, rfl⟩
  rw [Nat.mod_eq_of_lt hfits]
  cases isDone with
  | true =>
      rw [if_pos rfl]
      apply limitTask_counter
      · rw [hbehind.1]
        rfl
      · simp only [held]
        omega
      · rw [hbehind.2]
        exact hrows
      · exact Nat.le_add_right _ _
      · exact fun _ => hreached rfl
      · refine ⟨rfl, (hreached rfl).trans_eq ?_⟩
        dsimp only
        rw [Function.update_self]
  | false =>
      rw [if_neg Bool.false_ne_true]
      apply limitTask_counter
      · rw [hbehind.1, unclaimed_afterExecute_last, add_zero]
      · rw [held_afterExecute]
        simp only [held]
        omega
      · rw [hbehind.2]
        exact (inFlight_afterExecute_last result).trans hrows
      · exact Nat.le_add_right _ _
      · exact fun hflag => (hdone hflag).trans (Nat.le_add_right _ _)
      · exact limitPoint_afterExecute le_rfl result

/-- The `store` of the flag. -/
theorem limitTask_storedDone {result : Option RecordBatch}
    (hreached : n ≤ (s.limits ts.length).curRows) :
    LimitTaskAccounts P ts n p s (.storeDone ts.length result)
      { s with
        limits := Function.update s.limits ts.length ⟨(s.limits ts.length).curRows, true⟩ }
      (some (afterExecute ts.length result)) := by
  apply limitTask_counter
  · rw [unclaimed_afterExecute_last]
    rfl
  · rw [held_afterExecute]
    rfl
  · exact inFlight_afterExecute_last result
  · exact le_rfl
  · exact fun _ => hreached
  · exact limitPoint_afterExecute le_rfl result

/-- The read of the flag. -/
theorem limitTask_isPipelineDone (hlast : EndsWithLimit p ts n) {i : ℕ} (hi : i ≤ ts.length)
    {batch : RecordBatch}
    (hdone : (s.limits ts.length).isDone = true → n ≤ (s.limits ts.length).curRows) :
    LimitTaskAccounts P ts n p s (.isPipelineDone i batch) s
      (some (if p.isPipelineDone s i then afterTransforms batch true
        else p.enterTransform (i + 1) batch)) := by
  rcases hi.lt_or_eq with hlt | rfl
  · rw [hlast.isPipelineDone_lt hlt, if_neg Bool.false_ne_true, hlast.enterTransform hlt]
    exact limitTask_moves hdone (if_pos hlt).symm (if_pos hlt).symm le_rfl hlt
  · rw [hlast.isPipelineDone_last, hlast.enterTransform_end]
    have hrows : unclaimed P ts (.isPipelineDone ts.length batch) = 0 ∧
        held ts (.isPipelineDone ts.length batch) = batch.numRows :=
      ⟨if_neg (lt_irrefl _), if_neg (lt_irrefl _)⟩
    have hafter := fun stop => @held_afterTransforms P ts batch stop
    cases hflag : (s.limits ts.length).isDone with
    | false =>
        rw [if_neg Bool.false_ne_true]
        apply limitTask_moves hdone
        · rw [(hafter false).2, hrows.1]
        · rw [(hafter false).1, hrows.2]
        · rw [inFlight, rowsOf_chainResult_end]
          exact inFlight_afterTransforms batch false
        · unfold afterTransforms
          split_ifs with hpos hstop
          · exact fun hstop => absurd hstop Bool.false_ne_true
          · exact hstop.elim
          · trivial
    | true =>
        rw [if_pos rfl]
        apply limitTask_moves hdone
        · rw [(hafter true).2, hrows.1]
        · rw [(hafter true).1, hrows.2]
        · rw [inFlight, rowsOf_chainResult_end]
          exact inFlight_afterTransforms batch true
        · unfold afterTransforms
          split_ifs with hpos hstop
          · exact fun _ => hdone hflag
          · exact .inr (hdone hflag)
          · exact absurd rfl hstop

/-- `Sink` of the rows that the task holds. -/
theorem limitTask_sank {batch : RecordBatch} {stop : Bool} {sink : τ} {threadId : ℕ}
    (hdone : (s.limits ts.length).isDone = true → n ≤ (s.limits ts.length).curRows)
    (hstop : stop = true → n ≤ (s.limits ts.length).curRows) :
    LimitTaskAccounts P ts n p s (.sink batch stop)
      { s with sink := sink, sunk := s.sunk ++ [(batch, threadId)] }
      (some (if stop then .countFinished else .getData)) := by
  have hsunk : rowsSunk { s with sink := sink, sunk := s.sunk ++ [(batch, threadId)] } =
      rowsSunk s + batch.numRows := by
    simp [rowsSunk]
  have hrows : sunkRows { s with sink := sink, sunk := s.sunk ++ [(batch, threadId)] } =
      sunkRows s + batch.rows := by
    simp [sunkRows]
  have hnext : held ts (if stop then .countFinished else .getData) = 0 ∧
      unclaimed P ts (if stop then .countFinished else .getData) = 0 ∧
      inFlight P ts (if stop then .countFinished else .getData) = 0 := by
    split_ifs <;> exact ⟨rfl, rfl, rfl⟩
  refine ⟨rfl, ?_, ?_, ?_, le_rfl, id, hdone, ?_, rfl, by simp⟩
  · rw [Option.elim_some, hnext.2.1]
    rfl
  · rw [Option.elim_some, hnext.1, hsunk]
    rfl
  · rw [Option.elim_some, hnext.2.2, hrows, add_zero]
    exact le_rfl
  · rintro _ ⟨⟩
    split_ifs with hflag
    · exact .inr (hstop hflag)
    · trivial

/-- The last step of a task. -/
theorem limitTask_counted
    (hdone : (s.limits ts.length).isDone = true → n ≤ (s.limits ts.length).curRows) :
    LimitTaskAccounts P ts n p s .countFinished
      { s with numTasksFinished := s.numTasksFinished + 1 } none :=
  ⟨rfl, rfl, rfl, le_rfl, le_rfl, id, hdone, by simp, rfl, fun _ => rfl⟩

/-- **Every step of a task** keeps the accounts, unless the counter would overflow. -/
theorem limitTask_taskStep (hlast : EndsWithLimit p ts n) {threadId : ℕ} {point : TaskPoint}
    {next : Option TaskPoint}
    (hrows : (s.limits ts.length).curRows + unclaimed P ts point < 2 ^ 64)
    (hdone : (s.limits ts.length).isDone = true → n ≤ (s.limits ts.length).curRows)
    (hpoint : LimitPoint ts n p s point) (h : p.taskStep P s threadId point = some (s', next)) :
    LimitTaskAccounts P ts n p s point s' next := by
  cases point with
  | getData =>
      obtain ⟨⟨result, source⟩, hget, h⟩ := Option.map_eq_some_iff.mp h
      cases result with
      | none =>
          obtain ⟨rfl, rfl⟩ := Prod.mk.inj h
          exact limitTask_drained hdone hget
      | some batch =>
          obtain ⟨rfl, rfl⟩ := Prod.mk.inj h
          exact limitTask_took hlast hdone hget
  | execute i batch =>
      obtain ⟨⟨s₁, point⟩, hexec, h⟩ := Option.map_eq_some_iff.mp h
      obtain ⟨rfl, rfl⟩ := Prod.mk.inj h
      have hi : i ≤ ts.length := hpoint
      rcases hi.lt_or_eq with hlt | rfl
      · exact limitTask_executed hlast hlt hdone hexec
      · rw [unclaimed, List.drop_length, rowsBehind_nil] at hrows
        exact limitTask_claimed hlast hrows hdone hexec
  | storeDone i result =>
      obtain ⟨rfl, rfl⟩ := Prod.mk.inj (Option.some.inj h)
      obtain ⟨rfl, hreached⟩ := hpoint
      exact limitTask_storedDone hreached
  | isPipelineDone i batch =>
      obtain ⟨rfl, rfl⟩ := Prod.mk.inj (Option.some.inj h)
      exact limitTask_isPipelineDone hlast hpoint hdone
  | sink batch stop =>
      obtain ⟨sink, hsink, h⟩ := Option.map_eq_some_iff.mp h
      obtain ⟨rfl, rfl⟩ := Prod.mk.inj h
      exact limitTask_sank hdone hpoint
  | countFinished =>
      obtain ⟨rfl, rfl⟩ := Prod.mk.inj (Option.some.inj h)
      exact limitTask_counted hdone

end steps

/-! ## Whole runs -/

section runs

variable {ts : List TransformOperator} {n : ℕ} {source : σ} {s s' : ExecState σ τ}

/-- What is known of a task stays true while the counter grows. -/
theorem LimitPoint.mono {shared shared' : Shared σ τ} {point : TaskPoint}
    (h : LimitPoint ts n p shared point)
    (hgrows : (shared.limits ts.length).curRows ≤ (shared'.limits ts.length).curRows)
    (hsettled : Settled ts n p shared → Settled ts n p shared') :
    LimitPoint ts n p shared' point := by
  cases point with
  | getData => trivial
  | execute i batch => exact h
  | storeDone i result => exact ⟨h.1, h.2.trans hgrows⟩
  | isPipelineDone i batch => exact h
  | sink batch stop => exact fun hstop => (h hstop).trans hgrows
  | countFinished => exact hsettled h

/-- `Execute` starts with nothing claimed. -/
theorem limitAccounts_init (source : σ) (sink : τ) (poolSize : ℕ) :
    LimitAccounts P ts n p source (init source sink poolSize) where
  source_eq := rfl
  claimed := by simp [init, ofThread, rowsTaken, totalBehind]
  sunk := by simp [init, ofThread, rowsSunk]
  rows := by simp [init, ofThread, sunkRows]
  isDone := by simp [init]
  points := by simp [init]
  counted := by simp [init]

namespace LimitAccounts

/-- The rows taken are among those of the source. -/
theorem rowsTaken_le (h : LimitAccounts P ts n p source s) :
    rowsTaken P ts s.shared ≤ totalBehind P ts (p.source.pending source) := by
  rw [h.source_eq, totalBehind, List.map_append, List.sum_append]
  exact Nat.le_add_right _ _

/-- The counter does not overflow if the rows of the source can be counted. -/
theorem claimed_le (h : LimitAccounts P ts n p source s) {w threadId : ℕ} {point : TaskPoint}
    (hw : s.threads[w]? = some (.running threadId point)) :
    (s.shared.limits ts.length).curRows + unclaimed P ts point ≤
      totalBehind P ts (p.source.pending source) := by
  have hset := sum_map_set (b := .waiting) (ofThread (unclaimed P ts)) hw
  have hclaimed := h.claimed
  have htaken := h.rowsTaken_le
  simp only [ofThread] at hset
  omega

/-- A waiting thread takes a task. -/
theorem start (h : LimitAccounts P ts n p source s) {w threadId : ℕ} {tasks : List ℕ}
    (hw : s.threads[w]? = some .waiting) :
    LimitAccounts P ts n p source { s with
      tasks := tasks
      threads := s.threads.set w (.running threadId .getData)
      started := s.started ++ [threadId] } := by
  have hunclaimed :=
    sum_map_set (b := .running threadId .getData) (ofThread (unclaimed P ts)) hw
  have hheld := sum_map_set (b := .running threadId .getData) (ofThread (held ts)) hw
  have hrows := sum_map_set (b := .running threadId .getData) (ofThread (inFlight P ts)) hw
  simp only [ofThread, unclaimed, held, inFlight, add_zero] at hunclaimed hheld hrows
  refine { h with claimed := ?_, sunk := ?_, rows := ?_, points := ?_ }
  · rw [hunclaimed]
    exact h.claimed
  · rw [hheld]
    exact h.sunk
  · rw [hrows]
    exact h.rows
  · intro t point hmem
    rcases running_of_mem_start hmem with hmem | ⟨rfl, rfl⟩
    · exact h.points t point hmem
    · trivial

/-- A task steps. -/
theorem task (h : LimitAccounts P ts n p source s) {w threadId : ℕ} {point : TaskPoint}
    {shared : Shared σ τ} {next : Option TaskPoint}
    (hw : s.threads[w]? = some (.running threadId point))
    (htask : LimitTaskAccounts P ts n p s.shared point shared next) :
    LimitAccounts P ts n p source { s with
      shared := shared
      threads := s.threads.set w (next.elim .waiting (.running threadId)) } := by
  set thread : PoolThread := next.elim .waiting (.running threadId)
  have hof : ∀ {M : Type} [Zero M] (f : TaskPoint → M), ofThread f thread = next.elim 0 f := by
    intro M _ f
    cases next <;> rfl
  have hunclaimed := sum_map_set (b := thread) (ofThread (unclaimed P ts)) hw
  have hheld := sum_map_set (b := thread) (ofThread (held ts)) hw
  have hrows := sum_map_set (b := thread) (ofThread (inFlight P ts)) hw
  rw [hof] at hunclaimed hheld hrows
  simp only [ofThread] at hunclaimed hheld hrows
  refine ⟨h.source_eq.trans htask.source_eq, ?_, ?_, ?_, htask.isDone, ?_, ?_⟩
  · have hclaimed := h.claimed
    have hstep := htask.claimed
    dsimp only
    omega
  · have hsunk := h.sunk
    have hstep := htask.sunk
    dsimp only
    omega
  · -- the rows of the other threads are on both sides
    have hstep := htask.rows
    refine le_of_add_le_add_right
      (a := inFlight P ts point + takenRows P ts s.shared + sunkRows s.shared) ?_
    calc sunkRows shared + ((s.threads.set w thread).map (ofThread (inFlight P ts))).sum +
          (inFlight P ts point + takenRows P ts s.shared + sunkRows s.shared)
        = sunkRows shared + (((s.threads.set w thread).map (ofThread (inFlight P ts))).sum +
            inFlight P ts point) + takenRows P ts s.shared + sunkRows s.shared := by abel
      _ = sunkRows shared + next.elim 0 (inFlight P ts) + takenRows P ts s.shared +
            (sunkRows s.shared + (s.threads.map (ofThread (inFlight P ts))).sum) := by
          rw [hrows]; abel
      _ ≤ sunkRows s.shared + inFlight P ts point + takenRows P ts shared +
            takenRows P ts s.shared := add_le_add hstep h.rows
      _ = takenRows P ts shared +
            (inFlight P ts point + takenRows P ts s.shared + sunkRows s.shared) := by abel
  · intro t point' hmem
    rcases running_of_mem_set hmem with hmem | ⟨-, hnext⟩
    · exact (h.points t point' hmem).mono htask.grows htask.settled
    · exact htask.points point' hnext
  · intro hcounted
    cases next with
    | none =>
        have hpoint := h.points threadId point (List.mem_of_getElem? hw)
        rw [htask.finished rfl] at hpoint
        exact htask.settled hpoint
    | some point' =>
        rw [htask.counted] at hcounted
        exact htask.settled (h.counted hcounted)

/-- **Every step** keeps the accounts, if the rows of the source can be counted. -/
theorem step {a : Action} (hlast : EndsWithLimit p ts n)
    (hfits : totalBehind P ts (p.source.pending source) < 2 ^ 64)
    (h : LimitAccounts P ts n p source s) (hstep : p.step P s a = some s') :
    LimitAccounts P ts n p source s' := by
  cases a with
  | enqueue | wakeUp | finalize =>
      cases step_cases hstep
      exact { h with }
  | thread w =>
      obtain ⟨thread, hw, hthread⟩ := Option.bind_eq_some_iff.mp hstep
      cases thread with
      | waiting =>
          obtain ⟨threadId, -, rfl⟩ := Option.map_eq_some_iff.mp hthread
          exact h.start hw
      | running threadId point =>
          obtain ⟨⟨shared, next⟩, htask, rfl⟩ := Option.map_eq_some_iff.mp hthread
          exact h.task hw (limitTask_taskStep hlast ((h.claimed_le hw).trans_lt hfits) h.isDone
            (h.points _ _ (List.mem_of_getElem? hw)) htask)

end LimitAccounts

/-- **`LIMIT n` under any schedule**: if the last transform is a `Limit`, and the only one, then the
rows sunk are rows that the other transforms make of the batches of the source, never more than the
limit of them; and when the main thread calls `Finalize`, exactly as many as the limit allows. -/
theorem limit_sinks (hlast : EndsWithLimit p ts n) {sink : τ} {poolSize : ℕ}
    (hfits : totalBehind P ts (p.source.pending source) < 2 ^ 64) {as : List Action}
    (hrun : run (p.step P) (init source sink poolSize) as = some s) :
    sunkRows s.shared ≤ rowsAfter P ts (p.source.pending source) ∧
      rowsSunk s.shared ≤ min n (totalBehind P ts (p.source.pending source)) ∧
      (0 < p.numThreads → s.finalizing = true →
        rowsSunk s.shared = min n (totalBehind P ts (p.source.pending source))) := by
  have h : LimitAccounts P ts n p source s :=
    run_invariant (fun s a s' h hstep => LimitAccounts.step hlast hfits h hstep)
      (limitAccounts_init source sink poolSize) hrun
  have htaken := h.rowsTaken_le
  have hclaimed := h.claimed
  have hsunk := h.sunk
  refine ⟨?_, by omega, ?_⟩
  · calc sunkRows s.shared ≤ takenRows P ts s.shared :=
          (le_add_of_nonneg_right (Multiset.zero_le _)).trans h.rows
      _ ≤ rowsAfter P ts (p.source.pending source) := by
          rw [h.source_eq, takenRows, rowsAfter, rowsAfter, List.map_append, List.sum_append]
          exact le_add_of_nonneg_right (Multiset.zero_le _)
  · intro hn hmain
    obtain ⟨hsched, -, -⟩ := scheduled_of_run hrun
    have hfinished := (hsched.waited hmain).2
    have hidle : ∀ f : TaskPoint → ℕ, (s.threads.map (ofThread f)).sum = 0 := by
      intro f
      apply List.sum_eq_zero
      intro m hm
      obtain ⟨thread, hmem, rfl⟩ := List.mem_map.mp hm
      cases thread with
      | waiting => rfl
      | running threadId point =>
          obtain ⟨w, hw⟩ := List.getElem?_of_mem hmem
          exact absurd hfinished (hsched.unfinished hw).ne
    rw [hidle, add_zero] at hclaimed hsunk
    rcases h.counted (hfinished ▸ hn) with hdrained | hreached
    · have htotal : rowsTaken P ts s.shared = totalBehind P ts (p.source.pending source) := by
        rw [h.source_eq, hdrained, List.append_nil]
        rfl
      omega
    · omega

/-- One thread filters a table of two rows and limits what is left to one row. -/
theorem limit_sinks_filter_limit :
    let p := examplePipeline [equalsFive, .limit 1]
    let steps := .enqueue :: List.replicate 9 (.thread 0) ++ [.wakeUp]
    ∃ s, run (p.step Platform.integral) (init exampleScan [] 1) steps = some s ∧
      sunkRows s.shared ≤
        rowsAfter Platform.integral [equalsFive] (p.source.pending exampleScan) ∧
      rowsSunk s.shared =
        min 1 (totalBehind Platform.integral [equalsFive] (p.source.pending exampleScan)) := by
  intro p steps
  have hrun : (run (p.step Platform.integral) (init exampleScan [] 1) steps).map
      (fun s => s.finalizing) = some true := by decide
  obtain ⟨s, hs, hmain⟩ := Option.map_eq_some_iff.mp hrun
  have hlast : EndsWithLimit p [equalsFive] 1 := ⟨rfl, by decide⟩
  have h := limit_sinks hlast (by decide) hs
  exact ⟨s, hs, h.1, h.2.2 (by decide) hmain⟩

end runs

end Pipeline

end ColumnarEngine
