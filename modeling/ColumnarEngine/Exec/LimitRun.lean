import ColumnarEngine.Exec.Transforms
import ColumnarEngine.Found.Transition

/-!
# One LIMIT shared by all workers

`LimitTransformOperator::Execute` called by any number of workers on one operator, as a machine: a
call is the `fetch_add`, the decision it makes from the value returned, the `store` of `done_` where
there is one, and the return. The values that the calls get split the rows claimed into intervals,
and a call forwards the part of its interval that lies below the limit (`limit_exact`).
-/

namespace ColumnarEngine

open Found

/-- A batch as the engine passes it on. -/
abbrev WellFormedBatch := {b : RecordBatch // b.WellFormed}

/-- Where a worker stands in its call of `Execute`. -/
inductive LimitWorker
  | idle
  | storing (batch : WellFormedBatch) (result : Option RecordBatch)
  | returning (batch : WellFormedBatch) (result : Option RecordBatch)
  deriving DecidableEq

/-- A worker calls `Execute`, stores `done_` or returns. -/
inductive LimitAction
  | call (w : ℕ) (batch : WellFormedBatch)
  | store (w : ℕ)
  | ret (w : ℕ)

/-- The operator with its workers. `calls` records the batches in the order of their `fetch_add`,
with what the call returns; `forwarded` the batches returned, each behind the one received. -/
structure LimitRun where
  curRows : ℕ
  isDone : Bool
  workers : List LimitWorker
  calls : List (WellFormedBatch × Option RecordBatch)
  forwarded : List (WellFormedBatch × RecordBatch)
  deriving DecidableEq

/-- The rows of the batches received. -/
def claimedRows (calls : List (WellFormedBatch × Option RecordBatch)) : ℕ :=
  (calls.map fun c => c.1.1.numRows).sum

/-- The batch a call forwards, behind the one received. -/
def forwardedBy (c : WellFormedBatch × Option RecordBatch) :
    Option (WellFormedBatch × RecordBatch) :=
  c.2.map (c.1, ·)

namespace LimitRun

/-- Before the first call. -/
def start (numWorkers : ℕ) : LimitRun where
  curRows := 0
  isDone := false
  workers := List.replicate numWorkers .idle
  calls := []
  forwarded := []

/-- One step of a worker. -/
def step (limit : ℕ) (s : LimitRun) : LimitAction → Option LimitRun
  | .call w batch =>
      match s.workers[w]? with
      | some .idle =>
          (limitCut limit s.curRows batch.1).map fun (result, isDone) =>
            { s with
              curRows := (s.curRows + batch.1.numRows) % 2 ^ 64
              workers := s.workers.set w
                (if isDone then .storing batch result else .returning batch result)
              calls := s.calls ++ [(batch, result)] }
      | _ => none
  | .store w =>
      match s.workers[w]? with
      | some (.storing batch result) =>
          some { s with isDone := true, workers := s.workers.set w (.returning batch result) }
      | _ => none
  | .ret w =>
      match s.workers[w]? with
      | some (.returning batch result) =>
          some { s with
            workers := s.workers.set w .idle
            forwarded := s.forwarded ++ (forwardedBy (batch, result)).toList }
      | _ => none

end LimitRun

/-! ## The decision of one call -/

/-- The rows of a batch that may not be there. -/
def resultRows (r : Option RecordBatch) : ℕ := r.elim 0 fun b => b.rows.length

/-- **One call** that gets the value `oldRows` forwards the rows of the batch that lie below the
limit when it is laid behind `oldRows` rows. -/
theorem limitCut_spec {b : RecordBatch} (hb : b.WellFormed) (limit : ℕ) {oldRows : ℕ}
    (hrows : oldRows + b.numRows < 2 ^ 64) {r : Option RecordBatch} {isDone : Bool}
    (h : limitCut limit oldRows b = some (r, isDone)) :
    (isDone = true → limit ≤ oldRows + b.numRows) ∧ (limit ≤ oldRows → r = none) ∧
      resultRows r + min limit oldRows = min limit (oldRows + b.numRows) ∧
      ∀ b', r = some b' → b'.columns = b.columns ∧ b'.rows <+: b.rows := by
  have hlen := hb.length_rows
  unfold limitCut at h
  dsimp only at h
  split_ifs at h with hover hwhole
  · obtain ⟨rfl, rfl⟩ := Prod.mk.inj (Option.some.inj h)
    refine ⟨fun _ => by omega, fun _ => rfl, ?_, by simp⟩
    simp only [resultRows, Option.elim_none]
    omega
  · obtain ⟨rfl, rfl⟩ := Prod.mk.inj (Option.some.inj h)
    refine ⟨?_, fun hle => absurd hle hover, ?_, ?_⟩
    · intro hdone
      rwa [decide_eq_true_iff, Nat.mod_eq_of_lt hrows] at hdone
    · simp only [resultRows, Option.elim_some, hlen]
      omega
    · rintro b' ⟨⟩
      exact ⟨rfl, List.prefix_refl _⟩
  · -- The batch is cut: the first `limit - oldRows` of its selected indices stay.
    have hcut : ∃ b', r = some b' ∧ isDone = true ∧ b'.columns = b.columns ∧
        b'.selected = b.selected.take (limit - oldRows) := by
      cases hs : b.selectionVector with
      | none =>
          rw [hs] at h
          obtain ⟨rfl, rfl⟩ := Prod.mk.inj (Option.some.inj h)
          refine ⟨_, rfl, rfl, rfl, ?_⟩
          simp only [RecordBatch.selected, hs, List.take_range]
          rw [min_eq_left (not_le.mp hwhole).le]
      | some sel =>
          rw [hs] at h
          dsimp only at h
          split_ifs at h
          obtain ⟨rfl, rfl⟩ := Prod.mk.inj (Option.some.inj h)
          exact ⟨_, rfl, rfl, rfl, by simp only [RecordBatch.selected, hs]⟩
    obtain ⟨b', rfl, rfl, hcolumns, hselected⟩ := hcut
    have hrowAt : b'.rowAt = b.rowAt := by
      funext i
      rw [RecordBatch.rowAt, RecordBatch.rowAt, hcolumns]
    have hrows' : b'.rows = b.rows.take (limit - oldRows) := by
      rw [RecordBatch.rows, RecordBatch.rows, hselected, hrowAt, List.map_take]
    refine ⟨fun _ => by omega, fun hle => absurd hle hover, ?_, ?_⟩
    · simp only [resultRows, Option.elim_some, hrows', List.length_take, hlen]
      omega
    · rintro b'' ⟨⟩
      exact ⟨hcolumns, hrows' ▸ List.take_prefix _ _⟩

/-! ## What every step keeps -/

/-- Every call was decided at the rows claimed before it. -/
def CutInOrder (limit : ℕ) (calls : List (WellFormedBatch × Option RecordBatch)) : Prop :=
  ∀ before c after, calls = before ++ c :: after →
    ∃ isDone, limitCut limit (claimedRows before) c.1.1 = some (c.2, isDone)

theorem CutInOrder.concat {limit : ℕ} {calls : List (WellFormedBatch × Option RecordBatch)}
    (h : CutInOrder limit calls) {c : WellFormedBatch × Option RecordBatch} {isDone : Bool}
    (hc : limitCut limit (claimedRows calls) c.1.1 = some (c.2, isDone)) :
    CutInOrder limit (calls ++ [c]) := by
  intro before c' after heq
  rcases List.eq_nil_or_concat after with rfl | ⟨after, last, rfl⟩
  · obtain ⟨rfl, rfl⟩ := List.append_singleton_inj.mp heq
    exact ⟨isDone, hc⟩
  · rw [List.concat_eq_append, ← List.cons_append, ← List.append_assoc] at heq
    exact h before c' after (List.append_singleton_inj.mp heq).1

theorem claimedRows_append (calls : List (WellFormedBatch × Option RecordBatch))
    (c : WellFormedBatch × Option RecordBatch) :
    claimedRows (calls ++ [c]) = claimedRows calls + c.1.1.numRows := by
  simp [claimedRows]

/-- **The intervals add up**: the calls forward the rows claimed, up to the limit. -/
theorem CutInOrder.sum_resultRows {limit : ℕ}
    {calls : List (WellFormedBatch × Option RecordBatch)} (h : CutInOrder limit calls)
    (hrows : claimedRows calls < 2 ^ 64) :
    (calls.map fun c => resultRows c.2).sum = min limit (claimedRows calls) := by
  induction calls using List.reverseRecOn with
  | nil => simp [claimedRows]
  | append_singleton calls c ih =>
      rw [claimedRows_append] at hrows ⊢
      have hbefore : CutInOrder limit calls := fun before c' after heq =>
        h before c' (after ++ [c]) (by rw [heq]; simp)
      obtain ⟨isDone, hc⟩ := h calls c [] rfl
      have hsum := ih hbefore (by omega)
      have hcut := (limitCut_spec c.1.2 limit hrows hc).2.2.1
      rw [List.map_append, List.sum_append, List.map_singleton, List.sum_singleton]
      omega

/-- The batches forwarded have the rows that the calls forward. -/
theorem sum_forwardedBy (calls : List (WellFormedBatch × Option RecordBatch)) :
    ((calls.filterMap forwardedBy).map fun p => p.2.rows.length).sum =
      (calls.map fun c => resultRows c.2).sum := by
  induction calls with
  | nil => rfl
  | cons c calls ih =>
      cases hc : c.2 with
      | none => simp [forwardedBy, resultRows, hc, ih]
      | some b => simp [forwardedBy, resultRows, hc, ih]

/-- What a worker has still to return. -/
def LimitWorker.pending : LimitWorker → Option (WellFormedBatch × RecordBatch)
  | .idle => none
  | .storing batch result => forwardedBy (batch, result)
  | .returning batch result => forwardedBy (batch, result)

namespace LimitRun

/-- The invariant of the machine, as long as fewer than `2 ^ 64` rows have been claimed. -/
structure Accounts (limit : ℕ) (s : LimitRun) : Prop where
  curRows : s.curRows = claimedRows s.calls
  cut : CutInOrder limit s.calls
  returned : (s.forwarded : Multiset (WellFormedBatch × RecordBatch)) +
      (s.workers.map fun w => (w.pending.toList : Multiset (WellFormedBatch × RecordBatch))).sum =
    (s.calls.filterMap forwardedBy : List (WellFormedBatch × RecordBatch))
  isDone : s.isDone = true → limit ≤ claimedRows s.calls
  storing : ∀ batch result, LimitWorker.storing batch result ∈ s.workers →
    limit ≤ claimedRows s.calls

/-- A worker exchanged for another. -/
theorem mem_set_storing {workers : List LimitWorker} {w : ℕ} {worker : LimitWorker}
    {batch : WellFormedBatch} {result : Option RecordBatch}
    (h : LimitWorker.storing batch result ∈ workers.set w worker) :
    LimitWorker.storing batch result ∈ workers ∨ worker = .storing batch result := by
  rcases List.mem_or_eq_of_mem_set h with h | h
  · exact .inl h
  · exact .inr h.symm

theorem accounts_start (limit numWorkers : ℕ) : Accounts limit (start numWorkers) where
  curRows := rfl
  cut := by
    intro before c after h
    simp [start] at h
  returned := by simp [start, LimitWorker.pending]
  isDone := by simp [start]
  storing := by
    intro batch result h
    simpa using List.eq_of_mem_replicate h

/-- What a call does. -/
theorem step_call {limit : ℕ} {s s' : LimitRun} {w : ℕ} {batch : WellFormedBatch}
    (h : step limit s (.call w batch) = some s') :
    ∃ result isDone, s.workers[w]? = some .idle ∧
      limitCut limit s.curRows batch.1 = some (result, isDone) ∧
      s' = { s with
        curRows := (s.curRows + batch.1.numRows) % 2 ^ 64
        workers := s.workers.set w
          (if isDone then .storing batch result else .returning batch result)
        calls := s.calls ++ [(batch, result)] } := by
  rw [step] at h
  split at h
  case h_1 hidle =>
    obtain ⟨⟨result, isDone⟩, hcut, rfl⟩ := Option.map_eq_some_iff.mp h
    exact ⟨result, isDone, hidle, hcut, rfl⟩
  case h_2 => cases h

/-- What a store does. -/
theorem step_store {limit : ℕ} {s s' : LimitRun} {w : ℕ} (h : step limit s (.store w) = some s') :
    ∃ batch result, s.workers[w]? = some (.storing batch result) ∧
      s' = { s with isDone := true, workers := s.workers.set w (.returning batch result) } := by
  rw [step] at h
  split at h
  case h_1 batch result hstoring => exact ⟨batch, result, hstoring, (Option.some.inj h).symm⟩
  case h_2 => cases h

/-- What a return does. -/
theorem step_ret {limit : ℕ} {s s' : LimitRun} {w : ℕ} (h : step limit s (.ret w) = some s') :
    ∃ batch result, s.workers[w]? = some (.returning batch result) ∧
      s' = { s with
        workers := s.workers.set w .idle
        forwarded := s.forwarded ++ (forwardedBy (batch, result)).toList } := by
  rw [step] at h
  split at h
  case h_1 batch result hreturning => exact ⟨batch, result, hreturning, (Option.some.inj h).symm⟩
  case h_2 => cases h

/-- What is pending, with a worker exchanged for another. -/
theorem sum_pending_set {workers : List LimitWorker} {w : ℕ} {worker : LimitWorker}
    (h : workers[w]? = some worker) (worker' : LimitWorker) :
    ((workers.set w worker').map fun w =>
        (w.pending.toList : Multiset (WellFormedBatch × RecordBatch))).sum +
        (worker.pending.toList : Multiset (WellFormedBatch × RecordBatch)) =
      (workers.map fun w => (w.pending.toList : Multiset (WellFormedBatch × RecordBatch))).sum +
        (worker'.pending.toList : Multiset (WellFormedBatch × RecordBatch)) :=
  sum_map_set _ h

section accounts

variable {limit : ℕ} {s : LimitRun} {w : ℕ} {batch : WellFormedBatch} {result : Option RecordBatch}

/-- A call claims the rows of its batch and has the batch it forwards to return. -/
theorem Accounts.call (h : Accounts limit s) {isDone : Bool} (hidle : s.workers[w]? = some .idle)
    (hcut : limitCut limit s.curRows batch.1 = some (result, isDone))
    (hrows : claimedRows (s.calls ++ [(batch, result)]) < 2 ^ 64) :
    Accounts limit { s with
      curRows := (s.curRows + batch.1.numRows) % 2 ^ 64
      workers := s.workers.set w
        (if isDone then .storing batch result else .returning batch result)
      calls := s.calls ++ [(batch, result)] } := by
  have hgrow : claimedRows s.calls ≤ claimedRows (s.calls ++ [(batch, result)]) := by
    rw [claimedRows_append]
    exact Nat.le_add_right _ _
  rw [h.curRows] at hcut
  refine ⟨?_, h.cut.concat hcut, ?_, ?_, ?_⟩
  · rw [claimedRows_append] at hrows ⊢
    rw [h.curRows, Nat.mod_eq_of_lt hrows]
  · have hset := sum_pending_set hidle
      (if isDone then .storing batch result else .returning batch result)
    have hpending : (if isDone then LimitWorker.storing batch result
        else .returning batch result).pending = forwardedBy (batch, result) := by
      cases isDone <;> rfl
    rw [hpending, LimitWorker.pending, Option.toList_none, Multiset.coe_nil, add_zero] at hset
    rw [hset, ← add_assoc, h.returned, List.filterMap_append, ← Multiset.coe_add]
    cases hby : forwardedBy (batch, result) <;> simp [hby]
  · intro hflag
    exact (h.isDone hflag).trans hgrow
  · intro batch' result' hmem
    rcases mem_set_storing hmem with hmem | heq
    · exact (h.storing _ _ hmem).trans hgrow
    · rw [claimedRows_append] at hrows ⊢
      cases isDone with
      | true => exact (limitCut_spec batch.2 limit hrows hcut).1 rfl
      | false => cases heq

/-- A store sets the flag, when the limit has been claimed. -/
theorem Accounts.store (h : Accounts limit s)
    (hstoring : s.workers[w]? = some (.storing batch result)) :
    Accounts limit
      { s with isDone := true, workers := s.workers.set w (.returning batch result) } := by
  have hlimit := h.storing _ _ (List.mem_of_getElem? hstoring)
  have hset := sum_pending_set hstoring (.returning batch result)
  refine ⟨h.curRows, h.cut, ?_, fun _ => hlimit, fun _ _ _ => hlimit⟩
  dsimp only
  rw [add_right_cancel hset, h.returned]

/-- A return forwards what was pending. -/
theorem Accounts.ret (h : Accounts limit s)
    (hreturning : s.workers[w]? = some (.returning batch result)) :
    Accounts limit { s with
      workers := s.workers.set w .idle
      forwarded := s.forwarded ++ (forwardedBy (batch, result)).toList } := by
  have hset := sum_pending_set hreturning .idle
  rw [LimitWorker.pending, LimitWorker.pending, Option.toList_none, Multiset.coe_nil,
    add_zero] at hset
  refine ⟨h.curRows, h.cut, ?_, h.isDone, ?_⟩
  · dsimp only
    rw [← Multiset.coe_add, add_assoc, (add_comm _ _).trans hset, h.returned]
  · intro batch' result' hmem
    rcases mem_set_storing hmem with hmem | heq
    · exact h.storing _ _ hmem
    · cases heq

end accounts

/-- **Every step** keeps the accounts. -/
theorem step_accounts {limit : ℕ} {s s' : LimitRun} {a : LimitAction}
    (hstep : step limit s a = some s') :
    claimedRows s.calls ≤ claimedRows s'.calls ∧
      (claimedRows s'.calls < 2 ^ 64 → Accounts limit s → Accounts limit s') := by
  cases a with
  | call w batch =>
      obtain ⟨result, isDone, hidle, hcut, rfl⟩ := step_call hstep
      constructor
      · rw [claimedRows_append]
        exact Nat.le_add_right _ _
      · intro hrows h
        exact h.call hidle hcut hrows
  | store w =>
      obtain ⟨batch, result, hstoring, rfl⟩ := step_store hstep
      exact ⟨le_rfl, fun _ h => h.store hstoring⟩
  | ret w =>
      obtain ⟨batch, result, hreturning, rfl⟩ := step_ret hstep
      exact ⟨le_rfl, fun _ h => h.ret hreturning⟩

/-! ## Whole runs -/

/-- The accounts of a run. -/
theorem run_accounts {limit numWorkers : ℕ} {as : List LimitAction} {s : LimitRun}
    (hrun : run (step limit) (start numWorkers) as = some s)
    (hrows : claimedRows s.calls < 2 ^ 64) : Accounts limit s := by
  refine run_invariant (I := fun s => claimedRows s.calls < 2 ^ 64 → Accounts limit s)
    (fun s a s' h hstep hrows' => ?_) (fun _ => accounts_start limit numWorkers) hrun hrows
  obtain ⟨hle, hkeep⟩ := step_accounts hstep
  exact hkeep hrows' (h (hle.trans_lt hrows'))

/-- **LIMIT is exact under every schedule** that hands it fewer than `2 ^ 64` rows: when all calls
have returned, the batches forwarded are those of the calls and have `min limit total` rows; each is
a prefix of the selected rows of the batch received; the flag is set only when the limit has been
claimed; and a call after that forwards nothing. -/
theorem limit_exact {limit numWorkers : ℕ} {as : List LimitAction} {s : LimitRun}
    (hrun : run (step limit) (start numWorkers) as = some s)
    (hrows : claimedRows s.calls < 2 ^ 64) :
    ((∀ w ∈ s.workers, w = .idle) →
      s.forwarded.Perm (s.calls.filterMap forwardedBy) ∧
        (s.forwarded.map fun p => p.2.rows.length).sum = min limit (claimedRows s.calls)) ∧
    (∀ p ∈ s.forwarded, p.1 ∈ s.calls.map Prod.fst ∧ p.2.columns = p.1.1.columns ∧
      p.2.rows <+: p.1.1.rows) ∧
    (s.isDone = true → limit ≤ claimedRows s.calls) ∧
    ∀ before c after, s.calls = before ++ c :: after → limit ≤ claimedRows before → c.2 = none := by
  have h := run_accounts hrun hrows
  have hspec : ∀ before c after, s.calls = before ++ c :: after →
      (limit ≤ claimedRows before → c.2 = none) ∧
        ∀ b', c.2 = some b' → b'.columns = c.1.1.columns ∧ b'.rows <+: c.1.1.rows := by
    intro before c after heq
    obtain ⟨isDone, hc⟩ := h.cut before c after heq
    have hle : claimedRows before + c.1.1.numRows ≤ claimedRows s.calls := by
      simp only [claimedRows, heq, List.map_append, List.map_cons, List.sum_append, List.sum_cons]
      omega
    exact ⟨(limitCut_spec c.1.2 limit (hle.trans_lt hrows) hc).2.1,
      (limitCut_spec c.1.2 limit (hle.trans_lt hrows) hc).2.2.2⟩
  refine ⟨?_, ?_, h.isDone, fun before c after heq => (hspec before c after heq).1⟩
  · intro hidle
    have hpending : (s.workers.map fun w =>
        (w.pending.toList : Multiset (WellFormedBatch × RecordBatch))).sum = 0 := by
      apply List.sum_eq_zero
      intro m hm
      obtain ⟨w, hw, rfl⟩ := List.mem_map.mp hm
      rw [hidle w hw]
      rfl
    have hperm : s.forwarded.Perm (s.calls.filterMap forwardedBy) := by
      rw [← Multiset.coe_eq_coe, ← h.returned, hpending, add_zero]
    refine ⟨hperm, ?_⟩
    rw [← h.cut.sum_resultRows hrows, (hperm.map _).sum_eq]
    exact sum_forwardedBy s.calls
  · intro p hp
    have hmem : p ∈ s.calls.filterMap forwardedBy := by
      rw [← Multiset.mem_coe, ← h.returned]
      exact Multiset.mem_add.mpr (.inl (Multiset.mem_coe.mpr hp))
    obtain ⟨c, hc, hby⟩ := List.mem_filterMap.mp hmem
    obtain ⟨b', hb', rfl⟩ := Option.map_eq_some_iff.mp hby
    obtain ⟨before, after, heq⟩ := List.append_of_mem hc
    exact ⟨List.mem_map_of_mem hc, (hspec before c after heq).2 b' hb'⟩

/-- A batch of two selected rows and a batch of three on two workers, whose calls overlap. -/
theorem limit_exact_two_workers :
    let a : WellFormedBatch :=
      ⟨⟨2, some [0, 2], [.ofValues .int32 [.int 1, .int 2, .int 3]]⟩, by decide⟩
    let b : WellFormedBatch := ⟨⟨3, none, [.ofValues .int32 [.int 4, .int 5, .int 6]]⟩, by decide⟩
    ∃ s, run (step 4) (start 2) [.call 0 a, .call 1 b, .store 1, .ret 1, .ret 0] = some s ∧
      s.isDone = true ∧ (s.forwarded.map fun p => p.2.rows.length).sum = 4 := by
  intro a b
  refine ⟨_, rfl, rfl, ?_⟩
  exact ((@limit_exact 4 2 [.call 0 a, .call 1 b, .store 1, .ret 1, .ret 0] _ rfl (by decide)).1
    (by decide)).2

/-- The counter wraps: of three batches, with `1`, `2 ^ 64 - 1` and `1` rows, a limit of one row
lets the first and the last pass. -/
theorem limit_wraps :
    let one : WellFormedBatch := ⟨⟨1, none, []⟩, by decide⟩
    let huge : WellFormedBatch := ⟨⟨2 ^ 64 - 1, none, []⟩, by decide⟩
    ∃ s, run (step 1) (start 1) [.call 0 one, .store 0, .ret 0, .call 0 huge, .store 0, .ret 0,
        .call 0 one, .store 0, .ret 0] = some s ∧ (∀ w ∈ s.workers, w = .idle) ∧
      (s.forwarded.map fun p => p.2.rows.length).sum ≠ min 1 (claimedRows s.calls) := by
  intro one huge
  refine ⟨⟨1, true, [.idle], [(one, some one.1), (huge, none), (one, some one.1)],
    [(one, one.1), (one, one.1)]⟩, by decide +kernel, by decide, by decide +kernel⟩

end LimitRun

end ColumnarEngine
