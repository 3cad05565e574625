import ColumnarEngine.Exec.Pipeline

/-!
# Many callers of one source

`GetData` called by any number of callers on one source operator, as a machine: a call is its one
access to the shared state, which decides what it returns, and the return. Whatever the
interleaving, the batches returned, those in flight and those that the source has still to emit are
together the batches that it had at the start (`run_conserves`).
-/

namespace ColumnarEngine

open Found

/-- Where a caller stands in its call of `GetData`. -/
inductive SourceCaller
  | idle
  | returning (result : Option RecordBatch)
  deriving DecidableEq

/-- A caller calls `GetData` or returns. -/
inductive SourceAction
  | call (w : ℕ)
  | ret (w : ℕ)

/-- A source with its callers, and what has been returned. -/
structure SourceRun (σ : Type*) where
  source : σ
  callers : List SourceCaller
  returned : List (Option RecordBatch)

namespace SourceRun

variable {σ : Type*} (src : SourceOperator σ)

/-- Before the first call. -/
def start (s : σ) (numCallers : ℕ) : SourceRun σ := ⟨s, List.replicate numCallers .idle, []⟩

/-- One step of a caller. -/
def step (s : SourceRun σ) : SourceAction → Option (SourceRun σ)
  | .call w =>
      match s.callers[w]? with
      | some .idle =>
          (src.getData s.source).map fun (result, source) =>
            { s with source := source, callers := s.callers.set w (.returning result) }
      | _ => none
  | .ret w =>
      match s.callers[w]? with
      | some (.returning result) =>
          some { s with callers := s.callers.set w .idle, returned := s.returned ++ [result] }
      | _ => none

/-- The batches returned. -/
def batches (s : SourceRun σ) : List RecordBatch := s.returned.filterMap id

end SourceRun

/-- The batch a caller is about to return. -/
def SourceCaller.inFlight : SourceCaller → Option RecordBatch
  | .idle => none
  | .returning result => result

namespace SourceRun

variable {σ : Type*} {src : SourceOperator σ}

/-- No batch is lost or returned twice, and null is returned only when nothing is left. -/
structure Conserves (src : SourceOperator σ) (all : List RecordBatch) (s : SourceRun σ) : Prop where
  batches : (s.batches : Multiset RecordBatch) +
    (s.callers.map fun c => (c.inFlight.toList : Multiset RecordBatch)).sum +
      (src.pending s.source : Multiset RecordBatch) = all
  exhausted : none ∈ s.returned ∨ .returning none ∈ s.callers → src.pending s.source = []

theorem conserves_start (s : σ) (numCallers : ℕ) :
    Conserves src (src.pending s) (start s numCallers) where
  batches := by simp [start, SourceRun.batches, SourceCaller.inFlight]
  exhausted := by simp [start, List.mem_replicate]

/-- What a call does. -/
theorem step_call {s s' : SourceRun σ} {w : ℕ} (h : step src s (.call w) = some s') :
    ∃ result source, s.callers[w]? = some .idle ∧ src.getData s.source = some (result, source) ∧
      s' = { s with source := source, callers := s.callers.set w (.returning result) } := by
  rw [step] at h
  split at h
  case h_1 hidle =>
    obtain ⟨⟨result, source⟩, hget, rfl⟩ := Option.map_eq_some_iff.mp h
    exact ⟨result, source, hidle, hget, rfl⟩
  case h_2 => cases h

/-- What a return does. -/
theorem step_ret {s s' : SourceRun σ} {w : ℕ} (h : step src s (.ret w) = some s') :
    ∃ result, s.callers[w]? = some (.returning result) ∧
      s' = { s with callers := s.callers.set w .idle, returned := s.returned ++ [result] } := by
  rw [step] at h
  split at h
  case h_1 result hreturning => exact ⟨result, hreturning, (Option.some.inj h).symm⟩
  case h_2 => cases h

/-- What is in flight, with a caller exchanged for another. -/
theorem sum_inFlight_set {callers : List SourceCaller} {w : ℕ} {caller : SourceCaller}
    (h : callers[w]? = some caller) (caller' : SourceCaller) :
    ((callers.set w caller').map fun c => (c.inFlight.toList : Multiset RecordBatch)).sum +
        (caller.inFlight.toList : Multiset RecordBatch) =
      (callers.map fun c => (c.inFlight.toList : Multiset RecordBatch)).sum +
        (caller'.inFlight.toList : Multiset RecordBatch) :=
  sum_map_set _ h

/-- A call takes a batch off the source. -/
theorem Conserves.call {all : List RecordBatch} {s : SourceRun σ} (h : Conserves src all s) {w : ℕ}
    {result : Option RecordBatch} {source : σ} (hidle : s.callers[w]? = some .idle)
    (hget : src.getData s.source = some (result, source)) :
    Conserves src all
      { s with source := source, callers := s.callers.set w (.returning result) } := by
  have hpending := src.pending_eq hget
  have hset := sum_inFlight_set hidle (.returning result)
  rw [SourceCaller.inFlight, SourceCaller.inFlight, Option.toList_none, Multiset.coe_nil,
    add_zero] at hset
  constructor
  · have hbatches := h.batches
    rw [hpending, ← Multiset.coe_add] at hbatches
    dsimp only
    rw [hset, ← hbatches]
    simp only [SourceRun.batches, add_assoc]
  · -- Null in flight comes from this call or from one before it.
    intro hnone
    dsimp only at hnone ⊢
    have hold : (none ∈ s.returned ∨ .returning none ∈ s.callers) ∨ result = none := by
      rcases hnone with hnone | hnone
      · exact .inl (.inl hnone)
      · rcases List.mem_or_eq_of_mem_set hnone with hnone | heq
        · exact .inl (.inr hnone)
        · exact .inr (SourceCaller.returning.inj heq).symm
    have hempty : src.pending s.source = [] ∨ result = none := hold.imp_left h.exhausted
    rcases hempty with hempty | rfl
    · rw [hempty] at hpending
      exact (List.append_eq_nil_iff.mp hpending.symm).2
    · rw [src.exhausted hget] at hpending
      exact (List.append_eq_nil_iff.mp hpending.symm).2

/-- A return gives out what is in flight. -/
theorem Conserves.ret {all : List RecordBatch} {s : SourceRun σ} (h : Conserves src all s) {w : ℕ}
    {result : Option RecordBatch} (hreturning : s.callers[w]? = some (.returning result)) :
    Conserves src all
      { s with callers := s.callers.set w .idle, returned := s.returned ++ [result] } := by
  have hset := sum_inFlight_set hreturning .idle
  rw [SourceCaller.inFlight, SourceCaller.inFlight, Option.toList_none, Multiset.coe_nil,
    add_zero] at hset
  constructor
  · have hresult : ((s.returned ++ [result]).filterMap id : Multiset RecordBatch) =
        s.returned.filterMap id + (result.toList : Multiset RecordBatch) := by
      rw [List.filterMap_append, ← Multiset.coe_add]
      cases result <;> rfl
    rw [← h.batches, ← hset]
    simp only [SourceRun.batches, hresult]
    abel
  · intro hnone
    apply h.exhausted
    rcases hnone with hnone | hnone
    · rcases List.mem_append.mp hnone with hnone | heq
      · exact .inl hnone
      · rw [List.mem_singleton] at heq
        exact .inr (heq ▸ List.mem_of_getElem? hreturning)
    · rcases List.mem_or_eq_of_mem_set hnone with hnone | heq
      · exact .inr hnone
      · cases heq

/-- **Every step** conserves the batches. -/
theorem step_conserves {all : List RecordBatch} {s s' : SourceRun σ} {a : SourceAction}
    (h : Conserves src all s) (hstep : step src s a = some s') : Conserves src all s' := by
  cases a with
  | call w =>
      obtain ⟨result, source, hidle, hget, rfl⟩ := step_call hstep
      exact h.call hidle hget
  | ret w =>
      obtain ⟨result, hreturning, rfl⟩ := step_ret hstep
      exact h.ret hreturning

/-- **Every run** conserves the batches. -/
theorem run_conserves {s₀ : σ} {numCallers : ℕ} {as : List SourceAction} {s : SourceRun σ}
    (hrun : run (step src) (start s₀ numCallers) as = some s) :
    Conserves src (src.pending s₀) s :=
  run_invariant (fun _ _ _ => step_conserves) (conserves_start s₀ numCallers) hrun

/-- No batch is returned more often than the source had it. -/
theorem Conserves.subperm {all : List RecordBatch} {s : SourceRun σ} (h : Conserves src all s) :
    s.batches.Subperm all := by
  rw [← Multiset.coe_le, ← h.batches, add_assoc]
  exact Multiset.le_add_right _ _

/-- When a caller has got null and all calls have returned, every batch was returned once. -/
theorem Conserves.perm {all : List RecordBatch} {s : SourceRun σ} (h : Conserves src all s)
    (hidle : ∀ c ∈ s.callers, c = .idle) (hnone : none ∈ s.returned) : s.batches.Perm all := by
  have hflight : (s.callers.map fun c => (c.inFlight.toList : Multiset RecordBatch)).sum = 0 := by
    apply List.sum_eq_zero
    intro m hm
    obtain ⟨c, hc, rfl⟩ := List.mem_map.mp hm
    rw [hidle c hc]
    rfl
  rw [← Multiset.coe_eq_coe, ← h.batches, hflight, h.exhausted (.inl hnone), add_zero,
    Multiset.coe_nil, add_zero]

/-- The source of a run is reached by calls of `GetData`. -/
theorem run_source {s₀ : σ} {numCallers : ℕ} {as : List SourceAction} {s : SourceRun σ}
    (hrun : run (step src) (start s₀ numCallers) as = some s) {I : σ → Prop} (hs : I s₀)
    (keep : ∀ s r s', I s → src.getData s = some (r, s') → I s') : I s.source := by
  refine run_invariant (I := fun s : SourceRun σ => I s.source) (fun s a s' h hstep => ?_) hs hrun
  cases a with
  | call w =>
      obtain ⟨result, source, -, hget, rfl⟩ := step_call hstep
      exact keep _ _ _ h hget
  | ret w =>
      obtain ⟨result, -, rfl⟩ := step_ret hstep
      exact h

end SourceRun

end ColumnarEngine
