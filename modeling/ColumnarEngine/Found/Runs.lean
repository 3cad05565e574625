import Mathlib

/-!
# Runs of equal elements

A run is a count and an element, and runs stand for the list that `expand` makes of them. `runs`
finds the runs of a list in one pass, with the run that is open carried along (`runsFrom`). They are
`Maximal`: no run is empty, and two that are next to each other have different elements.
-/

namespace ColumnarEngine.Found

variable {α : Type*}

/-- The elements of runs, one run after another. -/
def expand (runs : List (ℕ × α)) : List α := runs.flatMap fun run => List.replicate run.1 run.2

/-- No run is empty, and none could be joined with the next. -/
structure Maximal (runs : List (ℕ × α)) : Prop where
  pos : ∀ run ∈ runs, 0 < run.1
  ne : (runs.map Prod.snd).IsChain (· ≠ ·)

/-- The counts add up to the number of elements. -/
theorem sum_counts (runs : List (ℕ × α)) : (runs.map Prod.fst).sum = (expand runs).length := by
  unfold expand
  simp [List.length_flatMap]

/-- A run is no longer than the list. -/
theorem count_le_length {runs : List (ℕ × α)} {run : ℕ × α} (h : run ∈ runs) :
    run.1 ≤ (expand runs).length := by
  rw [← sum_counts]
  exact List.single_le_sum (fun _ _ => Nat.zero_le _) _ (List.mem_map_of_mem h)

/-- The element of a run that is not empty is in the list. -/
theorem Maximal.mem_expand {runs : List (ℕ × α)} (hruns : Maximal runs) {run : ℕ × α}
    (h : run ∈ runs) : run.2 ∈ expand runs := by
  unfold expand
  apply List.mem_flatMap.mpr
  exact ⟨run, h, List.mem_replicate.mpr ⟨(hruns.pos run h).ne', rfl⟩⟩

variable [DecidableEq α]

/-- The runs of `count` times `current` and a list behind them. -/
def runsFrom (count : ℕ) (current : α) : List α → List (ℕ × α)
  | [] => [(count, current)]
  | a :: l =>
      if a = current then runsFrom (count + 1) current l
      else (count, current) :: runsFrom 1 a l

/-- The runs of a list. -/
def runs : List α → List (ℕ × α)
  | [] => []
  | a :: l => runsFrom 1 a l

/-- The open run and the list behind it are what the runs expand to. -/
theorem expand_runsFrom (count : ℕ) (current : α) (l : List α) :
    expand (runsFrom count current l) = List.replicate count current ++ l := by
  induction l generalizing count current with
  | nil => simp [runsFrom, expand]
  | cons a l ih =>
      unfold runsFrom
      split_ifs with h
      · rw [ih, List.replicate_succ', List.append_assoc, List.singleton_append, h]
      · have hcons : expand ((count, current) :: runsFrom 1 a l) =
            List.replicate count current ++ expand (runsFrom 1 a l) := List.flatMap_cons
        rw [hcons, ih]
        rfl

/-- The open run is the first of the runs. -/
theorem head?_runsFrom (count : ℕ) (current : α) (l : List α) :
    ((runsFrom count current l).map Prod.snd).head? = some current := by
  induction l generalizing count with
  | nil => rfl
  | cons a l ih =>
      unfold runsFrom
      split_ifs
      · exact ih (count + 1)
      · rfl

/-- Runs are maximal if the open run is not empty. -/
theorem maximal_runsFrom {count : ℕ} (hcount : 0 < count) (current : α) (l : List α) :
    Maximal (runsFrom count current l) := by
  induction l generalizing count current with
  | nil =>
      refine ⟨?_, List.isChain_singleton current⟩
      intro run hrun
      obtain rfl := List.mem_singleton.mp hrun
      exact hcount
  | cons a l ih =>
      unfold runsFrom
      split_ifs with h
      · exact ih (Nat.succ_pos count) current
      · have hrest := ih Nat.one_pos a
        refine ⟨List.forall_mem_cons.mpr ⟨hcount, hrest.pos⟩, ?_⟩
        rw [List.map_cons]
        apply List.isChain_cons.mpr
        refine ⟨?_, hrest.ne⟩
        intro b hb
        rw [head?_runsFrom] at hb
        obtain rfl := Option.mem_some_iff.mp hb
        exact Ne.symm h

/-- The runs of a list expand to it. -/
theorem expand_runs (l : List α) : expand (runs l) = l := by
  cases l with
  | nil => rfl
  | cons a l => exact expand_runsFrom 1 a l

/-- The runs of a list are maximal. -/
theorem maximal_runs (l : List α) : Maximal (runs l) := by
  cases l with
  | nil => exact ⟨by simp [runs], List.isChain_nil⟩
  | cons a l => exact maximal_runsFrom Nat.one_pos a l

end ColumnarEngine.Found
