import Mathlib

/-!
# Strict weak orders and the algorithms that sort by them

A comparator `lt : α → α → Bool` is what a sorting algorithm is given. `StrictWeak lt` is the
precondition of every such algorithm; comparators are built by pulling back along a function
(`comap`), reversing (`flip`) and breaking ties (`thenBy`, `lexLess`). `NotAfter lt a b` ("`a` may
stand before `b`") is the total preorder behind a strict weak order.

`SortAlgorithms` is a library of sorting algorithms known by contract only.
-/

namespace ColumnarEngine.Found

variable {α β : Type*}

/-- The precondition of a sorting algorithm on its comparator. -/
structure StrictWeak (lt : α → α → Bool) : Prop where
  asymm : ∀ a b, lt a b = true → lt b a = false
  negTrans : ∀ a b c, lt a c = true → lt a b = true ∨ lt b c = true

/-- `a` may stand before `b`. -/
def NotAfter (lt : α → α → Bool) (a b : α) : Prop := lt b a = false

instance (lt : α → α → Bool) : DecidableRel (NotAfter lt) := fun _ _ => decEq _ _

/-- Compare by `lt`, and by `lt'` where `lt` does not decide. -/
def thenBy (lt lt' : α → α → Bool) (a b : α) : Bool :=
  if lt a b then true else if lt b a then false else lt' a b

/-- Compare by each comparator in turn. -/
def lexLess (lts : List (α → α → Bool)) : α → α → Bool := lts.foldr thenBy fun _ _ => false

namespace StrictWeak

variable {lt lt' : α → α → Bool}

theorem comap (h : StrictWeak lt) (f : β → α) : StrictWeak fun a b => lt (f a) (f b) :=
  ⟨fun a b => h.asymm (f a) (f b), fun a b c => h.negTrans (f a) (f b) (f c)⟩

theorem flip (h : StrictWeak lt) : StrictWeak fun a b => lt b a :=
  ⟨fun a b => h.asymm b a, fun a b c hac => (h.negTrans c b a hac).symm⟩

theorem const_false : StrictWeak fun _ _ : α => false := ⟨by simp, by simp⟩

/-- A linear order compares strictly weakly. -/
theorem of_lt [LinearOrder β] {f : α → β} (h : ∀ a b, lt a b = true ↔ f a < f b) :
    StrictWeak lt := by
  constructor
  · intro a b hab
    rw [h] at hab
    rw [Bool.eq_false_iff, ne_eq, h]
    exact not_lt.mpr hab.le
  · intro a b c hac
    rw [h] at hac
    rw [h, h]
    exact (lt_or_ge (f a) (f b)).imp_right fun hba => hba.trans_lt hac

/-- Breaking ties of a strict weak order by another. -/
theorem thenBy (h : StrictWeak lt) (h' : StrictWeak lt') : StrictWeak (Found.thenBy lt lt') := by
  constructor
  · intro a b hab
    have has := h.asymm a b
    have has' := h.asymm b a
    have hties := h'.asymm a b
    simp only [Found.thenBy] at hab ⊢
    split_ifs at hab ⊢ <;> simp_all
  · intro a b c hac
    have h₁ := h.negTrans a b c
    have h₂ := h.negTrans b a c
    have h₃ := h.negTrans a c b
    have h₄ := h.negTrans c a b
    have h₅ := h.negTrans c b a
    have h₆ := h.negTrans b c a
    have hties := h'.negTrans a b c
    simp only [Found.thenBy] at hac ⊢
    split_ifs at hac ⊢ <;> simp_all

/-- Comparing by several strict weak orders in turn. -/
theorem lexLess {lts : List (α → α → Bool)} (h : ∀ lt ∈ lts, StrictWeak lt) :
    StrictWeak (Found.lexLess lts) := by
  induction lts with
  | nil => exact const_false
  | cons lt lts ih =>
      exact (h lt List.mem_cons_self).thenBy (ih fun lt' h' => h lt' (List.mem_cons_of_mem lt h'))

/-- "May stand before" is transitive. -/
theorem isTrans (h : StrictWeak lt) : IsTrans α (NotAfter lt) := by
  refine ⟨?_⟩
  intro a b c hab hbc
  unfold NotAfter at *
  rw [Bool.eq_false_iff]
  intro hca
  rcases h.negTrans c b a hca with hcb | hba
  · simp [hcb] at hbc
  · simp [hba] at hab

/-- "May stand before" is total. -/
theorem total (h : StrictWeak lt) : Std.Total (NotAfter lt) := by
  refine ⟨?_⟩
  intro a b
  unfold NotAfter
  cases hba : lt b a with
  | false => exact Or.inl rfl
  | true => exact Or.inr (h.asymm b a hba)

end StrictWeak

/-! ## Sorting algorithms by contract -/

/-- `std::sort`, `std::partial_sort` and `std::nth_element`, with their contracts for a comparator
that is a strict weak order and a middle position inside the range. -/
structure SortAlgorithms (α : Type*) where
  sort : (α → α → Bool) → List α → List α
  partialSort : (α → α → Bool) → ℕ → List α → List α
  nthElement : (α → α → Bool) → ℕ → List α → List α
  sort_perm : ∀ {lt} (_ : StrictWeak lt) (l), (sort lt l).Perm l
  sort_sorted : ∀ {lt} (_ : StrictWeak lt) (l), (sort lt l).Pairwise (NotAfter lt)
  partialSort_perm : ∀ {lt} (_ : StrictWeak lt) {k} {l : List α}, k ≤ l.length →
    (partialSort lt k l).Perm l
  partialSort_sorted : ∀ {lt} (_ : StrictWeak lt) {k} {l : List α}, k ≤ l.length →
    ((partialSort lt k l).take k).Pairwise (NotAfter lt)
  partialSort_before : ∀ {lt} (_ : StrictWeak lt) {k} {l : List α}, k ≤ l.length →
    ∀ a ∈ (partialSort lt k l).take k, ∀ b ∈ (partialSort lt k l).drop k, NotAfter lt a b
  nthElement_perm : ∀ {lt} (_ : StrictWeak lt) {k} {l : List α}, k ≤ l.length →
    (nthElement lt k l).Perm l
  nthElement_before : ∀ {lt} (_ : StrictWeak lt) {k} {l : List α}, k ≤ l.length →
    ∀ a ∈ (nthElement lt k l).take k, ∀ b ∈ (nthElement lt k l).drop k, NotAfter lt a b

/-- Sorting the whole range meets all three contracts. -/
def SortAlgorithms.ofSort {α : Type*} (sort : (α → α → Bool) → List α → List α)
    (hperm : ∀ (lt : α → α → Bool) (l : List α), (sort lt l).Perm l)
    (hsorted : ∀ {lt : α → α → Bool}, StrictWeak lt → ∀ l : List α,
      (sort lt l).Pairwise (NotAfter lt)) : SortAlgorithms α :=
  have hbefore : ∀ {lt : α → α → Bool}, StrictWeak lt → ∀ {k : ℕ} {l : List α},
      ∀ a ∈ (sort lt l).take k, ∀ b ∈ (sort lt l).drop k, NotAfter lt a b := by
    intro lt h k l a ha b hb
    have hpair := hsorted h l
    rw [← List.take_append_drop k (sort lt l), List.pairwise_append] at hpair
    exact hpair.2.2 a ha b hb
  { sort := sort
    partialSort := fun lt _ l => sort lt l
    nthElement := fun lt _ l => sort lt l
    sort_perm := fun _ l => hperm _ l
    sort_sorted := fun h l => hsorted h l
    partialSort_perm := fun _ _ _ _ => hperm _ _
    partialSort_sorted := fun h _ l _ => (hsorted h l).sublist (List.take_sublist _ _)
    partialSort_before := fun h _ _ _ => hbefore h
    nthElement_perm := fun _ _ _ _ => hperm _ _
    nthElement_before := fun h _ _ _ => hbefore h }

/-- Merge sort. -/
def SortAlgorithms.mergeSort (α : Type*) : SortAlgorithms α :=
  .ofSort (fun lt l => l.mergeSort fun a b => !lt b a) (fun _ _ => List.mergeSort_perm _ _) (by
    intro lt h l
    refine (List.pairwise_mergeSort (fun a b c hab hbc => ?_) (fun a b => ?_) l).imp fun hab => ?_
    · have := h.isTrans.trans a b c
      unfold NotAfter at this
      simp_all
    · have := h.total.total a b
      unfold NotAfter at this
      rcases this with this | this <;> simp [this]
    · unfold NotAfter
      simpa using hab)

/-- Insertion sort is structurally recursive, so that a run with it can be evaluated. -/
def SortAlgorithms.insertionSort (α : Type*) : SortAlgorithms α :=
  .ofSort (fun lt l => l.insertionSort fun a b => lt b a = false)
    (fun _ _ => List.perm_insertionSort _ _) (by
      intro lt h l
      have htotal := h.total
      have htrans := h.isTrans
      exact List.pairwise_insertionSort (NotAfter lt) l)

end ColumnarEngine.Found
