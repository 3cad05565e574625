import Mathlib

/-!
# Runs of a partial step function

A machine is a step function `step : σ → α → Option σ` on states `σ` and actions `α`; a run is a
list of actions, each enabled in the state the previous ones lead to. An invariant is proved step by
step, with or without a condition that every step of the run meets. The last section is for states
with a list of components of which a step changes one.
-/

namespace ColumnarEngine.Found

variable {σ α : Type*} {step : σ → α → Option σ}

/-- The state after the actions, if each was enabled. -/
def run (step : σ → α → Option σ) (s : σ) (as : List α) : Option σ := as.foldlM step s

/-- Every step of the run is taken from a state that meets the condition. -/
def MeetsAll (step : σ → α → Option σ) (cond : σ → α → Prop) : σ → List α → Prop
  | _, [] => True
  | s, a :: as => cond s a ∧ ∀ s', step s a = some s' → MeetsAll step cond s' as

@[simp] theorem run_nil (s : σ) : run step s [] = some s := rfl

theorem run_cons {s s' : σ} {a : α} {as : List α} :
    run step s (a :: as) = some s' ↔ ∃ s₁, step s a = some s₁ ∧ run step s₁ as = some s' := by
  rw [run, List.foldlM_cons, Option.bind_eq_bind, Option.bind_eq_some_iff]
  rfl

/-- A run followed by another. -/
theorem run_append {s s' : σ} {as as' : List α} :
    run step s (as ++ as') = some s' ↔
      ∃ s₁, run step s as = some s₁ ∧ run step s₁ as' = some s' := by
  rw [run, List.foldlM_append, Option.bind_eq_bind, Option.bind_eq_some_iff]
  rfl

/-- A run followed by one more action. -/
theorem run_concat {s s' : σ} {as : List α} {a : α} :
    run step s (as ++ [a]) = some s' ↔ ∃ s₁, run step s as = some s₁ ∧ step s₁ a = some s' := by
  simp [run_append, run_cons]

/-- **Invariant under a condition**: what every step that meets the condition keeps holds at the end
of every run whose steps all meet it. -/
theorem run_invariant_of_meets {I : σ → Prop} {cond : σ → α → Prop}
    (keep : ∀ s a s', cond s a → I s → step s a = some s' → I s') {s s' : σ} {as : List α}
    (hmeets : MeetsAll step cond s as) (hs : I s) (hrun : run step s as = some s') : I s' := by
  induction as generalizing s with
  | nil =>
      rw [run_nil, Option.some.injEq] at hrun
      exact hrun ▸ hs
  | cons a as ih =>
      obtain ⟨s₁, hstep, hrest⟩ := run_cons.mp hrun
      exact ih (hmeets.2 s₁ hstep) (keep s a s₁ hmeets.1 hs hstep) hrest

/-- A condition that every step meets. -/
theorem meetsAll_of_forall {cond : σ → α → Prop} (h : ∀ s a, cond s a) (s : σ) (as : List α) :
    MeetsAll step cond s as := by
  induction as generalizing s with
  | nil => trivial
  | cons a as ih => exact ⟨h s a, fun s' _ => ih s'⟩

/-- **Conditions along a run**: where the states keep an invariant as long as `F` holds, and `F` goes
on to hold exactly with steps that meet the condition, all steps meet it exactly if `F` holds of the
whole run. -/
theorem meetsAll_iff {cond : σ → α → Prop} {I : List α → σ → Prop} {F : List α → Prop} {s : σ}
    {as : List α} (start : I [] s) (hF : F []) (mono : ∀ done rest, F (done ++ rest) → F done)
    (keep : ∀ done a rest, as = done ++ a :: rest → ∀ s, I done s → F done →
      (cond s a ↔ F (done ++ [a])) ∧ ∃ s', step s a = some s' ∧ I (done ++ [a]) s') :
    MeetsAll step cond s as ↔ F as := by
  suffices h : ∀ (rest done : List α) (s : σ), as = done ++ rest → I done s → F done →
      (MeetsAll step cond s rest ↔ F as) by
    exact h as [] s rfl start hF
  intro rest
  induction rest with
  | nil =>
      intro done s has _ hdone
      rw [List.append_nil] at has
      exact iff_of_true trivial (has ▸ hdone)
  | cons a rest ih =>
      intro done s has hI hdone
      obtain ⟨hcond, s', hs', hI'⟩ := keep done a rest has s hI hdone
      have hassoc : as = (done ++ [a]) ++ rest := by rw [has, List.append_assoc]; rfl
      constructor
      · rintro ⟨ha, hrest⟩
        exact (ih _ s' hassoc hI' (hcond.mp ha)).mp (hrest s' hs')
      · intro has'
        have hnext : F (done ++ [a]) := mono _ rest (hassoc ▸ has')
        refine ⟨hcond.mpr hnext, ?_⟩
        intro s'' hs''
        obtain rfl := Option.some.inj (hs'.symm.trans hs'')
        exact (ih _ s' hassoc hI' hnext).mpr has'

/-- **Invariant**: what every step keeps holds at the end of every run. -/
theorem run_invariant {I : σ → Prop} (keep : ∀ s a s', I s → step s a = some s' → I s') {s s' : σ}
    {as : List α} (hs : I s) (hrun : run step s as = some s') : I s' := by
  have hmeets : MeetsAll step (fun _ _ => True) s as := meetsAll_of_forall (fun _ _ => trivial) s as
  exact run_invariant_of_meets (fun s a s' _ => keep s a s') hmeets hs hrun

/-! ## Runs that come to an end -/

section measure

variable {I : σ → Prop} {size : σ → ℕ}

/-- **Termination**: a measure that every step decreases bounds the length of every run. -/
theorem length_add_le_of_run (shrink : ∀ s a s', step s a = some s' → size s' < size s)
    {s s' : σ} {as : List α} (hrun : run step s as = some s') : as.length + size s' ≤ size s := by
  induction as generalizing s with
  | nil =>
      rw [run_nil, Option.some.injEq] at hrun
      rw [hrun, List.length_nil, Nat.zero_add]
  | cons a as ih =>
      obtain ⟨s₁, hstep, hrest⟩ := run_cons.mp hrun
      have hrest := ih hrest
      have hlt := shrink s a s₁ hstep
      rw [List.length_cons]
      omega

/-- **Finitely many steps of a kind**: if a rank falls at every step that is not exempt, then an
infinite run takes an exempt step again and again. -/
theorem exempt_again {β : Type*} {r : β → β → Prop} (hr : WellFounded r) (rank : σ → β)
    (exempt : α → Prop) (keep : ∀ s a s', I s → step s a = some s' → I s')
    (fall : ∀ s a s', I s → step s a = some s' → ¬ exempt a → r (rank s') (rank s))
    {states : ℕ → σ} {actions : ℕ → α} (hs : I (states 0))
    (hsteps : ∀ i, step (states i) (actions i) = some (states (i + 1))) (n : ℕ) :
    ∃ i, n ≤ i ∧ exempt (actions i) := by
  have hinv : ∀ i, I (states i) := by
    intro i
    induction i with
    | zero => exact hs
    | succ i ih => exact keep _ _ _ ih (hsteps i)
  by_contra hnone
  have hfall : ∀ i, r (rank (states (n + (i + 1)))) (rank (states (n + i))) := by
    intro i
    apply fall _ _ _ (hinv (n + i)) (hsteps (n + i))
    exact fun hexempt => hnone ⟨n + i, Nat.le_add_right _ _, hexempt⟩
  exact (wellFounded_iff_isEmpty_descending_chain.mp hr).false
    ⟨fun i => rank (states (n + i)), hfall⟩

end measure

/-! ## Two machines side by side -/

/-- Both undefined, or both defined and related. -/
inductive Related {β γ : Type*} (R : β → γ → Prop) : Option β → Option γ → Prop
  | undefined : Related R none none
  | defined {b : β} {c : γ} (h : R b c) : Related R (some b) (some c)

namespace Related

variable {β γ δ ε : Type*} {R : β → γ → Prop} {S : δ → ε → Prop} {x : Option β} {y : Option γ}

theorem map {f : β → δ} {g : γ → ε} (h : Related R x y) (hmap : ∀ b c, R b c → S (f b) (g c)) :
    Related S (x.map f) (y.map g) := by
  cases h with
  | undefined => exact .undefined
  | defined h => exact .defined (hmap _ _ h)

theorem bind {f : β → Option δ} {g : γ → Option ε} (h : Related R x y)
    (hbind : ∀ b c, R b c → Related S (f b) (g c)) : Related S (x.bind f) (y.bind g) := by
  cases h with
  | undefined => exact .undefined
  | defined h => exact hbind _ _ h

/-- Related results look the same where the relation says so. -/
theorem map_eq {f : β → δ} {g : γ → δ} (h : Related R x y) (hmap : ∀ b c, R b c → f b = g c) :
    x.map f = y.map g := by
  cases h with
  | undefined => rfl
  | defined h => exact congrArg some (hmap _ _ h)

end Related

/-- **Simulation**: steps that keep two machines related keep their runs related. -/
theorem run_related {τ : Type*} {step' : τ → α → Option τ} {R : σ → τ → Prop}
    (keep : ∀ s t a, R s t → Related R (step s a) (step' t a)) {s : σ} {t : τ} (h : R s t)
    (as : List α) : Related R (run step s as) (run step' t as) := by
  induction as generalizing s t with
  | nil => exact .defined h
  | cons a as ih =>
      have hstep := keep s t a h
      rw [run, run, List.foldlM_cons, List.foldlM_cons]
      exact hstep.bind fun s' t' => ih

/-! ## Changing one component -/

section components

variable {β : Type*} {l : List β} {i : ℕ} {a b : β}

/-- Replacing a component exchanges its contribution to a sum. -/
theorem sum_map_set {M : Type*} [AddCommMonoid M] (f : β → M) (h : l[i]? = some a) :
    ((l.set i b).map f).sum + f a = (l.map f).sum + f b := by
  induction l generalizing i with
  | nil => simp at h
  | cons c l ih =>
      cases i with
      | zero =>
          obtain rfl : c = a := by simpa using h
          simp only [List.set_cons_zero, List.map_cons, List.sum_cons]
          abel
      | succ i =>
          have hi := ih (i := i) (by simpa using h)
          simp only [List.set_cons_succ, List.map_cons, List.sum_cons, add_assoc, hi]

/-- What is known of every component at its index, where replacing one keeps what is known of the
others. -/
theorem forall_getElem?_set {Q Q' : ℕ → β → Prop} (h : ∀ j c, l[j]? = some c → Q j c)
    (hi : i < l.length) (hb : Q' i b) (keep : ∀ j c, j ≠ i → Q j c → Q' j c) (j : ℕ) (c : β)
    (hc : (l.set i b)[j]? = some c) : Q' j c := by
  by_cases hne : i = j
  · subst hne
    rw [List.getElem?_set_self hi] at hc
    obtain rfl := Option.some.inj hc
    exact hb
  · rw [List.getElem?_set_ne hne] at hc
    exact keep j c (Ne.symm hne) (h j c hc)

end components

end ColumnarEngine.Found
