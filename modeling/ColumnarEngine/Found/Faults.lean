import Mathlib

/-!
# Which fault a computation ends with

A computation that may fail looks things up on its way: each lookup is a check that is passed or
fails. `Guarded` says that a computation succeeds if its checks are passed, and ends with the fault
of the first of them that fails; its rules go along sequences and loops. What is proved of the list
of all checks is then proved of the computation: when it succeeds (`checks_eq_ok_iff`) and with
which fault it ends (`checks_eq_error_iff`).
-/

namespace ColumnarEngine.Found

variable {ε α β σ τ : Type} {check : α → Except ε Unit}

/-- The outcome of checks, one after another. -/
def checks (check : α → Except ε Unit) : List α → Except ε Unit
  | [] => .ok ()
  | a :: l => (check a).bind fun _ => checks check l

theorem checks_append (l l' : List α) :
    checks check (l ++ l') = (checks check l).bind fun _ => checks check l' := by
  induction l with
  | nil => rfl
  | cons a l ih =>
      rw [List.cons_append, checks, checks, ih]
      cases check a <;> rfl

theorem checks_map (f : β → α) (l : List β) :
    checks check (l.map f) = checks (fun b => check (f b)) l := by
  induction l with
  | nil => rfl
  | cons b l ih => rw [List.map_cons, checks, checks, ih]

/-- Checks that are lists of checks themselves. -/
theorem checks_flatMap (f : β → List α) (l : List β) :
    checks check (l.flatMap f) = checks (fun b => checks check (f b)) l := by
  induction l with
  | nil => rfl
  | cons b l ih => rw [List.flatMap_cons, checks_append, ih, checks]

/-- All checks are passed. -/
theorem checks_eq_ok_iff {l : List α} : checks check l = .ok () ↔ ∀ a ∈ l, check a = .ok () := by
  induction l with
  | nil => simp [checks]
  | cons a l ih =>
      rw [checks, List.forall_mem_cons, ← ih]
      cases check a with
      | error e => simp [Except.bind]
      | ok u => simp [Except.bind]

/-- The first check that fails. -/
theorem checks_eq_error_iff {l : List α} {e : ε} :
    checks check l = .error e ↔ ∃ before a after, l = before ++ a :: after ∧
      (∀ b ∈ before, check b = .ok ()) ∧ check a = .error e := by
  constructor
  · intro h
    induction l with
    | nil => exact absurd h (by simp [checks])
    | cons a l ih =>
        cases hcheck : check a with
        | error e' =>
            rw [checks, hcheck] at h
            obtain rfl := Except.error.inj h
            exact ⟨[], a, l, rfl, by simp, hcheck⟩
        | ok u =>
            rw [checks, hcheck] at h
            obtain ⟨before, b, after, rfl, hbefore, hb⟩ := ih h
            exact ⟨a :: before, b, after, rfl, List.forall_mem_cons.mpr ⟨hcheck, hbefore⟩, hb⟩
  · rintro ⟨before, a, after, rfl, hbefore, ha⟩
    rw [checks_append, checks_eq_ok_iff.mpr hbefore, checks]
    simp only [Except.bind, ha]

/-- The computation succeeds, with a result that has the property, if its checks are passed, and
ends with their fault otherwise. -/
inductive Guarded (Q : σ → Prop) : Except ε Unit → Except ε σ → Prop
  | ok {s : σ} (h : Q s) : Guarded Q (.ok ()) (.ok s)
  | error (e : ε) : Guarded Q (.error e) (.error e)

namespace Guarded

variable {Q : σ → Prop} {R : τ → Prop} {o o' : Except ε Unit} {x : Except ε σ}

theorem mono {Q' : σ → Prop} (h : Guarded Q o x) (hQ : ∀ s, Q s → Q' s) : Guarded Q' o x := by
  cases h with
  | ok h => exact .ok (hQ _ h)
  | error e => exact .error e

theorem map {f : σ → τ} (h : Guarded Q o x) (hf : ∀ s, Q s → R (f s)) : Guarded R o (x.map f) := by
  cases h with
  | ok h => exact .ok (hf _ h)
  | error e => exact .error e

theorem bind {k : σ → Except ε τ} (h : Guarded Q o x) (hk : ∀ s, Q s → Guarded R o' (k s)) :
    Guarded R (o.bind fun _ => o') (x.bind k) := by
  cases h with
  | ok h => exact hk _ h
  | error e => exact .error e

/-- What follows checks nothing. -/
theorem bind_ok {k : σ → Except ε τ} (h : Guarded Q o x)
    (hk : ∀ s, Q s → ∃ t, k s = .ok t ∧ R t) : Guarded R o (x.bind k) := by
  cases h with
  | ok h =>
      obtain ⟨t, ht, hR⟩ := hk _ h
      simp only [Except.bind, ht]
      exact .ok hR
  | error e => exact .error e

/-- A loop, with an invariant on the elements that it has been through. -/
theorem foldlM {f : σ → α → Except ε σ} {I : List α → σ → Prop} {l : List α} {s : σ}
    (start : I [] s)
    (step : ∀ done a rest, l = done ++ a :: rest → ∀ s, I done s →
      Guarded (I (done ++ [a])) (check a) (f s a)) :
    Guarded (I l) (checks check l) (l.foldlM f s) := by
  suffices h : ∀ (rest done : List α) (s : σ), l = done ++ rest → I done s →
      Guarded (I l) (checks check rest) (rest.foldlM f s) by
    exact h l [] s rfl start
  intro rest
  induction rest with
  | nil =>
      intro done s hl hs
      rw [List.append_nil] at hl
      exact .ok (hl ▸ hs)
  | cons a rest ih =>
      intro done s hl hs
      exact (step done a rest hl s hs).bind fun s' => ih (done ++ [a]) s' (by simpa using hl)

/-- The computation ends with the fault of its checks. -/
theorem eq_error_iff (h : Guarded Q o x) {e : ε} : x = .error e ↔ o = .error e := by
  cases h with
  | ok h => simp
  | error e' => simp

/-- The computation succeeds where its checks are passed. -/
theorem exists_ok (h : Guarded Q o x) (ho : o = .ok ()) : ∃ s, x = .ok s ∧ Q s := by
  subst ho
  cases h with
  | ok h => exact ⟨_, rfl, h⟩

/-- Where the computation succeeds its checks are passed. -/
theorem of_ok (h : Guarded Q o x) {s : σ} (hx : x = .ok s) : o = .ok () ∧ Q s := by
  subst hx
  cases h with
  | ok h => exact ⟨rfl, h⟩

end Guarded

end ColumnarEngine.Found
