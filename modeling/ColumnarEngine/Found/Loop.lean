import Mathlib

/-!
# Loops that are left from their body

A `while (true)` loop is its body: from a state, the body takes the loop to another turn, leaves it
with a result, or is undefined. `turns` is a bounded number of turns. If a function agrees with
every turn (`TurnAgrees`: it is constant along the loop, gives the result where the loop is left,
and a measure decreases), the loop is left within as many turns as the measure says
(`turns_ne_again`) and the function computes its result (`turns_eq_of_agrees`).
-/

namespace ColumnarEngine.Found

/-- What one turn of a loop leads to. -/
inductive Turn (σ ρ : Type*)
  | again (s : σ)
  | leave (r : ρ)
  deriving DecidableEq

variable {σ ρ ρ' : Type*}

namespace Turn

/-- The result, if the loop is left. -/
def result : Turn σ ρ → Option ρ
  | again _ => none
  | leave r => some r

@[simp] theorem result_again (s : σ) : (again s : Turn σ ρ).result = none := rfl

@[simp] theorem result_leave (r : ρ) : (leave r : Turn σ ρ).result = some r := rfl

/-- Goes on with `f` if the loop is not left. -/
def andThen (f : σ → Option (Turn σ ρ)) : Turn σ ρ → Option (Turn σ ρ)
  | again s => f s
  | leave r => some (leave r)

@[simp] theorem andThen_again (f : σ → Option (Turn σ ρ)) (s : σ) : (again s).andThen f = f s := rfl

@[simp] theorem andThen_leave (f : σ → Option (Turn σ ρ)) (r : ρ) :
    (leave r).andThen f = some (leave r) := rfl

end Turn

/-- At most `n` turns. -/
def turns (body : σ → Option (Turn σ ρ)) : ℕ → σ → Option (Turn σ ρ)
  | 0, s => some (.again s)
  | n + 1, s => (body s).bind (Turn.andThen (turns body n))

/-- The turns after some that did not leave the loop. -/
theorem turns_add {body : σ → Option (Turn σ ρ)} {n : ℕ} {s s' : σ}
    (h : turns body n s = some (.again s')) (k : ℕ) : turns body (n + k) s = turns body k s' := by
  induction n generalizing s with
  | zero =>
      obtain rfl : s = s' := by simpa [turns] using h
      rw [Nat.zero_add]
  | succ n ih =>
      rw [turns] at h
      rw [Nat.add_right_comm, turns]
      cases hbody : body s with
      | none => rw [hbody] at h; exact absurd h (by simp)
      | some t =>
          rw [hbody] at h
          cases t with
          | again s₁ => exact ih h
          | leave r => exact absurd h (by simp)

/-- The loop is left in the turn after some that did not leave it. -/
theorem turns_of_leave {body : σ → Option (Turn σ ρ)} {n m : ℕ} {s s' : σ} {r : ρ}
    (h : turns body n s = some (.again s')) (hleave : body s' = some (.leave r)) (hm : n < m) :
    turns body m s = some (.leave r) := by
  obtain ⟨k, rfl⟩ := Nat.exists_eq_add_of_lt hm
  rw [Nat.add_assoc, turns_add h, turns, hleave]
  rfl

/-- The function `spec` agrees with a turn from `s`, for a loop with an invariant and a measure, and
with what `see` shows of a result. -/
def TurnAgrees (I : σ → Prop) (size : σ → ℕ) (see : ρ → ρ') (spec : σ → Option ρ') (s : σ) :
    Option (Turn σ ρ) → Prop
  | none => spec s = none
  | some (.again s') => I s' ∧ size s' < size s ∧ spec s = spec s'
  | some (.leave r) => spec s = some (see r)

section agrees

variable {body : σ → Option (Turn σ ρ)} {I : σ → Prop} {size : σ → ℕ} {see : ρ → ρ'}
  {spec : σ → Option ρ'}

/-- A turn that leaves the loop, if it is defined. -/
theorem turnAgrees_leave {s : σ} {r : Option ρ} (h : spec s = r.map see) :
    TurnAgrees I size see spec s (r.map .leave) := by
  cases r with
  | none => exact h
  | some r => exact h

/-- **Termination**: within as many turns as its measure says, the loop is left or undefined. -/
theorem turns_ne_again (h : ∀ s, I s → TurnAgrees I size see spec s (body s)) {n : ℕ} {s : σ}
    (hs : I s) (hn : size s < n) (s' : σ) : turns body n s ≠ some (.again s') := by
  induction n generalizing s with
  | zero => omega
  | succ n ih =>
      have hturn := h s hs
      rw [turns]
      cases hbody : body s with
      | none => simp
      | some t =>
          cases t with
          | again s₁ =>
              rw [hbody] at hturn
              obtain ⟨hs₁, hlt, -⟩ := hturn
              exact ih hs₁ (by omega)
          | leave r => simp

/-- **Result**: what is seen of the result of the loop is computed by the function. -/
theorem turns_eq_of_agrees (h : ∀ s, I s → TurnAgrees I size see spec s (body s)) {n : ℕ} {s : σ}
    (hs : I s) (hn : size s < n) :
    ((turns body n s).bind Turn.result).map see = spec s := by
  induction n generalizing s with
  | zero => omega
  | succ n ih =>
      have hturn := h s hs
      rw [turns]
      cases hbody : body s with
      | none =>
          rw [hbody] at hturn
          exact hturn.symm
      | some t =>
          cases t with
          | again s₁ =>
              rw [hbody] at hturn
              obtain ⟨hs₁, hlt, hspec⟩ := hturn
              rw [hspec]
              exact ih hs₁ (by omega)
          | leave r =>
              rw [hbody] at hturn
              exact hturn.symm

end agrees

end ColumnarEngine.Found
