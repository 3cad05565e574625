import Mathlib.Data.List.Basic
import Mathlib.Data.List.Infix

/-!
# Patterns with a wildcard

A pattern is a list of letters in which one letter, `star`, stands for any sequence. The patterns
that test for a sublist of consecutive letters are those with a wildcard at both ends and none
between (`wildMatches_around` and `star_ends_of_wildMatches`).
-/

namespace ColumnarEngine.Found

variable {α : Type*} [DecidableEq α] (star : α)

/-- The whole text matches the pattern. -/
def wildMatches : List α → List α → Bool
  | [], s => s.isEmpty
  | c :: p, s =>
      if c = star then s.tails.any (wildMatches p)
      else
        match s with
        | [] => false
        | d :: t => decide (d = c) && wildMatches p t

/-- The letters of a pattern that stand for themselves. -/
def letters (p : List α) : List α := p.filter (· ≠ star)

variable {star}

/-- A wildcard takes some of the text. -/
theorem wildMatches_star {p s : List α} :
    wildMatches star (star :: p) s = true ↔ ∃ t, t <:+ s ∧ wildMatches star p t = true := by
  simp [wildMatches, List.mem_tails]

/-- A letter takes itself. -/
theorem wildMatches_letter {c : α} (hc : c ≠ star) {p s : List α} :
    wildMatches star (c :: p) s = true ↔ ∃ t, s = c :: t ∧ wildMatches star p t = true := by
  cases s with
  | nil => simp [wildMatches, hc]
  | cons d t => simp [wildMatches, hc, and_assoc]

/-- A text that matches contains the letters of the pattern. -/
theorem letters_sublist {p s : List α} (h : wildMatches star p s = true) :
    (letters star p).Sublist s := by
  induction p generalizing s with
  | nil => exact List.nil_sublist s
  | cons c p ih =>
      by_cases hc : c = star
      · subst hc
        obtain ⟨t, hsuffix, ht⟩ := wildMatches_star.mp h
        rw [letters, List.filter_cons_of_neg (by simp)]
        exact (ih ht).trans hsuffix.sublist
      · obtain ⟨t, rfl, ht⟩ := (wildMatches_letter hc).mp h
        rw [letters, List.filter_cons_of_pos (by simpa using hc)]
        exact (ih ht).cons_cons c

/-- The letters of a pattern match it. -/
theorem wildMatches_letters (p : List α) : wildMatches star p (letters star p) = true := by
  induction p with
  | nil => rfl
  | cons c p ih =>
      by_cases hc : c = star
      · subst hc
        rw [letters, List.filter_cons_of_neg (by simp)]
        exact wildMatches_star.mpr ⟨_, List.suffix_refl _, ih⟩
      · rw [letters, List.filter_cons_of_pos (by simpa using hc)]
        exact (wildMatches_letter hc).mpr ⟨_, rfl, ih⟩

/-- Letters before a last wildcard test for a prefix. -/
theorem wildMatches_before {p s : List α} (hp : star ∉ p) :
    wildMatches star (p ++ [star]) s = true ↔ p <+: s := by
  induction p generalizing s with
  | nil =>
      rw [List.nil_append, wildMatches_star]
      exact iff_of_true ⟨[], List.nil_suffix, rfl⟩ List.nil_prefix
  | cons c p ih =>
      have hc : c ≠ star := fun h => hp (h ▸ List.mem_cons_self)
      have hrest : star ∉ p := fun h => hp (List.mem_cons_of_mem c h)
      rw [List.cons_append, wildMatches_letter hc]
      constructor
      · rintro ⟨t, rfl, ht⟩
        exact List.cons_prefix_cons.mpr ⟨rfl, (ih hrest).mp ht⟩
      · rintro ⟨t, rfl⟩
        exact ⟨p ++ t, rfl, (ih hrest).mpr (List.prefix_append p t)⟩

/-- Letters between two wildcards test for consecutive letters. -/
theorem wildMatches_around {p s : List α} (hp : star ∉ p) :
    wildMatches star (star :: (p ++ [star])) s = true ↔ p <:+: s := by
  rw [wildMatches_star]
  simp only [wildMatches_before hp]
  constructor
  · rintro ⟨t, hsuffix, hprefix⟩
    exact hprefix.isInfix.trans hsuffix.isInfix
  · rintro ⟨u, v, rfl⟩
    exact ⟨p ++ v, ⟨u, by simp⟩, List.prefix_append p v⟩

/-- A pattern whose middle occurs in its letters and matches it has wildcards at its ends only. -/
theorem star_ends_of_wildMatches {a z : α} {p : List α}
    (hletters : p <:+: letters star (a :: (p ++ [z])))
    (hmiddle : wildMatches star (a :: (p ++ [z])) p = true) :
    a = star ∧ z = star ∧ star ∉ p := by
  have hfree : star ∉ p := fun h => by
    have hmem := hletters.subset h
    simp [letters] at hmem
  have hp : letters star p = p := List.filter_eq_self.mpr fun c hc => by
    simpa using fun heq : c = star => hfree (heq ▸ hc)
  have hlength := (letters_sublist hmiddle).length_le
  have hsplit : letters star (a :: (p ++ [z])) =
      letters star [a] ++ (letters star p ++ letters star [z]) := by
    simp only [letters, ← List.filter_append, List.singleton_append]
  rw [hsplit, hp, List.length_append, List.length_append] at hlength
  have hstar : ∀ c : α, (letters star [c]).length = 0 → c = star := by
    intro c hc
    by_contra hne
    simp [letters, hne] at hc
  exact ⟨hstar a (by omega), hstar z (by omega), hfree⟩

end ColumnarEngine.Found
