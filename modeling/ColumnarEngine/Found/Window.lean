import ColumnarEngine.Found.TwosComplement

/-!
# Discarding rows that cannot belong to a sorted window

A collection `X` is searched for the first `k` elements of a sorted arrangement. `Retains r k X Y`
says that `Y` is what is left of `X` after discarding only elements that at least `k` elements of
`Y` may precede. The relation is reflexive, transitive and compatible with concatenation, so it
describes any interleaving of collecting, discarding and merging. `Retains.exists_sorted` is the
payoff: the first `k` elements of a sorted arrangement of `Y` are the first `k` elements of some
sorted arrangement of `X`.

The order is a total preorder `r` (`r a b` reads "`a` may come before `b`"), as the negation of a
strict weak order is.
-/

namespace ColumnarEngine.Found

variable {α : Type*} {r : α → α → Prop} [DecidableRel r]

/-- `Y` is `X` without elements that at least `k` elements of `Y` may precede. -/
def Retains (r : α → α → Prop) [DecidableRel r] (k : ℕ) (X Y : List α) : Prop :=
  ∃ D : List α, X.Perm (Y ++ D) ∧ ∀ d ∈ D, k ≤ Y.countP fun y => r y d

theorem Retains.of_perm {k : ℕ} {X Y : List α} (h : X.Perm Y) : Retains r k X Y :=
  ⟨[], by simpa using h, by simp⟩

theorem Retains.refl (k : ℕ) (X : List α) : Retains r k X X := .of_perm (.refl X)

theorem Retains.length_le {k : ℕ} {X Y : List α} (h : Retains r k X Y) : Y.length ≤ X.length := by
  obtain ⟨D, hXY, -⟩ := h
  rw [hXY.length_eq, List.length_append]
  exact Nat.le_add_right _ _

/-- Discarding in two rounds is discarding. An element discarded in the first round was preceded
by `k` elements; if one of these was discarded in the second round, the `k` elements preceding
*it* take their place. -/
theorem Retains.trans [IsTrans α r] {k : ℕ} {X Y Z : List α} (h₁ : Retains r k X Y)
    (h₂ : Retains r k Y Z) : Retains r k X Z := by
  obtain ⟨D, hXY, hD⟩ := h₁
  obtain ⟨E, hYZ, hE⟩ := h₂
  refine ⟨E ++ D, ?_, ?_⟩
  · exact hXY.trans ((hYZ.append_right D).trans (by simp))
  · intro d hd
    rcases List.mem_append.mp hd with hd | hd
    · exact hE d hd
    by_cases hex : ∃ e ∈ E, r e d
    · obtain ⟨e, he, hed⟩ := hex
      refine (hE e he).trans (List.countP_mono_left fun z _ hz => ?_)
      simp only [decide_eq_true_eq] at hz ⊢
      exact Trans.trans hz hed
    · push Not at hex
      have hcount := hD d hd
      have hEzero : E.countP (fun y => decide (r y d)) = 0 := by
        rw [List.countP_eq_zero]
        simpa using hex
      rw [hYZ.countP_eq, List.countP_append, hEzero] at hcount
      simpa using hcount

/-- Discarding commutes with collecting more elements. -/
theorem Retains.append {k : ℕ} {X Y X' Y' : List α} (h : Retains r k X Y)
    (h' : Retains r k X' Y') : Retains r k (X ++ X') (Y ++ Y') := by
  obtain ⟨D, hXY, hD⟩ := h
  obtain ⟨D', hXY', hD'⟩ := h'
  refine ⟨D ++ D', ?_, ?_⟩
  · apply (hXY.append hXY').trans
    rw [List.append_assoc, List.append_assoc, List.perm_append_left_iff, ← List.append_assoc,
      ← List.append_assoc]
    exact List.perm_append_comm.append_right D'
  · intro d hd
    rw [List.countP_append]
    rcases List.mem_append.mp hd with hd | hd
    · exact (hD d hd).trans (Nat.le_add_right _ _)
    · exact (hD' d hd).trans (Nat.le_add_left _ _)

/-- Keeping a prefix that precedes the rest retains the window of the prefix's length. -/
theorem Retains.of_kept {k : ℕ} {X kept rest : List α} (hk : kept.length = k)
    (hperm : X.Perm (kept ++ rest)) (hle : ∀ a ∈ kept, ∀ b ∈ rest, r a b) : Retains r k X kept := by
  refine ⟨rest, hperm, ?_⟩
  intro d hd
  rw [List.countP_eq_length.mpr, hk]
  intro a ha
  simpa using hle a ha d hd

/-- A smaller window is retained as well. -/
theorem Retains.mono {k k' : ℕ} {X Y : List α} (hk : k' ≤ k) (h : Retains r k X Y) :
    Retains r k' X Y := by
  obtain ⟨D, hXY, hD⟩ := h
  exact ⟨D, hXY, fun d hd => hk.trans (hD d hd)⟩

/-- In a sorted list whatever is preceded by `k` elements is preceded by the first `k`. -/
theorem take_precedes_of_count [IsTrans α r] [Std.Total r] {k : ℕ} {S : List α}
    (hS : S.Pairwise r) {d : α} (hd : k ≤ S.countP fun y => r y d) :
    ∀ a ∈ S.take k, r a d := by
  induction S generalizing k with
  | nil => simp
  | cons s S ih =>
      rw [List.pairwise_cons] at hS
      cases k with
      | zero => simp
      | succ k =>
          have hs : r s d := by
            by_contra hs
            have hzero : S.countP (fun y => decide (r y d)) = 0 := by
              rw [List.countP_eq_zero]
              intro y hy hyd
              exact hs (Trans.trans (hS.1 y hy) (by simpa using hyd))
            rw [List.countP_cons, hzero] at hd
            simp [hs] at hd
          rw [List.countP_cons] at hd
          have hcount : k ≤ S.countP fun y => decide (r y d) := by
            simp only [hs, decide_true, if_true] at hd
            omega
          intro a ha
          rw [List.take_succ_cons, List.mem_cons] at ha
          rcases ha with rfl | ha
          · exact hs
          · exact ih hS.2 hcount a ha

/-- **The window survives the discarding**: the first `k` elements of a sorted arrangement of
what is retained are the first `k` elements of a sorted arrangement of everything. -/
theorem Retains.exists_sorted [IsTrans α r] [Std.Total r] {k : ℕ} {X Y S : List α}
    (h : Retains r k X Y) (hperm : S.Perm Y) (hS : S.Pairwise r) :
    ∃ L : List α, L.Perm X ∧ L.Pairwise r ∧ L.take k = S.take k := by
  obtain ⟨D, hXY, hD⟩ := h
  rcases D.eq_nil_or_concat with rfl | ⟨D', d₀, rfl⟩
  · exact ⟨S, hperm.trans (by simpa using hXY.symm), hS, rfl⟩
  set D := D'.concat d₀
  have hlen : k ≤ S.length := by
    have hd₀ := hD d₀ (by simp [D])
    exact hperm.length_eq ▸ hd₀.trans List.countP_le_length
  have hbefore : ∀ a ∈ S.take k, ∀ d ∈ D, r a d := by
    intro a ha d hd
    exact take_precedes_of_count hS (by rw [hperm.countP_eq]; exact hD d hd) a ha
  let T := (S.drop k ++ D).insertionSort r
  have hT : T.Perm (S.drop k ++ D) := List.perm_insertionSort _ _
  refine ⟨S.take k ++ T, ?_, ?_, ?_⟩
  · apply (hT.append_left _).trans
    rw [← List.append_assoc, List.take_append_drop]
    exact (hperm.append_right D).trans hXY.symm
  · rw [List.pairwise_append]
    refine ⟨hS.sublist (List.take_sublist _ _), List.pairwise_insertionSort r _, ?_⟩
    intro a ha b hb
    rcases List.mem_append.mp (hT.mem_iff.mp hb) with hb | hb
    · rw [← List.take_append_drop k S, List.pairwise_append] at hS
      exact hS.2.2 a ha b hb
    · exact hbefore a ha b hb
  · rw [List.take_append_of_le_length (by simp [hlen]), List.take_of_length_le (by simp)]

end ColumnarEngine.Found
