import Mathlib

/-!
# Loops of partial steps

Loops over a list whose body may be undefined. Each rule says that the loop is defined when every
step is, and carries a relation or an invariant along. A search through a list by a key is
undefined where no element has it.
-/

namespace ColumnarEngine.Found

variable {α β σ : Type*}

/-- A loop that maps is defined when its body is. -/
theorem exists_mapM {f : α → Option β} {Q : α → β → Prop} {l : List α}
    (h : ∀ a ∈ l, ∃ b, f a = some b ∧ Q a b) :
    ∃ bs, l.mapM f = some bs ∧ List.Forall₂ Q l bs := by
  induction l with
  | nil => exact ⟨[], rfl, .nil⟩
  | cons a l ih =>
      obtain ⟨b, hb, hQ⟩ := h a List.mem_cons_self
      obtain ⟨bs, hbs, hall⟩ := ih fun a' ha' => h a' (List.mem_cons_of_mem a ha')
      exact ⟨b :: bs, by simp [List.mapM_cons, hb, hbs], .cons hQ hall⟩

/-- Lists related by equality of two projections have the same projections. -/
theorem map_eq_map_of_forall₂ {γ : Type*} {g : α → γ} {g' : β → γ} {l : List α} {l' : List β}
    (h : List.Forall₂ (fun a b => g' b = g a) l l') : l'.map g' = l.map g := by
  induction h with
  | nil => rfl
  | cons hab _ ih => rw [List.map_cons, List.map_cons, hab, ih]

/-- Every element of the second list is related to one of the first. -/
theorem exists_of_forall₂_right {R : α → β → Prop} {l : List α} {l' : List β}
    (h : List.Forall₂ R l l') {b : β} (hb : b ∈ l') : ∃ a ∈ l, R a b := by
  induction h with
  | nil => simp at hb
  | cons hab _ ih =>
      rcases List.mem_cons.mp hb with rfl | hb
      · exact ⟨_, List.mem_cons_self, hab⟩
      · obtain ⟨a, ha, hR⟩ := ih hb
        exact ⟨a, List.mem_cons_of_mem _ ha, hR⟩

/-- A loop that maps every element to one with the same projection, with what is known of the
results. -/
theorem exists_mapM_keep {γ : Type*} {f : α → Option β} {g : α → γ} {k : β → γ} {Q : β → Prop}
    {l : List α} (h : ∀ a ∈ l, ∃ b, f a = some b ∧ k b = g a ∧ Q b) :
    ∃ bs, l.mapM f = some bs ∧ bs.map k = l.map g ∧ ∀ b ∈ bs, Q b := by
  obtain ⟨bs, hbs, hall⟩ := exists_mapM h
  refine ⟨bs, hbs, map_eq_map_of_forall₂ (hall.imp fun _ _ hab => hab.1), ?_⟩
  intro b hb
  obtain ⟨a, -, -, hQ⟩ := exists_of_forall₂_right hall hb
  exact hQ

/-- Related lists are related at every index. -/
theorem getElem?_of_forall₂ {R : α → β → Prop} {l : List α} {l' : List β}
    (h : List.Forall₂ R l l') {k : ℕ} {a : α} (ha : l[k]? = some a) :
    ∃ b, l'[k]? = some b ∧ R a b := by
  induction h generalizing k with
  | nil => simp at ha
  | cons hab _ ih =>
      cases k with
      | zero =>
          obtain rfl := Option.some.inj ha
          exact ⟨_, rfl, hab⟩
      | succ k => exact ih ha

/-- Rows of one width behind one another. -/
theorem getElem?_flatten_eq {rows : List (List α)} {width : ℕ}
    (hwidth : ∀ row ∈ rows, row.length = width) {j : ℕ} (hj : j < width) (i : ℕ) :
    rows.flatten[i * width + j]? = (rows.getD i [])[j]? := by
  induction rows generalizing i with
  | nil => simp
  | cons row rows ih =>
      have hrow := hwidth row List.mem_cons_self
      cases i with
      | zero =>
          rw [Nat.zero_mul, Nat.zero_add, List.flatten_cons,
            List.getElem?_append_left (hrow.symm ▸ hj)]
          rfl
      | succ i =>
          have hindex : (i + 1) * width + j - row.length = i * width + j := by
            rw [hrow, Nat.succ_mul]
            omega
          have hle : row.length ≤ (i + 1) * width + j := by
            rw [hrow, Nat.succ_mul]
            omega
          rw [List.flatten_cons, List.getElem?_append_right hle, hindex,
            ih fun row' hrow' => hwidth row' (List.mem_cons_of_mem row hrow')]
          rfl

/-- The elements at the indices `0 ..` are the list. -/
theorem map_getD_range (l : List α) (d : α) :
    (List.range l.length).map (fun i => l.getD i d) = l := by
  apply List.ext_getElem (by simp)
  intro i hi hi'
  simp [List.getElem?_eq_getElem hi']

/-- Reading a list index by index gives the list. -/
theorem mapM_getElem?_range (l : List α) :
    (List.range l.length).mapM (fun i => l[i]?) = some l := by
  obtain ⟨l', hl', hall⟩ := exists_mapM (f := fun i => l[i]?) (Q := fun i a => l[i]? = some a)
    (l := List.range l.length) fun i hi => by
      have hlt := List.mem_range.mp hi
      exact ⟨l[i], List.getElem?_eq_getElem hlt, List.getElem?_eq_getElem hlt⟩
  have hlen : l.length = l'.length := by simpa using hall.length_eq
  rw [hl']
  refine congrArg some (List.ext_getElem? fun k => ?_)
  by_cases hk : k < l.length
  · obtain ⟨a, ha, heq⟩ := getElem?_of_forall₂ hall (List.getElem?_range hk)
    rw [ha, heq]
  · rw [List.getElem?_eq_none (by omega), List.getElem?_eq_none (by omega)]

/-- A loop that maps with a defined body is a map. -/
theorem mapM_eq_map {f : α → Option β} {g : α → β} {l : List α} (h : ∀ a ∈ l, f a = some (g a)) :
    l.mapM f = some (l.map g) := by
  induction l with
  | nil => rfl
  | cons a l ih =>
      rw [List.mapM_cons, h a List.mem_cons_self,
        ih fun a' ha' => h a' (List.mem_cons_of_mem a ha')]
      rfl

/-- A reading loop that is defined reads what there is. -/
theorem mapM_eq_filterMap {f g : α → Option β} {l : List α}
    (h : ∀ a ∈ l, ∃ b, f a = some b ∧ g a = some b) : l.mapM f = some (l.filterMap g) := by
  induction l with
  | nil => rfl
  | cons a l ih =>
      obtain ⟨b, hf, hg⟩ := h a List.mem_cons_self
      rw [List.mapM_cons, ih fun a' ha' => h a' (List.mem_cons_of_mem a ha'), List.filterMap_cons,
        hf, hg]
      rfl

/-- A loop that maps is defined only if its body is at each element. -/
theorem exists_of_mapM {f : α → Option β} {l : List α} {bs : List β} (h : l.mapM f = some bs) {a : α}
    (ha : a ∈ l) : ∃ b, f a = some b := by
  induction l generalizing bs with
  | nil => cases ha
  | cons a' l ih =>
      simp only [List.mapM_cons, Option.bind_eq_bind, Option.bind_eq_some_iff] at h
      obtain ⟨b, hb, bs', hbs', -⟩ := h
      rcases List.mem_cons.mp ha with rfl | ha
      · exact ⟨b, hb⟩
      · exact ih hbs' ha

/-- Reading at every index of a list gives what is made of its elements. -/
theorem filterMap_range {f : ℕ → Option β} {g : α → β} {l : List α}
    (h : ∀ k a, l[k]? = some a → f k = some (g a)) :
    (List.range l.length).filterMap f = l.map g := by
  induction l using List.reverseRecOn with
  | nil => rfl
  | append_singleton l a ih =>
      have hlast := h l.length a List.getElem?_concat_length
      have hrest := ih fun k b hk =>
        h k b (by rwa [List.getElem?_append_left (List.getElem?_eq_some_iff.mp hk).1])
      rw [List.length_append, List.length_singleton, List.range_succ, List.filterMap_append, hrest,
        List.map_append, List.filterMap_cons, hlast]
      rfl

/-- An accumulating loop is defined when every step from a state of the invariant is; `I` relates
the elements processed so far to the state. -/
theorem exists_foldlM {f : σ → α → Option σ} {I : List α → σ → Prop} {l : List α} {s : σ}
    (start : I [] s)
    (step : ∀ done a rest, l = done ++ a :: rest → ∀ s, I done s →
      ∃ s', f s a = some s' ∧ I (done ++ [a]) s') :
    ∃ s', l.foldlM f s = some s' ∧ I l s' := by
  suffices h : ∀ (rest done : List α) (s : σ), l = done ++ rest → I done s →
      ∃ s', rest.foldlM f s = some s' ∧ I l s' by
    exact h l [] s rfl start
  intro rest
  induction rest with
  | nil =>
      intro done s hl hs
      exact ⟨s, rfl, by simpa [hl] using hs⟩
  | cons a rest ih =>
      intro done s hl hs
      obtain ⟨s₁, hs₁, hI₁⟩ := step done a rest hl s hs
      obtain ⟨s', hs', hI'⟩ := ih (done ++ [a]) s₁ (by simpa using hl) hI₁
      exact ⟨s', by simp [List.foldlM_cons, hs₁, hs'], hI'⟩

/-- Where a list numbered from `n` on is split, the element stands at its number. -/
theorem zipIdx_drop_split {l : List α} {n : ℕ} {done rest : List (α × ℕ)} {e : α × ℕ}
    (hl : l.zipIdx.drop n = done ++ e :: rest) :
    l[n + done.length]? = some e.1 ∧ e.2 = n + done.length := by
  have hget : (l.zipIdx.drop n)[done.length]? = some e := by
    rw [hl, List.getElem?_append_right le_rfl, Nat.sub_self]
    rfl
  rw [List.getElem?_drop, List.getElem?_zipIdx, Option.map_eq_some_iff] at hget
  obtain ⟨a, ha, rfl⟩ := hget
  exact ⟨ha, Nat.zero_add _⟩

/-- A loop over a numbered list from the element number `n` on, with an invariant of the number that
comes next. -/
theorem exists_foldlM_zipIdx {f : σ → α × ℕ → Option σ} {I : ℕ → σ → Prop} {l : List α} {n : ℕ}
    {s : σ} (hn : n ≤ l.length) (start : I n s)
    (step : ∀ i, (hi : i < l.length) → n ≤ i → ∀ s, I i s →
      ∃ s', f s (l[i], i) = some s' ∧ I (i + 1) s') :
    ∃ s', (l.zipIdx.drop n).foldlM f s = some s' ∧ I l.length s' := by
  have hlength : (l.zipIdx.drop n).length = l.length - n := by
    rw [List.length_drop, List.length_zipIdx]
  have hloop : ∃ s', (l.zipIdx.drop n).foldlM f s = some s' ∧
      I (n + (l.zipIdx.drop n).length) s' := by
    apply exists_foldlM (I := fun done s => I (n + done.length) s) start
    intro done e rest hl s hs
    obtain ⟨a, k⟩ := e
    obtain ⟨ha, rfl⟩ := zipIdx_drop_split hl
    obtain ⟨hlt, rfl⟩ := List.getElem?_eq_some_iff.mp ha
    rw [List.length_append, List.length_singleton, ← Nat.add_assoc]
    exact step _ hlt (Nat.le_add_right _ _) s hs
  rwa [hlength, Nat.add_sub_cancel' hn] at hloop

/-! ## Computations that may throw -/

/-- A sequence of two computations returns what the second returns on the value of the first. -/
theorem except_bind_eq_ok {ε : Type*} {γ δ : Type} {x : Except ε γ} {f : γ → Except ε δ} {b : δ} :
    x >>= f = .ok b ↔ ∃ a, x = .ok a ∧ f a = .ok b := by
  cases x <;> simp [bind, Except.bind]

/-- What a mapping loop returned was returned by its body, element by element. -/
theorem forall₂_of_mapM_ok {ε : Type*} {γ δ : Type} {f : γ → Except ε δ} {l : List γ} {bs : List δ}
    (h : l.mapM f = .ok bs) : List.Forall₂ (fun a b => f a = .ok b) l bs := by
  induction l generalizing bs with
  | nil =>
      obtain rfl := Except.ok.inj h
      exact .nil
  | cons a l ih =>
      rw [List.mapM_cons, except_bind_eq_ok] at h
      obtain ⟨b, hb, h⟩ := h
      rw [except_bind_eq_ok] at h
      obtain ⟨bs', hbs', h⟩ := h
      obtain rfl := Except.ok.inj h
      exact .cons hb (ih hbs')

/-- A mapping loop returns what its body returns, element by element. -/
theorem mapM_ok_of_forall₂ {ε : Type*} {γ δ : Type} {f : γ → Except ε δ} {l : List γ} {bs : List δ}
    (h : List.Forall₂ (fun a b => f a = .ok b) l bs) : l.mapM f = .ok bs := by
  induction h with
  | nil => rfl
  | cons hab _ ih =>
      rw [List.mapM_cons, hab, ih]
      rfl

/-- Mapping loops with the same calls. -/
theorem except_mapM_congr {ε : Type*} {γ δ : Type} {f g : γ → Except ε δ} {l : List γ}
    (h : ∀ a ∈ l, f a = g a) : l.mapM f = l.mapM g := by
  induction l with
  | nil => rfl
  | cons a l ih =>
      rw [List.mapM_cons, List.mapM_cons, h a List.mem_cons_self,
        ih fun b hb => h b (List.mem_cons_of_mem a hb)]

/-! ## Searches by a key -/

section Search

variable {γ : Type*} [DecidableEq γ] {key : α → γ} {c : γ} {l : List α} {i : ℕ}

/-- A search for the position of a key, in the list of the keys. -/
theorem findIdx?_key_eq_some [BEq γ] [LawfulBEq γ] :
    l.findIdx? (fun a => decide (key a = c)) = some i ↔
      i < (l.map key).length ∧ (l.map key).idxOf c = i := by
  have hmap : (l.map key).findIdx? (fun k => decide (k = c)) =
      l.findIdx? fun a => decide (key a = c) := List.findIdx?_map
  rw [← hmap, List.findIdx?_eq_some_iff_findIdx_eq]
  simp only [List.idxOf, beq_eq_decide]

/-- The position found is that of an element with the key, the one that a search for the element
finds. -/
theorem exists_of_findIdx?_key (h : l.findIdx? (fun a => decide (key a = c)) = some i) :
    ∃ a, l[i]? = some a ∧ key a = c ∧ l.find? (fun a => decide (key a = c)) = some a := by
  obtain ⟨hlt, hkey, -⟩ := List.findIdx?_eq_some_iff_getElem.mp h
  have hget : l[i]? = some l[i] := List.getElem?_eq_getElem hlt
  refine ⟨l[i], hget, of_decide_eq_true hkey, ?_⟩
  rw [List.find?_eq_bind_findIdx?_getElem?, h]
  exact hget

end Search

end ColumnarEngine.Found
