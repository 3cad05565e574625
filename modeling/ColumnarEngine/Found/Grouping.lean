import ColumnarEngine.Found.TwosComplement

/-!
# Accumulators and grouping

An `Accumulator` computes something of a collection of values incrementally: it starts somewhere,
takes one value at a time, and merges two partial results. `Summarizes` says that a state stands for
a *multiset* of values, so neither the order of the values nor the way they were split between
partial results matters.

The second half is about keyed collections. `Covers key ks rs` says that the list `ks` has each key
of `rs` once; `Tracks` says that a list of states runs parallel to `ks`, each summarising the values
of the elements with its key. The three rules `Tracks.extend`, `Tracks.step` and `Tracks.merge` are
what a grouping loop does: open a group, add an element, take over a group of another table.
-/

namespace ColumnarEngine.Found

variable {V S : Type*}

/-! ## Accumulators -/

/-- An incremental computation with partial results of type `S` over values of type `V`. -/
structure Accumulator (V S : Type*) where
  /-- The state of the empty collection. -/
  init : S
  /-- One more value. -/
  step : S → V → S
  /-- The second partial result taken into the first. -/
  merge : S → S → S

/-- The states of `acc` stand for multisets of valid values in the sense of `R`. -/
structure Accumulator.Summarizes (acc : Accumulator V S) (valid : V → Prop)
    (R : S → Multiset V → Prop) : Prop where
  init : R acc.init 0
  step : ∀ {s m v}, valid v → R s m → R (acc.step s v) (v ::ₘ m)
  merge : ∀ {s s' m m'}, R s m → R s' m' → R (acc.merge s s') (m + m')

namespace Accumulator.Summarizes

variable {acc : Accumulator V S} {valid : V → Prop} {R : S → Multiset V → Prop}

/-- A loop over a list adds the list. -/
theorem foldl_step (h : acc.Summarizes valid R) {s : S} {m : Multiset V} (hs : R s m) :
    ∀ {vs : List V}, (∀ v ∈ vs, valid v) → R (vs.foldl acc.step s) (m + vs) := by
  intro vs hvs
  induction vs generalizing s m with
  | nil => simpa using hs
  | cons v vs ih =>
      have hv := h.step (hvs v List.mem_cons_self) hs
      have := ih hv fun u hu => hvs u (List.mem_cons_of_mem _ hu)
      rw [← Multiset.cons_coe, Multiset.add_cons, ← Multiset.cons_add]
      exact this

/-- Merging several partial results adds what they stand for. -/
theorem foldl_merge (h : acc.Summarizes valid R) {ss : List S} {ms : List (Multiset V)}
    (hss : List.Forall₂ R ss ms) :
    ∀ {s : S} {m : Multiset V}, R s m → R (ss.foldl acc.merge s) (m + ms.sum) := by
  induction hss with
  | nil => intro s m hs; simpa using hs
  | cons hs' _ ih =>
      intro s m hs
      rw [List.foldl_cons, List.sum_cons, ← add_assoc]
      exact ih (h.merge hs hs')

end Accumulator.Summarizes

/-! ## Groups -/

variable {ρ κ : Type*}

/-- The elements with the given key. -/
def group [DecidableEq κ] (key : ρ → κ) (rs : Multiset ρ) (k : κ) :
    Multiset ρ :=
  rs.filter fun r => key r = k

section group

variable [DecidableEq κ] {key : ρ → κ}

@[simp] theorem group_zero (k : κ) : group key 0 k = 0 := rfl

theorem group_add (rs rs' : Multiset ρ) (k : κ) :
    group key (rs + rs') k = group key rs k + group key rs' k :=
  Multiset.filter_add _ _ _

theorem group_cons_self (r : ρ) (rs : Multiset ρ) :
    group key (r ::ₘ rs) (key r) = r ::ₘ group key rs (key r) :=
  Multiset.filter_cons_of_pos _ rfl

theorem group_cons_of_ne {r : ρ} {k : κ} (h : key r ≠ k) (rs : Multiset ρ) :
    group key (r ::ₘ rs) k = group key rs k :=
  Multiset.filter_cons_of_neg _ h

theorem group_eq_zero {rs : Multiset ρ} {k : κ} : group key rs k = 0 ↔ ∀ r ∈ rs, key r ≠ k :=
  Multiset.filter_eq_nil

theorem group_group_self (rs : Multiset ρ) (k : κ) :
    group key (group key rs k) k = group key rs k := by
  simp [group, Multiset.filter_filter]

theorem group_group_of_ne {rs : Multiset ρ} {k k' : κ} (h : k' ≠ k) :
    group key (group key rs k) k' = 0 := by
  rw [group_eq_zero]
  intro r hr hk'
  exact h (hk'.symm.trans (Multiset.mem_filter.mp hr).2)

end group

/-- The keys of the elements of a collection. -/
def HasKey (key : ρ → κ) (rs : Multiset ρ) (k : κ) : Prop := ∃ r ∈ rs, key r = k

theorem hasKey_cons {key : ρ → κ} {rs : Multiset ρ} {r : ρ} {k : κ} :
    HasKey key (r ::ₘ rs) k ↔ HasKey key rs k ∨ k = key r := by
  simp [HasKey, or_comm, eq_comm]

theorem hasKey_add_group [DecidableEq κ] {key : ρ → κ} {rs rs' : Multiset ρ} {k₀ k : κ}
    (hne : HasKey key rs' k₀) :
    HasKey key (rs + group key rs' k₀) k ↔ HasKey key rs k ∨ k = k₀ := by
  obtain ⟨r₀, hr₀, hk₀⟩ := hne
  constructor
  · rintro ⟨r, hr, rfl⟩
    rcases Multiset.mem_add.mp hr with hr | hr
    · exact Or.inl ⟨r, hr, rfl⟩
    · exact Or.inr (Multiset.mem_filter.mp hr).2
  · rintro (⟨r, hr, hk⟩ | rfl)
    · exact ⟨r, Multiset.mem_add.mpr (Or.inl hr), hk⟩
    · exact ⟨r₀, Multiset.mem_add.mpr (Or.inr (Multiset.mem_filter.mpr ⟨hr₀, hk₀⟩)), hk₀⟩

/-- `ks` lists the keys of `rs`, each once. -/
structure Covers (key : ρ → κ) (ks : List κ) (rs : Multiset ρ) : Prop where
  nodup : ks.Nodup
  mem_iff : ∀ k, k ∈ ks ↔ HasKey key rs k

namespace Covers

variable {key : ρ → κ} {ks : List κ} {rs rs' : Multiset ρ} {k₀ : κ}

theorem zero : Covers key [] 0 := ⟨List.nodup_nil, by simp [HasKey]⟩

/-- A key that is not listed has no elements. -/
theorem group_eq_zero [DecidableEq κ] (h : Covers key ks rs) (hk : k₀ ∉ ks) :
    group key rs k₀ = 0 := by
  apply Found.group_eq_zero.mpr
  rintro r hr rfl
  exact hk ((h.mem_iff _).mpr ⟨r, hr, rfl⟩)

/-- What holds of the keys of a larger collection holds of the keys listed. -/
theorem forall_of_le (h : Covers key ks rs) (hle : rs ≤ rs') {Q : κ → Prop}
    (hQ : ∀ r ∈ rs', Q (key r)) : ∀ k ∈ ks, Q k := by
  intro k hk
  obtain ⟨r, hr, rfl⟩ := (h.mem_iff k).mp hk
  exact hQ r (Multiset.mem_of_le hle hr)

/-- Adding elements whose key is listed changes nothing. -/
theorem insert_old (h : Covers key ks rs) (hk : k₀ ∈ ks)
    (hkeys : ∀ k, HasKey key rs' k ↔ HasKey key rs k ∨ k = k₀) : Covers key ks rs' := by
  refine ⟨h.nodup, ?_⟩
  intro k
  rw [hkeys, ← h.mem_iff]
  exact ⟨Or.inl, fun hor => hor.elim id fun heq => heq ▸ hk⟩

/-- Adding elements with a new key appends the key. -/
theorem insert_new (h : Covers key ks rs) (hk : k₀ ∉ ks)
    (hkeys : ∀ k, HasKey key rs' k ↔ HasKey key rs k ∨ k = k₀) :
    Covers key (ks ++ [k₀]) rs' := by
  refine ⟨h.nodup.append (List.nodup_singleton k₀) (by simpa using hk), ?_⟩
  intro k
  rw [hkeys, ← h.mem_iff, List.mem_append, List.mem_singleton]

/-- If all elements have one key, it is the only one listed. -/
theorem eq_singleton (h : Covers key ks rs) (hne : rs ≠ 0) (hk : ∀ r ∈ rs, key r = k₀) :
    ks = [k₀] := by
  refine List.perm_singleton.mp ((List.perm_ext_iff_of_nodup h.nodup (List.nodup_singleton k₀)).mpr
    fun k => ?_)
  rw [h.mem_iff, List.mem_singleton]
  constructor
  · rintro ⟨r, hr, rfl⟩
    exact hk r hr
  · rintro rfl
    obtain ⟨r, hr⟩ := Multiset.exists_mem_of_ne_zero hne
    exact ⟨r, hr, hk r hr⟩

end Covers

/-- `states` runs parallel to `ks`: each state summarises the values of the elements of `rs` with
its key. -/
def Tracks [DecidableEq κ] (R : S → Multiset V → Prop) (key : ρ → κ) (val : ρ → V) (ks : List κ)
    (rs : Multiset ρ) (states : List S) : Prop :=
  List.Forall₂ (fun k s => R s ((group key rs k).map val)) ks states

namespace Tracks

variable [DecidableEq κ] {acc : Accumulator V S} {valid : V → Prop} {R : S → Multiset V → Prop}
    {key : ρ → κ}
  {val : ρ → V} {ks : List κ} {rs : Multiset ρ} {states : List S}

theorem length_eq (h : Tracks R key val ks rs states) : states.length = ks.length :=
  (List.Forall₂.length_eq h).symm

/-- The state at the index of a key. -/
theorem exists_state (h : Tracks R key val ks rs states) {i : ℕ} {k : κ} (hi : ks[i]? = some k) :
    ∃ s, states[i]? = some s ∧ R s ((group key rs k).map val) := by
  obtain ⟨hlt, rfl⟩ := List.getElem?_eq_some_iff.mp hi
  have hlt' : i < states.length := h.length_eq ▸ hlt
  exact ⟨states[i], List.getElem?_eq_getElem hlt', (List.forall₂_iff_get.mp h).2 i hlt hlt'⟩

/-- New keys start from the initial state. -/
theorem extend (hacc : acc.Summarizes valid R) (h : Tracks R key val ks rs states) {new : List κ}
    (hnew : ∀ k ∈ new, group key rs k = 0) :
    Tracks R key val (ks ++ new) rs (states ++ List.replicate new.length acc.init) := by
  apply List.rel_append h
  rw [List.forall₂_iff_get]
  refine ⟨by simp, ?_⟩
  intro i hi hi'
  simpa [hnew _ (List.getElem_mem hi)] using hacc.init

/-- The states are updated at one index, where the key `k` stands, by adding `rs'` to `rs`. -/
theorem modify {rs' : Multiset ρ} {i : ℕ} {k : κ} {f : S → S} (hks : ks.Nodup)
    (hi : ks[i]? = some k) (h : Tracks R key val ks rs states)
    (hf : ∀ s, R s ((group key rs k).map val) → R (f s) ((group key rs' k).map val))
    (hother : ∀ k' ∈ ks, k' ≠ k → group key rs' k' = group key rs k') :
    Tracks R key val ks rs' (states.modify i f) := by
  unfold Tracks at h ⊢
  rw [List.forall₂_iff_get] at h ⊢
  obtain ⟨hlen, hget⟩ := h
  refine ⟨by simpa using hlen, ?_⟩
  intro j hj hj'
  simp only [List.get_eq_getElem, List.length_modify] at hget hj' ⊢
  obtain ⟨hilt, rfl⟩ := List.getElem?_eq_some_iff.mp hi
  by_cases hij : i = j
  · subst hij
    simpa using hf _ (hget i hj hj')
  · have hne : ks[j] ≠ ks[i] := fun heq => hij ((List.Nodup.getElem_inj_iff hks).mp heq).symm
    rw [List.getElem_modify, if_neg hij, hother _ (List.getElem_mem hj) hne]
    exact hget j hj hj'

/-- One more element, at the index of its key. -/
theorem step (hacc : acc.Summarizes valid R) (hks : ks.Nodup) {r : ρ} {i : ℕ}
    (hi : ks[i]? = some (key r)) (hr : valid (val r)) (h : Tracks R key val ks rs states) :
    Tracks R key val ks (r ::ₘ rs) (states.modify i fun s => acc.step s (val r)) := by
  refine h.modify hks hi (fun s hs => ?_) fun k' _ hne => group_cons_of_ne hne.symm rs
  rw [group_cons_self, Multiset.map_cons]
  exact hacc.step hr hs

/-- A group of another collection, at the index of its key. -/
theorem merge (hacc : acc.Summarizes valid R) (hks : ks.Nodup) {rs' : Multiset ρ} {k : κ} {i : ℕ}
    {s' : S} (hi : ks[i]? = some k) (hs' : R s' ((group key rs' k).map val))
    (h : Tracks R key val ks rs states) :
    Tracks R key val ks (rs + group key rs' k) (states.modify i fun s => acc.merge s s') := by
  refine h.modify hks hi (fun s hs => ?_) fun k' _ hne => ?_
  · rw [group_add, group_group_self, Multiset.map_add]
    exact hacc.merge hs hs'
  · rw [group_add, group_group_of_ne hne, add_zero]

end Tracks

/-! ## Counting groups -/

/-- The number of keys of a collection. -/
def numKeys [DecidableEq κ] (key : ρ → κ) (rs : Multiset ρ) : ℕ := (rs.map key).toFinset.card

theorem numKeys_mono [DecidableEq κ] {key : ρ → κ} {rs rs' : Multiset ρ} (h : rs ≤ rs') :
    numKeys key rs ≤ numKeys key rs' :=
  Finset.card_le_card (Multiset.toFinset_subset.mpr (Multiset.subset_of_le (Multiset.map_le_map h)))

theorem numKeys_le_card [DecidableEq κ] (key : ρ → κ) (rs : Multiset ρ) :
    numKeys key rs ≤ rs.card :=
  (Multiset.toFinset_card_le _).trans (Multiset.card_map key rs).le

theorem Covers.length_eq [DecidableEq κ] {key : ρ → κ} {ks : List κ} {rs : Multiset ρ}
    (h : Covers key ks rs) : ks.length = numKeys key rs := by
  rw [numKeys, ← List.toFinset_card_of_nodup h.nodup]
  congr 1
  ext k
  rw [List.mem_toFinset, h.mem_iff, Multiset.mem_toFinset, Multiset.mem_map, HasKey]

/-- The groups of distinct keys make up the elements with one of these keys. -/
theorem sum_group [DecidableEq κ] {key : ρ → κ} {rs : Multiset ρ} {ks : List κ} (h : ks.Nodup) :
    (ks.map (group key rs)).sum = rs.filter fun r => key r ∈ ks := by
  induction ks with
  | nil => simp
  | cons k ks ih =>
      rw [List.nodup_cons] at h
      have hdisj : rs.filter (fun r => key r = k ∧ key r ∈ ks) = 0 := by
        rw [Multiset.filter_eq_nil]
        rintro r - ⟨rfl, hr⟩
        exact h.1 hr
      rw [List.map_cons, List.sum_cons, ih h.2, group, Multiset.filter_add_filter, hdisj, add_zero]
      simp

/-- The groups of all keys make up the collection. -/
theorem Covers.sum_group [DecidableEq κ] {key : ρ → κ} {ks : List κ} {rs : Multiset ρ}
    (h : Covers key ks rs) : (ks.map (group key rs)).sum = rs := by
  rw [Found.sum_group h.nodup, Multiset.filter_eq_self]
  exact fun r hr => (h.mem_iff _).mpr ⟨r, hr, rfl⟩

/-! ## Numbering keys -/

/-- In a list of distinct keys numbered in order, a key is found under its number. -/
theorem lookup_zipIdx [BEq κ] [LawfulBEq κ] {ks : List κ} (h : ks.Nodup) {k : κ} {i : ℕ}
    (hi : ks[i]? = some k) : ks.zipIdx.lookup k = some i := by
  suffices hgen : ∀ n, (ks.zipIdx n).lookup k = some (i + n) by simpa using hgen 0
  induction ks generalizing i with
  | nil => simp at hi
  | cons k' ks ih =>
      intro n
      rw [List.nodup_cons] at h
      rw [List.zipIdx_cons, List.lookup_cons]
      cases i with
      | zero =>
          obtain rfl : k' = k := by simpa using hi
          simp
      | succ i =>
          have hik : ks[i]? = some k := by simpa using hi
          have hne : k ≠ k' := fun heq => h.1 (heq ▸ List.mem_of_getElem? hik)
          simp only [beq_eq_false_iff_ne.mpr hne]
          rw [ih h.2 hik]
          congr 1
          omega

theorem lookup_zipIdx_eq_none [BEq κ] [LawfulBEq κ] {ks : List κ} {k : κ} (h : k ∉ ks) :
    ks.zipIdx.lookup k = none := by
  rw [List.lookup_eq_none_iff]
  rintro ⟨k', i⟩ hp
  have hmem : k' ∈ ks := (List.mem_zipIdx' hp).2 ▸ List.getElem_mem _
  exact bne_iff_ne.mpr fun heq => h (heq ▸ hmem)

end ColumnarEngine.Found
