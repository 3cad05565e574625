import ColumnarEngine.Exec.GroupBy
import ColumnarEngine.Exec.Aggregates
import ColumnarEngine.Found.Partial

/-!
# GROUP BY: key tuples and group ids

The composite key of a row determines its key tuple (`encodeKey_inj`), so the hash table of a thread
is the list of key tuples it has seen, numbered in order (`tableFor`). `assignGroups_spec` is the
loop of `Sink` over the composite keys: it extends that list by the new key tuples of the batch and
gives every row the number of its key tuple.
-/

namespace ColumnarEngine

open Found

/-- The key tuple of a row. -/
def keyOf (idxs : List ℕ) (r : Row) : Row := idxs.map fun i => r.getD i default

@[simp] theorem length_keyOf (idxs : List ℕ) (r : Row) : (keyOf idxs r).length = idxs.length := by
  simp [keyOf]

/-- The group-by indices name columns of the key types. -/
def KeyColumns (types : List ColumnType) (idxs : List ℕ) (keyTypes : List ColumnType) : Prop :=
  List.Forall₂ (fun i t => types[i]? = some t) idxs keyTypes

/-- The key tuple of a typed row is typed. -/
theorem KeyColumns.typed {types keyTypes : List ColumnType} {idxs : List ℕ}
    (h : KeyColumns types idxs keyTypes) {r : Row} (hr : List.Forall₂ Value.HasType r types) :
    List.Forall₂ Value.HasType (keyOf idxs r) keyTypes := by
  unfold keyOf
  rw [List.forall₂_map_left_iff]
  refine List.Forall₂.imp (fun i t hi => ?_) h
  obtain ⟨hlt, rfl⟩ := List.getElem?_eq_some_iff.mp hi
  exact hasType_getD hr hlt

/-! ## Composite keys -/

/-- The composite key of a key tuple. -/
def encodeKey : List ColumnType → Row → Bytes
  | t :: ts, v :: vs => keyBytes t v ++ encodeKey ts vs
  | _, _ => []

/-- The composite key determines the key tuple. -/
theorem encodeKey_inj {types : List ColumnType} {k k' : Row}
    (hk : List.Forall₂ Value.HasType k types) (hk' : List.Forall₂ Value.HasType k' types)
    (h : encodeKey types k = encodeKey types k') : k = k' := by
  induction hk generalizing k' with
  | nil => cases hk'; rfl
  | cons hv _ ih =>
      cases hk' with
      | cons hv' hvs' =>
          obtain ⟨rfl, hrest⟩ := keyBytes_append_inj hv hv' h
          rw [ih hvs' hrest]

/-- Appending to the `i`-th of mapped keys maps the appended function. -/
theorem appendEach_map {α : Type*} (enc : Value → Bytes) (f : α → Bytes) (g : α → Value)
    (l : List α) : appendEach enc (l.map f) (l.map g) = l.map fun a => f a ++ enc (g a) := by
  induction l with
  | nil => rfl
  | cons a l ih => simp [appendEach, ih]

/-- One `HashKeys` call on a well-formed batch appends the bytes of its column to the key of every
row. -/
theorem hashKeys_eq {b : RecordBatch} (hb : b.WellFormed) {i : ℕ} {t : ColumnType}
    (hi : b.types[i]? = some t) (f : Row → Bytes) :
    ((b.columns[i]?).bind fun c => hashKeys c (b.rows.map f) b.selectionVector) =
      some (b.rows.map fun r => f r ++ keyBytes t (r.getD i default)) := by
  obtain ⟨hlt, rfl⟩ := List.getElem?_eq_some_iff.mp hi
  have hlt' : i < b.columns.length := by simpa [RecordBatch.types] using hlt
  rw [List.getElem?_eq_getElem hlt', Option.bind_some, hashKeys, hb.visit_rows hlt',
    Option.bind_some, if_pos (by simp), appendEach_map]
  simp [RecordBatch.types]

/-- The composite keys of a well-formed batch are those of its rows' key tuples. -/
theorem compositeKeys_eq {b : RecordBatch} (hb : b.WellFormed) {op : GroupBySinkSourceOperator}
    {keyTypes : List ColumnType} (hkeys : KeyColumns b.types op.groupByColIndices keyTypes) :
    op.compositeKeys b = some (b.rows.map fun r =>
      encodeKey keyTypes (keyOf op.groupByColIndices r)) := by
  have hstart : List.replicate b.numRows ([] : Bytes) = b.rows.map fun _ => [] := by
    rw [List.map_const', hb.length_rows]
  have hloop : ∀ {idxs : List ℕ} {ts : List ColumnType}, KeyColumns b.types idxs ts →
      ∀ f : Row → Bytes, idxs.foldlM (fun keys col =>
        (b.columns[col]?).bind fun c => hashKeys c keys b.selectionVector) (b.rows.map f) =
          some (b.rows.map fun r => f r ++ encodeKey ts (keyOf idxs r)) := by
    intro idxs ts h
    induction h with
    | nil => intro f; simp [encodeKey]
    | cons hi _ ih =>
        intro f
        rw [List.foldlM_cons, Option.bind_eq_bind, hashKeys_eq hb hi f, Option.bind_some, ih]
        simp [keyOf, encodeKey]
  rw [GroupBySinkSourceOperator.compositeKeys, hstart, hloop hkeys]
  simp

/-- Key tuples agree where the columns do. -/
theorem keyOf_eq_iff {idxs : List ℕ} {r r' : Row} :
    keyOf idxs r = keyOf idxs r' ↔ ∀ col ∈ idxs, r.getD col default = r'.getD col default := by
  rw [keyOf, keyOf, List.map_inj_left]

/-- **Composite keys** are those of the selected rows, in order, and two of them are equal exactly
when the rows agree in every group-by column. -/
theorem compositeKeys_injective {op : GroupBySinkSourceOperator} {keyTypes : List ColumnType}
    {b b' : RecordBatch} (hb : b.WellFormed) (hb' : b'.WellFormed)
    (hkeys : KeyColumns b.types op.groupByColIndices keyTypes)
    (hkeys' : KeyColumns b'.types op.groupByColIndices keyTypes) :
    ∃ keys keys', op.compositeKeys b = some keys ∧ op.compositeKeys b' = some keys' ∧
      List.Forall₂ (fun i key =>
        key = encodeKey keyTypes (keyOf op.groupByColIndices (b.rowAt i))) b.selected keys ∧
      List.Forall₂ (fun i key =>
        key = encodeKey keyTypes (keyOf op.groupByColIndices (b'.rowAt i))) b'.selected keys' ∧
      ∀ (m m' i i' : ℕ), b.selected[m]? = some i → b'.selected[m']? = some i' →
        (keys[m]? = keys'[m']? ↔ ∀ col ∈ op.groupByColIndices,
          (b.rowAt i).getD col default = (b'.rowAt i').getD col default) := by
  have hbelongs : ∀ c : RecordBatch, List.Forall₂ (fun i key =>
      key = encodeKey keyTypes (keyOf op.groupByColIndices (c.rowAt i))) c.selected
        (c.rows.map fun r => encodeKey keyTypes (keyOf op.groupByColIndices r)) := by
    intro c
    rw [RecordBatch.rows, List.map_map, List.forall₂_map_right_iff, List.forall₂_same]
    exact fun i _ => rfl
  refine ⟨_, _, compositeKeys_eq hb hkeys, compositeKeys_eq hb' hkeys', hbelongs b, hbelongs b', ?_⟩
  intro m m' i i' hi hi'
  have htyped := hkeys.typed (hb.rows_typed _ (List.mem_map_of_mem (List.mem_of_getElem? hi)))
  have htyped' := hkeys'.typed (hb'.rows_typed _ (List.mem_map_of_mem (List.mem_of_getElem? hi')))
  simp only [RecordBatch.rows, List.getElem?_map, hi, hi', Option.map_some, Option.some.injEq]
  rw [← keyOf_eq_iff]
  exact ⟨encodeKey_inj htyped htyped', congrArg _⟩

/-- A string that looks like the length and the bytes of another, in a filtered and an unfiltered
batch. -/
theorem compositeKeys_injective_strings :
    let op := GroupBySinkSourceOperator.create [0, 1] [.string, .char] [] 1
    let b : RecordBatch := ⟨1, none, [Column.ofValues .string [.str (ascii "ab")],
      Column.ofValues .char [.int (-1)]]⟩
    let b' : RecordBatch := ⟨1, some [1], [Column.ofValues .string [.str [], .str [0, 97]],
      Column.ofValues .char [.int 0, .int 98]]⟩
    ∃ keys keys', op.compositeKeys b = some keys ∧ op.compositeKeys b' = some keys' ∧
      keys[0]? ≠ keys'[0]? := by
  intro op b b'
  obtain ⟨keys, keys', hkeys, hkeys', -, -, hiff⟩ := @compositeKeys_injective op _ b b' (by decide)
    (by decide) (.cons rfl (.cons rfl .nil)) (.cons rfl (.cons rfl .nil))
  refine ⟨keys, keys', hkeys, hkeys', ?_⟩
  intro h
  have hagree := (hiff 0 0 0 1 rfl rfl).mp h 1 (by decide)
  exact absurd hagree (by decide)

/-! ## The hash table -/

/-- The hash table that numbers the key tuples `ks` in order. -/
def tableFor (keyTypes : List ColumnType) (ks : List Row) : HashTable :=
  (ks.map (encodeKey keyTypes)).zipIdx

section tableFor

variable {keyTypes : List ColumnType} {ks : List Row}

theorem nodup_map_encodeKey (hks : ks.Nodup)
    (htyped : ∀ k ∈ ks, List.Forall₂ Value.HasType k keyTypes) :
    (ks.map (encodeKey keyTypes)).Nodup :=
  hks.map_on fun k hk k' hk' h => encodeKey_inj (htyped k hk) (htyped k' hk') h

theorem lookup_tableFor (hks : ks.Nodup)
    (htyped : ∀ k ∈ ks, List.Forall₂ Value.HasType k keyTypes) {k : Row} {i : ℕ}
    (hi : ks[i]? = some k) : (tableFor keyTypes ks).lookup (encodeKey keyTypes k) = some i :=
  lookup_zipIdx (nodup_map_encodeKey hks htyped) (by rw [List.getElem?_map, hi]; rfl)

theorem lookup_tableFor_eq_none (htyped : ∀ k ∈ ks, List.Forall₂ Value.HasType k keyTypes)
    {k : Row} (hk : List.Forall₂ Value.HasType k keyTypes) (hmem : k ∉ ks) :
    (tableFor keyTypes ks).lookup (encodeKey keyTypes k) = none := by
  apply lookup_zipIdx_eq_none
  intro h
  obtain ⟨k', hk', heq⟩ := List.mem_map.mp h
  exact hmem (encodeKey_inj (htyped k' hk') hk heq ▸ hk')

/-- Entering a new key tuple. -/
theorem tableFor_append (k : Row) :
    tableFor keyTypes (ks ++ [k]) =
      tableFor keyTypes ks ++ [(encodeKey keyTypes k, ks.length)] := by
  simp [tableFor, List.zipIdx_append]

end tableFor

/-! ## The loop over the composite keys -/

namespace GroupBySinkSourceOperator

/-- What the loop has written after `m` rows of the batch, for a thread that had seen `rs` with the
key tuples `ks`. -/
structure Assigned (keyTypes : List ColumnType) (key : Row → Row) (b : RecordBatch) (ks : List Row)
    (rs : Multiset Row) (m : ℕ) (a : Assignment) : Prop where
  covers : Covers key (ks ++ a.newGroupIndices.map fun i => key (b.rowAt i)) (rs + b.rows.take m)
  table : a.hashTable = tableFor keyTypes (ks ++ a.newGroupIndices.map fun i => key (b.rowAt i))
  num : a.numGroups = ks.length + a.newGroupIndices.length
  ids : List.Forall₂
    (fun r g => (ks ++ a.newGroupIndices.map fun i => key (b.rowAt i))[g]? = some (key r))
    (b.rows.take m) a.groupIds
  selected : ∀ i ∈ a.newGroupIndices, i ∈ b.selected

variable {keyTypes : List ColumnType} {key : Row → Row} {b : RecordBatch} {ks : List Row}
  {rs : Multiset Row}

/-- One more row in a multiset of processed rows. -/
theorem add_take_succ {m : ℕ} (hm : m < b.rows.length) :
    rs + (b.rows.take (m + 1) : Multiset Row) = b.rows[m] ::ₘ (rs + b.rows.take m) := by
  rw [List.take_add_one, List.getElem?_eq_getElem hm, Option.toList_some, ← Multiset.coe_add,
    ← add_assoc, Multiset.coe_singleton, add_comm, Multiset.singleton_add]

theorem actualIdx_eq {m : ℕ} (hm : m < b.selected.length) :
    actualIdx b m = some b.selected[m] := by
  rw [← List.getElem?_eq_getElem hm]
  unfold actualIdx RecordBatch.selected at *
  cases hsel : b.selectionVector with
  | none =>
      rw [hsel, List.length_range] at hm
      simp [hm]
  | some sel => rfl

/-- One row of the loop. -/
theorem assignGroup_spec
    (htyped : ∀ r ∈ rs + b.rows, List.Forall₂ Value.HasType (key r) keyTypes)
    (hbound : numKeys key (rs + b.rows) < 2 ^ 32) {m : ℕ} (hm : m < b.rows.length)
    {a : Assignment} (ha : Assigned keyTypes key b ks rs m a) :
    ∃ a', assignGroup b a (encodeKey keyTypes (key b.rows[m]), m) = some a' ∧
      Assigned keyTypes key b ks rs (m + 1) a' := by
  obtain ⟨hcovers, htable, hnum, hids, hsel⟩ := ha
  set ks' := ks ++ a.newGroupIndices.map fun i => key (b.rowAt i) with hks'
  have hle : rs + (b.rows.take (m + 1) : Multiset Row) ≤ rs + b.rows :=
    add_le_add_right (Multiset.coe_le.mpr (List.take_sublist _ _).subperm) _
  have hrow : key b.rows[m] ∈ ks' ∨ key b.rows[m] ∉ ks' := em _
  have hbefore : rs + (b.rows.take m : Multiset Row) ≤ rs + b.rows := by
    apply le_trans _ hle
    rw [add_take_succ hm]
    exact Multiset.le_cons_self _ _
  have hkeytyped : ∀ k ∈ ks', List.Forall₂ Value.HasType k keyTypes :=
    hcovers.forall_of_le hbefore htyped
  have htyped_row : List.Forall₂ Value.HasType (key b.rows[m]) keyTypes :=
    htyped _ (Multiset.mem_add.mpr (Or.inr (Multiset.mem_coe.mpr (List.getElem_mem hm))))
  have htake : b.rows.take (m + 1) = b.rows.take m ++ [b.rows[m]] := by
    rw [List.take_add_one, List.getElem?_eq_getElem hm, Option.toList_some]
  rcases hrow with hmem | hmem
  · obtain ⟨g, hg⟩ := List.getElem?_of_mem hmem
    refine ⟨{ a with groupIds := a.groupIds ++ [g] }, ?_, ?_, htable, hnum, ?_, hsel⟩
    · simp [assignGroup, htable, lookup_tableFor hcovers.nodup hkeytyped hg]
    · rw [add_take_succ hm]
      exact hcovers.insert_old hmem fun k => hasKey_cons
    · rw [htake]
      exact List.rel_append hids (.cons hg .nil)
  · have hmsel : m < b.selected.length := by simpa [RecordBatch.rows] using hm
    have hrowAt : b.rowAt b.selected[m] = b.rows[m] := by simp [RecordBatch.rows]
    have hcovers' : Covers key (ks' ++ [key b.rows[m]]) (rs + b.rows.take (m + 1)) := by
      rw [add_take_succ hm]
      exact hcovers.insert_new hmem fun k => hasKey_cons
    have hlt : a.numGroups < 2 ^ 32 := by
      have hlen := hcovers'.length_eq
      have hmono : numKeys key _ ≤ numKeys key _ := numKeys_mono hle
      simp only [hks', List.length_append, List.length_map, List.length_singleton] at hlen
      omega
    have hnum' : a.numGroups = ks'.length := by simp [hks', hnum]
    have hgid : toUInt32 ks'.length = ks'.length := toUInt32_of_lt (hnum' ▸ hlt)
    refine ⟨⟨tableFor keyTypes (ks' ++ [key b.rows[m]]), a.numGroups + 1,
      a.groupIds ++ [a.numGroups], a.newGroupIndices ++ [b.selected[m]]⟩, ?_, ?_, ?_, ?_, ?_, ?_⟩
    · simp [assignGroup, htable, lookup_tableFor_eq_none hkeytyped htyped_row hmem,
        actualIdx_eq hmsel, hgid, tableFor_append, hnum']
    · simpa [hrowAt, hks'] using hcovers'
    · simp [hrowAt, hks']
    · simp only [List.length_append, List.length_singleton]
      omega
    · rw [htake]
      refine List.rel_append (List.Forall₂.imp (fun r g hg => ?_) hids) (.cons ?_ .nil)
      · simp only [List.map_append, ← List.append_assoc]
        rw [List.getElem?_append_left (List.getElem?_eq_some_iff.mp hg).1]
        exact hg
      · simp only [List.map_append, ← List.append_assoc, hnum']
        simp [hks', hrowAt]
    · intro i hi
      rcases List.mem_append.mp hi with hi | hi
      · exact hsel i hi
      · rw [List.mem_singleton.mp hi]
        exact List.getElem_mem hmsel

/-- **The loop over the composite keys** of a batch numbers the new key tuples and gives every row
the number of its key tuple. -/
theorem assignGroups_spec
    (htyped : ∀ r ∈ rs + b.rows, List.Forall₂ Value.HasType (key r) keyTypes)
    (hbound : numKeys key (rs + b.rows) < 2 ^ 32) (hks : Covers key ks rs) :
    ∃ a, (b.rows.map fun r => encodeKey keyTypes (key r)).zipIdx.foldlM (assignGroup b)
        ⟨tableFor keyTypes ks, ks.length, [], []⟩ = some a ∧
      Assigned keyTypes key b ks rs b.rows.length a := by
  obtain ⟨a, ha, hI⟩ := exists_foldlM_zipIdx (f := assignGroup b) (n := 0)
    (I := Assigned keyTypes key b ks rs) (l := b.rows.map fun r => encodeKey keyTypes (key r))
    (s := ⟨tableFor keyTypes ks, ks.length, [], []⟩) (Nat.zero_le _)
    ⟨by simpa using hks, by simp, rfl, by simp, by simp⟩
    (by
      intro m hm _ a ha
      rw [List.length_map] at hm
      rw [List.getElem_map]
      exact assignGroup_spec htyped hbound hm ha)
  rw [List.length_map] at hI
  exact ⟨a, ha, hI⟩

end GroupBySinkSourceOperator

end ColumnarEngine
