import ColumnarEngine.Exec.GroupByKeys
import ColumnarEngine.Found.Transition

/-!
# GROUP BY: the invariant of the threads

For each thread the hash table, the key builders, the number of groups and the states of every
aggregation function describe one list of key tuples over the rows the thread has sunk
(`GroupByThreadState.Holds`, `GroupedAggregationFunction.Holds`). A `Sink` call keeps this for all
threads (`sink_holds`), so every sequence of calls does (`sinkAll_holds`).
-/

namespace ColumnarEngine

open Found

/-! ## One aggregation function -/

/-- The states of thread `t` run parallel to the key tuples `ks` over the rows `rs`. -/
def GroupedAggregationFunction.Holds (key : Row → Row) (f : GroupedAggregationFunction) (t : ℕ)
    (ks : List Row) (rs : Multiset Row) : Prop :=
  ∃ states, f.threadStates[t]? = some states ∧
    Tracks f.kind.Represents key f.argument ks rs states

namespace GroupedAggregationFunction

variable {P : Platform} {key : Row → Row} {f : GroupedAggregationFunction} {ks : List Row}
  {rs : Multiset Row}

/-- Replacing the states of one thread says nothing about another. -/
theorem Holds.set_ne {t t' : ℕ} {states : List f.kind.State} (hne : t ≠ t')
    (h : f.Holds key t' ks rs) :
    Holds key { f with threadStates := f.threadStates.set t states } t' ks rs := by
  obtain ⟨s, hs, htracks⟩ := h
  exact ⟨s, by simpa [List.getElem?_set_ne hne] using hs, htracks⟩

theorem Holds.set_self {t : ℕ} {states : List f.kind.State} (ht : t < f.threadStates.length)
    (h : Tracks f.kind.Represents key f.argument ks rs states) :
    Holds key { f with threadStates := f.threadStates.set t states } t ks rs :=
  ⟨states, by simp [ht], h⟩

/-- The loop of `Update` over rows that know their groups adds the rows. -/
theorem updateStates_spec (hexact : f.kind.Exact) (hks : ks.Nodup) {rows : List Row}
    {gids : List ℕ} (hids : List.Forall₂ (fun r g => ks[g]? = some (key r)) rows gids) :
    ∀ {rs : Multiset Row} {states : List f.kind.State},
      (∀ r ∈ rows, f.kind.Accepts (f.argument r)) →
      Tracks f.kind.Represents key f.argument ks rs states →
      ∃ states', updateStates P f.kind states ((rows.map f.argument).zip gids) = some states' ∧
        Tracks f.kind.Represents key f.argument ks (rs + rows) states' := by
  induction hids with
  | nil => exact fun _ h => ⟨_, rfl, by simpa using h⟩
  | @cons r g rows gids hg _ ih =>
      intro rs states hacc h
      have hlt : g < states.length := by
        rw [h.length_eq]
        exact (List.getElem?_eq_some_iff.mp hg).1
      have hstep := h.step (AggregateKind.summarizes (P := P) hexact) hks hg
        (hacc r List.mem_cons_self)
      obtain ⟨states', hstates', htracks⟩ :=
        ih (fun r' hr' => hacc r' (List.mem_cons_of_mem r hr')) hstep
      refine ⟨states', ?_, ?_⟩
      · simpa [updateStates, modifyAt, hlt] using hstates'
      · rwa [← Multiset.cons_coe, Multiset.add_cons, ← Multiset.cons_add]

/-- `Resize` opens groups for new keys. -/
theorem resize_holds (hexact : f.kind.Exact) {t : ℕ} {new : List Row}
    (hnew : ∀ k ∈ new, group key rs k = 0) (h : f.Holds key t ks rs) :
    ∃ states, f.resize P (ks ++ new).length t =
        some { f with threadStates := f.threadStates.set t states } ∧
      Tracks f.kind.Represents key f.argument (ks ++ new) rs states := by
  obtain ⟨states, hstates, htracks⟩ := h
  have hdiff : (ks ++ new).length - states.length = new.length := by
    rw [htracks.length_eq, List.length_append]
    omega
  refine ⟨_, ?_, htracks.extend (AggregateKind.summarizes (P := P) hexact) hnew⟩
  rw [resize, hstates, Option.map_some, hdiff]

/-- `Resize` and `Update` of a batch on a thread whose groups are `ks`, extended by `new`. -/
theorem sink_holds {b : RecordBatch} (hb : b.WellFormed) (hf : f.Declared b.types) {t : ℕ}
    {new : List Row} {gids : List ℕ} (hcovers : Covers key (ks ++ new) (rs + b.rows))
    (hold : Covers key ks rs)
    (hids : List.Forall₂ (fun r g => (ks ++ new)[g]? = some (key r)) b.rows gids)
    (h : f.Holds key t ks rs) :
    ∃ states, ((f.resize P (ks ++ new).length t).bind fun f => f.update P b gids t) =
        some { f with threadStates := f.threadStates.set t states } ∧
      Tracks f.kind.Represents key f.argument (ks ++ new) (rs + b.rows) states := by
  have hnew : ∀ k ∈ new, group key rs k = 0 := by
    intro k hk
    apply hold.group_eq_zero
    intro hkey
    exact List.disjoint_of_nodup_append hcovers.nodup hkey hk
  have hlt : t < f.threadStates.length := (List.getElem?_eq_some_iff.mp h.choose_spec.1).1
  obtain ⟨ext, hresize, hext⟩ := resize_holds (P := P) hf.exact hnew h
  obtain ⟨states', hstates', htracks'⟩ := updateStates_spec (P := P) hf.exact hcovers.nodup hids
    (fun r hr => hf.accepts (hb.rows_typed r hr)) hext
  refine ⟨states', ?_, htracks'⟩
  have hlen : (b.rows.map f.argument).length ≤ gids.length := by
    rw [List.length_map, hids.length_eq]
  rw [hresize, Option.bind_some]
  simp only [update, List.getElem?_set_self hlt, Option.bind_some]
  rw [hf.inputs_eq hb, Option.bind_some, if_pos hlen]
  simp [hstates']

end GroupedAggregationFunction

/-! ## One thread -/

/-- The hash table, the key builders and the number of groups of a thread describe the key tuples
`ks` of the rows `rs`. The builders are made at the first `Sink`. -/
structure GroupByThreadState.Holds (keyTypes : List ColumnType) (key : Row → Row)
    (s : GroupByThreadState) (ks : List Row) (rs : Multiset Row) : Prop where
  covers : Covers key ks rs
  table : s.hashTable = tableFor keyTypes ks
  num : s.numGroups = ks.length
  builders : s.keyBuilders.map ColumnBuilder.content = tableOf keyTypes ks ∨
    s.keyBuilders = [] ∧ ks = []

namespace GroupBySinkSourceOperator

variable {P : Platform}

/-- Making the builders if there are none gives builders that hold the key tuples. -/
theorem ensureBuilders_content {op : GroupBySinkSourceOperator} {key : Row → Row}
    {s : GroupByThreadState} {ks : List Row} {rs : Multiset Row}
    (h : s.Holds op.keyTypes key ks rs) :
    (op.ensureBuilders s.keyBuilders).map ColumnBuilder.content = tableOf op.keyTypes ks := by
  unfold ensureBuilders
  split_ifs with hempty
  · have hnil : s.keyBuilders = [] := List.isEmpty_iff.mp hempty
    rcases h.builders with hcontent | ⟨-, rfl⟩
    · rw [hnil] at hcontent
      have hkt : op.keyTypes = [] := by
        have := congrArg List.length hcontent
        rw [length_tableOf] at this
        exact List.length_eq_zero_iff.mp (by simpa using this.symm)
      simpa [hkt] using hcontent
    · exact map_content_makeColumnBuilder _
  · rcases h.builders with hcontent | ⟨hnil, -⟩
    · exact hcontent
    · simp [hnil] at hempty

/-- The columns the group-by indices name, as the source of a copy of selected rows. -/
theorem gather_keyColumns {b : RecordBatch} (hb : b.WellFormed) {idxs : List ℕ}
    {keyTypes : List ColumnType} (hkeys : KeyColumns b.types idxs keyTypes) {is : List ℕ}
    (his : ∀ i ∈ is, i ∈ b.selected) :
    ∃ srcs, gather b.columns idxs = some srcs ∧ srcs.map Column.type = keyTypes ∧
      ∀ j, (hj : j < srcs.length) → srcs[j].visit (some is) =
        some ((is.map fun i => keyOf idxs (b.rowAt i)).map fun k => k.getD j default) := by
  induction hkeys with
  | nil => exact ⟨[], rfl, rfl, by simp⟩
  | @cons i t idxs ts hi _ ih =>
      obtain ⟨srcs, hsrcs, htypes, hvisit⟩ := ih
      obtain ⟨hlt, rfl⟩ := List.getElem?_eq_some_iff.mp hi
      have hlt' : i < b.columns.length := by simpa [RecordBatch.types] using hlt
      refine ⟨b.columns[i] :: srcs, by simp [gather_cons, hsrcs, List.getElem?_eq_getElem hlt'],
        by simp [htypes, RecordBatch.types], ?_⟩
      intro j hj
      cases j with
      | zero =>
          have hrange : ∀ i' ∈ is, i' < b.columns[i].data.length := fun i' hi' =>
            hb.selected_lt (List.getElem_mem hlt') i' (his i' hi')
          simp [Column.visit, gather_eq_some hrange, keyOf, RecordBatch.rowAt,
            List.getElem?_eq_getElem hlt']
      | succ j => simpa [keyOf, Function.comp_def] using hvisit j (by simpa using hj)

/-- Copying the key columns at the rows that opened a group appends their key tuples. -/
theorem copyNewKeys_content {op : GroupBySinkSourceOperator} {b : RecordBatch}
    (hb : b.WellFormed) (hkeys : KeyColumns b.types op.groupByColIndices op.keyTypes)
    {builders : List ColumnBuilder} {ks : List Row}
    (hbuilders : builders.map ColumnBuilder.content = tableOf op.keyTypes ks) {is : List ℕ}
    (his : ∀ i ∈ is, i ∈ b.selected) :
    ∃ builders', op.copyNewKeys b builders is = some builders' ∧
      builders'.map ColumnBuilder.content =
        tableOf op.keyTypes (ks ++ is.map fun i => keyOf op.groupByColIndices (b.rowAt i)) := by
  unfold copyNewKeys
  split_ifs with hempty
  · obtain rfl := List.isEmpty_iff.mp hempty
    exact ⟨builders, rfl, by simpa using hbuilders⟩
  · obtain ⟨srcs, hsrcs, htypes, hvisit⟩ := gather_keyColumns hb hkeys his
    have hlen : op.groupByColIndices.length = builders.length := by
      have hb' := congrArg List.length hbuilders
      rw [length_tableOf, List.length_map] at hb'
      rw [hb']
      exact hkeys.length_eq
    rw [hsrcs, Option.bind_some, hlen]
    exact copyColumns_tableOf hbuilders htypes hvisit

/-! ## All threads -/

/-- The operator after some `Sink` calls: thread `t` holds the key tuples `ks t` of the rows
`rs t`. -/
structure Holds (types : List ColumnType) (idxs : List ℕ) (keyTypes : List ColumnType)
    (aggs : List AggregationFunction) (n : ℕ) (ks : ℕ → List Row) (rs : ℕ → Multiset Row)
    (op : GroupBySinkSourceOperator) : Prop where
  indices : op.groupByColIndices = idxs
  keyTypes_eq : op.keyTypes = keyTypes
  specs : op.aggFuncs.map (fun f => f.toAggregationFunction) = aggs
  typed : ∀ t, ∀ r ∈ rs t, List.Forall₂ Value.HasType r types
  threads : op.threadStates.length = n
  thread : ∀ (t : ℕ) (s : GroupByThreadState), op.threadStates[t]? = some s →
    s.Holds keyTypes (keyOf idxs) (ks t) (rs t)
  funcs : ∀ f ∈ op.aggFuncs, ∀ t < n, f.Holds (keyOf idxs) t (ks t) (rs t)
  silent : op.emitted = false

section Holds

variable {types keyTypes : List ColumnType} {idxs : List ℕ} {aggs : List AggregationFunction}
  {n : ℕ} {ks : ℕ → List Row} {rs : ℕ → Multiset Row} {op : GroupBySinkSourceOperator}

/-- A fresh operator holds nothing. -/
theorem create_holds (types : List ColumnType) (idxs : List ℕ) (keyTypes : List ColumnType)
    (aggs : List AggregationFunction) (n : ℕ) :
    Holds types idxs keyTypes aggs n (fun _ => []) (fun _ => 0) (create idxs keyTypes aggs n) where
  indices := rfl
  keyTypes_eq := rfl
  specs := by simp [create, GroupedAggregationFunction.create, Function.comp_def]
  typed := by simp
  threads := by simp [create]
  thread := by
    intro t s hs
    obtain ⟨-, rfl⟩ := List.mem_replicate.mp (List.mem_of_getElem? hs)
    exact ⟨Covers.zero, rfl, rfl, Or.inr ⟨rfl, rfl⟩⟩
  funcs := by
    intro f hf t ht
    obtain ⟨a, -, rfl⟩ := List.mem_map.mp hf
    exact ⟨[], (List.getElem?_replicate).trans (if_pos ht), .nil⟩
  silent := rfl

/-- A thread exchanged for one that holds other rows. -/
theorem thread_set {key : Row → Row} {threads : List GroupByThreadState}
    (h : ∀ (t : ℕ) (s : GroupByThreadState), threads[t]? = some s →
      s.Holds keyTypes key (ks t) (rs t))
    {t : ℕ} (ht : t < threads.length) {s : GroupByThreadState} {ks' : List Row} {rs' : Multiset Row}
    (hs : s.Holds keyTypes key ks' rs') :
    ∀ (t' : ℕ) (s' : GroupByThreadState), (threads.set t s)[t']? = some s' →
      s'.Holds keyTypes key (Function.update ks t ks' t') (Function.update rs t rs' t') := by
  refine forall_getElem?_set h ht ?_ ?_
  · rwa [Function.update_self, Function.update_self]
  · intro t' s' hne hs'
    rwa [Function.update_of_ne hne, Function.update_of_ne hne]

/-- The states of one thread exchanged in an aggregation function. -/
theorem funcs_set {key : Row → Row} {f : GroupedAggregationFunction}
    (h : ∀ t < n, f.Holds key t (ks t) (rs t)) {t : ℕ} (ht : t < n) {ks' : List Row}
    {rs' : Multiset Row} {states : List f.kind.State}
    (htracks : Tracks f.kind.Represents key f.argument ks' rs' states) (t' : ℕ) (ht' : t' < n) :
    GroupedAggregationFunction.Holds key { f with threadStates := f.threadStates.set t states } t'
      (Function.update ks t ks' t') (Function.update rs t rs' t') := by
  by_cases hne : t = t'
  · subst hne
    obtain ⟨states₀, hstates₀, -⟩ := h t ht
    rw [Function.update_self, Function.update_self]
    exact .set_self (List.getElem?_eq_some_iff.mp hstates₀).1 htracks
  · rw [Function.update_of_ne (Ne.symm hne), Function.update_of_ne (Ne.symm hne)]
    exact (h t' ht').set_ne hne

/-- What the loop over the composite keys makes of a batch: the key tuples of the thread are extended
by `new`, and every row has the number of its key tuple. -/
theorem exists_assignment (hkeys : KeyColumns types idxs keyTypes)
    (h : Holds types idxs keyTypes aggs n ks rs op) {b : RecordBatch} (hb : b.WellFormed)
    (hbt : b.types = types) {t : ℕ} (ht : t < n)
    (hbound : numKeys (keyOf idxs) (rs t + b.rows) < 2 ^ 32) :
    ∃ loc keys a, op.threadStates[t]? = some loc ∧ op.compositeKeys b = some keys ∧
      keys.zipIdx.foldlM (assignGroup b) ⟨loc.hashTable, loc.numGroups, [], []⟩ = some a ∧
      Assigned keyTypes (keyOf idxs) b (ks t) (rs t) b.rows.length a := by
  subst hbt
  obtain ⟨rfl, rfl, rfl, htyped, hthreads, hthread, -, -⟩ := h
  have hst := List.getElem?_eq_getElem (hthreads ▸ ht : t < op.threadStates.length)
  have hold := hthread t _ hst
  have hrows : ∀ r ∈ rs t + b.rows, List.Forall₂ Value.HasType r b.types := by
    intro r hr
    rcases Multiset.mem_add.mp hr with hr | hr
    · exact htyped t r hr
    · exact hb.rows_typed r hr
  obtain ⟨a, ha, hassigned⟩ := assignGroups_spec (b := b)
    (fun r hr => hkeys.typed (hrows r hr)) hbound hold.covers
  exact ⟨_, _, a, hst, compositeKeys_eq hb hkeys, by rw [hold.table, hold.num]; exact ha, hassigned⟩

/-- **A `Sink` call** adds the rows of the batch to its thread and touches no other. -/
theorem sink_holds (hkeys : KeyColumns types idxs keyTypes) (haggs : ∀ f ∈ aggs, f.Declared types)
    (h : Holds types idxs keyTypes aggs n ks rs op) {b : RecordBatch} (hb : b.WellFormed)
    (hbt : b.types = types) {t : ℕ} (ht : t < n)
    (hbound : numKeys (keyOf idxs) (rs t + b.rows) < 2 ^ 32) :
    ∃ op' ks', op.sink P b t = some op' ∧
      Holds types idxs keyTypes aggs n (Function.update ks t ks')
        (Function.update rs t (rs t + b.rows)) op' := by
  obtain ⟨s, keys, a, hst, hcomposite, ha, hcovers, htable, hnum, hids, hsel⟩ :=
    exists_assignment hkeys h hb hbt ht hbound
  subst hbt
  obtain ⟨rfl, rfl, rfl, htyped, hthreads, hthread, hfuncs, hsilent⟩ := h
  set key := keyOf op.groupByColIndices with hkey
  have htlt : t < op.threadStates.length := hthreads ▸ ht
  have hold := hthread t s hst
  rw [List.take_length] at hcovers hids
  set new := a.newGroupIndices.map fun i => key (b.rowAt i) with hnew
  obtain ⟨builders', hbuilders', hcontent⟩ :=
    copyNewKeys_content hb hkeys (ensureBuilders_content hold) hsel
  have hnum' : a.numGroups = (ks t ++ new).length := by simp [hnum, hnew]
  obtain ⟨funcs', hfuncs', hspecs, hall⟩ := exists_mapM_keep (l := op.aggFuncs)
    (f := fun f => (f.resize P a.numGroups t).bind fun f => f.update P b a.groupIds t)
    (g := fun f => f.toAggregationFunction) (k := fun f => f.toAggregationFunction)
    (Q := fun f => ∀ t' < n, f.Holds key t' (Function.update ks t (ks t ++ new) t')
      (Function.update rs t (rs t + b.rows) t'))
    (by
      intro f hf
      have hdecl := haggs f.toAggregationFunction (List.mem_map_of_mem hf)
      obtain ⟨states, hstates, htracks⟩ := GroupedAggregationFunction.sink_holds (P := P) hb hdecl
        hcovers hold.covers hids (hfuncs f hf t ht)
      rw [hnum', hstates]
      exact ⟨_, rfl, rfl, funcs_set (hfuncs f hf) ht htracks⟩)
  refine ⟨{ op with
      aggFuncs := funcs'
      threadStates := op.threadStates.set t ⟨a.hashTable, builders', a.numGroups⟩ },
    ks t ++ new, ?_, ?_⟩
  · simp only [sink, hst, hcomposite, Option.bind_eq_bind, Option.bind_some, Option.pure_def]
    rw [ha, Option.bind_some, hbuilders', Option.bind_some, hfuncs', Option.bind_some]
  · have htyped' : ∀ t', ∀ r ∈ Function.update rs t (rs t + b.rows) t',
        List.Forall₂ Value.HasType r b.types := by
      apply (Function.forall_update_iff rs fun _ rows =>
        ∀ r ∈ rows, List.Forall₂ Value.HasType r b.types).mpr
      refine ⟨?_, fun t' _ => htyped t'⟩
      intro r hr
      exact (Multiset.mem_add.mp hr).elim (htyped t r) (hb.rows_typed r)
    refine ⟨rfl, rfl, hspecs, htyped', by simpa using hthreads, ?_, hall, hsilent⟩
    exact thread_set hthread htlt ⟨hcovers, htable, hnum', Or.inl hcontent⟩

end Holds

end GroupBySinkSourceOperator

end ColumnarEngine
