import ColumnarEngine.Exec.AggregationOperator
import ColumnarEngine.Exec.GroupByRun

/-!
# The layout of aggregation results

The batch an aggregation emits has one column for each entry of its output schema, of that type and
with `num_rows` entries, for every run: floating types and averages included, and without a bound on
the number of groups. What carries this is only a count: the key builders, the aggregate states and
the hash table of a thread all agree with its number of groups (`GroupBySinkSourceOperator.Sized`).
-/

namespace ColumnarEngine

open Found

/-- One column for each of the types, of that type and with `num_rows` entries. -/
def RecordBatch.HasLayout (types : List ColumnType) (b : RecordBatch) : Prop :=
  b.types = types ∧ ∀ c ∈ b.columns, c.size = b.numRows

/-- One column for each of the types, of that type and with `k` entries. -/
def ColumnsSized (types : List ColumnType) (k : ℕ) (columns : List Column) : Prop :=
  columns.map Column.type = types ∧ ∀ c ∈ columns, c.size = k

theorem ColumnsSized.append {types types' : List ColumnType} {k : ℕ} {cs cs' : List Column}
    (h : ColumnsSized types k cs) (h' : ColumnsSized types' k cs') :
    ColumnsSized (types ++ types') k (cs ++ cs') := by
  refine ⟨by rw [List.map_append, h.1, h'.1], ?_⟩
  intro c hc
  rcases List.mem_append.mp hc with hc | hc
  · exact h.2 c hc
  · exact h'.2 c hc

/-- One builder for each of the types, of that type and with `k` elements. -/
def BuildersSized (types : List ColumnType) (k : ℕ) (builders : List ColumnBuilder) : Prop :=
  ColumnsSized types k (builders.map ColumnBuilder.finish)

theorem buildersSized_make (types : List ColumnType) :
    BuildersSized types 0 (types.map makeColumnBuilder) := by
  refine ⟨by simp [Function.comp_def], ?_⟩
  intro c hc
  simp only [List.map_map, List.mem_map] at hc
  obtain ⟨t, -, rfl⟩ := hc
  rfl

theorem buildersSized_cons {t : ColumnType} {types : List ColumnType} {k : ℕ} {d : ColumnBuilder}
    {ds : List ColumnBuilder} : BuildersSized (t :: types) k (d :: ds) ↔
      (d.type = t ∧ d.data.length = k) ∧ BuildersSized types k ds := by
  simp only [BuildersSized, ColumnsSized, List.map_cons, List.cons.injEq, List.forall_mem_cons,
    ColumnBuilder.finish_type, Column.size, ColumnBuilder.finish_data]
  tauto

/-- Copying `m` elements of every source adds `m` elements to every builder. -/
theorem copyColumns_sized {k m : ℕ} {indices : Option (List ℕ)} {dests : List ColumnBuilder} :
    ∀ {types : List ColumnType} {srcs : List Column}, BuildersSized types k dests →
      srcs.map Column.type = types →
      (∀ s ∈ srcs, ∃ vs, s.visit indices = some vs ∧ vs.length = m) →
      ∃ ds', copyColumns dests.length dests srcs indices = some ds' ∧
        BuildersSized types (k + m) ds' := by
  induction dests with
  | nil =>
      rintro types srcs ⟨rfl, -⟩ - -
      exact ⟨[], rfl, rfl, by simp⟩
  | cons d dests ih =>
      rintro types srcs hd hs hv
      cases srcs with
      | nil =>
          obtain rfl : [] = types := hs
          exact absurd hd.1 (by simp)
      | cons s srcs =>
          obtain rfl : s.type :: srcs.map Column.type = types := hs
          obtain ⟨⟨htype, hsize⟩, hrest⟩ := buildersSized_cons.mp hd
          obtain ⟨vs, hvs, hlen⟩ := hv s List.mem_cons_self
          obtain ⟨d', hd', htype', hdata⟩ := copySelection_eq_some htype hvs
          obtain ⟨ds', hds', hsized⟩ := ih hrest rfl fun s' hs' =>
            hv s' (List.mem_cons_of_mem s hs')
          refine ⟨d' :: ds', by simp [copyColumns, hd', hds'], ?_⟩
          rw [buildersSized_cons]
          exact ⟨⟨htype'.trans htype, by simp [hdata, hsize, hlen]⟩, hsized⟩

/-- What an aggregation function writes for a list of states. -/
theorem AggregationFunction.finalize_sized {P : Platform} {types : List ColumnType}
    {f : AggregationFunction} (hf : f.Placed types) (states : List f.kind.State) :
    ∃ c, f.finalize P states = some c ∧ c.type = f.columnType ∧ c.size = states.length :=
  ⟨_, if_pos hf.output, by simp, by simp [Column.size]⟩

/-- Columns written by aggregation functions that have as many states each. -/
theorem columnsSized_of_forall₂ {aggs : List AggregationFunction} {columns : List Column} {k : ℕ}
    (h : List.Forall₂ (fun f c => c.type = f.columnType ∧ c.size = k) aggs columns) :
    ColumnsSized (aggs.map AggregationFunction.columnType) k columns := by
  induction h with
  | nil => exact ⟨rfl, by simp⟩
  | cons hc _ ih =>
      refine ⟨by simp [hc.1, ih.1], ?_⟩
      intro c hmem
      rcases List.mem_cons.mp hmem with rfl | hmem
      · exact hc.2
      · exact ih.2 c hmem

/-! ## Aggregation without GROUP BY -/

namespace AggregationSinkSourceOperator

variable {P : Platform} {types : List ColumnType} {aggs : List AggregationFunction} {n : ℕ}

/-- Every function is one of the declared ones and has a state for each thread. -/
structure Sized (aggs : List AggregationFunction) (n : ℕ) (op : AggregationSinkSourceOperator) :
    Prop where
  specs : op.aggregationFunctions.map (fun f => f.toAggregationFunction) = aggs
  threads : ∀ f ∈ op.aggregationFunctions, f.threadStates.length = n
  silent : op.emitted = false

theorem create_sized (aggs : List AggregationFunction) (n : ℕ) :
    Sized aggs n (create P aggs n) where
  specs := by simp [create, GlobalAggregationFunction.create, Function.comp_def]
  threads := by simp [create, GlobalAggregationFunction.create]
  silent := rfl

/-- One `Update` of a state is defined. -/
theorem exists_absorb {f : AggregationFunction} {b : RecordBatch} (hb : b.WellFormed)
    (hf : f.Placed b.types) (s : f.kind.State) :
    ∃ s', f.kind.absorb P f.columnIndex b s = some s' := by
  have hinputs := hf.inputs_eq hb
  obtain ⟨kind, col, t⟩ := f
  cases kind with
  | count out => exact ⟨_, rfl⟩
  | typed i o op => exact ⟨_, by rw [AggregateKind.absorb, hinputs, Option.map_some]⟩
  | avg i o st => exact ⟨_, by rw [AggregateKind.absorb, hinputs, Option.map_some]⟩
  | distinctCount i o => exact ⟨_, by rw [AggregateKind.absorb, hinputs, Option.map_some]⟩

/-- A `Sink` call keeps the number of states. -/
theorem sink_sized (haggs : ∀ f ∈ aggs, f.Placed types) {op : AggregationSinkSourceOperator}
    (h : Sized aggs n op) {b : RecordBatch} (hb : b.WellFormed) (hbt : b.types = types) {t : ℕ}
    (ht : t < n) : ∃ op', op.sink P b t = some op' ∧ Sized aggs n op' := by
  obtain ⟨fs, hfs, hspecs, hthreads⟩ := exists_mapM_keep (l := op.aggregationFunctions)
    (f := fun f : GlobalAggregationFunction => f.update P b t)
    (g := fun f => f.toAggregationFunction) (k := fun f => f.toAggregationFunction)
    (Q := fun f => f.threadStates.length = n)
    (by
      intro f hf
      have hplaced : f.Placed b.types := hbt ▸ haggs _ (h.specs ▸ List.mem_map_of_mem hf)
      have hlt : t < f.threadStates.length := h.threads f hf ▸ ht
      obtain ⟨s', hs'⟩ := exists_absorb (P := P) hb hplaced f.threadStates[t]
      refine ⟨{ f with threadStates := f.threadStates.set t s' }, ?_, rfl, ?_⟩
      · simp only [GlobalAggregationFunction.update, List.getElem?_eq_getElem hlt,
          Option.bind_some, hs', Option.map_some]
      · rw [List.length_set]
        exact h.threads f hf)
  exact ⟨{ op with aggregationFunctions := fs }, by simp [sink, hfs], hspecs.trans h.specs,
    hthreads, h.silent⟩

/-- `Finalize` writes one value for each function. -/
theorem finalize_layout (hn : 0 < n) (haggs : ∀ f ∈ aggs, f.Placed types)
    {op : AggregationSinkSourceOperator} (h : Sized aggs n op) :
    ∃ op' b, op.finalize P = some op' ∧ op'.getData.1 = some b ∧
      b.HasLayout (aggs.map AggregationFunction.columnType) := by
  obtain ⟨columns, hcolumns, hall⟩ := exists_mapM (l := op.aggregationFunctions)
    (f := fun f : GlobalAggregationFunction => f.finalize P)
    (Q := fun f c => c.type = f.columnType ∧ c.size = 1)
    (by
      intro f hf
      have hplaced : f.Placed types := haggs _ (h.specs ▸ List.mem_map_of_mem hf)
      have htotal : ∃ s, f.total P = some s := by
        have hlen := h.threads f hf
        unfold GlobalAggregationFunction.total
        cases hss : f.threadStates with
        | nil =>
            rw [hss, List.length_nil] at hlen
            omega
        | cons s ss =>
            dsimp only
            split_ifs with hdistinct
            · exact ⟨_, rfl⟩
            · exact ⟨_, rfl⟩
      obtain ⟨s, hs⟩ := htotal
      obtain ⟨c, hc, htype, hsize⟩ := AggregationFunction.finalize_sized (P := P) hplaced [s]
      exact ⟨c, by rw [GlobalAggregationFunction.finalize, hs, Option.bind_some, hc], htype, hsize⟩)
  have hsized := @columnsSized_of_forall₂ _ columns 1
    (List.forall₂_map_left_iff.mpr hall)
  rw [h.specs] at hsized
  refine ⟨_, ⟨1, none, columns⟩, by rw [finalize, hcolumns, Option.map_some], ?_, hsized⟩
  simp [getData, h.silent]

/-- **Every run** of aggregation without GROUP BY emits one column for each function. -/
theorem emits_layout (hn : 0 < n) (haggs : ∀ f ∈ aggs, f.Placed types)
    {calls : List (RecordBatch × ℕ)} (hcalls : ValidCalls types n calls) :
    ∃ op op' b, (create P aggs n).sinkAll P calls = some op ∧ op.finalize P = some op' ∧
      op'.getData.1 = some b ∧ b.HasLayout (aggs.map AggregationFunction.columnType) := by
  obtain ⟨op, hop, hsized⟩ := exists_foldlM (l := calls) (s := create P aggs n)
    (f := fun op c => op.sink P c.1 c.2) (I := fun _ op => Sized aggs n op) (create_sized aggs n)
    (by
      intro done c rest hl op h
      obtain ⟨hb, hbt, ht⟩ := hcalls c (by simp [hl])
      exact sink_sized haggs h hb hbt ht)
  obtain ⟨op', b, hop', hdata, hlayout⟩ := finalize_layout (P := P) hn haggs hsized
  exact ⟨op, op', b, hop, hop', hdata, hlayout⟩

end AggregationSinkSourceOperator

/-! ## GROUP BY: one aggregation function -/

namespace GroupedAggregationFunction

variable {P : Platform} {f : GroupedAggregationFunction}

/-- The numbers of states of the threads. -/
def sizes (f : GroupedAggregationFunction) : List ℕ := f.threadStates.map List.length

theorem exists_states {t k : ℕ} (h : f.sizes[t]? = some k) :
    ∃ states, f.threadStates[t]? = some states ∧ states.length = k := by
  simpa [sizes] using h

/-- Writing back what an index holds. -/
theorem set_of_getElem? {α : Type*} {l : List α} {i : ℕ} {a : α} (h : l[i]? = some a) :
    l.set i a = l := by
  obtain ⟨hi, rfl⟩ := List.getElem?_eq_some_iff.mp h
  exact List.set_getElem_self hi

/-- Updating states in range keeps their number. -/
theorem updateStates_length {k : AggregateKind} {states : List k.State}
    {elements : List (Value × ℕ)} (h : ∀ e ∈ elements, e.2 < states.length) :
    ∃ states', updateStates P k states elements = some states' ∧
      states'.length = states.length := by
  apply exists_foldlM (I := fun _ (l : List k.State) => l.length = states.length) rfl
  intro done e rest hl l hlen
  have hlt : e.2 < l.length := hlen ▸ h e (by simp [hl])
  exact ⟨_, if_pos hlt, by simpa using hlen⟩

/-- `Resize` to at least as many groups. -/
theorem resize_sizes {t k g : ℕ} (ht : f.sizes[t]? = some k) (hg : k ≤ g) :
    ∃ f', f.resize P g t = some f' ∧ f'.toAggregationFunction = f.toAggregationFunction ∧
      f'.sizes = f.sizes.set t g := by
  obtain ⟨states, hstates, rfl⟩ := exists_states ht
  refine ⟨{ f with threadStates := f.threadStates.set t (states ++
    List.replicate (g - states.length) (f.kind.accumulator P).init) }, ?_, rfl, ?_⟩
  · rw [resize, hstates, Option.map_some]
  simp only [sizes, List.map_set, List.length_append, List.length_replicate,
    Nat.add_sub_cancel' hg]

/-- `Update` of a batch on one thread. -/
theorem update_sizes {b : RecordBatch} (hb : b.WellFormed) (hf : f.Placed b.types) {t g : ℕ}
    (ht : f.sizes[t]? = some g) {gids : List ℕ} (hlen : gids.length = b.rows.length)
    (hgids : ∀ i ∈ gids, i < g) :
    ∃ f', f.update P b gids t = some f' ∧ f'.toAggregationFunction = f.toAggregationFunction ∧
      f'.sizes = f.sizes := by
  obtain ⟨states, hstates, rfl⟩ := exists_states ht
  obtain ⟨states', hstates', hlen'⟩ := @updateStates_length P _ states
    ((b.rows.map f.argument).zip gids) fun e he => hgids _ (List.of_mem_zip he).2
  refine ⟨{ f with threadStates := f.threadStates.set t states' }, ?_, rfl, ?_⟩
  · simp [update, hstates, hf.inputs_eq hb, hlen, hstates']
  · rw [sizes, List.map_set, hlen']
    exact set_of_getElem? ht

/-- `Resize` and `Update` of a batch on one thread. -/
theorem sink_sizes {b : RecordBatch} (hb : b.WellFormed) (hf : f.Placed b.types) {t k : ℕ}
    (ht : f.sizes[t]? = some k) {g : ℕ} (hg : k ≤ g) {gids : List ℕ}
    (hlen : gids.length = b.rows.length) (hgids : ∀ i ∈ gids, i < g) :
    ∃ f', ((f.resize P g t).bind fun f => f.update P b gids t) = some f' ∧
      f'.toAggregationFunction = f.toAggregationFunction ∧ f'.sizes = f.sizes.set t g := by
  obtain ⟨f', hf', hspec, hsizes⟩ := resize_sizes (P := P) ht hg
  have ht' : f'.sizes[t]? = some g := by
    rw [hsizes, List.getElem?_set_self (List.getElem?_eq_some_iff.mp ht).1]
  have hplaced : f'.Placed b.types := hspec ▸ hf
  obtain ⟨f'', hf'', hspec', hsizes'⟩ := update_sizes (P := P) hb hplaced ht' hlen hgids
  exact ⟨f'', by rw [hf', Option.bind_some, hf''], hspec'.trans hspec, hsizes'.trans hsizes⟩

/-- `CombineState` into the states of thread 0. -/
theorem combineState_sizes {src gid target k g : ℕ} (hsrc : f.sizes[src]? = some k) (hgid : gid < k)
    (hglob : f.sizes[0]? = some g) (htarget : target < g) :
    ∃ f', f.combineState P src gid target = some f' ∧
      f'.toAggregationFunction = f.toAggregationFunction ∧ f'.sizes = f.sizes := by
  obtain ⟨states, hstates, rfl⟩ := exists_states hsrc
  obtain ⟨glob, hg, rfl⟩ := exists_states hglob
  set glob' := glob.modify target fun s => (f.kind.accumulator P).merge s states[gid] with hglob'
  refine ⟨{ f with threadStates := f.threadStates.set 0 glob' }, ?_, rfl, ?_⟩
  · simp [combineState, hstates, List.getElem?_eq_getElem hgid, hg, modifyAt, htarget, hglob']
  · rw [sizes, List.map_set, hglob', List.length_modify]
    exact set_of_getElem? hglob

/-- `Resize` of thread 0 by one group and `CombineState` into it. -/
theorem newGroup_sizes {g k src gid target : ℕ} {others : List ℕ} (hf : f.sizes = g :: others)
    (hsrc : others[src]? = some k) (hgid : gid < k) (htarget : target < g + 1) :
    ∃ f', ((f.resize P (g + 1) 0).bind fun f => f.combineState P (src + 1) gid target) = some f' ∧
      f'.toAggregationFunction = f.toAggregationFunction ∧ f'.sizes = (g + 1) :: others := by
  obtain ⟨f', hf', hspec, hsizes⟩ := resize_sizes (P := P) (f := f) (t := 0) (k := g)
    (g := g + 1) (by rw [hf]; rfl) (Nat.le_succ g)
  rw [hf, List.set_cons_zero] at hsizes
  obtain ⟨f'', hf'', hspec', hsizes'⟩ := @combineState_sizes P f' (src + 1) _ _ _ _
    (by rw [hsizes]; exact hsrc) hgid (by rw [hsizes]; rfl) htarget
  exact ⟨f'', by rw [hf', Option.bind_some, hf''], hspec'.trans hspec, hsizes'.trans hsizes⟩

end GroupedAggregationFunction

/-! ## GROUP BY: one thread -/

/-- The group ids and the key builders of a thread agree with its number of groups. The builders
are made at the first `Sink`. -/
structure GroupByThreadState.Sized (keyTypes : List ColumnType) (s : GroupByThreadState) :
    Prop where
  ids : ∀ e ∈ s.hashTable, e.2 < s.numGroups
  builders : BuildersSized keyTypes s.numGroups s.keyBuilders ∨
    s.keyBuilders = [] ∧ s.numGroups = 0

namespace GroupBySinkSourceOperator

variable {P : Platform}

theorem ensureBuilders_sized {op : GroupBySinkSourceOperator} {s : GroupByThreadState}
    (h : s.Sized op.keyTypes) :
    BuildersSized op.keyTypes s.numGroups (op.ensureBuilders s.keyBuilders) := by
  unfold ensureBuilders
  split_ifs with hempty
  · obtain hnil := List.isEmpty_iff.mp hempty
    rcases h.builders with hsized | ⟨-, hzero⟩
    · rw [hnil] at hsized
      have hkt : op.keyTypes = [] := by simpa using hsized.1.symm
      rw [hkt] at hsized ⊢
      exact hsized
    · rw [hzero]
      exact buildersSized_make _
  · rcases h.builders with hsized | ⟨hnil, -⟩
    · exact hsized
    · simp [hnil] at hempty

/-- The id found for a key is the id of an entry. -/
theorem mem_of_lookup {table : HashTable} {key : Bytes} {gid : ℕ}
    (h : table.lookup key = some gid) : (key, gid) ∈ table := by
  obtain ⟨l₁, l₂, rfl, -⟩ := List.lookup_eq_some_iff.mp h
  simp

/-- What the loop over the composite keys has written after `m` rows, as far as sizes go. -/
structure AssignedSized (b : RecordBatch) (start m : ℕ) (a : Assignment) : Prop where
  ids : ∀ e ∈ a.hashTable, e.2 < a.numGroups
  num : a.numGroups = start + a.newGroupIndices.length
  length : a.groupIds.length = m
  lt : ∀ g ∈ a.groupIds, g < a.numGroups
  selected : ∀ i ∈ a.newGroupIndices, i ∈ b.selected

/-- One row of the loop. -/
theorem assignGroup_sized {b : RecordBatch} {start m : ℕ} (hm : m < b.selected.length)
    {a : Assignment} (ha : AssignedSized b start m a) (key : Bytes) :
    ∃ a', assignGroup b a (key, m) = some a' ∧ AssignedSized b start (m + 1) a' := by
  unfold assignGroup
  cases hlookup : a.hashTable.lookup key with
  | some gid =>
      refine ⟨_, rfl, ha.ids, ha.num, by simp [ha.length], ?_, ha.selected⟩
      intro g hg
      rcases List.mem_append.mp hg with hg | hg
      · exact ha.lt g hg
      · rw [List.mem_singleton.mp hg]
        exact ha.ids _ (mem_of_lookup hlookup)
  | none =>
      have hle : toUInt32 a.numGroups < a.numGroups + 1 := Nat.lt_succ_of_le (toUInt32_le _)
      refine ⟨_, by rw [actualIdx_eq hm, Option.map_some], ?_, ?_, by simp [ha.length], ?_, ?_⟩
      · intro e he
        rcases List.mem_append.mp he with he | he
        · exact (ha.ids e he).trans (Nat.lt_succ_self _)
        · rw [List.mem_singleton.mp he]
          exact hle
      · simp only [List.length_append, List.length_singleton, ha.num, Nat.add_assoc]
      · intro g hg
        rcases List.mem_append.mp hg with hg | hg
        · exact (ha.lt g hg).trans (Nat.lt_succ_self _)
        · rw [List.mem_singleton.mp hg]
          exact hle
      · intro i hi
        rcases List.mem_append.mp hi with hi | hi
        · exact ha.selected i hi
        · rw [List.mem_singleton.mp hi]
          exact List.getElem_mem hm

/-- The loop over one composite key for each row. -/
theorem assignGroups_sized {b : RecordBatch} {keys : List Bytes}
    (hkeys : keys.length = b.selected.length) {table : HashTable} {start : ℕ}
    (hids : ∀ e ∈ table, e.2 < start) :
    ∃ a, keys.zipIdx.foldlM (assignGroup b) ⟨table, start, [], []⟩ = some a ∧
      AssignedSized b start b.selected.length a := by
  rw [← hkeys]
  apply exists_foldlM_zipIdx (n := 0) (I := AssignedSized b start) (Nat.zero_le _)
    ⟨hids, rfl, rfl, by simp, by simp⟩
  intro m hm _ a ha
  exact assignGroup_sized (hkeys ▸ hm) ha keys[m]

/-! ## GROUP BY: all threads -/

/-- The threads and the aggregation functions agree on the numbers of groups. -/
structure Sized (idxs : List ℕ) (keyTypes : List ColumnType) (aggs : List AggregationFunction)
    (n : ℕ) (op : GroupBySinkSourceOperator) : Prop where
  indices : op.groupByColIndices = idxs
  keyTypes_eq : op.keyTypes = keyTypes
  specs : op.aggFuncs.map (fun f => f.toAggregationFunction) = aggs
  threads : op.threadStates.length = n
  thread : ∀ s ∈ op.threadStates, s.Sized keyTypes
  funcs : ∀ f ∈ op.aggFuncs, f.sizes = op.threadStates.map GroupByThreadState.numGroups
  silent : op.emitted = false

section Sized

variable {types keyTypes : List ColumnType} {idxs : List ℕ} {aggs : List AggregationFunction}
  {n : ℕ} {op : GroupBySinkSourceOperator}

theorem create_sized (idxs : List ℕ) (keyTypes : List ColumnType) (aggs : List AggregationFunction)
    (n : ℕ) : Sized idxs keyTypes aggs n (create idxs keyTypes aggs n) where
  indices := rfl
  keyTypes_eq := rfl
  specs := by simp [create, GroupedAggregationFunction.create, Function.comp_def]
  threads := by simp [create]
  thread := by
    intro s hs
    obtain ⟨-, rfl⟩ := List.mem_replicate.mp hs
    exact ⟨by simp, Or.inr ⟨rfl, rfl⟩⟩
  funcs := by
    intro f hf
    obtain ⟨a, -, rfl⟩ := List.mem_map.mp hf
    simp [GroupedAggregationFunction.create, GroupedAggregationFunction.sizes, create]
  silent := rfl

/-- **A `Sink` call** keeps all sizes in agreement. -/
theorem sink_sized (hkeys : KeyColumns types idxs keyTypes) (haggs : ∀ f ∈ aggs, f.Placed types)
    (h : Sized idxs keyTypes aggs n op) {b : RecordBatch} (hb : b.WellFormed)
    (hbt : b.types = types) {t : ℕ} (ht : t < n) :
    ∃ op', op.sink P b t = some op' ∧ Sized idxs keyTypes aggs n op' := by
  subst hbt
  obtain ⟨rfl, rfl, rfl, rfl, hthread, hfuncs, hsilent⟩ := h
  set s := op.threadStates[t] with hs
  have hst : op.threadStates[t]? = some s := List.getElem?_eq_getElem ht
  have hsized := hthread s (List.getElem_mem ht)
  obtain ⟨a, ha, hassigned⟩ := @assignGroups_sized b
    (b.rows.map fun r => encodeKey op.keyTypes (keyOf op.groupByColIndices r))
    (by simp [RecordBatch.rows]) _ _ hsized.ids
  obtain ⟨builders', hbuilders', hsized'⟩ : ∃ builders',
      op.copyNewKeys b (op.ensureBuilders s.keyBuilders) a.newGroupIndices = some builders' ∧
        BuildersSized op.keyTypes a.numGroups builders' := by
    have hold := ensureBuilders_sized hsized
    unfold copyNewKeys
    split_ifs with hempty
    · have hnum := hassigned.num
      rw [List.isEmpty_iff.mp hempty, List.length_nil, Nat.add_zero] at hnum
      exact ⟨_, rfl, hnum ▸ hold⟩
    · obtain ⟨srcs, hsrcs, htypes, hvisit⟩ := gather_keyColumns hb hkeys hassigned.selected
      have hlen : op.groupByColIndices.length = (op.ensureBuilders s.keyBuilders).length := by
        rw [hkeys.length_eq, ← hold.1, List.length_map, List.length_map]
      rw [hsrcs, Option.bind_some, hlen, hassigned.num]
      apply copyColumns_sized hold htypes
      intro c hc
      obtain ⟨j, hj, rfl⟩ := List.getElem_of_mem hc
      exact ⟨_, hvisit j hj, by simp⟩
  obtain ⟨funcs', hfuncs', hspecs, hsizes⟩ := exists_mapM_keep (l := op.aggFuncs)
    (f := fun f => (f.resize P a.numGroups t).bind fun f => f.update P b a.groupIds t)
    (g := fun f => f.toAggregationFunction) (k := fun f => f.toAggregationFunction)
    (Q := fun f => f.sizes = (op.threadStates.map GroupByThreadState.numGroups).set t a.numGroups)
    (by
      intro f hf
      have hplaced := haggs f.toAggregationFunction (List.mem_map_of_mem hf)
      rw [← hfuncs f hf]
      refine GroupedAggregationFunction.sink_sizes hb hplaced (k := s.numGroups) ?_ ?_ ?_
        hassigned.lt
      · rw [hfuncs f hf, List.getElem?_map, hst, Option.map_some]
      · rw [hassigned.num]
        exact Nat.le_add_right _ _
      · simp [hassigned.length, RecordBatch.rows])
  refine ⟨{ op with
      aggFuncs := funcs'
      threadStates := op.threadStates.set t ⟨a.hashTable, builders', a.numGroups⟩ }, ?_, ?_⟩
  · simp only [sink, hst, compositeKeys_eq hb hkeys, Option.bind_eq_bind, Option.bind_some,
      Option.pure_def]
    rw [ha, Option.bind_some, hbuilders', Option.bind_some, hfuncs', Option.bind_some]
  · refine ⟨rfl, rfl, hspecs, by simp, ?_, ?_, hsilent⟩
    · intro s' hs'
      rcases List.mem_or_eq_of_mem_set hs' with hs' | rfl
      · exact hthread s' hs'
      · exact ⟨hassigned.ids, Or.inl hsized'⟩
    · intro f' hf'
      rw [hsizes f' hf', List.map_set]

/-! ## GROUP BY: the merge -/

/-- The merge so far: the groups of thread 0 agree with the states, those of the other threads are
untouched. -/
structure Merge.Sized (keyTypes : List ColumnType) (aggs : List AggregationFunction)
    (others : List ℕ) (m : Merge) : Prop where
  ids : ∀ e ∈ m.glob.hashTable, e.2 < m.glob.numGroups
  builders : BuildersSized keyTypes m.glob.numGroups m.glob.keyBuilders
  specs : m.aggFuncs.map (fun f => f.toAggregationFunction) = aggs
  funcs : ∀ f ∈ m.aggFuncs, f.sizes = m.glob.numGroups :: others

/-- One entry of the hash table of thread `t + 1`. -/
theorem mergeEntry_sized {others : List ℕ} {m : Merge} (h : m.Sized keyTypes aggs others) {t k : ℕ}
    (ht : others[t]? = some k) {localKeyCols : List Column}
    (hcols : ColumnsSized keyTypes k localKeyCols) {entry : Bytes × ℕ} (he : entry.2 < k) :
    ∃ m', mergeEntry P (t + 1) localKeyCols m entry = some m' ∧ m'.Sized keyTypes aggs others := by
  obtain ⟨hids, hbuilders, rfl, hfuncs⟩ := h
  unfold mergeEntry
  cases hlookup : m.glob.hashTable.lookup entry.1 with
  | some target =>
      obtain ⟨funcs', hfuncs', hspecs, hsizes⟩ := exists_mapM_keep (l := m.aggFuncs)
        (f := fun f => f.combineState P (t + 1) entry.2 target)
        (g := fun f => f.toAggregationFunction) (k := fun f => f.toAggregationFunction)
        (Q := fun f => f.sizes = m.glob.numGroups :: others)
        (by
          intro f hf
          rw [← hfuncs f hf]
          exact GroupedAggregationFunction.combineState_sizes
            (by rw [hfuncs f hf]; exact ht) he (by rw [hfuncs f hf]; rfl)
            (hids _ (mem_of_lookup hlookup)))
      exact ⟨{ m with aggFuncs := funcs' }, by simp [hfuncs'], hids, hbuilders, hspecs, hsizes⟩
  | none =>
      set g := m.glob.numGroups with hg
      obtain ⟨builders', hbuilders', hsized'⟩ := @copyColumns_sized _ 1
        (some [entry.2]) _ _ _ hbuilders hcols.1 (by
          intro c hc
          have hlt : entry.2 < c.data.length := by
            have hsize := hcols.2 c hc
            unfold Column.size at hsize
            omega
          exact ⟨[c.data[entry.2]], by simp [Column.visit, gather, hlt], rfl⟩)
      have htarget : toUInt32 g < g + 1 := Nat.lt_succ_of_le (toUInt32_le _)
      obtain ⟨funcs', hfuncs', hspecs, hsizes⟩ := exists_mapM_keep (l := m.aggFuncs)
        (f := fun f => (f.resize P (g + 1) 0).bind fun f =>
          f.combineState P (t + 1) entry.2 (toUInt32 g))
        (g := fun f => f.toAggregationFunction) (k := fun f => f.toAggregationFunction)
        (Q := fun f => f.sizes = (g + 1) :: others)
        (fun f hf => GroupedAggregationFunction.newGroup_sizes (hfuncs f hf) ht he htarget)
      refine ⟨⟨⟨m.glob.hashTable ++ [(entry.1, toUInt32 g)], builders', g + 1⟩, funcs'⟩, ?_, ?_,
        hsized', hspecs, hsizes⟩
      · simp only [Option.bind_eq_bind, hbuilders', Option.bind_some, hfuncs', Option.pure_def]
      · intro e he'
        rcases List.mem_append.mp he' with he' | he'
        · exact (hids e he').trans (Nat.lt_succ_self _)
        · rw [List.mem_singleton.mp he']
          exact htarget

/-- The loop over the hash table of thread `t + 1`. -/
theorem mergeThread_sized (ord : IterationOrder) {others : List ℕ} {m : Merge}
    (h : m.Sized keyTypes aggs others) {s : GroupByThreadState} (hs : s.Sized keyTypes) {t : ℕ}
    (ht : others[t]? = some s.numGroups) :
    ∃ m', mergeThread P ord m (s, t + 1) = some m' ∧ m'.Sized keyTypes aggs others := by
  unfold mergeThread
  split_ifs with hzero
  · exact ⟨m, rfl, h⟩
  · have hcols : ColumnsSized keyTypes s.numGroups (s.keyBuilders.map ColumnBuilder.finish) := by
      rcases hs.builders with hsized | ⟨-, hnum⟩
      · exact hsized
      · exact absurd hnum hzero
    apply exists_foldlM (I := fun _ (m : Merge) => m.Sized keyTypes aggs others) h
    intro done e rest hl m' hm'
    refine mergeEntry_sized hm' ht hcols (hs.ids e ?_)
    rw [← (ord.perm s.hashTable).mem_iff, hl]
    simp

/-- **`Finalize`** writes keys and aggregates, one entry for each group. -/
theorem finalize_layout (ord : IterationOrder) (hn : 0 < n) (haggs : ∀ f ∈ aggs, f.Placed types)
    (h : Sized idxs keyTypes aggs n op) :
    ∃ op' b, op.finalize P ord = some op' ∧ op'.getData.1 = some b ∧
      b.HasLayout (keyTypes ++ aggs.map AggregationFunction.columnType) := by
  obtain ⟨rfl, rfl, hspecs, rfl, hthread, hfuncs, hsilent⟩ := h
  cases hts : op.threadStates with
  | nil => simp [hts] at hn
  | cons glob ts =>
      rw [hts] at hthread hfuncs
      obtain ⟨m, hm, hmerged⟩ := exists_foldlM_zipIdx (l := glob :: ts) (n := 1)
        (f := mergeThread P ord) (I := fun _ (m : Merge) =>
          m.Sized op.keyTypes aggs (ts.map GroupByThreadState.numGroups))
        (s := ⟨{ glob with keyBuilders := op.ensureBuilders glob.keyBuilders }, op.aggFuncs⟩)
        (Nat.succ_pos _)
        ⟨(hthread glob List.mem_cons_self).ids,
          ensureBuilders_sized (hthread glob List.mem_cons_self), hspecs, hfuncs⟩
        (by
          intro i hi hpos m hm
          obtain ⟨t, rfl⟩ := Nat.exists_eq_add_of_le' hpos
          have ht : t < ts.length := Nat.lt_of_succ_lt_succ hi
          apply mergeThread_sized ord hm (hthread _ (List.getElem_mem hi))
          rw [List.getElem?_map, List.getElem?_eq_getElem ht]
          rfl)
      obtain ⟨columns, hcolumns, hall⟩ := exists_mapM (l := m.aggFuncs)
        (f := fun f => f.finalize P)
        (Q := fun f c => c.type = f.columnType ∧ c.size = m.glob.numGroups)
        (by
          intro f hf
          have hplaced : f.Placed types := haggs _ (hmerged.specs ▸ List.mem_map_of_mem hf)
          obtain ⟨states, hstates, hlen⟩ :=
            GroupedAggregationFunction.exists_states (t := 0) (by rw [hmerged.funcs f hf]; rfl)
          obtain ⟨c, hc, htype, hsize⟩ :=
            AggregationFunction.finalize_sized (P := P) hplaced states
          exact ⟨c, by rw [GroupedAggregationFunction.finalize, hstates, Option.bind_some, hc],
            htype, hsize.trans hlen⟩)
      have hsized := @columnsSized_of_forall₂ _ columns _
        (List.forall₂_map_left_iff.mpr hall)
      rw [hmerged.specs] at hsized
      set b : RecordBatch :=
        ⟨m.glob.numGroups, none, m.glob.keyBuilders.map ColumnBuilder.finish ++ columns⟩ with hb
      refine ⟨{ op with aggFuncs := m.aggFuncs, resultBatch := some b }, b, ?_, ?_,
        hmerged.builders.append hsized⟩
      · simp only [finalize, hts, List.getElem?_cons_zero, Option.bind_eq_bind, Option.bind_some]
        rw [hm, Option.bind_some, hcolumns, Option.bind_some]
        rfl
      · simp [getData, hsilent]

/-- **Every run** of GROUP BY emits the key columns and one column for each function. -/
theorem emits_layout (ord : IterationOrder) (hn : 0 < n) (hkeys : KeyColumns types idxs keyTypes)
    (haggs : ∀ f ∈ aggs, f.Placed types) {calls : List (RecordBatch × ℕ)}
    (hcalls : ValidCalls types n calls) :
    ∃ op op' b, (create idxs keyTypes aggs n).sinkAll P calls = some op ∧
      op.finalize P ord = some op' ∧ op'.getData.1 = some b ∧
      b.HasLayout (keyTypes ++ aggs.map AggregationFunction.columnType) := by
  obtain ⟨op, hop, hsized⟩ := exists_foldlM (l := calls) (s := create idxs keyTypes aggs n)
    (f := fun op c => op.sink P c.1 c.2) (I := fun _ op => Sized idxs keyTypes aggs n op)
    (create_sized idxs keyTypes aggs n)
    (by
      intro done c rest hl op h
      obtain ⟨hb, hbt, ht⟩ := hcalls c (by simp [hl])
      exact sink_sized hkeys haggs h hb hbt ht)
  obtain ⟨op', b, hop', hdata, hlayout⟩ := finalize_layout (P := P) ord hn haggs hsized
  exact ⟨op, op', b, hop, hop', hdata, hlayout⟩

end Sized

end GroupBySinkSourceOperator

end ColumnarEngine
