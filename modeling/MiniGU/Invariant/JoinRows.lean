import MiniGU.Invariant.GroupedRows
import MiniGU.Model.HashJoin

/-!
# The rows of a hash join

Where the keys of all physical rows can be read, the hash table has the places of the left rows
under their keys (`build_ok`), and the chunks of the right side are joined with the rows that they
find there, those apart that the filter of their own chunk drops (`probe_ok`). Where some key
cannot be read, the join fails (`build_fails`, `probe_fails`).
-/

namespace MiniGU

section JoinRows

variable {E Ty Val F32 F64 : Type}

/-! ## Keys -/

/-- The value of an evaluated expression at a row. -/
def DatumRef.valueAt (d : DatumRef Ty Val) (i : Nat) : Option Val :=
  d.array.values[if d.isScalar then 0 else i]?

namespace StreamExecutor

/-- The key of a row. -/
def keysAt (ds : List (DatumRef ArrayType (Value F32 F64))) (i : Nat) : GroupKey F32 F64 :=
  ds.filterMap fun d => d.valueAt i

/-- The key expressions can be evaluated on the chunks, each to a value for every row or to one for
all of them. -/
structure Evaluates (evals : List (KeyEvaluator E Ty Val F32 F64)) (cs : List (DataChunk Ty Val))
    (keys : DataChunk Ty Val → List (DatumRef ArrayType (Value F32 F64))) : Prop where
  ok : ∀ c ∈ cs, evals.map (fun e => e c) = (keys c).map .ok
  lengths : ∀ c ∈ cs, ∀ d ∈ keys c, d.array.values.length = if d.isScalar then 1 else c.len

/-- The rows of the chunk can be numbered, and their keys read: there are values in a type that is
indexed, and no scalar stands for two rows. -/
def Indexable (keys : DataChunk Ty Val → List (DatumRef ArrayType (Value F32 F64)))
    (c : DataChunk Ty Val) : Prop :=
  c.len ≤ 2 ^ 32 ∧
    (c.len ≠ 0 → ∀ d ∈ keys c, d.array.dataType ≠ .other ∧ (d.isScalar = true → c.len ≤ 1))

variable {evals : List (KeyEvaluator E Ty Val F32 F64)} {cs : List (DataChunk Ty Val)}
  {keys : DataChunk Ty Val → List (DatumRef ArrayType (Value F32 F64))} {c : DataChunk Ty Val}

theorem index_ok {a : ValueArray F32 F64} (hType : a.dataType ≠ .other) (i : Nat) :
    a.index (E := E) i = match a.values[i]? with
      | some v => .ok v
      | none => .error .panicked := by
  unfold ArrayRef.index
  cases hTy : a.dataType with
  | other => exact absurd hTy hType
  | scalar t => rfl
  | vector d => rfl

section Keys

variable (h : Evaluates evals cs keys) (hc : c ∈ cs)

include h hc

theorem keyColumns_eq : keyColumns evals c = .ok ((keys c).map DatumRef.array) := by
  rw [keyColumns, mapM_ok_iff]
  have hMap := congrArg (List.map fun r => Except.map DatumRef.array r) (h.ok c hc)
  rw [List.map_map, List.map_map] at hMap
  rw [List.map_map]
  exact hMap

/-- The key of a row is made of the values of its key columns. -/
theorem makeJoinKey_ok (hIndex : Indexable keys c) {i : Nat} (hi : i < c.len) :
    makeJoinKey (E := E) ((keys c).map DatumRef.array) i = .ok (keysAt (keys c) i) := by
  rw [makeJoinKey, mapM_ok_iff, keysAt, List.map_map]
  have hValue : ∀ d ∈ keys c, ∃ v, d.valueAt i = some v ∧ d.array.index (E := E) i = .ok v := by
    intro d hd
    obtain ⟨hType, hScalar⟩ := hIndex.2 (by omega) d hd
    have hLength := h.lengths c hc d hd
    have hPlace : (if d.isScalar then 0 else i) = i := by
      split
      · rename_i hIs
        have hOne := hScalar hIs
        omega
      · rfl
    have hLt : i < d.array.values.length := by
      rw [hLength]
      split
      · rename_i hIs
        have hOne := hScalar hIs
        omega
      · exact hi
    refine ⟨d.array.values[i], ?_, ?_⟩
    · rw [DatumRef.valueAt, hPlace, List.getElem?_eq_getElem hLt]
    · rw [index_ok hType, List.getElem?_eq_getElem hLt]
  have hSome : ∀ d ∈ keys c, (d.valueAt i).isSome = true := by
    intro d hd
    obtain ⟨v, hv, -⟩ := hValue d hd
    rw [hv]
    rfl
  have hMap := congrArg (List.map fun o => (o.map Except.ok).getD (Except.error (Fault.panicked (E := E))))
    (map_some_filterMap hSome)
  rw [List.map_map, List.map_map] at hMap
  refine Eq.trans ?_ hMap.symm
  refine List.map_congr_left fun d hd => ?_
  obtain ⟨v, hv, hIndexed⟩ := hValue d hd
  show d.array.index i = _
  rw [hIndexed, Function.comp_apply, hv]
  rfl

/-- Where the rows cannot all be read, reading some row fails. -/
theorem makeJoinKey_fails (hIndex : ¬Indexable keys c) :
    ∃ i, i < c.len ∧ (2 ^ 32 ≤ i ∨
      ∃ e, makeJoinKey (E := E) ((keys c).map DatumRef.array) i = .error e) := by
  by_cases hLen : c.len ≤ 2 ^ 32
  · have hBad : c.len ≠ 0 ∧ ∃ d ∈ keys c, d.array.dataType = .other ∨
        (d.isScalar = true ∧ 1 < c.len) := by
      by_contra hNone
      refine hIndex ⟨hLen, fun hPos d hd => ?_⟩
      rw [not_and] at hNone
      have hAll := hNone hPos
      refine ⟨fun hType => hAll ⟨d, hd, .inl hType⟩, fun hScalar => ?_⟩
      by_contra hTwo
      exact hAll ⟨d, hd, .inr ⟨hScalar, by omega⟩⟩
    obtain ⟨hPos, d, hd, hBad⟩ := hBad
    -- the first row of an array of another type, the second of a scalar
    rcases hBad with hType | ⟨hScalar, hTwo⟩
    · refine ⟨0, by omega, .inr (mapM_fails (List.mem_map_of_mem hd) ⟨.panicked, ?_⟩)⟩
      unfold ArrayRef.index
      rw [hType]
    · refine ⟨1, hTwo, .inr (mapM_fails (List.mem_map_of_mem hd) ⟨.panicked, ?_⟩)⟩
      have hLength := h.lengths c hc d hd
      rw [if_pos hScalar] at hLength
      unfold ArrayRef.index
      cases d.array.dataType with
      | other => rfl
      | scalar t => rw [List.getElem?_eq_none (by omega)]
      | vector n => rw [List.getElem?_eq_none (by omega)]
  · exact ⟨2 ^ 32, by omega, .inl (Nat.le_refl _)⟩

end Keys

theorem toU32_ok {n : Nat} (h : n < 2 ^ 32) : toU32 (E := E) n = .ok n := if_pos h

theorem toU32_fails {n : Nat} (h : 2 ^ 32 ≤ n) : toU32 (E := E) n = .error .panicked :=
  if_neg (by omega)

/-! ## The hash table -/

section Build

variable [DecidableEq F32] [DecidableEq F64] (ops : FloatOps F32 F64)

/-- The rows of a chunk, each as its place and key. -/
def places (keys : DataChunk Ty Val → List (DatumRef ArrayType (Value F32 F64)))
    (p : DataChunk Ty Val × Nat) : List ((Nat × Nat) × GroupKey F32 F64) :=
  (List.range p.1.len).map fun i => ((p.2, i), keysAt (keys p.1) i)

/-- The places in the table. -/
def tableOfPlaces (places : List ((Nat × Nat) × GroupKey F32 F64))
    (table : List (GroupKey F32 F64 × List (Nat × Nat))) :
    List (GroupKey F32 F64 × List (Nat × Nat)) :=
  places.foldl (fun t p => pushEntry (sameKey ops) p.2 p.1 t) table

theorem buildChunk_ok (h : Evaluates evals cs keys) (hc : c ∈ cs) (hIndex : Indexable keys c)
    {side : BuildSide Ty Val F32 F64} (hId : side.chunks.length < 2 ^ 32) :
    buildChunk ops evals side c =
      .ok ⟨tableOfPlaces ops (places keys (c, side.chunks.length)) side.hashTable,
        side.chunks ++ [c]⟩ := by
  have hLoop : (List.range c.len).foldlM (fun table row => do
      let rowId ← toU32 (E := E) row
      let key ← makeJoinKey ((keys c).map DatumRef.array) row
      .ok (pushEntry (sameKey ops) key (side.chunks.length, rowId) table)) side.hashTable =
      .ok (tableOfPlaces ops (places keys (c, side.chunks.length)) side.hashTable) := by
    rw [tableOfPlaces, places, List.foldl_map]
    refine foldlM_eq_ok (fun i hi t => ?_) _
    have hLt := List.mem_range.mp hi
    rw [toU32_ok (Nat.lt_of_lt_of_le hLt hIndex.1), ok_bind, makeJoinKey_ok h hc hIndex hLt, ok_bind]
  rw [buildChunk, keyColumns_eq h hc, ok_bind, toU32_ok hId, ok_bind, hLoop, ok_bind]

theorem buildChunk_fails (h : Evaluates evals cs keys) (hc : c ∈ cs) (hIndex : ¬Indexable keys c)
    (side : BuildSide Ty Val F32 F64) : ∃ e, buildChunk ops evals side c = .error e := by
  rw [buildChunk, keyColumns_eq h hc, ok_bind]
  cases toU32 (E := E) side.chunks.length with
  | error e => exact ⟨e, rfl⟩
  | ok id =>
    obtain ⟨i, hi, hBad⟩ := makeJoinKey_fails h hc hIndex
    obtain ⟨e, he⟩ := foldlM_fails (f := fun table row => do
      let rowId ← toU32 (E := E) row
      let key ← makeJoinKey ((keys c).map DatumRef.array) row
      .ok (pushEntry (sameKey ops) key (id, rowId) table)) (List.mem_range.mpr hi) (fun t => by
        rcases hBad with hLarge | ⟨e, he⟩
        · exact ⟨.panicked, by rw [toU32_fails hLarge]; rfl⟩
        · cases hU : toU32 (E := E) i with
          | error e' => exact ⟨e', rfl⟩
          | ok n => exact ⟨e, by rw [ok_bind, he]; rfl⟩) side.hashTable
    refine ⟨e, ?_⟩
    rw [ok_bind, he]
    rfl

/-- The left side can be built: chunks and rows can be numbered, and keys read. -/
def Buildable (keys : DataChunk Ty Val → List (DatumRef ArrayType (Value F32 F64)))
    (cs : List (DataChunk Ty Val)) : Prop :=
  cs.length ≤ 2 ^ 32 ∧ ∀ c ∈ cs, Indexable keys c

theorem build_from (h : Evaluates evals cs keys) {rest : List (DataChunk Ty Val)}
    (hRest : ∀ c ∈ rest, c ∈ cs) (hIndex : ∀ c ∈ rest, Indexable keys c)
    (side : BuildSide Ty Val F32 F64) (hLength : side.chunks.length + rest.length ≤ 2 ^ 32) :
    (rest.map (.ok (ε := Fault E))).foldlM (fun side item => do
        let chunk ← item
        buildChunk ops evals side chunk) side =
      .ok ⟨tableOfPlaces ops ((rest.zipIdx side.chunks.length).flatMap (places keys)) side.hashTable,
        side.chunks ++ rest⟩ := by
  induction rest generalizing side with
  | nil => simp [tableOfPlaces, pure, Except.pure]
  | cons c rest ih =>
    rw [List.length_cons] at hLength
    have hId : side.chunks.length < 2 ^ 32 := by omega
    have hc := buildChunk_ok ops h (hRest c List.mem_cons_self) (hIndex c List.mem_cons_self) hId
    rw [List.map_cons, List.foldlM_cons, ok_bind, hc, ok_bind,
      ih (fun d hd => hRest d (List.mem_cons_of_mem c hd))
        (fun d hd => hIndex d (List.mem_cons_of_mem c hd)) _
        (by rw [List.length_append, List.length_singleton]; omega)]
    simp only [tableOfPlaces, List.length_append, List.length_singleton, List.zipIdx_cons,
      List.flatMap_cons, List.foldl_append, List.append_assoc, List.cons_append, List.nil_append]

/-- The places of the left rows, each with its key. -/
def leftPlaces (keys : DataChunk Ty Val → List (DatumRef ArrayType (Value F32 F64)))
    (cs : List (DataChunk Ty Val)) : List ((Nat × Nat) × GroupKey F32 F64) :=
  cs.zipIdx.flatMap (places keys)

/-- The table has, under each key, the places of the rows of that key. -/
theorem build_ok (h : Evaluates evals cs keys) (hBuild : Buildable keys cs) :
    ∃ side : BuildSide Ty Val F32 F64, build ops evals (cs.map .ok) = .ok side ∧
      side.chunks = cs ∧ ∀ k, getEntry (sameKey ops) k side.hashTable =
        ((leftPlaces keys cs).filter fun p => sameKey ops p.2 k).map Prod.fst := by
  refine ⟨_, build_from ops h (fun _ hc => hc) hBuild.2 ⟨[], []⟩ (by simpa using hBuild.1), rfl,
    fun k => ?_⟩
  rw [tableOfPlaces, getEntry_foldl (sameKey_equivalence ops) Prod.snd Prod.fst]
  rfl

theorem build_fails (h : Evaluates evals cs keys) (hBuild : ¬Buildable keys cs) :
    ∃ e, build (E := E) ops evals (cs.map .ok) = .error e := by
  by_cases hIndex : ∀ c ∈ cs, Indexable keys c
  · -- the number of some chunk is too large
    have hLength : 2 ^ 32 < cs.length := by
      by_contra hSmall
      exact hBuild ⟨by omega, hIndex⟩
    obtain ⟨ds, d, rest, rfl, hDs⟩ : ∃ ds d rest, cs = ds ++ d :: rest ∧ ds.length = 2 ^ 32 := by
      refine ⟨cs.take (2 ^ 32), cs[2 ^ 32], cs.drop (2 ^ 32 + 1), ?_, ?_⟩
      · rw [List.getElem_cons_drop hLength, List.take_append_drop]
      · rw [List.length_take]
        omega
    have hIn : ∀ c ∈ ds, c ∈ ds ++ d :: rest := fun c hc => List.mem_append_left _ hc
    have hFirst := build_from ops h hIn (fun c hc => hIndex c (hIn c hc)) ⟨[], []⟩ (by simp [hDs])
    rw [build, List.map_append, List.foldlM_append, hFirst, ok_bind, List.map_cons, List.foldlM_cons,
      ok_bind, buildChunk, keyColumns_eq h (by simp), ok_bind, toU32_fails (by simp [hDs])]
    exact ⟨.panicked, rfl⟩
  · rw [not_forall₂] at hIndex
    obtain ⟨c, hc, hIndex⟩ := hIndex
    refine foldlM_fails (List.mem_map_of_mem hc) (fun side => ?_) _
    obtain ⟨e, he⟩ := buildChunk_fails ops h hc hIndex side
    exact ⟨e, he⟩

end Build

/-! ## Rows side by side -/

section Pairs

variable {schema schema' : List Ty} {left right : DataChunk Ty Val}

theorem keeps_taken (columns : List (ArrayRef Ty Val)) (hL : left.Aligned) {ids : List Nat}
    (hIds : ∀ i ∈ ids, i < left.len) {n : Nat} (hn : n < ids.length) :
    DataChunk.keeps ⟨columns, left.filter.map fun f => ids.filterMap fun i => f[i]?, some 0⟩ n =
      left.keeps ids[n] := by
  unfold DataChunk.keeps
  cases hf : left.filter with
  | none => rfl
  | some f =>
    have hFlagAt : ∀ i ∈ ids, (f[i]?).isSome = true := by
      intro i hi
      rw [List.getElem?_eq_getElem (by rw [hL.filter f hf]; exact hIds i hi)]
      rfl
    simp only [Option.map_some]
    rw [getElem?_filterMap hFlagAt, List.getElem?_eq_getElem hn]
    rfl

/-- Rows of two chunks side by side: the left filter goes along, the right one does not. -/
theorem joinPairs_ok (hLeft : OfSchema schema [left]) (hRight : OfSchema schema' [right])
    {chunks : List (DataChunk Ty Val)} {id : Nat} (hId : chunks[id]? = some left)
    {pairs : List (Nat × Nat)} (hPairs : ∀ p ∈ pairs, p.1 < left.len ∧ p.2 < right.len) :
    ∃ joined, joinPairs (E := E) chunks right id pairs = .ok joined ∧
      OfSchema (schema ++ schema') [joined] ∧
      joined.rows = (pairs.filter fun p => left.keeps p.1).map fun p =>
        left.rowAt p.1 ++ right.rowAt p.2 := by
  have hL := hLeft.aligned left List.mem_cons_self
  have hR := hRight.aligned right List.mem_cons_self
  have hLeftRows : ∀ i ∈ pairs.map Prod.fst, i < left.len := by
    intro i hi
    obtain ⟨p, hp, rfl⟩ := List.mem_map.mp hi
    exact (hPairs p hp).1
  have hRightRows : ∀ i ∈ pairs.map Prod.snd, i < right.len := by
    intro i hi
    obtain ⟨p, hp, rfl⟩ := List.mem_map.mp hi
    exact (hPairs p hp).2
  have hTakeLeft := takeRows_eq_columnsOf hL (hLeft.types left List.mem_cons_self) hLeftRows
  have hTakeRight := takeRows_eq_columnsOf hR (hRight.types right List.mem_cons_self) hRightRows
  have hFits : RowsFit schema ((pairs.map Prod.fst).map left.rowAt) := by
    intro row hRow
    obtain ⟨i, hi, rfl⟩ := List.mem_map.mp hRow
    rw [hL.length_rowAt (hLeftRows i hi), ← hLeft.types left List.mem_cons_self, List.length_map]
  have hFits' : RowsFit schema' ((pairs.map Prod.snd).map right.rowAt) := by
    intro row hRow
    obtain ⟨i, hi, rfl⟩ := List.mem_map.mp hRow
    rw [hR.length_rowAt (hRightRows i hi), ← hRight.types right List.mem_cons_self, List.length_map]
  have hSchema := hLeft.ne_nil (by simp)
  have hSchema' := hRight.ne_nil (by simp)
  have hTable := aligned_tableOf hSchema hFits
  have hTable' := aligned_tableOf hSchema' hFits'
  have hLen := len_tableOf hSchema hFits
  have hLen' := len_tableOf hSchema' hFits'
  simp only [List.length_map] at hLen hLen'
  -- the joined chunk
  let joined : DataChunk Ty Val :=
    ⟨columnsOf schema ((pairs.map Prod.fst).map left.rowAt) ++
        columnsOf schema' ((pairs.map Prod.snd).map right.rowAt),
      left.filter.map fun f => (pairs.map Prod.fst).filterMap fun i => f[i]?, some 0⟩
  have hLengths : ∀ a ∈ joined.columns, a.values.length = pairs.length := by
    intro a ha
    rcases List.mem_append.mp ha with ha | ha
    · rw [← hLen]
      exact hTable.lengths a ha
    · rw [← hLen']
      exact hTable'.lengths a ha
  have hColumns : joined.columns ≠ [] := by
    intro hNil
    exact hTable.columns (List.append_eq_nil_iff.mp hNil).1
  have hJoinedLen : joined.len = pairs.length := by
    obtain ⟨a, as, hCols⟩ := List.exists_cons_of_ne_nil hColumns
    rw [DataChunk.len, hCols]
    exact hLengths a (by rw [hCols]; exact List.mem_cons_self)
  have hFlagAt : ∀ f, left.filter = some f → ∀ i ∈ pairs.map Prod.fst, (f[i]?).isSome = true := by
    intro f hf i hi
    rw [List.getElem?_eq_getElem (by rw [hL.filter f hf]; exact hLeftRows i hi)]
    rfl
  refine ⟨joined, ?_, ⟨?_, ?_⟩, ?_⟩
  · have hTaken : take (E := E) left (pairs.map Prod.fst) = .ok
        ⟨columnsOf schema ((pairs.map Prod.fst).map left.rowAt),
          left.filter.map fun f => (pairs.map Prod.fst).filterMap fun i => f[i]?, some 0⟩ := by
      rw [take, if_pos, hTakeLeft]
      simpa only [List.all_eq_true, decide_eq_true_eq] using hLeftRows
    have hTaken' : ∃ r, take (E := E) right (pairs.map Prod.snd) = .ok r ∧
        r.columns = columnsOf schema' ((pairs.map Prod.snd).map right.rowAt) := by
      refine ⟨⟨columnsOf schema' ((pairs.map Prod.snd).map right.rowAt),
        right.filter.map fun f => (pairs.map Prod.snd).filterMap fun i => f[i]?, some 0⟩, ?_, rfl⟩
      rw [take, if_pos, hTakeRight]
      simpa only [List.all_eq_true, decide_eq_true_eq] using hRightRows
    obtain ⟨r, hTaken', hCols⟩ := hTaken'
    simp only [joinPairs, hId, hTaken, hTaken', ok_bind, hCols]
    rw [appendColumns, if_pos]
    rw [List.all_eq_true]
    intro a ha
    rw [beq_iff_eq]
    exact (hLengths a ha).trans hJoinedLen.symm
  · intro c hc
    rw [List.mem_singleton] at hc
    subst hc
    refine ⟨hColumns, fun a ha => (hLengths a ha).trans hJoinedLen.symm, fun f hf => ?_⟩
    obtain ⟨g, hg, rfl⟩ := Option.map_eq_some_iff.mp hf
    rw [length_filterMap (hFlagAt g hg), List.length_map, hJoinedLen]
  · intro c hc
    rw [List.mem_singleton] at hc
    subst hc
    show (columnsOf schema _ ++ columnsOf schema' _).map ArrayRef.dataType = _
    rw [List.map_append, types_columnsOf, types_columnsOf]
  · -- each physical row, with its flag
    have hFlagged : joined.flagged = pairs.map fun p =>
        (left.keeps p.1, left.rowAt p.1 ++ right.rowAt p.2) := by
      apply List.ext_getElem (by simp [hJoinedLen])
      intro i hi hi'
      have hIn : i < pairs.length := by simpa using hi'
      simp only [DataChunk.flagged, List.getElem_map, List.getElem_range, Prod.mk.injEq]
      refine ⟨?_, ?_⟩
      · have hKeeps := keeps_taken joined.columns hL hLeftRows (n := i) (by simpa using hIn)
        rw [List.getElem_map] at hKeeps
        exact hKeeps
      · have hRow := rowAt_tableOf hFits (i := i) (by simpa using hIn)
        have hRow' := rowAt_tableOf hFits' (i := i) (by simpa using hIn)
        simp only [List.getElem_map] at hRow hRow'
        have hSplit : joined.rowAt i =
            (tableOf schema ((pairs.map Prod.fst).map left.rowAt)).rowAt i ++
              (tableOf schema' ((pairs.map Prod.snd).map right.rowAt)).rowAt i :=
          List.filterMap_append
        rw [hSplit, hRow, hRow']
    rw [DataChunk.rows_eq_filter, hFlagged, List.filter_map, List.map_map]
    rfl

end Pairs

/-! ## Probing -/

section Probe

variable [DecidableEq F32] [DecidableEq F64] (ops : FloatOps F32 F64)
  {side : BuildSide Ty Val F32 F64}

theorem probeRows_ok (side : BuildSide Ty Val F32 F64) (h : Evaluates evals cs keys) (hc : c ∈ cs) (hIndex : Indexable keys c) :
    probeRows ops evals side c = .ok ((List.range c.len).flatMap fun i =>
      (getEntry (sameKey ops) (keysAt (keys c) i) side.hashTable).map fun (p : Nat × Nat) => (p.1, p.2, i)) := by
  have hRows : (List.range c.len).mapM (fun row => do
      let rowId ← toU32 (E := E) row
      let key ← makeJoinKey ((keys c).map DatumRef.array) row
      .ok ((getEntry (sameKey ops) key side.hashTable).map fun (p : Nat × Nat) =>
        (p.1, p.2, rowId))) =
      .ok ((List.range c.len).map fun i =>
        (getEntry (sameKey ops) (keysAt (keys c) i) side.hashTable).map fun (p : Nat × Nat) => (p.1, p.2, i)) := by
    refine mapM_eq_ok fun i hi => ?_
    have hLt := List.mem_range.mp hi
    rw [toU32_ok (Nat.lt_of_lt_of_le hLt hIndex.1), ok_bind, makeJoinKey_ok h hc hIndex hLt, ok_bind]
  rw [probeRows, keyColumns_eq h hc, ok_bind, hRows, ok_bind, List.flatMap_def]

theorem probeRows_fails (side : BuildSide Ty Val F32 F64) (h : Evaluates evals cs keys)
    (hc : c ∈ cs) (hIndex : ¬Indexable keys c) :
    ∃ e, probeRows (E := E) ops evals side c = .error e := by
  obtain ⟨i, hi, hBad⟩ := makeJoinKey_fails h hc hIndex
  obtain ⟨e, he⟩ := mapM_fails (f := fun row => do
      let rowId ← toU32 (E := E) row
      let key ← makeJoinKey ((keys c).map DatumRef.array) row
      .ok ((getEntry (sameKey ops) key side.hashTable).map fun (p : Nat × Nat) =>
        (p.1, p.2, rowId))) (List.mem_range.mpr hi) (by
    rcases hBad with hLarge | ⟨e, he⟩
    · exact ⟨.panicked, by rw [toU32_fails hLarge]; rfl⟩
    · cases hU : toU32 (E := E) i with
      | error e' => exact ⟨e', rfl⟩
      | ok n => exact ⟨e, by rw [ok_bind, he]; rfl⟩)
  exact ⟨e, by rw [probeRows, keyColumns_eq h hc, ok_bind, he]; rfl⟩

/-- The rows that a place and a row of the right chunk make, if the left filter keeps the place. -/
def rowsOfTriple (chunks : List (DataChunk Ty Val)) (right : DataChunk Ty Val)
    (t : Nat × Nat × Nat) : List (List Val) :=
  match chunks[t.1]? with
  | some left => if left.keeps t.2.1 then [left.rowAt t.2.1 ++ right.rowAt t.2.2] else []
  | none => []

theorem entries_groupTriples (triples : List (Nat × Nat × Nat)) :
    (entries (groupTriples triples)).Perm triples := entries_foldl_perm triples

theorem groupTriples_ne_nil (triples : List (Nat × Nat × Nat)) :
    ∀ g ∈ groupTriples triples, g.2 ≠ [] := foldl_pushEntry_ne_nil triples

/-- The chunks that the join makes of the matches hold the joined rows, in order. -/
theorem mapM_joinPairs {schema schema' : List Ty} {chunks : List (DataChunk Ty Val)}
    (hLeft : OfSchema schema chunks) {right : DataChunk Ty Val} (hRight : OfSchema schema' [right])
    {groups : List (Nat × List (Nat × Nat))}
    (hGroups : ∀ g ∈ groups, ∃ left, chunks[g.1]? = some left ∧
      ∀ p ∈ g.2, p.1 < left.len ∧ p.2 < right.len) :
    ∃ joined, groups.mapM (fun g => joinPairs (E := E) chunks right g.1 g.2) = .ok joined ∧
      joined.length = groups.length ∧ OfSchema (schema ++ schema') joined ∧
      rowsOf joined = (entries groups).flatMap (rowsOfTriple chunks right) := by
  induction groups with
  | nil => exact ⟨[], rfl, rfl, ⟨by simp, by simp⟩, rfl⟩
  | cons g groups ih =>
    obtain ⟨left, hId, hPairs⟩ := hGroups g List.mem_cons_self
    have hOne := hLeft.singleton (List.mem_of_getElem? hId)
    obtain ⟨j, hJ, hJSchema, hJRows⟩ := joinPairs_ok (E := E) hOne hRight hId hPairs
    obtain ⟨joined, hJoined, hLength, hSchema, hRows⟩ :=
      ih fun g' hg' => hGroups g' (List.mem_cons_of_mem g hg')
    refine ⟨j :: joined, ?_, by rw [List.length_cons, List.length_cons, hLength], ?_, ?_⟩
    · rw [List.mapM_cons, hJ, ok_bind, hJoined]
      rfl
    · exact ⟨List.forall_mem_cons.mpr ⟨hJSchema.aligned j List.mem_cons_self, hSchema.aligned⟩,
        List.forall_mem_cons.mpr ⟨hJSchema.types j List.mem_cons_self, hSchema.types⟩⟩
    · have hGroup : j.rows = (g.2.map fun p => (g.1, p)).flatMap (rowsOfTriple chunks right) := by
        rw [hJRows, List.flatMap_map]
        simp only [rowsOfTriple, hId]
        induction g.2 with
        | nil => rfl
        | cons p ps ihPairs =>
          rw [List.flatMap_cons, List.filter_cons, ← ihPairs]
          split <;> rfl
      rw [rowsOf_cons, hRows, hGroup]
      show _ = (entries (g :: groups)).flatMap _
      simp only [entries, List.flatMap_cons, List.flatMap_append]

variable {order : List (Nat × List (Nat × Nat)) → List (Nat × List (Nat × Nat))}

/-- A chunk of the right side is joined with the rows at the places that its rows match. -/
theorem probeChunk_ok [DecidableEq Ty] (hOrder : ∀ g, (order g).Perm g) {schema schema' : List Ty}
    (hLeft : OfSchema schema side.chunks) (hRight : OfSchema schema' [c])
    (h : Evaluates evals cs keys) (hc : c ∈ cs) (hIndex : Indexable keys c)
    (hPlaces : ∀ k, ∀ p ∈ getEntry (sameKey ops) k side.hashTable,
      ∃ left, side.chunks[p.1]? = some left ∧ p.2 < left.len) :
    ∃ out : Option (DataChunk Ty Val), probeChunk ops order evals side c = .ok out ∧
      (rowsOf out.toList).Perm ((List.range c.len).flatMap fun i =>
        (getEntry (sameKey ops) (keysAt (keys c) i) side.hashTable).flatMap fun p =>
          rowsOfTriple side.chunks c (p.1, p.2, i)) := by
  have hTriples := probeRows_ok (E := E) ops side h hc hIndex
  rw [probeChunk, hTriples, ok_bind]
  have hFlat : ((List.range c.len).flatMap fun i =>
      (getEntry (sameKey ops) (keysAt (keys c) i) side.hashTable).map fun (p : Nat × Nat) =>
        (p.1, p.2, i)).flatMap (rowsOfTriple side.chunks c) =
      (List.range c.len).flatMap fun i =>
        (getEntry (sameKey ops) (keysAt (keys c) i) side.hashTable).flatMap fun p =>
          rowsOfTriple side.chunks c (p.1, p.2, i) := by
    rw [List.flatMap_assoc]
    simp only [List.flatMap_map]
  have hIn : ∀ t ∈ (List.range c.len).flatMap fun i =>
      (getEntry (sameKey ops) (keysAt (keys c) i) side.hashTable).map fun (p : Nat × Nat) => (p.1, p.2, i),
      ∃ left, side.chunks[t.1]? = some left ∧ t.2.1 < left.len ∧ t.2.2 < c.len := by
    intro t ht
    obtain ⟨i, hi, ht⟩ := List.mem_flatMap.mp ht
    obtain ⟨p, hp, rfl⟩ := List.mem_map.mp ht
    obtain ⟨left, hId, hLt⟩ := hPlaces _ p hp
    exact ⟨left, hId, hLt, List.mem_range.mp hi⟩
  rw [← hFlat]
  generalize ((List.range c.len).flatMap fun i =>
    (getEntry (sameKey ops) (keysAt (keys c) i) side.hashTable).map fun (p : Nat × Nat) => (p.1, p.2, i)) =
    triples at hIn
  by_cases hNone : triples = []
  · subst hNone
    exact ⟨none, rfl, List.Perm.refl _⟩
  · rw [if_neg hNone]
    have hEntries : (entries (order (groupTriples triples))).Perm triples :=
      ((hOrder _).flatMap_right _).trans (entries_groupTriples triples)
    have hGroups : ∀ g ∈ order (groupTriples triples), g.2 ≠ [] → ∃ left,
        side.chunks[g.1]? = some left ∧ ∀ p ∈ g.2, p.1 < left.len ∧ p.2 < c.len := by
      intro g hg hSome
      have hEntry : ∀ p ∈ g.2, (g.1, p) ∈ triples := fun p hp =>
        hEntries.mem_iff.mp (List.mem_flatMap.mpr ⟨g, hg, List.mem_map_of_mem hp⟩)
      obtain ⟨p₀, hp₀⟩ := List.exists_mem_of_ne_nil _ hSome
      obtain ⟨left, hId, -⟩ := hIn _ (hEntry p₀ hp₀)
      refine ⟨left, hId, fun p hp => ?_⟩
      obtain ⟨left', hId', hLt⟩ := hIn _ (hEntry p hp)
      have hSame : left = left' := Option.some.inj (hId.symm.trans hId')
      rw [hSame]
      exact hLt
    have hFull : ∀ g ∈ order (groupTriples triples), g.2 ≠ [] := by
      intro g hg
      exact groupTriples_ne_nil triples g ((hOrder _).mem_iff.mp hg)
    obtain ⟨joined, hJoined, hLength, hSchema, hRows⟩ := mapM_joinPairs (E := E) hLeft hRight
      fun g hg => hGroups g hg (hFull g hg)
    have hSome : joined ≠ [] := by
      intro hNil
      rw [hNil, List.length_nil] at hLength
      rw [List.eq_nil_of_length_eq_zero hLength.symm] at hEntries
      exact hNone hEntries.nil_eq.symm
    rw [hJoined, ok_bind, concat_ok hSchema hSome, ok_bind]
    refine ⟨_, rfl, ?_⟩
    show (rowsOf [tableOf (schema ++ schema') (rowsOf joined)]).Perm _
    rw [rowsOf_cons, rows_tableOf (hSchema.ne_nil hSome) hSchema.fits, hRows]
    show ((entries (order (groupTriples triples))).flatMap _ ++ []).Perm _
    rw [List.append_nil]
    exact hEntries.flatMap_right _

theorem probeChunk_fails [DecidableEq Ty]
    (order : List (Nat × List (Nat × Nat)) → List (Nat × List (Nat × Nat)))
    (side : BuildSide Ty Val F32 F64) (h : Evaluates evals cs keys) (hc : c ∈ cs)
    (hIndex : ¬Indexable keys c) : ∃ e, probeChunk (E := E) ops order evals side c = .error e := by
  obtain ⟨e, he⟩ := probeRows_fails ops side h hc hIndex
  exact ⟨e, by rw [probeChunk, he]; rfl⟩

theorem probe_ok [DecidableEq Ty] (hOrder : ∀ g, (order g).Perm g) {schema schema' : List Ty}
    (hLeft : OfSchema schema side.chunks) (hRight : OfSchema schema' cs)
    (h : Evaluates evals cs keys) {rest : List (DataChunk Ty Val)} (hRest : ∀ c ∈ rest, c ∈ cs)
    (hIndex : ∀ c ∈ rest, Indexable keys c)
    (hPlaces : ∀ k, ∀ p ∈ getEntry (sameKey ops) k side.hashTable,
      ∃ left, side.chunks[p.1]? = some left ∧ p.2 < left.len) :
    ∃ out : List (DataChunk Ty Val), probe ops order evals side (rest.map .ok) = out.map .ok ∧
      (rowsOf out).Perm (rest.flatMap fun c => (List.range c.len).flatMap fun i =>
        (getEntry (sameKey ops) (keysAt (keys c) i) side.hashTable).flatMap fun p =>
          rowsOfTriple side.chunks c (p.1, p.2, i)) := by
  induction rest with
  | nil => exact ⟨[], rfl, List.Perm.refl _⟩
  | cons c rest ih =>
    have hc := hRest c List.mem_cons_self
    obtain ⟨first, hFirst, hFirstRows⟩ := probeChunk_ok ops hOrder hLeft (hRight.singleton hc) h hc
      (hIndex c List.mem_cons_self) hPlaces
    obtain ⟨out, hOut, hRows⟩ := ih (fun d hd => hRest d (List.mem_cons_of_mem c hd))
      fun d hd => hIndex d (List.mem_cons_of_mem c hd)
    refine ⟨first.toList ++ out, ?_, ?_⟩
    · rw [List.map_cons, probe, hFirst, List.map_append, ← hOut]
      cases first <;> rfl
    · rw [rowsOf, List.flatMap_append, List.flatMap_cons]
      exact hFirstRows.append hRows

theorem probe_fails [DecidableEq Ty] (h : Evaluates evals cs keys)
    {rest : List (DataChunk Ty Val)} (hRest : ∀ c ∈ rest, c ∈ cs) (hc : c ∈ rest)
    (hIndex : ¬Indexable keys c) (out : List (DataChunk Ty Val)) :
    probe (E := E) ops order evals side (rest.map .ok) ≠ out.map .ok := by
  induction rest generalizing out with
  | nil => cases hc
  | cons d rest ih =>
    intro hOut
    rw [List.map_cons, probe] at hOut
    rcases List.mem_cons.mp hc with rfl | hIn
    · obtain ⟨e, he⟩ := probeChunk_fails (E := E) ops order side h
        (hRest c List.mem_cons_self) hIndex
      rw [he] at hOut
      cases out <;> cases hOut
    · have hTail := ih (fun d' hd => hRest d' (List.mem_cons_of_mem d hd)) hIn
      split at hOut
      · cases out <;> cases hOut
      · exact hTail out hOut
      · cases out with
        | nil => cases hOut
        | cons o out =>
          rw [List.map_cons] at hOut
          exact hTail out (List.cons.inj hOut).2

end Probe

end StreamExecutor

end JoinRows

end MiniGU
