import MiniGU.Invariant.JoinRows

/-!
# Hash join against nested loops

The join hashes and probes physical rows. The filter of a left chunk goes along with the rows that
are taken from it, and drops what it drops in the end; that of a right chunk does not. Two nulls
are the same key. Keys are read by `index`, which panics on types that it has no case for, and past
the one value of a scalar.
-/

namespace MiniGU

section Results

variable {E Ty Val F32 F64 : Type}

/-- Null, as a vector may also be. -/
def Value.isNull : Value F32 F64 → Bool
  | .scalar v => isNullValue (.scalar v : Value F32 F64)
  | .vector _ v => v.isNone

namespace StreamExecutor

-- ----
-- Nested loops
-- ----

/-- A physical row of an input, with whether it is a logical one, and its key. -/
structure JoinRow (Val F32 F64 : Type) where
  logical : Bool
  row : List Val
  key : GroupKey F32 F64

/-- The rows go together: their key values are non-null and equal. -/
def JoinRow.matches [DecidableEq F32] [DecidableEq F64] (ops : FloatOps F32 F64)
    (l r : JoinRow Val F32 F64) : Bool :=
  sameKey ops l.key r.key && l.key.all (fun v => !v.isNull) && r.key.all fun v => !v.isNull

/-- The concatenations of a left and a right logical row that go together. -/
def nestedLoop [DecidableEq F32] [DecidableEq F64] (ops : FloatOps F32 F64)
    (ls rs : List (JoinRow Val F32 F64)) : List (List Val) :=
  ((ls.filter JoinRow.logical ×ˢ rs.filter JoinRow.logical).filter fun p =>
    p.1.matches ops p.2).map fun p => p.1.row ++ p.2.row

/-- The rows of the chunks. -/
def joinRows (keys : DataChunk Ty Val → List (DatumRef ArrayType (Value F32 F64)))
    (cs : List (DataChunk Ty Val)) : List (JoinRow Val F32 F64) :=
  cs.flatMap fun c => (List.range c.len).map fun i => ⟨c.keeps i, c.rowAt i, keysAt (keys c) i⟩

section Join

variable [DecidableEq F32] [DecidableEq F64] (ops : FloatOps F32 F64)
  {keys keys' : DataChunk Ty Val → List (DatumRef ArrayType (Value F32 F64))}
  {lefts rights : List (DataChunk Ty Val)}

omit [DecidableEq F32] [DecidableEq F64] in
theorem leftPlaces_flatMap {γ : Type} {F : JoinRow Val F32 F64 → List γ}
    {G : (Nat × Nat) × GroupKey F32 F64 → List γ}
    (h : ∀ c id i, lefts[id]? = some c → i < c.len →
      G ((id, i), keysAt (keys c) i) = F ⟨c.keeps i, c.rowAt i, keysAt (keys c) i⟩) :
    (leftPlaces keys lefts).flatMap G = (joinRows keys lefts).flatMap F := by
  have hPlaces : ∀ p ∈ lefts.zipIdx, (places keys p).flatMap G =
      ((List.range p.1.len).map fun i =>
        (⟨p.1.keeps i, p.1.rowAt i, keysAt (keys p.1) i⟩ : JoinRow Val F32 F64)).flatMap F := by
    intro p hp
    have hId := List.mem_zipIdx_iff_getElem?.mp hp
    rw [places, List.flatMap_map, List.flatMap_map]
    exact List.flatMap_congr fun i hi => h p.1 p.2 i hId (List.mem_range.mp hi)
  have hChunks : ∀ H : DataChunk Ty Val → List γ,
      (lefts.zipIdx.flatMap fun p => H p.1) = lefts.flatMap H := by
    intro H
    conv_rhs => rw [← List.zipIdx_map_fst 0 lefts, List.flatMap_map]
  rw [leftPlaces, joinRows, List.flatMap_assoc, List.flatMap_assoc, List.flatMap_congr hPlaces]
  exact hChunks fun c => ((List.range c.len).map fun i =>
    ⟨c.keeps i, c.rowAt i, keysAt (keys c) i⟩).flatMap F

/-- The pairs that the hash table yields: logical on the left, physical on the right, nulls being
equal. -/
def hashed (p : JoinRow Val F32 F64 × JoinRow Val F32 F64) : Bool :=
  p.1.logical && sameKey ops p.1.key p.2.key

/-- What the places of the table that match a right row contribute. -/
theorem matched_rows (c : DataChunk Ty Val) (i : Nat) :
    (((leftPlaces keys lefts).filter fun p => sameKey ops p.2 (keysAt (keys' c) i)).map
        Prod.fst).flatMap (fun p => rowsOfTriple lefts c (p.1, p.2, i)) =
      (joinRows keys lefts).flatMap fun l =>
        if l.logical && sameKey ops l.key (keysAt (keys' c) i) then [l.row ++ c.rowAt i] else [] := by
  rw [List.flatMap_map, filter_flatMap_eq]
  refine leftPlaces_flatMap fun d id j hId hj => ?_
  simp only [rowsOfTriple, hId]
  cases sameKey ops (keysAt (keys d) j) (keysAt (keys' c) i) <;> cases d.keeps j <;> rfl

/-- All of it is the product of the rows, where they are hashed to one another. -/
theorem product_hashed :
    (rights.flatMap fun c => (List.range c.len).flatMap fun i =>
      (joinRows keys lefts).flatMap fun l =>
        if l.logical && sameKey ops l.key (keysAt (keys' c) i) then [l.row ++ c.rowAt i] else []).Perm
      (((joinRows keys lefts ×ˢ joinRows keys' rights).filter (hashed ops)).map fun p =>
        p.1.row ++ p.2.row) := by
  have hRight : (rights.flatMap fun c => (List.range c.len).flatMap fun i =>
      (joinRows keys lefts).flatMap fun l =>
        if l.logical && sameKey ops l.key (keysAt (keys' c) i) then [l.row ++ c.rowAt i] else []) =
      (joinRows keys' rights).flatMap fun r => (joinRows keys lefts).flatMap fun l =>
        if hashed ops (l, r) then [l.row ++ r.row] else [] := by
    generalize joinRows keys lefts = ls
    rw [joinRows, List.flatMap_assoc]
    simp only [List.flatMap_map]
    rfl
  have hProduct : (((joinRows keys lefts ×ˢ joinRows keys' rights).filter (hashed ops)).map fun p =>
      p.1.row ++ p.2.row) = (joinRows keys lefts).flatMap fun l =>
        (joinRows keys' rights).flatMap fun r =>
          if hashed ops (l, r) then [l.row ++ r.row] else [] := by
    rw [List.map_eq_flatMap, filter_flatMap_eq]
    simp only [SProd.sprod, List.product, List.flatMap_assoc, List.flatMap_map]
  rw [hRight, hProduct]
  exact flatMap_comm_perm _ _ _

-- ----
-- The executor
-- ----

variable [DecidableEq Ty]
  (order : List (Nat × List (Nat × Nat)) → List (Nat × List (Nat × Nat)))
  (conds : List (JoinCond E Ty Val F32 F64))

/-- The join yields the rows of the nested loops. -/
def JoinsRows (keys keys' : DataChunk Ty Val → List (DatumRef ArrayType (Value F32 F64)))
    (lefts rights : List (DataChunk Ty Val)) : Prop :=
  ∃ out, join ops order conds (lefts.map .ok) (rights.map .ok) = out.map .ok ∧
    (rowsOf out).Perm (nestedLoop ops (joinRows keys lefts) (joinRows keys' rights))

/-- No logical left row has the key of a right row that is filtered out, or a key with a null. -/
def OnlyMatches (ls rs : List (JoinRow Val F32 F64)) : Prop :=
  ∀ l ∈ ls, l.logical = true → ∀ r ∈ rs, sameKey ops l.key r.key = true →
    r.logical = true ∧ l.matches ops r = true

theorem nestedLoop_perm_iff (ls rs : List (JoinRow Val F32 F64)) :
    ((((ls ×ˢ rs).filter (hashed ops)).map fun p => p.1.row ++ p.2.row).Perm
      (nestedLoop ops ls rs)) ↔ OnlyMatches ops ls rs := by
  have hSpec : nestedLoop ops ls rs = ((((ls ×ˢ rs).filter (hashed ops)).filter fun p =>
      p.2.logical && p.1.matches ops p.2).map fun p => p.1.row ++ p.2.row) := by
    rw [nestedLoop, filter_product_filter, List.filter_filter]
    congr 1
    refine List.filter_congr fun p _ => ?_
    simp only [hashed, JoinRow.matches]
    cases p.1.logical <;> cases p.2.logical <;> cases sameKey ops p.1.key p.2.key <;> simp
  rw [hSpec]
  constructor
  · -- a pair that is dropped would be missing in the count
    intro hPerm l hl hLogical r hr hKey
    have hLength := hPerm.length_eq
    rw [List.length_map, List.length_map, eq_comm, List.length_filter_eq_length_iff] at hLength
    have hPair := hLength (l, r) (List.mem_filter.mpr ⟨List.pair_mem_product.mpr ⟨hl, hr⟩,
      by simp [hashed, hLogical, hKey]⟩)
    simpa only [Bool.and_eq_true] using hPair
  · intro hOnly
    have hAll : (((ls ×ˢ rs).filter (hashed ops)).filter fun p =>
        p.2.logical && p.1.matches ops p.2) = (ls ×ˢ rs).filter (hashed ops) := by
      rw [List.filter_eq_self]
      rintro ⟨l, r⟩ hp
      obtain ⟨hMem, hHashed⟩ := List.mem_filter.mp hp
      obtain ⟨hl, hr⟩ := List.pair_mem_product.mp hMem
      simp only [hashed, Bool.and_eq_true] at hHashed ⊢
      exact hOnly l hl hHashed.1 r hr hHashed.2
    rw [hAll]

/-- **Hash join** is the join of the nested loops exactly where chunks and rows can be numbered and
keys read, and no logical left row has the key of a right row that is filtered out, or a key with a
null that a right row has too. -/
theorem join_iff (hOrder : ∀ g, (order g).Perm g) {schema schema' : List Ty}
    (hLeft : OfSchema schema lefts) (hRight : OfSchema schema' rights)
    (hKeys : Evaluates (conds.map JoinCond.leftKey) lefts keys)
    (hKeys' : Evaluates (conds.map JoinCond.rightKey) rights keys') :
    JoinsRows ops order conds keys keys' lefts rights ↔
      Buildable keys lefts ∧ (∀ c ∈ rights, Indexable keys' c) ∧
        OnlyMatches ops (joinRows keys lefts) (joinRows keys' rights) := by
  by_cases hBuild : Buildable keys lefts
  · obtain ⟨side, hSide, rfl, hTable⟩ := build_ok (E := E) ops hKeys hBuild
    have hPlaces : ∀ k, ∀ p ∈ getEntry (sameKey ops) k side.hashTable,
        ∃ left, side.chunks[p.1]? = some left ∧ p.2 < left.len := by
      intro k p hp
      rw [hTable] at hp
      obtain ⟨q, hq, rfl⟩ := List.mem_map.mp hp
      obtain ⟨c, hc, hIn⟩ := List.mem_flatMap.mp (List.mem_filter.mp hq).1
      obtain ⟨i, hi, rfl⟩ := List.mem_map.mp hIn
      exact ⟨c.1, List.mem_zipIdx_iff_getElem?.mp hc, List.mem_range.mp hi⟩
    by_cases hIndex : ∀ c ∈ rights, Indexable keys' c
    · obtain ⟨out, hOut, hRows⟩ := probe_ok (E := E) ops hOrder hLeft hRight hKeys'
        (fun _ hc => hc) hIndex hPlaces
      simp only [hTable, matched_rows] at hRows
      have hHashed := hRows.trans (product_hashed ops)
      have hJoin : join ops order conds (side.chunks.map .ok) (rights.map .ok) = out.map .ok := by
        rw [join, hSide]
        exact hOut
      rw [← nestedLoop_perm_iff]
      constructor
      · rintro ⟨out', hOut', hPerm⟩
        have hSame : out' = out :=
          List.map_injective_iff.mpr (fun a b h => Except.ok.inj h) (hOut'.symm.trans hJoin)
        rw [hSame] at hPerm
        exact ⟨hBuild, hIndex, hHashed.symm.trans hPerm⟩
      · rintro ⟨-, -, hPerm⟩
        exact ⟨out, hJoin, hHashed.trans hPerm⟩
    · refine ⟨?_, fun h => absurd h.2.1 hIndex⟩
      rintro ⟨out, hOut, -⟩
      rw [not_forall₂] at hIndex
      obtain ⟨c, hc, hIndex⟩ := hIndex
      rw [join, hSide] at hOut
      exact absurd hOut (probe_fails ops hKeys' (fun _ hd => hd) hc hIndex out)
  · refine ⟨?_, fun h => absurd h.1 hBuild⟩
    rintro ⟨out, hOut, -⟩
    obtain ⟨e, he⟩ := build_fails (E := E) ops hKeys hBuild
    rw [join, he] at hOut
    cases out <;> cases hOut

end Join

-- ----
-- Columns of numbers
-- ----

/-- A chunk of one column of numbers. -/
def numberChunk (ns : List (Option Int)) (filter : List Bool) : ValueChunk Int Int :=
  ⟨[⟨.scalar (.int .int32), ns.map (Value.int .int32)⟩], some filter, some 0⟩

/-- The join on the first column of either side. -/
def firstColumns : List (JoinCond Unit ArrayType (Value Int Int) Int Int) :=
  [⟨columnRef 0, columnRef 0⟩]

def firstKey (c : ValueChunk Int Int) : List (DatumRef ArrayType (Value Int Int)) :=
  c.columns.head?.toList.map fun a => ⟨a, false⟩

theorem ofSchema_numberChunk {ns : List (Option Int)} {filter : List Bool}
    (h : filter.length = ns.length) : OfSchema [.scalar (.int .int32)] [numberChunk ns filter] := by
  constructor
  all_goals
    intro c hc
    rw [List.mem_singleton] at hc
    subst hc
  · exact ⟨by simp [numberChunk], by simp [numberChunk, DataChunk.len],
      by simp [numberChunk, DataChunk.len, h]⟩
  · rfl

theorem evaluates_numberChunk (ns : List (Option Int)) (filter : List Bool) :
    Evaluates (E := Unit) [columnRef 0] [numberChunk ns filter] firstKey := by
  constructor
  all_goals
    intro c hc
    rw [List.mem_singleton] at hc
    subst hc
  · rfl
  · simp [firstKey, numberChunk, DataChunk.len]

theorem indexable_numberChunk {ns : List (Option Int)} (filter : List Bool)
    (h : ns.length ≤ 2 ^ 32) : Indexable firstKey (numberChunk ns filter) := by
  refine ⟨by simpa [numberChunk, DataChunk.len] using h, fun _ d hd => ?_⟩
  rw [List.mem_singleton.mp hd]
  exact ⟨by simp, by simp⟩

/-- Numbers with a null and with repetitions, each side with a row that is filtered out. -/
theorem numbers_joined :
    JoinsRows FloatOps.whole id firstColumns firstKey firstKey
      [numberChunk [some 1, some 2, none] [true, false, true]]
      [numberChunk [some 1, some 1, some 2] [true, true, false]] := by
  refine (join_iff FloatOps.whole id firstColumns (fun g => List.Perm.refl g)
    (ofSchema_numberChunk rfl) (ofSchema_numberChunk rfl) (evaluates_numberChunk _ _)
    (evaluates_numberChunk _ _)).mpr ⟨⟨by simp, ?_⟩, ?_, ?_⟩
  · intro c hc
    rw [List.mem_singleton.mp hc]
    exact indexable_numberChunk _ (by simp)
  · intro c hc
    rw [List.mem_singleton.mp hc]
    exact indexable_numberChunk _ (by simp)
  · unfold OnlyMatches
    decide

/-- Nulls are joined with one another, and rows that the right filter drops with the left ones. -/
theorem nulls_and_dropped_rows_joined :
    ¬JoinsRows FloatOps.whole id firstColumns firstKey firstKey
      [numberChunk [none] [true]] [numberChunk [none] [true]] ∧
    ¬JoinsRows FloatOps.whole id firstColumns firstKey firstKey
      [numberChunk [some 1] [true]] [numberChunk [some 1] [false]] := by
  constructor
  all_goals
    rintro ⟨out, hOut, hPerm⟩
    have hLength := hPerm.length_eq
    cases out with
    | nil => cases hOut
    | cons c out =>
      obtain ⟨hFirst, hRest⟩ := List.cons.inj hOut
      cases out with
      | cons d out => cases hRest
      | nil =>
        cases hFirst
        revert hLength
        decide

end StreamExecutor

end Results

end MiniGU
