import MiniGU.Invariant.OlapRoom
import MiniGU.Model.OlapCompaction

/-!
# What edge compression keeps

`compress_edge` takes the destinations of a block to rise and destination 1 to mark the slots
behind the counter. Both are wrong after a transactional delete, which leaves a tombstone with
destination 1 among the slots in use, and the second is wrong for an edge to vertex 1.

* `compression_lossless_iff`: the blocks that are compressed without a panic or a cut difference;
  those decode to the labels and destinations of their live edges, in order.
* `compressEdge_stores`: what the call stores is the compressed form of each block.

## Property compression keeps every slot

* `PropertyBlock.get_compress`: the compressed block, read by rank, gives the latest committed
  value of each slot, and nothing exactly where there is none.
* `compressProperty_stores`: the call stores the compressed form of each block of each column.
-/

namespace MiniGU

namespace Olap

variable {V : Type}

namespace EdgeBlock

variable {block : EdgeBlock} {index versionTs : Nat} {c : CompressedEdgeBlock}

-- ----
-- The differences and the largest of them
-- ----

theorem delta_of_le {i : Nat} (h : block.dstIdAt (i - 1) ≤ block.dstIdAt i) :
    block.delta i = some (block.dstIdAt i - block.dstIdAt (i - 1)) :=
  if_neg (Nat.not_lt.mpr h)

theorem le_of_delta {i d : Nat} (h : block.delta i = some d) :
    block.dstIdAt (i - 1) ≤ block.dstIdAt i ∧ d = block.dstIdAt i - block.dstIdAt (i - 1) := by
  unfold delta at h
  split at h
  · cases h
  · rename_i hLt
    exact ⟨Nat.not_lt.mp hLt, (Option.some.inj h).symm⟩

/-- Whether the scan from `k` on has met a destination 1 before it takes slot `i`. -/
def Ended (block : EdgeBlock) (k i : Nat) : Prop :=
  ∃ j, k ≤ j ∧ j ≤ i ∧ block.dstIdAt j = 1

theorem Ended.later {k i : Nat} (h : block.Ended (k + 1) i) : block.Ended k i := by
  obtain ⟨j, hk, hi, hOne⟩ := h
  exact ⟨j, by omega, hi, hOne⟩

/-- The scan does not panic where it takes no difference below zero, and keeps what is true of
every difference it takes. -/
theorem maxDelta_ok (block : EdgeBlock) {P : Nat → Prop}
    (hMax : ∀ {a b}, P a → P b → P (Nat.max a b)) {m k o : Nat} (h₀ : P o)
    (h : ∀ i, k ≤ i → i < k + m → block.Ended k i ∨ ∃ d, block.delta i = some d ∧ P d) :
    ∃ r, block.maxDelta (List.range' k m) o = some r ∧ P r := by
  induction m generalizing k o with
  | zero => exact ⟨o, rfl, h₀⟩
  | succ m ih =>
    rw [List.range'_succ]
    unfold maxDelta
    split
    · exact ⟨o, rfl, h₀⟩
    · rename_i hOne
      rcases h k (Nat.le_refl _) (by omega) with ⟨j, hk, hi, hj⟩ | ⟨d, hDelta, hP⟩
      · obtain rfl : j = k := by omega
        exact absurd hj hOne
      · rw [hDelta, Option.bind_some]
        refine ih (hMax h₀ hP) fun i hi hLt => ?_
        rcases h i (by omega) (by omega) with ⟨j, hk, hle, hj⟩ | hTaken
        · refine .inl ⟨j, ?_, hle, hj⟩
          by_contra hNot
          obtain rfl : j = k := by omega
          exact hOne hj
        · exact .inr hTaken

theorem le_maxDelta {m k max r : Nat} (h : block.maxDelta (List.range' k m) max = some r) :
    max ≤ r ∧ ∀ i, k ≤ i → i < k + m → block.Ended k i ∨ ∃ d, block.delta i = some d ∧ d ≤ r := by
  induction m generalizing k max with
  | zero =>
    obtain rfl : max = r := Option.some.inj h
    exact ⟨Nat.le_refl _, fun i hk hLt => by omega⟩
  | succ m ih =>
    rw [List.range'_succ] at h
    unfold maxDelta at h
    split at h
    · rename_i hOne
      obtain rfl : max = r := Option.some.inj h
      exact ⟨Nat.le_refl _, fun i hk _ => .inl ⟨k, Nat.le_refl _, hk, hOne⟩⟩
    · obtain ⟨d, hDelta, hRest⟩ := Option.bind_eq_some_iff.mp h
      obtain ⟨hLe, hAll⟩ := ih hRest
      have hd : d ≤ Nat.max max d := Nat.le_max_right max d
      refine ⟨(Nat.le_max_left max d).trans hLe, fun i hk hLt => ?_⟩
      by_cases hi : i = k
      · subst hi
        exact .inr ⟨d, hDelta, hd.trans hLe⟩
      · rcases hAll i (by omega) (by omega) with hEnded | hTaken
        · exact .inl hEnded.later
        · exact .inr hTaken

theorem lt_bitWidth {d max : Nat} (h : d ≤ max) : d < 2 ^ bitWidth max := by
  unfold bitWidth
  split
  · omega
  · exact Nat.lt_of_le_of_lt h Nat.lt_log2_self

-- ----
-- One block
-- ----

/-- The block is compressed without a panic, every difference fits its bits, and the live edges
decode as they are. -/
def Lossless (block : EdgeBlock) (index versionTs : Nat) : Prop :=
  ∃ c, block.compress index versionTs = some c ∧
    (∀ i d, 0 < i → i < block.edges.length → block.delta i = some d → d < 2 ^ c.deltaBitWidth) ∧
    c.decode.filter (· ≠ (some tombstoneLabelId, tombstoneDstId)) =
      (block.edges.filter fun edge => !edge.isTombstone).map fun edge => (edge.labelId, edge.dstId)

/-- No destination is below the one before. -/
def Rises (block : EdgeBlock) : Prop :=
  ∀ i, 0 < i → i < block.edges.length → block.dstIdAt (i - 1) ≤ block.dstIdAt i

/-- The block holds a slot, the destinations rise, and behind a slot with destination 1, the
first aside, they rise by at most one. -/
structure Compressible (block : EdgeBlock) : Prop where
  used : block.edges ≠ []
  rises : block.Rises
  behindOne : ∀ i j, 0 < i → i < j → j < block.edges.length → block.dstIdAt i = 1 →
    block.dstIdAt j ≤ block.dstIdAt (j - 1) + 1

theorem compress_some (h : block.compress index versionTs = some c) :
    ∃ max deltas, block.maxDelta (List.range' 1 (blockCapacity - 1)) 0 = some max ∧
      block.edges ≠ [] ∧
      (List.range' 1 (block.edges.length - 1)).mapM block.delta = some deltas ∧
      c.edgeCounter = block.edges.length ∧ c.deltaBitWidth = bitWidth max ∧
      c.firstDstId = block.dstIdAt 0 ∧ c.compressedDstIds = pack (bitWidth max) deltas ∧
      c.labelIds = (List.range blockCapacity).map fun i =>
        if i < block.edges.length then block.labelIdAt i else some 1 := by
  obtain ⟨max, hMax, hRest⟩ := Option.bind_eq_some_iff.mp h
  split at hRest
  · cases hRest
  · rename_i hUsed
    obtain ⟨deltas, hDeltas, rfl⟩ := Option.map_eq_some_iff.mp hRest
    exact ⟨max, deltas, hMax, fun hNil => hUsed (List.length_eq_zero_iff.mpr hNil), hDeltas, rfl,
      rfl, rfl, rfl, rfl⟩

theorem getElem?_deltas {m : Nat} {deltas : List Nat}
    (h : (List.range' 1 m).mapM block.delta = some deltas) {i : Nat} (hi : i < m) :
    ∃ d, deltas[i]? = some d ∧ block.delta (i + 1) = some d := by
  have hMap := congrArg (·[i]?) (map_of_mapM h)
  simp only [List.getElem?_map, List.getElem?_range' hi, Option.map_some] at hMap
  obtain ⟨d, hd, hSame⟩ := Option.map_eq_some_iff.mp hMap.symm
  refine ⟨d, hd, ?_⟩
  rw [hSame]
  congr 1
  omega

theorem dstIdAt_compress (h : block.compress index versionTs = some c)
    (hFits : ∀ i d, 0 < i → i < block.edges.length → block.delta i = some d →
      d < 2 ^ c.deltaBitWidth) {i : Nat} (hi : i < block.edges.length) :
    c.dstIdAt i = block.dstIdAt i := by
  obtain ⟨max, deltas, -, -, hDeltas, -, hWidth, hFirst, hPacked, -⟩ := compress_some h
  induction i with
  | zero => exact hFirst
  | succ i ih =>
    obtain ⟨d, hd, hDelta⟩ := getElem?_deltas hDeltas (i := i) (by omega)
    have hRead := readBits_pack (bitWidth max) hd
    have hSmall := hFits (i + 1) d (Nat.succ_pos i) hi hDelta
    rw [hWidth] at hSmall
    obtain ⟨hLe, rfl⟩ := le_of_delta hDelta
    show c.dstIdAt i + readBits c.compressedDstIds (i * c.deltaBitWidth) c.deltaBitWidth = _
    rw [ih (by omega), hPacked, hWidth, hRead, Nat.mod_eq_of_lt hSmall]
    rw [Nat.add_sub_cancel] at hLe ⊢
    omega

theorem decode_compress (h : block.compress index versionTs = some c)
    (hRoom : block.edges.length ≤ blockCapacity)
    (hFits : ∀ i d, 0 < i → i < block.edges.length → block.delta i = some d →
      d < 2 ^ c.deltaBitWidth) :
    c.decode = block.edges.map fun edge => (edge.labelId, edge.dstId) := by
  obtain ⟨max, deltas, -, -, -, hCounter, -, -, -, hLabels⟩ := compress_some h
  unfold CompressedEdgeBlock.decode
  rw [hCounter]
  refine List.ext_getElem? fun i => ?_
  rw [List.getElem?_map, List.getElem?_map]
  by_cases hi : i < block.edges.length
  · have hSlot := List.getElem?_eq_getElem hi
    have hDst := dstIdAt_compress h hFits hi
    have hLabel : c.labelIds[i]? = some (block.labelIdAt i) := by
      rw [hLabels, List.getElem?_map, List.getElem?_range (by omega), Option.map_some, if_pos hi]
    rw [List.getElem?_range hi, Option.map_some, hDst, hLabel, hSlot]
    unfold labelIdAt dstIdAt
    rw [hSlot]
    rfl
  · rw [List.getElem?_eq_none (by rw [List.length_range]; omega),
      List.getElem?_eq_none (by omega)]
    rfl

theorem filter_live (edges : List OlapStorageEdge) :
    (edges.map fun edge => (edge.labelId, edge.dstId)).filter
        (· ≠ (some tombstoneLabelId, tombstoneDstId)) =
      (edges.filter fun edge => !edge.isTombstone).map fun edge => (edge.labelId, edge.dstId) := by
  rw [List.filter_map]
  congr 1
  refine List.filter_congr fun edge _ => ?_
  unfold OlapStorageEdge.isTombstone
  rw [Function.comp_apply, Bool.eq_iff_iff]
  simp only [ne_eq, Prod.mk.injEq, decide_eq_true_eq, Bool.not_eq_true', Bool.and_eq_false_iff,
    beq_eq_false_iff_ne, not_and_or]

theorem dstIdAt_behind {i : Nat} (h : block.edges.length ≤ i) : block.dstIdAt i = 1 := by
  unfold dstIdAt
  rw [List.getElem?_eq_none h]
  rfl

theorem ended_behind {i : Nat} (hi : 0 < i) (h : block.edges.length ≤ i) : block.Ended 1 i :=
  ⟨i, hi, Nat.le_refl _, dstIdAt_behind h⟩

/-- In a block that rises the slots before a destination 1 hold no more than it. -/
theorem Rises.le_of_le (h : block.Rises) {i j : Nat} (hij : i ≤ j)
    (hj : j < block.edges.length) : block.dstIdAt i ≤ block.dstIdAt j := by
  induction j with
  | zero =>
    obtain rfl : i = 0 := by omega
    exact Nat.le_refl _
  | succ j ih =>
    by_cases hSame : i = j + 1
    · rw [hSame]
    · have hStep : block.dstIdAt j ≤ block.dstIdAt (j + 1) := h (j + 1) (Nat.succ_pos j) hj
      exact (ih (by omega) (by omega)).trans hStep

/-- A used slot with destination 1 ends the scan before any difference but zero. -/
theorem Rises.maxDelta_one (h : block.Rises) {i : Nat} (hi : 0 < i)
    (hLength : i < block.edges.length) (hOne : block.dstIdAt i = 1) :
    block.maxDelta (List.range' 1 (blockCapacity - 1)) 0 = some 0 := by
  obtain ⟨r, hMax, rfl⟩ := maxDelta_ok block (P := (· = 0))
    (fun ha hb => by subst ha hb; rfl) (m := blockCapacity - 1) (k := 1) rfl fun j hj _ => by
      by_cases hLater : i ≤ j
      · exact .inl ⟨i, hi, hLater, hOne⟩
      · have hBefore := h.le_of_le (i := j) (j := i) (by omega) hLength
        have hPrev := h.le_of_le (i := j - 1) (j := j) (by omega) (by omega)
        by_cases hjOne : block.dstIdAt j = 1
        · exact .inl ⟨j, hj, Nat.le_refl _, hjOne⟩
        · exact .inr ⟨_, delta_of_le hPrev, by omega⟩
  exact hMax

/-- A compressible block is decoded to the labels and destinations of its live edges. -/
theorem Compressible.lossless (h : block.Compressible) (hRoom : block.edges.length ≤ blockCapacity)
    (index versionTs : Nat) : block.Lossless index versionTs := by
  have hLength : block.edges.length ≠ 0 := fun hNil => h.used (List.length_eq_zero_iff.mp hNil)
  obtain ⟨max, hMax, -⟩ := maxDelta_ok block (P := fun _ => True)
    (fun _ _ => trivial) (m := blockCapacity - 1) (k := 1) (o := 0) trivial fun i hi _ => by
      by_cases hUsed : i < block.edges.length
      · exact .inr ⟨_, delta_of_le (h.rises i hi hUsed), trivial⟩
      · exact .inl (ended_behind hi (Nat.not_lt.mp hUsed))
  have hDeltas : (List.range' 1 (block.edges.length - 1)).mapM block.delta =
      some ((List.range' 1 (block.edges.length - 1)).map fun i =>
        block.dstIdAt i - block.dstIdAt (i - 1)) := by
    refine mapM_eq_some fun i hi => ?_
    obtain ⟨hFrom, hTo⟩ := List.mem_range'_1.mp hi
    exact delta_of_le (h.rises i hFrom (by omega))
  obtain ⟨c, hc⟩ : ∃ c, block.compress index versionTs = some c := by
    unfold compress
    rw [hMax, Option.bind_some]
    simp only [hLength, if_false, hDeltas, Option.map_some]
    exact ⟨_, rfl⟩
  obtain ⟨max', deltas, hMax', -, -, -, hWidth, -⟩ := compress_some hc
  obtain rfl : max = max' := Option.some.inj (hMax.symm.trans hMax')
  have hFits : ∀ i d, 0 < i → i < block.edges.length → block.delta i = some d →
      d < 2 ^ c.deltaBitWidth := by
    intro i d hi hUsed hDelta
    rw [hWidth]
    rcases (le_maxDelta hMax).2 i hi (by omega) with ⟨j, hj, hji, hOne⟩ | ⟨d', hDelta', hLe⟩
    · -- The scan has ended at a used slot: one bit, and every difference is at most one.
      have hZero := h.rises.maxDelta_one hj (by omega) hOne
      obtain rfl : max = 0 := Option.some.inj (hMax.symm.trans hZero)
      obtain ⟨-, rfl⟩ := le_of_delta hDelta
      have hSmall : block.dstIdAt i ≤ block.dstIdAt (i - 1) + 1 := by
        by_cases hSame : j = i
        · subst hSame
          omega
        · exact h.behindOne j i hj (by omega) hUsed hOne
      show _ < 2 ^ 1
      omega
    · obtain rfl := Option.some.inj (hDelta.symm.trans hDelta')
      exact lt_bitWidth hLe
  refine ⟨c, hc, hFits, ?_⟩
  rw [decode_compress hc hRoom hFits, filter_live]

theorem Lossless.compressible (h : block.Lossless index versionTs) : block.Compressible := by
  obtain ⟨c, hc, hFits, -⟩ := h
  obtain ⟨max, deltas, hMax, hUsed, hDeltas, -, hWidth, -⟩ := compress_some hc
  have hDelta : ∀ i, 0 < i → i < block.edges.length → ∃ d, block.delta i = some d := by
    intro i hi hLength
    obtain ⟨d, -, hd⟩ := getElem?_deltas hDeltas (i := i - 1) (by omega)
    rw [Nat.sub_add_cancel hi] at hd
    exact ⟨d, hd⟩
  have hRises : block.Rises := by
    intro i hi hLength
    obtain ⟨d, hd⟩ := hDelta i hi hLength
    exact (le_of_delta hd).1
  refine ⟨hUsed, hRises, fun i j hi hij hj hOne => ?_⟩
  -- The scan has ended at slot `i`, so one bit was left for each difference.
  have hZero := hRises.maxDelta_one hi (by omega) hOne
  obtain rfl : max = 0 := Option.some.inj (hMax.symm.trans hZero)
  obtain ⟨d, hd⟩ := hDelta j (by omega) hj
  have hSmall := hFits j d (by omega) hj hd
  rw [hWidth] at hSmall
  have hSmall : d < 2 ^ 1 := hSmall
  obtain ⟨hLe, rfl⟩ := le_of_delta hd
  omega

end EdgeBlock

/-- **Lossless compression** of the blocks of every reachable store, exactly where they are
compressible. -/
theorem OlapState.compression_lossless_iff {s : OlapState V} (h : Reachable s) {block : EdgeBlock}
    (hBlock : block ∈ s.storage.edges) (index versionTs : Nat) :
    block.Lossless index versionTs ↔ block.Compressible := by
  obtain ⟨n, trace, hRun⟩ := h
  have hRoom := roomy_of_run hRun block hBlock
  exact ⟨fun hLossless => hLossless.compressible, fun hCompressible =>
    hCompressible.lossless hRoom index versionTs⟩

/-- Edges to 3 and 5, created in the other order: both decode. -/
theorem OlapState.compression_lossless_two : ∃ s : OlapState Nat, ∃ block ∈ s.storage.edges,
    block.edges.map (·.dstId) = [3, 5] ∧ block.Lossless 0 0 := by
  obtain ⟨trace, s, hList, hFacts⟩ := exists_of_runList
    (show (runList next (OlapState.init (V := Nat) 0)
      [.plain (.createVertex 1 []), .plain (.createEdge ⟨none, 1, 5, []⟩),
        .plain (.createEdge ⟨none, 1, 3, []⟩)]).map
      (fun r => r.2.storage.edges[0]?) = some (some
        ⟨none, false, Timestamp.maxCommitTs, 1, [⟨2, none, 3, 0⟩, ⟨1, none, 5, 0⟩]⟩) by decide +kernel)
  have hBlock : s.storage.edges[0]? =
      some ⟨none, false, Timestamp.maxCommitTs, 1, [⟨2, none, 3, 0⟩, ⟨1, none, 5, 0⟩]⟩ := hFacts
  have hMem := List.mem_iff_getElem?.mpr ⟨0, hBlock⟩
  have hReach : Reachable s := ⟨0, trace, .of_runList (fun _ _ _ h => ⟨trivial, h⟩) hList⟩
  refine ⟨s, _, hMem, rfl, (OlapState.compression_lossless_iff hReach hMem 0 0).mpr ⟨?_, ?_, ?_⟩⟩
  · exact List.cons_ne_nil _ _
  · intro i hi hLength
    have hLength : i < 2 := hLength
    obtain rfl : i = 1 := by omega
    decide
  · intro i j hi hij hLength
    have hLength : j < 2 := hLength
    omega

/-- The edge to 5 is deleted in a transaction: its slot behind the one with destination 3 now
has destination 1, and the difference is below zero. -/
theorem OlapState.tombstone_not_lossless : ∃ s : OlapState Nat, Reachable s ∧
    ∃ block ∈ s.storage.edges, ¬ block.Lossless 0 0 := by
  obtain ⟨trace, s, hList, hFacts⟩ := exists_of_runList
    (show (runList next (OlapState.init (V := Nat) 0)
      [.plain (.createVertex 1 []), .plain (.createEdge ⟨none, 1, 3, []⟩),
        .plain (.createEdge ⟨none, 1, 5, []⟩), .begin Timestamp.txnIdStart 0,
        .op Timestamp.txnIdStart (.deleteEdge 2)]).map
      (fun r => r.2.storage.edges.map fun block =>
          (block.edges.map (·.dstId), block.compress 0 0)) = some [([3, 1], none)] by decide +kernel)
  have hEdges : (s.storage.edges.map fun block => (block.edges.map (·.dstId), block.compress 0 0)) =
      [([3, 1], none)] := hFacts
  obtain ⟨block, hMem, hBlock⟩ := List.mem_map.mp (hEdges ▸ List.mem_singleton_self _)
  refine ⟨s, ⟨0, trace, .of_runList (fun _ _ _ h => ⟨trivial, h⟩) hList⟩, block, hMem, ?_⟩
  rintro ⟨c, hc, -⟩
  have hNone : block.compress 0 0 = none := congrArg Prod.snd hBlock
  exact nomatch hNone.symm.trans hc

-- ----
-- The call
-- ----

namespace Compaction

variable {c c' : Compaction V}

/-- The loop of `compress_edge`: one compressed block for each block, in order. -/
theorem foldlM_compressNext {blocks : List EdgeBlock} {k : Nat}
    {acc r : GlobalTimestampGenerator × List CompressedEdgeBlock}
    (h : (blocks.zipIdx k).foldlM compressNext acc = some r) (hLength : acc.2.length = k) :
    ∃ added, r.2 = acc.2 ++ added ∧ added.length = blocks.length ∧
      ∀ i (block : EdgeBlock), blocks[i]? = some block → ∃ compressed versionTs,
        added[i]? = some compressed ∧ block.compress (k + i) versionTs = some compressed := by
  induction blocks generalizing k acc with
  | nil =>
    obtain rfl : acc = r := Option.some.inj h
    exact ⟨[], (List.append_nil _).symm, rfl, fun i block hi => nomatch hi⟩
  | cons block blocks ih =>
    rw [List.zipIdx_cons, List.foldlM_cons] at h
    obtain ⟨acc', hHead, hRest⟩ := Option.bind_eq_some_iff.mp h
    unfold compressNext at hHead
    split at hHead
    · cases hHead
    · rename_i versionTs gen hNext
      obtain ⟨compressed, hCompressed, hInsert⟩ := Option.bind_eq_some_iff.mp hHead
      split at hInsert
      · cases hInsert
        have hAppend : acc.2.insertIdx k compressed = acc.2 ++ [compressed] := by
          rw [← hLength, List.insertIdx_length_self]
        obtain ⟨added, hAdded, hCount, hAll⟩ := ih hRest (by
          show (acc.2.insertIdx k compressed).length = k + 1
          rw [hAppend, List.length_append, hLength]
          rfl)
        refine ⟨compressed :: added, ?_, by rw [List.length_cons, hCount, List.length_cons],
          fun i block' hi => ?_⟩
        · rw [hAdded]
          show acc.2.insertIdx k compressed ++ added = acc.2 ++ compressed :: added
          rw [hAppend, List.append_assoc]
          rfl
        · cases i with
          | zero =>
            obtain rfl : block = block' := Option.some.inj hi
            exact ⟨compressed, versionTs, rfl, hCompressed⟩
          | succ i =>
            obtain ⟨compressed', versionTs', hAt, hSame⟩ := hAll i block' hi
            rw [show k + 1 + i = k + (i + 1) by omega] at hSame
            exact ⟨compressed', versionTs', hAt, hSame⟩
      · cases hInsert

/-- A first call stores the compressed form of each block in its place, and empties the store. -/
theorem compressEdge_stores (h : c.compressEdge = some c') (hFirst : c.isEdgeCompressed = false)
    (hEmpty : c.compressedEdges = []) :
    c'.storage.edges = [] ∧ c'.compressedEdges.length = c.storage.edges.length ∧
      ∀ i (block : EdgeBlock), c.storage.edges[i]? = some block → ∃ compressed versionTs,
        c'.compressedEdges[i]? = some compressed ∧ block.compress i versionTs = some compressed := by
  unfold compressEdge at h
  rw [hFirst, if_neg Bool.false_ne_true] at h
  obtain ⟨r, hLoop, rfl⟩ := Option.map_eq_some_iff.mp h
  obtain ⟨added, hAdded, hCount, hAll⟩ := foldlM_compressNext hLoop (by rw [hEmpty]; rfl)
  have hStored : r.2 = added := by
    rw [hAdded, hEmpty]
    rfl
  refine ⟨rfl, by rw [← hCount, ← hStored], fun i block hi => ?_⟩
  obtain ⟨compressed, versionTs, hAt, hSame⟩ := hAll i block hi
  rw [Nat.zero_add] at hSame
  exact ⟨compressed, versionTs, by rw [← hAt, ← hStored], hSame⟩

end Compaction

-- ----
-- Property blocks
-- ----

/-- The latest committed value is that of the last version with a commit timestamp. -/
theorem latestCommittedPropValue_eq (versions : List (PropertyVersion V)) :
    latestCommittedPropValue versions =
      (versions.filter fun v => !Timestamp.isTxnId v.ts).getLast?.bind (·.value) := by
  unfold latestCommittedPropValue
  rw [← List.head?_filter, List.filter_reverse, List.head?_reverse]

namespace PropertyBlock

variable (block : PropertyBlock V) (versionTs : Nat)

-- ----
-- The bitmap and the values
-- ----

/-- The loop over the slots has set the bits and collected the values of those it has seen. -/
theorem foldl_present (f : Nat → Option V) {n m : Nat} (h : m ≤ n) :
    ∃ bitmap : List Bool, (List.range m).foldl
        (fun (acc : List Bool × List V) i =>
          match f i with
          | some latest => (acc.1.set i true, acc.2 ++ [latest])
          | none => acc)
        (List.replicate n false, []) = (bitmap, (List.range m).filterMap f) ∧
      bitmap.length = n ∧
      ∀ i, (bitmap[i]?).getD false = (decide (i < m) && (f i).isSome) := by
  induction m with
  | zero =>
    refine ⟨_, rfl, List.length_replicate, fun i => ?_⟩
    by_cases hi : i < n
    · rw [List.getElem?_replicate_of_lt hi]
      rfl
    · rw [List.getElem?_eq_none (by rw [List.length_replicate]; omega)]
      rfl
  | succ m ih =>
    obtain ⟨bitmap, hFold, hLength, hBits⟩ := ih (by omega)
    have hOther : ∀ i, m ≠ i → (bitmap[i]?).getD false = (decide (i < m + 1) && (f i).isSome) := by
      intro i hi
      have hSame : decide (i < m) = decide (i < m + 1) := by
        rw [decide_eq_decide]
        omega
      rw [hBits i, hSame]
    rw [List.range_succ, List.foldl_append, hFold, List.filterMap_append]
    cases hf : f m with
    | none =>
      refine ⟨bitmap, ?_, hLength, fun i => ?_⟩
      · simp only [List.foldl_cons, List.foldl_nil, List.filterMap_cons, List.filterMap_nil, hf,
          List.append_nil]
      · by_cases hi : m = i
        · subst hi
          rw [hBits m, hf, Option.isSome_none, Bool.and_false, Bool.and_false]
        · exact hOther i hi
    | some latest =>
      refine ⟨bitmap.set m true, ?_, by rw [List.length_set, hLength], fun i => ?_⟩
      · simp only [List.foldl_cons, List.foldl_nil, List.filterMap_cons, List.filterMap_nil, hf]
      · by_cases hi : m = i
        · subst hi
          rw [List.getElem?_set_self (by omega), hf, decide_eq_true (Nat.lt_succ_self m)]
          rfl
        · rw [List.getElem?_set_ne hi]
          exact hOther i hi

theorem compress_bitmap (i : Nat) :
    ((block.compress versionTs).bitmap[i]?).getD false =
      (decide (i < blockCapacity) && (latestCommittedPropValue (block.values i)).isSome) := by
  obtain ⟨bitmap, hFold, -, hBits⟩ := foldl_present
    (fun i => latestCommittedPropValue (block.values i)) (Nat.le_refl blockCapacity)
  unfold compress
  split
  rename_i bitmap' values hLoop
  obtain ⟨rfl, -⟩ := Prod.mk.inj (hLoop.symm.trans hFold)
  exact hBits i

theorem compress_values :
    (block.compress versionTs).values =
      (List.range blockCapacity).filterMap fun i => latestCommittedPropValue (block.values i) := by
  obtain ⟨bitmap, hFold, -, -⟩ := foldl_present
    (fun i => latestCommittedPropValue (block.values i)) (Nat.le_refl blockCapacity)
  unfold compress
  split
  rename_i bitmap' values hLoop
  exact (Prod.mk.inj (hLoop.symm.trans hFold)).2

theorem compress_offsets :
    (block.compress versionTs).offsets = (List.range (blockCapacity / 16)).map fun c =>
      (List.range 16).countP fun j =>
        ((block.compress versionTs).bitmap[c * 16 + j]?).getD false :=
  rfl

/-- The words before a slot and the bits before it in its word count the slots before it that
have a value. -/
theorem rank_compress {i : Nat} (hi : i < blockCapacity) :
    (block.compress versionTs).rank i =
      (List.range i).countP fun j => (latestCommittedPropValue (block.values j)).isSome := by
  have hCapacity : blockCapacity = 256 := rfl
  have hWords := countP_range_words
    (fun j => ((block.compress versionTs).bitmap[j]?).getD false) 16 (i / 16) (i % 16)
  have hAll : i / 16 * 16 + i % 16 = i := Nat.div_add_mod' i 16
  unfold CompressedPropertyBlock.rank
  rw [compress_offsets, ← List.map_take, List.take_range, Nat.min_eq_left (by omega), ← hWords,
    hAll]
  refine List.countP_congr fun j hj => ?_
  have hj : j < i := List.mem_range.mp hj
  rw [compress_bitmap, decide_eq_true (by omega), Bool.true_and]

/-- **Lossless compression** of a property block: each slot reads as its latest committed
value. -/
theorem get_compress (i : Fin blockCapacity) :
    (block.compress versionTs).get i =
      ((block.values i).filter fun v => !Timestamp.isTxnId v.ts).getLast?.bind (·.value) := by
  rw [← latestCommittedPropValue_eq]
  unfold CompressedPropertyBlock.get
  rw [compress_bitmap, decide_eq_true i.isLt, Bool.true_and, rank_compress block versionTs i.isLt,
    compress_values]
  cases hLatest : latestCommittedPropValue (block.values i) with
  | none => rfl
  | some latest =>
    exact getElem?_filterMap_range (fun i => latestCommittedPropValue (block.values i)) i.isLt
      hLatest

end PropertyBlock

-- ----
-- The call
-- ----

namespace Compaction

variable {c c' : Compaction V}

theorem foldl_insertIdx {α β : Type} (f : α → β) (xs : List α) (k : Nat) (ys : List β)
    (h : ys.length = k) :
    (xs.zipIdx k).foldl (fun ys p => ys.insertIdx p.2 (f p.1)) ys = ys ++ xs.map f := by
  induction xs generalizing k ys with
  | nil => exact (List.append_nil ys).symm
  | cons x xs ih =>
    have hInsert : ys.insertIdx k (f x) = ys ++ [f x] := by
      rw [← h, List.insertIdx_length_self]
    rw [List.zipIdx_cons, List.foldl_cons, hInsert, ih (k + 1) (ys ++ [f x])
      (by rw [List.length_append, h, List.length_singleton]), List.append_assoc, List.map_cons]
    rfl

/-- A first call stores the compressed form of each block of each column, and empties the
columns of the store. -/
theorem compressProperty_stores (h : c.compressProperty = some c')
    (hFirst : c.isPropertyCompressed = false) (hEmpty : c.compressedProperties = []) :
    c'.storage.propertyColumns = [] ∧ ∃ versionTs, c'.compressedProperties =
      c.storage.propertyColumns.map fun column =>
        ⟨column.blocks.map fun block => block.compress versionTs⟩ := by
  unfold compressProperty at h
  rw [hFirst, if_neg Bool.false_ne_true] at h
  split at h
  · cases h
  · rename_i versionTs gen hNext
    cases h
    refine ⟨rfl, versionTs, ?_⟩
    have hAll := foldl_insertIdx (fun column : PropertyColumn V =>
      (⟨column.blocks.map fun block => block.compress versionTs⟩ : CompressedPropertyColumn V))
      c.storage.propertyColumns 0 c.compressedProperties (by rw [hEmpty]; rfl)
    rw [hEmpty, List.nil_append] at hAll
    rw [← hAll, hEmpty]

end Compaction

end Olap

end MiniGU
