import MiniGU.Lib.BoundedHeap
import MiniGU.Vector.InmemIndex

/-!
# The queue of candidates

`Ordered` is what the queue keeps: it is in strict order of distance and id, and `cur` is where the
first is that is not visited. An insertion finds the one place that keeps the order
(`place_spec`), so that the queue holds the least of what it held and of the new one
(`insert_spec`).
-/

namespace MiniGU

namespace InMemANN

variable {D : Type} [LinearOrder D] {distance : Nat → D}

/-- What the queue is in order of. -/
def idKey (distance : Nat → D) (id : Nat) : D ×ₗ Nat := toLex (distance id, id)

def Neighbor.key (nbr : Neighbor D) : D ×ₗ Nat := toLex (nbr.distance, nbr.id)

theorem Neighbor.lt_iff {a b : Neighbor D} : a.lt b = true ↔ a.key < b.key := by
  simp [Neighbor.lt, Neighbor.key, Prod.Lex.toLex_lt_toLex]

omit [LinearOrder D] in
theorem eq_of_idKey_eq {a b : Nat} (h : idKey distance a = idKey distance b) : a = b :=
  congrArg (fun p => (ofLex p).2) h

namespace NeighborPriorityQueue

variable {q q' : NeighborPriorityQueue D}

def keys (q : NeighborPriorityQueue D) : List (D ×ₗ Nat) := q.entries.map Neighbor.key

structure Ordered (distance : Nat → D) (q : NeighborPriorityQueue D) : Prop where
  length_le : q.entries.length ≤ q.capacity
  capacity_lt : q.capacity < q.room
  sorted : q.keys.Pairwise (· < ·)
  keyed : ∀ k ∈ q.keys, k = idKey distance (ofLex k).2
  cur_eq : q.cur = (q.entries.takeWhile Neighbor.visited).length

theorem Ordered.key_eq (hq : q.Ordered distance) {e : Neighbor D} (he : e ∈ q.entries) :
    e.key = idKey distance e.id :=
  hq.keyed _ (List.mem_map_of_mem he)

theorem Ordered.key_lt (hq : q.Ordered distance) {i j : Nat} {a b : Neighbor D} (h : i < j)
    (ha : q.entries[i]? = some a) (hb : q.entries[j]? = some b) : a.key < b.key := by
  obtain ⟨hi, rfl⟩ := List.getElem?_eq_some_iff.mp ha
  obtain ⟨hj, rfl⟩ := List.getElem?_eq_some_iff.mp hb
  exact List.pairwise_iff_getElem.mp (List.pairwise_map.mp hq.sorted) i j hi hj h

-- ----
-- Insertion
-- ----

/-- What is before `lo` is less, and what is from `hi` on is greater. -/
structure Splits (q : NeighborPriorityQueue D) (k : D ×ₗ Nat) (lo hi : Nat) : Prop where
  below : ∀ i b, q.entries[i]? = some b → i < lo → b.key < k
  above : ∀ i b, q.entries[i]? = some b → hi ≤ i → k < b.key

theorem place_step {entries : List (Neighbor D)} {nbr other : Neighbor D} {lo hi : Nat}
    (h : lo < hi) (hRead : entries[(lo + hi) / 2]? = some other) (steps : Nat) :
    place entries nbr (steps + 1) lo hi =
      if nbr.lt other then place entries nbr steps lo ((lo + hi) / 2)
      else if other.id = nbr.id then .ok none
      else place entries nbr steps ((lo + hi) / 2 + 1) hi := by
  rw [place, if_pos h, hRead]
  rfl

/-- **The binary search** finds the place of something new. -/
theorem place_spec (hq : q.Ordered distance) {id : Nat} (hNew : idKey distance id ∉ q.keys)
    (steps : Nat) :
    ∀ lo hi, hi - lo ≤ steps → lo ≤ hi → hi ≤ q.entries.length →
      q.Splits (idKey distance id) lo hi →
      ∃ p, place q.entries (.new id (distance id)) steps lo hi = .ok (some p) ∧
        p ≤ q.entries.length ∧ q.Splits (idKey distance id) p p := by
  induction steps with
  | zero =>
    intro lo hi hSteps hLo hHi hSplits
    obtain rfl : lo = hi := by omega
    exact ⟨lo, rfl, hHi, hSplits⟩
  | succ steps ih =>
    intro lo hi hSteps hLo hHi hSplits
    by_cases h : lo < hi
    · obtain ⟨other, hRead⟩ : ∃ other, q.entries[(lo + hi) / 2]? = some other :=
        ⟨_, List.getElem?_eq_getElem (by omega)⟩
      rw [place_step h hRead]
      by_cases hLess : (Neighbor.new id (distance id)).lt other = true
      · have hLt : idKey distance id < other.key := Neighbor.lt_iff.mp hLess
        rw [if_pos hLess]
        refine ih lo ((lo + hi) / 2) (by omega) (by omega) (by omega) ⟨hSplits.below, ?_⟩
        intro i b hb hi'
        rcases Nat.lt_or_eq_of_le hi' with hi' | rfl
        · exact lt_trans hLt (hq.key_lt hi' hRead hb)
        · rwa [← Option.some.inj (hRead.symm.trans hb)]
      · have hMem := List.mem_map_of_mem (f := Neighbor.key) (List.mem_of_getElem? hRead)
        have hOther : other.key = idKey distance other.id := hq.keyed _ hMem
        have hSame : other.id ≠ id := fun h => hNew (h ▸ hOther ▸ hMem)
        have hLt : other.key < idKey distance id :=
          lt_of_le_of_ne (not_lt.mp fun h => hLess (Neighbor.lt_iff.mpr h)) fun hEq =>
            hNew (hEq ▸ hMem)
        rw [if_neg hLess, if_neg (show ¬ other.id = (Neighbor.new id (distance id)).id from hSame)]
        refine ih ((lo + hi) / 2 + 1) hi (by omega) (by omega) hHi ⟨?_, hSplits.above⟩
        intro i b hb hi'
        rcases Nat.lt_or_eq_of_le (Nat.le_of_lt_succ hi') with hi' | rfl
        · exact lt_trans (hq.key_lt hi' hb hRead) hLt
        · rwa [← Option.some.inj (hRead.symm.trans hb)]
    · obtain rfl : lo = hi := by omega
      rw [place, if_neg h]
      exact ⟨lo, rfl, hHi, hSplits⟩

/-- What an insertion of something new leaves. -/
structure Inserts (distance : Nat → D) (q : NeighborPriorityQueue D) (id : Nat)
    (q' : NeighborPriorityQueue D) : Prop where
  ordered : q'.Ordered distance
  capacity_eq : q'.capacity = q.capacity
  keys_eq : q'.keys = (q.keys.orderedInsert (· ≤ ·) (idKey distance id)).take q.capacity
  entry : ∀ e ∈ q'.entries, e ∈ q.entries ∨ e = .new id (distance id)

section Put

variable {id p : Nat} (hq : q.Ordered distance) (hp : p ≤ q.entries.length)
  (hSplits : q.Splits (idKey distance id) p p)
include hq hp hSplits

theorem Splits.keys_inserted : ∃ before after, q.keys = before ++ after ∧
    q.keys.orderedInsert (· ≤ ·) (idKey distance id) = before ++ idKey distance id :: after ∧
    (before ++ idKey distance id :: after).Pairwise (· < ·) ∧
    before = (q.entries.take p).map Neighbor.key ∧ after = (q.entries.drop p).map Neighbor.key := by
  have hKeys : q.keys = (q.entries.take p).map Neighbor.key ++
      (q.entries.drop p).map Neighbor.key := by
    rw [← List.map_append, List.take_append_drop]
    rfl
  have hBelow : ∀ b ∈ (q.entries.take p).map Neighbor.key, b < idKey distance id := by
    intro b hb
    obtain ⟨nbr, hNbr, rfl⟩ := List.mem_map.mp hb
    obtain ⟨i, hi, rfl⟩ := List.mem_take_iff_getElem.mp hNbr
    exact hSplits.below i _ (List.getElem?_eq_getElem _) (by omega)
  have hAbove : ∀ b ∈ (q.entries.drop p).map Neighbor.key, idKey distance id < b := by
    intro b hb
    obtain ⟨nbr, hNbr, rfl⟩ := List.mem_map.mp hb
    obtain ⟨i, hi, rfl⟩ := List.mem_drop_iff_getElem.mp hNbr
    exact hSplits.above (p + i) _ (List.getElem?_eq_getElem (by omega)) (by omega)
  refine ⟨_, _, hKeys, hKeys ▸ orderedInsert_append hBelow fun b hb => le_of_lt (hAbove b hb), ?_,
    rfl, rfl⟩
  have hParts := hq.sorted
  rw [hKeys, List.pairwise_append] at hParts
  refine List.pairwise_append.mpr
    ⟨hParts.1, List.pairwise_cons.mpr ⟨hAbove, hParts.2.1⟩, fun a ha b hb => ?_⟩
  rcases List.mem_cons.mp hb with rfl | hb
  · exact hBelow a ha
  · exact hParts.2.2 a ha b hb

/-- A put below the capacity goes to its place, and what no longer fits is dropped. -/
theorem put_spec (hRoom : p < q.capacity) :
    ∃ q', q.put (.new id (distance id)) p = .ok q' ∧ q.Inserts distance id q' := by
  obtain ⟨before, after, -, hInsert, hSorted, rfl, rfl⟩ := hSplits.keys_inserted hq hp
  have hLe := hq.length_le
  have hLt := hq.capacity_lt
  have hTake : (q.entries.take p).length = p := List.length_take_of_le hp
  have hLength : (q.entries.take p ++ .new id (distance id) :: q.entries.drop p).length =
      q.entries.length + 1 := by
    rw [List.length_append, List.length_cons, List.length_drop]
    omega
  refine ⟨⟨q.capacity, min p q.cur, q.room,
    (q.entries.take p ++ .new id (distance id) :: q.entries.drop p).take q.capacity⟩, ?_, ?_⟩
  · rw [put, if_neg (by rw [if_pos hRoom]; omega), if_pos hRoom]
    congr 2
    change (q.entries.take p ++ .new id (distance id) :: q.entries.drop p).take _ = _
    -- as long as the queue is not full there is room for all
    by_cases hMore : q.entries.length < q.capacity
    · rw [if_pos hMore]
      exact (List.take_of_length_le (Nat.le_of_eq hLength)).trans
        (List.take_of_length_le (le_trans (Nat.le_of_eq hLength) hMore)).symm
    · rw [if_neg hMore, show q.entries.length = q.capacity by omega]
  have hKeys : ((q.entries.take p ++ .new id (distance id) :: q.entries.drop p).take
      q.capacity).map Neighbor.key =
      (q.keys.orderedInsert (· ≤ ·) (idKey distance id)).take q.capacity := by
    rw [hInsert, List.map_take, List.map_append, List.map_cons]
    rfl
  have hEntry : ∀ e ∈ (q.entries.take p ++ .new id (distance id) :: q.entries.drop p).take
      q.capacity, e ∈ q.entries ∨ e = .new id (distance id) := by
    intro e he
    rcases List.mem_append.mp (List.mem_of_mem_take he) with he | he
    · exact Or.inl (List.mem_of_mem_take he)
    · rcases List.mem_cons.mp he with rfl | he
      · exact Or.inr rfl
      · exact Or.inl (List.mem_of_mem_drop he)
  refine ⟨⟨List.length_take_le _ _, hLt, ?_, ?_, ?_⟩, rfl, hKeys, hEntry⟩
  · unfold keys
    rw [hKeys, hInsert]
    exact hSorted.sublist (List.take_sublist _ _)
  · intro k hk
    unfold keys at hk
    rw [hKeys] at hk
    rcases (List.mem_orderedInsert _).mp (List.mem_of_mem_take hk) with rfl | hk
    · rfl
    · exact hq.keyed k hk
  · -- the new one is not visited
    have hNew : (q.entries.take p ++ .new id (distance id) :: q.entries.drop p).takeWhile
        Neighbor.visited = (q.entries.takeWhile Neighbor.visited).take p := by
      rw [List.takeWhile_append, List.takeWhile_cons_of_neg Bool.false_ne_true, List.append_nil,
        List.take_takeWhile]
      split
      · rename_i h
        exact ((List.takeWhile_prefix _).eq_of_length h).symm
      · rfl
    dsimp only
    rw [← List.take_takeWhile, hNew, List.length_take, List.length_take, hq.cur_eq]
    omega

end Put

/-- **An insertion** leaves the least of what was there and of the new one. -/
theorem insert_spec (hq : q.Ordered distance) (hPos : 0 < q.capacity) {id : Nat}
    (hNew : idKey distance id ∉ q.keys) :
    ∃ q', q.insert (.new id (distance id)) = .ok q' ∧ q.Inserts distance id q' := by
  have hLe := hq.length_le
  obtain ⟨p, hPlace, hp, hSplits⟩ := place_spec hq hNew q.entries.length 0 q.entries.length
    (by omega) (by omega) (by omega) ⟨fun i b _ hi => absurd hi (Nat.not_lt_zero i),
      fun i b hb hi => absurd (List.getElem?_eq_some_iff.mp hb).1 (Nat.not_lt.mpr hi)⟩
  -- where it is not dropped its place is within the capacity
  have hGo : q.drops (.new id (distance id)) = .ok false → p < q.capacity →
      ∃ q', q.insert (.new id (distance id)) = .ok q' ∧ q.Inserts distance id q' := by
    intro hKeeps hRoom
    unfold insert
    rw [hKeeps, hPlace]
    exact put_spec hq hp hSplits hRoom
  by_cases hFull : q.entries.length = q.capacity
  · have hRead := List.getElem?_eq_getElem (l := q.entries) (i := q.entries.length - 1) (by omega)
    have hDrops : q.drops (.new id (distance id)) =
        .ok (q.entries[q.entries.length - 1].lt (.new id (distance id))) := by
      rw [drops, if_pos hFull, List.getLast?_eq_getElem?, hRead]
      rfl
    by_cases hLess : q.entries[q.entries.length - 1].lt (.new id (distance id)) = true
    · have hAll : ∀ b ∈ q.keys, b < idKey distance id := by
        intro b hb
        obtain ⟨nbr, hNbr, rfl⟩ := List.mem_map.mp hb
        obtain ⟨i, hi, rfl⟩ := List.getElem_of_mem hNbr
        rcases Nat.lt_or_eq_of_le (Nat.le_sub_one_of_lt hi) with h | rfl
        · exact lt_trans (hq.key_lt h (List.getElem?_eq_getElem _) hRead) (Neighbor.lt_iff.mp hLess)
        · exact Neighbor.lt_iff.mp hLess
      refine ⟨q, ?_, hq, rfl, ?_, fun e he => Or.inl he⟩
      · unfold insert
        rw [hDrops, hLess]
        rfl
      · have hLast := orderedInsert_append hAll (List.forall_mem_nil _)
        rw [List.append_nil] at hLast
        have hLength : q.keys.length = q.capacity := (List.length_map _).trans hFull
        rw [hLast, List.take_append_of_le_length (by omega), List.take_of_length_le (by omega)]
    · refine hGo (hDrops.trans (congrArg _ (Bool.not_eq_true _ ▸ hLess))) ?_
      by_contra hPast
      exact hLess (Neighbor.lt_iff.mpr (hSplits.below _ _ hRead (by omega)))
  · exact hGo (if_neg hFull) (by omega)

-- ----
-- Visits
-- ----

/-- When nothing is left, all are visited. -/
theorem Ordered.all_visited (hq : q.Ordered distance) (h : q.hasNotvisitedNode = false) :
    ∀ e ∈ q.entries, e.visited = true := by
  have hLe : q.entries.length ≤ q.cur := Nat.le_of_not_lt (of_decide_eq_false h)
  rw [hq.cur_eq] at hLe
  have hAll := List.all_takeWhile (l := q.entries) (p := Neighbor.visited)
  rw [(List.takeWhile_prefix Neighbor.visited).eq_of_length_le hLe] at hAll
  exact List.all_eq_true.mp hAll

/-- **A visit** marks the first that is not visited. -/
theorem closest_spec (hq : q.Ordered distance) (h : q.hasNotvisitedNode = true) :
    ∃ before nbr after q', q.entries = before ++ nbr :: after ∧ nbr.visited = false ∧
      q.closestNotvisited = .ok ({ nbr with visited := true }, q') ∧ q'.Ordered distance ∧
      q'.capacity = q.capacity ∧ q'.keys = q.keys ∧
      q'.entries = before ++ { nbr with visited := true } :: after := by
  have hLt : q.cur < q.entries.length := of_decide_eq_true h
  have hSplit := List.takeWhile_append_dropWhile (p := Neighbor.visited) (l := q.entries)
  obtain ⟨before, hBefore⟩ : ∃ l, l = q.entries.takeWhile Neighbor.visited := ⟨_, rfl⟩
  have hCur := hq.cur_eq
  rw [← hBefore] at hSplit hCur
  cases hDrop : q.entries.dropWhile Neighbor.visited with
  | nil =>
    rw [hDrop, List.append_nil] at hSplit
    rw [← hSplit, hCur] at hLt
    exact absurd hLt (lt_irrefl _)
  | cons nbr after =>
    have hNew : nbr.visited = false := by
      have := List.head?_dropWhile_not Neighbor.visited q.entries
      rwa [hDrop] at this
    rw [hDrop] at hSplit
    have hSet : q.entries.set q.cur { nbr with visited := true } =
        before ++ { nbr with visited := true } :: after := by
      rw [← hSplit, hCur, List.set_append_right _ _ (le_refl _), Nat.sub_self]
      rfl
    have hKeys : (before ++ { nbr with visited := true } :: after).map Neighbor.key = q.keys := by
      unfold keys
      rw [← hSplit, List.map_append, List.map_append]
      rfl
    refine ⟨before, nbr, after, ⟨q.capacity, q.cur + (({ nbr with visited := true } ::
      after).takeWhile Neighbor.visited).length, q.room, before ++
      { nbr with visited := true } :: after⟩, hSplit.symm, hNew, ?_, ?_, rfl, hKeys, rfl⟩
    · have hRead : q.entries[q.cur]? = some nbr := by
        rw [← hSplit, hCur, List.getElem?_append_right (le_refl _), Nat.sub_self]
        rfl
      unfold closestNotvisited
      rw [hRead]
      change Except.ok (_, _) = _
      rw [hSet, hCur, List.drop_left]
    · refine ⟨?_, hq.capacity_lt, ?_, ?_, ?_⟩
      · rw [← hSet, List.length_set]
        exact hq.length_le
      · unfold keys
        rw [hKeys]
        exact hq.sorted
      · unfold keys
        rw [hKeys]
        exact hq.keyed
      · have hVisited : before.all Neighbor.visited = true := hBefore ▸ List.all_takeWhile
        dsimp only
        rw [List.takeWhile_append_of_pos (List.all_eq_true.mp hVisited), List.length_append, hCur]

end NeighborPriorityQueue

end InMemANN

end MiniGU
