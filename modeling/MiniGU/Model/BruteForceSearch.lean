import MiniGU.Model.InMemANN
import Mathlib.Data.Prod.Lex

/-!
# Filtered search by brute force (`brute_force_search` of `in_mem_diskann.rs`)

The candidates of a mask are gone through in ascending order of their ids. A bounded heap keeps the
nearest of them, by distance and then by id; what it keeps is translated to vertices at the end.

The distance of two vectors is DiskANN's; its data are one block that begins at a multiple of 64
bytes, and the vectors lie in it one after the other.
-/

namespace MiniGU

namespace InMemANN

/-! ## Distances -/

/-- What the search uses of DiskANN: `InmemDataset::data`, in blocks of `dim` (`N`) coordinates. -/
structure DiskANN (F32 D : Type) where
  dim : Nat
  data : List F32
  distanceL2 : List F32 → List F32 → D
  supported : dim = 104 ∨ dim = 128 ∨ dim = 256

/-- A slice of `f32`, and how far behind a multiple of 64 bytes it begins. -/
structure AlignedSlice (F32 : Type) where
  misalignment : Nat
  values : List F32

/-- `ensure_query_aligned`: the slice itself, or an aligned copy. -/
def AlignedSlice.ofQuery {F32 : Type} (query : List F32) : AlignedSlice F32 := ⟨0, query⟩

@[simp] theorem AlignedSlice.misalignment_ofQuery {F32 : Type} (query : List F32) :
    (ofQuery query).misalignment = 0 := rfl

@[simp] theorem AlignedSlice.values_ofQuery {F32 : Type} (query : List F32) :
    (ofQuery query).values = query := rfl

namespace DiskANN

variable {F32 D : Type} (inner : DiskANN F32 D)

def getAlignedVectorData (vectorId : Nat) : Option (AlignedSlice F32) :=
  let start := vectorId * inner.dim
  if inner.data.length < start + inner.dim then none
  else some ⟨4 * start % 64, (inner.data.drop start).take inner.dim⟩

/-- The distance is there for three dimensions, and for slices that begin at a multiple of 64
bytes. -/
def computeL2Distance (query stored : AlignedSlice F32) : Except VectorIndexError D :=
  let dimension := query.values.length
  if dimension ≠ stored.values.length then
    .error (.invalidDimension stored.values.length dimension)
  else if dimension = 104 ∨ dimension = 128 ∨ dimension = 256 then
    if query.misalignment ≠ 0 then
      .error (.unsupportedOperation "Query vector not 64-byte aligned for optimal SIMD performance")
    else if stored.misalignment ≠ 0 then
      .error (.unsupportedOperation
        "Stored vector not 64-byte aligned for optimal SIMD performance")
    else .ok (inner.distanceL2 query.values stored.values)
  else .error (.invalidDimension stored.values.length dimension)

def distanceTo (query : List F32) (vectorId : Nat) : Except VectorIndexError D :=
  match inner.getAlignedVectorData vectorId with
  | none => .error .diskANN
  | some storedVector => inner.computeL2Distance (.ofQuery query) storedVector

/-- The vector is in the data, the query has as many coordinates, and the vector begins at a
multiple of 64 bytes: with 104 coordinates every second one does. -/
def Measures (query : List F32) (vectorId : Nat) : Prop :=
  (vectorId + 1) * inner.dim ≤ inner.data.length ∧ query.length = inner.dim ∧
    (inner.dim = 104 → vectorId % 2 = 0)

theorem distance_iff {query : List F32} {vectorId : Nat} :
    (∃ d, inner.distanceTo query vectorId = .ok d) ↔ inner.Measures query vectorId := by
  have hEnd : (vectorId + 1) * inner.dim = vectorId * inner.dim + inner.dim := Nat.succ_mul ..
  have hStart : 4 * (vectorId * inner.dim) % 64 = 0 ↔ (inner.dim = 104 → vectorId % 2 = 0) := by
    rcases inner.supported with hDim | hDim | hDim <;> rw [hDim] <;> omega
  unfold distanceTo getAlignedVectorData Measures
  rw [hEnd]
  by_cases hData : inner.data.length < vectorId * inner.dim + inner.dim
  · simp only [if_pos hData]
    exact ⟨fun ⟨_, h⟩ => (nomatch h), fun h => absurd h.1 (Nat.not_le.mpr hData)⟩
  · have hLength : ((inner.data.drop (vectorId * inner.dim)).take inner.dim).length =
        inner.dim := by
      rw [List.length_take, List.length_drop]
      omega
    simp only [if_neg hData, computeL2Distance, AlignedSlice.values_ofQuery,
      AlignedSlice.misalignment_ofQuery, hLength]
    by_cases hQuery : query.length = inner.dim
    · simp only [hQuery, ne_eq, not_true_eq_false, if_false, if_pos inner.supported]
      by_cases hAligned : 4 * (vectorId * inner.dim) % 64 = 0
      · rw [if_neg (not_not.mpr hAligned)]
        exact ⟨fun _ => ⟨Nat.not_lt.mp hData, trivial, hStart.mp hAligned⟩, fun _ => ⟨_, rfl⟩⟩
      · rw [if_pos hAligned]
        exact ⟨fun ⟨_, h⟩ => (nomatch h), fun h => absurd (hStart.mpr h.2.2) hAligned⟩
    · rw [if_pos hQuery]
      exact ⟨fun ⟨_, h⟩ => (nomatch h), fun h => absurd h.2.1 hQuery⟩

end DiskANN

/-! ## The heap -/

/-- `BinaryHeap<(OrderedFloat<f32>, u32)>`, as the ascending list of its elements. -/
abbrev BinaryHeap (D : Type) := List (D ×ₗ Nat)

namespace BinaryHeap

variable {D : Type} [LinearOrder D]

def push (heap : BinaryHeap D) (distance : D) (vectorId : Nat) : BinaryHeap D :=
  heap.orderedInsert (· ≤ ·) (toLex (distance, vectorId))

/-- The greatest element. -/
def peek (heap : BinaryHeap D) : Option (D × Nat) := heap.getLast?.map ofLex

def pop (heap : BinaryHeap D) : BinaryHeap D := heap.dropLast

def intoSortedVec (heap : BinaryHeap D) : List (D × Nat) := heap.map ofLex

/-- The body of the search loop. -/
def keep (k : Nat) (heap : BinaryHeap D) (distance : D) (vectorId : Nat) : BinaryHeap D :=
  if heap.length < k then heap.push distance vectorId
  else
    match heap.peek with
    | some (maxDistance, _) =>
      if distance < maxDistance then heap.pop.push distance vectorId else heap
    | none => heap

end BinaryHeap

/-! ## The search -/

namespace InMemANNAdapter

variable {F32 D : Type} [LinearOrder D]

/-- The heap is made with room for `k` elements of 8 bytes, more than `isize::MAX` of which panic. -/
def bruteForceSearch (a : InMemANNAdapter) (inner : DiskANN F32 D) (query : List F32) (k : Nat)
    (filterMask : FilterMask) : Option (Except VectorIndexError (List (Nat × D))) :=
  if k = 0 then some (.ok [])
  else if 2 ^ 63 ≤ 8 * k then none
  else some (do
    let heap ← filterMask.iterCandidates.foldlM (fun heap vectorId => do
      let distance ← inner.distanceTo query vectorId
      return BinaryHeap.keep k heap distance vectorId) ([] : BinaryHeap D)
    return (BinaryHeap.intoSortedVec heap).filterMap fun (distance, vectorId) =>
      (a.vectorToNode.get vectorId).map fun nodeId => (nodeId, distance))

end InMemANNAdapter

end InMemANN

end MiniGU
