import MiniGU.Model.BruteForceSearch

/-!
# The DiskANN index (`diskann/src/index/inmem_index/inmem_index.rs`)

A search walks the graph of the vectors greedily (`algorithm/search/search.rs`): of its candidates
the nearest that has not been visited is visited next, and the neighbours of that one become
candidates. They are kept in a queue of bounded capacity
(`model/neighbor/neighbor_priority_queue.rs`), which belongs to a scratch that one search uses
after another.

The distances to the query are a function of the id; none is a NaN. A panic is the error `panic`,
and so is an unchecked read past the end. Assertions and overflow checks of debug builds are left
out: of the `u32` products `20 * delta` and `3 * candidate_size`, which only reserve room.
-/

namespace MiniGU

namespace InMemANN

inductive ANNError where
  | index (text : String)
  | panic
  | outOfFuel
deriving DecidableEq

def orPanic {α : Type} : Option α → Except ANNError α
  | some x => .ok x
  | none => .error .panic

structure Neighbor (D : Type) where
  id : Nat
  distance : D
  visited : Bool

namespace Neighbor

variable {D : Type}

def new (id : Nat) (distance : D) : Neighbor D := ⟨id, distance, false⟩

def lt [LinearOrder D] (a b : Neighbor D) : Bool :=
  a.distance < b.distance || (a.distance = b.distance && a.id < b.id)

end Neighbor

/-! ## The queue of candidates -/

/-- `entries` is `data[..size]`, and `room` the length of `data`. -/
structure NeighborPriorityQueue (D : Type) where
  capacity : Nat
  cur : Nat
  room : Nat
  entries : List (Neighbor D)

namespace NeighborPriorityQueue

variable {D : Type}

def withCapacity (capacity : Nat) : NeighborPriorityQueue D := ⟨capacity, 0, capacity + 1, []⟩

/-- The loop of `insert` with this many places from `lo` to `hi`; none where it meets the id. -/
def place [LinearOrder D] (entries : List (Neighbor D)) (nbr : Neighbor D) :
    Nat → Nat → Nat → Except ANNError (Option Nat)
  | 0, lo, _ => .ok (some lo)
  | steps + 1, lo, hi =>
    if lo < hi then do
      let other ← orPanic entries[(lo + hi) / 2]?
      if nbr.lt other then place entries nbr steps lo ((lo + hi) / 2)
      else if other.id = nbr.id then return none
      else place entries nbr steps ((lo + hi) / 2 + 1) hi
    else .ok (some lo)

/-- The queue is full, and its last is less than `nbr`. -/
def drops [LinearOrder D] (q : NeighborPriorityQueue D) (nbr : Neighbor D) :
    Except ANNError Bool :=
  if q.entries.length = q.capacity then
    (orPanic q.entries.getLast?).map fun last => last.lt nbr
  else .ok false

/-- `copy_within` moves what is from `lo` on; past the capacity `nbr` takes the place of another. -/
def put (q : NeighborPriorityQueue D) (nbr : Neighbor D) (lo : Nat) :
    Except ANNError (NeighborPriorityQueue D) :=
  if q.room ≤ (if lo < q.capacity then q.entries.length else lo) then .error .panic
  else .ok { q with
    cur := min lo q.cur
    entries :=
      if lo < q.capacity then
        (q.entries.take lo ++ .new nbr.id nbr.distance :: q.entries.drop lo).take
          (if q.entries.length < q.capacity then q.entries.length + 1 else q.entries.length)
      else q.entries.set lo (.new nbr.id nbr.distance) }

def insert [LinearOrder D] (q : NeighborPriorityQueue D) (nbr : Neighbor D) :
    Except ANNError (NeighborPriorityQueue D) := do
  if ← q.drops nbr then return q
  match ← place q.entries nbr q.entries.length 0 q.entries.length with
  | none => return q
  | some lo => q.put nbr lo

def closestNotvisited (q : NeighborPriorityQueue D) :
    Except ANNError (Neighbor D × NeighborPriorityQueue D) := do
  let nbr ← orPanic q.entries[q.cur]?
  let nbr := { nbr with visited := true }
  let entries := q.entries.set q.cur nbr
  let skipped := (entries.drop q.cur).takeWhile fun other => other.visited
  return (nbr, { q with cur := q.cur + skipped.length, entries := entries })

def hasNotvisitedNode (q : NeighborPriorityQueue D) : Bool := q.cur < q.entries.length

def setCapacity (q : NeighborPriorityQueue D) (capacity : Nat) : NeighborPriorityQueue D :=
  if capacity < q.room then { q with capacity := capacity } else q

/-- `resize` makes `data` shorter as well as longer. The queue is empty where this is called. -/
def reserve (q : NeighborPriorityQueue D) (capacity : Nat) : NeighborPriorityQueue D :=
  if q.capacity < capacity then { q with capacity := capacity, room := capacity + 1 } else q

def clear (q : NeighborPriorityQueue D) : NeighborPriorityQueue D :=
  { q with cur := 0, entries := [] }

end NeighborPriorityQueue

/-! ## The scratch -/

/-- `id_scratch` is in use during a visit only. -/
structure InMemQueryScratch (D : Type) where
  candidateSize : Nat
  bestCandidates : NeighborPriorityQueue D
  nodeVisited : List Nat

namespace InMemQueryScratch

variable {D : Type}

def new (searchCandidateSize indexingCandidateSize : Nat) : InMemQueryScratch D :=
  ⟨max searchCandidateSize indexingCandidateSize,
    .withCapacity (max searchCandidateSize indexingCandidateSize), []⟩

/-- The queue is asked for the difference only. -/
def resizeForNewCandidateSize (s : InMemQueryScratch D) (newCandidateSize : Nat) :
    InMemQueryScratch D :=
  if s.candidateSize < newCandidateSize then
    { s with
      candidateSize := newCandidateSize
      bestCandidates := s.bestCandidates.reserve (newCandidateSize - s.candidateSize) }
  else s

def clear (s : InMemQueryScratch D) : InMemQueryScratch D :=
  ⟨s.candidateSize, s.bestCandidates.clear, []⟩

end InMemQueryScratch

/-! ## The search -/

/-- What a search reads of an index without frozen points; the dataset has room for `vectors`. -/
structure InmemIndex where
  maxPoints : Nat
  searchListSize : Nat
  start : Nat
  finalGraph : List (List Nat)
  vectors : Nat
  deleteSet : List Nat

/-- A filter, and whether it is applied to what becomes a candidate. -/
structure SearchFilter where
  mask : Option (Nat → Bool)
  shouldPre : Bool

/-- What the filter lets become a candidate. -/
def SearchFilter.accepts (f : SearchFilter) (id : Nat) : Bool :=
  !f.shouldPre || f.mask.all fun contains => contains id

namespace InmemIndex

variable {D : Type}

/-- With a filter that rejects the start, also the first id that it contains. -/
def getInitIds (ix : InmemIndex) (f : SearchFilter) : List Nat :=
  ix.start ::
    if f.accepts ix.start then []
    else ((List.range (ix.maxPoints % 2 ^ 32)).find? f.accepts).toList

/-- Of these ids the ones that are in range and not yet `seen`, each once. -/
def unseen (ix : InmemIndex) (seen : List Nat) : List Nat → List Nat
  | [] => []
  | id :: rest =>
    if ix.maxPoints ≤ id ∨ id ∈ seen then unseen ix seen rest
    else id :: unseen ix (id :: seen) rest

section Walk

variable [LinearOrder D] (ix : InmemIndex) (distance : Nat → D)

/-- `get_vertex`, its distance, and `insert`. -/
def consider (q : NeighborPriorityQueue D) (id : Nat) :
    Except ANNError (NeighborPriorityQueue D) :=
  if ix.vectors ≤ id then .error (.index s!"Invalid vertex id {id}.")
  else q.insert (.new id (distance id))

/-- Of the nodes to start from only the first can be out of range. -/
def initGraphForPoint (initIds : List Nat) (s : InMemQueryScratch D) :
    Except ANNError (InMemQueryScratch D) :=
  match initIds.find? fun id => ix.maxPoints ≤ id with
  | some id =>
    .error (.index s!"vertex_id {id} is out of valid range of points {ix.maxPoints}")
  | none => do
    let fresh := ix.unseen s.nodeVisited initIds
    let best ← fresh.foldlM (ix.consider distance) (s.bestCandidates.reserve ix.searchListSize)
    return { s with bestCandidates := best, nodeVisited := fresh ++ s.nodeVisited }

/-- The body of the loop of `greedy_search`, and how many distances it computes. -/
def visit (f : SearchFilter) (s : InMemQueryScratch D) :
    Except ANNError (Neighbor D × Nat × InMemQueryScratch D) := do
  let (closestNode, best) ← s.bestCandidates.closestNotvisited
  let neighbors ← orPanic ix.finalGraph[closestNode.id]?
  let fresh := ix.unseen s.nodeVisited neighbors
  let best ← (fresh.filter f.accepts).foldlM (ix.consider distance) best
  return (closestNode, (fresh.filter f.accepts).length,
    { s with bestCandidates := best, nodeVisited := fresh ++ s.nodeVisited })

/-- The nodes it visits, in order, and how many distances it computes. -/
def greedySearch (f : SearchFilter) :
    Nat → InMemQueryScratch D → Except ANNError (List (Neighbor D) × Nat × InMemQueryScratch D)
  | fuel, s =>
    if s.bestCandidates.hasNotvisitedNode then
      match fuel with
      | 0 => .error .outOfFuel
      | fuel + 1 => do
        let (closestNode, len, s) ← ix.visit distance f s
        let (visitedNodes, cmps, s) ← greedySearch f fuel s
        return (closestNode :: visitedNodes, len + cmps, s)
    else .ok ([], 0, s)

/-- A round for every vertex is enough. -/
def searchWithLOverride (f : SearchFilter) (searchListSize : Nat) (s : InMemQueryScratch D) :
    Except ANNError (Nat × InMemQueryScratch D) := do
  let s ← ix.initGraphForPoint distance (ix.getInitIds f) s
  let s := { s with bestCandidates := s.bestCandidates.setCapacity searchListSize }
  let (_, cmps, s) ← ix.greedySearch distance f ix.maxPoints s
  return (cmps, s)

end Walk

/-- What `search` lets into its result. -/
def passes (ix : InmemIndex) (f : SearchFilter) (id : Nat) : Bool :=
  id < ix.maxPoints % 2 ^ 32 && !ix.deleteSet.contains id && f.mask.all fun contains => contains id

/-- The loop of `search` over the candidates; `found` is written to slices of `k` places. -/
def collect (ix : InmemIndex) (f : SearchFilter) (k : Nat) :
    List (Neighbor D) → List (Nat × D) → Except ANNError (List (Nat × D))
  | [], found => .ok found
  | nbr :: rest, found =>
    if ix.passes f nbr.id then
      if k ≤ found.length then .error .panic
      else if found.length + 1 = k then .ok (found ++ [(nbr.id, nbr.distance)])
      else collect ix f k rest (found ++ [(nbr.id, nbr.distance)])
    else if found.length = k then .ok found
    else collect ix f k rest found

/-- What is found, and the number of distances computed, which is what the source returns. -/
def search [LinearOrder D] (ix : InmemIndex) (distance : Nat → D) (k l : Nat)
    (f : SearchFilter) (s : InMemQueryScratch D) :
    Except ANNError (List (Nat × D) × Nat × InMemQueryScratch D) :=
  if l < k then .error (.index s!"Set L: {l} to a value of at least K: {k}")
  else do
    let (cmps, s) ← ix.searchWithLOverride distance f l (s.resizeForNewCandidateSize l)
    let found ← ix.collect f k s.bestCandidates.entries []
    return (found, cmps, s.clear)

end InmemIndex

end InMemANN

end MiniGU
