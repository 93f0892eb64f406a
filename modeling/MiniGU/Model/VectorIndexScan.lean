import MiniGU.Model.ArrayValue

/-!
# Vector index scan (`gql/execution/src/executor/vector_index_scan.rs`)

The scan drains its child into a bitmap over vertex ids, and searches the vector index among the
ids that are set there (`vector_search` of `storage/src/tp/memory_graph.rs`). The index knows
vertices by vector ids of its own; the bitmap becomes a mask over these
(`storage/src/tp/vector_index/filter.rs`).

The index, the graph of the session and its transactions are parameters. Memory for a bitmap is
there up to the largest size that a vector may have.
-/

namespace MiniGU

/-! ## The index -/

/-- The places of a bitmap that are set. -/
def extractTrueNodeIds (bitmap : List Bool) : List Nat :=
  bitmap.zipIdx.filterMap fun (value, idx) => if value then some idx else none

/-- A set of vector ids, and how many there are. -/
structure FilterMask where
  bitmap : List Bool
  candidateCount : Nat
deriving DecidableEq, Repr

namespace FilterMask

def insert (mask : FilterMask) (vectorId : Nat) : FilterMask :=
  match mask.bitmap[vectorId]? with
  | some false => ⟨mask.bitmap.set vectorId true, mask.candidateCount + 1⟩
  | _ => mask

/-- Ids past the number of vectors are left out. -/
def new (candidates : List Nat) (totalVectorNum : Nat) : FilterMask :=
  candidates.foldl insert ⟨List.replicate totalVectorNum false, 0⟩

def containsVector (mask : FilterMask) (vectorId : Nat) : Bool := mask.bitmap[vectorId]?.getD false

/-- The places that are set, each as a `u32`. -/
def iterCandidates (mask : FilterMask) : List Nat :=
  (extractTrueNodeIds mask.bitmap).map fun i => i % 2 ^ 32

end FilterMask

/-- The two maps of an index, each the other's inverse. Vector ids count up from zero, and an
index takes at most `u32::MAX` vectors. -/
structure IdTranslation where
  nodeToVectorId : Nat → Option Nat
  vectorToNode : Nat → Option Nat
  inverse : ∀ n v, nodeToVectorId n = some v ↔ vectorToNode v = some n
  id_lt : ∀ n v, nodeToVectorId n = some v → v + 1 < 2 ^ 32

/-- `VectorIndex`: the query, how many neighbours, the length of the search list, the mask, and
whether it is applied first. -/
structure VectorIndex (E F32 : Type) extends IdTranslation where
  dimension : Nat
  search : List F32 → Nat → Nat → Option FilterMask → Bool → Except E (List (Nat × F32))

/-- `VectorIndexKey`: a label and a property. -/
abbrev VectorIndexKey := Nat × Nat

inductive ScanError (E : Type) where
  | child (e : E)
  | session (e : E)
  | index (e : E)
  | bindingColumnMissing
  | vertexIdOverflow
  | queryNotConstant
  | queryNotVector
  | invalidDimension (expected actual : Nat)
  | indexNotFound (key : VectorIndexKey)
deriving DecidableEq, Repr

section Scan

variable {E F32 F64 : Type}

abbrev ScanResult (E α : Type) := Except (Fault (ScanError E)) α

/-! ## `vector_search` -/

def bitmapToVectorIds (bitmap : List Bool) (index : VectorIndex E F32) : List Nat :=
  (extractTrueNodeIds bitmap).filterMap index.nodeToVectorId

/-- The mask is as long as the largest candidate needs, in 32 bits. -/
def filterMaskOf (bitmap : List Bool) (index : VectorIndex E F32) : FilterMask :=
  let candidateVectorIds := bitmapToVectorIds bitmap index
  let totalVectorNum := (candidateVectorIds.max?.map fun x => (x + 1) % 2 ^ 32).getD 0
  FilterMask.new candidateVectorIds totalVectorNum

/-- What a scan finds in a graph. -/
structure MemoryGraphView (E F32 : Type) where
  vectorIndices : VectorIndexKey → Option (VectorIndex E F32)
  sqrt : F32 → F32
  beginTransaction : Except E Unit
  commit : Except E Unit

def vectorSearch (graph : MemoryGraphView E F32) (indexKey : VectorIndexKey) (dimension : Nat)
    (query : List F32) (k lValue : Nat) (filterBitmap : Option (List Bool)) (shouldPre : Bool) :
    ScanResult E (List (Nat × F32)) :=
  match graph.vectorIndices indexKey with
  | none => .error (.error (.indexNotFound indexKey))
  | some index =>
    if dimension = index.dimension then
      let filterMask := filterBitmap.map fun bitmap => filterMaskOf bitmap index
      match index.search query k lValue filterMask shouldPre with
      | .error e => .error (.error (.index e))
      | .ok results => .ok (results.map fun (vertexId, distanceSq) =>
          (vertexId, graph.sqrt distanceSq))
    else .error (.error (.invalidDimension index.dimension dimension))

/-! ## The candidates -/

/-- `as_primitive::<UInt64Type>`; an entry may be null. -/
def asUInt64 (a : ValueArray F32 F64) : Option (List (Option Nat)) :=
  if a.dataType = .scalar (.int .uint64) then
    a.values.mapM fun
      | .scalar (.int _ v) => some (v.map Int.toNat)
      | _ => none
  else none

/-- The ids seen so far, and the largest of them. -/
structure Candidates where
  maxIndex : Option Nat
  candidateIndices : List Nat

def Candidates.take (s : Candidates) : Option Nat → Candidates
  | none => s
  | some idx => {
      maxIndex := some (match s.maxIndex with
        | some currentMax => if currentMax < idx then idx else currentMax
        | none => idx)
      candidateIndices := s.candidateIndices ++ [idx] }

/-- The physical rows of a chunk are gone through. -/
def takeCandidates (bindingColumnIndex : Nat) (s : Candidates) (chunk : ValueChunk F32 F64) :
    ScanResult E Candidates :=
  if chunk.len = 0 then .ok s
  else
    match chunk.columns[bindingColumnIndex]? with
    | none => .error (.error .bindingColumnMissing)
    | some column =>
      match asUInt64 column with
      | none => .error .panicked
      | some ids => .ok (ids.foldl Candidates.take s)

/-- The error of the child. -/
def ofChild {α : Type} : Except (Fault E) α → ScanResult E α
  | .ok a => .ok a
  | .error (.error e) => .error (.error (.child e))
  | .error .panicked => .error .panicked

/-- `none` is `CandidateBitmap::Empty`. -/
def candidateBitmap (s : Candidates) : ScanResult E (Option (List Bool)) :=
  match s.maxIndex with
  | none => .ok none
  | some maxIndex =>
    let bitmapLen := maxIndex + 1
    if 2 ^ 64 ≤ bitmapLen then .error (.error .vertexIdOverflow)
    -- a vector has at most `isize::MAX` entries
    else if 2 ^ 63 ≤ bitmapLen then .error .panicked
    else
      .ok (some (s.candidateIndices.foldl (fun bits idx => bits.set idx true)
        (List.replicate bitmapLen false)))

def consumeChildBitmap (bindingColumnIndex : Nat) (child : Stream E ArrayType (Value F32 F64)) :
    ScanResult E (Option (List Bool)) := do
  let s ← child.foldlM (fun s item => do
    let chunk ← ofChild item
    takeCandidates bindingColumnIndex s chunk) ⟨none, []⟩
  candidateBitmap s

/-! ## The scan -/

/-- The plan node; `query` is what its expression evaluates to, where that is a constant. -/
structure VectorIndexScan (F32 F64 : Type) where
  indexKey : VectorIndexKey
  query : Option (Value F32 F64)
  dimension : Nat
  limit : Nat
  approximate : Bool

def defaultLValue : Nat := 100

/-- Two columns, vertex ids and distances. -/
def resultChunk (results : List (Nat × F32)) : ValueChunk F32 F64 :=
  DataChunk.new [
    ⟨.scalar (.int .uint64), results.map fun r => .int .uint64 (some r.1)⟩,
    ⟨.scalar .float32, results.map fun r => .scalar (.float32 (some r.2))⟩]

def scanWithGraph (plan : VectorIndexScan F32 F64) (graph : MemoryGraphView E F32)
    (candidateBitmap : Option (List Bool)) : ScanResult E (ValueChunk F32 F64) :=
  match plan.query with
  | none => .error (.error .queryNotConstant)
  | some (.vector dimension (some vectorValue)) =>
    if dimension = plan.dimension then do
      let lValue := max defaultLValue (plan.limit % 2 ^ 32)
      let results ← vectorSearch graph plan.indexKey dimension vectorValue plan.limit lValue
        candidateBitmap plan.approximate
      .ok (resultChunk results)
    else .error (.error (.invalidDimension plan.dimension dimension))
  | some _ => .error (.error .queryNotVector)

/-- An error of the session or of its transactions. -/
def ofSession {α : Type} : Except E α → ScanResult E α
  | .ok a => .ok a
  | .error e => .error (.error (.session e))

/-- `execute_scan`. The graph is the one that `resolve_memory_graph` gives. -/
def executeScan (plan : VectorIndexScan F32 F64) (resolved : Except E (MemoryGraphView E F32))
    (bindingColumnIndex : Nat) (child : Stream E ArrayType (Value F32 F64)) :
    ScanResult E (ValueChunk F32 F64) := do
  let candidateBitmap ← consumeChildBitmap bindingColumnIndex child
  if plan.limit = 0 then .ok (resultChunk [])
  else
    match candidateBitmap with
    | none => .ok (resultChunk [])
    | some bitmap => do
      let graph ← ofSession resolved
      ofSession graph.beginTransaction
      let chunk ← scanWithGraph plan graph (some bitmap)
      ofSession graph.commit
      .ok chunk

end Scan

end MiniGU
