import MiniGU.Lib.BitPacking
import MiniGU.Model.OlapGraph

/-!
# Compaction of the AP store (`compress_edge`, `compress_property`)

* Destinations are stored as the first one and the differences, packed in the number of bits
  of the largest; `u64` subtraction and `edge_counter - 1` have no value below zero (`none`,
  like every panic here).
* Property values are stored without the absent ones, under a bitmap and the number of
  values in each word of 16 slots. The source has no reader for either form: `decode` and
  `get` read them as their fields say.
* Compaction takes the blocks out of the store and is done once. The headers copied along
  with a block are left out where the model of the block has none.
-/

namespace MiniGU

namespace Olap

variable {V : Type}

/-! ## Edges -/

structure CompressedEdgeBlock where
  preBlockIndex : Option Nat
  curBlockIndex : Nat
  minTs : Nat
  srcId : Nat
  edgeCounter : Nat
  deltaBitWidth : Nat
  firstDstId : Nat
  compressedDstIds : List Bool
  labelIds : List (Option Nat)
  versionTs : Nat
deriving DecidableEq, Repr

namespace EdgeBlock

/-- The slots behind the counter hold the default edge. -/
def dstIdAt (block : EdgeBlock) (i : Nat) : Nat :=
  ((block.edges[i]?).map (·.dstId)).getD tombstoneDstId

def labelIdAt (block : EdgeBlock) (i : Nat) : Option Nat :=
  ((block.edges[i]?).map (·.labelId)).getD (some tombstoneLabelId)

/-- The difference to the destination before. -/
def delta (block : EdgeBlock) (i : Nat) : Option Nat :=
  if block.dstIdAt i < block.dstIdAt (i - 1) then none
  else some (block.dstIdAt i - block.dstIdAt (i - 1))

/-- The loop for the largest difference. It ends at the first destination 1. -/
def maxDelta (block : EdgeBlock) : List Nat → Nat → Option Nat
  | [], max => some max
  | i :: rest, max =>
    if block.dstIdAt i = 1 then some max
    else (block.delta i).bind fun delta => block.maxDelta rest (Nat.max max delta)

end EdgeBlock

/-- `64 - max_delta.leading_zeros()`, at least 1. -/
def bitWidth (maxDelta : Nat) : Nat :=
  if maxDelta = 0 then 1 else Nat.log2 maxDelta + 1

/-- One round of `compress_edge`. -/
def EdgeBlock.compress (block : EdgeBlock) (index versionTs : Nat) : Option CompressedEdgeBlock :=
  (block.maxDelta (List.range' 1 (blockCapacity - 1)) 0).bind fun maxDelta =>
    let width := bitWidth maxDelta
    if block.edges.length = 0 then none
    else
      ((List.range' 1 (block.edges.length - 1)).mapM block.delta).map fun deltas =>
        { preBlockIndex := block.preBlockIndex
          curBlockIndex := index
          minTs := block.minTs
          srcId := block.srcId
          edgeCounter := block.edges.length
          deltaBitWidth := width
          firstDstId := block.dstIdAt 0
          compressedDstIds := pack width deltas
          labelIds := (List.range blockCapacity).map fun i =>
            if i < block.edges.length then block.labelIdAt i else some 1
          versionTs := versionTs }

namespace CompressedEdgeBlock

def dstIdAt (block : CompressedEdgeBlock) : Nat → Nat
  | 0 => block.firstDstId
  | i + 1 => block.dstIdAt i +
    readBits block.compressedDstIds (i * block.deltaBitWidth) block.deltaBitWidth

/-- The labels and destinations of a block, slot by slot. -/
def decode (block : CompressedEdgeBlock) : List (Option Nat × Nat) :=
  (List.range block.edgeCounter).map fun i => ((block.labelIds[i]?).join, block.dstIdAt i)

end CompressedEdgeBlock

/-! ## Properties -/

structure CompressedPropertyBlock (V : Type) where
  versionTs : Nat
  bitmap : List Bool
  offsets : List Nat
  values : List V

structure CompressedPropertyColumn (V : Type) where
  blocks : List (CompressedPropertyBlock V)

/-- One round of `compress_property`. -/
def PropertyBlock.compress (block : PropertyBlock V) (versionTs : Nat) :
    CompressedPropertyBlock V :=
  let (bitmap, values) := (List.range blockCapacity).foldl
    (fun (acc : List Bool × List V) valueIndex =>
      match latestCommittedPropValue (block.values valueIndex) with
      | some latest => (acc.1.set valueIndex true, acc.2 ++ [latest])
      | none => acc)
    (List.replicate blockCapacity false, [])
  { versionTs := versionTs
    bitmap := bitmap
    offsets := (List.range (blockCapacity / 16)).map fun chunkIndex =>
      (List.range 16).countP fun i => (bitmap[chunkIndex * 16 + i]?).getD false
    values := values }

namespace CompressedPropertyBlock

/-- The number of values before a slot: whole words by their counts, then bit by bit. -/
def rank (block : CompressedPropertyBlock V) (i : Nat) : Nat :=
  (block.offsets.take (i / 16)).sum +
    (List.range (i % 16)).countP fun j => (block.bitmap[i / 16 * 16 + j]?).getD false

def get (block : CompressedPropertyBlock V) (i : Nat) : Option V :=
  if (block.bitmap[i]?).getD false then block.values[block.rank i]? else none

end CompressedPropertyBlock

/-! ## The two calls -/

/-- The store with its compaction state. -/
structure Compaction (V : Type) where
  storage : OlapStorage V
  gen : GlobalTimestampGenerator
  isEdgeCompressed : Bool
  compressedEdges : List CompressedEdgeBlock
  isPropertyCompressed : Bool
  compressedProperties : List (CompressedPropertyColumn V)

namespace Compaction

def compressNext (acc : GlobalTimestampGenerator × List CompressedEdgeBlock)
    (block : EdgeBlock × Nat) : Option (GlobalTimestampGenerator × List CompressedEdgeBlock) :=
  match acc.1.next with
  | .error _ => none
  | .ok (versionTs, gen) =>
    (block.1.compress block.2 versionTs).bind fun compressed =>
      if block.2 ≤ acc.2.length then some (gen, acc.2.insertIdx block.2 compressed) else none

def compressEdge (c : Compaction V) : Option (Compaction V) :=
  if c.isEdgeCompressed then some c
  else
    (c.storage.edges.zipIdx.foldlM compressNext (c.gen, c.compressedEdges)).map fun r =>
      { c with
        storage := { c.storage with edges := [] }
        gen := r.1
        isEdgeCompressed := true
        compressedEdges := r.2 }

def compressProperty (c : Compaction V) : Option (Compaction V) :=
  if c.isPropertyCompressed then some c
  else
    match c.gen.next with
    | .error _ => none
    | .ok (versionTs, gen) => some
      { c with
        storage := { c.storage with propertyColumns := [] }
        gen := gen
        isPropertyCompressed := true
        compressedProperties := c.storage.propertyColumns.zipIdx.foldl
          (fun (columns : List (CompressedPropertyColumn V)) (column, columnIndex) =>
            columns.insertIdx columnIndex ⟨column.blocks.map fun block => block.compress versionTs⟩)
          c.compressedProperties }

end Compaction

end Olap

end MiniGU
