import MiniGU.Model.Catalog
import MiniGU.Model.ScalarValue

/-!
# CREATE GRAPH (`planner/src/binder/type_element.rs`, `execution/src/executor/catalog_modify.rs`)

A nested graph type is bound element by element, then written into a new catalog in two passes: the
first registers labels, the second adds the types. The binder makes up its label ids by hashing;
`hash` is the standard hasher's output as a `u32`, of which nothing is assumed.

The AST keeps what the binder reads of the parser's (`Parsing.ValueType.toBinder` for the types of
properties), and the local alias of a node type, which it does not. The registry from ids to names
that the passes carry is written and never read. An error is `none`.
-/

namespace MiniGU

/-! ## The definition -/

namespace Ast

inductive NumericTypeKind where
  | int8 | int16 | int32 | int64 | int128 | int256 | small
  | int (precision : Option String)
  | big
deriving DecidableEq, Repr

inductive FloatTypeKind where
  | float16 | float32 | float64 | float128 | float256 | real | double
  | float
deriving DecidableEq, Repr

inductive TemporalTypeKind where
  | zonedDateTime | timestampWithTimeZone | localDateTime | timestamp | date | zonedTime
  | timeWithTimeZone | duration
deriving DecidableEq, Repr

/-- `other` are the types that the binder does not support. -/
inductive ValueType where
  | string (notNull : Bool)
  | signedNumeric (kind : NumericTypeKind) (notNull : Bool)
  | unsignedNumeric (kind : NumericTypeKind) (notNull : Bool)
  | float (kind : FloatTypeKind) (notNull : Bool)
  | temporal (kind : TemporalTypeKind) (notNull : Bool)
  | vector (dimension : String) (notNull : Bool)
  | bool (notNull : Bool)
  | other
deriving DecidableEq, Repr

structure FieldOrPropertyType where
  name : String
  valueType : ValueType
deriving DecidableEq, Repr

structure NodeOrEdgeTypeFiller where
  labelSet : Option (List String)
  propertyTypes : Option (List FieldOrPropertyType)
deriving DecidableEq, Repr

structure NodeType where
  name : Option String
  localAlias : Option String
  filler : Option NodeOrEdgeTypeFiller
deriving DecidableEq, Repr

inductive NodeTypeRef where
  | byAlias (ident : String)
  | filler (f : NodeOrEdgeTypeFiller)
  | empty
deriving DecidableEq, Repr

inductive EdgeDirection where
  | leftToRight | rightToLeft | undirected
deriving DecidableEq, Repr

structure EdgeTypePattern where
  name : Option String
  direction : EdgeDirection
  left : NodeTypeRef
  filler : NodeOrEdgeTypeFiller
  right : NodeTypeRef
deriving DecidableEq, Repr

structure EdgeTypePhrase where
  name : Option String
  direction : EdgeDirection
  left : String
  filler : Option NodeOrEdgeTypeFiller
  right : String
deriving DecidableEq, Repr

inductive EdgeType where
  | pattern (p : EdgeTypePattern)
  | phrase (p : EdgeTypePhrase)
deriving DecidableEq, Repr

inductive GraphElementType where
  | node (n : NodeType)
  | edge (e : EdgeType)
deriving DecidableEq, Repr

end Ast

/-! ## Binding -/

/-- The logical types that a field can be declared with. -/
inductive FieldLogicalType where
  | scalar (t : ScalarType)
  | vector (dimension : Nat)
deriving DecidableEq, Repr

/-- A `DataField`, and the property it is turned into. -/
structure DataField where
  name : String
  ty : FieldLogicalType
  nullable : Bool
deriving DecidableEq, Repr

structure BoundFiller where
  labelSet : Option LabelSet
  properties : Option (List DataField)
deriving DecidableEq, Repr

inductive BoundNodeTypeRef where
  | byAlias (ident : String)
  | filler (f : BoundFiller)
  | empty
deriving DecidableEq, Repr

structure BoundVertexType where
  name : Option String
  labels : LabelSet
  properties : List DataField
deriving DecidableEq, Repr

structure BoundEdgeType where
  name : Option String
  labels : LabelSet
  properties : List DataField
  direction : Ast.EdgeDirection
  left : BoundNodeTypeRef
  right : BoundNodeTypeRef
deriving DecidableEq, Repr

inductive BoundGraphElementType where
  | vertex (v : BoundVertexType)
  | edge (e : BoundEdgeType)
deriving DecidableEq, Repr

def isNotNull : Ast.ValueType → Bool
  | .string notNull | .signedNumeric _ notNull | .unsignedNumeric _ notNull | .float _ notNull
  | .temporal _ notNull | .vector _ notNull | .bool notNull => notNull
  | .other => false

def bindSignedNumericType : Ast.NumericTypeKind → Option FieldLogicalType
  | .int8 => some (.scalar (.int .int8))
  | .int16 | .small => some (.scalar (.int .int16))
  | .int32 | .int _ => some (.scalar (.int .int32))
  | .int64 | .big => some (.scalar (.int .int64))
  | _ => none

def bindUnsignedNumericType : Ast.NumericTypeKind → Option FieldLogicalType
  | .int8 => some (.scalar (.int .uint8))
  | .int16 | .small => some (.scalar (.int .uint16))
  | .int32 | .int _ => some (.scalar (.int .uint32))
  | .int64 | .big => some (.scalar (.int .uint64))
  | _ => none

def bindFloatType : Ast.FloatTypeKind → Option FieldLogicalType
  | .float16 | .real | .float32 => some (.scalar .float32)
  | .float64 | .double | .float => some (.scalar .float64)
  | _ => none

/-- Dates are kept as strings. -/
def bindTemporalType : Ast.TemporalTypeKind → Option FieldLogicalType
  | .date => some (.scalar .string)
  | _ => none

def bindValueType : Ast.ValueType → Option FieldLogicalType
  | .string _ => some (.scalar .string)
  | .signedNumeric kind _ => bindSignedNumericType kind
  | .unsignedNumeric kind _ => bindUnsignedNumericType kind
  | .float kind _ => bindFloatType kind
  | .bool _ => some (.scalar .boolean)
  | .temporal kind _ => bindTemporalType kind
  | .vector dimension _ => (IntType.uint64.parse dimension).map fun n => .vector n.toNat
  | .other => none

def bindPropertyType (p : Ast.FieldOrPropertyType) : Option DataField :=
  (bindValueType p.valueType).map fun ty => ⟨p.name, ty, !isNotNull p.valueType⟩

section Bind

variable (hash : String → Nat)

/-- `string_to_label_id`: the hash as a `u32` that is not zero. -/
def stringToLabelId (label : String) : Nat := if hash label = 0 then 1 else hash label

end Bind

/-! ## Execution -/

abbrev GraphCatalog := GraphTypeCatalog DataField

def addVertexTypeToCatalog (c : GraphCatalog) (v : BoundVertexType) : Option GraphCatalog :=
  if v.labels = [] then none
  else some (c.addVertexType v.labels ⟨v.labels, v.properties⟩).2

/-- A vertex type that is there already is taken as it is. -/
def getOrCreateVertexType (c : GraphCatalog) (labelSet : LabelSet) (properties : List DataField) :
    VertexType DataField × GraphCatalog :=
  match c.getVertexType labelSet with
  | some t => (t, c)
  | none => (⟨labelSet, properties⟩, (c.addVertexType labelSet ⟨labelSet, properties⟩).2)

def getOrCreateVertexTypeByName (c : GraphCatalog) (name : String) :
    Option (VertexType DataField × GraphCatalog) :=
  (c.getLabelId name).map fun id => getOrCreateVertexType c (.fromIter [id]) []

def resolveVertexTypeFromNodeRef (c : GraphCatalog) :
    BoundNodeTypeRef → Option (VertexType DataField × GraphCatalog)
  | .byAlias name => getOrCreateVertexTypeByName c name
  | .filler f => f.labelSet.map fun s => getOrCreateVertexType c s (f.properties.getD [])
  | .empty => none

/-- The left end is the source and the right end the destination, whatever the direction. -/
def addEdgeTypeToCatalog (c : GraphCatalog) (e : BoundEdgeType) : Option GraphCatalog :=
  if e.labels = [] then none
  else do
    let (src, c) ← resolveVertexTypeFromNodeRef c e.left
    let (dst, c) ← resolveVertexTypeFromNodeRef c e.right
    some (c.addEdgeType e.labels ⟨e.labels, src, dst, e.properties⟩).2

end MiniGU
