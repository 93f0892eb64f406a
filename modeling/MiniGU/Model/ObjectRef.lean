import MiniGU.Model.SchemaPath
import MiniGU.Model.ValueExpr

/-!
# References to catalog objects (`gql/parser/src/parser/impls/object_ref.rs`)

A reference names a schema, by a path through directories, and in it an object, by names with
periods between them. Directories, the schema and the objects are all identifiers; a directory
path takes the name in front of a solidus as long as another name and another solidus follow, or,
where it is greedy, always.

Spans are left out.
-/

namespace MiniGU.Parsing

inductive PredefinedSchemaRef where
  | home
  | current
deriving DecidableEq, Repr

inductive SchemaRef where
  | absolute (path : SchemaPath)
  | relative (path : SchemaPath)
  | predefined (schema : PredefinedSchemaRef)
  | parameter (name : Ident)
deriving DecidableEq, Repr

structure CatalogObjectRef where
  schema : Option SchemaRef
  objects : List Ident
deriving DecidableEq, Repr

def objectName : TokenParser Ident := identifier
def directoryName : TokenParser Ident := identifier
def schemaName : TokenParser Ident := identifier

def substitutedParameterReference : TokenParser Ident := do
  match ← any with
  | .substitutedParameterReference name => cutNone name.unescape
  | _ => fail

def referenceParameterSpecification : TokenParser Ident := substitutedParameterReference

/-- What follows the name of a directory. -/
def directoryEnd (greedy : Bool) : TokenParser Unit := do
  expect .solidus
  if greedy then pure ()
  else
    peek do
      let _ ← directoryName
      expect .solidus

def directorySegment : TokenParser SchemaPathSegment := do
  let name ← directoryName
  pure (.name name)

def simpleDirectoryPath (greedy : Bool) : TokenParser SchemaPath :=
  repeat1 (terminated directorySegment (directoryEnd greedy))

def parentSegment : TokenParser SchemaPathSegment := do
  expect .doublePeriod
  pure .parent

def relativeDirectoryPath (greedy : Bool) : TokenParser SchemaPath := do
  let parents ← repeat1 (terminated parentSegment (expect .solidus))
  let suffix ← opt (simpleDirectoryPath greedy)
  pure (parents ++ suffix.getD [])

def absoluteDirectoryPath (greedy : Bool) : TokenParser SchemaPath := do
  expect .solidus
  let path ← opt (simpleDirectoryPath greedy)
  pure (path.getD [])

def predefinedSchemaReference : TokenParser PredefinedSchemaRef := do
  match ← any with
  | .homeSchema => pure .home
  | .currentSchema | .period => pure .current
  | _ => fail

def mergeDirectoryPathAndSchemaName (directory : SchemaPath) (schema : Ident) : SchemaPath :=
  directory ++ [.name schema]

def relativeCatalogSchemaReference (greedy : Bool) : TokenParser SchemaRef :=
  orElse
    (do
      let schema ← predefinedSchemaReference
      pure (.predefined schema))
    (do
      let directory ← relativeDirectoryPath greedy
      let schema ← schemaName
      pure (.relative (mergeDirectoryPathAndSchemaName directory schema)))

def absoluteCatalogSchemaReference (greedy : Bool) : TokenParser SchemaRef := do
  let directory ← absoluteDirectoryPath greedy
  let schema ← schemaName
  pure (.absolute (mergeDirectoryPathAndSchemaName directory schema))

def rootSchemaReference : TokenParser SchemaRef := do
  expect .solidus
  pure (.absolute [])

def nonRootSchemaReference (greedy : Bool) : TokenParser SchemaRef :=
  peekAny fun
    | .solidus => absoluteCatalogSchemaReference greedy
    | .doublePeriod | .homeSchema | .currentSchema | .period =>
      relativeCatalogSchemaReference greedy
    | .substitutedParameterReference _ => do
      let name ← referenceParameterSpecification
      pure (.parameter name)
    | _ => fail

def schemaReference : TokenParser SchemaRef :=
  orElse (nonRootSchemaReference true) rootSchemaReference

/-- The name of an object that another one is in. -/
def parentObject : TokenParser Ident := terminated objectName (expect .period)

def parentInSchema : TokenParser CatalogObjectRef := do
  let schema ← nonRootSchemaReference false
  expect .solidus
  let objects ← repeat0 parentObject
  pure ⟨some schema, objects⟩

def parentInRoot : TokenParser CatalogObjectRef := do
  let schema ← rootSchemaReference
  let objects ← repeat0 parentObject
  pure ⟨some schema, objects⟩

def parentWithoutSchema : TokenParser CatalogObjectRef := do
  let objects ← repeat1 parentObject
  pure ⟨none, objects⟩

def catalogObjectParentReference : TokenParser CatalogObjectRef :=
  peekAny fun
    | .solidus | .doublePeriod | .homeSchema | .currentSchema | .period
    | .substitutedParameterReference _ => orElse parentInSchema parentInRoot
    | _ => parentWithoutSchema

def catalogObjectParentAndName : TokenParser CatalogObjectRef := do
  let parent ← opt catalogObjectParentReference
  let graph ← objectName
  match parent with
  | some inner => pure { inner with objects := inner.objects ++ [graph] }
  | none => pure ⟨none, [graph]⟩

end MiniGU.Parsing
