import MiniGU.Model.ChunkStream

/-!
# Schema paths (`gql/planner/src/binder/object_ref.rs`, `catalog/src/memory/directory.rs`)

The catalog is a tree of directories with schemas at its leaves; a directory and a schema know the
directory that they are in. An absolute path is walked from the root, a relative one from the
current schema.

Directories and schemas are numbers here, which stand for the references to them.
-/

namespace MiniGU

inductive DirectoryOrSchema where
  | directory (dir : Nat)
  | schema (id : Nat)
deriving DecidableEq, Repr

namespace DirectoryOrSchema

def intoDirectory : DirectoryOrSchema → Option Nat
  | .directory dir => some dir
  | .schema _ => none

def intoSchema : DirectoryOrSchema → Option Nat
  | .directory _ => none
  | .schema id => some id

end DirectoryOrSchema

structure MemoryDirectoryCatalog where
  parent : Option Nat
  children : List (String × DirectoryOrSchema)

/-- What the binder sees of the catalog. -/
structure SchemaCatalog where
  root : DirectoryOrSchema
  directory : Nat → MemoryDirectoryCatalog
  schemaParent : Nat → Option Nat

namespace SchemaCatalog

def parent (c : SchemaCatalog) : DirectoryOrSchema → Option Nat
  | .directory dir => (c.directory dir).parent
  | .schema id => c.schemaParent id

def getChild (c : SchemaCatalog) (dir : Nat) (name : String) : Option DirectoryOrSchema :=
  (c.directory dir).children.lookup name

end SchemaCatalog

/-- The root has no parent, and what is in a directory has it as its parent. -/
structure CatalogTree extends SchemaCatalog where
  parent_root : toSchemaCatalog.parent root = none
  parent_child : ∀ dir name child, toSchemaCatalog.getChild dir name = some child →
    toSchemaCatalog.parent child = some dir

inductive SchemaPathSegment where
  | name (name : String)
  | parent
deriving DecidableEq, Repr

abbrev SchemaPath := List SchemaPathSegment

inductive SchemaBindError where
  | notDirectory (path : String)
  | directoryOrSchemaNotFound (path : String)
  | notSchema (path : String)
deriving DecidableEq, Repr

abbrev SchemaBindResult (α : Type) := Except (Fault SchemaBindError) α

def SchemaPathSegment.text : SchemaPathSegment → String
  | .name text => text
  | .parent => ".."

def pathToString (abs : Bool) (path : SchemaPath) : String :=
  let joined := "/".intercalate (path.map SchemaPathSegment.text)
  if abs then "/" ++ joined else joined

namespace SchemaCatalog

variable (c : SchemaCatalog)

/-- The step to a child, of both walks: the child and the path up to it. -/
def bindName (abs : Bool) (current : DirectoryOrSchema) (currentPath : SchemaPath) (name : String) :
    SchemaBindResult (DirectoryOrSchema × SchemaPath) :=
  match current.intoDirectory with
  | none => .error (.error (.notDirectory (pathToString abs currentPath)))
  | some currentDir =>
    match c.getChild currentDir name with
    | none =>
      .error (.error (.directoryOrSchemaNotFound (pathToString abs (currentPath ++ [.name name]))))
    | some child => .ok (child, currentPath ++ [.name name])

/-- An absolute path has no parent steps. -/
def absoluteStep (s : DirectoryOrSchema × SchemaPath) :
    SchemaPathSegment → SchemaBindResult (DirectoryOrSchema × SchemaPath)
  | .name name => c.bindName true s.1 s.2 name
  | .parent => .error .panicked

/-- A parent step stays where there is no parent. -/
def relativeStep (s : DirectoryOrSchema × SchemaPath) :
    SchemaPathSegment → SchemaBindResult (DirectoryOrSchema × SchemaPath)
  | .name name => c.bindName false s.1 s.2 name
  | .parent =>
    match c.parent s.1 with
    | some parentDir => .ok (.directory parentDir, s.2 ++ [.parent])
    | none => .ok (s.1, s.2 ++ [.parent])

/-- The walk has to end at a schema. -/
def finish (abs : Bool) (s : DirectoryOrSchema × SchemaPath) : SchemaBindResult Nat :=
  match s.1.intoSchema with
  | some schema => .ok schema
  | none => .error (.error (.notSchema (pathToString abs s.2)))

def bindAbsoluteSchemaPath (path : SchemaPath) : SchemaBindResult Nat := do
  let s ← path.foldlM c.absoluteStep (c.root, [])
  finish true s

def bindRelativeSchemaPath (currentSchema : Nat) (schemaPath : SchemaPath) :
    SchemaBindResult Nat := do
  let s ← schemaPath.foldlM c.relativeStep (.schema currentSchema, [])
  finish false s

end SchemaCatalog

end MiniGU
