import Mathlib.Data.List.Infix
import MiniGU.Lib.AssocList
import MiniGU.Lib.Collect
import MiniGU.Model.SchemaPath

/-!
# Relative and absolute schema paths

`normalise P R` is the absolute path that the relative path `R` stands for at `P`.
-/

namespace MiniGU

-- ----
-- Places in the tree
-- ----

namespace SchemaCatalog

variable (c : SchemaCatalog)

def child (node : DirectoryOrSchema) (name : String) : Option DirectoryOrSchema :=
  node.intoDirectory.bind fun dir => c.getChild dir name

/-- What is at an absolute path. -/
def locate (path : List String) : Option DirectoryOrSchema := path.foldlM c.child c.root

theorem locate_append (path names : List String) :
    c.locate (path ++ names) = (c.locate path).bind fun node => names.foldlM c.child node := by
  unfold locate
  rw [List.foldlM_append]
  rfl

theorem locate_concat (path : List String) (name : String) :
    c.locate (path ++ [name]) = (c.locate path).bind fun node => c.child node name := by
  rw [locate_append]
  cases c.locate path with
  | none => rfl
  | some node =>
    show (c.child node name >>= fun n => pure n) = c.child node name
    cases c.child node name with
    | none => rfl
    | some n => rfl

end SchemaCatalog

/-- The path after a step; at the root a parent step stays. -/
def normaliseStep (path : List String) : SchemaPathSegment → List String
  | .name name => path ++ [name]
  | .parent => path.dropLast

def normalise (path : List String) (relative : SchemaPath) : List String :=
  relative.foldl normaliseStep path

def absolutePath (path : List String) : SchemaPath := path.map .name

/-- The kind of an error, without the path in its text. -/
def SchemaBindError.kind : SchemaBindError → SchemaBindError
  | .notDirectory _ => .notDirectory ""
  | .directoryOrSchemaNotFound _ => .directoryOrSchemaNotFound ""
  | .notSchema _ => .notSchema ""

def kindOf {α : Type} : SchemaBindResult α → SchemaBindResult α
  | .ok a => .ok a
  | .error (.error e) => .error (.error e.kind)
  | .error .panicked => .error .panicked

-- ----
-- The two walks
-- ----

namespace CatalogTree

variable (t : CatalogTree)

/-- **A parent step** leads to what the path without its last name leads to. -/
theorem locate_dropLast {path : List String} {node : DirectoryOrSchema}
    (h : t.locate path = some node) :
    t.locate path.dropLast = some (match t.parent node with
      | some dir => .directory dir
      | none => node) := by
  rcases List.eq_nil_or_concat path with rfl | ⟨front, name, rfl⟩
  · obtain rfl : t.root = node := Option.some.inj h
    rw [t.parent_root]
    rfl
  · rw [List.concat_eq_append, SchemaCatalog.locate_concat] at h
    obtain ⟨above, hAbove, hChild⟩ := Option.bind_eq_some_iff.mp h
    obtain ⟨dir, hDir, hGet⟩ := Option.bind_eq_some_iff.mp hChild
    rw [List.concat_eq_append, List.dropLast_concat, hAbove, t.parent_child dir name node hGet]
    cases above with
    | directory dir' =>
      obtain rfl : dir' = dir := Option.some.inj hDir
      rfl
    | schema schema => cases hDir

end CatalogTree

namespace SchemaCatalog

variable (c : SchemaCatalog)

theorem bindName_ok {abs : Bool} {node : DirectoryOrSchema} {trail : SchemaPath} {name : String}
    {next : DirectoryOrSchema} (h : c.child node name = some next) :
    c.bindName abs node trail name = .ok (next, trail ++ [.name name]) := by
  obtain ⟨dir, hDir, hGet⟩ := Option.bind_eq_some_iff.mp h
  unfold bindName
  rw [hDir]
  dsimp only
  rw [hGet]

theorem bindName_none {node : DirectoryOrSchema} {name : String} (h : c.child node name = none)
    (abs : Bool) (trail : SchemaPath) :
    ∃ e, c.bindName abs node trail name = .error (.error e) := by
  unfold bindName
  unfold child at h
  cases hDir : node.intoDirectory with
  | none => exact ⟨_, rfl⟩
  | some dir =>
    rw [hDir] at h
    have hGet : c.getChild dir name = none := h
    dsimp only
    rw [hGet]
    exact ⟨_, rfl⟩

theorem kindOf_bindName {node : DirectoryOrSchema} {name : String}
    (h : c.child node name = none) (abs abs' : Bool) (trail trail' : SchemaPath) :
    kindOf (c.bindName abs node trail name) = kindOf (c.bindName abs' node trail' name) := by
  unfold bindName
  unfold child at h
  cases hDir : node.intoDirectory with
  | none => rfl
  | some dir =>
    rw [hDir] at h
    have hGet : c.getChild dir name = none := h
    dsimp only
    rw [hGet]
    rfl

theorem kindOf_finish (node : DirectoryOrSchema) (abs abs' : Bool) (trail trail' : SchemaPath) :
    kindOf (finish abs (node, trail)) = kindOf (finish abs' (node, trail')) := by
  cases node with
  | directory dir => rfl
  | schema schema => rfl

/-- **Names only**: from one node both walks end alike. -/
theorem kindOf_names (names : List String) (node : DirectoryOrSchema) (trail trail' : SchemaPath) :
    kindOf ((absolutePath names).foldlM c.relativeStep (node, trail) >>= finish false) =
      kindOf ((absolutePath names).foldlM c.absoluteStep (node, trail') >>= finish true) := by
  induction names generalizing node trail trail' with
  | nil => exact kindOf_finish node false true trail trail'
  | cons name names ih =>
    show kindOf ((c.bindName false node trail name >>= _) >>= _) =
      kindOf ((c.bindName true node trail' name >>= _) >>= _)
    cases hChild : c.child node name with
    | some next =>
      rw [c.bindName_ok hChild, c.bindName_ok hChild]
      exact ih next _ _
    | none =>
      obtain ⟨e, hRel⟩ := c.bindName_none hChild false trail
      obtain ⟨e', hAbs⟩ := c.bindName_none hChild true trail'
      have hKind := c.kindOf_bindName hChild false true trail trail'
      rw [hRel, hAbs] at hKind
      have hSame : e.kind = e'.kind := Fault.error.inj (Except.error.inj hKind)
      rw [hRel, hAbs]
      show (Except.error (.error e.kind) : SchemaBindResult Nat) = .error (.error e'.kind)
      rw [hSame]

/-- An absolute walk goes through the node at the start of its path. -/
theorem absolute_append {path : List String} {node : DirectoryOrSchema}
    (h : c.locate path = some node) (names : List String) :
    (absolutePath (path ++ names)).foldlM c.absoluteStep (c.root, []) =
      (absolutePath names).foldlM c.absoluteStep (node, absolutePath path) := by
  have hWalk : ∀ (path : List String) (start : DirectoryOrSchema) (trail : SchemaPath),
      path.foldlM c.child start = some node →
      (absolutePath path).foldlM c.absoluteStep (start, trail) =
        .ok (node, trail ++ absolutePath path) := by
    intro path
    induction path with
    | nil =>
      intro start trail hAt
      obtain rfl : start = node := Option.some.inj hAt
      rw [show absolutePath [] = [] from rfl, List.append_nil]
      rfl
    | cons name path ih =>
      intro start trail hAt
      obtain ⟨next, hChild, hRest⟩ := Option.bind_eq_some_iff.mp hAt
      have hTail := ih next (trail ++ [.name name]) hRest
      rw [List.append_assoc] at hTail
      show (c.bindName true start trail name >>= _) = _
      rw [c.bindName_ok hChild]
      exact hTail
  unfold absolutePath
  rw [List.map_append, List.foldlM_append]
  have hFirst := hWalk path c.root [] h
  unfold absolutePath at hFirst
  rw [hFirst, ok_bind, List.nil_append]

/-- **An absolute path** leads to the schema that is there. -/
theorem bindAbsoluteSchemaPath_ok_iff (path : List String) (schema : Nat) :
    c.bindAbsoluteSchemaPath (absolutePath path) = .ok schema ↔
      c.locate path = some (.schema schema) := by
  have hWalk : ∀ (path : List String) (start : DirectoryOrSchema) (trail : SchemaPath),
      ((absolutePath path).foldlM c.absoluteStep (start, trail) >>= finish true) = .ok schema ↔
        path.foldlM c.child start = some (.schema schema) := by
    intro path
    induction path with
    | nil =>
      intro start trail
      cases start with
      | directory dir => exact ⟨fun h => (nomatch h), fun h => (nomatch h)⟩
      | schema schema' =>
        constructor
        · intro h
          have hSame : schema' = schema := Except.ok.inj h
          rw [hSame]
          rfl
        · intro h
          have hSame : schema' = schema := DirectoryOrSchema.schema.inj (Option.some.inj h)
          rw [hSame]
          rfl
    | cons name path ih =>
      intro start trail
      show ((c.bindName true start trail name >>= _) >>= _) = _ ↔ (c.child start name >>= _) = _
      cases hChild : c.child start name with
      | some next =>
        rw [c.bindName_ok hChild]
        exact ih next _
      | none =>
        obtain ⟨e, hError⟩ := c.bindName_none hChild true trail
        rw [hError]
        exact ⟨fun h => (nomatch h), fun h => (nomatch h)⟩
  exact hWalk path c.root []

end SchemaCatalog

namespace CatalogTree

variable (t : CatalogTree)

/-- Every step of the walk leads somewhere. -/
def Traversable (path : List String) (relative : SchemaPath) : Prop :=
  ∀ start, start <+: relative → (t.locate (normalise path start)).isSome = true

theorem traversable_cons {path : List String} {segment : SchemaPathSegment} {rest : SchemaPath} :
    t.Traversable path (segment :: rest) ↔
      (t.locate path).isSome = true ∧ t.Traversable (normaliseStep path segment) rest := by
  constructor
  · intro h
    refine ⟨h [] (List.nil_prefix), fun start hStart => ?_⟩
    exact h (segment :: start) (List.cons_prefix_cons.mpr ⟨rfl, hStart⟩)
  · rintro ⟨hHere, hRest⟩ start hStart
    cases start with
    | nil => exact hHere
    | cons first start =>
      obtain ⟨rfl, hPrefix⟩ := List.cons_prefix_cons.mp hStart
      exact hRest start hPrefix

theorem traversable_nil {path : List String} :
    t.Traversable path [] ↔ (t.locate path).isSome = true := by
  constructor
  · intro h
    exact h [] List.nil_prefix
  · intro h start hStart
    rw [List.prefix_nil.mp hStart]
    exact h

/-- **The relative walk** leads to what is at the path it stands for, as long as every step leads
somewhere. -/
theorem relative_walk {path : List String} {node : DirectoryOrSchema}
    (h : t.locate path = some node) (relative : SchemaPath) (trail : SchemaPath) :
    (∃ s, relative.foldlM t.relativeStep (node, trail) = .ok s ∧
      t.locate (normalise path relative) = some s.1 ∧ t.Traversable path relative) ∨
    ((∃ e, relative.foldlM t.relativeStep (node, trail) = .error (.error e)) ∧
      ¬ t.Traversable path relative) := by
  induction relative generalizing path node trail with
  | nil =>
    refine .inl ⟨(node, trail), rfl, h, t.traversable_nil.mpr ?_⟩
    exact Option.isSome_iff_exists.mpr ⟨node, h⟩
  | cons segment rest ih =>
    have hHere : (t.locate path).isSome = true := Option.isSome_iff_exists.mpr ⟨node, h⟩
    cases segment with
    | parent =>
      have hUp := t.locate_dropLast h
      have hStep : ∃ next, t.relativeStep (node, trail) .parent =
          .ok (next, trail ++ [.parent]) ∧ t.locate path.dropLast = some next := by
        unfold SchemaCatalog.relativeStep
        cases hParent : t.parent node with
        | none =>
          rw [hParent] at hUp
          exact ⟨node, rfl, hUp⟩
        | some dir =>
          rw [hParent] at hUp
          exact ⟨.directory dir, rfl, hUp⟩
      obtain ⟨next, hNext, hAt⟩ := hStep
      rw [List.foldlM_cons, hNext, ok_bind, traversable_cons]
      rcases ih hAt (trail ++ [.parent]) with ⟨s, hOk, hEnd, hAll⟩ | ⟨hError, hNone⟩
      · exact .inl ⟨s, hOk, hEnd, hHere, hAll⟩
      · exact .inr ⟨hError, fun hBoth => hNone hBoth.2⟩
    | name name =>
      have hAt := t.locate_concat path name
      rw [h, Option.bind_some] at hAt
      rw [List.foldlM_cons, traversable_cons]
      show (∃ s, (t.bindName false node trail name >>= _) = _ ∧ _) ∨
        ((∃ e, (t.bindName false node trail name >>= _) = _) ∧ _)
      cases hChild : t.child node name with
      | some next =>
        rw [hChild] at hAt
        rw [t.bindName_ok hChild, ok_bind]
        rcases ih hAt (trail ++ [.name name]) with ⟨s, hOk, hEnd, hAll⟩ | ⟨hError, hNone⟩
        · exact .inl ⟨s, hOk, hEnd, hHere, hAll⟩
        · exact .inr ⟨hError, fun hBoth => hNone hBoth.2⟩
      | none =>
        rw [hChild] at hAt
        obtain ⟨e, hError⟩ := t.bindName_none hChild false trail
        refine .inr ⟨⟨e, by rw [hError]; rfl⟩, fun hBoth => ?_⟩
        have hSome := hBoth.2 [] List.nil_prefix
        have hNone : t.locate (normalise (normaliseStep path (.name name)) []) = none := hAt
        rw [hNone] at hSome
        cases hSome

end CatalogTree

-- ----
-- The result
-- ----

/-- Parent steps, then names: what the parser builds. -/
def ParentsFirst (relative : SchemaPath) : Prop :=
  ∃ (k : Nat) (names : List String),
    relative = List.replicate k .parent ++ absolutePath names

namespace CatalogTree

variable (t : CatalogTree)

theorem relative_parents {path : List String} {node : DirectoryOrSchema}
    (h : t.locate path = some node) (k : Nat) (trail : SchemaPath) :
    ∃ s, (List.replicate k SchemaPathSegment.parent).foldlM t.relativeStep (node, trail) = .ok s ∧
      t.locate (normalise path (List.replicate k .parent)) = some s.1 := by
  induction k generalizing path node trail with
  | zero => exact ⟨(node, trail), rfl, h⟩
  | succ k ih =>
    have hUp := t.locate_dropLast h
    rw [List.replicate_succ, List.foldlM_cons]
    unfold SchemaCatalog.relativeStep
    dsimp only
    cases hParent : t.parent node with
    | none =>
      rw [hParent] at hUp
      exact ih hUp _
    | some dir =>
      rw [hParent] at hUp
      exact ih hUp _

theorem normalise_names (path names : List String) :
    normalise path (absolutePath names) = path ++ names := by
  induction names generalizing path with
  | nil => exact (List.append_nil path).symm
  | cons name names ih =>
    have hTail := ih (path ++ [name])
    rw [List.append_assoc] at hTail
    exact hTail

/-- **Relative and absolute paths agree** for the current schema at any path and every relative
path: the relative one leads to a schema when the absolute one does and no step on the way leads
nowhere. With all parent steps first both lead to the same schema or fail alike. -/
theorem relative_path_iff {path : List String} {currentSchema : Nat}
    (h : t.locate path = some (.schema currentSchema)) (relative : SchemaPath) :
    (∀ schema, t.bindRelativeSchemaPath currentSchema relative = .ok schema ↔
      t.bindAbsoluteSchemaPath (absolutePath (normalise path relative)) = .ok schema ∧
        t.Traversable path relative) ∧
    (ParentsFirst relative → kindOf (t.bindRelativeSchemaPath currentSchema relative) =
      kindOf (t.bindAbsoluteSchemaPath (absolutePath (normalise path relative)))) := by
  constructor
  · intro schema
    rw [t.bindAbsoluteSchemaPath_ok_iff]
    unfold SchemaCatalog.bindRelativeSchemaPath
    rcases t.relative_walk h relative [] with ⟨⟨node, trail⟩, hOk, hEnd, hAll⟩ | ⟨⟨e, hError⟩, hNone⟩
    · rw [hOk, ok_bind, hEnd]
      cases node with
      | directory dir =>
        refine ⟨fun hBad => (nomatch hBad), fun hBoth => ?_⟩
        cases hBoth.1
      | schema found =>
        constructor
        · intro hFound
          have hSame : found = schema := Except.ok.inj hFound
          rw [hSame]
          exact ⟨rfl, hAll⟩
        · rintro ⟨hFound, -⟩
          have hSame : found = schema := DirectoryOrSchema.schema.inj (Option.some.inj hFound)
          rw [hSame]
          rfl
    · rw [hError]
      exact ⟨fun hBad => (nomatch hBad), fun hBoth => absurd hBoth.2 hNone⟩
  · rintro ⟨k, names, rfl⟩
    obtain ⟨⟨node, trail⟩, hOk, hAt⟩ := t.relative_parents h k []
    have hSplit : normalise path (List.replicate k .parent ++ absolutePath names) =
        normalise path (List.replicate k .parent) ++ names := by
      unfold normalise
      rw [List.foldl_append]
      exact normalise_names _ names
    unfold SchemaCatalog.bindRelativeSchemaPath SchemaCatalog.bindAbsoluteSchemaPath
    rw [List.foldlM_append, hOk, ok_bind, hSplit, t.absolute_append hAt names]
    exact t.kindOf_names names node trail _

end CatalogTree

-- ----
-- A small tree
-- ----

/-- `/a/s` and `/a/r` are schemas. -/
def smallTree : CatalogTree where
  root := .directory 0
  directory
    | 0 => ⟨none, [("a", .directory 1)]⟩
    | 1 => ⟨some 0, [("s", .schema 0), ("r", .schema 1)]⟩
    | _ => ⟨none, []⟩
  schemaParent _ := some 1
  parent_root := rfl
  parent_child := by
    intro dir name child hChild
    match dir with
    | 0 =>
      have hMem := mem_of_lookup_eq_some hChild
      simp only [List.mem_singleton, Prod.mk.injEq] at hMem
      rw [hMem.2]
      rfl
    | 1 =>
      have hMem := mem_of_lookup_eq_some hChild
      simp only [List.mem_cons, Prod.mk.injEq, List.not_mem_nil, or_false] at hMem
      rcases hMem with ⟨-, rfl⟩ | ⟨-, rfl⟩
      · rfl
      · rfl
    | dir + 2 => cases hChild

theorem relative_path_sibling : smallTree.bindRelativeSchemaPath 0 [.parent, .name "r"] = .ok 1 := by
  have hAt : smallTree.locate ["a", "s"] = some (.schema 0) := by decide
  refine ((smallTree.relative_path_iff hAt [.parent, .name "r"]).1 1).mpr ⟨by decide, ?_⟩
  rw [smallTree.traversable_cons, smallTree.traversable_cons, smallTree.traversable_nil]
  decide

/-- From `/a/s`, `../x/../r` stands for `/a/r`, which is there; `/a/x` is not. -/
theorem missing_name_before_parent :
    smallTree.locate ["a", "s"] = some (.schema 0) ∧
      normalise ["a", "s"] [.parent, .name "x", .parent, .name "r"] = ["a", "r"] ∧
      smallTree.bindAbsoluteSchemaPath (absolutePath ["a", "r"]) = .ok 1 ∧
      smallTree.bindRelativeSchemaPath 0 [.parent, .name "x", .parent, .name "r"] =
        .error (.error (.directoryOrSchemaNotFound "../x")) := by
  decide

end MiniGU
