import MiniGU.Invariant.ValuePhrases
import MiniGU.Model.ObjectRef

/-!
# References to catalog objects are read back

Where a directory path stops is decided by the two tokens behind a name. A path that leaves the
object to its caller stops before the last name that a solidus follows, one that does not before
the last name.
-/

namespace MiniGU.Parsing

/-- A token that is a name. -/
structure NameToken where
  kind : TokenKind
  name : Ident
  reads : identifierName kind = some name

/-- A schema as it can be written. A relative path has at least one parent step. -/
inductive WrittenSchema where
  | absolute (directories : List NameToken) (schema : NameToken)
  | relative (moreParents : Nat) (directories : List NameToken) (schema : NameToken)
  | homeSchema
  | currentSchema
  | period
  | parameter (name : ParameterName) (text : Ident) (reads : name.unescape = some text)
  | root

def directoryTokens (directories : List NameToken) : List TokenKind :=
  directories.flatMap fun d => [d.kind, .solidus]

def parentTokens (parents : Nat) : List TokenKind :=
  (List.replicate parents ()).flatMap fun _ => [.doublePeriod, .solidus]

def namedPath (directories : List NameToken) (schema : NameToken) : SchemaPath :=
  directories.map (fun d => .name d.name) ++ [.name schema.name]

namespace WrittenSchema

def tokens : WrittenSchema → List TokenKind
  | absolute directories schema => .solidus :: (directoryTokens directories ++ [schema.kind])
  | relative moreParents directories schema =>
    parentTokens (moreParents + 1) ++ (directoryTokens directories ++ [schema.kind])
  | homeSchema => [.homeSchema]
  | currentSchema => [.currentSchema]
  | period => [.period]
  | parameter name _ _ => [.substitutedParameterReference name]
  | root => [.solidus]

def ref : WrittenSchema → SchemaRef
  | absolute directories schema => .absolute (namedPath directories schema)
  | relative moreParents directories schema =>
    .relative (List.replicate (moreParents + 1) .parent ++ namedPath directories schema)
  | homeSchema => .predefined .home
  | currentSchema => .predefined .current
  | period => .predefined .current
  | parameter _ text _ => .parameter text
  | root => .absolute []

/-- The tokens in front of the objects; the root's solidus stands for the one after a schema. -/
def prefixTokens : WrittenSchema → List TokenKind
  | root => [.solidus]
  | schema => schema.tokens ++ [.solidus]

end WrittenSchema

def objectTokens (parents : List NameToken) (object : NameToken) : List TokenKind :=
  parents.flatMap (fun p => [p.kind, .period]) ++ [object.kind]

-- ----
-- Single tokens
-- ----

variable {ts rest : List TokenKind}

theorem expect_reads (kind : TokenKind) : expect kind (kind :: ts) = .ok () ts := by
  simp [expect]

theorem expect_backtrack {kind : TokenKind} (h : ts.head? ≠ some kind) :
    expect kind ts = .backtrack := by
  cases ts with
  | nil => rfl
  | cons t ts =>
    have hNe : ¬t = kind := fun hEq => h (congrArg some hEq)
    simp [expect, hNe]

theorem NameToken.kind_ne (x : NameToken) {kind : TokenKind} (h : identifierName kind = none) :
    x.kind ≠ kind := by
  intro hEq
  have hReads := x.reads
  rw [hEq, h] at hReads
  cases hReads

theorem terminated_reads {α β : Type} {p : TokenParser α} {q : TokenParser β} {a : α} {b : β}
    {mid : List TokenKind} (hp : p ts = .ok a mid) (hq : q mid = .ok b rest) :
    terminated p q ts = .ok a rest := by
  rw [terminated, bind_apply, hp, andThen_ok, bind_apply, hq]
  rfl

theorem terminated_backtrack {α β : Type} {p : TokenParser α} {q : TokenParser β} {a : α}
    {mid : List TokenKind} (hp : p ts = .ok a mid) (hq : q mid = .backtrack) :
    terminated p q ts = .backtrack := by
  rw [terminated, bind_apply, hp, andThen_ok, bind_apply, hq]
  rfl

theorem directorySegment_reads (d : NameToken) :
    directorySegment (d.kind :: ts) = .ok (.name d.name) ts := by
  rw [directorySegment, directoryName, bind_apply, identifier_reads d.reads]
  rfl

-- ----
-- Directories
-- ----

theorem directoryEnd_backtrack (greedy : Bool) (h : ts.head? ≠ some .solidus) :
    directoryEnd greedy ts = .backtrack := by
  rw [directoryEnd, bind_apply, expect_backtrack h]
  rfl

/-- A path that is not greedy leaves the last name before a solidus. -/
theorem directoryEnd_of_last (x : NameToken) (h : ts.head? ≠ some .solidus) :
    directoryEnd false (.solidus :: x.kind :: ts) = .backtrack := by
  rw [directoryEnd, bind_apply, expect_reads, andThen_ok, if_neg Bool.false_ne_true, peek,
    bind_apply, directoryName, identifier_reads x.reads, andThen_ok, expect_backtrack h]
  rfl

theorem directoryEnd_reads {greedy : Bool} (x : NameToken)
    (h : greedy = true ∨ ts.head? = some .solidus) :
    directoryEnd greedy (.solidus :: x.kind :: ts) = .ok () (x.kind :: ts) := by
  rw [directoryEnd, bind_apply, expect_reads, andThen_ok]
  cases greedy with
  | true => rfl
  | false =>
    obtain hTrue | hHead := h
    · cases hTrue
    · obtain ⟨us, rfl⟩ : ∃ us, ts = .solidus :: us := by
        cases ts with
        | nil => cases hHead
        | cons t us =>
          cases hHead
          exact ⟨us, rfl⟩
      rw [if_neg Bool.false_ne_true, peek, bind_apply, directoryName, identifier_reads x.reads,
        andThen_ok, expect_reads]
      rfl

/-- What the names of the directories and the schema are followed by, if `greedy` paths are to
stop before the schema. -/
def SchemaEnds (greedy : Bool) (rest : List TokenKind) : Prop :=
  if greedy then rest.head? ≠ some .solidus
  else ∃ x : NameToken, ∃ us, rest = .solidus :: x.kind :: us ∧ us.head? ≠ some .solidus

/-- Between a directory and the schema there is a name and, unless the path is greedy, a solidus. -/
theorem directoryItems {greedy : Bool} (s : NameToken) (h : SchemaEnds greedy rest) :
    ∀ ds : List NameToken, Items (terminated directorySegment (directoryEnd greedy))
      (ds.map fun d => .name d.name) (directoryTokens ds ++ s.kind :: rest) (s.kind :: rest)
  | [] => by
    refine .done (terminated_backtrack (directorySegment_reads s) ?_)
    cases greedy with
    | true => exact directoryEnd_backtrack true h
    | false =>
      obtain ⟨x, us, rfl, hLast⟩ := h
      exact directoryEnd_of_last x hLast
  | d :: ds => by
    have hEnd : directoryEnd greedy (.solidus :: (directoryTokens ds ++ s.kind :: rest)) =
        .ok () (directoryTokens ds ++ s.kind :: rest) := by
      cases ds with
      | nil =>
        refine directoryEnd_reads s ?_
        cases greedy with
        | true => exact .inl rfl
        | false =>
          obtain ⟨x, us, rfl, -⟩ := h
          exact .inr rfl
      | cons d' ds => exact directoryEnd_reads d' (.inr rfl)
    refine .item (terminated_reads (directorySegment_reads d) hEnd) ?_ (directoryItems s h ds)
    exact Nat.lt_add_of_pos_right (Nat.succ_pos 1)

theorem opt_repeat1 {α : Type} {p : TokenParser α} {as : List α} (h : Items p as ts rest) :
    ∃ o, opt (repeat1 p) ts = .ok o rest ∧ o.getD [] = as := by
  cases as with
  | nil =>
    cases h with
    | done hStop => exact ⟨none, opt_of_backtrack (repeat1_of_backtrack hStop), rfl⟩
  | cons a as => exact ⟨some (a :: as), opt_of_ok (repeat1_reads h), rfl⟩

theorem absolute_reads {greedy : Bool} (ds : List NameToken) (s : NameToken)
    (h : SchemaEnds greedy rest) :
    absoluteCatalogSchemaReference greedy (.solidus :: (directoryTokens ds ++ s.kind :: rest)) =
      .ok (.absolute (namedPath ds s)) rest := by
  obtain ⟨o, hOpt, hPath⟩ := opt_repeat1 (directoryItems s h ds)
  rw [absoluteCatalogSchemaReference, bind_apply, absoluteDirectoryPath, bind_apply, expect_reads,
    andThen_ok, bind_apply, simpleDirectoryPath, hOpt, andThen_ok, pure_apply, andThen_ok,
    bind_apply, schemaName, identifier_reads s.reads, hPath]
  rfl

theorem parentItems {x : NameToken} : ∀ n : Nat,
    Items (terminated parentSegment (expect .solidus)) (List.replicate n .parent)
      (parentTokens n ++ x.kind :: rest) (x.kind :: rest)
  | 0 => by
    have hNe : (x.kind :: rest).head? ≠ some .doublePeriod := fun hEq =>
      x.kind_ne rfl (Option.some.inj hEq)
    refine .done ?_
    show terminated parentSegment (expect .solidus) (x.kind :: rest) = .backtrack
    rw [terminated, bind_apply, parentSegment, bind_apply, expect_backtrack hNe]
    rfl
  | n + 1 => by
    have hParent : parentSegment (.doublePeriod :: .solidus :: (parentTokens n ++ x.kind :: rest)) =
        .ok .parent (.solidus :: (parentTokens n ++ x.kind :: rest)) := by
      rw [parentSegment, bind_apply, expect_reads]
      rfl
    have hStep := terminated_reads hParent (expect_reads .solidus)
    exact .item hStep (by simp [parentTokens]) (parentItems n)

theorem relative_reads {greedy : Bool} (n : Nat) (ds : List NameToken) (s : NameToken)
    (h : SchemaEnds greedy rest) :
    relativeCatalogSchemaReference greedy
        (parentTokens (n + 1) ++ (directoryTokens ds ++ s.kind :: rest)) =
      .ok (.relative (List.replicate (n + 1) .parent ++ namedPath ds s)) rest := by
  obtain ⟨o, hOpt, hPath⟩ := opt_repeat1 (directoryItems s h ds)
  have hParents : repeat1 (terminated parentSegment (expect .solidus))
      (parentTokens (n + 1) ++ (directoryTokens ds ++ s.kind :: rest)) =
        .ok (List.replicate (n + 1) .parent) (directoryTokens ds ++ s.kind :: rest) := by
    cases ds with
    | nil => exact repeat1_reads (parentItems (n + 1))
    | cons d ds => exact repeat1_reads (parentItems (n + 1))
  rw [relativeCatalogSchemaReference, orElse_of_backtrack (by rfl), bind_apply,
    relativeDirectoryPath, bind_apply, hParents, andThen_ok, bind_apply, simpleDirectoryPath, hOpt,
    andThen_ok, pure_apply, andThen_ok, bind_apply, schemaName, identifier_reads s.reads, hPath]
  show Reply.ok (SchemaRef.relative _) rest = _
  rw [mergeDirectoryPathAndSchemaName, List.append_assoc]
  rfl

theorem parameter_reads {greedy : Bool} {name : ParameterName} {text : Ident}
    (h : name.unescape = some text) :
    nonRootSchemaReference greedy (.substitutedParameterReference name :: rest) =
      .ok (.parameter text) rest := by
  show (cutNone name.unescape rest).andThen _ = _
  rw [h]
  rfl

/-- Every schema but the root is read where a greedy path is, or is not, to leave the last name. -/
theorem nonRoot_reads {greedy : Bool} {s : WrittenSchema} (hRoot : s ≠ .root)
    (h : SchemaEnds greedy rest) :
    nonRootSchemaReference greedy (s.tokens ++ rest) = .ok s.ref rest := by
  cases s with
  | absolute ds x =>
    rw [WrittenSchema.tokens, List.cons_append, List.append_assoc]
    exact absolute_reads ds x h
  | relative n ds x =>
    rw [WrittenSchema.tokens, List.append_assoc, List.append_assoc]
    exact relative_reads n ds x h
  | homeSchema => rfl
  | currentSchema => rfl
  | period => rfl
  | parameter name text hName => exact parameter_reads hName
  | root => exact absurd rfl hRoot

/-- **A schema is read back from its tokens.** -/
theorem schemaReference_reads (s : WrittenSchema) : schemaReference s.tokens = .ok s.ref [] := by
  by_cases hRoot : s = .root
  · rw [hRoot]
    rfl
  · have hEnds : SchemaEnds true [] := fun h => (nomatch h)
    have hRead := nonRoot_reads hRoot hEnds
    rw [List.append_nil] at hRead
    exact orElse_of_ok hRead

-- ----
-- Objects
-- ----

variable (object : NameToken)

/-- The tokens of an object begin with a name that no solidus follows. -/
theorem objectTokens_head : ∀ parents : List NameToken, ∃ x : NameToken, ∃ us,
    objectTokens parents object = x.kind :: us ∧ us.head? ≠ some .solidus
  | [] => ⟨object, [], rfl, fun h => (nomatch h)⟩
  | p :: ps => ⟨p, .period :: objectTokens ps object, rfl, fun h => (nomatch h)⟩

theorem parentObject_reads (p : NameToken) :
    parentObject (p.kind :: .period :: ts) = .ok p.name ts :=
  terminated_reads (identifier_reads p.reads) (expect_reads .period)

theorem objectItems : ∀ parents : List NameToken,
    Items parentObject (parents.map NameToken.name) (objectTokens parents object) [object.kind]
  | [] => .done (terminated_backtrack (identifier_reads object.reads) rfl)
  | p :: ps => by
    refine .item (parentObject_reads p) ?_ (objectItems ps)
    exact Nat.lt_add_of_pos_right (Nat.succ_pos 1)

theorem parentInSchema_reads {s : WrittenSchema} (hRoot : s ≠ .root) (parents : List NameToken) :
    parentInSchema (s.tokens ++ .solidus :: objectTokens parents object) =
      .ok ⟨some s.ref, parents.map NameToken.name⟩ [object.kind] := by
  have hEnds : SchemaEnds false (.solidus :: objectTokens parents object) := by
    obtain ⟨x, us, hTokens, hHead⟩ := objectTokens_head object parents
    exact ⟨x, us, by rw [hTokens], hHead⟩
  rw [parentInSchema, bind_apply, nonRoot_reads hRoot hEnds, andThen_ok, bind_apply, expect_reads,
    andThen_ok, bind_apply, repeat0_reads (objectItems object parents)]
  rfl

/-- In the root the first object is taken for a schema, and no solidus follows it. -/
theorem parentInSchema_root (parents : List NameToken) :
    parentInSchema (.solidus :: objectTokens parents object) = .backtrack := by
  obtain ⟨x, us, hTokens, hHead⟩ := objectTokens_head object parents
  have hNoPath : opt (simpleDirectoryPath false) (x.kind :: us) = .ok none (x.kind :: us) :=
    opt_of_backtrack (repeat1_of_backtrack
      (terminated_backtrack (directorySegment_reads x) (directoryEnd_backtrack false hHead)))
  have hSchema : nonRootSchemaReference false (.solidus :: x.kind :: us) =
      .ok (.absolute [.name x.name]) us := by
    show absoluteCatalogSchemaReference false _ = _
    rw [absoluteCatalogSchemaReference, bind_apply, absoluteDirectoryPath, bind_apply,
      expect_reads, andThen_ok, bind_apply, hNoPath, andThen_ok, pure_apply, andThen_ok,
      bind_apply, schemaName, identifier_reads x.reads]
    rfl
  rw [hTokens, parentInSchema, bind_apply, hSchema, andThen_ok, bind_apply,
    expect_backtrack hHead]
  rfl

theorem catalogObjectParentReference_schema (s : WrittenSchema) (parents : List NameToken) :
    catalogObjectParentReference (s.prefixTokens ++ objectTokens parents object) =
      .ok ⟨some s.ref, parents.map NameToken.name⟩ [object.kind] := by
  by_cases hRoot : s = .root
  · subst hRoot
    show orElse parentInSchema parentInRoot (.solidus :: objectTokens parents object) = _
    rw [orElse_of_backtrack (parentInSchema_root object parents), parentInRoot, bind_apply,
      rootSchemaReference, bind_apply, expect_reads, andThen_ok, pure_apply, andThen_ok,
      bind_apply, repeat0_reads (objectItems object parents)]
    rfl
  · have hRead := orElse_of_ok (q := parentInRoot)
      (parentInSchema_reads object hRoot parents)
    have hPrefix : s.prefixTokens = s.tokens ++ [.solidus] := by
      cases s with
      | root => exact absurd rfl hRoot
      | _ => rfl
    rw [hPrefix, List.append_assoc]
    cases s with
    | root => exact absurd rfl hRoot
    | _ => exact hRead

theorem catalogObjectParentReference_name (x : NameToken) :
    catalogObjectParentReference (x.kind :: ts) = parentWithoutSchema (x.kind :: ts) := by
  obtain ⟨kind, name, hReads⟩ := x
  cases kind <;> first
    | rfl
    | cases hReads

theorem opt_parent_without_schema (parents : List NameToken) :
    ∃ o, opt catalogObjectParentReference (objectTokens parents object) = .ok o [object.kind] ∧
      ∀ name, (match o with
        | some inner => { inner with objects := inner.objects ++ [name] }
        | none => ⟨none, [name]⟩ : CatalogObjectRef) =
          ⟨none, parents.map NameToken.name ++ [name]⟩ := by
  have hItems := objectItems object parents
  cases parents with
  | nil =>
    refine ⟨none, ?_, fun name => rfl⟩
    cases hItems with
    | done hStop =>
      refine opt_of_backtrack ((catalogObjectParentReference_name object).trans ?_)
      show parentWithoutSchema (objectTokens [] object) = .backtrack
      rw [parentWithoutSchema, bind_apply, repeat1_of_backtrack hStop]
      rfl
  | cons p ps =>
    refine ⟨some ⟨none, (p :: ps).map NameToken.name⟩, ?_, fun name => rfl⟩
    refine opt_of_ok ((catalogObjectParentReference_name p).trans ?_)
    rw [List.map_cons] at hItems
    show parentWithoutSchema (objectTokens (p :: ps) object) = _
    rw [parentWithoutSchema, bind_apply, repeat1_reads hItems]
    rfl

/-- The tokens of a reference. -/
def referenceTokens (schema : Option WrittenSchema) (parents : List NameToken)
    (object : NameToken) : List TokenKind :=
  (schema.map WrittenSchema.prefixTokens).getD [] ++ objectTokens parents object

/-- **An object is read back from its tokens**, in its schema or in none. -/
theorem catalogObjectParentAndName_reads (schema : Option WrittenSchema)
    (parents : List NameToken) (object : NameToken) :
    catalogObjectParentAndName (referenceTokens schema parents object) =
      .ok ⟨schema.map WrittenSchema.ref, parents.map NameToken.name ++ [object.name]⟩ [] := by
  cases schema with
  | none =>
    obtain ⟨o, hOpt, hInner⟩ := opt_parent_without_schema object parents
    show catalogObjectParentAndName (objectTokens parents object) = _
    rw [catalogObjectParentAndName, bind_apply, hOpt, andThen_ok, bind_apply, objectName,
      identifier_reads object.reads, andThen_ok]
    have hName := hInner object.name
    cases o <;> exact congrArg (fun r => Reply.ok r []) hName
  | some s =>
    have hOpt := opt_of_ok (catalogObjectParentReference_schema object s parents)
    show catalogObjectParentAndName (s.prefixTokens ++ objectTokens parents object) = _
    rw [catalogObjectParentAndName, bind_apply, hOpt, andThen_ok, bind_apply, objectName,
      identifier_reads object.reads]
    rfl

/-- **A reference splits in one way only**: into its schema and its objects, and a schema by itself
into its path. -/
theorem reference_split (schema : Option WrittenSchema) (parents : List NameToken)
    (object : NameToken) (s : WrittenSchema) :
    catalogObjectParentAndName (referenceTokens schema parents object) =
        .ok ⟨schema.map WrittenSchema.ref, parents.map NameToken.name ++ [object.name]⟩ [] ∧
      schemaReference s.tokens = .ok s.ref [] :=
  ⟨catalogObjectParentAndName_reads schema parents object, schemaReference_reads s⟩

end MiniGU.Parsing
