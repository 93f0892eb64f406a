import MiniGU.Lib.VersionChain
import MiniGU.Model.Timestamp

/-!
# Vertices, edges and deltas (`storage/src/common`)

Vertices and edges are versioned by the same code, once for each map. `Kind` names
the two maps and `Data V k` the type stored in the one of kind `k`, so that what
the source writes twice is written here once with `k` as a parameter. `V` is the
type of property values; vertex, edge and label ids are `Nat`.
-/

namespace MiniGU

variable {V : Type}

structure Vertex (V : Type) where
  vid : Nat
  labelId : Nat
  properties : List V
  isTombstone : Bool
deriving DecidableEq, Repr

structure Edge (V : Type) where
  labelId : Nat
  srcId : Nat
  dstId : Nat
  eid : Nat
  properties : List V
  isTombstone : Bool
deriving DecidableEq, Repr

def Vertex.new (vid : Nat) (labelId : Nat) (properties : List V) : Vertex V :=
  { vid, labelId, properties, isTombstone := false }

def Edge.new (eid : Nat) (srcId dstId : Nat) (labelId : Nat)
    (properties : List V) : Edge V :=
  { labelId, srcId, dstId, eid, properties, isTombstone := false }

def Edge.withoutProperties (e : Edge V) : Edge V := { e with properties := [] }

/-- An entry of an adjacency set. -/
structure Neighbor where
  labelId : Nat
  neighborId : Nat
  eid : Nat
deriving DecidableEq, Repr

/-- `Ord for Neighbor`: by label, then neighbour, then edge id. -/
def Neighbor.lt (a b : Neighbor) : Bool :=
  decide (a.labelId < b.labelId) ||
  (decide (a.labelId = b.labelId) &&
    (decide (a.neighborId < b.neighborId) ||
     (decide (a.neighborId = b.neighborId) && decide (a.eid < b.eid))))

/-- `Neighbor.lt` is total: entries that compare equal are equal. -/
theorem Neighbor.lt_or_lt {a b : Neighbor} : a.lt b = true ∨ b.lt a = true ↔ a ≠ b := by
  obtain ⟨al, an, ae⟩ := a
  obtain ⟨bl, bn, be⟩ := b
  simp only [Neighbor.lt, Bool.or_eq_true, Bool.and_eq_true, decide_eq_true_eq, ne_eq,
    Neighbor.mk.injEq]
  omega

/-! ## The two kinds of entity -/

inductive Kind where
  | vertex
  | edge
deriving DecidableEq, Repr

/-- What the map of kind `k` stores. -/
def Data (V : Type) : Kind → Type
  | .vertex => Vertex V
  | .edge => Edge V

instance [DecidableEq V] : (k : Kind) → DecidableEq (Data V k)
  | .vertex => inferInstanceAs (DecidableEq (Vertex V))
  | .edge => inferInstanceAs (DecidableEq (Edge V))

/-- `set_props`: write `props` at `indices`, pair by pair. -/
def writeProps (properties : List V) (indices : List Nat) (props : List V) : List V :=
  (indices.zip props).foldl (fun ps ip => ps.set ip.1 ip.2) properties

theorem writeProps_cons (properties : List V) (i : Nat) (is : List Nat) (p : V) (ps : List V) :
    writeProps properties (i :: is) (p :: ps) = writeProps (properties.set i p) is ps := rfl

theorem writeProps_nil_right (properties : List V) (is : List Nat) :
    writeProps properties is [] = properties := by
  unfold writeProps
  rw [List.zip_nil_right, List.foldl_nil]

@[simp] theorem length_writeProps (properties : List V) (is : List Nat) (ps : List V) :
    (writeProps properties is ps).length = properties.length := by
  induction is generalizing properties ps with
  | nil => rfl
  | cons i is ih =>
    cases ps with
    | nil => rw [writeProps_nil_right]
    | cons p ps => rw [writeProps_cons, ih, List.length_set]

theorem getElem?_writeProps_of_notMem {is : List Nat} {j : Nat} (hj : j ∉ is)
    (properties ps : List V) : (writeProps properties is ps)[j]? = properties[j]? := by
  induction is generalizing properties ps with
  | nil => rfl
  | cons i is ih =>
    cases ps with
    | nil => rw [writeProps_nil_right]
    | cons p ps =>
      have hne : i ≠ j := fun heq => hj (by simp [heq])
      rw [writeProps_cons, ih (fun hmem => hj (by simp [hmem])), List.getElem?_set_ne hne]

/-- Writing back the values that were read at the same positions. -/
theorem writeProps_old {is : List Nat} {properties old : List V}
    (hOld : is.mapM (fun i => properties[i]?) = some old) {ps : List V}
    (hLen : ps.length = properties.length)
    (hElse : ∀ j, j ∉ is → ps[j]? = properties[j]?) : writeProps ps is old = properties := by
  induction is generalizing ps old with
  | nil => exact List.ext_getElem? fun j => hElse j (by simp)
  | cons i is ih =>
    rw [List.mapM_cons] at hOld
    simp only [Option.bind_eq_bind, Option.bind_eq_some_iff, Option.pure_def,
      Option.some.injEq] at hOld
    obtain ⟨p, hp, old', hOld', rfl⟩ := hOld
    obtain ⟨hi, hp⟩ := List.getElem?_eq_some_iff.mp hp
    rw [writeProps_cons]
    refine ih hOld' (by simp [hLen]) fun j hj => ?_
    by_cases hij : i = j
    · subst hij
      rw [List.getElem?_set_self (by omega), List.getElem?_eq_getElem hi, hp]
    · rw [List.getElem?_set_ne hij]
      exact hElse j (by simp [hj, Ne.symm hij])

namespace Data

/-- `vid()` and `eid()`. -/
def id : {k : Kind} → Data V k → Nat
  | .vertex, v => Vertex.vid v
  | .edge, e => Edge.eid e

def isTombstone : {k : Kind} → Data V k → Bool
  | .vertex, v => Vertex.isTombstone v
  | .edge, e => Edge.isTombstone e

def properties : {k : Kind} → Data V k → List V
  | .vertex, v => Vertex.properties v
  | .edge, e => Edge.properties e

/-- Assign the field `is_tombstone`. -/
def setTombstone : {k : Kind} → Bool → Data V k → Data V k
  | .vertex, b, v => ({ (v : Vertex V) with isTombstone := b } : Vertex V)
  | .edge, b, e => ({ (e : Edge V) with isTombstone := b } : Edge V)

def setProps : {k : Kind} → List Nat → List V → Data V k → Data V k
  | .vertex, indices, props, v =>
    ({ (v : Vertex V) with properties := writeProps (Vertex.properties v) indices props } :
      Vertex V)
  | .edge, indices, props, e =>
    ({ (e : Edge V) with properties := writeProps (Edge.properties e) indices props } :
      Edge V)

/-- `Vertex::tombstone` and `Edge::tombstone`. -/
def tombstone {k : Kind} (d : Data V k) : Data V k := d.setTombstone true

variable {k : Kind}

@[simp] theorem isTombstone_setTombstone (b : Bool) (d : Data V k) :
    (d.setTombstone b).isTombstone = b := by cases k <;> rfl

@[simp] theorem id_setTombstone (b : Bool) (d : Data V k) :
    (d.setTombstone b).id = d.id := by cases k <;> rfl

@[simp] theorem isTombstone_tombstone (d : Data V k) : d.tombstone.isTombstone = true :=
  isTombstone_setTombstone true d

@[simp] theorem id_tombstone (d : Data V k) : d.tombstone.id = d.id :=
  id_setTombstone true d

@[simp] theorem isTombstone_setProps (is : List Nat) (ps : List V) (d : Data V k) :
    (d.setProps is ps).isTombstone = d.isTombstone := by cases k <;> rfl

@[simp] theorem id_setProps (is : List Nat) (ps : List V) (d : Data V k) :
    (d.setProps is ps).id = d.id := by cases k <;> rfl

theorem setProps_old {is : List Nat} {old : List V} {d : Data V k}
    (hOld : is.mapM (fun i => d.properties[i]?) = some old) (ps : List V) :
    (d.setProps is ps).setProps is old = d := by
  have hProps : writeProps (writeProps d.properties is ps) is old = d.properties :=
    writeProps_old hOld (length_writeProps ..) fun j hj => getElem?_writeProps_of_notMem hj ..
  cases k with
  | vertex => exact congrArg (fun ps => ({ (d : Vertex V) with properties := ps } : Vertex V)) hProps
  | edge => exact congrArg (fun ps => ({ (d : Edge V) with properties := ps } : Edge V)) hProps

/-- Assign the field `properties`. -/
def withProps : {k : Kind} → List V → Data V k → Data V k
  | .vertex, ps, v => ({ (v : Vertex V) with properties := ps } : Vertex V)
  | .edge, ps, e => ({ (e : Edge V) with properties := ps } : Edge V)

@[simp] theorem properties_withProps (ps : List V) (d : Data V k) :
    (d.withProps ps).properties = ps := by cases k <;> rfl

@[simp] theorem withProps_withProps (ps ps' : List V) (d : Data V k) :
    (d.withProps ps).withProps ps' = d.withProps ps' := by cases k <;> rfl

@[simp] theorem withProps_self (d : Data V k) : d.withProps d.properties = d := by
  cases k <;> rfl

theorem setProps_eq_withProps (is : List Nat) (ps : List V) (d : Data V k) :
    d.setProps is ps = d.withProps (writeProps d.properties is ps) := by cases k <;> rfl

/-- `b` differs from `a` in the values of its properties at most. -/
def Resembles (a b : Data V k) : Prop :=
  b.properties.length = a.properties.length ∧ a.withProps b.properties = b

theorem Resembles.refl (a : Data V k) : Resembles a a := ⟨rfl, withProps_self a⟩

theorem Resembles.setProps {a b : Data V k} (h : Resembles a b) (is : List Nat) (ps : List V) :
    Resembles a (b.setProps is ps) := by
  obtain ⟨hLen, hEq⟩ := h
  rw [setProps_eq_withProps]
  refine ⟨by simp [hLen], ?_⟩
  rw [properties_withProps, ← hEq, withProps_withProps]

theorem setTombstone_self {b : Bool} {d : Data V k} (h : d.isTombstone = b) :
    d.setTombstone b = d := by
  subst h
  cases k <;> rfl

end Data

/-! ## Deltas -/

structure SetPropsOp (V : Type) where
  indices : List Nat
  props : List V
deriving DecidableEq, Repr

inductive DeltaOp (V : Type) where
  | delVertex (vid : Nat)
  | delEdge (eid : Nat)
  | createVertex (vertex : Vertex V)
  | createEdge (edge : Edge V)
  | setVertexProps (vid : Nat) (op : SetPropsOp V)
  | setEdgeProps (eid : Nat) (op : SetPropsOp V)
  | addLabel (label : Nat)
  | removeLabel (label : Nat)
deriving DecidableEq, Repr

namespace DeltaOp

/-- `DelVertex` or `DelEdge`. -/
def del : Kind → Nat → DeltaOp V
  | .vertex, id => .delVertex id
  | .edge, id => .delEdge id

/-- `CreateVertex` or `CreateEdge`. -/
def create : {k : Kind} → Data V k → DeltaOp V
  | .vertex, v => .createVertex v
  | .edge, e => .createEdge e

/-- `SetVertexProps` or `SetEdgeProps`. -/
def setProps : Kind → Nat → SetPropsOp V → DeltaOp V
  | .vertex, id, op => .setVertexProps id op
  | .edge, id, op => .setEdgeProps id op

/-- The entity a delta is about. -/
def target : DeltaOp V → Option (Kind × Nat)
  | .delVertex vid => some (.vertex, vid)
  | .delEdge eid => some (.edge, eid)
  | .createVertex v => some (.vertex, v.vid)
  | .createEdge e => some (.edge, e.eid)
  | .setVertexProps vid _ => some (.vertex, vid)
  | .setEdgeProps eid _ => some (.edge, eid)
  | .addLabel _ => none
  | .removeLabel _ => none

/-- The closure `apply_deltas` of the reads: what undoing one record does to the
version being reconstructed. -/
def undo : {k : Kind} → DeltaOp V → Data V k → Data V k
  | .vertex, .createVertex original, _ => original
  | .vertex, .setVertexProps _ op, d => d.setProps op.indices op.props
  | .vertex, .delVertex _, d => d.setTombstone true
  | .edge, .createEdge original, _ => original
  | .edge, .setEdgeProps _ op, d => d.setProps op.indices op.props
  | .edge, .delEdge _, d => d.setTombstone true
  | _, _, d => d

/-- What `abort_at` does to the current version for one undo entry. It differs from
`undo` on `CreateVertex` and `CreateEdge`, which also clear the tombstone. -/
def restore : {k : Kind} → DeltaOp V → Data V k → Data V k
  | .vertex, .createVertex vertex, _ => Data.setTombstone (k := .vertex) false vertex
  | .vertex, .setVertexProps _ op, d => d.setProps op.indices op.props
  | .vertex, .delVertex _, d => d.setTombstone true
  | .edge, .createEdge edge, _ => Data.setTombstone (k := .edge) false edge
  | .edge, .setEdgeProps _ op, d => d.setProps op.indices op.props
  | .edge, .delEdge _, d => d.setTombstone true
  | _, _, d => d

variable {k : Kind}

@[simp] theorem target_del (id : Nat) : (del k id : DeltaOp V).target = some (k, id) := by
  cases k <;> rfl

@[simp] theorem target_create (d : Data V k) : (create d).target = some (k, d.id) := by
  cases k <;> rfl

@[simp] theorem target_setProps (id : Nat) (op : SetPropsOp V) :
    (setProps k id op).target = some (k, id) := by
  cases k <;> rfl

@[simp] theorem undo_del (id : Nat) (d : Data V k) :
    (del k id).undo d = d.setTombstone true := by cases k <;> rfl

@[simp] theorem undo_create (img d : Data V k) : (create img).undo d = img := by
  cases k <;> rfl

@[simp] theorem undo_setProps (id : Nat) (op : SetPropsOp V) (d : Data V k) :
    (setProps k id op).undo d = d.setProps op.indices op.props := by cases k <;> rfl

@[simp] theorem restore_del (id : Nat) (d : Data V k) :
    (del k id).restore d = d.setTombstone true := by cases k <;> rfl

@[simp] theorem restore_create (img d : Data V k) :
    (create img).restore d = img.setTombstone false := by cases k <;> rfl

@[simp] theorem restore_setProps (id : Nat) (op : SetPropsOp V) (d : Data V k) :
    (setProps k id op).restore d = d.setProps op.indices op.props := by cases k <;> rfl

theorem create_ne_del (d : Data V k) (id : Nat) : create d ≠ del k id := by
  cases k <;> simp [create, del]

theorem setProps_ne_del (id id' : Nat) (op : SetPropsOp V) : setProps k id op ≠ del k id' := by
  cases k <;> simp [setProps, del]

theorem create_ne_setProps (d : Data V k) (id : Nat) (op : SetPropsOp V) :
    create d ≠ setProps k id op := by
  cases k <;> simp [create, setProps]

theorem create_inj {d d' : Data V k} (h : create d = create d') : d = d' := by
  cases k with
  | vertex => exact DeltaOp.createVertex.inj h
  | edge => exact DeltaOp.createEdge.inj h

theorem setProps_inj {id : Nat} {op op' : SetPropsOp V}
    (h : setProps k id op = setProps k id op') : op = op' := by
  cases k with
  | vertex => exact (DeltaOp.setVertexProps.inj h).2
  | edge => exact (DeltaOp.setEdgeProps.inj h).2

theorem target_cases {δ : DeltaOp V} {id : Nat} (h : δ.target = some (k, id)) :
    δ = del k id ∨ (∃ d : Data V k, δ = create d ∧ d.id = id) ∨ ∃ op, δ = setProps k id op := by
  cases δ with
  | delVertex vid =>
    cases h
    exact .inl rfl
  | delEdge eid =>
    cases h
    exact .inl rfl
  | createVertex v =>
    cases h
    exact .inr (.inl ⟨v, rfl, rfl⟩)
  | createEdge e =>
    cases h
    exact .inr (.inl ⟨e, rfl, rfl⟩)
  | setVertexProps vid op =>
    cases h
    exact .inr (.inr ⟨op, rfl⟩)
  | setEdgeProps eid op =>
    cases h
    exact .inr (.inr ⟨op, rfl⟩)
  | addLabel => cases h
  | removeLabel => cases h

theorem id_undo {δ : DeltaOp V} {id : Nat} {d : Data V k} (hTarget : δ.target = some (k, id))
    (hId : d.id = id) : (δ.undo d).id = id := by
  obtain rfl | ⟨img, rfl, hImg⟩ | ⟨op, rfl⟩ := target_cases hTarget
  · rw [undo_del, Data.id_setTombstone, hId]
  · rw [undo_create, hImg]
  · rw [undo_setProps, Data.id_setProps, hId]

theorem id_restore {δ : DeltaOp V} {id : Nat} {d : Data V k} (hTarget : δ.target = some (k, id))
    (hId : d.id = id) : (δ.restore d).id = id := by
  obtain rfl | ⟨img, rfl, hImg⟩ | ⟨op, rfl⟩ := target_cases hTarget
  · rw [restore_del, Data.id_setTombstone, hId]
  · rw [restore_create, Data.id_setTombstone, hImg]
  · rw [restore_setProps, Data.id_setProps, hId]

end DeltaOp

end MiniGU
