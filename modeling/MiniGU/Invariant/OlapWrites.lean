import Mathlib.Data.List.InsertIdx
import MiniGU.Invariant.OlapTable

/-!
# What the writes of the AP store do to its table

A write either overwrites one slot in place (`Overwrites`), or moves the slots behind
the one it adds or removes. By edge id both change one record and leave the others.
-/

namespace MiniGU

namespace Olap

variable {V : Type}

namespace EdgeTable

end EdgeTable

namespace OlapStorage

variable {g g' g'' : OlapStorage V}

/-! ## Versions in a column -/

theorem versionsAt_modifyValues
    {F : (Nat → List (PropertyVersion V)) → Nat → List (PropertyVersion V)}
    {column : PropertyColumn V} {b : Nat}
    (hF : b < column.blocks.length ∨ F (fun _ => []) = fun _ => []) (b' o' : Nat) :
    versionsAt ⟨modifyValues F column.blocks b⟩ b' o' =
      if b' = b then F (fun o => versionsAt column b o) o' else versionsAt column b' o' := by
  unfold versionsAt modifyValues
  by_cases hb : b' = b
  · subst hb
    rw [if_pos rfl, List.getElem?_modify_eq]
    cases hBlock : column.blocks[b']? with
    | none =>
      have hLength := List.getElem?_eq_none_iff.mp hBlock
      rcases hF with hLt | hEmpty
      · omega
      · exact (congrFun hEmpty o').symm
    | some block => rfl
  · rw [if_neg hb, List.getElem?_modify_ne _ _ (Ne.symm hb)]

theorem versionsAt_ensureBlock {blocks blocks' : List (PropertyBlock V)} {b : Nat}
    (h : ensureBlock blocks b = some blocks') :
    b < blocks'.length ∧ ∀ b' o', versionsAt ⟨blocks'⟩ b' o' = versionsAt ⟨blocks⟩ b' o' := by
  unfold ensureBlock at h
  split at h
  · cases h
    exact ⟨‹_›, fun _ _ => rfl⟩
  · split at h
    · rename_i hLength
      cases h
      refine ⟨by simp [hLength], fun b' o' => ?_⟩
      unfold versionsAt
      rcases Nat.lt_trichotomy b' blocks.length with hLt | rfl | hGt
      · rw [List.getElem?_append_left hLt]
      · simp
      · rw [List.getElem?_eq_none (by simp; omega), List.getElem?_eq_none (by simp; omega)]
    · cases h

theorem ensureBlock_isSome {blocks : List (PropertyBlock V)} {b : Nat} :
    (ensureBlock blocks b).isSome ↔ b ≤ blocks.length := by
  unfold ensureBlock
  split
  · simp
    omega
  · split
    · simp
      omega
    · simp
      omega

theorem versions_of_column {j b o : Nat} {column : PropertyColumn V}
    (h : g.propertyColumns[j]? = some column) : g.versions j b o = versionsAt column b o := by
  unfold versions
  rw [h]

theorem versions_of_no_column {j b o : Nat} (h : g.propertyColumns[j]? = none) :
    g.versions j b o = [] := by
  unfold versions
  rw [h]

/-! ## Growing columns -/

/-- No column loses a block. -/
def Grows (g g' : OlapStorage V) : Prop :=
  ∀ (j : Nat) (column : PropertyColumn V), g.propertyColumns[j]? = some column →
    ∃ column' : PropertyColumn V, g'.propertyColumns[j]? = some column' ∧ column.blocks.length ≤ column'.blocks.length

theorem Grows.trans (h : Grows g g') (h' : Grows g' g'') : Grows g g'' := by
  intro j column hColumn
  obtain ⟨column', hColumn', hLe⟩ := h j column hColumn
  obtain ⟨column'', hColumn'', hLe'⟩ := h' j column' hColumn'
  exact ⟨column'', hColumn'', hLe.trans hLe'⟩

theorem Grows.of_columns (h : g'.propertyColumns = g.propertyColumns) : Grows g g' :=
  fun _ column hColumn => ⟨column, h ▸ hColumn, le_rfl⟩

/-! ## Writes in place -/

/-- `g'` is `g` with the slot at one place and its version lists rewritten. -/
structure Overwrites (g g' : OlapStorage V) (b o : Nat) (f : OlapStorageEdge → OlapStorageEdge)
    (φ : Nat → List (PropertyVersion V) → List (PropertyVersion V)) (m : Nat → Nat) : Prop where
  edges : g'.edges = g.edges.modify b fun block =>
    { block with edges := block.edges.modify o f, minTs := m block.minTs }
  versions : ∀ j b' o', g'.versions j b' o' =
    if b' = b ∧ o' = o then φ j (g.versions j b o) else g.versions j b' o'
  columns : g'.propertyColumns.length = g.propertyColumns.length
  grows : Grows g g'
  map : g'.edgeIdMap = g.edgeIdMap
  counter : g'.edgeIdCounter = g.edgeIdCounter
  vertices : g'.vertices = g.vertices
  dense : g'.denseIdMap = g.denseIdMap

variable {b o : Nat} {f f' : OlapStorageEdge → OlapStorageEdge}
  {φ φ' : Nat → List (PropertyVersion V) → List (PropertyVersion V)} {m m' : Nat → Nat}

namespace Overwrites

theorem trans (h : Overwrites g g' b o f φ m) (h' : Overwrites g' g'' b o f' φ' m') :
    Overwrites g g'' b o (f' ∘ f) (fun j l => φ' j (φ j l)) (m' ∘ m) where
  edges := by
    rw [h'.edges, h.edges, List.modify_modify_eq]
    congr 1
    funext block
    simp only [Function.comp_apply, List.modify_modify_eq]
  versions j b' o' := by
    rw [h'.versions, h.versions j b o, if_pos (And.intro rfl rfl)]
    split
    · rfl
    · rename_i hPlace
      rw [h.versions, if_neg hPlace]
  columns := h'.columns.trans h.columns
  grows := h.grows.trans h'.grows
  map := h'.map.trans h.map
  counter := h'.counter.trans h.counter
  vertices := h'.vertices.trans h.vertices
  dense := h'.dense.trans h.dense

theorem block (h : Overwrites g g' b o f φ m) (b' : Nat) :
    g'.edges[b']? = (g.edges[b']?).map fun block =>
      if b' = b then { block with edges := block.edges.modify o f, minTs := m block.minTs }
      else block := by
  rw [h.edges, List.getElem?_modify]
  by_cases hb : b' = b
  · subst hb
    simp
  · simp [hb, Ne.symm hb]

theorem slotAt (h : Overwrites g g' b o f φ m) (b' o' : Nat) :
    g'.slotAt b' o' = (g.slotAt b' o').map fun edge =>
      if b' = b ∧ o' = o then f edge else edge := by
  unfold OlapStorage.slotAt
  rw [h.block]
  cases g.edges[b']? with
  | none => rfl
  | some block =>
    by_cases hb : b' = b
    · subst hb
      simp only [Option.map_some, Option.bind_some, if_true, true_and]
      rw [List.getElem?_modify]
      by_cases ho : o' = o
      · subst ho
        simp
      · simp [ho, Ne.symm ho]
    · simp [hb]

theorem slot_back (h : Overwrites g g' b o f φ m) (hf : ∀ edge, (f edge).eid = edge.eid)
    {b' o' : Nat} {edge' : OlapStorageEdge} (hs : g'.slotAt b' o' = some edge') :
    ∃ edge, g.slotAt b' o' = some edge ∧ edge'.eid = edge.eid := by
  rw [h.slotAt, Option.map_eq_some_iff] at hs
  obtain ⟨edge, hs, rfl⟩ := hs
  refine ⟨edge, hs, ?_⟩
  split
  · exact hf edge
  · rfl

/-- A write that leaves the ids of the edges alone keeps the store well formed. -/
theorem wellFormed (h : Overwrites g g' b o f φ m) (hw : g.WellFormed)
    (hf : ∀ edge, (f edge).eid = edge.eid) : g'.WellFormed where
  mapped hs := by
    obtain ⟨edge, hs, hEid⟩ := h.slot_back hf hs
    rw [h.map, hEid]
    exact hw.mapped hs
  located hm := by
    rw [h.map] at hm
    obtain ⟨edge, hs, rfl⟩ := hw.located hm
    refine ⟨_, by rw [h.slotAt, hs]; rfl, ?_⟩
    split
    · exact hf edge
    · rfl
  eid_pos hs := by
    obtain ⟨edge, hs, hEid⟩ := h.slot_back hf hs
    exact hEid ▸ hw.eid_pos hs
  eid_lt hs := by
    obtain ⟨edge, hs, hEid⟩ := h.slot_back hf hs
    rw [h.counter, hEid]
    exact hw.eid_lt hs
  counter_pos := h.counter ▸ hw.counter_pos
  pre_lt hb hp := by
    rw [h.block, Option.map_eq_some_iff] at hb
    obtain ⟨block, hb, rfl⟩ := hb
    refine hw.pre_lt hb ?_
    split at hp <;> exact hp
  start_lt hv hb := by
    rw [h.vertices] at hv
    rw [h.edges, List.length_modify]
    exact hw.start_lt hv hb

end Overwrites

/-! ### The writes in place of the source -/

theorem modifySlot_overwrites : Overwrites g (g.modifySlot b o f) b o f (fun _ l => l) id where
  edges := rfl
  versions j b' o' := by
    split
    · rename_i h
      rw [h.1, h.2]
      rfl
    · rfl
  columns := rfl
  grows := .of_columns rfl
  map := rfl
  counter := rfl
  vertices := rfl
  dense := rfl

theorem touchBlock_overwrites {ts : Nat} :
    Overwrites g (g.touchBlock b ts) b o id (fun _ l => l) (min · ts) where
  edges := by
    unfold touchBlock
    simp only [List.modify_id]
  versions j b' o' := by
    split
    · rename_i h
      rw [h.1, h.2]
      rfl
    · rfl
  columns := rfl
  grows := .of_columns rfl
  map := rfl
  counter := rfl
  vertices := rfl
  dense := rfl

theorem columns_overwrites {columns : List (PropertyColumn V)}
    (hLength : columns.length = g.propertyColumns.length)
    (hGrows : Grows g { g with propertyColumns := columns })
    (hVersions : ∀ j b' o', OlapStorage.versions { g with propertyColumns := columns } j b' o' =
      if b' = b ∧ o' = o then φ j (g.versions j b o) else g.versions j b' o') :
    Overwrites g { g with propertyColumns := columns } b o id φ id where
  edges := by
    simp only [List.modify_id, id_eq]
    exact (List.modify_id b g.edges).symm
  versions := hVersions
  columns := hLength
  grows := hGrows
  map := rfl
  counter := rfl
  vertices := rfl
  dense := rfl

/-- Changing the versions of one slot in one column overwrites nothing else. -/
theorem modifyVersions_overwrites {j : Nat}
    {F : List (PropertyVersion V) → List (PropertyVersion V)} {column : PropertyColumn V}
    (hColumn : g.propertyColumns[j]? = some column) (hb : b < column.blocks.length) :
    Overwrites g (g.modifyVersions j b o F) b o id (fun j' l => if j' = j then F l else l) id := by
  refine columns_overwrites (List.length_modify ..) ?_ fun j' b' o' => ?_
  · intro j' column' hColumn'
    refine ⟨_, by rw [List.getElem?_modify, hColumn']; rfl, ?_⟩
    split
    · exact (List.length_modify ..).ge
    · exact le_rfl
  by_cases hj : j' = j
  · subst hj
    have hNew : (g.propertyColumns.modify j' fun (column : PropertyColumn V) =>
        ⟨modifyValues (fun values => Function.update values o (F (values o))) column.blocks b⟩)[j']? =
        some ⟨modifyValues (fun values => Function.update values o (F (values o)))
          column.blocks b⟩ := by
      rw [List.getElem?_modify_eq, hColumn]
      rfl
    rw [versions_of_column hNew, versionsAt_modifyValues (.inl hb), versions_of_column hColumn,
      versions_of_column hColumn, if_pos rfl]
    by_cases hPlace : b' = b
    · subst hPlace
      rw [if_pos rfl]
      by_cases ho : o' = o
      · subst ho
        simp
      · simp [ho]
    · simp [hPlace]
  · rw [if_neg hj]
    have hSame : OlapStorage.versions { g with
        propertyColumns := g.propertyColumns.modify j fun (column : PropertyColumn V) =>
          ⟨modifyValues (fun values => Function.update values o (F (values o)))
            column.blocks b⟩ } j' b' o' = g.versions j' b' o' := by
      unfold OlapStorage.versions
      simp only [List.getElem?_modify_ne _ _ (Ne.symm hj)]
    rw [hSame]
    split
    · rename_i hPlace
      rw [hPlace.1, hPlace.2]
    · rfl

theorem publishSlot_overwrites {ts : Nat} :
    Overwrites g (g.publishSlot b o ts) b o (fun edge => { edge with commitTs := ts })
      (fun _ l => l) (fun minTs => if Timestamp.isTxnId minTs then ts else min minTs ts) where
  edges := rfl
  versions j b' o' := by
    split
    · rename_i h
      rw [h.1, h.2]
      rfl
    · rfl
  columns := rfl
  grows := .of_columns rfl
  map := rfl
  counter := rfl
  vertices := rfl
  dense := rfl

/-- A commit stamps the last version of the slot in every column, and overwrites nothing else. -/
theorem promoteVersions_overwrites {txnId ts : Nat} :
    Overwrites g (g.promoteVersions b o txnId ts) b o id (fun _ l => promoteLast txnId ts l) id := by
  refine columns_overwrites (List.length_map _) ?_ fun j b' o' => ?_
  · intro j column hColumn
    refine ⟨_, by rw [List.getElem?_map, hColumn]; rfl, ?_⟩
    exact (List.length_modify ..).ge
  cases hColumn : g.propertyColumns[j]? with
  | none =>
    have hNew : (g.propertyColumns.map fun (column : PropertyColumn V) =>
        (⟨modifyValues (fun values =>
          Function.update values o (promoteLast txnId ts (values o))) column.blocks b⟩ :
          PropertyColumn V))[j]? = none := by
      rw [List.getElem?_map, hColumn]
      rfl
    rw [versions_of_no_column hNew, versions_of_no_column hColumn, versions_of_no_column hColumn]
    split <;> rfl
  | some column =>
    have hNew : (g.propertyColumns.map fun (column : PropertyColumn V) =>
        (⟨modifyValues (fun values =>
          Function.update values o (promoteLast txnId ts (values o))) column.blocks b⟩ :
          PropertyColumn V))[j]? = some ⟨modifyValues (fun values =>
          Function.update values o (promoteLast txnId ts (values o))) column.blocks b⟩ := by
      rw [List.getElem?_map, hColumn]
      rfl
    have hEmpty : (fun values : Nat → List (PropertyVersion V) =>
        Function.update values o (promoteLast txnId ts (values o))) (fun _ => []) = fun _ => [] := by
      funext i
      by_cases hi : i = o
      · subst hi
        simp [promoteLast]
      · simp [hi]
    rw [versions_of_column hNew, versionsAt_modifyValues (.inr hEmpty), versions_of_column hColumn,
      versions_of_column hColumn]
    by_cases hPlace : b' = b
    · subst hPlace
      rw [if_pos rfl]
      by_cases ho : o' = o
      · subst ho
        simp
      · simp [ho]
    · simp [hPlace]

end OlapStorage

end Olap

end MiniGU
