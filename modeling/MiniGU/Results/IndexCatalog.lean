import MiniGU.Lib.Run
import MiniGU.Model.IndexCatalog

/-!
# The catalog of vector indexes agrees with the storage

* `catalog_agrees`: after every sequence of calls, with any of the builds and deletes failing, the
  two maps of the catalog are inverse to each other and have the keys of the storage, and a call
  that fails leaves everything as it was, when a drop that may fail is given the catalog's entry to
  put back. Without that entry the two maps are still inverse to each other.
-/

namespace MiniGU

namespace IndexCatalog

variable {E F32 : Type}

-- ----
-- The two maps of the catalog
-- ----

namespace IndexCatalogState

variable {c : IndexCatalogState}

/-- Each name leads to the entry of that name, and each entry is reached by its name. -/
structure Inverse (c : IndexCatalogState) : Prop where
  named : ∀ name key, c.nameToIndex name = some key →
    ∃ entry, c.entries key = some entry ∧ entry.name = name
  keyed : ∀ key entry, c.entries key = some entry → entry.key = key
  reached : ∀ key entry, c.entries key = some entry → c.nameToIndex entry.name = some key

theorem Inverse.new : Inverse IndexCatalogState.new where
  named := fun _ _ h => (nomatch h)
  keyed := fun _ _ h => (nomatch h)
  reached := fun _ _ h => (nomatch h)

theorem insertVectorIndex_of_none {entry : VectorIndexCatalogEntry}
    (h : c.entries entry.key = none) :
    c.insertVectorIndex entry =
      ({ entries := Function.update c.entries entry.key (some entry)
         nameToIndex := Function.update c.nameToIndex entry.name (some entry.key) }, true) := by
  unfold insertVectorIndex
  rw [h]

theorem removeVectorIndex_of_some {key : VectorIndexKey} {entry : VectorIndexCatalogEntry}
    (h : c.entries key = some entry) :
    c.removeVectorIndex key =
      ({ entries := Function.update c.entries key none
         nameToIndex := Function.update c.nameToIndex entry.name none }, true) := by
  unfold removeVectorIndex
  rw [h]

theorem removeVectorIndex_of_none {key : VectorIndexKey} (h : c.entries key = none) :
    c.removeVectorIndex key = (c, false) := by
  unfold removeVectorIndex
  rw [h]

theorem Inverse.nameToIndex_eq_none (h : c.Inverse) {name : String}
    (hName : c.getVectorIndexByName name = none) : c.nameToIndex name = none := by
  cases hKey : c.nameToIndex name with
  | none => rfl
  | some key =>
    obtain ⟨entry, hEntry, _⟩ := h.named name key hKey
    unfold getVectorIndexByName at hName
    rw [hKey, Option.bind_some, hEntry] at hName
    cases hName

/-- A new entry under a free key and a free name keeps the two maps inverse. -/
theorem Inverse.insert (h : c.Inverse) {entry : VectorIndexCatalogEntry}
    (hKey : c.entries entry.key = none) (hName : c.nameToIndex entry.name = none) :
    (c.insertVectorIndex entry).1.Inverse := by
  rw [insertVectorIndex_of_none hKey]
  -- the entries under the other keys have other names
  have hOther : ∀ key old, c.entries key = some old → old.name ≠ entry.name := by
    intro key old hOld hSame
    have hReached := h.reached key old hOld
    rw [hSame, hName] at hReached
    cases hReached
  refine ⟨?_, ?_, ?_⟩
  · intro name key hLeads
    dsimp only at hLeads ⊢
    by_cases hNew : name = entry.name
    · subst hNew
      rw [Function.update_self] at hLeads
      cases hLeads
      exact ⟨entry, Function.update_self .., rfl⟩
    · rw [Function.update_of_ne hNew] at hLeads
      obtain ⟨old, hOld, hOldName⟩ := h.named name key hLeads
      have hNe : key ≠ entry.key := by
        intro hSame
        rw [hSame, hKey] at hOld
        cases hOld
      exact ⟨old, by rw [Function.update_of_ne hNe]; exact hOld, hOldName⟩
  · intro key old hOld
    dsimp only at hOld
    by_cases hNew : key = entry.key
    · subst hNew
      rw [Function.update_self] at hOld
      cases hOld
      rfl
    · rw [Function.update_of_ne hNew] at hOld
      exact h.keyed key old hOld
  · intro key old hOld
    dsimp only at hOld ⊢
    by_cases hNew : key = entry.key
    · subst hNew
      rw [Function.update_self] at hOld
      cases hOld
      exact Function.update_self ..
    · rw [Function.update_of_ne hNew] at hOld
      rw [Function.update_of_ne (hOther key old hOld)]
      exact h.reached key old hOld

/-- Removing an entry takes its name out of the other map. -/
theorem Inverse.remove (h : c.Inverse) {key : VectorIndexKey} {entry : VectorIndexCatalogEntry}
    (hEntry : c.entries key = some entry) : (c.removeVectorIndex key).1.Inverse := by
  rw [removeVectorIndex_of_some hEntry]
  have hReached := h.reached key entry hEntry
  refine ⟨?_, ?_, ?_⟩
  · intro name other hLeads
    dsimp only at hLeads ⊢
    by_cases hSame : name = entry.name
    · subst hSame
      rw [Function.update_self] at hLeads
      cases hLeads
    · rw [Function.update_of_ne hSame] at hLeads
      obtain ⟨old, hOld, hOldName⟩ := h.named name other hLeads
      have hNe : other ≠ key := by
        intro hKey
        rw [hKey, hEntry] at hOld
        cases hOld
        exact hSame hOldName.symm
      exact ⟨old, by rw [Function.update_of_ne hNe]; exact hOld, hOldName⟩
  · intro other old hOld
    dsimp only at hOld
    by_cases hKey : other = key
    · subst hKey
      rw [Function.update_self] at hOld
      cases hOld
    · rw [Function.update_of_ne hKey] at hOld
      exact h.keyed other old hOld
  · intro other old hOld
    dsimp only at hOld ⊢
    by_cases hKey : other = key
    · subst hKey
      rw [Function.update_self] at hOld
      cases hOld
    · rw [Function.update_of_ne hKey] at hOld
      have hLeads := h.reached other old hOld
      have hName : old.name ≠ entry.name := by
        intro hSame
        rw [hSame, hReached] at hLeads
        exact hKey (Option.some.inj hLeads).symm
      rw [Function.update_of_ne hName]
      exact hLeads

theorem remove_insert {entry : VectorIndexCatalogEntry} (hKey : c.entries entry.key = none)
    (hName : c.nameToIndex entry.name = none) :
    ((c.insertVectorIndex entry).1.removeVectorIndex entry.key).1 = c := by
  have hHeld : Function.update c.entries entry.key (some entry) entry.key = some entry :=
    Function.update_self ..
  rw [insertVectorIndex_of_none hKey, removeVectorIndex_of_some hHeld]
  dsimp only
  rw [Function.update_idem, Function.update_idem, ← hKey, ← hName, Function.update_eq_self,
    Function.update_eq_self]

theorem Inverse.insert_remove (h : c.Inverse) {key : VectorIndexKey}
    {entry : VectorIndexCatalogEntry} (hEntry : c.entries key = some entry) :
    ((c.removeVectorIndex key).1.insertVectorIndex entry).1 = c := by
  have hKey : entry.key = key := h.keyed key entry hEntry
  subst hKey
  have hReached := h.reached entry.key entry hEntry
  rw [removeVectorIndex_of_some hEntry, insertVectorIndex_of_none (Function.update_self ..)]
  dsimp only
  rw [Function.update_idem, Function.update_idem, ← hReached, ← hEntry, Function.update_eq_self,
    Function.update_eq_self]

end IndexCatalogState

-- ----
-- What a call does
-- ----

theorem buildVectorIndex_ok {indices built : VectorIndices} {data : Dataset E F32}
    {key : VectorIndexKey} (h : buildVectorIndex indices data key = .ok built) :
    ∃ adapter, built = Function.update indices key (some adapter) := by
  unfold buildVectorIndex at h
  split at h
  · cases h
  · cases h
  · dsimp only at h
    split at h
    · cases h
    · split at h
      · split at h
        · split at h
          · cases h
          · cases h
            exact ⟨_, rfl⟩
        · cases h
      · cases h

namespace GraphContainer

variable {g : GraphContainer}

/-- Either nothing changes, or the index is new and is entered in catalog and storage. -/
theorem createVectorIndex_cases (h : g.indexCatalog.Inverse) (entry : VectorIndexCatalogEntry)
    (data : Dataset E F32) :
    (g.createVectorIndex entry data).1 = g ∨
      (∃ adapter, g.indexCatalog.entries entry.key = none ∧
        g.indexCatalog.nameToIndex entry.name = none ∧
        g.createVectorIndex entry data =
          (⟨(g.indexCatalog.insertVectorIndex entry).1,
            Function.update g.vectorIndices entry.key (some adapter)⟩, .ok true)) := by
  unfold createVectorIndex
  cases hKey : g.indexCatalog.getVectorIndex entry.key with
  | some _ => exact .inl rfl
  | none =>
    have hEntries : g.indexCatalog.entries entry.key = none := hKey
    rw [Option.isSome_none, if_neg Bool.false_ne_true]
    cases hName : g.indexCatalog.getVectorIndexByName entry.name with
    | some existing =>
      dsimp only
      split
      · exact .inl rfl
      · exact .inl rfl
    | none =>
      have hFree := h.nameToIndex_eq_none hName
      have hRestored := IndexCatalogState.remove_insert hEntries hFree
      rw [IndexCatalogState.insertVectorIndex_of_none hEntries] at hRestored ⊢
      dsimp only at hRestored ⊢
      cases hBuild : buildVectorIndex g.vectorIndices data entry.key with
      | error err =>
        left
        dsimp only
        rw [hRestored]
      | ok built =>
        obtain ⟨adapter, rfl⟩ := buildVectorIndex_ok hBuild
        exact .inr ⟨adapter, hEntries, hFree, rfl⟩

theorem dropVectorIndex_of_none {key : VectorIndexKey} (h : g.indexCatalog.entries key = none)
    (rollbackMeta : Option VectorIndexCatalogEntry) (failure : Option E) :
    g.dropVectorIndex key rollbackMeta failure = (g, .ok false) := by
  unfold dropVectorIndex
  rw [IndexCatalogState.removeVectorIndex_of_none h]

theorem dropVectorIndex_of_some {key : VectorIndexKey} {entry : VectorIndexCatalogEntry}
    (h : g.indexCatalog.entries key = some entry)
    (rollbackMeta : Option VectorIndexCatalogEntry) :
    g.dropVectorIndex key rollbackMeta (none : Option E) =
      (⟨(g.indexCatalog.removeVectorIndex key).1, Function.update g.vectorIndices key none⟩,
        .ok true) := by
  unfold dropVectorIndex
  rw [IndexCatalogState.removeVectorIndex_of_some h]
  rfl

/-- A drop that fails with the entry to put back changes nothing. -/
theorem dropVectorIndex_restores (hInverse : g.indexCatalog.Inverse) {key : VectorIndexKey}
    {entry : VectorIndexCatalogEntry} (h : g.indexCatalog.entries key = some entry) (e : E) :
    g.dropVectorIndex key (some entry) (some e) = (g, .error (.storage (.delete e))) := by
  have hRestored := hInverse.insert_remove h
  unfold dropVectorIndex
  rw [IndexCatalogState.removeVectorIndex_of_some h] at hRestored ⊢
  dsimp only [deleteVectorIndex] at hRestored ⊢
  rw [hRestored]

theorem dropVectorIndex_forgets {key : VectorIndexKey} {entry : VectorIndexCatalogEntry}
    (h : g.indexCatalog.entries key = some entry) (e : E) :
    g.dropVectorIndex key none (some e) =
      ({ g with indexCatalog := (g.indexCatalog.removeVectorIndex key).1 },
        .error (.storage (.delete e))) := by
  unfold dropVectorIndex
  rw [IndexCatalogState.removeVectorIndex_of_some h]
  rfl

/-- The catalog has the keys of the storage. -/
structure Agrees (g : GraphContainer) : Prop where
  inverse : g.indexCatalog.Inverse
  sameKeys : ∀ key, (g.indexCatalog.entries key).isSome = (g.vectorIndices key).isSome

end GraphContainer

/-- What a drop that may fail puts back, if anything, is the catalog's entry. -/
def Consistent (g : GraphContainer) : Call E F32 → Prop
  | .create _ _ => True
  | .drop key rollbackMeta failure => failure.isSome → ∀ entry old,
      g.indexCatalog.entries key = some entry → rollbackMeta = some old → old = entry

/-- A drop that may fail has the catalog's entry to put back. -/
def Restores (g : GraphContainer) : Call E F32 → Prop
  | .create _ _ => True
  | .drop key rollbackMeta failure => failure.isSome → ∀ entry,
      g.indexCatalog.entries key = some entry → rollbackMeta = some entry

-- ----
-- One call
-- ----

open GraphContainer

variable {g : GraphContainer}

/-- Each consistent call keeps the two maps inverse. -/
theorem Call.run_inverse (h : g.indexCatalog.Inverse) (call : Call E F32)
    (hConsistent : Consistent g call) : (call.run g).1.indexCatalog.Inverse := by
  cases call with
  | create entry data =>
    show (g.createVectorIndex entry data).1.indexCatalog.Inverse
    rcases createVectorIndex_cases h entry data with hSame | ⟨adapter, hKey, hName, hNew⟩
    · rw [hSame]
      exact h
    · rw [hNew]
      exact h.insert hKey hName
  | drop key rollbackMeta failure =>
    show (g.dropVectorIndex key rollbackMeta failure).1.indexCatalog.Inverse
    cases hEntry : g.indexCatalog.entries key with
    | none =>
      rw [dropVectorIndex_of_none hEntry]
      exact h
    | some entry =>
      cases failure with
      | none =>
        rw [dropVectorIndex_of_some hEntry]
        exact h.remove hEntry
      | some e =>
        cases rollbackMeta with
        | none =>
          rw [dropVectorIndex_forgets hEntry]
          exact h.remove hEntry
        | some old =>
          have hOld : old = entry := hConsistent rfl entry old hEntry rfl
          rw [hOld, dropVectorIndex_restores h hEntry]
          exact h

theorem Restores.consistent {call : Call E F32} (h : Restores g call) : Consistent g call := by
  cases call with
  | create entry data => trivial
  | drop key rollbackMeta failure =>
    intro hFails entry old hEntry hOld
    rw [h hFails entry hEntry] at hOld
    exact (Option.some.inj hOld).symm

/-- One call leaves the catalog and the indexes in agreement, if a failing delete is undone. -/
theorem Call.run_agrees (h : g.Agrees) (call : Call E F32) (hRestores : Restores g call) :
    (call.run g).1.Agrees := by
  refine ⟨call.run_inverse h.inverse hRestores.consistent, fun other => ?_⟩
  have hSameKeys := h.sameKeys other
  cases call with
  | create entry data =>
    show ((g.createVectorIndex entry data).1.indexCatalog.entries other).isSome =
      ((g.createVectorIndex entry data).1.vectorIndices other).isSome
    rcases createVectorIndex_cases h.inverse entry data with hSame | ⟨adapter, hKey, _, hNew⟩
    · rw [hSame]
      exact hSameKeys
    · rw [hNew, IndexCatalogState.insertVectorIndex_of_none hKey]
      dsimp only
      by_cases hOther : other = entry.key
      · rw [hOther, Function.update_self, Function.update_self]
        rfl
      · rw [Function.update_of_ne hOther, Function.update_of_ne hOther]
        exact hSameKeys
  | drop key rollbackMeta failure =>
    show ((g.dropVectorIndex key rollbackMeta failure).1.indexCatalog.entries other).isSome =
      ((g.dropVectorIndex key rollbackMeta failure).1.vectorIndices other).isSome
    cases hEntry : g.indexCatalog.entries key with
    | none =>
      rw [dropVectorIndex_of_none hEntry]
      exact hSameKeys
    | some entry =>
      cases failure with
      | none =>
        rw [dropVectorIndex_of_some hEntry, IndexCatalogState.removeVectorIndex_of_some hEntry]
        dsimp only
        by_cases hOther : other = key
        · rw [hOther, Function.update_self, Function.update_self]
          rfl
        · rw [Function.update_of_ne hOther, Function.update_of_ne hOther]
          exact hSameKeys
      | some e =>
        rw [hRestores rfl entry hEntry, dropVectorIndex_restores h.inverse hEntry]
        exact hSameKeys

/-- A call that fails leaves catalog and storage as they were. -/
theorem Call.run_error (h : g.indexCatalog.Inverse) (call : Call E F32)
    (hRestores : Restores g call) {err : IndexCatalogError E}
    (hError : (call.run g).2 = .error err) : (call.run g).1 = g := by
  cases call with
  | create entry data =>
    rcases createVectorIndex_cases h entry data with hSame | ⟨adapter, _, _, hNew⟩
    · exact hSame
    · have hOk : (g.createVectorIndex entry data).2 = .error err := hError
      rw [hNew] at hOk
      cases hOk
  | drop key rollbackMeta failure =>
    show (g.dropVectorIndex key rollbackMeta failure).1 = g
    have hFails : (g.dropVectorIndex key rollbackMeta failure).2 = .error err := hError
    cases hEntry : g.indexCatalog.entries key with
    | none => rw [dropVectorIndex_of_none hEntry]
    | some entry =>
      cases failure with
      | none =>
        rw [dropVectorIndex_of_some hEntry] at hFails
        cases hFails
      | some e => rw [hRestores rfl entry hEntry, dropVectorIndex_restores h hEntry]

-- ----
-- Every sequence of calls
-- ----

/-- **The catalog agrees with the indexes** along every sequence of calls. -/
theorem catalog_agrees (calls : List (Call E F32)) :
    (Along Call.run Consistent GraphContainer.new calls →
      (runCalls Call.run GraphContainer.new calls).1.indexCatalog.Inverse) ∧
    (Along Call.run Restores GraphContainer.new calls →
      (runCalls Call.run GraphContainer.new calls).1.Agrees ∧
      ∀ call : Call E F32, Restores (runCalls Call.run GraphContainer.new calls).1 call →
        ∀ err, (call.run (runCalls Call.run GraphContainer.new calls).1).2 = .error err →
          (call.run (runCalls Call.run GraphContainer.new calls).1).1 =
            (runCalls Call.run GraphContainer.new calls).1) := by
  refine ⟨fun hAlong => ?_, fun hAlong => ?_⟩
  · exact invariant_of_along (I := fun g => g.indexCatalog.Inverse)
      (fun g call h hCall => call.run_inverse h hCall) .new hAlong
  · have hAgrees : (runCalls Call.run GraphContainer.new calls).1.Agrees :=
      invariant_of_along (fun g call h hCall => call.run_agrees h hCall)
        ⟨.new, fun _ => rfl⟩ hAlong
    exact ⟨hAgrees, fun call hRestores err hError =>
      call.run_error hAgrees.inverse hRestores hError⟩

-- A name for two keys, a build that finds no vectors, and a drop that fails with its entry.

def firstEntry : VectorIndexCatalogEntry := ⟨"first", (1, 1), .l2, 104⟩

def secondEntry : VectorIndexCatalogEntry := ⟨"second", (2, 1), .l2, 104⟩

def spreadVectors : Dataset String Nat where
  vectors := .ok [(7, List.replicate 104 0), (8, List.replicate 104 1), (9, List.replicate 104 2),
    (10, List.replicate 104 3)]
  created := true
  accepts := true

def noVectors : Dataset String Nat := ⟨.ok [], true, true⟩

def clashingCalls : List (Call String Nat) :=
  [.create firstEntry spreadVectors, .create { firstEntry with key := (2, 1) } spreadVectors,
    .create secondEntry noVectors, .drop (1, 1) (some firstEntry) (some "busy")]

theorem restores_clashingCalls : Along Call.run Restores GraphContainer.new clashingCalls := by
  refine ⟨trivial, trivial, trivial, ?_, trivial⟩
  intro _ entry hEntry
  have hFirst : (runCalls Call.run GraphContainer.new (clashingCalls.take 3)).1.indexCatalog.entries
      (1, 1) = some firstEntry := by rfl
  exact hFirst.symm.trans hEntry

/-- An index, a clash of names, a build that fails and a delete that fails. -/
theorem catalog_agrees_clashing :
    (runCalls Call.run GraphContainer.new clashingCalls).1.Agrees ∧
    (runCalls Call.run GraphContainer.new clashingCalls).1.indexCatalog.Inverse ∧
    (runCalls Call.run GraphContainer.new clashingCalls).2 =
      [.ok true, .error (.vectorIndexNameAlreadyExists "first"),
        .error (.storage (.vectorIndex .emptyDataset)), .error (.storage (.delete "busy"))] :=
  ⟨((catalog_agrees clashingCalls).2 restores_clashingCalls).1,
    (catalog_agrees clashingCalls).1 (restores_clashingCalls.mono fun _ _ h => h.consistent),
    by rfl⟩

/-- The first index is built and then dropped with nothing to put back; in the second run the drop
has the entry of the other index. -/
theorem drop_forgets_entry :
    ((runCalls Call.run GraphContainer.new
        [.create firstEntry spreadVectors, .drop (1, 1) none (some "busy")]).2 =
          [.ok true, .error (.storage (.delete "busy"))] ∧
      ¬ (runCalls Call.run GraphContainer.new
        [.create firstEntry spreadVectors, .drop (1, 1) none (some "busy")]).1.Agrees) ∧
    ¬ (runCalls Call.run GraphContainer.new
        [.create firstEntry spreadVectors, .create secondEntry spreadVectors,
          .drop (1, 1) (some { secondEntry with key := (1, 1) })
            (some "busy")]).1.indexCatalog.Inverse := by
  refine ⟨⟨by rfl, ?_⟩, ?_⟩
  · intro hAgrees
    have hKeys := hAgrees.sameKeys (1, 1)
    revert hKeys
    decide +kernel
  · intro hInverse
    have hReached := hInverse.reached (2, 1) secondEntry (by rfl)
    revert hReached
    decide +kernel

end IndexCatalog

end MiniGU
