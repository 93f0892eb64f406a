import MiniGU.Invariant.Keys
import MiniGU.Invariant.Readers
import MiniGU.Results.Visibility

/-!
# Scans against point reads

`VertexIterator` and `EdgeIterator` lay the staged writes of an optimistic transaction over
the keys of the map: a key of the map is shown as staged, and after them the staged inserts
that the map lacks. A point read looks at the staged write first, whatever it is.
-/

namespace MiniGU

variable {V : Type}

/-- A listing that files every item under its own key holds at most one for each key. -/
theorem filter_filterMap_key {α β : Type} {key : β → Nat} {file : α → Nat} {f : α → Option β}
    {l : List α} (hNodup : (l.map file).Nodup)
    (hKey : ∀ a ∈ l, ∀ b, f a = some b → key b = file a) {id : Nat} {o : Option β}
    (ho : ∀ b, o = some b ↔ ∃ a ∈ l, file a = id ∧ f a = some b) :
    (l.filterMap f).filter (fun b => key b == id) = o.toList := by
  induction l generalizing o with
  | nil =>
    cases o with
    | none => rfl
    | some b => simpa using (ho b).mp rfl
  | cons a l ih =>
    rw [List.map_cons, List.nodup_cons] at hNodup
    have hKeyTail := fun a' (ha' : a' ∈ l) => hKey a' (List.mem_cons_of_mem _ ha')
    rw [List.filterMap_cons]
    by_cases ha : file a = id
    · -- the item of this key is `a`'s: the rest of the list has none
      have hRest : (l.filterMap f).filter (fun b => key b == id) = [] := by
        refine ih (o := none) hNodup.2 hKeyTail fun b => ⟨fun h => (nomatch h), ?_⟩
        rintro ⟨a', ha', hFile, -⟩
        exact absurd (List.mem_map.mpr ⟨a', ha', hFile.trans ha.symm⟩) hNodup.1
      have hOnly : o = f a := by
        refine Option.ext fun b => (ho b).trans ⟨?_, fun hf => ⟨a, List.mem_cons_self .., ha, hf⟩⟩
        rintro ⟨a', ha', hFile, hf⟩
        rcases List.mem_cons.mp ha' with rfl | ha'
        · exact hf
        · exact absurd (List.mem_map.mpr ⟨a', ha', hFile.trans ha.symm⟩) hNodup.1
      rw [hOnly]
      cases hf : f a with
      | none => exact hRest
      | some b =>
        have hb : key b = id := (hKey a (List.mem_cons_self ..) b hf).trans ha
        simp [hb, hRest]
    · have ho' : ∀ b, o = some b ↔ ∃ a ∈ l, file a = id ∧ f a = some b := by
        intro b
        rw [ho b]
        constructor
        · rintro ⟨a', ha', hFile, hf⟩
          rcases List.mem_cons.mp ha' with rfl | ha'
          · exact absurd hFile ha
          · exact ⟨a', ha', hFile, hf⟩
        · rintro ⟨a', ha', hFile, hf⟩
          exact ⟨a', List.mem_cons_of_mem _ ha', hFile, hf⟩
      cases hf : f a with
      | none => exact ih hNodup.2 hKeyTail ho'
      | some b =>
        have hb : key b ≠ id := by rwa [hKey a (List.mem_cons_self ..) b hf]
        simpa [List.filter_cons, hb] using ih hNodup.2 hKeyTail ho'

namespace MemoryGraph

variable {g : MemoryGraph V} {t : MemTransaction} {k : Kind} {id : Nat}

/-- The scan of `t` without a filter, the map's keys being listed as `keys`. -/
def scan (g : MemoryGraph V) (t : MemTransaction) (k : Kind) (keys : List Nat) : List (Data V k) :=
  g.iterItems t k keys fun _ => true

/-- For each id the scan yields what the point read gives: the entity, once, or nothing. -/
def ScanAgrees (g : MemoryGraph V) (t : MemTransaction) (k : Kind) (keys : List Nat) : Prop :=
  ∀ id, (g.scan t k keys).filter (fun d => d.id == id) = (g.readEntity t k id).toOption.toList

/-- A staged write that a scan shows and a point read gives, or neither, although the map
lacks the entity: an insert that is not of a tombstone, an update that is, or a delete. -/
def ShownBeside {k : Kind} : WriteKind (Data V k) → Prop
  | .insert d => d.isTombstone = false
  | .update _ after => after.isTombstone = true
  | .delete _ => True

/-- What `t` has staged beside the map is so. -/
def StagesBeside (g : MemoryGraph V) (t : MemTransaction) (k : Kind) : Prop :=
  ∀ id intent, g.pendingWrite t k id = some intent → g.chain k id = none → ShownBeside intent.kind

/-! ## One id -/

/-- What a scan shows for a key of the map is what a point read gives. -/
theorem iterItem_of_chain {c : VersionChain (Data V k) (DeltaOp V)} (hc : g.chain k id = some c) :
    g.iterItem t k (fun _ => true) id = (g.readEntity t k id).toOption := by
  unfold iterItem
  simp only [hc]
  cases hp : g.pendingWrite t k id with
  | none =>
    rw [readEntity_of_chain hc hp, getVisible_toOption]
    cases Data.alive (g.visibleData t c) <;> rfl
  | some intent =>
    rw [readEntity_of_staged hp]
    simp only [Bool.and_true]
    cases intent.kind.image with
    | none => rfl
    | some d =>
      rw [Option.bind_some]
      unfold Data.alive
      cases hTomb : d.isTombstone <;> simp [Option.filter, hTomb]

theorem iterItem_of_none (hc : g.chain k id = none) {filter : Data V k → Bool} :
    g.iterItem t k filter id = none := by
  unfold iterItem
  rw [hc]

/-- The staged insert that a scan adds for an id. -/
def addedInsert (g : MemoryGraph V) (t : MemTransaction) (k : Kind) (id : Nat) : Option (Data V k) :=
  match g.pendingWrite t k id, g.chain k id with
  | some ⟨_, .insert d⟩, none => some d
  | _, _ => none

/-- Beside the map, scan and point read agree on what `ShownBeside` allows, and nothing else. -/
theorem addedInsert_iff (hc : g.chain k id = none) :
    g.addedInsert t k id = (g.readEntity t k id).toOption ↔
      ∀ intent, g.pendingWrite t k id = some intent → ShownBeside intent.kind := by
  unfold addedInsert
  rw [hc]
  cases hp : g.pendingWrite t k id with
  | none =>
    have hNone : g.readEntity t k id = .error (.notFound k id) := by
      unfold readEntity
      rw [hp, hc]
    rw [hNone]
    simp [Except.toOption]
  | some intent =>
    rw [readEntity_of_staged hp]
    obtain ⟨guardTs, kind⟩ := intent
    have hForall : (∀ intent : WriteIntent (Data V k), some (WriteIntent.mk guardTs kind) =
        some intent → ShownBeside intent.kind) ↔ ShownBeside kind := by
      constructor
      · exact fun h => h _ rfl
      · rintro h _ ⟨⟩
        exact h
    rw [hForall]
    cases kind with
    | insert d =>
      simp only [WriteKind.image, Option.bind_some, ShownBeside, Data.alive]
      cases d.isTombstone <;> simp
    | update before after =>
      simp only [WriteKind.image, Option.bind_some, ShownBeside, Data.alive]
      cases after.isTombstone <;> simp
    | delete before => simp [WriteKind.image, ShownBeside]

/-! ## All ids -/

/-- The version that the records of a chain lead to has the chain's id. -/
theorem Keyed.id_visibleData (h : Keyed g) {c : VersionChain (Data V k) (DeltaOp V)}
    (hc : g.chain k id = some c) : (g.visibleData t c).id = id := by
  obtain ⟨hId, hPtr⟩ := h.stamped.key hc
  rw [visibleData_eq_undone]
  have hTrail : ∀ l : UndoPtr (DeltaOp V), (∀ r ∈ l, r.delta.target = some (k, id)) →
      ∀ d : Data V k, d.id = id → Data.id (k := k) (undone l d) = id := by
    intro l
    induction l with
    | nil => exact fun _ d hd => hd
    | cons r l ih =>
      intro hTarget d hd
      exact ih (fun r' hr' => hTarget r' (List.mem_cons_of_mem _ hr')) _
        (DeltaOp.id_undo (hTarget r (List.mem_cons_self ..)) hd)
  refine hTrail _ (fun r hr => hPtr r ?_) _ hId
  unfold trailOf at hr
  split at hr
  · exact mem_of_mem_trail hr
  · cases hr

theorem Keyed.id_staged (h : Keyed g) {intent : WriteIntent (Data V k)}
    (hp : g.pendingWrite t k id = some intent) : IntentKey id intent := by
  unfold pendingWrite at hp
  split at hp
  · exact (h.stamped.intent t.txnId k _ ((lookup_eq_some_iff (h.writes _ _)).mp hp)).1
  · cases hp

/-- A point read gives an entity with the id it was asked for. -/
theorem Keyed.id_readEntity (h : Keyed g) {d : Data V k}
    (hd : (g.readEntity t k id).toOption = some d) : d.id = id := by
  cases hp : g.pendingWrite t k id with
  | some intent =>
    have hKey := h.id_staged hp
    rw [readEntity_of_staged hp] at hd
    obtain ⟨d', hImage, hAlive⟩ := Option.bind_eq_some_iff.mp hd
    obtain ⟨-, rfl⟩ := Data.alive_eq_some.mp hAlive
    unfold IntentKey at hKey
    cases hKind : intent.kind with
    | insert d =>
      simp only [hKind, WriteKind.image, Option.some.injEq] at hKey hImage
      rw [← hImage, hKey]
    | update before after =>
      simp only [hKind, WriteKind.image, Option.some.injEq] at hKey hImage
      rw [← hImage, hKey.2]
    | delete before =>
      rw [hKind] at hImage
      cases hImage
  | none =>
    cases hc : g.chain k id with
    | none =>
      unfold readEntity at hd
      rw [hp, hc] at hd
      cases hd
    | some c =>
      rw [readEntity_of_chain hc hp] at hd
      obtain ⟨-, rfl⟩ := Data.alive_eq_some.mp hd
      exact h.id_visibleData hc

/-- The items that a scan yields for one id: that of the map, then the staged insert. -/
theorem Keyed.filter_scan (h : Keyed g) {keys : List Nat} (hKeys : g.ListsKeys k keys) :
    (g.scan t k keys).filter (fun d => d.id == id) =
      (g.iterItem t k (fun _ => true) id).toList ++ (g.addedInsert t k id).toList := by
  have hItem : ∀ id d, g.iterItem t k (fun _ => true) id = some d → d.id = id := by
    intro id d hd
    cases hc : g.chain k id with
    | none =>
      rw [iterItem_of_none hc] at hd
      cases hd
    | some c =>
      rw [iterItem_of_chain hc] at hd
      exact h.id_readEntity hd
  unfold scan iterItems
  rw [List.filter_append, List.filter_true]
  congr 1
  · have hNodup : (keys.map fun id => id).Nodup := by
      rw [List.map_id']
      exact hKeys.nodup
    refine filter_filterMap_key hNodup (fun id _ => hItem id) fun d => ?_
    constructor
    · exact fun hd => ⟨id, (hKeys.mem_iff id).mpr (isSome_of_iterItem (by rw [hd]; rfl)), rfl, hd⟩
    · rintro ⟨_, -, rfl, hd⟩
      exact hd
  · unfold pendingInserts addedInsert pendingWrite
    split
    · refine filter_filterMap_key (h.writes t.txnId k) (fun w hw d hd => ?_) fun d => ?_
      · have hKey := (h.stamped.intent t.txnId k w hw).1
        obtain ⟨id', guardTs, kind⟩ := w
        split at hd
        · rename_i d' hKind hNone
          cases hd
          cases hKind
          exact hKey
        · cases hd
      · constructor
        · intro hd
          split at hd
          · rename_i guardTs d' hLook hNone
            cases hd
            refine ⟨_, (lookup_eq_some_iff (h.writes _ _)).mp hLook, rfl, ?_⟩
            simp only [hNone]
          · cases hd
        · rintro ⟨⟨id', guardTs, kind⟩, hw, rfl, hd⟩
          split at hd
          · rename_i d' hKind hNone
            cases hd
            cases hKind
            have hLook : (g.txns t.txnId).lookupWrite k id' = some ⟨guardTs, .insert d⟩ :=
              (lookup_eq_some_iff (h.writes _ _)).mpr hw
            dsimp only at hNone
            rw [hLook, hNone]
          · cases hd
    · rfl

/-- **When scans and point reads agree**: in every graph that is reached, exactly when what
the transaction has staged beside the map are live inserts and deletes. -/
theorem scan_agrees_iff [DecidableEq V] {gcThreshold : Option Nat} {lock : LockStrategy}
    {iso : IsolationLevel} {trace : List (MemoryGraph V × Action V)}
    (hRun : Run Step (fun _ _ => True) (.new gcThreshold lock iso) trace g) {keys : List Nat}
    (hKeys : g.ListsKeys k keys) : ScanAgrees g t k keys ↔ StagesBeside g t k := by
  have h := keyed_run hRun
  unfold ScanAgrees StagesBeside
  refine forall_congr' fun id => ?_
  rw [h.filter_scan hKeys]
  cases hc : g.chain k id with
  | some c =>
    -- the map has the entity: what is shown is what is read
    have hAdded : g.addedInsert t k id = none := by
      unfold addedInsert
      rw [hc]
      split
      · simp_all
      · rfl
    rw [iterItem_of_chain hc, hAdded]
    simp
  | none =>
    have hIff := addedInsert_iff (t := t) hc
    rw [iterItem_of_none hc]
    constructor
    · intro hEq intent hp _
      refine hIff.mp ?_ intent hp
      have hHead := congrArg List.head? hEq
      simpa [Option.head?_toList] using hHead
    · intro hAll
      rw [hIff.mpr fun intent hp => hAll intent hp rfl]
      rfl

/-! ## An update staged over a vertex that goes -/

section Traces

/-- Edge 1 is deleted (commit 4), transaction 3 stages an update of its endpoint 1, and
transaction 4 deletes that vertex (commit 7). -/
def updateThenDeleteActions : List (Action Nat) :=
  let t₁ := snapshotTxn 1 1 .pessimistic
  let t₂ := snapshotTxn 2 3 .pessimistic
  let t₃ := snapshotTxn 3 5 .optimistic
  let t₄ := snapshotTxn 4 6 .pessimistic
  [.begin none .snapshot .pessimistic, .op t₁ (.createVertex (.new 1 0 [7])),
    .op t₁ (.createVertex (.new 2 0 [])), .op t₁ (.createEdge (.new 1 1 2 0 [])),
    .commit t₁ none, .begin none .snapshot .pessimistic, .op t₂ (.deleteEdge 1), .commit t₂ none,
    .begin none .snapshot .optimistic, .op t₃ (.setVertexProperty 1 [0] [9]),
    .begin none .snapshot .pessimistic, .op t₄ (.deleteVertex 1), .commit t₄ none]

/-- **A scan misses what a point read gives**: the collection for edge 1 takes the vertex
with it, whose update transaction 3 still holds. -/
theorem scan_misses_staged : ∃ trace g,
    Run Step (fun _ _ => True) (.new none .pessimistic .snapshot : MemoryGraph Nat) trace g ∧
    ∃ t ∈ g.txnManager.activeTxns, ∃ keys, g.ListsKeys .vertex keys ∧
      ¬ ScanAgrees g t .vertex keys := by
  let t₃ := snapshotTxn 3 5 .optimistic
  let actions := updateThenDeleteActions ++ [.garbageCollect]
  obtain ⟨trace, g, hList, hFacts⟩ := exists_of_runList
    (show (runList (next fun _ _ => true)
      (.new none .pessimistic .snapshot : MemoryGraph Nat) actions).map (fun r =>
      (r.2.txnManager.activeTxns, (r.2.chain .vertex 1).isSome,
      (r.2.addedInsert t₃ .vertex 1).isSome, (r.2.readEntity t₃ .vertex 1).toOption.isSome)) =
      some ([t₃], false, false, true) by decide +kernel)
  simp only [Prod.mk.injEq] at hFacts
  obtain ⟨hActive, hChain, hAdded, hRead⟩ := hFacts
  have hRun : Run Step (fun _ _ => True) (.new none .pessimistic .snapshot : MemoryGraph Nat) trace
      g := Run.of_runList (fun s a s' hNext => ⟨trivial, (step_of_next hNext).2⟩) hList
  have hKeyed := keyed_run hRun
  obtain ⟨keys, hKeys⟩ := hKeyed.keys .vertex
  refine ⟨trace, g, hRun, t₃, by rw [hActive]; exact List.mem_singleton.mpr rfl, keys, hKeys,
    fun hAgrees => ?_⟩
  have hOne := hAgrees 1
  have hGone : g.chain .vertex 1 = none := by simpa using hChain
  have hNone : g.addedInsert t₃ .vertex 1 = none := by simpa using hAdded
  rw [hKeyed.filter_scan hKeys, iterItem_of_none hGone, hNone] at hOne
  obtain ⟨d, hd⟩ := Option.isSome_iff_exists.mp hRead
  rw [hd] at hOne
  cases hOne

/-- Before the collection they agree. -/
theorem scan_agrees_before_collection : ∃ trace g,
    Run Step (fun _ _ => True) (.new none .pessimistic .snapshot : MemoryGraph Nat) trace g ∧
    ∃ keys, g.ListsKeys .vertex keys ∧
      ScanAgrees g (snapshotTxn 3 5 .optimistic) .vertex keys := by
  let t₃ := snapshotTxn 3 5 .optimistic
  obtain ⟨trace, g, hList, hFacts⟩ := exists_of_runList
    (show (runList (next fun _ _ => true)
      (.new none .pessimistic .snapshot : MemoryGraph Nat) updateThenDeleteActions).map (fun r =>
      ((r.2.txns t₃.txnId).vertexWrites.map Prod.fst, (r.2.chain .vertex 1).isSome)) =
      some ([1], true) by decide +kernel)
  simp only [Prod.mk.injEq] at hFacts
  obtain ⟨hWrites, hChain⟩ := hFacts
  have hRun : Run Step (fun _ _ => True) (.new none .pessimistic .snapshot : MemoryGraph Nat) trace
      g := Run.of_runList (fun s a s' hNext => ⟨trivial, (step_of_next hNext).2⟩) hList
  obtain ⟨keys, hKeys⟩ := (keyed_run hRun).keys .vertex
  refine ⟨trace, g, hRun, keys, hKeys, (scan_agrees_iff hRun hKeys).mpr fun id intent hp hNone => ?_⟩
  -- the one staged write is of a vertex in the map
  have hLook : (g.txns t₃.txnId).lookupWrite .vertex id = some intent := hp
  have hMem := (lookup_eq_some_iff ((keyed_run hRun).writes t₃.txnId .vertex)).mp hLook
  have hId : id ∈ (g.txns t₃.txnId).vertexWrites.map Prod.fst := List.mem_map.mpr ⟨_, hMem, rfl⟩
  rw [hWrites, List.mem_singleton] at hId
  rw [hId] at hNone
  rw [hNone] at hChain
  cases hChain

end Traces

end MemoryGraph

end MiniGU
