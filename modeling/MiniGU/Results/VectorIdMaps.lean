import MiniGU.Invariant.VectorShards
import MiniGU.Lib.Run
import Mathlib.Data.Finmap

/-!
# The two maps of the vector index

* `id_maps_inverse`: in every run the two maps are inverse to each other and a refused insert
  leaves them as they were, as long as no accepted batch names a vertex twice.
* `repeated_batch_breaks`: an accepted batch that names a vertex twice ends this.

## The sharded vector map is one map

* `sharded_map_refines`: for every number of shards and every sequence of calls the sharded map
  returns what one finite map returns, holds as many vertices, and keeps each vector in a place
  of its own.
* `places_of_bits`: the shard and the place are the low and the high bits of the vector id.
-/

namespace MiniGU

namespace InMemANN

-- ----
-- The invariant
-- ----

namespace InMemANNAdapter

variable {F32 : Type} {a a₀ a' : InMemANNAdapter}

/-- The maps are inverse to each other. -/
def Inverse (a : InMemANNAdapter) : Prop :=
  ∀ n v, a.nodeToVector.lookup n = some v ↔ a.vectorToNode.get v = some n

/-- No vector id from `next` on is in use. -/
def BelowId (a : InMemANNAdapter) (next : Nat) : Prop :=
  ∀ v n, a.vectorToNode.get v = some n → v < next

structure Paired (a : InMemANNAdapter) : Prop where
  inverse : a.Inverse
  below : a.BelowId a.nextVectorId
  next_lt : a.nextVectorId < 2 ^ 32

structure SameMaps (a a' : InMemANNAdapter) : Prop where
  nodes : ∀ n, a'.nodeToVector.lookup n = a.nodeToVector.lookup n
  vectors : ∀ v, a'.vectorToNode.get v = a.vectorToNode.get v

theorem Paired.unused (h : a.Paired) {v : Nat} (hv : a.nextVectorId ≤ v) :
    a.vectorToNode.get v = none := by
  cases hGet : a.vectorToNode.get v with
  | none => rfl
  | some n => exact absurd (h.below v n hGet) (Nat.not_lt.mpr hv)

theorem Paired.sameMaps (h : a.Paired) (hSame : SameMaps a a')
    (hNext : a'.nextVectorId = a.nextVectorId) : a'.Paired := by
  refine ⟨fun n v => ?_, fun v n hGet => ?_, by rw [hNext]; exact h.next_lt⟩
  · rw [hSame.nodes, hSame.vectors]
    exact h.inverse n v
  · rw [hSame.vectors] at hGet
    rw [hNext]
    exact h.below v n hGet

theorem paired_clearMappings (a : InMemANNAdapter) : a.clearMappings.Paired := by
  have hNone : ∀ v, a.clearMappings.vectorToNode.get v = none := a.vectorToNode.get_clear
  refine ⟨fun n v => ?_, fun v n hGet => ?_, by show 0 < 2 ^ 32; decide⟩
  · rw [hNone]
    exact ⟨fun h => (nomatch h), fun h => (nomatch h)⟩
  · rw [hNone] at hGet
    cases hGet

theorem paired_new (dimension : Nat) : (new dimension).Paired := by
  have hNone : ∀ v, (new dimension).vectorToNode.get v = none := ShardedVectorMap.get_new 4
  refine ⟨fun n v => ?_, fun v n hGet => ?_, by show 0 < 2 ^ 32; decide⟩
  · rw [hNone]
    exact ⟨fun h => (nomatch h), fun h => (nomatch h)⟩
  · rw [hNone] at hGet
    cases hGet

theorem Inverse.add (h : a.Inverse) {n v : Nat} (hNode : a.nodeToVector.lookup n = none)
    (hVector : a.vectorToNode.get v = none) {m : ShardedVectorMap}
    (hGet : ∀ v', m.get v' = if v' = v then some n else a.vectorToNode.get v') :
    Inverse { a with nodeToVector := assocInsert n v a.nodeToVector, vectorToNode := m } := by
  intro n' v'
  show (assocInsert n v a.nodeToVector).lookup n' = some v' ↔ m.get v' = some n'
  rw [lookup_assocInsert, hGet]
  by_cases hn : n' = n
  · by_cases hv : v' = v
    · rw [if_pos hn, if_pos hv, hn, hv]
      exact ⟨fun _ => rfl, fun _ => rfl⟩
    · rw [if_pos hn, if_neg hv]
      have hFree := (h n v').not.mp (by rw [hNode]; exact Option.some_ne_none v' |>.symm)
      rw [hn]
      exact ⟨fun hSame => absurd (Option.some.inj hSame).symm hv, fun hUsed => absurd hUsed hFree⟩
  · by_cases hv : v' = v
    · rw [if_neg hn, if_pos hv]
      have hFree := (h n' v).not.mpr (by rw [hVector]; exact Option.some_ne_none n' |>.symm)
      rw [hv]
      exact ⟨fun hUsed => absurd hUsed hFree, fun hSame => absurd (Option.some.inj hSame).symm hn⟩
    · rw [if_neg hn, if_neg hv]
      exact h n' v'

-- ----
-- `build`
-- ----

/-- The loop pairs the vertices with the ids from `k` on, or clears the maps. -/
theorem buildLoop_paired (ids : List Nat) (k : Nat) (seen : List Nat) (a : InMemANNAdapter)
    (h : a.Inverse) (hBelow : a.BelowId k)
    (hSeen : ∀ n v, a.nodeToVector.lookup n = some v → n ∈ seen) :
    match buildLoop (ids.zipIdx k) seen a with
    | (a', .ok ()) => a'.Inverse ∧ a'.BelowId (k + ids.length)
    | (a', .error _) => a'.Paired := by
  induction ids generalizing k seen a with
  | nil => exact ⟨h, hBelow⟩
  | cons n ids ih =>
    rw [List.zipIdx_cons]
    unfold buildLoop
    by_cases hMem : n ∈ seen
    · rw [if_pos hMem]
      exact paired_clearMappings a
    · rw [if_neg hMem]
      obtain ⟨m, hSet, hGet⟩ := a.vectorToNode.set_ok k n
      simp only [hSet]
      have hNode : a.nodeToVector.lookup n = none := by
        cases hLookup : a.nodeToVector.lookup n with
        | none => rfl
        | some v => exact absurd (hSeen n v hLookup) hMem
      have hVector : a.vectorToNode.get k = none := by
        cases hUsed : a.vectorToNode.get k with
        | none => rfl
        | some n' => exact absurd (hBelow k n' hUsed) (Nat.lt_irrefl k)
      have hNext := ih (k + 1) (n :: seen) _ (h.add hNode hVector hGet) (fun v n' hUsed => ?_)
        (fun n' v hLookup => ?_)
      · rw [show k + (n :: ids).length = k + 1 + ids.length by rw [List.length_cons]; omega]
        exact hNext
      · have hUsed : m.get v = some n' := hUsed
        rw [hGet] at hUsed
        split at hUsed
        · omega
        · exact Nat.lt_succ_of_lt (hBelow v n' hUsed)
      · have hLookup : (assocInsert n k a.nodeToVector).lookup n' = some v := hLookup
        rw [lookup_assocInsert] at hLookup
        split at hLookup
        · rename_i hSame
          exact hSame ▸ List.mem_cons_self
        · exact List.mem_cons_of_mem _ (hSeen n' v hLookup)

theorem Paired.build (h : a.Paired) (vectors : List (Nat × List F32)) (accepts : Bool) :
    (a.build vectors accepts).1.Paired := by
  have hCleared := paired_clearMappings a
  unfold InMemANNAdapter.build
  split
  · exact h
  · rename_i nodeId firstVector rest
    dsimp only
    split
    · exact hCleared
    · split
      · exact paired_clearMappings _
      · rename_i hDim hCount
        have hLoop := buildLoop_paired ((sortByKey Prod.fst ((nodeId, firstVector) :: rest)).map
          Prod.fst) 0 [] a.clearMappings hCleared.inverse hCleared.below
          (fun n v hLookup => nomatch hLookup)
        split
        · rename_i hEq
          rw [hEq] at hLoop
          exact hLoop
        · rename_i hEq
          rw [hEq] at hLoop
          split
          · refine ⟨hLoop.1, ?_, Nat.not_le.mp hCount⟩
            have hBelow := hLoop.2
            rw [Nat.zero_add, List.length_map] at hBelow
            exact hBelow
          · exact paired_clearMappings _

-- ----
-- `insert`
-- ----

theorem checkInsert_ok {vectors : List (Nat × List F32)} (h : a.checkInsert vectors = .ok ())
    {n : Nat} (hn : n ∈ vectors.map Prod.fst) : a.nodeToVector.lookup n = none := by
  unfold checkInsert at h
  split at h
  · cases h
  · split at h
    · cases h
    · rename_i hDims
      split at h
      · cases h
      · rename_i hFind
        obtain ⟨⟨n, vector⟩, hv, rfl⟩ := List.mem_map.mp hn
        exact Option.not_isSome_iff_eq_none.mp (List.find?_eq_none.mp hFind _ hv)

/-- The mappings made since `a₀`, all of them for vertices and vectors that had none. -/
structure Added (a₀ a : InMemANNAdapter) (inserted : List (Nat × Nat)) : Prop where
  nodes : ∀ n, n ∉ inserted.map Prod.fst → a.nodeToVector.lookup n = a₀.nodeToVector.lookup n
  vectors : ∀ v, v ∉ inserted.map Prod.snd → a.vectorToNode.get v = a₀.vectorToNode.get v
  freshNodes : ∀ n ∈ inserted.map Prod.fst, a₀.nodeToVector.lookup n = none
  freshVectors : ∀ v ∈ inserted.map Prod.snd, a₀.vectorToNode.get v = none
  next : a.nextVectorId = a₀.nextVectorId

theorem Added.refl (a : InMemANNAdapter) : Added a a [] :=
  ⟨fun _ _ => rfl, fun _ _ => rfl, fun _ h => (nomatch h), fun _ h => (nomatch h), rfl⟩

theorem Added.add {inserted : List (Nat × Nat)} (h : Added a₀ a inserted) {n v : Nat}
    (hNode : a₀.nodeToVector.lookup n = none) (hVector : a₀.vectorToNode.get v = none)
    {m : ShardedVectorMap}
    (hGet : ∀ v', m.get v' = if v' = v then some n else a.vectorToNode.get v') :
    Added a₀ { a with nodeToVector := assocInsert n v a.nodeToVector, vectorToNode := m }
      (inserted ++ [(n, v)]) := by
  refine ⟨fun n' hn' => ?_, fun v' hv' => ?_, fun n' hn' => ?_, fun v' hv' => ?_, h.next⟩
  · rw [List.map_append, List.mem_append, not_or] at hn'
    have hNe : n' ≠ n := fun hSame => hn'.2 (List.mem_singleton.mpr hSame)
    show (assocInsert n v a.nodeToVector).lookup n' = _
    rw [lookup_assocInsert, if_neg hNe]
    exact h.nodes n' hn'.1
  · rw [List.map_append, List.mem_append, not_or] at hv'
    have hNe : v' ≠ v := fun hSame => hv'.2 (List.mem_singleton.mpr hSame)
    show m.get v' = _
    rw [hGet, if_neg hNe]
    exact h.vectors v' hv'.1
  · rw [List.map_append, List.mem_append] at hn'
    rcases hn' with hOld | hNew
    · exact h.freshNodes n' hOld
    · rw [List.mem_singleton.mp hNew]
      exact hNode
  · rw [List.map_append, List.mem_append] at hv'
    rcases hv' with hOld | hNew
    · exact h.freshVectors v' hOld
    · rw [List.mem_singleton.mp hNew]
      exact hVector

theorem rollback_spec (inserted : List (Nat × Nat)) (a : InMemANNAdapter) :
    (∀ n, (a.rollback inserted).nodeToVector.lookup n =
      if n ∈ inserted.map Prod.fst then none else a.nodeToVector.lookup n) ∧
    (∀ v, (a.rollback inserted).vectorToNode.get v =
      if v ∈ inserted.map Prod.snd then none else a.vectorToNode.get v) ∧
    (a.rollback inserted).nextVectorId = a.nextVectorId := by
  induction inserted generalizing a with
  | nil => exact ⟨fun n => (if_neg List.not_mem_nil).symm, fun v => (if_neg List.not_mem_nil).symm, rfl⟩
  | cons p inserted ih =>
    obtain ⟨hNodes, hVectors, hNext⟩ := ih { a with
      nodeToVector := assocErase p.1 a.nodeToVector
      vectorToNode := a.vectorToNode.remove p.2 }
    refine ⟨fun n => ?_, fun v => ?_, hNext⟩
    · refine (hNodes n).trans ?_
      rw [lookup_assocErase, List.map_cons]
      by_cases hTail : n ∈ inserted.map Prod.fst
      · rw [if_pos hTail, if_pos (List.mem_cons_of_mem _ hTail)]
      · by_cases hHead : n = p.1
        · rw [if_neg hTail, if_pos hHead, if_pos (hHead ▸ List.mem_cons_self)]
        · rw [if_neg hTail, if_neg hHead, if_neg (by simp [hHead, hTail])]
    · refine (hVectors v).trans ?_
      rw [ShardedVectorMap.get_remove, List.map_cons]
      by_cases hTail : v ∈ inserted.map Prod.snd
      · rw [if_pos hTail, if_pos (List.mem_cons_of_mem _ hTail)]
      · by_cases hHead : v = p.2
        · rw [if_neg hTail, if_pos hHead, if_pos (hHead ▸ List.mem_cons_self)]
        · rw [if_neg hTail, if_neg hHead, if_neg (by simp [hHead, hTail])]

/-- Taking the mappings out again gives the maps as they were. -/
theorem Added.rollback {inserted : List (Nat × Nat)} (h : Added a₀ a inserted) :
    SameMaps a₀ (a.rollback inserted) := by
  obtain ⟨hNodes, hVectors, -⟩ := rollback_spec inserted a
  refine ⟨fun n => ?_, fun v => ?_⟩
  · rw [hNodes]
    split
    · rename_i hIn
      exact (h.freshNodes n hIn).symm
    · rename_i hOut
      exact h.nodes n hOut
  · rw [hVectors]
    split
    · rename_i hIn
      exact (h.freshVectors v hIn).symm
    · rename_i hOut
      exact h.vectors v hOut

/-- **The loop** adds a mapping for each vertex of the batch, under the ids from `base + k` on. -/
theorem insertLoop_added {base : Nat} (ids : List Nat) (k : Nat) (inserted : List (Nat × Nat))
    (a : InMemANNAdapter) (hAdded : Added a₀ a inserted)
    (hNodes : ∀ n ∈ ids, a₀.nodeToVector.lookup n = none)
    (hVectors : ∀ v, base ≤ v → a₀.vectorToNode.get v = none)
    {r : InMemANNAdapter × Except VectorIndexError (List (Nat × Nat))}
    (hLoop : insertLoop base (ids.zipIdx k) inserted a = some r) :
    ∃ inserted', r.2 = .ok inserted' ∧ Added a₀ r.1 inserted' ∧
      (∀ i n, ids[i]? = some n → r.1.vectorToNode.get (base + k + i) = some n) ∧
      (∀ v, v < base + k → r.1.vectorToNode.get v = a.vectorToNode.get v) ∧
      (∀ v, base + k + ids.length ≤ v → r.1.vectorToNode.get v = a.vectorToNode.get v) ∧
      (a.Inverse → ids.Nodup → (∀ n ∈ ids, a.nodeToVector.lookup n = none) →
        (∀ v, base + k ≤ v → a.vectorToNode.get v = none) → r.1.Inverse) := by
  induction ids generalizing k inserted a with
  | nil =>
    obtain rfl := Option.some.inj hLoop
    exact ⟨inserted, rfl, hAdded, fun i n hi => (nomatch hi), fun _ _ => rfl, fun _ _ => rfl,
      fun hInverse _ _ _ => hInverse⟩
  | cons n ids ih =>
    rw [List.zipIdx_cons] at hLoop
    unfold insertLoop at hLoop
    split at hLoop
    · cases hLoop
    · obtain ⟨m, hSet, hGet⟩ := a.vectorToNode.set_ok (base + k) n
      simp only [hSet] at hLoop
      have hNext := hAdded.add (hNodes n List.mem_cons_self) (hVectors (base + k) (by omega)) hGet
      obtain ⟨inserted', hOk, hAll, hAt, hLow, hHigh, hKeeps⟩ := ih (k + 1) _ _ hNext
        (fun n' hn' => hNodes n' (List.mem_cons_of_mem _ hn')) hLoop
      have hOther : ∀ v, v ≠ base + k → m.get v = a.vectorToNode.get v := fun v hv => by
        rw [hGet, if_neg hv]
      refine ⟨inserted', hOk, hAll, fun i n' hi => ?_, fun v hv => ?_, fun v hv => ?_,
        fun hInverse hNodup hFreeNodes hFreeVectors => ?_⟩
      · cases i with
        | zero =>
          obtain rfl : n = n' := Option.some.inj hi
          refine (hLow (base + k) (by omega)).trans ?_
          show m.get (base + k) = some n
          rw [hGet, if_pos rfl]
        | succ i =>
          have hTail := hAt i n' hi
          rwa [show base + (k + 1) + i = base + k + (i + 1) by omega] at hTail
      · exact (hLow v (by omega)).trans (hOther v (by omega))
      · rw [List.length_cons] at hv
        exact (hHigh v (by omega)).trans (hOther v (by omega))
      · obtain ⟨hNotMem, hTail⟩ := List.nodup_cons.mp hNodup
        refine hKeeps (hInverse.add (hFreeNodes n List.mem_cons_self)
          (hFreeVectors (base + k) (Nat.le_refl _)) hGet) hTail (fun n' hn' => ?_) (fun v hv => ?_)
        · show (assocInsert n (base + k) a.nodeToVector).lookup n' = none
          rw [lookup_assocInsert, if_neg fun hSame : n' = n => hNotMem (hSame ▸ hn')]
          exact hFreeNodes n' (List.mem_cons_of_mem _ hn')
        · show m.get v = none
          rw [hOther v (by omega)]
          exact hFreeVectors v (by omega)

theorem wrappingSub_wrappingAdd {base : Nat} (h : base < 2 ^ 32) (count : Nat) :
    wrappingSub (wrappingAdd base count) count = base := by
  unfold wrappingSub wrappingAdd
  omega

/-- **What an insert does**: nothing to the maps, or it gives the vertices of the batch the next
vector ids. -/
theorem Paired.insert_cases (h : a.Paired) {vectors : List (Nat × List F32)} {accepts : Bool}
    {r : InMemANNAdapter × Except VectorIndexError Unit}
    (hr : a.insert vectors accepts = some r) :
    (SameMaps a r.1 ∧ r.1.nextVectorId = a.nextVectorId ∧ (r.2 = .ok () → vectors = [])) ∨
    (r.2 = .ok () ∧ a.checkInsert vectors = .ok () ∧ accepts = true ∧
      r.1.nextVectorId < 2 ^ 32 ∧ r.1.BelowId r.1.nextVectorId ∧
      (∀ i n, (vectors.map Prod.fst)[i]? = some n →
        r.1.vectorToNode.get (a.nextVectorId + i) = some n) ∧
      ((vectors.map Prod.fst).Nodup → r.1.Inverse)) := by
  have hNext := h.next_lt
  unfold InMemANNAdapter.insert at hr
  split at hr
  · rename_i hEmpty
    obtain rfl := Option.some.inj hr
    exact .inl ⟨⟨fun _ => rfl, fun _ => rfl⟩, rfl, fun _ => List.isEmpty_iff.mp hEmpty⟩
  · split at hr
    · obtain rfl := Option.some.inj hr
      exact .inl ⟨⟨fun _ => rfl, fun _ => rfl⟩, rfl, fun hOk => nomatch hOk⟩
    · rename_i hCheck
      have hLoop := fun r' => insertLoop_added (r := r') (vectors.map Prod.fst) 0 []
        { a with nextVectorId := wrappingAdd a.nextVectorId vectors.length } (.refl _)
        (fun n hn => checkInsert_ok hCheck hn) (fun v hv => h.unused hv)
      dsimp only at hr
      split at hr
      · cases hr
      · -- the loop does not fail: every id has its shard
        rename_i a₁ e hEq
        obtain ⟨inserted, hOk, -⟩ := hLoop _ hEq
        cases hOk
      · rename_i a₁ inserted hEq
        obtain ⟨inserted', hOk, hAdded, hAt, -, hHigh, hKeeps⟩ := hLoop _ hEq
        obtain rfl := Except.ok.inj hOk
        have hCount : a₁.nextVectorId = wrappingAdd a.nextVectorId vectors.length := hAdded.next
        split at hr
        · rename_i hAccepts
          obtain ⟨hAccepts, hRoom⟩ := Bool.and_eq_true_iff.mp hAccepts
          have hRoom := of_decide_eq_true hRoom
          have hCount : a₁.nextVectorId = a.nextVectorId + vectors.length :=
            hCount.trans (Nat.mod_eq_of_lt hRoom)
          obtain rfl := Option.some.inj hr
          refine .inr ⟨rfl, hCheck, hAccepts, by rw [hCount]; exact hRoom, fun v n hGet => ?_,
            fun i n hi => ?_, fun hNodup => ?_⟩
          · show v < a₁.nextVectorId
            rw [hCount]
            by_contra hLate
            have hOld := hHigh v (by rw [List.length_map]; omega)
            have hUnused := h.unused (show a.nextVectorId ≤ v by omega)
            rw [show a₁.vectorToNode.get v = some n from hGet] at hOld
            exact nomatch hOld.trans hUnused
          · have hHere := hAt i n hi
            rwa [Nat.add_zero] at hHere
          · exact hKeeps h.inverse hNodup (fun n hn => checkInsert_ok hCheck hn)
              fun v hv => h.unused hv
        · obtain rfl := Option.some.inj hr
          have hSame := hAdded.rollback
          obtain ⟨-, -, hKept⟩ := rollback_spec inserted a₁
          refine .inl ⟨⟨hSame.nodes, hSame.vectors⟩, ?_, fun hOk => nomatch hOk⟩
          show wrappingSub (a₁.rollback inserted).nextVectorId vectors.length = a.nextVectorId
          rw [hKept, hCount, wrappingSub_wrappingAdd hNext]

theorem Paired.insert_failed (h : a.Paired) {vectors : List (Nat × List F32)} {accepts : Bool}
    {e : VectorIndexError} (hr : a.insert vectors accepts = some (a', .error e)) :
    SameMaps a a' := by
  rcases h.insert_cases hr with ⟨hSame, -⟩ | ⟨hOk, -⟩
  · exact hSame
  · cases hOk

theorem Paired.insert (h : a.Paired) {vectors : List (Nat × List F32)} {accepts : Bool}
    {r : InMemANNAdapter × Except VectorIndexError Unit}
    (hr : a.insert vectors accepts = some r)
    (hDistinct : a.checkInsert vectors = .ok () → accepts = true → (vectors.map Prod.fst).Nodup) :
    r.1.Paired := by
  rcases h.insert_cases hr with ⟨hSame, hNext, -⟩ | ⟨-, hCheck, hAccepts, hLt, hBelow, -, hKeeps⟩
  · exact h.sameMaps hSame hNext
  · exact ⟨hKeeps (hDistinct hCheck hAccepts), hBelow, hLt⟩

/-- **An accepted batch that names a vertex twice** gives it two vectors. -/
theorem repeated_batch_breaks (h : a.Paired) {vectors : List (Nat × List F32)} {accepts : Bool}
    (hr : a.insert vectors accepts = some (a', .ok ()))
    (hRepeated : ¬ (vectors.map Prod.fst).Nodup) : ¬ a'.Inverse := by
  intro hInverse
  rcases h.insert_cases hr with ⟨-, -, hEmpty⟩ | ⟨-, -, -, -, -, hAt, -⟩
  · rw [hEmpty rfl] at hRepeated
    exact hRepeated List.nodup_nil
  · refine hRepeated (List.nodup_iff_getElem?_ne_getElem?.mpr fun i j hij hj hSame => ?_)
    have hj' := List.getElem?_eq_getElem hj
    have hFirst := (hInverse _ _).mpr (hAt i _ (hSame.trans hj'))
    have hSecond := (hInverse _ _).mpr (hAt j _ hj')
    have hIds := Option.some.inj (hFirst.symm.trans hSecond)
    omega

-- ----
-- `soft_delete`
-- ----

/-- A soft deletion takes a vertex and its vector out of both maps. -/
theorem Paired.softDelete (h : a.Paired) (nodeIds : List Nat) (accepts : Bool) :
    (a.softDelete nodeIds accepts).1.Paired := by
  unfold InMemANNAdapter.softDelete
  split
  · exact h
  · split
    · exact h
    · split
      · exact h
      · rename_i vectorIds _
        split
        · have hNodes := fun n => lookup_foldl_assocErase
            (a.vectorToNode.batchSoftDelete vectorIds).2 n a.nodeToVector
          have hVectors := a.vectorToNode.get_batchSoftDelete vectorIds
          have hDeleted := a.vectorToNode.mem_batchSoftDelete vectorIds
          refine ⟨fun n v => ?_, fun v n hGet => ?_, h.next_lt⟩
          · show (List.foldl _ a.nodeToVector _).lookup n = some v ↔
              (a.vectorToNode.batchSoftDelete vectorIds).1.get v = some n
            rw [hNodes, hVectors]
            by_cases hv : v ∈ vectorIds
            · rw [if_pos hv]
              refine ⟨fun hUsed => ?_, fun hNone => (nomatch hNone)⟩
              split at hUsed
              · cases hUsed
              · rename_i hKept
                exact absurd ((hDeleted n).mpr ⟨v, hv, (h.inverse n v).mp hUsed⟩) hKept
            · rw [if_neg hv]
              split
              · rename_i hGone
                obtain ⟨v', hv', hGet⟩ := (hDeleted n).mp hGone
                refine ⟨fun hNone => (nomatch hNone), fun hUsed => ?_⟩
                have hIds := ((h.inverse n v).mpr hUsed).symm.trans ((h.inverse n v').mpr hGet)
                exact absurd (Option.some.inj hIds ▸ hv') hv
              · exact h.inverse n v
          · have hGet : (a.vectorToNode.batchSoftDelete vectorIds).1.get v = some n := hGet
            rw [hVectors] at hGet
            split at hGet
            · cases hGet
            · exact h.below v n hGet
        · exact h

end InMemANNAdapter

-- ----
-- Runs
-- ----

open InMemANNAdapter

variable {F32 : Type}

/-- The batch of an insert names no vertex twice. -/
def Call.distinct : Call F32 → Bool
  | .insert vectors _ => decide ((vectors.map Prod.fst).Nodup)
  | _ => true

/-- A batch that is accepted names no vertex twice. -/
def DistinctBatch (a : InMemANNAdapter) : Call F32 → Prop
  | .insert vectors accepts =>
    a.checkInsert vectors = .ok () → accepts = true → (vectors.map Prod.fst).Nodup
  | _ => True

theorem Step.paired {a a' : InMemANNAdapter} {call : Call F32} (h : a.Paired)
    (hDistinct : DistinctBatch a call) (hStep : Step a call a') : a'.Paired := by
  obtain ⟨r, hRun, rfl⟩ := Option.map_eq_some_iff.mp hStep
  cases call with
  | build vectors accepts =>
    obtain rfl := Option.some.inj hRun
    exact h.build vectors accepts
  | insert vectors accepts => exact h.insert hRun hDistinct
  | softDelete nodeIds accepts =>
    obtain rfl := Option.some.inj hRun
    exact h.softDelete nodeIds accepts

theorem paired_of_run {dimension : Nat} {trace : List (InMemANNAdapter × Call F32)}
    {a : InMemANNAdapter} (h : Run Step DistinctBatch (new dimension) trace a) : a.Paired :=
  h.stateInvariant (I := Paired) (paired_new dimension)
    fun _ _ _ hPaired hDistinct hStep => hStep.paired hPaired hDistinct

/-- What is asked of the maps of an index with coordinates of type `F32`. -/
structure InMemANNAdapter.MapsAgree (F32 : Type) (a : InMemANNAdapter) : Prop where
  inverse : ∀ n v, a.nodeToVector.lookup n = some v ↔ a.vectorToNode.get v = some n
  one : ∀ n, (a.nodeToVector.lookup n).isSome → ∃! v, a.vectorToNode.get v = some n
  failed : ∀ (vectors : List (Nat × List F32)) accepts a' e,
    a.insert vectors accepts = some (a', .error e) → SameMaps a a'

/-- **The maps are inverse** in every state of a run of such calls. -/
theorem id_maps_inverse {dimension : Nat} {trace : List (InMemANNAdapter × Call F32)}
    {a : InMemANNAdapter} (h : Run Step DistinctBatch (new dimension) trace a) :
    a.MapsAgree F32 := by
  have hPaired := paired_of_run h
  refine ⟨hPaired.inverse, fun n hLive => ?_, fun vectors accepts a' e hr =>
    hPaired.insert_failed hr⟩
  obtain ⟨v, hv⟩ := Option.isSome_iff_exists.mp hLive
  exact ⟨v, (hPaired.inverse n v).mp hv, fun v' hv' =>
    Option.some.inj (((hPaired.inverse n v').mpr hv').symm.trans hv)⟩

/-- Four vectors of 128 coordinates, each with one coordinate throughout. -/
def fourVectors : List (Nat × List Nat) :=
  [(9, List.replicate 128 3), (7, List.replicate 128 1), (6, List.replicate 128 0),
    (8, List.replicate 128 2)]

/-- Four vertices are built in, one is deleted, a fifth comes in. -/
theorem id_maps_inverse_five : ∃ a : InMemANNAdapter,
    a.nodeToVector = [(6, 0), (8, 2), (9, 3), (3, 4)] ∧ a.MapsAgree Nat := by
  have hDistinct : ∀ (a : InMemANNAdapter) (call : Call Nat) a',
      (if call.distinct then (call.run a).map Prod.fst else none) = some a' →
        DistinctBatch a call ∧ Step a call a' := by
    intro a call a' hNext
    split at hNext
    · rename_i hCall
      refine ⟨?_, hNext⟩
      cases call with
      | insert vectors accepts => exact fun _ _ => of_decide_eq_true hCall
      | build vectors accepts => trivial
      | softDelete nodeIds accepts => trivial
    · cases hNext
  obtain ⟨trace, a, hList, hFacts⟩ := exists_of_runList
    (show (runList (fun a (call : Call Nat) =>
      if call.distinct then (call.run a).map Prod.fst else none) (new 128)
      [.build fourVectors true, .softDelete [7] true, .insert [(3, List.replicate 128 4)] true]).map
      (fun r => r.2.nodeToVector) = some [(6, 0), (8, 2), (9, 3), (3, 4)] by decide +kernel)
  exact ⟨a, hFacts, id_maps_inverse (.of_runList hDistinct hList)⟩

/-- A batch with vertex 2 twice: both vectors are its, and the map knows the second. -/
theorem repeated_batch_not_inverse : ∃ (trace : List (InMemANNAdapter × Call Nat))
    (a : InMemANNAdapter), Run Step (fun _ _ => True) (new 128) trace a ∧
      ¬ a.MapsAgree Nat := by
  obtain ⟨trace, a, hList, hFacts⟩ := exists_of_runList
    (show (runList (fun a (call : Call Nat) => (call.run a).map Prod.fst) (new 128)
      [.build fourVectors true,
        .insert [(2, List.replicate 128 4), (2, List.replicate 128 5)] true]).map
      (fun r => (r.2.vectorToNode.get 4, r.2.nodeToVector.lookup 2)) =
      some (some 2, some 5) by decide +kernel)
  obtain ⟨hFirst, hSecond⟩ := Prod.mk.inj hFacts
  refine ⟨trace, a, .of_runList (fun _ _ _ hStep => ⟨trivial, hStep⟩) hList, fun hAgree => ?_⟩
  have hBoth := ((hAgree.inverse 2 4).mpr hFirst).symm.trans hSecond
  exact absurd (Option.some.inj hBoth) (by decide)

-- ----
-- One finite map
-- ----

/-- From vectors to vertices. -/
abbrev VectorMap := Finmap fun _ : Nat => Nat

/-- What a call does to one finite map. -/
def MapCall.runMap (f : VectorMap) : MapCall → VectorMap × Option Nat
  | .insert vectorId nodeId => (f.insert vectorId nodeId, none)
  | .get vectorId => (f, f.lookup vectorId)
  | .remove vectorId => (f.erase vectorId, f.lookup vectorId)
  | .clear => (∅, none)

namespace VectorMap

theorem keys_insert (f : VectorMap) (v n : Nat) :
    (Finmap.insert v n f).keys = Insert.insert v f.keys := by
  ext v'
  rw [Finmap.mem_keys, Finmap.mem_insert, Finset.mem_insert, Finmap.mem_keys]

theorem card_insert (f : VectorMap) (v n : Nat) :
    (Finmap.insert v n f).keys.card = f.keys.card + if (f.lookup v).isSome then 0 else 1 := by
  rw [keys_insert]
  by_cases hMem : v ∈ f.keys
  · rw [Finset.insert_eq_of_mem hMem, if_pos (Finmap.lookup_isSome.mpr (Finmap.mem_keys.mp hMem))]
    rfl
  · have hNone : (f.lookup v).isSome = false := by
      rw [Finmap.lookup_eq_none.mpr fun h => hMem (Finmap.mem_keys.mpr h)]
      rfl
    rw [Finset.card_insert_of_notMem hMem, hNone]
    rfl

theorem card_erase (f : VectorMap) (v : Nat) :
    (f.erase v).keys.card + (if (f.lookup v).isSome then 1 else 0) = f.keys.card := by
  rw [Finmap.keys_erase]
  by_cases hMem : v ∈ f.keys
  · rw [if_pos (Finmap.lookup_isSome.mpr (Finmap.mem_keys.mp hMem))]
    exact Finset.card_erase_add_one hMem
  · have hNone : (f.lookup v).isSome = false := by
      rw [Finmap.lookup_eq_none.mpr fun h => hMem (Finmap.mem_keys.mpr h)]
      rfl
    rw [Finset.erase_eq_of_notMem hMem, hNone]
    rfl

end VectorMap

-- ----
-- The refinement
-- ----

/-- The sharded map holds the finite map, in `2 ^ bits` shards. -/
structure Holds (bits : Nat) (m : ShardedVectorMap) (f : VectorMap) : Prop where
  shardBits : m.shardBits = bits
  get : ∀ v, m.get v = f.lookup v
  occupied : m.occupied = f.keys.card

namespace Holds

variable {bits : Nat} {m : ShardedVectorMap} {f : VectorMap}

theorem new (bits : Nat) : Holds bits (.new bits) ∅ where
  shardBits := rfl
  get v := by rw [ShardedVectorMap.get_new, Finmap.lookup_empty]
  occupied := by rw [ShardedVectorMap.occupied_new, Finmap.keys_empty, Finset.card_empty]

theorem insert (h : Holds bits m f) (v n : Nat) :
    ∃ m', m.set v n = .ok m' ∧ Holds bits m' (Finmap.insert v n f) := by
  obtain ⟨m', hSet, hGet⟩ := m.set_ok v n
  refine ⟨m', hSet, (m.shardBits_set hSet).trans h.shardBits, fun v' => ?_, ?_⟩
  · rw [hGet v']
    by_cases hv : v' = v
    · rw [if_pos hv, hv, Finmap.lookup_insert]
    · rw [if_neg hv, h.get v', Finmap.lookup_insert_of_ne f hv]
  · rw [m.occupied_set hSet, h.occupied, h.get v, VectorMap.card_insert]

theorem remove (h : Holds bits m f) (v : Nat) : Holds bits (m.remove v) (f.erase v) where
  shardBits := h.shardBits
  get v' := by
    rw [m.get_remove v v']
    by_cases hv : v' = v
    · rw [if_pos hv, hv, Finmap.lookup_erase]
    · rw [if_neg hv, h.get v', Finmap.lookup_erase_ne hv]
  occupied := by
    have hCount := m.occupied_remove v
    have hCard := VectorMap.card_erase f v
    have hBefore := h.occupied
    rw [h.get v] at hCount
    omega

theorem clear (h : Holds bits m f) : Holds bits m.clear ∅ where
  shardBits := h.shardBits
  get v := by rw [m.get_clear v, Finmap.lookup_empty]
  occupied := by rw [m.occupied_clear, Finmap.keys_empty, Finset.card_empty]

theorem run (h : Holds bits m f) (call : MapCall) :
    Holds bits (call.run m).1 (call.runMap f).1 ∧
      (call.run m).2 = .ok (call.runMap f).2 := by
  cases call with
  | insert v n =>
    obtain ⟨m', hSet, hHolds⟩ := h.insert v n
    unfold MapCall.run
    simp only [hSet]
    exact ⟨hHolds, rfl⟩
  | get v => exact ⟨h, congrArg Except.ok (h.get v)⟩
  | remove v => exact ⟨h.remove v, congrArg Except.ok ((m.removed_eq v).trans (h.get v))⟩
  | clear => exact ⟨h.clear, rfl⟩

end Holds

-- ----
-- The shard and the place as bits
-- ----

/-- `vector_id & ((1 << shard_bits) - 1)` and `vector_id >> shard_bits`, in `u32`. -/
theorem places_of_bits (m : ShardedVectorMap) (hBits : m.shardBits ≤ 16) (v : BitVec 32) :
    (v &&& ((1#32 <<< m.shardBits) - 1#32)).toNat = m.shardIdx v.toNat ∧
      (v >>> m.shardBits).toNat = m.localIdx v.toNat := by
  have hPow : 2 ^ m.shardBits < 2 ^ 32 := Nat.pow_lt_pow_right (by omega) (by omega)
  have hPos : 0 < 2 ^ m.shardBits := Nat.two_pow_pos _
  have hMask : ((1#32 <<< m.shardBits) - 1#32).toNat = 2 ^ m.shardBits - 1 := by
    rw [BitVec.toNat_sub, BitVec.toNat_shiftLeft, BitVec.toNat_ofNat, Nat.shiftLeft_eq]
    omega
  constructor
  · rw [BitVec.toNat_and, hMask, Nat.and_two_pow_sub_one_eq_mod]
    rfl
  · rw [BitVec.toNat_ushiftRight, Nat.shiftRight_eq_div_pow]
    rfl

/-- After any calls on a new map: the results, the vertices held and their number are those of
one finite map, and two vectors never share a place. -/
theorem sharded_map_refines {bits : Nat} {m : ShardedVectorMap}
    (hNew : ShardedVectorMap.tryNew bits = .ok m) (calls : List MapCall) :
    let sharded := runCalls MapCall.run m calls
    let one := runCalls MapCall.runMap ∅ calls
    sharded.2 = one.2.map .ok ∧ (∀ v, sharded.1.get v = one.1.lookup v) ∧
      sharded.1.occupied = one.1.keys.card ∧
      ∀ v v', v ≠ v' →
        (sharded.1.shardIdx v, sharded.1.localIdx v) ≠
          (sharded.1.shardIdx v', sharded.1.localIdx v') := by
  intro sharded one
  have hInit : Holds bits m ∅ := by
    unfold ShardedVectorMap.tryNew at hNew
    split at hNew
    · cases hNew
    · exact Except.ok.inj hNew ▸ Holds.new bits
  have hCall : ∀ m f (call : MapCall), Holds bits m f →
      Holds bits (call.run m).1 (call.runMap f).1 ∧ (call.run m).2 = .ok (call.runMap f).2 :=
    fun _ _ call h => h.run call
  obtain ⟨hEnd, hResults⟩ := runCalls_simulates hCall hInit calls
  refine ⟨hResults, hEnd.get, hEnd.occupied, fun v v' hv hPlace => hv ?_⟩
  exact sharded.1.eq_of_idx (Prod.mk.inj hPlace).1 (Prod.mk.inj hPlace).2

/-- Two vectors of one shard, and a third that is taken out again. -/
theorem sharded_map_refines_three :
    let calls : List MapCall :=
      [.insert 5 70, .insert 21 80, .insert 6 90, .get 5, .remove 6, .get 6, .insert 21 81, .get 21]
    let sharded := runCalls MapCall.run (.new 4) calls
    sharded.2 = [none, none, none, some 70, some 90, none, none, some 81].map .ok ∧
      sharded.1.occupied = 2 := by
  intro calls sharded
  have hNew : ShardedVectorMap.tryNew 4 = .ok (.new 4) := rfl
  have hRefines := sharded_map_refines hNew calls
  exact ⟨hRefines.1.trans (by decide), hRefines.2.2.1.trans (by decide)⟩

end InMemANN

end MiniGU
