import MiniGU.Model.VectorIndexScan

/-!
# The mask over vectors

A mask lets through the candidates it was made of that are below its length
(`containsVector_new`), and `iter_candidates` goes through them in ascending order
(`mem_iterCandidates_new`, `pairwise_iterCandidates_new`).
-/

namespace MiniGU

theorem mem_extractTrueNodeIds (bits : List Bool) (n : Nat) :
    n ∈ extractTrueNodeIds bits ↔ bits[n]? = some true := by
  unfold extractTrueNodeIds
  rw [List.mem_filterMap]
  constructor
  · rintro ⟨⟨value, idx⟩, hMem, hSome⟩
    have hAt := List.mem_zipIdx_iff_getElem?.mp hMem
    cases value with
    | false => cases hSome
    | true =>
      obtain rfl : idx = n := Option.some.inj hSome
      exact hAt
  · intro h
    exact ⟨(true, n), List.mem_zipIdx_iff_getElem?.mpr h, rfl⟩

theorem pairwise_extractTrueNodeIds (bits : List Bool) :
    (extractTrueNodeIds bits).Pairwise (· < ·) := by
  have hZip : ∀ (l : List Bool) (k : Nat), (l.zipIdx k).Pairwise fun a b => a.2 < b.2 := by
    intro l
    induction l with
    | nil => exact fun k => List.Pairwise.nil
    | cons bit l ih =>
      intro k
      rw [List.zipIdx_cons, List.pairwise_cons]
      refine ⟨fun b hb => ?_, ih (k + 1)⟩
      have hLe := List.le_snd_of_mem_zipIdx hb
      omega
  unfold extractTrueNodeIds
  refine (hZip bits 0).filterMap _ fun a b hab i hi j hj => ?_
  dsimp only at hi hj
  split at hi
  · split at hj
    · cases hi
      cases hj
      exact hab
    · cases hj
  · cases hi

namespace FilterMask

theorem length_insert (mask : FilterMask) (id : Nat) :
    (mask.insert id).bitmap.length = mask.bitmap.length := by
  unfold insert
  split <;> simp

theorem containsVector_insert (mask : FilterMask) (id v : Nat) :
    (mask.insert id).containsVector v = true ↔
      mask.containsVector v = true ∨ (v = id ∧ id < mask.bitmap.length) := by
  unfold insert
  cases hAt : mask.bitmap[id]? with
  | none =>
    have hOut := List.getElem?_eq_none_iff.mp hAt
    simp
    omega
  | some bit =>
    have hIn := (List.getElem?_eq_some_iff.mp hAt).1
    cases bit with
    | false =>
      simp only [containsVector, List.getElem?_set]
      by_cases hv : id = v
      · subst hv
        simp [hIn]
      · have hNe : v ≠ id := fun h => hv h.symm
        simp [hv, hNe]
    | true =>
      simp only [containsVector]
      refine ⟨.inl, fun h => ?_⟩
      rcases h with h | ⟨rfl, -⟩
      · exact h
      · rw [hAt]
        rfl

theorem containsVector_new (candidates : List Nat) (total v : Nat) :
    (new candidates total).containsVector v = true ↔ v ∈ candidates ∧ v < total := by
  have hFold : ∀ mask : FilterMask, (candidates.foldl insert mask).containsVector v = true ↔
      mask.containsVector v = true ∨ (v ∈ candidates ∧ v < mask.bitmap.length) := by
    induction candidates with
    | nil => simp
    | cons id candidates ih =>
      intro mask
      rw [List.foldl_cons, ih, containsVector_insert, length_insert, List.mem_cons]
      constructor
      · rintro ((h | ⟨rfl, h⟩) | ⟨h, hlt⟩)
        · exact .inl h
        · exact .inr ⟨.inl rfl, h⟩
        · exact .inr ⟨.inr h, hlt⟩
      · rintro (h | ⟨rfl | h, hlt⟩)
        · exact .inl (.inl h)
        · exact .inl (.inr ⟨rfl, hlt⟩)
        · exact .inr ⟨h, hlt⟩
  have hEmpty : (⟨List.replicate total false, 0⟩ : FilterMask).containsVector v = false := by
    rw [containsVector, List.getElem?_replicate]
    split <;> rfl
  rw [new, hFold, List.length_replicate, hEmpty]
  simp

theorem iterCandidates_new (candidates : List UInt32) (total : Nat) :
    (new (candidates.map UInt32.toNat) total).iterCandidates =
      extractTrueNodeIds (new (candidates.map UInt32.toNat) total).bitmap := by
  unfold iterCandidates
  refine (List.map_congr_left fun v hv => ?_).trans (List.map_id _)
  have hAt := (mem_extractTrueNodeIds _ v).mp hv
  have hIn := (containsVector_new (candidates.map UInt32.toNat) total v).mp (by
    rw [containsVector, hAt]
    rfl)
  obtain ⟨c, -, rfl⟩ := List.mem_map.mp hIn.1
  exact Nat.mod_eq_of_lt c.toNat_lt

theorem pairwise_iterCandidates_new (candidates : List UInt32) (total : Nat) :
    (new (candidates.map UInt32.toNat) total).iterCandidates.Pairwise (· < ·) := by
  rw [iterCandidates_new]
  exact pairwise_extractTrueNodeIds _

end FilterMask

end MiniGU
