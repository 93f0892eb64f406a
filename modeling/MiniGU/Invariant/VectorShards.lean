import MiniGU.Model.InMemANN

/-!
# The shards of the vector map

A sharded map is read by a shard and a place in it. Both are taken from the vector id and give it
back (`eq_of_idx`), so that a change of one place is a change at one id: `set_ok`, `get_remove`
and `get_clear` say what each call leaves in the map, `occupied_set` and `occupied_remove` in how
many places there is something.
-/

namespace MiniGU

namespace InMemANN

/-! ## Counting the entries of a list of places -/

section Counts

variable {α : Type}

theorem sum_map_modify {l : List α} {i : Nat} {a : α} (h : l[i]? = some a) (f : α → α)
    (g : α → Nat) : ((l.modify i f).map g).sum + g a = (l.map g).sum + g (f a) := by
  induction l generalizing i with
  | nil => cases h
  | cons b l ih =>
    cases i with
    | zero =>
      obtain rfl : b = a := Option.some.inj h
      rw [List.modify_zero_cons, List.map_cons, List.map_cons, List.sum_cons, List.sum_cons]
      omega
    | succ i =>
      have hTail := ih (i := i) h
      rw [List.modify_succ_cons, List.map_cons, List.map_cons, List.sum_cons, List.sum_cons]
      omega

theorem countP_set_none (l : List (Option α)) (i : Nat) :
    (l.set i none).countP Option.isSome + (if (l[i]?).join.isSome then 1 else 0) =
      l.countP Option.isSome := by
  induction l generalizing i with
  | nil => rfl
  | cons x l ih =>
    cases i with
    | zero => cases x <;> simp
    | succ i =>
      have hTail := ih i
      rw [List.set_cons_succ, List.countP_cons, List.countP_cons, List.getElem?_cons_succ]
      omega

theorem countP_set_some (l : List (Option α)) {i : Nat} (a : α) (hi : i < l.length) :
    (l.set i (some a)).countP Option.isSome =
      l.countP Option.isSome + if (l[i]?).join.isSome then 0 else 1 := by
  induction l generalizing i with
  | nil => cases hi
  | cons x l ih =>
    cases i with
    | zero => cases x <;> simp
    | succ i =>
      have hTail := ih (Nat.lt_of_succ_lt_succ hi)
      rw [List.set_cons_succ, List.countP_cons, List.countP_cons, List.getElem?_cons_succ]
      omega

theorem join_getElem?_extend (l : List (Option α)) (k i : Nat) :
    ((l ++ List.replicate k none)[i]?).join = (l[i]?).join := by
  by_cases hIn : i < l.length
  · rw [List.getElem?_append_left hIn]
  · rw [List.getElem?_append_right (Nat.not_lt.mp hIn), List.getElem?_replicate,
      List.getElem?_eq_none (Nat.not_lt.mp hIn)]
    split
    · rfl
    · rfl

theorem countP_extend_set (l : List (Option α)) (i : Nat) (a : α) :
    ((l ++ List.replicate (i + 1 - l.length) none).set i (some a)).countP Option.isSome =
      l.countP Option.isSome + if (l[i]?).join.isSome then 0 else 1 := by
  have hCount : (List.replicate (i + 1 - l.length) (none : Option α)).countP Option.isSome = 0 :=
    List.countP_eq_zero.mpr fun x hx => by
      rw [List.eq_of_mem_replicate hx]
      exact Bool.false_ne_true
  rw [countP_set_some _ _ (by rw [List.length_append, List.length_replicate]; omega),
    join_getElem?_extend, List.countP_append, hCount, Nat.add_zero]

end Counts

/-! ## The shards are one map -/

namespace ShardedVectorMap

variable (m : ShardedVectorMap)

theorem exists_shard (v : Nat) : ∃ shard, m.shards[m.shardIdx v]? = some shard := by
  have hLt : m.shardIdx v < m.shards.length := by
    rw [m.length_shards]
    exact Nat.mod_lt _ (Nat.two_pow_pos _)
  exact ⟨_, List.getElem?_eq_getElem hLt⟩

theorem get_eq {v : Nat} {shard : List (Option Nat)} (h : m.shards[m.shardIdx v]? = some shard) :
    m.get v = (shard[m.localIdx v]?).join := by
  unfold get
  rw [h]

/-- A place is found again by its shard and its index in the shard. -/
theorem eq_of_idx {v v' : Nat} (hShard : m.shardIdx v' = m.shardIdx v)
    (hLocal : m.localIdx v' = m.localIdx v) : v' = v := by
  unfold shardIdx at hShard
  unfold localIdx at hLocal
  rw [← Nat.div_add_mod v' (2 ^ m.shardBits), hShard, hLocal, Nat.div_add_mod]

theorem get_modifyShard (v : Nat) (f : List (Option Nat) → List (Option Nat)) (x : Option Nat)
    (hAt : ∀ shard, m.shards[m.shardIdx v]? = some shard →
      ((f shard)[m.localIdx v]?).join = x)
    (hOther : ∀ shard i, i ≠ m.localIdx v → ((f shard)[i]?).join = (shard[i]?).join) (v' : Nat) :
    (m.modifyShard v f).get v' = if v' = v then x else m.get v' := by
  obtain ⟨shard, hShard⟩ := m.exists_shard v'
  have hNew : (m.modifyShard v f).shards[m.shardIdx v']? =
      some (if m.shardIdx v = m.shardIdx v' then f shard else shard) := by
    show (m.shards.modify (m.shardIdx v) f)[m.shardIdx v']? = _
    rw [List.getElem?_modify, hShard, Option.map_eq_map, Option.map_some]
  rw [(m.modifyShard v f).get_eq hNew, m.get_eq hShard]
  show ((if m.shardIdx v = m.shardIdx v' then f shard else shard)[m.localIdx v']?).join = _
  by_cases hSame : m.shardIdx v = m.shardIdx v'
  · rw [if_pos hSame]
    by_cases hv : v' = v
    · subst hv
      rw [if_pos rfl]
      exact hAt shard hShard
    · rw [if_neg hv]
      exact hOther shard _ fun hLocal => hv (m.eq_of_idx hSame.symm hLocal)
  · have hv : v' ≠ v := fun hv => hSame (by rw [hv])
    rw [if_neg hSame, if_neg hv]

theorem set_ok (v n : Nat) :
    ∃ m', m.set v n = .ok m' ∧ ∀ v', m'.get v' = if v' = v then some n else m.get v' := by
  have hLt : m.shardIdx v < m.shards.length := by
    rw [m.length_shards]
    exact Nat.mod_lt _ (Nat.two_pow_pos _)
  refine ⟨_, if_neg (Nat.not_le.mpr hLt), fun v' => m.get_modifyShard v _ (some n) ?_ ?_ v'⟩
  · intro shard _
    rw [List.getElem?_set_self (by rw [List.length_append, List.length_replicate]; omega)]
    rfl
  · intro shard i hi
    rw [List.getElem?_set_ne (Ne.symm hi), join_getElem?_extend]

theorem shardBits_set {v n : Nat} {m' : ShardedVectorMap} (h : m.set v n = .ok m') :
    m'.shardBits = m.shardBits := by
  unfold set at h
  split at h
  · cases h
  · exact (congrArg shardBits (Except.ok.inj h)).symm

theorem get_remove (v v' : Nat) : (m.remove v).get v' = if v' = v then none else m.get v' := by
  refine m.get_modifyShard v _ none ?_ ?_ v'
  · intro shard _
    by_cases hIn : m.localIdx v < shard.length
    · rw [List.getElem?_set_self hIn]
      rfl
    · rw [List.getElem?_eq_none (by rw [List.length_set]; omega)]
      rfl
  · intro shard i hi
    rw [List.getElem?_set_ne (Ne.symm hi)]

theorem get_clear (v : Nat) : m.clear.get v = none := by
  obtain ⟨shard, hShard⟩ := m.exists_shard v
  have hNew : m.clear.shards[m.clear.shardIdx v]? = some [] := by
    show (m.shards.map fun _ => [])[m.shardIdx v]? = _
    rw [List.getElem?_map, hShard]
    rfl
  rw [m.clear.get_eq hNew]
  rfl

theorem get_new (bits v : Nat) : (new bits).get v = none := by
  obtain ⟨shard, hShard⟩ := (new bits).exists_shard v
  have hEmpty : shard = [] :=
    List.eq_of_mem_replicate (List.mem_iff_getElem?.mpr ⟨_, hShard⟩)
  rw [(new bits).get_eq hShard, hEmpty]
  rfl

theorem get_batchSoftDelete (ids : List Nat) (v : Nat) :
    (m.batchSoftDelete ids).1.get v = if v ∈ ids then none else m.get v := by
  induction ids generalizing m with
  | nil => exact (if_neg List.not_mem_nil).symm
  | cons v' ids ih =>
    show ((m.remove v').batchSoftDelete ids).1.get v = _
    rw [ih, get_remove]
    by_cases hTail : v ∈ ids
    · rw [if_pos hTail, if_pos (List.mem_cons_of_mem _ hTail)]
    · by_cases hHead : v = v'
      · rw [if_neg hTail, if_pos hHead, if_pos (hHead ▸ List.mem_cons_self)]
      · rw [if_neg hTail, if_neg hHead, if_neg (by simp [hHead, hTail])]

theorem mem_batchSoftDelete (ids : List Nat) (n : Nat) :
    n ∈ (m.batchSoftDelete ids).2 ↔ ∃ v ∈ ids, m.get v = some n := by
  induction ids generalizing m with
  | nil => exact ⟨fun h => (nomatch h), fun ⟨v, hv, _⟩ => (nomatch hv)⟩
  | cons v' ids ih =>
    show n ∈ (m.get v').toList ++ ((m.remove v').batchSoftDelete ids).2 ↔ _
    rw [List.mem_append, Option.mem_toList, ih]
    constructor
    · rintro (hHead | ⟨v, hv, hGet⟩)
      · exact ⟨v', List.mem_cons_self, hHead⟩
      · rw [get_remove] at hGet
        split at hGet
        · cases hGet
        · exact ⟨v, List.mem_cons_of_mem _ hv, hGet⟩
    · rintro ⟨v, hv, hGet⟩
      by_cases hSame : v = v'
      · exact .inl (hSame ▸ hGet)
      · refine .inr ⟨v, (List.mem_cons.mp hv).resolve_left hSame, ?_⟩
        rw [get_remove, if_neg hSame]
        exact hGet

/-! ## The places that hold a vertex -/

theorem removed_eq (v : Nat) : m.removed v = m.get v := by
  obtain ⟨shard, hShard⟩ := m.exists_shard v
  rw [m.get_eq hShard]
  unfold removed
  rw [hShard]
  by_cases hIn : m.localIdx v < shard.length
  · exact if_pos hIn
  · rw [List.getElem?_eq_none (Nat.not_lt.mp hIn)]
    exact if_neg hIn

theorem occupied_modifyShard {v : Nat} {shard : List (Option Nat)}
    (hShard : m.shards[m.shardIdx v]? = some shard) (f : List (Option Nat) → List (Option Nat)) :
    (m.modifyShard v f).occupied + shard.countP Option.isSome =
      m.occupied + (f shard).countP Option.isSome :=
  sum_map_modify hShard f _

theorem occupied_set {v n : Nat} {m' : ShardedVectorMap} (h : m.set v n = .ok m') :
    m'.occupied = m.occupied + if (m.get v).isSome then 0 else 1 := by
  obtain ⟨shard, hShard⟩ := m.exists_shard v
  unfold set at h
  split at h
  · cases h
  · obtain rfl := Except.ok.inj h
    have hCount := m.occupied_modifyShard hShard fun shard =>
      (shard ++ List.replicate (m.localIdx v + 1 - shard.length) none).set (m.localIdx v) (some n)
    have hNew := countP_extend_set shard (m.localIdx v) n
    rw [m.get_eq hShard]
    omega

theorem occupied_remove (v : Nat) :
    (m.remove v).occupied + (if (m.get v).isSome then 1 else 0) = m.occupied := by
  obtain ⟨shard, hShard⟩ := m.exists_shard v
  have hCount := m.occupied_modifyShard hShard fun shard => shard.set (m.localIdx v) none
  have hNew := countP_set_none shard (m.localIdx v)
  unfold remove
  rw [m.get_eq hShard]
  omega

theorem occupied_clear : m.clear.occupied = 0 := by
  unfold occupied clear
  rw [List.map_map]
  exact List.sum_eq_zero fun n hn => by
    obtain ⟨shard, _, rfl⟩ := List.mem_map.mp hn
    rfl

theorem occupied_new (bits : Nat) : (new bits).occupied = 0 := by
  unfold occupied new
  exact List.sum_eq_zero fun n hn => by
    obtain ⟨shard, hMem, rfl⟩ := List.mem_map.mp hn
    rw [List.eq_of_mem_replicate hMem]
    rfl

end ShardedVectorMap

end InMemANN

end MiniGU
