import MiniGU.Lib.Picks
import Mathlib.Data.List.Induction
import Mathlib.Data.List.Perm.Basic
import Mathlib.Data.List.Sort
import Mathlib.Data.List.Basic

/-!
# Products of relations, up to the order of the factors

A factor is a list of columns and a list of rows over them. `assignments` lists the ways to take
one row from each factor, as maps from columns to values. The order of the factors only permutes
them as long as no column is in two factors.

## Disjunctions of conjunctions

A formula without negation over atoms of a type `α`, as a list of cubes: it holds when all
the atoms of one cube do. `meet` distributes a conjunction over the cubes, joining two of
them by any function that keeps their atoms.
-/

namespace MiniGU

section Assign

variable {ι α : Type} [DecidableEq ι] {base base' : ι → α}

theorem assign_congr {i : ι} (h : base i = base' i) (is : List ι) (p : List α) :
    assign base is p i = assign base' is p i := by
  induction is generalizing p with
  | nil => exact h
  | cons j is ih =>
    cases p with
    | nil => exact h
    | cons a p =>
      unfold assign
      by_cases hij : i = j
      · rw [hij, Function.update_self, Function.update_self]
      · rw [Function.update_of_ne hij, Function.update_of_ne hij, ih]

theorem assign_append (is js : List ι) {p q : List α} (h : is.length = p.length) :
    assign base (is ++ js) (p ++ q) = assign (assign base js q) is p := by
  induction is generalizing p with
  | nil =>
    obtain rfl := List.length_eq_zero_iff.mp h.symm
    rfl
  | cons i is ih =>
    cases p with
    | nil => cases h
    | cons a p =>
      rw [List.cons_append, List.cons_append]
      unfold assign
      rw [ih (Nat.succ.inj h)]

theorem assign_comm {is js : List ι} (h : is.Disjoint js) (p q : List α) :
    assign (assign base js q) is p = assign (assign base is p) js q := by
  funext i
  by_cases hi : i ∈ is
  · rw [assign_of_notMem (h hi)]
    exact assign_congr (assign_of_notMem (h hi) q) is p
  · rw [assign_of_notMem hi]
    exact assign_congr (assign_of_notMem hi p).symm js q

/-- Reading back what was filed under distinct columns. -/
theorem map_assign_of_nodup {is : List ι} (hNodup : is.Nodup) {p : List α}
    (h : is.length = p.length) : is.map (assign base is p) = p := by
  induction is generalizing p with
  | nil => exact (List.length_eq_zero_iff.mp h.symm).symm
  | cons i is ih =>
    cases p with
    | nil => cases h
    | cons a p =>
      obtain ⟨hi, hTail⟩ := List.nodup_cons.mp hNodup
      unfold assign
      rw [List.map_cons, Function.update_self]
      congr 1
      refine Eq.trans (List.map_congr_left fun j hj => ?_) (ih hTail (Nat.succ.inj h))
      have hne : j ≠ i := fun heq => hi (heq ▸ hj)
      rw [Function.update_of_ne hne]

theorem map_assign_of_disjoint {is js : List ι} (h : js.Disjoint is) (p : List α) :
    js.map (assign base is p) = js.map base :=
  List.map_congr_left fun _ hj => assign_of_notMem (h hj) p

end Assign

/-! ## Assignments -/

section Assignments

variable {ι α : Type} [DecidableEq ι] {base : ι → α}

def assignments (base : ι → α) : List (List ι × List (List α)) → List (ι → α)
  | [] => [base]
  | f :: fs => f.2.flatMap fun r => (assignments base fs).map fun τ => assign τ f.1 r

theorem assignments_cons (f : List ι × List (List α)) (fs : List (List ι × List (List α))) :
    assignments base (f :: fs) =
      f.2.flatMap fun r => (assignments base fs).map fun τ => assign τ f.1 r := rfl

theorem length_assignments (fs : List (List ι × List (List α))) :
    (assignments base fs).length = (fs.map fun f => f.2.length).prod := by
  induction fs with
  | nil => rfl
  | cons f fs ih =>
    unfold assignments
    simp [List.length_flatMap, ih]

theorem assignments_eq_nil {fs : List (List ι × List (List α))} :
    assignments base fs = [] ↔ ∃ f ∈ fs, f.2 = [] := by
  induction fs with
  | nil => simp [assignments]
  | cons f fs ih =>
    unfold assignments
    rw [List.flatMap_eq_nil_iff, List.exists_mem_cons_iff, ← ih]
    simp only [List.map_eq_nil_iff]
    cases f.2 with
    | nil => simp
    | cons r rows => simp +contextual

/-- Two nested choices in the other order. -/
theorem flatMap_comm_perm {β γ δ : Type} (l : List β) (m : List γ) (f : β → γ → List δ) :
    (l.flatMap fun b => m.flatMap fun c => f b c).Perm
      (m.flatMap fun c => l.flatMap fun b => f b c) := by
  induction l with
  | nil => simp
  | cons b l ih =>
    simp only [List.flatMap_cons]
    exact (ih.append_left _).trans (List.flatMap_append_perm m _ _)

theorem filter_flatMap_eq {β γ : Type} (p : β → Bool) (l : List β) (f : β → List γ) :
    (l.filter p).flatMap f = l.flatMap fun b => if p b then f b else [] := by
  induction l with
  | nil => rfl
  | cons b l ih =>
    rw [List.filter_cons, List.flatMap_cons, ← ih]
    cases p b <;> rfl

/-- A selection from the product of two selections is one from the product. -/
theorem filter_product_filter {β γ : Type} (p : β → Bool) (q : γ → Bool) (r : β × γ → Bool)
    (l : List β) (m : List γ) :
    (l.filter p ×ˢ m.filter q).filter r =
      (l ×ˢ m).filter fun bc => p bc.1 && q bc.2 && r bc := by
  simp only [SProd.sprod, List.product, filter_flatMap_eq, List.filter_flatMap]
  congr 1
  funext b
  rw [List.filter_map]
  cases hp : p b with
  | true =>
    rw [if_pos rfl, List.filter_map, List.filter_filter]
    congr 1
    refine List.filter_congr fun c _ => ?_
    simp [hp, Bool.and_comm]
  | false => simp [hp, Function.comp_def]

/-- Factors without a common column. -/
def Apart (f g : List ι × List (List α)) : Prop := f.1.Disjoint g.1

theorem assignments_perm {fs gs : List (List ι × List (List α))} (h : fs.Perm gs)
    (hApart : fs.Pairwise Apart) : (assignments base fs).Perm (assignments base gs) := by
  induction h with
  | nil => exact .refl _
  | cons f _ ih =>
    unfold assignments
    exact List.Perm.flatMap_left _ fun r _ => (ih (List.pairwise_cons.mp hApart).2).map _
  | swap f g fs =>
    have hDisjoint : g.1.Disjoint f.1 := (List.pairwise_cons.mp hApart).1 f (List.mem_cons_self ..)
    simp only [assignments, List.map_flatMap, List.map_map]
    have hComm := flatMap_comm_perm g.2 f.2 fun r s =>
      (assignments base fs).map fun τ => assign (assign τ f.1 s) g.1 r
    refine hComm.trans (List.Perm.of_eq ?_)
    refine List.flatMap_congr fun s _ => List.flatMap_congr fun r _ => List.map_congr_left ?_
    exact fun τ _ => assign_comm hDisjoint r s
  | trans h₁ _ ih₁ ih₂ =>
    have hSymm : ∀ {f g : List ι × List (List α)}, Apart f g → Apart g f := List.Disjoint.symm
    exact (ih₁ hApart).trans (ih₂ ((h₁.pairwise_iff hSymm).mp hApart))

/-- What an assignment holds under the columns of a factor is one of its rows. -/
theorem map_mem_of_mem_assignments {fs : List (List ι × List (List α))}
    (hApart : fs.Pairwise Apart) {f : List ι × List (List α)} (hf : f ∈ fs) (hNodup : f.1.Nodup)
    (hRows : ∀ r ∈ f.2, f.1.length = r.length) {τ : ι → α} (hτ : τ ∈ assignments base fs) :
    f.1.map τ ∈ f.2 := by
  obtain ⟨front, back, rfl⟩ := List.append_of_mem hf
  have hMem := (assignments_perm List.perm_middle hApart).mem_iff.mp hτ
  unfold assignments at hMem
  obtain ⟨r, hr, hMem⟩ := List.mem_flatMap.mp hMem
  obtain ⟨τ', -, rfl⟩ := List.mem_map.mp hMem
  rw [map_assign_of_nodup hNodup (hRows r hr)]
  exact hr

/-- What depends on one factor only comes up once for each choice from the others. -/
theorem map_assignments_perm {β : Type} {fs rest : List (List ι × List (List α))}
    {f : List ι × List (List α)} (h : fs.Perm (f :: rest)) (hApart : fs.Pairwise Apart)
    (hNodup : f.1.Nodup) (hRows : ∀ r ∈ f.2, f.1.length = r.length) (g : List α → β) :
    ((assignments base fs).map fun τ => g (f.1.map τ)).Perm
      (f.2.flatMap fun r => List.replicate (assignments base rest).length (g r)) := by
  refine ((assignments_perm h hApart).map _).trans (List.Perm.of_eq ?_)
  rw [assignments_cons, List.map_flatMap]
  refine List.flatMap_congr fun r hr => ?_
  rw [List.map_map, List.eq_replicate_iff]
  refine ⟨List.length_map .., fun b hb => ?_⟩
  obtain ⟨τ, -, rfl⟩ := List.mem_map.mp hb
  exact congrArg g (map_assign_of_nodup hNodup (hRows r hr))

/-- The rows that a pick from each factor makes, laid end to end. -/
theorem map_flatten_picks {fs : List (List ι × List (List α))}
    (hNodup : (fs.flatMap Prod.fst).Nodup) (hRows : ∀ f ∈ fs, ∀ r ∈ f.2, f.1.length = r.length) :
    (picks (fs.map Prod.snd)).map List.flatten =
      (assignments base fs).map fun τ => (fs.flatMap Prod.fst).map τ := by
  induction fs with
  | nil => rfl
  | cons f fs ih =>
    rw [List.flatMap_cons] at hNodup
    obtain ⟨hHead, hTail, hDisjoint⟩ := List.nodup_append'.mp hNodup
    simp only [List.map_cons, picks, assignments, List.map_flatMap, List.map_map,
      List.flatMap_cons]
    refine List.flatMap_congr fun r hr => ?_
    have ih := ih hTail fun g hg => hRows g (List.mem_cons_of_mem _ hg)
    have hCons := congrArg (List.map fun row : List α => r ++ row) ih
    rw [List.map_map, List.map_map] at hCons
    refine hCons.trans (List.map_congr_left fun τ _ => ?_)
    show r ++ (fs.flatMap Prod.fst).map τ =
      (f.1 ++ fs.flatMap Prod.fst).map (assign τ f.1 r)
    rw [List.map_append, map_assign_of_nodup hHead (hRows f (List.mem_cons_self ..) r hr),
      map_assign_of_disjoint hDisjoint.symm]

/-- The list at a place, as a factor over this place. -/
def placed (ls : List (List α)) (i : Nat) : List Nat × List (List α) :=
  ([i], (ls.getD i []).map fun a => [a])

/-- The picks are the assignments to the places of the lists. -/
theorem picks_eq_assignments (ls : List (List α)) (d : α) {is : List Nat} (hNodup : is.Nodup) :
    picks (is.map fun i => ls.getD i []) =
      (assignments (fun _ => d) (is.map (placed ls))).map fun τ => is.map τ := by
  have hColumns : (is.map (placed ls)).flatMap Prod.fst = is := by
    rw [List.flatMap_map]
    exact List.flatMap_singleton' is
  have hLengths : ∀ f ∈ is.map (placed ls), ∀ r ∈ f.2, f.1.length = r.length := by
    intro f hf r hr
    obtain ⟨i, -, rfl⟩ := List.mem_map.mp hf
    obtain ⟨a, -, rfl⟩ := List.mem_map.mp hr
    rfl
  have hFlatten : (picks ((is.map (placed ls)).map Prod.snd)).map List.flatten =
      (assignments (fun _ => d) (is.map (placed ls))).map fun τ =>
        ((is.map (placed ls)).flatMap Prod.fst).map τ :=
    map_flatten_picks (hColumns.symm ▸ hNodup) hLengths
  have hSingle : (is.map (placed ls)).map Prod.snd =
      (is.map fun i => ls.getD i []).map (List.map fun a => [a]) := by
    rw [List.map_map, List.map_map]
    rfl
  rw [hColumns, hSingle, picks_map, List.map_map] at hFlatten
  rw [← hFlatten]
  refine (List.map_id _).symm.trans (List.map_congr_left fun p _ => ?_)
  exact ((List.flatMap_def ..).symm.trans (List.flatMap_singleton' p)).symm

/-- Picks from lists in another order are the picks, read in that order. -/
theorem perm_picks_reindex (ls : List (List α)) (d : α) {is : List Nat}
    (hPerm : is.Perm (List.range ls.length)) :
    ((picks ls).map fun p => is.map fun i => p.getD i d).Perm
      (picks (is.map fun i => ls.getD i [])) := by
  have hNodup : is.Nodup := hPerm.nodup_iff.mpr List.nodup_range
  have hAll : (List.range ls.length).map (fun i => ls.getD i []) = ls := by
    refine List.ext_getElem (by simp) fun i hi _ => ?_
    rw [List.length_map, List.length_range] at hi
    simp [hi]
  have hPicks : picks ((List.range ls.length).map fun i => ls.getD i []) = _ :=
    picks_eq_assignments ls d List.nodup_range
  rw [hAll] at hPicks
  rw [hPicks, List.map_map, picks_eq_assignments ls d hNodup]
  have hRead : ∀ τ : Nat → α, is.map (fun i => ((List.range ls.length).map τ).getD i d) =
      is.map τ := by
    refine fun τ => List.map_congr_left fun i hi => ?_
    have hBound := List.mem_range.mp (hPerm.mem_iff.mp hi)
    simp [hBound]
  simp only [Function.comp_def, hRead]
  refine (assignments_perm (hPerm.symm.map _) ?_).map _
  rw [List.pairwise_map]
  refine List.Pairwise.imp (fun hne => ?_) List.nodup_range
  exact List.disjoint_singleton.mpr fun hMem => hne (List.mem_singleton.mp hMem).symm

end Assignments

/-! ## Taking out a factor -/

section SwapRemove

variable {α β : Type}

/-- The element `i` is replaced by the last one, and the list shortened. -/
def swapRemove (l : List α) (i : Nat) : List α :=
  match l.getLast? with
  | some last => if i < l.length then (l.set i last).dropLast else l
  | none => l

theorem map_swapRemove (f : α → β) (l : List α) (i : Nat) :
    (swapRemove l i).map f = swapRemove (l.map f) i := by
  unfold swapRemove
  rw [List.getLast?_map, List.length_map]
  cases l.getLast? with
  | none => rfl
  | some last =>
    by_cases hi : i < l.length
    · simp only [Option.map_some, if_pos hi]
      rw [List.map_dropLast, List.map_set]
    · simp only [Option.map_some, if_neg hi]

theorem perm_swapRemove {l : List α} {i : Nat} {a : α} (h : l[i]? = some a) :
    l.Perm (a :: swapRemove l i) := by
  obtain ⟨hi, rfl⟩ := List.getElem?_eq_some_iff.mp h
  induction l using List.reverseRecOn with
  | nil => cases hi
  | append_singleton l last =>
    rw [List.length_append, List.length_singleton] at hi
    unfold swapRemove
    rw [List.getLast?_concat]
    simp only [List.length_append, List.length_singleton, if_pos hi]
    by_cases hLast : i < l.length
    · rw [List.set_append_left _ _ hLast, List.dropLast_concat, List.getElem_append_left hLast]
      have hHead : (l ++ [last]).Perm (last :: l) := List.perm_append_comm
      have hErase := (List.getElem_cons_eraseIdx_perm hLast).symm.cons last
      have hSet := (List.set_perm_cons_eraseIdx hLast last).symm.cons l[i]
      exact hHead.trans (hErase.trans ((List.Perm.swap ..).trans hSet))
    · obtain rfl : i = l.length := by omega
      rw [List.set_append_right _ _ (Nat.le_refl _), Nat.sub_self]
      simp

theorem getElem?_swapRemove_of_lt {l : List α} {i j : Nat} (h : j < i) (hi : i < l.length) :
    (swapRemove l i)[j]? = l[j]? := by
  have hNe : l ≠ [] := List.length_pos_iff.mp (by omega)
  unfold swapRemove
  rw [List.getLast?_eq_some_getLast hNe]
  simp only [if_pos hi]
  rw [List.getElem?_dropLast, if_pos (by rw [List.length_set]; omega), List.getElem?_set_ne (by omega)]

/-- The elements at the given positions are taken out, the last ones first. -/
def swapRemoveAll (l : List α) (positions : List Nat) : List α :=
  (positions.insertionSort (· ≥ ·)).foldl swapRemove l

theorem map_swapRemoveAll (f : α → β) (l : List α) (positions : List Nat) :
    (swapRemoveAll l positions).map f = swapRemoveAll (l.map f) positions := by
  unfold swapRemoveAll
  induction positions.insertionSort (· ≥ ·) generalizing l with
  | nil => rfl
  | cons i is ih => rw [List.foldl_cons, List.foldl_cons, ih, map_swapRemove]

/-- Two different positions are taken out. -/
theorem perm_swapRemoveAll {l : List α} {i j : Nat} (hij : i ≠ j) {a b : α}
    (ha : l[i]? = some a) (hb : l[j]? = some b) : l.Perm (a :: b :: swapRemoveAll l [i, j]) := by
  have hi := (List.getElem?_eq_some_iff.mp ha).1
  have hj := (List.getElem?_eq_some_iff.mp hb).1
  unfold swapRemoveAll
  by_cases h : j ≤ i
  · have hSort : [i, j].insertionSort (· ≥ ·) = [i, j] := by simp [h]
    rw [hSort]
    have hRest : (swapRemove l i)[j]? = some b := by
      rw [getElem?_swapRemove_of_lt (by omega) hi, hb]
    exact (perm_swapRemove ha).trans ((perm_swapRemove hRest).cons a)
  · have hSort : [i, j].insertionSort (· ≥ ·) = [j, i] := by simp [h]
    rw [hSort]
    have hRest : (swapRemove l j)[i]? = some a := by
      rw [getElem?_swapRemove_of_lt (by omega) hj, ha]
    exact ((perm_swapRemove hb).trans ((perm_swapRemove hRest).cons b)).trans (.swap ..)

end SwapRemove

/-- A list of cubes, each a list of atoms. -/
abbrev Cubes (α : Type) := List (List α)

namespace Cubes

variable {α : Type} {s t : Cubes α} {merge : List α → List α → List α}

/-- Some cube has only atoms for which `p` holds. -/
def eval (p : α → Bool) (s : Cubes α) : Bool := s.any fun c => c.all p

/-- Every cube of `s` with every cube of `t`. -/
def meet (merge : List α → List α → List α) (s t : Cubes α) : Cubes α :=
  s.flatMap fun l => t.map fun r => merge l r

/-- The atom `a` stands in some cube. -/
def Mentions (s : Cubes α) (a : α) : Prop := ∃ c ∈ s, a ∈ c

/-- `merge` keeps the atoms of both lists and adds none. -/
def Merges (merge : List α → List α → List α) : Prop :=
  ∀ l r a, a ∈ merge l r ↔ a ∈ l ∨ a ∈ r

theorem eval_append (p : α → Bool) : eval p (s ++ t) = (eval p s || eval p t) :=
  List.any_append

theorem mem_meet {c : List α} : c ∈ meet merge s t ↔ ∃ l ∈ s, ∃ r ∈ t, merge l r = c := by
  unfold meet
  rw [List.mem_flatMap]
  simp only [List.mem_map]

theorem eval_eq_true {p : α → Bool} : eval p s = true ↔ ∃ c ∈ s, ∀ a ∈ c, p a = true := by
  unfold eval
  simp only [List.any_eq_true, List.all_eq_true]

theorem eval_meet (hMerge : Merges merge) (p : α → Bool) :
    eval p (meet merge s t) = (eval p s && eval p t) := by
  rw [Bool.eq_iff_iff, Bool.and_eq_true, eval_eq_true, eval_eq_true, eval_eq_true]
  constructor
  · rintro ⟨c, hc, hAll⟩
    obtain ⟨l, hl, r, hr, rfl⟩ := mem_meet.mp hc
    exact ⟨⟨l, hl, fun a ha => hAll a ((hMerge l r a).mpr (.inl ha))⟩,
      ⟨r, hr, fun a ha => hAll a ((hMerge l r a).mpr (.inr ha))⟩⟩
  · rintro ⟨⟨l, hl, hL⟩, ⟨r, hr, hR⟩⟩
    refine ⟨merge l r, mem_meet.mpr ⟨l, hl, r, hr, rfl⟩, fun a ha => ?_⟩
    rcases (hMerge l r a).mp ha with ha | ha
    · exact hL a ha
    · exact hR a ha

theorem meet_ne_nil (hs : s ≠ []) (ht : t ≠ []) : meet merge s t ≠ [] := by
  obtain ⟨l, hl⟩ := List.exists_mem_of_ne_nil s hs
  obtain ⟨r, hr⟩ := List.exists_mem_of_ne_nil t ht
  exact List.ne_nil_of_mem (mem_meet.mpr ⟨l, hl, r, hr, rfl⟩)

theorem mentions_append {a : α} : Mentions (s ++ t) a ↔ Mentions s a ∨ Mentions t a := by
  unfold Mentions
  simp only [List.mem_append, or_and_right, exists_or]

/-- Where neither side is the empty disjunction, a conjunction mentions the atoms of both. -/
theorem mentions_meet (hMerge : Merges merge) (hs : s ≠ []) (ht : t ≠ []) {a : α} :
    Mentions (meet merge s t) a ↔ Mentions s a ∨ Mentions t a := by
  constructor
  · rintro ⟨c, hc, ha⟩
    obtain ⟨l, hl, r, hr, rfl⟩ := mem_meet.mp hc
    rcases (hMerge l r a).mp ha with ha | ha
    · exact .inl ⟨l, hl, ha⟩
    · exact .inr ⟨r, hr, ha⟩
  · rintro (⟨l, hl, ha⟩ | ⟨r, hr, ha⟩)
    · obtain ⟨r, hr⟩ := List.exists_mem_of_ne_nil t ht
      exact ⟨_, mem_meet.mpr ⟨l, hl, r, hr, rfl⟩, (hMerge l r a).mpr (.inl ha)⟩
    · obtain ⟨l, hl⟩ := List.exists_mem_of_ne_nil s hs
      exact ⟨_, mem_meet.mpr ⟨l, hl, r, hr, rfl⟩, (hMerge l r a).mpr (.inr ha)⟩

theorem nil_mem_append : [] ∈ s ++ t ↔ [] ∈ s ∨ [] ∈ t := List.mem_append

theorem merge_eq_nil (hMerge : Merges merge) {l r : List α} :
    merge l r = [] ↔ l = [] ∧ r = [] := by
  unfold Merges at hMerge
  simp only [List.eq_nil_iff_forall_not_mem, hMerge, not_or, forall_and]

theorem nil_mem_meet (hMerge : Merges merge) :
    [] ∈ meet merge s t ↔ [] ∈ s ∧ [] ∈ t := by
  rw [mem_meet]
  constructor
  · rintro ⟨l, hl, r, hr, hEmpty⟩
    obtain ⟨rfl, rfl⟩ := (merge_eq_nil hMerge).mp hEmpty
    exact ⟨hl, hr⟩
  · rintro ⟨hl, hr⟩
    exact ⟨[], hl, [], hr, (merge_eq_nil hMerge).mpr ⟨rfl, rfl⟩⟩

end Cubes

end MiniGU
