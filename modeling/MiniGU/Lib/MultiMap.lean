import Mathlib.Data.List.Perm.Basic

/-!
# Maps from keys to lists

A map that is filled with `entry(key).or_default().push(value)` holds, under each key, the values
pushed under it, in order (`getEntry_foldl`); all entries together hold each value once
(`entries_foldl_perm`). Keys are compared by an equivalence.
-/

namespace MiniGU

section MultiMap

variable {κ ν : Type}

/-- The value is pushed to those of its key. -/
def pushEntry (same : κ → κ → Bool) (key : κ) (v : ν) : List (κ × List ν) → List (κ × List ν)
  | [] => [(key, [v])]
  | (k, vs) :: table =>
    if same k key then (k, vs ++ [v]) :: table else (k, vs) :: pushEntry same key v table

/-- The values of a key; there are none where there is no entry. -/
def getEntry (same : κ → κ → Bool) (key : κ) (table : List (κ × List ν)) : List ν :=
  ((table.find? fun e => same e.1 key).map Prod.snd).getD []

section Lookup

variable {same : κ → κ → Bool} (hSame : Equivalence fun k k' => same k k' = true)

include hSame

/-- What is found under a key after one more value. -/
theorem getEntry_pushEntry (key k : κ) (v : ν) (table : List (κ × List ν)) :
    getEntry same k (pushEntry same key v table) =
      if same key k then getEntry same k table ++ [v] else getEntry same k table := by
  induction table with
  | nil =>
    cases hk : same key k <;> simp [pushEntry, getEntry, hk]
  | cons e table ih =>
    obtain ⟨k', vs⟩ := e
    unfold pushEntry
    cases hKey : same k' key with
    | true =>
      rw [if_pos rfl]
      cases hk : same k' k with
      | true =>
        have hBoth : same key k = true := hSame.trans (hSame.symm hKey) hk
        simp [getEntry, hk, hBoth]
      | false =>
        have hNot : same key k = false := by
          rw [Bool.eq_false_iff] at hk ⊢
          exact fun h => hk (hSame.trans hKey h)
        simp [getEntry, hk, hNot]
    | false =>
      rw [if_neg Bool.false_ne_true]
      cases hk : same k' k with
      | true =>
        have hNot : same key k = false := by
          rw [Bool.eq_false_iff] at hKey ⊢
          exact fun h => hKey (hSame.trans hk (hSame.symm h))
        simp [getEntry, hk, hNot]
      | false =>
        unfold getEntry at ih ⊢
        rw [List.find?_cons_of_neg (by simp [hk]), List.find?_cons_of_neg (by simp [hk]), ih]

/-- **Under each key** are the values that were pushed under it, in order. -/
theorem getEntry_foldl {α : Type} (key : α → κ) (value : α → ν) (l : List α) (k : κ)
    (table : List (κ × List ν)) :
    getEntry same k (l.foldl (fun t a => pushEntry same (key a) (value a) t) table) =
      getEntry same k table ++ (l.filter fun a => same (key a) k).map value := by
  induction l generalizing table with
  | nil => simp
  | cons a l ih =>
    rw [List.foldl_cons, ih, getEntry_pushEntry hSame, List.filter_cons]
    split
    · simp
    · rfl

end Lookup

/-- All values, each with its key. -/
def entries (table : List (κ × List ν)) : List (κ × ν) :=
  table.flatMap fun e => e.2.map fun v => (e.1, v)

theorem entries_pushEntry [DecidableEq κ] (key : κ) (v : ν) (table : List (κ × List ν)) :
    (entries (pushEntry (fun k k' => k == k') key v table)).Perm (entries table ++ [(key, v)]) := by
  induction table with
  | nil => exact List.Perm.refl _
  | cons e table ih =>
    obtain ⟨k, vs⟩ := e
    unfold pushEntry
    by_cases hKey : k = key
    · -- the value comes behind those of its key
      subst hKey
      simp only [beq_self_eq_true, if_true, entries, List.flatMap_cons, List.map_append,
        List.append_assoc]
      exact (List.perm_append_comm).append_left _
    · rw [if_neg (by simpa using hKey)]
      simp only [entries, List.flatMap_cons, List.append_assoc] at ih ⊢
      exact ih.append_left _

/-- **All together** the entries hold each value that was pushed. -/
theorem entries_foldl_perm [DecidableEq κ] (l : List (κ × ν)) :
    (entries (l.foldl (fun t a => pushEntry (fun k k' => k == k') a.1 a.2 t) [])).Perm l := by
  have hRun : ∀ (l : List (κ × ν)) (table : List (κ × List ν)),
      (entries (l.foldl (fun t a => pushEntry (fun k k' => k == k') a.1 a.2 t) table)).Perm
        (entries table ++ l) := by
    intro l
    induction l with
    | nil => intro table; simp
    | cons a l ih =>
      intro table
      rw [List.foldl_cons]
      refine (ih _).trans ?_
      refine ((entries_pushEntry a.1 a.2 table).append_right l).trans ?_
      rw [List.append_assoc]
      exact List.Perm.refl _
  exact hRun l []

/-- No key is without a value. -/
theorem foldl_pushEntry_ne_nil [DecidableEq κ] (l : List (κ × ν)) :
    ∀ e ∈ l.foldl (fun t a => pushEntry (fun k k' => k == k') a.1 a.2 t) [], e.2 ≠ [] := by
  have hPush : ∀ (key : κ) (v : ν) (table : List (κ × List ν)), (∀ e ∈ table, e.2 ≠ []) →
      ∀ e ∈ pushEntry (fun k k' => k == k') key v table, e.2 ≠ [] := by
    intro key v table
    induction table with
    | nil => intro _ e he; simp_all [pushEntry]
    | cons e table ih =>
      intro hTable
      unfold pushEntry
      split
      · exact List.forall_mem_cons.mpr ⟨by simp, (List.forall_mem_cons.mp hTable).2⟩
      · exact List.forall_mem_cons.mpr ⟨(List.forall_mem_cons.mp hTable).1,
          ih (List.forall_mem_cons.mp hTable).2⟩
  have hRun : ∀ (l : List (κ × ν)) (table : List (κ × List ν)), (∀ e ∈ table, e.2 ≠ []) →
      ∀ e ∈ l.foldl (fun t a => pushEntry (fun k k' => k == k') a.1 a.2 t) table, e.2 ≠ [] := by
    intro l
    induction l with
    | nil => exact fun _ h => h
    | cons a l ih => exact fun table h => ih _ (hPush a.1 a.2 table h)
  exact hRun l [] (by simp)

end MultiMap

end MiniGU
