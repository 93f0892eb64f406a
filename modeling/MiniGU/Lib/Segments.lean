import Mathlib.Algebra.GroupWithZero.Nat
import Mathlib.Data.List.Nodup
import Mathlib.Data.List.SplitLengths

/-!
# Lists cut into segments and selected from by a mask

`selectBy l mask` keeps the elements of `l` whose bit is set. Selecting from each segment of a list
is cutting the selection, by as many elements as there are bits set in each segment of the mask
(`zipWith_selectBy_splitLengths`). Two lists are cut into the same segments when they begin alike
(`splitLengths_eq_iff`), and segments between offsets are those of their lengths
(`segments_eq_splitLengths`).
-/

namespace MiniGU

variable {α β : Type}

/-! ## Selecting -/

def selectBy (l : List α) (mask : List Bool) : List α := ((l.zip mask).filter Prod.snd).map Prod.fst

theorem selectBy_append {l : List α} {mask : List Bool} (h : l.length = mask.length)
    (l' : List α) (mask' : List Bool) :
    selectBy (l ++ l') (mask ++ mask') = selectBy l mask ++ selectBy l' mask' := by
  unfold selectBy
  rw [List.zip_append h, List.filter_append, List.map_append]

theorem length_selectBy {l : List α} {mask : List Bool} (h : mask.length ≤ l.length) :
    (selectBy l mask).length = mask.count true := by
  unfold selectBy
  rw [List.length_map, ← List.countP_eq_length_filter]
  have hMask : mask = (l.zip mask).map Prod.snd := (List.map_snd_zip h).symm
  conv_rhs => rw [hMask]
  rw [List.count, List.countP_map]
  refine List.countP_congr fun p _ => ?_
  simp

theorem selectBy_map (f : α → β) (l : List α) (mask : List Bool) :
    selectBy (l.map f) mask = (selectBy l mask).map f := by
  unfold selectBy
  rw [List.zip_map_left, List.filter_map, List.map_map, List.map_map]
  rfl

/-! ## Segments of given lengths -/

theorem splitLengths_take (ls : List Nat) (l : List α) :
    ls.splitLengths (l.take ls.sum) = ls.splitLengths l := by
  induction ls generalizing l with
  | nil => rfl
  | cons n ls ih =>
    have hTail : (l.take (n + ls.sum)).drop n = (l.drop n).take ls.sum := by
      rw [List.drop_take, Nat.add_sub_cancel_left]
    rw [List.splitLengths_cons, List.splitLengths_cons, List.sum_cons, hTail, ih, List.take_take,
      Nat.min_eq_left (Nat.le_add_right n ls.sum)]

/-- The segments say how the list begins, and no more. -/
theorem splitLengths_eq_iff {ls : List Nat} {l l' : List α} :
    ls.splitLengths l = ls.splitLengths l' ↔ l.take ls.sum = l'.take ls.sum := by
  constructor
  · intro h
    have hFlat : ∀ m : List α, (ls.splitLengths m).flatten = m.take ls.sum := by
      intro m
      rw [← splitLengths_take, List.flatten_splitLengths]
      exact List.length_take_le ..
    rw [← hFlat l, ← hFlat l', h]
  · intro h
    rw [← splitLengths_take ls l, h, splitLengths_take]

/-- **Selecting from the segments** is cutting the selection. -/
theorem zipWith_selectBy_splitLengths {ls : List Nat} {l : List α} {mask : List Bool}
    (hl : ls.sum ≤ l.length) (hMask : ls.sum ≤ mask.length) :
    List.zipWith selectBy (ls.splitLengths l) (ls.splitLengths mask) =
      ((ls.splitLengths mask).map (List.count true)).splitLengths (selectBy l mask) := by
  induction ls generalizing l mask with
  | nil => rfl
  | cons n ls ih =>
    rw [List.sum_cons] at hl hMask
    have hHead : (l.take n).length = (mask.take n).length := by
      rw [List.length_take, List.length_take]
      omega
    have hWhole : selectBy l mask =
        selectBy (l.take n) (mask.take n) ++ selectBy (l.drop n) (mask.drop n) := by
      rw [← selectBy_append hHead, List.take_append_drop, List.take_append_drop]
    have hCount : (selectBy (l.take n) (mask.take n)).length = (mask.take n).count true :=
      length_selectBy (by omega)
    have hRoom : ls.sum ≤ (l.drop n).length := by
      rw [List.length_drop]
      omega
    have hMaskRoom : ls.sum ≤ (mask.drop n).length := by
      rw [List.length_drop]
      omega
    have hTail := ih hRoom hMaskRoom
    rw [List.splitLengths_cons, List.splitLengths_cons, List.zipWith_cons_cons, List.map_cons,
      List.splitLengths_cons, hWhole, List.take_left' hCount, List.drop_left' hCount, hTail]

/-- The bits of a mask that are counted are among all of them. -/
theorem sum_count_splitLengths_le (ls : List Nat) (mask : List Bool) :
    ((ls.splitLengths mask).map (List.count true)).sum ≤ mask.count true := by
  induction ls generalizing mask with
  | nil => exact Nat.zero_le _
  | cons n ls ih =>
    have hSplit : mask.count true = (mask.take n).count true + (mask.drop n).count true := by
      rw [← List.count_append, List.take_append_drop]
    have hTail := ih (mask.drop n)
    rw [List.splitLengths_cons, List.map_cons, List.sum_cons]
    omega

/-! ## Segments between offsets -/

/-- What stands between each offset and the next. -/
def segments (l : List α) : List Nat → List (List α)
  | start :: stop :: rest => (l.take stop).drop start :: segments l (stop :: rest)
  | _ => []

/-- The distance of each offset to the next. -/
def gaps : List Nat → List Nat
  | start :: stop :: rest => (stop - start) :: gaps (stop :: rest)
  | _ => []

/-- Offsets for segments of given lengths. -/
def offsetsFrom (start : Nat) : List Nat → List Nat
  | [] => [start]
  | n :: ns => start :: offsetsFrom (start + n) ns

theorem length_segments (l : List α) (offsets : List Nat) :
    (segments l offsets).length = offsets.length - 1 := by
  induction offsets with
  | nil => rfl
  | cons start offsets ih =>
    cases offsets with
    | nil => rfl
    | cons stop rest =>
      unfold segments
      rw [List.length_cons, ih, List.length_cons, List.length_cons, List.length_cons]
      omega

theorem getElem?_segments (l : List α) {offsets : List Nat} {i start stop : Nat}
    (hStart : offsets[i]? = some start) (hStop : offsets[i + 1]? = some stop) :
    (segments l offsets)[i]? = some ((l.take stop).drop start) := by
  induction offsets generalizing i with
  | nil => cases hStart
  | cons first offsets ih =>
    cases offsets with
    | nil => cases hStop
    | cons second rest =>
      cases i with
      | zero =>
        obtain rfl : first = start := Option.some.inj hStart
        obtain rfl : second = stop := Option.some.inj hStop
        rfl
      | succ i => exact ih hStart hStop

/-- **Segments between offsets** are those of their gaps, from the first offset on. -/
theorem segments_eq_splitLengths (l : List α) {start : Nat} {rest : List Nat}
    (hSorted : (start :: rest).Pairwise (· ≤ ·)) :
    segments l (start :: rest) = (gaps (start :: rest)).splitLengths (l.drop start) := by
  induction rest generalizing start with
  | nil => rfl
  | cons stop rest ih =>
    obtain ⟨hFirst, hRest⟩ := List.pairwise_cons.mp hSorted
    have hLe : start ≤ stop := hFirst stop List.mem_cons_self
    unfold segments gaps
    rw [List.splitLengths_cons, ih hRest, List.drop_take, List.drop_drop, Nat.add_sub_cancel' hLe]

/-- The gaps go from the first offset to the last. -/
theorem sum_gaps_le {n start : Nat} {rest : List Nat} (hSorted : (start :: rest).Pairwise (· ≤ ·))
    (hBound : ∀ o ∈ start :: rest, o ≤ n) : start + (gaps (start :: rest)).sum ≤ n := by
  induction rest generalizing start with
  | nil => exact hBound start List.mem_cons_self
  | cons stop rest ih =>
    obtain ⟨hFirst, hRest⟩ := List.pairwise_cons.mp hSorted
    have hLe : start ≤ stop := hFirst stop List.mem_cons_self
    have hTail := ih hRest fun o ho => hBound o (List.mem_cons_of_mem _ ho)
    unfold gaps
    rw [List.sum_cons]
    omega

theorem gaps_offsetsFrom (start : Nat) (ns : List Nat) : gaps (offsetsFrom start ns) = ns := by
  induction ns generalizing start with
  | nil => rfl
  | cons n ns ih =>
    have hTail := ih (start + n)
    cases ns with
    | nil =>
      show [start + n - start] = [n]
      rw [Nat.add_sub_cancel_left]
    | cons n' ns =>
      show (start + n - start) :: gaps (offsetsFrom (start + n) (n' :: ns)) = _
      rw [hTail, Nat.add_sub_cancel_left]

theorem length_offsetsFrom (start : Nat) (ns : List Nat) :
    (offsetsFrom start ns).length = ns.length + 1 := by
  induction ns generalizing start with
  | nil => rfl
  | cons n ns ih =>
    unfold offsetsFrom
    rw [List.length_cons, ih, List.length_cons]

theorem offsetsFrom_cons (start : Nat) (ns : List Nat) :
    ∃ rest, offsetsFrom start ns = start :: rest := by
  cases ns with
  | nil => exact ⟨[], rfl⟩
  | cons n ns => exact ⟨_, rfl⟩

theorem mem_offsetsFrom {start o : Nat} {ns : List Nat} (h : o ∈ offsetsFrom start ns) :
    start ≤ o ∧ o ≤ start + ns.sum := by
  induction ns generalizing start with
  | nil =>
    obtain rfl := List.mem_singleton.mp h
    exact ⟨Nat.le_refl _, Nat.le_refl _⟩
  | cons n ns ih =>
    rw [List.sum_cons]
    rcases List.mem_cons.mp h with rfl | h
    · exact ⟨Nat.le_refl _, Nat.le_add_right ..⟩
    · have hTail := ih h
      omega

theorem pairwise_offsetsFrom (start : Nat) (ns : List Nat) :
    (offsetsFrom start ns).Pairwise (· ≤ ·) := by
  induction ns generalizing start with
  | nil => exact List.pairwise_singleton _ _
  | cons n ns ih =>
    refine List.pairwise_cons.mpr ⟨fun o ho => ?_, ih _⟩
    have hLe := (mem_offsetsFrom ho).1
    omega

/-! ## Elements and their positions -/

theorem map_some_eq_range (l : List α) :
    l.map some = (List.range l.length).map fun i => l[i]? := by
  refine List.ext_getElem (by simp) fun i hi hi' => ?_
  simp

end MiniGU
