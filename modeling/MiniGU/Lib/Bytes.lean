import Mathlib.Data.List.Basic
import Mathlib.Tactic.Ring

/-!
# Files of bytes

Numbers in little-endian bytes, and files that are written and read at an offset. A file is
reasoned about through `Holds f offset data`, which says that `data` stands at `offset`: a
write makes it true of what is written (`holds_writeAt`) and keeps it elsewhere
(`Holds.writeAt`), and a read gives what stands there (`readAt_eq_some`).

`applyWrites` runs a list of writes; a crash after `n` of them is `applyWrites` of the first
`n`.

## Serializations

A `Codec` writes values as bytes and reads them back. The one given here is the encoding
that postcard has for a `u64`: seven bits to a byte, the lowest first, with the high bit set
on all bytes but the last. As with postcard, bytes after the value are not looked at.
-/

namespace MiniGU

/-! ## Numbers -/

/-- The `w` low bytes of `n`, the lowest first. -/
def leBytes : Nat → Nat → List UInt8
  | 0, _ => []
  | w + 1, n => UInt8.ofNat n :: leBytes w (n / 256)

def ofLeBytes : List UInt8 → Nat
  | [] => 0
  | b :: bs => b.toNat + 256 * ofLeBytes bs

@[simp] theorem length_leBytes (w n : Nat) : (leBytes w n).length = w := by
  induction w generalizing n with
  | zero => rfl
  | succ w ih => simp [leBytes, ih]

theorem ofLeBytes_leBytes (w n : Nat) : ofLeBytes (leBytes w n) = n % 256 ^ w := by
  induction w generalizing n with
  | zero => simp [leBytes, ofLeBytes, Nat.mod_one]
  | succ w ih =>
    have hHead : (UInt8.ofNat n).toNat = n % 256 := UInt8.toNat_ofNat'
    rw [leBytes, ofLeBytes, ih, hHead, Nat.pow_succ', Nat.mod_mul]

theorem ofLeBytes_leBytes_of_lt {w n : Nat} (h : n < 256 ^ w) : ofLeBytes (leBytes w n) = n := by
  rw [ofLeBytes_leBytes, Nat.mod_eq_of_lt h]

/-! ## Reading and writing -/

/-- Write `data` at `offset`; a gap after the end is filled with zeros. -/
def writeAt (f : List UInt8) (offset : Nat) (data : List UInt8) : List UInt8 :=
  if data.isEmpty then f
  else f.take offset ++ List.replicate (offset - f.length) 0 ++ data ++ f.drop (offset + data.length)

/-- Read exactly `n` bytes at `offset`. -/
def readAt (f : List UInt8) (offset n : Nat) : Option (List UInt8) :=
  let data := (f.drop offset).take n
  if data.length = n then some data else none

/-- `data` stands at `offset`. -/
def Holds (f : List UInt8) (offset : Nat) (data : List UInt8) : Prop :=
  ∀ i, i < data.length → f[offset + i]? = data[i]?

variable {f : List UInt8} {offset n : Nat} {data : List UInt8}

theorem Holds.length_le (h : Holds f offset data) (hne : data ≠ []) :
    offset + data.length ≤ f.length := by
  have hPos : 0 < data.length := List.length_pos_iff.mpr hne
  have hLast := h (data.length - 1) (by omega)
  rw [List.getElem?_eq_getElem (by omega : data.length - 1 < data.length)] at hLast
  have hLt := (List.getElem?_eq_some_iff.mp hLast).1
  omega

theorem holds_nil : Holds f offset [] := by
  intro i hi
  simp at hi

theorem holds_append {a b : List UInt8} :
    Holds f offset (a ++ b) ↔ Holds f offset a ∧ Holds f (offset + a.length) b := by
  constructor
  · intro h
    refine ⟨fun i hi => ?_, fun i hi => ?_⟩
    · rw [h i (by simp; omega), List.getElem?_append_left hi]
    · have hAt := h (a.length + i) (by simp; omega)
      rw [List.getElem?_append_right (by omega), Nat.add_sub_cancel_left] at hAt
      rw [Nat.add_assoc]
      exact hAt
  · rintro ⟨hA, hB⟩ i hi
    by_cases hLt : i < a.length
    · rw [hA i hLt, List.getElem?_append_left hLt]
    · have hAt := hB (i - a.length) (by simp at hi; omega)
      rw [List.getElem?_append_right (by omega), ← hAt]
      congr 1
      omega

/-- **A read gives what stands there.** -/
theorem readAt_eq_some : readAt f offset n = some data ↔ data.length = n ∧ Holds f offset data := by
  unfold readAt Holds
  dsimp only
  constructor
  · intro h
    split at h
    · rename_i hLen
      obtain rfl := Option.some.inj h
      refine ⟨hLen, fun i hi => ?_⟩
      rw [List.getElem?_take_of_lt (by omega), List.getElem?_drop]
    · cases h
  · rintro ⟨hLen, hAt⟩
    have hEq : (f.drop offset).take n = data := by
      refine List.ext_getElem? fun i => ?_
      by_cases hi : i < n
      · rw [List.getElem?_take_of_lt hi, List.getElem?_drop, hAt i (by omega)]
      · rw [List.getElem?_eq_none (by simp; omega), List.getElem?_eq_none (by omega)]
    rw [hEq, if_pos hLen]

theorem getElem?_writeAt_of_lt {i : Nat} (hi : i < data.length) :
    (writeAt f offset data)[offset + i]? = data[i]? := by
  have hne : data.isEmpty = false := by
    cases data with
    | nil => simp at hi
    | cons b bs => rfl
  unfold writeAt
  rw [hne]
  have hLen : (f.take offset ++ List.replicate (offset - f.length) 0).length = offset := by
    simp
    omega
  simp only [Bool.false_eq_true, if_false]
  rw [List.append_assoc _ data, List.getElem?_append_right (by omega), hLen,
    Nat.add_sub_cancel_left, List.getElem?_append_left hi]

theorem getElem?_writeAt_of_out {j : Nat} {b : UInt8} (h : f[j]? = some b)
    (hOut : j < offset ∨ offset + data.length ≤ j) : (writeAt f offset data)[j]? = some b := by
  have hj : j < f.length := (List.getElem?_eq_some_iff.mp h).1
  unfold writeAt
  split
  · exact h
  · rcases hOut with hLt | hGe
    · have hTake : (f.take offset)[j]? = some b := by rw [List.getElem?_take_of_lt hLt, h]
      have hjT : j < (f.take offset).length := (List.getElem?_eq_some_iff.mp hTake).1
      rw [List.append_assoc, List.append_assoc, List.getElem?_append_left hjT]
      exact hTake
    · have hLen : (f.take offset ++ List.replicate (offset - f.length) 0 ++ data).length =
          offset + data.length := by
        simp
        omega
      rw [List.getElem?_append_right (by omega), hLen, List.getElem?_drop, ← h]
      congr 1
      omega

theorem holds_writeAt : Holds (writeAt f offset data) offset data :=
  fun _ hi => getElem?_writeAt_of_lt hi

/-- **A write keeps what stands elsewhere.** -/
theorem Holds.writeAt {offset' : Nat} {data' : List UInt8} (h : Holds f offset data)
    (hOut : offset + data.length ≤ offset' ∨ offset' + data'.length ≤ offset) :
    Holds (writeAt f offset' data') offset data := by
  intro i hi
  have hAt := h i hi
  rw [List.getElem?_eq_getElem hi] at hAt ⊢
  exact getElem?_writeAt_of_out hAt (by omega)

/-- A write keeps what comes after it. -/
theorem drop_writeAt {start : Nat}
    (hAfter : offset + data.length ≤ start) : (writeAt f offset data).drop start = f.drop start := by
  unfold writeAt
  split
  · rfl
  · have hLen : (f.take offset ++ List.replicate (offset - f.length) 0 ++ data).length =
        offset + data.length := by
      simp
      omega
    rw [List.drop_append, hLen, List.drop_of_length_le (by omega), List.nil_append, List.drop_drop]
    congr 1
    omega

theorem length_le_writeAt : f.length ≤ (writeAt f offset data).length := by
  unfold writeAt
  split
  · exact Nat.le_refl _
  · simp
    omega

/-! ## Lists of writes -/

/-- One call that writes to the file. -/
structure Write where
  offset : Nat
  data : List UInt8
deriving DecidableEq, Repr

def applyWrites (f : List UInt8) (ws : List Write) : List UInt8 :=
  ws.foldl (fun f w => writeAt f w.offset w.data) f

/-- Writes one after the other, the first at `offset`. -/
def consecutive : Nat → List (List UInt8) → List Write
  | _, [] => []
  | offset, part :: parts => ⟨offset, part⟩ :: consecutive (offset + part.length) parts

@[simp] theorem applyWrites_nil : applyWrites f [] = f := rfl

theorem applyWrites_append (ws ws' : List Write) :
    applyWrites f (ws ++ ws') = applyWrites (applyWrites f ws) ws' :=
  List.foldl_append ..

theorem length_le_applyWrites (ws : List Write) : f.length ≤ (applyWrites f ws).length := by
  induction ws generalizing f with
  | nil => exact Nat.le_refl _
  | cons w ws ih => exact Nat.le_trans length_le_writeAt ih

@[simp] theorem length_consecutive (parts : List (List UInt8)) :
    (consecutive offset parts).length = parts.length := by
  induction parts generalizing offset with
  | nil => rfl
  | cons part parts ih => simp [consecutive, ih]

theorem take_consecutive (parts : List (List UInt8)) (n : Nat) :
    (consecutive offset parts).take n = consecutive offset (parts.take n) := by
  induction parts generalizing offset n with
  | nil => simp [consecutive]
  | cons part parts ih =>
    cases n with
    | zero => rfl
    | succ n => simp [consecutive, ih]

variable {parts : List (List UInt8)}

theorem drop_applyWrites {start : Nat}
    (hAfter : offset + parts.flatten.length ≤ start) :
    (applyWrites f (consecutive offset parts)).drop start = f.drop start := by
  induction parts generalizing f offset with
  | nil => rfl
  | cons part parts ih =>
    rw [List.flatten_cons, List.length_append] at hAfter
    have hRest := @ih (writeAt f offset part) (offset + part.length) (by omega)
    show (applyWrites (writeAt f offset part) _).drop start = _
    rw [hRest]
    exact drop_writeAt (by omega)

theorem length_flatten_take_le (parts : List (List UInt8)) (n : Nat) :
    (parts.take n).flatten.length ≤ parts.flatten.length := by
  conv_rhs => rw [← List.take_append_drop n parts, List.flatten_append, List.length_append]
  exact Nat.le_add_right ..

/-- Consecutive writes end where their parts end. -/
theorem consecutive_end {w : Write} (hw : w ∈ consecutive offset parts) :
    w.offset + w.data.length ≤ offset + parts.flatten.length := by
  induction parts generalizing offset with
  | nil => simp [consecutive] at hw
  | cons part parts ih =>
    rw [List.flatten_cons, List.length_append]
    rcases List.mem_cons.mp hw with rfl | hw
    · dsimp only
      omega
    · have hRest := ih hw
      omega

/-- **Consecutive writes keep what stands elsewhere.** -/
theorem Holds.applyWrites {offset' : Nat} (h : Holds f offset data)
    (hOut : offset + data.length ≤ offset' ∨ offset' + parts.flatten.length ≤ offset) :
    Holds (MiniGU.applyWrites f (consecutive offset' parts)) offset data := by
  induction parts generalizing f offset' with
  | nil => exact h
  | cons part parts ih =>
    rw [List.flatten_cons, List.length_append] at hOut
    have hPart : Holds (MiniGU.writeAt f offset' part) offset data := h.writeAt (by omega)
    exact ih hPart (by omega)

/-- **Consecutive writes leave what they have written.** -/
theorem holds_consecutive : Holds (applyWrites f (consecutive offset parts)) offset parts.flatten := by
  induction parts generalizing f offset with
  | nil => exact holds_nil
  | cons part parts ih =>
    rw [List.flatten_cons, holds_append]
    have hPart : Holds (writeAt f offset part) offset part := holds_writeAt
    exact ⟨hPart.applyWrites (.inl (Nat.le_refl _)), ih⟩

/-- **A crash among consecutive writes** over parts of the same lengths: the first are new,
the others are old. -/
theorem Holds.crash {old new : List (List UInt8)} (h : Holds f offset old.flatten)
    (hLen : old.map List.length = new.map List.length) (n : Nat) :
    Holds (MiniGU.applyWrites f (consecutive offset (new.take n))) offset
      (new.take n ++ old.drop n).flatten := by
  have hTake : (new.take n).flatten.length = (old.take n).flatten.length := by
    rw [List.length_flatten, List.length_flatten, List.map_take, List.map_take, hLen]
  rw [← List.take_append_drop n old, List.flatten_append, holds_append] at h
  rw [List.flatten_append, holds_append, hTake]
  exact ⟨holds_consecutive, h.2.applyWrites (.inr (Nat.le_of_eq (by rw [hTake])))⟩

/-! ## Serializations -/

/-- A serialization that can be read back. -/
structure Codec (α : Type) where
  toBytes : α → List UInt8
  fromBytes : List UInt8 → Option α
  fromBytes_toBytes : ∀ a, fromBytes (toBytes a) = some a

/-- The encoding of `n` in at most `w` bytes. -/
def varint : Nat → Nat → List UInt8
  | 0, _ => []
  | w + 1, n =>
    if n < 128 then [UInt8.ofNat n] else UInt8.ofNat (n % 128 + 128) :: varint w (n / 128)

def ofVarint : Nat → List UInt8 → Option Nat
  | 0, _ => none
  | _ + 1, [] => none
  | w + 1, b :: bs =>
    if b.toNat < 128 then some b.toNat else (ofVarint w bs).map fun n => b.toNat - 128 + 128 * n

theorem ofVarint_varint {w n : Nat} (hw : 0 < w) (h : n < 128 ^ w) :
    ofVarint w (varint w n) = some n := by
  induction w generalizing n with
  | zero => omega
  | succ w ih =>
    unfold varint
    split
    · rename_i hSmall
      have hByte : (UInt8.ofNat n).toNat = n := by
        rw [UInt8.toNat_ofNat']
        omega
      unfold ofVarint
      rw [hByte, if_pos hSmall]
    · rename_i hLarge
      have hByte : (UInt8.ofNat (n % 128 + 128)).toNat = n % 128 + 128 := by
        rw [UInt8.toNat_ofNat']
        omega
      have hRest : n / 128 < 128 ^ w := by
        rw [Nat.pow_succ] at h
        omega
      have hPos : 0 < w := by
        rcases Nat.eq_zero_or_pos w with rfl | hPos
        · omega
        · exact hPos
      unfold ofVarint
      rw [hByte, if_neg (by omega), ih hPos hRest, Option.map_some]
      congr 1
      omega

/-- The codec of `u64`. -/
def u64Codec : Codec (Fin (256 ^ 8)) where
  toBytes n := varint 10 n.val
  fromBytes bs := (ofVarint 10 bs).bind fun n => if h : n < 256 ^ 8 then some ⟨n, h⟩ else none
  fromBytes_toBytes n := by
    have hLt : n.val < 128 ^ 10 := Nat.lt_trans n.isLt (by decide)
    rw [ofVarint_varint (by decide) hLt, Option.bind_some, dif_pos n.isLt]

end MiniGU
