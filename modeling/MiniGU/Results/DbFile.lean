import MiniGU.Invariant.DbLayout
import MiniGU.Lib.Collect

/-!
# The database file keeps a checkpoint and a log

The calls of `DbFile` refine an abstract pair: the last checkpoint, and the entries appended
since then that no truncation has removed. Checkpoints of any size over each other,
truncations that write the log anew and reopening come in any order.

## The codec of the header

`read_from` checks the magic bytes, the version and the checksum, but not `header_size`, which
`write_to` takes for the length of its padding.
-/

namespace MiniGU

variable {E C : Type}

/-- The abstract file. -/
structure DbState (E C : Type) where
  checkpoint : Option C
  log : List E

inductive DbCall (E C : Type) where
  | appendWal (e : E)
  | truncateWalUntil (minLsn : Nat)
  | writeCheckpoint (c : C)
  | reopen

namespace DbCall

/-- The payload is shorter than `2^32` bytes. -/
def Short (F : DbFormat E C) : DbCall E C → Prop
  | .appendWal e => (F.entry.toBytes e).length < 256 ^ 4
  | .writeCheckpoint c => (F.checkpoint.toBytes c).length < 256 ^ 4
  | _ => True

/-- The bytes of the record that a call writes. -/
def recordSize (F : DbFormat E C) : DbCall E C → Nat
  | .appendWal e => recordHeaderSize + (F.entry.toBytes e).length
  | .writeCheckpoint c => recordHeaderSize + (F.checkpoint.toBytes c).length
  | _ => 0

end DbCall

/-- The abstract meaning of a call. -/
def DbState.step (F : DbFormat E C) (s : DbState E C) : DbCall E C → DbState E C
  | .appendWal e => { s with log := s.log ++ [e] }
  | .truncateWalUntil minLsn => { s with log := s.log.filter fun e => decide (minLsn ≤ F.lsn e) }
  | .writeCheckpoint c => ⟨some c, []⟩
  | .reopen => s

namespace DbFile

variable {F : DbFormat E C} {db db' : DbFile} {cp : Option C} {ws : List E}

/-- One call. -/
def exec (F : DbFormat E C) (db : DbFile) : DbCall E C → Except DbFileError DbFile
  | .appendWal e => db.perform (db.appendWal F e)
  | .truncateWalUntil minLsn => (db.truncateWalUntil F minLsn).map Prod.fst
  | .writeCheckpoint c => db.perform (db.writeCheckpoint F c)
  | .reopen => openFile db.file

def execAll (F : DbFormat E C) (db : DbFile) : List (DbCall E C) → Except DbFileError DbFile
  | [] => .ok db
  | call :: calls => do
    let db ← db.exec F call
    execAll F db calls

/-- The file represents the abstract one, within `budget` bytes. -/
def Represents (F : DbFormat E C) (budget : Nat) (db : DbFile) (s : DbState E C) : Prop :=
  ∃ ws, Layout F db s.checkpoint ws ∧ sortByKey F.lsn ws = sortByKey F.lsn s.log ∧
    db.header.walOffset + db.header.walLength ≤ budget

/-! ## When a call goes through -/

theorem perform_record {h : DbFileHeader} {offset : Nat} {payload : List UInt8}
    (hr : h.InRange) (hs : h.Standard)
    (hFits : offset + (recordHeaderSize + payload.length) ≤ maxFileSize) :
    ∃ db', db.perform ⟨consecutive offset (recordParts payload) ++ h.writeTo, h⟩ = .ok db' := by
  refine ⟨_, perform_of_fits fun w hw => ?_⟩
  rcases List.mem_append.mp hw with hRec | hHead
  · have hEnd := consecutive_end hRec
    have hLen : (recordParts payload).flatten.length = recordHeaderSize + payload.length :=
      length_recordBytes
    omega
  · exact writeTo_fits hr hs hHead

theorem perform_error {u : Update} {err : DbFileError} (h : db.perform u = .error err) :
    err = .fileTooLarge := by
  unfold perform at h
  split at h
  · cases h
  · exact (Except.error.inj h).symm

theorem Layout.appendAll_ok (h : Layout F db cp ws) {es : List E}
    (hShort : ∀ e ∈ es, (F.entry.toBytes e).length < 256 ^ 4)
    (hFits : db.header.walOffset + db.header.walLength + (logBytes F es).length ≤ maxFileSize) :
    ∃ db', db.appendAll F es = .ok db' := by
  induction es generalizing db ws with
  | nil => exact ⟨db, rfl⟩
  | cons e es ih =>
    have hLog : (logBytes F (e :: es)).length =
        recordHeaderSize + (F.entry.toBytes e).length + (logBytes F es).length := by
      rw [show logBytes F (e :: es) = recordBytes (F.entry.toBytes e) ++ logBytes F es from rfl,
        List.length_append, length_recordBytes]
    have hRec : db.header.walOffset + db.header.walLength +
        (recordHeaderSize + (F.entry.toBytes e).length) ≤ maxFileSize := by omega
    obtain ⟨hr, hs⟩ := h.header_appendWal (hShort e List.mem_cons_self)
    obtain ⟨db₁, hOk⟩ : ∃ db₁, db.perform (db.appendWal F e) = .ok db₁ :=
      perform_record hr hs hRec
    have hNext : Layout F db₁ cp (ws ++ [e]) := h.appendWal (hShort e List.mem_cons_self) hOk
    obtain ⟨-, rfl⟩ := perform_ok hOk
    obtain ⟨db₂, hAll⟩ := ih hNext (fun e' he' => hShort e' (List.mem_cons_of_mem _ he')) (by
      show db.header.walOffset + (db.header.walLength +
        (recordHeaderSize + (F.entry.toBytes e).length)) + _ ≤ maxFileSize
      omega)
    refine ⟨db₂, ?_⟩
    unfold DbFile.appendAll
    rw [show db.perform (db.appendWal F e) = _ from hOk]
    exact hAll

theorem length_logBytes_filter (p : E → Bool) (ws : List E) :
    (logBytes F (ws.filter p)).length ≤ (logBytes F ws).length := by
  induction ws with
  | nil => exact Nat.le_refl _
  | cons e ws ih =>
    have hCons : ∀ es, logBytes F (e :: es) = recordBytes (F.entry.toBytes e) ++ logBytes F es :=
      fun _ => rfl
    rw [List.filter_cons, hCons ws, List.length_append]
    split
    · rw [hCons, List.length_append]
      omega
    · omega

theorem length_logBytes_sort (ws : List E) :
    (logBytes F (sortByKey F.lsn ws)).length = (logBytes F ws).length := by
  have hPerm : (sortByKey F.lsn ws).Perm ws := List.perm_insertionSort _ ws
  exact ((hPerm.map fun e => recordBytes (F.entry.toBytes e)).flatten).length_eq

theorem Layout.truncateWalUntil_ok (h : Layout F db cp ws) (minLsn : Nat) :
    ∃ db' removed, db.truncateWalUntil F minLsn = .ok (db', removed) ∧
      db'.header.walOffset + db'.header.walLength ≤ db.header.walOffset + db.header.walLength := by
  unfold DbFile.truncateWalUntil
  rw [h.readWalEntries]
  dsimp only [bind, Except.bind, pure, Except.pure]
  split
  · exact ⟨db, 0, rfl, Nat.le_refl _⟩
  · rw [← sortByKey_filter]
    generalize hRet : sortByKey F.lsn (ws.filter fun e => decide (minLsn ≤ F.lsn e)) = retained
    have hShort : ∀ e ∈ retained, (F.entry.toBytes e).length < 256 ^ 4 := by
      intro e he
      rw [← hRet, mem_sortByKey] at he
      exact h.short e (List.mem_filter.mp he).1
    have hLen : (logBytes F retained).length ≤ db.header.walLength := by
      rw [← hRet, length_logBytes_sort, h.walLength]
      exact length_logBytes_filter _ ws
    obtain ⟨hr, hs⟩ := h.header_resetWal retained
    have hReset : db.perform (db.resetWal retained) = _ :=
      perform_of_fits fun w hw => writeTo_fits hr hs hw
    have hLayout := h.resetWal retained hReset
    have hFits := h.fits
    obtain ⟨db₂, hAll⟩ := hLayout.appendAll_ok hShort (by
      show db.header.walOffset + 0 + _ ≤ maxFileSize
      omega)
    refine ⟨db₂, (sortByKey F.lsn ws).length - retained.length, ?_, ?_⟩
    · rw [hReset]
      dsimp only
      rw [hAll]
    · have hEnd := hLayout.appendAll hShort hAll
      have hOff := hEnd.walOffset
      have hCp := hEnd.checkpointLength
      rw [hEnd.walLength, List.nil_append, hOff, hCp, h.walOffset, h.checkpointLength]
      omega

/-! ## Refinement -/

variable {budget : Nat} {s : DbState E C}

/-- **One call**: it goes through and the file represents the abstract step, or it fails
because the file would be too large. -/
theorem Represents.exec (h : Represents F budget db s) {call : DbCall E C}
    (hShort : call.Short F) :
    (∃ db', db.exec F call = .ok db' ∧
      Represents F (budget + call.recordSize F) db' (s.step F call)) ∨
    (db.exec F call = .error .fileTooLarge ∧ maxFileSize < budget + call.recordSize F) := by
  obtain ⟨ws, hLayout, hSort, hBudget⟩ := h
  cases call with
  | appendWal e =>
    by_cases hFits : db.header.walOffset + db.header.walLength +
        (recordHeaderSize + (F.entry.toBytes e).length) ≤ maxFileSize
    · obtain ⟨hr, hs⟩ := hLayout.header_appendWal hShort
      obtain ⟨db₁, hOk⟩ : ∃ db₁, db.perform (db.appendWal F e) = .ok db₁ :=
        perform_record hr hs hFits
      refine .inl ⟨db₁, hOk, ws ++ [e], hLayout.appendWal hShort hOk,
        sortByKey_append_congr hSort _, ?_⟩
      obtain ⟨-, rfl⟩ := perform_ok hOk
      show db.header.walOffset + (db.header.walLength +
        (recordHeaderSize + (F.entry.toBytes e).length)) ≤ budget + _
      dsimp only [DbCall.recordSize]
      omega
    · refine .inr ⟨?_, ?_⟩
      · cases hRes : db.perform (db.appendWal F e) with
        | ok db₁ =>
          exact absurd (record_fits fun w hw =>
            (perform_ok hRes).1 w (List.mem_append_left _ hw)) hFits
        | error err =>
          rw [perform_error hRes] at hRes
          exact hRes
      · dsimp only [DbCall.recordSize]
        omega
  | truncateWalUntil minLsn =>
    obtain ⟨db₁, removed, hOk, hLe⟩ := hLayout.truncateWalUntil_ok minLsn
    obtain ⟨ws', hLayout', hSort'⟩ := hLayout.truncateWalUntil hOk
    refine .inl ⟨db₁, ?_, ws', hLayout', ?_, by omega⟩
    · show (db.truncateWalUntil F minLsn).map Prod.fst = _
      rw [hOk]
      rfl
    · show _ = sortByKey F.lsn (s.log.filter fun e => decide (minLsn ≤ F.lsn e))
      rw [hSort', sortByKey_filter, hSort, sortByKey_filter]
  | writeCheckpoint c =>
    by_cases hFits : headerSize + (recordHeaderSize + (F.checkpoint.toBytes c).length) ≤ maxFileSize
    · obtain ⟨hr, hs⟩ := hLayout.header_writeCheckpoint hShort
      obtain ⟨db₁, hOk⟩ : ∃ db₁, db.perform (db.writeCheckpoint F c) = .ok db₁ :=
        perform_record hr hs (by rw [hLayout.standard.checkpointOffset]; exact hFits)
      refine .inl ⟨db₁, hOk, [], hLayout.writeCheckpoint hShort hOk, rfl, ?_⟩
      obtain ⟨-, rfl⟩ := perform_ok hOk
      have hOff := hLayout.walOffset
      show db.header.checkpointOffset + (recordHeaderSize + (F.checkpoint.toBytes c).length) + 0 ≤
        budget + (recordHeaderSize + (F.checkpoint.toBytes c).length)
      rw [hLayout.standard.checkpointOffset]
      omega
    · refine .inr ⟨?_, ?_⟩
      · cases hRes : db.perform (db.writeCheckpoint F c) with
        | ok db₁ =>
          have hRec := record_fits fun w hw => (perform_ok hRes).1 w (List.mem_append_left _ hw)
          rw [hLayout.standard.checkpointOffset] at hRec
          exact absurd hRec hFits
        | error err =>
          rw [perform_error hRes] at hRes
          exact hRes
      · have hOff := hLayout.walOffset
        dsimp only [DbCall.recordSize]
        omega
  | reopen => exact .inl ⟨db, hLayout.openFile, ws, hLayout, hSort, hBudget⟩

/-- The bytes that a sequence of calls writes, and the header. -/
def totalSize (F : DbFormat E C) (calls : List (DbCall E C)) : Nat :=
  headerSize + (calls.map (DbCall.recordSize F)).sum

theorem Represents.execAll (h : Represents F budget db s) {calls : List (DbCall E C)}
    (hShort : ∀ call ∈ calls, call.Short F) :
    (∃ db', execAll F db calls = .ok db' ∧
      Represents F (budget + (calls.map (DbCall.recordSize F)).sum) db'
        (calls.foldl (DbState.step F) s)) ∨
    (execAll F db calls = .error .fileTooLarge ∧
      maxFileSize < budget + (calls.map (DbCall.recordSize F)).sum) := by
  induction calls generalizing db s budget with
  | nil => exact .inl ⟨db, rfl, by simpa using h⟩
  | cons call calls ih =>
    rw [List.map_cons, List.sum_cons, ← Nat.add_assoc]
    unfold DbFile.execAll
    rcases h.exec (hShort call List.mem_cons_self) with ⟨db₁, hOk, hNext⟩ | ⟨hErr, hLarge⟩
    · rw [hOk]
      exact ih hNext fun call' hc => hShort call' (List.mem_cons_of_mem _ hc)
    · refine .inr ⟨?_, by omega⟩
      rw [hErr]
      rfl

/-- **The file refines the pair of checkpoint and log**: for every sequence of calls on a new
file, unless the file grows beyond the largest offset, what is read is the last checkpoint
and, in stable order of the LSNs, the entries appended since that are retained. -/
theorem db_file_refines (F : DbFormat E C) (calls : List (DbCall E C))
    (hShort : ∀ call ∈ calls, call.Short F) :
    let s := calls.foldl (DbState.step F) ⟨none, []⟩
    (∃ db, execAll F create calls = .ok db ∧ db.readCheckpoint F = .ok s.checkpoint ∧
      db.readWalEntries F = .ok (sortByKey F.lsn s.log)) ∨
    (execAll F create calls = .error .fileTooLarge ∧ maxFileSize < totalSize F calls) := by
  have hStart : Represents F headerSize create ⟨none, []⟩ :=
    ⟨[], layout_create, rfl, Nat.le_refl _⟩
  rcases hStart.execAll hShort with ⟨db, hOk, ws, hLayout, hSort, -⟩ | hErr
  · refine .inl ⟨db, hOk, hLayout.readCheckpoint, ?_⟩
    rw [hLayout.readWalEntries, hSort]
  · exact .inr hErr

instance neZero_u64 : NeZero (256 ^ 8) := ⟨by decide⟩

/-- A file whose entries and checkpoints are numbers, each its own LSN. -/
def u64Format : DbFormat (Fin (256 ^ 8)) (Fin (256 ^ 8)) where
  entry := u64Codec
  checkpoint := u64Codec
  lsn e := e
  checkpointLsn c := c
  latestCommitTs c := c
  lsn_lt e := e.isLt
  checkpointLsn_lt c := c.isLt
  latestCommitTs_lt c := c.isLt

theorem short_u64 (call : DbCall (Fin (256 ^ 8)) (Fin (256 ^ 8))) : call.Short u64Format := by
  have hLen : ∀ (w n : Nat), (varint w n).length ≤ w := by
    intro w
    induction w with
    | zero => exact fun n => Nat.le_refl _
    | succ w ih =>
      intro n
      unfold varint
      split
      · simp
      · rw [List.length_cons]
        have hRest := ih (n / 128)
        omega
  cases call with
  | appendWal e => exact Nat.lt_of_le_of_lt (hLen 10 e.val) (by decide)
  | writeCheckpoint c => exact Nat.lt_of_le_of_lt (hLen 10 c.val) (by decide)
  | truncateWalUntil n => trivial
  | reopen => trivial

/-- Three entries, the last out of order, a truncation, another entry and a reopening: what
is read is sorted, and the entry that was cut off is gone. -/
theorem db_file_refines_truncated : ∃ db,
    execAll u64Format create
      [.writeCheckpoint 1, .appendWal 4, .appendWal 300, .appendWal 2, .truncateWalUntil 3,
        .appendWal 5, .reopen] = .ok db ∧
      db.readCheckpoint u64Format = .ok (some 1) ∧ db.readWalEntries u64Format = .ok [4, 5, 300] := by
  have hRefines := db_file_refines u64Format
    [.writeCheckpoint 1, .appendWal 4, .appendWal 300, .appendWal 2, .truncateWalUntil 3,
      .appendWal 5, .reopen] fun call _ => short_u64 call
  rcases hRefines with ⟨db, hOk, hCp, hWal⟩ | ⟨-, hLarge⟩
  · exact ⟨db, hOk, hCp, hWal⟩
  · exact absurd hLarge (by decide)

end DbFile

-- ----
-- The codec of the header
-- ----

namespace DbFileHeader

variable {f : List UInt8} {h h' : DbFileHeader}

/-- What `read_from` checks. -/
structure Valid (h : DbFileHeader) : Prop where
  magic : h.magic = magicBytes
  version : h.version ≤ currentVersion
  crc : h.computeCrc = h.headerCrc

theorem validate_ok_iff : h.validate = .ok h' ↔ h.Valid ∧ h' = h := by
  unfold validate
  rw [bind_ok_iff]
  constructor
  · rintro ⟨_, hMagic, hRest⟩
    obtain ⟨_, hVersion, hRest⟩ := bind_ok_iff.mp hRest
    obtain ⟨_, hCrc, hSame⟩ := bind_ok_iff.mp hRest
    unfold validateMagic at hMagic
    unfold validateVersion at hVersion
    unfold validateCrc at hCrc
    split at hMagic
    · cases hMagic
    · split at hVersion
      · cases hVersion
      · split at hCrc
        · cases hCrc
        · rename_i hMagic' hVersion' hCrc'
          exact ⟨⟨not_not.mp hMagic', Nat.not_lt.mp hVersion', not_not.mp hCrc'⟩,
            (Except.ok.inj hSame).symm⟩
  · rintro ⟨hValid, rfl⟩
    refine ⟨(), if_neg (not_not.mpr hValid.magic), bind_ok_iff.mpr ⟨(), ?_, bind_ok_iff.mpr
      ⟨(), if_neg (not_not.mpr hValid.crc), rfl⟩⟩⟩
    exact if_neg (Nat.not_lt.mpr hValid.version)

theorem valid_of_readFrom (hRead : readFrom f = .ok h) : h.Valid := by
  unfold readFrom at hRead
  obtain ⟨magic, -, hRead⟩ := bind_ok_iff.mp hRead
  obtain ⟨version, -, hRead⟩ := bind_ok_iff.mp hRead
  obtain ⟨headerSize, -, hRead⟩ := bind_ok_iff.mp hRead
  obtain ⟨flags, -, hRead⟩ := bind_ok_iff.mp hRead
  obtain ⟨checkpointOffset, -, hRead⟩ := bind_ok_iff.mp hRead
  obtain ⟨checkpointLength, -, hRead⟩ := bind_ok_iff.mp hRead
  obtain ⟨walOffset, -, hRead⟩ := bind_ok_iff.mp hRead
  obtain ⟨walLength, -, hRead⟩ := bind_ok_iff.mp hRead
  obtain ⟨lastLsn, -, hRead⟩ := bind_ok_iff.mp hRead
  obtain ⟨lastCommitTs, -, hRead⟩ := bind_ok_iff.mp hRead
  obtain ⟨headerCrc, -, hRead⟩ := bind_ok_iff.mp hRead
  obtain ⟨hValid, rfl⟩ := validate_ok_iff.mp hRead
  exact hValid

theorem length_parts_of_size (hMagic : h.magic.length = 8) (hSize : 72 ≤ h.headerSize) :
    h.parts.flatten.length = h.headerSize := by
  simp only [parts, fields, List.cons_append, List.nil_append, List.flatten_cons,
    List.flatten_nil, List.length_append, length_leBytes, List.length_replicate, hMagic,
    List.length_nil]
  omega

-- ----
-- The law
-- ----

/-- The header is read from any file it has been written to. -/
def RoundTrips (h : DbFileHeader) : Prop :=
  ∃ writes, h.tryWriteTo = some writes ∧ ∀ f, readFrom (applyWrites f writes) = .ok h

/-- A header with what the calls on the file never change. -/
structure Updates (h h' : DbFileHeader) : Prop where
  magic : h'.magic = h.magic
  version : h'.version = h.version
  headerSize : h'.headerSize = h.headerSize
  checkpointOffset : h'.checkpointOffset = h.checkpointOffset

/-- The header, however updated, is written without a panic into the region in front of the
checkpoint, and what stands in the checkpoint region stays. -/
def RewritesSafely (h : DbFileHeader) : Prop :=
  ∀ h', Updates h h' → ∃ writes, h'.tryWriteTo = some writes ∧
    (∀ w ∈ writes, w.offset + w.data.length ≤ h.checkpointOffset) ∧
    ∀ f checkpoint, Holds f h.checkpointOffset checkpoint →
      Holds (applyWrites f writes) h.checkpointOffset checkpoint

theorem tryWriteTo_some {writes : List Write} :
    h.tryWriteTo = some writes ↔ 72 ≤ h.headerSize ∧ writes = h.writeTo := by
  unfold tryWriteTo
  split
  · rename_i hSmall
    exact ⟨fun hNone => (nomatch hNone), fun ⟨hSize, _⟩ => absurd hSmall (Nat.not_lt.mpr hSize)⟩
  · rename_i hSize
    exact ⟨fun hSome => ⟨Nat.not_lt.mp hSize, (Option.some.inj hSome).symm⟩,
      fun ⟨_, hSame⟩ => congrArg some hSame.symm⟩

theorem roundTrips_iff (hr : h.InRange) : h.RoundTrips ↔ h.Valid ∧ 72 ≤ h.headerSize := by
  have hRead : ∀ f, readFrom (applyWrites f h.writeTo) = h.validate := fun f =>
    readFrom_of_holds hr holds_consecutive
  constructor
  · rintro ⟨writes, hWrites, hBack⟩
    obtain ⟨hSize, rfl⟩ := tryWriteTo_some.mp hWrites
    exact ⟨(validate_ok_iff.mp ((hRead []).symm.trans (hBack []))).1, hSize⟩
  · rintro ⟨hValid, hSize⟩
    exact ⟨_, tryWriteTo_some.mpr ⟨hSize, rfl⟩, fun f =>
      (hRead f).trans (validate_ok_iff.mpr ⟨hValid, rfl⟩)⟩

theorem rewritesSafely_iff (hMagic : h.magic.length = 8) :
    h.RewritesSafely ↔ 72 ≤ h.headerSize ∧ h.headerSize ≤ h.checkpointOffset := by
  constructor
  · intro hSafe
    obtain ⟨writes, hWrites, hInside, -⟩ := hSafe h ⟨rfl, rfl, rfl, rfl⟩
    obtain ⟨hSize, rfl⟩ := tryWriteTo_some.mp hWrites
    -- the last write is the padding
    have hPadding := hInside ⟨72, List.replicate (h.headerSize - 72) 0⟩ (by
      simp [writeTo, consecutive, parts, fields, hMagic])
    dsimp only at hPadding
    rw [List.length_replicate] at hPadding
    exact ⟨hSize, by omega⟩
  · rintro ⟨hSize, hBefore⟩ h' hUpdates
    have hLength : h'.parts.flatten.length = h.headerSize := by
      rw [length_parts_of_size (by rw [hUpdates.magic, hMagic]) (by rw [hUpdates.headerSize]; exact hSize),
        hUpdates.headerSize]
    refine ⟨_, tryWriteTo_some.mpr ⟨by rw [hUpdates.headerSize]; exact hSize, rfl⟩,
      fun w hw => ?_, fun f checkpoint hHolds => ?_⟩
    · have hEnd := consecutive_end hw
      omega
    · exact Holds.applyWrites hHolds (.inr (by omega))

/-- **Codec safety**: a header is read back exactly if it passes the checks and its size covers
the fields, and an accepted header is written again safely exactly if its size covers the fields
and ends before the checkpoint region. -/
theorem codec_safe_iff (h : DbFileHeader) :
    (h.InRange → (h.RoundTrips ↔ h.Valid ∧ 72 ≤ h.headerSize)) ∧
    ∀ f, readFrom f = .ok h →
      (h.RewritesSafely ↔ 72 ≤ h.headerSize ∧ h.headerSize ≤ h.checkpointOffset) := by
  refine ⟨fun hr => roundTrips_iff hr, fun f hRead => rewritesSafely_iff ?_⟩
  rw [(valid_of_readFrom hRead).magic]
  rfl

theorem inRange_new : new.updateCrc.InRange := by
  refine ⟨rfl, ?_, ?_, ?_, ?_, ?_, ?_, ?_, ?_⟩ <;> decide

/-- The header of a new file. -/
theorem codec_safe_new : new.updateCrc.RoundTrips ∧
    ∃ f, readFrom f = .ok new.updateCrc ∧ new.updateCrc.RewritesSafely := by
  have hRound := ((codec_safe_iff new.updateCrc).1 inRange_new).mpr
    ⟨⟨rfl, Nat.le_refl _, computeCrc_updateCrc⟩, by decide⟩
  obtain ⟨writes, hWrites, hBack⟩ := hRound
  exact ⟨⟨writes, hWrites, hBack⟩, _, hBack [],
    ((codec_safe_iff _).2 _ (hBack [])).mpr ⟨by decide, Nat.le_refl _⟩⟩

/-- A file whose header has size 0, with the right checksum: it is accepted, and writing the
header again panics. -/
theorem size_zero_unsafe : ∃ f h, readFrom f = .ok h ∧ ¬ h.RewritesSafely := by
  let h : DbFileHeader := { new with headerSize := 0 }.updateCrc
  have hr : h.InRange := by
    refine ⟨rfl, ?_, ?_, ?_, ?_, ?_, ?_, ?_, ?_⟩ <;> decide
  have hRead : readFrom (applyWrites [] h.writeTo) = .ok h :=
    (readFrom_of_holds hr holds_consecutive).trans
      (validate_ok_iff.mpr ⟨⟨rfl, Nat.le_refl _, computeCrc_updateCrc⟩, rfl⟩)
  refine ⟨_, h, hRead, fun hSafe => ?_⟩
  obtain ⟨writes, hWrites, -⟩ := hSafe h ⟨rfl, rfl, rfl, rfl⟩
  exact nomatch hWrites

end DbFileHeader

end MiniGU
