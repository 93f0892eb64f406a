import MiniGU.Results.DbFile

/-!
# Crashes while the file is written

`append_wal` and `write_checkpoint` end with the header, which is rewritten in place one
field at a time; its checksum is the last field but one. A crash in between leaves a header
whose first fields are new and whose other fields, the checksum among them, are old
(`DbFileHeader.mix`), and `open` refuses it unless the checksum happens to be right.
-/

namespace MiniGU

namespace DbFileHeader

/-- The header on disk after the first `k` parts of `new` have been written over `old`. -/
def mix (old new : DbFileHeader) (k : Nat) : DbFileHeader where
  magic := if 0 < k then new.magic else old.magic
  version := if 1 < k then new.version else old.version
  headerSize := if 2 < k then new.headerSize else old.headerSize
  flags := if 3 < k then new.flags else old.flags
  checkpointOffset := if 4 < k then new.checkpointOffset else old.checkpointOffset
  checkpointLength := if 5 < k then new.checkpointLength else old.checkpointLength
  walOffset := if 6 < k then new.walOffset else old.walOffset
  walLength := if 7 < k then new.walLength else old.walLength
  lastLsn := if 8 < k then new.lastLsn else old.lastLsn
  lastCommitTs := if 9 < k then new.lastCommitTs else old.lastCommitTs
  headerCrc := if 10 < k then new.headerCrc else old.headerCrc

variable {old new : DbFileHeader} {k : Nat}

theorem Standard.mix (hOld : old.Standard) (hNew : new.Standard) : (old.mix new k).Standard := by
  unfold DbFileHeader.mix
  refine ⟨?_, ?_, ?_, ?_⟩
  · dsimp only
    rw [hOld.magic, hNew.magic, ite_self]
  · dsimp only
    rw [hOld.version, hNew.version, ite_self]
  · dsimp only
    rw [hOld.headerSize, hNew.headerSize, ite_self]
  · dsimp only
    rw [hOld.checkpointOffset, hNew.checkpointOffset, ite_self]

theorem InRange.mix (hOld : old.InRange) (hNew : new.InRange) : (old.mix new k).InRange := by
  have hIte : ∀ {p : Prop} [Decidable p] {a b c : Nat}, a < c → b < c →
      (if p then a else b) < c := by
    intro p _ a b c ha hb
    split
    · exact ha
    · exact hb
  refine ⟨?_, hIte hNew.version hOld.version, hIte hNew.headerSize hOld.headerSize,
    hIte hNew.checkpointOffset hOld.checkpointOffset,
    hIte hNew.checkpointLength hOld.checkpointLength, hIte hNew.walOffset hOld.walOffset,
    hIte hNew.walLength hOld.walLength, hIte hNew.lastLsn hOld.lastLsn,
    hIte hNew.lastCommitTs hOld.lastCommitTs⟩
  unfold DbFileHeader.mix
  dsimp only
  split
  · exact hNew.magic
  · exact hOld.magic

/-- The parts of a mixed header: the first are new, the others are old. -/
theorem parts_mix (hOld : old.Standard) (hNew : new.Standard) :
    (old.mix new k).parts = new.parts.take k ++ old.parts.drop k := by
  have hPad : new.headerSize = old.headerSize := hNew.headerSize.trans hOld.headerSize.symm
  match k with
  | 0 | 1 | 2 | 3 | 4 | 5 | 6 | 7 | 8 | 9 | 10 | 11 => simp [mix, parts, fields, hPad]
  | k + 12 => simp [mix, parts, fields]

theorem length_parts (hr : old.InRange) (hs : old.Standard) :
    old.parts.map List.length = [8, 4, 4, 4, 8, 8, 8, 8, 8, 8, 4, 184] := by
  simp only [parts, fields, List.cons_append, List.nil_append, List.map_cons, List.map_nil,
    length_leBytes, List.length_replicate, hr.magic, hs.headerSize]
  rfl

theorem mix_of_done (hk : 10 < k) : (old.mix new k).headerCrc = new.headerCrc ∧
    (old.mix new k).computeCrc = new.computeCrc := by
  have hAll : ∀ i, i ≤ 10 → i < k := fun i hi => by omega
  simp [mix, computeCrc, fields, hAll]

/-- The first three fields are constants. -/
theorem mix_of_early (hOld : old.Standard) (hNew : new.Standard) (hk : k ≤ 3) :
    old.mix new k = old := by
  have hLater : ∀ i, 3 ≤ i → ¬ i < k := fun i hi => by omega
  unfold mix
  rw [hNew.magic, ← hOld.magic, hNew.version, ← hOld.version, hNew.headerSize, ← hOld.headerSize]
  simp [hLater]

theorem mix_headerCrc (hk : k ≤ 10) : (old.mix new k).headerCrc = old.headerCrc :=
  if_neg (Nat.not_lt.mpr hk)

end DbFileHeader

namespace DbFile

variable {E C : Type} {F : DbFormat E C} {db : DbFile} {cp : Option C} {ws : List E} {n : Nat}

/-! ## A record and then the header -/

variable {offset : Nat} {payload : List UInt8} {header : DbFileHeader}

/-- The update of a record at `offset` and of the header. -/
def recordUpdate (offset : Nat) (payload : List UInt8) (header : DbFileHeader) : Update :=
  ⟨consecutive offset (recordParts payload) ++ header.writeTo, header⟩

/-- The bytes after the crash: the record is cut off, or the header is. -/
theorem crash_eq : db.crash (recordUpdate offset payload header) n =
    applyWrites (applyWrites db.file (consecutive offset ((recordParts payload).take n)))
      (consecutive 0 (header.parts.take (n - 3))) := by
  unfold crash recordUpdate DbFileHeader.writeTo
  rw [List.take_append, applyWrites_append, take_consecutive, take_consecutive, length_consecutive]
  rfl

theorem length_take_record_le : ((recordParts payload).take n).flatten.length ≤
    recordHeaderSize + payload.length := by
  have hAll : (recordParts payload).flatten.length = recordHeaderSize + payload.length :=
    length_recordBytes
  rw [← hAll]
  exact length_flatten_take_le ..

theorem holds_header_crash (hOld : db.header.InRange) (hs : db.header.Standard)
    (hNew : header.InRange) (hs' : header.Standard) (hDisk : Holds db.file 0 db.header.parts.flatten)
    (hAfter : headerSize ≤ offset) : Holds (db.crash (recordUpdate offset payload header) n) 0
      (db.header.mix header (n - 3)).parts.flatten := by
  rw [crash_eq, DbFileHeader.parts_mix hs hs']
  refine Holds.crash ?_ ?_ (n - 3)
  · exact hDisk.applyWrites (.inl (by rw [DbFileHeader.length_parts_flatten hOld hs]; omega))
  · rw [DbFileHeader.length_parts hOld hs, DbFileHeader.length_parts hNew hs']

/-- What stands after the header and away from the record survives. -/
theorem Holds.crash_away {o : Nat} {data : List UInt8} (h : Holds db.file o data)
    (hNew : header.InRange) (hs' : header.Standard) (ho : headerSize ≤ o)
    (hAway : o + data.length ≤ offset ∨
      offset + ((recordParts payload).take n).flatten.length ≤ o) :
    Holds (db.crash (recordUpdate offset payload header) n) o data := by
  rw [crash_eq]
  refine Holds.applyWrites (h.applyWrites hAway) (.inr ?_)
  have hLe := length_flatten_take_le header.parts (n - 3)
  rw [DbFileHeader.length_parts_flatten hNew hs'] at hLe
  omega

theorem holds_record_crash (hn : 3 ≤ n) (hNew : header.InRange) (hs' : header.Standard)
    (hAfter : headerSize ≤ offset) :
    Holds (db.crash (recordUpdate offset payload header) n) offset (recordBytes payload) := by
  rw [crash_eq]
  have hTake : (recordParts payload).take n = recordParts payload := List.take_of_length_le hn
  rw [hTake]
  refine Holds.applyWrites holds_record (.inr ?_)
  have hLe := length_flatten_take_le header.parts (n - 3)
  rw [DbFileHeader.length_parts_flatten hNew hs'] at hLe
  omega

/-- A file with a mixed header opens exactly if the checksum is right. -/
theorem open_mix_iff {old new : DbFileHeader} {k : Nat} {file : List UInt8} {db' : DbFile}
    (hOld : old.InRange) (hs : old.Standard) (hNew : new.InRange) (hs' : new.Standard)
    (hMix : Holds file 0 (old.mix new k).parts.flatten) (hCrc : new.computeCrc = new.headerCrc) :
    openFile file = .ok db' ↔
      (k < 11 → (old.mix new k).computeCrc = old.headerCrc) ∧ db' = ⟨file, old.mix new k⟩ := by
  have hStd : (old.mix new k).Standard := hs.mix hs'
  have hValid : (old.mix new k).computeCrc = (old.mix new k).headerCrc ↔
      (k < 11 → (old.mix new k).computeCrc = old.headerCrc) := by
    by_cases hk : k < 11
    · rw [DbFileHeader.mix_headerCrc (by omega)]
      exact ⟨fun h _ => h, fun h => h hk⟩
    · obtain ⟨hStored, hComputed⟩ := @DbFileHeader.mix_of_done old new k (by omega)
      rw [hStored, hComputed]
      exact ⟨fun _ h => absurd h hk, fun _ => hCrc⟩
  unfold openFile
  rw [DbFileHeader.readFrom_of_holds (hOld.mix hNew) hMix]
  by_cases hOk : (old.mix new k).computeCrc = (old.mix new k).headerCrc
  · rw [DbFileHeader.validate_of_crc hStd hOk]
    constructor
    · intro h
      exact ⟨hValid.mp hOk, (Except.ok.inj h).symm⟩
    · rintro ⟨-, rfl⟩
      rfl
  · rw [DbFileHeader.validate_of_crc_ne hStd hOk]
    constructor
    · intro h
      cases h
    · rintro ⟨hCond, -⟩
      exact absurd (hValid.mpr hCond) hOk

/-- **Reopening after the crash**: the mixed header is accepted exactly if its checksum is
right. -/
theorem open_crash_iff {db' : DbFile} (hOld : db.header.InRange) (hs : db.header.Standard)
    (hNew : header.InRange) (hs' : header.Standard) (hDisk : Holds db.file 0 db.header.parts.flatten)
    (hCrc : header.computeCrc = header.headerCrc) (hAfter : headerSize ≤ offset) :
    openFile (db.crash (recordUpdate offset payload header) n) = .ok db' ↔
      (n < 14 → (db.header.mix header (n - 3)).computeCrc = db.header.headerCrc) ∧
      db' = ⟨db.crash (recordUpdate offset payload header) n, db.header.mix header (n - 3)⟩ := by
  have hMix : Holds (db.crash (recordUpdate offset payload header) n) 0 _ :=
    holds_header_crash hOld hs hNew hs' hDisk hAfter
  have hSame : n - 3 < 11 ↔ n < 14 := by omega
  rw [open_mix_iff hOld hs hNew hs' hMix hCrc, hSame]

/-! ## Appending -/

/-- **An append that is cut off after `n` writes has lost nothing**: the file opens, and all
earlier entries are read, with or without the last one. -/
def AppendSurvives (F : DbFormat E C) (db : DbFile) (s : DbState E C) (e : E) (n : Nat) : Prop :=
  ∃ db', openFile (db.crash (db.appendWal F e) n) = .ok db' ∧
    (db'.readWalEntries F = .ok (sortByKey F.lsn s.log) ∨
      db'.readWalEntries F = .ok (sortByKey F.lsn (s.log ++ [e])))

/-- The cuts that an append survives: the header has been written up to its checksum, or the
part of it that has been written leaves the checksum right. -/
def AppendCutOk (F : DbFormat E C) (db : DbFile) (e : E) (n : Nat) : Prop :=
  n < 14 → (db.header.mix (db.appendWal F e).header (n - 3)).computeCrc = db.header.headerCrc

/-- Once the file opens, the log is there, with the new entry if its length is on disk. -/
theorem Layout.readWal_crash (h : Layout F db cp ws) {e : E}
    (hShort : (F.entry.toBytes e).length < 256 ^ 4) (n : Nat) :
    let db' : DbFile := ⟨db.crash (db.appendWal F e) n,
      db.header.mix (db.appendWal F e).header (n - 3)⟩
    db'.readWalEntries F = .ok (sortByKey F.lsn (if 7 < n - 3 then ws ++ [e] else ws)) := by
  intro db'
  obtain ⟨hr', hs'⟩ := h.header_appendWal hShort
  obtain ⟨b, hFlags, hSet⟩ := h.flags
  have hAfter : headerSize ≤ db.header.walOffset := by
    rw [h.walOffset]
    exact Nat.le_add_right ..
  have hOff : db'.header.walOffset = db.header.walOffset := ite_self _
  have hWal : Holds db'.file db.header.walOffset (logBytes F ws) :=
    Holds.crash_away h.wal hr' hs' hAfter (.inl (by rw [h.walLength]))
  have hFlag : db.header.flags.has DbFileFlags.hasWal = true →
      db'.header.flags.has DbFileFlags.hasWal = true := by
    intro hHas
    show (if 3 < n - 3 then db.header.flags.set DbFileFlags.hasWal else db.header.flags).has _ = true
    split
    · rw [hFlags, set_wal_flagsOf, has_wal_flagsOf]
    · exact hHas
  by_cases hLen : 7 < n - 3
  · -- the new length is on disk, after the record and the flags
    have hNew : db'.header.walLength =
        db.header.walLength + (recordHeaderSize + (F.entry.toBytes e).length) := if_pos hLen
    have hLog : logBytes F (ws ++ [e]) = logBytes F ws ++ recordBytes (F.entry.toBytes e) := by
      rw [logBytes_append]
      simp [logBytes]
    rw [if_pos hLen]
    refine readWalEntries_of_holds (fun _ => ?_) ?_ ?_ ?_
    · show (if 3 < n - 3 then db.header.flags.set DbFileFlags.hasWal else _).has _ = true
      rw [if_pos (by omega), hFlags, set_wal_flagsOf, has_wal_flagsOf]
    · rw [hNew, hLog, List.length_append, length_recordBytes, h.walLength]
    · intro e' he'
      rcases List.mem_append.mp he' with hOld | hLast
      · exact h.short e' hOld
      · rw [List.mem_singleton.mp hLast]
        exact hShort
    · rw [hOff, hLog, holds_append, ← h.walLength]
      exact ⟨hWal, holds_record_crash (by omega) hr' hs' (by omega)⟩
  · have hNew : db'.header.walLength = db.header.walLength := if_neg hLen
    rw [if_neg hLen]
    refine readWalEntries_of_holds (fun hne => hFlag ?_) ?_ h.short ?_
    · rw [hFlags, has_wal_flagsOf, hSet hne]
    · rw [hNew, h.walLength]
    · rw [hOff]
      exact hWal

theorem Layout.append_survives_iff (h : Layout F db cp ws) {s : DbState E C}
    (hSort : sortByKey F.lsn ws = sortByKey F.lsn s.log) {e : E}
    (hShort : (F.entry.toBytes e).length < 256 ^ 4) (n : Nat) :
    AppendSurvives F db s e n ↔ AppendCutOk F db e n := by
  obtain ⟨hr', hs'⟩ := h.header_appendWal hShort
  have hAfter : headerSize ≤ db.header.walOffset + db.header.walLength := by
    rw [h.walOffset]
    omega
  have hOpen : ∀ db', DbFile.openFile (db.crash (db.appendWal F e) n) = .ok db' ↔ _ := fun db' =>
    open_crash_iff h.inRange h.standard hr' hs' h.onDisk rfl hAfter
  constructor
  · rintro ⟨db', hOk, -⟩
    exact ((hOpen db').mp hOk).1
  · intro hCut
    refine ⟨_, (hOpen _).mpr ⟨hCut, rfl⟩, ?_⟩
    have hRead := h.readWal_crash hShort n
    rw [← hSort, ← sortByKey_append_congr hSort]
    split at hRead
    · exact .inr hRead
    · exact .inl hRead

theorem layout_of_execAll {calls : List (DbCall E C)} (hShort : ∀ call ∈ calls, call.Short F)
    (hRun : execAll F create calls = .ok db) :
    ∃ ws, Layout F db (calls.foldl (DbState.step F) ⟨none, []⟩).checkpoint ws ∧
      sortByKey F.lsn ws = sortByKey F.lsn (calls.foldl (DbState.step F) ⟨none, []⟩).log := by
  have hStart : Represents F headerSize create (⟨none, []⟩ : DbState E C) :=
    ⟨[], layout_create, rfl, Nat.le_refl _⟩
  rcases hStart.execAll hShort with ⟨db', hOk, ws, hLayout, hSort, -⟩ | ⟨hErr, -⟩
  · obtain rfl := Except.ok.inj (hRun.symm.trans hOk)
    exact ⟨ws, hLayout, hSort⟩
  · rw [hRun] at hErr
    cases hErr

/-- **When a cut append has lost nothing**, for every file that calls have produced, every
entry and every cut. -/
theorem append_crash_iff (F : DbFormat E C) (calls : List (DbCall E C))
    (hShort : ∀ call ∈ calls, call.Short F) (db : DbFile)
    (hRun : execAll F create calls = .ok db) (e : E)
    (he : (F.entry.toBytes e).length < 256 ^ 4) (n : Nat) :
    AppendSurvives F db (calls.foldl (DbState.step F) ⟨none, []⟩) e n ↔ AppendCutOk F db e n := by
  obtain ⟨ws, hLayout, hSort⟩ := layout_of_execAll hShort hRun
  exact hLayout.append_survives_iff hSort he n

/-- **The first append to a log is lost between the flags and the length**: the header on
disk differs from the old one in one byte, which the checksum always shows. -/
theorem first_append_lost {e : E} {a : Bool} (hCrc : db.header.computeCrc = db.header.headerCrc)
    (hFlags : db.header.flags = flagsOf a false) (hn : 7 ≤ n ∧ n ≤ 10) : ¬ AppendCutOk F db e n := by
  intro hCut
  have hMix : db.header.mix (db.appendWal F e).header (n - 3) =
      { db.header with flags := flagsOf a true } := by
    have hSet : (db.appendWal F e).header.flags = flagsOf a true := by
      show db.header.flags.set DbFileFlags.hasWal = _
      rw [hFlags, set_wal_flagsOf]
    unfold DbFileHeader.mix
    rw [if_pos (by omega : 3 < n - 3), hSet, if_neg (by omega : ¬ 7 < n - 3),
      if_neg (by omega : ¬ 8 < n - 3), if_neg (by omega : ¬ 10 < n - 3)]
    congr 1
    all_goals exact ite_self _
  have hSame := hCut (by omega)
  rw [hMix, ← hCrc] at hSame
  -- the two headers as lists of bytes around the low byte of the flags
  have hBytes : ∀ b, ({ db.header with flags := flagsOf a b } : DbFileHeader).fields.flatten =
      (db.header.magic ++ leBytes 4 db.header.version ++ leBytes 4 db.header.headerSize) ++
        UInt8.ofNat (flagsOf a b).bits.toNat :: ([0, 0, 0] ++ (leBytes 8 db.header.checkpointOffset ++
          leBytes 8 db.header.checkpointLength ++ leBytes 8 db.header.walOffset ++
          leBytes 8 db.header.walLength ++ leBytes 8 db.header.lastLsn ++
          leBytes 8 db.header.lastCommitTs)) := by
    intro b
    have hLe : leBytes 4 (flagsOf a b).bits.toNat =
        UInt8.ofNat (flagsOf a b).bits.toNat :: [0, 0, 0] := by
      cases a <;> cases b <;> decide
    simp [DbFileHeader.fields, hLe]
  have hOld : db.header = { db.header with flags := flagsOf a false } := by rw [← hFlags]
  unfold DbFileHeader.computeCrc at hSame
  rw [hOld, hBytes true, hBytes false] at hSame
  refine crc32_ne_of_byte _ _ ?_ hSame
  cases a <;> decide

/-- A new file, one append, and a crash once the flags have been written: the file does not
open any more. -/
theorem append_crash_flags : execAll u64Format create [] = .ok create ∧
    ¬ AppendSurvives u64Format create ⟨none, []⟩ 1 7 := by
  refine ⟨rfl, fun hSurvives => ?_⟩
  have hLayout : Layout u64Format create none [] := layout_create
  have hCut := (hLayout.append_survives_iff rfl (short_u64 (.appendWal 1)) 7).mp hSurvives
  exact first_append_lost hLayout.crc (show create.header.flags = flagsOf false false by decide)
    (by omega) hCut

/-- An append that is cut off in its record, on a file with one entry. -/
theorem append_crash_record : ∃ db, execAll u64Format create [.appendWal 1] = .ok db ∧
    AppendSurvives u64Format db ⟨none, [1]⟩ 2 2 := by
  have hStart : Represents u64Format headerSize create ⟨none, []⟩ :=
    ⟨[], layout_create, rfl, Nat.le_refl _⟩
  rcases hStart.execAll (fun call _ => short_u64 call) with ⟨db, hOk, ws, hLayout, -⟩ | ⟨-, hLarge⟩
  · refine ⟨db, hOk, (append_crash_iff u64Format [.appendWal 1] (fun call _ => short_u64 call) db hOk
      2 (short_u64 (.appendWal 2)) 2).mpr fun _ => ?_⟩
    exact hLayout.crc
  · exact absurd hLarge (by decide)

/-! ## Writing a checkpoint -/

/-- The file is read as the old checkpoint with the old log, or as the new checkpoint with an
empty log. -/
def ReadsOldOrNew (F : DbFormat E C) (db : DbFile) (s : DbState E C) (c : C) : Prop :=
  (db.readCheckpoint F = .ok s.checkpoint ∧ db.readWalEntries F = .ok (sortByKey F.lsn s.log)) ∨
    (db.readCheckpoint F = .ok (some c) ∧ db.readWalEntries F = .ok [])

/-- **A checkpoint that is cut off after `n` writes has left the old state or the new one.** -/
def CheckpointSurvives (F : DbFormat E C) (db : DbFile) (s : DbState E C) (c : C) (n : Nat) : Prop :=
  ∃ db', openFile (db.crash (db.writeCheckpoint F c) n) = .ok db' ∧ ReadsOldOrNew F db' s c

/-- The cuts that a checkpoint survives, over the checkpoint `c₀`.
Before the payload is written, the old bytes are read under a new length (and a new
checksum): they must pass the checksum and decode to one of the two. Then the new
checkpoint is read with the old log. Then the header must pass its checksum. -/
def CheckpointCutOk (F : DbFormat E C) (db : DbFile) (s : DbState E C) (c₀ c : C) (n : Nat) : Prop :=
  if n = 0 then True
  else if n < 3 then
    ∃ payload, readAt db.file (headerSize + recordHeaderSize) (F.checkpoint.toBytes c).length =
        some payload ∧
      crc32 payload = crc32 (F.checkpoint.toBytes (if n = 1 then c₀ else c)) ∧
      (F.checkpoint.fromBytes payload = some c₀ ∨
        F.checkpoint.fromBytes payload = some c ∧ s.log = [])
  else if n < 7 then s.log = [] ∨ c = c₀
  else n < 14 →
    (db.header.mix (db.writeCheckpoint F c).header (n - 3)).computeCrc = db.header.headerCrc

/-- With its header in place, a checkpoint is read with an empty log. -/
theorem Layout.read_crash_header {c₀ c : C} (h : Layout F db (some c₀) ws)
    (hShort : (F.checkpoint.toBytes c).length < 256 ^ 4) (hn : 7 ≤ n) :
    let db' : DbFile := ⟨db.crash (db.writeCheckpoint F c) n,
      db.header.mix (db.writeCheckpoint F c).header (n - 3)⟩
    db'.readCheckpoint F = .ok (some c) ∧ db'.readWalEntries F = .ok [] := by
  intro db'
  obtain ⟨hr', hs'⟩ := h.header_writeCheckpoint hShort
  have hFlags : db'.header.flags = flagsOf true false := by
    obtain ⟨b, hOld, -⟩ := h.flags
    show (if 3 < n - 3 then
      (db.header.flags.set DbFileFlags.hasCheckpoint).clear DbFileFlags.hasWal else _) = _
    rw [if_pos (by omega), hOld, set_checkpoint_flagsOf, clear_wal_flagsOf]
  constructor
  · refine readCheckpoint_of_holds ?_ ?_ hShort ?_
    · rw [hFlags, has_checkpoint_flagsOf]
    · show (if 5 < n - 3 then recordHeaderSize + (F.checkpoint.toBytes c).length
        else db.header.checkpointLength) ≠ 0
      split
      · rw [recordHeaderSize]
        omega
      · exact h.checkpointLength_ne
    · rw [(h.standard.mix hs').checkpointOffset, ← h.standard.checkpointOffset]
      exact holds_record_crash (by omega) hr' hs' (by rw [h.standard.checkpointOffset])
  · unfold DbFile.readWalEntries
    rw [hFlags, has_wal_flagsOf]
    rfl

/-- A log that has entries is not read as empty, whatever stands in its place. -/
theorem Layout.readWal_ne_nil (h : Layout F db cp ws) (hne : ws ≠ []) {file : List UInt8}
    (hLen : db.file.length ≤ file.length) :
    (⟨file, db.header⟩ : DbFile).readWalEntries F ≠ .ok [] := by
  obtain ⟨b, hFlags, hSet⟩ := h.flags
  have hFirst : 8 ≤ (logBytes F ws).length := by
    cases ws with
    | nil => exact absurd rfl hne
    | cons e ws =>
      rw [show logBytes F (e :: ws) = recordBytes (F.entry.toBytes e) ++ logBytes F ws from rfl,
        List.length_append, length_recordBytes, recordHeaderSize]
      omega
  have hEnd := h.wal.length_le (by
    intro hNil
    rw [hNil] at hFirst
    simp at hFirst)
  have hWalLen := h.walLength
  obtain ⟨data, hData⟩ : ∃ data, readAt file db.header.walOffset 4 = some data := by
    unfold readAt
    rw [if_pos (by simp; omega)]
    exact ⟨_, rfl⟩
  intro hRead
  unfold DbFile.readWalEntries at hRead
  rw [hFlags, has_wal_flagsOf, hSet hne, if_neg (by simp),
    if_neg (show ¬ db.header.walLength = 0 by omega)] at hRead
  -- the first round reads an entry or fails
  cases hFuel : db.header.walLength with
  | zero => omega
  | succ fuel =>
    rw [hFuel] at hRead
    dsimp only at hRead
    unfold readWalLoop at hRead
    rw [if_pos (by omega), hData] at hRead
    dsimp only [bind, Except.bind, pure, Except.pure] at hRead
    split at hRead
    · cases hRead
    · rename_i es hLoop
      have hSort := congrArg List.length (Except.ok.inj hRead)
      rw [length_sortByKey] at hSort
      split at hLoop
      · cases hLoop
      · split at hLoop
        · cases hLoop
        · split at hLoop
          · cases hLoop
          · rw [← Except.ok.inj hLoop] at hSort
            simp at hSort

variable {s : DbState E C} {c₀ c : C}

/-- A cut before the header changes: the old handle reads the new bytes. -/
theorem Layout.survives_early (h : Layout F db (some c₀) ws)
    (hShort : (F.checkpoint.toBytes c).length < 256 ^ 4) (hn : n < 7) :
    CheckpointSurvives F db s c n ↔
      ReadsOldOrNew F ⟨db.crash (db.writeCheckpoint F c) n, db.header⟩ s c := by
  obtain ⟨hr', hs'⟩ := h.header_writeCheckpoint hShort
  have hMix : db.header.mix (db.writeCheckpoint F c).header (n - 3) = db.header :=
    DbFileHeader.mix_of_early h.standard hs' (by omega)
  have hOpen : DbFile.openFile (db.crash (db.writeCheckpoint F c) n) =
      .ok ⟨db.crash (db.writeCheckpoint F c) n, db.header⟩ := by
    refine (open_crash_iff h.inRange h.standard hr' hs' h.onDisk rfl
      (by rw [h.standard.checkpointOffset])).mpr ⟨fun _ => ?_, ?_⟩
    · rw [hMix, h.crc]
    · rw [hMix]
      rfl
  constructor
  · rintro ⟨db', hOk, hReads⟩
    rwa [← Except.ok.inj (hOpen.symm.trans hOk)] at hReads
  · exact fun hReads => ⟨_, hOpen, hReads⟩

/-- The checkpoint that is read when only its length, or its length and checksum, are new. -/
theorem Layout.readCheckpoint_cut (h : Layout F db (some c₀) ws)
    (hShort : (F.checkpoint.toBytes c).length < 256 ^ 4) (hn : n = 1 ∨ n = 2) :
    (⟨db.crash (db.writeCheckpoint F c) n, db.header⟩ : DbFile).readCheckpoint F =
      match readAt db.file (headerSize + recordHeaderSize) (F.checkpoint.toBytes c).length with
      | none => .error .unexpectedEof
      | some payload =>
        if crc32 payload ≠ crc32 (F.checkpoint.toBytes (if n = 1 then c₀ else c)) then
          .error .checkpointChecksumMismatch
        else match F.checkpoint.fromBytes payload with
          | some c' => .ok (some c')
          | none => .error .deserialization := by
  obtain ⟨hr', hs'⟩ := h.header_writeCheckpoint hShort
  obtain ⟨b, hFlags, -⟩ := h.flags
  obtain ⟨-, hCrc₀, -⟩ := holds_recordBytes.mp (h.checkpoint c₀ rfl).2
  generalize hPay : F.checkpoint.toBytes c = payload at hShort
  have hFile : db.crash (db.writeCheckpoint F c) n =
      applyWrites db.file (consecutive headerSize ((recordParts payload).take n)) := by
    rw [← hPay, ← h.standard.checkpointOffset]
    show db.crash (recordUpdate _ _ _) n = _
    rw [crash_eq, show n - 3 = 0 by omega]
    rfl
  generalize db.crash (db.writeCheckpoint F c) n = file at hFile
  -- the record header on disk
  have hLen : Holds file headerSize (leBytes 4 payload.length) := by
    have hAll : Holds file headerSize ((recordParts payload).take n).flatten := by
      rw [hFile]
      exact holds_consecutive
    rcases hn with rfl | rfl
    · simpa [recordParts] using hAll
    · exact (holds_append.mp hAll).1
  have hCrc : Holds file (headerSize + 4)
      (leBytes 4 (crc32 (F.checkpoint.toBytes (if n = 1 then c₀ else c))).toNat) := by
    rcases hn with rfl | rfl
    · rw [hFile, if_pos rfl]
      exact hCrc₀.applyWrites (.inr (by simp [recordParts]))
    · have hAll : Holds file headerSize ((recordParts payload).take 2).flatten := by
        rw [hFile]
        exact holds_consecutive
      have hBoth := (holds_append.mp hAll).2
      rw [length_leBytes] at hBoth
      rw [if_neg (by decide), hPay]
      simpa using hBoth
  have hRest : ∀ m, readAt file (headerSize + recordHeaderSize) m =
      readAt db.file (headerSize + recordHeaderSize) m := by
    intro m
    unfold readAt
    rw [hFile, drop_applyWrites]
    rcases hn with rfl | rfl <;> simp [recordParts, recordHeaderSize]
  have hBound : ∀ x : UInt32, ofLeBytes (leBytes 4 x.toNat) = x.toNat := fun x =>
    ofLeBytes_leBytes_of_lt (Nat.lt_of_lt_of_eq x.toNat_lt (by decide))
  unfold DbFile.readCheckpoint
  rw [hFlags, has_checkpoint_flagsOf, if_neg (by simp),
    if_neg (show ¬ db.header.checkpointLength = 0 from h.checkpointLength_ne),
    h.standard.checkpointOffset, readExact_of_holds hLen (length_leBytes ..)]
  dsimp only [bind, Except.bind]
  unfold readPayload
  rw [readExact_of_holds hCrc (length_leBytes ..), ofLeBytes_leBytes_of_lt hShort]
  dsimp only [bind, Except.bind]
  rw [readExact, hRest]
  cases readAt db.file (headerSize + recordHeaderSize) payload.length with
  | none => rfl
  | some q =>
    dsimp only
    rw [hBound]
    by_cases hEq : crc32 q = crc32 (F.checkpoint.toBytes (if n = 1 then c₀ else c))
    · rw [if_neg (by rw [hEq]; simp)]
      exact (if_neg (not_not_intro hEq)).symm
    · rw [if_pos (by simpa [UInt32.toNat_inj] using hEq), if_pos hEq]

/-- Inside the record's header, a crash is survived where the old bytes pass as the new payload. -/
theorem Layout.survives_record_header (h : Layout F db (some c₀) ws)
    (hCp : s.checkpoint = some c₀) (hSort : sortByKey F.lsn ws = sortByKey F.lsn s.log)
    (hShort : (F.checkpoint.toBytes c).length < 256 ^ 4) (hn : n = 1 ∨ n = 2) :
    ReadsOldOrNew F ⟨db.crash (db.writeCheckpoint F c) n, db.header⟩ s c ↔
      ∃ payload, readAt db.file (headerSize + recordHeaderSize) (F.checkpoint.toBytes c).length =
          some payload ∧
        crc32 payload = crc32 (F.checkpoint.toBytes (if n = 1 then c₀ else c)) ∧
        (F.checkpoint.fromBytes payload = some c₀ ∨
          F.checkpoint.fromBytes payload = some c ∧ s.log = []) := by
  obtain ⟨hr', hs'⟩ := h.header_writeCheckpoint hShort
  obtain ⟨b, hFlags, hSet⟩ := h.flags
  have hWal : (⟨db.crash (db.writeCheckpoint F c) n, db.header⟩ : DbFile).readWalEntries F =
      .ok (sortByKey F.lsn s.log) := by
    rw [← hSort]
    refine readWalEntries_of_holds (fun hne => ?_) h.walLength h.short ?_
    · show db.header.flags.has _ = true
      rw [hFlags, has_wal_flagsOf, hSet hne]
    · have hLen := h.checkpointLength
      have hOff := h.walOffset
      rw [Option.elim_some] at hLen
      show Holds _ db.header.walOffset _
      refine Holds.crash_away h.wal hr' hs' (by omega) (.inr ?_)
      rw [h.standard.checkpointOffset, hOff, hLen, recordHeaderSize]
      rcases hn with rfl | rfl
      · simp [recordParts]
        omega
      · simp [recordParts]
  have hNil : sortByKey F.lsn s.log = [] ↔ s.log = [] := by
    rw [← List.length_eq_zero_iff, length_sortByKey, List.length_eq_zero_iff]
  unfold ReadsOldOrNew
  rw [hWal, h.readCheckpoint_cut hShort hn, hCp]
  cases readAt db.file (headerSize + recordHeaderSize) (F.checkpoint.toBytes c).length with
  | none => simp
  | some q =>
    dsimp only
    by_cases hEq : crc32 q = crc32 (F.checkpoint.toBytes (if n = 1 then c₀ else c))
    · rw [if_neg (by simpa using hEq)]
      cases hDecode : F.checkpoint.fromBytes q with
      | none => simp [hDecode]
      | some c' => simp [hDecode, hEq, hNil]
    · rw [if_pos hEq]
      simp [hEq]

/-- A cut after the record: the new checkpoint is read with the old log. -/
theorem Layout.survives_record (h : Layout F db (some c₀) ws)
    (hCp : s.checkpoint = some c₀) (hSort : sortByKey F.lsn ws = sortByKey F.lsn s.log)
    (hShort : (F.checkpoint.toBytes c).length < 256 ^ 4) (hn : 3 ≤ n) :
    ReadsOldOrNew F ⟨db.crash (db.writeCheckpoint F c) n, db.header⟩ s c ↔
      s.log = [] ∨ c = c₀ := by
  obtain ⟨hr', hs'⟩ := h.header_writeCheckpoint hShort
  obtain ⟨b, hFlags, hSet⟩ := h.flags
  have hOff := h.standard.checkpointOffset
  have hNew : (⟨db.crash (db.writeCheckpoint F c) n, db.header⟩ : DbFile).readCheckpoint F =
      .ok (some c) := by
    refine readCheckpoint_of_holds ?_ h.checkpointLength_ne hShort
      (holds_record_crash hn hr' hs' (by rw [hOff]))
    show db.header.flags.has _ = true
    rw [hFlags, has_checkpoint_flagsOf]
    rfl
  have hLogs : ws = [] ↔ s.log = [] := by
    have hLen := congrArg List.length hSort
    rw [length_sortByKey, length_sortByKey] at hLen
    rw [← List.length_eq_zero_iff, hLen, List.length_eq_zero_iff]
  unfold ReadsOldOrNew
  rw [hNew, hCp]
  constructor
  · rintro (⟨hSame, -⟩ | ⟨-, hEmpty⟩)
    · exact .inr (Option.some.inj (Except.ok.inj hSame))
    · -- a log that is read as empty was empty
      by_cases hne : ws = []
      · exact .inl (hLogs.mp hne)
      · exact absurd hEmpty (h.readWal_ne_nil hne (length_le_applyWrites _))
  · rintro (hEmpty | rfl)
    · refine .inr ⟨rfl, ?_⟩
      have hZero : db.header.walLength = 0 := by
        rw [h.walLength, hLogs.mpr hEmpty]
        rfl
      unfold DbFile.readWalEntries
      rw [if_pos (show db.header.walLength = 0 from hZero)]
      exact ite_self _
    · -- the same record is written over itself, so the log has not moved
      refine .inl ⟨rfl, ?_⟩
      rw [← hSort]
      refine readWalEntries_of_holds (fun hne => ?_) h.walLength h.short ?_
      · show db.header.flags.has _ = true
        rw [hFlags, has_wal_flagsOf, hSet hne]
      · have hLen := h.checkpointLength
        have hWalOff := h.walOffset
        rw [Option.elim_some] at hLen
        show Holds _ db.header.walOffset _
        refine Holds.crash_away h.wal hr' hs' (by omega) (.inr ?_)
        have hLe : ((recordParts (F.checkpoint.toBytes c)).take n).flatten.length ≤ _ :=
          length_take_record_le
        rw [hOff, hWalOff, hLen]
        omega

/-- A checkpoint written over another survives a crash exactly at the cuts of `CheckpointCutOk`. -/
theorem Layout.checkpoint_survives_iff (h : Layout F db (some c₀) ws)
    (hCp : s.checkpoint = some c₀) (hSort : sortByKey F.lsn ws = sortByKey F.lsn s.log)
    (hShort : (F.checkpoint.toBytes c).length < 256 ^ 4) (n : Nat) :
    CheckpointSurvives F db s c n ↔ CheckpointCutOk F db s c₀ c n := by
  unfold CheckpointCutOk
  by_cases hZero : n = 0
  · subst hZero
    rw [if_pos rfl, h.survives_early hShort (by omega), iff_true]
    refine .inl ⟨?_, ?_⟩
    · rw [hCp]
      exact h.readCheckpoint
    · rw [← hSort]
      exact h.readWalEntries
  · rw [if_neg hZero]
    by_cases hHead : n < 3
    · rw [if_pos hHead, h.survives_early hShort (by omega)]
      exact h.survives_record_header hCp hSort hShort (by omega)
    · rw [if_neg hHead]
      by_cases hRec : n < 7
      · rw [if_pos hRec, h.survives_early hShort hRec]
        exact h.survives_record hCp hSort hShort (by omega)
      · rw [if_neg hRec]
        obtain ⟨hr', hs'⟩ := h.header_writeCheckpoint hShort
        have hOpen : ∀ db', DbFile.openFile (db.crash (db.writeCheckpoint F c) n) = .ok db' ↔ _ :=
          fun db' => open_crash_iff h.inRange h.standard hr' hs' h.onDisk rfl
            (by rw [h.standard.checkpointOffset])
        constructor
        · rintro ⟨db', hOk, -⟩
          exact ((hOpen db').mp hOk).1
        · intro hCut
          exact ⟨_, (hOpen _).mpr ⟨hCut, rfl⟩, .inr (h.read_crash_header hShort (by omega))⟩

/-- **When a cut checkpoint has left the old state or the new one**, for every file that
holds a checkpoint, every new checkpoint and every cut. -/
theorem checkpoint_crash_iff (F : DbFormat E C) (calls : List (DbCall E C))
    (hShort : ∀ call ∈ calls, call.Short F) (db : DbFile)
    (hRun : execAll F create calls = .ok db) (c₀ : C)
    (hCp : (calls.foldl (DbState.step F) ⟨none, []⟩).checkpoint = some c₀) (c : C)
    (hc : (F.checkpoint.toBytes c).length < 256 ^ 4) (n : Nat) :
    CheckpointSurvives F db (calls.foldl (DbState.step F) ⟨none, []⟩) c n ↔
      CheckpointCutOk F db (calls.foldl (DbState.step F) ⟨none, []⟩) c₀ c n := by
  obtain ⟨ws, hLayout, hSort⟩ := layout_of_execAll hShort hRun
  rw [hCp] at hLayout
  exact hLayout.checkpoint_survives_iff hCp hSort hc n

theorem oneEntry_layout : ∃ db ws, execAll u64Format create [.writeCheckpoint 1, .appendWal 2] = .ok db ∧
    Layout u64Format db (some 1) ws ∧ sortByKey u64Format.lsn ws = [2] := by
  have hStart : Represents u64Format headerSize create ⟨none, []⟩ :=
    ⟨[], layout_create, rfl, Nat.le_refl _⟩
  rcases hStart.execAll (fun call (_ : call ∈ [.writeCheckpoint 1, .appendWal 2]) =>
    short_u64 call) with ⟨db, hOk, ws, hLayout, hSort, -⟩ | ⟨-, hLarge⟩
  · exact ⟨db, ws, hOk, hLayout, hSort⟩
  · exact absurd hLarge (by decide)

/-- The checkpoint 3 over the checkpoint 1, cut off after the record: the file is read as the
new checkpoint with the old log, which the new checkpoint contains already. -/
theorem checkpoint_crash_mixed : ∃ db,
    execAll u64Format create [.writeCheckpoint 1, .appendWal 2] = .ok db ∧
      ¬ CheckpointSurvives u64Format db ⟨some 1, [2]⟩ 3 3 := by
  obtain ⟨db, ws, hOk, hLayout, hSort⟩ := oneEntry_layout
  refine ⟨db, hOk, fun hSurvives => ?_⟩
  have hCut := (hLayout.checkpoint_survives_iff (s := ⟨some 1, [2]⟩) rfl hSort
    (short_u64 (.writeCheckpoint 3)) 3).mp hSurvives
  rcases hCut with hEmpty | hSame
  · cases hEmpty
  · exact absurd hSame (by decide)

/-- The same checkpoint, with all of the header written up to its checksum. -/
theorem checkpoint_crash_done : ∃ db,
    execAll u64Format create [.writeCheckpoint 1, .appendWal 2] = .ok db ∧
      CheckpointSurvives u64Format db ⟨some 1, [2]⟩ 3 14 := by
  obtain ⟨db, ws, hOk, -, -⟩ := oneEntry_layout
  exact ⟨db, hOk, (checkpoint_crash_iff u64Format [.writeCheckpoint 1, .appendWal 2]
    (fun call _ => short_u64 call) db hOk 1 rfl 3 (short_u64 (.writeCheckpoint 3)) 14).mpr
      fun hLt => absurd hLt (by decide)⟩

end DbFile

end MiniGU
