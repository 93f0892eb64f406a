import MiniGU.Model.DbFile

/-!
# The layout of the database file

What the bytes of a file say: which header they hold (`readFrom_of_holds`) and which records
(`readCheckpoint_of_layout`, `readWalEntries_of_layout`).
-/

namespace MiniGU

variable {f : List UInt8}

theorem readExact_of_holds {offset n : Nat} {data : List UInt8} (h : Holds f offset data)
    (hn : data.length = n) : readExact f offset n = .ok data := by
  unfold readExact
  rw [readAt_eq_some.mpr ⟨hn, h⟩]

/-! ## The header -/

namespace DbFileHeader

/-- The fields have the width they are written with. -/
structure InRange (h : DbFileHeader) : Prop where
  magic : h.magic.length = 8
  version : h.version < 256 ^ 4
  headerSize : h.headerSize < 256 ^ 4
  checkpointOffset : h.checkpointOffset < 256 ^ 8
  checkpointLength : h.checkpointLength < 256 ^ 8
  walOffset : h.walOffset < 256 ^ 8
  walLength : h.walLength < 256 ^ 8
  lastLsn : h.lastLsn < 256 ^ 8
  lastCommitTs : h.lastCommitTs < 256 ^ 8

variable {h : DbFileHeader}

/-- The checks of `read_from`. -/
def validate (h : DbFileHeader) : Except DbFileError DbFileHeader := do
  h.validateMagic
  h.validateVersion
  h.validateCrc
  return h

theorem ofNat_ofLeBytes (x : UInt32) : UInt32.ofNat (ofLeBytes (leBytes 4 x.toNat)) = x := by
  rw [ofLeBytes_leBytes_of_lt (Nat.lt_of_lt_of_eq x.toNat_lt (by decide))]
  exact UInt32.ofNat_toNat

/-- **A file that starts with a header gives that header**, up to the checks. -/
theorem readFrom_of_holds (hr : h.InRange) (hf : Holds f 0 h.parts.flatten) :
    readFrom f = h.validate := by
  simp only [parts, fields, List.cons_append, List.nil_append, List.flatten_cons,
    List.flatten_nil, holds_append, length_leBytes, hr.magic, Nat.zero_add, Nat.reduceAdd] at hf
  obtain ⟨h₁, h₂, h₃, h₄, h₅, h₆, h₇, h₈, h₉, h₁₀, h₁₁, -⟩ := hf
  unfold readFrom
  rw [readExact_of_holds h₁ hr.magic, readExact_of_holds h₂ (length_leBytes ..),
    readExact_of_holds h₃ (length_leBytes ..), readExact_of_holds h₄ (length_leBytes ..),
    readExact_of_holds h₅ (length_leBytes ..), readExact_of_holds h₆ (length_leBytes ..),
    readExact_of_holds h₇ (length_leBytes ..), readExact_of_holds h₈ (length_leBytes ..),
    readExact_of_holds h₉ (length_leBytes ..), readExact_of_holds h₁₀ (length_leBytes ..),
    readExact_of_holds h₁₁ (length_leBytes ..)]
  dsimp only [bind, Except.bind]
  simp only [ofLeBytes_leBytes_of_lt hr.version, ofLeBytes_leBytes_of_lt hr.headerSize,
    ofLeBytes_leBytes_of_lt hr.checkpointOffset, ofLeBytes_leBytes_of_lt hr.checkpointLength,
    ofLeBytes_leBytes_of_lt hr.walOffset, ofLeBytes_leBytes_of_lt hr.walLength,
    ofLeBytes_leBytes_of_lt hr.lastLsn, ofLeBytes_leBytes_of_lt hr.lastCommitTs, ofNat_ofLeBytes]
  rfl

/-- A header of this program: its constants. -/
structure Standard (h : DbFileHeader) : Prop where
  magic : h.magic = magicBytes
  version : h.version = currentVersion
  headerSize : h.headerSize = MiniGU.headerSize
  checkpointOffset : h.checkpointOffset = MiniGU.headerSize

theorem validate_of_crc (hs : h.Standard) (hc : h.computeCrc = h.headerCrc) :
    h.validate = .ok h := by
  unfold validate validateMagic validateVersion validateCrc
  rw [if_neg (by simpa using hs.magic), if_neg (by rw [hs.version]; exact Nat.lt_irrefl _),
    if_neg (by simpa using hc)]
  rfl

theorem validate_of_crc_ne (hs : h.Standard) (hc : h.computeCrc ≠ h.headerCrc) :
    h.validate = .error (.headerChecksumMismatch h.headerCrc h.computeCrc) := by
  unfold validate validateMagic validateVersion validateCrc
  rw [if_neg (by simpa using hs.magic), if_neg (by rw [hs.version]; exact Nat.lt_irrefl _),
    if_pos hc]
  rfl

@[simp] theorem computeCrc_updateCrc : h.updateCrc.computeCrc = h.updateCrc.headerCrc := rfl

theorem length_parts_flatten (hr : h.InRange) (hs : h.Standard) :
    h.parts.flatten.length = MiniGU.headerSize := by
  simp only [parts, fields, List.cons_append, List.nil_append, List.flatten_cons,
    List.flatten_nil, List.length_append, length_leBytes, List.length_replicate, hr.magic,
    hs.headerSize, List.length_nil]
  rfl

end DbFileHeader

/-! ## The records -/

namespace DbFile

variable {E C : Type} {F : DbFormat E C} {offset : Nat} {payload : List UInt8}

/-- The bytes of a record. -/
def recordBytes (payload : List UInt8) : List UInt8 := (recordParts payload).flatten

@[simp] theorem length_recordBytes : (recordBytes payload).length = recordHeaderSize + payload.length := by
  simp [recordBytes, recordParts, recordHeaderSize]
  omega

theorem holds_recordBytes : Holds f offset (recordBytes payload) ↔
    Holds f offset (leBytes 4 payload.length) ∧
    Holds f (offset + 4) (leBytes 4 (crc32 payload).toNat) ∧
    Holds f (offset + recordHeaderSize) payload := by
  unfold recordBytes recordParts
  simp only [List.flatten_cons, List.flatten_nil, List.append_nil, holds_append, length_leBytes,
    recordHeaderSize, Nat.add_assoc, Nat.reduceAdd]

theorem readPayload_of_holds {mismatch : DbFileError} (h : Holds f offset (recordBytes payload))
    (hLen : payload.length < 256 ^ 4) :
    readPayload f offset (leBytes 4 payload.length) mismatch = .ok payload := by
  obtain ⟨-, hCrc, hPayload⟩ := holds_recordBytes.mp h
  have hBound : (crc32 payload).toNat < 256 ^ 4 :=
    Nat.lt_of_lt_of_eq (crc32 payload).toNat_lt (by decide)
  unfold readPayload
  rw [readExact_of_holds hCrc (length_leBytes ..), ofLeBytes_leBytes_of_lt hLen,
    readExact_of_holds hPayload rfl]
  show (if (crc32 payload).toNat ≠ ofLeBytes (leBytes 4 (crc32 payload).toNat) then _ else _) = _
  rw [ofLeBytes_leBytes_of_lt hBound, if_neg (by simp)]

/-- The bytes of a log. -/
def logBytes (F : DbFormat E C) (es : List E) : List UInt8 :=
  (es.map fun e => recordBytes (F.entry.toBytes e)).flatten

theorem logBytes_append (es es' : List E) :
    logBytes F (es ++ es') = logBytes F es ++ logBytes F es' := by
  simp [logBytes]

/-- **The loop reads the log that stands in its region.** -/
theorem readWalLoop_of_holds {es : List E} {walEnd fuel : Nat}
    (hShort : ∀ e ∈ es, (F.entry.toBytes e).length < 256 ^ 4)
    (h : Holds f offset (logBytes F es)) (hEnd : offset + (logBytes F es).length = walEnd)
    (hFuel : es.length ≤ fuel) : readWalLoop F f walEnd fuel offset = .ok es := by
  induction es generalizing fuel offset with
  | nil =>
    have hDone : ¬ offset < walEnd := by
      simp [logBytes] at hEnd
      omega
    cases fuel with
    | zero => rfl
    | succ fuel =>
      unfold readWalLoop
      rw [if_neg hDone]
  | cons e es ih =>
    rw [show logBytes F (e :: es) = recordBytes (F.entry.toBytes e) ++ logBytes F es from rfl] at h hEnd
    rw [holds_append] at h
    rw [List.length_append] at hEnd
    have hHead := hShort e List.mem_cons_self
    have hLt : offset < walEnd := by
      rw [length_recordBytes, recordHeaderSize] at hEnd
      omega
    cases fuel with
    | zero => simp at hFuel
    | succ fuel =>
      unfold readWalLoop
      rw [if_pos hLt, readAt_eq_some.mpr ⟨length_leBytes .., (holds_recordBytes.mp h.1).1⟩]
      dsimp only
      rw [readPayload_of_holds h.1 hHead, ofLeBytes_leBytes_of_lt hHead]
      dsimp only [bind, Except.bind]
      rw [F.entry.fromBytes_toBytes]
      dsimp only
      rw [length_recordBytes] at h hEnd
      rw [ih (fun e' he' => hShort e' (List.mem_cons_of_mem _ he')) h.2 (by omega)
        (by simp at hFuel; omega)]
      rfl

/-! ## The layout -/

/-- The flags of a file with or without a checkpoint, and with or without a log. -/
def flagsOf (hasCheckpoint hasWal : Bool) : DbFileFlags :=
  ⟨(if hasCheckpoint then 1 else 0) ||| (if hasWal then 2 else 0)⟩

/-- **What an open file looks like**: its header is on disk, the checkpoint stands after it
and the records of `ws` after that. -/
structure Layout (F : DbFormat E C) (db : DbFile) (cp : Option C) (ws : List E) : Prop where
  standard : db.header.Standard
  crc : db.header.computeCrc = db.header.headerCrc
  onDisk : Holds db.file 0 db.header.parts.flatten
  flags : ∃ b, db.header.flags = flagsOf cp.isSome b ∧ (ws ≠ [] → b = true)
  walOffset : db.header.walOffset = headerSize + db.header.checkpointLength
  walLength : db.header.walLength = (logBytes F ws).length
  fits : db.header.walOffset + db.header.walLength ≤ maxFileSize
  lastLsn : db.header.lastLsn < 256 ^ 8
  lastCommitTs : db.header.lastCommitTs < 256 ^ 8
  checkpointLength : db.header.checkpointLength =
    cp.elim 0 fun c => recordHeaderSize + (F.checkpoint.toBytes c).length
  checkpoint : ∀ c, cp = some c → (F.checkpoint.toBytes c).length < 256 ^ 4 ∧
    Holds db.file headerSize (recordBytes (F.checkpoint.toBytes c))
  short : ∀ e ∈ ws, (F.entry.toBytes e).length < 256 ^ 4
  wal : Holds db.file db.header.walOffset (logBytes F ws)

variable {db db' : DbFile} {cp : Option C} {ws : List E}

theorem Layout.inRange (h : Layout F db cp ws) : db.header.InRange := by
  have hFits := h.fits
  have hWal := h.walOffset
  have hs := h.standard
  rw [maxFileSize] at hFits
  refine ⟨by rw [hs.magic]; rfl, by rw [hs.version]; decide, by rw [hs.headerSize]; decide,
    by rw [hs.checkpointOffset]; decide, ?_, ?_, ?_, h.lastLsn, h.lastCommitTs⟩
  · omega
  · omega
  · omega

/-- **Reopening gives the same handle.** -/
theorem Layout.openFile (h : Layout F db cp ws) : openFile db.file = .ok db := by
  unfold DbFile.openFile
  rw [DbFileHeader.readFrom_of_holds h.inRange h.onDisk,
    DbFileHeader.validate_of_crc h.standard h.crc]
  rfl

theorem has_checkpoint_flagsOf (a b : Bool) : (flagsOf a b).has DbFileFlags.hasCheckpoint = a := by
  cases a <;> cases b <;> decide

theorem has_wal_flagsOf (a b : Bool) : (flagsOf a b).has DbFileFlags.hasWal = b := by
  cases a <;> cases b <;> decide

theorem readCheckpoint_of_holds {c : C} (hFlag : db.header.flags.has DbFileFlags.hasCheckpoint = true)
    (hPos : db.header.checkpointLength ≠ 0) (hLen : (F.checkpoint.toBytes c).length < 256 ^ 4)
    (hRec : Holds db.file db.header.checkpointOffset (recordBytes (F.checkpoint.toBytes c))) :
    db.readCheckpoint F = .ok (some c) := by
  unfold DbFile.readCheckpoint
  rw [hFlag, if_neg (by simp), if_neg hPos,
    readExact_of_holds (holds_recordBytes.mp hRec).1 (length_leBytes ..)]
  dsimp only [bind, Except.bind]
  rw [readPayload_of_holds hRec hLen]
  dsimp only
  rw [F.checkpoint.fromBytes_toBytes]

theorem Layout.checkpointLength_ne {c : C} (h : Layout F db (some c) ws) :
    db.header.checkpointLength ≠ 0 := by
  rw [h.checkpointLength]
  simp [recordHeaderSize]

/-- **The checkpoint that stands in the file is the one read.** -/
theorem Layout.readCheckpoint (h : Layout F db cp ws) : db.readCheckpoint F = .ok cp := by
  obtain ⟨b, hFlags, -⟩ := h.flags
  cases cp with
  | none =>
    unfold DbFile.readCheckpoint
    rw [hFlags, has_checkpoint_flagsOf]
    rfl
  | some c =>
    obtain ⟨hLen, hRec⟩ := h.checkpoint c rfl
    refine readCheckpoint_of_holds ?_ h.checkpointLength_ne hLen ?_
    · rw [hFlags, has_checkpoint_flagsOf]
      rfl
    · rw [h.standard.checkpointOffset]
      exact hRec

theorem length_le_logBytes (ws : List E) : ws.length ≤ (logBytes F ws).length := by
  induction ws with
  | nil => exact Nat.zero_le _
  | cons e ws ih =>
    rw [show logBytes F (e :: ws) = recordBytes (F.entry.toBytes e) ++ logBytes F ws from rfl,
      List.length_append, length_recordBytes, recordHeaderSize, List.length_cons]
    omega

/-- The records of a log in their place are read, in the order of the LSNs. -/
theorem readWalEntries_of_holds (hFlag : ws ≠ [] → db.header.flags.has DbFileFlags.hasWal = true)
    (hLen : db.header.walLength = (logBytes F ws).length)
    (hShort : ∀ e ∈ ws, (F.entry.toBytes e).length < 256 ^ 4)
    (hWal : Holds db.file db.header.walOffset (logBytes F ws)) :
    db.readWalEntries F = .ok (sortByKey F.lsn ws) := by
  unfold DbFile.readWalEntries
  cases ws with
  | nil =>
    rw [if_pos (show db.header.walLength = 0 from hLen)]
    exact ite_self _
  | cons e ws =>
    have hLe := length_le_logBytes (F := F) (e :: ws)
    have hPos : ¬ db.header.walLength = 0 := by
      rw [hLen]
      simp at hLe
      omega
    rw [hFlag (by simp), if_neg (by simp), if_neg hPos,
      readWalLoop_of_holds hShort hWal (by rw [hLen]) (by rw [hLen]; exact hLe)]
    rfl

/-- **The log that stands in the file is the one read.** -/
theorem Layout.readWalEntries (h : Layout F db cp ws) :
    db.readWalEntries F = .ok (sortByKey F.lsn ws) := by
  obtain ⟨b, hFlags, hWal⟩ := h.flags
  refine readWalEntries_of_holds (fun hne => ?_) h.walLength h.short h.wal
  rw [hFlags, has_wal_flagsOf, hWal hne]

/-! ## What each call does to the layout -/

theorem perform_ok {u : Update} (h : db.perform u = .ok db') :
    (∀ w ∈ u.writes, w.offset + w.data.length ≤ maxFileSize) ∧
      db' = ⟨applyWrites db.file u.writes, u.header⟩ := by
  unfold perform at h
  split at h
  · rename_i hAll
    exact ⟨by simpa using hAll, (Except.ok.inj h).symm⟩
  · cases h

theorem perform_of_fits {u : Update} (h : ∀ w ∈ u.writes, w.offset + w.data.length ≤ maxFileSize) :
    db.perform u = .ok ⟨applyWrites db.file u.writes, u.header⟩ := by
  unfold perform
  rw [if_pos (by simpa using h)]

/-- A header that is written stands at the start; what stands after it is kept. -/
theorem holds_writeTo {h : DbFileHeader} : Holds (applyWrites f h.writeTo) 0 h.parts.flatten :=
  holds_consecutive

theorem Holds.writeTo {h : DbFileHeader} {data : List UInt8} (hData : Holds f offset data)
    (hr : h.InRange) (hs : h.Standard) (hAfter : headerSize ≤ offset) :
    Holds (applyWrites f h.writeTo) offset data :=
  Holds.applyWrites hData (.inr (by rw [DbFileHeader.length_parts_flatten hr hs]; omega))

theorem holds_record : Holds (applyWrites f (consecutive offset (recordParts payload))) offset
    (recordBytes payload) :=
  holds_consecutive

theorem writeTo_fits {h : DbFileHeader} (hr : h.InRange) (hs : h.Standard) {w : Write}
    (hw : w ∈ h.writeTo) : w.offset + w.data.length ≤ maxFileSize := by
  have hEnd := consecutive_end hw
  rw [DbFileHeader.length_parts_flatten hr hs] at hEnd
  have hSmall : headerSize ≤ maxFileSize := by decide
  omega

theorem record_fits (h : ∀ w ∈ consecutive offset (recordParts payload),
    w.offset + w.data.length ≤ maxFileSize) :
    offset + (recordHeaderSize + payload.length) ≤ maxFileSize := by
  have hLast := h ⟨offset + 4 + 4, payload⟩ (by simp [consecutive, recordParts])
  dsimp only at hLast
  rw [recordHeaderSize]
  omega

theorem set_wal_flagsOf (a b : Bool) : (flagsOf a b).set DbFileFlags.hasWal = flagsOf a true := by
  cases a <;> cases b <;> decide

theorem clear_wal_flagsOf (a b : Bool) :
    (flagsOf a b).clear DbFileFlags.hasWal = flagsOf a false := by
  cases a <;> cases b <;> decide

theorem set_checkpoint_flagsOf (a b : Bool) :
    (flagsOf a b).set DbFileFlags.hasCheckpoint = flagsOf true b := by
  cases a <;> cases b <;> decide

/-- The header after an append keeps the constants and stays in range. -/
theorem Layout.header_appendWal (h : Layout F db cp ws) {e : E}
    (hShort : (F.entry.toBytes e).length < 256 ^ 4) :
    (db.appendWal F e).header.InRange ∧ (db.appendWal F e).header.Standard := by
  have hr := h.inRange
  have hs := h.standard
  have hFits := h.fits
  refine ⟨⟨hr.magic, hr.version, hr.headerSize, hr.checkpointOffset, hr.checkpointLength,
    hr.walOffset, ?_, F.lsn_lt e, hr.lastCommitTs⟩,
    ⟨hs.magic, hs.version, hs.headerSize, hs.checkpointOffset⟩⟩
  show db.header.walLength + (recordHeaderSize + (F.entry.toBytes e).length) < 256 ^ 8
  rw [maxFileSize] at hFits
  rw [recordHeaderSize]
  omega

/-- **Appending adds one record to the log.** -/
theorem Layout.appendWal (h : Layout F db cp ws) {e : E}
    (hShort : (F.entry.toBytes e).length < 256 ^ 4)
    (hOk : db.perform (db.appendWal F e) = .ok db') : Layout F db' cp (ws ++ [e]) := by
  obtain ⟨hFits, rfl⟩ := perform_ok hOk
  have hRec := record_fits fun w hw => hFits w (List.mem_append_left _ hw)
  have hLog : logBytes F (ws ++ [e]) = logBytes F ws ++ recordBytes (F.entry.toBytes e) := by
    rw [logBytes_append]
    simp [logBytes]
  have hLen : (logBytes F (ws ++ [e])).length =
      db.header.walLength + (recordHeaderSize + (F.entry.toBytes e).length) := by
    rw [hLog, List.length_append, length_recordBytes, h.walLength]
  obtain ⟨hr', hs'⟩ := h.header_appendWal hShort
  have hAfter : headerSize ≤ db.header.walOffset := by
    rw [h.walOffset]
    exact Nat.le_add_right ..
  have hKeep : ∀ {o : Nat} {data : List UInt8}, Holds db.file o data → headerSize ≤ o →
      o + data.length ≤ db.header.walOffset + db.header.walLength →
      Holds (applyWrites db.file (db.appendWal F e).writes) o data := by
    intro o data hData ho hBefore
    unfold DbFile.appendWal
    rw [applyWrites_append]
    exact Holds.writeTo (hData.applyWrites (.inl hBefore)) hr' hs' ho
  refine ⟨hs', rfl, ?_, ?_, h.walOffset, ?_, ?_, F.lsn_lt e, h.lastCommitTs, h.checkpointLength,
    fun c hc => ?_, ?_, ?_⟩
  · show Holds (applyWrites db.file (_ ++ _)) 0 _
    rw [applyWrites_append]
    exact holds_writeTo
  · obtain ⟨b, hFlags, -⟩ := h.flags
    refine ⟨true, ?_, fun _ => rfl⟩
    show db.header.flags.set DbFileFlags.hasWal = _
    rw [hFlags, set_wal_flagsOf]
  · exact hLen.symm
  · show db.header.walOffset + (db.header.walLength + _) ≤ maxFileSize
    omega
  · obtain ⟨hCp, hHolds⟩ := h.checkpoint c hc
    refine ⟨hCp, hKeep hHolds (Nat.le_refl _) ?_⟩
    have hCpLen := h.checkpointLength
    have hOff := h.walOffset
    rw [hc, Option.elim_some] at hCpLen
    rw [length_recordBytes]
    omega
  · intro e' he'
    rcases List.mem_append.mp he' with hOld | hNew
    · exact h.short e' hOld
    · rw [List.mem_singleton.mp hNew]
      exact hShort
  · show Holds _ db.header.walOffset _
    rw [hLog, holds_append]
    refine ⟨hKeep h.wal hAfter (by rw [h.walLength]), ?_⟩
    show Holds (applyWrites db.file (_ ++ _)) _ _
    rw [applyWrites_append, ← h.walLength]
    exact Holds.writeTo holds_record hr' hs' (by omega)

theorem Layout.header_writeCheckpoint (h : Layout F db cp ws) {c : C}
    (hShort : (F.checkpoint.toBytes c).length < 256 ^ 4) :
    (db.writeCheckpoint F c).header.InRange ∧ (db.writeCheckpoint F c).header.Standard := by
  have hr := h.inRange
  have hs := h.standard
  refine ⟨⟨hr.magic, hr.version, hr.headerSize, hr.checkpointOffset, ?_, ?_,
    show 0 < 256 ^ 8 by decide, F.checkpointLsn_lt c, F.latestCommitTs_lt c⟩,
    ⟨hs.magic, hs.version, hs.headerSize, hs.checkpointOffset⟩⟩
  · show recordHeaderSize + (F.checkpoint.toBytes c).length < 256 ^ 8
    rw [recordHeaderSize]
    omega
  · show db.header.checkpointOffset + (recordHeaderSize + (F.checkpoint.toBytes c).length) < 256 ^ 8
    rw [hs.checkpointOffset, MiniGU.headerSize, recordHeaderSize]
    omega

/-- **A checkpoint replaces the checkpoint and empties the log.** -/
theorem Layout.writeCheckpoint (h : Layout F db cp ws) {c : C}
    (hShort : (F.checkpoint.toBytes c).length < 256 ^ 4)
    (hOk : db.perform (db.writeCheckpoint F c) = .ok db') : Layout F db' (some c) [] := by
  obtain ⟨hFits, rfl⟩ := perform_ok hOk
  have hRec := record_fits fun w hw => hFits w (List.mem_append_left _ hw)
  have hs := h.standard
  rw [hs.checkpointOffset] at hRec
  obtain ⟨hr', hs'⟩ := h.header_writeCheckpoint hShort
  refine ⟨hs', rfl, ?_, ?_, ?_, rfl, ?_, F.checkpointLsn_lt c, F.latestCommitTs_lt c, rfl,
    fun c' hc' => ?_, by simp, holds_nil⟩
  · show Holds (applyWrites db.file (_ ++ _)) 0 _
    rw [applyWrites_append]
    exact holds_writeTo
  · obtain ⟨b, hFlags, -⟩ := h.flags
    refine ⟨false, ?_, fun hne => absurd rfl hne⟩
    show (db.header.flags.set DbFileFlags.hasCheckpoint).clear DbFileFlags.hasWal = _
    rw [hFlags, set_checkpoint_flagsOf, clear_wal_flagsOf]
    rfl
  · show db.header.checkpointOffset + _ = _
    rw [hs.checkpointOffset]
    rfl
  · show db.header.checkpointOffset + _ + 0 ≤ maxFileSize
    rw [hs.checkpointOffset]
    exact hRec
  · obtain rfl := Option.some.inj hc'
    refine ⟨hShort, ?_⟩
    show Holds (applyWrites db.file (_ ++ _)) _ _
    rw [applyWrites_append]
    refine Holds.writeTo ?_ hr' hs' (Nat.le_refl _)
    rw [hs.checkpointOffset]
    exact holds_record

theorem Layout.header_resetWal (h : Layout F db cp ws) (retained : List E) :
    (db.resetWal retained).header.InRange ∧ (db.resetWal retained).header.Standard := by
  have hr := h.inRange
  have hs := h.standard
  exact ⟨⟨hr.magic, hr.version, hr.headerSize, hr.checkpointOffset, hr.checkpointLength,
    hr.walOffset, show 0 < 256 ^ 8 by decide, hr.lastLsn, hr.lastCommitTs⟩,
    ⟨hs.magic, hs.version, hs.headerSize, hs.checkpointOffset⟩⟩

/-- The rewrite of `truncate_wal_until` starts from an empty log. -/
theorem Layout.resetWal (h : Layout F db cp ws) (retained : List E)
    (hOk : db.perform (db.resetWal retained) = .ok db') : Layout F db' cp [] := by
  obtain ⟨-, rfl⟩ := perform_ok hOk
  obtain ⟨hr', hs'⟩ := h.header_resetWal retained
  refine ⟨hs', rfl, holds_writeTo, ?_, h.walOffset, rfl, ?_, h.lastLsn, h.lastCommitTs,
    h.checkpointLength, fun c hc => ?_, by simp, holds_nil⟩
  · obtain ⟨b, hFlags, -⟩ := h.flags
    refine ⟨b && !retained.isEmpty, ?_, fun hne => absurd rfl hne⟩
    show (if retained.isEmpty then db.header.flags.clear DbFileFlags.hasWal
      else db.header.flags) = _
    rw [hFlags, clear_wal_flagsOf]
    cases retained.isEmpty <;> simp
  · have hFits := h.fits
    show db.header.walOffset + 0 ≤ maxFileSize
    omega
  · obtain ⟨hCp, hHolds⟩ := h.checkpoint c hc
    exact ⟨hCp, Holds.writeTo hHolds hr' hs' (Nat.le_refl _)⟩

theorem Layout.appendAll (h : Layout F db cp ws) {es : List E}
    (hShort : ∀ e ∈ es, (F.entry.toBytes e).length < 256 ^ 4)
    (hOk : db.appendAll F es = .ok db') : Layout F db' cp (ws ++ es) := by
  induction es generalizing db ws with
  | nil =>
    obtain rfl := Except.ok.inj hOk
    rwa [List.append_nil]
  | cons e es ih =>
    unfold DbFile.appendAll at hOk
    cases hHead : db.perform (db.appendWal F e) with
    | error err =>
      rw [hHead] at hOk
      cases hOk
    | ok db₁ =>
      rw [hHead] at hOk
      have hNext := h.appendWal (hShort e List.mem_cons_self) hHead
      have hAll := ih hNext (fun e' he' => hShort e' (List.mem_cons_of_mem _ he')) hOk
      rwa [List.append_assoc] at hAll

/-- **Truncation keeps the entries from `minLsn` on**: the log stays as it is, or what is
kept is written anew in the order of the LSNs. -/
theorem Layout.truncateWalUntil (h : Layout F db cp ws) {minLsn removed : Nat}
    (hOk : db.truncateWalUntil F minLsn = .ok (db', removed)) :
    ∃ ws', Layout F db' cp ws' ∧ sortByKey F.lsn ws' =
      sortByKey F.lsn (ws.filter fun e => decide (minLsn ≤ F.lsn e)) := by
  unfold DbFile.truncateWalUntil at hOk
  rw [h.readWalEntries] at hOk
  dsimp only [bind, Except.bind, pure, Except.pure] at hOk
  rw [← sortByKey_filter, length_sortByKey, length_sortByKey] at hOk
  split at hOk
  · -- nothing is removed
    rename_i hNone
    obtain ⟨rfl, -⟩ := Prod.mk.inj (Except.ok.inj hOk)
    have hAll : ws.filter (fun e => decide (minLsn ≤ F.lsn e)) = ws := by
      refine List.filter_sublist.eq_of_length ?_
      have hLe := List.length_filter_le (fun e => decide (minLsn ≤ F.lsn e)) ws
      omega
    exact ⟨ws, h, by rw [hAll]⟩
  · generalize hRet : sortByKey F.lsn (ws.filter fun e => decide (minLsn ≤ F.lsn e)) = retained
      at hOk
    cases hReset : db.perform (db.resetWal retained) with
    | error err =>
      rw [hReset] at hOk
      cases hOk
    | ok db₁ =>
      rw [hReset] at hOk
      dsimp only at hOk
      cases hApp : db₁.appendAll F retained with
      | error err =>
        rw [hApp] at hOk
        cases hOk
      | ok db₂ =>
        rw [hApp] at hOk
        obtain ⟨rfl, -⟩ := Prod.mk.inj (Except.ok.inj hOk)
        have hShort : ∀ e ∈ retained, (F.entry.toBytes e).length < 256 ^ 4 := by
          intro e he
          rw [← hRet, mem_sortByKey] at he
          exact h.short e (List.mem_filter.mp he).1
        refine ⟨retained, (h.resetWal retained hReset).appendAll hShort hApp, ?_⟩
        rw [← hRet, sortByKey_sortByKey]

theorem layout_create : Layout F create none [] := by
  have hHeader : create.header = DbFileHeader.new.updateCrc := rfl
  have hFile : create.file = applyWrites [] DbFileHeader.new.updateCrc.writeTo := by rw [create]
  refine ⟨?_, ?_, ?_, ?_, ?_, ?_, ?_, ?_, ?_, ?_, by simp, by simp, holds_nil⟩
  · rw [hHeader]
    exact ⟨rfl, rfl, rfl, rfl⟩
  · rw [hHeader]
    exact DbFileHeader.computeCrc_updateCrc
  · rw [hFile, hHeader]
    exact holds_writeTo
  · rw [hHeader]
    exact ⟨false, show (⟨0⟩ : DbFileFlags) = flagsOf false false by decide,
      fun hne => absurd rfl hne⟩
  · rw [hHeader]
    rfl
  · rw [hHeader]
    rfl
  · rw [hHeader]
    show headerSize + 0 ≤ maxFileSize
    decide
  · rw [hHeader]
    show 0 < 256 ^ 8
    decide
  · rw [hHeader]
    show 0 < 256 ^ 8
    decide
  · rw [hHeader]
    rfl

end DbFile

end MiniGU
