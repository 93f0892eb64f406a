import MiniGU.Results.DbFile

/-!
# A torn end of the log

A file of the database is cut inside its WAL region. Opening it still succeeds, and reading the log

* stops before the torn entry where fewer than four bytes of it are left, its length being cut;
* fails otherwise, on the checksum or on the payload.

`torn_tail_iff`: nothing but the torn entry is lost if and only if fewer than four bytes of it are
left.
-/

namespace MiniGU

-- ----
-- Reading a file that has been cut
-- ----

variable {f : List UInt8}

theorem Holds.take {offset n : Nat} {data : List UInt8} (h : Holds f offset data)
    (hBefore : offset + data.length ≤ n) : Holds (f.take n) offset data := by
  intro i hi
  rw [List.getElem?_take_of_lt (by omega)]
  exact h i hi

theorem readAt_of_short {offset n : Nat} (h : f.length < offset + n) (hn : 0 < n) :
    readAt f offset n = none := by
  unfold readAt
  dsimp only
  rw [if_neg]
  rw [List.length_take, List.length_drop]
  omega

theorem readExact_of_short {offset n : Nat} (h : f.length < offset + n) (hn : 0 < n) :
    readExact f offset n = .error .unexpectedEof := by
  unfold readExact
  rw [readAt_of_short h hn]

namespace DbFile

variable {E C : Type} {F : DbFormat E C} {db : DbFile} {cp : Option C} {ws : List E} {n : Nat}

-- ----
-- What a cut leaves of a log
-- ----

/-- The entries whose records lie wholly in the first `room` bytes of a log. -/
def wholeRecords (F : DbFormat E C) : List E → Nat → List E
  | [], _ => []
  | e :: es, room =>
    let size := (recordBytes (F.entry.toBytes e)).length
    if size ≤ room then e :: wholeRecords F es (room - size) else []

/-- The bytes of the record after these that are left. -/
def tornBytes (F : DbFormat E C) (ws : List E) (room : Nat) : Nat :=
  room - (logBytes F (wholeRecords F ws room)).length

theorem logBytes_cons (e : E) (es : List E) :
    logBytes F (e :: es) = recordBytes (F.entry.toBytes e) ++ logBytes F es := rfl

/-- A record that lies before the cut is the first of the whole ones. -/
theorem wholeRecords_cons {e : E} {es : List E} {room : Nat}
    (h : (recordBytes (F.entry.toBytes e)).length ≤ room) :
    wholeRecords F (e :: es) room =
      e :: wholeRecords F es (room - (recordBytes (F.entry.toBytes e)).length) :=
  if_pos h

theorem wholeRecords_torn {e : E} {es : List E} {room : Nat}
    (h : room < (recordBytes (F.entry.toBytes e)).length) : wholeRecords F (e :: es) room = [] :=
  if_neg (Nat.not_le.mpr h)

theorem tornBytes_cons {e : E} {es : List E} {room : Nat}
    (h : (recordBytes (F.entry.toBytes e)).length ≤ room) :
    tornBytes F (e :: es) room =
      tornBytes F es (room - (recordBytes (F.entry.toBytes e)).length) := by
  unfold tornBytes
  rw [wholeRecords_cons h, logBytes_cons, List.length_append]
  omega

theorem tornBytes_torn {e : E} {es : List E} {room : Nat}
    (h : room < (recordBytes (F.entry.toBytes e)).length) : tornBytes F (e :: es) room = room := by
  unfold tornBytes
  rw [wholeRecords_torn h]
  exact Nat.sub_zero room

-- ----
-- The loop
-- ----

/-- The checksum or the payload of a record that is cut behind its length cannot be read. -/
theorem readPayload_torn {offset : Nat} {payload : List UInt8} {mismatch : DbFileError}
    (h : Holds f offset (recordBytes payload)) (hLen : payload.length < 256 ^ 4)
    (hCut : n < offset + (recordBytes payload).length) :
    readPayload (f.take n) offset (leBytes 4 payload.length) mismatch = .error .unexpectedEof := by
  have hShort : (f.take n).length ≤ n := List.length_take_le ..
  rw [length_recordBytes, recordHeaderSize] at hCut
  unfold readPayload
  by_cases hCrc : n < offset + 4 + 4
  · rw [readExact_of_short (by omega) (by omega)]
    rfl
  · -- the checksum is whole, so that the payload is not, and not empty
    obtain ⟨-, hHolds, -⟩ := holds_recordBytes.mp h
    have hRead := readExact_of_holds (hHolds.take (n := n) (by rw [length_leBytes]; omega))
      (length_leBytes ..)
    rw [hRead, ofLeBytes_leBytes_of_lt hLen, recordHeaderSize,
      readExact_of_short (by omega) (by omega)]
    rfl

/-- **The loop on a log that is cut at `n`.** -/
theorem readWalLoop_cut {walEnd fuel offset : Nat}
    (hShort : ∀ e ∈ ws, (F.entry.toBytes e).length < 256 ^ 4)
    (h : Holds f offset (logBytes F ws)) (hEnd : offset + (logBytes F ws).length = walEnd)
    (hFrom : offset ≤ n) (hTo : n ≤ walEnd) (hFuel : ws.length ≤ fuel) :
    readWalLoop F (f.take n) walEnd fuel offset =
      if tornBytes F ws (n - offset) < 4 then .ok (wholeRecords F ws (n - offset))
      else .error .unexpectedEof := by
  induction ws generalizing fuel offset with
  | nil =>
    have hDone : offset = walEnd := hEnd
    have hRoom : n - offset = 0 := by omega
    have hLoop : readWalLoop F (f.take n) walEnd fuel offset = .ok [] := by
      cases fuel with
      | zero => rfl
      | succ fuel =>
        unfold readWalLoop
        rw [if_neg (by omega)]
    rw [hLoop, hRoom]
    rfl
  | cons e ws ih =>
    have hHead := hShort e List.mem_cons_self
    have hSize : (recordBytes (F.entry.toBytes e)).length = 8 + (F.entry.toBytes e).length := by
      rw [length_recordBytes, recordHeaderSize]
    rw [logBytes_cons] at h hEnd
    rw [holds_append] at h
    rw [List.length_append] at hEnd
    obtain ⟨hRecord, hRest⟩ := h
    have hLt : offset < walEnd := by omega
    cases fuel with
    | zero => cases hFuel
    | succ fuel =>
      unfold readWalLoop
      rw [if_pos hLt]
      by_cases hWhole : (recordBytes (F.entry.toBytes e)).length ≤ n - offset
      · -- the record lies before the cut
        have hKept : Holds (f.take n) offset (recordBytes (F.entry.toBytes e)) :=
          hRecord.take (by omega)
        have hNext := ih (fun e' he' => hShort e' (List.mem_cons_of_mem _ he')) hRest (by omega)
          (by omega) (Nat.le_of_succ_le_succ hFuel)
        have hRoom : n - (offset + (recordBytes (F.entry.toBytes e)).length) =
            n - offset - (recordBytes (F.entry.toBytes e)).length := by omega
        rw [hRoom, length_recordBytes] at hNext
        rw [readAt_eq_some.mpr ⟨length_leBytes .., (holds_recordBytes.mp hKept).1⟩]
        dsimp only
        rw [readPayload_of_holds hKept hHead, ofLeBytes_leBytes_of_lt hHead]
        dsimp only [bind, Except.bind]
        rw [F.entry.fromBytes_toBytes]
        dsimp only
        rw [hNext, tornBytes_cons hWhole, wholeRecords_cons hWhole, length_recordBytes]
        by_cases hTorn : tornBytes F ws
            (n - offset - (recordHeaderSize + (F.entry.toBytes e).length)) < 4
        · rw [if_pos hTorn, if_pos hTorn]
          rfl
        · rw [if_neg hTorn, if_neg hTorn]
      · -- the record is torn
        have hCut := Nat.not_le.mp hWhole
        have hFile : (f.take n).length ≤ n := List.length_take_le ..
        rw [tornBytes_torn hCut, wholeRecords_torn hCut]
        by_cases hLength : n - offset < 4
        · rw [if_pos hLength, readAt_of_short (by omega) (by omega)]
        · have hKept : Holds (f.take n) offset (leBytes 4 (F.entry.toBytes e).length) :=
            (holds_recordBytes.mp hRecord).1.take (by rw [length_leBytes]; omega)
          rw [if_neg hLength, readAt_eq_some.mpr ⟨length_leBytes .., hKept⟩]
          dsimp only
          rw [readPayload_torn hRecord hHead (by omega)]
          rfl

-- ----
-- The file
-- ----

theorem Layout.openFile_cut (h : Layout F db cp ws) (hFrom : db.header.walOffset ≤ n) :
    DbFile.openFile (db.file.take n) = .ok ⟨db.file.take n, db.header⟩ := by
  have hOffset := h.walOffset
  have hKept : Holds (db.file.take n) 0 db.header.parts.flatten :=
    h.onDisk.take (by
      rw [DbFileHeader.length_parts_flatten h.inRange h.standard]
      omega)
  unfold DbFile.openFile
  rw [DbFileHeader.readFrom_of_holds h.inRange hKept,
    DbFileHeader.validate_of_crc h.standard h.crc]
  rfl

/-- **Reading the log of a file that is cut in its WAL region.** -/
theorem Layout.readWal_cut (h : Layout F db cp ws) (hFrom : db.header.walOffset ≤ n)
    (hTo : n ≤ db.header.walOffset + db.header.walLength) :
    (DbFile.mk (db.file.take n) db.header).readWalEntries F =
      if tornBytes F ws (n - db.header.walOffset) < 4 then
        .ok (sortByKey F.lsn (wholeRecords F ws (n - db.header.walOffset)))
      else .error .unexpectedEof := by
  obtain ⟨b, hFlags, hWal⟩ := h.flags
  have hLength := h.walLength
  unfold DbFile.readWalEntries
  dsimp only
  cases hLog : ws with
  | nil =>
    rw [hLog] at hLength
    have hZero : db.header.walLength = 0 := hLength
    have hRoom : n - db.header.walOffset = 0 := by omega
    rw [if_pos hZero, hRoom]
    exact ite_self _
  | cons e es =>
    have hNe : ws ≠ [] := by
      rw [hLog]
      exact List.cons_ne_nil e es
    have hCount := length_le_logBytes (F := F) ws
    have hPos : 0 < ws.length := List.length_pos_iff.mpr hNe
    have hFlag : db.header.flags.has DbFileFlags.hasWal = true := by
      rw [hFlags, has_wal_flagsOf, hWal hNe]
    rw [← hLog, hFlag, if_neg (by simp), if_neg (by omega),
      readWalLoop_cut h.short h.wal (by rw [hLength]) hFrom hTo (by omega)]
    by_cases hTorn : tornBytes F ws (n - db.header.walOffset) < 4
    · rw [if_pos hTorn, if_pos hTorn]
      rfl
    · rw [if_neg hTorn, if_neg hTorn]
      rfl

/-- The cut file opens, and its log is read as the entries wholly before the cut. -/
def TornTailSurvives (F : DbFormat E C) (db : DbFile) (ws : List E) (n : Nat) : Prop :=
  ∃ db', openFile (db.file.take n) = .ok db' ∧
    db'.readWalEntries F = .ok (sortByKey F.lsn (wholeRecords F ws (n - db.header.walOffset)))

/-- **When a torn end of the log loses only the torn entry**: for every file and every cut in its
WAL region. -/
theorem torn_tail_iff (h : Layout F db cp ws) (hFrom : db.header.walOffset ≤ n)
    (hTo : n ≤ db.header.walOffset + db.header.walLength) :
    TornTailSurvives F db ws n ↔ tornBytes F ws (n - db.header.walOffset) < 4 := by
  have hOpen := h.openFile_cut hFrom
  have hRead := h.readWal_cut hFrom hTo
  constructor
  · rintro ⟨db', hOk, hEntries⟩
    obtain rfl := Except.ok.inj (hOpen.symm.trans hOk)
    rw [hRead] at hEntries
    split at hEntries
    · assumption
    · cases hEntries
  · intro hTorn
    refine ⟨_, hOpen, ?_⟩
    rw [hRead, if_pos hTorn]

-- ----
-- Two entries, the second torn
-- ----

theorem Layout.appendWal_fits (h : Layout F db cp ws) {e : E}
    (hShort : (F.entry.toBytes e).length < 256 ^ 4)
    (hFits : db.header.walOffset + db.header.walLength +
      (recordHeaderSize + (F.entry.toBytes e).length) ≤ maxFileSize) :
    ∃ db', Layout F db' cp (ws ++ [e]) ∧ db'.header.walOffset = db.header.walOffset ∧
      db'.header.walLength =
        db.header.walLength + (recordHeaderSize + (F.entry.toBytes e).length) := by
  obtain ⟨hr, hs⟩ := h.header_appendWal hShort
  obtain ⟨db', hOk⟩ : ∃ db', db.perform (db.appendWal F e) = .ok db' :=
    perform_record hr hs hFits
  have hNext := h.appendWal hShort hOk
  obtain ⟨-, rfl⟩ := perform_ok hOk
  exact ⟨_, hNext, rfl, rfl⟩

/-- A new file with two entries, whose records have ten bytes each. -/
theorem two_entries_file : ∃ db, Layout u64Format db none [300, 301] ∧
    db.header.walOffset = 256 ∧ db.header.walLength = 20 := by
  have hNew : Layout u64Format create none [] := layout_create
  obtain ⟨db₁, hOne, hOffset₁, hLength₁⟩ :=
    hNew.appendWal_fits (short_u64 (.appendWal 300)) (by decide)
  have hOffset : db₁.header.walOffset = 256 := hOffset₁
  have hLength : db₁.header.walLength = 10 := hLength₁
  obtain ⟨db₂, hTwo, hOffset₂, hLength₂⟩ :=
    hOne.appendWal_fits (short_u64 (.appendWal 301)) (by rw [hOffset, hLength]; decide)
  rw [hOffset] at hOffset₂
  rw [hLength] at hLength₂
  exact ⟨db₂, hTwo, hOffset₂, hLength₂⟩

/-- Three bytes of the second record are left: the first is read. -/
theorem torn_tail_three_bytes : ∃ db, Layout u64Format db none [300, 301] ∧
    TornTailSurvives u64Format db [300, 301] 269 ∧ wholeRecords u64Format [300, 301] 13 = [300] := by
  obtain ⟨db, hLayout, hOffset, hLength⟩ := two_entries_file
  have hTorn := torn_tail_iff hLayout (by omega : db.header.walOffset ≤ 269) (by omega)
  rw [hOffset] at hTorn
  exact ⟨db, hLayout, hTorn.mpr (by decide), by decide⟩

/-- Four bytes of it are left: the file opens, and reading the log fails, the first entry too. -/
theorem torn_tail_four_bytes : ∃ db, Layout u64Format db none [300, 301] ∧
    wholeRecords u64Format [300, 301] 14 = [300] ∧
    openFile (db.file.take 270) = .ok ⟨db.file.take 270, db.header⟩ ∧
    (DbFile.mk (db.file.take 270) db.header).readWalEntries u64Format = .error .unexpectedEof ∧
    ¬ TornTailSurvives u64Format db [300, 301] 270 := by
  obtain ⟨db, hLayout, hOffset, hLength⟩ := two_entries_file
  have hOpen := hLayout.openFile_cut (by omega : db.header.walOffset ≤ 270)
  have hRead := hLayout.readWal_cut (by omega : db.header.walOffset ≤ 270) (by omega)
  rw [hOffset, if_neg (by decide)] at hRead
  refine ⟨db, hLayout, by decide, hOpen, hRead, ?_⟩
  rintro ⟨db', hOk, hEntries⟩
  obtain rfl := Except.ok.inj (hOpen.symm.trans hOk)
  rw [hRead] at hEntries
  cases hEntries

end DbFile

end MiniGU
