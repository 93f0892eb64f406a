import MiniGU.Lib.Bytes
import MiniGU.Lib.Crc32
import MiniGU.Lib.StableSort

/-!
# The database file

`db_file/header.rs` and `db_file/core.rs`: one file with a header of 256 bytes, a checkpoint
region and a WAL region after it. Every call that changes the file is a list of writes, one
for each `write_all`, together with the header the handle caches afterwards; a crash is a
prefix of the list.

Entries and checkpoints go through postcard, which is a parameter (`DbFormat`). File
offsets stay below `2^63`; a write that would go beyond fails.
-/

namespace MiniGU

/-- What the file keeps: WAL entries and checkpoints, and the `u64` fields it copies to its
header. -/
structure DbFormat (E C : Type) where
  entry : Codec E
  checkpoint : Codec C
  lsn : E → Nat
  checkpointLsn : C → Nat
  latestCommitTs : C → Nat
  lsn_lt : ∀ e, lsn e < 256 ^ 8
  checkpointLsn_lt : ∀ c, checkpointLsn c < 256 ^ 8
  latestCommitTs_lt : ∀ c, latestCommitTs c < 256 ^ 8

inductive DbFileError where
  | unexpectedEof
  | fileTooLarge
  | invalidMagic
  | unsupportedVersion (version current : Nat)
  | headerChecksumMismatch (expected actual : UInt32)
  | checkpointChecksumMismatch
  | walChecksumMismatch (offset : Nat)
  | deserialization
deriving DecidableEq, Repr

/-- `File::read_exact` after a seek. -/
def readExact (f : List UInt8) (offset n : Nat) : Except DbFileError (List UInt8) :=
  match readAt f offset n with
  | some data => .ok data
  | none => .error .unexpectedEof

/-! ## The header -/

/-- `*b"MINIGU\0\0"`. -/
def magicBytes : List UInt8 := [0x4D, 0x49, 0x4E, 0x49, 0x47, 0x55, 0, 0]

def currentVersion : Nat := 1

def headerSize : Nat := 256

structure DbFileFlags where
  bits : UInt32
deriving DecidableEq, Repr

namespace DbFileFlags

def hasCheckpoint : UInt32 := 1

def hasWal : UInt32 := 2

def has (flags : DbFileFlags) (flag : UInt32) : Bool := flags.bits &&& flag != 0

def set (flags : DbFileFlags) (flag : UInt32) : DbFileFlags := ⟨flags.bits ||| flag⟩

def clear (flags : DbFileFlags) (flag : UInt32) : DbFileFlags := ⟨flags.bits &&& ~~~flag⟩

end DbFileFlags

structure DbFileHeader where
  magic : List UInt8
  version : Nat
  headerSize : Nat
  flags : DbFileFlags
  checkpointOffset : Nat
  checkpointLength : Nat
  walOffset : Nat
  walLength : Nat
  lastLsn : Nat
  lastCommitTs : Nat
  headerCrc : UInt32
deriving DecidableEq, Repr

namespace DbFileHeader

def new : DbFileHeader where
  magic := magicBytes
  version := currentVersion
  headerSize := MiniGU.headerSize
  flags := ⟨0⟩
  checkpointOffset := MiniGU.headerSize
  checkpointLength := 0
  walOffset := MiniGU.headerSize
  walLength := 0
  lastLsn := 0
  lastCommitTs := 0
  headerCrc := 0

/-- The fields under the checksum, in the order they are written. -/
def fields (h : DbFileHeader) : List (List UInt8) :=
  [h.magic, leBytes 4 h.version, leBytes 4 h.headerSize, leBytes 4 h.flags.bits.toNat,
    leBytes 8 h.checkpointOffset, leBytes 8 h.checkpointLength, leBytes 8 h.walOffset,
    leBytes 8 h.walLength, leBytes 8 h.lastLsn, leBytes 8 h.lastCommitTs]

def computeCrc (h : DbFileHeader) : UInt32 := crc32 h.fields.flatten

def updateCrc (h : DbFileHeader) : DbFileHeader := { h with headerCrc := h.computeCrc }

/-- What `write_to` writes: the fields, the checksum and the padding. -/
def parts (h : DbFileHeader) : List (List UInt8) :=
  h.fields ++ [leBytes 4 h.headerCrc.toNat, List.replicate (h.headerSize - 72) 0]

def writeTo (h : DbFileHeader) : List Write := consecutive 0 h.parts

/-- `write_to` on any header: the length of the padding, `header_size - 72`, has no value below
zero, and the call panics. -/
def tryWriteTo (h : DbFileHeader) : Option (List Write) :=
  if h.headerSize < 72 then none else some h.writeTo

def validateMagic (h : DbFileHeader) : Except DbFileError Unit :=
  if h.magic ≠ magicBytes then .error .invalidMagic else .ok ()

def validateVersion (h : DbFileHeader) : Except DbFileError Unit :=
  if currentVersion < h.version then .error (.unsupportedVersion h.version currentVersion)
  else .ok ()

def validateCrc (h : DbFileHeader) : Except DbFileError Unit :=
  if h.computeCrc ≠ h.headerCrc then .error (.headerChecksumMismatch h.headerCrc h.computeCrc)
  else .ok ()

def readFrom (f : List UInt8) : Except DbFileError DbFileHeader := do
  let magic ← readExact f 0 8
  let version ← readExact f 8 4
  let headerSize ← readExact f 12 4
  let flags ← readExact f 16 4
  let checkpointOffset ← readExact f 20 8
  let checkpointLength ← readExact f 28 8
  let walOffset ← readExact f 36 8
  let walLength ← readExact f 44 8
  let lastLsn ← readExact f 52 8
  let lastCommitTs ← readExact f 60 8
  let headerCrc ← readExact f 68 4
  let header : DbFileHeader := {
    magic
    version := ofLeBytes version
    headerSize := ofLeBytes headerSize
    flags := ⟨.ofNat (ofLeBytes flags)⟩
    checkpointOffset := ofLeBytes checkpointOffset
    checkpointLength := ofLeBytes checkpointLength
    walOffset := ofLeBytes walOffset
    walLength := ofLeBytes walLength
    lastLsn := ofLeBytes lastLsn
    lastCommitTs := ofLeBytes lastCommitTs
    headerCrc := .ofNat (ofLeBytes headerCrc) }
  header.validateMagic
  header.validateVersion
  header.validateCrc
  return header

end DbFileHeader

/-! ## The file -/

/-- `RECORD_HEADER_SIZE`: the length and the checksum. -/
def recordHeaderSize : Nat := 8

/-- The largest offset of a file. -/
def maxFileSize : Nat := 2 ^ 63 - 1

/-- An open file: its bytes and the cached header. -/
structure DbFile where
  file : List UInt8
  header : DbFileHeader

/-- The writes of a call, and the header cached after it. -/
structure Update where
  writes : List Write
  header : DbFileHeader

/-- A record: length, checksum, payload. -/
def recordParts (payload : List UInt8) : List (List UInt8) :=
  [leBytes 4 payload.length, leBytes 4 (crc32 payload).toNat, payload]

namespace DbFile

variable {E C : Type} (F : DbFormat E C)

/-- A call that runs to its end. -/
def perform (db : DbFile) (u : Update) : Except DbFileError DbFile :=
  if u.writes.all fun w => decide (w.offset + w.data.length ≤ maxFileSize) then
    .ok ⟨applyWrites db.file u.writes, u.header⟩
  else .error .fileTooLarge

/-- The bytes on disk when a call is cut off after `n` writes. -/
def crash (db : DbFile) (u : Update) (n : Nat) : List UInt8 := applyWrites db.file (u.writes.take n)

def create : DbFile :=
  let header := DbFileHeader.new.updateCrc
  ⟨applyWrites [] header.writeTo, header⟩

/-- `DbFile::open` on a file with these bytes. -/
def openFile (file : List UInt8) : Except DbFileError DbFile := do
  let header ← DbFileHeader.readFrom file
  return ⟨file, header⟩

/-- The checksum and the payload of the record at `offset`, whose length has been read. -/
def readPayload (file : List UInt8) (offset : Nat) (len : List UInt8) (mismatch : DbFileError) :
    Except DbFileError (List UInt8) := do
  let storedCrc ← readExact file (offset + 4) 4
  let payload ← readExact file (offset + recordHeaderSize) (ofLeBytes len)
  if (crc32 payload).toNat ≠ ofLeBytes storedCrc then .error mismatch else .ok payload

def readCheckpoint (db : DbFile) : Except DbFileError (Option C) :=
  if !db.header.flags.has DbFileFlags.hasCheckpoint then .ok none
  else if db.header.checkpointLength = 0 then .ok none
  else do
    let len ← readExact db.file db.header.checkpointOffset 4
    let payload ← readPayload db.file db.header.checkpointOffset len .checkpointChecksumMismatch
    match F.checkpoint.fromBytes payload with
    | some c => .ok (some c)
    | none => .error .deserialization

/-- `write_checkpoint`. -/
def writeCheckpoint (db : DbFile) (c : C) : Update :=
  let payload := F.checkpoint.toBytes c
  let totalSize := recordHeaderSize + payload.length
  let header := { db.header with
    checkpointLength := totalSize
    flags := (db.header.flags.set DbFileFlags.hasCheckpoint).clear DbFileFlags.hasWal
    walOffset := db.header.checkpointOffset + totalSize
    walLength := 0
    lastLsn := F.checkpointLsn c
    lastCommitTs := F.latestCommitTs c }.updateCrc
  ⟨consecutive db.header.checkpointOffset (recordParts payload) ++ header.writeTo, header⟩

/-- `append_wal`. -/
def appendWal (db : DbFile) (e : E) : Update :=
  let payload := F.entry.toBytes e
  let header := { db.header with
    walLength := db.header.walLength + (recordHeaderSize + payload.length)
    flags := db.header.flags.set DbFileFlags.hasWal
    lastLsn := F.lsn e }.updateCrc
  ⟨consecutive (db.header.walOffset + db.header.walLength) (recordParts payload) ++ header.writeTo,
    header⟩

/-- The loop of `read_wal_entries`. Each round goes at least 8 bytes on, so `walEnd - offset`
rounds are enough and the fuel runs out only at the end of the region. -/
def readWalLoop (file : List UInt8) (walEnd : Nat) : Nat → Nat → Except DbFileError (List E)
  | 0, _ => .ok []
  | fuel + 1, offset =>
    if offset < walEnd then
      match readAt file offset 4 with
      -- a short read of the length ends the log, one of the rest is an error
      | none => .ok []
      | some len => do
        let payload ← readPayload file offset len (.walChecksumMismatch offset)
        match F.entry.fromBytes payload with
        | none => .error .deserialization
        | some e =>
          let es ← readWalLoop file walEnd fuel (offset + (recordHeaderSize + ofLeBytes len))
          return e :: es
    else .ok []

def readWalEntries (db : DbFile) : Except DbFileError (List E) :=
  if !db.header.flags.has DbFileFlags.hasWal then .ok []
  else if db.header.walLength = 0 then .ok []
  else do
    let es ← readWalLoop F db.file (db.header.walOffset + db.header.walLength) db.header.walLength
      db.header.walOffset
    return sortByKey F.lsn es

/-- The start of the rewrite in `truncate_wal_until`. -/
def resetWal (db : DbFile) (retained : List E) : Update :=
  let flags := if retained.isEmpty then db.header.flags.clear DbFileFlags.hasWal
    else db.header.flags
  let header := { db.header with walLength := 0, flags }.updateCrc
  ⟨header.writeTo, header⟩

/-- The loop that appends what is retained. -/
def appendAll (db : DbFile) : List E → Except DbFileError DbFile
  | [] => .ok db
  | e :: es => do
    let db ← db.perform (db.appendWal F e)
    db.appendAll es

def truncateWalUntil (db : DbFile) (minLsn : Nat) : Except DbFileError (DbFile × Nat) := do
  let all ← db.readWalEntries F
  let retained := all.filter fun e => decide (minLsn ≤ F.lsn e)
  let removed := all.length - retained.length
  if removed = 0 then return (db, 0)
  let db ← db.perform (db.resetWal retained)
  let db ← db.appendAll F retained
  return (db, removed)

/-- The writes of all appends of `appendAll`, one after the other. -/
def appendUpdates (header : DbFileHeader) : List E → Update
  | [] => ⟨[], header⟩
  | e :: es =>
    let head := (DbFile.mk [] header).appendWal F e
    let tail := appendUpdates head.header es
    ⟨head.writes ++ tail.writes, tail.header⟩

/-- All writes of `truncate_wal_until`. -/
def truncateUpdate (db : DbFile) (minLsn : Nat) : Except DbFileError Update := do
  let all ← db.readWalEntries F
  let retained := all.filter fun e => decide (minLsn ≤ F.lsn e)
  if all.length - retained.length = 0 then return ⟨[], db.header⟩
  let reset := db.resetWal retained
  let appends := appendUpdates F reset.header retained
  return ⟨reset.writes ++ appends.writes, appends.header⟩

end DbFile

end MiniGU
