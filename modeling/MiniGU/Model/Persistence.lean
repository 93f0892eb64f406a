import MiniGU.Model.DbFile

/-!
# Persistence providers

Where a graph keeps its log and its checkpoint: in memory (`tp/in_memory_persistence.rs`) or in a
database file (`tp/db_file_persistence.rs`), behind one interface (`tp/persistence.rs`). Either one
hands out log sequence numbers, from a counter that does not run out.

Of a file the calls are those of `DbFile`, which the manager in between passes on, and its errors
are the errors. Flushing and syncing change neither what is kept nor what is read.
-/

namespace MiniGU

section Persistence

variable {P E C Err : Type}

/-- `PersistenceProvider`. -/
structure PersistenceProvider (P E C Err : Type) where
  nextLsn : P → Nat × P
  setNextLsn : Nat → P → P
  currentLsn : P → Nat
  appendWal : E → P → Except Err P
  readWalEntries : P → Except Err (List E)
  truncateWalUntil : Nat → P → Except Err (Nat × P)
  writeCheckpoint : C → P → Except Err P
  readCheckpoint : P → Except Err (Option C)

/-! ## In memory -/

structure InMemoryPersistence (E C : Type) where
  nextLsn : Nat
  walEntries : List E
  checkpoint : Option C

namespace InMemoryPersistence

def new : InMemoryPersistence E C := ⟨1, [], none⟩

def provider (F : DbFormat E C) : PersistenceProvider (InMemoryPersistence E C) E C DbFileError where
  nextLsn p := (p.nextLsn, { p with nextLsn := p.nextLsn + 1 })
  setNextLsn lsn p := { p with nextLsn := lsn }
  currentLsn p := p.nextLsn
  appendWal entry p := .ok { p with walEntries := p.walEntries ++ [entry] }
  readWalEntries p := .ok p.walEntries
  truncateWalUntil minLsn p :=
    let entries := p.walEntries.filter fun e => minLsn ≤ F.lsn e
    .ok (p.walEntries.length - entries.length, { p with walEntries := entries })
  writeCheckpoint checkpoint p := .ok { p with checkpoint := some checkpoint }
  readCheckpoint p := .ok p.checkpoint

end InMemoryPersistence

/-! ## In a database file -/

structure DbFilePersistence where
  manager : DbFile
  nextLsn : Nat

namespace DbFilePersistence

def new (manager : DbFile) : DbFilePersistence := ⟨manager, manager.header.lastLsn + 1⟩

def provider (F : DbFormat E C) : PersistenceProvider DbFilePersistence E C DbFileError where
  nextLsn p := (p.nextLsn, { p with nextLsn := p.nextLsn + 1 })
  setNextLsn lsn p := { p with nextLsn := lsn }
  currentLsn p := p.nextLsn
  appendWal entry p := do
    let manager ← p.manager.perform (p.manager.appendWal F entry)
    .ok { p with manager }
  readWalEntries p := p.manager.readWalEntries F
  truncateWalUntil minLsn p := do
    let (manager, count) ← p.manager.truncateWalUntil F minLsn
    .ok (count, { p with manager })
  writeCheckpoint checkpoint p := do
    let manager ← p.manager.perform (p.manager.writeCheckpoint F checkpoint)
    .ok { p with manager }
  readCheckpoint p := p.manager.readCheckpoint F

end DbFilePersistence

/-! ## The calls of a graph -/

/-- The calls that a graph makes while it is open. -/
inductive PersistenceCall (E C : Type) where
  | nextLsn
  | currentLsn
  | appendWal (entry : E)
  | writeCheckpoint (checkpoint : C)
  | truncateWalUntil (minLsn : Nat)
  | readCheckpoint
  | readWalEntries
deriving DecidableEq, Repr

inductive PersistenceResult (E C : Type) where
  | lsn (lsn : Nat)
  | done
  | removed (count : Nat)
  | checkpoint (checkpoint : Option C)
  | entries (entries : List E)
deriving DecidableEq, Repr

namespace PersistenceProvider

variable (provider : PersistenceProvider P E C Err)

def call (p : P) : PersistenceCall E C → Except Err (PersistenceResult E C × P)
  | .nextLsn => .ok (.lsn (provider.nextLsn p).1, (provider.nextLsn p).2)
  | .currentLsn => .ok (.lsn (provider.currentLsn p), p)
  | .appendWal entry => do
    let p ← provider.appendWal entry p
    .ok (.done, p)
  | .writeCheckpoint checkpoint => do
    let p ← provider.writeCheckpoint checkpoint p
    .ok (.done, p)
  | .truncateWalUntil minLsn => do
    let (count, p) ← provider.truncateWalUntil minLsn p
    .ok (.removed count, p)
  | .readCheckpoint => do
    let checkpoint ← provider.readCheckpoint p
    .ok (.checkpoint checkpoint, p)
  | .readWalEntries => do
    let entries ← provider.readWalEntries p
    .ok (.entries entries, p)

/-- The results of a sequence of calls. -/
def calls (p : P) : List (PersistenceCall E C) → Except Err (List (PersistenceResult E C))
  | [] => .ok []
  | c :: cs => do
    let (result, p) ← provider.call p c
    let results ← calls p cs
    .ok (result :: results)

end PersistenceProvider

end Persistence

end MiniGU
