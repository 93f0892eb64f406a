import MiniGU.Lib.Run
import MiniGU.Model.Persistence

/-!
# Log sequence numbers of a graph on a file

The calls on the persistence provider that transactions, checkpoints and recovery make
(`tp/txn_manager.rs`, `tp/transaction.rs`, `tp/memory_graph.rs`, `tp/checkpoint.rs`), in any order
that their locks admit. To draw an LSN and to append the entry that carries it are two steps: a
transaction does so when it begins, for all its deltas and its mark when it commits, and for its
mark when it aborts. That it is also done for a transaction that has finished already, before the
call fails, is why a handle stays when it is no longer active.

A session lasts from one opening of the file to the next. Which entries a checkpoint has covered,
and which ones each transaction has made, is kept for the statements alone.
-/

namespace MiniGU

section LogSession

variable {E C : Type}

namespace DbFilePersistence

/-- `recover`, as far as LSNs go: `restore` sets the next one, and so does each entry in turn. -/
def recover (F : DbFormat E C) (p : DbFilePersistence) : Except DbFileError DbFilePersistence := do
  let checkpoint ← (provider F).readCheckpoint p
  let p := match checkpoint with
    | some c => (provider F).setNextLsn (F.checkpointLsn c + 1) p
    | none => p
  let entries ← (provider F).readWalEntries p
  .ok (entries.foldl (fun p e => (provider F).setNextLsn (F.lsn e + 1) p) p)

/-- `with_db_file` on a file. -/
def openRecovered (F : DbFormat E C) (file : List UInt8) :
    Except DbFileError DbFilePersistence := do
  let manager ← DbFile.openFile file
  recover F (new manager)

end DbFilePersistence

/-- The handle of a transaction, and the entries made for it, in order. -/
structure LogTxn (E : Type) where
  active : Bool
  produced : List E
deriving DecidableEq, Repr

/-- How far `create_checkpoint` has come: with the lock, with a snapshot, with that written. -/
inductive CheckpointPhase (C : Type) where
  | idle
  | locked
  | taken (checkpoint : C)
  | written (checkpoint : C)
deriving DecidableEq, Repr

structure LogSession (E C : Type) where
  persistence : DbFilePersistence
  /-- The entries with an LSN that are still to be appended. -/
  pending : List E
  txns : List (LogTxn E)
  phase : CheckpointPhase C
  /-- The entries made for each transaction of earlier sessions. -/
  past : List (List E)
  covered : List E

inductive LogAction (E C : Type) where
  | begin (entry : E)
  | produce (txn : Nat) (entry : E)
  | append (entry : E)
  | finish (txn : Nat)
  | lockCheckpoint
  | takeCheckpoint (checkpoint : C)
  | writeCheckpoint
  | truncateWal
  | reopen
deriving DecidableEq, Repr

namespace LogSession

def new : LogSession E C := ⟨.new .create, [], [], .idle, [], []⟩

variable [DecidableEq E] (F : DbFormat E C)

/-- The entry has the LSN that `next_lsn` hands out. -/
def draw (s : LogSession E C) (entry : E) : Option DbFilePersistence :=
  let (lsn, persistence) := (DbFilePersistence.provider F).nextLsn s.persistence
  if F.lsn entry = lsn then some persistence else none

/-- What each action makes of a session, if it can be taken. -/
def next (s : LogSession E C) : LogAction E C → Option (LogSession E C)
  -- `begin_transaction_at` waits for the checkpoint lock
  | .begin entry =>
    match s.phase, s.draw F entry with
    | .idle, some persistence => some { s with
        persistence
        pending := s.pending ++ [entry]
        txns := s.txns ++ [⟨true, [entry]⟩] }
    | _, _ => none
  | .produce txn entry =>
    match s.txns[txn]?, s.draw F entry with
    | some t, some persistence => some { s with
        persistence
        pending := s.pending ++ [entry]
        txns := s.txns.set txn { t with produced := t.produced ++ [entry] } }
    | _, _ => none
  | .append entry =>
    if entry ∈ s.pending then
      match (DbFilePersistence.provider F).appendWal entry s.persistence with
      | .ok persistence => some { s with persistence, pending := s.pending.erase entry }
      | .error _ => none
    else none
  -- `finish_transaction` comes after the log
  | .finish txn =>
    match s.txns[txn]? with
    | some t =>
      if t.active = true ∧ ∀ e ∈ t.produced, e ∉ s.pending then
        some { s with txns := s.txns.set txn { t with active := false } }
      else none
    | none => none
  | .lockCheckpoint =>
    match s.phase with
    | .idle => some { s with phase := .locked }
    | _ => none
  -- once the active transactions have drained
  | .takeCheckpoint checkpoint =>
    match s.phase with
    | .locked =>
      if (∀ t ∈ s.txns, t.active = false) ∧
          F.checkpointLsn checkpoint = (DbFilePersistence.provider F).currentLsn s.persistence then
        some { s with phase := .taken checkpoint }
      else none
    | _ => none
  | .writeCheckpoint =>
    match s.phase, (DbFilePersistence.provider F).readWalEntries s.persistence with
    | .taken checkpoint, .ok entries =>
      match (DbFilePersistence.provider F).writeCheckpoint checkpoint s.persistence with
      | .ok persistence => some { s with
          persistence
          phase := .written checkpoint
          covered := s.covered ++ entries }
      | .error _ => none
    | _, _ => none
  | .truncateWal =>
    match s.phase with
    | .written checkpoint =>
      match (DbFilePersistence.provider F).truncateWalUntil (F.checkpointLsn checkpoint)
        s.persistence with
      | .ok (_, persistence) => some { s with persistence, phase := .idle }
      | .error _ => none
    | _ => none
  -- the process ends, wherever it is, and the file is opened anew
  | .reopen =>
    match DbFilePersistence.openRecovered F s.persistence.manager.file with
    | .ok persistence => some {
        persistence
        pending := []
        txns := []
        phase := .idle
        past := s.past ++ s.txns.map LogTxn.produced
        covered := s.covered }
    | .error _ => none

example (s : LogSession E C) (c : C) (h : s.phase = .idle) : s.next F (.takeCheckpoint c) = none := by
  simp only [next, h]

def Step (s : LogSession E C) (a : LogAction E C) (s' : LogSession E C) : Prop :=
  s.next F a = some s'

end LogSession

end LogSession

end MiniGU
