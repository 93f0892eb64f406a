import Mathlib.Algebra.GroupWithZero.Nat
import Mathlib.Data.Nat.Basic

/-!
# Timestamps and their generators (`transaction/src/timestamp.rs`)

One 64-bit word carries two ranges: commit timestamps below `txnIdStart`, and
transaction ids from there on, so a stamp tells whether a version is committed or
still owned by a running transaction. The word is a `Nat` here; both generators
refuse to run out of their range, so it never wraps.
-/

namespace MiniGU

namespace Timestamp

/-- The start of the transaction id range: the highest bit of the word. -/
def txnIdStart : Nat := 2 ^ 63

def maxCommitTs : Nat := 2 ^ 63 - 1

def u64Max : Nat := 2 ^ 64 - 1

def isTxnId (ts : Nat) : Bool := decide (txnIdStart ≤ ts)

def isCommitTs (ts : Nat) : Bool := decide (ts < txnIdStart)

theorem isTxnId_iff {ts : Nat} : isTxnId ts = true ↔ txnIdStart ≤ ts := by
  simp [isTxnId]

theorem isCommitTs_iff {ts : Nat} : isCommitTs ts = true ↔ ts < txnIdStart := by
  simp [isCommitTs]

end Timestamp

inductive TimestampError where
  | wrongDomainCommit (ts : Nat)
  | wrongDomainTxnId (ts : Nat)
  | commitTsOverflow (ts : Nat)
  | txnIdOverflow (ts : Nat)
deriving DecidableEq, Repr

/-- The counter of the global commit timestamp generator. -/
structure GlobalTimestampGenerator where
  counter : Nat
deriving DecidableEq, Repr

namespace GlobalTimestampGenerator

def new : GlobalTimestampGenerator := ⟨1⟩

/-- One successful turn of the compare-and-swap loop. -/
def next (gen : GlobalTimestampGenerator) :
    Except TimestampError (Nat × GlobalTimestampGenerator) :=
  if Timestamp.maxCommitTs ≤ gen.counter then .error (.commitTsOverflow gen.counter)
  else .ok (gen.counter, ⟨gen.counter + 1⟩)

def updateIfGreater (gen : GlobalTimestampGenerator) (ts : Nat) :
    Except TimestampError GlobalTimestampGenerator :=
  if !Timestamp.isCommitTs ts then .error (.wrongDomainCommit ts)
  else if Timestamp.maxCommitTs ≤ ts then .error (.commitTsOverflow ts)
  else .ok ⟨max gen.counter (ts + 1)⟩

end GlobalTimestampGenerator

/-- The counter of the global transaction id generator. -/
structure TransactionIdGenerator where
  counter : Nat
deriving DecidableEq, Repr

namespace TransactionIdGenerator

def new : TransactionIdGenerator := ⟨Timestamp.txnIdStart + 1⟩

def next (gen : TransactionIdGenerator) :
    Except TimestampError (Nat × TransactionIdGenerator) :=
  if gen.counter = Timestamp.u64Max then .error (.txnIdOverflow gen.counter)
  else .ok (gen.counter, ⟨gen.counter + 1⟩)

def updateIfGreater (gen : TransactionIdGenerator) (txnId : Nat) :
    Except TimestampError TransactionIdGenerator :=
  if !Timestamp.isTxnId txnId then .error (.wrongDomainTxnId txnId)
  else if txnId = Timestamp.u64Max then .error (.txnIdOverflow txnId)
  else .ok ⟨max gen.counter (txnId + 1)⟩

end TransactionIdGenerator

/-- Take a value from the generator, or install the given one: the two ways
`begin_transaction_at` and `commit_at` obtain a timestamp. -/
def GlobalTimestampGenerator.obtain (gen : GlobalTimestampGenerator) :
    Option Nat → Except TimestampError (Nat × GlobalTimestampGenerator)
  | some ts => (gen.updateIfGreater ts).map fun gen' => (ts, gen')
  | none => gen.next

def TransactionIdGenerator.obtain (gen : TransactionIdGenerator) :
    Option Nat → Except TimestampError (Nat × TransactionIdGenerator)
  | some ts => (gen.updateIfGreater ts).map fun gen' => (ts, gen')
  | none => gen.next

end MiniGU
