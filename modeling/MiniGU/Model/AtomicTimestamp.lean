import Mathlib.Data.UInt
import Mathlib.Logic.Function.Basic
import MiniGU.Lib.Run
import MiniGU.Model.Timestamp

/-!
# The generators one atomic step at a time (`transaction/src/timestamp.rs`)

`next` loads the counter once and then goes around a loop: it tests the value it has, and tries to
exchange the counter for one more, which fails where the counter has changed or for no reason
(`compare_exchange_weak`); a failure leaves it with the counter's value. `update_if_greater` is a
`fetch_max`. All of these are sequentially consistent, so calls interleave by these steps.

The two generators differ in their range only. Neither adds one to the largest word.
-/

namespace MiniGU

/-- The range of a generator: what belongs to it, where it ends, and its errors. -/
structure TimestampDomain where
  inDomain : Nat → Bool
  overflows : Nat → Bool
  wrongDomain : Nat → TimestampError
  overflow : Nat → TimestampError

def GlobalTimestampGenerator.domain : TimestampDomain where
  inDomain := Timestamp.isCommitTs
  overflows ts := decide (Timestamp.maxCommitTs ≤ ts)
  wrongDomain := .wrongDomainCommit
  overflow := .commitTsOverflow

def TransactionIdGenerator.domain : TimestampDomain where
  inDomain := Timestamp.isTxnId
  overflows txnId := decide (txnId = Timestamp.u64Max)
  wrongDomain := .wrongDomainTxnId
  overflow := .txnIdOverflow

/-- The counter, and `cur` of each call of `next` that is in its loop. -/
structure AtomicCounter where
  counter : Nat
  cur : Nat → Option Nat

def AtomicCounter.withStart (start : UInt64) : AtomicCounter := ⟨start.toNat, fun _ => none⟩

inductive AtomicAction where
  /-- A call of `next` begins. -/
  | load (call : Nat)
  /-- It goes around its loop once. -/
  | exchange (call : Nat) (spurious : Bool)
  | updateIfGreater (ts : UInt64)

inductive AtomicAnswer where
  | running
  | returned (ts : Nat)
  | updated (ts : Nat)
  | failed (e : TimestampError)
deriving DecidableEq, Repr

namespace AtomicCounter

def setCur (s : AtomicCounter) (call : Nat) (cur : Option Nat) : AtomicCounter :=
  { s with cur := Function.update s.cur call cur }

def perform (domain : TimestampDomain) (s : AtomicCounter) :
    AtomicAction → AtomicCounter × AtomicAnswer
  | .load call => (s.setCur call (some s.counter), .running)
  | .exchange call spurious =>
    match s.cur call with
    | none => (s, .running)
    | some cur =>
      if domain.overflows cur then (s.setCur call none, .failed (domain.overflow cur))
      else if s.counter = cur ∧ spurious = false then
        ({ s.setCur call none with counter := cur + 1 }, .returned cur)
      else (s.setCur call (some s.counter), .running)
  | .updateIfGreater ts =>
    if !domain.inDomain ts.toNat then (s, .failed (domain.wrongDomain ts.toNat))
    else if domain.overflows ts.toNat then (s, .failed (domain.overflow ts.toNat))
    else ({ s with counter := max s.counter (ts.toNat + 1) }, .updated ts.toNat)

end AtomicCounter

/-- Both generators of the process. -/
structure Generators where
  timestamps : AtomicCounter
  txnIds : AtomicCounter

inductive GeneratorAction where
  | timestamp (action : AtomicAction)
  | txnId (action : AtomicAction)

namespace Generators

def withStart (start txnIdStart : UInt64) : Generators :=
  ⟨.withStart start, .withStart txnIdStart⟩

/-- `GlobalTimestampGenerator::new` and `TransactionIdGenerator::new`. -/
def new : Generators := withStart 1 (2 ^ 63 + 1)

/-- One step, and which generator answers. -/
def perform (s : Generators) : GeneratorAction → Generators × (AtomicAnswer ⊕ AtomicAnswer)
  | .timestamp action =>
    let r := s.timestamps.perform GlobalTimestampGenerator.domain action
    ({ s with timestamps := r.1 }, .inl r.2)
  | .txnId action =>
    let r := s.txnIds.perform TransactionIdGenerator.domain action
    ({ s with txnIds := r.1 }, .inr r.2)

end Generators

end MiniGU
