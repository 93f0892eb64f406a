import MiniGU.Lib.Run
import MiniGU.Model.Txn

/-!
# The transaction manager under concurrent calls

`begin_transaction_at`, `commit_at` and `abort_at` hold no common lock while they work
on the manager: an id, a start timestamp, the entry in `active_txns` and the watermark
are separate accesses, and other threads run in between. So are, within `update_watermark`,
the front of `active_txns`, the latest commit timestamp, the watermark as it is loaded and as
it is stored. Here each access is an action of its own and a call in progress is remembered by
what it still has to do.

* `runList_updateWatermark`: without interruption, the accesses of `update_watermark` add up to
  what it does in `Txn.lean`.
-/

namespace MiniGU

/-- A call in progress. -/
inductive ManagerCall where
  | idDrawn (txnId : Nat)
  | startDrawn (txn : MemTransaction)
  | commitDrawn (txn : MemTransaction) (commitTs : Nat)
  | latestSet (txn : MemTransaction) (commitTs : Nat)
  | removed (txn : MemTransaction) (commitTs : Nat)
  | updating
  | frontRead (startTs : Option Nat)
  | latestRead (minTs : Nat)
  | watermarkRead (minTs : Nat)
deriving DecidableEq, Repr

/-- What an update in progress has read: it will store this or more. -/
def ManagerCall.reading : ManagerCall → Option Nat
  | .frontRead startTs => startTs
  | .latestRead minTs => some minTs
  | .watermarkRead minTs => some minTs
  | _ => none

inductive ManagerAction where
  | drawId (txnId : Option Nat)
  | drawStart (txnId : Nat) (startTs : Option Nat) (isolationLevel : IsolationLevel)
      (lockStrategy : LockStrategy)
  | insert (txn : MemTransaction)
  | drawCommit (txn : MemTransaction) (commitTs : Option Nat)
  | setLatest (txn : MemTransaction) (commitTs : Nat)
  | removeCommitted (txn : MemTransaction) (commitTs : Nat)
  | insertCommitted (txn : MemTransaction) (commitTs : Nat)
  | removeAborted (txn : MemTransaction)
  | readFront
  | readLatest (startTs : Option Nat)
  | readWatermark (minTs : Nat)
  | storeWatermark (minTs : Nat)
deriving DecidableEq, Repr

/-- The manager, the two generators and the calls in progress. -/
structure ManagerState where
  manager : MemTxnManager
  timestampGenerator : GlobalTimestampGenerator
  transactionIdGenerator : TransactionIdGenerator
  calls : List ManagerCall
deriving DecidableEq, Repr

namespace ManagerState

/-- A manager that has just been made, in a fresh process. -/
def new (gcThreshold : Option Nat) (lock : LockStrategy) (iso : IsolationLevel) :
    ManagerState where
  manager := .new gcThreshold lock iso
  timestampGenerator := .new
  transactionIdGenerator := .new
  calls := []

/-- Go on with a call in progress. -/
def resume (s : ManagerState) (call : ManagerCall) (f : ManagerState → ManagerState) :
    Option ManagerState :=
  if call ∈ s.calls then some (f { s with calls := s.calls.erase call }) else none

def withCall (s : ManagerState) (call : ManagerCall) (m : MemTxnManager) : ManagerState :=
  { s with manager := m, calls := call :: s.calls }

/-- One access. A begin whose start timestamp is refused ends there. -/
def next (s : ManagerState) : ManagerAction → Option ManagerState
  | .drawId txnId =>
    match s.transactionIdGenerator.obtain txnId with
    | .error _ => none
    | .ok (txnId, idGen) =>
      some { s.withCall (.idDrawn txnId) s.manager with transactionIdGenerator := idGen }
  | .drawStart txnId startTs iso lock => s.resume (.idDrawn txnId) fun s =>
    match s.timestampGenerator.obtain startTs with
    | .error _ => s
    | .ok (startTs, tsGen) =>
      { s.withCall (.startDrawn ⟨txnId, startTs, iso, lock⟩) s.manager with
        timestampGenerator := tsGen }
  | .insert txn => s.resume (.startDrawn txn) fun s =>
    s.withCall .updating (s.manager.insertActive txn)
  | .drawCommit txn commitTs =>
    if txn ∈ s.manager.activeTxns then
      match s.timestampGenerator.obtain commitTs with
      | .error _ => none
      | .ok (commitTs, tsGen) =>
        some { s.withCall (.commitDrawn txn commitTs) s.manager with timestampGenerator := tsGen }
    else none
  | .setLatest txn commitTs => s.resume (.commitDrawn txn commitTs) fun s =>
    s.withCall (.latestSet txn commitTs) { s.manager with latestCommitTs := commitTs }
  | .removeCommitted txn commitTs => s.resume (.latestSet txn commitTs) fun s =>
    s.withCall (.removed txn commitTs) (s.manager.removeActive txn.txnId)
  | .insertCommitted txn commitTs => s.resume (.removed txn commitTs) fun s =>
    s.withCall .updating (s.manager.insertCommitted commitTs txn)
  | .removeAborted txn =>
    if txn ∈ s.manager.activeTxns then
      some (s.withCall .updating (s.manager.removeActive txn.txnId))
    else none
  | .readFront => s.resume .updating fun s =>
    s.withCall (.frontRead (s.manager.activeTxns.head?.map MemTransaction.startTs)) s.manager
  | .readLatest startTs => s.resume (.frontRead startTs) fun s =>
    s.withCall (.latestRead (startTs.getD s.manager.latestCommitTs)) s.manager
  | .readWatermark minTs => s.resume (.latestRead minTs) fun s =>
    s.withCall (.watermarkRead (max minTs s.manager.watermark)) s.manager
  | .storeWatermark minTs => s.resume (.watermarkRead minTs) fun s =>
    { s with manager := { s.manager with watermark := minTs } }

/-- One access as a step relation. -/
def Step (s : ManagerState) (a : ManagerAction) (s' : ManagerState) : Prop := s.next a = some s'

theorem resume_mem {s : ManagerState} {call : ManagerCall} {f : ManagerState → ManagerState}
    (h : call ∈ s.calls) : s.resume call f = some (f { s with calls := s.calls.erase call }) :=
  if_pos h

theorem resume_withCall (s : ManagerState) (call : ManagerCall) (m : MemTxnManager)
    (f : ManagerState → ManagerState) :
    (s.withCall call m).resume call f = some (f { s with manager := m }) := by
  have hCalls : (s.withCall call m).calls.erase call = s.calls := List.erase_cons_head ..
  rw [resume_mem (List.mem_cons_self ..), hCalls]
  rfl

/-- The accesses of an update that nothing interrupts. -/
theorem runList_updateWatermark {s : ManagerState} (h : .updating ∈ s.calls) :
    let front := s.manager.activeTxns.head?.map MemTransaction.startTs
    let minTs := front.getD s.manager.latestCommitTs
    (runList next s [.readFront, .readLatest front, .readWatermark minTs,
        .storeWatermark (max minTs s.manager.watermark)]).map Prod.snd =
      some { s with
        manager := s.manager.updateWatermark
        calls := s.calls.erase .updating } := by
  dsimp only
  simp only [runList, next, resume_mem h, resume_withCall, Option.map_some]
  rfl

end ManagerState

end MiniGU
