import MiniGU.Invariant.Log
import MiniGU.Model.Recover

/-!
# Replaying a log

`applyWalEntry_ok` says once what one entry of a log can do when replay goes on, and
`applyWalEntries_cons_ok` takes a replay apart entry by entry. The counters that replay
leaves are a function of the log (`counters_applyWalEntries`), the stamps come from the log
or from the checkpoint (`stamped_applyWalEntries`), and the transactions left open are those
that the log leaves open (`activeTxns_applyWalEntries`).
-/

namespace MiniGU

variable {V : Type}

theorem GlobalTimestampGenerator.obtain_some {gen gen' : GlobalTimestampGenerator} {ts ts' : Nat}
    (h : gen.obtain (some ts) = .ok (ts', gen')) :
    ts' = ts ∧ gen'.counter = max gen.counter (ts + 1) ∧ ts < Timestamp.maxCommitTs := by
  simp only [obtain, updateIfGreater] at h
  split at h
  · cases h
  · split at h
    · cases h
    · cases h
      exact ⟨rfl, rfl, by omega⟩

theorem TransactionIdGenerator.obtain_some {gen gen' : TransactionIdGenerator} {id id' : Nat}
    (h : gen.obtain (some id) = .ok (id', gen')) :
    id' = id ∧ gen'.counter = max gen.counter (id + 1) := by
  simp only [obtain, updateIfGreater] at h
  split at h
  · cases h
  · split at h
    · cases h
    · cases h
      exact ⟨rfl, rfl⟩

/-! ## What the entries of a log say -/

namespace RedoEntry

/-- Whether replay has a current transaction after the entry. -/
def isOpenAfter (isOpen : Bool) (e : RedoEntry V) : Bool :=
  match e.op with
  | .beginTransaction _ => true
  | .commitTransaction _ => false
  | .abortTransaction => false
  | .delta _ => isOpen

/-- What the entry does to the counters for timestamps and ids. A commit without a current
transaction is skipped. -/
def advance (isOpen : Bool) (c : Nat × Nat) (e : RedoEntry V) : Nat × Nat :=
  match e.op with
  | .beginTransaction startTs => (max c.1 (startTs + 1), max c.2 (e.txnId + 1))
  | .commitTransaction commitTs => if isOpen then (max c.1 (commitTs + 1), c.2) else c
  | _ => c

end RedoEntry

/-- The counters after the replay of a log. -/
def replayCounters : Bool → Nat × Nat → List (RedoEntry V) → Nat × Nat
  | _, c, [] => c
  | isOpen, c, e :: es => replayCounters (e.isOpenAfter isOpen) (e.advance isOpen c) es

/-- The timestamp that replay installs for an entry. -/
def RedoEntry.installs (isOpen : Bool) (e : RedoEntry V) : List Nat :=
  match e.op with
  | .beginTransaction startTs => [startTs]
  | .commitTransaction commitTs => if isOpen then [commitTs] else []
  | _ => []

/-- The timestamps that the replay of a log installs. -/
def installedTs : Bool → List (RedoEntry V) → List Nat
  | _, [] => []
  | isOpen, e :: es => e.installs isOpen ++ installedTs (e.isOpenAfter isOpen) es

theorem RedoEntry.le_advance_ts {isOpen : Bool} {c : Nat × Nat} {e : RedoEntry V} {x : Nat} :
    x ≤ (e.advance isOpen c).1 ↔ x ≤ c.1 ∨ ∃ ts ∈ e.installs isOpen, x ≤ ts + 1 := by
  unfold RedoEntry.advance RedoEntry.installs
  cases e.op with
  | beginTransaction startTs =>
    simp only [List.mem_singleton, exists_eq_left]
    omega
  | commitTransaction commitTs =>
    cases isOpen with
    | false => simp
    | true =>
      simp only [if_true, List.mem_singleton, exists_eq_left]
      omega
  | abortTransaction => simp
  | delta δ => simp

theorem le_replayCounters_ts {es : List (RedoEntry V)} {isOpen : Bool} {c : Nat × Nat} {x : Nat} :
    x ≤ (replayCounters isOpen c es).1 ↔ x ≤ c.1 ∨ ∃ ts ∈ installedTs isOpen es, x ≤ ts + 1 := by
  induction es generalizing isOpen c with
  | nil => simp [replayCounters, installedTs]
  | cons e es ih =>
    unfold replayCounters installedTs
    rw [ih, RedoEntry.le_advance_ts, or_assoc]
    simp only [List.mem_append, or_and_right, exists_or]

theorem RedoEntry.lt_advance_id {isOpen : Bool} {c : Nat × Nat} {e : RedoEntry V} {x : Nat} :
    x < (e.advance isOpen c).2 ↔ x < c.2 ∨ (e.isBegin = true ∧ x ≤ e.txnId) := by
  unfold RedoEntry.advance RedoEntry.isBegin
  cases e.op with
  | beginTransaction startTs =>
    simp only [true_and]
    omega
  | commitTransaction commitTs => cases isOpen <;> simp
  | abortTransaction => simp
  | delta δ => simp

theorem lt_replayCounters_id {es : List (RedoEntry V)} {isOpen : Bool} {c : Nat × Nat} {x : Nat} :
    x < (replayCounters isOpen c es).2 ↔
      x < c.2 ∨ ∃ e ∈ es, e.isBegin = true ∧ x ≤ e.txnId := by
  induction es generalizing isOpen c with
  | nil => simp [replayCounters]
  | cons e es ih =>
    unfold replayCounters
    rw [ih, RedoEntry.lt_advance_id, or_assoc]
    simp only [List.mem_cons, or_and_right, exists_or, exists_eq_left]

/-- Every begin of the log is followed by a commit or an abort before the next begin and
before the end. -/
def isClosed : Bool → List (RedoEntry V) → Bool
  | isOpen, [] => !isOpen
  | isOpen, e :: es => !(isOpen && e.isBegin) && isClosed (e.isOpenAfter isOpen) es

namespace MemoryGraph

variable {rest : Heads V} {g g' : MemoryGraph V} {txn : MemTransaction}
  {cur cur' : Option MemTransaction} {e : RedoEntry V} {es : List (RedoEntry V)}

/-! ## One entry -/

def atLsn (g : MemoryGraph V) (lsn : Nat) : MemoryGraph V := { g with nextLsn := lsn }

/-- What one entry can do. -/
inductive ReplayStep [DecidableEq V] (g : MemoryGraph V) (e : RedoEntry V) :
    Option MemTransaction → MemoryGraph V → Option MemTransaction → Prop where
  | begin {cur : Option MemTransaction} {startTs : Nat} {t : MemTransaction}
      {idGen : TransactionIdGenerator} {tsGen : GlobalTimestampGenerator}
      (hOp : e.op = .beginTransaction startTs)
      (ht : t = ⟨e.txnId, startTs, e.isoLevel, g.txnManager.defaultLockStrategy⟩)
      (hId : g.transactionIdGenerator.obtain (some e.txnId) = .ok (e.txnId, idGen))
      (hTs : g.timestampGenerator.obtain (some startTs) = .ok (startTs, tsGen)) :
      ReplayStep g e cur ((g.atLsn (e.lsn + 1)).begun t idGen tsGen) (some t)
  | commit {commitTs ts : Nat} {t : MemTransaction} {g₁ : MemoryGraph V}
      (hOp : e.op = .commitTransaction commitTs)
      (hRun : (g.atLsn (e.lsn + 1)).commitAt t (some commitTs) true = (g₁, .ok ts)) :
      ReplayStep g e (some t) (g₁.markHandled t).dropHandles none
  | abort {t : MemTransaction} {g₁ : MemoryGraph V} {u : Unit} (hOp : e.op = .abortTransaction)
      (hRun : (g.atLsn (e.lsn + 1)).abortAt t true = (g₁, .ok u)) :
      ReplayStep g e (some t) (g₁.markHandled t).dropHandles none
  | delta {delta : DeltaOp V} {t : MemTransaction} {g₁ : MemoryGraph V} {u : Unit}
      (hOp : e.op = .delta delta)
      (hRun : (g.atLsn (e.lsn + 1)).applyDelta t delta = (g₁, .ok u)) :
      ReplayStep g e (some t) g₁ (some t)
  | skip (hOp : ∀ startTs, e.op ≠ .beginTransaction startTs) :
      ReplayStep g e none (g.atLsn (e.lsn + 1)) none

theorem beginTransactionAt_some {id startTs : Nat} {iso : IsolationLevel} {lock : LockStrategy}
    {t : MemTransaction}
    (h : g.beginTransactionAt (some id) (some startTs) iso lock true = (g', .ok t)) :
    ∃ idGen tsGen, t = ⟨id, startTs, iso, lock⟩ ∧
      g.transactionIdGenerator.obtain (some id) = .ok (id, idGen) ∧
      g.timestampGenerator.obtain (some startTs) = .ok (startTs, tsGen) ∧
      g' = g.begun t idGen tsGen := by
  unfold beginTransactionAt at h
  split at h
  · cases (Prod.mk.inj h).2
  · rename_i id' idGen hId
    obtain ⟨rfl, -⟩ := TransactionIdGenerator.obtain_some hId
    dsimp only at h
    split at h
    · cases (Prod.mk.inj h).2
    · rename_i ts' tsGen hTs
      obtain ⟨rfl, -⟩ := GlobalTimestampGenerator.obtain_some hTs
      obtain ⟨hg, ht⟩ := Prod.mk.inj h
      cases ht
      exact ⟨idGen, tsGen, rfl, hId, hTs, hg.symm⟩

/-- **What one entry can do**, when replay goes on. -/
theorem applyWalEntry_ok [DecidableEq V] (h : g.applyWalEntry cur e = (g', .ok cur')) :
    ReplayStep g e cur g' cur' := by
  unfold applyWalEntry at h
  dsimp only at h
  cases hOp : e.op with
  | beginTransaction startTs =>
    rw [hOp] at h
    dsimp only at h
    split at h
    · cases (Prod.mk.inj h).2
    · rename_i g₁ t hBegin
      obtain ⟨rfl, hCur⟩ := Prod.mk.inj h
      cases hCur
      obtain ⟨idGen, tsGen, ht, hId, hTs, rfl⟩ := beginTransactionAt_some hBegin
      exact .begin hOp ht hId hTs
  | commitTransaction commitTs =>
    rw [hOp] at h
    cases cur with
    | none =>
      obtain ⟨rfl, hCur⟩ := Prod.mk.inj h
      cases hCur
      exact .skip fun s heq => by rw [hOp] at heq; cases heq
    | some t =>
      dsimp only at h
      split at h
      · cases (Prod.mk.inj h).2
      · rename_i g₁ ts hRun
        obtain ⟨rfl, hCur⟩ := Prod.mk.inj h
        cases hCur
        exact .commit hOp hRun
  | abortTransaction =>
    rw [hOp] at h
    cases cur with
    | none =>
      obtain ⟨rfl, hCur⟩ := Prod.mk.inj h
      cases hCur
      exact .skip fun s heq => by rw [hOp] at heq; cases heq
    | some t =>
      dsimp only at h
      split at h
      · cases (Prod.mk.inj h).2
      · rename_i g₁ u hRun
        obtain ⟨rfl, hCur⟩ := Prod.mk.inj h
        cases hCur
        exact .abort hOp hRun
  | delta δ =>
    rw [hOp] at h
    cases cur with
    | none =>
      obtain ⟨rfl, hCur⟩ := Prod.mk.inj h
      cases hCur
      exact .skip fun s heq => by rw [hOp] at heq; cases heq
    | some t =>
      dsimp only at h
      split at h
      · cases (Prod.mk.inj h).2
      · rename_i g₁ u hRun
        obtain ⟨rfl, hCur⟩ := Prod.mk.inj h
        cases hCur
        exact .delta hOp hRun

theorem applyWalEntries_cons_ok [DecidableEq V] {u : Unit}
    (h : g.applyWalEntries cur (e :: es) = (g', .ok u)) :
    ∃ g₁ cur₁, ReplayStep g e cur g₁ cur₁ ∧ g₁.applyWalEntries cur₁ es = (g', .ok u) := by
  unfold applyWalEntries at h
  split at h
  · cases (Prod.mk.inj h).2
  · rename_i g₁ cur₁ hEntry
    exact ⟨g₁, cur₁, applyWalEntry_ok hEntry, h⟩

/-- A delta of the log goes through the primitive steps of an operation. -/
theorem opSteps_applyDelta (delta : DeltaOp V) : OpSteps txn g (g.applyDelta txn delta).1 := by
  cases delta with
  | createVertex vertex => exact opSteps_runOp (.createVertex vertex)
  | createEdge edge => exact opSteps_runOp (.createEdge edge)
  | delVertex vid => exact opSteps_runOp (.deleteVertex vid)
  | delEdge eid => exact opSteps_runOp (.deleteEdge eid)
  | setVertexProps vid op => exact opSteps_runOp (.setVertexProperty vid op.indices op.props)
  | setEdgeProps eid op => exact opSteps_runOp (.setEdgeProperty eid op.indices op.props)
  | addLabel => exact .refl
  | removeLabel => exact .refl

theorem opSteps_of_applyDelta {delta : DeltaOp V} {u : Unit}
    (h : g.applyDelta txn delta = (g', .ok u)) : OpSteps txn g g' := by
  have hSteps : OpSteps txn g (g.applyDelta txn delta).1 := opSteps_applyDelta delta
  rwa [h] at hSteps

/-! ## Counters -/

theorem counters_commitAt [DecidableEq V] {commitTs ts : Nat} {skipWal : Bool}
    (h : g.commitAt txn (some commitTs) skipWal = (g', .ok ts)) :
    g'.counters = (max g.counters.1 (commitTs + 1), g.counters.2) := by
  obtain ⟨ts', gen, g₁, hTs, hLocked, rfl⟩ := commitAt_ok h
  obtain ⟨-, hCounter, -⟩ := GlobalTimestampGenerator.obtain_some hTs
  have hOwn := (@commitLocked_ends V { g with timestampGenerator := gen } txn ts' skipWal _).1
  rw [hLocked] at hOwn
  show g₁.counters = _
  rw [hOwn.counters]
  exact Prod.ext hCounter rfl

theorem ReplayStep.counters [DecidableEq V] (h : ReplayStep g e cur g' cur') :
    g'.counters = e.advance cur.isSome g.counters ∧ cur'.isSome = e.isOpenAfter cur.isSome := by
  unfold RedoEntry.advance RedoEntry.isOpenAfter
  cases h with
  | begin hOp ht hId hTs =>
    rw [hOp]
    obtain ⟨-, hIdCounter⟩ := TransactionIdGenerator.obtain_some hId
    obtain ⟨-, hTsCounter, -⟩ := GlobalTimestampGenerator.obtain_some hTs
    exact ⟨Prod.ext hTsCounter hIdCounter, rfl⟩
  | commit hOp hRun =>
    rw [hOp]
    have hCounters := counters_commitAt hRun
    exact ⟨hCounters, rfl⟩
  | @abort t g₁ u hOp hRun =>
    rw [hOp]
    have hOwn := @ownOnly_abortAt V (g.atLsn (e.lsn + 1)) t true
    rw [hRun] at hOwn
    exact ⟨hOwn.counters, rfl⟩
  | delta hOp hRun =>
    rw [hOp]
    have hCounters := counters_opSteps (opSteps_of_applyDelta hRun)
    exact ⟨hCounters, rfl⟩
  | skip hOp =>
    cases hE : e.op with
    | beginTransaction s => exact absurd hE (hOp s)
    | commitTransaction ts => exact ⟨rfl, rfl⟩
    | abortTransaction => exact ⟨rfl, rfl⟩
    | delta δ => exact ⟨rfl, rfl⟩

/-- **The counters after replay** are a function of the log. -/
theorem counters_applyWalEntries [DecidableEq V] {u : Unit}
    (h : g.applyWalEntries cur es = (g', .ok u)) :
    g'.counters = replayCounters cur.isSome g.counters es := by
  induction es generalizing g cur with
  | nil =>
    obtain ⟨rfl, -⟩ := Prod.mk.inj h
    rfl
  | cons e es ih =>
    obtain ⟨g₁, cur₁, hStep, hRest⟩ := applyWalEntries_cons_ok h
    obtain ⟨hCounters, hOpen⟩ := hStep.counters
    rw [ih hRest, hCounters, hOpen]
    rfl

/-! ## Stamps -/

theorem Stamped.begun (h : Stamped rest g) {idGen : TransactionIdGenerator}
    {tsGen : GlobalTimestampGenerator} (hId : Timestamp.txnIdStart < txn.txnId)
    (hIdLt : txn.txnId < idGen.counter) (hIdLe : g.counters.2 ≤ idGen.counter)
    (hTsLt : txn.startTs < tsGen.counter) (hTsLe : g.counters.1 ≤ tsGen.counter) :
    Stamped rest (g.begun txn idGen tsGen) ∧ (g.begun txn idGen tsGen).Issued txn := by
  have hIssued : (g.begun txn idGen tsGen).Issued txn := ⟨hTsLt, hId, hIdLt⟩
  refine ⟨h.congr hTsLe hIdLe (fun t ht => ?_) ?_ (fun t e he => ?_) fun t k p hp => ?_, hIssued⟩
  · rcases SkipList.mem_of_mem_insert ht with rfl | hOld
    · exact .inr hIssued
    · exact .inl hOld
  · funext k id
    cases k <;> rfl
  · by_cases ht : t = txn.txnId
    · subst ht
      rw [show (g.begun txn idGen tsGen).txns txn.txnId = .new from Function.update_self ..] at he
      cases he
    · rwa [show (g.begun txn idGen tsGen).txns t = g.txns t from Function.update_of_ne ht ..] at he
  · by_cases ht : t = txn.txnId
    · subst ht
      rw [show (g.begun txn idGen tsGen).txns txn.txnId = .new from Function.update_self ..] at hp
      cases k <;> cases hp
    · rwa [show (g.begun txn idGen tsGen).txns t = g.txns t from Function.update_of_ne ht ..] at hp

theorem Stamped.atLsn (h : Stamped rest g) (lsn : Nat) : Stamped rest (g.atLsn lsn) := by
  refine h.congr (Nat.le_refl _) (Nat.le_refl _) (fun _ ht => .inl ht) ?_ (fun _ _ he => he)
    fun _ _ _ hp => hp
  funext k id
  cases k <;> rfl

theorem Stamped.dropHandles (h : Stamped rest g) : Stamped rest g.dropHandles := by
  refine h.congr (Nat.le_refl _) (Nat.le_refl _) (fun _ ht => .inl ht) ?_ (fun t e he => ?_)
    fun t k p hp => ?_
  · funext k id
    cases k <;> rfl
  · unfold MemoryGraph.dropHandles at he
    dsimp only at he
    split at he
    · exact he
    · cases he
  · unfold MemoryGraph.dropHandles at hp
    dsimp only at hp
    split at hp
    · exact hp
    · cases k <;> exact hp

/-- Replaying one entry keeps the stamps, and a transaction that goes on is one that was issued. -/
theorem ReplayStep.stamped [DecidableEq V] (hs : ReplayStep g e cur g' cur') (h : Stamped rest g)
    (hCur : ∀ t, cur = some t → g.Issued t) (hId : Timestamp.txnIdStart < e.txnId) :
    Stamped rest g' ∧ ∀ t, cur' = some t → g'.Issued t := by
  have h₁ := h.atLsn (e.lsn + 1)
  cases hs with
  | @begin _ startTs t idGen tsGen hOp ht hId' hTs =>
    have hTxn : t.txnId = e.txnId := by rw [ht]
    have hStart : t.startTs = startTs := by rw [ht]
    obtain ⟨-, hIdCounter⟩ := TransactionIdGenerator.obtain_some hId'
    obtain ⟨hTsLt, hTsLe⟩ := GlobalTimestampGenerator.obtain_lt hTs
    have hIdLt : e.txnId < idGen.counter := by
      rw [hIdCounter]
      exact Nat.lt_of_lt_of_le (Nat.lt_succ_self _) (Nat.le_max_right ..)
    have hIdLe : g.counters.2 ≤ idGen.counter := by
      rw [hIdCounter]
      exact Nat.le_max_left ..
    obtain ⟨hBegun, hIssued⟩ := @Stamped.begun V rest (g.atLsn (e.lsn + 1)) t h₁ idGen tsGen
      (hTxn ▸ hId) (hTxn ▸ hIdLt) hIdLe (hStart ▸ hTsLt) hTsLe
    refine ⟨hBegun, fun t ht => ?_⟩
    cases ht
    exact hIssued
  | @commit commitTs ts t g₁ hOp hRun =>
    have ht : (g.atLsn (e.lsn + 1)).Issued t := (hCur t rfl).mono (Nat.le_refl _) (Nat.le_refl _)
    have hCommit : Stamped rest ((g.atLsn (e.lsn + 1)).commitAt t (some commitTs) true).1 :=
      h₁.commitAt ht
    rw [hRun] at hCommit
    exact ⟨hCommit.markHandled.dropHandles, fun t ht => by cases ht⟩
  | @abort t g₁ u hOp hRun =>
    have hAbort : Stamped rest ((g.atLsn (e.lsn + 1)).abortAt t true).1 := h₁.abortAt
    rw [hRun] at hAbort
    exact ⟨hAbort.markHandled.dropHandles, fun t ht => by cases ht⟩
  | @delta δ t g₁ u hOp hRun =>
    have hSteps := opSteps_of_applyDelta hRun
    have hCounters := counters_opSteps hSteps
    have ht : (g.atLsn (e.lsn + 1)).Issued t := (hCur t rfl).mono (Nat.le_refl _) (Nat.le_refl _)
    refine ⟨h₁.opSteps ht hSteps, fun t ht => ?_⟩
    exact (hCur t ht).mono (by rw [hCounters]; exact Nat.le_refl _)
      (by rw [hCounters]; exact Nat.le_refl _)
  | skip => exact ⟨h₁, fun t ht => by cases ht⟩

/-- **Replay keeps the stamps accounted for.** -/
theorem stamped_applyWalEntries [DecidableEq V] {u : Unit}
    (hRun : g.applyWalEntries cur es = (g', .ok u)) (h : Stamped rest g)
    (hCur : ∀ t, cur = some t → g.Issued t) (hIds : ∀ e ∈ es, Timestamp.txnIdStart < e.txnId) :
    Stamped rest g' := by
  induction es generalizing g cur with
  | nil =>
    obtain ⟨rfl, -⟩ := Prod.mk.inj hRun
    exact h
  | cons e es ih =>
    obtain ⟨g₁, cur₁, hStep, hRest⟩ := applyWalEntries_cons_ok hRun
    obtain ⟨h₁, hCur₁⟩ := hStep.stamped h hCur (hIds e (List.mem_cons_self ..))
    exact ih hRest h₁ hCur₁ fun e' he' => hIds e' (List.mem_cons_of_mem _ he')

/-! ## Transactions left open -/

/-- During replay: the current transaction is active, ids tell the active transactions
apart, and no begin to come has the id of one of them. -/
structure Replaying (g : MemoryGraph V) (cur : Option MemTransaction) (es : List (RedoEntry V)) :
    Prop where
  current : ∀ t, cur = some t → t ∈ g.txnManager.activeTxns
  inj : ∀ t ∈ g.txnManager.activeTxns, ∀ t' ∈ g.txnManager.activeTxns, t.txnId = t'.txnId → t = t'
  fresh : ∀ e ∈ es, e.isBegin = true → ∀ t ∈ g.txnManager.activeTxns, t.txnId ≠ e.txnId
  apart : BeginsApart es

/-- Nobody is active but the current transaction. -/
def OnlyCurrent (g : MemoryGraph V) (cur : Option MemTransaction) : Prop :=
  ∀ t ∈ g.txnManager.activeTxns, cur = some t

theorem Replaying.ends {t : MemTransaction} (h : Replaying g (some t) (e :: es))
    (hActive : ∀ t', t' ∈ g'.txnManager.activeTxns ↔
      t' ∈ g.txnManager.activeTxns ∧ t'.txnId ≠ t.txnId) :
    Replaying g' none es ∧ (OnlyCurrent g' none ↔ OnlyCurrent g (some t)) := by
  have ht := h.current t rfl
  refine ⟨⟨fun t' ht' => ?_, fun t₁ h₁ t₂ h₂ => ?_, fun e' he' hBegin t₁ h₁ => ?_,
    h.apart.tail⟩, fun hNone t₁ h₁ => ?_, fun hOnly t₁ h₁ => ?_⟩
  · cases ht'
  · exact h.inj t₁ ((hActive t₁).mp h₁).1 t₂ ((hActive t₂).mp h₂).1
  · exact h.fresh e' (List.mem_cons_of_mem _ he') hBegin t₁ ((hActive t₁).mp h₁).1
  · -- whoever has another id would still be active
    by_cases hId : t₁.txnId = t.txnId
    · rw [h.inj t₁ h₁ t ht hId]
    · cases hNone t₁ ((hActive t₁).mpr ⟨h₁, hId⟩)
  · obtain ⟨hOld, hne⟩ := (hActive t₁).mp h₁
    exact absurd (congrArg MemTransaction.txnId (Option.some.inj (hOnly t₁ hOld)).symm) hne

theorem Replaying.same (h : Replaying g cur (e :: es)) (hManager : g'.txnManager = g.txnManager) :
    Replaying g' cur es ∧ (OnlyCurrent g' cur ↔ OnlyCurrent g cur) := by
  unfold OnlyCurrent
  rw [hManager]
  refine ⟨⟨?_, ?_, fun e' he' hBegin => ?_, h.apart.tail⟩, Iff.rfl⟩
  · rw [hManager]
    exact h.current
  · rw [hManager]
    exact h.inj
  · rw [hManager]
    exact h.fresh e' (List.mem_cons_of_mem _ he') hBegin

theorem mem_active_commitAt [DecidableEq V] {ts? : Option Nat} {ts : Nat} {skipWal : Bool}
    (h : g.commitAt txn ts? skipWal = (g', .ok ts)) (t : MemTransaction) :
    t ∈ g'.txnManager.activeTxns ↔ t ∈ g.txnManager.activeTxns ∧ t.txnId ≠ txn.txnId := by
  obtain ⟨gen, hOwn, -⟩ := @commitAt_ends V g txn skipWal _ ts?
  rw [h] at hOwn
  obtain ⟨commitTs, gen', g₁, hTs, hLocked, rfl⟩ := commitAt_ok h
  exact ⟨fun ht => ⟨hOwn.active t ht, ne_of_commitLocked hLocked ht⟩,
    fun ht => hOwn.stays t ht.1 ht.2⟩

theorem mem_active_abortAt {skipWal : Bool} {u : Unit}
    (h : g.abortAt txn skipWal = (g', .ok u)) (t : MemTransaction) :
    t ∈ g'.txnManager.activeTxns ↔ t ∈ g.txnManager.activeTxns ∧ t.txnId ≠ txn.txnId := by
  have hOwn := @ownOnly_abortAt V g txn skipWal
  rw [h] at hOwn
  obtain ⟨g₁, hFin, rfl⟩ := abortAt_ok h
  exact ⟨fun ht => ⟨hOwn.active t ht, ne_of_finishTransaction hFin ht⟩,
    fun ht => hOwn.stays t ht.1 ht.2⟩

/-- One entry: who is left open besides the current transaction. -/
theorem ReplayStep.replaying [DecidableEq V] (hs : ReplayStep g e cur g' cur')
    (h : Replaying g cur (e :: es)) : Replaying g' cur' es ∧
      (OnlyCurrent g' cur' ↔ OnlyCurrent g cur ∧ (cur.isSome && e.isBegin) = false) := by
  cases hs with
  | @begin _ startTs t idGen tsGen hOp ht hId hTs =>
    have hBegin : e.isBegin = true := by
      unfold RedoEntry.isBegin
      rw [hOp]
    have hTxn : t.txnId = e.txnId := by rw [ht]
    have hFresh : ∀ t' ∈ g.txnManager.activeTxns, t'.txnId ≠ t.txnId := by
      rw [hTxn]
      exact h.fresh e (List.mem_cons_self ..) hBegin
    have hActive : ∀ t', t' ∈ ((g.atLsn (e.lsn + 1)).begun t idGen tsGen).txnManager.activeTxns ↔
        t' = t ∨ t' ∈ g.txnManager.activeTxns := by
      intro t'
      constructor
      · exact SkipList.mem_of_mem_insert
      · rintro (rfl | hOld)
        · exact SkipList.mem_insert_self ..
        · refine SkipList.mem_insert_of_mem hOld ?_
          have := hFresh t' hOld
          simp only [decide_eq_true_eq]
          omega
    refine ⟨⟨fun t' ht' => ?_, fun t₁ h₁ t₂ h₂ hEq => ?_, fun e' he' hBegin' t₁ h₁ => ?_,
      h.apart.tail⟩, ?_⟩
    · cases ht'
      exact (hActive t).mpr (.inl rfl)
    · rcases (hActive t₁).mp h₁ with hNew₁ | hOld₁
      · rcases (hActive t₂).mp h₂ with hNew₂ | hOld₂
        · rw [hNew₁, hNew₂]
        · exact absurd (by rw [← hEq, hNew₁]) (hFresh t₂ hOld₂)
      · rcases (hActive t₂).mp h₂ with hNew₂ | hOld₂
        · exact absurd (by rw [hEq, hNew₂]) (hFresh t₁ hOld₁)
        · exact h.inj t₁ hOld₁ t₂ hOld₂ hEq
    · rcases (hActive t₁).mp h₁ with rfl | h₁
      · rw [hTxn]
        exact h.apart.head hBegin e' he' hBegin'
      · exact h.fresh e' (List.mem_cons_of_mem _ he') hBegin' t₁ h₁
    · rw [hBegin, Bool.and_true]
      constructor
      · -- only the new transaction is active, so nobody was before
        intro hOnly
        have hNobody : ∀ t' ∈ g.txnManager.activeTxns, False := by
          intro t' hOld
          have hEq := Option.some.inj (hOnly t' ((hActive t').mpr (.inr hOld)))
          exact hFresh t' hOld (by rw [← hEq])
        refine ⟨fun t' hOld => (hNobody t' hOld).elim, ?_⟩
        cases hCur : cur with
        | none => rfl
        | some t' => exact (hNobody t' (h.current t' hCur)).elim
      · rintro ⟨hOnly, hNone⟩ t' ht'
        rcases (hActive t').mp ht' with rfl | hOld
        · rfl
        · have := hOnly t' hOld
          rw [this] at hNone
          cases hNone
  | @commit commitTs ts t g₁ hOp hRun =>
    have hBegin : e.isBegin = false := by
      unfold RedoEntry.isBegin
      rw [hOp]
    rw [hBegin, Bool.and_false]
    obtain ⟨hNext, hIff⟩ := @Replaying.ends V g (g₁.markHandled t).dropHandles e es t h
      fun t' => mem_active_commitAt hRun t'
    exact ⟨hNext, hIff.trans (and_iff_left rfl).symm⟩
  | @abort t g₁ u hOp hRun =>
    have hBegin : e.isBegin = false := by
      unfold RedoEntry.isBegin
      rw [hOp]
    rw [hBegin, Bool.and_false]
    obtain ⟨hNext, hIff⟩ := @Replaying.ends V g (g₁.markHandled t).dropHandles e es t h
      fun t' => mem_active_abortAt hRun t'
    exact ⟨hNext, hIff.trans (and_iff_left rfl).symm⟩
  | delta hOp hRun =>
    have hBegin : e.isBegin = false := by
      unfold RedoEntry.isBegin
      rw [hOp]
    rw [hBegin, Bool.and_false]
    have hManager := txnManager_opSteps (opSteps_of_applyDelta hRun)
    obtain ⟨hNext, hIff⟩ := h.same hManager
    exact ⟨hNext, hIff.trans (and_iff_left rfl).symm⟩
  | skip hOp =>
    obtain ⟨hNext, hIff⟩ := @Replaying.same V g (g.atLsn (e.lsn + 1)) none e es h rfl
    exact ⟨hNext, hIff.trans (and_iff_left rfl).symm⟩

/-- **The transactions that replay leaves open** are those that the log leaves open. -/
theorem activeTxns_applyWalEntries [DecidableEq V] {u : Unit}
    (hRun : g.applyWalEntries cur es = (g', .ok u)) (h : Replaying g cur es) :
    g'.txnManager.activeTxns = [] ↔ OnlyCurrent g cur ∧ isClosed cur.isSome es = true := by
  induction es generalizing g cur with
  | nil =>
    obtain ⟨rfl, -⟩ := Prod.mk.inj hRun
    unfold isClosed
    constructor
    · intro hNil
      have hNobody : ∀ t, t ∉ g.txnManager.activeTxns := List.eq_nil_iff_forall_not_mem.mp hNil
      refine ⟨fun t ht => absurd ht (hNobody t), ?_⟩
      cases hCur : cur with
      | none => rfl
      | some t => exact absurd (h.current t hCur) (hNobody t)
    · rintro ⟨hOnly, hClosed⟩
      refine List.eq_nil_iff_forall_not_mem.mpr fun t ht => ?_
      rw [hOnly t ht] at hClosed
      cases hClosed
  | cons e es ih =>
    obtain ⟨g₁, cur₁, hStep, hRest⟩ := applyWalEntries_cons_ok hRun
    obtain ⟨hNext, hIff⟩ := hStep.replaying h
    have hClosed : isClosed cur.isSome (e :: es) = (!(cur.isSome && e.isBegin) &&
        isClosed (e.isOpenAfter cur.isSome) es) := rfl
    rw [ih hRest hNext, hIff, hStep.counters.2, hClosed, Bool.and_eq_true, Bool.not_eq_true',
      and_assoc]

/-! ## Heads left with the id of a transaction -/

/-- No head carries the id of a transaction. -/
def Unclaimed (g : MemoryGraph V) : Prop :=
  ∀ k id c, g.chain k id = some c → Timestamp.isTxnId c.current.commitTs = false

/-- The heads that carry an id are those in the undo buffer of the current transaction. -/
structure Claims (g : MemoryGraph V) (txn : MemTransaction) : Prop where
  head : ∀ k id c, g.chain k id = some c → Timestamp.isTxnId c.current.commitTs = true →
    ∃ e ∈ (g.txns txn.txnId).undoBuffer, e.delta.target = some (k, id)
  optUndo : txn.lockStrategy = .optimistic → (g.txns txn.txnId).undoBuffer = []

theorem Unclaimed.of_chain (h : Unclaimed g)
    (hChain : ∀ k id c, g'.chain k id = some c → g.chain k id = some c) : Unclaimed g' :=
  fun k id c hc => h k id c (hChain k id c hc)

theorem chain_pushRedo {delta : DeltaOp V} : (g.pushRedo txn delta).chain = g.chain :=
  chain_modifyTxn ..

/-- One write in place: a chain that changes is named by the undo buffer. -/
theorem undo_opStep (h : Stamped rest g) (hs : OpStep txn g g') :
    (∀ e ∈ (g.txns txn.txnId).undoBuffer, e ∈ (g'.txns txn.txnId).undoBuffer) ∧
    (∀ k id, g'.chain k id = g.chain k id ∨
      ∃ e ∈ (g'.txns txn.txnId).undoBuffer, e.delta.target = some (k, id)) ∧
    (txn.lockStrategy = .optimistic →
      (g'.txns txn.txnId).undoBuffer = (g.txns txn.txnId).undoBuffer) := by
  have hWrite : ∀ {k : Kind} {id : Nat} {c : VersionChain (Data V k) (DeltaOp V)} {δ : DeltaOp V}
      {ts : Nat} {d : Data V k} {h' : MemoryGraph V}, δ.target = some (k, id) →
      h'.chain = (g.writeVersion txn k id c δ ts d).chain →
      (h'.txns txn.txnId).undoBuffer =
        ((g.writeVersion txn k id c δ ts d).txns txn.txnId).undoBuffer →
      txn.lockStrategy = .pessimistic →
      (∀ e ∈ (g.txns txn.txnId).undoBuffer, e ∈ (h'.txns txn.txnId).undoBuffer) ∧
      (∀ k id, h'.chain k id = g.chain k id ∨
        ∃ e ∈ (h'.txns txn.txnId).undoBuffer, e.delta.target = some (k, id)) ∧
      (txn.lockStrategy = .optimistic →
        (h'.txns txn.txnId).undoBuffer = (g.txns txn.txnId).undoBuffer) := by
    intro k id c δ ts d h' hTarget hChain hUndo hPess
    rw [hChain, hUndo, undoBuffer_writeVersion_self]
    refine ⟨fun e he => List.mem_append_left _ he, fun k' id' => ?_, fun hOpt => ?_⟩
    · by_cases hEq : (k', id') = (k, id)
      · obtain ⟨rfl, rfl⟩ := Prod.mk.inj hEq
        exact .inr ⟨_, List.mem_append_right _ (List.mem_singleton_self _), hTarget⟩
      · exact .inl (chain_writeVersion_of_ne hEq ..)
    · rw [hPess] at hOpt
      cases hOpt
  cases hs with
  | note k id =>
    rw [txns_modifyTxn_self, TxnState.undoBuffer_insertRead, chain_modifyTxn]
    exact ⟨fun _ he => he, fun _ _ => .inl rfl, fun _ => rfl⟩
  | @create k d hPess hc =>
    have hSame : SameButAdjacency (g.writeVersion txn k d.id ⟨⟨d, txn.txnId⟩, []⟩ (.del k d.id)
        (createMarker txn k) d) _ := SameButAdjacency.linkAdjacency d
    have hChain : (g.createVersion txn d).chain = (g.writeVersion txn k d.id
        ⟨⟨d, txn.txnId⟩, []⟩ (.del k d.id) (createMarker txn k) d).chain := by
      unfold createVersion
      rw [chain_pushRedo, hSame.chain]
    refine hWrite (DeltaOp.target_del _) hChain ?_ hPess
    rw [← hSame.txns]
    exact undoBuffer_pushRedo ..
  | @delete k id c hPess hc hw =>
    have hTarget : (DeltaOp.create c.current.data).target = some (k, id) := by
      rw [DeltaOp.target_create, (h.key hc).1]
    exact hWrite hTarget chain_pushRedo (undoBuffer_pushRedo ..) hPess
  | @set k id c indices old props hPess hc hw hOld =>
    have hTarget : (DeltaOp.setProps k id ⟨indices, old⟩).target = some (k, id) :=
      DeltaOp.target_setProps ..
    exact hWrite hTarget chain_pushRedo (undoBuffer_pushRedo ..) hPess
  | @stage k id intent hOpt hStage =>
    have hUndo : ((g.stage txn k id intent).txns txn.txnId).undoBuffer =
        (g.txns txn.txnId).undoBuffer := by
      unfold MemoryGraph.stage
      rw [txns_modifyTxn_self]
      cases k <;> rfl
    rw [hUndo]
    refine ⟨fun _ he => he, fun k' id' => .inl ?_, fun _ => rfl⟩
    unfold MemoryGraph.stage
    rw [chain_modifyTxn]
  | redo delta hOpt =>
    rw [undoBuffer_pushRedo]
    refine ⟨fun _ he => he, fun k' id' => .inl ?_, fun _ => rfl⟩
    rw [chain_pushRedo]

theorem Claims.opSteps (hStamped : Stamped rest g) (ht : g.Issued txn) (h : Claims g txn)
    (hs : OpSteps txn g g') : Claims g' txn := by
  induction hs with
  | refl => exact h
  | @tail g₁ g₂ hs hStep ih =>
    obtain ⟨hKeep, hChain, hOpt⟩ := undo_opStep (hStamped.opSteps ht hs) hStep
    refine ⟨fun k id c hc hId => ?_, fun hLock => (hOpt hLock).trans (ih.optUndo hLock)⟩
    rcases hChain k id with hSame | hNamed
    · obtain ⟨e, he, hTarget⟩ := ih.head k id c (hSame ▸ hc) hId
      exact ⟨e, hKeep e he, hTarget⟩
    · exact hNamed

theorem chain_of_finishTransaction {u : Unit} (h : g.finishTransaction txn = (g', .ok u))
    {k : Kind} {id : Nat} {c : VersionChain (Data V k) (DeltaOp V)}
    (hc : g'.chain k id = some c) : g.chain k id = some c := by
  obtain ⟨hChain, -⟩ := retire_frame g txn
  rw [finishTransaction_ok h] at hc
  unfold collectAtThreshold at hc
  split at hc
  · split at hc
    · rw [chain_garbageCollect] at hc
      split at hc
      · cases hc
      · rwa [hChain] at hc
    · rwa [hChain] at hc
  · rwa [hChain] at hc

theorem chain_commitLogged {commitTs : Nat} {skipWal : Bool} :
    (g.commitLogged txn commitTs skipWal).chain = g.chain := by
  unfold commitLogged MemoryGraph.clearWrites
  rw [chain_modifyTxn]
  funext k id
  cases skipWal <;> cases k <;> rfl

theorem isTxnId_of_lt {ts : Nat} (h : ts < Timestamp.maxCommitTs) : Timestamp.isTxnId ts = false := by
  have hLt : ts < Timestamp.txnIdStart := by
    unfold Timestamp.maxCommitTs at h
    unfold Timestamp.txnIdStart
    omega
  simpa [Timestamp.isTxnId] using hLt

theorem unclaimed_commitPessimistic {commitTs ts : Nat} {skipWal : Bool} (h : Claims g txn)
    (hTs : commitTs < Timestamp.maxCommitTs)
    (hRun : g.commitPessimistic txn commitTs skipWal = (g', .ok ts)) : Unclaimed g' := by
  obtain ⟨g₁, g₂, hSet, hPub, hFin⟩ := commitPessimistic_ok hRun
  obtain ⟨-, -, rfl⟩ := setCommitTs_some hSet
  rw [txns_modifyTxn_self] at hPub
  obtain ⟨-, -, -, hChain⟩ := publishAll_ok hPub
  have hPublished : Unclaimed g₂ := by
    intro k id c hc
    rw [hChain, chain_modifyTxn] at hc
    split at hc
    · obtain ⟨c₀, -, rfl⟩ := Option.map_eq_some_iff.mp hc
      exact isTxnId_of_lt hTs
    · -- a head that is not named by the undo buffer carries no id
      rename_i hNot
      cases hId : Timestamp.isTxnId c.current.commitTs with
      | false => rfl
      | true =>
        obtain ⟨e, he, hTarget⟩ := h.head k id c hc hId
        refine absurd ?_ hNot
        rw [List.map_map]
        exact List.mem_map.mpr ⟨e, he, hTarget⟩
  refine hPublished.of_chain fun k id c hc => ?_
  have hLogged := chain_of_finishTransaction hFin hc
  rwa [chain_commitLogged] at hLogged

/-- Applied intents: the chains they name are stamped with the id. -/
theorem chain_applyIntents [DecidableEq V] {k : Kind} {ws : List (Nat × WriteIntent (Data V k))}
    {u : Unit} (h : applyIntents txn k g ws = (g', .ok u)) :
    (∀ k' id, (k' = k → id ∉ ws.map Prod.fst) → g'.chain k' id = g.chain k' id) ∧
    ∀ id ∈ ws.map Prod.fst, ∃ c, g'.chain k id = some c ∧ c.current.commitTs = txn.txnId := by
  induction ws generalizing g with
  | nil =>
    obtain ⟨rfl, -⟩ := Prod.mk.inj h
    exact ⟨fun _ _ _ => rfl, fun _ hMem => by cases hMem⟩
  | cons w ws ih =>
    obtain ⟨i, intent⟩ := w
    unfold applyIntents at h
    split at h
    · cases (Prod.mk.inj h).2
    · rename_i g₁ u' hHead
      have hSame := applyIntent_ok hHead
      obtain ⟨hElse, hNamed⟩ := ih h
      refine ⟨fun k' id hNot => ?_, fun id hMem => ?_⟩
      · have hne : (k', id) ≠ (k, i) := by
          intro hEq
          obtain ⟨rfl, rfl⟩ := Prod.mk.inj hEq
          exact hNot rfl (List.mem_cons_self ..)
        rw [hElse k' id fun hk hMem => hNot hk (List.mem_cons_of_mem _ hMem), hSame.chain]
        exact chain_writeVersion_of_ne hne ..
      · by_cases hRest : id ∈ ws.map Prod.fst
        · exact hNamed id hRest
        · have hId : id = i := by
            rcases List.mem_cons.mp hMem with rfl | hIn
            · rfl
            · exact absurd hIn hRest
          subst hId
          have hSelf : g'.chain k id = (g.intentWrite txn k id intent).chain k id := by
            rw [hElse k id fun _ => hRest, hSame.chain]
          exact ⟨_, hSelf.trans (chain_writeVersion_self ..), rfl⟩

/-- An optimistic commit leaves no head with the id of a transaction. -/
theorem unclaimed_commitOptimistic [DecidableEq V] {commitTs ts : Nat} {skipWal : Bool}
    (h : Unclaimed g) (hTs : commitTs < Timestamp.maxCommitTs)
    (hRun : g.commitOptimistic txn commitTs skipWal = (g', .ok ts)) : Unclaimed g' := by
  obtain ⟨-, g₁, g₂, g₃, hV, hE, hSet, hFin⟩ := commitOptimistic_ok hRun
  obtain ⟨-, -, rfl⟩ := setCommitTs_some hSet
  obtain ⟨hElseV, hNamedV⟩ := chain_applyIntents hV
  obtain ⟨hElseE, hNamedE⟩ := chain_applyIntents hE
  have hStamped : Unclaimed (g₂.stampAll txn commitTs
      ((g.txns txn.txnId).vertexWrites.map Prod.fst)
      ((g.txns txn.txnId).edgeWrites.map Prod.fst)) := by
    intro k id c hc
    unfold stampAll at hc
    rw [(foldl_stampOwn ..).2.2, (foldl_stampOwn ..).2.2] at hc
    cases k with
    | vertex =>
      simp only [reduceCtorEq, false_and, if_false, true_and] at hc
      rw [hElseE .vertex id fun hk => by cases hk] at hc
      split at hc
      · rename_i hMem
        obtain ⟨c₁, hc₁, hOwn⟩ := hNamedV id hMem
        rw [hc₁, Option.map_some, Option.some.injEq] at hc
        rw [← hc]
        unfold stampIfOwn
        rw [if_pos hOwn]
        exact isTxnId_of_lt hTs
      · rename_i hNot
        rw [hElseV .vertex id fun _ => hNot] at hc
        exact h .vertex id c hc
    | edge =>
      simp only [reduceCtorEq, false_and, if_false, true_and] at hc
      split at hc
      · rename_i hMem
        obtain ⟨c₁, hc₁, hOwn⟩ := hNamedE id hMem
        rw [hc₁, Option.map_some, Option.some.injEq] at hc
        rw [← hc]
        unfold stampIfOwn
        rw [if_pos hOwn]
        exact isTxnId_of_lt hTs
      · rename_i hNot
        rw [hElseE .edge id fun _ => hNot, hElseV .edge id fun hk => by cases hk] at hc
        exact h .edge id c hc
  refine hStamped.of_chain fun k id c hc => ?_
  have hLogged := chain_of_finishTransaction hFin hc
  rwa [chain_commitLogged, chain_modifyTxn] at hLogged

/-- **A commit that succeeds leaves no head with an id.** -/
theorem unclaimed_commitAt [DecidableEq V] {commitTs ts : Nat} {skipWal : Bool} (h : Claims g txn)
    (hRun : g.commitAt txn (some commitTs) skipWal = (g', .ok ts)) : Unclaimed g' := by
  obtain ⟨ts', gen, g₁, hTs, hLocked, rfl⟩ := commitAt_ok hRun
  obtain ⟨rfl, -, hLt⟩ := GlobalTimestampGenerator.obtain_some hTs
  have hClaims : Claims ({ g with timestampGenerator := gen } : MemoryGraph V) txn :=
    ⟨fun k id c hc => h.head k id c (by rwa [chain_withTs] at hc), h.optUndo⟩
  have hEnd : Unclaimed g₁ := by
    obtain ⟨-, ⟨-, hPess⟩ | ⟨hOpt, hRunOpt⟩⟩ := commitLocked_ok hLocked
    · exact unclaimed_commitPessimistic hClaims hLt hPess
    · -- an optimistic transaction has claimed nothing before its commit
      refine unclaimed_commitOptimistic (fun k id c hc => ?_) hLt hRunOpt
      cases hId : Timestamp.isTxnId c.current.commitTs with
      | false => rfl
      | true =>
        obtain ⟨e, he, -⟩ := hClaims.head k id c hc hId
        rw [hClaims.optUndo hOpt] at he
        cases he
  refine hEnd.of_chain fun k id c hc => ?_
  rwa [MemoryGraph.markHandled, chain_modifyTxn] at hc

/-- An abort with nothing to roll back leaves no head with an id either. -/
theorem unclaimed_abortAt {skipWal : Bool} {u : Unit} (h : Claims g txn)
    (hUndo : (g.txns txn.txnId).undoBuffer = [])
    (hRun : g.abortAt txn skipWal = (g', .ok u)) : Unclaimed g' := by
  obtain ⟨g₁, hFin, rfl⟩ := abortAt_ok hRun
  have hStart : Unclaimed g := by
    intro k id c hc
    cases hId : Timestamp.isTxnId c.current.commitTs with
    | false => rfl
    | true =>
      obtain ⟨e, he, -⟩ := h.head k id c hc hId
      rw [hUndo] at he
      cases he
  refine hStart.of_chain fun k id c hc => ?_
  rw [MemoryGraph.markHandled, chain_modifyTxn] at hc
  have hDrained := chain_of_finishTransaction hFin hc
  have hSame : (g.abortDrained txn skipWal).chain k id = g.chain k id := by
    have hAll : (g.undoAll txn).chain k id = g.chain k id := by
      rw [chain_undoAll]
      unfold entriesFor
      rw [hUndo]
      simp
    unfold abortDrained MemoryGraph.clearWrites
    rw [chain_modifyTxn]
    split
    · exact hAll
    · rw [chain_appendWal]
      exact hAll
  rwa [hSame] at hDrained

/-- During replay: who may have claimed a head, and that an abort to come has nothing to roll
back. -/
structure Tidy (g : MemoryGraph V) (cur : Option MemTransaction) (es : List (RedoEntry V)) :
    Prop where
  free : cur = none → Unclaimed g
  claims : ∀ t, cur = some t → Claims g t
  idle : ∀ t, cur = some t → (g.txns t.txnId).undoBuffer ≠ [] →
    ∀ e ∈ es.head?, e.isAbort = false

theorem chain_atLsn (lsn : Nat) : (g.atLsn lsn).chain = g.chain := by
  funext k id
  cases k <;> rfl

theorem chain_dropHandles : g.dropHandles.chain = g.chain := by
  funext k id
  cases k <;> rfl

theorem Tidy.ended (h : Unclaimed g) : Tidy (g.markHandled txn).dropHandles none es := by
  refine ⟨fun _ => h.of_chain fun k id c hc => ?_, fun _ ht => (nomatch ht), fun _ ht => nomatch ht⟩
  rwa [chain_dropHandles, MemoryGraph.markHandled, chain_modifyTxn] at hc

/-- Replaying one entry of a log whose transactions are closed keeps the graph tidy. -/
theorem ReplayStep.tidy [DecidableEq V] (hs : ReplayStep g e cur g' cur') (hStamped : Stamped rest g)
    (hCur : ∀ t, cur = some t → g.Issued t) (h : Tidy g cur (e :: es))
    (hClosed : (cur.isSome && e.isBegin) = false) (hKept : DeltasKept (e :: es)) :
    Tidy g' cur' es := by
  have hLsn : ∀ t, cur = some t → Claims (g.atLsn (e.lsn + 1)) t := by
    intro t ht
    refine ⟨fun k id c hc => (h.claims t ht).head k id c ?_, (h.claims t ht).optUndo⟩
    rwa [chain_atLsn] at hc
  cases hs with
  | @begin _ startTs t idGen tsGen hOp ht hId hTs =>
    have hBegin : e.isBegin = true := by
      unfold RedoEntry.isBegin
      rw [hOp]
    rw [hBegin, Bool.and_true] at hClosed
    have hNone : cur = none := Option.isSome_eq_false_iff.mp hClosed |> Option.isNone_iff_eq_none.mp
    have hNew : ((g.atLsn (e.lsn + 1)).begun t idGen tsGen).txns t.txnId = .new :=
      Function.update_self ..
    refine ⟨fun hEq => (Option.some_ne_none _ hEq).elim, fun t' ht' => ?_, fun t' ht' hUndo => ?_⟩
    · cases ht'
      -- nobody has claimed anything, and the new transaction has not written
      refine ⟨fun k id c hc hTxn => ?_, fun _ => by rw [hNew]; rfl⟩
      have hOld : g.chain k id = some c := by
        cases k <;> exact hc
      rw [h.free hNone k id c hOld] at hTxn
      cases hTxn
    · cases ht'
      rw [hNew] at hUndo
      exact absurd rfl hUndo
  | @commit commitTs ts t g₁ hOp hRun => exact .ended (unclaimed_commitAt (hLsn t rfl) hRun)
  | @abort t g₁ u hOp hRun =>
    have hAbort : e.isAbort = true := by
      unfold RedoEntry.isAbort
      rw [hOp]
    have hUndo : (g.txns t.txnId).undoBuffer = [] := by
      by_contra hne
      rw [h.idle t rfl hne e rfl] at hAbort
      cases hAbort
    exact .ended (unclaimed_abortAt (hLsn t rfl) hUndo hRun)
  | @delta δ t g₁ u hOp hRun =>
    have hDelta : e.isDelta = true := by
      unfold RedoEntry.isDelta
      rw [hOp]
    refine ⟨fun hEq => (Option.some_ne_none _ hEq).elim, fun t' ht' => ?_, fun t' ht' _ e' he' => ?_⟩
    · cases ht'
      have hIssued : (g.atLsn (e.lsn + 1)).Issued t :=
        (hCur t rfl).mono (Nat.le_refl _) (Nat.le_refl _)
      exact Claims.opSteps (hStamped.atLsn _) hIssued (hLsn t rfl) (opSteps_of_applyDelta hRun)
    · exact (List.isChain_cons.mp hKept).1 e' he' hDelta
  | skip hOp =>
    refine ⟨fun _ => (h.free rfl).of_chain fun k id c hc => ?_, fun _ ht => (nomatch ht),
      fun _ ht => nomatch ht⟩
    rwa [chain_atLsn] at hc

/-- **A closed log leaves no head with an id**, if there was none to begin with. -/
theorem unclaimed_applyWalEntries [DecidableEq V] {u : Unit}
    (hRun : g.applyWalEntries cur es = (g', .ok u)) (hStamped : Stamped rest g)
    (hCur : ∀ t, cur = some t → g.Issued t) (hIds : ∀ e ∈ es, Timestamp.txnIdStart < e.txnId)
    (h : Tidy g cur es) (hClosed : isClosed cur.isSome es = true) (hKept : DeltasKept es) :
    Unclaimed g' := by
  induction es generalizing g cur with
  | nil =>
    obtain ⟨rfl, -⟩ := Prod.mk.inj hRun
    refine h.free ?_
    cases cur with
    | none => rfl
    | some t => cases hClosed
  | cons e es ih =>
    obtain ⟨g₁, cur₁, hStep, hRest⟩ := applyWalEntries_cons_ok hRun
    have hSplit : isClosed cur.isSome (e :: es) = (!(cur.isSome && e.isBegin) &&
        isClosed (e.isOpenAfter cur.isSome) es) := rfl
    rw [hSplit, Bool.and_eq_true, Bool.not_eq_true'] at hClosed
    obtain ⟨hStamped₁, hCur₁⟩ := hStep.stamped hStamped hCur (hIds e (List.mem_cons_self ..))
    refine ih hRest hStamped₁ hCur₁ (fun e' he' => hIds e' (List.mem_cons_of_mem _ he'))
      (hStep.tidy hStamped hCur h hClosed.1 hKept) ?_ (List.isChain_cons.mp hKept).2
    rw [hStep.counters.2]
    exact hClosed.2

end MemoryGraph

end MiniGU
