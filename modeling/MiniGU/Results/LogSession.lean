import MiniGU.Invariant.LogSession
import MiniGU.Lib.Indexed

/-!
# LSNs over the life of a file

Recovery sets the next LSN from the last entry of the log, even where that is below the
checkpoint's. There is such an entry if an LSN was drawn before a checkpoint and appended after it.
A checkpoint waits for the active transactions, but an `abort` or a `commit` of a transaction that
has finished writes its mark all the same.
-/

namespace MiniGU

variable {E C : Type} [DecidableEq E] {F : DbFormat E C}

namespace LogSession

-- ----
-- All steps
-- ----

/-- Records are short enough for their length fields, and checkpoints are undisturbed. -/
def Calm (F : DbFormat E C) (s : LogSession E C) : LogAction E C → Prop
  | .append entry => (F.entry.toBytes entry).length < 256 ^ 4
  | .writeCheckpoint =>
    (∀ c, s.phase = .taken c → (F.checkpoint.toBytes c).length < 256 ^ 4) ∧ s.undisturbed F = true
  | _ => True

/-- The next LSN is above the entries in the log and those covered by the checkpoint, and sorting
by LSN keeps those of each transaction in order. -/
def LsnsRise (F : DbFormat E C) (s : LogSession E C) : Prop :=
  ∃ log, (DbFilePersistence.provider F).readWalEntries s.persistence = .ok log ∧
    (∀ e ∈ log ++ s.covered,
      F.lsn e < (DbFilePersistence.provider F).currentLsn s.persistence) ∧
    ∀ es ∈ s.produced, (sortByKey F.lsn log).filter (· ∈ es) = es.filter (· ∈ log)

variable {s s' : LogSession E C} {checkpoint : Option C} {log : List E}

theorem LogInvariant.step (h : LogInvariant F s checkpoint log) {a : LogAction E C}
    (hCalm : Calm F s a) (hStep : Step F s a s') :
    ∃ checkpoint' log', LogInvariant F s' checkpoint' log' := by
  cases a with
  | begin entry => exact ⟨_, _, h.begin hStep⟩
  | produce i entry => exact ⟨_, _, h.produce hStep⟩
  | append entry => exact ⟨_, _, h.append hCalm hStep⟩
  | finish i => exact ⟨_, _, h.finish hStep⟩
  | lockCheckpoint => exact ⟨_, _, h.lockCheckpoint hStep⟩
  | takeCheckpoint c => exact ⟨_, _, h.takeCheckpoint hStep⟩
  | writeCheckpoint =>
    obtain ⟨c, hNext⟩ := h.writeCheckpoint hCalm.1 hCalm.2 hStep
    exact ⟨_, _, hNext⟩
  | truncateWal =>
    obtain ⟨log', hNext⟩ := h.truncateWal hStep
    exact ⟨_, _, hNext⟩
  | reopen => exact ⟨_, _, h.reopen hStep⟩

/-- Two lists along which LSNs rise are the same if they have the same entries. -/
theorem Rising.ext {es es' : List E} (h : Rising F es) (h' : Rising F es')
    (hMem : ∀ e, e ∈ es ↔ e ∈ es') : es = es' := by
  have hNodup : ∀ {l : List E}, Rising F l → l.Nodup := fun hl =>
    hl.imp fun {a b} hLt hSame => by
      rw [hSame] at hLt
      exact Nat.lt_irrefl _ hLt
  refine List.Perm.eq_of_pairwise (fun a b _ _ hab hba => ?_) h h'
    ((List.perm_ext_iff_of_nodup (hNodup h) (hNodup h')).mpr hMem)
  omega

theorem LogInvariant.lsnsRise (h : LogInvariant F s checkpoint log) : LsnsRise F s := by
  refine ⟨_, h.keeps.readWalEntries, fun e he => ?_, fun es hes => ?_⟩
  · simp only [List.mem_append, mem_sortByKey] at he
    exact h.below e (by simp only [List.mem_append]; tauto)
  · -- distinct LSNs rise once they are sorted
    have hDistinct : ((sortByKey F.lsn log).map F.lsn).Nodup := by
      have hPerm : (sortByKey F.lsn log).Perm log := List.perm_insertionSort _ log
      rw [(hPerm.map F.lsn).nodup_iff]
      exact h.distinct.sublist ((List.sublist_append_left log s.pending).map F.lsn)
    have hSorted : Rising F (sortByKey F.lsn log) := by
      have hNe := List.pairwise_map.mp hDistinct
      refine ((pairwise_sortByKey log).and hNe).imp fun hBoth => ?_
      exact Nat.lt_of_le_of_ne hBoth.1 hBoth.2
    rw [sortByKey_sortByKey]
    refine Rising.ext (hSorted.filter _) ((h.rising es hes).filter _) fun e => ?_
    simp only [List.mem_filter, mem_sortByKey, decide_eq_true_eq]
    exact and_comm

/-- **LSNs rise**: in every run in which no LSN is drawn before a checkpoint and appended after
it. -/
theorem lsns_rise (F : DbFormat E C) {trace : List (LogSession E C × LogAction E C)}
    (hRun : Run (Step F) (Calm F) new trace s) : LsnsRise F s := by
  obtain ⟨checkpoint, log, h⟩ := hRun.stateInvariant
    (I := fun s => ∃ checkpoint log, LogInvariant F s checkpoint log)
    ⟨none, [], logInvariant_new F⟩ fun s a s' h hCalm hStep => by
      obtain ⟨checkpoint, log, h⟩ := h
      exact h.step hCalm hStep
  exact h.lsnsRise

open DbFile (u64Format short_u64)

/-- A transaction, a checkpoint that covers it, the start of another, and a reopening. -/
def checkpointedOnce : List (LogAction (Fin (256 ^ 8)) (Fin (256 ^ 8))) :=
  [.begin 1, .append 1, .produce 0 2, .append 2, .finish 0,
   .lockCheckpoint, .takeCheckpoint 3, .writeCheckpoint, .truncateWal, .begin 3, .append 3, .reopen]

def calmNext (s : LogSession (Fin (256 ^ 8)) (Fin (256 ^ 8)))
    (a : LogAction (Fin (256 ^ 8)) (Fin (256 ^ 8))) :
    Option (LogSession (Fin (256 ^ 8)) (Fin (256 ^ 8))) :=
  if s.undisturbed u64Format = true then s.next u64Format a else none

theorem calm_of_calmNext {s s' : LogSession (Fin (256 ^ 8)) (Fin (256 ^ 8))}
    {a : LogAction (Fin (256 ^ 8)) (Fin (256 ^ 8))} (h : calmNext s a = some s') :
    Calm u64Format s a ∧ Step u64Format s a s' := by
  unfold calmNext at h
  split at h
  case isFalse => cases h
  rename_i hUndisturbed
  refine ⟨?_, h⟩
  cases a with
  | append e => exact short_u64 (.appendWal e)
  | writeCheckpoint => exact ⟨fun c _ => short_u64 (.writeCheckpoint c), hUndisturbed⟩
  | _ => trivial

set_option maxRecDepth 100000 in
/-- The next LSN is above the entry in the log and the two that the checkpoint covers. -/
theorem lsns_rise_checkpointedOnce : ∃ trace s,
    Run (Step u64Format) (Calm u64Format) new trace s ∧ s.covered = [1, 2] ∧
    s.persistence.nextLsn = 4 ∧ LsnsRise u64Format s := by
  have hFacts : (runList calmNext new checkpointedOnce).map
      (fun r => (r.2.covered, r.2.persistence.nextLsn)) = some ([1, 2], 4) := by decide +kernel
  obtain ⟨⟨trace, s⟩, hList, hFacts⟩ := Option.map_eq_some_iff.mp hFacts
  rw [Prod.mk.injEq] at hFacts
  have hRun : Run (Step u64Format) (Calm u64Format) new trace s :=
    Run.of_runList (fun s a s' hNext => calm_of_calmNext hNext) hList
  exact ⟨trace, s, hRun, hFacts.1, hFacts.2, lsns_rise u64Format hRun⟩

/-- The first transaction aborts after its commit, and its mark is appended after a checkpoint
that has the second. -/
def lateAbort : List (LogAction (Fin (256 ^ 8)) (Fin (256 ^ 8))) :=
  [.begin 1, .append 1, .produce 0 2, .append 2, .finish 0, .produce 0 3,
   .begin 4, .append 4, .produce 1 5, .append 5, .finish 1,
   .lockCheckpoint, .takeCheckpoint 6, .writeCheckpoint, .truncateWal, .append 3, .reopen]

set_option maxRecDepth 100000 in
/-- **LSNs come back**: once that mark is replayed, the next LSN is one the checkpoint covers. -/
theorem lsns_return : ∃ trace s, Run (Step u64Format) (fun _ _ => True) new trace s ∧
    s.covered = [1, 2, 4, 5] ∧ s.persistence.nextLsn = 4 ∧ ¬ LsnsRise u64Format s := by
  have hFacts : (runList (next u64Format) new lateAbort).map
      (fun r => (r.2.covered, r.2.persistence.nextLsn)) = some ([1, 2, 4, 5], 4) := by
    decide +kernel
  obtain ⟨⟨trace, s⟩, hList, hFacts⟩ := Option.map_eq_some_iff.mp hFacts
  obtain ⟨hCovered, hNext⟩ := Prod.mk.inj hFacts
  refine ⟨trace, s, Run.of_runList (fun _ _ _ hNext => ⟨trivial, hNext⟩) hList, hCovered, hNext,
    fun h => ?_⟩
  obtain ⟨log, -, hBelow, -⟩ := h
  have hFive := hBelow 5 (by rw [hCovered]; simp)
  have hLsn : (DbFilePersistence.provider u64Format).currentLsn s.persistence = 4 := hNext
  rw [hLsn] at hFive
  exact absurd hFive (by decide)

-- ----
-- Nothing is called on transactions that have finished
-- ----

/-- Entries are made for active transactions only, and records are short. -/
def OnActive (F : DbFormat E C) (s : LogSession E C) : LogAction E C → Prop
  | .produce i _ => ∃ t, s.txns[i]? = some t ∧ t.active = true
  | .append entry => (F.entry.toBytes entry).length < 256 ^ 4
  | .writeCheckpoint => ∀ c, s.phase = .taken c → (F.checkpoint.toBytes c).length < 256 ^ 4
  | _ => True

/-- What is to be appended belongs to active transactions, and a checkpoint finds none. -/
structure Settled (F : DbFormat E C) (s : LogSession E C) (log : List E) : Prop where
  owned : ∀ e ∈ s.pending, ∃ t ∈ s.txns, t.active = true ∧ e ∈ t.produced
  drained : ∀ c, s.phase = .taken c → (∀ t ∈ s.txns, t.active = false) ∧
    ∀ e ∈ log, F.lsn e ≤ F.checkpointLsn c

omit [DecidableEq E] in
theorem Settled.pending_eq_nil (h : Settled F s log) {c : C} (hPhase : s.phase = .taken c) :
    s.pending = [] := by
  refine List.eq_nil_iff_forall_not_mem.mpr fun e he => ?_
  obtain ⟨t, ht, hActive, -⟩ := h.owned e he
  have hInactive := (h.drained c hPhase).1 t ht
  rw [hActive] at hInactive
  cases hInactive

omit [DecidableEq E] in
theorem Settled.undisturbed (h : Settled F s log) (hInv : LogInvariant F s checkpoint log) :
    s.undisturbed F = true := by
  rw [LogSession.undisturbed, hInv.keeps.readWalEntries]
  split
  · rename_i c entries hPhase hEntries
    obtain rfl := Except.ok.inj hEntries
    simp only [h.pending_eq_nil hPhase, List.all_nil, Bool.true_and, List.all_eq_true,
      mem_sortByKey, decide_eq_true_eq]
    exact (h.drained c hPhase).2
  · rfl

theorem Settled.begin (h : Settled F s log) {entry : E}
    (hStep : s.next F (.begin entry) = some s') : Settled F s' log := by
  simp only [next] at hStep
  split at hStep
  case h_2 => cases hStep
  rename_i p hPhase hDraw
  obtain rfl := Option.some.inj hStep
  constructor
  case owned =>
    intro e he
    rcases List.mem_append.mp he with he | he
    · obtain ⟨t, ht, hOwns⟩ := h.owned e he
      exact ⟨t, List.mem_append_left _ ht, hOwns⟩
    · exact ⟨_, List.mem_append_right _ List.mem_cons_self, rfl, he⟩
  case drained =>
    intro c hc
    rw [hPhase] at hc
    cases hc

theorem Settled.produce (h : Settled F s log) {i : Nat} {entry : E}
    (hActive : ∃ t, s.txns[i]? = some t ∧ t.active = true)
    (hStep : s.next F (.produce i entry) = some s') : Settled F s' log := by
  obtain ⟨t, hTxn, hActive⟩ := hActive
  simp only [next, hTxn] at hStep
  split at hStep
  case h_2 => cases hStep
  rename_i u p hSame hDraw
  obtain rfl := Option.some.inj hSame
  obtain rfl := Option.some.inj hStep
  have hNew : { t with produced := t.produced ++ [entry] } ∈
      s.txns.set i { t with produced := t.produced ++ [entry] } :=
    List.mem_set (List.getElem?_eq_some_iff.mp hTxn).1 _
  constructor
  case owned =>
    intro e he
    rcases List.mem_append.mp he with he | he
    · obtain ⟨u, hu, hOn, hOwns⟩ := h.owned e he
      rcases mem_set_or_eq hu hTxn { t with produced := t.produced ++ [entry] } with rfl | hKept
      · exact ⟨_, hNew, hActive, List.mem_append_left _ hOwns⟩
      · exact ⟨u, hKept, hOn, hOwns⟩
    · exact ⟨_, hNew, hActive, List.mem_append_right _ he⟩
  case drained =>
    intro c hc
    -- no transaction is active then
    have hInactive := (h.drained c hc).1 t (List.mem_of_getElem? hTxn)
    rw [hActive] at hInactive
    cases hInactive

theorem Settled.append (h : Settled F s log) {entry : E}
    (hStep : s.next F (.append entry) = some s') : Settled F s' (log ++ [entry]) := by
  simp only [next] at hStep
  split at hStep
  case isFalse => cases hStep
  rename_i hIn
  split at hStep
  case h_2 => cases hStep
  obtain rfl := Option.some.inj hStep
  constructor
  case owned => exact fun e he => h.owned e (List.mem_of_mem_erase he)
  case drained =>
    intro c hc
    rw [h.pending_eq_nil hc] at hIn
    cases hIn

theorem Settled.finish (h : Settled F s log) {i : Nat}
    (hStep : s.next F (.finish i) = some s') : Settled F s' log := by
  simp only [next] at hStep
  split at hStep
  case h_2 => cases hStep
  rename_i t hTxn
  split at hStep
  case isFalse => cases hStep
  rename_i hFinish
  obtain rfl := Option.some.inj hStep
  constructor
  case owned =>
    intro e he
    obtain ⟨u, hu, hOn, hOwns⟩ := h.owned e he
    rcases mem_set_or_eq hu hTxn { t with active := false } with rfl | hKept
    · exact absurd he (hFinish.2 e hOwns)
    · exact ⟨u, hKept, hOn, hOwns⟩
  case drained =>
    intro c hc
    have hInactive := (h.drained c hc).1 t (List.mem_of_getElem? hTxn)
    rw [hFinish.1] at hInactive
    cases hInactive

theorem Settled.takeCheckpoint (h : Settled F s log) (hInv : LogInvariant F s checkpoint log)
    {c : C} (hStep : s.next F (.takeCheckpoint c) = some s') : Settled F s' log := by
  simp only [next] at hStep
  split at hStep
  case h_2 => cases hStep
  split at hStep
  case isFalse => cases hStep
  rename_i hTake
  obtain rfl := Option.some.inj hStep
  have hLsn : F.checkpointLsn c = s.persistence.nextLsn := hTake.2
  refine ⟨h.owned, fun d hd => ?_⟩
  cases hd
  refine ⟨hTake.1, fun e he => ?_⟩
  have hBelow := hInv.below e (by simp [he])
  omega

theorem Settled.lockCheckpoint (h : Settled F s log)
    (hStep : s.next F .lockCheckpoint = some s') : Settled F s' log := by
  simp only [next] at hStep
  split at hStep
  · obtain rfl := Option.some.inj hStep
    exact ⟨h.owned, fun c hc => (by cases hc)⟩
  · cases hStep

theorem Settled.writeCheckpoint (h : Settled F s log)
    (hStep : s.next F .writeCheckpoint = some s') (log' : List E) : Settled F s' log' := by
  simp only [next] at hStep
  split at hStep
  case h_2 => cases hStep
  split at hStep
  case h_2 => cases hStep
  obtain rfl := Option.some.inj hStep
  exact ⟨h.owned, fun c hc => (by cases hc)⟩

theorem Settled.truncateWal (h : Settled F s log)
    (hStep : s.next F .truncateWal = some s') (log' : List E) : Settled F s' log' := by
  simp only [next] at hStep
  split at hStep
  case h_2 => cases hStep
  split at hStep
  case h_2 => cases hStep
  obtain rfl := Option.some.inj hStep
  exact ⟨h.owned, fun c hc => (by cases hc)⟩

theorem settled_reopen (hStep : s.next F .reopen = some s') (log : List E) :
    Settled F s' log := by
  simp only [next] at hStep
  split at hStep
  · obtain rfl := Option.some.inj hStep
    exact ⟨fun e he => (by cases he), fun c hc => (by cases hc)⟩
  · cases hStep

theorem LogInvariant.settled_step (h : LogInvariant F s checkpoint log) (hSettled : Settled F s log)
    {a : LogAction E C} (hActive : OnActive F s a) (hStep : Step F s a s') :
    ∃ checkpoint' log', LogInvariant F s' checkpoint' log' ∧ Settled F s' log' := by
  cases a with
  | begin entry => exact ⟨_, _, h.begin hStep, hSettled.begin hStep⟩
  | produce i entry => exact ⟨_, _, h.produce hStep, hSettled.produce hActive hStep⟩
  | append entry => exact ⟨_, _, h.append hActive hStep, hSettled.append hStep⟩
  | finish i => exact ⟨_, _, h.finish hStep, hSettled.finish hStep⟩
  | lockCheckpoint => exact ⟨_, _, h.lockCheckpoint hStep, hSettled.lockCheckpoint hStep⟩
  | takeCheckpoint c => exact ⟨_, _, h.takeCheckpoint hStep, hSettled.takeCheckpoint h hStep⟩
  | writeCheckpoint =>
    obtain ⟨c, hNext⟩ := h.writeCheckpoint hActive (hSettled.undisturbed h) hStep
    exact ⟨_, _, hNext, hSettled.writeCheckpoint hStep []⟩
  | truncateWal =>
    obtain ⟨log', hNext⟩ := h.truncateWal hStep
    exact ⟨_, _, hNext, hSettled.truncateWal hStep log'⟩
  | reopen => exact ⟨_, _, h.reopen hStep, settled_reopen hStep log⟩

/-- No checkpoint is disturbed in a run in which entries are made for active transactions only. -/
theorem undisturbed_of_active (F : DbFormat E C) {trace : List (LogSession E C × LogAction E C)}
    (hRun : Run (Step F) (OnActive F) new trace s) : s.undisturbed F = true := by
  obtain ⟨checkpoint, log, h, hSettled⟩ := hRun.stateInvariant
    (I := fun s => ∃ checkpoint log, LogInvariant F s checkpoint log ∧ Settled F s log)
    ⟨none, [], logInvariant_new F, fun e he => (nomatch he), fun c hc => (nomatch hc)⟩
    fun s a s' h hActive hStep => by
      obtain ⟨checkpoint, log, h, hSettled⟩ := h
      exact h.settled_step hSettled hActive hStep
  exact hSettled.undisturbed h

/-- A transaction begins and finishes, and a checkpoint is taken. -/
def takenOnce : List (LogAction (Fin (256 ^ 8)) (Fin (256 ^ 8))) :=
  [.begin 1, .append 1, .finish 0, .lockCheckpoint, .takeCheckpoint 2]

set_option maxRecDepth 100000 in
/-- A checkpoint that is taken and has not been written yet. -/
theorem undisturbed_takenOnce : ∃ trace s,
    Run (Step u64Format) (OnActive u64Format) new trace s ∧ s.phase = .taken 2 ∧
    s.undisturbed u64Format = true := by
  have hFacts : (runList (fun s a => if a ∈ takenOnce then next u64Format s a else none) new
      takenOnce).map (fun r => r.2.phase) = some (.taken 2) := by decide +kernel
  obtain ⟨⟨trace, s⟩, hList, hPhase⟩ := Option.map_eq_some_iff.mp hFacts
  have hRun : Run (Step u64Format) (OnActive u64Format) new trace s := by
    refine Run.of_runList (fun s a s' hNext => ?_) hList
    split at hNext
    case isFalse => cases hNext
    rename_i hMem
    refine ⟨?_, hNext⟩
    cases a with
    | produce i entry => simp [takenOnce] at hMem
    | writeCheckpoint => simp [takenOnce] at hMem
    | append entry => exact short_u64 (.appendWal entry)
    | _ => trivial
  exact ⟨trace, s, hRun, hPhase, undisturbed_of_active u64Format hRun⟩

end LogSession

end MiniGU
