import MiniGU.Model.LogSession
import MiniGU.Results.DbFile

/-!
# The LSNs of a session

The next LSN is above those of all entries in the log, to be appended, or covered by the checkpoint;
the checkpoint's LSN separates the covered entries from the others (`LogInvariant`). Recovery sets
the next LSN from the checkpoint and then from the last entry of the log, which is above both.
-/

namespace MiniGU

variable {E C : Type} {F : DbFormat E C}

/-! ## What a file keeps -/

namespace DbFilePersistence

/-- The file of the provider has this checkpoint and this log. -/
def Keeps (F : DbFormat E C) (p : DbFilePersistence) (checkpoint : Option C) (log : List E) : Prop :=
  ∃ budget, DbFile.Represents F budget p.manager ⟨checkpoint, log⟩

variable {p p' : DbFilePersistence} {checkpoint : Option C} {log : List E}

theorem keeps_new (F : DbFormat E C) : Keeps F (new .create) none [] :=
  ⟨headerSize, [], DbFile.layout_create, rfl, Nat.le_refl _⟩

theorem Keeps.readCheckpoint (h : Keeps F p checkpoint log) :
    (provider F).readCheckpoint p = .ok checkpoint := by
  obtain ⟨_, ws, hLayout, -⟩ := h
  exact hLayout.readCheckpoint

theorem Keeps.readWalEntries (h : Keeps F p checkpoint log) :
    (provider F).readWalEntries p = .ok (sortByKey F.lsn log) := by
  obtain ⟨_, ws, hLayout, hSort, -⟩ := h
  show p.manager.readWalEntries F = _
  rw [hLayout.readWalEntries, hSort]

theorem Keeps.openFile (h : Keeps F p checkpoint log) :
    DbFile.openFile p.manager.file = .ok p.manager := by
  obtain ⟨_, ws, hLayout, -⟩ := h
  exact hLayout.openFile

/-- A call on the file that goes through has its abstract meaning. -/
theorem Keeps.exec (h : Keeps F p checkpoint log) {call : DbCall E C} (hShort : call.Short F)
    {manager : DbFile} (hOk : p.manager.exec F call = .ok manager) (lsn : Nat) :
    Keeps F ⟨manager, lsn⟩ (DbState.step F ⟨checkpoint, log⟩ call).checkpoint
      (DbState.step F ⟨checkpoint, log⟩ call).log := by
  obtain ⟨budget, hRep⟩ := h
  rcases hRep.exec hShort with ⟨db, hExec, hNext⟩ | ⟨hExec, -⟩
  · rw [hOk] at hExec
    obtain rfl := Except.ok.inj hExec
    exact ⟨_, hNext⟩
  · rw [hOk] at hExec
    cases hExec

theorem Keeps.appendWal (h : Keeps F p checkpoint log) {entry : E}
    (hShort : (F.entry.toBytes entry).length < 256 ^ 4)
    (hOk : (provider F).appendWal entry p = .ok p') :
    Keeps F p' checkpoint (log ++ [entry]) ∧ p'.nextLsn = p.nextLsn := by
  obtain ⟨manager, hPerform, hSame⟩ := bind_ok_iff.mp hOk
  obtain rfl := Except.ok.inj hSame
  have hCall : DbCall.Short F (.appendWal entry) := hShort
  exact ⟨h.exec hCall hPerform p.nextLsn, rfl⟩

theorem Keeps.writeCheckpoint (h : Keeps F p checkpoint log) {c : C}
    (hShort : (F.checkpoint.toBytes c).length < 256 ^ 4)
    (hOk : (provider F).writeCheckpoint c p = .ok p') :
    Keeps F p' (some c) [] ∧ p'.nextLsn = p.nextLsn := by
  obtain ⟨manager, hPerform, hSame⟩ := bind_ok_iff.mp hOk
  obtain rfl := Except.ok.inj hSame
  have hCall : DbCall.Short F (.writeCheckpoint c) := hShort
  exact ⟨h.exec hCall hPerform p.nextLsn, rfl⟩

theorem Keeps.truncateWalUntil (h : Keeps F p checkpoint log) {minLsn count : Nat}
    (hOk : (provider F).truncateWalUntil minLsn p = .ok (count, p')) :
    Keeps F p' checkpoint (log.filter fun e => minLsn ≤ F.lsn e) ∧ p'.nextLsn = p.nextLsn := by
  obtain ⟨⟨manager, n⟩, hTruncate, hSame⟩ := bind_ok_iff.mp hOk
  obtain ⟨rfl, rfl⟩ := Prod.mk.inj (Except.ok.inj hSame)
  have hExec : p.manager.exec F (.truncateWalUntil minLsn) = .ok manager := by
    show (p.manager.truncateWalUntil F minLsn).map Prod.fst = _
    rw [hTruncate]
    rfl
  have hCall : DbCall.Short F (E := E) (.truncateWalUntil minLsn) := trivial
  exact ⟨h.exec hCall hExec p.nextLsn, rfl⟩

/-! ## Recovery -/

/-- The next LSN after recovery. -/
def recoveredLsn (F : DbFormat E C) (start : Nat) (checkpoint : Option C) (log : List E) : Nat :=
  ((sortByKey F.lsn log).getLast?.map fun e => F.lsn e + 1).getD
    ((checkpoint.map fun c => F.checkpointLsn c + 1).getD start)

theorem foldl_setNextLsn (es : List E) (p : DbFilePersistence) :
    es.foldl (fun p e => (provider F).setNextLsn (F.lsn e + 1) p) p =
      { p with nextLsn := (es.getLast?.map fun e => F.lsn e + 1).getD p.nextLsn } := by
  induction es generalizing p with
  | nil => rfl
  | cons e es ih =>
    rw [List.foldl_cons, ih]
    cases es with
    | nil => rfl
    | cons e' es => simp [provider, List.getLast?_cons]

theorem Keeps.openRecovered (h : Keeps F p checkpoint log) :
    openRecovered F p.manager.file = .ok
      ⟨p.manager, recoveredLsn F (p.manager.header.lastLsn + 1) checkpoint log⟩ := by
  have hNew : Keeps F (new p.manager) checkpoint log := h
  rw [DbFilePersistence.openRecovered, h.openFile, ok_bind, recover, hNew.readCheckpoint, ok_bind]
  have hSet : ∀ lsn, (provider F).readWalEntries ((provider F).setNextLsn lsn (new p.manager)) =
      .ok (sortByKey F.lsn log) := fun lsn =>
    Keeps.readWalEntries (p := ⟨p.manager, lsn⟩) h
  cases checkpoint with
  | none =>
    dsimp only
    rw [hNew.readWalEntries, ok_bind, foldl_setNextLsn]
    rfl
  | some c =>
    dsimp only
    rw [hSet, ok_bind, foldl_setNextLsn]
    rfl

/-- After recovery the next LSN is above the log, and above the checkpoint if the log is. -/
theorem lt_recoveredLsn {start : Nat} {e : E} (he : e ∈ log) :
    F.lsn e < recoveredLsn F start checkpoint log := by
  have hIn : e ∈ sortByKey F.lsn log := mem_sortByKey.mpr he
  obtain ⟨init, last, hLast⟩ := List.eq_nil_or_concat' (sortByKey F.lsn log) |>.resolve_left
    (List.ne_nil_of_mem hIn)
  have hSorted : (sortByKey F.lsn log).Pairwise fun a b => F.lsn a ≤ F.lsn b :=
    pairwise_sortByKey log
  rw [recoveredLsn, hLast, List.getLast?_concat]
  show F.lsn e < F.lsn last + 1
  rw [hLast] at hIn hSorted
  rcases List.mem_append.mp hIn with hInit | hEnd
  · have hLe := (List.pairwise_append.mp hSorted).2.2 e hInit last List.mem_cons_self
    omega
  · rw [List.mem_singleton.mp hEnd]
    omega

theorem checkpointLsn_lt_recoveredLsn {start : Nat} {c : C}
    (h : ∀ e ∈ log, F.checkpointLsn c ≤ F.lsn e) :
    F.checkpointLsn c < recoveredLsn F start (some c) log := by
  cases log with
  | nil => exact Nat.lt_succ_self _
  | cons e log =>
    exact Nat.lt_of_le_of_lt (h e List.mem_cons_self) (lt_recoveredLsn List.mem_cons_self)

end DbFilePersistence

namespace LogSession

/-! ## The invariant -/

/-- The entries of each transaction, of this session and the earlier ones. -/
def produced (s : LogSession E C) : List (List E) := s.past ++ s.txns.map LogTxn.produced

/-- LSNs rise along the list. -/
def Rising (F : DbFormat E C) (es : List E) : Prop := es.Pairwise fun a b => F.lsn a < F.lsn b

structure LogInvariant (F : DbFormat E C) (s : LogSession E C) (checkpoint : Option C)
    (log : List E) : Prop where
  keeps : s.persistence.Keeps F checkpoint log
  distinct : ((log ++ s.pending).map F.lsn).Nodup
  below : ∀ e ∈ log ++ s.pending ++ s.covered, F.lsn e < s.persistence.nextLsn
  uncovered : checkpoint = none → s.covered = []
  apart : ∀ c, checkpoint = some c → F.checkpointLsn c ≤ s.persistence.nextLsn ∧
    (∀ e ∈ log ++ s.pending, F.checkpointLsn c ≤ F.lsn e) ∧
    ∀ e ∈ s.covered, F.lsn e ≤ F.checkpointLsn c
  taken : ∀ c, s.phase = .taken c → F.checkpointLsn c ≤ s.persistence.nextLsn ∧
    ∀ e ∈ s.covered, F.lsn e ≤ F.checkpointLsn c
  rising : ∀ es ∈ s.produced, Rising F es
  handedOut : ∀ t ∈ s.txns, ∀ e ∈ t.produced, F.lsn e < s.persistence.nextLsn

variable {s s' : LogSession E C} {checkpoint : Option C} {log : List E}

theorem logInvariant_new (F : DbFormat E C) : LogInvariant F (new : LogSession E C) none [] where
  keeps := DbFilePersistence.keeps_new F
  distinct := List.nodup_nil
  below e he := by cases he
  uncovered _ := rfl
  apart c hc := by cases hc
  taken c hc := by cases hc
  rising es hes := by cases hes
  handedOut t ht := by cases ht

theorem draw_eq_some {entry : E} {p : DbFilePersistence} (h : s.draw F entry = some p) :
    F.lsn entry = s.persistence.nextLsn ∧
      p = { s.persistence with nextLsn := s.persistence.nextLsn + 1 } := by
  unfold draw at h
  dsimp only [DbFilePersistence.provider] at h
  split at h
  · rename_i hLsn
    exact ⟨hLsn, (Option.some.inj h).symm⟩
  · cases h

/-- Drawing an LSN adds an entry with the greatest LSN so far to those that wait. -/
theorem LogInvariant.drawn (h : LogInvariant F s checkpoint log) {entry : E}
    {p : DbFilePersistence} (hDraw : s.draw F entry = some p) {txns : List (LogTxn E)}
    (hRising : ∀ t ∈ txns, Rising F t.produced)
    (hHandedOut : ∀ t ∈ txns, ∀ e ∈ t.produced, F.lsn e ≤ s.persistence.nextLsn) :
    LogInvariant F { s with persistence := p, pending := s.pending ++ [entry], txns := txns }
      checkpoint log := by
  obtain ⟨hLsn, rfl⟩ := draw_eq_some hDraw
  constructor
  case keeps => exact h.keeps
  case distinct =>
    show ((log ++ (s.pending ++ [entry])).map F.lsn).Nodup
    rw [← List.append_assoc, List.map_append, List.nodup_append]
    refine ⟨h.distinct, List.nodup_singleton _, fun n hn m hm => ?_⟩
    obtain ⟨e, he, rfl⟩ := List.mem_map.mp hn
    obtain ⟨e', he', rfl⟩ := List.mem_map.mp hm
    have hLt := h.below e (List.mem_append_left _ he)
    rw [List.mem_singleton.mp he', hLsn]
    omega
  case below =>
    intro e he
    show F.lsn e < s.persistence.nextLsn + 1
    simp only [List.mem_append, List.mem_singleton] at he
    rcases he with (he | he | rfl) | he
    · exact Nat.lt_succ_of_lt (h.below e (by simp [he]))
    · exact Nat.lt_succ_of_lt (h.below e (by simp [he]))
    · omega
    · exact Nat.lt_succ_of_lt (h.below e (by simp [he]))
  case uncovered => exact h.uncovered
  case apart =>
    intro c hc
    obtain ⟨hNext, hSince, hCovered⟩ := h.apart c hc
    refine ⟨Nat.le_succ_of_le hNext, fun e he => ?_, hCovered⟩
    simp only [List.mem_append, List.mem_singleton] at he
    rcases he with he | he | rfl
    · exact hSince e (by simp [he])
    · exact hSince e (by simp [he])
    · omega
  case taken =>
    intro c hc
    obtain ⟨hNext, hCovered⟩ := h.taken c hc
    exact ⟨Nat.le_succ_of_le hNext, hCovered⟩
  case rising =>
    intro es hes
    rcases List.mem_append.mp hes with hes | hes
    · exact h.rising es (List.mem_append_left _ hes)
    · obtain ⟨t, ht, rfl⟩ := List.mem_map.mp hes
      exact hRising t ht
  case handedOut =>
    intro t ht e he
    exact Nat.lt_succ_of_le (hHandedOut t ht e he)

/-! ## Transactions -/

theorem LogInvariant.rising_txn (h : LogInvariant F s checkpoint log) {t : LogTxn E}
    (ht : t ∈ s.txns) : Rising F t.produced :=
  h.rising _ (List.mem_append_right _ (List.mem_map_of_mem ht))

variable [DecidableEq E]

theorem LogInvariant.begin (h : LogInvariant F s checkpoint log) {entry : E}
    (hStep : s.next F (.begin entry) = some s') : LogInvariant F s' checkpoint log := by
  simp only [next] at hStep
  split at hStep
  · rename_i p hPhase hDraw
    obtain rfl := Option.some.inj hStep
    refine h.drawn hDraw (fun t ht => ?_) fun t ht e he => ?_
    · rcases List.mem_append.mp ht with ht | ht
      · exact h.rising_txn ht
      · rw [List.mem_singleton.mp ht]
        exact List.pairwise_singleton _ _
    · rcases List.mem_append.mp ht with ht | ht
      · exact Nat.le_of_lt (h.handedOut t ht e he)
      · rw [List.mem_singleton.mp ht] at he
        rw [List.mem_singleton.mp he, (draw_eq_some hDraw).1]
  · cases hStep

theorem LogInvariant.produce (h : LogInvariant F s checkpoint log) {i : Nat} {entry : E}
    (hStep : s.next F (.produce i entry) = some s') : LogInvariant F s' checkpoint log := by
  simp only [next] at hStep
  split at hStep
  · rename_i t p hTxn hDraw
    obtain rfl := Option.some.inj hStep
    have ht := List.mem_of_getElem? hTxn
    have hLsn := (draw_eq_some hDraw).1
    refine h.drawn hDraw (fun u hu => ?_) fun u hu e he => ?_
    · rcases List.mem_or_eq_of_mem_set hu with hu | rfl
      · exact h.rising_txn hu
      · -- the new LSN is above those of the transaction
        refine List.pairwise_append.mpr ⟨h.rising_txn ht, List.pairwise_singleton _ _,
          fun e he e' he' => ?_⟩
        rw [List.mem_singleton.mp he', hLsn]
        exact h.handedOut t ht e he
    · rcases List.mem_or_eq_of_mem_set hu with hu | rfl
      · exact Nat.le_of_lt (h.handedOut u hu e he)
      · rcases List.mem_append.mp he with he | he
        · exact Nat.le_of_lt (h.handedOut t ht e he)
        · rw [List.mem_singleton.mp he, hLsn]
  · cases hStep

/-- An append writes one of the waiting entries behind the log. -/
theorem LogInvariant.append (h : LogInvariant F s checkpoint log) {entry : E}
    (hShort : (F.entry.toBytes entry).length < 256 ^ 4)
    (hStep : s.next F (.append entry) = some s') :
    LogInvariant F s' checkpoint (log ++ [entry]) := by
  simp only [next] at hStep
  split at hStep
  case isFalse => cases hStep
  rename_i hIn
  split at hStep
  case h_2 => cases hStep
  rename_i p hOk
  obtain rfl := Option.some.inj hStep
  obtain ⟨hKeeps, hLsn⟩ := h.keeps.appendWal hShort hOk
  -- the entry moves from one list to the other
  have hPerm : (log ++ [entry] ++ s.pending.erase entry).Perm (log ++ s.pending) := by
    rw [List.append_assoc]
    exact (List.perm_cons_erase hIn).symm.append_left log
  have hMem : ∀ e, e ∈ log ++ [entry] ++ s.pending.erase entry ↔ e ∈ log ++ s.pending := fun e =>
    hPerm.mem_iff
  constructor
  case keeps => exact hKeeps
  case distinct => exact (hPerm.map F.lsn).nodup_iff.mpr h.distinct
  case below =>
    intro e he
    rw [hLsn]
    refine h.below e ?_
    rcases List.mem_append.mp he with he | he
    · exact List.mem_append_left _ ((hMem e).mp he)
    · exact List.mem_append_right _ he
  case uncovered => exact h.uncovered
  case apart =>
    intro c hc
    obtain ⟨hNext, hSince, hCovered⟩ := h.apart c hc
    exact ⟨by rw [hLsn]; exact hNext, fun e he => hSince e ((hMem e).mp he), hCovered⟩
  case taken =>
    intro c hc
    rw [hLsn]
    exact h.taken c hc
  case rising => exact h.rising
  case handedOut =>
    intro t ht e he
    rw [hLsn]
    exact h.handedOut t ht e he

/-- Finishing a transaction changes nothing on disk. -/
theorem LogInvariant.finish (h : LogInvariant F s checkpoint log) {i : Nat}
    (hStep : s.next F (.finish i) = some s') : LogInvariant F s' checkpoint log := by
  simp only [next] at hStep
  split at hStep
  case h_2 => cases hStep
  rename_i t hTxn
  split at hStep
  case isFalse => cases hStep
  obtain rfl := Option.some.inj hStep
  have ht := List.mem_of_getElem? hTxn
  have hProduced : ∀ u ∈ s.txns.set i { t with active := false }, ∃ u' ∈ s.txns,
      u.produced = u'.produced := by
    intro u hu
    rcases List.mem_or_eq_of_mem_set hu with hu | rfl
    · exact ⟨u, hu, rfl⟩
    · exact ⟨t, ht, rfl⟩
  constructor
  case keeps => exact h.keeps
  case distinct => exact h.distinct
  case below => exact h.below
  case uncovered => exact h.uncovered
  case apart => exact h.apart
  case taken => exact h.taken
  case rising =>
    intro es hes
    rcases List.mem_append.mp hes with hes | hes
    · exact h.rising es (List.mem_append_left _ hes)
    · obtain ⟨u, hu, rfl⟩ := List.mem_map.mp hes
      obtain ⟨u', hu', hSame⟩ := hProduced u hu
      rw [hSame]
      exact h.rising_txn hu'
  case handedOut =>
    intro u hu e he
    obtain ⟨u', hu', hSame⟩ := hProduced u hu
    exact h.handedOut u' hu' e (hSame ▸ he)

/-! ## Checkpoints -/

theorem LogInvariant.lockCheckpoint (h : LogInvariant F s checkpoint log)
    (hStep : s.next F .lockCheckpoint = some s') : LogInvariant F s' checkpoint log := by
  simp only [next] at hStep
  split at hStep
  · obtain rfl := Option.some.inj hStep
    exact ⟨h.keeps, h.distinct, h.below, h.uncovered, h.apart, fun c hc => (nomatch hc), h.rising,
      h.handedOut⟩
  · cases hStep

theorem LogInvariant.takeCheckpoint (h : LogInvariant F s checkpoint log) {c : C}
    (hStep : s.next F (.takeCheckpoint c) = some s') : LogInvariant F s' checkpoint log := by
  simp only [next] at hStep
  split at hStep
  case h_2 => cases hStep
  split at hStep
  case isFalse => cases hStep
  rename_i hTake
  have hLsn : F.checkpointLsn c = s.persistence.nextLsn := hTake.2
  obtain rfl := Option.some.inj hStep
  refine ⟨h.keeps, h.distinct, h.below, h.uncovered, h.apart, fun d hd => ?_, h.rising, h.handedOut⟩
  cases hd
  exact ⟨Nat.le_of_eq hLsn, fun e he => by
    have hLt := h.below e (List.mem_append_right _ he)
    omega⟩

/-- When a checkpoint is written, the LSNs that are still to be appended are not below its own, and
those in the log not above. -/
def undisturbed (F : DbFormat E C) (s : LogSession E C) : Bool :=
  match s.phase, (DbFilePersistence.provider F).readWalEntries s.persistence with
  | .taken c, .ok log =>
    (s.pending.all fun e => F.checkpointLsn c ≤ F.lsn e) &&
      log.all fun e => F.lsn e ≤ F.checkpointLsn c
  | _, _ => true

/-- A checkpoint that nothing has disturbed since it was taken replaces the whole log. -/
theorem LogInvariant.writeCheckpoint (h : LogInvariant F s checkpoint log)
    (hShort : ∀ c, s.phase = .taken c → (F.checkpoint.toBytes c).length < 256 ^ 4)
    (hCalm : s.undisturbed F = true) (hStep : s.next F .writeCheckpoint = some s') :
    ∃ c, LogInvariant F s' (some c) [] := by
  simp only [next, h.keeps.readWalEntries] at hStep
  split at hStep
  case h_2 => cases hStep
  rename_i c entries hPhase hEntries
  obtain rfl := Except.ok.inj hEntries
  split at hStep
  case h_2 => cases hStep
  rename_i p hOk
  obtain rfl := Option.some.inj hStep
  obtain ⟨hKeeps, hLsn⟩ := h.keeps.writeCheckpoint (hShort c hPhase) hOk
  simp only [undisturbed, hPhase, h.keeps.readWalEntries, Bool.and_eq_true, List.all_eq_true,
    decide_eq_true_eq] at hCalm
  obtain ⟨hPending, hLog⟩ := hCalm
  obtain ⟨hNext, hCovered⟩ := h.taken c hPhase
  refine ⟨c, ?_⟩
  constructor
  case keeps => exact hKeeps
  case distinct =>
    exact h.distinct.sublist ((List.sublist_append_right log s.pending).map F.lsn)
  case below =>
    intro e he
    rw [hLsn]
    simp only [List.nil_append, List.mem_append, mem_sortByKey] at he
    exact h.below e (by simp only [List.mem_append]; tauto)
  case uncovered => exact fun hNone => (nomatch hNone)
  case apart =>
    intro d hd
    cases hd
    refine ⟨by rw [hLsn]; exact hNext, fun e he => hPending e he, fun e he => ?_⟩
    rcases List.mem_append.mp he with he | he
    · exact hCovered e he
    · exact hLog e he
  case taken => exact fun d hd => (nomatch hd)
  case rising => exact h.rising
  case handedOut =>
    intro t ht e he
    rw [hLsn]
    exact h.handedOut t ht e he

/-- A truncation cuts the log at an LSN and keeps the invariant. -/
theorem LogInvariant.truncateWal (h : LogInvariant F s checkpoint log)
    (hStep : s.next F .truncateWal = some s') : ∃ log', LogInvariant F s' checkpoint log' := by
  simp only [next] at hStep
  split at hStep
  case h_2 => cases hStep
  rename_i c hPhase
  split at hStep
  case h_2 => cases hStep
  rename_i count p hOk
  obtain rfl := Option.some.inj hStep
  obtain ⟨hKeeps, hLsn⟩ := h.keeps.truncateWalUntil hOk
  have hSub : List.Sublist (log.filter (fun e => F.checkpointLsn c ≤ F.lsn e) ++ s.pending)
      (log ++ s.pending) := List.filter_sublist.append_right s.pending
  refine ⟨log.filter fun e => F.checkpointLsn c ≤ F.lsn e, ?_⟩
  constructor
  case keeps => exact hKeeps
  case distinct => exact h.distinct.sublist (hSub.map F.lsn)
  case below =>
    intro e he
    rw [hLsn]
    exact h.below e ((hSub.append_right s.covered).subset he)
  case uncovered => exact h.uncovered
  case apart =>
    intro d hd
    obtain ⟨hNext, hSince, hCovered⟩ := h.apart d hd
    exact ⟨by rw [hLsn]; exact hNext, fun e he => hSince e (hSub.subset he), hCovered⟩
  case taken => exact fun d hd => (nomatch hd)
  case rising => exact h.rising
  case handedOut =>
    intro t ht e he
    rw [hLsn]
    exact h.handedOut t ht e he

/-- A new session goes on above all entries that the file knows of. -/
theorem LogInvariant.reopen (h : LogInvariant F s checkpoint log)
    (hStep : s.next F .reopen = some s') : LogInvariant F s' checkpoint log := by
  simp only [next, h.keeps.openRecovered] at hStep
  obtain rfl := Option.some.inj hStep
  constructor
  case keeps => exact h.keeps
  case distinct =>
    show ((log ++ []).map F.lsn).Nodup
    rw [List.append_nil]
    exact h.distinct.sublist ((List.sublist_append_left log s.pending).map F.lsn)
  case below =>
    intro e he
    simp only [List.append_nil, List.mem_append] at he
    rcases he with he | he
    · exact DbFilePersistence.lt_recoveredLsn he
    · cases checkpoint with
      | none =>
        rw [h.uncovered rfl] at he
        cases he
      | some c =>
        obtain ⟨-, hSince, hCovered⟩ := h.apart c rfl
        exact Nat.lt_of_le_of_lt (hCovered e he) (DbFilePersistence.checkpointLsn_lt_recoveredLsn
          fun e he => hSince e (List.mem_append_left _ he))
  case uncovered => exact h.uncovered
  case apart =>
    intro c hc
    obtain ⟨-, hSince, hCovered⟩ := h.apart c hc
    subst hc
    have hLog : ∀ e ∈ log, F.checkpointLsn c ≤ F.lsn e := fun e he =>
      hSince e (List.mem_append_left _ he)
    refine ⟨Nat.le_of_lt (DbFilePersistence.checkpointLsn_lt_recoveredLsn hLog), fun e he => ?_,
      hCovered⟩
    rw [List.append_nil] at he
    exact hLog e he
  case taken => exact fun c hc => (nomatch hc)
  case rising =>
    intro es hes
    refine h.rising es ?_
    simpa [produced] using hes
  case handedOut => exact fun t ht => (nomatch ht)

end LogSession

end MiniGU
