import MiniGU.Model.Persistence
import MiniGU.Results.DbFile

/-!
# The two persistence providers

The provider in memory keeps the log as it was appended and lets `truncate_wal_until` drop what is
below an LSN, that of a checkpoint. The one on a file drops the whole log when it writes the
checkpoint, so that nothing is left to truncate right after it, and sorts what it reads by LSN. An
entry that was appended before a checkpoint, at or above its LSN, is therefore kept in memory only.
-/

namespace MiniGU

variable {E C : Type} {F : DbFormat E C}

-- ----
-- Calls as they are made
-- ----

namespace PersistenceCall

/-- The record that a call adds to the file. -/
def record (F : DbFormat E C) : PersistenceCall E C → Option (List UInt8)
  | .appendWal entry => some (F.entry.toBytes entry)
  | .writeCheckpoint checkpoint => some (F.checkpoint.toBytes checkpoint)
  | _ => none

def recordSize (F : DbFormat E C) (c : PersistenceCall E C) : Nat :=
  ((c.record F).map fun payload => recordHeaderSize + payload.length).getD 0

/-- The records are short enough for their length fields, and fit into the file. -/
def Fit (F : DbFormat E C) (cs : List (PersistenceCall E C)) : Prop :=
  (∀ c ∈ cs, ∀ payload, c.record F = some payload → payload.length < 256 ^ 4) ∧
    headerSize + (cs.map (recordSize F)).sum ≤ maxFileSize

end PersistenceCall

/-- The log in memory: what is left of it from before the last checkpoint, and what was appended
since then. -/
structure LogSplit (E : Type) where
  kept : List E
  since : List E

namespace LogSplit

def after (F : DbFormat E C) (log : LogSplit E) : PersistenceCall E C → LogSplit E
  | .appendWal entry => ⟨log.kept, log.since ++ [entry]⟩
  | .writeCheckpoint _ => ⟨log.kept ++ log.since, []⟩
  | .truncateWalUntil minLsn => ⟨log.kept.filter fun e => minLsn ≤ F.lsn e,
      log.since.filter fun e => minLsn ≤ F.lsn e⟩
  | _ => log

end LogSplit

/-- The results of a call in memory and on a file. The file reads and truncates the entries since
the last checkpoint, and reads them sorted; the memory has those before, too. -/
def PersistenceCall.Agrees (F : DbFormat E C) (log : LogSplit E) :
    PersistenceCall E C → PersistenceResult E C → PersistenceResult E C → Prop
  | .readWalEntries, r, r' =>
    r = .entries (log.kept ++ log.since) ∧ r' = .entries (sortByKey F.lsn log.since)
  | .truncateWalUntil minLsn, r, r' =>
    r = .removed ((log.kept ++ log.since).countP fun e => F.lsn e < minLsn) ∧
      r' = .removed (log.since.countP fun e => F.lsn e < minLsn)
  | _, r, r' => r' = r

/-- The results of a sequence of calls agree, each where the calls before it have left the log. -/
inductive AllAgree (F : DbFormat E C) : LogSplit E → List (PersistenceCall E C) →
    List (PersistenceResult E C) → List (PersistenceResult E C) → Prop where
  | nil {log : LogSplit E} : AllAgree F log [] [] []
  | cons {log : LogSplit E} {c : PersistenceCall E C} {cs : List (PersistenceCall E C)}
      {r r' : PersistenceResult E C} {rs rs' : List (PersistenceResult E C)} :
      c.Agrees F log r r' → AllAgree F (log.after F c) cs rs rs' →
      AllAgree F log (c :: cs) (r :: rs) (r' :: rs')

-- ----
-- What a truncation counts
-- ----

theorem length_sub_filter (es : List E) (minLsn : Nat) :
    es.length - (es.filter fun e => minLsn ≤ F.lsn e).length =
      es.countP fun e => F.lsn e < minLsn := by
  have hSplit := List.length_eq_countP_add_countP (fun e => decide (minLsn ≤ F.lsn e)) (l := es)
  rw [List.countP_eq_length_filter] at hSplit
  rw [hSplit, Nat.add_sub_cancel_left]
  exact List.countP_congr fun e _ => by simp

theorem removed_of_truncateWalUntil {db db' : DbFile} {es : List E} {minLsn n : Nat}
    (hRead : db.readWalEntries F = .ok es) (h : db.truncateWalUntil F minLsn = .ok (db', n)) :
    n = es.countP fun e => F.lsn e < minLsn := by
  rw [← length_sub_filter]
  unfold DbFile.truncateWalUntil at h
  rw [hRead, ok_bind] at h
  dsimp only at h
  split at h
  · rename_i hZero
    cases h
    exact hZero.symm
  · obtain ⟨db₁, -, h⟩ := bind_ok_iff.mp h
    obtain ⟨db₂, -, h⟩ := bind_ok_iff.mp h
    cases h
    rfl

-- ----
-- One call
-- ----

/-- The file has the checkpoint of the memory and its log since then, and both the same next
LSN. -/
structure SameContents (F : DbFormat E C) (budget : Nat) (log : LogSplit E)
    (m : InMemoryPersistence E C) (p : DbFilePersistence) : Prop where
  nextLsn : p.nextLsn = m.nextLsn
  walEntries : m.walEntries = log.kept ++ log.since
  represents : DbFile.Represents F budget p.manager ⟨m.checkpoint, log.since⟩

namespace SameContents

variable {budget : Nat} {log : LogSplit E} {m : InMemoryPersistence E C} {p : DbFilePersistence}

theorem readCheckpoint (h : SameContents F budget log m p) :
    p.manager.readCheckpoint F = .ok m.checkpoint := by
  obtain ⟨ws, hLayout, -⟩ := h.represents
  exact hLayout.readCheckpoint

theorem readWalEntries (h : SameContents F budget log m p) :
    p.manager.readWalEntries F = .ok (sortByKey F.lsn log.since) := by
  obtain ⟨ws, hLayout, hSort, -⟩ := h.represents
  rw [hLayout.readWalEntries, hSort]

/-- A call of the file goes through where its record fits. -/
theorem exec (h : SameContents F budget log m p) (call : DbCall E C) (hShort : call.Short F)
    (hFits : budget + call.recordSize F ≤ maxFileSize) :
    ∃ db, p.manager.exec F call = .ok db ∧ DbFile.Represents F (budget + call.recordSize F) db
      (DbState.step F ⟨m.checkpoint, log.since⟩ call) := by
  rcases h.represents.exec hShort with hOk | ⟨-, hLarge⟩
  · exact hOk
  · exact absurd hFits (Nat.not_le_of_lt hLarge)

/-- The file drops the entries since the last checkpoint that are below an LSN. -/
theorem truncateWalUntil (h : SameContents F budget log m p) (minLsn : Nat)
    (hFits : budget ≤ maxFileSize) :
    ∃ db, p.manager.truncateWalUntil F minLsn =
        .ok (db, log.since.countP fun e => F.lsn e < minLsn) ∧
      DbFile.Represents F budget db
        ⟨m.checkpoint, log.since.filter fun e => minLsn ≤ F.lsn e⟩ := by
  obtain ⟨db, hOk, hNext⟩ := h.exec (.truncateWalUntil minLsn) trivial hFits
  obtain ⟨⟨db', n⟩, hTruncate, rfl⟩ : ∃ x, p.manager.truncateWalUntil F minLsn = .ok x ∧
      x.1 = db := by
    cases hRes : p.manager.truncateWalUntil F minLsn with
    | error err =>
      simp only [DbFile.exec, hRes] at hOk
      cases hOk
    | ok x =>
      simp only [DbFile.exec, hRes] at hOk
      exact ⟨x, rfl, Except.ok.inj hOk⟩
  have hCount := removed_of_truncateWalUntil h.readWalEntries hTruncate
  have hPerm : (sortByKey F.lsn log.since).Perm log.since := List.perm_insertionSort _ _
  rw [hPerm.countP_eq] at hCount
  exact ⟨db', hCount ▸ hTruncate, hNext⟩

/-- **One call** gives results that agree, and leaves the same contents. -/
theorem call (h : SameContents F budget log m p) {c : PersistenceCall E C}
    (hShort : ∀ payload, c.record F = some payload → payload.length < 256 ^ 4)
    (hFits : budget + c.recordSize F ≤ maxFileSize) :
    ∃ r m' r' p', (InMemoryPersistence.provider F).call m c = .ok (r, m') ∧
      (DbFilePersistence.provider F).call p c = .ok (r', p') ∧ c.Agrees F log r r' ∧
      SameContents F (budget + c.recordSize F) (log.after F c) m' p' := by
  cases c with
  | nextLsn =>
    refine ⟨_, _, _, _, rfl, rfl, ?_, ?_, h.walEntries, h.represents⟩
    · show PersistenceResult.lsn p.nextLsn = .lsn m.nextLsn
      rw [h.nextLsn]
    · show p.nextLsn + 1 = m.nextLsn + 1
      rw [h.nextLsn]
  | currentLsn =>
    refine ⟨_, _, _, _, rfl, rfl, ?_, h⟩
    show PersistenceResult.lsn p.nextLsn = .lsn m.nextLsn
    rw [h.nextLsn]
  | appendWal entry =>
    obtain ⟨db, hOk, hNext⟩ := h.exec (.appendWal entry) (hShort _ rfl) hFits
    have hOk : p.manager.perform (p.manager.appendWal F entry) = .ok db := hOk
    refine ⟨.done, _, .done, { p with manager := db }, rfl, ?_, rfl, h.nextLsn, ?_, hNext⟩
    · simp only [PersistenceProvider.call, DbFilePersistence.provider, hOk]
      rfl
    · show m.walEntries ++ [entry] = log.kept ++ (log.since ++ [entry])
      rw [h.walEntries, List.append_assoc]
  | writeCheckpoint checkpoint =>
    obtain ⟨db, hOk, hNext⟩ := h.exec (.writeCheckpoint checkpoint) (hShort _ rfl) hFits
    have hOk : p.manager.perform (p.manager.writeCheckpoint F checkpoint) = .ok db := hOk
    refine ⟨.done, _, .done, { p with manager := db }, rfl, ?_, rfl, h.nextLsn, ?_, hNext⟩
    · simp only [PersistenceProvider.call, DbFilePersistence.provider, hOk]
      rfl
    · show m.walEntries = log.kept ++ log.since ++ []
      rw [List.append_nil, h.walEntries]
  | truncateWalUntil minLsn =>
    obtain ⟨db, hOk, hNext⟩ := h.truncateWalUntil minLsn hFits
    refine ⟨_, _, _, { p with manager := db }, rfl, ?_, ⟨?_, rfl⟩, h.nextLsn, ?_, hNext⟩
    · simp only [PersistenceProvider.call, DbFilePersistence.provider, hOk]
      rfl
    · rw [← h.walEntries, ← length_sub_filter]
    · show m.walEntries.filter _ = _
      rw [h.walEntries, List.filter_append]
      rfl
  | readCheckpoint =>
    refine ⟨_, _, .checkpoint m.checkpoint, p, rfl, ?_, rfl, h⟩
    simp only [PersistenceProvider.call, DbFilePersistence.provider, h.readCheckpoint]
    rfl
  | readWalEntries =>
    refine ⟨.entries m.walEntries, m, .entries (sortByKey F.lsn log.since), p, rfl, ?_,
      ⟨congrArg _ h.walEntries, rfl⟩, h⟩
    simp only [PersistenceProvider.call, DbFilePersistence.provider, h.readWalEntries]
    rfl

end SameContents

-- ----
-- All calls
-- ----

theorem SameContents.calls {budget : Nat} {log : LogSplit E} {m : InMemoryPersistence E C}
    {p : DbFilePersistence} (h : SameContents F budget log m p) {cs : List (PersistenceCall E C)}
    (hShort : ∀ c ∈ cs, ∀ payload, c.record F = some payload → payload.length < 256 ^ 4)
    (hFits : budget + (cs.map (PersistenceCall.recordSize F)).sum ≤ maxFileSize) :
    ∃ rs rs', (InMemoryPersistence.provider F).calls m cs = .ok rs ∧
      (DbFilePersistence.provider F).calls p cs = .ok rs' ∧ AllAgree F log cs rs rs' := by
  induction cs generalizing budget log m p with
  | nil => exact ⟨[], [], rfl, rfl, .nil⟩
  | cons c cs ih =>
    rw [List.map_cons, List.sum_cons] at hFits
    obtain ⟨r, m', r', p', hM, hP, hAgrees, hSame⟩ :=
      h.call (hShort c List.mem_cons_self) (by omega)
    obtain ⟨rs, rs', hMs, hPs, hAll⟩ := ih hSame
      (fun c' hc' => hShort c' (List.mem_cons_of_mem c hc')) (by omega)
    refine ⟨r :: rs, r' :: rs', ?_, ?_, .cons hAgrees hAll⟩
    · rw [PersistenceProvider.calls, hM, ok_bind]
      dsimp only
      rw [hMs, ok_bind]
    · rw [PersistenceProvider.calls, hP, ok_bind]
      dsimp only
      rw [hPs, ok_bind]

theorem sameContents_new : SameContents F headerSize ⟨[], []⟩ InMemoryPersistence.new
    (DbFilePersistence.new DbFile.create) :=
  ⟨rfl, rfl, [], DbFile.layout_create, rfl, Nat.le_refl _⟩

/-- **The providers agree** on all calls, but for the order in which entries are read, the count of
those truncated, and the entries that memory keeps through a checkpoint. -/
theorem providers_agree (F : DbFormat E C) (cs : List (PersistenceCall E C))
    (hFit : PersistenceCall.Fit F cs) :
    ∃ rs rs', (InMemoryPersistence.provider F).calls .new cs = .ok rs ∧
      (DbFilePersistence.provider F).calls (.new .create) cs = .ok rs' ∧
      AllAgree F ⟨[], []⟩ cs rs rs' :=
  sameContents_new.calls hFit.1 hFit.2

-- ----
-- Numbers as entries and checkpoints
-- ----

open DbFile (u64Format)

theorem short_record_u64 {c : PersistenceCall (Fin (256 ^ 8)) (Fin (256 ^ 8))}
    {payload : List UInt8} (h : c.record u64Format = some payload) : payload.length < 256 ^ 4 := by
  cases c with
  | appendWal entry =>
    rw [← Option.some.inj h]
    exact DbFile.short_u64 (.appendWal entry)
  | writeCheckpoint checkpoint =>
    rw [← Option.some.inj h]
    exact DbFile.short_u64 (.writeCheckpoint checkpoint)
  | nextLsn | currentLsn | truncateWalUntil _ | readCheckpoint | readWalEntries => cases h

/-- An entry before and one after a checkpoint, and what is read then. -/
def checkpointBetween : List (PersistenceCall (Fin (256 ^ 8)) (Fin (256 ^ 8))) :=
  [.nextLsn, .appendWal 1, .writeCheckpoint 2, .truncateWalUntil 2, .nextLsn, .appendWal 2,
    .readCheckpoint, .readWalEntries, .currentLsn]

theorem providers_agree_checkpointBetween :
    ∃ rs rs', (InMemoryPersistence.provider u64Format).calls .new checkpointBetween =
        .ok rs ∧
      (DbFilePersistence.provider u64Format).calls (.new .create) checkpointBetween =
        .ok rs' ∧
      AllAgree u64Format ⟨[], []⟩ checkpointBetween rs rs' :=
  providers_agree u64Format checkpointBetween ⟨fun _ _ _ h => short_record_u64 h, by decide⟩

/-- Entries that are appended out of order, and a checkpoint of the LSN 3: the entry 3, which was
appended after the checkpoint had taken its LSN, is kept in memory. -/
def outOfOrder : List (PersistenceCall (Fin (256 ^ 8)) (Fin (256 ^ 8))) :=
  [.nextLsn, .nextLsn, .appendWal 2, .appendWal 1, .readWalEntries, .nextLsn, .appendWal 3,
    .writeCheckpoint 3, .truncateWalUntil 3, .readWalEntries]

/-- The two providers return the same up to the truncation, of which the file keeps nothing. -/
theorem providers_differ :
    (InMemoryPersistence.provider u64Format).calls .new outOfOrder =
      .ok [.lsn 1, .lsn 2, .done, .done, .entries [2, 1], .lsn 3, .done, .done, .removed 2,
        .entries [3]] ∧
    (DbFilePersistence.provider u64Format).calls (.new .create) outOfOrder =
      .ok [.lsn 1, .lsn 2, .done, .done, .entries [1, 2], .lsn 3, .done, .done, .removed 0,
        .entries []] := by
  have hMemory : (InMemoryPersistence.provider u64Format).calls .new outOfOrder =
      .ok [.lsn 1, .lsn 2, .done, .done, .entries [2, 1], .lsn 3, .done, .done, .removed 2,
        .entries [3]] := rfl
  obtain ⟨rs, rs', hM, hP, hAll⟩ := sameContents_new.calls
    (fun _ _ _ h => short_record_u64 h) (by decide : headerSize +
      (outOfOrder.map (PersistenceCall.recordSize u64Format)).sum ≤ maxFileSize)
  rw [hMemory] at hM
  obtain rfl := Except.ok.inj hM
  refine ⟨hMemory, hP.trans ?_⟩
  obtain _ | ⟨h₁, _ | ⟨h₂, _ | ⟨h₃, _ | ⟨h₄, _ | ⟨⟨-, h₅⟩, _ | ⟨h₆, _ | ⟨h₇, _ | ⟨h₈,
    _ | ⟨⟨-, h₉⟩, _ | ⟨⟨-, h₁₀⟩, _ | _⟩⟩⟩⟩⟩⟩⟩⟩⟩⟩ := hAll
  rw [show _ = _ from h₁, show _ = _ from h₂, show _ = _ from h₃, show _ = _ from h₄, h₅,
    show _ = _ from h₆, show _ = _ from h₇, show _ = _ from h₈, h₉, h₁₀]
  rfl

end MiniGU
