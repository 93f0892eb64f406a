import MiniGU.Results.Crash

/-!
# Crashes while the log is truncated

`truncate_wal_until` sets the length of the log to 0 in the header, on disk, and then appends the
retained entries again over the old ones.
-/

namespace MiniGU

namespace DbFile

variable {E C : Type} {F : DbFormat E C} {db : DbFile} {cp : Option C} {ws : List E}

-- ----
-- The call as one list of writes
-- ----

theorem perform_append (db : DbFile) (first second : Update) :
    db.perform ⟨first.writes ++ second.writes, second.header⟩ =
      (db.perform first).bind fun db => db.perform second := by
  unfold perform
  rw [List.all_append]
  cases first.writes.all fun w => decide (w.offset + w.data.length ≤ maxFileSize) with
  | false => rfl
  | true =>
    rw [Bool.true_and, if_pos rfl, applyWrites_append]
    rfl

theorem appendAll_eq (db : DbFile) (es : List E) :
    db.appendAll F es = db.perform (appendUpdates F db.header es) := by
  induction es generalizing db with
  | nil => rfl
  | cons e es ih =>
    show _ = db.perform ⟨(db.appendWal F e).writes ++
      (appendUpdates F (db.appendWal F e).header es).writes,
      (appendUpdates F (db.appendWal F e).header es).header⟩
    rw [perform_append]
    unfold appendAll
    cases hHead : db.perform (db.appendWal F e) with
    | error err => rfl
    | ok db₁ =>
      obtain ⟨-, rfl⟩ := perform_ok hHead
      exact ih _

/-- **The call** performs the writes of `truncateUpdate`, in this order. -/
theorem truncateWalUntil_eq (db : DbFile) (minLsn : Nat) :
    (db.truncateWalUntil F minLsn).map Prod.fst =
      (db.truncateUpdate F minLsn).bind db.perform := by
  unfold truncateWalUntil truncateUpdate
  cases db.readWalEntries F with
  | error err => rfl
  | ok all =>
    dsimp only [bind, Except.bind, pure, Except.pure]
    generalize all.filter (fun e => decide (minLsn ≤ F.lsn e)) = retained
    split
    · rfl
    · dsimp only
      rw [perform_append]
      cases hReset : db.perform (db.resetWal retained) with
      | error err => rfl
      | ok db₁ =>
        obtain ⟨-, rfl⟩ := perform_ok hReset
        dsimp only [Except.bind]
        rw [appendAll_eq]
        cases perform _ _ <;> rfl

-- ----
-- What a cut leaves
-- ----

/-- A file with these bytes opens, and its log contains the entries that are required. -/
def Recovers (F : DbFormat E C) (file : List UInt8) (required : List E) : Prop :=
  ∃ db es, openFile file = .ok db ∧ db.readWalEntries F = .ok es ∧ required.Subperm es

/-- **A truncation that is cut off after `n` writes has lost nothing**: the file opens, and all
entries from `minLsn` on are read. -/
def TruncateSurvives (F : DbFormat E C) (db : DbFile) (s : DbState E C) (minLsn n : Nat) : Prop :=
  ∃ u, db.truncateUpdate F minLsn = .ok u ∧
    Recovers F (db.crash u n) (s.log.filter fun e => decide (minLsn ≤ F.lsn e))

/-- Of the appends of `es` the last one is cut off after its new length, or not at all, and
where the cut is in front of the checksum the one on disk is right. -/
def LastWritten (F : DbFormat E C) (header : DbFileHeader) (es : List E) (n : Nat) : Prop :=
  let before := (appendUpdates F header es.dropLast).header
  let last := 15 * (es.length - 1)
  last + 11 ≤ n ∧ (n < last + 14 →
    (before.mix (appendUpdates F header es).header (n - (last + 3))).computeCrc = before.headerCrc)

/-- The cuts that a truncation survives. With no entry to remove it writes nothing; with none to
retain only the header is rewritten; otherwise the log is lost from its new length, the eighth
write, until the last entry has been appended again. -/
def TruncateCutOk (F : DbFormat E C) (db : DbFile) (s : DbState E C) (minLsn n : Nat) : Prop :=
  let retained := (sortByKey F.lsn s.log).filter fun e => decide (minLsn ≤ F.lsn e)
  let reset := (db.resetWal retained).header
  retained.length = s.log.length ∨
  (retained = [] ∧ (n < 11 → (db.header.mix reset n).computeCrc = db.header.headerCrc)) ∨
  (retained ≠ [] ∧ (n < 8 ∨ LastWritten F reset retained (n - 12)))

theorem crash_append (db : DbFile) (first second : Update) (n : Nat) :
    db.crash ⟨first.writes ++ second.writes, second.header⟩ n =
      (⟨db.crash first n, first.header⟩ : DbFile).crash second (n - first.writes.length) := by
  unfold crash
  rw [List.take_append, applyWrites_append]

theorem crash_all {u : Update} {n : Nat} (h : u.writes.length ≤ n) :
    db.crash u n = applyWrites db.file u.writes := by
  unfold crash
  rw [List.take_of_length_le h]

theorem length_writes_appendWal (db : DbFile) (e : E) : (db.appendWal F e).writes.length = 15 := by
  unfold appendWal DbFileHeader.writeTo
  rw [List.length_append, length_consecutive, length_consecutive]
  rfl

theorem Layout.append_recovers_iff (h : Layout F db cp ws) {e : E}
    (hShort : (F.entry.toBytes e).length < 256 ^ 4) (n : Nat) (required : List E) :
    Recovers F (db.crash (db.appendWal F e) n) required ↔
      (n < 14 → (db.header.mix (db.appendWal F e).header (n - 3)).computeCrc =
        db.header.headerCrc) ∧
      required.Subperm (sortByKey F.lsn (if 7 < n - 3 then ws ++ [e] else ws)) := by
  obtain ⟨hr', hs'⟩ := h.header_appendWal hShort
  have hAfter : headerSize ≤ db.header.walOffset + db.header.walLength := by
    rw [h.walOffset]
    omega
  have hOpen : ∀ db', DbFile.openFile (db.crash (db.appendWal F e) n) = .ok db' ↔ _ := fun db' =>
    open_crash_iff h.inRange h.standard hr' hs' h.onDisk rfl hAfter
  have hRead := h.readWal_crash hShort n
  constructor
  · rintro ⟨db', es, hOk, hEntries, hSub⟩
    obtain ⟨hCut, rfl⟩ := (hOpen db').mp hOk
    obtain rfl := Except.ok.inj (hEntries.symm.trans hRead)
    exact ⟨hCut, hSub⟩
  · rintro ⟨hCut, hSub⟩
    exact ⟨_, _, (hOpen _).mpr ⟨hCut, rfl⟩, hRead, hSub⟩

theorem lastWritten_cons (header : DbFileHeader) (e e' : E) (rest : List E) (n : Nat) :
    LastWritten F header (e :: e' :: rest) n ↔ 15 ≤ n ∧
      LastWritten F ((DbFile.mk [] header).appendWal F e).header (e' :: rest) (n - 15) := by
  have hDrop : (e :: e' :: rest).dropLast = e :: (e' :: rest).dropLast := rfl
  have hHeader : ∀ es, (appendUpdates F header (e :: es)).header =
      (appendUpdates F ((DbFile.mk [] header).appendWal F e).header es).header := fun _ => rfl
  unfold LastWritten
  rw [hDrop, hHeader, hHeader]
  generalize (appendUpdates F ((DbFile.mk [] header).appendWal F e).header
    (e' :: rest).dropLast).header = before
  generalize (appendUpdates F ((DbFile.mk [] header).appendWal F e).header
    (e' :: rest)).header = after
  simp only [List.length_cons, Nat.add_sub_cancel]
  rw [show n - 15 - (15 * rest.length + 3) = n - (15 * (rest.length + 1) + 3) by omega]
  constructor
  · rintro ⟨hLate, hCut⟩
    exact ⟨by omega, by omega, fun hn => hCut (by omega)⟩
  · rintro ⟨hFirst, hLate, hCut⟩
    exact ⟨by omega, fun hn => hCut (by omega)⟩

/-- **The appends**: all entries are there from the last one's length on. -/
theorem Layout.appends_recover_iff (h : Layout F db cp ws) {es : List E} (hne : es ≠ [])
    (hShort : ∀ e ∈ es, (F.entry.toBytes e).length < 256 ^ 4)
    (hFits : db.header.walOffset + db.header.walLength + (logBytes F es).length ≤ maxFileSize)
    {required : List E} (hAll : required.Perm (ws ++ es)) (n : Nat) :
    Recovers F (db.crash (appendUpdates F db.header es) n) required ↔
      LastWritten F db.header es n := by
  induction es generalizing db ws n with
  | nil => exact absurd rfl hne
  | cons e es ih =>
    have hHead := hShort e List.mem_cons_self
    have hCrash : db.crash (appendUpdates F db.header (e :: es)) n =
        (⟨db.crash (db.appendWal F e) n, (db.appendWal F e).header⟩ : DbFile).crash
          (appendUpdates F (db.appendWal F e).header es) (n - 15) := by
      rw [← length_writes_appendWal (F := F) db e]
      exact crash_append db _ _ n
    have hCount : required.length = ws.length + (es.length + 1) := by
      rw [hAll.length_eq, List.length_append, List.length_cons]
    have hLe : (sortByKey F.lsn (if 7 < n - 3 then ws ++ [e] else ws)).length ≤ ws.length + 1 := by
      rw [length_sortByKey]
      split
      · rw [List.length_append]
        exact Nat.le_refl _
      · omega
    cases es with
    | nil =>
      have hSame : db.crash (appendUpdates F db.header [e]) n = db.crash (db.appendWal F e) n := by
        rw [hCrash]
        show applyWrites _ (List.take (n - 15) []) = _
        rw [List.take_nil, applyWrites_nil]
      rw [hSame, h.append_recovers_iff hHead n]
      show _ ↔ 11 ≤ n ∧ (n < 14 → (db.header.mix (db.appendWal F e).header (n - 3)).computeCrc =
        db.header.headerCrc)
      constructor
      · rintro ⟨hCut, hSub⟩
        refine ⟨?_, hCut⟩
        by_contra hEarly
        have hFew := hSub.length_le
        rw [if_neg (by omega), length_sortByKey] at hFew
        rw [List.length_nil] at hCount
        omega
      · rintro ⟨hLate, hCut⟩
        refine ⟨hCut, ?_⟩
        rw [if_pos (by omega)]
        exact (hAll.trans (List.perm_insertionSort _ _).symm).subperm
    | cons e' rest =>
      have hMore : (e' :: rest).length = rest.length + 1 := rfl
      rw [hCrash]
      by_cases hn : n < 15
      · -- the cut is in the first append: at least one entry more is missing
        have hFile : (⟨db.crash (db.appendWal F e) n, (db.appendWal F e).header⟩ : DbFile).crash
            (appendUpdates F (db.appendWal F e).header (e' :: rest)) (n - 15) =
              db.crash (db.appendWal F e) n := by
          rw [show n - 15 = 0 by omega]
          rfl
        rw [hFile, h.append_recovers_iff hHead n]
        constructor
        · rintro ⟨-, hSub⟩
          have hFew := hSub.length_le
          omega
        · rintro ⟨hLate, -⟩
          rw [List.length_cons, hMore] at hLate
          omega
      · have hLog : (logBytes F (e :: e' :: rest)).length =
            recordHeaderSize + (F.entry.toBytes e).length + (logBytes F (e' :: rest)).length := by
          rw [show logBytes F (e :: e' :: rest) =
            recordBytes (F.entry.toBytes e) ++ logBytes F (e' :: rest) from rfl,
            List.length_append, length_recordBytes]
        obtain ⟨hr, hs⟩ := h.header_appendWal hHead
        obtain ⟨db₁, hOk⟩ : ∃ db₁, db.perform (db.appendWal F e) = .ok db₁ :=
          perform_record hr hs (by omega)
        have hNext : Layout F db₁ cp (ws ++ [e]) := h.appendWal hHead hOk
        obtain ⟨-, rfl⟩ := perform_ok hOk
        have hRest := ih hNext (List.cons_ne_nil e' rest)
          (fun e'' he'' => hShort e'' (List.mem_cons_of_mem _ he'')) (by
            show db.header.walOffset + (db.header.walLength +
              (recordHeaderSize + (F.entry.toBytes e).length)) + _ ≤ maxFileSize
            omega) (by rw [List.append_assoc]; exact hAll) (n - 15)
        have hDone : db.crash (db.appendWal F e) n =
            applyWrites db.file (db.appendWal F e).writes := by
          refine crash_all ?_
          rw [length_writes_appendWal]
          omega
        rw [hDone, lastWritten_cons, hRest]
        exact ⟨fun hLast => ⟨by omega, hLast⟩, fun hLast => hLast.2⟩

-- ----
-- The header that empties the log
-- ----

theorem length_writes_resetWal (db : DbFile) (retained : List E) :
    (db.resetWal retained).writes.length = 12 := by
  unfold resetWal DbFileHeader.writeTo
  rw [length_consecutive]
  rfl

theorem Layout.open_reset_iff (h : Layout F db cp ws) (retained : List E) (n : Nat)
    {db' : DbFile} : DbFile.openFile (db.crash (db.resetWal retained) n) = .ok db' ↔
      (n < 11 → (db.header.mix (db.resetWal retained).header n).computeCrc =
        db.header.headerCrc) ∧
      db' = ⟨db.crash (db.resetWal retained) n, db.header.mix (db.resetWal retained).header n⟩ := by
  obtain ⟨hr', hs'⟩ := h.header_resetWal retained
  refine open_mix_iff h.inRange h.standard hr' hs' ?_ rfl
  show Holds (applyWrites db.file ((db.resetWal retained).header.writeTo.take n)) 0 _
  unfold DbFileHeader.writeTo
  rw [take_consecutive, DbFileHeader.parts_mix h.standard hs']
  refine Holds.crash h.onDisk ?_ n
  rw [DbFileHeader.length_parts h.inRange h.standard, DbFileHeader.length_parts hr' hs']

/-- Before the new length is written the header is the old one, if entries are retained. -/
theorem mix_reset (db : DbFile) {retained : List E} (hne : retained ≠ []) {n : Nat}
    (hn : n < 8) : db.header.mix (db.resetWal retained).header n = db.header := by
  obtain ⟨crc, hSame⟩ : ∃ crc, (db.resetWal retained).header =
      { db.header with walLength := 0, headerCrc := crc } := by
    refine ⟨(db.resetWal retained).header.headerCrc, ?_⟩
    have hFlags : (if retained.isEmpty then db.header.flags.clear DbFileFlags.hasWal
        else db.header.flags) = db.header.flags := by
      rw [List.isEmpty_eq_false_iff.mpr hne]
      rfl
    unfold DbFile.resetWal
    rw [hFlags]
    rfl
  rw [hSame]
  unfold DbFileHeader.mix
  simp only [ite_self, if_neg (show ¬ 7 < n by omega), if_neg (show ¬ 10 < n by omega)]

/-- From its new length on the log is empty, whatever the flags say. -/
theorem readWal_reset {retained : List E} {file : List UInt8} {n : Nat} (hn : 7 < n) :
    (⟨file, db.header.mix (db.resetWal retained).header n⟩ : DbFile).readWalEntries F = .ok [] := by
  have hLength : (db.header.mix (db.resetWal retained).header n).walLength = 0 := if_pos hn
  unfold DbFile.readWalEntries
  rw [if_pos hLength]
  exact ite_self _

/-- Before that the log is read as long as the flags say that there is one. -/
theorem Layout.readWal_reset_early (h : Layout F db cp ws) (retained : List E) {n : Nat}
    (hn : n < 8)
    (hFlags : (db.header.mix (db.resetWal retained).header n).flags = db.header.flags) :
    (⟨db.crash (db.resetWal retained) n, db.header.mix (db.resetWal retained).header n⟩ :
      DbFile).readWalEntries F = .ok (sortByKey F.lsn ws) := by
  obtain ⟨hr', hs'⟩ := h.header_resetWal retained
  obtain ⟨b, hOld, hSet⟩ := h.flags
  have hOff : (db.header.mix (db.resetWal retained).header n).walOffset = db.header.walOffset :=
    ite_self _
  have hLength : (db.header.mix (db.resetWal retained).header n).walLength = db.header.walLength :=
    if_neg (by omega)
  refine readWalEntries_of_holds (fun hne => ?_) ?_ h.short ?_
  · show (db.header.mix (db.resetWal retained).header n).flags.has DbFileFlags.hasWal = true
    rw [hFlags, hOld, has_wal_flagsOf, hSet hne]
  · exact hLength.trans h.walLength
  · show Holds (applyWrites db.file ((db.resetWal retained).header.writeTo.take n)) _ _
    unfold DbFileHeader.writeTo
    rw [take_consecutive, hOff]
    refine Holds.applyWrites h.wal (.inr ?_)
    have hLe := length_flatten_take_le (db.resetWal retained).header.parts n
    rw [DbFileHeader.length_parts_flatten hr' hs'] at hLe
    rw [h.walOffset]
    omega

theorem Layout.reset_recovers_nil_iff (h : Layout F db cp ws) (n : Nat) :
    Recovers F (db.crash (db.resetWal ([] : List E)) n) [] ↔
      (n < 11 → (db.header.mix (db.resetWal ([] : List E)).header n).computeCrc =
        db.header.headerCrc) := by
  constructor
  · rintro ⟨db', es, hOk, -⟩
    exact ((h.open_reset_iff [] n).mp hOk).1
  · intro hCut
    have hOk := (h.open_reset_iff ([] : List E) n).mpr ⟨hCut, rfl⟩
    obtain ⟨b, hFlags, -⟩ := h.flags
    by_cases hn : 7 < n
    · exact ⟨_, [], hOk, readWal_reset hn, List.nil_subperm⟩
    · by_cases hCleared : 3 < n
      · refine ⟨_, [], hOk, ?_, List.nil_subperm⟩
        have hNew : (db.header.mix (db.resetWal ([] : List E)).header n).flags =
            flagsOf cp.isSome false := by
          rw [← clear_wal_flagsOf cp.isSome b, ← hFlags]
          exact if_pos hCleared
        unfold DbFile.readWalEntries
        rw [hNew, has_wal_flagsOf]
        rfl
      · exact ⟨_, _, hOk, h.readWal_reset_early [] (by omega) (if_neg hCleared),
          List.nil_subperm⟩

/-- The header is cut off while entries are retained: they are read until its new length is on
disk. -/
theorem Layout.reset_recovers_iff (h : Layout F db cp ws) {retained required : List E}
    (hne : retained ≠ []) (hReq : required.Perm retained) (hSub : retained.Subperm ws) (n : Nat) :
    Recovers F (db.crash (db.resetWal retained) n) required ↔ n < 8 := by
  constructor
  · rintro ⟨db', es, hOk, hRead, hAll⟩
    by_contra hLate
    obtain ⟨-, rfl⟩ := (h.open_reset_iff retained n).mp hOk
    rw [readWal_reset (by omega)] at hRead
    obtain rfl := Except.ok.inj hRead
    have hLength := hAll.length_le
    rw [hReq.length_eq] at hLength
    exact hne (List.length_eq_zero_iff.mp (Nat.le_zero.mp hLength))
  · intro hEarly
    have hMix := mix_reset db hne hEarly
    have hOk := (h.open_reset_iff retained n).mpr ⟨fun _ => by rw [hMix, h.crc], rfl⟩
    have hRead := h.readWal_reset_early retained hEarly (by rw [hMix])
    exact ⟨_, _, hOk, hRead, hReq.subperm.trans
      (hSub.trans (List.perm_insertionSort _ ws).symm.subperm)⟩

-- ----
-- The whole truncation
-- ----

/-- A crash after any number of the writes of a truncation. -/
theorem Layout.truncate_survives_iff (h : Layout F db cp ws) {s : DbState E C}
    (hSort : sortByKey F.lsn ws = sortByKey F.lsn s.log) (minLsn n : Nat) :
    TruncateSurvives F db s minLsn n ↔ TruncateCutOk F db s minLsn n := by
  have hPerm : ws.Perm (sortByKey F.lsn s.log) := by
    rw [← hSort]
    exact (List.perm_insertionSort _ ws).symm
  have hLog : s.log.Perm (sortByKey F.lsn s.log) := (List.perm_insertionSort _ s.log).symm
  unfold TruncateSurvives TruncateCutOk truncateUpdate
  rw [h.readWalEntries, hSort]
  dsimp only [bind, Except.bind, pure, Except.pure]
  have hReq := hLog.filter fun e => decide (minLsn ≤ F.lsn e)
  have hSub : ((sortByKey F.lsn s.log).filter fun e => decide (minLsn ≤ F.lsn e)).Subperm ws :=
    List.filter_sublist.subperm.trans hPerm.symm.subperm
  have hFew := List.length_filter_le (fun e => decide (minLsn ≤ F.lsn e)) (sortByKey F.lsn s.log)
  have hShort : ∀ e ∈ (sortByKey F.lsn s.log).filter fun e => decide (minLsn ≤ F.lsn e),
      (F.entry.toBytes e).length < 256 ^ 4 := fun e he =>
    h.short e (hPerm.mem_iff.mpr (List.mem_filter.mp he).1)
  have hLength : (logBytes F ((sortByKey F.lsn s.log).filter fun e =>
      decide (minLsn ≤ F.lsn e))).length ≤ db.header.walLength := by
    rw [h.walLength, ← length_logBytes_sort ws, hSort]
    exact length_logBytes_filter _ _
  have hCount : (sortByKey F.lsn s.log).length = s.log.length := length_sortByKey _
  generalize (sortByKey F.lsn s.log).filter (fun e => decide (minLsn ≤ F.lsn e)) = retained at *
  rw [hCount] at hFew ⊢
  by_cases hAll : s.log.length - retained.length = 0
  · -- nothing is removed, and nothing is written
    rw [if_pos hAll]
    refine ⟨fun _ => .inl (by omega), fun _ => ⟨_, rfl, ?_⟩⟩
    have hFile : db.crash ⟨[], db.header⟩ n = db.file := by
      unfold crash
      rw [List.take_nil, applyWrites_nil]
    rw [hFile]
    exact ⟨db, _, h.openFile, h.readWalEntries, hReq.subperm.trans
      (hSub.trans (List.perm_insertionSort _ ws).symm.subperm)⟩
  · rw [if_neg hAll]
    -- twelve writes reset the log, and the ones after them append what is retained
    have hNotAll : retained.length ≠ s.log.length := fun hSame => hAll (by omega)
    have hCrash : db.crash
        ⟨(db.resetWal retained).writes ++
          (appendUpdates F (db.resetWal retained).header retained).writes,
          (appendUpdates F (db.resetWal retained).header retained).header⟩ n =
        (⟨db.crash (db.resetWal retained) n, (db.resetWal retained).header⟩ : DbFile).crash
          (appendUpdates F (db.resetWal retained).header retained) (n - 12) := by
      rw [← length_writes_resetWal db retained]
      exact crash_append db _ _ n
    have hOnly : ∀ {u : Update} {P : Update → Prop},
        (∃ u', (Except.ok u : Except DbFileError Update) = .ok u' ∧ P u') ↔ P u := by
      intro u P
      exact ⟨fun ⟨u', hSame, hP⟩ => Except.ok.inj hSame ▸ hP, fun hP => ⟨u, rfl, hP⟩⟩
    rw [hOnly, hCrash, or_iff_right hNotAll]
    by_cases hNil : retained = []
    · subst hNil
      have hRequired := List.perm_nil.mp hReq
      have hFile : (⟨db.crash (db.resetWal ([] : List E)) n,
          (db.resetWal ([] : List E)).header⟩ : DbFile).crash
            (appendUpdates F (db.resetWal ([] : List E)).header []) (n - 12) =
          db.crash (db.resetWal ([] : List E)) n := by
        show applyWrites _ (List.take (n - 12) []) = _
        rw [List.take_nil, applyWrites_nil]
      rw [hRequired, hFile, h.reset_recovers_nil_iff n]
      exact ⟨fun hCut => .inl ⟨rfl, hCut⟩,
        fun hCases => hCases.elim And.right fun hLater => absurd rfl hLater.1⟩
    · rw [or_iff_right fun hNone => hNil hNone.1, and_iff_right hNil]
      by_cases hn : n ≤ 12
      · have hFile : (⟨db.crash (db.resetWal retained) n, (db.resetWal retained).header⟩ :
            DbFile).crash (appendUpdates F (db.resetWal retained).header retained) (n - 12) =
            db.crash (db.resetWal retained) n := by
          rw [Nat.sub_eq_zero_of_le hn]
          rfl
        rw [hFile, h.reset_recovers_iff hNil hReq hSub n]
        refine ⟨.inl, fun hCases => hCases.elim id fun hLast => ?_⟩
        have hLate := hLast.1
        omega
      -- the reset is through: a crash of the appends to an empty log
      · obtain ⟨hr, hs⟩ := h.header_resetWal retained
        have hReset : db.perform (db.resetWal retained) = _ :=
          perform_of_fits fun w hw => writeTo_fits hr hs hw
        have hEmpty : Layout F _ cp [] := h.resetWal retained hReset
        have hFits := h.fits
        have hDone : db.crash (db.resetWal retained) n =
            applyWrites db.file (db.resetWal retained).writes := by
          refine crash_all ?_
          rw [length_writes_resetWal]
          omega
        have hAppends := hEmpty.appends_recover_iff hNil hShort (by
          show db.header.walOffset + 0 + _ ≤ maxFileSize
          omega) hReq (n - 12)
        rw [hDone]
        refine hAppends.trans ⟨.inr, fun hCases => hCases.elim (fun hEarly => by omega) id⟩

/-- **When a cut truncation has lost nothing**, for every file that calls have produced, every
LSN and every cut. -/
theorem truncate_crash_iff (F : DbFormat E C) (calls : List (DbCall E C))
    (hShort : ∀ call ∈ calls, call.Short F) (db : DbFile)
    (hRun : execAll F create calls = .ok db) (minLsn n : Nat) :
    TruncateSurvives F db (calls.foldl (DbState.step F) ⟨none, []⟩) minLsn n ↔
      TruncateCutOk F db (calls.foldl (DbState.step F) ⟨none, []⟩) minLsn n := by
  obtain ⟨ws, hLayout, hSort⟩ := layout_of_execAll hShort hRun
  exact hLayout.truncate_survives_iff hSort minLsn n

theorem twoEntries_layout : ∃ db ws,
    execAll u64Format create [.appendWal 1, .appendWal 2] = .ok db ∧
      Layout u64Format db none ws ∧ sortByKey u64Format.lsn ws = [1, 2] := by
  have hStart : Represents u64Format headerSize create ⟨none, []⟩ :=
    ⟨[], layout_create, rfl, Nat.le_refl _⟩
  rcases hStart.execAll (fun call (_ : call ∈ [.appendWal 1, .appendWal 2]) =>
    short_u64 call) with ⟨db, hOk, ws, hLayout, hSort, -⟩ | ⟨-, hLarge⟩
  · exact ⟨db, ws, hOk, hLayout, hSort⟩
  · exact absurd hLarge (by decide)

/-- Entries 1 and 2 are truncated up to 2, and the call is cut off after the last checksum. -/
theorem truncate_crash_done : ∃ db,
    execAll u64Format create [.appendWal 1, .appendWal 2] = .ok db ∧
      TruncateSurvives u64Format db ⟨none, [1, 2]⟩ 2 26 := by
  obtain ⟨db, ws, hOk, -, -⟩ := twoEntries_layout
  exact ⟨db, hOk, (truncate_crash_iff u64Format [.appendWal 1, .appendWal 2]
    (fun call _ => short_u64 call) db hOk 2 26).mpr (.inr (.inr ⟨by decide, .inr ⟨by decide,
      fun hLt => absurd hLt (by decide)⟩⟩))⟩

/-- The same truncation cut off after the header that empties the log: entry 2 is lost. -/
theorem truncate_crash_lost : ∃ db,
    execAll u64Format create [.appendWal 1, .appendWal 2] = .ok db ∧
      ¬ TruncateSurvives u64Format db ⟨none, [1, 2]⟩ 2 12 := by
  obtain ⟨db, ws, hOk, hLayout, hSort⟩ := twoEntries_layout
  refine ⟨db, hOk, fun hSurvives => ?_⟩
  rcases (hLayout.truncate_survives_iff (s := ⟨none, [1, 2]⟩) hSort 2 12).mp hSurvives with
    hAll | ⟨hNil, -⟩ | ⟨-, hEarly | hLast⟩
  · exact absurd hAll (by decide)
  · exact absurd hNil (by decide)
  · exact absurd hEarly (by decide)
  · exact absurd hLast.1 (by decide)

end DbFile

end MiniGU
