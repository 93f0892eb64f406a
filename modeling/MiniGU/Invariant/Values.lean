import MiniGU.Invariant.Snapshot

/-!
# The values that commits give

`committedValue hist s k id` is the value that the commits of a history with a timestamp
up to `s` give to an entity: their logged deltas, applied in order. `Chronicle` says that
the chains of a graph tell just these values, whatever is still running over them.
-/

namespace MiniGU

variable {V : Type}

/-- What one logged delta makes of the value of the entity it is about. -/
def DeltaOp.redo : {k : Kind} → DeltaOp V → Option (Data V k) → Option (Data V k)
  | .vertex, .createVertex v, _ => Data.alive (k := .vertex) v
  | .vertex, .setVertexProps _ op, d => d.map (Data.setProps (k := .vertex) op.indices op.props)
  | .vertex, .delVertex _, _ => none
  | .edge, .createEdge e, _ => Data.alive (k := .edge) e
  | .edge, .setEdgeProps _ op, d => d.map (Data.setProps (k := .edge) op.indices op.props)
  | .edge, .delEdge _, _ => none
  | _, _, d => d

section Redo

variable {k : Kind} {id : Nat}

@[simp] theorem DeltaOp.redo_create (d : Data V k) (v : Option (Data V k)) :
    (create d).redo v = d.alive := by cases k <;> rfl

@[simp] theorem DeltaOp.redo_del (v : Option (Data V k)) : (del k id).redo v = none := by
  cases k <;> rfl

@[simp] theorem DeltaOp.redo_setProps (op : SetPropsOp V) (v : Option (Data V k)) :
    (setProps k id op).redo v = v.map (Data.setProps op.indices op.props) := by
  cases k <;> rfl

/-- The value of an entity after the logged deltas. -/
def redone (k : Kind) (id : Nat) (deltas : List (DeltaOp V)) (v : Option (Data V k)) :
    Option (Data V k) :=
  deltas.foldl (fun v δ => if δ.target = some (k, id) then δ.redo v else v) v

theorem redone_append (deltas deltas' : List (DeltaOp V)) (v : Option (Data V k)) :
    redone k id (deltas ++ deltas') v = redone k id deltas' (redone k id deltas v) :=
  List.foldl_append

theorem redone_single {delta : DeltaOp V} (h : delta.target = some (k, id))
    (v : Option (Data V k)) : redone k id [delta] v = delta.redo v :=
  if_pos h

theorem redone_single_of_ne {delta : DeltaOp V} (h : delta.target ≠ some (k, id))
    (v : Option (Data V k)) : redone k id [delta] v = v :=
  if_neg h

theorem Data.alive_setProps (is : List Nat) (ps : List V) (d : Data V k) :
    (d.setProps is ps).alive = d.alive.map (Data.setProps is ps) := by
  unfold Data.alive
  rw [Data.isTombstone_setProps]
  cases d.isTombstone <;> rfl

end Redo

namespace MemoryGraph

variable {g g' : MemoryGraph V} {txn : MemTransaction} {k : Kind} {id : Nat}
  {c : VersionChain (Data V k) (DeltaOp V)}

/-- The delta logged for an edit makes of the old value the new one. -/
theorem Edits.redo {d₀ d : Data V k} {delta redo : DeltaOp V} (h : Edits k id d₀ delta redo d) :
    redo.target = some (k, id) ∧ redo.redo d₀.alive = d.alive := by
  rcases h.eqs with ⟨-, rfl, rfl⟩ | ⟨indices, old, props, -, rfl, rfl, -⟩
  · refine ⟨DeltaOp.target_del id, ?_⟩
    rw [DeltaOp.redo_del, Data.alive_of_gone (Data.isTombstone_tombstone d₀)]
  · refine ⟨DeltaOp.target_setProps .., ?_⟩
    rw [DeltaOp.redo_setProps, Data.alive_setProps]

theorem Edits.ne_del {d₀ d : Data V k} {delta redo : DeltaOp V} (h : Edits k id d₀ delta redo d) :
    delta ≠ .del k id := by
  rcases h.eqs with ⟨rfl, -⟩ | ⟨indices, old, props, rfl, -⟩
  · exact DeltaOp.create_ne_del _ _
  · exact DeltaOp.setProps_ne_del _ _ _

/-- The value that the commits of a history up to `s` give to an entity. -/
def committedValue (hist : List (CommitEvent V)) (k : Kind) (id s : Nat) : Option (Data V k) :=
  hist.foldl (fun v e =>
    if e.commitTs ≤ s then redone k id (e.graph.redoDeltas e.txn.txnId) v else v) none

theorem committedValue_snoc (hist : List (CommitEvent V)) (e : CommitEvent V) (s : Nat) :
    committedValue (hist ++ [e]) k id s =
      if e.commitTs ≤ s then
        redone k id (e.graph.redoDeltas e.txn.txnId) (committedValue hist k id s)
      else committedValue hist k id s := by
  unfold committedValue
  rw [List.foldl_append]
  rfl

/-! ## The chains tell the values -/

/-- The value at the head of a chain that may be absent. -/
def headValue (b : Option (VersionChain (Data V k) (DeltaOp V))) : Option (Data V k) :=
  b.bind fun c => c.current.data.alive

/-- Either `t` has not written the entity and has logged nothing for it, or its chain is
the writes of `t` over a version that tells the history, and the log of `t` leads from the
value of that version to the head. -/
def Composes (F : (k : Kind) → Nat → Nat → Option (Data V k)) (g : MemoryGraph V)
    (t : MemTransaction) (k : Kind) (id : Nat) : Prop :=
  (g.entriesFor t.txnId k id = [] ∧ ∀ v, redone k id (g.redoDeltas t.txnId) v = v) ∨
  ∃ base c, g.chain k id = some c ∧ WrittenBy t k id base (g.entriesFor t.txnId k id) c ∧
    TellsAll DeltaOp.undo Data.alive (F k id) base ∧
    redone k id (g.redoDeltas t.txnId) (headValue base) = c.current.data.alive

/-- **The chains tell `F`**: every record can be followed, a creation is the last record of
its chain, a chain that nobody is writing tells `F`, and so does what lies under the writes
of an active transaction. -/
structure Chronicle (F : (k : Kind) → Nat → Nat → Option (Data V k)) (g : MemoryGraph V) :
    Prop where
  live : ∀ k id c, g.chain k id = some c → ∀ r ∈ c.undoPtr, g.upgradable r.owner = true
  last : ∀ k id c, g.chain k id = some c → ∀ pre r post, c.undoPtr = pre ++ r :: post →
    r.delta = .del k id → post = []
  settled : ∀ k id, (∀ c, g.chain k id = some c → ∀ t ∈ g.txnManager.activeTxns,
    c.current.commitTs ≠ t.txnId) → TellsAll DeltaOp.undo Data.alive (F k id) (g.chain k id)
  running : ∀ t ∈ g.txnManager.activeTxns, t.lockStrategy = .pessimistic → ∀ k id,
    Composes F g t k id

variable {F : (k : Kind) → Nat → Nat → Option (Data V k)}

/-- A change that the chains, the undo buffers and the logs of active transactions do not
see. -/
theorem Chronicle.congr (h : Chronicle F g) (hChain : g'.chain = g.chain)
    (hLive : ∀ o, g.upgradable o = true → g'.upgradable o = true)
    (hActive : ∀ t, t ∈ g'.txnManager.activeTxns ↔ t ∈ g.txnManager.activeTxns)
    (hTxns : ∀ t ∈ g.txnManager.activeTxns, t.lockStrategy = .pessimistic →
      (g'.txns t.txnId).undoBuffer = (g.txns t.txnId).undoBuffer ∧
      g'.redoDeltas t.txnId = g.redoDeltas t.txnId) : Chronicle F g' := by
  refine ⟨?_, by rw [hChain]; exact h.last, ?_, ?_⟩
  · rw [hChain]
    exact fun k id c hc r hr => hLive _ (h.live k id c hc r hr)
  · intro k id hFree
    rw [hChain] at hFree ⊢
    exact h.settled k id fun c hc t ht => hFree c hc t ((hActive t).mpr ht)
  · intro t ht hPess k id
    have ht' := (hActive t).mp ht
    obtain ⟨hUndo, hRedo⟩ := hTxns t ht' hPess
    have hEntries : g'.entriesFor t.txnId k id = g.entriesFor t.txnId k id :=
      entriesFor_of_undoBuffer hUndo k id
    unfold Composes
    rw [hEntries, hRedo, hChain]
    exact h.running t ht' hPess k id

/-! ## Operations -/

/-- After a write in place, the undo and the redo entries of the transaction still make the chain.
-/
theorem Chronicle.composes_write (hwf : WF g) (h : Chronicle F g)
    (ht : txn ∈ g.txnManager.activeTxns) {delta redo : DeltaOp V} {ts : Nat} {d : Data V k}
    (hOk : WriteOk g txn k id c delta ts d) (hOver : WritesOver g txn k id c delta ts redo d)
    (hChain : g'.chain k id = some (c.push txn.txnId delta ts d))
    (hEntries : g'.entriesFor txn.txnId k id =
      g.entriesFor txn.txnId k id ++ [⟨delta, ts, c.undoPtr⟩])
    (hRedo : g'.redoDeltas txn.txnId = g.redoDeltas txn.txnId ++ [redo]) :
    Composes F g' txn k id := by
  -- a transaction that has no undo entry for the entity has no logged delta for it either
  have hUnwritten : g.entriesFor txn.txnId k id = [] → ∀ v,
      redone k id (g.redoDeltas txn.txnId) v = v := by
    intro hNil
    rcases h.running txn ht hOk.pess k id with ⟨-, hSame⟩ | ⟨base, c', -, hBy, -⟩
    · exact hSame
    · exact absurd hNil hBy.overlay.ne_nil
  right
  cases hOver with
  | new hId hc =>
    have hNil : g.entriesFor txn.txnId k id = [] :=
      hwf.entriesFor_eq_nil ht fun c' hc' => by simp [hc] at hc'
    refine ⟨none, _, hChain, ?_, ?_, ?_⟩
    · rw [hEntries, hNil]
      exact writtenBy_create txn d
    · have hNone := h.settled k id fun c' hc' => by simp [hc] at hc'
      rwa [hc] at hNone
    · rw [hRedo, redone_append, hUnwritten hNil,
        redone_single (by rw [DeltaOp.target_create, hId]), DeltaOp.redo_create]
      rfl
  | old hc hw hEdit =>
    obtain ⟨hTarget, hValue⟩ := hEdit.redo
    by_cases hOwn : c.current.commitTs = txn.txnId
    · rcases h.running txn ht hOk.pess k id with ⟨hNil, -⟩ | ⟨base, c', hc', hBy, hTells, hLog⟩
      · obtain ⟨base, hBy⟩ := hwf.writtenBy ht hc hOwn
        exact absurd hNil hBy.overlay.ne_nil
      · obtain rfl := Option.some.inj (hc.symm.trans hc')
        refine ⟨base, _, hChain, ?_, hTells, ?_⟩
        · rw [hEntries]
          exact hBy.next hEdit.undo
        · rw [hRedo, redone_append, hLog, redone_single hTarget, hValue]
          rfl
    · have hNil : g.entriesFor txn.txnId k id = [] :=
        hwf.entriesFor_eq_nil ht fun c' hc' => by
          obtain rfl := Option.some.inj (hc.symm.trans hc')
          exact hOwn
      -- the head may be written and is not the writer's own: it is nobody's
      have hFree : ∀ c', g.chain k id = some c' → ∀ t ∈ g.txnManager.activeTxns,
          c'.current.commitTs ≠ t.txnId := by
        intro c' hc' t ht'
        obtain rfl := Option.some.inj (hc.symm.trans hc')
        by_cases heq : t = txn
        · rw [heq]
          exact hOwn
        · exact hwf.canWrite_other ht ht' heq hw
      refine ⟨some c, _, hChain, ?_, ?_, ?_⟩
      · rw [hEntries, hNil]
        exact hwf.writtenBy_first ht hc hOwn hw hEdit.ne_del hEdit.undo
      · rw [← hc]
        exact h.settled k id hFree
      · rw [hRedo, redone_append, hUnwritten hNil, redone_single hTarget]
        exact hValue

theorem WritesOver.target_redo {delta redo : DeltaOp V} {ts : Nat} {d : Data V k}
    (h : WritesOver g txn k id c delta ts redo d) : redo.target = some (k, id) := by
  cases h with
  | new hId hc => rw [DeltaOp.target_create, hId]
  | old hc hw hEdit => exact hEdit.redo.1

theorem Chronicle.last_write (h : Chronicle F g) {delta redo : DeltaOp V} {ts : Nat}
    {d : Data V k} (hOver : WritesOver g txn k id c delta ts redo d) {pre post : UndoPtr (DeltaOp V)}
    {r : UndoRec (DeltaOp V)} (hPtr : (c.push txn.txnId delta ts d).undoPtr = pre ++ r :: post)
    (hDel : r.delta = .del k id) : post = [] := by
  rw [VersionChain.push_undoPtr] at hPtr
  cases hOver with
  | new hId hc =>
    cases pre with
    | nil => exact (List.cons.inj hPtr).2.symm
    | cons r' pre => simp at hPtr
  | old hc hw hEdit =>
    cases pre with
    | nil =>
      obtain ⟨rfl, -⟩ := List.cons.inj hPtr
      exact absurd hDel hEdit.ne_del
    | cons r' pre => exact h.last k id c hc pre r post (List.cons.inj hPtr).2 hDel

/-- An atomic write of an operation keeps the chains telling `F`. -/
theorem Chronicle.opStep (hwf : WF g) (h : Chronicle F g) (ht : txn ∈ g.txnManager.activeTxns)
    (hs : OpStep txn g g') : Chronicle F g' := by
  have hMgr := hs.txnManager
  have hOthers : ∀ t ∈ g.txnManager.activeTxns, t ≠ txn → t.txnId ≠ txn.txnId :=
    fun t ht' hne heq => hne (hwf.activeInj t ht' txn ht heq)
  cases hwf.chainStep ht hs with
  | quiet hChain hUndo hRedo =>
    refine h.congr hChain (fun o ho => ?_) (fun t => by rw [hMgr]) fun t ht' hPess => ⟨hUndo _, ?_⟩
    · rw [upgradable_congr (hUndo o)]
      exact ho
    · by_cases heq : t = txn
      · subst heq
        exact hRedo hPess
      · exact redoDeltas_of_redoBuffer (by rw [hs.txns_of_ne (hOthers t ht' heq)])
  | @write k id c delta ts redo d hOk hOver hChain hUndo hRedo =>
    have hSelf : g'.chain k id = some (c.push txn.txnId delta ts d) := by
      rw [hChain]
      exact chain_writeVersion_self ..
    have hElse : ∀ {k' : Kind} {id' : Nat}, (k', id') ≠ (k, id) →
        g'.chain k' id' = g.chain k' id' := by
      intro k' id' hne
      rw [hChain]
      exact chain_writeVersion_of_ne hne ..
    have hLiveSelf : g'.upgradable txn.txnId = true := by
      unfold upgradable
      rw [hUndo, undoBuffer_writeVersion_self]
      simp
    have hLive : ∀ o, g.upgradable o = true → g'.upgradable o = true := by
      intro o ho
      by_cases heq : o = txn.txnId
      · rw [heq]
        exact hLiveSelf
      · rwa [upgradable_congr (g := g) (by rw [hUndo, txns_writeVersion_of_ne heq])]
    have hEntries : ∀ {t : Nat} {k' : Kind} {id' : Nat},
        (t = txn.txnId → (k', id') ≠ (k, id)) →
        g'.entriesFor t k' id' = g.entriesFor t k' id' := by
      intro t k' id' hne
      rw [entriesFor_of_undoBuffer (hUndo t)]
      exact entriesFor_writeVersion_of_ne hOk.target hne ts d
    refine ⟨fun k' id' c' hc' r hr => ?_, fun k' id' c' hc' pre r post hPtr hDel => ?_,
      fun k' id' hFree => ?_, fun t ht' hPess k' id' => ?_⟩
    · by_cases hEq : (k', id') = (k, id)
      · obtain ⟨rfl, rfl⟩ := Prod.mk.inj hEq
        obtain rfl := Option.some.inj (hSelf.symm.trans hc')
        rcases List.mem_cons.mp hr with rfl | hOld
        · exact hLiveSelf
        · cases hOver with
          | new => exact absurd hOld List.not_mem_nil
          | old hc => exact hLive _ (h.live _ _ c hc r hOld)
      · rw [hElse hEq] at hc'
        exact hLive _ (h.live k' id' c' hc' r hr)
    · by_cases hEq : (k', id') = (k, id)
      · obtain ⟨rfl, rfl⟩ := Prod.mk.inj hEq
        obtain rfl := Option.some.inj (hSelf.symm.trans hc')
        exact h.last_write hOver hPtr hDel
      · rw [hElse hEq] at hc'
        exact h.last k' id' c' hc' pre r post hPtr hDel
    · rw [hMgr] at hFree
      by_cases hEq : (k', id') = (k, id)
      · obtain ⟨rfl, rfl⟩ := Prod.mk.inj hEq
        exact absurd rfl (hFree _ hSelf txn ht)
      · rw [hElse hEq] at hFree ⊢
        exact h.settled k' id' hFree
    · rw [hMgr] at ht'
      by_cases heq : t = txn
      · subst heq
        by_cases hEq : (k', id') = (k, id)
        · obtain ⟨rfl, rfl⟩ := Prod.mk.inj hEq
          refine h.composes_write hwf ht hOk hOver hSelf ?_ hRedo
          rw [entriesFor_of_undoBuffer (hUndo _)]
          exact entriesFor_writeVersion_self hOk.target ts d
        · -- the delta logged is about another entity
          have hNe : redo.target ≠ some (k', id') := by
            rw [hOver.target_redo]
            exact fun heq => hEq (Option.some.inj heq).symm
          have hLog : ∀ v, redone k' id' (g'.redoDeltas t.txnId) v =
              redone k' id' (g.redoDeltas t.txnId) v := by
            intro v
            rw [hRedo, redone_append, redone_single_of_ne hNe]
          have hOld := h.running t ht hPess k' id'
          unfold Composes at hOld ⊢
          simp only [hLog]
          rw [hEntries fun _ => hEq, hElse hEq]
          exact hOld
      · have hne := hOthers t ht' heq
        have hOld := h.running t ht' hPess k' id'
        have hLog : g'.redoDeltas t.txnId = g.redoDeltas t.txnId :=
          redoDeltas_of_redoBuffer (by rw [hs.txns_of_ne hne])
        have hSame : g'.entriesFor t.txnId k' id' = g.entriesFor t.txnId k' id' :=
          hEntries fun h' => absurd h' hne
        by_cases hEq : (k', id') = (k, id)
        · obtain ⟨rfl, rfl⟩ := Prod.mk.inj hEq
          rcases hOld with ⟨hNil, hRedone⟩ | ⟨base, c', hc', hBy, -⟩
          · exact .inl ⟨hSame.trans hNil, by rw [hLog]; exact hRedone⟩
          · exact absurd (hOk.others t ht' heq) hBy.overlay.ne_nil
        · unfold Composes
          rw [hLog, hSame, hElse hEq]
          exact hOld

theorem Chronicle.opSteps (hwf : WF g) (h : Chronicle F g) (ht : txn ∈ g.txnManager.activeTxns)
    (hs : OpSteps txn g g') : Chronicle F g' := by
  have hBoth : WF g' ∧ g'.txnManager = g.txnManager ∧ Chronicle F g' := by
    induction hs with
    | refl => exact ⟨hwf, rfl, h⟩
    | tail _ hStep ih =>
      obtain ⟨hwf', hMgr, h'⟩ := ih
      have ht' := hMgr ▸ ht
      exact ⟨hwf'.opStep ht' hStep, hStep.txnManager.trans hMgr, h'.opStep hwf' ht' hStep⟩
  exact hBoth.2.2

/-! ## Commits -/

/-- The commits of a transaction lie above the versions that it wrote over. -/
def CommitsAbove (g : MemoryGraph V) (txn : MemTransaction) (ts : Nat) : Prop :=
  ∀ e ∈ (g.txns txn.txnId).undoBuffer, Timestamp.isCommitTs e.timestamp = true → e.timestamp ≤ ts

/-- **A pessimistic commit adds its log to the history.** -/
theorem Chronicle.commitPess (hwf : WF g) (ht : txn ∈ g.txnManager.activeTxns) {ts : Nat}
    {hist : List (CommitEvent V)} (h : Chronicle (committedValue hist) g)
    (hs : CommitPessSpec g g' txn ts)
    (hAbove : ts < g.counters.1 → CommitsAbove g txn ts) :
    Chronicle (committedValue (hist ++ [⟨g, txn, ts⟩])) g' := by
  have hLive : ∀ o, g'.upgradable o = g.upgradable o := by
    intro o
    by_cases ho : o = txn.txnId
    · subst ho
      exact upgradable_congr hs.undoBuffer
    · exact upgradable_congr (by rw [hs.others o ho])
  have hPtr : ∀ {k id c'}, g'.chain k id = some c' → ∃ c, g.chain k id = some c ∧
      c'.undoPtr = c.undoPtr := by
    intro k id c' hc'
    rw [hs.chain] at hc'
    split at hc'
    · exact ⟨c', hc', rfl⟩
    · obtain ⟨c, hc, rfl⟩ := Option.map_eq_some_iff.mp hc'
      exact ⟨c, hc, rfl⟩
  -- an entity that the transaction has not written keeps its values
  have hSame : ∀ k id, g.entriesFor txn.txnId k id = [] →
      committedValue (hist ++ [⟨g, txn, ts⟩]) k id = committedValue hist k id := by
    intro k id hNil
    funext s
    rw [committedValue_snoc]
    rcases h.running txn ht hs.pess k id with ⟨-, hLog⟩ | ⟨base, c, -, hBy, -⟩
    · dsimp only
      rw [hLog, ite_self]
    · exact absurd hNil hBy.overlay.ne_nil
  refine ⟨fun k id c' hc' r hr => ?_, fun k id c' hc' pre r post hEq hDel => ?_,
    fun k id hFree => ?_, fun t ht' hPess k id => ?_⟩
  · obtain ⟨c, hc, hEq⟩ := hPtr hc'
    rw [hLive]
    exact h.live k id c hc r (hEq ▸ hr)
  · obtain ⟨c, hc, hEq'⟩ := hPtr hc'
    exact h.last k id c hc pre r post (hEq'.symm.trans hEq) hDel
  · by_cases hNil : g.entriesFor txn.txnId k id = []
    · rw [hSame k id hNil, hs.chain, if_pos hNil]
      refine h.settled k id fun c hc t ht' => ?_
      by_cases heq : t.txnId = txn.txnId
      · obtain rfl := hwf.activeInj t ht' txn ht heq
        rcases hwf.owned t ht k id with ⟨-, hne⟩ | ⟨base, c', -, hBy⟩
        · exact hne c hc
        · exact absurd hNil hBy.overlay.ne_nil
      · exact hFree c (by rw [hs.chain, if_pos hNil]; exact hc) t (hs.mem_active.mpr ⟨ht', heq⟩)
    · rcases h.running txn ht hs.pess k id with ⟨hNil', -⟩ | ⟨base, c, hc, hBy, hTells, hLog⟩
      · exact absurd hNil' hNil
      · rw [hs.chain, if_neg hNil, hc, Option.map_some]
        have hTs : ts < txn.txnId := by
          have h₁ := hs.tsLt
          have h₂ := hs.tsBound
          have h₃ := (hwf.activeId txn ht).1
          unfold Timestamp.maxCommitTs Timestamp.txnIdStart at *
          omega
        have hBase : ∀ b, base = some b → b.current.commitTs ≤ ts := by
          rintro b rfl
          obtain ⟨hStart, e, he, hEntry⟩ := hBy.base_stamp
          have hlt := hwf.activeStart txn ht
          by_cases hDrawn : ts < g.counters.1
          · rw [← hEntry]
            refine hAbove hDrawn e (List.mem_of_mem_filter he) ?_
            have hMax := hwf.tsBound
            rw [Timestamp.isCommitTs_iff]
            unfold Timestamp.maxCommitTs Timestamp.txnIdStart at *
            omega
          · omega
        have hBefore : ∀ s, s < ts → committedValue (hist ++ [⟨g, txn, ts⟩]) k id s =
            committedValue hist k id s := fun s hlt => by
          rw [committedValue_snoc, if_neg (Nat.not_le.mpr hlt)]
        refine ⟨fun s (hle : ts ≤ s) => ?_, ?_⟩
        · have hHead : committedValue hist k id s = headValue base := by
            cases base with
            | none => exact hTells s
            | some b => exact hTells.1 s (Nat.le_trans (hBase b rfl) hle)
          rw [committedValue_snoc, if_pos hle, hHead]
          exact hLog
        · exact (hBy.overlay.tells (fun d hd => Data.alive_of_gone hd) hTells hBase
            (Nat.le_of_lt hTs)).congr hBefore
  · obtain ⟨htOld, hne⟩ := hs.mem_active.mp ht'
    have hTxn := hs.others _ hne
    have hEntries : g'.entriesFor t.txnId k id = g.entriesFor t.txnId k id := by
      unfold entriesFor
      rw [hTxn]
    have hRedo : g'.redoDeltas t.txnId = g.redoDeltas t.txnId :=
      redoDeltas_of_redoBuffer (by rw [hTxn])
    rcases h.running t htOld hPess k id with ⟨hNil, hLog⟩ | ⟨base, c, hc, hBy, hTells, hLog⟩
    · exact .inl ⟨hEntries.trans hNil, by rw [hRedo]; exact hLog⟩
    · -- the head is not the committer's, so the committer has not written the entity
      have hNil : g.entriesFor txn.txnId k id = [] := hwf.entriesFor_eq_nil ht fun c' hc' => by
        obtain rfl := Option.some.inj (hc.symm.trans hc')
        rw [hBy.overlay.commitTs_eq]
        exact hne
      refine .inr ⟨base, c, by rw [hs.chain, if_pos hNil]; exact hc, by rw [hEntries]; exact hBy,
        by rw [hSame k id hNil]; exact hTells, by rw [hRedo]; exact hLog⟩

/-! ## Readers -/

/-- **A snapshot is given the committed value of its time**, unless a version committed
exactly then has been written over. -/
theorem Chronicle.snap_eq (hwf : WF g) (h : Chronicle F g) {s : Nat} (hs : s < g.counters.1)
    (hLegible : ∀ c, g.chain k id = some c → s < c.current.commitTs → ∀ r ∈ c.undoPtr,
      r.timestamp = s → r.delta = .del k id) : g.snap s k id = F k id s := by
  cases hc : g.chain k id with
  | none =>
    have hNone := h.settled k id fun c hc' => by simp [hc] at hc'
    rw [hc] at hNone
    rw [snap_of_none hc, hNone s]
  | some c =>
    rw [snap_of_chain hc]
    have hWalk : ∀ hi, s < hi → s < c.current.commitTs →
        Tells DeltaOp.undo Data.alive (F k id) hi c.current.data c.undoPtr →
        (c.readAt DeltaOp.undo g.upgradable s).alive = F k id s := by
      intro hi hHi hlt hTells
      rw [VersionChain.readAt_of_lt hlt]
      refine hTells.walk hHi (h.live k id c hc) fun pre r post hPtr hEq => ?_
      exact h.last k id c hc pre r post hPtr
        (hLegible c hc hlt r (by rw [hPtr]; simp) hEq)
    by_cases hOwn : ∃ t ∈ g.txnManager.activeTxns, c.current.commitTs = t.txnId
    · obtain ⟨t, ht, hOwn⟩ := hOwn
      have hPess : t.lockStrategy = .pessimistic := by
        cases hLock : t.lockStrategy with
        | pessimistic => rfl
        | optimistic => exact absurd hOwn (hwf.head_ne_of_opt ht hLock hc)
      have hId := hwf.id_gt ht (Nat.le_trans (Nat.le_of_lt hs) hwf.tsBound)
      rcases h.running t ht hPess k id with ⟨hNil, -⟩ | ⟨base, c', hc', hBy, hTells, -⟩
      · obtain ⟨base, hBy⟩ := hwf.writtenBy ht hc hOwn
        exact absurd hNil hBy.overlay.ne_nil
      · obtain rfl := Option.some.inj (hc.symm.trans hc')
        refine hWalk t.txnId hId (by rw [hOwn]; exact hId) ?_
        refine hBy.overlay.tells (fun d hd => Data.alive_of_gone hd) hTells ?_ (Nat.le_refl _)
        rintro b rfl
        exact Nat.le_trans (hBy.base_stamp).1 (Nat.le_of_lt (hwf.start_lt_id ht ht))
    · have hTells := h.settled k id fun c' hc' t ht hEq => hOwn ⟨t, ht, by
        obtain rfl := Option.some.inj (hc.symm.trans hc')
        exact hEq⟩
      rw [hc] at hTells
      by_cases hle : c.current.commitTs ≤ s
      · rw [VersionChain.readAt_of_le hle]
        exact (hTells.1 s hle).symm
      · exact hWalk _ (by omega) (by omega) hTells.2

end MemoryGraph

end MiniGU
