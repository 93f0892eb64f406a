import MiniGU.Invariant.Reachable

/-!
# Uninterrupted begins keep the watermark sound

In the machine of whole calls a begin draws its id and its start together, so the active
transactions are ordered by both alike and the front of `active_txns`, from which the
watermark is read, has the smallest start.

## The commits of a run

A run's history is read off its trace: one event for each commit that succeeded, with
the graph it started from, the transaction and the commit timestamp it was given.
-/

namespace MiniGU

namespace MemoryGraph

variable {V : Type} {g g' : MemoryGraph V}

/-- No begin brings a start timestamp of its own. -/
def DrawsStart : Action V → Prop
  | .begin startTs _ _ => startTs = none
  | _ => True

/-- Ids and starts come in the same order, and the watermark is below every start. -/
structure InOrder (g : MemoryGraph V) : Prop where
  sorted : g.txnManager.activeTxns.Pairwise fun t t' => t.txnId < t'.txnId ∧ t.startTs < t'.startTs
  watermark : ∀ t ∈ g.txnManager.activeTxns, g.txnManager.watermark ≤ t.startTs

theorem head_le_of_sorted {l : List MemTransaction} {t₀ t : MemTransaction}
    (h : l.Pairwise fun t t' => t.txnId < t'.txnId ∧ t.startTs < t'.startTs)
    (hHead : l.head? = some t₀) (ht : t ∈ l) : t₀.startTs ≤ t.startTs := by
  obtain ⟨l', rfl⟩ := List.head?_eq_some_iff.mp hHead
  rcases List.mem_cons.mp ht with rfl | ht
  · exact Nat.le_refl _
  · exact Nat.le_of_lt ((List.pairwise_cons.mp h).1 t ht).2

theorem InOrder.ends {txn : MemTransaction} (h : InOrder g) (he : Ends g g' txn) :
    InOrder g' := by
  have hSorted : g'.txnManager.activeTxns.Pairwise fun t t' =>
      t.txnId < t'.txnId ∧ t.startTs < t'.startTs := by
    rw [he.active]
    exact h.sorted.filter _
  refine ⟨hSorted, fun t ht => ?_⟩
  cases hHead : g'.txnManager.activeTxns.head? with
  | none => simp [List.head?_eq_none_iff.mp hHead] at ht
  | some t₀ =>
    rw [he.watermarkHead t₀ hHead]
    exact Nat.max_le.mpr ⟨head_le_of_sorted hSorted hHead ht, h.watermark t (he.mem_active.mp ht).1⟩

/-- The new transaction has the largest id, so it is entered last. -/
theorem InOrder.begun {txn : MemTransaction} {idGen : TransactionIdGenerator}
    {tsGen : GlobalTimestampGenerator} (hwf : WF g) (h : InOrder g)
    (hNew : txn.txnId = g.counters.2) (hStart : txn.startTs = g.counters.1) :
    InOrder (g.begun txn idGen tsGen) := by
  have hAfter : ∀ t ∈ g.txnManager.activeTxns, t.txnId < txn.txnId ∧ t.startTs < txn.startTs :=
    fun t ht => ⟨by rw [hNew]; exact (hwf.activeId t ht).2, by rw [hStart]; exact hwf.activeStart t ht⟩
  have hActive : (g.begun txn idGen tsGen).txnManager.activeTxns =
      g.txnManager.activeTxns ++ [txn] :=
    SkipList.insert_eq_append fun t ht => by
      have := (hAfter t ht).1
      simp only [decide_eq_false_iff_not, decide_eq_true_eq]
      omega
  have hSorted : (g.begun txn idGen tsGen).txnManager.activeTxns.Pairwise fun t t' =>
      t.txnId < t'.txnId ∧ t.startTs < t'.startTs := by
    rw [hActive]
    refine List.pairwise_append.mpr ⟨h.sorted, List.pairwise_singleton .., fun t ht t' ht' => ?_⟩
    rw [List.mem_singleton.mp ht']
    exact hAfter t ht
  refine ⟨hSorted, fun t ht => ?_⟩
  cases hHead : (g.begun txn idGen tsGen).txnManager.activeTxns.head? with
  | none => simp [List.head?_eq_none_iff.mp hHead] at ht
  | some t₀ =>
    have hWm : (g.begun txn idGen tsGen).txnManager.watermark =
        max t₀.startTs g.txnManager.watermark := by
      show max (((g.begun txn idGen tsGen).txnManager.activeTxns.head?.map
        MemTransaction.startTs).getD _) _ = _
      rw [hHead]
      rfl
    rw [hWm]
    refine Nat.max_le.mpr ⟨head_le_of_sorted hSorted hHead ht, ?_⟩
    rcases mem_active_begun ht with rfl | ht
    · rw [hStart]
      exact Nat.le_of_lt hwf.watermark
    · exact h.watermark t ht

theorem InOrder.step [DecidableEq V] {a : Action V} (hwf : WF g) (h : InOrder g)
    (hDraws : DrawsStart a) (hs : Step g a g') : InOrder g' := by
  have hSame : g'.txnManager = g.txnManager → InOrder g' := fun hm =>
    ⟨by rw [hm]; exact h.sorted, by rw [hm]; exact h.watermark⟩
  cases step_cases hwf hs with
  | idle _ hg => exact hSame (by rw [hg])
  | skipId hId hg => exact hSame (by rw [hg])
  | @begun _ txn idGen tsGen hNew hId hStart hMono hMax hDrawn hGiven hg =>
    have hBegun : InOrder (g.begun txn idGen tsGen) := h.begun hwf hNew (hDrawn hDraws)
    rw [hg]
    exact ⟨hBegun.sorted, hBegun.watermark⟩
  | op ht hSteps => exact hSame (hwf.opSteps ht hSteps).2
  | query ht hSteps => exact hSame (hwf.opSteps ht hSteps).2
  | rollback ht hAbort => exact h.ends hAbort.toEnds
  | abort ht hAbort => exact h.ends hAbort.toEnds
  | commitPess ht _ _ _ _ hCommit => exact h.ends hCommit.toEnds
  | commitOpt ht _ _ _ _ hCommit => exact h.ends hCommit.toEnds
  | garbageCollect hg =>
    rw [hg]
    exact ⟨h.sorted, h.watermark⟩
  | release hHeld hg => exact hSame (by rw [hg]; rfl)

/-- **Uninterrupted begins keep the watermark sound**, if they draw their start. -/
theorem watermark_le_start [DecidableEq V] {g₀ : MemoryGraph V}
    {trace : List (MemoryGraph V × Action V)} (hInit : Initial g₀)
    (hRun : Run Step (fun g a => GcOk g a ∧ DrawsStart a) g₀ trace g) : InOrder g := by
  obtain ⟨lock, iso, rfl⟩ := hInit
  have hBoth : WF g ∧ InOrder g := by
    refine hRun.stateInvariant (I := fun g => WF g ∧ InOrder g) ⟨wf_new lock iso, ?_⟩
      fun s a s' hI hP hs => ⟨wf_step hI.1 hP.1 hs, hI.2.step hI.1 hP.2 hs⟩
    refine ⟨List.Pairwise.nil, fun t ht => ?_⟩
    cases ht
  exact hBoth.2

end MemoryGraph

-- ----
-- The commits of a run
-- ----

variable {V : Type}

/-- A commit that succeeded; `graph` is the graph just before it. -/
structure CommitEvent (V : Type) where
  graph : MemoryGraph V
  txn : MemTransaction
  commitTs : Nat

namespace MemoryGraph

/-- The transaction has created, deleted or set properties of the entity: in place, or
as a staged intent. -/
def Wrote (g : MemoryGraph V) (txn : MemTransaction) (k : Kind) (id : Nat) : Prop :=
  g.entriesFor txn.txnId k id ≠ [] ∨ ((g.txns txn.txnId).lookupWrite k id).isSome = true

instance [DecidableEq V] (g : MemoryGraph V) (txn : MemTransaction) (k : Kind) (id : Nat) :
    Decidable (g.Wrote txn k id) :=
  inferInstanceAs (Decidable (_ ∨ _))

variable [DecidableEq V]

/-- The commit event of one step, if it is a commit that succeeds. -/
def commitEvent (p : MemoryGraph V × Action V) : Option (CommitEvent V) :=
  match p.2 with
  | .commit txn ts? =>
    match (p.1.commitAt txn ts? false).2 with
    | .ok ts => some ⟨p.1, txn, ts⟩
    | .error _ => none
  | _ => none

/-- The commits of a trace, in order. -/
def commits (trace : List (MemoryGraph V × Action V)) : List (CommitEvent V) :=
  trace.filterMap commitEvent

variable {g g' : MemoryGraph V} {a : Action V} {txn : MemTransaction}

theorem commits_snoc (trace : List (MemoryGraph V × Action V)) (g : MemoryGraph V) (a : Action V) :
    commits (trace ++ [(g, a)]) = commits trace ++ (commitEvent (g, a)).toList := by
  unfold commits
  rw [List.filterMap_append]
  cases h : commitEvent (g, a) <;> simp [h]

/-- A step adds a commit to the history exactly when it is a commit that succeeds. -/
theorem commitEvent_cases (g : MemoryGraph V) (a : Action V) : commitEvent (g, a) = none ∨
    ∃ txn ts? ts, a = .commit txn ts? ∧ (g.commitAt txn ts? false).2 = .ok ts ∧
      commitEvent (g, a) = some ⟨g, txn, ts⟩ := by
  cases a with
  | commit txn ts? =>
    cases hOk : (g.commitAt txn ts? false).2 with
    | ok ts => exact .inr ⟨txn, ts?, ts, rfl, hOk, by simp only [commitEvent, hOk]⟩
    | error e => exact .inl (by simp only [commitEvent, hOk])
  | _ => exact .inl rfl

/-- The generators only count up. -/
theorem counters_mono (h : WF g) (hs : Step g a g') :
    g.counters.1 ≤ g'.counters.1 ∧ g.counters.2 ≤ g'.counters.2 := by
  have hEnds : ∀ {txn : MemTransaction}, Ends g g' txn →
      g.counters.1 ≤ g'.counters.1 ∧ g.counters.2 ≤ g'.counters.2 := fun he =>
    ⟨he.tsMono, Nat.le_of_eq he.idEq.symm⟩
  have hSame : g'.counters = g.counters →
      g.counters.1 ≤ g'.counters.1 ∧ g.counters.2 ≤ g'.counters.2 := fun heq => by
    rw [heq]
    exact ⟨Nat.le_refl _, Nat.le_refl _⟩
  cases step_cases h hs with
  | idle _ hg => exact hSame (by rw [hg])
  | skipId hId hg =>
    rw [hg]
    exact ⟨Nat.le_refl _, by simp only [counters] at *; omega⟩
  | begun hNew hId hStart hMono hMax hDrawn hGiven hg =>
    rw [hg]
    exact ⟨hMono, by simp only [counters] at *; exact Nat.le_trans (Nat.le_succ _) (Nat.le_of_eq hId.symm)⟩
  | op ht hSteps => exact hSame (counters_opSteps hSteps)
  | query ht hSteps => exact hSame (counters_opSteps hSteps)
  | rollback ht hAbort => exact hEnds hAbort.toEnds
  | abort ht hAbort => exact hEnds hAbort.toEnds
  | commitPess ht _ _ _ _ hCommit => exact hEnds hCommit.toEnds
  | commitOpt ht _ _ _ _ hCommit => exact hEnds hCommit.toEnds
  | garbageCollect hg => exact hSame (by rw [hg, counters_garbageCollect])
  | release hHeld hg => exact hSame (by rw [hg]; rfl)

/-- The timestamp of a commit was handed out by the generator. -/
theorem commitTs_lt {ts? : Option Nat} {ts : Nat} (h : WF g) (hs : Step g (.commit txn ts?) g')
    (hOk : (g.commitAt txn ts? false).2 = .ok ts) : ts < g'.counters.1 := by
  cases step_cases h hs with
  | idle hNot _ => exact absurd hOk (hNot txn ts? rfl ts)
  | rollback _ _ hErr => exact absurd hOk (hErr ts)
  | commitPess ht hOk' _ _ _ hCommit =>
    obtain rfl := Except.ok.inj (hOk'.symm.trans hOk)
    exact hCommit.tsLt
  | commitOpt ht hOk' _ _ _ hCommit =>
    obtain rfl := Except.ok.inj (hOk'.symm.trans hOk)
    exact hCommit.tsLt

end MemoryGraph

end MiniGU
