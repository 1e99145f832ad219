import FoundationDbEffect.Foundation.Signal
import FoundationDbEffect.PersistedQueue.Changes

/-!
# Wake-ups of queue waits

A claim that finds nothing to do watches the signal as of its snapshot. Each later transaction
that adds a pending row increments the signal once, so its value is no longer the watched one.
-/

namespace FoundationDbEffect.PersistedQueue

open FoundationDbEffect.Foundation

variable {ε : Type}

structure Quiet (queue next : Queue ε) : Prop where
  signal : next.signal = queue.signal
  pending : ∀ row sequence, (next.index .pending).get? row = some sequence →
    (queue.index .pending).get? row = some sequence

def Signals (queue next : Queue ε) : Prop := next.signal = queue.addSignal.signal

namespace Quiet

variable {first second third : Queue ε}

theorem refl (queue : Queue ε) : Quiet queue queue := ⟨rfl, fun _ _ => id⟩

theorem trans (h : Quiet first second) (h' : Quiet second third) : Quiet first third :=
  ⟨h'.signal.trans h.signal, fun row sequence hrow => h.pending _ _ (h'.pending row sequence hrow)⟩

end Quiet

theorem quiet_clearIndex (queue : Queue ε) (state : EntryState) (key : Int ×ₗ Nat) :
    Quiet queue (queue.clearIndex state key) := by
  refine ⟨rfl, fun row sequence hrow => ?_⟩
  rw [get?_clearIndex] at hrow
  split_ifs at hrow
  exact hrow

theorem quiet_setIndex (queue : Queue ε) {state : EntryState} (hstate : state ≠ .pending)
    (time : Int) (sequence : Nat) : Quiet queue (queue.setIndex state time sequence) := by
  refine ⟨rfl, fun row sequence' hrow => ?_⟩
  rw [get?_setIndex, if_neg fun heq => hstate heq.1.symm] at hrow
  exact hrow

theorem quiet_writeEntryMetadata (queue : Queue ε) (sequence : Nat) (entry : QueueEntryMetadata) :
    Quiet queue (queue.writeEntryMetadata sequence entry) :=
  ⟨rfl, fun _ _ => id⟩

theorem quiet_setClaim (queue : Queue ε) (claimId : String) (sequence : Nat) :
    Quiet queue (queue.setClaim claimId sequence) :=
  ⟨rfl, fun _ _ => id⟩

theorem quiet_clearClaim (queue : Queue ε) (claimId : String) :
    Quiet queue (queue.clearClaim claimId) :=
  ⟨rfl, fun _ _ => id⟩

theorem Quiet.moved {queue next : Queue ε} (h : Quiet queue next) (sequence : Nat)
    (entry : QueueEntryMetadata) {state : EntryState} (hstate : state ≠ .pending) (time : Int) :
    Quiet queue ((next.writeEntryMetadata sequence entry).setIndex state time sequence) :=
  (h.trans (quiet_writeEntryMetadata next sequence entry)).trans (quiet_setIndex _ hstate time _)

/-! ## Recovered locks -/

theorem quiet_recoverLock (queue : Queue ε) (maxAttempts now : Int) (expiredAt : Option Int)
    (lock : (Int ×ₗ Nat) × Nat) :
    (queue.recoverLock maxAttempts now expiredAt lock).1.signal = queue.signal ∧
      ((queue.recoverLock maxAttempts now expiredAt lock).2 = false →
        Quiet queue (queue.recoverLock maxAttempts now expiredAt lock).1) := by
  have hstale := quiet_clearIndex queue .processing lock.1
  rw [Queue.recoverLock]
  dsimp only
  split
  · exact ⟨rfl, fun _ => hstale⟩
  · next entry hentry =>
      by_cases hheld : entry.state ≠ .processing ∨
          entry.acquiredAt.all fun acquiredAt => expiredAt.all (acquiredAt > ·)
      · rw [if_pos hheld]
        exact ⟨rfl, fun _ => hstale⟩
      · rw [if_neg hheld]
        have hcleared : Quiet queue
            ((queue.clearIndex .processing lock.1).clearAcquiredBy entry.acquiredBy) := by
          cases entry.acquiredBy with
          | some claimId => exact hstale.trans (quiet_clearClaim _ claimId)
          | none => exact hstale
        by_cases hattempts : (entry.attempts : Int) ≥ maxAttempts
        · rw [if_pos hattempts]
          exact ⟨hcleared.signal, fun _ => hcleared.moved lock.2 _ (by simp) now⟩
        · rw [if_neg hattempts]
          exact ⟨hcleared.signal, fun hpending => by simp at hpending⟩

theorem quiet_recoverLocks (maxAttempts now : Int) (expiredAt : Option Int)
    (locks : List ((Int ×ₗ Nat) × Nat)) (queue : Queue ε) (recoveredPending : Bool) :
    (Queue.recoverLocks maxAttempts now expiredAt locks queue recoveredPending).1.signal =
        queue.signal ∧
      ((Queue.recoverLocks maxAttempts now expiredAt locks queue recoveredPending).2 = false →
        recoveredPending = false ∧ Quiet queue
          (Queue.recoverLocks maxAttempts now expiredAt locks queue recoveredPending).1) := by
  induction locks generalizing queue recoveredPending with
  | nil => exact ⟨rfl, fun hpending => ⟨hpending, .refl queue⟩⟩
  | cons lock locks ih =>
      obtain ⟨hfirst, hquiet⟩ := quiet_recoverLock queue maxAttempts now expiredAt lock
      obtain ⟨hrest, hquiet'⟩ := ih (queue.recoverLock maxAttempts now expiredAt lock).1
        (recoveredPending || (queue.recoverLock maxAttempts now expiredAt lock).2)
      refine ⟨hrest.trans hfirst, fun hpending => ?_⟩
      obtain ⟨hnone, hlater⟩ := hquiet' hpending
      obtain ⟨hbefore, hlock⟩ := Bool.or_eq_false_iff.mp hnone
      exact ⟨hbefore, (hquiet hlock).trans hlater⟩

/-! ## Candidates -/

theorem PendingSound.quiet_tryPending {queue next : Queue ε} (h : PendingSound queue)
    {claimId : String} {maxAttempts now : Int} {candidate : (Int ×ₗ Nat) × Nat}
    {claimed : Option (Queue.ClaimedEntry ε)}
    (htry : queue.tryPending claimId maxAttempts now candidate = .ok (next, claimed)) :
    Quiet queue next := by
  have hcleared := quiet_clearIndex queue .pending candidate.1
  rw [Queue.tryPending] at htry
  dsimp only at htry
  split at htry
  · cases htry
  · cases htry
    exact hcleared
  · next entry element hread =>
      split_ifs at htry with hstate hvisible hattempts
      · cases htry
        exact hcleared
      · -- The entry keeps the row that it has.
        cases htry
        obtain ⟨hentry, -⟩ := Queue.readEntry_eq_some hread
        have hlisted := (h.index _ _).mpr ⟨entry, hentry, not_not.mp hstate, rfl⟩
        refine ⟨rfl, fun row sequence hrow => ?_⟩
        rw [get?_setIndex] at hrow
        split_ifs at hrow with heq
        · rw [heq.2, hlisted, hrow]
        · exact hcleared.pending row sequence hrow
      · cases htry
        exact hcleared.moved candidate.2 _ (by simp) now
      · cases htry
        exact (hcleared.moved candidate.2 _ (by simp) now).trans (quiet_setClaim _ claimId _)

theorem PendingSound.quiet_tryPendings {claimId : String} {maxAttempts now : Int}
    (lockExpiration : Option Int) (candidates : List ((Int ×ₗ Nat) × Nat)) {queue next : Queue ε}
    (h : PendingSound queue)
    (hrows : ∀ candidate ∈ candidates, (queue.index .pending).get? candidate.1 = some candidate.2)
    (hdistinct : candidates.Pairwise fun left right => left.2 ≠ right.2)
    {claimed : Option (Queue.ClaimedEntry ε)}
    (htry : Queue.tryPendings claimId maxAttempts now candidates queue = .ok (next, claimed)) :
    Quiet queue next := by
  induction candidates generalizing queue with
  | nil =>
      cases htry
      exact .refl _
  | cons candidate candidates ih =>
      obtain ⟨hother, hrest⟩ := List.pairwise_cons.mp hdistinct
      rw [Queue.tryPendings] at htry
      split at htry
      · cases htry
      · next hcandidate =>
          cases htry
          exact h.quiet_tryPending hcandidate
      · next tried hcandidate =>
          obtain ⟨hstep, hkept, -⟩ :=
            h.tryPending lockExpiration (hrows candidate List.mem_cons_self) hcandidate
          refine (h.quiet_tryPending hcandidate).trans (ih (h.entrywise hstep) ?_ hrest htry)
          intro later hmem
          refine ((hkept rfl).2 later.1 later.2 (hother later hmem).symm).2 ?_
          exact hrows later (List.mem_cons_of_mem _ hmem)

/-! ## Transactions -/

theorem PendingSound.claimNext_signals {queue next : Queue ε} (h : PendingSound queue)
    {claimId : String} {maxAttempts now : Int} {lockExpiration : Option Int}
    {result : Queue.ClaimResult ε}
    (hnext : queue.claimNext claimId maxAttempts now lockExpiration = .ok (next, result)) :
    Quiet queue next ∨ Signals queue next := by
  have hrecovered := h.recoverLocks claimId maxAttempts now lockExpiration
    (Queue.indexBefore (queue.index .processing) (Queue.subtractDuration now lockExpiration)) false
  have hlocks := quiet_recoverLocks maxAttempts now (Queue.subtractDuration now lockExpiration)
    (Queue.indexBefore (queue.index .processing) (Queue.subtractDuration now lockExpiration)) queue
    false
  rw [Queue.claimNext] at hnext
  dsimp only at hnext
  generalize Queue.recoverLocks maxAttempts now (Queue.subtractDuration now lockExpiration)
    (Queue.indexBefore (queue.index .processing) (Queue.subtractDuration now lockExpiration)) queue
    false = recovery at hnext hrecovered hlocks
  obtain ⟨recovered, recoveredPending⟩ := recovery
  dsimp only at hnext hrecovered hlocks
  have hsound : PendingSound (if recoveredPending then recovered.addSignal else recovered) := by
    have hrec := h.chain hrecovered
    cases recoveredPending
    · exact hrec
    · exact hrec.same ⟨rfl, fun _ => rfl, rfl⟩
  have hfirst : Quiet queue (if recoveredPending then recovered.addSignal else recovered) ∨
      Signals queue (if recoveredPending then recovered.addSignal else recovered) := by
    cases recoveredPending
    · exact .inl (hlocks.2 rfl).2
    · right
      simp [Signals, Queue.addSignal, hlocks.1]
  generalize (if recoveredPending then recovered.addSignal else recovered) = signalled
    at hnext hsound hfirst
  have hpending {tried : Queue ε} {claimed : Option (Queue.ClaimedEntry ε)}
      (htry : Queue.tryPendings claimId maxAttempts now
        (Queue.indexBefore (signalled.index .pending) (some now)) signalled = .ok (tried, claimed)) :
      Quiet queue tried ∨ Signals queue tried := by
    have hquiet := hsound.quiet_tryPendings lockExpiration _
      (fun _ hmem => (mem_indexBefore hmem).1) (hsound.distinct _) htry
    rcases hfirst with hfirst | hfirst
    · exact .inl (hfirst.trans hquiet)
    · exact .inr (hquiet.signal.trans hfirst)
  split at hnext
  · cases hnext
  · next htry =>
      cases hnext
      exact hpending htry
  · next htry =>
      cases hnext
      exact hpending htry

theorem PendingSound.claim_signals {queue next : Queue ε} (h : PendingSound queue)
    {claimId : String} {maxAttempts now : Int} {lockExpiration : Option Int}
    {result : Queue.ClaimResult ε}
    (hclaim : queue.claim claimId maxAttempts now lockExpiration = .ok (next, result)) :
    Quiet queue next ∨ Signals queue next := by
  have hcleared (hnext : (queue.clearClaim claimId).claimNext claimId maxAttempts now
      lockExpiration = .ok (next, result)) : Quiet queue next ∨ Signals queue next := by
    have hsound : PendingSound (queue.clearClaim claimId) := h.same ⟨rfl, fun _ => rfl, rfl⟩
    rcases hsound.claimNext_signals hnext with hquiet | hsignals
    · exact .inl ((quiet_clearClaim queue claimId).trans hquiet)
    · exact .inr hsignals
  rw [Queue.claim] at hclaim
  split at hclaim
  · exact h.claimNext_signals hclaim
  · split at hclaim
    · cases hclaim
    · split_ifs at hclaim
      · cases hclaim
        exact .inl (.refl queue)
      · exact hcleared hclaim
    · exact hcleared hclaim

theorem refreshClaim_quiet (queue : Queue ε) (claimId : String) (sequence : Nat) (now : Int) :
    Quiet queue (queue.refreshClaim claimId sequence now) := by
  rw [Queue.refreshClaim]
  split
  · exact .refl queue
  · exact (quiet_clearIndex queue _ _).moved sequence _ (by simp) now

theorem finalizeClaim_signals (queue : Queue ε) (claimId : String) (sequence attempts : Nat)
    (maxAttempts : Int) (retryDelay : Option Int) (exit : ClaimExit) (now : Int) :
    Quiet queue (queue.finalizeClaim claimId sequence attempts maxAttempts retryDelay exit now) ∨
      Signals queue
        (queue.finalizeClaim claimId sequence attempts maxAttempts retryDelay exit now) := by
  rw [Queue.finalizeClaim]
  generalize Queue.finalState exit attempts maxAttempts now retryDelay = final
  obtain ⟨state, visibleAt, decrementAttempt⟩ := final
  dsimp only
  split
  · exact .inl (.refl queue)
  · next entry acquiredAt hheld =>
      have hcleared := (quiet_clearIndex queue .processing
        (toLex (timestamp acquiredAt, sequence))).trans (quiet_clearClaim _ claimId)
      by_cases hpending : state = .pending
      · rw [if_pos hpending]
        exact .inr rfl
      · rw [if_neg hpending]
        exact .inl (hcleared.moved sequence _ (by split_ifs <;> simp) now)

theorem cleanupRow_quiet (queue : Queue ε) (state : TerminalState) (cutoff : Option Int)
    (indexed : (Int ×ₗ Nat) × Nat) : Quiet queue (queue.cleanupRow state cutoff indexed) := by
  have hterminal : state.entryState ≠ .pending := by cases state <;> simp [TerminalState.entryState]
  rw [Queue.cleanupRow]
  dsimp only
  refine Quiet.trans ?_ (quiet_clearIndex _ state.entryState indexed.1)
  split
  · exact .refl queue
  · split_ifs
    · exact ⟨rfl, fun _ _ => id⟩
    · exact .refl queue

theorem cleanupRows_quiet (state : TerminalState) (cutoff : Option Int)
    (entries : List ((Int ×ₗ Nat) × Nat)) (queue : Queue ε) :
    Quiet queue
      (entries.foldl (fun queue indexed => queue.cleanupRow state cutoff indexed) queue) := by
  induction entries generalizing queue with
  | nil => exact .refl queue
  | cons indexed entries ih => exact (cleanupRow_quiet queue state cutoff indexed).trans (ih _)

theorem offer_signals (queue : Queue ε) (id : String) (element : ε) (now : Int) :
    Quiet queue (queue.offer id element now) ∨ Signals queue (queue.offer id element now) := by
  rw [Queue.offer]
  split
  · exact .inl (.refl queue)
  · exact .inr rfl

/-- A committed transaction that adds a pending row increments the signal, and none does so more
than once. -/
theorem QueueStep.signals {queue next : Queue ε} {commit : QueueCommit ε}
    (hstep : QueueStep queue commit next) (h : PendingSound queue) :
    Quiet queue next ∨ Signals queue next := by
  cases hstep with
  | offer now id element => exact offer_signals queue id element now
  | claim now claimId maxAttempts lockExpiration hclaim => exact h.claim_signals hclaim
  | refreshClaim now claimId sequence => exact .inl (refreshClaim_quiet queue claimId sequence now)
  | finalizeClaim now claimId sequence attempts maxAttempts retryDelay exit =>
      exact finalizeClaim_signals queue claimId sequence attempts maxAttempts retryDelay exit now
  | cleanup now state timeToLive => exact .inl (cleanupRows_quiet state _ _ queue)

theorem eq_of_claimNext_wait {queue next : Queue ε} {claimId : String} {maxAttempts now : Int}
    {lockExpiration : Option Int}
    (hwait : queue.claimNext claimId maxAttempts now lockExpiration = .ok (next, .wait)) :
    next = queue := by
  rw [Queue.claimNext] at hwait
  dsimp only at hwait
  generalize Queue.indexBefore (queue.index .processing)
    (Queue.subtractDuration now lockExpiration) = expired at hwait
  cases expired with
  | nil =>
      rw [Queue.recoverLocks] at hwait
      simp only [Bool.false_eq_true, if_false] at hwait
      cases hpending : Queue.indexBefore (queue.index .pending) (some now) with
      | nil =>
          rw [hpending] at hwait
          cases hwait
          rfl
      | cons candidate candidates =>
          rw [hpending] at hwait
          split at hwait
          · cases hwait
          · cases hwait
          · cases hwait
  | cons lock locks =>
      split at hwait
      · cases hwait
      · cases hwait
      · cases hwait

theorem signal_of_wait {queue next : Queue ε} {claimId : String} {maxAttempts now : Int}
    {lockExpiration : Option Int}
    (hwait : queue.claim claimId maxAttempts now lockExpiration = .ok (next, .wait)) :
    next.signal = queue.signal := by
  have hcleared (hnext : (queue.clearClaim claimId).claimNext claimId maxAttempts now
      lockExpiration = .ok (next, .wait)) : next.signal = queue.signal := by
    rw [eq_of_claimNext_wait hnext]
    rfl
  rw [Queue.claim] at hwait
  split at hwait
  · rw [eq_of_claimNext_wait hwait]
  · split at hwait
    · cases hwait
    · split_ifs at hwait
      · cases hwait
      · exact hcleared hwait
    · exact hcleared hwait

/-! ## Runs -/

def increments (queue next : Queue ε) : Nat := if next.signal = queue.signal then 0 else 1

def CountedStep (queue : Queue ε) (label : QueueCommit ε × Nat) (next : Queue ε) : Prop :=
  QueueStep queue label.1 next ∧ label.2 = increments queue next

/-- A pending row is added, whether its entry is visible yet or not. -/
def AddsPending (queue next : Queue ε) : Prop :=
  ∃ row sequence, (next.index .pending).get? row = some sequence ∧
    (queue.index .pending).get? row ≠ some sequence

theorem Signals.ne {queue next : Queue ε} (h : Signals queue next) : next.signal ≠ queue.signal := by
  rw [Signals, Queue.addSignal] at h
  rw [h]
  intro heq
  have hvalue := congrArg (Option.getD · 0) heq
  simp at hvalue

/-- A counted step adds a pending row only with an increment. -/
theorem PendingSound.bumps {queue next : Queue ε} {label : QueueCommit ε × Nat}
    (h : PendingSound queue) (hstep : CountedStep queue label next) :
    PendingSound next ∧
      Bumps label.2 (¬ AddsPending queue next) (queue.signal.getD 0) (next.signal.getD 0) := by
  obtain ⟨hcommit, hcount⟩ := hstep
  refine ⟨h.chain (hcommit.chain h), ?_⟩
  rcases hcommit.signals h with hquiet | hsignals
  · rw [hquiet.signal]
    refine .silent ?_
    rintro ⟨row, sequence, hrow, hnot⟩
    exact hnot (hquiet.pending row sequence hrow)
  · rw [increments, if_neg hsignals.ne] at hcount
    refine ⟨1, hcount.ge, ?_, fun hzero => by simp at hzero⟩
    rw [hsignals]
    rfl

/-- A claim has waited for what it saw in a state of a run. The signal that it watches has another
value after every later transaction that adds a pending row, for fewer than `2 ^ 64` increments. -/
theorem wait_wakes {commits : List (QueueCommit ε)} {seen waiting state next : Queue ε}
    (hrun : Run QueueStep Queue.empty commits seen) {claimId : String} {maxAttempts now : Int}
    {lockExpiration : Option Int}
    (hwait : seen.claim claimId maxAttempts now lockExpiration = .ok (waiting, .wait))
    {later : List (QueueCommit ε × Nat)} (hlater : Run CountedStep seen later state)
    {label : QueueCommit ε × Nat} (hstep : CountedStep state label next)
    (hadds : AddsPending state next)
    (hfew : ((later ++ [label]).map Prod.snd).sum < 2 ^ 64) :
    waiting.signal = seen.signal ∧ next.signal ≠ waiting.signal := by
  have hsound : PendingSound seen := PendingSound.empty.of_run hrun
  have hsignal := signal_of_wait hwait
  refine ⟨hsignal, fun heq => ?_⟩
  refine hlater.wakes (fun _ _ _ hstate hcommit => hstate.bumps hcommit) hsound hstep
    (not_not.mpr hadds) hfew ?_
  rw [heq, hsignal]

/-- A worker waits on an empty queue, and another one that has just started offers a job. -/
theorem wait_wakes_offer :
    ∃ waiting, (Queue.empty : Queue Unit).claim "worker" 10 0 (some 120000) = .ok (waiting, .wait) ∧
      ((Queue.empty : Queue Unit).offer "job" () 1).signal ≠ waiting.signal := by
  have hstep : CountedStep (Queue.empty : Queue Unit) (⟨.offer "job" (), 1⟩, 1)
      (Queue.empty.offer "job" () 1) := ⟨.offer _ 1 "job" (), by decide⟩
  have hadds : AddsPending (Queue.empty : Queue Unit) (Queue.empty.offer "job" () 1) :=
    ⟨toLex (1, 0), 0, rfl, by simp [Queue.empty]⟩
  refine ⟨_, rfl, ?_⟩
  have hwait : (Queue.empty : Queue Unit).claim "worker" 10 0 (some 120000) = .ok (_, .wait) := rfl
  exact (wait_wakes (.nil _) hwait (.nil _) hstep hadds (by decide)).2

end FoundationDbEffect.PersistedQueue
