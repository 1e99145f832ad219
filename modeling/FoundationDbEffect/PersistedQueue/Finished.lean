import FoundationDbEffect.PersistedQueue.Changes

/-!
# Finished entries

No transaction but a cleanup of its state changes a completed or a failed entry. Its id stays taken,
so an element that is offered under it again is not run again.
-/

namespace FoundationDbEffect.PersistedQueue

open FoundationDbEffect.Foundation
open Relation (ReflTransGen)

variable {ε : Type}

theorem TerminalState.entryState_injective : Function.Injective TerminalState.entryState := by
  intro left right h
  cases left <;> cases right <;> first | rfl | cases h

theorem TerminalState.ne_pending (state : TerminalState) : state.entryState ≠ .pending := by
  cases state <;> simp [entryState]

theorem TerminalState.ne_processing (state : TerminalState) : state.entryState ≠ .processing := by
  cases state <;> simp [entryState]

/-- Only a cleanup of its state changes a finished entry. -/
theorem Change.of_finished {now : Int} {transaction : QueueTransaction ε} {sequence : Nat}
    {entry : QueueEntryMetadata} {new : Option QueueEntryMetadata} {state : TerminalState}
    (hfinished : entry.state = state.entryState)
    (h : Change now transaction sequence (some entry) new) :
    ∃ timeToLive, transaction = .cleanup state timeToLive := by
  have hpending : entry.state ≠ .pending := hfinished ▸ state.ne_pending
  have hprocessing : entry.state ≠ .processing := hfinished ▸ state.ne_processing
  cases h with
  | recovered hstate _ _ => exact absurd hstate hprocessing
  | failed hstate => exact absurd hstate hpending
  | acquired hstate _ => exact absurd hstate hpending
  | refreshed hheld => exact absurd hheld.state hprocessing
  | finalized hheld _ => exact absurd hheld.state hprocessing
  | removed hstate =>
      rw [hfinished] at hstate
      exact ⟨_, by rw [TerminalState.entryState_injective hstate]⟩

theorem QueueStep.keeps_finished {queue next : Queue ε} {commit : QueueCommit ε}
    (hstep : QueueStep queue commit next) (h : PendingSound queue) {sequence : Nat}
    {entry : QueueEntryMetadata} {state : TerminalState}
    (hentry : queue.metadata.get? sequence = some entry)
    (hfinished : entry.state = state.entryState)
    (hkept : ∀ timeToLive, commit.transaction ≠ .cleanup state timeToLive) :
    next.metadata.get? sequence = some entry := by
  have hchanges := changes_of_chain (hstep.chain h) sequence
  rw [hentry] at hchanges
  generalize next.metadata.get? sequence = new at hchanges ⊢
  induction hchanges with
  | refl => rfl
  | tail _ hchange ih =>
      rw [ih] at hchange
      obtain ⟨timeToLive, hcleanup⟩ := hchange.of_finished hfinished
      exact absurd hcleanup (hkept timeToLive)

theorem keeps_finished_of_run {queue queue' : Queue ε} {commits : List (QueueCommit ε)}
    (hrun : Run QueueStep queue commits queue') (h : PendingSound queue) {sequence : Nat}
    {entry : QueueEntryMetadata} {state : TerminalState}
    (hentry : queue.metadata.get? sequence = some entry)
    (hfinished : entry.state = state.entryState)
    (hkept : ∀ commit ∈ commits, ∀ timeToLive,
      commit.transaction ≠ .cleanup state timeToLive) :
    queue'.metadata.get? sequence = some entry := by
  induction hrun with
  | nil => exact hentry
  | snoc hbefore hlast ih =>
      have hstored := ih fun commit hmem => hkept commit (List.mem_append_left _ hmem)
      have hsound := h.of_run hbefore
      exact hlast.keeps_finished hsound hstored hfinished
        (hkept _ (List.mem_append_right _ (List.mem_singleton_self _)))

structure Finished (queue : Queue ε) (sequence : Nat) (entry : QueueEntryMetadata) : Prop where
  stored : queue.metadata.get? sequence = some entry
  unclaimed : ∀ claimId maxAttempts now lockExpiration next claimed,
    queue.claim claimId maxAttempts now lockExpiration = .ok (next, .claimed claimed) →
      claimed.sequence ≠ sequence
  refreshed : ∀ claimId now, queue.refreshClaim claimId sequence now = queue
  finalized : ∀ claimId attempts maxAttempts retryDelay exit now,
    queue.finalizeClaim claimId sequence attempts maxAttempts retryDelay exit now = queue
  offered : ∀ element now, queue.offer entry.id element now = queue

theorem heldSince_finished {queue : Queue ε} {sequence : Nat} {entry : QueueEntryMetadata}
    {state : TerminalState} (hentry : queue.metadata.get? sequence = some entry)
    (hfinished : entry.state = state.entryState) (claimId : String) :
    queue.heldSince claimId sequence = none := by
  rw [Option.eq_none_iff_forall_ne_some]
  rintro ⟨held, acquiredAt⟩ hheld
  obtain ⟨hget, hholds⟩ := heldBy_of_heldSince hheld
  rw [hentry] at hget
  cases hget
  exact state.ne_processing (hfinished.symm.trans hholds.state)

theorem ClaimsEntry.processing {queue next : Queue ε} {claimId : String}
    {maxAttempts now : Int} {lockExpiration : Option Int} {claimed : Queue.ClaimedEntry ε}
    (h : ClaimsEntry queue next claimId maxAttempts now lockExpiration claimed) :
    ∃ entry, next.metadata.get? claimed.sequence = some entry ∧ entry.state = .processing := by
  rcases h with hanswers | ⟨_, -, hacquires⟩
  · exact ⟨_, hanswers.same ▸ hanswers.stored, hanswers.state⟩
  · exact ⟨_, hacquires.stored, hacquires.held.state⟩

theorem finished_of_stored {queue : Queue ε} (hpending : PendingSound queue)
    (hsound : QueueSound queue) {sequence : Nat} {entry : QueueEntryMetadata}
    {state : TerminalState} (hentry : queue.metadata.get? sequence = some entry)
    (hfinished : entry.state = state.entryState) : Finished queue sequence entry := by
  have hheld := heldSince_finished hentry hfinished
  constructor
  case stored => exact hentry
  case unclaimed =>
    intro claimId maxAttempts now lockExpiration next claimed hclaim hsequence
    obtain ⟨held, hget, hprocessing⟩ := ((hpending.claim hclaim).2 claimed rfl).processing
    have hkept := (QueueStep.claim now claimId maxAttempts lockExpiration hclaim).keeps_finished
      hpending hentry hfinished (by simp)
    rw [hsequence, hkept] at hget
    cases hget
    exact state.ne_processing (hfinished.symm.trans hprocessing)
  case refreshed =>
    intro claimId now
    rw [Queue.refreshClaim, hheld claimId]
  case finalized =>
    intro claimId attempts maxAttempts retryDelay exit now
    rw [Queue.finalizeClaim, hheld claimId]
  case offered =>
    intro element now
    rw [Queue.offer, (hsound.invariant.ids entry.id sequence).mpr ⟨entry, hentry, rfl⟩]

/-- An entry that is completed or failed in a reachable state stays as it is in every run without a
cleanup of its state: no claim returns it, no refresh or finalize of a former holder has an effect,
and an offer under its id changes nothing. -/
theorem finished_of_run {queue : Queue ε} {commits : List (QueueCommit ε)}
    (hrun : Run QueueStep Queue.empty commits queue) {sequence : Nat}
    {entry : QueueEntryMetadata} {state : TerminalState}
    (hentry : queue.metadata.get? sequence = some entry)
    (hfinished : entry.state = state.entryState) {later : List (QueueCommit ε)}
    {queue' : Queue ε} (hlater : Run QueueStep queue later queue')
    (hclock : ∀ commit ∈ commits ++ later, commit.now ≤ maxSafeInteger)
    (hkept : ∀ commit ∈ later, ∀ timeToLive,
      commit.transaction ≠ .cleanup state timeToLive) : Finished queue' sequence entry := by
  have hpending := PendingSound.empty.of_run hrun
  have hsound := QueueSound.of_run hrun
    fun commit hmem => hclock commit (List.mem_append_left _ hmem)
  have hlaterSound : QueueSound queue' := hlater.invariant
    (fun _ _ _ hnow hstep h => QueueStep.sound hstep h hnow)
    (fun commit hmem => hclock commit (List.mem_append_right _ hmem)) hsound
  exact finished_of_stored (hpending.of_run hlater) hlaterSound
    (keeps_finished_of_run hlater hpending hentry hfinished hkept) hfinished

def completedJob : List (QueueCommit Unit) :=
  [⟨.offer "job" (), 0⟩, ⟨.claim "first" 10 (some 120000), 1000⟩,
    ⟨.finalizeClaim "first" 0 1 10 none .success, 2000⟩]

theorem finished_of_run_completedJob : ∃ queue queue' entry,
    Run QueueStep Queue.empty completedJob queue ∧
      Run QueueStep queue [⟨.offer "job" (), 3000⟩] queue' ∧
      entry.state = .completed ∧ Finished queue' 0 entry := by
  obtain ⟨queue, hrun, entry, hentry, hstate⟩ :
      ∃ queue, Run QueueStep (Queue.empty : Queue Unit) completedJob queue ∧
        ∃ entry, queue.metadata.get? 0 = some entry ∧
          entry.state = TerminalState.completed.entryState :=
    ⟨_, .snoc (.snoc (.snoc (.nil _) (.offer _ _ _ _)) (.claim _ _ _ _ rfl))
      (.finalizeClaim _ _ _ _ _ _ _ _), _, rfl, rfl⟩
  have hlater := Run.single (QueueStep.offer queue 3000 "job" ())
  exact ⟨queue, _, entry, hrun, hlater, hstate,
    finished_of_run hrun hentry hstate hlater (by decide) (by simp)⟩

end FoundationDbEffect.PersistedQueue
