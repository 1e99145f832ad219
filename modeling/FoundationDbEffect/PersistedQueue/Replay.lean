import FoundationDbEffect.PersistedQueue.Invariant

/-!
# Replays of queue transactions

A transaction whose commit may or may not have happened is run again. Its first run leaves what
the second one recognizes: the id of an offer, the new time of a refresh, the end of a claim, or
the claim itself.
-/

namespace FoundationDbEffect.PersistedQueue

open FoundationDbEffect.Foundation

variable {ε : Type}

namespace Queue

/-! ## Writes that change nothing -/

theorem writeEntryMetadata_of_stored {queue : Queue ε} {sequence : Nat}
    {entry : QueueEntryMetadata} (h : queue.metadata.get? sequence = some entry) :
    queue.writeEntryMetadata sequence entry = queue := by
  have hmetadata : queue.metadata.set sequence entry = queue.metadata := by
    ext sequence' entry'
    rw [OrderedMap.get?_set]
    split_ifs with heq
    · rw [heq, h]
    · rfl
  rw [writeEntryMetadata, hmetadata]

theorem setIndex_clearIndex_of_listed {queue : Queue ε} {state : EntryState} {time : Int}
    {sequence : Nat}
    (h : (queue.index state).get? (toLex (timestamp time, sequence)) = some sequence) :
    (queue.clearIndex state (toLex (timestamp time, sequence))).setIndex state time sequence =
      queue := by
  have hindex : ((queue.clearIndex state (toLex (timestamp time, sequence))).setIndex state time
      sequence).index = queue.index := by
    funext state'
    ext row sequence'
    rw [get?_setIndex, get?_clearIndex]
    split_ifs with heq
    · rw [heq.1, heq.2, h]
    · rfl
  calc (queue.clearIndex state (toLex (timestamp time, sequence))).setIndex state time sequence
      = { queue with index := ((queue.clearIndex state
          (toLex (timestamp time, sequence))).setIndex state time sequence).index } := rfl
    _ = queue := by rw [hindex]

/-! ## Offers, refreshes and exits -/

theorem offer_of_accepted {queue : Queue ε} {id : String} (h : (queue.ids.get? id).isSome)
    (element : ε) (now : Int) : queue.offer id element now = queue := by
  obtain ⟨sequence, hsequence⟩ := Option.isSome_iff_exists.mp h
  rw [offer, hsequence]

theorem offer_offer (queue : Queue ε) (id : String) (element : ε) (now : Int) :
    (queue.offer id element now).offer id element now = queue.offer id element now := by
  refine offer_of_accepted ?_ element now
  rw [offer]
  cases hid : queue.ids.get? id with
  | some sequence => rw [hid]; rfl
  | none =>
      change ((queue.ids.set id (queue.counter.getD 0)).get? id).isSome
      rw [OrderedMap.get?_set_self]
      rfl

theorem refreshClaim_refreshClaim (queue : Queue ε) (claimId : String) (sequence : Nat)
    (now : Int) :
    (queue.refreshClaim claimId sequence now).refreshClaim claimId sequence now =
      queue.refreshClaim claimId sequence now := by
  cases hheld : queue.heldSince claimId sequence with
  | none => simp only [refreshClaim, hheld]
  | some held =>
      obtain ⟨entry, acquiredAt⟩ := held
      obtain ⟨-, hstate, hclaim, -⟩ := heldSince_eq_some hheld
      have hfirst : queue.refreshClaim claimId sequence now =
          ((queue.clearIndex .processing
            (toLex (timestamp acquiredAt, sequence))).writeEntryMetadata sequence
              { entry with acquiredAt := some now }).setIndex .processing now sequence := by
        simp only [refreshClaim, hheld]
      generalize queue.refreshClaim claimId sequence now = refreshed at hfirst ⊢
      have hstored : refreshed.metadata.get? sequence =
          some { entry with acquiredAt := some now } := by
        rw [hfirst]
        exact OrderedMap.get?_set_self _ _ _
      have hlisted : (refreshed.index .processing).get? (toLex (timestamp now, sequence)) =
          some sequence := by
        rw [hfirst, get?_setIndex, if_pos ⟨rfl, rfl⟩]
      have hagain : refreshed.heldSince claimId sequence =
          some ({ entry with acquiredAt := some now }, now) := by
        simp [heldSince, hstored, hstate, hclaim]
      calc refreshed.refreshClaim claimId sequence now
          = ((refreshed.writeEntryMetadata sequence
              { entry with acquiredAt := some now }).clearIndex .processing
                (toLex (timestamp now, sequence))).setIndex .processing now sequence := by
            simp only [refreshClaim, hagain]
            rfl
        _ = refreshed := by
            rw [writeEntryMetadata_of_stored hstored, setIndex_clearIndex_of_listed hlisted]

theorem finalizeClaim_of_not_held {queue : Queue ε} {claimId : String} {sequence : Nat}
    (h : queue.heldSince claimId sequence = none) (attempts : Nat) (maxAttempts : Int)
    (retryDelay : Option Int) (exit : ClaimExit) (now : Int) :
    queue.finalizeClaim claimId sequence attempts maxAttempts retryDelay exit now = queue := by
  simp only [finalizeClaim, h]

theorem finalizeClaim_finalizeClaim (queue : Queue ε) (claimId : String) (sequence attempts : Nat)
    (maxAttempts : Int) (retryDelay : Option Int) (exit : ClaimExit) (now : Int) :
    (queue.finalizeClaim claimId sequence attempts maxAttempts retryDelay exit now).finalizeClaim
        claimId sequence attempts maxAttempts retryDelay exit now =
      queue.finalizeClaim claimId sequence attempts maxAttempts retryDelay exit now := by
  refine finalizeClaim_of_not_held ?_ attempts maxAttempts retryDelay exit now
  cases hheld : queue.heldSince claimId sequence with
  | none => rw [finalizeClaim_of_not_held hheld, hheld]
  | some held =>
      obtain ⟨entry, acquiredAt⟩ := held
      have hstate := finalState_ne_processing exit attempts maxAttempts now retryDelay
      rw [finalizeClaim, hheld]
      generalize finalState exit attempts maxAttempts now retryDelay = final at hstate ⊢
      obtain ⟨state, visibleAt, decrementAttempt⟩ := final
      dsimp only at hstate ⊢
      have hended {next : Queue ε} {attempts : Nat}
          (hmetadata : next.metadata = queue.metadata.set sequence
            ⟨entry.id, attempts, state, visibleAt, none, none, now⟩) :
          next.heldSince claimId sequence = none := by
        simp [heldSince, hmetadata, hstate]
      split_ifs
      all_goals exact hended rfl

/-! ## Claims -/

structure Answered (queue : Queue ε) (claimId : String) (claimed : ClaimedEntry ε) : Prop where
  named : claimed.claimId = claimId
  claim : queue.claims.get? claimId = some claimed.sequence
  read : queue.readEntry claimed.sequence = .ok (some (claimed.entry, claimed.element))
  state : claimed.entry.state = .processing
  acquiredBy : claimed.entry.acquiredBy = some claimId

theorem Answered.again {queue : Queue ε} {claimId : String} {claimed : ClaimedEntry ε}
    (h : queue.Answered claimId claimed) (maxAttempts now : Int) (lockExpiration : Option Int) :
    queue.claim claimId maxAttempts now lockExpiration = .ok (queue, .claimed claimed) := by
  have hnamed := h.named
  simp only [Queue.claim, h.claim, h.read, h.state, h.acquiredBy, and_self, if_true]
  cases claimed
  rw [← hnamed]

theorem answered_of_tryPending {queue next : Queue ε} {claimId : String} {maxAttempts now : Int}
    {candidate : (Int ×ₗ Nat) × Nat} {claimed : ClaimedEntry ε}
    (h : queue.tryPending claimId maxAttempts now candidate = .ok (next, some claimed)) :
    next.Answered claimId claimed := by
  rw [tryPending] at h
  dsimp only at h
  split at h
  · cases h
  · cases h
  · next entry element hread =>
      split_ifs at h
      · cases h
      · cases h
      · cases h
      · cases h
        refine ⟨rfl, OrderedMap.get?_set_self _ _ _, ?_, rfl, rfl⟩
        obtain ⟨-, helement⟩ := readEntry_eq_some hread
        change readEntry _ candidate.2 = _
        simp [readEntry, setClaim, setIndex, writeEntryMetadata, clearIndex, helement]

theorem answered_of_tryPendings {claimId : String} {maxAttempts now : Int}
    (candidates : List ((Int ×ₗ Nat) × Nat)) {queue next : Queue ε} {claimed : ClaimedEntry ε}
    (h : tryPendings claimId maxAttempts now candidates queue = .ok (next, some claimed)) :
    next.Answered claimId claimed := by
  induction candidates generalizing queue with
  | nil => cases h
  | cons candidate candidates ih =>
      rw [tryPendings] at h
      split at h
      · cases h
      · next hcandidate =>
          cases h
          exact answered_of_tryPending hcandidate
      · exact ih h

theorem answered_of_claimNext {queue next : Queue ε} {claimId : String} {maxAttempts now : Int}
    {lockExpiration : Option Int} {claimed : ClaimedEntry ε}
    (h : queue.claimNext claimId maxAttempts now lockExpiration = .ok (next, .claimed claimed)) :
    next.Answered claimId claimed := by
  rw [claimNext] at h
  dsimp only at h
  split at h
  · cases h
  · next htry =>
      cases h
      exact answered_of_tryPendings _ htry
  · split_ifs at h <;> cases h

theorem answered_of_claim {queue next : Queue ε} {claimId : String} {maxAttempts now : Int}
    {lockExpiration : Option Int} {claimed : ClaimedEntry ε}
    (h : queue.claim claimId maxAttempts now lockExpiration = .ok (next, .claimed claimed)) :
    next.Answered claimId claimed := by
  rw [claim] at h
  split at h
  · exact answered_of_claimNext h
  · next sequence hclaim =>
      split at h
      · cases h
      · next entry element hread =>
          split_ifs at h with hheld
          · cases h
            exact ⟨rfl, hclaim, hread, hheld.1, hheld.2⟩
          · exact answered_of_claimNext h
      · exact answered_of_claimNext h

end Queue

/-- A transaction that is run again right after it committed changes nothing, and a claim that was
answered is answered alike. -/
theorem transactions_replay (queue : Queue ε) :
    (∀ id element now,
      (queue.offer id element now).offer id element now = queue.offer id element now) ∧
    (∀ claimId sequence now,
      (queue.refreshClaim claimId sequence now).refreshClaim claimId sequence now =
        queue.refreshClaim claimId sequence now) ∧
    (∀ claimId sequence attempts maxAttempts retryDelay exit now,
      (queue.finalizeClaim claimId sequence attempts maxAttempts retryDelay exit
          now).finalizeClaim claimId sequence attempts maxAttempts retryDelay exit now =
        queue.finalizeClaim claimId sequence attempts maxAttempts retryDelay exit now) ∧
    ∀ claimId maxAttempts now lockExpiration next claimed,
      queue.claim claimId maxAttempts now lockExpiration = .ok (next, .claimed claimed) →
      next.claim claimId maxAttempts now lockExpiration = .ok (next, .claimed claimed) :=
  ⟨queue.offer_offer, queue.refreshClaim_refreshClaim, queue.finalizeClaim_finalizeClaim,
    fun _ maxAttempts now lockExpiration _ _ h =>
      (Queue.answered_of_claim h).again maxAttempts now lockExpiration⟩

/-- The claim of a job that has been offered. -/
theorem transactions_replay_offered :
    ∃ next claimed, ((Queue.empty : Queue Unit).offer "job" () 0).claim "worker" 10 1000
        (some 120000) = .ok (next, .claimed claimed) ∧
      next.claim "worker" 10 1000 (some 120000) = .ok (next, .claimed claimed) :=
  ⟨_, _, rfl, (transactions_replay ((Queue.empty : Queue Unit).offer "job" () 0)).2.2.2
    "worker" 10 1000 (some 120000) _ _ rfl⟩

end FoundationDbEffect.PersistedQueue
