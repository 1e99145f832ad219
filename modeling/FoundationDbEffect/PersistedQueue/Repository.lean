import FoundationDbEffect.Foundation.OrderedMap
import FoundationDbEffect.Foundation.Transition
import Mathlib.Algebra.Group.Int.Defs
import Mathlib.Data.Prod.Lex
import Mathlib.Data.String.Basic
import Mathlib.Data.Int.Order.Basic

/-!
# The persisted queue repository

A queue keeps the metadata and the element of each entry under its sequence, the sequence of
each accepted id, and one time index for each state of an entry: pending entries by the time
they become visible, locks by the time of acquisition, completed and failed entries by the
time of their last update. Claims point from a claim id to the sequence it holds.

All reads of a queue transaction raise conflicts, so a committed transaction is a function of
the state it commits on. Times are whole milliseconds. A fractional duration only ever enters
through the floor of `now - duration` or the ceiling of `now + duration`, which are the
differences and sums with the duration rounded up.
-/

namespace FoundationDbEffect.PersistedQueue

open FoundationDbEffect.Foundation

def indexBatchSize : Nat := 100

def maxSafeInteger : Int := 2 ^ 53 - 1

def timestamp (value : Int) : Int :=
  max 0 (min maxSafeInteger value)

inductive EntryState where
  | pending
  | processing
  | completed
  | failed
  deriving DecidableEq, Repr

structure QueueEntryMetadata where
  id : String
  attempts : Nat
  state : EntryState
  visibleAt : Int
  acquiredAt : Option Int
  acquiredBy : Option String
  updatedAt : Int
  deriving DecidableEq, Repr

/-- How the work on a claimed entry ended, with the two questions asked of its cause. -/
inductive ClaimExit where
  | success
  | failure (hasDeadLetter hasInterruptsOnly : Bool)
  deriving DecidableEq, Repr

inductive TerminalState where
  | completed
  | failed
  deriving DecidableEq, Repr

def TerminalState.entryState : TerminalState → EntryState
  | .completed => .completed
  | .failed => .failed

structure QueueStoreFailure where
  reason : String
  deriving DecidableEq, Repr

abbrev TimeIndex := OrderedMap (Int ×ₗ Nat) Nat

/-- The rows of one queue. The index of the processing entries is the one of the locks. -/
structure Queue (ε : Type) where
  counter : Option Nat
  signal : Option (BitVec 64)
  metadata : OrderedMap Nat QueueEntryMetadata
  elements : OrderedMap Nat ε
  ids : OrderedMap String Nat
  index : EntryState → TimeIndex
  claims : OrderedMap String Nat

namespace Queue

variable {ε : Type}

def empty : Queue ε where
  counter := none
  signal := none
  metadata := ∅
  elements := ∅
  ids := ∅
  index := fun _ => ∅
  claims := ∅

/-! ## Rows -/

def setIndex (queue : Queue ε) (state : EntryState) (time : Int) (sequence : Nat) : Queue ε :=
  { queue with
    index := Function.update queue.index state
      ((queue.index state).set (toLex (timestamp time, sequence)) sequence) }

def clearIndex (queue : Queue ε) (state : EntryState) (key : Int ×ₗ Nat) : Queue ε :=
  { queue with index := Function.update queue.index state ((queue.index state).clear key) }

def writeEntryMetadata (queue : Queue ε) (sequence : Nat) (entry : QueueEntryMetadata) :
    Queue ε :=
  { queue with metadata := queue.metadata.set sequence entry }

def createEntry (queue : Queue ε) (sequence : Nat) (entry : QueueEntryMetadata) (element : ε) :
    Queue ε :=
  { queue.writeEntryMetadata sequence entry with elements := queue.elements.set sequence element }

def clearEntry (queue : Queue ε) (sequence : Nat) : Queue ε :=
  { queue with
    metadata := queue.metadata.clear sequence
    elements := queue.elements.clear sequence }

def setClaim (queue : Queue ε) (claimId : String) (sequence : Nat) : Queue ε :=
  { queue with claims := queue.claims.set claimId sequence }

def clearClaim (queue : Queue ε) (claimId : String) : Queue ε :=
  { queue with claims := queue.claims.clear claimId }

def addSignal (queue : Queue ε) : Queue ε :=
  { queue with signal := some (queue.signal.getD 0 + 1) }

def readEntry (queue : Queue ε) (sequence : Nat) :
    Except QueueStoreFailure (Option (QueueEntryMetadata × ε)) :=
  match queue.metadata.get? sequence, queue.elements.get? sequence with
  | none, none => .ok none
  | some metadata, some element => .ok (some (metadata, element))
  | _, _ => .error ⟨"incomplete persisted queue entry"⟩

def beforeEnd : Option Int → Int ×ₗ Nat → Bool
  | none, _ => false
  | some time, key =>
    if time < 0 then false
    else if time ≥ maxSafeInteger then true
    else (ofLex key).1 < time + 1

def indexBefore (index : TimeIndex) (time : Option Int) : List ((Int ×ₗ Nat) × Nat) :=
  (index.rows (beforeEnd time)).take indexBatchSize

def subtractDuration (now : Int) (duration : Option Int) : Option Int :=
  duration.map (now - ·)

def addDelay (now : Int) : Option Int → Int
  | some milliseconds => min maxSafeInteger (now + max 0 milliseconds)
  | none => maxSafeInteger

/-! ## Offers -/

def offer (queue : Queue ε) (id : String) (element : ε) (now : Int) : Queue ε :=
  match queue.ids.get? id with
  | some _ => queue
  | none =>
    let sequence := queue.counter.getD 0
    let entry : QueueEntryMetadata :=
      { id
        attempts := 0
        state := .pending
        visibleAt := now
        acquiredAt := none
        acquiredBy := none
        updatedAt := now }
    let queue := queue.createEntry sequence entry element
    let queue := { queue with ids := queue.ids.set id sequence }
    let queue := queue.setIndex .pending now sequence
    let queue := { queue with counter := some (sequence + 1) }
    queue.addSignal

/-! ## Claims -/

structure ClaimedEntry (ε : Type) where
  claimId : String
  sequence : Nat
  entry : QueueEntryMetadata
  element : ε

inductive ClaimResult (ε : Type) where
  | claimed (entry : ClaimedEntry ε)
  | progressed
  | wait

/-- The recovery of one lock: a stale row is dropped, an expired one sends its entry back, or
away when it has no attempt left. -/
def recoverLock (queue : Queue ε) (maxAttempts : Int) (now : Int) (expiredAt : Option Int)
    (lock : (Int ×ₗ Nat) × Nat) : Queue ε × Bool :=
  let sequence := lock.2
  let stale := (queue.clearIndex .processing lock.1, false)
  match queue.metadata.get? sequence with
  | none => stale
  | some entry =>
    if entry.state ≠ .processing ∨ entry.acquiredAt.all fun acquiredAt =>
        expiredAt.all (acquiredAt > ·) then stale
    else
      let queue := queue.clearIndex .processing lock.1
      let queue := match entry.acquiredBy with
        | some claimId => queue.clearClaim claimId
        | none => queue
      let recovered : QueueEntryMetadata :=
        if (entry.attempts : Int) ≥ maxAttempts then
          { entry with
            state := .failed
            acquiredAt := none
            acquiredBy := none
            updatedAt := now }
        else
          { entry with
            state := .pending
            visibleAt := now
            acquiredAt := none
            acquiredBy := none
            updatedAt := now }
      let queue := queue.writeEntryMetadata sequence recovered
      (queue.setIndex (if recovered.state = .failed then .failed else .pending) now sequence,
        recovered.state = .pending)

def recoverLocks (maxAttempts : Int) (now : Int) (expiredAt : Option Int) :
    List ((Int ×ₗ Nat) × Nat) → Queue ε → Bool → Queue ε × Bool
  | [], queue, recoveredPending => (queue, recoveredPending)
  | lock :: locks, queue, recoveredPending =>
    let (queue, pending) := recoverLock queue maxAttempts now expiredAt lock
    recoverLocks maxAttempts now expiredAt locks queue (recoveredPending || pending)

/-- One candidate of the pending index: it is dropped, moved or acquired. -/
def tryPending (queue : Queue ε) (claimId : String) (maxAttempts : Int) (now : Int)
    (candidate : (Int ×ₗ Nat) × Nat) :
    Except QueueStoreFailure (Queue ε × Option (ClaimedEntry ε)) :=
  let sequence := candidate.2
  match queue.readEntry sequence with
  | .error failure => .error failure
  | .ok none => .ok (queue.clearIndex .pending candidate.1, none)
  | .ok (some (entry, element)) =>
    if entry.state ≠ .pending then .ok (queue.clearIndex .pending candidate.1, none)
    else if entry.visibleAt > now then
      .ok ((queue.clearIndex .pending candidate.1).setIndex .pending entry.visibleAt sequence,
        none)
    else if (entry.attempts : Int) ≥ maxAttempts then
      let failed : QueueEntryMetadata := { entry with state := .failed, updatedAt := now }
      let queue := queue.clearIndex .pending candidate.1
      let queue := queue.writeEntryMetadata sequence failed
      .ok (queue.setIndex .failed now sequence, none)
    else
      let processing : QueueEntryMetadata :=
        { entry with
          attempts := entry.attempts + 1
          state := .processing
          acquiredAt := some now
          acquiredBy := some claimId
          updatedAt := now }
      let queue := queue.clearIndex .pending candidate.1
      let queue := queue.writeEntryMetadata sequence processing
      let queue := queue.setIndex .processing now sequence
      .ok (queue.setClaim claimId sequence, some ⟨claimId, sequence, processing, element⟩)

def tryPendings (claimId : String) (maxAttempts : Int) (now : Int) :
    List ((Int ×ₗ Nat) × Nat) → Queue ε →
      Except QueueStoreFailure (Queue ε × Option (ClaimedEntry ε))
  | [], queue => .ok (queue, none)
  | candidate :: candidates, queue =>
    match tryPending queue claimId maxAttempts now candidate with
    | .error failure => .error failure
    | .ok (queue, some claimed) => .ok (queue, some claimed)
    | .ok (queue, none) => tryPendings claimId maxAttempts now candidates queue

/-- The part of a claim after the claim id turned out to hold no entry. -/
def claimNext (queue : Queue ε) (claimId : String) (maxAttempts : Int) (now : Int)
    (lockExpiration : Option Int) : Except QueueStoreFailure (Queue ε × ClaimResult ε) :=
  let expiredAt := subtractDuration now lockExpiration
  let expired := indexBefore (queue.index .processing) expiredAt
  let (queue, recoveredPending) := recoverLocks maxAttempts now expiredAt expired queue false
  let queue := if recoveredPending then queue.addSignal else queue
  let pending := indexBefore (queue.index .pending) (some now)
  match tryPendings claimId maxAttempts now pending queue with
  | .error failure => .error failure
  | .ok (queue, some claimed) => .ok (queue, .claimed claimed)
  | .ok (queue, none) =>
    .ok (queue, if !expired.isEmpty || !pending.isEmpty then .progressed else .wait)

def claim (queue : Queue ε) (claimId : String) (maxAttempts : Int) (now : Int)
    (lockExpiration : Option Int) : Except QueueStoreFailure (Queue ε × ClaimResult ε) :=
  match queue.claims.get? claimId with
  | none => queue.claimNext claimId maxAttempts now lockExpiration
  | some sequence =>
    match queue.readEntry sequence with
    | .error failure => .error failure
    | .ok (some (entry, element)) =>
      if entry.state = .processing ∧ entry.acquiredBy = some claimId then
        .ok (queue, .claimed ⟨claimId, sequence, entry, element⟩)
      else (queue.clearClaim claimId).claimNext claimId maxAttempts now lockExpiration
    | .ok none => (queue.clearClaim claimId).claimNext claimId maxAttempts now lockExpiration

/-- The claim still holds its entry, acquired at the returned time. -/
def heldSince (queue : Queue ε) (claimId : String) (sequence : Nat) :
    Option (QueueEntryMetadata × Int) :=
  match queue.metadata.get? sequence with
  | none => none
  | some entry =>
    if entry.state = .processing ∧ entry.acquiredBy = some claimId then
      entry.acquiredAt.map (entry, ·)
    else none

def refreshClaim (queue : Queue ε) (claimId : String) (sequence : Nat) (now : Int) : Queue ε :=
  match queue.heldSince claimId sequence with
  | none => queue
  | some (entry, acquiredAt) =>
    let queue := queue.clearIndex .processing (toLex (timestamp acquiredAt, sequence))
    let queue := queue.writeEntryMetadata sequence { entry with acquiredAt := some now }
    queue.setIndex .processing now sequence

/-- The state that an exit sends an entry to, the time it is visible again, and whether its
attempt is taken back. -/
def finalState (exit : ClaimExit) (attempts : Nat) (maxAttempts : Int) (now : Int)
    (retryDelay : Option Int) : EntryState × Int × Bool :=
  match exit with
  | .success => (.completed, now, false)
  | .failure hasDeadLetter hasInterruptsOnly =>
    if hasDeadLetter then (.failed, now, false)
    else if hasInterruptsOnly then (.pending, now, true)
    else if (attempts : Int) ≥ maxAttempts then (.failed, now, false)
    else (.pending, addDelay now retryDelay, false)

def finalizeClaim (queue : Queue ε) (claimId : String) (sequence attempts : Nat)
    (maxAttempts : Int) (retryDelay : Option Int) (exit : ClaimExit) (now : Int) : Queue ε :=
  let (state, visibleAt, decrementAttempt) :=
    finalState exit attempts maxAttempts now retryDelay
  match queue.heldSince claimId sequence with
  | none => queue
  | some (entry, acquiredAt) =>
    let queue := queue.clearIndex .processing (toLex (timestamp acquiredAt, sequence))
    let queue := queue.clearClaim claimId
    let updated : QueueEntryMetadata :=
      { entry with
        attempts := if decrementAttempt then entry.attempts - 1 else entry.attempts
        state
        visibleAt
        acquiredAt := none
        acquiredBy := none
        updatedAt := now }
    let queue := queue.writeEntryMetadata sequence updated
    if state = .pending then (queue.setIndex .pending visibleAt sequence).addSignal
    else queue.setIndex (if state = .completed then .completed else .failed) now sequence

/-! ## Cleanup -/

def cleanupRow (queue : Queue ε) (state : TerminalState) (cutoff : Option Int)
    (indexed : (Int ×ₗ Nat) × Nat) : Queue ε :=
  let sequence := indexed.2
  let cleared := match queue.metadata.get? sequence with
    | none => queue
    | some entry =>
      if entry.state = state.entryState ∧ cutoff.any (entry.updatedAt ≤ ·) then
        let queue := queue.clearEntry sequence
        { queue with ids := queue.ids.clear entry.id }
      else queue
  cleared.clearIndex state.entryState indexed.1

/-- One transaction of a cleanup, with the number of rows it went through. -/
def cleanupBatch (queue : Queue ε) (state : TerminalState) (cutoff : Option Int) :
    Queue ε × Nat :=
  let entries := indexBefore (queue.index state.entryState) cutoff
  (entries.foldl (fun queue indexed => queue.cleanupRow state cutoff indexed) queue,
    entries.length)

/-- A cleanup without other transactions between its own, as far as `fuel` of them take it. -/
def cleanupState (state : TerminalState) (cutoff : Option Int) : Nat → Queue ε → Option (Queue ε)
  | 0, _ => none
  | fuel + 1, queue =>
    let (next, count) := queue.cleanupBatch state cutoff
    if count < indexBatchSize then some next else cleanupState state cutoff fuel next

end Queue

/-! ## Transactions -/

inductive QueueTransaction (ε : Type) where
  | offer (id : String) (element : ε)
  | claim (claimId : String) (maxAttempts : Int) (lockExpiration : Option Int)
  | refreshClaim (claimId : String) (sequence : Nat)
  | finalizeClaim (claimId : String) (sequence attempts : Nat) (maxAttempts : Int)
      (retryDelay : Option Int) (exit : ClaimExit)
  | cleanup (state : TerminalState) (timeToLive : Option Int)

structure QueueCommit (ε : Type) where
  transaction : QueueTransaction ε
  now : Int

inductive QueueStep {ε : Type} : Queue ε → QueueCommit ε → Queue ε → Prop where
  | offer (queue : Queue ε) (now : Int) (id : String) (element : ε) :
      QueueStep queue ⟨.offer id element, now⟩ (queue.offer id element now)
  | claim {queue next : Queue ε} (now : Int) (claimId : String) (maxAttempts : Int)
      (lockExpiration : Option Int) {result : Queue.ClaimResult ε}
      (h : queue.claim claimId maxAttempts now lockExpiration = .ok (next, result)) :
      QueueStep queue ⟨.claim claimId maxAttempts lockExpiration, now⟩ next
  | refreshClaim (queue : Queue ε) (now : Int) (claimId : String) (sequence : Nat) :
      QueueStep queue ⟨.refreshClaim claimId sequence, now⟩
        (queue.refreshClaim claimId sequence now)
  | finalizeClaim (queue : Queue ε) (now : Int) (claimId : String) (sequence attempts : Nat)
      (maxAttempts : Int) (retryDelay : Option Int) (exit : ClaimExit) :
      QueueStep queue ⟨.finalizeClaim claimId sequence attempts maxAttempts retryDelay exit, now⟩
        (queue.finalizeClaim claimId sequence attempts maxAttempts retryDelay exit now)
  | cleanup (queue : Queue ε) (now : Int) (state : TerminalState) (timeToLive : Option Int) :
      QueueStep queue ⟨.cleanup state timeToLive, now⟩
        (queue.cleanupBatch state (Queue.subtractDuration now timeToLive)).1

end FoundationDbEffect.PersistedQueue
