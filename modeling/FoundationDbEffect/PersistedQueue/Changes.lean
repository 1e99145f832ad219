import FoundationDbEffect.PersistedQueue.Invariant
import Mathlib.Logic.Relation

/-!
# Changes of a queue entry

A transaction rewrites the entries of a queue one after another, each in one of a few ways. The
rows of the pending entries are kept in step by each of them, for any clock.
-/

namespace FoundationDbEffect.PersistedQueue

open FoundationDbEffect.Foundation
open Relation (ReflTransGen)

variable {ε : Type}

/-! ## Changes -/

def offeredEntry (id : String) (now : Int) : QueueEntryMetadata :=
  { id
    attempts := 0
    state := .pending
    visibleAt := now
    acquiredAt := none
    acquiredBy := none
    updatedAt := now }

def acquiredEntry (entry : QueueEntryMetadata) (claimId : String) (now : Int) :
    QueueEntryMetadata :=
  { entry with
    attempts := entry.attempts + 1
    state := .processing
    acquiredAt := some now
    acquiredBy := some claimId
    updatedAt := now }

/-- The claim id has acquired the entry, and has held it since. -/
structure QueueEntryMetadata.HeldBy (entry : QueueEntryMetadata) (claimId : String)
    (acquiredAt : Int) : Prop where
  state : entry.state = .processing
  acquiredBy : entry.acquiredBy = some claimId
  acquiredAt : entry.acquiredAt = some acquiredAt

/-- What one transaction does to an entry at a time. -/
inductive Change (now : Int) : QueueTransaction ε → Nat → Option QueueEntryMetadata →
    Option QueueEntryMetadata → Prop where
  | offered (id : String) (element : ε) (sequence : Nat) :
      Change now (.offer id element) sequence none (some (offeredEntry id now))
  | recovered {claimId : String} {maxAttempts milliseconds acquiredAt : Int} {sequence : Nat}
      {entry : QueueEntryMetadata} (hstate : entry.state = .processing)
      (hacquired : entry.acquiredAt = some acquiredAt)
      (hexpired : acquiredAt + milliseconds ≤ now) :
      Change now (.claim claimId maxAttempts (some milliseconds)) sequence (some entry)
        (some (recoveredEntry entry maxAttempts now))
  | failed {claimId : String} {maxAttempts : Int} {lockExpiration : Option Int} {sequence : Nat}
      {entry : QueueEntryMetadata} (hstate : entry.state = .pending) :
      Change now (.claim claimId maxAttempts lockExpiration) sequence (some entry)
        (some { entry with state := .failed, updatedAt := now })
  | acquired {claimId : String} {maxAttempts : Int} {lockExpiration : Option Int} {sequence : Nat}
      {entry : QueueEntryMetadata} (hstate : entry.state = .pending)
      (hattempts : (entry.attempts : Int) < maxAttempts) :
      Change now (.claim claimId maxAttempts lockExpiration) sequence (some entry)
        (some (acquiredEntry entry claimId now))
  | refreshed {claimId : String} {acquiredAt : Int} {sequence : Nat} {entry : QueueEntryMetadata}
      (hheld : entry.HeldBy claimId acquiredAt) :
      Change now (.refreshClaim claimId sequence) sequence (some entry)
        (some { entry with acquiredAt := some now })
  | finalized {claimId : String} {acquiredAt : Int} {sequence attempts : Nat} {maxAttempts : Int}
      {retryDelay : Option Int} {exit : ClaimExit} {entry updated : QueueEntryMetadata}
      (hheld : entry.HeldBy claimId acquiredAt) (hstate : updated.state ≠ .processing) :
      Change now (.finalizeClaim claimId sequence attempts maxAttempts retryDelay exit) sequence
        (some entry) (some updated)
  | removed {state : TerminalState} {timeToLive : Option Int} {sequence : Nat}
      {entry : QueueEntryMetadata} (hstate : entry.state = state.entryState) :
      Change now (.cleanup state timeToLive) sequence (some entry) none

/-! ## Pending rows -/

structure PendingSound (queue : Queue ε) : Prop where
  index : ∀ row sequence, (queue.index .pending).get? row = some sequence ↔
    ∃ entry, queue.metadata.get? sequence = some entry ∧ entry.state = .pending ∧
      row = toLex (timestamp entry.visibleAt, sequence)
  stored : ∀ sequence entry, queue.metadata.get? sequence = some entry →
    sequence < queue.counter.getD 0

structure Writes (queue next : Queue ε) (sequence : Nat) (new : Option QueueEntryMetadata) :
    Prop where
  metadata : ∀ sequence', next.metadata.get? sequence' =
    if sequence' = sequence then new else queue.metadata.get? sequence'
  pending : ∀ row sequence', (next.index .pending).get? row = some sequence' ↔
    (sequence' ≠ sequence ∧ (queue.index .pending).get? row = some sequence') ∨
      (sequence' = sequence ∧ ∃ entry, new = some entry ∧ entry.state = .pending ∧
        row = toLex (timestamp entry.visibleAt, sequence))
  counter : queue.counter.getD 0 ≤ next.counter.getD 0
  stored : new.isSome → sequence < next.counter.getD 0

structure Same (queue next : Queue ε) : Prop where
  metadata : next.metadata = queue.metadata
  pending : ∀ row, (next.index .pending).get? row = (queue.index .pending).get? row
  counter : next.counter = queue.counter

def Entrywise (commit : QueueCommit ε) (queue next : Queue ε) : Prop :=
  Same queue next ∨ ∃ sequence new,
    Change commit.now commit.transaction sequence (queue.metadata.get? sequence) new ∧
      Writes queue next sequence new

theorem PendingSound.empty : PendingSound (Queue.empty : Queue ε) := by
  constructor <;> simp [Queue.empty]

theorem PendingSound.same {queue next : Queue ε} (h : PendingSound queue)
    (hsame : Same queue next) : PendingSound next where
  index row sequence := by rw [hsame.pending, hsame.metadata, h.index]
  stored sequence entry hentry := by
    rw [hsame.metadata] at hentry
    rw [hsame.counter]
    exact h.stored sequence entry hentry

theorem PendingSound.writes {queue next : Queue ε} (h : PendingSound queue) {sequence : Nat}
    {new : Option QueueEntryMetadata} (hwrites : Writes queue next sequence new) :
    PendingSound next where
  index row sequence' := by
    rw [hwrites.pending, hwrites.metadata]
    by_cases hsequence : sequence' = sequence
    · subst hsequence
      simp
    · simp [hsequence, h.index]
  stored sequence' entry hentry := by
    rw [hwrites.metadata] at hentry
    split_ifs at hentry with hsequence
    · rw [hsequence]
      exact hwrites.stored (by rw [hentry]; rfl)
    · exact (h.stored sequence' entry hentry).trans_le hwrites.counter

theorem PendingSound.entrywise {queue next : Queue ε} (h : PendingSound queue)
    {commit : QueueCommit ε} (hstep : Entrywise commit queue next) : PendingSound next := by
  rcases hstep with hsame | ⟨sequence, new, -, hwrites⟩
  · exact h.same hsame
  · exact h.writes hwrites

theorem PendingSound.chain {queue next : Queue ε} (h : PendingSound queue)
    {commit : QueueCommit ε} (hchain : ReflTransGen (Entrywise commit) queue next) :
    PendingSound next := by
  induction hchain with
  | refl => exact h
  | tail _ hstep ih => exact ih.entrywise hstep

theorem changes_of_chain {queue next : Queue ε} {commit : QueueCommit ε}
    (hchain : ReflTransGen (Entrywise commit) queue next) (sequence : Nat) :
    ReflTransGen (Change commit.now commit.transaction sequence) (queue.metadata.get? sequence)
      (next.metadata.get? sequence) := by
  induction hchain with
  | refl => exact .refl
  | tail _ hstep ih =>
      rcases hstep with hsame | ⟨sequence', new, hchange, hwrites⟩
      · rw [hsame.metadata]
        exact ih
      · rw [hwrites.metadata]
        split_ifs with hsequence
        · subst hsequence
          exact ih.tail hchange
        · exact ih

/-! ## Rewriting one entry -/

section

variable {queue next : Queue ε} {sequence : Nat} {new : Option QueueEntryMetadata}

theorem PendingSound.writes_keep (h : PendingSound queue)
    (hold : ∀ entry, queue.metadata.get? sequence = some entry → entry.state ≠ .pending)
    (hnew : ∀ entry, new = some entry → entry.state ≠ .pending)
    (hmetadata : ∀ sequence', next.metadata.get? sequence' =
      if sequence' = sequence then new else queue.metadata.get? sequence')
    (hpending : ∀ row, (next.index .pending).get? row = (queue.index .pending).get? row)
    (hcounter : next.counter = queue.counter)
    (hstored : (queue.metadata.get? sequence).isSome) : Writes queue next sequence new where
  metadata := hmetadata
  pending row sequence' := by
    rw [hpending]
    constructor
    · intro hrow
      refine .inl ⟨?_, hrow⟩
      rintro rfl
      obtain ⟨entry, hentry, hstate, -⟩ := (h.index _ _).mp hrow
      exact hold entry hentry hstate
    · rintro (⟨-, hrow⟩ | ⟨-, entry, hentry, hstate, -⟩)
      · exact hrow
      · exact absurd hstate (hnew entry hentry)
  counter := by rw [hcounter]
  stored _ := by
    obtain ⟨entry, hentry⟩ := Option.isSome_iff_exists.mp hstored
    rw [hcounter]
    exact h.stored sequence entry hentry

theorem PendingSound.writes_set (h : PendingSound queue) {entry : QueueEntryMetadata}
    (hold : ∀ entry, queue.metadata.get? sequence = some entry → entry.state ≠ .pending)
    (hstate : entry.state = .pending)
    (hmetadata : ∀ sequence', next.metadata.get? sequence' =
      if sequence' = sequence then some entry else queue.metadata.get? sequence')
    (hpending : ∀ row, (next.index .pending).get? row =
      if row = toLex (timestamp entry.visibleAt, sequence) then some sequence
      else (queue.index .pending).get? row)
    (hcounter : queue.counter.getD 0 ≤ next.counter.getD 0)
    (hstored : sequence < next.counter.getD 0) : Writes queue next sequence (some entry) where
  metadata := hmetadata
  pending row sequence' := by
    rw [hpending]
    constructor
    · intro hrow
      split_ifs at hrow with heq
      · cases hrow
        exact .inr ⟨rfl, entry, rfl, hstate, heq⟩
      · refine .inl ⟨?_, hrow⟩
        rintro rfl
        obtain ⟨old, hentry, hpendingOld, -⟩ := (h.index _ _).mp hrow
        exact hold old hentry hpendingOld
    · rintro (⟨hne, hrow⟩ | ⟨rfl, new, hnew, -, heq⟩)
      · obtain ⟨old, -, -, rfl⟩ := (h.index _ _).mp hrow
        rw [if_neg]
        · exact hrow
        · intro heq
          exact hne (congrArg Prod.snd (toLex.injective heq))
      · cases hnew
        rw [if_pos heq]
  counter := hcounter
  stored _ := hstored

theorem PendingSound.writes_clear (h : PendingSound queue) {old entry : QueueEntryMetadata}
    (hold : queue.metadata.get? sequence = some old) (hpendingOld : old.state = .pending)
    (hstate : entry.state ≠ .pending)
    (hmetadata : ∀ sequence', next.metadata.get? sequence' =
      if sequence' = sequence then some entry else queue.metadata.get? sequence')
    (hpending : ∀ row, (next.index .pending).get? row =
      if row = toLex (timestamp old.visibleAt, sequence) then none
      else (queue.index .pending).get? row)
    (hcounter : next.counter = queue.counter) : Writes queue next sequence (some entry) where
  metadata := hmetadata
  pending row sequence' := by
    have hown := (h.index _ _).mpr ⟨old, hold, hpendingOld, rfl⟩
    rw [hpending]
    constructor
    · intro hrow
      split_ifs at hrow with heq
      refine .inl ⟨?_, hrow⟩
      rintro rfl
      obtain ⟨old', hold', -, rfl⟩ := (h.index _ _).mp hrow
      rw [hold] at hold'
      cases hold'
      exact heq rfl
    · rintro (⟨hne, hrow⟩ | ⟨-, new, hnew, hpendingNew, -⟩)
      · rw [if_neg]
        · exact hrow
        · rintro rfl
          rw [hown] at hrow
          exact hne (Option.some.inj hrow).symm
      · cases hnew
        exact absurd hpendingNew hstate
  counter := by rw [hcounter]
  stored _ := by
    rw [hcounter]
    exact h.stored sequence old hold

end

/-! ## Transactions -/

theorem Same.trans {first second third : Queue ε} (h : Same first second)
    (h' : Same second third) : Same first third :=
  ⟨h'.metadata.trans h.metadata, fun row => (h'.pending row).trans (h.pending row),
    h'.counter.trans h.counter⟩

theorem same_clearIndex (queue : Queue ε) {state : EntryState} (hstate : state ≠ .pending)
    (key : Int ×ₗ Nat) : Same queue (queue.clearIndex state key) where
  metadata := rfl
  pending row := by rw [get?_clearIndex, if_neg fun h => hstate h.1.symm]
  counter := rfl

theorem PendingSound.offer {queue : Queue ε} (h : PendingSound queue) (id : String) (element : ε)
    (now : Int) : Entrywise ⟨.offer id element, now⟩ queue (queue.offer id element now) := by
  unfold Queue.offer
  cases queue.ids.get? id with
  | some _ => exact .inl ⟨rfl, fun _ => rfl, rfl⟩
  | none =>
      have hfresh : queue.metadata.get? (queue.counter.getD 0) = none := by
        rw [Option.eq_none_iff_forall_ne_some]
        intro entry hentry
        exact (h.stored _ entry hentry).false
      refine .inr ⟨queue.counter.getD 0, some (offeredEntry id now), ?_, ?_⟩
      · rw [hfresh]
        exact .offered id element _
      · refine h.writes_set ?_ rfl (fun _ => OrderedMap.get?_set _ _ _ _) ?_ ?_ ?_
        · intro entry hentry
          rw [hfresh] at hentry
          cases hentry
        · intro row
          refine (get?_setIndex _ _ _ _ _ _).trans ?_
          simp [offeredEntry]
          rfl
        · exact Nat.le_succ _
        · exact Nat.lt_succ_self _

def Queue.clearAcquiredBy (queue : Queue ε) : Option String → Queue ε
  | some claimId => queue.clearClaim claimId
  | none => queue

theorem recoverLock_cases (queue : Queue ε) (maxAttempts now : Int) (lockExpiration : Option Int)
    (lock : (Int ×ₗ Nat) × Nat) :
    (queue.recoverLock maxAttempts now (Queue.subtractDuration now lockExpiration) lock).1 =
        queue.clearIndex .processing lock.1 ∨
      ∃ entry acquiredAt milliseconds cleared, queue.metadata.get? lock.2 = some entry ∧
        entry.state = .processing ∧ entry.acquiredAt = some acquiredAt ∧
        lockExpiration = some milliseconds ∧ acquiredAt + milliseconds ≤ now ∧
        Same queue cleared ∧
        (queue.recoverLock maxAttempts now (Queue.subtractDuration now lockExpiration) lock).1 =
          (cleared.writeEntryMetadata lock.2 (recoveredEntry entry maxAttempts now)).setIndex
            (recoveredEntry entry maxAttempts now).state now lock.2 := by
  cases hentry : queue.metadata.get? lock.2 with
  | none =>
      left
      unfold Queue.recoverLock
      simp only [hentry]
  | some entry =>
      by_cases hstale : entry.state ≠ .processing ∨ entry.acquiredAt.all fun acquiredAt =>
          (Queue.subtractDuration now lockExpiration).all (acquiredAt > ·)
      · left
        unfold Queue.recoverLock
        simp only [hentry]
        rw [if_pos hstale]
      · have hexpired := hstale
        rw [not_or, not_not] at hexpired
        obtain ⟨hstate, hacquired⟩ := hexpired
        cases hacquiredAt : entry.acquiredAt with
        | none => simp [hacquiredAt] at hacquired
        | some acquiredAt =>
            cases lockExpiration with
            | none => simp [hacquiredAt, Queue.subtractDuration] at hacquired
            | some milliseconds =>
                simp only [hacquiredAt, Queue.subtractDuration, Option.map_some, Option.all_some,
                  gt_iff_lt, decide_eq_true_eq] at hacquired
                refine .inr ⟨entry, acquiredAt, milliseconds,
                  (queue.clearIndex .processing lock.1).clearAcquiredBy entry.acquiredBy, rfl,
                  hstate, hacquiredAt, rfl, by omega, ?_, ?_⟩
                · have hcleared : Same queue (queue.clearIndex .processing lock.1) :=
                    same_clearIndex queue (by simp) lock.1
                  cases entry.acquiredBy with
                  | none => exact hcleared
                  | some claimId => exact hcleared.trans ⟨rfl, fun _ => rfl, rfl⟩
                · unfold Queue.recoverLock recoveredEntry Queue.clearAcquiredBy
                  simp only [hentry]
                  rw [if_neg hstale]
                  cases entry.acquiredBy <;> split_ifs <;> simp_all

theorem PendingSound.recoverLock {queue : Queue ε} (h : PendingSound queue) (claimId : String)
    (maxAttempts now : Int) (lockExpiration : Option Int) (lock : (Int ×ₗ Nat) × Nat) :
    Entrywise ⟨.claim claimId maxAttempts lockExpiration, now⟩ queue
      (queue.recoverLock maxAttempts now (Queue.subtractDuration now lockExpiration) lock).1 := by
  rcases recoverLock_cases queue maxAttempts now lockExpiration lock with heq |
    ⟨entry, acquiredAt, milliseconds, cleared, hentry, hstate, hacquired, rfl, hexpired, hcleared,
      heq⟩
  · rw [heq]
    exact .inl (same_clearIndex queue (by simp) lock.1)
  · rw [heq]
    have hold : ∀ entry, queue.metadata.get? lock.2 = some entry → entry.state ≠ .pending := by
      intro entry' hentry'
      rw [hentry] at hentry'
      cases hentry'
      simp [hstate]
    have hmetadata (new : QueueEntryMetadata) (state : EntryState) (sequence' : Nat) :
        ((cleared.writeEntryMetadata lock.2 new).setIndex state now
          lock.2).metadata.get? sequence' =
          if sequence' = lock.2 then some new else queue.metadata.get? sequence' := by
      rw [← hcleared.metadata]
      exact OrderedMap.get?_set _ _ _ _
    refine .inr ⟨lock.2, some (recoveredEntry entry maxAttempts now), ?_, ?_⟩
    · rw [hentry]
      exact .recovered hstate hacquired hexpired
    · unfold recoveredEntry
      split_ifs
      · refine h.writes_keep hold ?_ (hmetadata _ _) ?_ hcleared.counter (by rw [hentry]; rfl)
        · intro new hnew
          cases hnew
          simp
        · intro row
          refine (get?_setIndex _ _ _ _ _ _).trans ?_
          rw [if_neg (by simp)]
          exact hcleared.pending row
      · refine h.writes_set hold rfl (hmetadata _ _) ?_ ?_ ?_
        · intro row
          refine (get?_setIndex _ _ _ _ _ _).trans ?_
          simp only [true_and]
          exact congrArg _ (hcleared.pending row)
        · exact (congrArg (Option.getD · 0) hcleared.counter).ge
        · refine (h.stored lock.2 entry hentry).trans_le ?_
          exact (congrArg (Option.getD · 0) hcleared.counter).ge

theorem PendingSound.recoverLocks {queue : Queue ε} (h : PendingSound queue) (claimId : String)
    (maxAttempts now : Int) (lockExpiration : Option Int) (locks : List ((Int ×ₗ Nat) × Nat))
    (recoveredPending : Bool) :
    ReflTransGen (Entrywise ⟨.claim claimId maxAttempts lockExpiration, now⟩) queue
      (Queue.recoverLocks maxAttempts now (Queue.subtractDuration now lockExpiration) locks queue
        recoveredPending).1 := by
  induction locks generalizing queue recoveredPending with
  | nil => exact .refl
  | cons lock locks ih =>
      have hfirst := h.recoverLock claimId maxAttempts now lockExpiration lock
      exact .head hfirst (ih (h.entrywise hfirst) _)

/-! ## Candidates -/

def Eligible (queue : Queue ε) (maxAttempts now : Int) (sequence : Nat) : Prop :=
  ∃ entry, queue.metadata.get? sequence = some entry ∧ entry.state = .pending ∧
    entry.visibleAt ≤ now ∧ (entry.attempts : Int) < maxAttempts

structure Acquires (queue next : Queue ε) (claimId : String) (now : Int)
    (claimed : Queue.ClaimedEntry ε) : Prop where
  named : claimed.claimId = claimId
  stored : next.metadata.get? claimed.sequence = some claimed.entry
  held : claimed.entry.HeldBy claimId now
  acquired : ∃ entry, queue.metadata.get? claimed.sequence = some entry ∧
    claimed.entry = acquiredEntry entry claimId now

/-- A candidate is acquired if it is eligible, and else it is given up without other entries
being touched. -/
theorem PendingSound.tryPending {queue next : Queue ε} (h : PendingSound queue) {claimId : String}
    {maxAttempts now : Int} (lockExpiration : Option Int) {candidate : (Int ×ₗ Nat) × Nat}
    (hrow : (queue.index .pending).get? candidate.1 = some candidate.2)
    {claimed : Option (Queue.ClaimedEntry ε)}
    (htry : queue.tryPending claimId maxAttempts now candidate = .ok (next, claimed)) :
    Entrywise ⟨.claim claimId maxAttempts lockExpiration, now⟩ queue next ∧
      (claimed = none → ¬ Eligible queue maxAttempts now candidate.2 ∧
        ∀ row sequence, sequence ≠ candidate.2 →
          next.metadata.get? sequence = queue.metadata.get? sequence ∧
          ((queue.index .pending).get? row = some sequence →
            (next.index .pending).get? row = some sequence)) ∧
      ∀ entry, claimed = some entry → entry.sequence = candidate.2 ∧
        Eligible queue maxAttempts now candidate.2 ∧ Acquires queue next claimId now entry := by
  obtain ⟨entry, hentry, hstate, hkey⟩ := (h.index _ _).mp hrow
  obtain ⟨row, sequence⟩ := candidate
  dsimp only at hentry hkey hrow
  subst hkey
  unfold Queue.tryPending Queue.readEntry at htry
  simp only [hentry] at htry
  cases helement : queue.elements.get? sequence with
  | none =>
      simp only [helement] at htry
      cases htry
  | some element =>
      simp only [helement, hstate, ne_eq, not_true_eq_false, if_false] at htry
      split_ifs at htry with hvisible hattempts
      · -- The row is moved to where it is.
        cases htry
        have hsame : Same queue ((queue.clearIndex .pending
            (toLex (timestamp entry.visibleAt, sequence))).setIndex .pending entry.visibleAt
              sequence) := by
          refine ⟨rfl, ?_, rfl⟩
          intro row
          rw [get?_setIndex, get?_clearIndex]
          simp only [true_and]
          split_ifs with heq
          · rw [heq, hrow]
          · rfl
        refine ⟨.inl hsame, ?_, by simp⟩
        intro _
        constructor
        · rintro ⟨entry', hentry', -, hle, -⟩
          rw [hentry] at hentry'
          cases hentry'
          omega
        · intro row sequence' _
          exact ⟨rfl, fun hold => (hsame.pending row).trans hold⟩
      · cases htry
        have hwrites : Writes queue (((queue.clearIndex .pending
            (toLex (timestamp entry.visibleAt, sequence))).writeEntryMetadata sequence
              { entry with state := .failed, updatedAt := now }).setIndex .failed now sequence)
            sequence (some { entry with state := .failed, updatedAt := now }) := by
          refine h.writes_clear hentry hstate (by simp) (fun _ => OrderedMap.get?_set _ _ _ _) ?_ rfl
          intro row
          refine (get?_setIndex _ _ _ _ _ _).trans ?_
          rw [if_neg (by simp)]
          refine (get?_clearIndex _ _ _ _ _).trans ?_
          simp
        refine ⟨.inr ⟨sequence, _, ?_, hwrites⟩, ?_, by simp⟩
        · rw [hentry]
          exact .failed hstate
        · intro _
          constructor
          · rintro ⟨entry', hentry', -, -, hlt⟩
            rw [hentry] at hentry'
            cases hentry'
            omega
          · intro row sequence' hne
            exact ⟨(hwrites.metadata sequence').trans (if_neg hne),
              fun hold => (hwrites.pending row sequence').mpr (.inl ⟨hne, hold⟩)⟩
      · cases htry
        have hwrites : Writes queue ((((queue.clearIndex .pending
            (toLex (timestamp entry.visibleAt, sequence))).writeEntryMetadata sequence
              (acquiredEntry entry claimId now)).setIndex .processing now sequence).setClaim claimId
                sequence) sequence (some (acquiredEntry entry claimId now)) := by
          refine h.writes_clear hentry hstate (by simp [acquiredEntry])
            (fun _ => OrderedMap.get?_set _ _ _ _) ?_ rfl
          intro row
          refine (get?_setIndex _ _ _ _ _ _).trans ?_
          rw [if_neg (by simp)]
          refine (get?_clearIndex _ _ _ _ _).trans ?_
          simp
        refine ⟨.inr ⟨sequence, _, ?_, hwrites⟩, by simp, ?_⟩
        · rw [hentry]
          exact .acquired hstate (by omega)
        · rintro claimed ⟨⟩
          refine ⟨rfl, ⟨entry, hentry, hstate, by omega, by omega⟩, rfl, ?_, ⟨rfl, rfl, rfl⟩, entry,
            hentry, rfl⟩
          exact (hwrites.metadata sequence).trans (if_pos rfl)

theorem eligible_congr {queue next : Queue ε} {maxAttempts now : Int} {sequence : Nat}
    (h : next.metadata.get? sequence = queue.metadata.get? sequence) :
    Eligible next maxAttempts now sequence ↔ Eligible queue maxAttempts now sequence := by
  unfold Eligible
  rw [h]

theorem PendingSound.tryPendings {claimId : String} {maxAttempts now : Int}
    (lockExpiration : Option Int) (candidates : List ((Int ×ₗ Nat) × Nat)) {queue next : Queue ε}
    (h : PendingSound queue)
    (hrows : ∀ candidate ∈ candidates, (queue.index .pending).get? candidate.1 = some candidate.2)
    (hdistinct : candidates.Pairwise fun left right => left.2 ≠ right.2)
    {claimed : Option (Queue.ClaimedEntry ε)}
    (htry : Queue.tryPendings claimId maxAttempts now candidates queue = .ok (next, claimed)) :
    ReflTransGen (Entrywise ⟨.claim claimId maxAttempts lockExpiration, now⟩) queue next ∧
      ∀ entry, claimed = some entry → ∃ before candidate after,
        candidates = before ++ candidate :: after ∧ entry.sequence = candidate.2 ∧
        (∀ earlier ∈ before, ¬ Eligible queue maxAttempts now earlier.2) ∧
        Eligible queue maxAttempts now candidate.2 ∧ Acquires queue next claimId now entry := by
  induction candidates generalizing queue with
  | nil =>
      cases htry
      exact ⟨.refl, by simp⟩
  | cons candidate candidates ih =>
      obtain ⟨hother, hrest⟩ := List.pairwise_cons.mp hdistinct
      have hrow := hrows candidate List.mem_cons_self
      rw [Queue.tryPendings] at htry
      split at htry
      · cases htry
      · next tried entry hcandidate =>
          cases htry
          obtain ⟨hstep, -, hacquired⟩ := h.tryPending lockExpiration hrow hcandidate
          refine ⟨.single hstep, ?_⟩
          rintro claimed ⟨⟩
          obtain ⟨hsequence, heligible, hacquires⟩ := hacquired entry rfl
          exact ⟨[], candidate, candidates, rfl, hsequence, by simp, heligible, hacquires⟩
      · next tried hcandidate =>
          obtain ⟨hstep, hkept, -⟩ := h.tryPending lockExpiration hrow hcandidate
          obtain ⟨hnot, hkept⟩ := hkept rfl
          obtain ⟨hchain, hlater⟩ := ih (h.entrywise hstep) (by
            intro later hmem
            refine (hkept later.1 later.2 (hother later hmem).symm).2 ?_
            exact hrows later (List.mem_cons_of_mem _ hmem)) hrest htry
          refine ⟨.head hstep hchain, ?_⟩
          intro entry hentry
          obtain ⟨before, found, after, rfl, hsequence, hbefore, heligible, hacquires⟩ :=
            hlater entry hentry
          have hsame : ∀ later ∈ before ++ found :: after,
              tried.metadata.get? later.2 = queue.metadata.get? later.2 :=
            fun later hmem => (hkept later.1 later.2 (hother later hmem).symm).1
          have hfound := hsame found (by simp)
          refine ⟨candidate :: before, found, after, rfl, hsequence, ?_,
            (eligible_congr hfound).mp heligible, hacquires.named, hacquires.stored,
            hacquires.held, ?_⟩
          · intro earlier hearlier
            rcases List.mem_cons.mp hearlier with rfl | hmem
            · exact hnot
            · rw [← eligible_congr (hsame earlier (List.mem_append_left _ hmem))]
              exact hbefore earlier hmem
          · obtain ⟨old, hold, heq⟩ := hacquires.acquired
            rw [hsequence, hfound, ← hsequence] at hold
            exact ⟨old, hold, heq⟩

theorem PendingSound.distinct {queue : Queue ε} (h : PendingSound queue) (time : Option Int) :
    (Queue.indexBefore (queue.index .pending) time).Pairwise fun left right =>
      left.2 ≠ right.2 := by
  refine (indexBefore_pairwise _ _).imp_of_mem ?_
  intro left right hleft hright hne heq
  obtain ⟨entry, hentry, -, hkey⟩ := (h.index _ _).mp (mem_indexBefore hleft).1
  obtain ⟨entry', hentry', -, hkey'⟩ := (h.index _ _).mp (mem_indexBefore hright).1
  rw [← heq, hentry] at hentry'
  cases hentry'
  exact hne (by rw [hkey, hkey', heq])

/-! ## Claims -/

/-- The queue once a claim has gone through the locks that have expired. -/
def Queue.afterRecovery (queue : Queue ε) (maxAttempts now : Int) (lockExpiration : Option Int) :
    Queue ε :=
  let expiredAt := Queue.subtractDuration now lockExpiration
  (Queue.recoverLocks maxAttempts now expiredAt
    (Queue.indexBefore (queue.index .processing) expiredAt) queue false).1

structure FirstEligible (queue : Queue ε) (maxAttempts now : Int) (sequence : Nat)
    (entry : QueueEntryMetadata) : Prop where
  stored : queue.metadata.get? sequence = some entry
  pending : entry.state = .pending
  visible : entry.visibleAt ≤ now
  attempts : (entry.attempts : Int) < maxAttempts
  first : ∀ other entry', queue.metadata.get? other = some entry' → entry'.state = .pending →
    entry'.visibleAt ≤ now → (entry'.attempts : Int) < maxAttempts →
    toLex (timestamp entry.visibleAt, sequence) ≤ toLex (timestamp entry'.visibleAt, other)

theorem PendingSound.firstEligible {queue : Queue ε} (h : PendingSound queue)
    {maxAttempts now : Int} {before after : List ((Int ×ₗ Nat) × Nat)}
    {candidate : (Int ×ₗ Nat) × Nat}
    (hcandidates : Queue.indexBefore (queue.index .pending) (some now) =
      before ++ candidate :: after)
    (hbefore : ∀ earlier ∈ before, ¬ Eligible queue maxAttempts now earlier.2)
    (heligible : Eligible queue maxAttempts now candidate.2) :
    ∃ entry, FirstEligible queue maxAttempts now candidate.2 entry := by
  obtain ⟨entry, hentry, hstate, hvisible, hattempts⟩ := heligible
  have hmem : candidate ∈ Queue.indexBefore (queue.index .pending) (some now) := by
    rw [hcandidates]
    simp
  obtain ⟨hrow, hend⟩ := mem_indexBefore hmem
  have hkey : candidate.1 = toLex (timestamp entry.visibleAt, candidate.2) := by
    obtain ⟨entry', hentry', -, hkey⟩ := (h.index _ _).mp hrow
    rw [hentry] at hentry'
    cases hentry'
    exact hkey
  have hnow : 0 ≤ now := by
    by_contra hneg
    simp only [Queue.beforeEnd] at hend
    rw [if_pos (by omega)] at hend
    cases hend
  refine ⟨entry, hentry, hstate, hvisible, hattempts, ?_⟩
  intro other entry' hentry' hstate' hvisible' hattempts'
  rw [← hkey]
  by_contra hlt
  rw [not_le] at hlt
  -- The row of the other entry is before that of the candidate, so it was tried before it.
  have hother : (toLex (timestamp entry'.visibleAt, other), other) ∈
      (queue.index .pending).rows (Queue.beforeEnd (some now)) :=
    OrderedMap.mem_rows.mpr ⟨beforeEnd_of_visible hnow hvisible',
      (h.index _ _).mpr ⟨entry', hentry', hstate', rfl⟩⟩
  have hsplit : (queue.index .pending).rows (Queue.beforeEnd (some now)) =
      before ++ candidate :: (after ++
        ((queue.index .pending).rows (Queue.beforeEnd (some now))).drop indexBatchSize) := by
    conv_lhs => rw [← List.take_append_drop indexBatchSize
      ((queue.index .pending).rows (Queue.beforeEnd (some now)))]
    change Queue.indexBefore (queue.index .pending) (some now) ++ _ = _
    rw [hcandidates, List.append_assoc, List.cons_append]
  have hsorted := (queue.index .pending).rows_sorted (Queue.beforeEnd (some now))
  rw [hsplit] at hother hsorted
  rcases List.mem_append.mp hother with hearlier | hlater
  · exact hbefore _ hearlier ⟨entry', hentry', hstate', hvisible', hattempts'⟩
  · have htail := (List.pairwise_append.mp hsorted).2.1
    rcases List.mem_cons.mp hlater with heq | hafter
    · rw [← heq] at hlt
      exact hlt.false
    · exact (hlt.trans ((List.pairwise_cons.mp htail).1 _ hafter)).false

theorem PendingSound.claimNext {queue next : Queue ε} (h : PendingSound queue) {claimId : String}
    {maxAttempts now : Int} {lockExpiration : Option Int} {result : Queue.ClaimResult ε}
    (hnext : queue.claimNext claimId maxAttempts now lockExpiration = .ok (next, result)) :
    ReflTransGen (Entrywise ⟨.claim claimId maxAttempts lockExpiration, now⟩) queue next ∧
      ∀ claimed, result = .claimed claimed → ∃ entry,
        FirstEligible (queue.afterRecovery maxAttempts now lockExpiration) maxAttempts now
          claimed.sequence entry ∧
        Acquires (queue.afterRecovery maxAttempts now lockExpiration) next claimId now claimed := by
  have hrecovered := h.recoverLocks claimId maxAttempts now lockExpiration
    (Queue.indexBefore (queue.index .processing) (Queue.subtractDuration now lockExpiration)) false
  unfold Queue.claimNext at hnext
  unfold Queue.afterRecovery
  dsimp only at hnext ⊢
  generalize Queue.recoverLocks maxAttempts now (Queue.subtractDuration now lockExpiration)
    (Queue.indexBefore (queue.index .processing) (Queue.subtractDuration now lockExpiration)) queue
    false = recovery at hnext hrecovered ⊢
  obtain ⟨recovered, recoveredPending⟩ := recovery
  dsimp only at hnext hrecovered ⊢
  have hsound := h.chain hrecovered
  obtain ⟨signalled, hsignalled⟩ : ∃ signalled, signalled =
      if recoveredPending then recovered.addSignal else recovered := ⟨_, rfl⟩
  rw [← hsignalled] at hnext
  have hsame : Same recovered signalled ∧
      signalled.index .pending = recovered.index .pending := by
    rw [hsignalled]
    cases recoveredPending <;> exact ⟨⟨rfl, fun _ => rfl, rfl⟩, rfl⟩
  have hchain : ReflTransGen (Entrywise ⟨.claim claimId maxAttempts lockExpiration, now⟩) queue
      signalled := hrecovered.tail (.inl hsame.1)
  have hpending {tried : Queue ε} {claimed : Option (Queue.ClaimedEntry ε)}
      (htry : Queue.tryPendings claimId maxAttempts now
        (Queue.indexBefore (signalled.index .pending) (some now)) signalled = .ok (tried, claimed)) :=
    (hsound.same hsame.1).tryPendings lockExpiration _ (fun _ hmem => (mem_indexBefore hmem).1)
      ((hsound.same hsame.1).distinct _) htry
  split at hnext
  · cases hnext
  · next tried claimed htry =>
      cases hnext
      obtain ⟨htail, hfirst⟩ := hpending htry
      refine ⟨hchain.trans htail, ?_⟩
      rintro claimed ⟨⟩
      obtain ⟨before, candidate, after, hcandidates, hsequence, hbefore, heligible, hacquires⟩ :=
        hfirst claimed rfl
      have heligible_iff (sequence : Nat) : Eligible signalled maxAttempts now sequence ↔
          Eligible recovered maxAttempts now sequence :=
        eligible_congr (by rw [hsame.1.metadata])
      rw [hsame.2] at hcandidates
      obtain ⟨entry, hentry⟩ := hsound.firstEligible hcandidates
        (fun earlier hmem => (heligible_iff _).not.mp (hbefore earlier hmem))
        ((heligible_iff _).mp heligible)
      rw [← hsequence] at hentry
      refine ⟨entry, hentry, hacquires.named, hacquires.stored, hacquires.held, ?_⟩
      rw [← hsame.1.metadata]
      exact hacquires.acquired
  · next tried htry =>
      cases hnext
      refine ⟨hchain.trans (hpending htry).1, ?_⟩
      intro claimed hclaimed
      split_ifs at hclaimed

/-- The claim id has held the entry before. -/
structure Answers (queue next : Queue ε) (claimId : String) (claimed : Queue.ClaimedEntry ε) :
    Prop where
  same : next = queue
  named : claimed.claimId = claimId
  stored : queue.metadata.get? claimed.sequence = some claimed.entry
  state : claimed.entry.state = .processing
  acquiredBy : claimed.entry.acquiredBy = some claimId

/-- A claim id is answered again with the entry it holds, or acquires the first entry that is
eligible once the expired locks are recovered. -/
def ClaimsEntry (queue next : Queue ε) (claimId : String) (maxAttempts now : Int)
    (lockExpiration : Option Int) (claimed : Queue.ClaimedEntry ε) : Prop :=
  let recovered := (queue.clearClaim claimId).afterRecovery maxAttempts now lockExpiration
  Answers queue next claimId claimed ∨
    ∃ entry, FirstEligible recovered maxAttempts now claimed.sequence entry ∧
      Acquires recovered next claimId now claimed

theorem PendingSound.claim {queue next : Queue ε} (h : PendingSound queue) {claimId : String}
    {maxAttempts now : Int} {lockExpiration : Option Int} {result : Queue.ClaimResult ε}
    (hclaim : queue.claim claimId maxAttempts now lockExpiration = .ok (next, result)) :
    ReflTransGen (Entrywise ⟨.claim claimId maxAttempts lockExpiration, now⟩) queue next ∧
      ∀ claimed, result = .claimed claimed →
        ClaimsEntry queue next claimId maxAttempts now lockExpiration claimed := by
  have hnext (hcleared : (queue.clearClaim claimId).claimNext claimId maxAttempts now
      lockExpiration = .ok (next, result)) :
      ReflTransGen (Entrywise ⟨.claim claimId maxAttempts lockExpiration, now⟩) queue next ∧
        ∀ claimed, result = .claimed claimed →
          ClaimsEntry queue next claimId maxAttempts now lockExpiration claimed := by
    have hsame : Same queue (queue.clearClaim claimId) := ⟨rfl, fun _ => rfl, rfl⟩
    obtain ⟨hchain, hfirst⟩ := (h.same hsame).claimNext hcleared
    exact ⟨.head (.inl hsame) hchain, fun claimed hresult => .inr (hfirst claimed hresult)⟩
  unfold Queue.claim at hclaim
  cases hprevious : queue.claims.get? claimId with
  | none =>
      have hclear : queue.clearClaim claimId = queue := by
        have hclaims : queue.claims.clear claimId = queue.claims := by
          ext other sequence
          rw [OrderedMap.get?_clear]
          split_ifs with hother
          · simp [hother, hprevious]
          · rfl
        rw [Queue.clearClaim, hclaims]
      rw [hprevious] at hclaim
      rw [hclear] at hnext
      exact hnext hclaim
  | some sequence =>
      rw [hprevious] at hclaim
      dsimp only at hclaim
      split at hclaim
      · cases hclaim
      · next entry element hread =>
          split_ifs at hclaim with hheld
          · cases hclaim
            refine ⟨.refl, ?_⟩
            rintro claimed ⟨⟩
            refine .inl ⟨rfl, rfl, ?_, hheld.1, hheld.2⟩
            unfold Queue.readEntry at hread
            split at hread
            · cases hread
            · next hmetadata _ =>
                cases hread
                exact hmetadata
            · cases hread
          · exact hnext hclaim
      · exact hnext hclaim

/-! ## Refreshes, exits and cleanup -/

theorem heldBy_of_heldSince {queue : Queue ε} {claimId : String} {sequence : Nat}
    {entry : QueueEntryMetadata} {acquiredAt : Int}
    (h : queue.heldSince claimId sequence = some (entry, acquiredAt)) :
    queue.metadata.get? sequence = some entry ∧ entry.HeldBy claimId acquiredAt := by
  obtain ⟨hentry, hstate, hclaim, hacquired⟩ := heldSince_eq_some h
  exact ⟨hentry, hstate, hclaim, hacquired⟩

theorem PendingSound.refreshClaim {queue : Queue ε} (h : PendingSound queue) (claimId : String)
    (sequence : Nat) (now : Int) :
    Entrywise ⟨.refreshClaim claimId sequence, now⟩ queue
      (queue.refreshClaim claimId sequence now) := by
  unfold Queue.refreshClaim
  cases hheld : queue.heldSince claimId sequence with
  | none => exact .inl ⟨rfl, fun _ => rfl, rfl⟩
  | some held =>
      obtain ⟨entry, acquiredAt⟩ := held
      obtain ⟨hentry, hholds⟩ := heldBy_of_heldSince hheld
      refine .inr ⟨sequence, some { entry with acquiredAt := some now }, ?_, ?_⟩
      · rw [hentry]
        exact .refreshed hholds
      · refine h.writes_keep ?_ ?_ (fun _ => OrderedMap.get?_set _ _ _ _) ?_ rfl (by rw [hentry]; rfl)
        · intro entry' hentry'
          rw [hentry] at hentry'
          cases hentry'
          simp [hholds.state]
        · intro new hnew
          cases hnew
          simp [hholds.state]
        · intro row
          refine (get?_setIndex _ _ _ _ _ _).trans ?_
          rw [if_neg (by simp)]
          exact (same_clearIndex queue (by simp) _).pending row

theorem PendingSound.finalizeClaim {queue : Queue ε} (h : PendingSound queue) (claimId : String)
    (sequence attempts : Nat) (maxAttempts : Int) (retryDelay : Option Int) (exit : ClaimExit)
    (now : Int) :
    Entrywise ⟨.finalizeClaim claimId sequence attempts maxAttempts retryDelay exit, now⟩ queue
      (queue.finalizeClaim claimId sequence attempts maxAttempts retryDelay exit now) := by
  have hfinal := finalState_ne_processing exit attempts maxAttempts now retryDelay
  unfold Queue.finalizeClaim
  generalize Queue.finalState exit attempts maxAttempts now retryDelay = final at hfinal
  obtain ⟨state, visibleAt, decrementAttempt⟩ := final
  dsimp only at hfinal ⊢
  cases hheld : queue.heldSince claimId sequence with
  | none => exact .inl ⟨rfl, fun _ => rfl, rfl⟩
  | some held =>
      obtain ⟨entry, acquiredAt⟩ := held
      obtain ⟨hentry, hholds⟩ := heldBy_of_heldSince hheld
      dsimp only
      generalize hupdated : QueueEntryMetadata.mk entry.id
        (if decrementAttempt = true then entry.attempts - 1 else entry.attempts) state visibleAt
        none none now = updated
      have hstate : updated.state = state := by rw [← hupdated]
      have hvisible : updated.visibleAt = visibleAt := by rw [← hupdated]
      have hold : ∀ entry, queue.metadata.get? sequence = some entry → entry.state ≠ .pending := by
        intro entry' hentry'
        rw [hentry] at hentry'
        cases hentry'
        simp [hholds.state]
      have hcleared : ∀ row, (((queue.clearIndex .processing
          (toLex (timestamp acquiredAt, sequence))).index .pending).get? row) =
            (queue.index .pending).get? row :=
        (same_clearIndex queue (by simp) _).pending
      refine .inr ⟨sequence, some updated, ?_, ?_⟩
      · rw [hentry]
        exact .finalized hholds (by rwa [hstate])
      · split_ifs with hpending
        · refine h.writes_set hold (by rw [hstate, hpending])
            (fun _ => OrderedMap.get?_set _ _ _ _) ?_ le_rfl (h.stored sequence entry hentry)
          intro row
          refine (get?_setIndex _ _ _ _ _ _).trans ?_
          simp only [true_and, hvisible]
          exact congrArg _ (hcleared row)
        all_goals
          refine h.writes_keep hold ?_ (fun _ => OrderedMap.get?_set _ _ _ _) ?_ rfl
            (by rw [hentry]; rfl)
          · rintro new ⟨⟩
            rwa [hstate]
          · intro row
            refine (get?_setIndex _ _ _ _ _ _).trans ?_
            rw [if_neg (by simp)]
            exact hcleared row

theorem PendingSound.cleanupRow {queue : Queue ε} (h : PendingSound queue) (state : TerminalState)
    (timeToLive : Option Int) (now : Int) (indexed : (Int ×ₗ Nat) × Nat) :
    Entrywise ⟨.cleanup state timeToLive, now⟩ queue
      (queue.cleanupRow state (Queue.subtractDuration now timeToLive) indexed) := by
  have hterminal : state.entryState ≠ .pending := by cases state <;> simp [TerminalState.entryState]
  unfold Queue.cleanupRow
  dsimp only
  cases hentry : queue.metadata.get? indexed.2 with
  | none => exact .inl (same_clearIndex queue hterminal _)
  | some entry =>
      dsimp only
      split_ifs with hexpired
      · refine .inr ⟨indexed.2, none, ?_, ?_⟩
        · rw [hentry]
          exact .removed hexpired.1
        · refine h.writes_keep ?_ (by simp) (fun _ => OrderedMap.get?_clear _ _ _) ?_ rfl
            (by rw [hentry]; rfl)
          · intro entry' hentry'
            rw [hentry] at hentry'
            cases hentry'
            rw [hexpired.1]
            exact hterminal
          · intro row
            refine (get?_clearIndex _ _ _ _ _).trans ?_
            rw [if_neg fun heq => hterminal heq.1.symm]
            rfl
      · exact .inl (same_clearIndex queue hterminal _)

theorem PendingSound.cleanupRows {queue : Queue ε} (h : PendingSound queue) (state : TerminalState)
    (timeToLive : Option Int) (now : Int) (entries : List ((Int ×ₗ Nat) × Nat)) :
    ReflTransGen (Entrywise ⟨.cleanup state timeToLive, now⟩) queue
      (entries.foldl (fun queue indexed =>
        queue.cleanupRow state (Queue.subtractDuration now timeToLive) indexed) queue) := by
  induction entries generalizing queue with
  | nil => exact .refl
  | cons indexed entries ih =>
      have hfirst := h.cleanupRow state timeToLive now indexed
      exact .head hfirst (ih (h.entrywise hfirst))

/-- A committed transaction rewrites one entry after another. -/
theorem QueueStep.chain {queue next : Queue ε} {commit : QueueCommit ε}
    (hstep : QueueStep queue commit next) (h : PendingSound queue) :
    ReflTransGen (Entrywise commit) queue next := by
  cases hstep with
  | offer now id element => exact .single (h.offer id element now)
  | claim now claimId maxAttempts lockExpiration hclaim => exact (h.claim hclaim).1
  | refreshClaim now claimId sequence => exact .single (h.refreshClaim claimId sequence now)
  | finalizeClaim now claimId sequence attempts maxAttempts retryDelay exit =>
      exact .single (h.finalizeClaim claimId sequence attempts maxAttempts retryDelay exit now)
  | cleanup now state timeToLive => exact h.cleanupRows state timeToLive now _

theorem PendingSound.of_run {queue queue' : Queue ε} {commits : List (QueueCommit ε)}
    (h : PendingSound queue) (hrun : Run QueueStep queue commits queue') : PendingSound queue' :=
  hrun.invariant (A := fun _ => True) (fun _ _ _ _ hstep hsound => hsound.chain (hstep.chain hsound))
    (fun _ _ => trivial) h

end FoundationDbEffect.PersistedQueue
