import FoundationDbEffect.PersistedQueue.Changes

/-!
# Exclusive, ordered and bounded claims

A claim acquires the first entry that is eligible. An entry that is held stays held, at the time
of its last refresh, until its holder ends it or its lock has expired and is recovered.
-/

namespace FoundationDbEffect.PersistedQueue

open FoundationDbEffect.Foundation
open Relation (ReflTransGen)

variable {ε : Type}

/-! ## Attempts -/

def QueueTransaction.Uses (maxAttempts : Int) : QueueTransaction ε → Prop
  | .claim _ attempts _ => attempts = maxAttempts
  | _ => True

structure QueueEntryMetadata.Leased (entry : QueueEntryMetadata) (maxAttempts : Int) : Prop where
  acquiredAt : entry.acquiredAt.isSome
  positive : 1 ≤ entry.attempts
  bounded : (entry.attempts : Int) ≤ maxAttempts

def AllLeased (queue : Queue ε) (maxAttempts : Int) : Prop :=
  ∀ sequence entry, queue.metadata.get? sequence = some entry → entry.state = .processing →
    entry.Leased maxAttempts

theorem Change.leased {now : Int} {transaction : QueueTransaction ε} {sequence : Nat}
    {old new : Option QueueEntryMetadata} {maxAttempts : Int}
    (h : Change now transaction sequence old new) (huses : transaction.Uses maxAttempts)
    (hold : ∀ entry, old = some entry → entry.state = .processing → entry.Leased maxAttempts) :
    ∀ entry, new = some entry → entry.state = .processing → entry.Leased maxAttempts := by
  rintro entry rfl hstate
  cases h with
  | offered => cases hstate
  | recovered =>
      unfold recoveredEntry at hstate
      split_ifs at hstate
  | failed => cases hstate
  | acquired hpending hattempts =>
      obtain rfl := huses
      refine ⟨rfl, Nat.succ_pos _, ?_⟩
      simp only [acquiredEntry]
      omega
  | refreshed hheld =>
      have hleased := hold _ rfl hheld.state
      exact ⟨rfl, hleased.positive, hleased.bounded⟩
  | finalized hheld hnot => exact absurd hstate hnot

theorem AllLeased.step {queue next : Queue ε} {commit : QueueCommit ε} {maxAttempts : Int}
    (h : AllLeased queue maxAttempts) (hsound : PendingSound queue)
    (hstep : QueueStep queue commit next) (huses : commit.transaction.Uses maxAttempts) :
    AllLeased next maxAttempts := by
  intro sequence
  have hchanges := changes_of_chain (hstep.chain hsound) sequence
  generalize next.metadata.get? sequence = new at hchanges
  induction hchanges with
  | refl => exact h sequence
  | tail _ hchange ih => exact hchange.leased huses ih

theorem AllLeased.of_run {queue queue' : Queue ε} {commits : List (QueueCommit ε)}
    {maxAttempts : Int} (h : AllLeased queue maxAttempts) (hsound : PendingSound queue)
    (hrun : Run QueueStep queue commits queue')
    (huses : ∀ commit ∈ commits, commit.transaction.Uses maxAttempts) :
    AllLeased queue' maxAttempts := by
  have hboth : PendingSound queue' ∧ AllLeased queue' maxAttempts := by
    refine hrun.invariant (P := fun state => PendingSound state ∧ AllLeased state maxAttempts) ?_
      huses ⟨hsound, h⟩
    rintro state commit next huses hstep ⟨hsound, hleased⟩
    exact ⟨hsound.chain (hstep.chain hsound), hleased.step hsound hstep huses⟩
  exact hboth.2

/-! ## Held entries -/

def Held (queue : Queue ε) (claimId : String) (sequence : Nat) (acquiredAt : Int) : Prop :=
  ∃ entry, queue.metadata.get? sequence = some entry ∧ entry.HeldBy claimId acquiredAt

/-- The time of the last refresh of an entry that is held since a time. -/
def leaseTime (claimId : String) (sequence : Nat) (acquiredAt : Int)
    (commits : List (QueueCommit ε)) : Int :=
  commits.foldl (fun time commit =>
    match commit.transaction with
    | .refreshClaim claimId' sequence' =>
      if claimId' = claimId ∧ sequence' = sequence then commit.now else time
    | _ => time) acquiredAt

/-- The holder ends the entry, or a claim recovers it, at least its lock expiration after the
entry was acquired. -/
structure Releases (claimId : String) (sequence : Nat) (acquiredAt : Int) (queue : Queue ε)
    (commit : QueueCommit ε) (next : Queue ε) : Prop where
  step : QueueStep queue commit next
  held : Held queue claimId sequence acquiredAt
  changed : next.metadata.get? sequence ≠ queue.metadata.get? sequence
  cause : (∃ attempts maxAttempts retryDelay exit, commit.transaction =
      .finalizeClaim claimId sequence attempts maxAttempts retryDelay exit) ∨
    ∃ other maxAttempts milliseconds, commit.transaction =
      .claim other maxAttempts (some milliseconds) ∧ acquiredAt + milliseconds ≤ commit.now

/-- A claim that has recovered an entry does not give its attempt back. -/
theorem attempts_after_recovery {now : Int} {claimId : String} {maxAttempts : Int}
    {lockExpiration : Option Int} {sequence : Nat} (attempts : Nat)
    {old new : Option QueueEntryMetadata}
    (h : ReflTransGen (Change now (.claim claimId maxAttempts lockExpiration :
      QueueTransaction ε) sequence) old new)
    (hold : ∃ entry, old = some entry ∧ attempts ≤ entry.attempts ∧
      (entry.state = .processing → attempts < entry.attempts)) :
    ∃ entry, new = some entry ∧ attempts ≤ entry.attempts ∧
      (entry.state = .processing → attempts < entry.attempts) := by
  induction h with
  | refl => exact hold
  | tail _ hchange ih =>
      obtain ⟨entry, rfl, hle, hlt⟩ := ih
      cases hchange with
      | recovered hstate =>
          refine ⟨_, rfl, ?_, ?_⟩
          · unfold recoveredEntry
            split_ifs <;> exact hle
          · unfold recoveredEntry
            split_ifs <;> exact fun h => nomatch h
      | failed => exact ⟨_, rfl, hle, fun h => nomatch h⟩
      | acquired =>
          refine ⟨_, rfl, ?_, fun _ => ?_⟩
          · exact Nat.le_succ_of_le hle
          · exact Nat.lt_succ_of_le hle

theorem Held.refresh {queue : Queue ε} {claimId : String} {sequence : Nat} {acquiredAt : Int}
    (h : Held queue claimId sequence acquiredAt) (now : Int) :
    Held (queue.refreshClaim claimId sequence now) claimId sequence now := by
  obtain ⟨entry, hentry, hheld⟩ := h
  have hsince : queue.heldSince claimId sequence = some (entry, acquiredAt) := by
    simp [Queue.heldSince, hentry, hheld.state, hheld.acquiredBy, hheld.acquiredAt]
  refine ⟨{ entry with acquiredAt := some now }, ?_, hheld.state, hheld.acquiredBy, rfl⟩
  unfold Queue.refreshClaim
  rw [hsince]
  exact OrderedMap.get?_set_self _ _ _

/-- An entry stays held through a transaction that does not release it. -/
theorem Held.step {queue next : Queue ε} {commit : QueueCommit ε} {claimId : String}
    {sequence : Nat} {acquiredAt : Int} (h : Held queue claimId sequence acquiredAt)
    (hsound : PendingSound queue) (hstep : QueueStep queue commit next) :
    Held next claimId sequence (leaseTime claimId sequence acquiredAt [commit]) ∨
      Releases claimId sequence acquiredAt queue commit next := by
  obtain ⟨entry, hentry, hheld⟩ := h
  have hchanges := changes_of_chain (hstep.chain hsound) sequence
  rw [hentry] at hchanges
  have hkept (hsame : some entry = next.metadata.get? sequence) :
      Held next claimId sequence acquiredAt := ⟨entry, hsame.symm, hheld⟩
  obtain ⟨transaction, now⟩ := commit
  cases transaction with
  | offer id element =>
      rcases hchanges.cases_head with hsame | ⟨_, hchange, -⟩
      · exact .inl (hkept hsame)
      · cases hchange
  | claim other maxAttempts lockExpiration =>
      rcases hchanges.cases_head with hsame | ⟨_, hchange, hrest⟩
      · exact .inl (hkept hsame)
      · cases hchange with
        | failed hstate =>
            rw [hheld.state] at hstate
            cases hstate
        | acquired hstate =>
            rw [hheld.state] at hstate
            cases hstate
        | recovered hstate hacquired hexpired =>
            rw [hheld.acquiredAt] at hacquired
            cases hacquired
            refine .inr ⟨hstep, ⟨entry, hentry, hheld⟩, ?_, .inr ⟨_, _, _, rfl, hexpired⟩⟩
            obtain ⟨new, hnew, -, hlt⟩ := attempts_after_recovery entry.attempts hrest
              ⟨_, rfl, by unfold recoveredEntry; split_ifs <;> exact le_rfl, by
                unfold recoveredEntry
                split_ifs <;> exact fun h => nomatch h⟩
            rw [hnew, hentry]
            rintro ⟨⟩
            exact (hlt hheld.state).false
  | refreshClaim other sequence' =>
      by_cases hown : other = claimId ∧ sequence' = sequence
      · obtain ⟨rfl, rfl⟩ := hown
        cases hstep
        left
        simp only [leaseTime, List.foldl_cons, List.foldl_nil, and_self, if_true]
        exact Held.refresh ⟨entry, hentry, hheld⟩ now
      · left
        simp only [leaseTime, List.foldl_cons, List.foldl_nil, if_neg hown]
        rcases hchanges.cases_head with hsame | ⟨_, hchange, -⟩
        · exact hkept hsame
        · cases hchange with
          | refreshed hheld' =>
              have heq := hheld'.acquiredBy
              rw [hheld.acquiredBy] at heq
              cases heq
              exact absurd ⟨rfl, rfl⟩ hown
  | finalizeClaim other sequence' attempts maxAttempts retryDelay exit =>
      rcases hchanges.cases_head with hsame | ⟨_, hchange, hrest⟩
      · exact .inl (hkept hsame)
      · cases hchange with
        | @finalized _ _ _ _ _ _ _ _ updated hheld' hstate =>
            have heq := hheld'.acquiredBy
            rw [hheld.acquiredBy] at heq
            cases heq
            refine .inr ⟨hstep, ⟨entry, hentry, hheld⟩, ?_, .inl ⟨_, _, _, _, rfl⟩⟩
            rcases hrest.cases_head with hsame | ⟨_, hagain, -⟩
            · rw [← hsame, hentry]
              rintro ⟨⟩
              exact hstate hheld.state
            · cases hagain with
              | finalized hheld'' => exact absurd hheld''.state hstate
  | cleanup state timeToLive =>
      rcases hchanges.cases_head with hsame | ⟨_, hchange, -⟩
      · exact .inl (hkept hsame)
      · cases hchange with
        | removed hstate =>
            rw [hheld.state] at hstate
            cases state <;> cases hstate

theorem leaseTime_append (claimId : String) (sequence : Nat) (acquiredAt : Int)
    (commits more : List (QueueCommit ε)) :
    leaseTime claimId sequence acquiredAt (commits ++ more) =
      leaseTime claimId sequence (leaseTime claimId sequence acquiredAt commits) more :=
  List.foldl_append

/-- A commit of a run releases an entry that was held at its start. -/
def ReleasedIn (claimId : String) (sequence : Nat) (acquiredAt : Int) (queue : Queue ε)
    (commits : List (QueueCommit ε)) : Prop :=
  ∃ before commit after state next, commits = before ++ commit :: after ∧
    Run QueueStep queue before state ∧
    Releases claimId sequence (leaseTime claimId sequence acquiredAt before) state commit next

theorem Held.of_run {queue queue' : Queue ε} {commits : List (QueueCommit ε)} {claimId : String}
    {sequence : Nat} {acquiredAt : Int} (h : Held queue claimId sequence acquiredAt)
    (hsound : PendingSound queue) (hrun : Run QueueStep queue commits queue') :
    Held queue' claimId sequence (leaseTime claimId sequence acquiredAt commits) ∨
      ReleasedIn claimId sequence acquiredAt queue commits := by
  induction hrun with
  | nil => exact .inl h
  | @snoc state next labels commit hrun hlast ih =>
      rcases ih with hheld | ⟨before, released, after, state', next', rfl, hbefore, hreleases⟩
      · rcases hheld.step (hsound.of_run hrun) hlast with hheld' | hreleases
        · rw [leaseTime_append]
          exact .inl hheld'
        · exact .inr ⟨labels, commit, [], state, next, rfl, hrun, hreleases⟩
      · refine .inr ⟨before, released, after ++ [commit], state', next', ?_, hbefore, hreleases⟩
        rw [List.append_assoc, List.cons_append]

/-! ## Runs -/

theorem claims_of_run {queue : Queue ε} {commits : List (QueueCommit ε)} {maxAttempts : Int}
    (hrun : Run QueueStep Queue.empty commits queue)
    (hmax : ∀ commit ∈ commits, commit.transaction.Uses maxAttempts) :
    (∀ claimId now lockExpiration next claimed,
      queue.claim claimId maxAttempts now lockExpiration = .ok (next, .claimed claimed) →
      (∀ acquiredAt, ¬ Held queue claimId claimed.sequence acquiredAt) →
      ∃ entry, FirstEligible ((queue.clearClaim claimId).afterRecovery maxAttempts now
          lockExpiration) maxAttempts now claimed.sequence entry ∧
        claimed.entry = acquiredEntry entry claimId now) ∧
    (∀ first now lockExpiration queue' claimed,
      queue.claim first maxAttempts now lockExpiration = .ok (queue', .claimed claimed) →
      ∃ acquiredAt, claimed.entry.acquiredAt = some acquiredAt ∧
        ∀ later queue'', Run QueueStep queue' later queue'' →
        ∀ second now' lockExpiration' next claimed',
        queue''.claim second maxAttempts now' lockExpiration' = .ok (next, .claimed claimed') →
        claimed'.sequence = claimed.sequence → second ≠ first →
        ReleasedIn first claimed.sequence acquiredAt queue'
          (later ++ [⟨.claim second maxAttempts lockExpiration', now'⟩])) ∧
    (∀ sequence entry, queue.metadata.get? sequence = some entry → entry.state = .processing →
      1 ≤ entry.attempts ∧ (entry.attempts : Int) ≤ maxAttempts) ∧
    ∀ claimId sequence, (∀ acquiredAt, ¬ Held queue claimId sequence acquiredAt) →
      (∀ now, queue.refreshClaim claimId sequence now = queue) ∧
      ∀ attempts maxAttempts retryDelay exit now,
        queue.finalizeClaim claimId sequence attempts maxAttempts retryDelay exit now = queue := by
  have hsound : PendingSound queue := PendingSound.empty.of_run hrun
  have hempty : AllLeased (Queue.empty : Queue ε) maxAttempts := by
    intro sequence entry hentry
    cases hentry
  have hleased : AllLeased queue maxAttempts := hempty.of_run .empty hrun hmax
  have hheld {claimId : String} {sequence : Nat} {entry : QueueEntryMetadata}
      (hentry : queue.metadata.get? sequence = some entry) (hstate : entry.state = .processing)
      (hclaim : entry.acquiredBy = some claimId) :
      ∃ acquiredAt, entry.HeldBy claimId acquiredAt := by
    obtain ⟨acquiredAt, hacquired⟩ := Option.isSome_iff_exists.mp
      (hleased sequence entry hentry hstate).acquiredAt
    exact ⟨acquiredAt, hstate, hclaim, hacquired⟩
  refine ⟨?_, ?_, ?_, ?_⟩
  · intro claimId now lockExpiration next claimed hclaim hnot
    rcases (hsound.claim hclaim).2 claimed rfl with hagain | ⟨entry, hfirst, hacquires⟩
    · obtain ⟨acquiredAt, hholds⟩ := hheld hagain.stored hagain.state hagain.acquiredBy
      exact absurd ⟨claimed.entry, hagain.stored, hholds⟩ (hnot acquiredAt)
    · obtain ⟨entry', hentry', heq⟩ := hacquires.acquired
      rw [hfirst.stored] at hentry'
      cases hentry'
      exact ⟨entry, hfirst, heq⟩
  · intro first now lockExpiration queue' claimed hclaim
    obtain ⟨acquiredAt, hholds⟩ : ∃ acquiredAt, claimed.entry.HeldBy first acquiredAt ∧
        queue'.metadata.get? claimed.sequence = some claimed.entry := by
      rcases (hsound.claim hclaim).2 claimed rfl with hagain | ⟨entry, -, hacquires⟩
      · obtain ⟨acquiredAt, hholds⟩ := hheld hagain.stored hagain.state hagain.acquiredBy
        rw [hagain.same]
        exact ⟨acquiredAt, hholds, hagain.stored⟩
      · exact ⟨now, hacquires.held, hacquires.stored⟩
    refine ⟨acquiredAt, hholds.1.acquiredAt, ?_⟩
    intro later queue'' hlater second now' lockExpiration' next claimed' hclaim' hsequence hne
    have hsound' := hsound.chain (hsound.claim hclaim).1
    have hrun' : Run QueueStep queue' (later ++ [⟨.claim second maxAttempts lockExpiration', now'⟩])
        next := hlater.snoc (.claim now' second maxAttempts lockExpiration' hclaim')
    have hstart : Held queue' first claimed.sequence acquiredAt :=
      ⟨claimed.entry, hholds.2, hholds.1⟩
    refine (hstart.of_run hsound' hrun').resolve_left ?_
    -- The second claim holds the entry in the end.
    rintro ⟨entry, hentry, hfirst⟩
    have hsecond : next.metadata.get? claimed'.sequence = some claimed'.entry ∧
        claimed'.entry.acquiredBy = some second := by
      rcases ((hsound'.of_run hlater).claim hclaim').2 claimed' rfl with hagain | ⟨_, -, hacquires⟩
      · rw [hagain.same]
        exact ⟨hagain.stored, hagain.acquiredBy⟩
      · exact ⟨hacquires.stored, hacquires.held.acquiredBy⟩
    rw [hsequence, hentry] at hsecond
    obtain ⟨heq, hby⟩ := hsecond
    cases heq
    rw [hfirst.acquiredBy] at hby
    cases hby
    exact hne rfl
  · intro sequence entry hentry hstate
    have hentryLeased := hleased sequence entry hentry hstate
    exact ⟨hentryLeased.positive, hentryLeased.bounded⟩
  · intro claimId sequence hnot
    have hsince : queue.heldSince claimId sequence = none := by
      rw [Option.eq_none_iff_forall_ne_some]
      rintro ⟨entry, acquiredAt⟩ hsince
      obtain ⟨hentry, hholds⟩ := heldBy_of_heldSince hsince
      exact hnot acquiredAt ⟨entry, hentry, hholds⟩
    constructor
    · intro now
      rw [Queue.refreshClaim, hsince]
    · intro attempts maxAttempts retryDelay exit now
      rw [Queue.finalizeClaim, hsince]

def heldJob : List (QueueCommit Unit) :=
  [⟨.offer "job" (), 0⟩]

theorem claims_heldJob :
    ∃ (queue queue' next : Queue Unit) (claimed claimed' : Queue.ClaimedEntry Unit),
      Run QueueStep Queue.empty heldJob queue ∧
      queue.claim "first" 10 5 (some 100) = .ok (queue', .claimed claimed) ∧
      (queue'.refreshClaim "first" 0 50).claim "second" 10 150 (some 100) =
        .ok (next, .claimed claimed') ∧
      ReleasedIn "first" 0 5 queue'
        [⟨.refreshClaim "first" 0, 50⟩, ⟨.claim "second" 10 (some 100), 150⟩] := by
  have hrun : Run QueueStep (Queue.empty : Queue Unit) heldJob _ := .snoc (.nil _) (.offer _ _ _ _)
  have huses : ∀ commit ∈ heldJob, commit.transaction.Uses 10 := by
    simp [heldJob, QueueTransaction.Uses]
  refine ⟨_, _, _, _, _, hrun, rfl, rfl, ?_⟩
  obtain ⟨acquiredAt, hacquired, hreleased⟩ := (claims_of_run hrun huses).2.1 "first" 5 (some 100)
    _ _ rfl
  cases hacquired
  exact hreleased _ _ (.single (.refreshClaim _ 50 "first" 0)) "second" 150 (some 100) _ _ rfl rfl
    (by simp)

/-- The first of two jobs is claimed, interrupted, and claimed again before the second one,
although it is visible only from then on. The clock starts before 1970. -/
def earlyJobs : List (QueueCommit Unit) :=
  [⟨.offer "first" (), -10⟩, ⟨.offer "second" (), -5⟩, ⟨.claim "a" 10 (some 1000), 0⟩,
    ⟨.finalizeClaim "a" 0 1 10 none (.failure false true), 0⟩]

def askedAgain : List (QueueCommit Unit) :=
  [⟨.offer "job" (), 0⟩, ⟨.claim "first" 10 (some 10), 0⟩, ⟨.claim "first" 10 (some 10), 9⟩]

theorem not_ordered_earlyJobs :
    (∃ (queue next : Queue Unit) (claimed : Queue.ClaimedEntry Unit)
        (entry entry' : QueueEntryMetadata),
      Run QueueStep Queue.empty earlyJobs queue ∧
      queue.claim "b" 10 0 (some 1000) = .ok (next, .claimed claimed) ∧ claimed.sequence = 0 ∧
      ((queue.clearClaim "b").afterRecovery 10 0 (some 1000)).metadata.get? 0 = some entry ∧
      ((queue.clearClaim "b").afterRecovery 10 0 (some 1000)).metadata.get? 1 = some entry' ∧
      entry'.state = .pending ∧ entry'.visibleAt ≤ 0 ∧ entry'.attempts < 10 ∧
      toLex (entry'.visibleAt, 1) < toLex (entry.visibleAt, 0)) ∧
    ∃ (queue next : Queue Unit) (claimed : Queue.ClaimedEntry Unit),
      Run QueueStep Queue.empty askedAgain queue ∧
      queue.claim "second" 10 10 (some 10) = .ok (next, .claimed claimed) ∧
      claimed.sequence = 0 ∧ (10 : Int) < 9 + 10 := by
  constructor
  · have hrun : Run QueueStep (Queue.empty : Queue Unit) earlyJobs _ :=
      .snoc (.snoc (.snoc (.snoc (.nil _) (.offer _ _ _ _)) (.offer _ _ _ _))
        (.claim _ _ _ _ rfl)) (.finalizeClaim _ _ _ _ _ _ _ _)
    exact ⟨_, _, _, _, _, hrun, rfl, rfl, rfl, rfl, rfl, by decide, by decide, by decide⟩
  · have hrun : Run QueueStep (Queue.empty : Queue Unit) askedAgain _ :=
      .snoc (.snoc (.snoc (.nil _) (.offer _ _ _ _)) (.claim _ _ _ _ rfl)) (.claim _ _ _ _ rfl)
    exact ⟨_, _, _, hrun, rfl, rfl, by decide⟩

end FoundationDbEffect.PersistedQueue
