import FoundationDbEffect.Client.Transaction
import FoundationDbEffect.Foundation.Trace
import Mathlib.Data.List.Forall2

/-!
# The retry protocol

Every event of a run is guarded by its past: a body starts only when all earlier attempts
were retried, a commit and an `on_error` call only after their scope was closed, and an
`on_error` call only after the post-commit futures of its attempt were cancelled.  The exit
of a run is read off the attempt that ended it, and every attempt either ends the run or is
followed by the next one, as the outcomes of its body and of the driver say.
-/

namespace FoundationDbEffect.Client

open FoundationDbEffect.Foundation

variable {ε δ α : Type}

def Event.context? : Event ε δ → Option TransactionAttempt
  | .bodyStarted context => some context
  | _ => none

def started (trace : List (Event ε δ)) : List TransactionAttempt :=
  trace.filterMap Event.context?

@[simp] theorem started_nil : started ([] : List (Event ε δ)) = [] := rfl

@[simp] theorem started_onErrorCalled (attempt : Nat) (failure : FoundationDbError)
    (exit : Exit ε δ Unit) :
    started [Event.onErrorCalled attempt failure exit] = [] := rfl

@[simp] theorem started_append (first second : List (Event ε δ)) :
    started (first ++ second) = started first ++ started second :=
  List.filterMap_append

@[simp] theorem mem_started {trace : List (Event ε δ)} {context : TransactionAttempt} :
    context ∈ started trace ↔ .bodyStarted context ∈ trace := by
  unfold started
  rw [List.mem_filterMap]
  constructor
  · rintro ⟨event, hmem, hcontext⟩
    cases event with
    | bodyStarted context' =>
        simp only [Event.context?, Option.some.injEq] at hcontext
        rwa [← hcontext]
    | _ => simp [Event.context?] at hcontext
  · intro hmem
    exact ⟨_, hmem, rfl⟩

/-! ## What the past of a run looks like -/

structure RetriedWith (outcomes : Outcomes ε δ α) (options : TransactionOptions)
    (past : List (Event ε δ)) (context : TransactionAttempt) (failure : FoundationDbError) :
    Prop where
  exit : attemptExit outcomes context = .failure [.foundationDb failure]
  handled : .onErrorCalled context.attempt failure (.success ()) ∈ past
  allowed : options.retryOnMaybeCommitted = some false → failure.maybeCommitted = false

/-- The past consists of the attempts `1`, `2`, … in this order, and each of them was
retried after the failure listed for it. -/
structure Retried (outcomes : Outcomes ε δ α) (options : TransactionOptions)
    (past : List (Event ε δ)) (failures : List FoundationDbError) : Prop where
  numbered : (started past).map TransactionAttempt.attempt = List.range' 1 failures.length
  failed : List.Forall₂ (RetriedWith outcomes options past) (started past) failures

/-- What must have happened before an event. -/
def Permitted (outcomes : Outcomes ε δ α) (options : TransactionOptions)
    (past : List (Event ε δ)) : Event ε δ → Prop
  | .bodyStarted context =>
      ∃ failures, Retried outcomes options past failures ∧
        context.attempt = failures.length + 1 ∧
        context.maybeCommitted = failures.any FoundationDbError.maybeCommitted
  | .scopeClosed attempt => ∃ context, .bodyStarted context ∈ past ∧ context.attempt = attempt
  | .committed attempt _ => .scopeClosed attempt ∈ past
  | .onErrorCalled attempt failure _ =>
      .scopeClosed attempt ∈ past ∧
        ∃ context, .bodyStarted context ∈ past ∧ context.attempt = attempt ∧
          attemptExit outcomes context = .failure [.foundationDb failure] ∧
          ∀ future ∈ (outcomes.body context).postCommitFutures,
            .futureCancelled attempt future ∈ past
  | _ => True

section

variable {outcomes : Outcomes ε δ α} {options : TransactionOptions}

theorem RetriedWith.mono {past past' : List (Event ε δ)} {context : TransactionAttempt}
    {failure : FoundationDbError} (h : RetriedWith outcomes options past context failure)
    (hsub : past ⊆ past') : RetriedWith outcomes options past' context failure :=
  ⟨h.exit, hsub h.handled, h.allowed⟩

theorem Retried.next {past later : List (Event ε δ)} {failures : List FoundationDbError}
    {context : TransactionAttempt} {failure : FoundationDbError}
    (h : Retried outcomes options past failures) (hlater : started later = [context])
    (hnumber : context.attempt = failures.length + 1)
    (hretried : RetriedWith outcomes options (past ++ later) context failure) :
    Retried outcomes options (past ++ later) (failures ++ [failure]) := by
  constructor
  · rw [started_append, hlater, List.map_append, h.numbered, List.length_append,
      List.length_singleton, ← List.range'_append_1]
    simp [hnumber, Nat.add_comm]
  · rw [started_append, hlater]
    exact List.rel_append
      (h.failed.imp fun _ _ hprior => hprior.mono (List.subset_append_left _ _))
      (.cons hretried .nil)

/-! ## One attempt -/

theorem singleFoundationDbFailure_eq_some {cause : Cause ε δ} {failure : FoundationDbError} :
    singleFoundationDbFailure cause = some failure ↔ cause = [.foundationDb failure] := by
  constructor
  · intro h
    unfold singleFoundationDbFailure at h
    split at h
    · rw [Option.some.inj h]
    · cases h
  · rintro rfl
    rfl

theorem singleFoundationDbFailure_eq_none {cause : Cause ε δ} :
    singleFoundationDbFailure cause = none ↔ ∀ failure, cause ≠ [.foundationDb failure] := by
  rw [Option.eq_none_iff_forall_ne_some]
  exact forall_congr' fun failure => not_congr singleFoundationDbFailure_eq_some

@[simp] theorem started_runAttempt (context : TransactionAttempt) :
    started (runAttempt outcomes context) = [context] := by
  unfold runAttempt commitEvents cancelPostCommitFutures
  cases (outcomes.body context).exit <;> cases attemptExit outcomes context <;>
    simp [started, Event.context?]

@[simp] theorem started_nextConflictingKeyRanges (context : TransactionAttempt) :
    started (nextConflictingKeyRanges outcomes options context).1 = [] := by
  unfold nextConflictingKeyRanges
  split <;> simp [started, Event.context?]

theorem scopeClosed_mem_runAttempt (context : TransactionAttempt) :
    .scopeClosed context.attempt ∈ runAttempt outcomes context := by
  simp [runAttempt]

theorem bodyStarted_mem_runAttempt (context : TransactionAttempt) :
    .bodyStarted context ∈ runAttempt outcomes context := by
  simp [runAttempt]

theorem futureCancelled_mem_runAttempt {context : TransactionAttempt} {cause : Cause ε δ}
    (hexit : attemptExit outcomes context = .failure cause) {future : Nat}
    (hfuture : future ∈ (outcomes.body context).postCommitFutures) :
    .futureCancelled context.attempt future ∈ runAttempt outcomes context := by
  unfold runAttempt cancelPostCommitFutures
  rw [hexit]
  exact List.mem_append_right _ (List.mem_map_of_mem hfuture)

theorem committed_not_mem_cancelPostCommitFutures (context : TransactionAttempt) (attempt : Nat)
    (exit : Exit ε δ Int) :
    .committed attempt exit ∉ cancelPostCommitFutures outcomes context := by
  unfold cancelPostCommitFutures
  cases attemptExit outcomes context <;> simp

theorem committed_mem_runAttempt {context : TransactionAttempt} {attempt : Nat} {version : Int}
    (h : .committed attempt (.success version) ∈ runAttempt outcomes context) :
    attempt = context.attempt ∧ ∃ value, (outcomes.body context).exit = .success value ∧
      attemptExit outcomes context = .success ⟨value, version⟩ := by
  have hcommit : .committed attempt (.success version) ∈ commitEvents outcomes context := by
    simpa [runAttempt, committed_not_mem_cancelPostCommitFutures] using h
  unfold commitEvents at hcommit
  cases hbody : (outcomes.body context).exit with
  | failure cause => simp [hbody] at hcommit
  | success value =>
      obtain ⟨hattempt, hversion⟩ : attempt = context.attempt ∧
          .success version = outcomes.commit context.attempt := by
        simpa [hbody] using hcommit
      refine ⟨hattempt, value, rfl, ?_⟩
      simp [attemptExit, hbody, ← hversion]

theorem runAttempt_guarded {past : List (Event ε δ)} {context : TransactionAttempt}
    (hstart : Permitted outcomes options past (.bodyStarted context)) :
    Guarded (Permitted outcomes options) past (runAttempt outcomes context) := by
  unfold runAttempt
  refine Guarded.append (Guarded.append ⟨hstart, ?_, trivial⟩ ?_) ?_
  · exact ⟨context, by simp, rfl⟩
  · apply Guarded.of_forall
    intro later event hmem
    unfold commitEvents at hmem
    cases hbody : (outcomes.body context).exit with
    | failure cause => simp [hbody] at hmem
    | success value =>
        simp only [hbody, List.mem_singleton] at hmem
        subst hmem
        show Event.scopeClosed context.attempt ∈ _
        simp
  · apply Guarded.of_forall
    intro later event hmem
    unfold cancelPostCommitFutures at hmem
    cases hexit : attemptExit outcomes context with
    | success result => simp [hexit] at hmem
    | failure cause =>
        simp only [hexit, List.mem_map] at hmem
        obtain ⟨future, -, rfl⟩ := hmem
        trivial

/-- Everything one pass of the loop can do: it succeeds, it gives up, or it retries. -/
inductive AttemptOnce (outcomes : Outcomes ε δ α) (options : TransactionOptions)
    (context : TransactionAttempt) :
    List (Event ε δ) × (Exit ε δ (FoundationDbTransactionResult α) ⊕ TransactionAttempt) →
    Prop where
  | succeeded (result : FoundationDbTransactionResult α)
      (hexit : attemptExit outcomes context = .success result) :
      AttemptOnce outcomes options context (runAttempt outcomes context, .inl (.success result))
  | returned (cause : Cause ε δ) (hexit : attemptExit outcomes context = .failure cause)
      (hcause : ∀ failure, cause = [.foundationDb failure] →
        failure.maybeCommitted = true ∧ options.retryOnMaybeCommitted = some false) :
      AttemptOnce outcomes options context (runAttempt outcomes context, .inl (.failure cause))
  | unreported (failure : FoundationDbError) (cause : Cause ε δ)
      (hexit : attemptExit outcomes context = .failure [.foundationDb failure])
      (hallowed : options.retryOnMaybeCommitted = some false → failure.maybeCommitted = false)
      (hranges : (nextConflictingKeyRanges outcomes options context).2 = .failure cause) :
      AttemptOnce outcomes options context
        (runAttempt outcomes context ++ (nextConflictingKeyRanges outcomes options context).1,
          .inl (.failure cause))
  | unhandled (failure : FoundationDbError) (ranges : List ConflictRange) (cause : Cause ε δ)
      (hexit : attemptExit outcomes context = .failure [.foundationDb failure])
      (hallowed : options.retryOnMaybeCommitted = some false → failure.maybeCommitted = false)
      (hranges : (nextConflictingKeyRanges outcomes options context).2 = .success ranges)
      (hhandled : outcomes.onError context.attempt failure = .failure cause) :
      AttemptOnce outcomes options context
        (runAttempt outcomes context ++ ((nextConflictingKeyRanges outcomes options context).1 ++
          [.onErrorCalled context.attempt failure (.failure cause)]),
          .inl (.failure (mapOnErrorCause cause
            (context.maybeCommitted || failure.maybeCommitted))))
  | retried (failure : FoundationDbError) (ranges : List ConflictRange)
      (hexit : attemptExit outcomes context = .failure [.foundationDb failure])
      (hallowed : options.retryOnMaybeCommitted = some false → failure.maybeCommitted = false)
      (hranges : (nextConflictingKeyRanges outcomes options context).2 = .success ranges)
      (hhandled : outcomes.onError context.attempt failure = .success ()) :
      AttemptOnce outcomes options context
        (runAttempt outcomes context ++ ((nextConflictingKeyRanges outcomes options context).1 ++
          [.onErrorCalled context.attempt failure (.success ())]),
          .inr ⟨context.attempt + 1, context.maybeCommitted || failure.maybeCommitted, ranges⟩)

theorem attemptOnce_spec (outcomes : Outcomes ε δ α) (options : TransactionOptions)
    (context : TransactionAttempt) :
    AttemptOnce outcomes options context (attemptOnce outcomes options context) := by
  unfold attemptOnce
  cases hexit : attemptExit outcomes context with
  | success result => exact .succeeded result hexit
  | failure cause =>
      cases hsingle : singleFoundationDbFailure cause with
      | none =>
          have hnext : onFailure outcomes options context cause = ([], .inl (.failure cause)) := by
            simp [onFailure, hsingle]
          simp only [hnext, List.append_nil]
          refine .returned cause hexit ?_
          intro failure hcause
          exact absurd hcause (singleFoundationDbFailure_eq_none.mp hsingle failure)
      | some failure =>
          obtain rfl := singleFoundationDbFailure_eq_some.mp hsingle
          by_cases hstop :
              (failure.maybeCommitted && options.retryOnMaybeCommitted == some false) = true
          · have hnext : onFailure outcomes options context [.foundationDb failure] =
                ([], .inl (.failure [.foundationDb failure])) := by
              simp [onFailure, singleFoundationDbFailure, hstop]
            simp only [hnext, List.append_nil]
            refine .returned _ hexit ?_
            intro failure' hcause
            obtain rfl : failure = failure' := by simpa using hcause
            simpa using hstop
          · have hallowed : options.retryOnMaybeCommitted = some false →
                failure.maybeCommitted = false := by
              intro hoption
              simpa [hoption] using hstop
            rcases hranges : nextConflictingKeyRanges outcomes options context with
              ⟨events, ranges | cause⟩
            · cases hhandled : outcomes.onError context.attempt failure with
              | success _ =>
                  have h : AttemptOnce outcomes options context _ :=
                    .retried failure ranges hexit hallowed (by rw [hranges]) hhandled
                  simpa [onFailure, singleFoundationDbFailure, hstop, hranges, hhandled] using h
              | failure cause =>
                  have h : AttemptOnce outcomes options context _ :=
                    .unhandled failure ranges cause hexit hallowed (by rw [hranges]) hhandled
                  simpa [onFailure, singleFoundationDbFailure, hstop, hranges, hhandled] using h
            · have h : AttemptOnce outcomes options context _ :=
                .unreported failure cause hexit hallowed (by rw [hranges])
              simpa [onFailure, singleFoundationDbFailure, hstop, hranges] using h

theorem nextConflictingKeyRanges_guarded (past : List (Event ε δ))
    (context : TransactionAttempt) :
    Guarded (Permitted outcomes options) past
      (nextConflictingKeyRanges outcomes options context).1 := by
  unfold nextConflictingKeyRanges
  split
  · exact ⟨trivial, trivial⟩
  · trivial

theorem onErrorCalled_permitted {past : List (Event ε δ)} {context : TransactionAttempt}
    {failure : FoundationDbError}
    (hexit : attemptExit outcomes context = .failure [.foundationDb failure])
    (hsub : runAttempt outcomes context ⊆ past) (exit : Exit ε δ Unit) :
    Permitted outcomes options past (.onErrorCalled context.attempt failure exit) := by
  refine ⟨hsub (scopeClosed_mem_runAttempt context), context,
    hsub (bodyStarted_mem_runAttempt context), rfl, hexit, ?_⟩
  intro future hfuture
  exact hsub (futureCancelled_mem_runAttempt hexit hfuture)

theorem attemptOnce_guarded {past : List (Event ε δ)} {context : TransactionAttempt}
    (hstart : Permitted outcomes options past (.bodyStarted context)) :
    Guarded (Permitted outcomes options) past (attemptOnce outcomes options context).1 := by
  have hbody := runAttempt_guarded hstart
  have hranges (past : List (Event ε δ)) : Guarded (Permitted outcomes options) past
      (nextConflictingKeyRanges outcomes options context).1 :=
    nextConflictingKeyRanges_guarded past context
  have hsub (later : List (Event ε δ)) :
      runAttempt outcomes context ⊆ past ++ runAttempt outcomes context ++ later :=
    fun _ hmem => List.mem_append_left _ (List.mem_append_right _ hmem)
  have hspec := attemptOnce_spec outcomes options context
  generalize attemptOnce outcomes options context = once at hspec ⊢
  cases hspec with
  | succeeded result hexit => exact hbody
  | returned cause hexit hcause => exact hbody
  | unreported failure cause hexit => exact hbody.append (hranges _)
  | unhandled failure ranges cause hexit =>
      exact hbody.append ((hranges _).append
        ⟨onErrorCalled_permitted hexit (hsub _) _, trivial⟩)
  | retried failure ranges hexit hallowed =>
      exact hbody.append ((hranges _).append
        ⟨onErrorCalled_permitted hexit (hsub _) _, trivial⟩)

/-- A retry extends the past by one retried attempt and carries its flag over. -/
theorem bodyStarted_permitted_next {past : List (Event ε δ)} {context next : TransactionAttempt}
    {events : List (Event ε δ)}
    (hstart : Permitted outcomes options past (.bodyStarted context))
    (hnext : attemptOnce outcomes options context = (events, .inr next)) :
    Permitted outcomes options (past ++ events) (.bodyStarted next) := by
  obtain ⟨failures, hretried, hnumber, hflag⟩ := hstart
  have hspec := attemptOnce_spec outcomes options context
  rw [hnext] at hspec
  cases hspec with
  | retried failure ranges hexit hallowed =>
      refine ⟨failures ++ [failure], ?_, ?_, ?_⟩
      · refine hretried.next (by simp) hnumber ⟨hexit, ?_, hallowed⟩
        simp
      · simp [hnumber]
      · simp [hflag]

/-- The run lemma: whatever the fuel, the attempts of a call are guarded. -/
theorem attempt_guarded (fuel : Nat) {past : List (Event ε δ)} {context : TransactionAttempt}
    (hstart : Permitted outcomes options past (.bodyStarted context)) :
    Guarded (Permitted outcomes options) past (attempt outcomes options fuel context).trace := by
  induction fuel generalizing past context with
  | zero => trivial
  | succ fuel ih =>
      have hguarded := attemptOnce_guarded hstart
      rw [attempt]
      rcases honce : attemptOnce outcomes options context with ⟨events, exit | next⟩
      · simpa [honce] using hguarded
      · rw [honce] at hguarded
        exact hguarded.append (ih (bodyStarted_permitted_next hstart honce))

/-! ## The exit of a run -/

/-- How the exit of a run follows from the attempts it made, as long as the handle closes. -/
structure Concluded (outcomes : Outcomes ε δ α)
    (run : Run ε δ (FoundationDbTransactionResult α)) : Prop where
  success : ∀ result, run.exit = some (.success result) →
    ∃ attempt, .committed attempt (.success result.committedVersion) ∈ run.trace
  committed : ∀ attempt version, .committed attempt (.success version) ∈ run.trace →
    (∀ context, .bodyStarted context ∈ run.trace → context.attempt ≤ attempt) ∧
      ∃ context value, .bodyStarted context ∈ run.trace ∧ context.attempt = attempt ∧
        (outcomes.body context).exit = .success value ∧
        (outcomes.closeTransaction = none → run.exit = some (.success ⟨value, version⟩))
  returned : ∀ context cause, .bodyStarted context ∈ run.trace →
    attemptExit outcomes context = .failure cause →
    (∀ failure, cause ≠ [.foundationDb failure]) →
      (∀ later, .bodyStarted later ∈ run.trace → later.attempt ≤ context.attempt) ∧
        (outcomes.closeTransaction = none → run.exit = some (.failure cause))

theorem concluded_none : Concluded outcomes ⟨[], none⟩ := by
  constructor <;> simp

theorem attemptOnce_started (context : TransactionAttempt) :
    started (attemptOnce outcomes options context).1 = [context] := by
  have hspec := attemptOnce_spec outcomes options context
  generalize attemptOnce outcomes options context = once at hspec ⊢
  cases hspec <;> simp

theorem bodyStarted_mem_attemptOnce {context later : TransactionAttempt} :
    .bodyStarted later ∈ (attemptOnce outcomes options context).1 ↔ later = context := by
  rw [← mem_started, attemptOnce_started, List.mem_singleton]

theorem committed_mem_attemptOnce {context : TransactionAttempt} {attempt : Nat}
    {version : Int}
    (h : .committed attempt (.success version) ∈ (attemptOnce outcomes options context).1) :
    attempt = context.attempt ∧ ∃ value, (outcomes.body context).exit = .success value ∧
      attemptExit outcomes context = .success ⟨value, version⟩ := by
  have hranges (exit : Exit ε δ Int) :
      .committed attempt exit ∉ (nextConflictingKeyRanges outcomes options context).1 := by
    unfold nextConflictingKeyRanges
    split <;> simp
  have hspec := attemptOnce_spec outcomes options context
  generalize attemptOnce outcomes options context = once at hspec h
  cases hspec <;> exact committed_mem_runAttempt (by simpa [hranges] using h)

theorem attemptOnce_of_success {context : TransactionAttempt}
    {result : FoundationDbTransactionResult α}
    (hexit : attemptExit outcomes context = .success result) :
    attemptOnce outcomes options context =
      (runAttempt outcomes context, .inl (.success result)) := by
  simp [attemptOnce, hexit]

theorem attemptOnce_inl_success {context : TransactionAttempt} {events : List (Event ε δ)}
    {result : FoundationDbTransactionResult α}
    (honce : attemptOnce outcomes options context = (events, .inl (.success result))) :
    attemptExit outcomes context = .success result := by
  have hspec := attemptOnce_spec outcomes options context
  rw [honce] at hspec
  cases hspec with
  | succeeded _ hexit => exact hexit

theorem attemptOnce_returned {context : TransactionAttempt} {cause : Cause ε δ}
    (hexit : attemptExit outcomes context = .failure cause)
    (hcause : ∀ failure, cause ≠ [.foundationDb failure]) :
    (attemptOnce outcomes options context).2 = .inl (.failure cause) := by
  simp [attemptOnce, hexit, onFailure, singleFoundationDbFailure_eq_none.mpr hcause]

theorem attemptOnce_inr {context next : TransactionAttempt} {events : List (Event ε δ)}
    (honce : attemptOnce outcomes options context = (events, .inr next)) :
    next.attempt = context.attempt + 1 := by
  have hspec := attemptOnce_spec outcomes options context
  rw [honce] at hspec
  cases hspec with
  | retried failure ranges hexit hallowed => rfl

theorem committed_mem_of_success {context : TransactionAttempt}
    {result : FoundationDbTransactionResult α}
    (hexit : attemptExit outcomes context = .success result) :
    .committed context.attempt (.success result.committedVersion) ∈
      runAttempt outcomes context := by
  have hcommit : .committed context.attempt (.success result.committedVersion) ∈
      commitEvents outcomes context := by
    unfold attemptExit at hexit
    unfold commitEvents
    cases hbody : (outcomes.body context).exit with
    | failure cause => simp [hbody] at hexit
    | success value =>
        cases hversion : outcomes.commit context.attempt with
        | failure cause => simp [hbody, hversion] at hexit
        | success version =>
            obtain rfl : ⟨value, version⟩ = result := by simpa [hbody, hversion] using hexit
            simp
  simp [runAttempt, hcommit]

theorem attemptOnce_concluded {context : TransactionAttempt} {events : List (Event ε δ)}
    {exit : Exit ε δ (FoundationDbTransactionResult α)}
    (honce : attemptOnce outcomes options context = (events, .inl exit)) :
    Concluded outcomes ⟨events, some exit⟩ := by
  have hevents : (attemptOnce outcomes options context).1 = events := by rw [honce]
  have hstarted (later : TransactionAttempt) : .bodyStarted later ∈ events ↔ later = context := by
    rw [← hevents]
    exact bodyStarted_mem_attemptOnce
  refine ⟨?_, ?_, ?_⟩
  · intro result hresult
    obtain rfl : exit = .success result := by simpa using hresult
    have hexit := attemptOnce_inl_success honce
    rw [attemptOnce_of_success hexit] at honce
    refine ⟨context.attempt, ?_⟩
    rw [← (Prod.mk.inj honce).1]
    exact committed_mem_of_success hexit
  · intro attempt version hmem
    rw [← hevents] at hmem
    obtain ⟨rfl, value, hbody, hexit⟩ := committed_mem_attemptOnce hmem
    rw [attemptOnce_of_success hexit] at honce
    refine ⟨?_, context, value, (hstarted context).mpr rfl, rfl, hbody, ?_⟩
    · intro later hlater
      rw [(hstarted later).mp hlater]
    · intro _
      rw [← Sum.inl.inj (Prod.mk.inj honce).2]
  · intro context' cause hmem hexit hcause
    obtain rfl := (hstarted context').mp hmem
    have hreturned : (attemptOnce outcomes options context').2 = .inl (.failure cause) :=
      attemptOnce_returned hexit hcause
    rw [honce] at hreturned
    refine ⟨?_, ?_⟩
    · intro later hlater
      rw [(hstarted later).mp hlater]
    · intro _
      rw [← Sum.inl.inj hreturned]

theorem attempt_started_le (fuel : Nat) {context later : TransactionAttempt}
    (h : .bodyStarted later ∈ (attempt outcomes options fuel context).trace) :
    context.attempt ≤ later.attempt := by
  induction fuel generalizing context with
  | zero => simp [attempt] at h
  | succ fuel ih =>
      rw [attempt] at h
      rcases honce : attemptOnce outcomes options context with ⟨events, exit | next⟩
      · have hmem : .bodyStarted later ∈ (attemptOnce outcomes options context).1 := by
          simpa [honce] using h
        rw [bodyStarted_mem_attemptOnce.mp hmem]
      · rw [honce] at h
        rcases List.mem_append.mp h with hmem | hmem
        · rw [show events = (attemptOnce outcomes options context).1 by rw [honce]] at hmem
          rw [bodyStarted_mem_attemptOnce.mp hmem]
        · have hle := ih hmem
          rw [attemptOnce_inr honce] at hle
          omega

theorem Concluded.after {run : Run ε δ (FoundationDbTransactionResult α)}
    {context next : TransactionAttempt} {events : List (Event ε δ)}
    (h : Concluded outcomes run)
    (honce : attemptOnce outcomes options context = (events, .inr next))
    (hlater : ∀ later, .bodyStarted later ∈ run.trace → next.attempt ≤ later.attempt) :
    Concluded outcomes (run.after events) := by
  have hevents : events = (attemptOnce outcomes options context).1 := by rw [honce]
  have hcommitted (attempt : Nat) (version : Int) :
      .committed attempt (.success version) ∉ events := by
    intro hmem
    rw [hevents] at hmem
    obtain ⟨-, value, -, hexit⟩ := committed_mem_attemptOnce hmem
    rw [attemptOnce_of_success hexit] at honce
    cases (Prod.mk.inj honce).2
  have hstarted (later : TransactionAttempt) (hmem : .bodyStarted later ∈ events) :
      later = context := by
    rw [hevents] at hmem
    exact bodyStarted_mem_attemptOnce.mp hmem
  have hnext := attemptOnce_inr honce
  refine ⟨?_, ?_, ?_⟩
  · intro result hresult
    obtain ⟨attempt, hmem⟩ := h.success result hresult
    exact ⟨attempt, List.mem_append_right _ hmem⟩
  · intro attempt version hmem
    have hmem' := (List.mem_append.mp hmem).resolve_left (hcommitted attempt version)
    obtain ⟨hlast, context', value, hcontext', hattempt, hbody, hexit⟩ :=
      h.committed attempt version hmem'
    refine ⟨?_, context', value, List.mem_append_right _ hcontext', hattempt, hbody, hexit⟩
    intro later hlater'
    rcases List.mem_append.mp hlater' with hearly | hlate
    · obtain rfl := hstarted later hearly
      have hle := hlater context' hcontext'
      omega
    · exact hlast later hlate
  · intro context' cause hmem hexit hcause
    rcases List.mem_append.mp hmem with hearly | hlate
    · obtain rfl := hstarted context' hearly
      have hreturned : (attemptOnce outcomes options context').2 = .inl (.failure cause) :=
        attemptOnce_returned hexit hcause
      rw [honce] at hreturned
      cases hreturned
    · obtain ⟨hlast, hrun⟩ := h.returned context' cause hlate hexit hcause
      refine ⟨?_, hrun⟩
      intro later hlater'
      rcases List.mem_append.mp hlater' with hearly' | hlate'
      · obtain rfl := hstarted later hearly'
        have hle := hlater context' hlate
        omega
      · exact hlast later hlate'

theorem attempt_concluded (fuel : Nat) (context : TransactionAttempt) :
    Concluded outcomes (attempt outcomes options fuel context) := by
  induction fuel generalizing context with
  | zero => exact concluded_none
  | succ fuel ih =>
      rw [attempt]
      rcases honce : attemptOnce outcomes options context with ⟨events, exit | next⟩
      · exact attemptOnce_concluded honce
      · exact (ih next).after honce fun later hmem => attempt_started_le fuel hmem

/-! ## Progress -/

/-- Each attempt of a run does what the outcomes of its body and of the driver say, its events
together.  It ends the run, with an exit that `close` passes on, or it is followed by the next
attempt, as long as its number is below the limit. -/
def Proceeds (outcomes : Outcomes ε δ α) (options : TransactionOptions)
    (close : Exit ε δ (FoundationDbTransactionResult α) →
      Exit ε δ (FoundationDbTransactionResult α))
    (limit : Nat) (run : Run ε δ (FoundationDbTransactionResult α)) : Prop :=
  ∀ context, .bodyStarted context ∈ run.trace →
    ∃ events next, AttemptOnce outcomes options context (events, next) ∧ events <:+: run.trace ∧
      (∀ exit, next = .inl exit → run.exit = some (close exit)) ∧
      ∀ following, next = .inr following → context.attempt < limit →
        .bodyStarted following ∈ run.trace

theorem attempt_starts {fuel : Nat} (hfuel : 0 < fuel) (context : TransactionAttempt) :
    .bodyStarted context ∈ (attempt outcomes options fuel context).trace := by
  obtain ⟨fuel, rfl⟩ : ∃ k, fuel = k + 1 := ⟨fuel - 1, by omega⟩
  have hmem : .bodyStarted context ∈ (attemptOnce outcomes options context).1 :=
    bodyStarted_mem_attemptOnce.mpr rfl
  rw [attempt]
  rcases honce : attemptOnce outcomes options context with ⟨events, exit | next⟩
  · rwa [honce] at hmem
  · rw [honce] at hmem
    exact List.mem_append_left _ hmem

theorem attempt_proceeds (fuel limit : Nat) (context : TransactionAttempt)
    (hlimit : context.attempt + fuel = limit + 1) :
    Proceeds outcomes options id limit (attempt outcomes options fuel context) := by
  induction fuel generalizing context with
  | zero =>
      intro started hstarted
      simp [attempt] at hstarted
  | succ fuel ih =>
      have hspec := attemptOnce_spec outcomes options context
      have hbody (later : TransactionAttempt) :
          .bodyStarted later ∈ (attemptOnce outcomes options context).1 ↔ later = context :=
        bodyStarted_mem_attemptOnce
      rw [attempt]
      rcases honce : attemptOnce outcomes options context with ⟨events, exit | next⟩
      all_goals
        rw [honce] at hspec
        simp only [honce] at hbody
      · intro started hstarted
        obtain rfl := (hbody started).mp hstarted
        refine ⟨events, .inl exit, hspec, List.infix_rfl, ?_, ?_⟩
        · rintro _ ⟨⟩
          rfl
        · rintro _ ⟨⟩
      · have hnext := attemptOnce_inr honce
        intro started hstarted
        rcases List.mem_append.mp hstarted with hearly | hlate
        · obtain rfl := (hbody started).mp hearly
          refine ⟨events, .inr next, hspec, (List.prefix_append _ _).isInfix, ?_, ?_⟩
          · rintro _ ⟨⟩
          · rintro _ ⟨⟩ hless
            exact List.mem_append_right _ (attempt_starts (by omega) next)
        · obtain ⟨events', next', hspec', hinside, hends, hgoes⟩ :=
            ih next (by omega) started hlate
          refine ⟨events', next', hspec', ?_, hends, ?_⟩
          · exact hinside.trans (List.suffix_append _ _).isInfix
          · intro following hfollowing hless
            exact List.mem_append_right _ (hgoes following hfollowing hless)

theorem attempt_fuel_add (fuel more : Nat) {context : TransactionAttempt}
    (h : (attempt outcomes options fuel context).exit.isSome = true) :
    attempt outcomes options (fuel + more) context = attempt outcomes options fuel context := by
  induction fuel generalizing context with
  | zero => simp [attempt] at h
  | succ fuel ih =>
      rw [attempt] at h
      rw [Nat.add_right_comm, attempt, attempt]
      rcases honce : attemptOnce outcomes options context with ⟨events, exit' | next⟩
      · rfl
      · rw [honce] at h
        simp only [ih h]

/-! ## The whole call -/

/-- Events before the first attempt, or after the last, that start nothing and need nothing. -/
def Event.isSetup : Event ε δ → Bool
  | .transactionOpened | .optionSet _ _ | .transactionClosed => true
  | _ => false

theorem setOptions_isSetup (outcomes : Outcomes ε δ α)
    (settings : List (TransactionOption × Int)) :
    ∀ event ∈ (setOptions outcomes settings).1, event.isSetup = true := by
  induction settings with
  | nil => simp [setOptions]
  | cons setting rest ih =>
      obtain ⟨option, value⟩ := setting
      rw [setOptions]
      cases outcomes.setTransactionOption option value with
      | failure cause => simp [Event.isSetup]
      | success _ => simpa [Event.isSetup] using ih

theorem guarded_of_isSetup {past setup : List (Event ε δ)}
    (h : ∀ event ∈ setup, event.isSetup = true) :
    Guarded (Permitted outcomes options) past setup := by
  apply Guarded.of_forall
  intro later event hmem
  have hsetup := h event hmem
  cases event with
  | bodyStarted _ | scopeClosed _ | committed _ _ | onErrorCalled _ _ _ =>
      simp [Event.isSetup] at hsetup
  | _ => trivial

theorem started_of_isSetup {setup : List (Event ε δ)}
    (h : ∀ event ∈ setup, event.isSetup = true) : started setup = [] := by
  rw [started, List.filterMap_eq_nil_iff]
  intro event hmem
  have hsetup := h event hmem
  cases event with
  | bodyStarted _ => simp [Event.isSetup] at hsetup
  | _ => rfl

theorem first_permitted {setup : List (Event ε δ)} (h : ∀ event ∈ setup, event.isSetup = true) :
    Permitted outcomes options setup (.bodyStarted ⟨1, false, []⟩) := by
  refine ⟨[], ⟨?_, ?_⟩, rfl, rfl⟩
  · simp [started_of_isSetup h]
  · rw [started_of_isSetup h]
    exact .nil

theorem Concluded.surround {run : Run ε δ (FoundationDbTransactionResult α)}
    (h : Concluded outcomes run) {before after : List (Event ε δ)}
    (hbefore : ∀ event ∈ before, event.isSetup = true)
    (hafter : ∀ event ∈ after, event.isSetup = true) :
    Concluded outcomes ⟨before ++ run.trace ++ after, run.exit⟩ := by
  have hmem {event : Event ε δ} (hevent : event.isSetup = false) :
      event ∈ before ++ run.trace ++ after ↔ event ∈ run.trace := by
    have hbefore' : event ∉ before := fun hmem => by simp [hbefore event hmem] at hevent
    have hafter' : event ∉ after := fun hmem => by simp [hafter event hmem] at hevent
    simp [hbefore', hafter']
  refine ⟨?_, ?_, ?_⟩
  · intro result hresult
    obtain ⟨attempt, hcommitted⟩ := h.success result hresult
    exact ⟨attempt, (hmem rfl).mpr hcommitted⟩
  · intro attempt version hcommitted
    obtain ⟨hlast, context, value, hcontext, hrest⟩ :=
      h.committed attempt version ((hmem rfl).mp hcommitted)
    exact ⟨fun later hlater => hlast later ((hmem rfl).mp hlater), context, value,
      (hmem rfl).mpr hcontext, hrest⟩
  · intro context cause hcontext hexit hcause
    obtain ⟨hlast, hrun⟩ := h.returned context cause ((hmem rfl).mp hcontext) hexit hcause
    exact ⟨fun later hlater => hlast later ((hmem rfl).mp hlater), hrun⟩

theorem concluded_of_isSetup {setup : List (Event ε δ)} {cause : Cause ε δ}
    (h : ∀ event ∈ setup, event.isSetup = true) :
    Concluded outcomes ⟨setup, some (.failure cause)⟩ := by
  refine ⟨?_, ?_, ?_⟩
  · intro result hresult
    simp at hresult
  · intro attempt version hmem
    have hsetup := h _ hmem
    simp [Event.isSetup] at hsetup
  · intro context cause' hmem
    have hsetup := h _ hmem
    simp [Event.isSetup] at hsetup

theorem Concluded.close {trace : List (Event ε δ)}
    {exit : Exit ε δ (FoundationDbTransactionResult α)}
    (h : Concluded outcomes ⟨trace, some exit⟩) :
    Concluded outcomes ⟨trace, some (releaseOrDie outcomes exit)⟩ := by
  unfold releaseOrDie
  cases hclose : outcomes.closeTransaction with
  | none => exact h
  | some error =>
      refine ⟨?_, ?_, ?_⟩
      · intro result hresult
        simp at hresult
      · intro attempt version hmem
        obtain ⟨hlast, context, value, hcontext, hattempt, hbody, -⟩ :=
          h.committed attempt version hmem
        exact ⟨hlast, context, value, hcontext, hattempt, hbody, by simp [hclose]⟩
      · intro context cause hmem hexit hcause
        exact ⟨(h.returned context cause hmem hexit hcause).1, by simp [hclose]⟩

theorem useTransaction_guarded (outcomes : Outcomes ε δ α) (options : TransactionOptions)
    (fuel : Nat) {past : List (Event ε δ)} (hpast : ∀ event ∈ past, event.isSetup = true) :
    Guarded (Permitted outcomes options) past (useTransaction outcomes options fuel).trace := by
  unfold useTransaction
  rcases hoptions : setOptions outcomes (nativeOptions options) with ⟨events, _ | cause⟩
  all_goals
    have hsetup : ∀ event ∈ events, event.isSetup = true := by
      simpa [hoptions] using setOptions_isSetup outcomes (nativeOptions options)
  · have hall : ∀ event ∈ past ++ events, event.isSetup = true := by
      intro event hmem
      exact (List.mem_append.mp hmem).elim (hpast event) (hsetup event)
    exact (guarded_of_isSetup hsetup).append (attempt_guarded fuel (first_permitted hall))
  · exact guarded_of_isSetup hsetup

theorem useTransaction_concluded (outcomes : Outcomes ε δ α) (options : TransactionOptions)
    (fuel : Nat) : Concluded outcomes (useTransaction outcomes options fuel) := by
  unfold useTransaction
  rcases hoptions : setOptions outcomes (nativeOptions options) with ⟨events, _ | cause⟩
  all_goals
    have hsetup : ∀ event ∈ events, event.isSetup = true := by
      simpa [hoptions] using setOptions_isSetup outcomes (nativeOptions options)
  · have hattempts : Concluded outcomes (attempt outcomes options fuel ⟨1, false, []⟩) :=
      attempt_concluded fuel _
    have hsurround := hattempts.surround hsetup (List.forall_mem_nil _)
    rwa [List.append_nil] at hsurround
  · exact concluded_of_isSetup hsetup

theorem withTransactionResult_guarded (outcomes : Outcomes ε δ α)
    (transactionDefaults options : TransactionOptions) (fuel : Nat) :
    Guarded (Permitted outcomes (transactionDefaults.override options)) []
      (withTransactionResult outcomes transactionDefaults options fuel).trace := by
  unfold withTransactionResult
  cases outcomes.openTransaction with
  | failure cause => exact ⟨trivial, trivial⟩
  | success _ =>
      have hopened : ∀ event ∈ [(.transactionOpened : Event ε δ)], event.isSetup = true := by
        simp [Event.isSetup]
      have huse := useTransaction_guarded outcomes (transactionDefaults.override options) fuel
        hopened
      cases hexit : (useTransaction outcomes (transactionDefaults.override options) fuel).exit with
      | none => simpa only [hexit] using ⟨trivial, huse⟩
      | some exit =>
          simp only [hexit]
          exact ⟨trivial, huse.append ⟨trivial, trivial⟩⟩

theorem withTransactionResult_concluded (outcomes : Outcomes ε δ α)
    (transactionDefaults options : TransactionOptions) (fuel : Nat) :
    Concluded outcomes (withTransactionResult outcomes transactionDefaults options fuel) := by
  unfold withTransactionResult
  cases outcomes.openTransaction with
  | failure cause => exact concluded_of_isSetup (by simp [Event.isSetup])
  | success _ =>
      have huse := useTransaction_concluded outcomes (transactionDefaults.override options) fuel
      have hopened : ∀ event ∈ [(.transactionOpened : Event ε δ)], event.isSetup = true := by
        simp [Event.isSetup]
      have hclosed : ∀ event ∈ [(.transactionClosed : Event ε δ)], event.isSetup = true := by
        simp [Event.isSetup]
      cases hexit : (useTransaction outcomes (transactionDefaults.override options) fuel).exit with
      | none =>
          have hrun := huse.surround hopened (List.forall_mem_nil _)
          rw [List.append_nil] at hrun
          rw [hexit] at hrun
          simpa only [hexit, Run.after] using hrun
      | some exit =>
          have hrun := huse.surround hopened hclosed
          rw [hexit] at hrun
          simp only [hexit]
          exact hrun.close

theorem Proceeds.surround
    {close : Exit ε δ (FoundationDbTransactionResult α) →
      Exit ε δ (FoundationDbTransactionResult α)}
    {limit : Nat} {run : Run ε δ (FoundationDbTransactionResult α)}
    (h : Proceeds outcomes options close limit run)
    (close' : Exit ε δ (FoundationDbTransactionResult α) →
      Exit ε δ (FoundationDbTransactionResult α))
    {before after : List (Event ε δ)} (hbefore : started before = []) (hafter : started after = []) :
    Proceeds outcomes options (close' ∘ close) limit
      ⟨before ++ run.trace ++ after, run.exit.map close'⟩ := by
  intro context hcontext
  rw [← mem_started, started_append, started_append, hbefore, hafter, List.nil_append,
    List.append_nil, mem_started] at hcontext
  obtain ⟨events, next, hspec, hinside, hends, hgoes⟩ := h context hcontext
  refine ⟨events, next, hspec, ?_, ?_, ?_⟩
  · exact hinside.trans ⟨before, after, rfl⟩
  · intro exit hexit
    simp [hends exit hexit]
  · intro following hfollowing hless
    simp [hgoes following hfollowing hless]

theorem setOptions_eq_success_iff (outcomes : Outcomes ε δ α)
    (settings : List (TransactionOption × Int)) :
    (setOptions outcomes settings).2 = .success () ↔
      ∀ setting ∈ settings, outcomes.setTransactionOption setting.1 setting.2 = .success () := by
  induction settings with
  | nil => simp [setOptions]
  | cons setting rest ih =>
      obtain ⟨option, value⟩ := setting
      rw [setOptions, List.forall_mem_cons]
      cases outcomes.setTransactionOption option value with
      | failure cause => simp
      | success _ => simpa using ih

theorem proceeds_of_started_nil
    {close : Exit ε δ (FoundationDbTransactionResult α) →
      Exit ε δ (FoundationDbTransactionResult α)}
    {limit : Nat} {run : Run ε δ (FoundationDbTransactionResult α)}
    (h : started run.trace = []) : Proceeds outcomes options close limit run := by
  intro context hcontext
  rw [← mem_started, h] at hcontext
  exact absurd hcontext List.not_mem_nil

theorem useTransaction_proceeds (outcomes : Outcomes ε δ α) (options : TransactionOptions)
    (fuel : Nat) :
    Proceeds outcomes options id fuel (useTransaction outcomes options fuel) := by
  have hsetup := started_of_isSetup (setOptions_isSetup outcomes (nativeOptions options))
  unfold useTransaction
  rcases hoptions : setOptions outcomes (nativeOptions options) with ⟨events, _ | cause⟩
  all_goals rw [hoptions] at hsetup
  · have hattempts : Proceeds outcomes options id fuel
        (attempt outcomes options fuel ⟨1, false, []⟩) :=
      attempt_proceeds fuel fuel _ (Nat.add_comm 1 fuel)
    have hsurround := hattempts.surround id hsetup started_nil
    rwa [List.append_nil, Option.map_id] at hsurround
  · exact proceeds_of_started_nil hsetup

theorem withTransactionResult_proceeds (outcomes : Outcomes ε δ α)
    (transactionDefaults options : TransactionOptions) (fuel : Nat) :
    Proceeds outcomes (transactionDefaults.override options) (releaseOrDie outcomes) fuel
      (withTransactionResult outcomes transactionDefaults options fuel) := by
  unfold withTransactionResult
  cases outcomes.openTransaction with
  | failure cause => exact proceeds_of_started_nil rfl
  | success _ =>
      have huse := useTransaction_proceeds outcomes (transactionDefaults.override options) fuel
      have hopened : started [(.transactionOpened : Event ε δ)] = [] := rfl
      have hclosed : started [(.transactionClosed : Event ε δ)] = [] := rfl
      cases hexit : (useTransaction outcomes (transactionDefaults.override options) fuel).exit with
      | none =>
          have hrun := huse.surround (releaseOrDie outcomes) hopened started_nil
          rw [List.append_nil, hexit] at hrun
          simp only [hexit, Run.after]
          exact hrun
      | some exit =>
          have hrun := huse.surround (releaseOrDie outcomes) hopened hclosed
          rw [hexit] at hrun
          simp only [hexit]
          exact hrun

theorem withTransactionResult_starts (outcomes : Outcomes ε δ α)
    (transactionDefaults options : TransactionOptions) {fuel : Nat} (hfuel : 0 < fuel)
    (hopen : outcomes.openTransaction = .success ())
    (hset : ∀ setting ∈ nativeOptions (transactionDefaults.override options),
      outcomes.setTransactionOption setting.1 setting.2 = .success ()) :
    .bodyStarted ⟨1, false, []⟩ ∈
      (withTransactionResult outcomes transactionDefaults options fuel).trace := by
  have huse : .bodyStarted ⟨1, false, []⟩ ∈
      (useTransaction outcomes (transactionDefaults.override options) fuel).trace := by
    have hset' := (setOptions_eq_success_iff outcomes _).mpr hset
    unfold useTransaction
    rcases hoptions : setOptions outcomes (nativeOptions (transactionDefaults.override options))
      with ⟨events, _ | cause⟩
    · exact List.mem_append_right _ (attempt_starts hfuel _)
    · rw [hoptions] at hset'
      cases hset'
  rw [withTransactionResult, hopen]
  cases hexit : (useTransaction outcomes (transactionDefaults.override options) fuel).exit with
  | none => simp [hexit, Run.after, huse]
  | some exit => simp [hexit, huse]

theorem withTransactionResult_unset (outcomes : Outcomes ε δ α)
    (transactionDefaults options : TransactionOptions) (fuel : Nat) {cause : Cause ε δ}
    (hopen : outcomes.openTransaction = .success ())
    (hset : (setOptions outcomes (nativeOptions (transactionDefaults.override options))).2 =
      .failure cause) :
    (withTransactionResult outcomes transactionDefaults options fuel).exit =
        some (releaseOrDie outcomes (.failure cause)) ∧
      started (withTransactionResult outcomes transactionDefaults options fuel).trace = [] := by
  have hsetup := started_of_isSetup (setOptions_isSetup outcomes
    (nativeOptions (transactionDefaults.override options)))
  rw [withTransactionResult, hopen, useTransaction]
  rcases hoptions : setOptions outcomes (nativeOptions (transactionDefaults.override options))
    with ⟨events, _ | cause'⟩
  all_goals rw [hoptions] at hset hsetup
  · cases hset
  · cases hset
    refine ⟨rfl, ?_⟩
    have hclosed : started [(.transactionClosed : Event ε δ)] = [] := rfl
    change started ([.transactionOpened] ++ events ++ [.transactionClosed]) = []
    rw [started_append, started_append, hsetup, hclosed]
    rfl

theorem withTransactionResult_fuel_add (outcomes : Outcomes ε δ α)
    (transactionDefaults options : TransactionOptions) (fuel more : Nat)
    (h : (withTransactionResult outcomes transactionDefaults options fuel).exit.isSome = true) :
    withTransactionResult outcomes transactionDefaults options (fuel + more) =
      withTransactionResult outcomes transactionDefaults options fuel := by
  have huse (hexit : (useTransaction outcomes (transactionDefaults.override options)
      fuel).exit.isSome = true) :
      useTransaction outcomes (transactionDefaults.override options) (fuel + more) =
        useTransaction outcomes (transactionDefaults.override options) fuel := by
    unfold useTransaction at hexit ⊢
    rcases hoptions : setOptions outcomes (nativeOptions (transactionDefaults.override options))
      with ⟨events, _ | cause⟩
    · rw [hoptions] at hexit
      simp only [attempt_fuel_add fuel more hexit]
    · rfl
  unfold withTransactionResult at h ⊢
  cases hopen : outcomes.openTransaction with
  | failure cause => rfl
  | success _ =>
      cases hexit : (useTransaction outcomes (transactionDefaults.override options) fuel).exit with
      | none => simp [hopen, hexit, Run.after] at h
      | some exit => simp only [huse (by simp [hexit])]

/-- The retry protocol of one call that may make `fuel` attempts: when an attempt starts and how
each one goes on or ends the call, how the exit follows from the attempts, and what precedes a
commit and an `on_error` call. -/
structure RetryProtocol (outcomes : Outcomes ε δ α) (options : TransactionOptions) (fuel : Nat)
    (run : Run ε δ (FoundationDbTransactionResult α)) : Prop where
  unopened : ∀ cause, outcomes.openTransaction = .failure cause →
    run.exit = some (.failure cause) ∧ Client.started run.trace = []
  unset : outcomes.openTransaction = .success () →
    ∀ cause, (setOptions outcomes (nativeOptions options)).2 = .failure cause →
      run.exit = some (releaseOrDie outcomes (.failure cause)) ∧ Client.started run.trace = []
  first : outcomes.openTransaction = .success () →
    (∀ setting ∈ nativeOptions options,
      outcomes.setTransactionOption setting.1 setting.2 = .success ()) →
    0 < fuel → .bodyStarted ⟨1, false, []⟩ ∈ run.trace
  proceeds : Proceeds outcomes options (releaseOrDie outcomes) fuel run
  succeeds : ∀ context value version, .bodyStarted context ∈ run.trace →
    (outcomes.body context).exit = .success value →
    outcomes.commit context.attempt = .success version →
      .committed context.attempt (.success version) ∈ run.trace ∧
        run.exit = some (releaseOrDie outcomes (.success ⟨value, version⟩))
  succeeds_iff : outcomes.closeTransaction = none →
    ((∃ result, run.exit = some (.success result)) ↔
      ∃ attempt version, .committed attempt (.success version) ∈ run.trace)
  committed : ∀ attempt version, .committed attempt (.success version) ∈ run.trace →
    (∀ context, .bodyStarted context ∈ run.trace → context.attempt ≤ attempt) ∧
      ∃ context value, .bodyStarted context ∈ run.trace ∧ context.attempt = attempt ∧
        (outcomes.body context).exit = .success value ∧
        (outcomes.closeTransaction = none → run.exit = some (.success ⟨value, version⟩))
  started : ∀ pre context post, run.trace = pre ++ .bodyStarted context :: post →
    ∃ failures, Retried outcomes options pre failures ∧
      context.attempt = failures.length + 1 ∧
      context.maybeCommitted = failures.any FoundationDbError.maybeCommitted
  returned : ∀ context cause, .bodyStarted context ∈ run.trace →
    attemptExit outcomes context = .failure cause →
    (∀ failure, cause ≠ [.foundationDb failure]) →
      (∀ later, .bodyStarted later ∈ run.trace → later.attempt ≤ context.attempt) ∧
        (outcomes.closeTransaction = none → run.exit = some (.failure cause))
  not_replayed : options.retryOnMaybeCommitted = some false →
    ∀ pre context post, run.trace = pre ++ .bodyStarted context :: post →
      ∀ prior failure, .bodyStarted prior ∈ pre →
        attemptExit outcomes prior = .failure [.foundationDb failure] →
          failure.maybeCommitted = false
  scope_closed_before_commit : ∀ pre attempt exit post,
    run.trace = pre ++ .committed attempt exit :: post → .scopeClosed attempt ∈ pre
  scope_closed_before_onError : ∀ pre attempt failure exit post,
    run.trace = pre ++ .onErrorCalled attempt failure exit :: post → .scopeClosed attempt ∈ pre
  cancelled_before_onError : ∀ pre attempt failure exit post,
    run.trace = pre ++ .onErrorCalled attempt failure exit :: post →
      ∃ context, .bodyStarted context ∈ pre ∧ context.attempt = attempt ∧
        attemptExit outcomes context = .failure [.foundationDb failure] ∧
        ∀ future ∈ (outcomes.body context).postCommitFutures,
          .futureCancelled attempt future ∈ pre

theorem Retried.exists_retriedWith {past : List (Event ε δ)} {failures : List FoundationDbError}
    (h : Retried outcomes options past failures) {prior : TransactionAttempt}
    (hprior : .bodyStarted prior ∈ past) :
    ∃ failure, RetriedWith outcomes options past prior failure := by
  obtain ⟨i, hi, rfl⟩ := List.mem_iff_getElem.mp (mem_started.mpr hprior)
  exact ⟨_, h.failed.get hi (h.failed.length_eq ▸ hi)⟩

theorem Retried.not_maybeCommitted {past : List (Event ε δ)} {failures : List FoundationDbError}
    (h : Retried outcomes options past failures)
    (hoption : options.retryOnMaybeCommitted = some false) {prior : TransactionAttempt}
    {failure : FoundationDbError} (hprior : .bodyStarted prior ∈ past)
    (hexit : attemptExit outcomes prior = .failure [.foundationDb failure]) :
    failure.maybeCommitted = false := by
  obtain ⟨failure', hretried⟩ := h.exists_retriedWith hprior
  obtain rfl : failure' = failure := by
    simpa using hretried.exit.symm.trans hexit
  exact hretried.allowed hoption

end

/-- Every call keeps the retry protocol, however its body and the driver behave and however
far it has got, and a call that has its exit is not changed by more fuel. -/
theorem withTransactionResult_retryProtocol (outcomes : Outcomes ε δ α)
    (transactionDefaults options : TransactionOptions) (fuel : Nat) :
    RetryProtocol outcomes (transactionDefaults.override options) fuel
        (withTransactionResult outcomes transactionDefaults options fuel) ∧
      ((withTransactionResult outcomes transactionDefaults options fuel).exit.isSome = true →
        ∀ more, withTransactionResult outcomes transactionDefaults options (fuel + more) =
          withTransactionResult outcomes transactionDefaults options fuel) := by
  refine ⟨?_, fun h more =>
    withTransactionResult_fuel_add outcomes transactionDefaults options fuel more h⟩
  have hconcluded := withTransactionResult_concluded outcomes transactionDefaults options fuel
  have hguarded := withTransactionResult_guarded outcomes transactionDefaults options fuel
  have hproceeds := withTransactionResult_proceeds outcomes transactionDefaults options fuel
  have hunopened : ∀ cause, outcomes.openTransaction = .failure cause →
      withTransactionResult outcomes transactionDefaults options fuel =
        ⟨[.transactionOpened], some (.failure cause)⟩ := by
    intro cause hopen
    rw [withTransactionResult, hopen]
  have hunset (hopen : outcomes.openTransaction = .success ()) (cause : Cause ε δ)
      (hset : (setOptions outcomes
        (nativeOptions (transactionDefaults.override options))).2 = .failure cause) :=
    withTransactionResult_unset outcomes transactionDefaults options fuel hopen hset
  have hfirst (hopen : outcomes.openTransaction = .success ())
      (hset : ∀ setting ∈ nativeOptions (transactionDefaults.override options),
        outcomes.setTransactionOption setting.1 setting.2 = .success ()) (hfuel : 0 < fuel) :=
    withTransactionResult_starts outcomes transactionDefaults options hfuel hopen hset
  generalize withTransactionResult outcomes transactionDefaults options fuel = run
    at hconcluded hguarded hproceeds hunopened hunset hfirst ⊢
  have hpermitted {pre post : List (Event ε δ)} {event : Event ε δ}
      (htrace : run.trace = pre ++ event :: post) :
      Permitted outcomes (transactionDefaults.override options) pre event := by
    rw [htrace] at hguarded
    exact hguarded.at_split
  constructor
  case unopened =>
    intro cause hopen
    rw [hunopened cause hopen]
    exact ⟨rfl, rfl⟩
  case unset => exact hunset
  case first => exact hfirst
  case proceeds => exact hproceeds
  case succeeds =>
    intro context value version hcontext hbody hcommit
    have hexit : attemptExit outcomes context = .success ⟨value, version⟩ := by
      simp [attemptExit, hbody, hcommit]
    obtain ⟨events, next, hspec, hinside, hends, -⟩ := hproceeds context hcontext
    cases hspec with
    | succeeded result hresult =>
        obtain rfl : ⟨value, version⟩ = result := by simpa [hexit] using hresult
        exact ⟨hinside.subset (committed_mem_of_success hexit), hends _ rfl⟩
    | returned cause hfailed => simp [hexit] at hfailed
    | unreported failure cause hfailed => simp [hexit] at hfailed
    | unhandled failure ranges cause hfailed => simp [hexit] at hfailed
    | retried failure ranges hfailed => simp [hexit] at hfailed
  case succeeds_iff =>
    intro hclose
    constructor
    · rintro ⟨result, hresult⟩
      obtain ⟨attempt, hmem⟩ := hconcluded.success result hresult
      exact ⟨attempt, _, hmem⟩
    · rintro ⟨attempt, version, hmem⟩
      obtain ⟨-, context, value, -, -, -, hexit⟩ := hconcluded.committed attempt version hmem
      exact ⟨_, hexit hclose⟩
  case committed => exact hconcluded.committed
  case started =>
    intro pre context post htrace
    exact hpermitted htrace
  case returned => exact hconcluded.returned
  case not_replayed =>
    intro hoption pre context post htrace prior failure hprior hexit
    obtain ⟨failures, hretried, -, -⟩ := hpermitted htrace
    exact hretried.not_maybeCommitted hoption hprior hexit
  case scope_closed_before_commit =>
    intro pre attempt exit post htrace
    exact hpermitted htrace
  case scope_closed_before_onError =>
    intro pre attempt failure exit post htrace
    exact (hpermitted htrace).1
  case cancelled_before_onError =>
    intro pre attempt failure exit post htrace
    exact (hpermitted htrace).2

end FoundationDbEffect.Client
