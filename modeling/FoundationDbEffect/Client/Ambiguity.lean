import FoundationDbEffect.Client.RetryProtocol

/-!
# Ambiguous commits

Once the failure of an attempt may stand for a commit, the loop carries this in the context of
every later attempt, and an error of `on_error` is marked with it.  Two kinds of errors leave
the loop as they are: those of the lookup of the conflicting ranges, and those in a cause of
several reasons.
-/

namespace FoundationDbEffect.Client

variable {ε δ α : Type}

def Reason.isExpected : Reason ε δ → Bool
  | .domain _ | .foundationDb _ => true
  | _ => false

def Cause.error? (cause : Cause ε δ) : Option FoundationDbError :=
  match cause.find? Reason.isExpected with
  | some (.foundationDb error) => some error
  | _ => none

def Exit.error? : Exit ε δ α → Option FoundationDbError
  | .success _ => none
  | .failure cause => cause.error?

def Exit.maybeCommitted (exit : Exit ε δ α) : Bool :=
  exit.error?.any FoundationDbError.maybeCommitted

/-- The run ends with an error of the client only if that is flagged, once a failure was. -/
def Reported (outcomes : Outcomes ε δ α) (before : Bool)
    (run : Run ε δ (FoundationDbTransactionResult α)) : Prop :=
  (before = true ∨ ∃ context, .bodyStarted context ∈ run.trace ∧
      (attemptExit outcomes context).maybeCommitted = true) →
    ∀ exit, run.exit = some exit → ∀ error, exit.error? = some error →
      error.maybeCommitted = true

/-- The cause with which an attempt leaves the loop as it is: one of several reasons, or that
of a failed lookup of the conflicting ranges. -/
def unmapped (outcomes : Outcomes ε δ α) (options : TransactionOptions)
    (context : TransactionAttempt) : Option (Cause ε δ) :=
  match attemptExit outcomes context with
  | .success _ => none
  | .failure cause =>
    match singleFoundationDbFailure cause with
    | none => some cause
    | some failure =>
      if failure.maybeCommitted && options.retryOnMaybeCommitted == some false then none
      else
        match (nextConflictingKeyRanges outcomes options context).2 with
        | .failure cause => some cause
        | .success _ => none

/-- An attempt that leaves the loop so, after a failure that was flagged or with one, does it
with an error that is flagged itself. -/
def Carries (outcomes : Outcomes ε δ α) (options : TransactionOptions)
    (context : TransactionAttempt) : Prop :=
  (context.maybeCommitted = true ∨ (attemptExit outcomes context).maybeCommitted = true) →
    ∀ cause ∈ unmapped outcomes options context, ∀ error ∈ cause.error?,
      error.maybeCommitted = true

section

variable {outcomes : Outcomes ε δ α} {options : TransactionOptions}

theorem error?_foundationDb (failure : FoundationDbError) :
    Cause.error? ([.foundationDb failure] : Cause ε δ) = some failure := rfl

theorem error?_mapOnErrorCause {cause : Cause ε δ} {error : FoundationDbError}
    (h : (mapOnErrorCause cause true).error? = some error) : error.maybeCommitted = true := by
  unfold mapOnErrorCause at h
  split at h
  · rename_i failure _
    rw [error?_foundationDb, Option.some.injEq] at h
    subst h
    unfold preserveMaybeCommitted
    split_ifs with hflag
    · simpa using hflag
    · rfl
  · rename_i reason hreason hfound
    cases reason with
    | foundationDb failure => exact (hreason failure rfl).elim
    | domain error => simp [Cause.error?, Reason.isExpected] at h
    | die defect => simp [Cause.error?, Reason.isExpected] at h
    | dieFoundationDb error => simp [Cause.error?, Reason.isExpected] at h
    | interrupt => simp [Cause.error?, Reason.isExpected] at h
  · rename_i hnone
    have hexpected : cause.find? Reason.isExpected = none := hnone
    simp [Cause.error?, hexpected] at h

/-- One pass of the loop: it hands the flag on, or ends with an error that has it. -/
theorem attemptOnce_carries (outcomes : Outcomes ε δ α) (options : TransactionOptions)
    (context : TransactionAttempt) :
    match (attemptOnce outcomes options context).2 with
    | .inl exit =>
        Carries outcomes options context ↔
          ((context.maybeCommitted = true ∨
              (attemptExit outcomes context).maybeCommitted = true) →
            ∀ error, exit.error? = some error → error.maybeCommitted = true)
    | .inr next =>
        Carries outcomes options context ∧
          (next.maybeCommitted = true ↔ context.maybeCommitted = true ∨
            (attemptExit outcomes context).maybeCommitted = true) := by
  unfold attemptOnce Carries unmapped
  cases hexit : attemptExit outcomes context with
  | success result => simp [Exit.error?]
  | failure cause =>
      cases hsingle : singleFoundationDbFailure cause with
      | none => simp [onFailure, hsingle, Exit.error?]
      | some failure =>
          obtain rfl := singleFoundationDbFailure_eq_some.mp hsingle
          have hflag : (Exit.failure [.foundationDb failure] :
              Exit ε δ (FoundationDbTransactionResult α)).maybeCommitted =
                failure.maybeCommitted := rfl
          by_cases hstop :
              (failure.maybeCommitted && options.retryOnMaybeCommitted == some false) = true
          · obtain ⟨hfailure, hoption⟩ : failure.maybeCommitted = true ∧
                options.retryOnMaybeCommitted = some false := by simpa using hstop
            simp [onFailure, singleFoundationDbFailure, Exit.error?, error?_foundationDb, hfailure,
              hoption]
          · rcases hranges : nextConflictingKeyRanges outcomes options context with
              ⟨events, ranges | cause⟩
            · cases hhandled : outcomes.onError context.attempt failure with
              | success _ =>
                  simp [onFailure, singleFoundationDbFailure, hstop, hranges, hhandled, hflag]
              | failure cause =>
                  have hreported (hany : context.maybeCommitted = true ∨
                      failure.maybeCommitted = true) (error : FoundationDbError)
                      (herror : (mapOnErrorCause cause
                        (context.maybeCommitted || failure.maybeCommitted)).error? = some error) :
                      error.maybeCommitted = true := by
                    rw [Bool.or_eq_true _ _ |>.mpr hany] at herror
                    exact error?_mapOnErrorCause herror
                  simpa [onFailure, singleFoundationDbFailure, hstop, hranges, hhandled, hflag,
                    Exit.error?] using hreported
            · simp [onFailure, singleFoundationDbFailure, hstop, hranges, Exit.error?]

theorem attempt_reported_iff (fuel : Nat) (context : TransactionAttempt) :
    Reported outcomes context.maybeCommitted (attempt outcomes options fuel context) ↔
      ∀ other, .bodyStarted other ∈ (attempt outcomes options fuel context).trace →
        Carries outcomes options other := by
  induction fuel generalizing context with
  | zero => simp [attempt, Reported]
  | succ fuel ih =>
      have hcarries := attemptOnce_carries outcomes options context
      have hstarted (other : TransactionAttempt) :
          .bodyStarted other ∈ (attemptOnce outcomes options context).1 ↔ other = context :=
        bodyStarted_mem_attemptOnce
      rw [attempt]
      rcases honce : attemptOnce outcomes options context with ⟨events, exit | next⟩
      · simp only [honce] at hcarries hstarted
        simp [Reported, hstarted, hcarries]
      · simp only [honce] at hcarries hstarted
        obtain ⟨hcontext, hnext⟩ := hcarries
        have hrest := ih next
        simp only [Run.after, List.mem_append, hstarted]
        constructor
        · rintro hreported other (rfl | hother)
          · exact hcontext
          · refine hrest.mp ?_ other hother
            intro hbefore
            apply hreported
            simp only [List.mem_append, hstarted]
            rw [hnext] at hbefore
            rcases hbefore with (hflag | hflag) | ⟨later, hlater, hflag⟩
            · exact .inl hflag
            · exact .inr ⟨context, .inl rfl, hflag⟩
            · exact .inr ⟨later, .inr hlater, hflag⟩
        · intro hall hbefore
          refine hrest.mpr (fun other hother => hall other (.inr hother)) ?_
          rw [hnext]
          simp only [List.mem_append, hstarted] at hbefore
          rcases hbefore with hflag | ⟨later, rfl | hlater, hflag⟩
          · exact .inl (.inl hflag)
          · exact .inl (.inr hflag)
          · exact .inr ⟨later, hlater, hflag⟩

/-! ## The whole call -/

theorem useTransaction_reported_iff (outcomes : Outcomes ε δ α) (options : TransactionOptions)
    (fuel : Nat) :
    Reported outcomes false (useTransaction outcomes options fuel) ↔
      ∀ context, .bodyStarted context ∈ (useTransaction outcomes options fuel).trace →
        Carries outcomes options context := by
  unfold useTransaction
  have hsetup := started_of_isSetup (setOptions_isSetup outcomes (nativeOptions options))
  have hunstarted (context : TransactionAttempt) :
      .bodyStarted context ∉ (setOptions outcomes (nativeOptions options)).1 := by
    rw [← mem_started, hsetup]
    exact List.not_mem_nil
  rcases hoptions : setOptions outcomes (nativeOptions options) with ⟨events, _ | cause⟩
  · simp only [hoptions] at hunstarted
    have hattempts := @attempt_reported_iff _ _ _ outcomes options fuel ⟨1, false, []⟩
    simpa [Reported, Run.after, hunstarted] using hattempts
  · simp only [hoptions] at hunstarted
    simp [Reported, hunstarted]

end

/-- An ambiguous failure is reported by every call that fails with an error of the client if and
only if every attempt that leaves the loop without passing `on_error` does so with an error that
is flagged itself. -/
theorem withTransactionResult_reported_iff (outcomes : Outcomes ε δ α)
    (transactionDefaults options : TransactionOptions) (fuel : Nat) :
    ((∃ context,
        .bodyStarted context ∈
          (withTransactionResult outcomes transactionDefaults options fuel).trace ∧
        (attemptExit outcomes context).maybeCommitted = true) →
      ∀ exit, (withTransactionResult outcomes transactionDefaults options fuel).exit = some exit →
        ∀ error, exit.error? = some error → error.maybeCommitted = true) ↔
      (outcomes.closeTransaction = none →
        ∀ context, .bodyStarted context ∈
            (withTransactionResult outcomes transactionDefaults options fuel).trace →
          Carries outcomes (transactionDefaults.override options) context) := by
  have huse := useTransaction_reported_iff outcomes (transactionDefaults.override options) fuel
  unfold withTransactionResult
  cases outcomes.openTransaction with
  | failure cause => simp
  | success _ =>
      generalize useTransaction outcomes (transactionDefaults.override options) fuel = run at huse
      obtain ⟨trace, exit⟩ := run
      cases exit with
      | none =>
          have hcarries := huse.mp (by simp [Reported])
          simpa [Run.after] using fun _ => hcarries
      | some exit =>
          cases hclose : outcomes.closeTransaction with
          | none => simpa [Reported, releaseOrDie, hclose] using huse
          | some error => simp [releaseOrDie, hclose, Exit.error?, Cause.error?, Reason.isExpected]

/-- The commit has an unknown result, and the lookup of the conflicting ranges that a call
asked for fails. -/
def lookupFails : Outcomes Unit Unit Unit where
  openTransaction := .success ()
  setTransactionOption := fun _ _ => .success ()
  body := fun _ => ⟨.success (), []⟩
  commit := fun _ => .failure
    [.foundationDb ⟨"Transaction.commit", 1021, "commit_unknown_result", true, true, false⟩]
  getConflictingKeyRanges := fun _ => .failure
    [.foundationDb ⟨"Transaction.getConflictingKeyRanges", 1007, "transaction_too_old", true,
      false, true⟩]
  onError := fun _ _ => .success ()
  closeTransaction := none

theorem not_reported_lookupFails :
    (∃ context,
        .bodyStarted context ∈ (withTransactionResult lookupFails {}
          { reportConflictingKeys := some true } 1).trace ∧
        (attemptExit lookupFails context).maybeCommitted = true) ∧
      ∃ exit, (withTransactionResult lookupFails {}
          { reportConflictingKeys := some true } 1).exit = some exit ∧
        ∃ error, exit.error? = some error ∧ error.maybeCommitted = false :=
  ⟨⟨⟨1, false, []⟩, by decide, rfl⟩, _, rfl, _, rfl, rfl⟩

end FoundationDbEffect.Client
