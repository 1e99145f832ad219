import FoundationDbEffect.Foundation.Numeral

/-!
The transaction loop of the client.

`withTransactionResult` opens one native transaction, runs the body in it and commits.
A failed attempt is handed to `on_error`, and the loop starts again on the same handle.
Every call of the body and of the driver has one outcome per attempt, so the outcomes are
functions of the attempt.
-/

namespace FoundationDbEffect.Client

open FoundationDbEffect.Foundation

structure FoundationDbError where
  operation : String
  code : Int
  message : String
  retryable : Bool
  maybeCommitted : Bool
  retryableNotCommitted : Bool
  deriving DecidableEq, Repr

structure ConflictRange where
  begin : Bytes
  stop : Bytes
  deriving DecidableEq, Repr

structure TransactionAttempt where
  attempt : Nat
  maybeCommitted : Bool
  conflictingKeyRanges : List ConflictRange
  deriving DecidableEq, Repr

/-! ## Exits -/

inductive Reason (ε δ : Type) where
  | domain (error : ε)
  | foundationDb (error : FoundationDbError)
  | die (defect : δ)
  | dieFoundationDb (error : FoundationDbError)
  | interrupt
  deriving DecidableEq, Repr

abbrev Cause (ε δ : Type) := List (Reason ε δ)

inductive Exit (ε δ α : Type) where
  | success (value : α)
  | failure (cause : Cause ε δ)
  deriving DecidableEq, Repr

def singleFoundationDbFailure {ε δ : Type} : Cause ε δ → Option FoundationDbError
  | [.foundationDb error] => some error
  | _ => none

def preserveMaybeCommitted (error : FoundationDbError) (maybeCommitted : Bool) :
    FoundationDbError :=
  if !maybeCommitted || error.maybeCommitted then error
  else { error with maybeCommitted := true, retryableNotCommitted := false }

/-- `Effect.mapError` on the failure of `on_error`: the first expected error of a cause is
the one that is mapped, and a cause without one is left alone. -/
def mapOnErrorCause {ε δ : Type} (cause : Cause ε δ) (maybeCommitted : Bool) : Cause ε δ :=
  match cause.find? (fun reason => match reason with
    | .domain _ | .foundationDb _ => true
    | _ => false) with
  | some (.foundationDb error) => [.foundationDb (preserveMaybeCommitted error maybeCommitted)]
  | some reason => [reason]
  | none => cause

/-! ## Options -/

structure TransactionOptions where
  timeoutMs : Option Int := none
  retryLimit : Option Int := none
  maxRetryDelayMs : Option Int := none
  reportConflictingKeys : Option Bool := none
  retryOnMaybeCommitted : Option Bool := none
  deriving DecidableEq, Repr

def TransactionOptions.override (transactionDefaults options : TransactionOptions) :
    TransactionOptions where
  timeoutMs := options.timeoutMs <|> transactionDefaults.timeoutMs
  retryLimit := options.retryLimit <|> transactionDefaults.retryLimit
  maxRetryDelayMs := options.maxRetryDelayMs <|> transactionDefaults.maxRetryDelayMs
  reportConflictingKeys := options.reportConflictingKeys <|>
    transactionDefaults.reportConflictingKeys
  retryOnMaybeCommitted := options.retryOnMaybeCommitted <|>
    transactionDefaults.retryOnMaybeCommitted

inductive TransactionOption where
  | timeout
  | retryLimit
  | maxRetryDelay
  | reportConflictingKeys
  deriving DecidableEq, Repr

/-! ## The driver and the body -/

/-- What one run of the body does: the exit of the scoped body, its finalizers included,
and the post-commit futures it registered. -/
structure BodyRun (ε δ α : Type) where
  exit : Exit ε δ α
  postCommitFutures : List Nat
  deriving DecidableEq, Repr

structure Outcomes (ε δ α : Type) where
  openTransaction : Exit ε δ Unit
  setTransactionOption : TransactionOption → Int → Exit ε δ Unit
  body : TransactionAttempt → BodyRun ε δ α
  commit : Nat → Exit ε δ Int
  getConflictingKeyRanges : Nat → Exit ε δ (List ConflictRange)
  onError : Nat → FoundationDbError → Exit ε δ Unit
  closeTransaction : Option FoundationDbError

inductive Event (ε δ : Type) where
  | transactionOpened
  | optionSet (option : TransactionOption) (value : Int)
  | bodyStarted (context : TransactionAttempt)
  | scopeClosed (attempt : Nat)
  | committed (attempt : Nat) (exit : Exit ε δ Int)
  | futureCancelled (attempt future : Nat)
  | conflictingKeyRangesRead (attempt : Nat) (exit : Exit ε δ (List ConflictRange))
  | onErrorCalled (attempt : Nat) (failure : FoundationDbError) (exit : Exit ε δ Unit)
  | transactionClosed
  deriving DecidableEq, Repr

structure FoundationDbTransactionResult (α : Type) where
  value : α
  committedVersion : Int
  deriving DecidableEq, Repr

/-- The events of a run, oldest first, with its exit. The exit is missing when the run was
cut off before it had one. -/
structure Run (ε δ α : Type) where
  trace : List (Event ε δ)
  exit : Option (Exit ε δ α)
  deriving DecidableEq, Repr

def Run.after {ε δ α : Type} (events : List (Event ε δ)) (run : Run ε δ α) : Run ε δ α :=
  ⟨events ++ run.trace, run.exit⟩

/-! ## The loop -/

section

variable {ε δ α : Type}

def commitEvents (outcomes : Outcomes ε δ α) (context : TransactionAttempt) :
    List (Event ε δ) :=
  match (outcomes.body context).exit with
  | .success _ => [.committed context.attempt (outcomes.commit context.attempt)]
  | .failure _ => []

def attemptExit (outcomes : Outcomes ε δ α) (context : TransactionAttempt) :
    Exit ε δ (FoundationDbTransactionResult α) :=
  match (outcomes.body context).exit with
  | .failure cause => .failure cause
  | .success value =>
    match outcomes.commit context.attempt with
    | .success committedVersion => .success ⟨value, committedVersion⟩
    | .failure cause => .failure cause

def commitFailed (outcomes : Outcomes ε δ α) (context : TransactionAttempt) : Bool :=
  match (outcomes.body context).exit, outcomes.commit context.attempt with
  | .success _, .failure _ => true
  | _, _ => false

def cancelPostCommitFutures (outcomes : Outcomes ε δ α) (context : TransactionAttempt) :
    List (Event ε δ) :=
  match attemptExit outcomes context with
  | .success _ => []
  | .failure _ =>
      (outcomes.body context).postCommitFutures.map (.futureCancelled context.attempt)

def runAttempt (outcomes : Outcomes ε δ α) (context : TransactionAttempt) :
    List (Event ε δ) :=
  [.bodyStarted context, .scopeClosed context.attempt] ++ commitEvents outcomes context ++
    cancelPostCommitFutures outcomes context

/-- The conflicting ranges handed to the next attempt, which are read from the driver only
after a failed commit of a transaction that asked for them. -/
def nextConflictingKeyRanges (outcomes : Outcomes ε δ α) (options : TransactionOptions)
    (context : TransactionAttempt) : List (Event ε δ) × Exit ε δ (List ConflictRange) :=
  if commitFailed outcomes context && options.reportConflictingKeys == some true then
    let exit := outcomes.getConflictingKeyRanges context.attempt
    ([.conflictingKeyRangesRead context.attempt exit], exit)
  else ([], .success [])

/-- After a failed attempt: either the exit of the call, or the context of the next
attempt. -/
def onFailure (outcomes : Outcomes ε δ α) (options : TransactionOptions)
    (context : TransactionAttempt) (cause : Cause ε δ) :
    List (Event ε δ) × (Exit ε δ (FoundationDbTransactionResult α) ⊕ TransactionAttempt) :=
  match singleFoundationDbFailure cause with
  | none => ([], .inl (.failure cause))
  | some failure =>
    let nextMaybeCommitted := context.maybeCommitted || failure.maybeCommitted
    if failure.maybeCommitted && options.retryOnMaybeCommitted == some false then
      ([], .inl (.failure cause))
    else
      match nextConflictingKeyRanges outcomes options context with
      | (events, .failure cause) => (events, .inl (.failure cause))
      | (events, .success ranges) =>
        let exit := outcomes.onError context.attempt failure
        (events ++ [.onErrorCalled context.attempt failure exit],
          match exit with
          | .failure cause => .inl (.failure (mapOnErrorCause cause nextMaybeCommitted))
          | .success () => .inr ⟨context.attempt + 1, nextMaybeCommitted, ranges⟩)

def attemptOnce (outcomes : Outcomes ε δ α) (options : TransactionOptions)
    (context : TransactionAttempt) :
    List (Event ε δ) × (Exit ε δ (FoundationDbTransactionResult α) ⊕ TransactionAttempt) :=
  match attemptExit outcomes context with
  | .success result => (runAttempt outcomes context, .inl (.success result))
  | .failure cause =>
    let (events, next) := onFailure outcomes options context cause
    (runAttempt outcomes context ++ events, next)

def attempt (outcomes : Outcomes ε δ α) (options : TransactionOptions) :
    Nat → TransactionAttempt → Run ε δ (FoundationDbTransactionResult α)
  | 0, _ => ⟨[], none⟩
  | fuel + 1, context =>
    match attemptOnce outcomes options context with
    | (events, .inl exit) => ⟨events, some exit⟩
    | (events, .inr next) => (attempt outcomes options fuel next).after events

def nativeOptions (options : TransactionOptions) : List (TransactionOption × Int) :=
  (options.timeoutMs.map (.timeout, ·)).toList ++
    (options.retryLimit.map (.retryLimit, ·)).toList ++
    (options.maxRetryDelayMs.map (.maxRetryDelay, ·)).toList ++
    if options.reportConflictingKeys = some true then [(.reportConflictingKeys, 1)] else []

def setOptions (outcomes : Outcomes ε δ α) : List (TransactionOption × Int) →
    List (Event ε δ) × Exit ε δ Unit
  | [] => ([], .success ())
  | (option, value) :: rest =>
    match outcomes.setTransactionOption option value with
    | .failure cause => ([.optionSet option value], .failure cause)
    | .success () =>
      let (events, exit) := setOptions outcomes rest
      (.optionSet option value :: events, exit)

/-- The use of the open handle: its options, then the attempts. -/
def useTransaction (outcomes : Outcomes ε δ α) (options : TransactionOptions) (fuel : Nat) :
    Run ε δ (FoundationDbTransactionResult α) :=
  match setOptions outcomes (nativeOptions options) with
  | (events, .failure cause) => ⟨events, some (.failure cause)⟩
  | (events, .success ()) => (attempt outcomes options fuel ⟨1, false, []⟩).after events

/-- `releaseOrDie`: a handle that cannot be closed turns the exit into a defect. -/
def releaseOrDie (outcomes : Outcomes ε δ α) {β : Type} (exit : Exit ε δ β) : Exit ε δ β :=
  match outcomes.closeTransaction with
  | none => exit
  | some error => .failure [.dieFoundationDb error]

/-- The call as far as `fuel` attempts take it. -/
def withTransactionResult (outcomes : Outcomes ε δ α)
    (transactionDefaults options : TransactionOptions) (fuel : Nat) :
    Run ε δ (FoundationDbTransactionResult α) :=
  match outcomes.openTransaction with
  | .failure cause => ⟨[.transactionOpened], some (.failure cause)⟩
  | .success () =>
    let run := useTransaction outcomes (transactionDefaults.override options) fuel
    match run.exit with
    | none => run.after [.transactionOpened]
    | some exit =>
      ⟨.transactionOpened :: run.trace ++ [.transactionClosed],
        some (releaseOrDie outcomes exit)⟩

end

end FoundationDbEffect.Client
