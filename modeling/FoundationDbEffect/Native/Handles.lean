import FoundationDbEffect.Native.Lifecycle

/-!
# Handles of transactions and ranges

A transaction stands in a slot, out of which a commit and an error handler move it for the time
of their task; a range cursor gives its range away for the time of a page. The client library is
a parameter: what it records of a write, and where a range goes on after a page.

A call is one step. The lifecycle, the table of the requests and the acceptance of tasks belong to
the other parties and may change between any two steps.
-/

namespace FoundationDbEffect.Native

open FoundationDbEffect.Foundation

def INVALID_HANDLE : Int := 90001
def INVALID_TRANSACTION_STATE : Int := 90004

def RESULT_PRESENT : Nat := 1
def RESULT_MORE : Nat := 2

structure KeySelector where
  key : Bytes
  orEqual : Bool
  offset : Int
  deriving DecidableEq, Repr

inductive StreamingMode where
  | wantAll
  | iterator
  | exact
  | small
  | medium
  | large
  | serial
  deriving DecidableEq, Repr

structure RangeOption where
  begin : KeySelector
  stop : KeySelector
  limit : Option Nat
  targetBytes : Nat
  mode : StreamingMode
  reverse : Bool
  deriving DecidableEq, Repr

structure FdbValues where
  rows : List KeyValue
  more : Bool
  deriving DecidableEq, Repr

structure ClientLibrary (τ : Type) where
  set : Bytes → Bytes → τ → τ
  nextRange : RangeOption → FdbValues → Option RangeOption

/-- A library that keeps the writes of a transaction, and goes on after the last row of a page. -/
def ClientLibrary.recording : ClientLibrary (List (Bytes × Bytes)) where
  set key value writes := writes ++ [(key, value)]
  nextRange range page := do
    let last ← page.rows.getLast?
    let range := { range with limit := range.limit.map (· - page.rows.length) }
    if page.more = false ∨ range.limit = some 0 then none
    else if range.reverse then some { range with stop := ⟨last.key, false, 1⟩ }
    else some { range with begin := ⟨last.key, true, 1⟩ }

inductive TransactionState (τ ε : Type) where
  | active (transaction : τ)
  | commitFailed (error : ε) (conflictingKeyRanges : List ConflictRange)
  deriving DecidableEq

structure RangeCursor where
  transaction : Nat
  range : Option RangeOption
  iteration : Nat
  snapshot : Bool
  deriving DecidableEq, Repr

inductive AsyncFuture (τ ε : Type) where
  | get (key : Bytes) (snapshot : Bool)
  | page (cursor : Nat) (range : RangeOption) (iteration : Nat) (snapshot : Bool)
  | rangeEnd (cursor : Nat)
  | commit (handle : Nat) (transaction : τ)
  | onError (handle : Nat) (state : TransactionState τ ε) (code : Int)
  deriving DecidableEq

/-- The handles of a runtime. What has become of the pages of a range is kept for the reader only:
it is `delivered` from the page after which the client library had no more, and `broken` from a
page that did not arrive. -/
structure Handles (τ ε : Type) where
  lifecycle : Lifecycle
  accepting : Bool
  asyncTasks : Nat → Bool
  nextHandle : Nat
  transactions : Nat → Option (Option (TransactionState τ ε))
  ranges : Nat → Option RangeCursor
  futures : List (AsyncFuture τ ε)
  delivered : Nat → Bool
  broken : Nat → Bool

namespace Handles

variable {τ ε : Type}

def empty : Handles τ ε where
  lifecycle := .uninitialized
  accepting := false
  asyncTasks := fun _ => false
  nextHandle := 1
  transactions := fun _ => none
  ranges := fun _ => none
  futures := []
  delivered := fun _ => false
  broken := fun _ => false

def runtime (handles : Handles τ ε) : Except Int Unit :=
  match handles.lifecycle with
  | .running _ _ => .ok ()
  | .failed error => .error error.code
  | .uninitialized | .stopped => .error BRIDGE_NOT_RUNNING

def transaction (handles : Handles τ ε) (handle : Nat) :
    Except Int (Option (TransactionState τ ε)) := do
  handles.runtime
  match handles.transactions handle with
  | some state => .ok state
  | none => .error INVALID_HANDLE

def range (handles : Handles τ ε) (handle : Nat) : Except Int RangeCursor := do
  handles.runtime
  match handles.ranges handle with
  | some cursor => .ok cursor
  | none => .error INVALID_HANDLE

/-- A slot outlives its handle in the tasks that hold it, where nobody reads it. -/
def setTransaction (handle : Nat) (state : Option (TransactionState τ ε))
    (handles : Handles τ ε) : Handles τ ε :=
  { handles with
    transactions := Function.update handles.transactions handle
      ((handles.transactions handle).map fun _ => state) }

def setRange (handle : Nat) (change : RangeCursor → RangeCursor) (handles : Handles τ ε) :
    Handles τ ε :=
  { handles with
    ranges := Function.update handles.ranges handle ((handles.ranges handle).map change) }

def spawn (requestId : Nat) (future : AsyncFuture τ ε) (handles : Handles τ ε) : Handles τ ε :=
  { handles with
    asyncTasks := Function.update handles.asyncTasks requestId true
    futures := handles.futures ++ [future] }

/-- The start of a task, whose future is lost when the task is refused. -/
def startAsync (callback : Bool) (requestId : Nat) (future : AsyncFuture τ ε)
    (handles : Handles τ ε) : Int × Handles τ ε :=
  if callback = false then (INVALID_ARGUMENT, handles)
  else if handles.accepting = false then (BRIDGE_NOT_RUNNING, handles)
  else if handles.asyncTasks requestId then (INVALID_ARGUMENT, handles)
  else (0, handles.spawn requestId future)

end Handles

def inputBytes : Option Bytes → Except Int Bytes
  | some bytes => if bytes.length ≤ 2 ^ 31 - 1 then .ok bytes else .error INVALID_ARGUMENT
  | none => .error INVALID_ARGUMENT

def activeTransaction {τ ε : Type} : Option (TransactionState τ ε) → Except Int τ
  | some (.active transaction) => .ok transaction
  | some (.commitFailed _ _) | none => .error INVALID_TRANSACTION_STATE

def streamingMode (value : Int) : Except Int StreamingMode :=
  if value = -2 then .ok .wantAll
  else if value = -1 then .ok .iterator
  else if value = 0 then .ok .exact
  else if value = 1 then .ok .small
  else if value = 2 then .ok .medium
  else if value = 3 then .ok .large
  else if value = 4 then .ok .serial
  else .error INVALID_ARGUMENT

structure SelectorInput where
  key : Option Bytes
  orEqual : Bool
  offset : Int

/-- The calls, with their arguments. The transaction that an open creates, or why it cannot, is
decided by the database handle and the client library. -/
inductive NativeCall (τ : Type) where
  | transactionOpen (created : Except ErrorCode τ)
  | transactionClose (handle : Nat)
  | transactionGet (handle : Nat) (key : Option Bytes) (snapshot callback : Bool)
      (requestId : Nat)
  | transactionSet (handle : Nat) (key value : Option Bytes)
  | transactionCommit (handle : Nat) (callback : Bool) (requestId : Nat)
  | transactionOnError (handle : Nat) (errorCode : Int) (callback : Bool) (requestId : Nat)
  | transactionGetConflictingKeyRanges (handle : Nat)
  | rangeOpen (transactionHandle : Nat) (begin stop : SelectorInput) (limit targetBytes mode : Int)
      (reverse snapshot : Bool)
  | rangeNext (handle : Nat) (callback : Bool) (requestId : Nat)
  | rangeClose (handle : Nat)

namespace Handles

variable {τ ε : Type} (client : ClientLibrary τ)

/-- A call whose state is only read until it succeeds. -/
def attempt (call : Except Int (FfiResult × Handles τ ε)) (handles : Handles τ ε) :
    FfiResult × Handles τ ε :=
  match call with
  | .ok done => done
  | .error code => (.error code, handles)

def transactionOpen (created : Except ErrorCode τ) (handles : Handles τ ε) :
    FfiResult × Handles τ ε :=
  handles.attempt do
    handles.runtime
    match created with
    | .error error => .error error.code
    | .ok transaction =>
        .ok ({ handle := handles.nextHandle }, { handles with
          nextHandle := handles.nextHandle + 1
          transactions := Function.update handles.transactions handles.nextHandle
            (some (some (.active transaction))) })

def transactionClose (handle : Nat) (handles : Handles τ ε) : FfiResult × Handles τ ε :=
  handles.attempt do
    handles.runtime
    .ok ({}, { handles with
      ranges := fun range => (handles.ranges range).filter fun cursor => cursor.transaction ≠ handle
      transactions := Function.update handles.transactions handle none })

def transactionGet (handle : Nat) (key : Option Bytes) (snapshot callback : Bool)
    (requestId : Nat) (handles : Handles τ ε) : FfiResult × Handles τ ε :=
  handles.attempt do
    let key ← inputBytes key
    let state ← handles.transaction handle
    let _ ← activeTransaction state
    let (code, handles) := handles.startAsync callback requestId (.get key snapshot)
    .ok (.error code, handles)

def transactionSet (handle : Nat) (key value : Option Bytes) (handles : Handles τ ε) :
    FfiResult × Handles τ ε :=
  handles.attempt do
    let key ← inputBytes key
    let value ← inputBytes value
    let state ← handles.transaction handle
    let transaction ← activeTransaction state
    .ok ({}, handles.setTransaction handle (some (.active (client.set key value transaction))))

def transactionCommit (handle : Nat) (callback : Bool) (requestId : Nat) (handles : Handles τ ε) :
    FfiResult × Handles τ ε :=
  handles.attempt do
    let state ← handles.transaction handle
    let handles := handles.setTransaction handle none
    match state with
    | some (.active transaction) =>
        let (code, handles) := handles.startAsync callback requestId (.commit handle transaction)
        .ok (.error code, handles)
    | _ => .ok (.error INVALID_TRANSACTION_STATE, handles)

def transactionOnError (handle : Nat) (errorCode : Int) (callback : Bool) (requestId : Nat)
    (handles : Handles τ ε) : FfiResult × Handles τ ε :=
  handles.attempt do
    let state ← handles.transaction handle
    let handles := handles.setTransaction handle none
    match state with
    | some state =>
        let (code, handles) :=
          handles.startAsync callback requestId (.onError handle state errorCode)
        .ok (.error code, handles)
    | none => .ok (.error INVALID_TRANSACTION_STATE, handles)

def transactionGetConflictingKeyRanges (handle : Nat) (handles : Handles τ ε) :
    FfiResult × Handles τ ε :=
  handles.attempt do
    let state ← handles.transaction handle
    match state with
    | some (.commitFailed _ conflictingKeyRanges) =>
        let data ← encodeConflictingKeyRanges conflictingKeyRanges
        .ok ({ data }, handles)
    | _ => .error INVALID_TRANSACTION_STATE

def rangeOpen (transactionHandle : Nat) (begin stop : SelectorInput)
    (limit targetBytes mode : Int) (reverse snapshot : Bool) (handles : Handles τ ε) :
    FfiResult × Handles τ ε :=
  handles.attempt do
    if limit < 0 ∨ targetBytes < 0 ∨ (mode = 0 ∧ limit = 0) then .error INVALID_ARGUMENT
    let _ ← handles.transaction transactionHandle
    let beginKey ← inputBytes begin.key
    let stopKey ← inputBytes stop.key
    let mode ← streamingMode mode
    let range : RangeOption := {
      begin := ⟨beginKey, begin.orEqual, begin.offset⟩
      stop := ⟨stopKey, stop.orEqual, stop.offset⟩
      limit := if limit > 0 then some limit.toNat else none
      targetBytes := targetBytes.toNat
      mode
      reverse }
    let cursor : RangeCursor :=
      { transaction := transactionHandle, range := some range, iteration := 1, snapshot }
    .ok ({ handle := handles.nextHandle }, { handles with
      nextHandle := handles.nextHandle + 1
      ranges := Function.update handles.ranges handles.nextHandle (some cursor) })

def rangeNext (handle : Nat) (callback : Bool) (requestId : Nat) (handles : Handles τ ε) :
    FfiResult × Handles τ ε :=
  handles.attempt do
    let cursor ← handles.range handle
    match cursor.range with
    | none =>
        let (code, handles) := handles.startAsync callback requestId (.rangeEnd handle)
        .ok (.error code, handles)
    | some range =>
        let handles := handles.setRange handle fun cursor => { cursor with range := none }
        .ok <| handles.attempt do
          let state ← handles.transaction cursor.transaction
          let _ ← activeTransaction state
          let future := .page handle range cursor.iteration cursor.snapshot
          let (code, handles) := handles.startAsync callback requestId future
          .ok (.error code, handles)

def rangeClose (handle : Nat) (handles : Handles τ ε) : FfiResult × Handles τ ε :=
  handles.attempt do
    handles.runtime
    .ok ({}, { handles with ranges := Function.update handles.ranges handle none })

def call (handles : Handles τ ε) : NativeCall τ → FfiResult × Handles τ ε
  | .transactionOpen created => handles.transactionOpen created
  | .transactionClose handle => handles.transactionClose handle
  | .transactionGet handle key snapshot callback requestId =>
      handles.transactionGet handle key snapshot callback requestId
  | .transactionSet handle key value => handles.transactionSet client handle key value
  | .transactionCommit handle callback requestId =>
      handles.transactionCommit handle callback requestId
  | .transactionOnError handle errorCode callback requestId =>
      handles.transactionOnError handle errorCode callback requestId
  | .transactionGetConflictingKeyRanges handle =>
      handles.transactionGetConflictingKeyRanges handle
  | .rangeOpen transactionHandle begin stop limit targetBytes mode reverse snapshot =>
      handles.rangeOpen transactionHandle begin stop limit targetBytes mode reverse snapshot
  | .rangeNext handle callback requestId => handles.rangeNext handle callback requestId
  | .rangeClose handle => handles.rangeClose handle

end Handles

/-! ## Tasks -/

inductive Outcome (τ ε : Type) where
  | ready
  | value (value : Option Bytes)
  | values (values : FdbValues)
  | committed (version : Except ErrorCode Bytes)
  | commitFailed (code : ErrorCode) (error : ε) (conflictingKeyRanges : List ConflictRange)
  | retried (transaction : τ)
  | failed (code : ErrorCode)
  | panicked
  | cancelled

/-- The end of a task, when the outcome is one of its future. -/
def Handles.complete {τ ε : Type} (client : ClientLibrary τ) (handles : Handles τ ε) :
    AsyncFuture τ ε → Outcome τ ε → Option (FfiResult × Handles τ ε)
  | .get _ _, .value value =>
      let flags := if value.isSome then RESULT_PRESENT else 0
      some ({ flags, data := value.getD [] }, handles)
  | .page cursor range _ _, .values values =>
      match encodeKeyValues values.rows with
      | .error code => some (.error code, handles)
      | .ok data =>
          let next := client.nextRange range values
          some ({ flags := if next.isSome then RESULT_MORE else 0, data },
            handles.setRange cursor fun cursor =>
              { cursor with iteration := cursor.iteration + 1, range := next })
  | .rangeEnd _, .ready => some ({}, handles)
  | .commit _ _, .committed (.ok version) => some ({ data := version }, handles)
  | .commit _ _, .committed (.error error) => some (.error error.code, handles)
  | .commit handle _, .commitFailed code error conflictingKeyRanges =>
      some (.error code.code,
        handles.setTransaction handle (some (.commitFailed error conflictingKeyRanges)))
  | .onError handle _ _, .retried transaction =>
      some ({}, handles.setTransaction handle (some (.active transaction)))
  | .get _ _, .failed error | .page _ _ _ _, .failed error | .onError _ _ _, .failed error =>
      some (.error error.code, handles)
  | _, .panicked => some (.error BRIDGE_PANIC, handles)
  | _, .cancelled => some (.error ASYNC_CANCELLED, handles)
  | _, _ => none

/-- A page that is handed over: the client library has read it and the bridge has encoded it. -/
def Outcome.arrives {τ ε : Type} : Outcome τ ε → Option FdbValues
  | .values page => if (encodeKeyValues page.rows).isOk then some page else none
  | _ => none

/-- The end of a page in the record of its range. -/
def Handles.note {τ ε : Type} (client : ClientLibrary τ) (handles : Handles τ ε) :
    AsyncFuture τ ε → Outcome τ ε → Handles τ ε
  | .page cursor range _ _, outcome =>
      match outcome.arrives with
      | some values =>
          if (client.nextRange range values).isNone then
            { handles with delivered := Function.update handles.delivered cursor true }
          else handles
      | none => { handles with broken := Function.update handles.broken cursor true }
  | _, _ => handles

/-! ## Runs -/

inductive HandleLabel (τ ε : Type) where
  | call (call : NativeCall τ) (result : FfiResult)
  | complete (future : AsyncFuture τ ε) (outcome : Outcome τ ε) (result : FfiResult)
  | environment

inductive HandleStep {τ ε : Type} (client : ClientLibrary τ) :
    Handles τ ε → HandleLabel τ ε → Handles τ ε → Prop where
  | call (handles : Handles τ ε) (call : NativeCall τ) :
      HandleStep client handles (.call call (handles.call client call).1)
        (handles.call client call).2
  | complete {handles next : Handles τ ε} {earlier later : List (AsyncFuture τ ε)}
      {future : AsyncFuture τ ε} {outcome : Outcome τ ε} {result : FfiResult}
      (hfutures : handles.futures = earlier ++ future :: later)
      (hcomplete : { handles with futures := earlier ++ later }.complete client future outcome =
        some (result, next)) :
      HandleStep client handles (.complete future outcome result)
        (next.note client future outcome)
  | environment (handles : Handles τ ε) (lifecycle : Lifecycle) (accepting : Bool)
      (asyncTasks : Nat → Bool) :
      HandleStep client handles .environment { handles with lifecycle, accepting, asyncTasks }

end FoundationDbEffect.Native
