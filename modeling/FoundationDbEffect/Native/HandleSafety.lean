import FoundationDbEffect.Foundation.Fallible
import FoundationDbEffect.Native.Handles

/-!
# Rejected calls and their handles

A call that is rejected after it has moved a transaction or a range out of its place loses it.
Where no call does, a transaction is always in one place, its slot or a task, and a cursor without
a range has delivered it or waits for a page.
-/

namespace FoundationDbEffect.Native

open FoundationDbEffect.Foundation

/-! ## What a call does -/

namespace Handles

variable {τ ε : Type} {client : ClientLibrary τ} {handles : Handles τ ε}

def starts (handles : Handles τ ε) (callback : Bool) (requestId : Nat) : Bool :=
  callback && handles.accepting && !handles.asyncTasks requestId

theorem startAsync_of_starts (handles : Handles τ ε) (future : AsyncFuture τ ε) {callback : Bool}
    {requestId : Nat} (h : handles.starts callback requestId) :
    handles.startAsync callback requestId future = (0, handles.spawn requestId future) := by
  simp only [starts, Bool.and_eq_true, Bool.not_eq_true'] at h
  simp [startAsync, h]

theorem startAsync_refused (handles : Handles τ ε) (future : AsyncFuture τ ε) {callback : Bool}
    {requestId : Nat} (h : ¬ handles.starts callback requestId) :
    ∃ code, code ≠ 0 ∧ handles.startAsync callback requestId future = (code, handles) := by
  unfold startAsync
  split
  · exact ⟨_, by decide, rfl⟩
  · split
    · exact ⟨_, by decide, rfl⟩
    · split
      · exact ⟨_, by decide, rfl⟩
      · simp_all [starts]

theorem transaction_eq_ok {handle : Nat} {state : Option (TransactionState τ ε)} :
    handles.transaction handle = .ok state ↔
      handles.runtime = .ok () ∧ handles.transactions handle = some state := by
  unfold transaction
  cases handles.runtime <;> cases handles.transactions handle <;> simp [bind, Except.bind]

theorem activeTransaction_eq_ok {state : Option (TransactionState τ ε)} {transaction : τ}
    (h : activeTransaction state = .ok transaction) : state = some (.active transaction) := by
  unfold activeTransaction at h
  split at h <;> cases h
  rfl

theorem range_eq_ok {handle : Nat} {cursor : RangeCursor} :
    handles.range handle = .ok cursor ↔
      handles.runtime = .ok () ∧ handles.ranges handle = some cursor := by
  unfold range
  cases handles.runtime <;> cases handles.ranges handle <;> simp [bind, Except.bind]

theorem runtime_ne_zero {code : Int} (h : handles.runtime = .error code) : code ≠ 0 := by
  unfold runtime at h
  split at h
  · cases h
  · cases h
    exact ErrorCode.nonzero _
  all_goals
    cases h
    decide

theorem transaction_ne_zero {handle : Nat} {code : Int}
    (h : handles.transaction handle = .error code) : code ≠ 0 := by
  unfold transaction at h
  cases hruntime : handles.runtime with
  | error code' =>
      rw [hruntime] at h
      cases h
      exact runtime_ne_zero hruntime
  | ok _ =>
      rw [hruntime] at h
      cases hslot : handles.transactions handle with
      | none =>
          simp only [hslot] at h
          cases h
          decide
      | some state =>
          simp only [hslot] at h
          cases h

/-- A call that moves nothing out of its place, or that starts the task it has moved it for. -/
def keeps (handles : Handles τ ε) : NativeCall τ → Bool
  | .transactionCommit handle callback requestId =>
      match handles.transaction handle with
      | .ok (some (.active _)) => handles.starts callback requestId
      | .ok (some (.commitFailed _ _)) => false
      | _ => true
  | .transactionOnError handle _ callback requestId =>
      match handles.transaction handle with
      | .ok (some _) => handles.starts callback requestId
      | _ => true
  | .rangeNext handle callback requestId =>
      match handles.range handle with
      | .ok { transaction, range := some _, .. } =>
          match handles.transaction transaction with
          | .ok (some (.active _)) => handles.starts callback requestId
          | _ => false
      | _ => true
  | _ => true

inductive CallStep (client : ClientLibrary τ) (handles : Handles τ ε) :
    NativeCall τ → Int → Handles τ ε → Prop where
  | unchanged (call : NativeCall τ) (code : Int) (hkeeps : handles.keeps call) :
      CallStep client handles call code handles
  | opened (transaction : τ) :
      CallStep client handles (.transactionOpen (.ok transaction)) 0 { handles with
        nextHandle := handles.nextHandle + 1
        transactions := Function.update handles.transactions handles.nextHandle
          (some (some (.active transaction))) }
  | closed (handle : Nat) :
      CallStep client handles (.transactionClose handle) 0 { handles with
        ranges := fun range =>
          (handles.ranges range).filter fun cursor => cursor.transaction ≠ handle
        transactions := Function.update handles.transactions handle none }
  | read (handle : Nat) (key' : Option Bytes) (key : Bytes) (snapshot callback : Bool)
      (requestId : Nat) :
      CallStep client handles (.transactionGet handle key' snapshot callback requestId) 0
        (handles.spawn requestId (.get key snapshot))
  | written (handle : Nat) (key' value' : Option Bytes) (key value : Bytes) (transaction : τ)
      (hactive : handles.transactions handle = some (some (.active transaction))) :
      CallStep client handles (.transactionSet handle key' value') 0
        (handles.setTransaction handle (some (.active (client.set key value transaction))))
  | committing (handle : Nat) (callback : Bool) (requestId : Nat) (transaction : τ)
      (hactive : handles.transactions handle = some (some (.active transaction)))
      (hkeeps : handles.keeps (.transactionCommit handle callback requestId)) :
      CallStep client handles (.transactionCommit handle callback requestId) 0
        ((handles.setTransaction handle none).spawn requestId (.commit handle transaction))
  | recovering (handle : Nat) (errorCode : Int) (callback : Bool) (requestId : Nat)
      (state : TransactionState τ ε) (hstate : handles.transactions handle = some (some state))
      (hkeeps : handles.keeps (.transactionOnError handle errorCode callback requestId)) :
      CallStep client handles (.transactionOnError handle errorCode callback requestId) 0
        ((handles.setTransaction handle none).spawn requestId (.onError handle state errorCode))
  | lost (call : NativeCall τ) (code : Int) (handle : Nat) (state : TransactionState τ ε)
      (hstate : handles.transactions handle = some (some state)) (hcode : code ≠ 0)
      (hkeeps : handles.keeps call = false) :
      CallStep client handles call code (handles.setTransaction handle none)
  | rangeOpened (transactionHandle : Nat) (begin stop : SelectorInput)
      (limit targetBytes mode : Int) (reverse snapshot : Bool) (range : RangeOption) :
      CallStep client handles
        (.rangeOpen transactionHandle begin stop limit targetBytes mode reverse snapshot) 0
        { handles with
          nextHandle := handles.nextHandle + 1
          ranges := Function.update handles.ranges handles.nextHandle
            (some ⟨transactionHandle, some range, 1, snapshot⟩) }
  | paging (handle : Nat) (callback : Bool) (requestId : Nat) (cursor : RangeCursor)
      (range : RangeOption) (hcursor : handles.ranges handle = some cursor)
      (hrange : cursor.range = some range)
      (hkeeps : handles.keeps (.rangeNext handle callback requestId)) :
      CallStep client handles (.rangeNext handle callback requestId) 0
        ((handles.setRange handle fun cursor => { cursor with range := none }).spawn requestId
          (.page handle range cursor.iteration cursor.snapshot))
  | ending (handle : Nat) (callback : Bool) (requestId : Nat) (cursor : RangeCursor)
      (hcursor : handles.ranges handle = some cursor) (hrange : cursor.range = none)
      (hkeeps : handles.keeps (.rangeNext handle callback requestId)) :
      CallStep client handles (.rangeNext handle callback requestId) 0
        (handles.spawn requestId (.rangeEnd handle))
  | rangeLost (call : NativeCall τ) (code : Int) (handle : Nat) (cursor : RangeCursor)
      (range : RangeOption) (hcursor : handles.ranges handle = some cursor)
      (hrange : cursor.range = some range) (hcode : code ≠ 0)
      (hkeeps : handles.keeps call = false) :
      CallStep client handles call code
        (handles.setRange handle fun cursor => { cursor with range := none })
  | rangeClosed (handle : Nat) :
      CallStep client handles (.rangeClose handle) 0
        { handles with ranges := Function.update handles.ranges handle none }

theorem setTransaction_self {handle : Nat} {state : Option (TransactionState τ ε)}
    (h : handles.transactions handle = some state) :
    handles.setTransaction handle state = handles := by
  have hupdate : Function.update handles.transactions handle (some state) =
      handles.transactions := by
    rw [← h, Function.update_eq_self]
  simp only [setTransaction, h, Option.map_some, hupdate]

theorem transactionCommit_cases (handle : Nat) (callback : Bool) (requestId : Nat) :
    CallStep client handles (.transactionCommit handle callback requestId)
      (handles.transactionCommit handle callback requestId).1.code
      (handles.transactionCommit handle callback requestId).2 := by
  unfold transactionCommit
  cases htransaction : handles.transaction handle with
  | error code => exact .unchanged _ code (by simp [keeps, htransaction])
  | ok state =>
      have hstate := (transaction_eq_ok.mp htransaction).2
      match state with
      | none =>
          change CallStep client handles _ _ (handles.setTransaction handle none)
          rw [setTransaction_self hstate]
          exact .unchanged _ _ (by simp [keeps, htransaction])
      | some (.commitFailed error ranges) =>
          exact .lost _ _ handle _ hstate (show INVALID_TRANSACTION_STATE ≠ 0 by decide)
            (by simp [keeps, htransaction])
      | some (.active transaction) =>
          by_cases hstarts : handles.starts callback requestId
          · have hstarted := startAsync_of_starts (handles.setTransaction handle none)
              (.commit handle transaction) hstarts
            simp only [attempt, bind, Except.bind, hstarted]
            exact .committing handle callback requestId transaction hstate
              (by simpa [keeps, htransaction] using hstarts)
          · obtain ⟨code, hcode, hrefused⟩ := startAsync_refused
              (handles.setTransaction handle none) (.commit handle transaction) hstarts
            simp only [attempt, bind, Except.bind, hrefused]
            exact .lost _ _ handle _ hstate hcode (by simpa [keeps, htransaction] using hstarts)

theorem transactionOnError_cases (handle : Nat) (errorCode : Int) (callback : Bool)
    (requestId : Nat) :
    CallStep client handles (.transactionOnError handle errorCode callback requestId)
      (handles.transactionOnError handle errorCode callback requestId).1.code
      (handles.transactionOnError handle errorCode callback requestId).2 := by
  unfold transactionOnError
  cases htransaction : handles.transaction handle with
  | error code => exact .unchanged _ code (by simp [keeps, htransaction])
  | ok state =>
      have hstate := (transaction_eq_ok.mp htransaction).2
      match state with
      | none =>
          change CallStep client handles _ _ (handles.setTransaction handle none)
          rw [setTransaction_self hstate]
          exact .unchanged _ _ (by simp [keeps, htransaction])
      | some state =>
          by_cases hstarts : handles.starts callback requestId
          · have hstarted := startAsync_of_starts (handles.setTransaction handle none)
              (.onError handle state errorCode) hstarts
            simp only [attempt, bind, Except.bind, hstarted]
            exact .recovering handle errorCode callback requestId state hstate
              (by simpa [keeps, htransaction] using hstarts)
          · obtain ⟨code, hcode, hrefused⟩ := startAsync_refused
              (handles.setTransaction handle none) (.onError handle state errorCode) hstarts
            simp only [attempt, bind, Except.bind, hrefused]
            exact .lost _ _ handle _ hstate hcode (by simpa [keeps, htransaction] using hstarts)

theorem rangeNext_cases (handle : Nat) (callback : Bool) (requestId : Nat) :
    CallStep client handles (.rangeNext handle callback requestId)
      (handles.rangeNext handle callback requestId).1.code
      (handles.rangeNext handle callback requestId).2 := by
  unfold rangeNext
  cases hcursor : handles.range handle with
  | error code => exact .unchanged _ code (by simp [keeps, hcursor])
  | ok cursor =>
      have hranges := (range_eq_ok.mp hcursor).2
      obtain ⟨transaction, range, iteration, snapshot⟩ := cursor
      cases range with
      | none =>
          by_cases hstarts : handles.starts callback requestId
          · simp only [attempt, bind, Except.bind, startAsync_of_starts _ _ hstarts]
            exact .ending handle callback requestId _ hranges rfl (by simp [keeps, hcursor])
          · obtain ⟨code, hcode, hrefused⟩ := startAsync_refused handles (.rangeEnd handle) hstarts
            simp only [attempt, bind, Except.bind, hrefused]
            exact .unchanged _ _ (by simp [keeps, hcursor])
      | some range =>
          let taken := handles.setRange handle fun cursor => { cursor with range := none }
          have htaken : taken.transaction transaction = handles.transaction transaction := rfl
          have hlost : ∀ code : Int, code ≠ 0 →
              handles.keeps (.rangeNext handle callback requestId) = false →
              CallStep client handles (.rangeNext handle callback requestId) code taken :=
            fun code => .rangeLost _ code handle _ range hranges rfl
          cases htransaction : handles.transaction transaction with
          | error code =>
              simp only [attempt, bind, Except.bind, htaken, htransaction, taken]
              exact hlost code (transaction_ne_zero htransaction)
                (by simp [keeps, hcursor, htransaction])
          | ok state =>
              match state with
              | none | some (.commitFailed error ranges) =>
                  simp only [attempt, bind, Except.bind, htaken, htransaction, taken]
                  exact hlost INVALID_TRANSACTION_STATE (by decide)
                    (by simp [keeps, hcursor, htransaction])
              | some (.active active) =>
                  by_cases hstarts : handles.starts callback requestId
                  · have hstarted := startAsync_of_starts taken
                      (.page handle range iteration snapshot) hstarts
                    simp only [attempt, bind, Except.bind, htaken, htransaction, taken,
                      activeTransaction, hstarted]
                    exact .paging handle callback requestId _ range hranges rfl
                      (by simpa [keeps, hcursor, htransaction] using hstarts)
                  · obtain ⟨code, hcode, hrefused⟩ := startAsync_refused taken
                      (.page handle range iteration snapshot) hstarts
                    simp only [attempt, bind, Except.bind, htaken, htransaction, taken,
                      activeTransaction, hrefused]
                    exact hlost code hcode (by simpa [keeps, hcursor, htransaction] using hstarts)

theorem attempt_cases {call : NativeCall τ} {result : Except Int (FfiResult × Handles τ ε)}
    (hkeeps : handles.keeps call)
    (h : ∀ done, result = .ok done → CallStep client handles call done.1.code done.2) :
    CallStep client handles call (handles.attempt result).1.code (handles.attempt result).2 := by
  cases result with
  | error code => exact .unchanged _ code hkeeps
  | ok done => exact h done rfl

theorem call_cases (client : ClientLibrary τ) (handles : Handles τ ε) (call : NativeCall τ) :
    CallStep client handles call (handles.call client call).1.code
      (handles.call client call).2 := by
  cases call with
  | transactionCommit handle callback requestId =>
      exact transactionCommit_cases handle callback requestId
  | transactionOnError handle errorCode callback requestId =>
      exact transactionOnError_cases handle errorCode callback requestId
  | rangeNext handle callback requestId => exact rangeNext_cases handle callback requestId
  | transactionOpen created =>
      refine attempt_cases rfl fun done h => ?_
      obtain ⟨_, -, h⟩ := bind_eq_ok.mp h
      cases created with
      | error error => cases h
      | ok transaction =>
          cases h
          exact .opened transaction
  | transactionClose handle =>
      refine attempt_cases rfl fun done h => ?_
      obtain ⟨_, -, h⟩ := bind_eq_ok.mp h
      cases h
      exact .closed handle
  | rangeClose handle =>
      refine attempt_cases rfl fun done h => ?_
      obtain ⟨_, -, h⟩ := bind_eq_ok.mp h
      cases h
      exact .rangeClosed handle
  | transactionGet handle key snapshot callback requestId =>
      refine attempt_cases rfl fun done h => ?_
      obtain ⟨key, -, h⟩ := bind_eq_ok.mp h
      obtain ⟨state, -, h⟩ := bind_eq_ok.mp h
      obtain ⟨transaction, -, h⟩ := bind_eq_ok.mp h
      by_cases hstarts : handles.starts callback requestId
      · rw [startAsync_of_starts _ _ hstarts] at h
        cases h
        exact .read ..
      · obtain ⟨code, -, hrefused⟩ := startAsync_refused handles (.get key snapshot) hstarts
        rw [hrefused] at h
        cases h
        exact .unchanged _ _ rfl
  | transactionSet handle key value =>
      refine attempt_cases rfl fun done h => ?_
      obtain ⟨key, -, h⟩ := bind_eq_ok.mp h
      obtain ⟨value, -, h⟩ := bind_eq_ok.mp h
      obtain ⟨state, hstate, h⟩ := bind_eq_ok.mp h
      obtain ⟨transaction, hactive, h⟩ := bind_eq_ok.mp h
      obtain rfl := activeTransaction_eq_ok hactive
      cases h
      exact .written handle _ _ key value transaction (transaction_eq_ok.mp hstate).2
  | transactionGetConflictingKeyRanges handle =>
      refine attempt_cases rfl fun done h => ?_
      obtain ⟨state, -, h⟩ := bind_eq_ok.mp h
      match state with
      | some (.commitFailed error ranges) =>
          obtain ⟨data, -, h⟩ := bind_eq_ok.mp h
          cases h
          exact .unchanged _ _ rfl
      | none | some (.active transaction) => cases h
  | rangeOpen transactionHandle begin stop limit targetBytes mode reverse snapshot =>
      refine attempt_cases rfl fun done h => ?_
      dsimp only at h
      split at h
      · cases h
      obtain ⟨state, -, h⟩ := bind_eq_ok.mp h
      obtain ⟨beginKey, -, h⟩ := bind_eq_ok.mp h
      obtain ⟨stopKey, -, h⟩ := bind_eq_ok.mp h
      obtain ⟨mode, -, h⟩ := bind_eq_ok.mp h
      cases h
      exact .rangeOpened ..

/-- A rejected call leaves the handles as they are exactly when it keeps what it moves. -/
theorem keeps_iff (call : NativeCall τ) :
    ((handles.call client call).1.code ≠ 0 → (handles.call client call).2 = handles) ↔
      handles.keeps call := by
  have hcases := call_cases client handles call
  generalize (handles.call client call).1.code = code at hcases
  generalize (handles.call client call).2 = next at hcases
  constructor
  · intro hintact
    cases hcases with
    | lost _ _ handle state hstate hcode hkeeps =>
        have hslot := congrArg (fun handles => handles.transactions handle) (hintact hcode)
        simp [setTransaction, hstate] at hslot
    | rangeLost _ _ handle cursor range hcursor hrange hcode hkeeps =>
        have hslot := congrArg (fun handles => handles.ranges handle) (hintact hcode)
        simp only [setRange, hcursor, Function.update_self, Option.map_some,
          Option.some.injEq] at hslot
        rw [← hslot] at hrange
        cases hrange
    | unchanged | committing | recovering | paging | ending => assumption
    | opened | closed | read | written | rangeOpened | rangeClosed => rfl
  · intro hkeeps hcode
    cases hcases with
    | unchanged => rfl
    | lost _ _ _ _ _ _ hlost => simp [hlost] at hkeeps
    | rangeLost _ _ _ _ _ _ _ _ hlost => simp [hlost] at hkeeps
    | opened | closed | read | written | committing | recovering | rangeOpened | paging | ending
      | rangeClosed => exact absurd rfl hcode

end Handles

/-! ## What the end of a task does -/

namespace AsyncFuture

variable {τ ε : Type}

def handle : AsyncFuture τ ε → Option Nat
  | commit handle _ | onError handle _ _ | page handle _ _ _ | rangeEnd handle => some handle
  | get _ _ => none

def writes : AsyncFuture τ ε → Option Nat
  | commit handle _ | onError handle _ _ => some handle
  | _ => none

def pages : AsyncFuture τ ε → Option Nat
  | page cursor _ _ _ => some cursor
  | _ => none

theorem handle_of_writes {future : AsyncFuture τ ε} {slot : Nat} (h : future.writes = some slot) :
    future.handle = some slot := by
  cases future <;> first | exact h | cases h

theorem pages_of_writes {future : AsyncFuture τ ε} {slot : Nat} (h : future.writes = some slot) :
    future.pages = none := by
  cases future <;> first | rfl | cases h

end AsyncFuture

namespace Handles

variable {τ ε : Type} {client : ClientLibrary τ} {handles next : Handles τ ε}
  {future : AsyncFuture τ ε} {outcome : Outcome τ ε} {result : FfiResult}

inductive CompleteStep (client : ClientLibrary τ) (handles : Handles τ ε) :
    AsyncFuture τ ε → Outcome τ ε → FfiResult → Handles τ ε → Prop where
  | unchanged (future : AsyncFuture τ ε) (outcome : Outcome τ ε) (result : FfiResult)
      (hpage : future.pages.isSome → outcome.arrives = none ∧ result.code ≠ 0) :
      CompleteStep client handles future outcome result (handles.note client future outcome)
  | restored (future : AsyncFuture τ ε) (outcome : Outcome τ ε) (result : FfiResult)
      (slot : Nat) (state : TransactionState τ ε) (hwrites : future.writes = some slot) :
      CompleteStep client handles future outcome result (handles.setTransaction slot (some state))
  | delivered (cursor : Nat) (range : RangeOption) (iteration : Nat) (snapshot : Bool)
      (values : FdbValues) (data : Bytes) (hlast : client.nextRange range values = none) :
      CompleteStep client handles (.page cursor range iteration snapshot) (.values values)
        { data }
        { handles.setRange cursor fun cursor =>
            { cursor with iteration := cursor.iteration + 1, range := none } with
          delivered := Function.update handles.delivered cursor true }
  | paged (cursor : Nat) (range next : RangeOption) (iteration : Nat) (snapshot : Bool)
      (values : FdbValues) (data : Bytes) (hnext : client.nextRange range values = some next) :
      CompleteStep client handles (.page cursor range iteration snapshot) (.values values)
        { flags := RESULT_MORE, data }
        (handles.setRange cursor fun cursor =>
          { cursor with iteration := cursor.iteration + 1, range := some next })

theorem encodeKeyValues_ne_zero {values : List KeyValue} {code : Int}
    (h : encodeKeyValues values = .error code) : code ≠ 0 := by
  have huint32 : ∀ length code, uint32 length = .error code → code ≠ 0 := by
    intro length code h
    unfold uint32 at h
    split at h <;> cases h
    decide
  rcases bind_eq_error.mp h with hcount | ⟨count, -, hitems⟩
  · exact huint32 _ _ hcount
  · refine foldlM_error (P := (· ≠ 0)) (fun output value code hitem => ?_) hitems
    rcases bind_eq_error.mp hitem with hpair | ⟨pair, -, hpair⟩
    · rcases bind_eq_error.mp hpair with hfirst | ⟨first, -, hpair⟩
      · exact huint32 _ _ hfirst
      · rcases bind_eq_error.mp hpair with hsecond | ⟨second, -, hpair⟩
        · exact huint32 _ _ hsecond
        · cases hpair
    · cases hpair

theorem complete_cases (h : handles.complete client future outcome = some (result, next)) :
    CompleteStep client handles future outcome result (next.note client future outcome) := by
  unfold complete at h
  split at h
  case h_1 =>
      cases h
      exact .unchanged _ _ _ nofun
  case h_2 cursor range iteration snapshot values =>
      cases hdata : encodeKeyValues values.rows with
      | error code =>
          simp only [hdata] at h
          cases h
          refine .unchanged _ _ _ fun _ => ⟨?_, encodeKeyValues_ne_zero hdata⟩
          simp [Outcome.arrives, hdata, Except.isOk, Except.toBool]
      | ok data =>
          simp only [hdata] at h
          have harrives : (Outcome.values (τ := τ) (ε := ε) values).arrives = some values := by
            simp [Outcome.arrives, hdata, Except.isOk, Except.toBool]
          cases hnext : client.nextRange range values with
          | none =>
              simp only [hnext] at h
              cases h
              simp only [note, harrives, hnext, Option.isNone_none, if_true]
              exact .delivered cursor range iteration snapshot values data hnext
          | some next =>
              simp only [hnext] at h
              cases h
              simp only [note, harrives, hnext, Option.isNone_some, Bool.false_eq_true, if_false]
              exact .paged cursor range next iteration snapshot values data hnext
  case h_6 handle transaction code error ranges =>
      cases h
      exact .restored _ _ _ handle _ rfl
  case h_7 handle state code transaction =>
      cases h
      exact .restored _ _ _ handle _ rfl
  case h_9 cursor range iteration snapshot error =>
      cases h
      exact .unchanged _ _ _ fun _ => ⟨rfl, error.nonzero⟩
  case h_11 =>
      cases h
      exact .unchanged _ _ _ fun _ => ⟨rfl, (by decide : BRIDGE_PANIC ≠ 0)⟩
  case h_12 =>
      cases h
      exact .unchanged _ _ _ fun _ => ⟨rfl, (by decide : ASYNC_CANCELLED ≠ 0)⟩
  case h_13 => cases h
  all_goals
    cases h
    exact .unchanged _ _ _ nofun

/-! ## Slots -/

def moved (handles : Handles τ ε) (slot : Nat) : Nat :=
  handles.futures.countP fun future => future.writes = some slot

def copies (handles : Handles τ ε) (slot : Nat) : Nat :=
  handles.moved slot + if (handles.transactions slot).join.isSome then 1 else 0

theorem copies_spawn (requestId slot : Nat) :
    (handles.spawn requestId future).copies slot =
      handles.copies slot + if future.writes = some slot then 1 else 0 := by
  simp only [copies, moved, spawn, List.countP_append, List.countP_singleton, decide_eq_true_eq]
  exact Nat.add_right_comm _ _ _

theorem moved_eq_zero {slot : Nat}
    (h : ∀ future ∈ handles.futures, future.writes ≠ some slot) : handles.moved slot = 0 := by
  rw [moved, List.countP_eq_zero]
  intro future hmem
  simpa using h future hmem

/-- A transaction is never in two places. -/
structure SlotInv (handles : Handles τ ε) : Prop where
  fresh : ∀ handle, handles.nextHandle ≤ handle →
    handles.transactions handle = none ∧ handles.ranges handle = none ∧
      handles.delivered handle = false ∧ ∀ future ∈ handles.futures, future.handle ≠ some handle
  alone : ∀ slot, handles.copies slot ≤ 1

namespace SlotInv

theorem empty : SlotInv (Handles.empty (τ := τ) (ε := ε)) where
  fresh := by simp [Handles.empty]
  alone := by simp [copies, moved, Handles.empty]

theorem known (h : SlotInv handles) {handle : Nat} {state : Option (TransactionState τ ε)}
    (hstate : handles.transactions handle = some state) : handle < handles.nextHandle := by
  by_contra hlarge
  rw [(h.fresh handle (not_lt.mp hlarge)).1] at hstate
  cases hstate

theorem knownRange (h : SlotInv handles) {handle : Nat} {cursor : RangeCursor}
    (hcursor : handles.ranges handle = some cursor) : handle < handles.nextHandle := by
  by_contra hlarge
  rw [(h.fresh handle (not_lt.mp hlarge)).2.1] at hcursor
  cases hcursor

theorem moved_eq_zero (h : SlotInv handles) {slot : Nat} {state : TransactionState τ ε}
    (hstate : handles.transactions slot = some (some state)) : handles.moved slot = 0 := by
  have halone := h.alone slot
  simp only [copies, hstate, Option.join_some, Option.isSome_some, if_true] at halone
  omega

theorem setTransaction (h : SlotInv handles) {slot : Nat} {state : Option (TransactionState τ ε)}
    (hfree : state.isSome → handles.moved slot = 0) :
    SlotInv (handles.setTransaction slot state) where
  fresh := by
    intro handle hle
    obtain ⟨hnone, hrest⟩ := h.fresh handle hle
    refine ⟨?_, hrest⟩
    by_cases heq : handle = slot
    · simp [Handles.setTransaction, ← heq, hnone]
    · simpa [Handles.setTransaction, heq] using hnone
  alone := by
    intro other
    by_cases heq : other = slot
    · have hmoved : (handles.setTransaction slot state).copies slot =
          handles.moved slot + if ((handles.transactions slot).map fun _ => state).join.isSome
            then 1 else 0 := by
        simp [copies, moved, Handles.setTransaction]
      rw [heq, hmoved]
      have halone := h.alone slot
      simp only [copies] at halone
      cases state with
      | none =>
          have hempty : ((handles.transactions slot).map fun _ =>
              (none : Option (TransactionState τ ε))).join = none := by
            cases handles.transactions slot <;> rfl
          rw [hempty]
          exact le_trans (Nat.le_add_right _ _) halone
      | some state =>
          rw [hfree rfl]
          split <;> decide
    · have halone := h.alone other
      simpa [copies, moved, Handles.setTransaction, heq] using halone

theorem take (h : SlotInv handles) {slot : Nat} {state : TransactionState τ ε}
    (hstate : handles.transactions slot = some (some state)) :
    SlotInv (handles.setTransaction slot none) ∧
      (handles.setTransaction slot none).copies slot = 0 := by
  refine ⟨h.setTransaction nofun, ?_⟩
  have hmoved := h.moved_eq_zero hstate
  rw [moved] at hmoved
  simp [copies, moved, Handles.setTransaction, hstate, hmoved]

theorem spawn (h : SlotInv handles) {requestId : Nat}
    (hhandle : ∀ handle, future.handle = some handle → handle < handles.nextHandle)
    (hfree : ∀ slot, future.writes = some slot → handles.copies slot = 0) :
    SlotInv (handles.spawn requestId future) where
  fresh := by
    intro handle hle
    obtain ⟨hnone, hranges, hdelivered, hfutures⟩ := h.fresh handle hle
    refine ⟨hnone, hranges, hdelivered, fun other hother heq => ?_⟩
    rcases List.mem_append.mp hother with hother | hother
    · exact hfutures other hother heq
    · rw [List.mem_singleton.mp hother] at heq
      exact absurd (hhandle handle heq) (not_lt.mpr hle)
  alone := by
    intro slot
    rw [copies_spawn]
    split
    · rename_i hwrites
      rw [hfree slot hwrites]
    · exact h.alone slot

theorem ranges (h : SlotInv handles) {ranges : Nat → Option RangeCursor}
    (hranges : ∀ handle, handles.ranges handle = none → ranges handle = none) :
    SlotInv { handles with ranges } where
  fresh := by
    intro handle hle
    obtain ⟨hnone, hknown, hrest⟩ := h.fresh handle hle
    exact ⟨hnone, hranges handle hknown, hrest⟩
  alone := h.alone

theorem setRange (h : SlotInv handles) (handle : Nat) (change : RangeCursor → RangeCursor) :
    SlotInv (handles.setRange handle change) := by
  refine h.ranges fun other hnone => ?_
  by_cases heq : other = handle
  · rw [heq, Function.update_self, ← heq, hnone]
    rfl
  · rw [Function.update_of_ne heq, hnone]

theorem call (h : SlotInv handles) (call : NativeCall τ) :
    SlotInv (handles.call client call).2 := by
  have hcases := call_cases client handles call
  generalize (handles.call client call).1.code = code at hcases
  generalize (handles.call client call).2 = next at hcases
  cases hcases with
  | unchanged => exact h
  | opened transaction =>
      constructor
      case fresh =>
        intro handle hle
        have hlt : handles.nextHandle < handle := hle
        obtain ⟨hnone, hrest⟩ := h.fresh handle hlt.le
        exact ⟨by simpa [hlt.ne'] using hnone, hrest⟩
      case alone =>
        intro slot
        by_cases heq : slot = handles.nextHandle
        · have hmoved : handles.moved slot = 0 := by
            refine Handles.moved_eq_zero fun future hmem hwrites => ?_
            exact (h.fresh slot heq.ge).2.2.2 future hmem (AsyncFuture.handle_of_writes hwrites)
          rw [moved, heq] at hmoved
          rw [heq]
          simp [copies, moved, hmoved]
        · have halone := h.alone slot
          simpa [copies, moved, heq] using halone
  | closed handle =>
      constructor
      case fresh =>
        intro other hle
        obtain ⟨hnone, hranges, hrest⟩ := h.fresh other hle
        refine ⟨?_, by simp [hranges], hrest⟩
        by_cases heq : other = handle
        · simp [heq]
        · simpa [heq] using hnone
      case alone =>
        intro slot
        have halone := h.alone slot
        by_cases heq : slot = handle
        · simp only [copies, moved] at halone
          simp only [copies, moved, heq, Function.update_self]
          rw [heq] at halone
          simp
          omega
        · simpa [copies, moved, heq] using halone
  | read => exact h.spawn nofun nofun
  | written handle _ _ key value transaction hactive =>
      exact h.setTransaction fun _ => h.moved_eq_zero hactive
  | committing handle callback requestId transaction hactive hkeeps =>
      obtain ⟨htaken, hfree⟩ := h.take hactive
      refine htaken.spawn ?_ ?_
      · rintro _ ⟨⟩
        exact h.known hactive
      · rintro _ ⟨⟩
        exact hfree
  | recovering handle errorCode callback requestId state hstate hkeeps =>
      obtain ⟨htaken, hfree⟩ := h.take hstate
      refine htaken.spawn ?_ ?_
      · rintro _ ⟨⟩
        exact h.known hstate
      · rintro _ ⟨⟩
        exact hfree
  | lost _ _ handle state hstate hcode hkeeps => exact (h.take hstate).1
  | rangeOpened =>
      constructor
      case fresh =>
        intro handle hle
        have hlt : handles.nextHandle < handle := hle
        obtain ⟨hnone, hranges, hrest⟩ := h.fresh handle hlt.le
        exact ⟨hnone, by simpa [hlt.ne'] using hranges, hrest⟩
      case alone => exact h.alone
  | paging handle callback requestId cursor range hcursor hrange hkeeps =>
      refine (h.setRange handle _).spawn ?_ nofun
      rintro _ ⟨⟩
      exact h.knownRange hcursor
  | ending handle callback requestId cursor hcursor hrange hkeeps =>
      refine h.spawn ?_ nofun
      rintro _ ⟨⟩
      exact h.knownRange hcursor
  | rangeLost _ _ handle cursor range hcursor hrange hcode hkeeps => exact h.setRange handle _
  | rangeClosed handle =>
      refine h.ranges fun other hnone => ?_
      by_cases heq : other = handle
      · rw [heq, Function.update_self]
      · rw [Function.update_of_ne heq, hnone]

theorem remove (h : SlotInv handles) {earlier later : List (AsyncFuture τ ε)}
    (hfutures : handles.futures = earlier ++ future :: later) :
    SlotInv { handles with futures := earlier ++ later } ∧
      ∀ slot, future.writes = some slot →
        moved { handles with futures := earlier ++ later } slot = 0 := by
  have hmoved : ∀ slot, handles.moved slot =
      moved { handles with futures := earlier ++ later } slot +
        if future.writes = some slot then 1 else 0 := by
    intro slot
    simp only [moved, hfutures, List.countP_append, List.countP_cons, decide_eq_true_eq]
    exact (Nat.add_assoc _ _ _).symm
  refine ⟨⟨fun handle hle => ?_, fun slot => ?_⟩, fun slot hwrites => ?_⟩
  · obtain ⟨hnone, hranges, hdelivered, hfresh⟩ := h.fresh handle hle
    refine ⟨hnone, hranges, hdelivered, fun other hmem => hfresh other ?_⟩
    rw [hfutures]
    rcases List.mem_append.mp hmem with hmem | hmem
    · exact List.mem_append_left _ hmem
    · exact List.mem_append_right _ (List.mem_cons_of_mem _ hmem)
  · have halone := h.alone slot
    rw [copies, hmoved] at halone
    rw [copies]
    exact le_trans (Nat.add_le_add_right (Nat.le_add_right _ _) _) halone
  · have halone := h.alone slot
    rw [copies, hmoved, if_pos hwrites] at halone
    omega

theorem deliver (h : SlotInv handles) {cursor : Nat} (hknown : cursor < handles.nextHandle) :
    SlotInv { handles with delivered := Function.update handles.delivered cursor true } where
  fresh := by
    intro handle hle
    obtain ⟨hnone, hranges, hdelivered, hfutures⟩ := h.fresh handle hle
    have hne : handle ≠ cursor := by
      rintro rfl
      exact absurd hknown (not_lt.mpr hle)
    exact ⟨hnone, hranges, by simpa [hne] using hdelivered, hfutures⟩
  alone := h.alone

theorem complete (h : SlotInv handles) {outcome : Outcome τ ε} {result : FfiResult}
    {earlier later : List (AsyncFuture τ ε)}
    (hfutures : handles.futures = earlier ++ future :: later)
    (hstep : CompleteStep client { handles with futures := earlier ++ later } future outcome
      result next) : SlotInv next := by
  obtain ⟨hremoved, hfree⟩ := h.remove hfutures
  have hknown : ∀ handle, future.handle = some handle → handle < handles.nextHandle := by
    intro handle hhandle
    by_contra hlarge
    refine (h.fresh handle (not_lt.mp hlarge)).2.2.2 future ?_ hhandle
    rw [hfutures]
    exact List.mem_append_right _ List.mem_cons_self
  cases hstep with
  | unchanged _ _ _ hpage =>
      unfold note
      split
      · split
        · split
          · exact hremoved.deliver (hknown _ rfl)
          · exact hremoved
        · exact ⟨hremoved.fresh, hremoved.alone⟩
      · exact hremoved
  | restored _ _ _ slot state hwrites => exact hremoved.setTransaction fun _ => hfree slot hwrites
  | delivered cursor range iteration snapshot values data hlast =>
      exact (hremoved.setRange cursor _).deliver (hknown _ rfl)
  | paged cursor range next iteration snapshot values data hnext =>
      exact hremoved.setRange cursor _

theorem handleStep {label : HandleLabel τ ε} (h : SlotInv handles)
    (hstep : HandleStep client handles label next) : SlotInv next := by
  cases hstep with
  | call call => exact h.call call
  | complete hfutures hcomplete => exact h.complete hfutures (complete_cases hcomplete)
  | environment => exact ⟨h.fresh, h.alone⟩

end SlotInv

/-! ## Calm runs -/

def waits (handles : Handles τ ε) (handle : Nat) : Bool :=
  handles.futures.any fun future => future.pages = some handle

/-- A call that keeps what it moves and, when it asks for a page, finds the pages before it
arrived. -/
def calm (handles : Handles τ ε) : HandleLabel τ ε → Bool
  | .call (.rangeNext handle callback requestId) _ =>
      handles.keeps (.rangeNext handle callback requestId) && !handles.waits handle &&
        !handles.broken handle
  | .call call _ => handles.keeps call
  | _ => true

theorem keeps_of_calm {call : NativeCall τ} (h : handles.calm (.call call result)) :
    handles.keeps call := by
  cases call with
  | rangeNext handle callback requestId =>
      simp only [calm, Bool.and_eq_true] at h
      exact h.1.1
  | _ => exact h

/-- A cursor without a range has delivered it, unless a page is missing. -/
structure RangeInv (handles : Handles τ ε) : Prop where
  waiting : ∀ handle cursor, handles.ranges handle = some cursor → cursor.range = none →
    handles.delivered handle ∨ handles.broken handle ∨ handles.waits handle
  ended : ∀ handle, .rangeEnd handle ∈ handles.futures → handles.delivered handle

namespace RangeInv

theorem empty : RangeInv (Handles.empty (τ := τ) (ε := ε)) where
  waiting := nofun
  ended := nofun

theorem grow (h : RangeInv handles) (more : List (AsyncFuture τ ε))
    (hfutures : next.futures = handles.futures ++ more)
    (hdelivered : next.delivered = handles.delivered) (hbroken : next.broken = handles.broken)
    (hranges : ∀ handle cursor, next.ranges handle = some cursor → cursor.range = none →
      handles.ranges handle = some cursor ∨ ∃ future ∈ more, future.pages = some handle)
    (hended : ∀ handle, .rangeEnd handle ∈ more → handles.delivered handle) : RangeInv next where
  waiting := by
    intro handle cursor hcursor hrange
    simp only [hdelivered, hbroken, waits, hfutures, List.any_append, Bool.or_eq_true]
    rcases hranges handle cursor hcursor hrange with hbefore | ⟨future, hmem, hpages⟩
    · rcases h.waiting handle cursor hbefore hrange with hdone | hdone | hdone
      · exact .inl hdone
      · exact .inr (.inl hdone)
      · exact .inr (.inr (.inl hdone))
    · refine .inr (.inr (.inr ?_))
      exact List.any_eq_true.mpr ⟨future, hmem, by simpa using hpages⟩
  ended := by
    intro handle hmem
    rw [hdelivered]
    rw [hfutures] at hmem
    rcases List.mem_append.mp hmem with hmem | hmem
    · exact h.ended handle hmem
    · exact hended handle hmem

theorem call (h : RangeInv handles) {call : NativeCall τ}
    (hcalm : handles.calm (.call call (handles.call client call).1)) :
    RangeInv (handles.call client call).2 := by
  have hkeeps := keeps_of_calm hcalm
  have hcases := call_cases client handles call
  generalize (handles.call client call).1 = result at hcases hcalm
  generalize (handles.call client call).2 = next at hcases
  generalize result.code = code at hcases
  cases hcases with
  | unchanged => exact h
  | lost _ _ _ _ _ _ hlost => simp [hlost] at hkeeps
  | rangeLost _ _ _ _ _ _ _ _ hlost => simp [hlost] at hkeeps
  | opened | written =>
      exact h.grow [] (List.append_nil _).symm rfl rfl (fun _ _ hcursor _ => .inl hcursor) nofun
  | read | committing | recovering =>
      exact h.grow [_] rfl rfl rfl (fun _ _ hcursor _ => .inl hcursor) (by simp)
  | closed handle =>
      refine h.grow [] (List.append_nil _).symm rfl rfl
        (fun other cursor hcursor _ => .inl ?_) nofun
      exact (Option.filter_eq_some_iff.mp hcursor).1
  | rangeOpened =>
      refine h.grow [] (List.append_nil _).symm rfl rfl (fun other cursor hcursor hrange => .inl ?_)
        nofun
      by_cases heq : other = handles.nextHandle
      · rw [heq] at hcursor
        simp only [Function.update_self, Option.some.injEq] at hcursor
        rw [← hcursor] at hrange
        cases hrange
      · simpa [heq] using hcursor
  | rangeClosed handle =>
      refine h.grow [] (List.append_nil _).symm rfl rfl
        (fun other cursor hcursor _ => .inl ?_) nofun
      by_cases heq : other = handle
      · simp [heq] at hcursor
      · simpa [heq] using hcursor
  | paging handle callback requestId cursor range hcursor hrange =>
      refine h.grow [_] rfl rfl rfl (fun other cursor hother _ => ?_) (by simp)
      by_cases heq : other = handle
      · exact .inr ⟨_, List.mem_singleton_self _, heq ▸ rfl⟩
      · exact .inl (by simpa [setRange, spawn, heq] using hother)
  | ending handle callback requestId cursor hcursor hrange =>
      refine h.grow [_] rfl rfl rfl (fun _ _ hother _ => .inl hother) fun other hmem => ?_
      obtain rfl : other = handle := by simpa using hmem
      simp only [calm, Bool.and_eq_true, Bool.not_eq_true'] at hcalm
      rcases h.waiting other cursor hcursor hrange with hdone | hbroken | hwaits
      · exact hdone
      · simp [hbroken] at hcalm
      · simp [hwaits] at hcalm

theorem remove (h : RangeInv handles) {earlier later : List (AsyncFuture τ ε)}
    (hfutures : handles.futures = earlier ++ future :: later) {handle : Nat} {cursor : RangeCursor}
    (hcursor : handles.ranges handle = some cursor) (hrange : cursor.range = none)
    (hother : future.pages ≠ some handle) :
    handles.delivered handle ∨ handles.broken handle ∨
      waits { handles with futures := earlier ++ later } handle := by
  rcases h.waiting handle cursor hcursor hrange with hdone | hdone | hdone
  · exact .inl hdone
  · exact .inr (.inl hdone)
  · refine .inr (.inr ?_)
    simpa [waits, hfutures, hother] using hdone

theorem complete (h : RangeInv handles) {earlier later : List (AsyncFuture τ ε)}
    (hfutures : handles.futures = earlier ++ future :: later)
    (hstep : CompleteStep client { handles with futures := earlier ++ later } future outcome
      result next) : RangeInv next := by
  have hended : ∀ handle, .rangeEnd handle ∈ earlier ++ later → handles.delivered handle := by
    intro handle hmem
    refine h.ended handle ?_
    rw [hfutures]
    rcases List.mem_append.mp hmem with hmem | hmem
    · exact List.mem_append_left _ hmem
    · exact List.mem_append_right _ (List.mem_cons_of_mem _ hmem)
  cases hstep with
  | unchanged _ _ _ hpage =>
      cases future with
      | page handle range iteration snapshot =>
          simp only [note, (hpage rfl).1]
          refine ⟨fun other cursor hcursor hrange => ?_, hended⟩
          by_cases heq : other = handle
          · simp [heq]
          · have hother := h.remove hfutures hcursor hrange
              (by simpa [AsyncFuture.pages] using Ne.symm heq)
            simpa [heq, waits] using hother
      | get | rangeEnd | commit | onError =>
          exact ⟨fun other cursor hcursor hrange => h.remove hfutures hcursor hrange nofun, hended⟩
  | restored _ _ _ slot state hwrites =>
      refine ⟨fun other cursor hcursor hrange => h.remove hfutures hcursor hrange ?_, hended⟩
      rw [AsyncFuture.pages_of_writes hwrites]
      nofun
  | delivered handle range iteration snapshot values data hlast =>
      refine ⟨fun other cursor hcursor hrange => ?_, fun other hmem => ?_⟩
      · by_cases heq : other = handle
        · simp [heq]
        · have hbefore : handles.ranges other = some cursor := by
            simpa [setRange, heq] using hcursor
          have hother := h.remove hfutures hbefore hrange
            (by simpa [AsyncFuture.pages] using Ne.symm heq)
          simpa [heq, waits, setRange] using hother
      · by_cases heq : other = handle
        · simp [heq]
        · simpa [heq] using hended other hmem
  | paged handle range next iteration snapshot values data hnext =>
      refine ⟨fun other cursor hcursor hrange => ?_, hended⟩
      by_cases heq : other = handle
      · rw [heq] at hcursor
        simp only [setRange, Function.update_self, Option.map_eq_some_iff] at hcursor
        obtain ⟨before, -, rfl⟩ := hcursor
        cases hrange
      · have hbefore : handles.ranges other = some cursor := by simpa [setRange, heq] using hcursor
        have hother := h.remove hfutures hbefore hrange
          (by simpa [AsyncFuture.pages] using Ne.symm heq)
        simpa [waits, setRange] using hother

end RangeInv

end Handles

/-! ## Rejected calls -/

section Intact

variable {τ ε : Type} (client : ClientLibrary τ)

def CalmStep (handles : Handles τ ε) (label : HandleLabel τ ε) (next : Handles τ ε) : Prop :=
  HandleStep client handles label next ∧ handles.calm label

def HandleLabel.releases (slot : Nat) : HandleLabel τ ε → Bool
  | .call (.transactionClose handle) _ => handle = slot
  | .call (.transactionOnError handle _ _ _) result => handle = slot ∧ result.code = 0
  | _ => false

/-- A step leaves the handles of a rejected call and the failed commits as they are, and reports
the end of a range only when all of it has been delivered. -/
structure StepIntact (handles : Handles τ ε) (label : HandleLabel τ ε) (next : Handles τ ε) :
    Prop where
  rejected : ∀ call result, label = .call call result → result.code ≠ 0 → next = handles
  failed : ∀ slot error ranges,
    handles.transactions slot = some (some (.commitFailed error ranges)) →
      next.transactions slot = some (some (.commitFailed error ranges)) ∨ label.releases slot
  recovers : ∀ slot error ranges errorCode callback requestId,
    handles.transactions slot = some (some (.commitFailed error ranges)) →
      handles.runtime = .ok () → handles.starts callback requestId →
        ∃ recovering, handles.call client (.transactionOnError slot errorCode callback requestId) =
            ({}, recovering) ∧
          recovering.futures =
            handles.futures ++ [.onError slot (.commitFailed error ranges) errorCode]
  unread : ∀ handle, handles.nextHandle ≤ handle → handles.delivered handle = false
  ends : ∀ future outcome result handle, label = .complete future outcome result →
    future.pages = some handle ∨ future = .rangeEnd handle → result.code = 0 →
      result.flags = 0 → next.delivered handle

variable {client} {handles next : Handles τ ε} {label : HandleLabel τ ε}

theorem inv_of_run {labels : List (HandleLabel τ ε)}
    (hrun : Run (CalmStep client) .empty labels handles) :
    handles.SlotInv ∧ handles.RangeInv := by
  induction hrun with
  | nil => exact ⟨.empty, .empty⟩
  | snoc _ hlast ih =>
      obtain ⟨hslots, hranges⟩ := ih
      obtain ⟨hstep, hcalm⟩ := hlast
      refine ⟨hslots.handleStep hstep, ?_⟩
      cases hstep with
      | call call => exact hranges.call hcalm
      | complete hfutures hcomplete =>
          exact hranges.complete hfutures (Handles.complete_cases hcomplete)
      | environment => exact ⟨hranges.waiting, hranges.ended⟩

theorem note_transactions (future : AsyncFuture τ ε) (outcome : Outcome τ ε) :
    (handles.note client future outcome).transactions = handles.transactions := by
  unfold Handles.note
  split
  · split
    · split <;> rfl
    · rfl
  · rfl

theorem failed_of_call (call : NativeCall τ) (hkeeps : handles.keeps call) {slot : Nat} {error : ε}
    {ranges : List ConflictRange} (hknown : slot < handles.nextHandle)
    (hslot : handles.transactions slot = some (some (.commitFailed error ranges))) :
    (handles.call client call).2.transactions slot = some (some (.commitFailed error ranges)) ∨
      HandleLabel.releases (ε := ε) slot (.call call (handles.call client call).1) := by
  have hcases := Handles.call_cases client handles call
  generalize hcode : (handles.call client call).1.code = code at hcases
  generalize (handles.call client call).2 = next at hcases ⊢
  have hother : ∀ {handle state}, handles.transactions handle = some (some state) →
      state ≠ .commitFailed error ranges → slot ≠ handle := by
    rintro handle state hstate hne rfl
    rw [hslot] at hstate
    cases hstate
    exact hne rfl
  cases hcases with
  | unchanged | read | rangeOpened | paging | ending | rangeLost | rangeClosed => exact .inl hslot
  | lost _ _ _ _ _ _ hlost => simp [hlost] at hkeeps
  | opened transaction => exact .inl (by simpa [hknown.ne] using hslot)
  | closed handle =>
      by_cases heq : slot = handle
      · exact .inr (by simp [HandleLabel.releases, heq])
      · exact .inl (by simpa [heq] using hslot)
  | written handle _ _ key value transaction hactive =>
      exact .inl (by simpa [Handles.setTransaction, hother hactive nofun] using hslot)
  | committing handle callback requestId transaction hactive =>
      refine .inl ?_
      simpa [Handles.setTransaction, Handles.spawn, hother hactive nofun] using hslot
  | recovering handle errorCode callback requestId state hstate =>
      by_cases heq : slot = handle
      · exact .inr (by simp [HandleLabel.releases, heq, hcode])
      · exact .inl (by simpa [Handles.setTransaction, Handles.spawn, heq] using hslot)

theorem failed_of_complete (hslots : handles.SlotInv) {earlier later : List (AsyncFuture τ ε)}
    {future : AsyncFuture τ ε} {outcome : Outcome τ ε} {result : FfiResult}
    (hfutures : handles.futures = earlier ++ future :: later)
    (hstep : Handles.CompleteStep client { handles with futures := earlier ++ later } future outcome
      result next) {slot : Nat} {state : TransactionState τ ε}
    (hslot : handles.transactions slot = some (some state)) :
    next.transactions slot = some (some state) := by
  cases hstep with
  | unchanged => rw [note_transactions, hslot]
  | delivered | paged => exact hslot
  | restored _ _ _ handle state' hwrites =>
      have hmem : future ∈ handles.futures := by
        rw [hfutures]
        exact List.mem_append_right _ List.mem_cons_self
      have hne : slot ≠ handle := by
        rintro rfl
        have hnone := List.countP_eq_zero.mp (hslots.moved_eq_zero hslot) future hmem
        exact hnone (by simpa using hwrites)
      simpa [Handles.setTransaction, hne] using hslot

theorem failed_of_step (hslots : handles.SlotInv) (hstep : CalmStep client handles label next)
    {slot : Nat} {error : ε} {ranges : List ConflictRange}
    (hslot : handles.transactions slot = some (some (.commitFailed error ranges))) :
    next.transactions slot = some (some (.commitFailed error ranges)) ∨ label.releases slot := by
  obtain ⟨hstep, hcalm⟩ := hstep
  cases hstep with
  | environment => exact .inl hslot
  | call call =>
      exact failed_of_call call (Handles.keeps_of_calm hcalm) (hslots.known hslot) hslot
  | complete hfutures hcomplete =>
      exact .inl (failed_of_complete hslots hfutures (Handles.complete_cases hcomplete) hslot)

theorem recovers_of_failed {slot : Nat} {error : ε} {ranges : List ConflictRange} {errorCode : Int}
    {callback : Bool} {requestId : Nat}
    (hslot : handles.transactions slot = some (some (.commitFailed error ranges)))
    (hruntime : handles.runtime = .ok ()) (hstarts : handles.starts callback requestId) :
    ∃ recovering, handles.call client (.transactionOnError slot errorCode callback requestId) =
        ({}, recovering) ∧
      recovering.futures =
        handles.futures ++ [.onError slot (.commitFailed error ranges) errorCode] := by
  have hstate := Handles.transaction_eq_ok.mpr ⟨hruntime, hslot⟩
  have hstarted := Handles.startAsync_of_starts (handles.setTransaction slot none)
    (.onError slot (.commitFailed error ranges) errorCode) hstarts
  refine ⟨(handles.setTransaction slot none).spawn requestId
    (.onError slot (.commitFailed error ranges) errorCode), ?_, rfl⟩
  simp only [Handles.call, Handles.transactionOnError, Handles.attempt, hstate, bind, Except.bind,
    hstarted]
  rfl

theorem ends_of_complete (hranges : handles.RangeInv) {earlier later : List (AsyncFuture τ ε)}
    {future : AsyncFuture τ ε} {outcome : Outcome τ ε} {result : FfiResult}
    (hfutures : handles.futures = earlier ++ future :: later)
    (hstep : Handles.CompleteStep client { handles with futures := earlier ++ later } future outcome
      result next) {handle : Nat} (hfuture : future.pages = some handle ∨ future = .rangeEnd handle)
    (hcode : result.code = 0) (hflags : result.flags = 0) : next.delivered handle := by
  cases hstep with
  | unchanged _ _ _ hpage =>
      rcases hfuture with hpages | rfl
      · exact absurd hcode (hpage (by simp [hpages])).2
      · refine hranges.ended handle ?_
        rw [hfutures]
        exact List.mem_append_right _ List.mem_cons_self
  | restored _ _ _ slot state hwrites =>
      rcases hfuture with hpages | rfl
      · rw [AsyncFuture.pages_of_writes hwrites] at hpages
        cases hpages
      · cases hwrites
  | delivered cursor range iteration snapshot values data hlast =>
      rcases hfuture with ⟨⟨⟩⟩ | ⟨⟨⟩⟩
      simp
  | paged cursor range next iteration snapshot values data hnext => cases hflags

/-- A rejected call leaves what it moves exactly as it was when it keeps it. In a run whose calls
all do, and that asks for the pages of a range one after the other, failed commits can be recovered
from, and the end of a range comes after all of its pages. -/
theorem handles_intact :
    (∀ (handles : Handles τ ε) (call : NativeCall τ),
      ((handles.call client call).1.code ≠ 0 → (handles.call client call).2 = handles) ↔
        handles.keeps call) ∧
    ∀ (labels : List (HandleLabel τ ε)) (handles : Handles τ ε),
      Run (CalmStep client) .empty labels handles → ∀ label next,
        CalmStep client handles label next → StepIntact client handles label next := by
  refine ⟨fun handles call => Handles.keeps_iff call, ?_⟩
  intro labels handles hrun label next hstep
  obtain ⟨hslots, hranges⟩ := inv_of_run hrun
  constructor
  case rejected =>
    rintro call result rfl hcode
    obtain ⟨hstep, hcalm⟩ := hstep
    cases hstep with
    | call => exact (Handles.keeps_iff call).mpr (Handles.keeps_of_calm hcalm) hcode
  case failed => exact fun slot error ranges hslot => failed_of_step hslots hstep hslot
  case recovers => exact fun _ _ _ _ _ _ => recovers_of_failed
  case unread => exact fun handle hle => (hslots.fresh handle hle).2.2.1
  case ends =>
    rintro future outcome result handle rfl hfuture hcode hflags
    cases hstep.1 with
    | complete hfutures hcomplete =>
        exact ends_of_complete hranges hfutures (Handles.complete_cases hcomplete) hfuture hcode
          hflags

end Intact

/-- A failed commit is passed to its error handler. -/
theorem handles_intact_recovered : ∃ failed recovering : Handles (List (Bytes × Bytes)) Unit,
    failed.transactions 1 = some (some (.commitFailed () [])) ∧
      StepIntact .recording failed (.call (.transactionOnError 1 1020 true 2) {}) recovering := by
  let booted : Handles (List (Bytes × Bytes)) Unit :=
    { Handles.empty with lifecycle := .running ⟨0, 730⟩ 1, accepting := true }
  let opened := (booted.call .recording (.transactionOpen (.ok []))).2
  have hopened : Run (CalmStep .recording) .empty
      [.environment, .call (.transactionOpen (.ok [])) { handle := 1 }] opened :=
    .cons ⟨.environment _ (.running ⟨0, 730⟩ 1) true fun _ => false, rfl⟩
      (.single ⟨.call booted _, rfl⟩)
  have hcommitted := hopened.snoc ⟨.call opened (.transactionCommit 1 true 1), rfl⟩
  have hfailed := hcommitted.snoc ⟨@HandleStep.complete _ _ _ _ _ [] [] _
    (.commitFailed ⟨1020, by decide⟩ () []) _ rfl rfl, rfl⟩
  have hintact := handles_intact.2 _ _ hfailed
  exact ⟨_, _, rfl, hintact _ _ ⟨.call _ (.transactionOnError 1 1020 true 2), rfl⟩⟩

/-- A second commit of a failed commit is rejected, and loses it for its error handler. A page
without a callback is rejected, and the next one finds the end of a range of which no row has been
read. -/
theorem handles_lost :
    (¬ ∀ (labels : List (HandleLabel (List (Bytes × Bytes)) Unit)) (handles : Handles _ Unit),
      Run (HandleStep .recording) .empty labels handles → ∀ label next,
        HandleStep .recording handles label next → StepIntact .recording handles label next) ∧
    (∃ failed lost : Handles (List (Bytes × Bytes)) Unit,
      Run (HandleStep .recording) .empty [.environment,
        .call (.transactionOpen (.ok [])) { handle := 1 },
        .call (.transactionCommit 1 true 1) {},
        .complete (.commit 1 []) (.commitFailed ⟨1020, by decide⟩ () []) (.error 1020)] failed ∧
      HandleStep .recording failed
        (.call (.transactionCommit 1 true 2) (.error INVALID_TRANSACTION_STATE)) lost ∧
      failed.transactions 1 = some (some (.commitFailed () [])) ∧
      lost.transactions 1 = some none ∧
      (lost.call .recording (.transactionOnError 1 1020 true 3)).1.code =
        INVALID_TRANSACTION_STATE) ∧
    ∃ ended : Handles (List (Bytes × Bytes)) Unit,
      Run (HandleStep .recording) .empty [.environment,
        .call (.transactionOpen (.ok [])) { handle := 1 },
        .call (.rangeOpen 1 ⟨some [0], false, 1⟩ ⟨some [255], false, 1⟩ 0 0 (-1) false false)
          { handle := 2 },
        .call (.rangeNext 2 false 1) (.error INVALID_ARGUMENT), .call (.rangeNext 2 true 2) {},
        .complete (.rangeEnd 2) .ready {}] ended ∧
      ended.delivered 2 = false := by
  let booted : Handles (List (Bytes × Bytes)) Unit :=
    { Handles.empty with lifecycle := .running ⟨0, 730⟩ 1, accepting := true }
  let opened := (booted.call .recording (.transactionOpen (.ok []))).2
  have hopened : Run (HandleStep .recording) .empty
      [.environment, .call (.transactionOpen (.ok [])) { handle := 1 }] opened :=
    .cons (.environment _ (.running ⟨0, 730⟩ 1) true fun _ => false) (.single (.call booted _))
  have hcommitted := hopened.snoc (.call opened (.transactionCommit 1 true 1))
  have hfailed := hcommitted.snoc (@HandleStep.complete _ _ _ _ _ [] [] _
    (.commitFailed ⟨1020, by decide⟩ () []) _ rfl rfl)
  refine ⟨fun hintact => ?_, ?_, ?_⟩
  · have hrejected := (hintact _ _ hfailed _ _ (.call _ (.transactionCommit 1 true 2))).rejected _ _
      rfl (show INVALID_TRANSACTION_STATE ≠ 0 by decide)
    have hslot := congrArg (fun handles => handles.transactions 1) hrejected
    cases hslot
  · exact ⟨_, _, hfailed, .call _ (.transactionCommit 1 true 2), rfl, rfl, rfl⟩
  · let begin : SelectorInput := ⟨some [0], false, 1⟩
    let stop : SelectorInput := ⟨some [255], false, 1⟩
    have hrange := hopened.snoc (.call opened (.rangeOpen 1 begin stop 0 0 (-1) false false))
    have hrejected := hrange.snoc (.call _ (.rangeNext 2 false 1))
    have hnext := hrejected.snoc (.call _ (.rangeNext 2 true 2))
    exact ⟨_, hnext.snoc (@HandleStep.complete _ _ _ _ _ [] [] _ .ready _ rfl rfl), rfl⟩

end FoundationDbEffect.Native
