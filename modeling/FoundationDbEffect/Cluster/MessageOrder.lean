import FoundationDbEffect.Foundation.PagedScan
import Mathlib.Algebra.GroupWithZero.Nat
import Mathlib.Data.Prod.Lex

/-!
# The order of messages

Every message has a row in the locator, which holds the stamp of its enqueueing, and while it
is indexed one row under that stamp in each of its index subspaces. The messages that a
transaction enqueues itself are pending: their rows take the commit version when the
transaction commits, and until then stand at the version after its read version, where no
other row is visible.

Message ids are snowflakes, written in decimal.
-/

namespace FoundationDbEffect.Cluster

open FoundationDbEffect.Foundation

abbrev Snowflake := Nat

abbrev OrderStamp := Nat ×ₗ Nat

abbrev ReadyRow := OrderStamp ×ₗ Snowflake

def ReadyRow.stamp (row : ReadyRow) : OrderStamp := (ofLex row).1

def ReadyRow.id (row : ReadyRow) : Snowflake := (ofLex row).2

def ReadyRow.version (row : ReadyRow) : Nat := (ofLex row.stamp).1

def pageSize : Nat := 64

inductive MessageRecord where
  | order
  | envelope
  | reply
  deriving DecidableEq, Repr

inductive MailboxError where
  | missingMessageRecord (record : MessageRecord) (id : Snowflake)
  | duplicateReply (requestId replyId : Snowflake) (sequence : Option Int)
  deriving DecidableEq, Repr

structure Pending (κ : Type) where
  id : Snowflake
  user : Nat
  indexes : List κ
  indexed : Bool

/-- The locator and the index subspaces as a transaction sees them, with the pending messages
of its attempt and the stamps it has observed. -/
structure OrderStore (κ : Type) where
  readVersion : Nat
  rows : κ → OrderedMap ReadyRow Unit
  orders : OrderedMap Snowflake OrderStamp
  next : Nat
  pending : List (Pending κ)
  committed : OrderedMap Snowflake OrderStamp

namespace OrderStore

variable {κ : Type}

def pendingStamp (store : OrderStore κ) (entry : Pending κ) : OrderStamp :=
  toLex (store.readVersion + 1, entry.user)

def pendingEntry (store : OrderStore κ) (id : Snowflake) : Option (Pending κ) :=
  store.pending.find? fun entry => entry.id = id

def setPending (entry : Pending κ) : List (Pending κ) → List (Pending κ)
  | [] => [entry]
  | head :: rest =>
    if head.id = entry.id then entry :: rest else head :: setPending entry rest

variable [DecidableEq κ]

def setRow (store : OrderStore κ) (space : κ) (row : ReadyRow) : OrderStore κ :=
  { store with rows := Function.update store.rows space ((store.rows space).set row ()) }

def clearRow (store : OrderStore κ) (space : κ) (row : ReadyRow) : OrderStore κ :=
  { store with rows := Function.update store.rows space ((store.rows space).clear row) }

def writeIndex (store : OrderStore κ) (space : κ) (entry : Pending κ) : OrderStore κ :=
  store.setRow space (toLex (store.pendingStamp entry, entry.id))

def insertMessageOrder (store : OrderStore κ) (id : Snowflake) (indexes : List κ)
    (indexed : Bool) : OrderStore κ :=
  let entry : Pending κ := { id, user := store.next, indexes, indexed }
  let inserted := { store with
    next := store.next + 1
    pending := setPending entry store.pending }
  let written :=
    if indexed then indexes.foldl (fun store index => store.writeIndex index entry) inserted
    else inserted
  { written with orders := written.orders.set id (store.pendingStamp entry) }

def messageOrder (store : OrderStore κ) (id : Snowflake) : Except MailboxError OrderStamp :=
  match store.pendingEntry id with
  | some entry => .ok (store.pendingStamp entry)
  | none =>
    match store.committed.get? id with
    | some observed => .ok observed
    | none =>
      match store.orders.get? id with
      | some stamp => .ok stamp
      | none => .error (.missingMessageRecord .order id)

/-- Clear the uncommitted tail of a subspace and issue its survivors again. -/
def reissue (store : OrderStore κ) (space : κ) : OrderStore κ :=
  let cleared := { store with
    rows := Function.update store.rows space
      ((store.rows space).clearRange fun row => store.readVersion + 1 ≤ row.version) }
  store.pending.foldl
    (fun store entry =>
      if entry.indexed ∧ space ∈ entry.indexes then store.writeIndex space entry else store)
    cleared

def setMessageOrderIndexed (store : OrderStore κ) (id : Snowflake) (indexes : List κ)
    (indexed : Bool) : Except MailboxError (OrderStore κ) :=
  match store.pendingEntry id with
  | some entry =>
    if entry.indexed = indexed then .ok store
    else
      let changed := { entry with indexed }
      let store := { store with pending := setPending changed store.pending }
      .ok (if indexed then
          indexes.foldl (fun store space => store.writeIndex space changed) store
        else indexes.foldl reissue store)
  | none => do
    let stamp ← store.messageOrder id
    .ok (indexes.foldl
      (fun store space =>
        if indexed then store.setRow space (toLex (stamp, id))
        else store.clearRow space (toLex (stamp, id)))
      store)

def removeMessageOrder (store : OrderStore κ) (id : Snowflake) (indexes : List κ) :
    Except MailboxError (OrderStore κ) := do
  let store ← store.setMessageOrderIndexed id indexes false
  .ok { store with
    pending := store.pending.filter fun entry => entry.id ≠ id
    committed := store.committed.clear id
    orders := store.orders.clear id }

/-- The transaction commits at the version after its read version, and another one starts. -/
def commit (store : OrderStore κ) : OrderStore κ :=
  { store with
    readVersion := store.readVersion + 1, next := 0, pending := [], committed := ∅ }

end OrderStore

/-! ## Visiting messages in order -/

/-- A cursor over the committed rows of one subspace, with the rows of the current page that
it has not handed out yet. -/
structure OrderCursor (κ : Type) where
  space : κ
  begin : Option ReadyRow
  rows : List ReadyRow
  done : Bool
  head : Option ReadyRow

def OrderCursor.next {κ : Type} (store : OrderStore κ) (cursor : OrderCursor κ) : OrderCursor κ :=
  match cursor.rows with
  | row :: rows => { cursor with rows, head := some row }
  | [] =>
    if cursor.done then { cursor with head := none }
    else
      let page := ((store.rows cursor.space).keysAfter
        (fun row => row.version < store.readVersion + 1) cursor.begin).take pageSize
      { cursor with
        begin := page.getLast?.or cursor.begin
        rows := page.tail
        done := page.length < pageSize
        head := page.head? }

def OrderCursor.start {κ : Type} (store : OrderStore κ) (space : κ) : OrderCursor κ :=
  OrderCursor.next store { space, begin := none, rows := [], done := false, head := none }

def selectCursor {κ : Type} : List (OrderCursor κ) → Option (Nat × ReadyRow)
  | [] => none
  | cursor :: rest =>
    let selected := (selectCursor rest).map fun (position, row) => (position + 1, row)
    match cursor.head, selected with
    | none, selected => selected
    | some row, none => some (0, row)
    | some row, some (position, other) =>
      if other.stamp < row.stamp then some (position, other) else some (0, row)

section

variable {κ σ : Type} [DecidableEq κ]

def appendId (visit : List Snowflake → σ → Except MailboxError (σ × Bool))
    (batch : List Snowflake) (id : Snowflake) (state : σ) :
    Except MailboxError (σ × List Snowflake × Bool) :=
  let batch := batch ++ [id]
  if batch.length < pageSize then .ok (state, batch, true)
  else do
    let (state, more) ← visit batch state
    .ok (state, [], more)

def appendEach (visit : List Snowflake → σ → Except MailboxError (σ × Bool)) :
    List Snowflake → List Snowflake → σ → Except MailboxError (σ × List Snowflake × Bool)
  | batch, [], state => .ok (state, batch, true)
  | batch, id :: rest, state => do
    let (state, batch, more) ← appendId visit batch id state
    if more then appendEach visit batch rest state else .ok (state, batch, false)

variable (order : σ → OrderStore κ) (setOrder : OrderStore κ → σ → σ)

def observe (row : ReadyRow) (state : σ) : σ :=
  let store := order state
  setOrder { store with committed := store.committed.set row.id row.stamp } state

/-- The merge of the cursors. Each pass consumes a row. -/
def mergeCursors (visit : List Snowflake → σ → Except MailboxError (σ × Bool)) :
    Nat → List (OrderCursor κ) → List Snowflake → σ →
      Except MailboxError (σ × List Snowflake × Bool)
  | 0, _, batch, state => .ok (state, batch, true)
  | fuel + 1, cursors, batch, state =>
    match selectCursor cursors with
    | none => .ok (state, batch, true)
    | some (position, row) => do
      let (state, batch, more) ← appendId visit batch row.id (observe order setOrder row state)
      if more then
        mergeCursors visit fuel (cursors.modify position (OrderCursor.next (order state)))
          batch state
      else .ok (state, batch, false)

def pendingIds (store : OrderStore κ) (indexes : List κ) : List Snowflake :=
  ((store.pending.filter fun entry =>
    entry.indexed ∧ entry.indexes.any fun space => space ∈ indexes).mergeSort
      fun left right => left.user ≤ right.user).map Pending.id

def visitMessageOrder (indexes : List κ)
    (visit : List Snowflake → σ → Except MailboxError (σ × Bool)) (state : σ) :
    Except MailboxError σ := do
  let store := order state
  let spaces := indexes.eraseDups
  let fuel := (spaces.map fun space => (store.rows space).entries.length).sum + 1
  let (state, batch, more) ← mergeCursors order setOrder visit fuel
    (spaces.map (OrderCursor.start store)) [] state
  if !more then .ok state
  else
    let (state, batch, more) ← appendEach visit batch (pendingIds (order state) indexes) state
    if !more || batch.isEmpty then .ok state
    else do
      let (state, _) ← visit batch state
      .ok state

end

end FoundationDbEffect.Cluster
