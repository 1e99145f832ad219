import FoundationDbEffect.Foundation.Occ
import FoundationDbEffect.Foundation.OrderedMap
import Mathlib.Data.BitVec
import Mathlib.Data.Finset.Basic
import Mathlib.Data.Prod.Lex
import Mathlib.Data.String.Basic

/-!
# The event journal

A journal keeps its entries, the rows of its insertion order and of its local order under
versionstamped keys, the conflict index, one acknowledgement for each pair of a remote and an
entry, and for each remote the last row that was scanned for it and its next sequence.

Operations nest in one transaction: the callbacks of `writeFromRemote` and
`withRemoteUncommited` run other operations between the reads and the writes of the call that
runs them. Entry ids are a linearly ordered type, and `order` is the order of entries.
-/

namespace FoundationDbEffect.EventLog

open FoundationDbEffect.Foundation

variable {ι ρ : Type}

structure Entry (ι : Type) where
  id : ι
  event : String
  primaryKey : String
  payload : List UInt8
  deriving DecidableEq

structure RemoteEntry (ι : Type) where
  remoteSequence : Nat
  entry : Entry ι
  deriving DecidableEq

/-- A row of an order index: the commit version and the user version of its stamp, and the id
of its entry. -/
abbrev OrderRow (ι : Type) := Nat ×ₗ Nat ×ₗ ι

def orderRow (version user : Nat) (id : ι) : OrderRow ι := toLex (version, toLex (user, id))

def rowVersion (row : OrderRow ι) : Nat := (ofLex row).1

def rowId (row : OrderRow ι) : ι := (ofLex (ofLex row).2).2

@[simp] theorem rowVersion_orderRow (version user : Nat) (id : ι) :
    rowVersion (orderRow version user id) = version := rfl

@[simp] theorem rowId_orderRow (version user : Nat) (id : ι) :
    rowId (orderRow version user id) = id := rfl

theorem rowVersion_mono [LinearOrder ι] {row row' : OrderRow ι} (h : row ≤ row') :
    rowVersion row ≤ rowVersion row' :=
  Prod.Lex.monotone_fst_ofLex h

structure JournalState (ι ρ : Type) [LinearOrder ι] where
  entries : OrderedMap ι (Entry ι)
  localEntries : OrderedMap ι (Entry ι)
  conflicts : OrderedMap (String ×ₗ String ×ₗ ι) Unit
  inserted : OrderedMap (OrderRow ι) Unit
  localOrder : OrderedMap (OrderRow ι) Unit
  acks : Finset (ρ × ι)
  sentAfter : ρ → Option (OrderRow ι)
  remoteNext : ρ → Nat
  localSignal : BitVec 64

inductive JournalMutation (ι ρ : Type) where
  | putEntry (entry : Entry ι)
  | putLocal (entry : Entry ι)
  | markConflict (event primaryKey : String) (id : ι)
  | appendInserted (user : Nat) (id : ι)
  | appendLocal (user : Nat) (id : ι)
  | ack (remote : ρ) (id : ι)
  | setSentAfter (remote : ρ) (cursor : OrderRow ι)
  | setRemoteNext (remote : ρ) (next : Nat)
  | notifyLocal
  deriving DecidableEq

/-- The keys that other transactions read with conflict. The rows that a transaction appends
have versions above every read version that it can meet, and scans end below them. -/
inductive JournalKey (ι ρ : Type) where
  | entry (id : ι)
  | localEntry (id : ι)
  | conflict (event primaryKey : String) (id : ι)
  | ack (remote : ρ) (id : ι)
  | sentAfter (remote : ρ)
  | remoteNext (remote : ρ)
  | localSignal
  deriving DecidableEq

def JournalMutation.key? : JournalMutation ι ρ → Option (JournalKey ι ρ)
  | .putEntry entry => some (.entry entry.id)
  | .putLocal entry => some (.localEntry entry.id)
  | .markConflict event primaryKey id => some (.conflict event primaryKey id)
  | .appendInserted _ _ => none
  | .appendLocal _ _ => none
  | .ack remote id => some (.ack remote id)
  | .setSentAfter remote _ => some (.sentAfter remote)
  | .setRemoteNext remote _ => some (.remoteNext remote)
  | .notifyLocal => some .localSignal

section

variable [LinearOrder ι] [DecidableEq ρ]

def JournalState.empty : JournalState ι ρ where
  entries := ∅
  localEntries := ∅
  conflicts := ∅
  inserted := ∅
  localOrder := ∅
  acks := ∅
  sentAfter := fun _ => none
  remoteNext := fun _ => 0
  localSignal := 0

def JournalState.apply (version : Nat) (state : JournalState ι ρ) :
    JournalMutation ι ρ → JournalState ι ρ
  | .putEntry entry => { state with entries := state.entries.set entry.id entry }
  | .putLocal entry => { state with localEntries := state.localEntries.set entry.id entry }
  | .markConflict event primaryKey id =>
      { state with conflicts := state.conflicts.set (toLex (event, toLex (primaryKey, id))) () }
  | .appendInserted user id =>
      { state with inserted := state.inserted.set (orderRow version user id) () }
  | .appendLocal user id =>
      { state with localOrder := state.localOrder.set (orderRow version user id) () }
  | .ack remote id => { state with acks := insert (remote, id) state.acks }
  | .setSentAfter remote cursor =>
      { state with sentAfter := Function.update state.sentAfter remote (some cursor) }
  | .setRemoteNext remote next =>
      { state with remoteNext := Function.update state.remoteNext remote next }
  | .notifyLocal => { state with localSignal := state.localSignal + 1 }

end

/-! ## Transactions in progress -/

structure Incoming (ι ρ : Type) where
  remote : ρ
  duplicates : List (Entry ι)
  uncommitted : List (RemoteEntry ι)
  next : Nat
  deriving DecidableEq

structure Outgoing (ι ρ : Type) where
  remote : ρ
  pending : List (Entry ι)
  cursor : Option (OrderRow ι)
  began : Nat
  deriving DecidableEq

structure SentCall (ι ρ : Type) extends Outgoing ι ρ where
  returned : Nat

def Outgoing.ids (call : Outgoing ι ρ) : List ι := call.pending.map Entry.id

structure JournalTransaction (ι ρ : Type) [LinearOrder ι] where
  readVersion : Nat
  snapshot : JournalState ι ρ
  mutations : List (JournalMutation ι ρ) := []
  reads : Set (JournalKey ι ρ) := ∅
  next : Nat := 0
  pending : List ι := []
  incoming : List (Incoming ι ρ) := []
  outgoing : List (Outgoing ι ρ) := []
  clock : Nat := 0
  sent : List (SentCall ι ρ) := []
  received : List (ρ × ι) := []

namespace JournalTransaction

variable [LinearOrder ι]

section

variable [DecidableEq ρ]

/-- The snapshot with the transaction's own writes. Its rows take their version when it
commits, and are unreadable from the version after the snapshot's on. -/
def view (transaction : JournalTransaction ι ρ) : JournalState ι ρ :=
  transaction.mutations.foldl (JournalState.apply (transaction.readVersion + 1))
    transaction.snapshot

end

def mutate (transaction : JournalTransaction ι ρ) (mutation : JournalMutation ι ρ) :
    JournalTransaction ι ρ :=
  { transaction with mutations := transaction.mutations ++ [mutation] }

def mutateAll (transaction : JournalTransaction ι ρ) (mutations : List (JournalMutation ι ρ)) :
    JournalTransaction ι ρ :=
  { transaction with mutations := transaction.mutations ++ mutations }

def written (transaction : JournalTransaction ι ρ) : Set (JournalKey ι ρ) :=
  {key | ∃ mutation ∈ transaction.mutations, mutation.key? = some key}

/-- A read with conflict of the keys that the transaction has not written itself. -/
def read (transaction : JournalTransaction ι ρ) (keys : Set (JournalKey ι ρ)) :
    JournalTransaction ι ρ :=
  { transaction with reads := transaction.reads ∪ (keys \ transaction.written) }

/-! ## Insertion -/

def append (transaction : JournalTransaction ι ρ) (id : ι) (isLocal : Bool) :
    JournalTransaction ι ρ :=
  let rows : List (JournalMutation ι ρ) :=
    if isLocal then
      [.appendInserted transaction.next id, .appendLocal transaction.next id]
    else [.appendInserted transaction.next id]
  { transaction.mutateAll rows with
    next := transaction.next + 1
    pending := transaction.pending ++ [id] }

def insertEntry (isLocal : Bool) (transaction : JournalTransaction ι ρ) (entry : Entry ι) :
    JournalTransaction ι ρ :=
  let indexed := transaction.mutateAll
    [.putEntry entry, .markConflict entry.event entry.primaryKey entry.id]
  let appended := indexed.append entry.id isLocal
  if isLocal then appended.mutate (.putLocal entry) else appended

def insert (transaction : JournalTransaction ι ρ) (entries : List (Entry ι)) (isLocal : Bool) :
    JournalTransaction ι ρ :=
  entries.foldl (insertEntry isLocal) transaction

/-- The part of `write` after its callback has returned. -/
def write (transaction : JournalTransaction ι ρ) (entry : Entry ι) : JournalTransaction ι ρ :=
  (transaction.insert [entry] true).mutate .notifyLocal

/-! ## Incoming replication -/

section

variable [DecidableEq ρ]

/-- One entry of an incoming batch: the ids seen before in the batch and the ids stored before
the call make it a duplicate. -/
def acceptRemote (stored : ι → Bool) (accepted : List ι × Incoming ι ρ)
    (remote : RemoteEntry ι) : List ι × Incoming ι ρ :=
  let (seen, incoming) := accepted
  let next := max incoming.next (remote.remoteSequence + 1)
  if remote.entry.id ∈ seen ∨ stored remote.entry.id then
    (seen, { incoming with duplicates := incoming.duplicates ++ [remote.entry], next })
  else
    (remote.entry.id :: seen,
      { incoming with uncommitted := incoming.uncommitted ++ [remote], next })

/-- The part of `writeFromRemote` before the compaction. -/
def beginRemote (transaction : JournalTransaction ι ρ) (remote : ρ)
    (batch : List (RemoteEntry ι)) : JournalTransaction ι ρ :=
  let state := transaction.view
  let reading := transaction.read
    (Insert.insert (.remoteNext remote) {key | ∃ entry ∈ batch, key = .entry entry.entry.id})
  let stored := fun id => (state.entries.get? id).isSome
  let (_, incoming) := batch.foldl (acceptRemote stored)
    ([], ⟨remote, [], [], state.remoteNext remote⟩)
  let marked := reading.mutateAll (batch.map fun entry => .ack remote entry.entry.id)
  { marked with
    incoming := transaction.incoming ++ [incoming]
    received := transaction.received ++ batch.map fun entry => (remote, entry.entry.id) }

/-- The entries that `writeFromRemote` passes to its callback with one compacted entry. The
call fails when an indexed record is missing. -/
def replay (transaction : JournalTransaction ι ρ) (order : Entry ι → Entry ι → Ordering)
    (pageSize : Nat) (entry : Entry ι) : Option (JournalTransaction ι ρ × List (Entry ι)) :=
  let inRange := fun row : String ×ₗ String ×ₗ ι =>
    (ofLex row).1 = entry.event ∧ (ofLex (ofLex row).2).1 = entry.primaryKey ∧
      entry.id ≤ (ofLex (ofLex row).2).2
  let rows := transaction.view.conflicts.scan inRange pageSize none
  let ids := rows.map fun row => (ofLex (ofLex row.1).2).2
  let reading := (transaction.read
    {key | ∃ id, entry.id ≤ id ∧ key = .conflict entry.event entry.primaryKey id}).read
    {key | ∃ id ∈ ids, key = .entry id}
  (ids.mapM transaction.view.entries.get?).map fun conflicts =>
    (reading, conflicts.filter fun other => order other entry = .gt)

/-- The part of `writeFromRemote` after its callbacks have returned. -/
def finishRemote (transaction : JournalTransaction ι ρ) (incoming : Incoming ι ρ) :
    JournalTransaction ι ρ :=
  let inserted := transaction.insert (incoming.uncommitted.map RemoteEntry.entry) false
  { inserted.mutate (.setRemoteNext incoming.remote incoming.next) with
    incoming := transaction.incoming.erase incoming }

/-! ## Outgoing replication -/

/-- The committed rows after a cursor, read in pages up to the read version, and the pending
ids of the transaction itself. -/
def unsent (transaction : JournalTransaction ι ρ) (pageSize : Nat)
    (after : Option (OrderRow ι)) : List ι × Option (OrderRow ι) :=
  let rows := transaction.view.inserted.scan
    (fun row => rowVersion row < transaction.readVersion + 1) pageSize after
  (rows.map (fun row => rowId row.1) ++ transaction.pending, rows.getLast?.map Prod.fst)

/-- The part of `withRemoteUncommited` before its callback. The call fails when an indexed
record is missing. -/
def beginUncommited (transaction : JournalTransaction ι ρ)
    (order : Entry ι → Entry ι → Ordering) (pageSize : Nat) (remote : ρ) :
    Option (JournalTransaction ι ρ) :=
  let state := transaction.view
  let (ids, cursor) := transaction.unsent pageSize (state.sentAfter remote)
  let unacknowledged := ids.filter fun id => (remote, id) ∉ state.acks
  let reading := (transaction.read
    (Insert.insert (.sentAfter remote) {key | ∃ id ∈ ids, key = .ack remote id})).read
    {key | ∃ id ∈ unacknowledged, key = .entry id}
  (unacknowledged.mapM state.entries.get?).map fun entries =>
    let pending := entries.mergeSort fun left right => (order left right).isLE
    { reading with
      outgoing := transaction.outgoing ++ [⟨remote, pending, cursor, transaction.clock⟩]
      clock := transaction.clock + 1 }

/-- The part of `withRemoteUncommited` after its callback has returned. -/
def finishUncommited (transaction : JournalTransaction ι ρ) (call : Outgoing ι ρ) :
    JournalTransaction ι ρ :=
  let marked := transaction.mutateAll (call.ids.map fun id => .ack call.remote id)
  let advanced := marked.mutateAll
    (call.cursor.toList.map fun cursor => .setSentAfter call.remote cursor)
  { advanced with
    outgoing := transaction.outgoing.erase call
    sent := transaction.sent ++ [⟨call, transaction.clock⟩]
    clock := transaction.clock + 1 }

end

end JournalTransaction

/-! ## Committed transactions -/

section

variable [LinearOrder ι] [DecidableEq ρ]

/-- Transactions in progress over a snapshot. The journals that take part may differ in their
page sizes. A user version has two bytes. -/
inductive Journaling (order : Entry ι → Entry ι → Ordering) (readVersion : Nat)
    (snapshot : JournalState ι ρ) : JournalTransaction ι ρ → Prop where
  | start : Journaling order readVersion snapshot { readVersion, snapshot }
  | write {transaction : JournalTransaction ι ρ} (entry : Entry ι)
      (h : Journaling order readVersion snapshot transaction)
      (hroom : transaction.next < 2 ^ 16) :
      Journaling order readVersion snapshot (transaction.write entry)
  | beginRemote {transaction : JournalTransaction ι ρ} (remote : ρ)
      (batch : List (RemoteEntry ι)) (h : Journaling order readVersion snapshot transaction) :
      Journaling order readVersion snapshot (transaction.beginRemote remote batch)
  | replay {transaction next : JournalTransaction ι ρ} {conflicts : List (Entry ι)}
      (pageSize : Nat) (entry : Entry ι) (hpage : 0 < pageSize)
      (h : Journaling order readVersion snapshot transaction)
      (hreplay : transaction.replay order pageSize entry = some (next, conflicts)) :
      Journaling order readVersion snapshot next
  | finishRemote {transaction : JournalTransaction ι ρ} (incoming : Incoming ι ρ)
      (h : Journaling order readVersion snapshot transaction)
      (hincoming : incoming ∈ transaction.incoming)
      (hroom : transaction.next + incoming.uncommitted.length ≤ 2 ^ 16) :
      Journaling order readVersion snapshot (transaction.finishRemote incoming)
  | beginUncommited {transaction next : JournalTransaction ι ρ} (pageSize : Nat) (remote : ρ)
      (hpage : 0 < pageSize) (h : Journaling order readVersion snapshot transaction)
      (hbegin : transaction.beginUncommited order pageSize remote = some next) :
      Journaling order readVersion snapshot next
  | finishUncommited {transaction : JournalTransaction ι ρ} (call : Outgoing ι ρ)
      (h : Journaling order readVersion snapshot transaction)
      (hcall : call ∈ transaction.outgoing) :
      Journaling order readVersion snapshot (transaction.finishUncommited call)

/-- What the calls of a committed transaction inserted, received and passed to callbacks. -/
structure JournalResult (ι ρ : Type) where
  inserted : List ι
  received : List (ρ × ι)
  sent : List (SentCall ι ρ)

abbrev JournalCommit (ι ρ : Type) :=
  Transaction (JournalMutation ι ρ) (JournalKey ι ρ) (JournalResult ι ρ)

def JournalTransaction.commit (transaction : JournalTransaction ι ρ) : JournalCommit ι ρ where
  readVersion := transaction.readVersion
  mutations := transaction.mutations
  reads := transaction.reads
  writes := transaction.written
  result := ⟨transaction.pending, transaction.received, transaction.sent⟩

/-- A failure of a call propagates to the outer transaction, so every call of a committed
transaction has returned. -/
def journalBody (order : Entry ι → Entry ι → Ordering) (snapshot : JournalState ι ρ)
    (commit : JournalCommit ι ρ) : Prop :=
  ∃ transaction, Journaling order commit.readVersion snapshot transaction ∧
    transaction.incoming = [] ∧ transaction.outgoing = [] ∧ commit = transaction.commit

abbrev JournalHistory (order : Entry ι → Entry ι → Ordering) : List (JournalCommit ι ρ) → Prop :=
  Occ.Committed JournalState.apply JournalState.empty (journalBody order)

end

end FoundationDbEffect.EventLog
