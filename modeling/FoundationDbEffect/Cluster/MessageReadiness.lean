import FoundationDbEffect.Cluster.MessageOrder
import Mathlib.Algebra.Order.Ring.Unbundled.Rat
import Mathlib.Data.String.Basic

/-!
# The readiness of messages

A message is polled when it is ready. A blocked message waits for a reply or an
acknowledgement, and a timed one for its delivery time or for the end of its claim. The
metadata of a message says which index rows it has: a ready message has a row in the ready
indexes of its shard and of its address, a timed one in their scheduled indexes.

Times are exact milliseconds.
-/

namespace FoundationDbEffect.Cluster

open FoundationDbEffect.Foundation

def claimExpirationMillis : ℚ := 10 * 60 * 1000

/-- A shard id, of which the storage uses only the string that the cluster library makes of it. -/
structure ShardId where
  toString : String
  deriving DecidableEq, Repr

structure EntityAddress where
  shardId : ShardId
  entityType : String
  entityId : String
  deriving DecidableEq, Repr

inductive MessageKind where
  | request
  | ackChunk
  | interrupt
  deriving DecidableEq, Repr

/-- A timed message is next eligible at the time of its delivery or claim timer. -/
inductive Polling where
  | ready
  | blocked
  | timer (time : ℚ)
  deriving DecidableEq

structure MessageMeta where
  id : Snowflake
  requestId : Snowflake
  kind : MessageKind
  address : EntityAddress
  primaryKey : Option String
  deliverAt : Option ℚ
  claimedAt : Option ℚ
  processed : Bool
  polling : Polling
  deriving DecidableEq

structure RequestState where
  lastReplyId : Option Snowflake
  exitId : Option Snowflake
  latestAckId : Option Snowflake
  unacked : Int
  deriving DecidableEq, Repr

inductive PollingIndex where
  | shard (shard : String)
  | address (entityType entityId shard : String)
  deriving DecidableEq, Repr

def addressKey (address : EntityAddress) : PollingIndex :=
  .address address.entityType address.entityId address.shardId.toString

def pollingIndexes (entry : MessageMeta) : List PollingIndex :=
  [.shard entry.address.shardId.toString, addressKey entry.address]

def pollingState (entry : MessageMeta) (state : RequestState) : Polling :=
  if entry.processed ∨ state.exitId ≠ none ∨ 0 < state.unacked ∨
      entry.kind = .ackChunk ∧ state.latestAckId ≠ some entry.id then .blocked
  else
    match entry.claimedAt, entry.deliverAt with
    | some claimedAt, some deliverAt => .timer (max deliverAt (claimedAt + claimExpirationMillis))
    | some claimedAt, none => .timer (claimedAt + claimExpirationMillis)
    | none, some deliverAt => .timer deliverAt
    | none, none => .ready

abbrev ScheduledRow := ℚ ×ₗ Snowflake

structure PollingStore where
  order : OrderStore PollingIndex
  scheduled : PollingIndex → OrderedMap ScheduledRow Unit

namespace PollingStore

def clearTimer (store : PollingStore) (space : PollingIndex) (row : ScheduledRow) :
    PollingStore :=
  { store with
    scheduled := Function.update store.scheduled space ((store.scheduled space).clear row) }

def setTimer (store : PollingStore) (space : PollingIndex) (row : ScheduledRow) : PollingStore :=
  { store with
    scheduled := Function.update store.scheduled space ((store.scheduled space).set row ()) }

def clearMessageTimer (store : PollingStore) (entry : MessageMeta) : PollingStore :=
  match entry.polling with
  | .timer time => (pollingIndexes entry).foldl
      (fun store index => store.clearTimer index (toLex (time, entry.id))) store
  | _ => store

def setMessageTimer (store : PollingStore) (entry : MessageMeta) (polling : Polling) :
    PollingStore :=
  match polling with
  | .timer time => (pollingIndexes entry).foldl
      (fun store index => store.setTimer index (toLex (time, entry.id))) store
  | _ => store

/-- The stored rows after a change of polling, with the metadata to be stored with them. -/
def setMessagePolling (store : PollingStore) (entry : MessageMeta) (polling : Polling) :
    Except MailboxError (PollingStore × MessageMeta) :=
  if entry.polling = polling then .ok (store, entry)
  else do
    let store := store.clearMessageTimer entry
    let order ←
      if entry.polling = .ready ∨ polling = .ready then
        store.order.setMessageOrderIndexed entry.id (pollingIndexes entry) (polling = .ready)
      else .ok store.order
    let store := { store with order }.setMessageTimer entry polling
    .ok (store, { entry with polling })

end PollingStore

end FoundationDbEffect.Cluster
