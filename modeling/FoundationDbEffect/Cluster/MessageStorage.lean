import FoundationDbEffect.Cluster.MessageReadiness
import Mathlib.Data.Rat.Floor
import Mathlib.Order.WithBot

/-!
# The mailbox

The state of a mailbox has one map for each family of its keys. Payloads are kept as their
JSON texts. Operations run inside a transaction: an operation that fails leaves no state,
and the transaction it belongs to rolls back.

A function of the source that hashes primary keys is the parameter `primaryHash`.
-/

namespace FoundationDbEffect.Cluster

open FoundationDbEffect.Foundation

inductive Envelope where
  | request (requestId : Snowflake) (address : EntityAddress) (body : String)
  | ackChunk (id requestId replyId : Snowflake) (address : EntityAddress)
  | interrupt (id requestId : Snowflake) (address : EntityAddress)
  deriving DecidableEq, Repr

namespace Envelope

def id : Envelope → Snowflake
  | request requestId _ _ => requestId
  | ackChunk id _ _ _ => id
  | interrupt id _ _ => id

def requestId : Envelope → Snowflake
  | request requestId _ _ => requestId
  | ackChunk _ requestId _ _ => requestId
  | interrupt _ requestId _ => requestId

def kind : Envelope → MessageKind
  | request _ _ _ => .request
  | ackChunk _ _ _ _ => .ackChunk
  | interrupt _ _ _ => .interrupt

def address : Envelope → EntityAddress
  | request _ address _ => address
  | ackChunk _ _ _ address => address
  | interrupt _ _ address => address

end Envelope

inductive ReplyContent where
  | chunk (sequence : Int) (values : List String)
  | withExit (exit : String)
  deriving DecidableEq, Repr

structure Reply where
  id : Snowflake
  requestId : Snowflake
  content : ReplyContent
  deriving DecidableEq, Repr

inductive ReplyKind where
  | chunk
  | withExit
  deriving DecidableEq, Repr

def ReplyContent.kind : ReplyContent → ReplyKind
  | chunk _ _ => .chunk
  | withExit _ => .withExit

def ReplyContent.sequence : ReplyContent → Option Int
  | chunk sequence _ => some sequence
  | withExit _ => none

structure ReplyMeta where
  id : Snowflake
  kind : ReplyKind
  sequence : Option Int
  acked : Bool
  deriving DecidableEq, Repr

def initialState : RequestState :=
  { lastReplyId := none, exitId := none, latestAckId := none, unacked := 0 }

/-- Replies are kept by their request and their id, and unique replies by their request and
their sequence, where an exit has none. -/
structure MailboxState where
  polling : PollingStore
  messages : OrderedMap Snowflake MessageMeta
  envelopes : OrderedMap Snowflake Envelope
  requestStates : OrderedMap Snowflake RequestState
  primaryKeys : OrderedMap String Snowflake
  replies : OrderedMap (Snowflake ×ₗ Snowflake) Reply
  replyMetadata : OrderedMap (Snowflake ×ₗ Snowflake) ReplyMeta
  replyIds : OrderedMap (Snowflake ×ₗ Snowflake) Unit
  uniqueReplies : OrderedMap (Snowflake ×ₗ WithBot Int) Snowflake
  messagesByShard : OrderedMap (String ×ₗ Snowflake) Unit
  messagesByAddress : OrderedMap (String ×ₗ String ×ₗ String ×ₗ Snowflake) Unit
  messagesByRequest : OrderedMap (Snowflake ×ₗ Snowflake) Unit

inductive SaveResult where
  | success
  | duplicate (originalId : Snowflake) (lastReceivedReply : Option Reply)
  deriving DecidableEq, Repr

structure LoadedMessage where
  envelope : Envelope
  lastSentReply : Option Reply
  deriving DecidableEq, Repr

namespace MailboxState

def readState (state : MailboxState) (id : Snowflake) : RequestState :=
  (state.requestStates.get? id).getD initialState

def lastReply (state : MailboxState) (id : Snowflake) (requestState : RequestState) :
    Option Reply :=
  requestState.lastReplyId.bind fun replyId => state.replies.get? (toLex (id, replyId))

def shardRow (entry : MessageMeta) : String ×ₗ Snowflake :=
  toLex (entry.address.shardId.toString, entry.id)

def addressRow (entry : MessageMeta) : String ×ₗ String ×ₗ String ×ₗ Snowflake :=
  toLex (entry.address.entityType, toLex (entry.address.entityId,
    toLex (entry.address.shardId.toString, entry.id)))

def requestRow (entry : MessageMeta) : Snowflake ×ₗ Snowflake :=
  toLex (entry.requestId, entry.id)

def setPolling (state : MailboxState) (entry : MessageMeta) (polling : Polling) :
    Except MailboxError MailboxState := do
  let (store, entry) ← state.polling.setMessagePolling entry polling
  .ok { state with polling := store, messages := state.messages.set entry.id entry }

def writeMessage (state : MailboxState) (entry : MessageMeta) (requestState : RequestState) :
    Except MailboxError MailboxState :=
  state.setPolling entry (pollingState entry requestState)

def removeMessage (state : MailboxState) (entry : MessageMeta) :
    Except MailboxError MailboxState := do
  let store := state.polling.clearMessageTimer entry
  let order ← store.order.removeMessageOrder entry.id (pollingIndexes entry)
  .ok { state with
    polling := { store with order }
    messagesByShard := state.messagesByShard.clear (shardRow entry)
    messagesByAddress := state.messagesByAddress.clear (addressRow entry)
    messagesByRequest := state.messagesByRequest.clear (requestRow entry)
    primaryKeys := entry.primaryKey.elim state.primaryKeys state.primaryKeys.clear
    messages := state.messages.clear entry.id
    envelopes := state.envelopes.clear entry.id }

def visitIndex {α : Type} [LinearOrder α] (read : MailboxState → OrderedMap α Unit)
    (range : α → Bool) (messageId : α → Snowflake)
    (visit : Snowflake → MailboxState → Except MailboxError (MailboxState × Bool))
    (state : MailboxState) : Except MailboxError MailboxState :=
  OrderedMap.visitPages read range pageSize (visitEach fun row => visit (messageId row)) state

def visitStored (update : MessageMeta → MailboxState → Except MailboxError MailboxState)
    (id : Snowflake) (state : MailboxState) : Except MailboxError (MailboxState × Bool) :=
  match state.messages.get? id with
  | none => .ok (state, true)
  | some entry => do
    let state ← update entry state
    .ok (state, true)

def updateRequest (id : Snowflake)
    (update : MessageMeta → MailboxState → Except MailboxError MailboxState)
    (state : MailboxState) : Except MailboxError MailboxState :=
  visitIndex messagesByRequest (fun row => (ofLex row).1 = id) (fun row => (ofLex row).2)
    (visitStored update) state

/-! ## Saving -/

def acknowledges (state : MailboxState) (requestId replyId : Snowflake) : Option ReplyMeta :=
  (state.replyMetadata.get? (toLex (requestId, replyId))).filter fun reply =>
    reply.kind = .chunk ∧ ¬ reply.acked

/-- The effect of a new acknowledgement on the reply and on the state of the request. -/
def acknowledge (state : MailboxState) (id requestId replyId : Snowflake) : MailboxState :=
  let requestState := state.readState requestId
  match state.acknowledges requestId replyId with
  | some reply => { state with
      replyMetadata :=
        state.replyMetadata.set (toLex (requestId, replyId)) { reply with acked := true }
      requestStates := state.requestStates.set requestId
        { requestState with latestAckId := some id, unacked := requestState.unacked - 1 } }
  | none => { state with
      requestStates := state.requestStates.set requestId
        { requestState with latestAckId := some id } }

def enqueue (state : MailboxState) (envelope : Envelope) (entry : MessageMeta)
    (requestState : RequestState) : Except MailboxError MailboxState := do
  let order := state.polling.order.insertMessageOrder entry.id (pollingIndexes entry) false
  let state := { state with
    envelopes := state.envelopes.set entry.id envelope
    polling := { state.polling with order } }
  let state ← state.writeMessage entry requestState
  .ok { state with
    messagesByShard := state.messagesByShard.set (shardRow entry) ()
    messagesByAddress := state.messagesByAddress.set (addressRow entry) ()
    messagesByRequest := state.messagesByRequest.set (requestRow entry) () }

/-- An acknowledgement can unblock all siblings and supersede an older one. -/
def updateSiblings (envelope : Envelope) (requestState : RequestState) (state : MailboxState) :
    Except MailboxError MailboxState :=
  if envelope.kind = .ackChunk then
    updateRequest envelope.requestId
      (fun entry state => state.writeMessage entry requestState) state
  else .ok state

def insertEnvelope (state : MailboxState) (envelope : Envelope) (entry : MessageMeta) :
    Except MailboxError MailboxState := do
  let requestState := state.readState envelope.requestId
  let state ← state.enqueue envelope entry requestState
  let state ← updateSiblings envelope requestState state
  .ok { state with
    primaryKeys := entry.primaryKey.elim state.primaryKeys
      fun hash => state.primaryKeys.set hash entry.id }

def saveEnvelope (primaryHash : String → String) (envelope : Envelope)
    (primaryKey : Option String) (deliverAt : Option ℚ) (state : MailboxState) :
    Except MailboxError (MailboxState × SaveResult) :=
  let hash := primaryKey.map primaryHash
  let id := envelope.id
  let originalId := (hash.bind state.primaryKeys.get?).getD id
  match state.messages.get? originalId with
  | some existing =>
      .ok (state, .duplicate originalId
        (state.lastReply existing.requestId (state.readState existing.requestId)))
  | none => do
    let entry : MessageMeta := {
      id
      requestId := envelope.requestId
      kind := envelope.kind
      address := envelope.address
      primaryKey := hash
      deliverAt
      claimedAt := none
      processed := (state.readState envelope.requestId).exitId.isSome
      polling := .blocked }
    let state :=
      match envelope with
      | .ackChunk id requestId replyId _ => state.acknowledge id requestId replyId
      | _ => state
    let state ← state.insertEnvelope envelope entry
    .ok (state, .success)

def insertReply (state : MailboxState) (reply : Reply) (requestState : RequestState) :
    MailboxState :=
  { state with
    replies := state.replies.set (toLex (reply.requestId, reply.id)) reply
    replyMetadata := state.replyMetadata.set (toLex (reply.requestId, reply.id))
      { id := reply.id, kind := reply.content.kind, sequence := reply.content.sequence
        acked := false }
    replyIds := state.replyIds.set (toLex (reply.requestId, reply.id)) ()
    uniqueReplies :=
      state.uniqueReplies.set (toLex (reply.requestId, reply.content.sequence)) reply.id
    requestStates := state.requestStates.set reply.requestId requestState }

def saveReply (reply : Reply) (state : MailboxState) : Except MailboxError MailboxState :=
  let id := reply.requestId
  let isExit := reply.content.kind = .withExit
  if (state.replyMetadata.get? (toLex (id, reply.id))).isSome then .ok state
  else
    let requestState := state.readState id
    if (state.uniqueReplies.get? (toLex (id, reply.content.sequence))).isSome then
      .error (.duplicateReply id reply.id reply.content.sequence)
    else
      let nextState := { requestState with
        lastReplyId := some reply.id
        exitId := if isExit then some reply.id else requestState.exitId
        unacked := requestState.unacked + if isExit then 0 else 1 }
      let state := state.insertReply reply nextState
      if isExit ∨ requestState.unacked = 0 then
        updateRequest id
          (fun entry state => state.writeMessage
            { entry with processed := entry.processed || isExit } nextState) state
      else .ok state

def clearExit (state : MailboxState) (id exitId : Snowflake) : MailboxState :=
  { state with
    replies := state.replies.clear (toLex (id, exitId))
    replyMetadata := state.replyMetadata.clear (toLex (id, exitId))
    replyIds := state.replyIds.clear (toLex (id, exitId))
    uniqueReplies := state.uniqueReplies.clear (toLex (id, ⊥)) }

def clearReplies (id : Snowflake) (expectedReplyId : Option Snowflake) (state : MailboxState) :
    Except MailboxError MailboxState :=
  let requestState := state.readState id
  if expectedReplyId ≠ none ∧ requestState.lastReplyId ≠ expectedReplyId then .ok state
  else
    let state := requestState.exitId.elim state (state.clearExit id)
    let nextState := { requestState with lastReplyId := none, exitId := none }
    let state := { state with requestStates := state.requestStates.set id nextState }
    updateRequest id
      (fun entry state =>
        if entry.kind = .interrupt ∧ expectedReplyId = none then state.removeMessage entry
        else state.writeMessage { entry with processed := false, claimedAt := none } nextState)
      state

/-! ## Polling -/

def takeLimit {α : Type} (limit : Option Nat) : List α → List α → List α
  | selected, [] => selected
  | selected, element :: rest =>
    let selected := selected ++ [element]
    if limit = some selected.length then selected else takeLimit limit selected rest

def loadMessage (state : MailboxState) (entry : MessageMeta) (requestState : RequestState) :
    Except MailboxError LoadedMessage :=
  match state.envelopes.get? entry.id with
  | none => .error (.missingMessageRecord .envelope entry.id)
  | some envelope => .ok {
      envelope
      lastSentReply :=
        if entry.kind = .request then state.lastReply entry.requestId requestState else none }

def isCandidate (now : ℚ) (claim : Bool) (entry : MessageMeta) : Bool :=
  !entry.processed && entry.deliverAt.all (· ≤ now) &&
    (!claim || entry.claimedAt.all (· ≤ now - claimExpirationMillis))

def isDeliverable (entry : MessageMeta) (requestState : RequestState) : Bool :=
  requestState.exitId = none ∧ ¬ 0 < requestState.unacked ∧
    ¬ (entry.kind = .ackChunk ∧ requestState.latestAckId ≠ some entry.id)

def readMessages (ids : List Snowflake) (now : ℚ) (claim : Bool) (limit : Option Nat)
    (state : MailboxState) : Except MailboxError (MailboxState × List LoadedMessage) := do
  let candidates := (ids.filterMap state.messages.get?).filter (isCandidate now claim)
  let selected := takeLimit limit []
    (candidates.filter fun entry => isDeliverable entry (state.readState entry.requestId))
  let loaded ← selected.mapM fun entry =>
    state.loadMessage entry (state.readState entry.requestId)
  let claimed ←
    if claim then
      selected.foldlM
        (fun next entry =>
          next.writeMessage { entry with claimedAt := some now } (state.readState entry.requestId))
        state
    else .ok state
  .ok (claimed, loaded)

def promotePage (page : List ScheduledRow) (state : MailboxState) :
    Except MailboxError (MailboxState × Bool) := do
  let entries := page.filterMap fun row => state.messages.get? (ofLex row).2
  let state ← entries.foldlM (fun state entry => state.setPolling entry .ready) state
  .ok (state, true)

def promoteDue (index : PollingIndex) (now : ℚ) (state : MailboxState) :
    Except MailboxError MailboxState :=
  OrderedMap.visitPages (fun state => state.polling.scheduled index)
    (fun row => (ofLex row).1 ≤ now) pageSize promotePage state

def claimBatch (now : ℚ) (limit : Option Nat) (ids : List Snowflake)
    (polled : MailboxState × List LoadedMessage) :
    Except MailboxError ((MailboxState × List LoadedMessage) × Bool) := do
  let (state, result) := polled
  let (state, loaded) ← readMessages ids now true (limit.map (· - result.length)) state
  let result := result ++ loaded
  .ok ((state, result), limit.all (result.length < ·))

def pollOrder (polled : MailboxState × List LoadedMessage) : OrderStore PollingIndex :=
  polled.1.polling.order

def setPollOrder (order : OrderStore PollingIndex) (polled : MailboxState × List LoadedMessage) :
    MailboxState × List LoadedMessage :=
  ({ polled.1 with polling := { polled.1.polling with order } }, polled.2)

def selectors (shards : List String) (addresses : Option (List EntityAddress)) :
    List PollingIndex :=
  match addresses with
  | none => shards.eraseDups.map .shard
  | some addresses =>
      (addresses.filter fun address => address.shardId.toString ∈ shards).map addressKey

def unprocessedMessages (shards : List String) (now : ℚ)
    (addresses : Option (List EntityAddress)) (limit : Option ℚ) (state : MailboxState) :
    Except MailboxError (MailboxState × List LoadedMessage) :=
  let limit := limit.map fun limit => ⌊limit⌋.toNat
  if limit = some 0 then .ok (state, [])
  else do
    let indexes := selectors shards addresses
    let state ← indexes.foldlM (fun state index => promoteDue index now state) state
    visitMessageOrder pollOrder setPollOrder indexes (claimBatch now limit) (state, [])

/-! ## Resetting and clearing -/

def resetMessage (entry : MessageMeta) (state : MailboxState) :
    Except MailboxError MailboxState :=
  state.writeMessage { entry with claimedAt := none } (state.readState entry.requestId)

def resetRequests (ids : List Snowflake) (state : MailboxState) :
    Except MailboxError MailboxState :=
  ids.foldlM
    (fun state id =>
      match state.messages.get? id with
      | some entry => if entry.processed then .ok state else resetMessage entry state
      | none => .ok state)
    state

def resetIndex {α : Type} [LinearOrder α] (read : MailboxState → OrderedMap α Unit)
    (range : α → Bool) (messageId : α → Snowflake) (state : MailboxState) :
    Except MailboxError MailboxState :=
  visitIndex read range messageId
    (visitStored fun entry state =>
      if !entry.processed ∧ entry.claimedAt ≠ none then resetMessage entry state else .ok state)
    state

def addressMessageId (row : String ×ₗ String ×ₗ String ×ₗ Snowflake) : Snowflake :=
  (ofLex (ofLex (ofLex row).2).2).2

def resetAddresses (addresses : List EntityAddress) (state : MailboxState) :
    Except MailboxError MailboxState :=
  addresses.foldlM
    (fun state address => resetIndex messagesByAddress
      (fun row => (ofLex row).1 = address.entityType ∧
        (ofLex (ofLex row).2).1 = address.entityId ∧
        (ofLex (ofLex (ofLex row).2).2).1 = address.shardId.toString)
      addressMessageId state)
    state

def resetShards (shards : List String) (state : MailboxState) :
    Except MailboxError MailboxState :=
  shards.foldlM
    (fun state shard => resetIndex messagesByShard (fun row => (ofLex row).1 = shard)
      (fun row => (ofLex row).2) state)
    state

def clearRequest (state : MailboxState) (id : Snowflake) : MailboxState :=
  { state with
    replies := state.replies.clearRange fun row => (ofLex row).1 = id
    replyMetadata := state.replyMetadata.clearRange fun row => (ofLex row).1 = id
    requestStates := state.requestStates.clear id
    replyIds := state.replyIds.clearRange fun row => (ofLex row).1 = id
    uniqueReplies := state.uniqueReplies.clearRange fun row => (ofLex row).1 = id }

/-- The identity of an entity is independent of its current shard. -/
def clearAddress (entityType entityId : String) (state : MailboxState) :
    Except MailboxError MailboxState :=
  visitIndex messagesByAddress
    (fun row => (ofLex row).1 = entityType ∧ (ofLex (ofLex row).2).1 = entityId)
    addressMessageId
    (fun id => visitStored
      (fun entry state =>
        (if entry.kind = .request then state.clearRequest id else state).removeMessage entry)
      id)
    state

/-! ## Committed operations -/

inductive Operation where
  | saveEnvelope (envelope : Envelope) (primaryKey : Option String) (deliverAt : Option ℚ)
  | saveReply (reply : Reply)
  | clearReplies (id : Snowflake) (expectedReplyId : Option Snowflake)
  | unprocessedMessages (shards : List String) (now : ℚ)
      (addresses : Option (List EntityAddress)) (limit : Option ℚ)
  | resetRequests (ids : List Snowflake)
  | resetAddresses (addresses : List EntityAddress)
  | resetShards (shards : List String)
  | clearAddress (entityType entityId : String)

def run (primaryHash : String → String) (state : MailboxState) :
    Operation → Except MailboxError MailboxState
  | .saveEnvelope envelope primaryKey deliverAt =>
      (state.saveEnvelope primaryHash envelope primaryKey deliverAt).map Prod.fst
  | .saveReply reply => state.saveReply reply
  | .clearReplies id expectedReplyId => state.clearReplies id expectedReplyId
  | .unprocessedMessages shards now addresses limit =>
      (state.unprocessedMessages shards now addresses limit).map Prod.fst
  | .resetRequests ids => state.resetRequests ids
  | .resetAddresses addresses => state.resetAddresses addresses
  | .resetShards shards => state.resetShards shards
  | .clearAddress entityType entityId => state.clearAddress entityType entityId

def commit (state : MailboxState) : MailboxState :=
  { state with polling := { state.polling with order := state.polling.order.commit } }

def Step (primaryHash : String → String) (state : MailboxState) (operation : Operation)
    (next : MailboxState) : Prop :=
  ∃ finish, state.run primaryHash operation = .ok finish ∧ next = finish.commit

def empty (readVersion : Nat) : MailboxState where
  polling := {
    order := { readVersion, rows := fun _ => ∅, orders := ∅, next := 0, pending := [], committed := ∅ }
    scheduled := fun _ => ∅ }
  messages := ∅
  envelopes := ∅
  requestStates := ∅
  primaryKeys := ∅
  replies := ∅
  replyMetadata := ∅
  replyIds := ∅
  uniqueReplies := ∅
  messagesByShard := ∅
  messagesByAddress := ∅
  messagesByRequest := ∅

end MailboxState

end FoundationDbEffect.Cluster
