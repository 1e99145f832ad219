import FoundationDbEffect.Cluster.MailboxInvariant

/-!
# Runs of the mailbox

What each operation does to a well formed mailbox, whether its messages agree with the states
of their requests or not: polls and resets store metadata only, a reply and an envelope are
inserted before metadata is stored, and the two clears remove messages.
-/

namespace FoundationDbEffect.Cluster

open FoundationDbEffect.Foundation

theorem SameIdentity.symm {old entry : MessageMeta} (h : SameIdentity old entry) :
    SameIdentity entry old :=
  ⟨h.id.symm, h.requestId.symm, h.kind.symm, h.address.symm, h.primaryKey.symm⟩

/-- The place of a reply among the unique replies of its request, where an exit has its own. -/
def ReplyContent.slot (content : ReplyContent) : WithBot Int := content.sequence

structure ReplyStore where
  replies : OrderedMap (Snowflake ×ₗ Snowflake) Reply
  replyMetadata : OrderedMap (Snowflake ×ₗ Snowflake) ReplyMeta
  replyIds : OrderedMap (Snowflake ×ₗ Snowflake) Unit
  uniqueReplies : OrderedMap (Snowflake ×ₗ WithBot Int) Snowflake
  requestStates : OrderedMap Snowflake RequestState

namespace MailboxState

def replyStore (state : MailboxState) : ReplyStore where
  replies := state.replies
  replyMetadata := state.replyMetadata
  replyIds := state.replyIds
  uniqueReplies := state.uniqueReplies
  requestStates := state.requestStates

theorem Rewritten.replyStore {state next : MailboxState} (h : Rewritten state next) :
    next.replyStore = state.replyStore := by
  rw [h.others]
  rfl

theorem Rewritten.envelopes {state next : MailboxState} (h : Rewritten state next) :
    next.envelopes = state.envelopes := by
  rw [h.others]

theorem Rewritten.primaryKeys {state next : MailboxState} (h : Rewritten state next) :
    next.primaryKeys = state.primaryKeys := by
  rw [h.others]

/-! ## Visits -/

/-- Messages are removed, and the others keep their identity. -/
structure Trims (removable : MessageMeta → Prop) (state next : MailboxState) : Prop where
  removed : ∀ id entry, state.messages.get? id = some entry → removable entry →
    next.messages.get? id = none
  kept : ∀ id entry, state.messages.get? id = some entry → ¬ removable entry →
    ∃ entry', next.messages.get? id = some entry' ∧ SameIdentity entry entry'

/-- The rule of a visit that removes messages: each visit removes a removable message, and
keeps another one. -/
theorem WellFormed.visitTrimming {α : Type} [LinearOrder α]
    {read : MailboxState → OrderedMap α Unit} {range : α → Bool} {messageId : α → Snowflake}
    {rowOf : MessageMeta → α}
    (hindex : ∀ state, state.WellFormed → IndexOf state.messages (read state) rowOf)
    (hrow : ∀ old entry, SameIdentity old entry → rowOf entry = rowOf old)
    (hid : ∀ entry, messageId (rowOf entry) = entry.id)
    {update : Snowflake → MessageMeta → MailboxState → Except MailboxError MailboxState}
    {removable : MessageMeta → Prop} {K : MailboxState → Prop} {state : MailboxState}
    (h : state.WellFormed)
    (hsame : ∀ old entry, SameIdentity old entry → removable old → removable entry)
    (hrange : ∀ entry, removable entry → range (rowOf entry) = true)
    (hupdate : ∀ middle entry, middle.WellFormed →
      middle.messages.get? entry.id = some entry → range (rowOf entry) = true → K middle →
        ∃ next, update entry.id entry middle = .ok next ∧ next.WellFormed ∧
          Continues middle next ∧
          (∀ id, id ≠ entry.id → next.messages.get? id = middle.messages.get? id) ∧
          (next.messages.get? entry.id = none ↔ removable entry) ∧ K next)
    (hstart : K state) :
    ∃ finish, visitIndex read range messageId
        (fun id => MailboxState.visitStored (update id) id) state = .ok finish ∧
      finish.WellFormed ∧ Continues state finish ∧ Trims removable state finish ∧ K finish := by
  have hrule := @WellFormed.visitStored _ _ read range messageId rowOf hindex hrow hid update
    (fun middle rest => (∀ id old, state.messages.get? id = some old →
      (removable old → middle.messages.get? id = none ∨ rowOf old ∈ rest) ∧
      (middle.messages.get? id = none → removable old)) ∧ K middle) state h ?_ ?_
  · obtain ⟨finish, hvisit, hwell, hcontinues, hstored, hK⟩ := hrule
    refine ⟨finish, hvisit, hwell, hcontinues, ⟨?_, ?_⟩, hK⟩
    · intro id entry hentry hremovable
      exact ((hstored id entry hentry).1 hremovable).resolve_right List.not_mem_nil
    · intro id entry hentry hkept
      cases hfinish : finish.messages.get? id with
      | none => exact absurd ((hstored id entry hentry).2 hfinish) hkept
      | some entry' =>
          obtain ⟨old, hold, hidentity⟩ := hcontinues.messages id entry' hfinish
          rw [hentry, Option.some.injEq] at hold
          exact ⟨entry', rfl, hold ▸ hidentity⟩
  · rintro middle entry rest hmiddle hcontinues hentry hinrange ⟨hstored, hK⟩
    obtain ⟨next, hnext, hwell, hcontinues', hothers, hremovable, hK'⟩ :=
      hupdate middle entry hmiddle hentry hinrange hK
    refine ⟨next, hnext, hwell, hcontinues', hothers, ?_, hK'⟩
    intro id old hold
    obtain ⟨hremoved, hgone⟩ := hstored id old hold
    rcases eq_or_ne id entry.id with rfl | hne
    · obtain ⟨before, hbefore, hidentity⟩ := hcontinues.messages _ entry hentry
      rw [hold, Option.some.injEq] at hbefore
      subst hbefore
      rw [hremovable]
      exact ⟨fun hold => .inl (hsame old entry hidentity hold), hsame entry old hidentity.symm⟩
    · rw [hothers id hne]
      refine ⟨fun hremovable => (hremoved hremovable).imp_right fun hmem => ?_, hgone⟩
      rcases List.mem_cons.mp hmem with hsameRow | hmem
      · have hids := congrArg messageId hsameRow
        rw [hid, hid, h.keyed id old hold] at hids
        exact absurd hids hne
      · exact hmem
  · refine ⟨?_, hstart⟩
    intro id old hold
    refine ⟨fun hremovable => .inr (OrderedMap.mem_keysAfter.mpr ?_), ?_⟩
    · refine ⟨hrange old hremovable, rfl, ?_⟩
      rw [(hindex state h _).mpr ⟨id, old, hold, rfl⟩]
      rfl
    · intro hnone
      rw [hold] at hnone
      exact nomatch hnone

/-- The rule of a visit that stores metadata only. -/
theorem WellFormed.visitRewriting {α : Type} [LinearOrder α]
    {read : MailboxState → OrderedMap α Unit} {range : α → Bool} {messageId : α → Snowflake}
    {rowOf : MessageMeta → α}
    (hindex : ∀ state, state.WellFormed → IndexOf state.messages (read state) rowOf)
    (hrow : ∀ old entry, SameIdentity old entry → rowOf entry = rowOf old)
    (hid : ∀ entry, messageId (rowOf entry) = entry.id)
    {update : MessageMeta → MailboxState → Except MailboxError MailboxState}
    {state : MailboxState} (h : state.WellFormed)
    (hupdate : ∀ middle entry, middle.WellFormed →
      middle.messages.get? entry.id = some entry → range (rowOf entry) = true →
        ∃ next, update entry middle = .ok next ∧ next.WellFormed ∧ Rewritten middle next ∧
          ∀ id, id ≠ entry.id → next.messages.get? id = middle.messages.get? id) :
    ∃ finish, visitIndex read range messageId (MailboxState.visitStored update) state =
        .ok finish ∧ finish.WellFormed ∧ Rewritten state finish := by
  obtain ⟨finish, hvisit, hwell, -, -, hrewritten⟩ := @WellFormed.visitTrimming _ _ read range
    messageId rowOf hindex hrow hid (fun _ => update) (fun _ => False) (Rewritten state) state h
    (fun _ _ _ hremovable => hremovable) (fun _ hremovable => hremovable.elim) (by
      intro middle entry hmiddle hentry hinrange hrewritten
      obtain ⟨next, hnext, hwell, hrewritten', hothers⟩ :=
        hupdate middle entry hmiddle hentry hinrange
      obtain ⟨entry', hentry', -⟩ := hrewritten'.new hentry
      refine ⟨next, hnext, hwell, hrewritten'.continues, hothers, ?_,
        hrewritten.trans hrewritten'⟩
      rw [hentry']
      exact iff_of_false nofun id) (.refl state)
  exact ⟨finish, hvisit, hwell, hrewritten⟩

/-! ## Stored metadata -/

theorem WellFormed.rewriteMessage {state : MailboxState} (h : state.WellFormed)
    {old entry : MessageMeta} (hold : state.messages.get? old.id = some old)
    (hsame : SameIdentity old entry) (hpolling : entry.polling = old.polling)
    (requestState : RequestState) :
    ∃ next, state.writeMessage entry requestState = .ok next ∧ next.WellFormed ∧
      Rewritten state next ∧
      ∀ id, id ≠ old.id → next.messages.get? id = state.messages.get? id := by
  rw [← hsame.id] at hold
  obtain ⟨next, hset, hindexed, hrewritten, hmessages, -⟩ := h.toIndexed.setPolling hold hsame
    hpolling (pollingState entry requestState)
  refine ⟨next, hset, hrewritten.wellFormed h hindexed, hrewritten, ?_⟩
  intro id hid
  rw [← hsame.id] at hid
  rw [hmessages, OrderedMap.get?_set_of_ne _ _ hid]

theorem WellFormed.rewriteRequest {state : MailboxState} (h : state.WellFormed) (id : Snowflake)
    {change : MessageMeta → MessageMeta}
    (hchange : ∀ entry, SameIdentity entry (change entry) ∧ (change entry).polling = entry.polling)
    (requestState : RequestState) :
    ∃ finish, MailboxState.updateRequest id
        (fun entry state => state.writeMessage (change entry) requestState) state = .ok finish ∧
      finish.WellFormed ∧ Rewritten state finish := by
  apply @WellFormed.visitRewriting _ _ messagesByRequest (fun row => (ofLex row).1 = id)
    (fun row => (ofLex row).2) requestRow (fun _ hwell => hwell.byRequest)
    (fun _ _ => requestRow_congr) (fun _ => rfl) _ state h
  intro middle entry hmiddle hentry _
  obtain ⟨hsame, hpolling⟩ := hchange entry
  exact hmiddle.rewriteMessage hentry hsame hpolling requestState

def Operation.isQuiet : Operation → Bool
  | .unprocessedMessages _ _ _ _ | .resetRequests _ | .resetAddresses _ | .resetShards _ => true
  | _ => false

theorem WellFormed.rewriteReset {state : MailboxState} (h : state.WellFormed)
    {entry : MessageMeta} (hentry : state.messages.get? entry.id = some entry) :
    ∃ next, MailboxState.resetMessage entry state = .ok next ∧ next.WellFormed ∧
      Rewritten state next ∧
      ∀ id, id ≠ entry.id → next.messages.get? id = state.messages.get? id := by
  unfold MailboxState.resetMessage
  generalize state.readState entry.requestId = requestState
  have hsame : SameIdentity entry { entry with claimedAt := none } := ⟨rfl, rfl, rfl, rfl, rfl⟩
  exact h.rewriteMessage hentry hsame rfl requestState

theorem WellFormed.rewriteIndex {α : Type} [LinearOrder α]
    {read : MailboxState → OrderedMap α Unit} {range : α → Bool} {messageId : α → Snowflake}
    {rowOf : MessageMeta → α}
    (hindex : ∀ state, state.WellFormed → IndexOf state.messages (read state) rowOf)
    (hrow : ∀ old entry, SameIdentity old entry → rowOf entry = rowOf old)
    (hid : ∀ entry, messageId (rowOf entry) = entry.id) {state : MailboxState}
    (h : state.WellFormed) :
    ∃ finish, MailboxState.resetIndex read range messageId state = .ok finish ∧
      finish.WellFormed ∧ Rewritten state finish := by
  apply h.visitRewriting hindex hrow hid
  intro middle entry hmiddle hentry _
  split_ifs with hclaimed
  · exact hmiddle.rewriteReset hentry
  · exact ⟨middle, rfl, hmiddle, .refl middle, fun _ _ => rfl⟩

theorem WellFormed.rewriteEach {α : Type} {step : MailboxState → α → Except MailboxError MailboxState}
    (hstep : ∀ state element, state.WellFormed →
      ∃ next, step state element = .ok next ∧ next.WellFormed ∧ Rewritten state next)
    (elements : List α) {state : MailboxState} (h : state.WellFormed) :
    ∃ finish, elements.foldlM step state = .ok finish ∧ finish.WellFormed ∧
      Rewritten state finish := by
  apply foldlM_rule _ elements
  · exact ⟨h, .refl state⟩
  · rintro middle element ⟨hmiddle, hrewritten⟩
    obtain ⟨next, hnext, hwell, hrewritten'⟩ := hstep middle element hmiddle
    exact ⟨next, hnext, hwell, hrewritten.trans hrewritten'⟩

theorem WellFormed.run_of_isQuiet {state : MailboxState} (h : state.WellFormed)
    (primaryHash : String → String) {operation : Operation} (hquiet : operation.isQuiet = true) :
    ∃ finish, state.run primaryHash operation = .ok finish ∧ finish.WellFormed ∧
      Rewritten state finish := by
  cases operation with
  | saveEnvelope envelope primaryKey deliverAt => exact nomatch hquiet
  | saveReply reply => exact nomatch hquiet
  | clearReplies id expectedReplyId => exact nomatch hquiet
  | clearAddress entityType entityId => exact nomatch hquiet
  | unprocessedMessages shards now addresses limit =>
      obtain ⟨polled, hpoll, hindexed, hrewritten⟩ :=
        h.toIndexed.rewritePoll shards now addresses limit
      refine ⟨polled.1, ?_, hrewritten.wellFormed h hindexed, hrewritten⟩
      rw [MailboxState.run, hpoll]
      rfl
  | resetRequests ids =>
      apply h.rewriteEach _ ids
      intro middle id hmiddle
      cases hentry : middle.messages.get? id with
      | none => exact ⟨middle, rfl, hmiddle, .refl middle⟩
      | some entry =>
          dsimp only
          split_ifs with hprocessed
          · exact ⟨middle, rfl, hmiddle, .refl middle⟩
          · obtain rfl := hmiddle.keyed id entry hentry
            obtain ⟨next, hreset, hwell, hrewritten, -⟩ := hmiddle.rewriteReset hentry
            exact ⟨next, hreset, hwell, hrewritten⟩
  | resetAddresses addresses =>
      apply h.rewriteEach _ addresses
      intro middle address hmiddle
      exact hmiddle.rewriteIndex (fun _ hwell => hwell.byAddress) (fun _ _ => addressRow_congr)
        (fun _ => rfl)
  | resetShards shards =>
      apply h.rewriteEach _ shards
      intro middle shard hmiddle
      exact hmiddle.rewriteIndex (fun _ hwell => hwell.byShard) (fun _ _ => shardRow_congr)
        (fun _ => rfl)

/-! ## Replies -/

def repliedState (requestState : RequestState) (reply : Reply) : RequestState :=
  let isExit := reply.content.kind = .withExit
  { requestState with
    lastReplyId := some reply.id
    exitId := if isExit then some reply.id else requestState.exitId
    unacked := requestState.unacked + if isExit then 0 else 1 }

theorem saveReply_of_stored {state : MailboxState} {reply : Reply}
    (hstored : (state.replyMetadata.get? (toLex (reply.requestId, reply.id))).isSome) :
    state.saveReply reply = .ok state :=
  if_pos hstored

theorem saveReply_of_taken {state : MailboxState} {reply : Reply}
    (hnew : ¬ (state.replyMetadata.get? (toLex (reply.requestId, reply.id))).isSome)
    (htaken : (state.uniqueReplies.get? (toLex (reply.requestId, reply.content.slot))).isSome) :
    state.saveReply reply =
      .error (.duplicateReply reply.requestId reply.id reply.content.sequence) :=
  (if_neg hnew).trans (if_pos htaken)

theorem WellFormed.saveReply_of_new {state : MailboxState} (h : state.WellFormed) {reply : Reply}
    (hnew : ¬ (state.replyMetadata.get? (toLex (reply.requestId, reply.id))).isSome)
    (hfree : ¬ (state.uniqueReplies.get? (toLex (reply.requestId, reply.content.slot))).isSome) :
    ∃ finish, state.saveReply reply = .ok finish ∧ finish.WellFormed ∧
      Rewritten (state.insertReply reply (repliedState (state.readState reply.requestId) reply))
        finish := by
  have hwell : (state.insertReply reply
      (repliedState (state.readState reply.requestId) reply)).WellFormed :=
    h.setReplies _ _ _ _ _
  have hsave : state.saveReply reply = if _ ∨ _ then _ else _ := (if_neg hnew).trans (if_neg hfree)
  by_cases hupdate : reply.content.kind = .withExit ∨
      (state.readState reply.requestId).unacked = 0
  · obtain ⟨finish, hrun, hfinish⟩ := @WellFormed.rewriteRequest _ hwell reply.requestId
      (fun entry => { entry with
        processed := entry.processed || decide (reply.content.kind = .withExit) })
      (fun _ => ⟨⟨rfl, rfl, rfl, rfl, rfl⟩, rfl⟩)
      (repliedState (state.readState reply.requestId) reply)
    exact ⟨finish, (hsave.trans (if_pos hupdate)).trans hrun, hfinish⟩
  · exact ⟨_, hsave.trans (if_neg hupdate), hwell, .refl _⟩

/-! ## Envelopes -/

theorem WellFormed.storeEnvelope {state : MailboxState} (h : state.WellFormed)
    {envelope : Envelope} {entry : MessageMeta}
    (hfresh : state.messages.get? entry.id = none) (hblocked : entry.polling = .blocked) :
    ∃ finish, state.insertEnvelope envelope entry = .ok finish ∧ finish.WellFormed ∧
      finish.replyStore = state.replyStore ∧
      finish.primaryKeys = entry.primaryKey.elim state.primaryKeys
        (fun hash => state.primaryKeys.set hash entry.id) ∧
      finish.envelopes = state.envelopes.set entry.id envelope ∧
      ∀ id, Option.Rel SameIdentity ((state.messages.set entry.id entry).get? id)
        (finish.messages.get? id) := by
  obtain ⟨store, queued, henqueue, hqueued, hwell, -, -⟩ :=
    h.enqueue envelope (state.readState envelope.requestId) hfresh hblocked
  obtain ⟨updated, hupdate, hwell', hrewritten⟩ : ∃ updated,
      updateSiblings envelope (state.readState envelope.requestId) queued = .ok updated ∧
        updated.WellFormed ∧ Rewritten queued updated := by
    unfold updateSiblings
    split_ifs with hkind
    · apply hwell.rewriteRequest envelope.requestId
      intro entry
      exact ⟨.refl entry, rfl⟩
    · exact ⟨queued, rfl, hwell, .refl queued⟩
  have hmessages (id : Snowflake) : Option.Rel SameIdentity
      ((state.messages.set entry.id entry).get? id) (updated.messages.get? id) := by
    have hrel := hrewritten.messages id
    rw [hqueued] at hrel
    dsimp only at hrel
    rw [OrderedMap.get?_set] at hrel ⊢
    split_ifs at hrel ⊢ with hid
    · generalize updated.messages.get? id = found at hrel ⊢
      cases hrel with
      | some hsame =>
          exact .some ⟨hsame.id, hsame.requestId, hsame.kind, hsame.address, hsame.primaryKey⟩
    · exact hrel
  have hstored := hmessages entry.id
  rw [OrderedMap.get?_set_self] at hstored
  obtain ⟨stored, hupdated, hsame⟩ : ∃ stored, updated.messages.get? entry.id = some stored ∧
      SameIdentity entry stored := by
    generalize updated.messages.get? entry.id = found at hstored
    cases hstored with
    | some hsame => exact ⟨_, rfl, hsame⟩
  have hprimary := hwell'.setPrimaryKey hupdated
  rw [hsame.primaryKey] at hprimary
  refine ⟨_, bind_eq_ok.mpr ⟨queued, henqueue, bind_eq_ok.mpr ⟨updated, hupdate, rfl⟩⟩, hprimary,
    ?_, ?_, ?_, hmessages⟩
  · change updated.replyStore = _
    rw [hrewritten.replyStore, hqueued]
    rfl
  · dsimp only
    rw [hrewritten.primaryKeys, hqueued]
  · dsimp only
    rw [hrewritten.envelopes, hqueued]

def newMeta (primaryHash : String → String) (state : MailboxState) (envelope : Envelope)
    (primaryKey : Option String) (deliverAt : Option ℚ) : MessageMeta where
  id := envelope.id
  requestId := envelope.requestId
  kind := envelope.kind
  address := envelope.address
  primaryKey := primaryKey.map primaryHash
  deliverAt := deliverAt
  claimedAt := none
  processed := (state.readState envelope.requestId).exitId.isSome
  polling := .blocked

/-- The state in which an envelope is inserted: an acknowledgement has its effect before. -/
def acknowledged (state : MailboxState) : Envelope → MailboxState
  | .ackChunk id requestId replyId _ => state.acknowledge id requestId replyId
  | _ => state

theorem WellFormed.acknowledged {state : MailboxState} (h : state.WellFormed)
    (envelope : Envelope) : (state.acknowledged envelope).WellFormed := by
  cases envelope with
  | ackChunk id requestId replyId address =>
      obtain ⟨-, -, -, -, hwell⟩ := acknowledge_spec state id requestId replyId
      exact hwell h
  | request requestId address body => exact h
  | interrupt id requestId address => exact h

theorem acknowledged_messages (state : MailboxState) (envelope : Envelope) :
    (state.acknowledged envelope).messages = state.messages ∧
      (state.acknowledged envelope).primaryKeys = state.primaryKeys ∧
      (state.acknowledged envelope).envelopes = state.envelopes := by
  cases envelope with
  | ackChunk id requestId replyId address =>
      unfold MailboxState.acknowledged acknowledge
      dsimp only
      split <;> exact ⟨rfl, rfl, rfl⟩
  | request requestId address body => exact ⟨rfl, rfl, rfl⟩
  | interrupt id requestId address => exact ⟨rfl, rfl, rfl⟩

/-- The message that a saved envelope would repeat. -/
def originalId (primaryHash : String → String) (state : MailboxState) (envelope : Envelope)
    (primaryKey : Option String) : Snowflake :=
  ((primaryKey.map primaryHash).bind state.primaryKeys.get?).getD envelope.id

theorem saveEnvelope_of_stored {primaryHash : String → String} {state : MailboxState}
    {envelope : Envelope} {primaryKey : Option String} {existing : MessageMeta}
    (hstored : state.messages.get? (state.originalId primaryHash envelope primaryKey) =
      some existing) (deliverAt : Option ℚ) :
    state.saveEnvelope primaryHash envelope primaryKey deliverAt =
      .ok (state, .duplicate (state.originalId primaryHash envelope primaryKey)
        (state.lastReply existing.requestId (state.readState existing.requestId))) := by
  unfold originalId at hstored ⊢
  unfold MailboxState.saveEnvelope
  dsimp only
  rw [hstored]

theorem WellFormed.fresh_of_original {state : MailboxState} (h : state.WellFormed)
    {primaryHash : String → String} {envelope : Envelope} {primaryKey : Option String}
    (hnone : state.messages.get? (state.originalId primaryHash envelope primaryKey) = none) :
    state.messages.get? envelope.id = none ∧
      (primaryKey.map primaryHash).bind state.primaryKeys.get? = none := by
  unfold originalId at hnone
  cases hprimary : (primaryKey.map primaryHash).bind state.primaryKeys.get? with
  | none =>
      rw [hprimary] at hnone
      exact ⟨hnone, rfl⟩
  | some original =>
      rw [hprimary] at hnone
      obtain ⟨hash, -, hhash⟩ := Option.bind_eq_some_iff.mp hprimary
      obtain ⟨entry, hentry, -⟩ := h.primary hash original hhash
      rw [Option.getD_some, hentry] at hnone
      exact nomatch hnone

theorem WellFormed.saveEnvelope_of_new {state : MailboxState} (h : state.WellFormed)
    {primaryHash : String → String} {envelope : Envelope} {primaryKey : Option String}
    (hnone : state.messages.get? (state.originalId primaryHash envelope primaryKey) = none)
    (deliverAt : Option ℚ) :
    ∃ finish, state.saveEnvelope primaryHash envelope primaryKey deliverAt =
        .ok (finish, .success) ∧ finish.WellFormed ∧
      finish.replyStore = (state.acknowledged envelope).replyStore ∧
      finish.primaryKeys = primaryKey.elim state.primaryKeys
        (fun key => state.primaryKeys.set (primaryHash key) envelope.id) ∧
      finish.envelopes = state.envelopes.set envelope.id envelope ∧
      ∀ id, Option.Rel SameIdentity
        ((state.messages.set envelope.id
          (state.newMeta primaryHash envelope primaryKey deliverAt)).get? id)
        (finish.messages.get? id) := by
  obtain ⟨hfresh, -⟩ := h.fresh_of_original hnone
  obtain ⟨hmessages, hprimary, henvelopes⟩ := acknowledged_messages state envelope
  obtain ⟨finish, hinsert, hwell, hreplies, hkeys, henveloped, hstored⟩ :=
    @WellFormed.storeEnvelope _ (h.acknowledged envelope) envelope
      (state.newMeta primaryHash envelope primaryKey deliverAt)
      ((congrArg (fun messages => OrderedMap.get? messages envelope.id) hmessages).trans hfresh) rfl
  refine ⟨finish, ?_, hwell, hreplies, ?_, ?_, ?_⟩
  · unfold originalId at hnone
    unfold MailboxState.saveEnvelope
    dsimp only
    rw [hnone]
    cases envelope with
    | request requestId address body => exact bind_eq_ok.mpr ⟨finish, hinsert, rfl⟩
    | ackChunk id requestId replyId address => exact bind_eq_ok.mpr ⟨finish, hinsert, rfl⟩
    | interrupt id requestId address => exact bind_eq_ok.mpr ⟨finish, hinsert, rfl⟩
  · rw [hkeys, hprimary]
    cases primaryKey with
    | none => rfl
    | some key => rfl
  · rw [henveloped, henvelopes]
    rfl
  · rw [hmessages] at hstored
    exact hstored

/-! ## Clears -/

/-- A property that outlives stored metadata and removed messages. -/
structure Stable (K : MailboxState → Prop) : Prop where
  rewritten : ∀ state next, Rewritten state next → K state → K next
  removed : ∀ state entry next, state.WellFormed →
    state.messages.get? entry.id = some entry → state.removeMessage entry = .ok next →
      K state → K next

theorem Stable.and {K L : MailboxState → Prop} (hK : Stable K) (hL : Stable L) :
    Stable fun state => K state ∧ L state where
  rewritten := fun _ _ hrewritten h =>
    ⟨hK.rewritten _ _ hrewritten h.1, hL.rewritten _ _ hrewritten h.2⟩
  removed := fun _ _ _ hwell hentry hremove h =>
    ⟨hK.removed _ _ _ hwell hentry hremove h.1, hL.removed _ _ _ hwell hentry hremove h.2⟩

theorem Stable.imp {K : MailboxState → Prop} (hK : Stable K) (P : Prop) :
    Stable fun state => P → K state where
  rewritten := fun _ _ hrewritten h hP => hK.rewritten _ _ hrewritten (h hP)
  removed := fun _ _ _ hwell hentry hremove h hP => hK.removed _ _ _ hwell hentry hremove (h hP)

theorem replyStore_removeMessage {state next : MailboxState} {entry : MessageMeta}
    (h : state.removeMessage entry = .ok next) : next.replyStore = state.replyStore := by
  obtain ⟨order, -, hnext⟩ := bind_eq_ok.mp h
  cases hnext
  rfl

theorem stable_replyStore (P : ReplyStore → Prop) : Stable fun state => P state.replyStore where
  rewritten := fun state next hrewritten h => by
    rw [hrewritten.replyStore]
    exact h
  removed := fun state entry next _ _ hremove h => by
    rw [replyStore_removeMessage hremove]
    exact h

def Enveloped (state : MailboxState) : Prop :=
  ∀ id envelope, state.envelopes.get? id = some envelope →
    ∃ entry, state.messages.get? id = some entry ∧ entry.address = envelope.address

theorem Enveloped.congr {state next : MailboxState} (h : state.Enveloped)
    (hmessages : next.messages = state.messages) (henvelopes : next.envelopes = state.envelopes) :
    next.Enveloped := by
  unfold Enveloped
  rw [hmessages, henvelopes]
  exact h

theorem stable_enveloped : Stable Enveloped where
  rewritten := by
    intro state next hrewritten h id envelope henvelope
    rw [hrewritten.envelopes] at henvelope
    obtain ⟨old, hold, haddress⟩ := h id envelope henvelope
    obtain ⟨entry, hentry, hsame⟩ := hrewritten.new hold
    exact ⟨entry, hentry, hsame.address.trans haddress⟩
  removed := by
    intro state entry next _ _ hremove h id envelope henvelope
    obtain ⟨order, -, hnext⟩ := bind_eq_ok.mp hremove
    cases hnext
    dsimp only at henvelope ⊢
    rw [OrderedMap.get?_clear] at henvelope ⊢
    split_ifs at henvelope ⊢
    exact h id envelope henvelope

/-- The mailbox after the exit of a request is cleared, before its messages are visited. -/
def clearedReplies (state : MailboxState) (id : Snowflake) : MailboxState :=
  let requestState := state.readState id
  let cleared := requestState.exitId.elim state (state.clearExit id)
  { cleared with
    requestStates := cleared.requestStates.set id
      { requestState with lastReplyId := none, exitId := none } }

theorem clearedReplies_messages (state : MailboxState) (id : Snowflake) :
    (state.clearedReplies id).messages = state.messages ∧
      (state.clearedReplies id).primaryKeys = state.primaryKeys ∧
      (state.clearedReplies id).envelopes = state.envelopes := by
  unfold clearedReplies
  dsimp only
  cases (state.readState id).exitId with
  | none => exact ⟨rfl, rfl, rfl⟩
  | some exitId => exact ⟨rfl, rfl, rfl⟩

theorem WellFormed.clearedReplies {state : MailboxState} (h : state.WellFormed)
    (id : Snowflake) :
    (state.clearedReplies id).WellFormed ∧ Continues state (state.clearedReplies id) := by
  unfold MailboxState.clearedReplies
  dsimp only
  cases (state.readState id).exitId with
  | none => exact ⟨h.setReplies _ _ _ _ _, continues_setReplies state _ _ _ _ _⟩
  | some exitId => exact ⟨h.setReplies _ _ _ _ _, continues_setReplies state _ _ _ _ _⟩

theorem WellFormed.removeTrimming {state : MailboxState} (h : state.WellFormed)
    {entry : MessageMeta} (hentry : state.messages.get? entry.id = some entry)
    {K : MailboxState → Prop} (hK : Stable K) (hstart : K state) :
    ∃ next, state.removeMessage entry = .ok next ∧ next.WellFormed ∧ Continues state next ∧
      (∀ id, id ≠ entry.id → next.messages.get? id = state.messages.get? id) ∧
      next.messages.get? entry.id = none ∧ K next := by
  obtain ⟨next, hremove, hwell, hcontinues, hmessages, -⟩ := h.removeMessage hentry
  refine ⟨next, hremove, hwell, hcontinues, ?_, ?_, hK.removed _ _ _ h hentry hremove hstart⟩
  · intro id hid
    rw [hmessages, OrderedMap.get?_clear_of_ne _ hid]
  · rw [hmessages, OrderedMap.get?_clear_self]

/-- A clear of replies without an expected one removes the interrupts of the request. -/
def isCleared (id : Snowflake) (expectedReplyId : Option Snowflake) (entry : MessageMeta) : Prop :=
  entry.requestId = id ∧ entry.kind = .interrupt ∧ expectedReplyId = none

theorem clearReplies_of_unexpected {state : MailboxState} {id : Snowflake}
    {expectedReplyId : Option Snowflake}
    (h : expectedReplyId ≠ none ∧ (state.readState id).lastReplyId ≠ expectedReplyId) :
    state.clearReplies id expectedReplyId = .ok state :=
  if_pos h

theorem WellFormed.clearReplies_trims {state : MailboxState} (h : state.WellFormed)
    {id : Snowflake} {expectedReplyId : Option Snowflake}
    (hexpected : ¬ (expectedReplyId ≠ none ∧
      (state.readState id).lastReplyId ≠ expectedReplyId)) {K : MailboxState → Prop}
    (hK : Stable K) (hstart : K (state.clearedReplies id)) :
    ∃ finish, state.clearReplies id expectedReplyId = .ok finish ∧ finish.WellFormed ∧
      Continues state finish ∧ Trims (isCleared id expectedReplyId) state finish ∧ K finish := by
  obtain ⟨hwell, hcontinues⟩ := h.clearedReplies id
  have hrule := @WellFormed.visitTrimming _ _
    messagesByRequest (fun row => (ofLex row).1 = id) (fun row => (ofLex row).2) requestRow
    (fun _ hwell => hwell.byRequest) (fun _ _ => requestRow_congr) (fun _ => rfl)
    (fun _ entry middle =>
      if entry.kind = .interrupt ∧ expectedReplyId = none then middle.removeMessage entry
      else middle.writeMessage { entry with processed := false, claimedAt := none }
        { state.readState id with lastReplyId := none, exitId := none })
    (isCleared id expectedReplyId) K (state.clearedReplies id) hwell ?_ ?_ ?_ hstart
  · obtain ⟨finish, hvisit, hfinish, hcontinues', ⟨hremoved, hkept⟩, hend⟩ := hrule
    rw [(clearedReplies_messages state id).1] at hremoved hkept
    exact ⟨finish, (if_neg hexpected).trans hvisit, hfinish, hcontinues.trans hcontinues',
      ⟨hremoved, hkept⟩, hend⟩
  · rintro old entry hsame ⟨hid, hkind, hnone⟩
    exact ⟨hsame.requestId.trans hid, hsame.kind.trans hkind, hnone⟩
  · exact fun entry hcleared => decide_eq_true hcleared.1
  · intro middle entry hmiddle hentry hinrange hmiddleK
    split_ifs with hremove
    · obtain ⟨next, hnext, hwell', hcontinues', hothers, hgone, hnextK⟩ :=
        hmiddle.removeTrimming hentry hK hmiddleK
      exact ⟨next, hnext, hwell', hcontinues', hothers,
        iff_of_true hgone ⟨decide_eq_true_eq.mp hinrange, hremove⟩, hnextK⟩
    · obtain ⟨next, hnext, hwell', hrewritten, hothers⟩ := @WellFormed.rewriteMessage middle
        hmiddle entry { entry with processed := false, claimedAt := none } hentry
        ⟨rfl, rfl, rfl, rfl, rfl⟩ rfl
        { state.readState id with lastReplyId := none, exitId := none }
      refine ⟨next, hnext, hwell', hrewritten.continues, hothers, ?_,
        hK.rewritten _ _ hrewritten hmiddleK⟩
      obtain ⟨entry', hentry', -⟩ := hrewritten.new hentry
      rw [hentry']
      exact iff_of_false nofun fun hcleared => hremove hcleared.2

theorem WellFormed.clearAddress_trims {state : MailboxState} (h : state.WellFormed)
    (entityType entityId : String) {K : MailboxState → Prop} (hK : Stable K)
    (hrequest : ∀ state id, K state → K (state.clearRequest id)) (hstart : K state) :
    ∃ finish, state.clearAddress entityType entityId = .ok finish ∧ finish.WellFormed ∧
      Continues state finish ∧ Trims (IsAt entityType entityId) state finish ∧ K finish := by
  apply @WellFormed.visitTrimming _ _ messagesByAddress
    (fun row => (ofLex row).1 = entityType ∧ (ofLex (ofLex row).2).1 = entityId)
    addressMessageId addressRow (fun _ hwell => hwell.byAddress) (fun _ _ => addressRow_congr)
    (fun _ => rfl)
    (fun id entry state =>
      (if entry.kind = .request then state.clearRequest id else state).removeMessage entry)
    (IsAt entityType entityId) K state h ?_ ?_ ?_ hstart
  · rintro old entry hsame ⟨htype, hid⟩
    exact ⟨(congrArg EntityAddress.entityType hsame.address).trans htype,
      (congrArg EntityAddress.entityId hsame.address).trans hid⟩
  · exact fun entry hat => decide_eq_true hat
  · intro middle entry hmiddle hentry hinrange hmiddleK
    have hat : IsAt entityType entityId entry := decide_eq_true_eq.mp hinrange
    split_ifs with hkind
    · have hwell : (middle.clearRequest entry.id).WellFormed := hmiddle.setReplies _ _ _ _ _
      obtain ⟨next, hnext, hwell', hcontinues, hothers, hgone, hnextK⟩ :=
        hwell.removeTrimming hentry hK (hrequest _ _ hmiddleK)
      have hbefore : Continues middle (middle.clearRequest entry.id) :=
        continues_setReplies middle _ _ _ _ _
      exact ⟨next, hnext, hwell', hbefore.trans hcontinues, hothers, iff_of_true hgone hat, hnextK⟩
    · obtain ⟨next, hnext, hwell', hcontinues, hothers, hgone, hnextK⟩ :=
        hmiddle.removeTrimming hentry hK hmiddleK
      exact ⟨next, hnext, hwell', hcontinues, hothers, iff_of_true hgone hat, hnextK⟩

/-! ## Transactions -/

def transact (primaryHash : String → String) (state : MailboxState) (operation : Operation) :
    MailboxState × Option MailboxError :=
  match state.run primaryHash operation with
  | .ok finish => (finish.commit, none)
  | .error cause => (state, some cause)

def after (primaryHash : String → String) (state : MailboxState) (operations : List Operation) :
    MailboxState :=
  operations.foldl (fun state operation => (state.transact primaryHash operation).1) state

theorem transact_rule {primaryHash : String → String} {P : MailboxState → Prop}
    (hrun : ∀ state finish operation, P state → state.run primaryHash operation = .ok finish →
      P finish.commit) {state : MailboxState} (h : P state) (operation : Operation) :
    P (state.transact primaryHash operation).1 := by
  unfold transact
  split
  · rename_i finish hfinish
    exact hrun state finish operation h hfinish
  · exact h

theorem after_rule {primaryHash : String → String} {P : MailboxState → Prop}
    (hrun : ∀ state finish operation, P state → state.run primaryHash operation = .ok finish →
      P finish.commit) (operations : List Operation) {state : MailboxState} (h : P state) :
    P (state.after primaryHash operations) := by
  induction operations generalizing state with
  | nil => exact h
  | cons operation operations ih => exact ih (transact_rule hrun h operation)

end MailboxState

end FoundationDbEffect.Cluster
