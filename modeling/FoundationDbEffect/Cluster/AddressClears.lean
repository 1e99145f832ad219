import FoundationDbEffect.Cluster.PrimaryKeys

/-!
# Clearing an entity

A clear of an address takes all rows of the messages of its entity in any shard, and the replies
and the states of its requests. All other rows stay as they are. The clear may run in the
transaction that has enqueued some of the messages.
-/

namespace FoundationDbEffect.Cluster

open FoundationDbEffect.Foundation

/-- The replies and the states that are left when those of some requests are gone. -/
structure ReplyStore.Without (gone : Snowflake → Prop) (store next : ReplyStore) : Prop where
  replies : OrderedMap.Without (fun row _ => gone (ofLex row).1) store.replies next.replies
  replyMetadata : OrderedMap.Without (fun row _ => gone (ofLex row).1) store.replyMetadata
    next.replyMetadata
  replyIds : OrderedMap.Without (fun row _ => gone (ofLex row).1) store.replyIds next.replyIds
  uniqueReplies : OrderedMap.Without (fun row _ => gone (ofLex row).1) store.uniqueReplies
    next.uniqueReplies
  requestStates : OrderedMap.Without (fun id _ => gone id) store.requestStates next.requestStates

namespace ReplyStore.Without

variable {store middle next : ReplyStore} {gone gone' : Snowflake → Prop}

theorem refl (store : ReplyStore) : store.Without (fun _ => False) store :=
  ⟨.refl _, .refl _, .refl _, .refl _, .refl _⟩

theorem trans (h : store.Without gone middle) (h' : middle.Without gone' next) :
    store.Without (fun id => gone id ∨ gone' id) next where
  replies := h.replies.trans h'.replies
  replyMetadata := h.replyMetadata.trans h'.replyMetadata
  replyIds := h.replyIds.trans h'.replyIds
  uniqueReplies := h.uniqueReplies.trans h'.uniqueReplies
  requestStates := h.requestStates.trans h'.requestStates

theorem congr (h : store.Without gone next) (hgone : ∀ id, gone id ↔ gone' id) :
    store.Without gone' next where
  replies := h.replies.congr fun _ _ _ => hgone _
  replyMetadata := h.replyMetadata.congr fun _ _ _ => hgone _
  replyIds := h.replyIds.congr fun _ _ _ => hgone _
  uniqueReplies := h.uniqueReplies.congr fun _ _ _ => hgone _
  requestStates := h.requestStates.congr fun _ _ _ => hgone _

end ReplyStore.Without

namespace MailboxState

theorem without_clearRequest (state : MailboxState) (id : Snowflake) :
    state.replyStore.Without (fun id' => id' = id) (state.clearRequest id).replyStore where
  replies := (OrderedMap.without_clearRange _ _).congr fun _ _ _ => decide_eq_true_iff
  replyMetadata := (OrderedMap.without_clearRange _ _).congr fun _ _ _ => decide_eq_true_iff
  replyIds := (OrderedMap.without_clearRange _ _).congr fun _ _ _ => decide_eq_true_iff
  uniqueReplies := (OrderedMap.without_clearRange _ _).congr fun _ _ _ => decide_eq_true_iff
  requestStates := OrderedMap.without_clear _ _

/-! ## The clear message by message -/

/-- What is left of a mailbox while the messages of some rows are still to be removed. -/
structure ClearedUpTo (entityType entityId : String) (removed : Snowflake → Prop)
    (state next : MailboxState) (rest : List (String ×ₗ String ×ₗ String ×ₗ Snowflake)) :
    Prop where
  addressed : ∀ id, removed id →
    ∃ entry, state.messages.get? id = some entry ∧ IsAt entityType entityId entry
  messages : OrderedMap.Without (fun id _ => removed id) state.messages next.messages
  envelopes : OrderedMap.Without (fun id _ => removed id) state.envelopes next.envelopes
  replies : state.replyStore.Without (fun id => removed id ∧
    ∃ entry, state.messages.get? id = some entry ∧ entry.kind = .request) next.replyStore
  remaining : ∀ id entry, next.messages.get? id = some entry →
    IsAt entityType entityId entry → addressRow entry ∈ rest

theorem ClearedUpTo.start {state : MailboxState} (h : state.WellFormed)
    (entityType entityId : String) :
    ClearedUpTo entityType entityId (fun _ => False) state state
      (state.messagesByAddress.keysAfter
        (fun row => (ofLex row).1 = entityType ∧ (ofLex (ofLex row).2).1 = entityId) none) where
  addressed := nofun
  messages := .refl _
  envelopes := .refl _
  replies := (ReplyStore.Without.refl _).congr fun _ => by simp
  remaining := by
    intro id entry hentry hat
    apply OrderedMap.mem_keysAfter.mpr
    refine ⟨decide_eq_true hat, rfl, ?_⟩
    rw [(h.byAddress _).mpr ⟨id, entry, hentry, rfl⟩]
    rfl

theorem envelopes_removeMessage {state next : MailboxState} {entry : MessageMeta}
    (h : state.removeMessage entry = .ok next) :
    next.envelopes = state.envelopes.clear entry.id := by
  obtain ⟨order, -, hnext⟩ := bind_eq_ok.mp h
  cases hnext
  rfl

theorem ClearedUpTo.remove {entityType entityId : String} {removed : Snowflake → Prop}
    {state middle : MailboxState} {entry : MessageMeta}
    {rest : List (String ×ₗ String ×ₗ String ×ₗ Snowflake)}
    (h : ClearedUpTo entityType entityId removed state middle (addressRow entry :: rest))
    (hwell : middle.WellFormed) (hentry : middle.messages.get? entry.id = some entry)
    (hat : IsAt entityType entityId entry) :
    ∃ next, (if entry.kind = .request then middle.clearRequest entry.id else middle).removeMessage
        entry = .ok next ∧ next.WellFormed ∧ Continues middle next ∧
      (∀ id, id ≠ entry.id → next.messages.get? id = middle.messages.get? id) ∧
      ClearedUpTo entityType entityId (fun id => removed id ∨ id = entry.id) state next rest := by
  obtain ⟨cleared, hcleared, hwell', hcontinues, hmessages, henvelopes, hreplies⟩ : ∃ cleared,
      (if entry.kind = .request then middle.clearRequest entry.id else middle) = cleared ∧
        cleared.WellFormed ∧ Continues middle cleared ∧ cleared.messages = middle.messages ∧
        cleared.envelopes = middle.envelopes ∧
        middle.replyStore.Without (fun id => id = entry.id ∧ entry.kind = .request)
          cleared.replyStore := by
    split_ifs with hkind
    · refine ⟨_, rfl, hwell.setReplies _ _ _ _ _, continues_setReplies middle _ _ _ _ _, rfl, rfl,
        (without_clearRequest middle entry.id).congr fun id => ?_⟩
      simp [hkind]
    · refine ⟨middle, rfl, hwell, .refl middle, rfl, rfl,
        (ReplyStore.Without.refl _).congr fun id => ?_⟩
      simp [hkind]
  rw [hcleared]
  have hpresent : cleared.messages.get? entry.id = some entry := by rw [hmessages, hentry]
  obtain ⟨next, hremove, hwell'', hcontinues', hnext, -⟩ := hwell'.removeMessage hpresent
  have hget (id : Snowflake) : next.messages.get? id =
      if id = entry.id then none else middle.messages.get? id := by
    rw [hnext, hmessages, OrderedMap.get?_clear]
  obtain ⟨hold, hkept⟩ := (h.messages entry.id entry).mp hentry
  refine ⟨next, hremove, hwell'', hcontinues.trans hcontinues', ?_, ?_⟩
  · intro id hid
    rw [hget, if_neg hid]
  · constructor
    case addressed =>
      rintro id (hremoved | rfl)
      · exact h.addressed id hremoved
      · exact ⟨entry, hold, hat⟩
    case messages =>
      rw [hnext, hmessages]
      exact h.messages.trans (OrderedMap.without_clear _ _)
    case envelopes =>
      rw [envelopes_removeMessage hremove, henvelopes]
      exact h.envelopes.trans (OrderedMap.without_clear _ _)
    case replies =>
      rw [replyStore_removeMessage hremove]
      refine (h.replies.trans hreplies).congr fun id => ?_
      rw [or_and_right]
      refine or_congr_right (and_congr_right ?_)
      rintro rfl
      simp [hold]
    case remaining =>
      intro id other hother hat'
      rw [hget] at hother
      split_ifs at hother with hid
      rcases List.mem_cons.mp (h.remaining id other hother hat') with hrow | hmem
      · refine absurd ?_ hid
        rw [← hwell.keyed id other hother]
        exact id_of_addressRow _ _ hrow
      · exact hmem

/-! ## The whole clear -/

def Addressed (state : MailboxState) (entityType entityId : String) (id : Snowflake) : Prop :=
  ∃ entry, state.messages.get? id = some entry ∧ IsAt entityType entityId entry

def Requested (state : MailboxState) (entityType entityId : String) (id : Snowflake) : Prop :=
  ∃ entry, state.messages.get? id = some entry ∧ IsAt entityType entityId entry ∧
    entry.kind = .request

/-- The rows of all key families but those of the messages of an entity and of the replies and
states of its requests. -/
structure Cleared (entityType entityId : String) (state next : MailboxState) : Prop where
  messages : OrderedMap.Without (fun id _ => state.Addressed entityType entityId id)
    state.messages next.messages
  envelopes : OrderedMap.Without (fun id _ => state.Addressed entityType entityId id)
    state.envelopes next.envelopes
  orders : OrderedMap.Without (fun id _ => state.Addressed entityType entityId id)
    state.polling.order.orders next.polling.order.orders
  ready : ∀ space, OrderedMap.Without
    (fun row _ => state.Addressed entityType entityId (ReadyRow.id row))
    (state.polling.order.rows space) (next.polling.order.rows space)
  scheduled : ∀ space, OrderedMap.Without
    (fun row _ => state.Addressed entityType entityId (ScheduledRow.id row))
    (state.polling.scheduled space) (next.polling.scheduled space)
  byShard : OrderedMap.Without (fun row _ => state.Addressed entityType entityId (ofLex row).2)
    state.messagesByShard next.messagesByShard
  byAddress : OrderedMap.Without
    (fun row _ => state.Addressed entityType entityId (addressMessageId row))
    state.messagesByAddress next.messagesByAddress
  byRequest : OrderedMap.Without (fun row _ => state.Addressed entityType entityId (ofLex row).2)
    state.messagesByRequest next.messagesByRequest
  primaryKeys : OrderedMap.Without (fun _ id => state.Addressed entityType entityId id)
    state.primaryKeys next.primaryKeys
  replies : state.replyStore.Without (state.Requested entityType entityId) next.replyStore

structure Vacant (entityType entityId : String) (state : MailboxState) : Prop where
  messages : ∀ id entry, state.messages.get? id = some entry → ¬ IsAt entityType entityId entry
  envelopes : ∀ id envelope, state.envelopes.get? id = some envelope →
    ¬ (envelope.address.entityType = entityType ∧ envelope.address.entityId = entityId)
  byAddress : ∀ row, state.messagesByAddress.get? row = some () →
    ¬ ((ofLex row).1 = entityType ∧ (ofLex (ofLex row).2).1 = entityId)
  ready : ∀ shard row, ¬ state.polling.order.HasRow (.address entityType entityId shard) row
  scheduled : ∀ shard row, ¬ state.polling.HasTimer (.address entityType entityId shard) row

theorem IndexOf.without {α : Type} [LinearOrder α] {state next : MailboxState}
    {index index' : OrderedMap α Unit} {rowOf : MessageMeta → α} {messageId : α → Snowflake}
    (hindex : IndexOf state.messages index rowOf) (hindex' : IndexOf next.messages index' rowOf)
    (hwell : state.WellFormed) (hid : ∀ entry, messageId (rowOf entry) = entry.id)
    {gone : Snowflake → Prop}
    (h : OrderedMap.Without (fun id _ => gone id) state.messages next.messages) :
    OrderedMap.Without (fun row _ => gone (messageId row)) index index' := by
  intro row _
  rw [hindex row, hindex' row]
  constructor
  · rintro ⟨id, entry, hentry, rfl⟩
    obtain ⟨hold, hkept⟩ := (h id entry).mp hentry
    refine ⟨⟨id, entry, hold, rfl⟩, ?_⟩
    dsimp only
    rwa [hid, hwell.keyed id entry hold]
  · rintro ⟨⟨id, entry, hentry, rfl⟩, hkept⟩
    dsimp only at hkept
    rw [hid, hwell.keyed id entry hentry] at hkept
    exact ⟨id, entry, (h id entry).mpr ⟨hentry, hkept⟩, rfl⟩

/-- The rows of all indexes follow from the messages that are left, and so do the orders and the
primary keys. -/
theorem cleared_of_messages {entityType entityId : String} {state next : MailboxState}
    (hwell : state.WellFormed) (hdeduplicated : state.Deduplicated) (hwell' : next.WellFormed)
    (hdeduplicated' : next.Deduplicated) (hcontinues : Continues state next)
    (hmessages : OrderedMap.Without (fun id _ => state.Addressed entityType entityId id)
      state.messages next.messages)
    (henvelopes : OrderedMap.Without (fun id _ => state.Addressed entityType entityId id)
      state.envelopes next.envelopes)
    (hreplies : state.replyStore.Without (state.Requested entityType entityId) next.replyStore) :
    Cleared entityType entityId state next := by
  have hstored {id : Snowflake} {entry : MessageMeta} (hentry : next.messages.get? id = some entry) :
      next.polling.order.orders.get? id = state.polling.order.orders.get? id :=
    hcontinues.orders id (by rw [hentry]; rfl)
  constructor
  case messages => exact hmessages
  case envelopes => exact henvelopes
  case replies => exact hreplies
  case byShard => exact hwell.byShard.without hwell'.byShard hwell (fun _ => rfl) hmessages
  case byAddress => exact hwell.byAddress.without hwell'.byAddress hwell (fun _ => rfl) hmessages
  case byRequest => exact hwell.byRequest.without hwell'.byRequest hwell (fun _ => rfl) hmessages
  case orders =>
    intro id stamp
    constructor
    · intro hstamp
      cases hentry : next.messages.get? id with
      | none => exact nomatch (hwell'.untracked id hentry).orders.symm.trans hstamp
      | some entry =>
          rw [hstored hentry] at hstamp
          exact ⟨hstamp, ((hmessages id entry).mp hentry).2⟩
    · rintro ⟨hstamp, hkept⟩
      cases hentry : state.messages.get? id with
      | none => exact nomatch (hwell.untracked id hentry).orders.symm.trans hstamp
      | some entry => rwa [hstored ((hmessages id entry).mpr ⟨hentry, hkept⟩)]
  case ready =>
    intro space row _
    change next.polling.order.HasRow space row ↔ state.polling.order.HasRow space row ∧ _
    rw [hwell.hasRow_iff, hwell'.hasRow_iff]
    constructor
    · rintro ⟨entry, hentry, hready, hspace, hstamp⟩
      obtain ⟨hold, hkept⟩ := (hmessages _ entry).mp hentry
      rw [hstored hentry] at hstamp
      exact ⟨⟨entry, hold, hready, hspace, hstamp⟩, hkept⟩
    · rintro ⟨⟨entry, hold, hready, hspace, hstamp⟩, hkept⟩
      have hentry := (hmessages _ entry).mpr ⟨hold, hkept⟩
      rw [← hstored hentry] at hstamp
      exact ⟨entry, hentry, hready, hspace, hstamp⟩
  case scheduled =>
    intro space row _
    change next.polling.HasTimer space row ↔ state.polling.HasTimer space row ∧ _
    rw [hwell.hasTimer_iff, hwell'.hasTimer_iff]
    constructor
    · rintro ⟨entry, hentry, htimer, hspace⟩
      obtain ⟨hold, hkept⟩ := (hmessages _ entry).mp hentry
      exact ⟨⟨entry, hold, htimer, hspace⟩, hkept⟩
    · rintro ⟨⟨entry, hold, htimer, hspace⟩, hkept⟩
      exact ⟨entry, (hmessages _ entry).mpr ⟨hold, hkept⟩, htimer, hspace⟩
  case primaryKeys =>
    intro hash id
    constructor
    · intro hprimary
      obtain ⟨entry, hentry, hkey⟩ := hwell'.primary hash id hprimary
      obtain ⟨hold, hkept⟩ := (hmessages id entry).mp hentry
      exact ⟨hdeduplicated id entry hash hold hkey, hkept⟩
    · rintro ⟨hprimary, hkept⟩
      obtain ⟨entry, hentry, hkey⟩ := hwell.primary hash id hprimary
      exact hdeduplicated' id entry hash ((hmessages id entry).mpr ⟨hentry, hkept⟩) hkey

theorem vacant_of_messages {entityType entityId : String} {state : MailboxState}
    (hwell : state.WellFormed) (henveloped : state.Enveloped)
    (h : ∀ id entry, state.messages.get? id = some entry → ¬ IsAt entityType entityId entry) :
    Vacant entityType entityId state where
  messages := h
  envelopes := by
    rintro id envelope henvelope hat
    obtain ⟨entry, hentry, haddress⟩ := henveloped id envelope henvelope
    rw [← haddress] at hat
    exact h id entry hentry hat
  byAddress := by
    rintro row hrow hat
    obtain ⟨id, entry, hentry, rfl⟩ := (hwell.byAddress row).mp hrow
    exact h id entry hentry hat
  ready := by
    rintro shard row hrow
    obtain ⟨entry, hentry, -, hspace, -⟩ := (hwell.hasRow_iff _ row).mp hrow
    refine h _ entry hentry ?_
    obtain ⟨htype, hid, -⟩ : entityType = entry.address.entityType ∧
        entityId = entry.address.entityId ∧ shard = entry.address.shardId.toString := by
      simpa [pollingIndexes, addressKey] using hspace
    exact ⟨htype.symm, hid.symm⟩
  scheduled := by
    rintro shard row hrow
    obtain ⟨entry, hentry, -, hspace⟩ := (hwell.hasTimer_iff _ row).mp hrow
    refine h _ entry hentry ?_
    obtain ⟨htype, hid, -⟩ : entityType = entry.address.entityType ∧
        entityId = entry.address.entityId ∧ shard = entry.address.shardId.toString := by
      simpa [pollingIndexes, addressKey] using hspace
    exact ⟨htype.symm, hid.symm⟩

theorem WellFormed.clearAddress_cleared {state : MailboxState} (h : state.WellFormed)
    (entityType entityId : String) :
    ∃ finish removed, state.clearAddress entityType entityId = .ok finish ∧ finish.WellFormed ∧
      Continues state finish ∧ ClearedUpTo entityType entityId removed state finish [] := by
  obtain ⟨finish, hvisit, hwell, hcontinues, removed, hcleared⟩ := @WellFormed.visitStored _ _
    messagesByAddress
    (fun row => (ofLex row).1 = entityType ∧ (ofLex (ofLex row).2).1 = entityId)
    addressMessageId addressRow (fun _ hwell => hwell.byAddress) (fun _ _ => addressRow_congr)
    (fun _ => rfl)
    (fun id entry state =>
      (if entry.kind = .request then state.clearRequest id else state).removeMessage entry)
    (fun middle rest => ∃ removed, ClearedUpTo entityType entityId removed state middle rest)
    state h (by
      rintro middle entry rest hwell _ hentry hrange ⟨removed, hmiddle⟩
      obtain ⟨next, hnext, hwell', hcontinues, hothers, hcleared⟩ :=
        hmiddle.remove hwell hentry (decide_eq_true_eq.mp hrange)
      exact ⟨next, hnext, hwell', hcontinues, hothers, _, hcleared⟩)
    ⟨_, .start h entityType entityId⟩
  exact ⟨finish, removed, hvisit, hwell, hcontinues, hcleared⟩

/-! ## Reachable mailboxes -/

inductive Reached (primaryHash : String → String) : MailboxState → Prop where
  | start (readVersion : Nat) : Reached primaryHash (empty readVersion)
  | run {state next : MailboxState} (operation : Operation) (h : Reached primaryHash state)
      (hrun : state.run primaryHash operation = .ok next) : Reached primaryHash next
  | commit {state : MailboxState} (h : Reached primaryHash state) :
      Reached primaryHash state.commit

theorem Reached.invariant {primaryHash : String → String} {state : MailboxState}
    (h : Reached primaryHash state) :
    state.WellFormed ∧ state.Deduplicated ∧ state.Enveloped := by
  induction h with
  | start readVersion =>
      exact ⟨wellFormed_empty readVersion, by simp [Deduplicated, MailboxState.empty],
        by simp [Enveloped, MailboxState.empty]⟩
  | run operation _ hrun ih =>
      obtain ⟨hwell, hdeduplicated, henveloped⟩ := ih
      have hran := (hwell.run_transacts primaryHash hdeduplicated operation).1 _ hrun
      exact ⟨hran.wellFormed, hran.deduplicated, hran.enveloped henveloped⟩
  | commit _ ih =>
      obtain ⟨hwell, hdeduplicated, henveloped⟩ := ih
      exact ⟨hwell.commit, hdeduplicated, henveloped⟩

/-- A clear leaves nothing of an entity, and all else as it was. -/
theorem clearAddress_exact {primaryHash : String → String} {state : MailboxState}
    (h : Reached primaryHash state) (entityType entityId : String) :
    ∃ next, state.clearAddress entityType entityId = .ok next ∧
      Cleared entityType entityId state next ∧ Vacant entityType entityId next := by
  obtain ⟨hwell, hdeduplicated, henveloped⟩ := h.invariant
  obtain ⟨next, removed, hclear, hwell', hcontinues, hcleared⟩ :=
    hwell.clearAddress_cleared entityType entityId
  have hran : Transacted primaryHash (.clearAddress entityType entityId) state next :=
    (hwell.run_transacts primaryHash hdeduplicated (.clearAddress entityType entityId)).1 _ hclear
  have hremoved (id : Snowflake) : removed id ↔ state.Addressed entityType entityId id := by
    refine ⟨hcleared.addressed id, ?_⟩
    rintro ⟨entry, hentry, hat⟩
    by_contra hkept
    exact List.not_mem_nil
      (hcleared.remaining id entry ((hcleared.messages id entry).mpr ⟨hentry, hkept⟩) hat)
  refine ⟨next, hclear, cleared_of_messages hwell hdeduplicated hwell' hran.deduplicated hcontinues
    (hcleared.messages.congr fun id _ _ => hremoved id)
    (hcleared.envelopes.congr fun id _ _ => hremoved id)
    (hcleared.replies.congr fun id => ?_),
    vacant_of_messages hwell' (hran.enveloped henveloped) ?_⟩
  · rw [hremoved]
    constructor
    · rintro ⟨⟨entry, hentry, hat⟩, entry', hentry', hkind⟩
      rw [hentry, Option.some.injEq] at hentry'
      exact ⟨entry, hentry, hat, hentry' ▸ hkind⟩
    · rintro ⟨entry, hentry, hat, hkind⟩
      exact ⟨⟨entry, hentry, hat⟩, entry, hentry, hkind⟩
  · intro id entry hentry hat
    exact List.not_mem_nil (hcleared.remaining id entry hentry hat)

def interruptedRequest : Except MailboxError MailboxState := do
  let state ← (empty 0).run id
    (.saveEnvelope (.request 1 (userAddress "a") "{}") (some "key") none)
  state.commit.run id (.saveEnvelope (.interrupt 3 1 (userAddress "a")) none none)

theorem clearAddress_exact_interruptedRequest : ∃ state, interruptedRequest = .ok state ∧
    state.polling.order.pending.map Pending.id = [3] ∧
    ∃ next, state.clearAddress "user" "a" = .ok next ∧
      Cleared "user" "a" state next ∧ Vacant "user" "a" next := by
  obtain ⟨state, hstate, hpending⟩ := @exists_of_toOption _ _ interruptedRequest
    (fun state => decide (state.polling.order.pending.map Pending.id = [3])) (by decide +kernel)
  obtain ⟨first, hfirst, hsecond⟩ := bind_eq_ok.mp hstate
  have hreached : Reached id state := .run _ (.commit (.run _ (.start 0) hfirst)) hsecond
  exact ⟨state, hstate, decide_eq_true_eq.mp hpending, clearAddress_exact hreached "user" "a"⟩

end MailboxState

end FoundationDbEffect.Cluster
