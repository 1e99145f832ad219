import FoundationDbEffect.Cluster.Polling
import FoundationDbEffect.Foundation.Transition

/-!
# The invariant of the mailbox indexes

After every committed operation the polling of each message is that of the state of its
request, and the ready and scheduled indexes have the rows of the stored messages only.
Clearing an address discards the states of its requests without a look at their messages at
other addresses, so it keeps the invariant when these are polled as before.
-/

namespace FoundationDbEffect.Cluster

open FoundationDbEffect.Foundation

namespace MailboxState

/-! ## Updates of one message -/

/-- One message is rewritten or removed, and its polling is that of the state of its request. -/
structure Settles (entry : MessageMeta) (state next : MailboxState) : Prop where
  wellFormed : next.WellFormed
  continues : Continues state next
  requestStates : next.requestStates = state.requestStates
  others : ∀ id, id ≠ entry.id → next.messages.get? id = state.messages.get? id
  agrees : ∀ entry', next.messages.get? entry.id = some entry' →
    Agrees entry' (state.readState entry'.requestId)

theorem readState_congr {state next : MailboxState}
    (h : next.requestStates = state.requestStates) (id : Snowflake) :
    next.readState id = state.readState id := by
  rw [readState, readState, h]

theorem WellFormed.writeMessage {state : MailboxState} (h : state.WellFormed)
    {old entry : MessageMeta} (hold : state.messages.get? old.id = some old)
    (hsame : SameIdentity old entry) (hpolling : entry.polling = old.polling) :
    ∃ next, state.writeMessage entry (state.readState entry.requestId) = .ok next ∧
      Settles old state next ∧ Rewritten state next := by
  rw [← hsame.id] at hold
  obtain ⟨next, hset, hindexed, hrewritten, hmessages, -⟩ := h.toIndexed.setPolling hold hsame
    hpolling (pollingState entry (state.readState entry.requestId))
  refine ⟨next, hset, ⟨hrewritten.wellFormed h hindexed, hrewritten.continues,
    hrewritten.requestStates, ?_, ?_⟩, hrewritten⟩
  · intro id hid
    rw [← hsame.id] at hid
    rw [hmessages, OrderedMap.get?_set_of_ne _ _ hid]
  · intro entry' hentry
    rw [← hsame.id, hmessages, OrderedMap.get?_set_self, Option.some.injEq] at hentry
    rw [← hentry]
    exact .inl rfl

theorem WellFormed.removeSettles {state : MailboxState} (h : state.WellFormed)
    {entry : MessageMeta} (hentry : state.messages.get? entry.id = some entry) :
    ∃ next, state.removeMessage entry = .ok next ∧ Settles entry state next := by
  obtain ⟨next, hremove, hwell, hcontinues, hmessages, hstates⟩ := h.removeMessage hentry
  refine ⟨next, hremove, hwell, hcontinues, hstates, ?_, ?_⟩
  · intro id hid
    rw [hmessages, OrderedMap.get?_clear_of_ne _ hid]
  · intro entry' hentry'
    rw [hmessages, OrderedMap.get?_clear_self] at hentry'
    exact nomatch hentry'

theorem Settles.agreed {entry : MessageMeta} {state next : MailboxState}
    (h : Settles entry state next) (hagreed : state.Agreed) : next.Agreed := by
  intro id other hother
  rw [readState_congr h.requestStates]
  rcases eq_or_ne id entry.id with rfl | hne
  · exact h.agrees other hother
  · rw [h.others id hne] at hother
    exact hagreed id other hother

/-! ## Visits of an index -/

theorem IndexOf.get?_of_ne {α : Type} [LinearOrder α] {state next : MailboxState}
    {index index' : OrderedMap α Unit} {rowOf : MessageMeta → α} {entry : MessageMeta}
    (hindex : IndexOf state.messages index rowOf) (hindex' : IndexOf next.messages index' rowOf)
    (hrow : ∀ old entry, SameIdentity old entry → rowOf entry = rowOf old)
    (hcontinues : Continues state next) (hentry : state.messages.get? entry.id = some entry)
    (hothers : ∀ id, id ≠ entry.id → next.messages.get? id = state.messages.get? id)
    {row : α} (hne : row ≠ rowOf entry) : index'.get? row = index.get? row := by
  have hiff : index'.get? row = some () ↔ index.get? row = some () := by
    rw [hindex row, hindex' row]
    constructor
    · rintro ⟨id, other, hother, rfl⟩
      rcases eq_or_ne id entry.id with rfl | hid
      · obtain ⟨old, hold, hsame⟩ := hcontinues.messages _ other hother
        rw [hentry, Option.some.injEq] at hold
        subst hold
        exact absurd (hrow entry other hsame) hne
      · rw [hothers id hid] at hother
        exact ⟨id, other, hother, rfl⟩
    · rintro ⟨id, other, hother, rfl⟩
      rcases eq_or_ne id entry.id with rfl | hid
      · rw [hentry, Option.some.injEq] at hother
        subst hother
        exact absurd rfl hne
      · exact ⟨id, other, (hothers id hid).trans hother, rfl⟩
  exact Option.ext fun _ => hiff

/-- The rule of a visit of an index: `J` knows the rows that are still to be visited, each of
which is that of a stored message. -/
theorem WellFormed.visitStored {α : Type} [LinearOrder α]
    {read : MailboxState → OrderedMap α Unit} {range : α → Bool} {messageId : α → Snowflake}
    {rowOf : MessageMeta → α}
    (hindex : ∀ state, state.WellFormed → IndexOf state.messages (read state) rowOf)
    (hrow : ∀ old entry, SameIdentity old entry → rowOf entry = rowOf old)
    (hid : ∀ entry, messageId (rowOf entry) = entry.id)
    {update : Snowflake → MessageMeta → MailboxState → Except MailboxError MailboxState}
    {J : MailboxState → List α → Prop} {state : MailboxState} (h : state.WellFormed)
    (hupdate : ∀ middle entry rest, middle.WellFormed → Continues state middle →
      middle.messages.get? entry.id = some entry → range (rowOf entry) = true →
      J middle (rowOf entry :: rest) →
        ∃ next, update entry.id entry middle = .ok next ∧ next.WellFormed ∧
          Continues middle next ∧
          (∀ id, id ≠ entry.id → next.messages.get? id = middle.messages.get? id) ∧ J next rest)
    (hstart : J state ((read state).keysAfter range none)) :
    ∃ finish, visitIndex read range messageId
        (fun id => MailboxState.visitStored (update id) id) state = .ok finish ∧
      finish.WellFormed ∧ Continues state finish ∧ J finish [] := by
  have hrule := @OrderedMap.visitPages_each_rule MailboxError MailboxState α Unit _ read range
    pageSize (fun row => MailboxState.visitStored (update (messageId row)) (messageId row))
    (fun middle rest => middle.WellFormed ∧ Continues state middle ∧ rest.Nodup ∧
      (∀ row ∈ rest, range row = true ∧
        ∃ entry, middle.messages.get? (messageId row) = some entry ∧ rowOf entry = row) ∧
      J middle rest) (by decide) ?_ state ?_
  · obtain ⟨finish, hvisit, hwell, hcontinues, -, -, hfinish⟩ := hrule
    exact ⟨finish, hvisit, hwell, hcontinues, hfinish⟩
  · rintro middle row rest ⟨hwell, hcontinues, hnodup, hrows, hmiddle⟩
    obtain ⟨hrange, entry, hentry, rfl⟩ := hrows row List.mem_cons_self
    obtain ⟨hfresh, hnodup⟩ := List.nodup_cons.mp hnodup
    rw [hid] at hentry
    obtain ⟨next, hnext, hwell', hcontinues', hothers, hJ⟩ :=
      hupdate middle entry rest hwell hcontinues hentry hrange hmiddle
    refine ⟨next, ?_, ⟨hwell', hcontinues.trans hcontinues', hnodup, ?_, hJ⟩, ?_⟩
    · rw [hid]
      unfold MailboxState.visitStored
      rw [hentry]
      exact bind_eq_ok.mpr ⟨next, hnext, rfl⟩
    · intro other hother
      obtain ⟨hrange', entry', hentry', rfl⟩ := hrows other (List.mem_cons_of_mem _ hother)
      refine ⟨hrange', entry', ?_, rfl⟩
      rw [hothers _ _, hentry']
      rw [hid] at hentry' ⊢
      intro hsame
      rw [hsame, hentry, Option.some.injEq] at hentry'
      rw [hentry'] at hfresh
      exact hfresh hother
    · intro other _ hlt
      exact (hindex middle hwell).get?_of_ne (hindex next hwell') hrow hcontinues' hentry hothers
        hlt.ne'
  · refine ⟨h, .refl state, (OrderedMap.keysAfter_sorted _ _ _).imp ne_of_lt, ?_, hstart⟩
    intro row hmem
    obtain ⟨hrange, -, hsome⟩ := OrderedMap.mem_keysAfter.mp hmem
    obtain ⟨⟨⟩, hget⟩ := Option.isSome_iff_exists.mp hsome
    obtain ⟨id, entry, hentry, rfl⟩ := (hindex state h row).mp hget
    refine ⟨hrange, entry, ?_, rfl⟩
    rw [hid, h.keyed id entry hentry]
    exact hentry

/-- The rule of an update of all messages of a request: they may disagree before it. -/
theorem WellFormed.updateRequest {state : MailboxState} (h : state.WellFormed) {id : Snowflake}
    {update : MessageMeta → MailboxState → Except MailboxError MailboxState}
    {K : MailboxState → Prop}
    (hagreed : ∀ id' entry, state.messages.get? id' = some entry → entry.requestId ≠ id →
      Agrees entry (state.readState entry.requestId))
    (hupdate : ∀ middle entry, middle.WellFormed → middle.requestStates = state.requestStates →
      middle.messages.get? entry.id = some entry → entry.requestId = id → K middle →
        ∃ next, update entry middle = .ok next ∧ Settles entry middle next ∧ K next)
    (hK : K state) :
    ∃ finish, MailboxState.updateRequest id update state = .ok finish ∧ finish.WellFormed ∧
      Continues state finish ∧ finish.Agreed ∧ K finish := by
  obtain ⟨finish, hvisit, hwell, hcontinues, hstates, hfinish, hK⟩ := @WellFormed.visitStored
    _ _ messagesByRequest (fun row => (ofLex row).1 = id) (fun row => (ofLex row).2) requestRow
    (fun _ hwell => hwell.byRequest) (fun _ _ => requestRow_congr) (fun _ => rfl)
    (fun _ => update)
    (fun middle rest => middle.requestStates = state.requestStates ∧
      (∀ id' entry, middle.messages.get? id' = some entry →
        Agrees entry (state.readState entry.requestId) ∨ requestRow entry ∈ rest) ∧ K middle)
    state h (by
      rintro middle entry rest hwell hcontinues hentry hrange ⟨hstates, hrows, hK⟩
      obtain ⟨next, hnext, hsettles, hK⟩ := hupdate middle entry hwell hstates hentry
        (decide_eq_true_eq.mp hrange) hK
      refine ⟨next, hnext, hsettles.wellFormed, hsettles.continues, hsettles.others,
        hsettles.requestStates.trans hstates, ?_, hK⟩
      intro id' other hother
      rcases eq_or_ne id' entry.id with rfl | hne
      · left
        rw [← readState_congr hstates]
        exact hsettles.agrees other hother
      · rw [hsettles.others id' hne] at hother
        refine (hrows id' other hother).imp_right ?_
        intro hmem
        rcases List.mem_cons.mp hmem with hrow | hmem
        · refine absurd ?_ hne
          rw [← hwell.keyed id' other hother]
          exact id_of_requestRow _ _ hrow
        · exact hmem)
    (by
      refine ⟨rfl, ?_, hK⟩
      intro id' entry hentry
      by_cases hid : entry.requestId = id
      · right
        apply OrderedMap.mem_keysAfter.mpr
        refine ⟨decide_eq_true hid, rfl, ?_⟩
        rw [(h.byRequest _).mpr ⟨id', entry, hentry, rfl⟩]
        rfl
      · exact .inl (hagreed id' entry hentry hid))
  refine ⟨finish, hvisit, hwell, hcontinues, ?_, hK⟩
  intro id' entry hentry
  rw [readState_congr hstates]
  exact (hfinish id' entry hentry).resolve_right List.not_mem_nil

/-! ## Operations -/

theorem pollingState_congr {entry : MessageMeta} {requestState requestState' : RequestState}
    (hexit : requestState.exitId = requestState'.exitId)
    (hack : requestState.latestAckId = requestState'.latestAckId)
    (hunacked : 0 < requestState.unacked ↔ 0 < requestState'.unacked) :
    pollingState entry requestState = pollingState entry requestState' := by
  simp only [pollingState, hexit, hack, hunacked]

/-- What an operation does to the orders: a message that it stores has the stamp of its
commit, and the others keep theirs. -/
structure Extends (state next : MailboxState) : Prop where
  readVersion : next.polling.order.readVersion = state.polling.order.readVersion
  orders : ∀ id, (next.messages.get? id).isSome →
    next.polling.order.orders.get? id =
      if (state.messages.get? id).isSome then state.polling.order.orders.get? id
      else some (toLex (state.polling.order.readVersion + 1, state.polling.order.next))

theorem Continues.extends {state next : MailboxState} (h : Continues state next) :
    Extends state next where
  readVersion := h.readVersion
  orders := by
    intro id hsome
    obtain ⟨entry, hentry⟩ := Option.isSome_iff_exists.mp hsome
    obtain ⟨old, hold, -⟩ := h.messages id entry hentry
    rw [h.orders id hsome, hold, Option.isSome_some, if_pos rfl]

theorem Extends.continues {state middle next : MailboxState} (h : Extends state middle)
    (h' : Continues middle next) : Extends state next where
  readVersion := h'.readVersion.trans h.readVersion
  orders := by
    intro id hsome
    obtain ⟨entry, hentry⟩ := Option.isSome_iff_exists.mp hsome
    obtain ⟨old, hold, -⟩ := h'.messages id entry hentry
    rw [h'.orders id hsome]
    apply h.orders id
    rw [hold]
    rfl

theorem WellFormed.setReplies {state : MailboxState} (h : state.WellFormed)
    (requestStates : OrderedMap Snowflake RequestState)
    (replies : OrderedMap (Snowflake ×ₗ Snowflake) Reply)
    (replyMetadata : OrderedMap (Snowflake ×ₗ Snowflake) ReplyMeta)
    (replyIds : OrderedMap (Snowflake ×ₗ Snowflake) Unit)
    (uniqueReplies : OrderedMap (Snowflake ×ₗ WithBot Int) Snowflake) :
    WellFormed { state with requestStates, replies, replyMetadata, replyIds, uniqueReplies } where
  consistent := h.consistent
  keyed := h.keyed
  tracked := h.tracked
  ordered := h.ordered
  enveloped := h.enveloped
  untracked := h.untracked
  byShard := h.byShard
  byAddress := h.byAddress
  byRequest := h.byRequest
  primary := h.primary

theorem continues_setReplies (state : MailboxState)
    (requestStates : OrderedMap Snowflake RequestState)
    (replies : OrderedMap (Snowflake ×ₗ Snowflake) Reply)
    (replyMetadata : OrderedMap (Snowflake ×ₗ Snowflake) ReplyMeta)
    (replyIds : OrderedMap (Snowflake ×ₗ Snowflake) Unit)
    (uniqueReplies : OrderedMap (Snowflake ×ₗ WithBot Int) Snowflake) :
    Continues state
      { state with requestStates, replies, replyMetadata, replyIds, uniqueReplies } :=
  ⟨rfl, fun _ entry hentry => ⟨entry, hentry, .refl entry⟩, fun _ _ => rfl⟩

theorem Agreed.setState {state : MailboxState} (h : state.Agreed) {id : Snowflake}
    {requestState : RequestState} {next : MailboxState}
    (hmessages : next.messages = state.messages)
    (hstates : next.requestStates = state.requestStates.set id requestState) (id' : Snowflake)
    (entry : MessageMeta) (hentry : next.messages.get? id' = some entry)
    (hne : entry.requestId ≠ id) : Agrees entry (next.readState entry.requestId) := by
  have hread : next.readState entry.requestId = state.readState entry.requestId := by
    rw [readState, readState, hstates, OrderedMap.get?_set_of_ne _ _ hne]
  rw [hread]
  rw [hmessages] at hentry
  exact h id' entry hentry

theorem WellFormed.saveReply {state finish : MailboxState} (h : state.WellFormed)
    (hagreed : state.Agreed) {reply : Reply} (hsave : state.saveReply reply = .ok finish) :
    finish.WellFormed ∧ finish.Agreed ∧ Continues state finish := by
  unfold MailboxState.saveReply at hsave
  dsimp only at hsave
  generalize hnextState : ({
    lastReplyId := some reply.id
    exitId := if reply.content.kind = .withExit then some reply.id
      else (state.readState reply.requestId).exitId
    latestAckId := (state.readState reply.requestId).latestAckId
    unacked := (state.readState reply.requestId).unacked +
      if reply.content.kind = .withExit then 0 else 1 } : RequestState) = nextState at hsave
  split_ifs at hsave with hknown hunique hupdate
  · cases hsave
    exact ⟨h, hagreed, .refl state⟩
  all_goals
    have hwell : (state.insertReply reply nextState).WellFormed := h.setReplies _ _ _ _ _
    have hcontinues : Continues state (state.insertReply reply nextState) :=
      continues_setReplies state _ _ _ _ _
    have hread : (state.insertReply reply nextState).readState reply.requestId = nextState := by
      unfold readState insertReply
      rw [OrderedMap.get?_set_self, Option.getD_some]
  · obtain ⟨next, hrun, hwell', hcontinues', hagreed', -⟩ := @WellFormed.updateRequest _ hwell
      reply.requestId (fun entry state => state.writeMessage
        { entry with processed := entry.processed || decide (reply.content.kind = .withExit) }
        nextState) (fun _ => True) (hagreed.setState rfl rfl) (by
          intro middle entry hmiddle hstates hentry hid _
          have hstate : nextState = middle.readState entry.requestId := by
            rw [readState_congr hstates, hid, hread]
          rw [hstate]
          obtain ⟨next, hwrite, hsettles, -⟩ := @WellFormed.writeMessage middle hmiddle entry
            { entry with processed := entry.processed || decide (reply.content.kind = .withExit) }
            hentry ⟨rfl, rfl, rfl, rfl, rfl⟩ rfl
          exact ⟨next, hwrite, hsettles, trivial⟩) trivial
    rw [hrun] at hsave
    cases hsave
    exact ⟨hwell', hagreed', hcontinues.trans hcontinues'⟩
  · cases hsave
    refine ⟨hwell, ?_, hcontinues⟩
    -- A further chunk changes nothing for messages that wait for an acknowledgement already.
    intro id entry hentry
    by_cases hid : entry.requestId = reply.requestId
    · obtain ⟨hexit, hunacked⟩ := not_or.mp hupdate
      rw [hid, hread]
      have hold := hagreed id entry hentry
      rw [hid] at hold
      rw [if_neg hexit, if_neg hexit] at hnextState
      have hsame : pollingState entry nextState =
          pollingState entry (state.readState reply.requestId) := by
        rw [← hnextState]
        apply pollingState_congr
        · rfl
        · rfl
        · dsimp only
          omega
      unfold Agrees at hold ⊢
      rw [hsame]
      exact hold
    · exact @Agreed.setState state hagreed reply.requestId nextState
        (state.insertReply reply nextState) rfl rfl id entry hentry hid

theorem WellFormed.clearReplies {state : MailboxState} (h : state.WellFormed)
    (hagreed : state.Agreed) (id : Snowflake) (expectedReplyId : Option Snowflake) :
    ∃ finish, state.clearReplies id expectedReplyId = .ok finish ∧ finish.WellFormed ∧
      finish.Agreed ∧ Continues state finish := by
  unfold MailboxState.clearReplies
  dsimp only
  split_ifs with hexpected
  · exact ⟨state, rfl, h, hagreed, .refl state⟩
  · generalize hnextState : ({
      lastReplyId := none, exitId := none
      latestAckId := (state.readState id).latestAckId
      unacked := (state.readState id).unacked } : RequestState) = nextState
    obtain ⟨cleared, hcleared, hwell, hcontinues, hmessages, hstates⟩ :
        ∃ cleared, (state.readState id).exitId.elim state (state.clearExit id) = cleared ∧
          cleared.WellFormed ∧ Continues state cleared ∧ cleared.messages = state.messages ∧
          cleared.requestStates = state.requestStates := by
      cases (state.readState id).exitId with
      | none => exact ⟨state, rfl, h, .refl state, rfl, rfl⟩
      | some exitId =>
          exact ⟨_, rfl, h.setReplies _ _ _ _ _, continues_setReplies state _ _ _ _ _, rfl, rfl⟩
    have hread : ({ cleared with requestStates := cleared.requestStates.set id nextState } :
        MailboxState).readState id = nextState := by
      unfold readState
      rw [OrderedMap.get?_set_self, Option.getD_some]
    rw [hcleared]
    obtain ⟨finish, hrun, hfinish, hcontinues', hagreed', -⟩ := @WellFormed.updateRequest
      { cleared with requestStates := cleared.requestStates.set id nextState }
      (hwell.setReplies _ _ _ _ _) id
      (fun entry state =>
        if entry.kind = .interrupt ∧ expectedReplyId = none then state.removeMessage entry
        else state.writeMessage { entry with processed := false, claimedAt := none } nextState)
      (fun _ => True) (hagreed.setState hmessages (by rw [hstates])) (by
        intro middle entry hmiddle hsame hentry hid _
        split_ifs with hremove
        · obtain ⟨next, hnext, hsettles⟩ := hmiddle.removeSettles hentry
          exact ⟨next, hnext, hsettles, trivial⟩
        · have hstate : nextState = middle.readState entry.requestId := by
            rw [readState_congr hsame, hid, hread]
          rw [hstate]
          obtain ⟨next, hwrite, hsettles, -⟩ := @WellFormed.writeMessage middle hmiddle entry
            { entry with processed := false, claimedAt := none } hentry
            ⟨rfl, rfl, rfl, rfl, rfl⟩ rfl
          exact ⟨next, hwrite, hsettles, trivial⟩) trivial
    refine ⟨finish, hrun, hfinish, hagreed', hcontinues.trans (Continues.trans ?_ hcontinues')⟩
    exact continues_setReplies cleared _ _ _ _ _

theorem WellFormed.unprocessedMessages {state : MailboxState} (h : state.WellFormed)
    (hagreed : state.Agreed) (shards : List String) (now : ℚ)
    (addresses : Option (List EntityAddress)) (limit : Option ℚ) :
    ∃ polled, state.unprocessedMessages shards now addresses limit = .ok polled ∧
      polled.1.WellFormed ∧ polled.1.Agreed ∧ Continues state polled.1 := by
  obtain ⟨polled, hrun, hindexed, hpolled, hrewritten, -⟩ :=
    h.toIndexed.poll hagreed shards now addresses limit
  exact ⟨polled, hrun, hrewritten.wellFormed h hindexed, hpolled, hrewritten.continues⟩

theorem WellFormed.resetMessage {state : MailboxState} (h : state.WellFormed)
    (hagreed : state.Agreed) {entry : MessageMeta}
    (hentry : state.messages.get? entry.id = some entry) :
    ∃ next, MailboxState.resetMessage entry state = .ok next ∧ next.WellFormed ∧ next.Agreed ∧
      Continues state next ∧
      ∀ id, id ≠ entry.id → next.messages.get? id = state.messages.get? id := by
  obtain ⟨next, hwrite, hsettles, -⟩ := @WellFormed.writeMessage state h entry
    { entry with claimedAt := none } hentry ⟨rfl, rfl, rfl, rfl, rfl⟩ rfl
  exact ⟨next, hwrite, hsettles.wellFormed, hsettles.agreed hagreed, hsettles.continues,
    hsettles.others⟩

theorem WellFormed.resetRequests {state : MailboxState} (h : state.WellFormed)
    (hagreed : state.Agreed) (ids : List Snowflake) :
    ∃ finish, MailboxState.resetRequests ids state = .ok finish ∧
      finish.WellFormed ∧ finish.Agreed ∧ Continues state finish := by
  apply foldlM_rule _ ids
  · exact ⟨h, hagreed, .refl state⟩
  · rintro middle id ⟨hwell, hmiddle, hcontinues⟩
    cases hentry : middle.messages.get? id with
    | none => exact ⟨middle, rfl, hwell, hmiddle, hcontinues⟩
    | some entry =>
        dsimp only
        split_ifs with hprocessed
        · exact ⟨middle, rfl, hwell, hmiddle, hcontinues⟩
        · obtain rfl := hwell.keyed id entry hentry
          obtain ⟨next, hreset, hwell', hagreed', hcontinues', -⟩ :=
            hwell.resetMessage hmiddle hentry
          exact ⟨next, hreset, hwell', hagreed', hcontinues.trans hcontinues'⟩

theorem WellFormed.resetIndex {α : Type} [LinearOrder α]
    {read : MailboxState → OrderedMap α Unit} {range : α → Bool} {messageId : α → Snowflake}
    {rowOf : MessageMeta → α}
    (hindex : ∀ state, state.WellFormed → IndexOf state.messages (read state) rowOf)
    (hrow : ∀ old entry, SameIdentity old entry → rowOf entry = rowOf old)
    (hid : ∀ entry, messageId (rowOf entry) = entry.id) {state : MailboxState}
    (h : state.WellFormed) (hagreed : state.Agreed) :
    ∃ finish, MailboxState.resetIndex read range messageId state = .ok finish ∧
      finish.WellFormed ∧ finish.Agreed ∧ Continues state finish := by
  obtain ⟨finish, hvisit, hwell, hcontinues, hfinish⟩ := @WellFormed.visitStored _ _ read range
    messageId rowOf hindex hrow hid
    (fun _ entry state =>
      if !entry.processed ∧ entry.claimedAt ≠ none then MailboxState.resetMessage entry state
      else .ok state)
    (fun middle _ => middle.Agreed) state h (by
      intro middle entry rest hwell _ hentry _ hmiddle
      split_ifs with hclaimed
      · obtain ⟨next, hreset, hwell', hagreed', hcontinues, hothers⟩ :=
          hwell.resetMessage hmiddle hentry
        exact ⟨next, hreset, hwell', hcontinues, hothers, hagreed'⟩
      · exact ⟨middle, rfl, hwell, .refl middle, fun _ _ => rfl, hmiddle⟩) hagreed
  exact ⟨finish, hvisit, hwell, hfinish, hcontinues⟩

theorem WellFormed.resetAddresses {state : MailboxState} (h : state.WellFormed)
    (hagreed : state.Agreed) (addresses : List EntityAddress) :
    ∃ finish, MailboxState.resetAddresses addresses state = .ok finish ∧
      finish.WellFormed ∧ finish.Agreed ∧ Continues state finish := by
  apply foldlM_rule _ addresses
  · exact ⟨h, hagreed, .refl state⟩
  · rintro middle address ⟨hwell, hmiddle, hcontinues⟩
    obtain ⟨next, hreset, hwell', hagreed', hcontinues'⟩ := @WellFormed.resetIndex _ _
      messagesByAddress (fun row => (ofLex row).1 = address.entityType ∧
        (ofLex (ofLex row).2).1 = address.entityId ∧
        (ofLex (ofLex (ofLex row).2).2).1 = address.shardId.toString)
      addressMessageId addressRow (fun _ hwell => hwell.byAddress) (fun _ _ => addressRow_congr)
      (fun _ => rfl) middle hwell hmiddle
    exact ⟨next, hreset, hwell', hagreed', hcontinues.trans hcontinues'⟩

theorem WellFormed.resetShards {state : MailboxState} (h : state.WellFormed)
    (hagreed : state.Agreed) (shards : List String) :
    ∃ finish, MailboxState.resetShards shards state = .ok finish ∧
      finish.WellFormed ∧ finish.Agreed ∧ Continues state finish := by
  apply foldlM_rule _ shards
  · exact ⟨h, hagreed, .refl state⟩
  · rintro middle shard ⟨hwell, hmiddle, hcontinues⟩
    obtain ⟨next, hreset, hwell', hagreed', hcontinues'⟩ := @WellFormed.resetIndex _ _
      messagesByShard (fun row => (ofLex row).1 = shard) (fun row => (ofLex row).2) shardRow
      (fun _ hwell => hwell.byShard) (fun _ _ => shardRow_congr) (fun _ => rfl) middle hwell
      hmiddle
    exact ⟨next, hreset, hwell', hagreed', hcontinues.trans hcontinues'⟩

theorem acknowledge_spec (state : MailboxState) (id requestId replyId : Snowflake) :
    ∃ requestState, (state.acknowledge id requestId replyId).requestStates =
        state.requestStates.set requestId requestState ∧
      (state.acknowledge id requestId replyId).messages = state.messages ∧
      (state.acknowledge id requestId replyId).polling = state.polling ∧
      (state.WellFormed → (state.acknowledge id requestId replyId).WellFormed) := by
  unfold acknowledge
  dsimp only
  split
  · exact ⟨_, rfl, rfl, rfl, fun h => h.setReplies _ _ _ _ _⟩
  · exact ⟨_, rfl, rfl, rfl, fun h => h.setReplies _ _ _ _ _⟩

theorem WellFormed.setPrimaryKey {state : MailboxState} (h : state.WellFormed) {id : Snowflake}
    {entry : MessageMeta} (hentry : state.messages.get? id = some entry) :
    WellFormed { state with
      primaryKeys := entry.primaryKey.elim state.primaryKeys
        fun hash => state.primaryKeys.set hash id } where
  consistent := h.consistent
  keyed := h.keyed
  tracked := h.tracked
  ordered := h.ordered
  enveloped := h.enveloped
  untracked := h.untracked
  byShard := h.byShard
  byAddress := h.byAddress
  byRequest := h.byRequest
  primary := by
    intro hash id' hprimary
    dsimp only at hprimary
    cases hkey : entry.primaryKey with
    | none =>
        rw [hkey] at hprimary
        exact h.primary hash id' hprimary
    | some key =>
        rw [hkey, Option.elim_some, OrderedMap.get?_set] at hprimary
        split_ifs at hprimary with hsame
        · cases hprimary
          exact ⟨entry, hentry, by rw [hkey, hsame]⟩
        · exact h.primary hash id' hprimary

theorem WellFormed.enqueueNew {state : MailboxState} (h : state.WellFormed)
    (envelope : Envelope) {entry : MessageMeta}
    (hfresh : state.messages.get? entry.id = none) (hblocked : entry.polling = .blocked) :
    ∃ next, state.enqueue envelope entry (state.readState entry.requestId) = .ok next ∧
      next.WellFormed ∧ Extends state next ∧ next.requestStates = state.requestStates ∧
      next.messages = state.messages.set entry.id
        { entry with polling := pollingState entry (state.readState entry.requestId) } := by
  obtain ⟨store, next, henqueue, rfl, hwell, hversion, horders⟩ :=
    h.enqueue envelope (state.readState entry.requestId) hfresh hblocked
  refine ⟨_, henqueue, hwell, ⟨hversion, ?_⟩, rfl, rfl⟩
  intro id hsome
  dsimp only at hsome ⊢
  rw [OrderedMap.get?_set] at hsome
  rw [horders, OrderedMap.get?_set]
  split_ifs at hsome ⊢ with hid hold
  · rw [hid, hfresh] at hold
    exact nomatch hold
  · rfl
  · rfl

theorem WellFormed.insertEnvelope {state : MailboxState} (h : state.WellFormed)
    {envelope : Envelope} {entry : MessageMeta} (hid : entry.requestId = envelope.requestId)
    (hfresh : state.messages.get? entry.id = none) (hblocked : entry.polling = .blocked)
    (hagreed : ∀ id other, state.messages.get? id = some other →
      other.requestId ≠ envelope.requestId ∨ envelope.kind ≠ .ackChunk →
        Agrees other (state.readState other.requestId)) :
    ∃ finish, state.insertEnvelope envelope entry = .ok finish ∧ finish.WellFormed ∧
      finish.Agreed ∧ Extends state finish := by
  obtain ⟨queued, henqueue, hwell, hextends, hstates, hmessages⟩ :=
    h.enqueueNew envelope hfresh hblocked
  rw [hid] at henqueue
  -- The new message agrees with the state of its request, and the others do as before.
  have hqueued (id : Snowflake) (other : MessageMeta)
      (hother : queued.messages.get? id = some other)
      (hcase : other.requestId ≠ envelope.requestId ∨ envelope.kind ≠ .ackChunk) :
      Agrees other (queued.readState other.requestId) := by
    rw [readState_congr hstates]
    rw [hmessages, OrderedMap.get?_set] at hother
    split_ifs at hother
    · cases hother
      exact .inl rfl
    · exact hagreed id other hother hcase
  obtain ⟨updated, hupdate, hwell', hcontinues, hagreed', hrewritten⟩ : ∃ updated,
      updateSiblings envelope (state.readState envelope.requestId) queued = .ok updated ∧
        updated.WellFormed ∧ Continues queued updated ∧ updated.Agreed ∧
        Rewritten queued updated := by
    unfold updateSiblings
    split_ifs with hkind
    · refine @WellFormed.updateRequest queued hwell envelope.requestId _ (Rewritten queued) ?_ ?_
        (.refl queued)
      · intro id other hother hne
        exact hqueued id other hother (.inl hne)
      · intro middle other hmiddle hsame hother hrequest hrewritten
        obtain ⟨next, hwrite, hsettles, hnext⟩ := @WellFormed.writeMessage middle hmiddle other
          other hother (.refl other) rfl
        rw [readState_congr hsame, readState_congr hstates, hrequest] at hwrite
        exact ⟨next, hwrite, hsettles, hrewritten.trans hnext⟩
    · refine ⟨queued, rfl, hwell, .refl queued, ?_, .refl queued⟩
      intro id other hother
      exact hqueued id other hother (.inr hkind)
  have hnew : queued.messages.get? entry.id = some { entry with
      polling := pollingState entry (state.readState entry.requestId) } := by
    rw [hmessages, OrderedMap.get?_set_self]
  obtain ⟨stored, hstored, hsame⟩ := hrewritten.new hnew
  have hprimary := hwell'.setPrimaryKey hstored
  rw [hsame.primaryKey] at hprimary
  have hupdated := hextends.continues hcontinues
  exact ⟨_, bind_eq_ok.mpr ⟨queued, henqueue, bind_eq_ok.mpr ⟨updated, hupdate, rfl⟩⟩, hprimary,
    hagreed', hupdated.readVersion, hupdated.orders⟩

theorem WellFormed.saveEnvelope {state : MailboxState} (h : state.WellFormed)
    (hagreed : state.Agreed) (primaryHash : String → String) (envelope : Envelope)
    (primaryKey : Option String) (deliverAt : Option ℚ) :
    ∃ saved, state.saveEnvelope primaryHash envelope primaryKey deliverAt = .ok saved ∧
      saved.1.WellFormed ∧ saved.1.Agreed ∧ Extends state saved.1 := by
  unfold MailboxState.saveEnvelope
  dsimp only
  cases hexisting : state.messages.get?
      (((primaryKey.map primaryHash).bind state.primaryKeys.get?).getD envelope.id) with
  | some existing => exact ⟨_, rfl, h, hagreed, (Continues.refl state).extends⟩
  | none =>
      -- A primary key leads to a stored message.
      have hfresh : state.messages.get? envelope.id = none := by
        cases hprimary : (primaryKey.map primaryHash).bind state.primaryKeys.get? with
        | none =>
            rw [hprimary] at hexisting
            exact hexisting
        | some original =>
            rw [hprimary] at hexisting
            obtain ⟨hash, -, hhash⟩ := Option.bind_eq_some_iff.mp hprimary
            obtain ⟨entry, hentry, -⟩ := h.primary hash original hhash
            rw [Option.getD_some, hentry] at hexisting
            exact nomatch hexisting
      dsimp only
      generalize hentry : ({
        id := envelope.id
        requestId := envelope.requestId
        kind := envelope.kind
        address := envelope.address
        primaryKey := primaryKey.map primaryHash
        deliverAt := deliverAt
        claimedAt := none
        processed := (state.readState envelope.requestId).exitId.isSome
        polling := .blocked } : MessageMeta) = entry
      have hrequest : entry.requestId = envelope.requestId := by rw [← hentry]
      have hblocked : entry.polling = .blocked := by rw [← hentry]
      have hnew : state.messages.get? entry.id = none := by
        rw [← hentry]
        exact hfresh
      cases envelope with
      | request requestId address body =>
          obtain ⟨finish, hinsert, hfinish⟩ := h.insertEnvelope hrequest hnew hblocked
            fun id other hother _ => hagreed id other hother
          exact ⟨_, bind_eq_ok.mpr ⟨finish, hinsert, rfl⟩, hfinish⟩
      | interrupt id requestId address =>
          obtain ⟨finish, hinsert, hfinish⟩ := h.insertEnvelope hrequest hnew hblocked
            fun id other hother _ => hagreed id other hother
          exact ⟨_, bind_eq_ok.mpr ⟨finish, hinsert, rfl⟩, hfinish⟩
      | ackChunk id requestId replyId address =>
          obtain ⟨requestState, hstates, hmessages, hpolling, hwell⟩ :=
            acknowledge_spec state id requestId replyId
          obtain ⟨finish, hinsert, hwell', hagreed', hextends⟩ :=
            (hwell h).insertEnvelope hrequest (by rw [hmessages]; exact hnew) hblocked
              fun id' other hother hcase =>
                hagreed.setState hmessages hstates id' other hother
                  (hcase.resolve_right (fun hkind => hkind rfl))
          refine ⟨_, bind_eq_ok.mpr ⟨finish, hinsert, rfl⟩, hwell', hagreed', ?_⟩
          constructor
          · rw [hextends.readVersion, hpolling]
          · intro id' hsome
            rw [hextends.orders id' hsome, hmessages, hpolling]

/-! ## Clearing an address -/

def IsAt (entityType entityId : String) (entry : MessageMeta) : Prop :=
  entry.address.entityType = entityType ∧ entry.address.entityId = entityId

instance (entityType entityId : String) (entry : MessageMeta) :
    Decidable (IsAt entityType entityId entry) :=
  inferInstanceAs (Decidable (_ ∧ _))

/-- Messages elsewhere are polled without the state of a request at an address as with it. -/
def KeepsSiblings (state : MailboxState) (entityType entityId : String) : Prop :=
  ∀ id request, state.messages.get? id = some request → request.kind = .request →
    IsAt entityType entityId request →
      ∀ id' entry, state.messages.get? id' = some entry → entry.requestId = id →
        ¬ IsAt entityType entityId entry →
          pollingState entry (state.readState id) = pollingState entry initialState

/-- What is left of a mailbox while an address is cleared: the states of requests that are
not at the address, and messages as they were. -/
structure ClearedPart (entityType entityId : String) (state next : MailboxState)
    (rest : List (String ×ₗ String ×ₗ String ×ₗ Snowflake)) : Prop where
  messages : ∀ id entry, next.messages.get? id = some entry → state.messages.get? id = some entry
  remaining : ∀ id entry, next.messages.get? id = some entry →
    IsAt entityType entityId entry → addressRow entry ∈ rest
  states : ∀ id, next.readState id = state.readState id ∨
    next.readState id = initialState ∧ ∃ request, state.messages.get? id = some request ∧
      request.kind = .request ∧ IsAt entityType entityId request

theorem ClearedPart.remove {entityType entityId : String} {state middle : MailboxState}
    {entry : MessageMeta} {rest : List (String ×ₗ String ×ₗ String ×ₗ Snowflake)}
    (h : ClearedPart entityType entityId state middle (addressRow entry :: rest))
    (hwell : middle.WellFormed) (hentry : middle.messages.get? entry.id = some entry)
    (hat : IsAt entityType entityId entry) :
    ∃ next, (if entry.kind = .request then middle.clearRequest entry.id else middle).removeMessage
        entry = .ok next ∧ next.WellFormed ∧ Continues middle next ∧
      (∀ id, id ≠ entry.id → next.messages.get? id = middle.messages.get? id) ∧
      ClearedPart entityType entityId state next rest := by
  obtain ⟨cleared, hcleared, hwell', hcontinues, hmessages, hstates⟩ : ∃ cleared,
      (if entry.kind = .request then middle.clearRequest entry.id else middle) = cleared ∧
        cleared.WellFormed ∧ Continues middle cleared ∧ cleared.messages = middle.messages ∧
        ∀ id, cleared.readState id = middle.readState id ∨
          cleared.readState id = initialState ∧ id = entry.id ∧ entry.kind = .request := by
    split_ifs with hkind
    · refine ⟨_, rfl, hwell.setReplies _ _ _ _ _, continues_setReplies middle _ _ _ _ _, rfl, ?_⟩
      intro id
      unfold readState clearRequest
      dsimp only
      rw [OrderedMap.get?_clear]
      split_ifs with hid
      · exact .inr ⟨rfl, hid, hkind⟩
      · exact .inl rfl
    · exact ⟨middle, rfl, hwell, .refl middle, rfl, fun _ => .inl rfl⟩
  rw [hcleared]
  have hpresent : cleared.messages.get? entry.id = some entry := by rw [hmessages, hentry]
  obtain ⟨next, hremove, hwell'', hcontinues', hnext, hsame⟩ := hwell'.removeMessage hpresent
  have hget (id : Snowflake) : next.messages.get? id =
      if id = entry.id then none else middle.messages.get? id := by
    rw [hnext, hmessages, OrderedMap.get?_clear]
  refine ⟨next, hremove, hwell'', hcontinues.trans hcontinues', ?_, ?_⟩
  · intro id hid
    rw [hget, if_neg hid]
  · constructor
    case messages =>
      intro id other hother
      rw [hget] at hother
      split_ifs at hother
      exact h.messages id other hother
    case remaining =>
      intro id other hother hat'
      rw [hget] at hother
      split_ifs at hother with hid
      rcases List.mem_cons.mp (h.remaining id other hother hat') with hrow | hmem
      · refine absurd ?_ hid
        rw [← hwell.keyed id other hother]
        exact id_of_addressRow _ _ hrow
      · exact hmem
    case states =>
      intro id
      rw [readState_congr hsame]
      rcases hstates id with hstate | ⟨hstate, rfl, hkind⟩
      · rw [hstate]
        exact h.states id
      · exact .inr ⟨hstate, entry, h.messages _ _ hentry, hkind, hat⟩

theorem WellFormed.clearAddress {state : MailboxState} (h : state.WellFormed)
    (hagreed : state.Agreed) (entityType entityId : String) :
    ∃ finish, state.clearAddress entityType entityId = .ok finish ∧ finish.WellFormed ∧
      Continues state finish ∧ (state.KeepsSiblings entityType entityId → finish.Agreed) := by
  obtain ⟨finish, hvisit, hwell, hcontinues, hcleared⟩ := @WellFormed.visitStored _ _
    messagesByAddress
    (fun row => (ofLex row).1 = entityType ∧ (ofLex (ofLex row).2).1 = entityId)
    addressMessageId addressRow (fun _ hwell => hwell.byAddress) (fun _ _ => addressRow_congr)
    (fun _ => rfl)
    (fun id entry state =>
      (if entry.kind = .request then state.clearRequest id else state).removeMessage entry)
    (ClearedPart entityType entityId state) state h (by
      intro middle entry rest hwell _ hentry hrange hmiddle
      exact hmiddle.remove hwell hentry (decide_eq_true_eq.mp hrange))
    (by
      refine ⟨fun _ _ hentry => hentry, ?_, fun _ => .inl rfl⟩
      intro id entry hentry hat
      apply OrderedMap.mem_keysAfter.mpr
      refine ⟨decide_eq_true hat, rfl, ?_⟩
      rw [(h.byAddress _).mpr ⟨id, entry, hentry, rfl⟩]
      rfl)
  refine ⟨finish, hvisit, hwell, hcontinues, ?_⟩
  intro hkeeps id entry hentry
  have hold := hcleared.messages id entry hentry
  have hagrees := hagreed id entry hold
  have haway : ¬ IsAt entityType entityId entry := fun hat =>
    List.not_mem_nil (hcleared.remaining id entry hentry hat)
  rcases hcleared.states entry.requestId with hstate | ⟨hstate, request, hrequest, hkind, hat⟩
  · rw [hstate]
    exact hagrees
  · have hsame := hkeeps _ request hrequest hkind hat id entry hold rfl haway
    rw [hstate]
    unfold Agrees at hagrees ⊢
    rw [← hsame]
    exact hagrees

/-! ## Runs -/

structure History where
  state : MailboxState
  enqueued : Snowflake → Option OrderStamp

/-- The messages that an operation stores are enqueued by its commit, which is at the version
that the next transaction reads. -/
def recordEnqueued (state next : MailboxState) (enqueued : Snowflake → Option OrderStamp)
    (id : Snowflake) : Option OrderStamp :=
  if (state.messages.get? id).isSome then enqueued id
  else if (next.messages.get? id).isSome then some (toLex (next.polling.order.readVersion, 0))
  else none

def HistoryStep (primaryHash : String → String) (history : History) (operation : Operation)
    (next : History) : Prop :=
  Step primaryHash history.state operation next.state ∧
    next.enqueued = recordEnqueued history.state next.state history.enqueued

def replay (primaryHash : String → String) (history : History) (operation : Operation) :
    Except MailboxError History := do
  let finish ← history.state.run primaryHash operation
  .ok {
    state := finish.commit
    enqueued := recordEnqueued history.state finish.commit history.enqueued }

theorem historyStep_of_replay {primaryHash : String → String} {history next : History}
    {operation : Operation} (h : replay primaryHash history operation = .ok next) :
    HistoryStep primaryHash history operation next := by
  obtain ⟨finish, hrun, hnext⟩ := bind_eq_ok.mp h
  cases hnext
  exact ⟨⟨finish, hrun, rfl⟩, rfl⟩

theorem run_of_replay {primaryHash : String → String}
    {step : History → Operation → History → Prop} {operations : List Operation}
    (hstep : ∀ operation ∈ operations, ∀ history next,
      HistoryStep primaryHash history operation next → step history operation next)
    {start history finish : History} {before : List Operation} (hrun : Run step start before history)
    (hreplay : operations.foldlM (replay primaryHash) history = .ok finish) :
    Run step start (before ++ operations) finish := by
  induction operations generalizing history before with
  | nil =>
      cases hreplay
      rw [List.append_nil]
      exact hrun
  | cons operation operations ih =>
      obtain ⟨next, hnext, hrest⟩ := bind_eq_ok.mp hreplay
      rw [List.append_cons]
      apply ih
      · intro other hother
        exact hstep other (List.mem_cons_of_mem _ hother)
      · exact hrun.snoc (hstep operation List.mem_cons_self _ _ (historyStep_of_replay hnext))
      · exact hrest

/-- A cleared address takes no state from messages elsewhere that wait for it. -/
def Considerate (state : MailboxState) : Operation → Prop
  | .clearAddress entityType entityId => state.KeepsSiblings entityType entityId
  | _ => True

def History.empty (readVersion : Nat) : History where
  state := MailboxState.empty readVersion
  enqueued := fun _ => none

/-- The index rows are those that the polling of the stored messages says, at the stamps of
their enqueueing, and the polling is that of the states of their requests. -/
structure IndexInvariant (history : History) : Prop where
  agrees : ∀ id entry, history.state.messages.get? id = some entry →
    Agrees entry (history.state.readState entry.requestId)
  ready : ∀ id entry, history.state.messages.get? id = some entry →
    ∃ stamp, history.enqueued id = some stamp ∧ ∀ space row, row.id = id →
      (history.state.polling.order.HasRow space row ↔
        entry.polling = .ready ∧ space ∈ pollingIndexes entry ∧ row.stamp = stamp)
  scheduled : ∀ id entry, history.state.messages.get? id = some entry →
    ∀ space (row : ScheduledRow), row.id = id →
      (history.state.polling.HasTimer space row ↔
        entry.polling = .timer row.time ∧ space ∈ pollingIndexes entry)
  readyStored : ∀ space row, history.state.polling.order.HasRow space row →
    (history.state.messages.get? row.id).isSome
  scheduledStored : ∀ space (row : ScheduledRow), history.state.polling.HasTimer space row →
    (history.state.messages.get? row.id).isSome

structure Sound (history : History) : Prop where
  wellFormed : history.state.WellFormed
  agreed : history.state.Agreed
  committed : history.state.polling.order.next = 0
  enqueued : ∀ id, (history.state.messages.get? id).isSome →
    history.enqueued id = history.state.polling.order.orders.get? id

theorem Sound.invariant {history : History} (h : Sound history) : IndexInvariant history where
  agrees := h.agreed
  ready := by
    intro id entry hentry
    obtain ⟨stamp, hstamp⟩ := Option.isSome_iff_exists.mp (h.wellFormed.ordered id entry hentry)
    refine ⟨stamp, ?_, ?_⟩
    · rw [h.enqueued id (by rw [hentry]; rfl), hstamp]
    · rintro space row rfl
      rw [h.wellFormed.hasRow_iff, hstamp, Option.some.injEq, hentry]
      constructor
      · rintro ⟨_, ⟨⟩, hready, hspace, hrow⟩
        exact ⟨hready, hspace, hrow.symm⟩
      · rintro ⟨hready, hspace, hrow⟩
        exact ⟨entry, rfl, hready, hspace, hrow.symm⟩
  scheduled := by
    rintro id entry hentry space row rfl
    rw [h.wellFormed.hasTimer_iff, hentry]
    constructor
    · rintro ⟨_, ⟨⟩, hrow⟩
      exact hrow
    · exact fun hrow => ⟨entry, rfl, hrow⟩
  readyStored := by
    intro space row hrow
    obtain ⟨entry, hentry, -⟩ := (h.wellFormed.hasRow_iff space row).mp hrow
    rw [hentry]
    rfl
  scheduledStored := by
    intro space row hrow
    obtain ⟨entry, hentry, -⟩ := (h.wellFormed.hasTimer_iff space row).mp hrow
    rw [hentry]
    rfl

/-- The operations one by one: they keep the mailbox well formed and extend its orders, and
all but an inconsiderate clear keep the agreement. -/
theorem WellFormed.run {state finish : MailboxState} (h : state.WellFormed)
    (hagreed : state.Agreed) {primaryHash : String → String} {operation : Operation}
    (hrun : state.run primaryHash operation = .ok finish) :
    finish.WellFormed ∧ Extends state finish ∧ (state.Considerate operation → finish.Agreed) := by
  cases operation with
  | saveEnvelope envelope primaryKey deliverAt =>
      obtain ⟨saved, hsave, hwell, hagreed', hextends⟩ :=
        h.saveEnvelope hagreed primaryHash envelope primaryKey deliverAt
      rw [MailboxState.run, hsave] at hrun
      cases hrun
      exact ⟨hwell, hextends, fun _ => hagreed'⟩
  | saveReply reply =>
      obtain ⟨hwell, hagreed', hcontinues⟩ := h.saveReply hagreed hrun
      exact ⟨hwell, hcontinues.extends, fun _ => hagreed'⟩
  | clearReplies id expectedReplyId =>
      obtain ⟨next, hclear, hwell, hagreed', hcontinues⟩ :=
        h.clearReplies hagreed id expectedReplyId
      rw [MailboxState.run, hclear] at hrun
      cases hrun
      exact ⟨hwell, hcontinues.extends, fun _ => hagreed'⟩
  | unprocessedMessages shards now addresses limit =>
      obtain ⟨polled, hpoll, hwell, hagreed', hcontinues⟩ :=
        h.unprocessedMessages hagreed shards now addresses limit
      rw [MailboxState.run, hpoll] at hrun
      cases hrun
      exact ⟨hwell, hcontinues.extends, fun _ => hagreed'⟩
  | resetRequests ids =>
      obtain ⟨next, hreset, hwell, hagreed', hcontinues⟩ := h.resetRequests hagreed ids
      rw [MailboxState.run, hreset] at hrun
      cases hrun
      exact ⟨hwell, hcontinues.extends, fun _ => hagreed'⟩
  | resetAddresses addresses =>
      obtain ⟨next, hreset, hwell, hagreed', hcontinues⟩ := h.resetAddresses hagreed addresses
      rw [MailboxState.run, hreset] at hrun
      cases hrun
      exact ⟨hwell, hcontinues.extends, fun _ => hagreed'⟩
  | resetShards shards =>
      obtain ⟨next, hreset, hwell, hagreed', hcontinues⟩ := h.resetShards hagreed shards
      rw [MailboxState.run, hreset] at hrun
      cases hrun
      exact ⟨hwell, hcontinues.extends, fun _ => hagreed'⟩
  | clearAddress entityType entityId =>
      obtain ⟨next, hclear, hwell, hcontinues, hagreed'⟩ :=
        h.clearAddress hagreed entityType entityId
      rw [MailboxState.run, hclear] at hrun
      cases hrun
      exact ⟨hwell, hcontinues.extends, hagreed'⟩

theorem Sound.step {primaryHash : String → String} {history next : History}
    {operation : Operation} (h : Sound history)
    (hstep : HistoryStep primaryHash history operation next)
    (hconsiderate : history.state.Considerate operation) : Sound next := by
  obtain ⟨⟨finish, hrun, hnext⟩, hrecord⟩ := hstep
  obtain ⟨hwell, hextends, hagreed⟩ := h.wellFormed.run h.agreed hrun
  constructor
  case wellFormed =>
    rw [hnext]
    exact hwell.commit
  case agreed =>
    rw [hnext]
    exact hagreed hconsiderate
  case committed =>
    rw [hnext]
    rfl
  case enqueued =>
    intro id hsome
    rw [hrecord, recordEnqueued]
    rw [hnext] at hsome ⊢
    change (finish.messages.get? id).isSome at hsome
    change _ = finish.polling.order.orders.get? id
    rw [hextends.orders id hsome, h.committed]
    change (if _ then _ else if (finish.messages.get? id).isSome then
      some (toLex (finish.polling.order.readVersion + 1, 0)) else none) = _
    rw [hextends.readVersion]
    split_ifs with hold
    · exact h.enqueued id hold
    · rfl

theorem Sound.empty (readVersion : Nat) : Sound (History.empty readVersion) where
  wellFormed := wellFormed_empty readVersion
  agreed := by simp [Agreed, History.empty, MailboxState.empty]
  committed := rfl
  enqueued := by simp [History.empty, MailboxState.empty]

/-- The index invariant, for runs whose clears are considerate. -/
theorem indexInvariant_of_run {primaryHash : String → String} {readVersion : Nat}
    {operations : List Operation} {history : History}
    (hrun : Run (fun history operation next => HistoryStep primaryHash history operation next ∧
      history.state.Considerate operation) (History.empty readVersion) operations history) :
    IndexInvariant history := by
  apply Sound.invariant
  apply hrun.invariant
  · intro history operation next _ hstep hsound
    exact hsound.step hstep.1 hstep.2
  · exact fun _ _ => trivial
  · exact Sound.empty readVersion

/-- A request waits for the acknowledgement of its reply, and an interrupt elsewhere with it. -/
def waitingRequest : List Operation := [
  .saveEnvelope (.request 1 (userAddress "a") "{}") none none,
  .saveReply { id := 2, requestId := 1, content := .chunk 0 ["1"] },
  .saveEnvelope (.interrupt 3 1 (userAddress "b")) none none]

theorem exists_of_toOption {ε α : Type} {result : Except ε α} {p : α → Bool}
    (h : result.toOption.any p = true) : ∃ value, result = .ok value ∧ p value = true := by
  cases result with
  | error cause => exact nomatch h
  | ok value => exact ⟨value, rfl, h⟩

theorem indexInvariant_waitingRequest : ∃ history, waitingRequest.foldlM (replay id)
    (History.empty 0) = .ok history ∧ (history.state.messages.get? 3).isSome = true ∧
      IndexInvariant history := by
  obtain ⟨history, hreplay, hstored⟩ := @exists_of_toOption _ _
    (waitingRequest.foldlM (replay id) (History.empty 0))
    (fun history => (history.state.messages.get? 3).isSome) (by decide +kernel)
  refine ⟨history, hreplay, hstored, ?_⟩
  apply @indexInvariant_of_run id 0
  refine run_of_replay ?_ (.nil _) hreplay
  intro operation hmem _ _ hstep
  refine ⟨hstep, ?_⟩
  simp only [waitingRequest, List.mem_cons, List.not_mem_nil, or_false] at hmem
  rcases hmem with rfl | rfl | rfl
  · trivial
  · trivial
  · trivial

def clearedRequest : List Operation :=
  waitingRequest ++ [.clearAddress "user" "a"]

/-- Clearing the address of the request leaves the interrupt blocked for ever: nothing is left
that it waits for. -/
theorem not_indexInvariant_clearedRequest : ∃ history,
    Run (HistoryStep id) (History.empty 0) clearedRequest history ∧
      ¬ IndexInvariant history := by
  obtain ⟨history, hreplay, hpolling⟩ := @exists_of_toOption _ _
    (clearedRequest.foldlM (replay id) (History.empty 0))
    (fun history : History => (history.state.messages.get? 3).any fun entry : MessageMeta =>
      decide (entry.polling = Polling.blocked ∧
        pollingState entry (history.state.readState entry.requestId) = Polling.ready))
    (by decide +kernel)
  have hrun := run_of_replay (fun _ _ _ _ hstep => hstep) (.nil (History.empty 0)) hreplay
  refine ⟨history, hrun, ?_⟩
  intro hinvariant
  obtain ⟨entry, hentry, hpolling⟩ := (Option.any_eq_true _ _).mp hpolling
  obtain ⟨hblocked, hready⟩ := decide_eq_true_eq.mp hpolling
  rcases hinvariant.agrees 3 entry hentry with hsame | ⟨-, time, htime⟩
  · rw [hblocked, hready] at hsame
    exact nomatch hsame
  · rw [hready] at htime
    exact nomatch htime

end MailboxState

end FoundationDbEffect.Cluster
