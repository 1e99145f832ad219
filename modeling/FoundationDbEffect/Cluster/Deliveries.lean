import FoundationDbEffect.Cluster.AddressClears
import FoundationDbEffect.Foundation.Transition
import Mathlib.Tactic.Linarith
import Mathlib.Tactic.NormNum

/-!
# Deliveries

A message that a poll returns is claimed. No poll returns it again before the claim expires,
unless a reset or a clear of its replies releases the claim, or a clear removes the message.
Operations run in transactions of any number of them, and the clocks of polls may disagree.
-/

namespace FoundationDbEffect.Cluster

open FoundationDbEffect.Foundation

structure Envelope.Describes (envelope : Envelope) (entry : MessageMeta) : Prop where
  id : entry.id = envelope.id
  requestId : entry.requestId = envelope.requestId
  kind : entry.kind = envelope.kind
  address : entry.address = envelope.address

theorem Envelope.Describes.same {envelope : Envelope} {old entry : MessageMeta}
    (h : envelope.Describes old) (hsame : SameIdentity old entry) : envelope.Describes entry :=
  ⟨hsame.id.trans h.id, hsame.requestId.trans h.requestId, hsame.kind.trans h.kind,
    hsame.address.trans h.address⟩

namespace MailboxState

/-! ## Envelopes of stored messages -/

def Described (state : MailboxState) : Prop :=
  ∀ id envelope, state.envelopes.get? id = some envelope →
    ∃ entry, state.messages.get? id = some entry ∧ envelope.Describes entry

theorem Described.congr {state next : MailboxState} (h : state.Described)
    (hmessages : next.messages = state.messages) (henvelopes : next.envelopes = state.envelopes) :
    next.Described := by
  unfold Described
  rw [hmessages, henvelopes]
  exact h

theorem stable_described : Stable Described where
  rewritten := by
    intro state next hrewritten h id envelope henvelope
    rw [hrewritten.envelopes] at henvelope
    obtain ⟨old, hold, hdescribes⟩ := h id envelope henvelope
    obtain ⟨entry, hentry, hsame⟩ := hrewritten.new hold
    exact ⟨entry, hentry, hdescribes.same hsame⟩
  removed := by
    intro state entry next _ _ hremove h id envelope henvelope
    obtain ⟨order, -, hnext⟩ := bind_eq_ok.mp hremove
    cases hnext
    dsimp only at henvelope ⊢
    rw [OrderedMap.get?_clear] at henvelope ⊢
    split_ifs at henvelope ⊢
    exact h id envelope henvelope

variable {primaryHash : String → String}

theorem Described.saveEnvelope {state finish : MailboxState} (h : state.Described)
    (hwell : state.WellFormed) {envelope : Envelope} {primaryKey : Option String}
    {deliverAt : Option ℚ} {result : SaveResult}
    (hsave : state.saveEnvelope primaryHash envelope primaryKey deliverAt =
      .ok (finish, result)) : finish.Described := by
  cases hexisting : state.messages.get? (state.originalId primaryHash envelope primaryKey) with
  | some existing =>
      cases (saveEnvelope_of_stored hexisting deliverAt).symm.trans hsave
      exact h
  | none =>
      obtain ⟨saved, hsaved, -, -, -, henvelopes, hstored⟩ :=
        hwell.saveEnvelope_of_new hexisting deliverAt
      cases hsaved.symm.trans hsave
      intro id other hother
      rw [henvelopes, OrderedMap.get?_set] at hother
      have hrel := hstored id
      rw [OrderedMap.get?_set] at hrel
      split_ifs at hother hrel with hid
      · cases hother
        generalize finish.messages.get? id = found at hrel ⊢
        cases hrel with
        | some hsame =>
            exact ⟨_, rfl, ⟨hsame.id, hsame.requestId, hsame.kind, hsame.address⟩⟩
      · obtain ⟨old, hold, hdescribes⟩ := h id other hother
        rw [hold] at hrel
        generalize finish.messages.get? id = found at hrel ⊢
        cases hrel with
        | some hsame => exact ⟨_, rfl, hdescribes.same hsame⟩

theorem Described.run {state finish : MailboxState} (h : state.Described)
    (hwell : state.WellFormed) {operation : Operation}
    (hrun : state.run primaryHash operation = .ok finish) : finish.Described := by
  by_cases hquiet : operation.isQuiet = true
  · obtain ⟨quiet, hran, -, hrewritten⟩ := hwell.run_of_isQuiet primaryHash hquiet
    obtain rfl := Except.ok.inj (hran.symm.trans hrun)
    exact stable_described.rewritten _ _ hrewritten h
  cases operation with
  | unprocessedMessages shards now addresses limit => exact absurd rfl hquiet
  | resetRequests ids => exact absurd rfl hquiet
  | resetAddresses addresses => exact absurd rfl hquiet
  | resetShards shards => exact absurd rfl hquiet
  | saveEnvelope envelope primaryKey deliverAt =>
      cases hsave : state.saveEnvelope primaryHash envelope primaryKey deliverAt with
      | error cause =>
          rw [MailboxState.run, hsave] at hrun
          cases hrun
      | ok saved =>
          rw [MailboxState.run, hsave] at hrun
          cases hrun
          exact h.saveEnvelope hwell hsave
  | saveReply reply =>
      by_cases hnew : (state.replyMetadata.get? (toLex (reply.requestId, reply.id))).isSome
      · cases (saveReply_of_stored hnew).symm.trans hrun
        exact h
      · by_cases htaken :
            (state.uniqueReplies.get? (toLex (reply.requestId, reply.content.slot))).isSome
        · cases (saveReply_of_taken hnew htaken).symm.trans hrun
        · obtain ⟨saved, hsave, -, hrewritten⟩ := hwell.saveReply_of_new hnew htaken
          cases hsave.symm.trans hrun
          exact stable_described.rewritten _ _ hrewritten (h.congr rfl rfl)
  | clearReplies id expectedReplyId =>
      by_cases hexpected : expectedReplyId ≠ none ∧
          (state.readState id).lastReplyId ≠ expectedReplyId
      · cases (clearReplies_of_unexpected hexpected).symm.trans hrun
        exact h
      · obtain ⟨hmessages, -, henvelopes⟩ := clearedReplies_messages state id
        obtain ⟨cleared, hclear, -, -, -, hdescribed⟩ :=
          hwell.clearReplies_trims hexpected stable_described (h.congr hmessages henvelopes)
        cases hclear.symm.trans hrun
        exact hdescribed
  | clearAddress entityType entityId =>
      obtain ⟨cleared, hclear, -, -, -, hdescribed⟩ := hwell.clearAddress_trims entityType entityId
        stable_described (fun _ _ hstate => hstate.congr rfl rfl) h
      cases hclear.symm.trans hrun
      exact hdescribed

theorem Reached.described {state : MailboxState} (h : Reached primaryHash state) :
    state.Described := by
  induction h with
  | start readVersion => simp [Described, MailboxState.empty]
  | run operation h hrun ih => exact ih.run h.invariant.1 hrun
  | commit _ ih => exact ih

/-! ## Visits and claims -/

/-- The rule of a visit whose updates are related to what they update: so are the messages at
its end, and those that are not in its range are as they were. -/
theorem WellFormed.visitRelated {α : Type} [LinearOrder α]
    {read : MailboxState → OrderedMap α Unit} {range : α → Bool} {messageId : α → Snowflake}
    {rowOf : MessageMeta → α}
    (hindex : ∀ state, state.WellFormed → IndexOf state.messages (read state) rowOf)
    (hrow : ∀ old entry, SameIdentity old entry → rowOf entry = rowOf old)
    (hid : ∀ entry, messageId (rowOf entry) = entry.id)
    {update : Snowflake → MessageMeta → MailboxState → Except MailboxError MailboxState}
    {R : MessageMeta → MessageMeta → Prop} (hrefl : ∀ entry, R entry entry)
    (htrans : ∀ old middle entry, R old middle → R middle entry → R old entry)
    {state : MailboxState} (h : state.WellFormed)
    (hupdate : ∀ middle entry, middle.WellFormed →
      middle.messages.get? entry.id = some entry → range (rowOf entry) = true →
        ∃ next, update entry.id entry middle = .ok next ∧ next.WellFormed ∧
          Continues middle next ∧
          (∀ id, id ≠ entry.id → next.messages.get? id = middle.messages.get? id) ∧
          ∀ entry', next.messages.get? entry.id = some entry' → R entry entry') :
    ∃ finish, visitIndex read range messageId
        (fun id => MailboxState.visitStored (update id) id) state = .ok finish ∧
      ∀ id old, state.messages.get? id = some old →
        (∀ entry, finish.messages.get? id = some entry → R old entry) ∧
        (range (rowOf old) = false → finish.messages.get? id = some old) := by
  obtain ⟨finish, hvisit, -, -, hfinish⟩ := @WellFormed.visitStored _ _ read range messageId rowOf
    hindex hrow hid update (fun middle _ => ∀ id old, state.messages.get? id = some old →
      (∀ entry, middle.messages.get? id = some entry → R old entry) ∧
      (range (rowOf old) = false → middle.messages.get? id = some old)) state h (by
      intro middle entry rest hmiddle hcontinues hentry hrange hkept
      obtain ⟨next, hnext, hwell, hcontinues', hothers, hrelated⟩ :=
        hupdate middle entry hmiddle hentry hrange
      refine ⟨next, hnext, hwell, hcontinues', hothers, ?_⟩
      intro id old hold
      obtain ⟨hR, hframe⟩ := hkept id old hold
      rcases eq_or_ne id entry.id with rfl | hne
      · refine ⟨fun entry' hentry' => htrans _ _ _ (hR entry hentry) (hrelated entry' hentry'), ?_⟩
        intro hout
        obtain ⟨old', hold', hsame⟩ := hcontinues.messages _ entry hentry
        obtain rfl := Option.some.inj (hold'.symm.trans hold)
        rw [hrow _ _ hsame, hout] at hrange
        cases hrange
      · rw [hothers id hne]
        exact ⟨hR, hframe⟩)
    (by
      intro id old hold
      refine ⟨?_, fun _ => hold⟩
      intro entry hentry
      obtain rfl := Option.some.inj (hold.symm.trans hentry)
      exact hrefl old)
  exact ⟨finish, hvisit, hfinish⟩

/-- A message after an operation that stores metadata: its claim is as before. -/
def SameClaim (old entry : MessageMeta) : Prop :=
  SameIdentity old entry ∧ entry.claimedAt = old.claimedAt

theorem SameClaim.refl (entry : MessageMeta) : SameClaim entry entry :=
  ⟨.refl entry, rfl⟩

theorem SameClaim.trans (old middle entry : MessageMeta) (h : SameClaim old middle)
    (h' : SameClaim middle entry) : SameClaim old entry :=
  ⟨h.1.trans h'.1, h'.2.trans h.2⟩

theorem WellFormed.writeRelated {state : MailboxState} (h : state.WellFormed)
    {old entry : MessageMeta} (hold : state.messages.get? old.id = some old)
    (hsame : SameIdentity old entry) (hpolling : entry.polling = old.polling)
    (requestState : RequestState) :
    ∃ next, state.writeMessage entry requestState = .ok next ∧ next.WellFormed ∧
      Rewritten state next ∧
      (∀ id, id ≠ old.id → next.messages.get? id = state.messages.get? id) ∧
      ∀ entry', next.messages.get? old.id = some entry' →
        entry' = { entry with polling := pollingState entry requestState } := by
  rw [← hsame.id] at hold
  obtain ⟨next, hset, hindexed, hrewritten, hmessages, -⟩ := h.toIndexed.setPolling hold hsame
    hpolling (pollingState entry requestState)
  refine ⟨next, hset, hrewritten.wellFormed h hindexed, hrewritten, ?_, ?_⟩
  · intro id hid
    rw [← hsame.id] at hid
    rw [hmessages, OrderedMap.get?_set_of_ne _ _ hid]
  · intro entry' hentry'
    rw [← hsame.id, hmessages, OrderedMap.get?_set_self] at hentry'
    exact (Option.some.inj hentry').symm

/-- An update of all messages of a request that keeps their claims. -/
theorem WellFormed.updateRequest_claims {state finish : MailboxState} (h : state.WellFormed)
    {id : Snowflake} {change : MessageMeta → MessageMeta} {requestState : RequestState}
    (hchange : ∀ entry, SameClaim entry (change entry) ∧ (change entry).polling = entry.polling)
    (hupdate : MailboxState.updateRequest id
      (fun entry state => state.writeMessage (change entry) requestState) state = .ok finish)
    {id' : Snowflake} {old : MessageMeta} (hold : state.messages.get? id' = some old) :
    ∃ entry, finish.messages.get? id' = some entry ∧ SameClaim old entry := by
  obtain ⟨related, hvisit, hrelated⟩ := @WellFormed.visitRelated _ _ messagesByRequest
    (fun row => (ofLex row).1 = id) (fun row => (ofLex row).2) requestRow
    (fun _ hwell => hwell.byRequest) (fun _ _ => requestRow_congr) (fun _ => rfl)
    (fun _ entry state => state.writeMessage (change entry) requestState) SameClaim
    SameClaim.refl SameClaim.trans state h (by
      intro middle entry hmiddle hentry _
      obtain ⟨hsame, hpolling⟩ := hchange entry
      obtain ⟨next, hnext, hwell, hrewritten, hothers, hwritten⟩ :=
        hmiddle.writeRelated hentry hsame.1 hpolling requestState
      refine ⟨next, hnext, hwell, hrewritten.continues, hothers, ?_⟩
      intro entry' hentry'
      rw [hwritten entry' hentry']
      exact ⟨⟨hsame.1.id, hsame.1.requestId, hsame.1.kind, hsame.1.address, hsame.1.primaryKey⟩,
        hsame.2⟩)
  obtain rfl := Except.ok.inj (hvisit.symm.trans hupdate)
  obtain ⟨rewritten, hran, -, hrewritten⟩ := @WellFormed.rewriteRequest state h id change
    (fun entry => ⟨(hchange entry).1.1, (hchange entry).2⟩) requestState
  obtain rfl := Except.ok.inj (hran.symm.trans hupdate)
  obtain ⟨entry, hentry, -⟩ := hrewritten.new hold
  exact ⟨entry, hentry, (hrelated id' old hold).1 entry hentry⟩

/-! ## Operations and claims -/

/-- The operations after which a message may be claimed anew at any time. -/
def Operation.Releases : Operation → Envelope → Prop
  | .clearReplies id _, envelope => envelope.requestId = id
  | .resetRequests ids, envelope => envelope.id ∈ ids
  | .resetAddresses addresses, envelope =>
      ∃ address ∈ addresses, addressKey address = addressKey envelope.address
  | .resetShards shards, envelope => envelope.address.shardId.toString ∈ shards
  | .clearAddress entityType entityId, envelope =>
      envelope.address.entityType = entityType ∧ envelope.address.entityId = entityId
  | _, _ => False

theorem WellFormed.saveEnvelope_claims {state finish : MailboxState} (h : state.WellFormed)
    {envelope : Envelope} {primaryKey : Option String} {deliverAt : Option ℚ}
    {result : SaveResult}
    (hsave : state.saveEnvelope primaryHash envelope primaryKey deliverAt = .ok (finish, result))
    {id : Snowflake} {old : MessageMeta} (hold : state.messages.get? id = some old) :
    ∃ entry, finish.messages.get? id = some entry ∧ SameClaim old entry := by
  cases hexisting : state.messages.get? (state.originalId primaryHash envelope primaryKey) with
  | some existing =>
      cases (saveEnvelope_of_stored hexisting deliverAt).symm.trans hsave
      exact ⟨old, hold, .refl old⟩
  | none =>
      obtain ⟨hfresh, -⟩ := h.fresh_of_original hexisting
      obtain ⟨hmessages, -, -⟩ := acknowledged_messages state envelope
      have hinsert : (state.acknowledged envelope).insertEnvelope envelope
          (state.newMeta primaryHash envelope primaryKey deliverAt) = .ok finish := by
        unfold originalId at hexisting
        unfold MailboxState.saveEnvelope at hsave
        dsimp only at hsave
        rw [hexisting] at hsave
        cases envelope with
        | request requestId address body =>
            obtain ⟨inserted, hinsert, heq⟩ := bind_eq_ok.mp hsave
            cases heq
            exact hinsert
        | ackChunk id requestId replyId address =>
            obtain ⟨inserted, hinsert, heq⟩ := bind_eq_ok.mp hsave
            cases heq
            exact hinsert
        | interrupt id requestId address =>
            obtain ⟨inserted, hinsert, heq⟩ := bind_eq_ok.mp hsave
            cases heq
            exact hinsert
      obtain ⟨queued, hqueue, hinsert⟩ := bind_eq_ok.mp hinsert
      obtain ⟨updated, hupdate, heq⟩ := bind_eq_ok.mp hinsert
      cases heq
      rw [← hmessages] at hfresh hold
      obtain ⟨store, enqueued, henqueue, hqueued, hwell, -⟩ := @WellFormed.enqueue _
        (h.acknowledged envelope) envelope
        (state.newMeta primaryHash envelope primaryKey deliverAt)
        ((state.acknowledged envelope).readState envelope.requestId) hfresh rfl
      obtain rfl : enqueued = queued := Except.ok.inj (henqueue.symm.trans hqueue)
      have hne : id ≠ envelope.id := by
        rintro rfl
        cases hfresh.symm.trans hold
      have hstored : enqueued.messages.get? id = some old := by
        rw [hqueued]
        exact (OrderedMap.get?_set_of_ne _ _ hne).trans hold
      unfold updateSiblings at hupdate
      split_ifs at hupdate with hkind
      · exact hwell.updateRequest_claims (fun entry => ⟨.refl entry, rfl⟩) hupdate hstored
      · cases hupdate
        exact ⟨old, hstored, .refl old⟩

theorem WellFormed.saveReply_claims {state finish : MailboxState} (h : state.WellFormed)
    {reply : Reply} (hsave : state.saveReply reply = .ok finish) {id : Snowflake}
    {old : MessageMeta} (hold : state.messages.get? id = some old) :
    ∃ entry, finish.messages.get? id = some entry ∧ SameClaim old entry := by
  by_cases hnew : (state.replyMetadata.get? (toLex (reply.requestId, reply.id))).isSome
  · cases (saveReply_of_stored hnew).symm.trans hsave
    exact ⟨old, hold, .refl old⟩
  by_cases htaken :
      (state.uniqueReplies.get? (toLex (reply.requestId, reply.content.slot))).isSome
  · cases (saveReply_of_taken hnew htaken).symm.trans hsave
  have hwell : (state.insertReply reply
      (repliedState (state.readState reply.requestId) reply)).WellFormed :=
    h.setReplies _ _ _ _ _
  have hif : state.saveReply reply = if _ ∨ _ then _ else _ := (if_neg hnew).trans (if_neg htaken)
  by_cases hupdate : reply.content.kind = .withExit ∨
      (state.readState reply.requestId).unacked = 0
  · exact @WellFormed.updateRequest_claims _ finish hwell reply.requestId
      (fun entry => { entry with
        processed := entry.processed || decide (reply.content.kind = .withExit) })
      (repliedState (state.readState reply.requestId) reply)
      (fun _ => ⟨⟨⟨rfl, rfl, rfl, rfl, rfl⟩, rfl⟩, rfl⟩)
      ((hif.trans (if_pos hupdate)).symm.trans hsave) id old hold
  · cases (hif.trans (if_neg hupdate)).symm.trans hsave
    exact ⟨old, hold, .refl old⟩

theorem WellFormed.clearReplies_others {state finish : MailboxState} (h : state.WellFormed)
    {id : Snowflake} {expectedReplyId : Option Snowflake}
    (hclear : state.clearReplies id expectedReplyId = .ok finish) {id' : Snowflake}
    {old : MessageMeta} (hold : state.messages.get? id' = some old) (hother : old.requestId ≠ id) :
    finish.messages.get? id' = some old := by
  by_cases hexpected : expectedReplyId ≠ none ∧
      (state.readState id).lastReplyId ≠ expectedReplyId
  · cases (clearReplies_of_unexpected hexpected).symm.trans hclear
    exact hold
  obtain ⟨hwell, -⟩ := h.clearedReplies id
  rw [← (clearedReplies_messages state id).1] at hold
  obtain ⟨related, hvisit, hrelated⟩ := @WellFormed.visitRelated _ _ messagesByRequest
    (fun row => (ofLex row).1 = id) (fun row => (ofLex row).2) requestRow
    (fun _ hwell => hwell.byRequest) (fun _ _ => requestRow_congr) (fun _ => rfl)
    (fun _ entry middle =>
      if entry.kind = .interrupt ∧ expectedReplyId = none then middle.removeMessage entry
      else middle.writeMessage { entry with processed := false, claimedAt := none }
        { state.readState id with lastReplyId := none, exitId := none })
    (fun _ _ => True) (fun _ => trivial) (fun _ _ _ _ _ => trivial) _ hwell (by
      intro middle entry hmiddle hentry _
      split_ifs with hremove
      · obtain ⟨next, hnext, hwell', hcontinues, hmessages, -⟩ := hmiddle.removeMessage hentry
        refine ⟨next, hnext, hwell', hcontinues, ?_, fun _ _ => trivial⟩
        intro other hne
        rw [hmessages, OrderedMap.get?_clear_of_ne _ hne]
      · obtain ⟨next, hnext, hwell', hrewritten, hothers, -⟩ := @WellFormed.writeRelated middle
          hmiddle entry { entry with processed := false, claimedAt := none } hentry
          ⟨rfl, rfl, rfl, rfl, rfl⟩ rfl _
        exact ⟨next, hnext, hwell', hrewritten.continues, hothers, fun _ _ => trivial⟩)
  cases ((if_neg hexpected).trans hvisit).symm.trans hclear
  exact (hrelated id' old hold).2 (decide_eq_false hother)

theorem WellFormed.clearAddress_others {state finish : MailboxState} (h : state.WellFormed)
    {entityType entityId : String} (hclear : state.clearAddress entityType entityId = .ok finish)
    {id : Snowflake} {old : MessageMeta} (hold : state.messages.get? id = some old)
    (hother : ¬ IsAt entityType entityId old) : finish.messages.get? id = some old := by
  obtain ⟨cleared, removed, hran, -, -, hcleared⟩ := h.clearAddress_cleared entityType entityId
  obtain rfl := Except.ok.inj (hran.symm.trans hclear)
  refine (hcleared.messages id old).mpr ⟨hold, ?_⟩
  intro hremoved
  obtain ⟨entry, hentry, hat⟩ := hcleared.addressed id hremoved
  obtain rfl := Option.some.inj (hold.symm.trans hentry)
  exact hother hat

theorem WellFormed.resetIndex_others {α : Type} [LinearOrder α]
    {read : MailboxState → OrderedMap α Unit} {range : α → Bool} {messageId : α → Snowflake}
    {rowOf : MessageMeta → α}
    (hindex : ∀ state, state.WellFormed → IndexOf state.messages (read state) rowOf)
    (hrow : ∀ old entry, SameIdentity old entry → rowOf entry = rowOf old)
    (hid : ∀ entry, messageId (rowOf entry) = entry.id) {state : MailboxState}
    (h : state.WellFormed) {id : Snowflake} {old : MessageMeta}
    (hold : state.messages.get? id = some old) (hout : range (rowOf old) = false) :
    ∃ finish, MailboxState.resetIndex read range messageId state = .ok finish ∧
      finish.WellFormed ∧ finish.messages.get? id = some old := by
  obtain ⟨related, hvisit, hrelated⟩ := @WellFormed.visitRelated _ _ read range messageId rowOf
    hindex hrow hid
    (fun _ entry state =>
      if !entry.processed ∧ entry.claimedAt ≠ none then MailboxState.resetMessage entry state
      else .ok state)
    (fun _ _ => True) (fun _ => trivial) (fun _ _ _ _ _ => trivial) state h (by
      intro middle entry hmiddle hentry _
      split_ifs with hclaimed
      · obtain ⟨next, hnext, hwell, hrewritten, hothers⟩ := hmiddle.rewriteReset hentry
        exact ⟨next, hnext, hwell, hrewritten.continues, hothers, fun _ _ => trivial⟩
      · exact ⟨middle, rfl, hmiddle, .refl middle, fun _ _ => rfl, fun _ _ => trivial⟩)
  obtain ⟨finish, hran, hwell, -⟩ := @WellFormed.rewriteIndex _ _ read range messageId rowOf hindex
    hrow hid state h
  obtain rfl := Except.ok.inj (hvisit.symm.trans hran)
  exact ⟨related, hvisit, hwell, (hrelated id old hold).2 hout⟩

theorem WellFormed.resetRequests_others {state finish : MailboxState} (h : state.WellFormed)
    {ids : List Snowflake} (hreset : state.resetRequests ids = .ok finish) {id : Snowflake}
    {old : MessageMeta} (hold : state.messages.get? id = some old) (hother : id ∉ ids) :
    finish.messages.get? id = some old := by
  obtain ⟨reset, hran, -, hkept⟩ : ∃ reset, state.resetRequests ids = .ok reset ∧
      reset.WellFormed ∧ reset.messages.get? id = some old := by
    refine foldlM_rule_of_mem ?_ ⟨h, hold⟩
    rintro middle other hmem ⟨hmiddle, hstored⟩
    cases hentry : middle.messages.get? other with
    | none => exact ⟨middle, rfl, hmiddle, hstored⟩
    | some entry =>
        dsimp only
        split_ifs with hprocessed
        · exact ⟨middle, rfl, hmiddle, hstored⟩
        · obtain rfl := hmiddle.keyed other entry hentry
          obtain ⟨next, hnext, hwell, -, hothers⟩ := hmiddle.rewriteReset hentry
          have hne : id ≠ entry.id := fun heq => hother (heq ▸ hmem)
          exact ⟨next, hnext, hwell, (hothers id hne).trans hstored⟩
  obtain rfl := Except.ok.inj (hran.symm.trans hreset)
  exact hkept

theorem WellFormed.resetAddresses_others {state finish : MailboxState} (h : state.WellFormed)
    {addresses : List EntityAddress} (hreset : state.resetAddresses addresses = .ok finish)
    {id : Snowflake} {old : MessageMeta} (hold : state.messages.get? id = some old)
    (hother : ∀ address ∈ addresses, addressKey address ≠ addressKey old.address) :
    finish.messages.get? id = some old := by
  obtain ⟨reset, hran, -, hkept⟩ : ∃ reset, state.resetAddresses addresses = .ok reset ∧
      reset.WellFormed ∧ reset.messages.get? id = some old := by
    refine foldlM_rule_of_mem ?_ ⟨h, hold⟩
    rintro middle address hmem ⟨hmiddle, hstored⟩
    refine hmiddle.resetIndex_others (fun _ hwell => hwell.byAddress)
      (fun _ _ => addressRow_congr) (fun _ => rfl) hstored (decide_eq_false ?_)
    rintro ⟨htype, hid, hshard⟩
    apply hother address hmem
    unfold addressKey
    rw [← htype, ← hid, ← hshard]
    rfl
  obtain rfl := Except.ok.inj (hran.symm.trans hreset)
  exact hkept

theorem WellFormed.resetShards_others {state finish : MailboxState} (h : state.WellFormed)
    {shards : List String} (hreset : state.resetShards shards = .ok finish)
    {id : Snowflake} {old : MessageMeta} (hold : state.messages.get? id = some old)
    (hother : old.address.shardId.toString ∉ shards) : finish.messages.get? id = some old := by
  obtain ⟨reset, hran, -, hkept⟩ : ∃ reset, state.resetShards shards = .ok reset ∧
      reset.WellFormed ∧ reset.messages.get? id = some old := by
    refine foldlM_rule_of_mem ?_ ⟨h, hold⟩
    rintro middle shard hmem ⟨hmiddle, hstored⟩
    refine hmiddle.resetIndex_others (fun _ hwell => hwell.byShard)
      (fun _ _ => shardRow_congr) (fun _ => rfl) hstored (decide_eq_false ?_)
    rintro (rfl : old.address.shardId.toString = shard)
    exact hother hmem
  obtain rfl := Except.ok.inj (hran.symm.trans hreset)
  exact hkept

/-! ## Polls and claims -/

theorem Indexed.poll_claims {state : MailboxState} (h : state.Indexed) {shards : List String}
    {now : ℚ} {addresses : Option (List EntityAddress)} {limit : Option ℚ}
    {polled : MailboxState × List LoadedMessage}
    (hpoll : state.unprocessedMessages shards now addresses limit = .ok polled) :
    ∃ claimed : List MessageMeta,
      (∀ entry ∈ claimed, state.messages.get? entry.id = some entry ∧
        isEligible now entry (state.readState entry.requestId) = true) ∧
      claimed.mapM (fun entry => state.loadMessage entry (state.readState entry.requestId)) =
        .ok polled.2 ∧
      ∀ id old, state.messages.get? id = some old →
        ∃ polling, polled.1.messages.get? id = some { old with
          claimedAt := if old ∈ claimed then some now else old.claimedAt
          polling } := by
  unfold unprocessedMessages at hpoll
  dsimp only at hpoll
  split_ifs at hpoll with hzero
  · cases hpoll
    exact ⟨[], fun _ hentry => absurd hentry List.not_mem_nil, rfl,
      fun id old hold => ⟨old.polling, hold⟩⟩
  · obtain ⟨start, visited, hpromote, hvisit, hpromoted, -, hpolled⟩ :=
      h.visitPoll shards now addresses hzero
    obtain rfl : visited = polled :=
      Except.ok.inj ((bind_eq_ok.mpr ⟨start, hpromote, hvisit⟩).symm.trans hpoll)
    refine ⟨_, ?_, hpolled.loads hpromoted h, fun id old hold => hpolled.messages hpromoted h hold⟩
    intro entry hentry
    exact ((mem_eligible h).mp ((truncate_sublist _ _).subset hentry)).2

theorem Indexed.poll_returns {state : MailboxState} (h : state.Indexed) {shards : List String}
    {now : ℚ} {addresses : Option (List EntityAddress)} {limit : Option ℚ}
    {polled : MailboxState × List LoadedMessage}
    (hpoll : state.unprocessedMessages shards now addresses limit = .ok polled)
    {message : LoadedMessage} (hmessage : message ∈ polled.2) :
    ∃ entry, state.messages.get? entry.id = some entry ∧
      isEligible now entry (state.readState entry.requestId) = true ∧
      state.envelopes.get? entry.id = some message.envelope ∧
      ∃ polling, polled.1.messages.get? entry.id =
        some { entry with claimedAt := some now, polling } := by
  obtain ⟨claimed, hclaimed, hloads, hmessages⟩ := h.poll_claims hpoll
  obtain ⟨entry, hentry, hload⟩ := exists_of_mem_mapM hloads hmessage
  obtain ⟨hstored, heligible⟩ := hclaimed entry hentry
  refine ⟨entry, hstored, heligible, ?_, ?_⟩
  · unfold loadMessage at hload
    cases henvelope : state.envelopes.get? entry.id with
    | none =>
        rw [henvelope] at hload
        cases hload
    | some envelope =>
        rw [henvelope] at hload
        cases hload
        rfl
  · obtain ⟨polling, hpolling⟩ := hmessages entry.id entry hstored
    rw [if_pos hentry] at hpolling
    exact ⟨polling, hpolling⟩

/-! ## Runs -/

inductive MailboxEvent where
  | ran (operation : Operation)
  | committed

def EventStep (primaryHash : String → String) (state : MailboxState) :
    MailboxEvent → MailboxState → Prop
  | .ran operation, next => state.run primaryHash operation = .ok next
  | .committed, next => next = state.commit

def MailboxEvent.Releases : MailboxEvent → Envelope → Prop
  | .ran operation, envelope => operation.Releases envelope
  | .committed, _ => False

theorem Reached.event {state next : MailboxState} (h : Reached primaryHash state)
    {event : MailboxEvent} (hstep : EventStep primaryHash state event next) :
    Reached primaryHash next := by
  cases event with
  | ran operation => exact h.run operation hstep
  | committed =>
      cases hstep
      exact h.commit

/-- The message of an envelope is stored with a claim that is not older than a time. -/
def ClaimedSince (state : MailboxState) (time : ℚ) (envelope : Envelope) : Prop :=
  ∃ entry claimedAt, state.messages.get? envelope.id = some entry ∧ envelope.Describes entry ∧
    entry.claimedAt = some claimedAt ∧ time ≤ claimedAt

theorem ClaimedSince.of_same {state next : MailboxState} {time : ℚ} {envelope : Envelope}
    (h : state.ClaimedSince time envelope)
    (hsame : ∀ old, state.messages.get? envelope.id = some old → envelope.Describes old →
      ∃ entry, next.messages.get? envelope.id = some entry ∧ SameClaim old entry) :
    next.ClaimedSince time envelope := by
  obtain ⟨old, claimedAt, hold, hdescribes, hclaimed, htime⟩ := h
  obtain ⟨entry, hentry, hidentity, hclaim⟩ := hsame old hold hdescribes
  exact ⟨entry, claimedAt, hentry, hdescribes.same hidentity, hclaim.trans hclaimed, htime⟩

theorem ClaimedSince.poll {state : MailboxState} (hindexed : state.Indexed) {time : ℚ}
    {envelope : Envelope} (h : state.ClaimedSince time envelope) {shards : List String} {now : ℚ}
    {addresses : Option (List EntityAddress)} {limit : Option ℚ}
    {polled : MailboxState × List LoadedMessage}
    (hpoll : state.unprocessedMessages shards now addresses limit = .ok polled) :
    polled.1.ClaimedSince time envelope := by
  obtain ⟨entry, claimedAt, hentry, hdescribes, hclaim, htime⟩ := h
  obtain ⟨claimed, heligible, -, hmessages⟩ := hindexed.poll_claims hpoll
  obtain ⟨polling, hpolled⟩ := hmessages _ entry hentry
  by_cases hmem : entry ∈ claimed
  · rw [if_pos hmem] at hpolled
    obtain ⟨-, hexpired⟩ := heligible entry hmem
    unfold isEligible at hexpired
    simp only [decide_eq_true_eq, hclaim, Option.all_some] at hexpired
    obtain ⟨-, -, -, -, -, hexpired⟩ := hexpired
    refine ⟨_, now, hpolled, hdescribes.same ⟨rfl, rfl, rfl, rfl, rfl⟩, rfl, ?_⟩
    have hpositive : 0 < claimExpirationMillis := by norm_num [claimExpirationMillis]
    linarith
  · rw [if_neg hmem] at hpolled
    exact ⟨_, claimedAt, hpolled, hdescribes.same ⟨rfl, rfl, rfl, rfl, rfl⟩, hclaim, htime⟩

theorem ClaimedSince.run {state next : MailboxState} (hwell : state.WellFormed) {time : ℚ}
    {envelope : Envelope} (h : state.ClaimedSince time envelope) {operation : Operation}
    (hrun : state.run primaryHash operation = .ok next)
    (hkeeps : ¬ operation.Releases envelope) : next.ClaimedSince time envelope := by
  have hkept (hget : ∀ old, state.messages.get? envelope.id = some old →
      envelope.Describes old → next.messages.get? envelope.id = some old) :
      next.ClaimedSince time envelope :=
    h.of_same fun old hold hdescribes => ⟨old, hget old hold hdescribes, .refl old⟩
  cases operation with
  | saveEnvelope saved primaryKey deliverAt =>
      rw [MailboxState.run] at hrun
      cases hsave : state.saveEnvelope primaryHash saved primaryKey deliverAt with
      | error cause =>
          rw [hsave] at hrun
          cases hrun
      | ok result =>
          rw [hsave] at hrun
          cases hrun
          exact h.of_same fun old hold _ => hwell.saveEnvelope_claims hsave hold
  | saveReply reply => exact h.of_same fun old hold _ => hwell.saveReply_claims hrun hold
  | clearReplies id expectedReplyId =>
      refine hkept fun old hold hdescribes => hwell.clearReplies_others hrun hold ?_
      rw [hdescribes.requestId]
      exact hkeeps
  | unprocessedMessages shards now addresses limit =>
      rw [MailboxState.run] at hrun
      cases hpoll : state.unprocessedMessages shards now addresses limit with
      | error cause =>
          rw [hpoll] at hrun
          cases hrun
      | ok polled =>
          rw [hpoll] at hrun
          cases hrun
          exact h.poll hwell.toIndexed hpoll
  | resetRequests ids =>
      exact hkept fun old hold _ => hwell.resetRequests_others hrun hold hkeeps
  | resetAddresses addresses =>
      refine hkept fun old hold hdescribes => hwell.resetAddresses_others hrun hold ?_
      intro address hmem hsame
      rw [hdescribes.address] at hsame
      exact hkeeps ⟨address, hmem, hsame⟩
  | resetShards shards =>
      refine hkept fun old hold hdescribes => hwell.resetShards_others hrun hold ?_
      rw [hdescribes.address]
      exact hkeeps
  | clearAddress entityType entityId =>
      refine hkept fun old hold hdescribes => hwell.clearAddress_others hrun hold ?_
      rw [IsAt, hdescribes.address]
      exact hkeeps

/-- A claim lasts until an event releases it. -/
theorem ClaimedSince.events {state finish : MailboxState} (hreached : Reached primaryHash state)
    {time : ℚ} {envelope : Envelope} (h : state.ClaimedSince time envelope)
    {events : List MailboxEvent} (hrun : Run (EventStep primaryHash) state events finish) :
    Reached primaryHash finish ∧
      (finish.ClaimedSince time envelope ∨ ∃ event ∈ events, event.Releases envelope) := by
  induction hrun with
  | nil => exact ⟨hreached, .inl h⟩
  | @snoc middle next events event _ hstep ih =>
      obtain ⟨hmiddle, hclaim⟩ := ih
      refine ⟨hmiddle.event hstep, ?_⟩
      rcases hclaim with hclaim | ⟨released, hmem, hreleases⟩
      · by_cases hkeeps : event.Releases envelope
        · exact .inr ⟨event, by simp, hkeeps⟩
        · cases event with
          | ran operation => exact .inl (hclaim.run hmiddle.invariant.1 hstep hkeeps)
          | committed =>
              cases hstep
              exact .inl hclaim
      · exact .inr ⟨released, List.mem_append_left _ hmem, hreleases⟩

/-- A message that a poll has returned is not returned again before its claim expires, unless
it was released in between. -/
theorem deliveries_spaced {state later : MailboxState} (hreached : Reached primaryHash state)
    {shards shards' : List String} {now now' : ℚ}
    {addresses addresses' : Option (List EntityAddress)} {limit limit' : Option ℚ}
    {first second : MailboxState × List LoadedMessage} {events : List MailboxEvent}
    (hfirst : state.unprocessedMessages shards now addresses limit = .ok first)
    (hrun : Run (EventStep primaryHash) first.1 events later)
    (hsecond : later.unprocessedMessages shards' now' addresses' limit' = .ok second)
    {message message' : LoadedMessage} (hmessage : message ∈ first.2)
    (hmessage' : message' ∈ second.2) (hid : message'.envelope.id = message.envelope.id) :
    now + claimExpirationMillis ≤ now' ∨ ∃ event ∈ events, event.Releases message.envelope := by
  obtain ⟨entry, hentry, -, henvelope, polling, hclaimed⟩ :=
    hreached.invariant.1.toIndexed.poll_returns hfirst hmessage
  obtain ⟨entry', hentry', hdescribes⟩ := hreached.described entry.id message.envelope henvelope
  obtain rfl := Option.some.inj (hentry.symm.trans hentry')
  have hsince : first.1.ClaimedSince now message.envelope :=
    ⟨_, now, (congrArg first.1.messages.get? hdescribes.id).symm.trans hclaimed,
      hdescribes.same ⟨rfl, rfl, rfl, rfl, rfl⟩, rfl, le_refl now⟩
  have hreached' : Reached primaryHash first.1 :=
    hreached.run (.unprocessedMessages shards now addresses limit) (by
      rw [MailboxState.run, hfirst]
      rfl)
  obtain ⟨hlater, hclaim | hreleased⟩ := hsince.events hreached' hrun
  · obtain ⟨again, hagain, heligible, henvelope', -⟩ :=
      hlater.invariant.1.toIndexed.poll_returns hsecond hmessage'
    obtain ⟨stored, hstored, hdescribes'⟩ := hlater.described again.id message'.envelope henvelope'
    obtain rfl := Option.some.inj (hagain.symm.trans hstored)
    obtain ⟨old, claimedAt, hold, -, hclaim, htime⟩ := hclaim
    rw [← hid, ← hdescribes'.id] at hold
    obtain rfl := Option.some.inj (hagain.symm.trans hold)
    unfold isEligible at heligible
    simp only [decide_eq_true_eq, hclaim, Option.all_some] at heligible
    obtain ⟨-, -, -, -, -, hexpired⟩ := heligible
    exact .inl (by linarith)
  · exact .inr hreleased

def polledTwice : Except MailboxError
    (MailboxState × (MailboxState × List LoadedMessage) × MailboxState × List LoadedMessage) := do
  let state ← (empty 0).run id (.saveEnvelope (.request 1 (userAddress "a") "{}") none none)
  let first ← state.commit.unprocessedMessages ["default:1"] 0 none none
  let second ← first.1.commit.unprocessedMessages ["default:1"] 600000 none none
  .ok (state, first, second)

theorem deliveries_spaced_polledTwice : ∃ state first second,
    polledTwice = .ok (state, first, second) ∧
    first.2 = [⟨.request 1 (userAddress "a") "{}", none⟩] ∧
    second.2 = [⟨.request 1 (userAddress "a") "{}", none⟩] ∧
    (0 + claimExpirationMillis ≤ 600000 ∨
      ∃ event ∈ [MailboxEvent.committed], event.Releases (.request 1 (userAddress "a") "{}")) := by
  obtain ⟨⟨state, first, second⟩, hpolls, hmessages⟩ := @exists_of_toOption _ _ polledTwice
    (fun polls => decide (polls.2.1.2 = [⟨.request 1 (userAddress "a") "{}", none⟩] ∧
      polls.2.2.2 = [⟨.request 1 (userAddress "a") "{}", none⟩])) (by decide +kernel)
  obtain ⟨hfirst, hsecond⟩ := decide_eq_true_eq.mp hmessages
  obtain ⟨saved, hsave, hpolled⟩ := bind_eq_ok.mp hpolls
  obtain ⟨polled, hpoll, hpolled⟩ := bind_eq_ok.mp hpolled
  obtain ⟨polled', hpoll', hpolled⟩ := bind_eq_ok.mp hpolled
  cases hpolled
  have hreached : Reached id state.commit := .commit (.run _ (.start 0) hsave)
  have hcommit : EventStep id first.1 .committed first.1.commit := rfl
  refine ⟨state, first, second, hpolls, hfirst, hsecond, ?_⟩
  exact deliveries_spaced hreached hpoll (.single hcommit) hpoll'
    (hfirst ▸ List.mem_singleton_self _) (hsecond ▸ List.mem_singleton_self _) rfl

end MailboxState

end FoundationDbEffect.Cluster
