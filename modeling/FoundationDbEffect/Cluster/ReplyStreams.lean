import FoundationDbEffect.Cluster.Deliveries
import FoundationDbEffect.Cluster.ReplyAccounting

/-!
# Streams of replies

A client that reconnects reads the replies of its requests: all of them, or those that it may
have missed, which are the exit and the chunks that it has not acknowledged. Such a reply stays
outstanding until it is acknowledged or cleared, and no message of its request is delivered
before that.
-/

namespace FoundationDbEffect.Cluster

open FoundationDbEffect.Foundation

namespace MailboxState

def visitReply (filtered : Bool) (id : Snowflake) (row : Snowflake ×ₗ Snowflake)
    (read : MailboxState × List Reply) :
    Except MailboxError ((MailboxState × List Reply) × Bool) :=
  let (state, result) := read
  let replyId := (ofLex row).2
  match state.replyMetadata.get? (toLex (id, replyId)) with
  | none => .ok (read, true)
  | some entry =>
    if !filtered || entry.kind = .withExit || !entry.acked then
      match state.replies.get? (toLex (id, replyId)) with
      | none => .error (.missingMessageRecord .reply replyId)
      | some reply => .ok ((state, result ++ [reply]), true)
    else .ok (read, true)

/-- The reads leave the mailbox as it is. -/
def readReplies (ids : List Snowflake) (filtered : Bool) (state : MailboxState) :
    Except MailboxError (List Reply) :=
  (ids.eraseDups.foldlM
    (fun read id => OrderedMap.visitPages (fun read => read.1.replyIds)
      (fun row => (ofLex row).1 = id) pageSize (visitEach (visitReply filtered id)) read)
    (state, [])).map Prod.snd

def repliesFor (ids : List Snowflake) (state : MailboxState) : Except MailboxError (List Reply) :=
  state.readReplies ids true

def repliesForUnfiltered (ids : List Snowflake) (state : MailboxState) :
    Except MailboxError (List Reply) :=
  state.readReplies ids false

/-! ## What a read returns -/

def repliesOf (state : MailboxState) (request : Snowflake) : List Reply :=
  (state.replies.rows fun row => (ofLex row).1 = request).map Prod.snd

def isAwaited (state : MailboxState) (reply : Reply) : Bool :=
  reply.content.kind = .withExit ||
    (state.replyMetadata.get? (toLex (reply.requestId, reply.id))).any fun entry => !entry.acked

variable {state : MailboxState}

theorem mem_repliesOf (h : state.replyStore.Accounted) {request : Snowflake} {reply : Reply} :
    reply ∈ state.repliesOf request ↔
      reply.requestId = request ∧ state.replies.get? (toLex (request, reply.id)) = some reply := by
  unfold repliesOf
  rw [List.mem_map]
  constructor
  · rintro ⟨⟨row, stored⟩, hmem, rfl⟩
    obtain ⟨hrange, hget⟩ := OrderedMap.mem_rows.mp hmem
    obtain rfl : (ofLex row).1 = request := decide_eq_true_eq.mp hrange
    obtain ⟨hrequest, hid, -⟩ := h.described (ofLex row).1 (ofLex row).2 stored hget
    rw [hid]
    exact ⟨hrequest, hget⟩
  · rintro ⟨-, hget⟩
    exact ⟨(toLex (request, reply.id), reply),
      OrderedMap.mem_rows.mpr ⟨decide_eq_true rfl, hget⟩, rfl⟩

theorem repliesOf_sorted (h : state.replyStore.Accounted) (request : Snowflake) :
    (state.repliesOf request).Pairwise fun left right => left.id < right.id := by
  unfold repliesOf
  rw [List.pairwise_map]
  refine List.Pairwise.imp_of_mem ?_ (OrderedMap.rows_sorted _ _)
  rintro ⟨left, first⟩ ⟨right, second⟩ hleft hright hlt
  obtain ⟨hrange, hget⟩ := OrderedMap.mem_rows.mp hleft
  obtain ⟨hrange', hget'⟩ := OrderedMap.mem_rows.mp hright
  have hsame : (ofLex left).1 = (ofLex right).1 :=
    (decide_eq_true_eq.mp hrange).trans (decide_eq_true_eq.mp hrange').symm
  obtain ⟨-, hid, -⟩ := h.described (ofLex left).1 (ofLex left).2 first hget
  obtain ⟨-, hid', -⟩ := h.described (ofLex right).1 (ofLex right).2 second hget'
  dsimp only
  rw [hid, hid']
  rcases Prod.Lex.lt_iff.mp hlt with hrequest | ⟨-, hlt⟩
  · exact absurd hsame hrequest.ne
  · exact hlt

theorem visitReply_eq (h : state.replyStore.Accounted) (filtered : Bool)
    {row : Snowflake ×ₗ Snowflake} (hrow : (state.replyIds.get? row).isSome)
    (result : List Reply) :
    visitReply filtered (ofLex row).1 row (state, result) =
      .ok ((state, result ++ ((state.replies.get? row).filter
        fun reply => !filtered || state.isAwaited reply).toList), true) := by
  obtain ⟨reply, hreply⟩ := Option.isSome_iff_exists.mp ((h.ids row).mp hrow)
  obtain ⟨hrequest, hid, acked, hentry⟩ := h.described (ofLex row).1 (ofLex row).2 reply hreply
  have hrow' : toLex ((ofLex row).1, (ofLex row).2) = row := rfl
  rw [hrow'] at hentry
  change state.replies.get? row = some reply at hreply
  change state.replyMetadata.get? row = _ at hentry
  have hawaited : state.isAwaited reply = (reply.content.kind = .withExit || !acked) := by
    unfold isAwaited
    rw [hrequest, hid, hrow', hentry]
    rfl
  unfold visitReply
  dsimp only
  rw [hrow', hentry, hreply, Option.filter_some, hawaited]
  dsimp only
  rw [Bool.or_assoc]
  split
  · rfl
  · rw [Option.toList_none, List.append_nil]

theorem visitReplies (h : state.replyStore.Accounted) (filtered : Bool) (id : Snowflake)
    (result : List Reply) :
    OrderedMap.visitPages (fun read : MailboxState × List Reply => read.1.replyIds)
        (fun row => (ofLex row).1 = id) pageSize (visitEach (visitReply filtered id))
        (state, result) =
      .ok (state, result ++ (state.repliesOf id).filter
        fun reply => !filtered || state.isAwaited reply) := by
  obtain ⟨read, hvisit, hstate, -, hread⟩ := @OrderedMap.visitPages_each_rule MailboxError
    (MailboxState × List Reply) _ Unit _ (fun read => read.1.replyIds)
    (fun row => (ofLex row).1 = id) pageSize (visitReply filtered id)
    (fun read rest => read.1 = state ∧
      (∀ row ∈ rest, (ofLex row).1 = id ∧ (state.replyIds.get? row).isSome) ∧
      read.2 ++ rest.filterMap (fun row => (state.replies.get? row).filter
        fun reply => !filtered || state.isAwaited reply) =
        result ++ (state.repliesOf id).filter fun reply => !filtered || state.isAwaited reply)
    (by decide) (by
      rintro ⟨_, read⟩ row rest ⟨rfl, hrows, hresult⟩
      obtain ⟨rfl, hrow⟩ := hrows row List.mem_cons_self
      refine ⟨_, visitReply_eq h filtered hrow read, ⟨rfl, ?_, ?_⟩, fun _ _ _ => rfl⟩
      · exact fun other hother => hrows other (List.mem_cons_of_mem _ hother)
      · rw [← hresult, List.append_assoc]
        congr 1
        rw [List.filterMap_cons]
        cases (OrderedMap.get? _ row).filter _ <;> rfl)
    (state, result) (by
      refine ⟨rfl, ?_, ?_⟩
      · intro row hmem
        obtain ⟨hrange, -, hsome⟩ := OrderedMap.mem_keysAfter.mp hmem
        exact ⟨decide_eq_true_eq.mp hrange, hsome⟩
      · have hkeys : state.replyIds.keysAfter (fun row => (ofLex row).1 = id) none =
            state.replies.keysAfter (fun row => (ofLex row).1 = id) none :=
          OrderedMap.keysAfter_congr (fun key _ => h.ids key) none
        rw [hkeys, OrderedMap.filterMap_keysAfter]
        rfl)
  obtain ⟨finish, replies⟩ := read
  obtain rfl : state = finish := hstate.symm
  rw [List.filterMap_nil, List.append_nil] at hread
  rw [hvisit]
  exact congrArg (fun replies => Except.ok (state, replies)) hread

theorem readReplies_eq (h : state.replyStore.Accounted) (ids : List Snowflake)
    (filtered : Bool) :
    state.readReplies ids filtered = .ok (ids.eraseDups.flatMap fun id =>
      (state.repliesOf id).filter fun reply => !filtered || state.isAwaited reply) := by
  have hreads (ids : List Snowflake) (result : List Reply) :
      ids.foldlM (fun read id => OrderedMap.visitPages
          (fun read : MailboxState × List Reply => read.1.replyIds)
          (fun row => (ofLex row).1 = id) pageSize (visitEach (visitReply filtered id)) read)
          (state, result) =
        Except.ok (state, result ++ ids.flatMap fun id =>
          (state.repliesOf id).filter fun reply => !filtered || state.isAwaited reply) := by
    induction ids generalizing result with
    | nil =>
        rw [List.flatMap_nil, List.append_nil]
        rfl
    | cons id ids ih =>
        rw [List.flatMap_cons, ← List.append_assoc]
        exact bind_eq_ok.mpr ⟨_, visitReplies h filtered id result, ih _⟩
  unfold readReplies
  rw [hreads, List.nil_append]
  rfl

theorem Reached.accounted {primaryHash : String → String} (h : Reached primaryHash state) :
    state.replyStore.Accounted := by
  induction h with
  | start readVersion => exact ReplyStore.accounted_empty
  | run operation h hrun ih => exact (h.invariant.1.run_accounted ih hrun).2
  | commit _ ih => exact ih

def firstChunk : Reply where
  id := 5
  requestId := 1
  content := .chunk 0 ["1"]

def streamingRequest : Except MailboxError MailboxState := do
  let state ← (empty 0).run id (.saveEnvelope (.request 1 (userAddress "a") "{}") none none)
  state.commit.run id (.saveReply firstChunk)

/-- A read returns the stored replies of the requests that are asked for, request by request
and in the order of their ids, each once, and no read meets a record that is missing. -/
theorem replies_read (primaryHash : String → String) (h : Reached primaryHash state)
    (ids : List Snowflake) :
    state.repliesForUnfiltered ids = .ok (ids.eraseDups.flatMap state.repliesOf) ∧
      state.repliesFor ids =
        .ok (ids.eraseDups.flatMap fun id => (state.repliesOf id).filter state.isAwaited) ∧
      ∀ request, ((state.repliesOf request).Pairwise fun left right => left.id < right.id) ∧
        ∀ reply, reply ∈ state.repliesOf request ↔ reply.requestId = request ∧
          state.replies.get? (toLex (request, reply.id)) = some reply := by
  have haccounted := h.accounted
  refine ⟨?_, readReplies_eq haccounted ids true, fun request =>
    ⟨repliesOf_sorted haccounted request, fun reply => mem_repliesOf haccounted⟩⟩
  unfold repliesForUnfiltered
  rw [readReplies_eq haccounted ids false]
  simp

theorem replies_read_streamingRequest : ∃ state, streamingRequest = .ok state ∧
    state.repliesForUnfiltered [1, 2, 1] = .ok ([1, 2, 1].eraseDups.flatMap state.repliesOf) ∧
      state.repliesFor [1, 2, 1] = .ok ([1, 2, 1].eraseDups.flatMap fun id =>
        (state.repliesOf id).filter state.isAwaited) ∧
      ∀ request, ((state.repliesOf request).Pairwise fun left right => left.id < right.id) ∧
        ∀ reply, reply ∈ state.repliesOf request ↔ reply.requestId = request ∧
          state.replies.get? (toLex (request, reply.id)) = some reply := by
  obtain ⟨state, hstate, -⟩ := @exists_of_toOption _ _ streamingRequest
    (fun state => decide (firstChunk ∈ state.repliesOf 1)) (by decide +kernel)
  obtain ⟨saved, hsave, hreplied⟩ := bind_eq_ok.mp hstate
  exact ⟨state, hstate, replies_read id (.run _ (.commit (.run _ (.start 0) hsave)) hreplied) _⟩

/-! ## Outstanding replies -/

/-- A stored reply that a client may still have to be sent. -/
def Outstanding (state : MailboxState) (reply : Reply) : Prop :=
  state.replies.get? (toLex (reply.requestId, reply.id)) = some reply ∧
    state.isAwaited reply = true

instance decidableOutstanding (state : MailboxState) (reply : Reply) :
    Decidable (state.Outstanding reply) :=
  inferInstanceAs (Decidable (_ ∧ _))

/-- The operations after which a reply is no longer outstanding: the acknowledgement of a chunk,
a clear of the exit, and a clear of the address of the request. -/
def Operation.Settles (state : MailboxState) (reply : Reply) : Operation → Prop
  | .saveEnvelope (.ackChunk _ requestId replyId _) _ _ =>
      requestId = reply.requestId ∧ replyId = reply.id ∧ reply.content.kind = .chunk
  | .clearReplies id expectedReplyId =>
      id = reply.requestId ∧ reply.content.kind = .withExit ∧
        (expectedReplyId = none ∨ (state.readState id).lastReplyId = expectedReplyId)
  | .clearAddress entityType entityId => state.Requested entityType entityId reply.requestId
  | _ => False

theorem Outstanding.congr {next : MailboxState} {reply : Reply} (h : state.Outstanding reply)
    (hreplies : next.replies.get? (toLex (reply.requestId, reply.id)) =
      state.replies.get? (toLex (reply.requestId, reply.id)))
    (hmetadata : next.replyMetadata.get? (toLex (reply.requestId, reply.id)) =
      state.replyMetadata.get? (toLex (reply.requestId, reply.id))) : next.Outstanding reply := by
  unfold Outstanding isAwaited
  rw [hreplies, hmetadata]
  exact h

theorem Outstanding.of_replyStore {next : MailboxState} {reply : Reply}
    (h : state.Outstanding reply) (hsame : next.replyStore = state.replyStore) :
    next.Outstanding reply := by
  apply h.congr
  · exact congrArg (fun store => store.replies.get? (toLex (reply.requestId, reply.id))) hsame
  · exact congrArg (fun store => store.replyMetadata.get? (toLex (reply.requestId, reply.id))) hsame

theorem Outstanding.metadata {reply : Reply} (h : state.Outstanding reply)
    (haccounted : state.replyStore.Accounted) :
    ∃ acked, state.replyMetadata.get? (toLex (reply.requestId, reply.id)) = some {
      id := reply.id, kind := reply.content.kind, sequence := reply.content.sequence, acked } :=
  (haccounted.described reply.requestId reply.id reply h.1).2.2

theorem Outstanding.acknowledged {reply : Reply} (h : state.Outstanding reply)
    (haccounted : state.replyStore.Accounted) {envelope : Envelope}
    {primaryKey : Option String} {deliverAt : Option ℚ}
    (hkeeps : ¬ Operation.Settles state reply (.saveEnvelope envelope primaryKey deliverAt)) :
    (state.acknowledged envelope).Outstanding reply := by
  cases envelope with
  | request requestId address body => exact h
  | interrupt id requestId address => exact h
  | ackChunk id requestId replyId address =>
      unfold MailboxState.acknowledged acknowledge
      dsimp only
      split
      · next entry hentry =>
          unfold acknowledges at hentry
          obtain ⟨hstored, hchunk⟩ := Option.filter_eq_some_iff.mp hentry
          simp only [Bool.decide_and, Bool.and_eq_true, decide_eq_true_eq] at hchunk
          refine h.congr rfl ?_
          refine OrderedMap.get?_set_of_ne _ _ fun hsame => hkeeps ?_
          obtain ⟨hrequest, hid⟩ := Prod.mk.inj (toLex_inj.mp hsame)
          obtain ⟨acked, hmetadata⟩ := h.metadata haccounted
          rw [hrequest, hid, hstored, Option.some.injEq] at hmetadata
          rw [hmetadata] at hchunk
          exact ⟨hrequest.symm, hid.symm, hchunk.1⟩
      · exact h

theorem Outstanding.insertReply {reply : Reply} (h : state.Outstanding reply)
    (haccounted : state.replyStore.Accounted) {saved : Reply}
    (hnew : ¬ (state.replyMetadata.get? (toLex (saved.requestId, saved.id))).isSome)
    (requestState : RequestState) : (state.insertReply saved requestState).Outstanding reply := by
  obtain ⟨acked, hmetadata⟩ := h.metadata haccounted
  have hne : toLex (reply.requestId, reply.id) ≠ toLex (saved.requestId, saved.id) := by
    intro hsame
    rw [← hsame, hmetadata] at hnew
    exact hnew rfl
  apply h.congr
  · exact OrderedMap.get?_set_of_ne _ _ hne
  · exact OrderedMap.get?_set_of_ne _ _ hne

theorem Outstanding.clearedReplies {reply : Reply} (h : state.Outstanding reply)
    (haccounted : state.replyStore.Accounted) {id : Snowflake}
    (hkeeps : id = reply.requestId → reply.content.kind ≠ .withExit) :
    (state.clearedReplies id).Outstanding reply := by
  unfold MailboxState.clearedReplies
  dsimp only
  cases hexit : (state.readState id).exitId with
  | none => exact h
  | some exitId =>
      have hne : toLex (reply.requestId, reply.id) ≠ toLex (id, exitId) := by
        intro hsame
        obtain ⟨hrequest, hid⟩ := Prod.mk.inj (toLex_inj.mp hsame)
        have hrow := (haccounted.exit id).symm.trans hexit
        obtain ⟨exit, hstored, hslot⟩ := (haccounted.unique id ⊥ exitId).mp hrow
        rw [← hrequest, ← hid] at hstored
        obtain rfl := Option.some.inj (h.1.symm.trans hstored)
        exact hkeeps hrequest.symm (ReplyContent.slot_eq_bot.mp hslot)
      apply h.congr
      · exact OrderedMap.get?_clear_of_ne _ hne
      · exact OrderedMap.get?_clear_of_ne _ hne

variable {primaryHash : String → String}

theorem Outstanding.run {next : MailboxState} {reply : Reply} (h : state.Outstanding reply)
    (hwell : state.WellFormed) (haccounted : state.replyStore.Accounted) {operation : Operation}
    (hrun : state.run primaryHash operation = .ok next)
    (hkeeps : ¬ operation.Settles state reply) : next.Outstanding reply := by
  by_cases hquiet : operation.isQuiet = true
  · obtain ⟨quiet, hran, -, hrewritten⟩ := hwell.run_of_isQuiet primaryHash hquiet
    obtain rfl := Except.ok.inj (hran.symm.trans hrun)
    exact h.of_replyStore hrewritten.replyStore
  cases operation with
  | unprocessedMessages shards now addresses limit => exact absurd rfl hquiet
  | resetRequests ids => exact absurd rfl hquiet
  | resetAddresses addresses => exact absurd rfl hquiet
  | resetShards shards => exact absurd rfl hquiet
  | saveEnvelope envelope primaryKey deliverAt =>
      rw [MailboxState.run] at hrun
      cases hexisting :
          state.messages.get? (state.originalId primaryHash envelope primaryKey) with
      | some existing =>
          rw [saveEnvelope_of_stored hexisting deliverAt] at hrun
          cases hrun
          exact h
      | none =>
          obtain ⟨saved, hsave, -, hreplies, -⟩ := hwell.saveEnvelope_of_new hexisting deliverAt
          rw [hsave] at hrun
          cases hrun
          exact (h.acknowledged haccounted hkeeps).of_replyStore hreplies
  | saveReply saved =>
      by_cases hnew : (state.replyMetadata.get? (toLex (saved.requestId, saved.id))).isSome
      · cases (saveReply_of_stored hnew).symm.trans hrun
        exact h
      by_cases htaken :
          (state.uniqueReplies.get? (toLex (saved.requestId, saved.content.slot))).isSome
      · cases (saveReply_of_taken hnew htaken).symm.trans hrun
      obtain ⟨inserted, hsave, -, hrewritten⟩ := hwell.saveReply_of_new hnew htaken
      obtain rfl := Except.ok.inj (hsave.symm.trans hrun)
      exact (h.insertReply haccounted hnew _).of_replyStore hrewritten.replyStore
  | clearReplies id expectedReplyId =>
      by_cases hexpected : expectedReplyId ≠ none ∧
          (state.readState id).lastReplyId ≠ expectedReplyId
      · cases (clearReplies_of_unexpected hexpected).symm.trans hrun
        exact h
      have hcleared := h.clearedReplies haccounted fun hid hexit =>
        hkeeps ⟨hid, hexit, Classical.or_iff_not_imp_left.mpr fun hsome =>
          by_contra fun hlast => hexpected ⟨hsome, hlast⟩⟩
      obtain ⟨cleared, hclear, -, -, -, houtstanding⟩ := hwell.clearReplies_trims hexpected
        (stable_replyStore fun store =>
          store.replies.get? (toLex (reply.requestId, reply.id)) = some reply ∧
            (reply.content.kind = .withExit || (store.replyMetadata.get?
              (toLex (reply.requestId, reply.id))).any fun entry => !entry.acked) = true)
        hcleared
      obtain rfl := Except.ok.inj (hclear.symm.trans hrun)
      exact houtstanding
  | clearAddress entityType entityId =>
      obtain ⟨cleared, removed, hclear, -, -, hrest⟩ := hwell.clearAddress_cleared entityType entityId
      obtain rfl := Except.ok.inj (hclear.symm.trans hrun)
      have hkept : ¬ (removed reply.requestId ∧
          ∃ entry, state.messages.get? reply.requestId = some entry ∧ entry.kind = .request) := by
        rintro ⟨hremoved, entry, hentry, hkind⟩
        obtain ⟨entry', hentry', hat⟩ := hrest.addressed _ hremoved
        obtain rfl := Option.some.inj (hentry.symm.trans hentry')
        exact hkeeps ⟨entry, hentry, hat, hkind⟩
      apply h.congr
      · exact hrest.replies.replies.get?_eq fun _ => hkept
      · exact hrest.replies.replyMetadata.get?_eq fun _ => hkept

/-- A request with an outstanding reply has an exit, or chunks that are not acknowledged. -/
theorem Outstanding.blocks {reply : Reply} (h : state.Outstanding reply)
    (haccounted : state.replyStore.Accounted) {entry : MessageMeta}
    (hrequest : entry.requestId = reply.requestId) (now : ℚ) :
    isEligible now entry (state.readState entry.requestId) = false := by
  rw [hrequest]
  obtain ⟨acked, hmetadata⟩ := h.metadata haccounted
  obtain ⟨hstored, hawaited⟩ := h
  unfold isAwaited at hawaited
  rw [hmetadata, Option.any_some] at hawaited
  apply decide_eq_false
  rintro ⟨-, hexit, hunacked, -⟩
  by_cases hkind : reply.content.kind = .withExit
  · have hrow := (haccounted.unique reply.requestId ⊥ reply.id).mpr
      ⟨reply, hstored, ReplyContent.slot_eq_bot.mpr hkind⟩
    have hexit' := (haccounted.exit reply.requestId).symm.trans hexit
    cases hrow.symm.trans hexit'
  · have hcount : (state.readState reply.requestId).unacked =
        state.replyStore.unackedChunks reply.requestId := haccounted.unacked reply.requestId
    have hpositive : 0 < state.replyStore.unackedChunks reply.requestId := by
      apply List.countP_pos_iff.mpr
      refine ⟨(toLex (reply.requestId, reply.id), reply), OrderedMap.mem_entries.mpr hstored, ?_⟩
      have hchunk := ReplyContent.kind_eq_chunk.mpr hkind
      simp only [hkind, decide_false, Bool.false_or] at hawaited
      simp [ReplyStore.isUnacked, replyStore, hmetadata, hchunk, hawaited]
    rw [hcount] at hunacked
    omega

theorem Outstanding.count_eq_one {reply : Reply} (h : state.Outstanding reply)
    (haccounted : state.replyStore.Accounted) {ids : List Snowflake}
    (hmem : reply.requestId ∈ ids) (filtered : Bool) {replies : List Reply}
    (hread : state.readReplies ids filtered = .ok replies) : replies.count reply = 1 := by
  rw [readReplies_eq haccounted ids filtered, Except.ok.injEq] at hread
  rw [← hread]
  have hids : reply.requestId ∈ ids.eraseDups := List.mem_eraseDups.mpr hmem
  have hreply : reply ∈ state.repliesOf reply.requestId := (mem_repliesOf haccounted).mpr ⟨rfl, h.1⟩
  have hselected : (!filtered || state.isAwaited reply) = true := by rw [h.2, Bool.or_true]
  apply List.count_eq_one_of_mem
  · rw [List.nodup_flatMap]
    constructor
    · intro request _
      refine List.Nodup.filter _ ((repliesOf_sorted haccounted request).imp ?_)
      rintro left right hlt rfl
      exact lt_irrefl _ hlt
    · refine (nodup_eraseDups ids).imp fun hne => ?_
      intro other hother hother'
      have hfirst := (mem_repliesOf haccounted).mp (List.mem_filter.mp hother).1
      have hsecond := (mem_repliesOf haccounted).mp (List.mem_filter.mp hother').1
      exact hne (hfirst.1.symm.trans hsecond.1)
  · exact List.mem_flatMap.mpr ⟨_, hids, List.mem_filter.mpr ⟨hreply, hselected⟩⟩

/-! ## Runs -/

def MailboxEvent.Settles (state : MailboxState) (reply : Reply) : MailboxEvent → Prop
  | .ran operation => operation.Settles state reply
  | .committed => False

def Settled (primaryHash : String → String) (reply : Reply) (state : MailboxState)
    (events : List MailboxEvent) : Prop :=
  ∃ front event back middle, events = front ++ event :: back ∧
    Run (EventStep primaryHash) state front middle ∧ event.Settles middle reply

theorem Outstanding.events {reply : Reply} (h : state.Outstanding reply)
    (hreached : Reached primaryHash state) {events : List MailboxEvent} {finish : MailboxState}
    (hrun : Run (EventStep primaryHash) state events finish) :
    Reached primaryHash finish ∧
      (finish.Outstanding reply ∨ Settled primaryHash reply state events) := by
  induction hrun with
  | nil => exact ⟨hreached, .inl h⟩
  | @snoc middle next events event hbefore hstep ih =>
      obtain ⟨hmiddle, houtstanding⟩ := ih
      refine ⟨hmiddle.event hstep, ?_⟩
      rcases houtstanding with houtstanding | ⟨front, settling, back, earlier, rfl, hfront, hsettles⟩
      · by_cases hkeeps : event.Settles middle reply
        · exact .inr ⟨events, event, [], middle, rfl, hbefore, hkeeps⟩
        · cases event with
          | ran operation =>
              exact .inl (houtstanding.run hmiddle.invariant.1 hmiddle.accounted hstep hkeeps)
          | committed =>
              cases hstep
              exact .inl houtstanding
      · refine .inr ⟨front, settling, back ++ [event], earlier, ?_, hfront, hsettles⟩
        simp

/-- Until a reply is settled, every read of its request returns it, and no poll returns a
message of the request. -/
theorem outstanding_until_settled (hreached : Reached primaryHash state) {reply : Reply}
    (houtstanding : state.Outstanding reply) {events : List MailboxEvent} {later : MailboxState}
    (hrun : Run (EventStep primaryHash) state events later) :
    Settled primaryHash reply state events ∨
      (∀ ids filtered, reply.requestId ∈ ids → ∃ replies,
        later.readReplies ids filtered = .ok replies ∧ replies.count reply = 1) ∧
      ∀ shards now addresses limit, ∃ polled,
        later.unprocessedMessages shards now addresses limit = .ok polled ∧
          ∀ message ∈ polled.2, message.envelope.requestId ≠ reply.requestId := by
  obtain ⟨hlater, hkept | hsettled⟩ := houtstanding.events hreached hrun
  · have haccounted := hlater.accounted
    have hindexed := hlater.invariant.1.toIndexed
    refine .inr ⟨fun ids filtered hmem => ?_, fun shards now addresses limit => ?_⟩
    · exact ⟨_, readReplies_eq haccounted ids filtered,
        hkept.count_eq_one haccounted hmem filtered (readReplies_eq haccounted ids filtered)⟩
    · obtain ⟨polled, hpoll, -⟩ := hindexed.rewritePoll shards now addresses limit
      refine ⟨polled, hpoll, ?_⟩
      intro message hmessage hrequest
      obtain ⟨entry, hentry, heligible, henvelope, -⟩ := hindexed.poll_returns hpoll hmessage
      obtain ⟨stored, hstored, hdescribes⟩ := hlater.described _ _ henvelope
      obtain rfl := Option.some.inj (hentry.symm.trans hstored)
      have hblocked := hkept.blocks haccounted (hdescribes.requestId.trans hrequest) now
      cases hblocked.symm.trans heligible
  · exact .inl hsettled

theorem outstanding_until_settled_firstChunk : ∃ state, streamingRequest = .ok state ∧
    (Settled id firstChunk state [.committed] ∨
      (∀ ids filtered, 1 ∈ ids → ∃ replies,
        state.commit.readReplies ids filtered = .ok replies ∧ replies.count firstChunk = 1) ∧
      ∀ shards now addresses limit, ∃ polled,
        state.commit.unprocessedMessages shards now addresses limit = .ok polled ∧
          ∀ message ∈ polled.2, message.envelope.requestId ≠ 1) := by
  obtain ⟨state, hstate, hreply⟩ := @exists_of_toOption _ _ streamingRequest
    (fun state => decide (state.Outstanding firstChunk)) (by decide +kernel)
  obtain ⟨saved, hsave, hreplied⟩ := bind_eq_ok.mp hstate
  have hreached : Reached id state := .run _ (.commit (.run _ (.start 0) hsave)) hreplied
  have hcommit : EventStep id state .committed state.commit := rfl
  exact ⟨state, hstate,
    outstanding_until_settled hreached (decide_eq_true_eq.mp hreply) (.single hcommit)⟩

end MailboxState

end FoundationDbEffect.Cluster
