import FoundationDbEffect.Cluster.MailboxRuns

/-!
# The accounting of replies

The state of a request counts its chunks that are not acknowledged and names its exit and its
last reply. Every reply has a row of metadata, a row of its id, and the row of its sequence or
of the exit among the unique replies of the request.
-/

namespace FoundationDbEffect.Cluster

open FoundationDbEffect.Foundation

theorem ReplyContent.slot_eq_bot {content : ReplyContent} :
    content.slot = ⊥ ↔ content.kind = .withExit := by
  cases content with
  | chunk sequence values => exact iff_of_false nofun nofun
  | withExit exit => exact iff_of_true rfl rfl

theorem ReplyContent.kind_eq_chunk {content : ReplyContent} :
    content.kind = .chunk ↔ content.kind ≠ .withExit := by
  cases content with
  | chunk sequence values => exact iff_of_true rfl nofun
  | withExit exit => exact iff_of_false nofun (not_not.mpr rfl)

namespace ReplyStore

def readState (store : ReplyStore) (request : Snowflake) : RequestState :=
  (store.requestStates.get? request).getD initialState

def isUnacked (replyMetadata : OrderedMap (Snowflake ×ₗ Snowflake) ReplyMeta)
    (request : Snowflake) (key : Snowflake ×ₗ Snowflake) (reply : Reply) : Bool :=
  (ofLex key).1 = request ∧ reply.content.kind = .chunk ∧
    (replyMetadata.get? key).any fun entry => !entry.acked

def unackedChunks (store : ReplyStore) (request : Snowflake) : Nat :=
  store.replies.count (isUnacked store.replyMetadata request)

structure Accounted (store : ReplyStore) : Prop where
  described : ∀ request id reply, store.replies.get? (toLex (request, id)) = some reply →
    reply.requestId = request ∧ reply.id = id ∧
      ∃ acked, store.replyMetadata.get? (toLex (request, id)) = some {
        id, kind := reply.content.kind, sequence := reply.content.sequence, acked }
  stored : ∀ key, (store.replyMetadata.get? key).isSome → (store.replies.get? key).isSome
  ids : ∀ key, (store.replyIds.get? key).isSome ↔ (store.replies.get? key).isSome
  unique : ∀ request slot id, store.uniqueReplies.get? (toLex (request, slot)) = some id ↔
    ∃ reply, store.replies.get? (toLex (request, id)) = some reply ∧ reply.content.slot = slot
  exit : ∀ request,
    (store.readState request).exitId = store.uniqueReplies.get? (toLex (request, ⊥))
  last : ∀ request id, (store.readState request).lastReplyId = some id →
    (store.replies.get? (toLex (request, id))).isSome
  unacked : ∀ request, (store.readState request).unacked = store.unackedChunks request

variable {store : ReplyStore}

theorem accounted_empty : Accounted ⟨∅, ∅, ∅, ∅, ∅⟩ where
  described := by simp
  stored := by simp
  ids := by simp
  unique := by simp
  exit := fun _ => rfl
  last := fun _ _ hlast => nomatch hlast
  unacked := fun _ => rfl

theorem readState_set {replies : OrderedMap (Snowflake ×ₗ Snowflake) Reply}
    {replyMetadata : OrderedMap (Snowflake ×ₗ Snowflake) ReplyMeta}
    {replyIds : OrderedMap (Snowflake ×ₗ Snowflake) Unit}
    {uniqueReplies : OrderedMap (Snowflake ×ₗ WithBot Int) Snowflake}
    (request : Snowflake) (requestState : RequestState) (request' : Snowflake) :
    readState ⟨replies, replyMetadata, replyIds, uniqueReplies,
        store.requestStates.set request requestState⟩ request' =
      if request' = request then requestState else store.readState request' := by
  unfold readState
  dsimp only
  rw [OrderedMap.get?_set]
  split_ifs with h
  · rfl
  · rfl

theorem Accounted.fresh (h : store.Accounted) {request id : Snowflake}
    (hnew : ¬ (store.replyMetadata.get? (toLex (request, id))).isSome) :
    store.replies.get? (toLex (request, id)) = none := by
  cases hreply : store.replies.get? (toLex (request, id)) with
  | none => rfl
  | some reply =>
      obtain ⟨-, -, acked, hentry⟩ := h.described request id reply hreply
      rw [hentry] at hnew
      exact absurd rfl hnew

theorem Accounted.insert (h : store.Accounted) {reply : Reply}
    (hnew : ¬ (store.replyMetadata.get? (toLex (reply.requestId, reply.id))).isSome)
    (hfree : ¬ (store.uniqueReplies.get? (toLex (reply.requestId, reply.content.slot))).isSome) :
    Accounted {
      replies := store.replies.set (toLex (reply.requestId, reply.id)) reply
      replyMetadata := store.replyMetadata.set (toLex (reply.requestId, reply.id))
        { id := reply.id, kind := reply.content.kind, sequence := reply.content.sequence
          acked := false }
      replyIds := store.replyIds.set (toLex (reply.requestId, reply.id)) ()
      uniqueReplies :=
        store.uniqueReplies.set (toLex (reply.requestId, reply.content.slot)) reply.id
      requestStates := store.requestStates.set reply.requestId
        (MailboxState.repliedState (store.readState reply.requestId) reply) } where
  described := by
    intro request id other hother
    dsimp only at hother ⊢
    rw [OrderedMap.get?_set] at hother ⊢
    split_ifs at hother ⊢ with hkey
    · cases hother
      obtain ⟨rfl, rfl⟩ := Prod.mk.inj (toLex.injective hkey)
      exact ⟨rfl, rfl, false, rfl⟩
    · exact h.described request id other hother
  stored := by
    intro key hsome
    dsimp only at hsome ⊢
    rw [OrderedMap.get?_set] at hsome ⊢
    split_ifs at hsome ⊢ with hkey
    · rfl
    · exact h.stored key hsome
  ids := by
    intro key
    dsimp only
    rw [OrderedMap.get?_set, OrderedMap.get?_set]
    split_ifs with hkey
    · exact iff_of_true rfl rfl
    · exact h.ids key
  unique := by
    intro request slot id
    dsimp only
    have hfresh := h.fresh hnew
    rw [Bool.not_eq_true, Option.isSome_eq_false_iff, Option.isNone_iff_eq_none] at hfree
    rw [OrderedMap.get?_set, OrderedMap.get?_set]
    split_ifs with hslot hkey hkey
    · obtain ⟨rfl, rfl⟩ := Prod.mk.inj (toLex.injective hslot)
      obtain ⟨-, rfl⟩ := Prod.mk.inj (toLex.injective hkey)
      exact iff_of_true rfl ⟨reply, rfl, rfl⟩
    · obtain ⟨rfl, rfl⟩ := Prod.mk.inj (toLex.injective hslot)
      rw [← h.unique, hfree]
      refine iff_of_false ?_ nofun
      intro hid
      exact hkey (congrArg (fun id => toLex (reply.requestId, id)) (Option.some.inj hid).symm)
    · obtain ⟨rfl, rfl⟩ := Prod.mk.inj (toLex.injective hkey)
      rw [h.unique, hfresh]
      refine iff_of_false nofun ?_
      rintro ⟨other, hother, rfl⟩
      exact hslot (by rw [← Option.some.inj hother])
    · exact h.unique request slot id
  exit := by
    intro request
    rw [readState_set]
    dsimp only
    rw [OrderedMap.get?_set]
    by_cases hrequest : request = reply.requestId
    · subst hrequest
      rw [if_pos rfl]
      unfold MailboxState.repliedState
      dsimp only
      by_cases hexit : reply.content.kind = .withExit
      · rw [if_pos hexit, ReplyContent.slot_eq_bot.mpr hexit, if_pos rfl]
      · rw [if_neg hexit, if_neg, h.exit]
        intro hslot
        exact hexit (ReplyContent.slot_eq_bot.mp (Prod.mk.inj (toLex.injective hslot)).2.symm)
    · rw [if_neg hrequest, if_neg, h.exit]
      intro hslot
      exact hrequest (Prod.mk.inj (toLex.injective hslot)).1
  last := by
    intro request id hlast
    rw [readState_set] at hlast
    dsimp only
    rw [OrderedMap.get?_set]
    split_ifs at hlast ⊢ with hkey hrequest hrequest
    · rfl
    · rfl
    · subst hrequest
      exact absurd (congrArg (fun id => toLex (reply.requestId, id))
        (Option.some.inj hlast).symm) hkey
    · exact h.last request id hlast
  unacked := by
    intro request
    have hfresh := h.fresh hnew
    rw [readState_set]
    -- Only the new reply can be counted in addition.
    have hothers (key : Snowflake ×ₗ Snowflake) (hkey : key ≠ toLex (reply.requestId, reply.id)) :
        (store.replies.get? key).any (isUnacked store.replyMetadata request key) =
          ((store.replies.set (toLex (reply.requestId, reply.id)) reply).get? key).any
            (isUnacked (store.replyMetadata.set (toLex (reply.requestId, reply.id))
              { id := reply.id, kind := reply.content.kind, sequence := reply.content.sequence
                acked := false }) request key) := by
      unfold isUnacked
      rw [OrderedMap.get?_set_of_ne _ _ hkey, OrderedMap.get?_set_of_ne _ _ hkey]
    by_cases hcounted : reply.requestId = request ∧ reply.content.kind = .chunk
    · obtain ⟨rfl, hchunk⟩ := hcounted
      have hexit := ReplyContent.kind_eq_chunk.mp hchunk
      have hcount := OrderedMap.count_succ (toLex (reply.requestId, reply.id))
        (p := isUnacked store.replyMetadata reply.requestId) (by rw [hfresh]; rfl)
        (by simp [isUnacked, hchunk]) hothers
      rw [if_pos rfl]
      unfold MailboxState.repliedState unackedChunks
      dsimp only
      rw [if_neg hexit, hcount, h.unacked]
      rfl
    · have hnot : ((store.replies.set (toLex (reply.requestId, reply.id)) reply).get?
          (toLex (reply.requestId, reply.id))).any
            (isUnacked (store.replyMetadata.set (toLex (reply.requestId, reply.id))
              { id := reply.id, kind := reply.content.kind, sequence := reply.content.sequence
                acked := false }) request (toLex (reply.requestId, reply.id))) = false := by
        simpa [isUnacked] using hcounted
      have hcount := OrderedMap.count_congr fun key => by
        rcases eq_or_ne key (toLex (reply.requestId, reply.id)) with rfl | hkey
        · exact (congrArg (Option.any (isUnacked store.replyMetadata request _)) hfresh).trans
            hnot.symm
        · exact hothers key hkey
      have hunacked := h.unacked request
      unfold unackedChunks at hunacked ⊢
      rw [hcount] at hunacked
      split_ifs with hrequest
      · subst hrequest
        have hexit := not_not.mp fun hkind => hcounted
          ⟨rfl, ReplyContent.kind_eq_chunk.mpr hkind⟩
        unfold MailboxState.repliedState
        dsimp only
        rw [if_pos hexit, add_zero]
        exact hunacked
      · exact hunacked

theorem Accounted.setState (h : store.Accounted) {request : Snowflake}
    {requestState : RequestState}
    (hexit : requestState.exitId = (store.readState request).exitId)
    (hlast : ∀ id, requestState.lastReplyId = some id →
      (store.replies.get? (toLex (request, id))).isSome)
    (hunacked : requestState.unacked = (store.readState request).unacked) :
    Accounted { store with
      requestStates := store.requestStates.set request requestState } where
  described := h.described
  stored := h.stored
  ids := h.ids
  unique := h.unique
  exit := by
    intro request'
    rw [readState_set, ← h.exit]
    split_ifs with hrequest
    · rw [hexit, hrequest]
    · rfl
  last := by
    intro request' id hsome
    rw [readState_set] at hsome
    split_ifs at hsome with hrequest
    · subst hrequest
      exact hlast id hsome
    · exact h.last request' id hsome
  unacked := by
    intro request'
    rw [readState_set]
    split_ifs with hrequest
    · subst hrequest
      exact hunacked.trans (h.unacked request')
    · exact h.unacked request'

theorem Accounted.acknowledge (h : store.Accounted) {request id : Snowflake} {entry : ReplyMeta}
    (hentry : store.replyMetadata.get? (toLex (request, id)) = some entry)
    (hchunk : entry.kind = .chunk) (hunacked : entry.acked = false) (latestAckId : Option Snowflake) :
    Accounted { store with
      replyMetadata := store.replyMetadata.set (toLex (request, id)) { entry with acked := true }
      requestStates := store.requestStates.set request { store.readState request with
        latestAckId, unacked := (store.readState request).unacked - 1 } } := by
  obtain ⟨reply, hreply⟩ := Option.isSome_iff_exists.mp (h.stored _ (by rw [hentry]; rfl))
  obtain ⟨hrequest, hid, acked, hdescribed⟩ := h.described request id reply hreply
  rw [hentry, Option.some.injEq] at hdescribed
  have hkind : reply.content.kind = .chunk := by rw [← hchunk, hdescribed]
  constructor
  case described =>
    intro request' id' other hother
    obtain ⟨hrequest', hid', acked', hdescribed'⟩ := h.described request' id' other hother
    refine ⟨hrequest', hid', ?_⟩
    dsimp only at hother ⊢
    rw [OrderedMap.get?_set]
    split_ifs with hkey
    · obtain ⟨rfl, rfl⟩ := Prod.mk.inj (toLex.injective hkey)
      rw [hreply, Option.some.injEq] at hother
      rw [← hother, hdescribed]
      exact ⟨true, rfl⟩
    · exact ⟨acked', hdescribed'⟩
  case stored =>
    intro key hsome
    dsimp only at hsome ⊢
    rw [OrderedMap.get?_set] at hsome
    split_ifs at hsome with hkey
    · rw [hkey, hreply]
      rfl
    · exact h.stored key hsome
  case ids => exact h.ids
  case unique => exact h.unique
  case exit =>
    intro request'
    rw [readState_set, ← h.exit]
    split_ifs with hrequest'
    · rw [hrequest']
    · rfl
  case last =>
    intro request' id' hsome
    rw [readState_set] at hsome
    apply h.last request' id'
    split_ifs at hsome with hrequest'
    · rw [hrequest']
      exact hsome
    · exact hsome
  case unacked =>
    intro request'
    rw [readState_set]
    have hothers (key : Snowflake ×ₗ Snowflake) (hkey : key ≠ toLex (request, id)) :
        (store.replies.get? key).any (isUnacked
          (store.replyMetadata.set (toLex (request, id)) { entry with acked := true })
            request' key) =
          (store.replies.get? key).any (isUnacked store.replyMetadata request' key) := by
      unfold isUnacked
      rw [OrderedMap.get?_set_of_ne _ _ hkey]
    have hgone : (store.replies.get? (toLex (request, id))).any (isUnacked
        (store.replyMetadata.set (toLex (request, id)) { entry with acked := true })
          request' (toLex (request, id))) = false := by
      simp [isUnacked, hreply]
    have hcounted := h.unacked request'
    unfold unackedChunks at hcounted ⊢
    split_ifs with hrequest'
    · subst hrequest'
      have hcount := OrderedMap.count_succ (toLex (request', id)) hgone
        (q := isUnacked store.replyMetadata request') (by
          simp [isUnacked, hreply, hentry, hunacked, hkind]) hothers
      dsimp only
      rw [hcounted, hcount]
      omega
    · have hbefore : (store.replies.get? (toLex (request, id))).any
          (isUnacked store.replyMetadata request' (toLex (request, id))) = false := by
        simp [isUnacked, hreply, Ne.symm hrequest']
      have hcount := OrderedMap.count_congr fun key => by
        rcases eq_or_ne key (toLex (request, id)) with rfl | hkey
        · exact hgone.trans hbefore.symm
        · exact hothers key hkey
      exact hcounted.trans (congrArg Nat.cast hcount.symm)

theorem Accounted.clearExit (h : store.Accounted) {request exitId : Snowflake}
    (hexit : (store.readState request).exitId = some exitId) :
    Accounted {
      replies := store.replies.clear (toLex (request, exitId))
      replyMetadata := store.replyMetadata.clear (toLex (request, exitId))
      replyIds := store.replyIds.clear (toLex (request, exitId))
      uniqueReplies := store.uniqueReplies.clear (toLex (request, ⊥))
      requestStates := store.requestStates.set request
        { store.readState request with lastReplyId := none, exitId := none } } := by
  rw [h.exit] at hexit
  obtain ⟨reply, hreply, hslot⟩ := (h.unique request ⊥ exitId).mp hexit
  have hkind := ReplyContent.slot_eq_bot.mp hslot
  constructor
  case described =>
    intro request' id other hother
    dsimp only at hother ⊢
    rw [OrderedMap.get?_clear] at hother ⊢
    split_ifs at hother ⊢ with hkey
    exact h.described request' id other hother
  case stored =>
    intro key hsome
    dsimp only at hsome ⊢
    rw [OrderedMap.get?_clear] at hsome ⊢
    split_ifs at hsome ⊢ with hkey
    · exact nomatch hsome
    · exact h.stored key hsome
  case ids =>
    intro key
    dsimp only
    rw [OrderedMap.get?_clear, OrderedMap.get?_clear]
    split_ifs with hkey
    · rfl
    · exact h.ids key
  case unique =>
    intro request' slot id
    dsimp only
    rw [OrderedMap.get?_clear, OrderedMap.get?_clear]
    split_ifs with hslot' hkey hkey
    · exact iff_of_false nofun (fun ⟨_, hother, _⟩ => nomatch hother)
    · -- Any other exit of the request would be this one.
      obtain ⟨rfl, rfl⟩ := Prod.mk.inj (toLex.injective hslot')
      rw [← h.unique, hexit]
      refine iff_of_false nofun ?_
      intro hid
      exact hkey (congrArg (fun id => toLex (request', id)) (Option.some.inj hid).symm)
    · obtain ⟨rfl, rfl⟩ := Prod.mk.inj (toLex.injective hkey)
      rw [h.unique, hreply]
      refine iff_of_false ?_ (fun ⟨_, hother, _⟩ => nomatch hother)
      rintro ⟨other, hother, rfl⟩
      exact hslot' (by rw [← Option.some.inj hother, hslot])
    · exact h.unique request' slot id
  case exit =>
    intro request'
    rw [readState_set]
    dsimp only
    rw [OrderedMap.get?_clear, ← h.exit]
    by_cases hrequest : request' = request
    · rw [if_pos hrequest, if_pos (by rw [hrequest])]
    · rw [if_neg hrequest, if_neg]
      intro hsame
      exact hrequest (Prod.mk.inj (toLex.injective hsame)).1
  case last =>
    intro request' id hsome
    rw [readState_set] at hsome
    split_ifs at hsome with hrequest
    dsimp only
    rw [OrderedMap.get?_clear_of_ne]
    · exact h.last request' id hsome
    · intro hkey
      exact hrequest (Prod.mk.inj (toLex.injective hkey)).1
  case unacked =>
    intro request'
    -- An exit is not counted.
    have hsame (key : Snowflake ×ₗ Snowflake) :
        (store.replies.get? key).any (isUnacked store.replyMetadata request' key) =
          ((store.replies.clear (toLex (request, exitId))).get? key).any (isUnacked
            (store.replyMetadata.clear (toLex (request, exitId))) request' key) := by
      rcases eq_or_ne key (toLex (request, exitId)) with rfl | hkey
      · simp [isUnacked, hreply, hkind]
      · unfold isUnacked
        rw [OrderedMap.get?_clear_of_ne _ hkey, OrderedMap.get?_clear_of_ne _ hkey]
    have hcount := OrderedMap.count_congr hsame
    rw [readState_set]
    have hcounted := h.unacked request'
    unfold unackedChunks at hcounted ⊢
    rw [hcount] at hcounted
    split_ifs with hrequest
    · subst hrequest
      exact hcounted
    · exact hcounted

theorem get?_clearRequest {α β : Type} [LinearOrder α] (map : OrderedMap (Snowflake ×ₗ α) β)
    (request : Snowflake) (key : Snowflake ×ₗ α) :
    (map.clearRange fun row => (ofLex row).1 = request).get? key =
      if (ofLex key).1 = request then none else map.get? key := by
  rw [OrderedMap.get?_clearRange]
  exact if_congr decide_eq_true_iff rfl rfl

theorem get?_clearRequest_toLex {α β : Type} [LinearOrder α]
    (map : OrderedMap (Snowflake ×ₗ α) β) (request request' : Snowflake) (key : α) :
    (map.clearRange fun row => (ofLex row).1 = request).get? (toLex (request', key)) =
      if request' = request then none else map.get? (toLex (request', key)) :=
  get?_clearRequest map request (toLex (request', key))

theorem Accounted.clearRequest (h : store.Accounted) (request : Snowflake) :
    Accounted {
      replies := store.replies.clearRange fun row => (ofLex row).1 = request
      replyMetadata := store.replyMetadata.clearRange fun row => (ofLex row).1 = request
      replyIds := store.replyIds.clearRange fun row => (ofLex row).1 = request
      uniqueReplies := store.uniqueReplies.clearRange fun row => (ofLex row).1 = request
      requestStates := store.requestStates.clear request } := by
  have hread (request' : Snowflake) {replies replyMetadata replyIds uniqueReplies} :
      readState ⟨replies, replyMetadata, replyIds, uniqueReplies,
          store.requestStates.clear request⟩ request' =
        if request' = request then initialState else store.readState request' := by
    unfold readState
    dsimp only
    rw [OrderedMap.get?_clear]
    split_ifs with hrequest
    · rfl
    · rfl
  constructor
  case described =>
    intro request' id other hother
    dsimp only at hother ⊢
    rw [get?_clearRequest_toLex] at hother ⊢
    split_ifs at hother ⊢ with hkey
    exact h.described request' id other hother
  case stored =>
    intro key hsome
    dsimp only at hsome ⊢
    rw [get?_clearRequest] at hsome ⊢
    split_ifs at hsome ⊢ with hkey
    · exact nomatch hsome
    · exact h.stored key hsome
  case ids =>
    intro key
    dsimp only
    rw [get?_clearRequest, get?_clearRequest]
    split_ifs with hkey
    · rfl
    · exact h.ids key
  case unique =>
    intro request' slot id
    dsimp only
    rw [get?_clearRequest_toLex, get?_clearRequest_toLex]
    split_ifs with hrequest
    · exact iff_of_false nofun fun ⟨_, hother, _⟩ => nomatch hother
    · exact h.unique request' slot id
  case exit =>
    intro request'
    rw [hread]
    dsimp only
    rw [get?_clearRequest_toLex]
    split_ifs with hrequest
    · rfl
    · exact h.exit request'
  case last =>
    intro request' id hsome
    rw [hread] at hsome
    split_ifs at hsome with hrequest
    · exact nomatch hsome
    · dsimp only
      rw [get?_clearRequest_toLex, if_neg hrequest]
      exact h.last request' id hsome
  case unacked =>
    intro request'
    rw [hread]
    unfold unackedChunks
    dsimp only
    split_ifs with hrequest
    · rw [OrderedMap.count_eq_zero]
      · rfl
      · intro key
        rw [get?_clearRequest]
        split_ifs with hkey
        · rfl
        · cases store.replies.get? key with
          | none => rfl
          | some reply => simp [isUnacked, hrequest, hkey]
    · refine (h.unacked request').trans (congrArg Nat.cast (OrderedMap.count_congr ?_))
      intro key
      rw [get?_clearRequest]
      split_ifs with hkey
      · cases store.replies.get? key with
        | none => rfl
        | some reply => simp [isUnacked, hkey, Ne.symm hrequest]
      · unfold isUnacked
        rw [get?_clearRequest, if_neg hkey]

end ReplyStore

namespace MailboxState

open ReplyStore

/-! ## Operations -/

theorem accounted_acknowledged {state : MailboxState} (h : state.replyStore.Accounted)
    (envelope : Envelope) : (state.acknowledged envelope).replyStore.Accounted := by
  cases envelope with
  | request requestId address body => exact h
  | interrupt id requestId address => exact h
  | ackChunk id requestId replyId address =>
      unfold acknowledged acknowledge
      dsimp only
      split
      · rename_i entry hentry
        obtain ⟨hmetadata, hunacked⟩ := Option.filter_eq_some_iff.mp hentry
        obtain ⟨hchunk, hacked⟩ := decide_eq_true_eq.mp hunacked
        exact h.acknowledge hmetadata hchunk (Bool.eq_false_of_not_eq_true hacked) (some id)
      · exact h.setState rfl (fun replyId hlast => h.last requestId replyId hlast) rfl

theorem accounted_clearedReplies {state : MailboxState} (h : state.replyStore.Accounted)
    (id : Snowflake) : (state.clearedReplies id).replyStore.Accounted := by
  unfold clearedReplies
  dsimp only
  cases hexit : (state.readState id).exitId with
  | none => exact h.setState hexit.symm (fun _ hlast => nomatch hlast) rfl
  | some exitId => exact h.clearExit hexit

/-- Every operation keeps the accounting. -/
theorem WellFormed.run_accounted {state finish : MailboxState} (hwell : state.WellFormed)
    (h : state.replyStore.Accounted) {primaryHash : String → String} {operation : Operation}
    (hrun : state.run primaryHash operation = .ok finish) :
    finish.WellFormed ∧ finish.replyStore.Accounted := by
  by_cases hquiet : operation.isQuiet = true
  · obtain ⟨quiet, hquiet, hfinish, hrewritten⟩ := hwell.run_of_isQuiet primaryHash hquiet
    obtain rfl := Except.ok.inj (hquiet.symm.trans hrun)
    rw [hrewritten.replyStore]
    exact ⟨hfinish, h⟩
  · cases operation with
    | saveEnvelope envelope primaryKey deliverAt =>
        cases hexisting :
            state.messages.get? (state.originalId primaryHash envelope primaryKey) with
        | some existing =>
            have hsave := saveEnvelope_of_stored hexisting deliverAt
            rw [MailboxState.run, hsave] at hrun
            cases hrun
            exact ⟨hwell, h⟩
        | none =>
            obtain ⟨saved, hsave, hsaved, hreplies, -⟩ :=
              hwell.saveEnvelope_of_new hexisting deliverAt
            rw [MailboxState.run, hsave] at hrun
            cases hrun
            rw [hreplies]
            exact ⟨hsaved, accounted_acknowledged h envelope⟩
    | saveReply reply =>
        rw [MailboxState.run] at hrun
        by_cases hnew : (state.replyMetadata.get? (toLex (reply.requestId, reply.id))).isSome
        · rw [saveReply_of_stored hnew] at hrun
          cases hrun
          exact ⟨hwell, h⟩
        · by_cases hfree :
              (state.uniqueReplies.get? (toLex (reply.requestId, reply.content.slot))).isSome
          · rw [saveReply_of_taken hnew hfree] at hrun
            cases hrun
          · obtain ⟨saved, hsave, hsaved, hrewritten⟩ := hwell.saveReply_of_new hnew hfree
            obtain rfl := Except.ok.inj (hsave.symm.trans hrun)
            rw [hrewritten.replyStore]
            exact ⟨hsaved, h.insert hnew hfree⟩
    | clearReplies id expectedReplyId =>
        rw [MailboxState.run] at hrun
        by_cases hexpected : expectedReplyId ≠ none ∧
            (state.readState id).lastReplyId ≠ expectedReplyId
        · rw [clearReplies_of_unexpected hexpected] at hrun
          cases hrun
          exact ⟨hwell, h⟩
        · obtain ⟨cleared, hclear, hcleared, -, -, hend⟩ :=
            hwell.clearReplies_trims hexpected (stable_replyStore Accounted)
              (accounted_clearedReplies h id)
          obtain rfl := Except.ok.inj (hclear.symm.trans hrun)
          exact ⟨hcleared, hend⟩
    | clearAddress entityType entityId =>
        obtain ⟨cleared, hclear, hcleared, -, -, hend⟩ :=
          hwell.clearAddress_trims entityType entityId (stable_replyStore Accounted)
            (fun _ request hmiddle => hmiddle.clearRequest request) h
        obtain rfl := Except.ok.inj (hclear.symm.trans hrun)
        exact ⟨hcleared, hend⟩
    | unprocessedMessages shards now addresses limit => exact absurd rfl hquiet
    | resetRequests ids => exact absurd rfl hquiet
    | resetAddresses addresses => exact absurd rfl hquiet
    | resetShards shards => exact absurd rfl hquiet

theorem accounted_after (primaryHash : String → String) (readVersion : Nat)
    (operations : List Operation) :
    ((empty readVersion).after primaryHash operations).WellFormed ∧
      ((empty readVersion).after primaryHash operations).replyStore.Accounted := by
  apply @after_rule primaryHash fun state => state.WellFormed ∧ state.replyStore.Accounted
  · rintro state finish operation ⟨hwell, haccounted⟩ hrun
    obtain ⟨hwell, haccounted⟩ := hwell.run_accounted haccounted hrun
    exact ⟨hwell.commit, haccounted⟩
  · exact ⟨wellFormed_empty readVersion, accounted_empty⟩

/-- What the replies of a mailbox are for: the state of a request counts and names them, and
what is saved again changes nothing. -/
structure ReplyAccounting (primaryHash : String → String) (state : MailboxState) : Prop where
  unacked : ∀ request, (state.readState request).unacked = state.replyStore.unackedChunks request
  unacked_nonneg : ∀ request, 0 ≤ (state.readState request).unacked
  exitId : ∀ request id, (state.readState request).exitId = some id ↔
    ∃ reply, state.replies.get? (toLex (request, id)) = some reply ∧
      reply.content.kind = .withExit
  exitRow : ∀ request id, state.uniqueReplies.get? (toLex (request, ⊥)) = some id ↔
    (state.readState request).exitId = some id
  oneExit : ∀ request id id' reply reply',
    state.replies.get? (toLex (request, id)) = some reply → reply.content.kind = .withExit →
    state.replies.get? (toLex (request, id')) = some reply' → reply'.content.kind = .withExit →
      id = id'
  oneChunk : ∀ request id id' reply reply',
    state.replies.get? (toLex (request, id)) = some reply → reply.content.kind = .chunk →
    state.replies.get? (toLex (request, id')) = some reply' → reply'.content.kind = .chunk →
    reply.content.sequence = reply'.content.sequence → id = id'
  lastReplyId : ∀ request id, (state.readState request).lastReplyId = some id →
    (state.replies.get? (toLex (request, id))).isSome
  rows : ∀ request id reply, state.replies.get? (toLex (request, id)) = some reply →
    reply.requestId = request ∧ reply.id = id ∧
      (∃ acked, state.replyMetadata.get? (toLex (request, id)) = some {
        id, kind := reply.content.kind, sequence := reply.content.sequence, acked }) ∧
      (state.replyIds.get? (toLex (request, id))).isSome
  metadataRow : ∀ key, (state.replyMetadata.get? key).isSome → (state.replies.get? key).isSome
  idRow : ∀ key, (state.replyIds.get? key).isSome → (state.replies.get? key).isSome
  repeatedReply : ∀ reply, (state.replies.get? (toLex (reply.requestId, reply.id))).isSome →
    state.saveReply reply = .ok state
  repeatedAck : ∀ id requestId replyId address primaryKey deliverAt,
    (state.messages.get? id).isSome → ∃ originalId lastReply,
      state.saveEnvelope primaryHash (.ackChunk id requestId replyId address) primaryKey
        deliverAt = .ok (state, .duplicate originalId lastReply)
  rejected : ∀ reply, state.replies.get? (toLex (reply.requestId, reply.id)) = none →
    (∃ id other, state.replies.get? (toLex (reply.requestId, id)) = some other ∧
      other.content.slot = reply.content.slot) →
    state.transact primaryHash (.saveReply reply) =
      (state, some (.duplicateReply reply.requestId reply.id reply.content.sequence))
  rejectedOnly : ∀ reply cause, state.saveReply reply = .error cause →
    state.replies.get? (toLex (reply.requestId, reply.id)) = none ∧
      ∃ id other, state.replies.get? (toLex (reply.requestId, id)) = some other ∧
        other.content.slot = reply.content.slot

/-- The replies are accounted after every sequence of transactions. -/
theorem replies_accounted (primaryHash : String → String) (readVersion : Nat)
    (operations : List Operation) :
    ReplyAccounting primaryHash ((empty readVersion).after primaryHash operations) := by
  obtain ⟨hwell, h⟩ := accounted_after primaryHash readVersion operations
  generalize (empty readVersion).after primaryHash operations = state at hwell h ⊢
  have hexit (request id : Snowflake) : (state.readState request).exitId = some id ↔
      ∃ reply, state.replies.get? (toLex (request, id)) = some reply ∧
        reply.content.kind = .withExit := by
    have hread := h.exit request
    change (state.readState request).exitId = _ at hread
    rw [hread]
    refine (h.unique request ⊥ id).trans (exists_congr fun reply => ?_)
    rw [ReplyContent.slot_eq_bot]
    rfl
  have hone (request id id' : Snowflake) (reply reply' : Reply)
      (hreply : state.replies.get? (toLex (request, id)) = some reply)
      (hreply' : state.replies.get? (toLex (request, id')) = some reply')
      (hslot : reply.content.slot = reply'.content.slot) : id = id' := by
    have hrow := (h.unique request _ id).mpr ⟨reply, hreply, hslot⟩
    have hrow' := (h.unique request _ id').mpr ⟨reply', hreply', rfl⟩
    exact Option.some.inj (hrow.symm.trans hrow')
  have hstored (request id : Snowflake) :
      (state.replyMetadata.get? (toLex (request, id))).isSome ↔
        (state.replies.get? (toLex (request, id))).isSome := by
    refine ⟨h.stored _, ?_⟩
    intro hsome
    obtain ⟨reply, hreply⟩ := Option.isSome_iff_exists.mp hsome
    obtain ⟨-, -, acked, hentry⟩ := h.described request id reply hreply
    exact Option.isSome_iff_exists.mpr ⟨_, hentry⟩
  constructor
  case unacked => exact h.unacked
  case unacked_nonneg =>
    intro request
    have hcounted : (state.readState request).unacked = _ := h.unacked request
    rw [hcounted]
    exact Int.natCast_nonneg _
  case exitId => exact hexit
  case exitRow =>
    intro request id
    have hread : (state.readState request).exitId = _ := h.exit request
    rw [hread]
    rfl
  case oneExit =>
    intro request id id' reply reply' hreply hkind hreply' hkind'
    apply hone request id id' reply reply' hreply hreply'
    rw [ReplyContent.slot_eq_bot.mpr hkind, ReplyContent.slot_eq_bot.mpr hkind']
  case oneChunk =>
    intro request id id' reply reply' hreply _ hreply' _ hsequence
    exact hone request id id' reply reply' hreply hreply' hsequence
  case lastReplyId => exact h.last
  case rows =>
    intro request id reply hreply
    obtain ⟨hrequest, hid, hentry⟩ := h.described request id reply hreply
    exact ⟨hrequest, hid, hentry, (h.ids _).mpr (Option.isSome_iff_exists.mpr ⟨reply, hreply⟩)⟩
  case metadataRow => exact h.stored
  case idRow => exact fun key => (h.ids key).mp
  case repeatedReply =>
    intro reply hsome
    exact saveReply_of_stored ((hstored _ _).mpr hsome)
  case repeatedAck =>
    intro id requestId replyId address primaryKey deliverAt hsome
    cases hexisting : state.messages.get? (state.originalId primaryHash
        (.ackChunk id requestId replyId address) primaryKey) with
    | some existing => exact ⟨_, _, saveEnvelope_of_stored hexisting deliverAt⟩
    | none =>
        obtain ⟨hfresh, -⟩ := hwell.fresh_of_original hexisting
        rw [Envelope.id] at hfresh
        rw [hfresh] at hsome
        exact nomatch hsome
  case rejected =>
    rintro reply hnone ⟨id, other, hother, hslot⟩
    have hrow := (h.unique reply.requestId _ id).mpr ⟨other, hother, hslot⟩
    have hrun : state.run primaryHash (.saveReply reply) = _ :=
      saveReply_of_taken (by rw [hstored, hnone]; exact nofun)
        (Option.isSome_iff_exists.mpr ⟨id, hrow⟩)
    unfold transact
    rw [hrun]
  case rejectedOnly =>
    intro reply cause hsave
    by_cases hnew : (state.replyMetadata.get? (toLex (reply.requestId, reply.id))).isSome
    · rw [saveReply_of_stored hnew] at hsave
      exact nomatch hsave
    · by_cases hfree :
          (state.uniqueReplies.get? (toLex (reply.requestId, reply.content.slot))).isSome
      · obtain ⟨id, hrow⟩ := Option.isSome_iff_exists.mp hfree
        obtain ⟨other, hother⟩ := (h.unique _ _ id).mp hrow
        exact ⟨h.fresh hnew, id, other, hother⟩
      · obtain ⟨finish, hfinish, -⟩ := hwell.saveReply_of_new hnew hfree
        exact nomatch hfinish.symm.trans hsave

end MailboxState

end FoundationDbEffect.Cluster
