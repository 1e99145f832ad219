import FoundationDbEffect.Cluster.MailboxRuns

/-!
# Primary keys

The index of primary keys maps the hash of a key to the message that was saved with it. While
that message is stored, every save with its key is a duplicate, and when it is removed, its key
can be used again.
-/

namespace FoundationDbEffect.Cluster

open FoundationDbEffect.Foundation

namespace MailboxState

def Deduplicated (state : MailboxState) : Prop :=
  ∀ id entry hash, state.messages.get? id = some entry → entry.primaryKey = some hash →
    state.primaryKeys.get? hash = some id

theorem Deduplicated.rewritten {state next : MailboxState} (h : state.Deduplicated)
    (hkeys : next.primaryKeys = state.primaryKeys)
    (hsame : ∀ id entry, next.messages.get? id = some entry →
      ∃ old, state.messages.get? id = some old ∧ SameIdentity old entry) : next.Deduplicated := by
  intro id entry hash hentry hkey
  obtain ⟨old, hold, hidentity⟩ := hsame id entry hentry
  rw [hkeys]
  exact h id old hash hold (hidentity.primaryKey.symm.trans hkey)

theorem Deduplicated.removed {state next : MailboxState} (h : state.Deduplicated)
    {entry : MessageMeta} (hentry : state.messages.get? entry.id = some entry)
    (hremove : state.removeMessage entry = .ok next) : next.Deduplicated := by
  obtain ⟨order, -, hnext⟩ := bind_eq_ok.mp hremove
  cases hnext
  intro id other hash hother hkey
  dsimp only at hother ⊢
  rw [OrderedMap.get?_clear] at hother
  split_ifs at hother with hid
  have hprimary := h id other hash hother hkey
  cases hown : entry.primaryKey with
  | none => exact hprimary
  | some own =>
      rw [Option.elim_some, OrderedMap.get?_clear_of_ne _ _, hprimary]
      rintro rfl
      exact hid (Option.some.inj (hprimary.symm.trans (h _ entry _ hentry hown)))

theorem stable_deduplicated : Stable Deduplicated where
  rewritten := fun _ _ hrewritten h =>
    h.rewritten hrewritten.primaryKeys fun _ _ hentry => hrewritten.old hentry
  removed := fun _ _ _ _ hentry hremove h => h.removed hentry hremove

/-- The operations that remove a message: a clear of its address, and of an interrupt an
unconditional clear of the replies of its request. -/
def Operation.Removes (entry : MessageMeta) : Operation → Prop
  | .clearAddress entityType entityId => IsAt entityType entityId entry
  | .clearReplies id expectedReplyId => isCleared id expectedReplyId entry
  | _ => False

theorem Operation.not_removes_of_isQuiet {operation : Operation}
    (h : operation.isQuiet = true) (entry : MessageMeta) : ¬ operation.Removes entry := by
  cases operation <;> simp [Operation.isQuiet, Operation.Removes] at h ⊢

theorem Operation.removes_congr {old entry : MessageMeta} (h : SameIdentity old entry)
    (operation : Operation) : operation.Removes entry ↔ operation.Removes old := by
  cases operation with
  | clearAddress entityType entityId => rw [Removes, Removes, IsAt, IsAt, h.address]
  | clearReplies id expectedReplyId =>
      rw [Removes, Removes, isCleared, isCleared, h.requestId, h.kind]
  | _ => exact Iff.rfl

def Operation.primaryKey : Operation → Option String
  | .saveEnvelope _ primaryKey _ => primaryKey
  | _ => none

theorem Operation.primaryKey_of_removes {operation : Operation} {entry : MessageMeta}
    (h : operation.Removes entry) : operation.primaryKey = none := by
  cases operation with
  | saveEnvelope envelope primaryKey deliverAt => exact h.elim
  | _ => rfl

structure Transacted (primaryHash : String → String) (operation : Operation)
    (state next : MailboxState) : Prop where
  wellFormed : next.WellFormed
  deduplicated : next.Deduplicated
  enveloped : state.Enveloped → next.Enveloped
  removed : ∀ id entry, state.messages.get? id = some entry →
    (next.messages.get? id = none ↔ operation.Removes entry)
  same : ∀ id old entry, state.messages.get? id = some old → next.messages.get? id = some entry →
    SameIdentity old entry
  new : ∀ id entry, state.messages.get? id = none → next.messages.get? id = some entry →
    entry.primaryKey = operation.primaryKey.map primaryHash

variable {primaryHash : String → String}

theorem Transacted.of_rewritten {operation : Operation} {state middle next : MailboxState}
    (hmessages : middle.messages = state.messages) (hkeys : middle.primaryKeys = state.primaryKeys)
    (henvelopes : middle.envelopes = state.envelopes) (h : Rewritten middle next) (hwell : next.WellFormed) (hdeduplicated : state.Deduplicated)
    (hkeeps : ∀ entry, ¬ operation.Removes entry) : Transacted primaryHash operation state next := by
  have hold (id : Snowflake) (entry : MessageMeta) (hentry : next.messages.get? id = some entry) :
      ∃ old, state.messages.get? id = some old ∧ SameIdentity old entry := by
    rw [← hmessages]
    exact h.old hentry
  constructor
  case wellFormed => exact hwell
  case deduplicated => exact hdeduplicated.rewritten (h.primaryKeys.trans hkeys) hold
  case enveloped =>
    exact fun henveloped => stable_enveloped.rewritten _ _ h (henveloped.congr hmessages henvelopes)
  case removed =>
    intro id entry hentry
    rw [← hmessages] at hentry
    obtain ⟨new, hnew, -⟩ := h.new hentry
    rw [hnew]
    exact iff_of_false nofun (hkeeps entry)
  case same =>
    intro id old entry hstored hentry
    obtain ⟨old', hold', hsame⟩ := hold id entry hentry
    rw [hstored, Option.some.injEq] at hold'
    exact hold' ▸ hsame
  case new =>
    intro id entry hnone hentry
    obtain ⟨old, hstored, -⟩ := hold id entry hentry
    rw [hnone] at hstored
    exact nomatch hstored

theorem Transacted.of_trims {operation : Operation} {state next : MailboxState}
    {removable : MessageMeta → Prop} (hwell : next.WellFormed) (hdeduplicated : next.Deduplicated)
    (henveloped : state.Enveloped → next.Enveloped) (hcontinues : Continues state next)
    (htrims : Trims removable state next)
    (hremoves : ∀ entry, removable entry ↔ operation.Removes entry) :
    Transacted primaryHash operation state next where
  wellFormed := hwell
  deduplicated := hdeduplicated
  enveloped := henveloped
  removed := by
    intro id entry hentry
    rw [← hremoves]
    refine ⟨?_, htrims.removed id entry hentry⟩
    intro hnone
    by_contra hkept
    obtain ⟨entry', hentry', -⟩ := htrims.kept id entry hentry hkept
    rw [hnone] at hentry'
    exact nomatch hentry'
  same := by
    intro id old entry hold hentry
    obtain ⟨old', hold', hsame⟩ := hcontinues.messages id entry hentry
    rw [hold, Option.some.injEq] at hold'
    exact hold' ▸ hsame
  new := by
    intro id entry hnone hentry
    obtain ⟨old, hold, -⟩ := hcontinues.messages id entry hentry
    rw [hnone] at hold
    exact nomatch hold

theorem Transacted.of_same {operation : Operation} {state : MailboxState}
    (hwell : state.WellFormed) (hdeduplicated : state.Deduplicated)
    (hkeeps : ∀ entry, ¬ operation.Removes entry) : Transacted primaryHash operation state state :=
  .of_rewritten rfl rfl rfl (.refl state) hwell hdeduplicated hkeeps

theorem Transacted.commit {operation : Operation} {state next : MailboxState}
    (h : Transacted primaryHash operation state next) :
    Transacted primaryHash operation state next.commit where
  wellFormed := h.wellFormed.commit
  deduplicated := h.deduplicated
  enveloped := h.enveloped
  removed := h.removed
  same := h.same
  new := h.new

theorem Transacted.saveEnvelope {state finish : MailboxState} (hdeduplicated : state.Deduplicated)
    {envelope : Envelope} {primaryKey : Option String} {deliverAt : Option ℚ}
    (hnone : state.messages.get? (state.originalId primaryHash envelope primaryKey) = none)
    (hwell : state.WellFormed) (hfinish : finish.WellFormed)
    (hkeys : finish.primaryKeys = primaryKey.elim state.primaryKeys
      (fun key => state.primaryKeys.set (primaryHash key) envelope.id))
    (henvelopes : finish.envelopes = state.envelopes.set envelope.id envelope)
    (hstored : ∀ id, Option.Rel SameIdentity
      ((state.messages.set envelope.id
        (state.newMeta primaryHash envelope primaryKey deliverAt)).get? id)
      (finish.messages.get? id)) :
    Transacted primaryHash (.saveEnvelope envelope primaryKey deliverAt) state finish := by
  obtain ⟨hfresh, hunused⟩ := hwell.fresh_of_original hnone
  have hnew : ∃ entry, finish.messages.get? envelope.id = some entry ∧
      entry.primaryKey = primaryKey.map primaryHash ∧ entry.address = envelope.address := by
    have hrel := hstored envelope.id
    rw [OrderedMap.get?_set_self] at hrel
    generalize finish.messages.get? envelope.id = found at hrel ⊢
    cases hrel with
    | some hsame => exact ⟨_, rfl, hsame.primaryKey, hsame.address⟩
  have hothers (id : Snowflake) (hid : id ≠ envelope.id) :
      Option.Rel SameIdentity (state.messages.get? id) (finish.messages.get? id) := by
    have hrel := hstored id
    rwa [OrderedMap.get?_set_of_ne _ _ hid] at hrel
  have hold (id : Snowflake) (entry : MessageMeta)
      (hentry : finish.messages.get? id = some entry) (hid : id ≠ envelope.id) :
      ∃ old, state.messages.get? id = some old ∧ SameIdentity old entry := by
    have hrel := hothers id hid
    rw [hentry] at hrel
    generalize state.messages.get? id = found at hrel
    cases hrel with
    | some hsame => exact ⟨_, rfl, hsame⟩
  constructor
  case wellFormed => exact hfinish
  case deduplicated =>
    intro id entry hash hentry hkey
    rw [hkeys]
    rcases eq_or_ne id envelope.id with rfl | hid
    · obtain ⟨entry', hentry', hown, -⟩ := hnew
      obtain rfl := Option.some.inj (hentry'.symm.trans hentry)
      rw [hown] at hkey
      obtain ⟨key, rfl, rfl⟩ := Option.map_eq_some_iff.mp hkey
      exact OrderedMap.get?_set_self _ _ _
    · obtain ⟨old, hstored, hsame⟩ := hold id entry hentry hid
      have hprimary := hdeduplicated id old hash hstored (hsame.primaryKey.symm.trans hkey)
      cases primaryKey with
      | none => exact hprimary
      | some key =>
          rw [Option.elim_some, OrderedMap.get?_set_of_ne _ _, hprimary]
          rintro rfl
          exact nomatch hunused.symm.trans hprimary
  case enveloped =>
    intro henveloped id envelope' henvelope
    rw [henvelopes, OrderedMap.get?_set] at henvelope
    split_ifs at henvelope with hid
    · cases henvelope
      obtain ⟨entry, hentry, -, haddress⟩ := hnew
      exact ⟨entry, hid ▸ hentry, haddress⟩
    · obtain ⟨old, hold, haddress⟩ := henveloped id envelope' henvelope
      have hrel := hothers id hid
      rw [hold] at hrel
      generalize finish.messages.get? id = found at hrel
      cases hrel with
      | some hsame => exact ⟨_, rfl, hsame.address.trans haddress⟩
  case removed =>
    intro id entry hentry
    have hid : id ≠ envelope.id := by
      rintro rfl
      exact nomatch hfresh.symm.trans hentry
    have hrel := hothers id hid
    rw [hentry] at hrel
    generalize finish.messages.get? id = found at hrel
    cases hrel
    exact iff_of_false nofun nofun
  case same =>
    intro id old entry hstored hentry
    have hid : id ≠ envelope.id := by
      rintro rfl
      exact nomatch hfresh.symm.trans hstored
    obtain ⟨old', hold', hsame⟩ := hold id entry hentry hid
    rw [hstored, Option.some.injEq] at hold'
    exact hold' ▸ hsame
  case new =>
    intro id entry hnone hentry
    rcases eq_or_ne id envelope.id with rfl | hid
    · obtain ⟨entry', hentry', hown, -⟩ := hnew
      obtain rfl := Option.some.inj (hentry'.symm.trans hentry)
      exact hown
    · obtain ⟨old, hstored, -⟩ := hold id entry hentry hid
      exact nomatch hnone.symm.trans hstored

/-- An operation that succeeds, in a transaction that may go on. No clear fails. -/
theorem WellFormed.run_transacts (primaryHash : String → String) {state : MailboxState}
    (hwell : state.WellFormed) (h : state.Deduplicated) (operation : Operation) :
    (∀ finish, state.run primaryHash operation = .ok finish →
      Transacted primaryHash operation state finish) ∧
    ∀ error, state.run primaryHash operation = .error error →
      ∀ entry, ¬ operation.Removes entry := by
  have hran {finish : MailboxState} (hrun : state.run primaryHash operation = .ok finish)
      (hfinish : Transacted primaryHash operation state finish) :
      (∀ finish, state.run primaryHash operation = .ok finish →
        Transacted primaryHash operation state finish) ∧
      ∀ error, state.run primaryHash operation = .error error →
        ∀ entry, ¬ operation.Removes entry := by
    refine ⟨fun other hother => ?_, fun error herror => ?_⟩
    · obtain rfl := Except.ok.inj (hrun.symm.trans hother)
      exact hfinish
    · cases hrun.symm.trans herror
  by_cases hquiet : operation.isQuiet = true
  · obtain ⟨finish, hrun, hfinish, hrewritten⟩ := hwell.run_of_isQuiet primaryHash hquiet
    exact hran hrun (.of_rewritten rfl rfl rfl hrewritten hfinish h
      (Operation.not_removes_of_isQuiet hquiet))
  · cases operation with
    | saveEnvelope envelope primaryKey deliverAt =>
        cases hexisting :
            state.messages.get? (state.originalId primaryHash envelope primaryKey) with
        | some existing =>
            apply hran
            · rw [MailboxState.run, saveEnvelope_of_stored hexisting deliverAt]
              rfl
            · exact .of_same hwell h fun _ hremoves => hremoves.elim
        | none =>
            obtain ⟨finish, hsave, hfinish, -, hkeys, henvelopes, hstored⟩ :=
              hwell.saveEnvelope_of_new hexisting deliverAt
            apply hran
            · rw [MailboxState.run, hsave]
              rfl
            · exact .saveEnvelope h hexisting hwell hfinish hkeys henvelopes hstored
    | saveReply reply =>
        by_cases hnew : (state.replyMetadata.get? (toLex (reply.requestId, reply.id))).isSome
        · exact hran (saveReply_of_stored hnew)
            (.of_same hwell h fun _ hremoves => hremoves.elim)
        · by_cases hfree :
              (state.uniqueReplies.get? (toLex (reply.requestId, reply.content.slot))).isSome
          · have hrun : state.run primaryHash (.saveReply reply) = _ :=
              saveReply_of_taken hnew hfree
            refine ⟨fun finish hfinish => ?_, fun _ _ _ hremoves => hremoves.elim⟩
            cases hrun.symm.trans hfinish
          · obtain ⟨finish, hsave, hfinish, hrewritten⟩ := hwell.saveReply_of_new hnew hfree
            have hmessages : (state.insertReply reply
              (repliedState (state.readState reply.requestId) reply)).messages =
                state.messages := rfl
            exact hran hsave
              (.of_rewritten hmessages rfl rfl hrewritten hfinish h fun _ hremoves =>
                hremoves.elim)
    | clearReplies id expectedReplyId =>
        by_cases hexpected : expectedReplyId ≠ none ∧
            (state.readState id).lastReplyId ≠ expectedReplyId
        · refine hran (clearReplies_of_unexpected hexpected) (.of_same hwell h ?_)
          exact fun entry hcleared => hexpected.1 hcleared.2.2
        · obtain ⟨hmessages, hkeys, henvelopes⟩ := clearedReplies_messages state id
          have hdeduplicated : (state.clearedReplies id).Deduplicated := by
            refine h.rewritten hkeys fun id' entry hentry => ?_
            rw [hmessages] at hentry
            exact ⟨entry, hentry, .refl entry⟩
          obtain ⟨finish, hclear, hfinish, hcontinues, htrims, hend, henveloped⟩ :=
            hwell.clearReplies_trims hexpected (stable_deduplicated.and
              (stable_enveloped.imp state.Enveloped))
              ⟨hdeduplicated, fun henveloped => henveloped.congr hmessages henvelopes⟩
          exact hran hclear
            (.of_trims hfinish hend henveloped hcontinues htrims fun _ => Iff.rfl)
    | clearAddress entityType entityId =>
        obtain ⟨finish, hclear, hfinish, hcontinues, htrims, hend, henveloped⟩ :=
          hwell.clearAddress_trims entityType entityId (stable_deduplicated.and
            (stable_enveloped.imp state.Enveloped)) (fun _ _ hmiddle => hmiddle) ⟨h, id⟩
        exact hran hclear
          (.of_trims hfinish hend henveloped hcontinues htrims fun _ => Iff.rfl)
    | unprocessedMessages shards now addresses limit => exact absurd rfl hquiet
    | resetRequests ids => exact absurd rfl hquiet
    | resetAddresses addresses => exact absurd rfl hquiet
    | resetShards shards => exact absurd rfl hquiet

theorem WellFormed.transact {state : MailboxState} (hwell : state.WellFormed)
    (h : state.Deduplicated) (operation : Operation) :
    Transacted primaryHash operation state (state.transact primaryHash operation).1 := by
  obtain ⟨hcommitted, hfailed⟩ := hwell.run_transacts primaryHash h operation
  unfold MailboxState.transact
  split
  · next hrun => exact (hcommitted _ hrun).commit
  · next hrun => exact .of_same hwell h (hfailed _ hrun)

/-! ## Histories -/

structure SaveHistory where
  state : MailboxState
  saved : Snowflake → Option String

namespace SaveHistory

def empty (readVersion : Nat) : SaveHistory where
  state := MailboxState.empty readVersion
  saved := fun _ => none

def transact (primaryHash : String → String) (history : SaveHistory) (operation : Operation) :
    SaveHistory :=
  let next := (history.state.transact primaryHash operation).1
  { state := next
    saved := fun id =>
      if (history.state.messages.get? id).isSome then history.saved id
      else if (next.messages.get? id).isSome then operation.primaryKey else none }

def after (primaryHash : String → String) (history : SaveHistory) (operations : List Operation) :
    SaveHistory :=
  operations.foldl (transact primaryHash) history

def Holds (history : SaveHistory) (key : String) (id : Snowflake) : Prop :=
  (history.state.messages.get? id).isSome ∧ history.saved id = some key

structure Keyed (primaryHash : String → String) (history : SaveHistory) : Prop where
  wellFormed : history.state.WellFormed
  deduplicated : history.state.Deduplicated
  saved : ∀ id entry, history.state.messages.get? id = some entry →
    entry.primaryKey = (history.saved id).map primaryHash

theorem keyed_empty (readVersion : Nat) : Keyed primaryHash (empty readVersion) where
  wellFormed := wellFormed_empty readVersion
  deduplicated := by simp [Deduplicated, empty, MailboxState.empty]
  saved := by simp [empty, MailboxState.empty]

variable {history : SaveHistory}

theorem Keyed.transact (h : history.Keyed primaryHash) (operation : Operation) :
    (history.transact primaryHash operation).Keyed primaryHash := by
  have htransact : Transacted primaryHash operation history.state _ :=
    h.wellFormed.transact h.deduplicated operation
  refine ⟨htransact.wellFormed, htransact.deduplicated, ?_⟩
  intro id entry hentry
  unfold SaveHistory.transact at hentry ⊢
  dsimp only at hentry ⊢
  cases hold : history.state.messages.get? id with
  | some old =>
      rw [Option.isSome_some, if_pos rfl, ← h.saved id old hold]
      exact (htransact.same id old entry hold hentry).primaryKey
  | none =>
      rw [hentry, Option.isSome_none, if_neg Bool.false_ne_true, Option.isSome_some, if_pos rfl]
      exact htransact.new id entry hold hentry

theorem Keyed.after (h : history.Keyed primaryHash) (operations : List Operation) :
    (history.after primaryHash operations).Keyed primaryHash := by
  induction operations generalizing history with
  | nil => exact h
  | cons operation operations ih => exact ih (h.transact operation)

theorem Keyed.get?_primaryKeys (h : history.Keyed primaryHash)
    (hhash : Function.Injective primaryHash) (key : String) (id : Snowflake) :
    history.state.primaryKeys.get? (primaryHash key) = some id ↔ history.Holds key id := by
  constructor
  · intro hprimary
    obtain ⟨entry, hentry, hkey⟩ := h.wellFormed.primary _ id hprimary
    rw [h.saved id entry hentry] at hkey
    obtain ⟨saved, hsaved, hsame⟩ := Option.map_eq_some_iff.mp hkey
    rw [hhash hsame] at hsaved
    exact ⟨by rw [hentry]; rfl, hsaved⟩
  · rintro ⟨hstored, hsaved⟩
    obtain ⟨entry, hentry⟩ := Option.isSome_iff_exists.mp hstored
    apply h.deduplicated id entry _ hentry
    rw [h.saved id entry hentry, hsaved]
    rfl

theorem Keyed.duplicate (h : history.Keyed primaryHash) (hhash : Function.Injective primaryHash)
    {key : String} {id : Snowflake} (hholds : history.Holds key id) :
    ∃ entry, history.state.messages.get? id = some entry ∧ ∀ envelope deliverAt,
      history.state.saveEnvelope primaryHash envelope (some key) deliverAt =
        .ok (history.state, .duplicate id (history.state.lastReply entry.requestId
          (history.state.readState entry.requestId))) := by
  have hprimary := (h.get?_primaryKeys hhash key id).mpr hholds
  obtain ⟨entry, hentry⟩ := Option.isSome_iff_exists.mp hholds.1
  refine ⟨entry, hentry, ?_⟩
  intro envelope deliverAt
  have horiginal : history.state.originalId primaryHash envelope (some key) = id := by
    unfold originalId
    rw [Option.map_some, Option.bind_some, hprimary]
    rfl
  have hsave := @saveEnvelope_of_stored primaryHash history.state envelope (some key) entry
    (by rw [horiginal, hentry]) deliverAt
  rw [horiginal] at hsave
  exact hsave

theorem Keyed.originalId (h : history.Keyed primaryHash) (hhash : Function.Injective primaryHash)
    {key : String} (hunused : ∀ id, ¬ history.Holds key id) (envelope : Envelope) :
    history.state.originalId primaryHash envelope (some key) = envelope.id := by
  have hprimary : history.state.primaryKeys.get? (primaryHash key) = none := by
    rw [Option.eq_none_iff_forall_ne_some]
    exact fun id hid => hunused id ((h.get?_primaryKeys hhash key id).mp hid)
  unfold MailboxState.originalId
  rw [Option.map_some, Option.bind_some, hprimary]
  rfl

theorem Keyed.first (h : history.Keyed primaryHash) (hhash : Function.Injective primaryHash)
    {key : String} (hunused : ∀ id, ¬ history.Holds key id) {envelope : Envelope}
    (hfresh : history.state.messages.get? envelope.id = none) (deliverAt : Option ℚ) :
    ∃ next, history.state.saveEnvelope primaryHash envelope (some key) deliverAt =
        .ok (next, .success) ∧
      ∃ entry, next.messages.get? envelope.id = some entry ∧ entry.requestId = envelope.requestId ∧
        entry.kind = envelope.kind ∧ entry.address = envelope.address := by
  have hnone : history.state.messages.get?
      (history.state.originalId primaryHash envelope (some key)) = none := by
    rw [h.originalId hhash hunused, hfresh]
  obtain ⟨next, hsave, -, -, -, -, hstored⟩ := h.wellFormed.saveEnvelope_of_new hnone deliverAt
  refine ⟨next, hsave, ?_⟩
  have hrel := hstored envelope.id
  rw [OrderedMap.get?_set_self] at hrel
  generalize next.messages.get? envelope.id = found at hrel ⊢
  cases hrel with
  | some hsame => exact ⟨_, rfl, hsame.requestId, hsame.kind, hsame.address⟩

theorem state_after (history : SaveHistory) (operations : List Operation) :
    (history.after primaryHash operations).state = history.state.after primaryHash operations := by
  induction operations generalizing history with
  | nil => rfl
  | cons operation operations ih => exact ih (history.transact primaryHash operation)

theorem Keyed.after_kept (h : history.Keyed primaryHash) {id : Snowflake} {entry : MessageMeta}
    (hentry : history.state.messages.get? id = some entry) (operations : List Operation)
    (hkeeps : ∀ operation ∈ operations, ¬ operation.Removes entry) :
    ∃ entry', (history.after primaryHash operations).state.messages.get? id = some entry' ∧
      SameIdentity entry entry' ∧
      (history.after primaryHash operations).saved id = history.saved id := by
  induction operations generalizing history entry with
  | nil => exact ⟨entry, hentry, .refl entry, rfl⟩
  | cons operation operations ih =>
      have htransact : Transacted primaryHash operation history.state _ :=
        h.wellFormed.transact h.deduplicated operation
      have hkept := mt (htransact.removed id entry hentry).mp
        (hkeeps operation List.mem_cons_self)
      obtain ⟨middle, hmiddle⟩ := Option.ne_none_iff_exists'.mp hkept
      have hsame := htransact.same id entry middle hentry hmiddle
      obtain ⟨entry', hentry', hsame', hsaved⟩ := ih (h.transact operation) hmiddle (by
        intro other hother
        rw [Operation.removes_congr hsame]
        exact hkeeps other (List.mem_cons_of_mem _ hother))
      refine ⟨entry', hentry', hsame.trans hsame', hsaved.trans ?_⟩
      unfold SaveHistory.transact
      dsimp only
      rw [hentry, Option.isSome_some, if_pos rfl]

theorem Keyed.unused (h : history.Keyed primaryHash) (hhash : Function.Injective primaryHash)
    {key : String} {id : Snowflake} (hholds : history.Holds key id) {operation : Operation}
    (hnone : (history.transact primaryHash operation).state.messages.get? id = none)
    (hkey : operation.primaryKey = none) (id' : Snowflake) :
    ¬ (history.transact primaryHash operation).Holds key id' := by
  rintro ⟨hstored, hsaved⟩
  unfold SaveHistory.transact at hstored hsaved hnone
  dsimp only at hstored hsaved hnone
  split_ifs at hsaved with hold
  · have hfirst := (h.get?_primaryKeys hhash key id).mpr hholds
    have hsecond := (h.get?_primaryKeys hhash key id').mpr ⟨hold, hsaved⟩
    obtain rfl := Option.some.inj (hfirst.symm.trans hsecond)
    rw [hnone] at hstored
    exact nomatch hstored
  · exact nomatch hkey.symm.trans hsaved

/-- After a save that stores its message, every other one is a duplicate, until an operation
removes the message. -/
theorem Keyed.interleaved (h : history.Keyed primaryHash)
    (hhash : Function.Injective primaryHash) {key : String} {envelope : Envelope}
    {deliverAt : Option ℚ} {next : MailboxState}
    (hsave : history.state.saveEnvelope primaryHash envelope (some key) deliverAt =
      .ok (next, .success)) :
    ∃ entry, next.messages.get? envelope.id = some entry ∧
      entry.requestId = envelope.requestId ∧ entry.kind = envelope.kind ∧
      entry.address = envelope.address ∧
      ∀ operations, (∀ operation ∈ operations, ¬ Operation.Removes entry operation) →
      ∀ finish, finish = next.commit.after primaryHash operations → ∀ envelope' deliverAt',
        finish.saveEnvelope primaryHash envelope' (some key) deliverAt' =
          .ok (finish, .duplicate envelope.id
            (finish.lastReply envelope.requestId (finish.readState envelope.requestId))) := by
  -- Only a message whose id and key are new is stored.
  have hnone : history.state.messages.get?
      (history.state.originalId primaryHash envelope (some key)) = none := by
    cases hexisting : history.state.messages.get?
        (history.state.originalId primaryHash envelope (some key)) with
    | none => rfl
    | some existing => exact nomatch (saveEnvelope_of_stored hexisting deliverAt).symm.trans hsave
  obtain ⟨hfresh, hprimary⟩ := h.wellFormed.fresh_of_original hnone
  have hunused (id : Snowflake) : ¬ history.Holds key id := fun hholds =>
    nomatch hprimary.symm.trans ((h.get?_primaryKeys hhash key id).mpr hholds)
  obtain ⟨stored, hstored, entry, hentry, hrequest, hkind, haddress⟩ :=
    h.first hhash hunused hfresh deliverAt
  obtain rfl : stored = next := congrArg Prod.fst (Except.ok.inj (hstored.symm.trans hsave))
  refine ⟨entry, hentry, hrequest, hkind, haddress, ?_⟩
  rintro operations hkeeps finish rfl envelope' deliverAt'
  have hnext : history.transact primaryHash (.saveEnvelope envelope (some key) deliverAt) =
      ⟨stored.commit, fun id => if (history.state.messages.get? id).isSome then history.saved id
        else if (stored.messages.get? id).isSome then some key else none⟩ := by
    have hrun : history.state.run primaryHash (.saveEnvelope envelope (some key) deliverAt) =
        .ok stored := by
      rw [MailboxState.run, hsave]
      rfl
    unfold SaveHistory.transact MailboxState.transact
    rw [hrun]
    rfl
  have hkeyed := h.transact (.saveEnvelope envelope (some key) deliverAt)
  rw [hnext] at hkeyed
  obtain ⟨entry', hentry', hsame, hsaved⟩ := hkeyed.after_kept hentry operations hkeeps
  have hholds := hsaved
  dsimp only at hholds
  rw [hfresh, hentry, Option.isSome_none, if_neg Bool.false_ne_true, Option.isSome_some,
    if_pos rfl] at hholds
  obtain ⟨found, hfound, hduplicate⟩ := (hkeyed.after operations).duplicate hhash
    ⟨Option.isSome_iff_exists.mpr ⟨entry', hentry'⟩, hholds⟩
  obtain rfl := Option.some.inj (hentry'.symm.trans hfound)
  have hrepeat := hduplicate envelope' deliverAt'
  rw [state_after, hsame.requestId, hrequest] at hrepeat
  exact hrepeat

end SaveHistory

/-! ## Deduplication -/

/-- What primary keys are for: one stored message has a key, every save with that key repeats
it, and the key is free when the message is removed. -/
structure Deduplication (primaryHash : String → String) (history : SaveHistory) : Prop where
  index : ∀ key id, history.state.primaryKeys.get? (primaryHash key) = some id ↔
    history.Holds key id
  indexed : ∀ hash id, history.state.primaryKeys.get? hash = some id → ∃ key, hash = primaryHash key
  oneMessage : ∀ key id id', history.Holds key id → history.Holds key id' → id = id'
  duplicate : ∀ key id, history.Holds key id →
    ∃ entry, history.state.messages.get? id = some entry ∧ ∀ envelope deliverAt,
      history.state.saveEnvelope primaryHash envelope (some key) deliverAt =
        .ok (history.state, .duplicate id (history.state.lastReply entry.requestId
          (history.state.readState entry.requestId)))
  storedId : ∀ key envelope deliverAt, (∀ id, ¬ history.Holds key id) →
    (history.state.messages.get? envelope.id).isSome → ∃ lastReply,
      history.state.saveEnvelope primaryHash envelope (some key) deliverAt =
        .ok (history.state, .duplicate envelope.id lastReply)
  first : ∀ key envelope deliverAt, (∀ id, ¬ history.Holds key id) →
    history.state.messages.get? envelope.id = none → ∃ next,
      history.state.saveEnvelope primaryHash envelope (some key) deliverAt = .ok (next, .success)
  interleaved : ∀ key envelope deliverAt next,
    history.state.saveEnvelope primaryHash envelope (some key) deliverAt = .ok (next, .success) →
    ∃ entry, next.messages.get? envelope.id = some entry ∧
      entry.requestId = envelope.requestId ∧ entry.kind = envelope.kind ∧
      entry.address = envelope.address ∧
      ∀ operations, (∀ operation ∈ operations, ¬ Operation.Removes entry operation) →
      ∀ finish, finish = next.commit.after primaryHash operations → ∀ envelope' deliverAt',
        finish.saveEnvelope primaryHash envelope' (some key) deliverAt' =
          .ok (finish, .duplicate envelope.id
            (finish.lastReply envelope.requestId (finish.readState envelope.requestId)))
  removed : ∀ id entry operation, history.state.messages.get? id = some entry →
    ((history.state.transact primaryHash operation).1.messages.get? id = none ↔
      operation.Removes entry)
  reusable : ∀ key id entry operation, history.Holds key id →
    history.state.messages.get? id = some entry → operation.Removes entry →
    ∀ envelope deliverAt,
      (history.state.transact primaryHash operation).1.messages.get? envelope.id = none →
      ∃ next, (history.state.transact primaryHash operation).1.saveEnvelope primaryHash envelope
        (some key) deliverAt = .ok (next, .success)

/-- Primary keys deduplicate in every history, when the hash has no collisions. -/
theorem primaryKeys_deduplicate (primaryHash : String → String)
    (hhash : Function.Injective primaryHash) (readVersion : Nat) (operations : List Operation) :
    Deduplication primaryHash ((SaveHistory.empty readVersion).after primaryHash operations) := by
  have h : SaveHistory.Keyed primaryHash _ := (SaveHistory.keyed_empty readVersion).after operations
  generalize (SaveHistory.empty readVersion).after primaryHash operations = history at h ⊢
  constructor
  case index => exact h.get?_primaryKeys hhash
  case indexed =>
    intro hash id hprimary
    obtain ⟨entry, hentry, hkey⟩ := h.wellFormed.primary hash id hprimary
    rw [h.saved id entry hentry] at hkey
    obtain ⟨key, -, hhash'⟩ := Option.map_eq_some_iff.mp hkey
    exact ⟨key, hhash'.symm⟩
  case oneMessage =>
    intro key id id' hholds hholds'
    have hfirst := (h.get?_primaryKeys hhash key id).mpr hholds
    have hsecond := (h.get?_primaryKeys hhash key id').mpr hholds'
    exact Option.some.inj (hfirst.symm.trans hsecond)
  case duplicate => exact fun key id hholds => h.duplicate hhash hholds
  case storedId =>
    intro key envelope deliverAt hunused hstored
    obtain ⟨existing, hexisting⟩ := Option.isSome_iff_exists.mp hstored
    have horiginal := h.originalId hhash hunused envelope
    rw [← horiginal] at hexisting
    rw [← horiginal]
    exact ⟨_, saveEnvelope_of_stored hexisting deliverAt⟩
  case first =>
    intro key envelope deliverAt hunused hfresh
    obtain ⟨next, hsave, -⟩ := h.first hhash hunused hfresh deliverAt
    exact ⟨next, hsave⟩
  case interleaved =>
    intro key envelope deliverAt next hsave
    exact h.interleaved hhash hsave
  case removed =>
    intro id entry operation hentry
    have htransact : Transacted primaryHash operation history.state _ :=
      h.wellFormed.transact h.deduplicated operation
    exact htransact.removed id entry hentry
  case reusable =>
    intro key id entry operation hholds hentry hremoves envelope deliverAt hfresh
    have htransact : Transacted primaryHash operation history.state _ :=
      h.wellFormed.transact h.deduplicated operation
    have hunused := h.unused hhash hholds ((htransact.removed id entry hentry).mpr hremoves)
      (Operation.primaryKey_of_removes hremoves)
    obtain ⟨next, hsave, -⟩ := (h.transact operation).first hhash hunused hfresh deliverAt
    exact ⟨next, hsave⟩

theorem primaryKeys_deduplicate_run : ∃ history, history =
    (SaveHistory.empty 0).after id [
      .saveEnvelope (.request 1 (userAddress "a") "{}") (some "run") none,
      .saveReply { id := 2, requestId := 1, content := .withExit "1" }] ∧
    history.Holds "run" 1 ∧ Deduplication id history :=
  ⟨_, rfl, ⟨by decide +kernel, by decide +kernel⟩,
    primaryKeys_deduplicate id Function.injective_id 0 _⟩

def saveResults (primaryHash : String → String) : MailboxState → List Operation →
    List (Option SaveResult)
  | _, [] => []
  | state, operation :: operations =>
      (match operation with
        | .saveEnvelope envelope primaryKey deliverAt =>
            (state.saveEnvelope primaryHash envelope primaryKey deliverAt).toOption.map Prod.snd
        | _ => none) ::
      saveResults primaryHash (state.transact primaryHash operation).1 operations

/-- The first save with the key "b" repeats the message id of another key, and stores nothing.
The second one stores its message, and no message has been removed before it. -/
theorem second_save_stores :
    saveResults id (empty 0) [
      .saveEnvelope (.request 1 (userAddress "a") "{}") (some "a") none,
      .saveEnvelope (.request 1 (userAddress "a") "{}") (some "b") none,
      .saveEnvelope (.request 2 (userAddress "a") "{}") (some "b") none] =
    [some .success, some (.duplicate 1 none), some .success] := by
  decide +kernel

end MailboxState

end FoundationDbEffect.Cluster
