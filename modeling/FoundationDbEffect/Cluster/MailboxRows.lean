import FoundationDbEffect.Cluster.MessageStorage
import FoundationDbEffect.Cluster.PollingRows

/-!
# Rows of the mailbox

A mailbox is well formed when its index rows are those of its stored messages. Storing new
metadata and removing a message keep it well formed and change nothing of other messages.
-/

namespace FoundationDbEffect.Cluster

open FoundationDbEffect.Foundation

namespace PollingStore

theorem Tracked.of_same {store : PollingStore} {entry entry' : MessageMeta}
    (h : store.Tracked entry) (hid : entry'.id = entry.id) (haddress : entry'.address = entry.address)
    (hpolling : entry'.polling = entry.polling) : store.Tracked entry' := by
  have hindexes : pollingIndexes entry' = pollingIndexes entry := by
    unfold pollingIndexes
    rw [haddress]
  constructor
  · rw [hid, hindexes]
    exact h.pending
  · rw [hid, hindexes, hpolling]
    exact h.ready
  · rw [hid, hindexes, hpolling]
    exact h.scheduled

/-- A message that has no row is tracked while it is blocked, whatever its order. -/
theorem Untracked.insert {store : PollingStore} {entry : MessageMeta}
    {order : OrderStore PollingIndex} (h : store.Untracked entry.id)
    (hblocked : entry.polling = .blocked)
    (hrows : ∀ space row, order.HasRow space row ↔ store.order.HasRow space row)
    (hpending : ∀ pending ∈ order.pending, pending.id = entry.id →
      pending.indexes = pollingIndexes entry) : Tracked { store with order } entry where
  pending := hpending
  ready := by
    intro space row hid
    rw [hblocked, hrows]
    exact iff_of_false (h.ready space row hid) (fun hready => nomatch hready.1)
  scheduled := by
    intro space row hid
    rw [hblocked]
    exact iff_of_false (h.scheduled space row hid) (fun htimer => nomatch htimer.1)

theorem Tracked.commit {store : PollingStore} {entry : MessageMeta} (h : store.Tracked entry) :
    Tracked { store with order := store.order.commit } entry :=
  ⟨nofun, h.ready, h.scheduled⟩

end PollingStore

structure SameIdentity (old entry : MessageMeta) : Prop where
  id : entry.id = old.id
  requestId : entry.requestId = old.requestId
  kind : entry.kind = old.kind
  address : entry.address = old.address
  primaryKey : entry.primaryKey = old.primaryKey

theorem SameIdentity.refl (entry : MessageMeta) : SameIdentity entry entry :=
  ⟨rfl, rfl, rfl, rfl, rfl⟩

theorem SameIdentity.trans {old middle entry : MessageMeta} (h : SameIdentity old middle)
    (h' : SameIdentity middle entry) : SameIdentity old entry :=
  ⟨h'.id.trans h.id, h'.requestId.trans h.requestId, h'.kind.trans h.kind,
    h'.address.trans h.address, h'.primaryKey.trans h.primaryKey⟩

namespace MailboxState

theorem shardRow_congr {old entry : MessageMeta} (h : SameIdentity old entry) :
    shardRow entry = shardRow old := by
  rw [shardRow, shardRow, h.id, h.address]

theorem addressRow_congr {old entry : MessageMeta} (h : SameIdentity old entry) :
    addressRow entry = addressRow old := by
  rw [addressRow, addressRow, h.id, h.address]

theorem requestRow_congr {old entry : MessageMeta} (h : SameIdentity old entry) :
    requestRow entry = requestRow old := by
  rw [requestRow, requestRow, h.id, h.requestId]

structure Indexed (state : MailboxState) : Prop where
  consistent : state.polling.order.Consistent
  keyed : ∀ id entry, state.messages.get? id = some entry → entry.id = id
  tracked : ∀ id entry, state.messages.get? id = some entry → state.polling.Tracked entry
  ordered : ∀ id entry, state.messages.get? id = some entry →
    (state.polling.order.orders.get? id).isSome
  enveloped : ∀ id entry, state.messages.get? id = some entry → (state.envelopes.get? id).isSome
  untracked : ∀ id, state.messages.get? id = none → state.polling.Untracked id

def IndexOf {α : Type} [LinearOrder α] (messages : OrderedMap Snowflake MessageMeta)
    (index : OrderedMap α Unit) (rowOf : MessageMeta → α) : Prop :=
  ∀ row, index.get? row = some () ↔
    ∃ id entry, messages.get? id = some entry ∧ row = rowOf entry

structure WellFormed (state : MailboxState) : Prop extends state.Indexed where
  byShard : IndexOf state.messages state.messagesByShard shardRow
  byAddress : IndexOf state.messages state.messagesByAddress addressRow
  byRequest : IndexOf state.messages state.messagesByRequest requestRow
  primary : ∀ hash id, state.primaryKeys.get? hash = some id →
    ∃ entry, state.messages.get? id = some entry ∧ entry.primaryKey = some hash

/-- What storing metadata changes: messages keep their identity and their order, and the same
ones are stored. -/
structure Rewritten (state next : MailboxState) : Prop where
  others : next = { state with polling := next.polling, messages := next.messages }
  readVersion : next.polling.order.readVersion = state.polling.order.readVersion
  orders : next.polling.order.orders = state.polling.order.orders
  messages : ∀ id, Option.Rel SameIdentity (state.messages.get? id) (next.messages.get? id)

theorem Rewritten.refl (state : MailboxState) : Rewritten state state := by
  refine ⟨rfl, rfl, rfl, ?_⟩
  intro id
  cases state.messages.get? id with
  | none => exact .none
  | some entry => exact .some (.refl entry)

theorem Rewritten.trans {state middle next : MailboxState} (h : Rewritten state middle)
    (h' : Rewritten middle next) : Rewritten state next where
  others := by
    rw [h'.others, h.others]
  readVersion := h'.readVersion.trans h.readVersion
  orders := h'.orders.trans h.orders
  messages := by
    intro id
    have hfirst := h.messages id
    have hsecond := h'.messages id
    generalize state.messages.get? id = old at hfirst
    generalize middle.messages.get? id = entry at hfirst hsecond
    generalize next.messages.get? id = new at hsecond
    cases hfirst with
    | none =>
        cases hsecond
        exact .none
    | some hsame =>
        cases hsecond with
        | some hsame' => exact .some (hsame.trans hsame')

theorem Rewritten.requestStates {state next : MailboxState} (h : Rewritten state next) :
    next.requestStates = state.requestStates := by
  rw [h.others]

theorem Rewritten.readState {state next : MailboxState} (h : Rewritten state next)
    (id : Snowflake) : next.readState id = state.readState id := by
  rw [MailboxState.readState, MailboxState.readState, h.requestStates]

theorem Rewritten.old {state next : MailboxState} (h : Rewritten state next) {id : Snowflake}
    {entry : MessageMeta} (hentry : next.messages.get? id = some entry) :
    ∃ old, state.messages.get? id = some old ∧ SameIdentity old entry := by
  have hrel := h.messages id
  rw [hentry] at hrel
  generalize state.messages.get? id = found at hrel
  cases hrel with
  | some hsame => exact ⟨_, rfl, hsame⟩

theorem Rewritten.new {state next : MailboxState} (h : Rewritten state next) {id : Snowflake}
    {old : MessageMeta} (hold : state.messages.get? id = some old) :
    ∃ entry, next.messages.get? id = some entry ∧ SameIdentity old entry := by
  have hrel := h.messages id
  rw [hold] at hrel
  generalize next.messages.get? id = found at hrel
  cases hrel with
  | some hsame => exact ⟨_, rfl, hsame⟩

theorem IndexOf.congr {α : Type} [LinearOrder α] {state next : MailboxState}
    {index : OrderedMap α Unit} {rowOf : MessageMeta → α}
    (hindex : IndexOf state.messages index rowOf) (h : Rewritten state next)
    (hrow : ∀ old entry, SameIdentity old entry → rowOf entry = rowOf old) :
    IndexOf next.messages index rowOf := by
  intro row
  rw [hindex row]
  constructor
  · rintro ⟨id, old, hold, rfl⟩
    obtain ⟨entry, hentry, hsame⟩ := h.new hold
    exact ⟨id, entry, hentry, (hrow old entry hsame).symm⟩
  · rintro ⟨id, entry, hentry, rfl⟩
    obtain ⟨old, hold, hsame⟩ := h.old hentry
    exact ⟨id, old, hold, hrow old entry hsame⟩

theorem Rewritten.wellFormed {state next : MailboxState} (h : Rewritten state next)
    (hwell : state.WellFormed) (hindexed : next.Indexed) : next.WellFormed where
  toIndexed := hindexed
  byShard := by
    have hindex := hwell.byShard.congr h fun _ _ => shardRow_congr
    rw [h.others]
    exact hindex
  byAddress := by
    have hindex := hwell.byAddress.congr h fun _ _ => addressRow_congr
    rw [h.others]
    exact hindex
  byRequest := by
    have hindex := hwell.byRequest.congr h fun _ _ => requestRow_congr
    rw [h.others]
    exact hindex
  primary := by
    rw [h.others]
    intro hash id hprimary
    obtain ⟨old, hold, hkey⟩ := hwell.primary hash id hprimary
    obtain ⟨entry, hentry, hsame⟩ := h.new hold
    exact ⟨entry, hentry, hsame.primaryKey.trans hkey⟩

/-! ## Storing metadata -/

theorem Indexed.stamp {state : MailboxState} (h : state.Indexed) {id : Snowflake}
    {entry : MessageMeta} (hentry : state.messages.get? id = some entry) :
    ∃ stamp, state.polling.order.orders.get? entry.id = some stamp := by
  rw [h.keyed id entry hentry]
  exact Option.isSome_iff_exists.mp (h.ordered id entry hentry)

theorem setPolling_spec {state : MailboxState} {entry : MessageMeta} {stamp : OrderStamp}
    (hconsistent : state.polling.order.Consistent) (htracked : state.polling.Tracked entry)
    (hstamp : state.polling.order.orders.get? entry.id = some stamp) (polling : Polling) :
    ∃ store, state.setPolling entry polling = .ok { state with
        polling := store
        messages := state.messages.set entry.id { entry with polling } } ∧
      PollingStore.Reordered entry polling state.polling.order store.order ∧
      PollingStore.SameExcept entry.id state.polling store ∧
      store.Tracked { entry with polling } := by
  obtain ⟨store, hset, hspec⟩ :=
    PollingStore.setMessagePolling_spec hconsistent htracked hstamp polling
  exact ⟨store, bind_eq_ok.mpr ⟨_, hset, rfl⟩, hspec⟩

theorem Indexed.setPolling {state : MailboxState} (h : state.Indexed) {old entry : MessageMeta}
    (hold : state.messages.get? entry.id = some old) (hsame : SameIdentity old entry)
    (hpolling : entry.polling = old.polling) (polling : Polling) :
    ∃ next, state.setPolling entry polling = .ok next ∧ next.Indexed ∧ Rewritten state next ∧
      next.messages = state.messages.set entry.id { entry with polling } ∧
      PollingStore.Reordered entry polling state.polling.order next.polling.order := by
  have htracked := (h.tracked _ _ hold).of_same hsame.id hsame.address hpolling
  obtain ⟨stamp, hstamp⟩ := h.stamp hold
  rw [← hsame.id] at hstamp
  obtain ⟨store, hset, hreordered, hexcept, htracked'⟩ :=
    setPolling_spec h.consistent htracked hstamp polling
  have hget (id : Snowflake) (other : MessageMeta)
      (hother : (state.messages.set entry.id { entry with polling }).get? id = some other) :
      id = entry.id ∧ other = { entry with polling } ∨
        id ≠ entry.id ∧ state.messages.get? id = some other := by
    rw [OrderedMap.get?_set] at hother
    split_ifs at hother with hid
    · exact .inl ⟨hid, (Option.some.inj hother).symm⟩
    · exact .inr ⟨hid, hother⟩
  refine ⟨_, hset, ?_, ?_, rfl, hreordered⟩
  · constructor
    case consistent => exact hreordered.consistent h.consistent htracked.pending
    case keyed =>
      intro id other hother
      rcases hget id other hother with ⟨rfl, rfl⟩ | ⟨-, hother⟩
      · rfl
      · exact h.keyed id other hother
    case tracked =>
      intro id other hother
      rcases hget id other hother with ⟨rfl, rfl⟩ | ⟨hne, hother⟩
      · exact htracked'
      · exact hexcept.tracked (h.keyed id other hother ▸ hne) (h.tracked id other hother)
    case ordered =>
      intro id other hother
      rw [hreordered.orders]
      rcases hget id other hother with ⟨rfl, rfl⟩ | ⟨-, hother⟩
      · exact h.ordered _ _ hold
      · exact h.ordered id other hother
    case enveloped =>
      intro id other hother
      rcases hget id other hother with ⟨rfl, rfl⟩ | ⟨-, hother⟩
      · exact h.enveloped _ _ hold
      · exact h.enveloped id other hother
    case untracked =>
      intro id hnone
      dsimp only at hnone
      rw [OrderedMap.get?_set] at hnone
      split_ifs at hnone with hid
      exact hexcept.untracked hid (h.untracked id hnone)
  · refine ⟨rfl, hexcept.order.readVersion, hreordered.orders, ?_⟩
    intro id
    dsimp only
    rw [OrderedMap.get?_set]
    split_ifs with hid
    · rw [hid, hold]
      exact .some ⟨hsame.id, hsame.requestId, hsame.kind, hsame.address, hsame.primaryKey⟩
    · exact (Rewritten.refl state).messages id

/-! ## Removing messages -/

/-- What storing metadata and removing messages changes: messages keep their identity and
their order, and none is new. -/
structure Continues (state next : MailboxState) : Prop where
  readVersion : next.polling.order.readVersion = state.polling.order.readVersion
  messages : ∀ id entry, next.messages.get? id = some entry →
    ∃ old, state.messages.get? id = some old ∧ SameIdentity old entry
  orders : ∀ id, (next.messages.get? id).isSome →
    next.polling.order.orders.get? id = state.polling.order.orders.get? id

theorem Rewritten.continues {state next : MailboxState} (h : Rewritten state next) :
    Continues state next where
  readVersion := h.readVersion
  messages := fun _ _ hentry => h.old hentry
  orders := fun _ _ => by rw [h.orders]

theorem Continues.refl (state : MailboxState) : Continues state state :=
  (Rewritten.refl state).continues

theorem Continues.trans {state middle next : MailboxState} (h : Continues state middle)
    (h' : Continues middle next) : Continues state next where
  readVersion := h'.readVersion.trans h.readVersion
  messages := by
    intro id entry hentry
    obtain ⟨middle, hmiddle, hsame⟩ := h'.messages id entry hentry
    obtain ⟨old, hold, hsame'⟩ := h.messages id middle hmiddle
    exact ⟨old, hold, hsame'.trans hsame⟩
  orders := by
    intro id hsome
    obtain ⟨entry, hentry⟩ := Option.isSome_iff_exists.mp hsome
    obtain ⟨middle, hmiddle, -⟩ := h'.messages id entry hentry
    exact (h'.orders id hsome).trans (h.orders id (by simp [hmiddle]))

theorem IndexOf.clear {α : Type} [LinearOrder α] {messages : OrderedMap Snowflake MessageMeta}
    {index : OrderedMap α Unit} {rowOf : MessageMeta → α} (h : IndexOf messages index rowOf)
    {id : Snowflake} {entry : MessageMeta} (hentry : messages.get? id = some entry)
    (hrow : ∀ id' other, messages.get? id' = some other → rowOf other = rowOf entry → id' = id) :
    IndexOf (messages.clear id) (index.clear (rowOf entry)) rowOf := by
  intro row
  rw [OrderedMap.get?_clear]
  constructor
  · intro hget
    split_ifs at hget with hsame
    obtain ⟨id', other, hother, rfl⟩ := (h row).mp hget
    refine ⟨id', other, (OrderedMap.get?_clear_of_ne _ ?_).trans hother, rfl⟩
    rintro rfl
    rw [hentry] at hother
    cases hother
    exact hsame rfl
  · rintro ⟨id', other, hother, rfl⟩
    rw [OrderedMap.get?_clear] at hother
    split_ifs at hother with hid
    rw [if_neg fun hsame => hid (hrow id' other hother hsame)]
    exact (h _).mpr ⟨id', other, hother, rfl⟩

theorem Indexed.id_of_row {state : MailboxState} (h : state.Indexed) {α : Type}
    {rowOf : MessageMeta → α} (hrowOf : ∀ entry entry', rowOf entry = rowOf entry' →
      entry.id = entry'.id) {id : Snowflake} {entry : MessageMeta}
    (hentry : state.messages.get? id = some entry) (id' : Snowflake) (other : MessageMeta)
    (hother : state.messages.get? id' = some other) (hrow : rowOf other = rowOf entry) :
    id' = id := by
  rw [← h.keyed id entry hentry, ← h.keyed id' other hother]
  exact hrowOf other entry hrow

theorem id_of_shardRow (entry entry' : MessageMeta) (h : shardRow entry = shardRow entry') :
    entry.id = entry'.id :=
  congrArg (fun row : String ×ₗ Snowflake => (ofLex row).2) h

theorem id_of_addressRow (entry entry' : MessageMeta) (h : addressRow entry = addressRow entry') :
    entry.id = entry'.id :=
  congrArg (fun row : String ×ₗ String ×ₗ String ×ₗ Snowflake =>
    (ofLex (ofLex (ofLex row).2).2).2) h

theorem id_of_requestRow (entry entry' : MessageMeta) (h : requestRow entry = requestRow entry') :
    entry.id = entry'.id :=
  congrArg (fun row : Snowflake ×ₗ Snowflake => (ofLex row).2) h

theorem WellFormed.removeMessage {state : MailboxState} (h : state.WellFormed)
    {entry : MessageMeta} (hentry : state.messages.get? entry.id = some entry) :
    ∃ next, state.removeMessage entry = .ok next ∧ next.WellFormed ∧ Continues state next ∧
      next.messages = state.messages.clear entry.id ∧
      next.requestStates = state.requestStates := by
  have htracked := h.tracked _ _ hentry
  obtain ⟨stamp, hstamp⟩ := h.stamp hentry
  obtain ⟨order, horder, hconsistent, hexcept, hcleared, hrows⟩ :=
    h.consistent.removeMessageOrder htracked.pending hstamp
  rw [← PollingStore.order_clearMessageTimer] at horder
  have hsame : PollingStore.SameExcept entry.id state.polling
      { state.polling.clearMessageTimer entry with order } :=
    ⟨hexcept, (PollingStore.sameExcept_clearMessageTimer state.polling entry).timers⟩
  have hget (id : Snowflake) (other : MessageMeta)
      (hother : (state.messages.clear entry.id).get? id = some other) :
      id ≠ entry.id ∧ state.messages.get? id = some other := by
    rw [OrderedMap.get?_clear] at hother
    split_ifs at hother with hid
    exact ⟨hid, hother⟩
  refine ⟨_, bind_eq_ok.mpr ⟨order, horder, rfl⟩, ⟨?_, ?_, ?_, ?_, ?_⟩, ?_, rfl, rfl⟩
  · constructor
    case consistent => exact hconsistent
    case keyed =>
      intro id other hother
      exact h.keyed id other (hget id other hother).2
    case tracked =>
      intro id other hother
      obtain ⟨hne, hother⟩ := hget id other hother
      exact hsame.tracked (h.keyed id other hother ▸ hne) (h.tracked id other hother)
    case ordered =>
      intro id other hother
      obtain ⟨hne, hother⟩ := hget id other hother
      dsimp only
      rw [hexcept.orders id hne]
      exact h.ordered id other hother
    case enveloped =>
      intro id other hother
      obtain ⟨hne, hother⟩ := hget id other hother
      dsimp only
      rw [OrderedMap.get?_clear_of_ne _ hne]
      exact h.enveloped id other hother
    case untracked =>
      intro id hnone
      rcases eq_or_ne id entry.id with rfl | hne
      · constructor
        · exact hcleared
        · rintro space row hid hrow
          obtain ⟨hnot, hrow⟩ := (hrows space row).mp hrow
          obtain ⟨-, hspace, hrowStamp⟩ := (htracked.ready space row hid).mp hrow
          rw [hstamp] at hrowStamp
          cases hrowStamp
          exact hnot ⟨hspace, by rw [← hid]; rfl⟩
        · exact htracked.clearMessageTimer
      · exact hsame.untracked hne
          (h.untracked id ((OrderedMap.get?_clear_of_ne _ hne).symm.trans hnone))
  · exact h.byShard.clear hentry (h.id_of_row id_of_shardRow hentry)
  · exact h.byAddress.clear hentry (h.id_of_row id_of_addressRow hentry)
  · exact h.byRequest.clear hentry (h.id_of_row id_of_requestRow hentry)
  · -- The primary key of a removed message is cleared with it.
    intro hash id hprimary
    have hkept : state.primaryKeys.get? hash = some id ∧ entry.primaryKey ≠ some hash := by
      dsimp only at hprimary
      cases hkey : entry.primaryKey with
      | none =>
          rw [hkey] at hprimary
          exact ⟨hprimary, nofun⟩
      | some key =>
          rw [hkey, Option.elim_some, OrderedMap.get?_clear] at hprimary
          split_ifs at hprimary with hhash
          exact ⟨hprimary, fun heq => hhash (Option.some.inj heq).symm⟩
    obtain ⟨other, hother, hotherKey⟩ := h.primary hash id hkept.1
    refine ⟨other, (OrderedMap.get?_clear_of_ne _ ?_).trans hother, hotherKey⟩
    rintro rfl
    rw [hentry] at hother
    cases hother
    exact hkept.2 hotherKey
  · refine ⟨hexcept.readVersion, ?_, ?_⟩
    · intro id other hother
      exact ⟨other, (hget id other hother).2, .refl other⟩
    · intro id hsome
      obtain ⟨other, hother⟩ := Option.isSome_iff_exists.mp hsome
      exact hexcept.orders id (hget id other hother).1

/-! ## New messages -/

theorem IndexOf.insert {α : Type} [LinearOrder α] {messages : OrderedMap Snowflake MessageMeta}
    {index : OrderedMap α Unit} {rowOf : MessageMeta → α} (h : IndexOf messages index rowOf)
    {id : Snowflake} (hfresh : messages.get? id = none) (entry : MessageMeta) :
    IndexOf (messages.set id entry) (index.set (rowOf entry) ()) rowOf := by
  intro row
  rw [OrderedMap.get?_set]
  constructor
  · intro hget
    split_ifs at hget with hsame
    · exact ⟨id, entry, OrderedMap.get?_set_self _ _ _, hsame⟩
    · obtain ⟨id', other, hother, rfl⟩ := (h row).mp hget
      refine ⟨id', other, (OrderedMap.get?_set_of_ne _ _ ?_).trans hother, rfl⟩
      rintro rfl
      rw [hfresh] at hother
      exact nomatch hother
  · rintro ⟨id', other, hother, rfl⟩
    split_ifs with hsame
    · rfl
    · rw [OrderedMap.get?_set] at hother
      split_ifs at hother with hid
      · cases hother
        exact absurd rfl hsame
      · exact (h _).mpr ⟨id', other, hother, rfl⟩

theorem WellFormed.enqueue {state : MailboxState} (h : state.WellFormed) (envelope : Envelope)
    {entry : MessageMeta} (requestState : RequestState)
    (hfresh : state.messages.get? entry.id = none) (hblocked : entry.polling = .blocked) :
    ∃ store next, state.enqueue envelope entry requestState = .ok next ∧ next = { state with
      polling := store
      messages := state.messages.set entry.id
        { entry with polling := pollingState entry requestState }
      envelopes := state.envelopes.set entry.id envelope
      messagesByShard := state.messagesByShard.set (shardRow entry) ()
      messagesByAddress := state.messagesByAddress.set (addressRow entry) ()
      messagesByRequest := state.messagesByRequest.set (requestRow entry) () } ∧
    next.WellFormed ∧ store.order.readVersion = state.polling.order.readVersion ∧
    store.order.orders = state.polling.order.orders.set entry.id
      (toLex (state.polling.order.readVersion + 1, state.polling.order.next)) := by
  have huntracked := h.untracked _ hfresh
  obtain ⟨hinserted, hconsistent, hexcept⟩ :=
    h.consistent.insertMessageOrder (pollingIndexes entry) huntracked.orders
  set order := state.polling.order.insertMessageOrder entry.id (pollingIndexes entry) false
    with horder
  have hsame : PollingStore.SameExcept entry.id state.polling { state.polling with order } :=
    ⟨hexcept, fun _ _ _ => Iff.rfl⟩
  have hnew : PollingStore.Tracked { state.polling with order } entry := by
    apply huntracked.insert hblocked
    · rw [hinserted]
      exact fun _ _ => Iff.rfl
    · intro pending hpending hid
      rw [hinserted] at hpending
      rcases List.mem_append.mp hpending with hpending | hpending
      · exact absurd hid (h.consistent.ne_of_orders huntracked.orders pending hpending)
      · rw [List.mem_singleton.mp hpending]
  have hstamp : order.orders.get? entry.id =
      some (toLex (state.polling.order.readVersion + 1, state.polling.order.next)) := by
    rw [hinserted]
    exact OrderedMap.get?_set_self _ _ _
  obtain ⟨store, hset, hreordered, hexcept', htracked⟩ := @setPolling_spec { state with
    envelopes := state.envelopes.set entry.id envelope
    polling := { state.polling with order } } _ _ hconsistent hnew hstamp
      (pollingState entry requestState)
  have hget (id : Snowflake) (other : MessageMeta)
      (hother : (state.messages.set entry.id
        { entry with polling := pollingState entry requestState }).get? id = some other) :
      id = entry.id ∧ other = { entry with polling := pollingState entry requestState } ∨
        id ≠ entry.id ∧ state.messages.get? id = some other := by
    rw [OrderedMap.get?_set] at hother
    split_ifs at hother with hid
    · exact .inl ⟨hid, (Option.some.inj hother).symm⟩
    · exact .inr ⟨hid, hother⟩
  have horders : store.order.orders = state.polling.order.orders.set entry.id
      (toLex (state.polling.order.readVersion + 1, state.polling.order.next)) := by
    rw [hreordered.orders]
    dsimp only
    rw [hinserted]
  have hexcept := hsame.trans hexcept'
  refine ⟨store, _, bind_eq_ok.mpr ⟨_, hset, rfl⟩, rfl, ⟨?_, ?_, ?_, ?_, ?_⟩,
    hexcept.order.readVersion, horders⟩
  · constructor
    case consistent => exact hreordered.consistent hconsistent hnew.pending
    case keyed =>
      intro id other hother
      rcases hget id other hother with ⟨rfl, rfl⟩ | ⟨-, hother⟩
      · rfl
      · exact h.keyed id other hother
    case tracked =>
      intro id other hother
      rcases hget id other hother with ⟨rfl, rfl⟩ | ⟨hne, hother⟩
      · exact htracked
      · exact hexcept.tracked (h.keyed id other hother ▸ hne) (h.tracked id other hother)
    case ordered =>
      intro id other hother
      dsimp only
      rw [horders]
      rcases hget id other hother with ⟨rfl, rfl⟩ | ⟨hne, hother⟩
      · rw [OrderedMap.get?_set_self]
        rfl
      · rw [OrderedMap.get?_set_of_ne _ _ hne]
        exact h.ordered id other hother
    case enveloped =>
      intro id other hother
      rcases hget id other hother with ⟨rfl, rfl⟩ | ⟨hne, hother⟩
      · exact congrArg Option.isSome (OrderedMap.get?_set_self _ _ _)
      · dsimp only
        rw [OrderedMap.get?_set_of_ne _ _ hne]
        exact h.enveloped id other hother
    case untracked =>
      intro id hnone
      dsimp only at hnone
      rw [OrderedMap.get?_set] at hnone
      split_ifs at hnone with hid
      exact hexcept.untracked hid (h.untracked id hnone)
  · exact h.byShard.insert hfresh _
  · exact h.byAddress.insert hfresh _
  · exact h.byRequest.insert hfresh _
  · intro hash id hprimary
    obtain ⟨other, hother, hkey⟩ := h.primary hash id hprimary
    refine ⟨other, (OrderedMap.get?_set_of_ne _ _ ?_).trans hother, hkey⟩
    rintro rfl
    rw [hfresh] at hother
    exact nomatch hother

/-! ## Commits -/

theorem WellFormed.commit {state : MailboxState} (h : state.WellFormed) : state.commit.WellFormed where
  consistent := h.consistent.commit
  keyed := h.keyed
  tracked := fun id entry hentry => (h.tracked id entry hentry).commit
  ordered := h.ordered
  enveloped := h.enveloped
  untracked := fun id hnone => ⟨(h.untracked id hnone).orders, (h.untracked id hnone).ready,
    (h.untracked id hnone).scheduled⟩
  byShard := h.byShard
  byAddress := h.byAddress
  byRequest := h.byRequest
  primary := h.primary

theorem indexOf_empty {α : Type} [LinearOrder α] (rowOf : MessageMeta → α) :
    IndexOf ∅ ∅ rowOf := by
  intro row
  simp

theorem wellFormed_empty (readVersion : Nat) : (empty readVersion).WellFormed where
  consistent := by
    constructor
    case pending => exact .nil
    case users => exact nofun
    case tail =>
      intro space row _
      simp [OrderStore.HasRow, OrderStore.IssuedBy, empty]
    case pendingOrders => exact nofun
    case committedOrders => simp [empty]
    case orders => simp [empty]
    case stamps => simp [empty]
  keyed := by simp [empty]
  tracked := by simp [empty]
  ordered := by simp [empty]
  enveloped := by simp [empty]
  untracked := by
    intro id _
    constructor
    · rfl
    · simp [OrderStore.HasRow, empty]
    · simp [PollingStore.HasTimer, empty]
  byShard := indexOf_empty _
  byAddress := indexOf_empty _
  byRequest := indexOf_empty _
  primary := by simp [empty]

end MailboxState

end FoundationDbEffect.Cluster
