import FoundationDbEffect.Cluster.MailboxRows

/-!
# Polling a mailbox

A poll promotes the due timers of the selected indexes, merges their ready rows and claims
the eligible messages among them, until it has as many as its limit. It selects what a scan
of all stored messages selects.
-/

namespace FoundationDbEffect.Cluster

open FoundationDbEffect.Foundation

namespace MailboxState

/-! ## Agreement -/

/-- The polling of a message is that of its state, or it is ready because its timer was due. -/
def Agrees (entry : MessageMeta) (requestState : RequestState) : Prop :=
  entry.polling = pollingState entry requestState ∨
    entry.polling = .ready ∧ ∃ time, pollingState entry requestState = .timer time

def Agreed (state : MailboxState) : Prop :=
  ∀ id entry, state.messages.get? id = some entry →
    Agrees entry (state.readState entry.requestId)

/-! ## The scan -/

def isEligible (now : ℚ) (entry : MessageMeta) (requestState : RequestState) : Bool :=
  !entry.processed ∧ requestState.exitId = none ∧ requestState.unacked ≤ 0 ∧
    (entry.kind = .ackChunk → requestState.latestAckId = some entry.id) ∧
    entry.deliverAt.all (· ≤ now) ∧ entry.claimedAt.all (· ≤ now - claimExpirationMillis)

def isSelected (shards : List String) (addresses : Option (List EntityAddress))
    (entry : MessageMeta) : Bool :=
  entry.address.shardId.toString ∈ shards ∧
    addresses.all fun addresses =>
      addresses.any fun address => addressKey address = addressKey entry.address

/-- All stored messages that a poll may claim, in the order in which they were enqueued. -/
def scan (state : MailboxState) (shards : List String) (now : ℚ)
    (addresses : Option (List EntityAddress)) : List MessageMeta :=
  ((state.messages.entries.map Prod.snd).filter fun entry =>
    isSelected shards addresses entry &&
      isEligible now entry (state.readState entry.requestId)).mergeSort
    fun left right => state.polling.order.stampOf left.id ≤ state.polling.order.stampOf right.id

def truncate {α : Type} : Option Nat → List α → List α
  | none, elements => elements
  | some bound, elements => elements.take bound

def firstMessages (state : MailboxState) (shards : List String) (now : ℚ)
    (addresses : Option (List EntityAddress)) (limit : Option ℚ) : List MessageMeta :=
  truncate (limit.map fun limit => ⌊limit⌋.toNat) (state.scan shards now addresses)

/-! ## Rows and metadata -/

theorem Indexed.hasRow_iff {state : MailboxState} (h : state.Indexed) (space : PollingIndex)
    (row : ReadyRow) : state.polling.order.HasRow space row ↔
      ∃ entry, state.messages.get? row.id = some entry ∧ entry.polling = .ready ∧
        space ∈ pollingIndexes entry ∧
        state.polling.order.orders.get? row.id = some row.stamp := by
  cases hentry : state.messages.get? row.id with
  | none =>
      constructor
      · intro hrow
        exact absurd hrow ((h.untracked _ hentry).ready space row rfl)
      · rintro ⟨entry, ⟨⟩, -⟩
  | some entry =>
      have hid := h.keyed _ _ hentry
      rw [(h.tracked _ _ hentry).ready space row hid.symm, hid]
      constructor
      · intro hrow
        exact ⟨entry, rfl, hrow⟩
      · rintro ⟨_, ⟨⟩, hrow⟩
        exact hrow

theorem Indexed.hasTimer_iff {state : MailboxState} (h : state.Indexed) (space : PollingIndex)
    (row : ScheduledRow) : state.polling.HasTimer space row ↔
      ∃ entry, state.messages.get? row.id = some entry ∧ entry.polling = .timer row.time ∧
        space ∈ pollingIndexes entry := by
  cases hentry : state.messages.get? row.id with
  | none =>
      constructor
      · intro hrow
        exact absurd hrow ((h.untracked _ hentry).scheduled space row rfl)
      · rintro ⟨entry, ⟨⟩, -⟩
  | some entry =>
      have hid := h.keyed _ _ hentry
      rw [(h.tracked _ _ hentry).scheduled space row hid.symm]
      constructor
      · intro hrow
        exact ⟨entry, rfl, hrow⟩
      · rintro ⟨_, ⟨⟩, hrow⟩
        exact hrow

theorem Indexed.setPollings {change : MessageMeta → MessageMeta}
    {polling : MessageMeta → Polling}
    (hchange : ∀ entry, SameIdentity entry (change entry) ∧
      (change entry).polling = entry.polling)
    {entries : List MessageMeta} {state : MailboxState} (h : state.Indexed)
    (hnodup : (entries.map MessageMeta.id).Nodup)
    (hstored : ∀ entry ∈ entries, state.messages.get? entry.id = some entry) :
    ∃ next, entries.foldlM (fun state entry => state.setPolling (change entry) (polling entry))
        state = .ok next ∧
      next.Indexed ∧ Rewritten state next ∧
      (∀ entry ∈ entries, next.messages.get? entry.id =
        some { change entry with polling := polling entry }) ∧
      (∀ id, id ∉ entries.map MessageMeta.id →
        next.messages.get? id = state.messages.get? id) ∧
      ∀ indexes rest, (∀ entry ∈ entries, polling entry ≠ .ready ∧ entry.id ∉ rest) →
        Undisturbed indexes rest state.polling.order next.polling.order := by
  induction entries generalizing state with
  | nil =>
      refine ⟨state, rfl, h, .refl state, ?_, fun _ _ => rfl, ?_⟩
      · intro entry hentry
        exact absurd hentry List.not_mem_nil
      · intro indexes rest _
        exact .refl _ _ _
  | cons entry entries ih =>
      obtain ⟨hfresh, hnodup⟩ := List.nodup_cons.mp hnodup
      obtain ⟨hsame, hpolling⟩ := hchange entry
      have hold := hstored entry List.mem_cons_self
      rw [← hsame.id] at hold
      obtain ⟨middle, hset, hmiddle, hrewritten, hmessages, hreordered⟩ :=
        h.setPolling hold hsame hpolling (polling entry)
      have hother (id : Snowflake) (hid : id ≠ entry.id) :
          middle.messages.get? id = state.messages.get? id := by
        rw [hmessages, hsame.id]
        exact OrderedMap.get?_set_of_ne _ _ hid
      have hne (other : MessageMeta) (hmem : other ∈ entries) : other.id ≠ entry.id := by
        intro hid
        exact hfresh (hid ▸ List.mem_map_of_mem hmem)
      obtain ⟨next, hfold, hnext, hrewritten', hentries, hothers, hundisturbed⟩ :=
        ih hmiddle hnodup fun other hmem => by
          rw [hother other.id (hne other hmem)]
          exact hstored other (List.mem_cons_of_mem _ hmem)
      refine ⟨next, bind_eq_ok.mpr ⟨middle, hset, hfold⟩, hnext, hrewritten.trans hrewritten',
        ?_, ?_, ?_⟩
      · intro other hmem
        rcases List.mem_cons.mp hmem with rfl | hmem
        · rw [hothers _ hfresh, hmessages, ← hsame.id]
          exact OrderedMap.get?_set_self _ _ _
        · exact hentries other hmem
      · intro id hid
        rw [List.map_cons, List.mem_cons, not_or] at hid
        rw [hothers id hid.2, hother id hid.1]
      · intro indexes rest hentry
        obtain ⟨hready, hrest⟩ := hentry entry List.mem_cons_self
        rw [← hsame.id] at hrest
        refine (hreordered.undisturbed hready indexes hrest).trans (hundisturbed indexes rest ?_)
        intro other hmem
        exact hentry other (List.mem_cons_of_mem _ hmem)

/-! ## Due timers -/

structure Promoted (state next : MailboxState) : Prop where
  indexed : next.Indexed
  rewritten : Rewritten state next
  messages : ∀ id old, state.messages.get? id = some old →
    next.messages.get? id = some old ∨
      (∃ time, old.polling = .timer time) ∧
        next.messages.get? id = some { old with polling := .ready }

theorem Promoted.refl {state : MailboxState} (h : state.Indexed) : Promoted state state :=
  ⟨h, .refl state, fun _ _ hold => .inl hold⟩

theorem Promoted.trans {state middle next : MailboxState} (h : Promoted state middle)
    (h' : Promoted middle next) : Promoted state next where
  indexed := h'.indexed
  rewritten := h.rewritten.trans h'.rewritten
  messages := by
    intro id old hold
    rcases h.messages id old hold with hmiddle | ⟨htimer, hmiddle⟩
    · exact h'.messages id old hmiddle
    · rcases h'.messages id _ hmiddle with hnext | ⟨⟨time, htime⟩, -⟩
      · exact .inr ⟨htimer, hnext⟩
      · exact nomatch htime

theorem Promoted.agreed {state next : MailboxState} (h : Promoted state next)
    (hagreed : state.Agreed) : next.Agreed := by
  intro id entry hentry
  rw [h.rewritten.readState]
  obtain ⟨old, hold, -⟩ := h.rewritten.old hentry
  have hagrees := hagreed id old hold
  rcases h.messages id old hold with hnext | ⟨⟨time, htime⟩, hnext⟩
  · rw [hentry, Option.some.injEq] at hnext
    rw [hnext]
    exact hagrees
  · rw [hentry, Option.some.injEq] at hnext
    rw [hnext]
    rcases hagrees with hpolling | ⟨hready, -⟩
    · exact .inr ⟨rfl, time, hpolling.symm.trans htime⟩
    · rw [htime] at hready
      exact nomatch hready

theorem Promoted.timer {state next : MailboxState} (h : Promoted state next) {id : Snowflake}
    {entry : MessageMeta} {time : ℚ} (hentry : next.messages.get? id = some entry)
    (htime : entry.polling = .timer time) : state.messages.get? id = some entry := by
  obtain ⟨old, hold, -⟩ := h.rewritten.old hentry
  rcases h.messages id old hold with hnext | ⟨-, hnext⟩
  · rw [hentry, Option.some.injEq] at hnext
    rw [hnext]
    exact hold
  · rw [hentry, Option.some.injEq] at hnext
    rw [hnext] at htime
    exact nomatch htime

theorem Promoted.hasTimer {state next : MailboxState} (h : Promoted state next)
    (hindexed : state.Indexed) {space : PollingIndex} {row : ScheduledRow}
    (hrow : next.polling.HasTimer space row) : state.polling.HasTimer space row := by
  obtain ⟨entry, hentry, htime, hspace⟩ := (h.indexed.hasTimer_iff space row).mp hrow
  exact (hindexed.hasTimer_iff space row).mpr ⟨entry, h.timer hentry htime, htime, hspace⟩

theorem Indexed.map_id {state : MailboxState} (h : state.Indexed) {rows : List ScheduledRow}
    (hrows : ∀ row ∈ rows, (state.messages.get? row.id).isSome) :
    (rows.filterMap fun row => state.messages.get? row.id).map MessageMeta.id =
      rows.map ScheduledRow.id := by
  induction rows with
  | nil => rfl
  | cons row rows ih =>
      obtain ⟨entry, hentry⟩ := Option.isSome_iff_exists.mp (hrows row List.mem_cons_self)
      have hrest := ih fun other hother => hrows other (List.mem_cons_of_mem _ hother)
      rw [List.filterMap_cons, hentry]
      rw [List.map_cons, List.map_cons, h.keyed _ _ hentry, hrest]

theorem Indexed.promotePage {state : MailboxState} (h : state.Indexed) {index : PollingIndex}
    {page : List ScheduledRow} (hnodup : page.Nodup)
    (hrows : ∀ row ∈ page, state.polling.HasTimer index row) :
    ∃ next, MailboxState.promotePage page state = .ok (next, true) ∧ Promoted state next ∧
      ∀ row, next.polling.HasTimer index row ↔
        state.polling.HasTimer index row ∧ row ∉ page := by
  have hentry (row : ScheduledRow) (hrow : row ∈ page) :=
    (h.hasTimer_iff index row).mp (hrows row hrow)
  -- A message has one row in the index.
  have hrow_eq (row row' : ScheduledRow) (hrow : state.polling.HasTimer index row)
      (hrow' : state.polling.HasTimer index row') (hid : row.id = row'.id) : row = row' := by
    obtain ⟨entry, hentry, htime, -⟩ := (h.hasTimer_iff index row).mp hrow
    obtain ⟨entry', hentry', htime', -⟩ := (h.hasTimer_iff index row').mp hrow'
    rw [hid, hentry', Option.some.injEq] at hentry
    rw [← hentry, htime', Polling.timer.injEq] at htime
    exact congrArg toLex (Prod.ext htime.symm hid)
  set entries := page.filterMap fun row => state.messages.get? row.id with hentries
  have hids : entries.map MessageMeta.id = page.map ScheduledRow.id := by
    apply h.map_id
    intro row hrow
    obtain ⟨entry, hentry, -⟩ := hentry row hrow
    exact Option.isSome_iff_exists.mpr ⟨entry, hentry⟩
  have hstored (entry : MessageMeta) (hmem : entry ∈ entries) :
      state.messages.get? entry.id = some entry ∧ ∃ time, entry.polling = .timer time := by
    obtain ⟨row, hrow, hget⟩ := List.mem_filterMap.mp hmem
    obtain ⟨found, hfound, htime, -⟩ := hentry row hrow
    rw [hget, Option.some.injEq] at hfound
    rw [h.keyed _ _ hget, hfound]
    exact ⟨hget.trans (congrArg some hfound), row.time, htime⟩
  obtain ⟨next, hfold, hnext, hrewritten, hpromoted, hothers, -⟩ :=
    @Indexed.setPollings (fun entry => entry) (fun _ => .ready) (fun entry => ⟨.refl entry, rfl⟩)
      entries state h (by
        rw [hids]
        apply List.Nodup.map_on _ hnodup
        intro row hrow row' hrow' hid
        exact hrow_eq row row' (hrows row hrow) (hrows row' hrow') hid)
      fun entry hmem => (hstored entry hmem).1
  refine ⟨next, bind_eq_ok.mpr ⟨next, hfold, rfl⟩, ⟨hnext, hrewritten, ?_⟩, ?_⟩
  · intro id old hold
    by_cases hmem : old ∈ entries
    · right
      refine ⟨(hstored old hmem).2, ?_⟩
      rw [← h.keyed id old hold]
      exact hpromoted old hmem
    · left
      rw [hothers]
      · exact hold
      · intro hid
        obtain ⟨entry, hentry, rfl⟩ := List.mem_map.mp hid
        rw [(hstored entry hentry).1, Option.some.injEq] at hold
        exact hmem (hold ▸ hentry)
  · intro row
    rw [hnext.hasTimer_iff, h.hasTimer_iff]
    by_cases hid : row.id ∈ entries.map MessageMeta.id
    · apply iff_of_false
      · rintro ⟨entry, hentry, htime, -⟩
        obtain ⟨old, hold, hsame⟩ := List.mem_map.mp hid
        rw [← hsame, hpromoted old hold, Option.some.injEq] at hentry
        rw [← hentry] at htime
        exact nomatch htime
      · rintro ⟨hrow, hnot⟩
        rw [hids, List.mem_map] at hid
        obtain ⟨row', hrow', hsame⟩ := hid
        have heq := hrow_eq row' row (hrows row' hrow') ((h.hasTimer_iff index row).mpr hrow) hsame
        exact hnot (heq ▸ hrow')
    · rw [hothers _ hid]
      constructor
      · intro hrow
        refine ⟨hrow, fun hpage => hid ?_⟩
        rw [hids]
        exact List.mem_map_of_mem hpage
      · exact And.left

theorem Indexed.promoteDue {state : MailboxState} (h : state.Indexed) (index : PollingIndex)
    (now : ℚ) :
    ∃ next, MailboxState.promoteDue index now state = .ok next ∧ Promoted state next ∧
      ∀ row, next.polling.HasTimer index row → ¬ row.time ≤ now := by
  have hrule := @OrderedMap.visitPages_rule MailboxError MailboxState ScheduledRow Unit _
    (fun state => state.polling.scheduled index) (fun row => row.time ≤ now) pageSize
    MailboxState.promotePage
    (fun next rest => Promoted state next ∧ rest.Nodup ∧
      ∀ row, row ∈ rest ↔ next.polling.HasTimer index row ∧ row.time ≤ now)
    (by decide) ?_ state ?_
  · obtain ⟨next, hvisit, hpromoted, -, hrows⟩ := hrule
    refine ⟨next, hvisit, hpromoted, ?_⟩
    intro row hrow htime
    exact absurd ((hrows row).mpr ⟨hrow, htime⟩) List.not_mem_nil
  · rintro middle page rest ⟨hpromoted, hnodup, hrows⟩
    obtain ⟨hpage, hrest, hdisjoint⟩ := List.nodup_append.mp hnodup
    obtain ⟨next, hvisit, hpromoted', hrows'⟩ := hpromoted.indexed.promotePage hpage
      fun row hrow => ((hrows row).mp (List.mem_append_left rest hrow)).1
    refine ⟨next, hvisit, ⟨hpromoted.trans hpromoted', hrest, ?_⟩, ?_⟩
    · intro row
      rw [hrows' row, and_right_comm, ← hrows row, List.mem_append]
      constructor
      · intro hrow
        exact ⟨.inr hrow, fun hrow' => hdisjoint row hrow' row hrow rfl⟩
      · rintro ⟨hrow | hrow, hnot⟩
        · exact absurd hrow hnot
        · exact hrow
    · intro row _ hafter
      have hiff : next.polling.HasTimer index row ↔ middle.polling.HasTimer index row := by
        rw [hrows' row, and_iff_left_iff_imp]
        intro _ hrow
        exact lt_irrefl _ (hafter row hrow)
      exact Option.ext fun _ => hiff
  · refine ⟨.refl h, (OrderedMap.keysAfter_sorted _ _ _).imp ne_of_lt, ?_⟩
    intro row
    rw [OrderedMap.mem_keysAfter, decide_eq_true_eq, Option.isSome_iff_exists]
    constructor
    · rintro ⟨htime, -, _, hrow⟩
      exact ⟨hrow, htime⟩
    · rintro ⟨hrow, htime⟩
      exact ⟨htime, rfl, (), hrow⟩

theorem Indexed.promoteEach {state : MailboxState} (h : state.Indexed)
    (indexes : List PollingIndex) (now : ℚ) :
    ∃ next, indexes.foldlM (fun state index => MailboxState.promoteDue index now state) state =
        .ok next ∧ Promoted state next ∧
      ∀ index ∈ indexes, ∀ row, next.polling.HasTimer index row → ¬ row.time ≤ now := by
  induction indexes generalizing state with
  | nil =>
      refine ⟨state, rfl, .refl h, ?_⟩
      intro index hindex
      exact absurd hindex List.not_mem_nil
  | cons index indexes ih =>
      obtain ⟨middle, hfirst, hmiddle, hdue⟩ := h.promoteDue index now
      obtain ⟨next, hrest, hnext, hdue'⟩ := ih hmiddle.indexed
      refine ⟨next, bind_eq_ok.mpr ⟨middle, hfirst, hrest⟩, hmiddle.trans hnext, ?_⟩
      intro other hother row hrow
      rcases List.mem_cons.mp hother with rfl | hother
      · exact hdue row (hnext.hasTimer hmiddle.indexed hrow)
      · exact hdue' other hother row hrow

/-! ## Claims -/

theorem truncate_append {α : Type} {limit : Option Nat} {front : List α} (back : List α)
    (h : ∀ bound ∈ limit, front.length ≤ bound) :
    truncate limit (front ++ back) =
      front ++ truncate (limit.map (· - front.length)) back := by
  cases limit with
  | none => rfl
  | some bound =>
      have hfront := List.take_of_length_le (h bound rfl)
      simp only [truncate, Option.map_some, List.take_append, hfront]

theorem truncate_of_length {α : Type} {limit : Option Nat} {elements : List α}
    (h : ∀ bound ∈ limit, elements.length ≤ bound) : truncate limit elements = elements := by
  cases limit with
  | none => rfl
  | some bound => exact List.take_of_length_le (h bound rfl)

theorem truncate_sublist {α : Type} (limit : Option Nat) (elements : List α) :
    (truncate limit elements).Sublist elements := by
  cases limit with
  | none => exact .refl elements
  | some bound => exact List.take_sublist bound elements

theorem truncate_map {α β : Type} (limit : Option Nat) (f : α → β) (elements : List α) :
    truncate limit (elements.map f) = (truncate limit elements).map f := by
  cases limit with
  | none => rfl
  | some bound => exact List.map_take.symm

theorem takeLimit_eq {α : Type} {limit : Option Nat} {selected elements : List α}
    (h : ∀ bound ∈ limit, selected.length < bound) :
    takeLimit limit selected elements = truncate limit (selected ++ elements) := by
  induction elements generalizing selected with
  | nil =>
      rw [takeLimit, List.append_nil, truncate_of_length]
      intro bound hbound
      exact (h bound hbound).le
  | cons element elements ih =>
      unfold takeLimit
      dsimp only
      split_ifs with hfull
      · subst hfull
        have hcons : selected ++ element :: elements = selected ++ [element] ++ elements := by
          simp
        rw [hcons, truncate, List.take_left]
      · rw [ih, List.append_assoc, List.singleton_append]
        intro bound hbound
        cases hbound
        have hlt := h bound rfl
        rw [Option.some.injEq, List.length_append, List.length_singleton] at hfull
        rw [List.length_append, List.length_singleton]
        omega

theorem isEligible_eq (now : ℚ) (entry : MessageMeta) (requestState : RequestState) :
    isEligible now entry requestState =
      (isCandidate now true entry && isDeliverable entry requestState) := by
  rw [Bool.eq_iff_iff, isEligible, isCandidate, isDeliverable]
  simp only [Bool.and_eq_true, decide_eq_true_eq, Bool.not_true, Bool.false_or, not_lt, not_and,
    Decidable.not_not]
  tauto

def eligible (state : MailboxState) (now : ℚ) (ids : List Snowflake) : List MessageMeta :=
  (ids.filterMap state.messages.get?).filter fun entry =>
    isEligible now entry (state.readState entry.requestId)

theorem eligible_append (state : MailboxState) (now : ℚ) (ids ids' : List Snowflake) :
    state.eligible now (ids ++ ids') = state.eligible now ids ++ state.eligible now ids' := by
  unfold eligible
  rw [List.filterMap_append, List.filter_append]

theorem mem_eligible {state : MailboxState} (h : state.Indexed) {now : ℚ} {ids : List Snowflake}
    {entry : MessageMeta} : entry ∈ state.eligible now ids ↔
      entry.id ∈ ids ∧ state.messages.get? entry.id = some entry ∧
        isEligible now entry (state.readState entry.requestId) = true := by
  unfold eligible
  rw [List.mem_filter, List.mem_filterMap]
  constructor
  · rintro ⟨⟨id, hid, hentry⟩, heligible⟩
    obtain rfl := h.keyed id entry hentry
    exact ⟨hid, hentry, heligible⟩
  · rintro ⟨hid, hentry, heligible⟩
    exact ⟨⟨entry.id, hid, hentry⟩, heligible⟩

theorem eligible_ids {state : MailboxState} (h : state.Indexed) (now : ℚ)
    (ids : List Snowflake) : ((state.eligible now ids).map MessageMeta.id).Sublist ids := by
  induction ids with
  | nil => exact .refl []
  | cons id ids ih =>
      have hcons := eligible_append state now [id] ids
      rw [List.singleton_append] at hcons
      rw [hcons, List.map_append]
      have hhead : ((state.eligible now [id]).map MessageMeta.id).Sublist [id] := by
        unfold eligible
        cases hentry : state.messages.get? id with
        | none => simp [hentry]
        | some entry =>
            rw [List.filterMap_cons_some hentry, List.filterMap_nil]
            refine (List.filter_sublist.map MessageMeta.id).trans ?_
            rw [List.map_singleton, h.keyed id entry hentry]
      exact hhead.append ih

def claim (now : ℚ) (requestState : RequestState) (entry : MessageMeta) : MessageMeta :=
  { entry with
    claimedAt := some now
    polling := pollingState { entry with claimedAt := some now } requestState }

theorem claim_polling {now : ℚ} {entry : MessageMeta} {requestState : RequestState}
    (h : isEligible now entry requestState = true) :
    ∃ time, (claim now requestState entry).polling = .timer time := by
  unfold isEligible at h
  simp only [decide_eq_true_eq, Bool.not_eq_true'] at h
  obtain ⟨hprocessed, hexit, hunacked, hack, -⟩ := h
  unfold claim pollingState
  dsimp only
  rw [if_neg]
  · cases entry.deliverAt with
    | none => exact ⟨_, rfl⟩
    | some deliverAt => exact ⟨_, rfl⟩
  · rintro (hentry | hentry | hentry | ⟨hkind, hentry⟩)
    · rw [hprocessed] at hentry
      exact nomatch hentry
    · exact hentry hexit
    · exact absurd hentry hunacked.not_gt
    · exact hentry (hack hkind)

theorem Indexed.loadMessages {state : MailboxState} (h : state.Indexed)
    {entries : List MessageMeta}
    (hstored : ∀ entry ∈ entries, state.messages.get? entry.id = some entry) :
    ∃ loaded, entries.mapM (fun entry =>
      state.loadMessage entry (state.readState entry.requestId)) = .ok loaded := by
  induction entries with
  | nil => exact ⟨[], rfl⟩
  | cons entry entries ih =>
      obtain ⟨loaded, hloaded⟩ := ih fun other hother =>
        hstored other (List.mem_cons_of_mem _ hother)
      have henveloped := h.enveloped _ _ (hstored entry List.mem_cons_self)
      obtain ⟨envelope, henvelope⟩ := Option.isSome_iff_exists.mp henveloped
      rw [List.mapM_cons, hloaded]
      unfold loadMessage
      rw [henvelope]
      exact ⟨_, rfl⟩

/-- One batch of a poll claims the eligible messages among its ids, up to the limit. -/
theorem Indexed.readMessages {state : MailboxState} (h : state.Indexed) {ids : List Snowflake}
    (hnodup : ids.Nodup) (now : ℚ) {limit : Option Nat} (hlimit : ∀ bound ∈ limit, 0 < bound) :
    ∃ next loaded, MailboxState.readMessages ids now true limit state = .ok (next, loaded) ∧
      (truncate limit (state.eligible now ids)).mapM (fun entry =>
        state.loadMessage entry (state.readState entry.requestId)) = .ok loaded ∧
      next.Indexed ∧ Rewritten state next ∧
      (∀ entry ∈ truncate limit (state.eligible now ids), next.messages.get? entry.id =
        some (claim now (state.readState entry.requestId) entry)) ∧
      (∀ id, id ∉ (truncate limit (state.eligible now ids)).map MessageMeta.id →
        next.messages.get? id = state.messages.get? id) ∧
      ∀ indexes rest, (∀ id ∈ ids, id ∉ rest) →
        Undisturbed indexes rest state.polling.order next.polling.order := by
  have hselected : takeLimit limit [] (((ids.filterMap state.messages.get?).filter
      (isCandidate now true)).filter fun entry =>
        isDeliverable entry (state.readState entry.requestId)) =
      truncate limit (state.eligible now ids) := by
    rw [takeLimit_eq hlimit, List.nil_append, List.filter_filter, eligible]
    simp only [isEligible_eq, Bool.and_comm]
  have hmem (entry : MessageMeta) (hentry : entry ∈ truncate limit (state.eligible now ids)) :=
    (mem_eligible h).mp ((truncate_sublist _ _).subset hentry)
  obtain ⟨loaded, hloaded⟩ := h.loadMessages fun entry hentry => (hmem entry hentry).2.1
  obtain ⟨next, hclaims, hnext, hrewritten, hclaimed, hothers, hundisturbed⟩ :=
    @Indexed.setPollings (fun entry => { entry with claimedAt := some now })
      (fun entry => (claim now (state.readState entry.requestId) entry).polling)
      (fun entry => ⟨⟨rfl, rfl, rfl, rfl, rfl⟩, rfl⟩) (truncate limit (state.eligible now ids))
      state h
      (((truncate_sublist _ _).map MessageMeta.id).trans (eligible_ids h now ids) |>.nodup hnodup)
      fun entry hentry => (hmem entry hentry).2.1
  refine ⟨next, loaded, ?_, hloaded, hnext, hrewritten, hclaimed, hothers, ?_⟩
  · unfold MailboxState.readMessages
    dsimp only
    rw [hselected]
    exact bind_eq_ok.mpr ⟨loaded, hloaded, bind_eq_ok.mpr ⟨next, hclaims, rfl⟩⟩
  · intro indexes rest hrest
    apply hundisturbed
    intro entry hentry
    obtain ⟨hid, -, heligible⟩ := hmem entry hentry
    obtain ⟨time, htime⟩ := claim_polling heligible
    refine ⟨?_, hrest entry.id hid⟩
    rw [htime]
    exact nofun

/-! ## The poll -/

structure Polled (start : MailboxState) (now : ℚ) (limit : Option Nat) (done : List Snowflake)
    (polled : MailboxState × List LoadedMessage) : Prop where
  indexed : polled.1.Indexed
  rewritten : Rewritten start polled.1
  loaded : (truncate limit (start.eligible now done)).mapM (fun entry =>
    start.loadMessage entry (start.readState entry.requestId)) = .ok polled.2
  claimed : ∀ entry ∈ truncate limit (start.eligible now done),
    polled.1.messages.get? entry.id =
      some (claim now (start.readState entry.requestId) entry)
  others : ∀ id, id ∉ (truncate limit (start.eligible now done)).map MessageMeta.id →
    polled.1.messages.get? id = start.messages.get? id

theorem eligible_congr {state state' : MailboxState} {ids : List Snowflake} (now : ℚ)
    (hmessages : ∀ id ∈ ids, state'.messages.get? id = state.messages.get? id)
    (hstates : ∀ id, state'.readState id = state.readState id) :
    state'.eligible now ids = state.eligible now ids := by
  unfold eligible
  rw [List.filterMap_congr hmessages]
  simp only [hstates]

theorem Rewritten.loadMessage {state next : MailboxState} (h : Rewritten state next)
    (entry : MessageMeta) (requestState : RequestState) :
    next.loadMessage entry requestState = state.loadMessage entry requestState := by
  unfold MailboxState.loadMessage lastReply
  rw [h.others]

/-- A batch goes on from where the poll has been. -/
theorem Polled.claimBatch {start : MailboxState} {now : ℚ} {limit : Option Nat}
    {done batch rest : List Snowflake} {polled : MailboxState × List LoadedMessage}
    (hstart : start.Indexed) (hnodup : (done ++ (batch ++ rest)).Nodup)
    (hlimit : ∀ bound ∈ limit, (start.eligible now done).length < bound)
    (h : Polled start now limit done polled) :
    ∃ next, MailboxState.claimBatch now limit batch polled =
        .ok (next, limit.all ((truncate limit (start.eligible now (done ++ batch))).length < ·)) ∧
      Polled start now limit (done ++ batch) next ∧
      ∀ indexes, Undisturbed indexes rest polled.1.polling.order next.1.polling.order := by
  obtain ⟨state, result⟩ := polled
  obtain ⟨-, hbatch, hfresh⟩ := List.nodup_append.mp hnodup
  obtain ⟨hbatch, -, hrest⟩ := List.nodup_append.mp hbatch
  have hdone : truncate limit (start.eligible now done) = start.eligible now done :=
    truncate_of_length fun bound hbound => (hlimit bound hbound).le
  have hlength := (forall₂_of_mapM h.loaded).length_eq.symm
  rw [hdone] at hlength
  -- The batch has the metadata from which the poll started.
  have hsame : state.eligible now batch = start.eligible now batch := by
    apply eligible_congr now _ h.rewritten.readState
    intro id hid
    apply h.others
    rw [hdone]
    intro hmem
    exact hfresh id ((eligible_ids hstart now done).subset hmem) id
      (List.mem_append_left rest hid) rfl
  have hsplit : truncate limit (start.eligible now (done ++ batch)) =
      start.eligible now done ++
        truncate (limit.map (· - result.length)) (start.eligible now batch) := by
    rw [eligible_append, truncate_append, hlength]
    intro bound hbound
    exact (hlimit bound hbound).le
  obtain ⟨next, loaded, hread, hloaded, hnext, hrewritten, hclaimed, hothers, hundisturbed⟩ :=
    @Indexed.readMessages state h.indexed batch hbatch now (limit.map (· - result.length)) (by
      intro bound hbound
      obtain ⟨total, htotal, rfl⟩ := Option.map_eq_some_iff.mp hbound
      exact Nat.sub_pos_of_lt (hlength ▸ hlimit total htotal))
  rw [hsame] at hloaded hclaimed hothers
  simp only [h.rewritten.loadMessage, h.rewritten.readState] at hloaded hclaimed
  have hall : (truncate limit (start.eligible now (done ++ batch))).mapM (fun entry =>
      start.loadMessage entry (start.readState entry.requestId)) = .ok (result ++ loaded) := by
    have hfirst := h.loaded
    rw [hdone] at hfirst
    rw [hsplit, List.mapM_append, hfirst, hloaded]
    rfl
  have hids (entry : MessageMeta) (hentry : entry ∈ start.eligible now done) :
      entry.id ∉ (truncate (limit.map (· - result.length))
        (start.eligible now batch)).map MessageMeta.id := by
    intro hmem
    have hbatchId := (((truncate_sublist _ _).map _).trans
      (eligible_ids hstart now batch)).subset hmem
    exact hfresh entry.id ((eligible_ids hstart now done).subset (List.mem_map_of_mem hentry))
      entry.id (List.mem_append_left rest hbatchId) rfl
  refine ⟨(next, result ++ loaded), bind_eq_ok.mpr ⟨(next, loaded), hread, ?_⟩,
    ⟨hnext, h.rewritten.trans hrewritten, hall, ?_, ?_⟩, ?_⟩
  · rw [(forall₂_of_mapM hall).length_eq]
  · intro entry hentry
    rw [hsplit] at hentry
    rcases List.mem_append.mp hentry with hentry | hentry
    · rw [hothers entry.id (hids entry hentry)]
      exact h.claimed entry (hdone.symm ▸ hentry)
    · exact hclaimed entry hentry
  · intro id hid
    rw [hsplit, List.map_append, List.mem_append, not_or] at hid
    rw [hothers id hid.2]
    apply h.others
    rw [hdone]
    exact hid.1
  · intro indexes
    apply hundisturbed
    intro id hid hmem
    exact hrest id hid id hmem rfl

theorem Indexed.observe {state : MailboxState} (h : state.Indexed) {row : ReadyRow}
    (hrow : state.polling.order.orders.get? row.id = some row.stamp) :
    Indexed { state with polling := { state.polling with order := { state.polling.order with
      committed := state.polling.order.committed.set row.id row.stamp } } } where
  consistent := by
    constructor
    case pending => exact h.consistent.pending
    case users => exact h.consistent.users
    case tail => exact h.consistent.tail
    case pendingOrders => exact h.consistent.pendingOrders
    case committedOrders =>
      intro id stamp hcommitted
      dsimp only at hcommitted
      rw [OrderedMap.get?_set] at hcommitted
      split_ifs at hcommitted with hid
      · cases hcommitted
        rw [hid]
        exact hrow
      · exact h.consistent.committedOrders id stamp hcommitted
    case orders => exact h.consistent.orders
    case stamps => exact h.consistent.stamps
  keyed := h.keyed
  tracked := fun id entry hentry => ⟨(h.tracked id entry hentry).pending,
    (h.tracked id entry hentry).ready, (h.tracked id entry hentry).scheduled⟩
  ordered := h.ordered
  enveloped := h.enveloped
  untracked := fun id hnone => ⟨(h.untracked id hnone).orders, (h.untracked id hnone).ready,
    (h.untracked id hnone).scheduled⟩

theorem Rewritten.setOrder {state next : MailboxState} (h : Rewritten state next)
    {order : OrderStore PollingIndex} (hversion : order.readVersion = next.polling.order.readVersion)
    (horders : order.orders = next.polling.order.orders) :
    Rewritten state { next with polling := { next.polling with order } } where
  others := by
    conv_lhs => rw [h.others]
  readVersion := hversion.trans h.readVersion
  orders := horders.trans h.orders
  messages := h.messages

/-- The rule of a poll: it knows which ids of the merge are done. -/
theorem pollRule {start : MailboxState} (hstart : start.Indexed) {indexes : List PollingIndex}
    (hnodup : (mergedIds start.polling.order indexes).Nodup) (now : ℚ) (limit : Option Nat) :
    VisitRule pollOrder setPollOrder indexes (MailboxState.claimBatch now limit)
      (fun row => start.polling.order.orders.get? row.id = some row.stamp)
      (fun polled rest => ∃ done, mergedIds start.polling.order indexes = done ++ rest ∧
        (∀ bound ∈ limit, (start.eligible now done).length < bound) ∧
        Polled start now limit done polled)
      (Polled start now limit (mergedIds start.polling.order indexes)) where
  order_setOrder := fun _ _ => rfl
  observe := by
    rintro polled rest row ⟨done, hmerged, hlimit, hpolled⟩ hrow
    refine ⟨done, hmerged, hlimit, ?_⟩
    constructor
    case indexed =>
      apply hpolled.indexed.observe
      rw [hpolled.rewritten.orders]
      exact hrow
    case rewritten => exact hpolled.rewritten.setOrder rfl rfl
    case loaded => exact hpolled.loaded
    case claimed => exact hpolled.claimed
    case others => exact hpolled.others
  visit := by
    rintro polled batch rest - ⟨done, hmerged, hlimit, hpolled⟩
    rw [hmerged] at hnodup
    obtain ⟨next, hclaim, hnext, hundisturbed⟩ := hpolled.claimBatch hstart hnodup hlimit
    refine ⟨next, _, hclaim, hundisturbed indexes, ?_⟩
    split_ifs with hmore
    · refine ⟨done ++ batch, by rw [hmerged, List.append_assoc], ?_, hnext⟩
      intro bound hbound
      cases hbound
      rw [Option.all_some, decide_eq_true_eq, truncate, List.length_take] at hmore
      exact (min_lt_iff.mp hmore).resolve_left (lt_irrefl _)
    · have hsame : truncate limit (start.eligible now (mergedIds start.polling.order indexes)) =
          truncate limit (start.eligible now (done ++ batch)) := by
        cases limit with
        | none => exact absurd rfl hmore
        | some bound =>
            rw [Option.all_some, decide_eq_true_eq, truncate, List.length_take, not_lt,
              le_min_iff] at hmore
            rw [hmerged, ← List.append_assoc, eligible_append, truncate, truncate,
              List.take_append_of_le_length hmore.2]
      exact ⟨hnext.indexed, hnext.rewritten, hsame ▸ hnext.loaded, hsame ▸ hnext.claimed,
        hsame ▸ hnext.others⟩
  finish := by
    rintro polled ⟨done, hmerged, -, hpolled⟩
    rw [List.append_nil] at hmerged
    rw [hmerged]
    exact hpolled

/-! ## The selected indexes -/

theorem mem_selectors {shards : List String} {addresses : Option (List EntityAddress)}
    {entry : MessageMeta} : (∃ space ∈ selectors shards addresses, space ∈ pollingIndexes entry) ↔
      isSelected shards addresses entry = true := by
  unfold selectors isSelected pollingIndexes
  cases addresses with
  | none =>
      simp only [List.mem_map, List.mem_eraseDups, List.mem_cons, List.not_mem_nil, or_false,
        Option.all_none, and_true, decide_eq_true_eq]
      constructor
      · rintro ⟨_, ⟨shard, hshard, rfl⟩, heq | heq⟩
        · cases heq
          exact hshard
        · exact nomatch heq
      · intro hshard
        exact ⟨_, ⟨_, hshard, rfl⟩, .inl rfl⟩
  | some addresses =>
      simp only [List.mem_map, List.mem_filter, List.mem_cons, List.not_mem_nil, or_false,
        Option.all_some, List.any_eq_true, decide_eq_true_eq]
      constructor
      · rintro ⟨_, ⟨address, ⟨haddress, hshard⟩, rfl⟩, heq | heq⟩
        · exact nomatch heq
        · refine ⟨?_, address, haddress, heq⟩
          injection heq with _ _ hsame
          rw [← hsame]
          exact hshard
      · rintro ⟨hshard, address, haddress, heq⟩
        refine ⟨_, ⟨address, ⟨haddress, ?_⟩, rfl⟩, .inr heq⟩
        injection heq with _ _ hsame
        rw [hsame]
        exact hshard

theorem selectors_distinct {shards : List String} {addresses : Option (List EntityAddress)}
    {entry : MessageMeta} {space space' : PollingIndex}
    (hspace : space ∈ selectors shards addresses) (hspace' : space' ∈ selectors shards addresses)
    (hentry : space ∈ pollingIndexes entry) (hentry' : space' ∈ pollingIndexes entry) :
    space = space' := by
  unfold pollingIndexes addressKey at hentry hentry'
  simp only [List.mem_cons, List.not_mem_nil, or_false] at hentry hentry'
  unfold selectors at hspace hspace'
  cases addresses with
  | none =>
      obtain ⟨shard, -, rfl⟩ := List.mem_map.mp hspace
      obtain ⟨shard', -, rfl⟩ := List.mem_map.mp hspace'
      simp_all
  | some addresses =>
      obtain ⟨address, -, rfl⟩ := List.mem_map.mp hspace
      obtain ⟨address', -, rfl⟩ := List.mem_map.mp hspace'
      unfold addressKey at hentry hentry' ⊢
      simp_all

theorem Indexed.distinct {state : MailboxState} (h : state.Indexed) (shards : List String)
    (addresses : Option (List EntityAddress)) :
    Distinct state.polling.order (selectors shards addresses) := by
  intro space hspace space' hspace' row row' hrow hrow' hstamp
  obtain ⟨entry, hentry, -, hindex, horder⟩ := (h.hasRow_iff space row).mp hrow
  obtain ⟨entry', hentry', -, hindex', horder'⟩ := (h.hasRow_iff space' row').mp hrow'
  rw [← hstamp] at horder'
  have hid := h.consistent.stamps _ _ _ horder horder'
  rw [← hid, hentry, Option.some.injEq] at hentry'
  refine ⟨selectors_distinct hspace hspace' hindex (hentry' ▸ hindex'), ?_⟩
  rw [ReadyRow.eq_toLex row, ReadyRow.eq_toLex row', hstamp, hid]

/-! ## Polls and scans -/

theorem Promoted.eligible {state start : MailboxState} (h : Promoted state start)
    (hstate : state.Indexed) (now : ℚ) (ids : List Snowflake) :
    start.eligible now ids = (state.eligible now ids).map fun entry =>
      (start.messages.get? entry.id).getD entry := by
  have hget : start.messages.get? = fun id => (state.messages.get? id).map fun entry =>
      (start.messages.get? entry.id).getD entry := by
    funext id
    cases hold : state.messages.get? id with
    | none =>
        have hnone := h.rewritten.messages id
        rw [hold] at hnone
        generalize start.messages.get? id = found at hnone
        cases hnone
        rfl
    | some old =>
        obtain ⟨entry, hentry, -⟩ := h.rewritten.new hold
        rw [Option.map_some, hstate.keyed id old hold, hentry, Option.getD_some]
  unfold MailboxState.eligible
  rw [show ids.filterMap start.messages.get? = (ids.filterMap state.messages.get?).map fun entry =>
    (start.messages.get? entry.id).getD entry by rw [List.map_filterMap, ← hget],
    List.filter_map]
  congr 1
  apply List.filter_congr
  intro old hold
  obtain ⟨id, -, hold⟩ := List.mem_filterMap.mp hold
  obtain rfl := hstate.keyed id old hold
  rw [Function.comp_apply, h.rewritten.readState]
  rcases h.messages _ old hold with hentry | ⟨-, hentry⟩
  · rw [hentry, Option.getD_some]
  · rw [hentry, Option.getD_some]
    rfl

theorem Agrees.polling {now : ℚ} {entry : MessageMeta} {requestState : RequestState}
    (h : Agrees entry requestState) (heligible : isEligible now entry requestState = true) :
    entry.polling = .ready ∨ ∃ time, entry.polling = .timer time ∧ time ≤ now := by
  unfold isEligible at heligible
  simp only [decide_eq_true_eq, Bool.not_eq_true'] at heligible
  obtain ⟨hprocessed, hexit, hunacked, hack, hdelivery, hclaim⟩ := heligible
  have hclaimed (claimedAt : ℚ) (hentry : entry.claimedAt = some claimedAt) :
      claimedAt + claimExpirationMillis ≤ now := by
    rw [hentry, Option.all_some, decide_eq_true_eq] at hclaim
    linarith only [hclaim]
  have hdelivered (deliverAt : ℚ) (hentry : entry.deliverAt = some deliverAt) :
      deliverAt ≤ now := by
    rw [hentry, Option.all_some, decide_eq_true_eq] at hdelivery
    exact hdelivery
  rcases h with hpolling | ⟨hready, -⟩
  · rw [hpolling]
    unfold pollingState
    rw [if_neg]
    · cases hclaimedAt : entry.claimedAt with
      | some claimedAt =>
          cases hdeliverAt : entry.deliverAt with
          | some deliverAt =>
              exact .inr ⟨_, rfl, max_le (hdelivered _ hdeliverAt) (hclaimed _ hclaimedAt)⟩
          | none => exact .inr ⟨_, rfl, hclaimed _ hclaimedAt⟩
      | none =>
          cases hdeliverAt : entry.deliverAt with
          | some deliverAt => exact .inr ⟨_, rfl, hdelivered _ hdeliverAt⟩
          | none => exact .inl rfl
    · rintro (hentry | hentry | hentry | ⟨hkind, hentry⟩)
      · rw [hprocessed] at hentry
        exact nomatch hentry
      · exact hentry hexit
      · exact absurd hentry hunacked.not_gt
      · exact hentry (hack hkind)
  · exact .inl hready

/-- Once the due timers of the selected indexes are promoted, their merge has all eligible
messages that are selected, and no other ones. -/
theorem Promoted.mem_mergedIds {state start : MailboxState} (h : Promoted state start)
    (hagreed : state.Agreed) {shards : List String} {now : ℚ}
    {addresses : Option (List EntityAddress)}
    (hdue : ∀ index ∈ selectors shards addresses, ∀ row,
      start.polling.HasTimer index row → ¬ row.time ≤ now)
    {id : Snowflake} {old : MessageMeta} (hold : state.messages.get? id = some old)
    (heligible : isEligible now old (state.readState old.requestId) = true) :
    id ∈ mergedIds start.polling.order (selectors shards addresses) ↔
      isSelected shards addresses old = true := by
  rw [h.indexed.consistent.mem_mergedIds, ← mem_selectors]
  obtain ⟨entry, hentry, hsame⟩ := h.rewritten.new hold
  have hindexes : pollingIndexes entry = pollingIndexes old := by
    unfold pollingIndexes
    rw [hsame.address]
  constructor
  · rintro ⟨space, hspace, row, hrow, rfl⟩
    obtain ⟨found, hfound, -, hindex, -⟩ := (h.indexed.hasRow_iff space row).mp hrow
    rw [hentry, Option.some.injEq] at hfound
    exact ⟨space, hspace, hindexes ▸ hfound ▸ hindex⟩
  · rintro ⟨space, hspace, hindex⟩
    rw [← hindexes] at hindex
    have hready : entry.polling = .ready := by
      rcases h.messages id old hold with hstart | ⟨-, hstart⟩
      · rw [hentry, Option.some.injEq] at hstart
        subst hstart
        rcases (hagreed id entry hold).polling heligible with hready | ⟨time, htime, hle⟩
        · exact hready
        · refine absurd hle (hdue space hspace (toLex (time, id)) ?_)
          exact (h.indexed.hasTimer_iff _ _).mpr ⟨entry, hentry, htime, hindex⟩
      · rw [hentry, Option.some.injEq] at hstart
        rw [hstart]
    obtain ⟨stamp, hstamp⟩ := Option.isSome_iff_exists.mp (h.indexed.ordered id entry hentry)
    exact ⟨space, hspace, toLex (stamp, id),
      (h.indexed.hasRow_iff _ _).mpr ⟨entry, hentry, hready, hindex, hstamp⟩, rfl⟩

theorem mem_scan {state : MailboxState} (h : state.Indexed) {shards : List String} {now : ℚ}
    {addresses : Option (List EntityAddress)} {entry : MessageMeta} :
    entry ∈ state.scan shards now addresses ↔
      state.messages.get? entry.id = some entry ∧ isSelected shards addresses entry = true ∧
        isEligible now entry (state.readState entry.requestId) = true := by
  unfold scan
  rw [List.mem_mergeSort, List.mem_filter, List.mem_map, Bool.and_eq_true]
  apply and_congr_left
  intro _
  constructor
  · rintro ⟨⟨id, found⟩, hmem, rfl⟩
    have hentry := OrderedMap.mem_entries.mp hmem
    rw [h.keyed id found hentry]
    exact hentry
  · intro hentry
    exact ⟨(entry.id, entry), OrderedMap.mem_entries.mpr hentry, rfl⟩

theorem scan_sorted {state : MailboxState} (h : state.Indexed) (shards : List String) (now : ℚ)
    (addresses : Option (List EntityAddress)) :
    (state.scan shards now addresses).Pairwise fun left right =>
      state.polling.order.stampOf left.id < state.polling.order.stampOf right.id := by
  have hentries : (state.messages.entries.map Prod.snd).Pairwise fun left right =>
      left.id ≠ right.id := by
    rw [List.pairwise_map]
    refine List.Pairwise.imp_of_mem ?_ state.messages.sorted
    rintro ⟨id, entry⟩ ⟨id', entry'⟩ hmem hmem' hlt
    rw [h.keyed id entry (OrderedMap.mem_entries.mp hmem),
      h.keyed id' entry' (OrderedMap.mem_entries.mp hmem')]
    exact hlt.ne
  have hdistinct : (state.scan shards now addresses).Pairwise fun left right =>
      left.id ≠ right.id :=
    (List.mergeSort_perm _ _).symm.pairwise (hentries.filter _) fun hne => hne.symm
  have hle : (state.scan shards now addresses).Pairwise fun left right =>
      decide (state.polling.order.stampOf left.id ≤ state.polling.order.stampOf right.id) =
        true := by
    apply List.pairwise_mergeSort
    · intro a b c hab hbc
      rw [decide_eq_true_eq] at hab hbc ⊢
      exact hab.trans hbc
    · intro a b
      rw [Bool.or_eq_true, decide_eq_true_eq, decide_eq_true_eq]
      exact le_total _ _
  refine List.Pairwise.imp_of_mem ?_ (hle.and hdistinct)
  rintro left right hleft hright ⟨hle, hne⟩
  refine lt_of_le_of_ne (decide_eq_true_eq.mp hle) ?_
  intro hstamps
  obtain ⟨stamp, hstamp⟩ := h.stamp ((mem_scan h).mp hleft).1
  obtain ⟨stamp', hstamp'⟩ := h.stamp ((mem_scan h).mp hright).1
  rw [OrderStore.stampOf, OrderStore.stampOf, hstamp, hstamp', Option.getD_some,
    Option.getD_some] at hstamps
  exact hne (h.consistent.stamps _ _ stamp hstamp (hstamps ▸ hstamp'))

theorem Promoted.eligible_mergedIds {state start : MailboxState} (h : Promoted state start)
    (hstate : state.Indexed) (hagreed : state.Agreed) {shards : List String} {now : ℚ}
    {addresses : Option (List EntityAddress)}
    (hdue : ∀ index ∈ selectors shards addresses, ∀ row,
      start.polling.HasTimer index row → ¬ row.time ≤ now) :
    state.eligible now (mergedIds start.polling.order (selectors shards addresses)) =
      state.scan shards now addresses := by
  have hrows : ∀ space ∈ selectors shards addresses, ∀ row,
      start.polling.order.HasRow space row →
        start.polling.order.orders.get? row.id = some row.stamp := by
    intro space _ row hrow
    obtain ⟨entry, -, -, -, horder⟩ := (h.indexed.hasRow_iff space row).mp hrow
    exact horder
  have hsorted : (state.eligible now
      (mergedIds start.polling.order (selectors shards addresses))).Pairwise fun left right =>
        state.polling.order.stampOf left.id < state.polling.order.stampOf right.id := by
    have hids := (h.indexed.consistent.mergedIds_sorted (h.indexed.distinct shards addresses)
      hrows).sublist (eligible_ids hstate now _)
    unfold OrderStore.stampOf at hids ⊢
    rw [h.rewritten.orders, List.pairwise_map] at hids
    exact hids
  have hmem (entry : MessageMeta) : entry ∈ state.eligible now
      (mergedIds start.polling.order (selectors shards addresses)) ↔
        entry ∈ state.scan shards now addresses := by
    rw [mem_eligible hstate, mem_scan hstate]
    constructor
    · rintro ⟨hid, hentry, heligible⟩
      exact ⟨hentry, (h.mem_mergedIds hagreed hdue hentry heligible).mp hid, heligible⟩
    · rintro ⟨hentry, hselected, heligible⟩
      exact ⟨(h.mem_mergedIds hagreed hdue hentry heligible).mpr hselected, hentry, heligible⟩
  have hnodup {entries : List MessageMeta} (hentries : entries.Pairwise fun left right =>
      state.polling.order.stampOf left.id < state.polling.order.stampOf right.id) :
      entries.Nodup := by
    refine hentries.imp ?_
    rintro left right hlt rfl
    exact lt_irrefl _ hlt
  have hscan := scan_sorted hstate shards now addresses
  have hperm := (List.perm_ext_iff_of_nodup (hnodup hsorted) (hnodup hscan)).mpr hmem
  exact hperm.eq_of_pairwise (fun _ _ _ _ hlt hgt => absurd hlt hgt.not_gt) hsorted hscan

theorem Polled.agreed {start : MailboxState} {now : ℚ} {limit : Option Nat}
    {done : List Snowflake} {polled : MailboxState × List LoadedMessage}
    (h : Polled start now limit done polled) (hagreed : start.Agreed) : polled.1.Agreed := by
  intro id entry hentry
  rw [h.rewritten.readState]
  by_cases hid : id ∈ (truncate limit (start.eligible now done)).map MessageMeta.id
  · obtain ⟨old, hold, rfl⟩ := List.mem_map.mp hid
    rw [h.claimed old hold, Option.some.injEq] at hentry
    rw [← hentry]
    exact .inl rfl
  · rw [h.others id hid] at hentry
    exact hagreed id entry hentry

theorem Polled.messages {state start : MailboxState} {now : ℚ} {limit : Option Nat}
    {done : List Snowflake} {polled : MailboxState × List LoadedMessage}
    (h : Polled start now limit done polled) (hpromoted : Promoted state start)
    (hstate : state.Indexed) {id : Snowflake} {old : MessageMeta}
    (hold : state.messages.get? id = some old) :
    ∃ polling, polled.1.messages.get? id = some { old with
      claimedAt :=
        if old ∈ truncate limit (state.eligible now done) then some now else old.claimedAt
      polling } := by
  have heligible := hpromoted.eligible hstate now done
  obtain rfl := hstate.keyed id old hold
  obtain ⟨entry, hentry, -⟩ := hpromoted.rewritten.new hold
  have hsame : ∃ polling, entry = { old with polling } := by
    rcases hpromoted.messages _ old hold with hstart | ⟨-, hstart⟩
    · rw [hentry, Option.some.injEq] at hstart
      exact ⟨old.polling, hstart⟩
    · rw [hentry, Option.some.injEq] at hstart
      exact ⟨.ready, hstart⟩
  obtain ⟨polling, rfl⟩ := hsame
  split_ifs with hmem
  · have hclaimed := h.claimed { old with polling } (by
      rw [heligible, truncate_map, List.mem_map]
      refine ⟨old, hmem, ?_⟩
      rw [hentry, Option.getD_some])
    exact ⟨_, hclaimed⟩
  · rw [h.others, hentry]
    · exact ⟨polling, rfl⟩
    · intro hids
      rw [heligible, truncate_map, List.map_map, List.mem_map] at hids
      obtain ⟨other, hother, hsame⟩ := hids
      have hstored := ((mem_eligible hstate).mp ((truncate_sublist _ _).subset hother)).2.1
      have hotherId : other.id = old.id := by
        rw [← hsame, Function.comp_apply]
        obtain ⟨new, hnew, hidentity⟩ := hpromoted.rewritten.new hstored
        rw [hnew, Option.getD_some, hidentity.id]
      rw [hotherId, hold, Option.some.injEq] at hstored
      exact hmem (hstored ▸ hother)

theorem Polled.loads {state start : MailboxState} {now : ℚ} {limit : Option Nat}
    {done : List Snowflake} {polled : MailboxState × List LoadedMessage}
    (h : Polled start now limit done polled) (hpromoted : Promoted state start)
    (hstate : state.Indexed) :
    (truncate limit (state.eligible now done)).mapM (fun entry =>
      state.loadMessage entry (state.readState entry.requestId)) = .ok polled.2 := by
  rw [← h.loaded, hpromoted.eligible hstate, truncate_map, List.mapM_map]
  apply mapM_congr
  intro old hmem
  have hold := ((mem_eligible hstate).mp ((truncate_sublist _ _).subset hmem)).2.1
  rw [Function.comp_apply, hpromoted.rewritten.loadMessage, hpromoted.rewritten.readState]
  rcases hpromoted.messages _ old hold with hstart | ⟨-, hstart⟩
  · rw [hstart, Option.getD_some]
  · rw [hstart, Option.getD_some]
    rfl

theorem firstMessages_nodup {state : MailboxState} (h : state.Indexed) (shards : List String)
    (now : ℚ) (addresses : Option (List EntityAddress)) (limit : Option ℚ) :
    ((state.firstMessages shards now addresses limit).map MessageMeta.id).Nodup := by
  refine List.Pairwise.sublist ((truncate_sublist _ _).map MessageMeta.id) ?_
  rw [List.pairwise_map]
  refine (scan_sorted h shards now addresses).imp ?_
  intro left right hlt hid
  rw [hid] at hlt
  exact lt_irrefl _ hlt

/-- The two passes of a poll with a limit: timers that are due are promoted, and the indexes
are visited. -/
theorem Indexed.visitPoll {state : MailboxState} (h : state.Indexed) (shards : List String)
    (now : ℚ) (addresses : Option (List EntityAddress)) {bound : Option Nat}
    (hzero : bound ≠ some 0) :
    ∃ start polled, (selectors shards addresses).foldlM
        (fun state index => MailboxState.promoteDue index now state) state = .ok start ∧
      visitMessageOrder pollOrder setPollOrder (selectors shards addresses)
        (claimBatch now bound) (start, []) = .ok polled ∧
      Promoted state start ∧
      (∀ space ∈ selectors shards addresses, ∀ row, start.polling.HasTimer space row →
        ¬ row.time ≤ now) ∧
      Polled start now bound (mergedIds start.polling.order (selectors shards addresses))
        polled := by
  obtain ⟨start, hpromote, hpromoted, hdue⟩ := h.promoteEach (selectors shards addresses) now
  have hstart := hpromoted.indexed
  have hrows : ∀ space ∈ selectors shards addresses, ∀ row,
      start.polling.order.HasRow space row →
        start.polling.order.orders.get? row.id = some row.stamp := by
    intro space _ row hrow
    obtain ⟨entry, -, -, -, horder⟩ := (hstart.hasRow_iff space row).mp hrow
    exact horder
  have hdistinct := hstart.distinct shards addresses
  have hids : (mergedIds start.polling.order (selectors shards addresses)).Nodup := by
    refine (hstart.consistent.mergedIds_sorted hdistinct hrows).imp ?_
    rintro left right hlt rfl
    exact lt_irrefl _ hlt
  have hbegin : Polled start now bound [] (start, []) := by
    have hnone : truncate bound (start.eligible now []) = [] :=
      List.sublist_nil.mp (truncate_sublist bound _)
    refine ⟨hstart, .refl start, ?_, ?_, fun _ _ => rfl⟩
    · rw [hnone]
      rfl
    · rw [hnone]
      intro entry hentry
      exact absurd hentry List.not_mem_nil
  have hlimit : ∀ total ∈ bound, (start.eligible now []).length < total := by
    intro total htotal
    apply Nat.pos_of_ne_zero
    rintro rfl
    exact hzero htotal
  have hrule := pollRule hstart hids now bound
  have hbegun : ∃ done, mergedIds start.polling.order (selectors shards addresses) =
      done ++ mergedIds start.polling.order (selectors shards addresses) ∧
      (∀ total ∈ bound, (start.eligible now done).length < total) ∧
      Polled start now bound done (start, []) := ⟨[], rfl, hlimit, hbegin⟩
  obtain ⟨polled, hvisit, hpolled⟩ : ∃ polled, visitMessageOrder pollOrder setPollOrder
      (selectors shards addresses) (claimBatch now bound) (start, []) = .ok polled ∧
        Polled start now bound (mergedIds start.polling.order (selectors shards addresses))
          polled := by
    apply hrule.visitMessageOrder
    · exact hdistinct
    · exact hrows
    · exact hbegun
  exact ⟨start, polled, hpromote, hvisit, hpromoted, hdue, hpolled⟩

theorem Indexed.poll {state : MailboxState} (h : state.Indexed) (hagreed : state.Agreed)
    (shards : List String) (now : ℚ) (addresses : Option (List EntityAddress))
    (limit : Option ℚ) :
    ∃ polled, state.unprocessedMessages shards now addresses limit = .ok polled ∧
      polled.1.Indexed ∧ polled.1.Agreed ∧ Rewritten state polled.1 ∧
      (state.firstMessages shards now addresses limit).mapM (fun entry =>
        state.loadMessage entry (state.readState entry.requestId)) = .ok polled.2 ∧
      ∀ id old, state.messages.get? id = some old →
        ∃ polling, polled.1.messages.get? id = some { old with
          claimedAt :=
            if old ∈ state.firstMessages shards now addresses limit then some now
            else old.claimedAt
          polling } := by
  unfold unprocessedMessages firstMessages
  dsimp only
  generalize limit.map (fun limit => ⌊limit⌋.toNat) = bound
  split_ifs with hzero
  · subst hzero
    refine ⟨(state, []), rfl, h, hagreed, .refl state, rfl, ?_⟩
    intro id old hold
    exact ⟨old.polling, hold⟩
  · obtain ⟨start, polled, hpromote, hvisit, hpromoted, hdue, hpolled⟩ :=
      h.visitPoll shards now addresses hzero
    have hscan := hpromoted.eligible_mergedIds h hagreed hdue
    have hloads := hpolled.loads hpromoted h
    rw [hscan] at hloads
    refine ⟨polled, bind_eq_ok.mpr ⟨start, hpromote, hvisit⟩, hpolled.indexed,
      hpolled.agreed (hpromoted.agreed hagreed), hpromoted.rewritten.trans hpolled.rewritten,
      hloads, ?_⟩
    intro id old hold
    have hmessages := hpolled.messages hpromoted h hold
    rw [hscan] at hmessages
    exact hmessages

theorem Indexed.rewritePoll {state : MailboxState} (h : state.Indexed) (shards : List String)
    (now : ℚ) (addresses : Option (List EntityAddress)) (limit : Option ℚ) :
    ∃ polled, state.unprocessedMessages shards now addresses limit = .ok polled ∧
      polled.1.Indexed ∧ Rewritten state polled.1 := by
  unfold unprocessedMessages
  dsimp only
  split_ifs with hzero
  · exact ⟨(state, []), rfl, h, .refl state⟩
  · obtain ⟨start, polled, hpromote, hvisit, hpromoted, -, hpolled⟩ :=
      h.visitPoll shards now addresses hzero
    exact ⟨polled, bind_eq_ok.mpr ⟨start, hpromote, hvisit⟩, hpolled.indexed,
      hpromoted.rewritten.trans hpolled.rewritten⟩

/-- A poll returns the first messages of a scan, and claims these and no other ones. -/
theorem unprocessedMessages_eq_scan {state : MailboxState} (h : state.Indexed)
    (hagreed : state.Agreed) (shards : List String) (now : ℚ)
    (addresses : Option (List EntityAddress)) (limit : Option ℚ) :
    ∃ next result, state.unprocessedMessages shards now addresses limit = .ok (next, result) ∧
      (state.firstMessages shards now addresses limit).mapM (fun entry =>
        state.loadMessage entry (state.readState entry.requestId)) = .ok result ∧
      ((state.firstMessages shards now addresses limit).map MessageMeta.id).Nodup ∧
      (∀ id, state.messages.get? id = none → next.messages.get? id = none) ∧
      (∀ id old, state.messages.get? id = some old →
        ∃ polling, next.messages.get? id = some { old with
          claimedAt :=
            if old ∈ state.firstMessages shards now addresses limit then some now
            else old.claimedAt
          polling }) ∧
      next.Indexed ∧ next.Agreed := by
  obtain ⟨polled, hrun, hindexed, hpolled, hrewritten, hloads, hmessages⟩ :=
    h.poll hagreed shards now addresses limit
  refine ⟨polled.1, polled.2, hrun, hloads, firstMessages_nodup h shards now addresses limit, ?_,
    hmessages, hindexed, hpolled⟩
  intro id hnone
  have hrel := hrewritten.messages id
  rw [hnone] at hrel
  generalize polled.1.messages.get? id = found at hrel ⊢
  cases hrel
  rfl

def userAddress (name : String) : EntityAddress where
  shardId := { toString := "default:1" }
  entityType := "user"
  entityId := name

def queuedRequest : MessageMeta where
  id := 1
  requestId := 1
  kind := .request
  address := userAddress "a"
  primaryKey := none
  deliverAt := none
  claimedAt := none
  processed := false
  polling := .blocked

/-- A transaction polls a request that it has enqueued itself. -/
theorem unprocessedMessages_queuedRequest : ∃ state next result,
    (empty 0).enqueue (.request 1 (userAddress "a") "{}") queuedRequest initialState =
      .ok state ∧
    state.unprocessedMessages ["default:1"] 0 none (some 1) = .ok (next, result) ∧
    (state.firstMessages ["default:1"] 0 none (some 1)).mapM (fun entry =>
      state.loadMessage entry (state.readState entry.requestId)) = .ok result ∧
    next.Indexed ∧ next.Agreed := by
  obtain ⟨store, state, henqueue, hstate, hwell, -⟩ := @WellFormed.enqueue (empty 0)
    (wellFormed_empty 0) (.request 1 (userAddress "a") "{}") queuedRequest initialState rfl rfl
  have hagreed : state.Agreed := by
    intro id entry hentry
    rw [hstate, OrderedMap.get?_set] at hentry
    split_ifs at hentry
    · cases hentry
      rw [hstate]
      exact .inl rfl
    · exact nomatch hentry
  obtain ⟨next, result, hpoll, hloads, -, -, -, hnext⟩ :=
    unprocessedMessages_eq_scan hwell.toIndexed hagreed ["default:1"] 0 none (some 1)
  exact ⟨state, next, result, henqueue, hpoll, hloads, hnext⟩

end MailboxState

end FoundationDbEffect.Cluster
