import FoundationDbEffect.Cluster.ReplyStreams
import FoundationDbEffect.Foundation.PageLoop

/-!
# Lookups of messages

A lookup returns those of some messages that are still to be processed, claimed or not, in the
order in which they were enqueued. It reads their metadata in slices, and claims nothing.
-/

namespace FoundationDbEffect.Cluster

open FoundationDbEffect.Foundation

namespace MailboxState

def readSlice (now : ℚ) (read : MailboxState × List (LoadedMessage × OrderStamp))
    (batch : List Snowflake) :
    Except MailboxError (MailboxState × List (LoadedMessage × OrderStamp)) := do
  let (state, loaded) ← readMessages batch now false none read.1
  let stamped ← loaded.mapM fun message => do
    let stamp ← state.polling.order.messageOrder message.envelope.id
    .ok (message, stamp)
  .ok (state, read.2 ++ stamped)

def unprocessedMessagesById (ids : List Snowflake) (now : ℚ) (state : MailboxState) :
    Except MailboxError (MailboxState × List LoadedMessage) := do
  let (state, result) ← (slicesOf pageSize ids.eraseDups).foldlM (readSlice now) (state, [])
  let sorted := result.mergeSort fun left right => left.2 ≤ right.2
  .ok (state, sorted.map Prod.fst)

/-! ## What a lookup returns -/

def isUnprocessed (now : ℚ) (entry : MessageMeta) (requestState : RequestState) : Bool :=
  isCandidate now false entry && isDeliverable entry requestState

/-- Messages in the order in which they were enqueued. -/
def inOrder (state : MailboxState) (entries : List MessageMeta) : List MessageMeta :=
  entries.mergeSort fun left right =>
    state.polling.order.stampOf left.id ≤ state.polling.order.stampOf right.id

def lookup (state : MailboxState) (ids : List Snowflake) (now : ℚ) : List MessageMeta :=
  state.inOrder ((state.messages.entries.map Prod.snd).filter fun entry =>
    entry.id ∈ ids && isUnprocessed now entry (state.readState entry.requestId))

def unprocessed (state : MailboxState) (now : ℚ) (ids : List Snowflake) : List MessageMeta :=
  (ids.filterMap state.messages.get?).filter fun entry =>
    isUnprocessed now entry (state.readState entry.requestId)

variable {state : MailboxState}

theorem mem_unprocessed (h : state.Indexed) {now : ℚ} {ids : List Snowflake}
    {entry : MessageMeta} : entry ∈ state.unprocessed now ids ↔
      entry.id ∈ ids ∧ state.messages.get? entry.id = some entry ∧
        isUnprocessed now entry (state.readState entry.requestId) = true := by
  unfold unprocessed
  rw [List.mem_filter, List.mem_filterMap]
  constructor
  · rintro ⟨⟨id, hid, hentry⟩, hunprocessed⟩
    rw [h.keyed id entry hentry]
    exact ⟨hid, hentry, hunprocessed⟩
  · rintro ⟨hid, hentry, hunprocessed⟩
    exact ⟨⟨entry.id, hid, hentry⟩, hunprocessed⟩

theorem inOrder_sorted (h : state.Indexed) {entries : List MessageMeta}
    (hstored : ∀ entry ∈ entries, state.messages.get? entry.id = some entry)
    (hnodup : (entries.map MessageMeta.id).Nodup) :
    (state.inOrder entries).Pairwise fun left right =>
      state.polling.order.stampOf left.id < state.polling.order.stampOf right.id := by
  have hperm := List.mergeSort_perm entries fun left right =>
    decide (state.polling.order.stampOf left.id ≤ state.polling.order.stampOf right.id)
  have hdistinct : (state.inOrder entries).Pairwise fun left right => left.id ≠ right.id :=
    hperm.symm.pairwise (List.pairwise_map.mp hnodup) fun hne => hne.symm
  have hle : (state.inOrder entries).Pairwise fun left right =>
      decide (state.polling.order.stampOf left.id ≤ state.polling.order.stampOf right.id) =
        true := by
    apply List.pairwise_mergeSort
    · intro a b c hab hbc
      rw [decide_eq_true_eq] at hab hbc ⊢
      exact hab.trans hbc
    · intro a b
      rw [Bool.or_eq_true, decide_eq_true_eq, decide_eq_true_eq]
      exact le_total _ _
  refine List.Pairwise.imp_of_mem ?_ (hle.and hdistinct)
  rintro left right hleft hright ⟨hle, hne⟩
  refine lt_of_le_of_ne (decide_eq_true_eq.mp hle) fun hstamps => ?_
  obtain ⟨stamp, hstamp⟩ := h.stamp (hstored left (hperm.mem_iff.mp hleft))
  obtain ⟨stamp', hstamp'⟩ := h.stamp (hstored right (hperm.mem_iff.mp hright))
  rw [OrderStore.stampOf, OrderStore.stampOf, hstamp, hstamp', Option.getD_some,
    Option.getD_some] at hstamps
  exact hne (h.consistent.stamps _ _ stamp hstamp (hstamps ▸ hstamp'))

theorem unprocessed_ids (h : state.Indexed) (now : ℚ) (ids : List Snowflake) :
    ((state.unprocessed now ids).map MessageMeta.id).Sublist ids := by
  have hids (ids : List Snowflake) :
      ((ids.filterMap state.messages.get?).map MessageMeta.id).Sublist ids := by
    induction ids with
    | nil => exact .refl []
    | cons id ids ih =>
        cases hentry : state.messages.get? id with
        | none =>
            rw [List.filterMap_cons_none hentry]
            exact ih.cons id
        | some entry =>
            rw [List.filterMap_cons_some hentry, List.map_cons, h.keyed id entry hentry]
            exact ih.cons_cons id
  exact (List.filter_sublist.map MessageMeta.id).trans (hids ids)

theorem mem_lookup (h : state.Indexed) {ids : List Snowflake} {now : ℚ} {entry : MessageMeta} :
    entry ∈ state.lookup ids now ↔
      entry.id ∈ ids ∧ state.messages.get? entry.id = some entry ∧
        isUnprocessed now entry (state.readState entry.requestId) = true := by
  unfold lookup inOrder
  rw [List.mem_mergeSort, List.mem_filter, Bool.and_eq_true, decide_eq_true_eq, List.mem_map]
  constructor
  · rintro ⟨⟨⟨id, found⟩, hmem, rfl⟩, hid, hunprocessed⟩
    have hentry := OrderedMap.mem_entries.mp hmem
    rw [← h.keyed id found hentry] at hentry
    exact ⟨hid, hentry, hunprocessed⟩
  · rintro ⟨hid, hentry, hunprocessed⟩
    exact ⟨⟨(entry.id, entry), OrderedMap.mem_entries.mpr hentry, rfl⟩, hid, hunprocessed⟩

theorem lookup_sorted (h : state.Indexed) (ids : List Snowflake) (now : ℚ) :
    (state.lookup ids now).Pairwise fun left right =>
      state.polling.order.stampOf left.id < state.polling.order.stampOf right.id := by
  apply inOrder_sorted h
  · intro entry hentry
    have hmem : entry ∈ state.lookup ids now := List.mem_mergeSort.mpr hentry
    exact ((mem_lookup h).mp hmem).2.1
  · refine (List.Sublist.map MessageMeta.id List.filter_sublist).nodup ?_
    rw [List.map_map, List.nodup_iff_pairwise_ne, List.pairwise_map]
    refine List.Pairwise.imp_of_mem ?_ state.messages.sorted
    rintro ⟨id, entry⟩ ⟨id', entry'⟩ hmem hmem' hlt
    have hid := h.keyed id entry (OrderedMap.mem_entries.mp hmem)
    have hid' := h.keyed id' entry' (OrderedMap.mem_entries.mp hmem')
    dsimp only [Function.comp_apply]
    rw [hid, hid']
    exact hlt.ne

/-- The messages of the ids, in the order of messages, are those of a scan. -/
theorem inOrder_unprocessed (h : state.Indexed) (ids : List Snowflake) (now : ℚ) :
    state.inOrder (state.unprocessed now ids.eraseDups) = state.lookup ids now := by
  have hsorted := inOrder_sorted h
    (fun entry hentry => (@mem_unprocessed _ h now ids.eraseDups entry |>.mp hentry).2.1)
    ((unprocessed_ids h now ids.eraseDups).nodup (nodup_eraseDups ids))
  have hlookup := lookup_sorted h ids now
  have hmem (entry : MessageMeta) : entry ∈ state.inOrder (state.unprocessed now ids.eraseDups) ↔
      entry ∈ state.lookup ids now := by
    rw [inOrder, List.mem_mergeSort, mem_unprocessed h, mem_lookup h, List.mem_eraseDups]
  have hnodup {entries : List MessageMeta} (hentries : entries.Pairwise fun left right =>
      state.polling.order.stampOf left.id < state.polling.order.stampOf right.id) :
      entries.Nodup := by
    refine hentries.imp ?_
    rintro left right hlt rfl
    exact lt_irrefl _ hlt
  have hperm := (List.perm_ext_iff_of_nodup (hnodup hsorted) (hnodup hlookup)).mpr hmem
  exact hperm.eq_of_pairwise (fun _ _ _ _ hlt hgt => absurd hlt hgt.not_gt) hsorted hlookup

/-! ## Slices -/

def Stamped (state : MailboxState) (entry : MessageMeta) (read : LoadedMessage × OrderStamp) :
    Prop :=
  state.loadMessage entry (state.readState entry.requestId) = .ok read.1 ∧
    state.polling.order.stampOf entry.id = read.2

theorem loadMessage_id (hdescribed : state.Described) {entry : MessageMeta}
    (hstored : state.messages.get? entry.id = some entry) {requestState : RequestState}
    {message : LoadedMessage} (hload : state.loadMessage entry requestState = .ok message) :
    message.envelope.id = entry.id := by
  unfold loadMessage at hload
  cases henvelope : state.envelopes.get? entry.id with
  | none =>
      rw [henvelope] at hload
      cases hload
  | some envelope =>
      rw [henvelope] at hload
      cases hload
      obtain ⟨stored, hstored', hdescribes⟩ := hdescribed entry.id envelope henvelope
      obtain rfl := Option.some.inj (hstored.symm.trans hstored')
      exact hdescribes.id.symm

theorem readSlice_eq (h : state.Indexed) (hdescribed : state.Described) (now : ℚ)
    (result : List (LoadedMessage × OrderStamp)) (batch : List Snowflake) :
    ∃ stamped, readSlice now (state, result) batch = .ok (state, result ++ stamped) ∧
      List.Forall₂ state.Stamped (state.unprocessed now batch) stamped := by
  have hmem (entry : MessageMeta) (hentry : entry ∈ state.unprocessed now batch) :=
    ((mem_unprocessed h).mp hentry).2.1
  obtain ⟨loaded, hloaded⟩ := h.loadMessages hmem
  have hread : readMessages batch now false none state = .ok (state, loaded) := by
    have hselected : takeLimit none [] (((batch.filterMap state.messages.get?).filter
        (isCandidate now false)).filter fun entry =>
          isDeliverable entry (state.readState entry.requestId)) =
        state.unprocessed now batch := by
      rw [takeLimit_eq (fun bound hbound => absurd hbound (Option.not_mem_none bound)),
        List.nil_append, List.filter_filter, unprocessed]
      simp only [truncate, isUnprocessed, Bool.and_comm]
    unfold readMessages
    dsimp only
    rw [hselected]
    exact bind_eq_ok.mpr ⟨loaded, hloaded, rfl⟩
  have hstamps : (loaded.mapM fun message => do
      let stamp ← state.polling.order.messageOrder message.envelope.id
      Except.ok (message, stamp)) = Except.ok (ε := MailboxError) (loaded.map fun message =>
        (message, state.polling.order.stampOf message.envelope.id)) := by
    refine (mapM_congr (g := fun message =>
      pure (message, state.polling.order.stampOf message.envelope.id)) ?_).trans List.mapM_pure
    intro message hmessage
    obtain ⟨entry, hentry, hload⟩ := exists_of_mem_mapM hloaded hmessage
    obtain ⟨stamp, hstamp⟩ := h.stamp (hmem entry hentry)
    rw [loadMessage_id hdescribed (hmem entry hentry) hload,
      h.consistent.messageOrder_eq_ok.mpr hstamp, OrderStore.stampOf, hstamp]
    rfl
  refine ⟨_, bind_eq_ok.mpr ⟨_, hread, bind_eq_ok.mpr ⟨_, hstamps, rfl⟩⟩, ?_⟩
  rw [List.forall₂_map_right_iff]
  refine ((List.forall₂_and_left _ _).mpr ⟨hmem, forall₂_of_mapM hloaded⟩).imp ?_
  rintro entry message ⟨hstored, hload⟩
  refine ⟨hload, ?_⟩
  dsimp only
  rw [loadMessage_id hdescribed hstored hload]

theorem readSlices_eq (h : state.Indexed) (hdescribed : state.Described) (now : ℚ)
    (batches : List (List Snowflake)) (result : List (LoadedMessage × OrderStamp)) :
    ∃ stamped, batches.foldlM (readSlice now) (state, result) = .ok (state, result ++ stamped) ∧
      List.Forall₂ state.Stamped (state.unprocessed now batches.flatten) stamped := by
  induction batches generalizing result with
  | nil =>
      refine ⟨[], ?_, .nil⟩
      rw [List.append_nil]
      rfl
  | cons batch batches ih =>
      obtain ⟨first, hfirst, hstamped⟩ := readSlice_eq h hdescribed now result batch
      obtain ⟨rest, hrest, hstamped'⟩ := ih (result ++ first)
      refine ⟨first ++ rest, ?_, ?_⟩
      · rw [← List.append_assoc]
        exact bind_eq_ok.mpr ⟨_, hfirst, hrest⟩
      · rw [List.flatten_cons, unprocessed, List.filterMap_append, List.filter_append]
        exact List.rel_append hstamped hstamped'

theorem sort_stamped {entries : List MessageMeta} {stamped : List (LoadedMessage × OrderStamp)}
    (h : List.Forall₂ state.Stamped entries stamped) :
    List.Forall₂ state.Stamped (state.inOrder entries)
      (stamped.mergeSort fun left right => left.2 ≤ right.2) := by
  obtain ⟨hlength, hpairs⟩ := List.forall₂_iff_zip.mp h
  have hentries : (entries.zip stamped).map Prod.fst = entries :=
    List.map_fst_zip hlength.le
  have hstamped : (entries.zip stamped).map Prod.snd = stamped :=
    List.map_snd_zip hlength.ge
  have hleft : ((entries.zip stamped).mergeSort fun left right => left.2.2 ≤ right.2.2).map
      Prod.fst = state.inOrder entries := by
    rw [inOrder, List.map_mergeSort (s := fun left right =>
      state.polling.order.stampOf left.id ≤ state.polling.order.stampOf right.id), hentries]
    intro left hleft right hright
    rw [(hpairs hleft).2, (hpairs hright).2]
  have hright : ((entries.zip stamped).mergeSort fun left right => left.2.2 ≤ right.2.2).map
      Prod.snd = stamped.mergeSort fun left right => left.2 ≤ right.2 := by
    rw [List.map_mergeSort (s := fun left right => left.2 ≤ right.2), hstamped]
    exact fun _ _ _ _ => rfl
  rw [← hleft, ← hright, List.forall₂_map_left_iff, List.forall₂_map_right_iff, List.forall₂_same]
  intro pair hpair
  exact hpairs (List.mem_mergeSort.mp hpair)

/-- A lookup by id leaves the mailbox as it is, and returns those of the messages that are still
to be processed, each once and in the order in which they were enqueued. -/
theorem unprocessedById_lookup {primaryHash : String → String} (h : Reached primaryHash state)
    (ids : List Snowflake) (now : ℚ) : ∃ result,
      state.unprocessedMessagesById ids now = .ok (state, result) ∧
        (state.lookup ids now).mapM (fun entry =>
          state.loadMessage entry (state.readState entry.requestId)) = .ok result ∧
        (state.lookup ids now).Pairwise (fun left right =>
          state.polling.order.stampOf left.id < state.polling.order.stampOf right.id) ∧
        ∀ entry, entry ∈ state.lookup ids now ↔
          entry.id ∈ ids ∧ state.messages.get? entry.id = some entry ∧
            isUnprocessed now entry (state.readState entry.requestId) = true := by
  have hindexed := h.invariant.1.toIndexed
  obtain ⟨stamped, hread, hstamped⟩ :=
    readSlices_eq hindexed h.described now (slicesOf pageSize ids.eraseDups) []
  rw [flatten_slicesOf (by decide)] at hstamped
  have hsorted := sort_stamped hstamped
  rw [inOrder_unprocessed hindexed] at hsorted
  refine ⟨_, bind_eq_ok.mpr ⟨_, hread, rfl⟩, mapM_of_forall₂ ?_, lookup_sorted hindexed ids now,
    fun entry => mem_lookup hindexed⟩
  rw [List.nil_append, List.forall₂_map_right_iff]
  exact hsorted.imp fun _ _ h => h.1

def twoRequests : Except MailboxError MailboxState := do
  let state ← (empty 0).run id (.saveEnvelope (.request 2 (userAddress "a") "{}") none none)
  state.commit.run id (.saveEnvelope (.request 1 (userAddress "b") "{}") none none)

theorem unprocessedById_lookup_twoRequests : ∃ state, twoRequests = .ok state ∧
    state.polling.order.stampOf 2 < state.polling.order.stampOf 1 ∧ ∃ result,
      state.unprocessedMessagesById [1, 2, 1] 0 = .ok (state, result) ∧
        (state.lookup [1, 2, 1] 0).mapM (fun entry =>
          state.loadMessage entry (state.readState entry.requestId)) = .ok result ∧
        (state.lookup [1, 2, 1] 0).Pairwise (fun left right =>
          state.polling.order.stampOf left.id < state.polling.order.stampOf right.id) ∧
        ∀ entry, entry ∈ state.lookup [1, 2, 1] 0 ↔
          entry.id ∈ [1, 2, 1] ∧ state.messages.get? entry.id = some entry ∧
            isUnprocessed 0 entry (state.readState entry.requestId) = true := by
  obtain ⟨state, hstate, hstamps⟩ := @exists_of_toOption _ _ twoRequests
    (fun state => decide (state.polling.order.stampOf 2 < state.polling.order.stampOf 1))
    (by decide +kernel)
  obtain ⟨saved, hfirst, hsecond⟩ := bind_eq_ok.mp hstate
  exact ⟨state, hstate, decide_eq_true_eq.mp hstamps,
    unprocessedById_lookup (.run _ (.commit (.run _ (.start 0) hfirst)) hsecond) _ 0⟩

end MailboxState

end FoundationDbEffect.Cluster
