import FoundationDbEffect.EventLog.Journal
import Mathlib.Data.List.Lemmas

/-!
# Exactly-once replication to a remote

A call of `withRemoteUncommited` leaves every row of its snapshot acknowledged for its remote,
so its cursor never passes an unacknowledged row, although rows of transactions that commit
after the snapshot raise no conflict. An acknowledgement is read with conflict before an entry
is passed on, so no two transactions pass on the same entry.
-/

namespace FoundationDbEffect.EventLog

open FoundationDbEffect.Foundation

variable {ι ρ : Type} [LinearOrder ι]

/-! ## What mutations change -/

namespace JournalState

def HasRow (state : JournalState ι ρ) (row : OrderRow ι) : Prop :=
  state.inserted.get? row = some ()

def Keyed (state : JournalState ι ρ) : Prop :=
  ∀ id entry, state.entries.get? id = some entry → entry.id = id

theorem Keyed.map_id {state : JournalState ι ρ} (hkeyed : state.Keyed) {ids : List ι}
    {entries : List (Entry ι)} (h : ids.mapM state.entries.get? = some entries) :
    entries.map Entry.id = ids := by
  induction ids generalizing entries with
  | nil => simp_all
  | cons id ids ih =>
      simp only [List.mapM_cons, Option.bind_eq_bind, Option.pure_def, Option.bind_eq_some_iff,
        Option.some.injEq] at h
      obtain ⟨entry, hentry, rest, hrest, rfl⟩ := h
      rw [List.map_cons, hkeyed id entry hentry, ih hrest]

section

variable [DecidableEq ρ]

theorem mem_acks_foldl (version : Nat) (mutations : List (JournalMutation ι ρ))
    (state : JournalState ι ρ) (remote : ρ) (id : ι) :
    (remote, id) ∈ (mutations.foldl (apply version) state).acks ↔
      (remote, id) ∈ state.acks ∨ .ack remote id ∈ mutations := by
  induction mutations generalizing state with
  | nil => simp
  | cons mutation mutations ih =>
      rw [List.foldl_cons, ih]
      cases mutation with
      | ack remote' id' =>
          simp only [apply, Finset.mem_insert, Prod.mk.injEq, List.mem_cons,
            JournalMutation.ack.injEq]
          tauto
      | _ => simp [apply]

theorem hasRow_foldl (version : Nat) (mutations : List (JournalMutation ι ρ))
    (state : JournalState ι ρ) (row : OrderRow ι) :
    (mutations.foldl (apply version) state).HasRow row ↔
      state.HasRow row ∨
        ∃ user id, .appendInserted user id ∈ mutations ∧ row = orderRow version user id := by
  induction mutations generalizing state with
  | nil => simp
  | cons mutation mutations ih =>
      rw [List.foldl_cons, ih]
      cases mutation with
      | appendInserted user id =>
          simp only [HasRow, apply, OrderedMap.get?_set, List.mem_cons,
            JournalMutation.appendInserted.injEq]
          split_ifs with h
          · simp only [true_or, true_iff]
            exact .inr ⟨user, id, .inl ⟨rfl, rfl⟩, h⟩
          · constructor
            · rintro (hrow | ⟨user', id', hmem, hrow⟩)
              · exact .inl hrow
              · exact .inr ⟨user', id', .inr hmem, hrow⟩
            · rintro (hrow | ⟨user', id', ⟨rfl, rfl⟩ | hmem, hrow⟩)
              · exact .inl hrow
              · exact absurd hrow h
              · exact .inr ⟨user', id', hmem, hrow⟩
      | _ => simp [apply, HasRow]

theorem sentAfter_foldl (version : Nat) (mutations : List (JournalMutation ι ρ))
    (state : JournalState ι ρ) {remote : ρ} {cursor : OrderRow ι}
    (h : (mutations.foldl (apply version) state).sentAfter remote = some cursor) :
    state.sentAfter remote = some cursor ∨ .setSentAfter remote cursor ∈ mutations := by
  induction mutations generalizing state with
  | nil => exact .inl h
  | cons mutation mutations ih =>
      rcases ih _ h with hstate | hmem
      · cases mutation with
        | setSentAfter remote' cursor' =>
            simp only [apply, Function.update_apply] at hstate
            split_ifs at hstate with hremote
            · cases hstate
              simp [hremote]
            · exact .inl hstate
        | _ => exact .inl hstate
      · exact .inr (List.mem_cons_of_mem _ hmem)

theorem keyed_foldl (version : Nat) (mutations : List (JournalMutation ι ρ))
    {state : JournalState ι ρ} (h : state.Keyed) :
    (mutations.foldl (apply version) state).Keyed := by
  induction mutations generalizing state with
  | nil => exact h
  | cons mutation mutations ih =>
      apply ih
      cases mutation with
      | putEntry entry =>
          intro id entry' hget
          simp only [apply, OrderedMap.get?_set] at hget
          split_ifs at hget with hid
          · cases hget
            exact hid.symm
          · exact h id entry' hget
      | _ => exact h

end

/-- The state after a number of commits. Rows up to a cursor are acknowledged, and a row that
is still to come has a later version than every cursor. -/
structure Invariant (version : Nat) (state : JournalState ι ρ) : Prop where
  keyed : state.Keyed
  rows : ∀ row, state.HasRow row → rowVersion row ≤ version
  cursor : ∀ remote cursor, state.sentAfter remote = some cursor → rowVersion cursor ≤ version
  covered : ∀ remote cursor, state.sentAfter remote = some cursor →
    ∀ row, state.HasRow row → row ≤ cursor → (remote, rowId row) ∈ state.acks

end JournalState

/-! ## Transactions in progress -/

namespace JournalTransaction

/-- A step that sends nothing, and acknowledges just what it receives. -/
structure Extends (fresh : List (ρ × ι)) (transaction next : JournalTransaction ι ρ) :
    Prop where
  readVersion : next.readVersion = transaction.readVersion
  snapshot : next.snapshot = transaction.snapshot
  outgoing : next.outgoing = transaction.outgoing
  sent : next.sent = transaction.sent
  clock : next.clock = transaction.clock
  received : next.received = transaction.received ++ fresh
  reads : transaction.reads ⊆ next.reads
  acks : ∀ remote id, .ack remote id ∈ next.mutations ↔
    .ack remote id ∈ transaction.mutations ∨ (remote, id) ∈ fresh
  cursors : ∀ remote cursor, .setSentAfter remote cursor ∈ next.mutations →
    .setSentAfter remote cursor ∈ transaction.mutations
  appended : (∀ id, id ∈ transaction.pending ↔
      ∃ user, .appendInserted user id ∈ transaction.mutations) →
    ∀ id, id ∈ next.pending ↔ ∃ user, .appendInserted user id ∈ next.mutations

theorem Extends.refl (transaction : JournalTransaction ι ρ) : Extends [] transaction transaction := by
  constructor <;> simp

theorem Extends.trans {transaction middle next : JournalTransaction ι ρ}
    (h : Extends [] transaction middle) (h' : Extends [] middle next) :
    Extends [] transaction next where
  readVersion := h'.readVersion.trans h.readVersion
  snapshot := h'.snapshot.trans h.snapshot
  outgoing := h'.outgoing.trans h.outgoing
  sent := h'.sent.trans h.sent
  clock := h'.clock.trans h.clock
  received := by rw [h'.received, h.received, List.append_nil]
  reads := h.reads.trans h'.reads
  acks := by
    intro remote id
    rw [h'.acks, h.acks, or_assoc, or_self]
  cursors := fun remote cursor hmem => h.cursors _ _ (h'.cursors remote cursor hmem)
  appended := fun happended => h'.appended (h.appended happended)

theorem Extends.ends {fresh : List (ρ × ι)}
    {transaction next : JournalTransaction ι ρ} (h : Extends fresh transaction next)
    {readVersion : Nat} {snapshot : JournalState ι ρ}
    (hends : transaction.readVersion = readVersion ∧ transaction.snapshot = snapshot) :
    next.readVersion = readVersion ∧ next.snapshot = snapshot :=
  ⟨h.readVersion.trans hends.1, h.snapshot.trans hends.2⟩

theorem extends_insertEntry (isLocal : Bool) (transaction : JournalTransaction ι ρ)
    (entry : Entry ι) : Extends [] transaction (insertEntry isLocal transaction entry) := by
  cases isLocal
  all_goals
    constructor
    case appended =>
      intro happended id
      simp [insertEntry, append, mutateAll, mutate, happended, exists_or]
    all_goals simp [insertEntry, append, mutateAll, mutate]

theorem extends_insert (transaction : JournalTransaction ι ρ) (entries : List (Entry ι))
    (isLocal : Bool) : Extends [] transaction (transaction.insert entries isLocal) := by
  induction entries generalizing transaction with
  | nil => exact .refl transaction
  | cons entry entries ih => exact (extends_insertEntry isLocal transaction entry).trans (ih _)

theorem extends_write (transaction : JournalTransaction ι ρ) (entry : Entry ι) :
    Extends [] transaction (transaction.write entry) := by
  refine (extends_insert transaction [entry] true).trans ?_
  constructor <;> simp [write, mutate]

theorem extends_read (transaction : JournalTransaction ι ρ) (keys : Set (JournalKey ι ρ)) :
    Extends [] transaction (transaction.read keys) := by
  constructor <;> simp [read]

theorem mem_written_ack {transaction : JournalTransaction ι ρ} {remote : ρ} {id : ι} :
    .ack remote id ∈ transaction.written ↔ .ack remote id ∈ transaction.mutations := by
  constructor
  · rintro ⟨mutation, hmem, hkey⟩
    cases mutation <;> simp [JournalMutation.key?] at hkey
    obtain ⟨rfl, rfl⟩ := hkey
    exact hmem
  · intro hmem
    exact ⟨_, hmem, rfl⟩

section

variable [DecidableEq ρ]

theorem mem_view_acks (transaction : JournalTransaction ι ρ) (remote : ρ) (id : ι) :
    (remote, id) ∈ transaction.view.acks ↔
      (remote, id) ∈ transaction.snapshot.acks ∨ .ack remote id ∈ transaction.mutations :=
  JournalState.mem_acks_foldl _ _ _ _ _

/-- The calls, in progress or returned, have passed on only ids that were not acknowledged in
the snapshot, and each of them leaves every row of the snapshot acknowledged. -/
structure Invariant (transaction : JournalTransaction ι ρ) : Prop where
  keyed : transaction.view.Keyed
  acks : ∀ remote id, .ack remote id ∈ transaction.mutations ↔
    (remote, id) ∈ transaction.received ∨
      ∃ call ∈ transaction.sent, call.remote = remote ∧ id ∈ call.ids
  appended : ∀ id, id ∈ transaction.pending ↔
    ∃ user, .appendInserted user id ∈ transaction.mutations
  cursor : ∀ remote cursor, .setSentAfter remote cursor ∈ transaction.mutations →
    rowVersion cursor ≤ transaction.readVersion ∧
      ∀ row, transaction.snapshot.HasRow row → (remote, rowId row) ∈ transaction.view.acks
  outgoingCursor : ∀ call ∈ transaction.outgoing, ∀ cursor ∈ call.cursor,
    rowVersion cursor ≤ transaction.readVersion
  outgoingCovers : ∀ call ∈ transaction.outgoing, ∀ row, transaction.snapshot.HasRow row →
    (call.remote, rowId row) ∈ transaction.view.acks ∨ rowId row ∈ call.ids
  sentCovers : ∀ call ∈ transaction.sent, ∀ row, transaction.snapshot.HasRow row →
    (call.remote, rowId row) ∈ transaction.view.acks
  outgoingFresh : ∀ call ∈ transaction.outgoing, ∀ id ∈ call.ids,
    (call.remote, id) ∉ transaction.snapshot.acks ∧ .ack call.remote id ∈ transaction.reads
  sentFresh : ∀ call ∈ transaction.sent, ∀ id ∈ call.ids,
    (call.remote, id) ∉ transaction.snapshot.acks ∧ .ack call.remote id ∈ transaction.reads
  outgoingBegan : ∀ call ∈ transaction.outgoing, call.began < transaction.clock
  sentReturned : ∀ call ∈ transaction.sent,
    call.began < transaction.clock ∧ call.returned < transaction.clock
  outgoingApart : ∀ earlier ∈ transaction.sent, ∀ call ∈ transaction.outgoing,
    earlier.remote = call.remote → earlier.returned < call.began →
      List.Disjoint earlier.ids call.ids
  sentApart : transaction.sent.Pairwise fun earlier call =>
    earlier.remote = call.remote →
      earlier.returned < call.began ∨ call.returned < earlier.began →
        List.Disjoint earlier.ids call.ids

theorem Invariant.extend {fresh : List (ρ × ι)} {transaction next : JournalTransaction ι ρ}
    (h : transaction.Invariant) (hsnapshot : transaction.snapshot.Keyed)
    (hextends : Extends fresh transaction next) : next.Invariant := by
  have hview (remote : ρ) (id : ι) (hack : (remote, id) ∈ transaction.view.acks) :
      (remote, id) ∈ next.view.acks := by
    rw [mem_view_acks] at hack ⊢
    rw [hextends.snapshot, hextends.acks]
    tauto
  constructor
  case keyed =>
    apply JournalState.keyed_foldl
    rw [hextends.snapshot]
    exact hsnapshot
  case acks =>
    intro remote id
    rw [hextends.acks, h.acks, hextends.received, hextends.sent, List.mem_append,
      or_right_comm]
  case appended => exact hextends.appended h.appended
  case cursor =>
    intro remote cursor hmem
    have hcursor := h.cursor remote cursor (hextends.cursors remote cursor hmem)
    rw [hextends.readVersion, hextends.snapshot]
    exact ⟨hcursor.1, fun row hrow => hview _ _ (hcursor.2 row hrow)⟩
  case outgoingCursor =>
    rw [hextends.outgoing, hextends.readVersion]
    exact h.outgoingCursor
  case outgoingCovers =>
    rw [hextends.outgoing, hextends.snapshot]
    intro call hcall row hrow
    exact (h.outgoingCovers call hcall row hrow).imp_left (hview _ _)
  case sentCovers =>
    rw [hextends.sent, hextends.snapshot]
    intro call hcall row hrow
    exact hview _ _ (h.sentCovers call hcall row hrow)
  case outgoingFresh =>
    rw [hextends.outgoing, hextends.snapshot]
    intro call hcall id hid
    exact (h.outgoingFresh call hcall id hid).imp_right (hextends.reads ·)
  case sentFresh =>
    rw [hextends.sent, hextends.snapshot]
    intro call hcall id hid
    exact (h.sentFresh call hcall id hid).imp_right (hextends.reads ·)
  case outgoingBegan =>
    rw [hextends.outgoing, hextends.clock]
    exact h.outgoingBegan
  case sentReturned =>
    rw [hextends.sent, hextends.clock]
    exact h.sentReturned
  case outgoingApart =>
    rw [hextends.sent, hextends.outgoing]
    exact h.outgoingApart
  case sentApart =>
    rw [hextends.sent]
    exact h.sentApart

theorem extends_replay {order : Entry ι → Entry ι → Ordering} {pageSize : Nat} {entry : Entry ι}
    {transaction next : JournalTransaction ι ρ} {conflicts : List (Entry ι)}
    (h : transaction.replay order pageSize entry = some (next, conflicts)) :
    Extends [] transaction next := by
  obtain ⟨entries, -, heq⟩ := Option.map_eq_some_iff.mp h
  cases heq
  exact (extends_read _ _).trans (extends_read _ _)

theorem extends_finishRemote (transaction : JournalTransaction ι ρ) (incoming : Incoming ι ρ) :
    Extends [] transaction (transaction.finishRemote incoming) := by
  refine (extends_insert transaction (incoming.uncommitted.map RemoteEntry.entry) false).trans ?_
  constructor <;> simp [finishRemote, mutate]

theorem extends_beginRemote (transaction : JournalTransaction ι ρ) (remote : ρ)
    (batch : List (RemoteEntry ι)) :
    Extends (batch.map fun entry => (remote, entry.entry.id)) transaction
      (transaction.beginRemote remote batch) := by
  constructor
  case acks =>
    intro remote' id
    simp only [beginRemote, mutateAll, read, List.mem_append, List.mem_map,
      JournalMutation.ack.injEq, Prod.mk.injEq]
  all_goals simp [beginRemote, mutateAll, read]

theorem Invariant.start {snapshot : JournalState ι ρ} {readVersion : Nat}
    (hsnapshot : snapshot.Keyed) : Invariant { readVersion, snapshot } := by
  constructor
  case keyed => exact hsnapshot
  all_goals simp

/-! ## Starting a call -/

theorem beginUncommited_spec {order : Entry ι → Entry ι → Ordering} {pageSize : Nat} {remote : ρ}
    {transaction next : JournalTransaction ι ρ} (hkeyed : transaction.view.Keyed)
    (h : transaction.beginUncommited order pageSize remote = some next) :
    ∃ call reads, next = { transaction with
        reads, outgoing := transaction.outgoing ++ [call], clock := transaction.clock + 1 } ∧
      call.remote = remote ∧ call.began = transaction.clock ∧
      call.cursor = (transaction.unsent pageSize (transaction.view.sentAfter remote)).2 ∧
      transaction.reads ⊆ reads ∧
      (∀ id, id ∈ call.ids ↔
        id ∈ (transaction.unsent pageSize (transaction.view.sentAfter remote)).1 ∧
          (remote, id) ∉ transaction.view.acks) ∧
      ∀ id ∈ call.ids, .ack remote id ∈ reads := by
  obtain ⟨entries, hentries, rfl⟩ := Option.map_eq_some_iff.mp h
  have hids := hkeyed.map_id hentries
  have hmem (id : ι) : id ∈ (Outgoing.mk remote
        (entries.mergeSort fun left right => (order left right).isLE)
        (transaction.unsent pageSize (transaction.view.sentAfter remote)).2
        transaction.clock).ids ↔
      id ∈ (transaction.unsent pageSize (transaction.view.sentAfter remote)).1 ∧
        (remote, id) ∉ transaction.view.acks := by
    rw [Outgoing.ids, ((List.mergeSort_perm _ _).map _).mem_iff, hids, List.mem_filter,
      decide_eq_true_iff]
    exact Iff.rfl
  refine ⟨_, _, rfl, rfl, rfl, rfl, ?_, hmem, ?_⟩
  · intro key hkey
    exact .inl (.inl hkey)
  · intro id hid
    obtain ⟨hunsent, hack⟩ := (hmem id).mp hid
    refine .inl (.inr ⟨.inr ⟨id, hunsent, rfl⟩, ?_⟩)
    intro hwritten
    exact hack ((mem_view_acks _ _ _).mpr (.inr (mem_written_ack.mp hwritten)))

theorem mem_unsent {transaction : JournalTransaction ι ρ} {pageSize : Nat} (hpage : 0 < pageSize)
    {after : Option (OrderRow ι)} {row : OrderRow ι} (hrow : transaction.view.HasRow row)
    (hversion : rowVersion row ≤ transaction.readVersion) (hafter : after.all (· < row)) :
    rowId row ∈ (transaction.unsent pageSize after).1 := by
  rw [unsent, OrderedMap.scan_eq _ _ hpage]
  refine List.mem_append_left _ (List.mem_map.mpr ⟨(row, ()), ?_, rfl⟩)
  refine OrderedMap.mem_rows.mpr ⟨?_, hrow⟩
  simp [hafter]
  omega

theorem rowVersion_of_unsent {transaction : JournalTransaction ι ρ} {pageSize : Nat}
    (hpage : 0 < pageSize) {after : Option (OrderRow ι)} {cursor : OrderRow ι}
    (h : cursor ∈ (transaction.unsent pageSize after).2) :
    rowVersion cursor ≤ transaction.readVersion := by
  obtain ⟨row, hrow, rfl⟩ := Option.map_eq_some_iff.mp h
  have hmem := List.mem_of_getLast? hrow
  rw [OrderedMap.scan_eq _ _ hpage] at hmem
  have hrange := (OrderedMap.mem_rows.mp hmem).1
  simp only [Bool.and_eq_true, decide_eq_true_eq] at hrange
  omega

theorem Invariant.acks_of_le {transaction : JournalTransaction ι ρ} (h : transaction.Invariant)
    (hsnapshot : transaction.snapshot.Invariant transaction.readVersion) {remote : ρ}
    {after row : OrderRow ι} (hafter : transaction.view.sentAfter remote = some after)
    (hrow : transaction.snapshot.HasRow row) (hle : row ≤ after) :
    (remote, rowId row) ∈ transaction.view.acks := by
  rcases JournalState.sentAfter_foldl _ _ _ hafter with hstate | hmem
  · rw [mem_view_acks]
    exact .inl (hsnapshot.covered remote after hstate row hrow hle)
  · exact (h.cursor remote after hmem).2 row hrow

theorem Invariant.beginUncommited {order : Entry ι → Entry ι → Ordering} {pageSize : Nat}
    (hpage : 0 < pageSize) {remote : ρ} {transaction next : JournalTransaction ι ρ}
    (h : transaction.Invariant)
    (hsnapshot : transaction.snapshot.Invariant transaction.readVersion)
    (hbegin : transaction.beginUncommited order pageSize remote = some next) :
    next.Invariant := by
  obtain ⟨call, reads, rfl, rfl, hbegan, hcursor, hreads, hids, hread⟩ :=
    beginUncommited_spec h.keyed hbegin
  have hview (id : ι) (hid : id ∈ call.ids) : (call.remote, id) ∉ transaction.view.acks :=
    ((hids id).mp hid).2
  have hcovers (row : OrderRow ι) (hrow : transaction.snapshot.HasRow row) :
      (call.remote, rowId row) ∈ transaction.view.acks ∨ rowId row ∈ call.ids := by
    by_cases hack : (call.remote, rowId row) ∈ transaction.view.acks
    · exact .inl hack
    · refine .inr ((hids _).mpr ⟨mem_unsent hpage ?_ (hsnapshot.rows row hrow) ?_, hack⟩)
      · exact (JournalState.hasRow_foldl _ _ _ _).mpr (.inl hrow)
      · rw [Option.all_eq_true]
        intro after hafter
        simp only [decide_eq_true_eq]
        by_contra hle
        exact hack (h.acks_of_le hsnapshot hafter hrow (not_lt.mp hle))
  constructor
  case keyed => exact h.keyed
  case acks => exact h.acks
  case appended => exact h.appended
  case cursor => exact h.cursor
  case sentCovers => exact h.sentCovers
  case sentApart => exact h.sentApart
  case outgoingCursor =>
    intro call' hcall cursor hmem
    rcases List.mem_append.mp hcall with hcall | hcall
    · exact h.outgoingCursor call' hcall cursor hmem
    · rw [List.mem_singleton.mp hcall, hcursor] at hmem
      exact rowVersion_of_unsent hpage hmem
  case outgoingCovers =>
    intro call' hcall row hrow
    rcases List.mem_append.mp hcall with hcall | hcall
    · exact h.outgoingCovers call' hcall row hrow
    · rw [List.mem_singleton.mp hcall]
      exact hcovers row hrow
  case outgoingFresh =>
    intro call' hcall id hid
    rcases List.mem_append.mp hcall with hcall | hcall
    · exact (h.outgoingFresh call' hcall id hid).imp_right (hreads ·)
    · rw [List.mem_singleton.mp hcall] at hid ⊢
      refine ⟨?_, hread id hid⟩
      intro hack
      exact hview id hid ((mem_view_acks _ _ _).mpr (.inl hack))
  case sentFresh =>
    intro call' hcall id hid
    exact (h.sentFresh call' hcall id hid).imp_right (hreads ·)
  case outgoingBegan =>
    intro call' hcall
    rcases List.mem_append.mp hcall with hcall | hcall
    · exact (h.outgoingBegan call' hcall).trans (Nat.lt_succ_self _)
    · rw [List.mem_singleton.mp hcall, hbegan]
      exact Nat.lt_succ_self _
  case sentReturned =>
    intro call' hcall
    have hreturned := h.sentReturned call' hcall
    exact ⟨hreturned.1.trans (Nat.lt_succ_self _), hreturned.2.trans (Nat.lt_succ_self _)⟩
  case outgoingApart =>
    intro earlier hearlier call' hcall hremote hlt
    rcases List.mem_append.mp hcall with hcall | hcall
    · exact h.outgoingApart earlier hearlier call' hcall hremote hlt
    · rw [List.mem_singleton.mp hcall] at hremote ⊢
      intro id hid hid'
      apply hview id hid'
      rw [mem_view_acks, h.acks]
      exact .inr (.inr ⟨earlier, hearlier, hremote, hid⟩)

/-! ## Returning from a call -/

theorem ack_mem_finishUncommited (transaction : JournalTransaction ι ρ) (call : Outgoing ι ρ)
    (remote : ρ) (id : ι) :
    .ack remote id ∈ (transaction.finishUncommited call).mutations ↔
      .ack remote id ∈ transaction.mutations ∨ call.remote = remote ∧ id ∈ call.ids := by
  cases hcursor : call.cursor <;>
    simp [finishUncommited, mutateAll, hcursor, and_comm, eq_comm]

theorem setSentAfter_mem_finishUncommited {transaction : JournalTransaction ι ρ}
    {call : Outgoing ι ρ} {remote : ρ} {cursor : OrderRow ι}
    (h : .setSentAfter remote cursor ∈ (transaction.finishUncommited call).mutations) :
    .setSentAfter remote cursor ∈ transaction.mutations ∨
      call.remote = remote ∧ cursor ∈ call.cursor := by
  cases hcursor : call.cursor <;>
    simp [finishUncommited, mutateAll, hcursor] at h ⊢
  · exact h
  · tauto

theorem Invariant.finishUncommited {transaction : JournalTransaction ι ρ} {call : Outgoing ι ρ}
    (h : transaction.Invariant) (hsnapshot : transaction.snapshot.Keyed)
    (hcall : call ∈ transaction.outgoing) : (transaction.finishUncommited call).Invariant := by
  have hview (remote : ρ) (id : ι) :
      (remote, id) ∈ (transaction.finishUncommited call).view.acks ↔
        (remote, id) ∈ transaction.view.acks ∨ call.remote = remote ∧ id ∈ call.ids := by
    rw [mem_view_acks, mem_view_acks, ack_mem_finishUncommited, or_assoc]
    rfl
  have hcovers (row : OrderRow ι) (hrow : transaction.snapshot.HasRow row) :
      (call.remote, rowId row) ∈ (transaction.finishUncommited call).view.acks := by
    rw [hview]
    exact (h.outgoingCovers call hcall row hrow).imp_right (⟨rfl, ·⟩)
  have hbegan := h.outgoingBegan call hcall
  constructor
  case keyed => exact JournalState.keyed_foldl _ _ hsnapshot
  case acks =>
    intro remote id
    rw [ack_mem_finishUncommited, h.acks]
    simp only [JournalTransaction.finishUncommited, mutateAll, List.mem_append,
      List.mem_singleton, or_and_right, exists_or, exists_eq_left, or_assoc]
  case appended =>
    intro id
    rw [show (transaction.finishUncommited call).pending = transaction.pending from rfl,
      h.appended]
    cases hcursor : call.cursor <;>
      simp [JournalTransaction.finishUncommited, mutateAll, hcursor]
  case cursor =>
    intro remote cursor hmem
    rcases setSentAfter_mem_finishUncommited hmem with hmem | ⟨rfl, hown⟩
    · have hcursor := h.cursor remote cursor hmem
      exact ⟨hcursor.1, fun row hrow => (hview _ _).mpr (.inl (hcursor.2 row hrow))⟩
    · exact ⟨h.outgoingCursor call hcall cursor hown, hcovers⟩
  case outgoingCursor =>
    intro call' hcall'
    exact h.outgoingCursor call' (List.mem_of_mem_erase hcall')
  case outgoingCovers =>
    intro call' hcall' row hrow
    have hold := h.outgoingCovers call' (List.mem_of_mem_erase hcall') row hrow
    exact hold.imp_left fun hack => (hview _ _).mpr (.inl hack)
  case sentCovers =>
    intro call' hcall' row hrow
    rcases List.mem_append.mp hcall' with hcall' | hcall'
    · exact (hview _ _).mpr (.inl (h.sentCovers call' hcall' row hrow))
    · rw [List.mem_singleton.mp hcall']
      exact hcovers row hrow
  case outgoingFresh =>
    intro call' hcall'
    exact h.outgoingFresh call' (List.mem_of_mem_erase hcall')
  case sentFresh =>
    intro call' hcall'
    rcases List.mem_append.mp hcall' with hcall' | hcall'
    · exact h.sentFresh call' hcall'
    · rw [List.mem_singleton.mp hcall']
      exact h.outgoingFresh call hcall
  case outgoingBegan =>
    intro call' hcall'
    exact (h.outgoingBegan call' (List.mem_of_mem_erase hcall')).trans (Nat.lt_succ_self _)
  case sentReturned =>
    intro call' hcall'
    rcases List.mem_append.mp hcall' with hcall' | hcall'
    · have hreturned := h.sentReturned call' hcall'
      exact ⟨hreturned.1.trans (Nat.lt_succ_self _), hreturned.2.trans (Nat.lt_succ_self _)⟩
    · rw [List.mem_singleton.mp hcall']
      exact ⟨hbegan.trans (Nat.lt_succ_self _), Nat.lt_succ_self _⟩
  case outgoingApart =>
    intro earlier hearlier call' hcall' hremote hlt
    have hmem := List.mem_of_mem_erase hcall'
    rcases List.mem_append.mp hearlier with hearlier | hearlier
    · exact h.outgoingApart earlier hearlier call' hmem hremote hlt
    · -- A call that is still running began before this one returned.
      rw [List.mem_singleton.mp hearlier] at hlt
      exact absurd hlt (h.outgoingBegan call' hmem).not_gt
  case sentApart =>
    refine List.pairwise_append.mpr ⟨h.sentApart, List.pairwise_singleton _ _, ?_⟩
    intro earlier hearlier call' hcall' hremote happart
    rw [List.mem_singleton.mp hcall'] at hremote happart ⊢
    rcases happart with hlt | hlt
    · exact h.outgoingApart earlier hearlier call hcall hremote hlt
    · exact absurd hlt (h.sentReturned earlier hearlier).1.not_gt

end

end JournalTransaction

section

variable [DecidableEq ρ]

theorem Journaling.ends {order : Entry ι → Entry ι → Ordering} {readVersion : Nat}
    {snapshot : JournalState ι ρ} {transaction : JournalTransaction ι ρ}
    (h : Journaling order readVersion snapshot transaction) :
    transaction.readVersion = readVersion ∧ transaction.snapshot = snapshot := by
  induction h with
  | start => exact ⟨rfl, rfl⟩
  | write entry _ _ ih => exact (JournalTransaction.extends_write _ entry).ends ih
  | beginRemote remote batch _ ih => exact ih
  | replay _ _ _ _ hreplay ih => exact (JournalTransaction.extends_replay hreplay).ends ih
  | finishRemote incoming _ _ _ ih =>
      exact (JournalTransaction.extends_finishRemote _ incoming).ends ih
  | beginUncommited _ _ _ _ hbegin ih =>
      obtain ⟨_, -, rfl⟩ := Option.map_eq_some_iff.mp hbegin
      exact ih
  | finishUncommited call _ _ ih => exact ih

theorem Journaling.invariant {order : Entry ι → Entry ι → Ordering} {readVersion : Nat}
    {snapshot : JournalState ι ρ} (hsnapshot : snapshot.Invariant readVersion)
    {transaction : JournalTransaction ι ρ}
    (h : Journaling order readVersion snapshot transaction) : transaction.Invariant := by
  have hends {transaction : JournalTransaction ι ρ}
      (h : Journaling order readVersion snapshot transaction) :
      transaction.snapshot.Invariant transaction.readVersion := by
    rw [h.ends.1, h.ends.2]
    exact hsnapshot
  induction h with
  | start => exact .start hsnapshot.keyed
  | write entry h _ ih => exact ih.extend (hends h).keyed (JournalTransaction.extends_write _ _)
  | beginRemote remote batch h ih =>
      exact ih.extend (hends h).keyed (JournalTransaction.extends_beginRemote _ _ _)
  | replay _ _ _ h hreplay ih =>
      exact ih.extend (hends h).keyed (JournalTransaction.extends_replay hreplay)
  | finishRemote incoming h _ _ ih =>
      exact ih.extend (hends h).keyed (JournalTransaction.extends_finishRemote _ _)
  | beginUncommited _ _ hpage h hbegin ih => exact ih.beginUncommited hpage (hends h) hbegin
  | finishUncommited call h hcall ih => exact ih.finishUncommited (hends h).keyed hcall

/-! ## Histories -/

def Received (commit : JournalCommit ι ρ) (remote : ρ) (id : ι) : Prop :=
  (remote, id) ∈ commit.result.received

def Passed (commit : JournalCommit ι ρ) (remote : ρ) (id : ι) : Prop :=
  ∃ call ∈ commit.result.sent, call.remote = remote ∧ id ∈ call.ids

abbrev journalAt (history : List (JournalCommit ι ρ)) : JournalState ι ρ :=
  Occ.stateAt JournalState.apply JournalState.empty history

theorem journalAt_nil : journalAt ([] : List (JournalCommit ι ρ)) = JournalState.empty := rfl

theorem journalAt_cons (commit : JournalCommit ι ρ) (history : List (JournalCommit ι ρ)) :
    journalAt (commit :: history) =
      commit.mutations.foldl (JournalState.apply (history.length + 1)) (journalAt history) :=
  rfl

/-- A row of a version is there from that version on or never. -/
theorem hasRow_of_append {newer older : List (JournalCommit ι ρ)} {row : OrderRow ι}
    (h : (journalAt (newer ++ older)).HasRow row) (hversion : rowVersion row ≤ older.length) :
    (journalAt older).HasRow row := by
  induction newer with
  | nil => exact h
  | cons commit newer ih =>
      rw [List.cons_append, journalAt_cons, JournalState.hasRow_foldl] at h
      rcases h with hrow | ⟨user, id, -, rfl⟩
      · exact ih hrow
      · rw [rowVersion_orderRow, List.length_append] at hversion
        omega

structure HistoryInvariant (history : List (JournalCommit ι ρ)) : Prop where
  state : (journalAt history).Invariant history.length
  acks : ∀ remote id, (remote, id) ∈ (journalAt history).acks ↔
    ∃ commit ∈ history, Received commit remote id ∨ Passed commit remote id
  written : ∀ commit ∈ history, ∀ remote id, Received commit remote id ∨ Passed commit remote id →
    .ack remote id ∈ commit.writes
  inserted : ∀ commit ∈ history, ∀ id ∈ commit.result.inserted,
    ∃ row, (journalAt history).HasRow row ∧ rowId row = id

theorem journalBody.exists_invariant {order : Entry ι → Entry ι → Ordering}
    {snapshot : JournalState ι ρ} {commit : JournalCommit ι ρ}
    (hsnapshot : snapshot.Invariant commit.readVersion) (h : journalBody order snapshot commit) :
    ∃ transaction : JournalTransaction ι ρ, transaction.Invariant ∧
      transaction.snapshot = snapshot ∧ commit = transaction.commit := by
  obtain ⟨transaction, htransaction, -, -, hcommit⟩ := h
  exact ⟨transaction, htransaction.invariant hsnapshot, htransaction.ends.2, hcommit⟩

theorem HistoryInvariant.nil : HistoryInvariant ([] : List (JournalCommit ι ρ)) := by
  constructor
  case state =>
    constructor <;>
      simp [journalAt_nil, JournalState.Keyed, JournalState.HasRow, JournalState.empty]
  all_goals simp [journalAt_nil, JournalState.empty]

theorem HistoryInvariant.commit {order : Entry ι → Entry ι → Ordering}
    {history : List (JournalCommit ι ρ)} {commit : JournalCommit ι ρ}
    (h : HistoryInvariant history) (hversion : commit.readVersion ≤ history.length)
    (hbefore : HistoryInvariant (Occ.before history commit.readVersion))
    (hbody : journalBody order (journalAt (Occ.before history commit.readVersion)) commit) :
    HistoryInvariant (commit :: history) := by
  have hstate := hbefore.state
  rw [Occ.before_length hversion] at hstate
  obtain ⟨transaction, hinvariant, hsnapshot, rfl⟩ := hbody.exists_invariant hstate
  -- The acknowledgements of the snapshot, and those of the transaction, are there after it.
  have hacks (remote : ρ) (id : ι) (hack : (remote, id) ∈ transaction.view.acks) :
      (remote, id) ∈ (journalAt (transaction.commit :: history)).acks := by
    rw [journalAt_cons, JournalState.mem_acks_foldl]
    rw [JournalTransaction.mem_view_acks, hsnapshot, hbefore.acks] at hack
    refine hack.imp_left ?_
    rintro ⟨earlier, hearlier, hack⟩
    exact (h.acks _ _).mpr ⟨earlier, List.mem_of_mem_drop hearlier, hack⟩
  have hrow (row : OrderRow ι) (hrow : (journalAt (transaction.commit :: history)).HasRow row)
      (hle : rowVersion row ≤ history.length) : (journalAt history).HasRow row :=
    hasRow_of_append (show (journalAt ([transaction.commit] ++ history)).HasRow row from hrow) hle
  constructor
  case state =>
    constructor
    case keyed => exact JournalState.keyed_foldl _ _ h.state.keyed
    case rows =>
      intro row hrow
      rw [journalAt_cons, JournalState.hasRow_foldl] at hrow
      rcases hrow with hrow | ⟨user, id, -, rfl⟩
      · exact (h.state.rows row hrow).trans (Nat.le_succ _)
      · exact le_rfl
    case cursor =>
      intro remote cursor hcursor
      rcases JournalState.sentAfter_foldl _ _ _ hcursor with hold | hown
      · exact (h.state.cursor remote cursor hold).trans (Nat.le_succ _)
      · exact (hinvariant.cursor remote cursor hown).1.trans (hversion.trans (Nat.le_succ _))
    case covered =>
      intro remote cursor hcursor row hmem hle
      have hle' := rowVersion_mono hle
      rcases JournalState.sentAfter_foldl _ _ _ hcursor with hold | hown
      · have hold' := hrow row hmem (hle'.trans (h.state.cursor remote cursor hold))
        rw [journalAt_cons, JournalState.mem_acks_foldl]
        exact .inl (h.state.covered remote cursor hold row hold' hle)
      · -- The rows up to a cursor of the transaction itself are those of its snapshot.
        obtain ⟨hread, hcovers⟩ := hinvariant.cursor remote cursor hown
        have hold := hrow row hmem (hle'.trans (hread.trans hversion))
        rw [← Occ.since_append_before history transaction.commit.readVersion] at hold
        apply hacks remote
        apply hcovers
        rw [hsnapshot]
        apply hasRow_of_append hold
        rw [Occ.before_length hversion]
        exact hle'.trans hread
  case acks =>
    intro remote id
    rw [journalAt_cons, JournalState.mem_acks_foldl, h.acks, List.exists_mem_cons_iff, or_comm]
    exact or_congr_left (hinvariant.acks remote id)
  case written =>
    intro earlier hearlier remote id hack
    rcases List.mem_cons.mp hearlier with rfl | hearlier
    · exact JournalTransaction.mem_written_ack.mpr ((hinvariant.acks remote id).mpr hack)
    · exact h.written earlier hearlier remote id hack
  case inserted =>
    intro earlier hearlier id hid
    rcases List.mem_cons.mp hearlier with rfl | hearlier
    · obtain ⟨user, hmem⟩ := (hinvariant.appended id).mp hid
      refine ⟨orderRow (history.length + 1) user id, ?_, rfl⟩
      rw [journalAt_cons, JournalState.hasRow_foldl]
      exact .inr ⟨user, id, hmem, rfl⟩
    · obtain ⟨row, hold, hrowId⟩ := h.inserted earlier hearlier id hid
      refine ⟨row, ?_, hrowId⟩
      rw [journalAt_cons, JournalState.hasRow_foldl]
      exact .inl hold

theorem historyInvariant {order : Entry ι → Entry ι → Ordering}
    {history : List (JournalCommit ι ρ)} (h : JournalHistory order history) :
    HistoryInvariant history := by
  refine h.snapshot_induction .nil ?_
  intro history commit _ ih hversion hbefore hbody _
  exact ih.commit hversion hbefore hbody

/-! ## Exactly once -/

/-- What a committed transaction passes on to a remote, after the transactions that commit
before it: no entry that one of these has passed on or received, no entry in two calls of
which one began after the other had returned, and, together with these, every entry of its
snapshot. -/
structure ExactlyOnce (commit : JournalCommit ι ρ) (older : List (JournalCommit ι ρ)) : Prop where
  unrepeated : ∀ call ∈ commit.result.sent, ∀ id ∈ call.ids, ∀ earlier ∈ older,
    ¬ Passed earlier call.remote id
  apart : commit.result.sent.Pairwise fun earlier call =>
    earlier.remote = call.remote →
      earlier.returned < call.began ∨ call.returned < earlier.began →
        List.Disjoint earlier.ids call.ids
  unreceived : ∀ call ∈ commit.result.sent, ∀ id ∈ call.ids, ∀ earlier ∈ older,
    ¬ Received earlier call.remote id
  complete : ∀ call ∈ commit.result.sent,
    ∀ earlier ∈ Occ.before older commit.readVersion, ∀ id ∈ earlier.result.inserted,
      ∃ past ∈ commit :: older, Received past call.remote id ∨ Passed past call.remote id

theorem exactlyOnce_of_history {order : Entry ι → Entry ι → Ordering}
    {history : List (JournalCommit ι ρ)} (h : JournalHistory order history)
    (commit : JournalCommit ι ρ) (older : List (JournalCommit ι ρ))
    (hcommit : commit :: older <:+ history) : ExactlyOnce commit older := by
  obtain ⟨newer, rfl⟩ := hcommit
  cases h.of_append with
  | commit holder hversion hbody hconflict =>
      have hinvariant := historyInvariant holder
      have hbefore := historyInvariant (holder.before commit.readVersion)
      have hstate := hbefore.state
      rw [Occ.before_length hversion] at hstate
      obtain ⟨transaction, htransaction, hsnapshot, rfl⟩ := hbody.exists_invariant hstate
      -- An acknowledgement that an earlier transaction has written is part of the snapshot.
      have hfresh (call : SentCall ι ρ) (hcall : call ∈ transaction.sent) (id : ι)
          (hid : id ∈ call.ids) (earlier : JournalCommit ι ρ) (hearlier : earlier ∈ older) :
          ¬ (Received earlier call.remote id ∨ Passed earlier call.remote id) := by
        intro hack
        obtain ⟨hunacknowledged, hread⟩ := htransaction.sentFresh call hcall id hid
        have hwritten := hinvariant.written earlier hearlier _ _ hack
        have hmem := Occ.mem_before_of_conflict hconflict hearlier hread hwritten
        rw [hsnapshot, hbefore.acks] at hunacknowledged
        exact hunacknowledged ⟨earlier, hmem, hack⟩
      constructor
      case unrepeated =>
        intro call hcall id hid earlier hearlier hpassed
        exact hfresh call hcall id hid earlier hearlier (.inr hpassed)
      case apart => exact htransaction.sentApart
      case unreceived =>
        intro call hcall id hid earlier hearlier hreceived
        exact hfresh call hcall id hid earlier hearlier (.inl hreceived)
      case complete =>
        intro call hcall earlier hearlier id hid
        obtain ⟨row, hrow, rfl⟩ := hbefore.inserted earlier hearlier id hid
        rw [← hsnapshot] at hrow
        have hack := htransaction.sentCovers call hcall row hrow
        rw [JournalTransaction.mem_view_acks, hsnapshot, hbefore.acks, htransaction.acks] at hack
        rcases hack with ⟨past, hpast, hack⟩ | hack
        · exact ⟨past, List.mem_cons_of_mem _ (List.mem_of_mem_drop hpast), hack⟩
        · exact ⟨_, List.mem_cons_self, hack⟩

end

def firstEntry : Entry Nat := ⟨1, "event", "key", []⟩

def byId (left right : Entry Nat) : Ordering := compare left.id right.id

def writeCommit : JournalCommit Nat Nat :=
  (JournalTransaction.write { readVersion := 0, snapshot := .empty } firstEntry).commit

def started : JournalTransaction Nat Nat :=
  { readVersion := 1, snapshot := journalAt [writeCommit] }

theorem writeCommit_history : JournalHistory byId [writeCommit] :=
  .commit .nil le_rfl ⟨_, .write firstEntry .start (by decide), rfl, rfl, rfl⟩ (by simp [Occ.since])

theorem writeCommit_extend {transaction : JournalTransaction Nat Nat}
    (h : Journaling byId 1 (journalAt [writeCommit]) transaction)
    (hincoming : transaction.incoming = []) (houtgoing : transaction.outgoing = []) :
    JournalHistory byId [transaction.commit, writeCommit] := by
  have hversion : transaction.commit.readVersion = 1 := h.ends.1
  refine .commit writeCommit_history ?_ ?_ ?_
  · rw [hversion]
    exact le_rfl
  · rw [hversion]
    refine ⟨transaction, ?_, hincoming, houtgoing, rfl⟩
    rw [hversion]
    exact h
  · rw [hversion]
    simp [Occ.since]

theorem exactlyOnce_firstEntry : ∃ commit : JournalCommit Nat Nat,
    (∃ call ∈ commit.result.sent, 1 ∈ call.ids) ∧ ExactlyOnce commit [writeCommit] := by
  have hstate := (historyInvariant writeCommit_history).state
  have hkeyed : started.view.Keyed := hstate.keyed
  obtain ⟨next, hnext⟩ : ∃ next, started.beginUncommited byId 1 0 = some next :=
    Option.isSome_iff_exists.mp rfl
  obtain ⟨call, reads, rfl, -, -, -, -, hids, -⟩ :=
    JournalTransaction.beginUncommited_spec hkeyed hnext
  have hbegun := Journaling.beginUncommited 1 0 (by decide) .start hnext
  have hreturned := Journaling.finishUncommited call hbegun (by simp)
  have hhistory := writeCommit_extend hreturned rfl
    (by simp [JournalTransaction.finishUncommited, started])
  refine ⟨_, ⟨⟨call, 1⟩, ?_, ?_⟩, exactlyOnce_of_history hhistory _ _ (List.suffix_refl _)⟩
  · exact List.mem_singleton_self _
  · exact (hids 1).mpr (by decide)

/-- A call that runs inside the callback of another call for the same remote passes the same
entries on again. -/
theorem not_disjoint_reentrant : ∃ commit : JournalCommit Nat Nat,
    JournalHistory byId [commit, writeCommit] ∧
      ¬ commit.result.sent.Pairwise fun earlier call =>
        earlier.remote = call.remote → List.Disjoint earlier.ids call.ids := by
  have hstate := (historyInvariant writeCommit_history).state
  have hkeyed : started.view.Keyed := hstate.keyed
  obtain ⟨next, hnext⟩ : ∃ next, started.beginUncommited byId 1 0 = some next :=
    Option.isSome_iff_exists.mp rfl
  obtain ⟨outer, reads, rfl, hremote, hbegan, -, -, hids, -⟩ :=
    JournalTransaction.beginUncommited_spec hkeyed hnext
  have houter := Journaling.beginUncommited 1 0 (by decide) .start hnext
  obtain ⟨next', hnext'⟩ : ∃ next', JournalTransaction.beginUncommited
      { started with reads, outgoing := [outer], clock := 1 } byId 1 0 = some next' :=
    Option.isSome_iff_exists.mp rfl
  obtain ⟨inner, reads', rfl, hremote', hbegan', -, -, hids', -⟩ :=
    JournalTransaction.beginUncommited_spec (houter.invariant hstate).keyed hnext'
  have hinner := Journaling.beginUncommited 1 0 (by decide) houter hnext'
  have hne : outer ≠ inner := by
    intro heq
    rw [heq, hbegan'] at hbegan
    exact Nat.succ_ne_self 0 hbegan
  have hreturned := Journaling.finishUncommited inner hinner (by simp)
  have hreturned' := Journaling.finishUncommited outer hreturned
    (by simp [JournalTransaction.finishUncommited, hne])
  refine ⟨_, writeCommit_extend hreturned' rfl ?_, ?_⟩
  · change ((([] ++ [outer]) ++ [inner]).erase inner).erase outer = []
    simp [hne]
  · intro happart
    have hdisjoint := (List.pairwise_cons.mp happart).1 ⟨outer, 3⟩ (List.mem_singleton_self _)
      (hremote'.trans hremote.symm)
    have hpassed : 1 ∈ (started.unsent 1 (started.view.sentAfter 0)).1 ∧
        (0, 1) ∉ started.view.acks := by decide
    exact hdisjoint ((hids' 1).mpr hpassed) ((hids 1).mpr hpassed)

end FoundationDbEffect.EventLog
