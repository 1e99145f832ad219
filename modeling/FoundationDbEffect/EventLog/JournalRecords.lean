import FoundationDbEffect.EventLog.RemoteWrites

/-!
# Records behind the indexes of a journal

A journal reads ids from an index and then their entries, and fails when one of these is missing.
Transactions insert an entry together with its places in the indexes, so none is missing,
whatever transactions run at the same time.
-/

namespace FoundationDbEffect.EventLog

open FoundationDbEffect.Foundation

variable {ι ρ : Type} [LinearOrder ι]

namespace JournalState

def allEntries (state : JournalState ι ρ) (pageSize : Nat) : Option (List (Entry ι)) :=
  ((state.entries.scan (fun _ => true) pageSize none).map Prod.fst).mapM state.entries.get?

/-- Each id of an index has an entry, and each entry is in the indexes. -/
structure Recorded (state : JournalState ι ρ) : Prop where
  conflicts : ∀ event primaryKey id,
    (state.conflicts.get? (toLex (event, toLex (primaryKey, id)))).isSome →
      (state.entries.get? id).isSome
  rows : ∀ row, state.HasRow row → (state.entries.get? (rowId row)).isSome
  listed : ∀ id entry, state.entries.get? id = some entry →
    (state.conflicts.get? (toLex (entry.event, toLex (entry.primaryKey, id)))).isSome ∧
      ∃ row, state.HasRow row ∧ rowId row = id

theorem Recorded.isSome_iff {state : JournalState ι ρ} (h : state.Recorded) (id : ι) :
    (state.entries.get? id).isSome ↔ ∃ row, state.HasRow row ∧ rowId row = id := by
  constructor
  · intro hstored
    obtain ⟨entry, hentry⟩ := Option.isSome_iff_exists.mp hstored
    exact (h.listed id entry hentry).2
  · rintro ⟨row, hrow, rfl⟩
    exact h.rows row hrow

theorem mem_found {state : JournalState ι ρ} {ids : List ι} {found : List (Entry ι)}
    (hids : found.map Entry.id = ids)
    (hfound : ∀ entry ∈ found, state.entries.get? entry.id = some entry) (entry : Entry ι) :
    entry ∈ found ↔ state.entries.get? entry.id = some entry ∧ entry.id ∈ ids := by
  constructor
  · intro hmem
    exact ⟨hfound entry hmem, hids ▸ List.mem_map_of_mem hmem⟩
  · rintro ⟨hget, hmem⟩
    rw [← hids] at hmem
    obtain ⟨other, hother, hid⟩ := List.mem_map.mp hmem
    have hsame := hfound other hother
    rw [hid, hget] at hsame
    cases hsame
    exact hother

theorem Keyed.allEntries {state : JournalState ι ρ} (h : state.Keyed) {pageSize : Nat}
    (hpage : 0 < pageSize) : ∃ found, state.allEntries pageSize = some found ∧
      found.Pairwise (fun left right => left.id < right.id) ∧
      ∀ entry, entry ∈ found ↔ state.entries.get? entry.id = some entry := by
  rw [JournalState.allEntries, OrderedMap.scan_eq _ _ hpage]
  have hstored : ∀ id ∈ (state.entries.rowsAfter (fun _ => true) none).map Prod.fst,
      (state.entries.get? id).isSome := by
    intro id hid
    obtain ⟨⟨_, entry⟩, hrow, rfl⟩ := List.mem_map.mp hid
    exact Option.isSome_iff_exists.mpr ⟨entry, (OrderedMap.mem_rows.mp hrow).2⟩
  obtain ⟨found, hread, hids, hfound⟩ := h.mapM hstored
  refine ⟨found, hread, ?_, fun entry => ?_⟩
  · rw [← List.pairwise_map, hids, List.pairwise_map]
    exact state.entries.rows_sorted _
  · rw [mem_found hids hfound, and_iff_left_iff_imp]
    intro hget
    exact List.mem_map.mpr ⟨(entry.id, entry), OrderedMap.mem_rows.mpr ⟨rfl, hget⟩, rfl⟩

section

variable [DecidableEq ρ]

theorem isSome_foldl (version : Nat) (mutations : List (JournalMutation ι ρ))
    (state : JournalState ι ρ) (id : ι) :
    ((mutations.foldl (apply version) state).entries.get? id).isSome ↔
      (state.entries.get? id).isSome ∨ ∃ entry, .putEntry entry ∈ mutations ∧ entry.id = id := by
  induction mutations generalizing state with
  | nil => simp
  | cons mutation mutations ih =>
      rw [List.foldl_cons, ih]
      cases mutation with
      | putEntry entry =>
          simp only [apply, OrderedMap.get?_set, List.mem_cons, JournalMutation.putEntry.injEq]
          split_ifs with h
          · simp only [Option.isSome_some, true_or, true_iff]
            exact .inr ⟨entry, .inl rfl, h.symm⟩
          · constructor
            · rintro (hold | ⟨other, hmem, hid⟩)
              · exact .inl hold
              · exact .inr ⟨other, .inr hmem, hid⟩
            · rintro (hold | ⟨other, rfl | hmem, hid⟩)
              · exact .inl hold
              · exact absurd hid.symm h
              · exact .inr ⟨other, hmem, hid⟩
      | _ => simp [apply]

theorem entries_foldl (version : Nat) (mutations : List (JournalMutation ι ρ))
    (state : JournalState ι ρ) {id : ι} {entry : Entry ι}
    (h : (mutations.foldl (apply version) state).entries.get? id = some entry) :
    state.entries.get? id = some entry ∨ .putEntry entry ∈ mutations ∧ entry.id = id := by
  induction mutations generalizing state with
  | nil => exact .inl h
  | cons mutation mutations ih =>
      rcases ih _ h with hstate | ⟨hmem, hid⟩
      · cases mutation with
        | putEntry other =>
            simp only [apply, OrderedMap.get?_set] at hstate
            split_ifs at hstate with hsame
            · cases hstate
              exact .inr ⟨List.mem_cons_self, hsame.symm⟩
            · exact .inl hstate
        | _ => exact .inl hstate
      · exact .inr ⟨List.mem_cons_of_mem _ hmem, hid⟩

end

end JournalState

/-! ## What transactions insert -/

/-- Mutations that put an entry for each of their places in the indexes, and each of their
entries into the indexes. -/
structure Recording (mutations : List (JournalMutation ι ρ)) : Prop where
  conflicts : ∀ event primaryKey id, .markConflict event primaryKey id ∈ mutations →
    ∃ entry, .putEntry entry ∈ mutations ∧ entry.id = id
  rows : ∀ user id, .appendInserted user id ∈ mutations →
    ∃ entry, .putEntry entry ∈ mutations ∧ entry.id = id
  listed : ∀ entry, .putEntry entry ∈ mutations →
    .markConflict entry.event entry.primaryKey entry.id ∈ mutations ∧
      ∃ user, .appendInserted user entry.id ∈ mutations

omit [LinearOrder ι] in
theorem Recording.append {first second : List (JournalMutation ι ρ)} (h : Recording first)
    (h' : Recording second) : Recording (first ++ second) := by
  have hput {id : ι} : ((∃ entry, .putEntry entry ∈ first ∧ entry.id = id) ∨
      ∃ entry, .putEntry entry ∈ second ∧ entry.id = id) →
      ∃ entry : Entry ι, .putEntry entry ∈ first ++ second ∧ entry.id = id := by
    rintro (⟨entry, hmem, hid⟩ | ⟨entry, hmem, hid⟩)
    · exact ⟨entry, List.mem_append_left _ hmem, hid⟩
    · exact ⟨entry, List.mem_append_right _ hmem, hid⟩
  constructor
  case conflicts =>
    intro event primaryKey id hmem
    exact hput ((List.mem_append.mp hmem).imp (h.conflicts _ _ _) (h'.conflicts _ _ _))
  case rows =>
    intro user id hmem
    exact hput ((List.mem_append.mp hmem).imp (h.rows _ _) (h'.rows _ _))
  case listed =>
    intro entry hmem
    rcases List.mem_append.mp hmem with hmem | hmem
    · obtain ⟨hconflict, user, hrow⟩ := h.listed entry hmem
      exact ⟨List.mem_append_left _ hconflict, user, List.mem_append_left _ hrow⟩
    · obtain ⟨hconflict, user, hrow⟩ := h'.listed entry hmem
      exact ⟨List.mem_append_right _ hconflict, user, List.mem_append_right _ hrow⟩

theorem JournalState.Recorded.foldl [DecidableEq ρ] {state : JournalState ι ρ} (h : state.Recorded)
    (version : Nat) {mutations : List (JournalMutation ι ρ)} (hrecording : Recording mutations) :
    (mutations.foldl (JournalState.apply version) state).Recorded := by
  constructor
  case conflicts =>
    intro event primaryKey id hconflict
    rw [JournalState.isSome_foldl]
    rcases (JournalState.conflict_foldl _ _ _ _).mp hconflict with hold | ⟨_, _, _, hmem, hkey⟩
    · exact .inl (h.conflicts _ _ _ hold)
    · cases hkey
      exact .inr (hrecording.conflicts _ _ _ hmem)
  case rows =>
    intro row hrow
    rw [JournalState.isSome_foldl]
    rcases (JournalState.hasRow_foldl _ _ _ _).mp hrow with hold | ⟨user, id, hmem, rfl⟩
    · exact .inl (h.rows row hold)
    · exact .inr (hrecording.rows user id hmem)
  case listed =>
    intro id entry hget
    rw [JournalState.conflict_foldl]
    rcases JournalState.entries_foldl _ _ _ hget with hold | ⟨hmem, rfl⟩
    · obtain ⟨hconflict, row, hrow, hid⟩ := h.listed id entry hold
      exact ⟨.inl hconflict, row, (JournalState.hasRow_foldl _ _ _ _).mpr (.inl hrow), hid⟩
    · obtain ⟨hconflict, user, hrow⟩ := hrecording.listed entry hmem
      refine ⟨.inr ⟨_, _, _, hconflict, rfl⟩, orderRow version user entry.id, ?_, rfl⟩
      exact (JournalState.hasRow_foldl _ _ _ _).mpr (.inr ⟨user, _, hrow, rfl⟩)

namespace JournalTransaction

theorem recording_insertEntry (isLocal : Bool) {transaction : JournalTransaction ι ρ}
    (h : Recording transaction.mutations) (entry : Entry ι) :
    Recording (insertEntry isLocal transaction entry).mutations := by
  have hmutations : (insertEntry isLocal transaction entry).mutations = transaction.mutations ++
      (.putEntry entry :: .markConflict entry.event entry.primaryKey entry.id ::
        .appendInserted transaction.next entry.id ::
          if isLocal then [.appendLocal transaction.next entry.id, .putLocal entry] else []) := by
    cases isLocal <;> simp [insertEntry, append, mutateAll, mutate]
  rw [hmutations]
  refine h.append ?_
  cases isLocal
  all_goals
    constructor
    case conflicts => simp +contextual
    case rows => simp
    case listed => simp

theorem recording_insert {transaction : JournalTransaction ι ρ}
    (h : Recording transaction.mutations) (entries : List (Entry ι)) (isLocal : Bool) :
    Recording (transaction.insert entries isLocal).mutations := by
  induction entries generalizing transaction with
  | nil => exact h
  | cons entry entries ih => exact ih (recording_insertEntry isLocal h entry)

end JournalTransaction

section

variable [DecidableEq ρ] {order : Entry ι → Entry ι → Ordering} {readVersion : Nat}
  {snapshot : JournalState ι ρ} {transaction : JournalTransaction ι ρ}

theorem Journaling.recording (h : Journaling order readVersion snapshot transaction) :
    Recording transaction.mutations := by
  induction h with
  | start => constructor <;> simp
  | write entry _ _ ih =>
      exact (JournalTransaction.recording_insert ih [entry] true).append (by constructor <;> simp)
  | beginRemote remote batch _ ih => exact ih.append (by constructor <;> simp)
  | replay _ _ _ _ hreplay ih =>
      obtain ⟨_, -, heq⟩ := Option.map_eq_some_iff.mp hreplay
      cases heq
      exact ih
  | finishRemote incoming _ _ _ ih =>
      exact (JournalTransaction.recording_insert ih _ false).append (by constructor <;> simp)
  | beginUncommited _ _ _ _ hbegin ih =>
      obtain ⟨_, -, rfl⟩ := Option.map_eq_some_iff.mp hbegin
      exact ih
  | finishUncommited call _ _ ih =>
      exact (ih.append (by constructor <;> simp)).append (by constructor <;> simp)

theorem Journaling.recorded (h : Journaling order readVersion snapshot transaction)
    (hsnapshot : snapshot.Recorded) : transaction.view.Recorded := by
  rw [JournalTransaction.view, h.ends.2]
  exact hsnapshot.foldl _ h.recording

/-! ## What the calls read -/

namespace JournalTransaction

/-- A replay finds stored entries that order after its entry, and all of those with its event and
its primary key. -/
structure Finds (order : Entry ι → Entry ι → Ordering) (transaction : JournalTransaction ι ρ)
    (entry : Entry ι) (conflicts : List (Entry ι)) : Prop where
  stored : ∀ other ∈ conflicts, transaction.view.entries.get? other.id = some other ∧
    entry.id ≤ other.id ∧ order other entry = .gt
  complete : ∀ other, transaction.view.entries.get? other.id = some other →
    other.event = entry.event → other.primaryKey = entry.primaryKey → entry.id ≤ other.id →
      order other entry = .gt → other ∈ conflicts

theorem replay_finds (order : Entry ι → Entry ι → Ordering) (hkeyed : transaction.view.Keyed)
    (hrecorded : transaction.view.Recorded) {pageSize : Nat} (hpage : 0 < pageSize)
    (entry : Entry ι) : ∃ next conflicts,
      transaction.replay order pageSize entry = some (next, conflicts) ∧
        Finds order transaction entry conflicts := by
  have hids : (transaction.view.conflicts.scan (conflictRange entry) pageSize none).map
      (fun row => (ofLex (ofLex row.1).2).2) = conflictIds transaction.view entry := by
    rw [OrderedMap.scan_eq _ _ hpage, OrderedMap.rowsAfter, conflictIds]
    simp
  have hstored : ∀ id ∈ conflictIds transaction.view entry,
      (transaction.view.entries.get? id).isSome := by
    intro id hid
    exact hrecorded.conflicts _ _ _ (mem_conflictIds.mp hid).2
  obtain ⟨found, hread, hmap, hfound⟩ := hkeyed.mapM hstored
  rw [← hids] at hread
  refine ⟨_, _, Option.map_eq_some_iff.mpr ⟨found, hread, rfl⟩, ?_, ?_⟩
  · intro other hmem
    obtain ⟨hmem, horder⟩ := List.mem_filter.mp hmem
    obtain ⟨hget, hid⟩ := (JournalState.mem_found hmap hfound other).mp hmem
    exact ⟨hget, (mem_conflictIds.mp hid).1, of_decide_eq_true horder⟩
  · intro other hget hevent hprimary hle horder
    refine List.mem_filter.mpr ⟨(JournalState.mem_found hmap hfound other).mpr ⟨hget, ?_⟩,
      decide_eq_true horder⟩
    have hlisted := (hrecorded.listed other.id other hget).1
    rw [hevent, hprimary] at hlisted
    exact mem_conflictIds.mpr ⟨hle, hlisted⟩

/-- The ids that a call finds have entries, the pending ones through the transaction's own puts. -/
theorem Invariant.isSome_of_unsent (h : transaction.Invariant)
    (hrecording : Recording transaction.mutations) (hrecorded : transaction.view.Recorded)
    {pageSize : Nat} (hpage : 0 < pageSize) {after : Option (OrderRow ι)} {id : ι}
    (hid : id ∈ (transaction.unsent pageSize after).1) :
    (transaction.view.entries.get? id).isSome := by
  rw [unsent, OrderedMap.scan_eq _ _ hpage] at hid
  rcases List.mem_append.mp hid with hid | hid
  · obtain ⟨⟨row, mark⟩, hmem, rfl⟩ := List.mem_map.mp hid
    exact hrecorded.rows row (OrderedMap.mem_rows.mp hmem).2
  · obtain ⟨user, hrow⟩ := (h.appended id).mp hid
    exact (JournalState.isSome_foldl _ _ _ _).mpr (.inr (hrecording.rows user id hrow))

theorem Invariant.mem_unsent_of_stored (h : transaction.Invariant)
    (hsnapshot : transaction.snapshot.Invariant transaction.readVersion)
    (hrecorded : transaction.view.Recorded) {pageSize : Nat} (hpage : 0 < pageSize) {remote : ρ}
    {id : ι} (hstored : (transaction.view.entries.get? id).isSome)
    (hack : (remote, id) ∉ transaction.view.acks) :
    id ∈ (transaction.unsent pageSize (transaction.view.sentAfter remote)).1 := by
  obtain ⟨row, hrow, rfl⟩ := (hrecorded.isSome_iff id).mp hstored
  rcases (JournalState.hasRow_foldl _ _ _ _).mp hrow with hold | ⟨user, id, hmem, rfl⟩
  · refine mem_unsent hpage hrow (hsnapshot.rows row hold) ?_
    rw [Option.all_eq_true]
    intro after hafter
    simp only [decide_eq_true_eq]
    by_contra hle
    exact hack (h.acks_of_le hsnapshot hafter hold (not_lt.mp hle))
  · exact List.mem_append_right _ ((h.appended id).mpr ⟨user, hmem⟩)

theorem Invariant.beginUncommited_finds (h : transaction.Invariant)
    (hsnapshot : transaction.snapshot.Invariant transaction.readVersion)
    (hrecording : Recording transaction.mutations) (hrecorded : transaction.view.Recorded)
    (order : Entry ι → Entry ι → Ordering) {pageSize : Nat} (hpage : 0 < pageSize) (remote : ρ) :
    ∃ next call, transaction.beginUncommited order pageSize remote = some next ∧
      next.outgoing = transaction.outgoing ++ [call] ∧ call.remote = remote ∧
      ∀ entry, entry ∈ call.pending ↔ transaction.view.entries.get? entry.id = some entry ∧
        (remote, entry.id) ∉ transaction.view.acks := by
  have hstored : ∀ id ∈ (transaction.unsent pageSize (transaction.view.sentAfter remote)).1.filter
      (fun id => (remote, id) ∉ transaction.view.acks),
      (transaction.view.entries.get? id).isSome := by
    intro id hid
    exact h.isSome_of_unsent hrecording hrecorded hpage (List.mem_filter.mp hid).1
  obtain ⟨found, hread, hmap, hfound⟩ := h.keyed.mapM hstored
  refine ⟨_, ⟨remote, found.mergeSort fun left right => (order left right).isLE, _, _⟩,
    Option.map_eq_some_iff.mpr ⟨found, hread, rfl⟩, rfl, rfl, fun entry => ?_⟩
  rw [List.mem_mergeSort, JournalState.mem_found hmap hfound, List.mem_filter, decide_eq_true_eq]
  refine and_congr_right fun hget => and_iff_right_of_imp fun hack => ?_
  exact h.mem_unsent_of_stored hsnapshot hrecorded hpage (Option.isSome_of_mem hget) hack

end JournalTransaction

end

/-! ## Histories -/

section

variable [DecidableEq ρ] {order : Entry ι → Entry ι → Ordering}
  {history : List (JournalCommit ι ρ)}

theorem journalAt_recorded (h : JournalHistory order history) : (journalAt history).Recorded := by
  induction h with
  | nil =>
      constructor
      all_goals simp [journalAt_nil, JournalState.HasRow, JournalState.empty]
  | commit _ _ hbody _ ih =>
      obtain ⟨transaction, htransaction, -, -, rfl⟩ := hbody
      exact ih.foldl _ htransaction.recording

theorem inserted_of_row (h : JournalHistory order history) {row : OrderRow ι}
    (hrow : (journalAt history).HasRow row) :
    ∃ commit ∈ history, rowId row ∈ commit.result.inserted := by
  induction h with
  | nil => simp [journalAt_nil, JournalState.HasRow, JournalState.empty] at hrow
  | @commit older later hhistory hversion hbody _ ih =>
      have hstate := (historyInvariant (hhistory.before later.readVersion)).state
      rw [Occ.before_length hversion] at hstate
      obtain ⟨transaction, hinvariant, -, rfl⟩ := hbody.exists_invariant hstate
      rw [journalAt_cons, JournalState.hasRow_foldl] at hrow
      rcases hrow with hold | ⟨user, id, hmem, rfl⟩
      · obtain ⟨commit, hcommit, hid⟩ := ih hold
        exact ⟨commit, List.mem_cons_of_mem _ hcommit, hid⟩
      · exact ⟨_, List.mem_cons_self, (hinvariant.appended id).mpr ⟨user, hmem⟩⟩

/-- What the calls of a transaction in progress read, after the transactions of its snapshot. -/
structure FindsRecords (order : Entry ι → Entry ι → Ordering) (pageSize : Nat)
    (older : List (JournalCommit ι ρ)) (transaction : JournalTransaction ι ρ) : Prop where
  stored : ∀ id, (transaction.view.entries.get? id).isSome ↔
    (∃ commit ∈ older, id ∈ commit.result.inserted) ∨ id ∈ transaction.pending
  entries : ∃ found, transaction.view.allEntries pageSize = some found ∧
    found.Pairwise (fun left right => left.id < right.id) ∧
    ∀ entry, entry ∈ found ↔ transaction.view.entries.get? entry.id = some entry
  replay : ∀ entry, ∃ next conflicts,
    transaction.replay order pageSize entry = some (next, conflicts) ∧
      JournalTransaction.Finds order transaction entry conflicts
  unsent : ∀ remote, ∃ next call,
    transaction.beginUncommited order pageSize remote = some next ∧
      next.outgoing = transaction.outgoing ++ [call] ∧ call.remote = remote ∧
      ∀ entry, entry ∈ call.pending ↔ transaction.view.entries.get? entry.id = some entry ∧
        (remote, entry.id) ∉ transaction.view.acks

/-- At any point of a transaction over a snapshot of any history of concurrent transactions no
call of the journal meets a missing record. The stored entries are those that the transactions of
the snapshot and the transaction itself have inserted. A read of all entries returns these in the
order of their ids, a replay passes on those that its entry conflicts with, and a call for a
remote starts with exactly those that are not acknowledged for it. -/
theorem records_found (h : JournalHistory order history) {readVersion : Nat}
    (hversion : readVersion ≤ history.length) {transaction : JournalTransaction ι ρ}
    (htransaction : Journaling order readVersion (journalAt (Occ.before history readVersion))
      transaction) {pageSize : Nat} (hpage : 0 < pageSize) :
    FindsRecords order pageSize (Occ.before history readVersion) transaction := by
  have hbefore := h.before readVersion
  have hstate := (historyInvariant hbefore).state
  rw [Occ.before_length hversion] at hstate
  have hinvariant := htransaction.invariant hstate
  have hrecorded := htransaction.recorded (journalAt_recorded hbefore)
  constructor
  case stored =>
    intro id
    rw [JournalTransaction.view, htransaction.ends.2, JournalState.isSome_foldl,
      (journalAt_recorded hbefore).isSome_iff]
    refine or_congr ?_ ?_
    · constructor
      · rintro ⟨row, hrow, rfl⟩
        exact inserted_of_row hbefore hrow
      · rintro ⟨commit, hcommit, hid⟩
        exact (historyInvariant hbefore).inserted commit hcommit id hid
    · rw [hinvariant.appended]
      constructor
      · rintro ⟨entry, hmem, rfl⟩
        exact (htransaction.recording.listed entry hmem).2
      · rintro ⟨user, hmem⟩
        exact htransaction.recording.rows user id hmem
  case entries => exact hinvariant.keyed.allEntries hpage
  case replay =>
    intro entry
    exact JournalTransaction.replay_finds order hinvariant.keyed hrecorded hpage entry
  case unsent =>
    intro remote
    have hsnapshot : transaction.snapshot.Invariant transaction.readVersion := by
      rw [htransaction.ends.1, htransaction.ends.2]
      exact hstate
    exact hinvariant.beginUncommited_finds hsnapshot htransaction.recording hrecorded order hpage
      remote

end

theorem records_found_write :
    FindsRecords byId 1 [writeCommit] (started.write ⟨2, "event", "key", []⟩) :=
  records_found writeCommit_history (le_refl 1) (.write ⟨2, "event", "key", []⟩ .start (by decide))
    Nat.one_pos

end FoundationDbEffect.EventLog
