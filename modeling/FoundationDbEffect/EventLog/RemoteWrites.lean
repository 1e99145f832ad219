import FoundationDbEffect.EventLog.ChangeFeed
import FoundationDbEffect.EventLog.ExactlyOnce
import FoundationDbEffect.EventLog.ServerStreams
import FoundationDbEffect.Foundation.Fallible

/-!
# Incoming batches of a journal

A call of `writeFromRemote` sorts out the duplicates of its batch, acknowledges all of it, hands
the rest to the compaction, replays each compacted entry against the stored entries that it
conflicts with, and inserts the rest. The callbacks read and write other data of the same
transaction. If one of them fails, the transaction does not commit.
-/

namespace FoundationDbEffect.EventLog

open FoundationDbEffect.Foundation
open Server (EventJournalError)

variable {ι ρ δ ε : Type} [LinearOrder ι]

/-! ## The call -/

inductive RemoteFailure (ε : Type) where
  | journal (error : EventJournalError)
  | callback (error : ε)
  deriving DecidableEq

/-- The options of a call, with callbacks over the other data of its transaction. -/
structure RemoteWrite (ι ρ δ ε : Type) where
  remoteId : ρ
  entries : List (RemoteEntry ι)
  compact : Option (List (RemoteEntry ι) → δ → Except ε (List (Entry ι) × δ)) := none
  effect : Entry ι → List (Entry ι) → δ → Except ε δ

def RemoteWrite.compacted (options : RemoteWrite ι ρ δ ε) (uncommitted : List (RemoteEntry ι))
    (data : δ) : Except ε (List (Entry ι) × δ) :=
  match options.compact with
  | none => .ok (uncommitted.map RemoteEntry.entry, data)
  | some compact => compact uncommitted data

namespace JournalTransaction

section

variable [DecidableEq ρ]

def incomingOf (transaction : JournalTransaction ι ρ) (remote : ρ)
    (batch : List (RemoteEntry ι)) : Incoming ι ρ :=
  let state := transaction.view
  (batch.foldl (acceptRemote fun id => (state.entries.get? id).isSome)
    ([], ⟨remote, [], [], state.remoteNext remote⟩)).2

def replayAll (order : Entry ι → Entry ι → Ordering) (pageSize : Nat)
    (effect : Entry ι → List (Entry ι) → δ → Except ε δ) :
    List (Entry ι) → JournalTransaction ι ρ → δ →
      Except (RemoteFailure ε) (JournalTransaction ι ρ × δ)
  | [], transaction, data => .ok (transaction, data)
  | entry :: compacted, transaction, data =>
    match transaction.replay order pageSize entry with
    | none => .error (.journal ⟨"read", "Missing indexed event-log record"⟩)
    | some (transaction, conflicts) => do
      let data ← (effect entry conflicts data).mapError .callback
      replayAll order pageSize effect compacted transaction data

def writeFromRemote (order : Entry ι → Entry ι → Ordering) (pageSize : Nat)
    (options : RemoteWrite ι ρ δ ε) (transaction : JournalTransaction ι ρ) (data : δ) :
    Except (RemoteFailure ε) (JournalTransaction ι ρ × δ × List (Entry ι)) := do
  let incoming := transaction.incomingOf options.remoteId options.entries
  let begun := transaction.beginRemote options.remoteId options.entries
  let (compacted, data) ← (options.compacted incoming.uncommitted data).mapError .callback
  let (replayed, data) ← replayAll order pageSize options.effect compacted begun data
  if 2 ^ 16 < replayed.next + incoming.uncommitted.length then
    .error (.journal ⟨"order.append", "versionstamp user version must be an unsigned 16-bit integer"⟩)
  else .ok (replayed.finishRemote incoming, data, incoming.duplicates)

end

end JournalTransaction

/-- The call in a transaction of its own, which reads at one version and commits at another. A
transaction that fails changes nothing. -/
def JournalState.writeFromRemote [DecidableEq ρ] (order : Entry ι → Entry ι → Ordering)
    (pageSize readVersion version : Nat) (options : RemoteWrite ι ρ δ ε)
    (journal : JournalState ι ρ) (data : δ) :
    (JournalState ι ρ × δ) × Except (RemoteFailure ε) (List (Entry ι)) :=
  match JournalTransaction.writeFromRemote order pageSize options
      { readVersion, snapshot := journal } data with
  | .error error => ((journal, data), .error error)
  | .ok (transaction, data, duplicates) =>
    ((transaction.mutations.foldl (JournalState.apply version) journal, data), .ok duplicates)

/-! ## Duplicates -/

abbrev remoteIds (batch : List (RemoteEntry ι)) : List ι :=
  batch.map fun remote => remote.entry.id

omit [LinearOrder ι] in
theorem remoteIds_append (first second : List (RemoteEntry ι)) :
    remoteIds (first ++ second) = remoteIds first ++ remoteIds second :=
  List.map_append

def isFirst (stored : ι → Bool) (batch : List (RemoteEntry ι)) (item : RemoteEntry ι × Nat) :
    Bool :=
  !stored item.1.entry.id && !(remoteIds (batch.take item.2)).contains item.1.entry.id

def newRemotes (stored : ι → Bool) (batch : List (RemoteEntry ι)) : List (RemoteEntry ι) :=
  (batch.zipIdx.filter (isFirst stored batch)).map Prod.fst

def repeatedRemotes (stored : ι → Bool) (batch : List (RemoteEntry ι)) : List (RemoteEntry ι) :=
  (batch.zipIdx.filter fun item => !isFirst stored batch item).map Prod.fst

def nextSequence (next : Nat) (batch : List (RemoteEntry ι)) : Nat :=
  (batch.map fun remote => remote.remoteSequence + 1).foldl max next

omit [LinearOrder ι] in
theorem filter_zipIdx_concat (p : List (RemoteEntry ι) → RemoteEntry ι × Nat → Bool)
    (hp : ∀ batch last item, item.2 < batch.length → p (batch ++ [last]) item = p batch item)
    (batch : List (RemoteEntry ι)) (last : RemoteEntry ι) :
    ((batch ++ [last]).zipIdx.filter (p (batch ++ [last]))).map Prod.fst =
      (batch.zipIdx.filter (p batch)).map Prod.fst ++
        if p (batch ++ [last]) (last, batch.length) then [last] else [] := by
  have hsame : batch.zipIdx.filter (p (batch ++ [last])) = batch.zipIdx.filter (p batch) := by
    refine List.filter_congr fun item hitem => hp batch last item ?_
    have hlt := List.snd_lt_of_mem_zipIdx hitem
    simpa using hlt
  rw [List.zipIdx_append, List.filter_append, List.map_append, hsame]
  congr 1
  simp only [List.zipIdx_cons, List.zipIdx_nil, Nat.zero_add, List.filter_cons, List.filter_nil]
  split <;> simp

theorem isFirst_concat (stored : ι → Bool) (batch : List (RemoteEntry ι)) (last : RemoteEntry ι)
    (item : RemoteEntry ι × Nat) (hlt : item.2 < batch.length) :
    isFirst stored (batch ++ [last]) item = isFirst stored batch item := by
  rw [isFirst, isFirst, List.take_append_of_le_length hlt.le]

theorem isFirst_last (stored : ι → Bool) (batch : List (RemoteEntry ι)) (last : RemoteEntry ι) :
    isFirst stored (batch ++ [last]) (last, batch.length) =
      (!stored last.entry.id && last.entry.id ∉ remoteIds batch) := by
  rw [isFirst, List.take_left, List.contains_eq_mem, decide_not]

theorem mem_newRemotes {stored : ι → Bool} {batch : List (RemoteEntry ι)} {id : ι}
    (hstored : stored id = false) :
    id ∈ remoteIds (newRemotes stored batch) ↔
      id ∈ remoteIds batch := by
  induction batch using List.reverseRecOn with
  | nil => simp [newRemotes]
  | append_singleton batch last ih =>
      rw [newRemotes, filter_zipIdx_concat _ (isFirst_concat stored), ← newRemotes,
        remoteIds_append, remoteIds_append, List.mem_append, List.mem_append, ih, isFirst_last]
      by_cases hlast : id = last.entry.id
      · subst hlast
        by_cases hmem : last.entry.id ∈ remoteIds batch
        · simp [hmem]
        · simp [hstored, hmem]
      · refine or_congr_right ?_
        split <;> simp [hlast]

theorem nodup_newRemotes (stored : ι → Bool) (batch : List (RemoteEntry ι)) :
    (remoteIds (newRemotes stored batch)).Nodup ∧
      ∀ id ∈ remoteIds (newRemotes stored batch), stored id = false := by
  induction batch using List.reverseRecOn with
  | nil => simp [newRemotes]
  | append_singleton batch last ih =>
      obtain ⟨hnodup, hfresh⟩ := ih
      rw [newRemotes, filter_zipIdx_concat _ (isFirst_concat stored), ← newRemotes,
        remoteIds_append, isFirst_last]
      split
      · next hnew =>
          simp only [Bool.and_eq_true, Bool.not_eq_true', decide_eq_true_eq] at hnew
          have hnot : last.entry.id ∉ remoteIds (newRemotes stored batch) :=
            fun hmem => hnew.2 ((mem_newRemotes hnew.1).mp hmem)
          refine ⟨List.nodup_append.mpr ⟨hnodup, by simp, by simpa using hnot⟩, ?_⟩
          intro id hid
          rcases List.mem_append.mp hid with hid | hid
          · exact hfresh id hid
          · obtain rfl : id = last.entry.id := by simpa using hid
            exact hnew.1
      · change (remoteIds (newRemotes stored batch) ++ []).Nodup ∧ _
        rw [List.append_nil]
        refine ⟨hnodup, fun id hid => hfresh id ?_⟩
        simpa using hid

theorem accept_eq (stored : ι → Bool) (remote : ρ) (next : Nat) (batch : List (RemoteEntry ι)) :
    ∃ seen, batch.foldl (JournalTransaction.acceptRemote stored) ([], ⟨remote, [], [], next⟩) =
        (seen, ⟨remote, (repeatedRemotes stored batch).map RemoteEntry.entry,
          newRemotes stored batch, nextSequence next batch⟩) ∧
      ∀ id, id ∈ seen ↔ id ∈ remoteIds (newRemotes stored batch) := by
  induction batch using List.reverseRecOn with
  | nil => exact ⟨[], rfl, fun id => by simp [newRemotes]⟩
  | append_singleton batch last ih =>
      obtain ⟨seen, hfold, hseen⟩ := ih
      have hnew := filter_zipIdx_concat _ (isFirst_concat stored) batch last
      have hrepeated := filter_zipIdx_concat (fun batch item => !isFirst stored batch item)
        (fun batch last item hlt => congrArg not (isFirst_concat stored batch last item hlt)) batch
        last
      rw [← newRemotes, ← newRemotes] at hnew
      rw [← repeatedRemotes, ← repeatedRemotes] at hrepeated
      have hnext : nextSequence next (batch ++ [last]) =
          max (nextSequence next batch) (last.remoteSequence + 1) := by
        simp [nextSequence]
      rw [List.foldl_append, hfold, List.foldl_cons, List.foldl_nil,
        JournalTransaction.acceptRemote, hnew, hrepeated, hnext, isFirst_last]
      dsimp only
      have hlast : last.entry.id ∈ seen ∨ stored last.entry.id = true ↔
          ¬ (!stored last.entry.id && last.entry.id ∉ remoteIds batch) := by
        rw [hseen]
        cases hstored : stored last.entry.id with
        | true => simp
        | false =>
            rw [mem_newRemotes hstored]
            simp
      by_cases hfirst : (!stored last.entry.id &&
          last.entry.id ∉ remoteIds batch) = true
      · rw [if_neg (hlast.not.mpr (not_not.mpr hfirst)), hfirst]
        refine ⟨last.entry.id :: seen, by simp, fun id => ?_⟩
        simp [hseen, or_comm]
      · rw [if_pos (hlast.mpr hfirst), if_neg hfirst, Bool.eq_false_iff.mpr hfirst]
        refine ⟨seen, by simp, fun id => ?_⟩
        simp [hseen]

/-! ## Indexes that agree -/

/-- The entries, the insertion order and the conflict index list the same ids, each once. -/
structure Indexed (state : JournalState ι ρ) : Prop where
  keyed : state.Keyed
  inserted : ∀ id, (state.entries.get? id).isSome ↔ ∃ row, state.HasRow row ∧ rowId row = id
  once : ∀ row row', state.HasRow row → state.HasRow row' → rowId row = rowId row' → row = row'
  conflicts : ∀ event primaryKey id,
    (state.conflicts.get? (toLex (event, toLex (primaryKey, id)))).isSome ↔
      ∃ entry, state.entries.get? id = some entry ∧ entry.event = event ∧
        entry.primaryKey = primaryKey

def laterEntries (order : Entry ι → Entry ι → Ordering) (state : JournalState ι ρ)
    (entry : Entry ι) : List (Entry ι) :=
  (state.entries.entries.map Prod.snd).filter fun other =>
    other.event = entry.event ∧ other.primaryKey = entry.primaryKey ∧ order other entry = .gt

theorem JournalState.Keyed.sorted {state : JournalState ι ρ} (h : state.Keyed) :
    (state.entries.entries.map Prod.snd).Pairwise fun left right => left.id < right.id := by
  rw [List.pairwise_map]
  refine state.entries.sorted.imp_of_mem ?_
  intro left right hleft hright hlt
  rw [h _ _ (OrderedMap.mem_entries.mp hleft), h _ _ (OrderedMap.mem_entries.mp hright)]
  exact hlt

theorem mem_laterEntries {order : Entry ι → Entry ι → Ordering} {state : JournalState ι ρ}
    (hkeyed : state.Keyed) {entry other : Entry ι} :
    other ∈ laterEntries order state entry ↔
      state.entries.get? other.id = some other ∧ other.event = entry.event ∧
        other.primaryKey = entry.primaryKey ∧ order other entry = .gt := by
  rw [laterEntries, List.mem_filter, List.mem_map, decide_eq_true_eq]
  refine and_congr_left fun _ => ?_
  constructor
  · rintro ⟨⟨id, other'⟩, hmem, rfl⟩
    have hget := OrderedMap.mem_entries.mp hmem
    rwa [hkeyed _ _ hget]
  · intro hget
    exact ⟨(other.id, other), OrderedMap.mem_entries.mpr hget, rfl⟩

omit [LinearOrder ι] in
theorem eq_of_sorted_ids [LinearOrder ι] {left right : List (Entry ι)}
    (hleft : left.Pairwise fun first second => first.id < second.id)
    (hright : right.Pairwise fun first second => first.id < second.id)
    (h : ∀ entry, entry ∈ left ↔ entry ∈ right) : left = right := by
  have hnodup {entries : List (Entry ι)}
      (hsorted : entries.Pairwise fun first second => first.id < second.id) : entries.Nodup :=
    hsorted.imp fun hlt heq => hlt.ne (congrArg Entry.id heq)
  have hperm := (List.perm_ext_iff_of_nodup (hnodup hleft) (hnodup hright)).mpr h
  exact hperm.eq_of_pairwise (fun _ _ _ _ hlt hgt => absurd hlt hgt.not_gt) hleft hright

theorem JournalState.Keyed.mapM {state : JournalState ι ρ} (h : state.Keyed) {ids : List ι}
    (hstored : ∀ id ∈ ids, (state.entries.get? id).isSome) :
    ∃ found, ids.mapM state.entries.get? = some found ∧ found.map Entry.id = ids ∧
      ∀ entry ∈ found, state.entries.get? entry.id = some entry := by
  induction ids with
  | nil => exact ⟨[], rfl, rfl, by simp⟩
  | cons id ids ih =>
      obtain ⟨hfirst, hrest⟩ := List.forall_mem_cons.mp hstored
      obtain ⟨entry, hentry⟩ := Option.isSome_iff_exists.mp hfirst
      obtain ⟨found, hfound, hids, hall⟩ := ih hrest
      have hid := h id entry hentry
      refine ⟨entry :: found, by simp [List.mapM_cons, hentry, hfound], by simp [hid, hids], ?_⟩
      exact List.forall_mem_cons.mpr ⟨by rwa [hid], hall⟩

def conflictRange (entry : Entry ι) : String ×ₗ String ×ₗ ι → Bool := fun row =>
  (ofLex row).1 = entry.event ∧ (ofLex (ofLex row).2).1 = entry.primaryKey ∧
    entry.id ≤ (ofLex (ofLex row).2).2

def conflictIds (state : JournalState ι ρ) (entry : Entry ι) : List ι :=
  (state.conflicts.rows (conflictRange entry)).map fun row => (ofLex (ofLex row.1).2).2

theorem conflictRange_eq {entry : Entry ι} {row : String ×ₗ String ×ₗ ι} :
    conflictRange entry row = true ↔
      ∃ id, entry.id ≤ id ∧ row = toLex (entry.event, toLex (entry.primaryKey, id)) := by
  simp only [conflictRange, decide_eq_true_eq]
  constructor
  · rintro ⟨hevent, hprimary, hle⟩
    refine ⟨_, hle, ?_⟩
    rw [← hevent, ← hprimary]
    rfl
  · rintro ⟨id, hle, rfl⟩
    exact ⟨rfl, rfl, hle⟩

theorem mem_conflictIds {state : JournalState ι ρ} {entry : Entry ι} {id : ι} :
    id ∈ conflictIds state entry ↔ entry.id ≤ id ∧
      (state.conflicts.get? (toLex (entry.event, toLex (entry.primaryKey, id)))).isSome := by
  rw [conflictIds, List.mem_map]
  constructor
  · rintro ⟨⟨row, mark⟩, hrow, rfl⟩
    obtain ⟨hrange, hget⟩ := OrderedMap.mem_rows.mp hrow
    obtain ⟨id, hle, rfl⟩ := conflictRange_eq.mp hrange
    exact ⟨hle, Option.isSome_iff_exists.mpr ⟨mark, hget⟩⟩
  · rintro ⟨hle, hsome⟩
    obtain ⟨mark, hget⟩ := Option.isSome_iff_exists.mp hsome
    exact ⟨(_, mark), OrderedMap.mem_rows.mpr ⟨conflictRange_eq.mpr ⟨id, hle, rfl⟩, hget⟩, rfl⟩

theorem sorted_conflictIds (state : JournalState ι ρ) (entry : Entry ι) :
    (conflictIds state entry).Pairwise (· < ·) := by
  rw [conflictIds, List.pairwise_map]
  refine (state.conflicts.rows_sorted _).imp_of_mem ?_
  rintro ⟨left, mark⟩ ⟨right, mark'⟩ hleft hright hlt
  obtain ⟨id, -, rfl⟩ := conflictRange_eq.mp (OrderedMap.mem_rows.mp hleft).1
  obtain ⟨id', -, rfl⟩ := conflictRange_eq.mp (OrderedMap.mem_rows.mp hright).1
  simpa [Prod.Lex.toLex_lt_toLex] using hlt

namespace JournalTransaction

section

variable [DecidableEq ρ]

/-- A transaction that has read, and has appended nothing. -/
structure Reads (transaction next : JournalTransaction ι ρ) : Prop where
  readVersion : next.readVersion = transaction.readVersion
  snapshot : next.snapshot = transaction.snapshot
  mutations : next.mutations = transaction.mutations
  next : next.next = transaction.next

omit [DecidableEq ρ] in
theorem Reads.trans {first second third : JournalTransaction ι ρ} (h : Reads first second)
    (h' : Reads second third) : Reads first third :=
  ⟨h'.readVersion.trans h.readVersion, h'.snapshot.trans h.snapshot,
    h'.mutations.trans h.mutations, h'.next.trans h.next⟩

theorem Reads.view {transaction next : JournalTransaction ι ρ} (h : Reads transaction next) :
    next.view = transaction.view := by
  rw [JournalTransaction.view, JournalTransaction.view, h.readVersion, h.snapshot, h.mutations]

theorem replay_eq {order : Entry ι → Entry ι → Ordering}
    (horder : ∀ entry other, order other entry = .gt → entry.id ≤ other.id) {pageSize : Nat}
    (hpage : 0 < pageSize) {state : JournalState ι ρ} (h : Indexed state)
    {transaction : JournalTransaction ι ρ}
    (hentries : transaction.view.entries = state.entries)
    (hconflicts : transaction.view.conflicts = state.conflicts) (entry : Entry ι) :
    ∃ next, transaction.replay order pageSize entry =
      some (next, laterEntries order state entry) ∧ Reads transaction next := by
  have hids : (transaction.view.conflicts.scan (conflictRange entry) pageSize none).map
      (fun row => (ofLex (ofLex row.1).2).2) = conflictIds state entry := by
    rw [OrderedMap.scan_eq _ _ hpage, OrderedMap.rowsAfter, hconflicts, conflictIds]
    simp
  have hstored : ∀ id ∈ conflictIds state entry, (state.entries.get? id).isSome := by
    intro id hid
    obtain ⟨other, hother, -⟩ := (h.conflicts _ _ _).mp (mem_conflictIds.mp hid).2
    rw [hother]
    rfl
  obtain ⟨found, hfound, hmap, hall⟩ := h.keyed.mapM hstored
  have hlater : (found.filter fun other => order other entry = .gt) =
      laterEntries order state entry := by
    refine eq_of_sorted_ids ?_ (h.keyed.sorted.filter _) fun other => ?_
    · have hsorted := sorted_conflictIds state entry
      rw [← hmap, List.pairwise_map] at hsorted
      exact hsorted.filter _
    · rw [mem_laterEntries h.keyed, List.mem_filter, decide_eq_true_eq]
      constructor
      · rintro ⟨hmem, hgt⟩
        have hget := hall other hmem
        have hid : other.id ∈ conflictIds state entry := hmap ▸ List.mem_map_of_mem hmem
        obtain ⟨other', hother, hevent, hprimary⟩ :=
          (h.conflicts _ _ _).mp (mem_conflictIds.mp hid).2
        rw [hget] at hother
        cases hother
        exact ⟨hget, hevent, hprimary, hgt⟩
      · rintro ⟨hget, hevent, hprimary, hgt⟩
        refine ⟨?_, hgt⟩
        have hid : other.id ∈ conflictIds state entry :=
          mem_conflictIds.mpr ⟨horder _ _ hgt,
            (h.conflicts _ _ _).mpr ⟨other, hget, hevent, hprimary⟩⟩
        rw [← hmap, List.mem_map] at hid
        obtain ⟨other', hmem, hsame⟩ := hid
        have hother := hall other' hmem
        rw [hsame, hget] at hother
        cases hother
        exact hmem
  let reading := (transaction.read
    {key | ∃ id, entry.id ≤ id ∧ key = .conflict entry.event entry.primaryKey id}).read
    {key | ∃ id ∈ (transaction.view.conflicts.scan (conflictRange entry) pageSize none).map
      (fun row => (ofLex (ofLex row.1).2).2), key = .entry id}
  have hreplay : transaction.replay order pageSize entry =
      ((((transaction.view.conflicts.scan (conflictRange entry) pageSize none).map
        (fun row => (ofLex (ofLex row.1).2).2)).mapM transaction.view.entries.get?).map
          fun conflicts => (reading, conflicts.filter fun other => order other entry = .gt)) := rfl
  refine ⟨reading, ?_, ⟨rfl, rfl, rfl, rfl⟩⟩
  rw [hreplay, hentries, hids, hfound, Option.map_some, hlater]

omit [DecidableEq ρ] in
theorem Reads.refl (transaction : JournalTransaction ι ρ) : Reads transaction transaction :=
  ⟨rfl, rfl, rfl, rfl⟩

theorem replayAll_eq {order : Entry ι → Entry ι → Ordering}
    (horder : ∀ entry other, order other entry = .gt → entry.id ≤ other.id) {pageSize : Nat}
    (hpage : 0 < pageSize) {state : JournalState ι ρ} (h : Indexed state)
    (effect : Entry ι → List (Entry ι) → δ → Except ε δ) (compacted : List (Entry ι))
    {transaction : JournalTransaction ι ρ}
    (hentries : transaction.view.entries = state.entries)
    (hconflicts : transaction.view.conflicts = state.conflicts) (data : δ) :
    ∃ next, Reads transaction next ∧
      replayAll order pageSize effect compacted transaction data =
        ((compacted.foldlM (fun data entry => effect entry (laterEntries order state entry) data)
          data).mapError .callback).map fun data => (next, data) := by
  induction compacted generalizing transaction data with
  | nil => exact ⟨transaction, .refl transaction, rfl⟩
  | cons entry compacted ih =>
      obtain ⟨middle, hmiddle, hreads⟩ := replay_eq horder hpage h hentries hconflicts entry
      rw [List.foldlM_cons]
      cases heffect : effect entry (laterEntries order state entry) data with
      | error error =>
          refine ⟨middle, hreads, ?_⟩
          rw [replayAll, hmiddle]
          simp only [heffect]
          rfl
      | ok data' =>
          obtain ⟨next, hnext, hrest⟩ := ih (by rw [hreads.view, hentries])
            (by rw [hreads.view, hconflicts]) data'
          refine ⟨next, hreads.trans hnext, ?_⟩
          rw [replayAll, hmiddle]
          simp only [heffect]
          exact hrest

/-- Mutations that put each of some entries into the three indexes, and no other. -/
structure Inserts (entries : List (Entry ι)) (mutations : List (JournalMutation ι ρ)) : Prop where
  puts : ∀ entry, .putEntry entry ∈ mutations ↔ entry ∈ entries
  conflicts : ∀ event primaryKey id, .markConflict event primaryKey id ∈ mutations ↔
    ∃ entry ∈ entries, entry.event = event ∧ entry.primaryKey = primaryKey ∧ entry.id = id
  rows : ∀ user id, .appendInserted user id ∈ mutations →
    ∃ entry ∈ entries, entry.id = id
  appended : ∀ entry ∈ entries, ∃ user, .appendInserted user entry.id ∈ mutations
  once : ∀ user user' id, .appendInserted user id ∈ mutations →
    .appendInserted user' id ∈ mutations → user = user'

def insertMutations (start : Nat) (entries : List (Entry ι)) : List (JournalMutation ι ρ) :=
  (entries.zipIdx start).flatMap fun item =>
    [.putEntry item.1, .markConflict item.1.event item.1.primaryKey item.1.id,
      .appendInserted item.2 item.1.id]

omit [DecidableEq ρ] in
theorem mutations_insert (transaction : JournalTransaction ι ρ) (entries : List (Entry ι)) :
    (transaction.insert entries false).mutations =
      transaction.mutations ++ insertMutations transaction.next entries := by
  induction entries generalizing transaction with
  | nil => simp [insert, insertMutations]
  | cons entry entries ih =>
      have hrest := ih (insertEntry false transaction entry)
      have hnext : (insertEntry false transaction entry).next = transaction.next + 1 := rfl
      rw [insert, List.foldl_cons, ← insert, hrest, hnext]
      simp [insertEntry, append, mutateAll, insertMutations]

end

end JournalTransaction

namespace JournalState

variable [DecidableEq ρ]

theorem foldl_frame {α : Type} (field : JournalState ι ρ → α) {version : Nat}
    {mutations : List (JournalMutation ι ρ)}
    (h : ∀ mutation ∈ mutations, ∀ state, field (apply version state mutation) = field state)
    (state : JournalState ι ρ) :
    field (mutations.foldl (apply version) state) = field state := by
  induction mutations generalizing state with
  | nil => rfl
  | cons mutation mutations ih =>
      obtain ⟨hfirst, hrest⟩ := List.forall_mem_cons.mp h
      rw [List.foldl_cons, ih hrest, hfirst]

theorem conflict_foldl (version : Nat) (mutations : List (JournalMutation ι ρ))
    (state : JournalState ι ρ) (key : String ×ₗ String ×ₗ ι) :
    ((mutations.foldl (apply version) state).conflicts.get? key).isSome ↔
      (state.conflicts.get? key).isSome ∨ ∃ event primaryKey id,
        .markConflict event primaryKey id ∈ mutations ∧
          key = toLex (event, toLex (primaryKey, id)) := by
  induction mutations generalizing state with
  | nil => simp
  | cons mutation mutations ih =>
      rw [List.foldl_cons, ih]
      cases mutation with
      | markConflict event primaryKey id =>
          simp only [apply, OrderedMap.get?_set, List.mem_cons,
            JournalMutation.markConflict.injEq]
          split_ifs with h
          · simp only [Option.isSome_some, true_or, true_iff]
            exact .inr ⟨event, primaryKey, id, .inl ⟨rfl, rfl, rfl⟩, h⟩
          · constructor
            · rintro (hstored | ⟨event', primaryKey', id', hmem, hkey⟩)
              · exact .inl hstored
              · exact .inr ⟨event', primaryKey', id', .inr hmem, hkey⟩
            · rintro (hstored | ⟨event', primaryKey', id', ⟨rfl, rfl, rfl⟩ | hmem, hkey⟩)
              · exact .inl hstored
              · exact absurd hkey h
              · exact .inr ⟨event', primaryKey', id', hmem, hkey⟩
      | _ => simp [apply]

/-- Entries are stored under their ids, so that writes of one id must agree. -/
theorem entry_foldl (version : Nat) {mutations : List (JournalMutation ι ρ)}
    {state : JournalState ι ρ}
    (hunique : ∀ entry entry', .putEntry entry ∈ mutations → .putEntry entry' ∈ mutations →
      entry.id = entry'.id → entry = entry')
    (hstored : ∀ entry, .putEntry entry ∈ mutations →
      ∀ old, state.entries.get? entry.id = some old → old = entry) (id : ι) (entry : Entry ι) :
    (mutations.foldl (apply version) state).entries.get? id = some entry ↔
      state.entries.get? id = some entry ∨ .putEntry entry ∈ mutations ∧ entry.id = id := by
  induction mutations generalizing state with
  | nil => simp
  | cons mutation mutations ih =>
      have hunique' := fun entry entry' hmem hmem' => hunique entry entry'
        (List.mem_cons_of_mem mutation hmem) (List.mem_cons_of_mem mutation hmem')
      have hrest := fun entry hmem => hstored entry (List.mem_cons_of_mem mutation hmem)
      rw [List.foldl_cons]
      cases mutation with
      | putEntry first =>
          have hfirst := hstored first List.mem_cons_self
          rw [ih hunique']
          · simp only [apply, OrderedMap.get?_set, List.mem_cons, JournalMutation.putEntry.injEq]
            split_ifs with h
            · subst h
              constructor
              · rintro (heq | ⟨hmem, hid⟩)
                · cases heq
                  exact .inr ⟨.inl rfl, rfl⟩
                · exact .inr ⟨.inr hmem, hid⟩
              · rintro (hold | ⟨rfl | hmem, hid⟩)
                · exact .inl (congrArg some (hfirst entry hold).symm)
                · exact .inl rfl
                · exact .inr ⟨hmem, hid⟩
            · constructor
              · rintro (hold | ⟨hmem, hid⟩)
                · exact .inl hold
                · exact .inr ⟨.inr hmem, hid⟩
              · rintro (hold | ⟨rfl | hmem, hid⟩)
                · exact .inl hold
                · exact absurd hid.symm h
                · exact .inr ⟨hmem, hid⟩
          · intro other hmem old hold
            simp only [apply, OrderedMap.get?_set] at hold
            split_ifs at hold with h
            · cases hold
              exact hunique first other List.mem_cons_self (List.mem_cons_of_mem _ hmem) h.symm
            · exact hrest other hmem old hold
      | _ =>
          rw [ih hunique']
          · simp [apply]
          · exact hrest

end JournalState

theorem Indexed.foldl [DecidableEq ρ] {version : Nat} {state : JournalState ι ρ}
    (h : Indexed state) (entries : List (Entry ι)) {mutations : List (JournalMutation ι ρ)}
    (hinserts : JournalTransaction.Inserts entries mutations)
    (hnodup : (entries.map Entry.id).Nodup)
    (hfresh : ∀ entry ∈ entries, state.entries.get? entry.id = none) :
    Indexed (mutations.foldl (JournalState.apply version) state) := by
  have hunique : ∀ entry ∈ entries, ∀ entry' ∈ entries, entry.id = entry'.id → entry = entry' :=
    fun entry hentry entry' hentry' hid => List.inj_on_of_nodup_map hnodup hentry hentry' hid
  have hentries := JournalState.entry_foldl version
    (fun entry entry' hmem hmem' => hunique entry ((hinserts.puts entry).mp hmem) entry'
      ((hinserts.puts entry').mp hmem'))
    (fun entry hmem old hold => by
      rw [hfresh entry ((hinserts.puts entry).mp hmem)] at hold
      cases hold)
  have hnew {id : ι} (hid : ∃ entry ∈ entries, entry.id = id) : ¬ ∃ row, state.HasRow row ∧
      rowId row = id := by
    obtain ⟨entry, hentry, rfl⟩ := hid
    rw [← h.inserted, hfresh entry hentry]
    simp
  constructor
  case keyed => exact JournalState.keyed_foldl version mutations h.keyed
  case inserted =>
    intro id
    simp only [JournalState.hasRow_foldl, Option.isSome_iff_exists, hentries, hinserts.puts]
    constructor
    · rintro ⟨entry, hold | ⟨hmem, rfl⟩⟩
      · obtain ⟨row, hrow, hid⟩ := (h.inserted id).mp (Option.isSome_iff_exists.mpr ⟨entry, hold⟩)
        exact ⟨row, .inl hrow, hid⟩
      · obtain ⟨user, hrow⟩ := hinserts.appended entry hmem
        exact ⟨_, .inr ⟨user, entry.id, hrow, rfl⟩, rfl⟩
    · rintro ⟨row, hold | ⟨user, id', hrow, rfl⟩, rfl⟩
      · obtain ⟨entry, hentry⟩ := Option.isSome_iff_exists.mp ((h.inserted _).mpr ⟨row, hold, rfl⟩)
        exact ⟨entry, .inl hentry⟩
      · obtain ⟨entry, hentry, hid⟩ := hinserts.rows user id' hrow
        exact ⟨entry, .inr ⟨hentry, hid⟩⟩
  case once =>
    intro row row' hrow hrow' hid
    rw [JournalState.hasRow_foldl] at hrow hrow'
    rcases hrow with hrow | ⟨user, id, hmem, rfl⟩ <;>
      rcases hrow' with hrow' | ⟨user', id', hmem', rfl⟩
    · exact h.once row row' hrow hrow' hid
    · exact absurd ⟨row, hrow, hid⟩ (hnew (hinserts.rows user' id' hmem'))
    · exact absurd ⟨row', hrow', hid.symm⟩ (hnew (hinserts.rows user id hmem))
    · obtain rfl : id = id' := hid
      rw [hinserts.once user user' id hmem hmem']
  case conflicts =>
    intro event primaryKey id
    simp only [JournalState.conflict_foldl, h.conflicts, hentries, hinserts.puts,
      hinserts.conflicts]
    constructor
    · rintro (⟨entry, hold, hevent, hprimary⟩ | ⟨event', primaryKey', id', ⟨entry, hmem, hevent,
        hprimary, hid⟩, hkey⟩)
      · exact ⟨entry, .inl hold, hevent, hprimary⟩
      · obtain ⟨rfl, rfl, rfl⟩ : event = event' ∧ primaryKey = primaryKey' ∧ id = id' := by
          simpa using hkey
        exact ⟨entry, .inr ⟨hmem, hid⟩, hevent, hprimary⟩
    · rintro ⟨entry, hold | ⟨hmem, hid⟩, hevent, hprimary⟩
      · exact .inl ⟨entry, hold, hevent, hprimary⟩
      · exact .inr ⟨event, primaryKey, id, ⟨entry, hmem, hevent, hprimary, hid⟩, rfl⟩

namespace JournalTransaction

omit [LinearOrder ι] in
theorem mem_insertMutations {start : Nat} {entries : List (Entry ι)}
    {mutation : JournalMutation ι ρ} :
    mutation ∈ insertMutations start entries ↔ ∃ index entry, entries[index]? = some entry ∧
      (mutation = .putEntry entry ∨
        mutation = .markConflict entry.event entry.primaryKey entry.id ∨
        mutation = .appendInserted (start + index) entry.id) := by
  simp only [insertMutations, List.mem_flatMap, List.mem_cons, List.not_mem_nil, or_false,
    Prod.exists, List.mem_zipIdx_iff_le_and_getElem?_sub]
  constructor
  · rintro ⟨entry, user, ⟨hle, hentry⟩, hmutation⟩
    refine ⟨user - start, entry, hentry, ?_⟩
    rwa [Nat.add_sub_cancel' hle]
  · rintro ⟨index, entry, hentry, hmutation⟩
    refine ⟨entry, start + index, ⟨Nat.le_add_right _ _, ?_⟩, hmutation⟩
    rwa [Nat.add_sub_cancel_left]

omit [LinearOrder ι] in
theorem inserts_insertMutations (start : Nat) {entries : List (Entry ι)}
    (hnodup : (entries.map Entry.id).Nodup) :
    Inserts entries (insertMutations (ρ := ρ) start entries) := by
  constructor
  case puts =>
    intro entry
    rw [mem_insertMutations]
    simp [← List.mem_iff_getElem?]
  case conflicts =>
    intro event primaryKey id
    rw [mem_insertMutations]
    constructor
    · rintro ⟨index, entry, hentry, hmutation⟩
      obtain ⟨rfl, rfl, rfl⟩ : event = entry.event ∧ primaryKey = entry.primaryKey ∧
          id = entry.id := by simpa using hmutation
      exact ⟨entry, List.mem_of_getElem? hentry, rfl, rfl, rfl⟩
    · rintro ⟨entry, hentry, rfl, rfl, rfl⟩
      obtain ⟨index, hindex⟩ := List.mem_iff_getElem?.mp hentry
      exact ⟨index, entry, hindex, by simp⟩
  case rows =>
    intro user id hmem
    simp only [mem_insertMutations, JournalMutation.appendInserted.injEq, reduceCtorEq,
      false_or] at hmem
    obtain ⟨index, entry, hentry, -, rfl⟩ := hmem
    exact ⟨entry, List.mem_of_getElem? hentry, rfl⟩
  case appended =>
    intro entry hentry
    obtain ⟨index, hindex⟩ := List.mem_iff_getElem?.mp hentry
    exact ⟨start + index, mem_insertMutations.mpr ⟨index, entry, hindex, by simp⟩⟩
  case once =>
    intro user user' id hmem hmem'
    simp only [mem_insertMutations, JournalMutation.appendInserted.injEq, reduceCtorEq,
      false_or] at hmem hmem'
    obtain ⟨index, entry, hentry, rfl, rfl⟩ := hmem
    obtain ⟨index', entry', hentry', rfl, hid⟩ := hmem'
    have hsame : (entries.map Entry.id)[index]? = (entries.map Entry.id)[index']? := by
      simp [hentry, hentry', hid]
    have hlt : index < (entries.map Entry.id).length := by
      rw [List.length_map]
      exact (List.getElem?_eq_some_iff.mp hentry).1
    rw [(List.getElem?_inj hlt hnodup).mp hsame]

end JournalTransaction

/-! ## Whole batches -/

abbrev JournalState.isStored (state : JournalState ι ρ) (id : ι) : Bool :=
  (state.entries.get? id).isSome

abbrev JournalState.newEntries (state : JournalState ι ρ) (batch : List (RemoteEntry ι)) :
    List (Entry ι) :=
  (newRemotes state.isStored batch).map RemoteEntry.entry

/-- What a batch leaves of a journal. -/
structure Receives [DecidableEq ρ] (version : Nat) (remote : ρ) (batch : List (RemoteEntry ι))
    (state next : JournalState ι ρ) : Prop where
  entries : ∀ id entry, next.entries.get? id = some entry ↔ state.entries.get? id = some entry ∨
    entry ∈ state.newEntries batch ∧ entry.id = id
  rows : ∀ row, next.HasRow row ↔ state.HasRow row ∨ ∃ index entry,
    (state.newEntries batch)[index]? = some entry ∧ row = orderRow version index entry.id
  acks : ∀ remote' id, (remote', id) ∈ next.acks ↔
    (remote', id) ∈ state.acks ∨ remote' = remote ∧ id ∈ remoteIds batch
  remoteNext : next.remoteNext =
    Function.update state.remoteNext remote (nextSequence (state.remoteNext remote) batch)
  localEntries : next.localEntries = state.localEntries
  localOrder : next.localOrder = state.localOrder
  sentAfter : next.sentAfter = state.sentAfter
  localSignal : next.localSignal = state.localSignal

def remoteMutations (remote : ρ) (batch : List (RemoteEntry ι)) (entries : List (Entry ι))
    (next : Nat) : List (JournalMutation ι ρ) :=
  batch.map (fun entry => .ack remote entry.entry.id) ++
    JournalTransaction.insertMutations 0 entries ++ [.setRemoteNext remote next]

omit [LinearOrder ι] in
theorem mem_remoteMutations {remote : ρ} {batch : List (RemoteEntry ι)} {entries : List (Entry ι)}
    {next : Nat} {mutation : JournalMutation ι ρ} :
    mutation ∈ remoteMutations remote batch entries next ↔
      (∃ entry ∈ batch, mutation = .ack remote entry.entry.id) ∨
        mutation ∈ JournalTransaction.insertMutations 0 entries ∨
          mutation = .setRemoteNext remote next := by
  simp only [remoteMutations, List.mem_append, List.mem_map, List.mem_singleton, or_assoc, eq_comm]

omit [LinearOrder ι] in
theorem inserts_remoteMutations (remote : ρ) (batch : List (RemoteEntry ι))
    {entries : List (Entry ι)} (next : Nat) (hnodup : (entries.map Entry.id).Nodup) :
    JournalTransaction.Inserts entries (remoteMutations remote batch entries next) := by
  have h := JournalTransaction.inserts_insertMutations (ρ := ρ) 0 hnodup
  constructor
  case puts => simpa [remoteMutations] using h.puts
  case conflicts => simpa [remoteMutations] using h.conflicts
  case rows => simpa [remoteMutations] using h.rows
  case appended => simpa [remoteMutations] using h.appended
  case once => simpa [remoteMutations] using h.once

theorem newEntries_fresh (state : JournalState ι ρ) (batch : List (RemoteEntry ι)) :
    ((state.newEntries batch).map Entry.id).Nodup ∧
      ∀ entry ∈ state.newEntries batch, state.entries.get? entry.id = none := by
  obtain ⟨hnodup, hfresh⟩ := nodup_newRemotes state.isStored batch
  refine ⟨by simpa [JournalState.newEntries, Function.comp_def] using hnodup, ?_⟩
  intro entry hentry
  obtain ⟨remote, hremote, rfl⟩ := List.mem_map.mp hentry
  simpa using hfresh remote.entry.id (List.mem_map_of_mem hremote)

section

variable [DecidableEq ρ]

theorem receives_remoteMutations (version : Nat) (remote : ρ) (batch : List (RemoteEntry ι))
    (state : JournalState ι ρ) :
    Receives version remote batch state
      ((remoteMutations remote batch (state.newEntries batch)
        (nextSequence (state.remoteNext remote) batch)).foldl (JournalState.apply version)
          state) := by
  obtain ⟨hnodup, hfresh⟩ := newEntries_fresh state batch
  have hinserts := inserts_remoteMutations remote batch
    (nextSequence (state.remoteNext remote) batch) hnodup
  constructor
  case entries =>
    intro id entry
    rw [JournalState.entry_foldl, hinserts.puts]
    · intro entry entry' hmem hmem' hid
      exact List.inj_on_of_nodup_map hnodup ((hinserts.puts _).mp hmem)
        ((hinserts.puts _).mp hmem') hid
    · intro entry hmem old hold
      rw [hfresh entry ((hinserts.puts _).mp hmem)] at hold
      cases hold
  case rows =>
    intro row
    rw [JournalState.hasRow_foldl]
    simp only [mem_remoteMutations, JournalTransaction.mem_insertMutations]
    refine or_congr_right ⟨?_, ?_⟩
    · rintro ⟨user, id, ⟨_, _, hmutation⟩ | ⟨index, entry, hentry, hmutation⟩ | hmutation, rfl⟩
      · cases hmutation
      · obtain ⟨rfl, rfl⟩ : user = index ∧ id = entry.id := by simpa using hmutation
        exact ⟨user, entry, hentry, rfl⟩
      · cases hmutation
    · rintro ⟨index, entry, hentry, rfl⟩
      exact ⟨index, entry.id, .inr (.inl ⟨index, entry, hentry, by simp⟩), rfl⟩
  case acks =>
    intro remote' id
    rw [JournalState.mem_acks_foldl]
    refine or_congr_right ?_
    constructor
    · intro hmem
      obtain ⟨entry, hentry, rfl, rfl⟩ : ∃ entry ∈ batch, remote' = remote ∧ id = entry.entry.id := by
        simpa [mem_remoteMutations, JournalTransaction.mem_insertMutations] using hmem
      exact ⟨rfl, List.mem_map_of_mem hentry⟩
    · rintro ⟨rfl, hid⟩
      obtain ⟨entry, hentry, rfl⟩ := List.mem_map.mp hid
      exact mem_remoteMutations.mpr (.inl ⟨entry, hentry, rfl⟩)
  case remoteNext =>
    rw [remoteMutations, List.foldl_append, List.foldl_cons, List.foldl_nil]
    refine congrArg (Function.update · remote _) (JournalState.foldl_frame _ ?_ state)
    intro mutation hmem state
    rcases List.mem_append.mp hmem with hack | hinsert
    · obtain ⟨entry, -, rfl⟩ := List.mem_map.mp hack
      rfl
    · obtain ⟨index, entry, -, rfl | rfl | rfl⟩ := JournalTransaction.mem_insertMutations.mp hinsert
      all_goals rfl
  all_goals
    refine JournalState.foldl_frame _ ?_ state
    intro mutation hmem state
    rcases mem_remoteMutations.mp hmem with ⟨entry, -, rfl⟩ | hinsert | rfl
    · rfl
    · obtain ⟨index, entry, -, rfl | rfl | rfl⟩ := JournalTransaction.mem_insertMutations.mp hinsert
      all_goals rfl
    · rfl

omit [DecidableEq ρ] [LinearOrder ι] in
theorem le_nextSequence (next : Nat) (batch : List (RemoteEntry ι)) :
    next ≤ nextSequence next batch := by
  induction batch using List.reverseRecOn with
  | nil => exact le_rfl
  | append_singleton batch last ih =>
      refine ih.trans ?_
      simp [nextSequence]

namespace JournalTransaction

theorem incomingOf_start (readVersion : Nat) (state : JournalState ι ρ) (remote : ρ)
    (batch : List (RemoteEntry ι)) :
    JournalTransaction.incomingOf { readVersion, snapshot := state } remote batch =
      ⟨remote, (repeatedRemotes state.isStored batch).map RemoteEntry.entry,
        newRemotes state.isStored batch, nextSequence (state.remoteNext remote) batch⟩ := by
  obtain ⟨seen, haccept, -⟩ := accept_eq state.isStored remote (state.remoteNext remote) batch
  have hincoming : JournalTransaction.incomingOf { readVersion, snapshot := state } remote batch =
      (batch.foldl (acceptRemote state.isStored)
        ([], ⟨remote, [], [], state.remoteNext remote⟩)).2 := rfl
  rw [hincoming, haccept]

theorem view_beginRemote (readVersion : Nat) (state : JournalState ι ρ) (remote : ρ)
    (batch : List (RemoteEntry ι)) :
    (beginRemote { readVersion, snapshot := state } remote batch).view.entries = state.entries ∧
      (beginRemote { readVersion, snapshot := state } remote batch).view.conflicts =
        state.conflicts := by
  constructor
  all_goals
    refine JournalState.foldl_frame _ ?_ state
    intro mutation hmem state
    obtain ⟨entry, -, rfl⟩ := List.mem_map.mp hmem
    rfl

theorem mutations_finishRemote {readVersion : Nat} {state : JournalState ι ρ} {remote : ρ}
    {batch : List (RemoteEntry ι)} {replayed : JournalTransaction ι ρ}
    (h : Reads (beginRemote { readVersion, snapshot := state } remote batch) replayed)
    (duplicates : List (Entry ι)) (uncommitted : List (RemoteEntry ι)) (next : Nat) :
    (replayed.finishRemote ⟨remote, duplicates, uncommitted, next⟩).mutations =
      remoteMutations remote batch (uncommitted.map RemoteEntry.entry) next := by
  have hmutations : (replayed.finishRemote ⟨remote, duplicates, uncommitted, next⟩).mutations =
      (replayed.insert (uncommitted.map RemoteEntry.entry) false).mutations ++
        [.setRemoteNext remote next] := rfl
  rw [hmutations, mutations_insert, h.mutations, h.next]
  rfl

end JournalTransaction

/-- What the callbacks of a call do with the other data: the compaction gets the new entries, and
each compacted entry comes with the stored entries after it. -/
def RemoteWrite.run (order : Entry ι → Entry ι → Ordering) (state : JournalState ι ρ)
    (options : RemoteWrite ι ρ δ ε) (data : δ) : Except ε δ := do
  let (compacted, data) ← options.compacted (newRemotes state.isStored options.entries) data
  compacted.foldlM (fun data entry => options.effect entry (laterEntries order state entry) data)
    data

theorem writeFromRemote_eq (order : Entry ι → Entry ι → Ordering)
    (horder : ∀ entry other, order other entry = .gt → entry.id ≤ other.id) {pageSize : Nat}
    (hpage : 0 < pageSize) (readVersion version : Nat) (options : RemoteWrite ι ρ δ ε)
    {state : JournalState ι ρ} (h : Indexed state) (data : δ) :
    state.writeFromRemote order pageSize readVersion version options data =
      match options.run order state data with
      | .error error => ((state, data), .error (.callback error))
      | .ok data' =>
        if 2 ^ 16 < (state.newEntries options.entries).length then
          ((state, data), .error (.journal ⟨"order.append",
            "versionstamp user version must be an unsigned 16-bit integer"⟩))
        else
          (((remoteMutations options.remoteId options.entries (state.newEntries options.entries)
            (nextSequence (state.remoteNext options.remoteId) options.entries)).foldl
              (JournalState.apply version) state, data'),
            .ok ((repeatedRemotes state.isStored options.entries).map RemoteEntry.entry)) := by
  obtain ⟨hentries, hconflicts⟩ :=
    JournalTransaction.view_beginRemote readVersion state options.remoteId options.entries
  have hincoming :=
    JournalTransaction.incomingOf_start readVersion state options.remoteId options.entries
  unfold RemoteWrite.run JournalState.writeFromRemote JournalTransaction.writeFromRemote
  simp only [hincoming]
  cases hcompacted : options.compacted (newRemotes state.isStored options.entries) data with
  | error error => rfl
  | ok result =>
      obtain ⟨compacted, data'⟩ := result
      obtain ⟨replayed, hreads, hreplayed⟩ := JournalTransaction.replayAll_eq horder hpage h
        options.effect compacted hentries hconflicts data'
      simp only [Except.mapError, Bind.bind, Except.bind, hreplayed]
      cases hrun : compacted.foldlM
        (fun data entry => options.effect entry (laterEntries order state entry) data) data' with
      | error error => rfl
      | ok data'' =>
          have hnext : replayed.next = 0 := hreads.next
          simp only [Except.map, hnext, Nat.zero_add, List.length_map]
          by_cases hfull : 2 ^ 16 < (newRemotes state.isStored options.entries).length
          · simp only [if_pos hfull]
          · simp only [if_neg hfull, JournalTransaction.mutations_finishRemote hreads]

/-- The new entries of a batch in all three indexes. -/
theorem Indexed.receive {state : JournalState ι ρ} (h : Indexed state) (version : Nat)
    (remote : ρ) (batch : List (RemoteEntry ι)) (next : Nat) :
    Indexed ((remoteMutations remote batch (state.newEntries batch) next).foldl
      (JournalState.apply version) state) := by
  obtain ⟨hnodup, hfresh⟩ := newEntries_fresh state batch
  exact h.foldl _ (inserts_remoteMutations remote batch next hnodup) hnodup hfresh

/-! ## Reachable journals -/

/-- Calls one after another. The ids of local entries are new. -/
inductive JournalStep (δ ε : Type) (order : Entry ι → Entry ι → Ordering) (pageSize : Nat) :
    JournalState ι ρ → JournalState ι ρ → Prop where
  | write {state : JournalState ι ρ} (readVersion version : Nat) (entry : Entry ι)
      (hnew : state.entries.get? entry.id = none) :
      JournalStep δ ε order pageSize state
        ((JournalTransaction.write { readVersion, snapshot := state } entry).mutations.foldl
          (JournalState.apply version) state)
  | writeFromRemote {state : JournalState ι ρ} (readVersion version : Nat)
      (options : RemoteWrite ι ρ δ ε) (data : δ) :
      JournalStep δ ε order pageSize state
        (state.writeFromRemote order pageSize readVersion version options data).1.1
  | withRemoteUncommited {state : JournalState ι ρ} (readVersion version : Nat) (remote : ρ)
      {begun : JournalTransaction ι ρ} {call : Outgoing ι ρ}
      (hbegin : JournalTransaction.beginUncommited { readVersion, snapshot := state } order
        pageSize remote = some begun) (hcall : call ∈ begun.outgoing) :
      JournalStep δ ε order pageSize state
        ((begun.finishUncommited call).mutations.foldl (JournalState.apply version) state)
  | destroy {state : JournalState ι ρ} :
      JournalStep δ ε order pageSize state state.destroy

omit [DecidableEq ρ] in
theorem indexed_of_empty {state : JournalState ι ρ} (hentries : state.entries = ∅)
    (hinserted : state.inserted = ∅) (hconflicts : state.conflicts = ∅) : Indexed state := by
  constructor <;> simp [JournalState.Keyed, JournalState.HasRow, hentries, hinserted, hconflicts]

theorem Indexed.step {order : Entry ι → Entry ι → Ordering}
    (horder : ∀ entry other, order other entry = .gt → entry.id ≤ other.id) {pageSize : Nat}
    (hpage : 0 < pageSize) {state next : JournalState ι ρ} (h : Indexed state)
    (hstep : JournalStep δ ε order pageSize state next) : Indexed next := by
  cases hstep with
  | write readVersion version entry hnew =>
      refine h.foldl [entry] ?_ (List.nodup_singleton _) (by simpa using hnew)
      have hmutations : (JournalTransaction.write (ρ := ρ)
          { readVersion, snapshot := state } entry).mutations =
          [.putEntry entry, .markConflict entry.event entry.primaryKey entry.id,
            .appendInserted 0 entry.id, .appendLocal 0 entry.id, .putLocal entry, .notifyLocal] :=
        rfl
      rw [hmutations]
      constructor
      case conflicts => simp [eq_comm]
      all_goals simp +contextual
  | writeFromRemote readVersion version options data =>
      rw [writeFromRemote_eq order horder hpage readVersion version options h data]
      split
      · exact h
      · split
        · exact h
        · exact h.receive version options.remoteId options.entries _
  | withRemoteUncommited readVersion version remote hbegin hcall =>
      have hkeyed : (JournalTransaction.view { readVersion, snapshot := state }).Keyed := h.keyed
      obtain ⟨_, _, rfl, -⟩ := JournalTransaction.beginUncommited_spec hkeyed hbegin
      refine h.foldl [] ?_ List.nodup_nil (by simp)
      constructor <;> simp [JournalTransaction.finishUncommited, JournalTransaction.mutateAll]
  | destroy => exact indexed_of_empty rfl rfl rfl

theorem indexed_of_run {order : Entry ι → Entry ι → Ordering}
    (horder : ∀ entry other, order other entry = .gt → entry.id ≤ other.id) {pageSize : Nat}
    (hpage : 0 < pageSize) {state : JournalState ι ρ}
    (h : Relation.ReflTransGen (JournalStep δ ε order pageSize) .empty state) : Indexed state := by
  induction h with
  | refl => exact indexed_of_empty rfl rfl rfl
  | tail _ hstep ih => exact ih.step horder hpage hstep

/-! ## Batches that are applied -/

/-- A batch is applied once and as a whole, or not at all. -/
theorem writeFromRemote_applies (order : Entry ι → Entry ι → Ordering)
    (horder : ∀ entry other, order other entry = .gt → entry.id ≤ other.id) {pageSize : Nat}
    (hpage : 0 < pageSize) (readVersion version : Nat) (options : RemoteWrite ι ρ δ ε)
    {state : JournalState ι ρ} (h : Indexed state) (data : δ) :
    match options.run order state data with
    | .error error =>
        state.writeFromRemote order pageSize readVersion version options data =
          ((state, data), .error (.callback error))
    | .ok data' =>
        if 2 ^ 16 < (state.newEntries options.entries).length then
          state.writeFromRemote order pageSize readVersion version options data =
            ((state, data), .error (.journal ⟨"order.append",
              "versionstamp user version must be an unsigned 16-bit integer"⟩))
        else ∃ next,
          state.writeFromRemote order pageSize readVersion version options data =
            ((next, data'),
              .ok ((repeatedRemotes state.isStored options.entries).map RemoteEntry.entry)) ∧
          Receives version options.remoteId options.entries state next ∧
          state.remoteNext options.remoteId ≤ next.remoteNext options.remoteId ∧ Indexed next := by
  have heq := writeFromRemote_eq order horder hpage readVersion version options h data
  cases hrun : options.run order state data with
  | error error => simpa only [hrun] using heq
  | ok data' =>
      simp only [hrun] at heq
      dsimp only
      split
      · next hfull => rwa [if_pos hfull] at heq
      · next hroom =>
          rw [if_neg hroom] at heq
          have hreceives :=
            receives_remoteMutations version options.remoteId options.entries state
          refine ⟨_, heq, hreceives, ?_, h.receive version options.remoteId options.entries _⟩
          rw [hreceives.remoteNext, Function.update_self]
          exact le_nextSequence _ _

def renamed (id : Nat) : Entry Nat := ⟨id, "Renamed", "user-1", []⟩

def writtenJournal : JournalState Nat Nat :=
  ((JournalTransaction.write { readVersion := 0, snapshot := .empty } (renamed 5)).mutations).foldl
    (JournalState.apply 1) .empty

def notingWrite : RemoteWrite Nat Nat (List (Nat × List Nat)) Empty where
  remoteId := 1
  entries := [⟨7, renamed 3⟩, ⟨8, renamed 5⟩, ⟨2, renamed 3⟩]
  effect := fun entry conflicts data => .ok (data ++ [(entry.id, conflicts.map Entry.id)])

theorem writeFromRemote_applies_noting : ∃ next : JournalState Nat Nat,
    writtenJournal.writeFromRemote byId 1 1 2 notingWrite [] =
      ((next, [(3, [5])]), .ok [renamed 5, renamed 3]) ∧
    Receives 2 1 notingWrite.entries writtenJournal next ∧ next.remoteNext 1 = 9 ∧
    Indexed next := by
  have horder : ∀ entry other, byId other entry = .gt → entry.id ≤ other.id := by
    intro entry other hgt
    exact (compare_gt_iff_gt.mp hgt).le
  have hstep : JournalStep Unit Empty byId 1 (.empty : JournalState Nat Nat) writtenJournal :=
    .write 0 1 (renamed 5) rfl
  have hwritten : Indexed writtenJournal :=
    (indexed_of_empty rfl rfl rfl).step horder Nat.one_pos hstep
  have happlies := writeFromRemote_applies byId horder Nat.one_pos 1 2 notingWrite hwritten []
  have hrun : notingWrite.run byId writtenJournal [] = .ok [(3, [5])] := rfl
  have hroom : ¬ 2 ^ 16 < (writtenJournal.newEntries notingWrite.entries).length := by decide
  rw [hrun] at happlies
  dsimp only at happlies
  rw [if_neg hroom] at happlies
  obtain ⟨next, hnext, hreceives, -, hindexed⟩ := happlies
  refine ⟨next, hnext, hreceives, ?_, hindexed⟩
  rw [hreceives.remoteNext]
  rfl

end

end FoundationDbEffect.EventLog
