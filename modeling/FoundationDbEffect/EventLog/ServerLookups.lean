import FoundationDbEffect.EventLog.ServerStreams
import FoundationDbEffect.Foundation.Fallible

/-!
# Entries by id

Next to its log a plain server keeps an index of the ids of each store, and a record of each id.
A read of the entries from one on reads the index in pages, and then the records.
-/

namespace FoundationDbEffect.EventLog.Server

open FoundationDbEffect.Foundation

section

variable {θ σ ι τ : Type} [LinearOrder θ] [LinearOrder σ] [LinearOrder ι]

def idsFrom (store : σ) (first : ι) : σ ×ₗ ι → Bool :=
  fun path => (ofLex path).1 = store && first ≤ (ofLex path).2

def PlainRows.all (state : PlainRows σ ι) (options : RepositoryOptions) (store : σ) (first : ι) :
    List ι :=
  (state.rows.ids.scan (idsFrom store first) options.pageSize none).map fun row => (ofLex row.1).2

def PlainRows.required (state : PlainRows σ ι) (store : σ) (id : ι) :
    Except EventJournalError (Entry ι) :=
  match state.byId.get? (toLex (store, id)) with
  | none => .error ⟨"read", "Missing indexed event-log record"⟩
  | some entry => .ok entry

def entriesAfter (options : RepositoryOptions) (store : σ) (entry : Entry ι)
    (state : PlainRows σ ι) : Except EventJournalError (List (Entry ι)) :=
  (state.all options store entry.id).mapM (state.required store)

variable {state : PlainRows σ ι} {store : σ} {log : List (RemoteEntry ι)}

theorem HoldsPlain.mem_all (h : HoldsPlain state store log) (options : RepositoryOptions)
    (first id : ι) : id ∈ state.all options store first ↔ first ≤ id ∧ id ∈ logIds log := by
  rw [PlainRows.all, OrderedMap.scan_eq _ _ options.pageSize_pos, List.mem_map, ← h.ids]
  constructor
  · rintro ⟨⟨path, mark⟩, hmem, rfl⟩
    obtain ⟨hrange, hget⟩ := OrderedMap.mem_rows.mp hmem
    obtain ⟨hstore, hfirst⟩ := Bool.and_eq_true_iff.mp (Bool.and_eq_true_iff.mp hrange).1
    obtain rfl : (ofLex path).1 = store := of_decide_eq_true hstore
    exact ⟨of_decide_eq_true hfirst, Option.isSome_iff_exists.mpr ⟨mark, hget⟩⟩
  · rintro ⟨hfirst, hmark⟩
    obtain ⟨mark, hget⟩ := Option.isSome_iff_exists.mp hmark
    have hrange : idsFrom store first (toLex (store, id)) = true :=
      Bool.and_eq_true_iff.mpr ⟨decide_eq_true rfl, decide_eq_true hfirst⟩
    exact ⟨(toLex (store, id), mark),
      OrderedMap.mem_rows.mpr ⟨Bool.and_eq_true_iff.mpr ⟨hrange, rfl⟩, hget⟩, rfl⟩

theorem all_sorted (state : PlainRows σ ι) (options : RepositoryOptions) (store : σ) (first : ι) :
    (state.all options store first).Pairwise (· < ·) := by
  rw [PlainRows.all, OrderedMap.scan_eq _ _ options.pageSize_pos, List.pairwise_map]
  refine (state.rows.ids.rows_sorted _).imp_of_mem ?_
  intro left right hleft hright hlt
  have hstore {row : (σ ×ₗ ι) × Unit}
      (hrow : row ∈ state.rows.ids.rowsAfter (idsFrom store first) none) :
      (ofLex row.1).1 = store := by
    have hrange := (Bool.and_eq_true_iff.mp (OrderedMap.mem_rows.mp hrow).1).1
    exact of_decide_eq_true (Bool.and_eq_true_iff.mp hrange).1
  rcases Prod.Lex.lt_iff.mp hlt with hlt | ⟨-, hlt⟩
  · rw [hstore hleft, hstore hright] at hlt
    exact absurd hlt (lt_irrefl store)
  · exact hlt

theorem HoldsPlain.mem_log (h : HoldsPlain state store log) (entry : Entry ι) :
    entry ∈ log.map RemoteEntry.entry ↔ ∃ sequence,
      state.rows.entries.get? (toLex (store, sequence)) = some ⟨sequence, entry⟩ := by
  constructor
  · intro hmem
    obtain ⟨remote, hremote, rfl⟩ := List.mem_map.mp hmem
    obtain ⟨index, hindex⟩ := List.mem_iff_getElem?.mp hremote
    have hsequence : remote.remoteSequence = 1 + index := h.numbered index remote hindex
    refine ⟨1 + index, ?_⟩
    rw [h.entries, if_pos (Nat.le_add_right 1 index), Nat.add_sub_cancel_left, hindex, ← hsequence]
  · rintro ⟨sequence, hentry⟩
    rw [h.entries] at hentry
    split_ifs at hentry
    exact List.mem_map.mpr ⟨_, List.mem_of_getElem? hentry, rfl⟩

theorem HoldsPlain.entriesAfter_eq (h : HoldsPlain state store log) (options : RepositoryOptions)
    (entry : Entry ι) : entriesAfter options store entry state =
      .ok ((state.all options store entry.id).filterMap fun id =>
        state.byId.get? (toLex (store, id))) := by
  refine mapM_of_forall₂ ?_
  have hstored : ∀ id ∈ state.all options store entry.id,
      ∃ stored, state.byId.get? (toLex (store, id)) = some stored := by
    intro id hid
    obtain ⟨remote, hremote, hsame⟩ := List.mem_map.mp ((h.mem_all options entry.id id).mp hid).2
    exact ⟨remote.entry, (h.byId id remote.entry).mpr ⟨hsame, List.mem_map_of_mem hremote⟩⟩
  generalize state.all options store entry.id = ids at hstored
  induction ids with
  | nil => exact .nil
  | cons id ids ih =>
      obtain ⟨stored, hid⟩ := hstored id List.mem_cons_self
      rw [List.filterMap_cons, hid]
      refine .cons ?_ (ih fun other hother => hstored other (List.mem_cons_of_mem _ hother))
      rw [PlainRows.required, hid]

end

section

variable {θ σ ι τ : Type} [LinearOrder θ] [LinearOrder σ] [LinearOrder ι]

/-- In every state between the writes of all transactions, a read of the entries from one on finds
each record of the index and returns the entries that the log of the store has from that id on,
each once and in the order of their ids. -/
theorem entriesAfter_reads {idString : ι → String} (hid : Function.Injective idString)
    {state within : ServerState θ σ ι τ} (h : Reachable idString state)
    {calls : List (ServerCall θ σ ι τ)} (hrun : state.run idString calls = .ok within)
    (options : RepositoryOptions) (store : σ) (entry : Entry ι) : ∃ entries,
      entriesAfter options store entry within.plain = .ok entries ∧
        entries.Pairwise (fun left right => left.id < right.id) ∧
        ∀ stored, stored ∈ entries ↔ entry.id ≤ stored.id ∧ ∃ sequence,
          within.plain.rows.entries.get? (toLex (store, sequence)) = some ⟨sequence, stored⟩ := by
  obtain ⟨log, hlog⟩ := ((h.hasLogs hid).run hid hrun).plain store
  refine ⟨_, hlog.entriesAfter_eq options entry, ?_, fun stored => ?_⟩
  · refine List.Pairwise.filterMap _ ?_ (all_sorted within.plain options store entry.id)
    intro left right hlt stored hstored other hother
    rw [((hlog.byId left stored).mp hstored).1, ((hlog.byId right other).mp hother).1]
    exact hlt
  · rw [← hlog.mem_log, List.mem_filterMap]
    constructor
    · rintro ⟨id, hmem, hstored⟩
      obtain ⟨rfl, hentry⟩ := (hlog.byId id stored).mp hstored
      exact ⟨((hlog.mem_all options entry.id stored.id).mp hmem).1, hentry⟩
    · rintro ⟨hfirst, hentry⟩
      refine ⟨stored.id, (hlog.mem_all options entry.id stored.id).mpr ⟨hfirst, ?_⟩,
        (hlog.byId stored.id stored).mpr ⟨rfl, hentry⟩⟩
      obtain ⟨remote, hremote, rfl⟩ := List.mem_map.mp hentry
      exact List.mem_map_of_mem hremote

/-- Two entries that were written in the other order of their ids. -/
theorem entriesAfter_reads_reordered : ∃ within : ServerState String String String Nat,
    ({} : ServerState String String String Nat).run id
      [.writePlain {} "store" [⟨"b", "event", "key", []⟩, ⟨"a", "event", "key", []⟩]] =
        .ok within ∧
      ∃ entries, entriesAfter ⟨1, by decide⟩ "store" ⟨"a", "event", "key", []⟩ within.plain =
        .ok entries ∧ entries.Pairwise (fun left right => left.id < right.id) ∧
        ∀ stored, stored ∈ entries ↔ "a" ≤ stored.id ∧ ∃ sequence,
          within.plain.rows.entries.get? (toLex ("store", sequence)) = some ⟨sequence, stored⟩ := by
  have hrun : ∃ within : ServerState String String String Nat,
      ({} : ServerState String String String Nat).run id
        [.writePlain {} "store" [⟨"b", "event", "key", []⟩, ⟨"a", "event", "key", []⟩]] =
          .ok within := ⟨_, rfl⟩
  obtain ⟨within, hwithin⟩ := hrun
  exact ⟨within, hwithin, entriesAfter_reads Function.injective_id .empty hwithin _ _ _⟩

end

end FoundationDbEffect.EventLog.Server
