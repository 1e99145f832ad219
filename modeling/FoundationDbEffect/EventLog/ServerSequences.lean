import FoundationDbEffect.EventLog.Server

/-!
# Sequences of event-log servers

What a server stores for a tenant is a log: its entries stand at the sequences from the base of
the server on, without gaps, and the index of ids has the ids of the log, each of one entry.
A write appends to the log of its tenant and to no other.
-/

namespace FoundationDbEffect.EventLog.Server

open FoundationDbEffect.Foundation

/-! ## Lookups -/

theorem hasPages_eq {α : Type} [LinearOrder α] (index : OrderedMap α Unit) {pageSize : Nat}
    (hpage : 0 < pageSize) (fuel : Nat) (paths : List α) (hfuel : paths.length ≤ fuel) :
    hasPages index pageSize fuel paths = paths.map fun path => (index.get? path).isSome := by
  induction fuel generalizing paths with
  | zero => simp [hasPages, List.length_eq_zero_iff.mp (Nat.le_zero.mp hfuel)]
  | succ fuel ih =>
      rw [hasPages]
      split
      · next hnil => simp [List.length_eq_zero_iff.mp hnil]
      · have hrest : (paths.drop pageSize).length ≤ fuel := by
          rw [List.length_drop]
          omega
        rw [ih _ hrest, ← List.map_append, List.take_append_drop]

theorem hasMany_eq {α : Type} [LinearOrder α] (options : RepositoryOptions)
    (index : OrderedMap α Unit) (paths : List α) :
    hasMany options index paths = paths.map fun path => (index.get? path).isSome :=
  hasPages_eq index options.pageSize_pos _ paths (Nat.le_refl _)

theorem zip_hasMany {α β : Type} [LinearOrder α] (options : RepositoryOptions)
    (index : OrderedMap α Unit) (path : β → α) (entries : List β) :
    entries.zip (hasMany options index (entries.map path)) =
      entries.map fun entry => (entry, (index.get? (path entry)).isSome) := by
  rw [hasMany_eq, List.map_map]
  nth_rewrite 1 [← List.map_id entries]
  exact List.zip_map'

/-! ## Logs -/

class LogEntry (ε : Type) (ι : outParam Type) where
  sequence : ε → Nat
  id : ε → ι

section

variable {θ σ ι τ ε : Type} [LinearOrder θ] [LinearOrder σ] [LinearOrder ι]

instance : LogEntry (EncryptedRemoteEntry ι τ) ι :=
  ⟨fun entry => entry.sequence, fun entry => entry.entryId⟩

instance : LogEntry (RemoteEntry ι) ι :=
  ⟨fun entry => entry.remoteSequence, fun entry => entry.entry.id⟩

variable [LogEntry ε ι]

abbrev logIds (log : List ε) : List ι := log.map LogEntry.id

/-- The rows of a tenant are those of a log. -/
structure HoldsLog (rows : Rows θ ι ε) (tenant : θ) (base : Nat) (log : List ε) : Prop where
  sequences : ∀ sequence, (rows.sequences.get? (toLex (tenant, sequence))).isSome ↔
    base ≤ sequence ∧ sequence < base + log.length
  entries : ∀ sequence, rows.entries.get? (toLex (tenant, sequence)) =
    if base ≤ sequence then log[sequence - base]? else none
  ids : ∀ id, (rows.ids.get? (toLex (tenant, id))).isSome ↔ id ∈ logIds log
  nodup : (logIds log).Nodup
  numbered : ∀ index entry, log[index]? = some entry → LogEntry.sequence entry = base + index

structure Holds (rows : Rows θ ι ε) (tenant : θ) (base : Nat) (log : List ε) : Prop
    extends HoldsLog rows tenant base log where
  next : rows.number tenant base = base + log.length

structure SameTenant (rows rows' : Rows θ ι ε) (tenant : θ) : Prop where
  next : rows'.next.get? tenant = rows.next.get? tenant
  entries : ∀ sequence, rows'.entries.get? (toLex (tenant, sequence)) =
    rows.entries.get? (toLex (tenant, sequence))
  sequences : ∀ sequence, rows'.sequences.get? (toLex (tenant, sequence)) =
    rows.sequences.get? (toLex (tenant, sequence))
  ids : ∀ id, rows'.ids.get? (toLex (tenant, id)) = rows.ids.get? (toLex (tenant, id))
  signals : rows'.signals.get? tenant = rows.signals.get? tenant

omit [LogEntry ε ι] in
theorem SameTenant.refl (rows : Rows θ ι ε) (tenant : θ) : SameTenant rows rows tenant :=
  ⟨rfl, fun _ => rfl, fun _ => rfl, fun _ => rfl, rfl⟩

omit [LogEntry ε ι] in
theorem SameTenant.trans {first second third : Rows θ ι ε} {tenant : θ}
    (h : SameTenant first second tenant) (h' : SameTenant second third tenant) :
    SameTenant first third tenant where
  next := h'.next.trans h.next
  entries sequence := (h'.entries sequence).trans (h.entries sequence)
  sequences sequence := (h'.sequences sequence).trans (h.sequences sequence)
  ids id := (h'.ids id).trans (h.ids id)
  signals := h'.signals.trans h.signals

theorem HoldsLog.congr {rows rows' : Rows θ ι ε} {tenant : θ} {base : Nat} {log : List ε}
    (h : HoldsLog rows tenant base log) (hsame : SameTenant rows rows' tenant) :
    HoldsLog rows' tenant base log where
  sequences sequence := by rw [hsame.sequences, h.sequences]
  entries sequence := by rw [hsame.entries, h.entries]
  ids id := by rw [hsame.ids, h.ids]
  nodup := h.nodup
  numbered := h.numbered

theorem Holds.congr {rows rows' : Rows θ ι ε} {tenant : θ} {base : Nat} {log : List ε}
    (h : Holds rows tenant base log) (hsame : SameTenant rows rows' tenant) :
    Holds rows' tenant base log where
  toHoldsLog := h.toHoldsLog.congr hsame
  next := by rw [Rows.number, hsame.next, ← Rows.number, h.next]

theorem holds_empty (tenant : θ) (base : Nat) : Holds ({} : Rows θ ι ε) tenant base [] where
  sequences sequence := by simp
  entries sequence := by simp
  ids id := by simp
  nodup := .nil
  numbered := by simp
  next := rfl

omit [LogEntry ε ι] in
theorem append_sameTenant {rows : Rows θ ι ε} {tenant other : θ} (h : other ≠ tenant)
    (sequence : Nat) (id : ι) (entry : ε) :
    SameTenant rows (rows.append tenant sequence id entry) other where
  next := rfl
  entries sequence' := OrderedMap.get?_set_of_ne _ _ (by simp [h])
  sequences sequence' := OrderedMap.get?_set_of_ne _ _ (by simp [h])
  ids id' := OrderedMap.get?_set_of_ne _ _ (by simp [h])
  signals := rfl

omit [LogEntry ε ι] in
theorem setNumber_sameTenant {rows : Rows θ ι ε} {tenant other : θ} (h : other ≠ tenant)
    (value : Nat) : SameTenant rows ((rows.setNumber tenant value).notify tenant) other where
  next := OrderedMap.get?_set_of_ne _ _ h
  entries _ := rfl
  sequences _ := rfl
  ids _ := rfl
  signals := OrderedMap.get?_set_of_ne _ _ h

theorem HoldsLog.append {rows : Rows θ ι ε} {tenant : θ} {base : Nat} {log : List ε}
    (h : HoldsLog rows tenant base log) {entry : ε}
    (hnew : LogEntry.id entry ∉ logIds log)
    (hsequence : LogEntry.sequence entry = base + log.length) :
    HoldsLog (rows.append tenant (base + log.length) (LogEntry.id entry) entry) tenant base
      (log ++ [entry]) where
  sequences sequence := by
    rw [Rows.append, OrderedMap.get?_set]
    by_cases heq : sequence = base + log.length
    · simp [heq]
    · rw [if_neg (by simpa using heq), h.sequences, List.length_append, List.length_singleton]
      omega
  entries sequence := by
    rw [Rows.append, OrderedMap.get?_set]
    by_cases heq : sequence = base + log.length
    · simp [heq]
    · rw [if_neg (by simpa using heq), h.entries]
      split
      · next hbase =>
          rcases Nat.lt_or_ge (sequence - base) log.length with hlt | hge
          · rw [List.getElem?_append_left hlt]
          · rw [List.getElem?_eq_none hge, List.getElem?_eq_none]
            rw [List.length_append, List.length_singleton]
            omega
      · rfl
  ids id := by
    rw [Rows.append, OrderedMap.get?_set]
    by_cases heq : id = LogEntry.id entry
    · simp [heq]
    · rw [if_neg (by simpa using heq), h.ids]
      simp [heq]
  nodup := by
    rw [logIds, List.map_append, List.nodup_append]
    refine ⟨h.nodup, by simp, ?_⟩
    intro id hid other hother
    rw [List.map_singleton, List.mem_singleton] at hother
    rintro rfl
    exact hnew (hother ▸ hid)
  numbered index entry' hentry := by
    rw [List.getElem?_append] at hentry
    split at hentry
    · exact h.numbered index entry' hentry
    · next hge =>
        obtain ⟨hlt, heq⟩ := List.getElem?_eq_some_iff.mp hentry
        rw [List.length_singleton] at hlt
        have hindex : index = log.length := by omega
        subst hindex
        simp only [Nat.sub_self, List.getElem_singleton] at heq
        rw [← heq, hsequence]

theorem HoldsLog.setNumber {rows : Rows θ ι ε} {tenant : θ} {base : Nat} {log : List ε}
    (h : HoldsLog rows tenant base log) :
    Holds ((rows.setNumber tenant (base + log.length)).notify tenant) tenant base log where
  sequences := h.sequences
  entries := h.entries
  ids := h.ids
  nodup := h.nodup
  numbered := h.numbered
  next := by simp [Rows.number, Rows.notify, Rows.setNumber]

end

/-! ## Encrypted writes -/

section

variable {θ σ ι τ : Type} [LinearOrder θ] [LinearOrder σ] [LinearOrder ι]

/-- The entries of a batch whose ids are not stored, of several with one id the first. -/
def newEntries (stored : List ι) (entries : List (PersistedEntry ι τ)) :
    List (PersistedEntry ι τ) :=
  (entries.filter fun entry => !stored.contains entry.entryId).eraseDupsBy
    fun left right => left.entryId == right.entryId

def numberEncrypted (first : Nat) (entries : List (PersistedEntry ι τ)) :
    List (EncryptedRemoteEntry ι τ) :=
  (entries.zipIdx first).map fun (entry, sequence) => { entry with sequence }

omit [LinearOrder ι] in
theorem numberEncrypted_cons (first : Nat) (entry : PersistedEntry ι τ)
    (entries : List (PersistedEntry ι τ)) :
    numberEncrypted first (entry :: entries) =
      { entry with sequence := first } :: numberEncrypted (first + 1) entries := rfl

theorem newEntries_cons_stored {stored : List ι} {entry : PersistedEntry ι τ}
    (h : entry.entryId ∈ stored) (entries : List (PersistedEntry ι τ)) :
    newEntries stored (entry :: entries) = newEntries stored entries := by
  simp [newEntries, h]

theorem newEntries_cons_new {stored : List ι} {entry : PersistedEntry ι τ}
    (h : entry.entryId ∉ stored) (entries : List (PersistedEntry ι τ)) :
    newEntries stored (entry :: entries) =
      entry :: newEntries (stored ++ [entry.entryId]) entries := by
  unfold newEntries
  rw [List.filter_cons_of_pos (by simpa using h), List.eraseDupsBy_cons, List.filter_filter]
  congr 2
  apply List.filter_congr
  intro other _
  rw [Bool.eq_iff_iff]
  simp [and_comm]

theorem appendEncrypted_spec {idString : ι → String} (hid : Function.Injective idString)
    {tenant : θ} {base : Nat} (pairs : List (PersistedEntry ι τ × Bool)) (seen : List String)
    {rows : Rows θ ι (EncryptedRemoteEntry ι τ)} {log : List (EncryptedRemoteEntry ι τ)}
    (h : HoldsLog rows tenant base log)
    (hpairs : ∀ pair ∈ pairs, (pair.2 || seen.contains (idString pair.1.entryId)) = true ↔
      pair.1.entryId ∈ logIds log) :
    ∃ rows', appendEncrypted idString tenant pairs seen (base + log.length) rows =
        (rows', base + log.length + (newEntries (logIds log) (pairs.map Prod.fst)).length,
          numberEncrypted (base + log.length) (newEntries (logIds log) (pairs.map Prod.fst))) ∧
      HoldsLog rows' tenant base (log ++ numberEncrypted (base + log.length)
        (newEntries (logIds log) (pairs.map Prod.fst))) ∧
      rows'.next = rows.next ∧ ∀ other, other ≠ tenant → SameTenant rows rows' other := by
  induction pairs generalizing seen rows log with
  | nil =>
      refine ⟨rows, rfl, ?_, rfl, fun other _ => .refl rows other⟩
      simpa [newEntries, numberEncrypted] using h
  | cons pair pairs ih =>
      obtain ⟨entry, existing⟩ := pair
      rw [appendEncrypted]
      have hhead := hpairs (entry, existing) (by simp)
      by_cases hstored : entry.entryId ∈ logIds log
      · rw [if_pos (hhead.mpr hstored), List.map_cons, newEntries_cons_stored hstored]
        exact ih seen h fun pair hpair => hpairs pair (List.mem_cons_of_mem _ hpair)
      · rw [if_neg (hhead.not.mpr hstored), List.map_cons, newEntries_cons_new hstored]
        have happend : HoldsLog (rows.append tenant (base + log.length) entry.entryId
            { entry with sequence := base + log.length }) tenant base
            (log ++ [{ entry with sequence := base + log.length }]) := h.append hstored rfl
        have hids : logIds (log ++ [{ entry with sequence := base + log.length }]) =
            logIds log ++ [entry.entryId] := List.map_append
        obtain ⟨rows', heq, hholds, hnext, hothers⟩ :=
          ih (idString entry.entryId :: seen) happend (by
            intro pair hpair
            rw [hids, List.mem_append, ← hpairs pair (List.mem_cons_of_mem _ hpair)]
            simp only [List.contains_cons, Bool.or_eq_true, beq_iff_eq, List.mem_singleton,
              hid.eq_iff]
            exact or_left_comm.trans or_comm)
        rw [hids, List.length_append, List.length_singleton, ← Nat.add_assoc] at heq hholds
        refine ⟨rows', ?_, ?_, hnext, ?_⟩
        · dsimp only
          rw [heq, List.length_cons, numberEncrypted_cons, Nat.add_right_comm]
          rfl
        · rw [numberEncrypted_cons, List.append_cons]
          exact hholds
        · intro other hother
          exact (append_sameTenant hother _ _ _).trans (hothers other hother)

/-- An encrypted write appends the new entries of its batch to the log of its tenant. -/
theorem writeEncrypted_spec {idString : ι → String} (hid : Function.Injective idString)
    (options : RepositoryOptions) {tenant : θ} (entries : List (PersistedEntry ι τ))
    {rows : Rows θ ι (EncryptedRemoteEntry ι τ)} {log : List (EncryptedRemoteEntry ι τ)}
    (h : Holds rows tenant 0 log) :
    ∃ rows', writeEncrypted idString options tenant entries rows =
        (rows', numberEncrypted log.length (newEntries (logIds log) entries)) ∧
      Holds rows' tenant 0
        (log ++ numberEncrypted log.length (newEntries (logIds log) entries)) ∧
      ∀ other, other ≠ tenant → SameTenant rows rows' other := by
  have hnext := h.next
  rw [Nat.zero_add] at hnext
  let pairs := entries.zip (hasMany options rows.ids
    (entries.map fun entry => toLex (tenant, entry.entryId)))
  have hpairs : pairs = entries.map fun entry =>
      (entry, (rows.ids.get? (toLex (tenant, entry.entryId))).isSome) :=
    zip_hasMany _ _ _ _
  have hfirst : pairs.map Prod.fst = entries := by
    rw [hpairs, List.map_map]
    exact List.map_id entries
  have hloop := appendEncrypted_spec hid pairs [] h.toHoldsLog (by
    intro pair hpair
    rw [hpairs] at hpair
    obtain ⟨entry, -, rfl⟩ := List.mem_map.mp hpair
    simpa using h.ids entry.entryId)
  rw [hfirst, Nat.zero_add] at hloop
  obtain ⟨rows', heq, hholds, hnext', hothers⟩ := hloop
  have hwrite : writeEncrypted idString options tenant entries rows =
      if 0 < (numberEncrypted log.length (newEntries (logIds log) entries)).length then
        ((rows'.setNumber tenant (log.length + (newEntries (logIds log) entries).length)).notify
          tenant, numberEncrypted log.length (newEntries (logIds log) entries))
      else (rows', numberEncrypted log.length (newEntries (logIds log) entries)) := by
    unfold writeEncrypted
    dsimp only
    rw [hnext, heq]
  rw [hwrite]
  split
  · refine ⟨_, rfl, ?_, ?_⟩
    · have hset := hholds.setNumber
      rwa [Nat.zero_add, List.length_append, numberEncrypted, List.length_map,
        List.length_zipIdx] at hset
    · intro other hother
      exact (hothers other hother).trans (setNumber_sameTenant hother _)
  · next hnone =>
      refine ⟨rows', rfl, ⟨hholds, ?_⟩, hothers⟩
      have hnil := List.length_eq_zero_iff.mp (Nat.eq_zero_of_not_pos hnone)
      rw [Rows.number, hnext', ← Rows.number, h.next, hnil, List.append_nil]

end

/-! ## Plain writes -/

section

variable {θ σ ι τ : Type} [LinearOrder θ] [LinearOrder σ] [LinearOrder ι]

def HoldsById (state : PlainRows σ ι) (store : σ) (log : List (RemoteEntry ι)) : Prop :=
  ∀ id entry, state.byId.get? (toLex (store, id)) = some entry ↔
    entry.id = id ∧ entry ∈ log.map RemoteEntry.entry

structure HoldsPlain (state : PlainRows σ ι) (store : σ) (log : List (RemoteEntry ι)) : Prop
    extends Holds state.rows store 1 log where
  byId : HoldsById state store log

structure SameStore (state state' : PlainRows σ ι) (store : σ) : Prop where
  rows : SameTenant state.rows state'.rows store
  byId : ∀ id, state'.byId.get? (toLex (store, id)) = state.byId.get? (toLex (store, id))

theorem SameStore.trans {first second third : PlainRows σ ι} {store : σ}
    (h : SameStore first second store) (h' : SameStore second third store) :
    SameStore first third store :=
  ⟨h.rows.trans h'.rows, fun id => (h'.byId id).trans (h.byId id)⟩

theorem HoldsPlain.congr {state state' : PlainRows σ ι} {store : σ}
    {log : List (RemoteEntry ι)} (h : HoldsPlain state store log)
    (hsame : SameStore state state' store) : HoldsPlain state' store log where
  toHolds := h.toHolds.congr hsame.rows
  byId id entry := by rw [hsame.byId, h.byId]

def numberPlain (first : Nat) (entries : List (Entry ι)) : List (RemoteEntry ι) :=
  (entries.zipIdx first).map fun (entry, sequence) => ⟨sequence, entry⟩

omit [LinearOrder ι] in
theorem numberPlain_cons (first : Nat) (entry : Entry ι) (entries : List (Entry ι)) :
    numberPlain first (entry :: entries) = ⟨first, entry⟩ :: numberPlain (first + 1) entries := rfl

def AllNew (stored : List ι) (entries : List (Entry ι)) : Prop :=
  (entries.map Entry.id).Nodup ∧ ∀ entry ∈ entries, entry.id ∉ stored

omit [LinearOrder ι] in
theorem allNew_cons {stored : List ι} {entry : Entry ι} {entries : List (Entry ι)} :
    AllNew stored (entry :: entries) ↔
      entry.id ∉ stored ∧ AllNew (stored ++ [entry.id]) entries := by
  unfold AllNew
  rw [List.map_cons, List.nodup_cons, List.forall_mem_cons]
  simp only [List.mem_append, List.mem_singleton, not_or, List.mem_map, not_exists, not_and]
  constructor
  · rintro ⟨⟨hfirst, hnodup⟩, hnew, hrest⟩
    exact ⟨hnew, hnodup, fun other hother => ⟨hrest other hother, hfirst other hother⟩⟩
  · rintro ⟨hnew, hnodup, hrest⟩
    exact ⟨⟨fun other hother => (hrest other hother).2, hnodup⟩, hnew,
      fun other hother => (hrest other hother).1⟩

theorem HoldsById.append {state : PlainRows σ ι} {store : σ} {log : List (RemoteEntry ι)}
    (h : HoldsById state store log) (remote : RemoteEntry ι)
    (hnew : remote.entry.id ∉ logIds log) (rows : Rows σ ι (RemoteEntry ι)) :
    HoldsById { rows, byId := state.byId.set (toLex (store, remote.entry.id)) remote.entry } store
      (log ++ [remote]) := by
  intro id entry
  dsimp only
  rw [OrderedMap.get?_set, List.map_append, List.mem_append]
  by_cases heq : id = remote.entry.id
  · subst heq
    rw [if_pos rfl, Option.some.injEq, List.map_singleton, List.mem_singleton]
    constructor
    · rintro rfl
      exact ⟨rfl, .inr rfl⟩
    · rintro ⟨hid, hlog | rfl⟩
      · obtain ⟨other, hother, rfl⟩ := List.mem_map.mp hlog
        exact absurd (List.mem_map.mpr ⟨other, hother, hid⟩) hnew
      · rfl
  · rw [if_neg (by simpa using heq), h]
    refine and_congr_right ?_
    rintro rfl
    refine (or_iff_left ?_).symm
    rw [List.map_singleton, List.mem_singleton]
    rintro rfl
    exact heq rfl

theorem appendPlain_spec {idString : ι → String} (hid : Function.Injective idString)
    {store : σ} (pairs : List (Entry ι × Bool)) (seen : List String)
    {state : PlainRows σ ι} {log : List (RemoteEntry ι)}
    (h : HoldsLog state.rows store 1 log) (hbyId : HoldsById state store log)
    (hpairs : ∀ pair ∈ pairs, (pair.2 || seen.contains (idString pair.1.id)) = true ↔
      pair.1.id ∈ logIds log) :
    (AllNew (logIds log) (pairs.map Prod.fst) →
      ∃ state', appendPlain idString store pairs seen (1 + log.length) state =
          .ok (state', 1 + log.length + pairs.length,
            numberPlain (1 + log.length) (pairs.map Prod.fst)) ∧
        HoldsLog state'.rows store 1
          (log ++ numberPlain (1 + log.length) (pairs.map Prod.fst)) ∧
        HoldsById state' store (log ++ numberPlain (1 + log.length) (pairs.map Prod.fst)) ∧
        state'.rows.next = state.rows.next ∧
        ∀ other, other ≠ store → SameStore state state' other) ∧
    (¬ AllNew (logIds log) (pairs.map Prod.fst) →
      appendPlain idString store pairs seen (1 + log.length) state =
        .error "Duplicate entries") := by
  induction pairs generalizing seen state log with
  | nil =>
      refine ⟨fun _ => ⟨state, rfl, ?_, ?_, rfl, ?_⟩, fun hnot => ?_⟩
      · simpa [numberPlain] using h
      · simpa [numberPlain] using hbyId
      · exact fun other _ => ⟨.refl _ other, fun _ => rfl⟩
      · exact absurd ⟨.nil, by simp⟩ hnot
  | cons pair pairs ih =>
      obtain ⟨entry, existing⟩ := pair
      rw [appendPlain, List.map_cons, allNew_cons]
      have hhead := hpairs (entry, existing) (by simp)
      by_cases hstored : entry.id ∈ logIds log
      · rw [if_pos (hhead.mpr hstored)]
        exact ⟨fun hall => absurd hstored hall.1, fun _ => rfl⟩
      · rw [if_neg (hhead.not.mpr hstored)]
        have happend : HoldsLog (state.rows.append store (1 + log.length) entry.id
            ⟨1 + log.length, entry⟩) store 1 (log ++ [⟨1 + log.length, entry⟩]) :=
          h.append hstored rfl
        have hids : logIds (log ++ [(⟨1 + log.length, entry⟩ : RemoteEntry ι)]) =
            logIds log ++ [entry.id] := List.map_append
        have happendById : HoldsById
            { rows := state.rows.append store (1 + log.length) entry.id ⟨1 + log.length, entry⟩
              byId := state.byId.set (toLex (store, entry.id)) entry } store
            (log ++ [⟨1 + log.length, entry⟩]) := 
          hbyId.append ⟨1 + log.length, entry⟩ hstored _
        have hrest := ih (idString entry.id :: seen) happend happendById (by
            intro pair hpair
            rw [hids, List.mem_append, ← hpairs pair (List.mem_cons_of_mem _ hpair)]
            simp only [List.contains_cons, Bool.or_eq_true, beq_iff_eq, List.mem_singleton,
              hid.eq_iff]
            exact or_left_comm.trans or_comm)
        rw [hids, List.length_append, List.length_singleton, ← Nat.add_assoc] at hrest
        obtain ⟨hok, herror⟩ := hrest
        constructor
        · rintro ⟨-, hall⟩
          obtain ⟨state', heq, hholds, hbyId', hnext, hothers⟩ := hok hall
          refine ⟨state', ?_, ?_, ?_, hnext, ?_⟩
          · dsimp only
            rw [heq, List.length_cons, numberPlain_cons, Nat.add_right_comm]
            rfl
          · rw [numberPlain_cons, List.append_cons]
            exact hholds
          · rw [numberPlain_cons, List.append_cons]
            exact hbyId'
          · intro other hother
            refine SameStore.trans ⟨append_sameTenant hother _ _ _, ?_⟩ (hothers other hother)
            exact fun id => OrderedMap.get?_set_of_ne _ _ (by simp [hother])
        · intro hnot
          dsimp only
          rw [herror fun hall => hnot ⟨hstored, hall⟩]
          rfl

/-- A plain write appends its batch to the log of its store, or fails if an id of it is repeated
or stored. -/
theorem writePlain_spec {idString : ι → String} (hid : Function.Injective idString)
    (options : RepositoryOptions) {store : σ} (entries : List (Entry ι))
    {state : PlainRows σ ι} {log : List (RemoteEntry ι)} (h : HoldsPlain state store log) :
    (AllNew (logIds log) entries →
      ∃ state', writePlain idString options store entries state =
          .ok (state', numberPlain (1 + log.length) entries) ∧
        HoldsPlain state' store (log ++ numberPlain (1 + log.length) entries) ∧
        ∀ other, other ≠ store → SameStore state state' other) ∧
    (¬ AllNew (logIds log) entries →
      writePlain idString options store entries state = .error "Duplicate entries") := by
  let pairs := entries.zip (hasMany options state.rows.ids
    (entries.map fun entry => toLex (store, entry.id)))
  have hpairs : pairs = entries.map fun entry =>
      (entry, (state.rows.ids.get? (toLex (store, entry.id))).isSome) :=
    zip_hasMany _ _ _ _
  have hfirst : pairs.map Prod.fst = entries := by
    rw [hpairs, List.map_map]
    exact List.map_id entries
  have hlength : pairs.length = entries.length := by rw [hpairs, List.length_map]
  have hloop := appendPlain_spec hid pairs [] h.toHoldsLog h.byId (by
    intro pair hpair
    rw [hpairs] at hpair
    obtain ⟨entry, -, rfl⟩ := List.mem_map.mp hpair
    simpa using h.ids entry.id)
  rw [hfirst, hlength] at hloop
  obtain ⟨hok, herror⟩ := hloop
  constructor
  · intro hall
    obtain ⟨state', heq, hholds, hbyId, hnext, hothers⟩ := hok hall
    have hwrite : writePlain idString options store entries state =
        if 0 < (numberPlain (1 + log.length) entries).length then
          .ok ({ state' with
            rows := (state'.rows.setNumber store (1 + log.length + entries.length)).notify store },
            numberPlain (1 + log.length) entries)
        else .ok (state', numberPlain (1 + log.length) entries) := by
      unfold writePlain
      dsimp only
      rw [h.next, heq]
      rfl
    rw [hwrite]
    split
    · refine ⟨_, rfl, ⟨?_, hbyId⟩, ?_⟩
      · have hset := hholds.setNumber
        rwa [List.length_append, ← Nat.add_assoc, numberPlain, List.length_map,
          List.length_zipIdx] at hset
      · intro other hother
        exact SameStore.trans (hothers other hother)
          ⟨setNumber_sameTenant hother _, fun _ => rfl⟩
    · next hnone =>
        refine ⟨state', rfl, ⟨⟨hholds, ?_⟩, hbyId⟩, hothers⟩
        have hnil := List.length_eq_zero_iff.mp (Nat.eq_zero_of_not_pos hnone)
        rw [Rows.number, hnext, ← Rows.number, h.next, hnil, List.append_nil]
  · intro hnot
    unfold writePlain
    dsimp only
    rw [h.next, herror hnot]
    rfl

end

/-! ## Runs -/

section

variable {θ σ ι τ : Type} [LinearOrder θ] [LinearOrder σ] [LinearOrder ι]

structure HasLogs (state : ServerState θ σ ι τ) : Prop where
  encrypted : ∀ tenant, ∃ log, Holds state.encrypted tenant 0 log
  plain : ∀ store, ∃ log, HoldsPlain state.plain store log

theorem hasLogs_empty : HasLogs ({} : ServerState θ σ ι τ) where
  encrypted tenant := ⟨[], holds_empty tenant 0⟩
  plain store := ⟨[], holds_empty store 1, by simp [HoldsById]⟩

theorem HasLogs.call {idString : ι → String} (hid : Function.Injective idString)
    {state state' : ServerState θ σ ι τ} {call : ServerCall θ σ ι τ} (h : HasLogs state)
    (hcall : state.call idString call = .ok state') : HasLogs state' := by
  cases call with
  | writeEncrypted options tenant entries =>
      cases hcall
      obtain ⟨log, hlog⟩ := h.encrypted tenant
      obtain ⟨rows, heq, hholds, hothers⟩ := writeEncrypted_spec hid options entries hlog
      refine ⟨fun other => ?_, h.plain⟩
      dsimp only
      rw [heq]
      by_cases hother : other = tenant
      · subst hother
        exact ⟨_, hholds⟩
      · obtain ⟨log', hlog'⟩ := h.encrypted other
        exact ⟨log', hlog'.congr (hothers other hother)⟩
  | writePlain options store entries =>
      obtain ⟨log, hlog⟩ := h.plain store
      obtain ⟨hok, herror⟩ := writePlain_spec hid options entries hlog
      by_cases hall : AllNew (logIds log) entries
      · obtain ⟨plain, heq, hholds, hothers⟩ := hok hall
        rw [ServerState.call, heq] at hcall
        cases hcall
        refine ⟨h.encrypted, fun other => ?_⟩
        by_cases hother : other = store
        · subst hother
          exact ⟨_, hholds⟩
        · obtain ⟨log', hlog'⟩ := h.plain other
          exact ⟨log', hlog'.congr (hothers other hother)⟩
      · rw [ServerState.call, herror hall] at hcall
        cases hcall

theorem HasLogs.run {idString : ι → String} (hid : Function.Injective idString)
    {state state' : ServerState θ σ ι τ} {calls : List (ServerCall θ σ ι τ)} (h : HasLogs state)
    (hrun : state.run idString calls = .ok state') : HasLogs state' := by
  induction calls generalizing state with
  | nil =>
      cases hrun
      exact h
  | cons call calls ih =>
      rw [ServerState.run, List.foldlM_cons] at hrun
      cases hcall : state.call idString call with
      | error message =>
          rw [hcall] at hrun
          cases hrun
      | ok next =>
          rw [hcall] at hrun
          exact ih (h.call hid hcall) hrun

theorem Reachable.hasLogs {idString : ι → String} (hid : Function.Injective idString)
    {state : ServerState θ σ ι τ} (h : Reachable idString state) : HasLogs state := by
  induction h with
  | empty => exact hasLogs_empty
  | commit _ hrun ih => exact ih.run hid hrun

theorem run_error {idString : ι → String} {state within : ServerState θ σ ι τ}
    {calls : List (ServerCall θ σ ι τ)} (hrun : state.run idString calls = .ok within)
    {call : ServerCall θ σ ι τ} {message : String}
    (h : within.call idString call = .error message) (later : List (ServerCall θ σ ι τ)) :
    state.run idString (calls ++ call :: later) = .error message := by
  rw [ServerState.run] at hrun
  rw [ServerState.run, List.foldlM_append, hrun]
  change (call :: later).foldlM (fun state call => state.call idString call) within = _
  rw [List.foldlM_cons, h]
  rfl

/-- Between the writes of all transactions every tenant has a log, which its rows are those of.
An encrypted write appends the new entries of its batch to it and returns them. A plain write
appends its whole batch or, if an id of it is repeated or stored, fails and with it the
transaction. The rows of the other tenants stay as they are. -/
theorem server_sequences {idString : ι → String} (hid : Function.Injective idString)
    {state within : ServerState θ σ ι τ} (h : Reachable idString state)
    {calls : List (ServerCall θ σ ι τ)} (hrun : state.run idString calls = .ok within) :
    (∀ tenant, ∃ log, Holds within.encrypted tenant 0 log ∧
      ∀ options entries, ∃ rows,
        writeEncrypted idString options tenant entries within.encrypted =
          (rows, numberEncrypted log.length (newEntries (logIds log) entries)) ∧
        Holds rows tenant 0
          (log ++ numberEncrypted log.length (newEntries (logIds log) entries)) ∧
        ∀ other, other ≠ tenant → SameTenant within.encrypted rows other) ∧
    ∀ store, ∃ log, HoldsPlain within.plain store log ∧
      ∀ options entries,
        (AllNew (logIds log) entries → ∃ plain,
          writePlain idString options store entries within.plain =
            .ok (plain, numberPlain (1 + log.length) entries) ∧
          HoldsPlain plain store (log ++ numberPlain (1 + log.length) entries) ∧
          ∀ other, other ≠ store → SameStore within.plain plain other) ∧
        (¬ AllNew (logIds log) entries → ∀ later,
          state.run idString (calls ++ .writePlain options store entries :: later) =
            .error "Duplicate entries") := by
  have hlogs := (h.hasLogs hid).run hid hrun
  constructor
  · intro tenant
    obtain ⟨log, hlog⟩ := hlogs.encrypted tenant
    exact ⟨log, hlog, fun options entries => writeEncrypted_spec hid options entries hlog⟩
  · intro store
    obtain ⟨log, hlog⟩ := hlogs.plain store
    refine ⟨log, hlog, fun options entries => ?_⟩
    obtain ⟨hok, herror⟩ := writePlain_spec hid options entries hlog
    refine ⟨hok, fun hnot later => run_error hrun ?_ later⟩
    rw [ServerState.call, herror hnot]
    rfl

def oneEntry : ServerState (String ×ₗ String) String String Nat where
  encrypted := (writeEncrypted id {} (toLex ("key", "store")) [⟨"a", 1⟩, ⟨"a", 2⟩] {}).1

theorem server_sequences_oneEntry :
    (∃ log, Holds oneEntry.encrypted (toLex ("key", "store")) 0 log) ∧
      oneEntry.run id [.writePlain {} "store"
        [⟨"b", "event", "key", []⟩, ⟨"b", "event", "key", []⟩]] = .error "Duplicate entries" := by
  have hfirst : ({} : ServerState (String ×ₗ String) String String Nat).run id
      [.writeEncrypted {} (toLex ("key", "store")) [⟨"a", 1⟩, ⟨"a", 2⟩]] = .ok oneEntry := rfl
  have hreachable : Reachable id oneEntry := .commit .empty hfirst
  have hrun : oneEntry.run id [] = .ok oneEntry := rfl
  obtain ⟨hencrypted, hplain⟩ := server_sequences Function.injective_id hreachable hrun
  obtain ⟨log, hlog, -⟩ := hencrypted (toLex ("key", "store"))
  obtain ⟨log', -, hwrite⟩ := hplain "store"
  refine ⟨⟨log, hlog⟩, (hwrite {} _).2 ?_ []⟩
  rintro ⟨hnodup, -⟩
  simp at hnodup

example : (writeEncrypted id {} 1 [⟨"b", 1⟩, ⟨"a", 2⟩, ⟨"b", 3⟩]
    (writeEncrypted id {} 1 [⟨"a", 0⟩] {}).1).2 = [⟨⟨"b", 1⟩, 1⟩] := by
  decide +kernel

end

end FoundationDbEffect.EventLog.Server
