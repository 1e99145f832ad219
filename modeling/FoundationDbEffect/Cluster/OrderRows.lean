import FoundationDbEffect.Cluster.MessageOrder

/-!
# Rows of the order indexes

An order store is consistent when its uncommitted rows are those of its pending messages and
the locator has the stamps of all messages. Each operation changes the rows of one message.
-/

namespace FoundationDbEffect.Cluster

open FoundationDbEffect.Foundation

namespace ReadyRow

@[simp] theorem stamp_toLex (stamp : OrderStamp) (id : Snowflake) :
    ReadyRow.stamp (toLex (stamp, id)) = stamp := rfl

@[simp] theorem id_toLex (stamp : OrderStamp) (id : Snowflake) :
    ReadyRow.id (toLex (stamp, id)) = id := rfl

@[simp] theorem version_toLex (version user : Nat) (id : Snowflake) :
    ReadyRow.version (toLex (toLex (version, user), id)) = version := rfl

theorem eq_toLex (row : ReadyRow) : row = toLex (row.stamp, row.id) := rfl

theorem eq_iff {row : ReadyRow} {stamp : OrderStamp} {id : Snowflake} :
    row = toLex (stamp, id) ↔ row.id = id ∧ row.stamp = stamp := by
  constructor
  · rintro rfl
    exact ⟨rfl, rfl⟩
  · rintro ⟨rfl, rfl⟩
    exact row.eq_toLex

end ReadyRow

namespace OrderStore

variable {κ : Type}

def HasRow (store : OrderStore κ) (space : κ) (row : ReadyRow) : Prop :=
  (store.rows space).get? row = some ()

def pendingRow (store : OrderStore κ) (entry : Pending κ) : ReadyRow :=
  toLex (store.pendingStamp entry, entry.id)

def IssuedBy (store : OrderStore κ) (pending : List (Pending κ)) (space : κ) (row : ReadyRow) :
    Prop :=
  ∃ entry ∈ pending, entry.indexed = true ∧ space ∈ entry.indexes ∧ row = store.pendingRow entry

/-- The uncommitted rows are those of the indexed pending messages, and the locator has the
stamp of every message that is pending or was observed. Stamps are not shared. -/
structure Consistent (store : OrderStore κ) : Prop where
  pending : store.pending.Pairwise fun left right => left.id ≠ right.id ∧ left.user < right.user
  users : ∀ entry ∈ store.pending, entry.user < store.next
  tail : ∀ space row, store.readVersion < row.version →
    (store.HasRow space row ↔ store.IssuedBy store.pending space row)
  pendingOrders : ∀ entry ∈ store.pending,
    store.orders.get? entry.id = some (store.pendingStamp entry)
  committedOrders : ∀ id stamp, store.committed.get? id = some stamp →
    store.orders.get? id = some stamp
  orders : ∀ id stamp, store.orders.get? id = some stamp →
    (ofLex stamp).1 ≤ store.readVersion ∨ ∃ entry ∈ store.pending, entry.id = id
  stamps : ∀ id id' stamp, store.orders.get? id = some stamp →
    store.orders.get? id' = some stamp → id = id'

structure SameExcept (id : Snowflake) (store next : OrderStore κ) : Prop where
  readVersion : next.readVersion = store.readVersion
  rows : ∀ space row, row.id ≠ id → (next.HasRow space row ↔ store.HasRow space row)
  orders : ∀ id', id' ≠ id → next.orders.get? id' = store.orders.get? id'
  pending : ∀ entry, entry.id ≠ id → (entry ∈ next.pending ↔ entry ∈ store.pending)

theorem SameExcept.trans {id : Snowflake} {store middle next : OrderStore κ}
    (h : SameExcept id store middle) (h' : SameExcept id middle next) :
    SameExcept id store next where
  readVersion := h'.readVersion.trans h.readVersion
  rows := fun space row hne => (h'.rows space row hne).trans (h.rows space row hne)
  orders := fun id' hne => (h'.orders id' hne).trans (h.orders id' hne)
  pending := fun entry hne => (h'.pending entry hne).trans (h.pending entry hne)

/-! ## Pending entries -/

theorem find?_eq_some {pending : List (Pending κ)} {id : Snowflake} {entry : Pending κ}
    (h : pending.Pairwise fun left right => left.id ≠ right.id) :
    pending.find? (fun other => other.id = id) = some entry ↔
      entry ∈ pending ∧ entry.id = id := by
  induction pending with
  | nil => simp
  | cons head rest ih =>
      obtain ⟨hhead, hrest⟩ := List.pairwise_cons.mp h
      rw [List.find?_cons, List.mem_cons]
      split
      · rename_i hid
        rw [decide_eq_true_eq] at hid
        constructor
        · rintro ⟨⟩
          exact ⟨.inl rfl, hid⟩
        · rintro ⟨rfl | hmem, hentry⟩
          · rfl
          · exact absurd (hid.trans hentry.symm) (hhead entry hmem)
      · rename_i hid
        rw [decide_eq_false_iff_not] at hid
        refine (ih hrest).trans ?_
        constructor
        · exact fun hentry => ⟨.inr hentry.1, hentry.2⟩
        · rintro ⟨rfl | hmem, hentry⟩
          · exact absurd hentry hid
          · exact ⟨hmem, hentry⟩

theorem Consistent.pendingEntry_eq_some {store : OrderStore κ} (h : store.Consistent)
    {id : Snowflake} {entry : Pending κ} :
    store.pendingEntry id = some entry ↔ entry ∈ store.pending ∧ entry.id = id :=
  find?_eq_some (h.pending.imp And.left)

theorem pendingEntry_eq_none {store : OrderStore κ} {id : Snowflake} :
    store.pendingEntry id = none ↔ ∀ entry ∈ store.pending, entry.id ≠ id := by
  simp [pendingEntry]

theorem setPending_eq_map {pending : List (Pending κ)} {entry : Pending κ} (indexed : Bool)
    (hpending : pending.Pairwise fun left right => left.id ≠ right.id ∧ left.user < right.user)
    (hentry : entry ∈ pending) :
    setPending { entry with indexed } pending =
      pending.map fun other => if other.id = entry.id then { other with indexed } else other := by
  induction pending with
  | nil => simp at hentry
  | cons head rest ih =>
      obtain ⟨hhead, hrest⟩ := List.pairwise_cons.mp hpending
      rw [setPending, List.map_cons]
      rcases List.mem_cons.mp hentry with rfl | hmem
      · rw [if_pos rfl, if_pos rfl]
        congr 1
        have hsame : ∀ other ∈ rest,
            (if other.id = entry.id then { other with indexed } else other) = id other :=
          fun other hother => if_neg (hhead other hother).1.symm
        rw [List.map_congr_left hsame, List.map_id]
      · rw [if_neg (hhead entry hmem).1, if_neg (hhead entry hmem).1, ih hrest hmem]

theorem setPending_eq_append {pending : List (Pending κ)} {entry : Pending κ}
    (h : ∀ other ∈ pending, other.id ≠ entry.id) :
    setPending entry pending = pending ++ [entry] := by
  induction pending with
  | nil => rfl
  | cons head rest ih =>
      rw [setPending, if_neg (h head (by simp)), ih, List.cons_append]
      intro other hother
      exact h other (List.mem_cons_of_mem _ hother)

theorem find?_setPending {entry : Pending κ} {pending : List (Pending κ)}
    (id : Snowflake) :
    (setPending entry pending).find? (fun other => other.id = id) =
      if entry.id = id then some entry else pending.find? fun other => other.id = id := by
  induction pending with
  | nil =>
      rw [setPending, List.find?_cons]
      by_cases hid : entry.id = id <;> simp [hid]
  | cons head rest ih =>
      rw [setPending]
      by_cases hhead : head.id = entry.id
      · rw [if_pos hhead, List.find?_cons, List.find?_cons, hhead]
        by_cases hid : entry.id = id <;> simp [hid]
      · rw [if_neg hhead, List.find?_cons, List.find?_cons, ih]
        by_cases hid : head.id = id
        · have hne : entry.id ≠ id := fun heq => hhead (hid.trans heq.symm)
          simp [hid, hne]
        · simp [hid]

theorem mem_setPending {entry other : Pending κ} {pending : List (Pending κ)}
    (h : other ∈ setPending entry pending) : other = entry ∨ other ∈ pending := by
  induction pending with
  | nil => simpa [setPending] using h
  | cons head rest ih =>
      rw [setPending] at h
      split_ifs at h
      · simp at h ⊢
        tauto
      · rcases List.mem_cons.mp h with rfl | hrest
        · simp
        · exact (ih hrest).imp_right (List.mem_cons_of_mem _)

theorem ids_setPending {entry : Pending κ} {pending : List (Pending κ)}
    (h : pending.Pairwise fun left right => left.id ≠ right.id) :
    (setPending entry pending).Pairwise fun left right => left.id ≠ right.id := by
  induction pending with
  | nil => simp [setPending]
  | cons head rest ih =>
      obtain ⟨hhead, hrest⟩ := List.pairwise_cons.mp h
      rw [setPending]
      split_ifs with hid
      · refine List.pairwise_cons.mpr ⟨?_, hrest⟩
        intro other hother
        rw [← hid]
        exact hhead other hother
      · refine List.pairwise_cons.mpr ⟨?_, ih hrest⟩
        intro other hother
        rcases mem_setPending hother with rfl | hmem
        · exact hid
        · exact hhead other hmem

theorem Consistent.eq_of_id {store : OrderStore κ} (h : store.Consistent)
    {entry entry' : Pending κ} (hentry : entry ∈ store.pending) (hentry' : entry' ∈ store.pending)
    (hid : entry.id = entry'.id) : entry = entry' := by
  have hsome := h.pendingEntry_eq_some.mpr ⟨hentry, hid⟩
  rw [h.pendingEntry_eq_some.mpr ⟨hentry', rfl⟩] at hsome
  exact (Option.some.inj hsome).symm

theorem Consistent.messageOrder_eq_ok {store : OrderStore κ} (h : store.Consistent)
    {id : Snowflake} {stamp : OrderStamp} :
    store.messageOrder id = .ok stamp ↔ store.orders.get? id = some stamp := by
  unfold messageOrder
  cases hentry : store.pendingEntry id with
  | some entry =>
      obtain ⟨hmem, rfl⟩ := h.pendingEntry_eq_some.mp hentry
      simp [h.pendingOrders entry hmem]
  | none =>
      cases hcommitted : store.committed.get? id with
      | some observed => simp [h.committedOrders id observed hcommitted]
      | none => cases store.orders.get? id <;> simp

def reindex (id : Snowflake) (indexed : Bool) (pending : List (Pending κ)) : List (Pending κ) :=
  pending.map fun entry => if entry.id = id then { entry with indexed } else entry

theorem mem_reindex {id : Snowflake} {indexed : Bool} {pending : List (Pending κ)}
    {entry : Pending κ} :
    entry ∈ reindex id indexed pending ↔
      entry.id ≠ id ∧ entry ∈ pending ∨
        ∃ old ∈ pending, old.id = id ∧ entry = { old with indexed } := by
  unfold reindex
  rw [List.mem_map]
  constructor
  · rintro ⟨old, hold, rfl⟩
    split_ifs with hid
    · exact .inr ⟨old, hold, hid, rfl⟩
    · exact .inl ⟨hid, hold⟩
  · rintro (⟨hid, hmem⟩ | ⟨old, hold, hid, rfl⟩)
    · exact ⟨entry, hmem, if_neg hid⟩
    · exact ⟨old, hold, if_pos hid⟩

theorem reindex_eq_self {id : Snowflake} {indexed : Bool} {pending : List (Pending κ)}
    (h : ∀ entry ∈ pending, entry.id = id → entry.indexed = indexed) :
    reindex id indexed pending = pending := by
  have hsame : ∀ entry ∈ pending,
      (if entry.id = id then { entry with indexed } else entry) = entry := by
    intro entry hentry
    split_ifs with hid
    · rw [← h entry hentry hid]
    · rfl
  rw [reindex, List.map_congr_left hsame, List.map_id']

/-- An entry that did not count does not count once its flag is down. -/
theorem filter_reindex {id : Snowflake} {counts : Pending κ → Bool} {pending : List (Pending κ)}
    (hdown : ∀ entry : Pending κ, counts { entry with indexed := false } = false)
    (hown : ∀ entry ∈ pending, entry.id = id → counts entry = false) :
    (reindex id false pending).filter counts = pending.filter counts := by
  induction pending with
  | nil => rfl
  | cons head rest ih =>
      have hrest := ih fun entry hentry => hown entry (List.mem_cons_of_mem _ hentry)
      rw [reindex, List.map_cons, List.filter_cons, List.filter_cons]
      rw [reindex] at hrest
      rw [hrest]
      by_cases hid : head.id = id
      · simp only [if_pos hid, hdown head, hown head List.mem_cons_self hid, Bool.false_eq_true,
          if_false]
      · rw [if_neg hid]

theorem Consistent.ne_of_orders {store : OrderStore κ} (h : store.Consistent) {id : Snowflake}
    (hfresh : store.orders.get? id = none) : ∀ entry ∈ store.pending, entry.id ≠ id := by
  rintro entry hentry rfl
  rw [h.pendingOrders entry hentry] at hfresh
  exact nomatch hfresh

theorem Consistent.commit {store : OrderStore κ} (h : store.Consistent) :
    store.commit.Consistent where
  pending := .nil
  users := nofun
  tail := by
    intro space row hversion
    constructor
    · intro hrow
      obtain ⟨entry, -, -, -, rfl⟩ :=
        (h.tail space row ((Nat.lt_succ_self _).trans hversion)).mp hrow
      exact absurd hversion (lt_irrefl _)
    · rintro ⟨entry, hentry, -⟩
      exact absurd hentry (by simp [OrderStore.commit])
  pendingOrders := nofun
  committedOrders := by simp [OrderStore.commit]
  orders := by
    intro id stamp horder
    rcases h.orders id stamp horder with hle | ⟨entry, hentry, rfl⟩
    · exact .inl (hle.trans (Nat.le_succ _))
    · rw [show store.commit.orders = store.orders from rfl, h.pendingOrders entry hentry] at horder
      cases horder
      exact .inl le_rfl
  stamps := h.stamps

/-! ## Rows -/

structure SameEntries (store next : OrderStore κ) : Prop where
  readVersion : next.readVersion = store.readVersion
  orders : next.orders = store.orders
  pending : next.pending = store.pending
  committed : next.committed = store.committed
  nextUser : next.next = store.next

theorem SameEntries.refl (store : OrderStore κ) : SameEntries store store :=
  ⟨rfl, rfl, rfl, rfl, rfl⟩

theorem SameEntries.trans {store middle next : OrderStore κ} (h : SameEntries store middle)
    (h' : SameEntries middle next) : SameEntries store next :=
  ⟨h'.readVersion.trans h.readVersion, h'.orders.trans h.orders, h'.pending.trans h.pending,
    h'.committed.trans h.committed, h'.nextUser.trans h.nextUser⟩

theorem SameEntries.foldl {α : Type} {step : OrderStore κ → α → OrderStore κ}
    (hstep : ∀ store element, SameEntries store (step store element)) (elements : List α)
    (store : OrderStore κ) : SameEntries store (elements.foldl step store) := by
  induction elements generalizing store with
  | nil => exact .refl store
  | cons element elements ih => exact (hstep store element).trans (ih _)

section

variable [DecidableEq κ]

theorem hasRow_setRow (store : OrderStore κ) (space : κ) (row : ReadyRow) (space' : κ)
    (row' : ReadyRow) :
    (store.setRow space row).HasRow space' row' ↔
      space' = space ∧ row' = row ∨ store.HasRow space' row' := by
  unfold HasRow setRow
  dsimp only
  rcases eq_or_ne space' space with rfl | hspace
  · rw [Function.update_self, OrderedMap.get?_set]
    split_ifs with hrow <;> simp [hrow]
  · rw [Function.update_of_ne hspace]
    simp [hspace]

theorem hasRow_clearRow (store : OrderStore κ) (space : κ) (row : ReadyRow) (space' : κ)
    (row' : ReadyRow) :
    (store.clearRow space row).HasRow space' row' ↔
      ¬ (space' = space ∧ row' = row) ∧ store.HasRow space' row' := by
  unfold HasRow clearRow
  dsimp only
  rcases eq_or_ne space' space with rfl | hspace
  · rw [Function.update_self, OrderedMap.get?_clear]
    split_ifs with hrow <;> simp [hrow]
  · rw [Function.update_of_ne hspace]
    simp [hspace]

theorem hasRow_writeIndexes (indexes : List κ) (entry : Pending κ) (store : OrderStore κ)
    (space : κ) (row : ReadyRow) :
    (indexes.foldl (fun store index => store.writeIndex index entry) store).HasRow space row ↔
      space ∈ indexes ∧ row = store.pendingRow entry ∨ store.HasRow space row := by
  induction indexes generalizing store with
  | nil => simp
  | cons index indexes ih =>
      have hrow : (store.writeIndex index entry).pendingRow entry = store.pendingRow entry := rfl
      rw [List.foldl_cons, ih, hrow, writeIndex, hasRow_setRow, List.mem_cons]
      change _ ∨ space = index ∧ row = store.pendingRow entry ∨ _ ↔ _
      tauto

theorem sameEntries_setRow (store : OrderStore κ) (space : κ) (row : ReadyRow) :
    SameEntries store (store.setRow space row) :=
  ⟨rfl, rfl, rfl, rfl, rfl⟩

theorem sameEntries_clearRow (store : OrderStore κ) (space : κ) (row : ReadyRow) :
    SameEntries store (store.clearRow space row) :=
  ⟨rfl, rfl, rfl, rfl, rfl⟩

theorem sameEntries_markRows (indexes : List κ) (row : ReadyRow) (indexed : Bool)
    (store : OrderStore κ) :
    SameEntries store (indexes.foldl
      (fun store space => if indexed then store.setRow space row else store.clearRow space row)
      store) := by
  apply SameEntries.foldl
  intro store space
  split_ifs
  · exact sameEntries_setRow store space row
  · exact sameEntries_clearRow store space row

theorem hasRow_markRows (indexes : List κ) (row : ReadyRow) (indexed : Bool)
    (store : OrderStore κ) (space : κ) (row' : ReadyRow) :
    (indexes.foldl
      (fun store space => if indexed then store.setRow space row else store.clearRow space row)
      store).HasRow space row' ↔
      if space ∈ indexes ∧ row' = row then indexed = true else store.HasRow space row' := by
  induction indexes generalizing store with
  | nil => simp
  | cons index indexes ih =>
      rw [List.foldl_cons, ih]
      cases indexed
      · simp only [Bool.false_eq_true, if_false, hasRow_clearRow, List.mem_cons]
        split_ifs <;> tauto
      · simp only [if_true, hasRow_setRow, List.mem_cons]
        split_ifs <;> tauto

/-! ## Reissued tails -/

theorem reissue_entries (pending : List (Pending κ)) (space : κ) (store : OrderStore κ) :
    SameEntries store (pending.foldl
      (fun store entry =>
        if entry.indexed ∧ space ∈ entry.indexes then store.writeIndex space entry else store)
      store) := by
  apply SameEntries.foldl
  intro store entry
  split_ifs
  · exact sameEntries_setRow store space _
  · exact .refl store

theorem hasRow_reissued (pending : List (Pending κ)) (space : κ) (store : OrderStore κ)
    (space' : κ) (row : ReadyRow) :
    (pending.foldl
      (fun store entry =>
        if entry.indexed ∧ space ∈ entry.indexes then store.writeIndex space entry else store)
      store).HasRow space' row ↔
      space' = space ∧ store.IssuedBy pending space row ∨ store.HasRow space' row := by
  induction pending generalizing store with
  | nil => simp [IssuedBy]
  | cons entry pending ih =>
      rw [List.foldl_cons, ih]
      split_ifs with hentry
      · have hissued : (store.writeIndex space entry).IssuedBy pending space row ↔
            store.IssuedBy pending space row := Iff.rfl
        have hcons : store.IssuedBy (entry :: pending) space row ↔
            row = store.pendingRow entry ∨ store.IssuedBy pending space row := by
          simp [IssuedBy, hentry]
        rw [hissued, hcons, writeIndex, hasRow_setRow]
        change _ ∨ space' = space ∧ row = store.pendingRow entry ∨ _ ↔ _
        tauto
      · have hskip : ¬ (entry.indexed = true ∧ space ∈ entry.indexes ∧
            row = store.pendingRow entry) := fun h => hentry ⟨h.1, h.2.1⟩
        simp [IssuedBy, hskip]

theorem sameEntries_reissue (store : OrderStore κ) (space : κ) :
    SameEntries store (store.reissue space) := by
  have h := reissue_entries store.pending space { store with
    rows := Function.update store.rows space
      ((store.rows space).clearRange fun row => store.readVersion + 1 ≤ row.version) }
  exact ⟨h.readVersion, h.orders, h.pending, h.committed, h.nextUser⟩

theorem hasRow_reissue (store : OrderStore κ) (space space' : κ) (row : ReadyRow) :
    (store.reissue space).HasRow space' row ↔
      space' = space ∧ store.IssuedBy store.pending space row ∨
        store.HasRow space' row ∧ ¬ (space' = space ∧ store.readVersion < row.version) := by
  rw [reissue, hasRow_reissued]
  refine or_congr Iff.rfl ?_
  unfold HasRow
  dsimp only
  rcases eq_or_ne space' space with rfl | hspace
  · rw [Function.update_self, OrderedMap.get?_clearRange]
    split_ifs with hversion
    · rw [decide_eq_true_eq] at hversion
      simp
      omega
    · rw [decide_eq_true_eq] at hversion
      simp
      omega
  · rw [Function.update_of_ne hspace]
    simp [hspace]

theorem sameEntries_reissues (store : OrderStore κ) (indexes : List κ) :
    SameEntries store (indexes.foldl reissue store) :=
  .foldl sameEntries_reissue indexes store

theorem hasRow_reissues (indexes : List κ) (store : OrderStore κ) (space : κ) (row : ReadyRow) :
    (indexes.foldl reissue store).HasRow space row ↔
      space ∈ indexes ∧ store.IssuedBy store.pending space row ∨
        store.HasRow space row ∧ ¬ (space ∈ indexes ∧ store.readVersion < row.version) := by
  induction indexes generalizing store with
  | nil => simp
  | cons index indexes ih =>
      have hentries := sameEntries_reissue store index
      have hissued : (store.reissue index).IssuedBy (store.reissue index).pending space row ↔
          store.IssuedBy store.pending space row := by
        rw [hentries.pending]
        unfold IssuedBy pendingRow pendingStamp
        rw [hentries.readVersion]
      rw [List.foldl_cons, ih, hissued, hentries.readVersion, hasRow_reissue, List.mem_cons]
      rcases eq_or_ne space index with rfl | hspace
      · tauto
      · simp [hspace]

/-! ## Changing the membership of a message -/

structure Reindexed (id : Snowflake) (stamp : OrderStamp) (indexes : List κ) (indexed : Bool)
    (store next : OrderStore κ) : Prop where
  readVersion : next.readVersion = store.readVersion
  orders : next.orders = store.orders
  committed : next.committed = store.committed
  nextUser : next.next = store.next
  pending : next.pending = reindex id indexed store.pending
  rows : ∀ space row, next.HasRow space row ↔
    if space ∈ indexes ∧ row = toLex (stamp, id) then indexed = true else store.HasRow space row

theorem Reindexed.consistent {id : Snowflake} {stamp : OrderStamp} {indexes : List κ}
    {indexed : Bool} {store next : OrderStore κ} (h : store.Consistent)
    (hindexes : ∀ entry ∈ store.pending, entry.id = id → entry.indexes = indexes)
    (hstamp : store.orders.get? id = some stamp)
    (hreindexed : Reindexed id stamp indexes indexed store next) : next.Consistent := by
  have hstampOf (entry : Pending κ) (hentry : entry ∈ store.pending) (hid : entry.id = id) :
      store.pendingStamp entry = stamp := by
    have horder := h.pendingOrders entry hentry
    rw [hid, hstamp] at horder
    exact (Option.some.inj horder).symm
  constructor
  case pending =>
    rw [hreindexed.pending, reindex, List.pairwise_map]
    refine h.pending.imp ?_
    intro left right hlt
    split_ifs <;> exact hlt
  case users =>
    intro entry hentry
    rw [hreindexed.nextUser]
    rw [hreindexed.pending, mem_reindex] at hentry
    rcases hentry with ⟨-, hmem⟩ | ⟨old, hold, -, rfl⟩
    · exact h.users entry hmem
    · exact h.users old hold
  case tail =>
    intro space row hversion
    rw [hreindexed.readVersion] at hversion
    rw [hreindexed.rows, hreindexed.pending]
    unfold IssuedBy pendingRow pendingStamp
    rw [hreindexed.readVersion]
    constructor
    · intro hrow
      split_ifs at hrow with hown
      · obtain ⟨hspace, rfl⟩ := hown
        rcases h.orders id stamp hstamp with hle | ⟨entry, hentry, hid⟩
        · exact absurd hle hversion.not_ge
        · refine ⟨{ entry with indexed }, mem_reindex.mpr (.inr ⟨entry, hentry, hid, rfl⟩), hrow,
            ?_, ?_⟩
          · rw [hindexes entry hentry hid]
            exact hspace
          · rw [← hstampOf entry hentry hid, ← hid]
            rfl
      · obtain ⟨entry, hentry, hindexed, hspace, rfl⟩ := (h.tail space row hversion).mp hrow
        refine ⟨entry, mem_reindex.mpr (.inl ⟨?_, hentry⟩), hindexed, hspace, rfl⟩
        intro hid
        apply hown
        rw [← hindexes entry hentry hid, ← hstampOf entry hentry hid, ← hid]
        exact ⟨hspace, rfl⟩
    · rintro ⟨entry, hentry, hindexed, hspace, rfl⟩
      rcases mem_reindex.mp hentry with ⟨hid, hmem⟩ | ⟨old, hold, hid, rfl⟩
      · rw [if_neg]
        · exact (h.tail space _ hversion).mpr ⟨entry, hmem, hindexed, hspace, rfl⟩
        · rintro ⟨-, hrow⟩
          exact hid (congrArg ReadyRow.id hrow)
      · rw [if_pos]
        · exact hindexed
        · rw [← hindexes old hold hid, ← hstampOf old hold hid, ← hid]
          exact ⟨hspace, rfl⟩
  case pendingOrders =>
    intro entry hentry
    rw [hreindexed.orders]
    unfold pendingStamp
    rw [hreindexed.readVersion]
    rw [hreindexed.pending, mem_reindex] at hentry
    rcases hentry with ⟨-, hmem⟩ | ⟨old, hold, -, rfl⟩
    · exact h.pendingOrders entry hmem
    · exact h.pendingOrders old hold
  case committedOrders =>
    rw [hreindexed.committed, hreindexed.orders]
    exact h.committedOrders
  case orders =>
    rw [hreindexed.orders, hreindexed.readVersion, hreindexed.pending]
    intro id' stamp' horder
    refine (h.orders id' stamp' horder).imp_right ?_
    rintro ⟨entry, hentry, hid⟩
    by_cases hsame : entry.id = id
    · exact ⟨_, mem_reindex.mpr (.inr ⟨entry, hentry, hsame, rfl⟩), hid⟩
    · exact ⟨entry, mem_reindex.mpr (.inl ⟨hsame, hentry⟩), hid⟩
  case stamps =>
    rw [hreindexed.orders]
    exact h.stamps

theorem Consistent.setMessageOrderIndexed {store : OrderStore κ} (h : store.Consistent)
    {id : Snowflake} {stamp : OrderStamp} {indexes : List κ}
    (hindexes : ∀ entry ∈ store.pending, entry.id = id → entry.indexes = indexes)
    (hstamp : store.orders.get? id = some stamp) (indexed : Bool) :
    ∃ next, store.setMessageOrderIndexed id indexes indexed = .ok next ∧
      Reindexed id stamp indexes indexed store next := by
  unfold OrderStore.setMessageOrderIndexed
  cases hentry : store.pendingEntry id with
  | none =>
      have hpending : reindex id indexed store.pending = store.pending := by
        apply reindex_eq_self
        intro entry hmem hid
        exact absurd hid (pendingEntry_eq_none.mp hentry entry hmem)
      have hentries := sameEntries_markRows indexes (toLex (stamp, id)) indexed store
      refine ⟨_, bind_eq_ok.mpr ⟨stamp, h.messageOrder_eq_ok.mpr hstamp, rfl⟩, ?_⟩
      exact ⟨hentries.readVersion, hentries.orders, hentries.committed, hentries.nextUser,
        hentries.pending.trans hpending.symm, hasRow_markRows indexes _ indexed store⟩
  | some entry =>
      obtain ⟨hmem, rfl⟩ := h.pendingEntry_eq_some.mp hentry
      obtain rfl := hindexes entry hmem rfl
      rw [h.pendingOrders entry hmem, Option.some.injEq] at hstamp
      subst hstamp
      -- The row of a pending message is there as its flag says.
      have hown (space : κ) (hspace : space ∈ entry.indexes) :
          store.HasRow space (store.pendingRow entry) ↔ entry.indexed = true := by
        rw [h.tail space _ (Nat.lt_succ_self _)]
        constructor
        · rintro ⟨other, hother, hindexed, -, hrow⟩
          rw [h.eq_of_id hmem hother (congrArg ReadyRow.id hrow)]
          exact hindexed
        · intro hindexed
          exact ⟨entry, hmem, hindexed, hspace, rfl⟩
      dsimp only
      split_ifs with hsame hindexed
      · refine ⟨store, rfl, rfl, rfl, rfl, rfl, (reindex_eq_self ?_).symm, ?_⟩
        · intro other hother hid
          rw [h.eq_of_id hother hmem hid]
          exact hsame
        · intro space row
          split_ifs with hrow
          · obtain ⟨hspace, rfl⟩ := hrow
            rw [← hsame]
            exact hown space hspace
          · rfl
      · have hentries := SameEntries.foldl (fun store space =>
          sameEntries_setRow store space (store.pendingRow { entry with indexed })) entry.indexes
          { store with pending := setPending { entry with indexed } store.pending }
        refine ⟨_, rfl, hentries.readVersion, hentries.orders, hentries.committed,
          hentries.nextUser, hentries.pending.trans (setPending_eq_map indexed h.pending hmem), ?_⟩
        intro space row
        rw [hasRow_writeIndexes]
        change space ∈ entry.indexes ∧ row = store.pendingRow entry ∨ store.HasRow space row ↔
          if space ∈ entry.indexes ∧ row = store.pendingRow entry then indexed = true
          else store.HasRow space row
        split_ifs with hrow
        · simp [hrow, hindexed]
        · simp [hrow]
      · have hentries := sameEntries_reissues
          { store with pending := setPending { entry with indexed } store.pending } entry.indexes
        have hpending := setPending_eq_map indexed h.pending hmem
        refine ⟨_, rfl, hentries.readVersion, hentries.orders, hentries.committed,
          hentries.nextUser, hentries.pending.trans hpending, ?_⟩
        intro space row
        rw [hasRow_reissues]
        change space ∈ entry.indexes ∧ store.IssuedBy (setPending { entry with indexed }
            store.pending) space row ∨
          store.HasRow space row ∧ ¬ (space ∈ entry.indexes ∧ store.readVersion < row.version) ↔
          if space ∈ entry.indexes ∧ row = store.pendingRow entry then indexed = true
          else store.HasRow space row
        have hissued : store.IssuedBy (setPending { entry with indexed } store.pending) space row ↔
            store.IssuedBy store.pending space row ∧ row ≠ store.pendingRow entry := by
          rw [hpending]
          constructor
          · rintro ⟨other, hother, hflag, hspace, rfl⟩
            rcases mem_reindex.mp hother with ⟨hid, hold⟩ | ⟨old, hold, hid, rfl⟩
            · exact ⟨⟨other, hold, hflag, hspace, rfl⟩, fun hrow => hid (congrArg ReadyRow.id hrow)⟩
            · exact absurd hflag hindexed
          · rintro ⟨⟨other, hother, hflag, hspace, rfl⟩, hne⟩
            refine ⟨other, mem_reindex.mpr (.inl ⟨?_, hother⟩), hflag, hspace, rfl⟩
            intro hid
            rw [h.eq_of_id hother hmem hid] at hne
            exact hne rfl
        rw [hissued]
        have htail := h.tail space row
        have hold (hissued : store.IssuedBy store.pending space row) :
            store.readVersion < row.version := by
          obtain ⟨other, -, -, -, rfl⟩ := hissued
          exact Nat.lt_succ_self _
        have hversion (hrow : row = store.pendingRow entry) : store.readVersion < row.version := by
          rw [hrow]
          exact Nat.lt_succ_self _
        split_ifs with hrow
        · constructor
          · rintro (⟨-, -, hne⟩ | ⟨-, hnot⟩)
            · exact absurd hrow.2 hne
            · exact absurd ⟨hrow.1, hversion hrow.2⟩ hnot
          · exact fun hflag => absurd hflag hindexed
        · tauto

theorem Reindexed.sameExcept {id : Snowflake} {stamp : OrderStamp} {indexes : List κ}
    {indexed : Bool} {store next : OrderStore κ}
    (h : Reindexed id stamp indexes indexed store next) : SameExcept id store next where
  readVersion := h.readVersion
  rows := by
    intro space row hne
    rw [h.rows, if_neg]
    rintro ⟨-, rfl⟩
    exact hne rfl
  orders := by
    intro id' _
    rw [h.orders]
  pending := by
    intro entry hne
    rw [h.pending, mem_reindex]
    constructor
    · rintro (⟨-, hmem⟩ | ⟨old, -, hid, rfl⟩)
      · exact hmem
      · exact absurd hid hne
    · exact fun hmem => .inl ⟨hne, hmem⟩

/-! ## New and removed messages -/

theorem Consistent.insertMessageOrder {store : OrderStore κ} (h : store.Consistent)
    {id : Snowflake} (indexes : List κ) (hfresh : store.orders.get? id = none) :
    store.insertMessageOrder id indexes false = { store with
      next := store.next + 1
      pending := store.pending ++ [{ id, user := store.next, indexes, indexed := false }]
      orders := store.orders.set id (toLex (store.readVersion + 1, store.next)) } ∧
    (store.insertMessageOrder id indexes false).Consistent ∧
    SameExcept id store (store.insertMessageOrder id indexes false) := by
  have hne := h.ne_of_orders hfresh
  have heq : store.insertMessageOrder id indexes false = { store with
      next := store.next + 1
      pending := store.pending ++ [{ id, user := store.next, indexes, indexed := false }]
      orders := store.orders.set id (toLex (store.readVersion + 1, store.next)) } := by
    unfold OrderStore.insertMessageOrder
    have happend : setPending { id, user := store.next, indexes, indexed := false }
        store.pending = _ := setPending_eq_append hne
    simp only [happend, Bool.false_eq_true, if_false]
    rfl
  have hold (id' : Snowflake) (stamp : OrderStamp) (horder : store.orders.get? id' = some stamp) :
      id' ≠ id := by
    rintro rfl
    rw [hfresh] at horder
    exact nomatch horder
  rw [heq]
  refine ⟨rfl, ?_, ?_⟩
  · constructor
    case pending =>
      refine List.pairwise_append.mpr ⟨h.pending, List.pairwise_singleton _ _, ?_⟩
      intro left hleft right hright
      rw [List.mem_singleton.mp hright]
      exact ⟨hne left hleft, h.users left hleft⟩
    case users =>
      intro entry hentry
      rcases List.mem_append.mp hentry with hentry | hentry
      · exact (h.users entry hentry).trans (Nat.lt_succ_self _)
      · rw [List.mem_singleton.mp hentry]
        exact Nat.lt_succ_self _
    case tail =>
      intro space row hversion
      refine (h.tail space row hversion).trans ?_
      constructor
      · rintro ⟨entry, hentry, hrow⟩
        exact ⟨entry, List.mem_append_left _ hentry, hrow⟩
      · rintro ⟨entry, hentry, hindexed, hrow⟩
        rcases List.mem_append.mp hentry with hentry | hentry
        · exact ⟨entry, hentry, hindexed, hrow⟩
        · rw [List.mem_singleton.mp hentry] at hindexed
          exact nomatch hindexed
    case pendingOrders =>
      intro entry hentry
      rcases List.mem_append.mp hentry with hentry | hentry
      · exact (OrderedMap.get?_set_of_ne _ _ (hne entry hentry)).trans
          (h.pendingOrders entry hentry)
      · rw [List.mem_singleton.mp hentry]
        exact OrderedMap.get?_set_self _ _ _
    case committedOrders =>
      intro id' stamp hcommitted
      have horder := h.committedOrders id' stamp hcommitted
      exact (OrderedMap.get?_set_of_ne _ _ (hold id' stamp horder)).trans horder
    case orders =>
      intro id' stamp horder
      dsimp only at horder ⊢
      rw [OrderedMap.get?_set] at horder
      split_ifs at horder with hid
      · exact .inr ⟨_, List.mem_append_right _ (List.mem_singleton_self _), hid.symm⟩
      · refine (h.orders id' stamp horder).imp_right ?_
        rintro ⟨entry, hentry, hid'⟩
        exact ⟨entry, List.mem_append_left _ hentry, hid'⟩
    case stamps =>
      -- The stamp of a new message is neither committed nor that of a pending one.
      have hnew (id' : Snowflake) (horder : store.orders.get? id' =
          some (toLex (store.readVersion + 1, store.next))) : False := by
        rcases h.orders id' _ horder with hle | ⟨entry, hentry, rfl⟩
        · exact absurd hle (Nat.not_succ_le_self _)
        · rw [h.pendingOrders entry hentry, Option.some.injEq] at horder
          have huser : entry.user = store.next :=
            congrArg (fun stamp : OrderStamp => (ofLex stamp).2) horder
          exact absurd (h.users entry hentry) huser.not_lt
      intro id₁ id₂ stamp h₁ h₂
      dsimp only at h₁ h₂
      rw [OrderedMap.get?_set] at h₁ h₂
      split_ifs at h₁ h₂ with hid₁ hid₂ hid₂
      · exact hid₁.trans hid₂.symm
      · cases h₁
        exact (hnew id₂ h₂).elim
      · cases h₂
        exact (hnew id₁ h₁).elim
      · exact h.stamps id₁ id₂ stamp h₁ h₂
  · refine ⟨rfl, fun _ _ _ => Iff.rfl, ?_, ?_⟩
    · intro id' hid
      exact OrderedMap.get?_set_of_ne _ _ hid
    · intro entry hentry
      constructor
      · intro hmem
        rcases List.mem_append.mp hmem with hmem | hmem
        · exact hmem
        · rw [List.mem_singleton.mp hmem] at hentry
          exact absurd rfl hentry
      · exact fun hmem => List.mem_append_left _ hmem

theorem Consistent.removeMessageOrder {store : OrderStore κ} (h : store.Consistent)
    {id : Snowflake} {stamp : OrderStamp} {indexes : List κ}
    (hindexes : ∀ entry ∈ store.pending, entry.id = id → entry.indexes = indexes)
    (hstamp : store.orders.get? id = some stamp) :
    ∃ next, store.removeMessageOrder id indexes = .ok next ∧ next.Consistent ∧
      SameExcept id store next ∧ next.orders.get? id = none ∧
      ∀ space row, next.HasRow space row ↔
        ¬ (space ∈ indexes ∧ row = toLex (stamp, id)) ∧ store.HasRow space row := by
  obtain ⟨middle, hset, hreindexed⟩ := h.setMessageOrderIndexed hindexes hstamp false
  have hmiddle := hreindexed.consistent h hindexes hstamp
  have hkept (entry : Pending κ) : entry ∈ middle.pending.filter (fun entry => entry.id ≠ id) ↔
      entry ∈ middle.pending ∧ entry.id ≠ id := by
    rw [List.mem_filter, decide_eq_true_eq]
  refine ⟨_, bind_eq_ok.mpr ⟨middle, hset, rfl⟩, ?_, ?_, OrderedMap.get?_clear_self _ _, ?_⟩
  · constructor
    case pending => exact hmiddle.pending.filter _
    case users => exact fun entry hentry => hmiddle.users entry ((hkept entry).mp hentry).1
    case tail =>
      intro space row hversion
      refine (hmiddle.tail space row hversion).trans ?_
      constructor
      · rintro ⟨entry, hentry, hindexed, hrow⟩
        refine ⟨entry, (hkept entry).mpr ⟨hentry, ?_⟩, hindexed, hrow⟩
        intro hid
        rw [hreindexed.pending, mem_reindex] at hentry
        rcases hentry with ⟨hne, -⟩ | ⟨old, -, -, rfl⟩
        · exact hne hid
        · exact nomatch hindexed
      · rintro ⟨entry, hentry, hrow⟩
        exact ⟨entry, ((hkept entry).mp hentry).1, hrow⟩
    case pendingOrders =>
      intro entry hentry
      obtain ⟨hmem, hne⟩ := (hkept entry).mp hentry
      exact (OrderedMap.get?_clear_of_ne _ hne).trans (hmiddle.pendingOrders entry hmem)
    case committedOrders =>
      intro id' stamp' hcommitted
      dsimp only at hcommitted ⊢
      rw [OrderedMap.get?_clear] at hcommitted ⊢
      split_ifs at hcommitted ⊢
      exact hmiddle.committedOrders id' stamp' hcommitted
    case orders =>
      intro id' stamp' horder
      dsimp only at horder ⊢
      rw [OrderedMap.get?_clear] at horder
      split_ifs at horder with hid
      refine (hmiddle.orders id' stamp' horder).imp_right ?_
      rintro ⟨entry, hentry, rfl⟩
      exact ⟨entry, (hkept entry).mpr ⟨hentry, hid⟩, rfl⟩
    case stamps =>
      intro id₁ id₂ stamp' h₁ h₂
      dsimp only at h₁ h₂
      rw [OrderedMap.get?_clear] at h₁ h₂
      split_ifs at h₁ h₂
      exact hmiddle.stamps id₁ id₂ stamp' h₁ h₂
  · refine hreindexed.sameExcept.trans ⟨rfl, fun _ _ _ => Iff.rfl, ?_, ?_⟩
    · intro id' hid
      exact OrderedMap.get?_clear_of_ne _ hid
    · intro entry hentry
      rw [hkept]
      exact ⟨And.left, fun hmem => ⟨hmem, hentry⟩⟩
  · intro space row
    refine (hreindexed.rows space row).trans ?_
    split_ifs with hrow <;> simp [hrow]

end

end OrderStore

end FoundationDbEffect.Cluster
