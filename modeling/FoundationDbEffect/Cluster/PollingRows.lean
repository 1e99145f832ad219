import FoundationDbEffect.Cluster.OrderMerge
import FoundationDbEffect.Cluster.MessageReadiness

/-!
# Rows of the polling indexes

A message is tracked when its rows in the ready and in the scheduled indexes are those that
its metadata says. A change of its polling moves just these rows.
-/

namespace FoundationDbEffect.Cluster

open FoundationDbEffect.Foundation

namespace ScheduledRow

def time (row : ScheduledRow) : ℚ := (ofLex row).1

def id (row : ScheduledRow) : Snowflake := (ofLex row).2

end ScheduledRow

namespace PollingStore

def HasTimer (store : PollingStore) (space : PollingIndex) (row : ScheduledRow) : Prop :=
  (store.scheduled space).get? row = some ()

structure Tracked (store : PollingStore) (entry : MessageMeta) : Prop where
  pending : ∀ pending ∈ store.order.pending, pending.id = entry.id →
    pending.indexes = pollingIndexes entry
  ready : ∀ space row, row.id = entry.id → (store.order.HasRow space row ↔
    entry.polling = .ready ∧ space ∈ pollingIndexes entry ∧
      store.order.orders.get? entry.id = some row.stamp)
  scheduled : ∀ space (row : ScheduledRow), row.id = entry.id → (store.HasTimer space row ↔
    entry.polling = .timer row.time ∧ space ∈ pollingIndexes entry)

structure Untracked (store : PollingStore) (id : Snowflake) : Prop where
  orders : store.order.orders.get? id = none
  ready : ∀ space row, row.id = id → ¬ store.order.HasRow space row
  scheduled : ∀ space (row : ScheduledRow), row.id = id → ¬ store.HasTimer space row

structure SameExcept (id : Snowflake) (store next : PollingStore) : Prop where
  order : store.order.SameExcept id next.order
  timers : ∀ space (row : ScheduledRow), row.id ≠ id →
    (next.HasTimer space row ↔ store.HasTimer space row)

theorem SameExcept.trans {id : Snowflake} {store middle next : PollingStore}
    (h : SameExcept id store middle) (h' : SameExcept id middle next) :
    SameExcept id store next where
  order := h.order.trans h'.order
  timers := fun space row hne => (h'.timers space row hne).trans (h.timers space row hne)

theorem SameExcept.tracked {id : Snowflake} {store next : PollingStore}
    (h : SameExcept id store next) {entry : MessageMeta} (hne : entry.id ≠ id)
    (htracked : store.Tracked entry) : next.Tracked entry where
  pending := by
    intro pending hpending hid
    exact htracked.pending pending ((h.order.pending pending (hid ▸ hne)).mp hpending) hid
  ready := by
    intro space row hid
    rw [h.order.rows space row (hid ▸ hne), h.order.orders entry.id hne]
    exact htracked.ready space row hid
  scheduled := by
    intro space row hid
    rw [h.timers space row (hid ▸ hne)]
    exact htracked.scheduled space row hid

theorem SameExcept.untracked {id id' : Snowflake} {store next : PollingStore}
    (h : SameExcept id store next) (hne : id' ≠ id) (huntracked : store.Untracked id') :
    next.Untracked id' where
  orders := by
    rw [h.order.orders id' hne]
    exact huntracked.orders
  ready := by
    intro space row hid
    rw [h.order.rows space row (hid ▸ hne)]
    exact huntracked.ready space row hid
  scheduled := by
    intro space row hid
    rw [h.timers space row (hid ▸ hne)]
    exact huntracked.scheduled space row hid

/-! ## Timers -/

theorem hasTimer_clearTimers (indexes : List PollingIndex) (row : ScheduledRow)
    (store : PollingStore) (space : PollingIndex) (row' : ScheduledRow) :
    (indexes.foldl (fun store index => store.clearTimer index row) store).HasTimer space row' ↔
      ¬ (space ∈ indexes ∧ row' = row) ∧ store.HasTimer space row' := by
  induction indexes generalizing store with
  | nil => simp
  | cons index indexes ih =>
      rw [List.foldl_cons, ih, List.mem_cons]
      unfold HasTimer clearTimer
      dsimp only
      rcases eq_or_ne space index with rfl | hspace
      · rw [Function.update_self, OrderedMap.get?_clear]
        split_ifs with hrow <;> simp [hrow]
      · rw [Function.update_of_ne hspace]
        simp [hspace]

theorem hasTimer_setTimers (indexes : List PollingIndex) (row : ScheduledRow)
    (store : PollingStore) (space : PollingIndex) (row' : ScheduledRow) :
    (indexes.foldl (fun store index => store.setTimer index row) store).HasTimer space row' ↔
      space ∈ indexes ∧ row' = row ∨ store.HasTimer space row' := by
  induction indexes generalizing store with
  | nil => simp
  | cons index indexes ih =>
      rw [List.foldl_cons, ih, List.mem_cons]
      unfold HasTimer setTimer
      dsimp only
      rcases eq_or_ne space index with rfl | hspace
      · rw [Function.update_self, OrderedMap.get?_set]
        split_ifs with hrow <;> simp [hrow]
      · rw [Function.update_of_ne hspace]
        simp [hspace]

theorem order_foldl {α : Type} {step : PollingStore → α → PollingStore}
    (hstep : ∀ store element, (step store element).order = store.order) (elements : List α)
    (store : PollingStore) : (elements.foldl step store).order = store.order := by
  induction elements generalizing store with
  | nil => rfl
  | cons element elements ih => rw [List.foldl_cons, ih, hstep]

theorem order_clearMessageTimer (store : PollingStore) (entry : MessageMeta) :
    (store.clearMessageTimer entry).order = store.order := by
  unfold clearMessageTimer
  split
  · apply order_foldl
    intro store index
    rfl
  · rfl

theorem timer_eq_iff {time : ℚ} {row : ScheduledRow} {id : Snowflake} :
    row = toLex (time, id) ↔ row.id = id ∧ Polling.timer time = .timer row.time := by
  constructor
  · rintro rfl
    exact ⟨rfl, rfl⟩
  · rintro ⟨rfl, htime⟩
    cases htime
    rfl

theorem hasTimer_clearMessageTimer (store : PollingStore) (entry : MessageMeta)
    (space : PollingIndex) (row : ScheduledRow) :
    (store.clearMessageTimer entry).HasTimer space row ↔
      ¬ (entry.polling = .timer row.time ∧ space ∈ pollingIndexes entry ∧ row.id = entry.id) ∧
        store.HasTimer space row := by
  unfold clearMessageTimer
  cases hpolling : entry.polling with
  | timer time =>
      rw [hasTimer_clearTimers]
      rw [timer_eq_iff]
      tauto
  | ready => simp
  | blocked => simp

theorem order_setMessageTimer (store : PollingStore) (entry : MessageMeta) (polling : Polling) :
    (store.setMessageTimer entry polling).order = store.order := by
  unfold setMessageTimer
  split
  · apply order_foldl
    intro store index
    rfl
  · rfl

theorem hasTimer_setMessageTimer (store : PollingStore) (entry : MessageMeta) (polling : Polling)
    (space : PollingIndex) (row : ScheduledRow) :
    (store.setMessageTimer entry polling).HasTimer space row ↔
      polling = .timer row.time ∧ space ∈ pollingIndexes entry ∧ row.id = entry.id ∨
        store.HasTimer space row := by
  unfold setMessageTimer
  cases polling with
  | timer time =>
      rw [hasTimer_setTimers, timer_eq_iff]
      tauto
  | ready => simp
  | blocked => simp

theorem Tracked.clearMessageTimer {store : PollingStore} {entry : MessageMeta}
    (h : store.Tracked entry) (space : PollingIndex) (row : ScheduledRow)
    (hid : row.id = entry.id) : ¬ (store.clearMessageTimer entry).HasTimer space row := by
  rw [hasTimer_clearMessageTimer]
  rintro ⟨hnot, hrow⟩
  obtain ⟨hpolling, hspace⟩ := (h.scheduled space row hid).mp hrow
  exact hnot ⟨hpolling, hspace, hid⟩

theorem sameExcept_clearMessageTimer (store : PollingStore) (entry : MessageMeta) :
    SameExcept entry.id store (store.clearMessageTimer entry) where
  order := by
    rw [order_clearMessageTimer]
    exact ⟨rfl, fun _ _ _ => Iff.rfl, fun _ _ => rfl, fun _ _ => Iff.rfl⟩
  timers := by
    intro space row hne
    rw [hasTimer_clearMessageTimer]
    tauto

/-! ## Changes of polling -/

/-- What a change of polling does to the order: nothing when no ready row is concerned. -/
def Reordered (entry : MessageMeta) (polling : Polling) (store next : OrderStore PollingIndex) :
    Prop :=
  next = store ∧ (entry.polling = .ready ↔ polling = .ready) ∨
    ∃ stamp, store.orders.get? entry.id = some stamp ∧
      OrderStore.Reindexed entry.id stamp (pollingIndexes entry) (polling = .ready) store next

theorem Reordered.consistent {entry : MessageMeta} {polling : Polling}
    {store next : OrderStore PollingIndex} (h : Reordered entry polling store next)
    (hconsistent : store.Consistent)
    (hpending : ∀ pending ∈ store.pending, pending.id = entry.id →
      pending.indexes = pollingIndexes entry) : next.Consistent := by
  rcases h with ⟨rfl, -⟩ | ⟨stamp, hstamp, hreindexed⟩
  · exact hconsistent
  · exact hreindexed.consistent hconsistent hpending hstamp

theorem Reordered.orders {entry : MessageMeta} {polling : Polling}
    {store next : OrderStore PollingIndex} (h : Reordered entry polling store next) :
    next.orders = store.orders := by
  rcases h with ⟨rfl, -⟩ | ⟨stamp, -, hreindexed⟩
  · rfl
  · exact hreindexed.orders

theorem Reordered.undisturbed {entry : MessageMeta} {polling : Polling}
    {store next : OrderStore PollingIndex} (h : Reordered entry polling store next)
    (hpolling : polling ≠ .ready) (indexes : List PollingIndex) {rest : List Snowflake}
    (hid : entry.id ∉ rest) : Undisturbed indexes rest store next := by
  rcases h with ⟨rfl, -⟩ | ⟨stamp, -, hreindexed⟩
  · exact .refl _ _ _
  · rw [decide_eq_false hpolling] at hreindexed
    exact hreindexed.undisturbed hid

/-- The timer rows of a message after it has changed from one polling to another. -/
theorem Tracked.timers {store : PollingStore} {entry : MessageMeta} (h : store.Tracked entry)
    (order : OrderStore PollingIndex) (polling : Polling) (space : PollingIndex)
    (row : ScheduledRow) (hid : row.id = entry.id) :
    (PollingStore.setMessageTimer { store.clearMessageTimer entry with order } entry
      polling).HasTimer space row ↔
      polling = .timer row.time ∧ space ∈ pollingIndexes entry := by
  rw [hasTimer_setMessageTimer]
  have hclear : ¬ HasTimer { store.clearMessageTimer entry with order } space row :=
    h.clearMessageTimer space row hid
  tauto

theorem sameExcept_timers (store : PollingStore) (order : OrderStore PollingIndex)
    (entry : MessageMeta) (polling : Polling) (space : PollingIndex) (row : ScheduledRow)
    (hne : row.id ≠ entry.id) :
    (PollingStore.setMessageTimer { store.clearMessageTimer entry with order } entry
      polling).HasTimer space row ↔ store.HasTimer space row := by
  rw [hasTimer_setMessageTimer]
  have hclear : HasTimer { store.clearMessageTimer entry with order } space row ↔
      store.HasTimer space row := (sameExcept_clearMessageTimer store entry).timers space row hne
  tauto

theorem setMessagePolling_spec {store : PollingStore} {entry : MessageMeta} {stamp : OrderStamp}
    (hconsistent : store.order.Consistent) (htracked : store.Tracked entry)
    (hstamp : store.order.orders.get? entry.id = some stamp) (polling : Polling) :
    ∃ next, store.setMessagePolling entry polling = .ok (next, { entry with polling }) ∧
      Reordered entry polling store.order next.order ∧
      SameExcept entry.id store next ∧ next.Tracked { entry with polling } := by
  unfold setMessagePolling
  dsimp only
  rw [order_clearMessageTimer]
  split_ifs with hsame hready
  · subst hsame
    exact ⟨store, rfl, .inl ⟨rfl, Iff.rfl⟩, ⟨⟨rfl, fun _ _ _ => Iff.rfl, fun _ _ => rfl,
      fun _ _ => Iff.rfl⟩, fun _ _ _ => Iff.rfl⟩, htracked⟩
  · obtain ⟨order, horder, hreindexed⟩ :=
      hconsistent.setMessageOrderIndexed htracked.pending hstamp (polling = .ready)
    have hnext := order_setMessageTimer { store.clearMessageTimer entry with order } entry polling
    refine ⟨_, bind_eq_ok.mpr ⟨order, horder, rfl⟩, .inr ⟨stamp, hstamp, ?_⟩, ⟨?_, ?_⟩, ?_⟩
    · rw [hnext]
      exact hreindexed
    · rw [hnext]
      exact hreindexed.sameExcept
    · exact sameExcept_timers store order entry polling
    · constructor
      case pending =>
        intro pending hpending hid
        rw [hnext, hreindexed.pending, OrderStore.mem_reindex] at hpending
        rcases hpending with ⟨hne, -⟩ | ⟨old, hold, hid', rfl⟩
        · exact absurd hid hne
        · exact htracked.pending old hold hid'
      case ready =>
        intro space row hid
        rw [hnext, hreindexed.rows, hreindexed.orders]
        have hold := htracked.ready space row hid
        have hrow : row = toLex (stamp, entry.id) ↔ stamp = row.stamp := by
          constructor
          · rintro rfl
            rfl
          · rintro rfl
            rw [← hid]
            rfl
        dsimp only at hold ⊢
        rw [hstamp, Option.some.injEq] at hold ⊢
        change _ ↔ polling = .ready ∧ space ∈ pollingIndexes entry ∧ stamp = row.stamp
        split_ifs with hown
        · rw [decide_eq_true_eq]
          have hstamp := hrow.mp hown.2
          tauto
        · tauto
      case scheduled => exact htracked.timers order polling
  · obtain ⟨hold, hnew⟩ := not_or.mp hready
    have hnext := order_setMessageTimer
      { store.clearMessageTimer entry with order := store.order } entry polling
    refine ⟨_, rfl, .inl ⟨hnext, iff_of_false hold hnew⟩, ⟨?_, ?_⟩, ?_⟩
    · rw [hnext]
      exact ⟨rfl, fun _ _ _ => Iff.rfl, fun _ _ => rfl, fun _ _ => Iff.rfl⟩
    · exact sameExcept_timers store store.order entry polling
    · constructor
      case pending =>
        rw [hnext]
        exact htracked.pending
      case ready =>
        intro space row hid
        rw [hnext, htracked.ready space row hid]
        exact iff_of_false (fun h => hold h.1) (fun h => hnew h.1)
      case scheduled => exact htracked.timers store.order polling

end PollingStore

end FoundationDbEffect.Cluster
