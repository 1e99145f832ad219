import FoundationDbEffect.Cluster.OrderRows

/-!
# Transactions on the order indexes

An attempt reads a snapshot and buffers mutations, which are applied in their order when it
commits. A key with a versionstamp takes the version of the commit, which the attempt does
not know, so it can clear such a key only with the whole uncommitted tail of its subspace.

The view of an attempt of its own mutations is the order store of the mailbox.
-/

namespace FoundationDbEffect.Cluster

open FoundationDbEffect.Foundation

structure CommittedOrder (κ : Type) where
  rows : κ → OrderedMap ReadyRow Unit
  orders : OrderedMap Snowflake OrderStamp

def CommittedOrder.HasRow {κ : Type} (order : CommittedOrder κ) (space : κ) (row : ReadyRow) :
    Prop :=
  (order.rows space).get? row = some ()

instance {κ : Type} (order : CommittedOrder κ) (space : κ) (row : ReadyRow) :
    Decidable (order.HasRow space row) :=
  inferInstanceAs (Decidable ((order.rows space).get? row = some ()))

/-- The tail of a subspace starts at a version and goes on to its end. -/
inductive OrderMutation (κ : Type) where
  | set (space : κ) (row : ReadyRow)
  | clear (space : κ) (row : ReadyRow)
  | setVersionstampedKey (space : κ) (user : Nat) (id : Snowflake)
  | clearTail (space : κ) (version : Nat)
  | setVersionstampedValue (id : Snowflake) (user : Nat)
  | clearOrder (id : Snowflake)
  deriving DecidableEq

inductive OrderCall (κ : Type) where
  | insert (id : Snowflake) (indexes : List κ) (indexed : Bool)
  | setIndexed (id : Snowflake) (indexes : List κ) (indexed : Bool)
  | remove (id : Snowflake) (indexes : List κ)

variable {κ : Type} [DecidableEq κ]

def OrderMutation.apply (version : Nat) (order : CommittedOrder κ) :
    OrderMutation κ → CommittedOrder κ
  | .set space row =>
      { order with rows := Function.update order.rows space ((order.rows space).set row ()) }
  | .clear space row =>
      { order with rows := Function.update order.rows space ((order.rows space).clear row) }
  | .setVersionstampedKey space user id =>
      { order with
        rows := Function.update order.rows space
          ((order.rows space).set (toLex (toLex (version, user), id)) ()) }
  | .clearTail space tail =>
      { order with
        rows := Function.update order.rows space
          ((order.rows space).clearRange fun row => tail ≤ row.version) }
  | .setVersionstampedValue id user =>
      { order with orders := order.orders.set id (toLex (version, user)) }
  | .clearOrder id => { order with orders := order.orders.clear id }

structure OrderAttempt (κ : Type) where
  readVersion : Nat
  snapshot : CommittedOrder κ
  next : Nat
  pending : List (Pending κ)
  log : List (OrderMutation κ)
  conflicts : List κ
  reads : List Snowflake

namespace OrderAttempt

def start (readVersion : Nat) (snapshot : CommittedOrder κ) : OrderAttempt κ :=
  { readVersion, snapshot, next := 0, pending := [], log := [], conflicts := [], reads := [] }

/-- The snapshot with the mutations of the attempt, whose versionstamps come after all that is
committed. -/
def view (attempt : OrderAttempt κ) : CommittedOrder κ :=
  attempt.log.foldl (OrderMutation.apply (attempt.readVersion + 1)) attempt.snapshot

def commit (attempt : OrderAttempt κ) (version : Nat) (order : CommittedOrder κ) :
    CommittedOrder κ :=
  attempt.log.foldl (OrderMutation.apply version) order

def push (attempt : OrderAttempt κ) (mutation : OrderMutation κ) : OrderAttempt κ :=
  { attempt with log := attempt.log ++ [mutation] }

def writeIndex (attempt : OrderAttempt κ) (space : κ) (entry : Pending κ) : OrderAttempt κ :=
  attempt.push (.setVersionstampedKey space entry.user entry.id)

def insertMessageOrder (attempt : OrderAttempt κ) (id : Snowflake) (indexes : List κ)
    (indexed : Bool) : OrderAttempt κ :=
  let entry : Pending κ := { id, user := attempt.next, indexes, indexed }
  let inserted := { attempt with
    next := attempt.next + 1
    pending := OrderStore.setPending entry attempt.pending }
  let written :=
    if indexed then indexes.foldl (fun attempt index => attempt.writeIndex index entry) inserted
    else inserted
  written.push (.setVersionstampedValue id entry.user)

def pendingEntry (attempt : OrderAttempt κ) (id : Snowflake) : Option (Pending κ) :=
  attempt.pending.find? fun entry => entry.id = id

def messageOrder (attempt : OrderAttempt κ) (id : Snowflake) :
    Except MailboxError (OrderAttempt κ × OrderStamp) :=
  let attempt := { attempt with reads := attempt.reads ++ [id] }
  match attempt.view.orders.get? id with
  | some stamp => .ok (attempt, stamp)
  | none => .error (.missingMessageRecord .order id)

/-- Clear the uncommitted tail of a subspace and reissue its survivors. -/
def reissue (attempt : OrderAttempt κ) (space : κ) : OrderAttempt κ :=
  let cleared := { attempt with conflicts := attempt.conflicts ++ [space] }.push
    (.clearTail space (attempt.readVersion + 1))
  attempt.pending.foldl
    (fun attempt entry =>
      if entry.indexed ∧ space ∈ entry.indexes then attempt.writeIndex space entry else attempt)
    cleared

def setMessageOrderIndexed (attempt : OrderAttempt κ) (id : Snowflake) (indexes : List κ)
    (indexed : Bool) : Except MailboxError (OrderAttempt κ) :=
  match attempt.pendingEntry id with
  | some entry =>
    if entry.indexed = indexed then .ok attempt
    else
      let changed := { entry with indexed }
      let attempt := { attempt with pending := OrderStore.setPending changed attempt.pending }
      .ok (if indexed then
          indexes.foldl (fun attempt space => attempt.writeIndex space changed) attempt
        else indexes.foldl reissue attempt)
  | none => do
    let (attempt, stamp) ← attempt.messageOrder id
    .ok (indexes.foldl
      (fun attempt space =>
        if indexed then attempt.push (.set space (toLex (stamp, id)))
        else attempt.push (.clear space (toLex (stamp, id))))
      attempt)

def removeMessageOrder (attempt : OrderAttempt κ) (id : Snowflake) (indexes : List κ) :
    Except MailboxError (OrderAttempt κ) := do
  let attempt ← attempt.setMessageOrderIndexed id indexes false
  .ok ({ attempt with
    pending := attempt.pending.filter fun entry => entry.id ≠ id }.push (.clearOrder id))

def call (attempt : OrderAttempt κ) : OrderCall κ → Except MailboxError (OrderAttempt κ)
  | .insert id indexes indexed => .ok (attempt.insertMessageOrder id indexes indexed)
  | .setIndexed id indexes indexed => attempt.setMessageOrderIndexed id indexes indexed
  | .remove id indexes => attempt.removeMessageOrder id indexes

/-! ## The view -/

def toStore (attempt : OrderAttempt κ) : OrderStore κ where
  readVersion := attempt.readVersion
  rows := attempt.view.rows
  orders := attempt.view.orders
  next := attempt.next
  pending := attempt.pending
  committed := ∅

theorem view_push (attempt : OrderAttempt κ) (mutation : OrderMutation κ) :
    (attempt.push mutation).view = mutation.apply (attempt.readVersion + 1) attempt.view := by
  unfold view push
  rw [List.foldl_append]
  rfl

structure SameEntries (attempt next : OrderAttempt κ) : Prop where
  readVersion : next.readVersion = attempt.readVersion
  snapshot : next.snapshot = attempt.snapshot
  nextUser : next.next = attempt.next
  pending : next.pending = attempt.pending
  orders : next.view.orders = attempt.view.orders
  conflicts : attempt.conflicts ⊆ next.conflicts

theorem SameEntries.refl (attempt : OrderAttempt κ) : SameEntries attempt attempt :=
  ⟨rfl, rfl, rfl, rfl, rfl, List.Subset.refl _⟩

theorem SameEntries.trans {attempt middle next : OrderAttempt κ}
    (h : SameEntries attempt middle) (h' : SameEntries middle next) : SameEntries attempt next :=
  ⟨h'.readVersion.trans h.readVersion, h'.snapshot.trans h.snapshot,
    h'.nextUser.trans h.nextUser, h'.pending.trans h.pending, h'.orders.trans h.orders,
    List.Subset.trans h.conflicts h'.conflicts⟩

theorem SameEntries.foldl {α : Type} {step : OrderAttempt κ → α → OrderAttempt κ}
    (hstep : ∀ attempt element, SameEntries attempt (step attempt element)) (elements : List α)
    (attempt : OrderAttempt κ) : SameEntries attempt (elements.foldl step attempt) := by
  induction elements generalizing attempt with
  | nil => exact .refl attempt
  | cons element elements ih => exact (hstep attempt element).trans (ih _)

theorem sameEntries_push (attempt : OrderAttempt κ) {mutation : OrderMutation κ}
    (h : ∀ version (order : CommittedOrder κ),
      (mutation.apply version order).orders = order.orders) :
    SameEntries attempt (attempt.push mutation) := by
  refine ⟨rfl, rfl, rfl, rfl, ?_, List.Subset.refl _⟩
  rw [view_push, h]

theorem sameEntries_writeIndex (attempt : OrderAttempt κ) (space : κ) (entry : Pending κ) :
    SameEntries attempt (attempt.writeIndex space entry) :=
  attempt.sameEntries_push fun _ _ => rfl

theorem sameEntries_survivors (pending : List (Pending κ)) (space : κ)
    (attempt : OrderAttempt κ) :
    SameEntries attempt (pending.foldl
      (fun attempt entry =>
        if entry.indexed ∧ space ∈ entry.indexes then attempt.writeIndex space entry else attempt)
      attempt) := by
  apply SameEntries.foldl
  intro attempt entry
  split_ifs
  · exact sameEntries_writeIndex attempt space entry
  · exact .refl attempt

theorem sameEntries_reissue (attempt : OrderAttempt κ) (space : κ) :
    SameEntries attempt (attempt.reissue space) := by
  have hcleared : SameEntries attempt
      ({ attempt with conflicts := attempt.conflicts ++ [space] }.push
        (.clearTail space (attempt.readVersion + 1))) := by
    refine ⟨rfl, rfl, rfl, rfl, ?_, List.subset_append_left _ _⟩
    rw [view_push]
    rfl
  exact hcleared.trans (sameEntries_survivors attempt.pending space _)

theorem sameEntries_marks (indexes : List κ) (mark : ReadyRow) (indexed : Bool)
    (attempt : OrderAttempt κ) :
    SameEntries attempt (indexes.foldl
      (fun attempt space =>
        if indexed then attempt.push (.set space mark) else attempt.push (.clear space mark))
      attempt) := by
  apply SameEntries.foldl
  intro attempt space
  split_ifs
  · exact attempt.sameEntries_push fun _ _ => rfl
  · exact attempt.sameEntries_push fun _ _ => rfl

theorem toStore_writeIndex (attempt : OrderAttempt κ) (space : κ) (entry : Pending κ) :
    (attempt.writeIndex space entry).toStore = attempt.toStore.writeIndex space entry := by
  unfold toStore writeIndex
  rw [view_push]
  rfl

theorem toStore_foldl {α : Type} {step : OrderAttempt κ → α → OrderAttempt κ}
    (step' : OrderStore κ → α → OrderStore κ)
    (hstep : ∀ attempt element, (step attempt element).toStore = step' attempt.toStore element)
    (elements : List α) (attempt : OrderAttempt κ) :
    (elements.foldl step attempt).toStore = elements.foldl step' attempt.toStore := by
  induction elements generalizing attempt with
  | nil => rfl
  | cons element elements ih => rw [List.foldl_cons, List.foldl_cons, ih, hstep]

theorem toStore_insertMessageOrder (attempt : OrderAttempt κ) (id : Snowflake)
    (indexes : List κ) (indexed : Bool) :
    (attempt.insertMessageOrder id indexes indexed).toStore =
      attempt.toStore.insertMessageOrder id indexes indexed := by
  let entry : Pending κ := { id, user := attempt.next, indexes, indexed }
  let inserted : OrderAttempt κ := { attempt with
    next := attempt.next + 1
    pending := OrderStore.setPending entry attempt.pending }
  have hlocator (written : OrderAttempt κ) (hversion : written.readVersion = attempt.readVersion) :
      (written.push (.setVersionstampedValue id entry.user)).toStore =
        { written.toStore with
          orders := written.toStore.orders.set id (attempt.toStore.pendingStamp entry) } := by
    unfold toStore OrderStore.pendingStamp
    rw [view_push, ← hversion]
    rfl
  have hversion : (indexes.foldl (fun attempt index => attempt.writeIndex index entry)
      inserted).readVersion = attempt.readVersion :=
    (SameEntries.foldl (fun attempt index => sameEntries_writeIndex attempt index entry)
      indexes inserted).readVersion
  cases indexed with
  | false => exact hlocator inserted rfl
  | true =>
      refine (hlocator _ hversion).trans ?_
      rw [toStore_foldl (fun store index => store.writeIndex index entry)
        fun attempt index => toStore_writeIndex attempt index entry]
      rfl

theorem toStore_reissue (attempt : OrderAttempt κ) (space : κ) :
    (attempt.reissue space).toStore = attempt.toStore.reissue space := by
  have hsurvivor (attempt : OrderAttempt κ) (entry : Pending κ) :
      (if entry.indexed ∧ space ∈ entry.indexes then attempt.writeIndex space entry
        else attempt).toStore =
      if entry.indexed ∧ space ∈ entry.indexes then attempt.toStore.writeIndex space entry
        else attempt.toStore := by
    split_ifs
    · exact toStore_writeIndex attempt space entry
    · rfl
  unfold reissue OrderStore.reissue
  rw [toStore_foldl (fun store entry =>
    if entry.indexed ∧ space ∈ entry.indexes then store.writeIndex space entry else store)
    hsurvivor]
  congr 1
  unfold toStore
  rw [view_push]
  rfl

theorem toStore_setMessageOrderIndexed (attempt : OrderAttempt κ) (id : Snowflake)
    (indexes : List κ) (indexed : Bool) :
    (attempt.setMessageOrderIndexed id indexes indexed).map toStore =
      attempt.toStore.setMessageOrderIndexed id indexes indexed := by
  unfold setMessageOrderIndexed OrderStore.setMessageOrderIndexed OrderStore.messageOrder
  have hentry : attempt.toStore.pendingEntry id = attempt.pendingEntry id := rfl
  rw [hentry]
  cases attempt.pendingEntry id with
  | some entry =>
      dsimp only
      split_ifs with hsame hindexed
      · rfl
      · refine congrArg Except.ok (toStore_foldl
          (fun store space => store.writeIndex space { entry with indexed })
          (fun attempt space => toStore_writeIndex attempt space { entry with indexed }) _ _)
      · exact congrArg Except.ok (toStore_foldl OrderStore.reissue toStore_reissue _ _)
  | none =>
      unfold messageOrder
      have horder : attempt.toStore.orders = attempt.view.orders := rfl
      have hview : ({ attempt with reads := attempt.reads ++ [id] } : OrderAttempt κ).view =
        attempt.view := rfl
      simp only [horder, hview]
      cases attempt.view.orders.get? id with
      | none => rfl
      | some stamp =>
          have hmark (attempt : OrderAttempt κ) (space : κ) :
              (if indexed then attempt.push (.set space (toLex (stamp, id)))
                else attempt.push (.clear space (toLex (stamp, id)))).toStore =
              if indexed then attempt.toStore.setRow space (toLex (stamp, id))
                else attempt.toStore.clearRow space (toLex (stamp, id)) := by
            unfold toStore
            split_ifs
            · rw [view_push]
              rfl
            · rw [view_push]
              rfl
          exact congrArg Except.ok (toStore_foldl (fun store space =>
            if indexed then store.setRow space (toLex (stamp, id))
            else store.clearRow space (toLex (stamp, id))) hmark _ _)

theorem toStore_removeMessageOrder (attempt : OrderAttempt κ) (id : Snowflake)
    (indexes : List κ) :
    (attempt.removeMessageOrder id indexes).map toStore =
      attempt.toStore.removeMessageOrder id indexes := by
  unfold removeMessageOrder OrderStore.removeMessageOrder
  rw [← toStore_setMessageOrderIndexed]
  cases attempt.setMessageOrderIndexed id indexes false with
  | error error => rfl
  | ok changed =>
      refine congrArg Except.ok ?_
      unfold toStore
      rw [view_push]
      rfl

end OrderAttempt

/-! ## Rows after a commit -/

namespace CommittedOrder

theorem hasRow_update (order : CommittedOrder κ) (space space' : κ)
    (rows : OrderedMap ReadyRow Unit) (row : ReadyRow) :
    ({ order with rows := Function.update order.rows space rows } : CommittedOrder κ).HasRow
      space' row ↔
      if space' = space then rows.get? row = some () else order.HasRow space' row := by
  unfold HasRow
  by_cases hspace : space' = space
  · subst hspace
    simp
  · simp [hspace]

theorem hasRow_set (order : CommittedOrder κ) (version : Nat) (space space' : κ)
    (row row' : ReadyRow) :
    (OrderMutation.apply version order (.set space row)).HasRow space' row' ↔
      space' = space ∧ row' = row ∨ order.HasRow space' row' := by
  unfold OrderMutation.apply
  rw [hasRow_update, OrderedMap.get?_set]
  by_cases hspace : space' = space
  · subst hspace
    by_cases hrow : row' = row <;> simp [hrow, HasRow]
  · simp [hspace]

theorem hasRow_clear (order : CommittedOrder κ) (version : Nat) (space space' : κ)
    (row row' : ReadyRow) :
    (OrderMutation.apply version order (.clear space row)).HasRow space' row' ↔
      ¬ (space' = space ∧ row' = row) ∧ order.HasRow space' row' := by
  unfold OrderMutation.apply
  rw [hasRow_update, OrderedMap.get?_clear]
  by_cases hspace : space' = space
  · subst hspace
    by_cases hrow : row' = row <;> simp [hrow, HasRow]
  · simp [hspace]

theorem hasRow_setVersionstampedKey (order : CommittedOrder κ) (version : Nat) (space space' : κ)
    (user : Nat) (id : Snowflake) (row : ReadyRow) :
    (OrderMutation.apply version order (.setVersionstampedKey space user id)).HasRow space' row ↔
      space' = space ∧ row = toLex (toLex (version, user), id) ∨ order.HasRow space' row :=
  hasRow_set order version space space' _ row

theorem hasRow_clearTail (order : CommittedOrder κ) (version : Nat) (space space' : κ)
    (tail : Nat) (row : ReadyRow) :
    (OrderMutation.apply version order (.clearTail space tail)).HasRow space' row ↔
      order.HasRow space' row ∧ ¬ (space' = space ∧ tail ≤ row.version) := by
  unfold OrderMutation.apply
  rw [hasRow_update, OrderedMap.get?_clearRange]
  by_cases hspace : space' = space
  · subst hspace
    by_cases htail : tail ≤ row.version <;> simp [htail, HasRow]
  · simp [hspace]

end CommittedOrder

namespace OrderAttempt

def rowAt (version : Nat) (entry : Pending κ) : ReadyRow :=
  toLex (toLex (version, entry.user), entry.id)

def IssuedAt (version : Nat) (pending : List (Pending κ)) (space : κ) (row : ReadyRow) : Prop :=
  ∃ entry ∈ pending, entry.indexed = true ∧ space ∈ entry.indexes ∧ row = rowAt version entry

theorem commit_push (attempt : OrderAttempt κ) (mutation : OrderMutation κ) (version : Nat)
    (order : CommittedOrder κ) :
    (attempt.push mutation).commit version order =
      mutation.apply version (attempt.commit version order) := by
  simp [commit, push]

variable {version : Nat} {order : CommittedOrder κ}

theorem hasRow_writeIndex (attempt : OrderAttempt κ) (space : κ) (entry : Pending κ) (space' : κ)
    (row : ReadyRow) :
    ((attempt.writeIndex space entry).commit version order).HasRow space' row ↔
      space' = space ∧ row = rowAt version entry ∨
        (attempt.commit version order).HasRow space' row := by
  rw [writeIndex, commit_push]
  exact CommittedOrder.hasRow_setVersionstampedKey _ version space space' entry.user entry.id row

theorem hasRow_writeIndexes (indexes : List κ) (entry : Pending κ) (attempt : OrderAttempt κ)
    (space : κ) (row : ReadyRow) :
    ((indexes.foldl (fun attempt index => attempt.writeIndex index entry) attempt).commit
      version order).HasRow space row ↔
      space ∈ indexes ∧ row = rowAt version entry ∨
        (attempt.commit version order).HasRow space row := by
  induction indexes generalizing attempt with
  | nil => simp
  | cons index indexes ih =>
      rw [List.foldl_cons, ih, hasRow_writeIndex, List.mem_cons]
      tauto

theorem hasRow_marks (indexes : List κ) (mark : ReadyRow) (indexed : Bool)
    (attempt : OrderAttempt κ) (space : κ) (row : ReadyRow) :
    ((indexes.foldl
      (fun attempt space =>
        if indexed then attempt.push (.set space mark) else attempt.push (.clear space mark))
      attempt).commit version order).HasRow space row ↔
      if space ∈ indexes ∧ row = mark then indexed = true
      else (attempt.commit version order).HasRow space row := by
  induction indexes generalizing attempt with
  | nil => simp
  | cons index indexes ih =>
      rw [List.foldl_cons, ih]
      cases indexed
      · simp only [Bool.false_eq_true, if_false, commit_push, CommittedOrder.hasRow_clear,
          List.mem_cons]
        split_ifs <;> tauto
      · simp only [if_true, commit_push, CommittedOrder.hasRow_set, List.mem_cons]
        split_ifs <;> tauto

theorem hasRow_survivors (pending : List (Pending κ)) (space : κ) (attempt : OrderAttempt κ)
    (space' : κ) (row : ReadyRow) :
    ((pending.foldl
      (fun attempt entry =>
        if entry.indexed ∧ space ∈ entry.indexes then attempt.writeIndex space entry else attempt)
      attempt).commit version order).HasRow space' row ↔
      space' = space ∧ IssuedAt version pending space row ∨
        (attempt.commit version order).HasRow space' row := by
  induction pending generalizing attempt with
  | nil => simp [IssuedAt]
  | cons entry pending ih =>
      rw [List.foldl_cons, ih]
      have hcons : IssuedAt version (entry :: pending) space row ↔
          entry.indexed = true ∧ space ∈ entry.indexes ∧ row = rowAt version entry ∨
            IssuedAt version pending space row := by
        simp [IssuedAt]
      split_ifs with hentry
      · rw [hasRow_writeIndex, hcons]
        tauto
      · rw [hcons]
        tauto

theorem hasRow_reissue (attempt : OrderAttempt κ) (space space' : κ) (row : ReadyRow) :
    ((attempt.reissue space).commit version order).HasRow space' row ↔
      space' = space ∧ IssuedAt version attempt.pending space row ∨
        (attempt.commit version order).HasRow space' row ∧
          ¬ (space' = space ∧ attempt.readVersion < row.version) := by
  unfold reissue
  rw [hasRow_survivors, commit_push, CommittedOrder.hasRow_clearTail]
  rfl

theorem hasRow_reissues (indexes : List κ) (attempt : OrderAttempt κ) (space : κ)
    (row : ReadyRow) :
    ((indexes.foldl reissue attempt).commit version order).HasRow space row ↔
      space ∈ indexes ∧ IssuedAt version attempt.pending space row ∨
        (attempt.commit version order).HasRow space row ∧
          ¬ (space ∈ indexes ∧ attempt.readVersion < row.version) := by
  induction indexes generalizing attempt with
  | nil => simp
  | cons index indexes ih =>
      have hentries := sameEntries_reissue attempt index
      rw [List.foldl_cons, ih, hentries.pending, hentries.readVersion, hasRow_reissue,
        List.mem_cons]
      by_cases hspace : space = index
      · subst hspace
        tauto
      · simp [hspace]

/-! ## Conflicts -/

theorem conflicts_reissue (attempt : OrderAttempt κ) (space : κ) :
    (attempt.reissue space).conflicts = attempt.conflicts ++ [space] := by
  have hsurvivors (pending : List (Pending κ)) (attempt : OrderAttempt κ) :
      (pending.foldl
        (fun attempt entry =>
          if entry.indexed ∧ space ∈ entry.indexes then attempt.writeIndex space entry
          else attempt)
        attempt).conflicts = attempt.conflicts := by
    induction pending generalizing attempt with
    | nil => rfl
    | cons entry pending ih =>
        rw [List.foldl_cons, ih]
        split_ifs <;> rfl
  exact hsurvivors attempt.pending _

theorem conflicts_reissues (indexes : List κ) (attempt : OrderAttempt κ) :
    (indexes.foldl reissue attempt).conflicts = attempt.conflicts ++ indexes := by
  induction indexes generalizing attempt with
  | nil => simp
  | cons index indexes ih => simp [ih, conflicts_reissue]

/-- An attempt that commits at a version over what is then there. The foreign rows are those
whose keys other transactions have written since the read version. -/
structure Commits (attempt : OrderAttempt κ) (version : Nat) (order : CommittedOrder κ)
    (foreign : κ → ReadyRow → Prop) : Prop where
  version : attempt.readVersion < version
  rows : ∀ space row, ¬ foreign space row →
    (order.HasRow space row ↔ attempt.snapshot.HasRow space row)
  tails : ∀ space ∈ attempt.conflicts, ∀ row, attempt.readVersion < row.version →
    ¬ foreign space row
  locators : ∀ id ∈ attempt.reads, order.orders.get? id = attempt.snapshot.orders.get? id

end OrderAttempt

/-- All that is committed has stamps up to the read version. -/
structure CommittedOrder.Visible (readVersion : Nat) (order : CommittedOrder κ) : Prop where
  rows : ∀ space row, order.HasRow space row → row.version ≤ readVersion
  orders : ∀ id stamp, order.orders.get? id = some stamp → (ofLex stamp).1 ≤ readVersion

/-! ## What the calls of a transaction come to -/

/-- The pending messages and the last marks of the committed ones. -/
structure OrderPlan (κ : Type) where
  next : Nat
  pending : Snowflake → Option (Pending κ)
  marks : Snowflake → κ → Option Bool

namespace OrderPlan

def start : OrderPlan κ := { next := 0, pending := fun _ => none, marks := fun _ _ => none }

def setIndexed (plan : OrderPlan κ) (id : Snowflake) (indexes : List κ) (indexed : Bool) :
    OrderPlan κ :=
  match plan.pending id with
  | some entry =>
    { plan with pending := Function.update plan.pending id (some { entry with indexed }) }
  | none =>
    { plan with
      marks := fun id' space =>
        if id' = id ∧ space ∈ indexes then some indexed else plan.marks id' space }

def call (plan : OrderPlan κ) : OrderCall κ → OrderPlan κ
  | .insert id indexes indexed =>
    { plan with
      next := plan.next + 1
      pending := Function.update plan.pending id
        (some { id, user := plan.next, indexes, indexed }) }
  | .setIndexed id indexes indexed => plan.setIndexed id indexes indexed
  | .remove id indexes =>
    let plan := plan.setIndexed id indexes false
    { plan with pending := Function.update plan.pending id none }

/-- Only a message that is not pending is inserted, and a pending one keeps the subspaces of its
insertion. -/
def Admits (plan : OrderPlan κ) : OrderCall κ → Prop
  | .insert id _ _ => plan.pending id = none
  | .setIndexed id indexes _ | .remove id indexes =>
    ∀ entry, plan.pending id = some entry → ∀ space, space ∈ indexes ↔ space ∈ entry.indexes

def AdmitsAll (plan : OrderPlan κ) : List (OrderCall κ) → Prop
  | [] => True
  | call :: calls => plan.Admits call ∧ (plan.call call).AdmitsAll calls

def Own (snapshot : CommittedOrder κ) (row : ReadyRow) : Prop :=
  snapshot.orders.get? row.id = some row.stamp

def Issues (plan : OrderPlan κ) (version : Nat) (space : κ) (row : ReadyRow) : Prop :=
  ∃ entry, plan.pending row.id = some entry ∧ entry.indexed = true ∧ space ∈ entry.indexes ∧
    row.stamp = toLex (version, entry.user)

/-- The row of a committed message that was last set on, or another row that was there and is
not of a committed message last set off. -/
def Keeps (plan : OrderPlan κ) (snapshot order : CommittedOrder κ) (space : κ) (row : ReadyRow) :
    Prop :=
  plan.marks row.id space = some true ∧ Own snapshot row ∨
    order.HasRow space row ∧ ¬ (plan.marks row.id space = some false ∧ Own snapshot row)

omit [DecidableEq κ] in
theorem issues_update {plan : OrderPlan κ} {id : Snowflake} {entry : Option (Pending κ)}
    {version : Nat} {space : κ} {row : ReadyRow} :
    Issues { plan with pending := Function.update plan.pending id entry } version space
      row ↔
      if row.id = id then
        ∃ changed, entry = some changed ∧ changed.indexed = true ∧ space ∈ changed.indexes ∧
          row.stamp = toLex (version, changed.user)
      else plan.Issues version space row := by
  unfold Issues
  by_cases hid : row.id = id
  · simp [hid]
  · simp [hid]

end OrderPlan

/-! ## The rows of an attempt are those of its plan -/

namespace OrderAttempt

/-- An attempt from a snapshot has done what the calls of a plan come to, whatever the version
at which it commits and the state over which it does. -/
structure Rebuilt (readVersion : Nat) (snapshot : CommittedOrder κ) (attempt : OrderAttempt κ)
    (plan : OrderPlan κ) : Prop where
  start : attempt.readVersion = readVersion
  reads : attempt.snapshot = snapshot
  nextUser : plan.next = attempt.next
  ids : attempt.pending.Pairwise fun left right => left.id ≠ right.id
  agrees : ∀ id, plan.pending id = attempt.pendingEntry id
  orders : ∀ id stamp, plan.pending id = none → attempt.view.orders.get? id = some stamp →
    snapshot.orders.get? id = some stamp
  rows : ∀ version order, readVersion < version →
    (∀ space ∈ attempt.conflicts, ∀ row, readVersion < row.version → ¬ order.HasRow space row) →
    ∀ space row, (attempt.commit version order).HasRow space row ↔
      plan.Issues version space row ∨ plan.Keeps snapshot order space row

variable {readVersion : Nat} {snapshot : CommittedOrder κ} {attempt : OrderAttempt κ}
  {plan : OrderPlan κ}

theorem rebuilt_start (readVersion : Nat) (snapshot : CommittedOrder κ) :
    Rebuilt readVersion snapshot (OrderAttempt.start readVersion snapshot) .start where
  start := rfl
  reads := rfl
  nextUser := rfl
  ids := .nil
  agrees := fun _ => rfl
  orders := fun _ _ _ horder => horder
  rows := by
    intro version order _ _ space row
    simp [OrderPlan.Issues, OrderPlan.Keeps, OrderPlan.start, commit, OrderAttempt.start]

omit [DecidableEq κ] in
theorem issuedAt_iff {pending : List (Pending κ)} {version : Nat} {space : κ} {row : ReadyRow}
    (hids : pending.Pairwise fun left right => left.id ≠ right.id) :
    IssuedAt version pending space row ↔
      ∃ entry, pending.find? (fun other => other.id = row.id) = some entry ∧
        entry.indexed = true ∧ space ∈ entry.indexes ∧ row.stamp = toLex (version, entry.user) := by
  constructor
  · rintro ⟨entry, hentry, hindexed, hspace, rfl⟩
    exact ⟨entry, (OrderStore.find?_eq_some hids).mpr ⟨hentry, rfl⟩, hindexed, hspace, rfl⟩
  · rintro ⟨entry, hentry, hindexed, hspace, hstamp⟩
    obtain ⟨hmem, hid⟩ := (OrderStore.find?_eq_some hids).mp hentry
    exact ⟨entry, hmem, hindexed, hspace, ReadyRow.eq_iff.mpr ⟨hid.symm, hstamp⟩⟩

theorem Rebuilt.update (h : Rebuilt readVersion snapshot attempt plan) (entry : Pending κ)
    {next : OrderAttempt κ} (hstart : next.readVersion = attempt.readVersion)
    (hreads : next.snapshot = attempt.snapshot)
    (hpending : next.pending = OrderStore.setPending entry attempt.pending)
    (horders : ∀ id, id ≠ entry.id → next.view.orders.get? id = attempt.view.orders.get? id)
    (hrows : ∀ version order, readVersion < version →
      (∀ space ∈ next.conflicts, ∀ row, readVersion < row.version → ¬ order.HasRow space row) →
      ∀ space row, (next.commit version order).HasRow space row ↔
        (if row.id = entry.id then
          entry.indexed = true ∧ space ∈ entry.indexes ∧ row.stamp = toLex (version, entry.user)
        else plan.Issues version space row) ∨ plan.Keeps snapshot order space row) :
    Rebuilt readVersion snapshot next
      { plan with
        next := next.next
        pending := Function.update plan.pending entry.id (some entry) } := by
  constructor
  case start => exact hstart.trans h.start
  case reads => exact hreads.trans h.reads
  case nextUser => rfl
  case ids =>
    rw [hpending]
    exact OrderStore.ids_setPending h.ids
  case agrees =>
    intro id
    unfold pendingEntry
    rw [hpending, OrderStore.find?_setPending]
    by_cases hid : id = entry.id
    · simp [hid]
    · dsimp only
      rw [Function.update_of_ne hid, if_neg (Ne.symm hid)]
      exact h.agrees id
  case orders =>
    intro id stamp hnone horder
    have hid : id ≠ entry.id := by
      rintro rfl
      simp at hnone
    dsimp only at hnone
    rw [Function.update_of_ne hid] at hnone
    rw [horders id hid] at horder
    exact h.orders id stamp hnone horder
  case rows =>
    intro version order hversion htails space row
    rw [hrows version order hversion htails]
    refine or_congr ?_ Iff.rfl
    refine Iff.trans ?_ OrderPlan.issues_update.symm
    simp

theorem Rebuilt.insertMessageOrder (h : Rebuilt readVersion snapshot attempt plan)
    {id : Snowflake} (hfresh : plan.pending id = none) (indexes : List κ) (indexed : Bool) :
    Rebuilt readVersion snapshot (attempt.insertMessageOrder id indexes indexed)
      (plan.call (.insert id indexes indexed)) := by
  let entry : Pending κ := { id, user := attempt.next, indexes, indexed }
  let inserted : OrderAttempt κ := { attempt with
    next := attempt.next + 1
    pending := OrderStore.setPending entry attempt.pending }
  let written := if indexed then
      indexes.foldl (fun attempt index => attempt.writeIndex index entry) inserted
    else inserted
  have hwritten : SameEntries inserted written := by
    unfold written
    split_ifs
    · exact .foldl (fun attempt index => sameEntries_writeIndex attempt index entry) indexes _
    · exact .refl inserted
  have hrows (version : Nat) (order : CommittedOrder κ) (space : κ) (row : ReadyRow) :
      (written.commit version order).HasRow space row ↔
        (indexed = true ∧ space ∈ indexes ∧ row = rowAt version entry) ∨
          (attempt.commit version order).HasRow space row := by
    unfold written
    split_ifs with hindexed
    · rw [hasRow_writeIndexes]
      simp only [hindexed, true_and]
      rfl
    · simp only [Bool.not_eq_true] at hindexed
      simp only [hindexed, Bool.false_eq_true, false_and, false_or]
      rfl
  have hcall : plan.call (.insert id indexes indexed) =
      { plan with
        next := written.next
        pending := Function.update plan.pending entry.id (some entry) } := by
    unfold OrderPlan.call
    rw [h.nextUser, hwritten.nextUser]
  rw [hcall]
  refine h.update entry hwritten.readVersion hwritten.snapshot hwritten.pending ?_ ?_
  · intro id' hid
    change (written.push (.setVersionstampedValue id entry.user)).view.orders.get? id' = _
    rw [view_push]
    change (written.view.orders.set id _).get? id' = _
    rw [OrderedMap.get?_set_of_ne _ _ hid, hwritten.orders]
    rfl
  · intro version order hversion htails space row
    change (((written.push (.setVersionstampedValue id entry.user))).commit version
      order).HasRow space row ↔ _
    rw [commit_push]
    change (written.commit version order).HasRow space row ↔ _
    have hold := h.rows version order hversion
      (fun space hspace => htails space (hwritten.conflicts hspace)) space row
    rw [hrows, hold, ← or_assoc, rowAt, ReadyRow.eq_iff]
    refine or_congr ?_ Iff.rfl
    by_cases hid : row.id = id
    · have hnone : ¬ plan.Issues version space row := by
        rintro ⟨other, hother, -⟩
        rw [hid, hfresh] at hother
        simp at hother
      simp [hid, hnone, entry]
    · simp [hid, entry]

theorem Rebuilt.turnOn (h : Rebuilt readVersion snapshot attempt plan) {entry : Pending κ}
    {indexes : List κ} (hentry : plan.pending entry.id = some entry)
    (hindexes : ∀ space, space ∈ indexes ↔ space ∈ entry.indexes) :
    Rebuilt readVersion snapshot
      (indexes.foldl
        (fun attempt space => attempt.writeIndex space { entry with indexed := true })
        { attempt with
          pending := OrderStore.setPending { entry with indexed := true } attempt.pending })
      { plan with
        pending := Function.update plan.pending entry.id (some { entry with indexed := true }) } := by
  let changed : Pending κ := { entry with indexed := true }
  let started : OrderAttempt κ := { attempt with
    pending := OrderStore.setPending changed attempt.pending }
  have hentries : SameEntries started
      (indexes.foldl (fun attempt space => attempt.writeIndex space changed) started) :=
    .foldl (fun attempt index => sameEntries_writeIndex attempt index changed) indexes started
  have hupdate := h.update changed hentries.readVersion hentries.snapshot
    hentries.pending (fun id _ => congrArg (OrderedMap.get? · id) hentries.orders) ?_
  · rw [hentries.nextUser, show started.next = plan.next from h.nextUser.symm] at hupdate
    exact hupdate
  · intro version order hversion htails space row
    have hold := h.rows version order hversion
      (fun space hspace => htails space (hentries.conflicts hspace)) space row
    rw [hasRow_writeIndexes]
    change _ ∨ (attempt.commit version order).HasRow space row ↔ _
    rw [hold, ← or_assoc, hindexes, rowAt, ReadyRow.eq_iff]
    refine or_congr ?_ Iff.rfl
    by_cases hid : row.id = entry.id
    · have hissues : plan.Issues version space row → space ∈ entry.indexes ∧
          row.stamp = toLex (version, entry.user) := by
        rintro ⟨other, hother, -, hspace, hstamp⟩
        rw [hid, hentry, Option.some.injEq] at hother
        subst hother
        exact ⟨hspace, hstamp⟩
      simp only [changed, hid, if_true, true_and]
      tauto
    · simp [hid, changed]

/-- A pending message that is set off loses its rows with the tails of its subspaces, and the
others get theirs again. -/
theorem Rebuilt.turnOff (h : Rebuilt readVersion snapshot attempt plan)
    (hsnapshot : snapshot.Visible readVersion) {entry : Pending κ} {indexes : List κ}
    (hentry : plan.pending entry.id = some entry)
    (hindexes : ∀ space, space ∈ indexes ↔ space ∈ entry.indexes) :
    Rebuilt readVersion snapshot
      (indexes.foldl reissue
        { attempt with
          pending := OrderStore.setPending { entry with indexed := false } attempt.pending })
      { plan with
        pending := Function.update plan.pending entry.id
          (some { entry with indexed := false }) } := by
  let changed : Pending κ := { entry with indexed := false }
  let started : OrderAttempt κ := { attempt with
    pending := OrderStore.setPending changed attempt.pending }
  have hentries : SameEntries started (indexes.foldl reissue started) :=
    .foldl sameEntries_reissue indexes started
  have hupdate := h.update changed hentries.readVersion hentries.snapshot
    hentries.pending (fun id _ => congrArg (OrderedMap.get? · id) hentries.orders) ?_
  · rw [hentries.nextUser, show started.next = plan.next from h.nextUser.symm] at hupdate
    exact hupdate
  · intro version order hversion htails space row
    have hold := h.rows version order hversion
      (fun space hspace => htails space (hentries.conflicts hspace)) space row
    have hissued : IssuedAt version started.pending space row ↔
        row.id ≠ entry.id ∧ plan.Issues version space row := by
      rw [issuedAt_iff (OrderStore.ids_setPending h.ids), OrderStore.find?_setPending]
      unfold OrderPlan.Issues
      rw [h.agrees]
      by_cases hid : row.id = entry.id
      · simp [hid, changed]
      · have hid' : ¬ changed.id = row.id := fun heq => hid heq.symm
        simp [hid, hid', pendingEntry]
    have hrow : (started.commit version order).HasRow space row ↔
        (attempt.commit version order).HasRow space row := Iff.rfl
    have hstart : started.readVersion = readVersion := h.start
    rw [hasRow_reissues, hissued, hrow, hold, hstart]
    by_cases hspace : space ∈ indexes
    · have hissues : plan.Issues version space row → readVersion < row.version := by
        rintro ⟨other, -, -, -, hstamp⟩
        rw [ReadyRow.version, hstamp]
        exact hversion
      have hkeeps : plan.Keeps snapshot order space row → ¬ readVersion < row.version := by
        have hconflict : space ∈ (indexes.foldl reissue started).conflicts := by
          rw [conflicts_reissues]
          exact List.mem_append_right _ hspace
        rintro (⟨-, hown⟩ | ⟨hthere, -⟩)
        · exact (hsnapshot.orders _ _ hown).not_gt
        · exact fun htail => htails space hconflict row htail hthere
      have hkept : (plan.Issues version space row ∨ plan.Keeps snapshot order space row) ∧
          ¬ readVersion < row.version ↔ plan.Keeps snapshot order space row := by
        constructor
        · rintro ⟨hrow, htail⟩
          exact hrow.resolve_left fun hrow => htail (hissues hrow)
        · exact fun hrow => ⟨.inr hrow, hkeeps hrow⟩
      simp only [hspace, true_and, hkept]
      by_cases hid : row.id = entry.id <;> simp [hid, changed]
    · have hissues : row.id = entry.id → ¬ plan.Issues version space row := by
        rintro hid ⟨other, hother, -, hother', -⟩
        rw [hid, hentry, Option.some.injEq] at hother
        subst hother
        exact hspace ((hindexes space).mpr hother')
      by_cases hid : row.id = entry.id
      · simp [hid, changed, hspace, hissues hid]
      · simp [hid, changed, hspace]

theorem Rebuilt.mark (h : Rebuilt readVersion snapshot attempt plan) {id : Snowflake}
    (hid : plan.pending id = none) {stamp : OrderStamp}
    (hstamp : snapshot.orders.get? id = some stamp) (indexes : List κ) (indexed : Bool) :
    Rebuilt readVersion snapshot
      (indexes.foldl
        (fun attempt space =>
          if indexed then attempt.push (.set space (toLex (stamp, id)))
          else attempt.push (.clear space (toLex (stamp, id))))
        attempt)
      { plan with
        marks := fun id' space =>
          if id' = id ∧ space ∈ indexes then some indexed else plan.marks id' space } := by
  have hentries := sameEntries_marks indexes (toLex (stamp, id)) indexed attempt
  constructor
  case start => exact hentries.readVersion.trans h.start
  case reads => exact hentries.snapshot.trans h.reads
  case nextUser => exact h.nextUser.trans hentries.nextUser.symm
  case ids =>
    rw [hentries.pending]
    exact h.ids
  case agrees =>
    intro id'
    unfold pendingEntry
    rw [hentries.pending]
    exact h.agrees id'
  case orders =>
    rw [hentries.orders]
    exact h.orders
  case rows =>
    intro version order hversion htails space row
    have hold := h.rows version order hversion
      (fun space hspace => htails space (hentries.conflicts hspace)) space row
    simp only [hasRow_marks, hold, ReadyRow.eq_iff]
    unfold OrderPlan.Keeps OrderPlan.Own
    dsimp only
    by_cases hmarked : row.id = id ∧ space ∈ indexes
    · obtain ⟨rfl, hspace⟩ := hmarked
      have hissues : ¬ plan.Issues version space row := by
        rintro ⟨other, hother, -⟩
        rw [hid] at hother
        simp at hother
      have hissues' : ¬ OrderPlan.Issues { plan with
          marks := fun id' space =>
            if id' = row.id ∧ space ∈ indexes then some indexed else plan.marks id' space }
          version space row := hissues
      by_cases hrow : row.stamp = stamp
      · cases indexed <;> simp [hspace, hissues', hrow, hstamp]
      · have hother : ¬ some stamp = some row.stamp := by
          simpa [eq_comm] using hrow
        simp [hspace, hissues, hissues', hrow, hstamp, hother]
    · have hrow : ¬ (space ∈ indexes ∧ row.id = id ∧ row.stamp = stamp) :=
        fun hrow => hmarked ⟨hrow.2.1, hrow.1⟩
      rw [if_neg hrow, if_neg hmarked]
      exact or_congr Iff.rfl Iff.rfl

theorem Rebuilt.setMessageOrderIndexed (h : Rebuilt readVersion snapshot attempt plan)
    (hsnapshot : snapshot.Visible readVersion) {id : Snowflake} {indexes : List κ}
    (hindexes : ∀ entry, plan.pending id = some entry →
      ∀ space, space ∈ indexes ↔ space ∈ entry.indexes)
    {indexed : Bool} {next : OrderAttempt κ}
    (hnext : attempt.setMessageOrderIndexed id indexes indexed = .ok next) :
    Rebuilt readVersion snapshot next (plan.setIndexed id indexes indexed) := by
  unfold OrderAttempt.setMessageOrderIndexed at hnext
  rw [← h.agrees] at hnext
  unfold OrderPlan.setIndexed
  cases hentry : plan.pending id with
  | none =>
      rw [hentry] at hnext
      obtain ⟨⟨observed, stamp⟩, hstamp, hmarked⟩ := bind_eq_ok.mp hnext
      unfold messageOrder at hstamp
      dsimp only at hstamp
      split at hstamp
      · rename_i horder
        cases hstamp
        cases hmarked
        have hreads : Rebuilt readVersion snapshot
            { attempt with reads := attempt.reads ++ [id] } plan :=
          ⟨h.start, h.reads, h.nextUser, h.ids, h.agrees, h.orders, h.rows⟩
        exact hreads.mark hentry (h.orders id stamp hentry horder) indexes indexed
      · contradiction
  | some entry =>
      have hid : entry.id = id := by
        rw [h.agrees] at hentry
        exact ((OrderStore.find?_eq_some h.ids).mp hentry).2
      subst hid
      rw [hentry] at hnext
      dsimp only at hnext ⊢
      split_ifs at hnext with hsame hindexed
      · cases hnext
        rw [← hsame, ← hentry, Function.update_eq_self]
        exact h
      · cases hnext
        rw [hindexed]
        exact h.turnOn hentry (hindexes entry hentry)
      · cases hnext
        rw [Bool.not_eq_true] at hindexed
        rw [hindexed]
        exact h.turnOff hsnapshot hentry (hindexes entry hentry)

/-- A message that is not pending, or is and is off, has no row of its own to lose. -/
theorem Rebuilt.forget (h : Rebuilt readVersion snapshot attempt plan) {id : Snowflake}
    (hoff : ∀ entry, plan.pending id = some entry → entry.indexed = false) :
    Rebuilt readVersion snapshot
      ({ attempt with pending := attempt.pending.filter fun entry => entry.id ≠ id }.push
        (.clearOrder id))
      { plan with pending := Function.update plan.pending id none } := by
  constructor
  case start => exact h.start
  case reads => exact h.reads
  case nextUser => exact h.nextUser
  case ids => exact h.ids.filter _
  case agrees =>
    intro id'
    change _ = (attempt.pending.filter _).find? _
    rw [List.find?_filter]
    by_cases hid : id' = id
    · subst hid
      dsimp only
      rw [Function.update_self, eq_comm, List.find?_eq_none]
      simp
    · dsimp only
      rw [Function.update_of_ne hid, h.agrees, pendingEntry]
      congr 1
      funext other
      by_cases hother : other.id = id' <;> simp [hother, hid]
  case orders =>
    intro id' stamp hnone horder
    rw [view_push] at horder
    change (attempt.view.orders.clear id).get? id' = _ at horder
    rw [OrderedMap.get?_clear] at horder
    split_ifs at horder with hid
    dsimp only at hnone
    rw [Function.update_of_ne hid] at hnone
    exact h.orders id' stamp hnone horder
  case rows =>
    intro version order hversion htails space row
    rw [commit_push]
    refine (h.rows version order hversion htails space row).trans (or_congr ?_ Iff.rfl)
    refine Iff.trans ?_ OrderPlan.issues_update.symm
    by_cases hid : row.id = id
    · simp only [hid, if_true, reduceCtorEq, false_and, exists_false, iff_false]
      rintro ⟨entry, hentry, hindexed, -⟩
      rw [hid] at hentry
      rw [hoff entry hentry] at hindexed
      contradiction
    · rw [if_neg hid]

theorem Rebuilt.call (h : Rebuilt readVersion snapshot attempt plan)
    (hsnapshot : snapshot.Visible readVersion) {call : OrderCall κ} (hadmits : plan.Admits call)
    {next : OrderAttempt κ} (hnext : attempt.call call = .ok next) :
    Rebuilt readVersion snapshot next (plan.call call) := by
  cases call with
  | insert id indexes indexed =>
      cases hnext
      exact h.insertMessageOrder hadmits indexes indexed
  | setIndexed id indexes indexed => exact h.setMessageOrderIndexed hsnapshot hadmits hnext
  | remove id indexes =>
      obtain ⟨changed, hchanged, hremoved⟩ := bind_eq_ok.mp hnext
      cases hremoved
      refine (h.setMessageOrderIndexed hsnapshot hadmits hchanged).forget ?_
      intro entry hentry
      unfold OrderPlan.setIndexed at hentry
      split at hentry
      · simp only [Function.update_self, Option.some.injEq] at hentry
        rw [← hentry]
      · rename_i hnone
        rw [hnone] at hentry
        contradiction

theorem Rebuilt.calls (h : Rebuilt readVersion snapshot attempt plan)
    (hsnapshot : snapshot.Visible readVersion) {calls : List (OrderCall κ)}
    (hadmits : plan.AdmitsAll calls) {next : OrderAttempt κ}
    (hnext : calls.foldlM OrderAttempt.call attempt = .ok next) :
    Rebuilt readVersion snapshot next (calls.foldl OrderPlan.call plan) := by
  induction calls generalizing attempt plan with
  | nil =>
      cases hnext
      exact h
  | cons call calls ih =>
      rw [List.foldlM_cons] at hnext
      obtain ⟨middle, hmiddle, hrest⟩ := bind_eq_ok.mp hnext
      exact ih (h.call hsnapshot hadmits.1 hmiddle) hadmits.2 hrest

/-- A transaction that commits leaves in every subspace the rows that its calls come to. It
erases a row that another transaction has written since its read version only where that row
is of a message, committed before, that its own calls have last set off. -/
theorem rows_of_commit {readVersion : Nat} {snapshot : CommittedOrder κ}
    (hsnapshot : snapshot.Visible readVersion) {calls : List (OrderCall κ)}
    (hadmits : OrderPlan.start.AdmitsAll calls) {attempt : OrderAttempt κ}
    (hcalls : calls.foldlM call (start readVersion snapshot) = .ok attempt)
    {version : Nat} {order : CommittedOrder κ} {foreign : κ → ReadyRow → Prop}
    (hcommits : attempt.Commits version order foreign) :
    (∀ space row, (attempt.commit version order).HasRow space row ↔
      (calls.foldl OrderPlan.call .start).Issues version space row ∨
        (calls.foldl OrderPlan.call .start).Keeps snapshot order space row) ∧
    ∀ space row, foreign space row → order.HasRow space row →
      (attempt.commit version order).HasRow space row ∨
        row.version ≤ readVersion ∧ OrderPlan.Own snapshot row ∧
          (calls.foldl OrderPlan.call .start).marks row.id space = some false := by
  have hrebuilt := (rebuilt_start readVersion snapshot).calls hsnapshot hadmits hcalls
  have hrows := hrebuilt.rows version order (hrebuilt.start ▸ hcommits.version) (by
    intro space hspace row hversion hrow
    rw [← hrebuilt.start] at hversion
    have hread := (hcommits.rows space row (hcommits.tails space hspace row hversion)).mp hrow
    rw [hrebuilt.reads] at hread
    rw [hrebuilt.start] at hversion
    exact (hsnapshot.rows space row hread).not_gt hversion)
  refine ⟨hrows, ?_⟩
  intro space row _ hrow
  by_cases hmarked : (calls.foldl OrderPlan.call .start).marks row.id space = some false ∧
      OrderPlan.Own snapshot row
  · exact .inr ⟨hsnapshot.orders _ _ hmarked.2, hmarked.2, hmarked.1⟩
  · exact .inl ((hrows space row).mpr (.inr (.inr ⟨hrow, hmarked⟩)))

def oneReady : CommittedOrder String where
  rows := fun space =>
    if space = "first" then OrderedMap.empty.set (toLex (toLex (1, 0), 3)) () else ∅
  orders := OrderedMap.empty.set 3 (toLex (1, 0))

def oneMore : CommittedOrder String :=
  OrderMutation.apply 2 oneReady (.set "first" (toLex (toLex (2, 0), 4)))

theorem visible_oneReady : oneReady.Visible 1 where
  rows := by
    intro space row hrow
    unfold CommittedOrder.HasRow oneReady at hrow
    dsimp only at hrow
    split_ifs at hrow
    · rw [OrderedMap.get?_set] at hrow
      split_ifs at hrow with hsame
      · rw [hsame]
        exact le_refl 1
      · simp at hrow
    · simp at hrow
  orders := by
    intro id stamp hstamp
    unfold oneReady at hstamp
    rw [OrderedMap.get?_set] at hstamp
    split_ifs at hstamp
    · rw [← Option.some.inj hstamp]
      exact le_refl 1
    · simp at hstamp

/-- Two messages are inserted, and one of them and message 3 complete. -/
def completions : List (OrderCall String) :=
  [.insert 7 ["second"] true, .insert 8 ["second"] true, .setIndexed 7 ["second"] false,
    .remove 3 ["first"]]

theorem rows_of_commit_completions :
    ∃ attempt, completions.foldlM call (start 1 oneReady) = .ok attempt ∧
      (∀ (space : String) (row : ReadyRow), (attempt.commit 4 oneMore).HasRow space row ↔
        (completions.foldl OrderPlan.call .start).Issues 4 space row ∨
          (completions.foldl OrderPlan.call .start).Keeps oneReady oneMore space row) ∧
      ∀ (space : String) (row : ReadyRow),
        space = "first" ∧ row = toLex (toLex (2, 0), 4) → oneMore.HasRow space row →
        (attempt.commit 4 oneMore).HasRow space row ∨
          row.version ≤ 1 ∧ OrderPlan.Own oneReady row ∧
            (completions.foldl OrderPlan.call .start).marks row.id space = some false := by
  obtain ⟨attempt, hcalls, hstart, hreads, hconflicts⟩ : ∃ attempt,
      completions.foldlM call (start 1 oneReady) = .ok attempt ∧ attempt.readVersion = 1 ∧
        attempt.snapshot = oneReady ∧ attempt.conflicts = ["second"] :=
    ⟨_, rfl, rfl, rfl, rfl⟩
  have hadmits : OrderPlan.start.AdmitsAll completions := by
    simp [completions, OrderPlan.AdmitsAll, OrderPlan.Admits, OrderPlan.call,
      OrderPlan.setIndexed, OrderPlan.start]
  refine ⟨attempt, hcalls, rows_of_commit visible_oneReady hadmits hcalls ⟨?_, ?_, ?_, ?_⟩⟩
  · omega
  · intro space row hforeign
    rw [hreads, oneMore, CommittedOrder.hasRow_set, or_iff_right hforeign]
  · intro space hspace row _
    rw [hconflicts, List.mem_singleton] at hspace
    simp [hspace]
  · intro id _
    rw [hreads]
    rfl

def noneReady : CommittedOrder String where
  rows := fun _ => ∅
  orders := OrderedMap.empty.set 1 (toLex (0, 0))

def oneSet : CommittedOrder String :=
  OrderMutation.apply 1 noneReady (.set "first" (toLex (toLex (0, 0), 1)))

/-- A pending message that is set on in other subspaces than those of its insertion has no row
there, one that is inserted twice has two rows, and a row that another transaction has set
since the read version is erased by a transaction that sets its message off. -/
theorem not_rows_of_commit_otherCalls :
    (∃ attempt,
      [OrderCall.insert 2 ["first"] true, .setIndexed 2 ["second"] true].foldlM call
        (start 0 noneReady) = .ok attempt ∧
      attempt.Commits 1 noneReady (fun _ _ => False) ∧
      ¬ (attempt.commit 1 noneReady).HasRow "second" (toLex (toLex (1, 0), 2))) ∧
    (∃ attempt,
      [OrderCall.insert 2 ["first"] true, .insert 2 ["first"] true].foldlM call
        (start 0 noneReady) = .ok attempt ∧
      attempt.Commits 1 noneReady (fun _ _ => False) ∧
      (attempt.commit 1 noneReady).HasRow "first" (toLex (toLex (1, 0), 2)) ∧
      (attempt.commit 1 noneReady).HasRow "first" (toLex (toLex (1, 1), 2))) ∧
    ∃ attempt,
      [OrderCall.setIndexed 1 ["first"] false].foldlM call (start 0 noneReady) = .ok attempt ∧
      attempt.Commits 2 oneSet
        (fun space row => space = "first" ∧ row = toLex (toLex (0, 0), 1)) ∧
      oneSet.HasRow "first" (toLex (toLex (0, 0), 1)) ∧
      ¬ (attempt.commit 2 oneSet).HasRow "first" (toLex (toLex (0, 0), 1)) := by
  have hquiet (attempt : OrderAttempt String) (hstart : attempt.readVersion = 0)
      (hreads : attempt.snapshot = noneReady) :
      attempt.Commits 1 noneReady (fun _ _ => False) := by
    refine ⟨by omega, ?_, fun _ _ _ _ => not_false, ?_⟩
    · exact fun _ _ _ => hreads ▸ Iff.rfl
    · exact fun _ _ => hreads ▸ rfl
  refine ⟨⟨_, rfl, hquiet _ rfl rfl, by decide +kernel⟩,
    ⟨_, rfl, hquiet _ rfl rfl, by decide +kernel, by decide +kernel⟩, ?_⟩
  refine ⟨_, rfl, ⟨Nat.two_pos, ?_, ?_, fun _ _ => rfl⟩, by decide +kernel, by decide +kernel⟩
  · intro space row hforeign
    exact (CommittedOrder.hasRow_set _ _ _ _ _ _).trans (or_iff_right hforeign)
  · intro space hspace
    exact absurd hspace List.not_mem_nil

end OrderAttempt

end FoundationDbEffect.Cluster
