import FoundationDbEffect.Cluster.OrderMerge
import FoundationDbEffect.Foundation.PageLoop

/-!
# The batches of a visit

A visit of the order indexes hands out the messages in the order of their enqueueing: the merge
of the cursors is one pass over the rows in that order, and the batches of the pass are those
rows, page by page.
-/

namespace FoundationDbEffect.Cluster

open FoundationDbEffect.Foundation

section

variable {κ σ : Type} (order : σ → OrderStore κ)
  (setOrder : OrderStore κ → σ → σ)

/-! ## One pass over the rows -/

def noteRow (readVersion : Nat) (row : ReadyRow) (state : σ) : σ :=
  if row.version ≤ readVersion then observe order setOrder row state else state

def noteRows (readVersion : Nat) (rows : List ReadyRow) (state : σ) : σ :=
  rows.foldl (fun state row => noteRow order setOrder readVersion row state) state

def appendRows (readVersion : Nat)
    (visit : List Snowflake → σ → Except MailboxError (σ × Bool)) :
    List Snowflake → List ReadyRow → σ → Except MailboxError (σ × List Snowflake × Bool)
  | batch, [], state => .ok (state, batch, true)
  | batch, row :: rows, state => do
    let (state, batch, more) ←
      appendId visit batch row.id (noteRow order setOrder readVersion row state)
    if more then appendRows readVersion visit batch rows state else .ok (state, batch, false)

def visitLast (visit : List Snowflake → σ → Except MailboxError (σ × Bool))
    (appended : σ × List Snowflake × Bool) : Except MailboxError σ :=
  if !appended.2.2 || appended.2.1.isEmpty then .ok appended.1
  else do
    let (state, _) ← visit appended.2.1 appended.1
    .ok state

def visitBatch (readVersion : Nat)
    (visit : List Snowflake → σ → Except MailboxError (σ × Bool)) (batch : List ReadyRow)
    (state : σ) : Except MailboxError (σ × Bool) :=
  visit (batch.map ReadyRow.id) (noteRows order setOrder readVersion batch state)

def batchesOf (rows : List ReadyRow) : List (List ReadyRow) :=
  (pagesOf pageSize rows).filter (· ≠ [])

variable {order setOrder} {readVersion : Nat}
  {visit : List Snowflake → σ → Except MailboxError (σ × Bool)}

theorem appendRows_append (batch : List Snowflake) (front back : List ReadyRow) (state : σ) :
    appendRows order setOrder readVersion visit batch (front ++ back) state =
      (appendRows order setOrder readVersion visit batch front state >>= fun appended =>
        if appended.2.2 then
          appendRows order setOrder readVersion visit appended.2.1 back appended.1
        else .ok (appended.1, appended.2.1, false)) := by
  induction front generalizing batch state with
  | nil => rfl
  | cons row front ih =>
      rw [List.cons_append, appendRows, appendRows]
      cases appendId visit batch row.id (noteRow order setOrder readVersion row state) with
      | error error => rfl
      | ok appended =>
          obtain ⟨next, batch', more⟩ := appended
          cases more with
          | false => rfl
          | true => exact ih batch' next

theorem appendEach_eq {rows : List ReadyRow} (hrows : ∀ row ∈ rows, readVersion < row.version)
    (batch : List Snowflake) (state : σ) :
    appendEach visit batch (rows.map ReadyRow.id) state =
      appendRows order setOrder readVersion visit batch rows state := by
  induction rows generalizing batch state with
  | nil => rfl
  | cons row rows ih =>
      obtain ⟨hrow, hlater⟩ := List.forall_mem_cons.mp hrows
      rw [List.map_cons, appendEach, appendRows, noteRow, if_neg (Nat.not_le.mpr hrow)]
      refine bind_congr fun appended => ?_
      dsimp only
      rw [ih hlater]

theorem appendRows_short {rows : List ReadyRow} {batch : List Snowflake}
    (h : batch.length + rows.length < pageSize) (state : σ) :
    appendRows order setOrder readVersion visit batch rows state =
      .ok (noteRows order setOrder readVersion rows state, batch ++ rows.map ReadyRow.id, true) := by
  induction rows generalizing batch state with
  | nil => rw [List.map_nil, List.append_nil]; rfl
  | cons row rows ih =>
      rw [List.length_cons] at h
      have hlength : (batch ++ [row.id]).length < pageSize := by
        rw [List.length_append, List.length_singleton]
        omega
      have hrest := @ih (batch ++ [row.id])
        (by rw [List.length_append, List.length_singleton]; omega)
        (noteRow order setOrder readVersion row state)
      rw [appendRows, appendId]
      dsimp only
      rw [if_pos hlength]
      refine hrest.trans ?_
      rw [List.append_assoc, List.singleton_append]
      rfl

theorem appendRows_full {rows : List ReadyRow} {batch : List Snowflake} (hne : rows ≠ [])
    (h : batch.length + rows.length = pageSize) (state : σ) :
    appendRows order setOrder readVersion visit batch rows state =
      (visit (batch ++ rows.map ReadyRow.id) (noteRows order setOrder readVersion rows state) >>=
        fun visited => .ok (visited.1, [], visited.2)) := by
  obtain ⟨front, last, rfl⟩ := List.eq_nil_or_concat' rows |>.resolve_left hne
  rw [List.length_append, List.length_singleton] at h
  rw [appendRows_append, appendRows_short (by omega)]
  change (appendId visit (batch ++ front.map ReadyRow.id) last.id
    (noteRow order setOrder readVersion last (noteRows order setOrder readVersion front state)) >>=
      _) = _
  have hfull : ¬ (batch ++ front.map ReadyRow.id ++ [last.id]).length < pageSize := by
    simp only [List.length_append, List.length_map, List.length_singleton]
    omega
  rw [appendId]
  dsimp only
  rw [if_neg hfull, noteRows, noteRows, List.foldl_append, List.map_append, ← List.append_assoc,
    List.foldl_cons, List.foldl_nil, List.map_cons, List.map_nil]
  generalize visit _ _ = visited
  cases visited with
  | error error => rfl
  | ok visited =>
      obtain ⟨next, more⟩ := visited
      cases more <;> rfl

/-- The pass hands the batches of its rows to the visitor. -/
theorem appendRows_batches (rows : List ReadyRow) (state : σ) :
    (appendRows order setOrder readVersion visit [] rows state >>= visitLast visit) =
      (visitEach (visitBatch order setOrder readVersion visit) (batchesOf rows) state).map
        Prod.fst := by
  induction rows using pagesOf.induct pageSize generalizing state with
  | case1 rows hlast =>
      have hshort : rows.length < pageSize := hlast.resolve_left (by decide)
      rw [appendRows_short (by simpa using hshort), batchesOf, pagesOf_short hshort]
      cases rows with
      | nil => rfl
      | cons row rows =>
          change (visit ((row :: rows).map ReadyRow.id)
            (noteRows order setOrder readVersion (row :: rows) state) >>= _) = _
          rw [List.filter_cons_of_pos (by simp), List.filter_nil, visitEach, visitBatch]
          generalize visit _ _ = visited
          cases visited with
          | error error => rfl
          | ok visited =>
              obtain ⟨next, more⟩ := visited
              cases more <;> rfl
  | case2 rows hfull ih =>
      have hlimit : 0 < pageSize := by decide
      have hlength : ¬ rows.length < pageSize := fun h => hfull (.inr h)
      have htake : (rows.take pageSize).length = pageSize := by
        rw [List.length_take]
        omega
      have hne : rows.take pageSize ≠ [] := by
        intro hnil
        rw [hnil] at htake
        exact absurd htake (by decide)
      rw [batchesOf, pagesOf_full hlimit hlength, List.filter_cons_of_pos (by simpa using hne),
        visitEach, visitBatch]
      nth_rewrite 1 [← List.take_append_drop pageSize rows]
      rw [appendRows_append, appendRows_full hne (by simpa using htake), List.nil_append]
      generalize visit _ _ = visited
      cases visited with
      | error error => rfl
      | ok visited =>
          obtain ⟨next, more⟩ := visited
          cases more with
          | false => rfl
          | true => exact ih next

/-! ## The merge is the pass -/

/-- A visitor that leaves the messages as they are that it has not been given yet, and what it
relies on. -/
structure LeavesRest [DecidableEq κ] (order : σ → OrderStore κ) (setOrder : OrderStore κ → σ → σ)
    (indexes : List κ) (ids : List Snowflake)
    (visit : List Snowflake → σ → Except MailboxError (σ × Bool)) (I : σ → Prop) : Prop where
  observe : ∀ state row, I state → I (observe order setOrder row state)
  visit : ∀ batch rest state next more, batch ≠ [] → batch ++ rest <:+ ids → I state →
    visit batch state = .ok (next, more) → I next ∧ Undisturbed indexes rest (order state) (order next)

theorem appendId_eq_ok {batch batch' : List Snowflake} {id : Snowflake} {state next : σ}
    (h : appendId visit batch id state = .ok (next, batch', true)) :
    (next = state ∧ batch' = batch ++ [id]) ∨
      (visit (batch ++ [id]) state = .ok (next, true) ∧ batch' = []) := by
  unfold appendId at h
  dsimp only at h
  split at h
  · cases h
    exact .inl ⟨rfl, rfl⟩
  · obtain ⟨⟨visited, more⟩, hvisit, heq⟩ := bind_eq_ok.mp h
    cases heq
    exact .inr ⟨hvisit, rfl⟩

theorem mergeCursors_eq [DecidableEq κ] {indexes : List κ} {ids pending : List Snowflake}
    {I : σ → Prop} (hset : ∀ store state, order (setOrder store state) = store)
    (h : LeavesRest order setOrder indexes ids visit I) {fuel : Nat}
    {cursors : List (OrderCursor κ)} {target : List ReadyRow} {batch : List Snowflake} {state : σ}
    (hfuel : target.length < fuel) (hmerging : Merging (order state) indexes cursors target)
    (hvisible : ∀ row ∈ target, row.version ≤ readVersion) (hstate : I state)
    (hids : batch ++ (target.map ReadyRow.id ++ pending) <:+ ids)
    (hpending : pendingIds (order state) indexes = pending) :
    mergeCursors order setOrder visit fuel cursors batch state =
        appendRows order setOrder readVersion visit batch target state ∧
      ∀ finish batch', appendRows order setOrder readVersion visit batch target state =
          .ok (finish, batch', true) → pendingIds (order finish) indexes = pending := by
  induction target generalizing fuel cursors batch state with
  | nil =>
      obtain ⟨fuel, rfl⟩ := Nat.exists_eq_add_of_lt hfuel
      rw [List.length_nil, Nat.zero_add, mergeCursors, hmerging.select_nil]
      refine ⟨rfl, ?_⟩
      exact fun _ _ hend => by cases hend; exact hpending
  | cons row target ih =>
      obtain ⟨fuel, rfl⟩ := Nat.exists_eq_add_of_lt hfuel
      obtain ⟨position, hselect, hgoOn⟩ := hmerging.select_cons
      obtain ⟨hrow, hlater⟩ := List.forall_mem_cons.mp hvisible
      rw [mergeCursors, hselect, appendRows, noteRow, if_pos hrow]
      dsimp only
      cases happend : appendId visit batch row.id (observe order setOrder row state) with
      | error error => exact ⟨rfl, fun _ _ hend => by cases hend⟩
      | ok appended =>
          obtain ⟨next, batch₁, more⟩ := appended
          cases more with
          | false => exact ⟨rfl, fun _ _ hend => by cases hend⟩
          | true =>
              have hobserved := h.observe state row hstate
              have hnext : I next ∧ Undisturbed indexes (target.map ReadyRow.id ++ pending)
                  (order state) (order next) ∧
                  batch₁ ++ (target.map ReadyRow.id ++ pending) <:+ ids := by
                rw [List.map_cons, List.cons_append, List.append_cons] at hids
                rcases appendId_eq_ok happend with ⟨rfl, rfl⟩ | ⟨hvisit, rfl⟩
                · exact ⟨hobserved, (Undisturbed.refl _ _ _).of_observe hset, hids⟩
                · obtain ⟨hI, hundisturbed⟩ :=
                    h.visit _ _ _ _ _ (by simp) hids hobserved hvisit
                  exact ⟨hI, hundisturbed.of_observe hset, (List.suffix_append _ _).trans hids⟩
              obtain ⟨hI, hundisturbed, hids'⟩ := hnext
              have hfuel' : target.length < (row :: target).length + fuel := by
                rw [List.length_cons]
                omega
              refine ih hfuel' (hgoOn _ _ hundisturbed ?_) hlater hI hids' ?_
              · exact fun row hrow => List.mem_append_left _ (List.mem_map_of_mem hrow)
              · refine (hundisturbed.pending fun id hid => ?_).trans hpending
                exact List.mem_append_right _ (hpending ▸ hid)

end

/-! ## The content of the indexes -/

section

variable {κ : Type} [DecidableEq κ] {store : OrderStore κ} {indexes : List κ}

def pendingRows (store : OrderStore κ) (indexes : List κ) : List ReadyRow :=
  ((store.pending.filter fun entry =>
    entry.indexed ∧ entry.indexes.any fun space => space ∈ indexes).mergeSort
      fun left right => left.user ≤ right.user).map store.pendingRow

/-- The rows of some subspaces in the order of their enqueueing: the committed ones by their
stamps, then the pending ones by their user versions. -/
def enqueuedRows (store : OrderStore κ) (indexes : List κ) : List ReadyRow :=
  mergedRows store indexes ++ pendingRows store indexes

/-- A message has one stamp, which no other message has, and a row in one of the subspaces at
most. -/
structure Enqueued (store : OrderStore κ) (indexes : List κ) : Prop where
  stamps : ∀ space ∈ indexes, ∀ space' ∈ indexes, ∀ row row', store.HasRow space row →
    store.HasRow space' row' → (row.stamp = row'.stamp ↔ row.id = row'.id)
  single : ∀ space ∈ indexes, ∀ space' ∈ indexes, ∀ row row', store.HasRow space row →
    store.HasRow space' row' → row.id = row'.id → space = space'
  keys : store.pending.Pairwise fun left right => left.id ≠ right.id
  rows : ∀ entry ∈ store.pending, entry.indexed = true → ∀ space ∈ entry.indexes,
    space ∈ indexes → store.HasRow space (store.pendingRow entry)

theorem ids_pendingRows (store : OrderStore κ) (indexes : List κ) :
    (pendingRows store indexes).map ReadyRow.id = pendingIds store indexes := by
  rw [pendingRows, List.map_map]
  rfl

theorem mem_pendingRows {row : ReadyRow} :
    row ∈ pendingRows store indexes ↔ ∃ entry ∈ store.pending, entry.indexed = true ∧
      (∃ space ∈ indexes, space ∈ entry.indexes) ∧ row = store.pendingRow entry := by
  unfold pendingRows
  simp only [List.mem_map, List.mem_mergeSort, List.mem_filter, decide_eq_true_eq, List.any_eq_true]
  constructor
  · rintro ⟨entry, ⟨hentry, hindexed, space, hspace, hindexes⟩, rfl⟩
    exact ⟨entry, hentry, hindexed, ⟨space, hindexes, hspace⟩, rfl⟩
  · rintro ⟨entry, hentry, hindexed, ⟨space, hspace, hindexes⟩, rfl⟩
    exact ⟨entry, ⟨hentry, hindexed, space, hindexes, hspace⟩, rfl⟩

theorem mem_enqueuedRows {row : ReadyRow} :
    row ∈ enqueuedRows store indexes ↔
      (row.version ≤ store.readVersion ∧ ∃ space ∈ indexes, store.HasRow space row) ∨
      ∃ entry ∈ store.pending, entry.indexed = true ∧
        (∃ space ∈ indexes, space ∈ entry.indexes) ∧ row = store.pendingRow entry := by
  rw [enqueuedRows, List.mem_append, mem_mergedRows, mem_pendingRows]

namespace Enqueued

variable (h : Enqueued store indexes)

include h

omit [DecidableEq κ] in
theorem distinct : Distinct store indexes := by
  intro space hspace space' hspace' row row' hrow hrow' hstamp
  have hid := (h.stamps space hspace space' hspace' row row' hrow hrow').mp hstamp
  refine ⟨h.single space hspace space' hspace' row row' hrow hrow' hid, ?_⟩
  rw [row.eq_toLex, row'.eq_toLex, hstamp, hid]

theorem hasRow {row : ReadyRow} (hrow : row ∈ enqueuedRows store indexes) :
    ∃ space ∈ indexes, store.HasRow space row := by
  rcases mem_enqueuedRows.mp hrow with ⟨-, hcommitted⟩ |
    ⟨entry, hentry, hindexed, ⟨space, hspace, hindexes⟩, rfl⟩
  · exact hcommitted
  · exact ⟨space, hspace, h.rows entry hentry hindexed space hindexes hspace⟩

theorem pendingRows_sorted :
    (pendingRows store indexes).Pairwise fun left right => left.stamp < right.stamp := by
  unfold pendingRows
  set entries := store.pending.filter fun entry =>
    entry.indexed ∧ entry.indexes.any fun space => space ∈ indexes with hentries
  have hrow (entry : Pending κ) (hentry : entry ∈ entries) :
      ∃ space ∈ indexes, store.HasRow space (store.pendingRow entry) := by
    simp only [hentries, List.mem_filter, decide_eq_true_eq, List.any_eq_true] at hentry
    obtain ⟨hpending, hindexed, space, hspace, hindexes⟩ := hentry
    exact ⟨space, hindexes, h.rows entry hpending hindexed space hspace hindexes⟩
  have hne : entries.Pairwise fun left right => left.user ≠ right.user := by
    refine List.Pairwise.imp_of_mem ?_ (h.keys.filter _)
    intro left right hleft hright hid huser
    obtain ⟨space, hspace, hleft⟩ := hrow left hleft
    obtain ⟨space', hspace', hright⟩ := hrow right hright
    refine hid ((h.stamps space hspace space' hspace' _ _ hleft hright).mp ?_)
    change store.pendingStamp left = store.pendingStamp right
    rw [OrderStore.pendingStamp, OrderStore.pendingStamp, huser]
  have hle : (entries.mergeSort fun left right => left.user ≤ right.user).Pairwise
      fun left right => decide (left.user ≤ right.user) = true := by
    apply List.pairwise_mergeSort
    · intro a b c hab hbc
      rw [decide_eq_true_eq] at hab hbc ⊢
      exact hab.trans hbc
    · intro a b
      rw [Bool.or_eq_true, decide_eq_true_eq, decide_eq_true_eq]
      exact le_total _ _
  have hsorted := hle.and
    ((List.mergeSort_perm entries _).symm.pairwise hne fun hne => hne.symm)
  refine List.pairwise_map.mpr (hsorted.imp ?_)
  rintro left right ⟨hle, hne⟩
  refine Prod.Lex.toLex_lt_toLex.mpr (.inr ⟨rfl, ?_⟩)
  exact lt_of_le_of_ne (decide_eq_true_eq.mp hle) hne

theorem sorted :
    (enqueuedRows store indexes).Pairwise fun left right => left.stamp < right.stamp := by
  refine List.pairwise_append.mpr ⟨mergedRows_sorted h.distinct, h.pendingRows_sorted, ?_⟩
  intro left hleft right hright
  obtain ⟨entry, -, -, -, rfl⟩ := mem_pendingRows.mp hright
  exact Prod.Lex.toLex_lt_toLex.mpr (.inl (Nat.lt_succ_of_le (mem_mergedRows.mp hleft).1))

theorem nodup : ((enqueuedRows store indexes).map ReadyRow.id).Nodup := by
  refine List.pairwise_map.mpr (List.Pairwise.imp_of_mem ?_ h.sorted)
  intro left right hleft hright hlt hid
  obtain ⟨space, hspace, hrow⟩ := h.hasRow hleft
  obtain ⟨space', hspace', hrow'⟩ := h.hasRow hright
  exact hlt.ne ((h.stamps space hspace space' hspace' left right hrow hrow').mpr hid)

end Enqueued

end

/-! ## The visit -/

section

variable {κ σ : Type} [DecidableEq κ] (order : σ → OrderStore κ)
  (setOrder : OrderStore κ → σ → σ)

/-- The visit with a bound on the rows that its merge consumes. -/
def visitMessageOrderWithin (fuel : Nat) (indexes : List κ)
    (visit : List Snowflake → σ → Except MailboxError (σ × Bool)) (state : σ) :
    Except MailboxError σ := do
  let (merged, batch, more) ← mergeCursors order setOrder visit fuel
    (indexes.eraseDups.map (OrderCursor.start (order state))) [] state
  if !more then .ok merged
  else do
    let appended ← appendEach visit batch (pendingIds (order merged) indexes) merged
    visitLast visit appended

theorem visitMessageOrder_eq_within (indexes : List κ)
    (visit : List Snowflake → σ → Except MailboxError (σ × Bool)) (state : σ) :
    visitMessageOrder order setOrder indexes visit state =
      visitMessageOrderWithin order setOrder
        ((indexes.eraseDups.map fun space => ((order state).rows space).entries.length).sum + 1)
        indexes visit state := rfl

variable {order setOrder} {indexes : List κ}
  {visit : List Snowflake → σ → Except MailboxError (σ × Bool)} {I : σ → Prop} {state : σ}

theorem visitMessageOrderWithin_eq (hset : ∀ store state, order (setOrder store state) = store)
    (hcontent : Enqueued (order state) indexes)
    (h : LeavesRest order setOrder indexes
      ((enqueuedRows (order state) indexes).map ReadyRow.id) visit I) (hstate : I state)
    {fuel : Nat} (hfuel : (mergedRows (order state) indexes).length < fuel) :
    visitMessageOrderWithin order setOrder fuel indexes visit state =
      (visitEach (visitBatch order setOrder (order state).readVersion visit)
        (batchesOf (enqueuedRows (order state) indexes)) state).map Prod.fst := by
  have hids : [] ++ ((mergedRows (order state) indexes).map ReadyRow.id ++
      pendingIds (order state) indexes) <:+
        (enqueuedRows (order state) indexes).map ReadyRow.id := by
    rw [enqueuedRows, List.map_append, ids_pendingRows]
    exact List.suffix_rfl
  obtain ⟨hmerge, hpending⟩ := mergeCursors_eq hset h hfuel (merging_start hcontent.distinct)
    (fun row hrow => (mem_mergedRows.mp hrow).1) hstate hids rfl
  rw [visitMessageOrderWithin, hmerge, ← appendRows_batches, enqueuedRows, appendRows_append,
    bind_assoc]
  cases hrows : appendRows order setOrder (order state).readVersion visit []
      (mergedRows (order state) indexes) state with
  | error error => rfl
  | ok appended =>
      obtain ⟨finish, batch, more⟩ := appended
      cases more with
      | false => rfl
      | true =>
          change (appendEach visit batch (pendingIds (order finish) indexes) finish >>=
            visitLast visit) = (appendRows order setOrder (order state).readVersion visit batch
              (pendingRows (order state) indexes) finish >>= visitLast visit)
          rw [hpending finish batch hrows, ← ids_pendingRows, appendEach_eq]
          intro row hrow
          obtain ⟨entry, -, -, -, rfl⟩ := mem_pendingRows.mp hrow
          exact Nat.lt_succ_self _

end

/-! ## Batches -/

theorem batchesOf_short {rows : List ReadyRow} (h : rows.length < pageSize) (hne : rows ≠ []) :
    batchesOf rows = [rows] := by
  rw [batchesOf, pagesOf_short h, List.filter_cons_of_pos (by simpa using hne), List.filter_nil]

theorem batchesOf_full {rows : List ReadyRow} (h : ¬ rows.length < pageSize) :
    batchesOf rows = rows.take pageSize :: batchesOf (rows.drop pageSize) := by
  have hne : rows.take pageSize ≠ [] := by
    rw [Ne, List.take_eq_nil_iff]
    rintro (hzero | rfl)
    · exact absurd hzero (by decide)
    · exact h (by decide)
  rw [batchesOf, pagesOf_full (by decide) h, List.filter_cons_of_pos (by simpa using hne)]
  rfl

theorem flatten_batchesOf (rows : List ReadyRow) : (batchesOf rows).flatten = rows :=
  List.flatten_filter_ne_nil.trans (flatten_pagesOf pageSize rows)

theorem length_batchesOf (rows : List ReadyRow) :
    (∀ batch ∈ batchesOf rows, batch ≠ [] ∧ batch.length ≤ pageSize) ∧
      ∀ batch ∈ (batchesOf rows).dropLast, batch.length = pageSize := by
  induction rows using pagesOf.induct pageSize with
  | case1 rows hlast =>
      have hshort : rows.length < pageSize := hlast.resolve_left (by decide)
      by_cases hne : rows = []
      · rw [hne, batchesOf, pagesOf_short (by decide)]
        simp
      · rw [batchesOf_short hshort hne]
        refine ⟨?_, by simp⟩
        rintro batch hbatch
        rw [List.mem_singleton.mp hbatch]
        exact ⟨hne, hshort.le⟩
  | case2 rows hfull ih =>
      have hlong : ¬ rows.length < pageSize := fun h => hfull (.inr h)
      have htake : (rows.take pageSize).length = pageSize := by
        rw [List.length_take]
        omega
      have hne : rows.take pageSize ≠ [] := by
        rintro hnil
        rw [hnil] at htake
        exact absurd htake (by decide)
      obtain ⟨hall, hfull⟩ := ih
      rw [batchesOf_full hlong]
      refine ⟨List.forall_mem_cons.mpr ⟨⟨hne, htake.le⟩, hall⟩, ?_⟩
      cases hrest : batchesOf (rows.drop pageSize) with
      | nil => simp
      | cons batch batches =>
          rw [hrest] at hfull
          rw [List.dropLast_cons_cons]
          exact List.forall_mem_cons.mpr ⟨htake, hfull⟩

/-! ## The exact merge -/

def setStore {κ τ : Type} (store : OrderStore κ) (state : OrderStore κ × τ) : OrderStore κ × τ :=
  (store, state.2)

/-- The visitor is given the messages of the subspaces in the order of their enqueueing, each
once, in full batches but for the last one, until it stops, and the merge ends when it has
consumed the committed rows. -/
theorem visitMessageOrder_exact {κ τ : Type} [DecidableEq κ] {indexes : List κ}
    {visit : List Snowflake → OrderStore κ × τ → Except MailboxError ((OrderStore κ × τ) × Bool)}
    {I : OrderStore κ × τ → Prop} {start : OrderStore κ × τ}
    (hcontent : Enqueued start.1 indexes) (hstart : I start)
    (hvisit : LeavesRest Prod.fst setStore indexes
      ((enqueuedRows start.1 indexes).map ReadyRow.id) visit I) :
    (enqueuedRows start.1 indexes).Pairwise (fun left right => left.stamp < right.stamp) ∧
    ((enqueuedRows start.1 indexes).map ReadyRow.id).Nodup ∧
    (∀ row, row ∈ enqueuedRows start.1 indexes ↔
      (row.version ≤ start.1.readVersion ∧ ∃ space ∈ indexes, start.1.HasRow space row) ∨
      ∃ entry ∈ start.1.pending, entry.indexed = true ∧
        (∃ space ∈ indexes, space ∈ entry.indexes) ∧ row = start.1.pendingRow entry) ∧
    (batchesOf (enqueuedRows start.1 indexes)).flatten = enqueuedRows start.1 indexes ∧
    (∀ batch ∈ batchesOf (enqueuedRows start.1 indexes), batch ≠ [] ∧ batch.length ≤ pageSize) ∧
    (∀ batch ∈ (batchesOf (enqueuedRows start.1 indexes)).dropLast, batch.length = pageSize) ∧
    visitMessageOrder Prod.fst setStore indexes visit start =
      (visitEach (visitBatch Prod.fst setStore start.1.readVersion visit)
        (batchesOf (enqueuedRows start.1 indexes)) start).map Prod.fst ∧
    ∀ fuel, (mergedRows start.1 indexes).length < fuel →
      visitMessageOrderWithin Prod.fst setStore fuel indexes visit start =
        visitMessageOrder Prod.fst setStore indexes visit start := by
  have hwithin {fuel : Nat} (hfuel : (mergedRows start.1 indexes).length < fuel) :=
    visitMessageOrderWithin_eq (fun _ _ => rfl) hcontent hvisit hstart hfuel
  have hvisited := hwithin (Nat.lt_succ_of_le (length_mergedRows start.1 indexes))
  rw [← visitMessageOrder_eq_within] at hvisited
  obtain ⟨hall, hfull⟩ := length_batchesOf (enqueuedRows start.1 indexes)
  exact ⟨hcontent.sorted, hcontent.nodup, fun _ => mem_enqueuedRows, flatten_batchesOf _, hall,
    hfull, hvisited, fun _ hfuel => (hwithin hfuel).trans hvisited.symm⟩

/-! ## A visitor that removes the messages it is given -/

def removeGiven (batch : List Snowflake) (state : OrderStore String × List (List Snowflake)) :
    Except MailboxError ((OrderStore String × List (List Snowflake)) × Bool) :=
  let (store, given) := state
  .ok (({ store with
    rows := fun space => (store.rows space).clearRange fun row => row.id ∈ batch },
    given ++ [batch]), true)

theorem leavesRest_removeGiven {indexes : List String} {ids : List Snowflake} (h : ids.Nodup) :
    LeavesRest Prod.fst setStore indexes ids removeGiven fun _ => True where
  observe := fun _ _ _ => trivial
  visit := by
    rintro batch rest ⟨store, given⟩ _ _ - hids - ⟨⟩
    refine ⟨trivial, rfl, ?_, ?_, fun _ => rfl⟩
    · intro space _ row _ hrow
      rw [OrderStore.HasRow, OrderedMap.get?_clearRange] at hrow
      split_ifs at hrow
      exact hrow
    · intro space _ row _ hrest hrow
      rw [OrderStore.HasRow, OrderedMap.get?_clearRange, if_neg]
      · exact hrow
      · rw [decide_eq_true_eq]
        intro hbatch
        exact List.disjoint_of_nodup_append (h.sublist hids.sublist) hbatch hrest

/-- Messages 7 and 3 are committed, and message 9 is pending. -/
def threeMessages : OrderStore String where
  readVersion := 1
  rows := fun space =>
    if space = "first" then
      (OrderedMap.empty.set (toLex (toLex (1, 0), 7)) ()).set (toLex (toLex (2, 0), 9)) ()
    else if space = "second" then OrderedMap.empty.set (toLex (toLex (1, 1), 3)) ()
    else ∅
  orders := ∅
  next := 1
  pending := [⟨9, 0, ["first"], true⟩]
  committed := ∅

theorem hasRow_threeMessages {space : String} {row : ReadyRow} :
    threeMessages.HasRow space row ↔
      (space = "first" ∧ (row = toLex (toLex (2, 0), 9) ∨ row = toLex (toLex (1, 0), 7))) ∨
        (space = "second" ∧ row = toLex (toLex (1, 1), 3)) := by
  unfold OrderStore.HasRow threeMessages
  dsimp only
  split_ifs with hfirst hsecond
  · simp [OrderedMap.get?_set, hfirst, or_iff_not_imp_left]
  · simp [OrderedMap.get?_set, hsecond]
  · simp [hfirst, hsecond]

theorem enqueued_threeMessages : Enqueued threeMessages ["first", "second", "first"] where
  stamps := by
    intro space _ space' _ row row' hrow hrow'
    rw [hasRow_threeMessages] at hrow hrow'
    rcases hrow with ⟨-, rfl | rfl⟩ | ⟨-, rfl⟩ <;> rcases hrow' with ⟨-, rfl | rfl⟩ | ⟨-, rfl⟩ <;>
      decide
  single := by
    intro space _ space' _ row row' hrow hrow' hid
    rw [hasRow_threeMessages] at hrow hrow'
    rcases hrow with ⟨rfl, rfl | rfl⟩ | ⟨rfl, rfl⟩ <;>
      rcases hrow' with ⟨rfl, rfl | rfl⟩ | ⟨rfl, rfl⟩ <;> first | rfl | cases hid
  keys := List.pairwise_singleton _ _
  rows := by
    intro entry hentry _ space hspace _
    obtain rfl := List.mem_singleton.mp hentry
    exact hasRow_threeMessages.mpr (.inl ⟨List.mem_singleton.mp hspace, .inl rfl⟩)

theorem enqueuedRows_threeMessages :
    enqueuedRows threeMessages ["first", "second", "first"] =
      [toLex (toLex (1, 0), 7), toLex (toLex (1, 1), 3), toLex (toLex (2, 0), 9)] := by
  have hvisible : (["first", "second", "first"].eraseDups.flatMap fun space =>
      threeMessages.visibleAfter space none) =
        [toLex (toLex (1, 0), 7), toLex (toLex (1, 1), 3)] := by decide
  rw [enqueuedRows, mergedRows, hvisible, List.mergeSort_of_pairwise (by decide), pendingRows,
    List.mergeSort_of_pairwise (by decide)]
  rfl

/-- A repeated subspace is visited once, and the pending message comes last. -/
theorem visitMessageOrder_exact_removed :
    (visitMessageOrder Prod.fst setStore ["first", "second", "first"] removeGiven
      (threeMessages, [])).map Prod.snd = .ok [[7, 3, 9]] := by
  have hvisit := @visitMessageOrder_exact String (List (List Snowflake)) _ _ removeGiven _
    (threeMessages, []) enqueued_threeMessages trivial
    (leavesRest_removeGiven enqueued_threeMessages.nodup)
  obtain ⟨-, -, -, -, -, -, hbatches, -⟩ := hvisit
  rw [hbatches, enqueuedRows_threeMessages, batchesOf_short (by decide) (by decide)]
  rfl

end FoundationDbEffect.Cluster
