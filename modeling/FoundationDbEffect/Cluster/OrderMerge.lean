import FoundationDbEffect.Cluster.OrderRows
import Mathlib.Algebra.Order.BigOperators.Group.List
import Mathlib.Algebra.Order.Ring.Nat
import Mathlib.Data.List.Sort

/-!
# The merge of the order indexes

The cursors of a visit hand out the rows of their subspaces in the order of their stamps,
page by page, while the visitor may clear rows that it has been given. The rule of a visit
has an invariant that knows the ids that the visitor is still to be given.
-/

namespace FoundationDbEffect.Cluster

open FoundationDbEffect.Foundation

variable {κ : Type}

/-! ## Cursors -/

def OrderStore.visibleAfter (store : OrderStore κ) (space : κ) (after : Option ReadyRow) :
    List ReadyRow :=
  (store.rows space).keysAfter (fun row => row.version < store.readVersion + 1) after

theorem OrderStore.mem_visibleAfter {store : OrderStore κ} {space : κ} {after : Option ReadyRow}
    {row : ReadyRow} :
    row ∈ store.visibleAfter space after ↔ row.version ≤ store.readVersion ∧
      (∀ last ∈ after, last < row) ∧ store.HasRow space row := by
  rw [OrderStore.visibleAfter, OrderedMap.mem_keysAfter, decide_eq_true_eq, Nat.lt_succ_iff,
    Option.all_eq_true]
  simp only [decide_eq_true_eq, OrderStore.HasRow, Option.isSome_iff_exists]
  exact ⟨fun ⟨h, h', _, h''⟩ => ⟨h, h', h''⟩, fun ⟨h, h', h''⟩ => ⟨h, h', (), h''⟩⟩

namespace OrderCursor

def rest (store : OrderStore κ) (cursor : OrderCursor κ) : List ReadyRow :=
  cursor.rows ++ if cursor.done then [] else store.visibleAfter cursor.space cursor.begin

def remaining (store : OrderStore κ) (cursor : OrderCursor κ) : List ReadyRow :=
  cursor.head.toList ++ cursor.rest store

structure Valid (store : OrderStore κ) (cursor : OrderCursor κ) : Prop where
  head : cursor.head = none → cursor.rest store = []
  sorted : (cursor.remaining store).Pairwise (· < ·)

theorem next_space (store : OrderStore κ) (cursor : OrderCursor κ) :
    (cursor.next store).space = cursor.space := by
  unfold next
  split
  · rfl
  · split <;> rfl

theorem page_append (store : OrderStore κ) (space : κ) (after : Option ReadyRow)
    {page : List ReadyRow} (hpage : (store.visibleAfter space after).take pageSize = page) :
    (page ++ if decide (page.length < pageSize) then []
      else store.visibleAfter space (page.getLast?.or after)) = store.visibleAfter space after := by
  have hlength := congrArg List.length hpage
  rw [List.length_take] at hlength
  split_ifs with hshort
  all_goals rw [decide_eq_true_eq] at hshort
  · rw [List.append_nil, ← hpage, List.take_of_length_le (by omega)]
  · cases hlast : page.getLast? with
    | none =>
        rw [List.getLast?_eq_none_iff] at hlast
        rw [hlast] at hshort
        exact absurd (by decide) hshort
    | some last =>
        rw [← hpage] at hlast
        have hnext := OrderedMap.keysAfter_last hlast
        change store.visibleAfter space (some last) =
          (store.visibleAfter space after).drop pageSize at hnext
        rw [Option.some_or, hnext, ← hpage, List.take_append_drop]

theorem next_spec (store : OrderStore κ) (cursor : OrderCursor κ) :
    (cursor.next store).head = (cursor.rest store).head? ∧
      (cursor.next store).rest store = (cursor.rest store).tail := by
  cases hrows : cursor.rows with
  | cons row rows =>
      unfold next rest
      rw [hrows]
      exact ⟨rfl, rfl⟩
  | nil =>
      unfold next rest
      rw [hrows]
      dsimp only
      cases hdone : cursor.done with
      | true => simp
      | false =>
          have happend := page_append store cursor.space cursor.begin rfl
          rw [if_neg Bool.false_ne_true, if_neg Bool.false_ne_true, List.nil_append, ← happend]
          change ((store.visibleAfter cursor.space cursor.begin).take pageSize).head? = _ ∧
            ((store.visibleAfter cursor.space cursor.begin).take pageSize).tail ++
              (if decide (((store.visibleAfter cursor.space cursor.begin).take pageSize).length <
                pageSize) then []
              else store.visibleAfter cursor.space
                (((store.visibleAfter cursor.space cursor.begin).take pageSize).getLast?.or
                  cursor.begin)) = _
          cases (store.visibleAfter cursor.space cursor.begin).take pageSize with
          | nil => exact ⟨rfl, rfl⟩
          | cons row rows => exact ⟨rfl, rfl⟩

theorem remaining_next (store : OrderStore κ) (cursor : OrderCursor κ) :
    (cursor.next store).remaining store = cursor.rest store := by
  obtain ⟨hhead, hrest⟩ := next_spec store cursor
  rw [remaining, hhead, hrest]
  cases cursor.rest store <;> rfl

theorem valid_next {store : OrderStore κ} {cursor : OrderCursor κ}
    (hsorted : (cursor.rest store).Pairwise (· < ·)) : (cursor.next store).Valid store := by
  obtain ⟨hhead, hrest⟩ := next_spec store cursor
  constructor
  · intro hnone
    rw [hhead, List.head?_eq_none_iff] at hnone
    rw [hrest, hnone]
    rfl
  · rw [remaining_next]
    exact hsorted

theorem start_space (store : OrderStore κ) (space : κ) : (start store space).space = space :=
  next_space store _

theorem remaining_start (store : OrderStore κ) (space : κ) :
    (start store space).remaining store = store.visibleAfter space none := by
  rw [start, remaining_next]
  rfl

theorem start_valid (store : OrderStore κ) (space : κ) : (start store space).Valid store :=
  valid_next (OrderedMap.keysAfter_sorted _ _ _)

theorem remaining_congr {store next : OrderStore κ} {cursor : OrderCursor κ}
    (h : cursor.rest next = cursor.rest store) : cursor.remaining next = cursor.remaining store := by
  rw [remaining, remaining, h]

theorem Valid.congr {store next : OrderStore κ} {cursor : OrderCursor κ}
    (hvalid : cursor.Valid store) (h : cursor.rest next = cursor.rest store) :
    cursor.Valid next := by
  constructor
  · rw [h]
    exact hvalid.head
  · rw [remaining_congr h]
    exact hvalid.sorted

theorem Valid.head_le {store : OrderStore κ} {cursor : OrderCursor κ} (h : cursor.Valid store)
    {row : ReadyRow} (hrow : row ∈ cursor.remaining store) :
    ∃ head, cursor.head = some head ∧ head.stamp ≤ row.stamp := by
  cases hhead : cursor.head with
  | none =>
      rw [remaining, hhead, h.head hhead] at hrow
      exact absurd hrow (by simp)
  | some head =>
      refine ⟨head, rfl, ?_⟩
      have hsorted := h.sorted
      rw [remaining, hhead] at hrow hsorted
      rcases List.mem_cons.mp hrow with rfl | hrow
      · exact le_rfl
      · exact Prod.Lex.monotone_fst_ofLex ((List.pairwise_cons.mp hsorted).1 row hrow).le

end OrderCursor

theorem selectCursor_eq_none {cursors : List (OrderCursor κ)} (h : selectCursor cursors = none) :
    ∀ cursor ∈ cursors, cursor.head = none := by
  induction cursors with
  | nil => simp
  | cons cursor rest ih =>
      rw [selectCursor] at h
      cases hhead : cursor.head <;> cases hrest : selectCursor rest <;> rw [hhead, hrest] at h
      · intro other hother
        rcases List.mem_cons.mp hother with rfl | hother
        · exact hhead
        · exact ih hrest other hother
      · exact nomatch h
      · exact nomatch h
      · dsimp only [Option.map_some] at h
        split_ifs at h

theorem selectCursor_eq_some {cursors : List (OrderCursor κ)} {position : Nat} {row : ReadyRow}
    (h : selectCursor cursors = some (position, row)) :
    (∃ front cursor back, cursors = front ++ cursor :: back ∧ front.length = position ∧
      cursor.head = some row) ∧
    ∀ cursor ∈ cursors, ∀ head ∈ cursor.head, row.stamp ≤ head.stamp := by
  induction cursors generalizing position row with
  | nil => exact nomatch h
  | cons cursor rest ih =>
      have hskip {position : Nat} {row : ReadyRow} (hrest : selectCursor rest = some (position, row)) :
          ∃ front selected back, cursor :: rest = front ++ selected :: back ∧
            front.length = position + 1 ∧ selected.head = some row := by
        obtain ⟨⟨front, selected, back, rfl, rfl, hhead⟩, -⟩ := ih hrest
        exact ⟨cursor :: front, selected, back, rfl, rfl, hhead⟩
      rw [selectCursor] at h
      cases hhead : cursor.head with
      | none =>
          cases hrest : selectCursor rest with
          | none =>
              rw [hhead, hrest] at h
              exact nomatch h
          | some selected =>
              rw [hhead, hrest] at h
              cases h
              refine ⟨hskip hrest, ?_⟩
              intro other hother head hmem
              rcases List.mem_cons.mp hother with rfl | hother
              · rw [hhead] at hmem
                exact nomatch hmem
              · exact (ih hrest).2 other hother head hmem
      | some own =>
          cases hrest : selectCursor rest with
          | none =>
              rw [hhead, hrest] at h
              cases h
              refine ⟨⟨[], cursor, rest, rfl, rfl, hhead⟩, ?_⟩
              intro other hother head hmem
              rcases List.mem_cons.mp hother with rfl | hother
              · rw [hhead] at hmem
                cases hmem
                exact le_rfl
              · rw [selectCursor_eq_none hrest other hother] at hmem
                exact nomatch hmem
          | some selected =>
              rw [hhead, hrest] at h
              dsimp only [Option.map_some] at h
              split_ifs at h with hlt
              · cases h
                refine ⟨hskip hrest, ?_⟩
                intro other hother head hmem
                rcases List.mem_cons.mp hother with rfl | hother
                · rw [hhead] at hmem
                  cases hmem
                  exact hlt.le
                · exact (ih hrest).2 other hother head hmem
              · cases h
                refine ⟨⟨[], cursor, rest, rfl, rfl, hhead⟩, ?_⟩
                intro other hother head hmem
                rcases List.mem_cons.mp hother with rfl | hother
                · rw [hhead] at hmem
                  cases hmem
                  exact le_rfl
                · exact (not_lt.mp hlt).trans ((ih hrest).2 other hother head hmem)

theorem modify_append {α : Type} (front : List α) (element : α) (back : List α) (f : α → α) :
    (front ++ element :: back).modify front.length f = front ++ f element :: back := by
  induction front with
  | nil => rfl
  | cons head front ih => rw [List.cons_append, List.length_cons, List.modify_succ_cons, ih]; rfl

theorem selectCursor_target {store : OrderStore κ} {cursors : List (OrderCursor κ)}
    (hvalid : ∀ cursor ∈ cursors, cursor.Valid store) {row : ReadyRow} {target : List ReadyRow}
    (hsorted : (row :: target).Pairwise fun left right => left.stamp < right.stamp)
    (hperm : (row :: target).Perm (cursors.flatMap fun cursor => cursor.remaining store)) :
    ∃ front cursor back, cursors = front ++ cursor :: back ∧
      selectCursor cursors = some (front.length, row) ∧
      target.Perm ((front ++ cursor.next store :: back).flatMap
        fun cursor => cursor.remaining store) := by
  obtain ⟨own, hown, hmem⟩ := List.mem_flatMap.mp (hperm.subset List.mem_cons_self)
  obtain ⟨ownHead, hownHead, hle⟩ := (hvalid own hown).head_le hmem
  cases hselect : selectCursor cursors with
  | none =>
      rw [selectCursor_eq_none hselect own hown] at hownHead
      exact nomatch hownHead
  | some selected =>
      obtain ⟨position, first⟩ := selected
      obtain ⟨⟨front, cursor, back, rfl, rfl, hhead⟩, hleast⟩ := selectCursor_eq_some hselect
      have hremaining : cursor.remaining store = first :: cursor.rest store := by
        rw [OrderCursor.remaining, hhead]
        rfl
      have hfirst : first = row := by
        have hfirstMem : first ∈ row :: target := by
          apply hperm.symm.subset
          exact List.mem_flatMap.mpr ⟨cursor, by simp, by simp [hremaining]⟩
        rcases List.mem_cons.mp hfirstMem with heq | htarget
        · exact heq
        · have hlt := (List.pairwise_cons.mp hsorted).1 first htarget
          exact absurd hlt ((hleast own hown ownHead hownHead).trans hle).not_gt
      subst hfirst
      refine ⟨front, cursor, back, rfl, rfl, ?_⟩
      refine List.Perm.cons_inv (hperm.trans ?_)
      simp only [List.flatMap_append, List.flatMap_cons, hremaining,
        OrderCursor.remaining_next, List.cons_append]
      exact List.perm_middle

/-! ## The merge -/

/-- What a visitor may do to the rows: it adds none, and clears none of the messages that it
is still to be given. -/
structure Undisturbed [DecidableEq κ] (indexes : List κ) (rest : List Snowflake)
    (store next : OrderStore κ) : Prop where
  readVersion : next.readVersion = store.readVersion
  rows : ∀ space ∈ indexes, ∀ row, row.version ≤ store.readVersion →
    next.HasRow space row → store.HasRow space row
  kept : ∀ space ∈ indexes, ∀ row, row.version ≤ store.readVersion → row.id ∈ rest →
    store.HasRow space row → next.HasRow space row
  pending : (∀ id ∈ pendingIds store indexes, id ∈ rest) →
    pendingIds next indexes = pendingIds store indexes

theorem Undisturbed.visibleAfter [DecidableEq κ] {indexes : List κ} {rest : List Snowflake}
    {store next : OrderStore κ} (h : Undisturbed indexes rest store next) {space : κ}
    (hspace : space ∈ indexes) {after : Option ReadyRow}
    (hrest : ∀ row ∈ store.visibleAfter space after, row.id ∈ rest) :
    next.visibleAfter space after = store.visibleAfter space after := by
  have hmem (row : ReadyRow) :
      row ∈ next.visibleAfter space after ↔ row ∈ store.visibleAfter space after := by
    rw [OrderStore.mem_visibleAfter, OrderStore.mem_visibleAfter, h.readVersion]
    constructor
    · rintro ⟨hversion, hafter, hrow⟩
      exact ⟨hversion, hafter, h.rows space hspace row hversion hrow⟩
    · rintro ⟨hversion, hafter, hrow⟩
      have hid := hrest row (OrderStore.mem_visibleAfter.mpr ⟨hversion, hafter, hrow⟩)
      exact ⟨hversion, hafter, h.kept space hspace row hversion hid hrow⟩
  have hnodup {store : OrderStore κ} : (store.visibleAfter space after).Nodup :=
    (OrderedMap.keysAfter_sorted _ _ _).imp ne_of_lt
  have hperm := (List.perm_ext_iff_of_nodup hnodup hnodup).mpr hmem
  exact hperm.eq_of_pairwise (fun _ _ _ _ hlt hgt => absurd hlt hgt.not_gt)
    (OrderedMap.keysAfter_sorted _ _ _) (OrderedMap.keysAfter_sorted _ _ _)

theorem Undisturbed.rest [DecidableEq κ] {indexes : List κ} {rest : List Snowflake}
    {store next : OrderStore κ} (h : Undisturbed indexes rest store next)
    {cursor : OrderCursor κ} (hspace : cursor.space ∈ indexes)
    (hrest : ∀ row ∈ cursor.rest store, row.id ∈ rest) :
    cursor.rest next = cursor.rest store := by
  unfold OrderCursor.rest at hrest ⊢
  split_ifs at hrest ⊢
  · rfl
  · rw [h.visibleAfter hspace]
    intro row hrow
    exact hrest row (List.mem_append_right _ hrow)

section

variable {σ : Type} [DecidableEq κ]

theorem Undisturbed.refl (indexes : List κ) (rest : List Snowflake) (store : OrderStore κ) :
    Undisturbed indexes rest store store :=
  ⟨rfl, fun _ _ _ _ hrow => hrow, fun _ _ _ _ _ hrow => hrow, fun _ => rfl⟩

theorem Undisturbed.trans {indexes : List κ} {rest : List Snowflake}
    {store middle next : OrderStore κ} (h : Undisturbed indexes rest store middle)
    (h' : Undisturbed indexes rest middle next) : Undisturbed indexes rest store next where
  readVersion := h'.readVersion.trans h.readVersion
  rows := by
    intro space hspace row hversion hrow
    exact h.rows space hspace row hversion
      (h'.rows space hspace row (h.readVersion ▸ hversion) hrow)
  kept := by
    intro space hspace row hversion hrest hrow
    exact h'.kept space hspace row (h.readVersion ▸ hversion) hrest
      (h.kept space hspace row hversion hrest hrow)
  pending := by
    intro hids
    have hmiddle := h.pending hids
    exact (h'.pending (hmiddle ▸ hids)).trans hmiddle

/-- A visitor may take the rows of a message from the indexes that it has been given. -/
theorem OrderStore.Reindexed.undisturbed {id : Snowflake} {stamp : OrderStamp}
    {spaces indexes : List κ} {rest : List Snowflake} {store next : OrderStore κ}
    (h : OrderStore.Reindexed id stamp spaces false store next) (hid : id ∉ rest) :
    Undisturbed indexes rest store next where
  readVersion := h.readVersion
  rows := by
    intro space _ row _ hrow
    rw [h.rows] at hrow
    split_ifs at hrow
    exact hrow
  kept := by
    intro space _ row _ hrest hrow
    rw [h.rows, if_neg]
    · exact hrow
    · rintro ⟨-, rfl⟩
      exact hid hrest
  pending := by
    intro hids
    unfold pendingIds at hids ⊢
    suffices hfilter : (next.pending.filter fun entry =>
        entry.indexed ∧ entry.indexes.any fun space => space ∈ indexes) =
        store.pending.filter fun entry =>
          entry.indexed ∧ entry.indexes.any fun space => space ∈ indexes by
      rw [hfilter]
    rw [h.pending]
    apply OrderStore.filter_reindex
    · intro entry
      simp
    · rintro entry hentry rfl
      rw [decide_eq_false_iff_not]
      intro hindexed
      apply hid
      apply hids
      apply List.mem_map_of_mem
      rw [List.mem_mergeSort]
      exact List.mem_filter.mpr ⟨hentry, decide_eq_true hindexed⟩

/-- The cursors have a list of rows still to hand out, in the order of their stamps. -/
structure Merging (store : OrderStore κ) (indexes : List κ) (cursors : List (OrderCursor κ))
    (target : List ReadyRow) : Prop where
  valid : ∀ cursor ∈ cursors, cursor.space ∈ indexes ∧ cursor.Valid store
  sorted : target.Pairwise fun left right => left.stamp < right.stamp
  perm : target.Perm (cursors.flatMap fun cursor => cursor.remaining store)

omit [DecidableEq κ] in
theorem Merging.select_nil {store : OrderStore κ} {indexes : List κ}
    {cursors : List (OrderCursor κ)} (h : Merging store indexes cursors []) :
    selectCursor cursors = none := by
  cases hselect : selectCursor cursors with
  | none => rfl
  | some selected =>
      obtain ⟨⟨front, cursor, back, rfl, -, hhead⟩, -⟩ := selectCursor_eq_some hselect
      have hnil := List.nil_perm.mp h.perm
      rw [List.flatMap_append, List.flatMap_cons, OrderCursor.remaining, hhead] at hnil
      simp at hnil

/-- The first row is selected, and a visit that leaves the later ones as they are goes on with
them. -/
theorem Merging.select_cons {store : OrderStore κ} {indexes : List κ}
    {cursors : List (OrderCursor κ)} {row : ReadyRow} {target : List ReadyRow}
    (h : Merging store indexes cursors (row :: target)) :
    ∃ position, selectCursor cursors = some (position, row) ∧
      ∀ next rest, Undisturbed indexes rest store next → (∀ row ∈ target, row.id ∈ rest) →
        Merging next indexes (cursors.modify position (OrderCursor.next next)) target := by
  obtain ⟨front, cursor, back, rfl, hselect, hperm⟩ :=
    selectCursor_target (fun cursor hcursor => (h.valid cursor hcursor).2) h.sorted h.perm
  refine ⟨front.length, hselect, fun next rest hundisturbed hids => ?_⟩
  rw [modify_append]
  have hmem (other : OrderCursor κ) (hother : other ∈ front ++ cursor.next store :: back)
      (row : ReadyRow) (hrow : row ∈ other.remaining store) : row ∈ target :=
    hperm.symm.subset (List.mem_flatMap.mpr ⟨other, hother, hrow⟩)
  have hrest (other : OrderCursor κ) (hspace : other.space ∈ indexes)
      (hother : ∀ row ∈ other.rest store, row ∈ target) : other.rest next = other.rest store :=
    hundisturbed.rest hspace fun row hrow => hids row (hother row hrow)
  have hsame (other : OrderCursor κ) (hother : other ∈ front ∨ other ∈ back) :
      other.space ∈ indexes ∧ other.Valid store ∧ other.rest next = other.rest store := by
    have hin : other ∈ front ++ cursor :: back := by
      simp only [List.mem_append, List.mem_cons]
      tauto
    obtain ⟨hspace, hvalid⟩ := h.valid other hin
    refine ⟨hspace, hvalid, hrest other hspace ?_⟩
    intro row hrow
    refine hmem other ?_ row (List.mem_append_right _ hrow)
    simp only [List.mem_append, List.mem_cons]
    tauto
  obtain ⟨hspace, hcursor⟩ := h.valid cursor (by simp)
  have hcursorRest : cursor.rest next = cursor.rest store := by
    apply hrest cursor hspace
    intro row hrow
    rw [← OrderCursor.remaining_next] at hrow
    exact hmem _ (by simp) row hrow
  refine ⟨?_, (List.pairwise_cons.mp h.sorted).2, ?_⟩
  · intro other hother
    rcases List.mem_append.mp hother with hother | hother
    · obtain ⟨hspace, hvalid, hrest⟩ := hsame other (.inl hother)
      exact ⟨hspace, hvalid.congr hrest⟩
    · rcases List.mem_cons.mp hother with rfl | hother
      · rw [OrderCursor.next_space]
        refine ⟨hspace, OrderCursor.valid_next ?_⟩
        rw [hcursorRest]
        exact (List.pairwise_append.mp hcursor.sorted).2.1
      · obtain ⟨hspace, hvalid, hrest⟩ := hsame other (.inr hother)
        exact ⟨hspace, hvalid.congr hrest⟩
  · convert hperm using 1
    simp only [List.flatMap_append, List.flatMap_cons, OrderCursor.remaining_next, hcursorRest]
    congr 1
    · apply List.flatMap_congr
      intro other hother
      exact OrderCursor.remaining_congr (hsame other (.inl hother)).2.2
    · congr 1
      apply List.flatMap_congr
      intro other hother
      exact OrderCursor.remaining_congr (hsame other (.inr hother)).2.2

/-- What the rule of a visit asks: `I` knows the ids that the visitor is still to be given,
and `Q` holds once there are none left or the visitor stops. -/
structure VisitRule (order : σ → OrderStore κ) (setOrder : OrderStore κ → σ → σ)
    (indexes : List κ) (visit : List Snowflake → σ → Except MailboxError (σ × Bool))
    (known : ReadyRow → Prop) (I : σ → List Snowflake → Prop) (Q : σ → Prop) : Prop where
  order_setOrder : ∀ store state, order (setOrder store state) = store
  observe : ∀ state ids row, I state ids → known row → I (observe order setOrder row state) ids
  visit : ∀ state batch rest, batch ≠ [] → I state (batch ++ rest) →
    ∃ next more, visit batch state = .ok (next, more) ∧
      Undisturbed indexes rest (order state) (order next) ∧ if more then I next rest else Q next
  finish : ∀ state, I state [] → Q state

variable {order : σ → OrderStore κ} {setOrder : OrderStore κ → σ → σ} {indexes : List κ}
  {visit : List Snowflake → σ → Except MailboxError (σ × Bool)} {known : ReadyRow → Prop}
  {I : σ → List Snowflake → Prop} {Q : σ → Prop}

theorem Undisturbed.of_observe {rest : List Snowflake} {next : OrderStore κ} {row : ReadyRow}
    {state : σ} (hset : ∀ store state, order (setOrder store state) = store)
    (h : Undisturbed indexes rest (order (observe order setOrder row state)) next) :
    Undisturbed indexes rest (order state) next := by
  rw [observe, hset] at h
  exact ⟨h.readVersion, h.rows, h.kept, h.pending⟩

theorem VisitRule.appendId (h : VisitRule order setOrder indexes visit known I Q)
    {batch rest : List Snowflake} {id : Snowflake} {state : σ}
    (hstate : I state (batch ++ id :: rest)) :
    ∃ next batch' more, appendId visit batch id state = .ok (next, batch', more) ∧
      Undisturbed indexes rest (order state) (order next) ∧
        if more then I next (batch' ++ rest) else Q next := by
  have hstate' : I state ((batch ++ [id]) ++ rest) := by simpa using hstate
  unfold Cluster.appendId
  dsimp only
  split_ifs with hshort
  · exact ⟨state, batch ++ [id], true, rfl, .refl _ _ _, hstate'⟩
  · obtain ⟨next, more, hvisit, hundisturbed, hnext⟩ :=
      h.visit state (batch ++ [id]) rest (by simp) hstate'
    exact ⟨next, [], more, bind_eq_ok.mpr ⟨_, hvisit, rfl⟩, hundisturbed, hnext⟩

theorem VisitRule.appendEach (h : VisitRule order setOrder indexes visit known I Q)
    {ids batch : List Snowflake} {state : σ} (hstate : I state (batch ++ ids)) :
    ∃ next batch' more, appendEach visit batch ids state = .ok (next, batch', more) ∧
      if more then I next batch' else Q next := by
  induction ids generalizing batch state with
  | nil => exact ⟨state, batch, true, rfl, by simpa using hstate⟩
  | cons id ids ih =>
      obtain ⟨middle, batch₁, more₁, hid, -, hmiddle⟩ := h.appendId hstate
      cases more₁ with
      | true =>
          obtain ⟨next, batch', more, hids, hnext⟩ := ih hmiddle
          exact ⟨next, batch', more, bind_eq_ok.mpr ⟨_, hid, hids⟩, hnext⟩
      | false => exact ⟨middle, batch₁, false, bind_eq_ok.mpr ⟨_, hid, rfl⟩, hmiddle⟩

theorem VisitRule.mergeCursors (h : VisitRule order setOrder indexes visit known I Q)
    {pending : List Snowflake} {fuel : Nat} {cursors : List (OrderCursor κ)}
    {target : List ReadyRow} {batch : List Snowflake} {state : σ}
    (hfuel : target.length < fuel) (hmerging : Merging (order state) indexes cursors target)
    (hknown : ∀ row ∈ target, known row) (hpending : pendingIds (order state) indexes = pending)
    (hstate : I state (batch ++ (target.map ReadyRow.id ++ pending))) :
    ∃ finish batch' more,
      mergeCursors order setOrder visit fuel cursors batch state = .ok (finish, batch', more) ∧
        if more then I finish (batch' ++ pending) ∧ pendingIds (order finish) indexes = pending
        else Q finish := by
  induction fuel generalizing target cursors batch state with
  | zero => omega
  | succ fuel ih =>
      cases target with
      | nil =>
          rw [Cluster.mergeCursors, hmerging.select_nil]
          exact ⟨state, batch, true, rfl, hstate, hpending⟩
      | cons row target =>
          obtain ⟨position, hselect, hgoOn⟩ := hmerging.select_cons
          rw [Cluster.mergeCursors, hselect]
          obtain ⟨next, batch₁, more₁, happend, hundisturbed, hnext⟩ :=
            h.appendId (h.observe state _ row hstate (hknown row List.mem_cons_self))
          replace hundisturbed := hundisturbed.of_observe h.order_setOrder
          cases more₁ with
          | false => exact ⟨next, batch₁, false, bind_eq_ok.mpr ⟨_, happend, rfl⟩, hnext⟩
          | true =>
              have hlater : ∀ row ∈ target, row.id ∈ target.map ReadyRow.id ++ pending :=
                fun row hrow => List.mem_append_left _ (List.mem_map_of_mem hrow)
              obtain ⟨finish, batch', more, hmerge, hfinish⟩ := ih (by simpa using hfuel)
                (hgoOn _ _ hundisturbed hlater)
                (fun row hrow => hknown row (List.mem_cons_of_mem _ hrow))
                ((hundisturbed.pending fun id hid => List.mem_append_right _ (hpending ▸ hid)).trans
                  hpending) hnext
              exact ⟨finish, batch', more, bind_eq_ok.mpr ⟨_, happend, hmerge⟩, hfinish⟩

/-- The visible rows of some subspaces in the order of their stamps. -/
def mergedRows (store : OrderStore κ) (indexes : List κ) : List ReadyRow :=
  (indexes.eraseDups.flatMap fun space => store.visibleAfter space none).mergeSort
    fun left right => left.stamp ≤ right.stamp

/-- The ids of some subspaces in their original order: the visible ones, then the pending ones
of the transaction itself. -/
def mergedIds (store : OrderStore κ) (indexes : List κ) : List Snowflake :=
  (mergedRows store indexes).map ReadyRow.id ++ pendingIds store indexes

theorem mem_mergedRows {store : OrderStore κ} {indexes : List κ} {row : ReadyRow} :
    row ∈ mergedRows store indexes ↔
      row.version ≤ store.readVersion ∧ ∃ space ∈ indexes, store.HasRow space row := by
  rw [mergedRows, List.mem_mergeSort, List.mem_flatMap]
  simp only [List.mem_eraseDups, OrderStore.mem_visibleAfter, Option.not_mem_none,
    false_implies, implies_true, true_and]
  tauto

def Distinct (store : OrderStore κ) (indexes : List κ) : Prop :=
  ∀ space ∈ indexes, ∀ space' ∈ indexes, ∀ row row', store.HasRow space row →
    store.HasRow space' row' → row.stamp = row'.stamp → space = space' ∧ row = row'

theorem mergedRows_sorted {store : OrderStore κ} {indexes : List κ}
    (h : Distinct store indexes) :
    (mergedRows store indexes).Pairwise fun left right => left.stamp < right.stamp := by
  have hdistinct : (indexes.eraseDups.flatMap fun space => store.visibleAfter space none).Pairwise
      fun left right => left.stamp ≠ right.stamp := by
    rw [List.pairwise_flatMap]
    constructor
    · intro space hspace
      rw [List.mem_eraseDups] at hspace
      refine List.Pairwise.imp_of_mem ?_ (OrderedMap.keysAfter_sorted _ _ _)
      intro left right hleft hright hlt hstamp
      exact hlt.ne (h space hspace space hspace left right
        (OrderStore.mem_visibleAfter.mp hleft).2.2 (OrderStore.mem_visibleAfter.mp hright).2.2
        hstamp).2
    · refine List.Pairwise.imp_of_mem ?_ (nodup_eraseDups indexes)
      intro space space' hspace hspace' hne left hleft right hright hstamp
      rw [List.mem_eraseDups] at hspace hspace'
      exact hne (h space hspace space' hspace' left right
        (OrderStore.mem_visibleAfter.mp hleft).2.2 (OrderStore.mem_visibleAfter.mp hright).2.2
        hstamp).1
  have hne : (mergedRows store indexes).Pairwise fun left right => left.stamp ≠ right.stamp :=
    (List.mergeSort_perm _ _).symm.pairwise hdistinct fun hne => hne.symm
  have hle : (mergedRows store indexes).Pairwise fun left right =>
      decide (left.stamp ≤ right.stamp) = true := by
    apply List.pairwise_mergeSort
    · intro a b c hab hbc
      rw [decide_eq_true_eq] at hab hbc ⊢
      exact hab.trans hbc
    · intro a b
      rw [Bool.or_eq_true, decide_eq_true_eq, decide_eq_true_eq]
      exact le_total _ _
  refine (hle.and hne).imp ?_
  rintro left right ⟨hle, hne⟩
  exact lt_of_le_of_ne (decide_eq_true_eq.mp hle) hne

theorem length_mergedRows (store : OrderStore κ) (indexes : List κ) :
    (mergedRows store indexes).length ≤
      (indexes.eraseDups.map fun space => (store.rows space).entries.length).sum := by
  rw [mergedRows, List.length_mergeSort, List.length_flatMap]
  apply List.sum_le_sum
  intro space _
  rw [OrderStore.visibleAfter, OrderedMap.keysAfter, List.length_map]
  exact List.length_filter_le _ _

theorem merging_start {store : OrderStore κ} {indexes : List κ} (h : Distinct store indexes) :
    Merging store indexes (indexes.eraseDups.map (OrderCursor.start store))
      (mergedRows store indexes) where
  valid := by
    intro cursor hcursor
    obtain ⟨space, hspace, rfl⟩ := List.mem_map.mp hcursor
    rw [OrderCursor.start_space]
    exact ⟨List.mem_eraseDups.mp hspace, OrderCursor.start_valid _ _⟩
  sorted := mergedRows_sorted h
  perm := by
    rw [List.flatMap_map]
    simp only [OrderCursor.remaining_start]
    exact List.mergeSort_perm _ _

/-- The rule of a visit: the visitor is given the ids of the subspaces in their order. -/
theorem VisitRule.visitMessageOrder (h : VisitRule order setOrder indexes visit known I Q)
    {state : σ} (hdistinct : Distinct (order state) indexes)
    (hknown : ∀ space ∈ indexes, ∀ row, (order state).HasRow space row → known row)
    (hstate : I state (mergedIds (order state) indexes)) :
    ∃ finish, visitMessageOrder order setOrder indexes visit state = .ok finish ∧ Q finish := by
  have hmerged := @VisitRule.mergeCursors _ _ _ _ _ _ _ _ _ _ h _ _
    (indexes.eraseDups.map (OrderCursor.start (order state))) _ [] _
    (Nat.lt_succ_of_le (length_mergedRows (order state) indexes))
    (merging_start hdistinct) ?_ rfl hstate
  · obtain ⟨merged, batch, more, hmerge, hmerged⟩ := hmerged
    cases more with
    | false => exact ⟨merged, bind_eq_ok.mpr ⟨_, hmerge, rfl⟩, hmerged⟩
    | true =>
        rw [if_pos rfl] at hmerged
        obtain ⟨appended, rest, more, happend, happended⟩ := h.appendEach hmerged.1
        rw [← hmerged.2] at happend
        cases more with
        | false =>
            exact ⟨appended, bind_eq_ok.mpr ⟨_, hmerge, bind_eq_ok.mpr ⟨_, happend, rfl⟩⟩,
              happended⟩
        | true =>
            rw [if_pos rfl] at happended
            cases rest with
            | nil =>
                exact ⟨appended, bind_eq_ok.mpr ⟨_, hmerge, bind_eq_ok.mpr ⟨_, happend, rfl⟩⟩,
                  h.finish _ happended⟩
            | cons id rest =>
                rw [← List.append_nil (id :: rest)] at happended
                obtain ⟨visited, more, hlast, -, hvisited⟩ :=
                  h.visit appended (id :: rest) [] (by simp) happended
                refine ⟨visited, bind_eq_ok.mpr ⟨_, hmerge, bind_eq_ok.mpr ⟨_, happend,
                  bind_eq_ok.mpr ⟨_, hlast, rfl⟩⟩⟩, ?_⟩
                cases more with
                | true => exact h.finish _ hvisited
                | false => exact hvisited
  · intro row hrow
    obtain ⟨-, space, hspace, hrow⟩ := mem_mergedRows.mp hrow
    exact hknown space hspace row hrow

end

/-! ## The order of the merge -/

def OrderStore.stampOf (store : OrderStore κ) (id : Snowflake) : OrderStamp :=
  (store.orders.get? id).getD (toLex (0, 0))

theorem mem_pendingIds [DecidableEq κ] {store : OrderStore κ} {indexes : List κ}
    {id : Snowflake} : id ∈ pendingIds store indexes ↔
      ∃ entry ∈ store.pending, entry.id = id ∧ entry.indexed = true ∧
        ∃ space ∈ indexes, space ∈ entry.indexes := by
  unfold pendingIds
  simp only [List.mem_map, List.mem_mergeSort, List.mem_filter, decide_eq_true_eq, List.any_eq_true]
  constructor
  · rintro ⟨entry, ⟨hentry, hindexed, space, hspace, hindexes⟩, rfl⟩
    exact ⟨entry, hentry, rfl, hindexed, space, hindexes, hspace⟩
  · rintro ⟨entry, hentry, rfl, hindexed, space, hindexes, hspace⟩
    exact ⟨entry, ⟨hentry, hindexed, space, hspace, hindexes⟩, rfl⟩

theorem OrderStore.Consistent.mem_mergedIds [DecidableEq κ] {store : OrderStore κ}
    (h : store.Consistent) {indexes : List κ} {id : Snowflake} :
    id ∈ mergedIds store indexes ↔
      ∃ space ∈ indexes, ∃ row, store.HasRow space row ∧ row.id = id := by
  rw [mergedIds, List.mem_append, List.mem_map, mem_pendingIds]
  constructor
  · rintro (⟨row, hrow, rfl⟩ | ⟨entry, hentry, rfl, hindexed, space, hspace, hindexes⟩)
    · obtain ⟨-, space, hspace, hrow⟩ := mem_mergedRows.mp hrow
      exact ⟨space, hspace, row, hrow, rfl⟩
    · refine ⟨space, hspace, store.pendingRow entry, ?_, rfl⟩
      exact (h.tail space _ (Nat.lt_succ_self _)).mpr ⟨entry, hentry, hindexed, hindexes, rfl⟩
  · rintro ⟨space, hspace, row, hrow, rfl⟩
    rcases Nat.lt_or_ge store.readVersion row.version with hpending | hcommitted
    · obtain ⟨entry, hentry, hindexed, hindexes, rfl⟩ := (h.tail space row hpending).mp hrow
      exact .inr ⟨entry, hentry, rfl, hindexed, space, hspace, hindexes⟩
    · exact .inl ⟨row, mem_mergedRows.mpr ⟨hcommitted, space, hspace, hrow⟩, rfl⟩

theorem OrderStore.Consistent.pendingIds_sorted [DecidableEq κ] {store : OrderStore κ}
    (h : store.Consistent) (indexes : List κ) :
    (pendingIds store indexes).Pairwise fun left right =>
      store.stampOf left < store.stampOf right := by
  unfold pendingIds
  set entries := store.pending.filter fun entry =>
    entry.indexed ∧ entry.indexes.any fun space => space ∈ indexes with hentries
  have hsorted : entries.Pairwise fun left right => left.user < right.user :=
    (h.pending.imp And.right).filter _
  have hsame : entries.mergeSort (fun left right => left.user ≤ right.user) = entries := by
    apply List.mergeSort_of_pairwise
    refine hsorted.imp ?_
    intro left right hlt
    exact decide_eq_true hlt.le
  rw [hsame, List.pairwise_map]
  refine List.Pairwise.imp_of_mem ?_ hsorted
  intro left right hleft hright hlt
  have hstamp (entry : Pending κ) (hentry : entry ∈ entries) :
      store.stampOf entry.id = store.pendingStamp entry := by
    rw [OrderStore.stampOf, h.pendingOrders entry (List.mem_filter.mp hentry).1, Option.getD_some]
  rw [hstamp left hleft, hstamp right hright]
  exact Prod.Lex.toLex_lt_toLex.mpr (.inr ⟨rfl, hlt⟩)

theorem OrderStore.Consistent.mergedIds_sorted [DecidableEq κ] {store : OrderStore κ}
    (h : store.Consistent) {indexes : List κ} (hdistinct : Distinct store indexes)
    (hrows : ∀ space ∈ indexes, ∀ row, store.HasRow space row →
      store.orders.get? row.id = some row.stamp) :
    (mergedIds store indexes).Pairwise fun left right =>
      store.stampOf left < store.stampOf right := by
  have hstamp (row : ReadyRow) (hrow : row ∈ mergedRows store indexes) :
      store.stampOf row.id = row.stamp := by
    obtain ⟨-, space, hspace, hrow⟩ := mem_mergedRows.mp hrow
    rw [OrderStore.stampOf, hrows space hspace row hrow, Option.getD_some]
  rw [mergedIds, List.pairwise_append]
  refine ⟨?_, h.pendingIds_sorted indexes, ?_⟩
  · rw [List.pairwise_map]
    refine List.Pairwise.imp_of_mem ?_ (mergedRows_sorted hdistinct)
    intro left right hleft hright hlt
    rw [hstamp left hleft, hstamp right hright]
    exact hlt
  · intro left hleft right hright
    obtain ⟨row, hrow, rfl⟩ := List.mem_map.mp hleft
    obtain ⟨entry, hentry, rfl, -⟩ := mem_pendingIds.mp hright
    rw [hstamp row hrow, OrderStore.stampOf, h.pendingOrders entry hentry, Option.getD_some]
    exact Prod.Lex.toLex_lt_toLex.mpr (.inl (Nat.lt_succ_of_le (mem_mergedRows.mp hrow).1))

end FoundationDbEffect.Cluster
