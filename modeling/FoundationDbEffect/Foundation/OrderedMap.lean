import Mathlib.Data.List.Perm.Basic
import Mathlib.Order.Lattice
import Mathlib.Tactic.SplitIfs

/-!
# Ordered maps

A finite map over a linearly ordered key space, kept as its list of entries in key order.
Range reads are filters of that list, and the first and the last entry of a range are its
ends.  A map is determined by its point reads.
-/

namespace FoundationDbEffect.Foundation

theorem nodup_eraseDups {α : Type} [DecidableEq α] (elements : List α) :
    elements.eraseDups.Nodup := by
  induction hlength : elements.length using Nat.strongRecOn generalizing elements with
  | _ length ih =>
      cases elements with
      | nil => exact .nil
      | cons element rest =>
          rw [List.eraseDups_cons, List.nodup_cons]
          refine ⟨?_, ih _ ?_ _ rfl⟩
          · simp
          · rw [← hlength]
            exact Nat.lt_succ_of_le (List.length_filter_le _ _)

variable {α β : Type*} [LinearOrder α]

structure OrderedMap (α β : Type*) [LinearOrder α] where
  entries : List (α × β)
  sorted : entries.Pairwise fun left right => left.1 < right.1

namespace OrderedMap

def empty : OrderedMap α β := ⟨[], .nil⟩

instance : EmptyCollection (OrderedMap α β) := ⟨empty⟩

instance [DecidableEq β] : DecidableEq (OrderedMap α β) := fun left right =>
  decidable_of_iff (left.entries = right.entries) (by cases left; cases right; simp)

def get? (map : OrderedMap α β) (key : α) : Option β :=
  (map.entries.find? fun entry => entry.1 = key).map Prod.snd

def insertEntry (key : α) (value : β) : List (α × β) → List (α × β)
  | [] => [(key, value)]
  | entry :: rest =>
    if key < entry.1 then (key, value) :: entry :: rest
    else if key = entry.1 then (key, value) :: rest
    else entry :: insertEntry key value rest

theorem mem_insertEntry_of_sorted {key : α} {value : β} {entries : List (α × β)}
    (h : entries.Pairwise fun left right => left.1 < right.1) (entry : α × β) :
    entry ∈ insertEntry key value entries ↔
      entry = (key, value) ∨ entry.1 ≠ key ∧ entry ∈ entries := by
  induction entries with
  | nil => simp [insertEntry]
  | cons head rest ih =>
      obtain ⟨hhead, hrest⟩ := List.pairwise_cons.mp h
      have hother (hmem : entry ∈ rest) : head.1 < entry.1 := hhead entry hmem
      unfold insertEntry
      split_ifs with hlt heq
      · grind
      · grind
      · simp only [List.mem_cons, ih hrest]
        grind

theorem insertEntry_sorted {key : α} {value : β} {entries : List (α × β)}
    (h : entries.Pairwise fun left right => left.1 < right.1) :
    (insertEntry key value entries).Pairwise fun left right => left.1 < right.1 := by
  induction entries with
  | nil => simp [insertEntry]
  | cons head rest ih =>
      obtain ⟨hhead, hrest⟩ := List.pairwise_cons.mp h
      unfold insertEntry
      split_ifs with hlt heq
      · refine List.pairwise_cons.mpr ⟨?_, h⟩
        intro entry hmem
        rcases List.mem_cons.mp hmem with rfl | hmem
        · exact hlt
        · exact hlt.trans (hhead entry hmem)
      · refine List.pairwise_cons.mpr ⟨?_, hrest⟩
        intro entry hmem
        rw [heq]
        exact hhead entry hmem
      · refine List.pairwise_cons.mpr ⟨?_, ih hrest⟩
        intro entry hmem
        rcases (mem_insertEntry_of_sorted hrest entry).mp hmem with rfl | ⟨-, hmem⟩
        · exact lt_of_le_of_ne (not_lt.mp hlt) (Ne.symm heq)
        · exact hhead entry hmem

def set (map : OrderedMap α β) (key : α) (value : β) : OrderedMap α β :=
  ⟨insertEntry key value map.entries, insertEntry_sorted map.sorted⟩

def clearRange (map : OrderedMap α β) (range : α → Bool) : OrderedMap α β :=
  ⟨map.entries.filter fun entry => !range entry.1, map.sorted.filter _⟩

def clear (map : OrderedMap α β) (key : α) : OrderedMap α β :=
  map.clearRange (· = key)

def rows (map : OrderedMap α β) (range : α → Bool) : List (α × β) :=
  map.entries.filter fun entry => range entry.1

def first? (map : OrderedMap α β) (range : α → Bool) : Option (α × β) :=
  (map.rows range).head?

def last? (map : OrderedMap α β) (range : α → Bool) : Option (α × β) :=
  (map.rows range).getLast?

/-! ## Point reads -/

theorem mem_iff_find?_of_sorted {key : α} {value : β} {entries : List (α × β)}
    (h : entries.Pairwise fun left right => left.1 < right.1) :
    (key, value) ∈ entries ↔
      (entries.find? fun entry => entry.1 = key).map Prod.snd = some value := by
  induction entries with
  | nil => simp
  | cons head rest ih =>
      obtain ⟨hhead, hrest⟩ := List.pairwise_cons.mp h
      rcases eq_or_ne head.1 key with heq | hne
      · have hrest' : (key, value) ∉ rest := by
          intro hmem
          exact absurd heq (hhead _ hmem).ne
        rw [List.find?_cons_of_pos (by simpa using heq), List.mem_cons]
        simp only [hrest', or_false, Option.map_some, Option.some.injEq]
        constructor
        · intro hentry
          rw [← hentry]
        · rintro rfl
          exact Prod.ext heq.symm rfl
      · rw [List.find?_cons_of_neg (by simpa using hne), ← ih hrest, List.mem_cons]
        constructor
        · rintro (rfl | hmem)
          · exact absurd rfl hne
          · exact hmem
        · exact .inr

theorem mem_entries {map : OrderedMap α β} {key : α} {value : β} :
    (key, value) ∈ map.entries ↔ map.get? key = some value :=
  mem_iff_find?_of_sorted map.sorted

@[ext] theorem ext {left right : OrderedMap α β} (h : ∀ key, left.get? key = right.get? key) :
    left = right := by
  have hmem (entry : α × β) : entry ∈ left.entries ↔ entry ∈ right.entries := by
    obtain ⟨key, value⟩ := entry
    rw [mem_entries, mem_entries, h]
  have hnodup {map : OrderedMap α β} : map.entries.Nodup :=
    map.sorted.imp fun hlt heq => hlt.ne (congrArg Prod.fst heq)
  have hperm := (List.perm_ext_iff_of_nodup hnodup hnodup).mpr hmem
  have hentries := hperm.eq_of_pairwise
    (fun _ _ _ _ hlt hgt => absurd hlt hgt.not_gt) left.sorted right.sorted
  cases left
  cases right
  cases hentries
  rfl

@[simp] theorem get?_empty (key : α) : (empty : OrderedMap α β).get? key = none := rfl

@[simp] theorem get?_emptyCollection (key : α) : (∅ : OrderedMap α β).get? key = none := rfl

theorem get?_set (map : OrderedMap α β) (key : α) (value : β) (key' : α) :
    (map.set key value).get? key' = if key' = key then some value else map.get? key' := by
  apply Option.ext
  intro value'
  rw [← mem_entries, set, mem_insertEntry_of_sorted map.sorted]
  split_ifs with h
  · simp [h, eq_comm]
  · simp [h, mem_entries]

@[simp] theorem get?_set_self (map : OrderedMap α β) (key : α) (value : β) :
    (map.set key value).get? key = some value := by
  simp [get?_set]

theorem get?_set_of_ne (map : OrderedMap α β) {key key' : α} (value : β) (h : key' ≠ key) :
    (map.set key value).get? key' = map.get? key' := by
  simp [get?_set, h]

theorem get?_foldl_set {entries : List (α × β)}
    (hkeys : entries.Pairwise fun left right => left.1 ≠ right.1) (map : OrderedMap α β) {key : α}
    {value : β} :
    (entries.foldl (fun map entry => map.set entry.1 entry.2) map).get? key = some value ↔
      (key, value) ∈ entries ∨
        (∀ entry ∈ entries, entry.1 ≠ key) ∧ map.get? key = some value := by
  induction entries generalizing map with
  | nil => simp
  | cons entry entries ih =>
      obtain ⟨hfirst, hrest⟩ := List.pairwise_cons.mp hkeys
      rw [List.foldl_cons, ih hrest, get?_set]
      by_cases heq : key = entry.1
      · subst heq
        have hnotin : (entry.1, value) ∉ entries := fun hmem => hfirst _ hmem rfl
        have hne : ∀ other ∈ entries, other.1 ≠ entry.1 := fun other hmem =>
          (hfirst other hmem).symm
        rw [if_pos rfl, List.mem_cons, Prod.ext_iff]
        constructor
        · rintro (hmem | ⟨-, hvalue⟩)
          · exact absurd hmem hnotin
          · exact .inl (.inl ⟨rfl, (Option.some.inj hvalue).symm⟩)
        · rintro ((⟨-, hvalue⟩ | hmem) | ⟨hnone, -⟩)
          · exact .inr ⟨hne, congrArg some hvalue.symm⟩
          · exact absurd hmem hnotin
          · exact absurd rfl (hnone entry List.mem_cons_self)
      · rw [if_neg heq, List.mem_cons, List.forall_mem_cons, Prod.ext_iff]
        have hfresh : entry.1 ≠ key := Ne.symm heq
        tauto

theorem get?_clearRange (map : OrderedMap α β) (range : α → Bool) (key : α) :
    (map.clearRange range).get? key = if range key then none else map.get? key := by
  apply Option.ext
  intro value
  rw [← mem_entries, clearRange, List.mem_filter, mem_entries]
  cases range key <;> simp

theorem get?_clear (map : OrderedMap α β) (key key' : α) :
    (map.clear key).get? key' = if key' = key then none else map.get? key' := by
  simp [clear, get?_clearRange]

@[simp] theorem get?_clear_self (map : OrderedMap α β) (key : α) :
    (map.clear key).get? key = none := by
  simp [get?_clear]

theorem get?_clear_of_ne (map : OrderedMap α β) {key key' : α} (h : key' ≠ key) :
    (map.clear key).get? key' = map.get? key' := by
  simp [get?_clear, h]

/-! ## Maps without some of their rows -/

/-- The rows that are left when some are gone, and no others. -/
def Without (gone : α → β → Prop) (map next : OrderedMap α β) : Prop :=
  ∀ key value, next.get? key = some value ↔ map.get? key = some value ∧ ¬ gone key value

theorem Without.refl (map : OrderedMap α β) : Without (fun _ _ => False) map map := by
  simp [Without]

theorem Without.trans {gone gone' : α → β → Prop} {map middle next : OrderedMap α β}
    (h : Without gone map middle) (h' : Without gone' middle next) :
    Without (fun key value => gone key value ∨ gone' key value) map next := by
  intro key value
  rw [h' key value, h key value]
  tauto

theorem Without.congr {gone gone' : α → β → Prop} {map next : OrderedMap α β}
    (h : Without gone map next)
    (hgone : ∀ key value, map.get? key = some value → (gone key value ↔ gone' key value)) :
    Without gone' map next := by
  intro key value
  rw [h key value]
  exact and_congr_right fun hget => not_congr (hgone key value hget)

theorem without_clearRange (map : OrderedMap α β) (range : α → Bool) :
    Without (fun key _ => range key = true) map (map.clearRange range) := by
  intro key value
  rw [get?_clearRange]
  split_ifs with h <;> simp [h]

theorem without_clear (map : OrderedMap α β) (key : α) :
    Without (fun key' _ => key' = key) map (map.clear key) := by
  intro key' value
  rw [get?_clear]
  split_ifs with h <;> simp [h]

theorem Without.get?_eq_none {gone : α → β → Prop} {map next : OrderedMap α β} {key : α}
    (h : Without gone map next) (hgone : ∀ value, gone key value) : next.get? key = none := by
  rw [Option.eq_none_iff_forall_ne_some]
  intro value hvalue
  exact ((h key value).mp hvalue).2 (hgone value)

theorem Without.get?_eq {gone : α → β → Prop} {map next : OrderedMap α β} {key : α}
    (h : Without gone map next) (hkept : ∀ value, ¬ gone key value) :
    next.get? key = map.get? key := by
  apply Option.ext
  intro value
  rw [h key value]
  exact and_iff_left (hkept value)

/-! ## Range reads -/

theorem mem_rows {map : OrderedMap α β} {range : α → Bool} {key : α} {value : β} :
    (key, value) ∈ map.rows range ↔ range key = true ∧ map.get? key = some value := by
  rw [rows, List.mem_filter, mem_entries, and_comm]

theorem rows_sorted (map : OrderedMap α β) (range : α → Bool) :
    (map.rows range).Pairwise fun left right => left.1 < right.1 :=
  map.sorted.filter _

theorem rows_eq {map : OrderedMap α β} {range : α → Bool} {list : List (α × β)}
    (hsorted : list.Pairwise fun left right => left.1 < right.1)
    (h : ∀ row, row ∈ map.rows range ↔ row ∈ list) : map.rows range = list := by
  have hnodup {rows : List (α × β)} (hrows : rows.Pairwise fun left right => left.1 < right.1) :
      rows.Nodup :=
    hrows.imp fun hlt heq => hlt.ne (congrArg Prod.fst heq)
  have hperm := (List.perm_ext_iff_of_nodup (hnodup (map.rows_sorted range))
    (hnodup hsorted)).mpr h
  exact hperm.eq_of_pairwise (fun _ _ _ _ hlt hgt => absurd hlt hgt.not_gt)
    (map.rows_sorted range) hsorted

theorem rows_clearRange_eq_nil {map : OrderedMap α β} {range range' : α → Bool}
    (h : ∀ key, range' key = true → range key = true) :
    (map.clearRange range).rows range' = [] := by
  rw [List.eq_nil_iff_forall_not_mem]
  rintro ⟨key, value⟩ hmem
  obtain ⟨hkey, hvalue⟩ := mem_rows.mp hmem
  rw [get?_clearRange, if_pos (h key hkey)] at hvalue
  cases hvalue

theorem first?_eq_some {map : OrderedMap α β} {range : α → Bool} {entry : α × β}
    (h : map.first? range = some entry) :
    range entry.1 = true ∧ map.get? entry.1 = some entry.2 ∧
      ∀ key, range key = true → (map.get? key).isSome → entry.1 ≤ key := by
  obtain ⟨rest, hrest⟩ := List.head?_eq_some_iff.mp h
  have hentry : entry ∈ map.rows range := by simp [hrest]
  obtain ⟨hrange, hget⟩ := mem_rows.mp hentry
  refine ⟨hrange, hget, ?_⟩
  intro key hkey hsome
  obtain ⟨value, hvalue⟩ := Option.isSome_iff_exists.mp hsome
  have hmem : (key, value) ∈ map.rows range := mem_rows.mpr ⟨hkey, hvalue⟩
  have hsorted := map.rows_sorted range
  rw [hrest] at hmem hsorted
  rcases List.mem_cons.mp hmem with heq | hmem
  · rw [← heq]
  · exact ((List.pairwise_cons.mp hsorted).1 _ hmem).le

theorem first?_eq_none {map : OrderedMap α β} {range : α → Bool} :
    map.first? range = none ↔ ∀ key, range key = true → map.get? key = none := by
  rw [first?, List.head?_eq_none_iff, List.eq_nil_iff_forall_not_mem]
  constructor
  · intro h key hkey
    rw [Option.eq_none_iff_forall_ne_some]
    intro value hvalue
    exact h (key, value) (mem_rows.mpr ⟨hkey, hvalue⟩)
  · rintro h ⟨key, value⟩ hmem
    obtain ⟨hkey, hvalue⟩ := mem_rows.mp hmem
    simp [h key hkey] at hvalue

theorem last?_eq_some {map : OrderedMap α β} {range : α → Bool} {entry : α × β}
    (h : map.last? range = some entry) :
    range entry.1 = true ∧ map.get? entry.1 = some entry.2 ∧
      ∀ key, range key = true → (map.get? key).isSome → key ≤ entry.1 := by
  obtain ⟨rest, hrest⟩ := List.getLast?_eq_some_iff.mp h
  have hentry : entry ∈ map.rows range := by simp [hrest]
  obtain ⟨hrange, hget⟩ := mem_rows.mp hentry
  refine ⟨hrange, hget, ?_⟩
  intro key hkey hsome
  obtain ⟨value, hvalue⟩ := Option.isSome_iff_exists.mp hsome
  have hmem : (key, value) ∈ map.rows range := mem_rows.mpr ⟨hkey, hvalue⟩
  have hsorted := map.rows_sorted range
  rw [hrest] at hmem hsorted
  rcases List.mem_append.mp hmem with hmem | heq
  · exact ((List.pairwise_append.mp hsorted).2.2 _ hmem entry (by simp)).le
  · rw [← List.mem_singleton.mp heq]

theorem last?_eq_none {map : OrderedMap α β} {range : α → Bool} :
    map.last? range = none ↔ ∀ key, range key = true → map.get? key = none := by
  rw [← first?_eq_none, last?, first?, List.getLast?_eq_none_iff, List.head?_eq_none_iff]

/-! ## Paged scans -/

def rowsAfter (map : OrderedMap α β) (range : α → Bool) (after : Option α) : List (α × β) :=
  map.rows fun key => range key && after.all (· < key)

/-- Reads of at most `limit` rows, each after the last row of the one before, until one comes
back short. -/
def pages (map : OrderedMap α β) (range : α → Bool) (limit : Nat) :
    Nat → Option α → List (α × β)
  | 0, _ => []
  | fuel + 1, after =>
    let page := (map.rowsAfter range after).take limit
    match page.getLast? with
    | none => page
    | some last =>
      if page.length < limit then page else page ++ map.pages range limit fuel (some last.1)

def scan (map : OrderedMap α β) (range : α → Bool) (limit : Nat) (after : Option α) :
    List (α × β) :=
  map.pages range limit (map.entries.length + 1) after

theorem rowsAfter_last {map : OrderedMap α β} {range : α → Bool} {after : Option α}
    {limit : Nat} {last : α × β}
    (h : ((map.rowsAfter range after).take limit).getLast? = some last) :
    map.rowsAfter range (some last.1) = (map.rowsAfter range after).drop limit := by
  have hsorted := map.rows_sorted fun key => range key && after.all (· < key)
  change (map.rowsAfter range after).Pairwise _ at hsorted
  have hmem := List.mem_of_getLast? h
  have hafter : ∀ key, after.all (· < key) = true ∨ ¬ last.1 < key := by
    intro key
    have hlast := (mem_rows.mp (List.mem_of_mem_take hmem)).1
    cases after with
    | none => exact .inl rfl
    | some begin =>
        have hbegin : begin < last.1 := by simpa using (Bool.and_eq_true_iff.mp hlast).2
        rcases lt_or_ge last.1 key with hlt | hge
        · exact .inl (by simpa using hbegin.trans hlt)
        · exact .inr hge.not_gt
  have hfilter : map.rowsAfter range (some last.1) =
      (map.rowsAfter range after).filter fun entry => last.1 < entry.1 := by
    rw [rowsAfter, rowsAfter, rows, rows, List.filter_filter]
    apply List.filter_congr
    intro entry _
    rcases hafter entry.1 with htrue | hnot
    · simp [htrue, Bool.and_comm]
    · simp [hnot]
  have hsplit := List.take_append_drop limit (map.rowsAfter range after)
  rw [← hsplit] at hsorted
  obtain ⟨htake, -, hcross⟩ := List.pairwise_append.mp hsorted
  rw [hfilter]
  conv_lhs => rw [← hsplit]
  rw [List.filter_append, List.filter_eq_nil_iff.mpr, List.filter_eq_self.mpr, List.nil_append]
  · intro entry hentry
    simpa using hcross last hmem entry hentry
  · intro entry hentry
    obtain ⟨front, hfront⟩ := List.getLast?_eq_some_iff.mp h
    rw [hfront] at htake hentry
    rcases List.mem_append.mp hentry with hentry | hentry
    · have hlt := (List.pairwise_append.mp htake).2.2 entry hentry last (by simp)
      simpa using hlt.le
    · rw [List.mem_singleton.mp hentry]
      simp

theorem pages_eq (map : OrderedMap α β) (range : α → Bool) {limit : Nat} (hlimit : 0 < limit)
    (fuel : Nat) (after : Option α) (hfuel : (map.rowsAfter range after).length < fuel) :
    map.pages range limit fuel after = map.rowsAfter range after := by
  induction fuel generalizing after with
  | zero => omega
  | succ fuel ih =>
      rw [pages]
      split
      · rename_i hnone
        rw [List.getLast?_eq_none_iff, List.take_eq_nil_iff] at hnone
        rw [hnone.resolve_left (by omega), List.take_nil]
      · rename_i last hlast
        have hrest := rowsAfter_last hlast
        split_ifs with hshort
        · rw [List.take_of_length_le]
          simp only [List.length_take] at hshort
          omega
        · rw [ih, hrest, List.take_append_drop]
          rw [hrest, List.length_drop]
          simp only [List.length_take] at hshort
          omega

/-- A scan in pages reads the whole range, whatever the size of its pages. -/
theorem scan_eq (map : OrderedMap α β) (range : α → Bool) {limit : Nat} (hlimit : 0 < limit)
    (after : Option α) : map.scan range limit after = map.rowsAfter range after :=
  map.pages_eq range hlimit _ after (Nat.lt_succ_of_le (List.length_filter_le _ _))

/-! ## Counting -/

def count (map : OrderedMap α β) (counted : α → β → Bool) : Nat :=
  map.entries.countP fun entry => counted entry.1 entry.2

def countedKeys (map : OrderedMap α β) (counted : α → β → Bool) : List α :=
  (map.entries.filter fun entry => counted entry.1 entry.2).map Prod.fst

theorem length_countedKeys (map : OrderedMap α β) (counted : α → β → Bool) :
    (map.countedKeys counted).length = map.count counted := by
  rw [countedKeys, List.length_map, count, List.countP_eq_length_filter]

theorem mem_countedKeys {map : OrderedMap α β} {counted : α → β → Bool} {key : α} :
    key ∈ map.countedKeys counted ↔ (map.get? key).any (counted key) = true := by
  rw [countedKeys, List.mem_map, Option.any_eq_true]
  constructor
  · rintro ⟨⟨_, value⟩, hmem, rfl⟩
    obtain ⟨hentry, hcounted⟩ := List.mem_filter.mp hmem
    exact ⟨value, mem_entries.mp hentry, hcounted⟩
  · rintro ⟨value, hget, hcounted⟩
    exact ⟨(key, value), List.mem_filter.mpr ⟨mem_entries.mpr hget, hcounted⟩, rfl⟩

theorem nodup_countedKeys (map : OrderedMap α β) (counted : α → β → Bool) :
    (map.countedKeys counted).Nodup :=
  List.pairwise_map.mpr ((map.sorted.filter _).imp fun hlt => hlt.ne)

variable {γ : Type*} {left : OrderedMap α β} {right : OrderedMap α γ}
  {p : α → β → Bool} {q : α → γ → Bool}

theorem count_congr (h : ∀ key, (left.get? key).any (p key) =
    (right.get? key).any (q key)) : left.count p = right.count q := by
  rw [← length_countedKeys, ← length_countedKeys]
  apply List.Perm.length_eq
  rw [List.perm_ext_iff_of_nodup (nodup_countedKeys _ _) (nodup_countedKeys _ _)]
  intro key
  rw [mem_countedKeys, mem_countedKeys, h key]

theorem count_succ (key : α) (hleft : (left.get? key).any (p key) = false)
    (hright : (right.get? key).any (q key) = true)
    (hothers : ∀ other, other ≠ key →
      (left.get? other).any (p other) = (right.get? other).any (q other)) :
    right.count q = left.count p + 1 := by
  rw [← length_countedKeys, ← length_countedKeys, ← List.length_cons (a := key)]
  apply List.Perm.length_eq
  have hfresh : key ∉ left.countedKeys p := by
    rw [mem_countedKeys, hleft]
    exact Bool.false_ne_true
  rw [List.perm_ext_iff_of_nodup (nodup_countedKeys _ _)
    (List.nodup_cons.mpr ⟨hfresh, nodup_countedKeys _ _⟩)]
  intro other
  rw [List.mem_cons, mem_countedKeys, mem_countedKeys]
  rcases eq_or_ne other key with rfl | hne
  · simp [hright]
  · simp [hne, hothers other hne]

theorem count_eq_zero (h : ∀ key, (left.get? key).any (p key) = false) :
    left.count p = 0 := by
  rw [← length_countedKeys, List.length_eq_zero_iff, List.eq_nil_iff_forall_not_mem]
  intro key hmem
  rw [mem_countedKeys, h key] at hmem
  exact Bool.false_ne_true hmem

end OrderedMap

end FoundationDbEffect.Foundation
