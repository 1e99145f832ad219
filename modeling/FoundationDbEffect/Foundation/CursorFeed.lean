import FoundationDbEffect.Foundation.OrderedMap
import Mathlib.Data.List.Sort

/-!
# Feeds of a changing map

A feed reads a range of a map page by page, each page from a snapshot of its own and after the
last row of the pages before.  Rows come in key order, each once.  A row is not missed if it is
in every snapshot that has a row at its key or after it.
-/

namespace FoundationDbEffect.Foundation

namespace OrderedMap

variable {ν α β : Type*} [LinearOrder α]

/-- The rows of the pages, one for each snapshot. -/
def feedPages (snapshot : ν → OrderedMap α β) (range : α → Bool) (limit : Nat) :
    List ν → Option α → List (α × β)
  | [], _ => []
  | read :: reads, after =>
    let page := ((snapshot read).rowsAfter range after).take limit
    page ++ feedPages snapshot range limit reads ((page.getLast?.map Prod.fst).or after)

theorem rows_eq_map {γ : Type*} {left : OrderedMap α γ} {right : OrderedMap α β} {f : β → γ}
    (h : ∀ key, left.get? key = (right.get? key).map f) (range : α → Bool) :
    left.rows range = (right.rows range).map fun row => (row.1, f row.2) := by
  refine rows_eq (List.pairwise_map.mpr (right.rows_sorted range)) ?_
  rintro ⟨key, value⟩
  rw [mem_rows, h, List.mem_map, Option.map_eq_some_iff]
  constructor
  · rintro ⟨hkey, other, hother, rfl⟩
    exact ⟨(key, other), mem_rows.mpr ⟨hkey, hother⟩, rfl⟩
  · rintro ⟨⟨_, other⟩, hother, ⟨⟩⟩
    obtain ⟨hkey, hother⟩ := mem_rows.mp hother
    exact ⟨hkey, other, hother, rfl⟩

theorem mem_rowsAfter {map : OrderedMap α β} {range : α → Bool} {after : Option α}
    {row : α × β} :
    row ∈ map.rowsAfter range after ↔ row ∈ map.rows range ∧ after.all (· < row.1) = true := by
  simp [rowsAfter, rows, and_assoc]

theorem rowsAfter_sorted (map : OrderedMap α β) (range : α → Bool) (after : Option α) :
    (map.rowsAfter range after).Pairwise fun left right => left.1 < right.1 :=
  map.rows_sorted _

theorem le_of_mem_page {map : OrderedMap α β} {range : α → Bool} {after : Option α} {limit : Nat}
    {row last : α × β} (hrow : row ∈ (map.rowsAfter range after).take limit)
    (hlast : ((map.rowsAfter range after).take limit).getLast? = some last) : row.1 ≤ last.1 := by
  have hsorted : ((map.rowsAfter range after).take limit).Pairwise
      fun left right => left.1 < right.1 :=
    (map.rowsAfter_sorted range after).sublist (List.take_sublist _ _)
  obtain ⟨front, hfront⟩ := List.getLast?_eq_some_iff.mp hlast
  rw [hfront] at hrow hsorted
  rcases List.mem_append.mp hrow with hrow | hrow
  · exact ((List.pairwise_append.mp hsorted).2.2 row hrow last (by simp)).le
  · rw [List.mem_singleton.mp hrow]

theorem mem_page_or_after {map : OrderedMap α β} {range : α → Bool} {after : Option α}
    (limit : Nat) {row : α × β} (hrow : row ∈ map.rowsAfter range after) :
    row ∈ (map.rowsAfter range after).take limit ∨
      (((((map.rowsAfter range after).take limit).getLast?.map Prod.fst).or after).all
        (· < row.1) = true) := by
  cases hlast : ((map.rowsAfter range after).take limit).getLast? with
  | none => simpa using .inr (mem_rowsAfter.mp hrow).2
  | some last =>
      have hsplit := List.take_append_drop limit (map.rowsAfter range after)
      rw [← hsplit] at hrow
      rcases List.mem_append.mp hrow with hrow | hrow
      · exact .inl hrow
      · rw [← rowsAfter_last hlast] at hrow
        exact .inr (mem_rowsAfter.mp hrow).2

theorem after_of_next {map : OrderedMap α β} {range : α → Bool} {after : Option α} {limit : Nat}
    {key : α}
    (h : ((((map.rowsAfter range after).take limit).getLast?.map Prod.fst).or after).all
      (· < key) = true) : after.all (· < key) = true := by
  cases hlast : ((map.rowsAfter range after).take limit).getLast? with
  | none => simpa [hlast] using h
  | some last =>
      have hafter := (mem_rowsAfter.mp (List.mem_of_mem_take (List.mem_of_getLast? hlast))).2
      rw [hlast] at h
      cases after with
      | none => rfl
      | some begin =>
          simp only [Option.map_some, Option.some_or, Option.all_some, decide_eq_true_eq]
            at h hafter ⊢
          exact hafter.trans h

theorem not_after_of_mem_page {map : OrderedMap α β} {range : α → Bool} {after : Option α}
    {limit : Nat} {row : α × β} (hrow : row ∈ (map.rowsAfter range after).take limit) :
    ((((map.rowsAfter range after).take limit).getLast?.map Prod.fst).or after).all
      (· < row.1) = false := by
  cases hlast : ((map.rowsAfter range after).take limit).getLast? with
  | none => simp [List.getLast?_eq_none_iff.mp hlast] at hrow
  | some last => simpa using le_of_mem_page hrow hlast

variable {snapshot : ν → OrderedMap α β} {range : α → Bool} {limit : Nat}

theorem feedPages_after (reads : List ν) {after : Option α} {row : α × β}
    (h : row ∈ feedPages snapshot range limit reads after) : after.all (· < row.1) = true := by
  induction reads generalizing after with
  | nil => simp [feedPages] at h
  | cons read reads ih =>
      rcases List.mem_append.mp h with hpage | hrest
      · exact (mem_rowsAfter.mp (List.mem_of_mem_take hpage)).2
      · exact after_of_next (ih hrest)

theorem feedPages_sorted (reads : List ν) (after : Option α) :
    (feedPages snapshot range limit reads after).Pairwise
      fun left right => left.1 < right.1 := by
  induction reads generalizing after with
  | nil => exact .nil
  | cons read reads ih =>
      refine List.pairwise_append.mpr ⟨?_, ih _, ?_⟩
      · exact ((snapshot read).rowsAfter_sorted range after).sublist (List.take_sublist _ _)
      · intro row hrow later hlater
        have hnext := feedPages_after reads hlater
        cases hlast : (((snapshot read).rowsAfter range after).take limit).getLast? with
        | none =>
            rw [List.getLast?_eq_none_iff.mp hlast] at hrow
            simp at hrow
        | some last =>
            rw [hlast] at hnext
            exact (le_of_mem_page hrow hlast).trans_lt (by simpa using hnext)

theorem mem_of_mem_feedPages (reads : List ν) {after : Option α} {row : α × β}
    (h : row ∈ feedPages snapshot range limit reads after) :
    ∃ read ∈ reads, row ∈ (snapshot read).rows range := by
  induction reads generalizing after with
  | nil => simp [feedPages] at h
  | cons read reads ih =>
      rcases List.mem_append.mp h with hpage | hrest
      · exact ⟨read, by simp, (mem_rowsAfter.mp (List.mem_of_mem_take hpage)).1⟩
      · obtain ⟨other, hother, hrow⟩ := ih hrest
        exact ⟨other, List.mem_cons_of_mem _ hother, hrow⟩

/-- A feed hands out rows of any list in key order that has the rows of all snapshots. -/
theorem feedPages_sublist (reads : List ν) (after : Option α) {target : List (α × β)}
    (htarget : target.Pairwise fun left right => left.1 < right.1)
    (h : ∀ read ∈ reads, (snapshot read).rows range ⊆ target) :
    (feedPages snapshot range limit reads after).Sublist target := by
  have hsorted : (feedPages snapshot range limit reads after).Pairwise
      fun left right => left.1 < right.1 := feedPages_sorted reads after
  have hsubset : feedPages snapshot range limit reads after ⊆ target := by
    intro row hrow
    obtain ⟨read, hread, hrow⟩ := mem_of_mem_feedPages reads hrow
    exact h read hread hrow
  have hnodup : (feedPages snapshot range limit reads after).Nodup :=
    hsorted.imp fun hlt heq => hlt.ne (congrArg Prod.fst heq)
  exact List.sublist_of_subperm_of_pairwise (List.subperm_of_subset hnodup hsubset) hsorted htarget

/-! ## Rows that are not missed -/

/-- A snapshot that has a row at the key of one of the target, or after it, has that one. -/
def Covers (snapshot : ν → OrderedMap α β) (range : α → Bool) (target : List (α × β))
    (read : ν) : Prop :=
  ∀ row ∈ target, ∀ other ∈ (snapshot read).rows range, row.1 ≤ other.1 →
    row ∈ (snapshot read).rows range

theorem mem_page_of_covers (limit : Nat) {read : ν} {target : List (α × β)}
    {after : Option α} (hcovers : Covers snapshot range target read) {row : α × β} (hrow : row ∈ target)
    (hafter : after.all (· < row.1) = true) :
    row ∈ ((snapshot read).rowsAfter range after).take limit ∨
      ((((((snapshot read).rowsAfter range after).take limit).getLast?.map Prod.fst).or
        after).all (· < row.1) = true) := by
  cases hlast : (((snapshot read).rowsAfter range after).take limit).getLast? with
  | none => exact .inr (by simpa using hafter)
  | some last =>
      rcases lt_or_ge last.1 row.1 with hlt | hge
      · exact .inr (by simpa using hlt)
      · have hmem := mem_rowsAfter.mp (List.mem_of_mem_take (List.mem_of_getLast? hlast))
        have hthere := hcovers row hrow last hmem.1 hge
        have hpage := mem_page_or_after limit (mem_rowsAfter.mpr ⟨hthere, hafter⟩)
        rw [hlast] at hpage
        simpa using hpage

theorem mem_feedPages_of_le (reads : List ν) {after : Option α} {target : List (α × β)}
    (hcovers : ∀ read ∈ reads, Covers snapshot range target read) {row other : α × β}
    (hrow : row ∈ target) (hafter : after.all (· < row.1) = true)
    (hother : other ∈ feedPages snapshot range limit reads after) (hle : row.1 ≤ other.1) :
    row ∈ feedPages snapshot range limit reads after := by
  induction reads generalizing after with
  | nil => simp [feedPages] at hother
  | cons read reads ih =>
      refine List.mem_append.mpr ?_
      rcases mem_page_of_covers limit (hcovers read (by simp)) hrow hafter with
        hpage | hnext
      · exact .inl hpage
      · rcases List.mem_append.mp hother with hpage | hrest
        · cases hlast : (((snapshot read).rowsAfter range after).take limit).getLast? with
          | none =>
              rw [List.getLast?_eq_none_iff.mp hlast] at hpage
              simp at hpage
          | some last =>
              rw [hlast] at hnext
              have hlt : last.1 < row.1 := by simpa using hnext
              exact absurd (hle.trans (le_of_mem_page hpage hlast)) hlt.not_ge
        · exact .inr (ih (fun other hmem => hcovers other (List.mem_cons_of_mem _ hmem)) hnext
            hrest)

theorem prefix_of_sublist {rows target : List (α × β)}
    (htarget : target.Pairwise fun left right => left.1 < right.1) (h : rows.Sublist target)
    (hclosed : ∀ row ∈ target, ∀ other ∈ rows, row.1 ≤ other.1 → row ∈ rows) :
    rows <+: target := by
  induction h with
  | slnil => exact List.prefix_rfl
  | @cons rows target first h ih =>
      obtain ⟨hfirst, hrest⟩ := List.pairwise_cons.mp htarget
      cases rows with
      | nil => exact List.nil_prefix
      | cons other rows =>
          -- The first row of the target is before this one, so it is not left out.
          have hother : other ∈ target := h.subset (by simp)
          have hmem := hclosed first (by simp) other (by simp) (hfirst other hother).le
          exact absurd rfl (hfirst first (h.subset hmem)).ne
  | @cons_cons rows target first h ih =>
      obtain ⟨hfirst, hrest⟩ := List.pairwise_cons.mp htarget
      refine List.cons_prefix_cons.mpr ⟨rfl, ih hrest ?_⟩
      intro row hrow other hother hle
      have hmem := hclosed row (List.mem_cons_of_mem _ hrow) other
        (List.mem_cons_of_mem _ hother) hle
      refine (List.mem_cons.mp hmem).resolve_left ?_
      rintro rfl
      exact absurd rfl (hfirst row hrow).ne

theorem rows_prefix {map later : OrderedMap α β} {range : α → Bool}
    (hkept : ∀ key value, map.get? key = some value → later.get? key = some value)
    (hlater : ∀ key value key' value', later.get? key = some value →
      map.get? key' = some value' → key ≤ key' → map.get? key = some value) :
    map.rows range <+: later.rows range := by
  refine prefix_of_sublist (later.rows_sorted range) ?_ ?_
  · refine List.sublist_of_subperm_of_pairwise (List.subperm_of_subset ?_ ?_)
      (map.rows_sorted range) (later.rows_sorted range)
    · exact (map.rows_sorted range).imp fun hlt heq => hlt.ne (congrArg Prod.fst heq)
    · rintro ⟨key, value⟩ hrow
      obtain ⟨hkey, hvalue⟩ := mem_rows.mp hrow
      exact mem_rows.mpr ⟨hkey, hkept key value hvalue⟩
  · rintro ⟨key, value⟩ hrow ⟨key', value'⟩ hother hle
    obtain ⟨hkey, hvalue⟩ := mem_rows.mp hrow
    exact mem_rows.mpr ⟨hkey, hlater key value key' value' hvalue (mem_rows.mp hother).2 hle⟩

theorem rows_set_of_lt {map : OrderedMap α β} {range : α → Bool} {key : α} (value : β)
    (hkey : range key = true)
    (h : ∀ key' value', map.get? key' = some value' → key' < key) :
    (map.set key value).rows range = map.rows range ++ [(key, value)] := by
  have hentries : insertEntry key value map.entries = map.entries ++ [(key, value)] := by
    have hlast : ∀ row ∈ map.entries, row.1 < key := fun row hrow =>
      h row.1 row.2 (mem_entries.mp hrow)
    generalize map.entries = entries at hlast
    induction entries with
    | nil => rfl
    | cons head rest ih =>
        have hhead := hlast head List.mem_cons_self
        rw [insertEntry, if_neg hhead.not_gt, if_neg hhead.ne', List.cons_append,
          ih fun row hrow => hlast row (List.mem_cons_of_mem _ hrow)]
  unfold rows set
  dsimp only
  rw [hentries, List.filter_append]
  simp [hkey]

theorem feedPages_prefix (reads : List ν) {target : List (α × β)}
    (htarget : target.Pairwise fun left right => left.1 < right.1)
    (h : ∀ read ∈ reads, (snapshot read).rows range ⊆ target)
    (hcovers : ∀ read ∈ reads, Covers snapshot range target read) :
    feedPages snapshot range limit reads none <+: target := by
  refine prefix_of_sublist htarget (feedPages_sublist reads none htarget h) ?_
  intro row hrow other hother hle
  exact mem_feedPages_of_le reads hcovers hrow rfl hother hle

theorem remaining_le (map : OrderedMap α β) (range : α → Bool) (after : Option α) (limit : Nat)
    (target : List (α × β)) :
    (target.filter fun row => ((((map.rowsAfter range after).take limit).getLast?.map
      Prod.fst).or after).all (· < row.1)).length ≤
      (target.filter fun row => after.all (· < row.1)).length :=
  (List.monotone_filter_right target fun _ h => after_of_next h).length_le

theorem remaining_le_of_prefix {map : OrderedMap α β} {range : α → Bool} (after : Option α)
    (limit : Nat) {target : List (α × β)} (h : target <+: map.rows range) :
    (target.filter fun row => ((((map.rowsAfter range after).take limit).getLast?.map
      Prod.fst).or after).all (· < row.1)).length ≤
      (target.filter fun row => after.all (· < row.1)).length - limit := by
  obtain ⟨newer, hnewer⟩ := h
  have hpage : (target.filter fun row => after.all (· < row.1)).take limit ⊆
      (map.rowsAfter range after).take limit := by
    have hrows : map.rowsAfter range after = (target.filter fun row => after.all (· < row.1)) ++
        newer.filter fun row => after.all (· < row.1) := by
      rw [← List.filter_append, hnewer]
      simp [rowsAfter, rows, Bool.and_comm]
    rw [hrows, List.take_append]
    exact List.subset_append_left _ _
  have hsplit : (target.filter fun row => ((((map.rowsAfter range after).take limit).getLast?.map
      Prod.fst).or after).all (· < row.1)) =
      (target.filter fun row => after.all (· < row.1)).filter fun row =>
        ((((map.rowsAfter range after).take limit).getLast?.map Prod.fst).or after).all
          (· < row.1) := by
    rw [List.filter_filter]
    apply List.filter_congr
    intro row _
    rw [Bool.eq_iff_iff, Bool.and_eq_true_iff]
    exact ⟨fun hnext => ⟨hnext, after_of_next hnext⟩, And.left⟩
  rw [hsplit, ← List.take_append_drop limit (target.filter fun row => after.all (· < row.1)),
    List.filter_append, List.filter_eq_nil_iff.mpr, List.nil_append, List.take_append_drop]
  · refine (List.length_filter_le _ _).trans ?_
    rw [List.length_drop]
  · intro row hrow
    rw [not_after_of_mem_page (hpage hrow)]
    exact Bool.false_ne_true

/-- A feed has handed out all of a list once it has read enough pages from snapshots in which
the rows of the list come first. -/
theorem feedPages_complete (full : ν → Bool) (reads : List ν) {after : Option α}
    {target : List (α × β)} (hfull : ∀ read ∈ reads, full read = true →
      target <+: (snapshot read).rows range)
    (hcovers : ∀ read ∈ reads, Covers snapshot range target read)
    (hcount : (target.filter fun row => after.all (· < row.1)).length ≤
      limit * reads.countP full) {row : α × β} (hrow : row ∈ target)
    (hafter : after.all (· < row.1) = true) :
    row ∈ feedPages snapshot range limit reads after := by
  induction reads generalizing after with
  | nil =>
      have hmem : row ∈ target.filter fun row => after.all (· < row.1) :=
        List.mem_filter.mpr ⟨hrow, hafter⟩
      have hlength := List.length_pos_of_mem hmem
      rw [List.countP_nil, Nat.mul_zero] at hcount
      omega
  | cons read reads ih =>
      refine List.mem_append.mpr ?_
      rcases mem_page_of_covers limit (hcovers read (by simp)) hrow hafter with
        hpage | hnext
      · exact .inl hpage
      · refine .inr (ih (fun other hmem => hfull other (List.mem_cons_of_mem _ hmem))
          (fun other hmem => hcovers other (List.mem_cons_of_mem _ hmem)) ?_ hnext)
        rw [List.countP_cons] at hcount
        cases hread : full read with
        | true =>
            rw [hread, if_pos rfl, Nat.mul_succ] at hcount
            have hremaining := remaining_le_of_prefix after limit (hfull read (by simp) hread)
            omega
        | false =>
            rw [hread, if_neg Bool.false_ne_true, Nat.add_zero] at hcount
            have hremaining := remaining_le (snapshot read) range after limit target
            omega

end OrderedMap

end FoundationDbEffect.Foundation
