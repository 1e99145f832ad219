import FoundationDbEffect.Foundation.ByteOrder
import FoundationDbEffect.Foundation.Continuation
import FoundationDbEffect.Foundation.OrderedMap
import FoundationDbEffect.Native.HandleSafety
import Mathlib.Data.List.ReduceOption

/-!
# Streams of ranges

A stream opens a range in its transaction, and pulls one page after the other until the bridge
has no more of them. What a page holds is decided by the database, that is by the rows that the
transaction sees when the page is read: its own writes may change them between two pages.

The rest of the handle table works on while the stream does: other ranges, other transactions and
the lifecycle of the bridge.
-/

namespace FoundationDbEffect.Native

open FoundationDbEffect.Foundation FoundationDbEffect.Foundation.ByteOrder

/-! ## Selected rows -/

abbrev View := OrderedMap Bytes Bytes

def View.keyValues (view : View) : List KeyValue :=
  view.entries.map fun entry => ⟨entry.1, entry.2⟩

namespace KeySelector

def firstGreaterThan (key : Bytes) : KeySelector := ⟨key, true, 1⟩
def firstGreaterOrEqual (key : Bytes) : KeySelector := ⟨key, false, 1⟩

/-- The keys that the offset of a selector counts from. -/
def precedes (selector : KeySelector) (row : KeyValue) : Bool :=
  if selector.orEqual then row.key ≤ selector.key else row.key < selector.key

/-- The number of rows before the one that a selector finds. -/
def position (selector : KeySelector) (rows : List KeyValue) : Nat :=
  (rows.countP selector.precedes + selector.offset - 1).toNat

end KeySelector

structure Bounds where
  begin : KeySelector
  stop : KeySelector
  deriving DecidableEq, Repr

namespace Bounds

def rows (reverse : Bool) (bounds : Bounds) (view : View) : List KeyValue :=
  let rows := view.keyValues
  let selected := (rows.take (bounds.stop.position rows)).drop (bounds.begin.position rows)
  if reverse then selected.reverse else selected

def after (reverse : Bool) (bounds : Bounds) (row : KeyValue) : Bounds :=
  if reverse then { bounds with stop := .firstGreaterOrEqual row.key }
  else { bounds with begin := .firstGreaterThan row.key }

end Bounds

namespace RangeOption

def bounds (range : RangeOption) : Bounds := ⟨range.begin, range.stop⟩

def select (range : RangeOption) (view : View) : List KeyValue :=
  match range.limit with
  | some limit => (range.bounds.rows range.reverse view).take limit
  | none => range.bounds.rows range.reverse view

/-- A page of a range of the rows that a transaction sees: the first ones of them, as many as the
database likes, but one at least, and all when it says that there are no more. -/
structure Reads (range : RangeOption) (view : View) (page : FdbValues) : Prop where
  initial : page.rows <+: range.select view
  nonempty : page.rows = [] → range.select view = []
  complete : page.more = false → page.rows = range.select view

end RangeOption

/-! ## Continuations -/

theorem keyValues_sorted (view : View) :
    view.keyValues.Pairwise fun left right => left.key < right.key :=
  List.pairwise_map.mpr view.sorted

theorem mem_keyValues {view : View} {row : KeyValue} :
    row ∈ view.keyValues ↔ view.get? row.key = some row.value := by
  rw [← OrderedMap.mem_entries, View.keyValues, List.mem_map]
  constructor
  · rintro ⟨entry, hentry, rfl⟩
    exact hentry
  · intro hmem
    exact ⟨_, hmem, rfl⟩

section

variable {α : Type*} {p : α → Bool} {rows : List α}

theorem drop_countP (h : rows.Pairwise fun left right => p right → p left) (stop : Nat) :
    (rows.take stop).drop (rows.countP p) = (rows.take stop).filter fun row => !p row := by
  induction h generalizing stop with
  | nil => simp
  | @cons row rows hrow _ ih =>
      cases stop with
      | zero => simp
      | succ stop =>
          cases hp : p row with
          | true => simpa [hp] using ih stop
          | false =>
              have hnone : ∀ other ∈ rows, p other = false := fun other hother =>
                Bool.eq_false_iff.mpr fun h => by simp [hrow other hother h] at hp
              have hcount : rows.countP p = 0 :=
                List.countP_eq_zero.mpr fun other hother => by simp [hnone other hother]
              have hfilter : (rows.take stop).filter (fun row => !p row) = rows.take stop :=
                List.filter_eq_self.mpr fun other hother => by
                  simp [hnone other (List.mem_of_mem_take hother)]
              simp [hp, hcount, hfilter]

theorem take_countP (h : rows.Pairwise fun left right => p right → p left) (begin : Nat) :
    (rows.take (rows.countP p)).drop begin = (rows.drop begin).filter p := by
  induction h generalizing begin with
  | nil => simp
  | @cons row rows hrow _ ih =>
      cases hp : p row with
      | true =>
          cases begin with
          | zero => simpa [hp] using ih 0
          | succ begin => simpa [hp] using ih begin
      | false =>
          have hnone : ∀ other ∈ row :: rows, p other = false := by
            intro other hother
            rcases List.mem_cons.mp hother with rfl | hother
            · exact hp
            · exact Bool.eq_false_iff.mpr fun h => by simp [hrow other hother h] at hp
          have hcount : (row :: rows).countP p = 0 :=
            List.countP_eq_zero.mpr fun other hother => by simp [hnone other hother]
          have hfilter : ((row :: rows).drop begin).filter p = [] :=
            List.filter_eq_nil_iff.mpr fun other hother => by
              simp [hnone other (List.mem_of_mem_drop hother)]
          simp [hcount, hfilter]

theorem mem_drop_of_after {rows : List KeyValue} {begin : Nat} {row other : KeyValue}
    (h : rows.Pairwise fun left right => left.key < right.key) (hrow : row ∈ rows.drop begin)
    (hother : other ∈ rows) (hlt : row.key < other.key) : other ∈ rows.drop begin := by
  rw [← List.take_append_drop begin rows] at h hother
  rcases List.mem_append.mp hother with hother | hother
  · exact absurd ((List.pairwise_append.mp h).2.2 other hother row hrow) hlt.not_gt
  · exact hother

theorem mem_take_of_before {rows : List KeyValue} {stop : Nat} {row other : KeyValue}
    (h : rows.Pairwise fun left right => left.key < right.key) (hrow : row ∈ rows.take stop)
    (hother : other ∈ rows) (hlt : other.key < row.key) : other ∈ rows.take stop := by
  rw [← List.take_append_drop stop rows] at h hother
  rcases List.mem_append.mp hother with hother | hother
  · exact hother
  · exact absurd ((List.pairwise_append.mp h).2.2 row hrow other hother) hlt.not_gt

end

def ComesBefore (reverse : Bool) (left right : KeyValue) : Prop :=
  if reverse then right.key < left.key else left.key < right.key

namespace Bounds

variable {reverse : Bool} {bounds : Bounds} {view : View}

theorem precedes_of_lt (selector : KeySelector) {left right : KeyValue}
    (hlt : left.key < right.key) (h : selector.precedes right) : selector.precedes left := by
  unfold KeySelector.precedes at h ⊢
  split
  · rename_i horEqual
    rw [if_pos horEqual, decide_eq_true_eq] at h
    exact decide_eq_true (hlt.le.trans h)
  · rename_i horEqual
    rw [if_neg horEqual, decide_eq_true_eq] at h
    exact decide_eq_true (hlt.trans h)

theorem precedes_sorted (view : View) (selector : KeySelector) :
    view.keyValues.Pairwise fun left right =>
      selector.precedes right → selector.precedes left :=
  (keyValues_sorted view).imp fun hlt => precedes_of_lt selector hlt

theorem position_eq (selector : KeySelector) (hoffset : selector.offset = 1)
    (rows : List KeyValue) : selector.position rows = rows.countP selector.precedes := by
  unfold KeySelector.position
  rw [hoffset]
  omega

theorem rows_after (row : KeyValue) : (bounds.after reverse row).rows reverse view =
    if reverse then
      ((view.keyValues.drop (bounds.begin.position view.keyValues)).filter
        fun other => other.key < row.key).reverse
    else (view.keyValues.take (bounds.stop.position view.keyValues)).filter
      fun other => row.key < other.key := by
  cases reverse with
  | true =>
      simp only [after, rows, if_true, position_eq (.firstGreaterOrEqual row.key) rfl,
        take_countP (precedes_sorted view _)]
      rfl
  | false =>
      simp only [after, rows, Bool.false_eq_true, if_false,
        position_eq (.firstGreaterThan row.key) rfl, drop_countP (precedes_sorted view _)]
      refine List.filter_congr fun other _ => ?_
      rw [Bool.eq_iff_iff, decide_eq_true_iff]
      change (!decide (other.key ≤ row.key)) = true ↔ row.key < other.key
      rw [Bool.not_eq_true', decide_eq_false_iff_not]
      exact not_le

theorem rows_interval {begin stop : Bytes} (hbegin : bounds.begin = .firstGreaterOrEqual begin)
    (hstop : bounds.stop = .firstGreaterOrEqual stop) : bounds.rows reverse view =
      let rows := (view.rows (interval begin stop)).map fun entry => ⟨entry.1, entry.2⟩
      if reverse then rows.reverse else rows := by
  have hdrop := drop_countP (precedes_sorted view (.firstGreaterOrEqual begin))
    view.keyValues.length
  rw [List.take_length] at hdrop
  have hrows : (view.keyValues.take (bounds.stop.position view.keyValues)).drop
      (bounds.begin.position view.keyValues) =
        (view.rows (interval begin stop)).map fun entry => ⟨entry.1, entry.2⟩ := by
    rw [hbegin, hstop, position_eq _ rfl, position_eq _ rfl, take_countP (precedes_sorted view _),
      hdrop, List.filter_filter, View.keyValues, OrderedMap.rows, List.filter_map]
    refine congrArg _ (List.filter_congr fun entry _ => ?_)
    rw [Bool.eq_iff_iff, interval_iff]
    change (decide (entry.1 < stop) && !decide (entry.1 < begin)) = true ↔ _
    rw [Bool.and_eq_true, Bool.not_eq_true', decide_eq_false_iff_not, not_lt, decide_eq_true_iff,
      and_comm]
  unfold rows
  dsimp only
  rw [hrows]

theorem mem_rows {row : KeyValue} : row ∈ bounds.rows reverse view ↔
    row ∈ (view.keyValues.take (bounds.stop.position view.keyValues)).drop
      (bounds.begin.position view.keyValues) := by
  unfold rows
  cases reverse <;> simp

theorem mem_keyValues_of_mem_rows {row : KeyValue} (h : row ∈ bounds.rows reverse view) :
    row ∈ view.keyValues :=
  List.mem_of_mem_take (List.mem_of_mem_drop (mem_rows.mp h))

theorem continues (reverse : Bool) :
    Continues (ComesBefore reverse) (rows reverse) (after reverse) where
  irrefl row := by cases reverse <;> exact lt_irrefl row.key
  trans := by
    intro first second third hfirst hsecond
    cases reverse with
    | true => exact lt_trans (α := Bytes) hsecond hfirst
    | false => exact lt_trans (α := Bytes) hfirst hsecond
  sorted := by
    intro bounds view
    have hsorted := ((keyValues_sorted view).take (i := bounds.stop.position view.keyValues)).drop
      (i := bounds.begin.position view.keyValues)
    cases reverse with
    | true => exact List.pairwise_reverse.mpr hsorted
    | false => exact hsorted
  after := by
    intro bounds view last row hrow
    rw [rows_after] at hrow
    cases reverse with
    | true =>
        simp only [if_true, List.mem_reverse, List.mem_filter, decide_eq_true_eq] at hrow
        exact hrow.2
    | false =>
        simp only [Bool.false_eq_true, if_false, List.mem_filter, decide_eq_true_eq] at hrow
        exact hrow.2
  kept := by
    intro bounds view last row hrow hbefore
    rw [mem_rows] at hrow
    rw [rows_after]
    cases reverse with
    | true =>
        simp only [if_true, List.mem_reverse, List.mem_filter, decide_eq_true_eq]
        rw [List.drop_take] at hrow
        exact ⟨List.mem_of_mem_take hrow, hbefore⟩
    | false =>
        simp only [Bool.false_eq_true, if_false, List.mem_filter, decide_eq_true_eq]
        exact ⟨List.mem_of_mem_drop hrow, hbefore⟩
  within := by
    intro bounds view last row hlast hrow
    rw [mem_rows] at hlast ⊢
    rw [rows_after] at hrow
    have hsorted := keyValues_sorted view
    cases reverse with
    | true =>
        simp only [if_true, List.mem_reverse, List.mem_filter, decide_eq_true_eq] at hrow
        rw [List.drop_take] at hlast ⊢
        refine mem_take_of_before ?_ hlast hrow.1 hrow.2
        exact hsorted.drop
    | false =>
        simp only [Bool.false_eq_true, if_false, List.mem_filter, decide_eq_true_eq] at hrow
        refine mem_drop_of_after ?_ hlast hrow.1 hrow.2
        exact hsorted.take

end Bounds

/-! ## Pages of a range -/

structure RangeOption.Rest (range : RangeOption) (bounds : Bounds) (count : Nat)
    (rest : RangeOption) : Prop where
  bounds_eq : rest.bounds = bounds
  reverse_eq : rest.reverse = range.reverse
  limit_eq : rest.limit = range.limit.map (· - count)

/-- The rows that a stream has emitted, some pages of its range, each of the rows that the
transaction saw at its time. -/
structure RangeRead (range : RangeOption) (views : List View) (emitted : List KeyValue) :
    Prop where
  sorted : emitted.Pairwise (ComesBefore range.reverse)
  limited : ∀ limit, range.limit = some limit → emitted.length ≤ limit
  seen : ∀ row ∈ emitted, ∃ view ∈ views, view.get? row.key = some row.value
  unchanged : ∀ view, (∀ other ∈ views, other = view) → emitted <+: range.select view

theorem RangeRead.mono {range : RangeOption} {views views' : List View}
    {emitted : List KeyValue} (h : RangeRead range views emitted) (hviews : views ⊆ views') :
    RangeRead range views' emitted where
  sorted := h.sorted
  limited := h.limited
  seen row hrow := (h.seen row hrow).imp fun _ hview => ⟨hviews hview.1, hview.2⟩
  unchanged view hsame := h.unchanged view fun other hother => hsame other (hviews hother)

structure RangeReadAll (range : RangeOption) (views : List View) (emitted : List KeyValue) :
    Prop extends RangeRead range views emitted where
  complete : ∀ row, (∀ view ∈ views, row ∈ range.bounds.rows range.reverse view) →
    row ∈ emitted ∨ range.limit = some emitted.length
  whole : ∀ view, (∀ other ∈ views, other = view) → emitted = range.select view

structure RangePages (range : RangeOption) (views : List View) (emitted : List KeyValue)
    (rest : RangeOption) : Prop where
  paged : ∃ pages bounds, Paged (Bounds.rows range.reverse) (Bounds.after range.reverse)
    range.bounds pages bounds ∧ pages.map Prod.fst = views ∧ emission pages = emitted ∧
      range.Rest bounds emitted.length rest
  limited : ∀ limit, range.limit = some limit → emitted.length ≤ limit

namespace RangePages

variable {range rest : RangeOption} {views : List View} {emitted : List KeyValue} {view : View}
  {page : FdbValues}

theorem start (range : RangeOption) : RangePages range [] [] range where
  paged := ⟨[], range.bounds, .nil, rfl, rfl, rfl, rfl, by simp⟩
  limited := fun _ _ => Nat.zero_le _

theorem select_initial (range : RangeOption) (view : View) :
    range.select view <+: range.bounds.rows range.reverse view := by
  unfold RangeOption.select
  split
  · exact List.take_prefix _ _
  · exact List.prefix_rfl

theorem initial_select {rows : List KeyValue} (h : rows <+: range.bounds.rows range.reverse view)
    (hlimit : ∀ limit, range.limit = some limit → rows.length ≤ limit) :
    rows <+: range.select view := by
  unfold RangeOption.select
  split
  · next limit hlimit' => exact List.prefix_take_iff.mpr ⟨h, hlimit limit hlimit'⟩
  · exact h

theorem rangeRead {pages : List (View × List KeyValue)} {bounds : Bounds} {rows : List KeyValue}
    (h : Paged (Bounds.rows range.reverse) (Bounds.after range.reverse) range.bounds pages bounds)
    (hrows : rows <+: bounds.rows range.reverse view) (hviews : ∀ read ∈ pages, read.1 ∈ views)
    (hview : rows ≠ [] → view ∈ views)
    (hlimited : ∀ limit, range.limit = some limit → (emission pages ++ rows).length ≤ limit) :
    RangeRead range views (emission pages ++ rows) where
  sorted := h.emission_sorted (Bounds.continues range.reverse) hrows
  limited := hlimited
  seen := by
    intro row hrow
    rcases List.mem_append.mp hrow with hrow | hrow
    · obtain ⟨read, hread, bounds', hmem⟩ := h.mem_source hrow
      exact ⟨read.1, hviews read hread, mem_keyValues.mp (Bounds.mem_keyValues_of_mem_rows hmem)⟩
    · exact ⟨view, hview (List.ne_nil_of_mem hrow),
        mem_keyValues.mp (Bounds.mem_keyValues_of_mem_rows (hrows.subset hrow))⟩
  unchanged := by
    intro other hother
    refine initial_select ?_ hlimited
    rw [h.select_eq (Bounds.continues range.reverse) fun read hread =>
      hother read.1 (hviews read hread)]
    refine (List.prefix_append_right_inj _).mpr ?_
    by_cases hnil : rows = []
    · rw [hnil]
      exact List.nil_prefix
    · rwa [← hother view (hview hnil)]

theorem read (h : RangePages range views emitted rest) : RangeRead range views emitted := by
  obtain ⟨pages, bounds, hpaged, rfl, rfl, -⟩ := h.paged
  have hrows : [] <+: bounds.rows range.reverse ∅ := List.nil_prefix
  have hread := rangeRead hpaged hrows (fun read hread => List.mem_map_of_mem hread)
    (fun hne => absurd rfl hne) (by simpa using h.limited)
  rwa [List.append_nil] at hread

theorem rows_initial {bounds : Bounds} (hrest : range.Rest bounds emitted.length rest)
    (hreads : rest.Reads view page) : page.rows <+: bounds.rows range.reverse view := by
  have hselect := hreads.initial.trans (select_initial rest view)
  rwa [hrest.bounds_eq, hrest.reverse_eq] at hselect

theorem page_limited {bounds : Bounds} (h : RangePages range views emitted rest)
    (hrest : range.Rest bounds emitted.length rest) (hreads : rest.Reads view page) (limit : Nat)
    (hlimit : range.limit = some limit) : (emitted ++ page.rows).length ≤ limit := by
  have hbefore := h.limited limit hlimit
  have hlength := hreads.initial.length_le
  unfold RangeOption.select at hlength
  rw [hrest.limit_eq, hlimit] at hlength
  simp only [Option.map_some, List.length_take] at hlength
  rw [List.length_append]
  omega

/-- The client library has no next range when the rows of the range or its limit are used up. -/
theorem ends (hreads : rest.Reads view page)
    (hnext : ClientLibrary.recording.nextRange rest page = none) :
    page.rows = rest.bounds.rows rest.reverse view ∨ rest.limit = some page.rows.length := by
  have hselected : page.rows = rest.select view ∨ rest.limit.map (· - page.rows.length) = some 0 := by
    cases hlast : page.rows.getLast? with
    | none =>
        have hnil := List.getLast?_eq_none_iff.mp hlast
        rw [hnil, hreads.nonempty hnil]
        exact .inl rfl
    | some last =>
        simp only [ClientLibrary.recording, hlast, Option.bind_eq_bind, Option.bind_some] at hnext
        split_ifs at hnext with hstop
        rcases hstop with hmore | hlimit
        · exact .inl (hreads.complete hmore)
        · exact .inr hlimit
  have hlength := hreads.initial.length_le
  unfold RangeOption.select at hselected hlength
  cases hlimit : rest.limit with
  | none =>
      rw [hlimit] at hselected
      rcases hselected with hselected | hlimit
      · exact .inl hselected
      · cases hlimit
  | some limit =>
      simp only [hlimit, List.length_take, Option.map_some, Option.some.injEq] at hselected hlength
      rcases hselected with hselected | hzero
      · rcases le_total (rest.bounds.rows rest.reverse view).length limit with hall | hlimited
        · rw [List.take_of_length_le hall] at hselected
          exact .inl hselected
        · refine .inr (congrArg some ?_)
          rw [hselected, List.length_take, min_eq_left hlimited]
      · exact .inr (congrArg some (by omega))

theorem readAll (h : RangePages range views emitted rest) (hreads : rest.Reads view page)
    (hnext : ClientLibrary.recording.nextRange rest page = none) :
    RangeReadAll range (views ++ [view]) (emitted ++ page.rows) := by
  obtain ⟨pages, bounds, hpaged, rfl, rfl, hrest⟩ := h.paged
  have hrows := rows_initial hrest hreads
  have hread : RangeRead range (pages.map Prod.fst ++ [view]) (emission pages ++ page.rows) :=
    rangeRead hpaged hrows
      (fun read hread => List.mem_append_left _ (List.mem_map_of_mem hread))
      (fun _ => List.mem_append_right _ (List.mem_singleton_self _)) (h.page_limited hrest hreads)
  have hends : page.rows = bounds.rows range.reverse view ∨
      range.limit = some (emission pages ++ page.rows).length := by
    have hends := ends hreads hnext
    rw [hrest.bounds_eq, hrest.reverse_eq, hrest.limit_eq] at hends
    refine hends.imp id fun hlimit => ?_
    obtain ⟨limit, hlimit, hcount⟩ := Option.map_eq_some_iff.mp hlimit
    have hbefore := h.limited limit hlimit
    rw [hlimit, List.length_append]
    exact congrArg some (by omega)
  have hlaws := Bounds.continues range.reverse
  refine ⟨hread, fun row hrow => ?_, fun other hother => ?_⟩
  · rcases hends with hall | hlimit
    · have hbefore (read : View × List KeyValue) (hmem : read ∈ pages) :=
        hrow read.1 (List.mem_append_left _ (List.mem_map_of_mem hmem))
      rcases hpaged.read_or_kept hlaws hbefore with hmem | hkept
      · exact .inl (List.mem_append_left _ hmem)
      · refine .inl (List.mem_append_right _ ?_)
        rw [hall]
        exact hkept view (hrow view (List.mem_append_right _ (List.mem_singleton_self _)))
    · exact .inr hlimit
  · have hprefix := hread.unchanged other hother
    rcases hends with hall | hlimit
    · refine hprefix.eq_of_length_le ?_
      have hselect := (select_initial range other).length_le
      rw [hpaged.select_eq hlaws fun read hread =>
        hother read.1 (List.mem_append_left _ (List.mem_map_of_mem hread)),
        ← hother view (List.mem_append_right _ (List.mem_singleton_self _)), ← hall] at hselect
      rwa [← hother view (List.mem_append_right _ (List.mem_singleton_self _))]
    · refine hprefix.eq_of_length_le ?_
      unfold RangeOption.select
      rw [hlimit]
      exact List.length_take_le _ _

theorem next (h : RangePages range views emitted rest) (hreads : rest.Reads view page)
    {following : RangeOption}
    (hnext : ClientLibrary.recording.nextRange rest page = some following) :
    RangePages range (views ++ [view]) (emitted ++ page.rows) following := by
  obtain ⟨pages, bounds, hpaged, rfl, rfl, hrest⟩ := h.paged
  refine ⟨?_, h.page_limited hrest hreads⟩
  cases hlast : page.rows.getLast? with
  | none =>
      simp only [ClientLibrary.recording, hlast, Option.bind_eq_bind, Option.bind_none] at hnext
      cases hnext
  | some last =>
      simp only [ClientLibrary.recording, hlast, Option.bind_eq_bind, Option.bind_some] at hnext
      split_ifs at hnext with hstop hreverse
      all_goals
        cases hnext
        refine ⟨_, _, hpaged.snoc (rows_initial hrest hreads) hlast, by simp,
          emission_snoc pages view page.rows, ?_, hrest.reverse_eq, ?_⟩
        · rw [← hrest.bounds_eq, ← hrest.reverse_eq]
          simp [Bounds.after, RangeOption.bounds, hreverse, KeySelector.firstGreaterOrEqual,
            KeySelector.firstGreaterThan]
        · dsimp only
          rw [hrest.limit_eq, Option.map_map, List.length_append]
          exact congrArg (range.limit.map ·) (funext fun limit => Nat.sub_sub _ _ _)

end RangePages

/-! ## Streams -/

structure RangeOptions where
  begin : KeySelector
  stop : KeySelector
  limit : Option Int := none
  targetBytes : Option Int := none
  mode : Option Int := none
  reverse : Bool := false
  snapshot : Bool := false

def keyRange (begin stop : Bytes) (options : RangeOptions) : RangeOptions :=
  { options with begin := .firstGreaterOrEqual begin, stop := .firstGreaterOrEqual stop }

namespace RangeOptions

def openRange (τ : Type) (transaction : Nat) (options : RangeOptions) : NativeCall τ :=
  .rangeOpen transaction ⟨some options.begin.key, options.begin.orEqual, options.begin.offset⟩
    ⟨some options.stop.key, options.stop.orEqual, options.stop.offset⟩ (options.limit.getD 0)
    (options.targetBytes.getD 0) (options.mode.getD (-1)) options.reverse options.snapshot

def range (options : RangeOptions) (mode : StreamingMode) : RangeOption where
  begin := options.begin
  stop := options.stop
  limit := if options.limit.getD 0 > 0 then some (options.limit.getD 0).toNat else none
  targetBytes := (options.targetBytes.getD 0).toNat
  mode
  reverse := options.reverse

end RangeOptions

inductive StreamStatus where
  | ready (more : Bool)
  | awaiting
  | finished
  | failed
  deriving DecidableEq

/-- The consumer of a range, with the rows that it has got. -/
structure RangeStream where
  range : Nat
  status : StreamStatus
  emitted : List KeyValue

namespace RangeStream

def start (range : Nat) : RangeStream := { range, status := .ready true, emitted := [] }

def pulled (stream : RangeStream) (result : FfiResult) : RangeStream :=
  { stream with status := if result.code = 0 then .awaiting else .failed }

/-- What a stream makes of the end of a request. -/
def settle (stream : RangeStream) (result : FfiResult) : RangeStream :=
  if result.code ≠ 0 then { stream with status := .failed }
  else
    match decodeKeyValues result.data with
    | .error _ => { stream with status := .failed }
    | .ok values =>
        { stream with
          status := .ready (result.flags &&& RESULT_MORE ≠ 0)
          emitted := stream.emitted ++ values }

theorem settle_values {stream : RangeStream} {result : FfiResult} {values : List KeyValue}
    {more : Bool} (hcode : result.code = 0) (hdata : encodeKeyValues values = .ok result.data)
    (hflags : result.flags = if more then RESULT_MORE else 0) :
    stream.settle result =
      { stream with status := .ready more, emitted := stream.emitted ++ values } := by
  unfold settle
  rw [if_neg (not_not_intro hcode), decodeKeyValues_eq_ok.mpr hdata, hflags]
  cases more <;> simp [RESULT_MORE]

def released (stream : RangeStream) : Bool :=
  stream.status = .finished ∨ stream.status = .failed

end RangeStream

def NativeCall.cursor {τ : Type} : NativeCall τ → Option Nat
  | .rangeNext handle _ _ | .rangeClose handle => some handle
  | _ => none

def AsyncFuture.cursor {τ ε : Type} : AsyncFuture τ ε → Option Nat
  | .page cursor _ _ _ | .rangeEnd cursor => some cursor
  | _ => none

def HandleLabel.cursor {τ ε : Type} : HandleLabel τ ε → Option Nat
  | .call request _ => request.cursor
  | .complete future _ _ => future.cursor
  | .environment => none

/-- The steps of a stream and of the others. A step that reads a page has its view as its label. -/
inductive StreamStep {τ ε : Type} (client : ClientLibrary τ) :
    Handles τ ε × RangeStream → Option View → Handles τ ε × RangeStream → Prop where
  | pull (handles : Handles τ ε) (stream : RangeStream) (requestId : Nat)
      (hstatus : stream.status = .ready true) :
      StreamStep client (handles, stream) none
        ((handles.call client (.rangeNext stream.range true requestId)).2,
          stream.pulled (handles.call client (.rangeNext stream.range true requestId)).1)
  | page {handles next : Handles τ ε} {stream : RangeStream} {range : RangeOption}
      {iteration : Nat} {snapshot : Bool} {values : FdbValues} {result : FfiResult} {view : View}
      (hstatus : stream.status = .awaiting) (hreads : range.Reads view values)
      (hstep : HandleStep client handles
        (.complete (.page stream.range range iteration snapshot) (.values values) result) next) :
      StreamStep client (handles, stream) (some view) (next, stream.settle result)
  | settle {handles next : Handles τ ε} {stream : RangeStream} {future : AsyncFuture τ ε}
      {outcome : Outcome τ ε} {result : FfiResult} (hstatus : stream.status = .awaiting)
      (hfuture : future.cursor = some stream.range)
      (houtcome : ∀ values, outcome ≠ .values values)
      (hstep : HandleStep client handles (.complete future outcome result) next) :
      StreamStep client (handles, stream) none (next, stream.settle result)
  | finish (handles : Handles τ ε) (stream : RangeStream) (hstatus : stream.status = .ready false) :
      StreamStep client (handles, stream) none (handles, { stream with status := .finished })
  | interrupt (handles : Handles τ ε) (stream : RangeStream)
      (hstatus : stream.status ≠ .finished) :
      StreamStep client (handles, stream) none (handles, { stream with status := .failed })
  | other {handles next : Handles τ ε} {stream : RangeStream} {label : HandleLabel τ ε}
      (hstep : HandleStep client handles label next)
      (hother : label.cursor ≠ some stream.range ∨ stream.released) :
      StreamStep client (handles, stream) none (next, stream)

/-- A stream has emitted pages of its range, and all of them when it has come to its end. -/
def Streamed (range : RangeOption) (views : List View) (stream : RangeStream) : Prop :=
  RangeRead range views stream.emitted ∧
    (stream.status = .finished → RangeReadAll range views stream.emitted)

/-! ## The handle table around a stream -/

namespace Handles

variable {τ ε : Type} {client : ClientLibrary τ} {handles next : Handles τ ε} {handle : Nat}

theorem ranges_startAsync (callback : Bool) (requestId : Nat) (future : AsyncFuture τ ε) :
    (handles.startAsync callback requestId future).2.ranges = handles.ranges := by
  unfold startAsync
  split_ifs <;> rfl

theorem ranges_transactionCommit (slot : Nat) (callback : Bool) (requestId : Nat) :
    (handles.transactionCommit slot callback requestId).2.ranges = handles.ranges := by
  unfold transactionCommit
  cases handles.transaction slot with
  | error code => rfl
  | ok state =>
      rcases state with _ | _ | _
      · rfl
      · exact ranges_startAsync ..
      · rfl

theorem ranges_transactionOnError (slot : Nat) (errorCode : Int) (callback : Bool)
    (requestId : Nat) :
    (handles.transactionOnError slot errorCode callback requestId).2.ranges = handles.ranges := by
  unfold transactionOnError
  cases handles.transaction slot with
  | error code => rfl
  | ok state =>
      cases state with
      | none => rfl
      | some state => exact ranges_startAsync ..

theorem ranges_rangeNext {other : Nat} (hother : other ≠ handle) (callback : Bool)
    (requestId : Nat) :
    (handles.rangeNext other callback requestId).2.ranges handle = handles.ranges handle := by
  unfold rangeNext
  cases handles.range other with
  | error code => rfl
  | ok cursor =>
      obtain ⟨transaction, range, iteration, snapshot⟩ := cursor
      cases range with
      | none => exact congrFun (ranges_startAsync ..) handle
      | some range =>
          let taken := handles.setRange other fun cursor => { cursor with range := none }
          have htaken : taken.ranges handle = handles.ranges handle :=
            Function.update_of_ne hother.symm _ _
          refine Eq.trans ?_ htaken
          change (taken.attempt _).2.ranges handle = taken.ranges handle
          cases taken.transaction transaction with
          | error code => rfl
          | ok state =>
              cases hactive : activeTransaction state with
              | error code => simp only [hactive, attempt, bind, Except.bind]
              | ok active =>
                  simp only [hactive, attempt, bind, Except.bind]
                  exact congrFun (ranges_startAsync ..) handle

theorem ranges_of_call {call : NativeCall τ} (hcall : call.cursor ≠ some handle)
    (hknown : handle < handles.nextHandle) {cursor : RangeCursor}
    (hcursor : (handles.call client call).2.ranges handle = some cursor) :
    handles.ranges handle = some cursor := by
  by_cases hkeeps : handles.keeps call
  · have hcases := call_cases client handles call
    generalize (handles.call client call).2 = next at hcases hcursor
    generalize (handles.call client call).1.code = code at hcases
    cases hcases with
    | unchanged | opened | read | written | committing | recovering | lost | ending => exact hcursor
    | closed => exact (Option.filter_eq_some_iff.mp hcursor).1
    | rangeLost _ _ _ _ _ _ _ _ hlost => simp [hlost] at hkeeps
    | rangeOpened => exact (Function.update_of_ne hknown.ne _ _).symm.trans hcursor
    | paging other =>
        have hother : handle ≠ other := fun heq => hcall (congrArg some heq.symm)
        exact (Function.update_of_ne hother _ _).symm.trans hcursor
    | rangeClosed other =>
        have hother : handle ≠ other := fun heq => hcall (congrArg some heq.symm)
        exact (Function.update_of_ne hother _ _).symm.trans hcursor
  · cases call with
    | transactionCommit slot callback requestId =>
        rwa [← ranges_transactionCommit slot callback requestId]
    | transactionOnError slot errorCode callback requestId =>
        rwa [← ranges_transactionOnError slot errorCode callback requestId]
    | rangeNext other callback requestId =>
        have hother : other ≠ handle := fun heq => hcall (congrArg some heq)
        rwa [← ranges_rangeNext hother callback requestId]
    | _ => exact absurd rfl hkeeps

theorem futures_of_call (client : ClientLibrary τ) (handles : Handles τ ε)
    {call : NativeCall τ} (hcall : call.cursor ≠ some handle) : ∃ started,
      (handles.call client call).2.futures = handles.futures ++ started ∧
        ∀ future ∈ started, future.cursor ≠ some handle := by
  have hcases := call_cases client handles call
  generalize (handles.call client call).2 = next at hcases
  generalize (handles.call client call).1.code = code at hcases
  cases hcases with
  | unchanged | opened | closed | written | lost | rangeOpened | rangeLost | rangeClosed =>
      exact ⟨[], (List.append_nil _).symm, fun _ hmem => absurd hmem List.not_mem_nil⟩
  | read | committing | recovering | paging | ending =>
      refine ⟨[_], rfl, fun future hfuture => ?_⟩
      rw [List.mem_singleton.mp hfuture]
      exact hcall

theorem note_frame (future : AsyncFuture τ ε) (outcome : Outcome τ ε) :
    (handles.note client future outcome).ranges = handles.ranges ∧
      (handles.note client future outcome).futures = handles.futures ∧
        (handles.note client future outcome).nextHandle = handles.nextHandle := by
  unfold note
  split
  · split
    · split_ifs <;> exact ⟨rfl, rfl, rfl⟩
    · exact ⟨rfl, rfl, rfl⟩
  · exact ⟨rfl, rfl, rfl⟩

theorem ranges_of_complete {future : AsyncFuture τ ε} {outcome : Outcome τ ε} {result : FfiResult}
    (hfuture : future.cursor ≠ some handle)
    (h : handles.complete client future outcome = some (result, next)) :
    (next.note client future outcome).ranges handle = handles.ranges handle := by
  have hcases := complete_cases h
  generalize next.note client future outcome = noted at hcases
  cases hcases with
  | unchanged => rw [(note_frame future outcome).1]
  | restored => rfl
  | delivered other | paged other =>
      have hother : handle ≠ other := fun heq => hfuture (congrArg some heq.symm)
      exact Function.update_of_ne hother _ _

theorem futures_of_complete {future : AsyncFuture τ ε} {outcome : Outcome τ ε}
    {result : FfiResult} (h : handles.complete client future outcome = some (result, next)) :
    (next.note client future outcome).futures = handles.futures ∧
      (next.note client future outcome).nextHandle = handles.nextHandle := by
  have hcases := complete_cases h
  generalize next.note client future outcome = noted at hcases
  cases hcases with
  | unchanged => exact (note_frame future outcome).2
  | restored | delivered | paged => exact ⟨rfl, rfl⟩

theorem nextHandle_le {label : HandleLabel τ ε} (h : HandleStep client handles label next) :
    handles.nextHandle ≤ next.nextHandle := by
  cases h with
  | call call =>
      have hcases := call_cases client handles call
      generalize (handles.call client call).2 = next at hcases
      generalize (handles.call client call).1.code = code at hcases
      cases hcases with
      | opened | rangeOpened => exact Nat.le_succ _
      | _ => exact le_rfl
  | complete hfutures hcomplete => exact (futures_of_complete hcomplete).2.ge
  | environment => exact le_rfl

theorem complete_page {range : RangeOption} {iteration : Nat} {snapshot : Bool}
    {outcome : Outcome τ ε} {result : FfiResult}
    (h : handles.complete client (.page handle range iteration snapshot) outcome =
      some (result, next)) :
    result.code ≠ 0 ∨ ∃ values data, outcome = .values values ∧
      encodeKeyValues values.rows = .ok data ∧ result.code = 0 ∧ result.data = data ∧
      (result.flags = if (client.nextRange range values).isSome then RESULT_MORE else 0) ∧
      next = handles.setRange handle fun cursor =>
        { cursor with
          iteration := cursor.iteration + 1
          range := client.nextRange range values } := by
  cases outcome with
  | values values =>
      unfold complete at h
      cases hdata : encodeKeyValues values.rows with
      | error code =>
          simp only [hdata] at h
          cases h
          exact .inl (encodeKeyValues_ne_zero hdata)
      | ok data =>
          simp only [hdata] at h
          cases h
          exact .inr ⟨values, data, rfl, hdata, rfl, rfl, rfl, rfl⟩
  | failed error =>
      cases h
      exact .inl error.nonzero
  | panicked | cancelled =>
      cases h
      exact .inl (by decide)
  | ready | value | committed | commitFailed | retried => cases h

def tasks (handles : Handles τ ε) (handle : Nat) : List (AsyncFuture τ ε) :=
  handles.futures.filter fun future => future.cursor = some handle

/-- What the cursor of a range, unless it is gone, has for the next page. -/
def Leaves (handles : Handles τ ε) (handle : Nat) (rest : Option RangeOption) : Prop :=
  ∀ cursor, handles.ranges handle = some cursor → cursor.range = rest

theorem apart_of_step {label : HandleLabel τ ε} (hknown : handle < handles.nextHandle)
    (h : HandleStep client handles label next) (hother : label.cursor ≠ some handle) :
    (∀ rest, handles.Leaves handle rest → next.Leaves handle rest) ∧
      next.tasks handle = handles.tasks handle := by
  cases h with
  | call call =>
      refine ⟨fun rest h cursor hcursor => h cursor (ranges_of_call hother hknown hcursor), ?_⟩
      obtain ⟨started, hfutures, hstarted⟩ := futures_of_call client handles hother
      have hnone : started.filter (fun future => future.cursor = some handle) = [] :=
        List.filter_eq_nil_iff.mpr fun future hfuture => by simpa using hstarted future hfuture
      rw [tasks, hfutures, List.filter_append, hnone, List.append_nil, tasks]
  | complete hfutures hcomplete =>
      rw [HandleLabel.cursor] at hother
      have hranges := ranges_of_complete hother hcomplete
      refine ⟨fun rest h cursor hcursor => h cursor (hranges ▸ hcursor), ?_⟩
      rw [tasks, (futures_of_complete hcomplete).1, tasks, hfutures, List.filter_append,
        List.filter_append, List.filter_cons_of_neg (by simpa using hother)]
  | environment => exact ⟨fun _ h => h, rfl⟩

theorem range_ne_zero {code : Int} (h : handles.range handle = .error code) : code ≠ 0 := by
  rcases bind_eq_error.mp h with hruntime | ⟨_, -, hrange⟩
  · exact runtime_ne_zero hruntime
  · split at hrange <;> cases hrange
    decide

theorem activeTransaction_ne_zero {state : Option (TransactionState τ ε)} {code : Int}
    (h : activeTransaction state = .error code) : code ≠ 0 := by
  unfold activeTransaction at h
  split at h <;> cases h
  all_goals decide

theorem rangeNext_accepted {rest : RangeOption} {requestId : Nat}
    (hleaves : handles.Leaves handle (some rest))
    (hcode : (handles.rangeNext handle true requestId).1.code = 0) : ∃ iteration snapshot,
      (handles.rangeNext handle true requestId).2 =
        (handles.setRange handle fun cursor => { cursor with range := none }).spawn requestId
          (.page handle rest iteration snapshot) := by
  unfold rangeNext at hcode ⊢
  cases hcursor : handles.range handle with
  | error code =>
      simp only [hcursor, attempt, bind, Except.bind] at hcode
      exact absurd hcode (range_ne_zero hcursor)
  | ok cursor =>
      obtain ⟨transaction, range, iteration, snapshot⟩ := cursor
      obtain rfl : range = some rest := hleaves _ (range_eq_ok.mp hcursor).2
      let taken := handles.setRange handle fun cursor => { cursor with range := none }
      have htaken : taken.transaction transaction = handles.transaction transaction := rfl
      refine ⟨iteration, snapshot, ?_⟩
      cases hstate : handles.transaction transaction with
      | error code =>
          simp only [hcursor, attempt, bind, Except.bind, htaken, hstate, taken] at hcode
          exact absurd hcode (transaction_ne_zero hstate)
      | ok state =>
          cases hactive : activeTransaction state with
          | error code =>
              simp only [hcursor, attempt, bind, Except.bind, htaken, hstate, hactive, taken]
                at hcode
              exact absurd hcode (activeTransaction_ne_zero hactive)
          | ok active =>
              by_cases hstarts : handles.starts true requestId
              · have hstarted := startAsync_of_starts taken
                  (.page handle rest iteration snapshot) hstarts
                simp only [attempt, bind, Except.bind, htaken, hstate, hactive, hstarted, taken]
              · obtain ⟨code, hne, hrefused⟩ := startAsync_refused taken
                  (.page handle rest iteration snapshot) hstarts
                simp only [hcursor, attempt, bind, Except.bind, htaken, hstate, hactive, hrefused,
                  taken] at hcode
                exact absurd hcode hne

theorem task_of_complete {earlier later : List (AsyncFuture τ ε)}
    {future task : AsyncFuture τ ε} (hfutures : handles.futures = earlier ++ future :: later)
    (hfuture : future.cursor = some handle) (htask : handles.tasks handle = [task]) :
    future = task ∧ tasks { handles with futures := earlier ++ later } handle = [] := by
  rw [tasks, hfutures, List.filter_append, List.filter_cons_of_pos (by simpa using hfuture),
    List.append_eq_singleton_iff] at htask
  rcases htask with ⟨hearlier, htask⟩ | ⟨-, htask⟩
  · obtain ⟨rfl, hlater⟩ := List.cons.inj htask
    exact ⟨rfl, by rw [tasks, List.filter_append, hearlier, hlater, List.append_nil]⟩
  · cases htask

end Handles

/-! ## The invariant of a stream -/

section

variable {τ ε : Type} {client : ClientLibrary τ} {handles next : Handles τ ε}
  {stream following : RangeStream} {range : RangeOption} {views : List View}

inductive StreamInv (range : RangeOption) (handles : Handles τ ε) (stream : RangeStream)
    (views : List View) : Prop where
  | ready (rest : RangeOption) (hstatus : stream.status = .ready true)
      (hpages : RangePages range views stream.emitted rest)
      (hleaves : handles.Leaves stream.range (some rest)) (hidle : handles.tasks stream.range = [])
  | awaiting (rest : RangeOption) (iteration : Nat) (snapshot : Bool)
      (hstatus : stream.status = .awaiting) (hpages : RangePages range views stream.emitted rest)
      (hreading : handles.tasks stream.range = [.page stream.range rest iteration snapshot])
  | ended (hstatus : stream.status = .ready false ∨ stream.status = .finished)
      (hread : RangeReadAll range views stream.emitted)
  | failed (hstatus : stream.status = .failed) (hread : RangeRead range views stream.emitted)

namespace StreamInv

theorem read (h : StreamInv range handles stream views) : RangeRead range views stream.emitted := by
  cases h with
  | ready rest hstatus hpages => exact hpages.read
  | awaiting rest iteration snapshot hstatus hpages => exact hpages.read
  | ended hstatus hread => exact hread.toRangeRead
  | failed hstatus hread => exact hread

theorem streamed (h : StreamInv range handles stream views) : Streamed range views stream := by
  refine ⟨h.read, fun hfinished => ?_⟩
  cases h with
  | ready _ hstatus | awaiting _ _ _ hstatus | failed hstatus =>
      rw [hstatus] at hfinished
      cases hfinished
  | ended _ hread => exact hread

theorem other (h : StreamInv range handles stream views)
    (hknown : stream.range < handles.nextHandle) {label : HandleLabel τ ε}
    (hstep : HandleStep client handles label next)
    (hother : label.cursor ≠ some stream.range ∨ stream.released) :
    StreamInv range next stream views := by
  cases h with
  | ready rest hstatus hpages hleaves hidle =>
      rw [RangeStream.released, hstatus] at hother
      obtain ⟨hapart, htasks⟩ := Handles.apart_of_step hknown hstep (hother.resolve_right (by simp))
      exact .ready rest hstatus hpages (hapart _ hleaves) (htasks.trans hidle)
  | awaiting rest iteration snapshot hstatus hpages hreading =>
      rw [RangeStream.released, hstatus] at hother
      obtain ⟨-, htasks⟩ := Handles.apart_of_step hknown hstep (hother.resolve_right (by simp))
      exact .awaiting rest iteration snapshot hstatus hpages (htasks.trans hreading)
  | ended hstatus hread => exact .ended hstatus hread
  | failed hstatus hread => exact .failed hstatus hread

theorem pull (h : StreamInv range handles stream views) (hstatus : stream.status = .ready true)
    (requestId : Nat) :
    StreamInv range (handles.call client (.rangeNext stream.range true requestId)).2
      (stream.pulled (handles.call client (.rangeNext stream.range true requestId)).1) views := by
  cases h with
  | ready rest _ hpages hleaves hidle =>
      unfold RangeStream.pulled
      by_cases hcode : (handles.rangeNext stream.range true requestId).1.code = 0
      · obtain ⟨iteration, snapshot, hnext⟩ := Handles.rangeNext_accepted hleaves hcode
        refine .awaiting rest iteration snapshot (if_pos hcode) hpages ?_
        change (handles.rangeNext stream.range true requestId).2.tasks stream.range = _
        rw [hnext, Handles.tasks, Handles.spawn, List.filter_append]
        change handles.tasks stream.range ++ _ = _
        rw [hidle, List.nil_append]
        exact List.filter_cons_of_pos (by simp [AsyncFuture.cursor])
      · exact .failed (if_neg hcode) hpages.read
  | awaiting _ _ _ hother | failed hother =>
      rw [hstatus] at hother
      cases hother
  | ended hother => rw [hstatus] at hother; simp at hother

theorem task (h : StreamInv range handles stream views) (hstatus : stream.status = .awaiting)
    {future : AsyncFuture τ ε} {outcome : Outcome τ ε} {result : FfiResult}
    (hfuture : future.cursor = some stream.range)
    (hstep : HandleStep client handles (.complete future outcome result) next) :
    ∃ rest, RangePages range views stream.emitted rest ∧ next.tasks stream.range = [] ∧
      (∃ iteration snapshot, future = .page stream.range rest iteration snapshot) ∧
      (result.code ≠ 0 ∨ ∃ values, outcome = .values values ∧
        stream.settle result = { stream with
          status := .ready (client.nextRange rest values).isSome
          emitted := stream.emitted ++ values.rows } ∧
        next.Leaves stream.range (client.nextRange rest values)) := by
  cases h with
  | awaiting rest iteration snapshot _ hpages hreading =>
      cases hstep with
      | complete hfutures hcomplete =>
          obtain ⟨rfl, hidle⟩ := Handles.task_of_complete hfutures hfuture hreading
          obtain ⟨hnext, -⟩ := Handles.futures_of_complete hcomplete
          refine ⟨rest, hpages, ?_, ⟨iteration, snapshot, rfl⟩, ?_⟩
          · rw [Handles.tasks, hnext]
            exact hidle
          · refine (Handles.complete_page hcomplete).imp id ?_
            rintro ⟨values, data, rfl, hdata, hcode, rfl, hflags, rfl⟩
            refine ⟨values, rfl, ?_, ?_⟩
            · exact RangeStream.settle_values hcode hdata hflags
            · intro cursor hcursor
              rw [(Handles.note_frame _ _).1] at hcursor
              simp only [Handles.setRange, Function.update_self, Option.map_eq_some_iff] at hcursor
              obtain ⟨before, -, rfl⟩ := hcursor
              rfl
  | ready _ hother | failed hother =>
      rw [hstatus] at hother
      cases hother
  | ended hother => simp [hstatus] at hother

theorem settle_failed {result : FfiResult} (hcode : result.code ≠ 0) :
    stream.settle result = { stream with status := .failed } :=
  if_pos hcode

theorem settle_range (result : FfiResult) : (stream.settle result).range = stream.range := by
  unfold RangeStream.settle
  split_ifs
  · rfl
  · split <;> rfl

/-- A step of a stream keeps what its rows are. -/
theorem step (hclient : client.nextRange = ClientLibrary.recording.nextRange)
    {state following : Handles τ ε × RangeStream} {label : Option View}
    (h : StreamInv range state.1 state.2 views) (hknown : state.2.range < state.1.nextHandle)
    (hstep : StreamStep client state label following) :
    StreamInv range following.1 following.2 (views ++ label.toList) ∧
      following.2.range < following.1.nextHandle := by
  cases hstep with
  | pull handles stream requestId hstatus =>
      rw [Option.toList_none, List.append_nil]
      exact ⟨h.pull hstatus requestId, hknown.trans_le (Handles.nextHandle_le (.call handles _))⟩
  | @page handles next stream _ _ _ values result view hstatus hreads hstep =>
      obtain ⟨rest, hpages, hidle, ⟨iteration, snapshot, hfuture⟩, hresult⟩ :=
        h.task hstatus rfl hstep
      obtain ⟨-, rfl, -, -⟩ := AsyncFuture.page.inj hfuture
      refine ⟨?_, (settle_range result).trans_lt (hknown.trans_le (Handles.nextHandle_le hstep))⟩
      rcases hresult with hcode | ⟨values', houtcome, hsettle, hleaves⟩
      · rw [settle_failed hcode]
        exact .failed rfl (hpages.read.mono (List.subset_append_left _ _))
      · obtain rfl : values = values' := Outcome.values.inj houtcome
        rw [hsettle]
        cases hnext : client.nextRange _ values with
        | none =>
            refine .ended (.inl rfl) ?_
            exact hpages.readAll hreads (hclient ▸ hnext)
        | some following =>
            rw [hnext] at hleaves
            exact .ready following rfl (hpages.next hreads (hclient ▸ hnext)) hleaves hidle
  | @settle handles next stream future outcome result hstatus hfuture houtcome hstep =>
      rw [Option.toList_none, List.append_nil]
      obtain ⟨rest, hpages, -, -, hresult⟩ := h.task hstatus hfuture hstep
      refine ⟨?_, (settle_range result).trans_lt (hknown.trans_le (Handles.nextHandle_le hstep))⟩
      rcases hresult with hcode | ⟨values, hvalues, -⟩
      · rw [settle_failed hcode]
        exact .failed rfl hpages.read
      · exact absurd hvalues (houtcome values)
  | finish handles stream hstatus =>
      rw [Option.toList_none, List.append_nil]
      refine ⟨?_, hknown⟩
      cases h with
      | ended _ hread => exact .ended (.inr rfl) hread
      | ready _ hother | awaiting _ _ _ hother | failed hother =>
          rw [hstatus] at hother
          cases hother
  | interrupt handles stream =>
      rw [Option.toList_none, List.append_nil]
      exact ⟨.failed rfl h.read, hknown⟩
  | other hstep hother =>
      rw [Option.toList_none, List.append_nil]
      exact ⟨h.other hknown hstep hother, hknown.trans_le (Handles.nextHandle_le hstep)⟩

theorem run (hclient : client.nextRange = ClientLibrary.recording.nextRange)
    {state following : Handles τ ε × RangeStream} {labels : List (Option View)}
    (h : StreamInv range state.1 state.2 []) (hknown : state.2.range < state.1.nextHandle)
    (hrun : Run (StreamStep client) state labels following) :
    StreamInv range following.1 following.2 labels.reduceOption ∧
      following.2.range < following.1.nextHandle := by
  induction hrun with
  | nil => exact ⟨h, hknown⟩
  | snoc _ hlast ih =>
      rw [List.reduceOption_append, List.reduceOption_singleton]
      exact ih.1.step hclient ih.2 hlast

end StreamInv

end

/-! ## Opened ranges -/

namespace Handles

variable {τ ε : Type} {client : ClientLibrary τ} {handles : Handles τ ε}

theorem slotInv_of_run {labels : List (HandleLabel τ ε)}
    (hrun : Run (HandleStep client) .empty labels handles) : handles.SlotInv := by
  refine Run.invariant (A := fun _ => True) ?_ hrun (fun _ _ => trivial) .empty
  exact fun _ _ _ _ hstep hslots => hslots.handleStep hstep

theorem inputBytes_eq_ok {bytes result : Bytes} (h : inputBytes (some bytes) = .ok result) :
    result = bytes := by
  dsimp only [inputBytes] at h
  split_ifs at h
  exact (Except.ok.inj h).symm

theorem inputBytes_ne_zero {input : Option Bytes} {code : Int}
    (h : inputBytes input = .error code) : code ≠ 0 := by
  unfold inputBytes at h
  split at h
  · split_ifs at h
    cases h
    decide
  · cases h
    decide

theorem streamingMode_ne_zero {value code : Int} (h : streamingMode value = .error code) :
    code ≠ 0 := by
  unfold streamingMode at h
  split_ifs at h
  cases h
  decide

theorem openRange_accepted {transaction : Nat} {options : RangeOptions}
    (hcode : (handles.call client (options.openRange τ transaction)).1.code = 0) :
    ∃ mode, streamingMode (options.mode.getD (-1)) = .ok mode ∧
      handles.call client (options.openRange τ transaction) =
        ({ handle := handles.nextHandle }, { handles with
          nextHandle := handles.nextHandle + 1
          ranges := Function.update handles.ranges handles.nextHandle
            (some ⟨transaction, some (options.range mode), 1, options.snapshot⟩) }) := by
  have hattempt {body : Except Int (FfiResult × Handles τ ε)}
      (hbody : ∀ code, body = .error code → code ≠ 0)
      (h : (handles.attempt body).1.code = 0) :
      ∃ done, body = .ok done ∧ handles.attempt body = done := by
    cases body with
    | error code => exact absurd h (hbody code rfl)
    | ok done => exact ⟨done, rfl, rfl⟩
  refine Exists.elim (hattempt (fun code hbody => ?_) hcode) fun done hdone => ?_
  · dsimp only at hbody
    split at hbody
    · cases hbody
      decide
    · rcases bind_eq_error.mp hbody with hstate | ⟨_, -, hbody⟩
      · exact transaction_ne_zero hstate
      rcases bind_eq_error.mp hbody with hbegin | ⟨_, -, hbody⟩
      · exact inputBytes_ne_zero hbegin
      rcases bind_eq_error.mp hbody with hstop | ⟨_, -, hbody⟩
      · exact inputBytes_ne_zero hstop
      rcases bind_eq_error.mp hbody with hmode | ⟨_, -, hbody⟩
      · exact streamingMode_ne_zero hmode
      · cases hbody
  · obtain ⟨hdone, hcall⟩ := hdone
    dsimp only at hdone
    split at hdone
    · cases hdone
    · obtain ⟨state, -, hdone⟩ := bind_eq_ok.mp hdone
      obtain ⟨beginKey, hbegin, hdone⟩ := bind_eq_ok.mp hdone
      obtain ⟨stopKey, hstop, hdone⟩ := bind_eq_ok.mp hdone
      obtain ⟨mode, hmode, hdone⟩ := bind_eq_ok.mp hdone
      obtain rfl := inputBytes_eq_ok hbegin
      obtain rfl := inputBytes_eq_ok hstop
      refine ⟨mode, hmode, hcall.trans ?_⟩
      cases hdone
      rfl

end Handles

section

variable {τ ε : Type} {client : ClientLibrary τ}

/-- A stream of a range, whatever else the handles are used for, emits rows that the transaction
saw, in the order of the range, each once and no more than its limit. When it comes to its end it
has emitted all rows that were there all the time, unless its limit is reached, and of rows that
did not change exactly those that the range selects. -/
theorem range_streamed (hclient : client.nextRange = ClientLibrary.recording.nextRange)
    {handles : Handles τ ε} {labels : List (HandleLabel τ ε)}
    (hhandles : Run (HandleStep client) .empty labels handles) {transaction : Nat}
    {options : RangeOptions} {result : FfiResult} {opened : Handles τ ε}
    (hopened : handles.call client (options.openRange τ transaction) = (result, opened))
    (hcode : result.code = 0) {views : List (Option View)} {following : Handles τ ε × RangeStream}
    (hrun : Run (StreamStep client) (opened, .start result.handle) views following) :
    ∃ mode, streamingMode (options.mode.getD (-1)) = .ok mode ∧
      Streamed (options.range mode) views.reduceOption following.2 ∧
      ∀ begin stop, options.begin = .firstGreaterOrEqual begin →
        options.stop = .firstGreaterOrEqual stop → ∀ view,
          (options.range mode).bounds.rows options.reverse view =
            let rows := (view.rows (interval begin stop)).map fun entry => ⟨entry.1, entry.2⟩
            if options.reverse then rows.reverse else rows := by
  have hslots := Handles.slotInv_of_run hhandles
  have haccepted : (handles.call client (options.openRange τ transaction)).1.code = 0 := by
    rw [hopened]
    exact hcode
  obtain ⟨mode, hmode, hcall⟩ := Handles.openRange_accepted haccepted
  obtain ⟨rfl, rfl⟩ := Prod.mk.inj (hopened.symm.trans hcall)
  refine ⟨mode, hmode, ?_, fun begin stop hbegin hstop view => Bounds.rows_interval hbegin hstop⟩
  refine (StreamInv.run hclient ?_ (Nat.lt_succ_self handles.nextHandle) hrun).1.streamed
  refine .ready (options.range mode) rfl (RangePages.start _) (fun cursor hcursor => ?_) ?_
  · have hself : Function.update handles.ranges handles.nextHandle
        (some ⟨transaction, some (options.range mode), 1, options.snapshot⟩) handles.nextHandle =
          some cursor := hcursor
    rw [Function.update_self] at hself
    cases hself
    rfl
  · refine List.filter_eq_nil_iff.mpr fun future hfuture => ?_
    have hfresh := (hslots.fresh handles.nextHandle le_rfl).2.2.2 future hfuture
    have hhandle : future.cursor = some handles.nextHandle →
        future.handle = some handles.nextHandle := by
      cases future with
      | page | rangeEnd => exact id
      | get | commit | onError => exact fun hnone => by cases hnone
    exact decide_eq_true_iff.not.mpr fun hcursor => hfresh (hhandle hcursor)

end

def twoKeys : View := ⟨[([1], [10]), ([2], [20])], by decide⟩

def twoKeysRange : RangeOptions :=
  keyRange [1] [3]
    { begin := .firstGreaterOrEqual [], stop := .firstGreaterOrEqual [], limit := some 5 }

/-- Two pages of one row each. -/
theorem range_streamed_twoPages : ∃ mode, streamingMode (-1) = .ok mode ∧
    Streamed (twoKeysRange.range mode) [twoKeys, twoKeys]
      ⟨2, .finished, [⟨[1], [10]⟩, ⟨[2], [20]⟩]⟩ ∧
    ∀ begin stop, KeySelector.firstGreaterOrEqual [1] = .firstGreaterOrEqual begin →
      KeySelector.firstGreaterOrEqual [3] = .firstGreaterOrEqual stop → ∀ view,
        (twoKeysRange.range mode).bounds.rows false view =
          (view.rows (interval begin stop)).map fun entry => ⟨entry.1, entry.2⟩ := by
  let booted : Handles (List (Bytes × Bytes)) Unit :=
    { Handles.empty with lifecycle := .running ⟨0, 730⟩ 1, accepting := true }
  let begun := (booted.call .recording (.transactionOpen (.ok []))).2
  have hbegun : Run (HandleStep .recording) .empty
      [.environment, .call (.transactionOpen (.ok [])) { handle := 1 }] begun :=
    .cons (.environment _ (.running ⟨0, 730⟩ 1) true fun _ => false) (.single (.call booted _))
  let opened := (begun.call .recording (twoKeysRange.openRange _ 1)).2
  have hopened : begun.call .recording (twoKeysRange.openRange _ 1) = ({ handle := 2 }, opened) := rfl
  let first : FdbValues := ⟨[⟨[1], [10]⟩], true⟩
  let second : FdbValues := ⟨[⟨[2], [20]⟩], false⟩
  let rest : RangeOption :=
    { twoKeysRange.range .iterator with begin := .firstGreaterThan [1], limit := some 4 }
  have hfirst : (twoKeysRange.range .iterator).Reads twoKeys first :=
    ⟨by decide, by decide, by decide⟩
  have hsecond : rest.Reads twoKeys second := ⟨by decide, by decide, by decide⟩
  let pulled := (opened.call .recording (.rangeNext 2 true 1)).2
  have hpulled : StreamStep .recording (opened, .start 2) none (pulled, ⟨2, .awaiting, []⟩) :=
    .pull opened (.start 2) 1 rfl
  have hpaged := (Run.single hpulled).snoc <| @StreamStep.page _ _ .recording _ _ _ _ 1 false first
    _ twoKeys rfl hfirst (@HandleStep.complete _ _ _ _ _ [] [] _ _ _ rfl rfl)
  rw [@RangeStream.settle_values _ _ first.rows true rfl rfl rfl] at hpaged
  have hagain := hpaged.snoc (.pull _ _ 2 rfl)
  have hlast := hagain.snoc <| @StreamStep.page _ _ .recording _ _ _ rest 2 false second _ twoKeys
    rfl hsecond (@HandleStep.complete _ _ _ _ _ [] [] _ _ _ rfl rfl)
  rw [@RangeStream.settle_values _ _ second.rows false rfl rfl rfl] at hlast
  exact range_streamed rfl hbegun hopened rfl (hlast.snoc (.finish _ _ rfl))

end FoundationDbEffect.Native
