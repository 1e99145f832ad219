import FoundationDbEffect.Directory.AllocatorUniqueness
import Mathlib.Data.Finset.Card

/-!
# Room in the allocator's windows

Windows form one chain, and the greatest one that is open only moves up along it.  Its counter
counts exactly the recent rows inside it: a transaction that counts itself there also takes one
candidate there, which no other transaction takes, and a transaction that leaves it opens the
next one.  Late commits change windows before it only.  A window in which the search settles
is therefore less than half taken.
-/

namespace FoundationDbEffect.Directory

open FoundationDbEffect.Foundation

/-! ## The chain of windows -/

def windowStart : Nat → Int
  | 0 => 0
  | index + 1 => windowStart index + windowSize (windowStart index)

def IsWindow (start : Int) : Prop := ∃ index, windowStart index = start

theorem windowSize_bounds (start : Int) : 64 ≤ windowSize start ∧ windowSize start ≤ 8192 := by
  unfold windowSize
  split_ifs <;> omega

theorem windowStart_end_le {index index' : Nat} (h : index < index') :
    windowStart index + windowSize (windowStart index) ≤ windowStart index' := by
  induction h with
  | refl => exact le_rfl
  | @step index' _ ih =>
      have hsize := windowSize_bounds (windowStart index')
      rw [windowStart]
      omega

theorem windowStart_lt {index index' : Nat} (h : index < index') :
    windowStart index < windowStart index' := by
  have hend := windowStart_end_le h
  have hsize := windowSize_bounds (windowStart index)
  omega

theorem IsWindow.zero : IsWindow 0 := ⟨0, rfl⟩

theorem IsWindow.next {start : Int} (h : IsWindow start) : IsWindow (start + windowSize start) := by
  obtain ⟨index, rfl⟩ := h
  exact ⟨index + 1, rfl⟩

theorem IsWindow.nonneg {start : Int} (h : IsWindow start) : 0 ≤ start := by
  obtain ⟨index, rfl⟩ := h
  cases index with
  | zero => exact le_rfl
  | succ index => exact (windowStart_lt (Nat.succ_pos index)).le

theorem IsWindow.le_of_lt {start later : Int} (h : IsWindow start) (hlater : IsWindow later)
    (hlt : start < later) : start + windowSize start ≤ later := by
  obtain ⟨index, rfl⟩ := h
  obtain ⟨index', rfl⟩ := hlater
  refine windowStart_end_le ?_
  by_contra hle
  rcases (not_lt.mp hle).eq_or_lt with rfl | hgt
  · exact lt_irrefl _ hlt
  · exact lt_asymm hlt (windowStart_lt hgt)

theorem IsWindow.end_mono {start later : Int} (h : IsWindow start) (hlater : IsWindow later)
    (hle : start ≤ later) : start + windowSize start ≤ later + windowSize later := by
  rcases hle.eq_or_lt with rfl | hlt
  · exact le_rfl
  · have hnext := h.le_of_lt hlater hlt
    have hsize := windowSize_bounds later
    omega

def window (start : Int) : Finset Int :=
  (Finset.range (windowSize start).toNat).image fun offset : Nat => start + offset

@[simp] theorem mem_window {start candidate : Int} :
    candidate ∈ window start ↔ start ≤ candidate ∧ candidate < start + windowSize start := by
  have hsize := windowSize_bounds start
  simp only [window, Finset.mem_image, Finset.mem_range]
  constructor
  · rintro ⟨offset, hoffset, rfl⟩
    omega
  · intro h
    exact ⟨(candidate - start).toNat, by omega, by omega⟩

theorem card_window (start : Int) : ((window start).card : Int) = windowSize start := by
  have hsize := windowSize_bounds start
  have hcard : (window start).card = (windowSize start).toNat := by
    rw [window, Finset.card_image_of_injective _ (fun offset offset' h => by simpa using h),
      Finset.card_range]
  omega

theorem windows_disjoint {index index' : Nat} (h : index ≠ index') :
    Disjoint (window (windowStart index)) (window (windowStart index')) := by
  rw [Finset.disjoint_left]
  intro candidate hleft hright
  simp only [mem_window] at hleft hright
  rcases lt_or_gt_of_ne h with hlt | hlt
  · have hle := IsWindow.le_of_lt ⟨index, rfl⟩ ⟨index', rfl⟩ (windowStart_lt hlt)
    omega
  · have hle := IsWindow.le_of_lt ⟨index', rfl⟩ ⟨index, rfl⟩ (windowStart_lt hlt)
    omega

/-! ## What mutations change -/

namespace AllocatorState

def greatest (state : AllocatorState) : Option Int :=
  (state.counters.last? fun _ => true).map Prod.fst

def top (state : AllocatorState) : Int := state.greatest.getD 0

def count (state : AllocatorState) (start : Int) : BitVec 64 :=
  (state.counters.get? start).getD 0

def taken (state : AllocatorState) (start : Int) : Finset Int :=
  state.recent ∩ window start

theorem le_top {state : AllocatorState} {start : Int}
    (h : (state.counters.get? start).isSome) : start ≤ state.top := by
  unfold top greatest
  cases hlast : state.counters.last? fun _ => true with
  | none =>
      rw [OrderedMap.last?_eq_none.mp hlast start rfl] at h
      simp at h
  | some entry => exact (OrderedMap.last?_eq_some hlast).2.2 start rfl h

theorem top_cases (state : AllocatorState) :
    (state.counters.get? state.top).isSome ∨
      state.top = 0 ∧ ∀ start, state.counters.get? start = none := by
  unfold top greatest
  cases hlast : state.counters.last? fun _ => true with
  | none => exact .inr ⟨rfl, fun start => OrderedMap.last?_eq_none.mp hlast start rfl⟩
  | some entry =>
      left
      have hget := (OrderedMap.last?_eq_some hlast).2.1
      simp [hget]

theorem mem_recent_replay {mutations : List AllocatorMutation} {state : AllocatorState}
    {candidate : Int} (h : candidate ∈ (replay mutations state).recent) :
    candidate ∈ state.recent ∨ .setRecent candidate ∈ mutations := by
  induction mutations generalizing state with
  | nil => exact .inl h
  | cons mutation mutations ih =>
      rcases ih h with hstate | hmem
      · cases mutation with
        | setRecent candidate' =>
            rcases Finset.mem_insert.mp hstate with rfl | hstate
            · exact .inr List.mem_cons_self
            · exact .inl hstate
        | clearRecent stop => exact .inl (Finset.mem_filter.mp hstate).1
        | addOne start => exact .inl hstate
        | clearCounters stop => exact .inl hstate
      · exact .inr (List.mem_cons_of_mem _ hmem)

theorem mem_recent_replay_iff {mutations : List AllocatorMutation} {state : AllocatorState}
    {candidate : Int} (hclears : ∀ stop, .clearRecent stop ∈ mutations → stop ≤ candidate) :
    candidate ∈ (replay mutations state).recent ↔
      candidate ∈ state.recent ∨ .setRecent candidate ∈ mutations := by
  refine ⟨mem_recent_replay, ?_⟩
  induction mutations generalizing state with
  | nil => simp
  | cons mutation mutations ih =>
      have hrest := fun stop hmem => hclears stop (List.mem_cons_of_mem mutation hmem)
      intro h
      apply ih hrest
      rcases h with hstate | hmem
      · left
        cases mutation with
        | setRecent candidate' => exact Finset.mem_insert_of_mem hstate
        | clearRecent stop =>
            have hle := hclears stop List.mem_cons_self
            simp [AllocatorState.apply, hstate, hle]
        | addOne start => exact hstate
        | clearCounters stop => exact hstate
      · rcases List.mem_cons.mp hmem with rfl | hmem
        · exact .inl (Finset.mem_insert_self _ _)
        · exact .inr hmem

theorem isSome_replay {mutations : List AllocatorMutation} {state : AllocatorState}
    {start : Int} (h : ((replay mutations state).counters.get? start).isSome) :
    (state.counters.get? start).isSome ∨ .addOne start ∈ mutations := by
  induction mutations generalizing state with
  | nil => exact .inl h
  | cons mutation mutations ih =>
      rcases ih h with hstate | hmem
      · cases mutation with
        | addOne start' =>
            simp only [AllocatorState.apply, OrderedMap.get?_set] at hstate
            split_ifs at hstate with heq
            · simp [heq]
            · exact .inl hstate
        | clearCounters stop =>
            simp only [AllocatorState.apply, OrderedMap.get?_clearRange] at hstate
            split_ifs at hstate
            · simp at hstate
            · exact .inl hstate
        | setRecent candidate => exact .inl hstate
        | clearRecent stop => exact .inl hstate
      · exact .inr (List.mem_cons_of_mem _ hmem)

theorem counter_apply {mutation : AllocatorMutation} {state : AllocatorState} {start : Int}
    (hclear : ∀ stop, mutation = .clearCounters stop → stop ≤ start) :
    (state.apply mutation).count start =
        state.count start + BitVec.ofNat 64 ([mutation].count (.addOne start)) ∧
      ((state.counters.get? start).isSome ∨ mutation = .addOne start →
        ((state.apply mutation).counters.get? start).isSome) := by
  cases mutation with
  | addOne start' =>
      simp only [count, AllocatorState.apply, OrderedMap.get?_set]
      by_cases heq : start = start'
      · simp [heq]
      · have hne : AllocatorMutation.addOne start' ≠ .addOne start := by
          rintro ⟨⟩
          exact heq rfl
        simp [heq, Ne.symm heq]
  | clearCounters stop =>
      have hle := hclear stop rfl
      simp only [count, AllocatorState.apply, OrderedMap.get?_clearRange]
      rw [if_neg (by simpa using hle)]
      simp
  | setRecent candidate => simp [count, AllocatorState.apply]
  | clearRecent stop => simp [count, AllocatorState.apply]

theorem counter_replay {mutations : List AllocatorMutation} {state : AllocatorState}
    {start : Int} (hclears : ∀ stop, .clearCounters stop ∈ mutations → stop ≤ start) :
    (replay mutations state).count start =
        state.count start + BitVec.ofNat 64 (mutations.count (.addOne start)) ∧
      ((state.counters.get? start).isSome ∨ .addOne start ∈ mutations →
        ((replay mutations state).counters.get? start).isSome) := by
  induction mutations generalizing state with
  | nil => simp [replay]
  | cons mutation mutations ih =>
      obtain ⟨hcount, hsome⟩ := @counter_apply mutation state start
        (by rintro stop rfl; exact hclears stop List.mem_cons_self)
      obtain ⟨hcount', hsome'⟩ := @ih (state.apply mutation)
        fun stop hmem => hclears stop (List.mem_cons_of_mem mutation hmem)
      have hsplit : ([mutation] ++ mutations).count (.addOne start) =
          [mutation].count (.addOne start) + mutations.count (.addOne start) := List.count_append
      rw [List.singleton_append] at hsplit
      constructor
      · rw [replay, List.foldl_cons, ← replay, hcount', hcount, hsplit, BitVec.ofNat_add,
          BitVec.add_assoc]
      · intro h
        refine hsome' ?_
        rcases h with hstate | hmem
        · exact .inl (hsome (.inl hstate))
        · rcases List.mem_cons.mp hmem with rfl | hmem
          · exact .inl (hsome (.inr rfl))
          · exact .inr hmem

/-- The greatest counter counts the recent rows of its window, and none lies above it. -/
structure Windowed (state : AllocatorState) : Prop where
  starts : ∀ start, (state.counters.get? start).isSome → IsWindow start
  below : ∀ candidate ∈ state.recent, candidate < state.top + windowSize state.top
  counted : (state.count state.top).toNat = (state.taken state.top).card

theorem windowed_empty : Windowed ⟨∅, ∅⟩ where
  starts := by simp
  below := by simp
  counted := by simp [count, taken]

theorem isWindow_top {state : AllocatorState}
    (h : ∀ start, (state.counters.get? start).isSome → IsWindow start) : IsWindow state.top := by
  rcases state.top_cases with hsome | ⟨hzero, -⟩
  · exact h _ hsome
  · rw [hzero]
    exact .zero

theorem Windowed.count_of_le {state : AllocatorState} (h : state.Windowed) {start : Int}
    (hstart : IsWindow start) (hle : state.top ≤ start) :
    (state.count start).toNat = (state.taken start).card := by
  rcases hle.eq_or_lt with rfl | hlt
  · exact h.counted
  · have hnone : state.counters.get? start = none := by
      rw [← Option.not_isSome_iff_eq_none]
      intro hsome
      exact absurd (le_top hsome) hlt.not_ge
    have hempty : state.taken start = ∅ := by
      rw [Finset.eq_empty_iff_forall_notMem]
      intro candidate hmem
      obtain ⟨hrecent, hwindow⟩ := Finset.mem_inter.mp hmem
      have hbelow := h.below candidate hrecent
      have hnext := (isWindow_top h.starts).le_of_lt hstart hlt
      simp only [mem_window] at hwindow
      omega
    simp [count, hnone, hempty]

theorem card_taken_le (state : AllocatorState) (start : Int) :
    ((state.taken start).card : Int) ≤ windowSize start := by
  have hsubset : state.taken start ⊆ window start := Finset.inter_subset_right
  have hle := Finset.card_le_card hsubset
  have hcard := card_window start
  omega

end AllocatorState

/-! ## Transactions in progress -/

/-- What a transaction has done up to its last window: it has counted itself there once for each
integer that it was given there, and `extra` times more. -/
structure Visits (transaction : AllocatorTransaction) (last : Int) (extra : Nat) : Prop where
  isWindow : IsWindow last
  above : transaction.snapshot.top ≤ last
  entered : last = transaction.snapshot.top ∨ .addOne last ∈ transaction.mutations
  enters : ∀ start, .addOne start ∈ transaction.mutations → IsWindow start ∧ start ≤ last
  clearsCounters : ∀ stop, .clearCounters stop ∈ transaction.mutations → stop ≤ last
  clearsRecent : ∀ stop, .clearRecent stop ∈ transaction.mutations → stop ≤ last
  marks : ∀ candidate, .setRecent candidate ∈ transaction.mutations →
    candidate < last + windowSize last ∧
      (candidate ∈ transaction.allocated ∨ candidate ∈ transaction.snapshot.recent)
  allocated : ∀ candidate ∈ transaction.allocated, .setRecent candidate ∈ transaction.mutations
  counted : transaction.mutations.count (.addOne last) =
    (transaction.allocated.filter (last ≤ ·)).length + extra

namespace Visits

variable {state : AllocatorState} {transaction : AllocatorTransaction} {last : Int} {extra : Nat}

theorem starts_replay (h : Visits transaction last extra)
    (hstarts : ∀ start, (state.counters.get? start).isSome → IsWindow start) (start : Int)
    (hsome : ((replay transaction.mutations state).counters.get? start).isSome) :
    IsWindow start := by
  rcases AllocatorState.isSome_replay hsome with hstate | hmem
  · exact hstarts start hstate
  · exact (h.enters start hmem).1

theorem top_replay (h : Visits transaction last extra)
    (hstarts : ∀ start, (state.counters.get? start).isSome → IsWindow start)
    (hle : transaction.snapshot.top ≤ state.top) :
    (replay transaction.mutations state).top = max state.top last := by
  have hkept {start : Int} (hstart : last ≤ start)
      (hsome : (state.counters.get? start).isSome ∨ .addOne start ∈ transaction.mutations) :
      start ≤ (replay transaction.mutations state).top :=
    AllocatorState.le_top ((AllocatorState.counter_replay
      fun stop hmem => (h.clearsCounters stop hmem).trans hstart).2 hsome)
  have hlast : last ≤ state.top ∨ last ≤ (replay transaction.mutations state).top := by
    rcases h.entered with heq | hmem
    · exact .inl (heq ▸ hle)
    · exact .inr (hkept le_rfl (.inr hmem))
  have htop : state.top ≤ (replay transaction.mutations state).top := by
    rcases le_or_gt last state.top with hbelow | habove
    · rcases state.top_cases with hsome | ⟨hzero, -⟩
      · exact hkept hbelow (.inl hsome)
      · rw [hzero]
        exact (AllocatorState.isWindow_top (h.starts_replay hstarts)).nonneg
    · exact habove.le.trans (hlast.resolve_left habove.not_ge)
  apply le_antisymm
  · rcases (replay transaction.mutations state).top_cases with hsome | ⟨hzero, -⟩
    · rcases AllocatorState.isSome_replay hsome with hstate | hmem
      · exact le_max_of_le_left (AllocatorState.le_top hstate)
      · exact le_max_of_le_right (h.enters _ hmem).2
    · rw [hzero]
      exact le_max_of_le_right h.isWindow.nonneg
  · exact max_le htop (hlast.elim (fun hle => hle.trans htop) id)

/-- The last window after a commit to a state in which it is the greatest one: the counter
counts the rows, and `extra` more. -/
theorem counted_replay (h : Visits transaction last extra) (hstate : state.Windowed)
    (htop : state.top ≤ last) (hextra : extra ≤ 1)
    (hrecent : ∀ candidate ∈ transaction.snapshot.recent, last ≤ candidate → candidate ∈ state.recent)
    (hfresh : ∀ candidate ∈ transaction.allocated, last ≤ candidate → candidate ∉ state.recent)
    (hnodup : transaction.allocated.Nodup) :
    ((replay transaction.mutations state).count last).toNat =
      ((replay transaction.mutations state).taken last).card + extra := by
  have htaken : (replay transaction.mutations state).taken last =
      state.taken last ∪ (transaction.allocated.filter (last ≤ ·)).toFinset := by
    ext candidate
    simp only [AllocatorState.taken, mem_window, Finset.mem_inter, Finset.mem_union,
      List.mem_toFinset, List.mem_filter, decide_eq_true_eq]
    constructor
    · rintro ⟨hmem, hle, hlt⟩
      rcases AllocatorState.mem_recent_replay hmem with hold | hmark
      · exact .inl ⟨hold, hle, hlt⟩
      · rcases (h.marks candidate hmark).2 with hallocated | hsnapshot
        · exact .inr ⟨hallocated, hle⟩
        · exact .inl ⟨hrecent candidate hsnapshot hle, hle, hlt⟩
    · have hreplay (hle : last ≤ candidate) :=
        @AllocatorState.mem_recent_replay_iff transaction.mutations state candidate
          fun stop hmem => (h.clearsRecent stop hmem).trans hle
      rintro (⟨hold, hle, hlt⟩ | ⟨hallocated, hle⟩)
      · exact ⟨(hreplay hle).mpr (.inl hold), hle, hlt⟩
      · have hmark := h.allocated candidate hallocated
        exact ⟨(hreplay hle).mpr (.inr hmark), hle, (h.marks candidate hmark).1⟩
  have hdisjoint : Disjoint (state.taken last)
      (transaction.allocated.filter (last ≤ ·)).toFinset := by
    rw [Finset.disjoint_left]
    intro candidate hold hnew
    simp only [List.mem_toFinset, List.mem_filter, decide_eq_true_eq] at hnew
    exact hfresh candidate hnew.1 hnew.2 (Finset.mem_inter.mp hold).1
  have hcard : ((replay transaction.mutations state).taken last).card =
      (state.taken last).card + (transaction.allocated.filter (last ≤ ·)).length := by
    rw [htaken, Finset.card_union_of_disjoint hdisjoint,
      List.toFinset_card_of_nodup (hnodup.filter _)]
  have hbound := AllocatorState.card_taken_le (replay transaction.mutations state) last
  have hsize := windowSize_bounds last
  rw [(AllocatorState.counter_replay h.clearsCounters).1, BitVec.toNat_add, BitVec.toNat_ofNat,
    hstate.count_of_le h.isWindow htop, h.counted]
  omega

theorem windowed_replay (h : Visits transaction last 0) (hstate : state.Windowed)
    (hle : transaction.snapshot.top ≤ state.top)
    (hrecent : state.top ≤ last → ∀ candidate ∈ transaction.snapshot.recent, last ≤ candidate →
      candidate ∈ state.recent)
    (hfresh : ∀ candidate ∈ transaction.allocated, candidate ∉ state.recent)
    (hnodup : transaction.allocated.Nodup) :
    (replay transaction.mutations state).Windowed := by
  have htop := h.top_replay hstate.starts hle
  have hstateTop := AllocatorState.isWindow_top hstate.starts
  constructor
  case starts => exact h.starts_replay hstate.starts
  case below =>
    intro candidate hmem
    have hlast := h.isWindow.end_mono (AllocatorState.isWindow_top (h.starts_replay hstate.starts))
    have hold := hstateTop.end_mono (AllocatorState.isWindow_top (h.starts_replay hstate.starts))
    rw [htop] at hlast hold ⊢
    rcases AllocatorState.mem_recent_replay hmem with hbefore | hmark
    · exact (hstate.below candidate hbefore).trans_le (hold (le_max_left _ _))
    · exact (h.marks candidate hmark).1.trans_le (hlast (le_max_right _ _))
  case counted =>
    rw [htop]
    rcases le_or_gt state.top last with hbelow | habove
    · rw [max_eq_right hbelow]
      exact h.counted_replay hstate hbelow (Nat.zero_le _) (hrecent hbelow)
        (fun candidate hmem _ => hfresh candidate hmem) hnodup
    · -- The windows that the transaction visits end before the greatest one.
      have hnext := h.isWindow.le_of_lt hstateTop habove
      have hcount : transaction.mutations.count (.addOne state.top) = 0 := by
        rw [List.count_eq_zero]
        exact fun hmem => absurd (h.enters _ hmem).2 habove.not_ge
      have htaken : (replay transaction.mutations state).taken state.top =
          state.taken state.top := by
        ext candidate
        simp only [AllocatorState.taken, mem_window, Finset.mem_inter]
        refine and_congr_left fun hwindow => ?_
        rw [AllocatorState.mem_recent_replay_iff
          fun stop hmem => (h.clearsRecent stop hmem).trans (habove.le.trans hwindow.1)]
        refine or_iff_left fun hmark => ?_
        have hlt := (h.marks candidate hmark).1
        omega
      rw [max_eq_left habove.le, htaken, (AllocatorState.counter_replay
        fun stop hmem => (h.clearsCounters stop hmem).trans habove.le).1, hcount,
        ← hstate.counted]
      simp

theorem start {transaction : AllocatorTransaction} (h : transaction.snapshot.Windowed)
    (hmutations : transaction.mutations = []) (hallocated : transaction.allocated = []) :
    Visits transaction transaction.snapshot.top 0 := by
  constructor
  case isWindow => exact AllocatorState.isWindow_top h.starts
  case above => exact le_rfl
  case entered => exact .inl rfl
  all_goals simp [hmutations, hallocated]

theorem enter (h : Visits transaction last extra) :
    Visits (enterWindow transaction last false) last (extra + 1) := by
  have hmutations : (enterWindow transaction last false).mutations =
      transaction.mutations ++ [.addOne last] := rfl
  constructor
  case isWindow => exact h.isWindow
  case above => exact h.above
  all_goals rw [hmutations]
  case entered => simp
  case enters =>
    intro start hmem
    rcases List.mem_append.mp hmem with hmem | hmem
    · exact h.enters start hmem
    · obtain rfl : start = last := by simpa using hmem
      exact ⟨h.isWindow, le_rfl⟩
  case clearsCounters => simpa using h.clearsCounters
  case clearsRecent => simpa using h.clearsRecent
  case marks =>
    intro candidate hmem
    exact h.marks candidate (by simpa using hmem)
  case allocated =>
    intro candidate hmem
    exact List.mem_append_left _ (h.allocated candidate hmem)
  case counted =>
    have hcount : List.count (AllocatorMutation.addOne last) [.addOne last] = 1 := by simp
    rw [List.count_append, hcount, h.counted]
    rfl

theorem advance (h : Visits transaction last extra) :
    Visits (enterWindow transaction (last + windowSize last) true) (last + windowSize last) 1 := by
  have hsize := windowSize_bounds last
  have hmutations : (enterWindow transaction (last + windowSize last) true).mutations =
      transaction.mutations ++ [.clearCounters (last + windowSize last),
        .clearRecent (last + windowSize last), .addOne (last + windowSize last)] := by
    simp [enterWindow, AllocatorTransaction.addWriteConflict, AllocatorTransaction.mutate]
  have hallocated : (transaction.allocated.filter (last + windowSize last ≤ ·)) = [] := by
    rw [List.filter_eq_nil_iff]
    intro candidate hmem
    have hlt := (h.marks candidate (h.allocated candidate hmem)).1
    simpa using hlt
  have hcount : transaction.mutations.count (.addOne (last + windowSize last)) = 0 := by
    rw [List.count_eq_zero]
    intro hmem
    have hle := (h.enters _ hmem).2
    omega
  constructor
  case isWindow => exact h.isWindow.next
  case above =>
    have habove := h.above
    change transaction.snapshot.top ≤ _
    omega
  all_goals rw [hmutations]
  case entered => simp
  case enters =>
    intro start hmem
    rcases List.mem_append.mp hmem with hmem | hmem
    · obtain ⟨hwindow, hle⟩ := h.enters start hmem
      exact ⟨hwindow, by omega⟩
    · obtain rfl : start = last + windowSize last := by simpa using hmem
      exact ⟨h.isWindow.next, le_rfl⟩
  case clearsCounters =>
    intro stop hmem
    rcases List.mem_append.mp hmem with hmem | hmem
    · have hle := h.clearsCounters stop hmem
      omega
    · obtain rfl : stop = last + windowSize last := by simpa using hmem
      exact le_rfl
  case clearsRecent =>
    intro stop hmem
    rcases List.mem_append.mp hmem with hmem | hmem
    · have hle := h.clearsRecent stop hmem
      omega
    · obtain rfl : stop = last + windowSize last := by simpa using hmem
      exact le_rfl
  case marks =>
    intro candidate hmem
    obtain ⟨hlt, hmark⟩ := h.marks candidate (by simpa using hmem)
    have hnext := windowSize_bounds (last + windowSize last)
    exact ⟨by omega, hmark⟩
  case allocated =>
    intro candidate hmem
    exact List.mem_append_left _ (h.allocated candidate hmem)
  case counted =>
    have hone : List.count (AllocatorMutation.addOne (last + windowSize last))
        [.clearCounters (last + windowSize last), .clearRecent (last + windowSize last),
          .addOne (last + windowSize last)] = 1 := by simp
    have hnone : (enterWindow transaction (last + windowSize last) true).allocated =
        transaction.allocated := rfl
    rw [List.count_append, hcount, hone, hnone, hallocated]
    rfl

theorem marked (h : Visits transaction last extra) {candidate : Int}
    (hlt : candidate < last + windowSize last) {next : AllocatorTransaction}
    (hsnapshot : next.snapshot = transaction.snapshot)
    (hmutations : next.mutations = transaction.mutations ++ [.setRecent candidate])
    (hmark : candidate ∈ next.allocated ∨ candidate ∈ transaction.snapshot.recent)
    (hkept : ∀ candidate' ∈ transaction.allocated, candidate' ∈ next.allocated)
    (hnew : ∀ candidate' ∈ next.allocated, candidate' ∈ transaction.allocated ∨
      candidate' = candidate) {extra' : Nat}
    (hcounted : (transaction.allocated.filter (last ≤ ·)).length + extra =
      (next.allocated.filter (last ≤ ·)).length + extra') : Visits next last extra' := by
  constructor
  case isWindow => exact h.isWindow
  case above => simpa [hsnapshot] using h.above
  case entered => simpa [hsnapshot, hmutations] using h.entered
  case enters => simpa [hmutations] using h.enters
  case clearsCounters => simpa [hmutations] using h.clearsCounters
  case clearsRecent => simpa [hmutations] using h.clearsRecent
  case marks =>
    intro candidate' hmem
    rw [hsnapshot]
    rw [hmutations] at hmem
    rcases List.mem_append.mp hmem with hmem | hmem
    · obtain ⟨hlt', hmark'⟩ := h.marks candidate' hmem
      exact ⟨hlt', hmark'.imp_left (hkept candidate')⟩
    · obtain rfl : candidate' = candidate := by simpa using hmem
      exact ⟨hlt, hmark⟩
  case allocated =>
    intro candidate' hmem
    rw [hmutations]
    rcases hnew candidate' hmem with hold | rfl
    · exact List.mem_append_left _ (h.allocated candidate' hold)
    · simp
  case counted =>
    have hcount : List.count (AllocatorMutation.addOne last) [.setRecent candidate] = 0 := by simp
    rw [hmutations, List.count_append, hcount, h.counted]
    exact hcounted

theorem taken (h : Visits transaction last extra) {candidate : Int}
    (htaken : candidate ∈ transaction.view.recent) (hlt : candidate < last + windowSize last)
    {next : AllocatorTransaction} (hsnapshot : next.snapshot = transaction.snapshot)
    (hmutations : next.mutations = transaction.mutations ++ [.setRecent candidate])
    (hallocated : next.allocated = transaction.allocated) : Visits next last extra := by
  refine h.marked hlt hsnapshot hmutations ?_ ?_ ?_ ?_
  · rw [hallocated]
    rcases AllocatorState.mem_recent_replay htaken with hsnapshot | hmark
    · exact .inr hsnapshot
    · exact (h.marks candidate hmark).2
  · simp [hallocated]
  · intro candidate' hmem
    exact .inl (hallocated ▸ hmem)
  · rw [hallocated]

theorem allocate (h : Visits transaction last (extra + 1)) {candidate : Int}
    (hle : last ≤ candidate) (hlt : candidate < last + windowSize last)
    {next : AllocatorTransaction} (hsnapshot : next.snapshot = transaction.snapshot)
    (hmutations : next.mutations = transaction.mutations ++ [.setRecent candidate])
    (hallocated : next.allocated = candidate :: transaction.allocated) :
    Visits next last extra := by
  refine h.marked hlt hsnapshot hmutations ?_ ?_ ?_ ?_
  · simp [hallocated]
  · intro candidate' hmem
    simp [hallocated, hmem]
  · intro candidate' hmem
    rw [hallocated] at hmem
    exact (List.mem_cons.mp hmem).symm
  · simp [hallocated, hle]
    omega

theorem top_view (h : Visits transaction last extra) (hsnapshot : transaction.snapshot.Windowed) :
    transaction.latestStart.getD 0 = last :=
  (h.top_replay hsnapshot.starts le_rfl).trans (max_eq_right h.above)

theorem counted_view (h : Visits transaction last extra)
    (hsnapshot : transaction.snapshot.Windowed) (hextra : extra ≤ 1) (hsound : transaction.Sound) :
    (transaction.view.count last).toNat = (transaction.view.taken last).card + extra :=
  h.counted_replay hsnapshot h.above hextra (fun _ hmem _ => hmem)
    (fun candidate hmem _ hrecent => (hsound.allocated candidate hmem).fresh (.inl hrecent))
    hsound.nodup

end Visits

/-! ## The search for a window -/

section

variable {transaction next : AllocatorTransaction} {last start window' : Int} {extra fuel : Nat}
  {advanced : Bool}

theorem Visits.enterWindow (h : Visits transaction last extra)
    (hstart : advanced = false ∧ start = last ∧ extra = 0 ∨
      advanced = true ∧ start = last + windowSize last) :
    Visits (enterWindow transaction start advanced) start 1 := by
  rcases hstart with ⟨rfl, rfl, rfl⟩ | ⟨rfl, rfl⟩
  · exact h.enter
  · exact h.advance

theorem toInt_count (transaction : AllocatorTransaction) (start : Int) :
    ((transaction.view.counters.get? start).map BitVec.toInt).getD 0 =
      (transaction.view.count start).toInt := by
  unfold AllocatorState.count
  cases transaction.view.counters.get? start with
  | none => simp
  | some count => simp

theorem windowLoop_visits {settled : Int} (h : Visits transaction last extra)
    (hstart : advanced = false ∧ start = last ∧ extra = 0 ∨
      advanced = true ∧ start = last + windowSize last)
    (hloop : windowLoop fuel transaction start advanced = some (next, settled, window')) :
    Visits next settled 1 ∧ window' = windowSize settled ∧
      (next.view.count settled).toInt * 2 < windowSize settled := by
  induction fuel generalizing transaction start last extra advanced with
  | zero => simp [windowLoop] at hloop
  | succ fuel ih =>
      have henter := h.enterWindow hstart
      simp only [windowLoop, toInt_count] at hloop
      split at hloop
      · next hroom =>
          simp only [Option.some.injEq, Prod.mk.injEq] at hloop
          obtain ⟨rfl, rfl, rfl⟩ := hloop
          exact ⟨henter, rfl, hroom⟩
      · exact ih henter (.inr ⟨rfl, rfl⟩) hloop

theorem toInt_eq_toNat {value : BitVec 64} (h : value.toNat ≤ 8193) :
    value.toInt = value.toNat := by
  apply BitVec.toInt_eq_toNat_of_lt
  omega

theorem toInt_count_view (h : Visits transaction last 1)
    (hsnapshot : transaction.snapshot.Windowed) (hsound : transaction.Sound) :
    (transaction.view.count last).toInt = (transaction.view.taken last).card + 1 := by
  have hcounted := h.counted_view hsnapshot le_rfl hsound
  have hcard := AllocatorState.card_taken_le transaction.view last
  have hsize := windowSize_bounds last
  rw [toInt_eq_toNat (by omega), hcounted]
  rfl

/-- The window in which the search settles has room. -/
theorem windowLoop_room {settled : Int} (h : Visits transaction last 0)
    (hsnapshot : transaction.snapshot.Windowed) (hsound : transaction.Sound)
    (hloop : windowLoop fuel transaction last false = some (next, settled, window')) :
    Visits next settled 1 ∧ window' = windowSize settled ∧
      ((next.view.taken settled).card : Int) * 2 < windowSize settled := by
  obtain ⟨hnext, hwindow, hcount⟩ := windowLoop_visits h (.inl ⟨rfl, rfl, rfl⟩) hloop
  have hcontinues := windowLoop_continues hloop
  rw [toInt_count_view hnext (hcontinues.snapshot ▸ hsnapshot) (hcontinues.sound hsound)] at hcount
  exact ⟨hnext, hwindow, by omega⟩

theorem isSome_windowLoop (h : Visits transaction last 0)
    (hsnapshot : transaction.snapshot.Windowed) (hsound : transaction.Sound) :
    (windowLoop 2 transaction last false).isSome := by
  have hcontinues := (enterWindow_continues transaction last false).trans
    (enterWindow_continues _ (last + windowSize last) true)
  have hsecond := h.enter.advance
  have hempty : (enterWindow (enterWindow transaction last false) (last + windowSize last)
      true).view.taken (last + windowSize last) = ∅ := by
    rw [Finset.eq_empty_iff_forall_notMem]
    intro candidate hmem
    obtain ⟨hrecent, hwindow⟩ := Finset.mem_inter.mp hmem
    have hbelow : candidate < last + windowSize last := by
      rcases AllocatorState.mem_recent_replay hrecent with hold | hmark
      · have hlt := hsnapshot.below candidate hold
        have hend := (AllocatorState.isWindow_top hsnapshot.starts).end_mono h.isWindow h.above
        exact hlt.trans_le hend
      · refine (h.marks candidate ?_).1
        simpa [Directory.enterWindow, AllocatorTransaction.addWriteConflict,
          AllocatorTransaction.mutate] using hmark
    simp only [mem_window] at hwindow
    omega
  have hcount := toInt_count_view hsecond (hcontinues.snapshot ▸ hsnapshot)
    (hcontinues.sound hsound)
  have hsize := windowSize_bounds (last + windowSize last)
  simp only [windowLoop, toInt_count]
  split
  · rfl
  · rw [if_pos]
    · rfl
    · rw [hcount, hempty]
      simp
      omega

/-! ## The search for a candidate -/

/-- No candidate is stale: the window is the greatest one in view. -/
theorem tryCandidate_eq (h : Visits transaction last extra)
    (hsnapshot : transaction.snapshot.Windowed) (candidate : Int) :
    let marked := (transaction.getRecent candidate).2.mutate (.setRecent candidate)
    tryCandidate transaction last candidate =
      if candidate ∈ transaction.view.recent then (marked, .taken)
      else (marked.addWriteConflict (.recent candidate), .allocated candidate) := by
  dsimp only
  unfold tryCandidate
  simp only [h.top_view hsnapshot, gt_iff_lt, lt_irrefl, if_false]
  by_cases htaken : candidate ∈ transaction.view.recent
  · rw [if_pos htaken, if_pos (by simpa [AllocatorTransaction.getRecent] using htaken)]
  · rw [if_neg htaken, if_neg (by simpa [AllocatorTransaction.getRecent] using htaken)]

theorem getRecent_fields (transaction : AllocatorTransaction) (candidate : Int) :
    (transaction.getRecent candidate).2.snapshot = transaction.snapshot ∧
      (transaction.getRecent candidate).2.mutations = transaction.mutations ∧
      (transaction.getRecent candidate).2.allocated = transaction.allocated := by
  unfold AllocatorTransaction.getRecent
  split <;> exact ⟨rfl, rfl, rfl⟩

theorem mem_window_randomCandidate (start : Int) (random : UInt32) :
    randomCandidate start (windowSize start) random ∈ window start := by
  have hsize := windowSize_bounds start
  have hlt := Nat.mod_lt random.toNat (show 0 < (windowSize start).toNat by omega)
  simp only [mem_window, randomCandidate]
  omega

theorem Visits.again (h : Visits transaction last extra) {candidate : Int}
    (hmem : candidate ∈ window last) (htaken : candidate ∈ transaction.view.recent) :
    let marked := (transaction.getRecent candidate).2.mutate (.setRecent candidate)
    Visits marked last extra ∧ marked.snapshot = transaction.snapshot ∧
      marked.view.recent = transaction.view.recent := by
  obtain ⟨hsnapshot, hmutations, hallocated⟩ := getRecent_fields transaction candidate
  have hmarked : ((transaction.getRecent candidate).2.mutate (.setRecent candidate)).mutations =
      transaction.mutations ++ [.setRecent candidate] := by
    rw [AllocatorTransaction.mutate, hmutations]
  have hlt := (mem_window.mp hmem).2
  refine ⟨h.taken htaken hlt hsnapshot hmarked hallocated, hsnapshot, ?_⟩
  have hview : ((transaction.getRecent candidate).2.mutate (.setRecent candidate)).view =
      transaction.view.apply (.setRecent candidate) := by
    have hsame : ((transaction.getRecent candidate).2.mutate (.setRecent candidate)).snapshot =
        transaction.snapshot := hsnapshot
    rw [view_eq, hmarked, hsame, replay, List.foldl_append]
    rfl
  rw [hview]
  exact Finset.insert_eq_of_mem htaken

theorem candidateLoop_visits {randoms rest : List UInt32} {result : Option Int}
    (h : Visits transaction last 1) (hsnapshot : transaction.snapshot.Windowed)
    (hloop : candidateLoop randoms transaction last (windowSize last) = some (next, rest, result)) :
    ∃ candidate, result = some candidate ∧
      Visits { next with allocated := candidate :: next.allocated } last 0 := by
  induction randoms generalizing transaction with
  | nil => simp [candidateLoop] at hloop
  | cons random randoms ih =>
      have hmem := mem_window_randomCandidate last random
      generalize hcandidate : randomCandidate last (windowSize last) random = candidate at hmem
      rw [candidateLoop, hcandidate, tryCandidate_eq h hsnapshot] at hloop
      by_cases htaken : candidate ∈ transaction.view.recent
      · obtain ⟨hmarked, hsame, -⟩ := h.again hmem htaken
        simp only [if_pos htaken] at hloop
        exact ih hmarked (hsame ▸ hsnapshot) hloop
      · simp only [if_neg htaken, Option.some.injEq, Prod.mk.injEq] at hloop
        obtain ⟨rfl, -, rfl⟩ := hloop
        obtain ⟨hsame, hmutations, hallocated⟩ := getRecent_fields transaction candidate
        refine ⟨candidate, rfl, h.allocate (mem_window.mp hmem).1 (mem_window.mp hmem).2
          hsame ?_ ?_⟩
        · simp [AllocatorTransaction.addWriteConflict, AllocatorTransaction.mutate, hmutations]
        · simp [AllocatorTransaction.addWriteConflict, AllocatorTransaction.mutate, hallocated]

theorem exists_randomCandidate {start candidate : Int} (h : candidate ∈ window start) :
    ∃ random, randomCandidate start (windowSize start) random = candidate := by
  have hsize := windowSize_bounds start
  simp only [mem_window] at h
  refine ⟨UInt32.ofNat (candidate - start).toNat, ?_⟩
  unfold randomCandidate
  rw [UInt32.toNat_ofNat_of_lt' (by simp only [UInt32.size]; omega), Nat.mod_eq_of_lt (by omega)]
  omega

/-- Whatever has been drawn, some draw ends the search in a window with room. -/
theorem isSome_candidateLoop (h : Visits transaction last extra)
    (hsnapshot : transaction.snapshot.Windowed)
    (hroom : ((transaction.view.taken last).card : Int) * 2 < windowSize last)
    (randoms : List UInt32) :
    ∃ random, (candidateLoop (randoms ++ [random]) transaction last (windowSize last)).isSome := by
  induction randoms generalizing transaction with
  | nil =>
      have hcard := card_window last
      obtain ⟨candidate, hmem, hfree⟩ : ∃ candidate ∈ window last,
          candidate ∉ transaction.view.taken last := by
        refine Finset.exists_mem_notMem_of_card_lt_card ?_
        omega
      obtain ⟨random, hrandom⟩ := exists_randomCandidate hmem
      refine ⟨random, ?_⟩
      have hfree' : candidate ∉ transaction.view.recent :=
        fun hrecent => hfree (Finset.mem_inter.mpr ⟨hrecent, hmem⟩)
      rw [List.nil_append, candidateLoop, hrandom, tryCandidate_eq h hsnapshot]
      simp only [if_neg hfree']
      rfl
  | cons random randoms ih =>
      have hmem := mem_window_randomCandidate last random
      generalize hcandidate : randomCandidate last (windowSize last) random = candidate at hmem
      by_cases htaken : candidate ∈ transaction.view.recent
      · obtain ⟨hmarked, hsame, hview⟩ := h.again hmem htaken
        obtain ⟨last', hlast⟩ := ih hmarked (hsame ▸ hsnapshot)
          (by rwa [AllocatorState.taken, hview])
        refine ⟨last', ?_⟩
        rw [List.cons_append, candidateLoop, hcandidate, tryCandidate_eq h hsnapshot]
        simpa only [if_pos htaken] using hlast
      · refine ⟨0, ?_⟩
        rw [List.cons_append, candidateLoop, hcandidate, tryCandidate_eq h hsnapshot]
        simp only [if_neg htaken]
        rfl

/-! ## Whole calls -/

theorem allocatePrefix_visits {randoms : List UInt32} (h : Visits transaction last 0)
    (hsnapshot : transaction.snapshot.Windowed) (hsound : transaction.Sound)
    (hcall : allocatePrefix fuel randoms transaction = some next) :
    ∃ last', Visits next last' 0 := by
  obtain ⟨⟨found, candidate⟩, hlocked, rfl⟩ := Option.map_eq_some_iff.mp hcall
  cases fuel with
  | zero => simp [allocatePrefixLocked] at hlocked
  | succ fuel =>
      rw [allocatePrefixLocked, h.top_view hsnapshot] at hlocked
      cases hloop : windowLoop (fuel + 1) transaction last false with
      | none => simp [hloop] at hlocked
      | some result =>
          obtain ⟨settled, start, size⟩ := result
          obtain ⟨hsettled, rfl, -⟩ := windowLoop_room h hsnapshot hsound hloop
          have hsame := (windowLoop_continues hloop).snapshot
          cases hcandidates : candidateLoop randoms settled start (windowSize start) with
          | none => simp [hloop, hcandidates] at hlocked
          | some found' =>
              obtain ⟨tried, rest, result⟩ := found'
              obtain ⟨candidate', rfl, hvisits⟩ :=
                candidateLoop_visits hsettled (hsame ▸ hsnapshot) hcandidates
              simp only [hloop, hcandidates, Option.some.injEq, Prod.mk.injEq] at hlocked
              obtain ⟨rfl, rfl⟩ := hlocked
              exact ⟨start, hvisits⟩

theorem isSome_allocatePrefix (h : Visits transaction last 0)
    (hsnapshot : transaction.snapshot.Windowed) (hsound : transaction.Sound)
    (randoms : List UInt32) :
    ∃ random, (allocatePrefix 2 (randoms ++ [random]) transaction).isSome := by
  obtain ⟨⟨settled, start, size⟩, hloop⟩ :=
    Option.isSome_iff_exists.mp (isSome_windowLoop h hsnapshot hsound)
  obtain ⟨hsettled, rfl, hroom⟩ := windowLoop_room h hsnapshot hsound hloop
  have hsame := (windowLoop_continues hloop).snapshot
  obtain ⟨random, hrandom⟩ :=
    isSome_candidateLoop hsettled (hsame ▸ hsnapshot) hroom randoms
  obtain ⟨⟨tried, rest, result⟩, hcandidates⟩ := Option.isSome_iff_exists.mp hrandom
  obtain ⟨candidate, rfl, -⟩ := candidateLoop_visits hsettled (hsame ▸ hsnapshot) hcandidates
  refine ⟨random, ?_⟩
  rw [allocatePrefix, Option.isSome_map, allocatePrefixLocked, h.top_view hsnapshot]
  simp [hloop, hcandidates]

end

theorem Allocates.visits {snapshot : AllocatorState} (hsnapshot : snapshot.Windowed)
    {transaction : AllocatorTransaction} (h : Allocates snapshot transaction) :
    ∃ last, Visits transaction last 0 := by
  induction h with
  | start => exact ⟨_, .start hsnapshot rfl rfl⟩
  | call fuel randoms hbefore hcall ih =>
      obtain ⟨last, hvisits⟩ := ih
      obtain ⟨hsound, hsame⟩ := hbefore.sound
      exact allocatePrefix_visits hvisits (hsame ▸ hsnapshot) hsound hcall

/-! ## Histories -/

theorem AllocatorBlock.opened {block : List AllocatorMutation} (hblock : AllocatorBlock block)
    {state : AllocatorState} {start : Int} (hopen : (state.counters.get? start).isSome) :
    ∃ later, start ≤ later ∧ ((replay block state).counters.get? later).isSome := by
  cases hblock with
  | enter start' =>
      refine ⟨start, le_rfl, ?_⟩
      simp only [replay, List.foldl_cons, List.foldl_nil, AllocatorState.apply,
        OrderedMap.get?_set]
      split_ifs
      · rfl
      · exact hopen
  | mark candidate => exact ⟨start, le_rfl, hopen⟩
  | advance start' =>
      rcases le_or_gt start start' with hle | hgt
      · exact ⟨start', hle, by simp [AllocatorState.apply]⟩
      · refine ⟨start, le_rfl, ?_⟩
        simp only [replay, List.foldl_cons, List.foldl_nil, AllocatorState.apply,
          OrderedMap.get?_set, OrderedMap.get?_clearRange]
        rw [if_neg hgt.ne', if_neg (by simpa using hgt.le)]
        exact hopen

theorem AllocatorBlocks.opened {mutations : List AllocatorMutation}
    (h : AllocatorBlocks mutations) {state : AllocatorState} {start : Int}
    (hopen : (state.counters.get? start).isSome) :
    ∃ later, start ≤ later ∧ ((replay mutations state).counters.get? later).isSome := by
  induction h with
  | nil => exact ⟨start, le_rfl, hopen⟩
  | append _ hblock ih =>
      obtain ⟨middle, hle, hmiddle⟩ := ih
      obtain ⟨later, hle', hlater⟩ := hblock.opened hmiddle
      rw [replay, List.foldl_append]
      exact ⟨later, hle.trans hle', hlater⟩

namespace AllocatorState

theorem isSome_greatest {state : AllocatorState} {start : Int} (h : state.greatest = some start) :
    (state.counters.get? start).isSome := by
  rcases state.top_cases with hsome | ⟨-, hnone⟩
  · rwa [top, h] at hsome
  · unfold greatest at h
    rw [OrderedMap.last?_eq_none.mpr fun key _ => hnone key] at h
    exact nomatch h

theorem exists_greatest {state : AllocatorState} {start : Int}
    (h : (state.counters.get? start).isSome) :
    ∃ later, state.greatest = some later ∧ start ≤ later := by
  have hle := le_top h
  unfold top at hle
  cases hgreatest : state.greatest with
  | none =>
      unfold greatest at hgreatest
      rw [Option.map_eq_none_iff] at hgreatest
      rw [OrderedMap.last?_eq_none.mp hgreatest start rfl] at h
      exact nomatch h
  | some later =>
      rw [hgreatest] at hle
      exact ⟨later, rfl, hle⟩

end AllocatorState

abbrev stateAfter (history : List Allocation) : AllocatorState :=
  Occ.stateAt (fun _ => AllocatorState.apply) ⟨∅, ∅⟩ history

theorem stateAfter_cons (allocation : Allocation) (history : List Allocation) :
    stateAfter (allocation :: history) = replay allocation.mutations (stateAfter history) := rfl

theorem greatest_mono {snapshot : AllocatorState} {allocation : Allocation}
    (hbody : allocationBody snapshot allocation) {state : AllocatorState} {start : Int}
    (h : state.greatest = some start) :
    ∃ later, (replay allocation.mutations state).greatest = some later ∧ start ≤ later := by
  obtain ⟨transaction, hallocates, heq⟩ := hbody
  have hblocks : AllocatorBlocks allocation.mutations := by
    rw [heq]
    exact hallocates.sound.1.blocks
  obtain ⟨later, hle, hlater⟩ := hblocks.opened (AllocatorState.isSome_greatest h)
  obtain ⟨greatest, hgreatest, hle'⟩ := AllocatorState.exists_greatest hlater
  exact ⟨greatest, hgreatest, hle.trans hle'⟩

theorem top_le_of_before {history : List Allocation} (h : AllocatorHistory ⟨∅, ∅⟩ history)
    (hwindowed : (stateAfter history).Windowed) (version : Nat) :
    (stateAfter (Occ.before history version)).top ≤ (stateAfter history).top := by
  unfold AllocatorState.top
  cases hgreatest : (stateAfter (Occ.before history version)).greatest with
  | none => exact (AllocatorState.isWindow_top hwindowed.starts).nonneg
  | some start =>
      have hlater := @Occ.stateAt_preserved _ _ _ _ (fun _ => AllocatorState.apply) ⟨∅, ∅⟩
        (fun state => ∃ later, state.greatest = some later ∧ start ≤ later)
        (Occ.since history version) (Occ.before history version) ?_ ⟨start, hgreatest, le_rfl⟩
      · rw [Occ.since_append_before] at hlater
        obtain ⟨later, hlater, hle⟩ := hlater
        rw [stateAfter, hlater]
        exact hle
      · rintro transaction hmem _ state ⟨later, hlater, hle⟩
        obtain ⟨_, hbody⟩ := h.exists_body (List.mem_of_mem_take hmem)
        obtain ⟨greatest, hgreatest', hle'⟩ := greatest_mono hbody hlater
        exact ⟨greatest, hgreatest', hle.trans hle'⟩

theorem recent_of_before {history : List Allocation} (h : AllocatorHistory ⟨∅, ∅⟩ history)
    (version : Nat) {candidate : Int} (htop : (stateAfter history).top ≤ candidate)
    (hrecent : candidate ∈ (stateAfter (Occ.before history version)).recent) :
    candidate ∈ (stateAfter history).recent := by
  have hspent := @Occ.stateAt_preserved _ _ _ _ (fun _ => AllocatorState.apply) ⟨∅, ∅⟩
    (fun state => state.Spent candidate)
    (Occ.since history version) (Occ.before history version) ?_ (.inl hrecent)
  · rw [Occ.since_append_before] at hspent
    rcases hspent with hrecent | ⟨start, hlt, hsome⟩
    · exact hrecent
    · have hle : start ≤ (stateAfter history).top := AllocatorState.le_top hsome
      omega
  · intro transaction hmem _ state hspent
    obtain ⟨_, hbody⟩ := h.exists_body (List.mem_of_mem_take hmem)
    exact (allocationBody_facts hbody).keeps candidate state hspent

/-- The run lemma: every recent row belongs to an allocated integer, and the greatest counter
counts those of its window. -/
theorem windowed_stateAfter {history : List Allocation}
    (h : AllocatorHistory ⟨∅, ∅⟩ history) :
    (stateAfter history).Windowed ∧
      ∀ candidate ∈ (stateAfter history).recent, candidate ∈ allocations history := by
  refine Occ.Committed.snapshot_induction (P := fun history => (stateAfter history).Windowed ∧
    ∀ candidate ∈ (stateAfter history).recent, candidate ∈ allocations history) ?nil ?commit h
  case nil => exact ⟨AllocatorState.windowed_empty, by simp [stateAfter, Occ.stateAt]⟩
  case commit =>
      intro history allocation hhistory ih _ ihsnapshot hbody hconflict
      obtain ⟨hwindowed, hallocated⟩ := ih
      obtain ⟨hsnapshot, hallocated'⟩ := ihsnapshot
      have hfresh (candidate : Int) (hnew : candidate ∈ allocation.result) :
          candidate ∉ allocations history := not_mem_allocations hhistory hbody hconflict hnew
      obtain ⟨transaction, hallocates, heq⟩ := hbody
      obtain ⟨hsound, hsame⟩ := hallocates.sound
      obtain ⟨last, hvisits⟩ := hallocates.visits hsnapshot
      have hmutations : allocation.mutations = transaction.mutations := by rw [heq]; rfl
      have hresult : allocation.result = transaction.allocated := by rw [heq]; rfl
      rw [stateAfter_cons, hmutations]
      constructor
      · refine hvisits.windowed_replay hwindowed ?_ ?_ ?_ hsound.nodup
        · rw [hsame]
          exact top_le_of_before hhistory hwindowed _
        · intro htop candidate hmem hle
          rw [hsame] at hmem
          exact recent_of_before hhistory _ (htop.trans hle) hmem
        · intro candidate hmem hrecent
          exact hfresh candidate (hresult ▸ hmem) (hallocated candidate hrecent)
      · intro candidate hmem
        rw [allocations, List.flatMap_cons, hresult, List.mem_append]
        rcases AllocatorState.mem_recent_replay hmem with hold | hmark
        · exact .inr (hallocated candidate hold)
        · refine (hvisits.marks candidate hmark).2.imp_right fun hrecent => ?_
          rw [hsame] at hrecent
          obtain ⟨earlier, hearlier, hcandidate⟩ :=
            List.mem_flatMap.mp (hallocated' candidate hrecent)
          exact List.mem_flatMap.mpr ⟨earlier, List.mem_of_mem_drop hearlier, hcandidate⟩

/-! ## Room -/

/-- What a transaction finds in a state: the window in which its search settles is less than
half taken in view, and no draws that have failed keep a further one from ending the call. -/
structure Roomy (state : AllocatorState) : Prop where
  starts : ∀ start, (state.counters.get? start).isSome → IsWindow start
  counted : ∀ start count, state.greatest = some start → state.counters.get? start = some count →
    ((state.taken start).card : Int) ≤ count.toInt
  settles : ∀ transaction fuel settled start size, Allocates state transaction →
    windowLoop fuel transaction (transaction.latestStart.getD 0) false =
      some (settled, start, size) →
    IsWindow start ∧ size = windowSize start ∧
      ((settled.view.taken start).card : Int) * 2 < size ∧
      (∀ randoms, ∃ random, (candidateLoop (randoms ++ [random]) settled start size).isSome) ∧
      ∀ randoms tried rest result,
        candidateLoop randoms settled start size = some (tried, rest, result) → result.isSome
  ends : ∀ transaction, Allocates state transaction → ∀ randoms,
    ∃ random, (allocatePrefix 2 (randoms ++ [random]) transaction).isSome

theorem AllocatorState.Windowed.counted_greatest {state : AllocatorState} (h : state.Windowed)
    {start : Int} {count : BitVec 64} (hgreatest : state.greatest = some start)
    (hcount : state.counters.get? start = some count) :
    ((state.taken start).card : Int) ≤ count.toInt := by
  have htop : state.top = start := by simp [AllocatorState.top, hgreatest]
  have hcounted := h.counted
  rw [htop, AllocatorState.count, hcount, Option.getD_some] at hcounted
  have hcard := AllocatorState.card_taken_le state start
  have hsize := windowSize_bounds start
  rw [toInt_eq_toNat (by omega), hcounted]

theorem AllocatorState.Windowed.roomy {state : AllocatorState} (h : state.Windowed) :
    Roomy state where
  starts := h.starts
  counted _ _ := h.counted_greatest
  settles := by
    intro transaction fuel settled start size hallocates hloop
    obtain ⟨last, hvisits⟩ := hallocates.visits h
    obtain ⟨hsound, hsame⟩ := hallocates.sound
    have hsnapshot : transaction.snapshot.Windowed := hsame ▸ h
    rw [hvisits.top_view hsnapshot] at hloop
    obtain ⟨hsettled, rfl, hroom⟩ := windowLoop_room hvisits hsnapshot hsound hloop
    have hkept : settled.snapshot.Windowed := (windowLoop_continues hloop).snapshot ▸ hsnapshot
    refine ⟨hsettled.isWindow, rfl, hroom, isSome_candidateLoop hsettled hkept hroom, ?_⟩
    intro randoms tried rest result hcandidates
    obtain ⟨candidate, rfl, -⟩ := candidateLoop_visits hsettled hkept hcandidates
    rfl
  ends := by
    intro transaction hallocates randoms
    obtain ⟨last, hvisits⟩ := hallocates.visits h
    obtain ⟨hsound, hsame⟩ := hallocates.sound
    exact isSome_allocatePrefix hvisits (hsame ▸ h) hsound randoms

/-- Windows form one chain, the greatest one never moves back along it, and there is always room
where the search for a window ends. -/
theorem allocator_roomy {history : List Allocation} (h : AllocatorHistory ⟨∅, ∅⟩ history) :
    (∀ index index', index < index' → windowStart index < windowStart index') ∧
    (∀ index, windowStart (index + 1) = windowStart index + windowSize (windowStart index)) ∧
    (∀ index index', index ≠ index' →
      Disjoint (window (windowStart index)) (window (windowStart index'))) ∧
    Roomy (stateAfter history) ∧
    ∀ allocation older, history = allocation :: older → ∀ start,
      (stateAfter older).greatest = some start →
      ∃ later, (stateAfter history).greatest = some later ∧ start ≤ later := by
  refine ⟨fun _ _ => windowStart_lt, fun _ => rfl, fun _ _ => windows_disjoint,
    (windowed_stateAfter h).1.roomy, ?_⟩
  rintro allocation older rfl start hstart
  obtain ⟨snapshot, hbody⟩ := h.exists_body List.mem_cons_self
  rw [stateAfter_cons]
  exact greatest_mono hbody hstart

theorem allocator_roomy_racing : AllocatorHistory ⟨∅, ∅⟩ racingAllocations ∧
    Roomy (stateAfter racingAllocations) :=
  ⟨history_racing, (allocator_roomy history_racing).2.2.2.1⟩

end FoundationDbEffect.Directory
