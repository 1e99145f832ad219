import FoundationDbEffect.EventLog.ServerSequences

/-!
# Change streams of event-log servers

A stream reads the index of a tenant page by page, each page in a transaction of its own, and
goes on after the last sequence that it has seen. With compactors, a stream of the plain server
reads the next sequence of its store first. It collects what stands before it, hands that to
the compaction, and then streams from there on.

A page is read at one of the snapshots that a stream is given, one after another. Writes commit
between them. A wait for the signal of an append lies between an empty page and the next one and
leaves no trace here.
-/

namespace FoundationDbEffect.EventLog.Server

open FoundationDbEffect.Foundation

/-! ## Pages -/

structure EventJournalError where
  method : String
  cause : String
  deriving DecidableEq, Repr

section

variable {θ σ ι τ ε : Type} [LinearOrder θ] [LinearOrder σ] [LinearOrder ι]

def sequencesFrom (tenant : θ) (next : Nat) : θ ×ₗ Nat → Bool :=
  fun path => (ofLex path).1 = tenant && next ≤ (ofLex path).2

def Rows.page (rows : Rows θ ι ε) (options : RepositoryOptions) (tenant : θ) (next : Nat) :
    List Nat :=
  ((rows.sequences.rows (sequencesFrom tenant next)).take options.pageSize).map
    fun row => (ofLex row.1).2

def Rows.required (rows : Rows θ ι ε) (tenant : θ) (sequence : Nat) :
    Except EventJournalError ε :=
  match rows.entries.get? (toLex (tenant, sequence)) with
  | none => .error ⟨"read", "Missing indexed event-log record"⟩
  | some entry => .ok entry

/-- What a page emits and the sequence to go on from, if the stream does not end. -/
def feedPage (options : RepositoryOptions) (tenant : θ) (until? : Option Nat)
    (rows : Rows θ ι ε) (next : Nat) : Except EventJournalError (List ε × Option Nat) := do
  let paths := (rows.page options tenant next).filter fun sequence => until?.all (sequence < ·)
  let output ← paths.mapM (rows.required tenant)
  let cursor := match paths.getLast? with
    | none => next
    | some last => last + 1
  .ok (output, if until?.any (fun limit => output.length = 0 || limit ≤ cursor) then none
    else some cursor)

/-- What a stream has emitted when it has read the snapshots, the sequence to go on from unless
it has ended, and the snapshots that it has not read then. -/
def feed (options : RepositoryOptions) (tenant : θ) (until? : Option Nat) :
    List (Rows θ ι ε) → Nat → Except EventJournalError (List ε × Option Nat × List (Rows θ ι ε))
  | [], next => .ok ([], some next, [])
  | rows :: snapshots, next => do
    let (output, cursor) ← feedPage options tenant until? rows next
    match cursor with
    | none => .ok (output, none, snapshots)
    | some cursor =>
      let (rest, cursor, unread) ← feed options tenant until? snapshots cursor
      .ok (output ++ rest, cursor, unread)

def changesEncrypted (options : RepositoryOptions) (tenant : θ) (startSequence : Int)
    (snapshots : List (Rows θ ι (EncryptedRemoteEntry ι τ))) :
    Except EventJournalError (List (EncryptedRemoteEntry ι τ)) :=
  (feed options tenant none snapshots (max 0 startSequence).toNat).map Prod.fst

/-- What a plain stream has emitted, and what it has passed to the compaction as soon as its
backlog was complete. -/
structure PlainChanges (ι : Type) where
  backlog : Option (List (RemoteEntry ι)) := none
  output : List (RemoteEntry ι) := []
  deriving DecidableEq

/-- The compaction is what the compactors of the call make of a backlog, if there are any. -/
def changesPlain (options : RepositoryOptions) (store : σ) (startSequence : Int)
    (compactBacklog? : Option (List (RemoteEntry ι) → List (RemoteEntry ι)))
    (snapshots : List (Rows σ ι (RemoteEntry ι))) :
    Except EventJournalError (PlainChanges ι) :=
  let start := (max 1 startSequence).toNat
  match compactBacklog?, snapshots with
  | none, snapshots => do
    let (output, _) ← feed options store none snapshots start
    .ok { output }
  | some _, [] => .ok {}
  | some compactBacklog, first :: snapshots => do
    let limit := first.number store 1
    let (backlog, cursor, unread) ← feed options store (some limit) snapshots start
    match cursor with
    | some _ => .ok {}
    | none =>
      let (output, _) ← feed options store none unread (max start limit)
      .ok { backlog := some backlog, output := compactBacklog backlog ++ output }

/-! ## Contiguous rows -/

def Rows.entriesFrom (rows : Rows θ ι ε) (tenant : θ) (next : Nat) : List ε :=
  (rows.entries.rows (sequencesFrom tenant next)).map Prod.snd

/-- The sequences of a tenant are those from the base up to its next one, and each has an
entry. -/
structure Contiguous (rows : Rows θ ι ε) (tenant : θ) (base : Nat) : Prop where
  base_le : base ≤ rows.number tenant base
  sequences : ∀ sequence, (rows.sequences.get? (toLex (tenant, sequence))).isSome ↔
    base ≤ sequence ∧ sequence < rows.number tenant base
  entries : ∀ sequence, (rows.entries.get? (toLex (tenant, sequence))).isSome ↔
    base ≤ sequence ∧ sequence < rows.number tenant base

def Grows (rows later : Rows θ ι ε) (tenant : θ) : Prop :=
  ∀ sequence entry, rows.entries.get? (toLex (tenant, sequence)) = some entry →
    later.entries.get? (toLex (tenant, sequence)) = some entry

def Rows.slice (rows : Rows θ ι ε) (tenant : θ) (first count : Nat) : List ε :=
  (List.range' first count).filterMap fun sequence =>
    rows.entries.get? (toLex (tenant, sequence))

theorem Contiguous.number_le {rows later : Rows θ ι ε} {tenant : θ} {base : Nat}
    (h : Contiguous rows tenant base) (hlater : Contiguous later tenant base)
    (hgrows : Grows rows later tenant) :
    rows.number tenant base ≤ later.number tenant base := by
  rcases h.base_le.eq_or_lt with heq | hlt
  · rw [← heq]
    exact hlater.base_le
  · have hlast := (h.entries (rows.number tenant base - 1)).mpr (by omega)
    obtain ⟨entry, hentry⟩ := Option.isSome_iff_exists.mp hlast
    have hlater := (hlater.entries _).mp (Option.isSome_iff_exists.mpr ⟨_, hgrows _ _ hentry⟩)
    omega

theorem rows_sequencesFrom {β : Type} (map : OrderedMap (θ ×ₗ Nat) β) (tenant : θ)
    (first limit : Nat) (h : ∀ sequence, first ≤ sequence →
      ((map.get? (toLex (tenant, sequence))).isSome ↔ sequence < limit)) :
    map.rows (sequencesFrom tenant first) =
      (List.range' first (limit - first)).filterMap fun sequence =>
        (map.get? (toLex (tenant, sequence))).map fun value =>
          (toLex (tenant, sequence), value) := by
  refine OrderedMap.rows_eq ?_ ?_
  · have hsorted : (List.range' first (limit - first)).Pairwise (· < ·) := List.pairwise_lt_range'
    refine List.Pairwise.filterMap _ ?_ hsorted
    rintro left right hlt row hrow row' hrow'
    obtain ⟨value, -, rfl⟩ := Option.map_eq_some_iff.mp hrow
    obtain ⟨value', -, rfl⟩ := Option.map_eq_some_iff.mp hrow'
    exact Prod.Lex.toLex_lt_toLex.mpr (.inr ⟨rfl, hlt⟩)
  · rintro ⟨path, value⟩
    obtain ⟨owner, sequence, rfl⟩ : ∃ owner sequence, path = toLex (owner, sequence) :=
      ⟨(ofLex path).1, (ofLex path).2, rfl⟩
    rw [OrderedMap.mem_rows, List.mem_filterMap]
    constructor
    · rintro ⟨hpath, hvalue⟩
      obtain ⟨howner, hsequence⟩ := Bool.and_eq_true_iff.mp hpath
      obtain rfl : owner = tenant := of_decide_eq_true howner
      have hfirst : first ≤ sequence := of_decide_eq_true hsequence
      have hlimit := (h sequence hfirst).mp (Option.isSome_iff_exists.mpr ⟨value, hvalue⟩)
      refine ⟨sequence, List.mem_range'_1.mpr (by omega), ?_⟩
      rw [hvalue]
      rfl
    · rintro ⟨sequence', hsequence, hvalue⟩
      obtain ⟨value', hvalue', heq⟩ := Option.map_eq_some_iff.mp hvalue
      obtain ⟨⟨rfl, rfl⟩, rfl⟩ := by simpa using heq
      have hfirst := (List.mem_range'_1.mp hsequence).1
      exact ⟨Bool.and_eq_true_iff.mpr ⟨decide_eq_true rfl, decide_eq_true hfirst⟩, hvalue'⟩

theorem Contiguous.entriesFrom_eq {rows : Rows θ ι ε} {tenant : θ} {base next : Nat}
    (h : Contiguous rows tenant base) (hnext : base ≤ next) :
    rows.entriesFrom tenant next =
      rows.slice tenant next (rows.number tenant base - next) := by
  have hrows := rows_sequencesFrom rows.entries tenant next (rows.number tenant base) (by
    intro sequence hsequence
    rw [h.entries]
    omega)
  rw [Rows.entriesFrom, hrows, List.map_filterMap]
  simp only [Option.map_map, Function.comp_def, Option.map_id']
  rfl

theorem take_range' (first count limit : Nat) :
    (List.range' first count).take limit = List.range' first (min limit count) := by
  rcases Nat.le_total limit count with hle | hle
  · rw [Nat.min_eq_left hle, List.take_range'_of_length_ge hle]
  · rw [Nat.min_eq_right hle, List.take_range'_of_length_le hle]

theorem Contiguous.page_eq {rows : Rows θ ι ε} {tenant : θ} {base next : Nat}
    (h : Contiguous rows tenant base) (options : RepositoryOptions) (hnext : base ≤ next) :
    rows.page options tenant next =
      List.range' next (min options.pageSize (rows.number tenant base - next)) := by
  have hrows := rows_sequencesFrom rows.sequences tenant next (rows.number tenant base) (by
    intro sequence hsequence
    rw [h.sequences]
    omega)
  have hmap : (rows.sequences.rows (sequencesFrom tenant next)).map
      (fun row => (ofLex row.1).2) = List.range' next (rows.number tenant base - next) := by
    have hsome : ∀ sequence ∈ List.range' next (rows.number tenant base - next),
        ((rows.sequences.get? (toLex (tenant, sequence))).map fun value =>
          (ofLex (toLex (tenant, sequence), value).1).2) = some sequence := by
      intro sequence hsequence
      rw [List.mem_range'_1] at hsequence
      have hmark := (h.sequences sequence).mpr (by omega)
      obtain ⟨mark, hmark⟩ := Option.isSome_iff_exists.mp hmark
      rw [hmark]
      rfl
    rw [hrows, List.map_filterMap]
    simp only [Option.map_map, Function.comp_def]
    rw [List.filterMap_congr hsome]
    exact List.filterMap_some
  rw [Rows.page, List.map_take, hmap, take_range']

/-! ## Slices -/

theorem slice_append (rows : Rows θ ι ε) (tenant : θ) (first count count' : Nat) :
    rows.slice tenant first count ++ rows.slice tenant (first + count) count' =
      rows.slice tenant first (count + count') := by
  unfold Rows.slice
  rw [← List.filterMap_append, ← List.range'_append, Nat.one_mul]

theorem slice_prefix (rows : Rows θ ι ε) (tenant : θ) (first : Nat) {count count' : Nat}
    (h : count ≤ count') : rows.slice tenant first count <+: rows.slice tenant first count' := by
  refine ⟨rows.slice tenant (first + count) (count' - count), ?_⟩
  rw [slice_append, Nat.add_sub_cancel' h]

theorem slice_cons {rows : Rows θ ι ε} {tenant : θ} {first : Nat} {entry : ε}
    (h : rows.entries.get? (toLex (tenant, first)) = some entry) (count : Nat) :
    rows.slice tenant first (count + 1) = entry :: rows.slice tenant (first + 1) count := by
  rw [Rows.slice, List.range'_succ]
  exact List.filterMap_cons_some h

theorem Contiguous.required_eq {rows : Rows θ ι ε} {tenant : θ} {base first count : Nat}
    (h : Contiguous rows tenant base) (hfirst : base ≤ first)
    (hcount : first + count ≤ rows.number tenant base) :
    (List.range' first count).mapM (rows.required tenant) =
      .ok (rows.slice tenant first count) := by
  induction count generalizing first with
  | zero => rfl
  | succ count ih =>
      obtain ⟨entry, hentry⟩ := Option.isSome_iff_exists.mp ((h.entries first).mpr (by omega))
      have hhead : rows.required tenant first = .ok entry := by rw [Rows.required, hentry]
      rw [List.range'_succ, List.mapM_cons, hhead, ih (by omega) (by omega), slice_cons hentry]
      rfl

theorem Contiguous.slice_length {rows : Rows θ ι ε} {tenant : θ} {base first count : Nat}
    (h : Contiguous rows tenant base) (hfirst : base ≤ first)
    (hcount : first + count ≤ rows.number tenant base) :
    (rows.slice tenant first count).length = count := by
  induction count generalizing first with
  | zero => rfl
  | succ count ih =>
      obtain ⟨entry, hentry⟩ := Option.isSome_iff_exists.mp ((h.entries first).mpr (by omega))
      rw [slice_cons hentry, List.length_cons, ih (by omega) (by omega)]

theorem Contiguous.slice_eq {rows later : Rows θ ι ε} {tenant : θ} {base first count : Nat}
    (h : Contiguous rows tenant base) (hgrows : Grows rows later tenant) (hfirst : base ≤ first)
    (hcount : first + count ≤ rows.number tenant base) :
    later.slice tenant first count = rows.slice tenant first count := by
  refine List.filterMap_congr ?_
  intro sequence hsequence
  rw [List.mem_range'_1] at hsequence
  obtain ⟨entry, hentry⟩ := Option.isSome_iff_exists.mp ((h.entries sequence).mpr (by omega))
  rw [hentry, hgrows sequence entry hentry]

theorem filter_range' (first count limit : Nat) :
    (List.range' first count).filter (· < limit) = List.range' first (min count (limit - first)) := by
  induction count generalizing first with
  | zero => simp
  | succ count ih =>
      rw [List.range'_succ]
      by_cases hlt : first < limit
      · have hmin : min (count + 1) (limit - first) = min count (limit - (first + 1)) + 1 := by omega
        rw [List.filter_cons, if_pos (decide_eq_true hlt), ih, hmin, List.range'_succ]
      · rw [List.filter_cons, if_neg (by simpa using hlt), ih]
        have hleft : limit - (first + 1) = 0 := by omega
        have hright : limit - first = 0 := by omega
        rw [hleft, hright, Nat.min_zero, Nat.min_zero, List.range'_zero, List.range'_zero]

/-! ## Streams -/

def boundOf (rows : Rows θ ι ε) (tenant : θ) (base : Nat) (until? : Option Nat) : Nat :=
  until?.getD (rows.number tenant base)

theorem feedPage_eq {rows : Rows θ ι ε} {tenant : θ} {base next : Nat}
    (h : Contiguous rows tenant base) (options : RepositoryOptions) (hnext : base ≤ next)
    (until? : Option Nat) (huntil : boundOf rows tenant base until? ≤ rows.number tenant base)
    {count : Nat} (hcount : count = min options.pageSize (boundOf rows tenant base until? - next)) :
    feedPage options tenant until? rows next =
      .ok (rows.slice tenant next count,
        if until?.any (fun limit => count = 0 || limit ≤ next + count) then none
        else some (next + count)) := by
  have hpaths : (rows.page options tenant next).filter (fun sequence =>
      until?.all (sequence < ·)) = List.range' next count := by
    rw [h.page_eq options hnext]
    cases until? with
    | none => simp [hcount, boundOf]
    | some limit =>
        simp only [Option.all_some]
        rw [filter_range']
        congr 1
        simp only [boundOf, Option.getD_some] at huntil hcount
        omega
  have hcases : next + count ≤ rows.number tenant base ∨ count = 0 := by omega
  have houtput : (List.range' next count).mapM (rows.required tenant) =
      .ok (rows.slice tenant next count) := by
    rcases hcases with hle | hzero
    · exact h.required_eq hnext hle
    · rw [hzero]
      rfl
  have hlength : (rows.slice tenant next count).length = count := by
    rcases hcases with hle | hzero
    · exact h.slice_length hnext hle
    · rw [hzero]
      rfl
  have hcursor : (match (List.range' next count).getLast? with
      | none => next
      | some last => last + 1) = next + count := by
    rw [List.getLast?_range']
    split_ifs with hzero
    · rw [hzero, Nat.add_zero]
    · exact Nat.sub_add_cancel (by omega)
  unfold feedPage
  dsimp only
  rw [hpaths, houtput, hcursor]
  change Except.ok (_, if until?.any (fun limit =>
    (rows.slice tenant next count).length = 0 || limit ≤ next + count) then none
      else some (next + count)) = _
  rw [hlength]

/-- A stream without an end emits one sequence after another, and everything before a bound once
it has read enough pages of rows that reach it. -/
theorem feed_spec {tenant : θ} {base : Nat} {last : Rows θ ι ε} (options : RepositoryOptions)
    (snapshots : List (Rows θ ι ε))
    (h : ∀ rows ∈ snapshots, Contiguous rows tenant base ∧ Grows rows last tenant)
    (hlast : Contiguous last tenant base) {next : Nat} (hnext : base ≤ next) :
    ∃ count, feed options tenant none snapshots next =
        .ok (last.slice tenant next count, some (next + count), []) ∧
      count ≤ last.number tenant base - next ∧
      ∀ bound, bound - next ≤
          options.pageSize * snapshots.countP (bound ≤ ·.number tenant base) →
        bound - next ≤ count := by
  induction snapshots generalizing next with
  | nil => exact ⟨0, rfl, Nat.zero_le _, by simp⟩
  | cons rows snapshots ih =>
      obtain ⟨hrows, hgrows⟩ := h rows (by simp)
      have hle := hrows.number_le hlast hgrows
      obtain ⟨first, hfirst⟩ : ∃ first,
          first = min options.pageSize (rows.number tenant base - next) := ⟨_, rfl⟩
      obtain ⟨count, hfeed, hcount, hbound⟩ :=
        ih (fun rows hmem => h rows (List.mem_cons_of_mem _ hmem))
          (hnext.trans (Nat.le_add_right next first))
      have hpage := feedPage_eq hrows options hnext none (Nat.le_refl _) hfirst
      have hslice : rows.slice tenant next first = last.slice tenant next first := by
        rcases Nat.eq_zero_or_pos first with hzero | hpos
        · rw [hzero]
          rfl
        · exact (hrows.slice_eq hgrows hnext (by omega)).symm
      refine ⟨first + count, ?_, by omega, ?_⟩
      · rw [feed, hpage]
        change (do
          let (rest, cursor, unread) ← feed options tenant none snapshots (next + first)
          Except.ok (rows.slice tenant next first ++ rest, cursor, unread)) = _
        rw [hfeed, hslice]
        change Except.ok (last.slice tenant next first ++ last.slice tenant (next + first) count,
          some (next + first + count), []) = _
        rw [slice_append, Nat.add_assoc]
      · intro bound henough
        rw [List.countP_cons] at henough
        have hrest := hbound bound
        split_ifs at henough with hreach
        · have hreach : bound ≤ rows.number tenant base := of_decide_eq_true hreach
          rw [Nat.mul_add, Nat.mul_one] at henough
          omega
        · rw [Nat.add_zero] at henough
          omega

def pagesOf (options : RepositoryOptions) (count : Nat) : Nat :=
  max 1 ((count + (options.pageSize - 1)) / options.pageSize)

theorem pagesOf_of_le {options : RepositoryOptions} {count : Nat} (h : count ≤ options.pageSize) :
    pagesOf options count = 1 := by
  have hpage := options.pageSize_pos
  have hlt : (count + (options.pageSize - 1)) / options.pageSize < 2 := by
    rw [Nat.div_lt_iff_lt_mul hpage]
    omega
  rw [pagesOf]
  omega

theorem pagesOf_of_lt {options : RepositoryOptions} {count : Nat} (h : options.pageSize < count) :
    pagesOf options count = pagesOf options (count - options.pageSize) + 1 := by
  have hpage := options.pageSize_pos
  have hsplit : count + (options.pageSize - 1) =
      count - options.pageSize + (options.pageSize - 1) + options.pageSize := by omega
  have hpos : 0 < (count - options.pageSize + (options.pageSize - 1)) / options.pageSize :=
    Nat.div_pos (by omega) hpage
  rw [pagesOf, pagesOf, hsplit, Nat.add_div_right _ hpage]
  omega

theorem feed_until {tenant : θ} {base limit : Nat} {last : Rows θ ι ε}
    (options : RepositoryOptions) (snapshots : List (Rows θ ι ε))
    (h : ∀ rows ∈ snapshots, Contiguous rows tenant base ∧ Grows rows last tenant ∧
      limit ≤ rows.number tenant base) {next : Nat} (hnext : base ≤ next) :
    (pagesOf options (limit - next) ≤ snapshots.length →
      feed options tenant (some limit) snapshots next =
        .ok (last.slice tenant next (limit - next), none,
          snapshots.drop (pagesOf options (limit - next)))) ∧
    (snapshots.length < pagesOf options (limit - next) →
      ∃ output cursor, feed options tenant (some limit) snapshots next =
        .ok (output, some cursor, [])) := by
  induction snapshots generalizing next with
  | nil =>
      refine ⟨fun hle => ?_, fun _ => ⟨[], next, rfl⟩⟩
      have hpos : 1 ≤ pagesOf options (limit - next) := Nat.le_max_left _ _
      exact absurd (hpos.trans hle) (by simp)
  | cons rows snapshots ih =>
      obtain ⟨hrows, hgrows, hlimit⟩ := h rows (by simp)
      obtain ⟨count, hcount⟩ : ∃ count, count = min options.pageSize (limit - next) := ⟨_, rfl⟩
      have hpage := feedPage_eq hrows options hnext (some limit) hlimit hcount
      have hpos := options.pageSize_pos
      have hslice : rows.slice tenant next count = last.slice tenant next count := by
        rcases Nat.eq_zero_or_pos count with hzero | hpos
        · rw [hzero]
          rfl
        · exact (hrows.slice_eq hgrows hnext (by omega)).symm
      rw [feed, hpage, hslice]
      rcases Nat.lt_or_ge options.pageSize (limit - next) with hmore | hdone
      · have hgoes : (some limit).any
            (fun limit => count = 0 || limit ≤ next + count) = false := by
          simp only [Option.any_some, Bool.or_eq_false_iff, decide_eq_false_iff_not]
          omega
        obtain ⟨hends, hruns⟩ := ih (fun rows hmem => h rows (List.mem_cons_of_mem _ hmem))
          (hnext.trans (Nat.le_add_right next count))
        have hrest : limit - (next + count) = limit - next - options.pageSize := by omega
        rw [hgoes, pagesOf_of_lt hmore, ← hrest, List.length_cons]
        constructor
        · intro hle
          have hcounts : count + (limit - (next + count)) = limit - next := by omega
          change (do
            let (rest, cursor, unread) ← feed options tenant (some limit) snapshots (next + count)
            Except.ok (last.slice tenant next count ++ rest, cursor, unread)) = _
          rw [hends (by omega)]
          change Except.ok (last.slice tenant next count ++
            last.slice tenant (next + count) (limit - (next + count)), none, _) = _
          rw [slice_append, hcounts, List.drop_succ_cons]
        · intro hlt
          obtain ⟨output, cursor, hfeed⟩ := hruns (by omega)
          refine ⟨last.slice tenant next count ++ output, cursor, ?_⟩
          change (do
            let (rest, cursor, unread) ← feed options tenant (some limit) snapshots (next + count)
            Except.ok (last.slice tenant next count ++ rest, cursor, unread)) = _
          rw [hfeed]
          rfl
      · have hends : (some limit).any
            (fun limit => count = 0 || limit ≤ next + count) = true := by
          simp only [Option.any_some, Bool.or_eq_true, decide_eq_true_eq]
          omega
        have hall : count = limit - next := by omega
        rw [hends, pagesOf_of_le hdone, hall]
        refine ⟨fun _ => rfl, fun hlt => ?_⟩
        rw [List.length_cons] at hlt
        omega

/-! ## Snapshots of runs -/

theorem Holds.contiguous [LogEntry ε ι] {rows : Rows θ ι ε} {tenant : θ} {base : Nat}
    {log : List ε} (h : Holds rows tenant base log) : Contiguous rows tenant base where
  base_le := by
    rw [h.next]
    exact Nat.le_add_right _ _
  sequences sequence := by rw [h.next, h.sequences]
  entries sequence := by
    rw [h.next, h.entries]
    split
    · next hbase =>
        rw [isSome_getElem?, ← Nat.sub_lt_iff_lt_add' hbase]
        simp [hbase]
    · next hbase => simp [hbase]

theorem grows_of_append [LogEntry ε ι] {rows later : Rows θ ι ε} {tenant : θ} {base : Nat}
    {log written : List ε} (h : Holds rows tenant base log)
    (hlater : Holds later tenant base (log ++ written)) : Grows rows later tenant := by
  intro sequence entry hentry
  rw [h.entries] at hentry
  rw [hlater.entries]
  split at hentry
  · next hbase =>
      obtain ⟨hlt, -⟩ := List.getElem?_eq_some_iff.mp hentry
      rw [if_pos hbase, List.getElem?_append_left hlt, hentry]
  · cases hentry

theorem SameTenant.grows {rows later : Rows θ ι ε} {tenant : θ} (h : SameTenant rows later tenant) :
    Grows rows later tenant := by
  intro sequence entry hentry
  rw [h.entries, hentry]

theorem Grows.trans {first second third : Rows θ ι ε} {tenant : θ} (h : Grows first second tenant)
    (h' : Grows second third tenant) : Grows first third tenant :=
  fun sequence entry hentry => h' sequence entry (h sequence entry hentry)

structure AllGrow (state later : ServerState θ σ ι τ) : Prop where
  encrypted : ∀ tenant, Grows state.encrypted later.encrypted tenant
  plain : ∀ store, Grows state.plain.rows later.plain.rows store

theorem HasLogs.call_grows {idString : ι → String} (hid : Function.Injective idString)
    {state state' : ServerState θ σ ι τ} {call : ServerCall θ σ ι τ} (h : HasLogs state)
    (hcall : state.call idString call = .ok state') : AllGrow state state' := by
  cases call with
  | writeEncrypted options tenant entries =>
      cases hcall
      obtain ⟨log, hlog⟩ := h.encrypted tenant
      obtain ⟨rows, heq, hholds, hothers⟩ := writeEncrypted_spec hid options entries hlog
      refine ⟨fun other => ?_, fun store sequence entry hentry => hentry⟩
      dsimp only
      rw [heq]
      by_cases hother : other = tenant
      · subst hother
        exact grows_of_append hlog hholds
      · exact (hothers other hother).grows
  | writePlain options store entries =>
      obtain ⟨log, hlog⟩ := h.plain store
      obtain ⟨hok, herror⟩ := writePlain_spec hid options entries hlog
      by_cases hall : AllNew (logIds log) entries
      · obtain ⟨plain, heq, hholds, hothers⟩ := hok hall
        rw [ServerState.call, heq] at hcall
        cases hcall
        refine ⟨fun tenant sequence entry hentry => hentry, fun other => ?_⟩
        by_cases hother : other = store
        · subst hother
          exact grows_of_append hlog.toHolds hholds.toHolds
        · exact (hothers other hother).rows.grows
      · rw [ServerState.call, herror hall] at hcall
        cases hcall

theorem HasLogs.run_grows {idString : ι → String} (hid : Function.Injective idString)
    {state state' : ServerState θ σ ι τ} {calls : List (ServerCall θ σ ι τ)} (h : HasLogs state)
    (hrun : state.run idString calls = .ok state') : AllGrow state state' := by
  induction calls generalizing state with
  | nil =>
      cases hrun
      exact ⟨fun _ _ _ hentry => hentry, fun _ _ _ hentry => hentry⟩
  | cons call calls ih =>
      rw [ServerState.run, List.foldlM_cons] at hrun
      cases hcall : state.call idString call with
      | error message =>
          rw [hcall] at hrun
          cases hrun
      | ok next =>
          rw [hcall] at hrun
          have hfirst := h.call_grows hid hcall
          have hrest := ih (h.call hid hcall) hrun
          exact ⟨fun tenant => (hfirst.encrypted tenant).trans (hrest.encrypted tenant),
            fun store => (hfirst.plain store).trans (hrest.plain store)⟩

/-! ## What streams emit -/

/-- Contiguous snapshots of a tenant, and a last one that has all entries of theirs. -/
structure Snapshots (snapshots : List (Rows θ ι ε)) (last : Rows θ ι ε) (tenant : θ)
    (base : Nat) : Prop where
  contiguous : Contiguous last tenant base
  each : ∀ rows ∈ snapshots, Contiguous rows tenant base ∧ Grows rows last tenant

/-- What has been emitted comes first among the entries from a sequence on, and it has all of
those of any state as soon as enough pages were read that reach the end of that state. -/
def Emits (options : RepositoryOptions) (snapshots : List (Rows θ ι ε)) (last : Rows θ ι ε)
    (tenant : θ) (base next : Nat) (output : List ε) : Prop :=
  output <+: last.entriesFrom tenant next ∧
    ∀ rows, Contiguous rows tenant base → Grows rows last tenant →
      (rows.entriesFrom tenant next).length ≤ options.pageSize *
        snapshots.countP (rows.number tenant base ≤ ·.number tenant base) →
      rows.entriesFrom tenant next <+: output

theorem Snapshots.feed_emits {snapshots : List (Rows θ ι ε)} {last : Rows θ ι ε} {tenant : θ}
    {base : Nat} (h : Snapshots snapshots last tenant base) (options : RepositoryOptions)
    {next : Nat} (hnext : base ≤ next) :
    ∃ output cursor, feed options tenant none snapshots next = .ok (output, some cursor, []) ∧
      Emits options snapshots last tenant base next output := by
  obtain ⟨count, hfeed, hcount, hbound⟩ := feed_spec options snapshots h.each h.contiguous hnext
  refine ⟨_, _, hfeed, ?_, ?_⟩
  · rw [h.contiguous.entriesFrom_eq hnext]
    exact slice_prefix _ _ _ hcount
  · intro rows hrows hgrows henough
    have hle := hrows.number_le h.contiguous hgrows
    have hslice : rows.slice tenant next (rows.number tenant base - next) =
        last.slice tenant next (rows.number tenant base - next) := by
      rcases Nat.eq_zero_or_pos (rows.number tenant base - next) with hzero | hpos
      · rw [hzero]
        rfl
      · exact (hrows.slice_eq hgrows hnext (by omega)).symm
    have hlength : (rows.entriesFrom tenant next).length = rows.number tenant base - next := by
      rw [hrows.entriesFrom_eq hnext]
      rcases Nat.eq_zero_or_pos (rows.number tenant base - next) with hzero | hpos
      · rw [hzero]
        rfl
      · exact hrows.slice_length hnext (by omega)
    rw [hlength] at henough
    rw [hrows.entriesFrom_eq hnext, hslice]
    exact slice_prefix _ _ _ (hbound _ henough)

/-- The encrypted stream and the plain stream without compactors emit the entries from their
start on. With compactors the compaction is passed what stands before the next sequence of the
first snapshot, and the stream emits what comes from there on: both together are the entries from
the start on. The states between the transactions of a run are such snapshots. -/
theorem server_streams (options : RepositoryOptions) (startSequence : Int) :
    (∀ (tenant : θ) (snapshots : List (Rows θ ι (EncryptedRemoteEntry ι τ))) last,
      Snapshots snapshots last tenant 0 →
      ∃ output, changesEncrypted options tenant startSequence snapshots = .ok output ∧
        Emits options snapshots last tenant 0 (max 0 startSequence).toNat output) ∧
    (∀ (store : σ) (snapshots : List (Rows σ ι (RemoteEntry ι))) last,
      Snapshots snapshots last store 1 →
      ∃ output, changesPlain options store startSequence none snapshots = .ok { output } ∧
        Emits options snapshots last store 1 (max 1 startSequence).toNat output) ∧
    (∀ (store : σ) compactBacklog first (snapshots : List (Rows σ ι (RemoteEntry ι))) last,
      Snapshots (first :: snapshots) last store 1 →
      (∀ rows ∈ snapshots, Grows first rows store) →
      let start := (max 1 startSequence).toNat
      let limit := first.number store 1
      let pages := pagesOf options (limit - start)
      (snapshots.length < pages →
        changesPlain options store startSequence (some compactBacklog) (first :: snapshots) =
          .ok {}) ∧
      (pages ≤ snapshots.length → ∃ output,
        changesPlain options store startSequence (some compactBacklog) (first :: snapshots) =
          .ok { backlog := some (first.entriesFrom store start)
                output := compactBacklog (first.entriesFrom store start) ++ output } ∧
        Emits options (snapshots.drop pages) last store 1 (max start limit) output ∧
        first.entriesFrom store start ++ last.entriesFrom store (max start limit) =
          last.entriesFrom store start)) ∧
    ∀ (idString : ι → String), Function.Injective idString →
      ∀ (state later : ServerState θ σ ι τ) calls, Reachable idString state →
        state.run idString calls = .ok later →
        (∀ tenant, Contiguous state.encrypted tenant 0 ∧
          Grows state.encrypted later.encrypted tenant) ∧
        ∀ store, Contiguous state.plain.rows store 1 ∧
          Grows state.plain.rows later.plain.rows store := by
  refine ⟨?_, ?_, ?_, ?_⟩
  · intro tenant snapshots last h
    obtain ⟨output, cursor, hfeed, hemits⟩ := h.feed_emits options (Nat.zero_le _)
    exact ⟨output, by rw [changesEncrypted, hfeed]; rfl, hemits⟩
  · intro store snapshots last h
    have hstart : 1 ≤ (max 1 startSequence).toNat := by omega
    obtain ⟨output, cursor, hfeed, hemits⟩ := h.feed_emits options hstart
    refine ⟨output, ?_, hemits⟩
    unfold changesPlain
    dsimp only
    rw [hfeed]
    rfl
  · intro store compactBacklog first snapshots last h hfirst start limit pages
    have hstart : 1 ≤ start := by omega
    obtain ⟨hcontiguous, hgrows⟩ := h.each first (by simp)
    have hle := hcontiguous.number_le h.contiguous hgrows
    have heach : ∀ rows ∈ snapshots, Contiguous rows store 1 ∧ Grows rows last store ∧
        limit ≤ rows.number store 1 := by
      intro rows hrows
      obtain ⟨hrows', hlast⟩ := h.each rows (List.mem_cons_of_mem _ hrows)
      exact ⟨hrows', hlast, hcontiguous.number_le hrows' (hfirst rows hrows)⟩
    have hbacklog : first.entriesFrom store start = last.slice store start (limit - start) := by
      rw [hcontiguous.entriesFrom_eq hstart]
      rcases Nat.eq_zero_or_pos (limit - start) with hzero | hpos
      · rw [hzero]
        rfl
      · exact (hcontiguous.slice_eq hgrows hstart (by omega)).symm
    obtain ⟨hends, hruns⟩ := feed_until options snapshots heach hstart
    constructor
    · intro hlt
      obtain ⟨output, cursor, hfeed⟩ := hruns hlt
      unfold changesPlain
      dsimp only
      rw [hfeed]
      rfl
    · intro hpages
      have hsnapshots : Snapshots (snapshots.drop pages) last store 1 :=
        ⟨h.contiguous, fun rows hrows =>
          h.each rows (List.mem_cons_of_mem _ (List.mem_of_mem_drop hrows))⟩
      obtain ⟨output, cursor, hfeed, hemits⟩ :=
        hsnapshots.feed_emits options (hstart.trans (Nat.le_max_left start limit))
      refine ⟨output, ?_, hemits, ?_⟩
      · unfold changesPlain
        dsimp only
        rw [hends hpages, hbacklog]
        change (do
          let (output, _) ← feed options store none (snapshots.drop pages) (max start limit)
          Except.ok ({ backlog := some (last.slice store start (limit - start))
                       output := compactBacklog (last.slice store start (limit - start)) ++
                        output } : PlainChanges ι)) = _
        rw [hfeed]
        rfl
      · have hnext : start + (limit - start) = max start limit := by omega
        have hcount : limit - start + (last.number store 1 - max start limit) =
            last.number store 1 - start := by omega
        rw [hbacklog, h.contiguous.entriesFrom_eq hstart,
          h.contiguous.entriesFrom_eq (hstart.trans (Nat.le_max_left start limit)), ← hnext,
          slice_append, hnext, hcount]
  · intro idString hid state later calls hreachable hrun
    have hlogs := hreachable.hasLogs hid
    have hgrow := hlogs.run_grows hid hrun
    refine ⟨fun tenant => ?_, fun store => ?_⟩
    · obtain ⟨log, hlog⟩ := hlogs.encrypted tenant
      exact ⟨hlog.contiguous, hgrow.encrypted tenant⟩
    · obtain ⟨log, hlog⟩ := hlogs.plain store
      exact ⟨hlog.toHolds.contiguous, hgrow.plain store⟩

def twoEntries : PlainRows String String :=
  match writePlain id { pageSize_pos := Nat.succ_pos 99 } "store"
      [⟨"a", "event", "key", []⟩, ⟨"b", "event", "key", []⟩] {} with
  | .ok (state, _) => state
  | .error _ => {}

theorem twoEntries_contiguous :
    Contiguous twoEntries.rows "store" 1 ∧ twoEntries.rows.number "store" 1 = 3 := by
  have hempty : HoldsPlain ({} : PlainRows String String) "store" [] :=
    ⟨holds_empty "store" 1, by simp [HoldsById]⟩
  obtain ⟨hok, -⟩ := writePlain_spec Function.injective_id {}
    [⟨"a", "event", "key", []⟩, ⟨"b", "event", "key", []⟩] hempty
  obtain ⟨state, heq, hholds, -⟩ := hok (by simp [AllNew])
  have hstate : twoEntries = state := by rw [twoEntries, heq]
  rw [hstate]
  exact ⟨hholds.toHolds.contiguous, hholds.next⟩

theorem server_streams_twoEntries :
    ∃ output, changesPlain ⟨1, by decide⟩ "store" 1 (some id)
        [twoEntries.rows, twoEntries.rows, twoEntries.rows] =
      .ok { backlog := some (twoEntries.rows.entriesFrom "store" 1)
            output := twoEntries.rows.entriesFrom "store" 1 ++ output } := by
  obtain ⟨hcontiguous, hnumber⟩ := twoEntries_contiguous
  have hsnapshots : Snapshots [twoEntries.rows, twoEntries.rows, twoEntries.rows] twoEntries.rows
      "store" 1 := by
    refine ⟨hcontiguous, ?_⟩
    simp only [List.mem_cons, List.not_mem_nil, or_false, or_self]
    rintro rows rfl
    exact ⟨hcontiguous, fun _ _ hentry => hentry⟩
  have hgrows : ∀ rows ∈ [twoEntries.rows, twoEntries.rows],
      Grows twoEntries.rows rows "store" := by
    simp only [List.mem_cons, List.not_mem_nil, or_false, or_self]
    rintro rows rfl _ _ hentry
    exact hentry
  have h := (server_streams (θ := String) (τ := Nat) ⟨1, by decide⟩ 1).2.2.1 "store" id
    twoEntries.rows [twoEntries.rows, twoEntries.rows] twoEntries.rows hsnapshots hgrows
  dsimp only at h
  rw [hnumber] at h
  obtain ⟨output, houtput, -⟩ := h.2 (by decide)
  exact ⟨output, houtput⟩

end

end FoundationDbEffect.EventLog.Server
