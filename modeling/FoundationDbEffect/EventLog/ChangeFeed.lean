import FoundationDbEffect.EventLog.Journal
import FoundationDbEffect.Foundation.CursorFeed

/-!
# The change feed of a journal

A subscriber starts at the end of what is committed at its read version and reads the local
rows page by page, each page in a transaction of its own. Transactions of any instances write
locally and from remotes, and destroy the journal, before, between and after the pages.

Rows stand under the versions of their commits, so those of later commits come after all that
a page has passed, and a page that has passed a row has handed it out.
-/

namespace FoundationDbEffect.EventLog

open FoundationDbEffect.Foundation

variable {ι ρ : Type}

inductive JournalCall (ι ρ : Type) where
  | write (entry : Entry ι)
  | writeFromRemote (incoming : Incoming ι ρ)
  | destroy
  deriving DecidableEq

section

variable [LinearOrder ι]

/-- The counter of the signal is kept. -/
def JournalState.destroy (state : JournalState ι ρ) : JournalState ι ρ where
  entries := ∅
  localEntries := ∅
  conflicts := ∅
  inserted := ∅
  localOrder := ∅
  acks := ∅
  sentAfter := fun _ => none
  remoteNext := fun _ => 0
  localSignal := state.localSignal

/-- The journal as a committing transaction has left it so far, and the transaction's next user
version. -/
structure Writing (ι ρ : Type) [LinearOrder ι] where
  state : JournalState ι ρ
  next : Nat

variable [DecidableEq ρ]

/-- The mutations of a part of the transaction that starts with its own user version. -/
def Writing.apply (version : Nat) (writing : Writing ι ρ)
    (part : JournalTransaction ι ρ → JournalTransaction ι ρ) : Writing ι ρ :=
  let transaction := part
    { readVersion := version - 1, snapshot := writing.state, next := writing.next }
  { state := transaction.mutations.foldl (JournalState.apply version) writing.state
    next := transaction.next }

def Writing.call (version : Nat) (writing : Writing ι ρ) : JournalCall ι ρ → Writing ι ρ
  | .write entry => writing.apply version fun transaction => transaction.write entry
  | .writeFromRemote incoming =>
      writing.apply version fun transaction => transaction.finishRemote incoming
  | .destroy => { writing with state := writing.state.destroy }

abbrev JournalLog (ι ρ : Type) := Nat → List (JournalCall ι ρ)

def JournalLog.stateAt (log : JournalLog ι ρ) : Nat → JournalState ι ρ
  | 0 => .empty
  | version + 1 =>
    ((log (version + 1)).foldl (Writing.call (version + 1)) ⟨log.stateAt version, 0⟩).state

/-! ## Pages -/

/-- The place from which the next page is read: the end of what is committed at a read version,
or a row. -/
inductive FeedCursor (ι : Type) where
  | committedEnd (readVersion : Nat)
  | after (row : OrderRow ι)

def FeedCursor.contains : FeedCursor ι → OrderRow ι → Bool
  | .committedEnd readVersion, row => readVersion + 1 ≤ rowVersion row
  | .after last, row => last < row

/-- A page of local entries. It fails when an indexed record is missing. -/
def localPage (state : JournalState ι ρ) (pageSize : Nat) (begin : FeedCursor ι) :
    Option (List (Entry ι) × FeedCursor ι) :=
  let rows := (state.localOrder.rows begin.contains).take pageSize
  (rows.mapM fun row => state.localEntries.get? (rowId row.1)).map fun entries =>
    (entries, match rows.getLast? with
      | some last => .after last.1
      | none => begin)

def changes (log : JournalLog ι ρ) (pageSize : Nat) :
    List Nat → FeedCursor ι → Option (List (Entry ι))
  | [], _ => some []
  | version :: versions, begin => do
    let (entries, next) ← localPage (log.stateAt version) pageSize begin
    let rest ← changes log pageSize versions next
    some (entries ++ rest)

/-! ## What is written -/

def localWrite : JournalCall ι ρ → Option (Entry ι)
  | .write entry => some entry
  | _ => none

def JournalLog.written (log : JournalLog ι ρ) (first last : Nat) : List (Entry ι) :=
  (List.range' (first + 1) (last - first)).flatMap fun version =>
    (log version).filterMap localWrite

def survive (survivors : List (Entry ι)) : JournalCall ι ρ → List (Entry ι)
  | .write entry => survivors ++ [entry]
  | .writeFromRemote _ => survivors
  | .destroy => []

def JournalLog.surviving (log : JournalLog ι ρ) (first last : Nat) : List (Entry ι) :=
  (List.range' (first + 1) (last - first)).foldl
    (fun survivors version => (log version).foldl survive survivors) []

/-! ## Live rows -/

/-- The local rows that no destroy has removed, as a committing transaction has left them so far,
with its next user version. -/
structure LiveRows (ι : Type) [LinearOrder ι] where
  rows : OrderedMap (OrderRow ι) (Entry ι)
  next : Nat

def LiveRows.call (version : Nat) (live : LiveRows ι) : JournalCall ι ρ → LiveRows ι
  | .write entry => ⟨live.rows.set (orderRow version live.next entry.id) entry, live.next + 1⟩
  | .writeFromRemote incoming => { live with next := live.next + incoming.uncommitted.length }
  | .destroy => { live with rows := ∅ }

def JournalLog.liveAt (log : JournalLog ι ρ) : Nat → OrderedMap (OrderRow ι) (Entry ι)
  | 0 => ∅
  | version + 1 =>
    ((log (version + 1)).foldl (LiveRows.call (version + 1)) ⟨log.liveAt version, 0⟩).rows

/-- The journal has the live rows and their entries, and the rows that the transaction is still
to write come after them. -/
structure Tracks (Written : Entry ι → Prop) (version : Nat) (writing : Writing ι ρ)
    (live : LiveRows ι) : Prop where
  next : writing.next = live.next
  order : ∀ row, writing.state.localOrder.get? row = (live.rows.get? row).map fun _ => ()
  entries : ∀ row entry, live.rows.get? row = some entry →
    rowId row = entry.id ∧ writing.state.localEntries.get? entry.id = some entry
  written : ∀ row entry, live.rows.get? row = some entry → Written entry

theorem call_write (version : Nat) (writing : Writing ι ρ) (entry : Entry ι) :
    (writing.call version (.write entry)).next = writing.next + 1 ∧
      (writing.call version (.write entry)).state.localOrder =
        writing.state.localOrder.set (orderRow version writing.next entry.id) () ∧
      (writing.call version (.write entry)).state.localEntries =
        writing.state.localEntries.set entry.id entry :=
  ⟨rfl, rfl, rfl⟩

theorem insert_remote (version : Nat) (state : JournalState ι ρ) (entries : List (Entry ι))
    (transaction : JournalTransaction ι ρ) :
    (transaction.insert entries false).next = transaction.next + entries.length ∧
      ((transaction.insert entries false).mutations.foldl (JournalState.apply version)
        state).localOrder =
        (transaction.mutations.foldl (JournalState.apply version) state).localOrder ∧
      ((transaction.insert entries false).mutations.foldl (JournalState.apply version)
        state).localEntries =
        (transaction.mutations.foldl (JournalState.apply version) state).localEntries ∧
      ((transaction.insert entries false).mutations.foldl (JournalState.apply version)
        state).localSignal =
        (transaction.mutations.foldl (JournalState.apply version) state).localSignal := by
  induction entries generalizing transaction with
  | nil => exact ⟨rfl, rfl, rfl, rfl⟩
  | cons entry entries ih =>
      obtain ⟨hnext, horder, hentries, hsignal⟩ := ih (transaction.insertEntry false entry)
      have hmutations : (transaction.insertEntry false entry).mutations =
          transaction.mutations ++ [.putEntry entry,
            .markConflict entry.event entry.primaryKey entry.id] ++
            [.appendInserted transaction.next entry.id] := rfl
      refine ⟨?_, ?_, ?_, ?_⟩
      · refine hnext.trans ?_
        rw [List.length_cons]
        exact Nat.succ_add_eq_add_succ _ _
      · refine horder.trans ?_
        rw [hmutations, List.foldl_append, List.foldl_append]
        rfl
      · refine hentries.trans ?_
        rw [hmutations, List.foldl_append, List.foldl_append]
        rfl
      · refine hsignal.trans ?_
        rw [hmutations, List.foldl_append, List.foldl_append]
        rfl

theorem call_writeFromRemote (version : Nat) (writing : Writing ι ρ) (incoming : Incoming ι ρ) :
    (writing.call version (.writeFromRemote incoming)).next =
        writing.next + incoming.uncommitted.length ∧
      (writing.call version (.writeFromRemote incoming)).state.localOrder =
        writing.state.localOrder ∧
      (writing.call version (.writeFromRemote incoming)).state.localEntries =
        writing.state.localEntries ∧
      (writing.call version (.writeFromRemote incoming)).state.localSignal =
        writing.state.localSignal := by
  obtain ⟨hnext, horder, hentries, hsignal⟩ := insert_remote version writing.state
    (incoming.uncommitted.map RemoteEntry.entry)
    { readVersion := version - 1, snapshot := writing.state, next := writing.next }
  rw [List.length_map] at hnext
  refine ⟨hnext, ?_, ?_, ?_⟩
  · refine Eq.trans ?_ horder
    simp only [Writing.call, Writing.apply, JournalTransaction.finishRemote,
      JournalTransaction.mutate, List.foldl_append]
    rfl
  · refine Eq.trans ?_ hentries
    simp only [Writing.call, Writing.apply, JournalTransaction.finishRemote,
      JournalTransaction.mutate, List.foldl_append]
    rfl
  · refine Eq.trans ?_ hsignal
    simp only [Writing.call, Writing.apply, JournalTransaction.finishRemote,
      JournalTransaction.mutate, List.foldl_append]
    rfl

theorem Tracks.call {Written : Entry ι → Prop} {version : Nat} {writing : Writing ι ρ}
    {live : LiveRows ι} (h : Tracks Written version writing live)
    (hids : ∀ entry other, Written entry → Written other → entry.id = other.id → entry = other)
    {call : JournalCall ι ρ} (hcall : ∀ entry, localWrite call = some entry → Written entry) :
    Tracks Written version (writing.call version call) (live.call version call) := by
  cases call with
  | write entry =>
      obtain ⟨hnext, horder, hentries⟩ := call_write version writing entry
      have hwritten := hcall entry rfl
      constructor
      · rw [hnext, h.next]
        rfl
      · intro row
        rw [horder, OrderedMap.get?_set, LiveRows.call, OrderedMap.get?_set, h.next, h.order]
        split_ifs <;> rfl
      · intro row other hother
        rw [LiveRows.call, OrderedMap.get?_set] at hother
        rw [hentries, OrderedMap.get?_set]
        split_ifs at hother with hrow
        · cases hother
          rw [hrow, if_pos rfl]
          exact ⟨rfl, rfl⟩
        · obtain ⟨hid, hget⟩ := h.entries row other hother
          refine ⟨hid, ?_⟩
          split_ifs with hsame
          · rw [hids other entry (h.written row other hother) hwritten hsame]
          · exact hget
      · intro row other hother
        rw [LiveRows.call, OrderedMap.get?_set] at hother
        split_ifs at hother
        · cases hother
          exact hwritten
        · exact h.written row other hother
  | writeFromRemote incoming =>
      obtain ⟨hnext, horder, hentries, -⟩ := call_writeFromRemote version writing incoming
      refine ⟨?_, ?_, ?_, h.written⟩
      · rw [hnext, h.next]
        rfl
      · rw [horder]
        exact h.order
      · rw [hentries]
        exact h.entries
  | destroy =>
      refine ⟨h.next, fun _ => rfl, ?_, ?_⟩
      · intro row entry hentry
        simp [LiveRows.call] at hentry
      · intro row entry hentry
        simp [LiveRows.call] at hentry

theorem Tracks.calls {Written : Entry ι → Prop} {version : Nat} {writing : Writing ι ρ}
    {live : LiveRows ι} (h : Tracks Written version writing live)
    (hids : ∀ entry other, Written entry → Written other → entry.id = other.id → entry = other)
    {calls : List (JournalCall ι ρ)} (hcalls : ∀ entry, .write entry ∈ calls → Written entry) :
    Tracks Written version (calls.foldl (Writing.call version) writing)
      (calls.foldl (LiveRows.call version) live) := by
  induction calls generalizing writing live with
  | nil => exact h
  | cons call calls ih =>
      have hcall : ∀ entry, localWrite call = some entry → Written entry := by
        intro entry hentry
        cases call with
        | write other =>
            cases hentry
            exact hcalls entry (by simp)
        | writeFromRemote incoming => contradiction
        | destroy => contradiction
      refine ih (h.call hids hcall) ?_
      intro entry hentry
      exact hcalls entry (List.mem_cons_of_mem _ hentry)

def JournalLog.Unique (log : JournalLog ι ρ) : Prop :=
  ∀ version version' entry entry', .write entry ∈ log version → .write entry' ∈ log version' →
    entry.id = entry'.id → entry = entry'

theorem JournalLog.Unique.tracks {log : JournalLog ι ρ} (h : log.Unique) (version : Nat) :
    Tracks (fun entry => ∃ version, .write entry ∈ log version) version
      ⟨log.stateAt version, 0⟩ ⟨log.liveAt version, 0⟩ := by
  induction version with
  | zero =>
      refine ⟨rfl, fun _ => rfl, ?_, ?_⟩
      · intro row entry hentry
        simp [JournalLog.liveAt] at hentry
      · intro row entry hentry
        simp [JournalLog.liveAt] at hentry
  | succ version ih =>
      have hstarted : Tracks (fun entry => ∃ version, .write entry ∈ log version) (version + 1)
          ⟨log.stateAt version, 0⟩ ⟨log.liveAt version, 0⟩ :=
        ⟨ih.next, ih.order, ih.entries, ih.written⟩
      have hcalls := hstarted.calls
        (fun entry other ⟨version, hentry⟩ ⟨version', hother⟩ =>
          h version version' entry other hentry hother)
        (fun entry hentry => ⟨version + 1, hentry⟩)
      exact ⟨rfl, hcalls.order, hcalls.entries, hcalls.written⟩

/-! ## Pages of live rows -/

theorem mapM_eq_some {α β : Type*} {read : α → Option β} {value : α → β} {elements : List α}
    (h : ∀ element ∈ elements, read element = some (value element)) :
    elements.mapM read = some (elements.map value) := by
  induction elements with
  | nil => rfl
  | cons element elements ih =>
      have hrest := ih fun other hother => h other (List.mem_cons_of_mem _ hother)
      simp [List.mapM_cons, h element List.mem_cons_self, hrest]

/-- The place of a cursor among the rows after its start. -/
inductive FeedCursor.At (first : Nat) : FeedCursor ι → Option (OrderRow ι) → Prop where
  | committedEnd : FeedCursor.At first (.committedEnd first) none
  | after (row : OrderRow ι) (h : first < rowVersion row) : FeedCursor.At first (.after row) row

theorem FeedCursor.At.contains {first : Nat} {cursor : FeedCursor ι} {after : Option (OrderRow ι)}
    (h : cursor.At first after) (row : OrderRow ι) :
    cursor.contains row = (decide (first < rowVersion row) && after.all (· < row)) := by
  cases h with
  | committedEnd =>
      rw [Bool.eq_iff_iff]
      simp only [FeedCursor.contains, Option.all_none, Bool.and_true, decide_eq_true_eq]
      exact Nat.succ_le_iff
  | after last hlast =>
      rw [Bool.eq_iff_iff]
      simp only [FeedCursor.contains, Option.all_some, decide_eq_true_eq, Bool.and_eq_true]
      exact ⟨fun hrow => ⟨hlast.trans_le (rowVersion_mono hrow.le), hrow⟩, And.right⟩

theorem JournalLog.Unique.localPage {log : JournalLog ι ρ} (h : log.Unique)
    (version pageSize : Nat) {first : Nat} {cursor : FeedCursor ι} {after : Option (OrderRow ι)}
    (hcursor : cursor.At first after) :
    ∃ next, localPage (log.stateAt version) pageSize cursor =
        some ((((log.liveAt version).rowsAfter (first < rowVersion ·) after).take pageSize).map
          Prod.snd, next) ∧
      next.At first (((((log.liveAt version).rowsAfter (first < rowVersion ·) after).take
        pageSize).getLast?.map Prod.fst).or after) := by
  have htracks := h.tracks version
  have hrange : (log.liveAt version).rowsAfter (first < rowVersion ·) after =
      (log.liveAt version).rows cursor.contains := by
    unfold OrderedMap.rowsAfter
    congr 1
    funext row
    exact (hcursor.contains row).symm
  have hrows : (log.stateAt version).localOrder.rows cursor.contains =
      ((log.liveAt version).rows cursor.contains).map fun row => (row.1, ()) :=
    OrderedMap.rows_eq_map htracks.order _
  rw [hrange]
  unfold EventLog.localPage
  dsimp only
  rw [hrows, ← List.map_take]
  have hread : ∀ row ∈ ((log.liveAt version).rows cursor.contains).take pageSize,
      (log.stateAt version).localEntries.get? (rowId row.1) = some row.2 := by
    intro row hrow
    have hmem := (OrderedMap.mem_rows.mp (List.mem_of_mem_take hrow)).2
    obtain ⟨hid, hentry⟩ := htracks.entries row.1 row.2 hmem
    rw [hid]
    exact hentry
  have hentries : ((((log.liveAt version).rows cursor.contains).take pageSize).map
      fun row => (row.1, ())).mapM
        (fun row => (log.stateAt version).localEntries.get? (rowId row.1)) =
      some ((((log.liveAt version).rows cursor.contains).take pageSize).map Prod.snd) := by
    rw [List.mapM_map]
    exact mapM_eq_some hread
  rw [hentries]
  refine ⟨_, rfl, ?_⟩
  rw [List.getLast?_map]
  cases hlast : (((log.liveAt version).rows cursor.contains).take pageSize).getLast? with
  | none => simpa using hcursor
  | some last =>
      have hmem := OrderedMap.mem_rows.mp (List.mem_of_mem_take (List.mem_of_getLast? hlast))
      have hfirst := hmem.1
      rw [hcursor.contains, Bool.and_eq_true, decide_eq_true_eq] at hfirst
      exact .after last.1 hfirst.1

theorem JournalLog.Unique.changes_eq {log : JournalLog ι ρ} (h : log.Unique)
    {pageSize first : Nat} (versions : List Nat) {cursor : FeedCursor ι}
    {after : Option (OrderRow ι)} (hcursor : cursor.At first after) :
    changes log pageSize versions cursor =
      some ((OrderedMap.feedPages log.liveAt (first < rowVersion ·) pageSize versions after).map
        Prod.snd) := by
  induction versions generalizing cursor after with
  | nil => rfl
  | cons version versions ih =>
      obtain ⟨next, hpage, hnext⟩ := h.localPage version pageSize hcursor
      rw [changes, hpage]
      simp [ih hnext, OrderedMap.feedPages]

/-! ## Live rows of different versions -/

def JournalLog.Quiet (log : JournalLog ι ρ) (first last : Nat) : Prop :=
  ∀ version, first < version → version ≤ last → .destroy ∉ log version

section

omit [DecidableEq ρ]

theorem LiveRows.get?_calls {version : Nat} (calls : List (JournalCall ι ρ)) {live : LiveRows ι}
    {row : OrderRow ι} {entry : Entry ι}
    (h : (calls.foldl (LiveRows.call version) live).rows.get? row = some entry) :
    rowVersion row = version ∨ live.rows.get? row = some entry := by
  induction calls generalizing live with
  | nil => exact .inr h
  | cons call calls ih =>
      rcases ih h with hversion | hrow
      · exact .inl hversion
      · cases call with
        | write other =>
            rw [LiveRows.call, OrderedMap.get?_set] at hrow
            split_ifs at hrow with hnew
            · rw [hnew]
              exact .inl rfl
            · exact .inr hrow
        | writeFromRemote incoming => exact .inr hrow
        | destroy => simp [LiveRows.call] at hrow

theorem LiveRows.get?_calls_of_quiet {version : Nat} {calls : List (JournalCall ι ρ)}
    (hquiet : .destroy ∉ calls) {live : LiveRows ι} {row : OrderRow ι} {entry : Entry ι}
    (hversion : rowVersion row ≠ version) (h : live.rows.get? row = some entry) :
    (calls.foldl (LiveRows.call version) live).rows.get? row = some entry := by
  induction calls generalizing live with
  | nil => exact h
  | cons call calls ih =>
      refine ih (fun hmem => hquiet (List.mem_cons_of_mem _ hmem)) ?_
      cases call with
      | write other =>
          rw [LiveRows.call, OrderedMap.get?_set_of_ne]
          · exact h
          · rintro rfl
            exact hversion rfl
      | writeFromRemote incoming => exact h
      | destroy => exact absurd List.mem_cons_self hquiet

variable {log : JournalLog ι ρ}

theorem JournalLog.rowVersion_le_of_liveAt {version : Nat} {row : OrderRow ι} {entry : Entry ι}
    (h : (log.liveAt version).get? row = some entry) : rowVersion row ≤ version := by
  induction version with
  | zero => simp [JournalLog.liveAt] at h
  | succ version ih =>
      rcases LiveRows.get?_calls _ h with hversion | hrow
      · exact hversion.le
      · exact (ih hrow).trans (Nat.le_succ _)

theorem JournalLog.liveAt_of_le {version later : Nat} (hle : version ≤ later) {row : OrderRow ι}
    {entry : Entry ι} (hrow : rowVersion row ≤ version)
    (h : (log.liveAt later).get? row = some entry) :
    (log.liveAt version).get? row = some entry := by
  induction later, hle using Nat.le_induction with
  | base => exact h
  | succ later hle ih =>
      rcases LiveRows.get?_calls _ h with hversion | hbefore
      · omega
      · exact ih hbefore

theorem JournalLog.Quiet.liveAt {version later : Nat} (hquiet : log.Quiet version later)
    (hle : version ≤ later) {row : OrderRow ι} {entry : Entry ι}
    (h : (log.liveAt version).get? row = some entry) :
    (log.liveAt later).get? row = some entry := by
  induction later, hle using Nat.le_induction with
  | base => exact h
  | succ later hle ih =>
      have hrow := JournalLog.rowVersion_le_of_liveAt h
      refine LiveRows.get?_calls_of_quiet (hquiet _ (by omega) le_rfl) (by omega) (ih ?_)
      intro between hfirst hlast
      exact hquiet between hfirst (hlast.trans (Nat.le_succ _))

theorem LiveRows.rows_calls {first version : Nat} (hfirst : first < version)
    (calls : List (JournalCall ι ρ)) {live : LiveRows ι}
    (hbelow : ∀ row entry, live.rows.get? row = some entry →
      ∀ id, row < orderRow version live.next id) :
    ((calls.foldl (LiveRows.call version) live).rows.rows (first < rowVersion ·)).map Prod.snd =
      calls.foldl survive ((live.rows.rows (first < rowVersion ·)).map Prod.snd) := by
  induction calls generalizing live with
  | nil => rfl
  | cons call calls ih =>
      have hnext {user user' : Nat} (hlt : user < user') (id id' : ι) :
          orderRow version user id < orderRow version user' id' :=
        Prod.Lex.toLex_lt_toLex.mpr (.inr ⟨rfl, Prod.Lex.toLex_lt_toLex.mpr (.inl hlt)⟩)
      rw [List.foldl_cons, List.foldl_cons]
      cases call with
      | write entry =>
          rw [ih]
          · rw [LiveRows.call, OrderedMap.rows_set_of_lt, List.map_append]
            · rfl
            · exact decide_eq_true hfirst
            · exact fun row other hother => hbelow row other hother entry.id
          · intro row other hother id
            rw [LiveRows.call, OrderedMap.get?_set] at hother
            split_ifs at hother with hrow
            · rw [hrow]
              exact hnext (Nat.lt_succ_self _) _ _
            · exact (hbelow row other hother id).trans (hnext (Nat.lt_succ_self _) _ _)
      | writeFromRemote incoming =>
          refine ih ?_
          intro row other hother id
          rcases Nat.eq_zero_or_pos incoming.uncommitted.length with hzero | hpos
          · simpa [LiveRows.call, hzero] using hbelow row other hother id
          · exact (hbelow row other hother id).trans (hnext (Nat.lt_add_of_pos_right hpos) _ _)
      | destroy =>
          rw [ih]
          · rfl
          · intro row other hother
            simp [LiveRows.call] at hother

theorem JournalLog.rows_liveAt (log : JournalLog ι ρ) (first version : Nat) :
    ((log.liveAt version).rows (first < rowVersion ·)).map Prod.snd =
      log.surviving first version := by
  induction version with
  | zero =>
      rw [JournalLog.surviving, Nat.zero_sub]
      rfl
  | succ version ih =>
      rcases Nat.lt_or_ge version first with hlt | hge
      · have hnone : (log.liveAt (version + 1)).rows (first < rowVersion ·) = [] := by
          rw [List.eq_nil_iff_forall_not_mem]
          rintro ⟨row, entry⟩ hrow
          obtain ⟨hrange, hget⟩ := OrderedMap.mem_rows.mp hrow
          have hle := JournalLog.rowVersion_le_of_liveAt hget
          rw [decide_eq_true_eq] at hrange
          omega
        rw [hnone, JournalLog.surviving, Nat.sub_eq_zero_of_le hlt]
        rfl
      · have hstep : log.surviving first (version + 1) =
            (log (version + 1)).foldl survive (log.surviving first version) := by
          unfold JournalLog.surviving
          rw [Nat.succ_sub hge, List.range'_1_concat, List.foldl_append]
          have hlast : first + 1 + (version - first) = version + 1 := by omega
          rw [hlast]
          rfl
        rw [hstep, ← ih]
        refine LiveRows.rows_calls (Nat.lt_succ_of_le hge) (log (version + 1)) ?_
        intro row entry hentry id
        have hle := JournalLog.rowVersion_le_of_liveAt hentry
        exact Prod.Lex.toLex_lt_toLex.mpr (.inl (Nat.lt_succ_of_le hle))

end

/-! ## The feed -/

def keepsRows : JournalCall ι ρ → Bool
  | .destroy => false
  | _ => true

def JournalLog.undestroyed (log : JournalLog ι ρ) : JournalLog ι ρ := fun version =>
  (log version).filter keepsRows

section

omit [DecidableEq ρ]

variable {log : JournalLog ι ρ}

omit [LinearOrder ι] in
theorem JournalLog.quiet_undestroyed (log : JournalLog ι ρ) (first last : Nat) :
    log.undestroyed.Quiet first last := by
  intro version _ _ hmem
  simpa [keepsRows] using (List.mem_filter.mp hmem).2

/-- The same transaction over more rows. -/
structure LiveRows.Within (live live' : LiveRows ι) : Prop where
  next : live.next = live'.next
  rows : ∀ row entry, live.rows.get? row = some entry → live'.rows.get? row = some entry

theorem LiveRows.Within.calls_undestroyed {version : Nat} (calls : List (JournalCall ι ρ))
    {live live' : LiveRows ι} (h : live.Within live') :
    (calls.foldl (LiveRows.call version) live).Within
      ((calls.filter keepsRows).foldl (LiveRows.call version) live') := by
  induction calls generalizing live live' with
  | nil => exact h
  | cons call calls ih =>
      cases call with
      | write other =>
          refine ih ⟨congrArg (· + 1) h.next, ?_⟩
          intro row entry hentry
          rw [LiveRows.call, OrderedMap.get?_set] at hentry ⊢
          rw [← h.next]
          split_ifs at hentry ⊢
          · exact hentry
          · exact h.rows row entry hentry
      | writeFromRemote incoming =>
          exact ih ⟨congrArg (· + incoming.uncommitted.length) h.next, h.rows⟩
      | destroy =>
          have hcleared : (live.call version (.destroy : JournalCall ι ρ)).Within live' := by
            refine ⟨h.next, ?_⟩
            intro row entry hentry
            simp [LiveRows.call] at hentry
          exact ih hcleared

theorem JournalLog.liveAt_undestroyed (version : Nat) {row : OrderRow ι} {entry : Entry ι}
    (h : (log.liveAt version).get? row = some entry) :
    (log.undestroyed.liveAt version).get? row = some entry := by
  induction version generalizing row entry with
  | zero => exact h
  | succ version ih =>
      have hwithin : LiveRows.Within ⟨log.liveAt version, 0⟩ ⟨log.undestroyed.liveAt version, 0⟩ :=
        ⟨rfl, fun _ _ hentry => ih hentry⟩
      exact (hwithin.calls_undestroyed (log (version + 1))).rows row entry h

omit [LinearOrder ι] in
theorem survive_of_quiet {calls : List (JournalCall ι ρ)} (h : .destroy ∉ calls)
    (survivors : List (Entry ι)) :
    calls.foldl survive survivors = survivors ++ calls.filterMap localWrite := by
  induction calls generalizing survivors with
  | nil => simp
  | cons call calls ih =>
      have hrest := ih fun hmem => h (List.mem_cons_of_mem _ hmem)
      cases call with
      | write entry => simp [hrest, survive, localWrite]
      | writeFromRemote incoming => simp [hrest, survive, localWrite, List.filterMap_cons]
      | destroy => simp at h

omit [LinearOrder ι] in
theorem JournalLog.Quiet.surviving {first last : Nat} (h : log.Quiet first last) :
    log.surviving first last = log.written first last := by
  have hfold (versions : List Nat) (hversions : ∀ version ∈ versions, .destroy ∉ log version)
      (survivors : List (Entry ι)) :
      versions.foldl (fun survivors version => (log version).foldl survive survivors) survivors =
        survivors ++ versions.flatMap fun version => (log version).filterMap localWrite := by
    induction versions generalizing survivors with
    | nil => simp
    | cons version versions ih =>
        have hversion := hversions version (by simp)
        rw [List.foldl_cons, ih fun other hother =>
          hversions other (List.mem_cons_of_mem _ hother), survive_of_quiet hversion,
          List.flatMap_cons, List.append_assoc]
  refine hfold _ ?_ []
  intro version hversion
  rw [List.mem_range'_1] at hversion
  exact h version (by omega) (by omega)

omit [LinearOrder ι] in
theorem JournalLog.written_undestroyed (log : JournalLog ι ρ) (first last : Nat) :
    log.undestroyed.written first last = log.written first last := by
  unfold JournalLog.written JournalLog.undestroyed
  congr 1
  funext version
  rw [List.filterMap_filter]
  congr 1
  funext call
  cases call <;> rfl

/-- The rows written after a version in the order of their commits, and in one commit in the order
of their calls. -/
theorem JournalLog.rows_undestroyed (log : JournalLog ι ρ) (first last : Nat) :
    ((log.undestroyed.liveAt last).rows (first < rowVersion ·)).map Prod.snd =
      log.written first last := by
  rw [JournalLog.rows_liveAt, (log.quiet_undestroyed first last).surviving,
    JournalLog.written_undestroyed]

theorem JournalLog.rows_prefix {version later first : Nat} (hquiet : log.Quiet version later)
    (hle : version ≤ later) :
    (log.liveAt version).rows (first < rowVersion ·) <+:
      (log.liveAt later).rows (first < rowVersion ·) := by
  refine OrderedMap.rows_prefix (fun row entry => hquiet.liveAt hle) ?_
  intro row entry row' entry' hentry hentry' hrow
  refine JournalLog.liveAt_of_le hle ?_ hentry
  exact (rowVersion_mono hrow).trans (JournalLog.rowVersion_le_of_liveAt hentry')

/-- No page misses a row that no later destroy removes. -/
theorem JournalLog.covers {version last first read : Nat} (hquiet : log.Quiet version last)
    (hread : read ≤ last) :
    OrderedMap.Covers log.liveAt (first < rowVersion ·)
      ((log.liveAt version).rows (first < rowVersion ·)) read := by
  rintro ⟨row, entry⟩ hrow ⟨other, entry'⟩ hother hle
  obtain ⟨hrange, hentry⟩ := OrderedMap.mem_rows.mp hrow
  refine OrderedMap.mem_rows.mpr ⟨hrange, ?_⟩
  rcases Nat.le_total read version with hbefore | hafter
  · refine JournalLog.liveAt_of_le hbefore ?_ hentry
    have hversion := JournalLog.rowVersion_le_of_liveAt (OrderedMap.mem_rows.mp hother).2
    exact (rowVersion_mono hle).trans hversion
  · refine JournalLog.Quiet.liveAt ?_ hafter hentry
    intro between hfirst hlast
    exact hquiet between hfirst (hlast.trans hread)

end

/-- What a subscriber is handed whose pages are read at some versions up to a last one: entries
written after its start, in the order of their rows and each once. Once there are enough pages
from a version on after which no destroy commits, it has been handed all that had survived at
that version. Where no destroy commits after the start, it is handed the first of what was
written since, and once there are enough pages from a version on, all that was written by it. -/
theorem changes_complete (log : JournalLog ι ρ) (hunique : log.Unique) (pageSize first last : Nat)
    (versions : List Nat) (hversions : ∀ version ∈ versions, first ≤ version ∧ version ≤ last) :
    ∃ delivered, changes log pageSize versions (.committedEnd first) = some delivered ∧
      delivered.Sublist (log.written first last) ∧
      (∀ version, version ≤ last → log.Quiet version last →
        (log.surviving first version).length ≤ pageSize * versions.countP (version ≤ ·) →
        (log.surviving first version).Sublist delivered) ∧
      (log.Quiet first last → delivered <+: log.written first last ∧
        ∀ version, first ≤ version → version ≤ last →
          (log.written first version).length ≤ pageSize * versions.countP (version ≤ ·) →
          log.written first version <+: delivered) := by
  have hsurvivors : ∀ version, version ≤ last → log.Quiet version last →
      (log.surviving first version).length ≤ pageSize * versions.countP (version ≤ ·) →
      (log.surviving first version).Sublist ((OrderedMap.feedPages log.liveAt
        (first < rowVersion ·) pageSize versions none).map Prod.snd) := by
    intro version hle hquiet hcount
    rw [← log.rows_liveAt] at hcount ⊢
    refine List.Sublist.map _ (List.sublist_of_subperm_of_pairwise (List.subperm_of_subset ?_ ?_)
      (OrderedMap.rows_sorted _ _) (OrderedMap.feedPages_sorted versions none))
    · exact (OrderedMap.rows_sorted _ _).imp fun hlt heq => hlt.ne (congrArg Prod.fst heq)
    · intro row hrow
      refine OrderedMap.feedPages_complete (version ≤ ·) versions ?_ ?_ ?_ hrow rfl
      · intro read hread hfull
        refine JournalLog.rows_prefix ?_ (of_decide_eq_true hfull)
        intro between hfirst hlast
        exact hquiet between hfirst (hlast.trans (hversions read hread).2)
      · exact fun read hread => JournalLog.covers hquiet (hversions read hread).2
      · rw [List.length_map] at hcount
        simpa using hcount
  refine ⟨_, hunique.changes_eq versions .committedEnd, ?_, hsurvivors, ?_⟩
  · rw [← log.rows_undestroyed]
    refine (OrderedMap.feedPages_sublist versions none (OrderedMap.rows_sorted _ _) ?_).map _
    intro version hversion row hrow
    obtain ⟨hrange, hentry⟩ := OrderedMap.mem_rows.mp hrow
    refine OrderedMap.mem_rows.mpr ⟨hrange, ?_⟩
    exact (log.quiet_undestroyed version last).liveAt (hversions version hversion).2
      (JournalLog.liveAt_undestroyed version hentry)
  · intro hquiet
    have hfront : (OrderedMap.feedPages log.liveAt (first < rowVersion ·) pageSize versions
        none).map Prod.snd <+: log.written first last := by
      rw [← hquiet.surviving, ← log.rows_liveAt]
      refine (OrderedMap.feedPages_prefix versions (OrderedMap.rows_sorted _ _) ?_ ?_).map _
      · intro version hversion
        obtain ⟨hfirst, hlast⟩ := hversions version hversion
        refine (JournalLog.rows_prefix ?_ hlast).subset
        exact fun between hbetween => hquiet between (hfirst.trans_lt hbetween)
      · intro version hversion
        exact JournalLog.covers (fun between hlt hle => absurd hle hlt.not_ge)
          (hversions version hversion).2
    refine ⟨hfront, ?_⟩
    intro version hfirst hlast hcount
    have hbefore : log.Quiet first version := fun between hlt hle =>
      hquiet between hlt (hle.trans hlast)
    have hafter : log.Quiet version last := fun between hlt =>
      hquiet between (hfirst.trans_lt hlt)
    have hwritten : log.written first version <+: log.written first last := by
      rw [← hbefore.surviving, ← hquiet.surviving, ← log.rows_liveAt, ← log.rows_liveAt]
      exact (JournalLog.rows_prefix hafter hlast).map _
    have hsublist := hsurvivors version hlast hafter (hbefore.surviving ▸ hcount)
    rw [hbefore.surviving] at hsublist
    exact List.prefix_of_prefix_length_le hwritten hfront hsublist.length_le

/-- Three local writes in two transactions, and a destroy with one more. -/
def shortLog : JournalLog Nat Nat
  | 1 => [.write ⟨7, "event", "key", []⟩]
  | 2 => [.write ⟨5, "event", "key", []⟩, .write ⟨3, "event", "key", []⟩]
  | 4 => [.destroy, .write ⟨9, "event", "key", []⟩]
  | _ => []

theorem changes_complete_shortLog :
    ∃ delivered, changes shortLog 1 [2, 3, 4, 4] (.committedEnd 1) = some delivered ∧
      delivered.Sublist (shortLog.written 1 4) ∧
      (∀ version, version ≤ 4 → shortLog.Quiet version 4 →
        (shortLog.surviving 1 version).length ≤ 1 * [2, 3, 4, 4].countP (version ≤ ·) →
        (shortLog.surviving 1 version).Sublist delivered) ∧
      (shortLog.Quiet 1 4 → delivered <+: shortLog.written 1 4 ∧
        ∀ version, 1 ≤ version → version ≤ 4 →
          (shortLog.written 1 version).length ≤ 1 * [2, 3, 4, 4].countP (version ≤ ·) →
          shortLog.written 1 version <+: delivered) := by
  have hentry : ∀ version entry, .write entry ∈ shortLog version →
      entry = ⟨entry.id, "event", "key", []⟩ := by
    intro version entry hmem
    unfold shortLog at hmem
    split at hmem <;> simp at hmem
    · rw [hmem]
    · rcases hmem with rfl | rfl <;> rfl
    · rw [hmem]
  refine changes_complete shortLog ?_ 1 1 4 [2, 3, 4, 4] (by decide)
  intro version version' entry entry' h h' hid
  rw [hentry version entry h, hentry version' entry' h', hid]

example : (changes shortLog 1 [2, 3, 4, 4] (.committedEnd 1)).map (List.map Entry.id) =
    some [5, 3, 9] := by
  decide

end

end FoundationDbEffect.EventLog
