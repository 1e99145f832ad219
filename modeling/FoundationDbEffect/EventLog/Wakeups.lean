import FoundationDbEffect.EventLog.ChangeFeed
import FoundationDbEffect.EventLog.ServerStreams
import FoundationDbEffect.Foundation.Fallible
import FoundationDbEffect.Foundation.Signal

/-!
# Wake-ups of event feeds

A page that has found nothing watches the signal of its feed as of its snapshot. Transactions
hold any number of calls to the servers and the journal. A call that adds an entry to a feed
increments the signal of the feed, and a destroy of the journal leaves it.
-/

namespace FoundationDbEffect.EventLog.Server

open FoundationDbEffect.Foundation

section

variable {θ σ ι τ : Type} [LinearOrder θ] [LinearOrder σ] [LinearOrder ι]

/-! ## Server writes -/

def TenantBumps {ε : Type} (limit : Nat) (rows next : Rows θ ι ε) (tenant : θ) : Prop :=
  Bumps limit (∀ sequence, (next.sequences.get? (toLex (tenant, sequence))).isSome →
      (rows.sequences.get? (toLex (tenant, sequence))).isSome)
    ((rows.signals.get? tenant).getD 0) ((next.signals.get? tenant).getD 0)

theorem SameTenant.bumps {ε : Type} {rows next : Rows θ ι ε} {tenant : θ}
    (h : SameTenant rows next tenant) (limit : Nat) : TenantBumps limit rows next tenant := by
  rw [TenantBumps, h.signals]
  refine .silent fun sequence hsequence => ?_
  rwa [h.sequences] at hsequence

structure Appends {ε : Type} (rows next : Rows θ ι ε) (tenant : θ) (written : List ε) : Prop where
  signals : next.signals = rows.signals
  none : written = [] → next = rows
  others : ∀ other, other ≠ tenant → SameTenant rows next other

theorem Appends.bumps {ε : Type} {rows next : Rows θ ι ε} {tenant : θ} {written : List ε}
    (h : Appends rows next tenant written) (value : Nat) (other : θ) :
    TenantBumps (if tenant = other then 1 else 0) rows
      (if 0 < written.length then (next.setNumber tenant value).notify tenant else next) other := by
  by_cases hother : tenant = other
  · subst hother
    rw [if_pos rfl]
    split
    · refine ⟨1, le_rfl, ?_, fun hzero => by simp at hzero⟩
      simp [Rows.notify, Rows.setNumber, h.signals, bump]
    · next hnone =>
        rw [h.none (List.length_eq_zero_iff.mp (Nat.eq_zero_of_not_pos hnone))]
        exact .silent fun _ hsequence => hsequence
  · have hsame := h.others other (Ne.symm hother)
    rw [if_neg hother]
    split
    · exact (hsame.trans (setNumber_sameTenant (Ne.symm hother) value)).bumps _
    · exact hsame.bumps _

theorem appends_appendEncrypted (idString : ι → String) (tenant : θ)
    (pairs : List (PersistedEntry ι τ × Bool)) (seen : List String) (sequence : Nat)
    (rows : Rows θ ι (EncryptedRemoteEntry ι τ)) :
    Appends rows (appendEncrypted idString tenant pairs seen sequence rows).1 tenant
      (appendEncrypted idString tenant pairs seen sequence rows).2.2 := by
  induction pairs generalizing seen sequence rows with
  | nil => exact ⟨rfl, fun _ => rfl, fun other _ => .refl rows other⟩
  | cons pair pairs ih =>
      obtain ⟨entry, existing⟩ := pair
      rw [appendEncrypted]
      split
      · exact ih seen sequence rows
      · obtain ⟨hsignals, -, hothers⟩ := ih (idString entry.entryId :: seen) (sequence + 1)
          (rows.append tenant sequence entry.entryId { entry with sequence })
        refine ⟨hsignals, fun hnil => by simp at hnil, fun other hother => ?_⟩
        exact (append_sameTenant hother _ _ _).trans (hothers other hother)

theorem appends_appendPlain (idString : ι → String) (store : σ) (pairs : List (Entry ι × Bool))
    (seen : List String) (sequence : Nat) {state next : PlainRows σ ι} {last : Nat}
    {written : List (RemoteEntry ι)}
    (h : appendPlain idString store pairs seen sequence state = .ok (next, last, written)) :
    Appends state.rows next.rows store written ∧ (written = [] → next = state) := by
  induction pairs generalizing seen sequence state written with
  | nil =>
      cases h
      exact ⟨⟨rfl, fun _ => rfl, fun other _ => .refl _ other⟩, fun _ => rfl⟩
  | cons pair pairs ih =>
      obtain ⟨entry, existing⟩ := pair
      rw [appendPlain] at h
      split at h
      · cases h
      · obtain ⟨⟨rest, last', written'⟩, hrest, hok⟩ := bind_eq_ok.mp h
        cases hok
        obtain ⟨⟨hsignals, -, hothers⟩, -⟩ := ih _ _ hrest
        refine ⟨⟨hsignals, fun hnil => by simp at hnil, fun other hother => ?_⟩,
          fun hnil => by simp at hnil⟩
        exact (append_sameTenant hother _ _ _).trans (hothers other hother)

theorem writeEncrypted_bumps (idString : ι → String) (options : RepositoryOptions) (tenant : θ)
    (entries : List (PersistedEntry ι τ)) (rows : Rows θ ι (EncryptedRemoteEntry ι τ))
    (other : θ) :
    TenantBumps (if tenant = other then 1 else 0) rows
      (writeEncrypted idString options tenant entries rows).1 other := by
  have happends := appends_appendEncrypted idString tenant (entries.zip (hasMany options rows.ids
    (entries.map fun entry => toLex (tenant, entry.entryId)))) [] (rows.number tenant 0) rows
  unfold writeEncrypted
  dsimp only
  generalize appendEncrypted idString tenant (entries.zip (hasMany options rows.ids
    (entries.map fun entry => toLex (tenant, entry.entryId)))) [] (rows.number tenant 0) rows =
    appended at happends
  obtain ⟨next, last, written⟩ := appended
  have hbumps := happends.bumps last other
  dsimp only at hbumps ⊢
  by_cases hsome : 0 < written.length
  · rwa [if_pos hsome] at hbumps ⊢
  · rwa [if_neg hsome] at hbumps ⊢

theorem writePlain_bumps {idString : ι → String} {options : RepositoryOptions} {store : σ}
    {entries : List (Entry ι)} {state next : PlainRows σ ι} {written : List (RemoteEntry ι)}
    (h : writePlain idString options store entries state = .ok (next, written)) (other : σ) :
    TenantBumps (if store = other then 1 else 0) state.rows next.rows other := by
  unfold writePlain at h
  obtain ⟨⟨appended, last, written'⟩, happend, hok⟩ := bind_eq_ok.mp h
  have hbumps := (appends_appendPlain _ _ _ _ _ happend).1.bumps last other
  dsimp only at hok
  by_cases hsome : 0 < written'.length
  · rw [if_pos hsome] at hok hbumps
    cases hok
    exact hbumps
  · rw [if_neg hsome] at hok hbumps
    cases hok
    exact hbumps

end

end FoundationDbEffect.EventLog.Server

namespace FoundationDbEffect.EventLog

open FoundationDbEffect.Foundation
open FoundationDbEffect.EventLog.Server

section

variable {θ σ ι τ ρ : Type} [LinearOrder θ] [LinearOrder σ] [LinearOrder ι] [DecidableEq ρ]

/-! ## Transactions -/

structure EventLogs (θ σ ι τ ρ : Type) [LinearOrder θ] [LinearOrder σ] [LinearOrder ι]
    [DecidableEq ρ] where
  version : Nat := 0
  server : ServerState θ σ ι τ := {}
  journal : JournalState ι ρ := .empty

inductive EventLogCall (θ σ ι τ ρ : Type) where
  | server (call : ServerCall θ σ ι τ)
  | journal (call : JournalCall ι ρ)

structure Committing (θ σ ι τ ρ : Type) [LinearOrder θ] [LinearOrder σ] [LinearOrder ι]
    [DecidableEq ρ] where
  logs : EventLogs θ σ ι τ ρ
  next : Nat

def Committing.call (idString : ι → String) (version : Nat)
    (committing : Committing θ σ ι τ ρ) :
    EventLogCall θ σ ι τ ρ → Except String (Committing θ σ ι τ ρ)
  | .server call => do
      let server ← committing.logs.server.call idString call
      .ok { committing with logs := { committing.logs with server } }
  | .journal call =>
      let writing : Writing ι ρ :=
        Writing.call version ⟨committing.logs.journal, committing.next⟩ call
      .ok ⟨{ committing.logs with journal := writing.state }, writing.next⟩

def EventLogs.commit (idString : ι → String) (version : Nat) (logs : EventLogs θ σ ι τ ρ)
    (calls : List (EventLogCall θ σ ι τ ρ)) : Except String (EventLogs θ σ ι τ ρ) := do
  let committing ← calls.foldlM (Committing.call idString version) ⟨logs, 0⟩
  .ok { committing.logs with version }

def CommitStep (idString : ι → String) (logs : EventLogs θ σ ι τ ρ)
    (label : Nat × List (EventLogCall θ σ ι τ ρ)) (next : EventLogs θ σ ι τ ρ) : Prop :=
  logs.version < label.1 ∧ logs.commit idString label.1 label.2 = .ok next

/-! ## Feeds -/

inductive Feed (θ σ : Type) where
  | encrypted (tenant : θ)
  | plain (store : σ)
  | journal
  deriving DecidableEq

inductive FeedRow (ι : Type) where
  | sequence (number : Nat)
  | stamped (row : OrderRow ι)

inductive FeedPlace (ι : Type) where
  | sequence (next : Nat)
  | cursor (begin : FeedCursor ι)

def FeedPlace.Contains : FeedPlace ι → FeedRow ι → Prop
  | .sequence next, .sequence number => next ≤ number
  | .cursor begin, .stamped row => begin.contains row
  | _, _ => False

def EventLogs.Lists (logs : EventLogs θ σ ι τ ρ) : Feed θ σ → FeedRow ι → Prop
  | .encrypted tenant, .sequence number =>
      (logs.server.encrypted.sequences.get? (toLex (tenant, number))).isSome
  | .plain store, .sequence number =>
      (logs.server.plain.rows.sequences.get? (toLex (store, number))).isSome
  | .journal, .stamped row => (logs.journal.localOrder.get? row).isSome
  | _, _ => False

def EventLogs.signal (logs : EventLogs θ σ ι τ ρ) : Feed θ σ → BitVec 64
  | .encrypted tenant => (logs.server.encrypted.signals.get? tenant).getD 0
  | .plain store => (logs.server.plain.rows.signals.get? store).getD 0
  | .journal => logs.journal.localSignal

/-- The signal that a page transaction watches: its page is empty and its stream goes on. -/
def EventLogs.watch (logs : EventLogs θ σ ι τ ρ) (options : RepositoryOptions)
    (until? : Option Nat) (feed : Feed θ σ) (place : FeedPlace ι) : Option (BitVec 64) :=
  match feed, place with
  | .encrypted tenant, .sequence next =>
      match feedPage options tenant until? logs.server.encrypted next with
      | .ok ([], some _) => some (logs.signal feed)
      | _ => none
  | .plain store, .sequence next =>
      match feedPage options store until? logs.server.plain.rows next with
      | .ok ([], some _) => some (logs.signal feed)
      | _ => none
  | .journal, .cursor begin =>
      match localPage logs.journal options.pageSize begin with
      | some ([], _) => some (logs.signal feed)
      | _ => none
  | _, _ => none

def EventLogCall.feed : EventLogCall θ σ ι τ ρ → Option (Feed θ σ)
  | .server (.writeEncrypted _ tenant _) => some (.encrypted tenant)
  | .server (.writePlain _ store _) => some (.plain store)
  | .journal (.write _) => some .journal
  | .journal (.writeFromRemote _) => none
  | .journal .destroy => none

def writesTo (feed : Feed θ σ) (label : Nat × List (EventLogCall θ σ ι τ ρ)) : Nat :=
  label.2.countP fun call => call.feed = some feed

def AddsRow (feed : Feed θ σ) (place : FeedPlace ι) (logs next : EventLogs θ σ ι τ ρ) : Prop :=
  ∃ row, place.Contains row ∧ next.Lists feed row ∧ ¬ logs.Lists feed row

/-! ## Calls -/

/-- The feed gets rows only with an increment of its signal. -/
def FeedBumps (limit : Nat) (logs next : EventLogs θ σ ι τ ρ) (feed : Feed θ σ) : Prop :=
  Bumps limit (∀ row, next.Lists feed row → logs.Lists feed row) (logs.signal feed)
    (next.signal feed)

variable {logs next : EventLogs θ σ ι τ ρ} {feed : Feed θ σ}

theorem FeedBumps.refl (logs : EventLogs θ σ ι τ ρ) (feed : Feed θ σ) (limit : Nat) :
    FeedBumps limit logs logs feed :=
  .silent fun _ hrow => hrow

theorem FeedBumps.trans {third : EventLogs θ σ ι τ ρ} {limit limit' : Nat}
    (h : FeedBumps limit logs next feed) (h' : FeedBumps limit' next third feed) :
    FeedBumps (limit + limit') logs third feed :=
  (Bumps.trans h h').mono le_rfl fun hquiet row hrow => hquiet.1 row (hquiet.2 row hrow)

theorem feedBumps_encrypted {limit : Nat} {tenant : θ}
    (h : TenantBumps limit logs.server.encrypted next.server.encrypted tenant) :
    FeedBumps limit logs next (.encrypted tenant) := by
  refine Bumps.mono h le_rfl fun hquiet row hrow => ?_
  cases row with
  | sequence number => exact hquiet number hrow
  | stamped row => exact hrow.elim

theorem feedBumps_plain {limit : Nat} {store : σ}
    (h : TenantBumps limit logs.server.plain.rows next.server.plain.rows store) :
    FeedBumps limit logs next (.plain store) := by
  refine Bumps.mono h le_rfl fun hquiet row hrow => ?_
  cases row with
  | sequence number => exact hquiet number hrow
  | stamped row => exact hrow.elim

theorem feedBumps_journal (limit : Nat)
    (horder : ∀ row, (next.journal.localOrder.get? row).isSome →
      (logs.journal.localOrder.get? row).isSome)
    (hsignal : next.journal.localSignal = logs.journal.localSignal) :
    FeedBumps limit logs next (.journal : Feed θ σ) := by
  rw [FeedBumps, EventLogs.signal, EventLogs.signal, hsignal]
  refine .silent fun row hrow => ?_
  cases row with
  | sequence number => exact hrow.elim
  | stamped row => exact horder row hrow

theorem journalCall_bumps (version : Nat) (committing : Committing θ σ ι τ ρ)
    (call : JournalCall ι ρ) (journal : JournalState ι ρ)
    (hjournal : journal = (Writing.call version ⟨committing.logs.journal, committing.next⟩
      call).state) :
    FeedBumps (if (EventLogCall.journal call : EventLogCall θ σ ι τ ρ).feed =
      some (.journal : Feed θ σ) then 1 else 0) committing.logs
      { committing.logs with journal } .journal := by
  cases call with
  | write entry =>
      rw [EventLogCall.feed, if_pos rfl]
      refine ⟨1, le_rfl, ?_, fun hzero => by simp at hzero⟩
      rw [hjournal]
      rfl
  | writeFromRemote incoming =>
      obtain ⟨-, horder, -, hsignal⟩ := call_writeFromRemote version
        ⟨committing.logs.journal, committing.next⟩ incoming
      rw [← hjournal] at horder hsignal
      refine feedBumps_journal _ ?_ hsignal
      intro row hrow
      rwa [horder] at hrow
  | destroy =>
      subst hjournal
      refine feedBumps_journal _ ?_ rfl
      intro row hrow
      cases hrow

theorem call_bumps {idString : ι → String} {version : Nat}
    {committing after : Committing θ σ ι τ ρ} {call : EventLogCall θ σ ι τ ρ}
    (h : committing.call idString version call = .ok after) (feed : Feed θ σ) :
    FeedBumps (if call.feed = some feed then 1 else 0) committing.logs after.logs feed := by
  cases call with
  | server call =>
      obtain ⟨server, hserver, hok⟩ := bind_eq_ok.mp h
      cases hok
      cases call with
      | writeEncrypted options tenant entries =>
          cases hserver
          cases feed with
          | encrypted other =>
              have hbumps := writeEncrypted_bumps idString options tenant entries
                committing.logs.server.encrypted other
              simp only [EventLogCall.feed, Option.some.injEq, Feed.encrypted.injEq]
              exact feedBumps_encrypted hbumps
          | plain store => exact feedBumps_plain (.silent fun _ hrow => hrow)
          | journal => exact feedBumps_journal _ (fun _ hrow => hrow) rfl
      | writePlain options store entries =>
          obtain ⟨⟨plain, written⟩, hwrite, hok⟩ := bind_eq_ok.mp hserver
          cases hok
          cases feed with
          | encrypted tenant => exact feedBumps_encrypted (.silent fun _ hrow => hrow)
          | plain other =>
              have hbumps := writePlain_bumps hwrite other
              simp only [EventLogCall.feed, Option.some.injEq, Feed.plain.injEq]
              exact feedBumps_plain hbumps
          | journal => exact feedBumps_journal _ (fun _ hrow => hrow) rfl
  | journal call =>
      cases h
      cases feed with
      | encrypted tenant => exact feedBumps_encrypted (.silent fun _ hrow => hrow)
      | plain store => exact feedBumps_plain (.silent fun _ hrow => hrow)
      | journal => exact journalCall_bumps version committing call _ rfl

theorem calls_bumps {idString : ι → String} {version : Nat}
    {calls : List (EventLogCall θ σ ι τ ρ)} {committing after : Committing θ σ ι τ ρ}
    (h : calls.foldlM (Committing.call idString version) committing = .ok after)
    (feed : Feed θ σ) :
    FeedBumps (calls.countP fun call => call.feed = some feed) committing.logs after.logs feed := by
  induction calls generalizing committing with
  | nil =>
      cases h
      exact .refl _ feed 0
  | cons call calls ih =>
      rw [List.foldlM_cons] at h
      obtain ⟨middle, hfirst, hrest⟩ := bind_eq_ok.mp h
      refine ((call_bumps hfirst feed).trans (ih hrest)).mono ?_ fun hquiet => hquiet
      simp only [List.countP_cons, decide_eq_true_eq]
      omega

/-- A transaction that adds a row to a feed increments the signal of the feed. -/
theorem CommitStep.bumps {idString : ι → String}
    {label : Nat × List (EventLogCall θ σ ι τ ρ)} (h : CommitStep idString logs label next)
    (feed : Feed θ σ) : FeedBumps (writesTo feed label) logs next feed := by
  obtain ⟨committing, hcalls, hok⟩ := bind_eq_ok.mp h.2
  cases hok
  exact (calls_bumps hcalls feed).mono le_rfl fun hquiet => hquiet

/-! ## Pages -/

theorem page_eq_nil {ε : Type} {rows : Rows θ ι ε} {options : RepositoryOptions} {tenant : θ}
    {next number : Nat} (h : rows.page options tenant next = []) (hle : next ≤ number) :
    ¬ (rows.sequences.get? (toLex (tenant, number))).isSome := by
  intro hsome
  obtain ⟨mark, hmark⟩ := Option.isSome_iff_exists.mp hsome
  have hmem : (toLex (tenant, number), mark) ∈ rows.sequences.rows (sequencesFrom tenant next) :=
    OrderedMap.mem_rows.mpr ⟨by simp [sequencesFrom, hle], hmark⟩
  rw [Rows.page, List.map_eq_nil_iff, List.take_eq_nil_iff] at h
  rcases h with hzero | hnil
  · exact options.pageSize_pos.ne' hzero
  · simp [hnil] at hmem

theorem feedPage_empty {ε : Type} {rows : Rows θ ι ε} {options : RepositoryOptions} {tenant : θ}
    {until? : Option Nat} {next cursor : Nat}
    (h : feedPage options tenant until? rows next = .ok ([], some cursor)) :
    rows.page options tenant next = [] := by
  unfold feedPage at h
  obtain ⟨output, houtput, hok⟩ := bind_eq_ok.mp h
  injection hok with hok
  obtain ⟨rfl, hcursor⟩ := Prod.mk.inj hok
  have hlength := (forall₂_of_mapM houtput).length_eq
  cases until? with
  | none =>
      rw [List.length_nil, List.length_eq_zero_iff, List.filter_eq_nil_iff] at hlength
      exact List.eq_nil_iff_forall_not_mem.mpr fun number hnumber => by
        simpa using hlength number hnumber
  | some limit => simp at hcursor

omit [DecidableEq ρ] in
theorem localPage_empty {state : JournalState ι ρ} {pageSize : Nat} (hpage : 0 < pageSize)
    {begin next : FeedCursor ι} (h : localPage state pageSize begin = some ([], next))
    {row : OrderRow ι} (hrow : begin.contains row) : ¬ (state.localOrder.get? row).isSome := by
  intro hsome
  obtain ⟨mark, hmark⟩ := Option.isSome_iff_exists.mp hsome
  have hmem : (row, mark) ∈ state.localOrder.rows begin.contains :=
    OrderedMap.mem_rows.mpr ⟨hrow, hmark⟩
  unfold localPage at h
  obtain ⟨entries, hentries, hresult⟩ := Option.map_eq_some_iff.mp h
  obtain ⟨rfl, -⟩ := Prod.mk.inj hresult
  have hnil : (state.localOrder.rows begin.contains).take pageSize = [] := by
    cases hrows : (state.localOrder.rows begin.contains).take pageSize with
    | nil => rfl
    | cons first rest =>
        rw [hrows] at hentries
        simp [List.mapM_cons, Option.bind_eq_some_iff] at hentries
  rcases List.take_eq_nil_iff.mp hnil with hzero | hempty
  · exact hpage.ne' hzero
  · simp [hempty] at hmem

/-- A watch means that the page has found nothing, and it is of the signal of its snapshot. -/
theorem watch_spec {options : RepositoryOptions} {until? : Option Nat} {place : FeedPlace ι}
    {signal : BitVec 64} (h : logs.watch options until? feed place = some signal) :
    (∀ row, place.Contains row → ¬ logs.Lists feed row) ∧ signal = logs.signal feed := by
  cases feed with
  | encrypted tenant =>
      cases place with
      | cursor begin => cases h
      | sequence next =>
          rw [EventLogs.watch] at h
          split at h
          · next cursor hpage =>
              refine ⟨fun row hrow => ?_, (Option.some.inj h).symm⟩
              cases row with
              | sequence number => exact page_eq_nil (feedPage_empty hpage) hrow
              | stamped row => exact hrow.elim
          · cases h
  | plain store =>
      cases place with
      | cursor begin => cases h
      | sequence next =>
          rw [EventLogs.watch] at h
          split at h
          · next cursor hpage =>
              refine ⟨fun row hrow => ?_, (Option.some.inj h).symm⟩
              cases row with
              | sequence number => exact page_eq_nil (feedPage_empty hpage) hrow
              | stamped row => exact hrow.elim
          · cases h
  | journal =>
      cases place with
      | sequence next => cases h
      | cursor begin =>
          rw [EventLogs.watch] at h
          split at h
          · next cursor hpage =>
              refine ⟨fun row hrow => ?_, (Option.some.inj h).symm⟩
              cases row with
              | sequence number => exact hrow.elim
              | stamped row => exact localPage_empty options.pageSize_pos hpage hrow
          · cases h

/-! ## Runs -/

/-- A page has found nothing and watches the signal of its feed. Each later transaction that adds
a row to the feed, at the place of the page or after it, leaves another value of the signal, for
fewer than `2 ^ 64` writes to the feed. A transaction without a write to the feed leaves it. -/
theorem feed_wakes {idString : ι → String} {logs : EventLogs θ σ ι τ ρ}
    {options : RepositoryOptions} {until? : Option Nat} {feed : Feed θ σ} {place : FeedPlace ι}
    {signal : BitVec 64} (hwatch : logs.watch options until? feed place = some signal) :
    (∀ row, place.Contains row → ¬ logs.Lists feed row) ∧
    ∀ later state label next, Run (CommitStep idString) logs later state →
      CommitStep idString state label next →
      (AddsRow feed place state next → ((later ++ [label]).map (writesTo feed)).sum < 2 ^ 64 →
        next.signal feed ≠ signal) ∧
      (writesTo feed label = 0 → next.signal feed = state.signal feed) := by
  obtain ⟨hnone, rfl⟩ := watch_spec hwatch
  refine ⟨hnone, ?_⟩
  intro later state label next hrun hstep
  constructor
  · rintro ⟨row, -, hrow, hnot⟩ hfew
    refine hrun.wakes (fun _ _ _ _ hcommit => ⟨trivial, hcommit.bumps feed⟩) trivial hstep ?_ hfew
    exact fun hquiet => hnot (hquiet row hrow)
  · intro hwrites
    have hbumps := hstep.bumps feed
    rw [hwrites] at hbumps
    exact Bumps.eq_of_zero hbumps

end

section

abbrev ShortLogs := EventLogs String String Nat Unit Nat

def writtenOnce : ShortLogs where
  version := 1
  journal := (Writing.call 1 ⟨.empty, 0⟩ (.write ⟨7, "event", "key", []⟩)).state

/-- A subscriber waits at the end of the journal, and a transaction destroys the journal and writes
to it again. -/
theorem feed_wakes_destroy :
    ∃ next : ShortLogs, CommitStep toString writtenOnce
        (2, [.journal .destroy, .journal (.write ⟨9, "event", "key", []⟩)]) next ∧
      next.signal .journal ≠ writtenOnce.signal .journal := by
  have hwatch : writtenOnce.watch {} none .journal (.cursor (.committedEnd 1)) =
      some (writtenOnce.signal .journal) := rfl
  have hstep : CommitStep toString writtenOnce
      (2, [.journal .destroy, .journal (.write ⟨9, "event", "key", []⟩)]) _ := ⟨by decide, rfl⟩
  refine ⟨_, hstep, ?_⟩
  refine ((feed_wakes hwatch).2 [] _ _ _ (.nil _) hstep).1 ?_ (by decide)
  exact ⟨.stamped (orderRow 2 0 9), rfl, rfl, Bool.false_ne_true⟩

end

end FoundationDbEffect.EventLog
