import FoundationDbEffect.Persistence.BackingLive

/-!
# The staging loop

Prepared entries are staged by one transaction after another: the garbage marker of an entry,
then its chunks, in batches that fit the budget of a transaction. The loop sends the batches that
are planned for its mutations, in their order, until the database refuses one.
-/

namespace FoundationDbEffect.Persistence.Backing

open FoundationDbEffect.Foundation

section

variable {κ ι ν ε ω : Type} [LinearOrder κ] [LinearOrder ι] [DecidableEq ε]

/-! ## The loop -/

inductive WriteFailure (κ ω : Type) where
  | persistence (error : PersistenceError κ)
  | storeEpochChanged
  | database (error : ω)

/-- A write that has failed, the staging transactions that it has sent, and the state that the
last one of them to be committed has left. -/
structure Stopped (κ ι ε ω : Type) [LinearOrder κ] [LinearOrder ι] where
  failure : WriteFailure κ ω
  transactions : List (List (StagingMutation ι))
  left : PersistenceState κ ι ε

/-- What the transaction of this number finds when the last one has left a state: other writers
may have come in between, and the database may fail. -/
abbrev Turns (κ ι ε ω : Type) [LinearOrder κ] [LinearOrder ι] : Type :=
  Nat → PersistenceState κ ι ε → Except ω (PersistenceState κ ι ε)

structure Staging (κ ι ε : Type) [LinearOrder κ] [LinearOrder ι] where
  batch : List (StagingMutation ι) := []
  batchBytes : Nat
  epoch : Option (StoreEpoch ε) := none
  state : PersistenceState κ ι ε
  written : List (List (StagingMutation ι)) := []

def flush (lengths : Lengths κ ι) (turns : Turns κ ι ε ω) (staging : Staging κ ι ε) :
    Except (Stopped κ ι ε ω) (Staging κ ι ε) :=
  let transactions := staging.written ++ [staging.batch]
  match turns staging.written.length staging.state with
  | .error error => .error ⟨.database error, transactions, staging.state⟩
  | .ok state =>
    match writeStageBatch state staging.batch staging.epoch with
    | none => .error ⟨.storeEpochChanged, transactions, staging.state⟩
    | some (state, epoch) =>
      .ok {
        batchBytes := lengths.readBytes .epoch
        epoch := some epoch
        state
        written := transactions }

def stageMutation (lengths : Lengths κ ι) (turns : Turns κ ι ε ω) (staging : Staging κ ι ε)
    (mutation : StagingMutation ι) : Except (Stopped κ ι ε ω) (Staging κ ι ε) := do
  let bytes := mutation.bytes lengths
  let staging ←
    if 0 < staging.batch.length ∧ transactionByteBudget < staging.batchBytes + bytes then
      flush lengths turns staging
    else .ok staging
  if transactionByteBudget < staging.batchBytes + bytes then
    .error ⟨.persistence .transactionLimit, staging.written, staging.state⟩
  else
    .ok { staging with
      batch := staging.batch ++ [mutation]
      batchBytes := staging.batchBytes + bytes }

def flushRest (lengths : Lengths κ ι) (turns : Turns κ ι ε ω) (staging : Staging κ ι ε) :
    Except (Stopped κ ι ε ω) (Staging κ ι ε) :=
  if 0 < staging.batch.length then flush lengths turns staging else .ok staging

def stageEntries (lengths : Lengths κ ι) (turns : Turns κ ι ε ω)
    (entries : List (PreparedEntry κ ι)) (state : PersistenceState κ ι ε) :
    Except (Stopped κ ι ε ω) (Staging κ ι ε) := do
  let staging ← entries.foldlM
    (fun staging entry => (stagingMutations entry).foldlM (stageMutation lengths turns) staging)
    { batchBytes := lengths.readBytes .epoch, state }
  flushRest lengths turns staging

/-- The entries that a write publishes, and its staging: a direct publication has none. -/
def stageWrite (json : Json ν) (lengths : Lengths κ ι) (turns : Turns κ ι ε ω) (now : ℚ)
    (entries : List (WriteEntry κ ν)) (identities : List ι) (state : PersistenceState κ ι ε) :
    Except (Stopped κ ι ε ω) (List (PreparedEntry κ ι) × Staging κ ι ε) :=
  match prepareEntries json lengths now entries identities with
  | .error error => .error ⟨.persistence error, [], state⟩
  | .ok prepared =>
    let epochBytes := lengths.readBytes .epoch
    let directBytes := epochBytes + (prepared.map PreparedEntry.directByteEstimate).sum
    if directBytes ≤ transactionByteBudget then
      .ok (prepared, { batchBytes := epochBytes, state })
    else
      let publicationBytes :=
        epochBytes + (prepared.map PreparedEntry.stagedPublicationByteEstimate).sum
      if transactionByteBudget < publicationBytes then
        .error ⟨.persistence .transactionLimit, [], state⟩
      else do
        let staging ← stageEntries lengths turns prepared state
        .ok (prepared, staging)

def writeOnce (json : Json ν) (lengths : Lengths κ ι) (turns : Turns κ ι ε ω) (now replacedAt : ℚ)
    (entries : List (WriteEntry κ ν)) (identities : List ι) (state : PersistenceState κ ι ε) :
    Except (Stopped κ ι ε ω) (PersistenceState κ ι ε) := do
  let (prepared, staging) ← stageWrite json lengths turns now entries identities state
  match turns staging.written.length staging.state with
  | .error error => .error ⟨.database error, staging.written, staging.state⟩
  | .ok state =>
    match publishEntries state prepared staging.epoch replacedAt with
    | none => .error ⟨.storeEpochChanged, staging.written, staging.state⟩
    | some state => .ok state

/-! ## The loop follows its plan -/

/-- What the batches make of a state, one transaction each: the turn of a transaction gives the
state that it finds, and every mutation of its batch is applied to it. -/
def stateBehind (turns : Turns κ ι ε ω) : Nat → List (List (StagingMutation ι)) →
    PersistenceState κ ι ε → Except ω (PersistenceState κ ι ε)
  | _, [], state => .ok state
  | turn, batch :: rest, state => do
      let found ← turns turn state
      stateBehind turns (turn + 1) rest (batch.foldl StagingMutation.apply found)

/-- Why a transaction is not taken by the state that the last one has left: the database has
failed, or another writer has changed the epoch of the store since the first one. -/
def Refuses (turns : Turns κ ι ε ω) (turn : Nat) (left : PersistenceState κ ι ε) :
    WriteFailure κ ω → Prop
  | .persistence _ => False
  | .storeEpochChanged => 0 < turn ∧ ∃ found, turns turn left = .ok found ∧ found.epoch ≠ left.epoch
  | .database error => turns turn left = .error error

/-- The transactions are the batches of the plan, or those up to the one that is refused. -/
inductive Follows (turns : Turns κ ι ε ω) (start : PersistenceState κ ι ε)
    (plan : List (List (StagingMutation ι)) × Bool) :
    Except (Stopped κ ι ε ω) (Staging κ ι ε) → Prop where
  | complete (staging : Staging κ ι ε) (hwritten : staging.written = plan.1)
      (hstate : stateBehind turns 0 plan.1 start = .ok staging.state)
      (hcomplete : plan.2 = true) (hepoch : plan.1 ≠ [] → staging.epoch.isSome) :
      Follows turns start plan (.ok staging)
  | limit (left : PersistenceState κ ι ε) (hstate : stateBehind turns 0 plan.1 start = .ok left)
      (hcomplete : plan.2 = false) :
      Follows turns start plan (.error ⟨.persistence .transactionLimit, plan.1, left⟩)
  | refused (failure : WriteFailure κ ω) (committed : List (List (StagingMutation ι)))
      (batch : List (StagingMutation ι)) (left : PersistenceState κ ι ε)
      (hsent : committed ++ [batch] <+: plan.1)
      (hstate : stateBehind turns 0 committed start = .ok left)
      (hrefuses : Refuses turns committed.length left failure) :
      Follows turns start plan (.error ⟨failure, committed ++ [batch], left⟩)

/-- The state of a staging is what its transactions have made of the first one, and the epoch that
it expects, if it has sent any, is that of this state. -/
structure Staging.Synced (turns : Turns κ ι ε ω) (start : PersistenceState κ ι ε)
    (staging : Staging κ ι ε) : Prop where
  behind : stateBehind turns 0 staging.written start = .ok staging.state
  epoch : ∀ epoch ∈ staging.epoch, epoch = staging.state.epoch
  known : staging.epoch.isSome ↔ staging.written ≠ []

omit [DecidableEq ε] in
theorem stateBehind_concat (turns : Turns κ ι ε ω) (turn : Nat)
    (batches : List (List (StagingMutation ι))) (batch : List (StagingMutation ι))
    {start left found : PersistenceState κ ι ε}
    (hleft : stateBehind turns turn batches start = .ok left)
    (hfound : turns (turn + batches.length) left = .ok found) :
    stateBehind turns turn (batches ++ [batch]) start =
      .ok (batch.foldl StagingMutation.apply found) := by
  induction batches generalizing turn start with
  | nil =>
      cases hleft
      rw [List.length_nil, Nat.add_zero] at hfound
      rw [List.nil_append, stateBehind, hfound]
      rfl
  | cons first batches ih =>
      rw [stateBehind] at hleft
      obtain ⟨state, hstate, hleft⟩ := bind_eq_ok.mp hleft
      rw [List.cons_append, stateBehind, hstate]
      refine ih (turn + 1) hleft ?_
      rwa [List.length_cons, Nat.add_comm batches.length, ← Nat.add_assoc] at hfound

omit [DecidableEq ε] in
theorem epoch_apply (state : PersistenceState κ ι ε) (mutation : StagingMutation ι) :
    (mutation.apply state).epoch = state.epoch := by
  cases mutation <;> rfl

omit [DecidableEq ε] in
theorem epoch_foldl_apply (mutations : List (StagingMutation ι))
    (state : PersistenceState κ ι ε) :
    (mutations.foldl StagingMutation.apply state).epoch = state.epoch := by
  induction mutations generalizing state with
  | nil => rfl
  | cons mutation mutations ih => rw [List.foldl_cons, ih, epoch_apply]

theorem flush_cases (lengths : Lengths κ ι) (turns : Turns κ ι ε ω)
    {start : PersistenceState κ ι ε} {staging : Staging κ ι ε} (h : staging.Synced turns start) :
    (∃ next, flush lengths turns staging = .ok next ∧ next.Synced turns start ∧ next.batch = [] ∧
      next.batchBytes = lengths.readBytes .epoch ∧
      next.written = staging.written ++ [staging.batch]) ∨
    ∃ failure, flush lengths turns staging =
        .error ⟨failure, staging.written ++ [staging.batch], staging.state⟩ ∧
      Refuses turns staging.written.length staging.state failure := by
  unfold flush
  cases hturn : turns staging.written.length staging.state with
  | error error => exact .inr ⟨.database error, rfl, hturn⟩
  | ok state =>
      dsimp only
      rw [writeStageBatch]
      by_cases hchanged : staging.epoch.any (· ≠ state.epoch)
      · obtain ⟨epoch, hepoch, hne⟩ := (Option.any_eq_true _ _).mp hchanged
        have hsent : staging.written ≠ [] := h.known.mp (by simp [hepoch])
        refine .inr ⟨.storeEpochChanged, by rw [if_pos hchanged],
          List.length_pos_of_ne_nil hsent, state, hturn, ?_⟩
        rw [← h.epoch epoch hepoch]
        exact Ne.symm (of_decide_eq_true hne)
      · refine .inl ⟨_, by rw [if_neg hchanged], ⟨?_, ?_, ?_⟩, rfl, rfl, rfl⟩
        · exact stateBehind_concat turns 0 _ _ h.behind (by rwa [Nat.zero_add])
        · rintro _ ⟨⟩
          rw [epoch_foldl_apply]
          cases hepoch : staging.epoch with
          | none => rfl
          | some epoch => simpa [hepoch] using hchanged
        · simp

theorem follows_flushRest (lengths : Lengths κ ι) (turns : Turns κ ι ε ω)
    {start : PersistenceState κ ι ε} {staging : Staging κ ι ε} (h : staging.Synced turns start) :
    Follows turns start
      (staging.written ++ if 0 < staging.batch.length then [staging.batch] else [], true)
      (flushRest lengths turns staging) := by
  unfold flushRest
  split
  · rcases flush_cases lengths turns h with ⟨next, hflush, hnext, -, -, hwritten⟩ |
      ⟨failure, hflush, hrefuses⟩
    · rw [hflush, ← hwritten]
      exact .complete next rfl hnext.behind rfl hnext.known.mpr
    · rw [hflush]
      exact .refused failure _ _ _ List.prefix_rfl h.behind hrefuses
  · rw [List.append_nil]
    exact .complete staging rfl h.behind rfl h.known.mpr

section

variable (lengths : Lengths κ ι) {mutation : StagingMutation ι} {batch : List (StagingMutation ι)}
  {batchBytes : Nat}

omit [LinearOrder κ] [LinearOrder ι] in
theorem stageBatches_flush (rest : List (StagingMutation ι))
    (hflush : 0 < batch.length ∧ transactionByteBudget < batchBytes + mutation.bytes lengths) :
    stageBatches lengths (mutation :: rest) batch batchBytes =
      (batch :: (stageBatches lengths (mutation :: rest) [] (lengths.readBytes .epoch)).1,
        (stageBatches lengths (mutation :: rest) [] (lengths.readBytes .epoch)).2) := by
  rw [stageBatches, stageBatches]
  simp only [if_pos hflush, List.length_nil, lt_irrefl, false_and, if_false]
  split <;> rfl

omit [LinearOrder κ] [LinearOrder ι] in
theorem stageBatches_keep (rest : List (StagingMutation ι))
    (hkeep : ¬ (0 < batch.length ∧ transactionByteBudget < batchBytes + mutation.bytes lengths)) :
    stageBatches lengths (mutation :: rest) batch batchBytes =
      if transactionByteBudget < batchBytes + mutation.bytes lengths then ([], false)
      else stageBatches lengths rest (batch ++ [mutation])
        (batchBytes + mutation.bytes lengths) := by
  rw [stageBatches]
  simp only [if_neg hkeep, List.nil_append]

end

theorem stageMutation_flush (lengths : Lengths κ ι) (turns : Turns κ ι ε ω)
    {staging : Staging κ ι ε} {mutation : StagingMutation ι}
    (hflush : 0 < staging.batch.length ∧
      transactionByteBudget < staging.batchBytes + mutation.bytes lengths)
    {next : Staging κ ι ε} (hnext : flush lengths turns staging = .ok next)
    (hbatch : next.batch = []) :
    stageMutation lengths turns staging mutation = stageMutation lengths turns next mutation := by
  simp [stageMutation, hflush, hnext, hbatch, bind, Except.bind]

/-- From any point of the loop, the rest of it sends the rest of the plan. -/
theorem follows_foldlM (lengths : Lengths κ ι) (turns : Turns κ ι ε ω)
    (mutations : List (StagingMutation ι)) {start : PersistenceState κ ι ε}
    {staging : Staging κ ι ε} (h : staging.Synced turns start) :
    Follows turns start
      (staging.written ++ (stageBatches lengths mutations staging.batch staging.batchBytes).1,
        (stageBatches lengths mutations staging.batch staging.batchBytes).2)
      (mutations.foldlM (stageMutation lengths turns) staging >>= flushRest lengths turns) := by
  induction mutations generalizing staging with
  | nil => exact follows_flushRest lengths turns h
  | cons mutation rest ih =>
      have hkept {kept : Staging κ ι ε} (hsynced : kept.Synced turns start)
          (hkeep : ¬ (0 < kept.batch.length ∧
            transactionByteBudget < kept.batchBytes + mutation.bytes lengths)) :
          Follows turns start
            (kept.written ++
              (stageBatches lengths (mutation :: rest) kept.batch kept.batchBytes).1,
              (stageBatches lengths (mutation :: rest) kept.batch kept.batchBytes).2)
            ((mutation :: rest).foldlM (stageMutation lengths turns) kept >>=
              flushRest lengths turns) := by
        rw [stageBatches_keep lengths rest hkeep, List.foldlM_cons, stageMutation]
        dsimp only
        rw [if_neg hkeep]
        change Follows turns start _ (((if _ then _ else _) >>= _) >>= _)
        split
        · rw [List.append_nil]
          exact .limit _ hsynced.behind rfl
        · have hnext : Staging.Synced turns start { kept with
              batch := kept.batch ++ [mutation]
              batchBytes := kept.batchBytes + mutation.bytes lengths } :=
            ⟨hsynced.behind, hsynced.epoch, hsynced.known⟩
          exact ih hnext
      by_cases hflush : 0 < staging.batch.length ∧
          transactionByteBudget < staging.batchBytes + mutation.bytes lengths
      · rw [stageBatches_flush lengths rest hflush]
        rcases flush_cases lengths turns h with ⟨next, hnext, hsynced, hbatch, hbytes, hwritten⟩ |
          ⟨failure, hfailure, hrefuses⟩
        · have hfollows := hkept hsynced (by simp [hbatch])
          rw [hwritten, hbatch, hbytes, List.append_assoc] at hfollows
          rwa [List.foldlM_cons, stageMutation_flush lengths turns hflush hnext hbatch]
        · rw [List.foldlM_cons, stageMutation]
          dsimp only
          rw [if_pos hflush, hfailure]
          refine .refused failure _ _ _ ?_ h.behind hrefuses
          exact ⟨_, by rw [List.append_assoc, List.singleton_append]⟩
      · exact hkept h hflush

theorem foldlM_entries {α β δ σ : Type} (f : α → List β) (step : σ → β → Except δ σ)
    (elements : List α) (state : σ) :
    elements.foldlM (fun state element => (f element).foldlM step state) state =
      (elements.flatMap f).foldlM step state := by
  induction elements generalizing state with
  | nil => rfl
  | cons element elements ih =>
      rw [List.foldlM_cons, List.flatMap_cons, List.foldlM_append]
      exact bind_congr ih

theorem follows_stageEntries (lengths : Lengths κ ι) (turns : Turns κ ι ε ω)
    (entries : List (PreparedEntry κ ι)) (state : PersistenceState κ ι ε) :
    Follows turns state
      (stageBatches lengths (entries.flatMap stagingMutations) [] (lengths.readBytes .epoch))
      (stageEntries lengths turns entries state) := by
  have hstart : Staging.Synced turns state ({ batchBytes := lengths.readBytes .epoch, state } :
      Staging κ ι ε) := ⟨rfl, by simp, by simp⟩
  rw [stageEntries, foldlM_entries]
  exact follows_foldlM lengths turns _ hstart

/-! ## Markers and chunks -/

/-- Whole entries, and of the next one the marker and the chunks up to some index. -/
def StagedPart (entries : List (PreparedEntry κ ι)) (written : List (StagingMutation ι)) : Prop :=
  ∃ before after, entries = before ++ after ∧
    (written = before.flatMap stagingMutations ∨
      ∃ entry count, entry ∈ after.head? ∧
        written = before.flatMap stagingMutations ++
          .marker entry.garbageAt entry.identity :: (chunkMutations entry).take count)

omit [LinearOrder κ] [LinearOrder ι] in
theorem stagedPart_of_prefix {entries : List (PreparedEntry κ ι)}
    {written : List (StagingMutation ι)} (h : written <+: entries.flatMap stagingMutations) :
    StagedPart entries written := by
  induction entries generalizing written with
  | nil => exact ⟨[], [], rfl, .inl (List.prefix_nil.mp h)⟩
  | cons entry entries ih =>
      rw [List.flatMap_cons] at h
      rcases List.prefix_or_prefix_of_prefix h (List.prefix_append _ _) with hwithin | ⟨more, rfl⟩
      · rcases List.prefix_cons_iff.mp hwithin with rfl | ⟨chunks, rfl, hchunks⟩
        · exact ⟨[], entry :: entries, rfl, .inl rfl⟩
        · refine ⟨[], entry :: entries, rfl, .inr ⟨entry, chunks.length, rfl, ?_⟩⟩
          rw [List.flatMap_nil, List.nil_append, ← List.prefix_iff_eq_take.mp hchunks]
      · obtain ⟨before, after, rfl, hcases⟩ := ih ((List.prefix_append_right_inj _).mp h)
        refine ⟨entry :: before, after, rfl, ?_⟩
        rw [List.flatMap_cons]
        rcases hcases with rfl | ⟨next, count, hnext, rfl⟩
        · exact .inl rfl
        · exact .inr ⟨next, count, hnext, (List.append_assoc _ _ _).symm⟩

omit [LinearOrder κ] [LinearOrder ι] in
theorem StagedPart.marker {entries : List (PreparedEntry κ ι)}
    {written : List (StagingMutation ι)} (h : StagedPart entries written) {identity : ι}
    {index : Nat} {chunk : Bytes} (hchunk : .chunk identity index chunk ∈ written) :
    ∃ entry ∈ entries, entry.identity = identity ∧
      .marker entry.garbageAt identity ∈ written := by
  obtain ⟨before, after, rfl, rfl | ⟨next, count, hnext, rfl⟩⟩ := h
  · obtain ⟨entry, hentry, hmem⟩ := List.mem_flatMap.mp hchunk
    obtain ⟨rfl, -⟩ := chunk_mem_stagingMutations.mp hmem
    refine ⟨entry, List.mem_append_left _ hentry, rfl, ?_⟩
    exact List.mem_flatMap.mpr ⟨entry, hentry, List.mem_cons_self⟩
  · rcases List.mem_append.mp hchunk with hbefore | hpart
    · obtain ⟨entry, hentry, hmem⟩ := List.mem_flatMap.mp hbefore
      obtain ⟨rfl, -⟩ := chunk_mem_stagingMutations.mp hmem
      refine ⟨entry, List.mem_append_left _ hentry, rfl, List.mem_append_left _ ?_⟩
      exact List.mem_flatMap.mpr ⟨entry, hentry, List.mem_cons_self⟩
    · have hmem := List.mem_of_mem_take ((List.mem_cons.mp hpart).resolve_left nofun)
      obtain ⟨rfl, -⟩ := mem_chunkMutations.mp hmem
      refine ⟨next, List.mem_append_right _ (List.mem_of_mem_head? hnext), rfl, ?_⟩
      exact List.mem_append_right _ List.mem_cons_self

/-! ## What is sent -/

def transactionsOf : Except (Stopped κ ι ε ω) (Staging κ ι ε) → List (List (StagingMutation ι))
  | .ok staging => staging.written
  | .error stopped => stopped.transactions

/-- How staging ends, the transactions that it has sent by then, and the state behind those that
were committed. -/
structure StagesWithin (lengths : Lengths κ ι) (turns : Turns κ ι ε ω)
    (entries : List (PreparedEntry κ ι)) (start : PersistenceState κ ι ε)
    (outcome : Except (Stopped κ ι ε ω) (Staging κ ι ε)) : Prop where
  ends :
    (∃ staging, outcome = .ok staging ∧
      staging.written.flatten = entries.flatMap stagingMutations ∧
      stateBehind turns 0 staging.written start = .ok staging.state ∧
      (entries ≠ [] → staging.epoch.isSome)) ∨
    (∃ transactions left, outcome = .error ⟨.persistence .transactionLimit, transactions, left⟩ ∧
      stateBehind turns 0 transactions start = .ok left ∧
      ∃ entry ∈ entries, ∃ mutation ∈ stagingMutations entry,
        transactionByteBudget < lengths.readBytes .epoch + mutation.bytes lengths) ∨
    ∃ failure committed batch left, outcome = .error ⟨failure, committed ++ [batch], left⟩ ∧
      stateBehind turns 0 committed start = .ok left ∧
      Refuses turns committed.length left failure
  fits : ∀ batch ∈ transactionsOf outcome,
    batch ≠ [] ∧ batchEstimate lengths batch ≤ transactionByteBudget
  parts : ∀ count, StagedPart entries ((transactionsOf outcome).take count).flatten
  markers : ∀ count identity index chunk,
    .chunk identity index chunk ∈ ((transactionsOf outcome).take count).flatten →
      ∃ entry ∈ entries, entry.identity = identity ∧
        .marker entry.garbageAt identity ∈ ((transactionsOf outcome).take count).flatten

omit [DecidableEq ε] in
theorem Follows.prefix_plan {turns : Turns κ ι ε ω} {start : PersistenceState κ ι ε}
    {plan : List (List (StagingMutation ι)) × Bool}
    {outcome : Except (Stopped κ ι ε ω) (Staging κ ι ε)} (h : Follows turns start plan outcome) :
    transactionsOf outcome <+: plan.1 := by
  cases h with
  | complete staging hwritten => exact hwritten ▸ List.prefix_rfl
  | limit left => exact List.prefix_rfl
  | refused failure committed batch left hsent => exact hsent

omit [LinearOrder κ] [LinearOrder ι] in
theorem exists_oversize (lengths : Lengths κ ι) {entries : List (PreparedEntry κ ι)}
    (h : (stageBatches lengths (entries.flatMap stagingMutations) []
      (lengths.readBytes .epoch)).2 = false) :
    ∃ entry ∈ entries, ∃ mutation ∈ stagingMutations entry,
      transactionByteBudget < lengths.readBytes .epoch + mutation.bytes lengths := by
  by_contra hnone
  push Not at hnone
  have hcomplete := complete_stageBatches lengths (entries.flatMap stagingMutations) []
    (lengths.readBytes .epoch) (fun _ => rfl) fun mutation hmutation => by
      obtain ⟨entry, hentry, hmem⟩ := List.mem_flatMap.mp hmutation
      exact hnone entry hentry mutation hmem
  rw [h] at hcomplete
  cases hcomplete

theorem stagesWithin_stageEntries (lengths : Lengths κ ι) (turns : Turns κ ι ε ω)
    (entries : List (PreparedEntry κ ι)) (state : PersistenceState κ ι ε) :
    StagesWithin lengths turns entries state (stageEntries lengths turns entries state) := by
  have hfollows := follows_stageEntries lengths turns entries state
  obtain ⟨tail, hflatten, htail⟩ := flatten_stageBatches lengths
    (entries.flatMap stagingMutations) [] (lengths.readBytes .epoch)
  have hparts (count : Nat) : StagedPart entries
      ((transactionsOf (stageEntries lengths turns entries state)).take count).flatten := by
    refine stagedPart_of_prefix ?_
    refine List.IsPrefix.trans ?_ ⟨tail, hflatten⟩
    exact ((List.take_prefix _ _).trans hfollows.prefix_plan).flatten
  refine ⟨?_, ?_, hparts, fun count _ _ _ => (hparts count).marker⟩
  · generalize stageEntries lengths turns entries state = outcome at hfollows
    cases hfollows with
    | complete staging hwritten hstate hcomplete hepoch =>
        rw [htail hcomplete, List.append_nil, List.nil_append] at hflatten
        refine .inl ⟨staging, rfl, by rw [hwritten, hflatten], by rw [hwritten, hstate],
          fun hne => hepoch fun hnil => ?_⟩
        rw [hnil] at hflatten
        obtain ⟨entry, rest, rfl⟩ := List.exists_cons_of_ne_nil hne
        cases hflatten
    | limit left hstate hcomplete =>
        exact .inr (.inl ⟨_, left, rfl, hstate, exists_oversize lengths hcomplete⟩)
    | refused failure committed batch left _ hstate hrefuses =>
        exact .inr (.inr ⟨failure, committed, batch, left, rfl, hstate, hrefuses⟩)
  · intro batch hbatch
    exact batches_stageBatches lengths (entries.flatMap stagingMutations) []
      (fun hne => absurd rfl hne) batch (hfollows.prefix_plan.subset hbatch)

/-- How the publication of a write ends well: either directly, when its estimate is within the
budget, or behind a staging. -/
inductive Publishes (lengths : Lengths κ ι) (turns : Turns κ ι ε ω) (replacedAt : ℚ)
    (prepared : List (PreparedEntry κ ι)) (state next : PersistenceState κ ι ε) : Prop where
  | direct (found : PersistenceState κ ι ε)
      (hfits : lengths.readBytes .epoch + (prepared.map PreparedEntry.directByteEstimate).sum ≤
        transactionByteBudget)
      (hfound : turns 0 state = .ok found)
      (hpublished : publishEntries found prepared none replacedAt = some next)
  | staged (staging : Staging κ ι ε) (found : PersistenceState κ ι ε)
      (hexceeds : transactionByteBudget <
        lengths.readBytes .epoch + (prepared.map PreparedEntry.directByteEstimate).sum)
      (hfits : lengths.readBytes .epoch +
        (prepared.map PreparedEntry.stagedPublicationByteEstimate).sum ≤ transactionByteBudget)
      (hstaged : stageEntries lengths turns prepared state = .ok staging)
      (hfound : turns staging.written.length staging.state = .ok found)
      (hpublished : publishEntries found prepared staging.epoch replacedAt = some next)

theorem stageWrite_cases {json : Json ν} {lengths : Lengths κ ι} {turns : Turns κ ι ε ω} {now : ℚ}
    {entries : List (WriteEntry κ ν)} {identities : List ι} {state : PersistenceState κ ι ε}
    {prepared : List (PreparedEntry κ ι)} {staging : Staging κ ι ε}
    (h : stageWrite json lengths turns now entries identities state = .ok (prepared, staging)) :
    prepareEntries json lengths now entries identities = .ok prepared ∧
      ((lengths.readBytes .epoch + (prepared.map PreparedEntry.directByteEstimate).sum ≤
          transactionByteBudget ∧
        staging = { batchBytes := lengths.readBytes .epoch, state }) ∨
      (transactionByteBudget <
          lengths.readBytes .epoch + (prepared.map PreparedEntry.directByteEstimate).sum ∧
        lengths.readBytes .epoch +
          (prepared.map PreparedEntry.stagedPublicationByteEstimate).sum ≤ transactionByteBudget ∧
        stageEntries lengths turns prepared state = .ok staging)) := by
  unfold stageWrite at h
  cases hprepared : prepareEntries json lengths now entries identities with
  | error error =>
      rw [hprepared] at h
      cases h
  | ok prepared' =>
      rw [hprepared] at h
      dsimp only at h
      split at h
      · next hdirect =>
          cases h
          exact ⟨rfl, .inl ⟨hdirect, rfl⟩⟩
      · next hdirect =>
          split at h
          · cases h
          · next hpublication =>
              obtain ⟨staged, hstaged, heq⟩ := bind_eq_ok.mp h
              cases heq
              exact ⟨rfl, .inr ⟨not_le.mp hdirect, not_lt.mp hpublication, hstaged⟩⟩

theorem epoch_stageWrite {json : Json ν} {lengths : Lengths κ ι} {turns : Turns κ ι ε ω} {now : ℚ}
    {entries : List (WriteEntry κ ν)} {identities : List ι} {state : PersistenceState κ ι ε}
    {prepared : List (PreparedEntry κ ι)} {staging : Staging κ ι ε}
    (h : stageWrite json lengths turns now entries identities state = .ok (prepared, staging)) :
    staging.epoch = none ↔
      lengths.readBytes .epoch + (prepared.map PreparedEntry.directByteEstimate).sum ≤
        transactionByteBudget := by
  obtain ⟨-, ⟨hdirect, rfl⟩ | ⟨hexceeds, hpublication, hstaged⟩⟩ := stageWrite_cases h
  · exact iff_of_true rfl hdirect
  · have hne : prepared ≠ [] := by
      rintro rfl
      exact absurd hpublication (not_le.mpr hexceeds)
    rcases (stagesWithin_stageEntries lengths turns prepared state).ends with
      ⟨_, hok, -, -, hepoch⟩ | ⟨_, _, herror, -⟩ | ⟨_, _, _, _, herror, -⟩
    · rw [hstaged] at hok
      cases hok
      exact iff_of_false (Option.isSome_iff_ne_none.mp (hepoch hne)) (not_le.mpr hexceeds)
    · rw [hstaged] at herror
      cases herror
    · rw [hstaged] at herror
      cases herror

theorem publishes_of_writeOnce {json : Json ν} {lengths : Lengths κ ι} {turns : Turns κ ι ε ω}
    {now replacedAt : ℚ} {entries : List (WriteEntry κ ν)} {identities : List ι}
    {state next : PersistenceState κ ι ε}
    (h : writeOnce json lengths turns now replacedAt entries identities state = .ok next) :
    ∃ prepared, prepareEntries json lengths now entries identities = .ok prepared ∧
      Publishes lengths turns replacedAt prepared state next := by
  obtain ⟨⟨prepared, staging⟩, hstage, hrest⟩ := bind_eq_ok.mp h
  obtain ⟨hprepared, hcases⟩ := stageWrite_cases hstage
  refine ⟨prepared, hprepared, ?_⟩
  dsimp only at hrest
  cases hfound : turns staging.written.length staging.state with
  | error error =>
      rw [hfound] at hrest
      cases hrest
  | ok found =>
      rw [hfound] at hrest
      dsimp only at hrest
      cases hpublished : publishEntries found prepared staging.epoch replacedAt with
      | none =>
          rw [hpublished] at hrest
          cases hrest
      | some published =>
          rw [hpublished] at hrest
          cases hrest
          rcases hcases with ⟨hdirect, rfl⟩ | ⟨hexceeds, hpublication, hstaged⟩
          · exact .direct found hdirect hfound hpublished
          · exact .staged staging found hexceeds hpublication hstaged hfound hpublished

/-- Staging sends the marker of each entry and its chunks, in order, in transactions that fit the
budget and whose mutations are what the committed state is made of; a write that does not fit it
is never published without a staging. -/
theorem stagedWrite_withinBudget (lengths : Lengths κ ι) (turns : Turns κ ι ε ω) :
    (∀ entries state,
      StagesWithin lengths turns entries state (stageEntries lengths turns entries state)) ∧
    (∀ (json : Json ν) now entries identities state prepared staging,
      stageWrite json lengths turns now entries identities state = .ok (prepared, staging) →
        (staging.epoch = none ↔
          lengths.readBytes .epoch + (prepared.map PreparedEntry.directByteEstimate).sum ≤
            transactionByteBudget)) ∧
    ∀ (json : Json ν) now replacedAt entries identities state next,
      writeOnce json lengths turns now replacedAt entries identities state = .ok next →
        ∃ prepared, prepareEntries json lengths now entries identities = .ok prepared ∧
          Publishes lengths turns replacedAt prepared state next :=
  ⟨stagesWithin_stageEntries lengths turns, fun _ _ _ _ _ _ _ => epoch_stageWrite,
    fun _ _ _ _ _ _ _ => publishes_of_writeOnce⟩

end

/-! A marker and a chunk that do not fit into one transaction. -/

example :
    let lengths : Lengths Nat Nat := ⟨fun _ => 2_500_000, fun _ => 0, fun _ => 0⟩
    let entry (identity : Nat) : PreparedEntry Nat Nat := ⟨0, identity, none, 9, [[1]], 0, 0⟩
    let turns : Turns Nat Nat Nat Nat := fun _ state => .ok state
    transactionsOf (stageEntries lengths turns [entry 1, entry 2] {}) =
      [[.marker 9 1], [.chunk 1 0 [1]], [.marker 9 2], [.chunk 2 0 [1]]] := by
  decide

end FoundationDbEffect.Persistence.Backing
