import FoundationDbEffect.PersistedQueue.Invariant

/-!
# Queue cleanup

A cleanup goes through the index of its state in batches. Each row that it meets is the row of an
entry that its cutoff lets go, so each batch removes the entries of its rows with all that is
stored of them, and the last batch leaves no such entry.
-/

namespace FoundationDbEffect.PersistedQueue

open FoundationDbEffect.Foundation

variable {ε : Type}

structure Removes (gone : Nat → Prop) (queue next : Queue ε) : Prop where
  metadata : ∀ sequence entry, next.metadata.get? sequence = some entry ↔
    ¬gone sequence ∧ queue.metadata.get? sequence = some entry
  elements : ∀ sequence element, next.elements.get? sequence = some element ↔
    ¬gone sequence ∧ queue.elements.get? sequence = some element
  ids : ∀ id sequence, next.ids.get? id = some sequence ↔
    ¬gone sequence ∧ queue.ids.get? id = some sequence
  index : ∀ state row sequence, (next.index state).get? row = some sequence ↔
    ¬gone sequence ∧ (queue.index state).get? row = some sequence
  claims : next.claims = queue.claims
  counter : next.counter = queue.counter
  signal : next.signal = queue.signal

/-- The entry of the sequence is of the state, and was last updated up to the cutoff. No cutoff
before time zero lets an entry go. -/
def Expired (state : TerminalState) (cutoff : Option Int) (queue : Queue ε) (sequence : Nat) :
    Prop :=
  ∃ entry time, queue.metadata.get? sequence = some entry ∧ entry.state = state.entryState ∧
    cutoff = some time ∧ 0 ≤ time ∧ entry.updatedAt ≤ time

theorem Expired.terminal {state : TerminalState} {cutoff : Option Int} {queue : Queue ε}
    {sequence : Nat} (h : Expired state cutoff queue sequence) {entry : QueueEntryMetadata}
    (hentry : queue.metadata.get? sequence = some entry) :
    entry.state ≠ .pending ∧ entry.state ≠ .processing := by
  obtain ⟨entry', _, hentry', hstate, -⟩ := h
  rw [hentry] at hentry'
  obtain rfl := Option.some.inj hentry'
  cases state <;> simp [hstate, TerminalState.entryState]

namespace Removes

variable {gone more : Nat → Prop} {queue next last : Queue ε}

theorem refl (queue : Queue ε) : Removes (fun _ => False) queue queue := by
  constructor <;> simp

theorem congr (h : Removes gone queue next) (hiff : ∀ sequence, more sequence ↔ gone sequence) :
    Removes more queue next := by
  obtain rfl : more = gone := funext fun sequence => propext (hiff sequence)
  exact h

theorem trans (h : Removes gone queue next) (h' : Removes more next last) :
    Removes (fun sequence => gone sequence ∨ more sequence) queue last := by
  constructor
  case metadata =>
    intro sequence entry
    rw [h'.metadata, h.metadata, not_or]
    tauto
  case elements =>
    intro sequence element
    rw [h'.elements, h.elements, not_or]
    tauto
  case ids =>
    intro id sequence
    rw [h'.ids, h.ids, not_or]
    tauto
  case index =>
    intro state row sequence
    rw [h'.index, h.index, not_or]
    tauto
  case claims => rw [h'.claims, h.claims]
  case counter => rw [h'.counter, h.counter]
  case signal => rw [h'.signal, h.signal]

end Removes

/-! ## Rows and entries -/

section

variable {queue : Queue ε} {state : TerminalState} {cutoff : Option Int}

theorem QueueSound.expired_of_row (h : QueueSound queue) {indexed : (Int ×ₗ Nat) × Nat}
    (hrow : (queue.index state.entryState).get? indexed.1 = some indexed.2)
    (hbefore : Queue.beforeEnd cutoff indexed.1 = true) : Expired state cutoff queue indexed.2 := by
  obtain ⟨entry, last, hentry, hstate, -, -, rfl, hle, -⟩ := h.terminal_of_row hrow hbefore
  refine ⟨entry, last, hentry, hstate, rfl, ?_, hle⟩
  by_contra hneg
  simp [Queue.beforeEnd, not_le.mp hneg] at hbefore

theorem QueueSound.row_of_expired (h : QueueSound queue) {sequence : Nat}
    (hexpired : Expired state cutoff queue sequence) :
    ∃ row, (row, sequence) ∈ (queue.index state.entryState).rows (Queue.beforeEnd cutoff) := by
  obtain ⟨entry, time, hentry, hstate, rfl, hnonneg, hle⟩ := hexpired
  have htime : entry.indexTime = some entry.updatedAt := by
    unfold QueueEntryMetadata.indexTime
    rw [hstate]
    cases state <;> rfl
  exact ⟨toLex (timestamp entry.updatedAt, sequence), OrderedMap.mem_rows.mpr
    ⟨beforeEnd_of_visible hnonneg hle,
      (h.invariant.index _ _ _).mpr ⟨entry, entry.updatedAt, hentry, hstate, htime, rfl⟩⟩⟩

theorem QueueInvariant.row_unique {key : Int → Int} (h : QueueInvariant key queue)
    {state : EntryState} {row row' : Int ×ₗ Nat} {sequence : Nat}
    (hrow : (queue.index state).get? row = some sequence)
    (hrow' : (queue.index state).get? row' = some sequence) : row = row' := by
  obtain ⟨entry, -, hentry, -⟩ := (h.index _ _ _).mp hrow
  have hunique : (state, row) = (state, row') := (h.existsUnique_row hentry).unique hrow hrow'
  exact congrArg Prod.snd hunique

theorem QueueSound.removes_cleanupRow (h : QueueSound queue) {indexed : (Int ×ₗ Nat) × Nat}
    (hrow : (queue.index state.entryState).get? indexed.1 = some indexed.2)
    (hbefore : Queue.beforeEnd cutoff indexed.1 = true) :
    Removes (· = indexed.2) queue (queue.cleanupRow state cutoff indexed) := by
  obtain ⟨entry, last, hentry, hstate, -, -, rfl, hle, -⟩ := h.terminal_of_row hrow hbefore
  obtain ⟨row, sequence⟩ := indexed
  dsimp only at hrow hentry ⊢
  rw [cleanupRow_eq row hentry hstate hle]
  constructor
  case metadata =>
    intro sequence' entry'
    change (queue.metadata.clear sequence).get? sequence' = _ ↔ _
    rw [OrderedMap.get?_clear]
    split_ifs with heq <;> simp [heq]
  case elements =>
    intro sequence' element
    change (queue.elements.clear sequence).get? sequence' = _ ↔ _
    rw [OrderedMap.get?_clear]
    split_ifs with heq <;> simp [heq]
  case ids =>
    intro id sequence'
    change (queue.ids.clear entry.id).get? id = _ ↔ _
    have hid := (h.invariant.ids entry.id sequence).mpr ⟨entry, hentry, rfl⟩
    rw [OrderedMap.get?_clear]
    constructor
    · intro hget
      split_ifs at hget with heq
      refine ⟨?_, hget⟩
      rintro rfl
      obtain ⟨entry', hentry', rfl⟩ := (h.invariant.ids _ _).mp hget
      rw [hentry] at hentry'
      exact heq (congrArg QueueEntryMetadata.id (Option.some.inj hentry').symm)
    · rintro ⟨hne, hget⟩
      rw [if_neg]
      · exact hget
      · rintro rfl
        rw [hid] at hget
        exact hne (Option.some.inj hget).symm
  case index =>
    intro state' row' sequence'
    change ((queue.clearIndex entry.state row).index state').get? row' = _ ↔ _
    rw [get?_clearIndex, hstate]
    constructor
    · intro hget
      split_ifs at hget with hcleared
      refine ⟨?_, hget⟩
      rintro rfl
      have hstate' : state' = state.entryState := by
        obtain ⟨entry', -, hentry', hstate', -⟩ := (h.invariant.index _ _ _).mp hget
        rw [hentry] at hentry'
        rw [← hstate', ← hstate, Option.some.inj hentry']
      rw [hstate'] at hget hcleared
      exact hcleared ⟨rfl, h.invariant.row_unique hget hrow⟩
    · rintro ⟨hne, hget⟩
      rw [if_neg]
      · exact hget
      · rintro ⟨rfl, rfl⟩
        rw [hrow] at hget
        exact hne (Option.some.inj hget).symm
  case claims => rfl
  case counter => rfl
  case signal => rfl

theorem QueueSound.removes_cleanupRows (entries : List ((Int ×ₗ Nat) × Nat)) (h : QueueSound queue)
    (hrows : ∀ indexed ∈ entries,
      (queue.index state.entryState).get? indexed.1 = some indexed.2 ∧
        Queue.beforeEnd cutoff indexed.1 = true)
    (hdistinct : entries.Pairwise fun left right => left.1 ≠ right.1) :
    Removes (fun sequence => ∃ indexed ∈ entries, indexed.2 = sequence) queue
      (entries.foldl (fun queue indexed => queue.cleanupRow state cutoff indexed) queue) := by
  induction entries generalizing queue with
  | nil => exact (Removes.refl queue).congr (by simp)
  | cons indexed entries ih =>
      obtain ⟨hother, hrest⟩ := List.pairwise_cons.mp hdistinct
      obtain ⟨hrow, hbefore⟩ := hrows indexed (by simp)
      obtain ⟨hsound, hindex⟩ := cleanupRow_spec h hrow hbefore
      have hlater := ih hsound (fun later hmem => by
        rw [hindex later.1 (hother later hmem).symm]
        exact hrows later (List.mem_cons_of_mem _ hmem)) hrest
      refine ((h.removes_cleanupRow hrow hbefore).trans hlater).congr fun sequence => ?_
      simp [eq_comm]

/-! ## Batches -/

theorem QueueSound.removes_cleanupBatch (h : QueueSound queue) (state : TerminalState)
    (cutoff : Option Int) :
    Removes (fun sequence => ∃ indexed ∈ Queue.indexBefore (queue.index state.entryState) cutoff,
      indexed.2 = sequence) queue (queue.cleanupBatch state cutoff).1 :=
  h.removes_cleanupRows _ (fun _ => mem_indexBefore) (indexBefore_pairwise _ _)

theorem QueueSound.expired_of_batch (h : QueueSound queue) {sequence : Nat}
    (hgone : ∃ indexed ∈ Queue.indexBefore (queue.index state.entryState) cutoff,
      indexed.2 = sequence) : Expired state cutoff queue sequence := by
  obtain ⟨indexed, hmem, rfl⟩ := hgone
  obtain ⟨hrow, hbefore⟩ := mem_indexBefore hmem
  exact h.expired_of_row hrow hbefore

theorem QueueSound.rows_cleanupBatch (h : QueueSound queue) (state : TerminalState)
    (cutoff : Option Int) :
    ((queue.cleanupBatch state cutoff).1.index state.entryState).rows (Queue.beforeEnd cutoff) =
      ((queue.index state.entryState).rows (Queue.beforeEnd cutoff)).drop indexBatchSize := by
  have hremoves := h.removes_cleanupBatch state cutoff
  have hsorted := (queue.index state.entryState).rows_sorted (Queue.beforeEnd cutoff)
  refine OrderedMap.rows_eq (hsorted.sublist (List.drop_sublist _ _)) ?_
  rintro ⟨row, sequence⟩
  have hsplit := List.take_append_drop indexBatchSize
    ((queue.index state.entryState).rows (Queue.beforeEnd cutoff))
  rw [OrderedMap.mem_rows, hremoves.index]
  constructor
  · rintro ⟨hbefore, hkept, hrow⟩
    have hmem : (row, sequence) ∈ (queue.index state.entryState).rows (Queue.beforeEnd cutoff) :=
      OrderedMap.mem_rows.mpr ⟨hbefore, hrow⟩
    rw [← hsplit] at hmem
    rcases List.mem_append.mp hmem with htaken | hleft
    · exact absurd ⟨(row, sequence), htaken, rfl⟩ hkept
    · exact hleft
  · intro hleft
    obtain ⟨hbefore, hrow⟩ := OrderedMap.mem_rows.mp (List.mem_of_mem_drop hleft)
    refine ⟨hbefore, ?_, hrow⟩
    rintro ⟨⟨row', sequence'⟩, htaken, rfl⟩
    -- A row that is left lies after all rows that were taken.
    rw [← hsplit] at hsorted
    have hlt := (List.pairwise_append.mp hsorted).2.2 _ htaken _ hleft
    exact hlt.ne (h.invariant.row_unique (mem_indexBefore htaken).1 hrow)

/-- The loop ends once it has gone through all rows, and leaves no entry that its cutoff lets
go. -/
theorem QueueSound.removes_cleanupState (h : QueueSound queue) (state : TerminalState)
    (cutoff : Option Int) (fuel : Nat)
    (hfuel : ((queue.index state.entryState).rows (Queue.beforeEnd cutoff)).length < fuel) :
    ∃ next, Queue.cleanupState state cutoff fuel queue = some next ∧
      Removes (Expired state cutoff queue) queue next := by
  induction fuel generalizing queue with
  | zero => exact absurd hfuel (Nat.not_lt_zero _)
  | succ fuel ih =>
      have hremoves := h.removes_cleanupBatch state cutoff
      have hsound := h.cleanupBatch state cutoff
      have hrows := h.rows_cleanupBatch state cutoff
      have hcount : (queue.cleanupBatch state cutoff).2 =
          (Queue.indexBefore (queue.index state.entryState) cutoff).length := rfl
      have hexpired {sequence : Nat} : (∃ indexed ∈ Queue.indexBefore
          (queue.index state.entryState) cutoff, indexed.2 = sequence) →
            Expired state cutoff queue sequence := h.expired_of_batch
      rw [Queue.cleanupState]
      generalize queue.cleanupBatch state cutoff = batch at hremoves hsound hrows hcount ⊢
      obtain ⟨next, count⟩ := batch
      dsimp only at hremoves hsound hrows hcount ⊢
      rw [hcount, Queue.indexBefore, List.length_take]
      split_ifs with hlast
      · refine ⟨next, rfl, hremoves.congr fun sequence => ⟨fun hgone => ?_, hexpired⟩⟩
        obtain ⟨row, hrow⟩ := h.row_of_expired hgone
        refine ⟨(row, sequence), ?_, rfl⟩
        rwa [Queue.indexBefore, List.take_of_length_le (by omega)]
      · have hpos : 0 < indexBatchSize := by decide
        obtain ⟨last, hstate, hrest⟩ := ih hsound (by rw [hrows, List.length_drop]; omega)
        refine ⟨last, hstate, (hremoves.trans hrest).congr fun sequence => ?_⟩
        constructor
        · rintro hgone
          by_cases hbatch : ∃ indexed ∈ Queue.indexBefore (queue.index state.entryState) cutoff,
              indexed.2 = sequence
          · exact .inl hbatch
          · obtain ⟨entry, time, hentry, hrest⟩ := hgone
            exact .inr ⟨entry, time, (hremoves.metadata _ _).mpr ⟨hbatch, hentry⟩, hrest⟩
        · rintro (hbatch | ⟨entry, time, hentry, hrest⟩)
          · exact hexpired hbatch
          · exact ⟨entry, time, ((hremoves.metadata _ _).mp hentry).2, hrest⟩

end

/-! ## Exactness -/

/-- A cleanup on its own removes exactly the expired entries of its state. Between transactions of
other clients each of its batches removes expired entries only, and none that is pending or
processing. -/
theorem cleanupState_exact {queue : Queue ε} (h : QueueSound queue) (state : TerminalState)
    (cutoff : Option Int) :
    (∃ fuel next, Queue.cleanupState state cutoff fuel queue = some next ∧
      Removes (Expired state cutoff queue) queue next) ∧
    ∀ commits middle, Run QueueStep queue commits middle →
      (∀ commit ∈ commits, commit.now ≤ maxSafeInteger) →
      ∃ gone, Removes gone middle (middle.cleanupBatch state cutoff).1 ∧
        (∀ sequence, gone sequence → Expired state cutoff middle sequence) ∧
        ∀ sequence entry, middle.metadata.get? sequence = some entry →
          entry.state = .pending ∨ entry.state = .processing → ¬gone sequence := by
  refine ⟨⟨_, h.removes_cleanupState state cutoff _ (Nat.lt_succ_self _)⟩, ?_⟩
  intro commits middle hrun hclock
  have hmiddle : QueueSound middle :=
    hrun.invariant (fun _ _ _ hnow hstep hsound => QueueStep.sound hstep hsound hnow) hclock h
  refine ⟨_, hmiddle.removes_cleanupBatch state cutoff, fun _ => hmiddle.expired_of_batch, ?_⟩
  intro sequence entry hentry hstate hgone
  obtain ⟨hpending, hprocessing⟩ := (hmiddle.expired_of_batch hgone).terminal hentry
  rcases hstate with hstate | hstate
  · exact hpending hstate
  · exact hprocessing hstate

def finishedJob (now : Int) : List (QueueCommit Unit) :=
  [⟨.offer "job" (), 0⟩, ⟨.claim "worker" 10 (some 120000), 1000⟩,
    ⟨.finalizeClaim "worker" 0 1 10 none .success, now⟩]

theorem cleanupState_exact_finishedJob :
    ∃ queue, Run QueueStep Queue.empty (finishedJob 2000) queue ∧
      Expired .completed (some 2000) queue 0 ∧
      ∃ fuel next, Queue.cleanupState .completed (some 2000) fuel queue = some next ∧
        Removes (Expired .completed (some 2000) queue) queue next := by
  have hrun : Run QueueStep (Queue.empty : Queue Unit) (finishedJob 2000) _ :=
    .snoc (.snoc (.snoc (.nil _) (.offer _ _ _ _)) (.claim _ _ _ _ rfl)) (.finalizeClaim ..)
  exact ⟨_, hrun, ⟨_, 2000, rfl, rfl, rfl, by decide, le_rfl⟩,
    (cleanupState_exact (QueueSound.of_run hrun (by decide)) .completed (some 2000)).1⟩

/-- An entry that was updated before time zero outlives an earlier cutoff, and one that was
updated beyond the range of the index keys loses its row alone. -/
theorem not_cleanupState_exact :
    (∃ queue entry, Run QueueStep Queue.empty (finishedJob (-5)) queue ∧
      QueueInvariant timestamp queue ∧ queue.metadata.get? 0 = some entry ∧
      entry.state = .completed ∧ entry.updatedAt ≤ -3 ∧
      ∀ fuel next, Queue.cleanupState .completed (some (-3)) fuel queue = some next →
        next.metadata.get? 0 = some entry) ∧
    ∃ queue entry row, Run QueueStep Queue.empty (finishedJob (2 ^ 53 + 4)) queue ∧
      QueueInvariant timestamp queue ∧ queue.metadata.get? 0 = some entry ∧
      2 ^ 53 < entry.updatedAt ∧ (queue.index .completed).get? row = some 0 ∧
      ∀ fuel next, Queue.cleanupState .completed (some (2 ^ 53)) fuel queue = some next →
        next.metadata.get? 0 = some entry ∧ (next.index .completed).get? row = none := by
  have hclaimed : Run QueueStep (Queue.empty : Queue Unit)
      [⟨.offer "job" (), 0⟩, ⟨.claim "worker" 10 (some 120000), 1000⟩] _ :=
    .snoc (.snoc (.nil _) (.offer _ _ _ _)) (.claim _ _ _ _ rfl)
  constructor
  · have hrun : Run QueueStep (Queue.empty : Queue Unit) (finishedJob (-5)) _ :=
      .snoc hclaimed (.finalizeClaim ..)
    refine ⟨_, _, hrun, (QueueSound.of_run hrun (by decide)).invariant, rfl, rfl, by decide, ?_⟩
    rintro (_ | fuel) next hnext
    · cases hnext
    · cases hnext
      rfl
  · have hrun : Run QueueStep (Queue.empty : Queue Unit) (finishedJob (2 ^ 53 + 4)) _ :=
      .snoc hclaimed (.finalizeClaim ..)
    have hsound := QueueSound.of_run hclaimed (by decide)
    have hreleased : Rewrites _ _ 0
        (some ⟨"job", 1, .completed, 2 ^ 53 + 4, none, none, 2 ^ 53 + 4⟩) :=
      hsound.invariant.rewrites_release rfl rfl rfl rfl rfl rfl (by decide)
    refine ⟨_, _, toLex (maxSafeInteger, 0), hrun, ?_, rfl, by decide, rfl, ?_⟩
    · refine hsound.invariant.rewrite hreleased ?_
      rintro _ ⟨⟩
      exact ⟨rfl, (nomatch ·), by decide⟩
    · rintro (_ | fuel) next hnext
      · cases hnext
      · cases hnext
        exact ⟨rfl, rfl⟩

end FoundationDbEffect.PersistedQueue
