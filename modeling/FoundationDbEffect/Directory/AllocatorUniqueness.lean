import FoundationDbEffect.Directory.Allocator

/-!
# Allocated integers are unique

An integer is spent in a state when it has a recent row there or lies below the start of an
opened window.  An allocation leaves its integer spent, a spent integer stays spent whatever
is committed, and an allocation reads its integer as unspent.  Two allocations of one
integer would therefore have missed each other, which the conflict on the recent row
excludes.
-/

namespace FoundationDbEffect.Directory

open FoundationDbEffect.Foundation

def AllocatorState.Spent (state : AllocatorState) (candidate : Int) : Prop :=
  candidate ∈ state.recent ∨ ∃ start, candidate < start ∧ (state.counters.get? start).isSome

abbrev replay (mutations : List AllocatorMutation) (state : AllocatorState) : AllocatorState :=
  mutations.foldl AllocatorState.apply state

/-! ## Blocks of mutations -/

/-- The mutations that a transaction issues together: rows below a window start are only
cleared when a counter of that window follows. -/
inductive AllocatorBlock : List AllocatorMutation → Prop where
  | enter (start : Int) : AllocatorBlock [.addOne start]
  | advance (start : Int) :
      AllocatorBlock [.clearCounters start, .clearRecent start, .addOne start]
  | mark (candidate : Int) : AllocatorBlock [.setRecent candidate]

inductive AllocatorBlocks : List AllocatorMutation → Prop where
  | nil : AllocatorBlocks []
  | append {mutations block : List AllocatorMutation} (h : AllocatorBlocks mutations)
      (hblock : AllocatorBlock block) : AllocatorBlocks (mutations ++ block)

theorem Spent_addOne {state : AllocatorState} {candidate : Int} (start : Int)
    (h : state.Spent candidate) : (state.apply (.addOne start)).Spent candidate := by
  rcases h with hrecent | ⟨start', hlt, hsome⟩
  · exact .inl hrecent
  · refine .inr ⟨start', hlt, ?_⟩
    simp only [AllocatorState.apply, OrderedMap.get?_set]
    split_ifs
    · rfl
    · exact hsome

theorem Spent_addOne_of_lt (state : AllocatorState) {candidate start : Int}
    (h : candidate < start) : (state.apply (.addOne start)).Spent candidate :=
  .inr ⟨start, h, by simp [AllocatorState.apply]⟩

theorem AllocatorBlock.spent {block : List AllocatorMutation} (hblock : AllocatorBlock block)
    {state : AllocatorState} {candidate : Int} (h : state.Spent candidate) :
    (replay block state).Spent candidate := by
  cases hblock with
  | enter start => exact Spent_addOne start h
  | mark candidate' =>
      rcases h with hrecent | hcounter
      · exact .inl (Finset.mem_insert_of_mem hrecent)
      · exact .inr hcounter
  | advance start =>
      rcases lt_or_ge candidate start with hlt | hge
      · exact Spent_addOne_of_lt _ hlt
      · apply Spent_addOne
        rcases h with hrecent | ⟨start', hlt, hsome⟩
        · left
          simp [AllocatorState.apply, hrecent, hge]
        · refine .inr ⟨start', hlt, ?_⟩
          simp only [AllocatorState.apply, OrderedMap.get?_clearRange]
          rw [if_neg (by simp; omega)]
          exact hsome

/-- A row that a block sets or clears belongs to a spent integer after the block. -/
theorem AllocatorBlock.spent_of_overwrites {block : List AllocatorMutation}
    (hblock : AllocatorBlock block) {candidate : Int}
    (h : block.any (AllocatorTransaction.overwrites candidate) = true)
    (state : AllocatorState) : (replay block state).Spent candidate := by
  cases hblock with
  | enter start => simp [AllocatorTransaction.overwrites] at h
  | mark candidate' =>
      obtain rfl : candidate' = candidate := by simpa [AllocatorTransaction.overwrites] using h
      exact .inl (Finset.mem_insert_self _ _)
  | advance start =>
      have hlt : candidate < start := by simpa [AllocatorTransaction.overwrites] using h
      exact Spent_addOne_of_lt _ hlt

theorem AllocatorBlocks.append_blocks {mutations later : List AllocatorMutation}
    (h : AllocatorBlocks mutations) (hlater : AllocatorBlocks later) :
    AllocatorBlocks (mutations ++ later) := by
  induction hlater with
  | nil => simpa using h
  | append _ hblock ih =>
      rw [← List.append_assoc]
      exact ih.append hblock

theorem AllocatorBlocks.spent {mutations : List AllocatorMutation}
    (h : AllocatorBlocks mutations) {state : AllocatorState} {candidate : Int}
    (hspent : state.Spent candidate) : (replay mutations state).Spent candidate := by
  induction h with
  | nil => exact hspent
  | append _ hblock ih =>
      rw [replay, List.foldl_append]
      exact hblock.spent ih

theorem AllocatorBlocks.spent_of_overwrites {mutations : List AllocatorMutation}
    (h : AllocatorBlocks mutations) {candidate : Int}
    (hany : mutations.any (AllocatorTransaction.overwrites candidate) = true)
    (state : AllocatorState) : (replay mutations state).Spent candidate := by
  induction h with
  | nil => simp at hany
  | append _ hblock ih =>
      rw [replay, List.foldl_append]
      rw [List.any_append, Bool.or_eq_true] at hany
      rcases hany with hany | hany
      · exact hblock.spent (ih hany)
      · exact hblock.spent_of_overwrites hany _

/-! ## Transactions in progress -/

/-- What an allocation leaves in its transaction: it read the row of its integer with
conflict, while the integer was unspent in the snapshot, and set it with conflict. -/
structure Allocated (transaction : AllocatorTransaction) (candidate : Int) : Prop where
  read : .recent candidate ∈ transaction.reads
  written : .recent candidate ∈ transaction.writes
  overwritten : transaction.mutations.any (AllocatorTransaction.overwrites candidate) = true
  fresh : ¬ transaction.snapshot.Spent candidate

structure AllocatorTransaction.Sound (transaction : AllocatorTransaction) : Prop where
  blocks : AllocatorBlocks transaction.mutations
  allocated : ∀ candidate ∈ transaction.allocated, Allocated transaction candidate
  nodup : transaction.allocated.Nodup

/-- One transaction continues another: it has the same snapshot and results, it adds whole
blocks of mutations, and it keeps all conflicts. -/
structure Continues (transaction next : AllocatorTransaction) : Prop where
  snapshot : next.snapshot = transaction.snapshot
  allocated : next.allocated = transaction.allocated
  mutations : ∃ later, AllocatorBlocks later ∧ next.mutations = transaction.mutations ++ later
  reads : transaction.reads ⊆ next.reads
  writes : transaction.writes ⊆ next.writes

namespace Continues

theorem refl (transaction : AllocatorTransaction) : Continues transaction transaction :=
  ⟨rfl, rfl, ⟨[], .nil, (List.append_nil _).symm⟩, fun _ => id, fun _ => id⟩

theorem trans {first second third : AllocatorTransaction} (h : Continues first second)
    (h' : Continues second third) : Continues first third := by
  obtain ⟨later, hblocks, hlater⟩ := h.mutations
  obtain ⟨later', hblocks', hlater'⟩ := h'.mutations
  refine ⟨h'.snapshot.trans h.snapshot, h'.allocated.trans h.allocated,
    ⟨later ++ later', hblocks.append_blocks hblocks', ?_⟩,
    fun _ hmem => h'.reads (h.reads hmem), fun _ hmem => h'.writes (h.writes hmem)⟩
  rw [hlater', hlater, List.append_assoc]

theorem of_block {transaction : AllocatorTransaction} {block : List AllocatorMutation}
    (hblock : AllocatorBlock block) {writes : List AllocatorKey}
    (hwrites : transaction.writes ⊆ writes) :
    Continues transaction
      { transaction with mutations := transaction.mutations ++ block, writes } :=
  ⟨rfl, rfl, ⟨block, .append .nil hblock, rfl⟩, fun _ => id, hwrites⟩

variable {transaction next : AllocatorTransaction}

theorem blocks (h : Continues transaction next) (hblocks : AllocatorBlocks transaction.mutations) :
    AllocatorBlocks next.mutations := by
  obtain ⟨later, hlater, heq⟩ := h.mutations
  rw [heq]
  exact hblocks.append_blocks hlater

theorem spent (h : Continues transaction next) {candidate : Int}
    (hspent : transaction.view.Spent candidate) : next.view.Spent candidate := by
  obtain ⟨later, hlater, heq⟩ := h.mutations
  rw [AllocatorTransaction.view, heq, h.snapshot, List.foldl_append]
  exact hlater.spent hspent

theorem allocated_of (h : Continues transaction next) {candidate : Int}
    (hallocated : Allocated transaction candidate) : Allocated next candidate := by
  obtain ⟨later, -, heq⟩ := h.mutations
  refine ⟨h.reads hallocated.read, h.writes hallocated.written, ?_, ?_⟩
  · rw [heq, List.any_append, hallocated.overwritten, Bool.true_or]
  · rw [h.snapshot]
    exact hallocated.fresh

theorem sound (h : Continues transaction next) (hsound : transaction.Sound) : next.Sound := by
  refine ⟨h.blocks hsound.blocks, ?_, ?_⟩
  · intro candidate hmem
    rw [h.allocated] at hmem
    exact h.allocated_of (hsound.allocated candidate hmem)
  · rw [h.allocated]
    exact hsound.nodup

end Continues

theorem enterWindow_continues (transaction : AllocatorTransaction) (start : Int)
    (advanced : Bool) : Continues transaction (enterWindow transaction start advanced) := by
  unfold enterWindow AllocatorTransaction.addWriteConflict AllocatorTransaction.mutate
  cases advanced with
  | false => exact .of_block (.enter start) (List.subset_cons_self _ _)
  | true =>
      have h := Continues.of_block (.advance start)
        (List.subset_cons_self (.counter start) transaction.writes)
      simpa using h

theorem windowLoop_continues {fuel : Nat} {transaction next : AllocatorTransaction}
    {start start' window : Int} {advanced : Bool}
    (h : windowLoop fuel transaction start advanced = some (next, start', window)) :
    Continues transaction next := by
  induction fuel generalizing transaction start advanced with
  | zero => simp [windowLoop] at h
  | succ fuel ih =>
      have henter := enterWindow_continues transaction start advanced
      simp only [windowLoop] at h
      split at h
      · simp only [Option.some.injEq, Prod.mk.injEq] at h
        obtain ⟨rfl, -, -⟩ := h
        exact henter
      · exact henter.trans (ih h)

theorem getRecent_reads {transaction : AllocatorTransaction} {candidate : Int}
    (h : transaction.mutations.any (AllocatorTransaction.overwrites candidate) = false) :
    .recent candidate ∈ (transaction.getRecent candidate).2.reads := by
  simp [AllocatorTransaction.getRecent, h]

theorem getRecent_continues (transaction : AllocatorTransaction) (candidate : Int) :
    Continues transaction (transaction.getRecent candidate).2 := by
  unfold AllocatorTransaction.getRecent
  split
  · exact .refl _
  · exact ⟨rfl, rfl, ⟨[], .nil, (List.append_nil _).symm⟩, List.subset_cons_self _ _,
      fun _ => id⟩

theorem mark_continues (transaction : AllocatorTransaction) (candidate : Int) :
    Continues transaction (transaction.mutate (.setRecent candidate)) :=
  .of_block (.mark candidate) fun _ => id

theorem addWriteConflict_continues (transaction : AllocatorTransaction) (key : AllocatorKey) :
    Continues transaction (transaction.addWriteConflict key) :=
  ⟨rfl, rfl, ⟨[], .nil, (List.append_nil _).symm⟩, fun _ => id, List.subset_cons_self _ _⟩

theorem tryCandidate_continues (transaction : AllocatorTransaction) (start candidate : Int) :
    Continues transaction (tryCandidate transaction start candidate).1 := by
  have hmark := (getRecent_continues transaction candidate).trans (mark_continues _ candidate)
  unfold tryCandidate
  dsimp only
  split_ifs
  · exact hmark
  · exact hmark
  · exact hmark.trans (addWriteConflict_continues _ _)

theorem le_latestStart {transaction : AllocatorTransaction} {start : Int}
    (h : (transaction.view.counters.get? start).isSome) :
    start ≤ transaction.latestStart.getD 0 := by
  unfold AllocatorTransaction.latestStart
  cases hlast : transaction.view.counters.last? fun _ => true with
  | none =>
      rw [OrderedMap.last?_eq_none.mp hlast start rfl] at h
      simp at h
  | some entry => exact (OrderedMap.last?_eq_some hlast).2.2 start rfl h

theorem view_eq (transaction : AllocatorTransaction) :
    transaction.view = replay transaction.mutations transaction.snapshot := rfl

/-- The step lemma: a candidate is handed out only when it is unspent. -/
theorem tryCandidate_allocated {transaction next : AllocatorTransaction}
    {start candidate candidate' : Int} (hblocks : AllocatorBlocks transaction.mutations)
    (hstart : start ≤ candidate)
    (h : tryCandidate transaction start candidate = (next, .allocated candidate')) :
    candidate' = candidate ∧ Allocated next candidate' ∧
      ¬ transaction.view.Spent candidate' := by
  have hcontinues := tryCandidate_continues transaction start candidate
  rw [h] at hcontinues
  unfold tryCandidate at h
  dsimp only at h
  split_ifs at h with hstale htaken
  · simp at h
  · simp at h
  simp only [Prod.mk.injEq, CandidateResult.allocated.injEq] at h
  obtain ⟨rfl, rfl⟩ := h
  have hunspent : ¬ transaction.view.Spent candidate := by
    rintro (hrecent | ⟨start', hlt, hsome⟩)
    · exact htaken (by simpa [AllocatorTransaction.getRecent] using hrecent)
    · have hle := le_latestStart hsome
      omega
  have hoverwrites :
      transaction.mutations.any (AllocatorTransaction.overwrites candidate) = false := by
    rw [Bool.eq_false_iff]
    intro hany
    exact hunspent (hblocks.spent_of_overwrites hany _)
  refine ⟨rfl, ⟨getRecent_reads hoverwrites, List.mem_cons_self, ?_, ?_⟩, hunspent⟩
  · simp [AllocatorTransaction.addWriteConflict, AllocatorTransaction.mutate,
      AllocatorTransaction.overwrites]
  · rw [hcontinues.snapshot]
    intro hspent
    exact hunspent (hblocks.spent hspent)

theorem le_randomCandidate (start window : Int) (random : UInt32) :
    start ≤ randomCandidate start window random := by
  unfold randomCandidate
  omega

theorem candidateLoop_spec {randoms rest : List UInt32}
    {transaction next : AllocatorTransaction} {start window : Int} {result : Option Int}
    (hsound : transaction.Sound)
    (h : candidateLoop randoms transaction start window = some (next, rest, result)) :
    Continues transaction next ∧ ∀ candidate, result = some candidate →
      Allocated next candidate ∧ ¬ transaction.view.Spent candidate := by
  induction randoms generalizing transaction with
  | nil => simp [candidateLoop] at h
  | cons random randoms ih =>
      rw [candidateLoop] at h
      have hcontinues :=
        tryCandidate_continues transaction start (randomCandidate start window random)
      rcases htry : tryCandidate transaction start (randomCandidate start window random) with
        ⟨transaction', _ | candidate | _⟩
      all_goals rw [htry] at h hcontinues
      case stale =>
        simp only [Option.some.injEq, Prod.mk.injEq] at h
        obtain ⟨rfl, -, rfl⟩ := h
        exact ⟨hcontinues, by simp⟩
      case allocated =>
        simp only [Option.some.injEq, Prod.mk.injEq] at h
        obtain ⟨rfl, -, rfl⟩ := h
        obtain ⟨-, hallocated, hunspent⟩ :=
          tryCandidate_allocated hsound.blocks (le_randomCandidate _ _ _) htry
        refine ⟨hcontinues, ?_⟩
        rintro candidate' hcandidate
        obtain rfl := Option.some.inj hcandidate
        exact ⟨hallocated, hunspent⟩
      case taken =>
        obtain ⟨hrest, hresult⟩ := ih (hcontinues.sound hsound) h
        refine ⟨hcontinues.trans hrest, ?_⟩
        intro candidate hcandidate
        obtain ⟨hallocated, hunspent⟩ := hresult candidate hcandidate
        exact ⟨hallocated, fun hspent => hunspent (hcontinues.spent hspent)⟩

theorem allocatePrefixLocked_spec {fuel : Nat} {randoms : List UInt32}
    {transaction next : AllocatorTransaction} {candidate : Int} (hsound : transaction.Sound)
    (h : allocatePrefixLocked fuel randoms transaction = some (next, candidate)) :
    Continues transaction next ∧ Allocated next candidate ∧
      ¬ transaction.view.Spent candidate := by
  induction fuel generalizing transaction randoms with
  | zero => simp [allocatePrefixLocked] at h
  | succ fuel ih =>
      rw [allocatePrefixLocked] at h
      split at h
      · simp at h
      · rename_i windowed start window hwindow
        have hwindowed := windowLoop_continues hwindow
        split at h
        · simp at h
        · rename_i tried rest candidate' hcandidates
          obtain ⟨htried, hresult⟩ := candidateLoop_spec (hwindowed.sound hsound) hcandidates
          obtain ⟨hallocated, hunspent⟩ := hresult candidate' rfl
          simp only [Option.some.injEq, Prod.mk.injEq] at h
          obtain ⟨rfl, rfl⟩ := h
          exact ⟨hwindowed.trans htried, hallocated,
            fun hspent => hunspent (hwindowed.spent hspent)⟩
        · rename_i tried rest hcandidates
          obtain ⟨htried, -⟩ := candidateLoop_spec (hwindowed.sound hsound) hcandidates
          have hcontinues := hwindowed.trans htried
          obtain ⟨hnext, hallocated, hunspent⟩ := ih (hcontinues.sound hsound) h
          exact ⟨hcontinues.trans hnext, hallocated,
            fun hspent => hunspent (hcontinues.spent hspent)⟩

theorem allocatePrefix_sound {fuel : Nat} {randoms : List UInt32}
    {transaction next : AllocatorTransaction} (hsound : transaction.Sound)
    (h : allocatePrefix fuel randoms transaction = some next) :
    next.Sound ∧ next.snapshot = transaction.snapshot := by
  unfold allocatePrefix at h
  rw [Option.map_eq_some_iff] at h
  obtain ⟨⟨last, candidate⟩, hlocked, rfl⟩ := h
  obtain ⟨hcontinues, hallocated, hunspent⟩ := allocatePrefixLocked_spec hsound hlocked
  have hlast := hcontinues.sound hsound
  have hmem (candidate' : Int) (hallocated' : Allocated last candidate') :
      Allocated { last with allocated := candidate :: last.allocated } candidate' :=
    ⟨hallocated'.read, hallocated'.written, hallocated'.overwritten, hallocated'.fresh⟩
  refine ⟨⟨hlast.blocks, ?_, ?_⟩, hcontinues.snapshot⟩
  · intro candidate' hcandidate
    rcases List.mem_cons.mp hcandidate with rfl | hcandidate
    · exact hmem _ hallocated
    · exact hmem _ (hlast.allocated candidate' hcandidate)
  · refine List.nodup_cons.mpr ⟨?_, hlast.nodup⟩
    intro hagain
    rw [hcontinues.allocated] at hagain
    exact hunspent (hsound.blocks.spent_of_overwrites
      (hsound.allocated candidate hagain).overwritten _)

/-- The run lemma: any number of calls keeps a transaction sound. -/
theorem Allocates.sound {snapshot : AllocatorState} {transaction : AllocatorTransaction}
    (h : Allocates snapshot transaction) :
    transaction.Sound ∧ transaction.snapshot = snapshot := by
  induction h with
  | start => exact ⟨⟨.nil, by simp, .nil⟩, rfl⟩
  | call fuel randoms _ hcall ih =>
      obtain ⟨hsound, hsnapshot⟩ := ih
      obtain ⟨hnext, hsnapshot'⟩ := allocatePrefix_sound hsound hcall
      exact ⟨hnext, hsnapshot'.trans hsnapshot⟩

/-! ## Histories -/

structure AllocationFacts (snapshot : AllocatorState) (allocation : Allocation) : Prop where
  nodup : allocation.result.Nodup
  read : ∀ candidate ∈ allocation.result, .recent candidate ∈ allocation.reads
  written : ∀ candidate ∈ allocation.result, .recent candidate ∈ allocation.writes
  fresh : ∀ candidate ∈ allocation.result, ¬ snapshot.Spent candidate
  spends : ∀ candidate ∈ allocation.result, ∀ state : AllocatorState,
    (replay allocation.mutations state).Spent candidate
  keeps : ∀ (candidate : Int) (state : AllocatorState), state.Spent candidate →
    (replay allocation.mutations state).Spent candidate

theorem allocationBody_facts {snapshot : AllocatorState} {allocation : Allocation}
    (h : allocationBody snapshot allocation) : AllocationFacts snapshot allocation := by
  obtain ⟨transaction, hallocates, heq⟩ := h
  obtain ⟨hsound, rfl⟩ := hallocates.sound
  rw [heq]
  exact
    { nodup := hsound.nodup
      read := fun candidate hmem => (hsound.allocated candidate hmem).read
      written := fun candidate hmem => (hsound.allocated candidate hmem).written
      fresh := fun candidate hmem => (hsound.allocated candidate hmem).fresh
      spends := fun candidate hmem state =>
        hsound.blocks.spent_of_overwrites (hsound.allocated candidate hmem).overwritten state
      keeps := fun candidate state hspent => hsound.blocks.spent hspent }

def allocations (history : List Allocation) : List Int :=
  history.flatMap Transaction.result

/-- An allocation misses no earlier one of its integers: the earlier allocation is in its
snapshot, where the integer is spent. -/
theorem not_mem_allocations {initial : AllocatorState} {history : List Allocation}
    {allocation : Allocation} (hhistory : AllocatorHistory initial history)
    (hbody : allocationBody
      (Occ.stateAt (fun _ => AllocatorState.apply) initial
        (Occ.before history allocation.readVersion)) allocation)
    (hconflict : ∀ later ∈ Occ.since history allocation.readVersion,
      Disjoint allocation.reads later.writes) {candidate : Int}
    (hnew : candidate ∈ allocation.result) : candidate ∉ allocations history := by
  have hfacts := allocationBody_facts hbody
  intro hold
  obtain ⟨earlier, hearlier, hcandidate⟩ := List.mem_flatMap.mp hold
  obtain ⟨_, hbody'⟩ := hhistory.exists_body hearlier
  have hbefore := Occ.mem_before_of_conflict hconflict hearlier
    (hfacts.read candidate hnew) ((allocationBody_facts hbody').written candidate hcandidate)
  refine hfacts.fresh candidate hnew (Occ.stateAt_of_mem
    (P := fun state : AllocatorState => state.Spent candidate) hbefore
    (fun _ => (allocationBody_facts hbody').spends _ hcandidate) ?_)
  intro transaction hmem _ state hspent
  obtain ⟨_, hbody''⟩ := hhistory.exists_body (List.mem_of_mem_drop hmem)
  exact (allocationBody_facts hbody'').keeps candidate state hspent

/-- No two committed allocations of one allocator return the same integer. -/
theorem allocations_nodup {initial : AllocatorState} {history : List Allocation}
    (h : AllocatorHistory initial history) : (allocations history).Nodup := by
  induction h with
  | nil => exact .nil
  | @commit history allocation hhistory hversion hbody hconflict ih =>
      rw [allocations, List.flatMap_cons]
      refine List.nodup_append'.mpr ⟨(allocationBody_facts hbody).nodup, ih, ?_⟩
      exact fun candidate hnew hold => not_mem_allocations hhistory hbody hconflict hnew hold

/-- Two transactions that read the empty allocator and draw different candidates. -/
def racingAllocations : List Allocation :=
  let state : AllocatorState := ⟨∅, ∅⟩
  let transaction (candidate : Int) : AllocatorTransaction :=
    { snapshot := state
      mutations := [.addOne 0, .setRecent candidate]
      reads := [.recent candidate]
      writes := [.recent candidate, .counter 0]
      allocated := [candidate] }
  [(transaction 1).commit 0, (transaction 0).commit 0]

theorem history_racing : AllocatorHistory ⟨∅, ∅⟩ racingAllocations := by
  have hbody (candidate : Int) (random : UInt32)
      (hcall : allocatePrefix 1 [random] { snapshot := ⟨∅, ∅⟩ } = some
        { snapshot := ⟨∅, ∅⟩
          mutations := [.addOne 0, .setRecent candidate]
          reads := [.recent candidate]
          writes := [.recent candidate, .counter 0]
          allocated := [candidate] }) :
      allocationBody ⟨∅, ∅⟩ (AllocatorTransaction.commit
        { snapshot := ⟨∅, ∅⟩
          mutations := [.addOne 0, .setRecent candidate]
          reads := [.recent candidate]
          writes := [.recent candidate, .counter 0]
          allocated := [candidate] } 0) :=
    ⟨_, .call 1 [random] .start hcall, rfl⟩
  refine .commit (.commit .nil (Nat.zero_le _) (hbody 0 0 ?_) (by simp [Occ.since]))
    (Nat.zero_le _) (hbody 1 1 ?_) ?_
  · rfl
  · rfl
  · intro later hlater
    simp only [Occ.since, List.length_singleton, AllocatorTransaction.commit, Nat.sub_zero,
      List.take_succ_cons, List.take_zero, List.mem_singleton] at hlater
    subst hlater
    rw [Set.disjoint_left]
    simp [AllocatorTransaction.commit]

theorem allocations_nodup_racing :
    AllocatorHistory ⟨∅, ∅⟩ racingAllocations ∧ (allocations racingAllocations).Nodup :=
  ⟨history_racing, allocations_nodup history_racing⟩

end FoundationDbEffect.Directory
