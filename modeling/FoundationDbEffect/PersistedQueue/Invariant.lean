import FoundationDbEffect.PersistedQueue.Repository

/-!
# The queue invariant

Every entry has one index row, in the index of its state under the time that this index goes
by. The ids point to the entries that carry them, and the claims to the entries they hold.
Each transaction rewrites the rows of one entry after another, so the step lemmas all rest on
one lemma about replacing an entry.
-/

namespace FoundationDbEffect.PersistedQueue

open FoundationDbEffect.Foundation

variable {ε : Type}

/-- The time under which the index of its state lists an entry. -/
def QueueEntryMetadata.indexTime (entry : QueueEntryMetadata) : Option Int :=
  match entry.state with
  | .pending => some entry.visibleAt
  | .processing => entry.acquiredAt
  | .completed | .failed => some entry.updatedAt

/-- The invariant, for index keys that are made from times by `key`. -/
structure QueueInvariant (key : Int → Int) (queue : Queue ε) : Prop where
  index : ∀ state row sequence, (queue.index state).get? row = some sequence ↔
    ∃ entry time, queue.metadata.get? sequence = some entry ∧ entry.state = state ∧
      entry.indexTime = some time ∧ row = toLex (key time, sequence)
  indexed : ∀ sequence entry, queue.metadata.get? sequence = some entry →
    entry.indexTime.isSome
  ids : ∀ id sequence, queue.ids.get? id = some sequence ↔
    ∃ entry, queue.metadata.get? sequence = some entry ∧ entry.id = id
  claims : ∀ claimId sequence, queue.claims.get? claimId = some sequence ↔
    ∃ entry, queue.metadata.get? sequence = some entry ∧ entry.state = .processing ∧
      entry.acquiredBy = some claimId
  held : ∀ sequence entry, queue.metadata.get? sequence = some entry →
    entry.state = .processing → entry.acquiredBy.isSome
  stored : ∀ sequence entry, queue.metadata.get? sequence = some entry →
    sequence < queue.counter.getD 0
  elements : ∀ sequence,
    (queue.elements.get? sequence).isSome = (queue.metadata.get? sequence).isSome

structure QueueEntryMetadata.Bounded (entry : QueueEntryMetadata) : Prop where
  visibleAt : entry.visibleAt ≤ maxSafeInteger
  acquiredAt : ∀ time, entry.acquiredAt = some time → time ≤ maxSafeInteger
  updatedAt : entry.updatedAt ≤ maxSafeInteger

structure QueueSound (queue : Queue ε) : Prop where
  invariant : QueueInvariant timestamp queue
  bounded : ∀ sequence entry, queue.metadata.get? sequence = some entry → entry.Bounded

theorem QueueInvariant.existsUnique_row {key : Int → Int} {queue : Queue ε}
    (h : QueueInvariant key queue) {sequence : Nat} {entry : QueueEntryMetadata}
    (hentry : queue.metadata.get? sequence = some entry) :
    ∃! row : EntryState × (Int ×ₗ Nat), (queue.index row.1).get? row.2 = some sequence := by
  obtain ⟨time, htime⟩ := Option.isSome_iff_exists.mp (h.indexed sequence entry hentry)
  refine ⟨(entry.state, toLex (key time, sequence)), ?_, ?_⟩
  · exact (h.index _ _ _).mpr ⟨entry, time, hentry, rfl, htime, rfl⟩
  · rintro ⟨state, row⟩ hrow
    obtain ⟨entry', time', hentry', rfl, htime', rfl⟩ := (h.index _ _ _).mp hrow
    rw [hentry] at hentry'
    obtain rfl := Option.some.inj hentry'
    rw [htime] at htime'
    rw [Option.some.inj htime']

theorem QueueInvariant.empty (key : Int → Int) : QueueInvariant key (Queue.empty : Queue ε) := by
  constructor <;> simp [Queue.empty]

theorem QueueSound.empty : QueueSound (Queue.empty : Queue ε) :=
  ⟨.empty timestamp, by simp [Queue.empty]⟩

/-! ## Rows of the indexes -/

theorem get?_setIndex (queue : Queue ε) (state : EntryState) (time : Int) (sequence : Nat)
    (state' : EntryState) (row : Int ×ₗ Nat) :
    ((queue.setIndex state time sequence).index state').get? row =
      if state' = state ∧ row = toLex (timestamp time, sequence) then some sequence
      else (queue.index state').get? row := by
  unfold Queue.setIndex
  rcases eq_or_ne state' state with rfl | hne
  · simp [OrderedMap.get?_set]
  · simp [hne]

theorem get?_clearIndex (queue : Queue ε) (state : EntryState) (key : Int ×ₗ Nat)
    (state' : EntryState) (row : Int ×ₗ Nat) :
    ((queue.clearIndex state key).index state').get? row =
      if state' = state ∧ row = key then none else (queue.index state').get? row := by
  unfold Queue.clearIndex
  rcases eq_or_ne state' state with rfl | hne
  · simp [OrderedMap.get?_clear]
  · simp [hne]

theorem Queue.readEntry_eq_some {queue : Queue ε} {sequence : Nat} {entry : QueueEntryMetadata}
    {element : ε} (h : queue.readEntry sequence = .ok (some (entry, element))) :
    queue.metadata.get? sequence = some entry ∧ queue.elements.get? sequence = some element := by
  unfold readEntry at h
  split at h
  · cases h
  · next hentry helement =>
      cases h
      exact ⟨hentry, helement⟩
  · cases h

/-! ## Rewriting one entry -/

/-- The rows of all other sequences stay, and those of one sequence become the rows of its
new entry. -/
structure Rewrites (queue next : Queue ε) (sequence : Nat) (new : Option QueueEntryMetadata) :
    Prop where
  metadata : ∀ sequence', next.metadata.get? sequence' =
    if sequence' = sequence then new else queue.metadata.get? sequence'
  index : ∀ state row sequence', (next.index state).get? row = some sequence' ↔
    (sequence' ≠ sequence ∧ (queue.index state).get? row = some sequence') ∨
      (sequence' = sequence ∧ ∃ entry time, new = some entry ∧ entry.state = state ∧
        entry.indexTime = some time ∧ row = toLex (timestamp time, sequence))
  ids : ∀ id sequence', next.ids.get? id = some sequence' ↔
    (sequence' ≠ sequence ∧ queue.ids.get? id = some sequence') ∨
      (sequence' = sequence ∧ ∃ entry, new = some entry ∧ entry.id = id)
  claims : ∀ claimId sequence', next.claims.get? claimId = some sequence' ↔
    (sequence' ≠ sequence ∧ queue.claims.get? claimId = some sequence') ∨
      (sequence' = sequence ∧ ∃ entry, new = some entry ∧ entry.state = .processing ∧
        entry.acquiredBy = some claimId)
  elements : ∀ sequence', (next.elements.get? sequence').isSome =
    if sequence' = sequence then new.isSome else (queue.elements.get? sequence').isSome
  counter : queue.counter.getD 0 ≤ next.counter.getD 0

structure QueueEntryMetadata.Sound (entry : QueueEntryMetadata) : Prop where
  indexed : entry.indexTime.isSome
  held : entry.state = .processing → entry.acquiredBy.isSome
  bounded : entry.Bounded

theorem QueueInvariant.rewrite {queue next : Queue ε} {sequence : Nat}
    {new : Option QueueEntryMetadata} (h : QueueInvariant timestamp queue)
    (hrewrites : Rewrites queue next sequence new)
    (hnew : ∀ entry, new = some entry → entry.indexTime.isSome ∧
      (entry.state = .processing → entry.acquiredBy.isSome) ∧ sequence < next.counter.getD 0) :
    QueueInvariant timestamp next := by
  have hentry {sequence' : Nat} {entry : QueueEntryMetadata}
      (hget : next.metadata.get? sequence' = some entry) :
      entry.indexTime.isSome ∧ (entry.state = .processing → entry.acquiredBy.isSome) ∧
        sequence' < next.counter.getD 0 := by
    rw [hrewrites.metadata] at hget
    split_ifs at hget with hsequence
    · rw [hsequence]
      exact hnew entry hget
    · exact ⟨h.indexed _ _ hget, h.held _ _ hget, (h.stored _ _ hget).trans_le hrewrites.counter⟩
  refine ⟨?_, ?_, ?_, ?_, ?_, ?_, ?_⟩
  · intro state row sequence'
    rw [hrewrites.index, h.index, hrewrites.metadata]
    rcases eq_or_ne sequence' sequence with rfl | hne
    · simp
    · simp [hne]
  · exact fun _ _ hget => (hentry hget).1
  · intro id sequence'
    rw [hrewrites.ids, h.ids, hrewrites.metadata]
    rcases eq_or_ne sequence' sequence with rfl | hne
    · simp
    · simp [hne]
  · intro claimId sequence'
    rw [hrewrites.claims, h.claims, hrewrites.metadata]
    rcases eq_or_ne sequence' sequence with rfl | hne
    · simp
    · simp [hne]
  · exact fun _ _ hget => (hentry hget).2.1
  · exact fun _ _ hget => (hentry hget).2.2
  · intro sequence'
    rw [hrewrites.elements, h.elements, hrewrites.metadata]
    split_ifs <;> rfl

theorem QueueSound.rewrite {queue next : Queue ε} {sequence : Nat}
    {new : Option QueueEntryMetadata} (h : QueueSound queue)
    (hrewrites : Rewrites queue next sequence new)
    (hnew : ∀ entry, new = some entry → entry.Sound ∧ sequence < next.counter.getD 0) :
    QueueSound next := by
  refine ⟨h.invariant.rewrite hrewrites fun entry hentry => ?_, ?_⟩
  · obtain ⟨hsound, hstored⟩ := hnew entry hentry
    exact ⟨hsound.indexed, hsound.held, hstored⟩
  · intro sequence' entry hget
    rw [hrewrites.metadata] at hget
    split_ifs at hget with hsequence
    · exact (hnew entry hget).1.bounded
    · exact h.bounded _ _ hget

theorem QueueInvariant.row_ne {queue : Queue ε} (h : QueueInvariant timestamp queue)
    {state : EntryState} {row : Int ×ₗ Nat} {sequence sequence' : Nat} {time : Int}
    (hrow : (queue.index state).get? row = some sequence') (hne : sequence' ≠ sequence) :
    row ≠ toLex (timestamp time, sequence) := by
  obtain ⟨_, time', -, -, -, rfl⟩ := (h.index _ _ _).mp hrow
  intro heq
  exact hne (congrArg Prod.snd (toLex.injective heq))

theorem QueueInvariant.index_move {queue : Queue ε} (h : QueueInvariant timestamp queue)
    {sequence : Nat} {old new : QueueEntryMetadata} {oldTime newTime : Int}
    (hold : queue.metadata.get? sequence = some old) (holdTime : old.indexTime = some oldTime)
    (hnewTime : new.indexTime = some newTime) (state : EntryState) (row : Int ×ₗ Nat)
    (sequence' : Nat) :
    (((queue.clearIndex old.state (toLex (timestamp oldTime, sequence))).setIndex new.state
        newTime sequence).index state).get? row = some sequence' ↔
      (sequence' ≠ sequence ∧ (queue.index state).get? row = some sequence') ∨
        (sequence' = sequence ∧ ∃ entry time, some new = some entry ∧ entry.state = state ∧
          entry.indexTime = some time ∧ row = toLex (timestamp time, sequence)) := by
  rw [get?_setIndex, get?_clearIndex]
  constructor
  · intro hrow
    split_ifs at hrow with hset hcleared
    · obtain rfl := Option.some.inj hrow
      exact .inr ⟨rfl, new, newTime, rfl, hset.1.symm, hnewTime, hset.2⟩
    · rcases eq_or_ne sequence' sequence with rfl | hne
      · obtain ⟨entry, time, hentry, hstate, htime, hkey⟩ := (h.index _ _ _).mp hrow
        rw [hold] at hentry
        obtain rfl := Option.some.inj hentry
        rw [holdTime] at htime
        rw [← Option.some.inj htime] at hkey
        exact absurd ⟨hstate.symm, hkey⟩ hcleared
      · exact .inl ⟨hne, hrow⟩
  · rintro (⟨hne, hrow⟩ | ⟨rfl, entry, time, hentry, rfl, htime, rfl⟩)
    · rw [if_neg fun hset => h.row_ne hrow hne hset.2,
        if_neg fun hcleared => h.row_ne hrow hne hcleared.2]
      exact hrow
    · obtain rfl := Option.some.inj hentry
      rw [hnewTime] at htime
      obtain rfl := Option.some.inj htime
      simp

theorem QueueInvariant.rewrites_move {queue next : Queue ε} (h : QueueInvariant timestamp queue)
    {sequence : Nat} {old new : QueueEntryMetadata} {oldTime newTime : Int}
    (hold : queue.metadata.get? sequence = some old) (holdTime : old.indexTime = some oldTime)
    (hnewTime : new.indexTime = some newTime) (hid : new.id = old.id)
    (hmetadata : next.metadata = queue.metadata.set sequence new)
    (hindex : next.index = ((queue.clearIndex old.state
      (toLex (timestamp oldTime, sequence))).setIndex new.state newTime sequence).index)
    (hids : next.ids = queue.ids) (helements : next.elements = queue.elements)
    (hcounter : next.counter = queue.counter)
    (hclaims : ∀ claimId sequence', next.claims.get? claimId = some sequence' ↔
      (sequence' ≠ sequence ∧ queue.claims.get? claimId = some sequence') ∨
        (sequence' = sequence ∧ new.state = .processing ∧ new.acquiredBy = some claimId)) :
    Rewrites queue next sequence (some new) := by
  constructor
  case metadata =>
    intro sequence'
    rw [hmetadata, OrderedMap.get?_set]
  case index =>
    intro state row sequence'
    rw [hindex]
    exact h.index_move hold holdTime hnewTime state row sequence'
  case ids =>
    intro id sequence'
    rw [hids, h.ids]
    rcases eq_or_ne sequence' sequence with rfl | hne
    · simp [hold, hid]
    · simp [hne]
  case claims =>
    intro claimId sequence'
    rw [hclaims]
    simp
  case elements =>
    intro sequence'
    rw [helements, h.elements]
    split_ifs with hsequence
    · simp [hsequence, hold]
    · rfl
  case counter => rw [hcounter]

structure Keeps (queue next : Queue ε) : Prop where
  entries : ∀ sequence entry, queue.metadata.get? sequence = some entry →
    ∃ entry', next.metadata.get? sequence = some entry' ∧ entry'.id = entry.id
  elements : ∀ sequence element, queue.elements.get? sequence = some element →
    next.elements.get? sequence = some element

theorem Keeps.refl (queue : Queue ε) : Keeps queue queue :=
  ⟨fun _ entry hentry => ⟨entry, hentry, rfl⟩, fun _ _ => id⟩

theorem Keeps.trans {first second third : Queue ε} (h : Keeps first second)
    (h' : Keeps second third) : Keeps first third := by
  refine ⟨?_, fun sequence element hget => h'.elements _ _ (h.elements _ _ hget)⟩
  intro sequence entry hentry
  obtain ⟨entry', hentry', hid⟩ := h.entries sequence entry hentry
  obtain ⟨entry'', hentry'', hid'⟩ := h'.entries sequence entry' hentry'
  exact ⟨entry'', hentry'', hid'.trans hid⟩

theorem Keeps.of_set {queue next : Queue ε} {sequence : Nat} {old new : QueueEntryMetadata}
    (hold : queue.metadata.get? sequence = some old) (hid : new.id = old.id)
    (hmetadata : next.metadata = queue.metadata.set sequence new)
    (helements : next.elements = queue.elements) : Keeps queue next := by
  refine ⟨?_, fun _ _ hget => helements ▸ hget⟩
  intro sequence' entry hentry
  rw [hmetadata, OrderedMap.get?_set]
  split_ifs with hsequence
  · rw [hsequence, hold] at hentry
    exact ⟨new, rfl, Option.some.inj hentry ▸ hid⟩
  · exact ⟨entry, hentry, rfl⟩

theorem Keeps.of_fresh {queue next : Queue ε} (h : QueueInvariant timestamp queue)
    {sequence : Nat} (hfresh : queue.metadata.get? sequence = none)
    {new : Option QueueEntryMetadata} (hrewrites : Rewrites queue next sequence new)
    {element : ε} (helements : next.elements = queue.elements.set sequence element) :
    Keeps queue next := by
  have hne {sequence' : Nat} (hsome : (queue.metadata.get? sequence').isSome) :
      sequence' ≠ sequence := by
    rintro rfl
    simp [hfresh] at hsome
  constructor
  · intro sequence' entry hentry
    rw [hrewrites.metadata, if_neg (hne (by simp [hentry]))]
    exact ⟨entry, hentry, rfl⟩
  · intro sequence' element' helement
    rw [helements, OrderedMap.get?_set_of_ne _ _ (hne (by simp [← h.elements, helement]))]
    exact helement

structure Advances (queue next : Queue ε) : Prop where
  sound : QueueSound next
  keeps : Keeps queue next

theorem Advances.refl {queue : Queue ε} (h : QueueSound queue) : Advances queue queue :=
  ⟨h, .refl queue⟩

theorem Advances.trans {first second third : Queue ε} (h : Advances first second)
    (h' : Advances second third) : Advances first third :=
  ⟨h'.sound, h.keeps.trans h'.keeps⟩

/-- The step lemma for entries that stay: one of them moves to another index row. -/
theorem QueueSound.move {queue next : Queue ε} (h : QueueSound queue) {sequence : Nat}
    {old new : QueueEntryMetadata} {oldTime newTime : Int}
    (hold : queue.metadata.get? sequence = some old) (holdTime : old.indexTime = some oldTime)
    (hnewTime : new.indexTime = some newTime) (hid : new.id = old.id)
    (hheld : new.state = .processing → new.acquiredBy.isSome) (hbounded : new.Bounded)
    (hmetadata : next.metadata = queue.metadata.set sequence new)
    (hindex : next.index = ((queue.clearIndex old.state
      (toLex (timestamp oldTime, sequence))).setIndex new.state newTime sequence).index)
    (hids : next.ids = queue.ids) (helements : next.elements = queue.elements)
    (hcounter : next.counter = queue.counter)
    (hclaims : ∀ claimId sequence', next.claims.get? claimId = some sequence' ↔
      (sequence' ≠ sequence ∧ queue.claims.get? claimId = some sequence') ∨
        (sequence' = sequence ∧ new.state = .processing ∧ new.acquiredBy = some claimId)) :
    Advances queue next := by
  refine ⟨h.rewrite (h.invariant.rewrites_move hold holdTime hnewTime hid hmetadata hindex hids
    helements hcounter hclaims) ?_, .of_set hold hid hmetadata helements⟩
  intro entry hentry
  obtain rfl := Option.some.inj hentry
  refine ⟨⟨?_, hheld, hbounded⟩, ?_⟩
  · rw [hnewTime]
    rfl
  · rw [hcounter]
    exact h.invariant.stored _ _ hold

theorem QueueSound.addSignal {queue : Queue ε} (h : QueueSound queue) :
    QueueSound queue.addSignal :=
  ⟨⟨h.invariant.index, h.invariant.indexed, h.invariant.ids, h.invariant.claims,
    h.invariant.held, h.invariant.stored, h.invariant.elements⟩, h.bounded⟩

theorem Advances.addSignal {queue next : Queue ε} (h : Advances queue next) :
    Advances queue next.addSignal :=
  ⟨h.sound.addSignal, ⟨h.keeps.entries, h.keeps.elements⟩⟩

/-! ## Offers -/

theorem QueueInvariant.not_indexed {queue : Queue ε} (h : QueueInvariant timestamp queue)
    {sequence : Nat} (hfresh : queue.metadata.get? sequence = none) (state : EntryState)
    (row : Int ×ₗ Nat) : (queue.index state).get? row ≠ some sequence := by
  intro hrow
  obtain ⟨_, _, hentry, -⟩ := (h.index _ _ _).mp hrow
  simp [hfresh] at hentry

theorem QueueInvariant.fresh {queue : Queue ε} (h : QueueInvariant timestamp queue) :
    queue.metadata.get? (queue.counter.getD 0) = none := by
  rw [Option.eq_none_iff_forall_ne_some]
  intro entry hentry
  exact absurd (h.stored _ entry hentry) (lt_irrefl _)

theorem QueueSound.offer {queue : Queue ε} (h : QueueSound queue) (id : String) (element : ε)
    {now : Int} (hnow : now ≤ maxSafeInteger) :
    Advances queue (queue.offer id element now) := by
  unfold Queue.offer
  cases hid : queue.ids.get? id with
  | some sequence => exact .refl h
  | none =>
      apply Advances.addSignal
      have hfresh := h.invariant.fresh
      generalize hsequence : queue.counter.getD 0 = sequence at hfresh
      have hrewrites : Rewrites queue
          { (({ queue.createEntry sequence
                ⟨id, 0, .pending, now, none, none, now⟩ element with
              ids := queue.ids.set id sequence } : Queue ε).setIndex .pending now sequence) with
            counter := some (sequence + 1) }
          sequence (some ⟨id, 0, .pending, now, none, none, now⟩) := by
        constructor
        case metadata =>
          intro sequence'
          exact OrderedMap.get?_set _ _ _ _
        case index =>
          intro state row sequence'
          change ((Queue.setIndex queue .pending now sequence).index state).get? row = _ ↔ _
          rw [get?_setIndex]
          constructor
          · intro hrow
            split_ifs at hrow with hset
            · obtain rfl := Option.some.inj hrow
              exact .inr ⟨rfl, _, now, rfl, hset.1.symm, rfl, hset.2⟩
            · refine .inl ⟨?_, hrow⟩
              rintro rfl
              exact h.invariant.not_indexed hfresh _ _ hrow
          · rintro (⟨hne, hrow⟩ | ⟨rfl, entry, time, hentry, rfl, htime, rfl⟩)
            · rw [if_neg fun hset => h.invariant.row_ne hrow hne hset.2]
              exact hrow
            · obtain rfl := Option.some.inj hentry
              obtain rfl := Option.some.inj htime
              simp
        case ids =>
          intro id' sequence'
          change (queue.ids.set id sequence).get? id' = _ ↔ _
          rw [OrderedMap.get?_set]
          constructor
          · intro hget
            split_ifs at hget with heq
            · exact .inr ⟨(Option.some.inj hget).symm, _, rfl, heq.symm⟩
            · refine .inl ⟨?_, hget⟩
              rintro rfl
              obtain ⟨entry, hentry, -⟩ := (h.invariant.ids _ _).mp hget
              simp [hfresh] at hentry
          · rintro (⟨hne, hget⟩ | ⟨rfl, entry, hentry, rfl⟩)
            · rw [if_neg]
              · exact hget
              · rintro rfl
                simp [hid] at hget
            · obtain rfl := Option.some.inj hentry
              simp
        case claims =>
          intro claimId sequence'
          change queue.claims.get? claimId = _ ↔ _
          constructor
          · intro hget
            refine .inl ⟨?_, hget⟩
            rintro rfl
            obtain ⟨entry, hentry, -⟩ := (h.invariant.claims _ _).mp hget
            simp [hfresh] at hentry
          · rintro (⟨-, hget⟩ | ⟨-, entry, hentry, hstate, -⟩)
            · exact hget
            · obtain rfl := Option.some.inj hentry
              cases hstate
        case elements =>
          intro sequence'
          change ((queue.elements.set sequence element).get? sequence').isSome = _
          rw [OrderedMap.get?_set]
          split_ifs <;> rfl
        case counter =>
          change queue.counter.getD 0 ≤ sequence + 1
          omega
      refine ⟨h.rewrite hrewrites ?_, .of_fresh h.invariant hfresh hrewrites rfl⟩
      intro entry hentry
      obtain rfl := Option.some.inj hentry
      refine ⟨⟨rfl, ?_, ⟨hnow, ?_, hnow⟩⟩, Nat.lt_succ_self sequence⟩
      · intro hstate
        cases hstate
      · intro time htime
        cases htime

/-! ## Claims -/

theorem QueueInvariant.entry_of_row {queue : Queue ε} (h : QueueInvariant timestamp queue)
    {state : EntryState} {row : (Int ×ₗ Nat) × Nat}
    (hrow : (queue.index state).get? row.1 = some row.2) :
    ∃ entry time, queue.metadata.get? row.2 = some entry ∧ entry.state = state ∧
      entry.indexTime = some time ∧ row.1 = toLex (timestamp time, row.2) :=
  (h.index _ _ _).mp hrow

/-- A time whose key lies before the end of a range is not after the range. -/
theorem le_of_beforeEnd {limit : Option Int} {time : Int} {sequence : Nat}
    (hbounded : time ≤ maxSafeInteger)
    (h : Queue.beforeEnd limit (toLex (timestamp time, sequence)) = true) :
    ∃ last, limit = some last ∧ time ≤ last := by
  cases limit with
  | none => simp [Queue.beforeEnd] at h
  | some last =>
      refine ⟨last, rfl, ?_⟩
      simp only [Queue.beforeEnd] at h
      split_ifs at h with hneg hmax
      · exact hbounded.trans hmax
      · have hlt : timestamp time < last + 1 := of_decide_eq_true h
        have hle : min maxSafeInteger time ≤ timestamp time := le_max_right _ _
        rw [min_eq_right hbounded] at hle
        omega

theorem beforeEnd_of_visible {now time : Int} {sequence : Nat} (hnow : 0 ≤ now) (h : time ≤ now) :
    Queue.beforeEnd (some now) (toLex (timestamp time, sequence)) = true := by
  simp only [Queue.beforeEnd]
  rw [if_neg (by omega)]
  split_ifs with hmax
  · rfl
  · refine decide_eq_true ?_
    change timestamp time < now + 1
    unfold timestamp
    omega

theorem QueueInvariant.claims_clear {queue : Queue ε} (h : QueueInvariant timestamp queue)
    {sequence : Nat} {entry : QueueEntryMetadata} {claimId : String}
    (hentry : queue.metadata.get? sequence = some entry)
    (hclaim : entry.acquiredBy = some claimId) (hstate : entry.state = .processing)
    (claimId' : String) (sequence' : Nat) :
    (queue.claims.clear claimId).get? claimId' = some sequence' ↔
      sequence' ≠ sequence ∧ queue.claims.get? claimId' = some sequence' := by
  rw [OrderedMap.get?_clear, h.claims]
  have hclaimed := (h.claims claimId sequence).mpr ⟨entry, hentry, hstate, hclaim⟩
  constructor
  · intro hget
    split_ifs at hget with heq
    obtain ⟨entry', hentry', hstate', hclaim'⟩ := (h.claims _ _).mp hget
    refine ⟨?_, entry', hentry', hstate', hclaim'⟩
    rintro rfl
    rw [hentry] at hentry'
    obtain rfl := Option.some.inj hentry'
    rw [hclaim] at hclaim'
    exact heq (Option.some.inj hclaim').symm
  · rintro ⟨hne, hget⟩
    have hget' := (h.claims claimId' sequence').mpr hget
    rw [if_neg]
    · exact hget'
    · rintro rfl
      rw [hclaimed] at hget'
      exact hne (Option.some.inj hget').symm

theorem QueueInvariant.rewrites_release {queue : Queue ε} (h : QueueInvariant timestamp queue)
    {sequence : Nat} {entry new : QueueEntryMetadata} {time newTime : Int} {claimId : String}
    (hentry : queue.metadata.get? sequence = some entry) (hstate : entry.state = .processing)
    (hacquired : entry.acquiredAt = some time) (hclaim : entry.acquiredBy = some claimId)
    (hnewTime : new.indexTime = some newTime) (hid : new.id = entry.id)
    (hnew : new.state ≠ .processing) :
    Rewrites queue
      ((((queue.clearIndex .processing (toLex (timestamp time, sequence))).clearClaim
        claimId).writeEntryMetadata sequence new).setIndex new.state newTime sequence) sequence
      (some new) := by
  have htime : entry.indexTime = some time := by
    simp [QueueEntryMetadata.indexTime, hstate, hacquired]
  refine h.rewrites_move hentry htime hnewTime hid rfl ?_ rfl rfl rfl ?_
  · rw [hstate]
    rfl
  · intro claimId' sequence'
    change (queue.claims.clear claimId).get? claimId' = _ ↔ _
    rw [h.claims_clear hentry hclaim hstate]
    simp [hnew]

theorem QueueSound.release {queue : Queue ε} (h : QueueSound queue) {sequence : Nat}
    {entry new : QueueEntryMetadata} {time newTime : Int} {claimId : String}
    (hentry : queue.metadata.get? sequence = some entry) (hstate : entry.state = .processing)
    (hacquired : entry.acquiredAt = some time) (hclaim : entry.acquiredBy = some claimId)
    (hnewTime : new.indexTime = some newTime) (hid : new.id = entry.id)
    (hnew : new.state ≠ .processing) (hbounded : new.Bounded) :
    Advances queue
      ((((queue.clearIndex .processing (toLex (timestamp time, sequence))).clearClaim
        claimId).writeEntryMetadata sequence new).setIndex new.state newTime sequence) := by
  refine ⟨h.rewrite (h.invariant.rewrites_release hentry hstate hacquired hclaim hnewTime hid
    hnew) ?_, .of_set hentry hid rfl rfl⟩
  rintro _ ⟨⟩
  exact ⟨⟨by rw [hnewTime]; rfl, fun hprocessing => absurd hprocessing hnew, hbounded⟩,
    h.invariant.stored _ _ hentry⟩

/-- The entry as an expired lock leaves it. -/
def recoveredEntry (entry : QueueEntryMetadata) (maxAttempts now : Int) : QueueEntryMetadata :=
  if (entry.attempts : Int) ≥ maxAttempts then
    { entry with state := .failed, acquiredAt := none, acquiredBy := none, updatedAt := now }
  else
    { entry with
      state := .pending, visibleAt := now, acquiredAt := none, acquiredBy := none,
      updatedAt := now }

theorem recoveredEntry_spec {entry : QueueEntryMetadata} (hbounded : entry.Bounded)
    (maxAttempts : Int) {now : Int} (hnow : now ≤ maxSafeInteger) :
    (recoveredEntry entry maxAttempts now).indexTime = some now ∧
      (recoveredEntry entry maxAttempts now).id = entry.id ∧
      (recoveredEntry entry maxAttempts now).state ≠ .processing ∧
      (recoveredEntry entry maxAttempts now).Bounded := by
  unfold recoveredEntry
  split_ifs
  · exact ⟨rfl, rfl, by simp, ⟨hbounded.visibleAt, by simp, hnow⟩⟩
  · exact ⟨rfl, rfl, by simp, ⟨hnow, by simp, hnow⟩⟩

theorem recoverLock_eq {queue : Queue ε} (maxAttempts now : Int) {last time : Int}
    {sequence : Nat} {entry : QueueEntryMetadata} {claimId : String}
    (hentry : queue.metadata.get? sequence = some entry) (hstate : entry.state = .processing)
    (hacquired : entry.acquiredAt = some time) (hclaim : entry.acquiredBy = some claimId)
    (hexpired : time ≤ last) :
    (queue.recoverLock maxAttempts now (some last) (toLex (timestamp time, sequence), sequence)).1 =
      (((queue.clearIndex .processing (toLex (timestamp time, sequence))).clearClaim
        claimId).writeEntryMetadata sequence (recoveredEntry entry maxAttempts now)).setIndex
          (recoveredEntry entry maxAttempts now).state now sequence := by
  have hstale : ¬ (entry.state ≠ .processing ∨ entry.acquiredAt.all fun acquiredAt =>
      (some last).all (acquiredAt > ·)) := by
    simp [hstate, hacquired, hexpired]
  unfold Queue.recoverLock recoveredEntry
  simp only [hentry]
  rw [if_neg hstale, hclaim]
  split_ifs <;> simp_all

theorem recoverLock_spec {queue : Queue ε} (h : QueueSound queue) (maxAttempts : Int)
    {now : Int} (hnow : now ≤ maxSafeInteger) {expiredAt : Option Int} {lock : (Int ×ₗ Nat) × Nat}
    (hrow : (queue.index .processing).get? lock.1 = some lock.2)
    (hbefore : Queue.beforeEnd expiredAt lock.1 = true) :
    Advances queue (queue.recoverLock maxAttempts now expiredAt lock).1 ∧
      (∀ row, row ≠ lock.1 →
        (((queue.recoverLock maxAttempts now expiredAt lock).1).index .processing).get? row =
          (queue.index .processing).get? row) ∧
      (∀ claimId, queue.claims.get? claimId = none →
        ((queue.recoverLock maxAttempts now expiredAt lock).1).claims.get? claimId = none) := by
  obtain ⟨entry, time, hentry, hstate, htime, hkey⟩ := h.invariant.entry_of_row hrow
  obtain ⟨row, sequence⟩ := lock
  dsimp only at hentry hkey hbefore
  subst hkey
  have hacquired : entry.acquiredAt = some time := by
    simpa [QueueEntryMetadata.indexTime, hstate] using htime
  have hbounded := h.bounded _ _ hentry
  obtain ⟨last, rfl, hle⟩ := le_of_beforeEnd (hbounded.acquiredAt time hacquired) hbefore
  obtain ⟨claimId, hclaim⟩ := Option.isSome_iff_exists.mp
    (h.invariant.held _ _ hentry hstate)
  obtain ⟨hnewTime, hid, hnew, hnewBounded⟩ := recoveredEntry_spec hbounded maxAttempts hnow
  rw [recoverLock_eq maxAttempts now hentry hstate hacquired hclaim hle]
  refine ⟨h.release hentry hstate hacquired hclaim hnewTime hid hnew hnewBounded, ?_, ?_⟩
  · intro row hne
    rw [get?_setIndex, if_neg fun hset => hnew hset.1.symm]
    change ((queue.clearIndex .processing _).index .processing).get? row = _
    rw [get?_clearIndex, if_neg fun hcleared => hne hcleared.2]
  · intro claimId' hnone
    change (queue.claims.clear claimId).get? claimId' = none
    rw [OrderedMap.get?_clear, hnone, ite_self]

theorem mem_indexBefore {index : TimeIndex} {time : Option Int} {row : (Int ×ₗ Nat) × Nat}
    (h : row ∈ Queue.indexBefore index time) :
    index.get? row.1 = some row.2 ∧ Queue.beforeEnd time row.1 = true :=
  (OrderedMap.mem_rows.mp (List.mem_of_mem_take h)).symm

theorem indexBefore_pairwise (index : TimeIndex) (time : Option Int) :
    (Queue.indexBefore index time).Pairwise fun left right => left.1 ≠ right.1 :=
  ((index.rows_sorted _).imp fun hlt => hlt.ne).sublist (List.take_sublist _ _)

theorem recoverLocks_spec (maxAttempts : Int) {now : Int} (hnow : now ≤ maxSafeInteger)
    {expiredAt : Option Int} (locks : List ((Int ×ₗ Nat) × Nat)) {queue : Queue ε}
    (h : QueueSound queue)
    (hrows : ∀ lock ∈ locks, (queue.index .processing).get? lock.1 = some lock.2 ∧
      Queue.beforeEnd expiredAt lock.1 = true)
    (hdistinct : locks.Pairwise fun left right => left.1 ≠ right.1) (recoveredPending : Bool) :
    Advances queue (Queue.recoverLocks maxAttempts now expiredAt locks queue recoveredPending).1 ∧
      ∀ claimId, queue.claims.get? claimId = none →
        (Queue.recoverLocks maxAttempts now expiredAt locks queue
          recoveredPending).1.claims.get? claimId = none := by
  induction locks generalizing queue recoveredPending with
  | nil => exact ⟨.refl h, fun _ => id⟩
  | cons lock locks ih =>
      obtain ⟨hother, hrest⟩ := List.pairwise_cons.mp hdistinct
      obtain ⟨hrow, hbefore⟩ := hrows lock (by simp)
      obtain ⟨hadvances, hindex, hclaims⟩ := recoverLock_spec h maxAttempts hnow hrow hbefore
      have hrows' : ∀ later ∈ locks,
          ((queue.recoverLock maxAttempts now expiredAt lock).1.index .processing).get? later.1 =
            some later.2 ∧ Queue.beforeEnd expiredAt later.1 = true := by
        intro later hmem
        rw [hindex later.1 (hother later hmem).symm]
        exact hrows later (List.mem_cons_of_mem _ hmem)
      obtain ⟨hadvances', hclaims'⟩ := ih hadvances.sound hrows' hrest
        (recoveredPending || (queue.recoverLock maxAttempts now expiredAt lock).2)
      exact ⟨hadvances.trans hadvances', fun claimId hnone => hclaims' _ (hclaims _ hnone)⟩

theorem QueueInvariant.claims_ne {queue : Queue ε} (h : QueueInvariant timestamp queue)
    {sequence : Nat} {entry : QueueEntryMetadata}
    (hentry : queue.metadata.get? sequence = some entry) (hstate : entry.state ≠ .processing)
    {claimId : String} {sequence' : Nat} (hclaim : queue.claims.get? claimId = some sequence') :
    sequence' ≠ sequence := by
  rintro rfl
  obtain ⟨entry', hentry', hstate', -⟩ := (h.claims _ _).mp hclaim
  rw [hentry] at hentry'
  exact hstate (Option.some.inj hentry' ▸ hstate')

theorem QueueSound.deadLetter {queue : Queue ε} (h : QueueSound queue) {sequence : Nat}
    {entry : QueueEntryMetadata} (hentry : queue.metadata.get? sequence = some entry)
    (hstate : entry.state = .pending) {now : Int} (hnow : now ≤ maxSafeInteger) :
    Advances queue
      (((queue.clearIndex .pending
        (toLex (timestamp entry.visibleAt, sequence))).writeEntryMetadata sequence
          { entry with state := .failed, updatedAt := now }).setIndex .failed now sequence) := by
  have htime : entry.indexTime = some entry.visibleAt := by
    simp [QueueEntryMetadata.indexTime, hstate]
  have hbounded := h.bounded _ _ hentry
  have hnewTime : QueueEntryMetadata.indexTime
      { entry with state := .failed, updatedAt := now } = some now := rfl
  refine h.move hentry htime hnewTime rfl (by simp)
    ⟨hbounded.visibleAt, hbounded.acquiredAt, hnow⟩ rfl ?_ rfl rfl rfl ?_
  · rw [hstate]
    rfl
  · intro claimId sequence'
    change queue.claims.get? claimId = _ ↔ _
    constructor
    · intro hclaim
      exact .inl ⟨h.invariant.claims_ne hentry (by simp [hstate]) hclaim, hclaim⟩
    · rintro (⟨-, hclaim⟩ | ⟨-, hprocessing, -⟩)
      · exact hclaim
      · cases hprocessing

theorem QueueSound.acquire {queue : Queue ε} (h : QueueSound queue) {sequence : Nat}
    {entry : QueueEntryMetadata} (hentry : queue.metadata.get? sequence = some entry)
    (hstate : entry.state = .pending) {claimId : String}
    (hclaim : queue.claims.get? claimId = none) {now : Int} (hnow : now ≤ maxSafeInteger) :
    Advances queue
      ((((queue.clearIndex .pending
        (toLex (timestamp entry.visibleAt, sequence))).writeEntryMetadata sequence
          { entry with
            attempts := entry.attempts + 1, state := .processing, acquiredAt := some now,
            acquiredBy := some claimId, updatedAt := now }).setIndex .processing now
              sequence).setClaim claimId sequence) := by
  have htime : entry.indexTime = some entry.visibleAt := by
    simp [QueueEntryMetadata.indexTime, hstate]
  have hbounded := h.bounded _ _ hentry
  have hnewTime : QueueEntryMetadata.indexTime
      { entry with
        attempts := entry.attempts + 1, state := .processing, acquiredAt := some now,
        acquiredBy := some claimId, updatedAt := now } = some now := rfl
  refine h.move hentry htime hnewTime rfl (by simp)
    ⟨hbounded.visibleAt, by simpa using hnow, hnow⟩ rfl ?_ rfl rfl rfl ?_
  · rw [hstate]
    rfl
  · intro claimId' sequence'
    change (queue.claims.set claimId sequence).get? claimId' = _ ↔ _
    rw [OrderedMap.get?_set]
    constructor
    · intro hget
      split_ifs at hget with heq
      · exact .inr ⟨(Option.some.inj hget).symm, rfl, by simp [heq]⟩
      · exact .inl ⟨h.invariant.claims_ne hentry (by simp [hstate]) hget, hget⟩
    · rintro (⟨hne, hget⟩ | ⟨rfl, -, hacquired⟩)
      · rw [if_neg]
        · exact hget
        · rintro rfl
          simp [hclaim] at hget
      · rw [if_pos (by simpa [eq_comm] using hacquired)]

theorem tryPending_spec {queue next : Queue ε} (h : QueueSound queue) {claimId : String}
    {maxAttempts now : Int} (hnow : now ≤ maxSafeInteger) {candidate : (Int ×ₗ Nat) × Nat}
    (hrow : (queue.index .pending).get? candidate.1 = some candidate.2)
    (hbefore : Queue.beforeEnd (some now) candidate.1 = true)
    (hclaim : queue.claims.get? claimId = none) {claimed : Option (Queue.ClaimedEntry ε)}
    (htry : queue.tryPending claimId maxAttempts now candidate = .ok (next, claimed)) :
    Advances queue next ∧ (claimed = none → next.claims = queue.claims ∧
      ∀ row, row ≠ candidate.1 →
        (next.index .pending).get? row = (queue.index .pending).get? row) := by
  obtain ⟨entry, time, hentry, hstate, htime, hkey⟩ := h.invariant.entry_of_row hrow
  obtain ⟨row, sequence⟩ := candidate
  dsimp only at hentry hkey hbefore
  subst hkey
  obtain rfl : time = entry.visibleAt := by
    simpa [QueueEntryMetadata.indexTime, hstate, eq_comm] using htime
  obtain ⟨last, hlast, hle⟩ := le_of_beforeEnd (h.bounded _ _ hentry).visibleAt hbefore
  obtain rfl := Option.some.inj hlast
  have hsome : (queue.elements.get? sequence).isSome := by
    rw [h.invariant.elements, hentry]
    rfl
  obtain ⟨element, helement⟩ := Option.isSome_iff_exists.mp hsome
  have hread : queue.readEntry sequence = .ok (some (entry, element)) := by
    simp [Queue.readEntry, hentry, helement]
  unfold Queue.tryPending at htry
  simp only [hread, hstate, ne_eq, not_true_eq_false, if_false, gt_iff_lt, not_lt.mpr hle] at htry
  split_ifs at htry with hattempts
  · simp only [Except.ok.injEq, Prod.mk.injEq] at htry
    obtain ⟨rfl, rfl⟩ := htry
    refine ⟨h.deadLetter hentry hstate hnow, fun _ => ⟨rfl, ?_⟩⟩
    intro row hne
    rw [get?_setIndex, if_neg (by simp)]
    change ((queue.clearIndex .pending _).index .pending).get? row = _
    rw [get?_clearIndex, if_neg fun hcleared => hne hcleared.2]
  · simp only [Except.ok.injEq, Prod.mk.injEq] at htry
    obtain ⟨rfl, rfl⟩ := htry
    exact ⟨h.acquire hentry hstate hclaim hnow, by simp⟩

theorem tryPendings_advances {claimId : String} {maxAttempts now : Int}
    (hnow : now ≤ maxSafeInteger) (candidates : List ((Int ×ₗ Nat) × Nat))
    {queue next : Queue ε} (h : QueueSound queue)
    (hrows : ∀ candidate ∈ candidates,
      (queue.index .pending).get? candidate.1 = some candidate.2 ∧
        Queue.beforeEnd (some now) candidate.1 = true)
    (hdistinct : candidates.Pairwise fun left right => left.1 ≠ right.1)
    (hclaim : queue.claims.get? claimId = none) {claimed : Option (Queue.ClaimedEntry ε)}
    (htry : Queue.tryPendings claimId maxAttempts now candidates queue = .ok (next, claimed)) :
    Advances queue next := by
  induction candidates generalizing queue with
  | nil =>
      simp only [Queue.tryPendings, Except.ok.injEq, Prod.mk.injEq] at htry
      obtain ⟨rfl, -⟩ := htry
      exact .refl h
  | cons candidate candidates ih =>
      obtain ⟨hother, hrest⟩ := List.pairwise_cons.mp hdistinct
      obtain ⟨hrow, hbefore⟩ := hrows candidate (by simp)
      rw [Queue.tryPendings] at htry
      split at htry
      · cases htry
      · rename_i tried entry hcandidate
        simp only [Except.ok.injEq, Prod.mk.injEq] at htry
        obtain ⟨rfl, -⟩ := htry
        exact (tryPending_spec h hnow hrow hbefore hclaim hcandidate).1
      · rename_i tried hcandidate
        obtain ⟨hadvances, hkept⟩ := tryPending_spec h hnow hrow hbefore hclaim hcandidate
        obtain ⟨hclaims, hindex⟩ := hkept rfl
        refine hadvances.trans (ih hadvances.sound ?_ hrest (by rw [hclaims, hclaim]) htry)
        intro later hmem
        rw [hindex later.1 (hother later hmem).symm]
        exact hrows later (List.mem_cons_of_mem _ hmem)

theorem QueueSound.claimNext {queue next : Queue ε} (h : QueueSound queue) {claimId : String}
    (hclaim : queue.claims.get? claimId = none) {maxAttempts now : Int}
    (hnow : now ≤ maxSafeInteger) {lockExpiration : Option Int} {result : Queue.ClaimResult ε}
    (hnext : queue.claimNext claimId maxAttempts now lockExpiration = .ok (next, result)) :
    Advances queue next := by
  unfold Queue.claimNext at hnext
  generalize Queue.subtractDuration now lockExpiration = expiredAt at hnext
  obtain ⟨hrecovered, hclaims⟩ := recoverLocks_spec maxAttempts hnow
    (Queue.indexBefore (queue.index .processing) expiredAt) h (fun _ => mem_indexBefore)
    (indexBefore_pairwise _ _) false
  rcases hlocks : Queue.recoverLocks maxAttempts now expiredAt
    (Queue.indexBefore (queue.index .processing) expiredAt) queue false with
    ⟨recovered, recoveredPending⟩
  rw [hlocks] at hrecovered hclaims
  simp only [hlocks] at hnext
  have hsignalled : Advances queue (if recoveredPending then recovered.addSignal else recovered) := by
    cases recoveredPending with
    | false => exact hrecovered
    | true => exact hrecovered.addSignal
  have hclaim' : (if recoveredPending then recovered.addSignal else recovered).claims.get?
      claimId = none := by
    cases recoveredPending <;> exact hclaims claimId hclaim
  generalize (if recoveredPending then recovered.addSignal else recovered) = signalled
    at hnext hsignalled hclaim'
  have hpending {tried : Queue ε} {claimed : Option (Queue.ClaimedEntry ε)}
      (htry : Queue.tryPendings claimId maxAttempts now
        (Queue.indexBefore (signalled.index .pending) (some now)) signalled = .ok (tried, claimed)) :
      Advances queue tried :=
    hsignalled.trans (tryPendings_advances hnow _ hsignalled.sound (fun _ => mem_indexBefore)
      (indexBefore_pairwise _ _) hclaim' htry)
  split at hnext
  · cases hnext
  · rename_i htry
    simp only [Except.ok.injEq, Prod.mk.injEq] at hnext
    exact hnext.1 ▸ hpending htry
  · rename_i htry
    simp only [Except.ok.injEq, Prod.mk.injEq] at hnext
    exact hnext.1 ▸ hpending htry

theorem QueueSound.claim {queue next : Queue ε} (h : QueueSound queue) {claimId : String}
    {maxAttempts now : Int} (hnow : now ≤ maxSafeInteger) {lockExpiration : Option Int}
    {result : Queue.ClaimResult ε}
    (hclaim : queue.claim claimId maxAttempts now lockExpiration = .ok (next, result)) :
    Advances queue next := by
  unfold Queue.claim at hclaim
  cases hprevious : queue.claims.get? claimId with
  | none =>
      rw [hprevious] at hclaim
      exact h.claimNext hprevious hnow hclaim
  | some sequence =>
      -- A claim id that is indexed still holds its entry, so the claim is answered again.
      obtain ⟨entry, hentry, hstate, hheld⟩ := (h.invariant.claims _ _).mp hprevious
      have hsome : (queue.elements.get? sequence).isSome := by
        rw [h.invariant.elements, hentry]
        rfl
      obtain ⟨element, helement⟩ := Option.isSome_iff_exists.mp hsome
      have hread : queue.readEntry sequence = .ok (some (entry, element)) := by
        simp [Queue.readEntry, hentry, helement]
      simp only [hprevious, hread, hstate, hheld, and_self, if_true, Except.ok.injEq,
        Prod.mk.injEq] at hclaim
      exact hclaim.1 ▸ .refl h

theorem heldSince_eq_some {queue : Queue ε} {claimId : String} {sequence : Nat}
    {entry : QueueEntryMetadata} {acquiredAt : Int}
    (h : queue.heldSince claimId sequence = some (entry, acquiredAt)) :
    queue.metadata.get? sequence = some entry ∧ entry.state = .processing ∧
      entry.acquiredBy = some claimId ∧ entry.acquiredAt = some acquiredAt := by
  unfold Queue.heldSince at h
  split at h
  · cases h
  · rename_i entry' hentry
    split_ifs at h with hheld
    rw [Option.map_eq_some_iff] at h
    obtain ⟨time, htime, heq⟩ := h
    obtain ⟨rfl, rfl⟩ := Prod.mk.inj heq
    exact ⟨hentry, hheld.1, hheld.2, htime⟩

theorem QueueSound.refreshClaim {queue : Queue ε} (h : QueueSound queue) (claimId : String)
    (sequence : Nat) {now : Int} (hnow : now ≤ maxSafeInteger) :
    Advances queue (queue.refreshClaim claimId sequence now) := by
  unfold Queue.refreshClaim
  cases hheld : queue.heldSince claimId sequence with
  | none => exact .refl h
  | some held =>
      obtain ⟨entry, acquiredAt⟩ := held
      obtain ⟨hentry, hstate, hclaim, hacquired⟩ := heldSince_eq_some hheld
      have hbounded := h.bounded _ _ hentry
      have htime : entry.indexTime = some acquiredAt := by
        simp [QueueEntryMetadata.indexTime, hstate, hacquired]
      have hnewTime : QueueEntryMetadata.indexTime { entry with acquiredAt := some now } =
          some now := by
        simp [QueueEntryMetadata.indexTime, hstate]
      refine h.move hentry htime hnewTime rfl (by simp [hclaim])
        ⟨hbounded.visibleAt, by simpa using hnow, hbounded.updatedAt⟩ rfl ?_ rfl rfl rfl ?_
      · rw [hstate]
        rfl
      · intro claimId' sequence'
        change queue.claims.get? claimId' = _ ↔ _
        rw [h.invariant.claims]
        rcases eq_or_ne sequence' sequence with rfl | hne
        · simp [hentry]
        · simp [hne]

theorem finalState_ne_processing (exit : ClaimExit) (attempts : Nat) (maxAttempts now : Int)
    (retryDelay : Option Int) :
    (Queue.finalState exit attempts maxAttempts now retryDelay).1 ≠ .processing := by
  unfold Queue.finalState
  cases exit with
  | success => simp
  | failure hasDeadLetter hasInterruptsOnly =>
      dsimp only
      split_ifs <;> simp

theorem finalState_le (exit : ClaimExit) (attempts : Nat) (maxAttempts : Int) {now : Int}
    (hnow : now ≤ maxSafeInteger) (retryDelay : Option Int) :
    (Queue.finalState exit attempts maxAttempts now retryDelay).2.1 ≤ maxSafeInteger := by
  have hdelay : Queue.addDelay now retryDelay ≤ maxSafeInteger := by
    cases retryDelay with
    | none => exact le_refl _
    | some milliseconds => exact min_le_left _ _
  unfold Queue.finalState
  cases exit with
  | success => exact hnow
  | failure hasDeadLetter hasInterruptsOnly =>
      dsimp only
      split_ifs
      · exact hnow
      · exact hnow
      · exact hnow
      · exact hdelay

theorem QueueSound.finalizeClaim {queue : Queue ε} (h : QueueSound queue) (claimId : String)
    (sequence attempts : Nat) (maxAttempts : Int) (retryDelay : Option Int) (exit : ClaimExit)
    {now : Int} (hnow : now ≤ maxSafeInteger) :
    Advances queue
      (queue.finalizeClaim claimId sequence attempts maxAttempts retryDelay exit now) := by
  have hstate' := finalState_ne_processing exit attempts maxAttempts now retryDelay
  have hvisible := finalState_le exit attempts maxAttempts hnow retryDelay
  unfold Queue.finalizeClaim
  rcases hfinal : Queue.finalState exit attempts maxAttempts now retryDelay with
    ⟨state, visibleAt, decrementAttempt⟩
  rw [hfinal] at hstate' hvisible
  dsimp only at hstate' hvisible ⊢
  cases hheld : queue.heldSince claimId sequence with
  | none => exact .refl h
  | some held =>
      obtain ⟨entry, acquiredAt⟩ := held
      obtain ⟨hentry, hstate, hclaim, hacquired⟩ := heldSince_eq_some hheld
      dsimp only
      generalize (if decrementAttempt = true then entry.attempts - 1 else entry.attempts) =
        attempts'
      have hbounded : QueueEntryMetadata.Bounded
          { entry with
            attempts := attempts', state, visibleAt, acquiredAt := none, acquiredBy := none,
            updatedAt := now } :=
        ⟨hvisible, by simp, hnow⟩
      cases state with
      | pending =>
          apply Advances.addSignal
          exact h.release hentry hstate hacquired hclaim rfl rfl hstate' hbounded
      | processing => exact absurd rfl hstate'
      | completed => exact h.release hentry hstate hacquired hclaim rfl rfl hstate' hbounded
      | failed => exact h.release hentry hstate hacquired hclaim rfl rfl hstate' hbounded

/-! ## Cleanup -/

theorem QueueSound.remove {queue : Queue ε} (h : QueueSound queue) {sequence : Nat}
    {entry : QueueEntryMetadata} {time : Int}
    (hentry : queue.metadata.get? sequence = some entry) (hstate : entry.state ≠ .processing)
    (htime : entry.indexTime = some time) :
    QueueSound
      (({ queue.clearEntry sequence with ids := queue.ids.clear entry.id } : Queue ε).clearIndex
        entry.state (toLex (timestamp time, sequence))) := by
  have hrewrites : Rewrites queue
      (({ queue.clearEntry sequence with ids := queue.ids.clear entry.id } : Queue ε).clearIndex
        entry.state (toLex (timestamp time, sequence))) sequence none := by
    constructor
    case metadata =>
      intro sequence'
      exact OrderedMap.get?_clear _ _ _
    case index =>
      intro state row sequence'
      change ((queue.clearIndex entry.state _).index state).get? row = _ ↔ _
      rw [get?_clearIndex]
      constructor
      · intro hrow
        split_ifs at hrow with hcleared
        refine .inl ⟨?_, hrow⟩
        rintro rfl
        obtain ⟨entry', time', hentry', hstate', htime', hkey⟩ :=
          (h.invariant.index _ _ _).mp hrow
        rw [hentry] at hentry'
        obtain rfl := Option.some.inj hentry'
        rw [htime] at htime'
        rw [← Option.some.inj htime'] at hkey
        exact hcleared ⟨hstate'.symm, hkey⟩
      · rintro (⟨hne, hrow⟩ | ⟨-, _, _, hnone, -⟩)
        · rw [if_neg fun hcleared => h.invariant.row_ne hrow hne hcleared.2]
          exact hrow
        · cases hnone
    case ids =>
      intro id sequence'
      change (queue.ids.clear entry.id).get? id = _ ↔ _
      have hid := (h.invariant.ids entry.id sequence).mpr ⟨entry, hentry, rfl⟩
      rw [OrderedMap.get?_clear]
      constructor
      · intro hget
        split_ifs at hget with heq
        refine .inl ⟨?_, hget⟩
        rintro rfl
        obtain ⟨entry', hentry', rfl⟩ := (h.invariant.ids _ _).mp hget
        rw [hentry] at hentry'
        exact heq (congrArg QueueEntryMetadata.id (Option.some.inj hentry').symm)
      · rintro (⟨hne, hget⟩ | ⟨-, _, hnone, -⟩)
        · rw [if_neg]
          · exact hget
          · rintro rfl
            rw [hid] at hget
            exact hne (Option.some.inj hget).symm
        · cases hnone
    case claims =>
      intro claimId sequence'
      change queue.claims.get? claimId = _ ↔ _
      constructor
      · intro hclaim
        exact .inl ⟨h.invariant.claims_ne hentry hstate hclaim, hclaim⟩
      · rintro (⟨-, hclaim⟩ | ⟨-, _, hnone, -⟩)
        · exact hclaim
        · cases hnone
    case elements =>
      intro sequence'
      change ((queue.elements.clear sequence).get? sequence').isSome = _
      rw [OrderedMap.get?_clear]
      split_ifs <;> rfl
    case counter => exact le_refl _
  exact h.rewrite hrewrites fun _ hnone => nomatch hnone

theorem QueueSound.terminal_of_row {queue : Queue ε} (h : QueueSound queue) {state : TerminalState}
    {cutoff : Option Int} {indexed : (Int ×ₗ Nat) × Nat}
    (hrow : (queue.index state.entryState).get? indexed.1 = some indexed.2)
    (hbefore : Queue.beforeEnd cutoff indexed.1 = true) :
    ∃ entry last, queue.metadata.get? indexed.2 = some entry ∧ entry.state = state.entryState ∧
      entry.state ≠ .processing ∧ entry.indexTime = some entry.updatedAt ∧ cutoff = some last ∧
      entry.updatedAt ≤ last ∧ indexed.1 = toLex (timestamp entry.updatedAt, indexed.2) := by
  obtain ⟨entry, time, hentry, hstate, htime, hkey⟩ := h.invariant.entry_of_row hrow
  have hterminal : entry.state ≠ .processing ∧ entry.updatedAt = time := by
    unfold QueueEntryMetadata.indexTime at htime
    rw [hstate] at htime ⊢
    cases state <;> simpa [TerminalState.entryState] using htime
  obtain ⟨hprocessing, rfl⟩ := hterminal
  rw [hkey] at hbefore
  obtain ⟨last, hlast, hle⟩ := le_of_beforeEnd (h.bounded _ _ hentry).updatedAt hbefore
  exact ⟨entry, last, hentry, hstate, hprocessing, htime, hlast, hle, hkey⟩

theorem cleanupRow_eq {queue : Queue ε} {state : TerminalState} {last : Int} {sequence : Nat}
    {entry : QueueEntryMetadata} (row : Int ×ₗ Nat)
    (hentry : queue.metadata.get? sequence = some entry) (hstate : entry.state = state.entryState)
    (hle : entry.updatedAt ≤ last) :
    queue.cleanupRow state (some last) (row, sequence) =
      ({ queue.clearEntry sequence with ids := queue.ids.clear entry.id } : Queue ε).clearIndex
        entry.state row := by
  simp [Queue.cleanupRow, hentry, hstate, hle, Queue.clearEntry]

theorem cleanupRow_spec {queue : Queue ε} (h : QueueSound queue) {state : TerminalState}
    {cutoff : Option Int} {indexed : (Int ×ₗ Nat) × Nat}
    (hrow : (queue.index state.entryState).get? indexed.1 = some indexed.2)
    (hbefore : Queue.beforeEnd cutoff indexed.1 = true) :
    QueueSound (queue.cleanupRow state cutoff indexed) ∧ ∀ row, row ≠ indexed.1 →
      ((queue.cleanupRow state cutoff indexed).index state.entryState).get? row =
        (queue.index state.entryState).get? row := by
  obtain ⟨entry, last, hentry, hstate, hprocessing, htime, rfl, hle, hkey⟩ :=
    h.terminal_of_row hrow hbefore
  obtain ⟨row, sequence⟩ := indexed
  dsimp only at hentry hkey
  subst hkey
  rw [cleanupRow_eq _ hentry hstate hle]
  refine ⟨h.remove hentry hprocessing htime, ?_⟩
  intro row hne
  change ((queue.clearIndex entry.state _).index state.entryState).get? row = _
  rw [get?_clearIndex, if_neg fun hcleared => hne hcleared.2]

theorem QueueSound.cleanupRows {state : TerminalState} {cutoff : Option Int}
    (entries : List ((Int ×ₗ Nat) × Nat)) {queue : Queue ε} (h : QueueSound queue)
    (hrows : ∀ indexed ∈ entries,
      (queue.index state.entryState).get? indexed.1 = some indexed.2 ∧
        Queue.beforeEnd cutoff indexed.1 = true)
    (hdistinct : entries.Pairwise fun left right => left.1 ≠ right.1) :
    QueueSound (entries.foldl (fun queue indexed => queue.cleanupRow state cutoff indexed) queue) := by
  induction entries generalizing queue with
  | nil => exact h
  | cons indexed entries ih =>
      obtain ⟨hother, hrest⟩ := List.pairwise_cons.mp hdistinct
      obtain ⟨hrow, hbefore⟩ := hrows indexed (by simp)
      obtain ⟨hsound, hindex⟩ := cleanupRow_spec h hrow hbefore
      refine ih hsound ?_ hrest
      intro later hmem
      rw [hindex later.1 (hother later hmem).symm]
      exact hrows later (List.mem_cons_of_mem _ hmem)

theorem QueueSound.cleanupBatch {queue : Queue ε} (h : QueueSound queue) (state : TerminalState)
    (cutoff : Option Int) : QueueSound (queue.cleanupBatch state cutoff).1 :=
  h.cleanupRows _ (fun _ => mem_indexBefore) (indexBefore_pairwise _ _)

/-! ## Runs -/

def QueueTransaction.isCleanup : QueueTransaction ε → Bool
  | .cleanup _ _ => true
  | _ => false

theorem QueueStep.advances {queue next : Queue ε} {commit : QueueCommit ε}
    (hstep : QueueStep queue commit next) (h : QueueSound queue)
    (hnow : commit.now ≤ maxSafeInteger) (hcleanup : commit.transaction.isCleanup = false) :
    Advances queue next := by
  cases hstep with
  | offer now id element => exact h.offer id element hnow
  | claim now claimId maxAttempts lockExpiration hclaim => exact h.claim hnow hclaim
  | refreshClaim now claimId sequence => exact h.refreshClaim claimId sequence hnow
  | finalizeClaim now claimId sequence attempts maxAttempts retryDelay exit =>
      exact h.finalizeClaim claimId sequence attempts maxAttempts retryDelay exit hnow
  | cleanup now state timeToLive => simp [QueueTransaction.isCleanup] at hcleanup

theorem QueueStep.sound {queue next : Queue ε} {commit : QueueCommit ε}
    (hstep : QueueStep queue commit next) (h : QueueSound queue)
    (hnow : commit.now ≤ maxSafeInteger) : QueueSound next := by
  cases hcleanup : commit.transaction.isCleanup with
  | false => exact (hstep.advances h hnow hcleanup).sound
  | true =>
      cases hstep with
      | cleanup now state timeToLive => exact h.cleanupBatch state _
      | _ => simp [QueueTransaction.isCleanup] at hcleanup

theorem QueueSound.of_run {queue : Queue ε} {commits : List (QueueCommit ε)}
    (hrun : Run QueueStep Queue.empty commits queue)
    (hclock : ∀ commit ∈ commits, commit.now ≤ maxSafeInteger) : QueueSound queue :=
  hrun.invariant (fun _ _ _ hnow hstep h => QueueStep.sound hstep h hnow) hclock .empty

theorem Advances.of_run {queue queue' : Queue ε} (h : QueueSound queue)
    {commits : List (QueueCommit ε)} (hrun : Run QueueStep queue commits queue')
    (hcommits : ∀ commit ∈ commits,
      commit.now ≤ maxSafeInteger ∧ commit.transaction.isCleanup = false) :
    Advances queue queue' := by
  induction hrun with
  | nil => exact .refl h
  | @snoc _ _ _ last _ hlast ih =>
      have hadvances := ih fun commit hmem => hcommits commit (List.mem_append_left _ hmem)
      obtain ⟨hnow, hcleanup⟩ := hcommits last (by simp)
      exact hadvances.trans (hlast.advances hadvances.sound hnow hcleanup)

/-- The invariant holds in every reachable state, every entry has exactly one index row, and
no entry is lost, or changes its id or element, before a cleanup. -/
theorem queueInvariant_of_run {queue : Queue ε} {commits : List (QueueCommit ε)}
    (hrun : Run QueueStep Queue.empty commits queue)
    (hclock : ∀ commit ∈ commits, commit.now ≤ maxSafeInteger) :
    QueueInvariant timestamp queue ∧
      (∀ sequence entry, queue.metadata.get? sequence = some entry →
        ∃! row : EntryState × (Int ×ₗ Nat), (queue.index row.1).get? row.2 = some sequence) ∧
      ∀ later queue', Run QueueStep queue later queue' →
        (∀ commit ∈ later,
          commit.now ≤ maxSafeInteger ∧ commit.transaction.isCleanup = false) →
        Keeps queue queue' := by
  have hsound := QueueSound.of_run hrun hclock
  refine ⟨hsound.invariant, ?_, ?_⟩
  · intro sequence entry hentry
    exact hsound.invariant.existsUnique_row hentry
  · intro later queue' hlater hcommits
    exact (Advances.of_run hsound hlater hcommits).keeps

def recoveredJob : List (QueueCommit Unit) :=
  [⟨.offer "job" (), 0⟩, ⟨.claim "first" 10 (some 120000), 1000⟩,
    ⟨.claim "second" 10 (some 120000), 121000⟩]

theorem queueInvariant_recoveredJob :
    ∃ queue, Run QueueStep Queue.empty recoveredJob queue ∧ QueueInvariant timestamp queue ∧
      queue.claims.get? "second" = some 0 := by
  have hrun : Run QueueStep (Queue.empty : Queue Unit) recoveredJob _ :=
    .snoc (.snoc (.snoc (.nil _) (.offer _ _ _ _)) (.claim _ _ _ _ rfl)) (.claim _ _ _ _ rfl)
  exact ⟨_, hrun, (queueInvariant_of_run hrun (by decide)).1, rfl⟩

/-- Two claims with a clock beyond the range of the index keys: the second one drops the lock
of the first as stale, and leaves its entry without any index row. -/
def lateJob : List (QueueCommit Unit) :=
  [⟨.offer "job" (), 0⟩, ⟨.claim "first" 10 (some 120000), 2 ^ 54⟩,
    ⟨.claim "second" 10 (some 120000), 2 ^ 54 + 4⟩]

theorem not_queueInvariant_lateJob :
    (∃ queue, Run QueueStep Queue.empty lateJob queue ∧
      ¬ QueueInvariant timestamp queue ∧ ¬ QueueInvariant id queue) ∧
    ∃ queue, Run QueueStep (Queue.empty : Queue Unit) [⟨.offer "job" (), -5⟩] queue ∧
      ¬ QueueInvariant id queue := by
  refine ⟨?_, ?_⟩
  · have hrun : Run QueueStep (Queue.empty : Queue Unit) lateJob _ :=
      .snoc (.snoc (.snoc (.nil _) (.offer _ _ _ _)) (.claim _ _ _ _ rfl)) (.claim _ _ _ _ rfl)
    refine ⟨_, hrun, ?_, ?_⟩
    · intro h
      have hrow := (h.index .processing (toLex (timestamp (2 ^ 54), 0)) 0).mpr
        ⟨_, 2 ^ 54, rfl, rfl, rfl, rfl⟩
      cases hrow
    · intro h
      have hrow := (h.index .processing (toLex (2 ^ 54, 0)) 0).mpr
        ⟨_, 2 ^ 54, rfl, rfl, rfl, rfl⟩
      cases hrow
  · refine ⟨_, .single (.offer _ _ _ _), ?_⟩
    intro h
    have hrow := (h.index .pending (toLex (-5, 0)) 0).mpr ⟨_, -5, rfl, rfl, rfl, rfl⟩
    cases hrow

end FoundationDbEffect.PersistedQueue
