import FoundationDbEffect.Persistence.BackingLive

/-!
# Chunks that nothing names

An identity that has chunks is to be named by a manifest or by a garbage row, so that cleanup can
reclaim it. The batches of a staging rely on the marker that the first of them has written, and a
batch does not look whether it is still there. After a pause that is longer than the delay of the
marker, cleanup has taken it with the chunks so far, and the chunks of the next batch stay.
-/

namespace FoundationDbEffect.Persistence.Backing

open FoundationDbEffect.Foundation

section

variable {κ ι ν ε : Type} [LinearOrder κ] [LinearOrder ι]

/-! ## Stores whose chunks can be reclaimed -/

def Reclaimable (store : PersistenceState κ ι ε) (identity : ι) : Prop :=
  (∃ key manifest, store.entries.get? key = some manifest ∧ manifest.identity = identity) ∨
    ∃ time, (store.garbage.get? (toLex (time, identity))).isSome

def Covered (store : PersistenceState κ ι ε) : Prop :=
  ∀ identity, Stored store.values identity → Reclaimable store identity

variable {store next : PersistenceState κ ι ε}

theorem Reclaimable.drop {may : EntryManifest ι → Prop} {identity : ι}
    (h : Reclaimable store identity) (hdrop : Drop may store next)
    (hstored : Stored next.values identity) : Reclaimable next identity := by
  cases hdrop with
  | none hentries _ hgarbage =>
      rw [Reclaimable, hentries, hgarbage]
      exact h
  | entry hkey _ hentries hvalues hgarbage =>
      rw [hvalues] at hstored
      have hother := (stored_clear.mp hstored).1
      rcases h with ⟨key', manifest', hkey', rfl⟩ | hrow
      · refine .inl ⟨key', manifest', ?_, rfl⟩
        rw [hentries, OrderedMap.get?_clear_of_ne]
        · exact hkey'
        · rintro rfl
          rw [hkey] at hkey'
          cases hkey'
          exact hother rfl
      · rw [Reclaimable, hgarbage]
        exact .inr hrow

theorem Drop.stored {may : EntryManifest ι → Prop} {identity : ι} (h : Drop may store next)
    (hstored : Stored next.values identity) : Stored store.values identity := by
  cases h with
  | none _ hvalues _ => rwa [hvalues] at hstored
  | entry _ _ _ hvalues _ =>
      rw [hvalues] at hstored
      exact (stored_clear.mp hstored).2

theorem Covered.drops {may : EntryManifest ι → Prop} (h : Covered store)
    (hdrops : Drops may store next) : Covered next := by
  induction hdrops with
  | refl => exact h
  | tail _ hlast ih =>
      intro identity hstored
      exact (ih identity (hlast.stored hstored)).drop hlast hstored

theorem covered_clear (nextEpoch : ε) :
    Covered (clear nextEpoch : PersistenceState κ ι ε) := by
  rintro identity ⟨index, hindex⟩
  cases hindex

theorem Covered.cleanupGarbage (h : Covered store) (item : (Nat ×ₗ ι) × Unit) :
    Covered (cleanupGarbage store item) := by
  intro identity hstored
  obtain ⟨hother, hstored⟩ := stored_clear.mp hstored
  refine (h identity hstored).imp_right ?_
  rintro ⟨time, hrow⟩
  refine ⟨time, ?_⟩
  change ((store.garbage.clear _).get? _).isSome
  rw [OrderedMap.get?_clear_of_ne]
  · exact hrow
  · intro heq
    exact hother (congrArg (fun row => (ofLex row).2) heq)

theorem Covered.cleanupBatch (h : Covered store) (now : ℚ) :
    Covered (cleanupBatch now store).1 := by
  have hgarbage (items : List ((Nat ×ₗ ι) × Unit)) (state : PersistenceState κ ι ε)
      (hstate : Covered state) : Covered (items.foldl Backing.cleanupGarbage state) := by
    induction items generalizing state with
    | nil => exact hstate
    | cons item items ih => exact ih _ (hstate.cleanupGarbage item)
  exact hgarbage _ _ (h.drops (drops_cleanupExpired now _ store))

/-! ## Batches of mutations -/

theorem stored_apply {mutations : List (StagingMutation ι)} {identity : ι} :
    Stored (mutations.foldl StagingMutation.apply store).values identity ↔
      Stored store.values identity ∨ ∃ index chunk, .chunk identity index chunk ∈ mutations := by
  induction mutations generalizing store with
  | nil => simp
  | cons mutation mutations ih =>
      rw [List.foldl_cons, ih]
      cases mutation with
      | marker time identity' =>
          simp [StagingMutation.apply, setGarbage]
      | chunk identity' index' chunk' =>
          have hset : Stored (setChunk store identity' index' chunk').values identity ↔
              Stored store.values identity ∨ identity = identity' := by
            unfold Stored setChunk
            simp only [OrderedMap.get?_set]
            constructor
            · rintro ⟨index, hindex⟩
              by_cases heq : identity = identity'
              · exact .inr heq
              · exact .inl ⟨index, by simpa [heq] using hindex⟩
            · rintro (⟨index, hindex⟩ | rfl)
              · exact ⟨index, by split <;> simp [hindex]⟩
              · exact ⟨index', by simp⟩
          rw [StagingMutation.apply, hset, or_assoc]
          refine or_congr_right ⟨?_, ?_⟩
          · rintro (rfl | ⟨index, chunk, hmem⟩)
            · exact ⟨index', chunk', List.mem_cons_self⟩
            · exact ⟨index, chunk, List.mem_cons_of_mem _ hmem⟩
          · rintro ⟨index, chunk, hmem⟩
            rcases List.mem_cons.mp hmem with heq | hmem
            · injection heq with hidentity
              exact .inl hidentity
            · exact .inr ⟨index, chunk, hmem⟩

def Marked (store : PersistenceState κ ι ε) (batch : List (StagingMutation ι)) (identity : ι) :
    Prop :=
  ∃ time, (store.garbage.get? (toLex (time, identity))).isSome ∨ .marker time identity ∈ batch

theorem Covered.apply {batch : List (StagingMutation ι)} (h : Covered store)
    (hmarked : ∀ identity index chunk, .chunk identity index chunk ∈ batch →
      Marked store batch identity) : Covered (batch.foldl StagingMutation.apply store) := by
  intro identity hstored
  rw [Reclaimable, apply_entries]
  simp only [isSome_garbage_apply]
  rcases stored_apply.mp hstored with hbefore | ⟨index, chunk, hmem⟩
  · refine (h identity hbefore).imp_right ?_
    rintro ⟨time, hrow⟩
    exact ⟨time, .inl hrow⟩
  · exact .inr (hmarked identity index chunk hmem)

theorem not_covered_apply {batch : List (StagingMutation ι)} {identity : ι} {index : Nat}
    {chunk : Bytes} (hchunk : .chunk identity index chunk ∈ batch)
    (hunnamed : Unnamed store identity) (hmarked : ¬ Marked store batch identity) :
    ¬ Covered (batch.foldl StagingMutation.apply store) := by
  intro h
  have hreclaimable := h identity (stored_apply.mpr (.inr ⟨index, chunk, hchunk⟩))
  rw [Reclaimable, apply_entries] at hreclaimable
  simp only [isSome_garbage_apply] at hreclaimable
  rcases hreclaimable with ⟨key, manifest, hkey, hidentity⟩ | hrow
  · exact hunnamed key manifest hkey hidentity
  · exact hmarked hrow

/-! ## Publications -/

variable {prepared : List (PreparedEntry κ ι)} {staged : Bool} {replacedAt : ℚ}

theorem publishAll_garbage_kept {previous : κ → Option (EntryManifest ι)}
    {entries : List (PreparedEntry κ ι)} {state : PersistenceState κ ι ε} {time : Nat}
    {identity : ι} (hne : ∀ entry ∈ entries, entry.identity ≠ identity)
    (h : (state.garbage.get? (toLex (time, identity))).isSome ∨
      ∃ entry ∈ entries, Replaces replacedAt entry (previous entry.key) time identity) :
    ((publishAll staged replacedAt previous entries state).garbage.get?
      (toLex (time, identity))).isSome := by
  induction entries generalizing state with
  | nil => simpa [publishAll] using h
  | cons entry entries ih =>
      obtain ⟨hfirst, hrest⟩ := List.forall_mem_cons.mp hne
      have hkept : ¬ (staged = true ∧ time = entry.garbageAt ∧ identity = entry.identity) :=
        fun hcleared => hfirst hcleared.2.2.symm
      refine ih hrest ?_
      rw [publishEntry_garbage]
      rcases h with hrow | ⟨other, hother, hreplaces⟩
      · exact .inl ⟨.inl hrow, hkept⟩
      · rcases List.mem_cons.mp hother with rfl | hother
        · exact .inl ⟨.inr hreplaces, hkept⟩
        · exact .inr ⟨other, hother, hreplaces⟩

theorem reclaimable_of_mem {previous : κ → Option (EntryManifest ι)}
    {state : PersistenceState κ ι ε} (hkeys : (prepared.map PreparedEntry.key).Nodup)
    {entry : PreparedEntry κ ι} (hentry : entry ∈ prepared) :
    Reclaimable (publishAll staged replacedAt previous prepared state) entry.identity :=
  .inl ⟨entry.key, _, publishAll_entries_of_mem hkeys state hentry, rfl⟩

theorem Reclaimable.publishAll (hkeys : (prepared.map PreparedEntry.key).Nodup) {identity : ι}
    (h : Reclaimable store identity) :
    Reclaimable (publishAll staged replacedAt store.entries.get? prepared store) identity := by
  by_cases hown : ∃ entry ∈ prepared, entry.identity = identity
  · obtain ⟨entry, hentry, rfl⟩ := hown
    exact reclaimable_of_mem hkeys hentry
  · have hne : ∀ entry ∈ prepared, entry.identity ≠ identity :=
      fun entry hentry heq => hown ⟨entry, hentry, heq⟩
    rcases h with ⟨key, manifest, hkey, rfl⟩ | ⟨time, hrow⟩
    · by_cases hreplaced : ∃ entry ∈ prepared, entry.key = key
      · obtain ⟨entry, hentry, rfl⟩ := hreplaced
        refine .inr ⟨timestamp replacedAt, publishAll_garbage_kept hne (.inr ?_)⟩
        exact ⟨entry, hentry, rfl, (hne entry hentry).symm, manifest, hkey, rfl⟩
      · refine .inl ⟨key, manifest, ?_, rfl⟩
        rw [publishAll_entries_of_ne]
        · exact hkey
        · exact fun entry hentry heq => hreplaced ⟨entry, hentry, heq⟩
    · exact .inr ⟨time, publishAll_garbage_kept hne (.inl hrow)⟩

variable [DecidableEq ε]

theorem Covered.publishEntries {epoch : Option (StoreEpoch ε)} (h : Covered store)
    (hkeys : (prepared.map PreparedEntry.key).Nodup)
    (hpublish : publishEntries store prepared epoch replacedAt = some next) : Covered next := by
  intro identity hstored
  rcases publishEntries_cases hpublish with ⟨-, hrepublished⟩ | ⟨-, -, rfl⟩ | ⟨-, rfl⟩
  · rw [hrepublished.values] at hstored
    rw [Reclaimable, hrepublished.entries]
    by_cases hown : ∃ entry ∈ prepared, entry.identity = identity
    · obtain ⟨entry, hentry, rfl⟩ := hown
      exact .inl ⟨entry.key, _, hrepublished.published entry hentry, rfl⟩
    · simp only [hrepublished.other _ _ fun entry hentry heq => hown ⟨entry, hentry, heq⟩]
      exact h identity hstored
  · rw [publishAll_values] at hstored
    exact (h identity hstored).publishAll hkeys
  · rw [publishAll_values] at hstored
    rcases stored_apply.mp hstored with hbefore | ⟨index, chunk, hmem⟩
    · have hchunked : Reclaimable ((prepared.flatMap chunkMutations).foldl StagingMutation.apply
          store) identity := by
        rw [Reclaimable, apply_entries]
        simp only [isSome_garbage_apply]
        exact (h identity hbefore).imp_right fun ⟨time, hrow⟩ => ⟨time, .inl hrow⟩
      rw [← apply_entries (prepared.flatMap chunkMutations) store]
      exact hchunked.publishAll hkeys
    · obtain ⟨entry, hentry, hchunk⟩ := List.mem_flatMap.mp hmem
      obtain ⟨rfl, -⟩ := mem_chunkMutations.mp hchunk
      exact reclaimable_of_mem hkeys hentry

/-! ## Runs -/

variable {json : Json ν} {lengths : Lengths κ ι} {ω : Type} [DecidableEq ω]
  {world world' : World κ ι ν ε ω} {name : ω} {writer : Writer κ ι ν ε}

/-- Each identity that a batch writes chunks of has its marker, in the store or in the batch. -/
def MarkersKept (world : World κ ι ν ε ω) : Event κ ι ν ε ω → Prop
  | .stage name _ => ∀ writer batch rest complete epoch,
      world.writers name = some writer →
      writer.phase = .staging (batch :: rest) complete epoch →
      ¬ epoch.any (· ≠ world.store.epoch) → ∀ identity index chunk,
      .chunk identity index chunk ∈ batch → Marked world.store batch identity
  | _ => True

structure CoveredWorld (world : World κ ι ν ε ω) : Prop where
  store : Covered world.store
  keys : ∀ name writer, world.writers name = some writer →
    (writer.prepared.map PreparedEntry.key).Nodup

omit [DecidableEq ε] [DecidableEq ω] in
theorem CoveredWorld.store_eq (h : CoveredWorld world) {store : PersistenceState κ ι ε}
    (hstore : Covered store) : CoveredWorld { world with store } :=
  ⟨hstore, h.keys⟩

omit [DecidableEq ε] in
theorem CoveredWorld.setPhase (h : CoveredWorld world) {store : PersistenceState κ ι ε}
    (hstore : Covered store) (hkeys : (writer.prepared.map PreparedEntry.key).Nodup) (name : ω)
    (phase : Phase ι ε) : CoveredWorld ({ world with store }.setPhase name writer phase) where
  store := hstore
  keys other writer' hother := by
    by_cases hname : other = name
    · subst hname
      simp only [World.setPhase, Function.update_self, Option.some.injEq] at hother
      rw [← hother]
      exact hkeys
    · simp only [World.setPhase, Function.update_of_ne hname] at hother
      exact h.keys other writer' hother

omit [DecidableEq ε] in
theorem CoveredWorld.prepare (h : CoveredWorld world)
    (hwriter : world.writers name = some writer) {identities : List ι}
    (hlength : identities.length = (latestEntries writer.entries).length) :
    CoveredWorld (world.prepare json lengths name writer identities) := by
  unfold World.prepare
  cases hprepared : prepareEntries json lengths world.now writer.entries identities with
  | error error => exact h.setPhase h.store (h.keys name writer hwriter) name _
  | ok prepared =>
      have hkeys := (prepared_of_prepareEntries hprepared hlength (List.Subset.refl _)).keys
      have hnext : CoveredWorld (world.setPhase name { writer with preparedAt := world.now, prepared }
          (.start world.now (writePlan lengths prepared))) := h.setPhase h.store hkeys name _
      exact ⟨hnext.store, hnext.keys⟩

theorem CoveredWorld.stage (h : CoveredWorld world) (hwriter : world.writers name = some writer)
    {batch : List (StagingMutation ι)} {rest : List (List (StagingMutation ι))} {complete : Bool}
    {epoch : Option (StoreEpoch ε)} (hphase : writer.phase = .staging (batch :: rest) complete epoch)
    (unknown : Bool) (hkept : MarkersKept world (.stage name unknown)) :
    CoveredWorld (world.stage name writer batch rest complete epoch unknown) := by
  have hkeys := h.keys name writer hwriter
  unfold World.stage writeStageBatch
  split
  · next hepoch => exact h.setPhase h.store hkeys name _
  · next store' epoch' hwrite =>
      split at hwrite
      · cases hwrite
      · next hfits =>
          cases hwrite
          have hstore := h.store.apply (hkept writer batch rest complete epoch hwriter hphase hfits)
          dsimp only
          split
          · exact h.store_eq hstore
          · exact h.setPhase hstore hkeys name _

theorem CoveredWorld.publish (h : CoveredWorld world) (hwriter : world.writers name = some writer)
    (epoch : Option (StoreEpoch ε)) (replacedAt : ℚ) (unknown : Bool) :
    CoveredWorld (world.publish name writer epoch replacedAt unknown) := by
  have hkeys := h.keys name writer hwriter
  unfold World.publish
  cases hpublish : Backing.publishEntries world.store writer.prepared epoch replacedAt with
  | none => exact h.setPhase h.store hkeys name _
  | some store => exact h.setPhase (h.store.publishEntries hkeys hpublish) hkeys name _

theorem CoveredWorld.step {event : Event κ ι ν ε ω} (h : CoveredWorld world)
    (hkept : MarkersKept world event) (hstep : world.step json lengths event = some world') :
    CoveredWorld world' := by
  cases event with
  | tick now =>
      rw [World.step] at hstep
      split at hstep
      · cases hstep
        exact ⟨h.store, h.keys⟩
      · cases hstep
  | call name entries =>
      rw [World.step] at hstep
      split at hstep
      · cases hstep
      · cases hstep
        refine ⟨h.store, fun other writer hother => ?_⟩
        by_cases hname : other = name
        · subst hname
          simp only [Function.update_self, Option.some.injEq] at hother
          rw [← hother]
          exact .nil
        · simp only [Function.update_of_ne hname] at hother
          exact h.keys other writer hother
  | prepare name identities =>
      rw [World.step] at hstep
      split at hstep
      · next writer hwriter =>
          split at hstep
          · split at hstep
            · next hdrawn =>
                cases hstep
                exact h.prepare hwriter hdrawn.1
            · cases hstep
          · cases hstep
      · cases hstep
  | stage name unknown =>
      rw [World.step] at hstep
      split at hstep
      · next writer hwriter =>
          split at hstep
          · next hphase =>
              cases hstep
              exact h.stage hwriter hphase unknown hkept
          · cases hstep
      · cases hstep
  | publish name unknown =>
      rw [World.step] at hstep
      split at hstep
      · next writer hwriter =>
          split at hstep
          · cases hstep
            exact h.publish hwriter _ _ unknown
          · cases hstep
      · cases hstep
  | get key =>
      rw [World.step] at hstep
      split at hstep
      · next hget =>
          cases hstep
          exact h.store_eq (h.store.drops (drops_resolveEntry hget))
      · cases hstep
        exact h
  | getMany keys =>
      rw [World.step] at hstep
      split at hstep
      · next hget =>
          cases hstep
          exact h.store_eq (h.store.drops (drops_getMany hget))
      · cases hstep
        exact h
  | remove key =>
      cases hstep
      exact h.store_eq (h.store.drops (.single (drop_remove _ key)))
  | clear nextEpoch =>
      cases hstep
      exact h.store_eq (covered_clear nextEpoch)
  | cleanup =>
      cases hstep
      exact h.store_eq (h.store.cleanupBatch world.now)

theorem covered_of_run {events : List (Event κ ι ν ε ω)}
    (hrun : Run (fun world event next => MarkersKept world event ∧
      World.step json lengths world event = some next) {} events world) : Covered world.store := by
  have hstart : CoveredWorld ({} : World κ ι ν ε ω) := by
    refine ⟨?_, fun _ _ h => nomatch h⟩
    rintro identity ⟨index, hindex⟩
    cases hindex
  refine (hrun.invariant (A := fun _ => True) ?_ (fun _ _ => trivial) hstart).store
  intro state event next _ hstep h
  exact h.step hstep.1 hstep.2

theorem step_stage {batch : List (StagingMutation ι)}
    {rest : List (List (StagingMutation ι))} {complete : Bool} {epoch : Option (StoreEpoch ε)}
    (hwriter : world.writers name = some writer)
    (hphase : writer.phase = .staging (batch :: rest) complete epoch) (unknown : Bool) :
    world.step json lengths (.stage name unknown) =
      some (world.stage name writer batch rest complete epoch unknown) := by
  rw [World.step, hwriter]
  dsimp only
  rw [hphase]

/-- A batch that finds no marker leaves chunks that nothing names. -/
theorem not_covered_of_stage {batch : List (StagingMutation ι)}
    {rest : List (List (StagingMutation ι))} {complete : Bool} {epoch : Option (StoreEpoch ε)}
    (hwriter : world.writers name = some writer)
    (hphase : writer.phase = .staging (batch :: rest) complete epoch)
    (hfits : ¬ epoch.any (· ≠ world.store.epoch)) {identity : ι} {index : Nat} {chunk : Bytes}
    (hchunk : .chunk identity index chunk ∈ batch) (hunnamed : Unnamed world.store identity)
    (hmarked : ¬ Marked world.store batch identity) (unknown : Bool)
    (hstep : world.step json lengths (.stage name unknown) = some world') :
    ¬ Covered world'.store := by
  have hstore : world'.store = batch.foldl StagingMutation.apply world.store := by
    rw [step_stage hwriter hphase] at hstep
    cases hstep
    unfold World.stage writeStageBatch
    rw [if_neg hfits]
    cases unknown <;> rfl
  rw [hstore]
  exact not_covered_apply hchunk hunnamed hmarked

end

/-! ## Sizes of prepared entries -/

section

variable {κ ι ν : Type}

theorem le_sum_chunkBytes (lengths : Lengths κ ι) (identity : ι) (chunks : List Bytes)
    (start : Nat) :
    (concatChunks chunks).length ≤ ((chunks.zipIdx start).map fun (chunk, index) =>
      lengths.mutationBytes (.value identity index) chunk.length).sum := by
  induction chunks generalizing start with
  | nil => simp [concatChunks]
  | cons chunk chunks ih =>
      have hrest := ih (start + 1)
      simp only [concatChunks, List.flatten_cons, List.length_append, List.zipIdx_cons,
        List.map_cons, List.sum_cons] at hrest ⊢
      unfold Lengths.mutationBytes at hrest ⊢
      omega

theorem le_directByteEstimate {json : Json ν} {lengths : Lengths κ ι} {now : ℚ}
    {entry : WriteEntry κ ν × ι} {prepared : PreparedEntry κ ι} {encoded : Bytes}
    (h : prepareEntry json lengths now entry = .ok prepared)
    (hencoded : json.stringify entry.1.value = some encoded) :
    encoded.length ≤ prepared.directByteEstimate := by
  have hsum := le_sum_chunkBytes lengths entry.2 (splitChunkedValue encoded) 0
  rw [concatChunks_splitChunkedValue] at hsum
  unfold prepareEntry at h
  dsimp only at h
  rw [hencoded] at h
  cases h
  exact hsum.trans (Nat.le_add_left _ _)

theorem le_batchEstimate_stagingMutations (lengths : Lengths κ ι) (entry : PreparedEntry κ ι)
    {encoded : Bytes} (hchunks : entry.chunks = splitChunkedValue encoded) :
    encoded.length ≤ batchEstimate lengths (stagingMutations entry) := by
  have hsum := le_sum_chunkBytes lengths entry.identity (splitChunkedValue encoded) 0
  rw [concatChunks_splitChunkedValue] at hsum
  rw [batchEstimate, stagingMutations, List.map_cons, List.sum_cons, chunkMutations, hchunks,
    List.map_map]
  refine hsum.trans ?_
  exact (Nat.le_add_left _ _).trans (Nat.le_add_left _ _)

end

/-! ## A staging that pauses -/

section

def letterText (count : Nat) : Bytes :=
  [123, 34, 97, 34, 58, 34] ++ List.replicate count 97 ++ [34, 125]

def letterJson : Json Nat where
  stringify count := some (letterText count)
  parse text := [text.length - 8].find? fun count => letterText count = text

abbrev LetterWorld := World String Nat Nat Nat Nat

theorem length_letterText (count : Nat) : (letterText count).length = count + 8 := by
  simp [letterText]

structure Large (entry : PreparedEntry String Nat) : Prop where
  identity : entry.identity = 1
  garbageAt : entry.garbageAt = garbageTime 0
  chunks : ∃ text, entry.chunks = splitChunkedValue text ∧ transactionByteBudget < text.length
  direct : transactionByteBudget < entry.directByteEstimate
  staged : entry.stagedPublicationByteEstimate = 754

theorem prepareEntry_large {count : Nat} (hcount : transactionByteBudget < count) :
    ∃ entry, prepareEntry letterJson shortLengths 0 (⟨"key", count, none⟩, 1) = .ok entry ∧
      Large entry := by
  obtain ⟨entry, hentry, hgarbage, hstaged⟩ : ∃ entry,
      prepareEntry letterJson shortLengths 0 (⟨"key", count, none⟩, 1) = .ok entry ∧
        entry.garbageAt = garbageTime 0 ∧ entry.stagedPublicationByteEstimate = 754 :=
    ⟨_, rfl, rfl, rfl⟩
  have hlength : transactionByteBudget < (letterText count).length := by
    rw [length_letterText]
    omega
  have hprepares := prepares_of_prepareEntry hentry
  obtain ⟨text, htext, hchunks⟩ := hprepares.chunks
  obtain rfl : letterText count = text := Option.some.inj htext
  refine ⟨entry, hentry, hprepares.identity, hgarbage, ⟨_, hchunks, hlength⟩, ?_, hstaged⟩
  exact hlength.trans_le (le_directByteEstimate hentry rfl)

def OnlyChunks (identity : Nat) (batch : List (StagingMutation Nat)) : Prop :=
  ∀ mutation ∈ batch, ∃ index chunk, mutation = .chunk identity index chunk

theorem onlyChunks_chunkMutations (entry : PreparedEntry String Nat) :
    OnlyChunks entry.identity (chunkMutations entry) := by
  intro mutation hmem
  obtain ⟨⟨chunk, index⟩, -, rfl⟩ := List.mem_map.mp hmem
  exact ⟨index, chunk, rfl⟩

section

variable {entry : PreparedEntry String Nat}

theorem Large.fits (h : Large entry) : ∀ mutation ∈ stagingMutations entry,
    shortLengths.readBytes .epoch + mutation.bytes shortLengths ≤ transactionByteBudget := by
  intro mutation hmem
  cases mutation with
  | marker time identity =>
      simp [StagingMutation.bytes, Lengths.readBytes, Lengths.mutationBytes, shortLengths,
        operationByteOverhead, transactionByteBudget]
  | chunk identity index chunk =>
      obtain ⟨text, hchunks, -⟩ := h.chunks
      obtain ⟨-, hchunk⟩ := chunk_mem_stagingMutations.mp hmem
      rw [hchunks] at hchunk
      have hlength := length_le_of_mem_splitChunkedValue (List.mem_of_getElem? hchunk)
      simp only [StagingMutation.bytes, Lengths.readBytes, Lengths.mutationBytes, shortLengths,
        operationByteOverhead, transactionByteBudget]
      unfold chunkSize at hlength
      omega

theorem Large.writePlan_eq (h : Large entry) : writePlan shortLengths [entry] =
    .staged (stageBatches shortLengths (stagingMutations entry) []
      (batchEstimate shortLengths [])).1 true := by
  have hdirect : ¬ shortLengths.readBytes .epoch +
      ([entry].map PreparedEntry.directByteEstimate).sum ≤ transactionByteBudget := by
    have hlarge := h.direct
    rw [List.map_singleton, List.sum_singleton]
    omega
  have hstaged : ¬ transactionByteBudget < shortLengths.readBytes .epoch +
      ([entry].map PreparedEntry.stagedPublicationByteEstimate).sum := by
    simp [Lengths.readBytes, shortLengths, operationByteOverhead, transactionByteBudget, h.staged]
  have hcomplete := complete_stageBatches shortLengths (stagingMutations entry) [] _
    (fun _ => rfl) h.fits
  rw [writePlan]
  dsimp only
  rw [if_neg hdirect, if_neg hstaged, List.flatMap_singleton, batchEstimate_nil, ← hcomplete]

theorem Large.batches (h : Large entry) : ∃ first second rest,
    writePlan shortLengths [entry] =
      .staged ((.marker (garbageTime 0) 1 :: first) :: second :: rest) true ∧
    OnlyChunks 1 first ∧ OnlyChunks 1 second ∧ second ≠ [] := by
  have hbatches := batches_stageBatches shortLengths (stagingMutations entry) []
    (fun hnil => absurd rfl hnil)
  obtain ⟨tail, hflatten, htail⟩ := flatten_stageBatches shortLengths (stagingMutations entry) []
    (batchEstimate shortLengths [])
  have hcomplete := complete_stageBatches shortLengths (stagingMutations entry) [] _
    (fun _ => rfl) h.fits
  rw [htail hcomplete, List.append_nil, List.nil_append] at hflatten
  rw [h.writePlan_eq]
  generalize (stageBatches shortLengths (stagingMutations entry) []
    (batchEstimate shortLengths [])).1 = batches at hflatten hbatches
  rcases batches with - | ⟨first, - | ⟨second, rest⟩⟩
  · cases hflatten
  · -- One batch with all mutations would be over the budget.
    obtain ⟨text, hchunks, hlarge⟩ := h.chunks
    obtain ⟨-, hwithin⟩ := hbatches first List.mem_cons_self
    rw [List.flatten_singleton] at hflatten
    rw [hflatten] at hwithin
    have hle := le_batchEstimate_stagingMutations shortLengths entry hchunks
    omega
  · obtain ⟨hfirst, -⟩ := hbatches first List.mem_cons_self
    obtain ⟨hsecond, -⟩ := hbatches second (by simp)
    obtain ⟨marker, first, rfl⟩ := List.exists_cons_of_ne_nil hfirst
    rw [stagingMutations, h.identity, h.garbageAt, List.flatten_cons, List.flatten_cons,
      List.cons_append, List.cons.injEq] at hflatten
    obtain ⟨rfl, hrest⟩ := hflatten
    have hchunks := onlyChunks_chunkMutations entry
    rw [h.identity, ← hrest] at hchunks
    refine ⟨first, second, rest, rfl, ?_, ?_, hsecond⟩
    · exact fun mutation hmem => hchunks mutation (List.mem_append_left _ hmem)
    · exact fun mutation hmem =>
        hchunks mutation (List.mem_append_right _ (List.mem_append_left _ hmem))

end

theorem apply_onlyChunks {identity : Nat} {batch : List (StagingMutation Nat)}
    (h : OnlyChunks identity batch) (store : PersistenceState String Nat Nat) :
    ∃ values, batch.foldl StagingMutation.apply store = { store with values } := by
  induction batch generalizing store with
  | nil => exact ⟨_, rfl⟩
  | cons mutation batch ih =>
      obtain ⟨⟨index, chunk, rfl⟩, hrest⟩ := List.forall_mem_cons.mp h
      exact ih hrest (setChunk store identity index chunk)

def started (count : Nat) : List (Event String Nat Nat Nat Nat) :=
  [.call 0 [⟨"key", count, none⟩], .prepare 0 [1], .stage 0 false]

theorem run_started {count : Nat} (hcount : transactionByteBudget < count) :
    ∃ (world : LetterWorld) (writer : Writer String Nat Nat Nat)
      (second : List (StagingMutation Nat)) (rest : List (List (StagingMutation Nat)))
      (values : ChunkRows Nat),
      Run (fun world event next => MarkersKept world event ∧
        World.step letterJson shortLengths world event = some next) {} (started count) world ∧
      world.store = { setGarbage {} (garbageTime 0) 1 with values } ∧ world.now = 0 ∧
      world.writers 0 = some writer ∧ writer.phase = .staging (second :: rest) true (some none) ∧
      OnlyChunks 1 second ∧ second ≠ [] := by
  obtain ⟨entry, hentry, hlarge⟩ := prepareEntry_large hcount
  obtain ⟨first, second, rest, hplan, hfirst, hsecond, hne⟩ := hlarge.batches
  obtain ⟨values, hvalues⟩ := apply_onlyChunks hfirst (setGarbage {} (garbageTime 0) 1)
  have hprepared : prepareEntries letterJson shortLengths 0 [⟨"key", count, none⟩] [1] =
      .ok [entry] := by
    change ((prepareEntry letterJson shortLengths 0 (⟨"key", count, none⟩, 1)) >>= fun first =>
      Except.ok [first]) = _
    rw [hentry]
    rfl
  obtain ⟨called, hcalled⟩ : ∃ world : LetterWorld,
      world = ⟨{}, 0, Function.update (fun _ => none) 0
        (some { entries := [⟨"key", count, none⟩] }), []⟩ := ⟨_, rfl⟩
  obtain ⟨writer, hwriter⟩ : ∃ writer : Writer String Nat Nat Nat, writer =
      ⟨[⟨"key", count, none⟩], 0, [entry],
        .staging ((.marker (garbageTime 0) 1 :: first) :: second :: rest) true none⟩ := ⟨_, rfl⟩
  obtain ⟨staging, hstaging⟩ : ∃ world : LetterWorld,
      world = ⟨{}, 0, Function.update called.writers 0 (some writer),
        [(1, ⟨"key", count, none⟩)]⟩ := ⟨_, rfl⟩
  have hcall : World.step letterJson shortLengths {} (.call 0 [⟨"key", count, none⟩]) =
      some called := by rw [hcalled]; rfl
  have hprepare : World.step letterJson shortLengths called (.prepare 0 [1]) = some staging := by
    rw [hstaging, hwriter]
    subst hcalled
    change some (World.prepare letterJson shortLengths _ 0 { entries := _ } [1]) = _
    unfold World.prepare
    dsimp only
    rw [hprepared]
    dsimp only
    rw [hplan]
    rfl
  have hname : staging.writers 0 = some writer := by simp [hstaging]
  have hphase : writer.phase =
      .staging ((.marker (garbageTime 0) 1 :: first) :: second :: rest) true none := by rw [hwriter]
  have hkept : MarkersKept staging (.stage 0 false) := by
    intro other batch rest' complete epoch hother hphase' _ identity index chunk hchunk
    rw [hname] at hother
    cases hother
    rw [hphase] at hphase'
    cases hphase'
    rcases List.mem_cons.mp hchunk with heq | hchunk
    · cases heq
    · obtain ⟨_, _, heq⟩ := hfirst _ hchunk
      cases heq
      exact ⟨garbageTime 0, .inr List.mem_cons_self⟩
  refine ⟨_, { writer with phase := .staging (second :: rest) true (some none) }, second, rest,
    values, .snoc (.snoc (.single ⟨trivial, hcall⟩) ⟨trivial, hprepare⟩)
      ⟨hkept, step_stage hname hphase false⟩, ?_, ?_, ?_, rfl, hsecond, hne⟩
  · rw [← hvalues, hstaging]
    rfl
  · rw [hstaging]
    rfl
  · rw [hstaging]
    rfl

def paused (count : Nat) : List (Event String Nat Nat Nat Nat) :=
  started count ++ [.tick 90000000] ++ [.cleanup] ++ [.stage 0 false]

theorem cleanupBatch_paused (values : ChunkRows Nat) :
    (cleanupBatch 90000000 ({ setGarbage {} (garbageTime 0) 1 with values } :
      PersistenceState String Nat Nat)).1 =
      { values := (clearChunkedValue 1).foldl ChunkMutation.apply values } := by
  have hgarbage : garbageTime 0 = 86400000 := by decide +kernel
  have hnow : timestamp 90000000 = 90000000 := by decide +kernel
  rw [hgarbage, cleanupBatch, hnow]
  rfl

theorem not_covered_of_pause {count : Nat} (hcount : transactionByteBudget < count) :
    ∃ world : LetterWorld, Run (fun world event next =>
        World.step letterJson shortLengths world event = some next) {} (paused count) world ∧
      ¬ Covered world.store := by
  obtain ⟨world, writer, second, rest, values, hrun, hstore, hnow, hwriter, hphase, hsecond, hne⟩ :=
    run_started hcount
  obtain ⟨mutation, hmutation⟩ := List.exists_mem_of_ne_nil _ hne
  obtain ⟨index, chunk, rfl⟩ := hsecond mutation hmutation
  obtain ⟨cleaned, hcleaned⟩ : ∃ cleaned : LetterWorld, cleaned =
      ⟨(cleanupBatch 90000000 world.store).1, 90000000, world.writers, world.issued⟩ := ⟨_, rfl⟩
  have htick : World.step letterJson shortLengths world (.tick 90000000) =
      some { world with now := 90000000 } := by
    rw [World.step, hnow, if_pos (by norm_num)]
  have hcleanup : World.step letterJson shortLengths { world with now := 90000000 } .cleanup =
      some cleaned := by
    rw [hcleaned]
    rfl
  have hname : cleaned.writers 0 = some writer := by rw [hcleaned, hwriter]
  have hempty : cleaned.store =
      { values := (clearChunkedValue 1).foldl ChunkMutation.apply values } := by
    rw [hcleaned, hstore]
    exact cleanupBatch_paused values
  have hstage : World.step letterJson shortLengths cleaned (.stage 0 false) = _ :=
    step_stage hname hphase false
  have hbefore : Run (fun world event next =>
      World.step letterJson shortLengths world event = some next) ({} : LetterWorld)
      (started count) world := hrun.mono fun _ _ _ hstep => hstep.2
  refine ⟨_, ((hbefore.snoc htick).snoc hcleanup).snoc hstage, ?_⟩
  refine not_covered_of_stage hname hphase ?_ hmutation ?_ ?_ false hstage
  · rw [hempty]
    simp
  · intro key manifest hkey
    rw [hempty] at hkey
    cases hkey
  · rintro ⟨time, hrow | hmarker⟩
    · rw [hempty] at hrow
      cases hrow
    · obtain ⟨_, _, heq⟩ := hsecond _ hmarker
      cases heq

theorem not_covered_paused : ∃ world : LetterWorld, Run (fun world event next =>
      World.step letterJson shortLengths world event = some next) {} (paused 8000001) world ∧
    ¬ Covered world.store :=
  not_covered_of_pause (by decide)

theorem covered_started : ∃ world : LetterWorld, Run (fun world event next =>
      MarkersKept world event ∧ World.step letterJson shortLengths world event = some next) {}
      (started 8000001) world ∧
    Covered world.store := by
  obtain ⟨world, _, _, _, _, hrun, -⟩ := run_started (by decide : transactionByteBudget < 8000001)
  exact ⟨world, hrun, covered_of_run hrun⟩

end

end FoundationDbEffect.Persistence.Backing
