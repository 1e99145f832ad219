import FoundationDbEffect.Persistence.BackingInvariant

/-!
# Staging and publication of the backing persistence

A staged entry has its marker before it has chunks, so as long as the marker stands no chunk
that has been written is gone. A publication names the identities of its entries, whose chunks
are all there, and makes garbage of the identities that it replaces.
-/

namespace FoundationDbEffect.Persistence.Backing

open FoundationDbEffect.Foundation

section

variable {κ ι ν ε : Type} [LinearOrder κ] [LinearOrder ι]

theorem mark_eq_of_iff {mark mark' : Option Unit} (h : mark.isSome ↔ mark'.isSome) :
    mark = mark' := by
  cases mark <;> cases mark' <;> simp_all

/-! ## Batches of mutations -/

theorem apply_entries (mutations : List (StagingMutation ι)) (store : PersistenceState κ ι ε) :
    (mutations.foldl StagingMutation.apply store).entries = store.entries := by
  induction mutations generalizing store with
  | nil => rfl
  | cons mutation mutations ih =>
      rw [List.foldl_cons, ih]
      cases mutation <;> rfl

theorem isSome_garbage_apply (mutations : List (StagingMutation ι))
    (store : PersistenceState κ ι ε) (time : Nat) (identity : ι) :
    ((mutations.foldl StagingMutation.apply store).garbage.get? (toLex (time, identity))).isSome ↔
      (store.garbage.get? (toLex (time, identity))).isSome ∨
        .marker time identity ∈ mutations := by
  induction mutations generalizing store with
  | nil => simp
  | cons mutation mutations ih =>
      rw [List.foldl_cons, ih, List.mem_cons]
      cases mutation with
      | chunk identity' index chunk =>
          simp [StagingMutation.apply, setChunk]
      | marker time' identity' =>
          rw [StagingMutation.apply, setGarbage, OrderedMap.get?_set]
          by_cases heq : toLex (time, identity) = toLex (time', identity')
          · obtain ⟨rfl, rfl⟩ : time = time' ∧ identity = identity' := by simpa using heq
            simp
          · rw [if_neg heq]
            have hne : StagingMutation.marker time identity ≠ .marker time' identity' := by
              intro hmarker
              injection hmarker with htime hidentity
              exact heq (by rw [htime, hidentity])
            simp [hne]

theorem values_apply_cases {mutations : List (StagingMutation ι)}
    {store : PersistenceState κ ι ε} {identity : ι} {index : Nat} {chunk : Bytes}
    (h : (mutations.foldl StagingMutation.apply store).values.get? (toLex (identity, index)) =
      some chunk) :
    store.values.get? (toLex (identity, index)) = some chunk ∨
      .chunk identity index chunk ∈ mutations := by
  induction mutations generalizing store with
  | nil => exact .inl h
  | cons mutation mutations ih =>
      rcases ih h with hvalue | hmem
      · cases mutation with
        | marker time' identity' => exact .inl hvalue
        | chunk identity' index' chunk' =>
            rw [StagingMutation.apply, setChunk, OrderedMap.get?_set] at hvalue
            split at hvalue
            · next heq =>
                obtain ⟨rfl, rfl⟩ : identity = identity' ∧ index = index' := by simpa using heq
                cases hvalue
                exact .inr List.mem_cons_self
            · exact .inl hvalue
      · exact .inr (List.mem_cons_of_mem _ hmem)

theorem values_apply_of_not_mem {mutations : List (StagingMutation ι)}
    (store : PersistenceState κ ι ε) {identity : ι} {index : Nat}
    (h : ∀ chunk, .chunk identity index chunk ∉ mutations) :
    (mutations.foldl StagingMutation.apply store).values.get? (toLex (identity, index)) =
      store.values.get? (toLex (identity, index)) := by
  induction mutations generalizing store with
  | nil => rfl
  | cons mutation mutations ih =>
      rw [List.foldl_cons, ih _ fun chunk hmem => h chunk (List.mem_cons_of_mem _ hmem)]
      cases mutation with
      | marker time' identity' => rfl
      | chunk identity' index' chunk' =>
          rw [StagingMutation.apply, setChunk, OrderedMap.get?_set_of_ne]
          intro heq
          obtain ⟨rfl, rfl⟩ : identity = identity' ∧ index = index' := by simpa using heq
          exact h chunk' List.mem_cons_self

theorem values_apply_of_unique {mutations : List (StagingMutation ι)}
    {store : PersistenceState κ ι ε} {identity : ι} {index : Nat} {chunk : Bytes}
    (hunique : ∀ other, .chunk identity index other ∈ mutations → other = chunk)
    (h : store.values.get? (toLex (identity, index)) = some chunk ∨
      .chunk identity index chunk ∈ mutations) :
    (mutations.foldl StagingMutation.apply store).values.get? (toLex (identity, index)) =
      some chunk := by
  induction mutations generalizing store with
  | nil => exact h.resolve_right (by simp)
  | cons mutation mutations ih =>
      refine ih (fun other hmem => hunique other (List.mem_cons_of_mem _ hmem)) ?_
      cases mutation with
      | marker time' identity' =>
          rcases h with hvalue | hmem
          · exact .inl hvalue
          · rcases List.mem_cons.mp hmem with heq | hmem
            · cases heq
            · exact .inr hmem
      | chunk identity' index' chunk' =>
          rw [StagingMutation.apply, setChunk, OrderedMap.get?_set]
          split
          · next heq =>
              obtain ⟨rfl, rfl⟩ : identity = identity' ∧ index = index' := by simpa using heq
              exact .inl (congrArg some (hunique chunk' List.mem_cons_self))
          · next hne =>
              refine h.imp_right fun hmem => (List.mem_cons.mp hmem).resolve_left ?_
              intro heq
              injection heq with hidentity hindex
              exact hne (by rw [hidentity, hindex])

omit [LinearOrder κ] [LinearOrder ι] in
theorem mem_chunkMutations {entry : PreparedEntry κ ι} {identity : ι} {index : Nat}
    {chunk : Bytes} : .chunk identity index chunk ∈ chunkMutations entry ↔
      identity = entry.identity ∧ entry.chunks[index]? = some chunk := by
  unfold chunkMutations
  rw [List.mem_map]
  constructor
  · rintro ⟨⟨chunk', index'⟩, hmem, heq⟩
    injection heq with hidentity hindex hchunk
    subst hidentity hindex hchunk
    exact ⟨rfl, List.mem_zipIdx_iff_getElem?.mp hmem⟩
  · rintro ⟨rfl, hchunk⟩
    exact ⟨(chunk, index), List.mem_zipIdx_iff_getElem?.mpr hchunk, rfl⟩

omit [LinearOrder κ] [LinearOrder ι] in
theorem marker_not_mem_chunkMutations {entry : PreparedEntry κ ι} {time : Nat} {identity : ι} :
    .marker time identity ∉ chunkMutations entry := by
  simp [chunkMutations]

omit [LinearOrder κ] [LinearOrder ι] in
theorem chunk_mem_stagingMutations {entry : PreparedEntry κ ι} {identity : ι} {index : Nat}
    {chunk : Bytes} : .chunk identity index chunk ∈ stagingMutations entry ↔
      identity = entry.identity ∧ entry.chunks[index]? = some chunk := by
  rw [stagingMutations, List.mem_cons, mem_chunkMutations]
  simp

omit [LinearOrder κ] [LinearOrder ι] in
theorem marker_mem_stagingMutations {entry : PreparedEntry κ ι} {time : Nat} {identity : ι} :
    .marker time identity ∈ stagingMutations entry ↔
      time = entry.garbageAt ∧ identity = entry.identity := by
  rw [stagingMutations, List.mem_cons]
  simp [marker_not_mem_chunkMutations]

/-! ## Prepared entries -/

structure Prepared (json : Json ν) (issued : List (ι × WriteEntry κ ν))
    (prepared : List (PreparedEntry κ ι)) : Prop where
  issued : ∀ entry ∈ prepared, Issued json issued entry.identity entry.key entry.chunks
  keys : (prepared.map PreparedEntry.key).Nodup

omit [LinearOrder κ] [LinearOrder ι] in
theorem Prepared.eq_of_identity {json : Json ν} {issued : List (ι × WriteEntry κ ν)}
    {prepared : List (PreparedEntry κ ι)} (h : Prepared json issued prepared)
    (hnodup : (issued.map Prod.fst).Nodup) {entry entry' : PreparedEntry κ ι}
    (hentry : entry ∈ prepared) (hentry' : entry' ∈ prepared)
    (hidentity : entry.identity = entry'.identity) : entry = entry' := by
  have hissued := h.issued entry' hentry'
  rw [← hidentity] at hissued
  exact List.inj_on_of_nodup_map h.keys hentry hentry'
    ((h.issued entry hentry).unique hnodup hissued).1

def Of (prepared : List (PreparedEntry κ ι)) (mutations : List (StagingMutation ι)) : Prop :=
  ∀ mutation ∈ mutations, ∃ entry ∈ prepared, mutation ∈ stagingMutations entry

omit [LinearOrder κ] [LinearOrder ι] in
theorem Prepared.chunk_unique {json : Json ν} {issued : List (ι × WriteEntry κ ν)}
    {prepared : List (PreparedEntry κ ι)} (h : Prepared json issued prepared)
    (hnodup : (issued.map Prod.fst).Nodup) {mutations : List (StagingMutation ι)}
    (hof : Of prepared mutations) {entry : PreparedEntry κ ι} (hentry : entry ∈ prepared)
    {index : Nat} {chunk : Bytes} (hchunk : entry.chunks[index]? = some chunk) :
    ∀ other, .chunk entry.identity index other ∈ mutations → other = chunk := by
  intro other hother
  obtain ⟨entry', hentry', hmem⟩ := hof _ hother
  obtain ⟨hidentity, hget⟩ := chunk_mem_stagingMutations.mp hmem
  obtain rfl := h.eq_of_identity hnodup hentry hentry' hidentity
  rw [hchunk] at hget
  cases hget
  rfl

/-! ## Staged entries -/

def HasMarker (store : PersistenceState κ ι ε) (entry : PreparedEntry κ ι) : Prop :=
  (store.garbage.get? (toLex (entry.garbageAt, entry.identity))).isSome

/-- No manifest names the entry, it has no garbage row other than its marker, and as long as it
has that one, it has its chunks, apart from those that are still to be written. -/
structure Guarded (store : PersistenceState κ ι ε) (pending : List (StagingMutation ι))
    (entry : PreparedEntry κ ι) : Prop where
  unnamed : Unnamed store entry.identity
  onlyAt : OnlyAt store entry.identity entry.garbageAt
  chunks : HasMarker store entry → ∀ index chunk, entry.chunks[index]? = some chunk →
    .chunk entry.identity index chunk ∉ pending →
    store.values.get? (toLex (entry.identity, index)) = some chunk

structure Untouched (store next : PersistenceState κ ι ε) (identity : ι) : Prop where
  unnamed : Unnamed store identity → Unnamed next identity
  garbage : ∀ time, next.garbage.get? (toLex (time, identity)) =
    store.garbage.get? (toLex (time, identity))
  values : ∀ index, next.values.get? (toLex (identity, index)) =
    store.values.get? (toLex (identity, index))

theorem Guarded.shrinks {store next : PersistenceState κ ι ε}
    {pending : List (StagingMutation ι)} {entry : PreparedEntry κ ι}
    (h : Guarded store pending entry) (hshrinks : Shrinks store next) :
    Guarded next pending entry where
  unnamed := hshrinks.unnamed h.unnamed
  onlyAt := hshrinks.onlyAt h.onlyAt
  chunks hmarker index chunk hchunk hpending := by
    rw [hshrinks.marked _ _ h.unnamed h.onlyAt hmarker]
    exact h.chunks (hshrinks.garbage _ hmarker) index chunk hchunk hpending

theorem Guarded.untouched {store next : PersistenceState κ ι ε}
    {pending : List (StagingMutation ι)} {entry : PreparedEntry κ ι}
    (h : Guarded store pending entry) (hsame : Untouched store next entry.identity) :
    Guarded next pending entry where
  unnamed := hsame.unnamed h.unnamed
  onlyAt other hother := h.onlyAt other (by rwa [hsame.garbage] at hother)
  chunks hmarker index chunk hchunk hpending := by
    rw [hsame.values]
    rw [HasMarker, hsame.garbage] at hmarker
    exact h.chunks hmarker index chunk hchunk hpending

theorem Guarded.mono {store : PersistenceState κ ι ε} {pending more : List (StagingMutation ι)}
    {entry : PreparedEntry κ ι} (h : Guarded store pending entry) (hmore : pending ⊆ more) :
    Guarded store more entry :=
  ⟨h.unnamed, h.onlyAt, fun hmarker index chunk hchunk hpending =>
    h.chunks hmarker index chunk hchunk fun hmem => hpending (hmore hmem)⟩

/-- An entry whose marker is to be written has all of its chunks to be written. -/
def MarkersFirst (prepared : List (PreparedEntry κ ι)) (pending : List (StagingMutation ι)) :
    Prop :=
  ∀ entry ∈ prepared, .marker entry.garbageAt entry.identity ∈ pending →
    ∀ index chunk, entry.chunks[index]? = some chunk →
      .chunk entry.identity index chunk ∈ pending

section

variable {json : Json ν} {issued : List (ι × WriteEntry κ ν)} {store : PersistenceState κ ι ε}
  {prepared : List (PreparedEntry κ ι)} {batch : List (StagingMutation ι)}

/-- A batch of its own batches writes what is to be written of an entry. -/
theorem Guarded.stage {rest : List (StagingMutation ι)} {entry : PreparedEntry κ ι}
    (h : Guarded store (batch ++ rest) entry) (hprepared : Prepared json issued prepared)
    (hnodup : (issued.map Prod.fst).Nodup) (hof : Of prepared batch)
    (hfirst : MarkersFirst prepared (batch ++ rest)) (hentry : entry ∈ prepared) :
    Guarded (batch.foldl StagingMutation.apply store) rest entry where
  unnamed key manifest hkey := by
    rw [apply_entries] at hkey
    exact h.unnamed key manifest hkey
  onlyAt other hother := by
    rcases (isSome_garbage_apply _ _ _ _).mp hother with hrow | hmem
    · exact h.onlyAt other hrow
    · obtain ⟨entry', hentry', hmarker⟩ := hof _ hmem
      obtain ⟨htime, hidentity⟩ := marker_mem_stagingMutations.mp hmarker
      rw [htime, hprepared.eq_of_identity hnodup hentry hentry' hidentity]
  chunks hmarker index chunk hchunk hrest := by
    refine values_apply_of_unique (hprepared.chunk_unique hnodup hof hentry hchunk) ?_
    by_cases hbatch : .chunk entry.identity index chunk ∈ batch
    · exact .inr hbatch
    · left
      have hpending : .chunk entry.identity index chunk ∉ batch ++ rest := by
        rw [List.mem_append]
        exact fun hmem => hmem.elim hbatch hrest
      refine h.chunks ?_ index chunk hchunk hpending
      -- A marker of this batch would have the chunk after it.
      refine ((isSome_garbage_apply _ _ _ _).mp hmarker).resolve_right ?_
      intro hmem
      exact hpending (hfirst entry hentry (List.mem_append_left _ hmem) index chunk hchunk)

theorem untouched_apply (store : PersistenceState κ ι ε) (hof : Of prepared batch)
    {identity : ι} (hother : ∀ entry ∈ prepared, entry.identity ≠ identity) :
    Untouched store (batch.foldl StagingMutation.apply store) identity where
  unnamed hunnamed key manifest hkey := by
    rw [apply_entries] at hkey
    exact hunnamed key manifest hkey
  garbage time := by
    have hnot : .marker time identity ∉ batch := by
      intro hmem
      obtain ⟨entry, hentry, hmarker⟩ := hof _ hmem
      exact hother entry hentry (marker_mem_stagingMutations.mp hmarker).2.symm
    have hsome := isSome_garbage_apply batch store time identity
    rw [or_iff_left hnot] at hsome
    exact mark_eq_of_iff hsome
  values index := by
    refine values_apply_of_not_mem store ?_
    intro chunk hmem
    obtain ⟨entry, hentry, hchunk⟩ := hof _ hmem
    exact hother entry hentry (chunk_mem_stagingMutations.mp hchunk).1.symm

theorem Sound.apply (h : Sound json issued store) (hprepared : Prepared json issued prepared)
    (hnodup : (issued.map Prod.fst).Nodup) (hof : Of prepared batch)
    (hmarkers : ∀ time identity, .marker time identity ∈ batch → Unnamed store identity) :
    Sound json issued (batch.foldl StagingMutation.apply store) := by
  have hchunks : ChunksIssued json issued (batch.foldl StagingMutation.apply store).values := by
    intro identity index chunk hvalue
    rcases values_apply_cases hvalue with hstore | hmem
    · exact h.chunks identity index chunk hstore
    · obtain ⟨entry, hentry, hchunk⟩ := hof _ hmem
      obtain ⟨rfl, hget⟩ := chunk_mem_stagingMutations.mp hchunk
      exact ⟨entry.key, entry.chunks, hprepared.issued entry hentry, hget⟩
  refine ⟨hchunks, ?_, ?_, ?_⟩
  · intro key manifest hkey
    rw [apply_entries] at hkey
    obtain ⟨chunks, hissued, hvalues⟩ := h.named key manifest hkey
    refine ⟨chunks, hissued, hchunks.values_eq hnodup hissued ?_⟩
    intro index chunk hchunk
    refine values_apply_of_unique ?_ (.inl (by rw [hvalues, hchunk]))
    intro other hother
    obtain ⟨entry, hentry, hmem⟩ := hof _ hother
    obtain ⟨hidentity, hget⟩ := chunk_mem_stagingMutations.mp hmem
    have hentryIssued := hprepared.issued entry hentry
    rw [← hidentity] at hentryIssued
    rw [← (hissued.unique hnodup hentryIssued).2, hchunk] at hget
    cases hget
    rfl
  · intro key manifest hkey time
    rw [apply_entries] at hkey
    rw [← h.live key manifest hkey time]
    refine mark_eq_of_iff ((isSome_garbage_apply _ _ _ _).trans (or_iff_left ?_))
    exact fun hmem => hmarkers time manifest.identity hmem key manifest hkey rfl
  · intro time identity hrow
    rcases (isSome_garbage_apply _ _ _ _).mp hrow with hstore | hmem
    · exact h.garbage time identity hstore
    · obtain ⟨entry, hentry, hmarker⟩ := hof _ hmem
      rw [(marker_mem_stagingMutations.mp hmarker).2]
      exact (hprepared.issued entry hentry).mem

end

/-! ## Publication -/

theorem replaceManifest_entries (replacedAt : ℚ) (state : PersistenceState κ ι ε)
    (entry : PreparedEntry κ ι) (old : Option (EntryManifest ι)) :
    (replaceManifest replacedAt state entry old).entries = state.entries := by
  cases old with
  | none => rfl
  | some old =>
      unfold replaceManifest
      dsimp only
      split
      · exact clearExpiration_entries _ _ _
      · exact clearExpiration_entries _ _ _

theorem replaceManifest_values (replacedAt : ℚ) (state : PersistenceState κ ι ε)
    (entry : PreparedEntry κ ι) (old : Option (EntryManifest ι)) :
    (replaceManifest replacedAt state entry old).values = state.values := by
  cases old with
  | none => rfl
  | some old =>
      unfold replaceManifest
      dsimp only
      split
      · exact clearExpiration_values _ _ _
      · exact clearExpiration_values _ _ _

def Replaces (replacedAt : ℚ) (entry : PreparedEntry κ ι) (old : Option (EntryManifest ι))
    (time : Nat) (identity : ι) : Prop :=
  time = timestamp replacedAt ∧ identity ≠ entry.identity ∧
    ∃ manifest, old = some manifest ∧ manifest.identity = identity

theorem replaceManifest_garbage (replacedAt : ℚ) (state : PersistenceState κ ι ε)
    (entry : PreparedEntry κ ι) (old : Option (EntryManifest ι)) (time : Nat) (identity : ι) :
    ((replaceManifest replacedAt state entry old).garbage.get? (toLex (time, identity))).isSome ↔
      (state.garbage.get? (toLex (time, identity))).isSome ∨
        Replaces replacedAt entry old time identity := by
  cases old with
  | none => simp [replaceManifest, Replaces]
  | some old =>
      unfold replaceManifest Replaces
      dsimp only
      split
      · next hne =>
          change ((OrderedMap.set _ _ _).get? _).isSome ↔ _
          rw [OrderedMap.get?_set, clearExpiration_garbage]
          by_cases heq : toLex (time, identity) = toLex (timestamp replacedAt, old.identity)
          · obtain ⟨rfl, rfl⟩ : time = timestamp replacedAt ∧ identity = old.identity := by
              simpa using heq
            simp [hne]
          · rw [if_neg heq]
            refine (or_iff_left ?_).symm
            rintro ⟨rfl, -, manifest, hold, rfl⟩
            cases hold
            exact heq rfl
      · next heq =>
          rw [clearExpiration_garbage]
          refine (or_iff_left ?_).symm
          rintro ⟨-, hne, manifest, hold, rfl⟩
          cases hold
          exact heq hne

theorem publishEntry_entries (staged : Bool) (replacedAt : ℚ) (state : PersistenceState κ ι ε)
    (entry : PreparedEntry κ ι) (old : Option (EntryManifest ι)) :
    (publishEntry staged replacedAt state (entry, old)).entries =
      state.entries.set entry.key ⟨entry.identity, entry.expires⟩ := by
  unfold publishEntry
  dsimp only
  rw [setExpiration_entries]
  have hset : (setManifest (replaceManifest replacedAt state entry old) entry).entries =
      state.entries.set entry.key ⟨entry.identity, entry.expires⟩ := by
    rw [setManifest, replaceManifest_entries]
  cases staged
  · exact hset
  · exact hset

theorem publishEntry_values (staged : Bool) (replacedAt : ℚ) (state : PersistenceState κ ι ε)
    (entry : PreparedEntry κ ι) (old : Option (EntryManifest ι)) :
    (publishEntry staged replacedAt state (entry, old)).values = state.values := by
  unfold publishEntry
  dsimp only
  rw [setExpiration_values]
  cases staged
  · exact replaceManifest_values _ _ _ _
  · exact replaceManifest_values _ _ _ _

theorem publishEntry_garbage (staged : Bool) (replacedAt : ℚ) (state : PersistenceState κ ι ε)
    (entry : PreparedEntry κ ι) (old : Option (EntryManifest ι)) (time : Nat) (identity : ι) :
    ((publishEntry staged replacedAt state (entry, old)).garbage.get?
        (toLex (time, identity))).isSome ↔
      ((state.garbage.get? (toLex (time, identity))).isSome ∨
        Replaces replacedAt entry old time identity) ∧
      ¬ (staged = true ∧ time = entry.garbageAt ∧ identity = entry.identity) := by
  unfold publishEntry
  dsimp only
  rw [setExpiration_garbage, ← replaceManifest_garbage]
  cases staged with
  | false => simp [setManifest]
  | true =>
      change ((OrderedMap.clear _ _).get? _).isSome ↔ _
      rw [OrderedMap.get?_clear]
      by_cases heq : toLex (time, identity) = toLex (entry.garbageAt, entry.identity)
      · obtain ⟨rfl, rfl⟩ : time = entry.garbageAt ∧ identity = entry.identity := by
          simpa using heq
        simp
      · have hne : ¬ (time = entry.garbageAt ∧ identity = entry.identity) := by simpa using heq
        rw [if_neg heq]
        simp [hne, setManifest]

def publishAll (staged : Bool) (replacedAt : ℚ) (previous : κ → Option (EntryManifest ι))
    (entries : List (PreparedEntry κ ι)) (state : PersistenceState κ ι ε) :
    PersistenceState κ ι ε :=
  (entries.map fun entry => (entry, previous entry.key)).foldl (publishEntry staged replacedAt)
    state

section

variable {staged : Bool} {replacedAt : ℚ} {previous : κ → Option (EntryManifest ι)}

theorem publishAll_values (entries : List (PreparedEntry κ ι)) (state : PersistenceState κ ι ε) :
    (publishAll staged replacedAt previous entries state).values = state.values := by
  induction entries generalizing state with
  | nil => rfl
  | cons entry entries ih => exact (ih _).trans (publishEntry_values _ _ _ _ _)

theorem publishAll_entries_of_ne (entries : List (PreparedEntry κ ι))
    (state : PersistenceState κ ι ε) {key : κ} (h : ∀ entry ∈ entries, entry.key ≠ key) :
    (publishAll staged replacedAt previous entries state).entries.get? key =
      state.entries.get? key := by
  induction entries generalizing state with
  | nil => rfl
  | cons entry entries ih =>
      refine (ih _ fun other hother => h other (List.mem_cons_of_mem _ hother)).trans ?_
      rw [publishEntry_entries]
      exact OrderedMap.get?_set_of_ne _ _ (h entry List.mem_cons_self).symm

theorem publishAll_entries_of_mem {entries : List (PreparedEntry κ ι)}
    (hkeys : (entries.map PreparedEntry.key).Nodup) (state : PersistenceState κ ι ε)
    {entry : PreparedEntry κ ι} (hentry : entry ∈ entries) :
    (publishAll staged replacedAt previous entries state).entries.get? entry.key =
      some ⟨entry.identity, entry.expires⟩ := by
  induction entries generalizing state with
  | nil => cases hentry
  | cons first entries ih =>
      rw [List.map_cons, List.nodup_cons] at hkeys
      rcases List.mem_cons.mp hentry with rfl | hrest
      · refine (publishAll_entries_of_ne entries _ ?_).trans ?_
        · intro other hother heq
          exact hkeys.1 (List.mem_map.mpr ⟨other, hother, heq⟩)
        · rw [publishEntry_entries]
          exact OrderedMap.get?_set_self _ _ _
      · exact ih hkeys.2 _ hrest

theorem publishAll_garbage {entries : List (PreparedEntry κ ι)} {state : PersistenceState κ ι ε}
    {time : Nat} {identity : ι}
    (h : ((publishAll staged replacedAt previous entries state).garbage.get?
      (toLex (time, identity))).isSome) :
    (state.garbage.get? (toLex (time, identity))).isSome ∨
      ∃ entry ∈ entries, Replaces replacedAt entry (previous entry.key) time identity := by
  induction entries generalizing state with
  | nil => exact .inl h
  | cons entry entries ih =>
      rcases ih h with hrow | ⟨other, hother, hreplaces⟩
      · rcases ((publishEntry_garbage _ _ _ _ _ _ _).mp hrow).1 with hstate | hreplaces
        · exact .inl hstate
        · exact .inr ⟨entry, List.mem_cons_self, hreplaces⟩
      · exact .inr ⟨other, List.mem_cons_of_mem _ hother, hreplaces⟩

theorem publishAll_marker {entries : List (PreparedEntry κ ι)} {state : PersistenceState κ ι ε}
    {entry : PreparedEntry κ ι} (hentry : entry ∈ entries)
    (hkept : ∀ other ∈ entries, ∀ manifest, previous other.key = some manifest →
      manifest.identity ≠ entry.identity) :
    ¬ HasMarker (publishAll true replacedAt previous entries state) entry := by
  induction entries generalizing state with
  | nil => cases hentry
  | cons first entries ih =>
      have hrest : ∀ other ∈ entries, ∀ manifest, previous other.key = some manifest →
          manifest.identity ≠ entry.identity :=
        fun other hother => hkept other (List.mem_cons_of_mem _ hother)
      by_cases hmem : entry ∈ entries
      · exact ih hmem hrest
      · obtain rfl := (List.mem_cons.mp hentry).resolve_right hmem
        intro hmarker
        change ((publishAll true replacedAt previous entries (publishEntry true replacedAt state
          (entry, previous entry.key))).garbage.get? _).isSome at hmarker
        rcases publishAll_garbage hmarker with hrow | ⟨other, hother, -, -, manifest, hold, heq⟩
        · exact ((publishEntry_garbage _ _ _ _ _ _ _).mp hrow).2 ⟨rfl, rfl, rfl⟩
        · exact hrest other hother manifest hold heq

theorem publishAll_garbage_eq {entries : List (PreparedEntry κ ι)}
    (state : PersistenceState κ ι ε) {identity : ι}
    (hentries : ∀ entry ∈ entries, entry.identity ≠ identity)
    (hprevious : ∀ entry ∈ entries, ∀ manifest, previous entry.key = some manifest →
      manifest.identity ≠ identity) (time : Nat) :
    (publishAll staged replacedAt previous entries state).garbage.get? (toLex (time, identity)) =
      state.garbage.get? (toLex (time, identity)) := by
  induction entries generalizing state with
  | nil => rfl
  | cons entry entries ih =>
      refine (ih _ (fun other hother => hentries other (List.mem_cons_of_mem _ hother))
        fun other hother => hprevious other (List.mem_cons_of_mem _ hother)).trans ?_
      refine mark_eq_of_iff ((publishEntry_garbage _ _ _ _ _ _ _).trans ?_)
      constructor
      · rintro ⟨hrow | ⟨-, -, manifest, hold, heq⟩, -⟩
        · exact hrow
        · exact absurd heq (hprevious entry List.mem_cons_self manifest hold)
      · intro hrow
        refine ⟨.inl hrow, ?_⟩
        rintro ⟨-, -, rfl⟩
        exact hentries entry List.mem_cons_self rfl

end

/-! ## Published entries -/

section

variable {json : Json ν} {issued : List (ι × WriteEntry κ ν)} {store : PersistenceState κ ι ε}
  {prepared : List (PreparedEntry κ ι)} {staged : Bool} {replacedAt : ℚ}

theorem Prepared.publishAll_entries (hprepared : Prepared json issued prepared) {key : κ}
    {manifest : EntryManifest ι}
    (h : (publishAll staged replacedAt store.entries.get? prepared store).entries.get? key =
      some manifest) :
    (∃ entry ∈ prepared, entry.key = key ∧ manifest = ⟨entry.identity, entry.expires⟩) ∨
      (∀ entry ∈ prepared, entry.key ≠ key) ∧ store.entries.get? key = some manifest := by
  by_cases hkey : ∃ entry ∈ prepared, entry.key = key
  · obtain ⟨entry, hentry, rfl⟩ := hkey
    rw [publishAll_entries_of_mem hprepared.keys _ hentry] at h
    cases h
    exact .inl ⟨entry, hentry, rfl, rfl⟩
  · have hne : ∀ entry ∈ prepared, entry.key ≠ key :=
      fun entry hentry heq => hkey ⟨entry, hentry, heq⟩
    rw [publishAll_entries_of_ne prepared _ hne] at h
    exact .inr ⟨hne, h⟩

/-- The identities of a publication have all of their chunks, and no garbage row other than the
markers that it clears. -/
theorem Sound.publishAll (h : Sound json issued store) (hprepared : Prepared json issued prepared)
    (hnodup : (issued.map Prod.fst).Nodup)
    (hchunks : ∀ entry ∈ prepared, ∀ index chunk, entry.chunks[index]? = some chunk →
      store.values.get? (toLex (entry.identity, index)) = some chunk)
    (hgarbage : ∀ entry ∈ prepared, NoGarbage store entry.identity ∨ staged = true ∧
      Unnamed store entry.identity ∧ OnlyAt store entry.identity entry.garbageAt) :
    Sound json issued (publishAll staged replacedAt store.entries.get? prepared store) where
  chunks := by
    rw [publishAll_values]
    exact h.chunks
  named key manifest hkey := by
    rw [publishAll_values]
    rcases hprepared.publishAll_entries hkey with ⟨entry, hentry, rfl, rfl⟩ | ⟨-, hstore⟩
    · have hissued := hprepared.issued entry hentry
      exact ⟨entry.chunks, hissued, h.chunks.values_eq hnodup hissued (hchunks entry hentry)⟩
    · exact h.named key manifest hstore
  live key manifest hkey time := by
    rw [← Option.not_isSome_iff_eq_none]
    intro hrow
    rcases hprepared.publishAll_entries hkey with ⟨entry, hentry, rfl, rfl⟩ | ⟨hne, hstore⟩
    · rcases publishAll_garbage hrow with hrow' | ⟨other, hother, -, hidentity, old, hold, heq⟩
      · rcases hgarbage entry hentry with hnone | ⟨rfl, hunnamed, honly⟩
        · rw [hnone time] at hrow'
          cases hrow'
        · obtain rfl := honly time hrow'
          refine publishAll_marker hentry ?_ hrow
          exact fun other _ old hold => hunnamed other.key old hold
      · -- The replaced manifest names the identity, so it stands under the key of the entry.
        obtain ⟨chunks, hissued, -⟩ := h.named other.key old hold
        rw [heq] at hissued
        have hkeys := (hissued.unique hnodup (hprepared.issued entry hentry)).1
        obtain rfl := List.inj_on_of_nodup_map hprepared.keys hother hentry hkeys
        exact hidentity rfl
    · rcases publishAll_garbage hrow with hrow' | ⟨other, hother, -, -, old, hold, heq⟩
      · rw [h.live key manifest hstore time] at hrow'
        cases hrow'
      · exact hne other hother (h.key_unique hnodup hold hstore heq)
  garbage time identity hrow := by
    rcases publishAll_garbage hrow with hrow' | ⟨other, hother, -, -, old, hold, rfl⟩
    · exact h.garbage time identity hrow'
    · obtain ⟨chunks, hissued, -⟩ := h.named other.key old hold
      exact hissued.mem

theorem Prepared.unnamed_publishAll (hprepared : Prepared json issued prepared) {identity : ι}
    (hother : ∀ entry ∈ prepared, entry.identity ≠ identity)
    (hstore : ∀ key manifest, store.entries.get? key = some manifest →
      manifest.identity = identity → ∃ entry ∈ prepared, entry.key = key) :
    Unnamed (publishAll staged replacedAt store.entries.get? prepared store) identity := by
  intro key manifest hkey
  rcases hprepared.publishAll_entries hkey with ⟨entry, hentry, rfl, rfl⟩ | ⟨hne, hkey⟩
  · exact hother entry hentry
  · intro hidentity
    obtain ⟨entry, hentry, rfl⟩ := hstore key manifest hkey hidentity
    exact hne entry hentry rfl

theorem Prepared.untouched_publishAll (hprepared : Prepared json issued prepared) {identity : ι}
    (hother : ∀ entry ∈ prepared, entry.identity ≠ identity) (hunnamed : Unnamed store identity) :
    Untouched store (publishAll staged replacedAt store.entries.get? prepared store) identity where
  unnamed _ := hprepared.unnamed_publishAll hother fun key manifest hkey hidentity =>
    absurd hidentity (hunnamed key manifest hkey)
  garbage := publishAll_garbage_eq store hother fun entry _ old hold => hunnamed entry.key old hold
  values index := by rw [publishAll_values]

/-- Once an entry is staged, a marker of it means that it is unnamed and has all of its
chunks. -/
def Ready (store : PersistenceState κ ι ε) (entry : PreparedEntry κ ι) : Prop :=
  HasMarker store entry → Guarded store [] entry

theorem Ready.shrinks {store next : PersistenceState κ ι ε} {entry : PreparedEntry κ ι}
    (h : Ready store entry) (hshrinks : Shrinks store next) : Ready next entry :=
  fun hmarker => (h (hshrinks.garbage _ hmarker)).shrinks hshrinks

theorem Ready.untouched {store next : PersistenceState κ ι ε} {entry : PreparedEntry κ ι}
    (h : Ready store entry) (hsame : Untouched store next entry.identity) : Ready next entry := by
  intro hmarker
  rw [HasMarker, hsame.garbage] at hmarker
  exact (h hmarker).untouched hsame

/-- An entry of another call is still ready after a publication. If it was published and is now
replaced, its row among the garbage can stand where its marker stood, and it has its chunks. -/
theorem Ready.publishAll {entry : PreparedEntry κ ι} (hready : Ready store entry)
    (h : Sound json issued store) (hprepared : Prepared json issued prepared)
    (hnodup : (issued.map Prod.fst).Nodup)
    (hissued : Issued json issued entry.identity entry.key entry.chunks)
    (hother : ∀ other ∈ prepared, other.identity ≠ entry.identity) :
    Ready (publishAll staged replacedAt store.entries.get? prepared store) entry := by
  by_cases hunnamed : Unnamed store entry.identity
  · exact hready.untouched (hprepared.untouched_publishAll hother hunnamed)
  · obtain ⟨key, manifest, hkey, hidentity⟩ : ∃ key manifest,
        store.entries.get? key = some manifest ∧ manifest.identity = entry.identity := by
      simpa [Unnamed] using hunnamed
    have hreplaced : ∀ time, ((Backing.publishAll staged replacedAt store.entries.get? prepared
        store).garbage.get? (toLex (time, entry.identity))).isSome →
        time = timestamp replacedAt ∧ ∃ other ∈ prepared, other.key = key := by
      intro time hrow
      rcases publishAll_garbage hrow with hrow' | ⟨other, hmem, htime, -, old, hold, heq⟩
      · rw [← hidentity, h.live key manifest hkey time] at hrow'
        cases hrow'
      · exact ⟨htime, other, hmem, h.key_unique hnodup hold hkey (heq.trans hidentity.symm)⟩
    intro hmarker
    obtain ⟨htime, hpublished⟩ := hreplaced _ hmarker
    refine ⟨hprepared.unnamed_publishAll hother ?_, ?_, ?_⟩
    · intro key' manifest' hkey' hidentity'
      rw [h.key_unique hnodup hkey' hkey (hidentity'.trans hidentity.symm)]
      exact hpublished
    · intro time hrow
      rw [htime]
      exact (hreplaced time hrow).1
    · intro _ index chunk hchunk _
      obtain ⟨chunks, hissued', hvalues⟩ := h.named key manifest hkey
      rw [hidentity] at hissued' hvalues
      rw [publishAll_values, hvalues, ← hchunk, (hissued.unique hnodup hissued').2]

end

end

end FoundationDbEffect.Persistence.Backing
