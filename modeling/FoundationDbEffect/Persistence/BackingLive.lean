import FoundationDbEffect.Foundation.Fallible
import FoundationDbEffect.Persistence.BackingWrites
import Mathlib.Data.String.Basic

/-!
# Live values are never garbage

The invariant of a store with the calls that write to it. A call that is staging has guarded
entries, a call that has staged all of its batches has ready ones, and the identities of a direct
publication that has not run yet are neither named nor garbage.
-/

namespace FoundationDbEffect.Persistence.Backing

open FoundationDbEffect.Foundation

section

variable {κ ι ν ε : Type} [LinearOrder κ] [LinearOrder ι]

/-! ## Prepared batches -/

omit [LinearOrder ι] in
theorem keys_setLatest (entries : List (WriteEntry κ ν)) (entry : WriteEntry κ ν) :
    (setLatest entries entry).map WriteEntry.key =
      if entry.key ∈ entries.map WriteEntry.key then entries.map WriteEntry.key
      else entries.map WriteEntry.key ++ [entry.key] := by
  induction entries with
  | nil => rfl
  | cons first rest ih =>
      rw [setLatest]
      by_cases hkey : first.key = entry.key
      · simp [hkey]
      · rw [if_neg hkey, List.map_cons, List.map_cons, ih]
        by_cases hmem : entry.key ∈ rest.map WriteEntry.key
        · rw [if_pos hmem, if_pos (List.mem_cons_of_mem _ hmem)]
        · have hnot : entry.key ∉ first.key :: rest.map WriteEntry.key := by
            simpa [Ne.symm hkey] using hmem
          rw [if_neg hmem, if_neg hnot, List.cons_append]

omit [LinearOrder ι] in
theorem nodup_setLatest {entries : List (WriteEntry κ ν)}
    (h : (entries.map WriteEntry.key).Nodup) (entry : WriteEntry κ ν) :
    ((setLatest entries entry).map WriteEntry.key).Nodup := by
  rw [keys_setLatest]
  split
  · exact h
  · next hmem => exact List.nodup_append.mpr ⟨h, by simp, by simpa using hmem⟩

omit [LinearOrder ι] in
theorem nodup_latestEntries (entries : List (WriteEntry κ ν)) :
    ((latestEntries entries).map WriteEntry.key).Nodup := by
  have hfold : ∀ start : List (WriteEntry κ ν), (start.map WriteEntry.key).Nodup →
      ((entries.foldl setLatest start).map WriteEntry.key).Nodup := by
    induction entries with
    | nil => exact fun _ h => h
    | cons entry entries ih => exact fun _ hstart => ih _ (nodup_setLatest hstart entry)
  exact hfold [] .nil

structure Prepares (json : Json ν) (now : ℚ) (entry : WriteEntry κ ν × ι)
    (prepared : PreparedEntry κ ι) : Prop where
  key : prepared.key = entry.1.key
  identity : prepared.identity = entry.2
  expires : prepared.expires = expirationFor entry.1.ttl now
  chunks : ∃ encoded, json.stringify entry.1.value = some encoded ∧
    prepared.chunks = splitChunkedValue encoded

omit [LinearOrder κ] [LinearOrder ι] in
theorem prepares_of_prepareEntry {json : Json ν} {lengths : Lengths κ ι} {now : ℚ}
    {entry : WriteEntry κ ν × ι} {prepared : PreparedEntry κ ι}
    (h : prepareEntry json lengths now entry = .ok prepared) : Prepares json now entry prepared := by
  obtain ⟨⟨key, value, ttl⟩, identity⟩ := entry
  unfold prepareEntry at h
  dsimp only at h
  cases hencoded : json.stringify value with
  | none =>
      rw [hencoded] at h
      cases h
  | some encoded =>
      rw [hencoded] at h
      cases h
      exact ⟨rfl, rfl, rfl, encoded, hencoded, rfl⟩

omit [LinearOrder ι] in
theorem forall₂_of_prepareEntries {json : Json ν} {lengths : Lengths κ ι} {now : ℚ}
    {entries : List (WriteEntry κ ν)} {identities : List ι} {prepared : List (PreparedEntry κ ι)}
    (h : prepareEntries json lengths now entries identities = .ok prepared) :
    List.Forall₂ (Prepares json now) ((latestEntries entries).zip identities) prepared :=
  (forall₂_of_mapM h).imp fun _ _ => prepares_of_prepareEntry

theorem forall₂_mem_right {α β : Type} {R : α → β → Prop} {list : List α} {results : List β}
    (h : List.Forall₂ R list results) {b : β} (hb : b ∈ results) : ∃ a ∈ list, R a b := by
  induction h with
  | nil => cases hb
  | cons hfirst _ ih =>
      rcases List.mem_cons.mp hb with rfl | hrest
      · exact ⟨_, List.mem_cons_self, hfirst⟩
      · obtain ⟨a, ha, hab⟩ := ih hrest
        exact ⟨a, List.mem_cons_of_mem _ ha, hab⟩

theorem map_eq_of_forall₂ {α β δ : Type} {R : α → β → Prop} {list : List α} {results : List β}
    {f : α → δ} {g : β → δ} (h : List.Forall₂ R list results)
    (heq : ∀ a b, R a b → g b = f a) : results.map g = list.map f := by
  induction h with
  | nil => rfl
  | cons hfirst _ ih => rw [List.map_cons, List.map_cons, ih, heq _ _ hfirst]

section

variable {json : Json ν} {lengths : Lengths κ ι} {now : ℚ} {entries : List (WriteEntry κ ν)}
  {identities : List ι} {prepared : List (PreparedEntry κ ι)}

omit [LinearOrder ι] in
theorem identities_of_prepareEntries
    (h : prepareEntries json lengths now entries identities = .ok prepared)
    (hlength : identities.length = (latestEntries entries).length) :
    prepared.map PreparedEntry.identity = identities := by
  rw [map_eq_of_forall₂ (forall₂_of_prepareEntries h) fun _ _ hprepares => hprepares.identity]
  exact List.map_snd_zip hlength.le

omit [LinearOrder ι] in
theorem prepared_of_prepareEntries {issued : List (ι × WriteEntry κ ν)}
    (h : prepareEntries json lengths now entries identities = .ok prepared)
    (hlength : identities.length = (latestEntries entries).length)
    (hissued : identities.zip (latestEntries entries) ⊆ issued) :
    Prepared json issued prepared where
  issued entry hentry := by
    obtain ⟨⟨source, identity⟩, hsource, hprepares⟩ :=
      forall₂_mem_right (forall₂_of_prepareEntries h) hentry
    obtain ⟨encoded, hencoded, hchunks⟩ := hprepares.chunks
    have hmem : (identity, source) ∈ identities.zip (latestEntries entries) := by
      rw [← List.zip_swap]
      exact List.mem_map.mpr ⟨_, hsource, rfl⟩
    rw [hprepares.identity, hprepares.key, hchunks]
    exact ⟨source, encoded, hissued hmem, rfl, hencoded, rfl⟩
  keys := by
    have hkeys : prepared.map PreparedEntry.key =
        (((latestEntries entries).zip identities).map Prod.fst).map WriteEntry.key := by
      rw [List.map_map]
      exact map_eq_of_forall₂ (forall₂_of_prepareEntries h) fun _ _ hprepares => hprepares.key
    rw [hkeys, List.map_fst_zip hlength.ge]
    exact nodup_latestEntries entries

end

/-! ## Batches to be staged -/

omit [LinearOrder κ] [LinearOrder ι] in
theorem flatten_stageBatches (lengths : Lengths κ ι) (mutations batch : List (StagingMutation ι))
    (batchBytes : Nat) :
    ∃ tail, (stageBatches lengths mutations batch batchBytes).1.flatten ++ tail =
        batch ++ mutations ∧
      ((stageBatches lengths mutations batch batchBytes).2 = true → tail = []) := by
  induction mutations generalizing batch batchBytes with
  | nil =>
      refine ⟨[], ?_, fun _ => rfl⟩
      cases batch <;> simp [stageBatches]
  | cons mutation rest ih =>
      rw [stageBatches]
      dsimp only
      by_cases hflush : 0 < batch.length ∧
          transactionByteBudget < batchBytes + mutation.bytes lengths
      · simp only [if_pos hflush]
        split
        · exact ⟨mutation :: rest, by simp, by simp⟩
        · obtain ⟨tail, htail, hcomplete⟩ := ih ([] ++ [mutation])
            (lengths.readBytes .epoch + mutation.bytes lengths)
          refine ⟨tail, ?_, hcomplete⟩
          simpa using htail
      · simp only [if_neg hflush]
        split
        · exact ⟨batch ++ mutation :: rest, by simp, by simp⟩
        · obtain ⟨tail, htail, hcomplete⟩ := ih (batch ++ [mutation])
            (batchBytes + mutation.bytes lengths)
          refine ⟨tail, ?_, hcomplete⟩
          simpa using htail

def batchEstimate (lengths : Lengths κ ι) (batch : List (StagingMutation ι)) : Nat :=
  lengths.readBytes .epoch + (batch.map fun mutation => mutation.bytes lengths).sum

omit [LinearOrder κ] [LinearOrder ι] in
theorem batchEstimate_append (lengths : Lengths κ ι) (batch : List (StagingMutation ι))
    (mutation : StagingMutation ι) :
    batchEstimate lengths (batch ++ [mutation]) =
      batchEstimate lengths batch + mutation.bytes lengths := by
  simp [batchEstimate, Nat.add_assoc]

omit [LinearOrder κ] [LinearOrder ι] in
theorem batchEstimate_nil (lengths : Lengths κ ι) :
    batchEstimate lengths [] = lengths.readBytes .epoch := rfl

omit [LinearOrder κ] [LinearOrder ι] in
theorem batches_stageBatches (lengths : Lengths κ ι) (mutations batch : List (StagingMutation ι))
    (hfits : batch ≠ [] → batchEstimate lengths batch ≤ transactionByteBudget) :
    ∀ written ∈ (stageBatches lengths mutations batch (batchEstimate lengths batch)).1,
      written ≠ [] ∧ batchEstimate lengths written ≤ transactionByteBudget := by
  induction mutations generalizing batch with
  | nil =>
      intro written hmem
      rw [stageBatches] at hmem
      split at hmem
      · next hlength =>
          obtain rfl := List.mem_singleton.mp hmem
          have hne := List.ne_nil_of_length_pos hlength
          exact ⟨hne, hfits hne⟩
      · cases hmem
  | cons mutation rest ih =>
      have hnext (start : List (StagingMutation ι))
          (hwithin : batchEstimate lengths start + mutation.bytes lengths ≤
            transactionByteBudget) :
          ∀ written ∈ (stageBatches lengths rest (start ++ [mutation])
            (batchEstimate lengths start + mutation.bytes lengths)).1,
          written ≠ [] ∧ batchEstimate lengths written ≤ transactionByteBudget := by
        rw [← batchEstimate_append] at hwithin ⊢
        exact ih _ fun _ => hwithin
      rw [stageBatches]
      dsimp only
      by_cases hflush : 0 < batch.length ∧
          transactionByteBudget < batchEstimate lengths batch + mutation.bytes lengths
      · have hne := List.ne_nil_of_length_pos hflush.1
        simp only [if_pos hflush]
        split
        · intro written hmem
          obtain rfl := List.mem_singleton.mp hmem
          exact ⟨hne, hfits hne⟩
        · next hwithin =>
            intro written hmem
            rcases List.mem_append.mp hmem with hfirst | hlater
            · obtain rfl := List.mem_singleton.mp hfirst
              exact ⟨hne, hfits hne⟩
            · exact hnext [] (Nat.le_of_not_lt hwithin) written hlater
      · simp only [if_neg hflush]
        split
        · simp
        · next hwithin => exact hnext batch (Nat.le_of_not_lt hwithin)

omit [LinearOrder κ] [LinearOrder ι] in
theorem complete_stageBatches (lengths : Lengths κ ι) (mutations batch : List (StagingMutation ι))
    (batchBytes : Nat) (hbatch : batch = [] → batchBytes = lengths.readBytes .epoch)
    (hfits : ∀ mutation ∈ mutations,
      lengths.readBytes .epoch + mutation.bytes lengths ≤ transactionByteBudget) :
    (stageBatches lengths mutations batch batchBytes).2 = true := by
  induction mutations generalizing batch batchBytes with
  | nil => rfl
  | cons mutation rest ih =>
      obtain ⟨hfirst, hrest⟩ := List.forall_mem_cons.mp hfits
      rw [stageBatches]
      dsimp only
      by_cases hflush : 0 < batch.length ∧
          transactionByteBudget < batchBytes + mutation.bytes lengths
      · simp only [if_pos hflush, if_neg (Nat.not_lt.mpr hfirst)]
        exact ih _ _ (by simp) hrest
      · have hwithin : ¬ transactionByteBudget < batchBytes + mutation.bytes lengths := by
          intro hover
          refine hflush ⟨List.length_pos_of_ne_nil ?_, hover⟩
          intro hnil
          rw [hbatch hnil] at hover
          omega
        simp only [if_neg hflush, if_neg hwithin]
        exact ih _ _ (by simp) hrest

omit [LinearOrder κ] [LinearOrder ι] in
theorem chunks_of_marker {prepared : List (PreparedEntry κ ι)}
    {pending : List (StagingMutation ι)} (h : pending <:+ prepared.flatMap stagingMutations)
    {time : Nat} {identity : ι} (hmarker : .marker time identity ∈ pending) :
    ∃ entry ∈ prepared, identity = entry.identity ∧ chunkMutations entry ⊆ pending := by
  induction prepared generalizing pending with
  | nil =>
      rw [List.flatMap_nil, List.suffix_nil] at h
      simp [h] at hmarker
  | cons first rest ih =>
      have hrest {more : List (StagingMutation ι)} (hmore : more <:+ rest.flatMap stagingMutations)
          (hmem : .marker time identity ∈ more) (hsubset : more ⊆ pending) :
          ∃ entry ∈ first :: rest, identity = entry.identity ∧ chunkMutations entry ⊆ pending := by
        obtain ⟨entry, hentry, hidentity, hchunks⟩ := ih hmore hmem
        exact ⟨entry, List.mem_cons_of_mem _ hentry, hidentity, List.Subset.trans hchunks hsubset⟩
      rw [List.flatMap_cons, stagingMutations, List.cons_append, List.suffix_cons_iff] at h
      rcases h with rfl | h
      · rcases List.mem_cons.mp hmarker with heq | hlater
        · injection heq with _ hidentity
          refine ⟨first, List.mem_cons_self, hidentity, ?_⟩
          exact List.subset_cons_of_subset _ (List.subset_append_left _ _)
        · refine hrest List.suffix_rfl ?_ ?_
          · exact (List.mem_append.mp hlater).resolve_left marker_not_mem_chunkMutations
          · exact List.subset_cons_of_subset _ (List.subset_append_right _ _)
      · have hmem := (List.mem_append.mp (h.subset hmarker)).resolve_left
          marker_not_mem_chunkMutations
        rcases List.suffix_or_suffix_of_suffix h (List.suffix_append _ _) with hle | hge
        · exact hrest hle hmarker (List.Subset.refl _)
        · exact hrest List.suffix_rfl hmem hge.subset

section

variable {json : Json ν} {issued : List (ι × WriteEntry κ ν)}
  {prepared : List (PreparedEntry κ ι)}

omit [LinearOrder κ] [LinearOrder ι] in
theorem Prepared.markersFirst (h : Prepared json issued prepared)
    (hnodup : (issued.map Prod.fst).Nodup) {pending : List (StagingMutation ι)}
    (hsuffix : pending <:+ prepared.flatMap stagingMutations) : MarkersFirst prepared pending := by
  intro entry hentry hmarker index chunk hchunk
  obtain ⟨entry', hentry', hidentity, hchunks⟩ := chunks_of_marker hsuffix hmarker
  obtain rfl := h.eq_of_identity hnodup hentry hentry' hidentity
  exact hchunks (mem_chunkMutations.mpr ⟨rfl, hchunk⟩)

omit [LinearOrder κ] [LinearOrder ι] in
theorem of_suffix {pending : List (StagingMutation ι)}
    (hsuffix : pending <:+ prepared.flatMap stagingMutations) : Of prepared pending :=
  fun _ hmem => List.mem_flatMap.mp (hsuffix.subset hmem)

omit [LinearOrder κ] [LinearOrder ι] in
theorem of_chunkMutations : Of prepared (prepared.flatMap chunkMutations) := by
  intro mutation hmem
  obtain ⟨entry, hentry, hchunk⟩ := List.mem_flatMap.mp hmem
  exact ⟨entry, hentry, List.mem_cons_of_mem _ hchunk⟩

end

omit [LinearOrder κ] [LinearOrder ι] in
theorem Prepared.mono {json : Json ν} {issued more : List (ι × WriteEntry κ ν)}
    {prepared : List (PreparedEntry κ ι)} (h : Prepared json issued prepared)
    (hmore : issued ⊆ more) : Prepared json more prepared :=
  ⟨fun entry hentry => (h.issued entry hentry).mono hmore, h.keys⟩

/-! ## Publications that do not fail -/

theorem clearMarkers_isSome (markers : List (PreparedEntry κ ι × Option Unit))
    (state : PersistenceState κ ι ε) :
    let next := markers.foldl (fun state (entry, marker) =>
      if marker.isSome then clearGarbage state entry.garbageAt entry.identity else state) state
    next.entries = state.entries ∧ next.values = state.values ∧
      (∀ row, (next.garbage.get? row).isSome → (state.garbage.get? row).isSome) ∧
      ∀ time identity, (∀ marker ∈ markers, marker.1.identity ≠ identity) →
        next.garbage.get? (toLex (time, identity)) =
          state.garbage.get? (toLex (time, identity)) := by
  induction markers generalizing state with
  | nil => exact ⟨rfl, rfl, fun _ h => h, fun _ _ _ => rfl⟩
  | cons marker markers ih =>
      obtain ⟨entry, marker⟩ := marker
      rw [List.foldl_cons]
      dsimp only
      split
      · obtain ⟨hentries, hvalues, hgarbage, hother⟩ :=
          ih (clearGarbage state entry.garbageAt entry.identity)
        refine ⟨hentries, hvalues, fun row hrow => ?_, fun time identity hne => ?_⟩
        · have hcleared := hgarbage row hrow
          rw [clearGarbage, OrderedMap.get?_clear] at hcleared
          split at hcleared
          · cases hcleared
          · exact hcleared
        · obtain ⟨hfirst, hrest⟩ := List.forall_mem_cons.mp hne
          refine (hother time identity hrest).trans ?_
          refine OrderedMap.get?_clear_of_ne _ ?_
          intro heq
          exact hfirst (congrArg (fun row => (ofLex row).2) heq).symm
      · obtain ⟨hentries, hvalues, hgarbage, hother⟩ := ih state
        exact ⟨hentries, hvalues, hgarbage, fun time identity hne =>
          hother time identity (List.forall_mem_cons.mp hne).2⟩

variable [DecidableEq ε] {store next : PersistenceState κ ι ε}
  {prepared : List (PreparedEntry κ ι)} {epoch : Option (StoreEpoch ε)} {replacedAt : ℚ}

/-- The entries are published already, and only rows of their identities are taken from the
garbage. -/
structure Republished (store : PersistenceState κ ι ε) (prepared : List (PreparedEntry κ ι))
    (next : PersistenceState κ ι ε) : Prop where
  entries : next.entries = store.entries
  values : next.values = store.values
  garbage : ∀ row, (next.garbage.get? row).isSome → (store.garbage.get? row).isSome
  other : ∀ time identity, (∀ entry ∈ prepared, entry.identity ≠ identity) →
    next.garbage.get? (toLex (time, identity)) = store.garbage.get? (toLex (time, identity))
  published : ∀ entry ∈ prepared,
    store.entries.get? entry.key = some ⟨entry.identity, entry.expires⟩

omit [DecidableEq ε] in
theorem Republished.shrinks (h : Republished store prepared next) : Shrinks store next :=
  shrinks_of_rows h.entries h.values h.garbage

theorem publishEntries_cases (h : publishEntries store prepared epoch replacedAt = some next) :
    (epoch.isSome ∧ Republished store prepared next) ∨
    (epoch.isSome ∧ (∀ entry ∈ prepared, HasMarker store entry) ∧
      next = publishAll true replacedAt store.entries.get? prepared store) ∨
    (epoch = none ∧ next = publishAll false replacedAt store.entries.get? prepared
      ((prepared.flatMap chunkMutations).foldl StagingMutation.apply store)) := by
  have hzip : prepared.zip (prepared.map fun entry => store.entries.get? entry.key) =
      prepared.map fun entry => (entry, store.entries.get? entry.key) := by
    nth_rewrite 1 [← List.map_id prepared]
    exact List.zip_map'
  unfold publishEntries at h
  dsimp only at h
  rw [hzip] at h
  split at h
  · cases h
  · split at h
    · next hsame =>
        cases h
        obtain ⟨hentries, hvalues, hgarbage, hother⟩ := clearMarkers_isSome (prepared.zip
          (prepared.map fun entry => store.garbage.get? (toLex (entry.garbageAt, entry.identity))))
          store
        refine .inl ⟨hsame.1, hentries, hvalues, hgarbage, ?_, ?_⟩
        · exact fun time identity hne => hother time identity fun marker hmarker =>
            hne marker.1 (List.of_mem_zip hmarker).1
        intro entry hentry
        have hall := List.all_eq_true.mp hsame.2 _ (List.mem_map.mpr ⟨entry, hentry, rfl⟩)
        simpa [sameManifest] using hall
    · split at h
      · cases h
      · next hmarkers =>
          cases epoch with
          | none =>
              cases h
              exact .inr (.inr ⟨rfl, rfl⟩)
          | some epoch =>
              cases h
              refine .inr (.inl ⟨rfl, ?_, rfl⟩)
              intro entry hentry
              simp only [Option.isSome_some, true_and, List.any_eq_true, List.mem_map,
                not_exists, not_and] at hmarkers
              have hmarker := hmarkers _ ⟨entry, hentry, rfl⟩
              exact Option.isSome_iff_ne_none.mpr (by simpa using hmarker)

/-! ## What a call relies on -/

variable {json : Json ν} {issued : List (ι × WriteEntry κ ν)}

def WriterSound (store : PersistenceState κ ι ε) (writer : Writer κ ι ν ε) : Prop :=
  match writer.phase with
  | .preparing => True
  | .staging batches complete _ =>
    ∃ tail, (complete = true → tail = []) ∧
      batches.flatten ++ tail <:+ writer.prepared.flatMap stagingMutations ∧
      ∀ entry ∈ writer.prepared, Guarded store (batches.flatten ++ tail) entry
  | .publishing (some _) _ _ => ∀ entry ∈ writer.prepared, Ready store entry
  | .publishing none _ false =>
    ∀ entry ∈ writer.prepared, Unnamed store entry.identity ∧ NoGarbage store entry.identity
  | .publishing none _ true => True
  | .finished _ => True

omit [DecidableEq ε] in
/-- What keeps each entry guarded, ready, or unnamed and no garbage keeps what a call relies
on. -/
theorem WriterSound.keep {writer : Writer κ ι ν ε} (h : WriterSound store writer)
    (hguarded : ∀ entry ∈ writer.prepared, ∀ pending, Guarded store pending entry →
      Guarded next pending entry)
    (hready : ∀ entry ∈ writer.prepared, Ready store entry → Ready next entry)
    (hfresh : ∀ entry ∈ writer.prepared, Unnamed store entry.identity →
      NoGarbage store entry.identity →
      Unnamed next entry.identity ∧ NoGarbage next entry.identity) :
    WriterSound next writer := by
  unfold WriterSound at h ⊢
  split at h
  · trivial
  · obtain ⟨tail, hcomplete, hsuffix, hentries⟩ := h
    exact ⟨tail, hcomplete, hsuffix, fun entry hentry =>
      hguarded entry hentry _ (hentries entry hentry)⟩
  · exact fun entry hentry => hready entry hentry (h entry hentry)
  · exact fun entry hentry => hfresh entry hentry (h entry hentry).1 (h entry hentry).2
  · trivial
  · trivial

omit [DecidableEq ε] in
theorem WriterSound.shrinks {writer : Writer κ ι ν ε} (h : WriterSound store writer)
    (hshrinks : Shrinks store next) : WriterSound next writer :=
  h.keep (fun _ _ _ hguarded => hguarded.shrinks hshrinks)
    (fun _ _ hready => hready.shrinks hshrinks)
    (fun _ _ hunnamed hnone => ⟨hshrinks.unnamed hunnamed, hshrinks.noGarbage hnone⟩)

omit [DecidableEq ε] in
theorem NoGarbage.untouched {identity : ι} (h : NoGarbage store identity)
    (hsame : Untouched store next identity) : NoGarbage next identity :=
  fun time => (hsame.garbage time).trans (h time)

omit [DecidableEq ε] in
theorem WriterSound.untouched {writer : Writer κ ι ν ε} (h : WriterSound store writer)
    (hsame : ∀ entry ∈ writer.prepared, Untouched store next entry.identity) :
    WriterSound next writer :=
  h.keep (fun entry hentry _ hguarded => hguarded.untouched (hsame entry hentry))
    (fun entry hentry hready => hready.untouched (hsame entry hentry))
    (fun entry hentry hunnamed hnone =>
      ⟨(hsame entry hentry).unnamed hunnamed, hnone.untouched (hsame entry hentry)⟩)

omit [DecidableEq ε] in
theorem WriterSound.publishAll {writer : Writer κ ι ν ε} {staged : Bool}
    (h : WriterSound store writer) (hsound : Sound json issued store)
    (hprepared : Prepared json issued prepared) (hwriter : Prepared json issued writer.prepared)
    (hnodup : (issued.map Prod.fst).Nodup)
    (hapart : ∀ entry ∈ writer.prepared, ∀ other ∈ prepared, other.identity ≠ entry.identity) :
    WriterSound (publishAll staged replacedAt store.entries.get? prepared store) writer := by
  refine h.keep ?_ ?_ ?_
  · intro entry hentry _ hguarded
    exact hguarded.untouched
      (hprepared.untouched_publishAll (hapart entry hentry) hguarded.unnamed)
  · intro entry hentry hready
    exact hready.publishAll hsound hprepared hnodup (hwriter.issued entry hentry)
      (hapart entry hentry)
  · intro entry hentry hunnamed hnone
    have hsame : Untouched store
        (Backing.publishAll staged replacedAt store.entries.get? prepared store) entry.identity :=
      hprepared.untouched_publishAll (hapart entry hentry) hunnamed
    exact ⟨hsame.unnamed hunnamed, hnone.untouched hsame⟩

/-! ## The invariant -/

variable {lengths : Lengths κ ι} {ω : Type} [DecidableEq ω] {world world' : World κ ι ν ε ω}
  {name : ω} {writer : Writer κ ι ν ε}

structure WorldSound (json : Json ν) (world : World κ ι ν ε ω) : Prop where
  issued : (world.issued.map Prod.fst).Nodup
  store : Sound json world.issued world.store
  prepared : ∀ name writer, world.writers name = some writer →
    Prepared json world.issued writer.prepared
  writers : ∀ name writer, world.writers name = some writer → WriterSound world.store writer
  apart : ∀ name name' writer writer', name ≠ name' → world.writers name = some writer →
    world.writers name' = some writer' → ∀ entry ∈ writer.prepared, ∀ entry' ∈ writer'.prepared,
    entry.identity ≠ entry'.identity

omit [DecidableEq ε] [DecidableEq ω] in
theorem WorldSound.empty : WorldSound json ({} : World κ ι ν ε ω) where
  issued := .nil
  store := {
    chunks := fun _ _ _ h => nomatch h
    named := fun _ _ h => nomatch h
    live := fun _ _ h => nomatch h
    garbage := fun _ _ h => nomatch h }
  prepared _ _ h := nomatch h
  writers _ _ h := nomatch h
  apart _ _ _ _ _ h := nomatch h

omit [DecidableEq ε] [DecidableEq ω] in
theorem WorldSound.advance (h : WorldSound json world) {store : PersistenceState κ ι ε}
    {writers : ω → Option (Writer κ ι ν ε)} (now : ℚ) (hstore : Sound json world.issued store)
    (hwriters : ∀ name writer, writers name = some writer → WriterSound store writer ∧
      ∃ phase, world.writers name = some { writer with phase }) :
    WorldSound json { world with store, writers, now } where
  issued := h.issued
  store := hstore
  prepared name writer hwriter := by
    obtain ⟨phase, hold⟩ := (hwriters name writer hwriter).2
    exact h.prepared name { writer with phase } hold
  writers name writer hwriter := (hwriters name writer hwriter).1
  apart name name' writer writer' hne hwriter hwriter' := by
    obtain ⟨phase, hold⟩ := (hwriters name writer hwriter).2
    obtain ⟨phase', hold'⟩ := (hwriters name' writer' hwriter').2
    exact h.apart name name' { writer with phase } { writer' with phase := phase' } hne hold hold'

omit [DecidableEq ε] [DecidableEq ω] in
theorem WorldSound.shrinks (h : WorldSound json world) {store : PersistenceState κ ι ε} (now : ℚ)
    (hshrinks : Shrinks world.store store) : WorldSound json { world with store, now } :=
  h.advance now (h.store.shrinks hshrinks) fun name writer hwriter =>
    ⟨(h.writers name writer hwriter).shrinks hshrinks, writer.phase, hwriter⟩

omit [DecidableEq ε] in
theorem WorldSound.write (h : WorldSound json world) (hwriter : world.writers name = some writer)
    {store : PersistenceState κ ι ε} {phase : Phase ι ε}
    (hstore : Sound json world.issued store)
    (hothers : ∀ other writer', (∀ entry ∈ writer'.prepared, ∀ entry' ∈ writer.prepared,
      entry'.identity ≠ entry.identity) → world.writers other = some writer' →
      WriterSound store writer')
    (hphase : WriterSound store { writer with phase }) :
    WorldSound json ({ world with store }.setPhase name writer phase) := by
  refine h.advance world.now hstore ?_
  intro other writer' hwriter'
  by_cases hname : other = name
  · subst hname
    rw [Function.update_self] at hwriter'
    cases hwriter'
    exact ⟨hphase, writer.phase, hwriter⟩
  · rw [Function.update_of_ne hname] at hwriter'
    refine ⟨hothers other writer' ?_ hwriter', writer'.phase, hwriter'⟩
    intro entry hentry entry' hentry'
    exact h.apart name other writer writer' (Ne.symm hname) hwriter hwriter' entry' hentry' entry
      hentry

omit [DecidableEq ε] in
theorem WorldSound.setPhase (h : WorldSound json world)
    (hwriter : world.writers name = some writer) {phase : Phase ι ε}
    (hphase : WriterSound world.store { writer with phase }) :
    WorldSound json (world.setPhase name writer phase) :=
  h.write hwriter h.store (fun other writer' _ => h.writers other writer') hphase

omit [DecidableEq ε] in
theorem WorldSound.draw (h : WorldSound json world) {issued : List (ι × WriteEntry κ ν)}
    (hissued : (issued.map Prod.fst).Nodup) (hmore : world.issued ⊆ issued)
    (hprepared : Prepared json issued writer.prepared)
    (hwriter : WriterSound world.store writer)
    (hdrawn : ∀ entry ∈ writer.prepared, entry.identity ∉ world.issued.map Prod.fst) :
    WorldSound json { world with
      writers := Function.update world.writers name (some writer)
      issued } := by
  have hwriters : ∀ other writer',
      Function.update world.writers name (some writer) other = some writer' →
      other = name ∧ writer' = writer ∨ other ≠ name ∧ world.writers other = some writer' := by
    intro other writer' hother
    rcases eq_or_ne other name with rfl | hname
    · rw [Function.update_self] at hother
      cases hother
      exact .inl ⟨rfl, rfl⟩
    · rw [Function.update_of_ne hname] at hother
      exact .inr ⟨hname, hother⟩
  have hold : ∀ other writer', world.writers other = some writer' →
      ∀ entry ∈ writer'.prepared, entry.identity ∈ world.issued.map Prod.fst :=
    fun other writer' hother entry hentry => ((h.prepared other writer' hother).issued entry hentry).mem
  refine ⟨hissued, h.store.mono hmore, ?_, ?_, ?_⟩
  · intro other writer' hother
    rcases hwriters other writer' hother with ⟨-, rfl⟩ | ⟨-, hother⟩
    · exact hprepared
    · exact (h.prepared other writer' hother).mono hmore
  · intro other writer' hother
    rcases hwriters other writer' hother with ⟨-, rfl⟩ | ⟨-, hother⟩
    · exact hwriter
    · exact h.writers other writer' hother
  · intro left right writer' writer'' hne hleft hright entry hentry entry' hentry'
    rcases hwriters left writer' hleft with ⟨rfl, rfl⟩ | ⟨-, hleft'⟩
    · rcases hwriters right writer'' hright with ⟨rfl, -⟩ | ⟨-, hright'⟩
      · exact absurd rfl hne
      · intro heq
        exact hdrawn entry hentry (heq ▸ hold right writer'' hright' entry' hentry')
    · rcases hwriters right writer'' hright with ⟨-, rfl⟩ | ⟨-, hright'⟩
      · intro heq
        exact hdrawn entry' hentry' (heq ▸ hold left writer' hleft' entry hentry)
      · exact h.apart left right writer' writer'' hne hleft' hright' entry hentry entry' hentry'

/-! ## Steps -/

omit [DecidableEq ε] in
theorem Sound.fresh (h : Sound json issued store) {identity : ι}
    (hidentity : identity ∉ issued.map Prod.fst) :
    Unnamed store identity ∧ NoGarbage store identity := by
  constructor
  · rintro key manifest hkey rfl
    obtain ⟨chunks, hissued, -⟩ := h.named key manifest hkey
    exact hidentity hissued.mem
  · intro time
    rw [← Option.not_isSome_iff_eq_none]
    exact fun hrow => hidentity (h.garbage time identity hrow)

omit [DecidableEq ε] in
theorem WriterSound.start (entries : List (WriteEntry κ ν)) (preparedAt now : ℚ)
    (hfresh : ∀ entry ∈ prepared, Unnamed store entry.identity ∧ NoGarbage store entry.identity) :
    WriterSound store
      ({ entries, preparedAt, prepared, phase := .start now (writePlan lengths prepared) } :
        Writer κ ι ν ε) := by
  unfold writePlan
  dsimp only
  split
  · exact hfresh
  · split
    · trivial
    · obtain ⟨tail, hflatten, hcomplete⟩ := flatten_stageBatches lengths
        (prepared.flatMap stagingMutations) [] (lengths.readBytes .epoch)
      generalize stageBatches lengths (prepared.flatMap stagingMutations) []
        (lengths.readBytes .epoch) = staged at hflatten hcomplete
      obtain ⟨batches, complete⟩ := staged
      cases batches with
      | nil => trivial
      | cons batch rest =>
          refine ⟨tail, hcomplete, ?_, ?_⟩
          · rw [hflatten]
            exact List.suffix_rfl
          · intro entry hentry
            rw [hflatten]
            refine ⟨(hfresh entry hentry).1, ?_, ?_⟩
            · intro other hother
              rw [(hfresh entry hentry).2 other] at hother
              cases hother
            · intro _ index chunk hchunk hpending
              refine absurd (List.mem_flatMap.mpr ⟨entry, hentry, ?_⟩) hpending
              exact chunk_mem_stagingMutations.mpr ⟨rfl, hchunk⟩

omit [DecidableEq ε] in
theorem WorldSound.prepare (h : WorldSound json world) (hwriter : world.writers name = some writer)
    {identities : List ι} (hlength : identities.length = (latestEntries writer.entries).length)
    (hnodup : identities.Nodup)
    (hfresh : ∀ identity ∈ identities, identity ∉ world.issued.map Prod.fst) :
    WorldSound json (world.prepare json lengths name writer identities) := by
  unfold World.prepare
  cases hprepare : prepareEntries json lengths world.now writer.entries identities with
  | error error => exact h.setPhase hwriter trivial
  | ok prepared =>
      have hdrawn : ∀ entry ∈ prepared, entry.identity ∉ world.issued.map Prod.fst := by
        intro entry hentry
        refine hfresh entry.identity ?_
        rw [← identities_of_prepareEntries hprepare hlength]
        exact List.mem_map.mpr ⟨entry, hentry, rfl⟩
      refine h.draw ?_ (List.subset_append_right _ _) ?_ ?_ hdrawn
      · rw [List.map_append, List.map_fst_zip hlength.le, List.nodup_append']
        exact ⟨hnodup, h.issued, fun identity hmem => hfresh identity hmem⟩
      · exact prepared_of_prepareEntries hprepare hlength (List.subset_append_left _ _)
      · exact WriterSound.start writer.entries world.now world.now
          fun entry hentry => h.store.fresh (hdrawn entry hentry)

theorem WorldSound.stage (h : WorldSound json world) (hwriter : world.writers name = some writer)
    {batch : List (StagingMutation ι)} {rest : List (List (StagingMutation ι))} {complete : Bool}
    {epoch : Option (StoreEpoch ε)} (hphase : writer.phase = .staging (batch :: rest) complete epoch)
    (unknown : Bool) :
    WorldSound json (world.stage name writer batch rest complete epoch unknown) := by
  have hprepared := h.prepared name writer hwriter
  have hsound := h.writers name writer hwriter
  rw [WriterSound, hphase] at hsound
  obtain ⟨tail, hcomplete, hsuffix, hguarded⟩ := hsound
  rw [List.flatten_cons, List.append_assoc] at hsuffix hguarded
  have hof : Of writer.prepared batch :=
    fun mutation hmem => of_suffix hsuffix mutation (List.mem_append_left _ hmem)
  unfold World.stage
  cases hstage : writeStageBatch world.store batch epoch with
  | none => exact h.setPhase hwriter trivial
  | some result =>
      obtain ⟨store, read⟩ := result
      have hstore : store = batch.foldl StagingMutation.apply world.store := by
        unfold writeStageBatch at hstage
        split at hstage
        · cases hstage
        · cases hstage
          rfl
      have hnext : Sound json world.issued store := by
        rw [hstore]
        refine h.store.apply hprepared h.issued hof ?_
        intro time identity hmarker
        obtain ⟨entry, hentry, hmem⟩ := hof _ hmarker
        rw [(marker_mem_stagingMutations.mp hmem).2]
        exact (hguarded entry hentry).unnamed
      have hothers : ∀ other writer', (∀ entry ∈ writer'.prepared,
          ∀ entry' ∈ writer.prepared, entry'.identity ≠ entry.identity) →
          world.writers other = some writer' → WriterSound store writer' := by
        intro other writer' hapart hother
        rw [hstore]
        exact (h.writers other writer' hother).untouched fun entry hentry =>
          untouched_apply world.store hof (hapart entry hentry)
      have hentries : ∀ entry ∈ writer.prepared, Guarded store (rest.flatten ++ tail) entry := by
        intro entry hentry
        rw [hstore]
        exact (hguarded entry hentry).stage hprepared h.issued hof
          (hprepared.markersFirst h.issued hsuffix) hentry
      dsimp only
      cases unknown with
      | true =>
          have hsame : { world with store } = { world with store }.setPhase name writer
              writer.phase := by
            rw [World.setPhase, ← hwriter, Function.update_eq_self]
          rw [if_pos rfl, hsame]
          refine h.write hwriter hnext hothers ?_
          rw [WriterSound, hphase]
          refine ⟨tail, hcomplete, ?_, ?_⟩
          · rwa [List.flatten_cons, List.append_assoc]
          · intro entry hentry
            rw [List.flatten_cons, List.append_assoc]
            exact (hentries entry hentry).mono (List.subset_append_right _ _)
      | false =>
          refine h.write hwriter hnext hothers ?_
          cases rest with
          | cons batch' rest =>
              exact ⟨tail, hcomplete, (List.suffix_append _ _).trans hsuffix, hentries⟩
          | nil =>
              cases complete with
              | false => trivial
              | true =>
                  intro entry hentry _
                  have hlast := hentries entry hentry
                  rwa [hcomplete rfl] at hlast

/-- A direct publication may only run again while none of its identities is garbage. -/
def ReplaySafe (world : World κ ι ν ε ω) : Event κ ι ν ε ω → Prop
  | .publish name _ => ∀ writer replacedAt, world.writers name = some writer →
      writer.phase = .publishing none replacedAt true →
      ∀ entry ∈ writer.prepared, NoGarbage world.store entry.identity
  | _ => True

omit [DecidableEq ε] in
theorem published_of_ready (replacedAt : ℚ) (hsound : Sound json issued store)
    (hprepared : Prepared json issued prepared) (hready : ∀ entry ∈ prepared, Ready store entry)
    (hmarkers : ∀ entry ∈ prepared, HasMarker store entry) (hnodup : (issued.map Prod.fst).Nodup) :
    Sound json issued (publishAll true replacedAt store.entries.get? prepared store) ∧
      ∀ entry ∈ prepared,
        Ready (publishAll true replacedAt store.entries.get? prepared store) entry := by
  have hguarded : ∀ entry ∈ prepared, Guarded store [] entry :=
    fun entry hentry => hready entry hentry (hmarkers entry hentry)
  constructor
  · refine hsound.publishAll hprepared hnodup ?_ ?_
    · intro entry hentry index chunk hchunk
      exact (hguarded entry hentry).chunks (hmarkers entry hentry) index chunk hchunk (by simp)
    · intro entry hentry
      exact .inr ⟨rfl, (hguarded entry hentry).unnamed, (hguarded entry hentry).onlyAt⟩
  · intro entry hentry hmarker
    refine absurd hmarker (publishAll_marker hentry ?_)
    exact fun other _ manifest hkey => (hguarded entry hentry).unnamed other.key manifest hkey

theorem WorldSound.publish (h : WorldSound json world)
    (hwriter : world.writers name = some writer) {again : Bool}
    (hphase : writer.phase = .publishing epoch replacedAt again) (unknown : Bool)
    (hsafe : ReplaySafe world (.publish name unknown)) :
    WorldSound json (world.publish name writer epoch replacedAt unknown) := by
  have hprepared := h.prepared name writer hwriter
  have hsound := h.writers name writer hwriter
  unfold World.publish
  cases hpublish : publishEntries world.store writer.prepared epoch replacedAt with
  | none => exact h.setPhase hwriter trivial
  | some store =>
      dsimp only
      rcases publishEntries_cases hpublish with ⟨hepoch, hrepublished⟩ |
        ⟨hepoch, hmarkers, rfl⟩ | ⟨rfl, rfl⟩
      · have hshrinks := hrepublished.shrinks
        obtain ⟨value, rfl⟩ := Option.isSome_iff_exists.mp hepoch
        rw [WriterSound, hphase] at hsound
        refine h.write hwriter (h.store.shrinks hshrinks)
          (fun other writer' _ hother => (h.writers other writer' hother).shrinks hshrinks) ?_
        cases unknown with
        | true => exact fun entry hentry => (hsound entry hentry).shrinks hshrinks
        | false => trivial
      · obtain ⟨value, rfl⟩ := Option.isSome_iff_exists.mp hepoch
        rw [WriterSound, hphase] at hsound
        obtain ⟨hnext, hready⟩ := published_of_ready replacedAt h.store hprepared hsound hmarkers
          h.issued
        refine h.write hwriter hnext (fun other writer' hapart hother =>
          (h.writers other writer' hother).publishAll h.store hprepared
            (h.prepared other writer' hother) h.issued hapart) ?_
        cases unknown with
        | true => exact hready
        | false => trivial
      · have hnone : ∀ entry ∈ writer.prepared, NoGarbage world.store entry.identity := by
          cases again with
          | true => exact hsafe writer replacedAt hwriter hphase
          | false =>
              rw [WriterSound, hphase] at hsound
              exact fun entry hentry => (hsound entry hentry).2
        obtain ⟨chunked, hchunked⟩ : ∃ chunked, chunked =
            (writer.prepared.flatMap chunkMutations).foldl StagingMutation.apply world.store :=
          ⟨_, rfl⟩
        have hnoMarker : ∀ time identity,
            .marker time identity ∉ writer.prepared.flatMap chunkMutations := by
          intro time identity hmem
          obtain ⟨entry, -, hmarker⟩ := List.mem_flatMap.mp hmem
          exact marker_not_mem_chunkMutations hmarker
        have hsoundChunked : Sound json world.issued chunked := by
          rw [hchunked]
          exact h.store.apply hprepared h.issued of_chunkMutations
            fun time identity hmem => absurd hmem (hnoMarker time identity)
        have hentries : world.store.entries = chunked.entries := by
          rw [hchunked, apply_entries]
        rw [← hchunked, hentries]
        refine h.write hwriter (hsoundChunked.publishAll hprepared h.issued ?_ ?_) ?_ ?_
        · intro entry hentry index chunk hchunk
          rw [hchunked]
          refine values_apply_of_unique (hprepared.chunk_unique h.issued of_chunkMutations hentry
            hchunk) (.inr ?_)
          exact List.mem_flatMap.mpr ⟨entry, hentry, mem_chunkMutations.mpr ⟨rfl, hchunk⟩⟩
        · intro entry hentry
          refine .inl fun time => ?_
          rw [← hnone entry hentry time, hchunked]
          exact mark_eq_of_iff ((isSome_garbage_apply _ _ _ _).trans
            (or_iff_left (hnoMarker time entry.identity)))
        · intro other writer' hapart hother
          have hold : WriterSound chunked writer' := by
            rw [hchunked]
            exact (h.writers other writer' hother).untouched fun entry hentry =>
              untouched_apply world.store of_chunkMutations (hapart entry hentry)
          exact hold.publishAll hsoundChunked hprepared (h.prepared other writer' hother) h.issued
            hapart
        · cases unknown <;> trivial

theorem WorldSound.step {event : Event κ ι ν ε ω} (h : WorldSound json world)
    (hsafe : ReplaySafe world event) (hstep : world.step json lengths event = some world') :
    WorldSound json world' := by
  cases event with
  | tick now =>
      rw [World.step] at hstep
      split at hstep
      · cases hstep
        exact h.shrinks now (.refl _)
      · cases hstep
  | call name entries =>
      rw [World.step] at hstep
      split at hstep
      · cases hstep
      · cases hstep
        exact h.draw h.issued (List.Subset.refl _) ⟨by simp, .nil⟩ trivial (by simp)
  | prepare name identities =>
      rw [World.step] at hstep
      split at hstep
      · next writer hwriter =>
          split at hstep
          · split at hstep
            · next hdrawn =>
                cases hstep
                refine h.prepare hwriter hdrawn.1 hdrawn.2.1 fun identity hmem hissued => ?_
                obtain ⟨issued, hissued, hsame⟩ := List.mem_map.mp hissued
                exact hdrawn.2.2 identity hmem issued hissued hsame
            · cases hstep
          · cases hstep
      · cases hstep
  | stage name unknown =>
      rw [World.step] at hstep
      split at hstep
      · next writer hwriter =>
          split at hstep
          · next hphase =>
              cases hstep
              exact h.stage hwriter hphase unknown
          · cases hstep
      · cases hstep
  | publish name unknown =>
      rw [World.step] at hstep
      split at hstep
      · next writer hwriter =>
          split at hstep
          · next hphase =>
              cases hstep
              exact h.publish hwriter hphase unknown hsafe
          · cases hstep
      · cases hstep
  | get key =>
      rw [World.step] at hstep
      split at hstep
      · next hget =>
          cases hstep
          exact h.shrinks world.now (h.store.shrinks_of_drops h.issued (drops_resolveEntry hget))
      · cases hstep
        exact h
  | getMany keys =>
      rw [World.step] at hstep
      split at hstep
      · next hget =>
          cases hstep
          exact h.shrinks world.now (h.store.shrinks_of_drops h.issued (drops_getMany hget))
      · cases hstep
        exact h
  | remove key =>
      cases hstep
      exact h.shrinks world.now (h.store.shrinks_of_drops h.issued (.single (drop_remove _ key)))
  | clear nextEpoch =>
      cases hstep
      exact h.shrinks world.now (shrinks_clear _ nextEpoch)
  | cleanup =>
      cases hstep
      exact h.shrinks world.now (h.store.shrinks_cleanupBatch h.issued world.now)

/-! ## Live values -/

/-- The identity that a manifest names has the chunks of the value that it was drawn for, and is
no garbage. -/
def Live (json : Json ν) (world : World κ ι ν ε ω) : Prop :=
  ∀ key manifest, world.store.entries.get? key = some manifest →
    (∃ entry encoded, (manifest.identity, entry) ∈ world.issued ∧ entry.key = key ∧
      json.stringify entry.value = some encoded ∧ ∀ index,
      world.store.values.get? (toLex (manifest.identity, index)) =
        (splitChunkedValue encoded)[index]?) ∧
    ∀ time, world.store.garbage.get? (toLex (time, manifest.identity)) = none

omit [DecidableEq ε] [DecidableEq ω] in
theorem WorldSound.live (h : WorldSound json world) : Live json world := by
  intro key manifest hkey
  obtain ⟨chunks, ⟨entry, encoded, hmem, hentry, hencoded, rfl⟩, hvalues⟩ :=
    h.store.named key manifest hkey
  exact ⟨⟨entry, encoded, hmem, hentry, hencoded, hvalues⟩, h.store.live key manifest hkey⟩

theorem live_of_run {events : List (Event κ ι ν ε ω)}
    (hrun : Run (fun world event next => ReplaySafe world event ∧
      World.step json lengths world event = some next) {} events world) : Live json world := by
  refine WorldSound.live (hrun.invariant (A := fun _ => True) ?_ (fun _ _ => trivial) .empty)
  intro state event next _ hstep h
  exact h.step hstep.1 hstep.2

omit [DecidableEq ε] in
theorem publishAll_direct_garbage (replacedAt : ℚ) (previous : κ → Option (EntryManifest ι))
    (entries : List (PreparedEntry κ ι)) (state : PersistenceState κ ι ε) {time : Nat}
    {identity : ι} (h : (state.garbage.get? (toLex (time, identity))).isSome) :
    ((publishAll false replacedAt previous entries state).garbage.get?
      (toLex (time, identity))).isSome := by
  induction entries generalizing state with
  | nil => exact h
  | cons entry entries ih =>
      exact ih _ ((publishEntry_garbage _ _ _ _ _ _ _).mpr ⟨.inl h, by simp⟩)

/-- A direct publication that runs again while an identity of it is garbage names garbage. -/
theorem not_live_of_replay {entry : PreparedEntry κ ι} {time : Nat}
    (hwriter : world.writers name = some writer)
    (hphase : writer.phase = .publishing none replacedAt true)
    (hkeys : (writer.prepared.map PreparedEntry.key).Nodup) (hentry : entry ∈ writer.prepared)
    (hgarbage : (world.store.garbage.get? (toLex (time, entry.identity))).isSome) (unknown : Bool)
    (hstep : world.step json lengths (.publish name unknown) = some world') :
    ¬ Live json world' := by
  rw [World.step, hwriter] at hstep
  dsimp only at hstep
  rw [hphase] at hstep
  cases hstep
  intro hlive
  unfold World.publish at hlive
  cases hpublish : publishEntries world.store writer.prepared none replacedAt with
  | none => simp [publishEntries] at hpublish
  | some store =>
      rw [hpublish] at hlive
      rcases publishEntries_cases hpublish with ⟨hepoch, -⟩ | ⟨hepoch, -⟩ | ⟨-, rfl⟩
      · cases hepoch
      · cases hepoch
      · have hnone := (hlive entry.key _ (publishAll_entries_of_mem hkeys _ hentry)).2 time
        have hrow := publishAll_direct_garbage replacedAt world.store.entries.get?
          writer.prepared _ ((isSome_garbage_apply (writer.prepared.flatMap chunkMutations) world.store time
            entry.identity).mpr (.inl hgarbage))
        change (publishAll _ _ _ _ _).garbage.get? _ = none at hnone
        rw [hnone] at hrow
        cases hrow

end

/-! ## A publication that runs again -/

section

inductive EmptyValue where
  | object
  | array
  deriving DecidableEq

def emptyText : EmptyValue → Bytes
  | .object => [123, 125]
  | .array => [91, 93]

def emptyJson : Json EmptyValue where
  stringify value := some (emptyText value)
  parse text := [.object, .array].find? fun value => emptyText value = text

def shortLengths : Lengths String Nat := ⟨fun _ => 40, fun _ => 50, fun _ => 36⟩

abbrev EmptyWorld := World String Nat EmptyValue Nat Nat

/-- The first call publishes, another call replaces its value, and the first publication runs
again. -/
def replayed : List (Event String Nat EmptyValue Nat Nat) :=
  [.call 0 [⟨"key", .object, none⟩], .prepare 0 [1], .publish 0 true,
    .call 1 [⟨"key", .array, none⟩], .prepare 1 [2], .publish 1 false, .publish 0 false]

theorem not_live_replayed :
    ∃ world : EmptyWorld, Run (fun world event next =>
        World.step emptyJson shortLengths world event = some next) {} replayed world ∧
      ¬ Live emptyJson world ∧
      resolveEntry emptyJson world.now (cleanupBatch world.now world.store).1 "key" =
        .error (.incomplete "key") := by
  have hrun : Run (fun world event next =>
      World.step emptyJson shortLengths world event = some next) ({} : EmptyWorld) replayed _ :=
    .snoc (.snoc (.snoc (.snoc (.snoc (.snoc (.snoc (.nil _) rfl) rfl) rfl) rfl) rfl) rfl) rfl
  refine ⟨_, hrun, ?_, rfl⟩
  intro h
  have hnone := (h "key" ⟨1, none⟩ rfl).2 0
  cases hnone

def repeated : List (Event String Nat EmptyValue Nat Nat) :=
  [.call 0 [⟨"key", .object, none⟩], .prepare 0 [1], .publish 0 true, .publish 0 false]

theorem live_repeated :
    ∃ world : EmptyWorld, Run (fun world event next => ReplaySafe world event ∧
        World.step emptyJson shortLengths world event = some next) {} repeated world ∧
      Live emptyJson world ∧ world.store.entries.get? "key" = some ⟨1, none⟩ := by
  have hprepared : Run (fun world event next => ReplaySafe world event ∧
      World.step emptyJson shortLengths world event = some next) ({} : EmptyWorld)
      [.call 0 [⟨"key", .object, none⟩], .prepare 0 [1]] _ :=
    .snoc (.snoc (.nil _) ⟨trivial, rfl⟩) ⟨trivial, rfl⟩
  have hrun : Run (fun world event next => ReplaySafe world event ∧
      World.step emptyJson shortLengths world event = some next) ({} : EmptyWorld) repeated _ :=
    .snoc (.snoc hprepared ⟨by rintro _ _ ⟨⟩ ⟨⟩, rfl⟩) ⟨by intro _ _ _ _ _ _ _; rfl, rfl⟩
  exact ⟨_, hrun, live_of_run hrun, rfl⟩

end

end FoundationDbEffect.Persistence.Backing
