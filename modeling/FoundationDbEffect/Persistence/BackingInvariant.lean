import FoundationDbEffect.Foundation.Fallible
import FoundationDbEffect.Foundation.Transition
import FoundationDbEffect.Persistence.BackingPersistence
import Mathlib.Logic.Relation

/-!
# Live values of the backing persistence

The chunks of an identity are always some of those of the value that it was drawn for. A
manifest names an identity whose chunks are all there and that no garbage row names. The reads,
the removals and the cleanup only take rows away, and a staged value that still has its marker
loses none of its chunks to them.

A direct publication whose commit was applied without its caller knowing runs again, and by then
its identities can be garbage.
-/

namespace FoundationDbEffect.Persistence.Backing

open FoundationDbEffect.Foundation

section

variable {κ ι ν ε : Type} [LinearOrder κ] [LinearOrder ι]

/-! ## Rows after primitive writes -/

@[simp] theorem clearExpiration_entries (state : PersistenceState κ ι ε) (key : κ)
    (expires : Option Int) : (clearExpiration state key expires).entries = state.entries := by
  cases expires <;> rfl

@[simp] theorem clearExpiration_values (state : PersistenceState κ ι ε) (key : κ)
    (expires : Option Int) : (clearExpiration state key expires).values = state.values := by
  cases expires <;> rfl

@[simp] theorem clearExpiration_garbage (state : PersistenceState κ ι ε) (key : κ)
    (expires : Option Int) : (clearExpiration state key expires).garbage = state.garbage := by
  cases expires <;> rfl

@[simp] theorem setExpiration_entries (state : PersistenceState κ ι ε) (entry : PreparedEntry κ ι) :
    (setExpiration state entry).entries = state.entries := by
  unfold setExpiration
  cases entry.expires <;> rfl

@[simp] theorem setExpiration_values (state : PersistenceState κ ι ε) (entry : PreparedEntry κ ι) :
    (setExpiration state entry).values = state.values := by
  unfold setExpiration
  cases entry.expires <;> rfl

@[simp] theorem setExpiration_garbage (state : PersistenceState κ ι ε) (entry : PreparedEntry κ ι) :
    (setExpiration state entry).garbage = state.garbage := by
  unfold setExpiration
  cases entry.expires <;> rfl

theorem get?_clearStoredValue (state : PersistenceState κ ι ε) (identity identity' : ι)
    (index : Nat) :
    (clearStoredValue state identity).values.get? (toLex (identity', index)) =
      if identity' = identity then none else state.values.get? (toLex (identity', index)) :=
  get?_clearChunkedValue _ _ _ _

theorem get?_clearEntry (state : PersistenceState κ ι ε) (key key' : κ) :
    (clearEntry state key).entries.get? key' =
      if key' = key then none else state.entries.get? key' :=
  OrderedMap.get?_clear _ _ _

/-! ## Soundness -/

/-- The identity has been drawn for an entry of the key, whose value has these chunks. -/
def Issued (json : Json ν) (issued : List (ι × WriteEntry κ ν)) (identity : ι) (key : κ)
    (chunks : List Bytes) : Prop :=
  ∃ entry encoded, (identity, entry) ∈ issued ∧ entry.key = key ∧
    json.stringify entry.value = some encoded ∧ chunks = splitChunkedValue encoded

def Unnamed (store : PersistenceState κ ι ε) (identity : ι) : Prop :=
  ∀ key manifest, store.entries.get? key = some manifest → manifest.identity ≠ identity

def NoGarbage (store : PersistenceState κ ι ε) (identity : ι) : Prop :=
  ∀ time, store.garbage.get? (toLex (time, identity)) = none

def ChunksIssued (json : Json ν) (issued : List (ι × WriteEntry κ ν)) (values : ChunkRows ι) :
    Prop :=
  ∀ identity index chunk, values.get? (toLex (identity, index)) = some chunk →
    ∃ key chunks, Issued json issued identity key chunks ∧ chunks[index]? = some chunk

structure Sound (json : Json ν) (issued : List (ι × WriteEntry κ ν))
    (store : PersistenceState κ ι ε) : Prop where
  chunks : ChunksIssued json issued store.values
  named : ∀ key manifest, store.entries.get? key = some manifest →
    ∃ chunks, Issued json issued manifest.identity key chunks ∧
      ∀ index, store.values.get? (toLex (manifest.identity, index)) = chunks[index]?
  live : ∀ key manifest, store.entries.get? key = some manifest →
    NoGarbage store manifest.identity
  garbage : ∀ time identity, (store.garbage.get? (toLex (time, identity))).isSome →
    identity ∈ issued.map Prod.fst

omit [LinearOrder κ] [LinearOrder ι] in
theorem Issued.mono {json : Json ν} {issued more : List (ι × WriteEntry κ ν)} {identity : ι}
    {key : κ} {chunks : List Bytes} (h : Issued json issued identity key chunks)
    (hmore : issued ⊆ more) : Issued json more identity key chunks := by
  obtain ⟨entry, encoded, hmem, hrest⟩ := h
  exact ⟨entry, encoded, hmore hmem, hrest⟩

omit [LinearOrder κ] [LinearOrder ι] in
theorem Issued.mem {json : Json ν} {issued : List (ι × WriteEntry κ ν)} {identity : ι}
    {key : κ} {chunks : List Bytes} (h : Issued json issued identity key chunks) :
    identity ∈ issued.map Prod.fst := by
  obtain ⟨entry, encoded, hmem, -⟩ := h
  exact List.mem_map.mpr ⟨_, hmem, rfl⟩

omit [LinearOrder κ] [LinearOrder ι] in
theorem entry_unique {issued : List (ι × WriteEntry κ ν)} (hnodup : (issued.map Prod.fst).Nodup)
    {identity : ι} {entry entry' : WriteEntry κ ν} (h : (identity, entry) ∈ issued)
    (h' : (identity, entry') ∈ issued) : entry = entry' :=
  congrArg Prod.snd (List.inj_on_of_nodup_map hnodup h h' rfl)

omit [LinearOrder κ] [LinearOrder ι] in
theorem Issued.unique {json : Json ν} {issued : List (ι × WriteEntry κ ν)}
    (hnodup : (issued.map Prod.fst).Nodup) {identity : ι} {key key' : κ}
    {chunks chunks' : List Bytes} (h : Issued json issued identity key chunks)
    (h' : Issued json issued identity key' chunks') : key = key' ∧ chunks = chunks' := by
  obtain ⟨entry, encoded, hmem, rfl, hencoded, rfl⟩ := h
  obtain ⟨entry', encoded', hmem', rfl, hencoded', rfl⟩ := h'
  obtain rfl := entry_unique hnodup hmem hmem'
  rw [hencoded] at hencoded'
  cases hencoded'
  exact ⟨rfl, rfl⟩

theorem Sound.mono {json : Json ν} {issued more : List (ι × WriteEntry κ ν)}
    {store : PersistenceState κ ι ε} (h : Sound json issued store) (hmore : issued ⊆ more) :
    Sound json more store where
  chunks identity index chunk hchunk := by
    obtain ⟨key, chunks, hissued, hget⟩ := h.chunks identity index chunk hchunk
    exact ⟨key, chunks, hissued.mono hmore, hget⟩
  named key manifest hentry := by
    obtain ⟨chunks, hissued, hvalues⟩ := h.named key manifest hentry
    exact ⟨chunks, hissued.mono hmore, hvalues⟩
  live := h.live
  garbage time identity hrow := List.map_subset Prod.fst hmore (h.garbage time identity hrow)

theorem Sound.key_unique {json : Json ν} {issued : List (ι × WriteEntry κ ν)}
    {store : PersistenceState κ ι ε} (h : Sound json issued store)
    (hnodup : (issued.map Prod.fst).Nodup) {key key' : κ} {manifest manifest' : EntryManifest ι}
    (hkey : store.entries.get? key = some manifest)
    (hkey' : store.entries.get? key' = some manifest')
    (hidentity : manifest.identity = manifest'.identity) : key = key' := by
  obtain ⟨chunks, hissued, -⟩ := h.named key manifest hkey
  obtain ⟨chunks', hissued', -⟩ := h.named key' manifest' hkey'
  rw [← hidentity] at hissued'
  exact (hissued.unique hnodup hissued').1

omit [LinearOrder κ] in
/-- All chunks of an identity are there as soon as none is missing. -/
theorem ChunksIssued.values_eq {json : Json ν} {issued : List (ι × WriteEntry κ ν)}
    {values : ChunkRows ι} (h : ChunksIssued json issued values)
    (hnodup : (issued.map Prod.fst).Nodup) {identity : ι} {key : κ} {chunks : List Bytes}
    (hissued : Issued json issued identity key chunks)
    (hpresent : ∀ index chunk, chunks[index]? = some chunk →
      values.get? (toLex (identity, index)) = some chunk) (index : Nat) :
    values.get? (toLex (identity, index)) = chunks[index]? := by
  cases hchunk : chunks[index]? with
  | some chunk => exact hpresent index chunk hchunk
  | none =>
      rw [Option.eq_none_iff_forall_ne_some]
      intro chunk hvalue
      obtain ⟨key', chunks', hissued', hget⟩ := h identity index chunk hvalue
      rw [← (hissued.unique hnodup hissued').2, hchunk] at hget
      cases hget

/-! ## Stores that shrink -/

def OnlyAt (store : PersistenceState κ ι ε) (identity : ι) (time : Nat) : Prop :=
  ∀ other, (store.garbage.get? (toLex (other, identity))).isSome → other = time

/-- Rows are taken away, but no chunk of an identity that is still named, and none of an identity
whose only garbage row is still there. -/
structure Shrinks (store next : PersistenceState κ ι ε) : Prop where
  entries : ∀ key manifest, next.entries.get? key = some manifest →
    store.entries.get? key = some manifest
  values : ∀ path chunk, next.values.get? path = some chunk → store.values.get? path = some chunk
  garbage : ∀ row, (next.garbage.get? row).isSome → (store.garbage.get? row).isSome
  named : ∀ key manifest, next.entries.get? key = some manifest → ∀ index,
    next.values.get? (toLex (manifest.identity, index)) =
      store.values.get? (toLex (manifest.identity, index))
  marked : ∀ identity time, Unnamed store identity → OnlyAt store identity time →
    (next.garbage.get? (toLex (time, identity))).isSome → ∀ index,
    next.values.get? (toLex (identity, index)) = store.values.get? (toLex (identity, index))

theorem Shrinks.unnamed {store next : PersistenceState κ ι ε} (h : Shrinks store next)
    {identity : ι} (hunnamed : Unnamed store identity) : Unnamed next identity :=
  fun key manifest hentry => hunnamed key manifest (h.entries key manifest hentry)

theorem Shrinks.onlyAt {store next : PersistenceState κ ι ε} (h : Shrinks store next)
    {identity : ι} {time : Nat} (honly : OnlyAt store identity time) :
    OnlyAt next identity time :=
  fun other hother => honly other (h.garbage _ hother)

theorem Shrinks.noGarbage {store next : PersistenceState κ ι ε} (h : Shrinks store next)
    {identity : ι} (hnone : NoGarbage store identity) : NoGarbage next identity := by
  intro time
  rw [Option.eq_none_iff_forall_ne_some]
  intro mark hmark
  have hstore := h.garbage _ (Option.isSome_iff_exists.mpr ⟨mark, hmark⟩)
  rw [hnone time] at hstore
  cases hstore

theorem Shrinks.refl (store : PersistenceState κ ι ε) : Shrinks store store where
  entries _ _ h := h
  values _ _ h := h
  garbage _ h := h
  named _ _ _ _ := rfl
  marked _ _ _ _ _ _ := rfl

theorem Shrinks.trans {first second third : PersistenceState κ ι ε} (h : Shrinks first second)
    (h' : Shrinks second third) : Shrinks first third where
  entries key manifest hentry := h.entries key manifest (h'.entries key manifest hentry)
  values path chunk hchunk := h.values path chunk (h'.values path chunk hchunk)
  garbage row hrow := h.garbage row (h'.garbage row hrow)
  named key manifest hentry index :=
    (h'.named key manifest hentry index).trans
      (h.named key manifest (h'.entries key manifest hentry) index)
  marked identity time hunnamed honly hrow index :=
    (h'.marked identity time (h.unnamed hunnamed) (h.onlyAt honly) hrow index).trans
      (h.marked identity time hunnamed honly (h'.garbage _ hrow) index)

theorem Sound.shrinks {json : Json ν} {issued : List (ι × WriteEntry κ ν)}
    {store next : PersistenceState κ ι ε} (h : Sound json issued store)
    (hshrinks : Shrinks store next) : Sound json issued next where
  chunks identity index chunk hchunk :=
    h.chunks identity index chunk (hshrinks.values _ chunk hchunk)
  named key manifest hentry := by
    obtain ⟨chunks, hissued, hvalues⟩ := h.named key manifest (hshrinks.entries _ _ hentry)
    exact ⟨chunks, hissued, fun index => by rw [hshrinks.named key manifest hentry, hvalues]⟩
  live key manifest hentry := hshrinks.noGarbage (h.live key manifest (hshrinks.entries _ _ hentry))
  garbage time identity hrow := h.garbage time identity (hshrinks.garbage _ hrow)

/-! ## Entries that are deleted -/

/-- Either no entry, no chunk and no garbage row changes, or an entry that may go is deleted with
its chunks. -/
inductive Drop (may : EntryManifest ι → Prop) (store next : PersistenceState κ ι ε) : Prop where
  | none (hentries : next.entries = store.entries) (hvalues : next.values = store.values)
      (hgarbage : next.garbage = store.garbage)
  | entry {key : κ} {manifest : EntryManifest ι} (hkey : store.entries.get? key = some manifest)
      (hmay : may manifest) (hentries : next.entries = store.entries.clear key)
      (hvalues : next.values = (clearStoredValue store manifest.identity).values)
      (hgarbage : next.garbage = store.garbage)

abbrev Drops (may : EntryManifest ι → Prop) :
    PersistenceState κ ι ε → PersistenceState κ ι ε → Prop :=
  Relation.ReflTransGen (Drop may)

abbrev Expired (now : ℚ) (manifest : EntryManifest ι) : Prop :=
  isExpired manifest.expires now = true

theorem Drop.garbage {may : EntryManifest ι → Prop} {store next : PersistenceState κ ι ε}
    (h : Drop may store next) : next.garbage = store.garbage := by
  cases h with
  | none _ _ hgarbage => exact hgarbage
  | entry _ _ _ _ hgarbage => exact hgarbage

theorem Drops.garbage {may : EntryManifest ι → Prop} {store next : PersistenceState κ ι ε}
    (h : Drops may store next) : next.garbage = store.garbage := by
  induction h with
  | refl => rfl
  | tail _ hlast ih => exact hlast.garbage.trans ih

theorem drop_entry {may : EntryManifest ι → Prop} {store : PersistenceState κ ι ε} {key : κ}
    {manifest : EntryManifest ι} (hkey : store.entries.get? key = some manifest)
    (hmay : may manifest) :
    Drop may store (clearStoredValue (clearExpiration (clearEntry store key) key manifest.expires)
      manifest.identity) := by
  refine .entry hkey hmay ?_ ?_ ?_
  · exact clearExpiration_entries _ _ _
  · simp [clearStoredValue, clearEntry]
  · exact clearExpiration_garbage _ _ _

theorem drops_resolveEntry {json : Json ν} {now : ℚ} {store next : PersistenceState κ ι ε}
    {key : κ} {value : Option ν} (h : resolveEntry json now store key = .ok (next, value)) :
    Drops (Expired now) store next := by
  unfold resolveEntry at h
  cases hkey : store.entries.get? key with
  | none =>
      rw [hkey] at h
      cases h
      exact .refl
  | some manifest =>
      rw [hkey] at h
      dsimp only at h
      split at h
      · next hexpired =>
          cases h
          exact .single (drop_entry hkey hexpired)
      · cases hread : readStoredValue json store key manifest with
        | error error =>
            rw [hread] at h
            cases h
        | ok value =>
            rw [hread] at h
            cases h
            exact .refl

theorem drops_expireMany (now : ℚ) (keys : List κ) (hkeys : keys.Nodup)
    (lookup : κ → Option (EntryManifest ι)) {store : PersistenceState κ ι ε}
    (hlookup : ∀ key ∈ keys, store.entries.get? key = lookup key) :
    Drops (Expired now) store (expireMany now (keys.map fun key => (key, lookup key)) store).1 := by
  induction keys generalizing store with
  | nil => exact .refl
  | cons key keys ih =>
      obtain ⟨hfirst, hrest⟩ := List.nodup_cons.mp hkeys
      have hlater : ∀ other ∈ keys, store.entries.get? other = lookup other :=
        fun other hother => hlookup other (List.mem_cons_of_mem _ hother)
      have hkey := hlookup key List.mem_cons_self
      rw [List.map_cons]
      cases hmanifest : lookup key with
      | none => exact ih hrest hlater
      | some manifest =>
          rw [expireMany]
          split
          · next hexpired =>
              rw [hmanifest] at hkey
              refine .head (drop_entry hkey hexpired) (ih hrest ?_)
              intro other hother
              rw [← hlater other hother]
              change (clearExpiration (clearEntry store key) key manifest.expires).entries.get?
                other = _
              rw [clearExpiration_entries, get?_clearEntry, if_neg]
              rintro rfl
              exact hfirst hother
          · exact ih hrest hlater

omit [LinearOrder κ] [LinearOrder ι] in
theorem zip_lookup (keys : List κ) (lookup : κ → Option (EntryManifest ι)) :
    keys.zip (keys.map lookup) = keys.map fun key => (key, lookup key) := by
  nth_rewrite 1 [← List.map_id keys]
  exact List.zip_map'

theorem drops_getMany {json : Json ν} {now : ℚ} {store next : PersistenceState κ ι ε}
    {keys : List κ} {values : List (Option ν)}
    (h : getMany json now store keys = .ok (next, values)) : Drops (Expired now) store next := by
  have hdrops := drops_expireMany now keys.eraseDups (nodup_eraseDups keys) store.entries.get?
    fun _ _ => rfl
  unfold getMany at h
  dsimp only at h
  rw [zip_lookup] at h
  generalize expireMany now (keys.eraseDups.map fun key => (key, store.entries.get? key)) store =
    expired at h hdrops
  obtain ⟨state, live⟩ := expired
  dsimp only at h
  obtain ⟨loaded, _, h⟩ := bind_eq_ok.mp h
  cases h
  exact hdrops

theorem drop_remove (store : PersistenceState κ ι ε) (key : κ) :
    Drop (fun _ => True) store (remove store key) := by
  unfold remove
  cases hkey : store.entries.get? key with
  | none =>
      refine .none ?_ rfl rfl
      ext other manifest
      rw [get?_clearEntry]
      split
      · next hother => rw [hother, hkey]
      · rfl
  | some manifest =>
      refine .entry hkey trivial ?_ ?_ ?_
      · simp [clearStoredValue, clearEntry]
      · simp [clearStoredValue, clearEntry]
      · exact clearExpiration_garbage _ _ _

theorem drop_cleanupExpired (now : ℚ) (store : PersistenceState κ ι ε)
    (item : (Nat ×ₗ κ) × ι) : Drop (Expired now) store (cleanupExpired now store item) := by
  unfold cleanupExpired
  dsimp only
  cases hkey : store.entries.get? (ofLex item.1).2 with
  | none => exact .none rfl rfl rfl
  | some manifest =>
      dsimp only
      split
      · next hexpired => exact .entry hkey hexpired.2 rfl (by rw [hexpired.1]; rfl) rfl
      · exact .none rfl rfl rfl

theorem drops_cleanupExpired (now : ℚ) (items : List ((Nat ×ₗ κ) × ι))
    (store : PersistenceState κ ι ε) :
    Drops (Expired now) store (items.foldl (cleanupExpired now) store) := by
  induction items generalizing store with
  | nil => exact .refl
  | cons item items ih => exact .head (drop_cleanupExpired now store item) (ih _)

/-! ## Reads, removals and cleanup -/

theorem Sound.shrinks_drop {json : Json ν} {issued : List (ι × WriteEntry κ ν)}
    {store next : PersistenceState κ ι ε} (h : Sound json issued store)
    (hnodup : (issued.map Prod.fst).Nodup) {key : κ} {manifest : EntryManifest ι}
    (hkey : store.entries.get? key = some manifest)
    (hentries : next.entries = store.entries.clear key)
    (hvalues : next.values = (clearStoredValue store manifest.identity).values)
    (hgarbage : next.garbage = store.garbage) : Shrinks store next where
  entries other manifest' hentry := by
    rw [hentries, OrderedMap.get?_clear] at hentry
    split at hentry
    · cases hentry
    · exact hentry
  values path chunk hchunk := by
    obtain ⟨identity, index, rfl⟩ : ∃ identity index, path = toLex (identity, index) :=
      ⟨chunkPath path, chunkIndex path, rfl⟩
    rw [hvalues, get?_clearStoredValue] at hchunk
    split at hchunk
    · cases hchunk
    · exact hchunk
  garbage row hrow := by rwa [hgarbage] at hrow
  named other manifest' hentry index := by
    rw [hentries, OrderedMap.get?_clear] at hentry
    split at hentry
    · cases hentry
    · next hother =>
        rw [hvalues, get?_clearStoredValue, if_neg]
        intro hidentity
        exact hother (h.key_unique hnodup hentry hkey hidentity)
  marked identity time hunnamed _ _ index := by
    rw [hvalues, get?_clearStoredValue, if_neg]
    exact fun hidentity => hunnamed key manifest hkey hidentity.symm

theorem shrinks_of_rows {store next : PersistenceState κ ι ε}
    (hentries : next.entries = store.entries) (hvalues : next.values = store.values)
    (hgarbage : ∀ row, (next.garbage.get? row).isSome → (store.garbage.get? row).isSome) :
    Shrinks store next where
  entries key manifest hentry := by rwa [hentries] at hentry
  values path chunk hchunk := by rwa [hvalues] at hchunk
  garbage := hgarbage
  named _ _ _ _ := by rw [hvalues]
  marked _ _ _ _ _ _ := by rw [hvalues]

theorem Sound.shrinks_of_drops {json : Json ν} {issued : List (ι × WriteEntry κ ν)}
    {store next : PersistenceState κ ι ε} (h : Sound json issued store)
    (hnodup : (issued.map Prod.fst).Nodup) {may : EntryManifest ι → Prop}
    (hdrops : Drops may store next) : Shrinks store next := by
  induction hdrops with
  | refl => exact .refl store
  | tail _ hlast ih =>
      refine ih.trans ?_
      cases hlast with
      | none hentries hvalues hgarbage =>
          exact shrinks_of_rows hentries hvalues fun row hrow => by rwa [hgarbage] at hrow
      | entry hkey _ hentries hvalues hgarbage =>
          exact (h.shrinks ih).shrinks_drop hnodup hkey hentries hvalues hgarbage

theorem Sound.shrinks_cleanupGarbage {json : Json ν} {issued : List (ι × WriteEntry κ ν)}
    {store : PersistenceState κ ι ε} (h : Sound json issued store) {item : (Nat ×ₗ ι) × Unit}
    (hitem : (store.garbage.get? item.1).isSome) :
    Shrinks store (cleanupGarbage store item) := by
  obtain ⟨time, identity, hrow⟩ : ∃ time identity, item.1 = toLex (time, identity) :=
    ⟨(ofLex item.1).1, (ofLex item.1).2, rfl⟩
  have hnext : cleanupGarbage store item =
      clearGarbage (clearStoredValue store identity) time identity := by
    rw [cleanupGarbage, hrow]
    rfl
  rw [hrow] at hitem
  rw [hnext]
  refine ⟨fun _ _ hentry => hentry, ?_, ?_, ?_, ?_⟩
  · intro path chunk hchunk
    obtain ⟨other, index, rfl⟩ : ∃ other index, path = toLex (other, index) :=
      ⟨chunkPath path, chunkIndex path, rfl⟩
    have hcleared := get?_clearStoredValue store identity other index
    change (clearStoredValue store identity).values.get? _ = _ at hchunk
    rw [hcleared] at hchunk
    split at hchunk
    · cases hchunk
    · exact hchunk
  · intro row hsome
    change ((store.garbage.clear (toLex (time, identity))).get? row).isSome at hsome
    rw [OrderedMap.get?_clear] at hsome
    split at hsome
    · cases hsome
    · exact hsome
  · intro key manifest hentry index
    change (clearStoredValue store identity).values.get? _ = _
    rw [get?_clearStoredValue, if_neg]
    rintro rfl
    rw [h.live key manifest hentry time] at hitem
    cases hitem
  · intro other time' _ honly hsome index
    change ((store.garbage.clear (toLex (time, identity))).get? (toLex (time', other))).isSome
      at hsome
    change (clearStoredValue store identity).values.get? _ = _
    rw [get?_clearStoredValue, if_neg]
    rintro rfl
    obtain rfl := honly time hitem
    simp at hsome

theorem shrinks_clear (store : PersistenceState κ ι ε) (nextEpoch : ε) :
    Shrinks store (clear nextEpoch) where
  entries _ _ h := by cases h
  values _ _ h := by cases h
  garbage _ h := by cases h
  named _ _ h := by cases h
  marked _ _ _ _ h := by cases h

theorem Sound.shrinks_cleanupGarbage_foldl {json : Json ν} {issued : List (ι × WriteEntry κ ν)}
    (items : List ((Nat ×ₗ ι) × Unit)) (hitems : (items.map Prod.fst).Nodup)
    {store : PersistenceState κ ι ε} (h : Sound json issued store)
    (hrows : ∀ item ∈ items, (store.garbage.get? item.1).isSome) :
    Shrinks store (items.foldl cleanupGarbage store) := by
  induction items generalizing store with
  | nil => exact .refl store
  | cons item items ih =>
      rw [List.map_cons, List.nodup_cons] at hitems
      have hfirst := h.shrinks_cleanupGarbage (hrows item List.mem_cons_self)
      refine hfirst.trans (ih hitems.2 (h.shrinks hfirst) ?_)
      -- The rows of the other items are left.
      intro other hother
      have hrow := hrows other (List.mem_cons_of_mem _ hother)
      change ((store.garbage.clear item.1).get? other.1).isSome
      rw [OrderedMap.get?_clear_of_ne]
      · exact hrow
      · intro heq
        exact hitems.1 (List.mem_map.mpr ⟨other, hother, heq⟩)

theorem Sound.shrinks_cleanupBatch {json : Json ν} {issued : List (ι × WriteEntry κ ν)}
    {store : PersistenceState κ ι ε} (h : Sound json issued store)
    (hnodup : (issued.map Prod.fst).Nodup) (now : ℚ) :
    Shrinks store (cleanupBatch now store).1 := by
  unfold cleanupBatch
  dsimp only
  generalize (store.expires.rows fun row => (ofLex row).1 < timestamp now + 1).take
    cleanupBatchSize = expired
  have hdrops := drops_cleanupExpired now expired store
  have hshrinks := h.shrinks_of_drops hnodup hdrops
  refine hshrinks.trans (Sound.shrinks_cleanupGarbage_foldl _ ?_ (h.shrinks hshrinks) ?_)
  · rw [List.map_take]
    refine (List.take_sublist _ _).nodup ?_
    exact ((store.garbage.rows_sorted _).map Prod.fst fun _ _ hlt => hlt.ne)
  · intro item hitem
    obtain ⟨-, hrow⟩ := OrderedMap.mem_rows.mp (List.mem_of_mem_take hitem)
    rw [hdrops.garbage]
    exact Option.isSome_iff_exists.mpr ⟨_, hrow⟩

end

end FoundationDbEffect.Persistence.Backing
