import FoundationDbEffect.Persistence.BackingLive

/-!
# The backing persistence is a map with expiry

The contents of a store are what the publications, the removals and the clears of its history
make of an empty map, each publication at once and for all of its keys. Reads return what the
contents hold and has not expired. Everything else that a run does changes no contents.
-/

namespace FoundationDbEffect.Persistence.Backing

open FoundationDbEffect.Foundation

/-! ## Contents -/

/-- What takes effect: the last write of a call, a removal, or a clear. -/
inductive Commit (κ ν ω : Type) where
  | write (name : ω) (entries : List (WriteEntry κ ν)) (preparedAt : ℚ)
  | remove (key : κ)
  | clear

abbrev Contents (κ ν : Type) := κ → Option (ν × Option Int)

section

variable {κ ι ν ε ω : Type} [LinearOrder κ] [LinearOrder ι]

def writeAll (preparedAt : ℚ) (contents : Contents κ ν) (entries : List (WriteEntry κ ν)) :
    Contents κ ν :=
  entries.foldl (fun contents entry =>
    Function.update contents entry.key (some (entry.value, expirationFor entry.ttl preparedAt)))
    contents

def Commit.apply (contents : Contents κ ν) : Commit κ ν ω → Contents κ ν
  | .write _ entries preparedAt => writeAll preparedAt contents entries
  | .remove key => Function.update contents key none
  | .clear => fun _ => none

def contents (history : List (Commit κ ν ω)) : Contents κ ν :=
  history.foldl Commit.apply fun _ => none

def visible (contents : Contents κ ν) (now : ℚ) (key : κ) : Option ν :=
  match contents key with
  | none => none
  | some (value, expires) => if isExpired expires now then none else some value

variable [DecidableEq ε] [DecidableEq ω]

/-- What an event commits: a publication that does not fail, a removal, or a clear. -/
def World.commits (world : World κ ι ν ε ω) : Event κ ι ν ε ω → List (Commit κ ν ω)
  | .publish name _ =>
    match world.writers name with
    | none => []
    | some writer =>
      match writer.phase with
      | .publishing epoch replacedAt _ =>
        if (publishEntries world.store writer.prepared epoch replacedAt).isSome then
          [.write name writer.entries writer.preparedAt]
        else []
      | _ => []
  | .remove key => [.remove key]
  | .clear _ => [.clear]
  | _ => []

def Event.Known : Event κ ι ν ε ω → Prop
  | .stage _ unknown => unknown = false
  | .publish _ unknown => unknown = false
  | _ => True

def Writer.committed (writer : Writer κ ι ν ε) : List (List (WriteEntry κ ν) × ℚ) :=
  match writer.phase with
  | .finished true => [(writer.entries, writer.preparedAt)]
  | _ => []

def Commit.writeOf (name : ω) : Commit κ ν ω → Option (List (WriteEntry κ ν) × ℚ)
  | .write other entries preparedAt => if other = name then some (entries, preparedAt) else none
  | _ => none

end

/-! ## The last entry of each key -/

section

variable {κ ν : Type} [LinearOrder κ] {preparedAt : ℚ}

theorem writeAll_of_not_mem {entries : List (WriteEntry κ ν)} (contents : Contents κ ν) {key : κ}
    (h : key ∉ entries.map WriteEntry.key) : writeAll preparedAt contents entries key = contents key := by
  induction entries generalizing contents with
  | nil => rfl
  | cons entry entries ih =>
      rw [List.map_cons, List.mem_cons, not_or] at h
      rw [writeAll, List.foldl_cons]
      refine (ih _ h.2).trans ?_
      exact Function.update_of_ne h.1 _ _

theorem writeAll_update {entries : List (WriteEntry κ ν)} (contents : Contents κ ν) {key : κ}
    (value : Option (ν × Option Int)) (h : key ∉ entries.map WriteEntry.key) :
    writeAll preparedAt (Function.update contents key value) entries =
      Function.update (writeAll preparedAt contents entries) key value := by
  induction entries generalizing contents with
  | nil => rfl
  | cons entry entries ih =>
      rw [List.map_cons, List.mem_cons, not_or] at h
      rw [writeAll, List.foldl_cons, Function.update_comm h.1]
      exact ih _ h.2

theorem writeAll_setLatest {entries : List (WriteEntry κ ν)}
    (hnodup : (entries.map WriteEntry.key).Nodup) (contents : Contents κ ν)
    (entry : WriteEntry κ ν) :
    writeAll preparedAt contents (setLatest entries entry) =
      Function.update (writeAll preparedAt contents entries) entry.key
        (some (entry.value, expirationFor entry.ttl preparedAt)) := by
  induction entries generalizing contents with
  | nil => rfl
  | cons first rest ih =>
      rw [List.map_cons, List.nodup_cons] at hnodup
      rw [setLatest]
      split
      · next hkey =>
          change writeAll preparedAt (Function.update contents entry.key _) rest =
            Function.update (writeAll preparedAt (Function.update contents first.key _) rest)
              entry.key _
          rw [← hkey, writeAll_update _ _ hnodup.1, writeAll_update _ _ hnodup.1,
            Function.update_idem]
      · exact ih hnodup.2 _

theorem writeAll_latestEntries (contents : Contents κ ν) (entries : List (WriteEntry κ ν)) :
    writeAll preparedAt contents (latestEntries entries) = writeAll preparedAt contents entries := by
  have hfold : ∀ start : List (WriteEntry κ ν), (start.map WriteEntry.key).Nodup →
      writeAll preparedAt contents (entries.foldl setLatest start) =
        writeAll preparedAt (writeAll preparedAt contents start) entries := by
    induction entries with
    | nil => exact fun _ _ => rfl
    | cons entry entries ih =>
        intro start hstart
        rw [List.foldl_cons, ih _ (nodup_setLatest hstart entry), writeAll_setLatest hstart]
        rfl
  exact hfold [] .nil

theorem writeAll_of_mem {entries : List (WriteEntry κ ν)}
    (hnodup : (entries.map WriteEntry.key).Nodup) (contents : Contents κ ν)
    {entry : WriteEntry κ ν} (hentry : entry ∈ entries) :
    writeAll preparedAt contents entries entry.key =
      some (entry.value, expirationFor entry.ttl preparedAt) := by
  induction entries generalizing contents with
  | nil => cases hentry
  | cons first rest ih =>
      rw [List.map_cons, List.nodup_cons] at hnodup
      rcases List.mem_cons.mp hentry with rfl | hrest
      · rw [writeAll, List.foldl_cons]
        refine (writeAll_of_not_mem _ hnodup.1).trans ?_
        exact Function.update_self _ _ _
      · exact ih hnodup.2 _ hrest

end

/-! ## Entries that agree with contents -/

section

variable {κ ι ν ε : Type} [LinearOrder κ] [LinearOrder ι] {json : Json ν}
  {issued : List (ι × WriteEntry κ ν)} {store next : PersistenceState κ ι ε} {now : ℚ}
  {map : Contents κ ν}

/-- An entry holds what the contents hold, and what the contents hold without an entry has
expired. -/
structure Agrees (issued : List (ι × WriteEntry κ ν)) (store : PersistenceState κ ι ε) (now : ℚ)
    (map : Contents κ ν) : Prop where
  entry : ∀ key manifest, store.entries.get? key = some manifest →
    ∃ entry, (manifest.identity, entry) ∈ issued ∧ map key = some (entry.value, manifest.expires)
  absent : ∀ key, store.entries.get? key = none → ∀ value expires, map key = some (value, expires) →
    isExpired expires now = true

def Expires (now : ℚ) (store next : PersistenceState κ ι ε) : Prop :=
  ∀ key, next.entries.get? key = store.entries.get? key ∨
    next.entries.get? key = none ∧
      ∃ manifest, store.entries.get? key = some manifest ∧ isExpired manifest.expires now = true

theorem isExpired_mono {expires : Option Int} {later : ℚ} (h : isExpired expires now = true)
    (hle : now ≤ later) : isExpired expires later = true := by
  cases expires with
  | none => cases h
  | some expires => exact decide_eq_true ((of_decide_eq_true h : (expires : ℚ) ≤ now).trans hle)

theorem Expires.refl (now : ℚ) (store : PersistenceState κ ι ε) : Expires now store store :=
  fun _ => .inl rfl

theorem expires_of_entries (h : next.entries = store.entries) : Expires now store next :=
  fun _ => .inl (by rw [h])

theorem Expires.trans {third : PersistenceState κ ι ε} (h : Expires now store next)
    (h' : Expires now next third) : Expires now store third := by
  intro key
  rcases h' key with hsame' | ⟨hgone, manifest, hmanifest, hexpired⟩
  · rcases h key with hsame | ⟨hgone, hrest⟩
    · exact .inl (hsame'.trans hsame)
    · exact .inr ⟨hsame'.trans hgone, hrest⟩
  · rcases h key with hsame | ⟨hgone', -⟩
    · exact .inr ⟨hgone, manifest, hsame ▸ hmanifest, hexpired⟩
    · rw [hgone'] at hmanifest
      cases hmanifest

theorem Expires.drop {key : κ} {manifest : EntryManifest ι}
    (hkey : store.entries.get? key = some manifest)
    (hexpired : isExpired manifest.expires now = true)
    (hentries : next.entries = store.entries.clear key) : Expires now store next := by
  intro other
  rw [hentries, OrderedMap.get?_clear]
  split
  · next hother =>
      subst hother
      exact .inr ⟨rfl, manifest, hkey, hexpired⟩
  · exact .inl rfl

theorem Agrees.expires (h : Agrees issued store now map) (hnext : Expires now store next) :
    Agrees issued next now map where
  entry key manifest hkey := by
    rcases hnext key with hsame | ⟨hgone, -⟩
    · exact h.entry key manifest (hsame ▸ hkey)
    · rw [hgone] at hkey
      cases hkey
  absent key hkey value expires hmap := by
    rcases hnext key with hsame | ⟨-, manifest, hmanifest, hexpired⟩
    · exact h.absent key (hsame ▸ hkey) value expires hmap
    · obtain ⟨entry, -, hentry⟩ := h.entry key manifest hmanifest
      rw [hmap] at hentry
      cases hentry
      exact hexpired

theorem Agrees.later {later : ℚ} (h : Agrees issued store now map) (hle : now ≤ later) :
    Agrees issued store later map :=
  ⟨h.entry, fun key hkey value expires hmap =>
    isExpired_mono (h.absent key hkey value expires hmap) hle⟩

theorem Agrees.mono {more : List (ι × WriteEntry κ ν)} (h : Agrees issued store now map)
    (hmore : issued ⊆ more) : Agrees more store now map where
  entry key manifest hkey := by
    obtain ⟨entry, hmem, hentry⟩ := h.entry key manifest hkey
    exact ⟨entry, hmore hmem, hentry⟩
  absent := h.absent

/-! ## Reads and cleanup -/

theorem expires_of_drops (h : Drops (Expired now) store next) : Expires now store next := by
  induction h with
  | refl => exact .refl now store
  | tail _ hlast ih =>
      refine ih.trans ?_
      cases hlast with
      | none hentries _ _ => exact expires_of_entries hentries
      | entry hkey hexpired hentries _ _ => exact .drop hkey hexpired hentries

theorem expireMany_live (keys : List κ) (lookup : κ → Option (EntryManifest ι)) (now : ℚ)
    (store : PersistenceState κ ι ε) (key : κ) (manifest : EntryManifest ι) :
    (key, manifest) ∈ (expireMany now (keys.map fun key => (key, lookup key)) store).2 ↔
      key ∈ keys ∧ lookup key = some manifest ∧ isExpired manifest.expires now = false := by
  induction keys generalizing store with
  | nil => simp [expireMany]
  | cons first keys ih =>
      rw [List.map_cons]
      cases hmanifest : lookup first with
      | none =>
          rw [expireMany, ih, List.mem_cons]
          constructor
          · exact fun h => ⟨.inr h.1, h.2⟩
          · rintro ⟨rfl | hmem, hrest⟩
            · rw [hmanifest] at hrest
              cases hrest.1
            · exact ⟨hmem, hrest⟩
      | some old =>
          rw [expireMany]
          split
          · next hexpired =>
              rw [ih, List.mem_cons]
              constructor
              · exact fun h => ⟨.inr h.1, h.2⟩
              · rintro ⟨rfl | hmem, hrest⟩
                · rw [hmanifest] at hrest
                  obtain ⟨heq, hlive⟩ := hrest
                  cases heq
                  rw [hexpired] at hlive
                  cases hlive
                · exact ⟨hmem, hrest⟩
          · next hlive =>
              have hstep := ih store
              generalize expireMany now (keys.map fun key => (key, lookup key)) store = rest
                at hstep ⊢
              obtain ⟨state, live⟩ := rest
              dsimp only at hstep ⊢
              rw [List.mem_cons, hstep, List.mem_cons]
              constructor
              · rintro (heq | h)
                · cases heq
                  exact ⟨.inl rfl, hmanifest, Bool.eq_false_iff.mpr hlive⟩
                · exact ⟨.inr h.1, h.2⟩
              · rintro ⟨rfl | hmem, hrest⟩
                · rw [hmanifest] at hrest
                  cases hrest.1
                  exact .inl rfl
                · exact .inr ⟨hmem, hrest⟩

theorem expires_cleanupBatch (now : ℚ) (store : PersistenceState κ ι ε) :
    Expires now store (cleanupBatch now store).1 := by
  have hgarbage : ∀ (items : List ((Nat ×ₗ ι) × Unit)) (state : PersistenceState κ ι ε),
      (items.foldl cleanupGarbage state).entries = state.entries := by
    intro items
    induction items with
    | nil => exact fun _ => rfl
    | cons item items ih => exact fun state => ih _
  unfold cleanupBatch
  dsimp only
  exact (expires_of_drops (drops_cleanupExpired now _ store)).trans
    (expires_of_entries (hgarbage _ _))

theorem readStoredValue_of_sound (hsound : Sound json issued store)
    (hnodup : (issued.map Prod.fst).Nodup)
    (hjson : ∀ value encoded, json.stringify value = some encoded → json.parse encoded = some value)
    {key : κ} {manifest : EntryManifest ι} {entry : WriteEntry κ ν}
    (hkey : store.entries.get? key = some manifest) (hentry : (manifest.identity, entry) ∈ issued) :
    readStoredValue json store key manifest = .ok entry.value := by
  obtain ⟨chunks, ⟨entry', encoded, hentry', -, hencoded, rfl⟩, hvalues⟩ :=
    hsound.named key manifest hkey
  obtain rfl := entry_unique hnodup hentry hentry'
  have hread : readChunkedValue store.values manifest.identity = some encoded := by
    rw [← readChunkedValue_write manifest.identity encoded store.values]
    apply readChunkedValue_congr
    intro index
    rw [hvalues, get?_writeChunkedValue, if_pos rfl]
  unfold readStoredValue
  rw [hread]
  dsimp only
  rw [hjson entry.value encoded hencoded]

theorem Agrees.visible_none (h : Agrees issued store now map) {key : κ}
    (hkey : ∀ manifest, store.entries.get? key = some manifest →
      isExpired manifest.expires now = true) : visible map now key = none := by
  unfold visible
  cases hmap : map key with
  | none => rfl
  | some item =>
      obtain ⟨value, expires⟩ := item
      have hexpired : isExpired expires now = true := by
        cases hentry : store.entries.get? key with
        | none => exact h.absent key hentry value expires hmap
        | some manifest =>
            obtain ⟨entry, -, hheld⟩ := h.entry key manifest hentry
            rw [hmap] at hheld
            cases hheld
            exact hkey manifest hentry
      exact if_pos hexpired

omit [LinearOrder κ] in
theorem visible_of_live {key : κ} {value : ν} {expires : Option Int}
    (hmap : map key = some (value, expires)) (hlive : isExpired expires now = false) :
    visible map now key = some value := by
  simp [visible, hmap, hlive]

theorem resolveEntry_visible (hsound : Sound json issued store)
    (hnodup : (issued.map Prod.fst).Nodup)
    (hjson : ∀ value encoded, json.stringify value = some encoded → json.parse encoded = some value)
    (hagrees : Agrees issued store now map) (key : κ) :
    ∃ next, resolveEntry json now store key = .ok (next, visible map now key) := by
  unfold resolveEntry
  cases hkey : store.entries.get? key with
  | none =>
      refine ⟨store, ?_⟩
      rw [hagrees.visible_none fun manifest h => by rw [hkey] at h; cases h]
  | some manifest =>
      dsimp only
      split
      · next hexpired =>
          rw [hagrees.visible_none fun other h => by rw [hkey] at h; cases h; exact hexpired]
          exact ⟨_, rfl⟩
      · next hlive =>
          obtain ⟨entry, hmem, hmap⟩ := hagrees.entry key manifest hkey
          rw [readStoredValue_of_sound hsound hnodup hjson hkey hmem,
            visible_of_live hmap (Bool.eq_false_iff.mpr hlive)]
          exact ⟨store, rfl⟩

omit [LinearOrder ι] in
theorem mapM_find? {read : κ × EntryManifest ι → Except (PersistenceError κ) ν}
    {value : κ → Option ν} (live : List (κ × EntryManifest ι))
    (h : ∀ item ∈ live, ∃ loaded, read item = .ok loaded ∧ value item.1 = some loaded) :
    ∃ loaded, live.mapM read = .ok loaded ∧ ∀ key,
      (((live.map Prod.fst).zip loaded).find? fun item => item.1 = key).map Prod.snd =
        if key ∈ live.map Prod.fst then value key else none := by
  induction live with
  | nil => exact ⟨[], rfl, fun _ => rfl⟩
  | cons item live ih =>
      obtain ⟨first, hfirst, hvalue⟩ := h item List.mem_cons_self
      obtain ⟨rest, hrest, hfind⟩ := ih fun other hother => h other (List.mem_cons_of_mem _ hother)
      refine ⟨first :: rest, ?_, ?_⟩
      · rw [List.mapM_cons, hfirst, hrest]
        rfl
      · intro key
        rw [List.map_cons, List.zip_cons_cons, List.find?_cons]
        by_cases hkey : item.1 = key
        · subst hkey
          simp [hvalue]
        · rw [decide_eq_false hkey]
          dsimp only
          rw [hfind]
          refine if_congr ?_ rfl rfl
          simp [Ne.symm hkey]

theorem getMany_visible (hsound : Sound json issued store) (hnodup : (issued.map Prod.fst).Nodup)
    (hjson : ∀ value encoded, json.stringify value = some encoded → json.parse encoded = some value)
    (hagrees : Agrees issued store now map) (keys : List κ) :
    ∃ next, getMany json now store keys = .ok (next, keys.map (visible map now)) := by
  have hdrops := drops_expireMany now keys.eraseDups (nodup_eraseDups keys) store.entries.get?
    fun _ _ => rfl
  have hshrinks := hsound.shrinks_of_drops hnodup hdrops
  have hexpires := expires_of_drops hdrops
  have hlive := expireMany_live keys.eraseDups store.entries.get? now store
  unfold getMany
  dsimp only
  rw [zip_lookup]
  generalize expireMany now (keys.eraseDups.map fun key => (key, store.entries.get? key)) store =
    expired at hdrops hshrinks hexpires hlive
  obtain ⟨next, live⟩ := expired
  dsimp only at hshrinks hexpires hlive ⊢
  have hread : ∀ item ∈ live, ∃ loaded, readStoredValue json next item.1 item.2 = .ok loaded ∧
      visible map now item.1 = some loaded := by
    rintro ⟨key, manifest⟩ hmem
    obtain ⟨-, hkey, hnot⟩ := (hlive key manifest).mp hmem
    obtain ⟨entry, hentry, hmap⟩ := hagrees.entry key manifest hkey
    refine ⟨entry.value, ?_, visible_of_live hmap hnot⟩
    refine readStoredValue_of_sound (hsound.shrinks hshrinks) hnodup hjson ?_ hentry
    -- An entry that has not expired is still there.
    rcases hexpires key with hsame | ⟨-, old, hold, hexpired⟩
    · exact hsame.trans hkey
    · rw [hkey] at hold
      cases hold
      rw [hnot] at hexpired
      cases hexpired
  obtain ⟨loaded, hloaded, hfind⟩ := mapM_find? live hread
  refine ⟨next, ?_⟩
  rw [hloaded]
  change Except.ok (next, keys.map _) = _
  congr 2
  refine List.map_congr_left ?_
  intro key hkey
  rw [hfind]
  split
  · rfl
  · next hnot =>
      refine (hagrees.visible_none ?_).symm
      intro manifest hmanifest
      rw [← Bool.not_eq_false]
      intro hfresh
      refine hnot (List.mem_map.mpr ⟨(key, manifest), ?_, rfl⟩)
      exact (hlive key manifest).mpr ⟨List.mem_eraseDups.mpr hkey, hmanifest, hfresh⟩

end

/-! ## Publications -/

section

variable {κ ι ν ε : Type} [LinearOrder κ] [LinearOrder ι] [DecidableEq ε] {json : Json ν}
  {lengths : Lengths κ ι} {issued : List (ι × WriteEntry κ ν)} {store next : PersistenceState κ ι ε}
  {now : ℚ} {map : Contents κ ν} {writer : Writer κ ι ν ε}

theorem entries_publishEntries {prepared : List (PreparedEntry κ ι)}
    {epoch : Option (StoreEpoch ε)} {replacedAt : ℚ}
    (hkeys : (prepared.map PreparedEntry.key).Nodup)
    (h : publishEntries store prepared epoch replacedAt = some next) :
    (∀ entry ∈ prepared, next.entries.get? entry.key = some ⟨entry.identity, entry.expires⟩) ∧
      ∀ key, (∀ entry ∈ prepared, entry.key ≠ key) →
        next.entries.get? key = store.entries.get? key := by
  rcases publishEntries_cases h with ⟨-, hrepublished⟩ | ⟨-, -, rfl⟩ | ⟨-, rfl⟩
  · rw [hrepublished.entries]
    exact ⟨hrepublished.published, fun _ _ => rfl⟩
  · exact ⟨fun entry hentry => publishAll_entries_of_mem hkeys store hentry,
      fun key hne => publishAll_entries_of_ne prepared store hne⟩
  · refine ⟨fun entry hentry => publishAll_entries_of_mem hkeys _ hentry, fun key hne => ?_⟩
    rw [publishAll_entries_of_ne prepared _ hne, apply_entries]

structure Planned (issued : List (ι × WriteEntry κ ν)) (writer : Writer κ ι ν ε) : Prop where
  source : ∀ entry ∈ writer.prepared, ∃ source ∈ latestEntries writer.entries,
    (entry.identity, source) ∈ issued ∧ entry.key = source.key ∧
    entry.expires = expirationFor source.ttl writer.preparedAt
  prepared : ∀ source ∈ latestEntries writer.entries,
    ∃ entry ∈ writer.prepared, entry.key = source.key

omit [DecidableEq ε] [LinearOrder ι] in
theorem Planned.mono {more : List (ι × WriteEntry κ ν)} (h : Planned issued writer)
    (hmore : issued ⊆ more) : Planned more writer where
  source entry hentry := by
    obtain ⟨source, hsource, hmem, hrest⟩ := h.source entry hentry
    exact ⟨source, hsource, hmore hmem, hrest⟩
  prepared := h.prepared

omit [DecidableEq ε] [LinearOrder ι] in
theorem planned_of_prepareEntries {entries : List (WriteEntry κ ν)} {identities : List ι}
    {prepared : List (PreparedEntry κ ι)} {phase : Phase ι ε}
    (h : prepareEntries json lengths now entries identities = .ok prepared)
    (hlength : identities.length = (latestEntries entries).length)
    (hissued : identities.zip (latestEntries entries) ⊆ issued) :
    Planned issued ({ entries, preparedAt := now, prepared, phase } : Writer κ ι ν ε) where
  source entry hentry := by
    obtain ⟨⟨source, identity⟩, hmem, hprepares⟩ :=
      forall₂_mem_right (forall₂_of_prepareEntries h) hentry
    have hzip : (identity, source) ∈ identities.zip (latestEntries entries) := by
      rw [← List.zip_swap]
      exact List.mem_map.mpr ⟨_, hmem, rfl⟩
    refine ⟨source, (List.of_mem_zip hmem).1, ?_, hprepares.key, hprepares.expires⟩
    rw [hprepares.identity]
    exact hissued hzip
  prepared source hsource := by
    have hkeys : source.key ∈ prepared.map PreparedEntry.key := by
      rw [map_eq_of_forall₂ (forall₂_of_prepareEntries h) fun _ _ hprepares => hprepares.key]
      rw [← List.map_fst_zip hlength.ge] at hsource
      obtain ⟨pair, hpair, rfl⟩ := List.mem_map.mp hsource
      exact List.mem_map.mpr ⟨pair, hpair, rfl⟩
    exact List.mem_map.mp hkeys

omit [LinearOrder ι] [DecidableEq ε] in
/-- What a publication leaves under its keys is what the write of all entries leaves there. -/
theorem Planned.writeAll (h : Planned issued writer) {entry : PreparedEntry κ ι}
    (hentry : entry ∈ writer.prepared) (map : Contents κ ν) :
    ∃ source, (entry.identity, source) ∈ issued ∧
      writeAll writer.preparedAt map writer.entries entry.key =
        some (source.value, entry.expires) := by
  obtain ⟨source, hsource, hmem, hkey, hexpires⟩ := h.source entry hentry
  refine ⟨source, hmem, ?_⟩
  rw [← writeAll_latestEntries, hkey, hexpires]
  exact writeAll_of_mem (nodup_latestEntries writer.entries) map hsource

theorem Agrees.publish (h : Agrees issued store now map) (hplanned : Planned issued writer)
    (hkeys : (writer.prepared.map PreparedEntry.key).Nodup) {epoch : Option (StoreEpoch ε)}
    {replacedAt : ℚ}
    (hpublish : publishEntries store writer.prepared epoch replacedAt = some next) :
    Agrees issued next now (writeAll writer.preparedAt map writer.entries) := by
  obtain ⟨hwritten, hkept⟩ := entries_publishEntries hkeys hpublish
  have hother : ∀ key, (∀ entry ∈ writer.prepared, entry.key ≠ key) →
      Backing.writeAll writer.preparedAt map writer.entries key = map key := by
    intro key hne
    rw [← writeAll_latestEntries]
    refine writeAll_of_not_mem map ?_
    rintro hmem
    obtain ⟨source, hsource, rfl⟩ := List.mem_map.mp hmem
    obtain ⟨entry, hentry, hkey⟩ := hplanned.prepared source hsource
    exact hne entry hentry hkey
  have hcases : ∀ key, (∃ entry ∈ writer.prepared, entry.key = key) ∨
      ∀ entry ∈ writer.prepared, entry.key ≠ key := by
    intro key
    by_cases hkey : ∃ entry ∈ writer.prepared, entry.key = key
    · exact .inl hkey
    · exact .inr fun entry hentry heq => hkey ⟨entry, hentry, heq⟩
  constructor
  · intro key manifest hmanifest
    rcases hcases key with ⟨entry, hentry, rfl⟩ | hne
    · rw [hwritten entry hentry] at hmanifest
      cases hmanifest
      exact hplanned.writeAll hentry map
    · rw [hkept key hne] at hmanifest
      rw [hother key hne]
      exact h.entry key manifest hmanifest
  · intro key hnone value expires hmap
    rcases hcases key with ⟨entry, hentry, rfl⟩ | hne
    · rw [hwritten entry hentry] at hnone
      cases hnone
    · rw [hkept key hne] at hnone
      rw [hother key hne] at hmap
      exact h.absent key hnone value expires hmap

omit [DecidableEq ε] in
theorem Agrees.remove (h : Agrees issued store now map) (key : κ) :
    Agrees issued (remove store key) now (Function.update map key none) := by
  have hentries : ∀ other, (Backing.remove store key).entries.get? other =
      if other = key then none else store.entries.get? other := by
    intro other
    unfold Backing.remove
    cases store.entries.get? key with
    | none => exact get?_clearEntry store key other
    | some manifest =>
        rw [get?_clearEntry]
        simp [clearStoredValue]
  constructor
  · intro other manifest hmanifest
    rw [hentries] at hmanifest
    split at hmanifest
    · cases hmanifest
    · next hne =>
        rw [Function.update_of_ne hne]
        exact h.entry other manifest hmanifest
  · intro other hnone value expires hmap
    rw [hentries] at hnone
    by_cases hkey : other = key
    · subst hkey
      rw [Function.update_self] at hmap
      cases hmap
    · rw [if_neg hkey] at hnone
      rw [Function.update_of_ne hkey] at hmap
      exact h.absent other hnone value expires hmap

omit [DecidableEq ε] in
theorem agrees_clear (issued : List (ι × WriteEntry κ ν)) (nextEpoch : ε) (now : ℚ) :
    Agrees issued (clear nextEpoch) now fun _ : κ => (none : Option (ν × Option Int)) where
  entry _ _ h := nomatch h
  absent _ _ _ _ h := nomatch h

end

/-! ## Runs -/

section

variable {κ ι ν ε ω : Type} [LinearOrder κ] [LinearOrder ι] [DecidableEq ε] [DecidableEq ω]
  {json : Json ν} {lengths : Lengths κ ι} {world next : World κ ι ν ε ω}
  {history : List (Commit κ ν ω)} {name : ω} {writer : Writer κ ι ν ε}

/-- A call that has prepared its entries, and whose publication has not run before. -/
def PlanSound (issued : List (ι × WriteEntry κ ν)) (writer : Writer κ ι ν ε) : Prop :=
  match writer.phase with
  | .staging _ _ _ => Planned issued writer
  | .publishing _ _ again => Planned issued writer ∧ again = false
  | _ => True

def World.committed (world : World κ ι ν ε ω) (name : ω) : List (List (WriteEntry κ ν) × ℚ) :=
  match world.writers name with
  | none => []
  | some writer => writer.committed

structure MapSound (json : Json ν) (world : World κ ι ν ε ω) (history : List (Commit κ ν ω)) :
    Prop where
  sound : WorldSound json world
  agrees : Agrees world.issued world.store world.now (contents history)
  plans : ∀ name writer, world.writers name = some writer → PlanSound world.issued writer
  committed : ∀ name, history.filterMap (Commit.writeOf name) = world.committed name

omit [DecidableEq ε] in
theorem MapSound.empty : MapSound json ({} : World κ ι ν ε ω) [] where
  sound := .empty
  agrees := {
    entry := fun _ _ h => nomatch h
    absent := fun _ _ _ _ h => nomatch h }
  plans _ _ h := nomatch h
  committed _ := rfl

omit [DecidableEq ε] in
/-- Nothing has run before that runs again. -/
theorem MapSound.replaySafe (h : MapSound json world history) (event : Event κ ι ν ε ω) :
    ReplaySafe world event := by
  cases event with
  | publish name unknown =>
      intro writer replacedAt hwriter hphase
      have hplan := h.plans name writer hwriter
      rw [PlanSound, hphase] at hplan
      cases hplan.2
  | _ => trivial

omit [DecidableEq ω] in
theorem contents_append (history : List (Commit κ ν ω)) (commit : Commit κ ν ω) :
    contents (history ++ [commit]) = commit.apply (contents history) := by
  rw [contents, List.foldl_append]
  rfl

omit [DecidableEq ε] in
theorem World.committed_setPhase (world : World κ ι ν ε ω) (name : ω) (writer : Writer κ ι ν ε)
    (phase : Phase ι ε) (other : ω) :
    (world.setPhase name writer phase).committed other =
      if other = name then ({ writer with phase } : Writer κ ι ν ε).committed
      else world.committed other := by
  unfold World.committed World.setPhase
  dsimp only
  split_ifs with hname
  · rw [hname, Function.update_self]
  · rw [Function.update_of_ne hname]

omit [LinearOrder κ] [LinearOrder ι] [DecidableEq ε] in
theorem Phase.committed_start (writer : Writer κ ι ν ε) (now : ℚ) (plan : WritePlan ι) :
    ({ writer with phase := .start now plan } : Writer κ ι ν ε).committed = [] := by
  cases plan with
  | staged batches complete => cases batches <;> rfl
  | _ => rfl

omit [LinearOrder κ] [LinearOrder ι] [DecidableEq ε] in
theorem Phase.committed_staged (writer : Writer κ ι ν ε) (now : ℚ) (epoch : StoreEpoch ε)
    (complete : Bool) (batches : List (List (StagingMutation ι))) :
    ({ writer with phase := .staged now epoch complete batches } : Writer κ ι ν ε).committed = [] := by
  cases batches with
  | nil => cases complete <;> rfl
  | cons batch batches => rfl

omit [DecidableEq ε] [DecidableEq ω] in
theorem World.committed_of_writer (hwriter : world.writers name = some writer) :
    world.committed name = writer.committed := by
  rw [World.committed, hwriter]

omit [DecidableEq ε] in
theorem MapSound.expires (h : MapSound json world history) {store : PersistenceState κ ι ε}
    (hsound : WorldSound json { world with store })
    (hstore : Expires world.now world.store store) :
    MapSound json { world with store } history :=
  ⟨hsound, h.agrees.expires hstore, h.plans, h.committed⟩

omit [DecidableEq ε] in
theorem MapSound.setPhase (h : MapSound json world history)
    (hwriter : world.writers name = some writer) {store : PersistenceState κ ι ε}
    {phase : Phase ι ε} (hsound : WorldSound json ({ world with store }.setPhase name writer phase))
    (hstore : Expires world.now world.store store)
    (hplan : PlanSound world.issued { writer with phase })
    (hbefore : writer.committed = []) (hnow : ({ writer with phase } : Writer κ ι ν ε).committed = []) :
    MapSound json ({ world with store }.setPhase name writer phase) history where
  sound := hsound
  agrees := h.agrees.expires hstore
  plans other writer' hother := by
    change Function.update world.writers name _ other = some writer' at hother
    rcases eq_or_ne other name with rfl | hname
    · rw [Function.update_self] at hother
      cases hother
      exact hplan
    · rw [Function.update_of_ne hname] at hother
      exact h.plans other writer' hother
  committed other := by
    rw [World.committed_setPhase, h.committed]
    split_ifs with hname
    · rw [hname, World.committed_of_writer hwriter, hbefore, hnow]
    · rfl

theorem MapSound.publish (h : MapSound json world history)
    (hwriter : world.writers name = some writer) {epoch : Option (StoreEpoch ε)} {replacedAt : ℚ}
    {again : Bool} (hphase : writer.phase = .publishing epoch replacedAt again)
    {store : PersistenceState κ ι ε}
    (hpublish : publishEntries world.store writer.prepared epoch replacedAt = some store)
    (hsound : WorldSound json ({ world with store }.setPhase name writer (.finished true))) :
    MapSound json ({ world with store }.setPhase name writer (.finished true))
      (history ++ [.write name writer.entries writer.preparedAt]) where
  sound := hsound
  agrees := by
    have hplan := h.plans name writer hwriter
    rw [PlanSound, hphase] at hplan
    rw [contents_append]
    exact h.agrees.publish hplan.1 (h.sound.prepared name writer hwriter).keys hpublish
  plans other writer' hother := by
    change Function.update world.writers name _ other = some writer' at hother
    rcases eq_or_ne other name with rfl | hname
    · rw [Function.update_self] at hother
      cases hother
      trivial
    · rw [Function.update_of_ne hname] at hother
      exact h.plans other writer' hother
  committed other := by
    rw [World.committed_setPhase, List.filterMap_append, h.committed]
    split_ifs with hname
    · rw [hname, World.committed_of_writer hwriter, Writer.committed, hphase]
      simp [Commit.writeOf, Writer.committed]
    · simp [Commit.writeOf, Ne.symm hname, World.committed]

omit [DecidableEq ε] in
theorem MapSound.prepare (h : MapSound json world history)
    (hwriter : world.writers name = some writer) (hphase : writer.phase = .preparing)
    {identities : List ι} (hlength : identities.length = (latestEntries writer.entries).length)
    (hsound : WorldSound json (world.prepare json lengths name writer identities)) :
    MapSound json (world.prepare json lengths name writer identities) history := by
  have hbefore : writer.committed = [] := by rw [Writer.committed, hphase]
  unfold World.prepare at hsound ⊢
  cases hprepare : prepareEntries json lengths world.now writer.entries identities with
  | error error =>
      rw [hprepare] at hsound
      exact h.setPhase hwriter hsound (.refl _ _) trivial hbefore rfl
  | ok prepared =>
      rw [hprepare] at hsound
      dsimp only at hsound ⊢
      refine ⟨hsound, h.agrees.mono (List.subset_append_right _ _), ?_, ?_⟩
      · intro other writer' hother
        change Function.update world.writers name _ other = some writer' at hother
        rcases eq_or_ne other name with rfl | hname
        · rw [Function.update_self] at hother
          cases hother
          have hplanned : ∀ phase : Phase ι ε, Planned
              (identities.zip (latestEntries writer.entries) ++ world.issued)
              ({ writer with preparedAt := world.now, prepared, phase } : Writer κ ι ν ε) :=
            fun _ => planned_of_prepareEntries hprepare hlength (List.subset_append_left _ _)
          unfold PlanSound
          dsimp only
          cases writePlan lengths prepared with
          | direct => exact ⟨hplanned _, rfl⟩
          | tooLarge => trivial
          | staged batches complete =>
              cases batches with
              | nil => trivial
              | cons batch batches => exact hplanned _
        · rw [Function.update_of_ne hname] at hother
          have hplan := h.plans other writer' hother
          unfold PlanSound at hplan ⊢
          split at hplan
          · exact hplan.mono (List.subset_append_right _ _)
          · exact ⟨hplan.1.mono (List.subset_append_right _ _), hplan.2⟩
          · trivial
      · intro other
        rw [h.committed]
        refine Eq.trans ?_ (World.committed_setPhase world name
          { writer with preparedAt := world.now, prepared } _ other).symm
        split_ifs with hname
        · rw [hname, World.committed_of_writer hwriter, hbefore, Phase.committed_start]
        · rfl

theorem MapSound.stage (h : MapSound json world history)
    (hwriter : world.writers name = some writer) {batch : List (StagingMutation ι)}
    {rest : List (List (StagingMutation ι))} {complete : Bool} {epoch : Option (StoreEpoch ε)}
    (hphase : writer.phase = .staging (batch :: rest) complete epoch)
    (hsound : WorldSound json (world.stage name writer batch rest complete epoch false)) :
    MapSound json (world.stage name writer batch rest complete epoch false) history := by
  have hbefore : writer.committed = [] := by rw [Writer.committed, hphase]
  have hplan := h.plans name writer hwriter
  rw [PlanSound, hphase] at hplan
  unfold World.stage at hsound ⊢
  cases hstage : writeStageBatch world.store batch epoch with
  | none =>
      rw [hstage] at hsound
      exact h.setPhase hwriter hsound (.refl _ _) trivial hbefore rfl
  | some result =>
      obtain ⟨store, read⟩ := result
      rw [hstage] at hsound
      dsimp only at hsound ⊢
      refine h.setPhase hwriter hsound ?_ ?_ hbefore (Phase.committed_staged _ _ _ _ _)
      · unfold writeStageBatch at hstage
        split at hstage
        · cases hstage
        · cases hstage
          exact expires_of_entries (apply_entries _ _)
      · cases rest with
        | cons batch' rest => exact ⟨hplan.source, hplan.prepared⟩
        | nil =>
            cases complete with
            | true => exact ⟨⟨hplan.source, hplan.prepared⟩, rfl⟩
            | false => trivial

theorem MapSound.step {event : Event κ ι ν ε ω} (h : MapSound json world history)
    (hknown : event.Known) (hstep : world.step json lengths event = some next) :
    MapSound json next (history ++ world.commits event) := by
  have hsound := h.sound.step (h.replaySafe event) hstep
  have hkept {store : PersistenceState κ ι ε} (hnext : next = { world with store })
      (hstore : Expires world.now world.store store) :
      MapSound json next (history ++ []) := by
    rw [List.append_nil]
    subst hnext
    exact h.expires hsound hstore
  cases event with
  | tick now =>
      rw [World.step] at hstep
      split at hstep
      · next hle =>
          cases hstep
          change MapSound json _ (history ++ [])
          rw [List.append_nil]
          exact ⟨hsound, h.agrees.later hle, h.plans, h.committed⟩
      · cases hstep
  | call name entries =>
      rw [World.step] at hstep
      split at hstep
      · cases hstep
      · next hnone =>
          cases hstep
          change MapSound json _ (history ++ [])
          rw [List.append_nil]
          refine ⟨hsound, h.agrees, ?_, ?_⟩
          · intro other writer hother
            change Function.update world.writers name _ other = some writer at hother
            rcases eq_or_ne other name with rfl | hname
            · rw [Function.update_self] at hother
              cases hother
              trivial
            · rw [Function.update_of_ne hname] at hother
              exact h.plans other writer hother
          · intro other
            rw [h.committed]
            unfold World.committed
            dsimp only
            rcases eq_or_ne other name with rfl | hname
            · rw [hnone, Function.update_self]
              rfl
            · rw [Function.update_of_ne hname]
  | prepare name identities =>
      rw [World.step] at hstep
      split at hstep
      · next writer hwriter =>
          split at hstep
          · next hphase =>
              split at hstep
              · next hdrawn =>
                  cases hstep
                  change MapSound json _ (history ++ [])
                  rw [List.append_nil]
                  exact h.prepare hwriter hphase hdrawn.1 hsound
              · cases hstep
          · cases hstep
      · cases hstep
  | stage name unknown =>
      obtain rfl : unknown = false := hknown
      rw [World.step] at hstep
      split at hstep
      · next writer hwriter =>
          split at hstep
          · next hphase =>
              cases hstep
              change MapSound json _ (history ++ [])
              rw [List.append_nil]
              exact h.stage hwriter hphase hsound
          · cases hstep
      · cases hstep
  | publish name unknown =>
      obtain rfl : unknown = false := hknown
      rw [World.step] at hstep
      split at hstep
      · next writer hwriter =>
          split at hstep
          · next epoch replacedAt again hphase =>
              cases hstep
              rw [World.commits, hwriter]
              dsimp only
              rw [hphase]
              dsimp only
              unfold World.publish at hsound ⊢
              cases hpublish : publishEntries world.store writer.prepared epoch replacedAt with
              | none =>
                  rw [hpublish] at hsound
                  change MapSound json _ (history ++ [])
                  rw [List.append_nil]
                  have hbefore : writer.committed = [] := by rw [Writer.committed, hphase]
                  exact h.setPhase hwriter hsound (.refl _ _) trivial hbefore rfl
              | some store =>
                  rw [hpublish] at hsound
                  exact h.publish hwriter hphase hpublish hsound
          · cases hstep
      · cases hstep
  | get key =>
      rw [World.step] at hstep
      split at hstep
      · next hget =>
          cases hstep
          exact hkept rfl (expires_of_drops (drops_resolveEntry hget))
      · cases hstep
        exact hkept rfl (.refl _ _)
  | getMany keys =>
      rw [World.step] at hstep
      split at hstep
      · next hget =>
          cases hstep
          exact hkept rfl (expires_of_drops (drops_getMany hget))
      · cases hstep
        exact hkept rfl (.refl _ _)
  | remove key =>
      cases hstep
      refine ⟨hsound, ?_, h.plans, ?_⟩
      · rw [World.commits, contents_append]
        exact h.agrees.remove key
      · intro other
        rw [World.commits, List.filterMap_append, h.committed]
        exact List.append_nil _
  | clear nextEpoch =>
      cases hstep
      refine ⟨hsound, ?_, h.plans, ?_⟩
      · rw [World.commits, contents_append]
        exact agrees_clear _ _ _
      · intro other
        rw [World.commits, List.filterMap_append, h.committed]
        exact List.append_nil _
  | cleanup =>
      cases hstep
      exact hkept rfl (expires_cleanupBatch _ _)

/-- A step of a store, with the history of what has been committed. -/
def HistoryStep (json : Json ν) (lengths : Lengths κ ι)
    (state : World κ ι ν ε ω × List (Commit κ ν ω)) (event : Event κ ι ν ε ω)
    (next : World κ ι ν ε ω × List (Commit κ ν ω)) : Prop :=
  event.Known ∧ state.1.step json lengths event = some next.1 ∧
    next.2 = state.2 ++ state.1.commits event

theorem run_commit {start : World κ ι ν ε ω × List (Commit κ ν ω)}
    {events : List (Event κ ι ν ε ω)} (event : Event κ ι ν ε ω)
    (h : Run (HistoryStep json lengths) start events (world, history)) (hknown : event.Known)
    (hstep : world.step json lengths event = some next) :
    Run (HistoryStep json lengths) start (events ++ [event])
      (next, history ++ world.commits event) :=
  h.snoc ⟨hknown, hstep, rfl⟩

theorem linearizable_of_run
    (hjson : ∀ value encoded, json.stringify value = some encoded → json.parse encoded = some value)
    {events : List (Event κ ι ν ε ω)}
    (hrun : Run (HistoryStep json lengths) ({}, []) events (world, history)) :
    (∀ keys, ∃ store, getMany json world.now world.store keys =
      .ok (store, keys.map (visible (contents history) world.now))) ∧
    (∀ key, ∃ store, resolveEntry json world.now world.store key =
      .ok (store, visible (contents history) world.now key)) ∧
    ∀ name writer, world.writers name = some writer →
      history.filterMap (Commit.writeOf name) = writer.committed := by
  have h : MapSound json world history := by
    refine hrun.invariant (P := fun state => MapSound json state.1 state.2) (A := fun _ => True) ?_
      (fun _ _ => trivial) .empty
    rintro ⟨world, history⟩ event ⟨next, history'⟩ _ ⟨hknown, hstep, hhistory⟩ h
    obtain rfl : history' = history ++ world.commits event := hhistory
    exact h.step hknown hstep
  refine ⟨?_, ?_, ?_⟩
  · exact getMany_visible h.sound.store h.sound.issued hjson h.agrees
  · exact resolveEntry_visible h.sound.store h.sound.issued hjson h.agrees
  · intro name writer hwriter
    rw [h.committed, World.committed_of_writer hwriter]

/-- A call that sets one key twice, and a cleanup. -/
def setTwice : List (Event String Nat EmptyValue Nat Nat) :=
  [.call 0 [⟨"key", .object, none⟩, ⟨"key", .array, some (.millis 5)⟩], .prepare 0 [1],
    .publish 0 false, .tick 3, .cleanup]

theorem linearizable_setTwice :
    ∃ (world : EmptyWorld) (history : List (Commit String EmptyValue Nat)) (store : _),
      Run (HistoryStep emptyJson shortLengths) ({}, []) setTwice (world, history) ∧
      getMany emptyJson world.now world.store ["key", "other", "key"] =
        .ok (store, [some .array, none, some .array]) := by
  have hprepared : Run (HistoryStep emptyJson shortLengths) (({}, []) : EmptyWorld × _) _ _ :=
    run_commit (.prepare 0 [1]) (run_commit
      (.call 0 [⟨"key", .object, none⟩, ⟨"key", .array, some (.millis 5)⟩]) (.nil _) trivial rfl)
      trivial rfl
  have hrun : Run (HistoryStep emptyJson shortLengths) (({}, []) : EmptyWorld × _) setTwice _ :=
    run_commit .cleanup (run_commit (.tick 3) (run_commit (.publish 0 false) hprepared rfl rfl)
      trivial rfl) trivial rfl
  have hjson : ∀ value encoded, emptyJson.stringify value = some encoded →
      emptyJson.parse encoded = some value := by
    intro value encoded h
    cases h
    cases value <;> rfl
  obtain ⟨store, hstore⟩ := (linearizable_of_run hjson hrun).1 ["key", "other", "key"]
  refine ⟨_, _, store, hrun, hstore.trans (congrArg (Except.ok ∘ Prod.mk store) ?_)⟩
  decide +kernel

end

end FoundationDbEffect.Persistence.Backing
