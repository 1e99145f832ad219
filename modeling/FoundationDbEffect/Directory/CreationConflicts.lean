import FoundationDbEffect.Directory.Attempt
import FoundationDbEffect.Directory.PrefixCheck
import FoundationDbEffect.Foundation.Fallible
import FoundationDbEffect.Tuple.Canonical

/-!
# What a creation reads and writes

An attempt that creates with automatic prefixes stays sound: outside the allocator it only sets
rows, each under the root, under a prefix it has allocated, or under one that its snapshot names.
An allocated prefix is extended by no prefix of the snapshot.  The conflicting check of a manual
prefix then guards it against every overlapping automatic one: it has read the layer row of that
prefix, or a row of its snapshot under a prefix that extends it.
-/

namespace FoundationDbEffect.Directory

open FoundationDbEffect.Foundation FoundationDbEffect.TupleLayer
open FoundationDbEffect.Foundation.ByteOrder

/-! ## Keys that are read as rows of nodes -/

theorem follows_spell {element : Element} (h : element.Valid) (rest : Bytes) :
    Follows (element.spell false ++ rest) := by
  cases element with
  | integer form =>
      cases form with
      | zero => exact follows_cons (by decide)
      | small negative magnitude =>
          have hheader := smallHeader_toNat negative h.2
          refine follows_cons fun heq => ?_
          rw [heq] at hheader
          have hescape : escapeByte.toNat = 255 := rfl
          obtain ⟨hpos, hmax⟩ : 0 < magnitude.length ∧ magnitude.length ≤ 8 := h
          split_ifs at hheader <;> omega
      | big negative magnitude => cases negative <;> exact follows_cons (by decide)
  | leaf value => exact follows_encodeValue false value (Element.rejection_value h) rest
  | tuple children => exact follows_cons (by decide)

theorem follows_spellAll {elements : List Element} (h : ValidAll elements) :
    Follows (spellAll false elements) := by
  cases elements with
  | nil => exact follows_nil
  | cons element others => exact follows_spell h.1 _

/-- A key below a node subspace that is read as a tuple with a byte string at its head is a row
of the node of that byte string. -/
theorem isNodeRow_of_unpacked {nodeSubspace key prefixBytes : Bytes} {tuple : Tuple}
    {description description' : String} (h : unpacked nodeSubspace key description = .ok tuple)
    (hhead : asBytes tuple.head? description' = .ok prefixBytes) :
    IsNodeRow nodeSubspace prefixBytes key := by
  rw [unpacked, Subspace.unpack] at h
  by_cases hcontains : (Subspace.fromBytes nodeSubspace).contains key = true
  · rw [if_pos hcontains] at h
    obtain ⟨rest, rfl⟩ : nodeSubspace <+: key := List.isPrefixOf_iff_prefix.mp hcontains
    rw [Subspace.fromBytes, List.drop_left, TupleLayer.unpack] at h
    cases hread : readTuple (rest.length + 1) false [] ⟨0, rest⟩ with
    | none =>
        rw [hread] at h
        cases h
    | some result =>
        cases result with
        | error failure =>
            rw [hread] at h
            cases h
        | ok pair =>
            obtain ⟨values, after⟩ := pair
            rw [hread] at h
            cases h
            obtain ⟨elements, hvalid, rfl, hspell, hend⟩ := readTuple_ok hread
            have hafter := hend rfl
            simp only [Bool.false_eq_true, if_false, hafter, List.append_nil] at hspell
            cases elements with
            | nil => cases hhead
            | cons element others =>
                rw [List.nil_append, valuesOf, List.head?_cons] at hhead
                cases element with
                | integer form => cases hhead
                | tuple children => cases hhead
                | leaf value =>
                    cases value <;> try cases hhead
                    refine ⟨spellAll false others, follows_spellAll hvalid.2, ?_⟩
                    change rest = _ at hspell
                    rw [hspell, spellAll, Element.spell, nodeKey]
                    simp [encodeTuple]
  · rw [if_neg hcontains] at h
    cases h

/-! ## The rows of a directory -/

def DirectoryLayerState.versionKey (layer : DirectoryLayerState) : Bytes :=
  layer.rootNode ++ encodeTuple false [.bytes versionTag]

def layerKey (nodeSubspace prefixBytes : Bytes) : Bytes :=
  nodeKey nodeSubspace prefixBytes ++ encodeTuple false [.bytes layerTag]

def childKey (nodeSubspace prefixBytes : Bytes) (name : CodeUnits) : Bytes :=
  nodeKey nodeSubspace prefixBytes ++ encodeTuple false [.integer 0, .string name]

theorem isNodeRow_versionKey (layer : DirectoryLayerState) :
    IsNodeRow layer.nodeSubspace layer.nodeSubspace layer.versionKey :=
  ⟨_, follows_cons (by decide), rfl⟩

theorem isNodeRow_layerKey (nodeSubspace p : Bytes) :
    IsNodeRow nodeSubspace p (layerKey nodeSubspace p) :=
  ⟨_, follows_cons (by decide), rfl⟩

theorem isNodeRow_childKey (nodeSubspace p : Bytes) (name : CodeUnits) :
    IsNodeRow nodeSubspace p (childKey nodeSubspace p name) :=
  ⟨_, follows_cons (by decide), rfl⟩

theorem ne_childKey (nodeSubspace p q tag : Bytes) (name : CodeUnits) :
    nodeKey nodeSubspace p ++ encodeTuple false [.bytes tag] ≠ childKey nodeSubspace q name := by
  intro h
  have hrow : IsNodeRow nodeSubspace p (nodeKey nodeSubspace p ++ encodeTuple false [.bytes tag]) :=
    ⟨_, follows_cons (by decide), rfl⟩
  obtain rfl : p = q := hrow.inj (h ▸ isNodeRow_childKey nodeSubspace q name)
  have htail := List.append_cancel_left h
  simp [encodeTuple, encodeValue, encodeInteger, bytesCode, integerZeroCode] at htail

section Allocator

variable {layer : DirectoryLayerState} {key p : Bytes}

theorem not_allocator (h : IsNodeRow layer.nodeSubspace p key) (hp : p ≠ layer.nodeSubspace) :
    ¬layer.allocator <+: key := by
  rintro ⟨rest, rfl⟩
  refine hp (h.inj ⟨encodeTuple false [.bytes hcaTag] ++ rest, follows_cons (by decide), ?_⟩)
  simp [DirectoryLayerState.allocator, DirectoryLayerState.rootNode]

theorem not_allocator_versionKey : ¬layer.allocator <+: layer.versionKey := by
  rw [DirectoryLayerState.allocator, DirectoryLayerState.versionKey,
    List.prefix_append_right_inj]
  decide

theorem not_allocator_childKey (name : CodeUnits) :
    ¬layer.allocator <+: childKey layer.nodeSubspace p name := by
  by_cases hp : p = layer.nodeSubspace
  · subst hp
    rw [DirectoryLayerState.allocator, childKey, DirectoryLayerState.rootNode,
      List.prefix_append_right_inj]
    simp [encodeTuple, encodeValue, encodeInteger, bytesCode, integerZeroCode]
  · exact not_allocator (isNodeRow_childKey _ _ _) hp

end Allocator

theorem packed_ok {subspace key : Bytes} {tuple : Tuple} {description : String}
    (h : packed subspace tuple description = .ok key) :
    firstRejection tuple = none ∧ key = subspace ++ encodeTuple false tuple := by
  rw [packed, mapTupleError] at h
  cases hpack : (Subspace.fromBytes subspace).pack tuple with
  | error cause =>
      rw [hpack] at h
      cases h
  | ok bytes =>
      rw [hpack] at h
      obtain rfl : bytes = key := Except.ok.inj h
      exact ((Subspace.fromBytes subspace).pack_ok_iff tuple bytes).mp hpack

/-! ## Mutations of rows -/

namespace RowMutation

theorem get?_apply_of_not_touches {mutation : RowMutation} {key : Bytes}
    (h : mutation.touches key = false) (rows : Rows) :
    (mutation.apply rows).get? key = rows.get? key := by
  cases mutation with
  | set key' value => exact OrderedMap.get?_set_of_ne _ _ (by simpa [touches] using h)
  | clearRange begin stop =>
      rw [touches] at h
      simp [apply, OrderedMap.get?_clearRange, h]
  | addOne key' => exact OrderedMap.get?_set_of_ne _ _ (by simpa [touches] using h)

theorem get?_foldl_of_not_touches {mutations : List RowMutation} {key : Bytes}
    (h : ∀ mutation ∈ mutations, mutation.touches key = false) (rows : Rows) :
    (mutations.foldl apply rows).get? key = rows.get? key := by
  induction mutations generalizing rows with
  | nil => rfl
  | cons mutation mutations ih =>
      rw [List.foldl_cons, ih (fun later hmem => h later (List.mem_cons_of_mem _ hmem)),
        get?_apply_of_not_touches (h mutation (by simp))]

theorem get?_foldl_of_sets {mutations : List RowMutation} {key : Bytes}
    (h : ∀ mutation ∈ mutations, mutation.touches key = true → ∃ value, mutation = set key value)
    (rows : Rows) :
    (∃ value, set key value ∈ mutations ∧
        (mutations.foldl apply rows).get? key = some value) ∨
      (∀ mutation ∈ mutations, mutation.touches key = false) := by
  induction mutations generalizing rows with
  | nil => exact .inr (by simp)
  | cons mutation mutations ih =>
      rcases ih (fun later hmem => h later (List.mem_cons_of_mem _ hmem)) (mutation.apply rows) with
        ⟨value, hmem, hget⟩ | hnone
      · exact .inl ⟨value, List.mem_cons_of_mem _ hmem, hget⟩
      · cases htouches : mutation.touches key with
        | false => exact .inr (by simpa [htouches] using hnone)
        | true =>
            obtain ⟨value, rfl⟩ := h mutation (by simp) htouches
            refine .inl ⟨value, by simp, ?_⟩
            rw [List.foldl_cons, get?_foldl_of_not_touches hnone]
            exact OrderedMap.get?_set_self _ _ _

def InAllocator (layer : DirectoryLayerState) (mutation : RowMutation) : Prop :=
  ∀ key, mutation.touches key = true → layer.allocator <+: key

end RowMutation

/-! ## Attempts that create automatically -/

/-- A prefix that no registered prefix of the rows extends, nor the prefix of the root. -/
structure Unextended (layer : DirectoryLayerState) (rows : Rows) (prefixBytes : Bytes) :
    Prop where
  root : ¬prefixBytes <+: layer.nodeSubspace
  rows : ∀ p key, prefixBytes <+: p → IsNodeRow layer.nodeSubspace p key → rows.get? key = none

def DirectoryLayerState.IsContent (layer : DirectoryLayerState) (prefixBytes : Bytes) : Prop :=
  ∃ allocated, firstRejection [.integer allocated] = none ∧
    prefixBytes = layer.contentSubspace ++ encodeTuple false [.integer allocated]

theorem DirectoryLayerState.IsContent.eq_of_head {layer : DirectoryLayerState} {p q : Bytes}
    (hp : layer.IsContent p) (hq : layer.IsContent q) (h : p <+: q) : p = q := by
  obtain ⟨m, hm, rfl⟩ := hp
  obtain ⟨n, hn, rfl⟩ := hq
  rw [List.prefix_append_right_inj] at h
  obtain ⟨rest, hrest⟩ := h
  have hm' := (firstRejection_eq_none_iff _).mp hm _ (List.mem_singleton_self _)
  have hn' := (firstRejection_eq_none_iff _).mp hn _ (List.mem_singleton_self _)
  have hcompare := lexBytes_encodeInteger m n hm' hn' rest []
  simp only [encodeTuple, encodeValue, List.append_nil] at hrest hcompare
  have hself : lexBytes (encodeInteger n) (encodeInteger n) = .eq := Std.ReflCmp.compare_self
  rw [hrest, hself, eq_comm, Ordering.then_eq_eq] at hcompare
  obtain rfl := compare_eq_iff_eq.mp hcompare.1
  rfl

def Layered (layer : DirectoryLayerState) (rows : Rows) : Prop :=
  ∀ p q name, rows.get? (childKey layer.nodeSubspace p name) = some q →
    (rows.get? (layerKey layer.nodeSubspace q)).isSome = true

namespace Attempt

variable {layer : DirectoryLayerState} {attempt next : Attempt} {key value prefixBytes : Bytes}

def Allocated (layer : DirectoryLayerState) (attempt : Attempt) (prefixBytes : Bytes) : Prop :=
  (⟨layer, prefixBytes, true⟩ : Creation) ∈ attempt.created

/-- A prefix that a child row of the snapshot names and whose layer row has been read. -/
def Named (layer : DirectoryLayerState) (attempt : Attempt) (prefixBytes : Bytes) : Prop :=
  (∃ p name, attempt.snapshot.get? (childKey layer.nodeSubspace p name) = some prefixBytes) ∧
    attempt.reads (layerKey layer.nodeSubspace prefixBytes) = true

/-- The prefixes of the nodes that an attempt may write below. -/
def Known (layer : DirectoryLayerState) (attempt : Attempt) (prefixBytes : Bytes) : Prop :=
  prefixBytes = layer.nodeSubspace ∨ attempt.Allocated layer prefixBytes ∨
    attempt.Named layer prefixBytes

structure OwnRow (layer : DirectoryLayerState) (attempt : Attempt) (key value : Bytes) :
    Prop where
  written : key ∈ attempt.writes
  node : ∃ p, IsNodeRow layer.nodeSubspace p key ∧ attempt.Known layer p
  child : ∀ p name, key = childKey layer.nodeSubspace p name → attempt.Allocated layer value

/-- A prefix that an attempt has allocated: it was found free, and its layer row is written. -/
structure Placed (layer : DirectoryLayerState) (attempt : Attempt) (prefixBytes : Bytes) :
    Prop where
  content : layer.IsContent prefixBytes
  written : layerKey layer.nodeSubspace prefixBytes ∈ attempt.writes
  unextended : Unextended layer attempt.snapshot prefixBytes

structure Sound (layer : DirectoryLayerState) (attempt : Attempt) : Prop where
  mutations : ∀ mutation ∈ attempt.mutations, mutation.InAllocator layer ∨
    ∃ key value, mutation = .set key value ∧ attempt.OwnRow layer key value
  created : ∀ creation ∈ attempt.created,
    ∃ p, creation = ⟨layer, p, true⟩ ∧ attempt.Placed layer p

structure Extends (attempt next : Attempt) : Prop where
  snapshot : next.snapshot = attempt.snapshot
  mutations : ∀ mutation ∈ attempt.mutations, mutation ∈ next.mutations
  reads : ∀ key, attempt.reads key = true → next.reads key = true
  writes : ∀ key ∈ attempt.writes, key ∈ next.writes
  created : ∀ creation ∈ attempt.created, creation ∈ next.created

theorem Extends.refl (attempt : Attempt) : Extends attempt attempt :=
  ⟨rfl, fun _ h => h, fun _ h => h, fun _ h => h, fun _ h => h⟩

theorem Extends.trans {later : Attempt} (h : Extends attempt next) (h' : Extends next later) :
    Extends attempt later where
  snapshot := h'.snapshot.trans h.snapshot
  mutations mutation hmem := h'.mutations mutation (h.mutations mutation hmem)
  reads key hkey := h'.reads key (h.reads key hkey)
  writes key hkey := h'.writes key (h.writes key hkey)
  created creation hcreation := h'.created creation (h.created creation hcreation)

theorem Known.extend (h : attempt.Known layer prefixBytes) (hext : Extends attempt next) :
    next.Known layer prefixBytes := by
  rcases h with hroot | hallocated | ⟨hchild, hread⟩
  · exact .inl hroot
  · exact .inr (.inl (hext.created _ hallocated))
  · exact .inr (.inr ⟨hext.snapshot ▸ hchild, hext.reads _ hread⟩)

theorem OwnRow.extend (h : attempt.OwnRow layer key value) (hext : Extends attempt next) :
    next.OwnRow layer key value where
  written := hext.writes _ h.written
  node :=
    let ⟨p, hrow, hknown⟩ := h.node
    ⟨p, hrow, hknown.extend hext⟩
  child p name hkey := hext.created _ (h.child p name hkey)

theorem Placed.extend (h : attempt.Placed layer prefixBytes) (hext : Extends attempt next) :
    next.Placed layer prefixBytes where
  content := h.content
  written := hext.writes _ h.written
  unextended := hext.snapshot ▸ h.unextended

theorem Sound.extend (h : Sound layer attempt) (hext : Extends attempt next)
    (hmutations : ∀ mutation ∈ next.mutations, mutation ∈ attempt.mutations ∨
      mutation.InAllocator layer ∨
      ∃ key value, mutation = .set key value ∧ next.OwnRow layer key value)
    (hcreated : ∀ creation ∈ next.created, creation ∈ attempt.created ∨
      ∃ p, creation = ⟨layer, p, true⟩ ∧ next.Placed layer p) : Sound layer next where
  mutations mutation hmem := by
    rcases hmutations mutation hmem with hold | hnew
    · exact (h.mutations mutation hold).imp_right fun ⟨key, value, heq, hrow⟩ =>
        ⟨key, value, heq, hrow.extend hext⟩
    · exact hnew
  created creation hmem := by
    rcases hcreated creation hmem with hold | hnew
    · obtain ⟨p, heq, hplaced⟩ := h.created creation hold
      exact ⟨p, heq, hplaced.extend hext⟩
    · exact hnew

theorem sound_start (layer : DirectoryLayerState) (snapshot : Rows)
    (draws : List (Nat × List UInt32)) : Sound layer { snapshot, draws } :=
  ⟨by simp, by simp⟩

/-- Outside the allocator a row in view is one that the attempt has set, or that of the
snapshot. -/
theorem Sound.view_get? (h : Sound layer attempt) (hkey : ¬layer.allocator <+: key) :
    (∃ value, attempt.view.get? key = some value ∧ attempt.overwritten key = true ∧
        attempt.OwnRow layer key value) ∨
      (attempt.overwritten key = false ∧ attempt.view.get? key = attempt.snapshot.get? key) := by
  have hsets : ∀ mutation ∈ attempt.mutations, mutation.touches key = true →
      ∃ value, mutation = .set key value := by
    intro mutation hmem htouches
    rcases h.mutations mutation hmem with hallocator | ⟨key', value, rfl, -⟩
    · exact absurd (hallocator key htouches) hkey
    · obtain rfl : key = key' := by simpa [RowMutation.touches] using htouches
      exact ⟨value, rfl⟩
  rcases RowMutation.get?_foldl_of_sets hsets attempt.snapshot with ⟨value, hmem, hget⟩ | hnone
  · rcases h.mutations _ hmem with hallocator | ⟨key', value', heq, hrow⟩
    · exact absurd (hallocator key (by simp [RowMutation.touches])) hkey
    · obtain ⟨rfl, rfl⟩ := RowMutation.set.inj heq
      refine .inl ⟨value, hget, List.any_eq_true.mpr ⟨_, hmem, ?_⟩, hrow⟩
      simp [RowMutation.overwrites]
  · refine .inr ⟨?_, RowMutation.get?_foldl_of_not_touches hnone _⟩
    rw [overwritten, List.any_eq_false]
    intro mutation hmem hoverwrites
    have htouches := hnone mutation hmem
    cases mutation <;> simp_all [RowMutation.overwrites, RowMutation.touches]

theorem Extends.overwritten (h : Extends attempt next) (hkey : attempt.overwritten key = true) :
    next.overwritten key = true := by
  obtain ⟨mutation, hmem, hoverwrites⟩ := List.any_eq_true.mp hkey
  exact List.any_eq_true.mpr ⟨mutation, h.mutations mutation hmem, hoverwrites⟩

theorem Sound.view_isSome (h : Sound layer attempt) (h' : Sound layer next)
    (hext : Extends attempt next) (hkey : ¬layer.allocator <+: key)
    (hsome : (attempt.view.get? key).isSome = true) : (next.view.get? key).isSome = true := by
  rcases h'.view_get? hkey with ⟨value, hget, -⟩ | ⟨hnot, hget⟩
  · simp [hget]
  · rcases h.view_get? hkey with ⟨-, -, hown, -⟩ | ⟨-, hget'⟩
    · simp [hext.overwritten hown] at hnot
    · rwa [hget, hext.snapshot, ← hget']

/-! ## Steps of an attempt -/

theorem extends_read (attempt : Attempt) (keys : Bytes → Bool) :
    Extends attempt (attempt.read keys) :=
  ⟨rfl, fun _ h => h, fun _ h => by simp [read, h], fun _ h => h, fun _ h => h⟩

theorem Sound.read (h : Sound layer attempt) (keys : Bytes → Bool) :
    Sound layer (attempt.read keys) :=
  h.extend (extends_read attempt keys) (fun _ hmem => .inl hmem) fun _ hmem => .inl hmem

theorem read_read (attempt : Attempt) (keys keys' : Bytes → Bool) :
    (attempt.read keys).read keys' = attempt.read fun key => keys key || keys' key := by
  simp only [Attempt.read, overwritten, Attempt.mk.injEq, true_and]
  refine ⟨?_, trivial⟩
  funext key
  cases keys key <;> cases keys' key <;> simp

theorem extends_set (attempt : Attempt) (key value : Bytes) :
    Extends attempt (attempt.set key value) where
  snapshot := rfl
  mutations _ h := List.mem_append_left _ h
  reads _ h := h
  writes _ h := List.mem_append_left _ h
  created _ h := h

theorem extends_create (attempt : Attempt) (layer : DirectoryLayerState)
    (childKey layerKey prefixBytes nodeLayer : Bytes) (automatic : Bool) :
    Extends attempt
      (attempt.create layer childKey layerKey prefixBytes nodeLayer automatic) where
  snapshot := rfl
  mutations _ h := List.mem_append_left _ (List.mem_append_left _ h)
  reads _ h := h
  writes _ h := List.mem_append_left _ (List.mem_append_left _ h)
  created _ h := List.mem_append_left _ h

theorem checkVersion_ok {write : Bool} (h : checkVersion layer write attempt = .ok next) :
    (next = attempt.read (· = layer.versionKey) ∧
        (write = true → (attempt.view.get? layer.versionKey).isSome = true)) ∨
      (write = true ∧
        next = (attempt.read (· = layer.versionKey)).set layer.versionKey directoryVersion) := by
  rw [checkVersion] at h
  obtain ⟨key, hkey, h⟩ := bind_eq_ok.mp h
  obtain rfl : layer.versionKey = key := Except.ok.inj ((packed_bytes ..).symm.trans hkey)
  simp only [get] at h
  cases hget : attempt.view.get? layer.versionKey with
  | none =>
      rw [hget] at h
      cases write with
      | false => exact .inl ⟨(Except.ok.inj h).symm, by simp⟩
      | true => exact .inr ⟨rfl, (Except.ok.inj h).symm⟩
  | some version =>
      rw [hget] at h
      dsimp only at h
      split_ifs at h
      exact .inl ⟨(Except.ok.inj h).symm, by simp⟩

theorem Sound.checkVersion {write : Bool} (h : Sound layer attempt)
    (hok : checkVersion layer write attempt = .ok next) :
    Sound layer next ∧ Extends attempt next ∧
      (∀ key, key ≠ layer.versionKey → next.view.get? key = attempt.view.get? key) ∧
      (write = true → (next.view.get? layer.versionKey).isSome = true) := by
  rcases checkVersion_ok hok with ⟨rfl, hsome⟩ | ⟨rfl, rfl⟩
  · exact ⟨h.read _, extends_read _ _, fun _ _ => rfl, hsome⟩
  · have hext : Extends attempt
        ((attempt.read (· = layer.versionKey)).set layer.versionKey directoryVersion) :=
      (extends_read _ _).trans (extends_set _ _ _)
    refine ⟨h.extend hext ?_ (fun _ hmem => .inl hmem), hext, ?_, fun _ => by simp⟩
    · intro mutation hmem
      rcases List.mem_append.mp hmem with hold | hnew
      · exact .inl hold
      · refine .inr (.inr ⟨_, _, List.mem_singleton.mp hnew, ⟨by simp [set], ?_, ?_⟩⟩)
        · exact ⟨layer.nodeSubspace, isNodeRow_versionKey layer, .inl rfl⟩
        · intro p name hkey
          exact absurd hkey (ne_childKey _ _ _ _ _)
    · intro key hkey
      simp [OrderedMap.get?_set_of_ne _ _ hkey]

/-- What the search for a node of a path finds below the node it starts from is the node of a
prefix that a child row in view names, and the layer row of that prefix has been read. -/
theorem findNodeFrom_ok {targetPath currentPath path : DirectoryPath} {p nodeLayer : Bytes}
    {found : Option Node}
    (h : findNodeFrom layer targetPath (nodeKey layer.nodeSubspace p) nodeLayer currentPath path
      attempt = .ok (found, next)) :
    ∃ keys, next = attempt.read keys ∧ ∀ node, found = some node →
      (node.subspace = nodeKey layer.nodeSubspace p ∧ path = []) ∨
        ∃ q, node.subspace = nodeKey layer.nodeSubspace q ∧
          (∃ p name, attempt.view.get? (childKey layer.nodeSubspace p name) = some q) ∧
          keys (layerKey layer.nodeSubspace q) = true := by
  induction path generalizing p nodeLayer currentPath attempt with
  | nil =>
      cases h
      refine ⟨fun _ => false, by simp [Attempt.read], ?_⟩
      rintro node ⟨⟩
      exact .inl ⟨rfl, rfl⟩
  | cons component rest ih =>
      rw [findNodeFrom] at h
      obtain ⟨key, hkey, h⟩ := bind_eq_ok.mp h
      obtain rfl : key = childKey layer.nodeSubspace p component := (packed_ok hkey).2
      simp only [get] at h
      cases hget : attempt.view.get? (childKey layer.nodeSubspace p component) with
      | none =>
          rw [hget] at h
          cases h
          exact ⟨_, rfl, by simp⟩
      | some q =>
          rw [hget] at h
          simp only [nodeWithPrefix_eq, loadLayer, packed_bytes, get, bind, Except.bind] at h
          rw [read_read] at h
          have hread : layerKey layer.nodeSubspace q =
              nodeKey layer.nodeSubspace q ++ encodeTuple false [.bytes layerTag] := rfl
          rw [← hread] at h
          split_ifs at h with hpartition
          · cases h
            refine ⟨_, rfl, ?_⟩
            rintro node ⟨⟩
            exact .inr ⟨q, rfl, ⟨p, component, hget⟩, by simp⟩
          · obtain ⟨keys, rfl, hfound⟩ := ih h
            rw [read_read]
            refine ⟨_, rfl, fun node hnode => .inr ?_⟩
            rcases hfound node hnode with ⟨hsubspace, -⟩ | ⟨q', hsubspace, hchild, hkeys⟩
            · exact ⟨q, hsubspace, ⟨p, component, hget⟩, by simp⟩
            · exact ⟨q', hsubspace, hchild, by simp [hkeys]⟩

theorem Sound.known_of_child (h : Sound layer attempt) {keys : Bytes → Bool} {p q : Bytes}
    {name : CodeUnits}
    (hchild : attempt.view.get? (childKey layer.nodeSubspace p name) = some q)
    (hkeys : keys (layerKey layer.nodeSubspace q) = true) :
    (attempt.read keys).Known layer q := by
  have hext := extends_read attempt keys
  rcases h.view_get? (not_allocator_childKey name) with ⟨value, hget, -, hrow⟩ | ⟨-, hget⟩
  · obtain rfl : value = q := Option.some.inj (hget.symm.trans hchild)
    exact .inr (.inl (hext.created _ (hrow.child p name rfl)))
  · by_cases hroot : q = layer.nodeSubspace
    · exact .inl hroot
    have hrow := isNodeRow_layerKey layer.nodeSubspace q
    rcases h.view_get? (not_allocator hrow hroot) with ⟨value, -, -, hown⟩ | ⟨hnot, -⟩
    · -- The attempt has set the layer row itself.
      obtain ⟨q', hrow', hknown⟩ := hown.node
      obtain rfl := hrow.inj hrow'
      exact hknown.extend hext
    · refine .inr (.inr ⟨⟨p, name, hget.symm.trans hchild⟩, ?_⟩)
      simp [Attempt.read, hkeys, hnot]

theorem findNode_plain {path : DirectoryPath} {found : Option Node}
    (h : findNode layer path attempt = .ok (found, next)) :
    Directory.findNode attempt.view layer path = .ok found := by
  have hforget : forget (findNode layer path attempt) = _ := findNode_forget path
  rw [h] at hforget
  cases hplain : Directory.findNode attempt.view layer path with
  | error failure =>
      rw [hplain] at hforget
      cases hforget
  | ok found' =>
      rw [hplain] at hforget
      have hsame : found = found' := (Prod.mk.inj (Except.ok.inj hforget)).1
      rw [hsame]

theorem Sound.findNode {path : DirectoryPath} {found : Option Node} (h : Sound layer attempt)
    (hpath : path ≠ []) (hok : findNode layer path attempt = .ok (found, next)) :
    Sound layer next ∧ Extends attempt next ∧ next.view = attempt.view ∧
      ∀ node, found = some node →
        ∃ q, node.subspace = nodeKey layer.nodeSubspace q ∧ next.Known layer q := by
  cases path with
  | nil => exact absurd rfl hpath
  | cons component rest =>
      obtain ⟨keys, rfl, hfound⟩ := findNodeFrom_ok hok
      refine ⟨h.read keys, extends_read _ _, rfl, fun node hnode => ?_⟩
      rcases hfound node hnode with ⟨-, hnil⟩ | ⟨q, hsubspace, ⟨p, name, hchild⟩, hkeys⟩
      · cases hnil
      · exact ⟨q, hsubspace, h.known_of_child hchild hkeys⟩

theorem rowMutation_inAllocator {mutation : AllocatorMutation} {rowMutation' : RowMutation}
    (h : rowMutation layer mutation = .ok rowMutation') : rowMutation'.InAllocator layer := by
  have hbelow {kind : Int} {rest key : Bytes}
      (hkey : layer.allocator ++ encodeTuple false [.integer kind] ++ rest = key) :
      layer.allocator <+: key := ⟨_, by rw [← List.append_assoc, hkey]⟩
  intro key htouches
  cases mutation with
  | addOne start =>
      obtain ⟨counter, hcounter, h⟩ := bind_eq_ok.mp h
      cases h
      obtain rfl : key = counter := by simpa [RowMutation.touches] using htouches
      exact hbelow (packed_ok hcounter).2.symm
  | setRecent candidate =>
      obtain ⟨recent, hrecent, h⟩ := bind_eq_ok.mp h
      cases h
      obtain rfl : key = recent := by simpa [RowMutation.touches] using htouches
      exact hbelow (packed_ok hrecent).2.symm
  | clearCounters stop =>
      obtain ⟨counter, hcounter, h⟩ := bind_eq_ok.mp h
      cases h
      obtain ⟨hbegin, hend⟩ := interval_iff.mp htouches
      rw [(packed_ok hcounter).2] at hend
      obtain ⟨rest, hrest⟩ := prefix_of_between hbegin hend
      exact hbelow hrest
  | clearRecent stop =>
      obtain ⟨recent, hrecent, h⟩ := bind_eq_ok.mp h
      cases h
      obtain ⟨hbegin, hend⟩ := interval_iff.mp htouches
      rw [(packed_ok hrecent).2] at hend
      obtain ⟨rest, hrest⟩ := prefix_of_between hbegin hend
      exact hbelow hrest

theorem extends_issue (attempt : Attempt) (keys : Bytes → Bool) (mutations : List RowMutation)
    (writes : List Bytes) (draws : List (Nat × List UInt32)) :
    Extends attempt
      { attempt.read keys with
        draws, mutations := attempt.mutations ++ mutations, writes := attempt.writes ++ writes } where
  snapshot := rfl
  mutations _ h := List.mem_append_left _ h
  reads _ h := by simp [Attempt.read, h]
  writes _ h := List.mem_append_left _ h
  created _ h := h

theorem Sound.allocatePrefix {allocated : Int} (h : Sound layer attempt)
    (hok : allocatePrefix layer attempt = .ok (allocated, next)) :
    Sound layer next ∧ Extends attempt next := by
  rw [Attempt.allocatePrefix] at hok
  cases hdraws : attempt.draws with
  | nil =>
      rw [hdraws] at hok
      cases hok
  | cons draw draws =>
      rw [hdraws] at hok
      dsimp only at hok
      split at hok
      · cases hok
      · rename_i allocation candidate hlocked
        obtain ⟨mutations, hmutations, hok⟩ := bind_eq_ok.mp hok
        cases hok
        refine ⟨h.extend (extends_issue ..) ?_ fun creation hmem => .inl hmem, extends_issue ..⟩
        intro mutation hmem
        rcases List.mem_append.mp hmem with hold | hnew
        · exact .inl hold
        · obtain ⟨source, -, hsource⟩ := exists_of_mem_mapM hmutations hnew
          exact .inr (.inl (rowMutation_inAllocator hsource))

theorem Sound.choosePrefix {explicit : Option Bytes} (h : Sound layer attempt)
    (hok : choosePrefix layer explicit attempt = .ok (prefixBytes, next)) :
    Sound layer next ∧ Extends attempt next ∧ (explicit = none → layer.IsContent prefixBytes) ∧
      (explicit.isSome = true → explicit = some prefixBytes) := by
  cases explicit with
  | some explicit =>
      cases hok
      exact ⟨h, .refl _, by simp, fun _ => rfl⟩
  | none =>
      obtain ⟨⟨allocated, after⟩, hallocated, hok⟩ := bind_eq_ok.mp hok
      obtain ⟨hsound, hext⟩ := h.allocatePrefix hallocated
      obtain ⟨bytes, hbytes, hok⟩ := bind_eq_ok.mp hok
      obtain ⟨stop, -, hok⟩ := bind_eq_ok.mp hok
      simp only [firstInRange, Bool.false_eq_true, if_false] at hok
      split_ifs at hok
      cases hok
      obtain ⟨hnumber, rfl⟩ := packed_ok hbytes
      exact ⟨hsound.read _, hext.trans (extends_read _ _), fun _ => ⟨allocated, hnumber, rfl⟩,
        by simp⟩

def lookedUp (layer : DirectoryLayerState) (prefixBytes : Bytes)
    (previous : Option (Bytes × Bytes)) : Bytes → Bool :=
  scanned (layer.nodeSubspace ++ [0x00]) (nodeKey layer.nodeSubspace (prefixBytes ++ [0])) true
    previous

/-- What a lookup that finds no node of a head of the prefix has seen. -/
structure NoHead (layer : DirectoryLayerState) (rows : Rows) (prefixBytes : Bytes)
    (previous : Option (Bytes × Bytes)) : Prop where
  outside : ¬layer.nodeSubspace <+: prefixBytes
  lookup : Directory.firstInRange rows (layer.nodeSubspace ++ [0x00])
    (nodeKey layer.nodeSubspace (prefixBytes ++ [0])) true = previous
  head : ∀ row, previous = some row →
    ∃ p, IsNodeRow layer.nodeSubspace p row.1 ∧ ¬p <+: prefixBytes

theorem nodeContainingKey_none {snapshot : Bool}
    (h : nodeContainingKey layer prefixBytes snapshot attempt = .ok (none, next)) :
    ∃ previous, NoHead layer attempt.view prefixBytes previous ∧
      next = if snapshot then attempt else attempt.read (lookedUp layer prefixBytes previous) := by
  rw [nodeContainingKey] at h
  split_ifs at h with hroot
  · cases h
  · rw [startsWith_iff] at hroot
    rw [nodeContainingKey_range, packed_bytes] at h
    have hkey : layer.nodeSubspace ++ encodeTuple false [.bytes (prefixBytes ++ [0])] =
        nodeKey layer.nodeSubspace (prefixBytes ++ [0]) := rfl
    rw [hkey] at h
    simp only [firstInRange, bind, Except.bind] at h
    generalize hlookup : Directory.firstInRange attempt.view (layer.nodeSubspace ++ [0x00])
      (nodeKey layer.nodeSubspace (prefixBytes ++ [0])) true = previous at h
    cases previous with
    | none =>
        cases h
        exact ⟨none, ⟨hroot, hlookup, by simp⟩, rfl⟩
    | some row =>
        simp only at h
        split at h
        · cases h
        · rename_i tuple htuple
          split at h
          · cases h
          · rename_i p hp
            by_cases hstarts : startsWith prefixBytes p = true
            · rw [if_pos hstarts, nodeWithPrefix_eq] at h
              cases h
            · rw [if_neg hstarts] at h
              cases h
              refine ⟨some row, ⟨hroot, hlookup, ?_⟩, rfl⟩
              rintro _ ⟨⟩
              exact ⟨p, isNodeRow_of_unpacked htuple hp, (startsWith_iff _ _).not.mp hstarts⟩

/-- A prefix that has been found free has no head, and no row in view belongs to a prefix that
extends it. -/
structure FoundFree (layer : DirectoryLayerState) (rows : Rows) (prefixBytes : Bytes)
    (previous : Option (Bytes × Bytes)) : Prop extends NoHead layer rows prefixBytes previous where
  successor : strinc prefixBytes ≠ []
  extensions : Directory.firstInRange rows (nodeKey layer.nodeSubspace prefixBytes)
    (nodeKey layer.nodeSubspace (strinc prefixBytes)) false = none

theorem isPrefixFree_true {snapshot : Bool}
    (h : isPrefixFree layer prefixBytes snapshot attempt = .ok (true, next)) :
    ∃ previous, FoundFree layer attempt.view prefixBytes previous ∧
      next = if snapshot then attempt else
        (attempt.read (lookedUp layer prefixBytes previous)).read
          (interval (nodeKey layer.nodeSubspace prefixBytes)
            (nodeKey layer.nodeSubspace (strinc prefixBytes))) := by
  rw [isPrefixFree] at h
  split_ifs at h with hempty
  · cases h
  obtain ⟨⟨found, after⟩, hfound, h⟩ := bind_eq_ok.mp h
  cases found with
  | some node => cases h
  | none =>
      obtain ⟨previous, hhead, rfl⟩ := nodeContainingKey_none hfound
      obtain ⟨stop, hstop, h⟩ := bind_eq_ok.mp h
      rw [incrementPrefix] at hstop
      split_ifs at hstop with hnext
      cases hstop
      rw [packed_bytes, packed_bytes] at h
      simp only [firstInRange, bind, Except.bind] at h
      obtain ⟨hrow, hlast⟩ := Prod.mk.inj (Except.ok.inj h)
      have hview : (if snapshot then attempt else
          attempt.read (lookedUp layer prefixBytes previous)).view = attempt.view := by
        cases snapshot <;> rfl
      rw [hview, Option.isNone_iff_eq_none] at hrow
      rw [hview, hrow] at hlast
      refine ⟨previous, ⟨hhead, by simpa [List.isEmpty_iff] using hnext, hrow⟩, ?_⟩
      rw [← hlast]
      cases snapshot with
      | true => rfl
      | false =>
          have hscanned (begin stop : Bytes) :
              scanned begin stop false none = interval begin stop := by
            funext key
            simp [scanned]
          rw [hscanned]
          rfl

theorem Sound.unextended {previous : Option (Bytes × Bytes)} (h : Sound layer attempt)
    (hversion : (attempt.view.get? layer.versionKey).isSome = true)
    (hfree : FoundFree layer attempt.view prefixBytes previous) :
    Unextended layer attempt.snapshot prefixBytes := by
  have hnone := OrderedMap.first?_eq_none.mp hfree.extensions
  have hroot : ¬prefixBytes <+: layer.nodeSubspace := by
    intro hprefix
    have hrow := (isNodeRow_versionKey layer).interval_successor_iff hfree.successor
    rw [hnone _ (hrow.mpr hprefix)] at hversion
    cases hversion
  refine ⟨hroot, fun p key hp hrow => ?_⟩
  have hview := hnone key ((hrow.interval_successor_iff hfree.successor).mpr hp)
  have hnotRoot : p ≠ layer.nodeSubspace := fun heq => hroot (heq ▸ hp)
  rcases h.view_get? (not_allocator hrow hnotRoot) with ⟨value, hget, -⟩ | ⟨-, hget⟩
  · rw [hview] at hget
    cases hget
  · rw [← hget, hview]

/-- What the conflicting check of a prefix guards it against: of an automatic prefix that overlaps
it the layer row has been read, or a row of the snapshot under a prefix that extends the automatic
one. -/
def Guards (layer : DirectoryLayerState) (attempt : Attempt) (prefixBytes : Bytes) : Prop :=
  ∀ p, layer.IsContent p → ¬p <+: layer.nodeSubspace → p <+: prefixBytes ∨ prefixBytes <+: p →
    attempt.reads (layerKey layer.nodeSubspace p) = true ∨
      ∃ q key, p <+: q ∧ IsNodeRow layer.nodeSubspace q key ∧
        (attempt.snapshot.get? key).isSome = true ∧ attempt.reads key = true

theorem Sound.guards {previous : Option (Bytes × Bytes)} (h : Sound layer attempt)
    (hlayered : Layered layer attempt.snapshot)
    (hfree : FoundFree layer attempt.view prefixBytes previous) :
    Guards layer
      ((attempt.read (lookedUp layer prefixBytes previous)).read
        (interval (nodeKey layer.nodeSubspace prefixBytes)
          (nodeKey layer.nodeSubspace (strinc prefixBytes)))) prefixBytes := by
  intro p hcontent hroot hoverlap
  have hrow := isNodeRow_layerKey layer.nodeSubspace p
  have hp : p ≠ layer.nodeSubspace := fun heq => hroot (heq ▸ List.prefix_refl _)
  rw [read_read]
  have hreads {key : Bytes} (hnot : attempt.overwritten key = false)
      (hkey : lookedUp layer prefixBytes previous key = true ∨
        interval (nodeKey layer.nodeSubspace prefixBytes)
          (nodeKey layer.nodeSubspace (strinc prefixBytes)) key = true) :
      (attempt.read fun key => lookedUp layer prefixBytes previous key ||
        interval (nodeKey layer.nodeSubspace prefixBytes)
          (nodeKey layer.nodeSubspace (strinc prefixBytes)) key).reads key = true := by
    simp only [Attempt.read, hnot, Bool.not_false, Bool.and_true, Bool.or_eq_true]
    exact .inr hkey
  have hown := h.view_get? (not_allocator hrow hp)
  rcases hoverlap with hhead | hextends
  · have hlookup := (hrow.interval_lookup_iff prefixBytes).mpr (prefix_le hhead)
    cases previous with
    | none =>
        have hnone := OrderedMap.last?_eq_none.mp hfree.lookup _ hlookup
        rcases hown with ⟨value, hget, -⟩ | ⟨hnot, -⟩
        · simp [hget] at hnone
        · exact .inl (hreads hnot (.inl (by simpa [lookedUp, scanned] using hlookup)))
    | some row =>
        obtain ⟨q, hq, hnot⟩ := hfree.head row rfl
        obtain ⟨hrange, hget, hmax⟩ := OrderedMap.last?_eq_some hfree.lookup
        have hne : p ≠ q := fun heq => hnot (heq ▸ hhead)
        by_cases hle : row.1 ≤ layerKey layer.nodeSubspace p
        · rcases hown with ⟨value, hvalue, -⟩ | ⟨hfresh, -⟩
          · have hge := hmax _ hlookup (by simp [hvalue])
            exact absurd (hrow.inj (le_antisymm hle hge ▸ hq)) hne
          · refine .inl (hreads hfresh (.inl ?_))
            simp only [lookedUp, scanned, hlookup, Bool.true_and, Option.all_some, if_true]
            exact decide_eq_true hle
        · -- The last row lies behind the layer row, so its prefix extends the automatic one.
          have hpq : p <+: q := prefix_of_le_of_le hhead (hrow.le_of_le hq (le_of_not_ge hle))
            ((hq.interval_lookup_iff prefixBytes).mp hrange)
          have hqroot : q ≠ layer.nodeSubspace := fun heq => hroot (heq ▸ hpq)
          rcases h.view_get? (not_allocator hq hqroot) with ⟨value, -, -, hset⟩ | ⟨hfresh, hsnapshot⟩
          · obtain ⟨q', hq', hknown⟩ := hset.node
            obtain rfl := hq.inj hq'
            rcases hknown with heq | hallocated | ⟨⟨p', name, hchild⟩, hread⟩
            · exact absurd heq hqroot
            · obtain ⟨q', heq, hplaced⟩ := h.created _ hallocated
              cases heq
              exact absurd (hcontent.eq_of_head hplaced.content hpq) hne
            · exact .inr ⟨q, _, hpq, isNodeRow_layerKey _ _, hlayered p' q name hchild,
                (extends_read _ _).reads _ hread⟩
          · refine .inr ⟨q, row.1, hpq, hq, ?_, hreads hfresh (.inl ?_)⟩
            · change (attempt.snapshot.get? row.1).isSome = true
              simp [← hsnapshot, hget]
            · simp only [lookedUp, scanned, hrange, Bool.true_and, Option.all_some, if_true]
              exact decide_eq_true le_rfl
  · have hsuccessor := (hrow.interval_successor_iff hfree.successor).mpr hextends
    rcases hown with ⟨value, hget, -⟩ | ⟨hnot, -⟩
    · simp [OrderedMap.first?_eq_none.mp hfree.extensions _ hsuccessor] at hget
    · exact .inl (hreads hnot (.inr hsuccessor))

end Attempt

/-! ## Searches of the engine -/

section Search

variable {layer : DirectoryLayerState} {rows rows' : Rows}

theorem layerKey_ne_versionKey (p : Bytes) :
    layerKey layer.nodeSubspace p ≠ layer.versionKey := by
  intro h
  obtain rfl := (isNodeRow_layerKey layer.nodeSubspace p).inj (h ▸ isNodeRow_versionKey layer)
  exact absurd (List.append_cancel_left h) (by decide)

theorem packed_layerTag (p : Bytes) (description : String) :
    packed (nodeKey layer.nodeSubspace p) [.bytes layerTag] description =
      .ok (layerKey layer.nodeSubspace p) :=
  packed_bytes _ _ _

theorem findNodeFrom_congr (h : ∀ key, key ≠ layer.versionKey → rows'.get? key = rows.get? key)
    (targetPath : DirectoryPath) (p nodeLayer : Bytes) (currentPath path : DirectoryPath) :
    findNodeFrom rows' layer targetPath (nodeKey layer.nodeSubspace p) nodeLayer currentPath path =
      findNodeFrom rows layer targetPath (nodeKey layer.nodeSubspace p) nodeLayer currentPath
        path := by
  induction path generalizing p nodeLayer currentPath with
  | nil => rfl
  | cons component rest ih =>
      rw [findNodeFrom, findNodeFrom]
      cases hkey : packed (nodeKey layer.nodeSubspace p) [.integer 0, .string component]
        "invalid directory child key" with
      | error failure => rfl
      | ok key =>
          obtain rfl : key = childKey layer.nodeSubspace p component := (packed_ok hkey).2
          simp only [bind, Except.bind, nodeWithPrefix_eq, loadLayer, packed_layerTag]
          rw [h _ (ne_childKey _ _ _ _ _).symm]
          cases rows.get? (childKey layer.nodeSubspace p component) with
          | none => rfl
          | some q =>
              dsimp only
              rw [h _ (layerKey_ne_versionKey q)]
              simp only [ih]

theorem findNode_congr (h : ∀ key, key ≠ layer.versionKey → rows'.get? key = rows.get? key)
    {path : DirectoryPath} (hpath : path ≠ []) :
    findNode rows' layer path = findNode rows layer path := by
  cases path with
  | nil => exact absurd rfl hpath
  | cons component rest => exact findNodeFrom_congr h _ _ _ _ _

theorem isInPartition_findNodeFrom {targetPath targetPath' currentPath front : DirectoryPath}
    {last : CodeUnits} {start nodeLayer : Bytes} {node : Node}
    (hnone : findNodeFrom rows layer targetPath' start nodeLayer currentPath (front ++ [last]) =
      .ok none)
    (hfound : findNodeFrom rows layer targetPath start nodeLayer currentPath front =
      .ok (some node))
    (hlength : targetPath.length = currentPath.length + front.length) :
    isInPartition node false = false := by
  induction front generalizing start nodeLayer currentPath with
  | nil =>
      cases hfound
      simp [isInPartition, hlength]
  | cons component rest ih =>
      rw [List.cons_append, findNodeFrom] at hnone
      rw [findNodeFrom] at hfound
      obtain ⟨key, hkey, hfound⟩ := bind_eq_ok.mp hfound
      rw [hkey] at hnone
      simp only [bind, Except.bind] at hnone
      cases hget : rows.get? key with
      | none =>
          rw [hget] at hfound
          cases hfound
      | some q =>
          simp only [hget, nodeWithPrefix_eq, loadLayer, packed_bytes, bind,
            Except.bind] at hnone hfound
          split_ifs at hnone hfound with hpartition
          · cases hnone
          · refine ih hnone hfound ?_
            simp only [List.length_append, List.length_cons, List.length_nil] at hlength ⊢
            omega

theorem isInPartition_findNode {path : DirectoryPath} {node : Node}
    (hnone : findNode rows layer path = .ok none)
    (hfound : findNode rows layer path.dropLast = .ok (some node)) (hpath : path.dropLast ≠ []) :
    isInPartition node false = false := by
  have hne : path ≠ [] := fun heq => hpath (by simp [heq])
  have hsplit := List.dropLast_append_getLast hne
  generalize path.dropLast = front at hfound hpath hsplit
  generalize path.getLast hne = last at hsplit
  subst hsplit
  cases front with
  | nil => exact absurd rfl hpath
  | cons component rest =>
      exact isInPartition_findNodeFrom hnone hfound (by simp)

theorem contentsOfNode_ok {path : DirectoryPath} {p nodeLayer : Bytes} {output : DirectoryOutput}
    (h : contentsOfNode layer (nodeKey layer.nodeSubspace p) path nodeLayer = .ok output)
    {directoryLayer : DirectoryLayerState} {relativePath : DirectoryPath}
    {prefixBytes nodeLayer' : Bytes}
    (houtput : output = .subspace directoryLayer relativePath prefixBytes nodeLayer') :
    prefixBytes = p := by
  subst houtput
  rw [contentsOfNode, nodeKey, unpacked_eq layer.nodeSubspace rfl] at h
  simp only [bind, Except.bind, asBytes, List.head?_cons, List.length_singleton, ne_eq,
    not_true_eq_false, if_false] at h
  split_ifs at h
  · cases h
  · cases h
    rfl

theorem nested_of_partitionOf {node : Node} {nested : DirectoryLayerState}
    (h : partitionOf layer node = .ok nested) : nested.allowManualPrefixes = false := by
  obtain ⟨output, houtput, h⟩ := bind_eq_ok.mp h
  rw [getContents, contentsOfNode] at houtput
  obtain ⟨tuple, -, houtput⟩ := bind_eq_ok.mp houtput
  split_ifs at houtput
  · obtain ⟨p, -, houtput⟩ := bind_eq_ok.mp houtput
    cases houtput
    cases h
    rfl
  · obtain ⟨p, -, houtput⟩ := bind_eq_ok.mp houtput
    cases houtput
    cases h

end Search

namespace Attempt

variable {layer : DirectoryLayerState} {attempt next : Attempt} {prefixBytes : Bytes}

/-! ## Calls that create -/

theorem Sound.create {parent : Bytes} (h : Sound layer attempt) (hparent : attempt.Known layer parent)
    (hcontent : layer.IsContent prefixBytes)
    (hunextended : Unextended layer attempt.snapshot prefixBytes) (name : CodeUnits)
    (nodeLayer : Bytes) :
    Sound layer (attempt.create layer (childKey layer.nodeSubspace parent name)
      (layerKey layer.nodeSubspace prefixBytes) prefixBytes nodeLayer true) := by
  have hext := extends_create attempt layer (childKey layer.nodeSubspace parent name)
    (layerKey layer.nodeSubspace prefixBytes) prefixBytes nodeLayer true
  have hallocated : (attempt.create layer (childKey layer.nodeSubspace parent name)
      (layerKey layer.nodeSubspace prefixBytes) prefixBytes nodeLayer true).Allocated layer
        prefixBytes :=
    List.mem_append_right _ (List.mem_singleton_self _)
  refine h.extend hext ?_ ?_
  · intro mutation hmem
    rcases List.mem_append.mp hmem with hmem | hlast
    · rcases List.mem_append.mp hmem with hold | hchild
      · exact .inl hold
      · refine .inr (.inr ⟨_, _, List.mem_singleton.mp hchild, ⟨by simp [Attempt.create, set], ?_, ?_⟩⟩)
        · exact ⟨parent, isNodeRow_childKey _ _ _, hparent.extend hext⟩
        · exact fun _ _ _ => hallocated
    · refine .inr (.inr ⟨_, _, List.mem_singleton.mp hlast, ⟨by simp [Attempt.create, set], ?_, ?_⟩⟩)
      · exact ⟨prefixBytes, isNodeRow_layerKey _ _, .inr (.inl hallocated)⟩
      · exact fun p name hkey => absurd hkey (ne_childKey _ _ _ _ _)
  · intro creation hmem
    rcases List.mem_append.mp hmem with hold | hnew
    · exact .inl hold
    · exact .inr ⟨prefixBytes, List.mem_singleton.mp hnew,
        ⟨hcontent, by simp [Attempt.create, set], hunextended⟩⟩

/-- A call that creates one directory, from the attempt in which it has chosen the prefix on. -/
structure CreatesFrom (layer : DirectoryLayerState) (chosen next : Attempt) (parent : Bytes)
    (name : CodeUnits) (prefixBytes nodeLayer : Bytes) (automatic : Bool)
    (previous : Option (Bytes × Bytes)) : Prop where
  sound : Sound layer chosen
  versioned : (chosen.view.get? layer.versionKey).isSome = true
  known : chosen.Known layer parent
  free : FoundFree layer chosen.view prefixBytes previous
  content : automatic = true → layer.IsContent prefixBytes
  next_eq : next = Attempt.create layer (childKey layer.nodeSubspace parent name)
    (layerKey layer.nodeSubspace prefixBytes) prefixBytes nodeLayer automatic
    (if automatic then chosen else
      (chosen.read (lookedUp layer prefixBytes previous)).read
        (interval (nodeKey layer.nodeSubspace prefixBytes)
          (nodeKey layer.nodeSubspace (strinc prefixBytes))))

/-- A call that opens or creates a directory outside the partitions of the layer gives it a known
prefix. -/
def Opens (layer : DirectoryLayerState) (attempt : Attempt) (path : DirectoryPath)
    (result : Except DirectoryFailure (DirectoryOutput × Attempt)) : Prop :=
  path ≠ [] →
  (∀ node, Directory.findNode attempt.view layer path = .ok (some node) →
    isInPartition node false = false) →
  ∀ output next, result = .ok (output, next) →
    Sound layer next ∧ Extends attempt next ∧
      ∀ directoryLayer relativePath p nodeLayer,
        output = .subspace directoryLayer relativePath p nodeLayer → next.Known layer p

theorem Sound.getParentNode
    {createOrOpen : DirectoryPath → Attempt → Except DirectoryFailure (DirectoryOutput × Attempt)}
    {path : DirectoryPath} {parent : Bytes} (h : Sound layer attempt)
    (hopens : Opens layer attempt path.dropLast (createOrOpen path.dropLast attempt))
    (hnone : Directory.findNode attempt.view layer path = .ok none)
    (hok : getParentNode createOrOpen layer path attempt = .ok (parent, next)) :
    Sound layer next ∧ Extends attempt next ∧
      ∃ p, parent = nodeKey layer.nodeSubspace p ∧ next.Known layer p := by
  rw [Attempt.getParentNode] at hok
  split_ifs at hok with hroot
  · cases hok
    exact ⟨h, .refl _, _, rfl, .inl rfl⟩
  · have hpath : path.dropLast ≠ [] := fun heq => hroot (by simp [heq])
    obtain ⟨⟨output, after⟩, hafter, hok⟩ := bind_eq_ok.mp hok
    obtain ⟨hsound, hext, hknown⟩ := hopens hpath
      (fun node hnode => isInPartition_findNode hnone hnode hpath) output after hafter
    cases output with
    | «partition» parentLayer parentRelativePath directoryLayer => cases hok
    | subspace directoryLayer relativePath p nodeLayer =>
        simp only [nodeWithPrefix_eq, bind, Except.bind] at hok
        cases hok
        exact ⟨hsound, hext, p, rfl, hknown _ _ _ _ rfl⟩

theorem Sound.createInternal
    {createOrOpen : DirectoryPath → Attempt → Except DirectoryFailure (DirectoryOutput × Attempt)}
    {path : DirectoryPath} {explicit nodeLayer : Option Bytes} {output : DirectoryOutput}
    (h : Sound layer attempt)
    (hopens : ∀ attempt, Sound layer attempt →
      Opens layer attempt path.dropLast (createOrOpen path.dropLast attempt))
    (hnone : Directory.findNode attempt.view layer path = .ok none)
    (hok : createInternal createOrOpen layer path explicit nodeLayer attempt = .ok (output, next)) :
    ∃ chosen parent name prefixBytes previous,
      Extends attempt chosen ∧ (explicit.isSome = true → explicit = some prefixBytes) ∧
        CreatesFrom layer chosen next parent name prefixBytes (nodeLayer.getD []) explicit.isNone
          previous ∧
        ∀ directoryLayer relativePath p nodeLayer,
          output = .subspace directoryLayer relativePath p nodeLayer → p = prefixBytes := by
  rw [Attempt.createInternal] at hok
  cases hlast : path.getLast? with
  | none =>
      rw [hlast] at hok
      cases hok
  | some name =>
      rw [hlast] at hok
      have hpath : path ≠ [] := fun heq => by simp [heq] at hlast
      obtain ⟨versioned, hversioned, hok⟩ := bind_eq_ok.mp hok
      obtain ⟨hsound, hext, hview, hversion⟩ := h.checkVersion hversioned
      rw [← findNode_congr hview hpath] at hnone
      obtain ⟨⟨node, opened⟩, hopened, hok⟩ := bind_eq_ok.mp hok
      obtain ⟨hsound', hext', parent, rfl, hknown⟩ :=
        hsound.getParentNode (hopens versioned hsound) hnone hopened
      obtain ⟨⟨prefixBytes, chosen⟩, hchosen, hok⟩ := bind_eq_ok.mp hok
      obtain ⟨hsound'', hext'', hcontent, hexplicit⟩ := hsound'.choosePrefix hchosen
      obtain ⟨⟨free, checked⟩, hchecked, hok⟩ := bind_eq_ok.mp hok
      cases free with
      | false => cases hok
      | true =>
          obtain ⟨previous, hfree, hnext⟩ := isPrefixFree_true hchecked
          simp only [Bool.not_true, Bool.false_eq_true, if_false, nodeWithPrefix_eq] at hok
          obtain ⟨_, ⟨⟩, hok⟩ := bind_eq_ok.mp hok
          obtain ⟨child, hchild, hok⟩ := bind_eq_ok.mp hok
          obtain rfl : child = childKey layer.nodeSubspace parent name := (packed_ok hchild).2
          rw [packed_layerTag] at hok
          obtain ⟨_, ⟨⟩, hok⟩ := bind_eq_ok.mp hok
          obtain ⟨output', houtput, hok⟩ := bind_eq_ok.mp hok
          cases hok
          have hversioned' := hsound.view_isSome hsound'' (hext'.trans hext'')
            not_allocator_versionKey (hversion rfl)
          refine ⟨chosen, parent, name, prefixBytes, previous, hext.trans (hext'.trans hext''),
            hexplicit, ⟨hsound'', hversioned', hknown.extend hext'', hfree, ?_, ?_⟩, ?_⟩
          · intro hnone
            exact hcontent (Option.isNone_iff_eq_none.mp hnone)
          · rw [hnext]
          · intro directoryLayer relativePath p nodeLayer' heq
            exact contentsOfNode_ok houtput heq

theorem CreatesFrom.sound_next {chosen : Attempt} {parent nodeLayer : Bytes} {name : CodeUnits}
    {previous : Option (Bytes × Bytes)}
    (h : CreatesFrom layer chosen next parent name prefixBytes nodeLayer true previous) :
    Sound layer next ∧ Extends chosen next := by
  rw [h.next_eq, if_pos rfl]
  exact ⟨h.sound.create h.known (h.content rfl) (h.sound.unextended h.versioned h.free) name
    nodeLayer, extends_create _ _ _ _ _ _ _⟩

theorem opens_createOrOpenInternal (fuel : Nat) (path : DirectoryPath)
    (expectedLayer : Option Bytes) (allowCreate allowOpen : Bool) (h : Sound layer attempt) :
    Opens layer attempt path
      (createOrOpenInternal fuel layer path none expectedLayer allowCreate allowOpen attempt) := by
  induction fuel generalizing path expectedLayer allowCreate allowOpen attempt with
  | zero =>
      intro _ _ output next hok
      cases hok
  | succ fuel ih =>
      intro hpath hinside output next hok
      rw [createOrOpenInternal] at hok
      obtain ⟨checked, hchecked, hok⟩ := bind_eq_ok.mp hok
      obtain ⟨hsound, hext, hview, -⟩ := h.checkVersion hchecked
      simp only [Option.isSome_none, Bool.false_eq_true, false_and, if_false,
        List.length_eq_zero_iff, hpath] at hok
      obtain ⟨⟨found, searched⟩, hfound, hok⟩ := bind_eq_ok.mp hok
      obtain ⟨hsound', hext', hview', hnode⟩ := hsound.findNode hpath hfound
      have hplain := findNode_plain hfound
      cases found with
      | none =>
          cases allowCreate with
          | false => cases hok
          | true =>
              rw [← hview'] at hplain
              obtain ⟨chosen, parent, name, prefixBytes, previous, hchosen, -, hcreates, houtput⟩ :=
                hsound'.createInternal (fun _ hattempt => ih _ _ _ _ hattempt) hplain hok
              obtain ⟨hsound'', hext''⟩ := hcreates.sound_next
              refine ⟨hsound'', hext.trans (hext'.trans (hchosen.trans hext'')), ?_⟩
              intro directoryLayer relativePath p nodeLayer heq
              obtain rfl := houtput _ _ _ _ heq
              rw [hcreates.next_eq]
              exact .inr (.inl (List.mem_append_right _ (List.mem_singleton_self _)))
      | some node =>
          rw [findNode_congr hview hpath] at hplain
          simp only [hinside node hplain, Bool.false_eq_true, if_false] at hok
          split_ifs at hok
          obtain ⟨output', houtput, hok⟩ := bind_eq_ok.mp hok
          cases hok
          obtain ⟨q, hq, hknown⟩ := hnode node rfl
          refine ⟨hsound', hext.trans hext', ?_⟩
          intro directoryLayer relativePath p nodeLayer heq
          rw [getContents, hq] at houtput
          obtain rfl := contentsOfNode_ok houtput heq
          exact hknown

/-! ## Where a call creates -/

theorem created_of_findNode {path : DirectoryPath} {found : Option Node}
    (hok : findNode layer path attempt = .ok (found, next)) : next.created = attempt.created := by
  cases path with
  | nil =>
      rw [findNode, loadLayer] at hok
      simp only [DirectoryLayerState.rootNode, packed_layerTag, get, bind, Except.bind] at hok
      cases hok
      rfl
  | cons component rest =>
      obtain ⟨keys, rfl, -⟩ := findNodeFrom_ok hok
      rfl

theorem created_of_checkVersion {write : Bool} (hok : checkVersion layer write attempt = .ok next) :
    next.created = attempt.created := by
  rcases checkVersion_ok hok with ⟨rfl, -⟩ | ⟨-, rfl⟩ <;> rfl

theorem created_of_choosePrefix {explicit : Option Bytes}
    (hok : choosePrefix layer explicit attempt = .ok (prefixBytes, next)) :
    next.created = attempt.created := by
  cases explicit with
  | some explicit =>
      cases hok
      rfl
  | none =>
      obtain ⟨⟨allocated, after⟩, hallocated, hok⟩ := bind_eq_ok.mp hok
      obtain ⟨bytes, -, hok⟩ := bind_eq_ok.mp hok
      obtain ⟨stop, -, hok⟩ := bind_eq_ok.mp hok
      simp only [firstInRange, Bool.false_eq_true, if_false] at hok
      split_ifs at hok
      cases hok
      change after.created = _
      rw [allocatePrefix] at hallocated
      split at hallocated
      · cases hallocated
      · split at hallocated
        · cases hallocated
        · obtain ⟨mutations, -, hallocated⟩ := bind_eq_ok.mp hallocated
          cases hallocated
          rfl

/-- A creation by a call on a layer: on that layer or on one inside a partition, and with a manual
prefix only where these are allowed. -/
structure CreatedOn (layer : DirectoryLayerState) (creation : Creation) : Prop where
  place : creation.directoryLayer = layer ∨
    creation.directoryLayer.allowManualPrefixes = false
  allowed : creation.automatic = true ∨ creation.directoryLayer.allowManualPrefixes = true

def CreatesOn (layer : DirectoryLayerState) (attempt : Attempt)
    (result : Except DirectoryFailure (DirectoryOutput × Attempt)) : Prop :=
  ∀ output next, result = .ok (output, next) → ∀ creation ∈ next.created,
    creation ∈ attempt.created ∨ CreatedOn layer creation

theorem createsOn_getParentNode
    {createOrOpen : DirectoryPath → Attempt → Except DirectoryFailure (DirectoryOutput × Attempt)}
    {path : DirectoryPath} {parent : Bytes}
    (hcreates : CreatesOn layer attempt (createOrOpen path.dropLast attempt))
    (hok : getParentNode createOrOpen layer path attempt = .ok (parent, next)) :
    ∀ creation ∈ next.created, creation ∈ attempt.created ∨ CreatedOn layer creation := by
  rw [getParentNode] at hok
  split_ifs at hok with hroot
  · cases hok
    exact fun creation hmem => .inl hmem
  · obtain ⟨⟨output, after⟩, hafter, hok⟩ := bind_eq_ok.mp hok
    cases output with
    | «partition» parentLayer parentRelativePath directoryLayer => cases hok
    | subspace directoryLayer relativePath p nodeLayer =>
        simp only [nodeWithPrefix_eq, bind, Except.bind] at hok
        cases hok
        exact hcreates _ _ hafter

theorem createsOn_createInternal
    {createOrOpen : DirectoryPath → Attempt → Except DirectoryFailure (DirectoryOutput × Attempt)}
    {path : DirectoryPath} {explicit nodeLayer : Option Bytes}
    (hallowed : explicit.isSome = true → layer.allowManualPrefixes = true)
    (hcreates : ∀ attempt, CreatesOn layer attempt (createOrOpen path.dropLast attempt)) :
    CreatesOn layer attempt
      (createInternal createOrOpen layer path explicit nodeLayer attempt) := by
  intro output next hok creation hmem
  rw [createInternal] at hok
  cases hlast : path.getLast? with
  | none =>
      rw [hlast] at hok
      cases hok
  | some name =>
      rw [hlast] at hok
      obtain ⟨versioned, hversioned, hok⟩ := bind_eq_ok.mp hok
      obtain ⟨⟨node, opened⟩, hopened, hok⟩ := bind_eq_ok.mp hok
      obtain ⟨⟨prefixBytes, chosen⟩, hchosen, hok⟩ := bind_eq_ok.mp hok
      obtain ⟨⟨free, checked⟩, hchecked, hok⟩ := bind_eq_ok.mp hok
      cases free with
      | false => cases hok
      | true =>
          obtain ⟨previous, -, hnext⟩ := isPrefixFree_true hchecked
          simp only [Bool.not_true, Bool.false_eq_true, if_false] at hok
          obtain ⟨_, -, hok⟩ := bind_eq_ok.mp hok
          obtain ⟨child, -, hok⟩ := bind_eq_ok.mp hok
          obtain ⟨_, -, hok⟩ := bind_eq_ok.mp hok
          obtain ⟨output', -, hok⟩ := bind_eq_ok.mp hok
          cases hok
          rcases List.mem_append.mp hmem with hold | hnew
          · have hcreated : checked.created = opened.created := by
              rw [hnext, ← created_of_choosePrefix hchosen]
              split_ifs <;> rfl
            rw [hcreated] at hold
            rw [← created_of_checkVersion hversioned]
            exact createsOn_getParentNode (hcreates versioned) hopened creation hold
          · rw [List.mem_singleton.mp hnew]
            refine .inr ⟨.inl rfl, ?_⟩
            cases explicit with
            | none => exact .inl rfl
            | some explicit => exact .inr (hallowed rfl)

theorem createsOn_createOrOpenInternal (fuel : Nat) (layer : DirectoryLayerState)
    (path : DirectoryPath) (explicit expectedLayer : Option Bytes) (allowCreate allowOpen : Bool)
    (attempt : Attempt) :
    CreatesOn layer attempt
      (createOrOpenInternal fuel layer path explicit expectedLayer allowCreate allowOpen
        attempt) := by
  induction fuel generalizing layer path explicit expectedLayer allowCreate allowOpen attempt with
  | zero =>
      intro output next hok
      cases hok
  | succ fuel ih =>
      intro output next hok creation hmem
      rw [createOrOpenInternal] at hok
      obtain ⟨checked, hchecked, hok⟩ := bind_eq_ok.mp hok
      rw [← created_of_checkVersion hchecked]
      by_cases hmanual : explicit.isSome = true ∧ ¬layer.allowManualPrefixes = true
      · rw [if_pos hmanual] at hok
        cases hok
      rw [if_neg hmanual] at hok
      by_cases hempty : path.length = 0
      · rw [if_pos hempty] at hok
        cases hok
      rw [if_neg hempty] at hok
      obtain ⟨⟨found, searched⟩, hfound, hok⟩ := bind_eq_ok.mp hok
      rw [← created_of_findNode hfound]
      cases found with
      | none =>
          cases allowCreate with
          | false => cases hok
          | true =>
              refine createsOn_createInternal ?_ (fun _ => ih _ _ _ _ _ _ _) _ _ hok _ hmem
              exact fun hsome => not_not.mp fun hnot => hmanual ⟨hsome, hnot⟩
      | some node =>
          dsimp only at hok
          by_cases hinside : isInPartition node false = true
          · rw [if_pos hinside] at hok
            obtain ⟨nested, hnested, hok⟩ := bind_eq_ok.mp hok
            have hlayer := nested_of_partitionOf hnested
            have hall : creation ∈ searched.created ∨ CreatedOn nested creation := by
              cases allowCreate with
              | false => exact ih _ _ _ _ _ _ _ _ _ hok _ hmem
              | true => exact ih _ _ _ _ _ _ _ _ _ hok _ hmem
            rcases hall with hold | ⟨rfl | hnot, hallowed⟩
            · exact .inl hold
            · exact .inr ⟨.inr hlayer, hallowed⟩
            · exact .inr ⟨.inr hnot, hallowed⟩
          · rw [if_neg hinside] at hok
            split_ifs at hok
            obtain ⟨output', -, hok⟩ := bind_eq_ok.mp hok
            cases hok
            exact .inl hmem

theorem CreatesFrom.extends {chosen : Attempt} {parent nodeLayer : Bytes} {name : CodeUnits}
    {automatic : Bool} {previous : Option (Bytes × Bytes)}
    (h : CreatesFrom layer chosen next parent name prefixBytes nodeLayer automatic previous) :
    Extends chosen next := by
  rw [h.next_eq]
  refine Extends.trans ?_ (extends_create _ _ _ _ _ _ _)
  split_ifs
  · exact .refl _
  · exact (extends_read _ _).trans (extends_read _ _)

theorem CreatesFrom.mem_created {chosen : Attempt} {parent nodeLayer : Bytes} {name : CodeUnits}
    {automatic : Bool} {previous : Option (Bytes × Bytes)} {creation : Creation}
    (h : CreatesFrom layer chosen next parent name prefixBytes nodeLayer automatic previous)
    (hmem : creation ∈ next.created) :
    creation ∈ chosen.created ∨ creation = ⟨layer, prefixBytes, automatic⟩ := by
  rw [h.next_eq, Attempt.create] at hmem
  rcases List.mem_append.mp hmem with hold | hnew
  · refine .inl ?_
    split_ifs at hold <;> exact hold
  · exact .inr (List.mem_singleton.mp hnew)

def Runs (layer : DirectoryLayerState) (snapshot : Rows) (attempt : Attempt) : Prop :=
  ∃ fuel path explicit expectedLayer allowCreate allowOpen draws output,
    createOrOpenInternal fuel layer path explicit expectedLayer allowCreate allowOpen
      { snapshot, draws } = .ok (output, attempt)

theorem Runs.createsFrom {snapshot : Rows} {creation : Creation} (h : Runs layer snapshot attempt)
    (hmem : creation ∈ attempt.created) (hlayer : creation.directoryLayer = layer)
    (hmanual : layer.allowManualPrefixes = true) :
    ∃ chosen parent name prefixBytes nodeLayer automatic previous,
      chosen.snapshot = snapshot ∧
        CreatesFrom layer chosen attempt parent name prefixBytes nodeLayer automatic previous := by
  obtain ⟨fuel, path, explicit, expectedLayer, allowCreate, allowOpen, draws, output, hok⟩ := h
  cases fuel with
  | zero => cases hok
  | succ fuel =>
      rw [createOrOpenInternal] at hok
      obtain ⟨checked, hchecked, hok⟩ := bind_eq_ok.mp hok
      obtain ⟨hsound, hext, -, -⟩ := (sound_start layer snapshot draws).checkVersion hchecked
      rw [if_neg (by simp [hmanual])] at hok
      by_cases hempty : path.length = 0
      · rw [if_pos hempty] at hok
        cases hok
      rw [if_neg hempty] at hok
      have hpath : path ≠ [] := fun heq => hempty (by simp [heq])
      obtain ⟨⟨found, searched⟩, hfound, hok⟩ := bind_eq_ok.mp hok
      obtain ⟨hsound', hext', hview, -⟩ := hsound.findNode hpath hfound
      have hnothing : creation ∉ searched.created := by
        rw [created_of_findNode hfound, created_of_checkVersion hchecked]
        simp
      cases found with
      | none =>
          cases allowCreate with
          | false => cases hok
          | true =>
              have hplain := findNode_plain hfound
              rw [← hview] at hplain
              obtain ⟨chosen, parent, name, prefixBytes, previous, hchosen, -, hcreates, -⟩ :=
                hsound'.createInternal
                  (fun _ hattempt => opens_createOrOpenInternal _ _ _ _ _ hattempt) hplain hok
              exact ⟨chosen, parent, name, prefixBytes, _, _, previous,
                (hext.trans (hext'.trans hchosen)).snapshot, hcreates⟩
      | some node =>
          exfalso
          dsimp only at hok
          by_cases hinside : isInPartition node false = true
          · rw [if_pos hinside] at hok
            obtain ⟨nested, hnested, hok⟩ := bind_eq_ok.mp hok
            have hall : creation ∈ searched.created ∨ CreatedOn nested creation := by
              cases allowCreate with
              | false => exact createsOn_createOrOpenInternal _ _ _ _ _ _ _ _ _ _ hok _ hmem
              | true => exact createsOn_createOrOpenInternal _ _ _ _ _ _ _ _ _ _ hok _ hmem
            rcases hall with hold | ⟨heq | hnot, -⟩
            · exact hnothing hold
            · have hnested := nested_of_partitionOf hnested
              rw [← heq, hlayer, hmanual] at hnested
              cases hnested
            · simp [hlayer, hmanual] at hnot
          · rw [if_neg hinside] at hok
            split_ifs at hok
            obtain ⟨output', -, hok⟩ := bind_eq_ok.mp hok
            cases hok
            exact hnothing hmem

theorem Runs.placed {snapshot : Rows} (h : Runs layer snapshot attempt)
    (hmem : (⟨layer, prefixBytes, true⟩ : Creation) ∈ attempt.created)
    (hmanual : layer.allowManualPrefixes = true) :
    attempt.snapshot = snapshot ∧ attempt.Placed layer prefixBytes := by
  obtain ⟨chosen, parent, name, p, nodeLayer, automatic, previous, hsnapshot, hcreates⟩ :=
    h.createsFrom hmem rfl hmanual
  refine ⟨hcreates.extends.snapshot.trans hsnapshot, ?_⟩
  cases automatic with
  | true =>
      obtain ⟨q, heq, hplaced⟩ := hcreates.sound_next.1.created _ hmem
      cases heq
      exact hplaced
  | false =>
      rcases hcreates.mem_created hmem with hold | hnew
      · obtain ⟨q, heq, hplaced⟩ := hcreates.sound.created _ hold
        cases heq
        exact hplaced.extend hcreates.extends
      · cases hnew

theorem Runs.allowed {snapshot : Rows} (h : Runs layer snapshot attempt)
    (hmem : (⟨layer, prefixBytes, false⟩ : Creation) ∈ attempt.created) :
    layer.allowManualPrefixes = true := by
  obtain ⟨fuel, path, explicit, expectedLayer, allowCreate, allowOpen, draws, output, hok⟩ := h
  rcases createsOn_createOrOpenInternal _ _ _ _ _ _ _ _ _ _ hok _ hmem with hold | ⟨-, hnot | hallowed⟩
  · cases hold
  · cases hnot
  · exact hallowed

theorem Runs.guards {snapshot : Rows} (h : Runs layer snapshot attempt)
    (hmem : (⟨layer, prefixBytes, false⟩ : Creation) ∈ attempt.created)
    (hlayered : Layered layer snapshot) :
    attempt.snapshot = snapshot ∧ attempt.Guards layer prefixBytes := by
  obtain ⟨chosen, parent, name, p, nodeLayer, automatic, previous, hsnapshot, hcreates⟩ :=
    h.createsFrom hmem rfl (h.allowed hmem)
  refine ⟨hcreates.extends.snapshot.trans hsnapshot, ?_⟩
  rcases hcreates.mem_created hmem with hold | hnew
  · obtain ⟨q, heq, -⟩ := hcreates.sound.created _ hold
    cases heq
  · cases hnew
    rw [hcreates.next_eq]
    exact hcreates.sound.guards (hsnapshot ▸ hlayered) hcreates.free

end Attempt

end FoundationDbEffect.Directory
