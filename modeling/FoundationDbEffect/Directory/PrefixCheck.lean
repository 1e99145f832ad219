import FoundationDbEffect.Directory.Engine
import FoundationDbEffect.Tuple.Order
import Mathlib.Data.List.TakeWhile

/-!
# The check of a new prefix

The rows of a layer are in the order of their prefixes.  The last row that lies before every
extension of a new prefix belongs to the only node whose prefix can be a head of it, and the
rows from the new prefix to its successor belong to the nodes that have it as a head.
-/

namespace FoundationDbEffect.Directory

open FoundationDbEffect.Foundation FoundationDbEffect.TupleLayer
open FoundationDbEffect.Foundation.ByteOrder

/-! ## Keys of tuples -/

@[simp] theorem pack_fromBytes_bytes (subspace value : Bytes) :
    (Subspace.fromBytes subspace).pack [.bytes value] =
      .ok (subspace ++ encodeTuple false [.bytes value]) := by
  rw [Subspace.pack_ok_iff]
  exact ⟨rfl, rfl⟩

@[simp] theorem packed_bytes (subspace value : Bytes) (description : String) :
    packed subspace [.bytes value] description =
      .ok (subspace ++ encodeTuple false [.bytes value]) := by
  rw [packed, pack_fromBytes_bytes]
  rfl

@[simp] theorem nodeWithPrefix_eq (layer : DirectoryLayerState) (prefixBytes : Bytes) :
    nodeWithPrefix layer prefixBytes = .ok (nodeKey layer.nodeSubspace prefixBytes) :=
  packed_bytes _ _ "invalid directory node prefix"

theorem unpack_fromBytes (subspace : Bytes) {t : Tuple} (h : firstRejection t = none) :
    (Subspace.fromBytes subspace).unpack (subspace ++ encodeTuple false t) = some (.ok t) := by
  have hcontains :
      (Subspace.fromBytes subspace).contains (subspace ++ encodeTuple false t) = true :=
    List.isPrefixOf_iff_prefix.mpr (List.prefix_append _ _)
  rw [Subspace.unpack, if_pos hcontains, Subspace.fromBytes, List.drop_left,
    unpack_encodeTuple t h]

theorem unpacked_eq (subspace : Bytes) {t : Tuple} (h : firstRejection t = none)
    (description : String) :
    unpacked subspace (subspace ++ encodeTuple false t) description = .ok t := by
  rw [unpacked, unpack_fromBytes subspace h]
  rfl

/-! ## The successor of a prefix -/

theorem strinc_ne_nil_iff (key : Bytes) : strinc key ≠ [] ↔ ∃ byte ∈ key, byte ≠ 0xff := by
  rw [strinc]
  cases hdrop : key.reverse.dropWhile (· = 0xff) with
  | nil =>
      rw [List.dropWhile_eq_nil_iff] at hdrop
      simpa using hdrop
  | cons last front =>
      have hlast := List.head_dropWhile_not (l := key.reverse) (fun byte => decide (byte = 0xff))
        (by simp [hdrop])
      simp only [hdrop, List.head_cons, decide_eq_false_iff_not] at hlast
      have hmem : last ∈ key.reverse :=
        (List.dropWhile_suffix fun byte => decide (byte = 0xff)).subset (by simp [hdrop])
      simpa using ⟨last, List.mem_reverse.mp hmem, hlast⟩

theorem interval_strinc_iff {start : Bytes} (h : strinc start ≠ []) (key : Bytes) :
    interval start (strinc start) key = true ↔ start <+: key := by
  rw [strinc] at h ⊢
  cases hdrop : start.reverse.dropWhile (· = 0xff) with
  | nil => simp [hdrop] at h
  | cons last front =>
      have hlast := List.head_dropWhile_not (l := start.reverse) (fun byte => decide (byte = 0xff))
        (by simp [hdrop])
      simp only [hdrop, List.head_cons, decide_eq_false_iff_not] at hlast
      have hsplit := List.takeWhile_append_dropWhile (p := fun byte => decide (byte = 0xff))
        (l := start.reverse)
      have htail : ∀ byte ∈ start.reverse.takeWhile (fun byte => decide (byte = 0xff)),
          byte = 0xff := fun byte hbyte => by simpa using List.mem_takeWhile_imp hbyte
      generalize start.reverse.takeWhile (fun byte => decide (byte = 0xff)) = tail at hsplit htail
      rw [hdrop] at hsplit
      have hstart : start = front.reverse ++ last :: tail.reverse := by
        rw [← start.reverse_reverse, ← hsplit]
        simp
      rw [hstart]
      exact interval_next_iff _ hlast (by simpa using htail) key

/-! ## Rows of nodes -/

/-- A key below the node of a prefix, whatever follows the prefix in it. -/
def IsNodeRow (nodeSubspace prefixBytes key : Bytes) : Prop :=
  ∃ rest, Follows rest ∧ key = nodeKey nodeSubspace prefixBytes ++ rest

section NodeRow

variable {nodeSubspace p q key key' : Bytes}

theorem lexBytes_nodeKey (nodeSubspace p q : Bytes) {r s : Bytes} (hr : Follows r)
    (hs : Follows s) :
    lexBytes (nodeKey nodeSubspace p ++ r) (nodeKey nodeSubspace q ++ s) =
      (lexBytes p q).then (lexBytes r s) := by
  simp only [nodeKey, encodeTuple, encodeValue, List.append_nil, List.append_assoc,
    List.cons_append]
  rw [lexBytes, compareLex_append_left, compareLex_cons_self, ← lexBytes,
    lexBytes_encodeEscaped p q hr hs]

theorem IsNodeRow.le_of_le (h : IsNodeRow nodeSubspace p key) (h' : IsNodeRow nodeSubspace q key')
    (hle : key ≤ key') : p ≤ q := by
  obtain ⟨r, hr, rfl⟩ := h
  obtain ⟨s, hs, rfl⟩ := h'
  by_contra hlt
  refine absurd hle (not_le.mpr ?_)
  rw [← lexBytes_eq_lt_iff, lexBytes_nodeKey _ _ _ hs hr,
    (lexBytes_eq_lt_iff q p).mpr (not_le.mp hlt), Ordering.lt_then]

theorem IsNodeRow.inj (h : IsNodeRow nodeSubspace p key) (h' : IsNodeRow nodeSubspace q key) :
    p = q :=
  le_antisymm (h.le_of_le h' le_rfl) (h'.le_of_le h le_rfl)

theorem IsNodeRow.lt_nodeKey_iff (h : IsNodeRow nodeSubspace p key) :
    key < nodeKey nodeSubspace q ↔ p < q := by
  obtain ⟨r, hr, rfl⟩ := h
  have hcompare := lexBytes_nodeKey nodeSubspace p q hr follows_nil
  have hnot : lexBytes r [] ≠ .lt := by
    rw [Ne, lexBytes_eq_lt_iff]
    simp
  rw [List.append_nil] at hcompare
  rw [← lexBytes_eq_lt_iff, hcompare, Ordering.then_eq_lt, lexBytes_eq_lt_iff]
  simp [hnot]

theorem IsNodeRow.begin_le (h : IsNodeRow nodeSubspace p key) : nodeSubspace ++ [0x00] ≤ key := by
  obtain ⟨r, -, rfl⟩ := h
  rw [nodeKey, List.append_assoc, append_le_append_iff, ← not_lt, encodeTuple, encodeValue,
    List.cons_append, List.cons_append, List.cons_lt_cons_iff]
  simp

/-- The rows before the subspace of a key with a zero byte behind it are those of the prefixes
up to that key. -/
theorem IsNodeRow.interval_lookup_iff (h : IsNodeRow nodeSubspace p key) (value : Bytes) :
    interval (nodeSubspace ++ [0x00]) (nodeKey nodeSubspace (value ++ [0])) key = true ↔
      p ≤ value := by
  rw [interval_iff, h.lt_nodeKey_iff, lt_concat_zero_iff]
  exact and_iff_right h.begin_le

theorem IsNodeRow.interval_successor_iff (h : IsNodeRow nodeSubspace p key) {candidate : Bytes}
    (hnext : strinc candidate ≠ []) :
    interval (nodeKey nodeSubspace candidate) (nodeKey nodeSubspace (strinc candidate)) key = true ↔
      candidate <+: p := by
  rw [← interval_strinc_iff hnext, interval_iff, interval_iff, h.lt_nodeKey_iff, ← not_lt,
    h.lt_nodeKey_iff, not_lt]

/-- A row of the node of a prefix: its key is that prefix with further elements behind it. -/
def IsNodeKey (nodeSubspace prefixBytes key : Bytes) : Prop :=
  ∃ rest, (Subspace.fromBytes nodeSubspace).pack (.bytes prefixBytes :: rest) = .ok key

theorem isNodeKey_iff {nodeSubspace prefixBytes key : Bytes} :
    IsNodeKey nodeSubspace prefixBytes key ↔ ∃ rest, firstRejection rest = none ∧
      key = nodeSubspace ++ encodeTuple false (.bytes prefixBytes :: rest) := by
  simp only [IsNodeKey, Subspace.pack_ok_iff, firstRejection, rejection]
  rfl

theorem IsNodeKey.isNodeRow (h : IsNodeKey nodeSubspace p key) : IsNodeRow nodeSubspace p key := by
  obtain ⟨rest, hrest, rfl⟩ := isNodeKey_iff.mp h
  refine ⟨encodeTuple false rest, ?_, ?_⟩
  · simpa using follows_encodeTuple false rest hrest follows_nil
  · simp [nodeKey, encodeTuple]

theorem IsNodeKey.head (h : IsNodeKey nodeSubspace p key) (description : String) :
    ∃ tuple, unpacked nodeSubspace key description = .ok tuple ∧
      tuple.head? = some (.bytes p) := by
  obtain ⟨rest, hrest, rfl⟩ := isNodeKey_iff.mp h
  exact ⟨_, unpacked_eq nodeSubspace (by simpa [firstRejection, rejection] using hrest) _, rfl⟩

theorem IsNodeKey.below (h : IsNodeKey nodeSubspace p key) : nodeSubspace <+: key := by
  obtain ⟨rest, -, rfl⟩ := isNodeKey_iff.mp h
  exact List.prefix_append _ _

end NodeRow

/-! ## Registered prefixes -/

def Registered (nodeSubspace : Bytes) (rows : Rows) (prefixBytes : Bytes) : Prop :=
  ∃ key value, rows.get? key = some value ∧ IsNodeKey nodeSubspace prefixBytes key

/-- The rows of a layer are rows of nodes, and no prefix of a node, the node subspace being the
prefix of the root, is a head of another one. -/
structure PrefixFreeNodes (nodeSubspace : Bytes) (rows : Rows) : Prop where
  keys : ∀ key value, rows.get? key = some value → nodeSubspace <+: key →
    ∃ p, IsNodeKey nodeSubspace p key
  prefixFree : ∀ p q, (p = nodeSubspace ∨ Registered nodeSubspace rows p) →
    (q = nodeSubspace ∨ Registered nodeSubspace rows q) → p <+: q → p = q

section Check

variable {layer : DirectoryLayerState} {rows : Rows} {candidate : Bytes}

theorem startsWith_iff (value prefixBytes : Bytes) :
    startsWith value prefixBytes = true ↔ prefixBytes <+: value :=
  List.isPrefixOf_iff_prefix

theorem interval_below {nodeSubspace key row : Bytes}
    (h : interval (nodeSubspace ++ [0x00]) (nodeKey nodeSubspace key) row = true) :
    nodeSubspace <+: row := by
  obtain ⟨hbegin, hstop⟩ := interval_iff.mp h
  exact prefix_of_between
    ((prefix_le (List.prefix_append nodeSubspace [0x00])).trans hbegin) hstop

theorem interval_successor_below {nodeSubspace start stop row : Bytes}
    (h : interval (nodeKey nodeSubspace start) (nodeKey nodeSubspace stop) row = true) :
    nodeSubspace <+: row := by
  obtain ⟨hbegin, hstop⟩ := interval_iff.mp h
  exact prefix_of_between ((prefix_le (List.prefix_append nodeSubspace _)).trans hbegin) hstop

theorem nodeContainingKey_range (layer : DirectoryLayerState) :
    subspaceRange layer.nodeSubspace [] =
      .ok (layer.nodeSubspace ++ [0x00], layer.nodeSubspace ++ [0xff]) := by
  have hpack : (Subspace.fromBytes layer.nodeSubspace).pack [] = .ok layer.nodeSubspace := by
    rw [Subspace.pack_ok_iff]
    simp [firstRejection, Subspace.fromBytes, encodeTuple]
  rw [subspaceRange, Subspace.range, hpack]
  rfl

/-- The node that contains a key is found exactly when a registered prefix, or the node subspace,
is a head of the key. -/
theorem nodeContainingKey_ok (h : PrefixFreeNodes layer.nodeSubspace rows) (key : Bytes) :
    ∃ found, nodeContainingKey layer key rows = .ok found ∧
      (found.isSome = true ↔ layer.nodeSubspace <+: key ∨
        ∃ p, Registered layer.nodeSubspace rows p ∧ p <+: key) := by
  rw [nodeContainingKey]
  by_cases hroot : layer.nodeSubspace <+: key
  · rw [if_pos ((startsWith_iff _ _).mpr hroot)]
    exact ⟨_, rfl, by simp [hroot]⟩
  · have hpacked : packed layer.nodeSubspace [.bytes (key ++ [0])] "invalid prefix lookup key" =
        .ok (nodeKey layer.nodeSubspace (key ++ [0])) := packed_bytes ..
    rw [if_neg ((startsWith_iff _ _).not.mpr hroot), nodeContainingKey_range, hpacked]
    dsimp only [bind, Except.bind]
    cases hlast : firstInRange rows (layer.nodeSubspace ++ [0x00])
        (nodeKey layer.nodeSubspace (key ++ [0])) true with
    | none =>
        refine ⟨none, rfl, ?_⟩
        simp only [Option.isSome_none, Bool.false_eq_true, hroot, false_or, false_iff]
        rintro ⟨p, ⟨row, value, hget, hrow⟩, hp⟩
        have hnone := OrderedMap.last?_eq_none.mp hlast row
          ((hrow.isNodeRow.interval_lookup_iff key).mpr (prefix_le hp))
        simp [hget] at hnone
    | some previous =>
        obtain ⟨hrange, hget, hmax⟩ := OrderedMap.last?_eq_some hlast
        obtain ⟨q, hq⟩ := h.keys _ _ hget (interval_below hrange)
        obtain ⟨tuple, htuple, hhead⟩ := hq.head "invalid directory node key"
        have hqkey := (hq.isNodeRow.interval_lookup_iff key).mp hrange
        have hregistered : Registered layer.nodeSubspace rows q := ⟨_, _, hget, hq⟩
        simp only [htuple, hhead, asBytes, nodeWithPrefix_eq]
        by_cases hprefix : q <+: key
        · rw [if_pos ((startsWith_iff _ _).mpr hprefix)]
          exact ⟨_, rfl, by simpa using .inr ⟨q, hregistered, hprefix⟩⟩
        · rw [if_neg ((startsWith_iff _ _).not.mpr hprefix)]
          refine ⟨none, rfl, ?_⟩
          simp only [Option.isSome_none, Bool.false_eq_true, hroot, false_or, false_iff]
          rintro ⟨p, ⟨row, value, hrowget, hrow⟩, hp⟩
          have hle := hmax row ((hrow.isNodeRow.interval_lookup_iff key).mpr (prefix_le hp))
            (by rw [hrowget]; rfl)
          -- A registered head of the key would be a head of the last row's prefix as well.
          have hpq := prefix_of_le_of_le hp (hrow.isNodeRow.le_of_le hq.isNodeRow hle) hqkey
          have hsame := h.prefixFree p q (.inr ⟨row, value, hrowget, hrow⟩) (.inr hregistered) hpq
          exact hprefix (hsame ▸ hp)

/-- No row lies between the subspaces of a prefix and of its successor exactly when no
registered prefix extends it. -/
theorem firstInRange_successor (h : PrefixFreeNodes layer.nodeSubspace rows)
    (hnext : strinc candidate ≠ []) :
    (firstInRange rows (nodeKey layer.nodeSubspace candidate)
        (nodeKey layer.nodeSubspace (strinc candidate)) false).isNone = true ↔
      ∀ p, Registered layer.nodeSubspace rows p → ¬candidate <+: p := by
  rw [Option.isNone_iff_eq_none, firstInRange, if_neg (by simp), OrderedMap.first?_eq_none]
  constructor
  · rintro hnone p ⟨row, value, hget, hrow⟩ hp
    have hrowNone := hnone row ((hrow.isNodeRow.interval_successor_iff hnext).mpr hp)
    simp [hget] at hrowNone
  · intro hnot row hrange
    rw [Option.eq_none_iff_forall_ne_some]
    intro value hget
    obtain ⟨p, hp⟩ := h.keys row value hget (interval_successor_below hrange)
    exact hnot p ⟨row, value, hget, hp⟩ ((hp.isNodeRow.interval_successor_iff hnext).mp hrange)

theorem incrementPrefix_eq (h : strinc candidate ≠ []) :
    incrementPrefix candidate = .ok (strinc candidate) := by
  rw [incrementPrefix, if_neg]
  simpa [List.isEmpty_iff] using h

theorem isPrefixFree_ok (h : PrefixFreeNodes layer.nodeSubspace rows) (hne : candidate ≠ [])
    (hnext : strinc candidate ≠ []) :
    ∃ free, isPrefixFree layer candidate rows = .ok free ∧
      (free = true ↔ ¬layer.nodeSubspace <+: candidate ∧
        ∀ p, Registered layer.nodeSubspace rows p → ¬p <+: candidate ∧ ¬candidate <+: p) := by
  obtain ⟨found, hfound, hiff⟩ := nodeContainingKey_ok h candidate
  rw [isPrefixFree, if_neg (by simpa using hne), hfound]
  cases found with
  | some node =>
      refine ⟨false, rfl, ?_⟩
      simp only [Option.isSome_some, true_iff] at hiff
      simp only [Bool.false_eq_true, false_iff, not_and, not_forall]
      intro hroot
      obtain ⟨p, hp, hprefix⟩ := hiff.resolve_left hroot
      exact ⟨p, hp, fun hnot => absurd hprefix hnot⟩
  | none =>
      simp only [Option.isSome_none, Bool.false_eq_true, false_iff, not_or, not_exists,
        not_and] at hiff
      simp only [bind, Except.bind, incrementPrefix_eq hnext, packed_bytes]
      refine ⟨_, rfl, ?_⟩
      change (firstInRange rows (nodeKey layer.nodeSubspace candidate)
        (nodeKey layer.nodeSubspace (strinc candidate)) false).isNone = true ↔ _
      rw [firstInRange_successor h hnext]
      constructor
      · intro hnot
        exact ⟨hiff.1, fun p hp => ⟨hiff.2 p hp, hnot p hp⟩⟩
      · intro hfree p hp
        exact (hfree.2 p hp).2

end Check

/--
When the root of the layer holds a row, as it does once its version has been written, a nonempty
prefix that is not all `0xff` is found to be free exactly when no prefix of the layer, the node
subspace included, is a head of it and it is a head of none.
-/
theorem isPrefixFree_exact (layer : DirectoryLayerState) (rows : Rows)
    (h : PrefixFreeNodes layer.nodeSubspace rows)
    (hroot : Registered layer.nodeSubspace rows layer.nodeSubspace) (candidate : Bytes)
    (hne : candidate ≠ []) (hff : ∃ byte ∈ candidate, byte ≠ 0xff) :
    ∃ free, isPrefixFree layer candidate rows = .ok free ∧
      (free = true ↔ ∀ p, (p = layer.nodeSubspace ∨ Registered layer.nodeSubspace rows p) →
        ¬p <+: candidate ∧ ¬candidate <+: p) := by
  obtain ⟨free, hfree, hiff⟩ := isPrefixFree_ok h hne ((strinc_ne_nil_iff candidate).mpr hff)
  refine ⟨free, hfree, hiff.trans ?_⟩
  constructor
  · rintro ⟨-, hnodes⟩ p (rfl | hp)
    · exact hnodes _ hroot
    · exact hnodes p hp
  · intro hnodes
    exact ⟨(hnodes _ (.inl rfl)).1, fun p hp => hnodes p (.inr hp)⟩

def registeredRows : Rows :=
  ((∅ : Rows).set ([0xfe] ++ encodeTuple false [.bytes [0xfe], .bytes versionTag])
    directoryVersion).set ([0xfe] ++ encodeTuple false [.bytes [0x15, 0x02], .bytes layerTag]) []

theorem isPrefixFree_exact_registered :
    ∃ free, isPrefixFree ⟨[0xfe], [], true, []⟩ [0x15, 0x00] registeredRows = .ok free ∧
      (free = true ↔ ∀ p, (p = [0xfe] ∨ Registered [0xfe] registeredRows p) →
        ¬p <+: [0x15, 0x00] ∧ ¬[0x15, 0x00] <+: p) := by
  have hroot : IsNodeKey [0xfe] [0xfe]
      ([0xfe] ++ encodeTuple false [.bytes [0xfe], .bytes versionTag]) :=
    isNodeKey_iff.mpr ⟨[.bytes versionTag], rfl, rfl⟩
  have hnode : IsNodeKey [0xfe] [0x15, 0x02]
      ([0xfe] ++ encodeTuple false [.bytes [0x15, 0x02], .bytes layerTag]) :=
    isNodeKey_iff.mpr ⟨[.bytes layerTag], rfl, rfl⟩
  have honly {key value : Bytes} (h : registeredRows.get? key = some value) :
      IsNodeKey [0xfe] [0xfe] key ∨ IsNodeKey [0xfe] [0x15, 0x02] key := by
    rw [registeredRows, OrderedMap.get?_set, OrderedMap.get?_set] at h
    split_ifs at h with hlayer hversion
    · exact .inr (hlayer ▸ hnode)
    · exact .inl (hversion ▸ hroot)
    · simp at h
  have hregistered {p : Bytes} (h : p = [0xfe] ∨ Registered [0xfe] registeredRows p) :
      p = [0xfe] ∨ p = [0x15, 0x02] := by
    rcases h with h | ⟨key, value, hget, hkey⟩
    · exact .inl h
    · exact (honly hget).imp (fun hown => hkey.isNodeRow.inj hown.isNodeRow)
        fun hown => hkey.isNodeRow.inj hown.isNodeRow
  refine isPrefixFree_exact ⟨[0xfe], [], true, []⟩ _ ⟨?_, ?_⟩ ?_ [0x15, 0x00] (by simp)
    ⟨0x15, by simp, by decide⟩
  · intro key value hget _
    exact (honly hget).elim (fun hown => ⟨_, hown⟩) fun hown => ⟨_, hown⟩
  · intro p q hp hq hprefix
    rcases hregistered hp with rfl | rfl <;> rcases hregistered hq with rfl | rfl
    all_goals first | rfl | exact absurd hprefix (by decide)
  · refine ⟨_, directoryVersion, ?_, hroot⟩
    decide +kernel

/-- In a layer without any row, a proper head of the node subspace is found to be free. -/
theorem isPrefixFree_unversioned :
    PrefixFreeNodes [0xfe, 0x01] ∅ ∧
      isPrefixFree ⟨[0xfe, 0x01], [], true, []⟩ [0xfe] ∅ = .ok true ∧
      ([0xfe] : Bytes) <+: [0xfe, 0x01] := by
  refine ⟨⟨?_, ?_⟩, by rfl, by decide⟩
  · intro key value h
    cases h
  · rintro p q (rfl | ⟨key, value, h, -⟩) (rfl | ⟨key', value', h', -⟩) _
    · rfl
    · cases h'
    · cases h
    · cases h

end FoundationDbEffect.Directory
