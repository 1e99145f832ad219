import FoundationDbEffect.Directory.CreationConflicts
import FoundationDbEffect.Foundation.Trail

/-!
# The tree of a layer

A child row points from a node to the prefix that it holds.  In a well-formed layer the nodes
that are reached from the root form a tree, every child row spells a name, and the prefix of
no node is a head of another one, where the root has the prefix of the node subspace.  A
partition holds the layer below its prefix, whose nodes all lie under that prefix.
-/

namespace FoundationDbEffect.Directory

open FoundationDbEffect.Foundation FoundationDbEffect.TupleLayer
open FoundationDbEffect.Foundation.ByteOrder

/-! ## Rows below a node -/

def IsMetadata (nodeSubspace prefixBytes key : Bytes) : Prop :=
  interval (nodeKey nodeSubspace prefixBytes ++ [0x00])
    (nodeKey nodeSubspace prefixBytes ++ [0xff]) key = true

def childRows (nodeSubspace prefixBytes : Bytes) : Bytes :=
  nodeKey nodeSubspace prefixBytes ++ encodeTuple false [.integer 0]

def IsChildRow (nodeSubspace prefixBytes key : Bytes) : Prop :=
  interval (childRows nodeSubspace prefixBytes ++ [0x00])
    (childRows nodeSubspace prefixBytes ++ [0xff]) key = true

section

variable {nodeSubspace p q key : Bytes}

theorem isMetadata_iff : IsMetadata nodeSubspace p key ↔
    ∃ byte rest, byte < 0xff ∧ key = nodeKey nodeSubspace p ++ byte :: rest :=
  interval_extensions_iff _ _

theorem IsMetadata.isNodeRow (h : IsMetadata nodeSubspace p key) :
    IsNodeRow nodeSubspace p key := by
  obtain ⟨byte, rest, hbyte, rfl⟩ := isMetadata_iff.mp h
  exact ⟨byte :: rest, follows_cons hbyte.ne, rfl⟩

theorem IsMetadata.inj (h : IsMetadata nodeSubspace p key) (h' : IsMetadata nodeSubspace q key) :
    p = q :=
  h.isNodeRow.inj h'.isNodeRow

theorem IsMetadata.below (h : IsMetadata nodeSubspace p key) : nodeSubspace <+: key := by
  obtain ⟨byte, rest, -, rfl⟩ := isMetadata_iff.mp h
  simp [nodeKey]

theorem IsChildRow.isMetadata (h : IsChildRow nodeSubspace p key) :
    IsMetadata nodeSubspace p key := by
  obtain ⟨byte, rest, -, rfl⟩ := (interval_extensions_iff _ _).mp h
  refine isMetadata_iff.mpr ⟨integerZeroCode, byte :: rest, by decide, ?_⟩
  simp [childRows, encodeTuple, encodeValue, encodeInteger]

theorem isChildRow_childKey (nodeSubspace p : Bytes) (name : CodeUnits) :
    IsChildRow nodeSubspace p (childKey nodeSubspace p name) := by
  refine (interval_extensions_iff _ _).mpr
    ⟨stringCode, encodeEscaped (encodeUtf8 (scalars name)), by decide, ?_⟩
  simp [childKey, childRows, encodeTuple, encodeValue]

theorem isMetadata_layerKey (nodeSubspace p : Bytes) :
    IsMetadata nodeSubspace p (layerKey nodeSubspace p) :=
  isMetadata_iff.mpr ⟨bytesCode, _, by decide, rfl⟩

theorem subspaceRange_eq (subspace : Bytes) {tuple : Tuple} (h : firstRejection tuple = none) :
    subspaceRange subspace tuple = .ok (subspace ++ encodeTuple false tuple ++ [0x00],
      subspace ++ encodeTuple false tuple ++ [0xff]) := by
  have hpack : (Subspace.fromBytes subspace).pack tuple =
      .ok (subspace ++ encodeTuple false tuple) := (Subspace.pack_ok_iff _ _ _).mpr ⟨h, rfl⟩
  rw [subspaceRange, Subspace.range, hpack]
  rfl

end

/-! ## Trees of nodes -/

def Points (rows : Rows) (nodeSubspace prefixBytes key childPrefix : Bytes) : Prop :=
  IsChildRow nodeSubspace prefixBytes key ∧ rows.get? key = some childPrefix

abbrev IsNode (rows : Rows) (nodeSubspace : Bytes) : Bytes → Prop :=
  Below (Points rows nodeSubspace) nodeSubspace

def Writable (version : Bytes) : Prop :=
  version.length = 12 ∧ getUint32 version 0 ≤ 1 ∧ getUint32 version 4 = 0

def versionKey (nodeSubspace : Bytes) : Bytes :=
  nodeKey nodeSubspace nodeSubspace ++ encodeTuple false [.bytes versionTag]

def allocatorRows (nodeSubspace : Bytes) : Bytes :=
  nodeKey nodeSubspace nodeSubspace ++ encodeTuple false [.bytes hcaTag]

/-- The rows of a layer: a version that can be written under once there is a directory, child
rows that spell names, one child row for each node but the root, and prefixes that are no heads
of each other and have successors. -/
structure LayerTree (rows : Rows) (nodeSubspace : Bytes) : Prop where
  versioned : ∀ p, IsNode rows nodeSubspace p → p ≠ nodeSubspace →
    ∃ version, rows.get? (versionKey nodeSubspace) = some version ∧ Writable version
  named : ∀ p key q, IsNode rows nodeSubspace p → Points rows nodeSubspace p key q →
    ∃ name, firstRejection [.string name] = none ∧ key = childKey nodeSubspace p name
  entered : ∀ p p' key key' q, IsNode rows nodeSubspace p → IsNode rows nodeSubspace p' →
    Points rows nodeSubspace p key q → Points rows nodeSubspace p' key' q → key = key'
  root : ∀ p key, IsNode rows nodeSubspace p → ¬ Points rows nodeSubspace p key nodeSubspace
  prefixFree : ∀ p q, IsNode rows nodeSubspace p → IsNode rows nodeSubspace q → p <+: q → p = q
  successor : ∀ p, IsNode rows nodeSubspace p → p ≠ nodeSubspace → strinc p ≠ []

structure IsPartition (rows : Rows) (nodeSubspace prefixBytes : Bytes) : Prop where
  ne_root : prefixBytes ≠ nodeSubspace
  layer : rows.get? (layerKey nodeSubspace prefixBytes) = some partitionTag

/-- The nodes below a node, those of the layers inside the partitions among them as well. -/
inductive Inside (rows : Rows) : Bytes → Bytes → Bytes → Bytes → Prop where
  | inLayer {nodeSubspace p q : Bytes} (h : Below (Points rows nodeSubspace) p q) :
      Inside rows nodeSubspace p nodeSubspace q
  | inPartition {nodeSubspace p q innerSubspace r : Bytes} (h : Below (Points rows nodeSubspace) p q)
      (hpartition : IsPartition rows nodeSubspace q)
      (hinside : Inside rows (q ++ nodePrefix) (q ++ nodePrefix) innerSubspace r) :
      Inside rows nodeSubspace p innerSubspace r

/-- A layer and the layers inside its partitions. A partition places its nodes under its own
prefix, since no prefix can be chosen in it. -/
structure WellFormed (rows : Rows) (nodeSubspace : Bytes) : Prop where
  tree : ∀ innerSubspace q, Inside rows nodeSubspace nodeSubspace innerSubspace q →
    LayerTree rows innerSubspace
  inside : ∀ innerSubspace q r, Inside rows nodeSubspace nodeSubspace innerSubspace q →
    IsPartition rows innerSubspace q → IsNode rows (q ++ nodePrefix) r → q <+: r

section

variable {rows : Rows} {nodeSubspace p q r key : Bytes} {labels : List Bytes}

theorem isMetadata_versionKey (nodeSubspace : Bytes) :
    IsMetadata nodeSubspace nodeSubspace (versionKey nodeSubspace) :=
  isMetadata_iff.mpr ⟨bytesCode, _, by decide, rfl⟩

theorem isMetadata_of_allocatorRows (h : allocatorRows nodeSubspace <+: key) :
    IsMetadata nodeSubspace nodeSubspace key := by
  obtain ⟨rest, rfl⟩ := h
  refine isMetadata_iff.mpr ⟨bytesCode, encodeEscaped hcaTag ++ rest, by decide, ?_⟩
  simp [allocatorRows, encodeTuple, encodeValue]

theorem Points.isMetadata (h : Points rows nodeSubspace p key q) :
    IsMetadata nodeSubspace p key :=
  h.1.isMetadata

theorem LayerTree.rooted (h : LayerTree rows nodeSubspace) :
    Rooted (Points rows nodeSubspace) nodeSubspace where
  entered := by
    intro p p' key key' q hp hp' hpoints hpoints'
    obtain rfl : key = key' := h.entered p p' key key' q hp hp' hpoints hpoints'
    exact ⟨hpoints.isMetadata.inj hpoints'.isMetadata, rfl⟩
  root := fun hp => h.root _ _ hp

/-- A way through the tree follows one row after the other, and none twice. -/
theorem LayerTree.length_le (h : LayerTree rows nodeSubspace)
    (hlabels : Trail (Points rows nodeSubspace) nodeSubspace labels p) :
    labels.length ≤ rows.entries.length := by
  have hnodup := h.rooted.nodup (fun hpoints hpoints' =>
    Option.some.inj (hpoints.2.symm.trans hpoints'.2)) hlabels
  have hsubset : labels ⊆ rows.entries.map Prod.fst := by
    intro key hmem
    obtain ⟨_, _, _, value, -, hpoints, -⟩ := hlabels.of_mem hmem
    exact List.mem_map.mpr ⟨(key, value), OrderedMap.mem_entries.mpr hpoints.2, rfl⟩
  simpa using (List.subperm_of_subset hnodup hsubset).length_le

theorem LayerTree.eq_of_heads (h : LayerTree rows nodeSubspace) (hp : IsNode rows nodeSubspace p)
    (hq : IsNode rows nodeSubspace q) (hkey : p <+: key) (hkey' : q <+: key) : p = q := by
  rcases List.prefix_or_prefix_of_prefix hkey hkey' with hle | hle
  · exact h.prefixFree p q hp hq hle
  · exact (h.prefixFree q p hq hp hle).symm

theorem LayerTree.ne_root (h : LayerTree rows nodeSubspace) (hp : IsNode rows nodeSubspace p)
    (hroot : p ≠ nodeSubspace) (hbelow : Below (Points rows nodeSubspace) p q) :
    q ≠ nodeSubspace := by
  obtain ⟨labels, hlabels⟩ := hbelow
  cases hlabels with
  | nil => exact hroot
  | cons hbefore hedge =>
      rintro rfl
      exact h.root _ _ (hp.trans ⟨_, hbefore⟩) hedge

theorem WellFormed.layerTree (h : WellFormed rows nodeSubspace) : LayerTree rows nodeSubspace :=
  h.tree _ _ (.inLayer (.refl _))

theorem WellFormed.nested (h : WellFormed rows nodeSubspace) (hp : IsNode rows nodeSubspace p)
    (hpartition : IsPartition rows nodeSubspace p) : WellFormed rows (p ++ nodePrefix) where
  tree _ _ hinside := h.tree _ _ (.inPartition hp hpartition hinside)
  inside _ _ _ hinside := h.inside _ _ _ (.inPartition hp hpartition hinside)

theorem Inside.trans {middleSubspace innerSubspace : Bytes}
    (h : Inside rows nodeSubspace p middleSubspace q)
    (h' : Inside rows middleSubspace q innerSubspace r) : Inside rows nodeSubspace p innerSubspace r := by
  induction h with
  | inLayer hbelow =>
      cases h' with
      | inLayer hbelow' => exact .inLayer (hbelow.trans hbelow')
      | inPartition hbelow' hpartition hinside =>
          exact .inPartition (hbelow.trans hbelow') hpartition hinside
  | inPartition hbelow hpartition _ ih => exact .inPartition hbelow hpartition (ih h')

theorem head_of_inside {subspace start innerSubspace : Bytes}
    (hinside : Inside rows subspace start innerSubspace r) {nodeSubspace p : Bytes}
    (h : WellFormed rows nodeSubspace) (hp : IsNode rows nodeSubspace p)
    (hpartition : IsPartition rows nodeSubspace p) (hsubspace : subspace = p ++ nodePrefix)
    (hstart : start = p ++ nodePrefix) : p <+: innerSubspace ∧ p <+: r := by
  induction hinside generalizing nodeSubspace p with
  | inLayer hbelow =>
      subst hsubspace hstart
      exact ⟨List.prefix_append _ _, h.inside _ _ _ (.inLayer hp) hpartition hbelow⟩
  | inPartition hbelow hpartition' hinside ih =>
      subst hsubspace hstart
      have hq := h.inside _ _ _ (.inLayer hp) hpartition hbelow
      obtain ⟨hinner, hr⟩ := ih (h.nested hp hpartition) hbelow hpartition' rfl rfl
      exact ⟨hq.trans hinner, hq.trans hr⟩

theorem WellFormed.head (h : WellFormed rows nodeSubspace) (hp : IsNode rows nodeSubspace p)
    (hpartition : IsPartition rows nodeSubspace p) {innerSubspace : Bytes}
    (hinside : Inside rows (p ++ nodePrefix) (p ++ nodePrefix) innerSubspace r) :
    p <+: innerSubspace ∧ p <+: r :=
  head_of_inside hinside h hp hpartition rfl rfl

end

/-! ## Checking a database -/

/-- The nodes of all the layers of a database, listed with their layers, and the names of the
directories. Every condition on the list is one on the rows of the database. -/
structure Catalogued (rows : Rows) (nodes : List (Bytes × Bytes)) (names : List CodeUnits) :
    Prop where
  roots : ∀ node ∈ nodes, (node.1, node.1) ∈ nodes
  children : ∀ node ∈ nodes, ∀ row ∈ rows.entries, IsChildRow node.1 node.2 row.1 →
    (node.1, row.2) ∈ nodes ∧ row.2 ≠ node.1 ∧ ∃ name ∈ names,
      firstRejection [.string name] = none ∧ row.1 = childKey node.1 node.2 name
  partitions : ∀ node ∈ nodes, node.2 ≠ node.1 →
    rows.get? (layerKey node.1 node.2) = some partitionTag →
    (node.2 ++ nodePrefix, node.2 ++ nodePrefix) ∈ nodes ∧
      ∀ inner ∈ nodes, inner.1 = node.2 ++ nodePrefix → node.2 <+: inner.2
  entered : ∀ node ∈ nodes, ∀ node' ∈ nodes, node.1 = node'.1 → ∀ row ∈ rows.entries,
    ∀ row' ∈ rows.entries, IsChildRow node.1 node.2 row.1 → IsChildRow node'.1 node'.2 row'.1 →
    row.2 = row'.2 → row.1 = row'.1
  prefixFree : ∀ node ∈ nodes, ∀ node' ∈ nodes, node.1 = node'.1 → node.2 <+: node'.2 →
    node.2 = node'.2
  successor : ∀ node ∈ nodes, node.2 ≠ node.1 → strinc node.2 ≠ []
  versioned : ∀ node ∈ nodes, node.2 ≠ node.1 →
    rows.get? (versionKey node.1) = some directoryVersion

section

variable {rows : Rows} {nodes : List (Bytes × Bytes)} {names : List CodeUnits}
  {nodeSubspace p innerSubspace q : Bytes}

theorem Catalogued.mem_of_below (h : Catalogued rows nodes names)
    (hbelow : Below (Points rows nodeSubspace) p q) (hstart : (nodeSubspace, p) ∈ nodes) :
    (nodeSubspace, q) ∈ nodes := by
  obtain ⟨labels, hlabels⟩ := hbelow
  induction hlabels with
  | nil => exact hstart
  | cons _ hpoints ih =>
      exact (h.children _ ih (_, _) (OrderedMap.mem_entries.mpr hpoints.2) hpoints.1).1

theorem Catalogued.mem_of_inside (h : Catalogued rows nodes names)
    (hinside : Inside rows nodeSubspace p innerSubspace q) (hstart : (nodeSubspace, p) ∈ nodes) :
    (innerSubspace, q) ∈ nodes := by
  induction hinside with
  | inLayer hbelow => exact h.mem_of_below hbelow hstart
  | inPartition hbelow hpartition _ ih =>
      have hmem := h.mem_of_below hbelow hstart
      exact ih (h.partitions _ hmem hpartition.ne_root hpartition.layer).1

theorem Catalogued.layerTree (h : Catalogued rows nodes names)
    (hroot : (nodeSubspace, nodeSubspace) ∈ nodes) : LayerTree rows nodeSubspace := by
  have hmem {p : Bytes} (hp : IsNode rows nodeSubspace p) : (nodeSubspace, p) ∈ nodes :=
    h.mem_of_below hp hroot
  have hchild {p key q : Bytes} (hp : IsNode rows nodeSubspace p)
      (hpoints : Points rows nodeSubspace p key q) :=
    h.children _ (hmem hp) (key, q) (OrderedMap.mem_entries.mpr hpoints.2) hpoints.1
  constructor
  case versioned =>
    intro p hp hne
    exact ⟨_, h.versioned _ (hmem hp) hne, rfl, by decide, rfl⟩
  case named =>
    intro p key q hp hpoints
    obtain ⟨-, -, name, -, hname, hkey⟩ := hchild hp hpoints
    exact ⟨name, hname, hkey⟩
  case entered =>
    intro p p' key key' q hp hp' hpoints hpoints'
    exact h.entered _ (hmem hp) _ (hmem hp') rfl (key, q) (OrderedMap.mem_entries.mpr hpoints.2)
      (key', q) (OrderedMap.mem_entries.mpr hpoints'.2) hpoints.1 hpoints'.1 rfl
  case root =>
    intro p key hp hpoints
    exact (hchild hp hpoints).2.1 rfl
  case prefixFree =>
    intro p q hp hq hle
    exact h.prefixFree _ (hmem hp) _ (hmem hq) rfl hle
  case successor =>
    intro p hp hne
    exact h.successor _ (hmem hp) hne

theorem Catalogued.wellFormed (h : Catalogued rows nodes names)
    (hroot : (nodeSubspace, nodeSubspace) ∈ nodes) : WellFormed rows nodeSubspace where
  tree _ _ hinside := h.layerTree (h.roots _ (h.mem_of_inside hinside hroot))
  inside := by
    intro innerSubspace q r hinside hpartition hr
    obtain ⟨hinner, hhead⟩ := h.partitions _ (h.mem_of_inside hinside hroot) hpartition.ne_root
      hpartition.layer
    exact hhead _ (h.mem_of_below hr hinner) rfl

end

end FoundationDbEffect.Directory
