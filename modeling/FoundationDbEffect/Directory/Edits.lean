import FoundationDbEffect.Directory.Regular

/-!
# Edits of a layer

What operations do to the rows of one layer: they write its version and its allocator, add a
directory, move one, and remove one with all that is below it.  Each edit keeps a regular layer
regular.
-/

namespace FoundationDbEffect.Directory

open FoundationDbEffect.Foundation FoundationDbEffect.TupleLayer
open FoundationDbEffect.Foundation.ByteOrder

variable {rows next : Rows} {nodeSubspace p q r key parent : Bytes} {name : CodeUnits}

/-! ## Rows with tags -/

theorem IsChildRow.not_tagged (h : IsChildRow nodeSubspace p key) (q : Bytes) :
    ¬ nodeKey nodeSubspace q ++ [bytesCode] <+: key := by
  rintro ⟨rest, hrest⟩
  have hrow : IsNodeRow nodeSubspace q key :=
    ⟨bytesCode :: rest, follows_cons (by decide), by rw [← hrest]; simp⟩
  obtain rfl := h.isMetadata.isNodeRow.inj hrow
  obtain ⟨byte, tail, -, htail⟩ := (interval_extensions_iff _ _).mp h
  rw [← hrest, childRows] at htail
  simp only [encodeTuple, encodeValue, encodeInteger] at htail
  simp [bytesCode, integerZeroCode] at htail

theorem tagged_layerKey (nodeSubspace p : Bytes) :
    nodeKey nodeSubspace p ++ [bytesCode] <+: layerKey nodeSubspace p := by
  simp [layerKey, encodeTuple, encodeValue]

theorem tagged_versionKey (nodeSubspace : Bytes) :
    nodeKey nodeSubspace nodeSubspace ++ [bytesCode] <+: versionKey nodeSubspace := by
  simp [versionKey, encodeTuple, encodeValue]

theorem tagged_allocatorRows (nodeSubspace : Bytes) :
    nodeKey nodeSubspace nodeSubspace ++ [bytesCode] <+: allocatorRows nodeSubspace := by
  simp [allocatorRows, encodeTuple, encodeValue]

theorem layerKey_ne (nodeSubspace p : Bytes) :
    layerKey nodeSubspace p ≠ versionKey nodeSubspace ∧
      ¬ allocatorRows nodeSubspace <+: layerKey nodeSubspace p := by
  by_cases hroot : p = nodeSubspace
  · subst hroot
    rw [layerKey, versionKey, allocatorRows, List.prefix_append_right_inj]
    exact ⟨fun h => absurd (List.append_cancel_left h) (by decide), by decide⟩
  · refine ⟨fun h => hroot ?_, fun h => hroot ?_⟩
    · exact (isMetadata_layerKey nodeSubspace p).inj (h ▸ isMetadata_versionKey nodeSubspace)
    · exact (isMetadata_layerKey nodeSubspace p).inj (isMetadata_of_allocatorRows h)

theorem layerKey_inj (h : layerKey nodeSubspace p = layerKey nodeSubspace q) : p = q :=
  (isMetadata_layerKey nodeSubspace p).inj (h ▸ isMetadata_layerKey nodeSubspace q)

theorem isNodeKey_childKey (h : firstRejection [.string name] = none) :
    IsNodeKey nodeSubspace parent (childKey nodeSubspace parent name) := by
  refine isNodeKey_iff.mpr ⟨[.integer 0, .string name], ?_, ?_⟩
  · simpa [firstRejection, rejection] using h
  · simp [childKey, nodeKey, encodeTuple]

theorem isNodeKey_layerKey (nodeSubspace p : Bytes) :
    IsNodeKey nodeSubspace p (layerKey nodeSubspace p) :=
  isNodeKey_iff.mpr ⟨[.bytes layerTag], rfl, by simp [layerKey, nodeKey, encodeTuple]⟩

/-! ## Versions and allocators -/

structure QuietEdit (rows next : Rows) (nodeSubspace : Bytes) : Prop where
  kept : ∀ key, key ≠ versionKey nodeSubspace → ¬ allocatorRows nodeSubspace <+: key →
    next.get? key = rows.get? key
  version : ∀ version, rows.get? (versionKey nodeSubspace) = some version →
    next.get? (versionKey nodeSubspace) = some version
  written : ∀ version, next.get? (versionKey nodeSubspace) = some version →
    rows.get? (versionKey nodeSubspace) = some version ∨ Writable version
  keys : ∀ key, allocatorRows nodeSubspace <+: key → (next.get? key).isSome →
    (rows.get? key).isSome ∨ IsNodeKey nodeSubspace nodeSubspace key

namespace QuietEdit

theorem points_iff (h : QuietEdit rows next nodeSubspace) :
    Points next nodeSubspace p key q ↔ Points rows nodeSubspace p key q := by
  refine and_congr_right fun hchild => ?_
  rw [h.kept key]
  · rintro rfl
    exact hchild.not_tagged _ (tagged_versionKey nodeSubspace)
  · exact fun hallocator =>
      hchild.not_tagged _ ((tagged_allocatorRows nodeSubspace).trans hallocator)

theorem isNode_iff (h : QuietEdit rows next nodeSubspace) :
    IsNode next nodeSubspace p ↔ IsNode rows nodeSubspace p :=
  ⟨Below.mono fun _ _ _ => h.points_iff.mp, Below.mono fun _ _ _ => h.points_iff.mpr⟩

theorem layerKey_eq (h : QuietEdit rows next nodeSubspace) (p : Bytes) :
    next.get? (layerKey nodeSubspace p) = rows.get? (layerKey nodeSubspace p) :=
  h.kept _ (layerKey_ne nodeSubspace p).1 (layerKey_ne nodeSubspace p).2

theorem outside (h : QuietEdit rows next nodeSubspace) (hkey : ¬ nodeSubspace <+: key) :
    next.get? key = rows.get? key := by
  refine h.kept key ?_ fun hallocator => hkey (isMetadata_of_allocatorRows hallocator).below
  rintro rfl
  exact hkey (isMetadata_versionKey nodeSubspace).below

theorem regularRows (h : QuietEdit rows next nodeSubspace)
    (hregular : RegularRows rows nodeSubspace) : RegularRows next nodeSubspace := by
  have hnode {p : Bytes} (hp : IsNode next nodeSubspace p) := h.isNode_iff.mp hp
  constructor
  case tree =>
    constructor
    case versioned =>
      intro p hp hroot
      obtain ⟨version, hversion, hwritable⟩ := hregular.tree.versioned p (hnode hp) hroot
      exact ⟨version, h.version version hversion, hwritable⟩
    case named =>
      exact fun p key q hp hq => hregular.tree.named p key q (hnode hp) (h.points_iff.mp hq)
    case entered =>
      intro p p' key key' q hp hp' hq hq'
      exact hregular.tree.entered p p' key key' q (hnode hp) (hnode hp') (h.points_iff.mp hq)
        (h.points_iff.mp hq')
    case root =>
      exact fun p key hp hq => hregular.tree.root p key (hnode hp) (h.points_iff.mp hq)
    case prefixFree => exact fun p q hp hq => hregular.tree.prefixFree p q (hnode hp) (hnode hq)
    case successor => exact fun p hp => hregular.tree.successor p (hnode hp)
  case keys =>
    intro key hkey hhead
    by_cases hversion : key = versionKey nodeSubspace
    · refine ⟨nodeSubspace, .refl _, ?_, hversion ▸ isMetadata_versionKey nodeSubspace⟩
      rw [hversion]
      exact isNodeKey_iff.mpr ⟨[.bytes versionTag], rfl, by simp [versionKey, nodeKey, encodeTuple]⟩
    · by_cases hallocator : allocatorRows nodeSubspace <+: key
      · rcases h.keys key hallocator hkey with hbefore | hnodeKey
        · obtain ⟨p, hp, hrow⟩ := hregular.keys key hbefore hhead
          exact ⟨p, h.isNode_iff.mpr hp, hrow⟩
        · exact ⟨nodeSubspace, .refl _, hnodeKey, isMetadata_of_allocatorRows hallocator⟩
      · rw [h.kept key hversion hallocator] at hkey
        obtain ⟨p, hp, hrow⟩ := hregular.keys key hkey hhead
        exact ⟨p, h.isNode_iff.mpr hp, hrow⟩
  case layered =>
    intro p hp hroot
    rw [h.layerKey_eq]
    exact hregular.layered p (hnode hp) hroot
  case root => rw [h.layerKey_eq, hregular.root]
  case version =>
    exact fun version hversion => (h.written version hversion).elim (hregular.version version) id

theorem regular (h : QuietEdit rows next nodeSubspace) (hregular : Regular rows nodeSubspace) :
    Regular next nodeSubspace := by
  refine (h.regularRows hregular.regularRows).regular_of_change hregular fun p hp hpartition => ?_
  have hp' := h.isNode_iff.mp hp
  have hpartition' : IsPartition rows nodeSubspace p :=
    ⟨hpartition.ne_root, (h.layerKey_eq p).symm.trans hpartition.layer⟩
  exact .inl ⟨hp', hpartition', hregular.regularRows.tree.agree_of_kept hp' hpartition.ne_root
    fun _ => h.outside⟩

theorem refl (rows : Rows) (nodeSubspace : Bytes) : QuietEdit rows rows nodeSubspace :=
  ⟨fun _ _ _ => rfl, fun _ => id, fun _ => .inl, fun _ _ => .inl⟩

theorem trans {later : Rows} (h : QuietEdit rows next nodeSubspace)
    (h' : QuietEdit next later nodeSubspace) : QuietEdit rows later nodeSubspace where
  kept key hversion hallocator := (h'.kept key hversion hallocator).trans
    (h.kept key hversion hallocator)
  version version hversion := h'.version version (h.version version hversion)
  written version hversion := (h'.written version hversion).elim (h.written version) .inr
  keys key hallocator hkey := (h'.keys key hallocator hkey).elim (h.keys key hallocator) .inr

end QuietEdit

/-! ## New directories -/

def added (rows : Rows) (nodeSubspace parent : Bytes) (name : CodeUnits) (p nodeLayer : Bytes) :
    Rows :=
  (rows.set (childKey nodeSubspace parent name) p).set (layerKey nodeSubspace p) nodeLayer

/-- A name that is free in a node, and a prefix that can be given to it. -/
structure Addable (rows : Rows) (nodeSubspace parent : Bytes) (name : CodeUnits) (p : Bytes) :
    Prop where
  isNode : IsNode rows nodeSubspace parent
  accepted : firstRejection [.string name] = none
  free : rows.get? (childKey nodeSubspace parent name) = none
  apart : ∀ q, IsNode rows nodeSubspace q → ¬ q <+: p ∧ ¬ p <+: q
  successor : strinc p ≠ []
  versioned : ∃ version, rows.get? (versionKey nodeSubspace) = some version ∧ Writable version

namespace Addable

variable {nodeLayer : Bytes}

theorem get?_added (rows : Rows) (nodeSubspace parent : Bytes) (name : CodeUnits)
    (p nodeLayer key : Bytes) :
    (added rows nodeSubspace parent name p nodeLayer).get? key =
      if key = layerKey nodeSubspace p then some nodeLayer
      else if key = childKey nodeSubspace parent name then some p else rows.get? key := by
  rw [added, OrderedMap.get?_set, OrderedMap.get?_set]
  split_ifs <;> rfl

theorem childKey_ne_layerKey (nodeSubspace parent p : Bytes) (name : CodeUnits) :
    childKey nodeSubspace parent name ≠ layerKey nodeSubspace p :=
  (ne_childKey nodeSubspace p parent layerTag name).symm

theorem ne_root (h : Addable rows nodeSubspace parent name p) : p ≠ nodeSubspace := by
  rintro rfl
  exact (h.apart p (.refl p)).1 List.prefix_rfl

theorem not_isNode (h : Addable rows nodeSubspace parent name p) :
    ¬ IsNode rows nodeSubspace p :=
  fun hp => (h.apart p hp).1 List.prefix_rfl

theorem outside (key : Bytes) (hkey : ¬ nodeSubspace <+: key) :
    (added rows nodeSubspace parent name p nodeLayer).get? key = rows.get? key := by
  rw [get?_added, if_neg, if_neg]
  · rintro rfl
    exact hkey (isChildRow_childKey _ _ _).isMetadata.below
  · rintro rfl
    exact hkey (isMetadata_layerKey _ _).below

theorem get?_eq_none (h : Addable rows nodeSubspace parent name p)
    (hregular : RegularRows rows nodeSubspace) (hkey : IsMetadata nodeSubspace p key) :
    rows.get? key = none := by
  by_contra hget
  obtain ⟨q, hq, -, hrow⟩ := hregular.keys key (Option.isSome_iff_ne_none.mpr hget) hkey.below
  exact h.not_isNode (hkey.inj hrow ▸ hq)

theorem points_iff (h : Addable rows nodeSubspace parent name p) :
    Points (added rows nodeSubspace parent name p nodeLayer) nodeSubspace q key r ↔
      Points rows nodeSubspace q key r ∨
        q = parent ∧ key = childKey nodeSubspace parent name ∧ r = p := by
  rw [Points, get?_added]
  constructor
  · rintro ⟨hchild, hget⟩
    have hne : key ≠ layerKey nodeSubspace p := by
      rintro rfl
      exact hchild.not_tagged p (tagged_layerKey nodeSubspace p)
    rw [if_neg hne] at hget
    split_ifs at hget with hkey
    · subst hkey
      exact .inr ⟨hchild.isMetadata.inj (isChildRow_childKey _ _ _).isMetadata, rfl,
        (Option.some.inj hget).symm⟩
    · exact .inl ⟨hchild, hget⟩
  · rintro (⟨hchild, hget⟩ | ⟨rfl, rfl, rfl⟩)
    · refine ⟨hchild, ?_⟩
      rw [if_neg, if_neg, hget]
      · rintro rfl
        rw [h.free] at hget
        cases hget
      · rintro rfl
        exact hchild.not_tagged p (tagged_layerKey nodeSubspace p)
    · exact ⟨isChildRow_childKey _ _ _,
        by rw [if_neg (childKey_ne_layerKey _ _ _ _), if_pos rfl]⟩

theorem below_of_below (h : Addable rows nodeSubspace parent name p)
    (hbelow : Below (Points rows nodeSubspace) q r) :
    Below (Points (added rows nodeSubspace parent name p nodeLayer) nodeSubspace) q r :=
  hbelow.mono fun _ _ _ hpoints => h.points_iff.mpr (.inl hpoints)

theorem isNode_iff (h : Addable rows nodeSubspace parent name p)
    (hregular : RegularRows rows nodeSubspace) :
    IsNode (added rows nodeSubspace parent name p nodeLayer) nodeSubspace q ↔
      IsNode rows nodeSubspace q ∨ q = p := by
  constructor
  · rintro ⟨labels, hlabels⟩
    induction hlabels with
    | nil => exact .inl (.refl _)
    | cons _ hedge ih =>
        rcases h.points_iff.mp hedge with hpoints | ⟨-, -, hchild⟩
        · rcases ih with hq | rfl
          · exact .inl (hq.step hpoints)
          · have hget := hpoints.2
            rw [h.get?_eq_none hregular hpoints.isMetadata] at hget
            cases hget
        · exact .inr hchild
  · rintro (hq | rfl)
    · exact h.below_of_below hq
    · exact (h.below_of_below h.isNode).step (h.points_iff.mpr (.inr ⟨rfl, rfl, rfl⟩))

theorem points_node (h : Addable rows nodeSubspace parent name p)
    (hregular : RegularRows rows nodeSubspace)
    (hq : IsNode (added rows nodeSubspace parent name p nodeLayer) nodeSubspace q)
    (hpoints : Points (added rows nodeSubspace parent name p nodeLayer) nodeSubspace q key r) :
    (IsNode rows nodeSubspace q ∧ Points rows nodeSubspace q key r) ∨
      q = parent ∧ key = childKey nodeSubspace parent name ∧ r = p := by
  rcases h.points_iff.mp hpoints with hbefore | hnew
  · refine .inl ⟨((h.isNode_iff hregular).mp hq).resolve_right ?_, hbefore⟩
    rintro rfl
    have hget := hbefore.2
    rw [h.get?_eq_none hregular hbefore.isMetadata] at hget
    cases hget
  · exact .inr hnew

theorem get?_versionKey :
    (added rows nodeSubspace parent name p nodeLayer).get? (versionKey nodeSubspace) =
      rows.get? (versionKey nodeSubspace) := by
  rw [get?_added, if_neg (layerKey_ne nodeSubspace p).1.symm, if_neg]
  intro heq
  exact (isChildRow_childKey nodeSubspace parent name).not_tagged nodeSubspace
    (heq ▸ tagged_versionKey nodeSubspace)

theorem layerTree (h : Addable rows nodeSubspace parent name p)
    (hregular : RegularRows rows nodeSubspace) :
    LayerTree (added rows nodeSubspace parent name p nodeLayer) nodeSubspace := by
  constructor
  case versioned =>
    intro q _ _
    obtain ⟨version, hversion, hwritable⟩ := h.versioned
    exact ⟨version, get?_versionKey.trans hversion, hwritable⟩
  case named =>
    intro q key r hq hpoints
    rcases h.points_node hregular hq hpoints with ⟨hq, hpoints⟩ | ⟨rfl, rfl, -⟩
    · exact hregular.tree.named q key r hq hpoints
    · exact ⟨name, h.accepted, rfl⟩
  case entered =>
    intro q q' key key' r hq hq' hpoints hpoints'
    rcases h.points_node hregular hq hpoints with ⟨hold, hbefore⟩ | ⟨-, rfl, rfl⟩
    · rcases h.points_node hregular hq' hpoints' with ⟨hold', hbefore'⟩ | ⟨-, -, rfl⟩
      · exact hregular.tree.entered q q' key key' r hold hold' hbefore hbefore'
      · exact absurd (hold.step hbefore) h.not_isNode
    · rcases h.points_node hregular hq' hpoints' with ⟨hold', hbefore'⟩ | ⟨-, rfl, -⟩
      · exact absurd (hold'.step hbefore') h.not_isNode
      · rfl
  case root =>
    intro q key hq hpoints
    rcases h.points_node hregular hq hpoints with ⟨hq, hpoints⟩ | ⟨-, -, heq⟩
    · exact hregular.tree.root q key hq hpoints
    · exact h.ne_root heq.symm
  case prefixFree =>
    intro q r hq hr hle
    rcases (h.isNode_iff hregular).mp hq with hold | rfl
    · rcases (h.isNode_iff hregular).mp hr with hold' | rfl
      · exact hregular.tree.prefixFree q r hold hold' hle
      · exact absurd hle (h.apart q hold).1
    · rcases (h.isNode_iff hregular).mp hr with hold' | rfl
      · exact absurd hle (h.apart r hold').2
      · rfl
  case successor =>
    intro q hq hroot
    rcases (h.isNode_iff hregular).mp hq with hold | rfl
    · exact hregular.tree.successor q hold hroot
    · exact h.successor

theorem regularRows (h : Addable rows nodeSubspace parent name p)
    (hregular : RegularRows rows nodeSubspace) :
    RegularRows (added rows nodeSubspace parent name p nodeLayer) nodeSubspace := by
  have hchild := isChildRow_childKey nodeSubspace parent name
  refine ⟨h.layerTree hregular, ?_, ?_, ?_, ?_⟩
  · intro key hkey hhead
    rw [get?_added] at hkey
    split_ifs at hkey with hlayer hpointer
    · subst hlayer
      exact ⟨p, (h.isNode_iff hregular).mpr (.inr rfl), isNodeKey_layerKey _ _,
        isMetadata_layerKey _ _⟩
    · subst hpointer
      exact ⟨parent, h.below_of_below h.isNode, isNodeKey_childKey h.accepted, hchild.isMetadata⟩
    · obtain ⟨q, hq, hrow⟩ := hregular.keys key hkey hhead
      exact ⟨q, h.below_of_below hq, hrow⟩
  · intro q hq hroot
    rw [get?_added]
    split_ifs with hlayer hpointer
    · rfl
    · rfl
    · refine hregular.layered q (((h.isNode_iff hregular).mp hq).resolve_right ?_) hroot
      rintro rfl
      exact hlayer rfl
  · rw [get?_added, if_neg, if_neg, hregular.root]
    · exact (childKey_ne_layerKey _ _ _ _).symm
    · exact fun heq => h.ne_root (layerKey_inj heq).symm
  · rw [get?_versionKey]
    exact hregular.version

theorem layerKey_eq (hne : q ≠ p) :
    (added rows nodeSubspace parent name p nodeLayer).get? (layerKey nodeSubspace q) =
      rows.get? (layerKey nodeSubspace q) := by
  rw [get?_added, if_neg, if_neg]
  · exact (childKey_ne_layerKey _ _ _ _).symm
  · exact fun heq => hne (layerKey_inj heq)

/-- A layer is regular with a new directory, which is a partition only where its layer has no rows
yet. -/
theorem regular (h : Addable rows nodeSubspace parent name p) (hregular : Regular rows nodeSubspace)
    (hempty : nodeLayer = partitionTag → ∀ key, p ++ nodePrefix <+: key → rows.get? key = none) :
    Regular (added rows nodeSubspace parent name p nodeLayer) nodeSubspace := by
  have htree := hregular.regularRows
  refine (h.regularRows htree).regular_of_change hregular fun q hq hpartition => ?_
  rcases (h.isNode_iff htree).mp hq with hold | rfl
  · have hne : q ≠ p := by
      rintro rfl
      exact h.not_isNode hold
    have hpartition' : IsPartition rows nodeSubspace q :=
      ⟨hpartition.ne_root, (layerKey_eq hne).symm.trans hpartition.layer⟩
    exact .inl ⟨hold, hpartition', htree.tree.agree_of_kept hold hpartition.ne_root outside⟩
  · right
    intro key hkey
    have hlayer := hpartition.layer
    rw [get?_added, if_pos rfl, Option.some.injEq] at hlayer
    rw [outside key, hempty hlayer key hkey]
    intro hhead
    rcases List.prefix_or_prefix_of_prefix ((List.prefix_append _ _).trans hkey) hhead with hle | hle
    · exact (h.apart _ (.refl _)).2 hle
    · exact (h.apart _ (.refl _)).1 hle

end Addable

end FoundationDbEffect.Directory
