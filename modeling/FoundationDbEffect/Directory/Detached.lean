import FoundationDbEffect.Directory.Edits
import FoundationDbEffect.Directory.Removal

/-!
# Removed and moved directories

The nodes of a layer after one of them has been detached from its parent.  A removal clears what
lies below it as well, and a move attaches it to another parent, whose child row is written
before the old one is cleared.  Both leave a regular layer, and every row in it has an owner when
it had one before.
-/

namespace FoundationDbEffect.Directory

open FoundationDbEffect.Foundation FoundationDbEffect.TupleLayer
open FoundationDbEffect.Foundation.ByteOrder

variable {rows next : Rows} {nodeSubspace p q r key parent newParent : Bytes}
  {name newName : CodeUnits}

/-- Every row that a partition could take for one of its own belongs to the layer or to one of its
directories. -/
def Owned (rows : Rows) (nodeSubspace : Bytes) : Prop :=
  ∀ p key, p ++ nodePrefix <+: key → (rows.get? key).isSome →
    nodeSubspace <+: key ∨ ∃ q, IsNode rows nodeSubspace q ∧ q ≠ nodeSubspace ∧ q <+: key

theorem Owned.of_nodes (h : Owned rows nodeSubspace)
    (hnodes : ∀ q, IsNode rows nodeSubspace q → IsNode next nodeSubspace q)
    (hkept : ∀ key, ¬ nodeSubspace <+: key → next.get? key = rows.get? key) :
    Owned next nodeSubspace := by
  intro p key hinner hkey
  by_cases hbelow : nodeSubspace <+: key
  · exact .inl hbelow
  · rw [hkept key hbelow] at hkey
    obtain ⟨q, hq, hroot, hhead⟩ := (h p key hinner hkey).resolve_left hbelow
    exact .inr ⟨q, hnodes q hq, hroot, hhead⟩

theorem Owned.get?_eq_none (h : Owned rows nodeSubspace)
    (hapart : ∀ q, IsNode rows nodeSubspace q → ¬ q <+: p ∧ ¬ p <+: q)
    (hkey : p ++ nodePrefix <+: key) : rows.get? key = none := by
  by_contra hget
  have hnot {q : Bytes} (hq : IsNode rows nodeSubspace q) : ¬ q <+: key := by
    intro hhead
    rcases List.prefix_or_prefix_of_prefix hhead ((List.prefix_append _ _).trans hkey) with hle | hle
    · exact (hapart q hq).1 hle
    · exact (hapart q hq).2 hle
  rcases h p key hkey (Option.isSome_iff_ne_none.mpr hget) with hroot | ⟨q, hq, -, hhead⟩
  · exact hnot (.refl _) hroot
  · exact hnot hq hhead

/-! ## Nodes outside a subtree -/

/-- The way to a node that is not below another one does not enter that one. -/
theorem isNode_of_kept (hpoints : Points rows nodeSubspace parent key p)
    (hkept : ∀ q row r, IsNode rows nodeSubspace q → ¬ Below (Points rows nodeSubspace) p q →
      row ≠ key → Points rows nodeSubspace q row r → Points next nodeSubspace q row r)
    (hq : IsNode rows nodeSubspace q) (hnot : ¬ Below (Points rows nodeSubspace) p q) :
    IsNode next nodeSubspace q := by
  obtain ⟨labels, hlabels⟩ := hq
  induction hlabels with
  | nil => exact .refl _
  | @cons labels row q r hlabels hedge ih =>
      have hbefore : ¬ Below (Points rows nodeSubspace) p q := fun hbelow => hnot (hbelow.step hedge)
      refine (ih hbefore).step (hkept q row r ⟨labels, hlabels⟩ hbefore ?_ hedge)
      rintro rfl
      obtain rfl := hpoints.isMetadata.inj hedge.isMetadata
      rw [Option.some.inj (hpoints.2.symm.trans hedge.2)] at hnot
      exact hnot (.refl _)

/-- A node below another one is that one, or its child row is a row of a node below it. -/
theorem LayerTree.below_of_step (h : LayerTree rows nodeSubspace)
    (hq : IsNode rows nodeSubspace q) (hedge : Points rows nodeSubspace q key r)
    (hp : IsNode rows nodeSubspace p) (hbelow : Below (Points rows nodeSubspace) p r) :
    r = p ∨ Below (Points rows nodeSubspace) p q := by
  obtain ⟨labels, hlabels⟩ := hbelow
  cases hlabels with
  | nil => exact .inl rfl
  | cons hbefore hlast =>
      have hq' := hp.trans ⟨_, hbefore⟩
      obtain ⟨rfl, -⟩ := h.rooted.entered hq' hq hlast hedge
      exact .inr ⟨_, hbefore⟩

/-! ## Removed directories -/

/-- The rows without a directory, what is below it, and its child row. -/
structure Detaches (rows : Rows) (nodeSubspace parent : Bytes) (name : CodeUnits) (p : Bytes)
    (next : Rows) : Prop where
  isNode : IsNode rows nodeSubspace parent
  points : rows.get? (childKey nodeSubspace parent name) = some p
  without : OrderedMap.Without (fun key _ => Occupied rows nodeSubspace p key ∨
    key = childKey nodeSubspace parent name) rows next

namespace Detaches

theorem isNode_child (h : Detaches rows nodeSubspace parent name p next) :
    IsNode rows nodeSubspace p :=
  h.isNode.step (points_childKey h.points)

theorem ne_root (h : Detaches rows nodeSubspace parent name p next)
    (htree : LayerTree rows nodeSubspace) : p ≠ nodeSubspace := by
  rintro rfl
  exact htree.root _ _ h.isNode (points_childKey h.points)

theorem get?_eq (h : Detaches rows nodeSubspace parent name p next)
    (htree : LayerTree rows nodeSubspace) (hkey : IsMetadata nodeSubspace q key)
    (hnot : ¬ Below (Points rows nodeSubspace) p q)
    (hne : key ≠ childKey nodeSubspace parent name) : next.get? key = rows.get? key := by
  refine h.without.get?_eq fun _ hgone => hgone.elim (fun hoccupied => hnot ?_) hne
  exact htree.below_of_occupied h.isNode_child (h.ne_root htree) hkey hoccupied

theorem points_of_next (h : Detaches rows nodeSubspace parent name p next)
    (hpoints : Points next nodeSubspace q key r) : Points rows nodeSubspace q key r ∧
      ¬ Occupied rows nodeSubspace p key ∧ key ≠ childKey nodeSubspace parent name := by
  obtain ⟨hbefore, hgone⟩ := (h.without key r).mp hpoints.2
  exact ⟨⟨hpoints.1, hbefore⟩, not_or.mp hgone⟩

theorem isNode_iff (h : Detaches rows nodeSubspace parent name p next)
    (htree : LayerTree rows nodeSubspace) : IsNode next nodeSubspace q ↔
      IsNode rows nodeSubspace q ∧ ¬ Below (Points rows nodeSubspace) p q := by
  constructor
  · rintro ⟨labels, hlabels⟩
    induction hlabels with
    | nil =>
        exact ⟨.refl _, fun hbelow => htree.ne_root h.isNode_child (h.ne_root htree) hbelow rfl⟩
    | cons _ hedge ih =>
        obtain ⟨hedge, -, hne⟩ := h.points_of_next hedge
        refine ⟨ih.1.step hedge, fun hbelow => ?_⟩
        rcases htree.below_of_step ih.1 hedge h.isNode_child hbelow with rfl | hbefore
        · exact hne (htree.entered _ _ _ _ _ ih.1 h.isNode hedge (points_childKey h.points))
        · exact ih.2 hbefore
  · rintro ⟨hq, hnot⟩
    refine isNode_of_kept (points_childKey h.points) ?_ hq hnot
    intro q row r _ hnot hne hedge
    exact ⟨hedge.1, (h.get?_eq htree hedge.isMetadata hnot hne).trans hedge.2⟩

theorem layerKey_eq (h : Detaches rows nodeSubspace parent name p next)
    (htree : LayerTree rows nodeSubspace) (hnot : ¬ Below (Points rows nodeSubspace) p q) :
    next.get? (layerKey nodeSubspace q) = rows.get? (layerKey nodeSubspace q) :=
  h.get?_eq htree (isMetadata_layerKey _ _) hnot (Addable.childKey_ne_layerKey _ _ _ _).symm

theorem versionKey_eq (h : Detaches rows nodeSubspace parent name p next)
    (htree : LayerTree rows nodeSubspace) :
    next.get? (versionKey nodeSubspace) = rows.get? (versionKey nodeSubspace) := by
  refine h.get?_eq htree (isMetadata_versionKey _) (fun hbelow => ?_) (ne_childKey _ _ _ _ _)
  exact htree.ne_root h.isNode_child (h.ne_root htree) hbelow rfl

theorem regularRows (h : Detaches rows nodeSubspace parent name p next)
    (hregular : RegularRows rows nodeSubspace) : RegularRows next nodeSubspace := by
  have htree := hregular.tree
  have hnode {q : Bytes} (hq : IsNode next nodeSubspace q) := (h.isNode_iff htree).mp hq
  have hpoints {q key r : Bytes} (hq : Points next nodeSubspace q key r) :=
    (h.points_of_next hq).1
  constructor
  case tree =>
    constructor
    case versioned =>
      intro q hq hroot
      rw [h.versionKey_eq htree]
      exact htree.versioned q (hnode hq).1 hroot
    case named => exact fun q key r hq hr => htree.named q key r (hnode hq).1 (hpoints hr)
    case entered =>
      intro q q' key key' r hq hq' hr hr'
      exact htree.entered q q' key key' r (hnode hq).1 (hnode hq').1 (hpoints hr) (hpoints hr')
    case root => exact fun q key hq hr => htree.root q key (hnode hq).1 (hpoints hr)
    case prefixFree => exact fun q r hq hr => htree.prefixFree q r (hnode hq).1 (hnode hr).1
    case successor => exact fun q hq => htree.successor q (hnode hq).1
  case keys =>
    intro key hkey hhead
    obtain ⟨value, hget⟩ := Option.isSome_iff_exists.mp hkey
    obtain ⟨hbefore, hgone⟩ := (h.without key value).mp hget
    obtain ⟨q, hq, hrow⟩ := hregular.keys key (by rw [hbefore]; rfl) hhead
    refine ⟨q, (h.isNode_iff htree).mpr ⟨hq, fun hbelow => hgone (.inl ?_)⟩, hrow⟩
    exact ⟨q, hbelow, .inl hrow.2⟩
  case layered =>
    intro q hq hroot
    rw [h.layerKey_eq htree (hnode hq).2]
    exact hregular.layered q (hnode hq).1 hroot
  case root =>
    by_contra hget
    obtain ⟨value, hvalue⟩ := Option.ne_none_iff_exists'.mp hget
    have hbefore := ((h.without _ _).mp hvalue).1
    rw [hregular.root] at hbefore
    cases hbefore
  case version =>
    rw [h.versionKey_eq htree]
    exact hregular.version

theorem agree (h : Detaches rows nodeSubspace parent name p next)
    (htree : LayerTree rows nodeSubspace) (hq : IsNode rows nodeSubspace q)
    (hroot : q ≠ nodeSubspace) (hnot : ¬ Below (Points rows nodeSubspace) p q) :
    Agree rows next q := by
  intro key hkey
  obtain ⟨hoccupied, hne⟩ := htree.apart ⟨nodeSubspace, parent, name, p⟩ h.isNode_child hq hroot
    hnot hkey
  exact h.without.get?_eq fun _ hgone => hgone.elim hoccupied hne

theorem regular (h : Detaches rows nodeSubspace parent name p next)
    (hregular : Regular rows nodeSubspace) : Regular next nodeSubspace := by
  have htree := hregular.regularRows.tree
  refine (h.regularRows hregular.regularRows).regular_of_change hregular fun q hq hpartition => ?_
  obtain ⟨hbefore, hnot⟩ := (h.isNode_iff htree).mp hq
  refine .inl ⟨hbefore, ⟨hpartition.ne_root, ?_⟩, h.agree htree hbefore hpartition.ne_root hnot⟩
  exact (h.layerKey_eq htree hnot).symm.trans hpartition.layer

theorem owned (h : Detaches rows nodeSubspace parent name p next)
    (htree : LayerTree rows nodeSubspace) (howned : Owned rows nodeSubspace) :
    Owned next nodeSubspace := by
  intro inner key hinner hkey
  obtain ⟨value, hget⟩ := Option.isSome_iff_exists.mp hkey
  obtain ⟨hbefore, hgone⟩ := (h.without key value).mp hget
  rcases howned inner key hinner (by rw [hbefore]; rfl) with hbelow | ⟨q, hq, hroot, hhead⟩
  · exact .inl hbelow
  · refine .inr ⟨q, (h.isNode_iff htree).mpr ⟨hq, fun hbelow => hgone (.inl ?_)⟩, hroot, hhead⟩
    exact ⟨q, hbelow, .inr hhead⟩

end Detaches

/-! ## Moved directories -/

def moved (rows : Rows) (nodeSubspace parent : Bytes) (name : CodeUnits) (newParent : Bytes)
    (newName : CodeUnits) (p : Bytes) : Rows :=
  (rows.set (childKey nodeSubspace newParent newName) p).clear (childKey nodeSubspace parent name)

/-- A directory, and a free name for it in a node that is not below it. -/
structure Movable (rows : Rows) (nodeSubspace parent : Bytes) (name : CodeUnits)
    (newParent : Bytes) (newName : CodeUnits) (p : Bytes) : Prop where
  isNode : IsNode rows nodeSubspace parent
  points : rows.get? (childKey nodeSubspace parent name) = some p
  isNode_new : IsNode rows nodeSubspace newParent
  outside : ¬ Below (Points rows nodeSubspace) p newParent
  accepted : firstRejection [.string newName] = none
  free : rows.get? (childKey nodeSubspace newParent newName) = none

namespace Movable

theorem get?_moved (rows : Rows) (nodeSubspace parent : Bytes) (name : CodeUnits)
    (newParent : Bytes) (newName : CodeUnits) (p key : Bytes) :
    (moved rows nodeSubspace parent name newParent newName p).get? key =
      if key = childKey nodeSubspace parent name then none
      else if key = childKey nodeSubspace newParent newName then some p else rows.get? key := by
  rw [moved, OrderedMap.get?_clear, OrderedMap.get?_set]
  split_ifs <;> rfl

theorem childKey_ne (h : Movable rows nodeSubspace parent name newParent newName p) :
    childKey nodeSubspace newParent newName ≠ childKey nodeSubspace parent name := by
  intro heq
  have hfree := h.free
  rw [heq, h.points] at hfree
  cases hfree

theorem isNode_child (h : Movable rows nodeSubspace parent name newParent newName p) :
    IsNode rows nodeSubspace p :=
  h.isNode.step (points_childKey h.points)

theorem get?_eq (hne : key ≠ childKey nodeSubspace parent name)
    (hne' : key ≠ childKey nodeSubspace newParent newName) :
    (moved rows nodeSubspace parent name newParent newName p).get? key = rows.get? key := by
  rw [get?_moved, if_neg hne, if_neg hne']

theorem kept (key : Bytes) (hkey : ¬ nodeSubspace <+: key) :
    (moved rows nodeSubspace parent name newParent newName p).get? key = rows.get? key := by
  refine get?_eq ?_ ?_ <;>
  · rintro rfl
    exact hkey (isChildRow_childKey _ _ _).isMetadata.below

theorem layerKey_eq (q : Bytes) :
    (moved rows nodeSubspace parent name newParent newName p).get? (layerKey nodeSubspace q) =
      rows.get? (layerKey nodeSubspace q) :=
  get?_eq (Addable.childKey_ne_layerKey _ _ _ _).symm (Addable.childKey_ne_layerKey _ _ _ _).symm

theorem versionKey_eq :
    (moved rows nodeSubspace parent name newParent newName p).get? (versionKey nodeSubspace) =
      rows.get? (versionKey nodeSubspace) :=
  get?_eq (ne_childKey _ _ _ _ _) (ne_childKey _ _ _ _ _)

theorem points_iff (h : Movable rows nodeSubspace parent name newParent newName p) :
    Points (moved rows nodeSubspace parent name newParent newName p) nodeSubspace q key r ↔
      (Points rows nodeSubspace q key r ∧ key ≠ childKey nodeSubspace parent name) ∨
        q = newParent ∧ key = childKey nodeSubspace newParent newName ∧ r = p := by
  rw [Points, get?_moved]
  constructor
  · rintro ⟨hchild, hget⟩
    split_ifs at hget with hold hnew
    · subst hnew
      exact .inr ⟨hchild.isMetadata.inj (isChildRow_childKey _ _ _).isMetadata, rfl,
        (Option.some.inj hget).symm⟩
    · exact .inl ⟨⟨hchild, hget⟩, hold⟩
  · rintro (⟨⟨hchild, hget⟩, hold⟩ | ⟨rfl, rfl, rfl⟩)
    · refine ⟨hchild, ?_⟩
      rw [if_neg hold, if_neg, hget]
      rintro rfl
      rw [h.free] at hget
      cases hget
    · exact ⟨isChildRow_childKey _ _ _, by rw [if_neg h.childKey_ne, if_pos rfl]⟩

theorem isNode_iff (h : Movable rows nodeSubspace parent name newParent newName p) :
    IsNode (moved rows nodeSubspace parent name newParent newName p) nodeSubspace q ↔
      IsNode rows nodeSubspace q := by
  constructor
  · rintro ⟨labels, hlabels⟩
    induction hlabels with
    | nil => exact .refl _
    | cons _ hedge ih =>
        rcases h.points_iff.mp hedge with ⟨hbefore, -⟩ | ⟨-, -, rfl⟩
        · exact ih.step hbefore
        · exact h.isNode_child
  · have houtside {q : Bytes} (hq : IsNode rows nodeSubspace q)
        (hnot : ¬ Below (Points rows nodeSubspace) p q) :
        IsNode (moved rows nodeSubspace parent name newParent newName p) nodeSubspace q :=
      isNode_of_kept (points_childKey h.points)
        (fun _ _ _ _ _ hne hedge => h.points_iff.mpr (.inl ⟨hedge, hne⟩)) hq hnot
    have hchild : IsNode (moved rows nodeSubspace parent name newParent newName p) nodeSubspace p :=
      (houtside h.isNode_new h.outside).step (h.points_iff.mpr (.inr ⟨rfl, rfl, rfl⟩))
    rintro ⟨labels, hlabels⟩
    induction hlabels with
    | nil => exact .refl _
    | @cons labels row q r hbefore hedge ih =>
        by_cases hold : row = childKey nodeSubspace parent name
        · subst hold
          obtain rfl := (isChildRow_childKey _ _ _).isMetadata.inj hedge.isMetadata
          rwa [Option.some.inj (hedge.2.symm.trans h.points)]
        · exact ih.step (h.points_iff.mpr (.inl ⟨hedge, hold⟩))

theorem regularRows (h : Movable rows nodeSubspace parent name newParent newName p)
    (hregular : RegularRows rows nodeSubspace) :
    RegularRows (moved rows nodeSubspace parent name newParent newName p) nodeSubspace := by
  have htree := hregular.tree
  have hnode {q : Bytes} := h.isNode_iff (q := q)
  have hchild := isChildRow_childKey nodeSubspace newParent newName
  have honly {q key : Bytes} (hq : IsNode rows nodeSubspace q)
      (hr : Points rows nodeSubspace q key p) : key = childKey nodeSubspace parent name :=
    htree.entered _ _ _ _ _ hq h.isNode hr (points_childKey h.points)
  constructor
  case tree =>
    constructor
    case versioned =>
      intro q hq hroot
      rw [versionKey_eq]
      exact htree.versioned q (hnode.mp hq) hroot
    case named =>
      intro q key r hq hr
      rcases h.points_iff.mp hr with ⟨hr, -⟩ | ⟨rfl, rfl, -⟩
      · exact htree.named q key r (hnode.mp hq) hr
      · exact ⟨newName, h.accepted, rfl⟩
    case entered =>
      intro q q' key key' r hq hq' hr hr'
      rcases h.points_iff.mp hr with ⟨hold, hne⟩ | ⟨-, rfl, rfl⟩
      · rcases h.points_iff.mp hr' with ⟨hold', -⟩ | ⟨-, -, rfl⟩
        · exact htree.entered q q' key key' r (hnode.mp hq) (hnode.mp hq') hold hold'
        · exact absurd (honly (hnode.mp hq) hold) hne
      · rcases h.points_iff.mp hr' with ⟨hold', hne⟩ | ⟨-, rfl, -⟩
        · exact absurd (honly (hnode.mp hq') hold') hne
        · rfl
    case root =>
      intro q key hq hr
      rcases h.points_iff.mp hr with ⟨hr, -⟩ | ⟨-, -, heq⟩
      · exact htree.root q key (hnode.mp hq) hr
      · subst heq
        exact htree.root _ _ h.isNode (points_childKey h.points)
    case prefixFree => exact fun q r hq hr => htree.prefixFree q r (hnode.mp hq) (hnode.mp hr)
    case successor => exact fun q hq => htree.successor q (hnode.mp hq)
  case keys =>
    intro key hkey hhead
    rw [get?_moved] at hkey
    split_ifs at hkey with hold hnew
    · cases hkey
    · subst hnew
      exact ⟨newParent, hnode.mpr h.isNode_new, isNodeKey_childKey h.accepted, hchild.isMetadata⟩
    · obtain ⟨q, hq, hrow⟩ := hregular.keys key hkey hhead
      exact ⟨q, hnode.mpr hq, hrow⟩
  case layered =>
    intro q hq hroot
    rw [layerKey_eq]
    exact hregular.layered q (hnode.mp hq) hroot
  case root => rw [layerKey_eq, hregular.root]
  case version =>
    rw [versionKey_eq]
    exact hregular.version

theorem regular (h : Movable rows nodeSubspace parent name newParent newName p)
    (hregular : Regular rows nodeSubspace) :
    Regular (moved rows nodeSubspace parent name newParent newName p) nodeSubspace := by
  have htree := hregular.regularRows.tree
  refine (h.regularRows hregular.regularRows).regular_of_change hregular fun q hq hpartition => ?_
  have hbefore := h.isNode_iff.mp hq
  have hpartition' : IsPartition rows nodeSubspace q :=
    ⟨hpartition.ne_root, (layerKey_eq q).symm.trans hpartition.layer⟩
  exact .inl ⟨hbefore, hpartition', htree.agree_of_kept hbefore hpartition.ne_root kept⟩

end Movable

end FoundationDbEffect.Directory
