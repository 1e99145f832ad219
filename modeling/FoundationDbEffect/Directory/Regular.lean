import FoundationDbEffect.Directory.Tree

/-!
# Regular layers

A layer is regular when its rows are those of a tree of nodes, each with the row of its layer,
and nothing else but its version and its allocator, and when the layers inside its partitions
are regular.  It depends on the rows under its node subspace and under its partitions only, so a
change inside one partition leaves the layers around it regular.
-/

namespace FoundationDbEffect.Directory

open FoundationDbEffect.Foundation FoundationDbEffect.TupleLayer
open FoundationDbEffect.Foundation.ByteOrder

/-- The rows of a layer are those of its nodes, and every node but the root has its layer. -/
structure RegularRows (rows : Rows) (nodeSubspace : Bytes) : Prop where
  tree : LayerTree rows nodeSubspace
  keys : ∀ key, (rows.get? key).isSome → nodeSubspace <+: key →
    ∃ p, IsNode rows nodeSubspace p ∧ IsNodeKey nodeSubspace p key ∧ IsMetadata nodeSubspace p key
  layered : ∀ p, IsNode rows nodeSubspace p → p ≠ nodeSubspace →
    (rows.get? (layerKey nodeSubspace p)).isSome
  root : rows.get? (layerKey nodeSubspace nodeSubspace) = none
  version : ∀ version, rows.get? (versionKey nodeSubspace) = some version → Writable version

structure Regular (rows : Rows) (nodeSubspace : Bytes) : Prop where
  layers : ∀ innerSubspace q, Inside rows nodeSubspace nodeSubspace innerSubspace q →
    RegularRows rows innerSubspace
  inside : ∀ innerSubspace q r, Inside rows nodeSubspace nodeSubspace innerSubspace q →
    IsPartition rows innerSubspace q → IsNode rows (q ++ nodePrefix) r → q <+: r

def Under (rows : Rows) (nodeSubspace head : Bytes) : Prop :=
  ∀ r, IsNode rows nodeSubspace r → head <+: r

section

variable {rows next : Rows} {nodeSubspace p q r key : Bytes} {labels : List Bytes}

theorem Regular.regularRows (h : Regular rows nodeSubspace) : RegularRows rows nodeSubspace :=
  h.layers _ _ (.inLayer (.refl _))

theorem Regular.partition (h : Regular rows nodeSubspace) (hp : IsNode rows nodeSubspace p)
    (hpartition : IsPartition rows nodeSubspace p) :
    Regular rows (p ++ nodePrefix) ∧ Under rows (p ++ nodePrefix) p :=
  ⟨⟨fun _ _ hinside => h.layers _ _ (.inPartition hp hpartition hinside),
    fun _ _ _ hinside => h.inside _ _ _ (.inPartition hp hpartition hinside)⟩,
    fun _ => h.inside _ _ _ (.inLayer hp) hpartition⟩

theorem RegularRows.regular (h : RegularRows rows nodeSubspace)
    (hpartitions : ∀ p, IsNode rows nodeSubspace p → IsPartition rows nodeSubspace p →
      Regular rows (p ++ nodePrefix) ∧ Under rows (p ++ nodePrefix) p) :
    Regular rows nodeSubspace := by
  constructor
  · intro innerSubspace q hinside
    cases hinside with
    | inLayer => exact h
    | inPartition hp hpartition hinside => exact (hpartitions _ hp hpartition).1.layers _ _ hinside
  · intro innerSubspace q r hinside hq hr
    cases hinside with
    | inLayer hp => exact (hpartitions _ hp hq).2 r hr
    | inPartition hp hpartition hinside =>
        exact (hpartitions _ hp hpartition).1.inside _ _ _ hinside hq hr

/-! ## Rows that agree -/

def Agree (rows next : Rows) (head : Bytes) : Prop :=
  ∀ key, head <+: key → next.get? key = rows.get? key

theorem Agree.symm (h : Agree rows next p) : Agree next rows p := fun key hkey => (h key hkey).symm

theorem Agree.extend (h : Agree rows next p) (hle : p <+: q) : Agree rows next q :=
  fun key hkey => h key (hle.trans hkey)

theorem Agree.points (h : Agree rows next nodeSubspace) (hpoints : Points rows nodeSubspace p key q) :
    Points next nodeSubspace p key q :=
  ⟨hpoints.1, (h key hpoints.isMetadata.below).trans hpoints.2⟩

theorem Agree.below (h : Agree rows next nodeSubspace)
    (hbelow : Below (Points rows nodeSubspace) p q) : Below (Points next nodeSubspace) p q := by
  obtain ⟨labels, hlabels⟩ := hbelow
  induction hlabels with
  | nil => exact .refl _
  | cons _ hpoints ih => exact ih.step (h.points hpoints)

theorem Agree.partition (h : Agree rows next nodeSubspace)
    (hpartition : IsPartition rows nodeSubspace p) : IsPartition next nodeSubspace p :=
  ⟨hpartition.ne_root, (h _ (isMetadata_layerKey _ _).below).trans hpartition.layer⟩

theorem Agree.regularRows (h : Agree rows next nodeSubspace)
    (hregular : RegularRows rows nodeSubspace) : RegularRows next nodeSubspace := by
  have hnode {p : Bytes} (hp : IsNode next nodeSubspace p) : IsNode rows nodeSubspace p :=
    h.symm.below hp
  have hpoints {p key q : Bytes} (hpoints : Points next nodeSubspace p key q) :
      Points rows nodeSubspace p key q := h.symm.points hpoints
  constructor
  case tree =>
    constructor
    case versioned =>
      intro p hp hroot
      obtain ⟨version, hversion, hwritable⟩ := hregular.tree.versioned p (hnode hp) hroot
      exact ⟨version, (h _ (isMetadata_versionKey _).below).trans hversion, hwritable⟩
    case named => exact fun p key q hp hq => hregular.tree.named p key q (hnode hp) (hpoints hq)
    case entered =>
      intro p p' key key' q hp hp' hq hq'
      exact hregular.tree.entered p p' key key' q (hnode hp) (hnode hp') (hpoints hq) (hpoints hq')
    case root => exact fun p key hp hq => hregular.tree.root p key (hnode hp) (hpoints hq)
    case prefixFree => exact fun p q hp hq => hregular.tree.prefixFree p q (hnode hp) (hnode hq)
    case successor => exact fun p hp => hregular.tree.successor p (hnode hp)
  case keys =>
    intro key hkey hhead
    rw [h key hhead] at hkey
    obtain ⟨p, hp, hnodeKey, hmetadata⟩ := hregular.keys key hkey hhead
    exact ⟨p, h.below hp, hnodeKey, hmetadata⟩
  case layered =>
    intro p hp hroot
    rw [h _ (isMetadata_layerKey _ _).below]
    exact hregular.layered p (hnode hp) hroot
  case root =>
    rw [h _ (isMetadata_layerKey _ _).below]
    exact hregular.root
  case version =>
    rw [h _ (isMetadata_versionKey _).below]
    exact hregular.version

theorem Agree.inside {head innerSubspace : Bytes} (h : Agree rows next head)
    (hregular : Regular rows nodeSubspace) (hhead : head <+: nodeSubspace)
    (hunder : Under rows nodeSubspace head) {start : Bytes} (hstart : start = nodeSubspace)
    (hinside : Inside next nodeSubspace start innerSubspace q) :
    Inside rows nodeSubspace start innerSubspace q ∧ head <+: innerSubspace := by
  induction hinside with
  | inLayer hbelow => exact ⟨.inLayer ((h.extend hhead).symm.below hbelow), hhead⟩
  | inPartition hbelow hpartition hinside ih =>
      subst hstart
      have hp := (h.extend hhead).symm.below hbelow
      have hpartition' := (h.extend hhead).symm.partition hpartition
      obtain ⟨hinner, hunder'⟩ := hregular.partition hp hpartition'
      have hle := hunder _ hp
      obtain ⟨hinside', hhead'⟩ := ih hinner (hle.trans (List.prefix_append _ _))
        (fun r hr => hle.trans (hunder' r hr)) rfl
      exact ⟨.inPartition hp hpartition' hinside', hhead'⟩

theorem Agree.regular (h : Agree rows next p) (hregular : Regular rows (p ++ nodePrefix))
    (hunder : Under rows (p ++ nodePrefix) p) :
    Regular next (p ++ nodePrefix) ∧ Under next (p ++ nodePrefix) p := by
  have hhead : p <+: p ++ nodePrefix := List.prefix_append _ _
  have hinside {innerSubspace q : Bytes}
      (h' : Inside next (p ++ nodePrefix) (p ++ nodePrefix) innerSubspace q) :=
    h.inside hregular hhead hunder rfl h'
  refine ⟨⟨fun innerSubspace q h' => ?_, fun innerSubspace q r h' hq hr => ?_⟩, fun r hr => ?_⟩
  · obtain ⟨hbefore, hle⟩ := hinside h'
    exact (h.extend hle).regularRows (hregular.layers _ _ hbefore)
  · obtain ⟨hbefore, hle⟩ := hinside h'
    have hq' := (h.extend hle).symm.partition hq
    obtain ⟨-, hle'⟩ := hinside (Inside.trans h' (.inPartition (.refl _) hq (.inLayer (.refl _))))
    exact hregular.inside _ _ _ hbefore hq' ((h.extend hle').symm.below hr)
  · exact hunder r ((h.extend hhead).symm.below hr)

theorem regular_of_empty {head : Bytes} (h : ∀ key, head <+: key → rows.get? key = none)
    (hhead : head <+: nodeSubspace) : Regular rows nodeSubspace ∧ Under rows nodeSubspace head := by
  have hnone {key : Bytes} (hkey : nodeSubspace <+: key) : rows.get? key = none :=
    h key (hhead.trans hkey)
  have hpoints {p key q : Bytes} : ¬ Points rows nodeSubspace p key q := by
    intro hpoints
    have hget := hpoints.2
    rw [hnone hpoints.isMetadata.below] at hget
    cases hget
  have hroot {p : Bytes} (hp : IsNode rows nodeSubspace p) : p = nodeSubspace := by
    rcases hp.eq_or_edge with rfl | ⟨key, q, hedge, -⟩
    · rfl
    · exact absurd hedge hpoints
  have htree : LayerTree rows nodeSubspace := by
    constructor
    case versioned => exact fun p hp hne => absurd (hroot hp) hne
    case named => exact fun p key q _ hedge => absurd hedge hpoints
    case entered => exact fun p p' key key' q _ _ hedge _ => absurd hedge hpoints
    case root => exact fun p key _ => hpoints
    case prefixFree => exact fun p q hp hq _ => (hroot hp).trans (hroot hq).symm
    case successor => exact fun p hp hne => absurd (hroot hp) hne
  have hregular : RegularRows rows nodeSubspace := by
    refine ⟨htree, fun key hkey hle => ?_, fun p hp hne => absurd (hroot hp) hne, ?_, ?_⟩
    · rw [hnone hle] at hkey
      cases hkey
    · exact hnone (isMetadata_layerKey _ _).below
    · intro version hversion
      rw [hnone (isMetadata_versionKey _).below] at hversion
      cases hversion
  refine ⟨hregular.regular fun p hp hpartition => absurd (hroot hp) hpartition.ne_root, ?_⟩
  intro r hr
  rwa [hroot hr]

/-- A change of a layer keeps it regular when the rows of the layer are regular and each of its
partitions is one that has been left alone, or has nothing in it. -/
theorem RegularRows.regular_of_change (h : RegularRows next nodeSubspace)
    (hbefore : Regular rows nodeSubspace)
    (hpartitions : ∀ p, IsNode next nodeSubspace p → IsPartition next nodeSubspace p →
      (IsNode rows nodeSubspace p ∧ IsPartition rows nodeSubspace p ∧ Agree rows next p) ∨
        ∀ key, p ++ nodePrefix <+: key → next.get? key = none) : Regular next nodeSubspace := by
  refine h.regular fun p hp hpartition => ?_
  rcases hpartitions p hp hpartition with ⟨hp, hpartition, hagree⟩ | hempty
  · obtain ⟨hinner, hunder⟩ := hbefore.partition hp hpartition
    exact hagree.regular hinner hunder
  · obtain ⟨hinner, hunder⟩ := regular_of_empty hempty List.prefix_rfl
    exact ⟨hinner, fun r hr => (List.prefix_append _ _).trans (hunder r hr)⟩

theorem LayerTree.agree_of_kept (h : LayerTree rows nodeSubspace)
    (hp : IsNode rows nodeSubspace p) (hroot : p ≠ nodeSubspace)
    (hkept : ∀ key, ¬ nodeSubspace <+: key → next.get? key = rows.get? key) :
    Agree rows next p :=
  fun key hkey => hkept key fun hhead => hroot (h.eq_of_heads hp (.refl _) hkey hhead)

/-! ## Changes inside a partition -/

/-- A change inside a partition: its layer is regular again, its nodes lie under its prefix, and
all other keys are as they were. -/
structure ChangedInside (rows next : Rows) (head : Bytes) : Prop where
  regular : Regular next (head ++ nodePrefix)
  under : Under next (head ++ nodePrefix) head
  kept : ∀ key, ¬ head <+: key → next.get? key = rows.get? key

theorem ChangedInside.agree (h : ChangedInside rows next p) (hregular : Regular rows nodeSubspace)
    (hp : IsNode rows nodeSubspace p) (hq : IsNode rows nodeSubspace q) (hne : q ≠ p) :
    Agree rows next q := by
  intro key hkey
  refine h.kept key fun hhead => hne ?_
  exact hregular.regularRows.tree.eq_of_heads hq hp hkey hhead

/-- The layer around a partition stays regular. -/
theorem ChangedInside.lift (h : ChangedInside rows next p) (hregular : Regular rows nodeSubspace)
    (hp : IsNode rows nodeSubspace p) (hpartition : IsPartition rows nodeSubspace p) :
    Regular next nodeSubspace ∧ Agree rows next nodeSubspace := by
  have hagree := h.agree hregular hp (.refl _) hpartition.ne_root.symm
  refine ⟨(hagree.regularRows hregular.regularRows).regular fun q hq hq' => ?_, hagree⟩
  have hbefore := hagree.symm.below hq
  have hbefore' := hagree.symm.partition hq'
  by_cases hne : q = p
  · subst hne
    exact ⟨h.regular, h.under⟩
  · obtain ⟨hinner, hunder⟩ := hregular.partition hbefore hbefore'
    exact (h.agree hregular hp hbefore hne).regular hinner hunder

end

end FoundationDbEffect.Directory
