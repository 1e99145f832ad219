import FoundationDbEffect.Directory.Detached
import FoundationDbEffect.Foundation.PathTree

/-!
# The directories of a database

Following a path name by name gives the directory that it names: where a partition is met, the
next name is looked up in the layer inside.  What an edit of a layer does to the directories is
known from the child rows and layers that are read on the way.
-/

namespace FoundationDbEffect.Directory

open FoundationDbEffect.Foundation FoundationDbEffect.TupleLayer
open FoundationDbEffect.Foundation.ByteOrder

structure Entry where
  nodeSubspace : Bytes
  prefixBytes : Bytes
  layer : Bytes
  deriving DecidableEq, Repr

def entryOf (rows : Rows) (nodeSubspace p : Bytes) : Entry where
  nodeSubspace := nodeSubspace
  prefixBytes := p
  layer := (rows.get? (layerKey nodeSubspace p)).getD []

def Entry.inner (entry : Entry) : Bytes :=
  if entry.layer = partitionTag then entry.prefixBytes ++ nodePrefix else entry.nodeSubspace

def entered (rows : Rows) (nodeSubspace p : Bytes) : Bytes × Bytes :=
  if rows.get? (layerKey nodeSubspace p) = some partitionTag then (p ++ nodePrefix, p ++ nodePrefix)
  else (nodeSubspace, p)

def childOf (rows : Rows) (nodeSubspace p : Bytes) (name : CodeUnits) : Option Bytes :=
  if firstRejection [.string name] = none then rows.get? (childKey nodeSubspace p name) else none

def follow (rows : Rows) : Bytes → Bytes → DirectoryPath → Option Entry
  | nodeSubspace, p, [] => some (entryOf rows nodeSubspace p)
  | nodeSubspace, p, name :: rest =>
    (childOf rows (entered rows nodeSubspace p).1 (entered rows nodeSubspace p).2 name).bind
      fun q => follow rows (entered rows nodeSubspace p).1 q rest

/-- The directories of a layer and of its partitions by their paths, with the root at the empty
path. -/
def directories (rows : Rows) (nodeSubspace : Bytes) : PathTree CodeUnits Entry :=
  follow rows nodeSubspace nodeSubspace

section

variable {rows next : Rows} {nodeSubspace p q r key parent : Bytes} {name : CodeUnits}
  {path front rest start : DirectoryPath} {entry : Entry}

theorem childOf_eq_some : childOf rows nodeSubspace p name = some q ↔
    firstRejection [.string name] = none ∧ rows.get? (childKey nodeSubspace p name) = some q := by
  rw [childOf]
  split_ifs with h <;> simp [h]

theorem entryOf_inner_partition (h : rows.get? (layerKey nodeSubspace p) = some partitionTag) :
    (entryOf rows nodeSubspace p).inner = p ++ nodePrefix :=
  if_pos (getD_eq_partitionTag.mpr h)

theorem entryOf_inner_plain (h : rows.get? (layerKey nodeSubspace p) ≠ some partitionTag) :
    (entryOf rows nodeSubspace p).inner = nodeSubspace :=
  if_neg (getD_eq_partitionTag.not.mpr h)

theorem entered_partition (h : rows.get? (layerKey nodeSubspace p) = some partitionTag) :
    entered rows nodeSubspace p = (p ++ nodePrefix, p ++ nodePrefix) :=
  if_pos h

theorem entered_plain (h : rows.get? (layerKey nodeSubspace p) ≠ some partitionTag) :
    entered rows nodeSubspace p = (nodeSubspace, p) :=
  if_neg h

theorem follow_append (rows : Rows) (nodeSubspace p : Bytes) (front rest : DirectoryPath) :
    follow rows nodeSubspace p (front ++ rest) = (follow rows nodeSubspace p front).bind
      fun entry => follow rows entry.nodeSubspace entry.prefixBytes rest := by
  induction front generalizing nodeSubspace p with
  | nil => rfl
  | cons name front ih =>
      simp only [List.cons_append, follow, Option.bind_assoc]
      exact congrArg _ (funext fun q => ih _ q)

theorem follow_ne_none (h : follow rows nodeSubspace p path ≠ none) (hle : front <+: path) :
    follow rows nodeSubspace p front ≠ none := by
  obtain ⟨rest, rfl⟩ := hle
  intro hnone
  rw [follow_append, hnone] at h
  exact h rfl

theorem RegularRows.plain_root (h : RegularRows rows nodeSubspace) :
    rows.get? (layerKey nodeSubspace nodeSubspace) ≠ some partitionTag := by
  rw [h.root]
  exact Option.some_ne_none _ ∘ Eq.symm

/-! ## Nodes reached in a layer -/

/-- A node that a path leads to inside one layer. -/
inductive Reached (rows : Rows) (nodeSubspace : Bytes) : DirectoryPath → Bytes → Prop where
  | root : Reached rows nodeSubspace [] nodeSubspace
  | child {path : DirectoryPath} {p q : Bytes} {name : CodeUnits}
      (h : Reached rows nodeSubspace path p)
      (hplain : rows.get? (layerKey nodeSubspace p) ≠ some partitionTag)
      (hchild : childOf rows nodeSubspace p name = some q) :
      Reached rows nodeSubspace (path ++ [name]) q

theorem childKey_inj {name' : CodeUnits} (hname : firstRejection [.string name] = none)
    (hname' : firstRejection [.string name'] = none)
    (h : childKey nodeSubspace p name = childKey nodeSubspace q name') : p = q ∧ name = name' := by
  obtain rfl : p = q := (isChildRow_childKey nodeSubspace p name).isMetadata.inj
    (h ▸ (isChildRow_childKey nodeSubspace q name').isMetadata)
  have hunpacked {name : CodeUnits} (hname : firstRejection [.string name] = none) :
      unpacked (nodeKey nodeSubspace p) (childKey nodeSubspace p name) "" =
        .ok [.integer 0, .string name] :=
    unpacked_eq _ (by simpa [firstRejection, rejection] using hname) _
  have heq := hunpacked hname
  rw [h, hunpacked hname'] at heq
  simp only [Except.ok.injEq, List.cons.injEq, TupleValue.string.injEq, and_true, true_and] at heq
  exact ⟨rfl, heq.symm⟩

theorem points_of_childOf (h : childOf rows nodeSubspace p name = some q) :
    Points rows nodeSubspace p (childKey nodeSubspace p name) q :=
  points_childKey (childOf_eq_some.mp h).2

namespace Reached

theorem isNode (h : Reached rows nodeSubspace path p) : IsNode rows nodeSubspace p := by
  induction h with
  | root => exact .refl _
  | child _ _ hchild ih => exact ih.step (points_of_childOf hchild)

theorem eq_nil_or (h : Reached rows nodeSubspace path p) :
    (path = [] ∧ p = nodeSubspace) ∨ ∃ front q name, path = front ++ [name] ∧
      Reached rows nodeSubspace front q ∧
      rows.get? (layerKey nodeSubspace q) ≠ some partitionTag ∧
      childOf rows nodeSubspace q name = some p := by
  cases h with
  | root => exact .inl ⟨rfl, rfl⟩
  | child h hplain hchild => exact .inr ⟨_, _, _, rfl, h, hplain, hchild⟩

theorem node_eq (h : Reached rows nodeSubspace path p) (h' : Reached rows nodeSubspace path q) :
    p = q := by
  induction h generalizing q with
  | root =>
      rcases h'.eq_nil_or with ⟨-, rfl⟩ | ⟨front, _, name, hnil, -⟩
      · rfl
      · simp at hnil
  | @child path p r name h _ hchild ih =>
      rcases h'.eq_nil_or with ⟨hnil, -⟩ | ⟨front, p', name', heq, hp', -, hchild'⟩
      · simp at hnil
      · obtain ⟨rfl, hname⟩ := List.append_inj' heq rfl
        obtain rfl := List.singleton_inj.mp hname
        rw [ih hp'] at hchild
        exact Option.some.inj (hchild.symm.trans hchild')

/-- A node is reached by one path only. -/
theorem path_eq (h : Reached rows nodeSubspace path p) (htree : LayerTree rows nodeSubspace)
    {path' : DirectoryPath} (h' : Reached rows nodeSubspace path' p) : path = path' := by
  induction h generalizing path' with
  | root =>
      rcases h'.eq_nil_or with ⟨rfl, -⟩ | ⟨front, q, name, -, hq, -, hchild⟩
      · rfl
      · exact absurd (points_of_childOf hchild) (htree.root _ _ hq.isNode)
  | @child path p q name h hplain hchild ih =>
      rcases h'.eq_nil_or with ⟨-, rfl⟩ | ⟨front, p', name', rfl, hp', -, hchild'⟩
      · exact absurd (points_of_childOf hchild) (htree.root _ _ h.isNode)
      · have hkey := htree.entered _ _ _ _ _ h.isNode hp'.isNode (points_of_childOf hchild)
          (points_of_childOf hchild')
        obtain ⟨rfl, rfl⟩ := childKey_inj (childOf_eq_some.mp hchild).1 (childOf_eq_some.mp hchild').1
          hkey
        rw [ih hp']

/-- The path to a node below another one goes through that one. -/
theorem prefix_of_below (h : Reached rows nodeSubspace path p) (htree : LayerTree rows nodeSubspace)
    (hroot : p ≠ nodeSubspace) (hbelow : Below (Points rows nodeSubspace) p q)
    {path' : DirectoryPath} (h' : Reached rows nodeSubspace path' q) : path <+: path' := by
  obtain ⟨labels, hlabels⟩ := hbelow
  induction hlabels generalizing path' with
  | nil => rw [h.path_eq htree h']
  | @cons labels key q r hlabels hedge ih =>
      have hq : IsNode rows nodeSubspace q := h.isNode.trans ⟨labels, hlabels⟩
      rcases h'.eq_nil_or with ⟨-, rfl⟩ | ⟨front, q', name, rfl, hq', -, hchild⟩
      · exact absurd hedge (htree.root _ _ hq)
      · obtain ⟨rfl, -⟩ := htree.rooted.entered hq hq'.isNode hedge (points_of_childOf hchild)
        exact (ih hq').trans (List.prefix_append _ _)

theorem follow_eq (h : Reached rows nodeSubspace path p) :
    follow rows nodeSubspace nodeSubspace path = some (entryOf rows nodeSubspace p) := by
  induction h with
  | root => rfl
  | child _ hplain hchild ih =>
      rw [follow_append, ih, Option.bind_some, follow]
      simp only [entryOf]
      rw [entered_plain hplain, hchild]
      rfl

theorem follow_append (h : Reached rows nodeSubspace path p) (rest : DirectoryPath) :
    follow rows nodeSubspace nodeSubspace (path ++ rest) = follow rows nodeSubspace p rest := by
  rw [Directory.follow_append, h.follow_eq]
  rfl

end Reached

theorem follow_cons_plain (hplain : rows.get? (layerKey nodeSubspace p) ≠ some partitionTag) :
    follow rows nodeSubspace p (name :: rest) =
      (childOf rows nodeSubspace p name).bind fun q => follow rows nodeSubspace q rest := by
  rw [follow, entered_plain hplain]

theorem follow_partition (hpartition : rows.get? (layerKey nodeSubspace p) = some partitionTag)
    (hregular : RegularRows rows (p ++ nodePrefix)) (hrest : rest ≠ []) :
    follow rows nodeSubspace p rest = directories rows (p ++ nodePrefix) rest := by
  cases rest with
  | nil => exact absurd rfl hrest
  | cons name rest =>
      rw [directories, follow_cons_plain hregular.plain_root, follow, entered_partition hpartition]

/-! ## Directories after an edit -/

theorem Agree.follow {head : Bytes} (h : Agree rows next head)
    (hregular : Regular rows nodeSubspace) (hhead : head <+: nodeSubspace)
    (hunder : Under rows nodeSubspace head) (hp : IsNode rows nodeSubspace p) :
    follow next nodeSubspace p path = follow rows nodeSubspace p path := by
  have hlayer (q : Bytes) {subspace : Bytes} (hle : head <+: subspace) :
      next.get? (layerKey subspace q) = rows.get? (layerKey subspace q) :=
    h _ (hle.trans (isMetadata_layerKey _ _).below)
  have hchild (q : Bytes) (name : CodeUnits) {subspace : Bytes} (hle : head <+: subspace) :
      childOf next subspace q name = childOf rows subspace q name := by
    rw [childOf, childOf, h _ (hle.trans (isChildRow_childKey _ _ _).isMetadata.below)]
  induction path generalizing nodeSubspace p with
  | nil => simp only [Directory.follow, entryOf, hlayer p hhead]
  | cons name rest ih =>
      simp only [Directory.follow, entered, hlayer p hhead]
      by_cases hpartition : rows.get? (layerKey nodeSubspace p) = some partitionTag
      · have hroot : p ≠ nodeSubspace := by
          rintro rfl
          exact hregular.regularRows.plain_root hpartition
        obtain ⟨hinner, hunder'⟩ := hregular.partition hp ⟨hroot, hpartition⟩
        have hle := hunder p hp
        have hhead' : head <+: p ++ nodePrefix := hle.trans (List.prefix_append _ _)
        simp only [if_pos hpartition, hchild _ _ hhead']
        refine Option.bind_congr fun q hq => ?_
        exact ih hinner hhead' (fun r hr => hle.trans (hunder' r hr))
          ((Below.refl _).step (points_of_childOf hq))
      · simp only [if_neg hpartition, hchild _ _ hhead]
        refine Option.bind_congr fun q hq => ?_
        exact ih hregular hhead hunder (hp.step (points_of_childOf hq))

theorem Agree.follow_partition (h : Agree rows next p) (hregular : Regular rows nodeSubspace)
    (hp : IsNode rows nodeSubspace p) (hpartition : IsPartition rows nodeSubspace p)
    (hlayer : next.get? (layerKey nodeSubspace p) = rows.get? (layerKey nodeSubspace p)) :
    Directory.follow next nodeSubspace p path = Directory.follow rows nodeSubspace p path := by
  obtain ⟨hinner, hunder⟩ := hregular.partition hp hpartition
  have hle : p <+: p ++ nodePrefix := List.prefix_append _ _
  cases path with
  | nil => simp only [Directory.follow, entryOf, hlayer]
  | cons name rest =>
      simp only [Directory.follow, entered_partition hpartition.layer,
        entered_partition (hlayer.trans hpartition.layer), childOf,
        h _ (hle.trans (isChildRow_childKey _ _ _).isMetadata.below)]
      refine Option.bind_congr fun q hq => ?_
      exact h.follow hinner hle hunder ((Below.refl _).step (points_of_childOf hq))

theorem follow_congr (hregular : Regular rows nodeSubspace)
    (hstart : Reached rows nodeSubspace start p)
    (hlayer : ∀ front q, front <+: rest → Reached rows nodeSubspace (start ++ front) q →
      next.get? (layerKey nodeSubspace q) = rows.get? (layerKey nodeSubspace q))
    (hchild : ∀ front q name, front ++ [name] <+: rest →
      Reached rows nodeSubspace (start ++ front) q → firstRejection [.string name] = none →
      next.get? (childKey nodeSubspace q name) = rows.get? (childKey nodeSubspace q name))
    (hagree : ∀ front q name, front ++ [name] <+: rest →
      Reached rows nodeSubspace (start ++ front) q → IsPartition rows nodeSubspace q →
      Agree rows next q) :
    follow next nodeSubspace p rest = follow rows nodeSubspace p rest := by
  induction rest generalizing start p with
  | nil =>
      simp only [follow, entryOf, hlayer [] p List.prefix_rfl (by simpa using hstart)]
  | cons name rest ih =>
      have hsame := hlayer [] p (by simp) (by simpa using hstart)
      by_cases hpartition : rows.get? (layerKey nodeSubspace p) = some partitionTag
      · have hroot : p ≠ nodeSubspace := by
          rintro rfl
          exact hregular.regularRows.plain_root hpartition
        exact (hagree [] p name (by simp) (by simpa using hstart)
          ⟨hroot, hpartition⟩).follow_partition hregular hstart.isNode ⟨hroot, hpartition⟩ hsame
      · have hsame' : childOf next nodeSubspace p name = childOf rows nodeSubspace p name := by
          rw [childOf, childOf]
          split_ifs with hname
          · exact hchild [] p name (by simp) (by simpa using hstart) hname
          · rfl
        rw [follow_cons_plain hpartition, follow_cons_plain (hsame ▸ hpartition), hsame']
        refine Option.bind_congr fun q hq => ?_
        have hnext := hstart.child hpartition hq
        refine ih hnext (fun front r hle hr => ?_) (fun front r name' hle hr => ?_)
          fun front r name' hle hr => ?_
        · exact hlayer (name :: front) r (by simpa using hle) (by simpa using hr)
        · exact hchild (name :: front) r name' (by simpa using hle) (by simpa using hr)
        · exact hagree (name :: front) r name' (by simpa using hle) (by simpa using hr)

theorem Reached.congr (h : Reached rows nodeSubspace path p)
    (hlayer : ∀ front q, front <+: path → Reached rows nodeSubspace front q →
      next.get? (layerKey nodeSubspace q) = rows.get? (layerKey nodeSubspace q))
    (hchild : ∀ front q name, front ++ [name] <+: path → Reached rows nodeSubspace front q →
      firstRejection [.string name] = none →
      next.get? (childKey nodeSubspace q name) = rows.get? (childKey nodeSubspace q name)) :
    Reached next nodeSubspace path p := by
  induction h with
  | root => exact .root
  | @child path p q name h hplain hget ih =>
      have hle : path <+: path ++ [name] := List.prefix_append _ _
      refine (ih (fun front r hfront => hlayer front r (hfront.trans hle))
        fun front r name' hfront => hchild front r name' (hfront.trans hle)).child ?_ ?_
      · rwa [hlayer path p hle h]
      · obtain ⟨hname, hvalue⟩ := childOf_eq_some.mp hget
        refine childOf_eq_some.mpr ⟨hname, ?_⟩
        rw [hchild path p name List.prefix_rfl h hname, hvalue]

theorem QuietEdit.directories_eq (h : QuietEdit rows next nodeSubspace)
    (hregular : Regular rows nodeSubspace) :
    directories next nodeSubspace = directories rows nodeSubspace := by
  funext path
  refine follow_congr hregular .root (fun _ q _ _ => h.layerKey_eq q) (fun _ q name _ _ _ => ?_)
    fun _ q _ _ hq hpartition => ?_
  · refine h.kept _ (ne_childKey _ _ _ _ _).symm fun hallocator => ?_
    exact (isChildRow_childKey _ _ _).not_tagged _ ((tagged_allocatorRows _).trans hallocator)
  · exact hregular.regularRows.tree.agree_of_kept hq.isNode hpartition.ne_root fun _ => h.outside

theorem Reached.childKey_ne (h : Reached rows nodeSubspace front q)
    (hparent : Reached rows nodeSubspace start parent) (htree : LayerTree rows nodeSubspace)
    {name' : CodeUnits} (hname : firstRejection [.string name] = none)
    (hname' : firstRejection [.string name'] = none) (hne : front ++ [name] ≠ start ++ [name']) :
    childKey nodeSubspace q name ≠ childKey nodeSubspace parent name' := by
  intro heq
  obtain ⟨rfl, rfl⟩ := childKey_inj hname hname' heq
  exact hne (by rw [h.path_eq htree hparent])

/-! ## New directories -/

namespace Addable

variable {nodeLayer : Bytes}

theorem get?_childKey (h : Addable rows nodeSubspace parent name p)
    (htree : LayerTree rows nodeSubspace) (hparent : Reached rows nodeSubspace front parent)
    {front' : DirectoryPath} {name' : CodeUnits} (hq : Reached rows nodeSubspace front' q)
    (hname' : firstRejection [.string name'] = none) (hne : front' ++ [name'] ≠ front ++ [name]) :
    (added rows nodeSubspace parent name p nodeLayer).get? (childKey nodeSubspace q name') =
      rows.get? (childKey nodeSubspace q name') := by
  rw [get?_added, if_neg (childKey_ne_layerKey _ _ _ _),
    if_neg (hq.childKey_ne hparent htree hname' h.accepted hne)]

theorem get?_layerKey (h : Addable rows nodeSubspace parent name p)
    (hq : Reached rows nodeSubspace front q) :
    (added rows nodeSubspace parent name p nodeLayer).get? (layerKey nodeSubspace q) =
      rows.get? (layerKey nodeSubspace q) :=
  layerKey_eq fun heq => h.not_isNode (heq ▸ hq.isNode)

theorem reached (h : Addable rows nodeSubspace parent name p)
    (htree : LayerTree rows nodeSubspace) (hparent : Reached rows nodeSubspace front parent)
    (hplain : rows.get? (layerKey nodeSubspace parent) ≠ some partitionTag) :
    Reached (added rows nodeSubspace parent name p nodeLayer) nodeSubspace (front ++ [name]) p := by
  refine (hparent.congr (fun front' q _ hq => h.get?_layerKey hq)
    fun front' q name' hle hq hname' => ?_).child ?_ ?_
  · refine h.get?_childKey htree hparent hq hname' fun heq => ?_
    have hlength := (heq ▸ hle).length_le
    simp at hlength
  · rwa [h.get?_layerKey hparent]
  · rw [childOf_eq_some, get?_added, if_neg (childKey_ne_layerKey _ _ _ _), if_pos rfl]
    exact ⟨h.accepted, rfl⟩

theorem follow_new (h : Addable rows nodeSubspace parent name p)
    (hregular : RegularRows rows nodeSubspace)
    (hempty : nodeLayer = partitionTag → ∀ key, p ++ nodePrefix <+: key → rows.get? key = none) :
    follow (added rows nodeSubspace parent name p nodeLayer) nodeSubspace p rest =
      if rest = [] then some ⟨nodeSubspace, p, nodeLayer⟩ else none := by
  have hlayer : (added rows nodeSubspace parent name p nodeLayer).get? (layerKey nodeSubspace p) =
      some nodeLayer := by
    rw [get?_added, if_pos rfl]
  have hnone (subspace q : Bytes) (name' : CodeUnits)
      (hget : (added rows nodeSubspace parent name p nodeLayer).get? (childKey subspace q name') =
        none) : childOf (added rows nodeSubspace parent name p nodeLayer) subspace q name' = none := by
    rw [childOf, hget, ite_self]
  cases rest with
  | nil => simp [follow, entryOf, hlayer]
  | cons name' rest =>
      rw [if_neg (List.cons_ne_nil _ _), follow]
      by_cases hpartition : nodeLayer = partitionTag
      · rw [entered_partition (hlayer.trans (congrArg some hpartition)), hnone]
        · rfl
        · have hinner : p ++ nodePrefix <+: childKey (p ++ nodePrefix) (p ++ nodePrefix) name' :=
            (isChildRow_childKey _ _ _).isMetadata.below
          have hhead := (List.prefix_append p nodePrefix).trans hinner
          rw [outside _, hempty hpartition _ hinner]
          intro hbelow
          rcases List.prefix_or_prefix_of_prefix hhead hbelow with hle | hle
          · exact (h.apart _ (.refl _)).2 hle
          · exact (h.apart _ (.refl _)).1 hle
      · rw [entered_plain (fun heq => hpartition (Option.some.inj (hlayer.symm.trans heq))), hnone]
        · rfl
        · rw [get?_added, if_neg (childKey_ne_layerKey _ _ _ _), if_neg,
            h.get?_eq_none hregular (isChildRow_childKey _ _ _).isMetadata]
          intro heq
          refine h.not_isNode ?_
          rw [(isChildRow_childKey nodeSubspace p name').isMetadata.inj
            (heq ▸ (isChildRow_childKey nodeSubspace parent name).isMetadata)]
          exact h.isNode

theorem directories_eq (h : Addable rows nodeSubspace parent name p)
    (hregular : Regular rows nodeSubspace) (hparent : Reached rows nodeSubspace front parent)
    (hplain : rows.get? (layerKey nodeSubspace parent) ≠ some partitionTag)
    (hempty : nodeLayer = partitionTag → ∀ key, p ++ nodePrefix <+: key → rows.get? key = none) :
    directories (added rows nodeSubspace parent name p nodeLayer) nodeSubspace =
      (directories rows nodeSubspace).grown (front ++ [name])
        fun _ => ⟨nodeSubspace, p, nodeLayer⟩ := by
  have htree := hregular.regularRows.tree
  funext path
  by_cases hle : front ++ [name] <+: path
  · obtain ⟨rest, rfl⟩ := hle
    have hbefore : directories rows nodeSubspace (front ++ [name] ++ rest) = none := by
      rw [List.append_assoc, directories, hparent.follow_append, List.singleton_append,
        follow_cons_plain hplain, childOf, h.free, ite_self]
      rfl
    rw [PathTree.grown, hbefore, directories, (h.reached htree hparent hplain).follow_append,
      h.follow_new hregular.regularRows hempty]
    by_cases hrest : rest = []
    · simp [hrest]
    · simp [hrest]
  · rw [PathTree.grown, if_neg]
    · refine follow_congr hregular .root (fun front' q _ hq => h.get?_layerKey hq)
        (fun front' q name' hle' hq hname' => ?_) fun front' q _ _ hq hpartition => ?_
      · exact h.get?_childKey htree hparent hq hname' fun heq => hle (heq ▸ hle')
      · exact htree.agree_of_kept hq.isNode hpartition.ne_root outside
    · rintro ⟨hle', hnone⟩
      rcases List.prefix_concat_iff.mp hle' with rfl | hfront
      · exact hle List.prefix_rfl
      · refine follow_ne_none ?_ hfront hnone
        rw [hparent.follow_eq]
        exact Option.some_ne_none _

end Addable

/-! ## Removed directories -/

theorem Detaches.directories_eq (h : Detaches rows nodeSubspace parent name p next)
    (hregular : Regular rows nodeSubspace) (hparent : Reached rows nodeSubspace front parent)
    (hplain : rows.get? (layerKey nodeSubspace parent) ≠ some partitionTag)
    (hname : firstRejection [.string name] = none) :
    directories next nodeSubspace = (directories rows nodeSubspace).without (front ++ [name]) := by
  have htree := hregular.regularRows.tree
  have hchild : Reached rows nodeSubspace (front ++ [name]) p :=
    hparent.child hplain (childOf_eq_some.mpr ⟨hname, h.points⟩)
  have hoff {front' : DirectoryPath} {q : Bytes} (hq : Reached rows nodeSubspace front' q)
      (hnot : ¬ front ++ [name] <+: front') : ¬ Below (Points rows nodeSubspace) p q :=
    fun hbelow => hnot (hchild.prefix_of_below htree (h.ne_root htree) hbelow hq)
  have hkept {front' : DirectoryPath} {q : Bytes} {name' : CodeUnits}
      (hq : Reached rows nodeSubspace front' q) (hname' : firstRejection [.string name'] = none)
      (hnot : ¬ front ++ [name] <+: front' ++ [name']) :
      next.get? (childKey nodeSubspace q name') = rows.get? (childKey nodeSubspace q name') := by
    refine h.get?_eq htree (isChildRow_childKey _ _ _).isMetadata (hoff hq fun hle => ?_) ?_
    · exact hnot (hle.trans (List.prefix_append _ _))
    · exact hq.childKey_ne hparent htree hname' hname fun heq => hnot (heq ▸ List.prefix_rfl)
  funext path
  by_cases hle : front ++ [name] <+: path
  · rw [PathTree.without, if_pos hle]
    obtain ⟨rest, rfl⟩ := hle
    have hnot {front' : DirectoryPath} (hfront : front' <+: front) : ¬ front ++ [name] <+: front' := by
      intro hle
      have hlength := (hle.trans hfront).length_le
      simp at hlength
    have hnext : Reached next nodeSubspace front parent :=
      hparent.congr (fun front' q hfront hq => h.layerKey_eq htree (hoff hq (hnot hfront)))
        fun front' q name' hfront hq hname' => hkept hq hname' (hnot hfront)
    rw [List.append_assoc, directories, hnext.follow_append, List.singleton_append,
      follow_cons_plain, childOf, h.without.get?_eq_none (fun _ => .inr rfl), ite_self]
    · rfl
    · rwa [h.layerKey_eq htree (hoff hparent (hnot List.prefix_rfl))]
  · rw [PathTree.without, if_neg hle]
    refine follow_congr hregular .root (fun front' q hfront hq => ?_)
      (fun front' q name' hfront hq hname' => ?_) fun front' q name' hfront hq hpartition => ?_
    · exact h.layerKey_eq htree (hoff hq fun hle' => hle (hle'.trans hfront))
    · exact hkept hq hname' fun hle' => hle (hle'.trans hfront)
    · exact h.agree htree hq.isNode hpartition.ne_root
        (hoff hq fun hle' => hle (hle'.trans ((List.prefix_append _ _).trans hfront)))

/-! ## Moved directories -/

section

variable {newParent : Bytes} {newName : CodeUnits} {newFront : DirectoryPath}

theorem Movable.get?_childKey (h : Movable rows nodeSubspace parent name newParent newName p)
    (htree : LayerTree rows nodeSubspace) (hparent : Reached rows nodeSubspace front parent)
    (hname : firstRejection [.string name] = none)
    (hparent' : Reached rows nodeSubspace newFront newParent) {front' : DirectoryPath}
    {name' : CodeUnits} (hq : Reached rows nodeSubspace front' q)
    (hname' : firstRejection [.string name'] = none)
    (hne : front' ++ [name'] ≠ front ++ [name]) (hne' : front' ++ [name'] ≠ newFront ++ [newName]) :
    (moved rows nodeSubspace parent name newParent newName p).get? (childKey nodeSubspace q name') =
      rows.get? (childKey nodeSubspace q name') :=
  Movable.get?_eq (hq.childKey_ne hparent htree hname' hname hne)
    (hq.childKey_ne hparent' htree hname' h.accepted hne')

theorem Movable.reached (h : Movable rows nodeSubspace parent name newParent newName p)
    (htree : LayerTree rows nodeSubspace) (hparent : Reached rows nodeSubspace front parent)
    (hname : firstRejection [.string name] = none)
    (hparent' : Reached rows nodeSubspace newFront newParent)
    (hplain' : rows.get? (layerKey nodeSubspace newParent) ≠ some partitionTag)
    (hapart : ¬ front ++ [name] <+: newFront) :
    Reached (moved rows nodeSubspace parent name newParent newName p) nodeSubspace
      (newFront ++ [newName]) p := by
  refine (hparent'.congr (fun front' q _ _ => Movable.layerKey_eq q) fun front' q name' hle hq hname' =>
    h.get?_childKey htree hparent hname hparent' hq hname' ?_ ?_).child ?_ ?_
  · exact fun heq => hapart (heq ▸ hle)
  · intro heq
    have hlength := (heq ▸ hle).length_le
    simp at hlength
  · rwa [Movable.layerKey_eq]
  · rw [childOf_eq_some, Movable.get?_moved, if_neg h.childKey_ne, if_pos rfl]
    exact ⟨h.accepted, rfl⟩

theorem Movable.directories_eq
    (h : Movable rows nodeSubspace parent name newParent newName p)
    (hregular : Regular rows nodeSubspace) (hparent : Reached rows nodeSubspace front parent)
    (hplain : rows.get? (layerKey nodeSubspace parent) ≠ some partitionTag)
    (hname : firstRejection [.string name] = none)
    (hparent' : Reached rows nodeSubspace newFront newParent)
    (hplain' : rows.get? (layerKey nodeSubspace newParent) ≠ some partitionTag)
    (hapart : ¬ front ++ [name] <+: newFront) :
    directories (moved rows nodeSubspace parent name newParent newName p) nodeSubspace =
      (directories rows nodeSubspace).relocated (front ++ [name]) (newFront ++ [newName]) := by
  have htree := hregular.regularRows.tree
  have hchild : Reached rows nodeSubspace (front ++ [name]) p :=
    hparent.child hplain (childOf_eq_some.mpr ⟨hname, h.points⟩)
  have hagree {front' : DirectoryPath} {q : Bytes} (hq : Reached rows nodeSubspace front' q)
      (hpartition : IsPartition rows nodeSubspace q) :
      Agree rows (moved rows nodeSubspace parent name newParent newName p) q :=
    htree.agree_of_kept hq.isNode hpartition.ne_root kept
  funext path
  by_cases hnew : newFront ++ [newName] <+: path
  · obtain ⟨rest, rfl⟩ := hnew
    have hnext := h.reached htree hparent hname hparent' hplain' hapart
    rw [PathTree.relocated_append, directories, directories, hnext.follow_append,
      hchild.follow_append]
    refine follow_congr hregular hchild (fun front' q _ _ => layerKey_eq q)
      (fun front' q name' _ hq hname' => h.get?_childKey htree hparent hname hparent' hq hname' ?_ ?_)
      fun front' q _ _ hq hpartition => hagree hq hpartition
    · intro heq
      have hlength := congrArg List.length heq
      simp at hlength
    · intro heq
      have hfront : front ++ [name] ++ front' = newFront := List.append_inj_left' heq rfl
      exact hapart (hfront ▸ List.prefix_append _ _)
  · by_cases hold : front ++ [name] <+: path
    · rw [PathTree.relocated, if_neg hnew, if_pos hold]
      obtain ⟨rest, rfl⟩ := hold
      have hnext : Reached (moved rows nodeSubspace parent name newParent newName p) nodeSubspace
          front parent := by
        refine hparent.congr (fun front' q _ _ => layerKey_eq q)
          fun front' q name' hle hq hname' => h.get?_childKey htree hparent hname hparent' hq hname' ?_ ?_
        · intro heq
          have hlength := (heq ▸ hle).length_le
          simp at hlength
        · intro heq
          exact hnew ((heq ▸ hle).trans (by simp))
      rw [List.append_assoc, directories, hnext.follow_append, List.singleton_append,
        follow_cons_plain, childOf, get?_moved, if_pos rfl, ite_self]
      · rfl
      · rwa [layerKey_eq]
    · rw [PathTree.relocated, if_neg hnew, if_neg hold]
      refine follow_congr hregular .root (fun front' q _ _ => layerKey_eq q)
        (fun front' q name' hle hq hname' => h.get?_childKey htree hparent hname hparent' hq hname' ?_ ?_)
        fun front' q _ _ hq hpartition => hagree hq hpartition
      · exact fun heq => hold (heq ▸ hle)
      · exact fun heq => hnew (heq ▸ hle)

end

/-! ## Changes inside a partition -/

/-- The directories of a layer are grafted with those of the layer inside a partition. -/
theorem ChangedInside.graft (h : ChangedInside rows next p) (hregular : Regular rows nodeSubspace)
    (hchild : Reached rows nodeSubspace path p) (hpartition : IsPartition rows nodeSubspace p) :
    PathTree.Graft (directories rows nodeSubspace) (directories next nodeSubspace) path
      (directories rows (p ++ nodePrefix)) (directories next (p ++ nodePrefix)) := by
  have htree := hregular.regularRows.tree
  have hinner := (hregular.partition hchild.isNode hpartition).1
  obtain ⟨hnext, hagree⟩ := h.lift hregular hchild.isNode hpartition
  have hpartition' := hagree.partition hpartition
  have hlayer {q : Bytes} :
      next.get? (layerKey nodeSubspace q) = rows.get? (layerKey nodeSubspace q) :=
    hagree _ (isMetadata_layerKey _ _).below
  have hkey {q : Bytes} {name : CodeUnits} :
      next.get? (childKey nodeSubspace q name) = rows.get? (childKey nodeSubspace q name) :=
    hagree _ (isChildRow_childKey _ _ _).isMetadata.below
  have hchild' : Reached next nodeSubspace path p :=
    hchild.congr (fun _ _ _ _ => hlayer) fun _ _ _ _ _ _ => hkey
  constructor
  case before =>
    intro rest hrest
    rw [directories, hchild.follow_append, follow_partition hpartition.layer hinner.regularRows hrest]
  case after =>
    intro rest hrest
    rw [directories, hchild'.follow_append,
      follow_partition hpartition'.layer h.regular.regularRows hrest]
  case kept =>
    intro other hother
    refine follow_congr hregular .root (fun _ _ _ _ => hlayer) (fun _ _ _ _ _ _ => hkey)
      fun front' q name' hle hq hpartition' => ?_
    refine h.agree hregular hchild.isNode hq.isNode ?_
    -- The way to the partition would end below its path.
    rintro rfl
    obtain ⟨rest, rfl⟩ := hle
    refine hother ([name'] ++ rest) (by simp) ?_
    rw [hchild.path_eq htree hq, List.append_assoc, List.nil_append]

end

end FoundationDbEffect.Directory
