import FoundationDbEffect.Directory.EngineSteps

/-!
# Operations on directories

What the operations of a layer do to the directories of its database: a creation lets the tree
grow by the missing directories of its path, a removal takes one with all that lies below it, and
a move gives it another path.  An operation that meets a partition is one of the layer inside,
and what it does there is grafted on the tree around.
-/

namespace FoundationDbEffect.Directory

open FoundationDbEffect.Foundation FoundationDbEffect.TupleLayer
open FoundationDbEffect.Foundation.ByteOrder

/-! ## Outputs -/

def DirectoryOutput.entry : DirectoryOutput → Entry
  | .subspace directoryLayer _ prefixBytes layer =>
    ⟨directoryLayer.nodeSubspace, prefixBytes, layer⟩
  | .partition parentLayer _ directoryLayer =>
    ⟨parentLayer.nodeSubspace, directoryLayer.contentSubspace, partitionTag⟩

def outputOf (layer : DirectoryLayerState) (p : Bytes) (path : DirectoryPath) (nodeLayer : Bytes) :
    DirectoryOutput :=
  if nodeLayer = partitionTag then .partition layer path (nestedLayer p (layer.path ++ path))
  else .subspace layer path p nodeLayer

section

variable (layer : DirectoryLayerState) (p : Bytes) (path : DirectoryPath) (nodeLayer : Bytes)

theorem entry_outputOf :
    (outputOf layer p path nodeLayer).entry = ⟨layer.nodeSubspace, p, nodeLayer⟩ := by
  rw [outputOf]
  split_ifs with h
  · rw [h]
    rfl
  · rfl

theorem contentsOfNode_eq : contentsOfNode layer (nodeKey layer.nodeSubspace p) path nodeLayer =
    .ok (outputOf layer p path nodeLayer) := by
  rw [contentsOfNode, nodeKey, unpacked_eq layer.nodeSubspace rfl, outputOf]
  split_ifs with hpartition <;> simp [bind, Except.bind, asBytes]

end

/-! ## Partitions and handles -/

/-- The layers of a database: the one at hand, and those of the partitions in them. -/
inductive Stands (rows : Rows) (layer : DirectoryLayerState) :
    DirectoryPath → DirectoryLayerState → Prop where
  | self : Stands rows layer [] layer
  | nested {inner : DirectoryLayerState} {front rest : DirectoryPath} {p : Bytes}
      (h : Stands rows layer front inner) (hp : Reached rows inner.nodeSubspace rest p)
      (hpartition : IsPartition rows inner.nodeSubspace p) :
      Stands rows layer (front ++ rest) (nestedLayer p (inner.path ++ rest))

/-- The handles of a path: they hold a layer that stands for a part of it. -/
inductive Handles (rows : Rows) (layer : DirectoryLayerState) :
    DirectoryPath → DirectoryOutput → Prop where
  | subspace {inner : DirectoryLayerState} {front rest : DirectoryPath} {p nodeLayer : Bytes}
      (h : Stands rows layer front inner) (hrest : rest ≠ []) :
      Handles rows layer (front ++ rest) (.subspace inner rest p nodeLayer)
  | partition {inner : DirectoryLayerState} {front rest : DirectoryPath} {p : Bytes}
      (h : Stands rows layer front inner) (hp : Reached rows inner.nodeSubspace rest p)
      (hpartition : IsPartition rows inner.nodeSubspace p) :
      Handles rows layer (front ++ rest)
        (.partition inner rest (nestedLayer p (inner.path ++ rest)))

theorem Reached.stands {rows : Rows} {layer : DirectoryLayerState} {path : DirectoryPath} {p : Bytes}
    (hp : Reached rows layer.nodeSubspace path p)
    (hpartition : IsPartition rows layer.nodeSubspace p) :
    Stands rows layer path (nestedLayer p (layer.path ++ path)) := by
  have h : Stands rows layer ([] ++ path) (nestedLayer p (layer.path ++ path)) :=
    .nested .self hp hpartition
  exact h

theorem Reached.handles {rows : Rows} {layer : DirectoryLayerState} {path : DirectoryPath}
    {p : Bytes} (hp : Reached rows layer.nodeSubspace path p)
    (hpartition : IsPartition rows layer.nodeSubspace p) :
    Handles rows layer path (.partition layer path (nestedLayer p (layer.path ++ path))) := by
  have h : Handles rows layer ([] ++ path)
      (.partition layer path (nestedLayer p (layer.path ++ path))) := .partition .self hp hpartition
  exact h

theorem Stands.lift {rows : Rows} {layer inner : DirectoryLayerState} {front rest : DirectoryPath}
    {p : Bytes} (h : Stands rows (nestedLayer p (layer.path ++ front)) rest inner)
    (hp : Reached rows layer.nodeSubspace front p)
    (hpartition : IsPartition rows layer.nodeSubspace p) :
    Stands rows layer (front ++ rest) inner := by
  induction h with
  | self =>
      rw [List.append_nil]
      exact hp.stands hpartition
  | nested _ hq hpartition' ih =>
      rw [← List.append_assoc]
      exact ih.nested hq hpartition'

theorem Handles.lift {rows : Rows} {layer : DirectoryLayerState} {front rest : DirectoryPath}
    {p : Bytes} {output : DirectoryOutput}
    (h : Handles rows (nestedLayer p (layer.path ++ front)) rest output)
    (hp : Reached rows layer.nodeSubspace front p)
    (hpartition : IsPartition rows layer.nodeSubspace p) :
    Handles rows layer (front ++ rest) output := by
  cases h with
  | subspace h hrest =>
      rw [← List.append_assoc]
      exact .subspace (h.lift hp hpartition) hrest
  | partition h hq hpartition' =>
      rw [← List.append_assoc]
      exact .partition (h.lift hp hpartition) hq hpartition'

theorem Stands.path_eq {rows : Rows} {layer inner : DirectoryLayerState} {front : DirectoryPath}
    (h : Stands rows layer front inner) : inner.path = layer.path ++ front := by
  induction h with
  | self => rw [List.append_nil]
  | nested _ _ _ ih => rw [nestedLayer, ih, List.append_assoc]

theorem handles_outputOf {rows : Rows} {layer : DirectoryLayerState} {path : DirectoryPath}
    {p : Bytes} (hp : Reached rows layer.nodeSubspace path p) (hroot : p ≠ layer.nodeSubspace) :
    Handles rows layer path
      (outputOf layer p path ((rows.get? (layerKey layer.nodeSubspace p)).getD [])) := by
  rw [outputOf]
  split_ifs with hpartition
  · exact hp.handles ⟨hroot, getD_eq_partitionTag.mp hpartition⟩
  · have hpath : path ≠ [] := by
      rintro rfl
      exact hroot (hp.node_eq .root)
    have h : Handles rows layer ([] ++ path) (.subspace layer path p
        ((rows.get? (layerKey layer.nodeSubspace p)).getD [])) := .subspace .self hpath
    exact h

/-! ## Layers and what operations keep -/

/-- A layer keeps its rows and places its directories under a prefix. One that takes prefixes
from its callers may place them anywhere. -/
structure Within (layer : DirectoryLayerState) (head : Bytes) : Prop where
  nodes : head <+: layer.nodeSubspace
  contents : head <+: layer.contentSubspace
  manual : layer.allowManualPrefixes = true → head = []

structure LayerInv (rows : Rows) (layer : DirectoryLayerState) (head : Bytes) : Prop where
  regular : Regular rows layer.nodeSubspace
  under : Under rows layer.nodeSubspace head
  owned : layer.allowManualPrefixes = true → Owned rows layer.nodeSubspace

/-- An operation of a layer under a prefix changes rows under it only. -/
structure Evolves (rows next : Rows) (layer : DirectoryLayerState) (head : Bytes) : Prop where
  inv : LayerInv next layer head
  kept : ∀ key, ¬ head <+: key → next.get? key = rows.get? key

/-- Only rows of layers change: those that belong to the layer or to one inside it. -/
def MetadataOnly (rows next : Rows) (nodeSubspace : Bytes) : Prop :=
  ∀ key, (∀ path entry, directories rows nodeSubspace path = some entry → ¬ entry.inner <+: key) →
    next.get? key = rows.get? key

section

variable {rows next later : Rows} {layer : DirectoryLayerState} {head p q key parent : Bytes}
  {name : CodeUnits} {path front rest : DirectoryPath}

theorem Within.nested (p : Bytes) (path : DirectoryPath) :
    Within (nestedLayer p path) p where
  nodes := List.prefix_append _ _
  contents := List.prefix_rfl
  manual h := by cases h

theorem LayerInv.nested (h : LayerInv rows layer head) (hp : IsNode rows layer.nodeSubspace p)
    (hpartition : IsPartition rows layer.nodeSubspace p) (path : DirectoryPath) :
    LayerInv rows (nestedLayer p path) p where
  regular := (h.regular.partition hp hpartition).1
  under := (h.regular.partition hp hpartition).2
  owned hmanual := by cases hmanual

theorem Evolves.refl (h : LayerInv rows layer head) : Evolves rows rows layer head :=
  ⟨h, fun _ _ => rfl⟩

theorem Evolves.trans (h : Evolves rows next layer head) (h' : Evolves next later layer head) :
    Evolves rows later layer head :=
  ⟨h'.inv, fun key hkey => (h'.kept key hkey).trans (h.kept key hkey)⟩

theorem LayerInv.evolves (h : LayerInv rows layer head) (hwithin : Within layer head)
    (hregular : Regular next layer.nodeSubspace) (hunder : Under next layer.nodeSubspace head)
    (hnodes : ∀ q, IsNode rows layer.nodeSubspace q → IsNode next layer.nodeSubspace q)
    (hkept : ∀ key, ¬ layer.nodeSubspace <+: key → next.get? key = rows.get? key) :
    Evolves rows next layer head where
  inv := ⟨hregular, hunder, fun hmanual => (h.owned hmanual).of_nodes hnodes hkept⟩
  kept key hkey := hkept key fun hbelow => hkey (hwithin.nodes.trans hbelow)

theorem QuietEdit.evolves (h : QuietEdit rows next layer.nodeSubspace)
    (hinv : LayerInv rows layer head) (hwithin : Within layer head) :
    Evolves rows next layer head :=
  hinv.evolves hwithin (h.regular hinv.regular) (fun _ hr => hinv.under _ (h.isNode_iff.mp hr))
    (fun _ => h.isNode_iff.mpr) fun _ => h.outside

/-- What happens inside a partition happens in the layer around it. -/
theorem Evolves.lift {path : DirectoryPath} (h : Evolves rows next (nestedLayer p path) p)
    (hinv : LayerInv rows layer head) (hp : IsNode rows layer.nodeSubspace p)
    (hpartition : IsPartition rows layer.nodeSubspace p) : Evolves rows next layer head := by
  have hinside : ChangedInside rows next p := ⟨h.inv.regular, h.inv.under, h.kept⟩
  obtain ⟨hregular, hagree⟩ := hinside.lift hinv.regular hp hpartition
  refine ⟨⟨hregular, fun r hr => hinv.under r (hagree.symm.below hr), fun hmanual q key hq hkey => ?_⟩,
    fun key hkey => h.kept key fun hhead => hkey ((hinv.under p hp).trans hhead)⟩
  by_cases hhead : p <+: key
  · exact .inr ⟨p, hagree.below hp, hpartition.ne_root, hhead⟩
  · rw [h.kept key hhead] at hkey
    exact (hinv.owned hmanual q key hq hkey).imp_right
      fun ⟨q, hq, hroot, hle⟩ => ⟨q, hagree.below hq, hroot, hle⟩

theorem Evolves.agree_outer {path : DirectoryPath} (h : Evolves rows next (nestedLayer p path) p)
    (hinv : LayerInv rows layer head) (hp : IsNode rows layer.nodeSubspace p)
    (hpartition : IsPartition rows layer.nodeSubspace p) : Agree rows next layer.nodeSubspace :=
  (ChangedInside.lift ⟨h.inv.regular, h.inv.under, h.kept⟩ hinv.regular hp hpartition).2

theorem Evolves.graft (h : Evolves rows next (nestedLayer p (layer.path ++ front)) p)
    (hinv : LayerInv rows layer head) (hp : Reached rows layer.nodeSubspace front p)
    (hpartition : IsPartition rows layer.nodeSubspace p) :
    PathTree.Graft (directories rows layer.nodeSubspace) (directories next layer.nodeSubspace) front
      (directories rows (p ++ nodePrefix)) (directories next (p ++ nodePrefix)) :=
  ChangedInside.graft ⟨h.inv.regular, h.inv.under, h.kept⟩ hinv.regular hp hpartition

theorem RegularRows.not_below (h : RegularRows rows layer.nodeSubspace)
    (hkey : ∀ path entry, directories rows layer.nodeSubspace path = some entry →
      ¬ entry.inner <+: key) : ¬ layer.nodeSubspace <+: key := by
  have hroot := hkey [] _ rfl
  rwa [entryOf_inner_plain h.plain_root] at hroot

theorem MetadataOnly.of_kept (h : RegularRows rows layer.nodeSubspace)
    (hkept : ∀ key, ¬ layer.nodeSubspace <+: key → next.get? key = rows.get? key) :
    MetadataOnly rows next layer.nodeSubspace :=
  fun key hkey => hkept key (h.not_below hkey)

theorem MetadataOnly.trans_kept (h : MetadataOnly rows next layer.nodeSubspace)
    (hregular : RegularRows rows layer.nodeSubspace)
    (hkept : ∀ key, ¬ layer.nodeSubspace <+: key → later.get? key = next.get? key) :
    MetadataOnly rows later layer.nodeSubspace :=
  fun key hkey => (hkept key (hregular.not_below hkey)).trans (h key hkey)

theorem MetadataOnly.after (h : MetadataOnly next later layer.nodeSubspace)
    (hquiet : QuietEdit rows next layer.nodeSubspace) (hregular : Regular rows layer.nodeSubspace) :
    MetadataOnly rows later layer.nodeSubspace := by
  rw [MetadataOnly, hquiet.directories_eq hregular] at h
  exact fun key hkey =>
    (h key hkey).trans (hquiet.outside (hregular.regularRows.not_below hkey))

theorem MetadataOnly.lift (h : MetadataOnly rows next (p ++ nodePrefix))
    (hregular : Regular rows layer.nodeSubspace) (hp : Reached rows layer.nodeSubspace front p)
    (hpartition : IsPartition rows layer.nodeSubspace p) :
    MetadataOnly rows next layer.nodeSubspace := by
  refine fun key hkey => h key fun rest entry hentry => ?_
  by_cases hrest : rest = []
  · subst hrest
    obtain rfl := Option.some.inj hentry
    have hroot := (hregular.partition hp.isNode hpartition).1.regularRows.plain_root
    have hinner := hkey front _ hp.follow_eq
    rw [entryOf_inner_partition hpartition.layer] at hinner
    rwa [entryOf_inner_plain hroot]
  · exact hkey (front ++ rest) entry
      ((directories_partition hregular hp hpartition hrest).trans hentry)

theorem Reached.ne_root {nodeSubspace : Bytes} (h : Reached rows nodeSubspace path p)
    (htree : LayerTree rows nodeSubspace) (hpath : path ≠ []) : p ≠ nodeSubspace := by
  rintro rfl
  exact hpath (h.path_eq htree .root)

theorem Reached.of_agree {nodeSubspace : Bytes} (h : Reached rows nodeSubspace path p)
    (hagree : Agree rows next nodeSubspace) : Reached next nodeSubspace path p :=
  h.congr (fun _ _ _ _ => hagree _ (isMetadata_layerKey _ _).below)
    fun _ _ _ _ _ _ => hagree _ (isChildRow_childKey _ _ _).isMetadata.below

theorem QuietEdit.reached (h : QuietEdit rows next layer.nodeSubspace)
    (hp : Reached rows layer.nodeSubspace path p) : Reached next layer.nodeSubspace path p := by
  refine hp.congr (fun _ q _ _ => h.layerKey_eq q) fun _ q name _ _ _ => ?_
  refine h.kept _ (ne_childKey _ _ _ _ _).symm fun hallocator => ?_
  exact (isChildRow_childKey _ _ _).not_tagged _ ((tagged_allocatorRows _).trans hallocator)

/-! ## Creating -/

/-- New directories at a path and at those above it that had none. -/
structure Creates (rows next : Rows) (nodeSubspace : Bytes) (path : DirectoryPath)
    (nodeLayer : Bytes) (fresh : DirectoryPath → Entry) : Prop where
  missing : directories rows nodeSubspace path = none
  grown : directories next nodeSubspace = (directories rows nodeSubspace).grown path fresh
  layers : ∀ other, other <+: path →
    (fresh other).layer = if other = path then nodeLayer else []

/-- A call of `create`, `createOrOpen` or `open` that succeeds opens the directory at its path or
creates it. -/
structure CreatesOrOpens (rows next : Rows) (layer : DirectoryLayerState) (head : Bytes)
    (path : DirectoryPath) (prefixBytes expectedLayer : Option Bytes)
    (allowCreate allowOpen : Bool) (output : DirectoryOutput) : Prop where
  evolves : Evolves rows next layer head
  metadata : MetadataOnly rows next layer.nodeSubspace
  nonempty : path ≠ []
  handle : Handles next layer path output
  outcome :
    (next = rows ∧ directories rows layer.nodeSubspace path = some output.entry ∧
      (allowCreate = true → allowOpen = true) ∧
      (∀ expected, expectedLayer = some expected → expected ≠ [] →
        output.entry.layer = expected)) ∨
    (∃ fresh, Creates rows next layer.nodeSubspace path (expectedLayer.getD []) fresh ∧
      output.entry = fresh path ∧ allowCreate = true ∧
      ∀ p, prefixBytes = some p → output.entry.prefixBytes = p)

theorem reached_of_directories {nodeSubspace : Bytes} {entry : Entry}
    (hregular : Regular rows nodeSubspace) (h : directories rows nodeSubspace path = some entry)
    (hplain : ∀ other entry', other <+: path → other ≠ path →
      directories rows nodeSubspace other = some entry' → entry'.layer ≠ partitionTag) :
    ∃ p, Reached rows nodeSubspace path p ∧ entry = entryOf rows nodeSubspace p := by
  rcases directories_cases hregular h with hp | ⟨front, rest, p, rfl, hrest, hp, hpartition, -⟩
  · exact hp
  · refine absurd (getD_eq_partitionTag.mpr hpartition.layer) ?_
    exact hplain front _ (List.prefix_append _ _) (by simpa using hrest.symm) hp.follow_eq

theorem Reached.above {nodeSubspace : Bytes} (h : Reached rows nodeSubspace path p)
    {other : DirectoryPath} (hle : other <+: path) :
    ∃ q, Reached rows nodeSubspace other q ∧
      (other ≠ path → rows.get? (layerKey nodeSubspace q) ≠ some partitionTag) := by
  induction h with
  | root =>
      obtain rfl := List.prefix_nil.mp hle
      exact ⟨nodeSubspace, .root, fun hne => absurd rfl hne⟩
  | @child path p q name h hplain hchild ih =>
      rcases List.prefix_concat_iff.mp hle with rfl | hle
      · exact ⟨q, h.child hplain hchild, fun hne => absurd rfl hne⟩
      · obtain ⟨r, hr, hrest⟩ := ih hle
        refine ⟨r, hr, fun _ => ?_⟩
        by_cases heq : other = path
        · subst heq
          rwa [hr.node_eq h]
        · exact hrest heq

theorem QuietEdit.ends (h : QuietEdit rows next layer.nodeSubspace)
    (hends : Ends rows layer.nodeSubspace path none) : Ends next layer.nodeSubspace path none := by
  cases hends with
  | missing hsplit hq hplain hname hget =>
      refine .missing hsplit (h.reached hq) (by rwa [h.layerKey_eq]) hname ?_
      rw [h.kept _ (ne_childKey _ _ _ _ _).symm fun hallocator => ?_, hget]
      exact (isChildRow_childKey _ _ _).not_tagged _ ((tagged_allocatorRows _).trans hallocator)

structure ParentNode (rows next : Rows) (layer : DirectoryLayerState) (head : Bytes)
    (path : DirectoryPath) (parent : Bytes) (fresh : DirectoryPath → Entry) : Prop where
  evolves : Evolves rows next layer head
  metadata : MetadataOnly rows next layer.nodeSubspace
  reached : Reached next layer.nodeSubspace path parent
  plain : next.get? (layerKey layer.nodeSubspace parent) ≠ some partitionTag
  version : (next.get? (versionKey layer.nodeSubspace)).isSome
  grown : directories next layer.nodeSubspace =
    (directories rows layer.nodeSubspace).grown path fresh
  layers : ∀ other, other <+: path → (fresh other).layer = []

theorem partitionTag_ne_nil : ([] : Bytes) ≠ partitionTag := by
  simp [partitionTag, encodeUtf8]

theorem Ends.opened {entry : Entry}
    (hends : Ends rows layer.nodeSubspace path none)
    (h : directories rows layer.nodeSubspace path.dropLast = some entry) :
    ∃ parent, Reached rows layer.nodeSubspace path.dropLast parent ∧
      rows.get? (layerKey layer.nodeSubspace parent) ≠ some partitionTag ∧
      entry = entryOf rows layer.nodeSubspace parent := by
  cases hends with
  | @missing front rest name q hsplit hq hplain hname hget =>
      by_cases hrest : rest = []
      · subst hrest
        rw [hsplit, List.dropLast_concat] at h ⊢
        refine ⟨q, hq, hplain, ?_⟩
        rw [directories, hq.follow_eq] at h
        exact (Option.some.inj h).symm
      · have hdrop : path.dropLast = front ++ name :: rest.dropLast := by
          rw [hsplit, List.dropLast_append_of_ne_nil (List.cons_ne_nil _ _),
            List.dropLast_cons_of_ne_nil hrest]
        rw [hdrop, (Ends.missing rfl hq hplain hname hget).directories_eq_none] at h
        cases h

theorem Ends.plain_of_entry {other : DirectoryPath} {entry : Entry}
    (hends : Ends rows layer.nodeSubspace path none) (hle : other <+: path)
    (h : directories rows layer.nodeSubspace other = some entry) : entry.layer ≠ partitionTag := by
  cases hends with
  | @missing front rest name q hsplit hq hplain hname hget =>
      subst hsplit
      have hfront : other <+: front := by
        rcases List.prefix_or_prefix_of_prefix hle (List.prefix_append front _) with hfront | hlonger
        · exact hfront
        · obtain ⟨tail, rfl⟩ := hlonger
          rw [List.prefix_append_right_inj] at hle
          cases tail with
          | nil => simp
          | cons name' tail =>
              obtain ⟨rfl, -⟩ := List.cons_prefix_cons.mp hle
              rw [(Ends.missing rfl hq hplain hname hget).directories_eq_none] at h
              cases h
      obtain ⟨r, hr, hrest⟩ := hq.above hfront
      have hlayer : rows.get? (layerKey layer.nodeSubspace r) ≠ some partitionTag := by
        by_cases heq : other = front
        · subst heq
          rwa [hr.node_eq hq]
        · exact hrest heq
      rw [directories, hr.follow_eq, Option.some.injEq] at h
      subst h
      exact fun heq => hlayer (getD_eq_partitionTag.mp heq)

theorem getParentNode_effect {transaction transaction' : DirectoryTransaction} {node : Bytes}
    {createOrOpen : DirectoryPath → DirectoryTransaction →
      Except DirectoryFailure (DirectoryOutput × DirectoryTransaction)}
    (hinv : LayerInv transaction.rows layer head)
    (hends : Ends transaction.rows layer.nodeSubspace path none)
    (hversion : (transaction.rows.get? (versionKey layer.nodeSubspace)).isSome)
    (hcreate : ∀ output transaction', createOrOpen path.dropLast transaction =
      .ok (output, transaction') → CreatesOrOpens transaction.rows transaction'.rows layer head
        path.dropLast none none true true output)
    (h : getParentNode createOrOpen layer path transaction = .ok (node, transaction')) :
    ∃ parent fresh, node = nodeKey layer.nodeSubspace parent ∧
      ParentNode transaction.rows transaction'.rows layer head path.dropLast parent fresh := by
  rw [getParentNode] at h
  split_ifs at h with hroot
  · cases h
    have hnil := List.eq_nil_of_length_eq_zero hroot
    refine ⟨layer.nodeSubspace, fun _ => ⟨[], [], []⟩, rfl, .refl hinv, fun _ _ => rfl, hnil ▸ .root,
      hinv.regular.regularRows.plain_root, hversion, ?_, fun _ _ => rfl⟩
    rw [PathTree.grown_eq_self]
    intro other hle
    rw [hnil, List.prefix_nil] at hle
    subst hle
    exact Option.some_ne_none _
  · obtain ⟨⟨output, middle⟩, hcall, h⟩ := bind_eq_ok.mp h
    cases output with
    | partition parentLayer parentPath directoryLayer => cases h
    | subspace directoryLayer relativePath q nodeLayer =>
        simp only [nodeWithPrefix_eq, bind, Except.bind, Except.ok.injEq, Prod.mk.injEq] at h
        obtain ⟨rfl, rfl⟩ := h
        have heffect := hcreate _ _ hcall
        rcases heffect.outcome with ⟨hrows, hentry, -, -⟩ | ⟨fresh, hcreates, hentry, -, -⟩
        · obtain ⟨parent, hparent, hplain, heq⟩ := hends.opened hentry
          obtain rfl : q = parent := congrArg Entry.prefixBytes heq
          refine ⟨q, fun _ => ⟨[], [], []⟩, rfl, heffect.evolves, heffect.metadata, ?_, ?_, ?_, ?_,
            fun _ _ => rfl⟩
          · rwa [hrows]
          · rwa [hrows]
          · rwa [hrows]
          · rw [hrows, PathTree.grown_eq_self]
            intro other hle
            refine follow_ne_none ?_ hle
            rw [hparent.follow_eq]
            exact Option.some_ne_none _
        · have hlayers (other : DirectoryPath) (hle : other <+: path.dropLast) :
              (fresh other).layer = [] := by
            rw [hcreates.layers other hle]
            split_ifs <;> rfl
          have hlast : directories middle.rows layer.nodeSubspace path.dropLast =
              some (fresh path.dropLast) := by
            rw [hcreates.grown, PathTree.grown, if_pos ⟨List.prefix_rfl, hcreates.missing⟩]
          obtain ⟨parent, hparent, heq⟩ :=
            reached_of_directories heffect.evolves.inv.regular hlast fun other entry hle hne hother => by
              rw [hcreates.grown, PathTree.grown] at hother
              split_ifs at hother with hfresh
              · rw [← Option.some.inj hother, hlayers other hfresh.1]
                exact partitionTag_ne_nil
              · exact hends.plain_of_entry (hle.trans (List.dropLast_prefix path)) hother
          obtain rfl : q = parent := congrArg Entry.prefixBytes (hentry.trans heq)
          have hroot' : q ≠ layer.nodeSubspace := by
            rintro rfl
            rcases hparent.eq_nil_or with ⟨hnil, -⟩ | ⟨front, r, name, -, hr, -, hchild⟩
            · exact hroot (by rw [hnil]; rfl)
            · exact heffect.evolves.inv.regular.regularRows.tree.root _ _ hr.isNode
                (points_of_childOf hchild)
          obtain ⟨version, hget, -⟩ := heffect.evolves.inv.regular.regularRows.tree.versioned q
            hparent.isNode hroot'
          refine ⟨q, fresh, rfl, heffect.evolves, heffect.metadata, hparent, fun hpartition => ?_, ?_,
            hcreates.grown, hlayers⟩
          · refine partitionTag_ne_nil ?_
            rw [← hlayers path.dropLast List.prefix_rfl, heq]
            exact getD_eq_partitionTag.mpr hpartition
          · rw [hget]
            rfl

theorem Reached.get?_childKey_eq_none {nodeSubspace : Bytes}
    (h : Reached rows nodeSubspace front p)
    (hplain : rows.get? (layerKey nodeSubspace p) ≠ some partitionTag)
    (hname : firstRejection [.string name] = none)
    (hnone : directories rows nodeSubspace (front ++ [name]) = none) :
    rows.get? (childKey nodeSubspace p name) = none := by
  rw [directories, h.follow_append, follow_cons_plain hplain] at hnone
  cases hget : rows.get? (childKey nodeSubspace p name) with
  | none => rfl
  | some q =>
      rw [childOf_eq_some.mpr ⟨hname, hget⟩] at hnone
      cases hnone

theorem ParentNode.add {chosen : Rows} {parent nodeLayer : Bytes} {fresh : DirectoryPath → Entry}
    (h : ParentNode rows next layer head front parent fresh) (hwithin : Within layer head)
    (hquiet : QuietEdit next chosen layer.nodeSubspace)
    (hmissing : directories rows layer.nodeSubspace (front ++ [name]) = none)
    (hname : firstRejection [.string name] = none)
    (hfree : isPrefixFree layer p chosen = .ok true) (hhead : head <+: p)
    (hempty : nodeLayer = partitionTag →
      (∀ q, IsNode chosen layer.nodeSubspace q → ¬ q <+: p ∧ ¬ p <+: q) →
      ∀ key, p ++ nodePrefix <+: key → chosen.get? key = none) :
    Evolves rows (added chosen layer.nodeSubspace parent name p nodeLayer) layer head ∧
      Handles (added chosen layer.nodeSubspace parent name p nodeLayer) layer (front ++ [name])
        (outputOf layer p (front ++ [name]) nodeLayer) ∧
      directories (added chosen layer.nodeSubspace parent name p nodeLayer) layer.nodeSubspace =
        (directories rows layer.nodeSubspace).grown (front ++ [name]) fun other =>
          if other = front ++ [name] then ⟨layer.nodeSubspace, p, nodeLayer⟩ else fresh other := by
  have hchosen := hquiet.evolves h.evolves.inv hwithin
  have hregular := hchosen.inv.regular
  have hreached := hquiet.reached h.reached
  have hplain : chosen.get? (layerKey layer.nodeSubspace parent) ≠ some partitionTag := by
    rw [hquiet.layerKey_eq]
    exact h.plain
  have htree : directories chosen layer.nodeSubspace =
      (directories rows layer.nodeSubspace).grown front fresh :=
    (hquiet.directories_eq h.evolves.inv.regular).trans h.grown
  obtain ⟨version, hversion⟩ := Option.isSome_iff_exists.mp h.version
  have hversion' := hquiet.version version hversion
  obtain ⟨hapart, hnext⟩ := apart_of_isPrefixFree hregular.regularRows (by rw [hversion']; rfl) hfree
  have hchild : chosen.get? (childKey layer.nodeSubspace parent name) = none := by
    refine hreached.get?_childKey_eq_none hplain hname ?_
    rw [htree, PathTree.grown, hmissing, if_neg]
    rintro ⟨hle, -⟩
    have hlength := hle.length_le
    simp at hlength
  have haddable : Addable chosen layer.nodeSubspace parent name p :=
    ⟨hreached.isNode, hname, hchild, hapart, hnext, version, hversion',
      hregular.regularRows.version version hversion'⟩
  have hempty' := fun hpartition => hempty hpartition hapart
  refine ⟨h.evolves.trans (hchosen.trans (hchosen.inv.evolves hwithin
    (haddable.regular hregular hempty') (fun r hr => ?_) (fun _ => haddable.below_of_below)
    Addable.outside)), ?_, ?_⟩
  · rcases (haddable.isNode_iff hregular.regularRows).mp hr with hold | rfl
    · exact hchosen.inv.under r hold
    · exact hhead
  · have hadded : Reached (added chosen layer.nodeSubspace parent name p nodeLayer)
        layer.nodeSubspace (front ++ [name]) p :=
      haddable.reached hregular.regularRows.tree hreached hplain
    have hhandle := handles_outputOf hadded haddable.ne_root
    rwa [Addable.get?_added, if_pos rfl, Option.getD_some] at hhandle
  · rw [haddable.directories_eq hregular hreached hplain hempty', htree, PathTree.grown_grown]

theorem createInternal_effect {transaction transaction' : DirectoryTransaction}
    {createOrOpen : DirectoryPath → DirectoryTransaction →
      Except DirectoryFailure (DirectoryOutput × DirectoryTransaction)}
    {prefixBytes nodeLayer : Option Bytes} {output : DirectoryOutput} {allowOpen : Bool}
    (hwithin : Within layer head) (hinv : LayerInv transaction.rows layer head)
    (hmanual : prefixBytes.isSome = true → layer.allowManualPrefixes = true)
    (hends : Ends transaction.rows layer.nodeSubspace path none)
    (hcreate : ∀ transaction output transaction', LayerInv transaction.rows layer head →
      createOrOpen path.dropLast transaction = .ok (output, transaction') →
        CreatesOrOpens transaction.rows transaction'.rows layer head path.dropLast none none true true
          output)
    (h : createInternal createOrOpen layer path prefixBytes nodeLayer transaction =
      .ok (output, transaction')) :
    CreatesOrOpens transaction.rows transaction'.rows layer head path prefixBytes nodeLayer true
      allowOpen output := by
  cases hlast : path.getLast? with
  | none =>
      rw [createInternal, hlast] at h
      cases h
  | some name =>
      rw [createInternal, hlast] at h
      obtain ⟨rows, hchecked, h⟩ := bind_eq_ok.mp h
      obtain ⟨⟨node, middle⟩, hnode, h⟩ := bind_eq_ok.mp h
      obtain ⟨⟨p, chosen⟩, hchosen, h⟩ := bind_eq_ok.mp h
      obtain ⟨free, hfree, h⟩ := bind_eq_ok.mp h
      have hpath : path.dropLast ++ [name] = path := List.dropLast_append_getLast? name hlast
      obtain ⟨hquiet, version, hversion, -⟩ := checkVersion_quiet hchecked
      have hstart := hquiet.evolves hinv hwithin
      obtain ⟨parent, fresh, rfl, hparent⟩ := getParentNode_effect hstart.inv (hquiet.ends hends)
        (by rw [hversion]; rfl) (fun output transaction' => hcreate _ output transaction' hstart.inv)
        hnode
      obtain ⟨hquiet', horigin⟩ := choosePrefix_quiet hchosen
      split_ifs at h with hused
      obtain rfl : free = true := by simpa using hused
      obtain ⟨node, hnode', h⟩ := bind_eq_ok.mp h
      rw [nodeWithPrefix_eq] at hnode'
      cases hnode'
      obtain ⟨pointer, hpointer, h⟩ := bind_eq_ok.mp h
      obtain ⟨layerRow, hlayerRow, h⟩ := bind_eq_ok.mp h
      obtain ⟨output', houtput, h⟩ := bind_eq_ok.mp h
      cases h
      rw [contentsOfNode_eq] at houtput
      obtain rfl := Except.ok.inj houtput
      have hentry := entry_outputOf layer p path (nodeLayer.getD [])
      have hname : firstRejection [.string name] = none := by
        simpa [firstRejection, rejection] using (packed_ok hpointer).1
      obtain rfl : childKey layer.nodeSubspace parent name = pointer := (packed_ok hpointer).2.symm
      obtain rfl : layerKey layer.nodeSubspace p = layerRow := (packed_ok hlayerRow).2.symm
      have hmissing : directories rows layer.nodeSubspace (path.dropLast ++ [name]) = none := by
        rw [hpath]
        exact (hquiet.ends hends).directories_eq_none
      have hhead : head <+: p := by
        rcases horigin with hexplicit | ⟨-, hcontent, -⟩
        · rw [hwithin.manual (hmanual (by rw [hexplicit]; rfl))]
          exact List.nil_prefix
        · exact hwithin.contents.trans hcontent
      have hempty : nodeLayer.getD [] = partitionTag →
          (∀ q, IsNode chosen.rows layer.nodeSubspace q → ¬ q <+: p ∧ ¬ p <+: q) →
          ∀ key, p ++ nodePrefix <+: key → chosen.rows.get? key = none := by
        intro _ hapart key hkey
        rcases horigin with hexplicit | ⟨-, -, hrows⟩
        · have howned := (hquiet'.evolves hparent.evolves.inv hwithin).inv.owned
            (hmanual (by rw [hexplicit]; rfl))
          exact howned.get?_eq_none hapart hkey
        · exact hrows key ((List.prefix_append _ _).trans hkey)
      obtain ⟨hevolves, hhandle, htree⟩ := hparent.add hwithin hquiet' hmissing hname hfree hhead hempty
      rw [hpath] at hhandle
      rw [hpath, hquiet.directories_eq hinv.regular] at htree
      have hmetadata : MetadataOnly transaction.rows
          (added chosen.rows layer.nodeSubspace parent name p (nodeLayer.getD []))
          layer.nodeSubspace :=
        (hparent.metadata.after hquiet hinv.regular).trans_kept hinv.regular.regularRows
          fun key hkey => (Addable.outside key hkey).trans (hquiet'.outside hkey)
      have hne : path ≠ [] := by
        rintro rfl
        cases hlast
      refine ⟨hstart.trans hevolves, hmetadata, hne, hhandle, .inr ⟨_, ⟨hends.directories_eq_none, htree,
        fun other hle => ?_⟩, ?_, rfl, fun q hq => ?_⟩⟩
      · split_ifs with hother
        · rfl
        · rw [← hpath] at hle hother
          exact hparent.layers other ((List.prefix_concat_iff.mp hle).resolve_left hother)
      · rw [hentry, if_pos rfl]
      · rcases horigin with hexplicit | ⟨hnone, -⟩
        · rw [hentry]
          exact Option.some.inj (hexplicit.symm.trans hq)
        · rw [hnone] at hq
          cases hq

theorem Creates.lift {nodeLayer : Bytes} {fresh : DirectoryPath → Entry}
    (h : Creates rows next (p ++ nodePrefix) rest nodeLayer fresh)
    (hevolves : Evolves rows next (nestedLayer p (layer.path ++ front)) p)
    (hinv : LayerInv rows layer head) (hp : Reached rows layer.nodeSubspace front p)
    (hpartition : IsPartition rows layer.nodeSubspace p) (hrest : rest ≠ []) :
    Creates rows next layer.nodeSubspace (front ++ rest) nodeLayer
      fun other => fresh (other.drop front.length) := by
  constructor
  case missing => rw [directories_partition hinv.regular hp hpartition hrest, h.missing]
  case grown =>
    refine (hevolves.graft hinv hp hpartition).grown (fun other hle => ?_) h.grown
    refine follow_ne_none ?_ hle
    rw [hp.follow_eq]
    exact Option.some_ne_none _
  case layers =>
    intro other hle
    rcases List.prefix_or_prefix_of_prefix hle (List.prefix_append front rest) with habove | hbelow
    · have hne : other ≠ front ++ rest := by
        rintro rfl
        have hlength := habove.length_le
        have := List.length_pos_iff.mpr hrest
        simp only [List.length_append] at hlength
        omega
      rw [List.drop_eq_nil_of_le habove.length_le, h.layers [] List.nil_prefix, if_neg hne,
        if_neg hrest.symm]
    · obtain ⟨tail, rfl⟩ := hbelow
      rw [List.drop_left, h.layers tail ((List.prefix_append_right_inj front).mp hle)]
      simp only [List.append_cancel_left_eq]

/-- A call inside a partition is one in the layer around it. -/
theorem CreatesOrOpens.lift {prefixBytes expectedLayer : Option Bytes}
    {allowCreate allowOpen : Bool} {output : DirectoryOutput}
    (h : CreatesOrOpens rows next (nestedLayer p (layer.path ++ front)) p rest prefixBytes
      expectedLayer allowCreate allowOpen output)
    (hinv : LayerInv rows layer head) (hp : Reached rows layer.nodeSubspace front p)
    (hpartition : IsPartition rows layer.nodeSubspace p) :
    CreatesOrOpens rows next layer head (front ++ rest) prefixBytes expectedLayer allowCreate
      allowOpen output := by
  have hagree := h.evolves.agree_outer hinv hp.isNode hpartition
  refine ⟨h.evolves.lift hinv hp.isNode hpartition, h.metadata.lift hinv.regular hp hpartition,
    by simp [h.nonempty], h.handle.lift (hp.of_agree hagree) (hagree.partition hpartition), ?_⟩
  rcases h.outcome with ⟨hrows, hentry, hflags, hlayer⟩ | ⟨fresh, hcreates, hentry, hcreate, hprefix⟩
  · refine .inl ⟨hrows, ?_, hflags, hlayer⟩
    rw [directories_partition hinv.regular hp hpartition h.nonempty]
    exact hentry
  · refine .inr ⟨_, hcreates.lift h.evolves hinv hp hpartition h.nonempty, ?_, hcreate, hprefix⟩
    rw [List.drop_left]
    exact hentry

theorem CreatesOrOpens.of_open {expectedLayer : Option Bytes} {output : DirectoryOutput}
    (h : CreatesOrOpens rows next layer head path none expectedLayer false true output)
    (prefixBytes : Option Bytes) (allowOpen : Bool) :
    CreatesOrOpens rows next layer head path prefixBytes expectedLayer false allowOpen output := by
  refine ⟨h.evolves, h.metadata, h.nonempty, h.handle, ?_⟩
  rcases h.outcome with ⟨hrows, hentry, -, hlayer⟩ | ⟨_, -, -, hcreate, -⟩
  · exact .inl ⟨hrows, hentry, fun hcreate => absurd hcreate Bool.false_ne_true, hlayer⟩
  · cases hcreate

theorem createOrOpenInternal_effect {fuel : Nat} {transaction transaction' : DirectoryTransaction}
    {prefixBytes expectedLayer : Option Bytes} {allowCreate allowOpen : Bool}
    {output : DirectoryOutput} (hwithin : Within layer head)
    (hinv : LayerInv transaction.rows layer head)
    (h : createOrOpenInternal fuel layer path prefixBytes expectedLayer allowCreate allowOpen
      transaction = .ok (output, transaction')) :
    CreatesOrOpens transaction.rows transaction'.rows layer head path prefixBytes expectedLayer
      allowCreate allowOpen output := by
  induction fuel generalizing layer head path prefixBytes expectedLayer allowCreate allowOpen
    transaction transaction' output with
  | zero => cases h
  | succ fuel ih =>
      obtain ⟨rows, hversion, h⟩ := bind_eq_ok.mp h
      obtain rfl := Attempt.rows_of_checkVersion hversion
      by_cases hmanual : prefixBytes.isSome = true ∧ ¬ layer.allowManualPrefixes = true
      · rw [if_pos hmanual] at h
        cases h
      by_cases hempty : path.length = 0
      · rw [if_neg hmanual, if_pos hempty] at h
        cases h
      rw [if_neg hmanual, if_neg hempty] at h
      obtain ⟨found, hfound, h⟩ := bind_eq_ok.mp h
      have hmanual' : prefixBytes.isSome = true → layer.allowManualPrefixes = true :=
        fun hsome => by_contra fun hnot => hmanual ⟨hsome, hnot⟩
      rcases findNode_cases hinv.regular.regularRows hfound with
        ⟨rfl, hends⟩ | ⟨p, hp, rfl⟩ | ⟨front, rest, p, rfl, hrest, hp, hpartition, rfl⟩
      · cases allowCreate with
        | false => cases h
        | true =>
            exact createInternal_effect hwithin hinv hmanual' hends
              (fun transaction output transaction' hinv hcall => ih hwithin hinv hcall) h
      · dsimp only at h
        rw [not_isInPartition, if_neg Bool.false_ne_true] at h
        by_cases hopen : (!allowOpen) = true
        · rw [if_pos hopen] at h
          cases h
        rw [if_neg hopen] at h
        split_ifs at h with hlayer
        obtain ⟨output', houtput, h⟩ := bind_eq_ok.mp h
        cases h
        rw [getContents, contentsOfNode_eq] at houtput
        obtain rfl := Except.ok.inj houtput
        have hne : path ≠ [] := fun hnil => hempty (by rw [hnil]; rfl)
        have hentry := entry_outputOf layer p path
          ((transaction.rows.get? (layerKey layer.nodeSubspace p)).getD [])
        refine ⟨.refl hinv, fun _ _ => rfl, hne,
          handles_outputOf hp (hp.ne_root hinv.regular.regularRows.tree hne),
          .inl ⟨rfl, ?_, fun _ => by simpa using hopen, ?_⟩⟩
        · rw [directories, hp.follow_eq, hentry]
          rfl
        · intro expected heq hne
          subst heq
          rw [hentry]
          by_contra hother
          refine hlayer ?_
          simp [List.length_pos_iff.mpr hne, Ne.symm hother]
      · obtain ⟨hinside, hinner, hsubpath⟩ := enter_partition layer front p hrest
        dsimp only at h
        rw [if_pos hinside, hinner, hsubpath] at h
        have hnested := hinv.nested hp.isNode hpartition (layer.path ++ front)
        cases allowCreate with
        | false =>
            have heffect := ih (Within.nested p (layer.path ++ front)) hnested h
            exact (heffect.of_open prefixBytes allowOpen).lift hinv hp hpartition
        | true =>
            have heffect := ih (Within.nested p (layer.path ++ front)) hnested h
            exact heffect.lift hinv hp hpartition

end

end FoundationDbEffect.Directory
