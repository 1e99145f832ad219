import FoundationDbEffect.Directory.Isolation

/-!
# Removing and moving

A removal that succeeds takes the directory at its path with all below it out of the tree, and a
move gives them another path.  Both find the parent whose child row they clear where it was
before they wrote.
-/

namespace FoundationDbEffect.Directory

open FoundationDbEffect.Foundation FoundationDbEffect.TupleLayer
open FoundationDbEffect.Foundation.ByteOrder

variable {rows next : Rows} {layer : DirectoryLayerState} {head nodeSubspace p q : Bytes}
  {name : CodeUnits} {path front : DirectoryPath}

theorem Walk.concat (h : Walk rows nodeSubspace p path q)
    (hname : firstRejection [.string name] = none) {r : Bytes}
    (hget : rows.get? (childKey nodeSubspace q name) = some r)
    (hplain : rows.get? (layerKey nodeSubspace r) ≠ some partitionTag) :
    Walk rows nodeSubspace p (path ++ [name]) r := by
  induction h with
  | nil => exact .cons hname hget hplain .nil
  | cons hname' hget' hplain' _ ih => exact .cons hname' hget' hplain' (ih hget)

theorem Reached.walk (h : Reached rows nodeSubspace path p)
    (hplain : rows.get? (layerKey nodeSubspace p) ≠ some partitionTag) :
    Walk rows nodeSubspace nodeSubspace path p := by
  induction h with
  | root => exact .nil
  | child h hplain' hchild ih =>
      obtain ⟨hname, hget⟩ := childOf_eq_some.mp hchild
      exact (ih hplain').concat hname hget hplain

theorem Reached.parent (h : Reached rows nodeSubspace path p) (hpath : path ≠ []) :
    ∃ front name parent, path = front ++ [name] ∧ Reached rows nodeSubspace front parent ∧
      rows.get? (layerKey nodeSubspace parent) ≠ some partitionTag ∧
      firstRejection [.string name] = none ∧
      rows.get? (childKey nodeSubspace parent name) = some p := by
  rcases h.eq_nil_or with ⟨hnil, -⟩ | ⟨front, parent, name, hsplit, hparent, hplain, hchild⟩
  · exact absurd hnil hpath
  · obtain ⟨hname, hget⟩ := childOf_eq_some.mp hchild
    exact ⟨front, name, parent, hsplit, hparent, hplain, hname, hget⟩

/-! ## Removing -/

/-- The recursion removes a node that is reached, and its child row is cleared where its parent is
found again. -/
theorem removeRecursive_child {parent : Bytes} (hregular : RegularRows rows layer.nodeSubspace)
    (hparent : Reached rows layer.nodeSubspace front parent)
    (hplain : rows.get? (layerKey layer.nodeSubspace parent) ≠ some partitionTag)
    (hname : firstRejection [.string name] = none)
    (hget : rows.get? (childKey layer.nodeSubspace parent name) = some p) :
    ∃ swept, removeRecursive layer (rows.entries.length + 1) (nodeKey layer.nodeSubspace p) rows =
        .ok swept ∧
      OrderedMap.Without (fun key _ => Occupied rows layer.nodeSubspace p key) rows swept ∧
      removeFromParent layer (front ++ [name]) swept =
        .ok (swept.clear (childKey layer.nodeSubspace parent name)) := by
  have htree := hregular.tree
  have hpoints := points_childKey hget
  have hroot : p ≠ layer.nodeSubspace := by
    rintro rfl
    exact htree.root _ _ hparent.isNode hpoints
  obtain ⟨labels, hlabels⟩ := hparent.isNode.step hpoints
  obtain ⟨swept, hswept, hwithout⟩ := removes_removeRecursive htree (rows.entries.length + 1)
    hlabels hroot (by omega) rows (fun _ => False) whole_false (.refl rows)
  have hwithout' : OrderedMap.Without (fun key _ => Occupied rows layer.nodeSubspace p key) rows
      swept := hwithout.congr fun _ _ _ => by simp
  exact ⟨swept, hswept, hwithout',
    removeFromParent_walk ((hparent.walk hplain).removed htree hpoints hwithout') hname⟩

theorem detaches_of_remove {parent : Bytes} {swept : Rows}
    (hregular : RegularRows rows layer.nodeSubspace)
    (hparent : Reached rows layer.nodeSubspace front parent)
    (hplain : rows.get? (layerKey layer.nodeSubspace parent) ≠ some partitionTag)
    (hname : firstRejection [.string name] = none)
    (hget : rows.get? (childKey layer.nodeSubspace parent name) = some p)
    (hswept : removeRecursive layer (rows.entries.length + 1) (nodeKey layer.nodeSubspace p) rows =
      .ok swept)
    (hnext : removeFromParent layer (front ++ [name]) swept = .ok next) :
    Detaches rows layer.nodeSubspace parent name p next := by
  obtain ⟨swept', hswept', hwithout, hcleared⟩ :=
    removeRecursive_child hregular hparent hplain hname hget
  obtain rfl : swept' = swept := Except.ok.inj (hswept'.symm.trans hswept)
  obtain rfl := Except.ok.inj (hcleared.symm.trans hnext)
  exact ⟨hparent.isNode, hget, hwithout.trans (OrderedMap.without_clear _ _)⟩

theorem Detaches.evolves {parent : Bytes}
    (h : Detaches rows layer.nodeSubspace parent name p next) (hwithin : Within layer head)
    (hinv : LayerInv rows layer head) : Evolves rows next layer head := by
  have htree := hinv.regular.regularRows.tree
  refine ⟨⟨h.regular hinv.regular, fun r hr => hinv.under r ((h.isNode_iff htree).mp hr).1,
    fun hmanual => h.owned htree (hinv.owned hmanual)⟩, fun key hkey => ?_⟩
  refine h.without.get?_eq fun _ hgone => hkey ?_
  rcases hgone with ⟨q, hq, hmetadata | hhead⟩ | rfl
  · exact hwithin.nodes.trans hmetadata.below
  · exact (hinv.under q (h.isNode_child.trans hq)).trans hhead
  · exact hwithin.nodes.trans (isChildRow_childKey _ _ _).isMetadata.below

/-- A removal that succeeds. Without a directory at its path it fails, unless that is allowed. -/
structure RemovesAt (rows next : Rows) (layer : DirectoryLayerState) (head : Bytes)
    (path : DirectoryPath) (failIfMissing removed : Bool) : Prop where
  evolves : Evolves rows next layer head
  nonempty : path ≠ []
  removed_iff : removed = (directories rows layer.nodeSubspace path).isSome
  missing : failIfMissing = true → removed = true
  directories_eq : directories next layer.nodeSubspace =
    (directories rows layer.nodeSubspace).without path
  cleared : ∀ other entry key, path <+: other →
    directories rows layer.nodeSubspace other = some entry → entry.prefixBytes <+: key →
    next.get? key = none
  spared : ∀ other entry, other ≠ [] → ¬ path <+: other →
    directories rows layer.nodeSubspace other = some entry → entry.layer ≠ partitionTag →
    Agree rows next entry.prefixBytes

theorem Found.reached (h : Found rows nodeSubspace path entry)
    (hregular : Regular rows nodeSubspace) :
    ∃ front q, front <+: path ∧ Reached rows nodeSubspace front q ∧ q <+: entry.prefixBytes ∧
      (front ≠ path → IsPartition rows nodeSubspace q) := by
  cases h with
  | inLayer hq => exact ⟨path, _, List.prefix_rfl, hq, List.prefix_rfl, fun hne => absurd rfl hne⟩
  | inPartition hq hpartition _ h =>
      exact ⟨_, _, List.prefix_append _ _, hq, (h.head_inside hregular hq.isNode hpartition).1,
        fun _ => hpartition⟩

theorem Reached.below_of_le (h : Reached rows nodeSubspace path p) {other : DirectoryPath}
    (h' : Reached rows nodeSubspace other q) (hle : path <+: other) :
    Below (Points rows nodeSubspace) p q := by
  induction h' with
  | root =>
      obtain rfl := List.prefix_nil.mp hle
      rw [h.node_eq .root]
      exact .refl _
  | @child other q r name h' hplain hchild ih =>
      rcases List.prefix_concat_iff.mp hle with rfl | hle
      · rw [h.node_eq (h'.child hplain hchild)]
        exact .refl _
      · exact (ih hle).step (points_of_childOf hchild)

/-- Exactly what lies below the removed path is cleared. -/
theorem Detaches.contents {parent : Bytes}
    (h : Detaches rows nodeSubspace parent name p next) (hregular : Regular rows nodeSubspace)
    (hp : Reached rows nodeSubspace path p) {other : DirectoryPath} {entry : Entry}
    (hentry : directories rows nodeSubspace other = some entry) :
    (path <+: other → ∀ key, entry.prefixBytes <+: key → next.get? key = none) ∧
      (other ≠ [] → ¬ path <+: other → entry.layer ≠ partitionTag →
        Agree rows next entry.prefixBytes) := by
  have htree := hregular.regularRows.tree
  have hfound := (directories_eq_some hregular).mp hentry
  obtain ⟨front, q, hfront, hq, hhead, hbehind⟩ := hfound.reached hregular
  constructor
  · intro hle key hkey
    -- The way to a partition does not end above the removed node.
    have hbelow : path <+: front := by
      rcases List.prefix_or_prefix_of_prefix hle hfront with hlonger | hshorter
      · exact hlonger
      · by_cases heq : front = other
        · exact heq ▸ hle
        · rw [hp.eq_of_partition hq (hbehind heq) hshorter]
    exact h.without.get?_eq_none fun _ =>
      .inl ⟨q, hp.below_of_le hq hbelow, .inr (hhead.trans hkey)⟩
  · intro hother hnot hplain key hkey
    refine h.without.get?_eq fun _ hgone => ?_
    have hmetadata {row : Bytes} (hrow : nodeSubspace <+: row) : row ≠ key := by
      rintro rfl
      have hapart := hregular.isolated.layers _ [] _ _ hentry rfl hother hplain
      rw [entryOf_inner_plain hregular.regularRows.plain_root] at hapart
      exact (List.prefix_or_prefix_of_prefix hkey hrow).elim hapart.1 hapart.2
    rcases hgone with ⟨r, hr, hrow | hhead'⟩ | rfl
    · exact hmetadata hrow.below rfl
    · have hnode := h.isNode_child.trans hr
      obtain rfl := htree.eq_of_heads hnode hq.isNode hhead' (hhead.trans hkey)
      exact hnot ((hp.prefix_of_below htree (h.ne_root htree) hr hq).trans hfront)
    · exact hmetadata (isChildRow_childKey _ _ _).isMetadata.below rfl

theorem Evolves.agree (h : Evolves rows next (nestedLayer p (layer.path ++ front)) p)
    (hregular : Regular rows layer.nodeSubspace) (hp : Reached rows layer.nodeSubspace front p)
    {other : DirectoryPath} {entry : Entry}
    (hentry : directories rows layer.nodeSubspace other = some entry)
    (hplain : entry.layer ≠ partitionTag) (hnot : ¬ front <+: other) :
    Agree rows next entry.prefixBytes := by
  refine fun key hkey => h.kept key fun hinside => ?_
  rcases List.prefix_or_prefix_of_prefix hinside hkey with hle | hle
  · rcases (hregular.isolated.heads front other _ _ hp.follow_eq hentry).mp hle with rfl | ⟨-, hle⟩
    · exact hnot List.prefix_rfl
    · exact hnot hle
  · rcases (hregular.isolated.heads other front _ _ hentry hp.follow_eq).mp hle with
      rfl | ⟨hpartition, -⟩
    · exact hnot List.prefix_rfl
    · exact hplain hpartition

theorem RemovesAt.after {checked : Rows} {failIfMissing removed : Bool}
    (hquiet : QuietEdit rows checked layer.nodeSubspace) (hwithin : Within layer head)
    (hinv : LayerInv rows layer head)
    (h : RemovesAt checked next layer head path failIfMissing removed) :
    RemovesAt rows next layer head path failIfMissing removed := by
  have hdirectories := hquiet.directories_eq hinv.regular
  refine ⟨(hquiet.evolves hinv hwithin).trans h.evolves, h.nonempty, hdirectories ▸ h.removed_iff,
    h.missing, hdirectories ▸ h.directories_eq, hdirectories ▸ h.cleared, ?_⟩
  intro other entry hother hnot hentry hplain key hkey
  have hspared := (MetadataOnly.of_kept hinv.regular.regularRows fun _ => hquiet.outside).agree
    hinv.regular hentry hother hplain
  rw [← hspared key hkey]
  rw [← hdirectories] at hentry
  exact h.spared other entry hother hnot hentry hplain key hkey

theorem RemovesAt.lift {rest : DirectoryPath} {failIfMissing removed : Bool}
    (h : RemovesAt rows next (nestedLayer p (layer.path ++ front)) p rest failIfMissing removed)
    (hinv : LayerInv rows layer head) (hp : Reached rows layer.nodeSubspace front p)
    (hpartition : IsPartition rows layer.nodeSubspace p) :
    RemovesAt rows next layer head (front ++ rest) failIfMissing removed := by
  have hregular := hinv.regular
  constructor
  case evolves => exact h.evolves.lift hinv hp.isNode hpartition
  case nonempty => simp [h.nonempty]
  case removed_iff =>
    rw [h.removed_iff, directories_partition hregular hp hpartition h.nonempty]
    rfl
  case missing => exact h.missing
  case directories_eq =>
    exact (h.evolves.graft hinv hp hpartition).without h.nonempty h.directories_eq
  case cleared =>
    intro other entry key hle hentry
    obtain ⟨tail, rfl⟩ := hle
    rw [List.append_assoc, directories_partition hregular hp hpartition (by simp [h.nonempty])]
      at hentry
    exact h.cleared (rest ++ tail) entry key (List.prefix_append _ _) hentry
  case spared =>
    intro other entry hother hnot hentry hplain
    by_cases hle : front <+: other
    · obtain ⟨tail, rfl⟩ := hle
      have htail : tail ≠ [] := by
        rintro rfl
        rw [List.append_nil, directories, hp.follow_eq, Option.some.injEq] at hentry
        subst hentry
        exact hplain (getD_eq_partitionTag.mpr hpartition.layer)
      rw [directories_partition hregular hp hpartition htail] at hentry
      rw [List.prefix_append_right_inj] at hnot
      exact h.spared tail entry htail hnot hentry hplain
    · exact h.evolves.agree hregular hp hentry hplain hle

theorem removeInternal_effect {fuel : Nat} {failIfMissing removed : Bool}
    (hwithin : Within layer head) (hinv : LayerInv rows layer head)
    (h : removeInternal fuel layer path failIfMissing rows = .ok (removed, next)) :
    RemovesAt rows next layer head path failIfMissing removed := by
  induction fuel generalizing layer head path rows with
  | zero => cases h
  | succ fuel ih =>
      obtain ⟨checked, hversion, h⟩ := bind_eq_ok.mp h
      obtain ⟨hquiet, -⟩ := checkVersion_quiet hversion
      by_cases hempty : path.length = 0
      · rw [if_pos hempty] at h
        cases h
      rw [if_neg hempty] at h
      have hne : path ≠ [] := fun hnil => hempty (by rw [hnil]; rfl)
      refine .after hquiet hwithin hinv ?_
      replace hinv := (hquiet.evolves hinv hwithin).inv
      have hregular := hinv.regular
      obtain ⟨found, hfound, h⟩ := bind_eq_ok.mp h
      rcases findNode_cases hregular.regularRows hfound with
        ⟨rfl, hends⟩ | ⟨p, hp, rfl⟩ | ⟨front, rest, p, rfl, hrest, hp, hpartition, rfl⟩
      · dsimp only at h
        split_ifs at h with hfail
        obtain ⟨rfl, rfl⟩ := Prod.mk.inj (Except.ok.inj h)
        have hnone := hends.directories_eq_none
        have hbelow (other : DirectoryPath) (hle : path <+: other) :
            directories checked layer.nodeSubspace other = none :=
          by_contra fun hother => follow_ne_none hother hle hnone
        refine ⟨.refl hinv, hne, by rw [hnone]; rfl, fun hfail' => absurd hfail' hfail,
          (PathTree.without_eq_self hbelow).symm, ?_, fun _ _ _ _ _ _ _ _ => rfl⟩
        intro other entry key hle hentry
        rw [hbelow other hle] at hentry
        cases hentry
      · dsimp only at h
        rw [not_isInPartition, if_neg Bool.false_ne_true] at h
        obtain ⟨swept, hswept, h⟩ := bind_eq_ok.mp h
        obtain ⟨cleared, hcleared, h⟩ := bind_eq_ok.mp h
        obtain ⟨rfl, rfl⟩ := Prod.mk.inj (Except.ok.inj h)
        obtain ⟨front, name, parent, rfl, hparent, hplain, hname, hget⟩ := hp.parent hne
        have hdetaches := detaches_of_remove hregular.regularRows hparent hplain hname hget hswept
          hcleared
        refine ⟨hdetaches.evolves hwithin hinv, hne, ?_, fun _ => rfl,
          hdetaches.directories_eq hregular hparent hplain hname, ?_, ?_⟩
        · rw [directories, hp.follow_eq]
          rfl
        · exact fun other entry key hle hentry => (hdetaches.contents hregular hp hentry).1 hle key
        · exact fun other entry hother hnot hentry hplain' =>
            (hdetaches.contents hregular hp hentry).2 hother hnot hplain'
      · obtain ⟨hinside, hinner, hsubpath⟩ := enter_partition layer front p hrest
        dsimp only at h
        rw [if_pos hinside, hinner, hsubpath] at h
        exact (ih (Within.nested p (layer.path ++ front)) (hinv.nested hp.isNode hpartition _)
          h).lift hinv hp hpartition

/-! ## Moving -/

theorem Ends.parent {found : Node} (hregular : RegularRows rows layer.nodeSubspace)
    (hends : Ends rows layer.nodeSubspace path none)
    (h : findNode rows layer path.dropLast = .ok (some found)) :
    ∃ parent, found.subspace = nodeKey layer.nodeSubspace parent ∧
      Reached rows layer.nodeSubspace path.dropLast parent ∧
      rows.get? (layerKey layer.nodeSubspace parent) ≠ some partitionTag := by
  rcases findNode_cases hregular h with
    ⟨hnone, -⟩ | ⟨p, hp, heq⟩ | ⟨front, rest, p, hsplit, hrest, hp, hpartition, heq⟩
  · cases hnone
  · refine ⟨p, by rw [Option.some.inj heq], hp, fun hpartition => ?_⟩
    refine hends.plain_of_entry (List.dropLast_prefix path) hp.follow_eq ?_
    exact getD_eq_partitionTag.mpr hpartition
  · have hle : front <+: path :=
      (hsplit ▸ List.prefix_append front rest).trans (List.dropLast_prefix path)
    exact absurd (getD_eq_partitionTag.mpr hpartition.layer) (hends.plain_of_entry hle hp.follow_eq)

/-- The child rows of a move, the new one written first. -/
theorem removeFromParent_move {parent newParent : Bytes} {newFront : DirectoryPath} {newName : CodeUnits}
    (hregular : RegularRows rows layer.nodeSubspace)
    (hparent : Reached rows layer.nodeSubspace front parent)
    (hplain : rows.get? (layerKey layer.nodeSubspace parent) ≠ some partitionTag)
    (hname : firstRejection [.string name] = none)
    (hparent' : Reached rows layer.nodeSubspace newFront newParent)
    (hname' : firstRejection [.string newName] = none)
    (hmissing : directories rows layer.nodeSubspace (newFront ++ [newName]) = none) (p : Bytes) :
    removeFromParent layer (front ++ [name])
        (rows.set (childKey layer.nodeSubspace newParent newName) p) =
      .ok (moved rows layer.nodeSubspace parent name newParent newName p) := by
  have hfound : Reached (rows.set (childKey layer.nodeSubspace newParent newName) p)
      layer.nodeSubspace front parent := by
    refine hparent.congr (fun _ q _ _ => ?_) fun front' q name'' hle hq hname'' => ?_
    · exact OrderedMap.get?_set_of_ne _ _ (Addable.childKey_ne_layerKey _ _ _ _).symm
    · refine OrderedMap.get?_set_of_ne _ _ (hq.childKey_ne hparent' hregular.tree hname'' hname' ?_)
      intro heq
      refine follow_ne_none ?_ (heq ▸ hle) hmissing
      rw [hparent.follow_eq]
      exact Option.some_ne_none _
  have hplain' : (rows.set (childKey layer.nodeSubspace newParent newName) p).get?
      (layerKey layer.nodeSubspace parent) ≠ some partitionTag := by
    rwa [OrderedMap.get?_set_of_ne _ _ (Addable.childKey_ne_layerKey _ _ _ _).symm]
  rw [removeFromParent_walk (hfound.walk hplain') hname]
  rfl

/-- A move that succeeds: there was a directory at the old path and none at the new one, which has
a parent and does not lie below the old one. -/
structure Moves (rows next : Rows) (layer : DirectoryLayerState) (head : Bytes)
    (oldPath newPath : DirectoryPath) (output : DirectoryOutput) : Prop where
  evolves : Evolves rows next layer head
  metadata : MetadataOnly rows next layer.nodeSubspace
  handle : Handles next layer newPath output
  nonempty : oldPath ≠ []
  outside : ¬ oldPath <+: newPath
  found : directories rows layer.nodeSubspace oldPath = some output.entry
  missing : directories rows layer.nodeSubspace newPath = none
  parent : ∃ entry, directories rows layer.nodeSubspace newPath.dropLast = some entry ∧
    entry.inner = output.entry.nodeSubspace
  directories_eq : directories next layer.nodeSubspace =
    (directories rows layer.nodeSubspace).relocated oldPath newPath

theorem Moves.after {checked : Rows} {oldPath newPath : DirectoryPath} {output : DirectoryOutput}
    (hquiet : QuietEdit rows checked layer.nodeSubspace) (hwithin : Within layer head)
    (hinv : LayerInv rows layer head)
    (h : Moves checked next layer head oldPath newPath output) :
    Moves rows next layer head oldPath newPath output := by
  have hdirectories := hquiet.directories_eq hinv.regular
  exact ⟨(hquiet.evolves hinv hwithin).trans h.evolves, h.metadata.after hquiet hinv.regular,
    h.handle, h.nonempty, h.outside, hdirectories ▸ h.found, hdirectories ▸ h.missing,
    hdirectories ▸ h.parent, hdirectories ▸ h.directories_eq⟩

theorem Moves.inLayer {oldPath newPath : DirectoryPath} {newParent : Bytes} {newName : CodeUnits}
    {output : DirectoryOutput} (hwithin : Within layer head) (hinv : LayerInv rows layer head)
    (hempty : oldPath ≠ []) (houtside : ¬ oldPath <+: newPath)
    (hp : Reached rows layer.nodeSubspace oldPath p)
    (hends : Ends rows layer.nodeSubspace newPath none) (hlast : newPath.getLast? = some newName)
    (hparent : Reached rows layer.nodeSubspace newPath.dropLast newParent)
    (hplain : rows.get? (layerKey layer.nodeSubspace newParent) ≠ some partitionTag)
    (hname : firstRejection [.string newName] = none)
    (hnext : removeFromParent layer oldPath
      (rows.set (childKey layer.nodeSubspace newParent newName) p) = .ok next)
    (houtput : output =
      outputOf layer p newPath ((rows.get? (layerKey layer.nodeSubspace p)).getD [])) :
    Moves rows next layer head oldPath newPath output := by
  have hsplit : newPath.dropLast ++ [newName] = newPath :=
    List.dropLast_append_getLast? newName hlast
  have hmissing := hends.directories_eq_none
  have htree := hinv.regular.regularRows.tree
  obtain ⟨front, name, parent, rfl, hparent', hplain', hname', hget⟩ := hp.parent hempty
  have hapart : ¬ front ++ [name] <+: newPath.dropLast :=
    fun hle => houtside (hle.trans (List.dropLast_prefix newPath))
  have hroot : p ≠ layer.nodeSubspace := by
    rintro rfl
    exact htree.root _ _ hparent'.isNode (points_childKey hget)
  have hmissing' : directories rows layer.nodeSubspace (newPath.dropLast ++ [newName]) = none := by
    rw [hsplit, hmissing]
  have hmovable : Movable rows layer.nodeSubspace parent name newParent newName p :=
    ⟨hparent'.isNode, hget, hparent.isNode,
      fun hbelow => hapart (hp.prefix_of_below htree hroot hbelow hparent), hname,
      hparent.get?_childKey_eq_none hplain hname hmissing'⟩
  rw [removeFromParent_move hinv.regular.regularRows hparent' hplain' hname' hparent hname hmissing']
    at hnext
  obtain rfl := Except.ok.inj hnext
  refine ⟨hinv.evolves hwithin (hmovable.regular hinv.regular) (fun r hr => ?_)
    (fun _ => hmovable.isNode_iff.mpr) Movable.kept,
    .of_kept hinv.regular.regularRows Movable.kept, ?_, hempty, houtside, ?_, hmissing, ?_, ?_⟩
  · exact hinv.under r (hmovable.isNode_iff.mp hr)
  · have hhandle := handles_outputOf
      (hmovable.reached htree hparent' hname' hparent hplain hapart) hroot
    rwa [Movable.layerKey_eq, hsplit, ← houtput] at hhandle
  · rw [directories, hp.follow_eq, houtput, entry_outputOf]
    rfl
  · refine ⟨_, hparent.follow_eq, ?_⟩
    rw [entryOf_inner_plain hplain, houtput, entry_outputOf]
  · rw [hmovable.directories_eq hinv.regular hparent' hplain' hname' hparent hplain hapart, hsplit]

theorem Moves.lift {rest rest' : DirectoryPath} {output : DirectoryOutput}
    (h : Moves rows next (nestedLayer p (layer.path ++ front)) p rest rest' output)
    (hinv : LayerInv rows layer head) (hp : Reached rows layer.nodeSubspace front p)
    (hpartition : IsPartition rows layer.nodeSubspace p) :
    Moves rows next layer head (front ++ rest) (front ++ rest') output := by
  have hrest := h.nonempty
  have hrest' : rest' ≠ [] := by
    rintro rfl
    cases h.missing
  have hagree := h.evolves.agree_outer hinv hp.isNode hpartition
  constructor
  case evolves => exact h.evolves.lift hinv hp.isNode hpartition
  case metadata => exact h.metadata.lift hinv.regular hp hpartition
  case handle => exact h.handle.lift (hp.of_agree hagree) (hagree.partition hpartition)
  case nonempty => simp [hrest]
  case outside =>
    rw [List.prefix_append_right_inj]
    exact h.outside
  case found =>
    rw [directories_partition hinv.regular hp hpartition hrest]
    exact h.found
  case missing =>
    rw [directories_partition hinv.regular hp hpartition hrest']
    exact h.missing
  case parent =>
    rw [List.dropLast_append_of_ne_nil hrest']
    obtain ⟨entry, hentry, hinner⟩ := h.parent
    by_cases hnil : rest'.dropLast = []
    · rw [hnil] at hentry
      obtain rfl := Option.some.inj hentry
      have hroot := (hinv.regular.partition hp.isNode hpartition).1.regularRows.plain_root
      refine ⟨_, by rw [hnil, List.append_nil, directories, hp.follow_eq], ?_⟩
      rw [← hinner, entryOf_inner_partition hpartition.layer]
      exact (entryOf_inner_plain hroot).symm
    · rw [directories_partition hinv.regular hp hpartition hnil]
      exact ⟨entry, hentry, hinner⟩
  case directories_eq =>
    exact (h.evolves.graft hinv hp hpartition).relocated hrest hrest' h.directories_eq

theorem moveInternal_effect {fuel : Nat} {oldPath newPath : DirectoryPath}
    {output : DirectoryOutput} (hwithin : Within layer head) (hinv : LayerInv rows layer head)
    (h : moveInternal fuel layer oldPath newPath rows = .ok (output, next)) :
    Moves rows next layer head oldPath newPath output := by
  induction fuel generalizing layer head oldPath newPath rows with
  | zero => cases h
  | succ fuel ih =>
      obtain ⟨checked, hversion, h⟩ := bind_eq_ok.mp h
      obtain ⟨hquiet, -⟩ := checkVersion_quiet hversion
      have hstart := hquiet.evolves hinv hwithin
      have hregular := hstart.inv.regular
      by_cases hempty : oldPath.length = 0
      · rw [if_pos hempty] at h
        cases h
      rw [if_neg hempty] at h
      by_cases hbelow : pathStartsWith newPath oldPath = true
      · rw [if_pos hbelow] at h
        cases h
      rw [if_neg hbelow] at h
      have houtside : ¬ oldPath <+: newPath :=
        fun hle => hbelow (List.isPrefixOf_iff_prefix.mpr hle)
      refine .after hquiet hwithin hinv ?_
      obtain ⟨old, hold, h⟩ := bind_eq_ok.mp h
      rcases findNode_cases hregular.regularRows hold with
        ⟨rfl, -⟩ | ⟨p, hp, rfl⟩ | ⟨front, rest, p, rfl, hrest, hp, hpartition, rfl⟩
      · cases h
      · dsimp only at h
        obtain ⟨new, hnew, h⟩ := bind_eq_ok.mp h
        rw [not_isInPartition] at h
        rcases findNode_cases hregular.regularRows hnew with
          ⟨rfl, hends⟩ | ⟨q, hq, rfl⟩ | ⟨front, rest, q, rfl, hrest, hq, hpartition, rfl⟩
        · dsimp only at h
          rw [if_neg Bool.false_ne_true] at h
          cases hlast : newPath.getLast? with
          | none =>
              rw [hlast] at h
              cases h
          | some newName =>
              rw [hlast] at h
              obtain ⟨found, hfound, h⟩ := bind_eq_ok.mp h
              cases found with
              | none => cases h
              | some found =>
                  obtain ⟨newParent, hsubspace, hparent', hplain'⟩ :=
                    hends.parent hregular.regularRows hfound
                  obtain ⟨prefixBytes, hprefix, h⟩ := bind_eq_ok.mp h
                  obtain ⟨newKey, hnewKey, h⟩ := bind_eq_ok.mp h
                  obtain ⟨written, hwritten, h⟩ := bind_eq_ok.mp h
                  obtain ⟨output', houtput, h⟩ := bind_eq_ok.mp h
                  cases h
                  rw [nodePrefixOf_eq] at hprefix
                  cases hprefix
                  rw [hsubspace] at hnewKey
                  have hname : firstRejection [.string newName] = none := by
                    simpa [firstRejection, rejection] using (packed_ok hnewKey).1
                  obtain rfl : childKey layer.nodeSubspace newParent newName = newKey :=
                    (packed_ok hnewKey).2.symm
                  rw [contentsOfNode_eq] at houtput
                  exact .inLayer hwithin hstart.inv (fun hnil => hempty (by rw [hnil]; rfl)) houtside
                    hp hends hlast hparent' hplain' hname hwritten (Except.ok.inj houtput).symm
        · simp [not_isInPartition] at h
        · obtain ⟨hinside, -, -⟩ := enter_partition layer front q hrest
          simp [hinside] at h
      · dsimp only at h
        obtain ⟨new, hnew, h⟩ := bind_eq_ok.mp h
        obtain ⟨hinside, hinner, hsubpath⟩ := enter_partition layer front p hrest
        rw [hinside] at h
        rcases findNode_cases hregular.regularRows hnew with
          ⟨rfl, -⟩ | ⟨q, hq, rfl⟩ | ⟨front', rest', q, rfl, hrest', hq, hpartition', rfl⟩
        · simp at h
        · simp [not_isInPartition] at h
        · obtain ⟨hinside', -, hsubpath'⟩ := enter_partition layer front' q hrest'
          by_cases hfront : front = front'
          · subst hfront
            simp only [hinside', hinner, hsubpath, hsubpath', and_self, if_true] at h
            exact (ih (Within.nested p (layer.path ++ front))
              (hstart.inv.nested hp.isNode hpartition _) h).lift hstart.inv hp hpartition
          · simp [hinside', hfront] at h

end FoundationDbEffect.Directory
