import FoundationDbEffect.Directory.Handles
import FoundationDbEffect.Foundation.Transition

/-!
# Runs of directory operations

A database starts empty, and its transactions create, open, move and remove directories through
any handles that stand for a path at the time, and write rows in directories that are no
partitions.  Seen from its paths the database is a tree that grows, is cut and is grafted, and the
contents of a directory change by writes in it only, until it is removed.
-/

namespace FoundationDbEffect.Directory

open FoundationDbEffect.Foundation FoundationDbEffect.TupleLayer
open FoundationDbEffect.Foundation.ByteOrder

/-! ## Trees of paths -/

/-- What a transaction does to the paths of a database. -/
inductive DirectoryAction where
  | createOrOpen (path : DirectoryPath) (allowCreate allowOpen : Bool)
  | move (oldPath newPath : DirectoryPath)
  | remove (path : DirectoryPath) (failIfMissing : Bool)
  | write (path : DirectoryPath)

/-- The tree of paths that a directory layer is meant to be. -/
inductive TreeStep : PathTree CodeUnits Entry → DirectoryAction → PathTree CodeUnits Entry → Prop
    where
  | opened {tree : PathTree CodeUnits Entry} {path : DirectoryPath} {allowCreate allowOpen : Bool}
      (h : tree path ≠ none) (hflags : allowCreate = true → allowOpen = true) :
      TreeStep tree (.createOrOpen path allowCreate allowOpen) tree
  | created {tree : PathTree CodeUnits Entry} {path : DirectoryPath} {allowOpen : Bool}
      (h : tree path = none) (fresh : DirectoryPath → Entry)
      (hplain : ∀ other, other <+: path → other ≠ path → (fresh other).layer ≠ partitionTag) :
      TreeStep tree (.createOrOpen path true allowOpen) (tree.grown path fresh)
  | moved {tree : PathTree CodeUnits Entry} {oldPath newPath : DirectoryPath}
      (hnonempty : oldPath ≠ []) (houtside : ¬ oldPath <+: newPath) (hfound : tree oldPath ≠ none)
      (hmissing : tree newPath = none) (hparent : tree newPath.dropLast ≠ none) :
      TreeStep tree (.move oldPath newPath) (tree.relocated oldPath newPath)
  | removed {tree : PathTree CodeUnits Entry} {path : DirectoryPath} {failIfMissing : Bool}
      (hnonempty : path ≠ []) (hfound : failIfMissing = true → tree path ≠ none) :
      TreeStep tree (.remove path failIfMissing) (tree.without path)
  | written {tree : PathTree CodeUnits Entry} {path : DirectoryPath} (h : tree path ≠ none) :
      TreeStep tree (.write path) tree

/-! ## Transactions -/

/-- A transaction that commits: a call of a handle, or writes in a directory. -/
inductive DirectoryStep (layer : DirectoryLayerState) : Rows → DirectoryAction → Rows → Prop where
  | createOrOpen {base path : DirectoryPath} {handle : DirectoryHandle}
      {prefixBytes nodeLayer : Option Bytes} {transaction transaction' : DirectoryTransaction}
      {output : DirectoryOutput} (h : Holds transaction.rows layer base handle)
      (hcall : handle.createOrOpen path prefixBytes nodeLayer transaction =
        .ok (output, transaction')) :
      DirectoryStep layer transaction.rows (.createOrOpen (base ++ path) true true)
        transaction'.rows
  | create {base path : DirectoryPath} {handle : DirectoryHandle}
      {prefixBytes nodeLayer : Option Bytes} {transaction transaction' : DirectoryTransaction}
      {output : DirectoryOutput} (h : Holds transaction.rows layer base handle)
      (hcall : handle.create path prefixBytes nodeLayer transaction = .ok (output, transaction')) :
      DirectoryStep layer transaction.rows (.createOrOpen (base ++ path) true false)
        transaction'.rows
  | open' {base path : DirectoryPath} {handle : DirectoryHandle} {nodeLayer : Option Bytes}
      {transaction transaction' : DirectoryTransaction} {output : DirectoryOutput}
      (h : Holds transaction.rows layer base handle)
      (hcall : handle.open' path nodeLayer transaction = .ok (output, transaction')) :
      DirectoryStep layer transaction.rows (.createOrOpen (base ++ path) false true)
        transaction'.rows
  | move {base newPath : DirectoryPath} {handle : DirectoryHandle} {rows next : Rows}
      {output : DirectoryOutput} (h : Holds rows layer base handle)
      (hcall : handle.move (layer.path ++ newPath) rows = .ok (output, next)) :
      DirectoryStep layer rows (.move base newPath) next
  | moveTo {base oldPath newPath : DirectoryPath} {handle : DirectoryHandle} {rows next : Rows}
      {output : DirectoryOutput} (h : Holds rows layer base handle)
      (hcall : handle.moveTo oldPath newPath rows = .ok (output, next)) :
      DirectoryStep layer rows (.move (base ++ oldPath) (base ++ newPath)) next
  | remove {base path : DirectoryPath} {handle : DirectoryHandle} {rows next : Rows}
      {removed : Bool} (h : Holds rows layer base handle)
      (hcall : handle.remove path rows = .ok (removed, next)) :
      DirectoryStep layer rows (.remove (base ++ path) true) next
  | removeIfExists {base path : DirectoryPath} {handle : DirectoryHandle} {rows next : Rows}
      {removed : Bool} (h : Holds rows layer base handle)
      (hcall : handle.removeIfExists path rows = .ok (removed, next)) :
      DirectoryStep layer rows (.remove (base ++ path) false) next
  | write {rows next : Rows} {path : DirectoryPath} {entry : Entry} (hpath : path ≠ [])
      (hentry : directories rows layer.nodeSubspace path = some entry)
      (hplain : entry.layer ≠ partitionTag)
      (hkept : ∀ key, ¬ entry.prefixBytes <+: key → next.get? key = rows.get? key) :
      DirectoryStep layer rows (.write path) next

section

variable {rows next : Rows} {layer : DirectoryLayerState} {nodeSubspace : Bytes} {entry : Entry}
  {path : DirectoryPath} {action : DirectoryAction} {actions : List DirectoryAction}

theorem Within.top (layer : DirectoryLayerState) : Within layer [] where
  nodes := List.nil_prefix
  contents := List.nil_prefix
  manual _ := rfl

/-- A layer without metadata. Where prefixes may be chosen there is none either that a partition
could find, whatever its prefix. -/
structure EmptyLayer (rows : Rows) (layer : DirectoryLayerState) : Prop where
  nodes : ∀ key, layer.nodeSubspace <+: key → rows.get? key = none
  partitions : layer.allowManualPrefixes = true →
    ∀ p key, p ++ nodePrefix <+: key → rows.get? key = none

theorem EmptyLayer.empty (layer : DirectoryLayerState) : EmptyLayer ∅ layer where
  nodes := fun key _ => OrderedMap.get?_empty key
  partitions := fun _ _ key _ => OrderedMap.get?_empty key

theorem EmptyLayer.inv (h : EmptyLayer rows layer) : LayerInv rows layer [] := by
  obtain ⟨hregular, -⟩ := regular_of_empty h.nodes List.prefix_rfl
  refine ⟨hregular, fun _ _ => List.nil_prefix, fun hmanual p key hinner hkey => ?_⟩
  rw [h.partitions hmanual p key hinner] at hkey
  cases hkey

/-! ## Writes in a directory -/

theorem Found.write (h : Found rows nodeSubspace path entry)
    (hregular : Regular rows nodeSubspace) (hpath : path ≠ [])
    (hplain : entry.layer ≠ partitionTag)
    (hkept : ∀ key, ¬ entry.prefixBytes <+: key → next.get? key = rows.get? key) :
    Regular next nodeSubspace ∧ Agree rows next nodeSubspace ∧
      directories next nodeSubspace = directories rows nodeSubspace := by
  induction h with
  | @inLayer nodeSubspace p path hp =>
      have htree := hregular.regularRows.tree
      have hagree {q : Bytes} (hq : IsNode rows nodeSubspace q) (hne : q ≠ p) : Agree rows next q :=
        fun key hkey => hkept key fun hhead => hne (htree.eq_of_heads hq hp.isNode hkey hhead)
      have hne {q : Bytes} (hq : IsPartition rows nodeSubspace q) : q ≠ p := by
        rintro rfl
        exact hplain (entryOf_layer_eq.mpr hq.layer)
      have hroot := hagree (.refl _) (hp.ne_root htree hpath).symm
      refine ⟨?_, hroot, funext fun path => ?_⟩
      · refine (hroot.regularRows hregular.regularRows).regular fun q hq hpartition => ?_
        have hq' := hroot.symm.below hq
        have hpartition' := hroot.symm.partition hpartition
        obtain ⟨hinner, hunder⟩ := hregular.partition hq' hpartition'
        exact (hagree hq' (hne hpartition')).regular hinner hunder
      · exact follow_congr hregular .root (fun _ _ _ _ => hroot _ (isMetadata_layerKey _ _).below)
          (fun _ _ _ _ _ _ => hroot _ (isChildRow_childKey _ _ _).isMetadata.below)
          fun _ q _ _ hq hpartition => hagree hq.isNode (hne hpartition)
  | @inPartition nodeSubspace p front rest entry hp hpartition hrest h ih =>
      have hnode := hp.isNode
      obtain ⟨hinner, hunder⟩ := hregular.partition hnode hpartition
      obtain ⟨hnext, hagree, hdirectories⟩ := ih hinner hrest hplain hkept
      have hchanged : ChangedInside rows next p :=
        ⟨hnext, fun r hr => hunder r (hagree.symm.below hr), fun key hkey =>
          hkept key fun hhead => hkey ((h.head_inside hregular hnode hpartition).1.trans hhead)⟩
      obtain ⟨houter, hagree'⟩ := hchanged.lift hregular hnode hpartition
      refine ⟨houter, hagree', (hchanged.graft hregular hp hpartition).eq_of (fun rest hrest => ?_)
        fun _ _ => rfl⟩
      rw [directories_partition hregular hp hpartition hrest, hdirectories]

theorem Found.owned (h : Found rows nodeSubspace path entry)
    (hregular : Regular rows nodeSubspace) (hpath : path ≠ [])
    (hagree : Agree rows next nodeSubspace)
    (hkept : ∀ key, ¬ entry.prefixBytes <+: key → next.get? key = rows.get? key)
    (howned : Owned rows nodeSubspace) : Owned next nodeSubspace := by
  intro p key hinner hkey
  by_cases hhead : entry.prefixBytes <+: key
  · obtain ⟨front, q, -, hq, hle, hbehind⟩ := h.reached hregular
    refine .inr ⟨q, hagree.below hq.isNode, ?_, hle.trans hhead⟩
    by_cases heq : front = path
    · exact hq.ne_root hregular.regularRows.tree (heq ▸ hpath)
    · exact (hbehind heq).ne_root
  · rw [hkept key hhead] at hkey
    refine (howned p key hinner hkey).imp_right fun howner => ?_
    obtain ⟨q, hq, hroot, hle⟩ := howner
    exact ⟨q, hagree.below hq, hroot, hle⟩

/-! ## Steps -/

inductive StepEffect (rows next : Rows) (layer : DirectoryLayerState) : DirectoryAction → Prop where
  | createOrOpen {path : DirectoryPath} {prefixBytes nodeLayer : Option Bytes}
      {allowCreate allowOpen : Bool} {output : DirectoryOutput}
      (h : CreatesOrOpens rows next layer [] path prefixBytes nodeLayer allowCreate allowOpen output) :
      StepEffect rows next layer (.createOrOpen path allowCreate allowOpen)
  | move {oldPath newPath : DirectoryPath} {output : DirectoryOutput}
      (h : Moves rows next layer [] oldPath newPath output) :
      StepEffect rows next layer (.move oldPath newPath)
  | remove {path : DirectoryPath} {failIfMissing removed : Bool}
      (h : RemovesAt rows next layer [] path failIfMissing removed) :
      StepEffect rows next layer (.remove path failIfMissing)
  | write {path : DirectoryPath} {entry : Entry} (hpath : path ≠ [])
      (hentry : directories rows layer.nodeSubspace path = some entry)
      (hplain : entry.layer ≠ partitionTag)
      (hkept : ∀ key, ¬ entry.prefixBytes <+: key → next.get? key = rows.get? key) :
      StepEffect rows next layer (.write path)

theorem DirectoryStep.effect (hstep : DirectoryStep layer rows action next)
    (hinv : LayerInv rows layer []) : StepEffect rows next layer action := by
  have hwithin := Within.top layer
  cases hstep with
  | createOrOpen h hcall =>
      rw [DirectoryHandle.createOrOpen_eq] at hcall
      exact .createOrOpen (h.createsOrOpens hwithin hinv hcall)
  | create h hcall =>
      rw [DirectoryHandle.create_eq] at hcall
      exact .createOrOpen (h.createsOrOpens hwithin hinv hcall)
  | open' h hcall =>
      rw [DirectoryHandle.open_eq] at hcall
      exact .createOrOpen (h.createsOrOpens hwithin hinv hcall)
  | move h hcall =>
      obtain ⟨newPath, hpath, hmoves⟩ := h.moves hwithin hinv hcall
      obtain rfl := List.append_cancel_left hpath
      exact .move hmoves
  | moveTo h hcall => exact .move (h.movesTo hwithin hinv hcall)
  | remove h hcall =>
      rw [DirectoryHandle.remove_eq] at hcall
      exact .remove (h.removesAt hwithin hinv hcall)
  | removeIfExists h hcall =>
      rw [DirectoryHandle.removeIfExists_eq] at hcall
      exact .remove (h.removesAt hwithin hinv hcall)
  | write hpath hentry hplain hkept => exact .write hpath hentry hplain hkept

theorem StepEffect.inv (h : StepEffect rows next layer action) (hinv : LayerInv rows layer []) :
    LayerInv next layer [] := by
  cases h with
  | createOrOpen h => exact h.evolves.inv
  | move h => exact h.evolves.inv
  | remove h => exact h.evolves.inv
  | write hpath hentry hplain hkept =>
      have hregular := hinv.regular
      have hfound := (directories_eq_some hregular).mp hentry
      obtain ⟨hnext, hagree, -⟩ := hfound.write hregular hpath hplain hkept
      exact ⟨hnext, fun _ _ => List.nil_prefix,
        fun hmanual => hfound.owned hregular hpath hagree hkept (hinv.owned hmanual)⟩

/-- A transaction does to the tree of paths what it is meant to. -/
theorem StepEffect.tree (h : StepEffect rows next layer action) (hinv : LayerInv rows layer []) :
    TreeStep (directories rows layer.nodeSubspace) action (directories next layer.nodeSubspace) := by
  have hsome {tree : PathTree CodeUnits Entry} {path : DirectoryPath} {entry : Entry}
      (h : tree path = some entry) : tree path ≠ none := by
    rw [h]
    exact Option.some_ne_none _
  cases h with
  | createOrOpen h =>
      rcases h.outcome with ⟨hrows, hentry, hflags, -⟩ | ⟨fresh, hcreates, -, hcreate, -⟩
      · rw [hrows]
        exact .opened (hsome hentry) hflags
      · rw [hcreates.grown, hcreate]
        refine .created hcreates.missing fresh fun other hle hne => ?_
        rw [hcreates.layers other hle, if_neg hne]
        exact partitionTag_ne_nil
  | move h =>
      obtain ⟨parent, hparent, -⟩ := h.parent
      rw [h.directories_eq]
      exact .moved h.nonempty h.outside (hsome h.found) h.missing (hsome hparent)
  | remove h =>
      rw [h.directories_eq]
      refine .removed h.nonempty fun hfail => ?_
      rw [← Option.isSome_iff_ne_none, ← h.removed_iff]
      exact h.missing hfail
  | write hpath hentry hplain hkept =>
      have hfound := (directories_eq_some hinv.regular).mp hentry
      obtain ⟨-, -, hdirectories⟩ := hfound.write hinv.regular hpath hplain hkept
      rw [hdirectories]
      exact .written (hsome hentry)

theorem EmptyLayer.inv_of_run {start : Rows} (h : EmptyLayer start layer)
    (hrun : Run (DirectoryStep layer) start actions rows) : LayerInv rows layer [] :=
  hrun.invariant (A := fun _ => True) (fun _ _ _ _ hstep hinv => (hstep.effect hinv).inv hinv)
    (fun _ _ => trivial) h.inv

theorem layerInv_of_run (hrun : Run (DirectoryStep layer) ∅ actions rows) :
    LayerInv rows layer [] :=
  (EmptyLayer.empty layer).inv_of_run hrun

theorem EmptyLayer.directories_eq (h : EmptyLayer rows layer) :
    directories rows layer.nodeSubspace = fun path =>
      if path = [] then some ⟨layer.nodeSubspace, layer.nodeSubspace, []⟩ else none := by
  have hlayer : rows.get? (layerKey layer.nodeSubspace layer.nodeSubspace) = none :=
    h.nodes _ (isMetadata_layerKey _ _).below
  funext path
  cases path with
  | nil => simp [directories, follow, entryOf, hlayer]
  | cons name rest =>
      have hchild : rows.get? (childKey layer.nodeSubspace layer.nodeSubspace name) = none :=
        h.nodes _ (isChildRow_childKey _ _ _).isMetadata.below
      rw [directories, follow_cons_plain (by rw [hlayer]; simp), childOf, hchild]
      simp

theorem EmptyLayer.tree_of_run {start : Rows} (h : EmptyLayer start layer)
    (hrun : Run (DirectoryStep layer) start actions rows) :
    Run TreeStep
      (fun path => if path = [] then some ⟨layer.nodeSubspace, layer.nodeSubspace, []⟩ else none)
      actions (directories rows layer.nodeSubspace) := by
  rw [← h.directories_eq]
  induction hrun with
  | nil => exact .nil _
  | snoc hbefore hstep ih =>
      have hinv := h.inv_of_run hbefore
      exact ih.snoc ((hstep.effect hinv).tree hinv)

/-! ## Contents -/

/-- A transaction that neither removes a directory nor writes in it. -/
def Spares (layer : DirectoryLayerState) (entry : Entry) (rows : Rows) : DirectoryAction → Prop
  | .remove path _ => ∀ other, directories rows layer.nodeSubspace other = some entry →
    ¬ path <+: other
  | .write path => directories rows layer.nodeSubspace path ≠ some entry
  | _ => True

theorem relocated_some {tree : PathTree CodeUnits Entry} {oldPath newPath : DirectoryPath}
    (hmissing : ∀ rest, tree (newPath ++ rest) = none) (hentry : tree path = some entry)
    (hpath : path ≠ []) (hnew : newPath ≠ []) :
    ∃ path, path ≠ [] ∧ tree.relocated oldPath newPath path = some entry := by
  by_cases hle : oldPath <+: path
  · obtain ⟨rest, rfl⟩ := hle
    exact ⟨newPath ++ rest, by simp [hnew], (PathTree.relocated_append _ _ _ _).trans hentry⟩
  · refine ⟨path, hpath, ?_⟩
    rw [PathTree.relocated, if_neg, if_neg hle, hentry]
    rintro ⟨rest, rfl⟩
    rw [hmissing] at hentry
    cases hentry

theorem StepEffect.spares (h : StepEffect rows next layer action)
    (hspares : Spares layer entry rows action) (hinv : LayerInv rows layer []) (hpath : path ≠ [])
    (hentry : directories rows layer.nodeSubspace path = some entry)
    (hplain : entry.layer ≠ partitionTag) :
    (∃ path, path ≠ [] ∧ directories next layer.nodeSubspace path = some entry) ∧
      Agree rows next entry.prefixBytes := by
  have hregular := hinv.regular
  cases h with
  | createOrOpen h =>
      refine ⟨⟨path, hpath, ?_⟩, h.metadata.agree hregular hentry hpath hplain⟩
      rcases h.outcome with ⟨hrows, -⟩ | ⟨fresh, hcreates, -⟩
      · rw [hrows, hentry]
      · rw [hcreates.grown, PathTree.grown, if_neg, hentry]
        rw [hentry]
        exact fun hnone => Option.some_ne_none _ hnone.2
  | move h =>
      refine ⟨?_, h.metadata.agree hregular hentry hpath hplain⟩
      rw [h.directories_eq]
      refine relocated_some (fun rest => ?_) hentry hpath ?_
      · by_contra hbelow
        exact follow_ne_none hbelow (List.prefix_append _ rest) h.missing
      · intro hnil
        have hmissing := h.missing
        rw [hnil] at hmissing
        cases hmissing
  | remove h =>
      have hnot := hspares path hentry
      refine ⟨⟨path, hpath, ?_⟩, h.spared path entry hpath hnot hentry hplain⟩
      rw [h.directories_eq, PathTree.without, if_neg hnot, hentry]
  | write hpath' hentry' hplain' hkept =>
      obtain ⟨-, -, hdirectories⟩ :=
        ((directories_eq_some hregular).mp hentry').write hregular hpath' hplain' hkept
      refine ⟨⟨path, hpath, by rw [hdirectories, hentry]⟩, fun key hkey => hkept key fun hkey' => ?_⟩
      obtain rfl := hregular.isolated.eq_of_key hentry hentry' hplain hplain' hkey hkey'
      exact hspares hentry

/-! ## Handles -/

/-- A transaction that neither moves nor removes what is at a path or above it. -/
def Leaves (path : DirectoryPath) : DirectoryAction → Prop
  | .move oldPath _ => ¬ oldPath <+: path
  | .remove removed _ => ¬ removed <+: path
  | _ => True

theorem StepEffect.kept (h : StepEffect rows next layer action) (hinv : LayerInv rows layer [])
    {base : DirectoryPath} (hleaves : Leaves base action) (hle : path <+: base)
    (hentry : directories rows layer.nodeSubspace path = some entry) :
    directories next layer.nodeSubspace path = some entry := by
  have htree := h.tree hinv
  generalize hnext : directories next layer.nodeSubspace = nextTree at htree ⊢
  cases htree with
  | opened => exact hentry
  | created =>
      rw [PathTree.grown, if_neg, hentry]
      rw [hentry]
      exact fun hnone => Option.some_ne_none _ hnone.2
  | moved _ _ _ hmissing =>
      rw [PathTree.relocated, if_neg, if_neg fun hold => hleaves (hold.trans hle), hentry]
      intro hnew
      refine follow_ne_none ?_ hnew hmissing
      rw [← directories, hentry]
      exact Option.some_ne_none _
  | removed => rw [PathTree.without, if_neg fun hgone => hleaves (hgone.trans hle), hentry]
  | written => exact hentry

theorem StepEffect.stands (h : StepEffect rows next layer action) (hinv : LayerInv rows layer [])
    {base front : DirectoryPath} {inner : DirectoryLayerState} (hleaves : Leaves base action)
    (hle : front <+: base) (hstands : Stands rows layer front inner) :
    Stands next layer front inner := by
  have hwithin := Within.top layer
  rcases (stands_iff hwithin hinv).mp hstands with hself | ⟨entry, hentry, hlayer, rfl⟩
  · exact (stands_iff hwithin (h.inv hinv)).mpr (.inl hself)
  · exact (stands_iff hwithin (h.inv hinv)).mpr
      (.inr ⟨entry, h.kept hinv hleaves hle hentry, hlayer, rfl⟩)

theorem StepEffect.holds (h : StepEffect rows next layer action) (hinv : LayerInv rows layer [])
    {base : DirectoryPath} {handle : DirectoryHandle} (hleaves : Leaves base action)
    (hholds : Holds rows layer base handle) : Holds next layer base handle := by
  have hwithin := Within.top layer
  cases hholds with
  | layer hstands => exact .layer (h.stands hinv hleaves List.prefix_rfl hstands)
  | output houtput =>
      cases houtput with
      | subspace hstands hrest =>
          exact .output (.subspace (h.stands hinv hleaves (List.prefix_append _ _) hstands) hrest)
      | @partition inner front rest p hstands hp hpartition =>
          have hnext := h.stands hinv hleaves (List.prefix_append _ _) hstands
          obtain ⟨head, -, hinv'⟩ := hnext.inv hwithin (h.inv hinv)
          have hne := hp.ne_nil hpartition
          have hentry := h.kept hinv hleaves List.prefix_rfl
            ((hstands.directories_eq hwithin hinv hne).trans hp.follow_eq)
          rw [hnext.directories_eq hwithin (h.inv hinv) hne] at hentry
          obtain ⟨hp', hlayer⟩ :=
            ((directories_eq_some hinv'.regular).mp hentry).reached_of_eq hinv'.regular rfl
          refine .output (.partition hnext hp' ⟨hpartition.ne_root, entryOf_layer_eq.mp ?_⟩)
          exact (congrArg Entry.layer hlayer).symm.trans (entryOf_layer_eq.mpr hpartition.layer)

end

end FoundationDbEffect.Directory
