import FoundationDbEffect.Directory.TreeRuns

/-!
# Databases of directories

What holds of every database that transactions of a layer and of its handles have led to, one
after another and from an empty one: how its prefixes lie, what its operations do to the tree of
its paths and, for names that are well formed, when they succeed, and what becomes of contents and
of handles meanwhile.
-/

namespace FoundationDbEffect.Directory

open FoundationDbEffect.Foundation FoundationDbEffect.TupleLayer
open FoundationDbEffect.Foundation.ByteOrder

/-! ## A database with a partition -/

def sampleLayer : DirectoryLayerState := ⟨[0xfe], [], true, []⟩

def createdRows : Rows :=
  ([(versionKey [0xfe], directoryVersion), (childKey [0xfe] [0xfe] (text "p"), [0x15, 0x02]),
    (layerKey [0xfe] [0x15, 0x02], partitionTag)] :
      List (Bytes × Bytes)).foldl (fun rows row => rows.set row.1 row.2) ∅

def samplePartition : DirectoryOutput :=
  .partition sampleLayer [text "p"] (nestedLayer [0x15, 0x02] [text "p"])

def insideRows : Rows :=
  ([(versionKey [0x15, 0x02, 0xfe], directoryVersion),
    ([0x15, 0x02, 0xfe, 0x01, 0x15, 0x02, 0xfe, 0x00, 0x01, 0x68, 0x63, 0x61, 0x00, 0x14, 0x14],
      [1, 0, 0, 0, 0, 0, 0, 0]),
    ([0x15, 0x02, 0xfe, 0x01, 0x15, 0x02, 0xfe, 0x00, 0x01, 0x68, 0x63, 0x61, 0x00, 0x15, 0x01,
      0x15, 0x05], []),
    (childKey [0x15, 0x02, 0xfe] [0x15, 0x02, 0xfe] (text "x"), [0x15, 0x02, 0x15, 0x05]),
    (layerKey [0x15, 0x02, 0xfe] [0x15, 0x02, 0x15, 0x05], [])] :
      List (Bytes × Bytes)).foldl (fun rows row => rows.set row.1 row.2) createdRows

def sampleDirectory : DirectoryOutput :=
  .subspace (nestedLayer [0x15, 0x02] [text "p"]) [text "x"] [0x15, 0x02, 0x15, 0x05] []

theorem run_createdRows : Run (DirectoryStep sampleLayer) ∅
    [.createOrOpen [text "p"] true false] createdRows := by
  have hcall : (DirectoryHandle.ofLayer sampleLayer).create [text "p"] (some [0x15, 0x02])
      (some partitionTag) ⟨∅, []⟩ = .ok (samplePartition, ⟨createdRows, []⟩) := by rfl
  have hstep : DirectoryStep sampleLayer ∅ (.createOrOpen ([] ++ [text "p"]) true false)
      createdRows := .create (.layer .self) hcall
  exact .single hstep

theorem reached_partition : Reached createdRows sampleLayer.nodeSubspace ([] ++ [text "p"])
    [0x15, 0x02] :=
  .child .root (by decide +kernel) (by decide +kernel)

theorem isPartition_created : IsPartition createdRows sampleLayer.nodeSubspace [0x15, 0x02] :=
  ⟨by decide, by decide +kernel⟩

theorem holds_partition :
    Holds createdRows sampleLayer [text "p"] (.ofOutput samplePartition) :=
  .output (reached_partition.handles isPartition_created)

theorem create_insideRows : (DirectoryHandle.ofOutput samplePartition).create [text "x"] none none
    ⟨createdRows, [(10, [5, 6, 7, 8])]⟩ = .ok (sampleDirectory, ⟨insideRows, []⟩) := by
  rfl

theorem step_insideRows : DirectoryStep sampleLayer createdRows
    (.createOrOpen ([text "p"] ++ [text "x"]) true false) insideRows :=
  .create holds_partition create_insideRows

theorem run_insideRows : Run (DirectoryStep sampleLayer) ∅
    [.createOrOpen [text "p"] true false, .createOrOpen [text "p", text "x"] true false]
    insideRows :=
  run_createdRows.snoc step_insideRows

theorem directory_insideRows :
    directories insideRows sampleLayer.nodeSubspace ([text "p"] ++ [text "x"]) =
      some ⟨[0x15, 0x02, 0xfe], [0x15, 0x02, 0x15, 0x05], []⟩ := by
  decide +kernel

def movedRows : Rows :=
  (insideRows.set (childKey [0xfe] [0xfe] (text "q")) [0x15, 0x02]).clear
    (childKey [0xfe] [0xfe] (text "p"))

theorem moveTo_movedRows :
    (DirectoryHandle.ofLayer sampleLayer).moveTo [text "p"] [text "q"] insideRows =
      .ok (.partition sampleLayer [text "q"] (nestedLayer [0x15, 0x02] [text "q"]), movedRows) := by
  rfl

theorem step_movedRows : DirectoryStep sampleLayer insideRows
    (.move ([] ++ [text "p"]) ([] ++ [text "q"])) movedRows :=
  .moveTo (.layer .self) moveTo_movedRows

theorem accepted_p : Accepted ([] ++ [text "p"]) := by
  unfold Accepted
  decide

theorem accepted_q : Accepted ([] ++ [text "q"]) := by
  unfold Accepted
  decide

theorem accepted_partition : Accepted ([text "p"] ++ []) := accepted_p

theorem accepted_inside : Accepted ([] ++ [text "p", text "x"]) := by
  unfold Accepted
  decide

/-! ## Metadata -/

/-- The prefixes of the nodes of a layer: that of its root, and those that have the row of a
layer. -/
def HasNode (rows : Rows) (nodeSubspace p : Bytes) : Prop :=
  p = nodeSubspace ∨ (rows.get? (layerKey nodeSubspace p)).isSome

/-- The child rows of a layer make a tree of its nodes, whose prefixes are no heads of each
other. -/
structure MetadataTree (rows : Rows) (nodeSubspace : Bytes) : Prop where
  pointed : ∀ p key q, Points rows nodeSubspace p key q →
    HasNode rows nodeSubspace p ∧ (rows.get? (layerKey nodeSubspace q)).isSome ∧
      ∃ name, firstRejection [.string name] = none ∧ key = childKey nodeSubspace p name
  parent : ∀ q, (rows.get? (layerKey nodeSubspace q)).isSome →
    ∃! edge : Bytes × Bytes, Points rows nodeSubspace edge.1 edge.2 q
  root : ∀ p key, ¬ Points rows nodeSubspace p key nodeSubspace
  reached : ∀ p, HasNode rows nodeSubspace p →
    ∃! labels, Trail (Points rows nodeSubspace) nodeSubspace labels p
  prefixFree : ∀ p q, HasNode rows nodeSubspace p → HasNode rows nodeSubspace q → p <+: q → p = q

section

variable {rows : Rows} {nodeSubspace p q key : Bytes}

theorem RegularRows.isNode_of_points (h : RegularRows rows nodeSubspace)
    (hpoints : Points rows nodeSubspace p key q) : IsNode rows nodeSubspace p := by
  obtain ⟨p', hp', -, hmetadata⟩ := h.keys key (by rw [hpoints.2]; rfl) hpoints.isMetadata.below
  obtain rfl := hmetadata.inj hpoints.isMetadata
  exact hp'

theorem RegularRows.layer_iff (h : RegularRows rows nodeSubspace) :
    (rows.get? (layerKey nodeSubspace p)).isSome ↔
      IsNode rows nodeSubspace p ∧ p ≠ nodeSubspace := by
  constructor
  · intro hlayer
    obtain ⟨p', hp', -, hmetadata⟩ := h.keys _ hlayer (isMetadata_layerKey _ _).below
    obtain rfl := hmetadata.inj (isMetadata_layerKey _ _)
    refine ⟨hp', ?_⟩
    rintro rfl
    rw [h.root] at hlayer
    cases hlayer
  · intro ⟨hp, hroot⟩
    exact h.layered p hp hroot

theorem RegularRows.hasNode_iff (h : RegularRows rows nodeSubspace) :
    HasNode rows nodeSubspace p ↔ IsNode rows nodeSubspace p := by
  rw [HasNode, h.layer_iff]
  constructor
  · rintro (rfl | ⟨hp, -⟩)
    · exact .refl _
    · exact hp
  · intro hp
    by_cases hroot : p = nodeSubspace
    · exact .inl hroot
    · exact .inr ⟨hp, hroot⟩

theorem RegularRows.metadataTree (h : RegularRows rows nodeSubspace) :
    MetadataTree rows nodeSubspace := by
  have hrooted := h.tree.rooted
  constructor
  case pointed =>
    intro p key q hpoints
    have hp := h.isNode_of_points hpoints
    refine ⟨h.hasNode_iff.mpr hp, h.layer_iff.mpr ⟨hp.step hpoints, ?_⟩,
      h.tree.named p key q hp hpoints⟩
    rintro rfl
    exact h.tree.root p key hp hpoints
  case parent =>
    intro q hlayer
    obtain ⟨⟨labels, hlabels⟩, hroot⟩ := h.layer_iff.mp hlayer
    cases hlabels with
    | nil => exact absurd rfl hroot
    | @cons labels key p q hbefore hpoints =>
        refine ⟨(p, key), hpoints, fun edge hedge => ?_⟩
        obtain ⟨hparent, hkey⟩ := hrooted.entered (h.isNode_of_points hedge) ⟨labels, hbefore⟩
          hedge hpoints
        exact Prod.ext hparent hkey
  case root => exact fun p key hpoints => h.tree.root p key (h.isNode_of_points hpoints) hpoints
  case reached =>
    intro p hp
    obtain ⟨labels, hlabels⟩ := h.hasNode_iff.mp hp
    exact ⟨labels, hlabels, fun _ hlabels' => hrooted.labels_eq hlabels' hlabels⟩
  case prefixFree =>
    intro p q hp hq
    exact h.tree.prefixFree p q (h.hasNode_iff.mp hp) (h.hasNode_iff.mp hq)

end

section

variable {rows next : Rows} {layer : DirectoryLayerState} {entry : Entry} {path : DirectoryPath}
  {actions : List DirectoryAction}

/-- Whatever one transaction after another has done to a database, the prefixes of its directories
lie apart, but for those in partitions, and the layers keep their rows outside of the
directories. -/
theorem directories_isolated (hrun : Run (DirectoryStep layer) ∅ actions rows) :
    Isolated (directories rows layer.nodeSubspace) :=
  (layerInv_of_run hrun).regular.isolated

theorem directories_isolated_inside : Isolated (directories insideRows sampleLayer.nodeSubspace) :=
  directories_isolated run_insideRows

/-- A database is a tree of paths: every run of it is one of the tree. -/
theorem directories_simulate (hrun : Run (DirectoryStep layer) ∅ actions rows) :
    Run TreeStep
      (fun path => if path = [] then some ⟨layer.nodeSubspace, layer.nodeSubspace, []⟩ else none)
      actions (directories rows layer.nodeSubspace) :=
  (EmptyLayer.empty layer).tree_of_run hrun

theorem directories_simulate_inside : Run TreeStep
    (fun path => if path = [] then some ⟨[0xfe], [0xfe], []⟩ else none)
    [.createOrOpen [text "p"] true false, .createOrOpen [text "p", text "x"] true false]
    (directories insideRows [0xfe]) :=
  directories_simulate run_insideRows

/-- The contents of a directory that is not a partition survive all transactions that do not
remove it or write in it, also where it is moved. -/
theorem contents_survive {before : List DirectoryAction}
    (hreached : Run (DirectoryStep layer) ∅ before rows)
    (hentry : directories rows layer.nodeSubspace path = some entry) (hpath : path ≠ [])
    (hplain : entry.layer ≠ partitionTag)
    (hrun : Run (fun rows action next => DirectoryStep layer rows action next ∧
      Spares layer entry rows action) rows actions next) :
    (∃ path, path ≠ [] ∧ directories next layer.nodeSubspace path = some entry) ∧
      ∀ key, entry.prefixBytes <+: key → next.get? key = rows.get? key := by
  have hinv := layerInv_of_run hreached
  suffices hkept : LayerInv next layer [] ∧
      (∃ path, path ≠ [] ∧ directories next layer.nodeSubspace path = some entry) ∧
        Agree rows next entry.prefixBytes from hkept.2
  induction hrun with
  | nil => exact ⟨hinv, ⟨path, hpath, hentry⟩, fun _ _ => rfl⟩
  | snoc _ hlast ih =>
      obtain ⟨hbefore, ⟨path', hpath', hentry'⟩, hagree⟩ := ih
      obtain ⟨hstep, hspares⟩ := hlast
      have heffect := hstep.effect hbefore
      obtain ⟨hnext, hagree'⟩ := heffect.spares hspares hbefore hpath' hentry' hplain
      exact ⟨heffect.inv hbefore, hnext,
        fun key hkey => (hagree' key hkey).trans (hagree key hkey)⟩

theorem contents_survive_move :
    (∃ path, path ≠ [] ∧ directories movedRows sampleLayer.nodeSubspace path =
      some ⟨[0x15, 0x02, 0xfe], [0x15, 0x02, 0x15, 0x05], []⟩) ∧
    ∀ key, [0x15, 0x02, 0x15, 0x05] <+: key → movedRows.get? key = insideRows.get? key :=
  contents_survive run_insideRows directory_insideRows (by simp) (by decide)
    (.single ⟨step_movedRows, trivial⟩)

/-! ## Calls -/

variable {base oldPath newPath : DirectoryPath} {handle : DirectoryHandle}

/-- A handle stands for its path until what is there or above it is moved or removed. -/
theorem handles_persist {before : List DirectoryAction}
    (hreached : Run (DirectoryStep layer) ∅ before rows) (hholds : Holds rows layer base handle)
    (hrun : Run (fun rows action next => DirectoryStep layer rows action next ∧
      Leaves base action) rows actions next) : Holds next layer base handle := by
  have hinv := layerInv_of_run hreached
  suffices hkept : LayerInv next layer [] ∧ Holds next layer base handle from hkept.2
  induction hrun with
  | nil => exact ⟨hinv, hholds⟩
  | snoc _ hlast ih =>
      obtain ⟨hbefore, hholds'⟩ := ih
      obtain ⟨hstep, hleaves⟩ := hlast
      have heffect := hstep.effect hbefore
      exact ⟨heffect.inv hbefore, heffect.holds hbefore hleaves hholds'⟩

theorem handles_persist_partition :
    Holds insideRows sampleLayer [text "p"] (.ofOutput samplePartition) :=
  handles_persist run_createdRows holds_partition
    (.single ⟨step_insideRows, trivial⟩)

/-- Where a call of a handle creates or opens a directory, it does so at the path behind its own,
and nothing but rows of layers changes. -/
theorem creates_or_opens (hrun : Run (DirectoryStep layer) ∅ actions rows)
    (hholds : Holds rows layer base handle) (path : DirectoryPath)
    (prefixBytes nodeLayer : Option Bytes) (draws : List (Nat × List UInt32)) :
    (∀ output transaction, handle.createOrOpen path prefixBytes nodeLayer ⟨rows, draws⟩ =
        .ok (output, transaction) → CreatesOrOpens rows transaction.rows layer [] (base ++ path)
          prefixBytes nodeLayer true true output) ∧
      (∀ output transaction, handle.create path prefixBytes nodeLayer ⟨rows, draws⟩ =
        .ok (output, transaction) → CreatesOrOpens rows transaction.rows layer [] (base ++ path)
          prefixBytes nodeLayer true false output) ∧
      ∀ output transaction, handle.open' path nodeLayer ⟨rows, draws⟩ =
        .ok (output, transaction) → CreatesOrOpens rows transaction.rows layer [] (base ++ path)
          none nodeLayer false true output := by
  have hwithin := Within.top layer
  have hinv : LayerInv (DirectoryTransaction.mk rows draws).rows layer [] := layerInv_of_run hrun
  have hholds' : Holds (DirectoryTransaction.mk rows draws).rows layer base handle := hholds
  refine ⟨fun output transaction hcall => ?_, fun output transaction hcall => ?_,
    fun output transaction hcall => ?_⟩
  · rw [DirectoryHandle.createOrOpen_eq] at hcall
    exact hholds'.createsOrOpens hwithin hinv hcall
  · rw [DirectoryHandle.create_eq] at hcall
    exact hholds'.createsOrOpens hwithin hinv hcall
  · rw [DirectoryHandle.open_eq] at hcall
    exact hholds'.createsOrOpens hwithin hinv hcall

theorem creates_or_opens_inside : CreatesOrOpens createdRows insideRows sampleLayer []
    [text "p", text "x"] none none true false sampleDirectory :=
  (creates_or_opens run_createdRows holds_partition [text "x"] none none
    [(10, [5, 6, 7, 8])]).2.1 _ ⟨insideRows, []⟩ create_insideRows

/-- A directory is opened exactly where there is one with the layer that is asked for, but no
handle opens the root of a layer. -/
theorem opens_iff (hrun : Run (DirectoryStep layer) ∅ actions rows)
    (hholds : Holds rows layer base handle) (hpath : Accepted (base ++ path))
    (nodeLayer : Option Bytes) (draws : List (Nat × List UInt32)) :
    (∃ output transaction, handle.open' path nodeLayer ⟨rows, draws⟩ =
      .ok (output, transaction)) ↔
    handle.inside.2 ++ path ≠ [] ∧
      ∃ entry, directories rows layer.nodeSubspace (base ++ path) = some entry ∧
        ∀ expected, nodeLayer = some expected → expected ≠ [] → entry.layer = expected := by
  have hholds' : Holds (DirectoryTransaction.mk rows draws).rows layer base handle := hholds
  exact hholds'.open_succeeds_iff (Within.top layer) (layerInv_of_run hrun) hpath

theorem opens_iff_inside : ∃ output transaction, (DirectoryHandle.ofLayer sampleLayer).open'
    [text "p", text "x"] none ⟨insideRows, []⟩ = .ok (output, transaction) :=
  (opens_iff run_insideRows (.layer .self) accepted_inside none []).mpr
    ⟨by simp, _, directory_insideRows, by simp⟩

/-- A handle moves what is below it when it can be moved, and only then, and the moved directory
takes everything below it along. -/
theorem moves_below (hrun : Run (DirectoryStep layer) ∅ actions rows)
    (hholds : Holds rows layer base handle) (hold : Accepted (base ++ oldPath))
    (hnew : Accepted (base ++ newPath)) :
    ((∃ output next, handle.moveTo oldPath newPath rows = .ok (output, next)) ↔
      CanMove rows layer.nodeSubspace (base ++ oldPath) (base ++ newPath)) ∧
    ∀ output next, handle.moveTo oldPath newPath rows = .ok (output, next) →
      Moves rows next layer [] (base ++ oldPath) (base ++ newPath) output :=
  ⟨hholds.moveTo_succeeds_iff (Within.top layer) (layerInv_of_run hrun) hold hnew,
    fun _ _ hcall => hholds.movesTo (Within.top layer) (layerInv_of_run hrun) hcall⟩

theorem moves_below_partition : Moves insideRows movedRows sampleLayer [] [text "p"] [text "q"]
    (.partition sampleLayer [text "q"] (nestedLayer [0x15, 0x02] [text "q"])) :=
  (moves_below run_insideRows (.layer .self) accepted_p accepted_q).2 _ _ moveTo_movedRows

/-- A directory or a partition moves itself to any absolute path of its own layer that is free and
has a parent, and to no other. -/
theorem moves_itself {contents : DirectoryOutput} {absolutePath : DirectoryPath}
    (hrun : Run (DirectoryStep layer) ∅ actions rows)
    (hholds : Holds rows layer base (.ofOutput contents)) (hbase : Accepted base)
    (hpath : Accepted absolutePath) :
    ((∃ output next, contents.move absolutePath rows = .ok (output, next)) ↔
      ∃ newPath, absolutePath = layer.path ++ newPath ∧
        CanMove rows layer.nodeSubspace base newPath) ∧
    ∀ output next, contents.move absolutePath rows = .ok (output, next) →
      ∃ newPath, absolutePath = layer.path ++ newPath ∧
        Moves rows next layer [] base newPath output :=
  ⟨hholds.move_succeeds_iff (Within.top layer) (layerInv_of_run hrun) hbase hpath,
    fun _ _ hcall => hholds.moves_contents (Within.top layer) (layerInv_of_run hrun) hcall⟩

theorem moves_itself_partition :
    ∃ output next, samplePartition.move [text "q"] createdRows = .ok (output, next) :=
  (moves_itself run_createdRows holds_partition accepted_p accepted_q).1.mpr
    ⟨[text "q"], rfl, by simp, by decide, by decide +kernel,
      ⟨[0xfe], [0x15, 0x02], partitionTag⟩, ⟨[0xfe], [0xfe], []⟩, by decide +kernel,
      by decide +kernel, by decide⟩

/-- A removal ends, fails at the root of a layer and, where the directory must exist, without one;
it takes the directory with all below it out of the tree and clears their contents, and those of
no other directory that is not a partition. -/
theorem removes_below (hrun : Run (DirectoryStep layer) ∅ actions rows)
    (hholds : Holds rows layer base handle) (hpath : Accepted (base ++ path)) :
    ((∃ removed next, handle.remove path rows = .ok (removed, next)) ↔
      (handle.subject path).2 ≠ [] ∧ directories rows layer.nodeSubspace (base ++ path) ≠ none) ∧
    ((∃ removed next, handle.removeIfExists path rows = .ok (removed, next)) ↔
      (handle.subject path).2 ≠ []) ∧
    (∀ removed next, handle.remove path rows = .ok (removed, next) →
      RemovesAt rows next layer [] (base ++ path) true removed) ∧
    ∀ removed next, handle.removeIfExists path rows = .ok (removed, next) →
      RemovesAt rows next layer [] (base ++ path) false removed := by
  have hwithin := Within.top layer
  have hinv := layerInv_of_run hrun
  have hiff (failIfMissing : Bool) := hholds.removes_iff failIfMissing hwithin hinv hpath
  simp only [DirectoryHandle.remove_eq, DirectoryHandle.removeIfExists_eq,
    DirectoryLayerState.remove, DirectoryLayerState.removeIfExists]
  refine ⟨?_, ?_, fun _ _ hcall => hholds.removesAt hwithin hinv hcall,
    fun _ _ hcall => hholds.removesAt hwithin hinv hcall⟩
  · rw [hiff true]
    simp
  · rw [hiff false]
    simp

theorem removes_below_partition : ∃ removed next,
    (DirectoryHandle.ofOutput samplePartition).remove [] createdRows = .ok (removed, next) :=
  (removes_below run_createdRows holds_partition accepted_partition).1.mpr
    ⟨by decide, by decide +kernel⟩

/-- `exists` and `list` tell what is in the tree of paths: a list has the names of the children
in the order of their bytes, each once. -/
theorem reads_tree (hrun : Run (DirectoryStep layer) ∅ actions rows)
    (hholds : Holds rows layer base handle) (hpath : Accepted (base ++ path)) :
    handle.exists' path rows =
        .ok (directories rows layer.nodeSubspace (base ++ path)).isSome ∧
      Lists rows layer.nodeSubspace (base ++ path) (handle.list path rows) :=
  ⟨hholds.exists_eq (Within.top layer) (layerInv_of_run hrun) hpath,
    hholds.lists (Within.top layer) (layerInv_of_run hrun) hpath⟩

theorem reads_tree_partition :
    (DirectoryHandle.ofOutput samplePartition).exists' [] createdRows = .ok true ∧
      Lists createdRows [0xfe] [text "p"]
        ((DirectoryHandle.ofOutput samplePartition).list [] createdRows) :=
  reads_tree run_createdRows holds_partition accepted_partition

end

end FoundationDbEffect.Directory
