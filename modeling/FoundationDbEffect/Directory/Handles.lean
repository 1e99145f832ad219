import FoundationDbEffect.Directory.Outcomes

/-!
# Handles of directories

A layer, a directory and a partition offer the same operations.  A directory asks the layer that
holds it, with its own path in front; a partition asks the layer inside it, and the layer around
it where it is itself the subject.  A handle that stands for a path of the database does what the
layer at hand does at the path behind it.
-/

namespace FoundationDbEffect.Directory

open FoundationDbEffect.Foundation FoundationDbEffect.TupleLayer
open FoundationDbEffect.Foundation.ByteOrder

/-! ## The layer -/

namespace DirectoryLayerState

variable (layer : DirectoryLayerState) (path oldPath newPath : DirectoryPath)
  (prefixBytes nodeLayer : Option Bytes) (transaction : DirectoryTransaction) (rows : Rows)

def createOrOpen : Except DirectoryFailure (DirectoryOutput × DirectoryTransaction) :=
  createOrOpenInternal (path.length + 1) layer path prefixBytes nodeLayer true true transaction

def create : Except DirectoryFailure (DirectoryOutput × DirectoryTransaction) :=
  createOrOpenInternal (path.length + 1) layer path prefixBytes nodeLayer true false transaction

def open' : Except DirectoryFailure (DirectoryOutput × DirectoryTransaction) :=
  createOrOpenInternal (path.length + 1) layer path none nodeLayer false true transaction

def exists' : Except DirectoryFailure Bool := existsInternal rows (path.length + 1) layer path

def list : Except DirectoryFailure (List CodeUnits) :=
  listInternal rows (path.length + 2) layer path

def move (_layer : DirectoryLayerState) (_newAbsolutePath : DirectoryPath) (_rows : Rows) :
    Except DirectoryFailure (DirectoryOutput × Rows) :=
  .error (error .cannotMoveRootDirectory "the root directory cannot be moved")

def moveTo : Except DirectoryFailure (DirectoryOutput × Rows) :=
  moveInternal (oldPath.length + 1) layer oldPath newPath rows

def remove : Except DirectoryFailure (Bool × Rows) :=
  removeInternal (path.length + 1) layer path true rows

def removeIfExists : Except DirectoryFailure (Bool × Rows) :=
  removeInternal (path.length + 1) layer path false rows

end DirectoryLayerState

/-! ## Directories and partitions -/

def relativePath (layer : DirectoryLayerState) (absolutePath : DirectoryPath) :
    Except DirectoryFailure DirectoryPath :=
  if pathStartsWith absolutePath layer.path then .ok (absolutePath.drop layer.path.length)
  else .error (error .cannotMoveBetweenPartitions
    "destination is outside the current directory partition")

namespace DirectoryOutput

variable (output : DirectoryOutput) (path oldPath newPath newAbsolutePath : DirectoryPath)
  (prefixBytes nodeLayer : Option Bytes) (transaction : DirectoryTransaction) (rows : Rows)

def createOrOpen : Except DirectoryFailure (DirectoryOutput × DirectoryTransaction) :=
  match output with
  | .subspace directoryLayer relativePath _ _ =>
    directoryLayer.createOrOpen (relativePath ++ path) prefixBytes nodeLayer transaction
  | .partition _ _ directoryLayer =>
    directoryLayer.createOrOpen path prefixBytes nodeLayer transaction

def create : Except DirectoryFailure (DirectoryOutput × DirectoryTransaction) :=
  match output with
  | .subspace directoryLayer relativePath _ _ =>
    directoryLayer.create (relativePath ++ path) prefixBytes nodeLayer transaction
  | .partition _ _ directoryLayer => directoryLayer.create path prefixBytes nodeLayer transaction

def open' : Except DirectoryFailure (DirectoryOutput × DirectoryTransaction) :=
  match output with
  | .subspace directoryLayer relativePath _ _ =>
    directoryLayer.open' (relativePath ++ path) nodeLayer transaction
  | .partition _ _ directoryLayer => directoryLayer.open' path nodeLayer transaction

def exists' : Except DirectoryFailure Bool :=
  match output with
  | .subspace directoryLayer relativePath _ _ => directoryLayer.exists' (relativePath ++ path) rows
  | .partition parentLayer parentRelativePath directoryLayer =>
    if path.length = 0 then parentLayer.exists' parentRelativePath rows
    else directoryLayer.exists' path rows

def list : Except DirectoryFailure (List CodeUnits) :=
  match output with
  | .subspace directoryLayer relativePath _ _ => directoryLayer.list (relativePath ++ path) rows
  | .partition _ _ directoryLayer => directoryLayer.list path rows

def move : Except DirectoryFailure (DirectoryOutput × Rows) :=
  match output with
  | .subspace directoryLayer path _ _ => do
    let newPath ← relativePath directoryLayer newAbsolutePath
    directoryLayer.moveTo path newPath rows
  | .partition parentLayer parentRelativePath _ => do
    let newPath ← relativePath parentLayer newAbsolutePath
    parentLayer.moveTo parentRelativePath newPath rows

def moveTo : Except DirectoryFailure (DirectoryOutput × Rows) :=
  match output with
  | .subspace directoryLayer relativePath _ _ =>
    directoryLayer.moveTo (relativePath ++ oldPath) (relativePath ++ newPath) rows
  | .partition _ _ directoryLayer => directoryLayer.moveTo oldPath newPath rows

def remove : Except DirectoryFailure (Bool × Rows) :=
  match output with
  | .subspace directoryLayer relativePath _ _ => directoryLayer.remove (relativePath ++ path) rows
  | .partition parentLayer parentRelativePath directoryLayer =>
    if path.length = 0 then parentLayer.remove parentRelativePath rows
    else directoryLayer.remove path rows

def removeIfExists : Except DirectoryFailure (Bool × Rows) :=
  match output with
  | .subspace directoryLayer relativePath _ _ =>
    directoryLayer.removeIfExists (relativePath ++ path) rows
  | .partition parentLayer parentRelativePath directoryLayer =>
    if path.length = 0 then parentLayer.removeIfExists parentRelativePath rows
    else directoryLayer.removeIfExists path rows

end DirectoryOutput

/-! ## The interface -/

inductive DirectoryHandle where
  | ofLayer (directoryLayer : DirectoryLayerState)
  | ofOutput (output : DirectoryOutput)
  deriving DecidableEq, Repr

namespace DirectoryHandle

variable (handle : DirectoryHandle) (path oldPath newPath newAbsolutePath : DirectoryPath)
  (prefixBytes nodeLayer : Option Bytes) (transaction : DirectoryTransaction) (rows : Rows)

def createOrOpen : Except DirectoryFailure (DirectoryOutput × DirectoryTransaction) :=
  match handle with
  | .ofLayer directoryLayer => directoryLayer.createOrOpen path prefixBytes nodeLayer transaction
  | .ofOutput output => output.createOrOpen path prefixBytes nodeLayer transaction

def create : Except DirectoryFailure (DirectoryOutput × DirectoryTransaction) :=
  match handle with
  | .ofLayer directoryLayer => directoryLayer.create path prefixBytes nodeLayer transaction
  | .ofOutput output => output.create path prefixBytes nodeLayer transaction

def open' : Except DirectoryFailure (DirectoryOutput × DirectoryTransaction) :=
  match handle with
  | .ofLayer directoryLayer => directoryLayer.open' path nodeLayer transaction
  | .ofOutput output => output.open' path nodeLayer transaction

def exists' : Except DirectoryFailure Bool :=
  match handle with
  | .ofLayer directoryLayer => directoryLayer.exists' path rows
  | .ofOutput output => output.exists' path rows

def list : Except DirectoryFailure (List CodeUnits) :=
  match handle with
  | .ofLayer directoryLayer => directoryLayer.list path rows
  | .ofOutput output => output.list path rows

def move : Except DirectoryFailure (DirectoryOutput × Rows) :=
  match handle with
  | .ofLayer directoryLayer => directoryLayer.move newAbsolutePath rows
  | .ofOutput output => output.move newAbsolutePath rows

def moveTo : Except DirectoryFailure (DirectoryOutput × Rows) :=
  match handle with
  | .ofLayer directoryLayer => directoryLayer.moveTo oldPath newPath rows
  | .ofOutput output => output.moveTo oldPath newPath rows

def remove : Except DirectoryFailure (Bool × Rows) :=
  match handle with
  | .ofLayer directoryLayer => directoryLayer.remove path rows
  | .ofOutput output => output.remove path rows

def removeIfExists : Except DirectoryFailure (Bool × Rows) :=
  match handle with
  | .ofLayer directoryLayer => directoryLayer.removeIfExists path rows
  | .ofOutput output => output.removeIfExists path rows

def inside : DirectoryHandle → DirectoryLayerState × DirectoryPath
  | .ofLayer directoryLayer => (directoryLayer, [])
  | .ofOutput (.subspace directoryLayer relativePath _ _) => (directoryLayer, relativePath)
  | .ofOutput (.partition _ _ directoryLayer) => (directoryLayer, [])

/-- The layer that is asked about a path, and the path that it is asked about. -/
def subject (handle : DirectoryHandle) (path : DirectoryPath) :
    DirectoryLayerState × DirectoryPath :=
  match handle with
  | .ofOutput (.partition parentLayer parentRelativePath directoryLayer) =>
    if path = [] then (parentLayer, parentRelativePath) else (directoryLayer, path)
  | _ => (handle.inside.1, handle.inside.2 ++ path)

end DirectoryHandle

inductive Holds (rows : Rows) (layer : DirectoryLayerState) : DirectoryPath → DirectoryHandle → Prop
    where
  | layer {front : DirectoryPath} {inner : DirectoryLayerState} (h : Stands rows layer front inner) :
      Holds rows layer front (.ofLayer inner)
  | output {path : DirectoryPath} {output : DirectoryOutput} (h : Handles rows layer path output) :
      Holds rows layer path (.ofOutput output)

section

variable {rows next : Rows} {layer inner : DirectoryLayerState} {head : Bytes}
  {front path base oldPath newPath : DirectoryPath} {output : DirectoryOutput}
  {handle : DirectoryHandle}

theorem Holds.inside (h : Holds rows layer base handle) :
    ∃ front, Stands rows layer front handle.inside.1 ∧ base = front ++ handle.inside.2 := by
  cases h with
  | layer h => exact ⟨_, h, (List.append_nil _).symm⟩
  | output h =>
      cases h with
      | subspace h => exact ⟨_, h, rfl⟩
      | partition h hp hpartition => exact ⟨_, h.nested hp hpartition, (List.append_nil _).symm⟩

theorem Holds.subject (h : Holds rows layer base handle) (path : DirectoryPath) :
    ∃ front, Stands rows layer front (handle.subject path).1 ∧
      base ++ path = front ++ (handle.subject path).2 ∧
      ((handle.subject path).2 = [] → front = base ∧ path = []) := by
  cases h with
  | layer h => exact ⟨_, h, rfl, fun hnil => ⟨rfl, hnil⟩⟩
  | output h =>
      cases h with
      | subspace h hrest =>
          refine ⟨_, h, List.append_assoc _ _ _, fun hnil => absurd ?_ hrest⟩
          exact (List.append_eq_nil_iff.mp hnil).1
      | partition h hp hpartition =>
          rw [DirectoryHandle.subject]
          split_ifs with hpath
          · refine ⟨_, h, by rw [hpath, List.append_nil], fun hnil => absurd hnil ?_⟩
            exact hp.ne_nil hpartition
          · exact ⟨_, h.nested hp hpartition, rfl, fun hnil => absurd hnil hpath⟩

theorem Holds.subject_ne_nil {contents : DirectoryOutput}
    (h : Holds rows layer base (.ofOutput contents)) :
    ((DirectoryHandle.ofOutput contents).subject []).2 ≠ [] := by
  cases h with
  | output h =>
      cases h with
      | subspace _ hrest => simpa [DirectoryHandle.subject, DirectoryHandle.inside] using hrest
      | partition _ hp hpartition => simpa [DirectoryHandle.subject] using hp.ne_nil hpartition

/-- What a layer behind partitions does is what the layer at hand does, when that is so for one
partition. -/
theorem Stands.rule {P : DirectoryLayerState → Bytes → DirectoryPath → Prop}
    (h : Stands rows layer front inner) (hwithin : Within layer head)
    (hinv : LayerInv rows layer head)
    (hlift : ∀ layer head front p rest, LayerInv rows layer head →
      Reached rows layer.nodeSubspace front p → IsPartition rows layer.nodeSubspace p →
      P (nestedLayer p (layer.path ++ front)) p rest → P layer head (front ++ rest))
    (hcall : ∀ head, Within inner head → LayerInv rows inner head → P inner head path) :
    P layer head (front ++ path) := by
  induction h generalizing path with
  | self => exact hcall head hwithin hinv
  | @nested inner front rest p h hp hpartition ih =>
      rw [List.append_assoc]
      refine ih fun head hwithin hinv => ?_
      exact hlift _ _ _ _ _ hinv hp hpartition
        (hcall p (Within.nested p _) (hinv.nested hp.isNode hpartition _))

theorem Stands.inv (h : Stands rows layer front inner) (hwithin : Within layer head)
    (hinv : LayerInv rows layer head) : ∃ head, Within inner head ∧ LayerInv rows inner head := by
  induction h with
  | self => exact ⟨head, hwithin, hinv⟩
  | nested h hp hpartition ih =>
      obtain ⟨head', -, hinv'⟩ := ih
      exact ⟨_, Within.nested _ _, hinv'.nested hp.isNode hpartition _⟩

theorem Stands.directories_eq (h : Stands rows layer front inner) (hwithin : Within layer head)
    (hinv : LayerInv rows layer head) (hpath : path ≠ []) :
    directories rows layer.nodeSubspace (front ++ path) =
      directories rows inner.nodeSubspace path := by
  induction h generalizing path with
  | self => rfl
  | @nested inner front rest p h hp hpartition ih =>
      obtain ⟨head', -, hinv'⟩ := h.inv hwithin hinv
      rw [List.append_assoc, ih (by simp [hpath]),
        directories_partition hinv'.regular hp hpartition hpath]
      rfl

theorem stands_iff (hwithin : Within layer head) (hinv : LayerInv rows layer head) :
    Stands rows layer front inner ↔ (front = [] ∧ inner = layer) ∨
      ∃ entry, directories rows layer.nodeSubspace front = some entry ∧
        entry.layer = partitionTag ∧
        inner = nestedLayer entry.prefixBytes (layer.path ++ front) := by
  constructor
  · intro h
    cases h with
    | self => exact .inl ⟨rfl, rfl⟩
    | @nested inner front rest p h hp hpartition =>
        refine .inr ⟨_, ?_, entryOf_layer_eq.mpr hpartition.layer, ?_⟩
        · rw [h.directories_eq hwithin hinv (hp.ne_nil hpartition), directories, hp.follow_eq]
        · rw [h.path_eq, List.append_assoc]
          rfl
  · rintro (⟨rfl, rfl⟩ | ⟨entry, hentry, hlayer, rfl⟩)
    · exact .self
    · have hfound := (directories_eq_some hinv.regular).mp hentry
      clear hentry hwithin
      generalize hnodes : layer.nodeSubspace = nodeSubspace at hfound
      induction hfound generalizing layer head with
      | @inLayer nodeSubspace p path hp =>
          subst hnodes
          have hpartition := entryOf_layer_eq.mp hlayer
          have hroot : p ≠ layer.nodeSubspace := by
            rintro rfl
            exact hinv.regular.regularRows.plain_root hpartition
          exact hp.stands ⟨hroot, hpartition⟩
      | @inPartition nodeSubspace p front rest entry hp hpartition hrest _ ih =>
          subst hnodes
          have hstands := ih (hinv.nested hp.isNode hpartition (layer.path ++ front)) hlayer rfl
          have hpath : layer.path ++ (front ++ rest) =
              (nestedLayer p (layer.path ++ front)).path ++ rest := (List.append_assoc _ _ _).symm
          rw [hpath]
          exact hstands.lift hp hpartition

/-! ## Calls behind partitions -/

variable {transaction transaction' : DirectoryTransaction} {prefixBytes nodeLayer : Option Bytes}
  {allowCreate allowOpen failIfMissing removed : Bool} {fuel : Nat}

theorem Stands.createsOrOpens (h : Stands transaction.rows layer front inner)
    (hwithin : Within layer head) (hinv : LayerInv transaction.rows layer head)
    (hcall : createOrOpenInternal fuel inner path prefixBytes nodeLayer allowCreate allowOpen
      transaction = .ok (output, transaction')) :
    CreatesOrOpens transaction.rows transaction'.rows layer head (front ++ path) prefixBytes
      nodeLayer allowCreate allowOpen output :=
  h.rule (P := fun layer head path => CreatesOrOpens transaction.rows transaction'.rows layer head
      path prefixBytes nodeLayer allowCreate allowOpen output) hwithin hinv
    (fun _ _ _ _ _ hinv hp hpartition heffect => heffect.lift hinv hp hpartition)
    fun _ hwithin hinv => createOrOpenInternal_effect hwithin hinv hcall

theorem Stands.removesAt (h : Stands rows layer front inner) (hwithin : Within layer head)
    (hinv : LayerInv rows layer head)
    (hcall : removeInternal fuel inner path failIfMissing rows = .ok (removed, next)) :
    RemovesAt rows next layer head (front ++ path) failIfMissing removed :=
  h.rule (P := fun layer head path => RemovesAt rows next layer head path failIfMissing removed)
    hwithin hinv (fun _ _ _ _ _ hinv hp hpartition heffect => heffect.lift hinv hp hpartition)
    fun _ hwithin hinv => removeInternal_effect hwithin hinv hcall

theorem Stands.moves (h : Stands rows layer front inner) (hwithin : Within layer head)
    (hinv : LayerInv rows layer head)
    (hcall : moveInternal fuel inner oldPath newPath rows = .ok (output, next)) :
    Moves rows next layer head (front ++ oldPath) (front ++ newPath) output := by
  have heffect : Moves rows next layer head (front ++ [] ++ oldPath) (front ++ [] ++ newPath)
      output := by
    refine h.rule (P := fun layer head path => Moves rows next layer head (path ++ oldPath)
      (path ++ newPath) output) hwithin hinv (fun _ _ front _ rest hinv hp hpartition heffect => ?_)
      fun _ hwithin hinv => moveInternal_effect hwithin hinv hcall
    rw [List.append_assoc, List.append_assoc]
    exact heffect.lift hinv hp hpartition
  simpa only [List.append_nil] using heffect

/-! ## Calls of handles -/

theorem Holds.createsOrOpens (h : Holds transaction.rows layer base handle)
    (hwithin : Within layer head) (hinv : LayerInv transaction.rows layer head)
    (hcall : createOrOpenInternal fuel handle.inside.1 (handle.inside.2 ++ path) prefixBytes
      nodeLayer allowCreate allowOpen transaction = .ok (output, transaction')) :
    CreatesOrOpens transaction.rows transaction'.rows layer head (base ++ path) prefixBytes
      nodeLayer allowCreate allowOpen output := by
  obtain ⟨front, hfront, rfl⟩ := h.inside
  rw [List.append_assoc]
  exact hfront.createsOrOpens hwithin hinv hcall

theorem relativePath_eq_ok {absolutePath newPath : DirectoryPath} :
    relativePath layer absolutePath = .ok newPath ↔ absolutePath = layer.path ++ newPath := by
  rw [relativePath]
  constructor
  · intro h
    split_ifs at h with hle
    obtain ⟨rest, rfl⟩ := List.isPrefixOf_iff_prefix.mp hle
    rw [List.drop_left, Except.ok.injEq] at h
    rw [h]
  · rintro rfl
    have hle : pathStartsWith (layer.path ++ newPath) layer.path = true :=
      List.isPrefixOf_iff_prefix.mpr (List.prefix_append _ _)
    rw [if_pos hle, List.drop_left]

namespace DirectoryHandle

theorem createOrOpen_eq : handle.createOrOpen path prefixBytes nodeLayer transaction =
    handle.inside.1.createOrOpen (handle.inside.2 ++ path) prefixBytes nodeLayer transaction := by
  rcases handle with directoryLayer | output
  · rfl
  · cases output <;> rfl

theorem create_eq : handle.create path prefixBytes nodeLayer transaction =
    handle.inside.1.create (handle.inside.2 ++ path) prefixBytes nodeLayer transaction := by
  rcases handle with directoryLayer | output
  · rfl
  · cases output <;> rfl

theorem open_eq : handle.open' path nodeLayer transaction =
    handle.inside.1.open' (handle.inside.2 ++ path) nodeLayer transaction := by
  rcases handle with directoryLayer | output
  · rfl
  · cases output <;> rfl

theorem list_eq : handle.list path rows = handle.inside.1.list (handle.inside.2 ++ path) rows := by
  rcases handle with directoryLayer | output
  · rfl
  · cases output <;> rfl

theorem moveTo_eq : handle.moveTo oldPath newPath rows =
    handle.inside.1.moveTo (handle.inside.2 ++ oldPath) (handle.inside.2 ++ newPath) rows := by
  rcases handle with directoryLayer | output
  · rfl
  · cases output <;> rfl

theorem exists_eq : handle.exists' path rows =
    (handle.subject path).1.exists' (handle.subject path).2 rows := by
  rcases handle with directoryLayer | output
  · rfl
  · cases output
    · rfl
    · cases path <;> rfl

theorem remove_eq : handle.remove path rows =
    (handle.subject path).1.remove (handle.subject path).2 rows := by
  rcases handle with directoryLayer | output
  · rfl
  · cases output
    · rfl
    · cases path <;> rfl

theorem removeIfExists_eq : handle.removeIfExists path rows =
    (handle.subject path).1.removeIfExists (handle.subject path).2 rows := by
  rcases handle with directoryLayer | output
  · rfl
  · cases output
    · rfl
    · cases path <;> rfl

theorem move_eq (absolutePath : DirectoryPath) : handle.move absolutePath rows =
    match handle with
    | .ofLayer directoryLayer => directoryLayer.move absolutePath rows
    | .ofOutput _ => relativePath (handle.subject []).1 absolutePath >>=
        fun newPath => (handle.subject []).1.moveTo (handle.subject []).2 newPath rows := by
  rcases handle with directoryLayer | output
  · rfl
  · cases output
    · simp only [subject, inside, List.append_nil]
      rfl
    · rfl

end DirectoryHandle

theorem Holds.removesAt (h : Holds rows layer base handle) (hwithin : Within layer head)
    (hinv : LayerInv rows layer head)
    (hcall : removeInternal fuel (handle.subject path).1 (handle.subject path).2 failIfMissing rows =
      .ok (removed, next)) :
    RemovesAt rows next layer head (base ++ path) failIfMissing removed := by
  obtain ⟨front, hfront, heq, -⟩ := h.subject path
  rw [heq]
  exact hfront.removesAt hwithin hinv hcall

theorem Holds.movesTo (h : Holds rows layer base handle) (hwithin : Within layer head)
    (hinv : LayerInv rows layer head)
    (hcall : handle.moveTo oldPath newPath rows = .ok (output, next)) :
    Moves rows next layer head (base ++ oldPath) (base ++ newPath) output := by
  obtain ⟨front, hfront, rfl⟩ := h.inside
  rw [DirectoryHandle.moveTo_eq] at hcall
  rw [List.append_assoc, List.append_assoc]
  exact hfront.moves hwithin hinv hcall

theorem Holds.moves {absolutePath : DirectoryPath} (h : Holds rows layer base handle)
    (hwithin : Within layer head) (hinv : LayerInv rows layer head)
    (hcall : handle.move absolutePath rows = .ok (output, next)) :
    ∃ newPath, absolutePath = layer.path ++ newPath ∧
      Moves rows next layer head base newPath output := by
  rw [DirectoryHandle.move_eq] at hcall
  rcases handle with directoryLayer | contents
  · cases hcall
  · obtain ⟨newPath, hrelative, hcall⟩ := bind_eq_ok.mp hcall
    obtain ⟨front, hfront, heq, -⟩ := h.subject []
    rw [List.append_nil] at heq
    rw [relativePath_eq_ok, hfront.path_eq, List.append_assoc] at hrelative
    refine ⟨front ++ newPath, hrelative, ?_⟩
    rw [heq]
    exact hfront.moves hwithin hinv hcall

theorem Holds.moves_contents {contents : DirectoryOutput} {absolutePath : DirectoryPath}
    (h : Holds rows layer base (.ofOutput contents)) (hwithin : Within layer head)
    (hinv : LayerInv rows layer head)
    (hcall : contents.move absolutePath rows = .ok (output, next)) :
    ∃ newPath, absolutePath = layer.path ++ newPath ∧
      Moves rows next layer head base newPath output := by
  have hcall' : (DirectoryHandle.ofOutput contents).move absolutePath rows = .ok (output, next) :=
    hcall
  exact h.moves hwithin hinv hcall'

/-! ## When calls of handles succeed -/

theorem Stands.canMove (h : Stands rows layer front inner) (hwithin : Within layer head)
    (hinv : LayerInv rows layer head)
    (hcan : CanMove rows layer.nodeSubspace (front ++ oldPath) newPath) (hold : oldPath ≠ []) :
    ∃ rest, newPath = front ++ rest ∧ CanMove rows inner.nodeSubspace oldPath rest := by
  induction h generalizing oldPath with
  | self => exact ⟨newPath, rfl, hcan⟩
  | @nested inner front middle p h hp hpartition ih =>
      obtain ⟨head', -, hinv'⟩ := h.inv hwithin hinv
      rw [List.append_assoc] at hcan
      obtain ⟨rest, rfl, hcan'⟩ := ih hcan (by simp [hold])
      obtain ⟨rest', rfl, -, hinner⟩ := hcan'.through hinv'.regular hp hpartition hold
      exact ⟨rest', (List.append_assoc _ _ _).symm, hinner⟩

theorem Moves.canMove (h : Moves rows next layer head oldPath newPath output) :
    CanMove rows layer.nodeSubspace oldPath newPath := by
  obtain ⟨parent, hparent, hinner⟩ := h.parent
  exact ⟨h.nonempty, h.outside, h.missing, _, parent, h.found, hparent, hinner⟩

/-- A layer behind partitions moves what the layer at hand moves. -/
theorem Stands.moveTo_succeeds_iff (h : Stands rows layer front inner) (hwithin : Within layer head)
    (hinv : LayerInv rows layer head) (hold : Accepted oldPath) (hnew : Accepted newPath) :
    (∃ output next, inner.moveTo oldPath newPath rows = .ok (output, next)) ↔
      oldPath ≠ [] ∧ CanMove rows layer.nodeSubspace (front ++ oldPath) (front ++ newPath) := by
  obtain ⟨head', hwithin', hinv'⟩ := h.inv hwithin hinv
  have hiff := move_succeeds_iff hwithin' hinv' hold hnew (Nat.lt_succ_self oldPath.length)
  constructor
  · rintro ⟨output, next, hcall⟩
    exact ⟨(hiff.mp ⟨output, next, hcall⟩).nonempty, (h.moves hwithin hinv hcall).canMove⟩
  · rintro ⟨hne, hcan⟩
    obtain ⟨rest, hrest, hcan'⟩ := h.canMove hwithin hinv hcan hne
    obtain rfl := List.append_cancel_left hrest
    exact hiff.mpr hcan'

theorem Holds.moveTo_succeeds_iff (h : Holds rows layer base handle) (hwithin : Within layer head)
    (hinv : LayerInv rows layer head) (hold : Accepted (base ++ oldPath))
    (hnew : Accepted (base ++ newPath)) :
    (∃ output next, handle.moveTo oldPath newPath rows = .ok (output, next)) ↔
      CanMove rows layer.nodeSubspace (base ++ oldPath) (base ++ newPath) := by
  obtain ⟨front, hfront, rfl⟩ := h.inside
  rw [List.append_assoc] at hold hnew
  rw [DirectoryHandle.moveTo_eq, hfront.moveTo_succeeds_iff hwithin hinv hold.right hnew.right,
    List.append_assoc, List.append_assoc]
  refine and_iff_right_of_imp fun hcan hnil => ?_
  -- What the handle stands for is no target inside itself.
  rw [List.append_eq_nil_iff] at hnil
  obtain ⟨hinside, rfl⟩ := hnil
  rw [hinside, List.nil_append, List.append_nil, List.nil_append] at hcan
  exact hcan.outside (List.prefix_append _ _)

theorem Holds.move_succeeds_iff {contents : DirectoryOutput} {absolutePath : DirectoryPath}
    (h : Holds rows layer base (.ofOutput contents)) (hwithin : Within layer head)
    (hinv : LayerInv rows layer head) (hbase : Accepted base) (hpath : Accepted absolutePath) :
    (∃ output next, contents.move absolutePath rows = .ok (output, next)) ↔
      ∃ newPath, absolutePath = layer.path ++ newPath ∧
        CanMove rows layer.nodeSubspace base newPath := by
  constructor
  · rintro ⟨output, next, hcall⟩
    obtain ⟨newPath, heq, hmoves⟩ := h.moves_contents hwithin hinv hcall
    exact ⟨newPath, heq, hmoves.canMove⟩
  · rintro ⟨newPath, rfl, hcan⟩
    have hne := h.subject_ne_nil
    obtain ⟨front, hfront, heq, -⟩ := h.subject []
    rw [List.append_nil] at heq
    rw [heq] at hcan hbase
    obtain ⟨rest, rfl, -⟩ := hfront.canMove hwithin hinv hcan hne
    obtain ⟨output, next, hcall⟩ := (hfront.moveTo_succeeds_iff hwithin hinv hbase.right
      hpath.right.right).mpr ⟨hne, hcan⟩
    have hrelative : relativePath ((DirectoryHandle.ofOutput contents).subject []).1
        (layer.path ++ (front ++ rest)) = .ok rest := by
      rw [relativePath_eq_ok, hfront.path_eq, List.append_assoc]
    have hmove : (DirectoryHandle.ofOutput contents).move (layer.path ++ (front ++ rest)) rows =
        .ok (output, next) := by
      rw [DirectoryHandle.move_eq]
      dsimp only
      rw [hrelative]
      exact hcall
    exact ⟨output, next, hmove⟩

theorem Holds.removes_iff (h : Holds rows layer base handle) (failIfMissing : Bool)
    (hwithin : Within layer head)
    (hinv : LayerInv rows layer head) (hpath : Accepted (base ++ path)) :
    (∃ removed next, removeInternal ((handle.subject path).2.length + 1) (handle.subject path).1
      (handle.subject path).2 failIfMissing rows = .ok (removed, next)) ↔
    (handle.subject path).2 ≠ [] ∧
      (failIfMissing = true → directories rows layer.nodeSubspace (base ++ path) ≠ none) := by
  obtain ⟨front, hfront, heq, -⟩ := h.subject path
  obtain ⟨head', hwithin', hinv'⟩ := hfront.inv hwithin hinv
  rw [heq] at hpath
  rw [remove_succeeds_iff hwithin' hinv' hpath.right (Nat.lt_succ_self _), heq]
  refine and_congr_right fun hne => ?_
  rw [hfront.directories_eq hwithin hinv hne]

theorem Holds.open_succeeds_iff (h : Holds transaction.rows layer base handle)
    (hwithin : Within layer head) (hinv : LayerInv transaction.rows layer head)
    (hpath : Accepted (base ++ path)) :
    (∃ output transaction', handle.open' path nodeLayer transaction = .ok (output, transaction')) ↔
      handle.inside.2 ++ path ≠ [] ∧
        ∃ entry, directories transaction.rows layer.nodeSubspace (base ++ path) = some entry ∧
          ∀ expected, nodeLayer = some expected → expected ≠ [] → entry.layer = expected := by
  obtain ⟨front, hfront, rfl⟩ := h.inside
  obtain ⟨head', hwithin', hinv'⟩ := hfront.inv hwithin hinv
  rw [List.append_assoc] at hpath ⊢
  rw [DirectoryHandle.open_eq, DirectoryLayerState.open',
    Directory.open_succeeds_iff hwithin' hinv' hpath.right (Nat.lt_succ_self _)]
  refine and_congr_right fun hne => ?_
  rw [hfront.directories_eq hwithin hinv hne]

/-! ## Reading -/

theorem Stands.directories_ne_none (h : Stands rows layer front inner) (hwithin : Within layer head)
    (hinv : LayerInv rows layer head) : directories rows layer.nodeSubspace front ≠ none := by
  cases h with
  | self => exact Option.some_ne_none _
  | nested h hp hpartition =>
      rw [h.directories_eq hwithin hinv (hp.ne_nil hpartition), directories, hp.follow_eq]
      exact Option.some_ne_none _

theorem Holds.exists_eq (h : Holds rows layer base handle) (hwithin : Within layer head)
    (hinv : LayerInv rows layer head) (hpath : Accepted (base ++ path)) :
    handle.exists' path rows =
      .ok (directories rows layer.nodeSubspace (base ++ path)).isSome := by
  obtain ⟨front, hfront, heq, hnil⟩ := h.subject path
  obtain ⟨head', -, hinv'⟩ := hfront.inv hwithin hinv
  rw [heq] at hpath
  rw [DirectoryHandle.exists_eq, DirectoryLayerState.exists',
    existsInternal_eq hinv'.regular hpath.right (Nat.lt_succ_self _), heq]
  by_cases hne : (handle.subject path).2 = []
  · rw [hne, List.append_nil,
      Option.isSome_iff_ne_none.mpr (hfront.directories_ne_none hwithin hinv)]
    rfl
  · rw [hfront.directories_eq hwithin hinv hne]

theorem Holds.lists (h : Holds rows layer base handle) (hwithin : Within layer head)
    (hinv : LayerInv rows layer head) (hpath : Accepted (base ++ path)) :
    Lists rows layer.nodeSubspace (base ++ path) (handle.list path rows) := by
  obtain ⟨front, hfront, rfl⟩ := h.inside
  rw [List.append_assoc] at hpath ⊢
  rw [DirectoryHandle.list_eq]
  exact hfront.rule (P := fun layer _ path => Lists rows layer.nodeSubspace path
      (handle.inside.1.list (handle.inside.2 ++ _) rows)) hwithin hinv
    (fun _ _ _ _ _ hinv hp hpartition hlists => hlists.lift hinv.regular hp hpartition)
    fun _ _ hinv => listInternal_lists hinv.regular hpath.right (Nat.lt_succ_self _)

end

end FoundationDbEffect.Directory
