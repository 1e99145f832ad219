import FoundationDbEffect.Directory.Metadata

/-!
# The directory engine

Every operation runs in a transaction of its own on the rows of the database.  A path is
followed from the root of a layer and stops at the first partition; the rest of it is the
business of the layer inside that partition, whose nodes and directories lie under the prefix
of the partition.  A failed operation leaves no writes.
-/

namespace FoundationDbEffect.Directory

open FoundationDbEffect.Foundation FoundationDbEffect.TupleLayer
open FoundationDbEffect.Foundation.ByteOrder

/-- The rows in view of a transaction, and what its calls of the allocator may use: the passes
of the allocator's loops and the random words that it draws. -/
structure DirectoryTransaction where
  rows : Rows
  draws : List (Nat × List UInt32) := []
  deriving DecidableEq

/-! ## Allocation on rows -/

namespace DirectoryLayerState

def counters (layer : DirectoryLayerState) : Bytes :=
  layer.allocator ++ encodeTuple false [.integer 0]

def recent (layer : DirectoryLayerState) : Bytes :=
  layer.allocator ++ encodeTuple false [.integer 1]

def decodeLittleEndianInt64 (value : Bytes) : BitVec 64 :=
  BitVec.ofNat 64 (fromBigEndian (value.take 8).reverse)

def encodeLittleEndianInt64 (value : BitVec 64) : Bytes := (toBigEndian 8 value.toNat).reverse

def rowInteger (subspace : Bytes) (key : Bytes) : Option Int :=
  match unpacked subspace key "invalid allocator counter key" with
  | .ok tuple => (allocatorWindow tuple).toOption
  | .error _ => none

/-- The rows below the allocator's subspaces, read as the state of the allocator. -/
def allocatorState (layer : DirectoryLayerState) (rows : Rows) : AllocatorState where
  counters :=
    (allInRange rows (layer.counters ++ [0x00]) (layer.counters ++ [0xff])).foldl
      (fun counters row =>
        match rowInteger layer.counters row.1 with
        | some start => counters.set start (decodeLittleEndianInt64 row.2)
        | none => counters) ∅
  recent :=
    ((allInRange rows (layer.recent ++ [0x00]) (layer.recent ++ [0xff])).filterMap
      fun row => rowInteger layer.recent row.1).toFinset

/-- One write of the allocator. The counter of a window is an atomic addition. -/
def applyMutation (layer : DirectoryLayerState) (rows : Rows) :
    AllocatorMutation → Except DirectoryFailure Rows
  | .addOne start => do
    let counter ← childSubspace layer.counters [.integer start] "invalid allocator counter key"
    let count := decodeLittleEndianInt64 ((rows.get? counter).getD [])
    .ok (rows.set counter (encodeLittleEndianInt64 (count + 1)))
  | .clearCounters stop => do
    let counter ← childSubspace layer.counters [.integer stop] "invalid allocator counter key"
    .ok (rows.clearRange (interval layer.counters counter))
  | .clearRecent stop => do
    let recentStart ← childSubspace layer.recent [.integer stop] "invalid allocator recent key"
    .ok (rows.clearRange (interval layer.recent recentStart))
  | .setRecent candidate => do
    let recentCandidate ←
      childSubspace layer.recent [.integer candidate] "invalid allocator candidate key"
    .ok (rows.set recentCandidate [])

def allocatePrefix (layer : DirectoryLayerState) (transaction : DirectoryTransaction) :
    Except DirectoryFailure (Int × DirectoryTransaction) :=
  match transaction.draws with
  | [] => .error .exhausted
  | (fuel, randoms) :: draws =>
    match allocatePrefixLocked fuel randoms { snapshot := layer.allocatorState transaction.rows } with
    | none => .error .exhausted
    | some (allocation, candidate) => do
      let rows ← allocation.mutations.foldlM layer.applyMutation transaction.rows
      .ok (candidate, { rows, draws })

end DirectoryLayerState

/-! ## Nodes -/

def nodeWithPrefix (layer : DirectoryLayerState) (prefixBytes : Bytes) :
    Except DirectoryFailure Bytes :=
  childSubspace layer.nodeSubspace [.bytes prefixBytes] "invalid directory node prefix"

def loadLayer (rows : Rows) (node : Bytes) : Except DirectoryFailure Bytes := do
  let key ← packed node [.bytes layerTag] "invalid layer key"
  .ok ((rows.get? key).getD [])

structure Node where
  subspace : Bytes
  currentPath : DirectoryPath
  targetPath : DirectoryPath
  layer : Bytes
  deriving DecidableEq, Repr

def findNodeFrom (rows : Rows) (layer : DirectoryLayerState) (targetPath : DirectoryPath) :
    Bytes → Bytes → DirectoryPath → DirectoryPath → Except DirectoryFailure (Option Node)
  | node, nodeLayer, currentPath, [] => .ok (some ⟨node, currentPath, targetPath, nodeLayer⟩)
  | node, _, currentPath, component :: rest => do
    let key ← packed node [.integer 0, .string component] "invalid directory child key"
    match rows.get? key with
    | none => .ok none
    | some prefixBytes => do
      let node ← nodeWithPrefix layer prefixBytes
      let nodeLayer ← loadLayer rows node
      if nodeLayer = partitionTag then
        .ok (some ⟨node, currentPath ++ [component], targetPath, nodeLayer⟩)
      else findNodeFrom rows layer targetPath node nodeLayer (currentPath ++ [component]) rest

def findNode (rows : Rows) (layer : DirectoryLayerState) (path : DirectoryPath) :
    Except DirectoryFailure (Option Node) :=
  match path with
  | [] => do
    let nodeLayer ← loadLayer rows layer.rootNode
    .ok (some ⟨layer.rootNode, [], [], nodeLayer⟩)
  | _ :: _ => findNodeFrom rows layer path layer.rootNode [] [] path

def partitionSubpath (node : Node) : DirectoryPath :=
  node.targetPath.drop node.currentPath.length

def isInPartition (node : Node) (includeRoot : Bool) : Bool :=
  node.layer = partitionTag ∧
    (includeRoot ∨ node.targetPath.length > node.currentPath.length)

inductive DirectoryOutput where
  | subspace (directoryLayer : DirectoryLayerState) (relativePath : DirectoryPath)
      (prefixBytes layer : Bytes)
  | partition (parentLayer : DirectoryLayerState) (parentRelativePath : DirectoryPath)
      (directoryLayer : DirectoryLayerState)
  deriving DecidableEq, Repr

def nestedLayer (prefixBytes : Bytes) (absolutePath : DirectoryPath) : DirectoryLayerState where
  nodeSubspace := prefixBytes ++ nodePrefix
  contentSubspace := prefixBytes
  allowManualPrefixes := false
  path := absolutePath

def nodePrefixOf (layer : DirectoryLayerState) (node : Bytes) :
    Except DirectoryFailure Bytes := do
  let tuple ← unpacked layer.nodeSubspace node "invalid directory node"
  asBytes tuple.head? "directory node prefix"

def contentsOfNode (layer : DirectoryLayerState) (node : Bytes) (path : DirectoryPath)
    (nodeLayer : Bytes) : Except DirectoryFailure DirectoryOutput := do
  let tuple ← unpacked layer.nodeSubspace node "invalid directory node"
  if tuple.length ≠ 1 then
    .error (invalidMetadata "directory node has an invalid prefix tuple")
  else do
    let prefixBytes ← asBytes tuple.head? "directory node prefix"
    if nodeLayer = partitionTag then
      .ok (.partition layer path (nestedLayer prefixBytes (layer.path ++ path)))
    else .ok (.subspace layer path prefixBytes nodeLayer)

def getContents (layer : DirectoryLayerState) (node : Node) :
    Except DirectoryFailure DirectoryOutput :=
  contentsOfNode layer node.subspace node.currentPath node.layer

/-- The layer inside a node that was found to be a partition. -/
def partitionOf (layer : DirectoryLayerState) (node : Node) :
    Except DirectoryFailure DirectoryLayerState := do
  match ← getContents layer node with
  | .partition _ _ directoryLayer => .ok directoryLayer
  | .subspace .. => .error (invalidMetadata "partition node has a non-partition value")

def getUint32 (view : Bytes) (offset : Nat) : Nat :=
  fromBigEndian ((view.drop offset).take 4).reverse

def checkVersion (layer : DirectoryLayerState) (write : Bool) (rows : Rows) :
    Except DirectoryFailure Rows := do
  let key ← packed layer.rootNode [.bytes versionTag] "invalid directory version key"
  match rows.get? key with
  | none => .ok (if write then rows.set key directoryVersion else rows)
  | some version =>
    let major := getUint32 version 0
    let minor := getUint32 version 4
    let patch := getUint32 version 8
    if version.length ≠ 12 then
      .error (error .versionError
        s!"directory version must contain exactly 12 bytes, received {version.length}")
    else if major > 1 then
      .error (error .versionError
        s!"cannot load directory version {major}.{minor}.{patch} using 1.0.0")
    else if write ∧ minor > 0 then
      .error (error .versionError
        s!"directory version {major}.{minor}.{patch} is read-only using 1.0.0")
    else .ok rows

/-! ## Prefixes -/

def nodeContainingKey (layer : DirectoryLayerState) (key : Bytes) (rows : Rows) :
    Except DirectoryFailure (Option Bytes) :=
  if startsWith key layer.nodeSubspace then .ok (some layer.rootNode)
  else do
    let (metadataBegin, _) ← subspaceRange layer.nodeSubspace []
    let rangeEnd ← packed layer.nodeSubspace [.bytes (key ++ [0])] "invalid prefix lookup key"
    match firstInRange rows metadataBegin rangeEnd true with
    | none => .ok none
    | some previous => do
      let prefixBytes ← do
        let tuple ← unpacked layer.nodeSubspace previous.1 "invalid directory node key"
        asBytes tuple.head? "directory node prefix"
      if startsWith key prefixBytes then do
        let node ← nodeWithPrefix layer prefixBytes
        .ok (some node)
      else .ok none

def isPrefixFree (layer : DirectoryLayerState) (prefixBytes : Bytes) (rows : Rows) :
    Except DirectoryFailure Bool :=
  if prefixBytes.length = 0 then .ok false
  else do
    match ← nodeContainingKey layer prefixBytes rows with
    | some _ => .ok false
    | none => do
      let endPrefix ← incrementPrefix prefixBytes
      let begin ← packed layer.nodeSubspace [.bytes prefixBytes] "invalid prefix lookup"
      let stop ← packed layer.nodeSubspace [.bytes endPrefix] "invalid prefix lookup"
      .ok (firstInRange rows begin stop false).isNone

def choosePrefix (layer : DirectoryLayerState) (explicit : Option Bytes)
    (transaction : DirectoryTransaction) :
    Except DirectoryFailure (Bytes × DirectoryTransaction) :=
  match explicit with
  | some prefixBytes => .ok (prefixBytes, transaction)
  | none => do
    let (allocated, transaction) ← layer.allocatePrefix transaction
    let prefixBytes ←
      packed layer.contentSubspace [.integer allocated] "invalid allocated directory prefix"
    let stop ← incrementPrefix prefixBytes
    if (firstInRange transaction.rows prefixBytes stop false).isSome then
      .error (error .prefixNotEmpty "the allocated directory prefix is not empty")
    else .ok (prefixBytes, transaction)

/-! ## Creating and opening -/

/-- The node of the parent, opened or created by `createOrOpen`. -/
def getParentNode
    (createOrOpen : DirectoryPath → DirectoryTransaction →
      Except DirectoryFailure (DirectoryOutput × DirectoryTransaction))
    (layer : DirectoryLayerState) (path : DirectoryPath) (transaction : DirectoryTransaction) :
    Except DirectoryFailure (Bytes × DirectoryTransaction) :=
  if path.dropLast.length = 0 then .ok (layer.rootNode, transaction)
  else do
    match ← createOrOpen path.dropLast transaction with
    | (.subspace _ _ prefixBytes _, transaction) => do
      let node ← nodeWithPrefix layer prefixBytes
      .ok (node, transaction)
    | (.partition .., _) => .error (invalidMetadata "directory parent is a partition root")

def createInternal
    (createOrOpen : DirectoryPath → DirectoryTransaction →
      Except DirectoryFailure (DirectoryOutput × DirectoryTransaction))
    (layer : DirectoryLayerState) (path : DirectoryPath) (explicitPrefix : Option Bytes)
    (nodeLayer : Option Bytes) (transaction : DirectoryTransaction) :
    Except DirectoryFailure (DirectoryOutput × DirectoryTransaction) :=
  match path.getLast? with
  | none => .error (error .noPathProvided "directory path must not be empty")
  | some name => do
    let rows ← checkVersion layer true transaction.rows
    let (parent, transaction) ←
      getParentNode createOrOpen layer path { transaction with rows := rows }
    let (prefixBytes, transaction) ← choosePrefix layer explicitPrefix transaction
    let free ← isPrefixFree layer prefixBytes transaction.rows
    if !free then
      .error (error .directoryPrefixInUse "the requested directory prefix is already in use")
    else do
      let node ← nodeWithPrefix layer prefixBytes
      let childKey ← packed parent [.integer 0, .string name] "invalid directory child key"
      let layerKey ← packed node [.bytes layerTag] "invalid layer key"
      let rows := (transaction.rows.set childKey prefixBytes).set layerKey (nodeLayer.getD [])
      let output ← contentsOfNode layer node path (nodeLayer.getD [])
      .ok (output, { transaction with rows := rows })

/-- `create`, `createOrOpen` and `open`. A layer inside a partition is entered with the rest of
the path, and the missing ancestors are created with a shorter one, so that a fuel of one more
than the length of the path is enough. -/
def createOrOpenInternal : Nat → DirectoryLayerState → DirectoryPath → Option Bytes →
    Option Bytes → Bool → Bool → DirectoryTransaction →
    Except DirectoryFailure (DirectoryOutput × DirectoryTransaction)
  | 0, _, _, _, _, _, _, _ => .error .exhausted
  | fuel + 1, layer, path, prefixBytes, expectedLayer, allowCreate, allowOpen, transaction => do
    let rows ← checkVersion layer false transaction.rows
    if prefixBytes.isSome ∧ ¬ layer.allowManualPrefixes then
      .error (error
        (if layer.path.length = 0 then .prefixNotAllowed else .cannotPrefixInPartition)
        "manual directory prefixes are not enabled")
    else if path.length = 0 then
      .error (error .noPathProvided "directory path must not be empty")
    else do
      match ← findNode rows layer path with
      | some found =>
        if isInPartition found false then do
          let partition ← partitionOf layer found
          if !allowCreate then
            createOrOpenInternal fuel partition (partitionSubpath found) none expectedLayer
              false true transaction
          else
            createOrOpenInternal fuel partition (partitionSubpath found) prefixBytes expectedLayer
              true allowOpen transaction
        else if !allowOpen then
          .error (pathError .directoryAlreadyExists path " already exists")
        else if expectedLayer.any (fun expected => expected.length > 0 ∧ expected ≠ found.layer) then
          .error (pathError .incompatibleLayer path " has an incompatible layer")
        else do
          let output ← getContents layer found
          .ok (output, transaction)
      | none =>
        if !allowCreate then
          .error (pathError .directoryDoesNotExist path " does not exist")
        else
          createInternal
            (fun parentPath transaction =>
              createOrOpenInternal fuel layer parentPath none none true true transaction)
            layer path prefixBytes expectedLayer transaction

/-! ## Reading -/

def existsInternal (rows : Rows) : Nat → DirectoryLayerState → DirectoryPath →
    Except DirectoryFailure Bool
  | 0, _, _ => .error .exhausted
  | fuel + 1, layer, path => do
    let rows' ← checkVersion layer false rows
    match ← findNode rows' layer path with
    | none => .ok false
    | some node =>
      if isInPartition node false then do
        let partition ← partitionOf layer node
        existsInternal rows fuel partition (partitionSubpath node)
      else .ok true

def listInternal (rows : Rows) : Nat → DirectoryLayerState → DirectoryPath →
    Except DirectoryFailure (List CodeUnits)
  | 0, _, _ => .error .exhausted
  | fuel + 1, layer, path => do
    let rows' ← checkVersion layer false rows
    match ← findNode rows' layer path with
    | none => .error (pathError .pathDoesNotExist path " does not exist")
    | some node =>
      if isInPartition node true then do
        let partition ← partitionOf layer node
        listInternal rows fuel partition (partitionSubpath node)
      else do
        let (begin, stop) ← subspaceRange node.subspace [.integer 0]
        (allInRange rows begin stop).mapM fun child => do
          let tuple ← unpacked node.subspace child.1 "invalid directory child key"
          directoryChildName tuple

/-! ## Removing and moving -/

def removeFromParent (layer : DirectoryLayerState) (path : DirectoryPath) (rows : Rows) :
    Except DirectoryFailure Rows :=
  match path.getLast? with
  | none => .error (error .badDestinationDirectory "directory path must not be empty")
  | some name => do
    match ← findNode rows layer path.dropLast with
    | none => .ok rows
    | some parent => do
      let key ← packed parent.subspace [.integer 0, .string name] "invalid directory child key"
      .ok (rows.clear key)

/-- The rows without a node, the directories below it and their contents. The fuel bounds the
depth of the directories. -/
def removeRecursive (layer : DirectoryLayerState) :
    Nat → Bytes → Rows → Except DirectoryFailure Rows
  | 0, _, _ => .error .exhausted
  | fuel + 1, node, rows => do
    let (begin, stop) ← subspaceRange node [.integer 0]
    let rows ← (allInRange rows begin stop).foldlM (fun rows child => do
      let tuple ← unpacked node child.1 "invalid directory child key"
      let _ ← directoryChildName tuple
      let childNode ← nodeWithPrefix layer child.2
      removeRecursive layer fuel childNode rows) rows
    let prefixBytes ← nodePrefixOf layer node
    let prefixEnd ← incrementPrefix prefixBytes
    let rows := rows.clearRange (interval prefixBytes prefixEnd)
    let (metadataBegin, metadataEnd) ← subspaceRange node []
    .ok (rows.clearRange (interval metadataBegin metadataEnd))

def removeInternal : Nat → DirectoryLayerState → DirectoryPath → Bool → Rows →
    Except DirectoryFailure (Bool × Rows)
  | 0, _, _, _, _ => .error .exhausted
  | fuel + 1, layer, path, failIfMissing, rows => do
    let rows ← checkVersion layer true rows
    if path.length = 0 then
      .error (error .cannotModifyRootDirectory "the root directory cannot be removed")
    else do
      match ← findNode rows layer path with
      | none =>
        if failIfMissing then .error (pathError .directoryDoesNotExist path " does not exist")
        else .ok (false, rows)
      | some node =>
        if isInPartition node false then do
          let partition ← partitionOf layer node
          removeInternal fuel partition (partitionSubpath node) failIfMissing rows
        else do
          let rows ← removeRecursive layer (rows.entries.length + 1) node.subspace rows
          let rows ← removeFromParent layer path rows
          .ok (true, rows)

def moveInternal : Nat → DirectoryLayerState → DirectoryPath → DirectoryPath → Rows →
    Except DirectoryFailure (DirectoryOutput × Rows)
  | 0, _, _, _, _ => .error .exhausted
  | fuel + 1, layer, oldPath, newPath, rows => do
    let rows ← checkVersion layer true rows
    if oldPath.length = 0 then
      .error (error .cannotMoveRootDirectory "the root directory cannot be moved")
    else if pathStartsWith newPath oldPath then
      .error (error .cannotMoveIntoSubdirectory
        "a directory cannot be moved into itself or one of its descendants")
    else do
      match ← findNode rows layer oldPath with
      | none => .error (pathError .pathDoesNotExist oldPath " does not exist")
      | some oldNode => do
        let newNode ← findNode rows layer newPath
        let oldInPartition := isInPartition oldNode false
        let crossing := error .cannotMoveBetweenPartitions
          "directories cannot be moved across partition boundaries"
        match newNode with
        | some newNode =>
          let newInPartition := isInPartition newNode false
          if oldInPartition ∧ newInPartition ∧ oldNode.currentPath = newNode.currentPath then do
            let partition ← partitionOf layer oldNode
            moveInternal fuel partition (partitionSubpath oldNode) (partitionSubpath newNode) rows
          else if oldInPartition ∨ newInPartition then .error crossing
          else .error (pathError .directoryAlreadyExists newPath " already exists")
        | none =>
          if oldInPartition then .error crossing
          else
            match newPath.getLast? with
            | none => .error (error .badDestinationDirectory "destination path must not be empty")
            | some name => do
              match ← findNode rows layer newPath.dropLast with
              | none => .error (error .parentDirectoryDoesNotExist
                  "destination parent directory does not exist")
              | some parent => do
                let prefixBytes ← nodePrefixOf layer oldNode.subspace
                let newKey ← packed parent.subspace [.integer 0, .string name]
                  "invalid destination directory key"
                let rows ← removeFromParent layer oldPath (rows.set newKey prefixBytes)
                let output ← contentsOfNode layer oldNode.subspace newPath oldNode.layer
                .ok (output, rows)

end FoundationDbEffect.Directory
