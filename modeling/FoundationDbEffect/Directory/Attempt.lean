import FoundationDbEffect.Directory.Engine

/-!
# Creating directories beside other transactions

The calls that create and open directories again, now in a transaction that runs beside others:
it reads a snapshot through its own writes, and notes the keys that it read with conflict and
those that it wrote.  A read with conflict of a row that the transaction has itself set or
cleared is answered from its own writes and notes nothing.  A range read that returns one row
has read the range up to that row.  Without its notes, a call is the call of the engine.
-/

namespace FoundationDbEffect.Directory

open FoundationDbEffect.Foundation FoundationDbEffect.TupleLayer
open FoundationDbEffect.Foundation.ByteOrder

inductive RowMutation where
  | set (key value : Bytes)
  | clearRange (begin stop : Bytes)
  | addOne (key : Bytes)
  deriving DecidableEq, Repr

namespace RowMutation

def apply (rows : Rows) : RowMutation → Rows
  | set key value => rows.set key value
  | clearRange begin stop => rows.clearRange (interval begin stop)
  | addOne key =>
    let count := DirectoryLayerState.decodeLittleEndianInt64 ((rows.get? key).getD [])
    rows.set key (DirectoryLayerState.encodeLittleEndianInt64 (count + 1))

def touches (key : Bytes) : RowMutation → Bool
  | set key' _ => key = key'
  | clearRange begin stop => interval begin stop key
  | addOne key' => key = key'

/-- The mutations that a later read of a key is answered from. The result of an atomic addition
depends on the row below it, which the read still has to fetch. -/
def overwrites (key : Bytes) : RowMutation → Bool
  | set key' _ => key = key'
  | clearRange begin stop => interval begin stop key
  | addOne _ => false

end RowMutation

structure Creation where
  directoryLayer : DirectoryLayerState
  prefixBytes : Bytes
  automatic : Bool
  deriving DecidableEq, Repr

/-- A transaction in progress: its snapshot, what its calls of the allocator may use, what it has
written, the keys it has read with conflict and written with conflict, and the directories it
has created. -/
structure Attempt where
  snapshot : Rows
  draws : List (Nat × List UInt32) := []
  mutations : List RowMutation := []
  reads : Bytes → Bool := fun _ => false
  writes : List Bytes := []
  created : List Creation := []

namespace Attempt

def view (attempt : Attempt) : Rows := attempt.mutations.foldl RowMutation.apply attempt.snapshot

def transaction (attempt : Attempt) : DirectoryTransaction where
  rows := attempt.view
  draws := attempt.draws

def overwritten (attempt : Attempt) (key : Bytes) : Bool :=
  attempt.mutations.any (RowMutation.overwrites key)

def read (attempt : Attempt) (keys : Bytes → Bool) : Attempt :=
  { attempt with reads := fun key => attempt.reads key || (keys key && !attempt.overwritten key) }

def get (attempt : Attempt) (key : Bytes) : Option Bytes × Attempt :=
  (attempt.view.get? key, attempt.read (· = key))

def scanned (begin stop : Bytes) (reverse : Bool) (row : Option (Bytes × Bytes)) (key : Bytes) :
    Bool :=
  interval begin stop key && row.all fun row => if reverse then row.1 ≤ key else key ≤ row.1

def firstInRange (attempt : Attempt) (begin stop : Bytes) (reverse snapshot : Bool) :
    Option (Bytes × Bytes) × Attempt :=
  let row := Directory.firstInRange attempt.view begin stop reverse
  (row, if snapshot then attempt else attempt.read (scanned begin stop reverse row))

def set (attempt : Attempt) (key value : Bytes) : Attempt :=
  { attempt with
    mutations := attempt.mutations ++ [.set key value], writes := attempt.writes ++ [key] }

/-! ## Allocation -/

def rowKey (layer : DirectoryLayerState) : AllocatorKey → Bytes
  | .counter start => layer.counters ++ encodeTuple false [.integer start]
  | .recent candidate => layer.recent ++ encodeTuple false [.integer candidate]

def rowMutation (layer : DirectoryLayerState) :
    AllocatorMutation → Except DirectoryFailure RowMutation
  | .addOne start => do
    let counter ← childSubspace layer.counters [.integer start] "invalid allocator counter key"
    .ok (.addOne counter)
  | .clearCounters stop => do
    let counter ← childSubspace layer.counters [.integer stop] "invalid allocator counter key"
    .ok (.clearRange layer.counters counter)
  | .clearRecent stop => do
    let recentStart ← childSubspace layer.recent [.integer stop] "invalid allocator recent key"
    .ok (.clearRange layer.recent recentStart)
  | .setRecent candidate => do
    let recentCandidate ←
      childSubspace layer.recent [.integer candidate] "invalid allocator candidate key"
    .ok (.set recentCandidate [])

/-- One allocation. Its clears and its marks of candidates leave no write conflict. -/
def allocatePrefix (layer : DirectoryLayerState) (attempt : Attempt) :
    Except DirectoryFailure (Int × Attempt) :=
  match attempt.draws with
  | [] => .error .exhausted
  | (fuel, randoms) :: draws =>
    match allocatePrefixLocked fuel randoms { snapshot := layer.allocatorState attempt.view } with
    | none => .error .exhausted
    | some (allocation, candidate) => do
      let mutations ← allocation.mutations.mapM (rowMutation layer)
      let attempt := attempt.read fun key => key ∈ allocation.reads.map (rowKey layer)
      .ok (candidate,
        { attempt with
          draws, mutations := attempt.mutations ++ mutations,
          writes := attempt.writes ++ allocation.writes.map (rowKey layer) })

/-! ## Nodes -/

def loadLayer (attempt : Attempt) (node : Bytes) : Except DirectoryFailure (Bytes × Attempt) := do
  let key ← packed node [.bytes layerTag] "invalid layer key"
  let (value, attempt) := attempt.get key
  .ok (value.getD [], attempt)

def findNodeFrom (layer : DirectoryLayerState) (targetPath : DirectoryPath) :
    Bytes → Bytes → DirectoryPath → DirectoryPath → Attempt →
      Except DirectoryFailure (Option Node × Attempt)
  | node, nodeLayer, currentPath, [], attempt =>
    .ok (some ⟨node, currentPath, targetPath, nodeLayer⟩, attempt)
  | node, _, currentPath, component :: rest, attempt => do
    let key ← packed node [.integer 0, .string component] "invalid directory child key"
    match attempt.get key with
    | (none, attempt) => .ok (none, attempt)
    | (some prefixBytes, attempt) => do
      let node ← nodeWithPrefix layer prefixBytes
      let (nodeLayer, attempt) ← loadLayer attempt node
      if nodeLayer = partitionTag then
        .ok (some ⟨node, currentPath ++ [component], targetPath, nodeLayer⟩, attempt)
      else
        findNodeFrom layer targetPath node nodeLayer (currentPath ++ [component]) rest attempt

def findNode (layer : DirectoryLayerState) (path : DirectoryPath) (attempt : Attempt) :
    Except DirectoryFailure (Option Node × Attempt) :=
  match path with
  | [] => do
    let (nodeLayer, attempt) ← loadLayer attempt layer.rootNode
    .ok (some ⟨layer.rootNode, [], [], nodeLayer⟩, attempt)
  | _ :: _ => findNodeFrom layer path layer.rootNode [] [] path attempt

def checkVersion (layer : DirectoryLayerState) (write : Bool) (attempt : Attempt) :
    Except DirectoryFailure Attempt := do
  let key ← packed layer.rootNode [.bytes versionTag] "invalid directory version key"
  match attempt.get key with
  | (none, attempt) => .ok (if write then attempt.set key directoryVersion else attempt)
  | (some version, attempt) =>
    let major := getUint32 version 0
    let minor := getUint32 version 4
    let patch := getUint32 version 8
    if version.length ≠ 12 then
      .error (error .versionError
        s!"directory version must contain exactly 12 bytes, received {version.length}")
    else if major > 1 then
      .error (error .versionError
        s!"cannot load directory version {major}.{minor}.{patch} using 1.0.0")
    else if write ∧ minor > 0 then
      .error (error .versionError
        s!"directory version {major}.{minor}.{patch} is read-only using 1.0.0")
    else .ok attempt

/-! ## Prefixes -/

def nodeContainingKey (layer : DirectoryLayerState) (key : Bytes) (snapshot : Bool)
    (attempt : Attempt) : Except DirectoryFailure (Option Bytes × Attempt) :=
  if startsWith key layer.nodeSubspace then .ok (some layer.rootNode, attempt)
  else do
    let (metadataBegin, _) ← subspaceRange layer.nodeSubspace []
    let rangeEnd ← packed layer.nodeSubspace [.bytes (key ++ [0])] "invalid prefix lookup key"
    match attempt.firstInRange metadataBegin rangeEnd true snapshot with
    | (none, attempt) => .ok (none, attempt)
    | (some previous, attempt) => do
      let prefixBytes ← do
        let tuple ← unpacked layer.nodeSubspace previous.1 "invalid directory node key"
        asBytes tuple.head? "directory node prefix"
      if startsWith key prefixBytes then do
        let node ← nodeWithPrefix layer prefixBytes
        .ok (some node, attempt)
      else .ok (none, attempt)

def isPrefixFree (layer : DirectoryLayerState) (prefixBytes : Bytes) (snapshot : Bool)
    (attempt : Attempt) : Except DirectoryFailure (Bool × Attempt) :=
  if prefixBytes.length = 0 then .ok (false, attempt)
  else do
    match ← nodeContainingKey layer prefixBytes snapshot attempt with
    | (some _, attempt) => .ok (false, attempt)
    | (none, attempt) => do
      let endPrefix ← incrementPrefix prefixBytes
      let begin ← packed layer.nodeSubspace [.bytes prefixBytes] "invalid prefix lookup"
      let stop ← packed layer.nodeSubspace [.bytes endPrefix] "invalid prefix lookup"
      let (row, attempt) := attempt.firstInRange begin stop false snapshot
      .ok (row.isNone, attempt)

def choosePrefix (layer : DirectoryLayerState) (explicit : Option Bytes) (attempt : Attempt) :
    Except DirectoryFailure (Bytes × Attempt) :=
  match explicit with
  | some prefixBytes => .ok (prefixBytes, attempt)
  | none => do
    let (allocated, attempt) ← allocatePrefix layer attempt
    let prefixBytes ←
      packed layer.contentSubspace [.integer allocated] "invalid allocated directory prefix"
    let stop ← incrementPrefix prefixBytes
    let (row, attempt) := attempt.firstInRange prefixBytes stop false false
    if row.isSome then
      .error (error .prefixNotEmpty "the allocated directory prefix is not empty")
    else .ok (prefixBytes, attempt)

/-! ## Creating and opening -/

/-- The node of the parent, opened or created by `createOrOpen`. -/
def getParentNode
    (createOrOpen : DirectoryPath → Attempt →
      Except DirectoryFailure (DirectoryOutput × Attempt))
    (layer : DirectoryLayerState) (path : DirectoryPath) (attempt : Attempt) :
    Except DirectoryFailure (Bytes × Attempt) :=
  if path.dropLast.length = 0 then .ok (layer.rootNode, attempt)
  else do
    match ← createOrOpen path.dropLast attempt with
    | (.subspace _ _ prefixBytes _, attempt) => do
      let node ← nodeWithPrefix layer prefixBytes
      .ok (node, attempt)
    | (.partition .., _) => .error (invalidMetadata "directory parent is a partition root")

def create (layer : DirectoryLayerState) (childKey layerKey prefixBytes nodeLayer : Bytes)
    (automatic : Bool) (attempt : Attempt) : Attempt :=
  { (attempt.set childKey prefixBytes).set layerKey nodeLayer with
    created := attempt.created ++ [⟨layer, prefixBytes, automatic⟩] }

/-- The prefix of a directory is checked with conflict only when the caller chose it. -/
def createInternal
    (createOrOpen : DirectoryPath → Attempt →
      Except DirectoryFailure (DirectoryOutput × Attempt))
    (layer : DirectoryLayerState) (path : DirectoryPath) (explicitPrefix : Option Bytes)
    (nodeLayer : Option Bytes) (attempt : Attempt) :
    Except DirectoryFailure (DirectoryOutput × Attempt) :=
  match path.getLast? with
  | none => .error (error .noPathProvided "directory path must not be empty")
  | some name => do
    let attempt ← checkVersion layer true attempt
    let (parent, attempt) ← getParentNode createOrOpen layer path attempt
    let (prefixBytes, attempt) ← choosePrefix layer explicitPrefix attempt
    let (free, attempt) ← isPrefixFree layer prefixBytes explicitPrefix.isNone attempt
    if !free then
      .error (error .directoryPrefixInUse "the requested directory prefix is already in use")
    else do
      let node ← nodeWithPrefix layer prefixBytes
      let childKey ← packed parent [.integer 0, .string name] "invalid directory child key"
      let layerKey ← packed node [.bytes layerTag] "invalid layer key"
      let output ← contentsOfNode layer node path (nodeLayer.getD [])
      .ok (output,
        attempt.create layer childKey layerKey prefixBytes (nodeLayer.getD []) explicitPrefix.isNone)

def createOrOpenInternal : Nat → DirectoryLayerState → DirectoryPath → Option Bytes →
    Option Bytes → Bool → Bool → Attempt → Except DirectoryFailure (DirectoryOutput × Attempt)
  | 0, _, _, _, _, _, _, _ => .error .exhausted
  | fuel + 1, layer, path, prefixBytes, expectedLayer, allowCreate, allowOpen, attempt => do
    let attempt ← checkVersion layer false attempt
    if prefixBytes.isSome ∧ ¬ layer.allowManualPrefixes then
      .error (error
        (if layer.path.length = 0 then .prefixNotAllowed else .cannotPrefixInPartition)
        "manual directory prefixes are not enabled")
    else if path.length = 0 then
      .error (error .noPathProvided "directory path must not be empty")
    else do
      match ← findNode layer path attempt with
      | (some found, attempt) =>
        if isInPartition found false then do
          let partition ← partitionOf layer found
          if !allowCreate then
            createOrOpenInternal fuel partition (partitionSubpath found) none expectedLayer
              false true attempt
          else
            createOrOpenInternal fuel partition (partitionSubpath found) prefixBytes expectedLayer
              true allowOpen attempt
        else if !allowOpen then
          .error (pathError .directoryAlreadyExists path " already exists")
        else if expectedLayer.any (fun expected => expected.length > 0 ∧ expected ≠ found.layer) then
          .error (pathError .incompatibleLayer path " has an incompatible layer")
        else do
          let output ← getContents layer found
          .ok (output, attempt)
      | (none, attempt) =>
        if !allowCreate then
          .error (pathError .directoryDoesNotExist path " does not exist")
        else
          createInternal
            (fun parentPath attempt =>
              createOrOpenInternal fuel layer parentPath none none true true attempt)
            layer path prefixBytes expectedLayer attempt

/-! ## Without the notes -/

section Forget

variable {α β : Type} {layer : DirectoryLayerState} {attempt : Attempt}

@[simp] theorem view_read (keys : Bytes → Bool) : (attempt.read keys).view = attempt.view := rfl

@[simp] theorem view_set (key value : Bytes) :
    (attempt.set key value).view = attempt.view.set key value := by
  simp [view, set, RowMutation.apply]

def forget (result : Except DirectoryFailure (α × Attempt)) :
    Except DirectoryFailure (α × DirectoryTransaction) :=
  result.map fun pair => (pair.1, pair.2.transaction)

theorem forget_bind_of_map {γ δ : Type} {result : Except DirectoryFailure α}
    {plain : Except DirectoryFailure β} {outcome : α → γ} {outcome' : β → γ}
    (hresult : result.map outcome = plain.map outcome')
    {next : α → Except DirectoryFailure (δ × Attempt)}
    {next' : β → Except DirectoryFailure (δ × DirectoryTransaction)}
    (h : ∀ value value', plain = .ok value' → outcome value = outcome' value' →
      forget (next value) = next' value') :
    forget (result >>= next) = plain >>= next' := by
  cases result with
  | error failure =>
      cases plain with
      | error failure' =>
          cases hresult
          rfl
      | ok value' => cases hresult
  | ok value =>
      cases plain with
      | error failure => cases hresult
      | ok value' => exact h value value' rfl (Except.ok.inj hresult)

theorem forget_bind {γ : Type} {result : Except DirectoryFailure (α × Attempt)}
    {plain : Except DirectoryFailure (α × DirectoryTransaction)} (hresult : forget result = plain)
    {next : α × Attempt → Except DirectoryFailure (γ × Attempt)}
    {next' : α × DirectoryTransaction → Except DirectoryFailure (γ × DirectoryTransaction)}
    (h : ∀ value attempt, forget (next (value, attempt)) = next' (value, attempt.transaction)) :
    forget (result >>= next) = plain >>= next' := by
  subst hresult
  cases result with
  | error failure => rfl
  | ok pair => exact h pair.1 pair.2

theorem forget_bind_pure {result : Except DirectoryFailure α}
    {next : α → Except DirectoryFailure (β × Attempt)}
    {next' : α → Except DirectoryFailure (β × DirectoryTransaction)}
    (h : ∀ value, forget (next value) = next' value) :
    forget (result >>= next) = result >>= next' := by
  cases result with
  | error failure => rfl
  | ok value => exact h value

theorem applyMutation_eq (layer : DirectoryLayerState) (rows : Rows)
    (mutation : AllocatorMutation) :
    layer.applyMutation rows mutation = (rowMutation layer mutation).map (RowMutation.apply rows) := by
  cases mutation with
  | addOne start =>
      simp only [DirectoryLayerState.applyMutation, rowMutation]
      cases childSubspace layer.counters [.integer start] "invalid allocator counter key" <;> rfl
  | clearCounters stop =>
      simp only [DirectoryLayerState.applyMutation, rowMutation]
      cases childSubspace layer.counters [.integer stop] "invalid allocator counter key" <;> rfl
  | clearRecent stop =>
      simp only [DirectoryLayerState.applyMutation, rowMutation]
      cases childSubspace layer.recent [.integer stop] "invalid allocator recent key" <;> rfl
  | setRecent candidate =>
      simp only [DirectoryLayerState.applyMutation, rowMutation]
      cases childSubspace layer.recent [.integer candidate] "invalid allocator candidate key" <;> rfl

theorem foldlM_applyMutation (layer : DirectoryLayerState) (mutations : List AllocatorMutation)
    (rows : Rows) :
    mutations.foldlM layer.applyMutation rows =
      (mutations.mapM (rowMutation layer)).map (List.foldl RowMutation.apply rows) := by
  induction mutations generalizing rows with
  | nil => rfl
  | cons mutation mutations ih =>
      rw [List.foldlM_cons, List.mapM_cons, applyMutation_eq]
      cases rowMutation layer mutation with
      | error failure => rfl
      | ok first =>
          change mutations.foldlM layer.applyMutation (first.apply rows) = _
          rw [ih]
          cases mutations.mapM (rowMutation layer) <;> rfl

theorem allocatePrefix_forget :
    forget (allocatePrefix layer attempt) = layer.allocatePrefix attempt.transaction := by
  have hdraws : attempt.transaction.draws = attempt.draws := rfl
  have hrows : attempt.transaction.rows = attempt.view := rfl
  rw [allocatePrefix, DirectoryLayerState.allocatePrefix, hdraws, hrows]
  cases attempt.draws with
  | nil => rfl
  | cons draw draws =>
      obtain ⟨fuel, randoms⟩ := draw
      simp only
      cases allocatePrefixLocked fuel randoms { snapshot := layer.allocatorState attempt.view } with
      | none => rfl
      | some pair =>
          simp only [foldlM_applyMutation]
          cases pair.1.mutations.mapM (rowMutation layer) with
          | error failure => rfl
          | ok mutations =>
              change Except.ok (pair.2, _) = Except.ok (pair.2, _)
              simp [transaction, view, read, List.foldl_append]

theorem checkVersion_forget (write : Bool) :
    (checkVersion layer write attempt).map transaction =
      (Directory.checkVersion layer write attempt.view).map fun rows =>
        { attempt.transaction with rows } := by
  rw [checkVersion, Directory.checkVersion]
  cases packed layer.rootNode [.bytes versionTag] "invalid directory version key" with
  | error failure => rfl
  | ok key =>
      simp only [bind, Except.bind, get]
      cases attempt.view.get? key with
      | none => cases write <;> simp [Except.map, transaction, set, view, read, RowMutation.apply]
      | some version =>
          dsimp only
          split_ifs <;> rfl

theorem rows_of_checkVersion {rows rows' : Rows}
    (h : Directory.checkVersion layer false rows = .ok rows') : rows' = rows := by
  rw [Directory.checkVersion] at h
  cases hkey : packed layer.rootNode [.bytes versionTag] "invalid directory version key" with
  | error failure =>
      rw [hkey] at h
      cases h
  | ok key =>
      simp only [hkey, bind, Except.bind, Bool.false_eq_true, if_false, false_and] at h
      split at h
      · exact (Except.ok.inj h).symm
      · split_ifs at h
        exact (Except.ok.inj h).symm

theorem findNodeFrom_forget (targetPath node nodeLayer currentPath path) :
    forget (findNodeFrom layer targetPath node nodeLayer currentPath path attempt) =
      (Directory.findNodeFrom attempt.view layer targetPath node nodeLayer currentPath path).map
        (·, attempt.transaction) := by
  induction path generalizing node nodeLayer currentPath attempt with
  | nil => rfl
  | cons component rest ih =>
      rw [findNodeFrom, Directory.findNodeFrom]
      cases packed node [.integer 0, .string component] "invalid directory child key" with
      | error failure => rfl
      | ok key =>
          simp only [bind, Except.bind, get]
          cases attempt.view.get? key with
          | none => rfl
          | some prefixBytes =>
              simp only
              cases nodeWithPrefix layer prefixBytes with
              | error failure => rfl
              | ok child =>
                  simp only [loadLayer, Directory.loadLayer, bind, Except.bind, get, view_read]
                  cases packed child [.bytes layerTag] "invalid layer key" with
                  | error failure => rfl
                  | ok layerKey =>
                      simp only
                      split_ifs
                      · rfl
                      · exact ih _ _ _

theorem findNode_forget (path : DirectoryPath) :
    forget (findNode layer path attempt) =
      (Directory.findNode attempt.view layer path).map (·, attempt.transaction) := by
  cases path with
  | nil =>
      rw [findNode, Directory.findNode, loadLayer, Directory.loadLayer]
      cases packed layer.rootNode [.bytes layerTag] "invalid layer key" <;> rfl
  | cons component rest => exact findNodeFrom_forget _ _ _ _ _

@[simp] theorem firstInRange_row (attempt : Attempt) (begin stop : Bytes)
    (reverse snapshot : Bool) :
    (attempt.firstInRange begin stop reverse snapshot).1 =
      Directory.firstInRange attempt.view begin stop reverse := rfl

@[simp] theorem firstInRange_transaction (attempt : Attempt) (begin stop : Bytes)
    (reverse snapshot : Bool) :
    (attempt.firstInRange begin stop reverse snapshot).2.transaction = attempt.transaction := by
  cases snapshot <;> rfl

theorem nodeContainingKey_forget (key : Bytes) (snapshot : Bool) :
    forget (nodeContainingKey layer key snapshot attempt) =
      (Directory.nodeContainingKey layer key attempt.view).map (·, attempt.transaction) := by
  rw [nodeContainingKey, Directory.nodeContainingKey]
  split_ifs with hroot
  · rfl
  · cases subspaceRange layer.nodeSubspace [] with
    | error failure => rfl
    | ok range =>
        cases packed layer.nodeSubspace [.bytes (key ++ [0])] "invalid prefix lookup key" with
        | error failure => rfl
        | ok rangeEnd =>
            simp only [bind, Except.bind]
            have hrow := firstInRange_row attempt range.1 rangeEnd true snapshot
            have hsame := firstInRange_transaction attempt range.1 rangeEnd true snapshot
            rw [← hrow]
            clear hrow
            generalize attempt.firstInRange range.1 rangeEnd true snapshot = scan at hsame ⊢
            obtain ⟨row, after⟩ := scan
            cases row with
            | none => simpa [forget, Except.map] using hsame
            | some previous =>
                dsimp only
                cases unpacked layer.nodeSubspace previous.1 "invalid directory node key" with
                | error failure => rfl
                | ok tuple =>
                    dsimp only
                    cases asBytes tuple.head? "directory node prefix" with
                    | error failure => rfl
                    | ok prefixBytes =>
                        dsimp only
                        split_ifs
                        · cases nodeWithPrefix layer prefixBytes with
                          | error failure => rfl
                          | ok node => simpa [forget, Except.map] using hsame
                        · simpa [forget, Except.map] using hsame

theorem isPrefixFree_forget (prefixBytes : Bytes) (snapshot : Bool) :
    forget (isPrefixFree layer prefixBytes snapshot attempt) =
      (Directory.isPrefixFree layer prefixBytes attempt.view).map (·, attempt.transaction) := by
  rw [isPrefixFree, Directory.isPrefixFree]
  split_ifs with hempty
  · rfl
  · have hmap {α β : Type} (x : Except DirectoryFailure α)
        (f : α → Except DirectoryFailure β) (g : β → β × DirectoryTransaction) :
        (x >>= f).map g = x >>= fun value => (f value).map g := by
      cases x <;> rfl
    rw [hmap]
    refine forget_bind_of_map (nodeContainingKey_forget prefixBytes snapshot) ?_
    rintro ⟨found, after⟩ found' - heq
    obtain ⟨rfl, hsame⟩ := Prod.mk.inj heq
    have hview : after.view = attempt.view := congrArg DirectoryTransaction.rows hsame
    cases found with
    | some node => simp [forget, Except.map, hsame]
    | none =>
        simp only [hmap]
        refine forget_bind_pure fun endPrefix => ?_
        refine forget_bind_pure fun begin => ?_
        refine forget_bind_pure fun stop => ?_
        simp [forget, Except.map, hsame, hview]

theorem choosePrefix_forget (explicit : Option Bytes) :
    forget (choosePrefix layer explicit attempt) =
      Directory.choosePrefix layer explicit attempt.transaction := by
  cases explicit with
  | some prefixBytes => rfl
  | none =>
      rw [choosePrefix, Directory.choosePrefix]
      refine forget_bind allocatePrefix_forget fun allocated attempt => ?_
      refine forget_bind_pure fun prefixBytes => ?_
      refine forget_bind_pure fun stop => ?_
      simp only [firstInRange_row]
      change forget (if (Directory.firstInRange attempt.view prefixBytes stop false).isSome then _
        else _) = if (Directory.firstInRange attempt.view prefixBytes stop false).isSome then _ else _
      split_ifs <;> rfl

section Creating

variable {createOrOpen : DirectoryPath → Attempt →
    Except DirectoryFailure (DirectoryOutput × Attempt)}
  {createOrOpen' : DirectoryPath → DirectoryTransaction →
    Except DirectoryFailure (DirectoryOutput × DirectoryTransaction)}
  (hcreate : ∀ path attempt, forget (createOrOpen path attempt) =
    createOrOpen' path attempt.transaction)

include hcreate

theorem getParentNode_forget (path : DirectoryPath) :
    forget (getParentNode createOrOpen layer path attempt) =
      Directory.getParentNode createOrOpen' layer path attempt.transaction := by
  rw [getParentNode, Directory.getParentNode]
  split_ifs
  · rfl
  · refine forget_bind (hcreate _ _) fun output attempt => ?_
    cases output with
    | subspace directoryLayer relativePath prefixBytes nodeLayer =>
        exact forget_bind_pure fun node => rfl
    | «partition» parentLayer parentRelativePath directoryLayer => rfl

theorem createInternal_forget (path : DirectoryPath) (explicitPrefix nodeLayer : Option Bytes) :
    forget (createInternal createOrOpen layer path explicitPrefix nodeLayer attempt) =
      Directory.createInternal createOrOpen' layer path explicitPrefix nodeLayer
        attempt.transaction := by
  rw [createInternal, Directory.createInternal]
  cases path.getLast? with
  | none => rfl
  | some name =>
      refine forget_bind_of_map (checkVersion_forget true) fun attempt rows _ hversion => ?_
      rw [← hversion]
      refine forget_bind (getParentNode_forget hcreate path) fun parent attempt => ?_
      refine forget_bind (choosePrefix_forget explicitPrefix) fun prefixBytes attempt => ?_
      refine forget_bind_of_map
        (isPrefixFree_forget prefixBytes explicitPrefix.isNone) ?_
      rintro ⟨free, after⟩ free' - heq
      obtain ⟨rfl, hsame⟩ := Prod.mk.inj heq
      dsimp only
      split_ifs
      · rfl
      · refine forget_bind_pure fun node => ?_
        refine forget_bind_pure fun childKey => ?_
        refine forget_bind_pure fun layerKey => ?_
        refine forget_bind_pure fun output => ?_
        rw [← hsame]
        simp [forget, Except.map, create, transaction, view, set, RowMutation.apply]

end Creating

/-- Without its notes, a call is the call of the engine on the rows in view. -/
theorem createOrOpenInternal_forget (fuel : Nat) (path : DirectoryPath)
    (prefixBytes expectedLayer : Option Bytes) (allowCreate allowOpen : Bool) :
    forget (createOrOpenInternal fuel layer path prefixBytes expectedLayer allowCreate allowOpen
        attempt) =
      Directory.createOrOpenInternal fuel layer path prefixBytes expectedLayer allowCreate allowOpen
        attempt.transaction := by
  induction fuel generalizing layer path prefixBytes expectedLayer allowCreate allowOpen attempt with
  | zero => rfl
  | succ fuel ih =>
      rw [createOrOpenInternal, Directory.createOrOpenInternal]
      refine forget_bind_of_map (checkVersion_forget false) fun attempt' rows hplain hversion => ?_
      obtain rfl := rows_of_checkVersion hplain
      have hsame : attempt'.transaction = attempt.transaction := hversion
      have hview : attempt'.view = attempt.view := congrArg DirectoryTransaction.rows hsame
      by_cases hmanual : prefixBytes.isSome = true ∧ ¬layer.allowManualPrefixes = true
      · rw [if_pos hmanual, if_pos hmanual]
        rfl
      rw [if_neg hmanual, if_neg hmanual]
      by_cases hempty : path.length = 0
      · rw [if_pos hempty, if_pos hempty]
        rfl
      rw [if_neg hempty, if_neg hempty, ← hview]
      refine forget_bind_of_map (findNode_forget path) ?_
      rintro ⟨found, after⟩ found' - heq
      obtain ⟨rfl, hafter⟩ := Prod.mk.inj heq
      rw [← hsame, ← hafter]
      cases found with
      | none =>
          cases allowCreate with
          | false => rfl
          | true => exact createInternal_forget (fun _ _ => ih _ _ _ _ _) path _ _
      | some found =>
          dsimp only
          by_cases hinside : isInPartition found false = true
          · rw [if_pos hinside, if_pos hinside]
            refine forget_bind_pure fun nested => ?_
            cases allowCreate with
            | false => exact ih _ _ _ _ _
            | true => exact ih _ _ _ _ _
          · rw [if_neg hinside, if_neg hinside]
            split_ifs
            · rfl
            · rfl
            · exact forget_bind_pure fun output => rfl

end Forget

end Attempt

end FoundationDbEffect.Directory
