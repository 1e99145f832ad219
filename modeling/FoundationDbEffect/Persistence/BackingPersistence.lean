import FoundationDbEffect.Persistence.ChunkedValue
import Mathlib.Data.Rat.Floor

/-!
# The backing persistence

A store keeps for each key a manifest, which names the identity of its value and when it
expires, and the chunks of a value under its identity. An index lists the entries that expire,
and the garbage rows list the identities whose chunks are to be deleted, each from a time on.

A small batch is written in one transaction. A large one is staged first, over several
transactions: each of its values has a marker among the garbage rows before it has chunks, and
the publication needs all markers. Background cleanup deletes what has expired and what is
garbage.

JSON is a parameter, and so are the lengths of packed keys, manifests and identities. Times are
exact.
-/

namespace FoundationDbEffect.Persistence.Backing

open FoundationDbEffect.Foundation

/-! ## Values and times -/

def maxSafeInteger : Nat := 2 ^ 53 - 1

def cleanupBatchSize : Nat := 100

def stagingGarbageDelay : ℚ := 24 * 60 * 60 * 1000

def transactionByteBudget : Nat := 8000000

def operationByteOverhead : Nat := 64

inductive Duration where
  | millis (value : ℚ)
  | infinite
  deriving DecidableEq

structure WriteEntry (κ ν : Type) where
  key : κ
  value : ν
  ttl : Option Duration

structure EntryManifest (ι : Type) where
  identity : ι
  expires : Option Int
  deriving DecidableEq

inductive PersistenceError (κ : Type) where
  | failed (method : String) (key : Option κ)
  | incomplete (key : κ)
  | transactionLimit
  deriving DecidableEq

structure Json (ν : Type) where
  stringify : ν → Option Bytes
  parse : Bytes → Option ν

def timestamp (value : ℚ) : Nat := (max 0 (min (maxSafeInteger : Int) ⌊value⌋)).toNat

def expirationFor (ttl : Option Duration) (now : ℚ) : Option Int :=
  match ttl with
  | some (.millis value) => some ⌈min (maxSafeInteger : ℚ) (now + max 0 value)⌉
  | some .infinite => none
  | none => none

def isExpired (expires : Option Int) (now : ℚ) : Bool :=
  expires.any fun expires => (expires : ℚ) ≤ now

/-! ## Rows -/

structure PersistenceState (κ ι ε : Type) [LinearOrder κ] [LinearOrder ι] where
  entries : OrderedMap κ (EntryManifest ι) := ∅
  values : ChunkRows ι := ∅
  expires : OrderedMap (Nat ×ₗ κ) ι := ∅
  garbage : OrderedMap (Nat ×ₗ ι) Unit := ∅
  epoch : Option ε := none

section

variable {κ ι ν ε : Type} [LinearOrder κ] [LinearOrder ι]

def clearExpiration (state : PersistenceState κ ι ε) (key : κ) (expires : Option Int) :
    PersistenceState κ ι ε :=
  match expires with
  | none => state
  | some expires =>
    { state with expires := state.expires.clear (toLex (timestamp (expires : ℚ), key)) }

def clearStoredValue (state : PersistenceState κ ι ε) (identity : ι) : PersistenceState κ ι ε :=
  { state with values := (clearChunkedValue identity).foldl ChunkMutation.apply state.values }

def clearEntry (state : PersistenceState κ ι ε) (key : κ) : PersistenceState κ ι ε :=
  { state with entries := state.entries.clear key }

def clearGarbage (state : PersistenceState κ ι ε) (time : Nat) (identity : ι) :
    PersistenceState κ ι ε :=
  { state with garbage := state.garbage.clear (toLex (time, identity)) }

def setGarbage (state : PersistenceState κ ι ε) (time : Nat) (identity : ι) :
    PersistenceState κ ι ε :=
  { state with garbage := state.garbage.set (toLex (time, identity)) () }

def setChunk (state : PersistenceState κ ι ε) (identity : ι) (index : Nat) (chunk : Bytes) :
    PersistenceState κ ι ε :=
  { state with values := state.values.set (toLex (identity, index)) chunk }

def readStoredValue (json : Json ν) (state : PersistenceState κ ι ε) (key : κ)
    (manifest : EntryManifest ι) : Except (PersistenceError κ) ν :=
  match readChunkedValue state.values manifest.identity with
  | none => .error (.incomplete key)
  | some encoded =>
    match json.parse encoded with
    | none => .error (.failed "get" (some key))
    | some value => .ok value

/-! ## Reads -/

/-- An expired entry is deleted by the transaction that finds it. -/
def resolveEntry (json : Json ν) (now : ℚ) (state : PersistenceState κ ι ε) (key : κ) :
    Except (PersistenceError κ) (PersistenceState κ ι ε × Option ν) :=
  match state.entries.get? key with
  | none => .ok (state, none)
  | some manifest =>
    if isExpired manifest.expires now then
      let state := clearEntry state key
      let state := clearExpiration state key manifest.expires
      let state := clearStoredValue state manifest.identity
      .ok (state, none)
    else do
      let value ← readStoredValue json state key manifest
      .ok (state, some value)

def expireMany (now : ℚ) :
    List (κ × Option (EntryManifest ι)) → PersistenceState κ ι ε →
      PersistenceState κ ι ε × List (κ × EntryManifest ι)
  | [], state => (state, [])
  | (_, none) :: rest, state => expireMany now rest state
  | (key, some manifest) :: rest, state =>
    if isExpired manifest.expires now then
      let state := clearEntry state key
      let state := clearExpiration state key manifest.expires
      let state := clearStoredValue state manifest.identity
      expireMany now rest state
    else
      let (state, live) := expireMany now rest state
      (state, (key, manifest) :: live)

def getMany (json : Json ν) (now : ℚ) (state : PersistenceState κ ι ε) (requestedKeys : List κ) :
    Except (PersistenceError κ) (PersistenceState κ ι ε × List (Option ν)) := do
  let uniqueKeys := requestedKeys.eraseDups
  let encoded := uniqueKeys.map state.entries.get?
  let (state, live) := expireMany now (uniqueKeys.zip encoded) state
  let loaded ← live.mapM fun (key, manifest) => readStoredValue json state key manifest
  let values := (live.map Prod.fst).zip loaded
  .ok (state, requestedKeys.map fun key =>
    (values.find? fun value => value.1 = key).map Prod.snd)

/-! ## Removals and cleanup -/

def remove (state : PersistenceState κ ι ε) (key : κ) : PersistenceState κ ι ε :=
  match state.entries.get? key with
  | none => clearEntry state key
  | some manifest =>
    let state := clearExpiration state key manifest.expires
    let state := clearStoredValue state manifest.identity
    clearEntry state key

def clear (nextEpoch : ε) : PersistenceState κ ι ε := { epoch := some nextEpoch }

def cleanupExpired (now : ℚ) (state : PersistenceState κ ι ε) (item : (Nat ×ₗ κ) × ι) :
    PersistenceState κ ι ε :=
  let key := (ofLex item.1).2
  let identity := item.2
  let state :=
    match state.entries.get? key with
    | none => state
    | some manifest =>
      if manifest.identity = identity ∧ isExpired manifest.expires now = true then
        clearStoredValue (clearEntry state key) identity
      else state
  { state with expires := state.expires.clear item.1 }

def cleanupGarbage (state : PersistenceState κ ι ε) (item : (Nat ×ₗ ι) × Unit) :
    PersistenceState κ ι ε :=
  let identity := (ofLex item.1).2
  clearGarbage (clearStoredValue state identity) (ofLex item.1).1 identity

def cleanupBatch (now : ℚ) (state : PersistenceState κ ι ε) : PersistenceState κ ι ε × Nat :=
  let limit := timestamp now + 1
  let expired := (state.expires.rows fun row => (ofLex row).1 < limit).take cleanupBatchSize
  let garbage := (state.garbage.rows fun row => (ofLex row).1 < limit).take cleanupBatchSize
  let state := expired.foldl (cleanupExpired now) state
  let state := garbage.foldl cleanupGarbage state
  (state, max expired.length garbage.length)

/-! ## Preparing a batch -/

inductive PersistenceKey (κ ι : Type) where
  | entry (key : κ)
  | value (identity : ι) (index : Nat)
  | expires (time : Nat) (key : κ)
  | garbage (time : Nat) (identity : ι)
  | epoch

structure Lengths (κ ι : Type) where
  key : PersistenceKey κ ι → Nat
  manifest : EntryManifest ι → Nat
  identity : ι → Nat

structure PreparedEntry (κ ι : Type) where
  key : κ
  identity : ι
  expires : Option Int
  garbageAt : Nat
  chunks : List Bytes
  directByteEstimate : Nat
  stagedPublicationByteEstimate : Nat

def Lengths.mutationBytes (lengths : Lengths κ ι) (key : PersistenceKey κ ι) (value : Nat) : Nat :=
  lengths.key key + value + operationByteOverhead

def Lengths.clearBytes (lengths : Lengths κ ι) (key : PersistenceKey κ ι) : Nat :=
  lengths.key key + operationByteOverhead

def Lengths.readBytes (lengths : Lengths κ ι) (key : PersistenceKey κ ι) : Nat :=
  lengths.key key * 2 + operationByteOverhead

def setLatest : List (WriteEntry κ ν) → WriteEntry κ ν → List (WriteEntry κ ν)
  | [], entry => [entry]
  | first :: rest, entry =>
    if first.key = entry.key then entry :: rest else first :: setLatest rest entry

def latestEntries (entries : List (WriteEntry κ ν)) : List (WriteEntry κ ν) :=
  entries.foldl setLatest []

def garbageTime (now : ℚ) : Nat :=
  timestamp (⌈min (maxSafeInteger : ℚ) (now + stagingGarbageDelay)⌉ : ℚ)

def prepareEntry (json : Json ν) (lengths : Lengths κ ι) (now : ℚ)
    (entry : WriteEntry κ ν × ι) : Except (PersistenceError κ) (PreparedEntry κ ι) :=
  let (⟨key, value, ttl⟩, identity) := entry
  let expires := expirationFor ttl now
  match json.stringify value with
  | none => .error (.failed "set" (some key))
  | some encoded =>
    let chunks := splitChunkedValue encoded
    let publicationByteEstimate := lengths.readBytes (.entry key) +
      lengths.mutationBytes (.entry key) (lengths.manifest ⟨identity, expires⟩) +
      lengths.clearBytes (.expires maxSafeInteger key) +
      lengths.mutationBytes (.garbage maxSafeInteger identity) 0 +
      match expires with
      | none => 0
      | some expires =>
        lengths.mutationBytes (.expires (timestamp (expires : ℚ)) key) (lengths.identity identity)
    let chunkBytes := (chunks.zipIdx.map fun (chunk, index) =>
      lengths.mutationBytes (.value identity index) chunk.length).sum
    .ok {
      key
      identity
      expires
      garbageAt := garbageTime now
      chunks
      directByteEstimate := publicationByteEstimate + chunkBytes
      stagedPublicationByteEstimate := publicationByteEstimate +
        lengths.readBytes (.garbage (garbageTime now) identity) +
        lengths.clearBytes (.garbage (garbageTime now) identity) }

def prepareEntries (json : Json ν) (lengths : Lengths κ ι) (now : ℚ)
    (entries : List (WriteEntry κ ν)) (identities : List ι) :
    Except (PersistenceError κ) (List (PreparedEntry κ ι)) :=
  ((latestEntries entries).zip identities).mapM (prepareEntry json lengths now)

/-! ## Staging -/

inductive StagingMutation (ι : Type) where
  | marker (time : Nat) (identity : ι)
  | chunk (identity : ι) (index : Nat) (value : Bytes)
  deriving DecidableEq

def StagingMutation.bytes (lengths : Lengths κ ι) : StagingMutation ι → Nat
  | .marker time identity => lengths.mutationBytes (.garbage time identity) 0
  | .chunk identity index value => lengths.mutationBytes (.value identity index) value.length

def StagingMutation.apply (state : PersistenceState κ ι ε) :
    StagingMutation ι → PersistenceState κ ι ε
  | .marker time identity => setGarbage state time identity
  | .chunk identity index value => setChunk state identity index value

def chunkMutations (entry : PreparedEntry κ ι) : List (StagingMutation ι) :=
  entry.chunks.zipIdx.map fun (chunk, index) => .chunk entry.identity index chunk

def stagingMutations (entry : PreparedEntry κ ι) : List (StagingMutation ι) :=
  .marker entry.garbageAt entry.identity :: chunkMutations entry

/-- The batches that are written one after another, and whether all mutations are in one: one
that is too large for a batch of its own ends the staging. -/
def stageBatches (lengths : Lengths κ ι) :
    List (StagingMutation ι) → List (StagingMutation ι) → Nat → List (List (StagingMutation ι)) × Bool
  | [], batch, _ => (if 0 < batch.length then [batch] else [], true)
  | mutation :: rest, batch, batchBytes =>
    let base := lengths.readBytes .epoch
    let bytes := mutation.bytes lengths
    let flush := 0 < batch.length ∧ transactionByteBudget < batchBytes + bytes
    let flushed := if flush then [batch] else []
    let batch := if flush then [] else batch
    let batchBytes := if flush then base else batchBytes
    if transactionByteBudget < batchBytes + bytes then (flushed, false)
    else
      let (batches, complete) :=
        stageBatches lengths rest (batch ++ [mutation]) (batchBytes + bytes)
      (flushed ++ batches, complete)

variable [DecidableEq ε]

abbrev StoreEpoch (ε : Type) := Option ε

/-- A batch fails when the epoch of the store is not the one that the first batch has read. -/
def writeStageBatch (state : PersistenceState κ ι ε) (mutations : List (StagingMutation ι))
    (expectedEpoch : Option (StoreEpoch ε)) :
    Option (PersistenceState κ ι ε × StoreEpoch ε) :=
  if expectedEpoch.any (· ≠ state.epoch) then none
  else some (mutations.foldl StagingMutation.apply state, expectedEpoch.getD state.epoch)

/-! ## Publication -/

def sameManifest (manifest : Option (EntryManifest ι)) (entry : PreparedEntry κ ι) : Bool :=
  manifest = some ⟨entry.identity, entry.expires⟩

def setManifest (state : PersistenceState κ ι ε) (entry : PreparedEntry κ ι) :
    PersistenceState κ ι ε :=
  { state with entries := state.entries.set entry.key ⟨entry.identity, entry.expires⟩ }

def setExpiration (state : PersistenceState κ ι ε) (entry : PreparedEntry κ ι) :
    PersistenceState κ ι ε :=
  match entry.expires with
  | none => state
  | some expires =>
    { state with
      expires := state.expires.set (toLex (timestamp (expires : ℚ), entry.key)) entry.identity }

/-- The identity that an entry replaces becomes garbage. -/
def replaceManifest (replacedAt : ℚ) (state : PersistenceState κ ι ε) (entry : PreparedEntry κ ι)
    (old : Option (EntryManifest ι)) : PersistenceState κ ι ε :=
  match old with
  | none => state
  | some old =>
    let state := clearExpiration state entry.key old.expires
    if old.identity ≠ entry.identity then setGarbage state (timestamp replacedAt) old.identity
    else state

def publishEntry (staged : Bool) (replacedAt : ℚ) (state : PersistenceState κ ι ε)
    (entry : PreparedEntry κ ι × Option (EntryManifest ι)) : PersistenceState κ ι ε :=
  let (entry, old) := entry
  let state := replaceManifest replacedAt state entry old
  let state := setManifest state entry
  let state := if staged then clearGarbage state entry.garbageAt entry.identity else state
  setExpiration state entry

/-- A publication that needs to be staged again fails. -/
def publishEntries (state : PersistenceState κ ι ε) (entries : List (PreparedEntry κ ι))
    (expectedEpoch : Option (StoreEpoch ε)) (replacedAt : ℚ) :
    Option (PersistenceState κ ι ε) :=
  let staged := expectedEpoch.isSome
  if expectedEpoch.any (· ≠ state.epoch) then none
  else
    let markers := entries.map fun entry =>
      state.garbage.get? (toLex (entry.garbageAt, entry.identity))
    let previous := entries.map fun entry => state.entries.get? entry.key
    if staged ∧ (entries.zip previous).all (fun (entry, old) => sameManifest old entry) then
      some ((entries.zip markers).foldl (fun state (entry, marker) =>
        if marker.isSome then clearGarbage state entry.garbageAt entry.identity else state) state)
    else if staged ∧ markers.any Option.isNone then none
    else
      let state :=
        if staged then state
        else (entries.flatMap chunkMutations).foldl StagingMutation.apply state
      some ((entries.zip previous).foldl (publishEntry staged replacedAt) state)

inductive WritePlan (ι : Type) where
  | direct
  | staged (batches : List (List (StagingMutation ι))) (complete : Bool)
  | tooLarge

def writePlan (lengths : Lengths κ ι) (prepared : List (PreparedEntry κ ι)) : WritePlan ι :=
  let epochBytes := lengths.readBytes .epoch
  if epochBytes + (prepared.map PreparedEntry.directByteEstimate).sum ≤ transactionByteBudget then
    .direct
  else if transactionByteBudget <
      epochBytes + (prepared.map PreparedEntry.stagedPublicationByteEstimate).sum then
    .tooLarge
  else
    let (batches, complete) := stageBatches lengths (prepared.flatMap stagingMutations) [] epochBytes
    .staged batches complete

/-! ## Concurrent calls -/

/-- How far a `set` or `setMany` call has come. A commit of a publication whose result is unknown
may have been applied, and the publication then runs again. -/
inductive Phase (ι ε : Type) where
  | preparing
  | staging (batches : List (List (StagingMutation ι))) (complete : Bool)
      (epoch : Option (StoreEpoch ε))
  | publishing (epoch : Option (StoreEpoch ε)) (replacedAt : ℚ) (again : Bool)
  | finished (published : Bool)

structure Writer (κ ι ν ε : Type) where
  entries : List (WriteEntry κ ν)
  preparedAt : ℚ := 0
  prepared : List (PreparedEntry κ ι) := []
  phase : Phase ι ε := .preparing

/-- A store, the clock, the calls that write to the store, and the entries that each identity has
been drawn for. -/
structure World (κ ι ν ε ω : Type) [LinearOrder κ] [LinearOrder ι] where
  store : PersistenceState κ ι ε := {}
  now : ℚ := 0
  writers : ω → Option (Writer κ ι ν ε) := fun _ => none
  issued : List (ι × WriteEntry κ ν) := []

/-- A transaction that commits, or another step of the system. With `unknown` the transaction
commits without its caller knowing, and is to run again. -/
inductive Event (κ ι ν ε ω : Type) where
  | tick (now : ℚ)
  | call (writer : ω) (entries : List (WriteEntry κ ν))
  | prepare (writer : ω) (identities : List ι)
  | stage (writer : ω) (unknown : Bool)
  | publish (writer : ω) (unknown : Bool)
  | get (key : κ)
  | getMany (keys : List κ)
  | remove (key : κ)
  | clear (nextEpoch : ε)
  | cleanup

def Phase.start (now : ℚ) : WritePlan ι → Phase ι ε
  | .direct => .publishing none now false
  | .tooLarge => .finished false
  | .staged [] _ => .finished false
  | .staged batches complete => .staging batches complete none

def Phase.staged (now : ℚ) (epoch : StoreEpoch ε) (complete : Bool) :
    List (List (StagingMutation ι)) → Phase ι ε
  | [] => if complete then .publishing (some epoch) now false else .finished false
  | batches => .staging batches complete (some epoch)

variable {ω : Type} [DecidableEq ω]

def World.setPhase (world : World κ ι ν ε ω) (name : ω) (writer : Writer κ ι ν ε)
    (phase : Phase ι ε) : World κ ι ν ε ω :=
  { world with writers := Function.update world.writers name (some { writer with phase }) }

def World.prepare (json : Json ν) (lengths : Lengths κ ι) (world : World κ ι ν ε ω) (name : ω)
    (writer : Writer κ ι ν ε) (identities : List ι) : World κ ι ν ε ω :=
  match prepareEntries json lengths world.now writer.entries identities with
  | .error _ => world.setPhase name writer (.finished false)
  | .ok prepared =>
    let writer := { writer with preparedAt := world.now, prepared }
    let world := world.setPhase name writer (.start world.now (writePlan lengths prepared))
    { world with issued := identities.zip (latestEntries writer.entries) ++ world.issued }

def World.stage (world : World κ ι ν ε ω) (name : ω) (writer : Writer κ ι ν ε)
    (batch : List (StagingMutation ι)) (rest : List (List (StagingMutation ι))) (complete : Bool)
    (epoch : Option (StoreEpoch ε)) (unknown : Bool) : World κ ι ν ε ω :=
  match writeStageBatch world.store batch epoch with
  | none => world.setPhase name writer .preparing
  | some (store, epoch) =>
    let world := { world with store }
    if unknown then world
    else world.setPhase name writer (.staged world.now epoch complete rest)

def World.publish (world : World κ ι ν ε ω) (name : ω) (writer : Writer κ ι ν ε)
    (epoch : Option (StoreEpoch ε)) (replacedAt : ℚ) (unknown : Bool) : World κ ι ν ε ω :=
  match publishEntries world.store writer.prepared epoch replacedAt with
  | none => world.setPhase name writer .preparing
  | some store =>
    { world with store }.setPhase name writer
      (if unknown then .publishing epoch replacedAt true else .finished true)

/-- Identities are random and never drawn twice, and the clock does not go back. -/
def World.step (json : Json ν) (lengths : Lengths κ ι) (world : World κ ι ν ε ω) :
    Event κ ι ν ε ω → Option (World κ ι ν ε ω)
  | .tick now => if world.now ≤ now then some { world with now } else none
  | .call name entries =>
    match world.writers name with
    | some _ => none
    | none =>
      some { world with writers := Function.update world.writers name (some { entries }) }
  | .prepare name identities =>
    match world.writers name with
    | some writer =>
      match writer.phase with
      | .preparing =>
        if identities.length = (latestEntries writer.entries).length ∧ identities.Nodup ∧
            ∀ identity ∈ identities, ∀ issued ∈ world.issued, issued.1 ≠ identity then
          some (world.prepare json lengths name writer identities)
        else none
      | _ => none
    | none => none
  | .stage name unknown =>
    match world.writers name with
    | some writer =>
      match writer.phase with
      | .staging (batch :: rest) complete epoch =>
        some (world.stage name writer batch rest complete epoch unknown)
      | _ => none
    | none => none
  | .publish name unknown =>
    match world.writers name with
    | some writer =>
      match writer.phase with
      | .publishing epoch replacedAt _ =>
        some (world.publish name writer epoch replacedAt unknown)
      | _ => none
    | none => none
  | .get key =>
    match resolveEntry json world.now world.store key with
    | .ok (store, _) => some { world with store }
    | .error _ => some world
  | .getMany keys =>
    match Backing.getMany json world.now world.store keys with
    | .ok (store, _) => some { world with store }
    | .error _ => some world
  | .remove key => some { world with store := Backing.remove world.store key }
  | .clear nextEpoch => some { world with store := Backing.clear nextEpoch }
  | .cleanup => some { world with store := (cleanupBatch world.now world.store).1 }

end

end FoundationDbEffect.Persistence.Backing
