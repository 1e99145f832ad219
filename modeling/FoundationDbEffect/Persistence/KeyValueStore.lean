import FoundationDbEffect.Foundation.Occ
import FoundationDbEffect.Foundation.Unicode
import FoundationDbEffect.Persistence.ChunkedValue
import Mathlib.Data.BitVec
import Mathlib.Data.Set.Basic

/-!
# The key-value store

A store keeps its values in chunks and the number of its keys in a counter, which sets and
removals change by atomic additions and which they do not read.

A string is the list of its UTF-16 code units. Base64 and what the text decoder gives for bytes
that are not UTF-8 are parameters.
-/

namespace FoundationDbEffect.Persistence.KeyValueStore

open FoundationDbEffect.Foundation

/-! ## Values -/

def valueTypeString : UInt8 := 0

def valueTypeUint8Array : UInt8 := 1

inductive StoreValue where
  | string (value : CodeUnits)
  | bytes (value : Bytes)
  deriving DecidableEq, Repr

inductive KeyValueStoreDataError where
  | invalidValueType
  | invalidSizeMetadata
  | sizeMetadataOutOfRange
  deriving DecidableEq, Repr

structure KeyValueStoreError (κ : Type) where
  method : String
  key : Option κ
  cause : KeyValueStoreDataError
  deriving DecidableEq, Repr

def storeError {κ : Type} (method : String) (key : Option κ) (cause : KeyValueStoreDataError) :
    KeyValueStoreError κ :=
  { method, key, cause }

structure Codecs where
  base64 : Bytes → CodeUnits
  replaced : Bytes → CodeUnits

def encodeText (value : CodeUnits) : Bytes := encodeUtf8 (scalars value)

def byteOrderMark : Bytes := [0xef, 0xbb, 0xbf]

/-- The text decoder with its default options: it removes a byte order mark. -/
def Codecs.decodeText (codecs : Codecs) (value : Bytes) : CodeUnits :=
  let value := if value.take 3 = byteOrderMark then value.drop 3 else value
  match decodeUtf8 value with
  | some characters => fromScalars characters
  | none => codecs.replaced value

def encodeValue : StoreValue → Bytes
  | .string value => valueTypeString :: encodeText value
  | .bytes value => valueTypeUint8Array :: value

def Codecs.decodeString (codecs : Codecs) : Bytes → Except KeyValueStoreDataError CodeUnits
  | [] => .error .invalidValueType
  | valueType :: payload =>
    if valueType = valueTypeString then .ok (codecs.decodeText payload)
    else if valueType = valueTypeUint8Array then .ok (codecs.base64 payload)
    else .error .invalidValueType

def decodeBytes : Bytes → Except KeyValueStoreDataError Bytes
  | [] => .error .invalidValueType
  | valueType :: payload =>
    if valueType ≠ valueTypeString ∧ valueType ≠ valueTypeUint8Array then
      .error .invalidValueType
    else .ok payload

/-! ## The store -/

/-- The rows of a store. The counter is a little-endian integer of eight bytes. -/
structure StoreState (κ : Type) [LinearOrder κ] where
  entries : ChunkRows κ
  size : Option (BitVec 64)

inductive StoreMutation (κ : Type) where
  | entry (mutation : ChunkMutation κ)
  | addSize (delta : Int)
  | clearEntries
  | setSize (count : Int)
  deriving DecidableEq

inductive StoreKey (κ : Type) where
  | chunk (key : κ) (index : Nat)
  | size
  deriving DecidableEq

def maxSafeInteger : Nat := 2 ^ 53 - 1

def decodeSize : Option (BitVec 64) → Except KeyValueStoreDataError Nat
  | none => .ok 0
  | some value =>
    let count := value.toInt
    if count < 0 ∨ (maxSafeInteger : Int) < count then .error .sizeMetadataOutOfRange
    else .ok count.toNat

section

variable {κ : Type} [LinearOrder κ]

def StoreState.empty : StoreState κ := ⟨∅, none⟩

/-- An addition takes a missing counter for zero. -/
def StoreState.apply (state : StoreState κ) : StoreMutation κ → StoreState κ
  | .entry mutation => { state with entries := mutation.apply state.entries }
  | .addSize delta =>
      { state with size := some (state.size.getD 0 + BitVec.ofInt 64 delta) }
  | .clearEntries => { state with entries := ∅ }
  | .setSize count => { state with size := some (BitVec.ofInt 64 count) }

/-! ## Transactions -/

/-- A range read of one row conflicts up to that row, or with the whole range if there is none. -/
def hasReads (rows : ChunkRows κ) (key : κ) : Set (StoreKey κ) :=
  {row | ∃ index, row = .chunk key index ∧
    ∀ first, rows.first? (chunkedValueRange key) = some first → index ≤ chunkIndex first.1}

def keyRows (key : κ) : Set (StoreKey κ) := {row | ∃ index, row = .chunk key index}

def allRows : Set (StoreKey κ) := {row | ∃ key index, row = .chunk key index}

abbrev StoreTransaction (κ : Type) := Transaction (StoreMutation κ) (StoreKey κ) Unit

def set (readVersion : Nat) (snapshot : StoreState κ) (key : κ) (value : StoreValue) :
    StoreTransaction κ :=
  let stored := hasChunkedValue snapshot.entries key
  { readVersion
    mutations := (if stored then [] else [.addSize 1]) ++
      (writeChunkedValue key (encodeValue value)).map .entry
    reads := hasReads snapshot.entries key
    writes := if stored then keyRows key else insert .size (keyRows key)
    result := () }

def remove (readVersion : Nat) (snapshot : StoreState κ) (key : κ) : StoreTransaction κ :=
  let stored := hasChunkedValue snapshot.entries key
  { readVersion
    mutations := if stored then (clearChunkedValue key).map .entry ++ [.addSize (-1)] else []
    reads := hasReads snapshot.entries key
    writes := if stored then insert .size (keyRows key) else ∅
    result := () }

def clear (readVersion : Nat) : StoreTransaction κ :=
  { readVersion
    mutations := [.clearEntries, .setSize 0]
    reads := ∅
    writes := insert .size allRows
    result := () }

/-- A modification of a missing key changes nothing, and one of a value that cannot be decoded
fails. -/
def modify {α : Type} (readVersion : Nat) (snapshot : StoreState κ) (key : κ)
    (decode : Bytes → Except KeyValueStoreDataError α) (encode : α → StoreValue) (f : α → α) :
    Except KeyValueStoreDataError (StoreTransaction κ × Option α) :=
  match readChunkedValue snapshot.entries key with
  | none => .ok ({ readVersion, mutations := [], reads := keyRows key, writes := ∅, result := () },
      none)
  | some encoded => do
    let updated := f (← decode encoded)
    .ok ({ readVersion
           mutations := (writeChunkedValue key (encodeValue (encode updated))).map .entry
           reads := keyRows key
           writes := keyRows key
           result := () }, some updated)

def get (codecs : Codecs) (state : StoreState κ) (key : κ) :
    Except (KeyValueStoreError κ) (Option CodeUnits) :=
  match readChunkedValue state.entries key with
  | none => .ok none
  | some value =>
    ((codecs.decodeString value).map some).mapError (storeError "get" (some key))

def getUint8Array (state : StoreState κ) (key : κ) :
    Except (KeyValueStoreError κ) (Option Bytes) :=
  match readChunkedValue state.entries key with
  | none => .ok none
  | some value =>
    ((decodeBytes value).map some).mapError (storeError "getUint8Array" (some key))

def has (state : StoreState κ) (key : κ) : Bool := hasChunkedValue state.entries key

def size (state : StoreState κ) : Except (KeyValueStoreError κ) Nat :=
  (decodeSize state.size).mapError (storeError "size" none)

def isEmpty (state : StoreState κ) : Except (KeyValueStoreError κ) Bool :=
  (size state).map fun count => count = 0

inductive StoreCall (κ : Type) where
  | set (key : κ) (value : StoreValue)
  | remove (key : κ)
  | modify (key : κ) (f : CodeUnits → CodeUnits)
  | modifyUint8Array (key : κ) (f : Bytes → Bytes)
  | clear

def StoreCall.run (codecs : Codecs) (readVersion : Nat) (snapshot : StoreState κ) :
    StoreCall κ → Except (KeyValueStoreError κ) (StoreTransaction κ)
  | .set key value => .ok (KeyValueStore.set readVersion snapshot key value)
  | .remove key => .ok (KeyValueStore.remove readVersion snapshot key)
  | .modify key f =>
      ((KeyValueStore.modify readVersion snapshot key codecs.decodeString .string f).map
        Prod.fst).mapError (storeError "modify" (some key))
  | .modifyUint8Array key f =>
      ((KeyValueStore.modify readVersion snapshot key decodeBytes .bytes f).map
        Prod.fst).mapError (storeError "modifyUint8Array" (some key))
  | .clear => .ok (KeyValueStore.clear readVersion)

/-- Histories of committed calls of any clients. A call whose body ran again after an ambiguous
commit may be in a history more than once. -/
abbrev StoreHistory (codecs : Codecs) : List (StoreTransaction κ) → Prop :=
  Occ.Committed (fun _ => StoreState.apply) StoreState.empty fun snapshot transaction =>
    ∃ call : StoreCall κ, call.run codecs transaction.readVersion snapshot = .ok transaction

def stateAt : List (StoreTransaction κ) → StoreState κ :=
  Occ.stateAt (fun _ => StoreState.apply) StoreState.empty

end

end FoundationDbEffect.Persistence.KeyValueStore
