import FoundationDbEffect.Directory.Allocator
import FoundationDbEffect.Tuple.Subspace

/-!
# Directory metadata

A layer keeps its tree in the rows under its node subspace.  The node of a directory is the
subspace of its prefix; below it stand a row with the layer of the directory and a row for
each child, from the name of the child to its prefix.  The root is the node of the prefix of
the node subspace itself, and holds the version of the layer and the rows of the allocator.
A subspace is given by its prefix here.
-/

namespace FoundationDbEffect.Directory

open FoundationDbEffect.Foundation FoundationDbEffect.TupleLayer
open FoundationDbEffect.Foundation.ByteOrder

abbrev Rows := OrderedMap Bytes Bytes

abbrev DirectoryPath := List CodeUnits

def nodePrefix : Bytes := [0xfe]

def versionTag : Bytes := encodeUtf8 ['v', 'e', 'r', 's', 'i', 'o', 'n']

def hcaTag : Bytes := encodeUtf8 ['h', 'c', 'a']

def layerTag : Bytes := encodeUtf8 ['l', 'a', 'y', 'e', 'r']

def partitionTag : Bytes := encodeUtf8 ['p', 'a', 'r', 't', 'i', 't', 'i', 'o', 'n']

def directoryVersion : Bytes := [1, 0, 0, 0, 0, 0, 0, 0, 0, 0, 0, 0]

inductive DirectoryErrorReason where
  | cannotModifyRootDirectory
  | directoryPrefixInUse
  | directoryDoesNotExist
  | noPathProvided
  | directoryAlreadyExists
  | pathDoesNotExist
  | parentDirectoryDoesNotExist
  | incompatibleLayer
  | badDestinationDirectory
  | versionError
  | prefixNotAllowed
  | cannotPrefixInPartition
  | cannotMoveRootDirectory
  | cannotMoveBetweenPartitions
  | cannotMoveIntoSubdirectory
  | prefixNotEmpty
  | cannotCreateSubpath
  | invalidMetadata
  | invalidPrefix
  deriving DecidableEq, Repr

/-- A failed operation. An operation is `exhausted` when its recursion, or the allocator, is
given fewer steps than it needs; the source knows no such failure. -/
inductive DirectoryFailure where
  | error (reason : DirectoryErrorReason) (message : CodeUnits)
  | exhausted
  deriving DecidableEq, Repr

def text (characters : String) : CodeUnits := fromScalars characters.toList

def error (reason : DirectoryErrorReason) (message : String) : DirectoryFailure :=
  .error reason (text message)

def invalidMetadata (message : String) : DirectoryFailure := error .invalidMetadata message

def pathError (reason : DirectoryErrorReason) (path : DirectoryPath) (message : String) :
    DirectoryFailure :=
  .error reason (text "directory /" ++ (text "/").intercalate path ++ text message)

def mapTupleError {α : Type} (effect : Except TupleError α) (message : String) :
    Except DirectoryFailure α :=
  effect.mapError fun cause => invalidMetadata (message ++ ": " ++ cause.reason)

def startsWith (value prefixBytes : Bytes) : Bool := prefixBytes.isPrefixOf value

def pathStartsWith (value head : DirectoryPath) : Bool := head.isPrefixOf value

/-- The first key after every key with this prefix; empty when there is none. -/
def strinc (key : Bytes) : Bytes :=
  match key.reverse.dropWhile (· = 0xff) with
  | [] => []
  | last :: front => front.reverse ++ [last + 1]

def incrementPrefix (prefixBytes : Bytes) : Except DirectoryFailure Bytes :=
  if (strinc prefixBytes).isEmpty then
    .error (error .invalidPrefix "directory prefix has no lexicographic successor")
  else .ok (strinc prefixBytes)

def packed (subspace : Bytes) (tuple : Tuple) (description : String) :
    Except DirectoryFailure Bytes :=
  mapTupleError ((Subspace.fromBytes subspace).pack tuple) description

def childSubspace (subspace : Bytes) (tuple : Tuple) (description : String) :
    Except DirectoryFailure Bytes :=
  packed subspace tuple description

def unpacked (subspace : Bytes) (key : Bytes) (description : String) :
    Except DirectoryFailure Tuple :=
  match (Subspace.fromBytes subspace).unpack key with
  | none => .error .exhausted
  | some tuple => mapTupleError tuple description

def subspaceRange (subspace : Bytes) (tuple : Tuple) : Except DirectoryFailure (Bytes × Bytes) :=
  mapTupleError ((Subspace.fromBytes subspace).range tuple) "invalid directory metadata range"

def firstInRange (rows : Rows) (begin stop : Bytes) (reverse : Bool) : Option (Bytes × Bytes) :=
  if reverse then rows.last? (interval begin stop) else rows.first? (interval begin stop)

def allInRange (rows : Rows) (begin stop : Bytes) : List (Bytes × Bytes) :=
  rows.rows (interval begin stop)

def asBytes (value : Option TupleValue) (description : String) : Except DirectoryFailure Bytes :=
  match value with
  | some (.bytes value) => .ok value
  | _ => .error (invalidMetadata (description ++ " is not a byte string"))

def asInteger (value : Option TupleValue) (description : String) : Except DirectoryFailure Int :=
  match value with
  | some (.integer value) => .ok value
  | _ => .error (invalidMetadata (description ++ " is not an integer"))

def asString (value : Option TupleValue) (description : String) :
    Except DirectoryFailure CodeUnits :=
  match value with
  | some (.string value) => .ok value
  | _ => .error (invalidMetadata (description ++ " is not a string"))

def directoryChildName (tuple : Tuple) : Except DirectoryFailure CodeUnits :=
  match tuple with
  | [.integer 0, name] => asString (some name) "directory child name"
  | _ => .error (invalidMetadata
      "directory child key must contain exactly an integer zero and a name")

def allocatorWindow (tuple : Tuple) : Except DirectoryFailure Int :=
  match tuple with
  | [window] => asInteger (some window) "allocator counter window"
  | _ => .error (invalidMetadata "allocator counter key must contain exactly one integer")

structure DirectoryLayerState where
  nodeSubspace : Bytes
  contentSubspace : Bytes
  allowManualPrefixes : Bool
  path : DirectoryPath
  deriving DecidableEq, Repr

def nodeKey (nodeSubspace : Bytes) (prefixBytes : Bytes) : Bytes :=
  nodeSubspace ++ encodeTuple false [.bytes prefixBytes]

def DirectoryLayerState.rootNode (layer : DirectoryLayerState) : Bytes :=
  nodeKey layer.nodeSubspace layer.nodeSubspace

def DirectoryLayerState.allocator (layer : DirectoryLayerState) : Bytes :=
  layer.rootNode ++ encodeTuple false [.bytes hcaTag]

end FoundationDbEffect.Directory
