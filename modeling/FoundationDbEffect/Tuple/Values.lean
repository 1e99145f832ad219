import FoundationDbEffect.Foundation.Unicode

/-!
# Tuple values

The element types of the tuple layer.  Fixed-width values carry their width;
a string is its UTF-16 code units and a `number` the binary64 bit pattern that
a packing spells.  Which bits a JavaScript engine keeps of a NaN is the subject
of `Tuple.Numbers`.
-/

namespace FoundationDbEffect.TupleLayer

open FoundationDbEffect.Foundation

inductive Operation where
  | pack
  | unpack
  deriving DecidableEq, Repr

structure TupleError where
  operation : Operation
  reason : String
  deriving DecidableEq, Repr

/-- An IEEE-754 binary32 tuple value. -/
structure Float32 where
  bits : UInt32
  deriving DecidableEq, Repr

structure Uuid where
  bytes : Bytes
  length_eq : bytes.length = 16
  deriving DecidableEq, Repr

/-- A 10-byte transaction version followed by a 2-byte user version. -/
structure Versionstamp where
  bytes : Bytes
  length_eq : bytes.length = 12
  deriving DecidableEq, Repr

namespace Versionstamp

def isComplete (stamp : Versionstamp) : Bool :=
  (stamp.bytes.take 10).any (· != 0xff)

def complete (transaction : Bytes) (userVersion : UInt16)
    (h : transaction.length = 10) : Versionstamp where
  bytes := transaction ++ toBigEndian 2 userVersion.toNat
  length_eq := by simp [h]

def incomplete (userVersion : UInt16) : Versionstamp :=
  complete (List.replicate 10 0xff) userVersion (by simp)

end Versionstamp

inductive TupleValue where
  | null
  | boolean (value : Bool)
  | bytes (value : Bytes)
  | string (value : CodeUnits)
  | integer (value : Int)
  | float32 (value : Float32)
  | number (bits : UInt64)
  | uuid (value : Uuid)
  | versionstamp (value : Versionstamp)
  | tuple (children : List TupleValue)
  deriving Repr

abbrev Tuple := List TupleValue

end FoundationDbEffect.TupleLayer
