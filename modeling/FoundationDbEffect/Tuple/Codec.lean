import FoundationDbEffect.Tuple.Values

/-!
# The tuple codec

`pack` appends one element after the other to an output and records where
incomplete versionstamps start.  `unpack` is the parser of `codec.ts`: a byte
position, a scanner for escaped byte strings, and one loop for the top level
and for nested tuples.
-/

namespace FoundationDbEffect.TupleLayer

open FoundationDbEffect.Foundation

abbrev nilCode : UInt8 := 0x00
abbrev bytesCode : UInt8 := 0x01
abbrev stringCode : UInt8 := 0x02
abbrev nestedCode : UInt8 := 0x05
abbrev negativeBigIntegerCode : UInt8 := 0x0b
abbrev integerZeroCode : UInt8 := 0x14
abbrev positiveBigIntegerCode : UInt8 := 0x1d
abbrev floatCode : UInt8 := 0x20
abbrev doubleCode : UInt8 := 0x21
abbrev falseCode : UInt8 := 0x26
abbrev trueCode : UInt8 := 0x27
abbrev uuidCode : UInt8 := 0x30
abbrev versionstampCode : UInt8 := 0x33
abbrev escapeByte : UInt8 := 0xff
abbrev maxSmallIntegerBytes : Nat := 8
abbrev maxBigIntegerBytes : Nat := 255

/-! ## Packing -/

/-- The output array of a pack and the offsets of its incomplete stamps. -/
structure PackedTuple where
  bytes : Bytes
  incompleteVersionstamps : List Nat
  deriving DecidableEq, Repr

def PackedTuple.push (output : PackedTuple) (bytes : Bytes) : PackedTuple :=
  { output with bytes := output.bytes ++ bytes }

def appendEscaped (output : PackedTuple) (value : Bytes) : PackedTuple :=
  (value.foldl (fun output byte =>
    if byte = nilCode then (output.push [byte]).push [escapeByte]
    else output.push [byte]) output).push [nilCode]

def unpairedSurrogate : TupleError :=
  ⟨.pack, "string contains an unpaired UTF-16 surrogate"⟩

def assertWellFormedString : CodeUnits → Except TupleError Unit
  | [] => .ok ()
  | [code] =>
      if isHighSurrogate code then .error unpairedSurrogate
      else if isLowSurrogate code then .error unpairedSurrogate
      else .ok ()
  | code :: next :: rest =>
      if isHighSurrogate code then
        if isLowSurrogate next then assertWellFormedString rest
        else .error unpairedSurrogate
      else if isLowSurrogate code then .error unpairedSurrogate
      else assertWellFormedString (next :: rest)

/-- Base-256 digits of a magnitude, most significant first; none for zero. -/
def magnitudeBytes (value : Nat) : Bytes :=
  ((Nat.digits 256 value).map UInt8.ofNat).reverse

def integerTooLarge : TupleError :=
  ⟨.pack, "integer magnitude requires more than 255 bytes"⟩

def appendInteger (output : PackedTuple) (value : Int) :
    Except TupleError PackedTuple :=
  if value = 0 then .ok (output.push [integerZeroCode])
  else
    let negative : Bool := value < 0
    let bytes := magnitudeBytes value.natAbs
    if bytes.length > maxBigIntegerBytes then .error integerTooLarge
    else
      let length := UInt8.ofNat bytes.length
      let output :=
        if bytes.length ≤ maxSmallIntegerBytes then
          output.push
            [if negative then integerZeroCode - length
              else integerZeroCode + length]
        else
          output.push
            [if negative then negativeBigIntegerCode else positiveBigIntegerCode,
              if negative then length ^^^ 0xff else length]
      .ok (output.push (if negative then complement bytes else bytes))

/-- Flip every bit of a negative float, and only the sign of any other. -/
def orderedFloat : Bytes → Bytes
  | [] => []
  | first :: rest =>
      if first &&& 0x80 ≠ 0 then complement (first :: rest)
      else (first ^^^ 0x80) :: rest

def appendOrderedFloat (output : PackedTuple) (code : UInt8) (encoded : Bytes) :
    PackedTuple :=
  output.push (code :: orderedFloat encoded)

def appendFloat (output : PackedTuple) (value : Float32) : PackedTuple :=
  appendOrderedFloat output floatCode (toBigEndian 4 value.bits.toNat)

def appendDouble (output : PackedTuple) (bits : UInt64) : PackedTuple :=
  appendOrderedFloat output doubleCode (toBigEndian 8 bits.toNat)

def appendVersionstamp (output : PackedTuple) (value : Versionstamp) :
    PackedTuple :=
  let output := output.push [versionstampCode]
  let output :=
    if value.isComplete then output
    else { output with
      incompleteVersionstamps :=
        output.incompleteVersionstamps ++ [output.bytes.length] }
  output.push value.bytes

mutual

def appendValue (output : PackedTuple) (nested : Bool) :
    TupleValue → Except TupleError PackedTuple
  | .null =>
      .ok (if nested then (output.push [nilCode]).push [escapeByte]
        else output.push [nilCode])
  | .bytes value => .ok (appendEscaped (output.push [bytesCode]) value)
  | .string value => do
      assertWellFormedString value
      .ok (appendEscaped (output.push [stringCode]) (encodeUtf8 (scalars value)))
  | .integer value => appendInteger output value
  | .float32 value => .ok (appendFloat output value)
  | .number bits => .ok (appendDouble output bits)
  | .boolean value => .ok (output.push [if value then trueCode else falseCode])
  | .uuid value => .ok (output.push (uuidCode :: value.bytes))
  | .versionstamp value => .ok (appendVersionstamp output value)
  | .tuple children => do
      let output ← appendValues (output.push [nestedCode]) true children
      .ok (output.push [nilCode])

def appendValues (output : PackedTuple) (nested : Bool) :
    List TupleValue → Except TupleError PackedTuple
  | [] => .ok output
  | value :: rest => do
      let output ← appendValue output nested value
      appendValues output nested rest

end

def packTrackedSync (tuple : Tuple) : Except TupleError PackedTuple :=
  appendValues ⟨[], []⟩ false tuple

def pack (tuple : Tuple) : Except TupleError Bytes :=
  (packTrackedSync tuple).map PackedTuple.bytes

def compareBytes : Bytes → Bytes → Ordering
  | [], [] => .eq
  | [], _ :: _ => .lt
  | _ :: _, [] => .gt
  | l :: left, r :: right =>
      if l ≠ r then (if l < r then .lt else .gt) else compareBytes left right

def compareTuples (left right : Tuple) : Except TupleError Ordering := do
  let leftBytes ← pack left
  let rightBytes ← pack right
  .ok (compareBytes leftBytes rightBytes)

/-! ## Unpacking -/

/-- The bytes not yet read and how many were read before them. -/
structure Parser where
  offset : Nat
  rest : Bytes
  deriving DecidableEq, Repr

def Parser.fail (p : Parser) (reason : String) : TupleError :=
  ⟨.unpack, s!"{reason} at byte {p.offset}"⟩

def Parser.readByte (p : Parser) : Except TupleError (UInt8 × Parser) :=
  match p.rest with
  | [] => .error (p.fail "truncated tuple")
  | byte :: rest => .ok (byte, ⟨p.offset + 1, rest⟩)

def Parser.read (p : Parser) (length : Nat) : Except TupleError (Bytes × Parser) :=
  if p.rest.length < length then .error (p.fail "truncated tuple")
  else .ok (p.rest.take length, ⟨p.offset + length, p.rest.drop length⟩)

/-- Scan an escaped byte string; `value` holds the bytes already scanned. -/
def scanEscaped (value : Bytes) (offset : Nat) :
    Bytes → Except TupleError (Bytes × Parser)
  | [] => .error ((⟨offset, []⟩ : Parser).fail "unterminated byte or string value")
  | [byte] =>
      if byte ≠ nilCode then scanEscaped (value ++ [byte]) (offset + 1) []
      else .ok (value, ⟨offset + 1, []⟩)
  | byte :: next :: rest =>
      if byte ≠ nilCode then
        scanEscaped (value ++ [byte]) (offset + 1) (next :: rest)
      else if next = escapeByte then
        scanEscaped (value ++ [nilCode]) (offset + 2) rest
      else .ok (value, ⟨offset + 1, next :: rest⟩)

def Parser.readEscaped (p : Parser) : Except TupleError (Bytes × Parser) :=
  scanEscaped [] p.offset p.rest

def Parser.readIntegerBytes (p : Parser) (negative : Bool) (length : Nat) :
    Except TupleError (Int × Parser) := do
  let (encoded, p) ← p.read length
  let magnitude := fromBigEndian (if negative then complement encoded else encoded)
  .ok (if negative then -(magnitude : Int) else magnitude, p)

def Parser.readInteger (p : Parser) (code : UInt8) :
    Except TupleError (Int × Parser) :=
  let negative : Bool := code < integerZeroCode
  if code = negativeBigIntegerCode then do
    let (length, p) ← p.readByte
    p.readIntegerBytes negative (length ^^^ 0xff).toNat
  else if code = positiveBigIntegerCode then do
    let (length, p) ← p.readByte
    p.readIntegerBytes negative length.toNat
  else
    p.readIntegerBytes negative
      (((code.toNat : Int) - integerZeroCode.toNat).natAbs)

/-- The inverse of `orderedFloat`. -/
def unorderedFloat : Bytes → Bytes
  | [] => []
  | first :: rest =>
      if first &&& 0x80 ≠ 0 then (first ^^^ 0x80) :: rest
      else complement (first :: rest)

def Parser.readOrderedFloat (p : Parser) (length : Nat) :
    Except TupleError (Bytes × Parser) := do
  let (encoded, p) ← p.read length
  .ok (unorderedFloat encoded, p)

def Parser.readFloat (p : Parser) : Except TupleError (Float32 × Parser) := do
  let (encoded, p) ← p.readOrderedFloat 4
  .ok (⟨UInt32.ofNat (fromBigEndian encoded)⟩, p)

def Parser.readDouble (p : Parser) : Except TupleError (UInt64 × Parser) := do
  let (encoded, p) ← p.readOrderedFloat 8
  .ok (UInt64.ofNat (fromBigEndian encoded), p)

def Parser.readString (p : Parser) : Except TupleError (CodeUnits × Parser) := do
  let (encoded, p) ← p.readEscaped
  match decodeUtf8 encoded with
  | none => .error (p.fail "string is not valid UTF-8")
  | some cs => .ok (fromScalars cs, p)

def Parser.readUuid (p : Parser) : Except TupleError (Uuid × Parser) :=
  if h : p.rest.length < 16 then .error (p.fail "truncated tuple")
  else .ok (⟨p.rest.take 16, by rw [List.length_take]; omega⟩,
    ⟨p.offset + 16, p.rest.drop 16⟩)

def Parser.readVersionstamp (p : Parser) :
    Except TupleError (Versionstamp × Parser) :=
  if h : p.rest.length < 12 then .error (p.fail "truncated tuple")
  else .ok (⟨p.rest.take 12, by rw [List.length_take]; omega⟩,
    ⟨p.offset + 12, p.rest.drop 12⟩)

def hexByte (byte : UInt8) : String :=
  String.ofList [Nat.digitChar (byte.toNat / 16), Nat.digitChar (byte.toNat % 16)]

def invalidTypeCode (code : UInt8) : String :=
  "unsupported or invalid tuple type code 0x" ++ hexByte code

/-- Read the value that follows `code`; every code but that of a nested tuple. -/
def Parser.readScalar (p : Parser) (code : UInt8) :
    Except TupleError (TupleValue × Parser) :=
  if code = nilCode then .ok (.null, p)
  else if code = bytesCode then p.readEscaped.map fun (v, p) => (.bytes v, p)
  else if code = stringCode then p.readString.map fun (v, p) => (.string v, p)
  else if code = integerZeroCode then .ok (.integer 0, p)
  else if code = floatCode then p.readFloat.map fun (v, p) => (.float32 v, p)
  else if code = doubleCode then p.readDouble.map fun (v, p) => (.number v, p)
  else if code = falseCode then .ok (.boolean false, p)
  else if code = trueCode then .ok (.boolean true, p)
  else if code = uuidCode then p.readUuid.map fun (v, p) => (.uuid v, p)
  else if code = versionstampCode then
    p.readVersionstamp.map fun (v, p) => (.versionstamp v, p)
  else if (integerZeroCode - 8 ≤ code ∧ code ≤ integerZeroCode + 8) ∨
      code = negativeBigIntegerCode ∨ code = positiveBigIntegerCode then
    (p.readInteger code).map fun (v, p) => (.integer v, p)
  else .error (p.fail (invalidTypeCode code))

/-- Outcome of a fuelled read; `none` means the fuel was exhausted. -/
abbrev Parse (α : Type) := Option (Except TupleError (α × Parser))

def Parser.readValue (p : Parser) (readNested : Parser → Parse Tuple)
    (code : UInt8) : Parse TupleValue :=
  if code = nestedCode then
    (readNested p).map fun result => result.map fun (children, p) => (.tuple children, p)
  else some (p.readScalar code)

/-- The loop of a tuple; each round costs one unit of fuel. -/
def readTuple : Nat → Bool → List TupleValue → Parser → Parse Tuple
  | 0, _, _, _ => none
  | fuel + 1, nested, values, p =>
      match p.rest with
      | [] =>
          if nested then some (.error (p.fail "unterminated nested tuple"))
          else some (.ok (values, p))
      | code :: rest =>
          let p : Parser := ⟨p.offset + 1, rest⟩
          if nested ∧ code = nilCode then
            if rest.head? = some escapeByte then
              readTuple fuel nested (values ++ [.null]) ⟨p.offset + 1, rest.tail⟩
            else some (.ok (values, p))
          else
            match p.readValue (readTuple fuel true []) code with
            | none => none
            | some (.error e) => some (.error e)
            | some (.ok (value, p)) => readTuple fuel nested (values ++ [value]) p

/-- Unpack a complete tuple; the fuel is one more round than there are bytes. -/
def unpack (bytes : Bytes) : Option (Except TupleError Tuple) :=
  (readTuple (bytes.length + 1) false [] ⟨0, bytes⟩).map fun result =>
    result.map Prod.fst

end FoundationDbEffect.TupleLayer
