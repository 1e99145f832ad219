import FoundationDbEffect.Tuple.Codec

/-!
# The bytes of a tuple

`encodeValue` gives the bytes of one element as a function of the element
alone.  Packing appends exactly these bytes, and fails exactly on the first
element that has none.
-/

namespace FoundationDbEffect.TupleLayer

open FoundationDbEffect.Foundation

def escapeNul (byte : UInt8) : Bytes :=
  if byte = nilCode then [byte, escapeByte] else [byte]

def encodeEscaped (value : Bytes) : Bytes :=
  value.flatMap escapeNul ++ [nilCode]

/-- The type code of an integer and, for the big form, its length byte. -/
def integerHeader (negative : Bool) (length : Nat) : Bytes :=
  if length ≤ maxSmallIntegerBytes then
    [if negative then integerZeroCode - UInt8.ofNat length
      else integerZeroCode + UInt8.ofNat length]
  else
    [if negative then negativeBigIntegerCode else positiveBigIntegerCode,
      if negative then UInt8.ofNat length ^^^ 0xff else UInt8.ofNat length]

def encodeInteger (value : Int) : Bytes :=
  if value = 0 then [integerZeroCode]
  else
    let bytes := magnitudeBytes value.natAbs
    integerHeader (value < 0) bytes.length ++
      if value < 0 then complement bytes else bytes

mutual

def encodeValue (nested : Bool) : TupleValue → Bytes
  | .null => if nested then [nilCode, escapeByte] else [nilCode]
  | .bytes value => bytesCode :: encodeEscaped value
  | .string value => stringCode :: encodeEscaped (encodeUtf8 (scalars value))
  | .integer value => encodeInteger value
  | .float32 value => floatCode :: orderedFloat (toBigEndian 4 value.bits.toNat)
  | .number bits => doubleCode :: orderedFloat (toBigEndian 8 bits.toNat)
  | .boolean value => [if value then trueCode else falseCode]
  | .uuid value => uuidCode :: value.bytes
  | .versionstamp value => versionstampCode :: value.bytes
  | .tuple children => nestedCode :: (encodeTuple true children ++ [nilCode])

def encodeTuple (nested : Bool) : List TupleValue → Bytes
  | [] => []
  | value :: rest => encodeValue nested value ++ encodeTuple nested rest

end

/-! ## Which elements are rejected -/

def TupleValue.Rejected : TupleValue → Prop
  | .string value => wellFormed value = false
  | .integer value => 256 ^ maxBigIntegerBytes ≤ value.natAbs
  | _ => False

inductive Occurs (value : TupleValue) : Tuple → Prop
  | here {t : Tuple} : value ∈ t → Occurs value t
  | nested {t children : Tuple} :
      .tuple children ∈ t → Occurs value children → Occurs value t

mutual

def rejection : TupleValue → Option TupleError
  | .string value => if wellFormed value then none else some unpairedSurrogate
  | .integer value =>
      if value.natAbs < 256 ^ maxBigIntegerBytes then none else some integerTooLarge
  | .tuple children => firstRejection children
  | _ => none

def firstRejection : List TupleValue → Option TupleError
  | [] => none
  | value :: rest =>
      match rejection value with
      | some e => some e
      | none => firstRejection rest

end

theorem firstRejection_eq_none_iff (t : Tuple) :
    firstRejection t = none ↔ ∀ v ∈ t, rejection v = none := by
  induction t with
  | nil => simp [firstRejection]
  | cons v t ih =>
      cases h : rejection v with
      | none => simp [firstRejection, h, ih]
      | some e => simp [firstRejection, h]

private theorem sizeOf_child_lt {t children : Tuple}
    (h : TupleValue.tuple children ∈ t) : sizeOf children < sizeOf t := by
  have hmem := List.sizeOf_lt_of_mem h
  simp only [TupleValue.tuple.sizeOf_spec] at hmem
  omega

private theorem rejection_leaf {v : TupleValue} (h : ∀ children, v ≠ .tuple children) :
    rejection v = none ↔ ¬v.Rejected := by
  cases v with
  | tuple children => exact absurd rfl (h children)
  | string value => cases hw : wellFormed value <;> simp [rejection, TupleValue.Rejected, hw]
  | integer value =>
      by_cases hlt : value.natAbs < 256 ^ maxBigIntegerBytes
      · rw [rejection, if_pos hlt, TupleValue.Rejected, Nat.not_le]
        exact iff_of_true rfl hlt
      · simp only [rejection, if_neg hlt, TupleValue.Rejected, reduceCtorEq, false_iff]
        omega
  | _ => simp [rejection, TupleValue.Rejected]

theorem firstRejection_eq_none_iff_occurs (t : Tuple) :
    firstRejection t = none ↔ ∀ v, Occurs v t → ¬v.Rejected := by
  constructor
  · intro h v hv
    induction hv with
    | @here t hmem =>
        have hnone := (firstRejection_eq_none_iff t).mp h v hmem
        cases v with
        | tuple children => exact not_false
        | _ => exact (rejection_leaf (by simp)).mp hnone
    | @nested t children hmem _ ih =>
        have hnone := (firstRejection_eq_none_iff t).mp h _ hmem
        exact ih (by simpa [rejection] using hnone)
  · intro h
    rw [firstRejection_eq_none_iff]
    intro v hmem
    by_cases hv : ∃ children, v = .tuple children
    · obtain ⟨children, rfl⟩ := hv
      have hlt := sizeOf_child_lt hmem
      rw [rejection]
      exact (firstRejection_eq_none_iff_occurs children).mpr
        (fun w hw => h w (.nested hmem hw))
    · exact (rejection_leaf (fun children heq => hv ⟨children, heq⟩)).mpr
        (h v (.here hmem))
termination_by sizeOf t

/-! ## Packing appends the encoding -/

@[simp] theorem push_push (o : PackedTuple) (x y : Bytes) :
    (o.push x).push y = o.push (x ++ y) := by
  simp [PackedTuple.push]

@[simp] theorem push_bytes (o : PackedTuple) (x : Bytes) :
    (o.push x).bytes = o.bytes ++ x := rfl

theorem appendEscaped_eq (o : PackedTuple) (value : Bytes) :
    appendEscaped o value = o.push (encodeEscaped value) := by
  have hloop : value.foldl (fun output byte =>
      if byte = nilCode then (output.push [byte]).push [escapeByte]
      else output.push [byte]) o = o.push (value.flatMap escapeNul) := by
    induction value generalizing o with
    | nil => simp [PackedTuple.push]
    | cons byte value ih =>
        rw [List.foldl_cons, ih, List.flatMap_cons, escapeNul]
        split <;> simp
  rw [appendEscaped, hloop, push_push, encodeEscaped]

theorem assertWellFormedString_eq (value : CodeUnits) :
    assertWellFormedString value =
      if wellFormed value then .ok () else .error unpairedSurrogate := by
  induction value using wellFormed.induct with
  | case1 => rfl
  | case2 unit =>
      cases hhigh : isHighSurrogate unit <;> cases hlow : isLowSurrogate unit <;>
        simp [assertWellFormedString, wellFormed, hhigh, hlow]
  | case3 unit next rest hhigh ih =>
      cases hlow : isLowSurrogate next <;>
        simp [assertWellFormedString, wellFormed, hhigh, hlow, ih]
  | case4 unit next rest hhigh ih =>
      cases hlow : isLowSurrogate unit <;>
        simp [assertWellFormedString, wellFormed, hhigh, hlow, ih]

theorem magnitudeBytes_length_le_iff (n k : Nat) :
    (magnitudeBytes n).length ≤ k ↔ n < 256 ^ k := by
  simpa [magnitudeBytes] using Nat.digits_length_le_iff (b := 256) (by decide) n

theorem fromBigEndian_magnitudeBytes (n : Nat) :
    fromBigEndian (magnitudeBytes n) = n := by
  have hfold (l : List Nat) (h : ∀ d ∈ l, d < 256) :
      fromBigEndian (l.map UInt8.ofNat).reverse = Nat.ofDigits 256 l := by
    induction l with
    | nil => rfl
    | cons d l ih =>
        have hd := h d (by simp)
        rw [List.map_cons, List.reverse_cons, fromBigEndian_concat,
          ih (fun x hx => h x (by simp [hx])), Nat.ofDigits_cons, UInt8.toNat_ofNat']
        omega
  rw [magnitudeBytes, hfold _ (fun d hd => Nat.digits_lt_base (by decide) hd),
    Nat.ofDigits_digits]

theorem appendInteger_eq (o : PackedTuple) (value : Int) :
    appendInteger o value =
      if value.natAbs < 256 ^ maxBigIntegerBytes then .ok (o.push (encodeInteger value))
      else .error integerTooLarge := by
  by_cases hzero : value = 0
  · subst hzero
    rw [appendInteger, if_pos rfl, if_pos (by positivity), encodeInteger, if_pos rfl]
  · rw [appendInteger, if_neg hzero, encodeInteger, if_neg hzero]
    by_cases hlt : value.natAbs < 256 ^ maxBigIntegerBytes
    · have hle := (magnitudeBytes_length_le_iff value.natAbs _).mpr hlt
      simp only [if_pos hlt, if_neg (Nat.not_lt.mpr hle), integerHeader]
      cases hneg : decide (value < 0) <;> simp only [decide_eq_true_eq,
        decide_eq_false_iff_not] at hneg <;> split <;> simp
    · have hgt := (magnitudeBytes_length_le_iff value.natAbs _).not.mpr hlt
      simp only [if_neg hlt, if_pos (Nat.not_le.mp hgt)]

/-! Where the encoding of an element has the bytes of its incomplete versionstamps. -/

mutual

def stampOffsets : TupleValue → List Nat
  | .versionstamp value => if value.isComplete then [] else [1]
  | .tuple children => (stampOffsetsOf true children).map (1 + ·)
  | _ => []

def stampOffsetsOf (nested : Bool) : List TupleValue → List Nat
  | [] => []
  | value :: rest =>
      stampOffsets value ++
        (stampOffsetsOf nested rest).map ((encodeValue nested value).length + ·)

end

/-- An output with an encoding behind it, and the offsets of the incomplete stamps in it. -/
def PackedTuple.append (output : PackedTuple) (bytes : Bytes) (offsets : List Nat) :
    PackedTuple where
  bytes := output.bytes ++ bytes
  incompleteVersionstamps :=
    output.incompleteVersionstamps ++ offsets.map (output.bytes.length + ·)

theorem push_eq_append (o : PackedTuple) (x : Bytes) : o.push x = o.append x [] := by
  simp [PackedTuple.push, PackedTuple.append]

theorem append_append (o : PackedTuple) (x y : Bytes) (xs ys : List Nat) :
    (o.append x xs).append y ys = o.append (x ++ y) (xs ++ ys.map (x.length + ·)) := by
  simp [PackedTuple.append, Function.comp_def, Nat.add_assoc]

mutual

theorem appendValue_eq (o : PackedTuple) (nested : Bool) (v : TupleValue) :
    appendValue o nested v =
      match rejection v with
      | some e => .error e
      | none => .ok (o.append (encodeValue nested v) (stampOffsets v)) := by
  cases v with
  | null =>
      cases nested <;>
        simp [appendValue, encodeValue, rejection, stampOffsets, push_eq_append, append_append]
  | boolean value =>
      simp [appendValue, encodeValue, rejection, stampOffsets, push_eq_append]
  | bytes value =>
      simp [appendValue, encodeValue, rejection, stampOffsets, appendEscaped_eq, push_eq_append,
        append_append]
  | string value =>
      cases hw : wellFormed value <;>
        simp [appendValue, encodeValue, rejection, stampOffsets, appendEscaped_eq,
          assertWellFormedString_eq, hw, bind, Except.bind, push_eq_append, append_append]
  | integer value =>
      by_cases hlt : value.natAbs < 256 ^ maxBigIntegerBytes
      · simp only [appendValue, encodeValue, rejection, stampOffsets, appendInteger_eq, if_pos hlt,
          push_eq_append]
      · simp only [appendValue, rejection, appendInteger_eq, if_neg hlt]
  | float32 value =>
      simp [appendValue, encodeValue, rejection, stampOffsets, appendFloat, appendOrderedFloat,
        push_eq_append]
  | number bits =>
      simp [appendValue, encodeValue, rejection, stampOffsets, appendDouble, appendOrderedFloat,
        push_eq_append]
  | uuid value => simp [appendValue, encodeValue, rejection, stampOffsets, push_eq_append]
  | versionstamp value =>
      cases hc : value.isComplete <;>
        simp [appendValue, encodeValue, rejection, stampOffsets, appendVersionstamp, hc,
          PackedTuple.push, PackedTuple.append]
  | tuple children =>
      have ih := appendValues_eq (o.push [nestedCode]) true children
      rw [appendValue, rejection, ih]
      cases firstRejection children with
      | some e => rfl
      | none =>
          simp [bind, Except.bind, encodeValue, stampOffsets, push_eq_append, append_append]

theorem appendValues_eq (o : PackedTuple) (nested : Bool) (vs : List TupleValue) :
    appendValues o nested vs =
      match firstRejection vs with
      | some e => .error e
      | none => .ok (o.append (encodeTuple nested vs) (stampOffsetsOf nested vs)) := by
  cases vs with
  | nil => simp [appendValues, encodeTuple, firstRejection, stampOffsetsOf, PackedTuple.append]
  | cons v vs =>
      rw [appendValues, firstRejection, encodeTuple, stampOffsetsOf, appendValue_eq o nested v]
      cases rejection v with
      | some e => rfl
      | none =>
          have ih := appendValues_eq
            (o.append (encodeValue nested v) (stampOffsets v)) nested vs
          simp only [bind, Except.bind, ih, append_append]

end

theorem packTrackedSync_eq (t : Tuple) :
    packTrackedSync t =
      match firstRejection t with
      | some e => .error e
      | none => .ok ⟨encodeTuple false t, stampOffsetsOf false t⟩ := by
  rw [packTrackedSync, appendValues_eq]
  cases firstRejection t with
  | some e => rfl
  | none => simp [PackedTuple.append]

theorem pack_eq (t : Tuple) :
    pack t =
      match firstRejection t with
      | some e => .error e
      | none => .ok (encodeTuple false t) := by
  rw [pack, packTrackedSync_eq]
  cases firstRejection t with
  | some e => rfl
  | none => rfl

theorem pack_ok_iff (t : Tuple) (bytes : Bytes) :
    pack t = .ok bytes ↔
      (∀ v, Occurs v t → ¬v.Rejected) ∧ bytes = encodeTuple false t := by
  rw [pack_eq, ← firstRejection_eq_none_iff_occurs]
  cases firstRejection t with
  | none => simp [eq_comm]
  | some e => simp

end FoundationDbEffect.TupleLayer
