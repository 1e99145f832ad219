import FoundationDbEffect.Tuple.Encoding

/-!
# Unpacking a packed tuple

An encoded element is read back whatever follows it, as long as what follows
does not start with the escape byte: after a NUL that byte alone tells an
escaped NUL or a nested null from the end of the element.
-/

namespace FoundationDbEffect.TupleLayer

open FoundationDbEffect.Foundation

def Follows (rest : Bytes) : Prop := rest.head? ≠ some escapeByte

/-! ## Escaped byte strings -/

theorem scanEscaped_encodeEscaped (value done rest : Bytes) (offset : Nat)
    (h : Follows rest) :
    scanEscaped done offset (encodeEscaped value ++ rest) =
      .ok (done ++ value, ⟨offset + (encodeEscaped value).length, rest⟩) := by
  induction value generalizing done offset with
  | nil =>
      cases rest with
      | nil => simp [encodeEscaped, scanEscaped]
      | cons next rest =>
          have hnext : next ≠ escapeByte := by simpa [Follows] using h
          simp [encodeEscaped, scanEscaped, hnext]
  | cons byte value ih =>
      have htail (k : Nat) (done' : Bytes) :
          scanEscaped done' k (encodeEscaped value ++ rest) =
            .ok (done' ++ value, ⟨k + (encodeEscaped value).length, rest⟩) :=
        ih done' k
      have hsplit : encodeEscaped (byte :: value) ++ rest =
          escapeNul byte ++ (encodeEscaped value ++ rest) := by
        simp [encodeEscaped]
      have hlength : (encodeEscaped (byte :: value)).length =
          (escapeNul byte).length + (encodeEscaped value).length := by
        simp [encodeEscaped]
      rw [hsplit, hlength]
      by_cases hnil : byte = nilCode
      · subst hnil
        simp only [escapeNul, if_true, List.cons_append, List.nil_append, scanEscaped,
          ne_eq, not_true_eq_false, if_false]
        rw [htail]
        simp [Nat.add_assoc]
      · have hne : encodeEscaped value ++ rest ≠ [] := by simp [encodeEscaped]
        obtain ⟨next, tail, htl⟩ := List.exists_cons_of_ne_nil hne
        simp only [escapeNul, hnil, if_false, List.cons_append, List.nil_append]
        rw [htl, scanEscaped, if_pos hnil, ← htl, htail]
        simp [Nat.add_assoc]

theorem readEscaped_encodeEscaped (value rest : Bytes) (offset : Nat)
    (h : Follows rest) :
    (⟨offset, encodeEscaped value ++ rest⟩ : Parser).readEscaped =
      .ok (value, ⟨offset + (encodeEscaped value).length, rest⟩) := by
  simpa [Parser.readEscaped] using scanEscaped_encodeEscaped value [] rest offset h

/-! ## Fixed-width values -/

theorem read_append (bytes rest : Bytes) (offset : Nat) :
    (⟨offset, bytes ++ rest⟩ : Parser).read bytes.length =
      .ok (bytes, ⟨offset + bytes.length, rest⟩) := by
  simp [Parser.read]

theorem xor_sign (byte : UInt8) :
    (byte &&& 0x80 ≠ 0 → (byte ^^^ 0xff) &&& 0x80 = 0) ∧
      (byte &&& 0x80 = 0 → (byte ^^^ 0x80) &&& 0x80 ≠ 0) ∧
      (byte ^^^ 0x80) ^^^ 0x80 = byte := by
  have h : ∀ n : Fin 256,
      (UInt8.ofFin n &&& 0x80 ≠ 0 → (UInt8.ofFin n ^^^ 0xff) &&& 0x80 = 0) ∧
        (UInt8.ofFin n &&& 0x80 = 0 → (UInt8.ofFin n ^^^ 0x80) &&& 0x80 ≠ 0) ∧
        (UInt8.ofFin n ^^^ 0x80) ^^^ 0x80 = UInt8.ofFin n := by
    decide +kernel
  exact h byte.toFin

theorem unorderedFloat_orderedFloat (encoded : Bytes) :
    unorderedFloat (orderedFloat encoded) = encoded := by
  cases encoded with
  | nil => rfl
  | cons first rest =>
      obtain ⟨hneg, hpos, hback⟩ := xor_sign first
      by_cases hsign : first &&& 0x80 = 0
      · have horder : orderedFloat (first :: rest) = (first ^^^ 0x80) :: rest := by
          simp [orderedFloat, hsign]
        rw [horder, unorderedFloat, if_pos (hpos hsign), hback]
      · have horder : orderedFloat (first :: rest) =
            (first ^^^ 0xff) :: complement rest := by
          simp [orderedFloat, hsign, complement]
        rw [horder, unorderedFloat, if_neg (not_not.mpr (hneg hsign))]
        exact complement_complement (first :: rest)

@[simp] theorem orderedFloat_length (encoded : Bytes) :
    (orderedFloat encoded).length = encoded.length := by
  cases encoded with
  | nil => rfl
  | cons first rest => rw [orderedFloat]; split <;> simp

theorem readOrderedFloat_append (width n : Nat) (rest : Bytes) (offset : Nat) :
    (⟨offset, orderedFloat (toBigEndian width n) ++ rest⟩ : Parser).readOrderedFloat
        width =
      .ok (toBigEndian width n, ⟨offset + width, rest⟩) := by
  have hread := read_append (orderedFloat (toBigEndian width n)) rest offset
  rw [orderedFloat_length, toBigEndian_length] at hread
  simp [Parser.readOrderedFloat, hread, bind, Except.bind, unorderedFloat_orderedFloat]

/-! ## Integers -/

theorem readIntegerBytes_append (value : Int) (rest : Bytes) (offset : Nat) :
    (⟨offset, (if value < 0 then complement (magnitudeBytes value.natAbs)
        else magnitudeBytes value.natAbs) ++ rest⟩ : Parser).readIntegerBytes
          (decide (value < 0)) (magnitudeBytes value.natAbs).length =
      .ok (value, ⟨offset + (magnitudeBytes value.natAbs).length, rest⟩) := by
  by_cases hneg : value < 0
  · have hread := read_append (complement (magnitudeBytes value.natAbs)) rest offset
    rw [complement_length] at hread
    simp only [Parser.readIntegerBytes, hneg, if_true, hread, bind, Except.bind,
      decide_true, complement_complement, fromBigEndian_magnitudeBytes]
    rw [show -((value.natAbs : Nat) : Int) = value by omega]
  · have hread := read_append (magnitudeBytes value.natAbs) rest offset
    simp only [Parser.readIntegerBytes, hneg, if_false, hread, bind, Except.bind,
      decide_false, Bool.false_eq_true, fromBigEndian_magnitudeBytes]
    rw [show ((value.natAbs : Nat) : Int) = value by omega]

/-- The codes of nonzero integers, told apart from every other type code. -/
def IsIntegerCode (code : UInt8) : Prop :=
  ((integerZeroCode - 8 ≤ code ∧ code ≤ integerZeroCode + 8) ∨
    code = negativeBigIntegerCode ∨ code = positiveBigIntegerCode) ∧
  code ∉ [nilCode, bytesCode, stringCode, nestedCode, integerZeroCode, floatCode,
    doubleCode, falseCode, trueCode, uuidCode, versionstampCode, escapeByte]

instance (code : UInt8) : Decidable (IsIntegerCode code) := by
  unfold IsIntegerCode
  infer_instance

theorem readScalar_of_isIntegerCode {code : UInt8} (h : IsIntegerCode code)
    (p : Parser) :
    p.readScalar code =
      (p.readInteger code).map fun (v, p) => (TupleValue.integer v, p) := by
  obtain ⟨hrange, hne⟩ := h
  simp only [List.mem_cons, List.not_mem_nil, or_false, not_or] at hne
  simp only [Parser.readScalar, hne, if_false, hrange, if_true]

theorem integerHeader_spec (negative : Bool) (length : Nat) (h₀ : 0 < length)
    (h : length ≤ maxBigIntegerBytes) (rest : Bytes) (offset : Nat) :
    ∃ code tail, integerHeader negative length = code :: tail ∧
      IsIntegerCode code ∧
      (⟨offset, tail ++ rest⟩ : Parser).readInteger code =
        (⟨offset + tail.length, rest⟩ : Parser).readIntegerBytes negative length := by
  by_cases hsmall : length ≤ maxSmallIntegerBytes
  · rw [integerHeader, if_pos hsmall]
    simp only [maxSmallIntegerBytes] at hsmall
    refine ⟨_, [], rfl, ?_⟩
    interval_cases length <;> cases negative <;> exact ⟨by decide, rfl⟩
  · rw [integerHeader, if_neg hsmall]
    have hback : (UInt8.ofNat length ^^^ 0xff) ^^^ 0xff = UInt8.ofNat length := by
      rw [UInt8.xor_assoc, UInt8.xor_self, UInt8.xor_zero]
    have hlen : (UInt8.ofNat length).toNat = length := by
      rw [UInt8.toNat_ofNat']
      simp only [maxBigIntegerBytes] at h
      omega
    refine ⟨_, [_], rfl, ?_⟩
    cases negative with
    | true =>
        refine ⟨by decide, ?_⟩
        change (⟨offset + 1, rest⟩ : Parser).readIntegerBytes true
          ((UInt8.ofNat length ^^^ 0xff) ^^^ 0xff).toNat = _
        rw [hback, hlen, List.length_singleton]
    | false =>
        refine ⟨by decide, ?_⟩
        change (⟨offset + 1, rest⟩ : Parser).readIntegerBytes false
          (UInt8.ofNat length).toNat = _
        rw [hlen, List.length_singleton]

/-! ## Elements -/

theorem follows_nil : Follows [] := by simp [Follows]

theorem follows_cons {byte : UInt8} {rest : Bytes} (h : byte ≠ escapeByte) :
    Follows (byte :: rest) := by simpa [Follows] using h

theorem encodeInteger_of_ne_zero {value : Int} (h : value ≠ 0) :
    encodeInteger value =
      integerHeader (value < 0) (magnitudeBytes value.natAbs).length ++
        if value < 0 then complement (magnitudeBytes value.natAbs)
        else magnitudeBytes value.natAbs := by
  rw [encodeInteger, if_neg h]

theorem magnitudeBytes_length_bounds {value : Int}
    (hv : rejection (.integer value) = none) (h : value ≠ 0) :
    0 < (magnitudeBytes value.natAbs).length ∧
      (magnitudeBytes value.natAbs).length ≤ maxBigIntegerBytes := by
  have hlt : value.natAbs < 256 ^ maxBigIntegerBytes := by
    by_contra hge
    rw [rejection, if_neg hge] at hv
    cases hv
  refine ⟨Nat.pos_iff_ne_zero.mpr ?_, (magnitudeBytes_length_le_iff _ _).mpr hlt⟩
  intro hlen
  have := (magnitudeBytes_length_le_iff value.natAbs 0).mp (by omega)
  omega

theorem encodeValue_cons (nested : Bool) (v : TupleValue) (hv : rejection v = none) :
    ∃ code tail, encodeValue nested v = code :: tail ∧ code ≠ escapeByte ∧
      (nested = true → code = nilCode → v = .null) := by
  cases v with
  | null => cases nested <;> exact ⟨_, _, rfl, by decide, by simp⟩
  | boolean value =>
      cases value <;>
        exact ⟨_, _, rfl, by decide, fun _ h => absurd h (by decide)⟩
  | bytes value => exact ⟨_, _, rfl, by decide, fun _ h => absurd h (by decide)⟩
  | string value => exact ⟨_, _, rfl, by decide, fun _ h => absurd h (by decide)⟩
  | float32 value => exact ⟨_, _, rfl, by decide, fun _ h => absurd h (by decide)⟩
  | number bits => exact ⟨_, _, rfl, by decide, fun _ h => absurd h (by decide)⟩
  | uuid value => exact ⟨_, _, rfl, by decide, fun _ h => absurd h (by decide)⟩
  | versionstamp value => exact ⟨_, _, rfl, by decide, fun _ h => absurd h (by decide)⟩
  | tuple children => exact ⟨_, _, rfl, by decide, fun _ h => absurd h (by decide)⟩
  | integer value =>
      by_cases hzero : value = 0
      · subst hzero
        exact ⟨_, _, rfl, by decide, fun _ h => absurd h (by decide)⟩
      · obtain ⟨hpos, hle⟩ := magnitudeBytes_length_bounds hv hzero
        obtain ⟨code, tail, heq, ⟨-, hne⟩, -⟩ :=
          integerHeader_spec (value < 0) _ hpos hle [] 0
        simp only [List.mem_cons, List.not_mem_nil, or_false, not_or] at hne
        have hencode := encodeInteger_of_ne_zero hzero
        rw [heq, List.cons_append] at hencode
        exact ⟨code, _, hencode, hne.2.2.2.2.2.2.2.2.2.2.2, fun _ h => absurd h hne.1⟩

theorem follows_encodeValue (nested : Bool) (v : TupleValue)
    (hv : rejection v = none) (rest : Bytes) :
    Follows (encodeValue nested v ++ rest) := by
  obtain ⟨code, tail, heq, hcode, -⟩ := encodeValue_cons nested v hv
  rw [heq]
  exact follows_cons hcode

theorem follows_encodeTuple (nested : Bool) (vs : List TupleValue)
    (hvs : firstRejection vs = none) {rest : Bytes} (h : Follows rest) :
    Follows (encodeTuple nested vs ++ rest) := by
  cases vs with
  | nil => exact h
  | cons v vs =>
      have hv := (firstRejection_eq_none_iff _).mp hvs v (by simp)
      rw [encodeTuple, List.append_assoc]
      exact follows_encodeValue nested v hv _

theorem readScalar_encodeValue (nested : Bool) (v : TupleValue)
    (hnull : nested = true → v ≠ .null) (htuple : ∀ children, v ≠ .tuple children)
    (hv : rejection v = none) (offset : Nat) {rest : Bytes} (h : Follows rest) :
    ∃ code tail, encodeValue nested v = code :: tail ∧ code ≠ nestedCode ∧
      (⟨offset + 1, tail ++ rest⟩ : Parser).readScalar code =
        .ok (v, ⟨offset + (encodeValue nested v).length, rest⟩) := by
  cases v with
  | null =>
      cases nested with
      | true => exact absurd rfl (hnull rfl)
      | false => exact ⟨nilCode, [], rfl, by decide, rfl⟩
  | boolean value => cases value <;> exact ⟨_, [], rfl, by decide, rfl⟩
  | bytes value =>
      refine ⟨bytesCode, _, rfl, by decide, ?_⟩
      change (Parser.readEscaped _).map _ = _
      rw [readEscaped_encodeEscaped _ _ _ h, encodeValue, List.length_cons]
      simp [Except.map, Nat.add_assoc, Nat.add_comm 1]
  | string value =>
      have hw : wellFormed value = true := by
        cases hw : wellFormed value with
        | true => rfl
        | false => simp [rejection, hw] at hv
      refine ⟨stringCode, _, rfl, by decide, ?_⟩
      change (Parser.readString _).map _ = _
      simp [Parser.readString, readEscaped_encodeEscaped _ _ _ h, bind, Except.bind,
        Except.map, fromScalars_scalars value hw, encodeValue, Nat.add_assoc,
        Nat.add_comm 1]
  | integer value =>
      by_cases hzero : value = 0
      · subst hzero
        exact ⟨integerZeroCode, [], rfl, by decide, rfl⟩
      · obtain ⟨hpos, hle⟩ := magnitudeBytes_length_bounds hv hzero
        obtain ⟨code, tail, heq, hcode, hread⟩ := integerHeader_spec (value < 0) _ hpos
          hle ((if value < 0 then complement (magnitudeBytes value.natAbs)
            else magnitudeBytes value.natAbs) ++ rest) (offset + 1)
        have hencode : encodeInteger value = code :: (tail ++
            if value < 0 then complement (magnitudeBytes value.natAbs)
            else magnitudeBytes value.natAbs) := by
          rw [encodeInteger_of_ne_zero hzero, heq, List.cons_append]
        have hlength : offset + (encodeInteger value).length =
            offset + 1 + tail.length + (magnitudeBytes value.natAbs).length := by
          rw [hencode]
          split <;> simp <;> omega
        have hne := hcode.2
        simp only [List.mem_cons, List.not_mem_nil, or_false, not_or] at hne
        refine ⟨code, _, by rw [encodeValue, hencode], hne.2.2.2.1, ?_⟩
        rw [readScalar_of_isIntegerCode hcode, List.append_assoc, hread,
          readIntegerBytes_append, encodeValue, hlength]
        rfl
  | float32 value =>
      refine ⟨floatCode, _, rfl, by decide, ?_⟩
      change (Parser.readFloat _).map _ = _
      simp [Parser.readFloat, readOrderedFloat_append, bind, Except.bind, Except.map,
        fromBigEndian_toBigEndian, encodeValue, Nat.add_assoc]
  | number bits =>
      refine ⟨doubleCode, _, rfl, by decide, ?_⟩
      change (Parser.readDouble _).map _ = _
      simp [Parser.readDouble, readOrderedFloat_append, bind, Except.bind, Except.map,
        fromBigEndian_toBigEndian, encodeValue, Nat.add_assoc]
  | uuid value =>
      obtain ⟨bytes, hlen⟩ := value
      refine ⟨uuidCode, _, rfl, by decide, ?_⟩
      change (Parser.readUuid _).map _ = _
      simp [Parser.readUuid, Except.map, encodeValue, hlen]
  | versionstamp value =>
      obtain ⟨bytes, hlen⟩ := value
      refine ⟨versionstampCode, _, rfl, by decide, ?_⟩
      change (Parser.readVersionstamp _).map _ = _
      simp [Parser.readVersionstamp, Except.map, encodeValue, hlen]
  | tuple children => exact absurd rfl (htuple children)

/-! ## Tuples -/

private theorem readTuple_cons {fuel : Nat} {nested : Bool} {values : List TupleValue}
    {offset : Nat} {code : UInt8} {rest : Bytes} (h : ¬(nested = true ∧ code = nilCode)) :
    readTuple (fuel + 1) nested values ⟨offset, code :: rest⟩ =
      match (⟨offset + 1, rest⟩ : Parser).readValue (readTuple fuel true []) code with
      | none => none
      | some (.error e) => some (.error e)
      | some (.ok (value, p)) => readTuple fuel nested (values ++ [value]) p :=
  if_neg h

private theorem readTuple_scalar {fuel : Nat} {nested : Bool} (values : List TupleValue)
    {v : TupleValue} (hnull : nested = true → v ≠ .null)
    (htuple : ∀ children, v ≠ .tuple children) (hv : rejection v = none)
    (offset : Nat) {rest : Bytes} (h : Follows rest) :
    readTuple (fuel + 1) nested values ⟨offset, encodeValue nested v ++ rest⟩ =
      readTuple fuel nested (values ++ [v])
        ⟨offset + (encodeValue nested v).length, rest⟩ := by
  obtain ⟨code, tail, heq, hcode, hread⟩ :=
    readScalar_encodeValue nested v hnull htuple hv offset h
  have hnil : ¬(nested = true ∧ code = nilCode) := by
    rintro ⟨hnested, hnil⟩
    obtain ⟨code', tail', heq', -, hnull'⟩ := encodeValue_cons nested v hv
    rw [heq, List.cons.injEq] at heq'
    exact hnull hnested (hnull' hnested (heq'.1 ▸ hnil))
  conv => lhs; rw [heq, List.cons_append, readTuple_cons hnil, Parser.readValue,
    if_neg hcode, hread]

mutual

/-- One element costs one round, whatever is nested in it. -/
theorem readTuple_encodeValue (nested : Bool) (v : TupleValue)
    (hv : rejection v = none) (values : List TupleValue) (offset fuel : Nat)
    {rest : Bytes} (h : Follows rest) (hfuel : (encodeValue nested v).length ≤ fuel) :
    readTuple (fuel + 1) nested values ⟨offset, encodeValue nested v ++ rest⟩ =
      readTuple fuel nested (values ++ [v])
        ⟨offset + (encodeValue nested v).length, rest⟩ := by
  cases v with
  | null =>
      cases nested with
      | false => exact readTuple_scalar values (by simp) (by simp) hv offset h
      | true => simp [encodeValue, readTuple]
  | tuple children =>
      rw [rejection] at hv
      have hclose : Follows (nilCode :: rest) := follows_cons (by decide)
      have hlength : (encodeValue nested (.tuple children)).length =
          (encodeTuple true children).length + 2 := by simp [encodeValue]
      rw [hlength] at hfuel ⊢
      obtain ⟨fuel', hpos, hread⟩ := readTuple_encodeTuple true children hv []
        (offset + 1) fuel hclose (by omega)
      obtain ⟨fuel'', rfl⟩ := Nat.exists_eq_add_of_lt hpos
      have hinner : readTuple fuel true []
          ⟨offset + 1, encodeTuple true children ++ nilCode :: rest⟩ =
          some (.ok (children, ⟨offset + ((encodeTuple true children).length + 2), rest⟩)) := by
        rw [hread, Nat.zero_add]
        have hesc : ¬rest.head? = some escapeByte := h
        simp only [readTuple, true_and, if_true, hesc, if_false, List.nil_append]
        rw [show offset + 1 + (encodeTuple true children).length + 1 =
          offset + ((encodeTuple true children).length + 2) by omega]
      rw [encodeValue, List.cons_append, List.append_assoc, List.singleton_append,
        readTuple_cons (fun h => absurd h.2 (by decide)), Parser.readValue, if_pos rfl,
        hinner]
      rfl
  | boolean value => exact readTuple_scalar values (by simp) (by simp) hv offset h
  | bytes value => exact readTuple_scalar values (by simp) (by simp) hv offset h
  | string value => exact readTuple_scalar values (by simp) (by simp) hv offset h
  | integer value => exact readTuple_scalar values (by simp) (by simp) hv offset h
  | float32 value => exact readTuple_scalar values (by simp) (by simp) hv offset h
  | number bits => exact readTuple_scalar values (by simp) (by simp) hv offset h
  | uuid value => exact readTuple_scalar values (by simp) (by simp) hv offset h
  | versionstamp value => exact readTuple_scalar values (by simp) (by simp) hv offset h

theorem readTuple_encodeTuple (nested : Bool) (vs : List TupleValue)
    (hvs : firstRejection vs = none) (values : List TupleValue) (offset fuel : Nat)
    {rest : Bytes} (h : Follows rest) (hfuel : (encodeTuple nested vs).length < fuel) :
    ∃ fuel', 0 < fuel' ∧
      readTuple fuel nested values ⟨offset, encodeTuple nested vs ++ rest⟩ =
        readTuple fuel' nested (values ++ vs)
          ⟨offset + (encodeTuple nested vs).length, rest⟩ := by
  cases vs with
  | nil => exact ⟨fuel, by omega, by simp [encodeTuple]⟩
  | cons v vs =>
      have hmem := (firstRejection_eq_none_iff _).mp hvs
      have hrest : firstRejection vs = none := (firstRejection_eq_none_iff vs).mpr
        (fun w hw => hmem w (List.mem_cons_of_mem _ hw))
      obtain ⟨code, tail, heq, -⟩ := encodeValue_cons nested v (hmem v (by simp))
      have hpos : 0 < (encodeValue nested v).length := by simp [heq]
      have hlength : (encodeTuple nested (v :: vs)).length =
          (encodeValue nested v).length + (encodeTuple nested vs).length := by
        simp [encodeTuple]
      rw [hlength] at hfuel ⊢
      obtain ⟨fuel, rfl⟩ : ∃ k, fuel = k + 1 := ⟨fuel - 1, by omega⟩
      have hfirst := readTuple_encodeValue nested v (hmem v (by simp)) values offset fuel
        (follows_encodeTuple nested vs hrest h) (by omega)
      obtain ⟨fuel', hfuel', htail⟩ := readTuple_encodeTuple nested vs hrest
        (values ++ [v]) (offset + (encodeValue nested v).length) fuel h (by omega)
      refine ⟨fuel', hfuel', ?_⟩
      rw [encodeTuple, List.append_assoc, hfirst, htail, List.append_assoc,
        List.singleton_append, Nat.add_assoc]

end

theorem unpack_encodeTuple (t : Tuple) (h : firstRejection t = none) :
    unpack (encodeTuple false t) = some (.ok t) := by
  obtain ⟨fuel, hpos, hread⟩ := readTuple_encodeTuple false t h [] 0
    ((encodeTuple false t).length + 1) follows_nil (by omega)
  obtain ⟨fuel, rfl⟩ : ∃ k, fuel = k + 1 := ⟨fuel - 1, by omega⟩
  rw [List.append_nil, List.nil_append] at hread
  rw [unpack, hread]
  rfl

/--
Packing fails exactly on the tuples with a rejected element at some depth, and
every packed tuple is read back element by element.
-/
theorem unpack_pack (t : Tuple) :
    ((∀ v, Occurs v t → ¬v.Rejected) →
      ∃ bytes, pack t = .ok bytes ∧ unpack bytes = some (.ok t)) ∧
    ((∃ e, pack t = .error e) ↔ ∃ v, Occurs v t ∧ v.Rejected) := by
  constructor
  · intro h
    exact ⟨_, (pack_ok_iff t _).mpr ⟨h, rfl⟩,
      unpack_encodeTuple t ((firstRejection_eq_none_iff_occurs t).mpr h)⟩
  · rw [pack_eq]
    cases hrej : firstRejection t with
    | none =>
        have h := (firstRejection_eq_none_iff_occurs t).mp hrej
        simp only [reduceCtorEq, exists_false, false_iff, not_exists, not_and]
        exact h
    | some e =>
        have h := (firstRejection_eq_none_iff_occurs t).not.mp (by simp [hrej])
        simpa using h

end FoundationDbEffect.TupleLayer
