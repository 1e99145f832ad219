import FoundationDbEffect.Tuple.RoundTrip

/-!
# Packing an unpacked tuple

The parser accepts integers in more than one width.  The elements it reads are spelled here
with the form of each integer kept, so that a byte string it accepts is the spelling of one
list of elements.  Packing what was read puts every integer in its canonical form, which is
never longer, and changes nothing else.
-/

namespace FoundationDbEffect.TupleLayer

open FoundationDbEffect.Foundation

/-! ## Integers and their widths -/

/-- An integer as it is spelled: by the zero code, by a code for the number of its bytes, or by
the code of big integers and a length byte. -/
inductive IntegerForm where
  | zero
  | small (negative : Bool) (magnitude : Bytes)
  | big (negative : Bool) (magnitude : Bytes)
  deriving DecidableEq, Repr

namespace IntegerForm

def Valid : IntegerForm → Prop
  | .zero => True
  | .small _ magnitude => 0 < magnitude.length ∧ magnitude.length ≤ maxSmallIntegerBytes
  | .big _ magnitude => magnitude.length ≤ maxBigIntegerBytes

/-- Zero by its own code, no leading zero byte, and the big form only above eight bytes. -/
def Canonical : IntegerForm → Prop
  | .zero => True
  | .small _ magnitude => magnitude.head? ≠ some 0
  | .big _ magnitude => maxSmallIntegerBytes < magnitude.length ∧ magnitude.head? ≠ some 0

def digits (negative : Bool) (magnitude : Bytes) : Bytes :=
  if negative then complement magnitude else magnitude

def spell : IntegerForm → Bytes
  | .zero => [integerZeroCode]
  | .small negative magnitude =>
    (if negative then integerZeroCode - UInt8.ofNat magnitude.length
      else integerZeroCode + UInt8.ofNat magnitude.length) :: digits negative magnitude
  | .big negative magnitude =>
    (if negative then negativeBigIntegerCode else positiveBigIntegerCode) ::
      (if negative then UInt8.ofNat magnitude.length ^^^ 0xff
        else UInt8.ofNat magnitude.length) :: digits negative magnitude

def signed (negative : Bool) (magnitude : Bytes) : Int :=
  if negative then -(fromBigEndian magnitude : Int) else fromBigEndian magnitude

def value : IntegerForm → Int
  | .zero => 0
  | .small negative magnitude => signed negative magnitude
  | .big negative magnitude => signed negative magnitude

end IntegerForm

theorem length_magnitudeBytes_le (bytes : Bytes) :
    (magnitudeBytes (fromBigEndian bytes)).length ≤ bytes.length :=
  (magnitudeBytes_length_le_iff _ _).mpr (fromBigEndian_lt bytes)

theorem magnitudeBytes_fromBigEndian {bytes : Bytes} (h : bytes.head? ≠ some 0) :
    magnitudeBytes (fromBigEndian bytes) = bytes := by
  refine fromBigEndian_inj ?_ (fromBigEndian_magnitudeBytes _)
  cases bytes with
  | nil => rfl
  | cons byte bytes =>
      have hbyte : 0 < byte.toNat := by
        rw [Nat.pos_iff_ne_zero]
        intro hzero
        exact h (by simp [UInt8.toNat_inj.mp (hzero.trans (UInt8.toNat_zero).symm)])
      have hge : 256 ^ bytes.length ≤ fromBigEndian (byte :: bytes) := by
        rw [fromBigEndian_cons]
        exact Nat.le_add_right_of_le (Nat.le_mul_of_pos_left _ hbyte)
      have hgt := (magnitudeBytes_length_le_iff (fromBigEndian (byte :: bytes)) bytes.length).not.mpr
        (by omega)
      have hle := length_magnitudeBytes_le (byte :: bytes)
      simp only [List.length_cons] at hle ⊢
      omega

theorem length_magnitudeBytes_lt {bytes : Bytes} (h : bytes.head? = some 0) :
    (magnitudeBytes (fromBigEndian bytes)).length < bytes.length := by
  obtain ⟨rest, rfl⟩ := List.head?_eq_some_iff.mp h
  have hrest : fromBigEndian (0 :: rest) = fromBigEndian rest := by
    simp [fromBigEndian_cons]
  rw [hrest, List.length_cons]
  exact Nat.lt_succ_of_le (length_magnitudeBytes_le rest)

theorem length_integerHeader (negative : Bool) (length : Nat) :
    (integerHeader negative length).length = if length ≤ maxSmallIntegerBytes then 1 else 2 := by
  rw [integerHeader]
  split_ifs <;> rfl

theorem length_encodeInteger (value : Int) :
    (encodeInteger value).length =
      if value = 0 then 1
      else (if (magnitudeBytes value.natAbs).length ≤ maxSmallIntegerBytes then 1 else 2) +
        (magnitudeBytes value.natAbs).length := by
  split_ifs with hzero <;> simp only [encodeInteger, hzero, if_true, if_false]
  · rfl
  all_goals
    rename_i hsmall
    split_ifs <;> simp [length_integerHeader, hsmall]

theorem natAbs_signed (negative : Bool) (magnitude : Bytes) :
    (IntegerForm.signed negative magnitude).natAbs = fromBigEndian magnitude := by
  cases negative <;> simp [IntegerForm.signed]

theorem signed_eq_zero_iff (negative : Bool) (magnitude : Bytes) :
    IntegerForm.signed negative magnitude = 0 ↔ fromBigEndian magnitude = 0 := by
  rw [← natAbs_signed negative, Int.natAbs_eq_zero]

theorem fromBigEndian_ne_zero {bytes : Bytes} (hne : bytes ≠ []) (h : bytes.head? ≠ some 0) :
    fromBigEndian bytes ≠ 0 := by
  intro hzero
  have hdigits := magnitudeBytes_fromBigEndian h
  rw [hzero] at hdigits
  exact hne (hdigits.symm.trans (by decide))

theorem encodeInteger_signed (negative : Bool) {magnitude : Bytes} (hne : magnitude ≠ [])
    (h : magnitude.head? ≠ some 0) :
    encodeInteger (IntegerForm.signed negative magnitude) =
      integerHeader negative magnitude.length ++ IntegerForm.digits negative magnitude := by
  have hzero := fromBigEndian_ne_zero hne h
  have hnegative : decide (IntegerForm.signed negative magnitude < 0) = negative := by
    cases negative with
    | false => simp [IntegerForm.signed]
    | true =>
        simp [IntegerForm.signed]
        omega
  have hsigned : IntegerForm.signed negative magnitude ≠ 0 :=
    (signed_eq_zero_iff negative magnitude).not.mpr hzero
  rw [encodeInteger_of_ne_zero hsigned, natAbs_signed, magnitudeBytes_fromBigEndian h, hnegative]
  cases negative with
  | false => simp [IntegerForm.digits, IntegerForm.signed]
  | true =>
      simp [IntegerForm.digits, IntegerForm.signed]
      omega

namespace IntegerForm

theorem encodeInteger_of_canonical {form : IntegerForm} (hvalid : form.Valid)
    (h : form.Canonical) : encodeInteger form.value = form.spell := by
  cases form with
  | zero => rfl
  | small negative magnitude =>
      have hne : magnitude ≠ [] := List.ne_nil_of_length_pos hvalid.1
      rw [value, encodeInteger_signed negative hne h, integerHeader, if_pos hvalid.2, spell]
      rfl
  | big negative magnitude =>
      have hne : magnitude ≠ [] := List.ne_nil_of_length_pos (by have := h.1; omega)
      rw [value, encodeInteger_signed negative hne h.2, integerHeader,
        if_neg (by have := h.1; omega), spell]
      rfl

theorem length_encodeInteger_le {form : IntegerForm} (hvalid : form.Valid) :
    (encodeInteger form.value).length ≤ form.spell.length := by
  have hdigits (negative : Bool) (magnitude : Bytes) :
      (digits negative magnitude).length = magnitude.length := by
    cases negative <;> simp [digits]
  cases form with
  | zero => exact le_rfl
  | small negative magnitude =>
      have hle := length_magnitudeBytes_le magnitude
      have hlength := hvalid.2
      simp only [value, length_encodeInteger, natAbs_signed, spell, List.length_cons, hdigits]
      split_ifs <;> omega
  | big negative magnitude =>
      have hle := length_magnitudeBytes_le magnitude
      simp only [value, length_encodeInteger, natAbs_signed, spell, List.length_cons, hdigits]
      split_ifs <;> omega

theorem length_encodeInteger_lt {form : IntegerForm} (hvalid : form.Valid)
    (h : ¬form.Canonical) : (encodeInteger form.value).length < form.spell.length := by
  have hdigits (negative : Bool) (magnitude : Bytes) :
      (digits negative magnitude).length = magnitude.length := by
    cases negative <;> simp [digits]
  cases form with
  | zero => exact absurd trivial h
  | small negative magnitude =>
      have hlt := length_magnitudeBytes_lt (not_not.mp h)
      have hlength := hvalid.2
      simp only [value, length_encodeInteger, natAbs_signed, spell, List.length_cons, hdigits]
      split_ifs <;> omega
  | big negative magnitude =>
      have hle := length_magnitudeBytes_le magnitude
      simp only [Canonical, not_and_or, not_lt, not_not] at h
      simp only [value, length_encodeInteger, natAbs_signed, spell, List.length_cons, hdigits]
      rcases h with hshort | hzero
      · split_ifs <;> omega
      · have hlt := length_magnitudeBytes_lt hzero
        split_ifs <;> omega

theorem rejection_value {form : IntegerForm} (hvalid : form.Valid) :
    rejection (.integer form.value) = none := by
  have hbound (magnitude : Bytes) (h : magnitude.length ≤ maxBigIntegerBytes) :
      fromBigEndian magnitude < 256 ^ maxBigIntegerBytes :=
    (fromBigEndian_lt magnitude).trans_le (Nat.pow_le_pow_right (by decide) h)
  rw [rejection, if_pos]
  cases form with
  | zero => exact Nat.pow_pos (by decide)
  | small negative magnitude =>
      rw [value, natAbs_signed]
      exact hbound magnitude (hvalid.2.trans (by decide))
  | big negative magnitude =>
      rw [value, natAbs_signed]
      exact hbound magnitude hvalid

end IntegerForm

/-! ## Elements -/

/-- An element as it is spelled, a leaf being one that is neither an integer nor a tuple. -/
inductive Element where
  | integer (form : IntegerForm)
  | leaf (value : TupleValue)
  | tuple (children : List Element)
  deriving Repr

def TupleValue.IsLeaf : TupleValue → Prop
  | .integer _ => False
  | .tuple _ => False
  | v => rejection v = none

mutual

def Element.Valid : Element → Prop
  | .integer form => form.Valid
  | .leaf value => value.IsLeaf
  | .tuple children => ValidAll children

def ValidAll : List Element → Prop
  | [] => True
  | element :: rest => element.Valid ∧ ValidAll rest

end

mutual

def Element.spell (nested : Bool) : Element → Bytes
  | .integer form => form.spell
  | .leaf value => encodeValue nested value
  | .tuple children => nestedCode :: (spellAll true children ++ [nilCode])

def spellAll (nested : Bool) : List Element → Bytes
  | [] => []
  | element :: rest => element.spell nested ++ spellAll nested rest

end

mutual

def Element.value : Element → TupleValue
  | .integer form => .integer form.value
  | .leaf value => value
  | .tuple children => .tuple (valuesOf children)

def valuesOf : List Element → List TupleValue
  | [] => []
  | element :: rest => element.value :: valuesOf rest

end

mutual

def Element.Canonical : Element → Prop
  | .integer form => form.Canonical
  | .leaf _ => True
  | .tuple children => CanonicalAll children

def CanonicalAll : List Element → Prop
  | [] => True
  | element :: rest => element.Canonical ∧ CanonicalAll rest

end

mutual

theorem Element.rejection_value {element : Element} (h : element.Valid) :
    rejection element.value = none := by
  cases element with
  | integer form => exact IntegerForm.rejection_value h
  | leaf value => cases value <;> first | exact h | exact h.elim
  | tuple children =>
      have hchildren : ValidAll children := h
      exact firstRejection_valuesOf hchildren

theorem firstRejection_valuesOf {elements : List Element} (h : ValidAll elements) :
    firstRejection (valuesOf elements) = none := by
  cases elements with
  | nil => rfl
  | cons element rest =>
      rw [valuesOf, firstRejection, Element.rejection_value h.1]
      exact firstRejection_valuesOf h.2

end

mutual

theorem Element.encodeValue_of_canonical (nested : Bool) {element : Element}
    (hvalid : element.Valid) (h : element.Canonical) :
    encodeValue nested element.value = element.spell nested := by
  cases element with
  | integer form => exact IntegerForm.encodeInteger_of_canonical hvalid h
  | leaf value => rfl
  | tuple children =>
      rw [Element.value, encodeValue, encodeTuple_of_canonical true hvalid h, Element.spell]

theorem encodeTuple_of_canonical (nested : Bool) {elements : List Element}
    (hvalid : ValidAll elements) (h : CanonicalAll elements) :
    encodeTuple nested (valuesOf elements) = spellAll nested elements := by
  cases elements with
  | nil => rfl
  | cons element rest =>
      rw [valuesOf, encodeTuple, Element.encodeValue_of_canonical nested hvalid.1 h.1,
        encodeTuple_of_canonical nested hvalid.2 h.2, spellAll]

end

mutual

theorem Element.length_encodeValue_le (nested : Bool) {element : Element}
    (hvalid : element.Valid) :
    (encodeValue nested element.value).length ≤ (element.spell nested).length ∧
      ((element.spell nested).length ≤ (encodeValue nested element.value).length →
        element.Canonical) := by
  cases element with
  | integer form =>
      refine ⟨IntegerForm.length_encodeInteger_le hvalid, fun h => ?_⟩
      by_contra hnot
      exact absurd h (IntegerForm.length_encodeInteger_lt hvalid hnot).not_ge
  | leaf value => exact ⟨le_rfl, fun _ => trivial⟩
  | tuple children =>
      have hchildren : ValidAll children := hvalid
      obtain ⟨hle, hcanonical⟩ := length_encodeTuple_le true hchildren
      simp only [Element.value, encodeValue, Element.spell, List.length_cons, List.length_append]
      exact ⟨by omega, fun h => hcanonical (by omega)⟩

/-- Packing what elements spell is never longer than they are, and shorter when an integer is
not in canonical form. -/
theorem length_encodeTuple_le (nested : Bool) {elements : List Element}
    (hvalid : ValidAll elements) :
    (encodeTuple nested (valuesOf elements)).length ≤ (spellAll nested elements).length ∧
      ((spellAll nested elements).length ≤ (encodeTuple nested (valuesOf elements)).length →
        CanonicalAll elements) := by
  cases elements with
  | nil => exact ⟨le_rfl, fun _ => trivial⟩
  | cons element rest =>
      obtain ⟨hle, hcanonical⟩ := Element.length_encodeValue_le nested hvalid.1
      obtain ⟨hles, hcanonicals⟩ := length_encodeTuple_le nested hvalid.2
      simp only [valuesOf, encodeTuple, spellAll, List.length_append]
      exact ⟨by omega, fun h => ⟨hcanonical (by omega), hcanonicals (by omega)⟩⟩

end

/-! ## What the parser reads -/

theorem scanEscaped_ok {done value bytes : Bytes} {offset : Nat} {p : Parser}
    (h : scanEscaped done offset bytes = .ok (value, p)) :
    ∃ w, value = done ++ w ∧ bytes = encodeEscaped w ++ p.rest := by
  induction done, offset, bytes using scanEscaped.induct with
  | case1 done offset => cases h
  | case2 done offset byte hbyte ih =>
      rw [scanEscaped, if_pos hbyte] at h
      cases h
  | case3 done offset byte hbyte =>
      rw [scanEscaped, if_neg hbyte] at h
      cases h
      exact ⟨[], by simp, by simpa [encodeEscaped] using not_not.mp hbyte⟩
  | case4 done offset byte next rest hbyte ih =>
      rw [scanEscaped, if_pos hbyte] at h
      obtain ⟨w, rfl, hrest⟩ := ih h
      refine ⟨byte :: w, by simp, ?_⟩
      rw [hrest]
      simp [encodeEscaped, escapeNul, hbyte]
  | case5 done offset byte rest hbyte ih =>
      rw [scanEscaped, if_neg hbyte, if_pos rfl] at h
      obtain ⟨w, rfl, hrest⟩ := ih h
      refine ⟨nilCode :: w, by simp, ?_⟩
      rw [hrest, not_not.mp hbyte]
      simp [encodeEscaped, escapeNul]
  | case6 done offset byte next rest hbyte hnext =>
      rw [scanEscaped, if_neg hbyte, if_neg hnext] at h
      cases h
      exact ⟨[], by simp, by simpa [encodeEscaped] using not_not.mp hbyte⟩

theorem read_ok {p p' : Parser} {length : Nat} {bytes : Bytes}
    (h : p.read length = .ok (bytes, p')) :
    p.rest = bytes ++ p'.rest ∧ bytes.length = length := by
  rw [Parser.read] at h
  split_ifs at h with hshort
  cases h
  exact ⟨by simp, by simp; omega⟩

theorem readIntegerBytes_ok {p p' : Parser} {negative : Bool} {length : Nat} {value : Int}
    (h : p.readIntegerBytes negative length = .ok (value, p')) :
    ∃ magnitude, magnitude.length = length ∧ value = IntegerForm.signed negative magnitude ∧
      p.rest = IntegerForm.digits negative magnitude ++ p'.rest := by
  rw [Parser.readIntegerBytes] at h
  cases hread : p.read length with
  | error e =>
      rw [hread] at h
      cases h
  | ok pair =>
      obtain ⟨encoded, p''⟩ := pair
      rw [hread] at h
      obtain ⟨hrest, hlength⟩ := read_ok hread
      cases negative with
      | false =>
          cases h
          exact ⟨encoded, hlength, rfl, hrest⟩
      | true =>
          cases h
          refine ⟨complement encoded, by simp [hlength], rfl, ?_⟩
          rw [IntegerForm.digits, if_pos rfl, complement_complement, hrest]

theorem smallIntegerCode (code : UInt8) (hrange : 0x0c ≤ code ∧ code ≤ 0x1c)
    (hzero : code ≠ integerZeroCode) :
    0 < ((code.toNat : Int) - integerZeroCode.toNat).natAbs ∧
      ((code.toNat : Int) - integerZeroCode.toNat).natAbs ≤ maxSmallIntegerBytes ∧
      code = if code < integerZeroCode then
          integerZeroCode - UInt8.ofNat ((code.toNat : Int) - integerZeroCode.toNat).natAbs
        else integerZeroCode + UInt8.ofNat ((code.toNat : Int) - integerZeroCode.toNat).natAbs := by
  have h : ∀ n : Fin 256, (0x0c ≤ UInt8.ofFin n ∧ UInt8.ofFin n ≤ 0x1c) →
      UInt8.ofFin n ≠ integerZeroCode →
      0 < (((UInt8.ofFin n).toNat : Int) - integerZeroCode.toNat).natAbs ∧
      (((UInt8.ofFin n).toNat : Int) - integerZeroCode.toNat).natAbs ≤ maxSmallIntegerBytes ∧
      UInt8.ofFin n = if UInt8.ofFin n < integerZeroCode then
          integerZeroCode - UInt8.ofNat (((UInt8.ofFin n).toNat : Int) - integerZeroCode.toNat).natAbs
        else integerZeroCode +
          UInt8.ofNat (((UInt8.ofFin n).toNat : Int) - integerZeroCode.toNat).natAbs := by
    decide +kernel
  exact h code.toFin hrange hzero

theorem readInteger_ok {p p' : Parser} {code : UInt8} {value : Int}
    (hcode : (0x0c ≤ code ∧ code ≤ 0x1c) ∨ code = negativeBigIntegerCode ∨
      code = positiveBigIntegerCode) (hzero : code ≠ integerZeroCode)
    (h : p.readInteger code = .ok (value, p')) :
    ∃ form : IntegerForm, form.Valid ∧ form.value = value ∧
      code :: p.rest = form.spell ++ p'.rest := by
  have hbyte {byte : UInt8} {p'' : Parser} (h : p.readByte = .ok (byte, p'')) :
      p.rest = byte :: p''.rest := by
    rw [Parser.readByte] at h
    split at h
    · cases h
    · rename_i hrest
      cases h
      exact hrest
  rw [Parser.readInteger] at h
  split_ifs at h with hnegative hpositive
  · cases hread : p.readByte with
    | error e =>
        rw [hread] at h
        cases h
    | ok pair =>
        obtain ⟨byte, p''⟩ := pair
        rw [hread, hnegative] at h
        obtain ⟨magnitude, hlength, rfl, hrest⟩ := readIntegerBytes_ok h
        have hmax := (byte ^^^ 0xff).toNat_lt
        refine ⟨.big true magnitude, ?_, rfl, ?_⟩
        · change magnitude.length ≤ 255
          omega
        · rw [hbyte hread, hrest, hnegative, IntegerForm.spell, hlength, UInt8.ofNat_toNat,
            UInt8.xor_assoc, UInt8.xor_self, UInt8.xor_zero]
          rfl
  · cases hread : p.readByte with
    | error e =>
        rw [hread] at h
        cases h
    | ok pair =>
        obtain ⟨byte, p''⟩ := pair
        rw [hread, hpositive] at h
        obtain ⟨magnitude, hlength, rfl, hrest⟩ := readIntegerBytes_ok h
        have hmax := byte.toNat_lt
        refine ⟨.big false magnitude, ?_, rfl, ?_⟩
        · change magnitude.length ≤ 255
          omega
        · rw [hbyte hread, hrest, hpositive, IntegerForm.spell, hlength, UInt8.ofNat_toNat]
          rfl
  · obtain ⟨hpos, hmax, hheader⟩ := smallIntegerCode code (by tauto) hzero
    obtain ⟨magnitude, hlength, rfl, hrest⟩ := readIntegerBytes_ok h
    refine ⟨.small (code < integerZeroCode) magnitude, ?_, rfl, ?_⟩
    · rw [IntegerForm.Valid, hlength]
      exact ⟨hpos, hmax⟩
    · rw [hrest, IntegerForm.spell, hlength, List.cons_append]
      simp only [decide_eq_true_eq]
      rw [← hheader]

theorem map_ok {α β : Type} {f : α × Parser → β × Parser} {x : Except TupleError (α × Parser)}
    {result : β × Parser} (h : x.map f = .ok result) : ∃ pair, x = .ok pair ∧ f pair = result := by
  cases x with
  | error e => cases h
  | ok pair =>
      cases h
      exact ⟨pair, rfl, rfl⟩

theorem orderedFloat_unorderedFloat (encoded : Bytes) :
    orderedFloat (unorderedFloat encoded) = encoded := by
  cases encoded with
  | nil => rfl
  | cons first rest =>
      have hback (x y : UInt8) : x ^^^ y ^^^ y = x := by
        rw [UInt8.xor_assoc, UInt8.xor_self, UInt8.xor_zero]
      obtain ⟨hneg, hpos, -⟩ := xor_sign first
      have hpos' : first &&& 0x80 ≠ 0 → (first ^^^ 0x80) &&& 0x80 = 0 := by
        have h : ∀ n : Fin 256, UInt8.ofFin n &&& 0x80 ≠ 0 →
            (UInt8.ofFin n ^^^ 0x80) &&& 0x80 = 0 := by decide +kernel
        exact h first.toFin
      have hneg' : first &&& 0x80 = 0 → (first ^^^ 0xff) &&& 0x80 ≠ 0 := by
        have h : ∀ n : Fin 256, UInt8.ofFin n &&& 0x80 = 0 →
            (UInt8.ofFin n ^^^ 0xff) &&& 0x80 ≠ 0 := by decide +kernel
        exact h first.toFin
      by_cases hsign : first &&& 0x80 = 0
      · have horder : unorderedFloat (first :: rest) = (first ^^^ 0xff) :: complement rest := by
          simp [unorderedFloat, hsign, complement]
        rw [horder, orderedFloat, if_pos (hneg' hsign)]
        exact complement_complement (first :: rest)
      · rw [unorderedFloat, if_pos hsign, orderedFloat, if_neg (not_not.mpr (hpos' hsign)), hback]

theorem readOrderedFloat_ok {p p' : Parser} {length : Nat} {bytes : Bytes}
    (h : p.readOrderedFloat length = .ok (bytes, p')) :
    p.rest = orderedFloat bytes ++ p'.rest ∧ bytes.length = length := by
  rw [Parser.readOrderedFloat] at h
  cases hread : p.read length with
  | error e =>
      rw [hread] at h
      cases h
  | ok pair =>
      obtain ⟨encoded, p''⟩ := pair
      rw [hread] at h
      obtain ⟨hrest, hlength⟩ := read_ok hread
      cases h
      have hback := orderedFloat_unorderedFloat encoded
      have hsame := congrArg List.length hback
      rw [orderedFloat_length] at hsame
      exact ⟨by rw [hback, hrest], hsame.trans hlength⟩

theorem readScalar_ok {nested : Bool} {p p' : Parser} {code : UInt8} {value : TupleValue}
    (hcode : ¬(nested = true ∧ code = nilCode))
    (h : p.readScalar code = .ok (value, p')) :
    ∃ element : Element, element.Valid ∧ element.value = value ∧
      code :: p.rest = element.spell nested ++ p'.rest := by
  rw [Parser.readScalar] at h
  by_cases hnil : code = nilCode
  · rw [if_pos hnil] at h
    cases h
    have hflat : nested = false := by
      cases nested with
      | false => rfl
      | true => exact absurd ⟨rfl, hnil⟩ hcode
    exact ⟨.leaf .null, rfl, rfl, by simp [Element.spell, encodeValue, hflat, hnil]⟩
  rw [if_neg hnil] at h
  by_cases hbytes : code = bytesCode
  · rw [if_pos hbytes] at h
    obtain ⟨⟨bytes, p''⟩, hread, hpair⟩ := map_ok h
    cases hpair
    obtain ⟨w, hw, hrest⟩ := scanEscaped_ok hread
    refine ⟨.leaf (.bytes bytes), rfl, rfl, ?_⟩
    rw [hw, hrest, hbytes]
    rfl
  rw [if_neg hbytes] at h
  by_cases hstring : code = stringCode
  · rw [if_pos hstring] at h
    obtain ⟨⟨units, p''⟩, hread, hpair⟩ := map_ok h
    cases hpair
    rw [Parser.readString] at hread
    cases hescaped : p.readEscaped with
    | error e =>
        rw [hescaped] at hread
        cases hread
    | ok pair =>
        obtain ⟨bytes, p₁⟩ := pair
        obtain ⟨w, hw, hrest⟩ := scanEscaped_ok hescaped
        rw [hescaped] at hread
        cases hdecode : decodeUtf8 bytes with
        | none => simp [bind, Except.bind, hdecode] at hread
        | some cs =>
            simp only [bind, Except.bind, hdecode] at hread
            cases hread
            refine ⟨.leaf (.string (fromScalars cs)), ?_, rfl, ?_⟩
            · exact if_pos (wellFormed_fromScalars cs)
            · rw [hrest, Element.spell, encodeValue, scalars_fromScalars,
                encodeUtf8_of_decodeUtf8 hdecode, hw, hstring]
              rfl
  rw [if_neg hstring] at h
  by_cases hzero : code = integerZeroCode
  · rw [if_pos hzero] at h
    cases h
    exact ⟨.integer .zero, trivial, rfl, by rw [hzero]; rfl⟩
  rw [if_neg hzero] at h
  by_cases hfloat : code = floatCode
  · rw [if_pos hfloat] at h
    obtain ⟨⟨value, p''⟩, hread, hpair⟩ := map_ok h
    cases hpair
    rw [Parser.readFloat] at hread
    cases hordered : p.readOrderedFloat 4 with
    | error e =>
        rw [hordered] at hread
        cases hread
    | ok pair =>
        obtain ⟨bytes, p₁⟩ := pair
        obtain ⟨hrest, hlength⟩ := readOrderedFloat_ok hordered
        rw [hordered] at hread
        cases hread
        have hlt := fromBigEndian_lt bytes
        rw [hlength] at hlt
        refine ⟨.leaf (.float32 ⟨UInt32.ofNat (fromBigEndian bytes)⟩), rfl, rfl, ?_⟩
        have hback : toBigEndian 4 (UInt32.ofNat (fromBigEndian bytes)).toNat = bytes := by
          rw [UInt32.toNat_ofNat', Nat.mod_eq_of_lt (hlt.trans_eq (by decide)), ← hlength, toBigEndian_fromBigEndian]
        rw [Element.spell, encodeValue, hback, hrest, hfloat]
        rfl
  rw [if_neg hfloat] at h
  by_cases hdouble : code = doubleCode
  · rw [if_pos hdouble] at h
    obtain ⟨⟨value, p''⟩, hread, hpair⟩ := map_ok h
    cases hpair
    rw [Parser.readDouble] at hread
    cases hordered : p.readOrderedFloat 8 with
    | error e =>
        rw [hordered] at hread
        cases hread
    | ok pair =>
        obtain ⟨bytes, p₁⟩ := pair
        obtain ⟨hrest, hlength⟩ := readOrderedFloat_ok hordered
        rw [hordered] at hread
        cases hread
        have hlt := fromBigEndian_lt bytes
        rw [hlength] at hlt
        refine ⟨.leaf (.number (UInt64.ofNat (fromBigEndian bytes))), rfl, rfl, ?_⟩
        have hback : toBigEndian 8 (UInt64.ofNat (fromBigEndian bytes)).toNat = bytes := by
          rw [UInt64.toNat_ofNat', Nat.mod_eq_of_lt (hlt.trans_eq (by decide)), ← hlength, toBigEndian_fromBigEndian]
        rw [Element.spell, encodeValue, hback, hrest, hdouble]
        rfl
  rw [if_neg hdouble] at h
  by_cases hfalse : code = falseCode
  · rw [if_pos hfalse] at h
    cases h
    exact ⟨.leaf (.boolean false), rfl, rfl, by rw [hfalse]; rfl⟩
  rw [if_neg hfalse] at h
  by_cases htrue : code = trueCode
  · rw [if_pos htrue] at h
    cases h
    exact ⟨.leaf (.boolean true), rfl, rfl, by rw [htrue]; rfl⟩
  rw [if_neg htrue] at h
  by_cases huuid : code = uuidCode
  · rw [if_pos huuid] at h
    obtain ⟨⟨value, p''⟩, hread, hpair⟩ := map_ok h
    cases hpair
    rw [Parser.readUuid] at hread
    split_ifs at hread
    cases hread
    refine ⟨.leaf (.uuid _), rfl, rfl, ?_⟩
    rw [Element.spell, encodeValue, huuid, List.cons_append, List.take_append_drop]
  rw [if_neg huuid] at h
  by_cases hstamp : code = versionstampCode
  · rw [if_pos hstamp] at h
    obtain ⟨⟨value, p''⟩, hread, hpair⟩ := map_ok h
    cases hpair
    rw [Parser.readVersionstamp] at hread
    split_ifs at hread
    cases hread
    refine ⟨.leaf (.versionstamp _), rfl, rfl, ?_⟩
    rw [Element.spell, encodeValue, hstamp, List.cons_append, List.take_append_drop]
  rw [if_neg hstamp] at h
  by_cases hinteger : (integerZeroCode - 8 ≤ code ∧ code ≤ integerZeroCode + 8) ∨
      code = negativeBigIntegerCode ∨ code = positiveBigIntegerCode
  · rw [if_pos hinteger] at h
    obtain ⟨⟨value, p''⟩, hread, hpair⟩ := map_ok h
    cases hpair
    obtain ⟨form, hvalid, rfl, hspell⟩ := readInteger_ok hinteger hzero hread
    exact ⟨.integer form, hvalid, rfl, hspell⟩
  · rw [if_neg hinteger] at h
    cases h

/-- What the loop of a tuple reads is the spelling of the elements that it returns. -/
theorem readTuple_ok {fuel : Nat} {nested : Bool} {done result : List TupleValue} {p p' : Parser}
    (h : readTuple fuel nested done p = some (.ok (result, p'))) :
    ∃ elements, ValidAll elements ∧ result = done ++ valuesOf elements ∧
      p.rest = spellAll nested elements ++ (if nested then nilCode :: p'.rest else p'.rest) ∧
      (nested = false → p'.rest = []) := by
  induction fuel generalizing nested done result p p' with
  | zero => cases h
  | succ fuel ih =>
      have hstep {element : Element} {q : Parser} (hvalid : element.Valid)
          (hspell : p.rest = element.spell nested ++ q.rest)
          (h : readTuple fuel nested (done ++ [element.value]) q = some (.ok (result, p'))) :
          ∃ elements, ValidAll elements ∧ result = done ++ valuesOf elements ∧
            p.rest = spellAll nested elements ++
              (if nested then nilCode :: p'.rest else p'.rest) ∧
            (nested = false → p'.rest = []) := by
        obtain ⟨elements, hvalids, hresult, hrest, hend⟩ := ih h
        refine ⟨element :: elements, ⟨hvalid, hvalids⟩, ?_, ?_, hend⟩
        · rw [hresult, valuesOf, List.append_assoc, List.singleton_append]
        · rw [hspell, hrest, spellAll, List.append_assoc]
      rw [readTuple] at h
      split at h
      · rename_i hrest
        cases nested with
        | true => cases h
        | false =>
            cases h
            exact ⟨[], trivial, by simp [valuesOf], by simp [spellAll], fun _ => hrest⟩
      · rename_i code rest hrest
        dsimp only at h
        by_cases hclose : nested = true ∧ code = nilCode
        · obtain ⟨rfl, rfl⟩ := hclose
          rw [if_pos ⟨rfl, rfl⟩] at h
          split_ifs at h with hescape
          · have hnull : (Element.leaf .null).Valid := rfl
            refine hstep hnull ?_ h
            obtain ⟨tail, htail⟩ := List.head?_eq_some_iff.mp hescape
            rw [hrest, htail]
            rfl
          · cases h
            exact ⟨[], trivial, by simp [valuesOf], by simp [spellAll, hrest], by simp⟩
        · rw [if_neg hclose] at h
          split at h
          · cases h
          · cases h
          · rename_i value q hvalue
            rw [Parser.readValue] at hvalue
            split_ifs at hvalue with hnested
            · rw [Option.map_eq_some_iff] at hvalue
              obtain ⟨inner, hinner, hmap⟩ := hvalue
              obtain ⟨⟨children, q'⟩, rfl, hpair⟩ := map_ok hmap
              cases hpair
              obtain ⟨elements, hvalids, rfl, hspell, -⟩ := ih hinner
              have htuple : (Element.tuple elements).Valid := hvalids
              refine hstep htuple ?_ h
              rw [hrest, Element.spell, hnested]
              simpa using hspell
            · rw [Option.some.injEq] at hvalue
              obtain ⟨element, hvalid, rfl, hspell⟩ := readScalar_ok hclose hvalue
              exact hstep hvalid (hrest.trans hspell) h

/-! ## Termination -/

theorem Element.spell_ne_nil (nested : Bool) {element : Element} (h : element.Valid) :
    element.spell nested ≠ [] := by
  cases element with
  | integer form => cases form <;> simp [Element.spell, IntegerForm.spell]
  | leaf value =>
      have hvalue := Element.rejection_value h
      obtain ⟨code, tail, heq, -⟩ := encodeValue_cons nested value hvalue
      simp [Element.spell, heq]
  | tuple children => simp [Element.spell]

theorem readTuple_isSome {fuel : Nat} {nested : Bool} {done : List TupleValue} {p : Parser}
    (h : p.rest.length < fuel) : (readTuple fuel nested done p).isSome = true := by
  induction fuel generalizing nested done p with
  | zero => omega
  | succ fuel ih =>
      rw [readTuple]
      split
      · split_ifs <;> rfl
      · rename_i code rest hrest
        rw [hrest, List.length_cons] at h
        dsimp only
        by_cases hclose : nested = true ∧ code = nilCode
        · rw [if_pos hclose]
          split_ifs
          · exact ih (by simp; omega)
          · rfl
        · rw [if_neg hclose]
          have hvalue : ((⟨p.offset + 1, rest⟩ : Parser).readValue
              (readTuple fuel true []) code).isSome = true := by
            rw [Parser.readValue]
            split_ifs
            · rw [Option.isSome_map]
              exact ih (show rest.length < fuel by omega)
            · rfl
          obtain ⟨result, hresult⟩ := Option.isSome_iff_exists.mp hvalue
          rw [hresult]
          cases result with
          | error e => rfl
          | ok pair =>
              obtain ⟨value, q⟩ := pair
              refine ih ?_
              rw [Parser.readValue] at hresult
              split_ifs at hresult with hnested
              · rw [Option.map_eq_some_iff] at hresult
                obtain ⟨inner, hinner, hmap⟩ := hresult
                obtain ⟨⟨children, q'⟩, rfl, hpair⟩ := map_ok hmap
                cases hpair
                obtain ⟨elements, -, -, hspell, -⟩ := readTuple_ok hinner
                have hlength := congrArg List.length hspell
                simp only [if_true, List.length_append, List.length_cons] at hlength
                omega
              · rw [Option.some.injEq] at hresult
                obtain ⟨element, hvalid, -, hspell⟩ := readScalar_ok hclose hresult
                have hpos := List.length_pos_of_ne_nil (Element.spell_ne_nil nested hvalid)
                have hlength := congrArg List.length hspell
                simp only [List.length_append, List.length_cons] at hlength
                omega

/-! ## Spellings of a byte string -/

theorem smallHeader_toNat (negative : Bool) {length : Nat} (h : length ≤ maxSmallIntegerBytes) :
    (if negative then integerZeroCode - UInt8.ofNat length
      else integerZeroCode + UInt8.ofNat length).toNat =
      if negative then 20 - length else 20 + length := by
  simp only [maxSmallIntegerBytes] at h
  interval_cases length <;> cases negative <;> rfl

theorem digits_inj {negative : Bool} {magnitude magnitude' rest rest' : Bytes}
    (hlength : magnitude.length = magnitude'.length)
    (h : IntegerForm.digits negative magnitude ++ rest =
      IntegerForm.digits negative magnitude' ++ rest') :
    magnitude = magnitude' ∧ rest = rest' := by
  cases negative with
  | false => exact List.append_inj h hlength
  | true =>
      obtain ⟨hdigits, hrest⟩ := List.append_inj h (by simpa [IntegerForm.digits] using hlength)
      simp only [IntegerForm.digits, if_true] at hdigits
      have hsame := congrArg complement hdigits
      rw [complement_complement, complement_complement] at hsame
      exact ⟨hsame, hrest⟩

theorem IntegerForm.spell_inj {form form' : IntegerForm} (hvalid : form.Valid)
    (hvalid' : form'.Valid) {rest rest' : Bytes} (h : form.spell ++ rest = form'.spell ++ rest') :
    form = form' ∧ rest = rest' := by
  have hzero : integerZeroCode.toNat = 20 := rfl
  have hbig (negative : Bool) :
      (if negative then negativeBigIntegerCode else positiveBigIntegerCode).toNat =
        if negative then 11 else 29 := by cases negative <;> rfl
  cases form with
  | zero =>
      cases form' with
      | zero => exact ⟨rfl, List.append_cancel_left h⟩
      | small negative' magnitude' =>
          have hcode := congrArg UInt8.toNat (List.cons.inj h).1
          have hpos := hvalid'.1
          rw [smallHeader_toNat negative' hvalid'.2, hzero] at hcode
          split_ifs at hcode <;> omega
      | big negative' magnitude' =>
          have hcode := congrArg UInt8.toNat (List.cons.inj h).1
          rw [hbig, hzero] at hcode
          split_ifs at hcode <;> omega
  | small negative magnitude =>
      have hpos := hvalid.1
      have hmax : magnitude.length ≤ 8 := hvalid.2
      cases form' with
      | zero =>
          have hcode := congrArg UInt8.toNat (List.cons.inj h).1
          rw [smallHeader_toNat negative hvalid.2, hzero] at hcode
          split_ifs at hcode <;> omega
      | small negative' magnitude' =>
          obtain ⟨hcode, hrest⟩ := List.cons.inj h
          have hpos' := hvalid'.1
          have hmax' : magnitude'.length ≤ 8 := hvalid'.2
          have hcodes := congrArg UInt8.toNat hcode
          rw [smallHeader_toNat negative hvalid.2, smallHeader_toNat negative' hvalid'.2] at hcodes
          have hsame : negative = negative' ∧ magnitude.length = magnitude'.length := by
            cases negative <;> cases negative' <;> simp at hcodes ⊢ <;> omega
          obtain ⟨rfl, hlength⟩ := hsame
          obtain ⟨rfl, rfl⟩ := digits_inj hlength hrest
          exact ⟨rfl, rfl⟩
      | big negative' magnitude' =>
          have hcode := congrArg UInt8.toNat (List.cons.inj h).1
          rw [smallHeader_toNat negative hvalid.2, hbig] at hcode
          split_ifs at hcode <;> omega
  | big negative magnitude =>
      cases form' with
      | zero =>
          have hcode := congrArg UInt8.toNat (List.cons.inj h).1
          rw [hbig, hzero] at hcode
          split_ifs at hcode <;> omega
      | small negative' magnitude' =>
          have hcode := congrArg UInt8.toNat (List.cons.inj h).1
          have hmax' : magnitude'.length ≤ 8 := hvalid'.2
          rw [smallHeader_toNat negative' hvalid'.2, hbig] at hcode
          split_ifs at hcode <;> omega
      | big negative' magnitude' =>
          obtain ⟨hcode, htail⟩ := List.cons.inj h
          obtain ⟨hbyte, hrest⟩ := List.cons.inj htail
          have hcodes := congrArg UInt8.toNat hcode
          rw [hbig, hbig] at hcodes
          have hsign : negative = negative' := by
            cases negative <;> cases negative' <;> simp at hcodes ⊢
          subst hsign
          have hlength : UInt8.ofNat magnitude.length = UInt8.ofNat magnitude'.length := by
            cases negative with
            | false => exact hbyte
            | true =>
                have hflip := congrArg (· ^^^ 0xff) hbyte
                simpa [UInt8.xor_assoc] using hflip
          have hlengths := congrArg UInt8.toNat hlength
          simp only [IntegerForm.Valid, maxBigIntegerBytes] at hvalid hvalid'
          rw [UInt8.toNat_ofNat', UInt8.toNat_ofNat', Nat.mod_eq_of_lt (by omega),
            Nat.mod_eq_of_lt (by omega)] at hlengths
          obtain ⟨rfl, rfl⟩ := digits_inj hlengths hrest
          exact ⟨rfl, rfl⟩

mutual

theorem Element.spell_inj (nested : Bool) {element element' : Element} (hvalid : element.Valid)
    (hvalid' : element'.Valid) (hvalue : element.value = element'.value) {rest rest' : Bytes}
    (h : element.spell nested ++ rest = element'.spell nested ++ rest') :
    element = element' ∧ rest = rest' := by
  cases element with
  | integer form =>
      cases element' with
      | integer form' =>
          obtain ⟨rfl, hrest⟩ := IntegerForm.spell_inj hvalid hvalid' h
          exact ⟨rfl, hrest⟩
      | leaf value' =>
          rw [Element.value, Element.value] at hvalue
          subst hvalue
          exact hvalid'.elim
      | tuple children' => cases hvalue
  | leaf value =>
      cases element' with
      | integer form' =>
          rw [Element.value, Element.value] at hvalue
          subst hvalue
          exact hvalid.elim
      | leaf value' =>
          rw [Element.value, Element.value] at hvalue
          subst hvalue
          exact ⟨rfl, List.append_cancel_left h⟩
      | tuple children' =>
          rw [Element.value, Element.value] at hvalue
          subst hvalue
          exact hvalid.elim
  | tuple children =>
      cases element' with
      | integer form' => cases hvalue
      | leaf value' =>
          rw [Element.value, Element.value] at hvalue
          subst hvalue
          exact hvalid'.elim
      | tuple children' =>
          simp only [Element.value, TupleValue.tuple.injEq] at hvalue
          simp only [Element.spell, List.cons_append, List.append_assoc, List.cons.injEq,
            true_and] at h
          have hchildren : ValidAll children := hvalid
          obtain ⟨rfl, hrest⟩ := spellAll_inj true hchildren hvalid' hvalue h
          exact ⟨rfl, (List.cons.inj hrest).2⟩

theorem spellAll_inj (nested : Bool) {elements elements' : List Element}
    (hvalid : ValidAll elements) (hvalid' : ValidAll elements')
    (hvalues : valuesOf elements = valuesOf elements') {rest rest' : Bytes}
    (h : spellAll nested elements ++ rest = spellAll nested elements' ++ rest') :
    elements = elements' ∧ rest = rest' := by
  cases elements with
  | nil =>
      cases elements' with
      | nil => exact ⟨rfl, h⟩
      | cons element' others' => cases hvalues
  | cons element others =>
      cases elements' with
      | nil => cases hvalues
      | cons element' others' =>
          simp only [valuesOf, List.cons.injEq] at hvalues
          simp only [spellAll, List.append_assoc] at h
          obtain ⟨rfl, hothers⟩ :=
            Element.spell_inj nested hvalid.1 hvalid'.1 hvalues.1 h
          obtain ⟨rfl, hrest⟩ := spellAll_inj nested hvalid.2 hvalid'.2 hvalues.2 hothers
          exact ⟨rfl, hrest⟩

end

/-- The elements that a byte string spells, and their values. -/
structure Spells (bytes : Bytes) (t : Tuple) (elements : List Element) : Prop where
  valid : ValidAll elements
  spell_eq : spellAll false elements = bytes
  values_eq : valuesOf elements = t

/--
The parser ends on every byte string, with a tuple or with an error.  A tuple that it reads is
spelled by one list of elements; packing it gives a byte string that is read as the same tuple
and is not longer, and that is the one that was read exactly when every integer in it, at any
depth, is in canonical form.
-/
theorem pack_of_unpack :
    (∀ bytes, (unpack bytes).isSome = true) ∧
      ∀ bytes t, unpack bytes = some (.ok t) →
        ∃ elements packed, Spells bytes t elements ∧
          (∀ elements', Spells bytes t elements' → elements' = elements) ∧
          pack t = .ok packed ∧ unpack packed = some (.ok t) ∧
          packed.length ≤ bytes.length ∧ (packed = bytes ↔ CanonicalAll elements) := by
  constructor
  · intro bytes
    rw [unpack, Option.isSome_map]
    exact readTuple_isSome (Nat.lt_succ_self _)
  · intro bytes t h
    rw [unpack, Option.map_eq_some_iff] at h
    obtain ⟨result, hread, hmap⟩ := h
    obtain ⟨⟨result, p⟩, rfl, hpair⟩ : ∃ pair, result = .ok pair ∧ pair.1 = t := by
      cases result with
      | error e => cases hmap
      | ok pair => exact ⟨pair, rfl, by simpa [Except.map] using hmap⟩
    obtain ⟨elements, hvalid, hresult, hspell, hend⟩ := readTuple_ok hread
    have hspells : Spells bytes t elements := by
      refine ⟨hvalid, ?_, ?_⟩
      · simpa [hend rfl] using hspell.symm
      · rw [← hpair, hresult, List.nil_append]
    have hrejection : firstRejection t = none := by
      rw [← hspells.values_eq]
      exact firstRejection_valuesOf hvalid
    obtain ⟨hle, hcanonical⟩ := length_encodeTuple_le false hvalid
    rw [hspells.values_eq, hspells.spell_eq] at hle hcanonical
    refine ⟨elements, encodeTuple false t, hspells, ?_, ?_, ?_, hle, ?_⟩
    · intro elements' h'
      have hbytes : spellAll false elements' ++ [] = spellAll false elements ++ [] := by
        rw [h'.spell_eq, hspells.spell_eq]
      have hvalues : valuesOf elements' = valuesOf elements := by
        rw [h'.values_eq, hspells.values_eq]
      exact (spellAll_inj false h'.valid hvalid hvalues hbytes).1
    · rw [pack_eq, hrejection]
    · exact unpack_encodeTuple t hrejection
    · constructor
      · intro heq
        exact hcanonical (by rw [heq])
      · intro hforms
        rw [← hspells.values_eq, encodeTuple_of_canonical false hvalid hforms, hspells.spell_eq]

end FoundationDbEffect.TupleLayer
