import FoundationDbEffect.Tuple.RoundTrip

/-!
# The tuple encoding preserves order

Packed tuples are ordered like the tuples themselves.  As for unpacking, the
statement for one element holds whatever follows the two encodings, as long as
neither continuation starts with the escape byte.
-/

namespace FoundationDbEffect.TupleLayer

open FoundationDbEffect.Foundation

/-! ## The semantic order -/

/-- The order of the kinds; `false` and `true` are kinds of their own. -/
def TupleValue.kindRank : TupleValue → Nat
  | .null => 0
  | .bytes _ => 1
  | .string _ => 2
  | .tuple _ => 3
  | .integer _ => 4
  | .float32 _ => 5
  | .number _ => 6
  | .boolean false => 7
  | .boolean true => 8
  | .uuid _ => 9
  | .versionstamp _ => 10

/-- The IEEE total order of bit patterns, as a number: the sign bit negates. -/
def totalOrder (width bits : Nat) : Int :=
  if bits < 2 ^ (width - 1) then bits
  else -((bits - 2 ^ (width - 1) : Nat) : Int) - 1

mutual

def compareValue : TupleValue → TupleValue → Ordering
  | .bytes a, .bytes b => lexBytes a b
  | .string a, .string b => List.compareLex compareScalar (scalars a) (scalars b)
  | .tuple a, .tuple b => compareTuple a b
  | .integer a, .integer b => compare a b
  | .float32 a, .float32 b =>
      compare (totalOrder 32 a.bits.toNat) (totalOrder 32 b.bits.toNat)
  | .number a, .number b =>
      compare (totalOrder 64 a.toNat) (totalOrder 64 b.toNat)
  | .uuid a, .uuid b => lexBytes a.bytes b.bytes
  | .versionstamp a, .versionstamp b => lexBytes a.bytes b.bytes
  | a, b => compare a.kindRank b.kindRank

def compareTuple : List TupleValue → List TupleValue → Ordering
  | [], [] => .eq
  | [], _ :: _ => .lt
  | _ :: _, [] => .gt
  | a :: as, b :: bs => (compareValue a b).then (compareTuple as bs)

end

theorem compareValue_of_kindRank_ne {v w : TupleValue}
    (h : v.kindRank ≠ w.kindRank) :
    compareValue v w = compare v.kindRank w.kindRank := by
  cases v <;> cases w <;> first
    | rfl
    | exact absurd rfl h

theorem compareBytes_eq (left right : Bytes) :
    compareBytes left right = lexBytes left right := by
  induction left generalizing right with
  | nil => cases right <;> rfl
  | cons l left ih =>
      cases right with
      | nil => rfl
      | cons r right =>
          rw [compareBytes, lexBytes, List.compareLex_cons_cons, ih]
          change _ = (compareOfLessAndEq l r).then _
          by_cases heq : l = r
          · simp [heq, compareOfLessAndEq]
          · by_cases hlt : l < r <;> simp [heq, hlt, compareOfLessAndEq]

/-! ## Escaped byte strings -/

theorem lexBytes_cons_of_lt {a b : UInt8} (h : a < b) (r s : Bytes) :
    lexBytes (a :: r) (b :: s) = .lt := by
  refine compareLex_cons_of_lt ?_ r s
  change compareOfLessAndEq a b = .lt
  rw [compareOfLessAndEq, if_pos h]

theorem lexBytes_gt_of_lt {x y : Bytes} (h : lexBytes y x = .lt) :
    lexBytes x y = .gt :=
  Std.OrientedCmp.gt_iff_lt.mpr h

theorem lexBytes_follows_escape {r : Bytes} (h : Follows r) (s : Bytes) :
    lexBytes r (escapeByte :: s) = .lt := by
  cases r with
  | nil => rfl
  | cons byte r =>
      refine lexBytes_cons_of_lt ?_ r s
      have hne : byte ≠ escapeByte := by simpa [Follows] using h
      have hle := byte.toNat_lt
      rw [UInt8.lt_iff_toNat_lt]
      have hne' : byte.toNat ≠ escapeByte.toNat := fun heq => hne (UInt8.toNat_inj.mp heq)
      simp only [escapeByte, UInt8.reduceToNat] at hne' ⊢
      omega

private theorem lexBytes_terminator_escaped {r : Bytes} (h : Follows r) (byte : UInt8)
    (s : Bytes) : lexBytes (nilCode :: r) (escapeNul byte ++ s) = .lt := by
  by_cases hnil : byte = nilCode
  · subst hnil
    rw [escapeNul, if_pos rfl, List.cons_append, lexBytes, compareLex_cons_self]
    exact lexBytes_follows_escape h _
  · rw [escapeNul, if_neg hnil]
    refine lexBytes_cons_of_lt ?_ _ _
    have hne : byte.toNat ≠ nilCode.toNat := fun heq => hnil (UInt8.toNat_inj.mp heq)
    rw [UInt8.lt_iff_toNat_lt]
    simp only [nilCode, UInt8.reduceToNat] at hne ⊢
    omega

private theorem escapeNul_cons (byte : UInt8) :
    ∃ tail, escapeNul byte = byte :: tail := by
  rw [escapeNul]
  split <;> exact ⟨_, rfl⟩

theorem lexBytes_encodeEscaped (a b : Bytes) {r s : Bytes} (hr : Follows r)
    (hs : Follows s) :
    lexBytes (encodeEscaped a ++ r) (encodeEscaped b ++ s) =
      (lexBytes a b).then (lexBytes r s) := by
  have hsplit (x : UInt8) (xs t : Bytes) : encodeEscaped (x :: xs) ++ t =
      escapeNul x ++ (encodeEscaped xs ++ t) := by simp [encodeEscaped]
  induction a generalizing b with
  | nil =>
      cases b with
      | nil => exact compareLex_cons_self _ _ _
      | cons y b =>
          rw [hsplit]
          exact lexBytes_terminator_escaped hr y _
  | cons x a ih =>
      cases b with
      | nil =>
          rw [hsplit]
          exact lexBytes_gt_of_lt (lexBytes_terminator_escaped hs x _)
      | cons y b =>
          rw [hsplit, hsplit]
          by_cases heq : x = y
          · subst heq
            have hhead : lexBytes (x :: a) (x :: b) = lexBytes a b :=
              compareLex_cons_self _ _ _
            rw [hhead, lexBytes, compareLex_append_left, ← lexBytes, ih]
          · obtain ⟨tailx, hx⟩ := escapeNul_cons x
            obtain ⟨taily, hy⟩ := escapeNul_cons y
            rw [hx, hy, List.cons_append, List.cons_append]
            rcases UInt8.lt_or_lt_of_ne heq with hlt | hgt
            · rw [lexBytes_cons_of_lt hlt, lexBytes_cons_of_lt hlt, Ordering.lt_then]
            · rw [lexBytes_gt_of_lt (lexBytes_cons_of_lt hgt _ _),
                lexBytes_gt_of_lt (lexBytes_cons_of_lt hgt _ _), Ordering.gt_then]

/-! ## Integers -/

private theorem headCode_toNat (negative : Bool) {length : Nat}
    (h : length ≤ maxSmallIntegerBytes) :
    (if negative then integerZeroCode - UInt8.ofNat length
      else integerZeroCode + UInt8.ofNat length).toNat =
      if negative then 20 - length else 20 + length := by
  simp only [maxSmallIntegerBytes] at h
  interval_cases length <;> cases negative <;> rfl

private theorem ofNat_lt {a b : Nat} (ha : a < b) (hb : b < 256) :
    UInt8.ofNat a < UInt8.ofNat b := by
  rw [UInt8.lt_iff_toNat_lt, UInt8.toNat_ofNat', UInt8.toNat_ofNat']
  omega

theorem integerHeader_lt {l l' : Nat} (h : l < l') (hl' : l' ≤ maxBigIntegerBytes)
    (r s : Bytes) :
    lexBytes (integerHeader false l ++ r) (integerHeader false l' ++ s) = .lt := by
  simp only [maxBigIntegerBytes] at hl'
  by_cases hsmall' : l' ≤ maxSmallIntegerBytes
  · have hsmall : l ≤ maxSmallIntegerBytes := by omega
    rw [integerHeader, if_pos hsmall, integerHeader, if_pos hsmall']
    refine lexBytes_cons_of_lt ?_ r s
    rw [UInt8.lt_iff_toNat_lt, headCode_toNat false hsmall, headCode_toNat false hsmall']
    simpa using h
  · rw [integerHeader.eq_1 false l', if_neg hsmall']
    by_cases hsmall : l ≤ maxSmallIntegerBytes
    · rw [integerHeader, if_pos hsmall]
      refine lexBytes_cons_of_lt ?_ _ _
      rw [UInt8.lt_iff_toNat_lt, headCode_toNat false hsmall]
      simp only [maxSmallIntegerBytes] at hsmall
      change 20 + l < 29
      omega
    · rw [integerHeader, if_neg hsmall]
      simp only [List.cons_append, lexBytes, compareLex_cons_self]
      exact lexBytes_cons_of_lt (ofNat_lt h (by omega)) _ _

private theorem complement_lt {a b : UInt8} (h : a < b) : b ^^^ 0xff < a ^^^ 0xff := by
  rw [UInt8.lt_iff_toNat_lt] at h ⊢
  have hb := b.toNat_lt
  rw [xor_ff_toNat, xor_ff_toNat]
  omega

theorem integerHeader_gt {l l' : Nat} (h : l < l') (hl' : l' ≤ maxBigIntegerBytes)
    (r s : Bytes) :
    lexBytes (integerHeader true l' ++ r) (integerHeader true l ++ s) = .lt := by
  simp only [maxBigIntegerBytes] at hl'
  by_cases hsmall' : l' ≤ maxSmallIntegerBytes
  · have hsmall : l ≤ maxSmallIntegerBytes := by omega
    rw [integerHeader, if_pos hsmall', integerHeader, if_pos hsmall]
    refine lexBytes_cons_of_lt ?_ r s
    rw [UInt8.lt_iff_toNat_lt, headCode_toNat true hsmall, headCode_toNat true hsmall']
    simp only [maxSmallIntegerBytes] at hsmall'
    simp only [if_true]
    omega
  · rw [integerHeader, if_neg hsmall']
    by_cases hsmall : l ≤ maxSmallIntegerBytes
    · rw [integerHeader, if_pos hsmall]
      refine lexBytes_cons_of_lt ?_ _ _
      rw [UInt8.lt_iff_toNat_lt, headCode_toNat true hsmall]
      simp only [maxSmallIntegerBytes] at hsmall
      change 11 < 20 - l
      omega
    · rw [integerHeader, if_neg hsmall]
      simp only [List.cons_append, if_true, lexBytes, compareLex_cons_self]
      exact lexBytes_cons_of_lt (complement_lt (ofNat_lt h (by omega))) _ _

theorem integerHeader_sign (negative : Bool) {length : Nat} (h₀ : 0 < length) :
    ∃ code tail, integerHeader negative length = code :: tail ∧
      if negative then code < integerZeroCode else integerZeroCode < code := by
  by_cases hsmall : length ≤ maxSmallIntegerBytes
  · refine ⟨_, [], by rw [integerHeader, if_pos hsmall], ?_⟩
    cases negative <;> simp only [if_true, Bool.false_eq_true, if_false] <;>
      rw [UInt8.lt_iff_toNat_lt]
    · have hcode := headCode_toNat false hsmall
      simp only [Bool.false_eq_true, if_false] at hcode
      rw [hcode]
      change 20 < 20 + length
      omega
    · have hcode := headCode_toNat true hsmall
      simp only [if_true] at hcode
      rw [hcode]
      change 20 - length < 20
      omega
  · refine ⟨_, [_], by rw [integerHeader, if_neg hsmall], ?_⟩
    cases negative <;> decide

private theorem magnitudeBytes_length_mono {m n : Nat} (h : m ≤ n) :
    (magnitudeBytes m).length ≤ (magnitudeBytes n).length := by
  rw [magnitudeBytes_length_le_iff]
  exact Nat.lt_of_le_of_lt h ((magnitudeBytes_length_le_iff n _).mp le_rfl)

private theorem lexBytes_magnitude_lt {m n : Nat} (h : m < n)
    (hlen : (magnitudeBytes m).length = (magnitudeBytes n).length) :
    lexBytes (magnitudeBytes m) (magnitudeBytes n) = .lt := by
  rw [lexBytes_eq_compare hlen, fromBigEndian_magnitudeBytes,
    fromBigEndian_magnitudeBytes]
  exact compare_lt_iff_lt.mpr h

private theorem encodeInteger_pos_lt {m n : Int} (hm : 0 < m) (h : m < n)
    (hn : rejection (.integer n) = none) (r s : Bytes) :
    lexBytes (encodeInteger m ++ r) (encodeInteger n ++ s) = .lt := by
  obtain ⟨-, hle⟩ := magnitudeBytes_length_bounds hn (by omega)
  have hlen := magnitudeBytes_length_mono (m := m.natAbs) (n := n.natAbs) (by omega)
  rw [encodeInteger_of_ne_zero (by omega : m ≠ 0),
    encodeInteger_of_ne_zero (by omega : n ≠ 0),
    decide_eq_false (by omega : ¬m < 0), decide_eq_false (by omega : ¬n < 0),
    if_neg (by omega : ¬m < 0), if_neg (by omega : ¬n < 0),
    List.append_assoc, List.append_assoc]
  rcases Nat.lt_or_eq_of_le hlen with hlt | heq
  · exact integerHeader_lt hlt hle _ _
  · rw [heq, lexBytes, compareLex_append_left, compareLex_append_of_length_eq heq,
      ← lexBytes, lexBytes_magnitude_lt (by omega) heq, Ordering.lt_then]

private theorem encodeInteger_neg_lt {m n : Int} (hn : n < 0) (h : m < n)
    (hm : rejection (.integer m) = none) (r s : Bytes) :
    lexBytes (encodeInteger m ++ r) (encodeInteger n ++ s) = .lt := by
  obtain ⟨-, hle⟩ := magnitudeBytes_length_bounds hm (by omega)
  have hlen := magnitudeBytes_length_mono (m := n.natAbs) (n := m.natAbs) (by omega)
  rw [encodeInteger_of_ne_zero (by omega : m ≠ 0),
    encodeInteger_of_ne_zero (by omega : n ≠ 0),
    decide_eq_true (by omega : m < 0), decide_eq_true hn,
    if_pos (by omega : m < 0), if_pos hn, List.append_assoc, List.append_assoc]
  rcases Nat.lt_or_eq_of_le hlen with hlt | heq
  · exact integerHeader_gt hlt hle _ _
  · have hcomplement := lexBytes_complement (x := magnitudeBytes m.natAbs)
      (y := magnitudeBytes n.natAbs) heq.symm
    rw [heq, lexBytes, compareLex_append_left,
      compareLex_append_of_length_eq (by simpa using heq.symm), ← lexBytes, hcomplement,
      lexBytes_magnitude_lt (by omega) heq, Ordering.lt_then]

private theorem encodeInteger_cons {n : Int} (hn : rejection (.integer n) = none)
    (h : n ≠ 0) :
    ∃ code tail, encodeInteger n = code :: tail ∧
      if n < 0 then code < integerZeroCode else integerZeroCode < code := by
  obtain ⟨hpos, -⟩ := magnitudeBytes_length_bounds hn h
  obtain ⟨code, tail, heq, hsign⟩ := integerHeader_sign (n < 0) hpos
  have hencode := encodeInteger_of_ne_zero h
  rw [heq, List.cons_append] at hencode
  exact ⟨code, _, hencode, by simpa using hsign⟩

theorem encodeInteger_lt {m n : Int} (h : m < n) (hm : rejection (.integer m) = none)
    (hn : rejection (.integer n) = none) (r s : Bytes) :
    lexBytes (encodeInteger m ++ r) (encodeInteger n ++ s) = .lt := by
  have hzero : encodeInteger 0 = [integerZeroCode] := rfl
  rcases lt_trichotomy m 0 with hm₀ | rfl | hm₀
  · obtain ⟨code, tail, heq, hcode⟩ := encodeInteger_cons hm (by omega)
    rw [if_pos hm₀] at hcode
    rcases lt_trichotomy n 0 with hn₀ | rfl | hn₀
    · exact encodeInteger_neg_lt hn₀ h hm r s
    · rw [hzero, heq]
      exact lexBytes_cons_of_lt hcode _ _
    · obtain ⟨code', tail', heq', hcode'⟩ := encodeInteger_cons hn (by omega)
      rw [if_neg (by omega)] at hcode'
      rw [heq, heq']
      exact lexBytes_cons_of_lt (UInt8.lt_trans hcode hcode') _ _
  · obtain ⟨code', tail', heq', hcode'⟩ := encodeInteger_cons hn (by omega)
    rw [if_neg (by omega)] at hcode'
    rw [hzero, heq']
    exact lexBytes_cons_of_lt hcode' _ _
  · exact encodeInteger_pos_lt hm₀ h hn r s

theorem lexBytes_encodeInteger (m n : Int) (hm : rejection (.integer m) = none)
    (hn : rejection (.integer n) = none) (r s : Bytes) :
    lexBytes (encodeInteger m ++ r) (encodeInteger n ++ s) =
      (compare m n).then (lexBytes r s) := by
  rcases lt_trichotomy m n with h | rfl | h
  · rw [encodeInteger_lt h hm hn, compare_lt_iff_lt.mpr h, Ordering.lt_then]
  · rw [compare_eq_iff_eq.mpr rfl, Ordering.eq_then]
    exact compareLex_append_left _ _ _
  · rw [lexBytes_gt_of_lt (encodeInteger_lt h hn hm s r), compare_gt_iff_gt.mpr h,
      Ordering.gt_then]

/-! ## Floats -/

private theorem sign_toNat (byte : UInt8) :
    (byte &&& 0x80 = 0 ↔ byte.toNat < 128) ∧
      (byte.toNat < 128 → (byte ^^^ 0x80).toNat = byte.toNat + 128) := by
  have h : ∀ n : Fin 256, (UInt8.ofFin n &&& 0x80 = 0 ↔ (UInt8.ofFin n).toNat < 128) ∧
      ((UInt8.ofFin n).toNat < 128 →
        (UInt8.ofFin n ^^^ 0x80).toNat = (UInt8.ofFin n).toNat + 128) := by
    decide +kernel
  exact h byte.toFin

theorem fromBigEndian_orderedFloat (width bits : Nat) (h : bits < 256 ^ (width + 1)) :
    (fromBigEndian (orderedFloat (toBigEndian (width + 1) bits)) : Int) =
      totalOrder (8 * (width + 1)) bits + 128 * 256 ^ width := by
  have hvalue := fromBigEndian_toBigEndian (width + 1) bits
  rw [Nat.mod_eq_of_lt h] at hvalue
  have hlength := toBigEndian_length (width + 1) bits
  have hhalf : 2 ^ (8 * (width + 1) - 1) = 128 * 256 ^ width := by
    rw [show 8 * (width + 1) - 1 = 7 + 8 * width by omega, pow_add, pow_mul]
    norm_num
  cases hbytes : toBigEndian (width + 1) bits with
  | nil => simp [hbytes] at hlength
  | cons first rest =>
      rw [hbytes, List.length_cons, Nat.add_right_cancel_iff] at hlength
      rw [hbytes, fromBigEndian_cons, hlength] at hvalue
      have hrest := fromBigEndian_lt rest
      rw [hlength] at hrest
      obtain ⟨hsign, hflip⟩ := sign_toNat first
      have hfirst := first.toNat_lt
      have hpow : (0 : Nat) < 256 ^ width := by positivity
      by_cases hpos : first &&& 0x80 = 0
      · have hlt := hsign.mp hpos
        have hsmall : bits < 128 * 256 ^ width := by nlinarith
        rw [orderedFloat, if_neg (not_not.mpr hpos), fromBigEndian_cons, hlength,
          hflip hlt, totalOrder, hhalf, if_pos hsmall, ← hvalue]
        push_cast
        ring
      · have hge : 128 ≤ first.toNat := Nat.le_of_not_lt (hsign.not.mp hpos)
        have hlarge : ¬bits < 128 * 256 ^ width := by nlinarith
        rw [orderedFloat, if_pos hpos, fromBigEndian_complement, fromBigEndian_cons,
          List.length_cons, hlength, hvalue, totalOrder, hhalf, if_neg hlarge]
        have hpow' : 256 ^ (width + 1) = 2 * (128 * 256 ^ width) := by
          rw [pow_succ]
          ring
        rw [hpow'] at h ⊢
        have hcast : ((128 * 256 ^ width : Nat) : Int) = 128 * 256 ^ width := by
          push_cast
          rfl
        rw [← hcast]
        generalize 128 * 256 ^ width = half at *
        omega

theorem lexBytes_orderedFloat (width a b : Nat) (ha : a < 256 ^ (width + 1))
    (hb : b < 256 ^ (width + 1)) (r s : Bytes) :
    lexBytes (orderedFloat (toBigEndian (width + 1) a) ++ r)
        (orderedFloat (toBigEndian (width + 1) b) ++ s) =
      (compare (totalOrder (8 * (width + 1)) a)
        (totalOrder (8 * (width + 1)) b)).then (lexBytes r s) := by
  rw [lexBytes, compareLex_append_of_length_eq (by simp), ← lexBytes,
    lexBytes_eq_compare (by simp)]
  congr 1
  have hfa := fromBigEndian_orderedFloat width a ha
  have hfb := fromBigEndian_orderedFloat width b hb
  generalize fromBigEndian (orderedFloat (toBigEndian (width + 1) a)) = x at *
  generalize fromBigEndian (orderedFloat (toBigEndian (width + 1) b)) = y at *
  rcases lt_trichotomy x y with h | h | h
  · rw [compare_lt_iff_lt.mpr h, compare_lt_iff_lt.mpr (by omega)]
  · rw [compare_eq_iff_eq.mpr h, compare_eq_iff_eq.mpr (by omega)]
  · rw [compare_gt_iff_gt.mpr h, compare_gt_iff_gt.mpr (by omega)]

/-! ## Elements and tuples -/

/-- The kind a type code stands for, as a rank. -/
def codeRank (code : UInt8) : Nat :=
  if code < 0x01 then 0
  else if code < 0x02 then 1
  else if code < 0x05 then 2
  else if code < 0x0b then 3
  else if code < 0x20 then 4
  else if code < 0x21 then 5
  else if code < 0x26 then 6
  else if code < 0x27 then 7
  else if code < 0x30 then 8
  else if code < 0x33 then 9
  else 10

theorem codeRank_mono {m n : Nat} (h : m ≤ n) (hn : n < 256) :
    codeRank (UInt8.ofNat m) ≤ codeRank (UInt8.ofNat n) := by
  have hstep : ∀ k : Fin 255, codeRank (UInt8.ofNat k) ≤ codeRank (UInt8.ofNat (k + 1)) := by
    decide +kernel
  induction h with
  | refl => exact le_rfl
  | @step n _ ih => exact (ih (by omega)).trans (hstep ⟨n, by omega⟩)

theorem codeRank_lt {a b : UInt8} (h : codeRank a < codeRank b) : a < b := by
  rw [← a.ofNat_toNat, ← b.ofNat_toNat] at h
  by_contra hle
  rw [UInt8.lt_iff_toNat_lt, not_lt] at hle
  exact absurd (codeRank_mono hle a.toNat_lt) h.not_ge

private theorem codeRank_integer {code : UInt8} (h : IsIntegerCode code) :
    codeRank code = 4 := by
  have hall : ∀ n : Fin 256, IsIntegerCode (UInt8.ofFin n) →
      codeRank (UInt8.ofFin n) = 4 := by decide +kernel
  exact hall code.toFin h

theorem encodeValue_codeRank (nested : Bool) (v : TupleValue)
    (hv : rejection v = none) :
    ∃ code tail, encodeValue nested v = code :: tail ∧ codeRank code = v.kindRank := by
  cases v with
  | null => cases nested <;> exact ⟨_, _, rfl, by decide⟩
  | boolean value => cases value <;> exact ⟨_, _, rfl, by decide⟩
  | bytes value => exact ⟨_, _, rfl, rfl⟩
  | string value => exact ⟨_, _, rfl, rfl⟩
  | float32 value => exact ⟨_, _, rfl, rfl⟩
  | number bits => exact ⟨_, _, rfl, rfl⟩
  | uuid value => exact ⟨_, _, rfl, rfl⟩
  | versionstamp value => exact ⟨_, _, rfl, rfl⟩
  | tuple children => exact ⟨_, _, rfl, rfl⟩
  | integer value =>
      by_cases hzero : value = 0
      · subst hzero
        exact ⟨_, _, rfl, by decide⟩
      · obtain ⟨hpos, hle⟩ := magnitudeBytes_length_bounds hv hzero
        obtain ⟨code, tail, heq, hcode, -⟩ :=
          integerHeader_spec (value < 0) _ hpos hle [] 0
        have hencode := encodeInteger_of_ne_zero hzero
        rw [heq, List.cons_append] at hencode
        exact ⟨code, _, hencode, codeRank_integer hcode⟩

private theorem lexBytes_encodeValue_of_kindRank_lt {v w : TupleValue}
    (h : v.kindRank < w.kindRank) (nested : Bool) (hv : rejection v = none)
    (hw : rejection w = none) (r s : Bytes) :
    lexBytes (encodeValue nested v ++ r) (encodeValue nested w ++ s) = .lt := by
  obtain ⟨code, tail, heq, hcode⟩ := encodeValue_codeRank nested v hv
  obtain ⟨code', tail', heq', hcode'⟩ := encodeValue_codeRank nested w hw
  rw [heq, heq']
  exact lexBytes_cons_of_lt (codeRank_lt (by omega)) _ _

private theorem lexBytes_encodeValue_of_kindRank_ne {v w : TupleValue}
    (h : v.kindRank ≠ w.kindRank) (nested : Bool) (hv : rejection v = none)
    (hw : rejection w = none) (r s : Bytes) :
    lexBytes (encodeValue nested v ++ r) (encodeValue nested w ++ s) =
      (compareValue v w).then (lexBytes r s) := by
  rw [compareValue_of_kindRank_ne h]
  rcases Nat.lt_or_gt_of_ne h with hlt | hgt
  · rw [lexBytes_encodeValue_of_kindRank_lt hlt nested hv hw,
      compare_lt_iff_lt.mpr hlt, Ordering.lt_then]
  · rw [lexBytes_gt_of_lt (lexBytes_encodeValue_of_kindRank_lt hgt nested hw hv s r),
      compare_gt_iff_gt.mpr hgt, Ordering.gt_then]

private theorem lexBytes_code (code : UInt8) (x y r s : Bytes) :
    lexBytes (code :: x ++ r) (code :: y ++ s) = lexBytes (x ++ r) (y ++ s) :=
  compareLex_cons_self _ _ _

private theorem lexBytes_close_lt {v : TupleValue} (hv : rejection v = none)
    (r x : Bytes) (hr : Follows r) :
    lexBytes (nilCode :: r) (encodeValue true v ++ x) = .lt := by
  obtain ⟨code, tail, heq, -, hnull⟩ := encodeValue_cons true v hv
  by_cases hcode : code = nilCode
  · rw [hnull rfl hcode, encodeValue, if_pos rfl, List.cons_append, lexBytes,
      compareLex_cons_self]
    exact lexBytes_follows_escape hr _
  · rw [heq]
    refine lexBytes_cons_of_lt ?_ _ _
    have hne : code.toNat ≠ nilCode.toNat := fun h => hcode (UInt8.toNat_inj.mp h)
    rw [UInt8.lt_iff_toNat_lt]
    simp only [nilCode, UInt8.reduceToNat] at hne ⊢
    omega

mutual

/-- Elements are compared before whatever follows them. -/
theorem lexBytes_encodeValue (nested : Bool) (v w : TupleValue)
    (hv : rejection v = none) (hw : rejection w = none) {r s : Bytes}
    (hr : Follows r) (hs : Follows s) :
    lexBytes (encodeValue nested v ++ r) (encodeValue nested w ++ s) =
      (compareValue v w).then (lexBytes r s) := by
  by_cases hkind : v.kindRank = w.kindRank
  swap
  · exact lexBytes_encodeValue_of_kindRank_ne hkind nested hv hw r s
  match v, w with
  | .null, .null => exact compareLex_append_left _ _ _
  | .boolean true, .boolean true => exact compareLex_append_left _ _ _
  | .boolean false, .boolean false => exact compareLex_append_left _ _ _
  | .bytes a, .bytes b =>
      rw [encodeValue, encodeValue, lexBytes_code, compareValue]
      exact lexBytes_encodeEscaped a b hr hs
  | .string a, .string b =>
      rw [encodeValue, encodeValue, lexBytes_code, compareValue,
        ← lexBytes_encodeUtf8]
      exact lexBytes_encodeEscaped _ _ hr hs
  | .integer m, .integer n =>
      rw [encodeValue, encodeValue, compareValue]
      exact lexBytes_encodeInteger m n hv hw r s
  | .float32 a, .float32 b =>
      rw [encodeValue, encodeValue, lexBytes_code, compareValue]
      exact lexBytes_orderedFloat 3 _ _ a.bits.toNat_lt b.bits.toNat_lt r s
  | .number a, .number b =>
      rw [encodeValue, encodeValue, lexBytes_code, compareValue]
      exact lexBytes_orderedFloat 7 _ _ a.toNat_lt b.toNat_lt r s
  | .uuid a, .uuid b =>
      rw [encodeValue, encodeValue, lexBytes_code, compareValue]
      exact compareLex_append_of_length_eq (by rw [a.length_eq, b.length_eq]) r s
  | .versionstamp a, .versionstamp b =>
      rw [encodeValue, encodeValue, lexBytes_code, compareValue]
      exact compareLex_append_of_length_eq (by rw [a.length_eq, b.length_eq]) r s
  | .tuple as, .tuple bs =>
      rw [rejection] at hv hw
      rw [encodeValue, encodeValue, lexBytes_code, compareValue, List.append_assoc,
        List.append_assoc, List.singleton_append, List.singleton_append]
      exact lexBytes_encodeTuple_nested as bs hv hw hr hs

theorem lexBytes_encodeTuple_nested (as bs : List TupleValue)
    (has : firstRejection as = none) (hbs : firstRejection bs = none) {r s : Bytes}
    (hr : Follows r) (hs : Follows s) :
    lexBytes (encodeTuple true as ++ nilCode :: r)
        (encodeTuple true bs ++ nilCode :: s) =
      (compareTuple as bs).then (lexBytes r s) := by
  have hclose {x : Bytes} : Follows (nilCode :: x) := follows_cons (by decide)
  match as, bs with
  | [], [] => exact compareLex_cons_self _ _ _
  | [], b :: bs =>
      have hb := (firstRejection_eq_none_iff _).mp hbs b (by simp)
      rw [encodeTuple, encodeTuple, List.append_assoc, List.nil_append,
        lexBytes_close_lt hb r _ hr, compareTuple, Ordering.lt_then]
  | a :: as, [] =>
      have ha := (firstRejection_eq_none_iff _).mp has a (by simp)
      rw [encodeTuple, encodeTuple, List.append_assoc, List.nil_append,
        lexBytes_gt_of_lt (lexBytes_close_lt ha s _ hs), compareTuple, Ordering.gt_then]
  | a :: as, b :: bs =>
      have hmema := (firstRejection_eq_none_iff _).mp has
      have hmemb := (firstRejection_eq_none_iff _).mp hbs
      have has' := (firstRejection_eq_none_iff as).mpr
        (fun w hw => hmema w (List.mem_cons_of_mem _ hw))
      have hbs' := (firstRejection_eq_none_iff bs).mpr
        (fun w hw => hmemb w (List.mem_cons_of_mem _ hw))
      rw [encodeTuple, encodeTuple, List.append_assoc, List.append_assoc,
        lexBytes_encodeValue true a b (hmema a (by simp)) (hmemb b (by simp))
          (follows_encodeTuple true as has' hclose)
          (follows_encodeTuple true bs hbs' hclose),
        lexBytes_encodeTuple_nested as bs has' hbs' hr hs, compareTuple,
        Ordering.then_assoc]

end

theorem lexBytes_encodeTuple (as bs : List TupleValue)
    (has : firstRejection as = none) (hbs : firstRejection bs = none) :
    lexBytes (encodeTuple false as) (encodeTuple false bs) = compareTuple as bs := by
  induction as generalizing bs with
  | nil =>
      cases bs with
      | nil => rfl
      | cons b bs =>
          have hb := (firstRejection_eq_none_iff _).mp hbs b (by simp)
          obtain ⟨code, tail, heq, -⟩ := encodeValue_cons false b hb
          rw [encodeTuple, encodeTuple, heq]
          rfl
  | cons a as ih =>
      have hmema := (firstRejection_eq_none_iff _).mp has
      cases bs with
      | nil =>
          obtain ⟨code, tail, heq, -⟩ := encodeValue_cons false a (hmema a (by simp))
          rw [encodeTuple, encodeTuple, heq]
          rfl
      | cons b bs =>
          have hmemb := (firstRejection_eq_none_iff _).mp hbs
          have has' := (firstRejection_eq_none_iff as).mpr
            (fun w hw => hmema w (List.mem_cons_of_mem _ hw))
          have hbs' := (firstRejection_eq_none_iff bs).mpr
            (fun w hw => hmemb w (List.mem_cons_of_mem _ hw))
          have hfollows (vs : List TupleValue) (hvs : firstRejection vs = none) :
              Follows (encodeTuple false vs) := by
            simpa using follows_encodeTuple false vs hvs follows_nil
          rw [encodeTuple, encodeTuple,
            lexBytes_encodeValue false a b (hmema a (by simp)) (hmemb b (by simp))
              (hfollows as has') (hfollows bs hbs'),
            ih bs has' hbs', compareTuple]

/-- Packings are ordered byte by byte like the tuples they encode. -/
theorem compareBytes_pack {s t : Tuple} {a b : Bytes} (hs : pack s = .ok a)
    (ht : pack t = .ok b) : compareBytes a b = compareTuple s t := by
  obtain ⟨hs', rfl⟩ := (pack_ok_iff s a).mp hs
  obtain ⟨ht', rfl⟩ := (pack_ok_iff t b).mp ht
  rw [compareBytes_eq]
  exact lexBytes_encodeTuple s t ((firstRejection_eq_none_iff_occurs s).mpr hs')
    ((firstRejection_eq_none_iff_occurs t).mpr ht')

theorem compareBytes_pack_nested :
    compareBytes [0x05, 0x00, 0xff, 0x00, 0x15, 0x01] [0x05, 0x01, 0x00, 0x00] = .lt ∧
      compareTuple [.tuple [.null], .integer 1] [.tuple [.bytes []]] = .lt := by
  have h := compareBytes_pack (s := [.tuple [.null], .integer 1])
    (t := [.tuple [.bytes []]]) (a := [0x05, 0x00, 0xff, 0x00, 0x15, 0x01])
    (b := [0x05, 0x01, 0x00, 0x00]) (by decide) (by decide)
  exact ⟨by decide, by rw [← h]; decide⟩

end FoundationDbEffect.TupleLayer
