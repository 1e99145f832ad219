import FoundationDbEffect.Foundation.Numeral
import Mathlib.Data.UInt

/-!
# UTF-16 strings and their UTF-8 encoding

A string is the list of its UTF-16 code units.  Its scalar values are read off
pair by pair; an unpaired surrogate reads as U+FFFD, as the Encoding standard
prescribes for encoders.  UTF-8 orders well-formed strings by code point.
-/

namespace FoundationDbEffect.Foundation

abbrev CodeUnits := List UInt16

def isHighSurrogate (unit : UInt16) : Bool :=
  0xd800 ≤ unit.toNat && unit.toNat ≤ 0xdbff

def isLowSurrogate (unit : UInt16) : Bool :=
  0xdc00 ≤ unit.toNat && unit.toNat ≤ 0xdfff

def replacementCharacter : Char := Char.ofNat 0xfffd

def unitScalar (unit : UInt16) : Char :=
  if isHighSurrogate unit || isLowSurrogate unit then replacementCharacter
  else Char.ofNat unit.toNat

def pairScalar (high low : UInt16) : Char :=
  Char.ofNat (0x10000 + (high.toNat - 0xd800) * 0x400 + (low.toNat - 0xdc00))

/-- The scalar values of a string. -/
def scalars : CodeUnits → List Char
  | [] => []
  | [unit] => [unitScalar unit]
  | unit :: next :: rest =>
      if isHighSurrogate unit && isLowSurrogate next then
        pairScalar unit next :: scalars rest
      else unitScalar unit :: scalars (next :: rest)

/-- No surrogate stands outside a pair. -/
def wellFormed : CodeUnits → Bool
  | [] => true
  | [unit] => !isHighSurrogate unit && !isLowSurrogate unit
  | unit :: next :: rest =>
      if isHighSurrogate unit then isLowSurrogate next && wellFormed rest
      else !isLowSurrogate unit && wellFormed (next :: rest)

def scalarUnits (c : Char) : CodeUnits :=
  if c.toNat < 0x10000 then [UInt16.ofNat c.toNat]
  else
    [UInt16.ofNat (0xd800 + (c.toNat - 0x10000) / 0x400),
      UInt16.ofNat (0xdc00 + (c.toNat - 0x10000) % 0x400)]

def fromScalars (cs : List Char) : CodeUnits :=
  cs.flatMap scalarUnits

def encodeUtf8 (cs : List Char) : Bytes :=
  cs.flatMap String.utf8EncodeChar

/-- Fatal UTF-8 decoding that keeps a byte order mark. -/
def decodeUtf8 (bytes : Bytes) : Option (List Char) :=
  bytes.toByteArray.utf8Decode?.map Array.toList

/-! ## Scalar values of well-formed strings -/

private theorem toNat_charOfNat {n : Nat} (h : n.isValidChar) :
    (Char.ofNat n).toNat = n := by
  rw [Char.ofNat, dif_pos h]
  rfl

private theorem scalarUnits_unitScalar {unit : UInt16}
    (hhigh : isHighSurrogate unit = false) (hlow : isLowSurrogate unit = false) :
    scalarUnits (unitScalar unit) = [unit] := by
  have hunit := unit.toNat_lt
  have hvalid : unit.toNat.isValidChar := by
    simp only [isHighSurrogate, isLowSurrogate, Bool.and_eq_false_iff,
      decide_eq_false_iff_not] at hhigh hlow
    simp only [Nat.isValidChar]
    omega
  simp only [unitScalar, hhigh, hlow, Bool.or_self, Bool.false_eq_true, if_false,
    scalarUnits, toNat_charOfNat hvalid]
  rw [if_pos (by omega), UInt16.ofNat_toNat]

private theorem scalarUnits_pairScalar {high low : UInt16}
    (hhigh : isHighSurrogate high = true) (hlow : isLowSurrogate low = true) :
    scalarUnits (pairScalar high low) = [high, low] := by
  simp only [isHighSurrogate, isLowSurrogate, Bool.and_eq_true,
    decide_eq_true_eq] at hhigh hlow
  have hvalid : (0x10000 + (high.toNat - 0xd800) * 0x400 +
      (low.toNat - 0xdc00)).isValidChar := by
    simp only [Nat.isValidChar]
    omega
  have hfirst : 0xd800 + (0x10000 + (high.toNat - 0xd800) * 0x400 +
      (low.toNat - 0xdc00) - 0x10000) / 0x400 = high.toNat := by omega
  have hsecond : 0xdc00 + (0x10000 + (high.toNat - 0xd800) * 0x400 +
      (low.toNat - 0xdc00) - 0x10000) % 0x400 = low.toNat := by omega
  simp only [pairScalar, scalarUnits, toNat_charOfNat hvalid]
  rw [if_neg (by omega), hfirst, hsecond, UInt16.ofNat_toNat, UInt16.ofNat_toNat]

theorem fromScalars_scalars (units : CodeUnits) (h : wellFormed units = true) :
    fromScalars (scalars units) = units := by
  induction units using scalars.induct with
  | case1 => rfl
  | case2 unit =>
      simp only [wellFormed, Bool.and_eq_true, Bool.not_eq_true'] at h
      simp [scalars, fromScalars, scalarUnits_unitScalar h.1 h.2]
  | case3 unit next rest hpair ih =>
      simp only [Bool.and_eq_true] at hpair
      simp only [wellFormed, hpair.1, hpair.2, if_true, Bool.true_and] at h
      have htail := ih h
      simp only [fromScalars] at htail
      simp [scalars, fromScalars, hpair.1, hpair.2,
        scalarUnits_pairScalar hpair.1 hpair.2, htail]
  | case4 unit next rest hpair ih =>
      cases hhigh : isHighSurrogate unit with
      | true =>
          simp only [wellFormed, hhigh, if_true, Bool.and_eq_true] at h
          simp [hhigh, h.1] at hpair
      | false =>
          simp only [wellFormed, hhigh, Bool.false_eq_true, if_false,
            Bool.and_eq_true, Bool.not_eq_true'] at h
          have htail := ih h.2
          simp only [fromScalars] at htail
          simp [scalars, fromScalars, hhigh,
            scalarUnits_unitScalar hhigh h.1, htail]

private theorem surrogates_scalarUnits_small {c : Char} (h : c.toNat < 0x10000) :
    isHighSurrogate (UInt16.ofNat c.toNat) = false ∧
      isLowSurrogate (UInt16.ofNat c.toNat) = false := by
  have hvalid : c.toNat.isValidChar := c.valid
  have hmod : (UInt16.ofNat c.toNat).toNat = c.toNat := by
    rw [UInt16.toNat_ofNat']
    omega
  simp only [Nat.isValidChar] at hvalid
  simp only [isHighSurrogate, isLowSurrogate, hmod, Bool.and_eq_false_iff,
    decide_eq_false_iff_not]
  omega

private theorem charOfNat_toNat (c : Char) : Char.ofNat c.toNat = c :=
  Char.ofNat_toNat c

private theorem scalars_cons_small {c : Char} (h : c.toNat < 0x10000)
    (units : CodeUnits) :
    scalars (UInt16.ofNat c.toNat :: units) = c :: scalars units := by
  obtain ⟨hhigh, hlow⟩ := surrogates_scalarUnits_small h
  have hscalar : unitScalar (UInt16.ofNat c.toNat) = c := by
    have hmod : (UInt16.ofNat c.toNat).toNat = c.toNat := by
      rw [UInt16.toNat_ofNat']
      omega
    simp [unitScalar, hhigh, hlow, hmod]
  cases units with
  | nil => simp [scalars, hscalar]
  | cons next rest => simp [scalars, hhigh, hscalar]

private theorem surrogates_scalarUnits_large {c : Char} (h : ¬c.toNat < 0x10000) :
    isHighSurrogate (UInt16.ofNat (0xd800 + (c.toNat - 0x10000) / 0x400)) = true ∧
      isLowSurrogate (UInt16.ofNat (0xdc00 + (c.toNat - 0x10000) % 0x400)) = true := by
  have hvalid : c.toNat.isValidChar := c.valid
  simp only [Nat.isValidChar] at hvalid
  simp only [isHighSurrogate, isLowSurrogate, UInt16.toNat_ofNat', Bool.and_eq_true,
    decide_eq_true_eq]
  omega

private theorem scalars_cons_large {c : Char} (h : ¬c.toNat < 0x10000)
    (units : CodeUnits) :
    scalars (UInt16.ofNat (0xd800 + (c.toNat - 0x10000) / 0x400) ::
        UInt16.ofNat (0xdc00 + (c.toNat - 0x10000) % 0x400) :: units) =
      c :: scalars units := by
  have hvalid : c.toNat.isValidChar := c.valid
  simp only [Nat.isValidChar] at hvalid
  have hhigh : (UInt16.ofNat (0xd800 + (c.toNat - 0x10000) / 0x400)).toNat =
      0xd800 + (c.toNat - 0x10000) / 0x400 := by
    rw [UInt16.toNat_ofNat']
    omega
  have hlow : (UInt16.ofNat (0xdc00 + (c.toNat - 0x10000) % 0x400)).toNat =
      0xdc00 + (c.toNat - 0x10000) % 0x400 := by
    rw [UInt16.toNat_ofNat']
    omega
  have hsum : 0x10000 + (0xd800 + (c.toNat - 0x10000) / 0x400 - 0xd800) * 0x400 +
      (0xdc00 + (c.toNat - 0x10000) % 0x400 - 0xdc00) = c.toNat := by omega
  have hpair := surrogates_scalarUnits_large h
  rw [scalars, hpair.1, hpair.2, Bool.and_self, if_pos rfl, pairScalar, hhigh,
    hlow, hsum, charOfNat_toNat]

theorem scalars_fromScalars (cs : List Char) : scalars (fromScalars cs) = cs := by
  induction cs with
  | nil => rfl
  | cons c cs ih =>
      change scalars (scalarUnits c ++ fromScalars cs) = c :: cs
      by_cases h : c.toNat < 0x10000
      · rw [scalarUnits, if_pos h, List.singleton_append, scalars_cons_small h, ih]
      · rw [scalarUnits, if_neg h, List.cons_append, List.singleton_append,
          scalars_cons_large h, ih]

theorem wellFormed_fromScalars (cs : List Char) : wellFormed (fromScalars cs) = true := by
  induction cs with
  | nil => rfl
  | cons c cs ih =>
      change wellFormed (scalarUnits c ++ fromScalars cs) = true
      by_cases h : c.toNat < 0x10000
      · obtain ⟨hhigh, hlow⟩ := surrogates_scalarUnits_small h
        rw [scalarUnits, if_pos h, List.singleton_append]
        cases hunits : fromScalars cs with
        | nil => simp [wellFormed, hhigh, hlow]
        | cons next rest => simpa [wellFormed, hhigh, hlow, hunits] using ih
      · obtain ⟨hhigh, hlow⟩ := surrogates_scalarUnits_large h
        rw [scalarUnits, if_neg h, List.cons_append, List.singleton_append, wellFormed,
          if_pos hhigh, hlow, ih, Bool.and_self]

/-! ## UTF-8 -/

@[simp] theorem decodeUtf8_encodeUtf8 (cs : List Char) :
    decodeUtf8 (encodeUtf8 cs) = some cs := by
  have h : (encodeUtf8 cs).toByteArray = cs.utf8Encode := rfl
  simp [decodeUtf8, h]

theorem encodeUtf8_of_decodeUtf8 {bytes : Bytes} {cs : List Char}
    (h : decodeUtf8 bytes = some cs) : encodeUtf8 cs = bytes := by
  simp only [decodeUtf8, Option.map_eq_some_iff] at h
  obtain ⟨chars, hchars, rfl⟩ := h
  have hsome : bytes.toByteArray.utf8Decode?.isSome = true := by simp [hchars]
  have hget := ByteArray.utf8Encode_get_utf8Decode? (h := hsome)
  simp only [hchars, Option.get_some] at hget
  exact List.toByteArray_inj.mp hget

/-- UTF-8 bytes of a scalar value given as a number. -/
private def utf8Bytes (n : Nat) : Bytes :=
  if n ≤ 0x7f then [UInt8.ofNat n]
  else if n ≤ 0x7ff then
    [UInt8.ofNat (n / 64 % 0x20 + 0xc0), UInt8.ofNat (n % 0x40 + 0x80)]
  else if n ≤ 0xffff then
    [UInt8.ofNat (n / 4096 % 0x10 + 0xe0), UInt8.ofNat (n / 64 % 0x40 + 0x80),
      UInt8.ofNat (n % 0x40 + 0x80)]
  else
    [UInt8.ofNat (n / 262144 % 0x08 + 0xf0), UInt8.ofNat (n / 4096 % 0x40 + 0x80),
      UInt8.ofNat (n / 64 % 0x40 + 0x80), UInt8.ofNat (n % 0x40 + 0x80)]

private theorem utf8EncodeChar_eq (c : Char) :
    String.utf8EncodeChar c = utf8Bytes c.toNat := rfl

private theorem compare_ofNat_lt {a b : Nat} (ha : a < 256) (hb : b < 256)
    (h : a < b) : compare (UInt8.ofNat a) (UInt8.ofNat b) = .lt := by
  have hlt : UInt8.ofNat a < UInt8.ofNat b := by
    rw [UInt8.lt_iff_toNat_lt, UInt8.toNat_ofNat', UInt8.toNat_ofNat']
    omega
  change compareOfLessAndEq _ _ = .lt
  rw [compareOfLessAndEq, if_pos hlt]

private theorem lexBytes_ofNat_cons {a b : Nat} (ha : a < 256) (hb : b < 256)
    (r s : Bytes)
    (h : a < b ∨ a = b ∧ lexBytes r s = .lt) :
    lexBytes (UInt8.ofNat a :: r) (UInt8.ofNat b :: s) = .lt := by
  rcases h with h | ⟨rfl, h⟩
  · exact compareLex_cons_of_lt (compare_ofNat_lt ha hb h) _ _
  · rw [lexBytes, compareLex_cons_self]
    exact h

private theorem utf8Bytes_two {n : Nat} (h₁ : ¬n ≤ 0x7f) (h₂ : n ≤ 0x7ff) :
    utf8Bytes n =
      [UInt8.ofNat (n / 64 % 0x20 + 0xc0), UInt8.ofNat (n % 0x40 + 0x80)] := by
  rw [utf8Bytes, if_neg h₁, if_pos h₂]

private theorem utf8Bytes_three {n : Nat} (h₂ : ¬n ≤ 0x7ff) (h₃ : n ≤ 0xffff) :
    utf8Bytes n =
      [UInt8.ofNat (n / 4096 % 0x10 + 0xe0), UInt8.ofNat (n / 64 % 0x40 + 0x80),
        UInt8.ofNat (n % 0x40 + 0x80)] := by
  have h₁ : ¬n ≤ 0x7f := by omega
  rw [utf8Bytes, if_neg h₁, if_neg h₂, if_pos h₃]

private theorem utf8Bytes_four {n : Nat} (h₃ : ¬n ≤ 0xffff) :
    utf8Bytes n =
      [UInt8.ofNat (n / 262144 % 0x08 + 0xf0), UInt8.ofNat (n / 4096 % 0x40 + 0x80),
        UInt8.ofNat (n / 64 % 0x40 + 0x80), UInt8.ofNat (n % 0x40 + 0x80)] := by
  have h₁ : ¬n ≤ 0x7f := by omega
  have h₂ : ¬n ≤ 0x7ff := by omega
  rw [utf8Bytes, if_neg h₁, if_neg h₂, if_neg h₃]

private theorem utf8Bytes_lead {n : Nat} (hn : n < 0x110000) :
    ∃ lead rest, utf8Bytes n = UInt8.ofNat lead :: rest ∧ lead < 256 ∧
      (n ≤ 0x7f → lead ≤ 0x7f) ∧
      (0x7f < n → 0xc0 ≤ lead) ∧ (n ≤ 0x7ff → lead ≤ 0xdf) ∧
      (0x7ff < n → 0xe0 ≤ lead) ∧ (n ≤ 0xffff → lead ≤ 0xef) ∧
      (0xffff < n → 0xf0 ≤ lead) := by
  by_cases h₁ : n ≤ 0x7f
  · exact ⟨n, [], by rw [utf8Bytes, if_pos h₁], by omega⟩
  by_cases h₂ : n ≤ 0x7ff
  · exact ⟨_, _, utf8Bytes_two h₁ h₂, by omega⟩
  by_cases h₃ : n ≤ 0xffff
  · exact ⟨_, _, utf8Bytes_three h₂ h₃, by omega⟩
  · exact ⟨_, _, utf8Bytes_four h₃, by omega⟩

private def sizeClass (n : Nat) : Nat :=
  if n ≤ 0x7f then 1 else if n ≤ 0x7ff then 2 else if n ≤ 0xffff then 3 else 4

private theorem utf8Bytes_lt_of_class {n m : Nat} (hm : m < 0x110000)
    (h : sizeClass n < sizeClass m) (r s : Bytes) :
    lexBytes (utf8Bytes n ++ r) (utf8Bytes m ++ s) = .lt := by
  have hn : n < 0x110000 := by
    simp only [sizeClass] at h
    split_ifs at h <;> omega
  obtain ⟨a, x, hx, ha, a₁, a₂, a₃, a₄, a₅, a₆⟩ := utf8Bytes_lead hn
  obtain ⟨b, y, hy, hb, b₁, b₂, b₃, b₄, b₅, b₆⟩ := utf8Bytes_lead hm
  rw [hx, hy, List.cons_append, List.cons_append]
  refine lexBytes_ofNat_cons ha hb _ _ (.inl ?_)
  simp only [sizeClass] at h
  split_ifs at h <;> omega

private theorem utf8Bytes_lt_of_same_class {n m : Nat} (h : n < m)
    (hm : m < 0x110000) (hclass : sizeClass n = sizeClass m) (r s : Bytes) :
    lexBytes (utf8Bytes n ++ r) (utf8Bytes m ++ s) = .lt := by
  by_cases h₁ : m ≤ 0x7f
  · rw [utf8Bytes, if_pos (by omega), utf8Bytes, if_pos h₁]
    exact lexBytes_ofNat_cons (by omega) (by omega) _ _ (.inl h)
  have hn₁ : ¬n ≤ 0x7f := by
    simp only [sizeClass] at hclass
    split_ifs at hclass <;> omega
  by_cases h₂ : m ≤ 0x7ff
  · rw [utf8Bytes_two hn₁ (by omega), utf8Bytes_two h₁ h₂]
    refine lexBytes_ofNat_cons (by omega) (by omega) _ _ ?_
    by_cases hlead : n / 64 % 0x20 + 0xc0 < m / 64 % 0x20 + 0xc0
    · exact .inl hlead
    · exact .inr ⟨by omega, lexBytes_ofNat_cons (by omega) (by omega) _ _
        (.inl (by omega))⟩
  have hn₂ : ¬n ≤ 0x7ff := by
    simp only [sizeClass] at hclass
    split_ifs at hclass <;> omega
  by_cases h₃ : m ≤ 0xffff
  · rw [utf8Bytes_three hn₂ (by omega), utf8Bytes_three h₂ h₃]
    refine lexBytes_ofNat_cons (by omega) (by omega) _ _ ?_
    by_cases hlead : n / 4096 % 0x10 + 0xe0 < m / 4096 % 0x10 + 0xe0
    · exact .inl hlead
    refine .inr ⟨by omega, lexBytes_ofNat_cons (by omega) (by omega) _ _ ?_⟩
    by_cases hnext : n / 64 % 0x40 + 0x80 < m / 64 % 0x40 + 0x80
    · exact .inl hnext
    · exact .inr ⟨by omega, lexBytes_ofNat_cons (by omega) (by omega) _ _
        (.inl (by omega))⟩
  have hn₃ : ¬n ≤ 0xffff := by
    simp only [sizeClass] at hclass
    split_ifs at hclass <;> omega
  have hdiv (k : Nat) : k / 4096 = k / 64 / 64 ∧ k / 262144 = k / 64 / 64 / 64 := by
    simp [Nat.div_div_eq_div_mul]
  obtain ⟨hn₄, hn₅⟩ := hdiv n
  obtain ⟨hm₄, hm₅⟩ := hdiv m
  have hle₁ : n / 64 ≤ m / 64 := Nat.div_le_div_right h.le
  have hle₂ : n / 64 / 64 ≤ m / 64 / 64 := Nat.div_le_div_right hle₁
  have hle₃ : n / 64 / 64 / 64 ≤ m / 64 / 64 / 64 := Nat.div_le_div_right hle₂
  have hmax : m / 64 / 64 / 64 < 8 := by omega
  rw [utf8Bytes_four hn₃, utf8Bytes_four h₃, hn₄, hn₅, hm₄, hm₅,
    Nat.mod_eq_of_lt (by omega : n / 64 / 64 / 64 < 8), Nat.mod_eq_of_lt hmax]
  refine lexBytes_ofNat_cons (by omega) (by omega) _ _ ?_
  rcases Nat.lt_or_eq_of_le hle₃ with hlead | hlead
  · exact .inl (by omega)
  refine .inr ⟨by omega, lexBytes_ofNat_cons (by omega) (by omega) _ _ ?_⟩
  rcases Nat.lt_or_eq_of_le hle₂ with hsecond | hsecond
  · exact .inl (by omega)
  refine .inr ⟨by omega, lexBytes_ofNat_cons (by omega) (by omega) _ _ ?_⟩
  rcases Nat.lt_or_eq_of_le hle₁ with hthird | hthird
  · exact .inl (by omega)
  · exact .inr ⟨by omega, lexBytes_ofNat_cons (by omega) (by omega) _ _
      (.inl (by omega))⟩

private theorem utf8Bytes_lt {n m : Nat} (h : n < m) (hm : m < 0x110000)
    (r s : Bytes) : lexBytes (utf8Bytes n ++ r) (utf8Bytes m ++ s) = .lt := by
  have hle : sizeClass n ≤ sizeClass m := by
    simp only [sizeClass]
    split_ifs <;> omega
  rcases Nat.lt_or_eq_of_le hle with hlt | heq
  · exact utf8Bytes_lt_of_class hm hlt r s
  · exact utf8Bytes_lt_of_same_class h hm heq r s

abbrev compareScalar (c d : Char) : Ordering := compare c.toNat d.toNat

theorem lexBytes_utf8EncodeChar (c d : Char) (r s : Bytes) :
    lexBytes (String.utf8EncodeChar c ++ r) (String.utf8EncodeChar d ++ s) =
      (compareScalar c d).then (lexBytes r s) := by
  have bound (e : Char) : e.toNat < 0x110000 := by
    have hvalid : e.toNat.isValidChar := e.valid
    simp only [Nat.isValidChar] at hvalid
    omega
  rw [utf8EncodeChar_eq, utf8EncodeChar_eq, compareScalar]
  rcases lt_trichotomy c.toNat d.toNat with h | h | h
  · rw [utf8Bytes_lt h (bound d), compare_lt_iff_lt.mpr h, Ordering.lt_then]
  · rw [h, compare_eq_iff_eq.mpr rfl, Ordering.eq_then]
    exact compareLex_append_left _ _ _
  · rw [compare_gt_iff_gt.mpr h, Ordering.gt_then]
    exact Std.OrientedCmp.gt_iff_lt.mpr (utf8Bytes_lt h (bound c) s r)

/-- UTF-8 orders strings by code point. -/
theorem lexBytes_encodeUtf8 (cs ds : List Char) :
    lexBytes (encodeUtf8 cs) (encodeUtf8 ds) =
      List.compareLex compareScalar cs ds :=
  compareLex_flatMap (fun _ => String.utf8EncodeChar_ne_nil)
    lexBytes_utf8EncodeChar cs ds

end FoundationDbEffect.Foundation
