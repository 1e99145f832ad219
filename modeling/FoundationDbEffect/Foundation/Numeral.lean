import FoundationDbEffect.Foundation.Lex
import Mathlib.Data.Nat.Digits.Lemmas
import Mathlib.Tactic.Ring
import Mathlib.Tactic.Linarith

/-!
# Big-endian numerals

Byte strings of one length are ordered like the numbers they spell in base 256,
most significant byte first.  Complementing every byte reverses that order.
-/

namespace FoundationDbEffect.Foundation

abbrev Bytes := List UInt8

abbrev lexBytes (left right : Bytes) : Ordering :=
  List.compareLex compare left right

/-- The number spelled by `bytes`, most significant byte first. -/
def fromBigEndian (bytes : Bytes) : Nat :=
  bytes.foldl (fun acc byte => acc * 256 + byte.toNat) 0

/-- The `width` low bytes of `n`, most significant byte first. -/
def toBigEndian : Nat → Nat → Bytes
  | 0, _ => []
  | width + 1, n => toBigEndian width (n / 256) ++ [UInt8.ofNat n]

def complement (bytes : Bytes) : Bytes :=
  bytes.map (· ^^^ 0xff)

@[simp] theorem fromBigEndian_nil : fromBigEndian [] = 0 := rfl

theorem fromBigEndian_concat (bytes : Bytes) (byte : UInt8) :
    fromBigEndian (bytes ++ [byte]) = fromBigEndian bytes * 256 + byte.toNat := by
  simp [fromBigEndian]

theorem fromBigEndian_cons (byte : UInt8) (bytes : Bytes) :
    fromBigEndian (byte :: bytes) =
      byte.toNat * 256 ^ bytes.length + fromBigEndian bytes := by
  induction bytes using List.reverseRecOn with
  | nil => simp [fromBigEndian]
  | append_singleton bytes last ih =>
      rw [← List.cons_append, fromBigEndian_concat, fromBigEndian_concat, ih]
      rw [List.length_append, List.length_singleton, pow_succ]
      ring

theorem fromBigEndian_lt (bytes : Bytes) :
    fromBigEndian bytes < 256 ^ bytes.length := by
  induction bytes using List.reverseRecOn with
  | nil => simp
  | append_singleton bytes last ih =>
      have hlast := last.toNat_lt
      rw [fromBigEndian_concat, List.length_append, List.length_singleton,
        pow_succ]
      omega

@[simp] theorem toBigEndian_length (width n : Nat) :
    (toBigEndian width n).length = width := by
  induction width generalizing n with
  | zero => rfl
  | succ width ih => simp [toBigEndian, ih]

theorem fromBigEndian_toBigEndian (width n : Nat) :
    fromBigEndian (toBigEndian width n) = n % 256 ^ width := by
  induction width generalizing n with
  | zero => simp [toBigEndian, Nat.mod_one]
  | succ width ih =>
      rw [toBigEndian, fromBigEndian_concat, ih, UInt8.toNat_ofNat',
        pow_succ' 256 width, Nat.mod_mul]
      omega

theorem toBigEndian_fromBigEndian (bytes : Bytes) :
    toBigEndian bytes.length (fromBigEndian bytes) = bytes := by
  induction bytes using List.reverseRecOn with
  | nil => rfl
  | append_singleton bytes last ih =>
      have hlast := last.toNat_lt
      have hdiv : (fromBigEndian bytes * 256 + last.toNat) / 256 =
          fromBigEndian bytes := by omega
      have hmod : UInt8.ofNat (fromBigEndian bytes * 256 + last.toNat) = last := by
        apply UInt8.toNat_inj.mp
        rw [UInt8.toNat_ofNat']
        omega
      rw [List.length_append, List.length_singleton, toBigEndian,
        fromBigEndian_concat, hdiv, hmod, ih]

theorem fromBigEndian_inj {x y : Bytes} (hlen : x.length = y.length)
    (h : fromBigEndian x = fromBigEndian y) : x = y := by
  rw [← toBigEndian_fromBigEndian x, ← toBigEndian_fromBigEndian y, hlen, h]

private theorem toNat_compare (a b : UInt8) :
    compare a b = compare a.toNat b.toNat := by
  change compareOfLessAndEq a b = compareOfLessAndEq a.toNat b.toNat
  simp only [compareOfLessAndEq, UInt8.lt_iff_toNat_lt, UInt8.toNat_inj]

private theorem compare_digits {a b x y m : Nat} (hx : x < m) (hy : y < m) :
    (compare a b).then (compare x y) = compare (a * m + x) (b * m + y) := by
  rcases lt_trichotomy a b with h | h | h
  · have hlt : a * m + x < b * m + y := by nlinarith
    rw [compare_lt_iff_lt.mpr h, compare_lt_iff_lt.mpr hlt, Ordering.lt_then]
  · subst h
    rw [compare_eq_iff_eq.mpr rfl, Ordering.eq_then]
    rcases lt_trichotomy x y with hxy | hxy | hxy
    · rw [compare_lt_iff_lt.mpr hxy, compare_lt_iff_lt.mpr (by omega)]
    · rw [hxy, compare_eq_iff_eq.mpr rfl, compare_eq_iff_eq.mpr rfl]
    · rw [compare_gt_iff_gt.mpr hxy, compare_gt_iff_gt.mpr (by omega)]
  · have hgt : b * m + y < a * m + x := by nlinarith
    rw [compare_gt_iff_gt.mpr h, compare_gt_iff_gt.mpr hgt, Ordering.gt_then]

/-- Byte strings of one length are ordered like the numbers they spell. -/
theorem lexBytes_eq_compare {x y : Bytes} (h : x.length = y.length) :
    lexBytes x y = compare (fromBigEndian x) (fromBigEndian y) := by
  induction x generalizing y with
  | nil =>
      cases y with
      | nil => rfl
      | cons b y => simp at h
  | cons a x ih =>
      cases y with
      | nil => simp at h
      | cons b y =>
          simp only [List.length_cons, Nat.add_right_cancel_iff] at h
          rw [lexBytes, List.compareLex_cons_cons, ← lexBytes, ih h,
            fromBigEndian_cons, fromBigEndian_cons, h, toNat_compare]
          exact compare_digits (h ▸ fromBigEndian_lt x) (fromBigEndian_lt y)

@[simp] theorem complement_length (bytes : Bytes) :
    (complement bytes).length = bytes.length := by
  simp [complement]

@[simp] theorem complement_complement (bytes : Bytes) :
    complement (complement bytes) = bytes := by
  have hbyte (byte : UInt8) : byte ^^^ 0xff ^^^ 0xff = byte := by
    rw [UInt8.xor_assoc, UInt8.xor_self, UInt8.xor_zero]
  simp [complement, Function.comp_def, hbyte]

theorem xor_ff_toNat (byte : UInt8) : (byte ^^^ 0xff).toNat = 255 - byte.toNat := by
  have h : ∀ n : Fin 256, (UInt8.ofFin n ^^^ 0xff).toNat = 255 - n.val := by
    decide +kernel
  exact h byte.toFin

theorem fromBigEndian_complement (bytes : Bytes) :
    fromBigEndian (complement bytes) =
      256 ^ bytes.length - 1 - fromBigEndian bytes := by
  induction bytes using List.reverseRecOn with
  | nil => rfl
  | append_singleton bytes last ih =>
      have hlt := fromBigEndian_lt bytes
      have hlast := last.toNat_lt
      have happ : complement (bytes ++ [last]) =
          complement bytes ++ [last ^^^ 0xff] := by simp [complement]
      rw [happ, fromBigEndian_concat, fromBigEndian_concat, ih, xor_ff_toNat,
        List.length_append, List.length_singleton, pow_succ]
      omega

theorem lexBytes_complement {x y : Bytes} (h : x.length = y.length) :
    lexBytes (complement x) (complement y) = lexBytes y x := by
  have hx := fromBigEndian_lt x
  have hy := fromBigEndian_lt y
  rw [lexBytes_eq_compare (by simpa using h),
    lexBytes_eq_compare h.symm, fromBigEndian_complement,
    fromBigEndian_complement, h]
  rw [h] at hx
  rcases lt_trichotomy (fromBigEndian y) (fromBigEndian x) with hlt | heq | hgt
  · rw [compare_lt_iff_lt.mpr hlt, compare_lt_iff_lt.mpr (by omega)]
  · rw [heq, compare_eq_iff_eq.mpr rfl, compare_eq_iff_eq.mpr rfl]
  · rw [compare_gt_iff_gt.mpr hgt, compare_gt_iff_gt.mpr (by omega)]

end FoundationDbEffect.Foundation
