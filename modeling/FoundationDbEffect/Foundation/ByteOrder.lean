import FoundationDbEffect.Foundation.Numeral
import Mathlib.Data.List.Lex

/-!
# Byte strings in key order

The keys of an ordered store are byte strings in lexicographic order.  The keys with a common
prefix are an interval of that order, and the two bounds that are used for it here are the
prefix with a smallest and a greatest byte behind it, and the prefix with its successor.
-/

namespace FoundationDbEffect.Foundation.ByteOrder

scoped instance instLinearOrderByte : LinearOrder UInt8 where
  le_refl := UInt8.le_refl
  le_trans _ _ _ := UInt8.le_trans
  le_antisymm _ _ := UInt8.le_antisymm
  le_total := UInt8.le_total
  lt_iff_le_not_ge a b := by simp only [UInt8.lt_iff_toNat_lt, UInt8.le_iff_toNat_le]; omega
  toDecidableLE := inferInstance
  toDecidableLT := inferInstance

/-- The keys from `begin` on and before `stop`. -/
def interval (begin stop : Bytes) (key : Bytes) : Bool := begin ≤ key ∧ key < stop

theorem interval_iff {begin stop key : Bytes} :
    interval begin stop key = true ↔ begin ≤ key ∧ key < stop := by
  simp [interval]

theorem lexBytes_eq_lt_iff (left right : Bytes) :
    lexBytes left right = .lt ↔ left < right := by
  induction left generalizing right with
  | nil =>
      cases right with
      | nil => simp [lexBytes, List.compareLex]
      | cons b right => simp [lexBytes]
  | cons a left ih =>
      cases right with
      | nil => simp [lexBytes]
      | cons b right =>
          rw [lexBytes, List.compareLex_cons_cons, List.cons_lt_cons_iff, ← ih,
            Ordering.then_eq_lt]
          simp [compare_lt_iff_lt]

theorem append_lt_append_iff (p : Bytes) {left right : Bytes} :
    p ++ left < p ++ right ↔ left < right := by
  rw [← lexBytes_eq_lt_iff, ← lexBytes_eq_lt_iff, lexBytes, compareLex_append_left]

theorem append_le_append_iff (p : Bytes) {left right : Bytes} :
    p ++ left ≤ p ++ right ↔ left ≤ right := by
  rw [← not_lt, append_lt_append_iff, not_lt]

theorem prefix_le {p key : Bytes} (h : p <+: key) : p ≤ key := by
  obtain ⟨rest, rfl⟩ := h
  have hrest : ([] : Bytes) ≤ rest := not_lt.mp (by simp)
  simpa using (append_le_append_iff p).mpr hrest

theorem lt_concat_zero_iff (left right : Bytes) : left < right ++ [0] ↔ left ≤ right := by
  induction right generalizing left with
  | nil =>
      cases left with
      | nil => simp
      | cons a left =>
          have ha : ¬ a < 0 := by simp
          have hle : ¬ a :: left ≤ ([] : Bytes) := not_le.mpr (by simp)
          simp [List.cons_lt_cons_iff, ha, hle]
  | cons b right ih =>
      cases left with
      | nil => simpa using prefix_le (List.nil_prefix (l := b :: right))
      | cons a left =>
          rw [List.cons_append, List.cons_lt_cons_iff, ih, le_iff_lt_or_eq, le_iff_lt_or_eq,
            List.cons_lt_cons_iff, List.cons.injEq]
          tauto

theorem interval_extensions_iff (p key : Bytes) :
    interval (p ++ [0x00]) (p ++ [0xff]) key = true ↔
      ∃ byte rest, byte < 0xff ∧ key = p ++ byte :: rest := by
  rw [interval_iff]
  induction p generalizing key with
  | nil =>
      cases key with
      | nil => simp [← not_lt]
      | cons byte rest =>
          have hle : [0x00] ≤ byte :: rest := by
            rw [← not_lt, List.cons_lt_cons_iff]
            simp
          have hlt : byte :: rest < [0xff] ↔ byte < 0xff := by simp [List.cons_lt_cons_iff]
          simp [hle, hlt]
  | cons a p ih =>
      cases key with
      | nil => simp [← not_lt]
      | cons b key =>
          rw [List.cons_append, List.cons_append, ← not_lt, List.cons_lt_cons_iff,
            List.cons_lt_cons_iff]
          rcases lt_trichotomy a b with hab | rfl | hab
          · simp [hab.not_gt, hab.ne']
          · have hkey := ih key
            rw [← not_lt] at hkey
            simpa using hkey
          · simp [hab, hab.ne]

theorem prefix_of_between {p key rest : Bytes} (h : p ≤ key) (h' : key < p ++ rest) :
    p <+: key := by
  induction p generalizing key with
  | nil => exact List.nil_prefix
  | cons a p ih =>
      cases key with
      | nil => exact absurd h (not_le.mpr (by simp))
      | cons b key =>
          rw [List.cons_append, List.cons_lt_cons_iff] at h'
          rw [← not_lt, List.cons_lt_cons_iff, not_or, not_and] at h
          have hab : b = a := h'.elim (fun hlt => absurd hlt h.1) And.left
          subst hab
          have htail := h'.resolve_left (lt_irrefl _)
          exact List.cons_prefix_cons.mpr ⟨rfl, ih (not_lt.mp (h.2 rfl)) htail.2⟩

theorem prefix_of_le_of_le {p key key' : Bytes} (h : p <+: key') (hle : p ≤ key)
    (hle' : key ≤ key') : p <+: key := by
  obtain ⟨rest, rfl⟩ := h
  have hlt := (lt_concat_zero_iff key (p ++ rest)).mpr hle'
  rw [List.append_assoc] at hlt
  exact prefix_of_between hle hlt

/-- Trailing bytes that are as great as they can be do not matter to the successor of a key. -/
theorem prefix_of_greatest_le {tail key : Bytes} (h : ∀ byte ∈ tail, byte = 0xff)
    (hle : tail ≤ key) : tail <+: key := by
  induction tail generalizing key with
  | nil => exact List.nil_prefix
  | cons a tail ih =>
      cases key with
      | nil => exact absurd hle (not_le.mpr (by simp))
      | cons b key =>
          rw [← not_lt, List.cons_lt_cons_iff, not_or, not_and] at hle
          have ha := h a (by simp)
          have hab : b = a := by
            have hge := hle.1
            rw [ha] at hge ⊢
            have hb := b.toNat_lt
            have h255 : (0xff : UInt8).toNat = 255 := rfl
            rw [UInt8.lt_iff_toNat_lt, h255] at hge
            exact UInt8.toNat_inj.mp (by omega)
          subst hab
          exact List.cons_prefix_cons.mpr
            ⟨rfl, ih (fun byte hbyte => h byte (by simp [hbyte])) (not_lt.mp (hle.2 rfl))⟩

/-- The range from a key to its successor, which increments the last byte that can be. -/
theorem interval_next_iff (front : Bytes) {last : UInt8} {tail : Bytes} (hlast : last ≠ 0xff)
    (htail : ∀ byte ∈ tail, byte = 0xff) (key : Bytes) :
    interval (front ++ last :: tail) (front ++ [last + 1]) key = true ↔
      front ++ last :: tail <+: key := by
  have hnext : (last + 1).toNat = last.toNat + 1 := by
    have hlt := last.toNat_lt
    have hne : last.toNat ≠ 255 := fun h => hlast (UInt8.toNat_inj.mp h)
    rw [UInt8.toNat_add]
    have hone : (1 : UInt8).toNat = 1 := rfl
    omega
  have hless : last < last + 1 := by
    rw [UInt8.lt_iff_toNat_lt]
    omega
  rw [interval_iff]
  constructor
  · rintro ⟨hle, hlt⟩
    have hfront : front <+: key := by
      have hbegin := prefix_le (List.prefix_append front (last :: tail))
      exact prefix_of_between (hbegin.trans hle) hlt
    obtain ⟨rest, rfl⟩ := hfront
    rw [append_le_append_iff] at hle
    rw [append_lt_append_iff] at hlt
    cases rest with
    | nil => exact absurd hle (not_le.mpr (by simp))
    | cons byte rest =>
        rw [← not_lt, List.cons_lt_cons_iff, not_or, not_and] at hle
        rw [List.cons_lt_cons_iff] at hlt
        have hbyte : byte = last := by
          have hge := hle.1
          rw [UInt8.lt_iff_toNat_lt] at hge
          have hupper : byte < last + 1 := by simpa using hlt
          rw [UInt8.lt_iff_toNat_lt] at hupper
          exact UInt8.toNat_inj.mp (by omega)
        subst hbyte
        have hrest := prefix_of_greatest_le htail (not_lt.mp (hle.2 rfl))
        exact (List.prefix_append_right_inj front).mpr (List.cons_prefix_cons.mpr ⟨rfl, hrest⟩)
  · intro h
    refine ⟨prefix_le h, ?_⟩
    obtain ⟨rest, rfl⟩ := h
    rw [List.append_assoc, append_lt_append_iff, List.cons_append, List.cons_lt_cons_iff]
    exact .inl hless

end FoundationDbEffect.Foundation.ByteOrder
