import FoundationDbEffect.Foundation.Fallible
import FoundationDbEffect.Foundation.Numeral

/-!
# Counted batches

A batch is a count and so many items, one after the other, each of which tells its own
length. It is read by an offset that moves over the bytes. A reader that accepts the frames
of single items and nothing else accepts, in a loop, the batches and nothing else.
-/

namespace FoundationDbEffect.Foundation

/-! ## Words and slices -/

/-- A 32-bit word, least significant byte first. -/
def toUint32 (n : Nat) : Bytes := (toBigEndian 4 n).reverse

def fromUint32 (bytes : Bytes) : Nat := fromBigEndian bytes.reverse

def slice (bytes : Bytes) (start stop : Nat) : Bytes := (bytes.drop start).take (stop - start)

@[simp] theorem length_toUint32 (n : Nat) : (toUint32 n).length = 4 := by
  simp [toUint32]

theorem fromUint32_toUint32 {n : Nat} (h : n < 2 ^ 32) : fromUint32 (toUint32 n) = n := by
  rw [fromUint32, toUint32, List.reverse_reverse, fromBigEndian_toBigEndian]
  exact Nat.mod_eq_of_lt (by omega)

theorem toUint32_fromUint32 {bytes : Bytes} (h : bytes.length = 4) :
    toUint32 (fromUint32 bytes) = bytes := by
  have hreverse := toBigEndian_fromBigEndian bytes.reverse
  rw [List.length_reverse, h] at hreverse
  rw [fromUint32, toUint32, hreverse, List.reverse_reverse]

theorem fromUint32_lt {bytes : Bytes} (h : bytes.length = 4) : fromUint32 bytes < 2 ^ 32 := by
  have hlt := fromBigEndian_lt bytes.reverse
  rw [List.length_reverse, h] at hlt
  exact hlt.trans_eq (by norm_num)

theorem length_slice {bytes : Bytes} {start stop : Nat} (h : stop ≤ bytes.length) :
    (slice bytes start stop).length = stop - start := by
  simp only [slice, List.length_take, List.length_drop]
  omega

theorem slice_of_drop {bytes item rest : Bytes} {offset stop : Nat}
    (h : bytes.drop offset = item ++ rest) (hstop : stop = offset + item.length) :
    slice bytes offset stop = item := by
  rw [slice, h, hstop, Nat.add_sub_cancel_left, List.take_left']
  rfl

theorem drop_eq_slice_append {bytes : Bytes} {start stop : Nat} (hle : start ≤ stop) :
    bytes.drop start = slice bytes start stop ++ bytes.drop stop := by
  have hsplit := List.take_append_drop (stop - start) (bytes.drop start)
  rw [List.drop_drop, Nat.add_sub_cancel' hle] at hsplit
  exact hsplit.symm

theorem drop_of_drop {bytes item rest : Bytes} {offset stop : Nat}
    (h : bytes.drop offset = item ++ rest) (hstop : stop = offset + item.length) :
    bytes.drop stop = rest := by
  rw [hstop, ← List.drop_drop, h, List.drop_left']
  rfl

theorem le_length_of_drop {bytes item rest : Bytes} {offset : Nat}
    (h : bytes.drop offset = item ++ rest) (hoffset : offset ≤ bytes.length) :
    offset + item.length ≤ bytes.length := by
  have hlength := congrArg List.length h
  rw [List.length_drop, List.length_append] at hlength
  omega

/-! ## Items -/

variable {ε α : Type*}

/-- A reader of items accepts a frame at its offset, and moves behind it. -/
structure Frames (limit : Nat) (encode : α → Bytes) (valid : α → Prop)
    (read : Bytes → Nat → Except ε (α × Nat)) : Prop where
  complete : ∀ {bytes rest : Bytes} {offset : Nat} {item : α}, bytes.length ≤ limit →
    offset ≤ bytes.length → bytes.drop offset = encode item ++ rest → valid item →
    read bytes offset = .ok (item, offset + (encode item).length)
  sound : ∀ {bytes : Bytes} {offset next : Nat} {item : α}, offset ≤ bytes.length →
    read bytes offset = .ok (item, next) →
    valid item ∧ next = offset + (encode item).length ∧
      ∃ rest, bytes.drop offset = encode item ++ rest

def readItems (read : Bytes → Nat → Except ε (α × Nat)) (bytes : Bytes) :
    Nat → Nat → Except ε (List α × Nat)
  | 0, offset => .ok ([], offset)
  | count + 1, offset => do
      let (item, offset) ← read bytes offset
      let (items, offset) ← readItems read bytes count offset
      .ok (item :: items, offset)

/-- The reader of a batch, with its errors for missing and for trailing bytes. -/
def decodeBatch (truncated trailing : ε) (read : Bytes → Nat → Except ε (α × Nat))
    (bytes : Bytes) : Except ε (List α) :=
  if bytes.length < 4 then .error truncated
  else do
    let count := fromUint32 (slice bytes 0 4)
    let (items, offset) ← readItems read bytes count 4
    if offset ≠ bytes.length then .error trailing else .ok items

def encodeBatch (encode : α → Bytes) (items : List α) : Bytes :=
  toUint32 items.length ++ items.flatMap encode

namespace Frames

variable {limit : Nat} {encode : α → Bytes} {valid : α → Prop}
  {read : Bytes → Nat → Except ε (α × Nat)} {bytes : Bytes}

theorem readItems_complete (h : Frames limit encode valid read) {items : List α} {rest : Bytes}
    {offset : Nat} (hlimit : bytes.length ≤ limit) (hoffset : offset ≤ bytes.length)
    (hdrop : bytes.drop offset = items.flatMap encode ++ rest) (hvalid : ∀ item ∈ items, valid item) :
    readItems read bytes items.length offset =
      .ok (items, offset + (items.flatMap encode).length) := by
  induction items generalizing offset with
  | nil => simp [readItems]
  | cons item items ih =>
      rw [List.flatMap_cons, List.append_assoc] at hdrop
      have hitem := h.complete hlimit hoffset hdrop (hvalid item (by simp))
      have hitems := ih (le_length_of_drop hdrop hoffset) (drop_of_drop hdrop rfl)
        (fun other hother => hvalid other (List.mem_cons_of_mem _ hother))
      rw [List.flatMap_cons, List.length_append, ← Nat.add_assoc]
      exact bind_eq_ok.mpr ⟨_, hitem, bind_eq_ok.mpr ⟨_, hitems, rfl⟩⟩

theorem readItems_sound (h : Frames limit encode valid read) {count offset next : Nat}
    {items : List α} (hoffset : offset ≤ bytes.length)
    (hread : readItems read bytes count offset = .ok (items, next)) :
    items.length = count ∧ (∀ item ∈ items, valid item) ∧
      next = offset + (items.flatMap encode).length ∧
      ∃ rest, bytes.drop offset = items.flatMap encode ++ rest := by
  induction count generalizing offset items with
  | zero =>
      cases hread
      exact ⟨rfl, by simp, by simp, bytes.drop next, by simp⟩
  | succ count ih =>
      obtain ⟨⟨item, middle⟩, hitem, hrest⟩ := bind_eq_ok.mp hread
      obtain ⟨⟨items, last⟩, hitems, heq⟩ := bind_eq_ok.mp hrest
      cases heq
      obtain ⟨hvalid, rfl, rest, hdrop⟩ := h.sound hoffset hitem
      obtain ⟨hlength, hvalids, hnext, rest', hdrop'⟩ := ih (le_length_of_drop hdrop hoffset) hitems
      refine ⟨by rw [List.length_cons, hlength], ?_, ?_, rest', ?_⟩
      · simpa using ⟨hvalid, hvalids⟩
      · rw [hnext, List.flatMap_cons, List.length_append, Nat.add_assoc]
      · rw [hdrop, ← drop_of_drop hdrop rfl, hdrop', List.flatMap_cons, List.append_assoc]

theorem decodeBatch_sound (h : Frames limit encode valid read) {truncated trailing : ε}
    {items : List α} (hdecode : decodeBatch truncated trailing read bytes = .ok items) :
    items.length < 2 ^ 32 ∧ (∀ item ∈ items, valid item) ∧ bytes = encodeBatch encode items := by
  unfold decodeBatch at hdecode
  split at hdecode
  · cases hdecode
  rename_i hlength
  obtain ⟨⟨read, next⟩, hread, htail⟩ := bind_eq_ok.mp hdecode
  dsimp only at htail
  split at htail
  · cases htail
  rename_i hnext
  cases htail
  have hheader : (slice bytes 0 4).length = 4 := length_slice (by omega)
  obtain ⟨hcount, hvalid, hoffset, rest, hdrop⟩ := h.readItems_sound (by omega) hread
  have hrest : rest = [] := by
    have hlast := drop_of_drop hdrop hoffset
    rw [← hlast]
    exact List.drop_of_length_le (by omega)
  refine ⟨hcount ▸ fromUint32_lt hheader, hvalid, ?_⟩
  rw [encodeBatch, hcount, toUint32_fromUint32 hheader]
  rw [hrest, List.append_nil] at hdrop
  rw [← hdrop]
  exact drop_eq_slice_append (Nat.zero_le 4)

theorem decodeBatch_complete (h : Frames limit encode valid read) (truncated trailing : ε)
    {items : List α} (hlimit : (encodeBatch encode items).length ≤ limit)
    (hcount : items.length < 2 ^ 32) (hvalid : ∀ item ∈ items, valid item) :
    decodeBatch truncated trailing read (encodeBatch encode items) = .ok items := by
  have hlength : (encodeBatch encode items).length = 4 + (items.flatMap encode).length := by
    simp [encodeBatch]
  have hheader : slice (encodeBatch encode items) 0 4 = toUint32 items.length :=
    slice_of_drop rfl (by simp)
  have hdrop : (encodeBatch encode items).drop 4 = items.flatMap encode ++ [] := by
    rw [List.append_nil]
    exact List.drop_left' (length_toUint32 _)
  have hread := h.readItems_complete hlimit (by omega) hdrop hvalid
  rw [decodeBatch, if_neg (by omega), hheader, fromUint32_toUint32 hcount]
  exact bind_eq_ok.mpr ⟨_, hread, if_neg (by simp [hlength])⟩

end Frames

end FoundationDbEffect.Foundation
