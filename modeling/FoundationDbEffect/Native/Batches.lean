import FoundationDbEffect.Foundation.Batch

/-!
# Batches between TypeScript and Rust

Keys go to the native bridge, values, rows and conflict ranges come back, each kind in a
batch of its own format. One language writes it and the other one reads it.
-/

namespace FoundationDbEffect.Native

open FoundationDbEffect.Foundation

def INVALID_ARGUMENT : Int := 90003

def usizeMax : Nat := 2 ^ 64 - 1

structure KeyValue where
  key : Bytes
  value : Bytes
  deriving DecidableEq, Repr

structure ConflictRange where
  begin : Bytes
  stop : Bytes
  deriving DecidableEq, Repr

/-! ## The TypeScript side -/

def writeAt (bytes : Bytes) (offset : Nat) (data : Bytes) : Bytes :=
  bytes.take offset ++ data ++ bytes.drop (offset + data.length)

def getUint32 (bytes : Bytes) (offset : Nat) : Nat := fromUint32 (slice bytes offset (offset + 4))

def encodedLength (keys : List Bytes) : Nat :=
  keys.foldl (fun length key => length + (4 + key.length)) 4

def writeKey (progress : Bytes × Nat) (key : Bytes) : Bytes × Nat :=
  let (bytes, offset) := progress
  let bytes := writeAt bytes offset (toUint32 key.length)
  let offset := offset + 4
  (writeAt bytes offset key, offset + key.length)

def encodeKeys (keys : List Bytes) : Except String Bytes :=
  if keys.length > 0xffffffff then .error "native key batch contains too many keys"
  else if keys.any fun key => key.length > 0xffffffff then
    .error "native key batch contains an oversized key"
  else
    let bytes := List.replicate (encodedLength keys) 0
    let bytes := writeAt bytes 0 (toUint32 keys.length)
    .ok (keys.foldl writeKey (bytes, 4)).1

def missing : Nat := 0xffffffff

def readOptionalValue (bytes : Bytes) (offset : Nat) : Except String (Option Bytes × Nat) :=
  if offset + 4 > bytes.length then .error "native value batch is truncated"
  else
    let length := getUint32 bytes offset
    let offset := offset + 4
    if length = missing then .ok (none, offset)
    else if offset + length > bytes.length then .error "native value batch is truncated"
    else .ok (some (slice bytes offset (offset + length)), offset + length)

def decodeOptionalValues (bytes : Bytes) : Except String (List (Option Bytes)) :=
  decodeBatch "native value batch is truncated" "native value batch has trailing bytes"
    readOptionalValue bytes

def readPair (truncated : String) (bytes : Bytes) (offset : Nat) :
    Except String ((Bytes × Bytes) × Nat) :=
  if offset + 8 > bytes.length then .error truncated
  else
    let firstLength := getUint32 bytes offset
    let secondLength := getUint32 bytes (offset + 4)
    let offset := offset + 8
    if offset + firstLength + secondLength > bytes.length then .error truncated
    else
      let first := slice bytes offset (offset + firstLength)
      let offset := offset + firstLength
      .ok ((first, slice bytes offset (offset + secondLength)), offset + secondLength)

def decodePairs (truncated trailing : String) (bytes : Bytes) :
    Except String (List (Bytes × Bytes)) :=
  decodeBatch truncated trailing (readPair truncated) bytes

def decodeKeyValues (bytes : Bytes) : Except String (List KeyValue) := do
  let pairs ← decodePairs "native range response is truncated"
    "native range response has trailing bytes" bytes
  .ok (pairs.map fun (key, value) => { key, value })

def decodeConflictRanges (bytes : Bytes) : Except String (List ConflictRange) := do
  let pairs ← decodePairs "native conflict range response is truncated"
    "native conflict range response has trailing bytes" bytes
  .ok (pairs.map fun (begin, stop) => { begin, stop })

/-! ## The Rust side -/

def checkedAdd (left right : Nat) : Except Int Nat :=
  if left + right ≤ usizeMax then .ok (left + right) else .error INVALID_ARGUMENT

def getRange (bytes : Bytes) (start stop : Nat) : Except Int Bytes :=
  if start ≤ stop ∧ stop ≤ bytes.length then .ok (slice bytes start stop)
  else .error INVALID_ARGUMENT

def uint32 (length : Nat) : Except Int Bytes :=
  if length < 2 ^ 32 then .ok (toUint32 length) else .error INVALID_ARGUMENT

def decodeKey (bytes : Bytes) (offset : Nat) : Except Int (Bytes × Nat) := do
  let lengthEnd ← checkedAdd offset 4
  let length ← getRange bytes offset lengthEnd
  let keyEnd ← checkedAdd lengthEnd (fromUint32 length)
  let key ← getRange bytes lengthEnd keyEnd
  .ok (key, keyEnd)

/-- A count that the bytes cannot hold is rejected before the loop makes room for it. -/
def decodeKeys (bytes : Bytes) : Except Int (List Bytes) :=
  if bytes.length < 4 then .error INVALID_ARGUMENT
  else
    let count := fromUint32 (slice bytes 0 4)
    if count > (bytes.length - 4) / 4 then .error INVALID_ARGUMENT
    else do
      let (keys, offset) ← readItems decodeKey bytes count 4
      if offset ≠ bytes.length then .error INVALID_ARGUMENT else .ok keys

def appendItem {α : Type} (encode : α → Except Int Bytes) (output : Bytes) (value : α) :
    Except Int Bytes := do
  .ok (output ++ (← encode value))

def encodeItems {α : Type} (encode : α → Except Int Bytes) (values : List α) :
    Except Int Bytes := do
  let count ← uint32 values.length
  values.foldlM (appendItem encode) count

/-- The values that one read of many keys returns. -/
def encodeOptionalValues (values : List (Option Bytes)) : Except Int Bytes :=
  encodeItems (fun value =>
    match value with
    | some value => do .ok ((← uint32 value.length) ++ value)
    | none => .ok (toUint32 missing)) values

def encodePair (first second : Bytes) : Except Int Bytes := do
  let firstLength ← uint32 first.length
  let secondLength ← uint32 second.length
  .ok (firstLength ++ secondLength ++ first ++ second)

def encodeKeyValues (values : List KeyValue) : Except Int Bytes :=
  encodeItems (fun value => encodePair value.key value.value) values

def encodeConflictingKeyRanges (values : List ConflictRange) : Except Int Bytes :=
  encodeItems (fun value => encodePair value.begin value.stop) values

/-! ## Frames -/

def keyFrame (key : Bytes) : Bytes := toUint32 key.length ++ key

def valueFrame : Option Bytes → Bytes
  | some value => toUint32 value.length ++ value
  | none => toUint32 missing

def pairFrame (pair : Bytes × Bytes) : Bytes :=
  toUint32 pair.1.length ++ toUint32 pair.2.length ++ pair.1 ++ pair.2

section Words

variable {bytes rest : Bytes} {offset n : Nat}

theorem length_slice_add {length : Nat} (h : offset + length ≤ bytes.length) :
    (slice bytes offset (offset + length)).length = length := by
  rw [length_slice h, Nat.add_sub_cancel_left]

theorem getUint32_of_drop (hn : n < 2 ^ 32) (h : bytes.drop offset = toUint32 n ++ rest) :
    getUint32 bytes offset = n := by
  rw [getUint32, slice_of_drop h (by simp), fromUint32_toUint32 hn]

theorem drop_eq_toUint32 (h : offset + 4 ≤ bytes.length) :
    bytes.drop offset = toUint32 (getUint32 bytes offset) ++ bytes.drop (offset + 4) := by
  rw [getUint32, toUint32_fromUint32 (length_slice_add h)]
  exact drop_eq_slice_append (by omega)

theorem getUint32_lt (h : offset + 4 ≤ bytes.length) : getUint32 bytes offset < 2 ^ 32 :=
  fromUint32_lt (length_slice_add h)

end Words

theorem readOptionalValue_frames (limit : Nat) :
    Frames limit valueFrame (fun value => ∀ bytes, value = some bytes → bytes.length < missing)
      readOptionalValue where
  complete := by
    intro bytes rest offset item _ hoffset hdrop hvalid
    have hle := le_length_of_drop hdrop hoffset
    cases item with
    | none =>
        have hword := getUint32_of_drop (by decide) hdrop
        simp only [valueFrame, length_toUint32] at hle ⊢
        rw [readOptionalValue, if_neg (by omega), if_pos hword]
    | some value =>
        have hlength : value.length < missing := hvalid value rfl
        simp only [valueFrame, List.append_assoc, List.length_append, length_toUint32] at hdrop hle ⊢
        have hword := getUint32_of_drop (hlength.trans (by decide)) hdrop
        have hvalue : bytes.drop (offset + 4) = value ++ rest := drop_of_drop hdrop (by simp)
        rw [readOptionalValue, if_neg (by omega)]
        simp only [hword]
        rw [if_neg hlength.ne, if_neg (by omega), slice_of_drop hvalue rfl, Nat.add_assoc]
  sound := by
    intro bytes offset next item hoffset hread
    unfold readOptionalValue at hread
    split at hread
    · cases hread
    rename_i hheader
    have hfits : offset + 4 ≤ bytes.length := by omega
    have hword := drop_eq_toUint32 hfits
    dsimp only at hread
    split at hread
    · rename_i hmissing
      cases hread
      refine ⟨nofun, by simp [valueFrame], bytes.drop (offset + 4), ?_⟩
      rw [valueFrame, ← hmissing]
      exact hword
    rename_i hpresent
    split at hread
    · cases hread
    rename_i hlength
    cases hread
    have hlt := getUint32_lt hfits
    have hslice := length_slice_add (Nat.le_of_not_gt hlength)
    refine ⟨?_, ?_, bytes.drop (offset + 4 + getUint32 bytes offset), ?_⟩
    · rintro _ ⟨⟩
      rw [hslice]
      unfold missing at *
      omega
    · simp only [valueFrame, List.length_append, length_toUint32, hslice]
      omega
    · rw [valueFrame, hslice, List.append_assoc, ← drop_eq_slice_append (by omega)]
      exact hword

theorem readPair_frames (limit : Nat) (truncated : String) :
    Frames limit pairFrame (fun pair => pair.1.length < 2 ^ 32 ∧ pair.2.length < 2 ^ 32)
      (readPair truncated) where
  complete := by
    intro bytes rest offset item _ hoffset hdrop hvalid
    obtain ⟨first, second⟩ := item
    have hle := le_length_of_drop hdrop hoffset
    simp only [pairFrame, List.append_assoc, List.length_append, length_toUint32] at hdrop hle ⊢
    have hdrop₄ : bytes.drop (offset + 4) = toUint32 second.length ++ (first ++ (second ++ rest)) :=
      drop_of_drop hdrop (by simp)
    have hdrop₈ : bytes.drop (offset + 8) = first ++ (second ++ rest) :=
      drop_of_drop hdrop₄ (by simp)
    have hfirst := getUint32_of_drop hvalid.1 hdrop
    have hsecond := getUint32_of_drop hvalid.2 hdrop₄
    rw [readPair, if_neg (by omega)]
    simp only [hfirst, hsecond]
    rw [if_neg (by omega), slice_of_drop hdrop₈ rfl, slice_of_drop (drop_of_drop hdrop₈ rfl) rfl]
    congr 2
    omega
  sound := by
    intro bytes offset next item hoffset hread
    unfold readPair at hread
    split at hread
    · cases hread
    rename_i hheader
    dsimp only at hread
    split at hread
    · cases hread
    rename_i hlength
    cases hread
    have hfits : offset + 4 ≤ bytes.length := by omega
    have hfits' : offset + 4 + 4 ≤ bytes.length := by omega
    have hfirst := drop_eq_toUint32 hfits
    have hsecond := drop_eq_toUint32 hfits'
    have hfirst_lt := getUint32_lt hfits
    have hsecond_lt := getUint32_lt hfits'
    generalize getUint32 bytes offset = firstLength at *
    generalize getUint32 bytes (offset + 4) = secondLength at *
    have hstop : offset + 8 + firstLength + secondLength ≤ bytes.length := by omega
    have hslice := length_slice_add ((Nat.le_add_right _ _).trans hstop)
    have hslice' := length_slice_add hstop
    refine ⟨⟨by rwa [hslice], by rwa [hslice']⟩, ?_,
      bytes.drop (offset + 8 + firstLength + secondLength), ?_⟩
    · simp only [pairFrame, List.length_append, length_toUint32, hslice, hslice']
      omega
    · simp only [pairFrame, hslice, hslice', List.append_assoc]
      rw [← drop_eq_slice_append (by omega), ← drop_eq_slice_append (by omega), hfirst, hsecond]

theorem checkedAdd_eq_ok {left right sum : Nat} :
    checkedAdd left right = .ok sum ↔ left + right ≤ usizeMax ∧ sum = left + right := by
  unfold checkedAdd
  split <;> simp_all [eq_comm]

theorem getRange_eq_ok {bytes data : Bytes} {start stop : Nat} :
    getRange bytes start stop = .ok data ↔
      (start ≤ stop ∧ stop ≤ bytes.length) ∧ data = slice bytes start stop := by
  unfold getRange
  split <;> simp_all [eq_comm]

theorem decodeKey_eq_ok {bytes key : Bytes} {offset next : Nat} :
    decodeKey bytes offset = .ok (key, next) ↔
      offset + 4 ≤ bytes.length ∧ offset + 4 ≤ usizeMax ∧ next ≤ usizeMax ∧
      next = offset + 4 + getUint32 bytes offset ∧ next ≤ bytes.length ∧
      key = slice bytes (offset + 4) next := by
  constructor
  · intro h
    obtain ⟨lengthEnd, hend, h⟩ := bind_eq_ok.mp h
    obtain ⟨length, hlength, h⟩ := bind_eq_ok.mp h
    obtain ⟨keyEnd, hkeyEnd, h⟩ := bind_eq_ok.mp h
    obtain ⟨key, hkey, heq⟩ := bind_eq_ok.mp h
    cases heq
    obtain ⟨hmax, rfl⟩ := checkedAdd_eq_ok.mp hend
    obtain ⟨⟨_, hfits⟩, rfl⟩ := getRange_eq_ok.mp hlength
    obtain ⟨hmax', rfl⟩ := checkedAdd_eq_ok.mp hkeyEnd
    obtain ⟨⟨_, hfits'⟩, rfl⟩ := getRange_eq_ok.mp hkey
    exact ⟨hfits, hmax, hmax', rfl, hfits', rfl⟩
  · rintro ⟨hfits, hmax, hmax', rfl, hfits', rfl⟩
    refine bind_eq_ok.mpr ⟨_, checkedAdd_eq_ok.mpr ⟨hmax, rfl⟩, ?_⟩
    refine bind_eq_ok.mpr ⟨_, getRange_eq_ok.mpr ⟨⟨by omega, hfits⟩, rfl⟩, ?_⟩
    refine bind_eq_ok.mpr ⟨_, checkedAdd_eq_ok.mpr ⟨hmax', rfl⟩, ?_⟩
    exact bind_eq_ok.mpr ⟨_, getRange_eq_ok.mpr ⟨⟨by omega, hfits'⟩, rfl⟩, rfl⟩

theorem decodeKey_frames :
    Frames usizeMax keyFrame (fun key => key.length < 2 ^ 32) decodeKey where
  complete := by
    intro bytes rest offset key hlimit hoffset hdrop hvalid
    have hle := le_length_of_drop hdrop hoffset
    simp only [keyFrame, List.append_assoc, List.length_append, length_toUint32] at hdrop hle ⊢
    have hkey : bytes.drop (offset + 4) = key ++ rest := drop_of_drop hdrop (by simp)
    have hword : getUint32 bytes offset = key.length := getUint32_of_drop hvalid hdrop
    have hnext : offset + (4 + key.length) = offset + 4 + key.length := by omega
    rw [decodeKey_eq_ok, hword, slice_of_drop hkey hnext]
    exact ⟨by omega, by omega, by omega, hnext, hle, rfl⟩
  sound := by
    intro bytes offset next key hoffset hread
    obtain ⟨hfits, _, _, rfl, hle, rfl⟩ := decodeKey_eq_ok.mp hread
    have hslice := length_slice_add hle
    refine ⟨by simpa only [hslice] using getUint32_lt hfits, ?_,
      bytes.drop (offset + 4 + getUint32 bytes offset), ?_⟩
    · simp only [keyFrame, List.length_append, length_toUint32, hslice]
      omega
    · rw [keyFrame, hslice, List.append_assoc, ← drop_eq_slice_append (by omega)]
      exact drop_eq_toUint32 hfits

/-! ## Encoders -/

theorem uint32_eq_ok {length : Nat} {bytes : Bytes} :
    uint32 length = .ok bytes ↔ length < 2 ^ 32 ∧ bytes = toUint32 length := by
  unfold uint32
  split <;> simp_all [eq_comm]

section Items

variable {α : Type} {encode : α → Except Int Bytes} {frame : α → Bytes} {valid : α → Prop}
  (hencode : ∀ value bytes, encode value = .ok bytes ↔ valid value ∧ bytes = frame value)

include hencode

theorem foldlM_appendItem_eq_ok {values : List α} {output bytes : Bytes} :
    values.foldlM (appendItem encode) output = .ok bytes ↔
      (∀ value ∈ values, valid value) ∧ bytes = output ++ values.flatMap frame := by
  induction values generalizing output with
  | nil => simp [pure, Except.pure, eq_comm]
  | cons value values ih =>
      simp only [List.foldlM_cons, bind_eq_ok, ih, appendItem, hencode, List.flatMap_cons,
        List.forall_mem_cons]
      constructor
      · rintro ⟨_, ⟨_, ⟨hvalid, rfl⟩, heq⟩, hvalids, rfl⟩
        cases heq
        exact ⟨⟨hvalid, hvalids⟩, by rw [List.append_assoc]⟩
      · rintro ⟨⟨hvalid, hvalids⟩, rfl⟩
        exact ⟨_, ⟨_, ⟨hvalid, rfl⟩, rfl⟩, hvalids, by rw [List.append_assoc]⟩

/-- An encoder that checks its items one by one writes a batch of their frames. -/
theorem encodeItems_eq_ok {values : List α} {bytes : Bytes} :
    encodeItems encode values = .ok bytes ↔
      values.length < 2 ^ 32 ∧ (∀ value ∈ values, valid value) ∧
        bytes = encodeBatch frame values := by
  simp only [encodeItems, bind_eq_ok, uint32_eq_ok, foldlM_appendItem_eq_ok hencode]
  constructor
  · rintro ⟨_, ⟨hcount, rfl⟩, hvalids, rfl⟩
    exact ⟨hcount, hvalids, rfl⟩
  · rintro ⟨hcount, hvalids, rfl⟩
    exact ⟨_, ⟨hcount, rfl⟩, hvalids, rfl⟩

end Items

theorem encodePair_eq_ok {first second bytes : Bytes} :
    encodePair first second = .ok bytes ↔
      (first.length < 2 ^ 32 ∧ second.length < 2 ^ 32) ∧ bytes = pairFrame (first, second) := by
  simp only [encodePair, bind_eq_ok, uint32_eq_ok]
  constructor
  · rintro ⟨_, ⟨hfirst, rfl⟩, _, ⟨hsecond, rfl⟩, heq⟩
    cases heq
    exact ⟨⟨hfirst, hsecond⟩, rfl⟩
  · rintro ⟨⟨hfirst, hsecond⟩, rfl⟩
    exact ⟨_, ⟨hfirst, rfl⟩, _, ⟨hsecond, rfl⟩, rfl⟩

theorem forall_present_iff {values : List (Option Bytes)} {P : Bytes → Prop} :
    (∀ value ∈ values, ∀ data, value = some data → P data) ↔
      ∀ value, some value ∈ values → P value := by
  constructor
  · intro h value hmem
    exact h _ hmem value rfl
  · rintro h _ hmem data rfl
    exact h data hmem

theorem encodeOptionalValues_eq_ok {values : List (Option Bytes)} {bytes : Bytes} :
    encodeOptionalValues values = .ok bytes ↔
      values.length < 2 ^ 32 ∧ (∀ value, some value ∈ values → value.length < 2 ^ 32) ∧
        bytes = encodeBatch valueFrame values := by
  rw [← forall_present_iff]
  refine encodeItems_eq_ok ?_
  intro value bytes
  cases value with
  | none => simp [valueFrame, eq_comm]
  | some value =>
      simp only [bind_eq_ok, uint32_eq_ok, valueFrame]
      constructor
      · rintro ⟨_, ⟨hlength, rfl⟩, heq⟩
        cases heq
        exact ⟨by rintro _ ⟨⟩; exact hlength, rfl⟩
      · rintro ⟨hlength, rfl⟩
        exact ⟨_, ⟨hlength value rfl, rfl⟩, rfl⟩

/-! ## The buffer of the keys -/

theorem writeAt_zeros (written data : Bytes) (n : Nat) :
    writeAt (written ++ List.replicate n 0) written.length data =
      written ++ data ++ List.replicate (n - data.length) 0 := by
  simp [writeAt, List.drop_append]

theorem writeKey_zeros (written key : Bytes) (n : Nat) :
    writeKey (written ++ List.replicate n 0, written.length) key =
      (written ++ keyFrame key ++ List.replicate (n - (keyFrame key).length) 0,
        (written ++ keyFrame key).length) := by
  have hlength : written.length + 4 = (written ++ toUint32 key.length).length := by simp
  simp only [writeKey, writeAt_zeros, hlength]
  simp [keyFrame, Nat.sub_sub, Nat.add_assoc]

theorem foldl_writeKey (keys : List Bytes) (written : Bytes) :
    (keys.foldl writeKey
      (written ++ List.replicate (keys.flatMap keyFrame).length 0, written.length)).1 =
      written ++ keys.flatMap keyFrame := by
  induction keys generalizing written with
  | nil => simp
  | cons key keys ih =>
      rw [List.foldl_cons, writeKey_zeros, List.flatMap_cons, List.length_append,
        Nat.add_sub_cancel_left, ih, List.append_assoc]

theorem encodedLength_eq (keys : List Bytes) :
    encodedLength keys = (encodeBatch keyFrame keys).length := by
  have hfold : ∀ length, keys.foldl (fun length key => length + (4 + key.length)) length =
      length + (keys.flatMap keyFrame).length := by
    induction keys with
    | nil => simp
    | cons key keys ih =>
        intro length
        rw [List.foldl_cons, ih]
        simp [keyFrame, Nat.add_assoc]
  rw [encodedLength, hfold, encodeBatch, List.length_append, length_toUint32]

theorem encodeKeys_buffer (keys : List Bytes) :
    (keys.foldl writeKey
      (writeAt (List.replicate (encodedLength keys) 0) 0 (toUint32 keys.length), 4)).1 =
      encodeBatch keyFrame keys := by
  have hheader : writeAt (List.replicate (encodedLength keys) 0) 0 (toUint32 keys.length) =
      toUint32 keys.length ++ List.replicate (keys.flatMap keyFrame).length 0 := by
    have hzeros := writeAt_zeros [] (toUint32 keys.length) (encodedLength keys)
    rw [encodedLength_eq, encodeBatch, List.length_append, Nat.add_sub_cancel_left] at hzeros
    rw [encodedLength_eq, encodeBatch, List.length_append]
    exact hzeros
  have hkeys := foldl_writeKey keys (toUint32 keys.length)
  rw [length_toUint32] at hkeys
  rw [hheader, hkeys, encodeBatch]

theorem encodeKeys_eq_ok {keys : List Bytes} {bytes : Bytes} :
    encodeKeys keys = .ok bytes ↔
      keys.length < 2 ^ 32 ∧ (∀ key ∈ keys, key.length < 2 ^ 32) ∧
        bytes = encodeBatch keyFrame keys := by
  unfold encodeKeys
  split
  · rename_i hcount
    simp only [reduceCtorEq, false_iff]
    rintro ⟨hlt, _⟩
    omega
  rename_i hcount
  split
  · rename_i hany
    obtain ⟨key, hmem, hlength⟩ := List.any_eq_true.mp hany
    simp only [reduceCtorEq, false_iff]
    rintro ⟨_, hkeys, _⟩
    have := hkeys key hmem
    simp only [decide_eq_true_eq] at hlength
    omega
  rename_i hany
  have hkeys : ∀ key ∈ keys, key.length < 2 ^ 32 := by
    intro key hmem
    by_contra hlength
    exact hany (List.any_eq_true.mpr ⟨key, hmem, by simp only [decide_eq_true_eq]; omega⟩)
  dsimp only
  rw [encodeKeys_buffer, Except.ok.injEq]
  constructor
  · rintro rfl
    exact ⟨by omega, hkeys, rfl⟩
  · rintro ⟨_, _, rfl⟩
    rfl

theorem decodeKeys_eq (bytes : Bytes) :
    decodeKeys bytes =
      if 4 ≤ bytes.length ∧ fromUint32 (slice bytes 0 4) > (bytes.length - 4) / 4 then
        .error INVALID_ARGUMENT
      else decodeBatch INVALID_ARGUMENT INVALID_ARGUMENT decodeKey bytes := by
  unfold decodeKeys decodeBatch
  by_cases hlength : bytes.length < 4
  · rw [if_pos hlength, if_neg (by omega), if_pos hlength]
  · simp only [if_neg hlength, Nat.le_of_not_lt hlength, true_and]

theorem length_le_of_mem {keys : List Bytes} {key : Bytes} (h : key ∈ keys) :
    key.length ≤ (keys.flatMap keyFrame).length := by
  have hframe : key.length ≤ (keyFrame key).length := by simp [keyFrame]
  have hmem : keyFrame key ∈ keys.map keyFrame := List.mem_map_of_mem h
  exact hframe.trans (List.sublist_flatten_of_mem hmem).length_le

theorem length_le_keyFrames (keys : List Bytes) :
    4 * keys.length ≤ (keys.flatMap keyFrame).length := by
  induction keys with
  | nil => simp
  | cons key keys ih =>
      simp only [List.flatMap_cons, List.length_append, List.length_cons, keyFrame, length_toUint32]
      omega

theorem decodeKeys_complete {keys : List Bytes}
    (hlimit : (encodeBatch keyFrame keys).length ≤ usizeMax) (hcount : keys.length < 2 ^ 32)
    (hkeys : ∀ key ∈ keys, key.length < 2 ^ 32) :
    decodeKeys (encodeBatch keyFrame keys) = .ok keys := by
  have hheader : slice (encodeBatch keyFrame keys) 0 4 = toUint32 keys.length :=
    slice_of_drop rfl (by simp)
  have hlength := length_le_keyFrames keys
  rw [decodeKeys_eq, hheader, fromUint32_toUint32 hcount, if_neg]
  · exact decodeKey_frames.decodeBatch_complete _ _ hlimit hcount hkeys
  · simp only [encodeBatch, List.length_append, length_toUint32]
    omega

theorem decodeKeys_sound {keys : List Bytes} {bytes : Bytes} (h : decodeKeys bytes = .ok keys) :
    encodeKeys keys = .ok bytes := by
  rw [decodeKeys_eq] at h
  split at h
  · cases h
  · exact encodeKeys_eq_ok.mpr (decodeKey_frames.decodeBatch_sound h)

/-! ## Agreement -/

theorem decodeOptionalValues_eq_ok {values : List (Option Bytes)} {bytes : Bytes} :
    decodeOptionalValues bytes = .ok values ↔
      (∀ value, some value ∈ values → value.length < missing) ∧
        encodeOptionalValues values = .ok bytes := by
  rw [encodeOptionalValues_eq_ok]
  constructor
  · intro h
    obtain ⟨hcount, hvalid, heq⟩ := (readOptionalValue_frames 0).decodeBatch_sound h
    rw [forall_present_iff] at hvalid
    refine ⟨hvalid, hcount, ?_, heq⟩
    intro value hmem
    exact (hvalid value hmem).trans (by decide)
  · rintro ⟨hvalid, hcount, _, rfl⟩
    exact (readOptionalValue_frames _).decodeBatch_complete _ _ (le_refl _) hcount
      (forall_present_iff.mpr hvalid)

section Pairs

variable {α : Type} (parts : α → Bytes × Bytes) (make : Bytes × Bytes → α)
  {truncated trailing : String} {values : List α} {bytes : Bytes}

theorem encodePairs_eq_ok :
    encodeItems (fun value => encodePair (parts value).1 (parts value).2) values = .ok bytes ↔
      values.length < 2 ^ 32 ∧
      (∀ value ∈ values, (parts value).1.length < 2 ^ 32 ∧ (parts value).2.length < 2 ^ 32) ∧
        bytes = encodeBatch (fun value => pairFrame (parts value)) values :=
  encodeItems_eq_ok fun _ _ => encodePair_eq_ok

theorem decodePairs_eq_ok (hmake : ∀ value, make (parts value) = value)
    (hparts : ∀ pair, parts (make pair) = pair) :
    (do .ok ((← decodePairs truncated trailing bytes).map make) : Except String (List α)) =
        .ok values ↔
      encodeItems (fun value => encodePair (parts value).1 (parts value).2) values = .ok bytes := by
  rw [encodePairs_eq_ok, bind_eq_ok]
  constructor
  · rintro ⟨pairs, hpairs, heq⟩
    cases heq
    obtain ⟨hcount, hvalid, rfl⟩ := (readPair_frames 0 truncated).decodeBatch_sound hpairs
    refine ⟨by simpa using hcount, ?_, ?_⟩
    · intro value hmem
      obtain ⟨pair, hpair, rfl⟩ := List.mem_map.mp hmem
      rw [hparts]
      exact hvalid pair hpair
    · simp [encodeBatch, List.flatMap_map, hparts]
  · rintro ⟨hcount, hvalid, rfl⟩
    have hbatch : encodeBatch (fun value => pairFrame (parts value)) values =
        encodeBatch pairFrame (values.map parts) := by
      simp [encodeBatch, List.flatMap_map]
    refine ⟨values.map parts, ?_, ?_⟩
    swap
    · have hid : make ∘ parts = id := funext hmake
      rw [List.map_map, hid, List.map_id]
    rw [hbatch]
    apply (readPair_frames _ truncated).decodeBatch_complete _ _ (le_refl _)
    · simpa using hcount
    · intro pair hmem
      obtain ⟨value, hvalue, rfl⟩ := List.mem_map.mp hmem
      exact hvalid value hvalue

end Pairs

def KeyValue.parts (value : KeyValue) : Bytes × Bytes := (value.key, value.value)

def ConflictRange.parts (value : ConflictRange) : Bytes × Bytes := (value.begin, value.stop)

theorem encodeKeyValues_eq_ok {values : List KeyValue} {bytes : Bytes} :
    encodeKeyValues values = .ok bytes ↔
      values.length < 2 ^ 32 ∧
      (∀ value ∈ values, value.key.length < 2 ^ 32 ∧ value.value.length < 2 ^ 32) ∧
        bytes = encodeBatch (fun value => pairFrame value.parts) values :=
  encodePairs_eq_ok KeyValue.parts

theorem encodeConflictingKeyRanges_eq_ok {values : List ConflictRange} {bytes : Bytes} :
    encodeConflictingKeyRanges values = .ok bytes ↔
      values.length < 2 ^ 32 ∧
      (∀ value ∈ values, value.begin.length < 2 ^ 32 ∧ value.stop.length < 2 ^ 32) ∧
        bytes = encodeBatch (fun value => pairFrame value.parts) values :=
  encodePairs_eq_ok ConflictRange.parts

theorem decodeKeyValues_eq_ok {values : List KeyValue} {bytes : Bytes} :
    decodeKeyValues bytes = .ok values ↔ encodeKeyValues values = .ok bytes :=
  decodePairs_eq_ok KeyValue.parts (fun (key, value) => { key, value }) (fun _ => rfl) (fun _ => rfl)

theorem decodeConflictRanges_eq_ok {values : List ConflictRange} {bytes : Bytes} :
    decodeConflictRanges bytes = .ok values ↔ encodeConflictingKeyRanges values = .ok bytes :=
  decodePairs_eq_ok ConflictRange.parts (fun (begin, stop) => { begin, stop }) (fun _ => rfl)
    (fun _ => rfl)

/-- Each batch is read as it was written, and nothing else is accepted. The encoders of the
native side accept every list whose count and lengths fit in 32 bits. -/
theorem batches_agree :
    (∀ keys, encodedLength keys ≤ 2 ^ 31 - 1 →
      ∃ bytes, encodeKeys keys = .ok bytes ∧ decodeKeys bytes = .ok keys) ∧
    (∀ bytes keys, decodeKeys bytes = .ok keys → encodeKeys keys = .ok bytes) ∧
    (∀ values, (∃ bytes, encodeOptionalValues values = .ok bytes) ↔
      values.length < 2 ^ 32 ∧ ∀ value, some value ∈ values → value.length < 2 ^ 32) ∧
    (∀ bytes values, decodeOptionalValues bytes = .ok values ↔
      (∀ value, some value ∈ values → value.length < 2 ^ 32 - 1) ∧
        encodeOptionalValues values = .ok bytes) ∧
    (∀ values, (∃ bytes, encodeKeyValues values = .ok bytes) ↔
      values.length < 2 ^ 32 ∧
        ∀ value ∈ values, value.key.length < 2 ^ 32 ∧ value.value.length < 2 ^ 32) ∧
    (∀ bytes values, decodeKeyValues bytes = .ok values ↔ encodeKeyValues values = .ok bytes) ∧
    (∀ values, (∃ bytes, encodeConflictingKeyRanges values = .ok bytes) ↔
      values.length < 2 ^ 32 ∧
        ∀ value ∈ values, value.begin.length < 2 ^ 32 ∧ value.stop.length < 2 ^ 32) ∧
    ∀ bytes values, decodeConflictRanges bytes = .ok values ↔
      encodeConflictingKeyRanges values = .ok bytes := by
  refine ⟨?_, fun _ _ => decodeKeys_sound, ?_, fun _ _ => decodeOptionalValues_eq_ok, ?_,
    fun _ _ => decodeKeyValues_eq_ok, ?_, fun _ _ => decodeConflictRanges_eq_ok⟩
  · intro keys hlength
    have hle := length_le_keyFrames keys
    have hlimit := encodedLength_eq keys
    have hbatch : (encodeBatch keyFrame keys).length = 4 + (keys.flatMap keyFrame).length := by
      simp [encodeBatch]
    have hcount : keys.length < 2 ^ 32 := by omega
    have hkeys : ∀ key ∈ keys, key.length < 2 ^ 32 := by
      intro key hmem
      have hkey := length_le_of_mem hmem
      omega
    exact ⟨_, encodeKeys_eq_ok.mpr ⟨hcount, hkeys, rfl⟩,
      decodeKeys_complete (by unfold usizeMax; omega) hcount hkeys⟩
  · intro values
    simp only [encodeOptionalValues_eq_ok, exists_and_left, exists_eq, and_true]
  · intro values
    simp only [encodeKeyValues_eq_ok, exists_and_left, exists_eq, and_true]
  · intro values
    simp only [encodeConflictingKeyRanges_eq_ok, exists_and_left, exists_eq, and_true]

example : decodeOptionalValues [3, 0, 0, 0, 2, 0, 0, 0, 0, 255, 255, 255, 255, 255, 0, 0, 0, 0] =
    .ok [some [0, 255], none, some []] := by decide +kernel

end FoundationDbEffect.Native
