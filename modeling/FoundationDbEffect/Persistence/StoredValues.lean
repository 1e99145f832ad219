import FoundationDbEffect.Persistence.StoreSize

/-!
# What a key-value store returns

The text decoder is used with its default options, so a string that starts with U+FEFF comes
back without it. Every other string, and every array of bytes, comes back as it was stored.
-/

namespace FoundationDbEffect.Persistence.KeyValueStore

open FoundationDbEffect.Foundation

/-! ## Text -/

def byteOrderMarkUnit : UInt16 := 0xfeff

def byteOrderMarkScalar : Char := Char.ofNat 0xfeff

theorem encodeUtf8_byteOrderMark (characters : List Char) :
    encodeUtf8 (byteOrderMarkScalar :: characters) = byteOrderMark ++ encodeUtf8 characters := by
  have hmark : String.utf8EncodeChar byteOrderMarkScalar = byteOrderMark := by decide
  rw [encodeUtf8, List.flatMap_cons, hmark, encodeUtf8]

theorem take_encodeUtf8_iff {characters : List Char} :
    (encodeUtf8 characters).take 3 = byteOrderMark ↔
      characters.head? = some byteOrderMarkScalar := by
  cases characters with
  | nil => decide
  | cons character characters =>
      rw [List.head?_cons, Option.some.injEq]
      constructor
      · intro h
        have hmark : String.utf8EncodeChar byteOrderMarkScalar = byteOrderMark := by decide
        have hbytes : String.utf8EncodeChar character ++ encodeUtf8 characters =
            String.utf8EncodeChar byteOrderMarkScalar ++
              (encodeUtf8 (character :: characters)).drop 3 := by
          rw [hmark, ← h, List.take_append_drop]
          rfl
        -- Equal bytes start with equal scalar values.
        have hcompare := lexBytes_utf8EncodeChar character byteOrderMarkScalar
          (encodeUtf8 characters) ((encodeUtf8 (character :: characters)).drop 3)
        have hself (bytes : Bytes) : lexBytes bytes bytes = .eq := Std.ReflCmp.compare_self
        rw [hbytes, hself] at hcompare
        have hscalar := (Ordering.then_eq_eq.mp hcompare.symm).1
        rw [compareScalar, compare_eq_iff_eq] at hscalar
        exact Char.toNat_inj.mp hscalar
      · rintro rfl
        rw [encodeUtf8_byteOrderMark]
        rfl

theorem head?_scalars_iff {value : CodeUnits} (h : wellFormed value = true) :
    (scalars value).head? = some byteOrderMarkScalar ↔ value.head? = some byteOrderMarkUnit := by
  constructor
  · intro hscalars
    obtain ⟨rest, hrest⟩ := List.head?_eq_some_iff.mp hscalars
    rw [← fromScalars_scalars value h, hrest]
    rfl
  · intro hvalue
    obtain ⟨rest, rfl⟩ := List.head?_eq_some_iff.mp hvalue
    cases rest with
    | nil => rfl
    | cons next rest => rfl

theorem decodeText_encodeText (codecs : Codecs) {value : CodeUnits} (h : wellFormed value = true) :
    codecs.decodeText (encodeText value) =
      if value.head? = some byteOrderMarkUnit then value.tail else value := by
  have hvalue := fromScalars_scalars value h
  unfold Codecs.decodeText encodeText
  dsimp only
  by_cases hmark : value.head? = some byteOrderMarkUnit
  · have hscalars := (head?_scalars_iff h).mpr hmark
    obtain ⟨rest, hrest⟩ := List.head?_eq_some_iff.mp hscalars
    rw [if_pos (take_encodeUtf8_iff.mpr hscalars), if_pos hmark, hrest, encodeUtf8_byteOrderMark]
    rw [hrest] at hvalue
    rw [← hvalue]
    have hdrop : (byteOrderMark ++ encodeUtf8 rest).drop 3 = encodeUtf8 rest := rfl
    rw [hdrop, decodeUtf8_encodeUtf8]
    rfl
  · have hscalars := (head?_scalars_iff h).not.mpr hmark
    rw [if_neg (take_encodeUtf8_iff.not.mpr hscalars), if_neg hmark, decodeUtf8_encodeUtf8]
    exact hvalue

/-- The decoder undoes the encoder for the strings that do not start with U+FEFF. -/
theorem decodeText_encodeText_eq_iff (codecs : Codecs) {value : CodeUnits}
    (h : wellFormed value = true) :
    codecs.decodeText (encodeText value) = value ↔ value.head? ≠ some byteOrderMarkUnit := by
  rw [decodeText_encodeText codecs h]
  by_cases hmark : value.head? = some byteOrderMarkUnit
  · obtain ⟨rest, rfl⟩ := List.head?_eq_some_iff.mp hmark
    simp
  · simp [hmark]

/-! ## Calls -/

variable {κ : Type} [LinearOrder κ]

def OthersUnchanged (codecs : Codecs) (key : κ) (state after : StoreState κ) : Prop :=
  ∀ other, other ≠ key → get codecs after other = get codecs state other ∧
    getUint8Array after other = getUint8Array state other ∧ has after other = has state other

theorem othersUnchanged_write (codecs : Codecs) {state after : StoreState κ} {key : κ}
    {encoded : Bytes} (h : after.entries =
      (writeChunkedValue key encoded).foldl ChunkMutation.apply state.entries) :
    OthersUnchanged codecs key state after := by
  intro other hother
  have hread : readChunkedValue after.entries other = readChunkedValue state.entries other := by
    rw [h]
    exact readChunkedValue_write_of_ne hother _ _
  have hhas : has after other = has state other := by
    rw [Bool.eq_iff_iff, has, has, hasChunkedValue_iff, hasChunkedValue_iff, h, stored_write]
    simp [hother]
  exact ⟨by rw [get, get, hread], by rw [getUint8Array, getUint8Array, hread], hhas⟩

theorem entries_set (readVersion : Nat) (snapshot state : StoreState κ) (key : κ)
    (value : StoreValue) :
    (replay (set readVersion snapshot key value).mutations state).entries =
      (writeChunkedValue key (encodeValue value)).foldl ChunkMutation.apply state.entries := by
  rw [KeyValueStore.set]
  dsimp only
  rw [replay_append, replay_entries]
  split
  · rfl
  · rfl

theorem get_string (codecs : Codecs) {state : StoreState κ} {key : κ} {value : CodeUnits}
    (h : readChunkedValue state.entries key = some (encodeValue (.string value))) :
    get codecs state key = .ok (some (codecs.decodeText (encodeText value))) := by
  rw [get, h]
  rfl

theorem getUint8Array_string {state : StoreState κ} {key : κ} {value : CodeUnits}
    (h : readChunkedValue state.entries key = some (encodeValue (.string value))) :
    getUint8Array state key = .ok (some (encodeText value)) := by
  rw [getUint8Array, h]
  rfl

theorem get_string_eq_iff (codecs : Codecs) {state : StoreState κ} {key : κ} {value : CodeUnits}
    (hvalue : wellFormed value = true)
    (h : readChunkedValue state.entries key = some (encodeValue (.string value))) :
    get codecs state key = .ok (some value) ↔ value.head? ≠ some byteOrderMarkUnit := by
  rw [get_string codecs h, Except.ok.injEq, Option.some.injEq]
  exact decodeText_encodeText_eq_iff codecs hvalue

theorem modify_string (codecs : Codecs) (readVersion : Nat) {state : StoreState κ} {key : κ}
    {value : CodeUnits} (f : CodeUnits → CodeUnits)
    (h : get codecs state key = .ok (some value)) :
    modify readVersion state key codecs.decodeString .string f =
      .ok (⟨readVersion, (writeChunkedValue key (encodeValue (.string (f value)))).map .entry,
        keyRows key, keyRows key, ()⟩, some (f value)) := by
  unfold get at h
  unfold modify
  cases hread : readChunkedValue state.entries key with
  | none =>
      rw [hread] at h
      cases h
  | some encoded =>
      rw [hread] at h
      cases hdecode : codecs.decodeString encoded with
      | error cause =>
          simp only [hdecode] at h
          cases h
      | ok decoded =>
          simp only [hdecode] at h
          cases h
          dsimp only
          rw [hdecode]
          rfl

/-- What is read after a value has been stored, for every earlier state: a string is returned
exactly when it does not start with U+FEFF, and everything else always is. -/
theorem get_stored_iff (codecs : Codecs) (readVersion : Nat) (state : StoreState κ) (key : κ) :
    (∀ value, wellFormed value = true →
      let after := replay (set readVersion state key (.string value)).mutations state
      getUint8Array after key = .ok (some (encodeText value)) ∧
      OthersUnchanged codecs key state after ∧
      (get codecs after key = .ok (some value) ↔ value.head? ≠ some byteOrderMarkUnit)) ∧
    (∀ value,
      let after := replay (set readVersion state key (.bytes value)).mutations state
      getUint8Array after key = .ok (some value) ∧
      get codecs after key = .ok (some (codecs.base64 value)) ∧
      OthersUnchanged codecs key state after) ∧
    ∀ f value, get codecs state key = .ok (some value) → wellFormed (f value) = true →
      ∃ transaction,
        modify readVersion state key codecs.decodeString .string f =
          .ok (transaction, some (f value)) ∧
        let after := replay transaction.mutations state
        getUint8Array after key = .ok (some (encodeText (f value))) ∧
        OthersUnchanged codecs key state after ∧
        (get codecs after key = .ok (some (f value)) ↔
          (f value).head? ≠ some byteOrderMarkUnit) := by
  refine ⟨?_, ?_, ?_⟩
  · intro value hvalue after
    have hentries := entries_set readVersion state state key (.string value)
    have hread : readChunkedValue after.entries key = some (encodeValue (.string value)) := by
      rw [hentries]
      exact readChunkedValue_write _ _ _
    exact ⟨getUint8Array_string hread, othersUnchanged_write codecs hentries,
      get_string_eq_iff codecs hvalue hread⟩
  · intro value after
    have hentries := entries_set readVersion state state key (.bytes value)
    have hread : readChunkedValue after.entries key = some (encodeValue (.bytes value)) := by
      rw [hentries]
      exact readChunkedValue_write _ _ _
    refine ⟨?_, ?_, othersUnchanged_write codecs hentries⟩
    · rw [getUint8Array, hread]
      rfl
    · rw [get, hread]
      rfl
  · intro f value hget hvalue
    refine ⟨_, modify_string codecs readVersion f hget, ?_⟩
    dsimp only
    rw [replay_entries]
    have hread := readChunkedValue_write key (encodeValue (.string (f value))) state.entries
    exact ⟨getUint8Array_string hread, othersUnchanged_write codecs rfl,
      get_string_eq_iff codecs hvalue hread⟩

/-- A longer string over bytes, with a character outside of the first plane. -/
theorem get_stored_iff_replaced :
    let codecs : Codecs := ⟨fun _ => [], fun _ => []⟩
    let earlier := replay (set 0 StoreState.empty 1 (.bytes [0xff, 0x00, 0x61])).mutations
      StoreState.empty
    let value : CodeUnits := [0x68, 0xe9, 0x6c, 0x6c, 0x6f, 0x20, 0xd83d, 0xde00, 0xfeff]
    get codecs (replay (set 1 earlier 1 (.string value)).mutations earlier) 1 =
      .ok (some value) := by
  intro codecs earlier value
  have h := ((get_stored_iff codecs 1 earlier 1).1 value (by decide)).2.2
  exact h.mpr (by decide)

/-- The string U+FEFF "abc" comes back as "abc". -/
theorem get_stored_byteOrderMark :
    let value : CodeUnits := [0xfeff, 0x61, 0x62, 0x63]
    let returned := get ⟨fun _ => [], fun _ => []⟩
      (replay (set 0 StoreState.empty 1 (.string value)).mutations StoreState.empty) 1
    wellFormed value = true ∧ returned = .ok (some [0x61, 0x62, 0x63]) ∧
      returned ≠ .ok (some value) := by
  decide +kernel

end FoundationDbEffect.Persistence.KeyValueStore
