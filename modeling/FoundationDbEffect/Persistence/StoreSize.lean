import FoundationDbEffect.Persistence.KeyValueStore
import Mathlib.Data.Finset.Card

/-!
# The size of a key-value store

A call that creates or removes a value has read, with conflict, whether the key has one, so
that is still so when the call commits, and its addition to the counter is what it changes the
number of keys by. The counter itself raises no conflict.
-/

namespace FoundationDbEffect.Persistence.KeyValueStore

open FoundationDbEffect.Foundation

variable {κ : Type} [LinearOrder κ]

/-! ## Stored keys -/

def storedKeys (rows : ChunkRows κ) : Finset κ :=
  (rows.entries.map fun row => chunkPath row.1).toFinset

theorem mem_storedKeys {rows : ChunkRows κ} {key : κ} :
    key ∈ storedKeys rows ↔ Stored rows key := by
  simp only [storedKeys, List.mem_toFinset, List.mem_map]
  constructor
  · rintro ⟨⟨row, chunk⟩, hrow, rfl⟩
    exact ⟨chunkIndex row, Option.isSome_iff_exists.mpr ⟨chunk, OrderedMap.mem_entries.mp hrow⟩⟩
  · rintro ⟨index, hindex⟩
    obtain ⟨chunk, hchunk⟩ := Option.isSome_iff_exists.mp hindex
    exact ⟨(toLex (key, index), chunk), OrderedMap.mem_entries.mpr hchunk, rfl⟩

def Exact (state : StoreState κ) : Prop :=
  state.size.getD 0 = BitVec.ofNat 64 (storedKeys state.entries).card

/-! ## What a transaction has read -/

def Current (reads : Set (StoreKey κ)) (snapshot state : StoreState κ) : Prop :=
  ∀ key index, .chunk key index ∈ reads →
    state.entries.get? (toLex (key, index)) = snapshot.entries.get? (toLex (key, index))

theorem Current.stored_iff {snapshot state : StoreState κ} {key : κ}
    (h : Current (hasReads snapshot.entries key) snapshot state) :
    Stored state.entries key ↔ Stored snapshot.entries key := by
  cases hfirst : snapshot.entries.first? (chunkedValueRange key) with
  | none =>
      have hnone := OrderedMap.first?_eq_none.mp hfirst
      have hread (index : Nat) : .chunk key index ∈ hasReads snapshot.entries key :=
        ⟨index, rfl, by simp [hfirst]⟩
      unfold Stored
      simp only [h key _ (hread _)]
  | some first =>
      obtain ⟨hrange, hget, -⟩ := OrderedMap.first?_eq_some hfirst
      obtain rfl : chunkPath first.1 = key := of_decide_eq_true hrange
      have hread : .chunk (chunkPath first.1) (chunkIndex first.1) ∈
          hasReads snapshot.entries (chunkPath first.1) := by
        refine ⟨chunkIndex first.1, rfl, ?_⟩
        intro first' hfirst'
        rw [hfirst, Option.some.injEq] at hfirst'
        rw [hfirst']
      have hstored : Stored snapshot.entries (chunkPath first.1) :=
        ⟨chunkIndex first.1, Option.isSome_iff_exists.mpr ⟨_, hget⟩⟩
      refine iff_of_true ⟨chunkIndex first.1, ?_⟩ hstored
      rw [h _ _ hread]
      exact Option.isSome_iff_exists.mpr ⟨_, hget⟩

/-! ## Blocks of mutations -/

abbrev replay (mutations : List (StoreMutation κ)) (state : StoreState κ) : StoreState κ :=
  mutations.foldl StoreState.apply state

theorem replay_append (first second : List (StoreMutation κ)) (state : StoreState κ) :
    replay (first ++ second) state = replay second (replay first state) :=
  List.foldl_append

theorem replay_entries (mutations : List (ChunkMutation κ)) (state : StoreState κ) :
    replay (mutations.map .entry) state =
      { state with entries := mutations.foldl ChunkMutation.apply state.entries } := by
  induction mutations generalizing state with
  | nil => rfl
  | cons mutation mutations ih =>
      rw [List.map_cons, replay, List.foldl_cons]
      exact ih _

theorem storedKeys_write (rows : ChunkRows κ) (key : κ) (value : Bytes) :
    storedKeys ((writeChunkedValue key value).foldl ChunkMutation.apply rows) =
      insert key (storedKeys rows) := by
  ext other
  rw [mem_storedKeys, stored_write, Finset.mem_insert, mem_storedKeys]

theorem storedKeys_clear (rows : ChunkRows κ) (key : κ) :
    storedKeys ((clearChunkedValue key).foldl ChunkMutation.apply rows) =
      (storedKeys rows).erase key := by
  ext other
  rw [mem_storedKeys, stored_clear, Finset.mem_erase, mem_storedKeys]

/-! ## Calls -/

theorem Exact.set {snapshot state : StoreState κ} {readVersion : Nat} {key : κ}
    {value : StoreValue} (h : Exact state)
    (hcurrent : Current (set readVersion snapshot key value).reads snapshot state) :
    Exact (replay (set readVersion snapshot key value).mutations state) := by
  have hstored := hcurrent.stored_iff
  unfold Exact at h ⊢
  unfold KeyValueStore.set
  dsimp only
  cases hhas : hasChunkedValue snapshot.entries key with
  | true =>
      have hmem := mem_storedKeys.mpr (hstored.mpr (hasChunkedValue_iff.mp hhas))
      simp only [if_true, List.nil_append]
      rw [replay_entries]
      dsimp only
      rw [storedKeys_write, Finset.insert_eq_of_mem hmem, h]
  | false =>
      have hmem : key ∉ storedKeys state.entries := by
        rw [mem_storedKeys, hstored, ← hasChunkedValue_iff, hhas]
        exact Bool.false_ne_true
      simp only [Bool.false_eq_true, if_false]
      rw [replay_append, replay_entries]
      change (some (state.size.getD 0 + BitVec.ofInt 64 1)).getD 0 = BitVec.ofNat 64
        (storedKeys ((writeChunkedValue key (encodeValue value)).foldl ChunkMutation.apply
          state.entries)).card
      rw [storedKeys_write, Finset.card_insert_of_notMem hmem, h, BitVec.ofNat_add]
      rfl

theorem Exact.remove {snapshot state : StoreState κ} {readVersion : Nat} {key : κ}
    (h : Exact state)
    (hcurrent : Current (remove readVersion snapshot key).reads snapshot state) :
    Exact (replay (remove readVersion snapshot key).mutations state) := by
  have hstored := hcurrent.stored_iff
  unfold Exact at h ⊢
  unfold KeyValueStore.remove
  dsimp only
  cases hhas : hasChunkedValue snapshot.entries key with
  | true =>
      have hmem := mem_storedKeys.mpr (hstored.mpr (hasChunkedValue_iff.mp hhas))
      simp only [if_true]
      rw [replay_append, replay_entries]
      change (some (state.size.getD 0 + BitVec.ofInt 64 (-1))).getD 0 = BitVec.ofNat 64
        (storedKeys ((clearChunkedValue key).foldl ChunkMutation.apply state.entries)).card
      have hcard := Finset.card_erase_add_one hmem
      have hone : BitVec.ofNat 64 1 + BitVec.ofInt 64 (-1) = 0 := by decide
      rw [storedKeys_clear, h, ← hcard, BitVec.ofNat_add, BitVec.add_assoc, hone, Option.getD_some]
      exact BitVec.add_zero _
  | false => simpa using h

theorem StoreCall.run_ok {codecs : Codecs} {readVersion : Nat} {snapshot : StoreState κ}
    {call : StoreCall κ} {transaction : StoreTransaction κ}
    (h : call.run codecs readVersion snapshot = .ok transaction) :
    (∃ key value, transaction = KeyValueStore.set readVersion snapshot key value) ∨
      (∃ key, transaction = KeyValueStore.remove readVersion snapshot key) ∨
      transaction = KeyValueStore.clear readVersion ∨
      (∃ key, transaction = ⟨readVersion, [], keyRows key, ∅, ()⟩) ∨
      ∃ key encoded value, readChunkedValue snapshot.entries key = some encoded ∧
        transaction = ⟨readVersion, (writeChunkedValue key value).map .entry, keyRows key,
          keyRows key, ()⟩ := by
  have hmodify {α : Type} {key : κ} {decode : Bytes → Except KeyValueStoreDataError α}
      {encode : α → StoreValue} {f : α → α} {method : String}
      (h : ((KeyValueStore.modify readVersion snapshot key decode encode f).map
        Prod.fst).mapError (storeError method (some key)) = .ok transaction) :
      (∃ key, transaction = ⟨readVersion, [], keyRows key, ∅, ()⟩) ∨
      ∃ key encoded value, readChunkedValue snapshot.entries key = some encoded ∧
        transaction = ⟨readVersion, (writeChunkedValue key value).map .entry, keyRows key,
          keyRows key, ()⟩ := by
    unfold KeyValueStore.modify at h
    cases hread : readChunkedValue snapshot.entries key with
    | none =>
        rw [hread] at h
        cases h
        exact .inl ⟨key, rfl⟩
    | some encoded =>
        rw [hread] at h
        cases hdecode : decode encoded with
        | error cause =>
            simp only [hdecode] at h
            cases h
        | ok value =>
            simp only [hdecode] at h
            cases h
            exact .inr ⟨key, encoded, _, hread, rfl⟩
  cases call with
  | set key value =>
      cases h
      exact .inl ⟨key, value, rfl⟩
  | remove key =>
      cases h
      exact .inr (.inl ⟨key, rfl⟩)
  | modify key f => exact .inr (.inr (.inr (hmodify h)))
  | modifyUint8Array key f => exact .inr (.inr (.inr (hmodify h)))
  | clear =>
      cases h
      exact .inr (.inr (.inl rfl))

theorem Exact.run {codecs : Codecs} {readVersion : Nat} {snapshot state : StoreState κ}
    {call : StoreCall κ} {transaction : StoreTransaction κ} (h : Exact state)
    (hrun : call.run codecs readVersion snapshot = .ok transaction)
    (hcurrent : Current transaction.reads snapshot state) :
    Exact (replay transaction.mutations state) := by
  rcases StoreCall.run_ok hrun with ⟨key, value, rfl⟩ | ⟨key, rfl⟩ | rfl | ⟨key, rfl⟩ |
    ⟨key, encoded, value, hread, rfl⟩
  · exact h.set hcurrent
  · exact h.remove hcurrent
  · rfl
  · exact h
  · -- The key had a value when it was read, and has read every row of it since.
    have hrows : readChunkedValue state.entries key = some encoded := by
      rw [← hread]
      exact readChunkedValue_congr fun index => hcurrent key index ⟨index, rfl⟩
    have hmem := mem_storedKeys.mpr (stored_of_read hrows)
    unfold Exact at h ⊢
    rw [replay_entries]
    dsimp only
    rw [storedKeys_write, Finset.insert_eq_of_mem hmem, h]

/-- A call leaves every row that it has no write conflict on. -/
theorem StoreCall.run_frame {codecs : Codecs} {readVersion : Nat} {snapshot state : StoreState κ}
    {call : StoreCall κ} {transaction : StoreTransaction κ}
    (hrun : call.run codecs readVersion snapshot = .ok transaction) {key : κ} {index : Nat}
    (hwrites : .chunk key index ∉ transaction.writes) :
    (replay transaction.mutations state).entries.get? (toLex (key, index)) =
      state.entries.get? (toLex (key, index)) := by
  have hne {key' : κ} (h : .chunk key index ∉ keyRows key') : key ≠ key' := by
    rintro rfl
    exact h ⟨index, rfl⟩
  rcases StoreCall.run_ok hrun with ⟨key', value, rfl⟩ | ⟨key', rfl⟩ | rfl | ⟨key', rfl⟩ |
    ⟨key', encoded, value, hread, rfl⟩
  · unfold KeyValueStore.set at hwrites ⊢
    dsimp only at hwrites ⊢
    have hkey : key ≠ key' := by
      cases hhas : hasChunkedValue snapshot.entries key' with
      | true => exact hne (by simpa [hhas] using hwrites)
      | false => exact hne (by simpa [hhas] using hwrites)
    rw [replay_append, replay_entries]
    dsimp only
    rw [get?_writeChunkedValue, if_neg hkey]
    split
    · rfl
    · rfl
  · unfold KeyValueStore.remove at hwrites ⊢
    dsimp only at hwrites ⊢
    cases hhas : hasChunkedValue snapshot.entries key' with
    | true =>
        have hkey : key ≠ key' := hne (by simpa [hhas] using hwrites)
        simp only [if_true]
        rw [replay_append, replay_entries]
        change ((clearChunkedValue key').foldl ChunkMutation.apply state.entries).get? _ = _
        rw [get?_clearChunkedValue, if_neg hkey]
    | false => rfl
  · exact absurd (.inr ⟨key, index, rfl⟩) hwrites
  · rfl
  · rw [replay_entries]
    dsimp only
    rw [get?_writeChunkedValue, if_neg (hne hwrites)]

/-! ## Histories -/

theorem stateAt_exact {codecs : Codecs} {history : List (StoreTransaction κ)}
    (h : StoreHistory codecs history) : Exact (stateAt history) := by
  induction h with
  | nil => rfl
  | @commit history transaction hhistory hversion hbody hconflict ih =>
      obtain ⟨call, hrun⟩ := hbody
      refine ih.run hrun ?_
      intro key index hread
      -- No commit since the read version has written a row that the transaction read.
      let snapshot := stateAt (Occ.before history transaction.readVersion)
      have hstate : (Occ.stateAt (fun _ => StoreState.apply) StoreState.empty
          (Occ.since history transaction.readVersion ++
            Occ.before history transaction.readVersion)).entries.get? (toLex (key, index)) =
          snapshot.entries.get? (toLex (key, index)) := by
        refine Occ.stateAt_preserved (P := fun state : StoreState κ =>
          state.entries.get? (toLex (key, index)) = snapshot.entries.get? (toLex (key, index)))
          ?_ rfl
        intro later hlater version state hstate
        have hmem : later ∈ history := by
          rw [← Occ.since_append_before history transaction.readVersion]
          exact List.mem_append_left _ hlater
        obtain ⟨snapshot', call', hrun'⟩ := hhistory.exists_body hmem
        refine (StoreCall.run_frame hrun' ?_).trans hstate
        exact Set.disjoint_left.mp (hconflict later hlater) hread
      rwa [Occ.since_append_before] at hstate

theorem toInt_ofNat {count : Nat} (h : count < 2 ^ 63) : (BitVec.ofNat 64 count).toInt = count := by
  have hnat : (BitVec.ofNat 64 count).toNat = count := by
    rw [BitVec.toNat_ofNat]
    omega
  rw [BitVec.toInt_eq_toNat_of_lt (by omega), hnat]

theorem Exact.decodeSize {state : StoreState κ} (h : Exact state)
    (hcard : (storedKeys state.entries).card ≤ maxSafeInteger) :
    decodeSize state.size = .ok (storedKeys state.entries).card := by
  have hmax : maxSafeInteger < 2 ^ 63 := by decide
  unfold Exact at h
  cases hsize : state.size with
  | none =>
      rw [hsize, Option.getD_none] at h
      have hzero := congrArg BitVec.toInt h
      rw [toInt_ofNat (by omega), show (0 : BitVec 64).toInt = 0 from rfl] at hzero
      rw [KeyValueStore.decodeSize, show (storedKeys state.entries).card = 0 by omega]
  | some bits =>
      rw [hsize, Option.getD_some] at h
      rw [h, KeyValueStore.decodeSize, toInt_ofNat (by omega), if_neg (by omega),
        Int.toNat_natCast]

theorem storedKeys_card_eq_zero {rows : ChunkRows κ} :
    (storedKeys rows).card = 0 ↔ ∀ key, hasChunkedValue rows key = false := by
  rw [Finset.card_eq_zero, Finset.eq_empty_iff_forall_notMem]
  simp only [mem_storedKeys, ← hasChunkedValue_iff, Bool.not_eq_true]

/-! ## Stores of any number of keys -/

def filled : Nat → List (StoreTransaction Nat)
  | 0 => []
  | count + 1 => set count (stateAt (filled count)) count (.bytes []) :: filled count

theorem filled_length (count : Nat) : (filled count).length = count := by
  induction count with
  | zero => rfl
  | succ count ih => rw [filled, List.length_cons, ih]

theorem filled_history (codecs : Codecs) (count : Nat) : StoreHistory codecs (filled count) := by
  induction count with
  | zero => exact .nil
  | succ count ih =>
      have hbefore : Occ.before (filled count) count = filled count := by
        rw [Occ.before, filled_length, Nat.sub_self, List.drop_zero]
      have hsince : Occ.since (filled count) count = [] := by
        rw [Occ.since, filled_length, Nat.sub_self, List.take_zero]
      refine .commit ih (filled_length count).ge ?_ ?_
      · refine ⟨.set count (.bytes []), ?_⟩
        change Except.ok (KeyValueStore.set count (stateAt (Occ.before (filled count) count)) count
          (.bytes [])) = _
        rw [hbefore]
      · intro later hlater
        change later ∈ Occ.since (filled count) count at hlater
        rw [hsince] at hlater
        cases hlater

theorem filled_storedKeys (count : Nat) :
    storedKeys (stateAt (filled count)).entries = Finset.range count := by
  induction count with
  | zero => rfl
  | succ count ih =>
      have hentries : (stateAt (filled (count + 1))).entries =
          (writeChunkedValue count (encodeValue (.bytes []))).foldl ChunkMutation.apply
            (stateAt (filled count)).entries := by
        change (replay (set count (stateAt (filled count)) count (.bytes [])).mutations
          (stateAt (filled count))).entries = _
        rw [KeyValueStore.set]
        dsimp only
        rw [replay_append, replay_entries]
        split
        · rfl
        · rfl
      rw [hentries, storedKeys_write, ih, Finset.range_add_one]

theorem filled_card (count : Nat) :
    (storedKeys (stateAt (filled count)).entries).card = count := by
  rw [filled_storedKeys, Finset.card_range]

theorem size_filled {count : Nat} (hmin : maxSafeInteger < count) (hmax : count < 2 ^ 63) :
    size (stateAt (filled count)) =
      .error (storeError "size" none .sizeMetadataOutOfRange) := by
  have hexact := stateAt_exact (filled_history ⟨fun _ => [], fun _ => []⟩ count)
  rw [Exact, filled_card] at hexact
  have hdecode : decodeSize (stateAt (filled count)).size = .error .sizeMetadataOutOfRange := by
    cases hsize : (stateAt (filled count)).size with
    | none =>
        rw [hsize, Option.getD_none] at hexact
        have hzero := congrArg BitVec.toInt hexact
        rw [toInt_ofNat (by omega), show (0 : BitVec 64).toInt = 0 from rfl] at hzero
        omega
    | some bits =>
        rw [hsize, Option.getD_some] at hexact
        rw [hexact, KeyValueStore.decodeSize, toInt_ofNat (by omega), if_pos (by omega)]
  rw [size, hdecode]
  rfl

/-! ## Sizes -/

/-- In every state of every history, as long as no more than `maxSafeInteger` keys have a value,
the size is the number of the keys that have one. -/
theorem size_eq_card {codecs : Codecs} {history : List (StoreTransaction κ)}
    (h : StoreHistory codecs history)
    (hcard : (storedKeys (stateAt history).entries).card ≤ maxSafeInteger) :
    size (stateAt history) = .ok (storedKeys (stateAt history).entries).card ∧
      (isEmpty (stateAt history) = .ok true ↔ ∀ key, has (stateAt history) key = false) := by
  have hsize : size (stateAt history) = .ok (storedKeys (stateAt history).entries).card := by
    rw [size, (stateAt_exact h).decodeSize hcard]
    rfl
  refine ⟨hsize, ?_⟩
  rw [isEmpty, hsize]
  change Except.ok (decide ((storedKeys (stateAt history).entries).card = 0)) = .ok true ↔ _
  rw [Except.ok.injEq, decide_eq_true_eq]
  exact storedKeys_card_eq_zero

theorem size_eq_card_filled :
    size (stateAt (filled 3)) = .ok 3 ∧
      (isEmpty (stateAt (filled 3)) = .ok true ↔
        ∀ key, has (stateAt (filled 3)) key = false) := by
  have h := size_eq_card (filled_history ⟨fun _ => [], fun _ => []⟩ 3)
    (by rw [filled_card]; decide)
  rwa [filled_card] at h

/-- A store of 2^53 keys has no size. -/
theorem size_ne_card :
    ¬ ∀ history : List (StoreTransaction Nat), StoreHistory ⟨fun _ => [], fun _ => []⟩ history →
      size (stateAt history) = .ok (storedKeys (stateAt history).entries).card := by
  intro h
  have hfilled := h _ (filled_history _ (maxSafeInteger + 1))
  rw [size_filled (Nat.lt_succ_self _) (by decide)] at hfilled
  cases hfilled

end FoundationDbEffect.Persistence.KeyValueStore
