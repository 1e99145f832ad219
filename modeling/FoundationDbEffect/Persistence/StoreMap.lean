import FoundationDbEffect.Foundation.Fallible
import FoundationDbEffect.Persistence.StoredValues

/-!
# The key-value store as a map

The calls of any clients act on one map, in the order of their commits.  A modification acts on
the value that the key has then, not on an older one that it may have read, and every read finds
what the calls before its version have left.
-/

namespace FoundationDbEffect.Persistence.KeyValueStore

open FoundationDbEffect.Foundation

variable {κ : Type} [LinearOrder κ]

/-! ## The map -/

abbrev StoreMap (κ : Type) := κ → Option StoreValue

def Codecs.text (codecs : Codecs) : StoreValue → CodeUnits
  | .string value => codecs.decodeText (encodeText value)
  | .bytes value => codecs.base64 value

def StoreValue.content : StoreValue → Bytes
  | .string value => encodeText value
  | .bytes value => value

/-- What a modification makes of a map, and the updated value. -/
def StoreMap.update (map : StoreMap κ) (key : κ) (f : StoreValue → StoreValue) :
    StoreMap κ × Option StoreValue :=
  match map key with
  | none => (map, none)
  | some value => (Function.update map key (some (f value)), some (f value))

/-- What a call makes of a map, and what it returns. -/
def StoreCall.act (codecs : Codecs) (map : StoreMap κ) :
    StoreCall κ → StoreMap κ × Option StoreValue
  | .set key value => (Function.update map key (some value), none)
  | .remove key => (Function.update map key none, none)
  | .modify key f => map.update key fun value => .string (f (codecs.text value))
  | .modifyUint8Array key f => map.update key fun value => .bytes (f value.content)
  | .clear => (fun _ => none, none)

def mapAfter (codecs : Codecs) : List (StoreCall κ) → StoreMap κ
  | [] => fun _ => none
  | call :: calls => (call.act codecs (mapAfter codecs calls)).1

/-! ## Committed calls -/

structure Performed (κ : Type) where
  call : StoreCall κ
  updated : Option StoreValue

abbrev PerformedTransaction (κ : Type) := Transaction (StoreMutation κ) (StoreKey κ) (Performed κ)

/-- A call with what it returns when it commits. -/
def StoreCall.perform (codecs : Codecs) (readVersion : Nat) (snapshot : StoreState κ) :
    StoreCall κ → Except (KeyValueStoreError κ) (StoreTransaction κ × Option StoreValue)
  | .set key value => .ok (KeyValueStore.set readVersion snapshot key value, none)
  | .remove key => .ok (KeyValueStore.remove readVersion snapshot key, none)
  | .modify key f =>
      ((KeyValueStore.modify readVersion snapshot key codecs.decodeString .string f).map
        fun result => (result.1, result.2.map .string)).mapError (storeError "modify" (some key))
  | .modifyUint8Array key f =>
      ((KeyValueStore.modify readVersion snapshot key decodeBytes .bytes f).map
        fun result => (result.1, result.2.map .bytes)).mapError
          (storeError "modifyUint8Array" (some key))
  | .clear => .ok (KeyValueStore.clear readVersion, none)

def forget : PerformedTransaction κ → StoreTransaction κ := Occ.relabel fun _ => ()

abbrev PerformedHistory (codecs : Codecs) : List (PerformedTransaction κ) → Prop :=
  Occ.Committed (fun _ => StoreState.apply) StoreState.empty fun snapshot transaction =>
    transaction.result.call.perform codecs transaction.readVersion snapshot =
      .ok (forget transaction, transaction.result.updated)

def storeAfter : List (PerformedTransaction κ) → StoreState κ :=
  Occ.stateAt (fun _ => StoreState.apply) StoreState.empty

def performedCalls (history : List (PerformedTransaction κ)) : List (StoreCall κ) :=
  history.map fun transaction => transaction.result.call

def Holds (state : StoreState κ) (map : StoreMap κ) : Prop :=
  ∀ key, readChunkedValue state.entries key = (map key).map encodeValue

/-! ## Values -/

theorem decodeString_encodeValue (codecs : Codecs) (value : StoreValue) :
    codecs.decodeString (encodeValue value) = .ok (codecs.text value) := by
  cases value <;> rfl

theorem decodeBytes_encodeValue (value : StoreValue) :
    decodeBytes (encodeValue value) = .ok value.content := by
  cases value <;> rfl

theorem perform_run (codecs : Codecs) (readVersion : Nat) (snapshot : StoreState κ)
    (call : StoreCall κ) :
    call.run codecs readVersion snapshot =
      (call.perform codecs readVersion snapshot).map Prod.fst := by
  cases call with
  | set key value => rfl
  | remove key => rfl
  | modify key f =>
      rw [StoreCall.run, StoreCall.perform]
      cases KeyValueStore.modify readVersion snapshot key codecs.decodeString .string f <;> rfl
  | modifyUint8Array key f =>
      rw [StoreCall.run, StoreCall.perform]
      cases KeyValueStore.modify readVersion snapshot key decodeBytes .bytes f <;> rfl
  | clear => rfl

theorem readChunkedValue_isSome {rows : ChunkRows κ} {key : κ} :
    (readChunkedValue rows key).isSome ↔ Stored rows key := by
  constructor
  · intro h
    obtain ⟨value, hvalue⟩ := Option.isSome_iff_exists.mp h
    exact stored_of_read hvalue
  · intro h
    rw [← hasChunkedValue_iff] at h
    unfold hasChunkedValue at h
    unfold readChunkedValue
    dsimp only at h ⊢
    split
    · next hlength => simp [List.length_eq_zero_iff.mp hlength] at h
    · rfl

namespace Holds

variable {codecs : Codecs} {snapshot state : StoreState κ} {map : StoreMap κ} {readVersion : Nat}
  {transaction : StoreTransaction κ} {updated : Option StoreValue}

theorem stored_iff (h : Holds state map) (key : κ) : Stored state.entries key ↔ (map key).isSome := by
  rw [← readChunkedValue_isSome, h key, Option.isSome_map]

theorem write (h : Holds state map) {after : StoreState κ} {key : κ} {value : StoreValue}
    (hafter : after.entries =
      (writeChunkedValue key (encodeValue value)).foldl ChunkMutation.apply state.entries) :
    Holds after (Function.update map key (some value)) := by
  intro other
  rw [hafter]
  by_cases hother : other = key
  · subst hother
    rw [readChunkedValue_write, Function.update_self, Option.map_some]
  · rw [readChunkedValue_write_of_ne hother, Function.update_of_ne hother, h other]

theorem erase (h : Holds state map) {after : StoreState κ} {key : κ}
    (hafter : after.entries = (clearChunkedValue key).foldl ChunkMutation.apply state.entries) :
    Holds after (Function.update map key none) := by
  intro other
  rw [hafter]
  by_cases hother : other = key
  · subst hother
    rw [Function.update_self, Option.map_none, ← Option.not_isSome_iff_eq_none,
      readChunkedValue_isSome, stored_clear]
    exact fun hstored => hstored.1 rfl
  · rw [Function.update_of_ne hother, ← h other]
    refine readChunkedValue_congr fun index => ?_
    rw [get?_clearChunkedValue, if_neg hother]

theorem modify {α : Type} {decode : Bytes → Except KeyValueStoreDataError α}
    {view : StoreValue → α} {encode : α → StoreValue} {f : α → α} {key : κ} (h : Holds state map)
    (readVersion : Nat) (hdecode : ∀ value, decode (encodeValue value) = .ok (view value))
    (hread : readChunkedValue snapshot.entries key = readChunkedValue state.entries key) :
    ∃ transaction updated, KeyValueStore.modify readVersion snapshot key decode encode f =
        .ok (transaction, updated) ∧
      updated.map encode = (map.update key fun value => encode (f (view value))).2 ∧
      Holds (replay transaction.mutations state)
        (map.update key fun value => encode (f (view value))).1 := by
  rw [h key] at hread
  unfold KeyValueStore.modify StoreMap.update
  cases hvalue : map key with
  | none =>
      rw [hvalue, Option.map_none] at hread
      rw [hread]
      exact ⟨_, none, rfl, rfl, h⟩
  | some value =>
      rw [hvalue, Option.map_some] at hread
      rw [hread]
      refine ⟨⟨readVersion, (writeChunkedValue key (encodeValue (encode (f (view value))))).map .entry,
        keyRows key, keyRows key, ()⟩, some (f (view value)), ?_, rfl, ?_⟩
      · dsimp only
        rw [hdecode]
        rfl
      · rw [replay_entries]
        exact h.write rfl

theorem modify_reads {α : Type} {decode : Bytes → Except KeyValueStoreDataError α}
    {encode : α → StoreValue} {f : α → α} {key : κ} {result : Option α}
    (h : KeyValueStore.modify readVersion snapshot key decode encode f =
      .ok (transaction, result)) : transaction.reads = keyRows key := by
  unfold KeyValueStore.modify at h
  cases hread : readChunkedValue snapshot.entries key with
  | none =>
      rw [hread] at h
      cases h
      rfl
  | some encoded =>
      rw [hread] at h
      dsimp only at h
      obtain ⟨value, -, h⟩ := bind_eq_ok.mp h
      cases h
      rfl

theorem performModify {α : Type} {decode : Bytes → Except KeyValueStoreDataError α}
    {view : StoreValue → α} {encode : α → StoreValue} {f : α → α} {key : κ} {method : String}
    (h : Holds state map) (hdecode : ∀ value, decode (encodeValue value) = .ok (view value))
    (hperform : ((KeyValueStore.modify readVersion snapshot key decode encode f).map
      fun result => (result.1, result.2.map encode)).mapError (storeError method (some key)) =
        .ok (transaction, updated)) (hcurrent : Current transaction.reads snapshot state) :
    Holds (replay transaction.mutations state)
        (map.update key fun value => encode (f (view value))).1 ∧
      updated = (map.update key fun value => encode (f (view value))).2 := by
  cases hmodify : KeyValueStore.modify readVersion snapshot key decode encode f with
  | error cause =>
      rw [hmodify] at hperform
      cases hperform
  | ok result =>
      obtain ⟨performed, value⟩ := result
      rw [hmodify] at hperform
      cases hperform
      have hread : readChunkedValue snapshot.entries key = readChunkedValue state.entries key := by
        refine (readChunkedValue_congr fun index => hcurrent key index ?_).symm
        rw [modify_reads hmodify]
        exact ⟨index, rfl⟩
      obtain ⟨performed', value', hmodify', hupdated, hholds⟩ :=
        h.modify readVersion hdecode hread
      cases hmodify.symm.trans hmodify'
      exact ⟨hholds, hupdated⟩

/-- A call does to the map of the store that it commits on what it would do to it alone. -/
theorem perform {call : StoreCall κ} (h : Holds state map)
    (hperform : call.perform codecs readVersion snapshot = .ok (transaction, updated))
    (hcurrent : Current transaction.reads snapshot state) :
    Holds (replay transaction.mutations state) (call.act codecs map).1 ∧
      updated = (call.act codecs map).2 := by
  cases call with
  | set key value =>
      cases hperform
      exact ⟨h.write (entries_set readVersion snapshot state key value), rfl⟩
  | remove key =>
      cases hperform
      refine ⟨?_, rfl⟩
      have hstored := hcurrent.stored_iff
      unfold KeyValueStore.remove
      dsimp only
      split
      · apply h.erase
        rw [replay_append, replay_entries]
        rfl
      · next hhas =>
          rw [hasChunkedValue_iff, ← hstored, h.stored_iff, Option.not_isSome_iff_eq_none] at hhas
          change Holds state (Function.update map key none)
          rw [← hhas, Function.update_eq_self]
          exact h
  | modify key f => exact h.performModify (decodeString_encodeValue codecs) hperform hcurrent
  | modifyUint8Array key f => exact h.performModify decodeBytes_encodeValue hperform hcurrent
  | clear =>
      cases hperform
      refine ⟨fun key => ?_, rfl⟩
      rfl

theorem exists_perform (h : Holds state map) (call : StoreCall κ) (readVersion : Nat) :
    ∃ transaction, call.perform codecs readVersion state =
      .ok (transaction, (call.act codecs map).2) := by
  cases call with
  | set key value => exact ⟨_, rfl⟩
  | remove key => exact ⟨_, rfl⟩
  | modify key f =>
      obtain ⟨transaction, updated, hmodify, hupdated, -⟩ :=
        h.modify readVersion (decodeString_encodeValue codecs) rfl
      rw [StoreCall.perform, StoreCall.act, hmodify, ← hupdated]
      exact ⟨transaction, rfl⟩
  | modifyUint8Array key f =>
      obtain ⟨transaction, updated, hmodify, hupdated, -⟩ :=
        h.modify readVersion decodeBytes_encodeValue rfl
      rw [StoreCall.perform, StoreCall.act, hmodify, ← hupdated]
      exact ⟨transaction, rfl⟩
  | clear => exact ⟨_, rfl⟩

theorem get (h : Holds state map) (codecs : Codecs) (key : κ) :
    get codecs state key = .ok ((map key).map codecs.text) := by
  rw [KeyValueStore.get, h key]
  cases map key with
  | none => rfl
  | some value =>
      rw [Option.map_some]
      dsimp only
      rw [decodeString_encodeValue]
      rfl

theorem getUint8Array (h : Holds state map) (key : κ) :
    getUint8Array state key = .ok ((map key).map StoreValue.content) := by
  rw [KeyValueStore.getUint8Array, h key]
  cases map key with
  | none => rfl
  | some value =>
      rw [Option.map_some]
      dsimp only
      rw [decodeBytes_encodeValue]
      rfl

theorem has (h : Holds state map) (key : κ) : has state key = (map key).isSome := by
  rw [KeyValueStore.has, Bool.eq_iff_iff, hasChunkedValue_iff, h.stored_iff]

end Holds

/-! ## Histories -/

section

variable {codecs : Codecs} {history newer older : List (PerformedTransaction κ)}
  {transaction : PerformedTransaction κ}

theorem PerformedHistory.forget (h : PerformedHistory codecs history) :
    StoreHistory codecs (history.map forget) := by
  refine Occ.Committed.relabel ?_ h
  intro snapshot transaction hperform
  refine ⟨transaction.result.call, ?_⟩
  rw [perform_run]
  exact congrArg (Except.map Prod.fst) hperform

theorem stateAt_forget (history : List (PerformedTransaction κ)) :
    stateAt (history.map forget) = storeAfter history :=
  Occ.stateAt_relabel _ history

def chunkAt (state : StoreState κ) : StoreKey κ → Option Bytes
  | .chunk key index => state.entries.get? (toLex (key, index))
  | .size => none

theorem PerformedHistory.current (h : PerformedHistory codecs history)
    (hconflict : ∀ later ∈ Occ.since history transaction.readVersion,
      Disjoint transaction.reads later.writes) :
    Current transaction.reads (storeAfter (Occ.before history transaction.readVersion))
      (storeAfter history) := by
  intro key index hread
  refine @Occ.view_before _ _ _ _ _ _ _ chunkAt _ _ (.chunk key index) ?_ ?_
  · intro later hlater version state hwrites
    obtain ⟨snapshot, hperform⟩ := Occ.Committed.exists_body h hlater
    have hrun : later.result.call.run codecs later.readVersion snapshot =
        .ok (KeyValueStore.forget later) := by
      rw [perform_run, hperform]
      rfl
    exact StoreCall.run_frame hrun hwrites
  · intro later hlater
    exact Set.disjoint_left.mp (hconflict later hlater) hread

theorem PerformedHistory.holds (h : PerformedHistory codecs history) :
    Holds (storeAfter history) (mapAfter codecs (performedCalls history)) := by
  induction h with
  | nil => exact fun key => rfl
  | commit h _ hperform hconflict ih => exact (ih.perform hperform (PerformedHistory.current h hconflict)).1

/-- One map behind all calls: what they return and what is read after any number of commits. -/
structure Linearized (codecs : Codecs) (history : List (PerformedTransaction κ)) : Prop where
  returned : ∀ newer transaction older, history = newer ++ transaction :: older →
    transaction.result.updated =
      (transaction.result.call.act codecs (mapAfter codecs (performedCalls older))).2
  read : ∀ newer older, history = newer ++ older → ∀ key,
    KeyValueStore.get codecs (storeAfter older) key =
        .ok ((mapAfter codecs (performedCalls older) key).map codecs.text) ∧
      KeyValueStore.getUint8Array (storeAfter older) key =
        .ok ((mapAfter codecs (performedCalls older) key).map StoreValue.content) ∧
      KeyValueStore.has (storeAfter older) key =
        (mapAfter codecs (performedCalls older) key).isSome
  counted : ∀ newer older, history = newer ++ older → ∃ keys : Finset κ,
    (∀ key, key ∈ keys ↔ (mapAfter codecs (performedCalls older) key).isSome) ∧
      (keys.card ≤ maxSafeInteger → KeyValueStore.size (storeAfter older) = .ok keys.card)
  attempted : ∀ newer older, history = newer ++ older → ∀ call readVersion, ∃ transaction,
    StoreCall.perform codecs readVersion (storeAfter older) call =
      .ok (transaction, (call.act codecs (mapAfter codecs (performedCalls older))).2)

/-- In every history of concurrent calls the store behaves as one map that the calls act on in the
order of their commits, so that no update is lost, and none of them fails.  The size is read off
the map as long as no more than `maxSafeInteger` keys have a value. -/
theorem linearized_of_history (h : PerformedHistory codecs history) :
    Linearized codecs history := by
  have hholds {newer older : List (PerformedTransaction κ)} (hsplit : history = newer ++ older) :
      Holds (storeAfter older) (mapAfter codecs (performedCalls older)) := by
    subst hsplit
    exact PerformedHistory.holds (Occ.Committed.of_append h)
  constructor
  case returned =>
    rintro newer transaction older rfl
    cases (Occ.Committed.of_append h : PerformedHistory codecs (transaction :: older)) with
    | commit holder _ hperform hconflict =>
        exact ((PerformedHistory.holds holder).perform hperform
          (PerformedHistory.current holder hconflict)).2
  case read =>
    intro newer older hsplit key
    have hmap := hholds hsplit
    exact ⟨hmap.get codecs key, hmap.getUint8Array key, hmap.has key⟩
  case counted =>
    intro newer older hsplit
    have hmap := hholds hsplit
    have hexact : Exact (storeAfter older) := by
      subst hsplit
      rw [← stateAt_forget]
      exact stateAt_exact (PerformedHistory.forget (Occ.Committed.of_append h))
    refine ⟨storedKeys (storeAfter older).entries, fun key => ?_, fun hcard => ?_⟩
    · rw [mem_storedKeys, hmap.stored_iff]
    · rw [KeyValueStore.size, hexact.decodeSize hcard]
      rfl
  case attempted =>
    intro newer older hsplit call readVersion
    exact (hholds hsplit).exists_perform call readVersion

/-- A value is modified while another key is set. -/
theorem linearized_of_history_concurrent :
    let codecs : Codecs := ⟨fun _ => [], fun _ => []⟩
    let perform (call : StoreCall Nat) (updated : Option StoreValue)
        (transaction : StoreTransaction Nat) : PerformedTransaction Nat :=
      Occ.relabel (fun _ => ⟨call, updated⟩) transaction
    let first := perform (.set 1 (.string [0x61])) none (set 0 .empty 1 (.string [0x61]))
    let second := perform (.set 2 (.bytes [5])) none (set 1 (storeAfter [first]) 2 (.bytes [5]))
    let third := perform (.modify 1 (· ++ [0x62])) (some (.string [0x61, 0x62]))
      ⟨1, (writeChunkedValue 1 (encodeValue (.string [0x61, 0x62]))).map .entry, keyRows 1,
        keyRows 1, ()⟩
    Linearized codecs [third, second, first] := by
  intro codecs perform first second third
  have hfirst : PerformedHistory codecs [first] :=
    .commit .nil le_rfl rfl (by simp [Occ.since])
  have hsecond : PerformedHistory codecs [second, first] :=
    .commit hfirst le_rfl rfl (by simp [Occ.since, second, perform, Occ.relabel, set])
  have hget : get codecs (storeAfter [first]) 1 = .ok (some [0x61]) := by decide +kernel
  have hmodify := modify_string codecs 1 (· ++ [0x62]) hget
  have hperform : StoreCall.perform codecs 1 (storeAfter [first]) (.modify 1 (· ++ [0x62])) =
      .ok (forget third, some (.string [0x61, 0x62])) := by
    rw [StoreCall.perform, hmodify]
    rfl
  refine linearized_of_history (.commit hsecond (by decide) hperform ?_)
  intro later hlater
  obtain rfl : later = second := List.mem_singleton.mp hlater
  rw [Set.disjoint_left]
  rintro _ ⟨index, rfl⟩ hwrite
  change StoreKey.chunk 1 index ∈
    (if hasChunkedValue (storeAfter [first]).entries 2 then keyRows 2 else insert .size (keyRows 2))
    at hwrite
  split at hwrite
  · simp [keyRows] at hwrite
  · simp [keyRows] at hwrite

end

end FoundationDbEffect.Persistence.KeyValueStore
