import FoundationDbEffect.Foundation.ByteOrder
import FoundationDbEffect.Foundation.OrderedMap
import FoundationDbEffect.Tuple.RoundTrip

/-!
# Subspaces

A subspace puts a prefix before every key packed in it, and remembers where that prefix has
incomplete versionstamps.  The range of a tuple in a subspace holds the keys of the tuples that
extend it and no other tuple key, and the offset of an incomplete versionstamp is the position
of its placeholder in the whole key.
-/

namespace FoundationDbEffect.TupleLayer

open FoundationDbEffect.Foundation FoundationDbEffect.Foundation.ByteOrder

/-! ## The class -/

def maxOffset : Nat := 0xffffffff

def appendVersionstampOffset (packed : PackedTuple) : Except TupleError Bytes :=
  match packed.incompleteVersionstamps with
  | [] => .ok packed.bytes
  | [offset] =>
    if offset > maxOffset then .error ⟨.pack, "versionstamp offset exceeds 32 bits"⟩
    else .ok (packed.bytes ++ (toBigEndian 4 offset).reverse)
  | _ => .error ⟨.pack, "tuple contains multiple incomplete versionstamps"⟩

structure Subspace where
  prefixBytes : Bytes
  incompleteVersionstamps : List Nat := []
  deriving DecidableEq, Repr

namespace Subspace

def fromBytes (prefixBytes : Bytes) : Subspace := { prefixBytes }

def fromTuple (tuple : Tuple) : Except TupleError Subspace := do
  let packed ← packTrackedSync tuple
  .ok ⟨packed.bytes, packed.incompleteVersionstamps⟩

def pack (subspace : Subspace) (tuple : Tuple) : Except TupleError Bytes := do
  let suffix ← TupleLayer.pack tuple
  .ok (subspace.prefixBytes ++ suffix)

def offsets (subspace : Subspace) (suffix : PackedTuple) : List Nat :=
  subspace.incompleteVersionstamps ++
    suffix.incompleteVersionstamps.map (subspace.prefixBytes.length + ·)

def packWithVersionstamp (subspace : Subspace) (tuple : Tuple) : Except TupleError Bytes := do
  let suffix ← packTrackedSync tuple
  appendVersionstampOffset ⟨subspace.prefixBytes ++ suffix.bytes, subspace.offsets suffix⟩

def contains (subspace : Subspace) (key : Bytes) : Bool := subspace.prefixBytes.isPrefixOf key

def unpack (subspace : Subspace) (key : Bytes) : Option (Except TupleError Tuple) :=
  if subspace.contains key then TupleLayer.unpack (key.drop subspace.prefixBytes.length)
  else some (.error ⟨.unpack, "key is outside the subspace"⟩)

/-- The begin, included, and the end, excluded, of the keys below a tuple. -/
def range (subspace : Subspace) (tuple : Tuple) : Except TupleError (Bytes × Bytes) := do
  let key ← subspace.pack tuple
  .ok (key ++ [0x00], key ++ [0xff])

def subspace (parent : Subspace) (tuple : Tuple) : Except TupleError Subspace := do
  let suffix ← packTrackedSync tuple
  .ok ⟨parent.prefixBytes ++ suffix.bytes, parent.offsets suffix⟩

theorem pack_eq (subspace : Subspace) (t : Tuple) :
    subspace.pack t =
      match firstRejection t with
      | some e => .error e
      | none => .ok (subspace.prefixBytes ++ encodeTuple false t) := by
  rw [pack, TupleLayer.pack_eq]
  cases firstRejection t with
  | some e => rfl
  | none => rfl

theorem pack_ok_iff (subspace : Subspace) (t : Tuple) (key : Bytes) :
    subspace.pack t = .ok key ↔
      firstRejection t = none ∧ key = subspace.prefixBytes ++ encodeTuple false t := by
  rw [pack_eq]
  cases firstRejection t with
  | some e => simp
  | none => simp [eq_comm]

end Subspace

/-! ## Ranges -/

theorem encodeTuple_append (nested : Bool) (s t : Tuple) :
    encodeTuple nested (s ++ t) = encodeTuple nested s ++ encodeTuple nested t := by
  induction s with
  | nil => simp [encodeTuple]
  | cons v s ih => simp [encodeTuple, ih]

theorem firstRejection_append (s t : Tuple) :
    firstRejection (s ++ t) = none ↔ firstRejection s = none ∧ firstRejection t = none := by
  simp only [firstRejection_eq_none_iff, List.mem_append]
  grind

theorem values_of_readTuple {fuel : Nat} {nested : Bool} {values result : List TupleValue}
    {p p' : Parser} (h : readTuple fuel nested values p = some (.ok (result, p'))) :
    values <+: result := by
  induction fuel generalizing values p with
  | zero => simp [readTuple] at h
  | succ fuel ih =>
      have hgrow {value : TupleValue} {p : Parser}
          (h : readTuple fuel nested (values ++ [value]) p = some (.ok (result, p'))) :
          values <+: result :=
        (List.prefix_append values [value]).trans (ih h)
      rw [readTuple] at h
      split at h
      · split_ifs at h
        all_goals grind
      · dsimp only at h
        split_ifs at h
        · exact hgrow h
        · grind
        · split at h
          · cases h
          · cases h
          · exact hgrow h

/-- What follows the encoding of a tuple in the encoding of another is the encoding of the
elements that the other has behind it, unless it starts with the escape byte. -/
theorem eq_append_of_encodeTuple {t v : Tuple} (ht : firstRejection t = none)
    (hv : firstRejection v = none) {rest : Bytes} (hrest : Follows rest)
    (h : encodeTuple false v = encodeTuple false t ++ rest) :
    ∃ w, v = t ++ w ∧ rest = encodeTuple false w := by
  have hread := unpack_encodeTuple v hv
  rw [unpack, Option.map_eq_some_iff] at hread
  obtain ⟨result, hresult, hmap⟩ := hread
  obtain ⟨fuel, -, hsteps⟩ := readTuple_encodeTuple false t ht [] 0
    ((encodeTuple false v).length + 1) hrest (by rw [h, List.length_append]; omega)
  rw [← h, hresult] at hsteps
  cases result with
  | error e => cases hmap
  | ok pair =>
      obtain ⟨values, p⟩ := pair
      simp only [Except.map, Except.ok.injEq] at hmap
      subst hmap
      obtain ⟨w, rfl⟩ := values_of_readTuple hsteps.symm
      refine ⟨w, rfl, ?_⟩
      rw [List.nil_append, encodeTuple_append] at h
      exact (List.append_cancel_left h).symm

def StrictlyExtends (t v : Tuple) : Prop := ∃ w, w ≠ [] ∧ v = t ++ w

theorem encodeTuple_extends_iff {t v : Tuple} (ht : firstRejection t = none)
    (hv : firstRejection v = none) :
    (∃ byte rest, byte < 0xff ∧ encodeTuple false v = encodeTuple false t ++ byte :: rest) ↔
      StrictlyExtends t v := by
  constructor
  · rintro ⟨byte, rest, hbyte, heq⟩
    obtain ⟨w, rfl, hw⟩ := eq_append_of_encodeTuple ht hv (follows_cons (by grind)) heq
    refine ⟨w, ?_, rfl⟩
    rintro rfl
    simp [encodeTuple] at hw
  · rintro ⟨w, hw, rfl⟩
    cases w with
    | nil => exact absurd rfl hw
    | cons value w =>
        have hvalue := (firstRejection_eq_none_iff _).mp hv value (by simp)
        obtain ⟨byte, tail, heq, hbyte, -⟩ := encodeValue_cons false value hvalue
        refine ⟨byte, tail ++ encodeTuple false w, ?_, ?_⟩
        · have := byte.toNat_lt
          rw [UInt8.lt_iff_toNat_lt]
          have hne : byte.toNat ≠ 255 := fun h => hbyte (UInt8.toNat_inj.mp h)
          have h255 : (0xff : UInt8).toNat = 255 := rfl
          omega
        · rw [encodeTuple_append, encodeTuple, heq, List.cons_append]

theorem Subspace.mem_range_iff (subspace : Subspace) {t v : Tuple} {key begin stop : Bytes}
    (hrange : subspace.range t = .ok (begin, stop)) (hkey : subspace.pack v = .ok key) :
    interval begin stop key = true ↔ StrictlyExtends t v := by
  obtain ⟨hv, rfl⟩ := (subspace.pack_ok_iff v key).mp hkey
  rw [Subspace.range, subspace.pack_eq] at hrange
  cases ht : firstRejection t with
  | some e =>
      rw [ht] at hrange
      cases hrange
  | none =>
      rw [ht] at hrange
      cases hrange
      rw [interval_extensions_iff, ← encodeTuple_extends_iff ht hv]
      simp only [List.append_assoc, List.append_cancel_left_eq]

/--
Among the tuple keys of a subspace the range of a tuple holds the strict extensions of that
tuple, and a read or a clear of the range reaches these keys only.
-/
theorem Subspace.range_exact (subspace : Subspace) {t v : Tuple} {begin stop key : Bytes}
    (hrange : subspace.range t = .ok (begin, stop)) (hkey : subspace.pack v = .ok key) :
    (interval begin stop key = true ↔ StrictlyExtends t v) ∧
      ∀ rows : OrderedMap Bytes Bytes,
        (∀ value, (key, value) ∈ rows.rows (interval begin stop) ↔
          StrictlyExtends t v ∧ rows.get? key = some value) ∧
        (StrictlyExtends t v → (rows.clearRange (interval begin stop)).get? key = none) ∧
        (¬StrictlyExtends t v →
          (rows.clearRange (interval begin stop)).get? key = rows.get? key) := by
  have hmem := subspace.mem_range_iff hrange hkey
  refine ⟨hmem, fun rows => ⟨?_, ?_, ?_⟩⟩
  · intro value
    rw [OrderedMap.mem_rows, hmem]
  · intro hextends
    rw [OrderedMap.get?_clearRange, if_pos (hmem.mpr hextends)]
  · intro hnot
    rw [OrderedMap.get?_clearRange, if_neg (hmem.not.mpr hnot)]

theorem Subspace.range_exact_escaped :
    interval [0x50, 0x01, 0x61, 0x00, 0x00] [0x50, 0x01, 0x61, 0x00, 0xff]
      [0x50, 0x01, 0x61, 0x00, 0x14] = true := by
  have hrange : (Subspace.fromBytes [0x50]).range [.bytes [0x61]] =
      .ok ([0x50, 0x01, 0x61, 0x00, 0x00], [0x50, 0x01, 0x61, 0x00, 0xff]) := by decide
  have hkey : (Subspace.fromBytes [0x50]).pack [.bytes [0x61], .integer 0] =
      .ok [0x50, 0x01, 0x61, 0x00, 0x14] := by decide
  have h := (Subspace.fromBytes [0x50]).range_exact hrange hkey
  exact h.1.mpr ⟨[.integer 0], by simp, rfl⟩

/-! ## Versionstamps in a tuple -/

mutual

def stamps : TupleValue → List Versionstamp
  | .versionstamp value => [value]
  | .tuple children => stampsOf children
  | _ => []

def stampsOf : List TupleValue → List Versionstamp
  | [] => []
  | value :: rest => stamps value ++ stampsOf rest

end

def incompleteStamps (t : Tuple) : List Versionstamp := (stampsOf t).filter fun s => !s.isComplete

abbrev TransactionVersion := {bytes : Bytes // bytes.length = 10}

/-- The stamp that the database makes of a stamp when it commits. -/
def Versionstamp.fill (transaction : TransactionVersion) (stamp : Versionstamp) : Versionstamp :=
  if stamp.isComplete then stamp
  else ⟨transaction ++ stamp.bytes.drop 10, by simp [transaction.2, stamp.length_eq]⟩

mutual

def fillValue (transaction : TransactionVersion) : TupleValue → TupleValue
  | .versionstamp value => .versionstamp (value.fill transaction)
  | .tuple children => .tuple (fillTuple transaction children)
  | value => value

def fillTuple (transaction : TransactionVersion) : List TupleValue → List TupleValue
  | [] => []
  | value :: rest => fillValue transaction value :: fillTuple transaction rest

end

mutual

theorem rejection_fillValue (transaction : TransactionVersion) (v : TupleValue) :
    rejection (fillValue transaction v) = rejection v := by
  cases v with
  | tuple children =>
      rw [fillValue, rejection, rejection, firstRejection_fillTuple transaction children]
  | _ => rfl

theorem firstRejection_fillTuple (transaction : TransactionVersion) (t : List TupleValue) :
    firstRejection (fillTuple transaction t) = firstRejection t := by
  cases t with
  | nil => rfl
  | cons v t =>
      rw [fillTuple, firstRejection, firstRejection, rejection_fillValue transaction v,
        firstRejection_fillTuple transaction t]

end

theorem fillTuple_append (transaction : TransactionVersion) (s t : Tuple) :
    fillTuple transaction (s ++ t) = fillTuple transaction s ++ fillTuple transaction t := by
  induction s with
  | nil => simp [fillTuple]
  | cons v s ih => simp [fillTuple, ih]

theorem incompleteStamps_cons (v : TupleValue) (t : Tuple) :
    incompleteStamps (v :: t) = incompleteStamps [v] ++ incompleteStamps t := by
  simp [incompleteStamps, stampsOf]

theorem incompleteStamps_tuple (children : Tuple) :
    incompleteStamps [.tuple children] = incompleteStamps children := by
  simp [incompleteStamps, stampsOf, stamps]

theorem incompleteStamps_stamp (stamp : Versionstamp) :
    incompleteStamps [.versionstamp stamp] = if stamp.isComplete then [] else [stamp] := by
  cases h : stamp.isComplete <;> simp [incompleteStamps, stampsOf, stamps, h]

/-! ## Recorded offsets -/

mutual

theorem length_stampOffsets (v : TupleValue) :
    (stampOffsets v).length = (incompleteStamps [v]).length := by
  cases v with
  | versionstamp stamp =>
      rw [stampOffsets, incompleteStamps_stamp]
      cases stamp.isComplete <;> rfl
  | tuple children =>
      rw [stampOffsets, incompleteStamps_tuple, List.length_map, length_stampOffsetsOf]
  | _ => rfl

theorem length_stampOffsetsOf (nested : Bool) (t : Tuple) :
    (stampOffsetsOf nested t).length = (incompleteStamps t).length := by
  cases t with
  | nil => rfl
  | cons v t =>
      rw [stampOffsetsOf, incompleteStamps_cons, List.length_append, List.length_append,
        List.length_map, length_stampOffsets v, length_stampOffsetsOf nested t]

end

mutual

theorem fillValue_of_complete (transaction : TransactionVersion) (v : TupleValue)
    (h : incompleteStamps [v] = []) : fillValue transaction v = v := by
  cases v with
  | versionstamp stamp =>
      rw [incompleteStamps_stamp] at h
      split_ifs at h with hcomplete
      rw [fillValue, Versionstamp.fill, if_pos hcomplete]
  | tuple children =>
      rw [incompleteStamps_tuple] at h
      rw [fillValue, fillTuple_of_complete transaction children h]
  | _ => rfl

theorem fillTuple_of_complete (transaction : TransactionVersion) (t : Tuple)
    (h : incompleteStamps t = []) : fillTuple transaction t = t := by
  cases t with
  | nil => rfl
  | cons v t =>
      rw [incompleteStamps_cons, List.append_eq_nil_iff] at h
      rw [fillTuple, fillValue_of_complete transaction v h.1,
        fillTuple_of_complete transaction t h.2]

end

/-- An encoding with the placeholder of one incomplete versionstamp, what stands before it and
behind it, and the only offset recorded for it. -/
structure Placeholder (stamp : Versionstamp) (bytes : Bytes) (offsets : List Nat)
    (filled : TransactionVersion → Bytes) where
  before : Bytes
  after : Bytes
  bytes_eq : bytes = before ++ versionstampCode :: (stamp.bytes ++ after)
  offsets_eq : offsets = [before.length + 1]
  filled_eq : ∀ transaction,
    filled transaction = before ++ versionstampCode :: ((stamp.fill transaction).bytes ++ after)

/-- A placeholder with something more around it. -/
def Placeholder.wrap {stamp : Versionstamp} {bytes : Bytes} {offsets : List Nat}
    {filled : TransactionVersion → Bytes} (h : Placeholder stamp bytes offsets filled)
    (left right : Bytes) :
    Placeholder stamp (left ++ bytes ++ right) (offsets.map (left.length + ·))
      (fun transaction => left ++ filled transaction ++ right) where
  before := left ++ h.before
  after := h.after ++ right
  bytes_eq := by simp [h.bytes_eq]
  offsets_eq := by simp [h.offsets_eq, Nat.add_assoc]
  filled_eq transaction := by simp [h.filled_eq]

mutual

theorem placeholder_encodeValue (nested : Bool) (v : TupleValue) {stamp : Versionstamp}
    (h : incompleteStamps [v] = [stamp]) :
    Nonempty (Placeholder stamp (encodeValue nested v) (stampOffsets v)
      fun transaction => encodeValue nested (fillValue transaction v)) := by
  cases v with
  | versionstamp value =>
      rw [incompleteStamps_stamp] at h
      split_ifs at h with hcomplete
      rw [List.cons.injEq] at h
      obtain ⟨rfl, -⟩ := h
      exact ⟨[], [], by simp [encodeValue], by simp [stampOffsets, hcomplete],
        fun transaction => by simp [fillValue, encodeValue]⟩
  | tuple children =>
      rw [incompleteStamps_tuple] at h
      obtain ⟨hchildren⟩ := placeholder_encodeTuple true children h
      have hwrap := hchildren.wrap [nestedCode] [nilCode]
      simp only [List.length_singleton, List.cons_append, List.nil_append] at hwrap
      simp only [encodeValue, stampOffsets, fillValue]
      exact ⟨hwrap⟩
  | _ => cases h

theorem placeholder_encodeTuple (nested : Bool) (t : Tuple) {stamp : Versionstamp}
    (h : incompleteStamps t = [stamp]) :
    Nonempty (Placeholder stamp (encodeTuple nested t) (stampOffsetsOf nested t)
      fun transaction => encodeTuple nested (fillTuple transaction t)) := by
  cases t with
  | nil => cases h
  | cons v t =>
      have hlengths := length_stampOffsetsOf nested t
      have hlength := length_stampOffsets v
      rw [incompleteStamps_cons, List.append_eq_singleton_iff] at h
      simp only [encodeTuple, stampOffsetsOf, fillTuple]
      rcases h with ⟨hv, ht⟩ | ⟨hv, ht⟩
      · obtain ⟨hplace⟩ := placeholder_encodeTuple nested t ht
        have hwrap := hplace.wrap (encodeValue nested v) []
        rw [hv, List.length_nil, List.length_eq_zero_iff] at hlength
        simp only [List.append_nil] at hwrap
        simp only [hlength, List.nil_append, fillValue_of_complete _ v hv]
        exact ⟨hwrap⟩
      · obtain ⟨hplace⟩ := placeholder_encodeValue nested v hv
        have hwrap := hplace.wrap [] (encodeTuple nested t)
        rw [ht, List.length_nil, List.length_eq_zero_iff] at hlengths
        simp only [List.nil_append, List.length_nil, Nat.zero_add, List.map_id'] at hwrap
        simp only [hlengths, List.map_nil, List.append_nil, fillTuple_of_complete _ t ht]
        exact ⟨hwrap⟩

end

/-! ## Chains of subspaces -/

/-- How a subspace was made: from raw bytes or from a tuple, and then by `subspace`. -/
inductive SubspaceChain where
  | fromBytes (prefixBytes : Bytes)
  | fromTuple (tuple : Tuple)
  | subspace (parent : SubspaceChain) (tuple : Tuple)
  deriving Repr

namespace SubspaceChain

def build : SubspaceChain → Except TupleError Subspace
  | .fromBytes prefixBytes => .ok (Subspace.fromBytes prefixBytes)
  | .fromTuple tuple => Subspace.fromTuple tuple
  | .subspace parent tuple => do
    let parent ← parent.build
    parent.subspace tuple

def raw : SubspaceChain → Bytes
  | .fromBytes prefixBytes => prefixBytes
  | .fromTuple _ => []
  | .subspace parent _ => parent.raw

def tuple : SubspaceChain → Tuple
  | .fromBytes _ => []
  | .fromTuple tuple => tuple
  | .subspace parent tuple => parent.tuple ++ tuple

def fill (transaction : TransactionVersion) : SubspaceChain → SubspaceChain
  | .fromBytes prefixBytes => .fromBytes prefixBytes
  | .fromTuple tuple => .fromTuple (fillTuple transaction tuple)
  | .subspace parent tuple => .subspace (parent.fill transaction) (fillTuple transaction tuple)

@[simp] theorem raw_fill (transaction : TransactionVersion) (chain : SubspaceChain) :
    (chain.fill transaction).raw = chain.raw := by
  induction chain with
  | subspace parent tuple ih => exact ih
  | _ => rfl

@[simp] theorem tuple_fill (transaction : TransactionVersion) (chain : SubspaceChain) :
    (chain.fill transaction).tuple = fillTuple transaction chain.tuple := by
  induction chain with
  | fromBytes prefixBytes => simp [tuple, fill, fillTuple]
  | fromTuple tuple => rfl
  | subspace parent tuple ih => rw [fill, SubspaceChain.tuple, ih, ← fillTuple_append]; rfl

end SubspaceChain

theorem stampOffsetsOf_append (nested : Bool) (s t : Tuple) :
    stampOffsetsOf nested (s ++ t) =
      stampOffsetsOf nested s ++
        (stampOffsetsOf nested t).map ((encodeTuple nested s).length + ·) := by
  induction s with
  | nil => simp [stampOffsetsOf, encodeTuple]
  | cons v s ih =>
      simp [stampOffsetsOf, encodeTuple, ih, Function.comp_def, Nat.add_assoc]

def Subspace.ofTuple (raw : Bytes) (t : Tuple) : Subspace where
  prefixBytes := raw ++ encodeTuple false t
  incompleteVersionstamps := (stampOffsetsOf false t).map (raw.length + ·)

theorem Subspace.offsets_ofTuple (raw : Bytes) (s t : Tuple) :
    (Subspace.ofTuple raw s).offsets ⟨encodeTuple false t, stampOffsetsOf false t⟩ =
      (Subspace.ofTuple raw (s ++ t)).incompleteVersionstamps := by
  simp [Subspace.offsets, Subspace.ofTuple, stampOffsetsOf_append, Function.comp_def,
    Nat.add_assoc]

theorem SubspaceChain.build_ok_iff (chain : SubspaceChain) (subspace : Subspace) :
    chain.build = .ok subspace ↔
      firstRejection chain.tuple = none ∧ subspace = Subspace.ofTuple chain.raw chain.tuple := by
  induction chain generalizing subspace with
  | fromBytes prefixBytes =>
      simp [build, tuple, raw, Subspace.fromBytes, Subspace.ofTuple, firstRejection, encodeTuple,
        stampOffsetsOf, eq_comm]
  | fromTuple tuple =>
      rw [build, Subspace.fromTuple, packTrackedSync_eq, SubspaceChain.tuple, raw]
      cases firstRejection tuple with
      | some e => simp [bind, Except.bind]
      | none => simp [bind, Except.bind, Subspace.ofTuple, eq_comm]
  | subspace parent tuple ih =>
      rw [build, SubspaceChain.tuple, raw, firstRejection_append]
      cases hbuild : parent.build with
      | error e =>
          have hparent : firstRejection parent.tuple ≠ none := by
            intro hnone
            rw [(ih _).mpr ⟨hnone, rfl⟩] at hbuild
            cases hbuild
          simp [bind, Except.bind, hparent]
      | ok subspace =>
          obtain ⟨hparent, rfl⟩ := (ih subspace).mp hbuild
          simp only [bind, Except.bind, Subspace.subspace, packTrackedSync_eq, hparent, true_and]
          cases firstRejection tuple with
          | some e => simp
          | none =>
              simp only [Except.ok.injEq, true_and, Subspace.offsets_ofTuple]
              rw [eq_comm, Subspace.ofTuple, Subspace.ofTuple, encodeTuple_append,
                List.append_assoc]

/-! ## Keys with a versionstamp -/

theorem Subspace.packWithVersionstamp_eq (raw : Bytes) (s t : Tuple)
    (ht : firstRejection t = none) :
    (Subspace.ofTuple raw s).packWithVersionstamp t =
      appendVersionstampOffset
        ⟨raw ++ encodeTuple false (s ++ t),
          (Subspace.ofTuple raw (s ++ t)).incompleteVersionstamps⟩ := by
  rw [packWithVersionstamp, packTrackedSync_eq, ht]
  simp only [bind, Except.bind, Subspace.offsets_ofTuple]
  rw [encodeTuple_append, ← List.append_assoc, Subspace.ofTuple]

/--
An offset of a key at which the ten placeholder bytes of a versionstamp stand behind its type
code, and where the bytes of any transaction version have to be put to get the key of the same
chain and tuple with that versionstamp completed.
-/
structure StampAt (chain : SubspaceChain) (tuple : Tuple) (key : Bytes) (offset : Nat) : Prop where
  code : 0 < offset ∧ key[offset - 1]? = some versionstampCode
  placeholder : (key.drop offset).take 10 = List.replicate 10 0xff
  filled : ∀ transaction, ∃ subspace, (chain.fill transaction).build = .ok subspace ∧
    subspace.pack (fillTuple transaction tuple) =
      .ok (key.take offset ++ transaction ++ key.drop (offset + 10))

theorem take_bytes_of_incomplete {stamp : Versionstamp} (h : stamp.isComplete = false) :
    stamp.bytes.take 10 = List.replicate 10 0xff := by
  rw [List.eq_replicate_iff]
  constructor
  · simp [stamp.length_eq]
  · simpa [Versionstamp.isComplete] using h

theorem stampAt_of_placeholder {chain : SubspaceChain} {tuple : Tuple} {stamp : Versionstamp}
    (hstamp : stamp.isComplete = false) (hchain : firstRejection chain.tuple = none)
    (ht : firstRejection tuple = none)
    (h : Placeholder stamp (encodeTuple false (chain.tuple ++ tuple))
      (stampOffsetsOf false (chain.tuple ++ tuple))
      fun transaction => encodeTuple false (fillTuple transaction (chain.tuple ++ tuple))) :
    StampAt chain tuple (chain.raw ++ encodeTuple false (chain.tuple ++ tuple))
      (chain.raw.length + (h.before.length + 1)) := by
  have hhead : chain.raw ++ h.before ++ [versionstampCode] ++ (stamp.bytes ++ h.after) =
      chain.raw ++ encodeTuple false (chain.tuple ++ tuple) := by
    simp [h.bytes_eq]
  have hlength : chain.raw.length + (h.before.length + 1) =
      (chain.raw ++ h.before ++ [versionstampCode]).length := by
    simp
  have hten : (stamp.bytes ++ h.after).take 10 = stamp.bytes.take 10 :=
    List.take_append_of_le_length (by simp [stamp.length_eq])
  rw [hlength, ← hhead]
  refine ⟨⟨by simp, ?_⟩, ?_, ?_⟩
  · simp
  · rw [List.drop_left, hten, take_bytes_of_incomplete hstamp]
  · intro transaction
    refine ⟨Subspace.ofTuple chain.raw (fillTuple transaction chain.tuple), ?_, ?_⟩
    · rw [SubspaceChain.build_ok_iff]
      simp [firstRejection_fillTuple, hchain]
    · have hafter : (stamp.bytes ++ h.after).drop 10 = stamp.bytes.drop 10 ++ h.after :=
        List.drop_append_of_le_length (by simp [stamp.length_eq])
      have hfilled := h.filled_eq transaction
      simp only [fillTuple_append, encodeTuple_append, Versionstamp.fill, hstamp,
        Bool.false_eq_true, if_false] at hfilled
      rw [Subspace.pack_ok_iff, firstRejection_fillTuple]
      refine ⟨ht, ?_⟩
      rw [List.take_left, ← List.drop_drop, List.drop_left, hafter]
      simp only [Subspace.ofTuple, List.append_assoc, hfilled]
      simp

/--
A key is packed as by `pack` when no versionstamp of the chain and of the tuple is incomplete,
with the offset of its placeholder behind it when one is, and not at all when several are.  An
offset that needs more than four bytes is refused.
-/
theorem Subspace.packWithVersionstamp_offset (chain : SubspaceChain) (tuple : Tuple)
    {subspace : Subspace} (h : chain.build = .ok subspace) :
    match incompleteStamps (chain.tuple ++ tuple) with
    | [] => subspace.packWithVersionstamp tuple = subspace.pack tuple
    | [_] =>
      (∀ e, subspace.pack tuple = .error e → subspace.packWithVersionstamp tuple = .error e) ∧
        ∀ key, subspace.pack tuple = .ok key → ∃ offset, StampAt chain tuple key offset ∧
          subspace.packWithVersionstamp tuple =
            if offset > maxOffset then .error ⟨.pack, "versionstamp offset exceeds 32 bits"⟩
            else .ok (key ++ (toBigEndian 4 offset).reverse)
    | _ => ∃ e, subspace.packWithVersionstamp tuple = .error e := by
  obtain ⟨hchain, rfl⟩ := (chain.build_ok_iff subspace).mp h
  cases ht : firstRejection tuple with
  | some e =>
      have hpack : (Subspace.ofTuple chain.raw chain.tuple).pack tuple = .error e := by
        rw [Subspace.pack_eq, ht]
      have hstamp : (Subspace.ofTuple chain.raw chain.tuple).packWithVersionstamp tuple =
          .error e := by
        rw [packWithVersionstamp, packTrackedSync_eq, ht]
        rfl
      rw [hpack, hstamp]
      split
      · rfl
      · refine ⟨fun e' he => he, ?_⟩
        intro key hkey
        cases hkey
      · exact ⟨e, rfl⟩
  | none =>
      have hlength := length_stampOffsetsOf false (chain.tuple ++ tuple)
      have hpack : (Subspace.ofTuple chain.raw chain.tuple).pack tuple =
          .ok (chain.raw ++ encodeTuple false (chain.tuple ++ tuple)) := by
        rw [Subspace.pack_ok_iff]
        simp [ht, Subspace.ofTuple, encodeTuple_append]
      rw [hpack, Subspace.packWithVersionstamp_eq _ _ _ ht, Subspace.ofTuple]
      split
      · rename_i hnone
        rw [hnone, List.length_nil, List.length_eq_zero_iff] at hlength
        rw [hlength]
        rfl
      · rename_i stamp hone
        have hstamp : stamp.isComplete = false := by
          have hmem : stamp ∈ incompleteStamps (chain.tuple ++ tuple) := by simp [hone]
          simpa using (List.mem_filter.mp hmem).2
        obtain ⟨hplace⟩ := placeholder_encodeTuple false (chain.tuple ++ tuple) hone
        constructor
        · intro e he
          cases he
        intro key hkey
        cases hkey
        have hoffsets := congrArg (List.map (chain.raw.length + ·)) hplace.offsets_eq
        refine ⟨_, stampAt_of_placeholder hstamp hchain ht hplace, ?_⟩
        simp only [hoffsets]
        rfl
      · rename_i hne hne'
        refine ⟨⟨.pack, "tuple contains multiple incomplete versionstamps"⟩, ?_⟩
        match hoffsets : stampOffsetsOf false (chain.tuple ++ tuple) with
        | [] =>
            rw [hoffsets] at hlength
            exact absurd (List.length_eq_zero_iff.mp hlength.symm) hne
        | [offset] =>
            rw [hoffsets] at hlength
            obtain ⟨stamp, hone⟩ := List.length_eq_one_iff.mp hlength.symm
            exact absurd hone (hne' stamp)
        | _ :: _ :: _ => rfl

theorem Subspace.packWithVersionstamp_offset_nested :
    ∃ offset, StampAt (.fromBytes [0x50]) [.tuple [.null, .versionstamp (.incomplete 7)]]
        ([0x50, 0x05, 0x00, 0xff, 0x33] ++ List.replicate 10 0xff ++ [0x00, 0x07, 0x00]) offset ∧
      (Subspace.fromBytes [0x50]).packWithVersionstamp
        [.tuple [.null, .versionstamp (.incomplete 7)]] =
        if offset > maxOffset then .error ⟨.pack, "versionstamp offset exceeds 32 bits"⟩
        else .ok ([0x50, 0x05, 0x00, 0xff, 0x33] ++ List.replicate 10 0xff ++ [0x00, 0x07, 0x00] ++
          (toBigEndian 4 offset).reverse) := by
  have hbuild : (SubspaceChain.fromBytes [0x50]).build = .ok (Subspace.fromBytes [0x50]) := rfl
  have h := Subspace.packWithVersionstamp_offset (.fromBytes [0x50])
    [.tuple [.null, .versionstamp (.incomplete 7)]] hbuild
  have hone : incompleteStamps ((SubspaceChain.fromBytes [0x50]).tuple ++
      [.tuple [.null, .versionstamp (.incomplete 7)]]) = [.incomplete 7] := by decide
  rw [hone] at h
  exact h.2 _ (by decide)

/-- Behind four gigabytes of prefix the one placeholder has no four-byte offset. -/
theorem Subspace.packWithVersionstamp_beyond :
    incompleteStamps ((SubspaceChain.fromBytes (List.replicate (2 ^ 32) 0)).tuple ++
        [.versionstamp (.incomplete 0)]) = [.incomplete 0] ∧
      (SubspaceChain.fromBytes (List.replicate (2 ^ 32) 0)).build =
        .ok (Subspace.fromBytes (List.replicate (2 ^ 32) 0)) ∧
      (Subspace.fromBytes (List.replicate (2 ^ 32) 0)).packWithVersionstamp
        [.versionstamp (.incomplete 0)] =
        .error ⟨.pack, "versionstamp offset exceeds 32 bits"⟩ := by
  have hbeyond (raw : Bytes) (h : raw.length = 2 ^ 32) :
      (Subspace.fromBytes raw).packWithVersionstamp [.versionstamp (.incomplete 0)] =
        .error ⟨.pack, "versionstamp offset exceeds 32 bits"⟩ := by
    have hraw : Subspace.fromBytes raw = Subspace.ofTuple raw [] := by
      simp [Subspace.fromBytes, Subspace.ofTuple, encodeTuple, stampOffsetsOf]
    have hoffsets : stampOffsetsOf false [.versionstamp (.incomplete 0)] = [1] := by decide
    rw [hraw, Subspace.packWithVersionstamp_eq _ _ _ (by decide), Subspace.ofTuple,
      List.nil_append, hoffsets]
    simp [appendVersionstampOffset, h, maxOffset]
  exact ⟨by rfl, rfl, hbeyond _ List.length_replicate⟩

end FoundationDbEffect.TupleLayer
