import FoundationDbEffect.Tuple.Canonical

/-!
# Doubles in a JavaScript engine

A `number` so far is the bit pattern that a packing spells.  The codec holds it as a JavaScript
number, moved by `getFloat64` and `setFloat64`, and these keep the bits of every double but a NaN:
the language has one NaN, and an engine chooses the encoding it writes and what it keeps of the
encoding it reads.  The engine is a parameter here; its `pack` and `unpack` are those of the codec
with the two calls put around every double.
-/

namespace FoundationDbEffect.TupleLayer

open FoundationDbEffect.Foundation

/-! ## NaN encodings -/

/-- All bits of the exponent and some bit of the fraction are set. -/
def IsNaN (bits : UInt64) : Prop :=
  bits &&& 0x7ff0000000000000 = 0x7ff0000000000000 ∧ bits &&& 0x000fffffffffffff ≠ 0

instance instDecidableIsNaN (bits : UInt64) : Decidable (IsNaN bits) :=
  inferInstanceAs (Decidable (_ ∧ _))

/-- What an engine does to the bits of a double: `getFloat64` from the bytes to the number that
the tuple holds, `setFloat64` back to bytes.  A NaN stays a NaN and nothing else changes. -/
structure Engine where
  getFloat64 : UInt64 → UInt64
  setFloat64 : UInt64 → UInt64
  getFloat64_eq : ∀ bits, ¬IsNaN bits → getFloat64 bits = bits
  setFloat64_eq : ∀ bits, ¬IsNaN bits → setFloat64 bits = bits
  getFloat64_isNaN : ∀ bits, IsNaN bits → IsNaN (getFloat64 bits)
  setFloat64_isNaN : ∀ bits, IsNaN bits → IsNaN (setFloat64 bits)

def quiet (bits : UInt64) : UInt64 :=
  if IsNaN bits then bits ||| 0x0008000000000000 else bits

theorem quiet_isNaN {bits : UInt64} (h : IsNaN bits) : IsNaN (quiet bits) := by
  rw [quiet, if_pos h]
  have hmask (mask : UInt64) : (bits ||| 0x0008000000000000) &&& mask =
      bits &&& mask ||| 0x0008000000000000 &&& mask := by
    simp [← UInt64.toBitVec_inj, BitVec.and_or_distrib_right]
  constructor
  · rw [hmask, h.1]
    rfl
  · intro hzero
    rw [hmask, UInt64.or_eq_zero_iff] at hzero
    exact absurd hzero.2 (by decide)

/-- An engine that sets the quiet bit of a NaN whenever it moves one. -/
def quieting : Engine where
  getFloat64 := quiet
  setFloat64 := quiet
  getFloat64_eq := fun _ h => if_neg h
  setFloat64_eq := fun _ h => if_neg h
  getFloat64_isNaN := fun _ => quiet_isNaN
  setFloat64_isNaN := fun _ => quiet_isNaN

/-- An engine that reads every NaN as it is and writes all of them as one. -/
def replacing (nan : UInt64) (h : IsNaN nan) : Engine where
  getFloat64 := id
  setFloat64 := fun bits => if IsNaN bits then nan else bits
  getFloat64_eq := fun _ _ => rfl
  setFloat64_eq := fun _ h => if_neg h
  getFloat64_isNaN := fun _ h => h
  setFloat64_isNaN := fun bits hbits => by rw [if_pos hbits]; exact h

theorem exists_other_nan (bits : UInt64) : ∃ nan, IsNaN nan ∧ nan ≠ bits := by
  by_cases h : bits = 0x7ff8000000000000
  · exact ⟨0x7ff8000000000001, by decide, by rw [h]; decide⟩
  · exact ⟨0x7ff8000000000000, by decide, Ne.symm h⟩

/-! ## The doubles of a tuple -/

mutual

def TupleValue.mapNumbers (f : UInt64 → UInt64) : TupleValue → TupleValue
  | .number bits => .number (f bits)
  | .tuple children => .tuple (mapNumbers f children)
  | .null => .null
  | .boolean value => .boolean value
  | .bytes value => .bytes value
  | .string value => .string value
  | .integer value => .integer value
  | .float32 value => .float32 value
  | .uuid value => .uuid value
  | .versionstamp value => .versionstamp value

/-- Every double of a tuple replaced by its image, at any depth. -/
def mapNumbers (f : UInt64 → UInt64) : List TupleValue → List TupleValue
  | [] => []
  | value :: rest => value.mapNumbers f :: mapNumbers f rest

end

mutual

theorem TupleValue.mapNumbers_comp (g f : UInt64 → UInt64) (v : TupleValue) :
    (v.mapNumbers f).mapNumbers g = v.mapNumbers (g ∘ f) := by
  cases v with
  | tuple children =>
      simp only [TupleValue.mapNumbers, mapNumbers_comp g f children]
  | _ => rfl

theorem mapNumbers_comp (g f : UInt64 → UInt64) (t : Tuple) :
    mapNumbers g (mapNumbers f t) = mapNumbers (g ∘ f) t := by
  cases t with
  | nil => rfl
  | cons v t =>
      simp only [mapNumbers, TupleValue.mapNumbers_comp g f v, mapNumbers_comp g f t]

end

mutual

theorem rejection_mapNumbers (f : UInt64 → UInt64) (v : TupleValue) :
    rejection (v.mapNumbers f) = rejection v := by
  cases v with
  | tuple children =>
      simp only [TupleValue.mapNumbers, rejection, firstRejection_mapNumbers f children]
  | _ => rfl

theorem firstRejection_mapNumbers (f : UInt64 → UInt64) (t : Tuple) :
    firstRejection (mapNumbers f t) = firstRejection t := by
  cases t with
  | nil => rfl
  | cons v t =>
      simp only [mapNumbers, firstRejection, rejection_mapNumbers f v,
        firstRejection_mapNumbers f t]

end

mutual

theorem length_encodeValue_mapNumbers (f : UInt64 → UInt64) (nested : Bool) (v : TupleValue) :
    (encodeValue nested (v.mapNumbers f)).length = (encodeValue nested v).length := by
  cases v with
  | number bits => simp [TupleValue.mapNumbers, encodeValue]
  | tuple children =>
      simp [TupleValue.mapNumbers, encodeValue, length_encodeTuple_mapNumbers f true children]
  | _ => rfl

theorem length_encodeTuple_mapNumbers (f : UInt64 → UInt64) (nested : Bool) (t : Tuple) :
    (encodeTuple nested (mapNumbers f t)).length = (encodeTuple nested t).length := by
  cases t with
  | nil => rfl
  | cons v t =>
      simp [mapNumbers, encodeTuple, length_encodeValue_mapNumbers f nested v,
        length_encodeTuple_mapNumbers f nested t]

end

mutual

def TupleValue.doubles : TupleValue → List UInt64
  | .number bits => [bits]
  | .tuple children => doublesOf children
  | _ => []

def doublesOf : List TupleValue → List UInt64
  | [] => []
  | value :: rest => value.doubles ++ doublesOf rest

end

mutual

theorem TupleValue.mapNumbers_eq_self_iff (f : UInt64 → UInt64) (v : TupleValue) :
    v.mapNumbers f = v ↔ ∀ bits ∈ v.doubles, f bits = bits := by
  cases v with
  | number bits => simp [TupleValue.mapNumbers, TupleValue.doubles]
  | tuple children =>
      simp only [TupleValue.mapNumbers, TupleValue.doubles, TupleValue.tuple.injEq,
        mapNumbers_eq_self_iff f children]
  | _ => simp [TupleValue.mapNumbers, TupleValue.doubles]

theorem mapNumbers_eq_self_iff (f : UInt64 → UInt64) (t : Tuple) :
    mapNumbers f t = t ↔ ∀ bits ∈ doublesOf t, f bits = bits := by
  cases t with
  | nil => simp [mapNumbers, doublesOf]
  | cons v t =>
      simp only [mapNumbers, doublesOf, List.cons.injEq, List.forall_mem_append,
        TupleValue.mapNumbers_eq_self_iff f v, mapNumbers_eq_self_iff f t]

end

mutual

theorem TupleValue.doubles_mapNumbers (f : UInt64 → UInt64) (v : TupleValue) :
    (v.mapNumbers f).doubles = v.doubles.map f := by
  cases v with
  | number bits => rfl
  | tuple children =>
      simp only [TupleValue.mapNumbers, TupleValue.doubles, doublesOf_mapNumbers f children]
  | _ => rfl

theorem doublesOf_mapNumbers (f : UInt64 → UInt64) (t : Tuple) :
    doublesOf (mapNumbers f t) = (doublesOf t).map f := by
  cases t with
  | nil => rfl
  | cons v t =>
      simp only [mapNumbers, doublesOf, List.map_append, TupleValue.doubles_mapNumbers f v,
        doublesOf_mapNumbers f t]

end

theorem occurs_mapNumbers_rejected (f : UInt64 → UInt64) (t : Tuple) :
    (∀ v, Occurs v (mapNumbers f t) → ¬v.Rejected) ↔ ∀ v, Occurs v t → ¬v.Rejected := by
  rw [← firstRejection_eq_none_iff_occurs, firstRejection_mapNumbers,
    firstRejection_eq_none_iff_occurs]

/-! ## Packing and unpacking in an engine -/

namespace Engine

/-- `appendDouble` writes what `setFloat64` makes of each double. -/
def pack (engine : Engine) (t : Tuple) : Except TupleError Bytes :=
  TupleLayer.pack (mapNumbers engine.setFloat64 t)

/-- `readDouble` gives what `getFloat64` makes of each double. -/
def unpack (engine : Engine) (bytes : Bytes) : Option (Except TupleError Tuple) :=
  (TupleLayer.unpack bytes).map fun result => result.map (mapNumbers engine.getFloat64)

/-- A tuple without a rejected element is packed and read back, kinds and bits preserved, and
packing fails on no other tuple. -/
def RoundTrips (engine : Engine) (t : Tuple) : Prop :=
  ((∀ v, Occurs v t → ¬v.Rejected) →
    ∃ bytes, engine.pack t = .ok bytes ∧ engine.unpack bytes = some (.ok t)) ∧
  ((∃ e, engine.pack t = .error e) ↔ ∃ v, Occurs v t ∧ v.Rejected)

theorem unpack_eq_ok_iff (engine : Engine) (bytes : Bytes) (t : Tuple) :
    engine.unpack bytes = some (.ok t) ↔
      ∃ spelled, TupleLayer.unpack bytes = some (.ok spelled) ∧
        mapNumbers engine.getFloat64 spelled = t := by
  rw [unpack, Option.map_eq_some_iff]
  constructor
  · rintro ⟨result, hresult, hmap⟩
    cases result with
    | error e => cases hmap
    | ok spelled => exact ⟨spelled, hresult, by simpa [Except.map] using hmap⟩
  · rintro ⟨spelled, hspelled, rfl⟩
    exact ⟨_, hspelled, rfl⟩

theorem unpack_of_pack (engine : Engine) {t : Tuple} (h : ∀ v, Occurs v t → ¬v.Rejected) :
    ∃ bytes, engine.pack t = .ok bytes ∧
      engine.unpack bytes = some (.ok (mapNumbers (engine.getFloat64 ∘ engine.setFloat64) t)) := by
  obtain ⟨bytes, hpack, hunpack⟩ := (unpack_pack (mapNumbers engine.setFloat64 t)).1
    ((occurs_mapNumbers_rejected engine.setFloat64 t).mpr h)
  refine ⟨bytes, hpack, ?_⟩
  rw [unpack_eq_ok_iff]
  exact ⟨_, hunpack, mapNumbers_comp _ _ t⟩

theorem pack_fails_iff (engine : Engine) (t : Tuple) :
    (∃ e, engine.pack t = .error e) ↔ ∃ v, Occurs v t ∧ v.Rejected := by
  have hoccurs := (occurs_mapNumbers_rejected engine.setFloat64 t).not
  push Not at hoccurs
  rw [pack, (unpack_pack (mapNumbers engine.setFloat64 t)).2, hoccurs]

theorem roundTrips_iff (engine : Engine) (t : Tuple) :
    engine.RoundTrips t ↔ (∃ v, Occurs v t ∧ v.Rejected) ∨
      ∀ bits ∈ doublesOf t, engine.getFloat64 (engine.setFloat64 bits) = bits := by
  rw [RoundTrips, iff_true_intro (engine.pack_fails_iff t), and_true]
  by_cases h : ∃ v, Occurs v t ∧ v.Rejected
  · obtain ⟨v, hv, hrejected⟩ := h
    exact iff_of_true (fun hnone => absurd hrejected (hnone v hv)) (.inl ⟨v, hv, hrejected⟩)
  · have hnone : ∀ v, Occurs v t → ¬v.Rejected := fun v hv hrejected => h ⟨v, hv, hrejected⟩
    obtain ⟨bytes, hpack, hunpack⟩ := engine.unpack_of_pack hnone
    have hsame := mapNumbers_eq_self_iff (engine.getFloat64 ∘ engine.setFloat64) t
    simp only [Function.comp_apply] at hsame
    rw [or_iff_right h, ← hsame]
    constructor
    · intro hround
      obtain ⟨bytes', hpack', hunpack'⟩ := hround hnone
      obtain rfl : bytes = bytes' := by simpa [hpack] using hpack'
      simpa [hunpack] using hunpack'
    · intro heq _
      exact ⟨bytes, hpack, by rw [hunpack, heq]⟩

/-- What repacking a byte string that spells `elements` is to give: the tuple that was read is
packed and read back, in no more bytes, and in the same bytes exactly when every integer in them
is in canonical form. -/
def Reencodes (engine : Engine) (bytes : Bytes) (elements : List Element) : Prop :=
  ∃ t packed, engine.unpack bytes = some (.ok t) ∧ engine.pack t = .ok packed ∧
    engine.unpack packed = some (.ok t) ∧ packed.length ≤ bytes.length ∧
    (packed = bytes ↔ CanonicalAll elements)

end Engine

theorem encodeTuple_inj {t t' : Tuple} (h : firstRejection t = none)
    (h' : firstRejection t' = none) (heq : encodeTuple false t = encodeTuple false t') :
    t = t' := by
  have hread := unpack_encodeTuple t h
  rw [heq, unpack_encodeTuple t' h'] at hread
  simpa using hread.symm

namespace Engine

/-- The bytes of a tuple whose doubles were moved through the engine are those that were read
exactly when the integers are canonical and no double has changed. -/
theorem encodeTuple_mapNumbers_eq_iff (f : UInt64 → UInt64) {bytes : Bytes} {spelled : Tuple}
    {elements : List Element} (h : Spells bytes spelled elements) :
    encodeTuple false (mapNumbers f spelled) = bytes ↔
      CanonicalAll elements ∧ ∀ bits ∈ doublesOf spelled, f bits = bits := by
  have hrejection : firstRejection spelled = none := by
    rw [← h.values_eq]
    exact firstRejection_valuesOf h.valid
  have hcanonical (hforms : CanonicalAll elements) : encodeTuple false spelled = bytes := by
    rw [← h.values_eq, encodeTuple_of_canonical false h.valid hforms, h.spell_eq]
  constructor
  · intro heq
    have hforms : CanonicalAll elements := by
      refine (length_encodeTuple_le false h.valid).2 ?_
      rw [h.spell_eq, h.values_eq, ← length_encodeTuple_mapNumbers f, heq]
    refine ⟨hforms, (mapNumbers_eq_self_iff f spelled).mp ?_⟩
    refine encodeTuple_inj ?_ hrejection (heq.trans (hcanonical hforms).symm)
    rw [firstRejection_mapNumbers, hrejection]
  · rintro ⟨hforms, hsame⟩
    rw [(mapNumbers_eq_self_iff f spelled).mpr hsame, hcanonical hforms]

theorem reencodes_iff (engine : Engine) {bytes : Bytes} {spelled : Tuple}
    {elements : List Element} (hunpack : TupleLayer.unpack bytes = some (.ok spelled))
    (h : Spells bytes spelled elements) :
    engine.Reencodes bytes elements ↔ ∀ bits ∈ doublesOf spelled,
      engine.getFloat64 (engine.setFloat64 (engine.getFloat64 bits)) = engine.getFloat64 bits ∧
        (CanonicalAll elements → engine.setFloat64 (engine.getFloat64 bits) = bits) := by
  have hread : engine.unpack bytes = some (.ok (mapNumbers engine.getFloat64 spelled)) :=
    (engine.unpack_eq_ok_iff _ _).mpr ⟨spelled, hunpack, rfl⟩
  have haccepted : ∀ v, Occurs v spelled → ¬v.Rejected := by
    rw [← firstRejection_eq_none_iff_occurs, ← h.values_eq]
    exact firstRejection_valuesOf h.valid
  obtain ⟨packed, hpack, hback⟩ := engine.unpack_of_pack
    ((occurs_mapNumbers_rejected engine.getFloat64 spelled).mpr haccepted)
  have hpacked : packed = encodeTuple false
      (mapNumbers (engine.setFloat64 ∘ engine.getFloat64) spelled) := by
    rw [← mapNumbers_comp]
    exact ((pack_ok_iff _ _).mp hpack).2
  have hlength : packed.length ≤ bytes.length := by
    rw [hpacked, length_encodeTuple_mapNumbers, ← h.values_eq, ← h.spell_eq]
    exact (length_encodeTuple_le false h.valid).1
  have hsame := mapNumbers_eq_self_iff (engine.getFloat64 ∘ engine.setFloat64)
    (mapNumbers engine.getFloat64 spelled)
  have hbytes := encodeTuple_mapNumbers_eq_iff (engine.setFloat64 ∘ engine.getFloat64) h
  rw [← hpacked] at hbytes
  simp only [doublesOf_mapNumbers, List.forall_mem_map, Function.comp_apply] at hsame hbytes
  constructor
  · rintro ⟨t, packed', ht, hpack', hback', -, hcanonical⟩
    obtain rfl : mapNumbers engine.getFloat64 spelled = t := by simpa [hread] using ht
    obtain rfl : packed = packed' := by simpa [hpack] using hpack'
    have heq : mapNumbers (engine.getFloat64 ∘ engine.setFloat64)
        (mapNumbers engine.getFloat64 spelled) = mapNumbers engine.getFloat64 spelled := by
      simpa [hback] using hback'
    intro bits hbits
    exact ⟨hsame.mp heq bits hbits, fun hforms => (hbytes.mp (hcanonical.mpr hforms)).2 bits hbits⟩
  · intro hdoubles
    refine ⟨_, packed, hread, hpack, ?_, hlength, ?_⟩
    · rw [hback, hsame.mpr fun bits hbits => (hdoubles bits hbits).1]
    · rw [hbytes]
      exact and_iff_left_of_imp fun hforms bits hbits => (hdoubles bits hbits).2 hforms

end Engine

/-! ## What an engine may change -/

/-- A tuple goes through an engine unchanged exactly when each of its doubles is read as it is
after it was written, and through every engine exactly when none of them is a NaN. -/
theorem roundTrips_exact (t : Tuple) :
    (∀ engine : Engine, engine.RoundTrips t ↔ (∃ v, Occurs v t ∧ v.Rejected) ∨
      ∀ bits ∈ doublesOf t, engine.getFloat64 (engine.setFloat64 bits) = bits) ∧
    ((∀ engine : Engine, engine.RoundTrips t) ↔ (∃ v, Occurs v t ∧ v.Rejected) ∨
      ∀ bits ∈ doublesOf t, ¬IsNaN bits) := by
  refine ⟨fun engine => engine.roundTrips_iff t, ?_, ?_⟩
  · intro h
    by_cases hrejected : ∃ v, Occurs v t ∧ v.Rejected
    · exact .inl hrejected
    · refine .inr fun bits hbits hnan => ?_
      obtain ⟨nan, hother, hne⟩ := exists_other_nan bits
      have hsame := (((replacing nan hother).roundTrips_iff t).mp (h _)).resolve_left hrejected
      exact hne (by simpa [replacing, hnan] using hsame bits hbits)
  · intro h engine
    refine (engine.roundTrips_iff t).mpr (h.imp id fun hdoubles bits hbits => ?_)
    rw [engine.setFloat64_eq _ (hdoubles bits hbits), engine.getFloat64_eq _ (hdoubles bits hbits)]

theorem not_roundTrips_signalling :
    quieting.pack [.number 0x7ff0000000000001] =
        .ok [0x21, 0xff, 0xf8, 0x00, 0x00, 0x00, 0x00, 0x00, 0x01] ∧
      quieting.unpack [0x21, 0xff, 0xf8, 0x00, 0x00, 0x00, 0x00, 0x00, 0x01] =
        some (.ok [.number 0x7ff8000000000001]) ∧
      ¬quieting.RoundTrips [.number 0x7ff0000000000001] := by
  have hpack : quieting.pack [.number 0x7ff0000000000001] =
      .ok [0x21, 0xff, 0xf8, 0x00, 0x00, 0x00, 0x00, 0x00, 0x01] := by rfl
  have hunpack : quieting.unpack [0x21, 0xff, 0xf8, 0x00, 0x00, 0x00, 0x00, 0x00, 0x01] =
      some (.ok [.number 0x7ff8000000000001]) := by rfl
  refine ⟨hpack, hunpack, fun h => ?_⟩
  obtain ⟨bytes, hbytes, hback⟩ := h.1 ((firstRejection_eq_none_iff_occurs _).mp rfl)
  rw [hpack, Except.ok.injEq] at hbytes
  rw [← hbytes, hunpack] at hback
  simp at hback

/-- The parser ends on every byte string.  A tuple that it reads is spelled by one list of
elements; repacking it does what it is to do in an engine exactly when no double of the spelling
changes on the way, and in every engine exactly when none of them is a NaN. -/
theorem reencodes_exact (bytes : Bytes) :
    (∀ engine : Engine, (engine.unpack bytes).isSome = true) ∧
    ∀ spelled, unpack bytes = some (.ok spelled) →
      ∃ elements, Spells bytes spelled elements ∧
        (∀ elements', Spells bytes spelled elements' → elements' = elements) ∧
        (∀ engine : Engine, engine.Reencodes bytes elements ↔
          ∀ bits ∈ doublesOf (valuesOf elements),
            engine.getFloat64 (engine.setFloat64 (engine.getFloat64 bits)) =
              engine.getFloat64 bits ∧
            (CanonicalAll elements → engine.setFloat64 (engine.getFloat64 bits) = bits)) ∧
        ((∀ engine : Engine, engine.Reencodes bytes elements) ↔
          ∀ bits ∈ doublesOf (valuesOf elements), ¬IsNaN bits) := by
  refine ⟨fun engine => ?_, fun spelled h => ?_⟩
  · rw [Engine.unpack, Option.isSome_map]
    exact pack_of_unpack.1 bytes
  · obtain ⟨elements, -, hspells, hunique, -⟩ := pack_of_unpack.2 bytes spelled h
    refine ⟨elements, hspells, hunique, fun engine => ?_, ?_, ?_⟩
    · rw [hspells.values_eq]
      exact engine.reencodes_iff h hspells
    · intro hall bits hbits hnan
      rw [hspells.values_eq] at hbits
      obtain ⟨nan, hother, hne⟩ := exists_other_nan bits
      have hsame := ((replacing nan hother).reencodes_iff h hspells).mp (hall _) bits hbits
      exact hne (by simpa [replacing, hnan] using hsame.1)
    · intro hdoubles engine
      rw [engine.reencodes_iff h hspells]
      intro bits hbits
      have hbits' := hdoubles bits (by rwa [hspells.values_eq])
      rw [engine.getFloat64_eq _ hbits', engine.setFloat64_eq _ hbits',
        engine.getFloat64_eq _ hbits']
      exact ⟨rfl, fun _ => rfl⟩

theorem reencodes_exact_wide :
    ∃ elements, Spells [0x05, 0x16, 0x00, 0x05, 0x21, 0xbf, 0xf0, 0, 0, 0, 0, 0, 0, 0x00]
        [.tuple [.integer 5, .number 0x3ff0000000000000]] elements ∧
      ¬CanonicalAll elements ∧
      ∀ engine : Engine, engine.Reencodes
        [0x05, 0x16, 0x00, 0x05, 0x21, 0xbf, 0xf0, 0, 0, 0, 0, 0, 0, 0x00] elements := by
  obtain ⟨elements, hspells, hunique, -, hall⟩ :=
    (reencodes_exact [0x05, 0x16, 0x00, 0x05, 0x21, 0xbf, 0xf0, 0, 0, 0, 0, 0, 0, 0x00]).2
      [.tuple [.integer 5, .number 0x3ff0000000000000]] (by rfl)
  have helements := hunique
    [.tuple [.integer (.small false [0x00, 0x05]), .leaf (.number 0x3ff0000000000000)]]
    ⟨by simp [ValidAll, Element.Valid, IntegerForm.Valid, maxSmallIntegerBytes,
      TupleValue.IsLeaf, rejection],
      by rfl, by rfl⟩
  refine ⟨elements, hspells, ?_, hall.mpr ?_⟩
  · rw [← helements]
    simp [CanonicalAll, Element.Canonical, IntegerForm.Canonical]
  · have hdoubles : doublesOf [.tuple [.integer 5, .number 0x3ff0000000000000]] =
        [0x3ff0000000000000] := by rfl
    rw [hspells.values_eq, hdoubles, List.forall_mem_singleton]
    decide

theorem not_reencodes_signalling :
    Spells [0x21, 0xff, 0xf0, 0x00, 0x00, 0x00, 0x00, 0x00, 0x01]
        [.number 0x7ff0000000000001] [.leaf (.number 0x7ff0000000000001)] ∧
      CanonicalAll [.leaf (.number 0x7ff0000000000001)] ∧
      quieting.unpack [0x21, 0xff, 0xf0, 0x00, 0x00, 0x00, 0x00, 0x00, 0x01] =
        some (.ok [.number 0x7ff8000000000001]) ∧
      quieting.pack [.number 0x7ff8000000000001] =
        .ok [0x21, 0xff, 0xf8, 0x00, 0x00, 0x00, 0x00, 0x00, 0x01] ∧
      ¬quieting.Reencodes [0x21, 0xff, 0xf0, 0x00, 0x00, 0x00, 0x00, 0x00, 0x01]
        [.leaf (.number 0x7ff0000000000001)] := by
  have hunpack : quieting.unpack [0x21, 0xff, 0xf0, 0x00, 0x00, 0x00, 0x00, 0x00, 0x01] =
      some (.ok [.number 0x7ff8000000000001]) := by rfl
  have hpack : quieting.pack [.number 0x7ff8000000000001] =
      .ok [0x21, 0xff, 0xf8, 0x00, 0x00, 0x00, 0x00, 0x00, 0x01] := by rfl
  have hcanonical : CanonicalAll [.leaf (.number 0x7ff0000000000001)] := ⟨trivial, trivial⟩
  refine ⟨⟨⟨by rfl, trivial⟩, by rfl, by rfl⟩, hcanonical, hunpack, hpack, ?_⟩
  rintro ⟨t, packed, ht, hpacked, -, -, heq⟩
  rw [hunpack, Option.some.injEq, Except.ok.injEq] at ht
  rw [← ht, hpack, Except.ok.injEq] at hpacked
  have hsame := heq.mpr hcanonical
  rw [← hpacked] at hsame
  exact absurd hsame (by decide)

end FoundationDbEffect.TupleLayer
