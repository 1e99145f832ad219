import FoundationDbEffect.Foundation.PagedScan
import FoundationDbEffect.Persistence.ChunkedValue
import FoundationDbEffect.Tuple.Order
import FoundationDbEffect.Tuple.Subspace

/-!
# Chunked values under packed keys

The rows of a chunked value are keys of a subspace: its path, packed, with the index of a chunk
behind it. The indexes are ordered like their packings, and the range of a path holds the keys of
no path beside it, so that a value is read as it was written, and alone.
-/

namespace FoundationDbEffect.Persistence.PackedChunks

open FoundationDbEffect.Foundation FoundationDbEffect.Foundation.ByteOrder
open FoundationDbEffect.TupleLayer

abbrev Rows := OrderedMap Bytes Bytes

def chunkedValueRange (subspace : Subspace) (path : Tuple) : Except TupleError (Bytes → Bool) := do
  let (begin, stop) ← subspace.range path
  .ok (interval begin stop)

def readChunkedValue (subspace : Subspace) (path : Tuple) (rows : Rows) :
    Except TupleError (Option Bytes) := do
  let range ← chunkedValueRange subspace path
  let rows := rows.rows range
  .ok (if rows.length = 0 then none else some (concatChunks (rows.map Prod.snd)))

def hasChunkedValue (subspace : Subspace) (path : Tuple) (rows : Rows) :
    Except TupleError Bool := do
  let range ← chunkedValueRange subspace path
  let rows := (rows.rows range).take 1
  .ok (rows.length ≠ 0)

/-- One round of the loop over the chunks of a value. -/
def setChunk (subspace : Subspace) (path : Tuple) (rows : Rows) (entry : Bytes × Nat) :
    Except TupleError Rows := do
  let (chunk, index) := entry
  let key ← subspace.pack (path ++ [.integer index])
  .ok (rows.set key chunk)

def writeChunkedValue (subspace : Subspace) (path : Tuple) (value : Bytes) (rows : Rows) :
    Except TupleError Rows := do
  let range ← chunkedValueRange subspace path
  let chunks := splitChunkedValue value
  chunks.zipIdx.foldlM (setChunk subspace path) (rows.clearRange range)

def clearChunkedValue (subspace : Subspace) (path : Tuple) (rows : Rows) :
    Except TupleError Rows := do
  let range ← chunkedValueRange subspace path
  .ok (rows.clearRange range)

/-! ## Keys of a path -/

def pathKey (subspace : Subspace) (path : Tuple) : Bytes :=
  subspace.prefixBytes ++ encodeTuple false path

def pathRange (subspace : Subspace) (path : Tuple) : Bytes → Bool :=
  interval (pathKey subspace path ++ [0x00]) (pathKey subspace path ++ [0xff])

def chunkKey (subspace : Subspace) (path : Tuple) (index : Nat) : Bytes :=
  pathKey subspace path ++ encodeInteger index

section Keys

variable {subspace : Subspace} {path path' : Tuple}

theorem chunkedValueRange_eq_ok {range : Bytes → Bool} :
    chunkedValueRange subspace path = .ok range ↔
      firstRejection path = none ∧ range = pathRange subspace path := by
  unfold chunkedValueRange Subspace.range
  rw [subspace.pack_eq]
  cases firstRejection path with
  | some error => simp [bind, Except.bind]
  | none => simp [bind, Except.bind, pathRange, pathKey, eq_comm]

theorem pack_index {index : Nat} {key : Bytes} :
    subspace.pack (path ++ [.integer index]) = .ok key ↔
      (firstRejection path = none ∧ rejection (.integer index) = none) ∧
        key = chunkKey subspace path index := by
  rw [subspace.pack_ok_iff, firstRejection_append]
  have hkey : subspace.prefixBytes ++ encodeTuple false (path ++ [.integer index]) =
      chunkKey subspace path index := by
    simp [chunkKey, pathKey, encodeTuple_append, encodeTuple, encodeValue]
  rw [hkey, firstRejection_eq_none_iff [.integer _]]
  simp

theorem chunkKey_lt {left right : Nat} (h : left < right)
    (hleft : rejection (.integer left) = none) (hright : rejection (.integer right) = none) :
    chunkKey subspace path left < chunkKey subspace path right := by
  have hlt := encodeInteger_lt (Int.ofNat_lt.mpr h) hleft hright [] []
  rw [List.append_nil, List.append_nil, lexBytes_eq_lt_iff] at hlt
  exact (append_lt_append_iff _).mpr hlt

theorem lt_escape {byte : UInt8} (h : byte ≠ escapeByte) : byte < 0xff := by
  have hlt := byte.toNat_lt
  have hne : byte.toNat ≠ 255 := fun heq => h (UInt8.toNat_inj.mp heq)
  have h255 : (0xff : UInt8).toNat = 255 := rfl
  rw [UInt8.lt_iff_toNat_lt]
  omega

theorem chunkKey_mem {index : Nat} (h : rejection (.integer index) = none) :
    pathRange subspace path (chunkKey subspace path index) = true := by
  obtain ⟨byte, tail, heq, hbyte, -⟩ := encodeValue_cons false (.integer index) h
  rw [encodeValue] at heq
  refine (interval_extensions_iff _ _).mpr ⟨byte, tail, lt_escape hbyte, ?_⟩
  rw [chunkKey, heq]

theorem pathRange_extension {more : Tuple} (hmore : firstRejection more = none) {key : Bytes}
    (h : pathRange subspace (path ++ more) key = true) : pathRange subspace path key = true := by
  obtain ⟨byte, rest, hbyte, rfl⟩ := (interval_extensions_iff _ _).mp h
  refine (interval_extensions_iff _ _).mpr ?_
  rw [pathKey, encodeTuple_append, ← List.append_assoc, List.append_assoc]
  cases more with
  | nil => exact ⟨byte, rest, hbyte, rfl⟩
  | cons value more =>
      have hvalue := (firstRejection_eq_none_iff _).mp hmore value List.mem_cons_self
      obtain ⟨code, tail, heq, hcode, -⟩ := encodeValue_cons false value hvalue
      refine ⟨code, tail ++ encodeTuple false more ++ byte :: rest, lt_escape hcode, ?_⟩
      rw [encodeTuple, heq, pathKey]
      simp

theorem extension_of_mem {byte byte' : UInt8} {rest rest' more : Bytes}
    (hpath : firstRejection path = none) (hpath' : firstRejection path' = none)
    (hbyte : byte < 0xff) (hmore : encodeTuple false path' = encodeTuple false path ++ more)
    (h : byte :: rest = more ++ byte' :: rest') : path <+: path' := by
  have hfollows : Follows more := by
    cases more with
    | nil => exact follows_nil
    | cons first more =>
        rw [List.cons_append, List.cons.injEq] at h
        exact follows_cons (h.1 ▸ hbyte.ne)
  obtain ⟨extension, rfl, -⟩ := eq_append_of_encodeTuple hpath hpath' hfollows hmore
  exact List.prefix_append path extension

theorem comparable_of_mem (hpath : firstRejection path = none)
    (hpath' : firstRejection path' = none) {key : Bytes} (h : pathRange subspace path key = true)
    (h' : pathRange subspace path' key = true) : path <+: path' ∨ path' <+: path := by
  obtain ⟨byte, rest, hbyte, rfl⟩ := (interval_extensions_iff _ _).mp h
  obtain ⟨byte', rest', hbyte', heq⟩ := (interval_extensions_iff _ _).mp h'
  rw [pathKey, pathKey, List.append_assoc, List.append_assoc, List.append_cancel_left_eq,
    List.append_eq_append_iff] at heq
  rcases heq with ⟨more, hmore, hrest⟩ | ⟨more, hmore, hrest⟩
  · exact .inl (extension_of_mem hpath hpath' hbyte hmore hrest)
  · exact .inr (extension_of_mem hpath' hpath hbyte' hmore hrest)

end Keys

/-! ## Writing -/

def packedChunks (subspace : Subspace) (path : Tuple) (value : Bytes) : List (Bytes × Bytes) :=
  (splitChunkedValue value).zipIdx.map fun (chunk, index) => (chunkKey subspace path index, chunk)

section Writing

variable {subspace : Subspace} {path : Tuple}

theorem packedChunks_map_snd (value : Bytes) :
    (packedChunks subspace path value).map Prod.snd = splitChunkedValue value := by
  rw [packedChunks, List.map_map]
  exact List.zipIdx_map_fst 0 (splitChunkedValue value)

theorem setChunks_eq {entries : List (Bytes × Nat)} {rows written : Rows}
    (h : entries.foldlM (setChunk subspace path) rows = .ok written) :
    (∀ entry ∈ entries, rejection (.integer entry.2) = none) ∧
      written = (entries.map fun (chunk, index) => (chunkKey subspace path index, chunk)).foldl
        (fun rows row => rows.set row.1 row.2) rows := by
  induction entries generalizing rows with
  | nil =>
      cases h
      exact ⟨by simp, rfl⟩
  | cons entry entries ih =>
      obtain ⟨middle, hfirst, hrest⟩ := bind_eq_ok.mp h
      obtain ⟨key, hkey, hset⟩ := bind_eq_ok.mp hfirst
      obtain ⟨⟨-, hindex⟩, rfl⟩ := pack_index.mp hkey
      cases hset
      obtain ⟨hindexes, hwritten⟩ := ih hrest
      exact ⟨List.forall_mem_cons.mpr ⟨hindex, hindexes⟩, hwritten⟩

theorem packedChunks_sorted (subspace : Subspace) (path : Tuple) {value : Bytes}
    (h : ∀ entry ∈ (splitChunkedValue value).zipIdx, rejection (.integer entry.2) = none) :
    (packedChunks subspace path value).Pairwise fun left right => left.1 < right.1 := by
  have hindexes : (splitChunkedValue value).zipIdx.Pairwise fun left right => left.2 < right.2 := by
    rw [← List.pairwise_map (f := Prod.snd) (R := (· < ·)), List.zipIdx_map_snd]
    exact List.pairwise_lt_range'
  rw [packedChunks, List.pairwise_map]
  refine hindexes.imp_of_mem ?_
  intro left right hleft hright hlt
  exact chunkKey_lt hlt (h left hleft) (h right hright)

theorem get?_written {value : Bytes} {rows written : Rows}
    (h : writeChunkedValue subspace path value rows = .ok written) :
    firstRejection path = none ∧
      (∀ entry ∈ (splitChunkedValue value).zipIdx, rejection (.integer entry.2) = none) ∧
      written.rows (pathRange subspace path) = packedChunks subspace path value ∧
      ∀ key, pathRange subspace path key = false → written.get? key = rows.get? key := by
  obtain ⟨range, hrange, hchunks⟩ := bind_eq_ok.mp h
  obtain ⟨hpath, rfl⟩ := chunkedValueRange_eq_ok.mp hrange
  obtain ⟨hindexes, hwritten⟩ := setChunks_eq hchunks
  have hsorted := packedChunks_sorted subspace path hindexes
  have hmem : ∀ row ∈ packedChunks subspace path value, pathRange subspace path row.1 = true := by
    intro row hrow
    obtain ⟨entry, hentry, rfl⟩ := List.mem_map.mp hrow
    exact chunkKey_mem (hindexes entry hentry)
  have hget : ∀ key chunk, written.get? key = some chunk ↔
      (key, chunk) ∈ packedChunks subspace path value ∨
        (∀ row ∈ packedChunks subspace path value, row.1 ≠ key) ∧
          (rows.clearRange (pathRange subspace path)).get? key = some chunk := by
    intro key chunk
    rw [hwritten]
    exact OrderedMap.get?_foldl_set (hsorted.imp fun hlt => hlt.ne) _
  refine ⟨hpath, hindexes, OrderedMap.rows_eq hsorted ?_, ?_⟩
  · rintro ⟨key, chunk⟩
    rw [OrderedMap.mem_rows]
    rw [hget, OrderedMap.get?_clearRange]
    constructor
    · rintro ⟨hkey, hchunk | ⟨-, hchunk⟩⟩
      · exact hchunk
      · rw [if_pos hkey] at hchunk
        cases hchunk
    · intro hchunk
      exact ⟨hmem _ hchunk, .inl hchunk⟩
  · intro key hkey
    apply Option.ext
    intro chunk
    rw [hget, OrderedMap.get?_clearRange, if_neg (by simp [hkey])]
    have hother : ∀ row ∈ packedChunks subspace path value, row.1 ≠ key := by
      rintro row hrow rfl
      rw [hmem row hrow] at hkey
      cases hkey
    constructor
    · rintro (hchunk | ⟨-, hchunk⟩)
      · exact absurd rfl (hother _ hchunk)
      · exact hchunk
    · exact fun hchunk => .inr ⟨hother, hchunk⟩

theorem setChunks_total (subspace : Subspace) (hpath : firstRejection path = none)
    {entries : List (Bytes × Nat)} (h : ∀ entry ∈ entries, rejection (.integer entry.2) = none)
    (rows : Rows) :
    ∃ written, entries.foldlM (setChunk subspace path) rows = .ok written := by
  induction entries generalizing rows with
  | nil => exact ⟨rows, rfl⟩
  | cons entry entries ih =>
      obtain ⟨hindex, hindexes⟩ := List.forall_mem_cons.mp h
      have hset : setChunk subspace path rows entry = .ok (rows.set _ entry.1) :=
        bind_eq_ok.mpr ⟨_, pack_index.mpr ⟨⟨hpath, hindex⟩, rfl⟩, rfl⟩
      obtain ⟨written, hwritten⟩ := ih hindexes (rows.set _ entry.1)
      exact ⟨written, bind_eq_ok.mpr ⟨_, hset, hwritten⟩⟩

end Writing

/-! ## Reading -/

section Reading

variable {subspace : Subspace} {path : Tuple} {rows rows' : Rows}

theorem read_congr
    (h : rows.rows (pathRange subspace path) = rows'.rows (pathRange subspace path)) :
    readChunkedValue subspace path rows = readChunkedValue subspace path rows' ∧
      hasChunkedValue subspace path rows = hasChunkedValue subspace path rows' := by
  unfold readChunkedValue hasChunkedValue
  cases hrange : chunkedValueRange subspace path with
  | error error => exact ⟨rfl, rfl⟩
  | ok range =>
      obtain ⟨-, rfl⟩ := chunkedValueRange_eq_ok.mp hrange
      simp only [bind, Except.bind, h, and_self]

theorem read_eq (hpath : firstRejection path = none) {list : List (Bytes × Bytes)}
    (hrows : rows.rows (pathRange subspace path) = list) :
    readChunkedValue subspace path rows =
        .ok (if list.length = 0 then none else some (concatChunks (list.map Prod.snd))) ∧
      hasChunkedValue subspace path rows = .ok ((list.take 1).length ≠ 0) := by
  have hrange : chunkedValueRange subspace path = .ok (pathRange subspace path) :=
    chunkedValueRange_eq_ok.mpr ⟨hpath, rfl⟩
  unfold readChunkedValue hasChunkedValue
  rw [hrange]
  simp only [bind, Except.bind, hrows, and_self]

theorem rows_beside {path' : Tuple} (hpath : firstRejection path = none)
    (hbeside : ¬ path <+: path' ∧ ¬ path' <+: path) (hpath' : firstRejection path' = none)
    (h : ∀ key, pathRange subspace path key = false → rows'.get? key = rows.get? key) :
    rows'.rows (pathRange subspace path') = rows.rows (pathRange subspace path') := by
  refine OrderedMap.rows_congr fun key hkey => h key ?_
  rw [Bool.eq_false_iff]
  intro hmem
  rcases comparable_of_mem hpath hpath' hmem hkey with hprefix | hprefix
  · exact hbeside.1 hprefix
  · exact hbeside.2 hprefix

/-- A path beside another reads what it has read before a change in the range of the other. -/
theorem reads_beside {path' : Tuple} (hpath : firstRejection path = none)
    (hbeside : ¬ path <+: path' ∧ ¬ path' <+: path)
    (h : ∀ key, pathRange subspace path key = false → rows'.get? key = rows.get? key) :
    readChunkedValue subspace path' rows' = readChunkedValue subspace path' rows ∧
      hasChunkedValue subspace path' rows' = hasChunkedValue subspace path' rows := by
  cases hpath' : firstRejection path' with
  | none => exact read_congr (rows_beside hpath hbeside hpath' h)
  | some error =>
      unfold readChunkedValue hasChunkedValue chunkedValueRange Subspace.range
      rw [subspace.pack_eq, hpath']
      exact ⟨rfl, rfl⟩

end Reading

/-! ## Round trips -/

def maxByteLength : Nat := 2 ^ 53 - 1

structure ReadsBack (subspace : Subspace) (path : Tuple) (value : Bytes) (rows written : Rows) :
    Prop where
  read : readChunkedValue subspace path written = .ok (some value)
  has : hasChunkedValue subspace path written = .ok true
  chunks : ∀ begin stop key chunk, subspace.range path = .ok (begin, stop) →
    (key, chunk) ∈ written.rows (interval begin stop) →
      chunk.length ≤ chunkSize ∧ ∃ index : Nat, subspace.pack (path ++ [.integer index]) = .ok key ∧
        (splitChunkedValue value)[index]? = some chunk
  beside : ∀ path', ¬ path <+: path' ∧ ¬ path' <+: path →
    readChunkedValue subspace path' written = readChunkedValue subspace path' rows ∧
      hasChunkedValue subspace path' written = hasChunkedValue subspace path' rows

structure ReadsAbsent (subspace : Subspace) (path : Tuple) (rows cleared : Rows) : Prop where
  absent : ∀ path' key, path <+: path' → subspace.pack path' = .ok key →
    readChunkedValue subspace path' cleared = .ok none ∧
      hasChunkedValue subspace path' cleared = .ok false
  beside : ∀ path', ¬ path <+: path' ∧ ¬ path' <+: path →
    readChunkedValue subspace path' cleared = readChunkedValue subspace path' rows ∧
      hasChunkedValue subspace path' cleared = hasChunkedValue subspace path' rows

theorem index_of_length {value : Bytes} (h : value.length ≤ maxByteLength) :
    ∀ entry ∈ (splitChunkedValue value).zipIdx, rejection (.integer entry.2) = none := by
  rintro ⟨chunk, index⟩ hentry
  have hlt := (List.getElem?_eq_some_iff.mp (List.mem_zipIdx_iff_getElem?.mp hentry)).1
  have hcount : (splitChunkedValue value).length ≤ value.length + 1 := by
    simp only [splitChunkedValue, List.length_map, List.length_range, chunkSize]
    omega
  have hbound : (2 : Nat) ^ 53 < 256 ^ maxBigIntegerBytes := by decide
  rw [rejection, if_pos]
  rw [Int.natAbs_natCast]
  unfold maxByteLength at h
  omega

section RoundTrip

variable {subspace : Subspace} {path : Tuple} {rows : Rows}

theorem readsBack_of_write {value : Bytes} {written : Rows}
    (h : writeChunkedValue subspace path value rows = .ok written) :
    ReadsBack subspace path value rows written := by
  obtain ⟨hpath, hindexes, hrows, hother⟩ := get?_written h
  have hlength : (packedChunks subspace path value).length ≠ 0 := by
    rw [packedChunks, List.length_map, List.length_zipIdx, ne_eq, List.length_eq_zero_iff]
    exact splitChunkedValue_ne_nil value
  obtain ⟨hread, hhas⟩ := read_eq hpath hrows
  constructor
  case read =>
    rw [hread, if_neg hlength, packedChunks_map_snd, concatChunks_splitChunkedValue]
  case has =>
    have htake : ((packedChunks subspace path value).take 1).length ≠ 0 := by
      rw [List.length_take]
      omega
    rw [hhas, decide_eq_true htake]
  case chunks =>
    intro begin stop key chunk hrange hmem
    have hvalueRange : chunkedValueRange subspace path = .ok (interval begin stop) :=
      bind_eq_ok.mpr ⟨_, hrange, rfl⟩
    rw [(chunkedValueRange_eq_ok.mp hvalueRange).2, hrows] at hmem
    obtain ⟨⟨_, index⟩, hentry, ⟨⟩⟩ := List.mem_map.mp hmem
    have hchunk := List.mem_zipIdx_iff_getElem?.mp hentry
    refine ⟨length_le_of_mem_splitChunkedValue (List.mem_of_getElem? hchunk), index, ?_, hchunk⟩
    exact pack_index.mpr ⟨⟨hpath, hindexes _ hentry⟩, rfl⟩
  case beside => exact fun path' hbeside => reads_beside hpath hbeside hother

theorem readsAbsent_of_clear {cleared : Rows}
    (h : clearChunkedValue subspace path rows = .ok cleared) :
    ReadsAbsent subspace path rows cleared := by
  obtain ⟨range, hrange, hcleared⟩ := bind_eq_ok.mp h
  obtain ⟨hpath, rfl⟩ := chunkedValueRange_eq_ok.mp hrange
  cases hcleared
  constructor
  case absent =>
    rintro _ key ⟨more, rfl⟩ hkey
    obtain ⟨hnone, -⟩ := (subspace.pack_ok_iff _ key).mp hkey
    have hmore := ((firstRejection_append path more).mp hnone).2
    have hrows : (rows.clearRange (pathRange subspace path)).rows
        (pathRange subspace (path ++ more)) = [] :=
      OrderedMap.rows_clearRange_eq_nil fun row => pathRange_extension hmore
    obtain ⟨hread, hhas⟩ := read_eq hnone hrows
    exact ⟨hread, hhas⟩
  case beside =>
    intro path' hbeside
    refine reads_beside hpath hbeside fun key hkey => ?_
    rw [OrderedMap.get?_clearRange, if_neg (by simp [hkey])]

end RoundTrip

/-- A chunked value is read as it was written, whatever was stored before, until it is cleared, and
no path beside it is touched. -/
theorem chunkedValue_roundTrip (subspace : Subspace) (path : Tuple) (rows : Rows) :
    (∀ value written, writeChunkedValue subspace path value rows = .ok written →
      ReadsBack subspace path value rows written) ∧
    (∀ cleared, clearChunkedValue subspace path rows = .ok cleared →
      ReadsAbsent subspace path rows cleared) ∧
    ∀ key, subspace.pack path = .ok key →
      (∀ value : Bytes, value.length ≤ maxByteLength →
        ∃ written, writeChunkedValue subspace path value rows = .ok written) ∧
      ∃ cleared, clearChunkedValue subspace path rows = .ok cleared := by
  refine ⟨fun value written => readsBack_of_write, fun cleared => readsAbsent_of_clear, ?_⟩
  intro key hkey
  obtain ⟨hpath, -⟩ := (subspace.pack_ok_iff path key).mp hkey
  have hrange : chunkedValueRange subspace path = .ok (pathRange subspace path) :=
    chunkedValueRange_eq_ok.mpr ⟨hpath, rfl⟩
  refine ⟨fun value hlength => ?_, _, bind_eq_ok.mpr ⟨_, hrange, rfl⟩⟩
  obtain ⟨written, hwritten⟩ := setChunks_total subspace hpath (index_of_length hlength)
    (rows.clearRange (pathRange subspace path))
  exact ⟨written, bind_eq_ok.mpr ⟨_, hrange, hwritten⟩⟩

/-- A short value over two rows of a longer one. -/
theorem chunkedValue_roundTrip_shorter :
    let rows : Rows := (OrderedMap.empty.set [0x50, 0x01, 0x61, 0x00, 0x14] [9]).set
      [0x50, 0x01, 0x61, 0x00, 0x15, 0x01] [8]
    ∃ written, writeChunkedValue (.fromBytes [0x50]) [.bytes [0x61]] [1, 2, 3] rows = .ok written ∧
      ReadsBack (.fromBytes [0x50]) [.bytes [0x61]] [1, 2, 3] rows written := by
  intro rows
  obtain ⟨hwrite, -, htotal⟩ := chunkedValue_roundTrip (.fromBytes [0x50]) [.bytes [0x61]] rows
  have hkey : (Subspace.fromBytes [0x50]).pack [.bytes [0x61]] = .ok [0x50, 0x01, 0x61, 0x00] := by
    decide
  obtain ⟨written, hwritten⟩ := (htotal _ hkey).1 [1, 2, 3] (by decide)
  exact ⟨written, hwritten, hwrite _ _ hwritten⟩

/-! ## The rows of a store -/

section Store

variable {κ : Type} [LinearOrder κ]

/-- Paths that can be packed, none of which extends another. -/
structure Paths (κ : Type) where
  path : κ → Tuple
  packable : ∀ name, firstRejection (path name) = none
  beside : ∀ {name name'}, name ≠ name' → ¬ path name <+: path name'

/-- The database holds the rows of a store, by their names and indexes, under packed keys. -/
def Packs (subspace : Subspace) (paths : Paths κ) (chunks : ChunkRows κ) (rows : Rows) : Prop :=
  ∀ name, rows.rows (pathRange subspace (paths.path name)) =
    (chunks.rows (Persistence.chunkedValueRange name)).map fun (row, chunk) =>
      (chunkKey subspace (paths.path name) (chunkIndex row), chunk)

variable {subspace : Subspace} {paths : Paths κ} {chunks : ChunkRows κ} {rows : Rows}

theorem Packs.read (h : Packs subspace paths chunks rows) (name : κ) :
    readChunkedValue subspace (paths.path name) rows =
        .ok (Persistence.readChunkedValue chunks name) ∧
      hasChunkedValue subspace (paths.path name) rows =
        .ok (Persistence.hasChunkedValue chunks name) := by
  obtain ⟨hread, hhas⟩ := read_eq (paths.packable name) (h name)
  rw [hread, hhas, List.length_map, List.map_map, ← List.map_take, List.length_map]
  exact ⟨rfl, rfl⟩

theorem Packs.change (h : Packs subspace paths chunks rows) {name : κ} {rows' : Rows}
    {chunks' : ChunkRows κ}
    (hother : ∀ key, pathRange subspace (paths.path name) key = false →
      rows'.get? key = rows.get? key)
    (hother' : ∀ name' index, name' ≠ name →
      chunks'.get? (toLex (name', index)) = chunks.get? (toLex (name', index)))
    (hname : rows'.rows (pathRange subspace (paths.path name)) =
      (chunks'.rows (Persistence.chunkedValueRange name)).map fun (row, chunk) =>
        (chunkKey subspace (paths.path name) (chunkIndex row), chunk)) :
    Packs subspace paths chunks' rows' := by
  intro name'
  by_cases heq : name' = name
  · rw [heq, hname]
  · have hbeside := rows_beside (paths.packable name)
      ⟨paths.beside (Ne.symm heq), paths.beside heq⟩ (paths.packable name') hother
    rw [hbeside, h name', Persistence.rows_congr fun index => hother' name' index heq]

theorem Packs.write (h : Packs subspace paths chunks rows) {name : κ} {value : Bytes}
    {written : Rows}
    (hwrite : writeChunkedValue subspace (paths.path name) value rows = .ok written) :
    Packs subspace paths
      ((Persistence.writeChunkedValue name value).foldl ChunkMutation.apply chunks) written := by
  obtain ⟨-, -, hrows, hother⟩ := get?_written hwrite
  refine h.change hother (fun name' index hne => ?_) ?_
  · rw [get?_writeChunkedValue, if_neg hne]
  · rw [hrows, rows_writeChunkedValue, packedChunks, List.map_map]
    rfl

theorem Packs.clear (h : Packs subspace paths chunks rows) {name : κ} {cleared : Rows}
    (hclear : clearChunkedValue subspace (paths.path name) rows = .ok cleared) :
    Packs subspace paths
      ((Persistence.clearChunkedValue name).foldl ChunkMutation.apply chunks) cleared := by
  obtain ⟨range, hrange, hcleared⟩ := bind_eq_ok.mp hclear
  obtain ⟨-, rfl⟩ := chunkedValueRange_eq_ok.mp hrange
  cases hcleared
  have hother : ∀ key, pathRange subspace (paths.path name) key = false →
      (rows.clearRange (pathRange subspace (paths.path name))).get? key = rows.get? key := by
    intro key hkey
    rw [OrderedMap.get?_clearRange, if_neg (by simp [hkey])]
  refine h.change hother (fun name' index hne => ?_) ?_
  · rw [get?_clearChunkedValue, if_neg hne]
  · rw [OrderedMap.rows_clearRange_eq_nil fun _ => id]
    change [] = ((chunks.clearRange _).rows _).map _
    rw [OrderedMap.rows_clearRange_eq_nil fun _ => id, List.map_nil]

end Store

end FoundationDbEffect.Persistence.PackedChunks
