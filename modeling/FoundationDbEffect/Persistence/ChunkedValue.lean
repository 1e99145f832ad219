import FoundationDbEffect.Foundation.Numeral
import FoundationDbEffect.Foundation.OrderedMap
import Mathlib.Data.Prod.Lex

/-!
# Chunked values

A value is stored in rows of at most 8 KiB under its path and their index.  Writing a value
clears the rows of its path first, and a value of no bytes has one empty row, so a path has a
value if and only if it has a row.
-/

namespace FoundationDbEffect.Persistence

open FoundationDbEffect.Foundation

def chunkSize : Nat := 8 * 1024

def concatChunks (chunks : List Bytes) : Bytes := chunks.flatten

def splitChunkedValue (value : Bytes) : List Bytes :=
  let chunks := max 1 ((value.length + (chunkSize - 1)) / chunkSize)
  (List.range chunks).map fun index => (value.drop (index * chunkSize)).take chunkSize

abbrev ChunkRows (κ : Type) [LinearOrder κ] := OrderedMap (κ ×ₗ Nat) Bytes

inductive ChunkMutation (κ : Type) where
  | clearRange (path : κ)
  | set (path : κ) (index : Nat) (chunk : Bytes)
  deriving DecidableEq

def chunkPath {κ : Type} (row : κ ×ₗ Nat) : κ := (ofLex row).1

def chunkIndex {κ : Type} (row : κ ×ₗ Nat) : Nat := (ofLex row).2

section

variable {κ : Type} [LinearOrder κ]

def chunkedValueRange (path : κ) : κ ×ₗ Nat → Bool := fun row => chunkPath row = path

def ChunkMutation.apply (rows : ChunkRows κ) : ChunkMutation κ → ChunkRows κ
  | .clearRange path => rows.clearRange (chunkedValueRange path)
  | .set path index chunk => rows.set (toLex (path, index)) chunk

def readChunkedValue (rows : ChunkRows κ) (path : κ) : Option Bytes :=
  let rows := rows.rows (chunkedValueRange path)
  if rows.length = 0 then none else some (concatChunks (rows.map Prod.snd))

def hasChunkedValue (rows : ChunkRows κ) (path : κ) : Bool :=
  let rows := (rows.rows (chunkedValueRange path)).take 1
  rows.length ≠ 0

def writeChunkedValue (path : κ) (value : Bytes) : List (ChunkMutation κ) :=
  .clearRange path ::
    (splitChunkedValue value).zipIdx.map fun (chunk, index) => .set path index chunk

def clearChunkedValue (path : κ) : List (ChunkMutation κ) := [.clearRange path]

end

/-! ## Splitting -/

theorem chunkSize_pos : 0 < chunkSize := by decide

theorem splitChunkedValue_ne_nil (value : Bytes) : splitChunkedValue value ≠ [] := by
  unfold splitChunkedValue
  dsimp only
  rw [ne_eq, List.map_eq_nil_iff, List.range_eq_nil]
  omega

theorem flatten_chunks (count : Nat) (value : Bytes) (h : value.length ≤ count * chunkSize) :
    ((List.range count).map fun index =>
      (value.drop (index * chunkSize)).take chunkSize).flatten = value := by
  induction count generalizing value with
  | zero =>
      have hnil : value = [] := List.eq_nil_of_length_eq_zero (by omega)
      simp [hnil]
  | succ count ih =>
      have hrest : (value.drop chunkSize).length ≤ count * chunkSize := by
        rw [List.length_drop]
        rw [Nat.succ_mul] at h
        omega
      have hshift (index : Nat) : value.drop ((index + 1) * chunkSize) =
          (value.drop chunkSize).drop (index * chunkSize) := by
        rw [List.drop_drop, Nat.succ_mul, Nat.add_comm]
      rw [List.range_succ_eq_map, List.map_cons, List.map_map, List.flatten_cons]
      simp only [Function.comp_def, Nat.zero_mul, List.drop_zero, Nat.succ_eq_add_one, hshift]
      rw [ih _ hrest, List.take_append_drop]

theorem concatChunks_splitChunkedValue (value : Bytes) :
    concatChunks (splitChunkedValue value) = value := by
  refine flatten_chunks _ value ?_
  have hdiv := Nat.div_add_mod (value.length + (chunkSize - 1)) chunkSize
  have hmod := Nat.mod_lt (value.length + (chunkSize - 1)) chunkSize_pos
  have hpos := chunkSize_pos
  have hmax := Nat.mul_le_mul_right chunkSize
    (Nat.le_max_right 1 ((value.length + (chunkSize - 1)) / chunkSize))
  rw [Nat.mul_comm] at hdiv
  omega

theorem length_le_of_mem_splitChunkedValue {value chunk : Bytes}
    (h : chunk ∈ splitChunkedValue value) : chunk.length ≤ chunkSize := by
  obtain ⟨index, -, rfl⟩ := List.mem_map.mp h
  exact List.length_take_le _ _

/-! ## Reading and writing -/

section

variable {κ : Type} [LinearOrder κ]

theorem get?_setChunks (path : κ) (chunks : List Bytes) (start : Nat) (rows : ChunkRows κ)
    (path' : κ) (index : Nat) :
    (((chunks.zipIdx start).map fun (chunk, index) => ChunkMutation.set path index chunk).foldl
      ChunkMutation.apply rows).get? (toLex (path', index)) =
      if path' = path ∧ start ≤ index ∧ index < start + chunks.length then chunks[index - start]?
      else rows.get? (toLex (path', index)) := by
  induction chunks generalizing start rows with
  | nil =>
      rw [if_neg]
      · rfl
      · simp only [List.length_nil]
        omega
  | cons chunk chunks ih =>
      rw [List.zipIdx_cons, List.map_cons, List.foldl_cons, ih]
      by_cases hpath : path' = path
      · subst hpath
        rcases Nat.lt_trichotomy index start with hlt | rfl | hgt
        · rw [if_neg (by omega), if_neg (by omega), ChunkMutation.apply,
            OrderedMap.get?_set_of_ne]
          simp only [ne_eq, EmbeddingLike.apply_eq_iff_eq, Prod.mk.injEq, true_and]
          omega
        · rw [if_neg (by omega), if_pos (by simp), ChunkMutation.apply, OrderedMap.get?_set_self]
          simp
        · have hindex : index - start = (index - (start + 1)) + 1 := by omega
          rw [hindex, List.getElem?_cons_succ, List.length_cons, ChunkMutation.apply,
            OrderedMap.get?_set_of_ne]
          · simp only [true_and]
            congr 1
            rw [eq_iff_iff]
            omega
          · simp only [ne_eq, EmbeddingLike.apply_eq_iff_eq, Prod.mk.injEq, true_and]
            omega
      · rw [if_neg (fun h => hpath h.1), if_neg (fun h => hpath h.1), ChunkMutation.apply,
          OrderedMap.get?_set_of_ne]
        simp [hpath]

theorem get?_writeChunkedValue (path : κ) (value : Bytes) (rows : ChunkRows κ) (path' : κ)
    (index : Nat) :
    ((writeChunkedValue path value).foldl ChunkMutation.apply rows).get? (toLex (path', index)) =
      if path' = path then (splitChunkedValue value)[index]?
      else rows.get? (toLex (path', index)) := by
  rw [writeChunkedValue, List.foldl_cons, get?_setChunks]
  by_cases hpath : path' = path
  · subst hpath
    by_cases hindex : index < (splitChunkedValue value).length
    · simp [hindex]
    · simp [hindex, ChunkMutation.apply, OrderedMap.get?_clearRange, chunkedValueRange,
        chunkPath]
  · simp [hpath, ChunkMutation.apply, OrderedMap.get?_clearRange, chunkedValueRange, chunkPath]

theorem get?_clearChunkedValue (path : κ) (rows : ChunkRows κ) (path' : κ) (index : Nat) :
    ((clearChunkedValue path).foldl ChunkMutation.apply rows).get? (toLex (path', index)) =
      if path' = path then none else rows.get? (toLex (path', index)) := by
  by_cases hpath : path' = path <;>
    simp [clearChunkedValue, ChunkMutation.apply, OrderedMap.get?_clearRange, chunkedValueRange,
      chunkPath, hpath]

theorem rows_congr {rows rows' : ChunkRows κ} {path : κ}
    (h : ∀ index, rows.get? (toLex (path, index)) = rows'.get? (toLex (path, index))) :
    rows.rows (chunkedValueRange path) = rows'.rows (chunkedValueRange path) := by
  refine OrderedMap.rows_eq (rows'.rows_sorted _) ?_
  rintro ⟨row, chunk⟩
  rw [OrderedMap.mem_rows, OrderedMap.mem_rows]
  refine and_congr_right ?_
  intro hrow
  obtain rfl : chunkPath row = path := of_decide_eq_true hrow
  rw [show rows.get? row = rows'.get? row from h (chunkIndex row)]

theorem readChunkedValue_congr {rows rows' : ChunkRows κ} {path : κ}
    (h : ∀ index, rows.get? (toLex (path, index)) = rows'.get? (toLex (path, index))) :
    readChunkedValue rows path = readChunkedValue rows' path := by
  unfold readChunkedValue
  rw [rows_congr h]

theorem rows_writeChunkedValue (path : κ) (value : Bytes) (rows : ChunkRows κ) :
    ((writeChunkedValue path value).foldl ChunkMutation.apply rows).rows
      (chunkedValueRange path) =
      (splitChunkedValue value).zipIdx.map fun (chunk, index) => (toLex (path, index), chunk) := by
  refine OrderedMap.rows_eq ?_ ?_
  · have hindexes : (splitChunkedValue value).zipIdx.Pairwise fun left right =>
        left.2 < right.2 := by
      rw [← List.pairwise_map (f := Prod.snd) (R := (· < ·)), List.zipIdx_map_snd]
      exact List.pairwise_lt_range'
    rw [List.pairwise_map]
    refine hindexes.imp ?_
    intro left right hlt
    exact Prod.Lex.toLex_lt_toLex.mpr (.inr ⟨rfl, hlt⟩)
  · rintro ⟨row, chunk⟩
    obtain ⟨path', index, rfl⟩ : ∃ path' index, row = toLex (path', index) :=
      ⟨chunkPath row, chunkIndex row, rfl⟩
    rw [OrderedMap.mem_rows, List.mem_map, get?_writeChunkedValue]
    constructor
    · rintro ⟨hpath, hchunk⟩
      obtain rfl : path' = path := of_decide_eq_true hpath
      rw [if_pos rfl] at hchunk
      exact ⟨(chunk, index), List.mem_zipIdx_iff_getElem?.mpr hchunk, rfl⟩
    · rintro ⟨⟨chunk', index'⟩, hchunk, heq⟩
      obtain ⟨⟨rfl, rfl⟩, rfl⟩ := by simpa using heq
      rw [if_pos rfl]
      exact ⟨decide_eq_true rfl, List.mem_zipIdx_iff_getElem?.mp hchunk⟩

theorem readChunkedValue_write (path : κ) (value : Bytes) (rows : ChunkRows κ) :
    readChunkedValue ((writeChunkedValue path value).foldl ChunkMutation.apply rows) path =
      some value := by
  have hlength := List.length_pos_of_ne_nil (splitChunkedValue_ne_nil value)
  unfold readChunkedValue
  rw [rows_writeChunkedValue]
  dsimp only
  rw [List.length_map, List.length_zipIdx, if_neg hlength.ne', List.map_map]
  have hchunks : (splitChunkedValue value).zipIdx.map
      (Prod.snd ∘ fun (chunk, index) => (toLex (path, index), chunk)) =
        splitChunkedValue value := by
    have hfirst := List.zipIdx_map_fst 0 (splitChunkedValue value)
    exact hfirst
  rw [hchunks, concatChunks_splitChunkedValue]

theorem readChunkedValue_write_of_ne {path path' : κ} (h : path' ≠ path) (value : Bytes)
    (rows : ChunkRows κ) :
    readChunkedValue ((writeChunkedValue path value).foldl ChunkMutation.apply rows) path' =
      readChunkedValue rows path' := by
  apply readChunkedValue_congr
  intro index
  rw [get?_writeChunkedValue, if_neg h]

/-! ## Stored paths -/

def Stored (rows : ChunkRows κ) (path : κ) : Prop :=
  ∃ index, (rows.get? (toLex (path, index))).isSome

theorem hasChunkedValue_iff {rows : ChunkRows κ} {path : κ} :
    hasChunkedValue rows path = true ↔ Stored rows path := by
  unfold hasChunkedValue
  dsimp only
  rw [decide_eq_true_eq, List.length_take, ne_eq, Nat.min_eq_zero_iff]
  constructor
  · intro h
    have hrows : rows.rows (chunkedValueRange path) ≠ [] := by
      rintro hnil
      simp [hnil] at h
    obtain ⟨⟨row, chunk⟩, hrow⟩ := List.exists_mem_of_ne_nil _ hrows
    obtain ⟨hpath, hchunk⟩ := OrderedMap.mem_rows.mp hrow
    obtain rfl : chunkPath row = path := of_decide_eq_true hpath
    exact ⟨chunkIndex row, Option.isSome_iff_exists.mpr ⟨chunk, hchunk⟩⟩
  · rintro ⟨index, hindex⟩ h
    obtain ⟨chunk, hchunk⟩ := Option.isSome_iff_exists.mp hindex
    have hrow : (toLex (path, index), chunk) ∈ rows.rows (chunkedValueRange path) :=
      OrderedMap.mem_rows.mpr ⟨decide_eq_true rfl, hchunk⟩
    have hpos := List.length_pos_of_mem hrow
    omega

theorem stored_of_read {rows : ChunkRows κ} {path : κ} {value : Bytes}
    (h : readChunkedValue rows path = some value) : Stored rows path := by
  unfold readChunkedValue at h
  dsimp only at h
  split at h
  · cases h
  · next hlength =>
      obtain ⟨⟨row, chunk⟩, hrow⟩ :=
        List.exists_mem_of_ne_nil _ (fun hnil => hlength (List.length_eq_zero_iff.mpr hnil))
      obtain ⟨hpath, hchunk⟩ := OrderedMap.mem_rows.mp hrow
      obtain rfl : chunkPath row = path := of_decide_eq_true hpath
      exact ⟨chunkIndex row, Option.isSome_iff_exists.mpr ⟨chunk, hchunk⟩⟩

theorem stored_write {rows : ChunkRows κ} {path path' : κ} {value : Bytes} :
    Stored ((writeChunkedValue path value).foldl ChunkMutation.apply rows) path' ↔
      path' = path ∨ Stored rows path' := by
  unfold Stored
  simp only [get?_writeChunkedValue]
  by_cases hpath : path' = path
  · have hfirst := List.length_pos_of_ne_nil (splitChunkedValue_ne_nil value)
    simp only [hpath, if_true, true_or, iff_true]
    exact ⟨0, by simpa using hfirst⟩
  · simp [hpath]

theorem stored_clear {rows : ChunkRows κ} {path path' : κ} :
    Stored ((clearChunkedValue path).foldl ChunkMutation.apply rows) path' ↔
      path' ≠ path ∧ Stored rows path' := by
  unfold Stored
  simp only [get?_clearChunkedValue]
  by_cases hpath : path' = path <;> simp [hpath]

end

end FoundationDbEffect.Persistence
