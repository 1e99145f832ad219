import FoundationDbEffect.Foundation.PageLoop
import FoundationDbEffect.Tuple.Subspace

/-!
# Paged scans of packed indexes

Four loops read the rows of an index page by page, with the last key of a page and a zero byte
behind it as the begin of the next one: the visit of a message index, the promotion of due
timers, the list of a repository's index, and the unsent part of a journal. Each of them handles
the keys that its range has at the start, once and in order, and ends.
-/

namespace FoundationDbEffect.IndexScans

open FoundationDbEffect.Foundation FoundationDbEffect.Foundation.ByteOrder
open FoundationDbEffect.Foundation.OrderedMap FoundationDbEffect.TupleLayer

abbrev Rows := OrderedMap Bytes Bytes

inductive ScanError (ε : Type) where
  | tuple (error : TupleError)
  | exhausted
  | schema
  | failed (error : ε)

def afterKey (key : Bytes) : Bytes := key ++ [0]

variable {σ ε μ ι : Type}

def unpacked (space : Subspace) (key : Bytes) : Except (ScanError ε) Tuple :=
  match space.unpack key with
  | none => .error .exhausted
  | some (.error error) => .error (.tuple error)
  | some (.ok tuple) => .ok tuple

/-! ## Message indexes -/

def visitRow (index : Subspace) (visit : Option TupleValue → σ → Except ε (σ × Bool)) (key : Bytes)
    (state : σ) : Except (ScanError ε) (σ × Bool) := do
  let tuple ← unpacked index key
  (visit tuple.getLast? state).mapError .failed

/-- The last element of a row is a message id, with which the visitor is called. -/
def visitIndex (read : σ → Rows) (pageSize : Nat) (index : Subspace)
    (visit : Option TupleValue → σ → Except ε (σ × Bool)) (fuel : Nat) (state : σ) :
    Option (Except (ScanError ε) σ) :=
  match index.range [] with
  | .error error => some (.error (.tuple error))
  | .ok (start, stop) =>
    pageLoop read afterKey stop pageSize (visitEach (visitRow index visit)) fuel start state

def dueId (index : Subspace) (key : Bytes) : Except (ScanError ε) CodeUnits := do
  match ← unpacked index key with
  | [.number _, .string id] => .ok id
  | _ => .error .schema

def promoteFound (promote : μ → σ → Except ε σ) (state : σ) : Option μ → Except ε σ
  | none => .ok state
  | some entry => promote entry state

/-- One page of due timers: the metadata of its messages, each of which is then promoted. -/
def promotePage (index : Subspace) (readMany : List CodeUnits → σ → Except ε (List (Option μ)))
    (promote : μ → σ → Except ε σ) (page : List Bytes) (state : σ) :
    Except (ScanError ε) (σ × Bool) := do
  let ids ← page.mapM (dueId index)
  let metadata ← (readMany ids state).mapError .failed
  let state ← (metadata.foldlM (promoteFound promote) state).mapError .failed
  .ok (state, true)

def promoteDue (read : σ → Rows) (pageSize : Nat) (index : Subspace) (now : UInt64)
    (readMany : List CodeUnits → σ → Except ε (List (Option μ))) (promote : μ → σ → Except ε σ)
    (fuel : Nat) (state : σ) : Option (Except (ScanError ε) σ) :=
  match index.range [], index.range [.number now] with
  | .ok (begin, _), .ok (_, stop) =>
    pageLoop read afterKey stop pageSize (promotePage index readMany promote) fuel begin state
  | .error error, _ => some (.error (.tuple error))
  | .ok _, .error error => some (.error (.tuple error))

/-! ## The index of a repository -/

namespace Repository

def indexPath (path : Tuple) : Tuple := .string (fromScalars "index".toList) :: path

def pageBegin (root : Subspace) (path : Tuple) (begin : Bytes) :
    Option Bytes → Option Tuple → Except TupleError Bytes
  | some after, _ => .ok (afterKey after)
  | none, none => .ok begin
  | none, some start => root.pack (indexPath (path ++ start))

/-- The paths of a page below a path, and its last key. -/
def page (rows : Rows) (root : Subspace) (pageSize : Nat) (path : Tuple) (after : Option Bytes)
    (start : Option Tuple) : Except (ScanError ε) (List Tuple × Option Bytes) := do
  let (begin, stop) ← (root.range (indexPath path)).mapError .tuple
  let begin ← (pageBegin root path begin after start).mapError .tuple
  let keys := (rows.keysFrom begin stop).take pageSize
  let paths ← keys.mapM (unpacked root)
  .ok (paths.map fun tuple => tuple.drop (path.length + 1), keys.getLast?)

def allFrom (rows : Rows) (root : Subspace) (pageSize : Nat) (path : Tuple)
    (start : Option Tuple) :
    Nat → Option Bytes → List Tuple → Option (Except (ScanError ε) (List Tuple))
  | 0, _, _ => none
  | fuel + 1, cursor, paths =>
    match page rows root pageSize path cursor start with
    | .error error => some (.error error)
    | .ok (batch, cursor) =>
      if batch.length < pageSize then some (.ok (paths ++ batch))
      else allFrom rows root pageSize path start fuel cursor (paths ++ batch)

def all (rows : Rows) (root : Subspace) (pageSize : Nat) (path : Tuple) (start : Option Tuple)
    (fuel : Nat) : Option (Except (ScanError ε) (List Tuple)) :=
  allFrom rows root pageSize path start fuel none []

end Repository

/-! ## The order of a journal -/

namespace JournalOrder

def committedEnd (readVersion : Nat) : Versionstamp :=
  .complete (toBigEndian 8 (readVersion + 1) ++ [0, 0]) 0 (by simp)

def orderedId (entryId : TupleValue → Option ι) (space : Subspace) (key : Bytes) :
    Except (ScanError ε) ι := do
  match ← unpacked space key with
  | [.versionstamp _, value] => (entryId value).elim (.error .schema) .ok
  | _ => .error .schema

def page (entryId : TupleValue → Option ι) (rows : Rows) (space : Subspace) (pageSize : Nat)
    (begin stop : Bytes) : Except (ScanError ε) (List ι × Option Bytes) := do
  let keys := (rows.keysFrom begin stop).take pageSize
  let ids ← keys.mapM (orderedId entryId space)
  .ok (ids, keys.getLast?)

def unsentFrom (entryId : TupleValue → Option ι) (rows : Rows) (inserted : Subspace)
    (pageSize : Nat) (stop : Bytes) :
    Nat → Bytes → List ι → Option Bytes →
      Option (Except (ScanError ε) (List ι × Option Bytes))
  | 0, _, _, _ => none
  | fuel + 1, begin, ids, cursor =>
    match page entryId rows inserted pageSize begin stop with
    | .error error => some (.error error)
    | .ok (batch, last) =>
      let ids := ids ++ batch
      let cursor := last.or cursor
      if batch.length < pageSize then some (.ok (ids, cursor))
      else
        match last with
        | none => some (.ok (ids, cursor))
        | some last =>
          unsentFrom entryId rows inserted pageSize stop fuel (afterKey last) ids cursor

def unsent (entryId : TupleValue → Option ι) (rows : Rows) (inserted : Subspace) (pageSize : Nat)
    (readVersion : Nat) (pending : List ι) (after : Option Bytes) (fuel : Nat) :
    Option (Except (ScanError ε) (List ι × Option Bytes)) :=
  match inserted.range [], inserted.pack [.versionstamp (committedEnd readVersion)] with
  | .ok (start, _), .ok stop =>
    (unsentFrom entryId rows inserted pageSize stop fuel (after.elim start afterKey) [] none).map
      fun result => result.map fun (ids, cursor) => (ids ++ pending, cursor)
  | .error error, _ => some (.error (.tuple error))
  | .ok _, .error error => some (.error (.tuple error))

end JournalOrder

/-! ## One full scan -/

theorem afterKey_le (key other : Bytes) : afterKey key ≤ other ↔ key < other := by
  rw [← not_lt, afterKey, lt_concat_zero_iff, not_le]

section Visits

variable {read : σ → Rows} {pageSize : Nat} {index : Subspace} {start stop : Bytes} {state : σ}
  {fuel : Nat}

theorem visitIndex_eq (hlimit : 0 < pageSize) {visit : Option TupleValue → σ → Except ε (σ × Bool)}
    (hrange : index.range [] = .ok (start, stop))
    (hleaves : LeavesLaterKeys read start stop (visitRow index visit))
    (hfuel : ((read state).keysFrom start stop).length / pageSize < fuel) :
    visitIndex read pageSize index visit fuel state =
      some ((visitEach (visitRow index visit) ((read state).keysFrom start stop) state).map
        Prod.fst) := by
  rw [visitIndex, hrange]
  dsimp only
  rw [pageLoop_eq afterKey_le hlimit hleaves.pages hfuel, visitEach_flatten, flatten_pagesOf]

theorem promoteDue_eq (hlimit : 0 < pageSize) {now : UInt64} {begin' stop' : Bytes}
    {readMany : List CodeUnits → σ → Except ε (List (Option μ))} {promote : μ → σ → Except ε σ}
    (hrange : index.range [] = .ok (start, stop'))
    (hdue : index.range [.number now] = .ok (begin', stop))
    (hleaves : LeavesLater read start stop (promotePage index readMany promote))
    (hfuel : ((read state).keysFrom start stop).length / pageSize < fuel) :
    promoteDue read pageSize index now readMany promote fuel state =
      some ((visitEach (promotePage index readMany promote)
        (pagesOf pageSize ((read state).keysFrom start stop)) state).map Prod.fst) := by
  rw [promoteDue, hrange, hdue]
  exact pageLoop_eq afterKey_le hlimit hleaves hfuel

end Visits

/-! ## Collected pages -/

section Collected

variable {δ α : Type}

def collectPage (f : Bytes → Except δ α) (page : List Bytes) (found : List α × Option Bytes) :
    Except δ ((List α × Option Bytes) × Bool) := do
  let batch ← page.mapM f
  .ok ((found.1 ++ batch, page.getLast?.or found.2), true)

theorem visitEach_collectPage (f : Bytes → Except δ α) (pages : List (List Bytes))
    (found : List α × Option Bytes) :
    visitEach (collectPage f) pages found =
      (pages.flatten.mapM f).map fun batch =>
        ((found.1 ++ batch, pages.flatten.getLast?.or found.2), true) := by
  induction pages generalizing found with
  | nil => simp [visitEach, Except.map, pure, Except.pure]
  | cons page pages ih =>
      rw [visitEach, collectPage, List.flatten_cons, List.mapM_append]
      cases page.mapM f with
      | error cause => rfl
      | ok batch =>
          change visitEach (collectPage f) pages _ = _
          rw [ih]
          cases pages.flatten.mapM f with
          | error cause => rfl
          | ok more => simp [Except.map, bind, Except.bind, Option.or_assoc, pure, Except.pure]

theorem pageLoop_collectPage {rows : Rows} {f : Bytes → Except δ α} {pageSize fuel : Nat}
    (hlimit : 0 < pageSize) {begin stop : Bytes}
    (hfuel : (rows.keysFrom begin stop).length / pageSize < fuel) (found : List α × Option Bytes) :
    pageLoop (fun _ => rows) afterKey stop pageSize (collectPage f) fuel begin found =
      some (((rows.keysFrom begin stop).mapM f).map fun batch =>
        (found.1 ++ batch, (rows.keysFrom begin stop).getLast?.or found.2)) := by
  rw [pageLoop_eq afterKey_le hlimit (fun _ _ _ _ _ _ _ _ _ _ => Iff.rfl) hfuel,
    visitEach_collectPage, flatten_pagesOf]
  cases (rows.keysFrom begin stop).mapM f <;> rfl

theorem length_of_mapM {f : Bytes → Except δ α} {page : List Bytes} {batch : List α}
    (h : page.mapM f = .ok batch) : batch.length = page.length :=
  (forall₂_of_mapM h).length_eq.symm

end Collected

section Index

variable {rows : Rows} {root : Subspace} {pageSize : Nat} {path : Tuple} {start : Option Tuple}
  {below begin stop : Bytes} {after : Option Bytes}

theorem Repository.page_eq (hrange : root.range (indexPath path) = .ok (below, stop))
    (hbegin : pageBegin root path below after start = .ok begin) :
    (page rows root pageSize path after start :
      Except (ScanError ε) (List Tuple × Option Bytes)) =
      (((rows.keysFrom begin stop).take pageSize).mapM (unpacked root)).map fun batch =>
        (batch.map fun tuple => tuple.drop (path.length + 1),
          ((rows.keysFrom begin stop).take pageSize).getLast?) := by
  rw [page, hrange]
  change ((pageBegin root path below after start).mapError ScanError.tuple >>= _) = _
  rw [hbegin]
  change (((rows.keysFrom begin stop).take pageSize).mapM (unpacked root) >>= _) = _
  cases ((rows.keysFrom begin stop).take pageSize).mapM (unpacked (ε := ε) root) <;> rfl

/-- The loop of a list, behind the tuples that it has collected. -/
theorem Repository.allFrom_eq (hlimit : 0 < pageSize)
    (hrange : root.range (indexPath path) = .ok (below, stop))
    (hbegin : pageBegin root path below after start = .ok begin) {fuel : Nat}
    (tuples : List Tuple) (cursor : Option Bytes) :
    (allFrom rows root pageSize path start fuel after
        (tuples.map fun tuple => tuple.drop (path.length + 1)) :
      Option (Except (ScanError ε) (List Tuple))) =
      (pageLoop (fun _ => rows) afterKey stop pageSize (collectPage (unpacked root)) fuel begin
        (tuples, cursor)).map fun result => result.map fun found =>
          found.1.map fun tuple => tuple.drop (path.length + 1) := by
  induction fuel generalizing after begin tuples cursor with
  | zero => rfl
  | succ fuel ih =>
      rw [allFrom, page_eq hrange hbegin, pageLoop, collectPage]
      cases hbatch : ((rows.keysFrom begin stop).take pageSize).mapM
          (unpacked (ε := ε) root) with
      | error error => rfl
      | ok batch =>
          have hlength := length_of_mapM hbatch
          simp only [Except.map, bind, Except.bind, List.length_map, hlength, ← List.map_append,
            Bool.true_eq_false, false_or]
          by_cases hshort : ((rows.keysFrom begin stop).take pageSize).length < pageSize
          · rw [if_pos hshort, if_pos hshort]
            rfl
          · rw [if_neg hshort, if_neg hshort]
            cases hlast : ((rows.keysFrom begin stop).take pageSize).getLast? with
            | none =>
                rw [List.getLast?_eq_none_iff.mp hlast] at hshort
                exact absurd hlimit hshort
            | some last => exact ih rfl _ _

end Index

theorem JournalOrder.unsentFrom_eq {entryId : TupleValue → Option ι} {rows : Rows}
    {inserted : Subspace} {pageSize : Nat} {begin stop : Bytes} {fuel : Nat} (ids : List ι)
    (cursor : Option Bytes) :
    (unsentFrom entryId rows inserted pageSize stop fuel begin ids cursor :
      Option (Except (ScanError ε) (List ι × Option Bytes))) =
      pageLoop (fun _ => rows) afterKey stop pageSize (collectPage (orderedId entryId inserted))
        fuel begin (ids, cursor) := by
  induction fuel generalizing begin ids cursor with
  | zero => rfl
  | succ fuel ih =>
      rw [unsentFrom, page, pageLoop, collectPage]
      cases hbatch : ((rows.keysFrom begin stop).take pageSize).mapM
          (orderedId (ε := ε) entryId inserted) with
      | error error => rfl
      | ok batch =>
          have hlength := length_of_mapM hbatch
          simp only [bind, Except.bind, hlength, Bool.true_eq_false, false_or]
          by_cases hshort : ((rows.keysFrom begin stop).take pageSize).length < pageSize
          · rw [if_pos hshort, if_pos hshort]
          · rw [if_neg hshort, if_neg hshort]
            cases ((rows.keysFrom begin stop).take pageSize).getLast? with
            | none => rfl
            | some last => exact ih _ _

theorem Repository.all_eq {rows : Rows} {root : Subspace} {pageSize : Nat} {path : Tuple}
    {start : Option Tuple} {below begin stop : Bytes} (hlimit : 0 < pageSize)
    (hrange : root.range (indexPath path) = .ok (below, stop))
    (hbegin : pageBegin root path below none start = .ok begin) {fuel : Nat}
    (hfuel : (rows.keysFrom begin stop).length / pageSize < fuel) :
    (all rows root pageSize path start fuel : Option (Except (ScanError ε) (List Tuple))) =
      some (((rows.keysFrom begin stop).mapM (unpacked root)).map fun tuples =>
        tuples.map fun tuple => tuple.drop (path.length + 1)) := by
  rw [all]
  refine (allFrom_eq hlimit hrange hbegin [] none).trans ?_
  rw [pageLoop_collectPage hlimit hfuel]
  cases (rows.keysFrom begin stop).mapM (unpacked (ε := ε) root) <;> rfl

theorem JournalOrder.unsent_eq {entryId : TupleValue → Option ι} {rows : Rows}
    {inserted : Subspace} {pageSize readVersion : Nat} {pending : List ι} {after : Option Bytes}
    {start stop below : Bytes} (hlimit : 0 < pageSize)
    (hrange : inserted.range [] = .ok (start, below))
    (hstop : inserted.pack [.versionstamp (committedEnd readVersion)] = .ok stop) {fuel : Nat}
    (hfuel : (rows.keysFrom (after.elim start afterKey) stop).length / pageSize < fuel) :
    (unsent entryId rows inserted pageSize readVersion pending after fuel :
      Option (Except (ScanError ε) (List ι × Option Bytes))) =
      some (((rows.keysFrom (after.elim start afterKey) stop).mapM
        (orderedId entryId inserted)).map fun ids =>
          (ids ++ pending, (rows.keysFrom (after.elim start afterKey) stop).getLast?)) := by
  rw [unsent, hrange, hstop]
  dsimp only
  rw [unsentFrom_eq, pageLoop_collectPage hlimit hfuel]
  cases (rows.keysFrom (after.elim start afterKey) stop).mapM
    (orderedId (ε := ε) entryId inserted) with
  | error error => rfl
  | ok ids => simp [Except.map]

/-- The loops handle the keys of their ranges as they are at the start, in order and each once,
and they end after the first page that the keys do not fill. -/
theorem pagedScans_fullScan {pageSize : Nat} (hlimit : 0 < pageSize) :
    (∀ (read : σ → Rows) (index : Subspace)
        (visit : Option TupleValue → σ → Except ε (σ × Bool)) (start stop : Bytes) (state : σ)
        (fuel : Nat), index.range [] = .ok (start, stop) →
      LeavesLaterKeys read start stop (visitRow index visit) →
      ((read state).keysFrom start stop).length / pageSize < fuel →
      visitIndex read pageSize index visit fuel state =
        some ((visitEach (visitRow index visit) ((read state).keysFrom start stop) state).map
          Prod.fst)) ∧
    (∀ (read : σ → Rows) (index : Subspace) (now : UInt64)
        (readMany : List CodeUnits → σ → Except ε (List (Option μ)))
        (promote : μ → σ → Except ε σ) (start stop begin' stop' : Bytes) (state : σ) (fuel : Nat),
      index.range [] = .ok (start, stop') → index.range [.number now] = .ok (begin', stop) →
      LeavesLater read start stop (promotePage index readMany promote) →
      ((read state).keysFrom start stop).length / pageSize < fuel →
      ∃ pages, pages.flatten = (read state).keysFrom start stop ∧
        promoteDue read pageSize index now readMany promote fuel state =
          some ((visitEach (promotePage index readMany promote) pages state).map Prod.fst)) ∧
    (∀ (rows : Rows) (root : Subspace) (path : Tuple) (from' : Option Tuple)
        (below start stop : Bytes) (fuel : Nat),
      root.range (Repository.indexPath path) = .ok (below, stop) →
      Repository.pageBegin root path below none from' = .ok start →
      (rows.keysFrom start stop).length / pageSize < fuel →
      (Repository.all rows root pageSize path from' fuel :
        Option (Except (ScanError ε) (List Tuple))) =
        some (((rows.keysFrom start stop).mapM (unpacked root)).map fun tuples =>
          tuples.map fun tuple => tuple.drop (path.length + 1))) ∧
    ∀ (entryId : TupleValue → Option ι) (rows : Rows) (inserted : Subspace) (readVersion : Nat)
        (pending : List ι) (after : Option Bytes) (start stop below : Bytes) (fuel : Nat),
      inserted.range [] = .ok (start, below) →
      inserted.pack [.versionstamp (JournalOrder.committedEnd readVersion)] = .ok stop →
      (rows.keysFrom (after.elim start afterKey) stop).length / pageSize < fuel →
      (JournalOrder.unsent entryId rows inserted pageSize readVersion pending after fuel :
        Option (Except (ScanError ε) (List ι × Option Bytes))) =
        some (((rows.keysFrom (after.elim start afterKey) stop).mapM
          (JournalOrder.orderedId entryId inserted)).map fun ids =>
            (ids ++ pending, (rows.keysFrom (after.elim start afterKey) stop).getLast?)) :=
  ⟨fun _ _ _ _ _ _ _ hrange hleaves hfuel => visitIndex_eq hlimit hrange hleaves hfuel,
    fun _ _ _ _ _ _ _ _ _ _ _ hrange hdue hleaves hfuel =>
      ⟨_, flatten_pagesOf _ _, promoteDue_eq hlimit hrange hdue hleaves hfuel⟩,
    fun _ _ _ _ _ _ _ _ hrange hbegin hfuel =>
      Repository.all_eq hlimit hrange hbegin hfuel,
    fun _ _ _ _ _ _ _ _ _ _ hrange hstop hfuel =>
      JournalOrder.unsent_eq hlimit hrange hstop hfuel⟩

/-! ## A visitor that removes the rows it is given -/

def takeFirst (start stop : Bytes) (_ : Option TupleValue) (rows : Rows) :
    Except Empty (Rows × Bool) :=
  .ok ((rows.keysFrom start stop).head?.elim rows rows.clear, true)

theorem leavesLaterKeys_takeFirst (index : Subspace) (start stop : Bytes) :
    LeavesLaterKeys id start stop (visitRow index (takeFirst start stop)) := by
  intro rows key next more hkey hvisit other hother
  obtain ⟨tuple, -, hvisit⟩ := bind_eq_ok.mp hvisit
  cases hvisit
  change _ ∈ (rows.keysFrom start stop) at hkey
  obtain ⟨first, rest, hkeys⟩ := List.exists_cons_of_ne_nil (List.ne_nil_of_mem hkey)
  have hsorted := rows.keysFrom_sorted start stop
  rw [hkeys] at hkey hsorted
  have hne : other ≠ first := by
    rcases List.mem_cons.mp hkey with rfl | hmem
    · exact hother.ne'
    · exact (((List.pairwise_cons.mp hsorted).1 key hmem).trans hother).ne'
  rw [mem_keysFrom, mem_keysFrom, id, id, hkeys]
  change _ ∧ ((rows.clear first).get? other).isSome = true ↔ _
  rw [get?_clear_of_ne _ hne]

def twoRows : Rows := ((∅ : Rows).set [0x15, 1] []).set [0x15, 2] []

/-- Two rows fill a page of two, and the visitor has removed them when the loop ends. -/
theorem pagedScans_fullScan_removed :
    visitIndex id 2 (.fromBytes []) (takeFirst [0x00] [0xff]) 2 twoRows = some (.ok ∅) := by
  have hscans := pagedScans_fullScan (σ := Rows) (ε := Empty) (μ := Unit) (ι := Unit)
    (show 0 < 2 by decide)
  have hvisit := hscans.1 id (.fromBytes []) (takeFirst [0x00] [0xff]) [0x00] [0xff] twoRows 2 rfl
    (leavesLaterKeys_takeFirst _ _ _) (by decide)
  rw [hvisit]
  rfl

end FoundationDbEffect.IndexScans
