import FoundationDbEffect.Directory.CreationConflicts

/-!
# Overlapping creations in a history

An automatic prefix is checked without conflict and a manual one with it.  When the automatic
creation is committed first, the manual one has read the layer row of the new directory, or a
row under a prefix that extends its prefix.  The first is a conflict.  The second is one as well,
unless that row is newer than the snapshot of the automatic creation.
-/

namespace FoundationDbEffect.Directory

open FoundationDbEffect.Foundation FoundationDbEffect.TupleLayer
open FoundationDbEffect.Foundation.ByteOrder

abbrev RowCommit := Transaction RowMutation Bytes (List Creation)

def Attempt.commit (attempt : Attempt) (readVersion : Nat) : RowCommit where
  readVersion := readVersion
  mutations := attempt.mutations
  reads := {key | attempt.reads key = true}
  writes := {key | key ∈ attempt.writes}
  result := attempt.created

/-- Every row of a node that a transaction changes is among its write conflicts; only the rows
of the root, with the allocator among them, may change without one. -/
def Exposed (layer : DirectoryLayerState) (transaction : RowCommit) : Prop :=
  ∀ mutation ∈ transaction.mutations, ∀ p key, IsNodeRow layer.nodeSubspace p key →
    p ≠ layer.nodeSubspace → mutation.touches key = true → key ∈ transaction.writes

abbrev rowsAt (init : Rows) (history : List RowCommit) : Rows :=
  Occ.stateAt (fun _ => RowMutation.apply) init history

/-- Histories of transactions that change no row of a node without a write conflict. -/
abbrev RowHistory (layer : DirectoryLayerState) (init : Rows) (history : List RowCommit) : Prop :=
  Occ.Committed (fun _ => RowMutation.apply) init (fun _ => Exposed layer) history

section History

variable {layer : DirectoryLayerState} {init : Rows}

theorem RowHistory.exposed {history : List RowCommit} (h : RowHistory layer init history)
    {transaction : RowCommit} (hmem : transaction ∈ history) : Exposed layer transaction := by
  obtain ⟨-, hbody⟩ := Occ.Committed.exists_body h hmem
  exact hbody

/-- Between two versions a row of a node only changes by a commit that writes it. -/
theorem exists_write_of_change {newer older : List RowCommit}
    (hexposed : ∀ transaction ∈ newer, Exposed layer transaction) {p key : Bytes}
    (hrow : IsNodeRow layer.nodeSubspace p key) (hp : p ≠ layer.nodeSubspace)
    (hchange : (rowsAt init (newer ++ older)).get? key ≠ (rowsAt init older).get? key) :
    ∃ transaction ∈ newer, key ∈ transaction.writes := by
  induction newer with
  | nil => exact absurd rfl hchange
  | cons transaction newer ih =>
      by_cases hwrite : key ∈ transaction.writes
      · exact ⟨transaction, by simp, hwrite⟩
      have hsame : (rowsAt init (transaction :: newer ++ older)).get? key =
          (rowsAt init (newer ++ older)).get? key := by
        refine RowMutation.get?_foldl_of_not_touches (fun mutation hmem => ?_) _
        rw [← Bool.not_eq_true]
        intro htouches
        exact hwrite (hexposed transaction (by simp) mutation hmem p key hrow hp htouches)
      rw [hsame] at hchange
      obtain ⟨third, hmem, hthird⟩ :=
        ih (fun transaction hmem => hexposed transaction (List.mem_cons_of_mem _ hmem)) hchange
      exact ⟨third, List.mem_cons_of_mem _ hmem, hthird⟩

theorem Attempt.Runs.exposed {snapshot : Rows} {attempt : Attempt} {creation : Creation}
    (h : attempt.Runs layer snapshot) (hmem : creation ∈ attempt.created)
    (hlayer : creation.directoryLayer = layer) (hmanual : layer.allowManualPrefixes = true)
    (readVersion : Nat) : Exposed layer (attempt.commit readVersion) := by
  obtain ⟨chosen, parent, name, prefixBytes, nodeLayer, automatic, previous, -, hcreates⟩ :=
    h.createsFrom hmem hlayer hmanual
  intro mutation hmutation p key hrow hp htouches
  have hmutations : attempt.mutations = chosen.mutations ++
      [.set (childKey layer.nodeSubspace parent name) prefixBytes] ++
      [.set (layerKey layer.nodeSubspace prefixBytes) nodeLayer] := by
    rw [hcreates.next_eq]
    cases automatic <;> rfl
  have hwrites {key' : Bytes} (hkey : key' = childKey layer.nodeSubspace parent name ∨
      key' = layerKey layer.nodeSubspace prefixBytes) : key' ∈ attempt.writes := by
    rw [hcreates.next_eq]
    simp only [Attempt.create, Attempt.set, List.mem_append, List.mem_singleton]
    exact hkey.elim (fun heq => .inl (.inr heq)) .inr
  change mutation ∈ attempt.mutations at hmutation
  rw [hmutations, List.mem_append, List.mem_append, List.mem_singleton,
    List.mem_singleton] at hmutation
  rcases hmutation with (hold | rfl) | rfl
  · rcases hcreates.sound.mutations mutation hold with hallocator | ⟨key', value, rfl, hown⟩
    · exact absurd (hallocator key htouches) (not_allocator hrow hp)
    · obtain rfl : key = key' := by simpa [RowMutation.touches] using htouches
      exact hcreates.extends.writes _ hown.written
  · exact hwrites (.inl (by simpa [RowMutation.touches] using htouches))
  · exact hwrites (.inr (by simpa [RowMutation.touches] using htouches))

end History

/-! ## Creations on the default layer -/

def defaultLayer : DirectoryLayerState := ⟨nodePrefix, [], true, []⟩

def versionedRows : Rows := (∅ : Rows).set defaultLayer.versionKey directoryVersion

/-- The attempt of a successful creation at a path of one name, with the random word that the
allocator may draw. -/
def creationOf (snapshot : Rows) (name : String) (explicit : Option Bytes) (random : UInt32) :
    Option Attempt :=
  match Attempt.createOrOpenInternal 2 defaultLayer [text name] explicit none true false
    { snapshot, draws := [(1, [random])] } with
  | .ok (_, attempt) => some attempt
  | .error _ => none

theorem runs_of_creationOf {snapshot : Rows} {name : String} {explicit : Option Bytes}
    {random : UInt32} {attempt : Attempt}
    (h : creationOf snapshot name explicit random = some attempt) :
    attempt.Runs defaultLayer snapshot := by
  rw [creationOf] at h
  split at h
  · rename_i output attempt' hok
    cases h
    exact ⟨_, _, _, _, _, _, _, _, hok⟩
  · cases h

theorem disjoint_of_reads {earlier later : Attempt} {v w : Nat}
    (h : ∀ key ∈ earlier.writes, later.reads key = false) :
    Disjoint (later.commit v).reads (earlier.commit w).writes := by
  rw [Set.disjoint_right]
  intro key hkey hread
  have hnot := h key hkey
  change later.reads key = true at hread
  simp [hread] at hnot

/-- The attempts of creations on the versioned rows: one with an automatic prefix, one with the same
prefix as a manual one, and one with a manual prefix that extends it. -/
def automaticAttempt : Attempt := (creationOf versionedRows "a" none 5).get (by rfl)

def manualAttempt : Attempt := (creationOf versionedRows "m" (some [0x15, 0x05]) 0).get (by rfl)

def extendingAttempt : Attempt :=
  (creationOf versionedRows "e" (some [0x15, 0x05, 0x01]) 0).get (by rfl)

def laterAttempt : Attempt :=
  (creationOf (rowsAt versionedRows [extendingAttempt.commit 0]) "l" (some [0x15, 0x05, 0x02])
    0).get (by rfl)

theorem automaticAttempt_eq : creationOf versionedRows "a" none 5 = some automaticAttempt :=
  (Option.some_get _).symm

theorem manualAttempt_eq :
    creationOf versionedRows "m" (some [0x15, 0x05]) 0 = some manualAttempt :=
  (Option.some_get _).symm

theorem extendingAttempt_eq :
    creationOf versionedRows "e" (some [0x15, 0x05, 0x01]) 0 = some extendingAttempt :=
  (Option.some_get _).symm

theorem laterAttempt_eq :
    creationOf (rowsAt versionedRows [extendingAttempt.commit 0]) "l" (some [0x15, 0x05, 0x02]) 0 =
      some laterAttempt :=
  (Option.some_get _).symm

theorem exposed_automaticAttempt : Exposed defaultLayer (automaticAttempt.commit 0) :=
  have hmem : (⟨defaultLayer, [0x15, 0x05], true⟩ : Creation) ∈ automaticAttempt.created := by decide
  (runs_of_creationOf automaticAttempt_eq).exposed hmem rfl rfl 0

theorem exposed_manualAttempt : Exposed defaultLayer (manualAttempt.commit 0) :=
  have hmem : (⟨defaultLayer, [0x15, 0x05], false⟩ : Creation) ∈ manualAttempt.created := by decide
  (runs_of_creationOf manualAttempt_eq).exposed hmem rfl rfl 0

theorem exposed_extendingAttempt : Exposed defaultLayer (extendingAttempt.commit 0) :=
  have hmem : (⟨defaultLayer, [0x15, 0x05, 0x01], false⟩ : Creation) ∈ extendingAttempt.created := by
    decide
  (runs_of_creationOf extendingAttempt_eq).exposed hmem rfl rfl 0

theorem exposed_laterAttempt : Exposed defaultLayer (laterAttempt.commit 1) :=
  have hmem : (⟨defaultLayer, [0x15, 0x05, 0x02], false⟩ : Creation) ∈ laterAttempt.created := by
    decide
  (runs_of_creationOf laterAttempt_eq).exposed hmem rfl rfl 1

/-- A creation that is committed after another one from the same snapshot. -/
theorem rowHistory_pair {init : Rows} {earlier later : Attempt}
    (hearlier : Exposed defaultLayer (earlier.commit 0))
    (hlater : Exposed defaultLayer (later.commit 0))
    (hreads : ∀ key ∈ earlier.writes, later.reads key = false) :
    RowHistory defaultLayer init [later.commit 0, earlier.commit 0] := by
  have hfirst : RowHistory defaultLayer init [earlier.commit 0] :=
    .commit .nil (Nat.zero_le _) hearlier (by simp [Occ.since])
  refine .commit hfirst (Nat.zero_le _) hlater ?_
  intro transaction hmem
  rw [List.mem_singleton.mp hmem]
  exact disjoint_of_reads hreads

theorem layered_extending :
    Layered defaultLayer (rowsAt versionedRows [extendingAttempt.commit 0]) := by
  intro p q name hget
  have hrows : rowsAt versionedRows [extendingAttempt.commit 0] =
      (versionedRows.set (childKey nodePrefix nodePrefix (text "e")) [0x15, 0x05, 0x01]).set
        (layerKey nodePrefix [0x15, 0x05, 0x01]) [] := by
    rfl
  rw [hrows] at hget ⊢
  have hlayer : childKey defaultLayer.nodeSubspace p name ≠
      layerKey nodePrefix [0x15, 0x05, 0x01] := (ne_childKey _ _ _ _ _).symm
  have hversion : childKey defaultLayer.nodeSubspace p name ≠ defaultLayer.versionKey :=
    (ne_childKey _ _ _ _ _).symm
  rw [OrderedMap.get?_set_of_ne _ _ hlayer, OrderedMap.get?_set] at hget
  split_ifs at hget
  · cases hget
    simp [defaultLayer]
  · rw [versionedRows, OrderedMap.get?_set_of_ne _ _ hversion] at hget
    cases hget

/--
An automatic creation that is committed beside a manual one with an overlapping prefix, and before
it, keeps it from committing, unless a third transaction has written a row under a prefix that
extends the automatic one after the snapshot of the automatic creation and before that of the
manual one.
-/
theorem automatic_then_manual (layer : DirectoryLayerState) (init : Rows)
    (newer older : List RowCommit) (automatic manual : Attempt) (automaticVersion manualVersion : Nat)
    (automaticPrefix manualPrefix : Bytes)
    (hhistory : RowHistory layer init (newer ++ automatic.commit automaticVersion :: older))
    (hautomatic : automatic.Runs layer (rowsAt init (Occ.before older automaticVersion)))
    (hallocated : (⟨layer, automaticPrefix, true⟩ : Creation) ∈ automatic.created)
    (hconcurrent : manualVersion ≤ older.length)
    (hmanual : manual.Runs layer (rowsAt init (Occ.before older manualVersion)))
    (hchosen : (⟨layer, manualPrefix, false⟩ : Creation) ∈ manual.created)
    (hlayered : Layered layer (rowsAt init (Occ.before older manualVersion)))
    (hoverlap : automaticPrefix <+: manualPrefix ∨ manualPrefix <+: automaticPrefix)
    (hcommits : ∀ later ∈
      Occ.since (newer ++ automatic.commit automaticVersion :: older) manualVersion,
      Disjoint (manual.commit manualVersion).reads later.writes) :
    ∃ third ∈ Occ.since (Occ.before older manualVersion) automaticVersion, ∃ p key,
      automaticPrefix <+: p ∧ IsNodeRow layer.nodeSubspace p key ∧ key ∈ third.writes := by
  obtain ⟨hsnapshot, hplaced⟩ := hautomatic.placed hallocated (hmanual.allowed hchosen)
  obtain ⟨hsnapshot', hguards⟩ := hmanual.guards hchosen hlayered
  rw [Occ.since_append (by simp; omega), ← List.singleton_append (l := older),
    Occ.since_append hconcurrent] at hcommits
  have hversion : automaticVersion ≤ older.length := by
    cases Occ.Committed.of_append hhistory with
    | commit _ hversion _ _ => exact hversion
  have hexposed {transaction : RowCommit} (hmem : transaction ∈ older) :
      Exposed layer transaction :=
    hhistory.exposed (by simp [hmem])
  rcases hguards automaticPrefix hplaced.content hplaced.unextended.root hoverlap with
    hread | ⟨p, key, hp, hrow, hsome, hread⟩
  · exact absurd hplaced.written
      (Set.disjoint_left.mp (hcommits (automatic.commit automaticVersion) (by simp)) hread)
  · have hroot : p ≠ layer.nodeSubspace := fun heq => hplaced.unextended.root (heq ▸ hp)
    have hnone := hplaced.unextended.rows p key hp hrow
    rw [hsnapshot] at hnone
    rw [hsnapshot'] at hsome
    have hchange : (rowsAt init (Occ.before older manualVersion)).get? key ≠
        (rowsAt init (Occ.before older automaticVersion)).get? key := by
      rw [hnone]
      exact Option.isSome_iff_ne_none.mp hsome
    rcases le_or_gt automaticVersion manualVersion with hle | hlt
    · rw [← Occ.since_append_before (Occ.before older manualVersion) automaticVersion,
        Occ.before_before hle hconcurrent] at hchange
      obtain ⟨third, hthird, hwrite⟩ := exists_write_of_change (fun transaction hmem =>
        hexposed (List.mem_of_mem_drop (List.mem_of_mem_take hmem))) hrow hroot hchange
      exact ⟨third, hthird, p, key, hp, hrow, hwrite⟩
    · -- The row is gone in the newer snapshot, so that a commit the manual creation has not seen
      -- has cleared what it has read.
      rw [← Occ.since_append_before (Occ.before older automaticVersion) manualVersion,
        Occ.before_before hlt.le hversion] at hchange
      obtain ⟨third, hthird, hwrite⟩ := exists_write_of_change (fun transaction hmem =>
        hexposed (List.mem_of_mem_drop (List.mem_of_mem_take hmem))) hrow hroot hchange.symm
      have hunseen := Occ.mem_since_of_mem_before hlt.le hversion hthird
      exact absurd hwrite (Set.disjoint_left.mp (hcommits third (by simp [hunseen])) hread)

/-- The exception is one: beside a third creation under the automatic prefix, both commit. -/
theorem automatic_then_manual_third :
    RowHistory defaultLayer versionedRows
        [laterAttempt.commit 1, automaticAttempt.commit 0, extendingAttempt.commit 0] ∧
      ∃ third ∈ Occ.since (Occ.before [extendingAttempt.commit 0] 1) 0, ∃ p key,
        [0x15, 0x05] <+: p ∧ IsNodeRow defaultLayer.nodeSubspace p key ∧ key ∈ third.writes := by
  have hpair : RowHistory defaultLayer versionedRows
      [automaticAttempt.commit 0, extendingAttempt.commit 0] :=
    rowHistory_pair exposed_extendingAttempt exposed_automaticAttempt (by decide)
  have hdisjoint : ∀ later ∈
      Occ.since [automaticAttempt.commit 0, extendingAttempt.commit 0] 1,
      Disjoint (laterAttempt.commit 1).reads later.writes := by
    intro transaction hmem
    rw [List.mem_singleton.mp hmem]
    exact disjoint_of_reads (by decide)
  refine ⟨.commit hpair (by decide) exposed_laterAttempt hdisjoint, ?_⟩
  exact automatic_then_manual defaultLayer versionedRows [] [extendingAttempt.commit 0]
    automaticAttempt laterAttempt 0 1 [0x15, 0x05] [0x15, 0x05, 0x02] hpair
    (runs_of_creationOf automaticAttempt_eq) (by decide) le_rfl
    (runs_of_creationOf laterAttempt_eq) (by decide) layered_extending (.inl (by decide)) hdisjoint

/-- Of a manual creation and an automatic one of the same prefix, at different paths and with the
same snapshot, both commit when the manual one comes first. -/
theorem manual_then_automatic :
    creationOf versionedRows "m" (some [0x15, 0x05]) 0 = some manualAttempt ∧
      creationOf versionedRows "a" none 5 = some automaticAttempt ∧
      manualAttempt.created = [⟨defaultLayer, [0x15, 0x05], false⟩] ∧
      automaticAttempt.created = [⟨defaultLayer, [0x15, 0x05], true⟩] ∧
      RowHistory defaultLayer versionedRows [automaticAttempt.commit 0, manualAttempt.commit 0] := by
  refine ⟨manualAttempt_eq, automaticAttempt_eq, by decide, by decide, ?_⟩
  exact rowHistory_pair exposed_manualAttempt exposed_automaticAttempt (by decide)

end FoundationDbEffect.Directory
