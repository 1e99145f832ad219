import FoundationDbEffect.Directory.Rearrangements

/-!
# When operations succeed

In a regular layer the operations on accepted paths end, and whether they succeed is known from
the directories alone.  A list gives the names of the children in the order of their bytes.
-/

namespace FoundationDbEffect.Directory

open FoundationDbEffect.Foundation FoundationDbEffect.TupleLayer
open FoundationDbEffect.Foundation.ByteOrder

variable {rows next : Rows} {layer : DirectoryLayerState} {head nodeSubspace p q : Bytes}
  {name : CodeUnits} {path front rest : DirectoryPath}

/-! ## Lists -/

def utf8 (name : CodeUnits) : Bytes := encodeUtf8 (scalars name)

theorem childKey_lt_iff (nodeSubspace p : Bytes) (name name' : CodeUnits) :
    childKey nodeSubspace p name < childKey nodeSubspace p name' ↔ utf8 name < utf8 name' := by
  have hescaped := lexBytes_encodeEscaped (utf8 name) (utf8 name') follows_nil follows_nil
  rw [List.append_nil, List.append_nil, show lexBytes [] [] = .eq from rfl, Ordering.then_eq]
    at hescaped
  rw [← lexBytes_eq_lt_iff, ← lexBytes_eq_lt_iff, ← hescaped]
  simp only [childKey, encodeTuple, encodeValue, List.append_nil]
  rw [lexBytes, compareLex_append_left, compareLex_append_left, compareLex_cons_self]
  rfl

theorem mapM_childNames {children : List (Bytes × Bytes)}
    (h : ∀ row ∈ children, ∃ name, firstRejection [.string name] = none ∧
      row.1 = childKey nodeSubspace p name) :
    ∃ names, children.mapM (fun child => do
        let tuple ← unpacked (nodeKey nodeSubspace p) child.1 "invalid directory child key"
        directoryChildName tuple) = Except.ok names ∧
      children.map Prod.fst = names.map (childKey nodeSubspace p) ∧ Accepted names := by
  induction children with
  | nil => exact ⟨[], rfl, rfl, fun name hmem => by cases hmem⟩
  | cons row children ih =>
      obtain ⟨name, hname, hkey⟩ := h row List.mem_cons_self
      obtain ⟨names, hnames, hkeys, haccepted⟩ :=
        ih fun row' hmem => h row' (List.mem_cons_of_mem _ hmem)
      have hunpacked : unpacked (nodeKey nodeSubspace p) row.1 "invalid directory child key" =
          .ok [.integer 0, .string name] := by
        rw [hkey, childKey]
        exact unpacked_eq _ (by simpa [firstRejection, rejection] using hname) _
      refine ⟨name :: names, ?_, by simp [hkey, hkeys], ?_⟩
      · rw [List.mapM_cons, hunpacked]
        refine bind_eq_ok.mpr ⟨name, rfl, bind_eq_ok.mpr ⟨names, hnames, rfl⟩⟩
      · intro name' hmem
        rcases List.mem_cons.mp hmem with rfl | hmem
        · exact hname
        · exact haccepted name' hmem

structure ChildNames (rows : Rows) (nodeSubspace : Bytes) (path : DirectoryPath)
    (names : List CodeUnits) : Prop where
  ordered : names.Pairwise fun name name' => utf8 name < utf8 name'
  complete : ∀ name, name ∈ names ↔ directories rows nodeSubspace (path ++ [name]) ≠ none

theorem childNames_of_rows (hregular : RegularRows rows nodeSubspace)
    (hp : Reached rows nodeSubspace path p)
    (hplain : rows.get? (layerKey nodeSubspace p) ≠ some partitionTag) :
    ∃ names, (allInRange rows (childRows nodeSubspace p ++ [0x00])
        (childRows nodeSubspace p ++ [0xff])).mapM (fun child => do
          let tuple ← unpacked (nodeKey nodeSubspace p) child.1 "invalid directory child key"
          directoryChildName tuple) = Except.ok names ∧ ChildNames rows nodeSubspace path names := by
  have hrow {row : Bytes × Bytes} : row ∈ allInRange rows (childRows nodeSubspace p ++ [0x00])
      (childRows nodeSubspace p ++ [0xff]) ↔ Points rows nodeSubspace p row.1 row.2 := by
    rw [allInRange, OrderedMap.mem_rows]
    rfl
  have hnamed : ∀ row ∈ allInRange rows (childRows nodeSubspace p ++ [0x00])
      (childRows nodeSubspace p ++ [0xff]), ∃ name, firstRejection [.string name] = none ∧
        row.1 = childKey nodeSubspace p name :=
    fun row hmem => hregular.tree.named p row.1 row.2 hp.isNode (hrow.mp hmem)
  obtain ⟨names, hnames, hkeys, haccepted⟩ := mapM_childNames hnamed
  refine ⟨names, hnames, ?_, fun name => ?_⟩
  · have hsorted := (rows.rows_sorted (interval (childRows nodeSubspace p ++ [0x00])
      (childRows nodeSubspace p ++ [0xff])))
    rw [← List.pairwise_map (f := Prod.fst) (R := (· < ·))] at hsorted
    change (List.map Prod.fst (allInRange rows _ _)).Pairwise _ at hsorted
    rw [hkeys, List.pairwise_map] at hsorted
    exact hsorted.imp fun h => (childKey_lt_iff _ _ _ _).mp h
  · rw [directories, hp.follow_append, follow_cons_plain hplain]
    constructor
    · intro hmem
      have hkey : childKey nodeSubspace p name ∈ names.map (childKey nodeSubspace p) :=
        List.mem_map_of_mem hmem
      rw [← hkeys] at hkey
      obtain ⟨row, hmem', heq⟩ := List.mem_map.mp hkey
      have hget := (hrow.mp hmem').2
      rw [heq] at hget
      rw [childOf_eq_some.mpr ⟨haccepted name hmem, hget⟩]
      exact Option.some_ne_none _
    · intro hne
      cases hchild : childOf rows nodeSubspace p name with
      | none =>
          rw [hchild] at hne
          exact absurd rfl hne
      | some q =>
          obtain ⟨hname, hget⟩ := childOf_eq_some.mp hchild
          have hmem : (childKey nodeSubspace p name, q) ∈ _ := hrow.mpr (points_childKey hget)
          have hkey := List.mem_map_of_mem (f := Prod.fst) hmem
          rw [hkeys] at hkey
          obtain ⟨name', hmem', heq⟩ := List.mem_map.mp hkey
          obtain ⟨-, rfl⟩ := childKey_inj (haccepted name' hmem') hname heq
          exact hmem'

structure Lists (rows : Rows) (nodeSubspace : Bytes) (path : DirectoryPath)
    (result : Except DirectoryFailure (List CodeUnits)) : Prop where
  missing : directories rows nodeSubspace path = none →
    ∃ message, result = .error (.error .pathDoesNotExist message)
  found : directories rows nodeSubspace path ≠ none →
    ∃ names, result = .ok names ∧ ChildNames rows nodeSubspace path names

theorem Lists.lift {result : Except DirectoryFailure (List CodeUnits)}
    (h : Lists rows (p ++ nodePrefix) rest result) (hregular : Regular rows nodeSubspace)
    (hp : Reached rows nodeSubspace front p) (hpartition : IsPartition rows nodeSubspace p) :
    Lists rows nodeSubspace (front ++ rest) result := by
  have hinner {tail : DirectoryPath} (htail : tail ≠ []) :
      directories rows nodeSubspace (front ++ tail) = directories rows (p ++ nodePrefix) tail :=
    directories_partition hregular hp hpartition htail
  have hiff : directories rows nodeSubspace (front ++ rest) = none ↔
      directories rows (p ++ nodePrefix) rest = none := by
    by_cases hrest : rest = []
    · subst hrest
      rw [List.append_nil, directories, hp.follow_eq]
      exact ⟨fun h => absurd h (Option.some_ne_none _), fun h => absurd h (Option.some_ne_none _)⟩
    · rw [hinner hrest]
  refine ⟨fun hnone => h.missing (hiff.mp hnone), fun hne => ?_⟩
  obtain ⟨names, hresult, hnames⟩ := h.found fun hnone => hne (hiff.mpr hnone)
  refine ⟨names, hresult, hnames.ordered, fun name => ?_⟩
  rw [hnames.complete, List.append_assoc, hinner (by simp)]

theorem listInternal_lists {fuel : Nat} (h : Regular rows layer.nodeSubspace)
    (hpath : Accepted path) (hfuel : path.length + 1 < fuel) :
    Lists rows layer.nodeSubspace path (listInternal rows fuel layer path) := by
  induction fuel generalizing layer path with
  | zero => omega
  | succ fuel ih =>
      obtain ⟨rows', hversion⟩ := checkVersion_ok h.regularRows false
      obtain ⟨found, hfound⟩ := findNode_ok rows layer hpath
      obtain rfl := Attempt.rows_of_checkVersion hversion
      have hnested {front rest : DirectoryPath} {p : Bytes} (hsplit : path = front ++ rest)
          (hp : Reached rows' layer.nodeSubspace front p)
          (hpartition : IsPartition rows' layer.nodeSubspace p) :
          Lists rows' layer.nodeSubspace path
            (listInternal rows' fuel (nestedLayer p (layer.path ++ front)) rest) := by
        subst hsplit
        have hfront := List.length_pos_iff.mpr (hp.ne_nil hpartition)
        rw [List.length_append] at hfuel
        have hregular : Regular rows' (nestedLayer p (layer.path ++ front)).nodeSubspace :=
          (h.partition hp.isNode hpartition).1
        exact .lift (ih hregular hpath.right (by omega)) h hp hpartition
      rw [listInternal, hversion]
      simp only [bind, Except.bind, hfound]
      rcases findNode_cases h.regularRows hfound with
        ⟨rfl, hends⟩ | ⟨p, hp, rfl⟩ | ⟨front, rest, p, rfl, hrest, hp, hpartition, rfl⟩
      · exact ⟨fun _ => ⟨_, rfl⟩, fun hne => absurd hends.directories_eq_none hne⟩
      · have hsome : directories rows' layer.nodeSubspace path ≠ none := by
          rw [directories, hp.follow_eq]
          exact Option.some_ne_none _
        by_cases hpartition : rows'.get? (layerKey layer.nodeSubspace p) = some partitionTag
        · have hroot : p ≠ layer.nodeSubspace := by
            rintro rfl
            exact h.regularRows.plain_root hpartition
          have hinside : isInPartition ⟨nodeKey layer.nodeSubspace p, path, path, partitionTag⟩ true =
              true := by simp [isInPartition]
          have hsubpath : partitionSubpath ⟨nodeKey layer.nodeSubspace p, path, path, partitionTag⟩ =
              [] := by simp [partitionSubpath]
          simp only [hpartition, Option.getD_some, hinside, if_true, partitionOf_eq, hsubpath]
          exact hnested (List.append_nil path).symm hp ⟨hroot, hpartition⟩
        · have hinside : isInPartition ⟨nodeKey layer.nodeSubspace p, path, path,
              (rows'.get? (layerKey layer.nodeSubspace p)).getD []⟩ true = false := by
            simp [isInPartition, getD_eq_partitionTag, hpartition]
          obtain ⟨names, hnames, hchildren⟩ := childNames_of_rows h.regularRows hp hpartition
          refine ⟨fun hnone => absurd hnone hsome, fun _ => ⟨names, ?_, hchildren⟩⟩
          dsimp only
          rw [hinside, if_neg Bool.false_ne_true, subspaceRange_eq _ rfl]
          exact hnames
      · obtain ⟨-, hinner, hsubpath⟩ := enter_partition layer front p hrest
        have hinside : isInPartition
            ⟨nodeKey layer.nodeSubspace p, front, front ++ rest, partitionTag⟩ true = true := by
          simp [isInPartition]
        simp only [hinside, if_true, hinner, hsubpath]
        exact hnested rfl hp hpartition

/-! ## Opening -/

theorem open_succeeds_iff {fuel : Nat} {transaction : DirectoryTransaction}
    {expectedLayer : Option Bytes} (hwithin : Within layer head)
    (hinv : LayerInv transaction.rows layer head) (hpath : Accepted path)
    (hfuel : path.length < fuel) :
    (∃ output transaction', createOrOpenInternal fuel layer path none expectedLayer false true
      transaction = .ok (output, transaction')) ↔
    path ≠ [] ∧ ∃ entry, directories transaction.rows layer.nodeSubspace path = some entry ∧
      ∀ expected, expectedLayer = some expected → expected ≠ [] → entry.layer = expected := by
  constructor
  · rintro ⟨output, transaction', h⟩
    refine ⟨?_, ?_⟩
    · rintro rfl
      cases fuel with
      | zero => cases h
      | succ fuel =>
          obtain ⟨rows, -, h⟩ := bind_eq_ok.mp h
          rw [if_neg (by simp), if_pos List.length_nil] at h
          cases h
    · rcases (createOrOpenInternal_effect hwithin hinv h).outcome with
        ⟨-, hentry, -, hlayer⟩ | ⟨_, -, -, hcreate, -⟩
      · exact ⟨_, hentry, hlayer⟩
      · cases hcreate
  · rintro ⟨hne, entry, hentry, hlayer⟩
    induction fuel generalizing layer head path with
    | zero => omega
    | succ fuel ih =>
        have hregular := hinv.regular
        obtain ⟨rows', hversion⟩ := checkVersion_ok hregular.regularRows false
        obtain ⟨found, hfound⟩ := findNode_ok transaction.rows layer hpath
        obtain rfl := Attempt.rows_of_checkVersion hversion
        rw [createOrOpenInternal, hversion]
        simp only [bind, Except.bind, Option.isSome_none, Bool.false_eq_true, false_and, if_false,
          List.length_eq_zero_iff, hne, hfound]
        rcases findNode_cases hregular.regularRows hfound with
          ⟨rfl, hends⟩ | ⟨p, hp, rfl⟩ | ⟨front, rest, p, rfl, hrest, hp, hpartition, rfl⟩
        · rw [hends.directories_eq_none] at hentry
          cases hentry
        · rw [directories, hp.follow_eq, Option.some.injEq] at hentry
          subst hentry
          refine ⟨outputOf layer p path
            ((transaction.rows.get? (layerKey layer.nodeSubspace p)).getD []), transaction, ?_⟩
          have hmatch : expectedLayer.any (fun expected => decide (expected.length > 0 ∧
              expected ≠ (transaction.rows.get? (layerKey layer.nodeSubspace p)).getD [])) =
              false := by
            cases expectedLayer with
            | none => rfl
            | some expected =>
                rw [Option.any_some, decide_eq_false_iff_not]
                rintro ⟨hlength, hother⟩
                exact hother (hlayer expected rfl (List.length_pos_iff.mp hlength)).symm
          simp only [not_isInPartition, Bool.false_eq_true, if_false, Bool.not_true, hmatch,
            getContents, contentsOfNode_eq]
        · obtain ⟨hinside, hinner, hsubpath⟩ := enter_partition layer front p hrest
          simp only [hinside, if_true, hinner, Bool.not_false, hsubpath]
          have hfront := List.length_pos_iff.mpr (hp.ne_nil hpartition)
          rw [List.length_append] at hfuel
          rw [directories_partition hregular hp hpartition hrest] at hentry
          exact ih (Within.nested p (layer.path ++ front)) (hinv.nested hp.isNode hpartition _)
            hpath.right (by omega) hrest hentry

/-! ## Removing -/

theorem remove_succeeds_iff {fuel : Nat} {failIfMissing : Bool} (hwithin : Within layer head)
    (hinv : LayerInv rows layer head) (hpath : Accepted path) (hfuel : path.length < fuel) :
    (∃ removed next, removeInternal fuel layer path failIfMissing rows = .ok (removed, next)) ↔
      path ≠ [] ∧ (failIfMissing = true → directories rows layer.nodeSubspace path ≠ none) := by
  constructor
  · rintro ⟨removed, next, h⟩
    refine ⟨?_, fun hfail hnone => ?_⟩
    · rintro rfl
      cases fuel with
      | zero => cases h
      | succ fuel =>
          obtain ⟨checked, -, h⟩ := bind_eq_ok.mp h
          rw [if_pos List.length_nil] at h
          cases h
    · have heffect := removeInternal_effect hwithin hinv h
      have hremoved := heffect.removed_iff
      rw [heffect.missing hfail, hnone] at hremoved
      cases hremoved
  · rintro ⟨hne, hexists⟩
    induction fuel generalizing layer head path rows with
    | zero => omega
    | succ fuel ih =>
        obtain ⟨checked, hversion⟩ := checkVersion_ok hinv.regular.regularRows true
        obtain ⟨hquiet, -⟩ := checkVersion_quiet hversion
        have hstart := hquiet.evolves hinv hwithin
        have hregular := hstart.inv.regular
        rw [← hquiet.directories_eq hinv.regular] at hexists
        obtain ⟨found, hfound⟩ := findNode_ok checked layer hpath
        rw [removeInternal, hversion]
        simp only [bind, Except.bind, List.length_eq_zero_iff, hne, if_false, hfound]
        rcases findNode_cases hregular.regularRows hfound with
          ⟨rfl, hends⟩ | ⟨p, hp, rfl⟩ | ⟨front, rest, p, rfl, hrest, hp, hpartition, rfl⟩
        · have hfail : ¬ failIfMissing = true :=
            fun hfail => hexists hfail hends.directories_eq_none
          simp only [if_neg hfail]
          exact ⟨_, _, rfl⟩
        · simp only [not_isInPartition, Bool.false_eq_true, if_false]
          obtain ⟨front, name, parent, rfl, hparent, hplain, hname, hget⟩ := hp.parent hne
          obtain ⟨swept, hswept, -, hcleared⟩ :=
            removeRecursive_child hregular.regularRows hparent hplain hname hget
          simp only [hswept, hcleared]
          exact ⟨_, _, rfl⟩
        · obtain ⟨hinside, hinner, hsubpath⟩ := enter_partition layer front p hrest
          simp only [hinside, if_true, hinner, hsubpath]
          have hfront := List.length_pos_iff.mpr (hp.ne_nil hpartition)
          rw [List.length_append] at hfuel
          rw [directories_partition hregular hp hpartition hrest] at hexists
          exact ih (Within.nested p (layer.path ++ front))
            (hstart.inv.nested hp.isNode hpartition _) hpath.right (by omega) hrest hexists

/-! ## Moving -/

theorem parent_inside {entry : Entry} (hregular : Regular rows nodeSubspace)
    (hp : Reached rows nodeSubspace front p) (hpartition : IsPartition rows nodeSubspace p)
    (hrest : rest ≠ []) (h : directories rows nodeSubspace (front ++ rest).dropLast = some entry) :
    (∃ entry', directories rows (p ++ nodePrefix) rest.dropLast = some entry' ∧
      entry'.inner = entry.inner) ∧ p <+: entry.inner := by
  obtain ⟨hinner, hunder⟩ := hregular.partition hp.isNode hpartition
  have hle : p <+: p ++ nodePrefix := List.prefix_append _ _
  rw [List.dropLast_append_of_ne_nil hrest] at h
  by_cases hnil : rest.dropLast = []
  · rw [hnil, List.append_nil, directories, hp.follow_eq, Option.some.injEq] at h
    subst h
    rw [hnil, entryOf_inner_partition hpartition.layer]
    exact ⟨⟨_, rfl, entryOf_inner_plain hinner.regularRows.plain_root⟩, hle⟩
  · rw [directories_partition hregular hp hpartition hnil] at h
    exact ⟨⟨entry, h, rfl⟩, (((directories_eq_some hinner).mp h).of_under hinner hle hunder).2.2⟩

/-- A directory can be moved to a path where there is none yet, outside of itself, in a directory
of the layer that holds it. -/
structure CanMove (rows : Rows) (nodeSubspace : Bytes) (oldPath newPath : DirectoryPath) : Prop where
  nonempty : oldPath ≠ []
  outside : ¬ oldPath <+: newPath
  missing : directories rows nodeSubspace newPath = none
  sameLayer : ∃ entry parent, directories rows nodeSubspace oldPath = some entry ∧
    directories rows nodeSubspace newPath.dropLast = some parent ∧
    parent.inner = entry.nodeSubspace

theorem CanMove.inside {oldPath newPath : DirectoryPath}
    (h : CanMove rows nodeSubspace (front ++ oldPath) (front ++ newPath))
    (hregular : Regular rows nodeSubspace) (hp : Reached rows nodeSubspace front p)
    (hpartition : IsPartition rows nodeSubspace p) (hold : oldPath ≠ []) (hnew : newPath ≠ []) :
    CanMove rows (p ++ nodePrefix) oldPath newPath := by
  obtain ⟨entry, parent, hentry, hparent, hlayer⟩ := h.sameLayer
  obtain ⟨⟨parent', hparent', hinner⟩, -⟩ := parent_inside hregular hp hpartition hnew hparent
  rw [directories_partition hregular hp hpartition hold] at hentry
  refine ⟨hold, fun hle => h.outside ((List.prefix_append_right_inj front).mpr hle), ?_,
    entry, parent', hentry, hparent', hinner.trans hlayer⟩
  rw [← directories_partition hregular hp hpartition hnew]
  exact h.missing

/-- A directory inside a partition can be moved to paths through the partition only. -/
theorem CanMove.through {oldPath newPath : DirectoryPath}
    (h : CanMove rows nodeSubspace (front ++ oldPath) newPath)
    (hregular : Regular rows nodeSubspace) (hp : Reached rows nodeSubspace front p)
    (hpartition : IsPartition rows nodeSubspace p) (hold : oldPath ≠ []) :
    ∃ rest, newPath = front ++ rest ∧ rest ≠ [] ∧ CanMove rows (p ++ nodePrefix) oldPath rest := by
  obtain ⟨entry, parent, hentry, hparent, hlayer⟩ := h.sameLayer
  have htree := hregular.regularRows.tree
  have hhead : p <+: parent.inner := by
    obtain ⟨hinner, hunder⟩ := hregular.partition hp.isNode hpartition
    rw [directories_partition hregular hp hpartition hold] at hentry
    rw [hlayer]
    exact (((directories_eq_some hinner).mp hentry).of_under hinner (List.prefix_append _ _)
      hunder).1
  have hfront : front <+: newPath.dropLast := by
    generalize newPath.dropLast = above at hparent
    cases (directories_eq_some hregular).mp hparent with
    | @inLayer _ q _ hq =>
        by_cases hlayer' : rows.get? (layerKey nodeSubspace q) = some partitionTag
        · rw [entryOf_inner_partition hlayer'] at hhead
          obtain rfl := htree.eq_of_heads hp.isNode hq.isNode hhead (List.prefix_append _ _)
          rw [hp.path_eq htree hq]
        · rw [entryOf_inner_plain hlayer'] at hhead
          exact absurd (htree.prefixFree p _ hp.isNode (.refl _) hhead) hpartition.ne_root
    | inPartition hq hpartition' _ hinside =>
        have hhead' := (hinside.head_inside hregular hq.isNode hpartition').2
        obtain rfl := htree.eq_of_heads hp.isNode hq.isNode hhead hhead'
        rw [hp.path_eq htree hq]
        exact List.prefix_append _ _
  have hne : newPath ≠ [] := by
    rintro rfl
    cases h.missing
  obtain ⟨rest, hrest⟩ := hfront
  have hsplit : newPath = front ++ (rest ++ [newPath.getLast hne]) := by
    rw [← List.append_assoc, hrest, List.dropLast_append_getLast]
  rw [hsplit] at h
  exact ⟨_, hsplit, by simp, h.inside hregular hp hpartition hold (by simp)⟩

theorem move_inLayer {oldPath newPath : DirectoryPath} {parent : Entry}
    (hregular : RegularRows rows layer.nodeSubspace) (hempty : oldPath ≠ [])
    (hp : Reached rows layer.nodeSubspace oldPath p) (hnew : Accepted newPath)
    (hends : Ends rows layer.nodeSubspace newPath none)
    (hparent : directories rows layer.nodeSubspace newPath.dropLast = some parent) :
    ∃ newName found newKey next, newPath.getLast? = some newName ∧
      findNode rows layer newPath.dropLast = .ok (some found) ∧
      packed found.subspace [.integer 0, .string newName] "invalid destination directory key" =
        .ok newKey ∧
      removeFromParent layer oldPath (rows.set newKey p) = .ok next := by
  have hne : newPath ≠ [] := by
    rintro rfl
    cases hends.directories_eq_none
  have hsplit : newPath.dropLast ++ [newPath.getLast hne] = newPath :=
    List.dropLast_append_getLast hne
  have haccepted : Accepted newPath.dropLast :=
    fun name hmem => hnew name (List.mem_of_mem_dropLast hmem)
  have hname : firstRejection [.string (newPath.getLast hne)] = none :=
    hnew _ (List.getLast_mem hne)
  obtain ⟨found, hfound⟩ := findNode_ok rows layer haccepted
  cases found with
  | none =>
      rw [(ends_findNode hregular hfound).directories_eq_none] at hparent
      cases hparent
  | some found =>
      obtain ⟨newParent, hsubspace, hparent', -⟩ := hends.parent hregular hfound
      obtain ⟨front, name, oldParent, rfl, hparent'', hplain, hname', -⟩ := hp.parent hempty
      have hmissing : directories rows layer.nodeSubspace
          (newPath.dropLast ++ [newPath.getLast hne]) = none := by
        rw [hsplit, hends.directories_eq_none]
      refine ⟨newPath.getLast hne, found, childKey layer.nodeSubspace newParent (newPath.getLast hne),
        _, List.getLast?_eq_some_getLast hne, hfound, ?_,
        removeFromParent_move hregular hparent'' hplain hname' hparent' hname hmissing p⟩
      rw [hsubspace]
      exact packed_childKey hname _ _ _

theorem move_succeeds_iff {fuel : Nat} {oldPath newPath : DirectoryPath}
    (hwithin : Within layer head) (hinv : LayerInv rows layer head) (hold : Accepted oldPath)
    (hnew : Accepted newPath) (hfuel : oldPath.length < fuel) :
    (∃ output next, moveInternal fuel layer oldPath newPath rows = .ok (output, next)) ↔
      CanMove rows layer.nodeSubspace oldPath newPath := by
  constructor
  · rintro ⟨output, next, h⟩
    have heffect := moveInternal_effect hwithin hinv h
    obtain ⟨parent, hparent, hinner⟩ := heffect.parent
    exact ⟨heffect.nonempty, heffect.outside, heffect.missing, _, parent, heffect.found, hparent,
      hinner⟩
  · intro hcan
    induction fuel generalizing layer head oldPath newPath rows with
    | zero => omega
    | succ fuel ih =>
        obtain ⟨checked, hversion⟩ := checkVersion_ok hinv.regular.regularRows true
        obtain ⟨hquiet, -⟩ := checkVersion_quiet hversion
        have hstart := hquiet.evolves hinv hwithin
        have hregular := hstart.inv.regular
        have hcan' : CanMove checked layer.nodeSubspace oldPath newPath := by
          have hdirectories := hquiet.directories_eq hinv.regular
          exact ⟨hcan.nonempty, hcan.outside, hdirectories ▸ hcan.missing,
            hdirectories ▸ hcan.sameLayer⟩
        obtain ⟨entry, parent, hentry, hparent, hlayer⟩ := hcan'.sameLayer
        have hbelow : pathStartsWith newPath oldPath = false := by
          rw [Bool.eq_false_iff]
          exact fun hle => hcan.outside (List.isPrefixOf_iff_prefix.mp hle)
        obtain ⟨foundOld, hfoundOld⟩ := findNode_ok checked layer hold
        obtain ⟨foundNew, hfoundNew⟩ := findNode_ok checked layer hnew
        rw [moveInternal, hversion]
        simp only [bind, Except.bind, List.length_eq_zero_iff, hcan.nonempty, if_false, hbelow,
          Bool.false_eq_true, hfoundOld]
        rcases findNode_cases hregular.regularRows hfoundOld with
          ⟨rfl, hends⟩ | ⟨p, hp, rfl⟩ | ⟨front, rest, p, rfl, hrest, hp, hpartition, rfl⟩
        · rw [hends.directories_eq_none] at hentry
          cases hentry
        · rw [directories, hp.follow_eq, Option.some.injEq] at hentry
          subst hentry
          simp only [hfoundNew, not_isInPartition]
          rcases findNode_cases hregular.regularRows hfoundNew with
            ⟨rfl, hends⟩ | ⟨q, hq, rfl⟩ | ⟨front, rest, q, rfl, hrest, hq, hpartition, rfl⟩
          · obtain ⟨newName, found, newKey, moved, hlast, hfound, hkey, hmoved⟩ :=
              move_inLayer hregular.regularRows hcan.nonempty hp hnew hends hparent
            simp only [Bool.false_eq_true, if_false, hlast, hfound, nodePrefixOf_eq, hkey, hmoved,
              contentsOfNode_eq]
            exact ⟨_, _, rfl⟩
          · have hmissing := hcan'.missing
            rw [directories, hq.follow_eq] at hmissing
            cases hmissing
          · -- The parent would be in the partition, and the directory is not.
            have hhead := (parent_inside hregular hq hpartition hrest hparent).2
            rw [hlayer] at hhead
            exact absurd (hregular.regularRows.tree.prefixFree q _ hq.isNode (.refl _) hhead)
              hpartition.ne_root
        · obtain ⟨hold', hnested, hsubpath⟩ := enter_partition layer front p hrest
          obtain ⟨rest', rfl, hrest', hcan''⟩ := hcan'.through hregular hp hpartition hrest
          simp only [hfoundNew, hold']
          rcases findNode_cases hregular.regularRows hfoundNew with
            ⟨rfl, hends⟩ | ⟨q, hq, -⟩ | ⟨front', rest'', q, hsplit, hrest'', hq, hpartition', rfl⟩
          · have hplain := hends.plain_of_entry (List.prefix_append front rest') hp.follow_eq
            exact absurd (getD_eq_partitionTag.mpr hpartition.layer) hplain
          · have hmissing := hcan'.missing
            rw [directories, hq.follow_eq] at hmissing
            cases hmissing
          · have hfronts : front = front' := by
              rcases List.prefix_or_prefix_of_prefix (List.prefix_append front rest')
                (hsplit ▸ List.prefix_append front' rest'') with habove | hbelow
              · exact hq.eq_of_partition hp hpartition habove
              · exact (hp.eq_of_partition hq hpartition' hbelow).symm
            subst hfronts
            obtain rfl := List.append_cancel_left hsplit
            obtain ⟨hnew', -, hsubpath'⟩ := enter_partition layer front p hrest'
            obtain rfl := hp.node_eq hq
            simp only [hnew', hnested, hsubpath, hsubpath', and_self, if_true]
            have hfront := List.length_pos_iff.mpr (hp.ne_nil hpartition)
            rw [List.length_append] at hfuel
            exact ih (Within.nested p (layer.path ++ front))
              (hstart.inv.nested hp.isNode hpartition _) hold.right hnew.right (by omega) hcan''

end FoundationDbEffect.Directory
