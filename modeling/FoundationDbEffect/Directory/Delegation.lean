import FoundationDbEffect.Directory.Handles

/-!
# Calls through partitions

A layer hands a path through a partition to the layer inside, with the rest of the path, and does
nothing else.  So what a call does depends on the absolute path only, and not on the handle that
is asked.
-/

namespace FoundationDbEffect.Directory

open FoundationDbEffect.Foundation FoundationDbEffect.TupleLayer
open FoundationDbEffect.Foundation.ByteOrder

/-! ## Fuel -/

section

variable {rows : Rows} {layer : DirectoryLayerState} {path : DirectoryPath} {found : Node}

/-- The rest of a path behind a partition is shorter. -/
theorem partitionSubpath_lt (h : findNode rows layer path = .ok (some found))
    (hinside : isInPartition found false = true) :
    (partitionSubpath found).length < path.length := by
  cases path with
  | nil =>
      rw [findNode, DirectoryLayerState.rootNode, loadLayer_eq] at h
      obtain rfl := Option.some.inj (Except.ok.inj h)
      rw [not_isInPartition] at hinside
      cases hinside
  | cons name rest =>
      have hsearch : findNodeFrom rows layer (name :: rest)
          (nodeKey layer.nodeSubspace layer.nodeSubspace) [] [] (name :: rest) = .ok (some found) := h
      obtain ⟨front, last, behind, q, p, hsplit, -, -, -, rfl, -⟩ :=
        findNodeFrom_some (List.cons_ne_nil _ _) hsearch
      rw [hsplit, List.nil_append, partitionSubpath_eq]
      simp only [List.length_append, List.length_cons]
      omega

theorem createInternal_congr {prefixBytes nodeLayer : Option Bytes}
    {transaction : DirectoryTransaction}
    {createOrOpen createOrOpen' : DirectoryPath → DirectoryTransaction →
      Except DirectoryFailure (DirectoryOutput × DirectoryTransaction)}
    (h : path.dropLast.length ≠ 0 → createOrOpen path.dropLast = createOrOpen' path.dropLast) :
    createInternal createOrOpen layer path prefixBytes nodeLayer transaction =
      createInternal createOrOpen' layer path prefixBytes nodeLayer transaction := by
  have hparent (transaction : DirectoryTransaction) :
      getParentNode createOrOpen layer path transaction =
        getParentNode createOrOpen' layer path transaction := by
    rw [getParentNode, getParentNode]
    split_ifs with hroot
    · rfl
    · rw [h hroot]
  simp only [createInternal, hparent]

/-- A fuel above the length of the path is as good as any other one. -/
theorem createOrOpenInternal_fuel {fuel fuel' : Nat} (hfuel : path.length < fuel)
    (hfuel' : path.length < fuel') (prefixBytes expectedLayer : Option Bytes)
    (allowCreate allowOpen : Bool) (transaction : DirectoryTransaction) :
    createOrOpenInternal fuel layer path prefixBytes expectedLayer allowCreate allowOpen
        transaction =
      createOrOpenInternal fuel' layer path prefixBytes expectedLayer allowCreate allowOpen
        transaction := by
  induction fuel generalizing fuel' layer path prefixBytes expectedLayer allowCreate allowOpen
    transaction with
  | zero => omega
  | succ fuel ih =>
      cases fuel' with
      | zero => omega
      | succ fuel' =>
          rw [createOrOpenInternal, createOrOpenInternal]
          refine bind_congr_ok fun rows _ => ?_
          by_cases hmanual : prefixBytes.isSome = true ∧ ¬ layer.allowManualPrefixes = true
          · rw [if_pos hmanual, if_pos hmanual]
          rw [if_neg hmanual, if_neg hmanual]
          by_cases hempty : path.length = 0
          · rw [if_pos hempty, if_pos hempty]
          rw [if_neg hempty, if_neg hempty]
          refine bind_congr_ok fun found hfound => ?_
          cases found with
          | none =>
              cases allowCreate with
              | false => rfl
              | true =>
                  refine createInternal_congr fun _ => funext fun transaction => ?_
                  have hshorter : path.dropLast.length < path.length := by
                    rw [List.length_dropLast]
                    omega
                  exact ih (by omega) (by omega) none none true true transaction
          | some found =>
              dsimp only
              by_cases hinside : isInPartition found false = true
              · rw [if_pos hinside, if_pos hinside]
                have hshorter := partitionSubpath_lt hfound hinside
                refine bind_congr_ok fun inner _ => ?_
                cases allowCreate with
                | false => exact ih (by omega) (by omega) _ _ _ _ _
                | true => exact ih (by omega) (by omega) _ _ _ _ _
              · rw [if_neg hinside, if_neg hinside]

theorem existsInternal_fuel {fuel fuel' : Nat} (hfuel : path.length < fuel)
    (hfuel' : path.length < fuel') :
    existsInternal rows fuel layer path = existsInternal rows fuel' layer path := by
  induction fuel generalizing fuel' layer path with
  | zero => omega
  | succ fuel ih =>
      cases fuel' with
      | zero => omega
      | succ fuel' =>
          rw [existsInternal, existsInternal]
          refine bind_congr_ok fun checked hchecked => ?_
          obtain rfl := Attempt.rows_of_checkVersion hchecked
          refine bind_congr_ok fun found hfound => ?_
          cases found with
          | none => rfl
          | some found =>
              dsimp only
              split_ifs with hinside
              · have hshorter := partitionSubpath_lt hfound hinside
                exact bind_congr_ok fun inner _ => ih (by omega) (by omega)
              · rfl

theorem removeInternal_fuel {fuel fuel' : Nat} (hfuel : path.length < fuel)
    (hfuel' : path.length < fuel') (failIfMissing : Bool) (rows : Rows) :
    removeInternal fuel layer path failIfMissing rows =
      removeInternal fuel' layer path failIfMissing rows := by
  induction fuel generalizing fuel' layer path rows with
  | zero => omega
  | succ fuel ih =>
      cases fuel' with
      | zero => omega
      | succ fuel' =>
          rw [removeInternal, removeInternal]
          refine bind_congr_ok fun checked _ => ?_
          by_cases hempty : path.length = 0
          · rw [if_pos hempty, if_pos hempty]
          rw [if_neg hempty, if_neg hempty]
          refine bind_congr_ok fun found hfound => ?_
          cases found with
          | none => rfl
          | some found =>
              dsimp only
              split_ifs with hinside
              · have hshorter := partitionSubpath_lt hfound hinside
                exact bind_congr_ok fun inner _ => ih (by omega) (by omega) checked
              · rfl

theorem moveInternal_fuel {fuel fuel' : Nat} {oldPath : DirectoryPath}
    (hfuel : oldPath.length < fuel) (hfuel' : oldPath.length < fuel') (newPath : DirectoryPath)
    (rows : Rows) :
    moveInternal fuel layer oldPath newPath rows = moveInternal fuel' layer oldPath newPath rows := by
  induction fuel generalizing fuel' layer oldPath newPath rows with
  | zero => omega
  | succ fuel ih =>
      cases fuel' with
      | zero => omega
      | succ fuel' =>
          rw [moveInternal, moveInternal]
          refine bind_congr_ok fun checked _ => ?_
          by_cases hempty : oldPath.length = 0
          · rw [if_pos hempty, if_pos hempty]
          rw [if_neg hempty, if_neg hempty]
          by_cases hbelow : pathStartsWith newPath oldPath = true
          · rw [if_pos hbelow, if_pos hbelow]
          rw [if_neg hbelow, if_neg hbelow]
          refine bind_congr_ok fun old hold => ?_
          cases old with
          | none => rfl
          | some old =>
              refine bind_congr_ok fun new _ => ?_
              cases new with
              | none => rfl
              | some new =>
                  dsimp only
                  split_ifs with hboth hone
                  · have hshorter := partitionSubpath_lt hold hboth.1
                    exact bind_congr_ok fun inner _ => ih (by omega) (by omega) _ checked
                  · rfl
                  · rfl

end

/-! ## Through a partition -/

section

variable {rows : Rows} {layer inner : DirectoryLayerState} {head p : Bytes}
  {front rest path : DirectoryPath}

theorem findNode_partition (hp : Reached rows layer.nodeSubspace front p)
    (hpartition : IsPartition rows layer.nodeSubspace p) (rest : DirectoryPath) :
    findNode rows layer (front ++ rest) =
      .ok (some ⟨nodeKey layer.nodeSubspace p, front, front ++ rest, partitionTag⟩) := by
  obtain ⟨above, name, parent, rfl, hparent, hplain, hname, hget⟩ :=
    hp.parent (hp.ne_nil hpartition)
  have hfound : findNode rows layer (above ++ name :: rest) =
      .ok (some ⟨nodeKey layer.nodeSubspace p, above ++ [name], above ++ name :: rest,
        (rows.get? (layerKey layer.nodeSubspace p)).getD []⟩) :=
    findNode_child (hparent.walk hplain) hname hget (.inr hpartition.layer)
  rw [List.append_assoc, List.singleton_append, hfound, hpartition.layer]
  rfl

/-- A layer with a directory has its version. -/
theorem checkVersion_node (h : RegularRows rows layer.nodeSubspace)
    (hp : IsNode rows layer.nodeSubspace p) (hroot : p ≠ layer.nodeSubspace) :
    checkVersion layer true rows = .ok rows := by
  obtain ⟨version, hversion, hwritable⟩ := h.tree.versioned p hp hroot
  exact checkVersion_writable hversion hwritable

theorem checkVersion_read (h : RegularRows rows layer.nodeSubspace) :
    checkVersion layer false rows = .ok rows := by
  obtain ⟨checked, hchecked⟩ := checkVersion_ok h false
  obtain rfl := Attempt.rows_of_checkVersion hchecked
  exact hchecked

section

variable (hregular : Regular rows layer.nodeSubspace) (hp : Reached rows layer.nodeSubspace front p)
  (hpartition : IsPartition rows layer.nodeSubspace p) (hrest : rest ≠ [])

include hregular hp hpartition hrest

theorem existsInternal_partition (fuel : Nat) :
    existsInternal rows (fuel + 1) layer (front ++ rest) =
      existsInternal rows fuel (nestedLayer p (layer.path ++ front)) rest := by
  obtain ⟨hinside, hinner, hsubpath⟩ := enter_partition layer front p hrest
  rw [existsInternal, checkVersion_read hregular.regularRows]
  simp only [bind, Except.bind, findNode_partition hp hpartition rest, hinside, if_true, hinner,
    hsubpath]

theorem removeInternal_partition (fuel : Nat) (failIfMissing : Bool) :
    removeInternal (fuel + 1) layer (front ++ rest) failIfMissing rows =
      removeInternal fuel (nestedLayer p (layer.path ++ front)) rest failIfMissing rows := by
  obtain ⟨hinside, hinner, hsubpath⟩ := enter_partition layer front p hrest
  have hempty : ¬ (front ++ rest).length = 0 := by simp [hrest]
  rw [removeInternal, checkVersion_node hregular.regularRows hp.isNode hpartition.ne_root]
  simp only [bind, Except.bind, if_neg hempty, findNode_partition hp hpartition rest, hinside,
    if_true, hinner, hsubpath]

theorem createOrOpenInternal_partition (fuel : Nat) {prefixBytes expectedLayer : Option Bytes}
    {allowCreate allowOpen : Bool} {draws : List (Nat × List UInt32)}
    (hmanual : prefixBytes.isSome = true → layer.allowManualPrefixes = true ∨ layer.path ≠ [])
    (hflags : allowCreate = false → prefixBytes = none ∧ allowOpen = true) :
    createOrOpenInternal (fuel + 2) layer (front ++ rest) prefixBytes expectedLayer allowCreate
        allowOpen ⟨rows, draws⟩ =
      createOrOpenInternal (fuel + 1) (nestedLayer p (layer.path ++ front)) rest prefixBytes
        expectedLayer allowCreate allowOpen ⟨rows, draws⟩ := by
  obtain ⟨hinside, hinner, hsubpath⟩ := enter_partition layer front p hrest
  have hempty : ¬ (front ++ rest).length = 0 := by simp [hrest]
  have hnested := (hregular.partition hp.isNode hpartition).1.regularRows
  rw [createOrOpenInternal, checkVersion_read hregular.regularRows]
  by_cases hnot : prefixBytes.isSome = true ∧ ¬ layer.allowManualPrefixes = true
  · -- Both layers refuse the prefix, and say so in the same words.
    have hpath : ¬ layer.path.length = 0 :=
      List.length_eq_zero_iff.not.mpr ((hmanual hnot.1).resolve_left hnot.2)
    have hpath' : ¬ (nestedLayer p (layer.path ++ front)).path.length = 0 := by
      simp [nestedLayer, hp.ne_nil hpartition]
    have hnot' : prefixBytes.isSome = true ∧
        ¬ (nestedLayer p (layer.path ++ front)).allowManualPrefixes = true :=
      ⟨hnot.1, Bool.false_ne_true⟩
    have hversion : checkVersion (nestedLayer p (layer.path ++ front)) false rows = .ok rows :=
      checkVersion_read hnested
    rw [createOrOpenInternal, hversion]
    simp only [bind, Except.bind, if_pos hnot, if_pos hnot', if_neg hpath, if_neg hpath']
  · simp only [bind, Except.bind, if_neg hnot, if_neg hempty, findNode_partition hp hpartition rest,
      hinside, if_true, hinner, hsubpath]
    cases allowCreate with
    | true => rfl
    | false =>
        obtain ⟨rfl, rfl⟩ := hflags rfl
        rfl

theorem moveInternal_partition (fuel : Nat) {rest' : DirectoryPath} (hrest' : rest' ≠ []) :
    moveInternal (fuel + 2) layer (front ++ rest) (front ++ rest') rows =
      moveInternal (fuel + 1) (nestedLayer p (layer.path ++ front)) rest rest' rows := by
  obtain ⟨hinside, hinner, hsubpath⟩ := enter_partition layer front p hrest
  obtain ⟨hinside', -, hsubpath'⟩ := enter_partition layer front p hrest'
  have hempty : ¬ (front ++ rest).length = 0 := by simp [hrest]
  rw [moveInternal, checkVersion_node hregular.regularRows hp.isNode hpartition.ne_root]
  have hsame : pathStartsWith (front ++ rest') (front ++ rest) = pathStartsWith rest' rest := by
    rw [Bool.eq_iff_iff, pathStartsWith, pathStartsWith, List.isPrefixOf_iff_prefix,
      List.isPrefixOf_iff_prefix, List.prefix_append_right_inj]
  by_cases hbelow : pathStartsWith rest' rest = true
  · -- Both layers refuse a move into the moved directory.
    have hnested : RegularRows rows (nestedLayer p (layer.path ++ front)).nodeSubspace :=
      (hregular.partition hp.isNode hpartition).1.regularRows
    obtain ⟨checked, hchecked⟩ := checkVersion_ok hnested true
    have hempty' : ¬ rest.length = 0 := List.length_eq_zero_iff.not.mpr hrest
    rw [moveInternal, hchecked]
    simp only [bind, Except.bind, if_neg hempty, if_neg hempty', hsame, if_pos hbelow]
  · simp only [bind, Except.bind, if_neg hempty, hsame, if_neg hbelow,
      findNode_partition hp hpartition rest, findNode_partition hp hpartition rest', hinside,
      hinside', and_self, if_true, hinner, hsubpath, hsubpath']

end

theorem listInternal_partition (hregular : Regular rows layer.nodeSubspace)
    (hp : Reached rows layer.nodeSubspace front p)
    (hpartition : IsPartition rows layer.nodeSubspace p) (rest : DirectoryPath) (fuel : Nat) :
    listInternal rows (fuel + 1) layer (front ++ rest) =
      listInternal rows fuel (nestedLayer p (layer.path ++ front)) rest := by
  have hinside : isInPartition ⟨nodeKey layer.nodeSubspace p, front, front ++ rest, partitionTag⟩
      true = true := by simp [isInPartition]
  have hsubpath : partitionSubpath
      ⟨nodeKey layer.nodeSubspace p, front, front ++ rest, partitionTag⟩ = rest := by
    simp [partitionSubpath]
  rw [listInternal, checkVersion_read hregular.regularRows]
  simp only [bind, Except.bind, findNode_partition hp hpartition rest, hinside, if_true,
    partitionOf_eq, hsubpath]

theorem listInternal_fuel {fuel fuel' : Nat} (hregular : Regular rows layer.nodeSubspace)
    (hfuel : path.length + 1 < fuel) (hfuel' : path.length + 1 < fuel') :
    listInternal rows fuel layer path = listInternal rows fuel' layer path := by
  induction fuel generalizing fuel' layer path with
  | zero => omega
  | succ fuel ih =>
      cases fuel' with
      | zero => omega
      | succ fuel' =>
          by_cases hthrough : ∃ front rest p, path = front ++ rest ∧
              Reached rows layer.nodeSubspace front p ∧ IsPartition rows layer.nodeSubspace p
          · obtain ⟨front, rest, p, rfl, hp, hpartition⟩ := hthrough
            rw [listInternal_partition hregular hp hpartition,
              listInternal_partition hregular hp hpartition]
            have hfront := List.length_pos_iff.mpr (hp.ne_nil hpartition)
            rw [List.length_append] at hfuel hfuel'
            have hinner : Regular rows (nestedLayer p (layer.path ++ front)).nodeSubspace :=
              (hregular.partition hp.isNode hpartition).1
            exact ih hinner (by omega) (by omega)
          rw [listInternal, listInternal, checkVersion_read hregular.regularRows]
          refine bind_congr_ok fun checked hchecked => ?_
          obtain rfl := Except.ok.inj hchecked
          refine bind_congr_ok fun found hfound => ?_
          rcases findNode_cases hregular.regularRows hfound with
            ⟨rfl, -⟩ | ⟨p, hp, rfl⟩ | ⟨front, rest, p, hsplit, -, hp, hpartition, -⟩
          · rfl
          · have hplain : rows.get? (layerKey layer.nodeSubspace p) ≠ some partitionTag := by
              intro hpartition
              refine hthrough ⟨path, [], p, (List.append_nil path).symm, hp, ?_, hpartition⟩
              rintro rfl
              exact hregular.regularRows.plain_root hpartition
            have hinside : isInPartition ⟨nodeKey layer.nodeSubspace p, path, path,
                (rows.get? (layerKey layer.nodeSubspace p)).getD []⟩ true = false := by
              simp [isInPartition, getD_eq_partitionTag, hplain]
            dsimp only
            rw [hinside, if_neg Bool.false_ne_true, if_neg Bool.false_ne_true]
          · exact absurd ⟨front, rest, p, hsplit, hp, hpartition⟩ hthrough

/-! ## Calls of layers behind partitions -/

theorem Stands.manual (h : Stands rows layer front inner)
    (hmanual : layer.allowManualPrefixes = true ∨ layer.path ≠ []) :
    inner.allowManualPrefixes = true ∨ inner.path ≠ [] := by
  cases h with
  | self => exact hmanual
  | nested h hp hpartition => exact .inr (by simp [nestedLayer, hp.ne_nil hpartition])

section

variable (h : Stands rows layer front inner) (hwithin : Within layer head)
  (hinv : LayerInv rows layer head)

include h hwithin hinv

/-- The rule of the calls that a layer hands on to the layer inside a partition. -/
theorem Stands.call_eq {σ : Type} {f : DirectoryLayerState → DirectoryPath → σ}
    (hstep : ∀ above outer head middle p rest, Stands rows layer above outer →
      LayerInv rows outer head → Reached rows outer.nodeSubspace middle p →
      IsPartition rows outer.nodeSubspace p → rest ≠ [] →
      f outer (middle ++ rest) = f (nestedLayer p (outer.path ++ middle)) rest)
    (hrest : rest ≠ []) : f layer (front ++ rest) = f inner rest := by
  induction h generalizing rest with
  | self => rfl
  | nested h hp hpartition ih =>
      obtain ⟨head', -, hinv'⟩ := h.inv hwithin hinv
      rw [List.append_assoc, ih (by simp [hrest]),
        hstep _ _ _ _ _ _ h hinv' hp hpartition hrest]

theorem Stands.createOrOpenInternal_eq (hrest : rest ≠ [])
    {prefixBytes expectedLayer : Option Bytes} {allowCreate allowOpen : Bool}
    {draws : List (Nat × List UInt32)}
    (hmanual : prefixBytes.isSome = true → layer.allowManualPrefixes = true ∨ layer.path ≠ [])
    (hflags : allowCreate = false → prefixBytes = none ∧ allowOpen = true) :
    createOrOpenInternal ((front ++ rest).length + 1) layer (front ++ rest) prefixBytes expectedLayer
        allowCreate allowOpen ⟨rows, draws⟩ =
      createOrOpenInternal (rest.length + 1) inner rest prefixBytes expectedLayer allowCreate
        allowOpen ⟨rows, draws⟩ := by
  refine h.call_eq (f := fun layer path => createOrOpenInternal (path.length + 1) layer path
    prefixBytes expectedLayer allowCreate allowOpen ⟨rows, draws⟩) hwithin hinv
    (fun above outer head middle p rest houter hinv hp hpartition hrest => ?_) hrest
  rw [createOrOpenInternal_fuel (Nat.lt_succ_self _) (Nat.lt_add_of_pos_right (Nat.succ_pos 1)),
    createOrOpenInternal_partition hinv.regular hp hpartition hrest _
      (fun hsome => houter.manual (hmanual hsome)) hflags]
  refine createOrOpenInternal_fuel ?_ (Nat.lt_succ_self _) _ _ _ _ _
  rw [List.length_append]
  omega

theorem Stands.existsInternal_eq (hrest : rest ≠ []) :
    existsInternal rows ((front ++ rest).length + 1) layer (front ++ rest) =
      existsInternal rows (rest.length + 1) inner rest := by
  refine h.call_eq (f := fun layer path => existsInternal rows (path.length + 1) layer path)
    hwithin hinv (fun above outer head middle p rest _ hinv hp hpartition hrest => ?_) hrest
  rw [existsInternal_partition hinv.regular hp hpartition hrest]
  refine existsInternal_fuel ?_ (Nat.lt_succ_self _)
  simpa using List.length_pos_iff.mpr (hp.ne_nil hpartition)

theorem Stands.removeInternal_eq (hrest : rest ≠ []) (failIfMissing : Bool) :
    removeInternal ((front ++ rest).length + 1) layer (front ++ rest) failIfMissing rows =
      removeInternal (rest.length + 1) inner rest failIfMissing rows := by
  refine h.call_eq
    (f := fun layer path => removeInternal (path.length + 1) layer path failIfMissing rows)
    hwithin hinv (fun above outer head middle p rest _ hinv hp hpartition hrest => ?_) hrest
  rw [removeInternal_partition hinv.regular hp hpartition hrest]
  refine removeInternal_fuel ?_ (Nat.lt_succ_self _) _ _
  simpa using List.length_pos_iff.mpr (hp.ne_nil hpartition)

theorem Stands.moveInternal_eq {rest' : DirectoryPath} (hrest : rest ≠ []) (hrest' : rest' ≠ []) :
    moveInternal ((front ++ rest).length + 1) layer (front ++ rest) (front ++ rest') rows =
      moveInternal (rest.length + 1) inner rest rest' rows := by
  induction h generalizing rest rest' with
  | self => rfl
  | @nested inner front middle p h hp hpartition ih =>
      obtain ⟨head', -, hinv'⟩ := h.inv hwithin hinv
      have hlonger : middle ++ rest ≠ [] := by simp [hrest]
      have hlonger' : middle ++ rest' ≠ [] := by simp [hrest']
      rw [List.append_assoc, List.append_assoc, ih hlonger hlonger',
        moveInternal_fuel (Nat.lt_succ_self _) (Nat.lt_add_of_pos_right (Nat.succ_pos 1)),
        moveInternal_partition hinv'.regular hp hpartition hrest _ hrest']
      refine moveInternal_fuel ?_ (Nat.lt_succ_self _) _ _
      rw [List.length_append]
      omega

theorem Stands.listInternal_eq (rest : DirectoryPath) :
    listInternal rows ((front ++ rest).length + 2) layer (front ++ rest) =
      listInternal rows (rest.length + 2) inner rest := by
  induction h generalizing rest with
  | self => rfl
  | @nested inner front middle p h hp hpartition ih =>
      obtain ⟨head', -, hinv'⟩ := h.inv hwithin hinv
      have hinner : Regular rows (nestedLayer p (inner.path ++ middle)).nodeSubspace :=
        (hinv'.regular.partition hp.isNode hpartition).1
      have hfront := List.length_pos_iff.mpr (hp.ne_nil hpartition)
      rw [List.append_assoc, ih, listInternal_partition hinv'.regular hp hpartition]
      refine listInternal_fuel hinner ?_ (Nat.lt_succ_self _)
      rw [List.length_append]
      omega

end

end

/-! ## Calls of handles at one path -/

/-- Two handles, the second one at a path of the first: what the first does at a path through that
of the second, the second does at the rest. -/
structure SameCalls (rows : Rows) (layer : DirectoryLayerState) (handle inside : DirectoryHandle)
    (front : DirectoryPath) : Prop where
  createOrOpen : ∀ rest prefixBytes nodeLayer draws, rest ≠ [] →
    (prefixBytes.isSome = true → layer.allowManualPrefixes = true) →
    handle.createOrOpen (front ++ rest) prefixBytes nodeLayer ⟨rows, draws⟩ =
      inside.createOrOpen rest prefixBytes nodeLayer ⟨rows, draws⟩
  create : ∀ rest prefixBytes nodeLayer draws, rest ≠ [] →
    (prefixBytes.isSome = true → layer.allowManualPrefixes = true) →
    handle.create (front ++ rest) prefixBytes nodeLayer ⟨rows, draws⟩ =
      inside.create rest prefixBytes nodeLayer ⟨rows, draws⟩
  open' : ∀ rest nodeLayer draws, rest ≠ [] →
    handle.open' (front ++ rest) nodeLayer ⟨rows, draws⟩ = inside.open' rest nodeLayer ⟨rows, draws⟩
  exists' : ∀ rest, rest ≠ [] → handle.exists' (front ++ rest) rows = inside.exists' rest rows
  list : ∀ rest, handle.list (front ++ rest) rows = inside.list rest rows
  moveTo : ∀ rest rest', rest ≠ [] → rest' ≠ [] →
    handle.moveTo (front ++ rest) (front ++ rest') rows = inside.moveTo rest rest' rows
  remove : ∀ rest, rest ≠ [] → handle.remove (front ++ rest) rows = inside.remove rest rows
  removeIfExists : ∀ rest, rest ≠ [] →
    handle.removeIfExists (front ++ rest) rows = inside.removeIfExists rest rows

section

variable {rows : Rows} {layer : DirectoryLayerState} {head : Bytes}
  {base front path oldPath newPath : DirectoryPath} {handle inside : DirectoryHandle}

theorem DirectoryHandle.subject_ne_nil (handle : DirectoryHandle) (hpath : path ≠ []) :
    (handle.subject path).2 ≠ [] := by
  rcases handle with directoryLayer | output
  · simpa [DirectoryHandle.subject] using fun _ => hpath
  · cases output <;> simp [DirectoryHandle.subject, hpath]

section

variable (h : Holds rows layer base handle) (hwithin : Within layer head)
  (hinv : LayerInv rows layer head)

include h hwithin hinv

theorem Holds.createOrOpenInternal_eq (hpath : handle.inside.2 ++ path ≠ [])
    {prefixBytes expectedLayer : Option Bytes} {allowCreate allowOpen : Bool}
    {draws : List (Nat × List UInt32)}
    (hmanual : prefixBytes.isSome = true → layer.allowManualPrefixes = true)
    (hflags : allowCreate = false → prefixBytes = none ∧ allowOpen = true) :
    createOrOpenInternal ((handle.inside.2 ++ path).length + 1) handle.inside.1
        (handle.inside.2 ++ path) prefixBytes expectedLayer allowCreate allowOpen ⟨rows, draws⟩ =
      createOrOpenInternal ((base ++ path).length + 1) layer (base ++ path) prefixBytes
        expectedLayer allowCreate allowOpen ⟨rows, draws⟩ := by
  obtain ⟨front, hfront, rfl⟩ := h.inside
  rw [List.append_assoc]
  exact (hfront.createOrOpenInternal_eq hwithin hinv hpath (fun hsome => .inl (hmanual hsome))
    hflags).symm

theorem Holds.subject_eq (hpath : path ≠ []) :
    handle.exists' path rows = layer.exists' (base ++ path) rows ∧
      handle.remove path rows = layer.remove (base ++ path) rows ∧
      handle.removeIfExists path rows = layer.removeIfExists (base ++ path) rows := by
  obtain ⟨front, hfront, hsplit, -⟩ := h.subject path
  have hne := handle.subject_ne_nil hpath
  rw [DirectoryHandle.exists_eq, DirectoryHandle.remove_eq, DirectoryHandle.removeIfExists_eq, hsplit]
  exact ⟨(hfront.existsInternal_eq hwithin hinv hne).symm,
    (hfront.removeInternal_eq hwithin hinv hne true).symm,
    (hfront.removeInternal_eq hwithin hinv hne false).symm⟩

theorem Holds.list_eq (path : DirectoryPath) :
    handle.list path rows = layer.list (base ++ path) rows := by
  obtain ⟨front, hfront, rfl⟩ := h.inside
  rw [DirectoryHandle.list_eq, List.append_assoc]
  exact (hfront.listInternal_eq hwithin hinv _).symm

theorem Holds.moveTo_eq (hold : oldPath ≠ []) (hnew : newPath ≠ []) :
    handle.moveTo oldPath newPath rows = layer.moveTo (base ++ oldPath) (base ++ newPath) rows := by
  obtain ⟨front, hfront, rfl⟩ := h.inside
  rw [DirectoryHandle.moveTo_eq, List.append_assoc, List.append_assoc]
  exact (hfront.moveInternal_eq hwithin hinv (by simp [hold]) (by simp [hnew])).symm

/-- What a call does is known from the absolute path. -/
theorem Holds.sameCalls (hinside : Holds rows layer (base ++ front) inside) :
    SameCalls rows layer handle inside front := by
  have hcreate (rest : DirectoryPath) (prefixBytes nodeLayer : Option Bytes)
      (allowCreate allowOpen : Bool) (draws : List (Nat × List UInt32)) (hrest : rest ≠ [])
      (hmanual : prefixBytes.isSome = true → layer.allowManualPrefixes = true)
      (hflags : allowCreate = false → prefixBytes = none ∧ allowOpen = true) :
      createOrOpenInternal ((handle.inside.2 ++ (front ++ rest)).length + 1) handle.inside.1
          (handle.inside.2 ++ (front ++ rest)) prefixBytes nodeLayer allowCreate allowOpen
          ⟨rows, draws⟩ =
        createOrOpenInternal ((inside.inside.2 ++ rest).length + 1) inside.inside.1
          (inside.inside.2 ++ rest) prefixBytes nodeLayer allowCreate allowOpen ⟨rows, draws⟩ := by
    rw [h.createOrOpenInternal_eq hwithin hinv (by simp [hrest]) hmanual hflags,
      hinside.createOrOpenInternal_eq hwithin hinv (by simp [hrest]) hmanual hflags,
      List.append_assoc]
  constructor
  case createOrOpen =>
    intro rest prefixBytes nodeLayer draws hrest hmanual
    rw [DirectoryHandle.createOrOpen_eq, DirectoryHandle.createOrOpen_eq]
    exact hcreate rest prefixBytes nodeLayer true true draws hrest hmanual (fun h => by cases h)
  case create =>
    intro rest prefixBytes nodeLayer draws hrest hmanual
    rw [DirectoryHandle.create_eq, DirectoryHandle.create_eq]
    exact hcreate rest prefixBytes nodeLayer true false draws hrest hmanual (fun h => by cases h)
  case open' =>
    intro rest nodeLayer draws hrest
    rw [DirectoryHandle.open_eq, DirectoryHandle.open_eq]
    exact hcreate rest none nodeLayer false true draws hrest (fun h => by cases h)
      (fun _ => ⟨rfl, rfl⟩)
  case exists' =>
    intro rest hrest
    rw [(h.subject_eq hwithin hinv (by simp [hrest])).1,
      (hinside.subject_eq hwithin hinv hrest).1, List.append_assoc]
  case list =>
    intro rest
    rw [h.list_eq hwithin hinv, hinside.list_eq hwithin hinv, List.append_assoc]
  case moveTo =>
    intro rest rest' hrest hrest'
    rw [h.moveTo_eq hwithin hinv (by simp [hrest]) (by simp [hrest']),
      hinside.moveTo_eq hwithin hinv hrest hrest', List.append_assoc, List.append_assoc]
  case remove =>
    intro rest hrest
    rw [(h.subject_eq hwithin hinv (by simp [hrest])).2.1,
      (hinside.subject_eq hwithin hinv hrest).2.1, List.append_assoc]
  case removeIfExists =>
    intro rest hrest
    rw [(h.subject_eq hwithin hinv (by simp [hrest])).2.2,
      (hinside.subject_eq hwithin hinv hrest).2.2, List.append_assoc]

end

end

end FoundationDbEffect.Directory
