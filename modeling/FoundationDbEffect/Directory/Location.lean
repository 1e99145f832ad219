import FoundationDbEffect.Directory.Tree

/-!
# Paths

A path is followed from child row to child row.  It leads to a node of the layer in which it
starts, or through a partition into the layer inside; the search for its node stops at the
first partition, and the rest of the path is searched there.
-/

namespace FoundationDbEffect.Directory

open FoundationDbEffect.Foundation FoundationDbEffect.TupleLayer
open FoundationDbEffect.Foundation.ByteOrder

/-! ## Paths in a layer and across partitions -/

/-- The node that a path leads to from another one when it meets no partition. -/
inductive Walk (rows : Rows) (nodeSubspace : Bytes) : Bytes → DirectoryPath → Bytes → Prop where
  | nil {p : Bytes} : Walk rows nodeSubspace p [] p
  | cons {p q r : Bytes} {name : CodeUnits} {path : DirectoryPath}
      (hname : firstRejection [.string name] = none)
      (hget : rows.get? (childKey nodeSubspace p name) = some q)
      (hplain : rows.get? (layerKey nodeSubspace q) ≠ some partitionTag)
      (h : Walk rows nodeSubspace q path r) : Walk rows nodeSubspace p (name :: path) r

/-- A directory in the layer that holds it: its prefix, and the child row that names it. -/
structure Place where
  nodeSubspace : Bytes
  parent : Bytes
  name : CodeUnits
  prefixBytes : Bytes
  deriving DecidableEq, Repr

def Place.pointer (place : Place) : Bytes := childKey place.nodeSubspace place.parent place.name

/-- Where a path leads: a partition on the way is entered with the rest of the path. -/
inductive Located (rows : Rows) : Bytes → DirectoryPath → Place → Prop where
  | here {nodeSubspace parent p : Bytes} {name : CodeUnits} {front : DirectoryPath}
      (hwalk : Walk rows nodeSubspace nodeSubspace front parent)
      (hname : firstRejection [.string name] = none)
      (hget : rows.get? (childKey nodeSubspace parent name) = some p) :
      Located rows nodeSubspace (front ++ [name]) ⟨nodeSubspace, parent, name, p⟩
  | nested {nodeSubspace parent p : Bytes} {name : CodeUnits} {front rest : DirectoryPath}
      {place : Place} (hwalk : Walk rows nodeSubspace nodeSubspace front parent)
      (hname : firstRejection [.string name] = none)
      (hget : rows.get? (childKey nodeSubspace parent name) = some p)
      (hpartition : rows.get? (layerKey nodeSubspace p) = some partitionTag)
      (h : Located rows (p ++ nodePrefix) rest place) :
      Located rows nodeSubspace (front ++ name :: rest) place

section

variable {rows next : Rows} {layer : DirectoryLayerState} {nodeSubspace p q nodeLayer : Bytes}
  {name : CodeUnits} {path targetPath currentPath front rest : DirectoryPath} {place : Place}
  {node : Node}

theorem points_childKey (h : rows.get? (childKey nodeSubspace p name) = some q) :
    Points rows nodeSubspace p (childKey nodeSubspace p name) q :=
  ⟨isChildRow_childKey _ _ _, h⟩

theorem Walk.reaches (h : Walk rows nodeSubspace p path q) :
    Below (Points rows nodeSubspace) p q := by
  induction h with
  | nil => exact .refl _
  | cons _ hget _ _ ih => exact (Below.of_edge (points_childKey hget)).trans ih

theorem Walk.congr (h : Walk rows nodeSubspace p path q)
    (hkept : ∀ r, Below (Points rows nodeSubspace) p r → Below (Points rows nodeSubspace) r q →
      ∀ key, IsMetadata nodeSubspace r key → next.get? key = rows.get? key) :
    Walk next nodeSubspace p path q := by
  induction h with
  | nil => exact .nil
  | @cons p r q name path hname hget hplain h ih =>
      have hedge : Below (Points rows nodeSubspace) p r := .of_edge (points_childKey hget)
      refine .cons hname ?_ ?_ (ih fun s hs => hkept s (hedge.trans hs))
      · rwa [hkept p (.refl p) (hedge.trans h.reaches) _ (isChildRow_childKey _ _ _).isMetadata]
      · rwa [hkept r hedge h.reaches _ (isMetadata_layerKey _ _)]

theorem LayerTree.child (h : LayerTree rows nodeSubspace)
    (hwalk : Walk rows nodeSubspace nodeSubspace path p)
    (hget : rows.get? (childKey nodeSubspace p name) = some q) :
    IsNode rows nodeSubspace q ∧ q ≠ nodeSubspace := by
  refine ⟨hwalk.reaches.step (points_childKey hget), ?_⟩
  rintro rfl
  exact h.root _ _ hwalk.reaches (points_childKey hget)

theorem Located.inside (h : Located rows nodeSubspace path place)
    (hformed : WellFormed rows nodeSubspace) :
    Inside rows nodeSubspace nodeSubspace place.nodeSubspace place.parent ∧
      Inside rows nodeSubspace nodeSubspace place.nodeSubspace place.prefixBytes := by
  induction h with
  | here hwalk hname hget =>
      exact ⟨.inLayer hwalk.reaches, .inLayer (hformed.layerTree.child hwalk hget).1⟩
  | nested hwalk hname hget hpartition h ih =>
      obtain ⟨hp, hroot⟩ := hformed.layerTree.child hwalk hget
      obtain ⟨hparent, hprefix⟩ := ih (hformed.nested hp ⟨hroot, hpartition⟩)
      exact ⟨.inPartition hp ⟨hroot, hpartition⟩ hparent, .inPartition hp ⟨hroot, hpartition⟩ hprefix⟩

theorem Located.formed (h : Located rows nodeSubspace path place)
    (hformed : WellFormed rows nodeSubspace) : WellFormed rows place.nodeSubspace ∧
      IsNode rows place.nodeSubspace place.prefixBytes := by
  induction h with
  | here hwalk hname hget => exact ⟨hformed, (hformed.layerTree.child hwalk hget).1⟩
  | nested hwalk hname hget hpartition h ih =>
      obtain ⟨hp, hroot⟩ := hformed.layerTree.child hwalk hget
      exact ih (hformed.nested hp ⟨hroot, hpartition⟩)

theorem Located.ne_nil (h : Located rows nodeSubspace path place) : path ≠ [] := by
  cases h <;> simp

/-! ## Searches -/

theorem loadLayer_eq (rows : Rows) (nodeSubspace p : Bytes) :
    loadLayer rows (nodeKey nodeSubspace p) =
      .ok ((rows.get? (layerKey nodeSubspace p)).getD []) := by
  rw [loadLayer, packed_bytes]
  rfl

theorem packed_childKey (hname : firstRejection [.string name] = none) (nodeSubspace p : Bytes)
    (description : String) :
    packed (nodeKey nodeSubspace p) [.integer 0, .string name] description =
      .ok (childKey nodeSubspace p name) := by
  have hpack : (Subspace.fromBytes (nodeKey nodeSubspace p)).pack [.integer 0, .string name] =
      .ok (childKey nodeSubspace p name) :=
    (Subspace.pack_ok_iff _ _ _).mpr ⟨by simpa [firstRejection, rejection] using hname, rfl⟩
  rw [packed, hpack]
  rfl

theorem getD_eq_partitionTag {value : Option Bytes} :
    value.getD [] = partitionTag ↔ value = some partitionTag := by
  cases value with
  | none => simp [partitionTag, encodeUtf8]
  | some value => simp

theorem findNodeFrom_cons (hname : firstRejection [.string name] = none) :
    findNodeFrom rows layer targetPath (nodeKey layer.nodeSubspace p) nodeLayer currentPath
        (name :: rest) =
      match rows.get? (childKey layer.nodeSubspace p name) with
      | none => .ok none
      | some q =>
        let nodeLayer := (rows.get? (layerKey layer.nodeSubspace q)).getD []
        if nodeLayer = partitionTag then
          .ok (some ⟨nodeKey layer.nodeSubspace q, currentPath ++ [name], targetPath, nodeLayer⟩)
        else
          findNodeFrom rows layer targetPath (nodeKey layer.nodeSubspace q) nodeLayer
            (currentPath ++ [name]) rest := by
  rw [findNodeFrom, packed_childKey hname]
  simp only [bind, Except.bind]
  cases rows.get? (childKey layer.nodeSubspace p name) with
  | none => rfl
  | some q => simp only [nodeWithPrefix_eq, loadLayer_eq]

theorem findNodeFrom_walk (h : Walk rows layer.nodeSubspace p front q) (nodeLayer : Bytes)
    (currentPath : DirectoryPath) :
    ∃ nodeLayer', findNodeFrom rows layer targetPath (nodeKey layer.nodeSubspace p) nodeLayer
        currentPath (front ++ rest) =
      findNodeFrom rows layer targetPath (nodeKey layer.nodeSubspace q) nodeLayer'
        (currentPath ++ front) rest := by
  induction h generalizing nodeLayer currentPath with
  | nil => exact ⟨nodeLayer, by simp⟩
  | @cons p r q name path hname hget hplain h ih =>
      obtain ⟨nodeLayer', hfound⟩ := ih ((rows.get? (layerKey layer.nodeSubspace r)).getD [])
        (currentPath ++ [name])
      refine ⟨nodeLayer', ?_⟩
      rw [List.cons_append, findNodeFrom_cons hname, hget]
      simp only [getD_eq_partitionTag, if_neg hplain, hfound]
      simp

/-- What a search finds at the end of its path, or at a partition before. -/
theorem findNodeFrom_some (hpath : path ≠ [])
    (h : findNodeFrom rows layer targetPath (nodeKey layer.nodeSubspace p) nodeLayer currentPath
      path = .ok (some node)) :
    ∃ front name rest q r, path = front ++ name :: rest ∧ Walk rows layer.nodeSubspace p front q ∧
      firstRejection [.string name] = none ∧
      rows.get? (childKey layer.nodeSubspace q name) = some r ∧
      node = ⟨nodeKey layer.nodeSubspace r, currentPath ++ (front ++ [name]), targetPath,
        (rows.get? (layerKey layer.nodeSubspace r)).getD []⟩ ∧
      (rest = [] ∨ rows.get? (layerKey layer.nodeSubspace r) = some partitionTag) := by
  induction path generalizing p nodeLayer currentPath with
  | nil => exact absurd rfl hpath
  | cons name rest ih =>
      obtain ⟨key, hkey, -⟩ := bind_eq_ok.mp h
      have hname : firstRejection [.string name] = none := by
        simpa [firstRejection, rejection] using (packed_ok hkey).1
      rw [findNodeFrom_cons hname] at h
      cases hget : rows.get? (childKey layer.nodeSubspace p name) with
      | none => simp [hget] at h
      | some r =>
          simp only [hget, getD_eq_partitionTag] at h
          by_cases hpartition : rows.get? (layerKey layer.nodeSubspace r) = some partitionTag
          · simp only [if_pos hpartition, Except.ok.injEq, Option.some.injEq] at h
            exact ⟨[], name, rest, p, r, rfl, .nil, hname, hget, h.symm, .inr hpartition⟩
          · rw [if_neg hpartition] at h
            cases rest with
            | nil =>
                simp only [findNodeFrom, Except.ok.injEq, Option.some.injEq] at h
                exact ⟨[], name, [], p, r, rfl, .nil, hname, hget, h.symm, .inl rfl⟩
            | cons name' rest =>
                obtain ⟨front, last, rest', q, s, hsplit, hwalk, hlast, hget', hnode, hend⟩ :=
                  ih (List.cons_ne_nil _ _) h
                refine ⟨name :: front, last, rest', q, s, by rw [hsplit, List.cons_append],
                  .cons hname hget hpartition hwalk, hlast, hget', ?_, hend⟩
                rw [hnode]
                simp

theorem findNode_walk
    (h : Walk rows layer.nodeSubspace layer.nodeSubspace front q) :
    ∃ nodeLayer, findNode rows layer front =
      .ok (some ⟨nodeKey layer.nodeSubspace q, front, front, nodeLayer⟩) := by
  cases front with
  | nil =>
      cases h
      rw [findNode, DirectoryLayerState.rootNode, loadLayer_eq]
      exact ⟨_, rfl⟩
  | cons name front =>
      obtain ⟨nodeLayer, hfound⟩ :=
        @findNodeFrom_walk rows layer _ _ (name :: front) (name :: front) [] h [] []
      rw [List.append_nil, List.nil_append] at hfound
      exact ⟨nodeLayer, hfound⟩

theorem findNode_child (h : Walk rows layer.nodeSubspace layer.nodeSubspace front q)
    (hname : firstRejection [.string name] = none)
    (hget : rows.get? (childKey layer.nodeSubspace q name) = some p)
    (hend : rest = [] ∨ rows.get? (layerKey layer.nodeSubspace p) = some partitionTag) :
    findNode rows layer (front ++ name :: rest) =
      .ok (some ⟨nodeKey layer.nodeSubspace p, front ++ [name], front ++ name :: rest,
        (rows.get? (layerKey layer.nodeSubspace p)).getD []⟩) := by
  obtain ⟨nodeLayer, hfound⟩ :=
    @findNodeFrom_walk rows layer _ _ (front ++ name :: rest) front (name :: rest) h [] []
  have hstart : findNode rows layer (front ++ name :: rest) =
      findNodeFrom rows layer (front ++ name :: rest) layer.rootNode [] [] (front ++ name :: rest) := by
    cases front <;> rfl
  rw [hstart, DirectoryLayerState.rootNode, hfound, findNodeFrom_cons hname, hget]
  dsimp only
  split_ifs with hpartition
  · simp
  · rcases hend with rfl | hend
    · simp [findNodeFrom]
    · exact absurd (getD_eq_partitionTag.mpr hend) hpartition

theorem isInPartition_iff (subspace nodeLayer : Bytes) (currentPath targetPath : DirectoryPath) :
    isInPartition ⟨subspace, currentPath, targetPath, nodeLayer⟩ false = true ↔
      nodeLayer = partitionTag ∧ currentPath.length < targetPath.length := by
  simp [isInPartition]

theorem partitionOf_eq (layer : DirectoryLayerState) (p : Bytes)
    (currentPath targetPath : DirectoryPath) :
    partitionOf layer ⟨nodeKey layer.nodeSubspace p, currentPath, targetPath, partitionTag⟩ =
      .ok (nestedLayer p (layer.path ++ currentPath)) := by
  rw [partitionOf, getContents, contentsOfNode, nodeKey, unpacked_eq layer.nodeSubspace rfl]
  rfl

theorem partitionSubpath_eq (subspace nodeLayer : Bytes) (front rest : DirectoryPath)
    (name : CodeUnits) :
    partitionSubpath ⟨subspace, front ++ [name], front ++ name :: rest, nodeLayer⟩ = rest := by
  simp [partitionSubpath]

theorem located_of_existsInternal {fuel : Nat} (hpath : path ≠ [])
    (h : existsInternal rows fuel layer path = .ok true) :
    ∃ place, Located rows layer.nodeSubspace path place := by
  induction fuel generalizing layer path with
  | zero => simp [existsInternal] at h
  | succ fuel ih =>
      obtain ⟨rows', hversion, h⟩ := bind_eq_ok.mp h
      obtain rfl := Attempt.rows_of_checkVersion hversion
      obtain ⟨found, hfound, h⟩ := bind_eq_ok.mp h
      cases found with
      | none => simp at h
      | some node =>
          have hsearch : findNodeFrom rows' layer path (nodeKey layer.nodeSubspace layer.nodeSubspace)
              [] [] path = .ok (some node) := by
            rw [← hfound]
            cases path with
            | nil => exact absurd rfl hpath
            | cons name path => rfl
          obtain ⟨front, name, rest, q, p, rfl, hwalk, hname, hget, rfl, hend⟩ :=
            findNodeFrom_some hpath hsearch
          dsimp only at h
          rw [List.nil_append] at h
          by_cases hrest : rest = []
          · subst hrest
            exact ⟨_, .here hwalk hname hget⟩
          · have hpartition := hend.resolve_left hrest
            have hlength : (front ++ [name]).length < (front ++ name :: rest).length := by
              simp [List.length_pos_iff.mpr hrest]
            rw [if_pos ((isInPartition_iff _ _ _ _).mpr
              ⟨getD_eq_partitionTag.mpr hpartition, hlength⟩)] at h
            rw [getD_eq_partitionTag.mpr hpartition, partitionOf_eq] at h
            have hinner : existsInternal rows' fuel
                (nestedLayer p (layer.path ++ (front ++ [name]))) rest = .ok true := by
              rw [← h, partitionSubpath_eq]
              rfl
            obtain ⟨place, hplace⟩ := ih hrest hinner
            exact ⟨place, .nested hwalk hname hget hpartition hplace⟩

end

end FoundationDbEffect.Directory
