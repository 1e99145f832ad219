import FoundationDbEffect.Directory.Operations

/-!
# Prefixes of directories

In a regular layer a key belongs to one directory at most, through all the partitions: the prefix
of a directory is a head of that of another one only when it is a partition above it, and the
rows of layers lie apart from the contents of the directories that are no partitions.
-/

namespace FoundationDbEffect.Directory

open FoundationDbEffect.Foundation FoundationDbEffect.TupleLayer
open FoundationDbEffect.Foundation.ByteOrder

/-- A directory found in a layer: a node of it, or one found behind a partition. -/
inductive Found (rows : Rows) : Bytes → DirectoryPath → Entry → Prop where
  | inLayer {nodeSubspace p : Bytes} {path : DirectoryPath}
      (hp : Reached rows nodeSubspace path p) :
      Found rows nodeSubspace path (entryOf rows nodeSubspace p)
  | inPartition {nodeSubspace p : Bytes} {front rest : DirectoryPath} {entry : Entry}
      (hp : Reached rows nodeSubspace front p) (hpartition : IsPartition rows nodeSubspace p)
      (hrest : rest ≠ []) (h : Found rows (p ++ nodePrefix) rest entry) :
      Found rows nodeSubspace (front ++ rest) entry

section

variable {rows next : Rows} {nodeSubspace head p q : Bytes} {entry entry' : Entry}
  {path other front rest : DirectoryPath}

theorem directories_eq_some (hregular : Regular rows nodeSubspace) :
    directories rows nodeSubspace path = some entry ↔ Found rows nodeSubspace path entry := by
  constructor
  · intro h
    induction hlength : path.length using Nat.strong_induction_on generalizing nodeSubspace path with
    | _ n ih =>
        subst hlength
        rcases directories_cases hregular h with
          ⟨p, hp, rfl⟩ | ⟨front, rest, p, rfl, hrest, hp, hpartition, hinner⟩
        · exact .inLayer hp
        · have hfront := List.length_pos_iff.mpr (hp.ne_nil hpartition)
          refine .inPartition hp hpartition hrest (ih rest.length ?_
            (hregular.partition hp.isNode hpartition).1 hinner rfl)
          rw [List.length_append]
          omega
  · intro h
    induction h with
    | inLayer hp => exact hp.follow_eq
    | inPartition hp hpartition hrest _ ih =>
        rw [directories_partition hregular hp hpartition hrest]
        exact ih (hregular.partition hp.isNode hpartition).1

theorem Reached.eq_of_partition (h : Reached rows nodeSubspace path p)
    (hq : Reached rows nodeSubspace front q) (hpartition : IsPartition rows nodeSubspace q)
    (hle : front <+: path) : front = path := by
  obtain ⟨r, hr, hplain⟩ := h.above hle
  by_contra hne
  refine hplain hne ?_
  rw [hr.node_eq hq]
  exact hpartition.layer

/-! ## Heads -/

theorem Found.of_under (h : Found rows nodeSubspace path entry) (hregular : Regular rows nodeSubspace)
    (hhead : head <+: nodeSubspace) (hunder : Under rows nodeSubspace head) :
    head <+: entry.nodeSubspace ∧ head <+: entry.prefixBytes ∧ head <+: entry.inner := by
  induction h with
  | @inLayer nodeSubspace p path hp =>
      have hle := hunder p hp.isNode
      refine ⟨hhead, hle, ?_⟩
      by_cases hpartition : rows.get? (layerKey nodeSubspace p) = some partitionTag
      · rw [entryOf_inner_partition hpartition]
        exact hle.trans (List.prefix_append _ _)
      · rwa [entryOf_inner_plain hpartition]
  | inPartition hp hpartition _ _ ih =>
      obtain ⟨hinner, hunder'⟩ := hregular.partition hp.isNode hpartition
      have hle := hunder _ hp.isNode
      exact ih hinner (hle.trans (List.prefix_append _ _)) fun r hr => hle.trans (hunder' r hr)

theorem Found.head_inside (h : Found rows (p ++ nodePrefix) rest entry)
    (hregular : Regular rows nodeSubspace) (hp : IsNode rows nodeSubspace p)
    (hpartition : IsPartition rows nodeSubspace p) :
    p <+: entry.prefixBytes ∧ p <+: entry.inner := by
  obtain ⟨hinner, hunder⟩ := hregular.partition hp hpartition
  exact (h.of_under hinner (List.prefix_append _ _) hunder).2

theorem Found.not_head (h : Found rows (p ++ nodePrefix) rest entry)
    (hregular : Regular rows (p ++ nodePrefix)) : ¬ entry.prefixBytes <+: p := by
  intro hle
  have hnode {r : Bytes} (hr : IsNode rows (p ++ nodePrefix) r) : ¬ r <+: p := by
    intro hle
    have hroot := hregular.regularRows.tree.prefixFree r _ hr (.refl _)
      (hle.trans (List.prefix_append _ _))
    have hlength := hle.length_le
    simp [hroot, nodePrefix] at hlength
  cases h with
  | inLayer hr => exact hnode hr.isNode hle
  | inPartition hr hpartition _ h =>
      exact hnode hr.isNode ((h.head_inside hregular hr.isNode hpartition).1.trans hle)

theorem Found.reached_of_eq (h : Found rows nodeSubspace path entry)
    (hregular : Regular rows nodeSubspace) (heq : entry.nodeSubspace = nodeSubspace) :
    Reached rows nodeSubspace path entry.prefixBytes ∧
      entry = entryOf rows nodeSubspace entry.prefixBytes := by
  cases h with
  | inLayer hp => exact ⟨hp, rfl⟩
  | @inPartition _ p front rest _ hp hpartition _ h =>
      obtain ⟨hinner, hunder⟩ := hregular.partition hp.isNode hpartition
      have hhead := (h.of_under hinner (List.prefix_append _ _) hunder).1
      rw [heq] at hhead
      exact absurd (hregular.regularRows.tree.prefixFree p _ hp.isNode (.refl _) hhead)
        hpartition.ne_root

theorem entryOf_layer_eq : (entryOf rows nodeSubspace p).layer = partitionTag ↔
    rows.get? (layerKey nodeSubspace p) = some partitionTag :=
  getD_eq_partitionTag

/-- The prefix of a directory is a head of those of the directories below it when it is a
partition, and of no others. -/
theorem Found.head_iff (h : Found rows nodeSubspace path entry)
    (h' : Found rows nodeSubspace other entry') (hregular : Regular rows nodeSubspace) :
    entry.prefixBytes <+: entry'.prefixBytes ↔
      path = other ∨ entry.layer = partitionTag ∧ path <+: other := by
  induction h generalizing other with
  | @inLayer nodeSubspace p path hp =>
      have htree := hregular.regularRows.tree
      cases h' with
      | @inLayer _ q _ hq =>
          constructor
          · intro hle
            obtain rfl := htree.prefixFree p q hp.isNode hq.isNode hle
            exact .inl (hp.path_eq htree hq)
          · rintro (rfl | ⟨hlayer, hle⟩)
            · rw [hp.node_eq hq]
            · have hpartition := entryOf_layer_eq.mp hlayer
              have hroot : p ≠ nodeSubspace := by
                rintro rfl
                exact hregular.regularRows.plain_root hpartition
              obtain rfl := hq.eq_of_partition hp ⟨hroot, hpartition⟩ hle
              rw [hp.node_eq hq]
      | @inPartition _ q front rest _ hq hpartition hrest h' =>
          have hhead := (h'.head_inside hregular hq.isNode hpartition).1
          constructor
          · intro hle
            obtain rfl := htree.eq_of_heads hp.isNode hq.isNode hle hhead
            rw [hp.path_eq htree hq]
            exact .inr ⟨entryOf_layer_eq.mpr hpartition.layer, List.prefix_append _ _⟩
          · rintro (rfl | ⟨hlayer, hle⟩)
            · exact absurd (hp.eq_of_partition hq hpartition (List.prefix_append _ _))
                (by simp [hrest])
            · have hlayer' := entryOf_layer_eq.mp hlayer
              have hroot : p ≠ nodeSubspace := by
                rintro rfl
                exact hregular.regularRows.plain_root hlayer'
              rcases List.prefix_or_prefix_of_prefix hle (List.prefix_append front rest) with
                habove | hbelow
              · obtain rfl := hq.eq_of_partition hp ⟨hroot, hlayer'⟩ habove
                rwa [hp.node_eq hq]
              · obtain rfl := hp.eq_of_partition hq hpartition hbelow
                rwa [hp.node_eq hq]
  | @inPartition nodeSubspace p front rest entry hp hpartition hrest h ih =>
      have htree := hregular.regularRows.tree
      have hinner := (hregular.partition hp.isNode hpartition).1
      have hhead := (h.head_inside hregular hp.isNode hpartition).1
      cases h' with
      | @inLayer _ q _ hq =>
          constructor
          · intro hle
            obtain rfl := htree.prefixFree p q hp.isNode hq.isNode (hhead.trans hle)
            exact absurd hle (h.not_head hinner)
          · intro hpath
            have hle : front ++ rest <+: other := hpath.elim (fun heq => heq ▸ List.prefix_rfl) And.right
            obtain rfl := hq.eq_of_partition hp hpartition ((List.prefix_append _ _).trans hle)
            have hlength := hle.length_le
            have hpositive := List.length_pos_iff.mpr hrest
            rw [List.length_append] at hlength
            omega
      | @inPartition _ q front' rest' _ hq hpartition' hrest' h' =>
          have hsame : p = q ∧ front = front' →
              (entry.prefixBytes <+: entry'.prefixBytes ↔
                front ++ rest = front' ++ rest' ∨
                  entry.layer = partitionTag ∧ front ++ rest <+: front' ++ rest') := by
            intro heq
            obtain ⟨rfl, rfl⟩ := heq
            rw [ih h' hinner, List.append_cancel_left_eq, List.prefix_append_right_inj]
          constructor
          · intro hle
            have hhead' := (h'.head_inside hregular hq.isNode hpartition').1
            obtain rfl := htree.eq_of_heads hp.isNode hq.isNode (hhead.trans hle) hhead'
            exact (hsame ⟨rfl, hp.path_eq htree hq⟩).mp hle
          · intro hpath
            have hle : front ++ rest <+: front' ++ rest' :=
              hpath.elim (fun heq => heq ▸ List.prefix_rfl) And.right
            have hfront : front = front' := by
              rcases List.prefix_or_prefix_of_prefix ((List.prefix_append front rest).trans hle)
                (List.prefix_append front' rest') with habove | hbelow
              · exact hq.eq_of_partition hp hpartition habove
              · exact (hp.eq_of_partition hq hpartition' hbelow).symm
            subst hfront
            exact (hsame ⟨hp.node_eq hq, rfl⟩).mpr hpath

/-! ## Rows of layers -/

theorem Found.inner_cases (h : Found rows nodeSubspace path entry)
    (hregular : Regular rows nodeSubspace) :
    entry.inner = nodeSubspace ∨ ∃ q rest entry', IsNode rows nodeSubspace q ∧
      IsPartition rows nodeSubspace q ∧ Found rows (q ++ nodePrefix) rest entry' ∧
      entry'.inner = entry.inner := by
  cases h with
  | @inLayer _ q _ hq =>
      by_cases hpartition : rows.get? (layerKey nodeSubspace q) = some partitionTag
      · have hroot : q ≠ nodeSubspace := by
          rintro rfl
          exact hregular.regularRows.plain_root hpartition
        have hinner := (hregular.partition hq.isNode ⟨hroot, hpartition⟩).1.regularRows.plain_root
        refine .inr ⟨q, [], _, hq.isNode, ⟨hroot, hpartition⟩, .inLayer .root, ?_⟩
        rw [entryOf_inner_partition hpartition, entryOf_inner_plain hinner]
      · exact .inl (entryOf_inner_plain hpartition)
  | inPartition hq hpartition _ h => exact .inr ⟨_, _, _, hq.isNode, hpartition, h, rfl⟩

/-- The contents of a directory that is no partition lie apart from the rows of layers. -/
theorem Found.apart_inner (h : Found rows nodeSubspace path entry)
    (h' : Found rows nodeSubspace other entry') (hregular : Regular rows nodeSubspace)
    (hpath : path ≠ []) (hplain : entry.layer ≠ partitionTag) :
    ¬ entry.prefixBytes <+: entry'.inner ∧ ¬ entry'.inner <+: entry.prefixBytes := by
  induction h generalizing other entry' with
  | @inLayer nodeSubspace p path hp =>
      have htree := hregular.regularRows.tree
      have hroot : p ≠ nodeSubspace := by
        rintro rfl
        exact hpath (hp.path_eq htree .root)
      have hapart {q : Bytes} (hpartition : IsPartition rows nodeSubspace q) : p ≠ q := by
        rintro rfl
        exact hplain (entryOf_layer_eq.mpr hpartition.layer)
      rcases h'.inner_cases hregular with hinner | ⟨q, rest, entry'', hq, hpartition, h'', hinner⟩
      · rw [hinner]
        exact ⟨fun hle => hroot (htree.prefixFree p _ hp.isNode (.refl _) hle),
          fun hle => hroot (htree.prefixFree _ p (.refl _) hp.isNode hle).symm⟩
      · have hhead := (h''.head_inside hregular hq hpartition).2
        rw [hinner] at hhead
        exact ⟨fun hle => hapart hpartition (htree.eq_of_heads hp.isNode hq hle hhead),
          fun hle => hapart hpartition (htree.prefixFree q p hq hp.isNode (hhead.trans hle)).symm⟩
  | @inPartition nodeSubspace p front rest entry hp hpartition hrest h ih =>
      have htree := hregular.regularRows.tree
      have hhead := (h.head_inside hregular hp.isNode hpartition).1
      rcases h'.inner_cases hregular with hinner | ⟨q, rest', entry'', hq, hpartition', h'', hinner⟩
      · rw [hinner]
        exact ⟨fun hle => hpartition.ne_root
            (htree.prefixFree p _ hp.isNode (.refl _) (hhead.trans hle)),
          fun hle => hpartition.ne_root (htree.eq_of_heads hp.isNode (.refl _) hhead hle)⟩
      · rw [← hinner]
        by_cases heq : p = q
        · subst heq
          exact ih h'' (hregular.partition hp.isNode hpartition).1 hrest hplain
        · have hhead' := (h''.head_inside hregular hq hpartition').2
          exact ⟨fun hle => heq (htree.eq_of_heads hp.isNode hq (hhead.trans hle) hhead'),
            fun hle => heq (htree.eq_of_heads hp.isNode hq hhead (hhead'.trans hle))⟩

/-! ## Contents -/

/-- Every key belongs to one directory at most, and the rows of layers to none but partitions. -/
structure Isolated (tree : PathTree CodeUnits Entry) : Prop where
  heads : ∀ path other entry entry', tree path = some entry → tree other = some entry' →
    (entry.prefixBytes <+: entry'.prefixBytes ↔
      path = other ∨ entry.layer = partitionTag ∧ path <+: other)
  layers : ∀ path other entry entry', tree path = some entry → tree other = some entry' →
    path ≠ [] → entry.layer ≠ partitionTag →
    ¬ entry.prefixBytes <+: entry'.inner ∧ ¬ entry'.inner <+: entry.prefixBytes

theorem Regular.isolated (hregular : Regular rows nodeSubspace) :
    Isolated (directories rows nodeSubspace) where
  heads _ _ _ _ h h' := ((directories_eq_some hregular).mp h).head_iff
    ((directories_eq_some hregular).mp h') hregular
  layers _ _ _ _ h h' := ((directories_eq_some hregular).mp h).apart_inner
    ((directories_eq_some hregular).mp h') hregular

theorem Isolated.eq_of_key {tree : PathTree CodeUnits Entry} (h : Isolated tree) {key : Bytes}
    (hentry : tree path = some entry) (hentry' : tree other = some entry')
    (hplain : entry.layer ≠ partitionTag) (hplain' : entry'.layer ≠ partitionTag)
    (hkey : entry.prefixBytes <+: key) (hkey' : entry'.prefixBytes <+: key) : path = other := by
  rcases List.prefix_or_prefix_of_prefix hkey hkey' with hle | hle
  · exact ((h.heads _ _ _ _ hentry hentry').mp hle).resolve_right fun hbelow => hplain hbelow.1
  · exact (((h.heads _ _ _ _ hentry' hentry).mp hle).resolve_right
      fun hbelow => hplain' hbelow.1).symm

theorem MetadataOnly.agree (h : MetadataOnly rows next nodeSubspace)
    (hregular : Regular rows nodeSubspace)
    (hentry : directories rows nodeSubspace path = some entry) (hpath : path ≠ [])
    (hplain : entry.layer ≠ partitionTag) : Agree rows next entry.prefixBytes := by
  refine fun key hkey => h key fun other entry' hentry' hinner => ?_
  have hapart := hregular.isolated.layers _ _ _ _ hentry hentry' hpath hplain
  exact (List.prefix_or_prefix_of_prefix hkey hinner).elim hapart.1 hapart.2

end

end FoundationDbEffect.Directory
