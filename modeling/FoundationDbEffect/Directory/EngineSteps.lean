import FoundationDbEffect.Directory.Paths

/-!
# Steps of the engine

What the parts of an operation do in a regular layer: the version check and the allocator make
quiet edits, a prefix that is found free lies apart from those of all nodes, and a search ends at
the node of its path, at a partition on the way, or where a child is missing.
-/

namespace FoundationDbEffect.Directory

open FoundationDbEffect.Foundation FoundationDbEffect.TupleLayer
open FoundationDbEffect.Foundation.ByteOrder

variable {rows next : Rows} {layer : DirectoryLayerState} {p q key : Bytes}

/-! ## Versions -/

theorem isNodeKey_versionKey (nodeSubspace : Bytes) :
    IsNodeKey nodeSubspace nodeSubspace (versionKey nodeSubspace) :=
  isNodeKey_iff.mpr ⟨[.bytes versionTag], rfl, by simp [versionKey, nodeKey, encodeTuple]⟩

theorem writable_directoryVersion : Writable directoryVersion := ⟨rfl, by decide, rfl⟩

theorem checkVersion_quiet (h : checkVersion layer true rows = .ok next) :
    QuietEdit rows next layer.nodeSubspace ∧
      ∃ version, next.get? (versionKey layer.nodeSubspace) = some version ∧ Writable version := by
  obtain ⟨key, hkey, h⟩ := bind_eq_ok.mp h
  obtain rfl : versionKey layer.nodeSubspace = key := (packed_ok hkey).2.symm
  cases hget : rows.get? (versionKey layer.nodeSubspace) with
  | none =>
      simp only [hget, if_true, Except.ok.injEq] at h
      subst h
      refine ⟨⟨fun key hne _ => OrderedMap.get?_set_of_ne _ _ hne, fun version hversion => ?_,
        fun version hversion => ?_, fun key _ hsome => ?_⟩, directoryVersion,
        OrderedMap.get?_set_self _ _ _, writable_directoryVersion⟩
      · rw [hget] at hversion
        cases hversion
      · rw [OrderedMap.get?_set_self, Option.some.injEq] at hversion
        exact .inr (hversion ▸ writable_directoryVersion)
      · by_cases hversion : key = versionKey layer.nodeSubspace
        · exact .inr (hversion ▸ isNodeKey_versionKey _)
        · rw [OrderedMap.get?_set_of_ne _ _ hversion] at hsome
          exact .inl hsome
  | some version =>
      simp only [hget] at h
      split_ifs at h with hlength hmajor hminor
      obtain rfl := Except.ok.inj h
      refine ⟨.refl _ _, version, hget, not_not.mp hlength, Nat.not_lt.mp hmajor, ?_⟩
      exact Nat.eq_zero_of_not_pos fun hpos => hminor ⟨trivial, hpos⟩

theorem checkVersion_ok (h : RegularRows rows layer.nodeSubspace) (write : Bool) :
    ∃ next, checkVersion layer write rows = .ok next := by
  rw [checkVersion]
  cases hget : rows.get? (versionKey layer.nodeSubspace) with
  | none =>
      refine ⟨if write then rows.set (versionKey layer.nodeSubspace) directoryVersion else rows,
        bind_eq_ok.mpr ⟨versionKey layer.nodeSubspace, packed_bytes .., ?_⟩⟩
      simp only [hget]
  | some version =>
      obtain ⟨hlength, hmajor, hminor⟩ := h.version version hget
      refine ⟨rows, bind_eq_ok.mpr ⟨versionKey layer.nodeSubspace, packed_bytes .., ?_⟩⟩
      simp [hget, hlength, hminor, Nat.not_lt.mpr hmajor]

/-! ## Allocation -/

theorem isNodeKey_allocator {kind integer : Int} {description : String}
    (hkind : rejection (.integer kind) = none)
    (h : packed (layer.allocator ++ encodeTuple false [.integer kind]) [.integer integer] description
      = .ok key) : IsNodeKey layer.nodeSubspace layer.nodeSubspace key := by
  obtain ⟨haccepted, rfl⟩ := packed_ok h
  refine isNodeKey_iff.mpr ⟨[.bytes hcaTag, .integer kind, .integer integer], ?_, ?_⟩
  · rw [firstRejection_eq_none_iff] at haccepted ⊢
    simpa [hkind, show rejection (.bytes hcaTag) = none from rfl] using haccepted
  · simp [DirectoryLayerState.allocator, DirectoryLayerState.rootNode, nodeKey, encodeTuple]

theorem rowMutation_quiet {mutation : AllocatorMutation} {rowMutation : RowMutation}
    (h : Attempt.rowMutation layer mutation = .ok rowMutation) (rows : Rows) :
    QuietEdit rows (rowMutation.apply rows) layer.nodeSubspace := by
  have hinside := Attempt.rowMutation_inAllocator h
  have hkept {key : Bytes} (hkey : ¬ allocatorRows layer.nodeSubspace <+: key) :
      (rowMutation.apply rows).get? key = rows.get? key := by
    refine RowMutation.get?_apply_of_not_touches ?_ rows
    rw [Bool.eq_false_iff]
    exact fun htouches => hkey (hinside key htouches)
  have hversion : ¬ allocatorRows layer.nodeSubspace <+: versionKey layer.nodeSubspace :=
    not_allocator_versionKey
  have hset {key' value key : Bytes} (hkey : IsNodeKey layer.nodeSubspace layer.nodeSubspace key')
      (hsome : ((rows.set key' value).get? key).isSome) :
      (rows.get? key).isSome ∨ IsNodeKey layer.nodeSubspace layer.nodeSubspace key := by
    by_cases heq : key = key'
    · exact .inr (heq ▸ hkey)
    · rw [OrderedMap.get?_set_of_ne _ _ heq] at hsome
      exact .inl hsome
  have hclear {begin stop key : Bytes}
      (hsome : ((rows.clearRange (interval begin stop)).get? key).isSome) :
      (rows.get? key).isSome ∨ IsNodeKey layer.nodeSubspace layer.nodeSubspace key := by
    rw [OrderedMap.get?_clearRange] at hsome
    split_ifs at hsome
    · cases hsome
    · exact .inl hsome
  refine ⟨fun key _ hkey => hkept hkey, fun version => ?_, fun version => ?_,
    fun key _ hsome => ?_⟩
  · rw [hkept hversion]
    exact id
  · rw [hkept hversion]
    exact .inl
  · cases mutation with
    | addOne start =>
        obtain ⟨counter, hcounter, h⟩ := bind_eq_ok.mp h
        cases h
        exact hset (isNodeKey_allocator (by decide) hcounter) hsome
    | setRecent candidate =>
        obtain ⟨recent, hrecent, h⟩ := bind_eq_ok.mp h
        cases h
        exact hset (isNodeKey_allocator (by decide) hrecent) hsome
    | clearCounters stop =>
        obtain ⟨counter, -, h⟩ := bind_eq_ok.mp h
        cases h
        exact hclear hsome
    | clearRecent stop =>
        obtain ⟨recent, -, h⟩ := bind_eq_ok.mp h
        cases h
        exact hclear hsome

theorem foldl_quiet {mutations : List RowMutation}
    (h : ∀ mutation ∈ mutations, ∃ source, Attempt.rowMutation layer source = .ok mutation)
    (rows : Rows) :
    QuietEdit rows (mutations.foldl RowMutation.apply rows) layer.nodeSubspace := by
  induction mutations generalizing rows with
  | nil => exact .refl _ _
  | cons mutation mutations ih =>
      obtain ⟨source, hsource⟩ := h mutation List.mem_cons_self
      exact (rowMutation_quiet hsource rows).trans
        (ih (fun later hmem => h later (List.mem_cons_of_mem _ hmem)) _)

theorem allocatePrefix_quiet {transaction transaction' : DirectoryTransaction} {candidate : Int}
    (h : layer.allocatePrefix transaction = .ok (candidate, transaction')) :
    QuietEdit transaction.rows transaction'.rows layer.nodeSubspace := by
  rw [DirectoryLayerState.allocatePrefix] at h
  cases hdraws : transaction.draws with
  | nil =>
      rw [hdraws] at h
      cases h
  | cons draw draws =>
      rw [hdraws] at h
      dsimp only at h
      split at h
      · cases h
      · rename_i allocation candidate hlocked
        obtain ⟨rows, hrows, h⟩ := bind_eq_ok.mp h
        cases h
        rw [Attempt.foldlM_applyMutation] at hrows
        cases hmutations : allocation.mutations.mapM (Attempt.rowMutation layer) with
        | error failure =>
            rw [hmutations] at hrows
            cases hrows
        | ok mutations =>
            rw [hmutations] at hrows
            cases hrows
            refine foldl_quiet (fun mutation hmem => ?_) _
            obtain ⟨source, -, hsource⟩ := exists_of_mem_mapM hmutations hmem
            exact ⟨source, hsource⟩

theorem choosePrefix_quiet {explicit : Option Bytes}
    {transaction transaction' : DirectoryTransaction}
    (h : choosePrefix layer explicit transaction = .ok (p, transaction')) :
    QuietEdit transaction.rows transaction'.rows layer.nodeSubspace ∧
      (explicit = some p ∨ explicit = none ∧ layer.contentSubspace <+: p ∧
        ∀ key, p <+: key → transaction'.rows.get? key = none) := by
  cases explicit with
  | some prefixBytes =>
      cases h
      exact ⟨.refl _ _, .inl rfl⟩
  | none =>
      obtain ⟨⟨allocated, middle⟩, hallocated, h⟩ := bind_eq_ok.mp h
      obtain ⟨prefixBytes, hprefix, h⟩ := bind_eq_ok.mp h
      obtain ⟨stop, hstop, h⟩ := bind_eq_ok.mp h
      rw [incrementPrefix] at hstop
      split_ifs at hstop with hsuccessor
      cases hstop
      split_ifs at h with hfirst
      cases h
      refine ⟨allocatePrefix_quiet hallocated, .inr ⟨rfl, ?_, fun key hkey => ?_⟩⟩
      · rw [(packed_ok hprefix).2]
        exact List.prefix_append _ _
      · rw [Bool.not_eq_true, Option.isSome_eq_false_iff, Option.isNone_iff_eq_none, firstInRange,
          if_neg (by simp), OrderedMap.first?_eq_none] at hfirst
        refine hfirst key ((interval_strinc_iff ?_ key).mpr hkey)
        simpa [List.isEmpty_iff] using hsuccessor

/-! ## Free prefixes -/

theorem RegularRows.prefixFreeNodes {nodeSubspace : Bytes} (h : RegularRows rows nodeSubspace) :
    PrefixFreeNodes nodeSubspace rows := by
  have hnode {p : Bytes} (hp : p = nodeSubspace ∨ Registered nodeSubspace rows p) :
      IsNode rows nodeSubspace p := by
    rcases hp with rfl | ⟨key, value, hget, hrow⟩
    · exact .refl _
    · obtain ⟨q, hq, hrow', -⟩ := h.keys key (by rw [hget]; rfl) hrow.below
      rwa [hrow.isNodeRow.inj hrow'.isNodeRow]
  constructor
  case keys =>
    intro key value hget hhead
    obtain ⟨p, -, hrow, -⟩ := h.keys key (by rw [hget]; rfl) hhead
    exact ⟨p, hrow⟩
  case prefixFree => exact fun p q hp hq => h.tree.prefixFree p q (hnode hp) (hnode hq)

/-- Once there is a version, a prefix that is found free lies apart from those of all nodes. -/
theorem apart_of_isPrefixFree (h : RegularRows rows layer.nodeSubspace)
    (hversion : (rows.get? (versionKey layer.nodeSubspace)).isSome)
    (hfree : isPrefixFree layer p rows = .ok true) :
    (∀ q, IsNode rows layer.nodeSubspace q → ¬ q <+: p ∧ ¬ p <+: q) ∧ strinc p ≠ [] := by
  have hne : p ≠ [] := by
    rintro rfl
    cases hfree
  have hnext : strinc p ≠ [] := by
    intro hnil
    rw [isPrefixFree, if_neg (by simpa using hne)] at hfree
    obtain ⟨found, -, hfree⟩ := bind_eq_ok.mp hfree
    cases found with
    | some node => cases hfree
    | none =>
        obtain ⟨stop, hstop, -⟩ := bind_eq_ok.mp hfree
        simp [incrementPrefix, hnil] at hstop
  obtain ⟨free, hfree', hiff⟩ := isPrefixFree_ok h.prefixFreeNodes hne hnext
  rw [hfree', Except.ok.injEq] at hfree
  obtain ⟨-, hapart⟩ := hiff.mp hfree
  refine ⟨fun q hq => hapart q ?_, hnext⟩
  by_cases hroot : q = layer.nodeSubspace
  · obtain ⟨version, hget⟩ := Option.isSome_iff_exists.mp hversion
    exact ⟨_, version, hget, hroot ▸ isNodeKey_versionKey _⟩
  · obtain ⟨nodeLayer, hget⟩ := Option.isSome_iff_exists.mp (h.layered q hq hroot)
    exact ⟨_, nodeLayer, hget, isNodeKey_layerKey _ _⟩

/-! ## Searches -/

def Accepted (path : DirectoryPath) : Prop := ∀ name ∈ path, firstRejection [.string name] = none

/-- How the search of a path ends: at its node, at a partition on the way, or where a child is
missing. -/
inductive Ends (rows : Rows) (nodeSubspace : Bytes) (path : DirectoryPath) : Option Node → Prop where
  | found {front rest : DirectoryPath} {p : Bytes} (hsplit : path = front ++ rest)
      (hp : Reached rows nodeSubspace front p)
      (hend : rest = [] ∨ rows.get? (layerKey nodeSubspace p) = some partitionTag) :
      Ends rows nodeSubspace path
        (some ⟨nodeKey nodeSubspace p, front, path, (rows.get? (layerKey nodeSubspace p)).getD []⟩)
  | missing {front rest : DirectoryPath} {name : CodeUnits} {q : Bytes}
      (hsplit : path = front ++ name :: rest) (hq : Reached rows nodeSubspace front q)
      (hplain : rows.get? (layerKey nodeSubspace q) ≠ some partitionTag)
      (hname : firstRejection [.string name] = none)
      (hget : rows.get? (childKey nodeSubspace q name) = none) : Ends rows nodeSubspace path none

section Search

variable {path front rest : DirectoryPath} {found : Option Node}

theorem ends_findNodeFrom (nodeLayer : Bytes) (hp : Reached rows layer.nodeSubspace front p)
    (hplain : rows.get? (layerKey layer.nodeSubspace p) ≠ some partitionTag) (hrest : rest ≠ [])
    (h : findNodeFrom rows layer path (nodeKey layer.nodeSubspace p) nodeLayer front rest = .ok found)
    (hsplit : path = front ++ rest) : Ends rows layer.nodeSubspace path found := by
  induction rest generalizing front p nodeLayer with
  | nil => exact absurd rfl hrest
  | cons name rest ih =>
      obtain ⟨key, hkey, -⟩ := bind_eq_ok.mp h
      have hname : firstRejection [.string name] = none := by
        simpa [firstRejection, rejection] using (packed_ok hkey).1
      rw [findNodeFrom_cons hname] at h
      cases hget : rows.get? (childKey layer.nodeSubspace p name) with
      | none =>
          simp only [hget, Except.ok.injEq] at h
          subst h
          exact .missing hsplit hp hplain hname hget
      | some q =>
          simp only [hget, getD_eq_partitionTag] at h
          have hq := hp.child hplain (childOf_eq_some.mpr ⟨hname, hget⟩)
          have hsplit' : path = (front ++ [name]) ++ rest := by simp [hsplit]
          split_ifs at h with hpartition
          · obtain rfl := Except.ok.inj h
            exact .found hsplit' hq (.inr hpartition)
          · cases rest with
            | nil =>
                simp only [findNodeFrom, Except.ok.injEq] at h
                subst h
                exact .found hsplit' hq (.inl rfl)
            | cons name' rest => exact ih _ hq hpartition (List.cons_ne_nil _ _) h hsplit'

theorem ends_findNode (hregular : RegularRows rows layer.nodeSubspace)
    (h : findNode rows layer path = .ok found) : Ends rows layer.nodeSubspace path found := by
  cases path with
  | nil =>
      rw [findNode, DirectoryLayerState.rootNode, loadLayer_eq] at h
      obtain rfl := Except.ok.inj h
      exact .found rfl .root (.inl rfl)
  | cons name rest =>
      exact ends_findNodeFrom [] .root hregular.plain_root (List.cons_ne_nil _ _) h rfl

theorem findNodeFrom_ok (hnames : Accepted rest) (targetPath : DirectoryPath) (nodeLayer : Bytes) :
    ∃ found, findNodeFrom rows layer targetPath (nodeKey layer.nodeSubspace p) nodeLayer front rest =
      .ok found := by
  induction rest generalizing front p nodeLayer with
  | nil => exact ⟨_, rfl⟩
  | cons name rest ih =>
      rw [findNodeFrom_cons (hnames name List.mem_cons_self)]
      cases rows.get? (childKey layer.nodeSubspace p name) with
      | none => exact ⟨_, rfl⟩
      | some q =>
          dsimp only
          split_ifs
          · exact ⟨_, rfl⟩
          · exact ih (fun name' hmem => hnames name' (List.mem_cons_of_mem _ hmem)) _

theorem findNode_ok (rows : Rows) (layer : DirectoryLayerState) (hnames : Accepted path) :
    ∃ found, findNode rows layer path = .ok found := by
  cases path with
  | nil =>
      rw [findNode, DirectoryLayerState.rootNode, loadLayer_eq]
      exact ⟨_, rfl⟩
  | cons name rest => exact findNodeFrom_ok hnames _ []

theorem Ends.directories_eq_none {nodeSubspace : Bytes} (h : Ends rows nodeSubspace path none) :
    directories rows nodeSubspace path = none := by
  cases h with
  | missing hsplit hq hplain hname hget =>
      rw [hsplit, directories, hq.follow_append, follow_cons_plain hplain, childOf, hget, ite_self]
      rfl

/-- The search of a path ends at its node, at a partition before it, or nowhere. -/
theorem findNode_cases (hregular : RegularRows rows layer.nodeSubspace)
    (h : findNode rows layer path = .ok found) :
    (found = none ∧ Ends rows layer.nodeSubspace path none) ∨
    (∃ p, Reached rows layer.nodeSubspace path p ∧
      found = some ⟨nodeKey layer.nodeSubspace p, path, path,
        (rows.get? (layerKey layer.nodeSubspace p)).getD []⟩) ∨
    (∃ front rest p, path = front ++ rest ∧ rest ≠ [] ∧
      Reached rows layer.nodeSubspace front p ∧ IsPartition rows layer.nodeSubspace p ∧
      found = some ⟨nodeKey layer.nodeSubspace p, front, path, partitionTag⟩) := by
  have hends := ends_findNode hregular h
  cases hends with
  | missing hsplit hq hplain hname hget => exact .inl ⟨rfl, .missing hsplit hq hplain hname hget⟩
  | @found front rest p hsplit hp hend =>
      by_cases hrest : rest = []
      · subst hrest
        rw [List.append_nil] at hsplit
        subst hsplit
        exact .inr (.inl ⟨p, hp, rfl⟩)
      · have hpartition := hend.resolve_left hrest
        refine .inr (.inr ⟨front, rest, p, hsplit, hrest, hp, ⟨?_, hpartition⟩, ?_⟩)
        · rintro rfl
          exact hregular.plain_root hpartition
        · rw [hpartition]
          rfl

theorem enter_partition (layer : DirectoryLayerState) (front : DirectoryPath) (p : Bytes)
    (hrest : rest ≠ []) :
    isInPartition ⟨nodeKey layer.nodeSubspace p, front, front ++ rest, partitionTag⟩ false = true ∧
      partitionOf layer ⟨nodeKey layer.nodeSubspace p, front, front ++ rest, partitionTag⟩ =
        .ok (nestedLayer p (layer.path ++ front)) ∧
      partitionSubpath ⟨nodeKey layer.nodeSubspace p, front, front ++ rest, partitionTag⟩ = rest := by
  refine ⟨(isInPartition_iff _ _ _ _).mpr ⟨rfl, ?_⟩, partitionOf_eq _ _ _ _, ?_⟩
  · simpa using List.length_pos_iff.mpr hrest
  · simp [partitionSubpath]

theorem not_isInPartition (subspace : Bytes) (path : DirectoryPath) (nodeLayer : Bytes) :
    isInPartition ⟨subspace, path, path, nodeLayer⟩ false = false := by
  simp [isInPartition]

theorem Accepted.right (h : Accepted (front ++ rest)) : Accepted rest :=
  fun name hmem => h name (List.mem_append_right _ hmem)

theorem Reached.ne_nil {nodeSubspace : Bytes} (hp : Reached rows nodeSubspace front p)
    (hpartition : IsPartition rows nodeSubspace p) : front ≠ [] := by
  rintro rfl
  exact hpartition.ne_root (hp.node_eq .root)

theorem directories_partition {nodeSubspace : Bytes} (hregular : Regular rows nodeSubspace)
    (hp : Reached rows nodeSubspace front p) (hpartition : IsPartition rows nodeSubspace p)
    (hrest : rest ≠ []) : directories rows nodeSubspace (front ++ rest) =
      directories rows (p ++ nodePrefix) rest := by
  rw [directories, hp.follow_append, follow_partition hpartition.layer
    (hregular.partition hp.isNode hpartition).1.regularRows hrest]

theorem directories_cases {nodeSubspace : Bytes} {path : DirectoryPath} {entry : Entry}
    (hregular : Regular rows nodeSubspace) (h : directories rows nodeSubspace path = some entry) :
    (∃ p, Reached rows nodeSubspace path p ∧ entry = entryOf rows nodeSubspace p) ∨
      ∃ front rest p, path = front ++ rest ∧ rest ≠ [] ∧ Reached rows nodeSubspace front p ∧
        IsPartition rows nodeSubspace p ∧ directories rows (p ++ nodePrefix) rest = some entry := by
  induction path using List.reverseRecOn generalizing entry with
  | nil => exact .inl ⟨nodeSubspace, .root, (Option.some.inj h).symm⟩
  | append_singleton path name ih =>
      have hsome : directories rows nodeSubspace (path ++ [name]) ≠ none := by
        rw [h]
        exact Option.some_ne_none _
      have habove : directories rows nodeSubspace path ≠ none :=
        follow_ne_none hsome (List.prefix_append path [name])
      obtain ⟨entry', hentry'⟩ := Option.ne_none_iff_exists'.mp habove
      rcases ih hentry' with ⟨p, hp, -⟩ | ⟨front, rest, p, rfl, hrest, hp, hpartition, -⟩
      · by_cases hpartition : rows.get? (layerKey nodeSubspace p) = some partitionTag
        · have hroot : p ≠ nodeSubspace := by
            rintro rfl
            exact hregular.regularRows.plain_root hpartition
          refine .inr ⟨path, [name], p, rfl, List.cons_ne_nil _ _, hp, ⟨hroot, hpartition⟩, ?_⟩
          rwa [← directories_partition hregular hp ⟨hroot, hpartition⟩ (List.cons_ne_nil _ _)]
        · rw [directories, hp.follow_append, follow_cons_plain hpartition] at h
          obtain ⟨q, hq, hentry⟩ := Option.bind_eq_some_iff.mp h
          exact .inl ⟨q, hp.child hpartition hq, (Option.some.inj hentry).symm⟩
      · have hlonger : rest ++ [name] ≠ [] := by simp
        refine .inr ⟨front, rest ++ [name], p, List.append_assoc _ _ _, hlonger, hp, hpartition, ?_⟩
        rwa [← directories_partition hregular hp hpartition hlonger, ← List.append_assoc]

end Search

/-! ## Reading -/

theorem existsInternal_eq {fuel : Nat} {path : DirectoryPath}
    (h : Regular rows layer.nodeSubspace) (hpath : Accepted path) (hfuel : path.length < fuel) :
    existsInternal rows fuel layer path =
      .ok (directories rows layer.nodeSubspace path).isSome := by
  induction fuel generalizing layer path with
  | zero => omega
  | succ fuel ih =>
      obtain ⟨rows', hversion⟩ := checkVersion_ok h.regularRows false
      obtain ⟨found, hfound⟩ := findNode_ok rows layer hpath
      obtain rfl := Attempt.rows_of_checkVersion hversion
      refine bind_eq_ok.mpr ⟨_, hversion, bind_eq_ok.mpr ⟨_, hfound, ?_⟩⟩
      rcases findNode_cases h.regularRows hfound with
        ⟨rfl, hends⟩ | ⟨p, hp, rfl⟩ | ⟨front, rest, p, rfl, hrest, hp, hpartition, rfl⟩
      · rw [hends.directories_eq_none]
        rfl
      · dsimp only
        rw [not_isInPartition, directories, hp.follow_eq]
        rfl
      · obtain ⟨hinside, hinner, hsubpath⟩ := enter_partition layer front p hrest
        dsimp only
        rw [if_pos hinside, hinner, hsubpath, directories_partition h hp hpartition hrest]
        have hregular : Regular rows' (nestedLayer p (layer.path ++ front)).nodeSubspace :=
          (h.partition hp.isNode hpartition).1
        refine ih hregular hpath.right ?_
        have hfront := List.length_pos_iff.mpr (hp.ne_nil hpartition)
        rw [List.length_append] at hfuel
        omega

end FoundationDbEffect.Directory
