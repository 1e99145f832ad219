import FoundationDbEffect.Directory.Databases
import FoundationDbEffect.Directory.Delegation

/-!
# The reference tree

Seen through any of its handles, a database of directories is a tree of paths.  Its calls succeed
when those of the tree do, and do the same to it; only a new directory needs more than the tree
knows of, a prefix that lies apart from those of all others.
-/

namespace FoundationDbEffect.Directory

open FoundationDbEffect.Foundation FoundationDbEffect.TupleLayer
open FoundationDbEffect.Foundation.ByteOrder

/-! ## Creating missing directories -/

/-- A prefix that can be given to a new directory of a layer: it has a successor, and lies apart
from those of all nodes. -/
structure FreePrefix (rows : Rows) (nodeSubspace p : Bytes) : Prop where
  successor : strinc p ≠ []
  apart : ∀ q, HasNode rows nodeSubspace q → ¬ q <+: p ∧ ¬ p <+: q

/-- The parent of a new directory is the root of its layer, or is opened or created before it. -/
inductive ParentOpened (layer : DirectoryLayerState) (path : DirectoryPath)
    (transaction : DirectoryTransaction) : DirectoryTransaction → Prop where
  | root (hroot : path.dropLast = []) : ParentOpened layer path transaction transaction
  | below {output : DirectoryOutput} {transaction' : DirectoryTransaction}
      (hroot : path.dropLast ≠ [])
      (hcall : layer.createOrOpen path.dropLast none none transaction = .ok (output, transaction')) :
      ParentOpened layer path transaction transaction'

/-- A missing directory of a layer can be created: the layer takes a prefix if one is given, the
parent is there or can be created, and the prefix, given or allocated, is free. -/
structure CanCreate (rows : Rows) (draws : List (Nat × List UInt32)) (layer : DirectoryLayerState)
    (path : DirectoryPath) (prefixBytes : Option Bytes) : Prop where
  manual : prefixBytes.isSome = true → layer.allowManualPrefixes = true
  chosen : ∃ checked middle p chosen, checkVersion layer true rows = .ok checked ∧
    ParentOpened layer path ⟨checked, draws⟩ middle ∧
    choosePrefix layer prefixBytes middle = .ok (p, chosen) ∧
    FreePrefix chosen.rows layer.nodeSubspace p

section

variable {rows : Rows} {layer : DirectoryLayerState} {head p : Bytes} {path : DirectoryPath}

theorem RegularRows.freePrefix_iff (h : RegularRows rows layer.nodeSubspace)
    (hversion : (rows.get? (versionKey layer.nodeSubspace)).isSome) :
    isPrefixFree layer p rows = .ok true ↔ FreePrefix rows layer.nodeSubspace p := by
  constructor
  · intro hfree
    obtain ⟨hapart, hnext⟩ := apart_of_isPrefixFree h hversion hfree
    exact ⟨hnext, fun q hq => hapart q (h.hasNode_iff.mp hq)⟩
  · rintro ⟨hnext, hapart⟩
    have hroot := hapart layer.nodeSubspace (.inl rfl)
    have hne : p ≠ [] := by
      rintro rfl
      exact hroot.2 List.nil_prefix
    obtain ⟨free, hfree, hiff⟩ := isPrefixFree_ok h.prefixFreeNodes hne hnext
    rw [hfree, hiff.mpr ⟨hroot.1, fun q hq => hapart q ?_⟩]
    obtain ⟨key, value, hget, hrow⟩ := hq
    obtain ⟨q', hq', hrow', -⟩ := h.keys key (by rw [hget]; rfl) hrow.below
    obtain rfl := hrow.isNodeRow.inj hrow'.isNodeRow
    exact h.hasNode_iff.mpr hq'

/-- The parent of a missing directory is no partition. -/
theorem CreatesOrOpens.plain_of_ends {next : Rows} {output : DirectoryOutput}
    (h : CreatesOrOpens rows next layer head path.dropLast none none true true output)
    (hends : Ends rows layer.nodeSubspace path none) : output.entry.layer ≠ partitionTag := by
  rcases h.outcome with ⟨-, hentry, -, -⟩ | ⟨fresh, hcreates, hentry, -, -⟩
  · exact hends.plain_of_entry (List.dropLast_prefix path) hentry
  · rw [hentry, hcreates.layers _ List.prefix_rfl, if_pos rfl]
    exact partitionTag_ne_nil

theorem getParentNode_ok_iff {fuel : Nat} {transaction middle : DirectoryTransaction}
    (hwithin : Within layer head) (hinv : LayerInv transaction.rows layer head)
    (hends : Ends transaction.rows layer.nodeSubspace path none) (hne : path ≠ [])
    (hfuel : path.length ≤ fuel) :
    (∃ node, getParentNode (fun parentPath transaction =>
        createOrOpenInternal fuel layer parentPath none none true true transaction)
      layer path transaction = .ok (node, middle)) ↔ ParentOpened layer path transaction middle := by
  have hlength := List.length_pos_iff.mpr hne
  have hcall : createOrOpenInternal fuel layer path.dropLast none none true true transaction =
      layer.createOrOpen path.dropLast none none transaction :=
    createOrOpenInternal_fuel (by rw [List.length_dropLast]; omega) (Nat.lt_succ_self _) _ _ _ _ _
  rw [getParentNode]
  by_cases hroot : path.dropLast.length = 0
  · have hnil := List.eq_nil_of_length_eq_zero hroot
    rw [if_pos hroot]
    constructor
    · rintro ⟨node, h⟩
      obtain ⟨-, rfl⟩ := Prod.mk.inj (Except.ok.inj h)
      exact .root hnil
    · intro h
      cases h with
      | root => exact ⟨_, rfl⟩
      | below hroot' => exact absurd hnil hroot'
  · rw [if_neg hroot, hcall]
    constructor
    · rintro ⟨node, h⟩
      obtain ⟨⟨output, transaction'⟩, hopened, h⟩ := bind_eq_ok.mp h
      cases output with
      | «partition» parentLayer parentPath directoryLayer => cases h
      | subspace directoryLayer relativePath q nodeLayer =>
          obtain ⟨node', -, h⟩ := bind_eq_ok.mp h
          obtain ⟨-, rfl⟩ := Prod.mk.inj (Except.ok.inj h)
          exact .below (fun hnil => hroot (by rw [hnil]; rfl)) hopened
    · intro h
      cases h with
      | root hnil => exact absurd (by rw [hnil]; rfl) hroot
      | @below output transaction' _ hopened =>
          have hplain := (createOrOpenInternal_effect hwithin hinv hopened).plain_of_ends hends
          cases output with
          | «partition» parentLayer parentPath directoryLayer => exact absurd rfl hplain
          | subspace directoryLayer relativePath q nodeLayer =>
              refine ⟨nodeKey layer.nodeSubspace q, bind_eq_ok.mpr ⟨_, hopened, ?_⟩⟩
              exact bind_eq_ok.mpr ⟨_, nodeWithPrefix_eq _ _, rfl⟩

theorem choosePrefix_free_iff {prefixBytes : Option Bytes} {middle chosen : DirectoryTransaction}
    (hregular : RegularRows middle.rows layer.nodeSubspace)
    (hversion : (middle.rows.get? (versionKey layer.nodeSubspace)).isSome)
    (hchosen : choosePrefix layer prefixBytes middle = .ok (p, chosen)) :
    isPrefixFree layer p chosen.rows = .ok true ↔ FreePrefix chosen.rows layer.nodeSubspace p := by
  obtain ⟨hquiet, -⟩ := choosePrefix_quiet hchosen
  obtain ⟨version, hget⟩ := Option.isSome_iff_exists.mp hversion
  refine (hquiet.regularRows hregular).freePrefix_iff ?_
  rw [hquiet.version version hget]
  rfl

theorem getParentNode_regular {fuel : Nat} {transaction middle : DirectoryTransaction} {node : Bytes}
    (hwithin : Within layer head) (hinv : LayerInv transaction.rows layer head)
    (hends : Ends transaction.rows layer.nodeSubspace path none)
    (hversion : (transaction.rows.get? (versionKey layer.nodeSubspace)).isSome)
    (h : getParentNode (fun parentPath transaction =>
        createOrOpenInternal fuel layer parentPath none none true true transaction)
      layer path transaction = .ok (node, middle)) :
    ∃ parent, node = nodeKey layer.nodeSubspace parent ∧
      RegularRows middle.rows layer.nodeSubspace ∧
      (middle.rows.get? (versionKey layer.nodeSubspace)).isSome := by
  obtain ⟨parent, fresh, hnode, heffect⟩ := getParentNode_effect hinv hends hversion
    (fun _ _ hcall => createOrOpenInternal_effect hwithin hinv hcall) h
  exact ⟨parent, hnode, heffect.evolves.inv.regular.regularRows, heffect.version⟩

theorem createInternal_succeeds_iff {fuel : Nat} {prefixBytes nodeLayer : Option Bytes}
    {draws : List (Nat × List UInt32)} (hwithin : Within layer head)
    (hinv : LayerInv rows layer head) (hpath : Accepted path)
    (hends : Ends rows layer.nodeSubspace path none) (hfuel : path.length ≤ fuel) :
    (∃ output transaction', createInternal
        (fun parentPath transaction =>
          createOrOpenInternal fuel layer parentPath none none true true transaction)
        layer path prefixBytes nodeLayer ⟨rows, draws⟩ = .ok (output, transaction')) ↔
    ∃ checked middle p chosen, checkVersion layer true rows = .ok checked ∧
      ParentOpened layer path ⟨checked, draws⟩ middle ∧
      choosePrefix layer prefixBytes middle = .ok (p, chosen) ∧
      FreePrefix chosen.rows layer.nodeSubspace p := by
  have hne : path ≠ [] := by
    rintro rfl
    cases hends.directories_eq_none
  have hlast : path.getLast? = some (path.getLast hne) := List.getLast?_eq_some_getLast hne
  have hname : firstRejection [.string (path.getLast hne)] = none := hpath _ (List.getLast_mem hne)
  obtain ⟨checked, hchecked⟩ := checkVersion_ok hinv.regular.regularRows true
  obtain ⟨hquiet, version, hversion, -⟩ := checkVersion_quiet hchecked
  have hstart := (hquiet.evolves hinv hwithin).inv
  have hends' := hquiet.ends hends
  have hinv' : LayerInv (DirectoryTransaction.mk checked draws).rows layer head := hstart
  have hversion' : (checked.get? (versionKey layer.nodeSubspace)).isSome := by
    rw [hversion]
    rfl
  constructor
  · rintro ⟨output, transaction', h⟩
    rw [createInternal, hlast] at h
    obtain ⟨checked', hchecked', h⟩ := bind_eq_ok.mp h
    obtain rfl := Except.ok.inj (hchecked.symm.trans hchecked')
    obtain ⟨⟨node, middle⟩, hnode, h⟩ := bind_eq_ok.mp h
    obtain ⟨⟨p, chosen⟩, hchosen, h⟩ := bind_eq_ok.mp h
    obtain ⟨free, hused, h⟩ := bind_eq_ok.mp h
    obtain ⟨parent, -, hregular, hmiddle⟩ := getParentNode_regular hwithin hinv' hends' hversion' hnode
    have htrue : free = true := by
      by_contra hnot
      rw [Bool.not_eq_true] at hnot
      subst hnot
      cases h
    subst htrue
    exact ⟨checked, middle, p, chosen, hchecked,
      (getParentNode_ok_iff hwithin hinv' hends' hne hfuel).mp ⟨node, hnode⟩, hchosen,
      (choosePrefix_free_iff hregular hmiddle hchosen).mp hused⟩
  · rintro ⟨checked', middle, p, chosen, hchecked', hopened, hchosen, hprefix⟩
    obtain rfl := Except.ok.inj (hchecked.symm.trans hchecked')
    obtain ⟨node, hnode⟩ := (getParentNode_ok_iff hwithin hinv' hends' hne hfuel).mpr hopened
    obtain ⟨parent, rfl, hregular, hmiddle⟩ :=
      getParentNode_regular hwithin hinv' hends' hversion' hnode
    have hused := (choosePrefix_free_iff hregular hmiddle hchosen).mpr hprefix
    rw [createInternal, hlast]
    refine ⟨outputOf layer p path (nodeLayer.getD []), ⟨added chosen.rows layer.nodeSubspace parent
      (path.getLast hne) p (nodeLayer.getD []), chosen.draws⟩, ?_⟩
    refine bind_eq_ok.mpr ⟨_, hchecked, bind_eq_ok.mpr ⟨_, hnode, bind_eq_ok.mpr ⟨_, hchosen,
      bind_eq_ok.mpr ⟨_, hused, ?_⟩⟩⟩⟩
    exact bind_eq_ok.mpr ⟨_, nodeWithPrefix_eq _ _, bind_eq_ok.mpr ⟨_, packed_childKey hname _ _ _,
      bind_eq_ok.mpr ⟨_, packed_bytes _ _ _, bind_eq_ok.mpr ⟨_, contentsOfNode_eq _ _ _ _, rfl⟩⟩⟩⟩

end

/-! ## Creating through partitions -/

/-- The layer that a path belongs to, and the path in that layer: behind a partition it is the layer
inside. -/
inductive HeldBy (rows : Rows) : DirectoryLayerState → DirectoryPath → DirectoryLayerState →
    DirectoryPath → Prop where
  | here {layer : DirectoryLayerState} {path : DirectoryPath} (hne : path ≠ [])
      (hplain : ∀ front p, front <+: path → front ≠ path → Reached rows layer.nodeSubspace front p →
        ¬ IsPartition rows layer.nodeSubspace p) : HeldBy rows layer path layer path
  | through {layer inner : DirectoryLayerState} {front rest innerPath : DirectoryPath} {p : Bytes}
      (hrest : rest ≠ []) (hp : Reached rows layer.nodeSubspace front p)
      (hpartition : IsPartition rows layer.nodeSubspace p)
      (h : HeldBy rows (nestedLayer p (layer.path ++ front)) rest inner innerPath) :
      HeldBy rows layer (front ++ rest) inner innerPath

section

variable {rows : Rows} {layer inner : DirectoryLayerState} {head : Bytes}
  {path innerPath : DirectoryPath}

theorem exists_heldBy (rows : Rows) (layer : DirectoryLayerState) (hne : path ≠ []) :
    ∃ inner innerPath, HeldBy rows layer path inner innerPath := by
  induction hlength : path.length using Nat.strong_induction_on generalizing layer path with
  | _ length ih =>
      by_cases hthrough : ∃ front p, front <+: path ∧ front ≠ path ∧
          Reached rows layer.nodeSubspace front p ∧ IsPartition rows layer.nodeSubspace p
      · obtain ⟨front, p, ⟨rest, rfl⟩, hproper, hp, hpartition⟩ := hthrough
        have hrest : rest ≠ [] := by
          rintro rfl
          exact hproper (List.append_nil front).symm
        have hfront := List.length_pos_iff.mpr (hp.ne_nil hpartition)
        rw [List.length_append] at hlength
        obtain ⟨inner, innerPath, hheld⟩ :=
          ih rest.length (by omega) (nestedLayer p (layer.path ++ front)) hrest rfl
        exact ⟨inner, innerPath, .through hrest hp hpartition hheld⟩
      · exact ⟨layer, path, .here hne fun front p hle hproper hp hpartition =>
          hthrough ⟨front, p, hle, hproper, hp, hpartition⟩⟩

theorem HeldBy.not_manual (h : HeldBy rows layer path inner innerPath)
    (hmanual : ¬ layer.allowManualPrefixes = true) : ¬ inner.allowManualPrefixes = true := by
  induction h with
  | here => exact hmanual
  | through _ _ _ _ ih => exact ih Bool.false_ne_true

theorem createOrOpenInternal_refused {prefixBytes nodeLayer : Option Bytes}
    {allowCreate allowOpen : Bool} {draws : List (Nat × List UInt32)}
    (hregular : RegularRows rows layer.nodeSubspace) (hsome : prefixBytes.isSome = true)
    (hmanual : ¬ layer.allowManualPrefixes = true) (fuel : Nat) :
    ¬ ∃ output transaction', createOrOpenInternal (fuel + 1) layer path prefixBytes nodeLayer
      allowCreate allowOpen ⟨rows, draws⟩ = .ok (output, transaction') := by
  rw [createOrOpenInternal, checkVersion_read hregular]
  simp only [bind, Except.bind, if_pos (And.intro hsome hmanual)]
  rintro ⟨output, transaction', ⟨⟩⟩

theorem compatible_iff (expectedLayer : Option Bytes) (nodeLayer : Bytes) :
    expectedLayer.any (fun expected => decide (expected.length > 0 ∧ expected ≠ nodeLayer)) = true ↔
      ¬ ∀ expected, expectedLayer = some expected → expected ≠ [] → nodeLayer = expected := by
  cases expectedLayer with
  | none => simp
  | some expected =>
      simp only [Option.any_some, decide_eq_true_eq, Option.some.injEq, forall_eq', Classical.not_imp,
        gt_iff_lt, List.length_pos_iff]
      exact and_congr_right fun _ => ne_comm

section

variable {prefixBytes nodeLayer : Option Bytes} {allowOpen : Bool} {draws : List (Nat × List UInt32)}
  {fuel : Nat} {p : Bytes}

theorem createOrOpenInternal_missing (hregular : RegularRows rows layer.nodeSubspace)
    (htakes : prefixBytes.isSome = true → layer.allowManualPrefixes = true) (hne : path ≠ [])
    (hfound : findNode rows layer path = .ok none) :
    createOrOpenInternal (fuel + 1) layer path prefixBytes nodeLayer true allowOpen ⟨rows, draws⟩ =
      createInternal
        (fun parentPath transaction =>
          createOrOpenInternal fuel layer parentPath none none true true transaction)
        layer path prefixBytes nodeLayer ⟨rows, draws⟩ := by
  have hmanual : ¬ (prefixBytes.isSome = true ∧ ¬ layer.allowManualPrefixes = true) :=
    fun h => h.2 (htakes h.1)
  have hempty : ¬ path.length = 0 := List.length_eq_zero_iff.not.mpr hne
  rw [createOrOpenInternal, checkVersion_read hregular]
  simp only [bind, Except.bind, if_neg hmanual, if_neg hempty, hfound, Bool.not_true,
    Bool.false_eq_true, if_false]

theorem createOrOpenInternal_found (hregular : RegularRows rows layer.nodeSubspace)
    (htakes : prefixBytes.isSome = true → layer.allowManualPrefixes = true) (hne : path ≠ [])
    (hfound : findNode rows layer path = .ok (some ⟨nodeKey layer.nodeSubspace p, path, path,
      (entryOf rows layer.nodeSubspace p).layer⟩)) :
    (∃ output transaction', createOrOpenInternal (fuel + 1) layer path prefixBytes nodeLayer true
      allowOpen ⟨rows, draws⟩ = .ok (output, transaction')) ↔
    allowOpen = true ∧ ∀ expected, nodeLayer = some expected → expected ≠ [] →
      (entryOf rows layer.nodeSubspace p).layer = expected := by
  have hmanual : ¬ (prefixBytes.isSome = true ∧ ¬ layer.allowManualPrefixes = true) :=
    fun h => h.2 (htakes h.1)
  have hempty : ¬ path.length = 0 := List.length_eq_zero_iff.not.mpr hne
  rw [createOrOpenInternal, checkVersion_read hregular]
  simp only [bind, Except.bind, if_neg hmanual, if_neg hempty, hfound, not_isInPartition,
    Bool.false_eq_true, if_false, getContents, contentsOfNode_eq, compatible_iff]
  cases allowOpen with
  | false => simp
  | true =>
      simp only [Bool.not_true, Bool.false_eq_true, if_false, true_and]
      split_ifs with hlayer
      · exact iff_of_true ⟨_, _, rfl⟩ hlayer
      · refine iff_of_false ?_ hlayer
        rintro ⟨output, transaction', ⟨⟩⟩

end

/-- When `create` and `createOrOpen` succeed. -/
theorem createOrOpen_succeeds_iff {fuel : Nat} {prefixBytes nodeLayer : Option Bytes}
    {allowOpen : Bool} {draws : List (Nat × List UInt32)}
    (hheld : HeldBy rows layer path inner innerPath) (hwithin : Within layer head)
    (hinv : LayerInv rows layer head) (hpath : Accepted path) (hfuel : path.length < fuel) :
    (∃ output transaction', createOrOpenInternal fuel layer path prefixBytes nodeLayer true allowOpen
      ⟨rows, draws⟩ = .ok (output, transaction')) ↔
    (allowOpen = true ∧ (prefixBytes.isSome = true → inner.allowManualPrefixes = true) ∧
      ∃ entry, directories rows layer.nodeSubspace path = some entry ∧
        ∀ expected, nodeLayer = some expected → expected ≠ [] → entry.layer = expected) ∨
    (directories rows layer.nodeSubspace path = none ∧
      CanCreate rows draws inner innerPath prefixBytes) := by
  induction hheld generalizing head fuel with
  | @here layer path hne hplain =>
      cases fuel with
      | zero => omega
      | succ fuel =>
          have hregular := hinv.regular
          by_cases hmanual : prefixBytes.isSome = true ∧ ¬ layer.allowManualPrefixes = true
          · refine iff_of_false (createOrOpenInternal_refused hregular.regularRows hmanual.1 hmanual.2
              fuel) fun h => hmanual.2 ?_
            exact h.elim (fun hopens => hopens.2.1) (fun hcan => hcan.2.manual) hmanual.1
          have htakes : prefixBytes.isSome = true → layer.allowManualPrefixes = true :=
            fun hsome => by_contra fun hnot => hmanual ⟨hsome, hnot⟩
          obtain ⟨found, hfound⟩ := findNode_ok rows layer hpath
          rcases findNode_cases hregular.regularRows hfound with
            ⟨rfl, hends⟩ | ⟨p, hp, rfl⟩ | ⟨front, rest, p, rfl, hrest, hp, hpartition, rfl⟩
          · rw [createOrOpenInternal_missing hregular.regularRows htakes hne hfound,
              createInternal_succeeds_iff hwithin hinv hpath hends (Nat.le_of_lt_succ hfuel)]
            have hnone := hends.directories_eq_none
            constructor
            · exact fun hchosen => .inr ⟨hnone, htakes, hchosen⟩
            · rintro (⟨-, -, entry, hentry, -⟩ | ⟨-, hcan⟩)
              · rw [hnone] at hentry
                cases hentry
              · exact hcan.chosen
          · rw [createOrOpenInternal_found hregular.regularRows htakes hne hfound]
            have hsome : directories rows layer.nodeSubspace path =
                some (entryOf rows layer.nodeSubspace p) := hp.follow_eq
            constructor
            · exact fun ⟨hopen, hlayer⟩ => .inl ⟨hopen, htakes, _, hsome, hlayer⟩
            · rintro (⟨hopen, -, entry, hentry, hlayer⟩ | ⟨hnone, -⟩)
              · rw [hsome] at hentry
                cases hentry
                exact ⟨hopen, hlayer⟩
              · rw [hsome] at hnone
                cases hnone
          · exact absurd hpartition (hplain front p (List.prefix_append _ _) (by simpa using hrest) hp)
  | @through layer inner front rest innerPath p hrest hp hpartition h ih =>
      have hfront := List.length_pos_iff.mpr (hp.ne_nil hpartition)
      have hlength := List.length_pos_iff.mpr hrest
      rw [List.length_append] at hfuel
      obtain ⟨fuel, rfl⟩ := Nat.exists_eq_add_of_le' (show 2 ≤ fuel by omega)
      by_cases hmanual : prefixBytes.isSome = true ∧ ¬ layer.allowManualPrefixes = true
      · refine iff_of_false (createOrOpenInternal_refused hinv.regular.regularRows hmanual.1 hmanual.2
          _) fun hor => h.not_manual Bool.false_ne_true ?_
        exact hor.elim (fun hopens => hopens.2.1) (fun hcan => hcan.2.manual) hmanual.1
      have htakes : prefixBytes.isSome = true → layer.allowManualPrefixes = true :=
        fun hsome => by_contra fun hnot => hmanual ⟨hsome, hnot⟩
      rw [createOrOpenInternal_partition hinv.regular hp hpartition hrest fuel
        (fun hsome => .inl (htakes hsome)) (fun h => by cases h),
        directories_partition hinv.regular hp hpartition hrest]
      exact ih (Within.nested p _) (hinv.nested hp.isNode hpartition _) hpath.right (by omega)

end

/-! ## The tree of paths -/

/-- There is a directory at a path, with the layer that is asked for. -/
def Opens (rows : Rows) (nodeSubspace : Bytes) (path : DirectoryPath) (nodeLayer : Option Bytes) :
    Prop :=
  ∃ entry, directories rows nodeSubspace path = some entry ∧
    ∀ expected, nodeLayer = some expected → expected ≠ [] → entry.layer = expected

/-- The layer that a path belongs to takes a prefix for it, if one is given. -/
def TakesPrefix (rows : Rows) (layer : DirectoryLayerState) (path : DirectoryPath)
    (prefixBytes : Option Bytes) : Prop :=
  ∃ inner innerPath, HeldBy rows layer path inner innerPath ∧
    (prefixBytes.isSome = true → inner.allowManualPrefixes = true)

/-- A path without a directory, at which the layer that it belongs to can create one. -/
def Creatable (rows : Rows) (draws : List (Nat × List UInt32)) (layer : DirectoryLayerState)
    (path : DirectoryPath) (prefixBytes : Option Bytes) : Prop :=
  directories rows layer.nodeSubspace path = none ∧
    ∃ inner innerPath, HeldBy rows layer path inner innerPath ∧
      CanCreate rows draws inner innerPath prefixBytes

/-- A call that succeeds exactly when it is possible, and what it does then. -/
structure Performs {α : Type} (result : Except DirectoryFailure α) (possible : Prop)
    (effect : α → Prop) : Prop where
  succeeds : (∃ value, result = .ok value) ↔ possible
  effect : ∀ value, result = .ok value → effect value

/-- The calls of a handle are those of the tree of paths, at the path behind its own. -/
structure FollowsTree (rows : Rows) (layer : DirectoryLayerState) (base : DirectoryPath)
    (handle : DirectoryHandle) : Prop where
  create : ∀ path prefixBytes nodeLayer draws, Accepted (base ++ path) →
    Performs (handle.create path prefixBytes nodeLayer ⟨rows, draws⟩)
      (Creatable rows draws layer (base ++ path) prefixBytes) fun value =>
      CreatesOrOpens rows value.2.rows layer [] (base ++ path) prefixBytes nodeLayer true false value.1
  createOrOpen : ∀ path prefixBytes nodeLayer draws, Accepted (base ++ path) →
    Performs (handle.createOrOpen path prefixBytes nodeLayer ⟨rows, draws⟩)
      (handle.inside.2 ++ path ≠ [] ∧
        ((TakesPrefix rows layer (base ++ path) prefixBytes ∧
          Opens rows layer.nodeSubspace (base ++ path) nodeLayer) ∨
        Creatable rows draws layer (base ++ path) prefixBytes)) fun value =>
      CreatesOrOpens rows value.2.rows layer [] (base ++ path) prefixBytes nodeLayer true true value.1
  open' : ∀ path nodeLayer draws, Accepted (base ++ path) →
    Performs (handle.open' path nodeLayer ⟨rows, draws⟩)
      (handle.inside.2 ++ path ≠ [] ∧ Opens rows layer.nodeSubspace (base ++ path) nodeLayer)
      fun value =>
      CreatesOrOpens rows value.2.rows layer [] (base ++ path) none nodeLayer false true value.1
  exists' : ∀ path, Accepted (base ++ path) →
    handle.exists' path rows = .ok (directories rows layer.nodeSubspace (base ++ path)).isSome
  list : ∀ path, Accepted (base ++ path) →
    Lists rows layer.nodeSubspace (base ++ path) (handle.list path rows)
  moveTo : ∀ oldPath newPath, Accepted (base ++ oldPath) → Accepted (base ++ newPath) →
    Performs (handle.moveTo oldPath newPath rows)
      (CanMove rows layer.nodeSubspace (base ++ oldPath) (base ++ newPath)) fun value =>
      Moves rows value.2 layer [] (base ++ oldPath) (base ++ newPath) value.1
  remove : ∀ path, Accepted (base ++ path) →
    Performs (handle.remove path rows)
      ((handle.subject path).2 ≠ [] ∧ directories rows layer.nodeSubspace (base ++ path) ≠ none)
      fun value => RemovesAt rows value.2 layer [] (base ++ path) true value.1
  removeIfExists : ∀ path, Accepted (base ++ path) →
    Performs (handle.removeIfExists path rows) ((handle.subject path).2 ≠ [])
      fun value => RemovesAt rows value.2 layer [] (base ++ path) false value.1
  through : ∀ front inside, Holds rows layer (base ++ front) inside →
    SameCalls rows layer handle inside front

section

variable {rows : Rows} {layer inner : DirectoryLayerState} {head : Bytes}
  {base path : DirectoryPath} {handle : DirectoryHandle} {prefixBytes nodeLayer : Option Bytes}
  {allowOpen : Bool} {draws : List (Nat × List UInt32)}

theorem Holds.not_manual (h : Holds rows layer base handle)
    (hmanual : ¬ layer.allowManualPrefixes = true) :
    ¬ handle.inside.1.allowManualPrefixes = true := by
  obtain ⟨front, hfront, -⟩ := h.inside
  generalize handle.inside.1 = inner at hfront ⊢
  cases hfront with
  | self => exact hmanual
  | nested => exact Bool.false_ne_true

theorem Holds.creates_iff (h : Holds rows layer base handle) (hwithin : Within layer head)
    (hinv : LayerInv rows layer head) (hpath : Accepted (base ++ path)) :
    (∃ output transaction', createOrOpenInternal ((handle.inside.2 ++ path).length + 1)
      handle.inside.1 (handle.inside.2 ++ path) prefixBytes nodeLayer true allowOpen ⟨rows, draws⟩ =
        .ok (output, transaction')) ↔
    handle.inside.2 ++ path ≠ [] ∧
      ((allowOpen = true ∧ TakesPrefix rows layer (base ++ path) prefixBytes ∧
        Opens rows layer.nodeSubspace (base ++ path) nodeLayer) ∨
      Creatable rows draws layer (base ++ path) prefixBytes) := by
  obtain ⟨front, hfront, hbase⟩ := h.inside
  obtain ⟨head', hwithin', hinv'⟩ := hfront.inv hwithin hinv
  by_cases hne : handle.inside.2 ++ path = []
  · simp only [hne, ne_eq, not_true_eq_false, false_and, iff_false]
    rintro ⟨output, transaction', hcall⟩
    exact (createOrOpenInternal_effect hwithin' hinv' hcall).nonempty rfl
  rw [ne_eq, eq_true hne, true_and]
  have hbelow : base ++ path ≠ [] := by
    rw [hbase, List.append_assoc]
    simp [hne]
  by_cases hmanual : prefixBytes.isSome = true ∧ ¬ layer.allowManualPrefixes = true
  · refine iff_of_false (createOrOpenInternal_refused hinv'.regular.regularRows hmanual.1
      (h.not_manual hmanual.2) _) ?_
    rintro (⟨-, ⟨inner, innerPath, hheld, htakes⟩, -⟩ | ⟨-, inner, innerPath, hheld, hcan⟩)
    · exact hheld.not_manual hmanual.2 (htakes hmanual.1)
    · exact hheld.not_manual hmanual.2 (hcan.manual hmanual.1)
  have htakes : prefixBytes.isSome = true → layer.allowManualPrefixes = true :=
    fun hsome => by_contra fun hnot => hmanual ⟨hsome, hnot⟩
  have hiff {inner : DirectoryLayerState} {innerPath : DirectoryPath}
      (hheld : HeldBy rows layer (base ++ path) inner innerPath) :=
    @createOrOpen_succeeds_iff rows layer inner head (base ++ path) innerPath
      ((base ++ path).length + 1) prefixBytes nodeLayer allowOpen draws hheld hwithin hinv hpath
      (Nat.lt_succ_self _)
  rw [h.createOrOpenInternal_eq hwithin hinv hne htakes (fun h => by cases h)]
  constructor
  · intro hcall
    obtain ⟨inner, innerPath, hheld⟩ := exists_heldBy rows layer hbelow
    rcases (hiff hheld).mp hcall with ⟨hallow, hprefix, hopens⟩ | ⟨hnone, hcan⟩
    · exact .inl ⟨hallow, ⟨inner, innerPath, hheld, hprefix⟩, hopens⟩
    · exact .inr ⟨hnone, inner, innerPath, hheld, hcan⟩
  · rintro (⟨hallow, ⟨inner, innerPath, hheld, hprefix⟩, hopens⟩ |
      ⟨hnone, inner, innerPath, hheld, hcan⟩)
    · exact (hiff hheld).mpr (.inl ⟨hallow, hprefix, hopens⟩)
    · exact (hiff hheld).mpr (.inr ⟨hnone, hcan⟩)

theorem Holds.inside_ne_nil (h : Holds rows layer base handle) (hwithin : Within layer head)
    (hinv : LayerInv rows layer head)
    (hnone : directories rows layer.nodeSubspace (base ++ path) = none) :
    handle.inside.2 ++ path ≠ [] := by
  obtain ⟨front, hfront, hbase⟩ := h.inside
  intro hnil
  rw [hbase, List.append_assoc, hnil, List.append_nil] at hnone
  exact hfront.directories_ne_none hwithin hinv hnone

theorem Performs.of_iff {σ τ : Type} {result : Except DirectoryFailure (σ × τ)} {possible : Prop}
    {effect : σ × τ → Prop} (h : (∃ value value', result = .ok (value, value')) ↔ possible)
    (heffect : ∀ value value', result = .ok (value, value') → effect (value, value')) :
    Performs result possible effect :=
  ⟨Prod.exists.trans h, fun value hresult => heffect value.1 value.2 hresult⟩

end

def strayRows : Rows :=
  (∅ : Rows).set (childKey [0x15, 0x02, 0xfe] [0x15, 0x02, 0xfe] (text "x")) [0x15, 0x03]

end FoundationDbEffect.Directory
