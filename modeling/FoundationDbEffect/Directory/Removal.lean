import FoundationDbEffect.Directory.Location

/-!
# Recursive removal

A removal clears, for each node below the removed one, the rows below that node and the rows
under its prefix, and then the child row that pointed to it.  Whatever is gone at any moment
is gone with whole subtrees, so the recursion finds the children of a node either all in
place or all gone.  Nothing else is cleared: the rows of nodes lie apart, and no prefix in the
layer is a head of another one or of the node subspace.
-/

namespace FoundationDbEffect.Directory

open FoundationDbEffect.Foundation FoundationDbEffect.TupleLayer
open FoundationDbEffect.Foundation.ByteOrder

variable {rows current next : Rows} {layer : DirectoryLayerState} {nodeSubspace p q r key : Bytes}
  {gone gone' : Bytes → Prop}

def Occupied (rows : Rows) (nodeSubspace p key : Bytes) : Prop :=
  ∃ q, Below (Points rows nodeSubspace) p q ∧ (IsMetadata nodeSubspace q key ∨ q <+: key)

theorem Occupied.of_below (h : Below (Points rows nodeSubspace) p q)
    (hkey : Occupied rows nodeSubspace q key) : Occupied rows nodeSubspace p key := by
  obtain ⟨r, hr, hkey⟩ := hkey
  exact ⟨r, h.trans hr, hkey⟩

theorem occupied_iff : Occupied rows nodeSubspace p key ↔
    (IsMetadata nodeSubspace p key ∨ p <+: key) ∨
      ∃ row q, Points rows nodeSubspace p row q ∧ Occupied rows nodeSubspace q key := by
  constructor
  · rintro ⟨r, hbelow, hkey⟩
    rcases hbelow.eq_or_edge with rfl | ⟨row, q, hpoints, hbelow⟩
    · exact .inl hkey
    · exact .inr ⟨row, q, hpoints, r, hbelow, hkey⟩
  · rintro (hkey | ⟨row, q, hpoints, hkey⟩)
    · exact ⟨p, .refl p, hkey⟩
    · exact .of_below (.of_edge hpoints) hkey

theorem LayerTree.below_of_occupied (h : LayerTree rows nodeSubspace)
    (hp : IsNode rows nodeSubspace p) (hroot : p ≠ nodeSubspace)
    (hkey : IsMetadata nodeSubspace q key) (hoccupied : Occupied rows nodeSubspace p key) :
    Below (Points rows nodeSubspace) p q := by
  obtain ⟨r, hbelow, hmetadata | hhead⟩ := hoccupied
  · rwa [hkey.inj hmetadata]
  · have hroot' := h.eq_of_heads (hp.trans hbelow) (.refl _) hhead hkey.below
    exact absurd hroot' (h.ne_root hp hroot hbelow)

/-! ## The recursion -/

/-- What is gone is gone with whole subtrees. -/
def Whole (rows : Rows) (nodeSubspace : Bytes) (gone : Bytes → Prop) : Prop :=
  ∀ p, IsNode rows nodeSubspace p →
    (∀ key, IsMetadata nodeSubspace p key → ¬ gone key) ∨
      ∀ key, Occupied rows nodeSubspace p key → gone key

theorem whole_false : Whole rows nodeSubspace fun _ => False := fun _ _ => .inl fun _ _ => id

theorem Whole.or_occupied (hgone : Whole rows nodeSubspace gone) (h : LayerTree rows nodeSubspace)
    (hp : IsNode rows nodeSubspace p) (hroot : p ≠ nodeSubspace) :
    Whole rows nodeSubspace fun key => gone key ∨ Occupied rows nodeSubspace p key := by
  intro q hq
  rcases hgone q hq with hkept | hall
  · by_cases hbelow : Below (Points rows nodeSubspace) p q
    · exact .inr fun key hkey => .inr (hkey.of_below hbelow)
    · refine .inl fun key hkey => not_or.mpr ⟨hkept key hkey, fun hoccupied => ?_⟩
      exact hbelow (h.below_of_occupied hp hroot hkey hoccupied)
  · exact .inr fun key hkey => .inl (hall key hkey)

/-- The removal of a node removes it: of rows in which whole subtrees are gone already, those of
this node go as well. -/
def Removes (rows : Rows) (nodeSubspace p : Bytes) (remove : Rows → Except DirectoryFailure Rows) :
    Prop :=
  ∀ current gone, Whole rows nodeSubspace gone →
    OrderedMap.Without (fun key _ => gone key) rows current →
    ∃ next, remove current = .ok next ∧
      OrderedMap.Without (fun key _ => gone key ∨ Occupied rows nodeSubspace p key) rows next

theorem foldlM_removes (h : LayerTree rows nodeSubspace) (hp : IsNode rows nodeSubspace p)
    {remove : Rows → Bytes × Bytes → Except DirectoryFailure Rows}
    {children : List (Bytes × Bytes)}
    (hchildren : ∀ child ∈ children, Points rows nodeSubspace p child.1 child.2 ∧
      Removes rows nodeSubspace child.2 (remove · child))
    (hgone : Whole rows nodeSubspace gone)
    (hcurrent : OrderedMap.Without (fun key _ => gone key) rows current) :
    ∃ next, children.foldlM remove current = .ok next ∧
      OrderedMap.Without (fun key _ => gone key ∨
        ∃ child ∈ children, Occupied rows nodeSubspace child.2 key) rows next := by
  induction children generalizing current gone with
  | nil => exact ⟨current, rfl, by simpa using hcurrent⟩
  | cons child children ih =>
      obtain ⟨hpoints, hremoves⟩ := hchildren child List.mem_cons_self
      obtain ⟨middle, hmiddle, hwithout⟩ := hremoves current gone hgone hcurrent
      have hchild : IsNode rows nodeSubspace child.2 := hp.step hpoints
      have hroot : child.2 ≠ nodeSubspace := by
        intro heq
        exact h.root p child.1 hp (heq ▸ hpoints)
      obtain ⟨next, hnext, hwithout'⟩ := ih
        (fun child' hmem => hchildren child' (List.mem_cons_of_mem _ hmem))
        (hgone.or_occupied h hchild hroot) hwithout
      refine ⟨next, ?_, hwithout'.congr ?_⟩
      · rw [List.foldlM_cons]
        exact bind_eq_ok.mpr ⟨middle, hmiddle, hnext⟩
      · intro key value _
        simp only [List.exists_mem_cons_iff, or_assoc]

theorem removeChild_eq (h : LayerTree rows layer.nodeSubspace)
    (hp : IsNode rows layer.nodeSubspace p) {child : Bytes × Bytes}
    (hpoints : Points rows layer.nodeSubspace p child.1 child.2) (fuel : Nat) (current : Rows) :
    (do
      let tuple ← unpacked (nodeKey layer.nodeSubspace p) child.1 "invalid directory child key"
      let _ ← directoryChildName tuple
      let childNode ← nodeWithPrefix layer child.2
      removeRecursive layer fuel childNode current) =
    removeRecursive layer fuel (nodeKey layer.nodeSubspace child.2) current := by
  obtain ⟨name, hname, hkey⟩ := h.named p child.1 child.2 hp hpoints
  have hunpacked : unpacked (nodeKey layer.nodeSubspace p) child.1 "invalid directory child key" =
      .ok [.integer 0, .string name] := by
    rw [hkey, childKey]
    exact unpacked_eq _ (by simpa [firstRejection, rejection] using hname) _
  rw [hunpacked, nodeWithPrefix_eq]
  rfl

@[simp] theorem nodePrefixOf_eq (layer : DirectoryLayerState) (prefixBytes : Bytes) :
    nodePrefixOf layer (nodeKey layer.nodeSubspace prefixBytes) = .ok prefixBytes := by
  rw [nodePrefixOf, nodeKey, unpacked_eq layer.nodeSubspace rfl]
  rfl

/-- A node that has its rows has its children, and a node that has lost them has none. -/
theorem Whole.occupied_children (hgone : Whole rows nodeSubspace gone)
    (hp : IsNode rows nodeSubspace p)
    (hcurrent : OrderedMap.Without (fun key _ => gone key) rows current) (key : Bytes) :
    ((gone key ∨ ∃ child ∈ allInRange current (childRows nodeSubspace p ++ [0x00])
        (childRows nodeSubspace p ++ [0xff]), Occupied rows nodeSubspace child.2 key) ∨
      p <+: key) ∨ IsMetadata nodeSubspace p key ↔
    gone key ∨ Occupied rows nodeSubspace p key := by
  have hmem (child : Bytes × Bytes) : child ∈ allInRange current
      (childRows nodeSubspace p ++ [0x00]) (childRows nodeSubspace p ++ [0xff]) ↔
      Points rows nodeSubspace p child.1 child.2 ∧ ¬ gone child.1 := by
    rw [allInRange, OrderedMap.mem_rows, hcurrent, Points, IsChildRow, and_assoc]
  rw [occupied_iff]
  constructor
  · rintro (((hkey | ⟨child, hchild, hkey⟩) | hkey) | hkey)
    · exact .inl hkey
    · exact .inr (.inr ⟨child.1, child.2, ((hmem child).mp hchild).1, hkey⟩)
    · exact .inr (.inl (.inr hkey))
    · exact .inr (.inl (.inl hkey))
  · rintro (hkey | (hkey | hkey) | ⟨row, q, hpoints, hkey⟩)
    · exact .inl (.inl (.inl hkey))
    · exact .inr hkey
    · exact .inl (.inr hkey)
    · rcases hgone p hp with hkept | hall
      · exact .inl (.inl (.inr ⟨(row, q), (hmem (row, q)).mpr
          ⟨hpoints, hkept row hpoints.isMetadata⟩, hkey⟩))
      · exact .inl (.inl (.inl (hall key (hkey.of_below (.of_edge hpoints)))))

theorem removes_removeRecursive (h : LayerTree rows layer.nodeSubspace) (fuel : Nat)
    {labels : List Bytes}
    (hlabels : Trail (Points rows layer.nodeSubspace) layer.nodeSubspace labels p)
    (hroot : p ≠ layer.nodeSubspace) (hfuel : rows.entries.length < fuel + labels.length) :
    Removes rows layer.nodeSubspace p
      (removeRecursive layer fuel (nodeKey layer.nodeSubspace p)) := by
  induction fuel generalizing p labels with
  | zero =>
      -- The rows that point down to the node are as many as the database has.
      have hlength := h.length_le hlabels
      omega
  | succ fuel ih =>
      intro current gone hgone hcurrent
      have hp : IsNode rows layer.nodeSubspace p := ⟨labels, hlabels⟩
      have hoccupied := hgone.occupied_children hp hcurrent
      generalize hchildren : allInRange current (childRows layer.nodeSubspace p ++ [0x00])
        (childRows layer.nodeSubspace p ++ [0xff]) = children at hoccupied
      have hremoves : ∀ child ∈ children, Points rows layer.nodeSubspace p child.1 child.2 ∧
          Removes rows layer.nodeSubspace child.2 (fun current => do
            let tuple ←
              unpacked (nodeKey layer.nodeSubspace p) child.1 "invalid directory child key"
            let _ ← directoryChildName tuple
            let childNode ← nodeWithPrefix layer child.2
            removeRecursive layer fuel childNode current) := by
        intro child hmem
        rw [← hchildren, allInRange, OrderedMap.mem_rows, hcurrent] at hmem
        have hpoints : Points rows layer.nodeSubspace p child.1 child.2 := ⟨hmem.1, hmem.2.1⟩
        have hchild : child.2 ≠ layer.nodeSubspace := by
          intro heq
          exact h.root p child.1 hp (heq ▸ hpoints)
        refine ⟨hpoints, ?_⟩
        simp only [removeChild_eq h hp hpoints]
        exact ih (hlabels.cons hpoints) hchild (by simp only [List.length_cons]; omega)
      obtain ⟨swept, hswept, hwithout⟩ := foldlM_removes h hp hremoves hgone hcurrent
      have hnext := h.successor p hp hroot
      refine ⟨(swept.clearRange (interval p (strinc p))).clearRange
        (interval (nodeKey layer.nodeSubspace p ++ [0x00])
          (nodeKey layer.nodeSubspace p ++ [0xff])), ?_, ?_⟩
      · subst hchildren
        refine bind_eq_ok.mpr ⟨_, subspaceRange_eq _ rfl, bind_eq_ok.mpr ⟨swept, hswept, ?_⟩⟩
        simp [incrementPrefix_eq hnext, subspaceRange_eq _ (show firstRejection [] = none from rfl),
          encodeTuple, bind, Except.bind]
      · refine ((hwithout.trans (OrderedMap.without_clearRange _ _)).trans
          (OrderedMap.without_clearRange _ _)).congr fun key value _ => ?_
        rw [interval_strinc_iff hnext]
        exact hoccupied key

/-! ## Whole calls -/

theorem checkVersion_writable {version : Bytes}
    (hversion : rows.get? (versionKey layer.nodeSubspace) = some version)
    (hwritable : Writable version) : checkVersion layer true rows = .ok rows := by
  obtain ⟨hlength, hmajor, hminor⟩ := hwritable
  rw [checkVersion]
  refine bind_eq_ok.mpr ⟨versionKey layer.nodeSubspace, packed_bytes .., ?_⟩
  simp [hversion, hlength, hminor, Nat.not_lt.mpr hmajor]

theorem removeFromParent_walk {front : DirectoryPath} {name : CodeUnits}
    (h : Walk rows layer.nodeSubspace layer.nodeSubspace front p)
    (hname : firstRejection [.string name] = none) :
    removeFromParent layer (front ++ [name]) rows =
      .ok (rows.clear (childKey layer.nodeSubspace p name)) := by
  obtain ⟨nodeLayer, hfound⟩ := findNode_walk h
  rw [removeFromParent, List.getLast?_concat, List.dropLast_concat]
  simp [hfound, packed_childKey hname, bind, Except.bind]

theorem Walk.removed (h : LayerTree rows nodeSubspace) {front : DirectoryPath}
    (hwalk : Walk rows nodeSubspace nodeSubspace front p)
    (hpoints : Points rows nodeSubspace p key q)
    (hnext : OrderedMap.Without (fun key _ => Occupied rows nodeSubspace q key) rows next) :
    Walk next nodeSubspace nodeSubspace front p := by
  refine hwalk.congr fun r hr hrp key' hkey' => hnext.get?_eq fun _ hoccupied => ?_
  have hp := hwalk.reaches
  have hroot : q ≠ nodeSubspace := by
    rintro rfl
    exact h.root p key hp hpoints
  exact h.rooted.not_below hp hpoints
    (h.below_of_occupied (hp.step hpoints) hroot hkey' hoccupied) hrp

theorem removeInternal_located {path : DirectoryPath} {place : Place}
    (h : Located rows nodeSubspace path place) (hformed : WellFormed rows nodeSubspace)
    (hlayer : layer.nodeSubspace = nodeSubspace) (failIfMissing : Bool) {fuel : Nat}
    (hfuel : path.length ≤ fuel) :
    ∃ next, removeInternal fuel layer path failIfMissing rows = .ok (true, next) ∧
      OrderedMap.Without (fun key _ => Occupied rows place.nodeSubspace place.prefixBytes key ∨
        key = place.pointer) rows next := by
  induction h generalizing layer fuel with
  | @here nodeSubspace parent p name front hwalk hname hget =>
      subst hlayer
      obtain ⟨fuel, rfl⟩ : ∃ fuel', fuel = fuel' + 1 :=
        Nat.exists_eq_succ_of_ne_zero (by simp at hfuel; omega)
      have htree := hformed.layerTree
      have hpoints := points_childKey hget
      obtain ⟨hp, hroot⟩ := htree.child hwalk hget
      obtain ⟨version, hversion, hwritable⟩ := htree.versioned p hp hroot
      obtain ⟨labels, hlabels⟩ := hwalk.reaches
      obtain ⟨swept, hswept, hwithout⟩ := removes_removeRecursive htree (rows.entries.length + 1)
        (hlabels.cons hpoints) hroot (by simp only [List.length_cons]; omega) rows
        (fun _ => False) whole_false (.refl rows)
      have hwithout' : OrderedMap.Without
          (fun key _ => Occupied rows layer.nodeSubspace p key) rows swept :=
        hwithout.congr fun _ _ _ => by simp
      refine ⟨swept.clear (childKey layer.nodeSubspace parent name), ?_,
        hwithout'.trans (OrderedMap.without_clear _ _)⟩
      refine bind_eq_ok.mpr ⟨rows, checkVersion_writable hversion hwritable, ?_⟩
      rw [if_neg (by simp)]
      refine bind_eq_ok.mpr ⟨_, findNode_child hwalk hname hget (.inl rfl), ?_⟩
      dsimp only
      rw [if_neg (by simp [isInPartition])]
      refine bind_eq_ok.mpr ⟨swept, hswept, bind_eq_ok.mpr ⟨_, ?_, rfl⟩⟩
      exact removeFromParent_walk (hwalk.removed htree hpoints hwithout') hname
  | @nested nodeSubspace parent p name front rest place hwalk hname hget hpartition h ih =>
      subst hlayer
      obtain ⟨fuel, rfl⟩ : ∃ fuel', fuel = fuel' + 1 :=
        Nat.exists_eq_succ_of_ne_zero (by simp at hfuel; omega)
      obtain ⟨hp, hroot⟩ := hformed.layerTree.child hwalk hget
      obtain ⟨version, hversion, hwritable⟩ := hformed.layerTree.versioned p hp hroot
      have hrest : rest ≠ [] := h.ne_nil
      have hinner : (nestedLayer p (layer.path ++ (front ++ [name]))).nodeSubspace =
          p ++ nodePrefix := rfl
      have hlength : rest.length ≤ fuel := by
        simp at hfuel
        omega
      obtain ⟨next, hnext, hwithout⟩ := ih (hformed.nested hp ⟨hroot, hpartition⟩) hinner hlength
      refine ⟨next, ?_, hwithout⟩
      refine bind_eq_ok.mpr ⟨rows, checkVersion_writable hversion hwritable, ?_⟩
      rw [if_neg (by simp)]
      refine bind_eq_ok.mpr ⟨_, findNode_child hwalk hname hget (.inr hpartition), ?_⟩
      dsimp only
      rw [getD_eq_partitionTag.mpr hpartition, if_pos ((isInPartition_iff _ _ _ _).mpr
        ⟨rfl, by simp [List.length_pos_iff.mpr hrest]⟩)]
      refine bind_eq_ok.mpr ⟨_, partitionOf_eq _ _ _ _, ?_⟩
      rw [partitionSubpath_eq]
      exact hnext

/-! ## What a removal leaves -/

def Covered (rows : Rows) (place : Place) (key : Bytes) : Prop :=
  ∃ innerSubspace q, Inside rows place.nodeSubspace place.prefixBytes innerSubspace q ∧
    (IsMetadata innerSubspace q key ∨ q <+: key)

theorem Occupied.covered {place : Place}
    (h : Occupied rows place.nodeSubspace place.prefixBytes key) : Covered rows place key := by
  obtain ⟨q, hbelow, hkey⟩ := h
  exact ⟨place.nodeSubspace, q, .inLayer hbelow, hkey⟩

theorem covered_iff {place : Place} (hformed : WellFormed rows place.nodeSubspace)
    (hp : IsNode rows place.nodeSubspace place.prefixBytes) :
    Covered rows place key ↔ Occupied rows place.nodeSubspace place.prefixBytes key := by
  refine ⟨?_, Occupied.covered⟩
  rintro ⟨innerSubspace, r, hinside, hkey⟩
  generalize hsubspace : place.nodeSubspace = nodeSubspace at hinside hformed hp
  generalize place.prefixBytes = p at hinside hp
  cases hinside with
  | inLayer hbelow => exact ⟨r, hbelow, hkey⟩
  | @inPartition _ _ q _ _ hbelow hpartition hinside =>
      obtain ⟨hinner, hr⟩ := hformed.head (hp.trans hbelow) hpartition hinside
      exact ⟨q, hbelow, .inr (hkey.elim (fun hkey => hinner.trans hkey.below) hr.trans)⟩

/-- The rows without a directory: its own keys, those of the directories below it and the child
row that named it are gone, and no others. So the rows of every other node stay, but for that
child row, and the contents of every other directory that is no partition; a partition keeps
what belongs to the directories left in it. The version of every other layer and its allocator
stay, and so do keys outside the layers. -/
structure Removed (rows : Rows) (nodeSubspace : Bytes) (place : Place) (next : Rows) : Prop where
  pointer : next.get? place.pointer = none
  covered : ∀ key, Covered rows place key → next.get? key = none
  kept : ∀ key, key ≠ place.pointer → ¬ Covered rows place key → next.get? key = rows.get? key
  metadata : ∀ innerSubspace q key, Inside rows nodeSubspace nodeSubspace innerSubspace q →
    ¬ Inside rows place.nodeSubspace place.prefixBytes innerSubspace q →
    IsMetadata innerSubspace q key → key ≠ place.pointer → next.get? key = rows.get? key
  contents : ∀ innerSubspace q key, Inside rows nodeSubspace nodeSubspace innerSubspace q →
    ¬ Inside rows place.nodeSubspace place.prefixBytes innerSubspace q → q ≠ innerSubspace →
    ¬ IsPartition rows innerSubspace q → q <+: key → next.get? key = rows.get? key
  roots : ∀ innerSubspace, Inside rows nodeSubspace nodeSubspace innerSubspace innerSubspace →
    ¬ Inside rows place.nodeSubspace place.prefixBytes innerSubspace innerSubspace →
    ∀ key, key = versionKey innerSubspace ∨ allocatorRows innerSubspace <+: key →
    next.get? key = rows.get? key
  outside : ∀ key, (∀ innerSubspace q, Inside rows nodeSubspace nodeSubspace innerSubspace q →
    ¬ innerSubspace <+: key ∧ (q ≠ innerSubspace → ¬ q <+: key)) → next.get? key = rows.get? key

theorem Place.below_pointer (place : Place) : place.nodeSubspace <+: place.pointer :=
  (isChildRow_childKey _ _ _).isMetadata.below

theorem LayerTree.apart (place : Place) (h : LayerTree rows place.nodeSubspace)
    (hp : IsNode rows place.nodeSubspace place.prefixBytes)
    (hq : IsNode rows place.nodeSubspace q) (hroot : q ≠ place.nodeSubspace)
    (hbelow : ¬ Below (Points rows place.nodeSubspace) place.prefixBytes q) (hkey : q <+: key) :
    ¬ Occupied rows place.nodeSubspace place.prefixBytes key ∧ key ≠ place.pointer := by
  constructor
  · rintro ⟨r, hr, hmetadata | hhead⟩
    · exact hroot (h.eq_of_heads hq (.refl _) hkey hmetadata.below)
    · exact hbelow (h.eq_of_heads hq (hp.trans hr) hkey hhead ▸ hr)
  · rintro rfl
    exact hroot (h.eq_of_heads hq (.refl _) hkey place.below_pointer)

theorem Located.head {path : DirectoryPath} {place : Place}
    (h : Located rows (p ++ nodePrefix) path place) (hformed : WellFormed rows nodeSubspace)
    (hp : IsNode rows nodeSubspace p) (hpartition : IsPartition rows nodeSubspace p)
    (hkey : Covered rows place key ∨ key = place.pointer) : p <+: key := by
  obtain ⟨-, hinside⟩ := h.inside (hformed.nested hp hpartition)
  rcases hkey with ⟨innerSubspace, r, hinside', hkey⟩ | rfl
  · obtain ⟨hinner, hr⟩ := hformed.head hp hpartition (hinside.trans hinside')
    exact hkey.elim (fun hkey => hinner.trans hkey.below) hr.trans
  · exact (hformed.head hp hpartition hinside).1.trans place.below_pointer

theorem Located.metadata_apart {path : DirectoryPath} {place : Place} {innerSubspace : Bytes}
    (h : Located rows nodeSubspace path place) (hformed : WellFormed rows nodeSubspace)
    (hinside : Inside rows nodeSubspace nodeSubspace innerSubspace q)
    (hnot : ¬ Inside rows place.nodeSubspace place.prefixBytes innerSubspace q)
    (hkey : IsMetadata innerSubspace q key) :
    ¬ Covered rows place key ∧ (key = place.pointer → innerSubspace = place.nodeSubspace) := by
  induction h with
  | @here nodeSubspace parent p name front hwalk hname hget =>
      have htree := hformed.layerTree
      obtain ⟨hp, hroot⟩ := htree.child hwalk hget
      rw [covered_iff hformed hp]
      cases hinside with
      | inLayer hq =>
          refine ⟨fun hoccupied => hnot (.inLayer ?_), fun _ => rfl⟩
          exact htree.below_of_occupied hp hroot hkey hoccupied
      | inPartition hbelow hpartition hinside =>
          have hhead := (hformed.head hbelow hpartition hinside).1.trans hkey.below
          obtain ⟨hoccupied, hne⟩ := htree.apart ⟨nodeSubspace, parent, name, p⟩ hp hbelow
            hpartition.ne_root (fun hdown => hnot (.inPartition hdown hpartition hinside)) hhead
          exact ⟨hoccupied, fun heq => absurd heq hne⟩
  | @nested nodeSubspace parent p name front rest place hwalk hname hget hpartition h ih =>
      have htree := hformed.layerTree
      obtain ⟨hp, hroot⟩ := htree.child hwalk hget
      have hhead (hgone : Covered rows place key ∨ key = place.pointer) : p <+: key :=
        h.head hformed hp ⟨hroot, hpartition⟩ hgone
      cases hinside with
      | inLayer hq =>
          have hother (hgone : Covered rows place key ∨ key = place.pointer) : False :=
            hroot (htree.eq_of_heads hp (.refl _) (hhead hgone) hkey.below)
          exact ⟨fun hcovered => hother (.inl hcovered), fun heq => (hother (.inr heq)).elim⟩
      | @inPartition _ _ s _ _ hbelow hpartition' hinside =>
          have hhead' := (hformed.head hbelow hpartition' hinside).1.trans hkey.below
          by_cases hsame : p = s
          · subst hsame
            exact ih (hformed.nested hp ⟨hroot, hpartition⟩) hinside hnot
          · have hother (hgone : Covered rows place key ∨ key = place.pointer) : False :=
              hsame (htree.eq_of_heads hp hbelow (hhead hgone) hhead')
            exact ⟨fun hcovered => hother (.inl hcovered), fun heq => (hother (.inr heq)).elim⟩

/-- The keys under the prefix of another directory stay, unless it is a partition. -/
theorem Located.contents_apart {path : DirectoryPath} {place : Place} {innerSubspace : Bytes}
    (h : Located rows nodeSubspace path place) (hformed : WellFormed rows nodeSubspace)
    (hinside : Inside rows nodeSubspace nodeSubspace innerSubspace q)
    (hnot : ¬ Inside rows place.nodeSubspace place.prefixBytes innerSubspace q)
    (hq : q ≠ innerSubspace) (hplain : ¬ IsPartition rows innerSubspace q) (hkey : q <+: key) :
    ¬ Covered rows place key ∧ key ≠ place.pointer := by
  induction h with
  | @here nodeSubspace parent p name front hwalk hname hget =>
      have htree := hformed.layerTree
      obtain ⟨hp, hroot⟩ := htree.child hwalk hget
      rw [covered_iff hformed hp]
      cases hinside with
      | inLayer hbelow =>
          exact htree.apart _ hp hbelow hq (fun hdown => hnot (.inLayer hdown)) hkey
      | inPartition hbelow hpartition hinside =>
          have hhead := (hformed.head hbelow hpartition hinside).2.trans hkey
          exact htree.apart _ hp hbelow hpartition.ne_root
            (fun hdown => hnot (.inPartition hdown hpartition hinside)) hhead
  | @nested nodeSubspace parent p name front rest place hwalk hname hget hpartition h ih =>
      have htree := hformed.layerTree
      obtain ⟨hp, hroot⟩ := htree.child hwalk hget
      have hhead (hgone : Covered rows place key ∨ key = place.pointer) : p <+: key :=
        h.head hformed hp ⟨hroot, hpartition⟩ hgone
      cases hinside with
      | inLayer hbelow =>
          have hother (hgone : Covered rows place key ∨ key = place.pointer) : False := by
            obtain rfl := htree.eq_of_heads hp hbelow (hhead hgone) hkey
            exact hplain ⟨hroot, hpartition⟩
          exact ⟨fun hcovered => hother (.inl hcovered), fun heq => hother (.inr heq)⟩
      | @inPartition _ _ s _ _ hbelow hpartition' hinside =>
          have hhead' := (hformed.head hbelow hpartition' hinside).2.trans hkey
          by_cases hsame : p = s
          · subst hsame
            exact ih (hformed.nested hp ⟨hroot, hpartition⟩) hinside hnot
          · have hother (hgone : Covered rows place key ∨ key = place.pointer) : False :=
              hsame (htree.eq_of_heads hp hbelow (hhead hgone) hhead')
            exact ⟨fun hcovered => hother (.inl hcovered), fun heq => hother (.inr heq)⟩

theorem Located.removed {path : DirectoryPath} {place : Place}
    (h : Located rows nodeSubspace path place) (hformed : WellFormed rows nodeSubspace)
    (hwithout : OrderedMap.Without (fun key _ =>
      Occupied rows place.nodeSubspace place.prefixBytes key ∨ key = place.pointer) rows next) :
    Removed rows nodeSubspace place next := by
  obtain ⟨hplace, hp⟩ := h.formed hformed
  have hkept (key : Bytes) (hne : key ≠ place.pointer) (hnot : ¬ Covered rows place key) :
      next.get? key = rows.get? key := by
    refine hwithout.get?_eq fun _ hgone => ?_
    exact hgone.elim (fun hoccupied => hnot hoccupied.covered) hne
  obtain ⟨-, hinside⟩ := h.inside hformed
  constructor
  case pointer => exact hwithout.get?_eq_none fun _ => .inr rfl
  case covered =>
    intro key hcovered
    exact hwithout.get?_eq_none fun _ => .inl ((covered_iff hplace hp).mp hcovered)
  case kept => exact hkept
  case metadata =>
    intro innerSubspace q key hother hnot hkey hne
    exact hkept key hne (h.metadata_apart hformed hother hnot hkey).1
  case contents =>
    intro innerSubspace q key hother hnot hroot hplain hkey
    obtain ⟨hcovered, hne⟩ := h.contents_apart hformed hother hnot hroot hplain hkey
    exact hkept key hne hcovered
  case roots =>
    intro innerSubspace hother hnot key hkey
    have hmetadata : IsMetadata innerSubspace innerSubspace key := by
      rcases hkey with rfl | hkey
      · exact isMetadata_versionKey innerSubspace
      · exact isMetadata_of_allocatorRows hkey
    obtain ⟨hcovered, hpointer⟩ := h.metadata_apart hformed hother hnot hmetadata
    refine hkept key (fun heq => ?_) hcovered
    obtain rfl := hpointer heq
    rcases hkey with rfl | hkey
    · exact ne_childKey _ _ _ _ _ heq
    · have hpointer : ¬ allocatorRows place.nodeSubspace <+: place.pointer :=
        @not_allocator_childKey ⟨place.nodeSubspace, [], false, []⟩ place.parent place.name
      exact hpointer (heq ▸ hkey)
  case outside =>
    intro key hout
    refine hkept key ?_ ?_
    · rintro rfl
      exact (hout _ _ hinside).1 place.below_pointer
    · rintro ⟨innerSubspace, q, hcovered, hkey⟩
      obtain ⟨hsubspace, hprefix⟩ := hout innerSubspace q (hinside.trans hcovered)
      rcases hkey with hkey | hkey
      · exact hsubspace hkey.below
      · by_cases hroot : q = innerSubspace
        · exact hsubspace (hroot ▸ hkey)
        · exact hprefix hroot hkey

/-- Removing a directory that exists ends, and removes that directory exactly. -/
theorem removeInternal_exact (layer : DirectoryLayerState) (rows : Rows)
    (h : WellFormed rows layer.nodeSubspace) (path : DirectoryPath) (hpath : path ≠ [])
    {depth : Nat} (hexists : existsInternal rows depth layer path = .ok true)
    (failIfMissing : Bool) {fuel : Nat} (hfuel : path.length ≤ fuel) :
    ∃ place next, Located rows layer.nodeSubspace path place ∧
      removeInternal fuel layer path failIfMissing rows = .ok (true, next) ∧
      Removed rows layer.nodeSubspace place next := by
  obtain ⟨place, hlocated⟩ := located_of_existsInternal hpath hexists
  obtain ⟨next, hnext, hwithout⟩ := removeInternal_located hlocated h rfl failIfMissing hfuel
  exact ⟨place, next, hlocated, hnext, hlocated.removed h hwithout⟩

/-! ## A partition with a directory inside -/

/-- Two directories, the second one a partition that holds a third, each with one row of its
own. -/
def partitionedRows : Rows :=
  ([(versionKey [0xfe], directoryVersion), (childKey [0xfe] [0xfe] (text "a"), [0x15, 0x01]),
    (layerKey [0xfe] [0x15, 0x01], []), (childKey [0xfe] [0xfe] (text "p"), [0x15, 0x02]),
    (layerKey [0xfe] [0x15, 0x02], partitionTag),
    (versionKey [0x15, 0x02, 0xfe], directoryVersion),
    (childKey [0x15, 0x02, 0xfe] [0x15, 0x02, 0xfe] (text "x"), [0x15, 0x02, 0x15, 0x01]),
    (layerKey [0x15, 0x02, 0xfe] [0x15, 0x02, 0x15, 0x01], []),
    ([0x15, 0x01, 0x07], [0x01]), ([0x15, 0x02, 0x15, 0x01, 0x07], [0x02])] :
      List (Bytes × Bytes)).foldl (fun rows row => rows.set row.1 row.2) ∅

theorem catalogued_partitionedRows : Catalogued partitionedRows
    [([0xfe], [0xfe]), ([0xfe], [0x15, 0x01]), ([0xfe], [0x15, 0x02]),
      ([0x15, 0x02, 0xfe], [0x15, 0x02, 0xfe]), ([0x15, 0x02, 0xfe], [0x15, 0x02, 0x15, 0x01])]
    [text "a", text "p", text "x"] where
  roots := by decide
  children := by unfold IsChildRow; decide +kernel
  partitions := by decide +kernel
  entered := by unfold IsChildRow; decide +kernel
  prefixFree := by decide +kernel
  successor := by decide +kernel
  versioned := by decide +kernel

theorem wellFormed_partitionedRows : WellFormed partitionedRows [0xfe] :=
  catalogued_partitionedRows.wellFormed (by decide)

theorem removeInternal_exact_partition :
    ∃ place next, Located partitionedRows [0xfe] [text "p", text "x"] place ∧
      removeInternal 2 ⟨[0xfe], [], true, []⟩ [text "p", text "x"] true partitionedRows =
        .ok (true, next) ∧
      Removed partitionedRows [0xfe] place next := by
  have hexists : existsInternal partitionedRows 2 ⟨[0xfe], [], true, []⟩ [text "p", text "x"] =
      .ok true := by rfl
  exact removeInternal_exact ⟨[0xfe], [], true, []⟩ partitionedRows wellFormed_partitionedRows
    [text "p", text "x"] (by decide) hexists true le_rfl

end FoundationDbEffect.Directory
