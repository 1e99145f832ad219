import Mathlib.Data.List.Basic

/-!
# Entries by their paths

A tree that gives an entry to some paths, the changes of it that act on whole subtrees, and what
a change below one path does to the tree around it.
-/

namespace FoundationDbEffect.Foundation

abbrev PathTree (Name Entry : Type*) := List Name → Option Entry

namespace PathTree

variable {Name Entry : Type*} {tree next inner innerNext : PathTree Name Entry}
  {front path old new other : List Name} {fresh : List Name → Entry}

/-- Two trees that differ below a path only, where they are two others. -/
structure Graft (tree next : PathTree Name Entry) (front : List Name)
    (inner innerNext : PathTree Name Entry) : Prop where
  before : ∀ rest, rest ≠ [] → tree (front ++ rest) = inner rest
  after : ∀ rest, rest ≠ [] → next (front ++ rest) = innerNext rest
  kept : ∀ other, (∀ rest, rest ≠ [] → other ≠ front ++ rest) → next other = tree other

/-- A tree after a change below a path is known from what lies below the path and elsewhere. -/
theorem Graft.eq_of (h : Graft tree next front inner innerNext) {later : PathTree Name Entry}
    (hbelow : ∀ rest, rest ≠ [] → later (front ++ rest) = innerNext rest)
    (hkept : ∀ other, (∀ rest, rest ≠ [] → other ≠ front ++ rest) → later other = tree other) :
    next = later := by
  funext other
  by_cases hother : ∃ rest, rest ≠ [] ∧ other = front ++ rest
  · obtain ⟨rest, hrest, rfl⟩ := hother
    rw [h.after rest hrest, hbelow rest hrest]
  · have hother' : ∀ rest, rest ≠ [] → other ≠ front ++ rest :=
      fun rest hrest heq => hother ⟨rest, hrest, heq⟩
    rw [h.kept other hother', hkept other hother']

theorem not_prefix_of_ne (hpath : path ≠ []) (h : ∀ rest, rest ≠ [] → other ≠ front ++ rest) :
    ¬ front ++ path <+: other := by
  rintro ⟨rest, rfl⟩
  exact h (path ++ rest) (by simp [hpath]) (by simp)

/-! ## Changes of subtrees -/

variable [DecidableEq Name]

def without (tree : PathTree Name Entry) (path : List Name) : PathTree Name Entry :=
  fun other => if path <+: other then none else tree other

/-- A tree in which what lies at a path and below it has another path. -/
def relocated (tree : PathTree Name Entry) (old new : List Name) : PathTree Name Entry :=
  fun other =>
    if new <+: other then tree (old ++ other.drop new.length)
    else if old <+: other then none else tree other

/-- A tree with new entries at a path and at the paths above it that had none. -/
def grown (tree : PathTree Name Entry) (path : List Name) (fresh : List Name → Entry) :
    PathTree Name Entry :=
  fun other => if other <+: path ∧ tree other = none then some (fresh other) else tree other

theorem relocated_append (tree : PathTree Name Entry) (old new rest : List Name) :
    tree.relocated old new (new ++ rest) = tree (old ++ rest) := by
  simp [relocated]

theorem without_eq_self (h : ∀ other, path <+: other → tree other = none) :
    tree.without path = tree := by
  funext other
  rw [without]
  split_ifs with hle
  · exact (h other hle).symm
  · rfl

theorem grown_eq_self (h : ∀ other, other <+: path → tree other ≠ none) :
    tree.grown path fresh = tree := by
  funext other
  exact if_neg fun hother => h other hother.1 hother.2

theorem grown_grown (tree : PathTree Name Entry) (front : List Name) (name : Name)
    (fresh fresh' : List Name → Entry) :
    (tree.grown front fresh).grown (front ++ [name]) fresh' = tree.grown (front ++ [name])
      fun other => if other = front ++ [name] then fresh' other else fresh other := by
  funext other
  by_cases hfront : other <+: front
  · have hne : other ≠ front ++ [name] := by
      rintro rfl
      have hlength := hfront.length_le
      simp only [List.length_append, List.length_singleton] at hlength
      omega
    have hle : other <+: front ++ [name] := hfront.trans (List.prefix_append _ _)
    cases htree : tree other <;> simp [grown, hfront, hle, hne, htree]
  · by_cases hlast : other = front ++ [name]
    · subst hlast
      simp only [grown, hfront, false_and, if_false, if_true]
    · have hle : ¬ other <+: front ++ [name] :=
        fun hle => (List.prefix_concat_iff.mp hle).elim hlast hfront
      simp [grown, hfront, hle]

namespace Graft

theorem without (h : Graft tree next front inner innerNext) (hpath : path ≠ [])
    (hinner : innerNext = inner.without path) : next = tree.without (front ++ path) := by
  refine h.eq_of (fun rest hrest => ?_) fun other hother => ?_
  · simp only [hinner, PathTree.without, List.prefix_append_right_inj, h.before rest hrest]
  · exact if_neg (not_prefix_of_ne hpath hother)

theorem relocated (h : Graft tree next front inner innerNext) (hold : old ≠ []) (hnew : new ≠ [])
    (hinner : innerNext = inner.relocated old new) :
    next = tree.relocated (front ++ old) (front ++ new) := by
  refine h.eq_of (fun rest hrest => ?_) fun other hother => ?_
  · have hdrop : (front ++ rest).drop (front ++ new).length = rest.drop new.length := by simp
    simp only [hinner, PathTree.relocated, List.prefix_append_right_inj, hdrop, List.append_assoc,
      h.before rest hrest, h.before (old ++ rest.drop new.length) (by simp [hold])]
  · rw [PathTree.relocated, if_neg (not_prefix_of_ne hnew hother),
      if_neg (not_prefix_of_ne hold hother)]

theorem grown (h : Graft tree next front inner innerNext)
    (hfront : ∀ other, other <+: front → tree other ≠ none)
    (hinner : innerNext = inner.grown path fresh) :
    next = tree.grown (front ++ path) fun other => fresh (other.drop front.length) := by
  refine h.eq_of (fun rest hrest => ?_) fun other hother => ?_
  · simp only [hinner, PathTree.grown, List.prefix_append_right_inj, List.drop_left,
      h.before rest hrest]
  · rw [PathTree.grown, if_neg]
    rintro ⟨hle, hnone⟩
    rcases List.prefix_or_prefix_of_prefix hle (List.prefix_append front path) with habove | hbelow
    · exact hfront other habove hnone
    · obtain ⟨rest, rfl⟩ := hbelow
      by_cases hrest : rest = []
      · subst hrest
        exact hfront _ (by simp) hnone
      · exact hother rest hrest rfl

end Graft

end PathTree

end FoundationDbEffect.Foundation
