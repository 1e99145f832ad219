import Mathlib.Data.List.Nodup

/-!
# Trails along labelled edges

A relation of labelled edges, the labels met on the way from one node to another, and what
makes the edges below a root a tree.  In a tree the labels on the way to a node are
determined, so that no way returns, and when a label belongs to one edge no label is met
twice.
-/

namespace FoundationDbEffect.Foundation

variable {α κ : Type*} {edge : α → κ → α → Prop} {root start node middle child parent : α}
  {label : κ} {labels labels' : List κ}

/-- A way along edges, with the labels met on it, the last one first. -/
inductive Trail (edge : α → κ → α → Prop) (start : α) : List κ → α → Prop where
  | nil : Trail edge start [] start
  | cons {labels : List κ} {label : κ} {node child : α} (h : Trail edge start labels node)
      (hedge : edge node label child) : Trail edge start (label :: labels) child

def Below (edge : α → κ → α → Prop) (start node : α) : Prop := ∃ labels, Trail edge start labels node

theorem Trail.append (h : Trail edge start labels middle) (h' : Trail edge middle labels' node) :
    Trail edge start (labels' ++ labels) node := by
  induction h' with
  | nil => exact h
  | cons _ hedge ih => exact ih.cons hedge

theorem Below.refl (start : α) : Below edge start start := ⟨[], .nil⟩

theorem Below.trans (h : Below edge start middle) (h' : Below edge middle node) :
    Below edge start node := by
  obtain ⟨labels, hlabels⟩ := h
  obtain ⟨labels', hlabels'⟩ := h'
  exact ⟨labels' ++ labels, hlabels.append hlabels'⟩

theorem Below.of_edge (h : edge node label child) : Below edge node child := ⟨[label], .cons .nil h⟩

theorem Below.step (h : Below edge start node) (hedge : edge node label child) :
    Below edge start child :=
  h.trans (.of_edge hedge)

theorem Below.mono {edge' : α → κ → α → Prop}
    (hedges : ∀ node label child, edge node label child → edge' node label child)
    (h : Below edge start node) : Below edge' start node := by
  obtain ⟨labels, h⟩ := h
  induction h with
  | nil => exact .refl _
  | cons _ hedge ih => exact ih.step (hedges _ _ _ hedge)

theorem Below.eq_or_edge (h : Below edge start node) :
    node = start ∨ ∃ label child, edge start label child ∧ Below edge child node := by
  obtain ⟨labels, h⟩ := h
  induction h with
  | nil => exact .inl rfl
  | cons _ hedge ih =>
      right
      rcases ih with rfl | ⟨label, child, hfirst, hbelow⟩
      · exact ⟨_, _, hedge, .refl _⟩
      · exact ⟨label, child, hfirst, hbelow.step hedge⟩

theorem Trail.of_mem (h : Trail edge start labels node) (hmem : label ∈ labels) :
    ∃ later earlier parent child, labels = later ++ label :: earlier ∧
      edge parent label child ∧ Trail edge start (label :: earlier) child := by
  induction h with
  | nil => simp at hmem
  | @cons labels label' parent child h hedge ih =>
      rcases List.mem_cons.mp hmem with rfl | hmem
      · exact ⟨[], labels, parent, child, rfl, hedge, h.cons hedge⟩
      · obtain ⟨later, earlier, parent', child', rfl, hedge', htrail⟩ := ih hmem
        exact ⟨label' :: later, earlier, parent', child', rfl, hedge', htrail⟩

/-- A tree: one edge enters each node below the root, and none enters the root. -/
structure Rooted (edge : α → κ → α → Prop) (root : α) : Prop where
  entered : ∀ {parent parent' label label' child}, Below edge root parent →
    Below edge root parent' → edge parent label child → edge parent' label' child →
    parent = parent' ∧ label = label'
  root : ∀ {parent label}, Below edge root parent → ¬ edge parent label root

namespace Rooted

theorem labels_eq (h : Rooted edge root) (hlabels : Trail edge root labels node)
    (hlabels' : Trail edge root labels' node) : labels = labels' := by
  induction hlabels generalizing labels' with
  | nil =>
      cases hlabels' with
      | nil => rfl
      | cons hbefore hedge => exact absurd hedge (h.root ⟨_, hbefore⟩)
  | cons hbefore hedge ih =>
      cases hlabels' with
      | nil => exact absurd hedge (h.root ⟨_, hbefore⟩)
      | cons hbefore' hedge' =>
          obtain ⟨rfl, rfl⟩ := h.entered ⟨_, hbefore⟩ ⟨_, hbefore'⟩ hedge hedge'
          rw [ih hbefore']

theorem not_below (h : Rooted edge root) (hparent : Below edge root parent)
    (hedge : edge parent label child) (hbelow : Below edge child node) :
    ¬ Below edge node parent := by
  rintro ⟨back, hback⟩
  obtain ⟨labels, hlabels⟩ := hparent
  obtain ⟨down, hdown⟩ := hbelow
  have hlength := congrArg List.length
    (h.labels_eq hlabels (((hlabels.cons hedge).append hdown).append hback))
  simp at hlength
  omega

theorem nodup (h : Rooted edge root)
    (hlabel : ∀ {parent parent' label child child'}, edge parent label child →
      edge parent' label child' → child = child')
    (hlabels : Trail edge root labels node) : labels.Nodup := by
  induction hlabels with
  | nil => exact List.nodup_nil
  | cons hbefore hedge ih =>
      refine List.nodup_cons.mpr ⟨?_, ih⟩
      intro hmem
      obtain ⟨later, earlier, parent, child, heq, hedge', htrail⟩ := hbefore.of_mem hmem
      obtain rfl := hlabel hedge hedge'
      have hlength := congrArg List.length (h.labels_eq (hbefore.cons hedge) htrail)
      simp [heq] at hlength
      omega

end Rooted

end FoundationDbEffect.Foundation
