import Mathlib.Algebra.BigOperators.Group.List.Basic
import Mathlib.Algebra.Order.BigOperators.Group.List

/-!
# Tallies

The total weight of the entries of a list that satisfy a condition.
-/

namespace FoundationDbEffect.Foundation

variable {α M : Type} [AddCommMonoid M]

def tally (p : α → Prop) [DecidablePred p] (weight : α → M) (entries : List α) : M :=
  ((entries.filter p).map weight).sum

section

variable (p : α → Prop) [DecidablePred p] (weight : α → M)

@[simp] theorem tally_nil : tally p weight [] = 0 := rfl

theorem tally_cons (entry : α) (entries : List α) : tally p weight (entry :: entries) =
    (if p entry then weight entry else 0) + tally p weight entries := by
  rw [tally, List.filter_cons]
  by_cases hentry : p entry
  · simp [hentry, tally]
  · simp [hentry, tally]

theorem tally_append (entries more : List α) :
    tally p weight (entries ++ more) = tally p weight entries + tally p weight more := by
  simp [tally]

theorem tally_eq_zero {entries : List α} (h : ∀ entry ∈ entries, ¬ p entry) :
    tally p weight entries = 0 := by
  have hnone : entries.filter p = [] :=
    List.filter_eq_nil_iff.mpr fun entry hmem => by simp [h entry hmem]
  simp [tally, hnone]

end

end FoundationDbEffect.Foundation
