import Mathlib.Data.List.Basic
import Mathlib.Order.Compare

/-!
# Lexicographic comparison of concatenations

`List.compareLex` puts a proper prefix first.  The lemmas below say when the
comparison of two concatenations is decided by their heads: a common head drops
out, and heads of one length are compared before anything that follows them.
-/

namespace FoundationDbEffect.Foundation

variable {α β : Type*} {cmp : α → α → Ordering}

@[simp] theorem compareLex_nil_left {xs : List α} (h : xs ≠ []) :
    List.compareLex cmp [] xs = .lt := by
  cases xs with
  | nil => contradiction
  | cons x xs => rfl

@[simp] theorem compareLex_nil_right {xs : List α} (h : xs ≠ []) :
    List.compareLex cmp xs [] = .gt := by
  cases xs with
  | nil => contradiction
  | cons x xs => rfl

theorem compareLex_cons_of_lt {x y : α} (h : cmp x y = .lt) (xs ys : List α) :
    List.compareLex cmp (x :: xs) (y :: ys) = .lt := by
  rw [List.compareLex_cons_cons, h, Ordering.lt_then]

theorem compareLex_append_of_length_eq {xs ys : List α}
    (h : xs.length = ys.length) (r s : List α) :
    List.compareLex cmp (xs ++ r) (ys ++ s) =
      (List.compareLex cmp xs ys).then (List.compareLex cmp r s) := by
  induction xs generalizing ys with
  | nil =>
      cases ys with
      | nil => rfl
      | cons y ys => simp at h
  | cons x xs ih =>
      cases ys with
      | nil => simp at h
      | cons y ys =>
          simp only [List.length_cons, Nat.add_right_cancel_iff] at h
          simp only [List.cons_append, List.compareLex_cons_cons, ih h,
            Ordering.then_assoc]

theorem compareLex_cons_self [Std.ReflCmp cmp] (x : α) (xs ys : List α) :
    List.compareLex cmp (x :: xs) (x :: ys) = List.compareLex cmp xs ys := by
  have hx : cmp x x = .eq := Std.ReflCmp.compare_self
  rw [List.compareLex_cons_cons, hx, Ordering.eq_then]

theorem compareLex_append_left [Std.ReflCmp cmp] (p xs ys : List α) :
    List.compareLex cmp (p ++ xs) (p ++ ys) = List.compareLex cmp xs ys := by
  induction p with
  | nil => rfl
  | cons x p ih =>
      rw [List.cons_append, List.cons_append, compareLex_cons_self, ih]

/--
Encoded elements are compared like the elements themselves, whatever follows
them, as soon as the encodings of two unequal elements differ before either of
them ends.
-/
theorem compareLex_flatMap {cmp' : β → β → Ordering} {encode : α → List β}
    (hne : ∀ x, encode x ≠ [])
    (hstep : ∀ x y r s,
      List.compareLex cmp' (encode x ++ r) (encode y ++ s) =
        (cmp x y).then (List.compareLex cmp' r s))
    (xs ys : List α) :
    List.compareLex cmp' (xs.flatMap encode) (ys.flatMap encode) =
      List.compareLex cmp xs ys := by
  induction xs generalizing ys with
  | nil =>
      cases ys with
      | nil => rfl
      | cons y ys => simp [hne]
  | cons x xs ih =>
      cases ys with
      | nil => simp [hne]
      | cons y ys =>
          rw [List.flatMap_cons, List.flatMap_cons, hstep, ih,
            List.compareLex_cons_cons]

end FoundationDbEffect.Foundation
