import FoundationDbEffect.Foundation.OrderedMap

/-!
# Families of keys

Mutations of an ordered map, each of which stays in one of some disjoint families of keys. What a
family holds after a run is what the mutations of that family alone make of it.
-/

namespace FoundationDbEffect.Foundation

variable {α β φ : Type*} [LinearOrder α]

inductive RowMutation (α β : Type*) where
  | update (key : α) (value : Option β → β)
  | clearRange (range : α → Bool)

namespace RowMutation

def apply (map : OrderedMap α β) : RowMutation α β → OrderedMap α β
  | .update key value => map.set key (value (map.get? key))
  | .clearRange range => map.clearRange range

def Within (family : α → Bool) : RowMutation α β → Prop
  | .update key _ => family key = true
  | .clearRange range => ∀ key, range key = true → family key = true

def Agree (family : α → Bool) (left right : OrderedMap α β) : Prop :=
  ∀ key, family key = true → left.get? key = right.get? key

theorem Agree.rows {family range : α → Bool} {left right : OrderedMap α β}
    (h : Agree family left right) (hrange : ∀ key, range key = true → family key = true) :
    left.rows range = right.rows range := by
  refine OrderedMap.rows_eq (right.rows_sorted range) ?_
  rintro ⟨key, value⟩
  rw [OrderedMap.mem_rows, OrderedMap.mem_rows]
  refine and_congr_right fun hkey => ?_
  rw [h key (hrange key hkey)]

theorem Agree.apply {family : α → Bool} {left right : OrderedMap α β} (h : Agree family left right)
    {mutation : RowMutation α β} (hwithin : mutation.Within family) :
    Agree family (apply left mutation) (apply right mutation) := by
  intro key hkey
  cases mutation with
  | update changed value =>
      rw [RowMutation.apply, RowMutation.apply, OrderedMap.get?_set, OrderedMap.get?_set,
        h changed hwithin, h key hkey]
  | clearRange range =>
      rw [RowMutation.apply, RowMutation.apply, OrderedMap.get?_clearRange,
        OrderedMap.get?_clearRange, h key hkey]

theorem Agree.beside {family other : α → Bool} {left right : OrderedMap α β}
    (h : Agree family left right) {mutation : RowMutation α β} (hwithin : mutation.Within other)
    (hdisjoint : ∀ key, family key = true → other key ≠ true) :
    Agree family (RowMutation.apply left mutation) right := by
  intro key hkey
  cases mutation with
  | update changed value =>
      have hne : key ≠ changed := by
        rintro rfl
        exact hdisjoint key hkey hwithin
      rw [RowMutation.apply, OrderedMap.get?_set, if_neg hne, h key hkey]
  | clearRange range =>
      have hout : ¬ range key = true := fun hrange => hdisjoint key hkey (hwithin key hrange)
      rw [RowMutation.apply, OrderedMap.get?_clearRange, if_neg hout, h key hkey]

def run (mutations : List (φ × RowMutation α β)) (map : OrderedMap α β) : OrderedMap α β :=
  mutations.foldl (fun map mutation => apply map mutation.2) map

/-- What a run leaves in a family is what its mutations of the family leave there. -/
theorem agree_run [DecidableEq φ] {families : φ → α → Bool}
    (hdisjoint : ∀ family other key, families family key = true → families other key = true →
      family = other) {mutations : List (φ × RowMutation α β)}
    (hwithin : ∀ mutation ∈ mutations, mutation.2.Within (families mutation.1)) (family : φ)
    {left right : OrderedMap α β} (h : Agree (families family) left right) :
    Agree (families family) (run mutations left)
      (run (mutations.filter fun mutation => mutation.1 = family) right) := by
  induction mutations generalizing left right with
  | nil => exact h
  | cons mutation mutations ih =>
      obtain ⟨hfirst, hrest⟩ := List.forall_mem_cons.mp hwithin
      by_cases hfamily : mutation.1 = family
      · subst hfamily
        rw [List.filter_cons_of_pos (by simp)]
        exact ih hrest (h.apply hfirst)
      · rw [List.filter_cons_of_neg (by simpa using hfamily)]
        refine ih hrest (h.beside hfirst ?_)
        intro key hkey hother
        exact hfamily (hdisjoint family mutation.1 key hkey hother).symm

end RowMutation

end FoundationDbEffect.Foundation
