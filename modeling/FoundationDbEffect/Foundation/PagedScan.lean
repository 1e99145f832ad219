import FoundationDbEffect.Foundation.Fallible
import FoundationDbEffect.Foundation.OrderedMap

/-!
# Paged scans of a changing map

A scan reads a range of a map in pages and hands each page to a visitor, which may change the
map before the next page is read.  A visitor that leaves the rows after its page as they are
is handed the rows that were there at the start, in order, each once.
-/

namespace FoundationDbEffect.Foundation

section

variable {ε σ τ : Type*}

/-- Hand the elements of a list to a visitor until it asks to stop. -/
def visitEach (visit : τ → σ → Except ε (σ × Bool)) : List τ → σ → Except ε (σ × Bool)
  | [], state => .ok (state, true)
  | key :: rest, state => do
    let (state, more) ← visit key state
    if more then visitEach visit rest state else .ok (state, false)

end

namespace OrderedMap

variable {ε σ α β : Type*} [LinearOrder α]

theorem rows_congr {left right : OrderedMap α β} {range : α → Bool}
    (h : ∀ key, range key = true → left.get? key = right.get? key) :
    left.rows range = right.rows range := by
  refine rows_eq (right.rows_sorted range) ?_
  rintro ⟨key, value⟩
  rw [mem_rows, mem_rows]
  exact and_congr_right fun hkey => by rw [h key hkey]

def keysAfter (map : OrderedMap α β) (range : α → Bool) (after : Option α) : List α :=
  (map.rowsAfter range after).map Prod.fst

theorem mem_keysAfter {map : OrderedMap α β} {range : α → Bool} {after : Option α} {key : α} :
    key ∈ map.keysAfter range after ↔
      range key = true ∧ after.all (· < key) = true ∧ (map.get? key).isSome = true := by
  rw [keysAfter, List.mem_map, Option.isSome_iff_exists]
  constructor
  · rintro ⟨⟨_, value⟩, hmem, rfl⟩
    obtain ⟨hrange, hget⟩ := mem_rows.mp hmem
    obtain ⟨hrange, hafter⟩ := Bool.and_eq_true_iff.mp hrange
    exact ⟨hrange, hafter, value, hget⟩
  · rintro ⟨hrange, hafter, value, hget⟩
    exact ⟨(key, value), mem_rows.mpr ⟨Bool.and_eq_true_iff.mpr ⟨hrange, hafter⟩, hget⟩, rfl⟩

theorem keysAfter_sorted (map : OrderedMap α β) (range : α → Bool) (after : Option α) :
    (map.keysAfter range after).Pairwise (· < ·) :=
  List.pairwise_map.mpr (map.rows_sorted _)

theorem keysAfter_last {map : OrderedMap α β} {range : α → Bool} {after : Option α}
    {limit : Nat} {last : α} (h : ((map.keysAfter range after).take limit).getLast? = some last) :
    map.keysAfter range (some last) = (map.keysAfter range after).drop limit := by
  rw [keysAfter, ← List.map_take, List.getLast?_map, Option.map_eq_some_iff] at h
  obtain ⟨row, hrow, rfl⟩ := h
  rw [keysAfter, rowsAfter_last hrow, List.map_drop]
  rfl

theorem keysAfter_congr {γ : Type*} {left : OrderedMap α β} {right : OrderedMap α γ}
    {range : α → Bool}
    (h : ∀ key, range key = true → ((left.get? key).isSome ↔ (right.get? key).isSome))
    (after : Option α) : left.keysAfter range after = right.keysAfter range after := by
  have hnodup {keys : List α} (hsorted : keys.Pairwise (· < ·)) : keys.Nodup :=
    hsorted.imp LT.lt.ne
  have hmem (key : α) : key ∈ left.keysAfter range after ↔ key ∈ right.keysAfter range after := by
    rw [mem_keysAfter, mem_keysAfter]
    exact and_congr_right fun hrange => and_congr_right fun _ => h key hrange
  have hperm := (List.perm_ext_iff_of_nodup (hnodup (left.keysAfter_sorted range after))
    (hnodup (right.keysAfter_sorted range after))).mpr hmem
  exact hperm.eq_of_pairwise (fun _ _ _ _ hlt hgt => absurd hlt hgt.not_gt)
    (left.keysAfter_sorted range after) (right.keysAfter_sorted range after)

theorem filterMap_keysAfter (map : OrderedMap α β) (range : α → Bool) (p : β → Bool) :
    (map.keysAfter range none).filterMap (fun key => (map.get? key).filter p) =
      ((map.rows range).map Prod.snd).filter p := by
  have hrows : map.rowsAfter range none = map.rows range := by
    unfold rowsAfter
    simp
  rw [keysAfter, hrows, List.filterMap_map, List.filter_map, ← List.filterMap_eq_filter,
    List.map_filterMap]
  apply List.filterMap_congr
  rintro ⟨key, value⟩ hmem
  obtain ⟨-, hget⟩ := mem_rows.mp hmem
  simp only [Function.comp_apply, hget, Option.filter_some, Option.guard]
  split <;> rfl

/-- A scan in pages. Every page but the last one is full. -/
def scanPages (read : σ → OrderedMap α β) (range : α → Bool) (limit : Nat)
    (visitPage : List α → σ → Except ε (σ × Bool)) : Nat → Option α → σ → Except ε σ
  | 0, _, state => .ok state
  | fuel + 1, after, state => do
    let page := ((read state).keysAfter range after).take limit
    let (next, more) ← visitPage page state
    if !more || page.length < limit then .ok next
    else scanPages read range limit visitPage fuel page.getLast? next

/-- The pages of a map are at most one more than its rows, as long as visitors insert none
after the rows they are given. -/
def visitPages (read : σ → OrderedMap α β) (range : α → Bool) (limit : Nat)
    (visitPage : List α → σ → Except ε (σ × Bool)) (state : σ) : Except ε σ :=
  scanPages read range limit visitPage ((read state).entries.length + 1) none state

variable {read : σ → OrderedMap α β} {range : α → Bool} {limit : Nat}
  {visitPage : List α → σ → Except ε (σ × Bool)}

theorem scanPages_rule {I : σ → List α → Prop} (hlimit : 0 < limit)
    (hpage : ∀ state page rest, I state (page ++ rest) →
      ∃ next, visitPage page state = .ok (next, true) ∧ I next rest ∧
        ∀ key, range key = true → (∀ visited ∈ page, visited < key) →
          (read next).get? key = (read state).get? key)
    {fuel : Nat} {after : Option α} {state : σ}
    (hfuel : ((read state).keysAfter range after).length < fuel)
    (hstart : I state ((read state).keysAfter range after)) :
    ∃ finish, scanPages read range limit visitPage fuel after state = .ok finish ∧
      I finish [] := by
  induction fuel generalizing after state with
  | zero => omega
  | succ fuel ih =>
      rw [← List.take_append_drop limit ((read state).keysAfter range after)] at hstart
      obtain ⟨next, hvisit, hnext, hget⟩ := hpage state _ _ hstart
      rw [scanPages]
      simp only [bind_eq_ok, hvisit, Except.ok.injEq, exists_eq_left', Bool.not_true,
        Bool.false_or, decide_eq_true_eq, List.length_take]
      split_ifs with hshort
      · refine ⟨next, rfl, ?_⟩
        rwa [List.drop_of_length_le (by omega)] at hnext
      · cases hlast : (((read state).keysAfter range after).take limit).getLast? with
        | none =>
            rw [List.getLast?_eq_none_iff, List.take_eq_nil_iff] at hlast
            rcases hlast with hzero | hnil
            · omega
            · rw [hnil] at hshort
              exact absurd (by simpa using hlimit) hshort
        | some last =>
            have hkeys : (read next).keysAfter range (some last) =
                ((read state).keysAfter range after).drop limit := by
              rw [← keysAfter_last hlast, keysAfter, keysAfter, rowsAfter, rowsAfter]
              congr 1
              apply rows_congr
              intro key hkey
              simp only [Option.all_some, Bool.and_eq_true, decide_eq_true_eq] at hkey
              apply hget key hkey.1
              intro visited hvisited
              obtain ⟨front, hfront⟩ := List.getLast?_eq_some_iff.mp hlast
              have hsorted := (keysAfter_sorted (read state) range after).sublist
                (List.take_sublist limit _)
              rw [hfront] at hvisited hsorted
              rcases List.mem_append.mp hvisited with hvisited | hvisited
              · exact ((List.pairwise_append.mp hsorted).2.2 visited hvisited last
                  (List.mem_singleton_self _)).trans hkey.2
              · rw [List.mem_singleton.mp hvisited]
                exact hkey.2
            apply ih
            · rw [hkeys, List.length_drop]
              omega
            · rw [hkeys]
              exact hnext

/-- The rule for a visitor that never stops and leaves the rows after its page as they are:
the invariant knows the rows that are still to be visited. -/
theorem visitPages_rule {I : σ → List α → Prop} (hlimit : 0 < limit)
    (hpage : ∀ state page rest, I state (page ++ rest) →
      ∃ next, visitPage page state = .ok (next, true) ∧ I next rest ∧
        ∀ key, range key = true → (∀ visited ∈ page, visited < key) →
          (read next).get? key = (read state).get? key)
    {state : σ} (hstart : I state ((read state).keysAfter range none)) :
    ∃ finish, visitPages read range limit visitPage state = .ok finish ∧ I finish [] := by
  apply scanPages_rule hlimit hpage _ hstart
  rw [keysAfter, List.length_map]
  exact Nat.lt_succ_of_le (List.length_filter_le _ _)

/-- The rule for a visitor of single rows. -/
theorem visitPages_each_rule {visit : α → σ → Except ε (σ × Bool)} {I : σ → List α → Prop}
    (hlimit : 0 < limit)
    (hvisit : ∀ state key rest, I state (key :: rest) →
      ∃ next, visit key state = .ok (next, true) ∧ I next rest ∧
        ∀ other, range other = true → key < other →
          (read next).get? other = (read state).get? other)
    {state : σ} (hstart : I state ((read state).keysAfter range none)) :
    ∃ finish, visitPages read range limit (visitEach visit) state = .ok finish ∧
      I finish [] := by
  apply visitPages_rule hlimit _ hstart
  intro state page rest hpage
  induction page generalizing state with
  | nil => exact ⟨state, rfl, hpage, fun _ _ _ => rfl⟩
  | cons key page ih =>
      obtain ⟨middle, hkey, hmiddle, hget⟩ := hvisit state key (page ++ rest) hpage
      obtain ⟨next, heach, hnext, hget'⟩ := ih middle hmiddle
      refine ⟨next, bind_eq_ok.mpr ⟨(middle, true), hkey, heach⟩, hnext, ?_⟩
      intro other hrange hother
      rw [hget' other hrange fun visited hvisited => hother visited (List.mem_cons_of_mem _ hvisited)]
      exact hget other hrange (hother key List.mem_cons_self)

end OrderedMap

end FoundationDbEffect.Foundation
