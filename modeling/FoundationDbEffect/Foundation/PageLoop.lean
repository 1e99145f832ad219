import FoundationDbEffect.Foundation.PagedScan

/-!
# Paged loops with a key cursor

A loop reads a range in pages. Each page begins at the key that follows the last key of the page
before it, and the first page that is not full is the last one. As long as the visitor of the
pages leaves the keys behind its page as they are, the loop hands it the keys that were there at
the start, and it ends.
-/

namespace FoundationDbEffect.Foundation

/-! ## Pages of a list -/

section

variable {α : Type*}

/-- The full pages of a list, and a last page that is not full. -/
def pagesOf (limit : Nat) (elements : List α) : List (List α) :=
  if limit = 0 ∨ elements.length < limit then [elements]
  else elements.take limit :: pagesOf limit (elements.drop limit)
termination_by elements.length
decreasing_by
  rw [List.length_drop]
  omega

variable {limit : Nat} {elements : List α}

theorem pagesOf_short (h : elements.length < limit) : pagesOf limit elements = [elements] := by
  rw [pagesOf, if_pos (.inr h)]

theorem pagesOf_full (hlimit : 0 < limit) (h : ¬ elements.length < limit) :
    pagesOf limit elements = elements.take limit :: pagesOf limit (elements.drop limit) := by
  rw [pagesOf, if_neg (by omega)]

theorem flatten_pagesOf (limit : Nat) (elements : List α) :
    (pagesOf limit elements).flatten = elements := by
  induction elements using pagesOf.induct limit with
  | case1 elements hlast =>
      rw [pagesOf, if_pos hlast]
      simp
  | case2 elements hfull ih =>
      rw [pagesOf, if_neg hfull, List.flatten_cons, ih, List.take_append_drop]

/-- The slices of a list, none of which is empty. -/
def slicesOf (limit : Nat) (elements : List α) : List (List α) :=
  if limit = 0 ∨ elements.length = 0 then []
  else elements.take limit :: slicesOf limit (elements.drop limit)
termination_by elements.length
decreasing_by
  rw [List.length_drop]
  omega

theorem flatten_slicesOf (hlimit : 0 < limit) (elements : List α) :
    (slicesOf limit elements).flatten = elements := by
  induction elements using slicesOf.induct limit with
  | case1 elements hend =>
      rw [slicesOf, if_pos hend]
      exact (List.eq_nil_of_length_eq_zero (by omega)).symm
  | case2 elements hmore ih =>
      rw [slicesOf, if_neg hmore, List.flatten_cons, ih, List.take_append_drop]

end

/-! ## Visiting one list after another -/

section

variable {ε σ τ : Type*} {visit : τ → σ → Except ε (σ × Bool)}

theorem visitEach_append (front back : List τ) (state : σ) :
    visitEach visit (front ++ back) state =
      (visitEach visit front state >>= fun result =>
        if result.2 then visitEach visit back result.1 else .ok (result.1, false)) := by
  induction front generalizing state with
  | nil => rfl
  | cons element front ih =>
      rw [List.cons_append, visitEach, visitEach]
      cases visit element state with
      | error cause => rfl
      | ok result =>
          obtain ⟨next, more⟩ := result
          cases more with
          | false => rfl
          | true => exact ih next

theorem visitEach_flatten (pages : List (List τ)) (state : σ) :
    visitEach (visitEach visit) pages state = visitEach visit pages.flatten state := by
  induction pages generalizing state with
  | nil => rfl
  | cons page pages ih =>
      rw [List.flatten_cons, visitEach_append, visitEach]
      refine bind_congr fun result => ?_
      rw [← ih]

end

namespace OrderedMap

variable {ε σ α β : Type*} [LinearOrder α]

/-! ## The loop -/

def keysFrom (map : OrderedMap α β) (begin stop : α) : List α :=
  (map.rows fun key => decide (begin ≤ key) && decide (key < stop)).map Prod.fst

theorem mem_keysFrom {map : OrderedMap α β} {begin stop key : α} :
    key ∈ map.keysFrom begin stop ↔
      (begin ≤ key ∧ key < stop) ∧ (map.get? key).isSome = true := by
  rw [keysFrom, List.mem_map, Option.isSome_iff_exists]
  constructor
  · rintro ⟨⟨_, value⟩, hmem, rfl⟩
    obtain ⟨hrange, hget⟩ := mem_rows.mp hmem
    exact ⟨by simpa using hrange, value, hget⟩
  · rintro ⟨hrange, value, hget⟩
    exact ⟨(key, value), mem_rows.mpr ⟨by simpa using hrange, hget⟩, rfl⟩

theorem keysFrom_sorted (map : OrderedMap α β) (begin stop : α) :
    (map.keysFrom begin stop).Pairwise (· < ·) :=
  List.pairwise_map.mpr (map.rows_sorted _)

theorem keysFrom_eq {map : OrderedMap α β} {begin stop : α} {keys : List α}
    (hsorted : keys.Pairwise (· < ·)) (h : ∀ key, key ∈ map.keysFrom begin stop ↔ key ∈ keys) :
    map.keysFrom begin stop = keys := by
  have hnodup {list : List α} (hlist : list.Pairwise (· < ·)) : list.Nodup := hlist.imp LT.lt.ne
  have hperm := (List.perm_ext_iff_of_nodup (hnodup (map.keysFrom_sorted begin stop))
    (hnodup hsorted)).mpr h
  exact hperm.eq_of_pairwise (fun _ _ _ _ hlt hgt => absurd hlt hgt.not_gt)
    (map.keysFrom_sorted begin stop) hsorted

/-- A loop in pages, of at most as many rounds as there is fuel. -/
def pageLoop (read : σ → OrderedMap α β) (following : α → α) (stop : α) (limit : Nat)
    (visitPage : List α → σ → Except ε (σ × Bool)) : Nat → α → σ → Option (Except ε σ)
  | 0, _, _ => none
  | fuel + 1, begin, state =>
    let page := ((read state).keysFrom begin stop).take limit
    match visitPage page state with
    | .error cause => some (.error cause)
    | .ok (next, more) =>
      if more = false ∨ page.length < limit then some (.ok next)
      else
        match page.getLast? with
        | none => some (.ok next)
        | some last => pageLoop read following stop limit visitPage fuel (following last) next

/-- A visitor of pages that leaves the keys of a range behind its page as they are. -/
def LeavesLater (read : σ → OrderedMap α β) (begin stop : α)
    (visitPage : List α → σ → Except ε (σ × Bool)) : Prop :=
  ∀ state page next more, page ≠ [] → page.Pairwise (· < ·) →
    (∀ key ∈ page, key ∈ (read state).keysFrom begin stop) →
    visitPage page state = .ok (next, more) → ∀ key, (∀ visited ∈ page, visited < key) →
      (key ∈ (read next).keysFrom begin stop ↔ key ∈ (read state).keysFrom begin stop)

/-- A visitor of keys that leaves those behind the one it is given as they are. -/
def LeavesLaterKeys (read : σ → OrderedMap α β) (begin stop : α)
    (visit : α → σ → Except ε (σ × Bool)) : Prop :=
  ∀ state key next more, key ∈ (read state).keysFrom begin stop →
    visit key state = .ok (next, more) → ∀ other, key < other →
      (other ∈ (read next).keysFrom begin stop ↔ other ∈ (read state).keysFrom begin stop)

variable {read : σ → OrderedMap α β} {following : α → α} {stop : α} {limit : Nat}

theorem LeavesLaterKeys.pages {begin : α} {visit : α → σ → Except ε (σ × Bool)}
    (h : LeavesLaterKeys read begin stop visit) :
    LeavesLater read begin stop (visitEach visit) := by
  intro state page next more hne hsorted hpresent hvisit key hkey
  clear hne
  induction page generalizing state with
  | nil =>
      cases hvisit
      rfl
  | cons first page ih =>
      obtain ⟨hfirst, hrest⟩ := List.pairwise_cons.mp hsorted
      obtain ⟨⟨middle, goes⟩, hmiddle, hvisit⟩ := bind_eq_ok.mp hvisit
      have hleaves := h state first middle goes (hpresent first List.mem_cons_self) hmiddle
      have hlater := hleaves key (hkey first List.mem_cons_self)
      cases goes with
      | false =>
          cases hvisit
          exact hlater
      | true =>
          refine Iff.trans ?_ hlater
          refine ih middle hrest ?_ hvisit fun visited hmem => ?_
          · intro other hother
            exact (hleaves other (hfirst other hother)).mpr
              (hpresent other (List.mem_cons_of_mem _ hother))
          · exact hkey visited (List.mem_cons_of_mem _ hmem)

variable {visitPage : List α → σ → Except ε (σ × Bool)}

theorem LeavesLater.mono {begin begin' : α} (h : LeavesLater read begin stop visitPage)
    (hbegin : begin ≤ begin') : LeavesLater read begin' stop visitPage := by
  intro state page next more hne hsorted hpresent hvisit key hkey
  have hstart (map : OrderedMap α β) : key ∈ map.keysFrom begin' stop ↔
      begin' ≤ key ∧ key ∈ map.keysFrom begin stop := by
    rw [mem_keysFrom, mem_keysFrom]
    constructor
    · rintro ⟨⟨hge, hlt⟩, hsome⟩
      exact ⟨hge, ⟨hbegin.trans hge, hlt⟩, hsome⟩
    · rintro ⟨hge, ⟨-, hlt⟩, hsome⟩
      exact ⟨⟨hge, hlt⟩, hsome⟩
  rw [hstart, hstart]
  refine and_congr_right fun _ => h state page next more hne hsorted ?_ hvisit key hkey
  intro visited hvisited
  obtain ⟨⟨hge, hlt⟩, hsome⟩ := mem_keysFrom.mp (hpresent visited hvisited)
  exact mem_keysFrom.mpr ⟨⟨hbegin.trans hge, hlt⟩, hsome⟩

theorem mem_keysFrom_following (hfollowing : ∀ a b, following a ≤ b ↔ a < b)
    {map : OrderedMap α β} {begin last key : α} (hlast : begin ≤ last) :
    key ∈ map.keysFrom (following last) stop ↔ last < key ∧ key ∈ map.keysFrom begin stop := by
  rw [mem_keysFrom, mem_keysFrom, hfollowing]
  constructor
  · rintro ⟨⟨hlt, hstop⟩, hsome⟩
    exact ⟨hlt, ⟨hlast.trans hlt.le, hstop⟩, hsome⟩
  · rintro ⟨hlt, ⟨-, hstop⟩, hsome⟩
    exact ⟨⟨hlt, hstop⟩, hsome⟩

theorem keysFrom_following (hfollowing : ∀ a b, following a ≤ b ↔ a < b) {map : OrderedMap α β}
    {begin last : α} (h : ((map.keysFrom begin stop).take limit).getLast? = some last) :
    map.keysFrom (following last) stop = (map.keysFrom begin stop).drop limit := by
  have hsorted := map.keysFrom_sorted begin stop
  obtain ⟨front, hfront⟩ := List.getLast?_eq_some_iff.mp h
  have hsplit := List.take_append_drop limit (map.keysFrom begin stop)
  rw [hfront] at hsplit
  have hlast : last ∈ map.keysFrom begin stop := by
    rw [← hsplit]
    simp
  refine keysFrom_eq (hsorted.sublist (List.drop_sublist _ _)) fun key => ?_
  rw [← hsplit, List.pairwise_append, List.pairwise_append] at hsorted
  obtain ⟨⟨-, -, hbefore⟩, -, hafter⟩ := hsorted
  rw [mem_keysFrom_following hfollowing (mem_keysFrom.mp hlast).1.1]
  constructor
  · rintro ⟨hlt, hmem⟩
    rw [← hsplit] at hmem
    rcases List.mem_append.mp hmem with hpage | hrest
    · rcases List.mem_append.mp hpage with hearlier | hsame
      · exact absurd hlt (hbefore key hearlier last List.mem_cons_self).not_gt
      · exact absurd hlt (List.mem_singleton.mp hsame).le.not_gt
    · exact hrest
  · intro hrest
    refine ⟨hafter last ?_ key hrest, List.mem_of_mem_drop hrest⟩
    exact List.mem_append_right _ List.mem_cons_self

theorem keysFrom_next (hfollowing : ∀ a b, following a ≤ b ↔ a < b) {begin last : α}
    (hleaves : LeavesLater read begin stop visitPage) {state next : σ} {more : Bool}
    (hvisit : visitPage (((read state).keysFrom begin stop).take limit) state = .ok (next, more))
    (hlast : (((read state).keysFrom begin stop).take limit).getLast? = some last) :
    (read next).keysFrom (following last) stop =
      ((read state).keysFrom begin stop).drop limit := by
  have hsorted : (((read state).keysFrom begin stop).take limit).Pairwise (· < ·) :=
    ((read state).keysFrom_sorted begin stop).sublist (List.take_sublist _ _)
  have hmem := List.mem_of_getLast? hlast
  have hge := (mem_keysFrom.mp (List.mem_of_mem_take hmem)).1.1
  rw [← keysFrom_following hfollowing hlast]
  refine keysFrom_eq (keysFrom_sorted _ _ _) fun key => ?_
  rw [mem_keysFrom_following hfollowing hge, mem_keysFrom_following hfollowing hge]
  refine and_congr_right fun hkey => ?_
  refine hleaves state _ next more (List.ne_nil_of_mem hmem) hsorted
    (fun _ => List.mem_of_mem_take) hvisit key fun visited hvisited => ?_
  obtain ⟨front, hfront⟩ := List.getLast?_eq_some_iff.mp hlast
  rw [hfront] at hvisited hsorted
  rcases List.mem_append.mp hvisited with hearlier | hsame
  · have hbefore := (List.pairwise_append.mp hsorted).2.2 visited hearlier last List.mem_cons_self
    exact hbefore.trans hkey
  · rwa [List.mem_singleton.mp hsame]

/-- The loop hands the pages of its range to the visitor, as they were at the start, and ends
after the last one. -/
theorem pageLoop_eq (hfollowing : ∀ a b, following a ≤ b ↔ a < b) (hlimit : 0 < limit) {begin : α}
    (hleaves : LeavesLater read begin stop visitPage) {state : σ} {fuel : Nat}
    (hfuel : ((read state).keysFrom begin stop).length / limit < fuel) :
    pageLoop read following stop limit visitPage fuel begin state =
      some ((visitEach visitPage (pagesOf limit ((read state).keysFrom begin stop)) state).map
        Prod.fst) := by
  induction fuel generalizing begin state with
  | zero => exact absurd hfuel (Nat.not_lt_zero _)
  | succ fuel ih =>
      rw [pageLoop]
      by_cases hshort : ((read state).keysFrom begin stop).length < limit
      · rw [pagesOf_short hshort, List.take_of_length_le (Nat.le_of_lt hshort), visitEach]
        cases visitPage ((read state).keysFrom begin stop) state with
        | error cause => rfl
        | ok result =>
            obtain ⟨next, more⟩ := result
            dsimp only
            rw [if_pos (.inr hshort)]
            cases more <;> rfl
      · have hpage : (((read state).keysFrom begin stop).take limit).length = limit := by
          rw [List.length_take]
          omega
        rw [pagesOf_full hlimit hshort, visitEach]
        cases hvisit : visitPage (((read state).keysFrom begin stop).take limit) state with
        | error cause => rfl
        | ok result =>
            obtain ⟨next, more⟩ := result
            cases more with
            | false => rfl
            | true =>
                dsimp only
                rw [if_neg (by simp [hpage])]
                cases hlast : (((read state).keysFrom begin stop).take limit).getLast? with
                | none =>
                    rw [List.getLast?_eq_none_iff.mp hlast] at hpage
                    exact absurd hpage (Nat.ne_of_lt hlimit)
                | some last =>
                    have hnext := keysFrom_next hfollowing hleaves hvisit hlast
                    have hmem := List.mem_of_mem_take (List.mem_of_getLast? hlast)
                    have hbegin : begin ≤ following last :=
                      (mem_keysFrom.mp hmem).1.1.trans ((hfollowing _ _).mp le_rfl).le
                    dsimp only
                    rw [ih (hleaves.mono hbegin), hnext]
                    · rfl
                    · rw [hnext, List.length_drop]
                      rw [Nat.div_eq_sub_div hlimit (Nat.le_of_not_lt hshort)] at hfuel
                      exact Nat.lt_of_succ_lt_succ hfuel

end OrderedMap

end FoundationDbEffect.Foundation
