import Mathlib.Data.List.Infix
import Mathlib.Data.List.Perm.Basic

/-!
# Scans that go on after an element

A scan reads a sorted source in pages, each of which starts after the last element of the one
before it. The source may change between two pages, and so may the rest of the scan. What the
pages have in common with the source is what is said here.
-/

namespace FoundationDbEffect.Foundation

variable {ρ σ α : Type*}

/-- The rest of a scan after an element is what the scan selects after it. -/
structure Continues (before : α → α → Prop) (select : ρ → σ → List α) (next : ρ → α → ρ) :
    Prop where
  irrefl : ∀ row, ¬ before row row
  trans : ∀ {first second third}, before first second → before second third → before first third
  sorted : ∀ scan source, (select scan source).Pairwise before
  after : ∀ {scan source last row}, row ∈ select (next scan last) source → before last row
  kept : ∀ {scan source last row}, row ∈ select scan source → before last row →
    row ∈ select (next scan last) source
  within : ∀ {scan source last row}, last ∈ select scan source →
    row ∈ select (next scan last) source → row ∈ select scan source

/-- The pages that a scan has read, each with the source that it was read from, and the rest of
the scan. -/
inductive Paged (select : ρ → σ → List α) (next : ρ → α → ρ) (scan : ρ) :
    List (σ × List α) → ρ → Prop where
  | nil : Paged select next scan [] scan
  | snoc {pages : List (σ × List α)} {rest : ρ} {source : σ} {page : List α} {last : α}
      (h : Paged select next scan pages rest) (hpage : page <+: select rest source)
      (hlast : page.getLast? = some last) :
      Paged select next scan (pages ++ [(source, page)]) (next rest last)

def emission (pages : List (σ × List α)) : List α :=
  (pages.map Prod.snd).flatten

theorem emission_snoc (pages : List (σ × List α)) (source : σ) (page : List α) :
    emission (pages ++ [(source, page)]) = emission pages ++ page := by
  simp [emission]

namespace Paged

variable {before : α → α → Prop} {select : ρ → σ → List α} {next : ρ → α → ρ} {scan rest : ρ}
  {pages : List (σ × List α)} {source : σ} {page : List α}

theorem before_last (hsorted : page.Pairwise before) {last row : α}
    (hlast : page.getLast? = some last) (hrow : row ∈ page) : row = last ∨ before row last := by
  obtain ⟨front, rfl⟩ := List.getLast?_eq_some_iff.mp hlast
  rcases List.mem_append.mp hrow with hfront | hrow
  · exact .inr ((List.pairwise_append.mp hsorted).2.2 row hfront last (List.mem_singleton_self _))
  · exact .inl (List.mem_singleton.mp hrow)

theorem emission_before (hlaws : Continues before select next)
    (h : Paged select next scan pages rest) {row other : α} (hrow : row ∈ emission pages)
    (hother : other ∈ select rest source) : before row other := by
  induction h generalizing other source with
  | nil => cases hrow
  | @snoc pages rest earlier page last h hpage hlast ih =>
      have hbetween : before last other := hlaws.after hother
      rw [emission_snoc] at hrow
      rcases List.mem_append.mp hrow with hrow | hrow
      · have hmem : last ∈ page := List.mem_of_getLast? hlast
        exact hlaws.trans (ih hrow (hpage.subset hmem)) hbetween
      · rcases before_last ((hlaws.sorted rest earlier).sublist hpage.sublist) hlast hrow with
          rfl | hbefore
        · exact hbetween
        · exact hlaws.trans hbefore hbetween

theorem emission_sorted (hlaws : Continues before select next)
    (h : Paged select next scan pages rest) (hpage : page <+: select rest source) :
    (emission pages ++ page).Pairwise before := by
  induction h generalizing page source with
  | nil => exact (hlaws.sorted scan source).sublist hpage.sublist
  | snoc h hlatest hlast ih =>
      have hpaged := h.snoc hlatest hlast
      rw [emission_snoc]
      refine List.pairwise_append.mpr ⟨ih hlatest, ?_, fun row hrow other hother => ?_⟩
      · exact (hlaws.sorted _ source).sublist hpage.sublist
      · rw [← emission_snoc] at hrow
        exact hpaged.emission_before hlaws hrow (hpage.subset hother)

theorem mem_source (h : Paged select next scan pages rest) {row : α}
    (hrow : row ∈ emission pages) : ∃ read ∈ pages, ∃ scan, row ∈ select scan read.1 := by
  induction h with
  | nil => cases hrow
  | @snoc pages rest source page last h hpage hlast ih =>
      rw [emission_snoc] at hrow
      rcases List.mem_append.mp hrow with hrow | hrow
      · obtain ⟨read, hread, hmem⟩ := ih hrow
        exact ⟨read, List.mem_append_left _ hread, hmem⟩
      · exact ⟨_, List.mem_append_right _ (List.mem_singleton_self _), rest, hpage.subset hrow⟩

/-- An element that is there all the time is read, unless it is still to come. -/
theorem read_or_kept (hlaws : Continues before select next)
    (h : Paged select next scan pages rest) {row : α}
    (hrow : ∀ read ∈ pages, row ∈ select scan read.1) :
    row ∈ emission pages ∨ ∀ source, row ∈ select scan source → row ∈ select rest source := by
  induction h with
  | nil => exact .inr fun source hsource => hsource
  | @snoc pages rest source page last h hpage hlast ih =>
      rw [emission_snoc]
      rcases ih fun read hread => hrow read (List.mem_append_left _ hread) with hread | hkept
      · exact .inl (List.mem_append_left _ hread)
      · have hmem := hkept source (hrow (source, page) (List.mem_append_right _ List.mem_cons_self))
        have hsorted := hlaws.sorted rest source
        obtain ⟨later, hlater⟩ := hpage
        rw [← hlater] at hmem hsorted
        rcases List.mem_append.mp hmem with hmem | hmem
        · exact .inl (List.mem_append_right _ hmem)
        · have hbefore : before last row :=
            (List.pairwise_append.mp hsorted).2.2 last (List.mem_of_getLast? hlast) row hmem
          exact .inr fun other hother => hlaws.kept (hkept other hother) hbefore

theorem select_next (hlaws : Continues before select next) {last : α}
    (hpage : page <+: select scan source) (hlast : page.getLast? = some last) :
    select scan source = page ++ select (next scan last) source := by
  have hsorted := hlaws.sorted scan source
  have hmember : last ∈ select scan source := hpage.subset (List.mem_of_getLast? hlast)
  obtain ⟨later, hlater⟩ := hpage
  rw [← hlater] at hsorted
  obtain ⟨hfirst, hrest, hbetween⟩ := List.pairwise_append.mp hsorted
  have hnodup {rows : List α} (hrows : rows.Pairwise before) : rows.Nodup := by
    refine hrows.imp ?_
    rintro row _ hbefore rfl
    exact hlaws.irrefl row hbefore
  have hmem (row : α) : row ∈ later ↔ row ∈ select (next scan last) source := by
    constructor
    · intro hrow
      have hselected : row ∈ select scan source := hlater ▸ List.mem_append_right page hrow
      exact hlaws.kept hselected (hbetween last (List.mem_of_getLast? hlast) row hrow)
    · intro hrow
      have hselected := hlaws.within hmember hrow
      rw [← hlater] at hselected
      rcases List.mem_append.mp hselected with hrow' | hrow'
      · have hafter : before last row := hlaws.after hrow
        rcases before_last hfirst hlast hrow' with rfl | hbefore
        · exact absurd hafter (hlaws.irrefl _)
        · exact absurd (hlaws.trans hafter hbefore) (hlaws.irrefl _)
      · exact hrow'
  have hperm := (List.perm_ext_iff_of_nodup (hnodup hrest)
    (hnodup (hlaws.sorted (next scan last) source))).mpr hmem
  have hsame := hperm.eq_of_pairwise
    (fun _ _ _ _ hlt hgt => absurd (hlaws.trans hlt hgt) (hlaws.irrefl _)) hrest
    (hlaws.sorted (next scan last) source)
  rw [← hlater, hsame]

theorem select_eq (hlaws : Continues before select next)
    (h : Paged select next scan pages rest) (hsource : ∀ read ∈ pages, read.1 = source) :
    select scan source = emission pages ++ select rest source := by
  induction h with
  | nil => rfl
  | @snoc pages rest other page last h hpage hlast ih =>
      have hother : other = source :=
        hsource (other, page) (List.mem_append_right _ List.mem_cons_self)
      subst hother
      rw [ih fun read hread => hsource read (List.mem_append_left _ hread), emission_snoc,
        List.append_assoc, ← select_next hlaws hpage hlast]

end Paged

end FoundationDbEffect.Foundation
