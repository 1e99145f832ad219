import Mathlib.Data.Set.Lattice
import Mathlib.Order.CompletePartialOrder
import Mathlib.Data.List.Infix

/-!
# Optimistic concurrency

A history lists the committed transactions of a database, newest first, and a version counts
the commits it contains.  A transaction runs against the state of its read version.  It may
commit when no key that it read with conflict is among the write conflicts of a commit after
that version, and its mutations then apply to the newest state, whatever the transaction
itself had seen.
-/

namespace FoundationDbEffect.Foundation

structure Transaction (μ κ ρ : Type*) where
  readVersion : Nat
  mutations : List μ
  reads : Set κ
  writes : Set κ
  result : ρ

namespace Occ

variable {σ μ κ ρ : Type*}

section

variable (apply : Nat → σ → μ → σ) (init : σ)

def commit (version : Nat) (state : σ) (transaction : Transaction μ κ ρ) : σ :=
  transaction.mutations.foldl (apply version) state

def stateAt : List (Transaction μ κ ρ) → σ
  | [] => init
  | transaction :: older => commit apply (older.length + 1) (stateAt older) transaction

def before (history : List (Transaction μ κ ρ)) (version : Nat) : List (Transaction μ κ ρ) :=
  history.drop (history.length - version)

def since (history : List (Transaction μ κ ρ)) (version : Nat) : List (Transaction μ κ ρ) :=
  history.take (history.length - version)

/-- Histories of transactions that run `body` on the snapshot of their read version. -/
inductive Committed (body : σ → Transaction μ κ ρ → Prop) :
    List (Transaction μ κ ρ) → Prop where
  | nil : Committed body []
  | commit {history : List (Transaction μ κ ρ)} {transaction : Transaction μ κ ρ}
      (h : Committed body history) (hversion : transaction.readVersion ≤ history.length)
      (hbody : body (stateAt apply init (before history transaction.readVersion)) transaction)
      (hconflict : ∀ later ∈ since history transaction.readVersion,
        Disjoint transaction.reads later.writes) :
      Committed body (transaction :: history)

end

variable {apply : Nat → σ → μ → σ} {init : σ} {body : σ → Transaction μ κ ρ → Prop}

theorem since_append_before (history : List (Transaction μ κ ρ)) (version : Nat) :
    since history version ++ before history version = history :=
  List.take_append_drop _ _

theorem before_length {history : List (Transaction μ κ ρ)} {version : Nat}
    (h : version ≤ history.length) : (before history version).length = version := by
  rw [before, List.length_drop]
  omega

theorem since_append {older : List (Transaction μ κ ρ)} {version : Nat}
    (h : version ≤ older.length) (newer : List (Transaction μ κ ρ)) :
    since (newer ++ older) version = newer ++ since older version := by
  have hlength : newer.length + older.length - version =
      newer.length + (older.length - version) := by omega
  rw [since, since, List.length_append, hlength, List.take_length_add_append]

theorem before_before {history : List (Transaction μ κ ρ)} {earlier later : Nat}
    (h : earlier ≤ later) (hlater : later ≤ history.length) :
    before (before history later) earlier = before history earlier := by
  simp only [before, List.drop_drop, List.length_drop]
  congr 1
  omega

theorem mem_since_of_mem_before {history : List (Transaction μ κ ρ)} {earlier later : Nat}
    (h : earlier ≤ later) (hlater : later ≤ history.length) {transaction : Transaction μ κ ρ}
    (hmem : transaction ∈ since (before history later) earlier) :
    transaction ∈ since history earlier := by
  have hlength : history.length - later + (later - earlier) = history.length - earlier := by
    omega
  rw [since, before_length hlater, before, List.take_drop, hlength] at hmem
  exact List.mem_of_mem_drop hmem

/-- A commit that wrote what a later transaction read with conflict is part of its
snapshot. -/
theorem mem_before_of_conflict {history : List (Transaction μ κ ρ)}
    {transaction earlier : Transaction μ κ ρ}
    (hconflict : ∀ later ∈ since history transaction.readVersion,
      Disjoint transaction.reads later.writes)
    (hearlier : earlier ∈ history) {key : κ} (hread : key ∈ transaction.reads)
    (hwrite : key ∈ earlier.writes) : earlier ∈ before history transaction.readVersion := by
  rw [← since_append_before history transaction.readVersion] at hearlier
  rcases List.mem_append.mp hearlier with hsince | hbefore
  · exact absurd hwrite (Set.disjoint_left.mp (hconflict earlier hsince) hread)
  · exact hbefore

theorem Committed.exists_body {history : List (Transaction μ κ ρ)}
    (h : Committed apply init body history) {transaction : Transaction μ κ ρ}
    (hmem : transaction ∈ history) : ∃ snapshot, body snapshot transaction := by
  induction h with
  | nil => simp at hmem
  | commit _ _ hbody _ ih =>
      rcases List.mem_cons.mp hmem with rfl | hmem
      · exact ⟨_, hbody⟩
      · exact ih hmem

theorem stateAt_preserved {P : σ → Prop} {newer older : List (Transaction μ κ ρ)}
    (hstep : ∀ transaction ∈ newer, ∀ version state, P state →
      P (commit apply version state transaction))
    (h : P (stateAt apply init older)) : P (stateAt apply init (newer ++ older)) := by
  induction newer with
  | nil => exact h
  | cons transaction newer ih =>
      refine hstep transaction (by simp) _ _ (ih ?_)
      intro transaction' hmem
      exact hstep transaction' (List.mem_cons_of_mem _ hmem)

/-- What a commit establishes, and all commits preserve, holds in every snapshot that
contains it. -/
theorem stateAt_of_mem {P : σ → Prop} {history : List (Transaction μ κ ρ)}
    {transaction : Transaction μ κ ρ} (hmem : transaction ∈ history)
    (hestablish : ∀ version state, P (commit apply version state transaction))
    (hstep : ∀ transaction ∈ history, ∀ version state, P state →
      P (commit apply version state transaction)) :
    P (stateAt apply init history) := by
  obtain ⟨newer, older, rfl⟩ := List.append_of_mem hmem
  refine stateAt_preserved ?_ (hestablish _ _)
  intro transaction' hmem'
  exact hstep transaction' (List.mem_append_left _ hmem')

theorem view_before {V : Type*} (view : σ → κ → V) {history : List (Transaction μ κ ρ)}
    {version : Nat} {key : κ}
    (hframe : ∀ transaction ∈ history, ∀ version state, key ∉ transaction.writes →
      view (commit apply version state transaction) key = view state key)
    (hkey : ∀ later ∈ since history version, key ∉ later.writes) :
    view (stateAt apply init history) key = view (stateAt apply init (before history version)) key := by
  conv_lhs => rw [← since_append_before history version]
  refine @stateAt_preserved _ _ _ _ apply init
    (fun state => view state key = view (stateAt apply init (before history version)) key) _ _
    (fun transaction hmem version' state hstate => ?_) rfl
  rw [hframe transaction (List.mem_of_mem_take hmem) version' state (hkey transaction hmem), hstate]

theorem Committed.of_append {newer older : List (Transaction μ κ ρ)}
    (h : Committed apply init body (newer ++ older)) : Committed apply init body older := by
  induction newer with
  | nil => exact h
  | cons transaction newer ih =>
      cases h with
      | commit h _ _ _ => exact ih h

theorem Committed.before {history : List (Transaction μ κ ρ)}
    (h : Committed apply init body history) (version : Nat) :
    Committed apply init body (before history version) := by
  rw [← since_append_before history version] at h
  exact h.of_append

/-- Induction on a history that also has the induction hypothesis for the snapshot of its
newest transaction. -/
theorem Committed.snapshot_induction {P : List (Transaction μ κ ρ) → Prop} (nil : P [])
    (commit : ∀ history transaction, Committed apply init body history → P history →
      transaction.readVersion ≤ history.length →
      P (Occ.before history transaction.readVersion) →
      body (stateAt apply init (Occ.before history transaction.readVersion)) transaction →
      (∀ later ∈ since history transaction.readVersion,
        Disjoint transaction.reads later.writes) →
      P (transaction :: history))
    {history : List (Transaction μ κ ρ)} (h : Committed apply init body history) : P history := by
  -- Every suffix of the history has the property, and each snapshot is a suffix.
  suffices hall : ∀ suffix, suffix <:+ history → P suffix from hall history (List.suffix_refl _)
  induction h with
  | nil =>
      intro suffix hsuffix
      rw [List.suffix_nil.mp hsuffix]
      exact nil
  | commit hhistory hversion hbody hconflict ih =>
      intro suffix hsuffix
      rcases List.suffix_cons_iff.mp hsuffix with rfl | hsuffix
      · exact commit _ _ hhistory (ih _ (List.suffix_refl _)) hversion
          (ih _ (List.drop_suffix _ _)) hbody hconflict
      · exact ih suffix hsuffix

/-! ## Results -/

section

variable {ρ' : Type*} {body' : σ → Transaction μ κ ρ' → Prop}

/-- A transaction of which less, or more, of the result is known. -/
def relabel (f : ρ → ρ') (transaction : Transaction μ κ ρ) : Transaction μ κ ρ' where
  readVersion := transaction.readVersion
  mutations := transaction.mutations
  reads := transaction.reads
  writes := transaction.writes
  result := f transaction.result

theorem stateAt_relabel (f : ρ → ρ') (history : List (Transaction μ κ ρ)) :
    stateAt apply init (history.map (relabel f)) = stateAt apply init history := by
  induction history with
  | nil => rfl
  | cons transaction history ih =>
      rw [List.map_cons, stateAt, stateAt, ih, List.length_map]
      rfl

theorem Committed.relabel {f : ρ → ρ'} {history : List (Transaction μ κ ρ)}
    (hbody : ∀ snapshot transaction, body snapshot transaction →
      body' snapshot (relabel f transaction))
    (h : Committed apply init body history) :
    Committed apply init body' (history.map (Occ.relabel f)) := by
  induction h with
  | nil => exact .nil
  | @commit history transaction h hversion hstep hconflict ih =>
      have hlength : (history.map (Occ.relabel f)).length = history.length := List.length_map _
      refine .commit ih (by rw [hlength]; exact hversion) ?_ ?_
      · have hbefore : Occ.before (history.map (Occ.relabel f)) transaction.readVersion =
            (Occ.before history transaction.readVersion).map (Occ.relabel f) := by
          rw [Occ.before, hlength, ← List.map_drop]
          rfl
        have hsnapshot := hbody _ _ hstep
        rw [← stateAt_relabel f, ← hbefore] at hsnapshot
        exact hsnapshot
      · intro later hlater
        change later ∈ Occ.since (history.map (Occ.relabel f)) transaction.readVersion at hlater
        rw [since, hlength, ← List.map_take] at hlater
        obtain ⟨original, horiginal, rfl⟩ := List.mem_map.mp hlater
        exact hconflict original horiginal

end

end Occ

end FoundationDbEffect.Foundation
