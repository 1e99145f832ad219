import FoundationDbEffect.Foundation.Occ
import Mathlib.Data.Set.Insert
import Mathlib.Logic.Function.Basic

/-!
# Programs over cells

A transaction body as a program: it reads some cells at a time, its own writes included, puts
single cells, clears sets of them, and may fail.  Under optimistic concurrency a program that
commits has done what it would do if it ran on the state that it commits on.
-/

namespace FoundationDbEffect.Foundation.Cells

variable {κ V α β : Type}

inductive Mutation (κ V : Type) where
  | put (key : κ) (value : V)
  | clear (keys : κ → Bool)

/-- A body that is given what the cells of its reads hold, and of no others. -/
inductive Program (κ V α : Type) where
  | done (result : α)
  | fail
  | read (keys : κ → Bool) (next : ({key // keys key = true} → Option V) → Program κ V α)
  | mutate (mutation : Mutation κ V) (next : Program κ V α)

namespace Mutation

variable [DecidableEq κ]

def touches : Mutation κ V → κ → Bool
  | put key _ => fun other => decide (other = key)
  | clear keys => keys

def apply (cells : κ → Option V) : Mutation κ V → κ → Option V
  | put key value => Function.update cells key (some value)
  | clear keys => fun key => if keys key then none else cells key

theorem apply_congr {cells cells' : κ → Option V} {mutation : Mutation κ V} {key : κ}
    (h : mutation.touches key = true ∨ cells key = cells' key) :
    mutation.apply cells key = mutation.apply cells' key := by
  cases mutation with
  | put key' value =>
      by_cases hkey : key = key'
      · subst hkey
        simp [apply]
      · simp only [touches, decide_eq_true_eq, hkey, false_or] at h
        simp [apply, Function.update_of_ne hkey, h]
  | clear keys =>
      simp only [touches] at h
      simp only [apply]
      split
      · rfl
      · next hkeys => exact h.resolve_left hkeys

theorem apply_of_untouched {cells : κ → Option V} {mutation : Mutation κ V} {key : κ}
    (h : mutation.touches key = false) : mutation.apply cells key = cells key := by
  cases mutation with
  | put key' value => exact Function.update_of_ne (of_decide_eq_false h) _ _
  | clear keys =>
      simp only [touches] at h
      simp [apply, h]

end Mutation

/-! ## Running a program -/

section

variable [DecidableEq κ]

def cellsAfter (cells : κ → Option V) (mutations : List (Mutation κ V)) : κ → Option V :=
  mutations.foldl Mutation.apply cells

def written (mutations : List (Mutation κ V)) (key : κ) : Bool :=
  mutations.any fun mutation => mutation.touches key

/-- What a program has done: its mutations, the cells that it has read from its snapshot, and
its result. -/
structure Attempt (κ V α : Type) where
  mutations : List (Mutation κ V)
  reads : κ → Bool
  result : α

def Attempt.reading (keys : κ → Bool) (attempt : Attempt κ V α) : Attempt κ V α :=
  { attempt with reads := fun key => attempt.reads key || keys key }

/-- A program on a snapshot, after some mutations of its own. -/
def Program.run (snapshot : κ → Option V) :
    Program κ V α → List (Mutation κ V) → Option (Attempt κ V α)
  | done result, mutations => some ⟨mutations, fun _ => false, result⟩
  | fail, _ => none
  | read keys next, mutations =>
    ((next fun key => cellsAfter snapshot mutations key.1).run snapshot mutations).map
      (Attempt.reading fun key => keys key && !written mutations key)
  | mutate mutation next, mutations => next.run snapshot (mutations ++ [mutation])

/-- A program that runs on its own: its result and the cells that it leaves. -/
def Program.eval (cells : κ → Option V) : Program κ V α → Option (α × (κ → Option V))
  | done result => some (result, cells)
  | fail => none
  | read _ next => (next fun key => cells key.1).eval cells
  | mutate mutation next => next.eval (mutation.apply cells)

theorem cellsAfter_append (cells : κ → Option V) (first second : List (Mutation κ V)) :
    cellsAfter cells (first ++ second) = cellsAfter (cellsAfter cells first) second :=
  List.foldl_append

theorem cellsAfter_of_untouched {cells : κ → Option V} {mutations : List (Mutation κ V)}
    {key : κ} (h : written mutations key = false) :
    cellsAfter cells mutations key = cells key := by
  induction mutations generalizing cells with
  | nil => rfl
  | cons mutation mutations ih =>
      rw [written, List.any_cons, Bool.or_eq_false_iff] at h
      exact (ih h.2).trans (Mutation.apply_of_untouched h.1)

theorem cellsAfter_congr {cells cells' : κ → Option V} {mutations : List (Mutation κ V)}
    {key : κ} (h : written mutations key = true ∨ cells key = cells' key) :
    cellsAfter cells mutations key = cellsAfter cells' mutations key := by
  induction mutations generalizing cells cells' with
  | nil => exact h.resolve_left Bool.false_ne_true
  | cons mutation mutations ih =>
      apply ih
      rw [written, List.any_cons, Bool.or_eq_true] at h
      rcases h with (htouches | hwritten) | hsame
      · exact .inr (Mutation.apply_congr (.inl htouches))
      · exact .inl hwritten
      · exact .inr (Mutation.apply_congr (.inr hsame))

theorem Program.run_congr {snapshot cells : κ → Option V} {program : Program κ V α}
    {mutations : List (Mutation κ V)} {attempt : Attempt κ V α}
    (h : program.run snapshot mutations = some attempt)
    (hreads : ∀ key, attempt.reads key = true → snapshot key = cells key) :
    program.run cells mutations = some attempt := by
  induction program generalizing mutations attempt with
  | done result => exact h
  | fail => cases h
  | read keys next ih =>
      rw [run, Option.map_eq_some_iff] at h
      obtain ⟨rest, hrest, rfl⟩ := h
      have hsame : (fun key : {key // keys key = true} => cellsAfter snapshot mutations key.1) =
          fun key => cellsAfter cells mutations key.1 := by
        funext key
        apply cellsAfter_congr
        cases hwritten : written mutations key.1 with
        | true => exact .inl rfl
        | false => exact .inr (hreads key.1 (by simp [Attempt.reading, key.2, hwritten]))
      have hnext := ih _ hrest fun key hkey => hreads key (by simp [Attempt.reading, hkey])
      rw [run, ← hsame, hnext]
      rfl
  | mutate mutation next ih => exact ih h hreads

theorem Program.run_eval {snapshot : κ → Option V} {program : Program κ V α}
    {mutations : List (Mutation κ V)} {attempt : Attempt κ V α}
    (h : program.run snapshot mutations = some attempt) :
    program.eval (cellsAfter snapshot mutations) =
      some (attempt.result, cellsAfter snapshot attempt.mutations) := by
  induction program generalizing mutations attempt with
  | done result =>
      cases h
      rfl
  | fail => cases h
  | read keys next ih =>
      rw [run, Option.map_eq_some_iff] at h
      obtain ⟨rest, hrest, rfl⟩ := h
      have heval := ih _ hrest
      exact heval
  | mutate mutation next ih =>
      have heval := ih h
      rw [cellsAfter_append] at heval
      exact heval

theorem Program.run_mutations {snapshot : κ → Option V} {program : Program κ V α}
    {mutations : List (Mutation κ V)} {attempt : Attempt κ V α}
    (h : program.run snapshot mutations = some attempt) : mutations <+: attempt.mutations := by
  induction program generalizing mutations attempt with
  | done result =>
      cases h
      exact List.prefix_rfl
  | fail => cases h
  | read keys next ih =>
      rw [run, Option.map_eq_some_iff] at h
      obtain ⟨rest, hrest, rfl⟩ := h
      have hprefix := ih _ hrest
      exact hprefix
  | mutate mutation next ih => exact (List.prefix_append _ _).trans (ih h)

end

/-! ## Sequencing -/

def Program.bind : Program κ V α → (α → Program κ V β) → Program κ V β
  | done result, next => next result
  | fail, _ => fail
  | read keys rest, next => read keys fun values => (rest values).bind next
  | mutate mutation rest, next => mutate mutation (rest.bind next)

theorem Program.eval_bind [DecidableEq κ] (cells : κ → Option V) (program : Program κ V α)
    (next : α → Program κ V β) :
    (program.bind next).eval cells =
      (program.eval cells).bind fun outcome => (next outcome.1).eval outcome.2 := by
  induction program generalizing cells with
  | done result => rfl
  | fail => rfl
  | read keys rest ih => exact ih _ cells
  | mutate mutation rest ih => exact ih _

instance monadProgram : Monad (Program κ V) where
  pure := Program.done
  bind := Program.bind

/-! ## Histories -/

section

variable [DecidableEq κ]

structure Execution (κ V α : Type) where
  program : Program κ V α
  result : α

abbrev CellTransaction (κ V α : Type) := Transaction (Mutation κ V) κ (Execution κ V α)

/-- The transaction of an attempt. -/
def Attempt.transaction (readVersion : Nat) (program : Program κ V α)
    (attempt : Attempt κ V α) : CellTransaction κ V α where
  readVersion := readVersion
  mutations := attempt.mutations
  reads := {key | attempt.reads key = true}
  writes := {key | written attempt.mutations key = true}
  result := ⟨program, attempt.result⟩

def programBody (allowed : Program κ V α → Prop) (snapshot : κ → Option V)
    (transaction : CellTransaction κ V α) : Prop :=
  allowed transaction.result.program ∧ ∃ attempt,
    transaction.result.program.run snapshot [] = some attempt ∧
      transaction =
        attempt.transaction transaction.readVersion transaction.result.program

def History (allowed : Program κ V α → Prop) : List (CellTransaction κ V α) → Prop :=
  Occ.Committed (fun _ => Mutation.apply) (fun _ => none) (programBody allowed)

def stateAt (history : List (CellTransaction κ V α)) : κ → Option V :=
  Occ.stateAt (fun _ => Mutation.apply) (fun _ => none) history

variable {allowed : Program κ V α → Prop} {history newer older : List (CellTransaction κ V α)}
  {transaction : CellTransaction κ V α}

@[simp] theorem stateAt_nil : stateAt ([] : List (CellTransaction κ V α)) = fun _ => none := rfl

theorem stateAt_cons (transaction : CellTransaction κ V α)
    (older : List (CellTransaction κ V α)) :
    stateAt (transaction :: older) = cellsAfter (stateAt older) transaction.mutations :=
  rfl

theorem History.of_append (h : History allowed (newer ++ older)) : History allowed older :=
  Occ.Committed.of_append h

theorem History.tail (h : History allowed (transaction :: older)) : History allowed older := by
  cases h with
  | commit holder _ _ _ => exact holder

theorem History.current (h : History allowed (transaction :: older)) {key : κ}
    (hread : key ∈ transaction.reads) :
    stateAt older key = stateAt (Occ.before older transaction.readVersion) key := by
  cases h with
  | commit holder _ _ hconflict =>
      refine Occ.view_before (fun (cells : κ → Option V) key => cells key) ?_ ?_
      · intro other hother version cells hwrites
        obtain ⟨snapshot, -, attempt, -, hattempt⟩ := holder.exists_body hother
        rw [hattempt] at hwrites ⊢
        refine cellsAfter_of_untouched ?_
        simpa [Attempt.transaction] using hwrites
      · intro later hlater
        exact Set.disjoint_left.mp (hconflict later hlater) hread

/-- Committed programs are serializable. -/
theorem History.serializable (h : History allowed (transaction :: older)) :
    allowed transaction.result.program ∧ ∃ attempt,
      transaction.result.program.run (stateAt older) [] = some attempt ∧
        transaction = attempt.transaction transaction.readVersion transaction.result.program := by
  have hcurrent : ∀ key ∈ transaction.reads,
      stateAt older key = stateAt (Occ.before older transaction.readVersion) key :=
    fun _ hread => h.current hread
  cases h with
  | commit _ _ hbody _ =>
      obtain ⟨hallowed, attempt, hrun, hattempt⟩ := hbody
      refine ⟨hallowed, attempt, Program.run_congr hrun fun key hkey => ?_, hattempt⟩
      refine (hcurrent key ?_).symm
      rw [hattempt]
      exact hkey

theorem History.eval_eq (h : History allowed (transaction :: older)) :
    transaction.result.program.eval (stateAt older) =
      some (transaction.result.result, stateAt (transaction :: older)) := by
  obtain ⟨-, attempt, hrun, hattempt⟩ := h.serializable
  have heval := Program.run_eval hrun
  have hresult : transaction.result.result = attempt.result := by
    rw [hattempt]
    rfl
  have hmutations : transaction.mutations = attempt.mutations := by
    rw [hattempt]
    rfl
  rw [stateAt_cons, hmutations, hresult]
  exact heval

/-- What every program keeps when it runs on its own is kept in every history. -/
theorem History.preserved {P : (κ → Option V) → Prop}
    (hstep : ∀ program cells outcome, allowed program → P cells →
      program.eval cells = some outcome → P outcome.2)
    (h : History allowed (newer ++ older)) (hstart : P (stateAt older)) :
    P (stateAt (newer ++ older)) := by
  induction newer with
  | nil => exact hstart
  | cons transaction newer ih =>
      exact hstep _ _ _ h.serializable.1 (ih h.tail) h.eval_eq

end

end FoundationDbEffect.Foundation.Cells
