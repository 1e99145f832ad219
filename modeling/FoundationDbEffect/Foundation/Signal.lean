import FoundationDbEffect.Foundation.Transition
import Mathlib.Algebra.BigOperators.Group.List.Basic
import Mathlib.Data.BitVec

/-!
# Signals

A signal is a counter in a machine word that is only ever incremented. Whoever has seen its value
tells from any other value that it was incremented since, for as long as it has not been
incremented once for each of its values.
-/

namespace FoundationDbEffect.Foundation

variable {w : Nat}

def bump (signal : BitVec w) (count : Nat) : BitVec w := signal + BitVec.ofNat w count

@[simp] theorem bump_zero (signal : BitVec w) : bump signal 0 = signal := by simp [bump]

theorem bump_bump (signal : BitVec w) (first second : Nat) :
    bump (bump signal first) second = bump signal (first + second) := by
  rw [bump, bump, bump, BitVec.ofNat_add, BitVec.add_assoc]

theorem bump_ne (signal : BitVec w) {count : Nat} (hpos : 0 < count) (hlt : count < 2 ^ w) :
    bump signal count ≠ signal := by
  intro heq
  have hzero : BitVec.ofNat w count = 0#w := by
    rw [bump] at heq
    simpa using heq
  have hmod := congrArg BitVec.toNat hzero
  rw [BitVec.toNat_ofNat, Nat.mod_eq_of_lt hlt] at hmod
  exact hpos.ne' (by simpa using hmod)

/-! ## Steps -/

/-- The signal is incremented at most so many times, and if not at all, the step is quiet. -/
def Bumps (limit : Nat) (quiet : Prop) (signal next : BitVec w) : Prop :=
  ∃ count ≤ limit, next = bump signal count ∧ (count = 0 → quiet)

namespace Bumps

variable {limit limit' : Nat} {quiet quiet' : Prop} {first second third : BitVec w}

theorem silent (h : quiet) : Bumps limit quiet first first :=
  ⟨0, Nat.zero_le _, by simp, fun _ => h⟩

theorem mono (h : Bumps limit quiet first second) (hle : limit ≤ limit')
    (hquiet : quiet → quiet') : Bumps limit' quiet' first second := by
  obtain ⟨count, hcount, hnext, hzero⟩ := h
  exact ⟨count, hcount.trans hle, hnext, fun hnone => hquiet (hzero hnone)⟩

theorem trans (h : Bumps limit quiet first second) (h' : Bumps limit' quiet' second third) :
    Bumps (limit + limit') (quiet ∧ quiet') first third := by
  obtain ⟨count, hcount, rfl, hzero⟩ := h
  obtain ⟨count', hcount', rfl, hzero'⟩ := h'
  refine ⟨count + count', Nat.add_le_add hcount hcount', bump_bump _ _ _, fun hnone => ?_⟩
  obtain ⟨hfirst, hsecond⟩ := Nat.add_eq_zero_iff.mp hnone
  exact ⟨hzero hfirst, hzero' hsecond⟩

theorem eq_of_zero (h : Bumps 0 quiet first second) : second = first := by
  obtain ⟨count, hcount, rfl, -⟩ := h
  simp [Nat.le_zero.mp hcount]

theorem ne (h : Bumps limit quiet first second) (hloud : ¬ quiet) (hlimit : limit < 2 ^ w) :
    second ≠ first := by
  obtain ⟨count, hcount, rfl, hzero⟩ := h
  refine bump_ne _ ?_ (hcount.trans_lt hlimit)
  exact Nat.pos_of_ne_zero fun hnone => hloud (hzero hnone)

end Bumps

/-! ## Runs -/

section

variable {σ τ : Type*} {step : σ → τ → σ → Prop} {invariant : σ → Prop} {signal : σ → BitVec w}
  {limit : τ → Nat} {quiet : σ → σ → Prop} {start finish next : σ} {labels : List τ} {label : τ}

theorem Run.bumps
    (hstep : ∀ state label next, invariant state → step state label next →
      invariant next ∧ Bumps (limit label) (quiet state next) (signal state) (signal next))
    (hstart : invariant start) (hrun : Run step start labels finish) :
    invariant finish ∧ Bumps (labels.map limit).sum True (signal start) (signal finish) := by
  induction hrun with
  | nil => exact ⟨hstart, .silent trivial⟩
  | snoc _ hlast ih =>
      obtain ⟨hstate, hbefore⟩ := ih
      obtain ⟨hnext, hbump⟩ := hstep _ _ _ hstate hlast
      refine ⟨hnext, (hbefore.trans hbump).mono ?_ fun _ => trivial⟩
      simp

/-- Whoever has seen the signal at the start of a run tells from its value after a last step that
the step was not quiet. -/
theorem Run.wakes
    (hstep : ∀ state label next, invariant state → step state label next →
      invariant next ∧ Bumps (limit label) (quiet state next) (signal state) (signal next))
    (hstart : invariant start) (hrun : Run step start labels finish)
    (hlast : step finish label next) (hloud : ¬ quiet finish next)
    (hfew : ((labels ++ [label]).map limit).sum < 2 ^ w) : signal next ≠ signal start := by
  obtain ⟨hfinish, hbefore⟩ := hrun.bumps hstep hstart
  obtain ⟨-, hbump⟩ := hstep _ _ _ hfinish hlast
  refine (hbefore.trans hbump).ne (fun hquiet => hloud hquiet.2) ?_
  simpa using hfew

end

end FoundationDbEffect.Foundation
