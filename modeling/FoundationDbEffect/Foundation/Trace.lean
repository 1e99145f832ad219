import Mathlib.Data.List.Basic

/-!
Traces of events.

A trace is guarded by a relation between a past and an event when every event of it is
related to everything that came before it. The trace grows at its end, so a guard speaks
about a run as far as it has gone.
-/

namespace FoundationDbEffect.Foundation

variable {ε : Type*}

def Guarded (P : List ε → ε → Prop) : List ε → List ε → Prop
  | _, [] => True
  | past, event :: rest => P past event ∧ Guarded P (past ++ [event]) rest

namespace Guarded

variable {P Q : List ε → ε → Prop}

@[simp] theorem nil (past : List ε) : Guarded P past [] := trivial

@[simp] theorem cons_iff {past rest : List ε} {event : ε} :
    Guarded P past (event :: rest) ↔ P past event ∧ Guarded P (past ++ [event]) rest :=
  Iff.rfl

theorem append_iff {past first second : List ε} :
    Guarded P past (first ++ second) ↔
      Guarded P past first ∧ Guarded P (past ++ first) second := by
  induction first generalizing past with
  | nil => simp
  | cons event rest ih => simp [ih, and_assoc]

theorem append {past first second : List ε} (h : Guarded P past first)
    (h' : Guarded P (past ++ first) second) : Guarded P past (first ++ second) :=
  append_iff.mpr ⟨h, h'⟩

theorem of_forall {past trace : List ε} (h : ∀ later, ∀ event ∈ trace, P (past ++ later) event) :
    Guarded P past trace := by
  induction trace generalizing past with
  | nil => trivial
  | cons event rest ih =>
      refine ⟨by simpa using h [] event (by simp), ih ?_⟩
      intro later event' hmem
      simpa using h (event :: later) event' (List.mem_cons_of_mem _ hmem)

theorem at_split {past pre post : List ε} {event : ε}
    (h : Guarded P past (pre ++ event :: post)) : P (past ++ pre) event :=
  (cons_iff.mp (append_iff.mp h).2).1

end Guarded

end FoundationDbEffect.Foundation
