import Mathlib.Logic.Basic

/-!
# Labelled transition systems

A run carries the labels of its steps, oldest first. What every step of a run preserves holds
at its end, and what every step relates holds between its ends.
-/

namespace FoundationDbEffect.Foundation

variable {σ τ : Type*} {step : σ → τ → σ → Prop}

inductive Run (step : σ → τ → σ → Prop) : σ → List τ → σ → Prop where
  | nil (state : σ) : Run step state [] state
  | snoc {start state next : σ} {labels : List τ} {label : τ} (h : Run step start labels state)
      (hstep : step state label next) : Run step start (labels ++ [label]) next

namespace Run

theorem single {state next : σ} {label : τ} (h : step state label next) :
    Run step state [label] next :=
  .snoc (.nil state) h

theorem cons {start state finish : σ} {labels : List τ} {label : τ}
    (hstep : step start label state) (hrun : Run step state labels finish) :
    Run step start (label :: labels) finish := by
  induction hrun with
  | nil => exact single hstep
  | snoc _ hlast ih => exact ih.snoc hlast

theorem split {start finish : σ} {first second : List τ}
    (hrun : Run step start (first ++ second) finish) :
    ∃ middle, Run step start first middle ∧ Run step middle second finish := by
  generalize hlabels : first ++ second = labels at hrun
  induction hrun generalizing second with
  | nil =>
      obtain ⟨rfl, rfl⟩ := List.append_eq_nil_iff.mp hlabels
      exact ⟨_, .nil _, .nil _⟩
  | snoc hbefore hlast ih =>
      rcases List.eq_nil_or_concat second with rfl | ⟨earlier, label, rfl⟩
      · refine ⟨_, ?_, .nil _⟩
        rw [← List.append_nil first, hlabels]
        exact hbefore.snoc hlast
      · rw [List.concat_eq_append, ← List.append_assoc] at hlabels
        obtain ⟨rfl, hlabel⟩ := List.append_inj' hlabels rfl
        obtain rfl : label = _ := List.singleton_inj.mp hlabel
        obtain ⟨middle, hfirst, hsecond⟩ := ih rfl
        rw [List.concat_eq_append]
        exact ⟨middle, hfirst, hsecond.snoc hlast⟩

theorem eq_of_nil {start finish : σ} (hrun : Run step start [] finish) : finish = start := by
  generalize hlabels : [] = labels at hrun
  cases hrun with
  | nil => rfl
  | snoc _ _ => simp at hlabels

theorem eq_of_singleton {start finish : σ} {label : τ} (hrun : Run step start [label] finish) :
    step start label finish := by
  generalize hlabels : [label] = labels at hrun
  cases hrun with
  | nil => simp at hlabels
  | @snoc state next labels last hbefore hlast =>
      have hsplit : [] ++ [label] = labels ++ [last] := hlabels
      obtain ⟨rfl, hlabel⟩ := List.append_inj' hsplit rfl
      obtain rfl := List.singleton_inj.mp hlabel
      obtain rfl := hbefore.eq_of_nil
      exact hlast

theorem head {start finish : σ} {label : τ} {labels : List τ}
    (hrun : Run step start (label :: labels) finish) :
    ∃ next, step start label next ∧ Run step next labels finish := by
  rw [← List.singleton_append] at hrun
  obtain ⟨next, hfirst, hrest⟩ := hrun.split
  exact ⟨next, hfirst.eq_of_singleton, hrest⟩

theorem map {σ' τ' : Type*} {step' : σ' → τ' → σ' → Prop} {f : σ → σ'} {g : τ → τ'}
    (hstep : ∀ state label next, step state label next → step' (f state) (g label) (f next))
    {start finish : σ} {labels : List τ} (hrun : Run step start labels finish) :
    Run step' (f start) (labels.map g) (f finish) := by
  induction hrun with
  | nil => exact .nil _
  | snoc _ hlast ih =>
      rw [List.map_append]
      exact ih.snoc (hstep _ _ _ hlast)

theorem mono {step' : σ → τ → σ → Prop}
    (hstep : ∀ state label next, step state label next → step' state label next)
    {start finish : σ} {labels : List τ} (hrun : Run step start labels finish) :
    Run step' start labels finish := by
  induction hrun with
  | nil => exact .nil _
  | snoc _ hlast ih => exact ih.snoc (hstep _ _ _ hlast)

/-- The invariant rule, for runs whose labels are all allowed. -/
theorem invariant {P : σ → Prop} {A : τ → Prop}
    (hstep : ∀ state label next, A label → step state label next → P state → P next)
    {start finish : σ} {labels : List τ} (hrun : Run step start labels finish)
    (hlabels : ∀ label ∈ labels, A label) (hstart : P start) : P finish := by
  induction hrun with
  | nil => exact hstart
  | snoc _ hlast ih =>
      refine hstep _ _ _ (hlabels _ (by simp)) hlast (ih ?_)
      intro label hmem
      exact hlabels label (List.mem_append_left _ hmem)

end Run

end FoundationDbEffect.Foundation
