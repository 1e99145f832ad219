import Mathlib.Data.List.Forall2

/-!
# Computations that may fail

Rules to take a computation in `Except` apart: a sequence of steps, a loop over a list, and a
map over one.
-/

namespace FoundationDbEffect.Foundation

universe u

theorem bind_eq_ok {ε : Type*} {σ τ : Type u} {action : Except ε σ} {next : σ → Except ε τ}
    {result : τ} :
    action >>= next = .ok result ↔
      ∃ middle, action = .ok middle ∧ next middle = .ok result := by
  cases action with
  | error cause => exact ⟨nofun, nofun⟩
  | ok middle =>
      constructor
      · intro h
        exact ⟨middle, rfl, h⟩
      · rintro ⟨_, ⟨⟩, h⟩
        exact h

theorem bind_eq_error {ε : Type*} {σ τ : Type u} {action : Except ε σ} {next : σ → Except ε τ}
    {cause : ε} :
    action >>= next = .error cause ↔
      action = .error cause ∨ ∃ middle, action = .ok middle ∧ next middle = .error cause := by
  cases action with
  | error _ =>
      constructor
      · rintro ⟨⟩
        exact .inl rfl
      · rintro (⟨⟨⟩⟩ | ⟨_, ⟨⟩, _⟩)
        rfl
  | ok middle =>
      constructor
      · intro h
        exact .inr ⟨middle, rfl, h⟩
      · rintro (⟨⟨⟩⟩ | ⟨_, ⟨⟩, h⟩)
        exact h

theorem bind_congr_ok {ε : Type*} {σ τ : Type u} {action : Except ε σ}
    {next next' : σ → Except ε τ} (h : ∀ middle, action = .ok middle → next middle = next' middle) :
    action >>= next = action >>= next' := by
  cases action with
  | error _ => rfl
  | ok middle => exact h middle rfl

/-- The rule of the causes a loop over a list can fail with. -/
theorem foldlM_error {ε : Type*} {σ : Type u} {τ : Type*} {step : σ → τ → Except ε σ}
    {P : ε → Prop} (hstep : ∀ state element cause, step state element = .error cause → P cause)
    {elements : List τ} {state : σ} {cause : ε} (h : elements.foldlM step state = .error cause) :
    P cause := by
  induction elements generalizing state with
  | nil => cases h
  | cons element elements ih =>
      rcases bind_eq_error.mp h with hfirst | ⟨middle, -, hrest⟩
      · exact hstep state element cause hfirst
      · exact ih hrest

/-- The rule of a loop over a list, each step of which succeeds. -/
theorem foldlM_rule {ε : Type*} {σ : Type u} {τ : Type*} {step : σ → τ → Except ε σ}
    {P : σ → Prop} (hstep : ∀ state element, P state → ∃ next, step state element = .ok next ∧ P next)
    (elements : List τ) {state : σ} (hstart : P state) :
    ∃ finish, elements.foldlM step state = .ok finish ∧ P finish := by
  induction elements generalizing state with
  | nil => exact ⟨state, rfl, hstart⟩
  | cons element elements ih =>
      obtain ⟨middle, hmiddle, hnext⟩ := hstep state element hstart
      obtain ⟨finish, hfinish, hP⟩ := ih hnext
      exact ⟨finish, bind_eq_ok.mpr ⟨middle, hmiddle, hfinish⟩, hP⟩

/-- The rule of a loop whose steps need to know which element they are for. -/
theorem foldlM_rule_of_mem {ε : Type*} {σ : Type u} {τ : Type*} {step : σ → τ → Except ε σ}
    {P : σ → Prop} {elements : List τ}
    (hstep : ∀ state, ∀ element ∈ elements, P state →
      ∃ next, step state element = .ok next ∧ P next) {state : σ} (hstart : P state) :
    ∃ finish, elements.foldlM step state = .ok finish ∧ P finish := by
  induction elements generalizing state with
  | nil => exact ⟨state, rfl, hstart⟩
  | cons element elements ih =>
      obtain ⟨middle, hmiddle, hnext⟩ := hstep state element List.mem_cons_self hstart
      have hrest (state : σ) (other : τ) (hother : other ∈ elements) (hP : P state) :
          ∃ next, step state other = .ok next ∧ P next :=
        hstep state other (List.mem_cons_of_mem _ hother) hP
      obtain ⟨finish, hfinish, hP⟩ := ih hrest hnext
      exact ⟨finish, bind_eq_ok.mpr ⟨middle, hmiddle, hfinish⟩, hP⟩

section Map

variable {ε α β : Type} {f : α → Except ε β} {elements : List α}

theorem forall₂_of_mapM {results : List β} (h : elements.mapM f = .ok results) :
    List.Forall₂ (fun element result => f element = .ok result) elements results := by
  induction elements generalizing results with
  | nil =>
      cases h
      exact .nil
  | cons element elements ih =>
      rw [List.mapM_cons] at h
      obtain ⟨result, hresult, h⟩ := bind_eq_ok.mp h
      obtain ⟨rest, hrest, h⟩ := bind_eq_ok.mp h
      cases h
      exact .cons hresult (ih hrest)

theorem mapM_of_forall₂ {results : List β}
    (h : List.Forall₂ (fun element result => f element = .ok result) elements results) :
    elements.mapM f = .ok results := by
  induction h with
  | nil => rfl
  | cons hfirst _ ih =>
      rw [List.mapM_cons]
      exact bind_eq_ok.mpr ⟨_, hfirst, bind_eq_ok.mpr ⟨_, ih, rfl⟩⟩

theorem exists_of_mem_mapM {results : List β} (h : elements.mapM f = .ok results) {result : β}
    (hmem : result ∈ results) : ∃ element ∈ elements, f element = .ok result := by
  have hall := forall₂_of_mapM h
  clear h
  induction hall with
  | nil => cases hmem
  | cons hfirst _ ih =>
      rcases List.mem_cons.mp hmem with rfl | hrest
      · exact ⟨_, List.mem_cons_self, hfirst⟩
      · obtain ⟨element, helement, hresult⟩ := ih hrest
        exact ⟨element, List.mem_cons_of_mem _ helement, hresult⟩

theorem mapM_congr {g : α → Except ε β} (h : ∀ element ∈ elements, f element = g element) :
    elements.mapM f = elements.mapM g := by
  induction elements with
  | nil => rfl
  | cons element elements ih =>
      rw [List.mapM_cons, List.mapM_cons, h element List.mem_cons_self, ih]
      intro other hother
      exact h other (List.mem_cons_of_mem _ hother)

end Map

end FoundationDbEffect.Foundation
