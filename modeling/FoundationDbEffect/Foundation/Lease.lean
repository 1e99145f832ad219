import FoundationDbEffect.Foundation.Transition
import Mathlib.Algebra.Order.Monoid.Unbundled.Basic

/-!
# Leases

A lease has at most one owner and an expiry. Its owner may renew it at any time, everybody
else may take it strictly after its expiry, and only its owner releases it. The clock of a
run never goes back.
-/

namespace FoundationDbEffect.Foundation

structure LeaseTerm (α τ : Type*) where
  owner : α
  expiresAt : τ

inductive LeaseAction (α : Type*) where
  | acquire (owner : α)
  | refresh (owner : α)
  | release (owner : α)
  | other

def LeaseAction.Grants {α : Type*} (action : LeaseAction α) (owner : α) : Prop :=
  action = .acquire owner ∨ action = .refresh owner

structure LeaseState (α τ : Type*) where
  clock : τ
  lease : Option (LeaseTerm α τ)

variable {α τ : Type*}

namespace LeaseState

def OwnedBy (state : LeaseState α τ) (owner : α) : Prop :=
  ∃ term, state.lease = some term ∧ term.owner = owner

/-- What an owner relies on until a time: the lease is its own, and lasts that long. -/
def HeldUntil [LE τ] (state : LeaseState α τ) (owner : α) (time : τ) : Prop :=
  ∃ term, state.lease = some term ∧ term.owner = owner ∧ time ≤ term.expiresAt

theorem owner_eq {state : LeaseState α τ} {first second : α} (hfirst : state.OwnedBy first)
    (hsecond : state.OwnedBy second) : first = second := by
  obtain ⟨term, hlease, rfl⟩ := hfirst
  obtain ⟨term', hlease', rfl⟩ := hsecond
  rw [hlease] at hlease'
  rw [Option.some.inj hlease']

theorem HeldUntil.ownedBy [LE τ] {state : LeaseState α τ} {owner : α} {time : τ}
    (hheld : state.HeldUntil owner time) : state.OwnedBy owner := by
  obtain ⟨term, hlease, howner, _⟩ := hheld
  exact ⟨term, hlease, howner⟩

end LeaseState

variable [Add τ] [LinearOrder τ]

inductive LeaseStep (expiration : τ) :
    LeaseState α τ → τ × LeaseAction α → LeaseState α τ → Prop where
  | acquire {state : LeaseState α τ} {now : τ} {owner : α} (hclock : state.clock ≤ now)
      (hfree : ∀ term, state.lease = some term → term.owner = owner ∨ term.expiresAt < now) :
      LeaseStep expiration state (now, .acquire owner) ⟨now, some ⟨owner, now + expiration⟩⟩
  | refresh {state : LeaseState α τ} {now : τ} {owner : α} (hclock : state.clock ≤ now)
      (howned : state.OwnedBy owner) :
      LeaseStep expiration state (now, .refresh owner) ⟨now, some ⟨owner, now + expiration⟩⟩
  | release {state : LeaseState α τ} {now : τ} {owner : α} (hclock : state.clock ≤ now)
      (howned : state.OwnedBy owner) :
      LeaseStep expiration state (now, .release owner) ⟨now, none⟩
  | releaseOther {state : LeaseState α τ} {now : τ} {owner : α} (hclock : state.clock ≤ now)
      (howned : ¬state.OwnedBy owner) :
      LeaseStep expiration state (now, .release owner) ⟨now, state.lease⟩
  | other {state : LeaseState α τ} {now : τ} (hclock : state.clock ≤ now) :
      LeaseStep expiration state (now, .other) ⟨now, state.lease⟩

namespace LeaseStep

variable {expiration now : τ} {state next : LeaseState α τ} {action : LeaseAction α}
  {owner other : α}

theorem clock_le (hstep : LeaseStep expiration state (now, action) next) :
    state.clock ≤ now := by
  cases hstep <;> assumption

theorem clock_eq (hstep : LeaseStep expiration state (now, action) next) : next.clock = now := by
  cases hstep <;> rfl

theorem heldUntil (hstep : LeaseStep expiration state (now, action) next)
    (hgrants : action.Grants owner) : next.HeldUntil owner (now + expiration) := by
  rcases hgrants with rfl | rfl <;> cases hstep <;> exact ⟨_, rfl, rfl, le_refl _⟩

theorem grants_eq {time : τ} (hstep : LeaseStep expiration state (now, action) next)
    (hheld : state.HeldUntil owner time) (hnow : now ≤ time) (hgrants : action.Grants other) :
    other = owner := by
  have howned := hheld.ownedBy
  obtain ⟨term, hlease, howner, htime⟩ := hheld
  rcases hgrants with rfl | rfl
  · cases hstep with
    | acquire _ hfree =>
        rcases hfree term hlease with h | h
        · exact h.symm.trans howner
        · exact absurd (hnow.trans htime) (not_le_of_gt h)
  · cases hstep with
    | refresh _ howned' => exact LeaseState.owner_eq howned' howned

theorem keeps_heldUntil [AddRightMono τ] {granted : τ}
    (hstep : LeaseStep expiration state (now, action) next)
    (hheld : state.HeldUntil owner (granted + expiration)) (hgranted : granted ≤ now)
    (hnow : now ≤ granted + expiration) (haction : action ≠ .release owner) :
    next.HeldUntil owner (granted + expiration) := by
  have hgrants : ∀ other, action.Grants other → other = owner := fun _ =>
    hstep.grants_eq hheld hnow
  have howned := hheld.ownedBy
  have hrenewed : granted + expiration ≤ now + expiration := add_le_add_left hgranted expiration
  cases hstep with
  | acquire _ _ =>
      obtain rfl := hgrants _ (.inl rfl)
      exact ⟨_, rfl, rfl, hrenewed⟩
  | refresh _ _ =>
      obtain rfl := hgrants _ (.inr rfl)
      exact ⟨_, rfl, rfl, hrenewed⟩
  | release _ howned' => exact absurd (LeaseState.owner_eq howned' howned ▸ rfl) haction
  | releaseOther _ _ => exact hheld
  | other _ => exact hheld

theorem keeps_not_ownedBy (hstep : LeaseStep expiration state (now, action) next)
    (howned : ¬state.OwnedBy owner) (haction : action ≠ .acquire owner) :
    ¬next.OwnedBy owner := by
  cases hstep with
  | acquire _ _ =>
      rintro ⟨term, hterm, rfl⟩
      cases hterm
      exact haction rfl
  | refresh _ howned' =>
      rintro ⟨term, hterm, rfl⟩
      cases hterm
      exact howned howned'
  | release _ _ =>
      rintro ⟨_, hterm, _⟩
      cases hterm
  | releaseOther _ _ => exact howned
  | other _ => exact howned

end LeaseStep

namespace LeaseState

variable {expiration : τ} {start finish : LeaseState α τ}
  {labels before middle after : List (τ × LeaseAction α)} {first second : τ × LeaseAction α}
  {owner other : α}

theorem clock_le_of_run (hrun : Run (LeaseStep expiration) start labels finish) :
    start.clock ≤ finish.clock := by
  refine hrun.invariant (P := fun state => start.clock ≤ state.clock) ?_
    (A := fun _ => True) (fun _ _ => trivial) (le_refl _)
  intro state label next _ hstep hclock
  rw [hstep.clock_eq]
  exact hclock.trans hstep.clock_le

theorem heldUntil_of_run [AddRightMono τ] {granted : τ}
    (hrun : Run (LeaseStep expiration) start labels finish)
    (hstart : start.HeldUntil owner (granted + expiration)) (hgranted : granted ≤ start.clock)
    (hfinish : finish.clock ≤ granted + expiration)
    (hlabels : ∀ label ∈ labels, label.2 ≠ .release owner) :
    finish.HeldUntil owner (granted + expiration) := by
  induction hrun with
  | nil => exact hstart
  | @snoc state next labels label hbefore hlast ih =>
      have hclock : state.clock ≤ label.1 := hlast.clock_le
      rw [hlast.clock_eq] at hfinish
      have hheld : state.HeldUntil owner (granted + expiration) := by
        apply ih (hclock.trans hfinish)
        intro label' hlabel'
        exact hlabels label' (List.mem_append_left _ hlabel')
      have hnow : granted ≤ label.1 := hgranted.trans ((clock_le_of_run hbefore).trans hclock)
      exact hlast.keeps_heldUntil hheld hnow hfinish (hlabels label (by simp))

/-- Two owners are granted a lease within one term only if the first has released it. -/
theorem release_of_grants [AddRightMono τ]
    (hrun : Run (LeaseStep expiration) start (before ++ first :: (middle ++ second :: after)) finish)
    (hfirst : first.2.Grants owner) (hsecond : second.2.Grants other) (hne : other ≠ owner)
    (htime : second.1 ≤ first.1 + expiration) :
    ∃ label ∈ middle, label.2 = .release owner := by
  by_contra hmiddle
  push Not at hmiddle
  obtain ⟨_, _, hrest⟩ := hrun.split
  obtain ⟨held, hgrant, hrest⟩ := hrest.head
  obtain ⟨later, hmid, hrest⟩ := hrest.split
  obtain ⟨_, hother, _⟩ := hrest.head
  have hclock : held.clock = first.1 := hgrant.clock_eq
  have hlater := heldUntil_of_run hmid (hgrant.heldUntil hfirst) hclock.ge
    (hother.clock_le.trans htime) hmiddle
  exact hne (hother.grants_eq hlater htime hsecond)

theorem acquire_of_refresh
    (hrun : Run (LeaseStep expiration) start (before ++ first :: (middle ++ second :: after)) finish)
    (hfirst : first.2.Grants other) (hsecond : second.2 = .refresh owner) (hne : other ≠ owner) :
    ∃ label ∈ middle, label.2 = .acquire owner := by
  by_contra hmiddle
  push Not at hmiddle
  obtain ⟨_, _, hrest⟩ := hrun.split
  obtain ⟨taken, hgrant, hrest⟩ := hrest.head
  obtain ⟨later, hmid, hrest⟩ := hrest.split
  obtain ⟨_, hrefresh, _⟩ := hrest.head
  have htaken : ¬taken.OwnedBy owner := by
    intro howned
    exact hne (owner_eq (hgrant.heldUntil hfirst).ownedBy howned)
  have hlater : ¬later.OwnedBy owner := by
    refine hmid.invariant (P := fun state => ¬state.OwnedBy owner)
      (A := fun label => label.2 ≠ .acquire owner) ?_ hmiddle htaken
    intro state label next hlabel hstep howned
    exact hstep.keeps_not_ownedBy howned hlabel
  obtain ⟨now, action⟩ := second
  obtain rfl : action = .refresh owner := hsecond
  cases hrefresh with
  | refresh _ howned => exact hlater howned

end LeaseState

end FoundationDbEffect.Foundation
