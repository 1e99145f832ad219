import FoundationDbEffect.Native.BridgeSteps
import FoundationDbEffect.Native.Lifecycle
import Mathlib.Data.Finset.Card

/-!
# Owners of the runtime

The runtime counts its owners: a driver is one from its initialization until its release has
counted it off or has stopped the runtime. Releases are serialized, so a shared one still
finds the runtime and another owner when its barrier is passed.
-/

namespace FoundationDbEffect.Native

open FoundationDbEffect.Foundation

def Shutdown.isOwner : Shutdown → Bool
  | .called | .shared _ | .barrier _ => true
  | _ => false

def DriverPhase.isOwner : DriverPhase → Bool
  | .initialized | .ready | .draining _ => true
  | .shutting stage => stage.isOwner
  | _ => false

def Lifecycle.owners : Lifecycle → Nat
  | .running _ owners => owners
  | _ => 0

def Counted (phases : Nat → DriverPhase) (count : Nat) : Prop :=
  ∃ owners : Finset Nat, (∀ driver, driver ∈ owners ↔ (phases driver).isOwner) ∧ owners.card = count

section Counting

variable {driver : Nat} {phase : DriverPhase} {count : Nat}

theorem Counted.keep {phases : Nat → DriverPhase} (h : Counted phases count)
    (howner : phase.isOwner = (phases driver).isOwner) :
    Counted (Function.update phases driver phase) count := by
  obtain ⟨owners, hmem, hcard⟩ := h
  refine ⟨owners, ?_, hcard⟩
  intro other
  rw [hmem]
  by_cases heq : other = driver
  · rw [heq, Function.update_self, howner]
  · rw [Function.update_of_ne heq]

theorem Counted.join {phases : Nat → DriverPhase} (h : Counted phases count)
    (hnew : (phases driver).isOwner = false) (howner : phase.isOwner) :
    Counted (Function.update phases driver phase) (count + 1) := by
  obtain ⟨owners, hmem, hcard⟩ := h
  have hnotin : driver ∉ owners := by simp [hmem, hnew]
  refine ⟨insert driver owners, ?_, by rw [Finset.card_insert_of_notMem hnotin, hcard]⟩
  intro other
  by_cases heq : other = driver
  · simp [heq, howner]
  · simp [heq, hmem]

theorem Counted.leave {phases : Nat → DriverPhase} (h : Counted phases count)
    (howner : (phases driver).isOwner) (hleft : phase.isOwner = false) :
    Counted (Function.update phases driver phase) (count - 1) := by
  obtain ⟨owners, hmem, hcard⟩ := h
  refine ⟨owners.erase driver, ?_,
    by rw [Finset.card_erase_of_mem ((hmem driver).mpr howner), hcard]⟩
  intro other
  by_cases heq : other = driver
  · simp [heq, hleft]
  · simp [heq, hmem]

end Counting

/-- The owners are counted, and a release that holds the lock finds what it has read. -/
structure OwnerInv (system : System) : Prop where
  counted : Counted system.phase system.bridge.lifecycle.owners
  positive : ∀ runtime owners, system.bridge.lifecycle = .running runtime owners → 0 < owners
  locked : ∀ driver stage, system.phase driver = .shutting stage → stage.holdsLock →
    system.bridge.ownerRelease = some driver
  shared : ∀ driver runtime, system.phase driver = .shutting (.shared runtime) ∨
      system.phase driver = .shutting (.barrier runtime) →
    ∃ owners, system.bridge.lifecycle = .running runtime owners ∧ 1 < owners

theorem OwnerInv.empty : OwnerInv .empty where
  counted := ⟨∅, by simp [System.empty, DriverPhase.isOwner], rfl⟩
  positive := nofun
  locked := nofun
  shared := by simp [System.empty]

section Requests

variable {system next : System} {events : List Event}

theorem OwnerInv.of_eq (h : OwnerInv system) (hphase : next.phase = system.phase)
    (hlifecycle : next.bridge.lifecycle = system.bridge.lifecycle)
    (hrelease : next.bridge.ownerRelease = system.bridge.ownerRelease) : OwnerInv next where
  counted := by
    rw [hphase, hlifecycle]
    exact h.counted
  positive := by
    rw [hlifecycle]
    exact h.positive
  locked := by
    rw [hphase, hrelease]
    exact h.locked
  shared := by
    rw [hphase, hlifecycle]
    exact h.shared

theorem OwnerInv.requestStep (h : OwnerInv system)
    (hstep : System.RequestStep system events next) : OwnerInv next :=
  let ⟨hphase, hlifecycle, hrelease⟩ := hstep.frame
  h.of_eq hphase hlifecycle hrelease

end Requests

section Steps

variable {system : System} {driver : Nat}

theorem OwnerInv.unlocked (h : OwnerInv system) {phase : DriverPhase} {next : System}
    (hphase : next.phase = Function.update system.phase driver phase)
    (hstage : ∀ stage, phase = .shutting stage → stage.holdsLock = false)
    (hcounted : Counted next.phase next.bridge.lifecycle.owners)
    (hpositive : ∀ runtime owners, next.bridge.lifecycle = .running runtime owners → 0 < owners)
    (hlocked : ∀ other, other ≠ driver → system.bridge.ownerRelease = some other →
      next.bridge.ownerRelease = some other)
    (hshared : ∀ other runtime owners, other ≠ driver → system.bridge.ownerRelease = some other →
      system.bridge.lifecycle = .running runtime owners → 1 < owners →
      ∃ owners, next.bridge.lifecycle = .running runtime owners ∧ 1 < owners) : OwnerInv next where
  counted := hcounted
  positive := hpositive
  locked := by
    intro other stage hother hholds
    rw [hphase] at hother
    by_cases heq : other = driver
    · rw [heq, Function.update_self] at hother
      rw [hstage stage hother] at hholds
      cases hholds
    · rw [Function.update_of_ne heq] at hother
      exact hlocked other heq (h.locked other stage hother hholds)
  shared := by
    intro other runtime hother
    rw [hphase] at hother
    by_cases heq : other = driver
    · rw [heq, Function.update_self] at hother
      rcases hother with hother | hother <;> cases hstage _ hother
    · rw [Function.update_of_ne heq] at hother
      obtain ⟨owners, hrunning, howners⟩ := h.shared other runtime hother
      refine hshared other runtime owners heq ?_ hrunning howners
      rcases hother with hother | hother
      · exact h.locked other _ hother rfl
      · exact h.locked other _ hother rfl

/-- The invariant after a step of the driver whose release holds the lock. -/
theorem OwnerInv.holding (h : OwnerInv system) {stage : Shutdown} {next : System}
    (hphase : next.phase = Function.update system.phase driver (.shutting stage))
    (hfree : ∀ other, other ≠ driver → system.bridge.ownerRelease ≠ some other)
    (hlock : next.bridge.ownerRelease = some driver)
    (hcounted : Counted next.phase next.bridge.lifecycle.owners)
    (hpositive : ∀ runtime owners, next.bridge.lifecycle = .running runtime owners → 0 < owners)
    (hshared : ∀ runtime, stage = .shared runtime ∨ stage = .barrier runtime →
      ∃ owners, next.bridge.lifecycle = .running runtime owners ∧ 1 < owners) : OwnerInv next where
  counted := hcounted
  positive := hpositive
  locked := by
    intro other stage' hother hholds
    rw [hphase] at hother
    by_cases heq : other = driver
    · rw [heq, hlock]
    · rw [Function.update_of_ne heq] at hother
      exact absurd (h.locked other stage' hother hholds) (hfree other heq)
  shared := by
    intro other runtime hother
    rw [hphase] at hother
    by_cases heq : other = driver
    · rw [heq, Function.update_self] at hother
      simp only [DriverPhase.shutting.injEq] at hother
      exact hshared runtime hother
    · rw [Function.update_of_ne heq] at hother
      rcases hother with hother | hother
      · exact absurd (h.locked other _ hother rfl) (hfree other heq)
      · exact absurd (h.locked other _ hother rfl) (hfree other heq)

end Steps

/-! ## Releases -/

section Release

variable {system : System} {driver : Nat}

theorem OwnerInv.running (h : OwnerInv system) (howner : (system.phase driver).isOwner) :
    ∃ runtime owners, system.bridge.lifecycle = .running runtime owners := by
  obtain ⟨owners, hmem, hcard⟩ := h.counted
  have hpos : 0 < owners.card := Finset.card_pos.mpr ⟨driver, (hmem driver).mpr howner⟩
  cases hlifecycle : system.bridge.lifecycle with
  | running runtime owners => exact ⟨runtime, owners, rfl⟩
  | uninitialized => simp [hlifecycle, Lifecycle.owners] at hcard; simp [hcard] at hpos
  | failed error => simp [hlifecycle, Lifecycle.owners] at hcard; simp [hcard] at hpos
  | stopped => simp [hlifecycle, Lifecycle.owners] at hcard; simp [hcard] at hpos

/-- What a release can do in one step, when the owners are counted. -/
inductive ReleaseStep (system : System) (driver : Nat) : Shutdown → Shutdown → Bridge → Prop where
  | shared (runtime : Runtime) (owners : Nat)
      (hrunning : system.bridge.lifecycle = .running runtime owners) (howners : 1 < owners)
      (hlock : system.bridge.ownerRelease = none) :
      ReleaseStep system driver .called (.shared runtime)
        { system.bridge with ownerRelease := some driver }
  | final (runtime : Runtime) (hrunning : system.bridge.lifecycle = .running runtime 1)
      (hlock : system.bridge.ownerRelease = none) :
      ReleaseStep system driver .called .final
        { system.bridge with ownerRelease := some driver, lifecycle := .stopped }
  | barrier (runtime : Runtime) :
      ReleaseStep system driver (.shared runtime) (.barrier runtime)
        { system.bridge with
          barriers := Function.update system.bridge.barriers driver (some false) }
  | passed (runtime : Runtime) (owners : Nat)
      (hrunning : system.bridge.lifecycle = .running runtime owners) (howners : 1 < owners)
      (hbarrier : system.bridge.barriers driver = some true) :
      ReleaseStep system driver (.barrier runtime) (.returned 0)
        { system.bridge with
          lifecycle := .running runtime (owners - 1)
          ownerRelease := none }
  | stopAccepting :
      ReleaseStep system driver .final .cancelling { system.bridge with accepting := false }
  | cancelAll :
      ReleaseStep system driver .cancelling .waiting (system.bridge.cancelAsync fun _ => true)
  | idle (hidle : system.bridge.active = 0) :
      ReleaseStep system driver .waiting .joining system.bridge
  | join (hpolled : system.bridge.polled = none) :
      ReleaseStep system driver .joining (.returned 0)
        { system.bridge with executorRunning := false, ownerRelease := none }

theorem OwnerInv.release_cases (h : OwnerInv system) {stage stage' : Shutdown} {bridge : Bridge}
    (hphase : system.phase driver = .shutting stage)
    (hstage : system.bridge.shutdownStep driver stage = some (stage', bridge)) :
    ReleaseStep system driver stage stage' bridge := by
  cases shutdownStep_cases hstage with
  | shared runtime owners hlock hrunning howners =>
      exact .shared runtime owners hrunning howners hlock
  | final runtime owners hlock hrunning howners =>
      have hpos := h.positive runtime owners hrunning
      obtain rfl : owners = 1 := by omega
      exact .final runtime hrunning hlock
  | idle code hlock hidle =>
      have howner : (system.phase driver).isOwner := by
        rw [hphase]
        rfl
      obtain ⟨runtime, owners, hrunning⟩ := h.running howner
      exact absurd hrunning (hidle runtime owners)
  | barrier runtime => exact .barrier runtime
  | passed runtime owners hbarrier hrunning howners =>
      exact .passed runtime owners hrunning howners hbarrier
  | failed runtime hfailed =>
      obtain ⟨owners, hrunning, howners⟩ := h.shared driver runtime (.inr hphase)
      exact absurd (hfailed owners hrunning) (not_le.mpr howners)
  | stopAccepting => exact .stopAccepting
  | cancelAll => exact .cancelAll
  | waited hactive => exact .idle hactive
  | join hpolled => exact .join hpolled

theorem OwnerInv.releaseStep (h : OwnerInv system) {stage stage' : Shutdown} {bridge : Bridge}
    (hphase : system.phase driver = .shutting stage)
    (hstep : ReleaseStep system driver stage stage' bridge) :
    OwnerInv { system.setPhase driver (.shutting stage') with bridge } := by
  have hheld : stage.holdsLock → ∀ other, other ≠ driver →
      system.bridge.ownerRelease ≠ some other := by
    intro hholds other hne heq
    rw [h.locked driver stage hphase hholds] at heq
    exact hne (Option.some.inj heq).symm
  cases hstep with
  | shared runtime owners hrunning howners hlock =>
      refine h.holding rfl (by simp [hlock]) rfl (h.counted.keep (by rw [hphase]; rfl)) h.positive ?_
      rintro _ (⟨⟨⟩⟩ | ⟨⟨⟩⟩)
      exact ⟨owners, hrunning, howners⟩
  | final runtime hrunning hlock =>
      have hleave : Counted (Function.update system.phase driver (.shutting .final))
          (system.bridge.lifecycle.owners - 1) :=
        h.counted.leave (by rw [hphase]; rfl) rfl
      rw [hrunning] at hleave
      exact h.holding rfl (by simp [hlock]) rfl hleave nofun (by simp)
  | barrier runtime =>
      refine h.holding rfl (hheld rfl) (h.locked driver _ hphase rfl)
        (h.counted.keep (by rw [hphase]; rfl)) h.positive ?_
      rintro _ (⟨⟨⟩⟩ | ⟨⟨⟩⟩)
      exact h.shared driver runtime (.inl hphase)
  | passed runtime owners hrunning howners hbarrier =>
      have hleave : Counted (Function.update system.phase driver (.shutting (.returned 0)))
          (system.bridge.lifecycle.owners - 1) :=
        h.counted.leave (by rw [hphase]; rfl) rfl
      rw [hrunning] at hleave
      refine h.unlocked rfl (by rintro _ ⟨⟩; rfl) hleave ?_ ?_ ?_
      · rintro _ _ ⟨⟩
        omega
      · intro other hne heq
        exact absurd heq (hheld rfl other hne)
      · intro other _ _ hne heq
        exact absurd heq (hheld rfl other hne)
  | stopAccepting =>
      exact h.holding rfl (hheld rfl) (h.locked driver _ hphase rfl)
        (h.counted.keep (by rw [hphase]; rfl)) h.positive (by simp)
  | cancelAll =>
      exact h.holding rfl (hheld rfl) (h.locked driver _ hphase rfl)
        (h.counted.keep (by rw [hphase]; rfl)) h.positive (by simp)
  | idle _ =>
      exact h.holding rfl (hheld rfl) (h.locked driver _ hphase rfl)
        (h.counted.keep (by rw [hphase]; rfl)) h.positive (by simp)
  | join _ =>
      refine h.unlocked rfl (by rintro _ ⟨⟩; rfl) (h.counted.keep (by rw [hphase]; rfl)) h.positive
        ?_ ?_
      · intro other hne heq
        exact absurd heq (hheld rfl other hne)
      · intro other _ _ hne heq
        exact absurd heq (hheld rfl other hne)

theorem OwnerInv.setPhase (h : OwnerInv system) {phase : DriverPhase}
    (howner : phase.isOwner = (system.phase driver).isOwner)
    (hstage : ∀ stage, phase = .shutting stage → stage.holdsLock = false) :
    OwnerInv (system.setPhase driver phase) :=
  h.unlocked rfl hstage (h.counted.keep howner) h.positive (fun _ _ hlock => hlock)
    fun _ _ owners _ _ hrunning howners => ⟨owners, hrunning, howners⟩

theorem OwnerInv.init (h : OwnerInv system) (apiVersion : Int) (boot : Except ErrorCode Unit)
    (hphase : system.phase driver = .opened) :
    OwnerInv { system.setPhase driver
        (if (system.bridge.init apiVersion boot).1 = 0 then .initialized else .rejected) with
      bridge := (system.bridge.init apiVersion boot).2 } := by
  have hnew : (system.phase driver).isOwner = false := by
    rw [hphase]
    rfl
  have hinitialized : Counted (Function.update system.phase driver .initialized)
      (system.bridge.lifecycle.owners + 1) := h.counted.join hnew rfl
  have hrejected : OwnerInv (system.setPhase driver .rejected) := by
    refine h.setPhase ?_ nofun
    rw [hnew]
    rfl
  have hstep := init_cases system.bridge apiVersion boot
  generalize system.bridge.init apiVersion boot = result at hstep
  cases hstep with
  | joined runtime owners hrunning =>
      rw [hrunning] at hinitialized
      refine h.unlocked rfl nofun hinitialized ?_ (fun _ _ hlock => hlock) ?_
      · rintro _ _ ⟨⟩
        omega
      · intro other runtime' owners' _ _ hrunning' howners
        rw [hrunning] at hrunning'
        cases hrunning'
        exact ⟨_, rfl, by omega⟩
  | booted runtime huninitialized =>
      rw [huninitialized] at hinitialized
      refine h.unlocked rfl nofun hinitialized ?_ (fun _ _ hlock => hlock) ?_
      · rintro _ _ ⟨⟩
        decide
      · intro other runtime' owners _ _ hrunning _
        exact nomatch huninitialized.symm.trans hrunning
  | failed error huninitialized =>
      rw [if_neg error.nonzero]
      have hkeep := hrejected.counted
      simp only [System.setPhase, huninitialized] at hkeep
      refine h.unlocked rfl nofun hkeep nofun (fun _ _ hlock => hlock) ?_
      intro other runtime owners _ _ hrunning _
      exact nomatch huninitialized.symm.trans hrunning
  | refused hcode hstarted =>
      rw [if_neg hcode]
      exact hrejected

theorem OwnerInv.driverStep {next : System} {events : List Event} (h : OwnerInv system)
    (hstep : System.DriverStep system events next) : OwnerInv next := by
  cases hstep with
  | openCallback driver hphase => exact h.setPhase (by rw [hphase]; rfl) nofun
  | init driver apiVersion boot hphase => exact h.init apiVersion boot hphase
  | acquire driver hphase => exact h.setPhase (by rw [hphase]; rfl) nofun
  | drain driver hphase =>
      have hdraining : OwnerInv (system.setPhase driver
          (.draining (system.pending.filter fun request => request.driver = driver))) := by
        refine h.setPhase ?_ nofun
        rw [hphase]
        rfl
      exact hdraining.of_eq rfl rfl rfl
  | skipDrain driver hphase =>
      exact h.setPhase (by rw [hphase]; rfl) (by rintro _ ⟨⟩; rfl)
  | release driver active hphase _ =>
      exact h.setPhase (by rw [hphase]; rfl) (by rintro _ ⟨⟩; rfl)
  | shutdownStep driver stage stage' bridge hphase hstage =>
      exact h.releaseStep hphase (h.release_cases hphase hstage)
  | close driver hphase =>
      refine h.setPhase ?_ nofun
      rcases hphase with hphase | hphase | ⟨code, hphase⟩ <;> rw [hphase] <;> rfl

end Release

end FoundationDbEffect.Native
