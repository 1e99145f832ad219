import FoundationDbEffect.Native.Bridge
import FoundationDbEffect.Foundation.Transition
import Mathlib.Data.List.Count

/-!
# The lifecycle of the runtime

Any number of callers initialize the bridge and shut it down, each as often as it likes.  The
network is booted at most once, and stopped by the release that finds a single owner.  A shared
release counts its owner off only after its barrier, when others may have come but none can have
gone, since releases are serialized.
-/

namespace FoundationDbEffect.Native

open FoundationDbEffect.Foundation

structure OwnerCalls where
  bridge : Bridge
  releases : Nat → Option Shutdown

def OwnerCalls.empty : OwnerCalls where
  bridge := .empty
  releases := fun _ => none

inductive OwnerLabel where
  | init (code : Int)
  | call (caller : Nat)
  | step (caller : Nat) (source target : Shutdown)
  | leave (caller : Nat) (code : Int)
  | other
  deriving DecidableEq

/-- One step of any caller, or of the executor and the requests, which leave the owners alone. -/
inductive OwnerStep : OwnerCalls → OwnerLabel → OwnerCalls → Prop where
  | init (state : OwnerCalls) (apiVersion : Int) (boot : Except ErrorCode Unit) :
      OwnerStep state (.init (state.bridge.init apiVersion boot).1)
        { state with bridge := (state.bridge.init apiVersion boot).2 }
  | call {state : OwnerCalls} {caller : Nat} (h : state.releases caller = none) :
      OwnerStep state (.call caller)
        { state with releases := Function.update state.releases caller (some .called) }
  | step {state : OwnerCalls} {caller : Nat} {source target : Shutdown} {bridge : Bridge}
      (h : state.releases caller = some source)
      (hstep : state.bridge.shutdownStep caller source = some (target, bridge)) :
      OwnerStep state (.step caller source target)
        { bridge, releases := Function.update state.releases caller (some target) }
  | leave {state : OwnerCalls} {caller : Nat} {code : Int}
      (h : state.releases caller = some (.returned code)) :
      OwnerStep state (.leave caller code)
        { state with releases := Function.update state.releases caller none }
  | other {state : OwnerCalls} {bridge : Bridge}
      (hlifecycle : bridge.lifecycle = state.bridge.lifecycle)
      (hrelease : bridge.ownerRelease = state.bridge.ownerRelease) :
      OwnerStep state .other { state with bridge }

namespace OwnerLabel

def initializes : OwnerLabel → Bool
  | init code => code = 0
  | _ => false

def countsOff : OwnerLabel → Bool
  | step _ (.barrier _) (.returned code) => code = 0
  | _ => false

def stops : OwnerLabel → Bool
  | step _ .called .final => true
  | _ => false

def isInit : OwnerLabel → Bool
  | init _ => true
  | _ => false

end OwnerLabel

def Shutdown.holdsLock : Shutdown → Bool
  | .called | .returned _ => false
  | _ => true

/-! ## One step of a release -/

inductive ShutdownStep (bridge : Bridge) (caller : Nat) : Shutdown → Shutdown → Bridge → Prop where
  | shared (runtime : Runtime) (owners : Nat) (hlock : bridge.ownerRelease = none)
      (hrunning : bridge.lifecycle = .running runtime owners) (howners : 1 < owners) :
      ShutdownStep bridge caller .called (.shared runtime)
        { bridge with ownerRelease := some caller }
  | final (runtime : Runtime) (owners : Nat) (hlock : bridge.ownerRelease = none)
      (hrunning : bridge.lifecycle = .running runtime owners) (howners : owners ≤ 1) :
      ShutdownStep bridge caller .called .final
        { bridge with ownerRelease := some caller, lifecycle := .stopped }
  | idle (code : Int) (hlock : bridge.ownerRelease = none)
      (hidle : ∀ runtime owners, bridge.lifecycle ≠ .running runtime owners) :
      ShutdownStep bridge caller .called (.returned code) bridge
  | barrier (runtime : Runtime) :
      ShutdownStep bridge caller (.shared runtime) (.barrier runtime)
        { bridge with barriers := Function.update bridge.barriers caller (some false) }
  | passed (runtime : Runtime) (owners : Nat) (hbarrier : bridge.barriers caller = some true)
      (hrunning : bridge.lifecycle = .running runtime owners) (howners : 1 < owners) :
      ShutdownStep bridge caller (.barrier runtime) (.returned 0)
        { bridge with lifecycle := .running runtime (owners - 1), ownerRelease := none }
  | failed (runtime : Runtime)
      (hfailed : ∀ owners, bridge.lifecycle = .running runtime owners → owners ≤ 1) :
      ShutdownStep bridge caller (.barrier runtime) (.returned EXECUTOR_FAILURE)
        { bridge with ownerRelease := none }
  | stopAccepting : ShutdownStep bridge caller .final .cancelling { bridge with accepting := false }
  | cancelAll : ShutdownStep bridge caller .cancelling .waiting (bridge.cancelAsync fun _ => true)
  | waited (hactive : bridge.active = 0) : ShutdownStep bridge caller .waiting .joining bridge
  | join (hpolled : bridge.polled = none) :
      ShutdownStep bridge caller .joining (.returned 0)
        { bridge with executorRunning := false, ownerRelease := none }

theorem shutdownStep_cases {bridge next : Bridge} {caller : Nat} {source target : Shutdown}
    (h : bridge.shutdownStep caller source = some (target, next)) :
    ShutdownStep bridge caller source target next := by
  cases source with
  | called =>
      simp only [Bridge.shutdownStep] at h
      split at h
      · rename_i hlock
        cases hlifecycle : bridge.lifecycle with
        | running runtime owners =>
            simp only [hlifecycle] at h
            split at h
            · rw [← hlifecycle] at h
              cases h
              exact .shared runtime owners hlock hlifecycle ‹_›
            · cases h
              exact .final runtime owners hlock hlifecycle (not_lt.mp ‹_›)
        | uninitialized =>
            simp only [hlifecycle] at h
            cases h
            exact .idle 0 hlock (by simp [hlifecycle])
        | failed error =>
            simp only [hlifecycle] at h
            cases h
            exact .idle error.code hlock (by simp [hlifecycle])
        | stopped =>
            simp only [hlifecycle] at h
            cases h
            exact .idle 0 hlock (by simp [hlifecycle])
      · cases h
  | shared runtime =>
      cases h
      exact .barrier runtime
  | barrier runtime =>
      simp only [Bridge.shutdownStep] at h
      split at h
      · rename_i hbarrier
        split at h
        · rename_i current owners hrunning
          split at h
          · rename_i hchanged
            cases h
            refine .failed runtime fun owners' heq => ?_
            rw [hrunning] at heq
            cases heq
            simpa using hchanged
          · rename_i hsame
            obtain ⟨rfl, howners⟩ : current = runtime ∧ 1 < owners := by simpa using hsame
            cases h
            exact .passed current owners hbarrier hrunning howners
        · rename_i hstopped
          cases h
          exact .failed runtime fun owners heq => absurd heq (hstopped runtime owners)
      · cases h
  | final =>
      cases h
      exact .stopAccepting
  | cancelling =>
      cases h
      exact .cancelAll
  | waiting =>
      simp only [Bridge.shutdownStep] at h
      split at h
      · cases h
        exact .waited ‹_›
      · cases h
  | joining =>
      simp only [Bridge.shutdownStep] at h
      split at h
      · cases h
        exact .join ‹_›
      · cases h
  | returned code => cases h

/-! ## One initialization -/

inductive InitStep (bridge : Bridge) : Int × Bridge → Prop where
  | joined (runtime : Runtime) (owners : Nat)
      (hrunning : bridge.lifecycle = .running runtime owners) :
      InitStep bridge (0, { bridge with lifecycle := .running runtime (owners + 1) })
  | booted (runtime : Runtime) (huninitialized : bridge.lifecycle = .uninitialized) :
      InitStep bridge (0, { bridge with
        lifecycle := .running runtime 1
        runtimes := bridge.runtimes + 1
        accepting := true
        active := 0
        executorRunning := true })
  | failed (error : ErrorCode) (huninitialized : bridge.lifecycle = .uninitialized) :
      InitStep bridge (error.code, { bridge with lifecycle := .failed error })
  | refused {code : Int} (hcode : code ≠ 0) (hstarted : bridge.lifecycle ≠ .uninitialized) :
      InitStep bridge (code, bridge)

theorem init_cases (bridge : Bridge) (apiVersion : Int) (boot : Except ErrorCode Unit) :
    InitStep bridge (bridge.init apiVersion boot) := by
  cases hlifecycle : bridge.lifecycle with
  | running runtime owners =>
      simp only [Bridge.init, hlifecycle]
      have hstarted : bridge.lifecycle ≠ .uninitialized := by simp [hlifecycle]
      split
      · split
        · exact .joined runtime owners hlifecycle
        · exact .refused (by decide) hstarted
      · exact .refused (by decide) hstarted
  | uninitialized =>
      simp only [Bridge.init, hlifecycle]
      cases boot with
      | error error => exact .failed error hlifecycle
      | ok _ => exact .booted ⟨bridge.runtimes, apiVersion⟩ hlifecycle
  | failed error =>
      simp only [Bridge.init, hlifecycle]
      exact .refused error.nonzero (by simp [hlifecycle])
  | stopped =>
      simp only [Bridge.init, hlifecycle]
      exact .refused (by decide) (by simp [hlifecycle])

/-! ## The invariant -/

def Lifecycle.closed : Lifecycle → Bool
  | .stopped | .failed _ => true
  | _ => false

/-- The owners are those counted on and not yet off, and a release that holds the lock still has
what it has found. -/
structure LifecycleInv (labels : List OwnerLabel) (state : OwnerCalls) : Prop where
  locked : ∀ caller stage, state.releases caller = some stage → stage.holdsLock →
    state.bridge.ownerRelease = some caller
  shared : ∀ caller runtime, state.releases caller = some (.shared runtime) ∨
      state.releases caller = some (.barrier runtime) →
    ∃ owners, state.bridge.lifecycle = .running runtime owners ∧ 1 < owners
  counted : ∀ runtime owners, state.bridge.lifecycle = .running runtime owners →
    owners + labels.countP OwnerLabel.countsOff = labels.countP OwnerLabel.initializes ∧ 1 ≤ owners
  stopped : labels.countP OwnerLabel.stops = if state.bridge.lifecycle = .stopped then 1 else 0
  unstarted : state.bridge.lifecycle = .uninitialized →
    (∀ label ∈ labels, label.isInit = false) ∧ labels.countP OwnerLabel.countsOff = 0

theorem LifecycleInv.empty : LifecycleInv [] .empty where
  locked := nofun
  shared := by simp [OwnerCalls.empty]
  counted := nofun
  stopped := rfl
  unstarted := by simp

section Steps

variable {labels : List OwnerLabel} {state : OwnerCalls} {caller : Nat}

theorem LifecycleInv.quiet (h : LifecycleInv labels state) {label : OwnerLabel}
    {next : OwnerCalls} (hlifecycle : next.bridge.lifecycle = state.bridge.lifecycle)
    (hinit : label.isInit = false) (hcounts : label.countsOff = false)
    (hstops : label.stops = false)
    (hlocked : ∀ caller stage, next.releases caller = some stage → stage.holdsLock →
      next.bridge.ownerRelease = some caller)
    (hshared : ∀ caller runtime, next.releases caller = some (.shared runtime) ∨
        next.releases caller = some (.barrier runtime) →
      ∃ owners, next.bridge.lifecycle = .running runtime owners ∧ 1 < owners) :
    LifecycleInv (labels ++ [label]) next where
  locked := hlocked
  shared := hshared
  counted := by
    have hinitializes : label.initializes = false := by
      cases label <;> simp_all [OwnerLabel.isInit, OwnerLabel.initializes]
    intro runtime owners hrunning
    rw [hlifecycle] at hrunning
    simpa [List.countP_append, hcounts, hinitializes] using h.counted runtime owners hrunning
  stopped := by
    rw [hlifecycle]
    simpa [List.countP_append, hstops] using h.stopped
  unstarted := by
    intro hunstarted
    rw [hlifecycle] at hunstarted
    obtain ⟨hnone, hreleased⟩ := h.unstarted hunstarted
    refine ⟨fun earlier hmem => ?_, by simpa [List.countP_append, hcounts] using hreleased⟩
    rcases List.mem_append.mp hmem with hmem | hmem
    · exact hnone earlier hmem
    · rw [List.mem_singleton.mp hmem]
      exact hinit

theorem LifecycleInv.init (h : LifecycleInv labels state) (apiVersion : Int)
    (boot : Except ErrorCode Unit) :
    LifecycleInv (labels ++ [.init (state.bridge.init apiVersion boot).1])
      { state with bridge := (state.bridge.init apiVersion boot).2 } := by
  have hstep := init_cases state.bridge apiVersion boot
  generalize state.bridge.init apiVersion boot = result at hstep
  obtain ⟨code, bridge⟩ := result
  have hcountsOff : (labels ++ [OwnerLabel.init code]).countP OwnerLabel.countsOff =
      labels.countP OwnerLabel.countsOff := by
    simp [List.countP_append, OwnerLabel.countsOff]
  have hstops : (labels ++ [OwnerLabel.init code]).countP OwnerLabel.stops =
      labels.countP OwnerLabel.stops := by
    simp [List.countP_append, OwnerLabel.stops]
  have hinitializes : (labels ++ [OwnerLabel.init code]).countP OwnerLabel.initializes =
      labels.countP OwnerLabel.initializes + if code = 0 then 1 else 0 := by
    simp [List.countP_append, List.countP_cons, OwnerLabel.initializes]
  cases hstep with
  | joined runtime owners hrunning =>
      obtain ⟨hcount, hpos⟩ := h.counted runtime owners hrunning
      constructor
      case locked => exact h.locked
      case shared =>
        intro caller runtime' hstage
        obtain ⟨owners', hrunning', howners⟩ := h.shared caller runtime' hstage
        rw [hrunning] at hrunning'
        cases hrunning'
        exact ⟨owners + 1, rfl, by omega⟩
      case counted =>
        rintro _ _ ⟨⟩
        rw [hcountsOff, hinitializes, if_pos rfl]
        omega
      case stopped =>
        rw [hstops, h.stopped]
        simp [hrunning]
      case unstarted => nofun
  | booted runtime huninitialized =>
      obtain ⟨hnone, hreleased⟩ := h.unstarted huninitialized
      have hzero : labels.countP OwnerLabel.initializes = 0 := by
        rw [List.countP_eq_zero]
        intro label hmem hinitializes
        have hinit := hnone label hmem
        cases label <;> simp_all [OwnerLabel.isInit, OwnerLabel.initializes]
      constructor
      case locked => exact h.locked
      case shared =>
        intro caller runtime' hstage
        obtain ⟨owners, hrunning, -⟩ := h.shared caller runtime' hstage
        exact nomatch huninitialized.symm.trans hrunning
      case counted =>
        rintro _ _ ⟨⟩
        rw [hcountsOff, hinitializes, if_pos rfl, hreleased, hzero]
        exact ⟨rfl, le_rfl⟩
      case stopped =>
        rw [hstops, h.stopped]
        simp [huninitialized]
      case unstarted => nofun
  | failed error huninitialized =>
      constructor
      case locked => exact h.locked
      case shared =>
        intro caller runtime' hstage
        obtain ⟨owners, hrunning, -⟩ := h.shared caller runtime' hstage
        exact nomatch huninitialized.symm.trans hrunning
      case counted => nofun
      case stopped =>
        rw [hstops, h.stopped]
        simp [huninitialized]
      case unstarted => nofun
  | refused hcode hstarted =>
      constructor
      case locked => exact h.locked
      case shared => exact h.shared
      case counted =>
        intro runtime owners hrunning
        rw [hcountsOff, hinitializes, if_neg hcode, add_zero]
        exact h.counted runtime owners hrunning
      case stopped => rw [hstops, h.stopped]
      case unstarted => exact fun hunstarted => absurd hunstarted hstarted

variable {source target : Shutdown} {bridge : Bridge}

theorem LifecycleInv.alone (h : LifecycleInv labels state)
    (hsource : state.releases caller = some source)
    (hstep : ShutdownStep state.bridge caller source target bridge) {other : Nat} {stage : Shutdown}
    (hne : other ≠ caller) (hstage : state.releases other = some stage) :
    stage.holdsLock = false := by
  by_contra hholds
  have hother := h.locked other stage hstage (by simpa using hholds)
  have hheld : source.holdsLock → False := by
    intro hsource'
    rw [h.locked caller source hsource hsource'] at hother
    exact hne (Option.some.inj hother).symm
  cases hstep with
  | shared runtime owners hlock => exact nomatch hlock.symm.trans hother
  | final runtime owners hlock => exact nomatch hlock.symm.trans hother
  | idle code hlock => exact nomatch hlock.symm.trans hother
  | barrier | passed | failed | stopAccepting | cancelAll | waited | join => exact hheld rfl

theorem LifecycleInv.releases (h : LifecycleInv labels state)
    (hsource : state.releases caller = some source)
    (hstep : ShutdownStep state.bridge caller source target bridge)
    (hlock : target.holdsLock → bridge.ownerRelease = some caller)
    (hshared : ∀ runtime, target = .shared runtime ∨ target = .barrier runtime →
      ∃ owners, bridge.lifecycle = .running runtime owners ∧ 1 < owners) :
    (∀ other stage, Function.update state.releases caller (some target) other = some stage →
      stage.holdsLock → bridge.ownerRelease = some other) ∧
    ∀ other runtime,
      Function.update state.releases caller (some target) other = some (.shared runtime) ∨
        Function.update state.releases caller (some target) other = some (.barrier runtime) →
      ∃ owners, bridge.lifecycle = .running runtime owners ∧ 1 < owners := by
  constructor
  · intro other stage hstage hholds
    by_cases heq : other = caller
    · rw [heq, Function.update_self] at hstage
      cases hstage
      rw [heq]
      exact hlock hholds
    · rw [Function.update_of_ne heq] at hstage
      rw [h.alone hsource hstep heq hstage] at hholds
      cases hholds
  · intro other runtime hstage
    by_cases heq : other = caller
    · rw [heq, Function.update_self, Option.some.injEq, Option.some.injEq] at hstage
      exact hshared runtime hstage
    · rw [Function.update_of_ne heq] at hstage
      rcases hstage with hstage | hstage
      · exact nomatch h.alone hsource hstep heq hstage
      · exact nomatch h.alone hsource hstep heq hstage

theorem LifecycleInv.step (h : LifecycleInv labels state)
    (hsource : state.releases caller = some source)
    (hstep : ShutdownStep state.bridge caller source target bridge) :
    LifecycleInv (labels ++ [.step caller source target])
      { bridge, releases := Function.update state.releases caller (some target) } := by
  have hlocked : source.holdsLock → state.bridge.ownerRelease = some caller :=
    h.locked caller source hsource
  have hreleases := h.releases hsource hstep
  cases hstep with
  | shared runtime owners hlock hrunning howners =>
      obtain ⟨hlocked, hshared⟩ := hreleases (fun _ => rfl) (by
        rintro _ (⟨⟨⟩⟩ | ⟨⟨⟩⟩)
        exact ⟨owners, hrunning, howners⟩)
      exact h.quiet rfl rfl rfl rfl hlocked hshared
  | final runtime owners hlock hrunning howners =>
      obtain ⟨hlocked, hshared⟩ := hreleases (fun _ => rfl) (by simp)
      constructor
      case locked => exact hlocked
      case shared => exact hshared
      case counted => nofun
      case stopped =>
        simp [List.countP_append, OwnerLabel.stops, h.stopped, hrunning]
      case unstarted => nofun
  | idle code hlock hidle =>
      obtain ⟨hlocked, hshared⟩ := hreleases nofun (by simp)
      exact h.quiet rfl rfl rfl rfl hlocked hshared
  | barrier runtime =>
      obtain ⟨hlocked, hshared⟩ := hreleases (fun _ => hlocked rfl) (by
        rintro _ (⟨⟨⟩⟩ | ⟨⟨⟩⟩)
        exact h.shared caller runtime (.inl hsource))
      exact h.quiet rfl rfl rfl rfl hlocked hshared
  | passed runtime owners hbarrier hrunning howners =>
      obtain ⟨hlocked, hshared⟩ := hreleases nofun (by simp)
      obtain ⟨hcount, -⟩ := h.counted runtime owners hrunning
      constructor
      case locked => exact hlocked
      case shared => exact hshared
      case counted =>
        rintro _ _ ⟨⟩
        simp [List.countP_append, OwnerLabel.countsOff, OwnerLabel.initializes]
        omega
      case stopped =>
        simp [List.countP_append, OwnerLabel.stops, h.stopped, hrunning]
      case unstarted => nofun
  | failed runtime hfailed =>
      obtain ⟨owners, hrunning, howners⟩ := h.shared caller runtime (.inr hsource)
      exact absurd (hfailed owners hrunning) (not_le.mpr howners)
  | stopAccepting | cancelAll | waited hactive =>
      obtain ⟨hlocked, hshared⟩ := hreleases (fun _ => hlocked rfl) (by simp)
      exact h.quiet rfl rfl rfl rfl hlocked hshared
  | join hpolled =>
      obtain ⟨hlocked, hshared⟩ := hreleases nofun (by simp)
      exact h.quiet rfl rfl rfl rfl hlocked hshared

theorem LifecycleInv.unlocked (h : LifecycleInv labels state) {label : OwnerLabel}
    (hinit : label.isInit = false) (hcounts : label.countsOff = false)
    (hstops : label.stops = false) (phase : Option Shutdown)
    (hphase : ∀ stage, phase = some stage → stage.holdsLock = false) :
    LifecycleInv (labels ++ [label])
      { state with releases := Function.update state.releases caller phase } := by
  refine h.quiet rfl hinit hcounts hstops ?_ ?_
  · intro other stage hstage hholds
    dsimp only at hstage
    by_cases heq : other = caller
    · rw [heq, Function.update_self] at hstage
      rw [hphase stage hstage] at hholds
      cases hholds
    · rw [Function.update_of_ne heq] at hstage
      exact h.locked other stage hstage hholds
  · intro other runtime hstage
    dsimp only at hstage
    by_cases heq : other = caller
    · rw [heq, Function.update_self] at hstage
      rcases hstage with hstage | hstage
      · exact nomatch hphase _ hstage
      · exact nomatch hphase _ hstage
    · rw [Function.update_of_ne heq] at hstage
      exact h.shared other runtime hstage

theorem LifecycleInv.ownerStep (h : LifecycleInv labels state) {label : OwnerLabel}
    {next : OwnerCalls} (hstep : OwnerStep state label next) :
    LifecycleInv (labels ++ [label]) next := by
  cases hstep with
  | init apiVersion boot => exact h.init apiVersion boot
  | step hsource hstep => exact h.step hsource (shutdownStep_cases hstep)
  | call hcaller => exact h.unlocked rfl rfl rfl _ (by rintro _ ⟨⟩; rfl)
  | leave hcaller => exact h.unlocked rfl rfl rfl _ nofun
  | other hlifecycle hrelease =>
      refine h.quiet hlifecycle rfl rfl rfl ?_ ?_
      · rw [hrelease]
        exact h.locked
      · rw [hlifecycle]
        exact h.shared

end Steps

theorem LifecycleInv.of_run {labels : List OwnerLabel} {state : OwnerCalls}
    (hrun : Run OwnerStep .empty labels state) : LifecycleInv labels state := by
  induction hrun with
  | nil => exact .empty
  | snoc _ hstep ih => exact ih.ownerStep hstep

/-! ## After the end -/

section Closed

variable {state next : OwnerCalls} {label : OwnerLabel}

/-- Once the network is stopped or has failed to boot it stays so, and refuses its callers. -/
theorem closed_of_step (hstep : OwnerStep state label next)
    (hclosed : state.bridge.lifecycle.closed) :
    next.bridge.lifecycle.closed ∧ label.initializes = false := by
  have hnot : ∀ runtime owners, state.bridge.lifecycle ≠ .running runtime owners := by
    rintro runtime owners heq
    simp [heq, Lifecycle.closed] at hclosed
  cases hstep with
  | init apiVersion boot =>
      have hinit := init_cases state.bridge apiVersion boot
      generalize state.bridge.init apiVersion boot = result at hinit
      cases hinit with
      | joined runtime owners hrunning => exact absurd hrunning (hnot runtime owners)
      | booted runtime huninitialized | failed error huninitialized =>
          simp [huninitialized, Lifecycle.closed] at hclosed
      | refused hcode hstarted => exact ⟨hclosed, by simpa [OwnerLabel.initializes] using hcode⟩
  | call hcaller | leave hcaller => exact ⟨hclosed, rfl⟩
  | other hlifecycle hrelease => exact ⟨hlifecycle ▸ hclosed, rfl⟩
  | step hsource hstep =>
      cases shutdownStep_cases hstep with
      | shared runtime owners hlock hrunning howners | final runtime owners hlock hrunning howners =>
          exact absurd hrunning (hnot runtime owners)
      | passed runtime owners hbarrier hrunning howners =>
          exact absurd hrunning (hnot runtime owners)
      | idle | barrier | failed | stopAccepting | cancelAll | waited | join =>
          exact ⟨hclosed, rfl⟩

theorem refused_of_closed {labels : List OwnerLabel} (hrun : Run OwnerStep state labels next)
    (hclosed : state.bridge.lifecycle.closed) :
    next.bridge.lifecycle.closed ∧ ∀ label ∈ labels, label.initializes = false := by
  induction hrun with
  | nil => exact ⟨hclosed, by simp⟩
  | snoc _ hstep ih =>
      obtain ⟨hclosed', hlabels⟩ := ih
      obtain ⟨hnext, hlabel⟩ := closed_of_step hstep hclosed'
      refine ⟨hnext, fun label hmem => ?_⟩
      rcases List.mem_append.mp hmem with hmem | hmem
      · exact hlabels label hmem
      · rw [List.mem_singleton.mp hmem]
        exact hlabel

theorem uninitialized_of_run {labels : List OwnerLabel}
    (hrun : Run OwnerStep .empty labels state) (hnone : ∀ label ∈ labels, label.isInit = false) :
    state.bridge.lifecycle = .uninitialized := by
  induction hrun with
  | nil => rfl
  | snoc _ hstep ih =>
      have hbefore := ih fun label hmem => hnone label (List.mem_append_left _ hmem)
      have hlabel := hnone _ (List.mem_append_right _ (List.mem_singleton_self _))
      cases hstep with
      | init apiVersion boot => cases hlabel
      | call hcaller | leave hcaller => exact hbefore
      | other hlifecycle hrelease => exact hlifecycle.trans hbefore
      | step hsource hstep =>
          cases shutdownStep_cases hstep with
          | shared runtime owners hlock hrunning howners =>
              exact nomatch hbefore.symm.trans hrunning
          | final runtime owners hlock hrunning howners =>
              exact nomatch hbefore.symm.trans hrunning
          | passed runtime owners hbarrier hrunning howners =>
              exact nomatch hbefore.symm.trans hrunning
          | idle | barrier | failed | stopAccepting | cancelAll | waited | join => exact hbefore

theorem closed_of_failed {labels : List OwnerLabel} {code : Int}
    (hrun : Run OwnerStep .empty labels state) (hstep : OwnerStep state (.init code) next)
    (hfirst : ∀ label ∈ labels, label.isInit = false) (hcode : code ≠ 0) :
    next.bridge.lifecycle.closed := by
  have hbefore := uninitialized_of_run hrun hfirst
  generalize hlabel : OwnerLabel.init code = label at hstep
  cases hstep with
  | init apiVersion boot =>
      cases hlabel
      have hinit := init_cases state.bridge apiVersion boot
      generalize state.bridge.init apiVersion boot = result at hinit hcode
      cases hinit with
      | joined runtime owners hrunning => exact absurd rfl hcode
      | booted runtime huninitialized => exact absurd rfl hcode
      | failed error huninitialized => rfl
      | refused hcode hstarted => exact absurd hbefore hstarted
  | call hcaller | leave hcaller | other hlifecycle hrelease | step hsource hstep => cases hlabel

end Closed

theorem LifecycleInv.released {labels : List OwnerLabel} {caller : Nat} {runtime : Runtime}
    {target : Shutdown} (h : LifecycleInv labels state)
    (hstep : OwnerStep state (.step caller (.barrier runtime) target) next) :
    target = .returned 0 := by
  generalize hlabel : OwnerLabel.step caller (.barrier runtime) target = label at hstep
  cases hstep with
  | step hsource hstep =>
      cases hlabel
      cases shutdownStep_cases hstep with
      | passed runtime owners hbarrier hrunning howners => rfl
      | failed runtime hfailed =>
          obtain ⟨owners, hrunning, howners⟩ := h.shared caller runtime (.inr hsource)
          exact absurd (hfailed owners hrunning) (not_le.mpr howners)
  | init apiVersion boot | call hcaller | leave hcaller | other hlifecycle hrelease => cases hlabel

/-- A release that stops the network is that of its only owner. -/
theorem LifecycleInv.last {labels : List OwnerLabel} {caller : Nat} (h : LifecycleInv labels state)
    (hstep : OwnerStep state (.step caller .called .final) next) :
    labels.countP OwnerLabel.initializes = labels.countP OwnerLabel.countsOff + 1 := by
  generalize hlabel : OwnerLabel.step caller .called .final = label at hstep
  cases hstep with
  | step hsource hstep =>
      cases hlabel
      cases shutdownStep_cases hstep with
      | final runtime owners hlock hrunning howners =>
          have hcounted := h.counted runtime owners hrunning
          omega
  | init apiVersion boot | call hcaller | leave hcaller | other hlifecycle hrelease => cases hlabel

theorem LifecycleInv.closed_of_stops {labels : List OwnerLabel} (h : LifecycleInv labels state)
    (hmem : label ∈ labels) (hstops : label.stops) : state.bridge.lifecycle.closed := by
  have hpos : 0 < labels.countP OwnerLabel.stops := List.countP_pos_iff.mpr ⟨label, hmem, hstops⟩
  have hcount := h.stopped
  split at hcount
  · rename_i hstopped
    rw [hstopped]
    rfl
  · omega

/-! ## Ownership of the network -/

/-- The owners of the network at the end of a run, and its stops on the way. -/
structure NetworkOwnership (labels : List OwnerLabel) (state : OwnerCalls) : Prop where
  counted : ∀ runtime owners, state.bridge.lifecycle = .running runtime owners →
    owners + labels.countP OwnerLabel.countsOff = labels.countP OwnerLabel.initializes ∧ 1 ≤ owners
  shared : ∀ caller runtime, state.releases caller = some (.barrier runtime) →
    ∃ owners, state.bridge.lifecycle = .running runtime owners ∧ 1 < owners
  released : ∀ caller runtime target, .step caller (.barrier runtime) target ∈ labels →
    target = .returned 0
  stopped : labels.countP OwnerLabel.stops = if state.bridge.lifecycle = .stopped then 1 else 0
  stopping : ∀ caller runtime, state.releases caller = some .called →
    state.bridge.ownerRelease = none → state.bridge.lifecycle = .running runtime 1 →
      ∃ bridge, state.bridge.shutdownStep caller .called = some (.final, bridge) ∧
        bridge.lifecycle = .stopped
  last : ∀ before caller after, labels = before ++ .step caller .called .final :: after →
    before.countP OwnerLabel.initializes = before.countP OwnerLabel.countsOff + 1
  closed : ∀ before after, labels = before ++ after →
    ((∃ label ∈ before, label.stops) ∨ ∃ early code late, before = early ++ .init code :: late ∧
      code ≠ 0 ∧ ∀ label ∈ early, label.isInit = false) →
        ∀ label ∈ after, label.initializes = false

/-- Whatever the order in which owners come and go, the network is stopped once, by the last. -/
theorem network_ownership {labels : List OwnerLabel} {state : OwnerCalls}
    (hrun : Run OwnerStep .empty labels state) : NetworkOwnership labels state := by
  have hinv := LifecycleInv.of_run hrun
  constructor
  case counted => exact hinv.counted
  case shared => exact fun caller runtime hstage => hinv.shared caller runtime (.inr hstage)
  case released =>
    intro caller runtime target hmem
    obtain ⟨before, after, rfl⟩ := List.append_of_mem hmem
    obtain ⟨middle, hbefore, hafter⟩ := hrun.split
    obtain ⟨next, hstep, -⟩ := hafter.head
    exact (LifecycleInv.of_run hbefore).released hstep
  case stopped => exact hinv.stopped
  case stopping =>
    intro caller runtime hstage hlock hrunning
    simp [Bridge.shutdownStep, hlock, hrunning]
  case last =>
    rintro before caller after rfl
    obtain ⟨middle, hbefore, hafter⟩ := hrun.split
    obtain ⟨next, hstep, -⟩ := hafter.head
    exact (LifecycleInv.of_run hbefore).last hstep
  case closed =>
    rintro before after rfl hclosed
    obtain ⟨middle, hbefore, hafter⟩ := hrun.split
    refine (refused_of_closed hafter ?_).2
    rcases hclosed with ⟨label, hmem, hstops⟩ | ⟨early, code, late, rfl, hcode, hfirst⟩
    · exact (LifecycleInv.of_run hbefore).closed_of_stops hmem hstops
    · obtain ⟨first, hearly, hlate⟩ := hbefore.split
      obtain ⟨second, hstep, hlate⟩ := hlate.head
      exact (refused_of_closed hlate (closed_of_failed hearly hstep hfirst hcode)).1

/-- Two owners come, the first is counted off, and the second stops the network. -/
theorem network_ownership_twoOwners : ∃ state : OwnerCalls,
    state.bridge.lifecycle = .stopped ∧
      NetworkOwnership [.init 0, .init 0, .call 0, .step 0 .called (.shared ⟨0, 730⟩),
        .step 0 (.shared ⟨0, 730⟩) (.barrier ⟨0, 730⟩), .other,
        .step 0 (.barrier ⟨0, 730⟩) (.returned 0), .leave 0 0, .call 1, .step 1 .called .final,
        .init BRIDGE_NOT_RUNNING] state := by
  let booted : Bridge := { Bridge.empty with
    lifecycle := .running ⟨0, 730⟩ 2
    runtimes := 1
    accepting := true
    executorRunning := true }
  let waiting : Bridge := { booted with
    ownerRelease := some 0
    barriers := Function.update booted.barriers 0 (some false) }
  let passed : Bridge := { waiting with
    barriers := Function.update waiting.barriers 0 (some true) }
  have hboot : Run OwnerStep .empty [.init 0, .init 0] { OwnerCalls.empty with bridge := booted } :=
    .cons (.init _ 730 (.ok ())) (.single (.init _ 730 (.ok ())))
  obtain ⟨releases, hfirst, hsecond, hwaiting⟩ : ∃ releases,
      releases 0 = some (.barrier ⟨0, 730⟩) ∧ releases 1 = none ∧
      Run OwnerStep .empty [.init 0, .init 0, .call 0, .step 0 .called (.shared ⟨0, 730⟩),
        .step 0 (.shared ⟨0, 730⟩) (.barrier ⟨0, 730⟩)] { bridge := waiting, releases } :=
    ⟨_, rfl, rfl, ((hboot.snoc (.call rfl)).snoc (.step rfl rfl)).snoc (.step rfl rfl)⟩
  have hpassed : Run OwnerStep .empty _ { bridge := passed, releases } :=
    hwaiting.snoc (.other rfl rfl)
  have hreleased := (hpassed.snoc (.step hfirst rfl)).snoc (.leave (Function.update_self ..))
  have hfinal := (hreleased.snoc (@OwnerStep.call _ 1 hsecond)).snoc
    (.step (Function.update_self ..) rfl)
  exact ⟨_, rfl, network_ownership (hfinal.snoc (.init _ 730 (.ok ())))⟩

end FoundationDbEffect.Native
