import FoundationDbEffect.Native.Bridge
import FoundationDbEffect.Foundation.Transition

/-!
# Steps of the native bridge

What each step can do, guards included, and with which observable events.
-/

namespace FoundationDbEffect.Native

open FoundationDbEffect.Foundation

namespace Bridge

/-! ## Operations of the bridge -/

section Operations

variable {bridge next : Bridge} {request : Request}

theorem startAsync_eq_ok (h : bridge.startAsync request = .ok next) :
    bridge.asyncTasks request.id = none ∧
      next = { bridge.setTask request {} with
        asyncTasks := Function.update bridge.asyncTasks request.id (some request.driver)
        active := bridge.active + 1 } := by
  unfold startAsync at h
  split at h
  · split at h
    · cases h
    split at h
    · cases h
    rename_i hfree
    cases h
    exact ⟨by simpa using hfree, rfl⟩
  · cases h
  · cases h
  · cases h

theorem takeAsync_eq_some {id : Nat} {owner : Request} {result : FfiResult}
    (h : bridge.takeAsync id = some (owner, result, next)) :
    owner.id = id ∧ bridge.asyncTasks id = some owner.driver ∧
      ∃ task, bridge.tasks owner = some task ∧ task.completion = some result ∧
        next = { bridge.setTask owner { task with completion := none } with
          asyncTasks := Function.update bridge.asyncTasks id none } := by
  simp only [takeAsync, Option.bind_eq_bind, Option.bind_eq_some_iff, Option.some.injEq,
    Prod.mk.injEq] at h
  obtain ⟨driver, hdriver, task, htask, completion, hcompletion, rfl, rfl, rfl⟩ := h
  exact ⟨rfl, hdriver, task, htask, hcompletion, rfl⟩

theorem store_eq_some {completion : Completion} (h : bridge.store request completion = some next) :
    ∃ task, bridge.tasks request = some task ∧ bridge.polled = none ∧ task.phase = .waiting ∧
      next = { bridge.setTask request
        { task with completion := some completion.result, phase := .stored } with
        polled := some request } := by
  simp only [store, Option.bind_eq_bind, Option.bind_eq_some_iff] at h
  obtain ⟨task, htask, h⟩ := h
  split at h
  · rename_i hguard
    cases h
    exact ⟨task, htask, hguard.2.1, hguard.2.2.1, rfl⟩
  · cases h

theorem advance_eq_some {source target : TaskPhase}
    (h : bridge.advance source target request = some next) :
    ∃ task, bridge.tasks request = some task ∧ task.phase = source ∧
      next = bridge.setTask request { task with phase := target } := by
  simp only [advance, Option.bind_eq_bind, Option.bind_eq_some_iff] at h
  obtain ⟨task, htask, h⟩ := h
  split at h
  · cases h
    exact ⟨task, htask, ‹_›, rfl⟩
  · cases h

theorem dropActive_eq_some (h : bridge.dropActive request = some next) :
    ∃ middle, bridge.advance .returned .dropped request = some middle ∧
      next = { middle with active := middle.active - 1 } := by
  obtain ⟨middle, hmiddle, h⟩ := Option.bind_eq_some_iff.mp h
  cases h
  exact ⟨middle, hmiddle, rfl⟩

theorem finishPoll_eq_some (h : bridge.finishPoll request = some next) :
    ∃ middle, bridge.advance .dropped .finished request = some middle ∧
      next = { middle with polled := none } := by
  obtain ⟨middle, hmiddle, h⟩ := Option.bind_eq_some_iff.mp h
  cases h
  exact ⟨middle, hmiddle, rfl⟩

theorem passBarrier_eq_some {driver : Nat} (h : bridge.passBarrier driver = some next) :
    bridge.polled = none ∧ bridge.barriers driver = some false ∧
      next = { bridge with barriers := Function.update bridge.barriers driver (some true) } := by
  unfold passBarrier at h
  split at h
  · rename_i hguard
    cases h
    exact ⟨hguard.2.1, hguard.2.2, rfl⟩
  · cases h

end Operations

end Bridge

/-! ## Steps of the system -/

namespace System

inductive RequestStep (system : System) : List Event → System → Prop where
  | refuse (driver : Nat) : RequestStep system [.refused driver] system
  | ignore : RequestStep system [] system
  | fail (request : Request) (exit : Exit) (hphase : system.phase request.driver = .ready)
      (hnew : system.operations request = none) :
      RequestStep system [.resumed request exit] { system with
        operations := Function.update system.operations request (some { settled := true })
        pending := (insert request system.pending).erase request }
  | start (request : Request) (bridge : Bridge) (hphase : system.phase request.driver = .ready)
      (hnew : system.operations request = none)
      (hstart : system.bridge.startAsync request = .ok bridge) :
      RequestStep system [] { system with
        operations := Function.update system.operations request (some {})
        pending := insert request system.pending
        bridge }
  | interrupt (request : Request) (operation : PendingOperation)
      (hoperation : system.operations request = some operation)
      (hsettled : operation.settled = false) :
      RequestStep system [.cancelled request] { system with
        operations :=
          Function.update system.operations request (some { operation with cancelled := true })
        bridge := system.bridge.cancelAsync fun id => id = request.id }
  | stale (request : Request) (hmem : request ∈ system.microtasks)
      (hstale : request ∉ system.pending ∨ system.bridge.takeAsync request.id = none) :
      RequestStep system [] { system with microtasks := system.microtasks.erase request }
  | complete (request owner : Request) (result : FfiResult) (bridge : Bridge)
      (hmem : request ∈ system.microtasks) (hpending : request ∈ system.pending)
      (htake : system.bridge.takeAsync request.id = some (owner, result, bridge)) :
      RequestStep system
        (.took owner result :: ({ system with
          microtasks := system.microtasks.erase request
          bridge }.finish request (readResult result)).2)
        ({ system with
          microtasks := system.microtasks.erase request
          bridge }.finish request (readResult result)).1
  | store (request : Request) (completion : Completion) (bridge : Bridge)
      (hstore : system.bridge.store request completion = some bridge) :
      RequestStep system [] { system with bridge }
  | invoke (request : Request) (bridge : Bridge)
      (hinvoke : system.bridge.advance .stored .calling request = some bridge) :
      RequestStep system [.invoked request] { system with bridge }
  | callback (request : Request) (bridge : Bridge)
      (hcallback : system.bridge.advance .calling .called request = some bridge) :
      RequestStep system [] { system with
        bridge
        microtasks := system.microtasks ++ [request] }
  | returnCallback (request : Request) (bridge : Bridge)
      (hreturn : system.bridge.advance .called .returned request = some bridge) :
      RequestStep system [.returned request] { system with bridge }
  | dropActive (request : Request) (bridge : Bridge)
      (hdrop : system.bridge.dropActive request = some bridge) :
      RequestStep system [] { system with bridge }
  | finishPoll (request : Request) (bridge : Bridge)
      (hfinish : system.bridge.finishPoll request = some bridge) :
      RequestStep system [] { system with bridge }
  | passBarrier (driver : Nat) (bridge : Bridge)
      (hbarrier : system.bridge.passBarrier driver = some bridge) :
      RequestStep system [] { system with bridge }

inductive DriverStep (system : System) : List Event → System → Prop where
  | openCallback (driver : Nat) (hphase : system.phase driver = .absent) :
      DriverStep system [] (system.setPhase driver .opened)
  | init (driver : Nat) (apiVersion : Int) (boot : Except ErrorCode Unit)
      (hphase : system.phase driver = .opened) :
      DriverStep system [] { system.setPhase driver
          (if (system.bridge.init apiVersion boot).1 = 0 then .initialized else .rejected) with
        bridge := (system.bridge.init apiVersion boot).2 }
  | acquire (driver : Nat) (hphase : system.phase driver = .initialized) :
      DriverStep system [] (system.setPhase driver .ready)
  | drain (driver : Nat) (hphase : system.phase driver = .ready) :
      DriverStep system [] (system.drain driver)
  | skipDrain (driver : Nat) (hphase : system.phase driver = .initialized) :
      DriverStep system [] (system.setPhase driver (.shutting .called))
  | release (driver : Nat) (active : Finset Request)
      (hphase : system.phase driver = .draining active)
      (hsettled : ∀ request ∈ active, ∃ operation ∈ system.operations request, operation.settled) :
      DriverStep system [] (system.setPhase driver (.shutting .called))
  | shutdownStep (driver : Nat) (stage stage' : Shutdown) (bridge : Bridge)
      (hphase : system.phase driver = .shutting stage)
      (hstage : system.bridge.shutdownStep driver stage = some (stage', bridge)) :
      DriverStep system [] { system.setPhase driver (.shutting stage') with bridge }
  | close (driver : Nat)
      (hphase : system.phase driver = .opened ∨ system.phase driver = .rejected ∨
        ∃ code, system.phase driver = .shutting (.returned code)) :
      DriverStep system [.closed driver] (system.setPhase driver .closed)

theorem finish_of_unsettled {system : System} {request : Request} {operation : PendingOperation}
    (hoperation : system.operations request = some operation)
    (hsettled : operation.settled = false) (exit : Exit) :
    system.finish request exit =
      ({ system with
        operations :=
          Function.update system.operations request (some { operation with settled := true })
        pending := system.pending.erase request },
        if operation.cancelled then [] else [.resumed request exit]) := by
  simp [finish, hoperation, hsettled]

@[simp] theorem finish_bridge (system : System) (request : Request) (exit : Exit) :
    (system.finish request exit).1.bridge = system.bridge := by
  unfold finish
  split
  · split <;> rfl
  · rfl

@[simp] theorem finish_phase (system : System) (request : Request) (exit : Exit) :
    (system.finish request exit).1.phase = system.phase := by
  unfold finish
  split
  · split <;> rfl
  · rfl

/-- What the steps of the requests leave alone. -/
theorem RequestStep.frame {system next : System} {events : List Event}
    (h : RequestStep system events next) :
    next.phase = system.phase ∧ next.bridge.lifecycle = system.bridge.lifecycle ∧
      next.bridge.ownerRelease = system.bridge.ownerRelease := by
  cases h with
  | refuse _ => exact ⟨rfl, rfl, rfl⟩
  | ignore => exact ⟨rfl, rfl, rfl⟩
  | fail _ _ _ _ => exact ⟨rfl, rfl, rfl⟩
  | start request bridge _ _ hstart =>
      obtain ⟨_, rfl⟩ := Bridge.startAsync_eq_ok hstart
      exact ⟨rfl, rfl, rfl⟩
  | interrupt _ _ _ _ => exact ⟨rfl, rfl, rfl⟩
  | stale _ _ _ => exact ⟨rfl, rfl, rfl⟩
  | complete request owner result bridge _ _ htake =>
      obtain ⟨_, _, task, _, _, rfl⟩ := Bridge.takeAsync_eq_some htake
      rw [finish_phase, finish_bridge]
      exact ⟨rfl, rfl, rfl⟩
  | store request completion bridge hstore =>
      obtain ⟨task, _, _, _, rfl⟩ := Bridge.store_eq_some hstore
      exact ⟨rfl, rfl, rfl⟩
  | invoke request bridge hadvance =>
      obtain ⟨task, _, _, rfl⟩ := Bridge.advance_eq_some hadvance
      exact ⟨rfl, rfl, rfl⟩
  | callback request bridge hadvance =>
      obtain ⟨task, _, _, rfl⟩ := Bridge.advance_eq_some hadvance
      exact ⟨rfl, rfl, rfl⟩
  | returnCallback request bridge hadvance =>
      obtain ⟨task, _, _, rfl⟩ := Bridge.advance_eq_some hadvance
      exact ⟨rfl, rfl, rfl⟩
  | dropActive request bridge hdrop =>
      obtain ⟨middle, hadvance, rfl⟩ := Bridge.dropActive_eq_some hdrop
      obtain ⟨task, _, _, rfl⟩ := Bridge.advance_eq_some hadvance
      exact ⟨rfl, rfl, rfl⟩
  | finishPoll request bridge hfinish =>
      obtain ⟨middle, hadvance, rfl⟩ := Bridge.finishPoll_eq_some hfinish
      obtain ⟨task, _, _, rfl⟩ := Bridge.advance_eq_some hadvance
      exact ⟨rfl, rfl, rfl⟩
  | passBarrier driver bridge hbarrier =>
      obtain ⟨_, _, rfl⟩ := Bridge.passBarrier_eq_some hbarrier
      exact ⟨rfl, rfl, rfl⟩

theorem start_cases {system : System} {request : Request} (outcome : StartOutcome)
    (hphase : system.phase request.driver = .ready) (hnew : system.operations request = none) :
    RequestStep system (system.start request outcome).2 (system.start request outcome).1 := by
  have hfail : ∀ exit, RequestStep system
      ({ system with
        operations := Function.update system.operations request (some {})
        pending := insert request system.pending }.finish request exit).2
      ({ system with
        operations := Function.update system.operations request (some {})
        pending := insert request system.pending }.finish request exit).1 := by
    intro exit
    rw [finish_of_unsettled (Function.update_self ..) rfl]
    simp only [Function.update_idem]
    exact .fail request exit hphase hnew
  cases outcome with
  | thrown => exact hfail _
  | rejected error => exact hfail _
  | started =>
      cases hstart : system.bridge.startAsync request with
      | error code => simpa only [start, hstart] using hfail (.failure code)
      | ok bridge => simpa only [start, hstart] using .start request bridge hphase hnew hstart

theorem interrupt_cases (system : System) (request : Request) :
    RequestStep system (system.interrupt request).2 (system.interrupt request).1 := by
  unfold interrupt
  cases hoperation : system.operations request with
  | none => exact .ignore
  | some operation =>
      cases hsettled : operation.settled with
      | true => simpa [hsettled] using .ignore
      | false =>
          dsimp only
          rw [if_neg (by simp [hsettled])]
          exact .interrupt request operation hoperation hsettled

theorem complete_cases {system : System} {request : Request} (hmem : request ∈ system.microtasks) :
    RequestStep system (system.complete request).2 (system.complete request).1 := by
  unfold complete
  by_cases hpending : request ∈ system.pending
  · cases htake : system.bridge.takeAsync request.id with
    | none => simpa [hpending, htake] using .stale request hmem (.inr htake)
    | some taken =>
        obtain ⟨owner, result, bridge⟩ := taken
        simpa [hpending, htake] using .complete request owner result bridge hmem hpending htake
  · simpa [hpending] using .stale request hmem (.inl hpending)

theorem act_cases {system next : System} {action : Action} {events : List Event}
    (h : system.act action = some (next, events)) :
    RequestStep system events next ∨ DriverStep system events next := by
  cases action with
  | openCallback driver =>
      simp only [act] at h
      split at h
      · cases h
        exact .inr (.openCallback driver ‹_›)
      · cases h
  | init driver apiVersion boot =>
      simp only [act] at h
      split at h
      · cases h
        exact .inr (.init driver apiVersion boot ‹_›)
      · cases h
  | acquire driver =>
      simp only [act] at h
      split at h
      · cases h
        exact .inr (.acquire driver ‹_›)
      · cases h
  | start request outcome =>
      simp only [act] at h
      split at h
      · cases h
        exact .inl (.refuse request.driver)
      split at h
      · rename_i hguard
        have hstep := start_cases outcome hguard.1 hguard.2
        rw [Option.some.inj h] at hstep
        exact .inl hstep
      · cases h
  | interrupt request =>
      have hstep := interrupt_cases system request
      rw [Option.some.inj h] at hstep
      exact .inl hstep
  | complete request =>
      simp only [act] at h
      split at h
      · have hstep := complete_cases ‹request ∈ system.microtasks›
        rw [Option.some.inj h] at hstep
        exact .inl hstep
      · cases h
  | drain driver =>
      simp only [act] at h
      split at h
      · cases h
        exact .inr (.drain driver ‹_›)
      · cases h
  | release driver =>
      simp only [act] at h
      split at h
      · cases h
        exact .inr (.skipDrain driver ‹_›)
      · rename_i active hphase
        split at h
        · cases h
          exact .inr (.release driver active hphase ‹_›)
        · cases h
      · cases h
  | shutdownStep driver =>
      simp only [act] at h
      split at h
      · rename_i stage hphase
        obtain ⟨⟨stage', bridge⟩, hstage, heq⟩ := Option.bind_eq_some_iff.mp h
        cases heq
        exact .inr (.shutdownStep driver stage stage' bridge hphase hstage)
      · cases h
  | close driver =>
      simp only [act] at h
      split at h
      · cases h
        exact .inr (.close driver (.inl ‹_›))
      · cases h
        exact .inr (.close driver (.inr (.inl ‹_›)))
      · cases h
        exact .inr (.close driver (.inr (.inr ⟨_, ‹_›⟩)))
      · cases h
  | store request completion =>
      obtain ⟨bridge, hstore, heq⟩ := Option.bind_eq_some_iff.mp h
      cases heq
      exact .inl (.store request completion bridge hstore)
  | invoke request =>
      obtain ⟨bridge, hinvoke, heq⟩ := Option.bind_eq_some_iff.mp h
      cases heq
      exact .inl (.invoke request bridge hinvoke)
  | callback request =>
      obtain ⟨bridge, hcallback, heq⟩ := Option.bind_eq_some_iff.mp h
      cases heq
      exact .inl (.callback request bridge hcallback)
  | returnCallback request =>
      obtain ⟨bridge, hreturn, heq⟩ := Option.bind_eq_some_iff.mp h
      cases heq
      exact .inl (.returnCallback request bridge hreturn)
  | dropActive request =>
      obtain ⟨bridge, hdrop, heq⟩ := Option.bind_eq_some_iff.mp h
      cases heq
      exact .inl (.dropActive request bridge hdrop)
  | finishPoll request =>
      obtain ⟨bridge, hfinish, heq⟩ := Option.bind_eq_some_iff.mp h
      cases heq
      exact .inl (.finishPoll request bridge hfinish)
  | passBarrier driver =>
      obtain ⟨bridge, hbarrier, heq⟩ := Option.bind_eq_some_iff.mp h
      cases heq
      exact .inl (.passBarrier driver bridge hbarrier)

end System

def Step (system : System) (label : Action × List Event) (next : System) : Prop :=
  system.act label.1 = some (next, label.2)

end FoundationDbEffect.Native
