import FoundationDbEffect.Native.Batches
import Mathlib.Data.Finset.Basic
import Mathlib.Logic.Function.Basic

/-!
# The native bridge

The drivers of a process share one native runtime. A request of a driver starts a task on the
executor of the runtime, whose one thread stores the completion of the task and calls back
into the driver. The callback queues a microtask, which takes the completion and resumes the
effect of the request.

The layer of a driver opens its callback, becomes an owner of the runtime, and at its end
drains its requests, releases the runtime and closes the callback, in this order. Every step
of the executor thread, of the microtasks and of a release is a step of its own.
-/

namespace FoundationDbEffect.Native

open FoundationDbEffect.Foundation

def BRIDGE_NOT_RUNNING : Int := 90000
def BRIDGE_PANIC : Int := 90005
def ASYNC_CANCELLED : Int := 90006
def EXECUTOR_FAILURE : Int := 90008

/-- An error code, which is never the code of success. -/
structure ErrorCode where
  code : Int
  nonzero : code ≠ 0
  deriving DecidableEq

/-- A request of a driver. Drivers of one module draw their ids from one counter, drivers of
different workers do not. -/
structure Request where
  driver : Nat
  id : Nat
  deriving DecidableEq, Repr

structure FfiResult where
  code : Int := 0
  flags : Nat := 0
  handle : Nat := 0
  data : Bytes := []
  deriving DecidableEq, Repr

def FfiResult.error (code : Int) : FfiResult := { code }

/-! ## Tasks of the executor -/

/-- How far a task is. A task is polled from the store of its completion to its end. -/
inductive TaskPhase where
  | waiting
  | stored
  | calling
  | called
  | returned
  | dropped
  | finished
  deriving DecidableEq, Repr

structure AsyncTask where
  cancelled : Bool := false
  completion : Option FfiResult := none
  phase : TaskPhase := .waiting
  deriving DecidableEq, Repr

/-- What ends the wait of a task: its operation, a panic of it, or its cancellation. -/
inductive Completion where
  | operation (result : Except Int FfiResult)
  | panicked
  | cancellation

def Completion.result : Completion → FfiResult
  | .operation (.ok result) => result
  | .operation (.error code) => .error code
  | .panicked => .error BRIDGE_PANIC
  | .cancellation => .error ASYNC_CANCELLED

/-- Only a closed cancel channel ends a wait by cancellation. -/
def Completion.possible (task : AsyncTask) : Completion → Bool
  | .cancellation => task.cancelled
  | _ => true

structure Runtime where
  serial : Nat
  apiVersion : Int
  deriving DecidableEq, Repr

inductive Lifecycle where
  | uninitialized
  | running (runtime : Runtime) (owners : Nat)
  | failed (error : ErrorCode)
  | stopped
  deriving DecidableEq

/-- The native side. A task is stored with the driver whose callback it has captured, and the
table of the tasks maps a request id to that driver. -/
structure Bridge where
  lifecycle : Lifecycle
  /-- The driver whose release holds the owner-release lock. -/
  ownerRelease : Option Nat
  runtimes : Nat
  accepting : Bool
  active : Nat
  asyncTasks : Nat → Option Nat
  tasks : Request → Option AsyncTask
  /-- The barrier of the release of a driver, and whether it has been passed. -/
  barriers : Nat → Option Bool
  /-- The task that the executor thread polls. -/
  polled : Option Request
  executorRunning : Bool

namespace Bridge

def empty : Bridge where
  lifecycle := .uninitialized
  ownerRelease := none
  runtimes := 0
  accepting := false
  active := 0
  asyncTasks := fun _ => none
  tasks := fun _ => none
  barriers := fun _ => none
  polled := none
  executorRunning := false

def setTask (bridge : Bridge) (request : Request) (task : AsyncTask) : Bridge :=
  { bridge with tasks := Function.update bridge.tasks request (some task) }

/-- Ownership of the runtime. The first owner boots the network and the executor. -/
def init (apiVersion : Int) (boot : Except ErrorCode Unit) (bridge : Bridge) : Int × Bridge :=
  match bridge.lifecycle with
  | .running runtime owners =>
      if runtime.apiVersion = apiVersion then
        if owners + 1 ≤ usizeMax then
          (0, { bridge with lifecycle := .running runtime (owners + 1) })
        else (INVALID_ARGUMENT, bridge)
      else (BRIDGE_NOT_RUNNING, bridge)
  | .stopped => (BRIDGE_NOT_RUNNING, bridge)
  | .failed error => (error.code, bridge)
  | .uninitialized =>
      match boot with
      | .error error => (error.code, { bridge with lifecycle := .failed error })
      | .ok () =>
          (0, { bridge with
            lifecycle := .running ⟨bridge.runtimes, apiVersion⟩ 1
            runtimes := bridge.runtimes + 1
            accepting := true
            active := 0
            executorRunning := true })

/-- The start of a task: it is registered under its request id and spawned. -/
def startAsync (request : Request) (bridge : Bridge) : Except Int Bridge :=
  match bridge.lifecycle with
  | .running _ _ =>
      if bridge.accepting = false then .error BRIDGE_NOT_RUNNING
      else if (bridge.asyncTasks request.id).isSome then .error INVALID_ARGUMENT
      else
        .ok { bridge.setTask request {} with
          asyncTasks := Function.update bridge.asyncTasks request.id (some request.driver)
          active := bridge.active + 1 }
  | .failed error => .error error.code
  | .uninitialized | .stopped => .error BRIDGE_NOT_RUNNING

/-- The cancel channels of the registered tasks with an id of a set are closed. -/
def cancelAsync (ids : Nat → Bool) (bridge : Bridge) : Bridge :=
  { bridge with
    tasks := fun request =>
      (bridge.tasks request).map fun task =>
        if ids request.id ∧ bridge.asyncTasks request.id = some request.driver then
          { task with cancelled := true }
        else task }

/-- The completion of a registered task, which is taken out of the table with it. -/
def takeAsync (id : Nat) (bridge : Bridge) : Option (Request × FfiResult × Bridge) := do
  let driver ← bridge.asyncTasks id
  let request : Request := ⟨driver, id⟩
  let task ← bridge.tasks request
  let result ← task.completion
  some (request, result,
    { bridge.setTask request { task with completion := none } with
      asyncTasks := Function.update bridge.asyncTasks id none })

/-! ### The executor thread -/

/-- A poll that ends the wait of a task stores its completion. -/
def store (request : Request) (completion : Completion) (bridge : Bridge) : Option Bridge := do
  let task ← bridge.tasks request
  if bridge.executorRunning ∧ bridge.polled = none ∧ task.phase = .waiting ∧
      completion.possible task then
    some { bridge.setTask request
        { task with completion := some completion.result, phase := .stored } with
      polled := some request }
  else none

def advance (source target : TaskPhase) (request : Request) (bridge : Bridge) : Option Bridge := do
  let task ← bridge.tasks request
  if task.phase = source then some (bridge.setTask request { task with phase := target }) else none

def invoke : Request → Bridge → Option Bridge := advance .stored .calling

def callback : Request → Bridge → Option Bridge := advance .calling .called

def returnCallback : Request → Bridge → Option Bridge := advance .called .returned

def dropActive (request : Request) (bridge : Bridge) : Option Bridge := do
  let bridge ← advance .returned .dropped request bridge
  some { bridge with active := bridge.active - 1 }

def finishPoll (request : Request) (bridge : Bridge) : Option Bridge := do
  let bridge ← advance .dropped .finished request bridge
  some { bridge with polled := none }

def passBarrier (driver : Nat) (bridge : Bridge) : Option Bridge :=
  if bridge.executorRunning ∧ bridge.polled = none ∧ bridge.barriers driver = some false then
    some { bridge with barriers := Function.update bridge.barriers driver (some true) }
  else none

end Bridge

/-! ## The release of the runtime -/

/-- Where a release is. A shared one waits for a barrier on the executor, the final one stops
the runtime. -/
inductive Shutdown where
  | called
  | shared (runtime : Runtime)
  | barrier (runtime : Runtime)
  | final
  | cancelling
  | waiting
  | joining
  | returned (code : Int)
  deriving DecidableEq, Repr

/-- One step of the release of a driver, when it is not blocked. -/
def Bridge.shutdownStep (driver : Nat) (bridge : Bridge) : Shutdown → Option (Shutdown × Bridge)
  | .called =>
      if bridge.ownerRelease = none then
        match bridge.lifecycle with
        | .running runtime owners =>
            if owners > 1 then
              some (.shared runtime, { bridge with ownerRelease := some driver })
            else
              some (.final, { bridge with ownerRelease := some driver, lifecycle := .stopped })
        | .failed error => some (.returned error.code, bridge)
        | .uninitialized | .stopped => some (.returned 0, bridge)
      else none
  | .shared runtime =>
      some (.barrier runtime,
        { bridge with barriers := Function.update bridge.barriers driver (some false) })
  | .barrier runtime =>
      if bridge.barriers driver = some true then
        match bridge.lifecycle with
        | .running current owners =>
            if current ≠ runtime ∨ owners ≤ 1 then
              some (.returned EXECUTOR_FAILURE, { bridge with ownerRelease := none })
            else
              some (.returned 0, { bridge with
                lifecycle := .running current (owners - 1)
                ownerRelease := none })
        | _ => some (.returned EXECUTOR_FAILURE, { bridge with ownerRelease := none })
      else none
  | .final => some (.cancelling, { bridge with accepting := false })
  | .cancelling => some (.waiting, bridge.cancelAsync fun _ => true)
  | .waiting => if bridge.active = 0 then some (.joining, bridge) else none
  | .joining =>
      if bridge.polled = none then
        some (.returned 0, { bridge with executorRunning := false, ownerRelease := none })
      else none
  | .returned _ => none

/-! ## Drivers -/

structure PendingOperation where
  cancelled : Bool := false
  settled : Bool := false
  deriving DecidableEq, Repr

/-- Where the layer of a driver is. A rejected one has not become an owner. -/
inductive DriverPhase where
  | absent
  | opened
  | rejected
  | initialized
  | ready
  | draining (active : Finset Request)
  | shutting (stage : Shutdown)
  | closed
  deriving DecidableEq

structure System where
  bridge : Bridge
  phase : Nat → DriverPhase
  closing : Nat → Bool
  operations : Request → Option PendingOperation
  pending : Finset Request
  microtasks : List Request

/-- What the start of a request runs into before a task is registered: an exception, an error
code of the native operation, or nothing. -/
inductive StartOutcome where
  | thrown
  | rejected (error : ErrorCode)
  | started

inductive Exit where
  | success (result : FfiResult)
  | failure (code : Int)
  | thrown
  deriving DecidableEq, Repr

inductive Event where
  | refused (driver : Nat)
  | resumed (request : Request) (exit : Exit)
  | cancelled (request : Request)
  | took (request : Request) (result : FfiResult)
  | invoked (request : Request)
  | returned (request : Request)
  | closed (driver : Nat)
  deriving DecidableEq, Repr

namespace System

def empty : System where
  bridge := .empty
  phase := fun _ => .absent
  closing := fun _ => false
  operations := fun _ => none
  pending := ∅
  microtasks := []

def setPhase (system : System) (driver : Nat) (phase : DriverPhase) : System :=
  { system with phase := Function.update system.phase driver phase }

/-- A request settles once, and resumes its effect unless it was cancelled. -/
def finish (system : System) (request : Request) (exit : Exit) : System × List Event :=
  match system.operations request with
  | some operation =>
      if operation.settled then (system, [])
      else
        ({ system with
          operations :=
            Function.update system.operations request (some { operation with settled := true })
          pending := system.pending.erase request },
          if operation.cancelled then [] else [.resumed request exit])
  | none => (system, [])

def start (system : System) (request : Request) (outcome : StartOutcome) : System × List Event :=
  let system :=
    { system with
      operations := Function.update system.operations request (some {})
      pending := insert request system.pending }
  match outcome with
  | .thrown => system.finish request .thrown
  | .rejected error => system.finish request (.failure error.code)
  | .started =>
      match system.bridge.startAsync request with
      | .error code => system.finish request (.failure code)
      | .ok bridge => ({ system with bridge }, [])

/-- The interruption of a request that has not settled. Its effect is not resumed any more. -/
def interrupt (system : System) (request : Request) : System × List Event :=
  match system.operations request with
  | some operation =>
      if operation.settled then (system, [])
      else
        ({ system with
          operations :=
            Function.update system.operations request (some { operation with cancelled := true })
          bridge := system.bridge.cancelAsync fun id => id = request.id },
          [.cancelled request])
  | none => (system, [])

def readResult (result : FfiResult) : Exit :=
  if result.code ≠ 0 then .failure result.code else .success result

/-- The microtask of a callback. It does nothing for a request that is no longer pending. -/
def complete (system : System) (request : Request) : System × List Event :=
  let system := { system with microtasks := system.microtasks.erase request }
  if request ∈ system.pending then
    match system.bridge.takeAsync request.id with
    | none => (system, [])
    | some (owner, result, bridge) =>
        let (system, events) := { system with bridge }.finish request (readResult result)
        (system, .took owner result :: events)
  else (system, [])

/-- No request starts any more, and those that are pending are cancelled natively. -/
def drain (system : System) (driver : Nat) : System :=
  let active := system.pending.filter fun request => request.driver = driver
  { system.setPhase driver (.draining active) with
    closing := Function.update system.closing driver true
    bridge := system.bridge.cancelAsync fun id => ∃ request ∈ active, request.id = id }

end System

inductive Action where
  | openCallback (driver : Nat)
  | init (driver : Nat) (apiVersion : Int) (boot : Except ErrorCode Unit)
  | acquire (driver : Nat)
  | start (request : Request) (outcome : StartOutcome)
  | interrupt (request : Request)
  | complete (request : Request)
  | drain (driver : Nat)
  | release (driver : Nat)
  | shutdownStep (driver : Nat)
  | close (driver : Nat)
  | store (request : Request) (completion : Completion)
  | invoke (request : Request)
  | callback (request : Request)
  | returnCallback (request : Request)
  | dropActive (request : Request)
  | finishPoll (request : Request)
  | passBarrier (driver : Nat)

namespace System

/-- One step of any party, with what can be observed of it. -/
def act (system : System) : Action → Option (System × List Event)
  | .openCallback driver =>
      if system.phase driver = .absent then some (system.setPhase driver .opened, []) else none
  | .init driver apiVersion boot =>
      if system.phase driver = .opened then
        let (code, bridge) := system.bridge.init apiVersion boot
        some ({ system.setPhase driver (if code = 0 then .initialized else .rejected) with bridge }, [])
      else none
  | .acquire driver =>
      if system.phase driver = .initialized then some (system.setPhase driver .ready, []) else none
  | .start request outcome =>
      if system.closing request.driver then some (system, [.refused request.driver])
      else if system.phase request.driver = .ready ∧ system.operations request = none then
        some (system.start request outcome)
      else none
  | .interrupt request => some (system.interrupt request)
  | .complete request =>
      if request ∈ system.microtasks then some (system.complete request) else none
  | .drain driver =>
      if system.phase driver = .ready then some (system.drain driver, []) else none
  | .release driver =>
      match system.phase driver with
      | .initialized => some (system.setPhase driver (.shutting .called), [])
      | .draining active =>
          if ∀ request ∈ active, ∃ operation ∈ system.operations request, operation.settled then
            some (system.setPhase driver (.shutting .called), [])
          else none
      | _ => none
  | .shutdownStep driver =>
      match system.phase driver with
      | .shutting stage => do
          let (stage, bridge) ← system.bridge.shutdownStep driver stage
          some ({ system.setPhase driver (.shutting stage) with bridge }, [])
      | _ => none
  | .close driver =>
      match system.phase driver with
      | .opened | .rejected | .shutting (.returned _) =>
          some (system.setPhase driver .closed, [.closed driver])
      | _ => none
  | .store request completion => do
      let bridge ← system.bridge.store request completion
      some ({ system with bridge }, [])
  | .invoke request => do
      let bridge ← system.bridge.invoke request
      some ({ system with bridge }, [.invoked request])
  | .callback request => do
      let bridge ← system.bridge.callback request
      some ({ system with bridge, microtasks := system.microtasks ++ [request] }, [])
  | .returnCallback request => do
      let bridge ← system.bridge.returnCallback request
      some ({ system with bridge }, [.returned request])
  | .dropActive request => do
      let bridge ← system.bridge.dropActive request
      some ({ system with bridge }, [])
  | .finishPoll request => do
      let bridge ← system.bridge.finishPoll request
      some ({ system with bridge }, [])
  | .passBarrier driver => do
      let bridge ← system.bridge.passBarrier driver
      some ({ system with bridge }, [])

end System

end FoundationDbEffect.Native
