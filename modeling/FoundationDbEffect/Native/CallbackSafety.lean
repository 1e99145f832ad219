import FoundationDbEffect.Native.Ownership
import FoundationDbEffect.Foundation.Trace

/-!
# Callbacks and requests

A request is pending as long as its completion has not been taken, and its task is registered
as long as the request is pending. So the tasks of a driver without pending requests have all
called back, and once the executor thread is between two polls they are finished.
-/

namespace FoundationDbEffect.Native

open FoundationDbEffect.Foundation

def TaskPhase.isCalled : TaskPhase → Bool
  | .waiting | .stored | .calling => false
  | .called | .returned | .dropped | .finished => true

def TaskPhase.isPolled : TaskPhase → Bool
  | .waiting | .finished => false
  | _ => true

theorem TaskPhase.finished_of_isCalled {phase : TaskPhase} (hcalled : phase.isCalled)
    (hpolled : phase.isPolled = false) : phase = .finished := by
  cases phase <;> simp_all [isCalled, isPolled]

def Bridge.progress (bridge : Bridge) (request : Request) : Option (TaskPhase × Option FfiResult) :=
  (bridge.tasks request).map fun task => (task.phase, task.completion)

@[simp] theorem Bridge.progress_cancelAsync (bridge : Bridge) (ids : Nat → Bool)
    (request : Request) : (bridge.cancelAsync ids).progress request = bridge.progress request := by
  simp only [progress, cancelAsync, Option.map_map]
  congr 1
  funext task
  simp only [Function.comp]
  split <;> rfl

@[simp] theorem Bridge.polled_cancelAsync (bridge : Bridge) (ids : Nat → Bool) :
    (bridge.cancelAsync ids).polled = bridge.polled := rfl

structure RequestInv (system : System) (request : Request) : Prop where
  operation : system.operations request = none → system.bridge.progress request = none
  pending_iff : request ∈ system.pending ↔
    ∃ operation, system.operations request = some operation ∧ operation.settled = false
  queued_iff : request ∈ system.microtasks ↔ request ∈ system.pending ∧
    ∃ phase completion, system.bridge.progress request = some (phase, completion) ∧ phase.isCalled
  registered_iff : system.bridge.asyncTasks request.id = some request.driver ↔
    request ∈ system.pending
  task : request ∈ system.pending → ∃ phase completion,
    system.bridge.progress request = some (phase, completion) ∧
      (phase = .waiting ∨ completion.isSome)
  called : request ∉ system.pending → ∀ phase completion,
    system.bridge.progress request = some (phase, completion) → phase.isCalled
  polled_iff : system.bridge.polled = some request ↔ ∃ phase completion,
    system.bridge.progress request = some (phase, completion) ∧ phase.isPolled

/-- The requests of all drivers. A callback queues its microtask once. -/
structure RequestsInv (system : System) : Prop where
  request : ∀ request, RequestInv system request
  microtasks : system.microtasks.Nodup

theorem RequestsInv.empty : RequestsInv .empty where
  request _ := by
    constructor <;> simp [System.empty, Bridge.empty, Bridge.progress]
  microtasks := List.nodup_nil

section Frame

variable {system next : System} {request : Request}

theorem RequestInv.frame (h : RequestInv system request)
    (hoperation : next.operations request = system.operations request)
    (hpending : request ∈ next.pending ↔ request ∈ system.pending)
    (hmicrotask : request ∈ next.microtasks ↔ request ∈ system.microtasks)
    (hregistered : next.bridge.asyncTasks request.id = some request.driver ↔
      system.bridge.asyncTasks request.id = some request.driver)
    (hprogress : next.bridge.progress request = system.bridge.progress request)
    (hpolled : next.bridge.polled = some request ↔ system.bridge.polled = some request) :
    RequestInv next request where
  operation := by
    rw [hoperation, hprogress]
    exact h.operation
  pending_iff := by
    rw [hpending, hoperation]
    exact h.pending_iff
  queued_iff := by
    rw [hmicrotask, hpending, hprogress]
    exact h.queued_iff
  registered_iff := by
    rw [hregistered, hpending]
    exact h.registered_iff
  task := by
    rw [hpending, hprogress]
    exact h.task
  called := by
    rw [hpending, hprogress]
    exact h.called
  polled_iff := by
    rw [hpolled, hprogress]
    exact h.polled_iff

theorem RequestsInv.frame (h : RequestsInv system)
    (hoperations : next.operations = system.operations) (hpending : next.pending = system.pending)
    (hmicrotasks : next.microtasks = system.microtasks)
    (hregistered : next.bridge.asyncTasks = system.bridge.asyncTasks)
    (hprogress : next.bridge.progress = system.bridge.progress)
    (hpolled : next.bridge.polled = system.bridge.polled) : RequestsInv next where
  request request := (h.request request).frame (by rw [hoperations]) (by rw [hpending])
    (by rw [hmicrotasks]) (by rw [hregistered]) (by rw [hprogress]) (by rw [hpolled])
  microtasks := by
    rw [hmicrotasks]
    exact h.microtasks

end Frame

theorem Bridge.progress_setTask (bridge : Bridge) (request other : Request) (task : AsyncTask) :
    (bridge.setTask request task).progress other =
      if other = request then some (task.phase, task.completion) else bridge.progress other := by
  unfold progress setTask
  by_cases heq : other = request
  · simp [heq]
  · simp [heq]

/-- A step of the executor thread, which moves one task on and queues the microtask of its
callback as the callback runs. -/
theorem RequestsInv.poll {system next : System} {request : Request} {source target : TaskPhase}
    {completion completion' : Option FfiResult} (h : RequestsInv system)
    (hsource : system.bridge.progress request = some (source, completion))
    (hoperations : next.operations = system.operations) (hpending : next.pending = system.pending)
    (hregistered : next.bridge.asyncTasks = system.bridge.asyncTasks)
    (hprogress : ∀ other, next.bridge.progress other =
      if other = request then some (target, completion') else system.bridge.progress other)
    (hpolled : next.bridge.polled = if target.isPolled then some request else none)
    (hothers : ∀ other, other ≠ request → system.bridge.polled ≠ some other)
    (hcompletion : target = .waiting ∨ completion'.isSome ∨ request ∉ system.pending)
    (hmicrotasks : next.microtasks = system.microtasks ∧ target.isCalled = source.isCalled ∨
      next.microtasks = system.microtasks ++ [request] ∧ source.isCalled = false ∧ target.isCalled) :
    RequestsInv next := by
  have hself := h.request request
  have hprogress_self := hprogress request
  rw [if_pos rfl] at hprogress_self
  have hqueued : source.isCalled = false → request ∉ system.microtasks := by
    intro hsource' hmem
    obtain ⟨_, phase, _, hphase, hcalled⟩ := hself.queued_iff.mp hmem
    rw [hsource] at hphase
    cases hphase
    rw [hsource'] at hcalled
    cases hcalled
  have hpends : source.isCalled = false → request ∈ system.pending := by
    intro hsource'
    by_contra hnot
    rw [hself.called hnot _ _ hsource] at hsource'
    cases hsource'
  constructor
  · intro other
    by_cases heq : other = request
    · subst heq
      constructor
      · intro hnone
        rw [hoperations] at hnone
        rw [hself.operation hnone] at hsource
        cases hsource
      · rw [hpending, hoperations]
        exact hself.pending_iff
      · rw [hpending, hprogress_self]
        rcases hmicrotasks with ⟨hsame, hcalled⟩ | ⟨hmore, hcalls, hcalled⟩
        · rw [hsame, hself.queued_iff, hsource]
          simp [hcalled]
        · rw [hmore]
          simp [hcalled, hpends hcalls]
      · rw [hregistered, hpending]
        exact hself.registered_iff
      · rw [hpending, hprogress_self]
        intro hpend
        refine ⟨_, _, rfl, ?_⟩
        rcases hcompletion with hwait | hsome | hnot
        · exact .inl hwait
        · exact .inr hsome
        · exact absurd hpend hnot
      · rw [hpending, hprogress_self]
        rintro hnot _ _ ⟨⟩
        rcases hmicrotasks with ⟨_, hcalled⟩ | ⟨_, _, hcalled⟩
        · rw [hcalled]
          exact hself.called hnot _ _ hsource
        · exact hcalled
      · rw [hprogress_self, hpolled]
        cases htarget : target.isPolled <;> simp [htarget]
    · refine (h.request other).frame (by rw [hoperations]) (by rw [hpending]) ?_ (by rw [hregistered])
        (by rw [hprogress, if_neg heq]) ?_
      swap
      · rw [hpolled]
        constructor
        · cases target.isPolled <;> simp [Ne.symm heq]
        · exact fun hother => absurd hother (hothers other heq)
      rcases hmicrotasks with ⟨hsame, _⟩ | ⟨hmore, _, _⟩
      · rw [hsame]
      · simp [hmore, heq]
  · rcases hmicrotasks with ⟨hsame, _⟩ | ⟨hmore, hcalls, _⟩
    · rw [hsame]
      exact h.microtasks
    · rw [hmore]
      exact List.nodup_append.mpr ⟨h.microtasks, List.nodup_singleton _, by
        rintro other hother _ hself' rfl
        rw [List.mem_singleton.mp hself'] at hother
        exact hqueued hcalls hother⟩

theorem RequestsInv.advance {system next : System} {request : Request} {source target : TaskPhase}
    {bridge : Bridge} (h : RequestsInv system)
    (hadvance : system.bridge.advance source target request = some bridge)
    (hsource : source.isPolled)
    (hoperations : next.operations = system.operations) (hpending : next.pending = system.pending)
    (hregistered : next.bridge.asyncTasks = bridge.asyncTasks)
    (htasks : next.bridge.tasks = bridge.tasks)
    (hpolled : next.bridge.polled = if target.isPolled then bridge.polled else none)
    (hmicrotasks : next.microtasks = system.microtasks ∧ target.isCalled = source.isCalled ∨
      next.microtasks = system.microtasks ++ [request] ∧ source.isCalled = false ∧ target.isCalled) :
    RequestsInv next := by
  obtain ⟨task, htask, rfl, rfl⟩ := Bridge.advance_eq_some hadvance
  have hprogress : system.bridge.progress request = some (task.phase, task.completion) := by
    simp [Bridge.progress, htask]
  have hthread := (h.request request).polled_iff.mpr ⟨_, _, hprogress, hsource⟩
  have hnext : ∀ other, next.bridge.progress other =
      if other = request then some (target, task.completion) else system.bridge.progress other := by
    intro other
    rw [← Bridge.progress_setTask _ _ _ { task with phase := target }]
    simp only [Bridge.progress, htasks]
  refine h.poll hprogress hoperations hpending hregistered hnext ?_ ?_ ?_ hmicrotasks
  · rw [hpolled, ← hthread]
    rfl
  · intro other hne hother
    rw [hthread] at hother
    exact hne (Option.some.inj hother).symm
  · by_cases hpend : request ∈ system.pending
    · obtain ⟨phase, completion, hphase, hstored⟩ := (h.request request).task hpend
      rw [hprogress] at hphase
      cases hphase
      rcases hstored with hwaiting | hsome
      · rw [hwaiting] at hsource
        cases hsource
      · exact .inr (.inl hsome)
    · exact .inr (.inr hpend)

section Steps

variable {system : System} {request : Request}

theorem RequestInv.new (h : RequestInv system request) (hnew : system.operations request = none) :
    request ∉ system.pending ∧ request ∉ system.microtasks ∧
      system.bridge.asyncTasks request.id ≠ some request.driver ∧
      system.bridge.progress request = none ∧ system.bridge.polled ≠ some request := by
  have hpending : request ∉ system.pending := by
    rw [h.pending_iff, hnew]
    rintro ⟨_, ⟨⟩, _⟩
  refine ⟨hpending, ?_, ?_, h.operation hnew, ?_⟩
  · rw [h.queued_iff]
    exact fun hqueued => hpending hqueued.1
  · rw [Ne, h.registered_iff]
    exact hpending
  · rw [Ne, h.polled_iff, h.operation hnew]
    rintro ⟨_, _, ⟨⟩, _⟩

theorem RequestsInv.fail (h : RequestsInv system) (hnew : system.operations request = none) :
    RequestsInv { system with
      operations := Function.update system.operations request (some { settled := true })
      pending := (insert request system.pending).erase request } where
  request other := by
    by_cases heq : other = request
    · subst heq
      obtain ⟨hpending, hqueued, hregistered, hprogress, hthread⟩ := (h.request other).new hnew
      constructor <;> simp [hqueued, hregistered, hprogress, hthread]
    · exact (h.request other).frame (Function.update_of_ne heq _ _) (by simp [heq]) Iff.rfl Iff.rfl
        rfl Iff.rfl
  microtasks := h.microtasks

theorem RequestsInv.start (h : RequestsInv system) (hnew : system.operations request = none)
    {bridge : Bridge} (hstart : system.bridge.startAsync request = .ok bridge) :
    RequestsInv { system with
      operations := Function.update system.operations request (some {})
      pending := insert request system.pending
      bridge } := by
  obtain ⟨hfree, rfl⟩ := Bridge.startAsync_eq_ok hstart
  refine ⟨?_, h.microtasks⟩
  intro other
  by_cases heq : other = request
  · subst heq
    obtain ⟨hpending, hqueued, _, _, hthread⟩ := (h.request other).new hnew
    constructor <;> simp [hqueued, hthread, Bridge.progress, Bridge.setTask, TaskPhase.isCalled,
      TaskPhase.isPolled]
  · refine (h.request other).frame (Function.update_of_ne heq _ _) (by simp [heq]) Iff.rfl ?_ ?_
      Iff.rfl
    · by_cases hid : other.id = request.id
      · have hdriver : request.driver ≠ other.driver := by
          intro hsame
          exact heq (by cases other; cases request; simp_all)
        simp [hid, hfree, hdriver]
      · simp [Function.update_of_ne hid]
    · have hprogress := Bridge.progress_setTask system.bridge request other {}
      rw [if_neg heq] at hprogress
      exact hprogress

theorem RequestsInv.interrupt (h : RequestsInv system) {operation : PendingOperation}
    (hoperation : system.operations request = some operation) (hsettled : operation.settled = false)
    (ids : Nat → Bool) :
    RequestsInv { system with
      operations :=
        Function.update system.operations request (some { operation with cancelled := true })
      bridge := system.bridge.cancelAsync ids } where
  request other := by
    by_cases heq : other = request
    · subst heq
      have hself := h.request other
      have hpending : other ∈ system.pending := hself.pending_iff.mpr ⟨operation, hoperation, hsettled⟩
      constructor
      · simp
      · simp [hpending, hsettled]
      · simpa using hself.queued_iff
      · exact hself.registered_iff
      · simpa using hself.task
      · simpa using hself.called
      · simpa using hself.polled_iff
    · exact (h.request other).frame (Function.update_of_ne heq _ _) Iff.rfl Iff.rfl Iff.rfl
        (Bridge.progress_cancelAsync _ _ _) Iff.rfl
  microtasks := h.microtasks

theorem RequestsInv.take (h : RequestsInv system) (hmem : request ∈ system.microtasks) :
    ∃ operation task result, system.operations request = some operation ∧
      operation.settled = false ∧ system.bridge.tasks request = some task ∧
      task.phase.isCalled ∧
      system.bridge.takeAsync request.id = some (request, result,
        { system.bridge.setTask request { task with completion := none } with
          asyncTasks := Function.update system.bridge.asyncTasks request.id none }) := by
  have hself := h.request request
  obtain ⟨hpending, phase, completion, hprogress, hcalled⟩ := hself.queued_iff.mp hmem
  obtain ⟨operation, hoperation, hsettled⟩ := hself.pending_iff.mp hpending
  obtain ⟨task, htask, hphase⟩ := Option.map_eq_some_iff.mp hprogress
  cases hphase
  obtain ⟨_, _, hprogress', hstored⟩ := hself.task hpending
  rw [hprogress] at hprogress'
  cases hprogress'
  rcases hstored with hwaiting | hstored
  · rw [hwaiting] at hcalled
    cases hcalled
  obtain ⟨result, hresult⟩ := Option.isSome_iff_exists.mp hstored
  refine ⟨operation, task, result, hoperation, hsettled, htask, hcalled, ?_⟩
  simp [Bridge.takeAsync, hself.registered_iff.mpr hpending, htask, hresult]

theorem RequestsInv.complete (h : RequestsInv system) {operation : PendingOperation} {task : AsyncTask}
    (hoperation : system.operations request = some operation)
    (htask : system.bridge.tasks request = some task) (hcalled : task.phase.isCalled)
    (hmem : request ∈ system.microtasks) :
    RequestsInv { system with
      operations := Function.update system.operations request (some { operation with settled := true })
      pending := system.pending.erase request
      microtasks := system.microtasks.erase request
      bridge := { system.bridge.setTask request { task with completion := none } with
        asyncTasks := Function.update system.bridge.asyncTasks request.id none } } where
  request other := by
    have hregistered : system.bridge.asyncTasks request.id = some request.driver :=
      (h.request request).registered_iff.mpr ((h.request request).queued_iff.mp hmem).1
    have hprogress : system.bridge.progress request = some (task.phase, task.completion) := by
      simp [Bridge.progress, htask]
    by_cases heq : other = request
    · subst heq
      have hnotin : other ∉ system.microtasks.erase other := h.microtasks.not_mem_erase
      constructor
      · simp
      · simp
      · simp [hnotin]
      · simp
      · simp
      · simp [Bridge.progress, Bridge.setTask, hcalled]
      · simpa [Bridge.progress, Bridge.setTask, htask] using (h.request other).polled_iff
    · refine (h.request other).frame (Function.update_of_ne heq _ _) (by simp [heq])
        (List.mem_erase_of_ne heq) ?_ ?_ Iff.rfl
      · by_cases hid : other.id = request.id
        · have hdriver : request.driver ≠ other.driver := by
            intro hsame
            exact heq (by cases other; cases request; simp_all)
          simp [hid, hregistered, hdriver]
        · simp [Function.update_of_ne hid]
      · have hprogress := Bridge.progress_setTask system.bridge request other
          { task with completion := none }
        rw [if_neg heq] at hprogress
        exact hprogress
  microtasks := h.microtasks.erase _

theorem RequestsInv.requestStep {next : System} {events : List Event} (h : RequestsInv system)
    (hstep : System.RequestStep system events next) : RequestsInv next := by
  cases hstep with
  | refuse _ => exact h
  | ignore => exact h
  | fail request exit _ hnew => exact h.fail hnew
  | start request bridge _ hnew hstart => exact h.start hnew hstart
  | interrupt request operation hoperation hsettled => exact h.interrupt hoperation hsettled _
  | stale request hmem hstale =>
      obtain ⟨_, _, _, _, _, _, _, htake⟩ := h.take hmem
      rcases hstale with hpending | hnone
      · exact absurd ((h.request request).queued_iff.mp hmem).1 hpending
      · rw [htake] at hnone
        cases hnone
  | complete request owner result bridge hmem hpending htake =>
      obtain ⟨operation, task, _, hoperation, hsettled, htask, hcalled, htake'⟩ := h.take hmem
      rw [htake'] at htake
      cases htake
      simp only [System.finish, hoperation, hsettled, Bool.false_eq_true, if_false]
      exact h.complete hoperation htask hcalled hmem
  | store request completion bridge hstore =>
      obtain ⟨task, htask, hpolled, hphase, rfl⟩ := Bridge.store_eq_some hstore
      have hprogress : system.bridge.progress request = some (.waiting, task.completion) := by
        simp [Bridge.progress, htask, hphase]
      exact h.poll hprogress rfl rfl rfl (Bridge.progress_setTask _ _ · _) rfl
        (by simp [hpolled]) (.inr (.inl rfl)) (.inl ⟨rfl, rfl⟩)
  | invoke request bridge hadvance =>
      exact h.advance hadvance rfl rfl rfl rfl rfl rfl (.inl ⟨rfl, rfl⟩)
  | callback request bridge hadvance =>
      exact h.advance hadvance rfl rfl rfl rfl rfl rfl (.inr ⟨rfl, rfl, rfl⟩)
  | returnCallback request bridge hadvance =>
      exact h.advance hadvance rfl rfl rfl rfl rfl rfl (.inl ⟨rfl, rfl⟩)
  | dropActive request bridge hdrop =>
      obtain ⟨middle, hadvance, rfl⟩ := Bridge.dropActive_eq_some hdrop
      exact h.advance hadvance rfl rfl rfl rfl rfl rfl (.inl ⟨rfl, rfl⟩)
  | finishPoll request bridge hfinish =>
      obtain ⟨middle, hadvance, rfl⟩ := Bridge.finishPoll_eq_some hfinish
      exact h.advance hadvance rfl rfl rfl rfl rfl rfl (.inl ⟨rfl, rfl⟩)
  | passBarrier driver bridge hbarrier =>
      obtain ⟨_, _, rfl⟩ := Bridge.passBarrier_eq_some hbarrier
      exact h.frame rfl rfl rfl rfl rfl rfl

end Steps

section Layers

variable {system next : System} {driver : Nat} {events : List Event}

theorem Bridge.init_frame (bridge : Bridge) (apiVersion : Int) (boot : Except ErrorCode Unit) :
    (bridge.init apiVersion boot).2.asyncTasks = bridge.asyncTasks ∧
      (bridge.init apiVersion boot).2.tasks = bridge.tasks ∧
      (bridge.init apiVersion boot).2.polled = bridge.polled ∧
      (bridge.init apiVersion boot).2.barriers = bridge.barriers := by
  unfold Bridge.init
  split
  · split
    · split <;> exact ⟨rfl, rfl, rfl, rfl⟩
    · exact ⟨rfl, rfl, rfl, rfl⟩
  · exact ⟨rfl, rfl, rfl, rfl⟩
  · exact ⟨rfl, rfl, rfl, rfl⟩
  · split <;> exact ⟨rfl, rfl, rfl, rfl⟩

theorem ReleaseStep.frame {stage stage' : Shutdown} {bridge : Bridge}
    (h : ReleaseStep system driver stage stage' bridge) :
    bridge.asyncTasks = system.bridge.asyncTasks ∧ bridge.progress = system.bridge.progress ∧
      bridge.polled = system.bridge.polled := by
  cases h with
  | cancelAll => exact ⟨rfl, funext (Bridge.progress_cancelAsync _ _), rfl⟩
  | _ => exact ⟨rfl, rfl, rfl⟩

theorem RequestsInv.driverStep (h : RequestsInv system) (howner : OwnerInv system)
    (hstep : System.DriverStep system events next) : RequestsInv next := by
  cases hstep with
  | init driver apiVersion boot _ =>
      obtain ⟨hregistered, htasks, hpolled, _⟩ := system.bridge.init_frame apiVersion boot
      exact h.frame rfl rfl rfl hregistered (by funext; simp only [Bridge.progress, htasks]) hpolled
  | drain driver _ =>
      refine h.frame rfl rfl rfl rfl ?_ rfl
      funext request
      simp [System.drain]
  | shutdownStep driver stage stage' bridge hphase hstage =>
      obtain ⟨hregistered, hprogress, hpolled⟩ := (howner.release_cases hphase hstage).frame
      exact h.frame rfl rfl rfl hregistered hprogress hpolled
  | _ => exact h.frame rfl rfl rfl rfl rfl rfl

/-- Between two polls, the tasks of a driver without pending requests are finished. -/
theorem RequestsInv.finished (h : RequestsInv system) (hpolled : system.bridge.polled = none)
    {request : Request} (hpending : request ∉ system.pending) {phase : TaskPhase}
    {completion : Option FfiResult}
    (hprogress : system.bridge.progress request = some (phase, completion)) : phase = .finished := by
  have hcalled := (h.request request).called hpending phase completion hprogress
  apply TaskPhase.finished_of_isCalled hcalled
  by_contra hpoll
  have hthread := (h.request request).polled_iff.mpr ⟨phase, completion, hprogress, by simpa using hpoll⟩
  rw [hpolled] at hthread
  cases hthread

end Layers

/-! ## Layers -/

def DriverPhase.isUnused : DriverPhase → Bool
  | .absent | .opened | .rejected | .initialized => true
  | _ => false

def DriverPhase.isDrained : DriverPhase → Bool
  | .shutting _ | .closed => true
  | _ => false

def DriverPhase.isReleased : DriverPhase → Bool
  | .shutting (.returned _) | .closed => true
  | _ => false

structure DriverInv (system : System) (driver : Nat) : Prop where
  unused : (system.phase driver).isUnused → ∀ request, request.driver = driver →
    system.operations request = none
  draining : ∀ active, system.phase driver = .draining active →
    ∀ request ∈ system.pending, request.driver = driver → request ∈ active
  drained : (system.phase driver).isDrained → ∀ request ∈ system.pending, request.driver ≠ driver
  barrier : system.bridge.barriers driver ≠ none → (system.phase driver).isDrained
  finished : (system.phase driver).isReleased ∨ system.bridge.barriers driver = some true →
    ∀ request, request.driver = driver → ∀ phase completion,
      system.bridge.progress request = some (phase, completion) → phase = .finished

theorem DriverInv.empty (driver : Nat) : DriverInv .empty driver := by
  constructor <;> simp [System.empty, Bridge.empty, Bridge.progress]

section Requests

variable {system next : System} {events : List Event}

theorem RequestStep.operations (h : RequestsInv system)
    (hstep : System.RequestStep system events next) (request : Request)
    (hnone : system.operations request = none) (hready : system.phase request.driver ≠ .ready) :
    next.operations request = none := by
  cases hstep with
  | fail other exit hphase _ =>
      have hne : request ≠ other := fun heq => hready (heq ▸ hphase)
      exact (Function.update_of_ne hne _ _).trans hnone
  | start other bridge hphase _ _ =>
      have hne : request ≠ other := fun heq => hready (heq ▸ hphase)
      exact (Function.update_of_ne hne _ _).trans hnone
  | interrupt other operation hoperation _ =>
      have hne : request ≠ other := by
        rintro rfl
        rw [hnone] at hoperation
        cases hoperation
      exact (Function.update_of_ne hne _ _).trans hnone
  | complete other owner result bridge hmem _ htake =>
      obtain ⟨operation, _, _, hoperation, hsettled, _⟩ := h.take hmem
      have hne : request ≠ other := by
        rintro rfl
        rw [hnone] at hoperation
        cases hoperation
      simp only [System.finish, hoperation, hsettled, Bool.false_eq_true, if_false]
      exact (Function.update_of_ne hne _ _).trans hnone
  | _ => exact hnone

theorem RequestStep.pending (h : RequestsInv system)
    (hstep : System.RequestStep system events next) (request : Request)
    (hpending : request ∈ next.pending) (hready : system.phase request.driver ≠ .ready) :
    request ∈ system.pending := by
  cases hstep with
  | fail other exit hphase _ =>
      have hne : request ≠ other := fun heq => hready (heq ▸ hphase)
      simpa [hne] using hpending
  | start other bridge hphase _ _ =>
      have hne : request ≠ other := fun heq => hready (heq ▸ hphase)
      simpa [hne] using hpending
  | complete other owner result bridge hmem _ htake =>
      obtain ⟨operation, _, _, hoperation, hsettled, _⟩ := h.take hmem
      simp only [System.finish, hoperation, hsettled, Bool.false_eq_true, if_false] at hpending
      exact Finset.mem_of_mem_erase hpending
  | _ => exact hpending

theorem Bridge.progress_update {bridge next : Bridge} {request other : Request}
    {task task' : AsyncTask} (htasks : next.tasks = (bridge.setTask other task').tasks)
    (htask : bridge.tasks other = some task) (hfinished : task.phase = .finished → task'.phase = .finished)
    {phase : TaskPhase} {completion : Option FfiResult}
    (hprogress : next.progress request = some (phase, completion)) :
    ∃ phase' completion', bridge.progress request = some (phase', completion') ∧
      (phase' = .finished → phase = .finished) := by
  have hset := bridge.progress_setTask other request task'
  rw [progress, ← htasks] at hset
  rw [progress, hset] at hprogress
  split at hprogress
  · rename_i heq
    cases hprogress
    subst heq
    exact ⟨task.phase, task.completion, by simp [progress, htask], hfinished⟩
  · exact ⟨phase, completion, hprogress, id⟩

theorem Bridge.progress_advance {bridge next middle : Bridge} {source target : TaskPhase}
    {request other : Request} (hadvance : bridge.advance source target request = some middle)
    (htasks : next.tasks = middle.tasks) (hsource : source ≠ .finished) {phase : TaskPhase}
    {completion : Option FfiResult} (hprogress : next.progress other = some (phase, completion)) :
    ∃ phase' completion', bridge.progress other = some (phase', completion') ∧
      (phase' = .finished → phase = .finished) := by
  obtain ⟨task, htask, rfl, rfl⟩ := advance_eq_some hadvance
  exact progress_update htasks htask (fun h => absurd h hsource) hprogress

theorem RequestStep.progress (hstep : System.RequestStep system events next) (request : Request)
    {phase : TaskPhase} {completion : Option FfiResult}
    (hprogress : next.bridge.progress request = some (phase, completion))
    (hready : system.phase request.driver ≠ .ready) :
    ∃ phase' completion', system.bridge.progress request = some (phase', completion') ∧
      (phase' = .finished → phase = .finished) := by
  cases hstep with
  | start other bridge hphase _ hstart =>
      obtain ⟨_, rfl⟩ := Bridge.startAsync_eq_ok hstart
      have hne : request ≠ other := fun heq => hready (heq ▸ hphase)
      have hframe := Bridge.progress_setTask system.bridge other request {}
      rw [if_neg hne] at hframe
      exact ⟨phase, completion, hframe.symm.trans hprogress, id⟩
  | interrupt other operation _ _ =>
      simp only [Bridge.progress_cancelAsync] at hprogress
      exact ⟨phase, completion, hprogress, id⟩
  | complete other owner result bridge _ _ htake =>
      obtain ⟨_, _, task, htask, _, rfl⟩ := Bridge.takeAsync_eq_some htake
      rw [System.finish_bridge] at hprogress
      have hfinished : task.phase = .finished →
          ({ task with completion := none } : AsyncTask).phase = .finished := id
      exact Bridge.progress_update (by rfl) htask hfinished hprogress
  | store other completion' bridge hstore =>
      obtain ⟨task, htask, _, hwaiting, rfl⟩ := Bridge.store_eq_some hstore
      have hfinished : task.phase ≠ .finished := by
        rw [hwaiting]
        nofun
      exact Bridge.progress_update (by rfl) htask (fun h => absurd h hfinished) hprogress
  | invoke other bridge hadvance => exact Bridge.progress_advance hadvance (by rfl) nofun hprogress
  | callback other bridge hadvance => exact Bridge.progress_advance hadvance (by rfl) nofun hprogress
  | returnCallback other bridge hadvance =>
      exact Bridge.progress_advance hadvance (by rfl) nofun hprogress
  | dropActive other bridge hdrop =>
      obtain ⟨middle, hadvance, rfl⟩ := Bridge.dropActive_eq_some hdrop
      exact Bridge.progress_advance hadvance (by rfl) nofun hprogress
  | finishPoll other bridge hfinish =>
      obtain ⟨middle, hadvance, rfl⟩ := Bridge.finishPoll_eq_some hfinish
      exact Bridge.progress_advance hadvance (by rfl) nofun hprogress
  | passBarrier driver bridge hbarrier =>
      obtain ⟨_, _, rfl⟩ := Bridge.passBarrier_eq_some hbarrier
      exact ⟨phase, completion, hprogress, id⟩
  | _ => exact ⟨phase, completion, hprogress, id⟩

theorem RequestStep.barriers (hstep : System.RequestStep system events next) (driver : Nat) :
    next.bridge.barriers driver = system.bridge.barriers driver ∨
      system.bridge.barriers driver = some false ∧ system.bridge.polled = none := by
  cases hstep with
  | start other bridge _ _ hstart =>
      obtain ⟨_, rfl⟩ := Bridge.startAsync_eq_ok hstart
      exact .inl rfl
  | complete other owner result bridge _ _ htake =>
      obtain ⟨_, _, task, _, _, rfl⟩ := Bridge.takeAsync_eq_some htake
      rw [System.finish_bridge]
      exact .inl rfl
  | store other completion bridge hstore =>
      obtain ⟨task, _, _, _, rfl⟩ := Bridge.store_eq_some hstore
      exact .inl rfl
  | invoke other bridge hadvance =>
      obtain ⟨task, _, _, rfl⟩ := Bridge.advance_eq_some hadvance
      exact .inl rfl
  | callback other bridge hadvance =>
      obtain ⟨task, _, _, rfl⟩ := Bridge.advance_eq_some hadvance
      exact .inl rfl
  | returnCallback other bridge hadvance =>
      obtain ⟨task, _, _, rfl⟩ := Bridge.advance_eq_some hadvance
      exact .inl rfl
  | dropActive other bridge hdrop =>
      obtain ⟨middle, hadvance, rfl⟩ := Bridge.dropActive_eq_some hdrop
      obtain ⟨task, _, _, rfl⟩ := Bridge.advance_eq_some hadvance
      exact .inl rfl
  | finishPoll other bridge hfinish =>
      obtain ⟨middle, hadvance, rfl⟩ := Bridge.finishPoll_eq_some hfinish
      obtain ⟨task, _, _, rfl⟩ := Bridge.advance_eq_some hadvance
      exact .inl rfl
  | passBarrier passing bridge hbarrier =>
      obtain ⟨hpolled, hqueued, rfl⟩ := Bridge.passBarrier_eq_some hbarrier
      by_cases heq : driver = passing
      · rw [heq]
        exact .inr ⟨hqueued, hpolled⟩
      · exact .inl (Function.update_of_ne heq _ _)
  | _ => exact .inl rfl

theorem DriverInv.requestStep {driver : Nat} (h : DriverInv system driver)
    (hrequests : RequestsInv system) (hstep : System.RequestStep system events next) :
    DriverInv next driver := by
  obtain ⟨hphase, _, _⟩ := hstep.frame
  have hready : ∀ request : Request, request.driver = driver →
      system.phase driver ≠ .ready → system.phase request.driver ≠ .ready := by
    rintro request rfl hne
    exact hne
  have hunused : (system.phase driver).isUnused → system.phase driver ≠ .ready := by
    intro hunused heq
    rw [heq] at hunused
    cases hunused
  have hdrained : (system.phase driver).isDrained → system.phase driver ≠ .ready := by
    intro hdrained heq
    rw [heq] at hdrained
    cases hdrained
  have hreleased : (system.phase driver).isReleased → (system.phase driver).isDrained := by
    intro hreleased
    cases hcase : system.phase driver <;> simp_all [DriverPhase.isReleased, DriverPhase.isDrained]
  have hbarrier := RequestStep.barriers hstep driver
  have hkept : next.bridge.barriers driver ≠ none → (system.phase driver).isDrained := by
    intro hnext
    apply h.barrier
    rcases hbarrier with heq | ⟨hqueued, _⟩
    · rwa [← heq]
    · simp [hqueued]
  constructor
  · intro hphase' request hdriver
    rw [hphase] at hphase'
    exact RequestStep.operations hrequests hstep request (h.unused hphase' request hdriver)
      (hready request hdriver (hunused hphase'))
  · intro active hphase' request hpending hdriver
    rw [hphase] at hphase'
    have hne : system.phase driver ≠ .ready := by simp [hphase']
    exact h.draining active hphase' request
      (RequestStep.pending hrequests hstep request hpending (hready request hdriver hne)) hdriver
  · intro hphase' request hpending hdriver
    rw [hphase] at hphase'
    exact h.drained hphase' request (RequestStep.pending hrequests hstep request hpending
      (hready request hdriver (hdrained hphase'))) hdriver
  · rw [hphase]
    exact hkept
  · rw [hphase]
    intro hdone request hdriver phase completion hprogress
    have hdrained' : (system.phase driver).isDrained := by
      rcases hdone with hdone | hdone
      · exact hreleased hdone
      · exact hkept (by simp [hdone])
    have hne := hready request hdriver (hdrained hdrained')
    obtain ⟨phase', completion', hprogress', hfinished⟩ :=
      RequestStep.progress hstep request hprogress hne
    apply hfinished
    rcases hbarrier with heq | ⟨_, hpolled⟩
    · rw [heq] at hdone
      exact h.finished hdone request hdriver phase' completion' hprogress'
    · refine hrequests.finished hpolled ?_ hprogress'
      intro hpending
      exact h.drained hdrained' request hpending hdriver

end Requests

section Layers

variable {system next : System} {driver : Nat}

theorem DriverInv.frame (h : DriverInv system driver)
    (hphase : next.phase driver = system.phase driver)
    (hoperations : next.operations = system.operations) (hpending : next.pending = system.pending)
    (hprogress : next.bridge.progress = system.bridge.progress)
    (hbarrier : next.bridge.barriers driver = system.bridge.barriers driver) :
    DriverInv next driver := by
  constructor
  · rw [hphase, hoperations]
    exact h.unused
  · rw [hphase, hpending]
    exact h.draining
  · rw [hphase, hpending]
    exact h.drained
  · rw [hphase, hbarrier]
    exact h.barrier
  · rw [hphase, hbarrier, hprogress]
    exact h.finished

theorem DriverInv.move (h : DriverInv system driver) {phase : DriverPhase}
    (hphase : next.phase driver = phase) (hoperations : next.operations = system.operations)
    (hpending : next.pending = system.pending)
    (hprogress : next.bridge.progress = system.bridge.progress)
    (hbarrier : next.bridge.barriers driver = system.bridge.barriers driver)
    (hunused : phase.isUnused → (system.phase driver).isUnused)
    (hdraining : ∀ active, phase = .draining active →
      ∀ request ∈ system.pending, request.driver = driver → request ∈ active)
    (hdrained : phase.isDrained → ∀ request ∈ system.pending, request.driver ≠ driver)
    (hkept : (system.phase driver).isDrained → phase.isDrained)
    (hfinished : phase.isReleased → ∀ request, request.driver = driver → ∀ phase completion,
      system.bridge.progress request = some (phase, completion) → phase = .finished) :
    DriverInv next driver := by
  constructor
  · rw [hphase, hoperations]
    exact fun hnext => h.unused (hunused hnext)
  · rw [hphase, hpending]
    exact hdraining
  · rw [hphase, hpending]
    exact hdrained
  · rw [hphase, hbarrier]
    exact fun hnext => hkept (h.barrier hnext)
  · rw [hphase, hbarrier, hprogress]
    rintro (hnext | hnext)
    · exact hfinished hnext
    · exact h.finished (.inr hnext)

theorem DriverInv.no_tasks (h : DriverInv system driver) (hrequests : RequestsInv system)
    (hunused : (system.phase driver).isUnused) {request : Request} (hdriver : request.driver = driver) :
    request ∉ system.pending ∧ system.bridge.progress request = none :=
  let ⟨hpending, _, _, hprogress, _⟩ := (hrequests.request request).new (h.unused hunused request hdriver)
  ⟨hpending, hprogress⟩

theorem DriverInv.releaseStep (h : DriverInv system driver) (hrequests : RequestsInv system)
    {stage stage' : Shutdown} {bridge : Bridge} (hphase : system.phase driver = .shutting stage)
    (hstep : ReleaseStep system driver stage stage' bridge) :
    DriverInv { system.setPhase driver (.shutting stage') with bridge } driver := by
  have hnext : ({ system.setPhase driver (.shutting stage') with bridge } : System).phase driver =
      .shutting stage' := Function.update_self ..
  have hdrained : ∀ request ∈ system.pending, request.driver ≠ driver :=
    h.drained (by rw [hphase]; rfl)
  obtain ⟨_, hprogress, _⟩ := hstep.frame
  have hmove : bridge.barriers driver = system.bridge.barriers driver →
      ((DriverPhase.shutting stage').isReleased → ∀ request, request.driver = driver →
        ∀ phase completion, system.bridge.progress request = some (phase, completion) →
          phase = .finished) →
      DriverInv { system.setPhase driver (.shutting stage') with bridge } driver := by
    intro hbarrier hfinished
    exact h.move hnext rfl rfl hprogress hbarrier (by simp [DriverPhase.isUnused]) (by simp)
      (fun _ => hdrained) (fun _ => rfl) hfinished
  cases hstep with
  | shared runtime owners _ _ _ => exact hmove rfl (by simp [DriverPhase.isReleased])
  | final runtime _ _ => exact hmove rfl (by simp [DriverPhase.isReleased])
  | barrier runtime =>
      constructor
      · simp [System.setPhase, DriverPhase.isUnused]
      · simp [System.setPhase]
      · exact fun _ => hdrained
      · simp [System.setPhase, DriverPhase.isDrained]
      · simp [System.setPhase, DriverPhase.isReleased]
  | passed runtime owners _ _ hbarrier => exact hmove rfl fun _ => h.finished (.inr hbarrier)
  | stopAccepting => exact hmove rfl (by simp [DriverPhase.isReleased])
  | cancelAll => exact hmove rfl (by simp [DriverPhase.isReleased])
  | idle _ => exact hmove rfl (by simp [DriverPhase.isReleased])
  | join hpolled =>
      refine hmove rfl fun _ request hdriver phase completion hprogress => ?_
      exact hrequests.finished hpolled (fun hpending => hdrained request hpending hdriver) hprogress

theorem DriverInv.moveTo (hdrivers : ∀ driver, DriverInv system driver) (driver : Nat)
    (phase : DriverPhase) (hphase : next.phase = Function.update system.phase driver phase)
    (hoperations : next.operations = system.operations) (hpending : next.pending = system.pending)
    (hprogress : next.bridge.progress = system.bridge.progress)
    (hbarriers : next.bridge.barriers = system.bridge.barriers)
    (hunused : phase.isUnused → (system.phase driver).isUnused)
    (hdraining : ∀ active, phase = .draining active →
      ∀ request ∈ system.pending, request.driver = driver → request ∈ active)
    (hdrained : phase.isDrained → ∀ request ∈ system.pending, request.driver ≠ driver)
    (hkept : (system.phase driver).isDrained → phase.isDrained)
    (hfinished : phase.isReleased → ∀ request, request.driver = driver → ∀ phase completion,
      system.bridge.progress request = some (phase, completion) → phase = .finished)
    (other : Nat) : DriverInv next other := by
  by_cases heq : other = driver
  · subst heq
    exact (hdrivers other).move (by rw [hphase, Function.update_self]) hoperations hpending hprogress
      (by rw [hbarriers]) hunused hdraining hdrained hkept hfinished
  · exact (hdrivers other).frame (by rw [hphase, Function.update_of_ne heq]) hoperations hpending
      hprogress (by rw [hbarriers])

theorem DriverInv.driverStep {events : List Event} (hdrivers : ∀ driver, DriverInv system driver)
    (hrequests : RequestsInv system) (howner : OwnerInv system)
    (hstep : System.DriverStep system events next) (other : Nat) : DriverInv next other := by
  cases hstep with
  | openCallback driver hphase =>
      exact DriverInv.moveTo hdrivers driver .opened (by rfl) (by rfl) (by rfl) (by rfl) (by rfl)
        (fun _ => by rw [hphase]; rfl) nofun nofun
        (by simp [hphase, DriverPhase.isDrained]) nofun other
  | init driver apiVersion boot hphase =>
      obtain ⟨_, htasks, _, hbarriers⟩ := system.bridge.init_frame apiVersion boot
      have hprogress : (system.bridge.init apiVersion boot).2.progress = system.bridge.progress := by
        funext request
        simp only [Bridge.progress, htasks]
      refine DriverInv.moveTo hdrivers driver _ (by rfl) (by rfl) (by rfl) hprogress hbarriers
        (fun _ => by rw [hphase]; rfl) ?_ ?_ (by simp [hphase, DriverPhase.isDrained]) ?_ other
      · intro active
        split <;> nofun
      · split <;> nofun
      · split <;> nofun
  | acquire driver hphase =>
      exact DriverInv.moveTo hdrivers driver .ready (by rfl) (by rfl) (by rfl) (by rfl) (by rfl)
        nofun nofun nofun (by simp [hphase, DriverPhase.isDrained]) nofun other
  | drain driver hphase =>
      have hprogress : (system.drain driver).bridge.progress = system.bridge.progress := by
        funext request
        simp [System.drain]
      refine DriverInv.moveTo hdrivers driver (.draining _) (by rfl) (by rfl) (by rfl) hprogress
        (by rfl) nofun ?_ nofun (by simp [hphase, DriverPhase.isDrained]) nofun other
      rintro _ ⟨⟩ request hpending hdriver
      exact Finset.mem_filter.mpr ⟨hpending, hdriver⟩
  | skipDrain driver hphase =>
      refine DriverInv.moveTo hdrivers driver (.shutting .called) (by rfl) (by rfl) (by rfl) (by rfl)
        (by rfl) nofun nofun (fun _ => ?_) (by simp [hphase, DriverPhase.isDrained]) nofun other
      intro request hpending hdriver
      exact ((hdrivers driver).no_tasks hrequests (by rw [hphase]; rfl) hdriver).1 hpending
  | release driver active hphase hsettled =>
      refine DriverInv.moveTo hdrivers driver (.shutting .called) (by rfl) (by rfl) (by rfl) (by rfl)
        (by rfl) nofun nofun (fun _ => ?_) (by simp [hphase, DriverPhase.isDrained]) nofun other
      intro request hpending hdriver
      have hactive := (hdrivers driver).draining active hphase request hpending hdriver
      obtain ⟨operation, hoperation, hdone⟩ := hsettled request hactive
      obtain ⟨operation', hoperation', hnot⟩ := (hrequests.request request).pending_iff.mp hpending
      rw [Option.mem_def, hoperation'] at hoperation
      cases hoperation
      rw [hnot] at hdone
      cases hdone
  | shutdownStep driver stage stage' bridge hphase hstage =>
      have hrelease := howner.release_cases hphase hstage
      by_cases heq : other = driver
      · subst heq
        exact (hdrivers other).releaseStep hrequests hphase hrelease
      · obtain ⟨_, hprogress, _⟩ := hrelease.frame
        refine (hdrivers other).frame (Function.update_of_ne heq _ _) rfl rfl hprogress ?_
        cases hrelease with
        | barrier runtime => exact Function.update_of_ne heq _ _
        | _ => rfl
  | close driver hphase =>
      have hunused : (system.phase driver).isUnused ∨ ∃ code,
          system.phase driver = .shutting (.returned code) := by
        rcases hphase with hphase | hphase | hphase
        · exact .inl (by rw [hphase]; rfl)
        · exact .inl (by rw [hphase]; rfl)
        · exact .inr hphase
      refine DriverInv.moveTo hdrivers driver .closed (by rfl) (by rfl) (by rfl) (by rfl) (by rfl)
        nofun nofun (fun _ => ?_) (fun _ => rfl) (fun _ => ?_) other
      · intro request hpending hdriver
        rcases hunused with hunused | ⟨code, hphase⟩
        · exact ((hdrivers driver).no_tasks hrequests hunused hdriver).1 hpending
        · exact (hdrivers driver).drained (by rw [hphase]; rfl) request hpending hdriver
      · intro request hdriver phase completion hprogress
        rcases hunused with hunused | ⟨code, hphase⟩
        · rw [((hdrivers driver).no_tasks hrequests hunused hdriver).2] at hprogress
          cases hprogress
        · exact (hdrivers driver).finished (.inl (by rw [hphase]; rfl)) request hdriver phase
            completion hprogress

end Layers

/-! ## Runs -/

structure SystemInv (system : System) : Prop where
  owners : OwnerInv system
  requests : RequestsInv system
  drivers : ∀ driver, DriverInv system driver

theorem SystemInv.step {system next : System} {label : Action × List Event} (h : SystemInv system)
    (hstep : Step system label next) : SystemInv next := by
  rcases System.act_cases hstep with hrequest | hdriver
  · exact ⟨h.owners.requestStep hrequest, h.requests.requestStep hrequest,
      fun driver => (h.drivers driver).requestStep h.requests hrequest⟩
  · exact ⟨h.owners.driverStep hdriver, h.requests.driverStep h.owners hdriver,
      DriverInv.driverStep h.drivers h.requests h.owners hdriver⟩

theorem SystemInv.empty : SystemInv .empty := ⟨.empty, .empty, .empty⟩

/-- What may happen after a past: a request resumes once and not after its cancellation, its
completion is taken once, and no callback runs after it is closed. -/
def Admissible (past : List Event) : Event → Prop
  | .resumed request _ => (∀ exit, .resumed request exit ∉ past) ∧ .cancelled request ∉ past
  | .took request _ => ∀ result, .took request result ∉ past
  | .invoked request => .closed request.driver ∉ past
  | .returned request => .closed request.driver ∉ past
  | _ => True

def Settled (system : System) (request : Request) : Prop :=
  ∃ operation, system.operations request = some operation ∧ operation.settled = true

/-- What the state remembers of an event. -/
def Remembers (system : System) : Event → Prop
  | .resumed request _ => Settled system request
  | .took request _ => Settled system request
  | .cancelled request =>
      ∃ operation, system.operations request = some operation ∧ operation.cancelled = true
  | .closed driver => system.phase driver = .closed
  | _ => True

/-- Requests stay settled and cancelled, and closed layers stay closed. -/
structure Grows (system next : System) : Prop where
  operation : ∀ request operation, system.operations request = some operation →
    ∃ operation', next.operations request = some operation' ∧
      (operation.settled → operation'.settled) ∧ (operation.cancelled → operation'.cancelled)
  closed : ∀ driver, system.phase driver = .closed → next.phase driver = .closed

section Growth

variable {system next : System} {events past : List Event}

theorem Grows.of_update {request : Request} (operation : PendingOperation)
    {operation' : PendingOperation} (hphase : next.phase = system.phase)
    (hoperations : next.operations = Function.update system.operations request (some operation'))
    (hoperation : ∀ other, system.operations request = some other → other = operation)
    (hsettled : operation.settled → operation'.settled)
    (hcancelled : operation.cancelled → operation'.cancelled) : Grows system next where
  operation other current hcurrent := by
    rw [hoperations]
    by_cases heq : other = request
    · subst heq
      rw [hoperation current hcurrent, Function.update_self]
      exact ⟨operation', rfl, hsettled, hcancelled⟩
    · rw [Function.update_of_ne heq]
      exact ⟨current, hcurrent, id, id⟩
  closed driver hclosed := by rw [hphase, hclosed]

theorem Grows.of_eq (hphase : next.phase = system.phase)
    (hoperations : next.operations = system.operations) : Grows system next where
  operation request operation hoperation := ⟨operation, by rw [hoperations, hoperation], id, id⟩
  closed driver hclosed := by rw [hphase, hclosed]

theorem RequestStep.grows (h : RequestsInv system) (hstep : System.RequestStep system events next) :
    Grows system next := by
  cases hstep with
  | fail request exit _ hnew =>
      exact .of_update {} rfl rfl (by simp [hnew]) nofun nofun
  | start request bridge _ hnew _ =>
      exact .of_update {} rfl rfl (by simp [hnew]) nofun nofun
  | interrupt request operation hoperation _ =>
      refine .of_update operation rfl rfl ?_ id (fun _ => rfl)
      intro other hother
      rw [hoperation] at hother
      exact (Option.some.inj hother).symm
  | complete request owner result bridge hmem _ _ =>
      obtain ⟨operation, _, _, hoperation, hsettled, _⟩ := h.take hmem
      simp only [System.finish, hoperation, hsettled, Bool.false_eq_true, if_false]
      refine .of_update operation rfl rfl ?_ (fun _ => rfl) id
      intro other hother
      rw [hoperation] at hother
      exact (Option.some.inj hother).symm
  | _ => exact .of_eq rfl rfl

theorem Grows.of_phase {driver : Nat} {phase : DriverPhase}
    (hphase : next.phase = Function.update system.phase driver phase)
    (hoperations : next.operations = system.operations) (hopen : system.phase driver ≠ .closed) :
    Grows system next where
  operation request operation hoperation := ⟨operation, by rw [hoperations, hoperation], id, id⟩
  closed other hclosed := by
    have hne : other ≠ driver := by
      rintro rfl
      exact hopen hclosed
    rw [hphase, Function.update_of_ne hne, hclosed]

theorem DriverStep.grows (hstep : System.DriverStep system events next) : Grows system next := by
  cases hstep with
  | openCallback driver hphase => exact .of_phase rfl rfl (by simp [hphase])
  | init driver apiVersion boot hphase => exact .of_phase rfl rfl (by simp [hphase])
  | acquire driver hphase => exact .of_phase rfl rfl (by simp [hphase])
  | drain driver hphase => exact .of_phase rfl rfl (by simp [hphase])
  | skipDrain driver hphase => exact .of_phase rfl rfl (by simp [hphase])
  | release driver active hphase _ => exact .of_phase rfl rfl (by simp [hphase])
  | shutdownStep driver stage stage' bridge hphase _ => exact .of_phase rfl rfl (by simp [hphase])
  | close driver hphase =>
      refine .of_phase rfl rfl ?_
      rcases hphase with hphase | hphase | ⟨code, hphase⟩ <;> simp [hphase]

theorem Settled.grows {request : Request} (h : Settled system request) (hgrows : Grows system next) :
    Settled next request := by
  obtain ⟨operation, hoperation, hsettled⟩ := h
  obtain ⟨operation', hoperation', hkept, _⟩ := hgrows.operation request operation hoperation
  exact ⟨operation', hoperation', hkept hsettled⟩

theorem Remembers.grows {event : Event} (h : Remembers system event) (hgrows : Grows system next) :
    Remembers next event := by
  cases event with
  | resumed request exit => exact Settled.grows h hgrows
  | took request result => exact Settled.grows h hgrows
  | cancelled request =>
      obtain ⟨operation, hoperation, hcancelled⟩ := h
      obtain ⟨operation', hoperation', _, hkept⟩ := hgrows.operation request operation hoperation
      exact ⟨operation', hoperation', hkept hcancelled⟩
  | closed driver => exact hgrows.closed driver h
  | _ => trivial

theorem SystemInv.not_closed (h : SystemInv system) {source target : TaskPhase} {request : Request}
    {bridge : Bridge} (hadvance : system.bridge.advance source target request = some bridge)
    (hsource : source ≠ .finished) : system.phase request.driver ≠ .closed := by
  intro hclosed
  obtain ⟨task, htask, rfl, _⟩ := Bridge.advance_eq_some hadvance
  have hreleased : (system.phase request.driver).isReleased := by
    rw [hclosed]
    rfl
  exact hsource ((h.drivers request.driver).finished (.inl hreleased) request rfl task.phase
    task.completion (by simp [Bridge.progress, htask]))

theorem not_mem_of_new {request : Request} (hpast : ∀ event ∈ past, Remembers system event)
    (hnew : ¬Settled system request) :
    (∀ exit, .resumed request exit ∉ past) ∧ ∀ result, .took request result ∉ past :=
  ⟨fun _ hmem => hnew (hpast _ hmem), fun _ hmem => hnew (hpast _ hmem)⟩

theorem SystemInv.requestEvents (h : SystemInv system)
    (hpast : ∀ event ∈ past, Remembers system event)
    (hstep : System.RequestStep system events next) :
    Guarded Admissible past events ∧ ∀ event ∈ events, Remembers next event := by
  cases hstep with
  | refuse driver => exact ⟨by simp [Admissible], by simp [Remembers]⟩
  | fail request exit _ hnew =>
      have hsettled : ¬Settled system request := by
        rintro ⟨_, hsome, _⟩
        rw [hnew] at hsome
        cases hsome
      have hresumed := not_mem_of_new hpast hsettled
      have hcancelled : .cancelled request ∉ past := by
        intro hmem
        obtain ⟨_, hsome, _⟩ := hpast _ hmem
        rw [hnew] at hsome
        cases hsome
      refine ⟨by simpa [Admissible] using ⟨hresumed.1, hcancelled⟩, ?_⟩
      simp [Remembers, Settled]
  | interrupt request operation hoperation _ =>
      refine ⟨by simp [Admissible], ?_⟩
      simp [Remembers]
  | complete request owner result bridge hmem hpending htake =>
      obtain ⟨operation, task, _, hoperation, hsettled, _, _, htake'⟩ := h.requests.take hmem
      rw [htake'] at htake
      cases htake
      have hnew : ¬Settled system request := by
        rintro ⟨other, hother, hdone⟩
        rw [hoperation] at hother
        cases hother
        rw [hsettled] at hdone
        cases hdone
      obtain ⟨hresumed, htook⟩ := not_mem_of_new hpast hnew
      simp only [System.finish, hoperation, hsettled, Bool.false_eq_true, if_false]
      cases hcancelled : operation.cancelled with
      | true => exact ⟨by simpa [Admissible] using htook, by simp [Remembers, Settled]⟩
      | false =>
          have hkept : .cancelled request ∉ past := by
            intro hmem
            obtain ⟨other, hother, htrue⟩ := hpast _ hmem
            rw [hoperation] at hother
            cases hother
            rw [hcancelled] at htrue
            cases htrue
          refine ⟨?_, by simp [Remembers, Settled]⟩
          simpa [Admissible] using ⟨htook, hresumed, hkept⟩
  | invoke request bridge hadvance =>
      refine ⟨?_, by simp [Remembers]⟩
      have hopen : .closed request.driver ∉ past := fun hmem =>
        h.not_closed hadvance (by simp) (hpast _ hmem)
      simpa [Admissible] using hopen
  | returnCallback request bridge hadvance =>
      refine ⟨?_, by simp [Remembers]⟩
      have hopen : .closed request.driver ∉ past := fun hmem =>
        h.not_closed hadvance (by simp) (hpast _ hmem)
      simpa [Admissible] using hopen
  | _ => exact ⟨by simp, by simp⟩

theorem driverEvents (hstep : System.DriverStep system events next) :
    Guarded Admissible past events ∧ ∀ event ∈ events, Remembers next event := by
  cases hstep with
  | close driver _ => exact ⟨by simp [Admissible], by simp [Remembers, System.setPhase]⟩
  | _ => exact ⟨by simp, by simp⟩

end Growth

def trace (labels : List (Action × List Event)) : List Event := labels.flatMap Prod.snd

/-- The run lemma: the invariant holds at the end of a run, whose events are admissible. -/
theorem SystemInv.of_run {labels : List (Action × List Event)} {finish : System}
    (hrun : Run Step .empty labels finish) :
    SystemInv finish ∧ Guarded Admissible [] (trace labels) ∧
      ∀ event ∈ trace labels, Remembers finish event := by
  induction hrun with
  | nil =>
      exact ⟨.empty, by simp [trace], by simp [trace]⟩
  | @snoc system next labels label hrun hlast ih =>
      obtain ⟨hinv, hguarded, hpast⟩ := ih
      have hstep : (Guarded Admissible (trace labels) label.2 ∧
          ∀ event ∈ label.2, Remembers next event) ∧ Grows system next := by
        rcases System.act_cases hlast with hrequest | hdriver
        · exact ⟨hinv.requestEvents hpast hrequest, RequestStep.grows hinv.requests hrequest⟩
        · exact ⟨driverEvents hdriver, DriverStep.grows hdriver⟩
      obtain ⟨⟨hevents, hremembers⟩, hgrows⟩ := hstep
      have htrace : trace (labels ++ [label]) = trace labels ++ label.2 := by simp [trace]
      rw [htrace]
      refine ⟨hinv.step hlast, hguarded.append hevents, ?_⟩
      intro event hmem
      rcases List.mem_append.mp hmem with hmem | hmem
      · exact (hpast event hmem).grows hgrows
      · exact hremembers event hmem

/-- Callbacks are not invoked after they are closed. In every run a request resumes its effect
at most once and not after it was cancelled, a completion is taken at most once, and once the
callback of a driver is closed, the tasks that have captured it are finished and no call into
it begins or returns any more. -/
theorem callbacks_safe {labels : List (Action × List Event)} {finish : System}
    (hrun : Run Step .empty labels finish) :
    (∀ before after request exit, trace labels = before ++ .resumed request exit :: after →
      (∀ exit', .resumed request exit' ∉ before) ∧ .cancelled request ∉ before) ∧
    (∀ before after request result, trace labels = before ++ .took request result :: after →
      ∀ result', .took request result' ∉ before) ∧
    (∀ before after request, (trace labels = before ++ .invoked request :: after ∨
        trace labels = before ++ .returned request :: after) → .closed request.driver ∉ before) ∧
    ∀ driver, finish.phase driver = .closed →
      (∀ request task, request.driver = driver → finish.bridge.tasks request = some task →
        task.phase = .finished) ∧
      ∀ request, request.driver = driver → finish.bridge.polled ≠ some request := by
  obtain ⟨hinv, hguarded, _⟩ := SystemInv.of_run hrun
  have hat : ∀ {before after event}, trace labels = before ++ event :: after →
      Admissible before event := by
    intro before after event htrace
    rw [htrace] at hguarded
    exact hguarded.at_split
  refine ⟨fun _ _ _ _ htrace => hat htrace, fun _ _ _ _ htrace => hat htrace, ?_, ?_⟩
  · rintro before after request (htrace | htrace)
    · exact hat htrace
    · exact hat htrace
  · intro driver hclosed
    have hreleased : (finish.phase driver).isReleased := by
      rw [hclosed]
      rfl
    have hfinished := (hinv.drivers driver).finished (.inl hreleased)
    refine ⟨?_, ?_⟩
    · intro request task hdriver htask
      exact hfinished request hdriver task.phase task.completion (by simp [Bridge.progress, htask])
    · intro request hdriver hpolled
      obtain ⟨phase, completion, hprogress, hpoll⟩ :=
        (hinv.requests.request request).polled_iff.mp hpolled
      rw [hfinished request hdriver phase completion hprogress] at hpoll
      cases hpoll

def System.execute (system : System) :
    List Action → Option (List (Action × List Event) × System)
  | [] => some ([], system)
  | action :: actions => do
      let (next, events) ← system.act action
      let (labels, finish) ← next.execute actions
      some ((action, events) :: labels, finish)

theorem run_of_execute {system finish : System} {actions : List Action}
    {labels : List (Action × List Event)} (h : system.execute actions = some (labels, finish)) :
    Run Step system labels finish := by
  induction actions generalizing system labels with
  | nil =>
      obtain ⟨rfl, rfl⟩ : [] = labels ∧ system = finish := by simpa [System.execute] using h
      exact .nil _
  | cons action actions ih =>
      simp only [System.execute, Option.bind_eq_bind, Option.bind_eq_some_iff, Prod.exists,
        Option.some.injEq, Prod.mk.injEq] at h
      obtain ⟨next, events, hact, rest, last, hrest, rfl, rfl⟩ := h
      have hstep : Step system (action, events) next := hact
      exact .cons hstep (ih hrest)

/-- A request whose callback is still returning when its effect resumes, and then the end of the
last layer. -/
def roundTrip (request : Request) : List Action :=
  let driver := request.driver
  [.openCallback driver, .init driver 740 (.ok ()), .acquire driver, .start request .started,
    .store request (.operation (.ok {})), .invoke request, .callback request, .complete request,
    .drain driver, .release driver, .shutdownStep driver, .shutdownStep driver,
    .shutdownStep driver, .returnCallback request, .dropActive request, .shutdownStep driver,
    .finishPoll request, .shutdownStep driver, .close driver]

theorem callbacks_safe_round_trip :
    ∃ labels finish, System.empty.execute (roundTrip ⟨0, 7⟩) = some (labels, finish) ∧
      finish.phase 0 = .closed ∧
      ∀ request task, request.driver = 0 → finish.bridge.tasks request = some task →
        task.phase = .finished := by
  have hsome : ∃ result ∈ System.empty.execute (roundTrip ⟨0, 7⟩), result.2.phase 0 = .closed := by
    decide +kernel
  obtain ⟨⟨labels, finish⟩, hexecute, hclosed⟩ := hsome
  have hsafe := callbacks_safe (run_of_execute hexecute)
  exact ⟨labels, finish, hexecute, hclosed, (hsafe.2.2.2 0 hclosed).1⟩

end FoundationDbEffect.Native
