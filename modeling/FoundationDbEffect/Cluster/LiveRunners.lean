import FoundationDbEffect.Cluster.MachineIds

/-!
# Live runners

The runners that are returned are those whose heartbeat has not expired.  What a runner shows is
what the commits since its last unregistration have announced, the last ones of each kind: its
name by a registration, its health by a registration or a change of health, and its heartbeat by
a registration or a refresh.
-/

namespace FoundationDbEffect.Cluster

open FoundationDbEffect.Foundation

structure Announcement where
  runner : String
  healthy : Bool
  heartbeat : ℚ
  deriving DecidableEq, Repr

namespace Announcement

def isLive (announcement : Announcement) (expiration : ShardLockExpiration) (now : ℚ) : Bool :=
  announcement.heartbeat + expiration.millis > now

end Announcement

namespace RunnerCommit

def runner? (address : String) (commit : RunnerCommit) : Option String :=
  match commit.operation with
  | .register registering runner _ => if registering = address then some runner else none
  | _ => none

def healthy? (address : String) (commit : RunnerCommit) : Option Bool :=
  match commit.operation with
  | .register registering _ healthy => if registering = address then some healthy else none
  | .setRunnerHealth changing healthy => if changing = address then some healthy else none
  | _ => none

def heartbeat? (address : String) (commit : RunnerCommit) : Option ℚ :=
  match commit.operation with
  | .register registering _ _ => if registering = address then some commit.time else none
  | .refresh refreshing _ => if refreshing = address then some commit.time else none
  | _ => none

end RunnerCommit

def sinceUnregistered (address : String) (history : List RunnerTransaction) : List RunnerCommit :=
  (history.map Transaction.result).takeWhile fun commit =>
    decide (commit.operation ≠ .unregister address)

/-- What some commits, the last one first, have announced of an address, if they register it. -/
def announced (address : String) (commits : List RunnerCommit) : Option Announcement := do
  let runner ← commits.findSome? (RunnerCommit.runner? address)
  let healthy ← commits.findSome? (RunnerCommit.healthy? address)
  let heartbeat ← commits.findSome? (RunnerCommit.heartbeat? address)
  some { runner, healthy, heartbeat }

namespace RunnerStore

def announcement? (store : RunnerStore) (address : String) : Option Announcement :=
  (store.runners.get? address).map fun registration => {
    runner := registration.runner
    healthy := registration.healthy
    heartbeat := registration.heartbeat }

end RunnerStore

/-- What a commit makes of what is announced of an address. -/
def RunnerCommit.announce (commit : RunnerCommit) (address : String)
    (old : Option Announcement) : Option Announcement :=
  match commit.operation with
  | .register registering runner healthy =>
      if registering = address then some ⟨runner, healthy, commit.time⟩ else old
  | .unregister unregistering => if unregistering = address then none else old
  | .setRunnerHealth changing healthy =>
      if changing = address then old.map fun announcement => { announcement with healthy }
      else old
  | .refresh refreshing _ =>
      if refreshing = address then
        old.map fun announcement => { announcement with heartbeat := commit.time }
      else old
  | _ => old

/-! ## Announcements -/

section

variable {address : String} {commits : List RunnerCommit} {commit : RunnerCommit}

theorem RunnerCommit.announces {runner : String} (h : commit.runner? address = some runner) :
    ∃ healthy, commit.operation = .register address runner healthy := by
  unfold RunnerCommit.runner? at h
  split at h
  · next registering runner' healthy hoperation =>
      split at h
      · next heq =>
          cases heq
          cases h
          exact ⟨healthy, hoperation⟩
      · cases h
  · cases h

theorem findSome?_isSome {α : Type} {f : RunnerCommit → Option α} (hmem : commit ∈ commits)
    (h : (f commit).isSome) : (commits.findSome? f).isSome :=
  List.findSome?_isSome_iff.mpr ⟨commit, hmem, h⟩

theorem announced_eq_none (h : commits.findSome? (RunnerCommit.runner? address) = none) :
    announced address commits = none := by
  rw [announced, h]
  rfl

theorem announced_eq_some {runner : String}
    (h : commits.findSome? (RunnerCommit.runner? address) = some runner) :
    ∃ healthy heartbeat, commits.findSome? (RunnerCommit.healthy? address) = some healthy ∧
      commits.findSome? (RunnerCommit.heartbeat? address) = some heartbeat ∧
      announced address commits = some ⟨runner, healthy, heartbeat⟩ := by
  obtain ⟨commit, hmem, hrunner⟩ := List.exists_of_findSome?_eq_some h
  obtain ⟨healthy, hoperation⟩ := RunnerCommit.announces hrunner
  obtain ⟨last, hlast⟩ := Option.isSome_iff_exists.mp
    (findSome?_isSome (f := RunnerCommit.healthy? address) hmem (by
      simp [RunnerCommit.healthy?, hoperation]))
  obtain ⟨time, htime⟩ := Option.isSome_iff_exists.mp
    (findSome?_isSome (f := RunnerCommit.heartbeat? address) hmem (by
      simp [RunnerCommit.heartbeat?, hoperation]))
  refine ⟨last, time, hlast, htime, ?_⟩
  rw [announced, h, hlast, htime]
  rfl

theorem announced_cons (hkept : commit.operation ≠ .unregister address) :
    announced address (commit :: commits) = commit.announce address (announced address commits) := by
  have hcons {α : Type} (f : RunnerCommit → Option α) :
      (commit :: commits).findSome? f = (f commit).or (commits.findSome? f) := by
    rw [List.findSome?_cons]
    cases f commit <;> rfl
  rw [announced, hcons, hcons, hcons, RunnerCommit.announce, RunnerCommit.runner?,
    RunnerCommit.healthy?, RunnerCommit.heartbeat?]
  cases hoperation : commit.operation with
  | register registering runner healthy =>
      by_cases heq : registering = address
      · simp [heq]
      · simp [heq, announced]
  | unregister unregistering =>
      have hne : unregistering ≠ address := by
        rintro rfl
        exact hkept hoperation
      simp [hne, announced]
  | setRunnerHealth changing healthy =>
      by_cases heq : changing = address
      · cases hrunner : commits.findSome? (RunnerCommit.runner? address) with
        | none => simp [heq, announced_eq_none hrunner]
        | some runner =>
            obtain ⟨_, _, -, hheartbeat, hannounced⟩ := announced_eq_some hrunner
            simp [heq, hheartbeat, hannounced]
      · simp [heq, announced]
  | refresh refreshing shardIds =>
      by_cases heq : refreshing = address
      · cases hrunner : commits.findSome? (RunnerCommit.runner? address) with
        | none => simp [heq, announced_eq_none hrunner]
        | some runner =>
            obtain ⟨_, _, hhealthy, -, hannounced⟩ := announced_eq_some hrunner
            simp [heq, hhealthy, hannounced]
      · simp [heq, announced]
  | _ => simp [announced]

end

/-! ## One commit -/

namespace RunnerStore

variable {expiration : ShardLockExpiration} {now : ℚ} {store next : RunnerStore}
  {address : String}

theorem announcement?_updateRegistration (changing : String)
    (update : Registration → Registration) (address : String) :
    (store.updateRegistration changing update).announcement? address =
      if changing = address then (store.runners.get? address).map fun registration => {
        runner := (update registration).runner
        healthy := (update registration).healthy
        heartbeat := (update registration).heartbeat }
      else store.announcement? address := by
  rw [updateRegistration]
  by_cases heq : changing = address
  · subst heq
    cases hget : store.runners.get? changing with
    | none => simp [announcement?, hget]
    | some registration => simp [announcement?]
  · rw [if_neg heq]
    cases store.runners.get? changing with
    | none => rfl
    | some registration => simp [announcement?, OrderedMap.get?_set_of_ne _ _ (Ne.symm heq)]

theorem announcement?_lock (locking : String) (shardIds : List String) (refresh : Bool)
    (address : String) :
    (store.lock expiration locking shardIds refresh now).1.announcement? address =
      (if refresh then
        store.updateRegistration locking fun registration => { registration with heartbeat := now }
        else store).announcement? address := by
  unfold lock announcement?
  dsimp only
  rw [foldl_lockShard_runners]

theorem announcement?_commit {commit : RunnerCommit}
    (h : commit.operation.commit expiration commit.time store = .ok (next, commit.reply))
    (address : String) :
    next.announcement? address = commit.announce address (store.announcement? address) := by
  obtain ⟨time, operation, reply⟩ := commit
  unfold RunnerCommit.announce
  dsimp only at h ⊢
  cases operation with
  | getRunners =>
      cases h
      rfl
  | register registering runner healthy =>
      obtain ⟨⟨registered, machineId⟩, hregister, heq⟩ := bind_eq_ok.mp h
      cases heq
      rw [eq_of_register hregister]
      dsimp only
      split
      · next heq =>
          subst heq
          simp [announcement?]
      · next hne => simp [announcement?, OrderedMap.get?_set_of_ne _ _ (Ne.symm hne)]
  | unregister unregistering =>
      cases h
      dsimp only
      rw [unregister, announcement?, OrderedMap.get?_clear]
      split <;> split <;> simp_all [announcement?]
  | setRunnerHealth changing healthy =>
      cases h
      dsimp only
      rw [setRunnerHealth, announcement?_updateRegistration, announcement?, Option.map_map]
      rfl
  | acquire locking shardIds =>
      cases h
      exact announcement?_lock locking shardIds false address
  | refresh locking shardIds =>
      cases h
      refine (announcement?_lock locking shardIds true address).trans ?_
      rw [if_pos rfl, announcement?_updateRegistration, announcement?, Option.map_map]
      rfl
  | release releasing shardId =>
      cases h
      dsimp only
      rw [release]
      split <;> rfl
  | releaseAll releasing =>
      cases h
      rfl

def liveRows (store : RunnerStore) (expiration : ShardLockExpiration) (now : ℚ) :
    List (String × Registration) :=
  (store.runners.rows fun _ => true).filter fun entry =>
    entry.2.heartbeat + expiration.millis > now

theorem getRunners_eq : store.getRunners expiration now =
    (store.liveRows expiration now).map fun entry => (entry.2.runner, entry.2.healthy) := by
  rw [getRunners, liveRows, ← List.filterMap_eq_map, ← List.filterMap_eq_filter,
    List.filterMap_filterMap]
  refine List.filterMap_congr ?_
  rintro ⟨address, registration⟩ -
  by_cases hlive : registration.heartbeat + expiration.millis > now
  · simp [Option.guard, hlive]
  · simp [Option.guard, hlive]

theorem mem_liveRows {registration : Registration} :
    (address, registration) ∈ store.liveRows expiration now ↔
      store.runners.get? address = some registration ∧
        registration.heartbeat + expiration.millis > now := by
  simp [liveRows, OrderedMap.mem_rows]

end RunnerStore

/-! ## Histories -/

section

variable {expiration : ShardLockExpiration} {history newer older : List RunnerTransaction}
  {transaction : RunnerTransaction} {address : String}

theorem announced_unregistered
    (h : transaction.result.operation = .unregister address) :
    announced address (sinceUnregistered address (transaction :: older)) = none := by
  rw [sinceUnregistered, List.map_cons, List.takeWhile_cons_of_neg (by simp [h])]
  rfl

theorem announced_kept (h : transaction.result.operation ≠ .unregister address) :
    announced address (sinceUnregistered address (transaction :: older)) =
      transaction.result.announce address
        (announced address (sinceUnregistered address older)) := by
  rw [sinceUnregistered, List.map_cons, List.takeWhile_cons_of_pos (by simp [h]),
    announced_cons h]
  rfl

/-- What a registration shows is what the history has announced. -/
theorem RunnerHistory.announcement?_eq (h : RunnerHistory expiration (newer ++ older))
    (address : String) : (runnersAfter older).announcement? address =
      announced address (sinceUnregistered address older) := by
  induction older generalizing newer with
  | nil => rfl
  | cons transaction older ih =>
      have holder : RunnerHistory expiration ((newer ++ [transaction]) ++ older) := by
        rwa [List.append_assoc]
      rw [RunnerStore.announcement?_commit h.commit_eq, ih holder]
      by_cases hunregistered : transaction.result.operation = .unregister address
      · rw [announced_unregistered hunregistered, RunnerCommit.announce, hunregistered]
        exact if_pos rfl
      · rw [announced_kept hunregistered]

/-- The runners returned are those of the addresses whose heartbeat, the last that a
registration or a refresh has announced since the address was last unregistered, has not expired,
one for each address and in the order of the addresses.  Each has the name of the last
registration and the last announced health. -/
theorem liveRunners_of_history (h : RunnerHistory expiration (newer ++ transaction :: older))
    (hoperation : transaction.result.operation = .getRunners) : ∃ addresses runners,
      transaction.result.reply = .runners runners ∧ addresses.Pairwise (· < ·) ∧
      (∀ address, address ∈ addresses ↔
        (announced address (sinceUnregistered address older)).any fun announcement =>
          announcement.isLive expiration transaction.result.time) ∧
      List.Forall₂ (fun address runner =>
        (announced address (sinceUnregistered address older)).map
          (fun announcement => (announcement.runner, announcement.healthy)) = some runner)
        addresses runners := by
  have hcommit := h.commit_eq
  rw [hoperation] at hcommit
  have holder : RunnerHistory expiration ((newer ++ [transaction]) ++ older) := by
    rwa [List.append_assoc]
  have hannounced := holder.announcement?_eq
  obtain ⟨-, hreply⟩ := Prod.mk.inj (Except.ok.inj hcommit)
  refine ⟨(runnersAfter older).liveRows expiration transaction.result.time |>.map Prod.fst, _,
    hreply.symm, ?_, fun address => ?_, ?_⟩
  · rw [List.pairwise_map]
    exact (OrderedMap.rows_sorted _ _).filter _
  · rw [← hannounced, List.mem_map, RunnerStore.announcement?]
    constructor
    · rintro ⟨⟨address, registration⟩, hmem, rfl⟩
      obtain ⟨hget, hlive⟩ := RunnerStore.mem_liveRows.mp hmem
      rw [hget]
      exact decide_eq_true hlive
    · intro hlive
      rw [Option.any_map, Option.any_eq_true] at hlive
      obtain ⟨registration, hget, hlive⟩ := hlive
      have hlive := of_decide_eq_true hlive
      exact ⟨(address, registration), RunnerStore.mem_liveRows.mpr ⟨hget, hlive⟩, rfl⟩
  · rw [RunnerStore.getRunners_eq, List.forall₂_map_left_iff, List.forall₂_map_right_iff,
      List.forall₂_same]
    rintro ⟨address, registration⟩ hmem
    rw [← hannounced, RunnerStore.announcement?, (RunnerStore.mem_liveRows.mp hmem).1]
    rfl

/-- One of two runners has expired. -/
theorem liveRunners_of_history_expired :
    let first := concurrentAttempt 0 .empty "a" ⟨"a", true, ⟨0, by decide⟩, 1⟩
      ⟨1, .register "a" "a" true, .machineId ⟨0, by decide⟩⟩
    let second := concurrentAttempt 1 (runnersAfter [first]) "b" ⟨"b", false, ⟨1, by decide⟩, 2⟩
      ⟨2, .register "b" "b" false, .machineId ⟨1, by decide⟩⟩
    ∃ addresses runners,
      RunnerReply.runners [("b", false)] = .runners runners ∧ addresses.Pairwise (· < ·) ∧
      (∀ address, address ∈ addresses ↔
        (announced address (sinceUnregistered address [second, first])).any fun announcement =>
          announcement.isLive ⟨5, by decide⟩ 6) ∧
      List.Forall₂ (fun address runner =>
        (announced address (sinceUnregistered address [second, first])).map
          (fun announcement => (announcement.runner, announcement.healthy)) = some runner)
        addresses runners := by
  intro first second
  let expiration : ShardLockExpiration := ⟨5, by decide⟩
  let third : RunnerTransaction := {
    readVersion := 2
    mutations := []
    reads := RunnerOperation.getRunners.reads (runnersAfter [second, first])
    writes := {key | ∃ mutation ∈ ([] : List RunnerMutation), mutation.key = key}
    result := ⟨6, .getRunners, .runners [("b", false)]⟩ }
  have hfirst : RunnerHistory expiration [first] :=
    .commit .nil le_rfl ⟨by decide +kernel, by decide +kernel, rfl, rfl⟩ (by simp [Occ.since])
  have hsecond : RunnerHistory expiration [second, first] :=
    .commit hfirst le_rfl ⟨by decide +kernel, by decide +kernel, rfl, rfl⟩
      (by simp [Occ.since, second, concurrentAttempt])
  have hthird : RunnerHistory expiration ([] ++ third :: [second, first]) :=
    .commit hsecond le_rfl ⟨by decide +kernel, rfl, rfl, rfl⟩
      (by simp [Occ.since, third])
  exact liveRunners_of_history hthird rfl

end

end FoundationDbEffect.Cluster
