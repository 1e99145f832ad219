import FoundationDbEffect.Foundation.Lease
import FoundationDbEffect.Foundation.OrderedMap
import Mathlib.Algebra.Order.Ring.Unbundled.Rat
import Mathlib.Data.List.FinRange
import Mathlib.Data.String.Basic

/-!
# Runner storage

The runners of a cluster register their addresses and lease the shards that they serve. A
registration keeps its machine id until it is unregistered, even when its heartbeat expires.
A lease is renewed by its owner at any time, also after its expiry, and taken by another
address strictly after its expiry.

Every operation is a transaction of its own, whose reads raise conflicts, so a committed one
is a function of the rows that it commits on. Times are exact milliseconds.
-/

namespace FoundationDbEffect.Cluster

open FoundationDbEffect.Foundation

/-- Snowflakes have room for so many machines. -/
def machineIdCount : Nat := 1024

structure Registration where
  runner : String
  healthy : Bool
  machineId : Fin machineIdCount
  heartbeat : ℚ
  deriving DecidableEq, Repr

structure Lease where
  address : String
  expiresAt : ℚ
  deriving DecidableEq, Repr

structure RunnerMachineIdsExhaustedError where
  address : String
  capacity : Nat
  deriving DecidableEq, Repr

structure ShardLockExpiration where
  millis : ℚ
  positive : 0 < millis

structure RunnerStore where
  runners : OrderedMap String Registration
  leases : OrderedMap String Lease
  deriving DecidableEq

namespace RunnerStore

def empty : RunnerStore where
  runners := ∅
  leases := ∅

def updateRegistration (store : RunnerStore) (address : String)
    (update : Registration → Registration) : RunnerStore :=
  match store.runners.get? address with
  | some registration => { store with runners := store.runners.set address (update registration) }
  | none => store

/-! ## Leases -/

/-- A refresh only renews the lease of an owner, even after expiry. An acquisition can also
take over, strictly after expiration. -/
def canLock (address : String) (refresh : Bool) (now : ℚ) (lease : Option Lease) : Bool :=
  match lease with
  | some lease => lease.address == address || (!refresh && decide (lease.expiresAt < now))
  | none => !refresh

def lockShard (expiration : ShardLockExpiration) (address : String) (refresh : Bool) (now : ℚ)
    (progress : RunnerStore × List String) (shardId : String) : RunnerStore × List String :=
  let (store, acquired) := progress
  if canLock address refresh now (store.leases.get? shardId) then
    ({ store with leases := store.leases.set shardId ⟨address, now + expiration.millis⟩ },
      acquired ++ [shardId])
  else (store, acquired)

def lock (expiration : ShardLockExpiration) (address : String) (shardIds : List String)
    (refresh : Bool) (now : ℚ) (store : RunnerStore) : RunnerStore × List String :=
  let store :=
    if refresh then
      store.updateRegistration address fun registration => { registration with heartbeat := now }
    else store
  shardIds.eraseDups.foldl (lockShard expiration address refresh now) (store, [])

def release (address shardId : String) (store : RunnerStore) : RunnerStore :=
  if (store.leases.get? shardId).map Lease.address = some address then
    { store with leases := store.leases.clear shardId }
  else store

/-- The leases of an address are cleared one by one, as the scan meets them. -/
def clearOwned (address : String) (leases : OrderedMap String Lease) (entry : String × Lease) :
    OrderedMap String Lease :=
  if entry.2.address = address then leases.clear entry.1 else leases

def releaseAll (address : String) (store : RunnerStore) : RunnerStore :=
  { store with
    leases := (store.leases.rows fun _ => true).foldl (clearOwned address) store.leases }

/-! ## Registrations -/

def getRunners (expiration : ShardLockExpiration) (now : ℚ) (store : RunnerStore) :
    List (String × Bool) :=
  (store.runners.rows fun _ => true).filterMap fun (_, value) =>
    if value.heartbeat + expiration.millis > now then some (value.runner, value.healthy) else none

def freeMachineId (store : RunnerStore) : Option (Fin machineIdCount) :=
  let used := (store.runners.rows fun _ => true).map fun (_, value) => value.machineId
  (List.finRange machineIdCount).find? fun candidate => decide (candidate ∉ used)

def register (address runner : String) (healthy : Bool) (now : ℚ) (store : RunnerStore) :
    Except RunnerMachineIdsExhaustedError (RunnerStore × Fin machineIdCount) :=
  let machineId :=
    match store.runners.get? address with
    | some existing => some existing.machineId
    | none => store.freeMachineId
  match machineId with
  | none => .error ⟨address, machineIdCount⟩
  | some machineId =>
      let registration := ⟨runner, healthy, machineId, now⟩
      .ok ({ store with runners := store.runners.set address registration }, machineId)

def unregister (address : String) (store : RunnerStore) : RunnerStore :=
  { store with runners := store.runners.clear address }

def setRunnerHealth (address : String) (healthy : Bool) (store : RunnerStore) : RunnerStore :=
  store.updateRegistration address fun registration => { registration with healthy }

end RunnerStore

/-! ## Transactions -/

inductive RunnerOperation where
  | getRunners
  | register (address runner : String) (healthy : Bool)
  | unregister (address : String)
  | setRunnerHealth (address : String) (healthy : Bool)
  | acquire (address : String) (shardIds : List String)
  | refresh (address : String) (shardIds : List String)
  | release (address shardId : String)
  | releaseAll (address : String)
  deriving DecidableEq, Repr

inductive RunnerReply where
  | runners (runners : List (String × Bool))
  | machineId (machineId : Fin machineIdCount)
  | shards (shardIds : List String)
  | done
  deriving DecidableEq, Repr

def RunnerOperation.commit (expiration : ShardLockExpiration) (now : ℚ) (store : RunnerStore) :
    RunnerOperation → Except RunnerMachineIdsExhaustedError (RunnerStore × RunnerReply)
  | .getRunners => .ok (store, .runners (store.getRunners expiration now))
  | .register address runner healthy => do
      let (store, machineId) ← store.register address runner healthy now
      .ok (store, .machineId machineId)
  | .unregister address => .ok (store.unregister address, .done)
  | .setRunnerHealth address healthy => .ok (store.setRunnerHealth address healthy, .done)
  | .acquire address shardIds =>
      let (store, acquired) := store.lock expiration address shardIds false now
      .ok (store, .shards acquired)
  | .refresh address shardIds =>
      let (store, acquired) := store.lock expiration address shardIds true now
      .ok (store, .shards acquired)
  | .release address shardId => .ok (store.release address shardId, .done)
  | .releaseAll address => .ok (store.releaseAll address, .done)

structure RunnerCommit where
  time : ℚ
  operation : RunnerOperation
  reply : RunnerReply

structure RunnerSystem where
  clock : ℚ
  store : RunnerStore

/-- The clocks are synchronized: times do not go back in the order of the commits. -/
structure Commits (expiration : ShardLockExpiration) (system : RunnerSystem)
    (commit : RunnerCommit) (next : RunnerSystem) : Prop where
  ordered : system.clock ≤ commit.time
  committed : commit.operation.commit expiration commit.time system.store =
    .ok (next.store, commit.reply)
  clock_eq : next.clock = commit.time

namespace RunnerCommit

def Acquired (commit : RunnerCommit) (address shardId : String) : Prop :=
  ∃ shardIds acquired, commit.operation = .acquire address shardIds ∧
    commit.reply = .shards acquired ∧ shardId ∈ acquired

def Refreshed (commit : RunnerCommit) (address shardId : String) : Prop :=
  ∃ shardIds acquired, commit.operation = .refresh address shardIds ∧
    commit.reply = .shards acquired ∧ shardId ∈ acquired

def Returned (commit : RunnerCommit) (address shardId : String) : Prop :=
  commit.Acquired address shardId ∨ commit.Refreshed address shardId

def Released (commit : RunnerCommit) (address shardId : String) : Prop :=
  commit.operation = .release address shardId ∨ commit.operation = .releaseAll address

end RunnerCommit

/-! ## Rows -/

namespace RunnerStore

variable {expiration : ShardLockExpiration} {address shardId : String} {refresh : Bool} {now : ℚ}
  {store : RunnerStore}

@[simp] theorem updateRegistration_leases (update : Registration → Registration) :
    (store.updateRegistration address update).leases = store.leases := by
  unfold updateRegistration
  split <;> rfl

@[simp] theorem canLock_own (expiresAt : ℚ) :
    canLock address refresh now (some ⟨address, expiresAt⟩) = true := by
  simp [canLock]

/-- The loop over the shards leases those that it can lock, and no others. -/
theorem foldl_lockShard (shardIds acquired : List String) (shardId : String) :
    let result := shardIds.foldl (lockShard expiration address refresh now) (store, acquired)
    let locked := shardId ∈ shardIds ∧ canLock address refresh now (store.leases.get? shardId)
    (result.1.leases.get? shardId =
      if locked then some ⟨address, now + expiration.millis⟩ else store.leases.get? shardId) ∧
    (shardId ∈ result.2 ↔ shardId ∈ acquired ∨ locked) := by
  induction shardIds generalizing store acquired with
  | nil => simp
  | cons first rest ih =>
      by_cases hlock : canLock address refresh now (store.leases.get? first)
      · simp only [List.foldl_cons, lockShard, if_pos hlock]
        by_cases heq : shardId = first
        · subst heq
          simp [ih, hlock]
        · simp [ih, heq, OrderedMap.get?_set_of_ne]
      · simp only [List.foldl_cons, lockShard, if_neg hlock]
        by_cases heq : shardId = first
        · subst heq
          simp [ih, hlock]
        · simp [ih, heq]

theorem lock_spec (expiration : ShardLockExpiration) (address : String) (refresh : Bool) (now : ℚ)
    (store : RunnerStore) (shardIds : List String) (shardId : String) :
    let result := store.lock expiration address shardIds refresh now
    let locked := shardId ∈ shardIds ∧ canLock address refresh now (store.leases.get? shardId)
    (result.1.leases.get? shardId =
      if locked then some ⟨address, now + expiration.millis⟩ else store.leases.get? shardId) ∧
    (shardId ∈ result.2 ↔ locked) := by
  unfold lock
  cases refresh with
  | false => simp [foldl_lockShard]
  | true => simp [foldl_lockShard]

theorem register_leases {runner : String} {healthy : Bool} {next : RunnerStore}
    {machineId : Fin machineIdCount}
    (h : store.register address runner healthy now = .ok (next, machineId)) :
    next.leases = store.leases := by
  unfold register at h
  dsimp only at h
  split at h
  · cases h
  · cases h
    rfl

theorem release_leases (address shardId : String) (store : RunnerStore) (shardId' : String) :
    (store.release address shardId).leases.get? shardId' =
      if shardId' = shardId ∧ (store.leases.get? shardId').map Lease.address = some address then none
      else store.leases.get? shardId' := by
  unfold release
  by_cases heq : shardId' = shardId
  · subst heq
    split <;> simp [*]
  · split <;> simp [heq, OrderedMap.get?_clear_of_ne]

theorem foldl_clearOwned (entries : List (String × Lease)) (leases : OrderedMap String Lease) :
    (entries.foldl (clearOwned address) leases).get? shardId =
      if ∃ entry ∈ entries, entry.1 = shardId ∧ entry.2.address = address then none
      else leases.get? shardId := by
  induction entries generalizing leases with
  | nil => simp
  | cons entry rest ih =>
      rw [List.foldl_cons, ih]
      simp only [clearOwned, List.exists_mem_cons_iff]
      by_cases haddress : entry.2.address = address
      · rw [if_pos haddress, OrderedMap.get?_clear]
        by_cases hkey : entry.1 = shardId
        · rw [if_pos hkey.symm, ite_self, if_pos (.inl ⟨hkey, haddress⟩)]
        · rw [if_neg (Ne.symm hkey)]
          exact if_congr (by simp [hkey]) rfl rfl
      · rw [if_neg haddress]
        exact if_congr (by simp [haddress]) rfl rfl

theorem releaseAll_leases (address shardId : String) (store : RunnerStore) :
    (store.releaseAll address).leases.get? shardId =
      if (store.leases.get? shardId).map Lease.address = some address then none
      else store.leases.get? shardId := by
  have hrows : (∃ entry ∈ store.leases.rows fun _ => true,
      entry.1 = shardId ∧ entry.2.address = address) ↔
      (store.leases.get? shardId).map Lease.address = some address := by
    simp [OrderedMap.mem_rows]
  rw [releaseAll, foldl_clearOwned]
  simp only [hrows]

end RunnerStore

end FoundationDbEffect.Cluster
