import FoundationDbEffect.Cluster.RunnerStorage
import FoundationDbEffect.Foundation.Occ
import Mathlib.Data.Set.Basic

/-!
# Transactions of the runner storage

An operation runs on the snapshot of its read version.  All its reads raise conflicts: those of
single rows, and the scans of all registrations and of all leases, which conflict with inserts as
well.  So an operation that commits has done what it would do on the rows that it commits on.
-/

namespace FoundationDbEffect.Cluster

open FoundationDbEffect.Foundation

inductive RunnerKey where
  | runner (address : String)
  | lease (shardId : String)
  deriving DecidableEq, Repr

inductive RunnerMutation where
  | setRunner (address : String) (registration : Registration)
  | clearRunner (address : String)
  | setLease (shardId : String) (lease : Lease)
  | clearLease (shardId : String)
  deriving DecidableEq, Repr

namespace RunnerMutation

def key : RunnerMutation → RunnerKey
  | setRunner address _ => .runner address
  | clearRunner address => .runner address
  | setLease shardId _ => .lease shardId
  | clearLease shardId => .lease shardId

def apply (store : RunnerStore) : RunnerMutation → RunnerStore
  | setRunner address registration =>
      { store with runners := store.runners.set address registration }
  | clearRunner address => { store with runners := store.runners.clear address }
  | setLease shardId lease => { store with leases := store.leases.set shardId lease }
  | clearLease shardId => { store with leases := store.leases.clear shardId }

end RunnerMutation

namespace RunnerStore

def row (store : RunnerStore) : RunnerKey → Option (Registration ⊕ Lease)
  | .runner address => (store.runners.get? address).map .inl
  | .lease shardId => (store.leases.get? shardId).map .inr

def Agree (keys : Set RunnerKey) (store other : RunnerStore) : Prop :=
  ∀ key ∈ keys, store.row key = other.row key

def lockMutations (expiration : ShardLockExpiration) (address : String) (shardIds : List String)
    (refresh : Bool) (now : ℚ) (store : RunnerStore) : List RunnerMutation :=
  (shardIds.eraseDups.filter fun shardId =>
    canLock address refresh now (store.leases.get? shardId)).map fun shardId =>
      .setLease shardId ⟨address, now + expiration.millis⟩

def updateMutations (store : RunnerStore) (address : String)
    (update : Registration → Registration) : List RunnerMutation :=
  match store.runners.get? address with
  | some registration => [.setRunner address (update registration)]
  | none => []

end RunnerStore

namespace RunnerOperation

def reads (store : RunnerStore) : RunnerOperation → Set RunnerKey
  | .getRunners => {key | ∃ address, key = .runner address}
  | .register address _ _ =>
      {key | key = .runner address ∨
        store.runners.get? address = none ∧ ∃ other, key = .runner other}
  | .unregister _ => ∅
  | .setRunnerHealth address _ => {.runner address}
  | .acquire _ shardIds => {key | ∃ shardId ∈ shardIds, key = .lease shardId}
  | .refresh address shardIds =>
      {key | key = .runner address ∨ ∃ shardId ∈ shardIds, key = .lease shardId}
  | .release _ shardId => {.lease shardId}
  | .releaseAll _ => {key | ∃ shardId, key = .lease shardId}

def mutations (expiration : ShardLockExpiration) (now : ℚ) (store : RunnerStore) :
    RunnerOperation → List RunnerMutation
  | .getRunners => []
  | .register address runner healthy =>
      match store.register address runner healthy now with
      | .ok (_, machineId) => [.setRunner address ⟨runner, healthy, machineId, now⟩]
      | .error _ => []
  | .unregister address => [.clearRunner address]
  | .setRunnerHealth address healthy =>
      store.updateMutations address fun registration => { registration with healthy }
  | .acquire address shardIds => store.lockMutations expiration address shardIds false now
  | .refresh address shardIds =>
      store.updateMutations address (fun registration => { registration with heartbeat := now }) ++
        store.lockMutations expiration address shardIds true now
  | .release address shardId =>
      if (store.leases.get? shardId).map Lease.address = some address then [.clearLease shardId]
      else []
  | .releaseAll address =>
      ((store.leases.rows fun _ => true).filter fun entry => entry.2.address = address).map
        fun entry => .clearLease entry.1

def reply (expiration : ShardLockExpiration) (now : ℚ) (store : RunnerStore)
    (operation : RunnerOperation) : Except RunnerMachineIdsExhaustedError RunnerReply :=
  (operation.commit expiration now store).map Prod.snd

end RunnerOperation

/-! ## Writes -/

section

variable {expiration : ShardLockExpiration} {address : String} {refresh : Bool} {now : ℚ}
  {store other : RunnerStore}

theorem RunnerStore.updateRegistration_eq (address : String)
    (update : Registration → Registration) : store.updateRegistration address update =
      (store.updateMutations address update).foldl RunnerMutation.apply store := by
  rw [updateRegistration, updateMutations]
  cases store.runners.get? address <;> rfl

/-- The loop over the shards decides on the leases from before it. -/
theorem RunnerStore.foldl_lockShard_eq {shardIds : List String} (hnodup : shardIds.Nodup)
    (acquired : List String) :
    shardIds.foldl (lockShard expiration address refresh now) (store, acquired) =
      (((shardIds.filter fun shardId =>
          canLock address refresh now (store.leases.get? shardId)).map fun shardId =>
            RunnerMutation.setLease shardId ⟨address, now + expiration.millis⟩).foldl
              RunnerMutation.apply store,
        acquired ++ shardIds.filter fun shardId =>
          canLock address refresh now (store.leases.get? shardId)) := by
  induction shardIds generalizing store acquired with
  | nil => simp
  | cons first rest ih =>
      obtain ⟨hfirst, hrest⟩ := List.nodup_cons.mp hnodup
      by_cases hlock : canLock address refresh now (store.leases.get? first)
      · have hsame : ∀ shardId ∈ rest,
            canLock address refresh now
                ((store.leases.set first ⟨address, now + expiration.millis⟩).get? shardId) =
              canLock address refresh now (store.leases.get? shardId) := by
          intro shardId hmem
          rw [OrderedMap.get?_set_of_ne]
          rintro rfl
          exact hfirst hmem
        simp only [List.foldl_cons, lockShard, if_pos hlock]
        rw [ih hrest, List.filter_congr hsame, List.filter_cons, if_pos hlock]
        simp [RunnerMutation.apply]
      · simp only [List.foldl_cons, lockShard, if_neg hlock]
        rw [ih hrest, List.filter_cons, if_neg hlock]

theorem RunnerStore.lock_eq (shardIds : List String) :
    store.lock expiration address shardIds refresh now =
      let store' := if refresh then
        store.updateRegistration address fun registration => { registration with heartbeat := now }
        else store
      ((store.lockMutations expiration address shardIds refresh now).foldl
          RunnerMutation.apply store',
        shardIds.eraseDups.filter fun shardId =>
          canLock address refresh now (store.leases.get? shardId)) := by
  rw [lock, RunnerStore.foldl_lockShard_eq (nodup_eraseDups shardIds), lockMutations]
  cases refresh <;> simp

theorem RunnerStore.foldl_clearOwned_eq (entries : List (String × Lease)) (store : RunnerStore) :
    ((entries.filter fun entry => entry.2.address = address).map fun entry =>
        RunnerMutation.clearLease entry.1).foldl RunnerMutation.apply store =
      { store with leases := entries.foldl (clearOwned address) store.leases } := by
  induction entries generalizing store with
  | nil => rfl
  | cons entry rest ih =>
      by_cases howned : entry.2.address = address
      · simp [howned, ih, clearOwned, RunnerMutation.apply]
      · simp [howned, ih, clearOwned]

theorem RunnerStore.eq_of_register {runner : String} {healthy : Bool} {next : RunnerStore}
    {machineId : Fin machineIdCount}
    (h : store.register address runner healthy now = .ok (next, machineId)) :
    next = { store with
      runners := store.runners.set address ⟨runner, healthy, machineId, now⟩ } := by
  unfold register at h
  dsimp only at h
  split at h
  · cases h
  · cases h
    rfl

theorem RunnerOperation.commit_eq (operation : RunnerOperation) :
    operation.commit expiration now store =
      (operation.reply expiration now store).map fun reply =>
        ((operation.mutations expiration now store).foldl RunnerMutation.apply store, reply) := by
  cases operation with
  | getRunners => rfl
  | register address runner healthy =>
      simp only [reply, commit, mutations]
      cases hregister : store.register address runner healthy now with
      | error error => rfl
      | ok result =>
          obtain ⟨next, machineId⟩ := result
          rw [RunnerStore.eq_of_register hregister]
          rfl
  | unregister address => rfl
  | setRunnerHealth address healthy =>
      simp only [reply, commit, mutations, RunnerStore.setRunnerHealth,
        RunnerStore.updateRegistration_eq]
      rfl
  | acquire address shardIds =>
      simp only [reply, commit, mutations, RunnerStore.lock_eq]
      rfl
  | refresh address shardIds =>
      simp only [reply, commit, mutations, RunnerStore.lock_eq, RunnerStore.updateRegistration_eq,
        if_true, List.foldl_append]
      rfl
  | release address shardId =>
      simp only [reply, commit, mutations, RunnerStore.release]
      split <;> rfl
  | releaseAll address =>
      simp only [reply, commit, mutations, RunnerStore.foldl_clearOwned_eq, RunnerStore.releaseAll]
      rfl

/-! ## Reads -/

theorem RunnerStore.Agree.runner {keys : Set RunnerKey} (h : Agree keys store other)
    (hkey : .runner address ∈ keys) : store.runners.get? address = other.runners.get? address :=
  Option.map_injective Sum.inl_injective (h _ hkey)

theorem RunnerStore.Agree.lease {keys : Set RunnerKey} {shardId : String}
    (h : Agree keys store other) (hkey : .lease shardId ∈ keys) :
    store.leases.get? shardId = other.leases.get? shardId :=
  Option.map_injective Sum.inr_injective (h _ hkey)

theorem RunnerStore.Agree.runners {keys : Set RunnerKey} (h : Agree keys store other)
    (hkeys : ∀ address, .runner address ∈ keys) : store.runners = other.runners :=
  OrderedMap.ext fun address => h.runner (hkeys address)

theorem RunnerStore.Agree.leases {keys : Set RunnerKey} (h : Agree keys store other)
    (hkeys : ∀ shardId, .lease shardId ∈ keys) : store.leases = other.leases :=
  OrderedMap.ext fun shardId => h.lease (hkeys shardId)

def RunnerStore.machineIdFor (store : RunnerStore) (address : String) :
    Option (Fin machineIdCount) :=
  match store.runners.get? address with
  | some existing => some existing.machineId
  | none => store.freeMachineId

theorem RunnerStore.register_eq (address runner : String) (healthy : Bool) (now : ℚ) :
    store.register address runner healthy now =
      match store.machineIdFor address with
      | none => .error ⟨address, machineIdCount⟩
      | some machineId => .ok ({ store with
          runners := store.runners.set address ⟨runner, healthy, machineId, now⟩ }, machineId) :=
  rfl

theorem RunnerStore.machineIdFor_congr {runner : String} {healthy : Bool}
    (h : Agree ((RunnerOperation.register address runner healthy).reads store) store other) :
    store.machineIdFor address = other.machineIdFor address := by
  have hget := h.runner (.inl rfl)
  rw [machineIdFor, machineIdFor, ← hget]
  cases hexisting : store.runners.get? address with
  | some existing => rfl
  | none =>
      have hrunners := h.runners fun other => .inr ⟨hexisting, other, rfl⟩
      simp only [freeMachineId, hrunners]

theorem RunnerStore.lockable_congr (address : String) (refresh : Bool) (now : ℚ)
    {shardIds : List String}
    (h : ∀ shardId ∈ shardIds, store.leases.get? shardId = other.leases.get? shardId) :
    (shardIds.eraseDups.filter fun shardId =>
        canLock address refresh now (store.leases.get? shardId)) =
      shardIds.eraseDups.filter fun shardId =>
        canLock address refresh now (other.leases.get? shardId) :=
  List.filter_congr fun shardId hmem => by rw [h shardId (List.mem_eraseDups.mp hmem)]

theorem RunnerOperation.congr (expiration : ShardLockExpiration) (now : ℚ)
    {operation : RunnerOperation} (h : RunnerStore.Agree (operation.reads store) store other) :
    operation.reply expiration now store = operation.reply expiration now other ∧
      operation.mutations expiration now store = operation.mutations expiration now other := by
  cases operation with
  | getRunners =>
      have hrunners := h.runners fun address => ⟨address, rfl⟩
      simp only [reply, commit, mutations, RunnerStore.getRunners, hrunners]
      exact ⟨rfl, trivial⟩
  | register address runner healthy =>
      have hmachineId := RunnerStore.machineIdFor_congr h
      simp only [reply, commit, mutations, RunnerStore.register_eq, hmachineId]
      cases other.machineIdFor address <;> exact ⟨rfl, rfl⟩
  | unregister address => exact ⟨rfl, rfl⟩
  | setRunnerHealth address healthy =>
      have hget := h.runner (Set.mem_singleton _)
      simp only [reply, commit, mutations, RunnerStore.updateMutations, hget]
      exact ⟨rfl, trivial⟩
  | acquire address shardIds =>
      have hlockable := RunnerStore.lockable_congr address false now fun shardId hmem => h.lease ⟨shardId, hmem, rfl⟩
      simp only [reply, commit, mutations, RunnerStore.lock_eq, RunnerStore.lockMutations,
        hlockable]
      exact ⟨rfl, trivial⟩
  | refresh address shardIds =>
      have hget := h.runner (.inl rfl)
      have hlockable := RunnerStore.lockable_congr address true now fun shardId hmem => h.lease (.inr ⟨shardId, hmem, rfl⟩)
      simp only [reply, commit, mutations, RunnerStore.lock_eq, RunnerStore.lockMutations,
        RunnerStore.updateMutations, hlockable, hget]
      exact ⟨rfl, trivial⟩
  | release address shardId =>
      have hget := h.lease (Set.mem_singleton _)
      simp only [reply, commit, mutations, hget]
      exact ⟨rfl, trivial⟩
  | releaseAll address =>
      have hleases := h.leases fun shardId => ⟨shardId, rfl⟩
      simp only [reply, commit, mutations, hleases]
      exact ⟨rfl, trivial⟩

end

/-! ## Histories -/

abbrev RunnerTransaction := Transaction RunnerMutation RunnerKey RunnerCommit

structure RunnerAttempt (expiration : ShardLockExpiration) (snapshot : RunnerStore)
    (transaction : RunnerTransaction) : Prop where
  replied : transaction.result.operation.reply expiration transaction.result.time snapshot =
    .ok transaction.result.reply
  mutations : transaction.mutations =
    transaction.result.operation.mutations expiration transaction.result.time snapshot
  reads : transaction.reads = transaction.result.operation.reads snapshot
  writes : transaction.writes = {key | ∃ mutation ∈ transaction.mutations, mutation.key = key}

def applyRunnerMutation (_ : Nat) (store : RunnerStore) (mutation : RunnerMutation) :
    RunnerStore :=
  mutation.apply store

def runnersAfter (history : List RunnerTransaction) : RunnerStore :=
  Occ.stateAt applyRunnerMutation .empty history

def RunnerHistory (expiration : ShardLockExpiration) (history : List RunnerTransaction) : Prop :=
  Occ.Committed applyRunnerMutation .empty (RunnerAttempt expiration) history

theorem RunnerMutation.row_apply {store : RunnerStore} {mutation : RunnerMutation}
    {key : RunnerKey} (h : mutation.key ≠ key) : (mutation.apply store).row key = store.row key := by
  cases mutation <;> cases key <;>
    simp_all [RunnerMutation.key, RunnerMutation.apply, RunnerStore.row, OrderedMap.get?_set_of_ne,
      OrderedMap.get?_clear_of_ne, Ne.symm]

theorem RunnerStore.row_foldl_apply {mutations : List RunnerMutation} {key : RunnerKey}
    (h : ∀ mutation ∈ mutations, mutation.key ≠ key) (store : RunnerStore) :
    (mutations.foldl RunnerMutation.apply store).row key = store.row key := by
  induction mutations generalizing store with
  | nil => rfl
  | cons mutation mutations ih =>
      obtain ⟨hfirst, hrest⟩ := List.forall_mem_cons.mp h
      rw [List.foldl_cons, ih hrest, RunnerMutation.row_apply hfirst]

variable {expiration : ShardLockExpiration} {history older newer : List RunnerTransaction}
  {transaction : RunnerTransaction}

/-- Committed operations are serializable: each does to the rows that it commits on what it would
do if it ran on them. -/
theorem RunnerHistory.commit_eq (h : RunnerHistory expiration (newer ++ transaction :: older)) :
    transaction.result.operation.commit expiration transaction.result.time (runnersAfter older) =
      .ok (runnersAfter (transaction :: older), transaction.result.reply) := by
  have hlast : RunnerHistory expiration (transaction :: older) := Occ.Committed.of_append h
  cases hlast with
  | commit holder hversion hattempt hconflict =>
      change RunnerAttempt expiration
        (runnersAfter (Occ.before older transaction.readVersion)) transaction at hattempt
      have hagree : RunnerStore.Agree
          (transaction.result.operation.reads
            (runnersAfter (Occ.before older transaction.readVersion)))
          (runnersAfter (Occ.before older transaction.readVersion)) (runnersAfter older) := by
        intro key hkey
        refine (Occ.view_before RunnerStore.row (fun other hmem version state hfree => ?_)
          fun later hlater hwrite => ?_).symm
        · obtain ⟨snapshot, hother⟩ := holder.exists_body hmem
          refine RunnerStore.row_foldl_apply (fun mutation hmutation heq => hfree ?_) state
          rw [hother.writes]
          exact ⟨mutation, hmutation, heq⟩
        · rw [← hattempt.reads] at hkey
          exact Set.disjoint_left.mp (hconflict later hlater) hkey hwrite
      obtain ⟨hreply, hmutations⟩ :=
        RunnerOperation.congr expiration transaction.result.time hagree
      rw [RunnerOperation.commit_eq, ← hreply, hattempt.replied, ← hmutations,
        ← hattempt.mutations]
      rfl

end FoundationDbEffect.Cluster
