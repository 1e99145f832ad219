import FoundationDbEffect.Cluster.RunnerStorage
import FoundationDbEffect.Foundation.PagedScan
import Mathlib.Algebra.Order.Ring.Rat

/-!
# Shard leases

Seen at one shard, the runs of the runner storage are runs of one lease: what an acquisition
or a refresh returns is what it is granted, and no other operation touches the lease of an
address than its own releases.
-/

namespace FoundationDbEffect.Cluster

open FoundationDbEffect.Foundation

def Lease.term (lease : Lease) : LeaseTerm String ℚ := ⟨lease.address, lease.expiresAt⟩

def RunnerSystem.leaseState (shardId : String) (system : RunnerSystem) : LeaseState String ℚ where
  clock := system.clock
  lease := (system.store.leases.get? shardId).map Lease.term

/-- What a commit does to the lease of one shard. -/
def RunnerCommit.leaseAction (shardId : String) (commit : RunnerCommit) :
    ℚ × LeaseAction String :=
  let action :=
    match commit.operation, commit.reply with
    | .acquire address _, .shards acquired =>
        if shardId ∈ acquired then .acquire address else .other
    | .refresh address _, .shards acquired =>
        if shardId ∈ acquired then .refresh address else .other
    | .release address released, _ => if released = shardId then .release address else .other
    | .releaseAll address, _ => .release address
    | _, _ => .other
  (commit.time, action)

section Refinement

variable {expiration : ShardLockExpiration} {address shardId : String} {system next : RunnerSystem}
  {commit : RunnerCommit}

theorem ownedBy_iff :
    (system.leaseState shardId).OwnedBy address ↔
      (system.store.leases.get? shardId).map Lease.address = some address := by
  cases h : system.store.leases.get? shardId <;>
    simp [RunnerSystem.leaseState, LeaseState.OwnedBy, Lease.term, h]

theorem leaseState_of_leases_eq {time : ℚ} (hclock : next.clock = time)
    (hleases : next.store.leases.get? shardId = system.store.leases.get? shardId) :
    next.leaseState shardId = ⟨time, (system.leaseState shardId).lease⟩ := by
  simp [RunnerSystem.leaseState, hclock, hleases]

theorem leaseStep_other {time : ℚ} (hordered : system.clock ≤ time) (hclock : next.clock = time)
    (hleases : next.store.leases.get? shardId = system.store.leases.get? shardId) :
    LeaseStep expiration.millis (system.leaseState shardId) (time, .other)
      (next.leaseState shardId) := by
  rw [leaseState_of_leases_eq hclock hleases]
  exact .other hordered

theorem leaseStep_release {time : ℚ} (hordered : system.clock ≤ time) (hclock : next.clock = time)
    (hleases : next.store.leases.get? shardId =
      if (system.store.leases.get? shardId).map Lease.address = some address then none
      else system.store.leases.get? shardId) :
    LeaseStep expiration.millis (system.leaseState shardId) (time, .release address)
      (next.leaseState shardId) := by
  by_cases howned : (system.leaseState shardId).OwnedBy address
  · rw [if_pos (ownedBy_iff.mp howned)] at hleases
    have hnext : next.leaseState shardId = ⟨time, none⟩ := by
      simp [RunnerSystem.leaseState, hclock, hleases]
    rw [hnext]
    exact .release hordered howned
  · rw [if_neg (fun h => howned (ownedBy_iff.mpr h))] at hleases
    rw [leaseState_of_leases_eq hclock hleases]
    exact .releaseOther hordered howned

theorem leaseState_of_locked {time : ℚ} (hclock : next.clock = time)
    (hleases : next.store.leases.get? shardId = some ⟨address, time + expiration.millis⟩) :
    next.leaseState shardId = ⟨time, some ⟨address, time + expiration.millis⟩⟩ := by
  simp [RunnerSystem.leaseState, Lease.term, hclock, hleases]

theorem leaseStep_acquire {time : ℚ} (hordered : system.clock ≤ time) (hclock : next.clock = time)
    (hlock : RunnerStore.canLock address false time (system.store.leases.get? shardId))
    (hleases : next.store.leases.get? shardId = some ⟨address, time + expiration.millis⟩) :
    LeaseStep expiration.millis (system.leaseState shardId) (time, .acquire address)
      (next.leaseState shardId) := by
  rw [leaseState_of_locked hclock hleases]
  refine .acquire hordered ?_
  intro term hterm
  obtain ⟨lease, hlease, rfl⟩ := Option.map_eq_some_iff.mp hterm
  simpa [hlease, RunnerStore.canLock, Lease.term] using hlock

theorem leaseStep_refresh {time : ℚ} (hordered : system.clock ≤ time) (hclock : next.clock = time)
    (hlock : RunnerStore.canLock address true time (system.store.leases.get? shardId))
    (hleases : next.store.leases.get? shardId = some ⟨address, time + expiration.millis⟩) :
    LeaseStep expiration.millis (system.leaseState shardId) (time, .refresh address)
      (next.leaseState shardId) := by
  rw [leaseState_of_locked hclock hleases]
  refine .refresh hordered (ownedBy_iff.mpr ?_)
  cases hlease : system.store.leases.get? shardId with
  | none => simp [hlease, RunnerStore.canLock] at hlock
  | some lease => simpa [hlease, RunnerStore.canLock] using hlock

theorem commit_eq {α β ε : Type} {left left' : α} {right right' : β}
    (h : (Except.ok (left, right) : Except ε (α × β)) = .ok (left', right')) :
    left = left' ∧ right = right' := by
  simpa using h

/-- At one shard the runner storage refines the protocol of a lease. -/
theorem leaseStep_of_commits (shardId : String) (h : Commits expiration system commit next) :
    LeaseStep expiration.millis (system.leaseState shardId) (commit.leaseAction shardId)
      (next.leaseState shardId) := by
  obtain ⟨hordered, hcommitted, hclock⟩ := h
  obtain ⟨time, operation, reply⟩ := commit
  obtain ⟨clock, store⟩ := next
  dsimp only at hordered hcommitted hclock
  subst hclock
  cases operation with
  | getRunners =>
      obtain ⟨rfl, rfl⟩ := commit_eq hcommitted
      exact leaseStep_other hordered rfl rfl
  | register address runner healthy =>
      obtain ⟨⟨registered, machineId⟩, hregister, heq⟩ := bind_eq_ok.mp hcommitted
      obtain ⟨rfl, rfl⟩ := commit_eq heq
      exact leaseStep_other hordered rfl (by rw [RunnerStore.register_leases hregister])
  | unregister address =>
      obtain ⟨rfl, rfl⟩ := commit_eq hcommitted
      exact leaseStep_other hordered rfl rfl
  | setRunnerHealth address healthy =>
      obtain ⟨rfl, rfl⟩ := commit_eq hcommitted
      exact leaseStep_other hordered rfl (by simp [RunnerStore.setRunnerHealth])
  | acquire address shardIds =>
      have hlock := RunnerStore.lock_spec expiration address false clock system.store shardIds shardId
      simp only [RunnerOperation.commit] at hcommitted
      generalize RunnerStore.lock expiration address shardIds false clock system.store = result
        at hlock hcommitted
      obtain ⟨rfl, rfl⟩ := commit_eq hcommitted
      obtain ⟨hleases, hacquired⟩ := hlock
      by_cases hlocked : shardId ∈ result.2
      · rw [if_pos (hacquired.mp hlocked)] at hleases
        simp only [RunnerCommit.leaseAction, if_pos hlocked]
        exact leaseStep_acquire hordered rfl (hacquired.mp hlocked).2 hleases
      · rw [if_neg (fun h => hlocked (hacquired.mpr h))] at hleases
        simp only [RunnerCommit.leaseAction, if_neg hlocked]
        exact leaseStep_other hordered rfl hleases
  | refresh address shardIds =>
      have hlock := RunnerStore.lock_spec expiration address true clock system.store shardIds shardId
      simp only [RunnerOperation.commit] at hcommitted
      generalize RunnerStore.lock expiration address shardIds true clock system.store = result
        at hlock hcommitted
      obtain ⟨rfl, rfl⟩ := commit_eq hcommitted
      obtain ⟨hleases, hacquired⟩ := hlock
      by_cases hlocked : shardId ∈ result.2
      · rw [if_pos (hacquired.mp hlocked)] at hleases
        simp only [RunnerCommit.leaseAction, if_pos hlocked]
        exact leaseStep_refresh hordered rfl (hacquired.mp hlocked).2 hleases
      · rw [if_neg (fun h => hlocked (hacquired.mpr h))] at hleases
        simp only [RunnerCommit.leaseAction, if_neg hlocked]
        exact leaseStep_other hordered rfl hleases
  | release address released =>
      obtain ⟨rfl, rfl⟩ := commit_eq hcommitted
      have hleases := RunnerStore.release_leases address released system.store shardId
      simp only [RunnerCommit.leaseAction]
      by_cases heq : released = shardId
      · subst heq
        simp only [true_and] at hleases
        rw [if_pos rfl]
        exact leaseStep_release hordered rfl hleases
      · rw [if_neg (fun h => heq h.1.symm)] at hleases
        rw [if_neg heq]
        exact leaseStep_other hordered rfl hleases
  | releaseAll address =>
      obtain ⟨rfl, rfl⟩ := commit_eq hcommitted
      exact leaseStep_release hordered rfl
        (RunnerStore.releaseAll_leases address shardId system.store)

end Refinement

section Grants

variable {address shardId : String} {commit : RunnerCommit}

theorem leaseAction_of_acquired (h : commit.Acquired address shardId) :
    (commit.leaseAction shardId).2 = .acquire address := by
  obtain ⟨shardIds, acquired, hoperation, hreply, hmem⟩ := h
  simp [RunnerCommit.leaseAction, hoperation, hreply, hmem]

theorem leaseAction_of_refreshed (h : commit.Refreshed address shardId) :
    (commit.leaseAction shardId).2 = .refresh address := by
  obtain ⟨shardIds, acquired, hoperation, hreply, hmem⟩ := h
  simp [RunnerCommit.leaseAction, hoperation, hreply, hmem]

theorem grants_of_returned (h : commit.Returned address shardId) :
    (commit.leaseAction shardId).2.Grants address :=
  h.imp leaseAction_of_acquired leaseAction_of_refreshed

theorem acquired_of_leaseAction (h : (commit.leaseAction shardId).2 = .acquire address) :
    commit.Acquired address shardId := by
  simp only [RunnerCommit.leaseAction] at h
  split at h
  next owner shardIds acquired hoperation hreply =>
    split at h
    next hmem =>
      cases h
      exact ⟨shardIds, acquired, hoperation, hreply, hmem⟩
    next => cases h
  next => split at h <;> cases h
  next => split at h <;> cases h
  next => cases h
  next => cases h

theorem released_of_leaseAction (h : (commit.leaseAction shardId).2 = .release address) :
    commit.Released address shardId := by
  simp only [RunnerCommit.leaseAction] at h
  split at h
  next => split at h <;> cases h
  next => split at h <;> cases h
  next owner released _ _ hoperation =>
    split at h
    next heq =>
      cases h
      subst heq
      exact .inl hoperation
    next => cases h
  next owner _ hoperation =>
    cases h
    exact .inr hoperation
  next => cases h

end Grants

/-- Shard leases are mutually exclusive in time. What an address was returned no other one is
returned until the expiration, unless the first has released it. A refresh of an address
after another was returned the shard takes an acquisition in between, and no release of an
address takes the lease of another. -/
theorem shardLeases_exclusive (expiration : ShardLockExpiration) {start finish : RunnerSystem}
    {commits : List RunnerCommit} (hrun : Run (Commits expiration) start commits finish) :
    (∀ before first middle second after address other shardId,
      commits = before ++ first :: (middle ++ second :: after) →
      first.Returned address shardId → second.Returned other shardId → other ≠ address →
      second.time ≤ first.time + expiration.millis →
      ∃ commit ∈ middle, commit.Released address shardId) ∧
    (∀ before first middle second after address other shardId,
      commits = before ++ first :: (middle ++ second :: after) →
      first.Returned other shardId → second.Refreshed address shardId → other ≠ address →
      ∃ commit ∈ middle, commit.Acquired address shardId) ∧
    ∀ (store : RunnerStore) address shardId lease, store.leases.get? shardId = some lease →
      lease.address ≠ address →
      (∀ released, (store.release address released).leases.get? shardId = some lease) ∧
      (store.releaseAll address).leases.get? shardId = some lease := by
  have hlease : ∀ shardId, Run (LeaseStep expiration.millis) (start.leaseState shardId)
      (commits.map (RunnerCommit.leaseAction shardId)) (finish.leaseState shardId) := by
    intro shardId
    refine hrun.map ?_
    intro _ _ _ hstep
    exact leaseStep_of_commits shardId hstep
  refine ⟨?_, ?_, ?_⟩
  · rintro before first middle second after address other shardId rfl hfirst hsecond hne htime
    have hrun' := hlease shardId
    simp only [List.map_append, List.map_cons] at hrun'
    obtain ⟨action, hmem, hrelease⟩ := LeaseState.release_of_grants hrun'
      (grants_of_returned hfirst) (grants_of_returned hsecond) hne htime
    obtain ⟨commit, hcommit, rfl⟩ := List.mem_map.mp hmem
    exact ⟨commit, hcommit, released_of_leaseAction hrelease⟩
  · rintro before first middle second after address other shardId rfl hfirst hsecond hne
    have hrun' := hlease shardId
    simp only [List.map_append, List.map_cons] at hrun'
    obtain ⟨action, hmem, hacquire⟩ := LeaseState.acquire_of_refresh hrun'
      (grants_of_returned hfirst) (leaseAction_of_refreshed hsecond) hne
    obtain ⟨commit, hcommit, rfl⟩ := List.mem_map.mp hmem
    exact ⟨commit, hcommit, acquired_of_leaseAction hacquire⟩
  · intro store address shardId lease hget hne
    refine ⟨fun released => ?_, ?_⟩
    · rw [RunnerStore.release_leases, hget]
      simp [hne]
    · rw [RunnerStore.releaseAll_leases, hget]
      simp [hne]

theorem shardLeases_exclusive_handover :
    ∃ commit ∈ [(⟨3, .release "a" "s", .done⟩ : RunnerCommit)], commit.Released "a" "s" := by
  let expiration : ShardLockExpiration := ⟨5, by decide⟩
  let leased (address : String) (expiresAt : ℚ) : RunnerStore :=
    ⟨∅, OrderedMap.set ∅ "s" ⟨address, expiresAt⟩⟩
  have hacquire : Commits expiration ⟨0, .empty⟩ ⟨0, .acquire "a" ["s", "s"], .shards ["s"]⟩
      ⟨0, leased "a" 5⟩ := ⟨by decide, by decide +kernel, rfl⟩
  have hrelease : Commits expiration ⟨0, leased "a" 5⟩ ⟨3, .release "a" "s", .done⟩
      ⟨3, .empty⟩ := ⟨by decide, by decide +kernel, rfl⟩
  have hsecond : Commits expiration ⟨3, .empty⟩ ⟨4, .acquire "b" ["s"], .shards ["s"]⟩
      ⟨4, leased "b" 9⟩ := ⟨by decide, by decide +kernel, rfl⟩
  have hrun := (((Run.nil _).snoc hacquire).snoc hrelease).snoc hsecond
  exact (shardLeases_exclusive expiration hrun).1 [] _ _ _ [] "a" "b" "s" rfl
    (.inl ⟨_, _, rfl, rfl, by decide⟩) (.inl ⟨_, _, rfl, rfl, by decide⟩) (by decide)
    (by decide +kernel)

end FoundationDbEffect.Cluster
