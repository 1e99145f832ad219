import FoundationDbEffect.Cluster.RunnerTransactions
import FoundationDbEffect.Foundation.Fallible
import Mathlib.Data.Fintype.Card

/-!
# Machine ids

A registration takes the least machine id that no other one has and keeps it until it is
unregistered.  Whatever the order in which the operations commit, and whatever they had read
before, no two registrations ever have one machine id.
-/

namespace FoundationDbEffect.Cluster

open FoundationDbEffect.Foundation

namespace RunnerStore

variable {expiration : ShardLockExpiration} {now : ℚ} {store next : RunnerStore}
  {address other : String} {machineId : Fin machineIdCount}

def machineId? (store : RunnerStore) (address : String) : Option (Fin machineIdCount) :=
  (store.runners.get? address).map Registration.machineId

def registered (store : RunnerStore) : List (String × Registration) :=
  store.runners.rows fun _ => true

def Distinct (store : RunnerStore) : Prop :=
  ∀ address other machineId, store.machineId? address = some machineId →
    store.machineId? other = some machineId → address = other

def LeastFree (store : RunnerStore) (machineId : Fin machineIdCount) : Prop :=
  (∀ address, store.machineId? address ≠ some machineId) ∧
    ∀ smaller < machineId, ∃ address, store.machineId? address = some smaller

/-! ## Free machine ids -/

theorem mem_used : machineId ∈ store.registered.map (fun entry => entry.2.machineId) ↔
    ∃ address, store.machineId? address = some machineId := by
  simp [registered, machineId?, OrderedMap.mem_rows]

theorem leastFree_of_freeMachineId (h : store.freeMachineId = some machineId) :
    store.LeastFree machineId := by
  obtain ⟨hfree, before, after, hsplit, hbefore⟩ := List.find?_eq_some_iff_append.mp h
  refine ⟨fun address haddress => ?_, fun smaller hlt => ?_⟩
  · exact of_decide_eq_true hfree (mem_used.mpr ⟨address, haddress⟩)
  · -- The search has passed over all smaller ones.
    have hmem : smaller ∈ before ++ machineId :: after := hsplit ▸ List.mem_finRange smaller
    have hsorted : (before ++ machineId :: after).Pairwise (· < ·) :=
      hsplit ▸ List.pairwise_lt_finRange machineIdCount
    rcases List.mem_append.mp hmem with hmem | hmem
    · have hused := hbefore smaller hmem
      exact mem_used.mp (by simpa [registered] using hused)
    · rcases List.mem_cons.mp hmem with rfl | hmem
      · exact absurd hlt (lt_irrefl _)
      · exact absurd hlt ((List.pairwise_cons.mp
          (List.pairwise_append.mp hsorted).2.1).1 smaller hmem).not_gt

theorem freeMachineId_eq_none : store.freeMachineId = none ↔
    ∀ machineId, ∃ address, store.machineId? address = some machineId := by
  rw [freeMachineId, List.find?_eq_none]
  refine forall_congr' fun machineId => ?_
  rw [← mem_used]
  simp [registered]

theorem Distinct.nodup (h : store.Distinct) :
    (store.registered.map fun entry => entry.2.machineId).Nodup := by
  have hsorted := OrderedMap.rows_sorted store.runners fun _ => true
  refine List.Nodup.map_on ?_ (hsorted.imp fun hlt heq => (heq ▸ hlt).false)
  rintro ⟨address, registration⟩ hmem ⟨other, registration'⟩ hmem' heq
  have hget := (OrderedMap.mem_rows.mp hmem).2
  have hget' := (OrderedMap.mem_rows.mp hmem').2
  have hid : store.machineId? address = some registration.machineId := by
    rw [machineId?, hget, Option.map_some]
  have hid' : store.machineId? other = some registration.machineId := by
    rw [machineId?, hget', Option.map_some]
    exact congrArg some heq.symm
  obtain rfl := h address other registration.machineId hid hid'
  rw [Option.some.inj (hget.symm.trans hget')]

theorem mem_iff_length_eq {n : Nat} {ids : List (Fin n)} (h : ids.Nodup) :
    (∀ id, id ∈ ids) ↔ ids.length = n := by
  have hcard := List.toFinset_card_of_nodup h
  simp only [← List.mem_toFinset]
  rw [← hcard, ← Finset.eq_univ_iff_forall, ← Finset.card_eq_iff_eq_univ, Fintype.card_fin]

theorem Distinct.full_iff (h : store.Distinct) :
    store.freeMachineId = none ↔ store.registered.length = machineIdCount := by
  have hfull := mem_iff_length_eq h.nodup
  rw [List.length_map] at hfull
  exact freeMachineId_eq_none.trans ((forall_congr' fun _ => mem_used.symm).trans hfull)

/-! ## One commit -/

theorem machineIdFor_eq (store : RunnerStore) (address : String) :
    store.machineIdFor address = (store.machineId? address).or store.freeMachineId := by
  rw [machineIdFor, machineId?]
  cases store.runners.get? address with
  | none => exact Option.none_or.symm
  | some existing => rfl

theorem machineId?_updateRegistration (address : String) (update : Registration → Registration)
    (hupdate : ∀ registration, (update registration).machineId = registration.machineId)
    (other : String) :
    (store.updateRegistration address update).machineId? other = store.machineId? other := by
  rw [updateRegistration]
  cases hget : store.runners.get? address with
  | none => rfl
  | some registration =>
      by_cases heq : other = address
      · subst heq
        simp [machineId?, hget, hupdate]
      · simp [machineId?, OrderedMap.get?_set_of_ne _ _ heq]

theorem machineId?_of_runners_eq (h : next.runners = store.runners) (address : String) :
    next.machineId? address = store.machineId? address := by
  rw [machineId?, h, machineId?]

theorem foldl_lockShard_runners {refresh : Bool} (shardIds : List String)
    (progress : RunnerStore × List String) :
    (shardIds.foldl (lockShard expiration address refresh now) progress).1.runners =
      progress.1.runners := by
  induction shardIds generalizing progress with
  | nil => rfl
  | cons first rest ih =>
      rw [List.foldl_cons, ih, lockShard]
      split <;> rfl

/-- What the machine ids of a store are after an operation. -/
def machineIdAfter (store : RunnerStore) (address : String) :
    RunnerOperation → Option (Fin machineIdCount)
  | .register registering _ _ =>
      if address = registering then store.machineIdFor address else store.machineId? address
  | .unregister unregistering =>
      if address = unregistering then none else store.machineId? address
  | _ => store.machineId? address

theorem machineId?_commit {operation : RunnerOperation} {reply : RunnerReply}
    (h : operation.commit expiration now store = .ok (next, reply)) (address : String) :
    next.machineId? address = store.machineIdAfter address operation := by
  cases operation with
  | getRunners =>
      cases h
      rfl
  | register registering runner healthy =>
      obtain ⟨⟨registered, machineId⟩, hregister, heq⟩ := bind_eq_ok.mp h
      cases heq
      rw [register_eq] at hregister
      cases hmachineId : store.machineIdFor registering with
      | none => simp [hmachineId] at hregister
      | some taken =>
          simp only [hmachineId] at hregister
          cases hregister
          rw [machineIdAfter]
          split
          · next heq => rw [heq, hmachineId, machineId?, OrderedMap.get?_set_self, Option.map_some]
          · next hne => rw [machineId?, OrderedMap.get?_set_of_ne _ _ hne, machineId?]
  | unregister unregistering =>
      cases h
      rw [machineIdAfter, unregister, machineId?, OrderedMap.get?_clear]
      split <;> simp_all [machineId?]
  | setRunnerHealth changing healthy =>
      cases h
      exact machineId?_updateRegistration changing
        (fun registration => { registration with healthy }) (fun _ => rfl) address
  | acquire locking shardIds =>
      cases h
      exact machineId?_of_runners_eq (foldl_lockShard_runners _ _) address
  | refresh locking shardIds =>
      cases h
      refine (machineId?_of_runners_eq (foldl_lockShard_runners _ _) address).trans ?_
      exact machineId?_updateRegistration locking
        (fun registration => { registration with heartbeat := now }) (fun _ => rfl) address
  | release releasing shardId =>
      cases h
      refine machineId?_of_runners_eq ?_ address
      rw [release]
      split <;> rfl
  | releaseAll releasing =>
      cases h
      rfl

/-! ## Invariance -/

theorem Distinct.machineIdFor (h : store.Distinct)
    (hmachineId : store.machineIdFor address = some machineId)
    (hother : store.machineId? other = some machineId) : other = address := by
  rw [machineIdFor_eq] at hmachineId
  cases haddress : store.machineId? address with
  | some kept =>
      rw [haddress, Option.some_or, Option.some.injEq] at hmachineId
      exact h other address machineId hother (hmachineId ▸ haddress)
  | none =>
      rw [haddress, Option.none_or] at hmachineId
      exact absurd hother ((leastFree_of_freeMachineId hmachineId).1 other)

theorem Distinct.commit {operation : RunnerOperation} {reply : RunnerReply}
    (h : store.Distinct) (hcommit : operation.commit expiration now store = .ok (next, reply)) :
    next.Distinct := by
  intro address other machineId haddress hother
  rw [machineId?_commit hcommit] at haddress hother
  cases operation with
  | register registering runner healthy =>
      simp only [machineIdAfter] at haddress hother
      split at haddress <;> split at hother
      · next heq heq' => rw [heq, heq']
      · exact (h.machineIdFor haddress hother).symm
      · exact h.machineIdFor hother haddress
      · exact h address other machineId haddress hother
  | unregister unregistering =>
      simp only [machineIdAfter] at haddress hother
      split at haddress <;> split at hother
      · cases haddress
      · cases haddress
      · cases hother
      · exact h address other machineId haddress hother
  | _ => exact h address other machineId haddress hother

theorem machineId?_kept {operation : RunnerOperation} {reply : RunnerReply}
    (hcommit : operation.commit expiration now store = .ok (next, reply))
    (haddress : store.machineId? address = some machineId)
    (hkept : operation ≠ .unregister address) : next.machineId? address = some machineId := by
  rw [machineId?_commit hcommit]
  cases operation with
  | register registering runner healthy =>
      rw [machineIdAfter]
      split
      · rw [machineIdFor_eq, haddress, Option.some_or]
      · exact haddress
  | unregister unregistering =>
      rw [machineIdAfter, if_neg fun heq => hkept (congrArg _ heq.symm)]
      exact haddress
  | _ => exact haddress

/-- A registration replies with the machine id that it stores: the one that the address has, or
else the least free one. -/
theorem machineId?_registered {runner : String} {healthy : Bool} {reply : RunnerReply}
    (hcommit : (RunnerOperation.register address runner healthy).commit expiration now store =
      .ok (next, reply)) : ∃ machineId, reply = .machineId machineId ∧
        next.machineId? address = some machineId ∧
          (store.machineId? address = some machineId ∨
            store.machineId? address = none ∧ store.LeastFree machineId) := by
  have hnext := machineId?_commit hcommit address
  rw [machineIdAfter, if_pos rfl] at hnext
  obtain ⟨⟨registered, machineId⟩, hregister, heq⟩ := bind_eq_ok.mp hcommit
  cases heq
  rw [register_eq] at hregister
  cases hmachineId : store.machineIdFor address with
  | none => simp [hmachineId] at hregister
  | some taken =>
      simp only [hmachineId] at hregister
      cases hregister
      refine ⟨machineId, rfl, hnext.trans hmachineId, ?_⟩
      rw [machineIdFor_eq] at hmachineId
      cases haddress : store.machineId? address with
      | some kept =>
          rw [haddress, Option.some_or] at hmachineId
          exact .inl hmachineId
      | none =>
          rw [haddress, Option.none_or] at hmachineId
          exact .inr ⟨rfl, leastFree_of_freeMachineId hmachineId⟩

theorem Distinct.register_fails (h : store.Distinct) (hnew : store.machineId? address = none)
    (runner : String) (healthy : Bool) (now : ℚ) :
    (∃ error, store.register address runner healthy now = .error error) ↔
      store.registered.length = machineIdCount := by
  rw [register_eq, machineIdFor_eq, hnew, Option.none_or]
  refine Iff.trans ?_ h.full_iff
  cases store.freeMachineId <;> simp

end RunnerStore

/-! ## Histories -/

structure MachineIds (history : List RunnerTransaction) : Prop where
  unique : ∀ newer older, history = newer ++ older → (runnersAfter older).Distinct
  stable : ∀ newer between older, history = newer ++ between ++ older → ∀ address machineId,
    (runnersAfter older).machineId? address = some machineId →
      (∀ transaction ∈ between, transaction.result.operation ≠ .unregister address) →
        (runnersAfter (between ++ older)).machineId? address = some machineId
  registered : ∀ newer transaction older, history = newer ++ transaction :: older →
    ∀ address runner healthy,
      transaction.result.operation = .register address runner healthy → ∃ machineId,
        transaction.result.reply = .machineId machineId ∧
          (runnersAfter (transaction :: older)).machineId? address = some machineId ∧
            ((runnersAfter older).machineId? address = some machineId ∨
              (runnersAfter older).machineId? address = none ∧
                (runnersAfter older).LeastFree machineId)
  exhausted : ∀ newer older, history = newer ++ older → ∀ address runner healthy now,
    (runnersAfter older).machineId? address = none →
      ((∃ error, (runnersAfter older).register address runner healthy now = .error error) ↔
        (runnersAfter older).registered.length = machineIdCount)
  readmitted : ∀ newer older, history = newer ++ older → ∀ address runner healthy now machineId,
    (runnersAfter older).machineId? address = some machineId → ∃ next,
      (runnersAfter older).register address runner healthy now = .ok (next, machineId)

section

variable {expiration : ShardLockExpiration} {history newer older : List RunnerTransaction}

theorem RunnerHistory.distinct (h : RunnerHistory expiration (newer ++ older)) :
    (runnersAfter older).Distinct := by
  induction older generalizing newer with
  | nil => exact fun address other machineId haddress => nomatch haddress
  | cons transaction older ih =>
      have holder : RunnerHistory expiration ((newer ++ [transaction]) ++ older) := by
        rwa [List.append_assoc]
      exact (ih holder).commit h.commit_eq

theorem RunnerHistory.stable {between : List RunnerTransaction} {address : String}
    {machineId : Fin machineIdCount}
    (h : RunnerHistory expiration (newer ++ (between ++ older)))
    (haddress : (runnersAfter older).machineId? address = some machineId)
    (hkept : ∀ transaction ∈ between, transaction.result.operation ≠ .unregister address) :
    (runnersAfter (between ++ older)).machineId? address = some machineId := by
  induction between generalizing newer with
  | nil => exact haddress
  | cons transaction between ih =>
      obtain ⟨hfirst, hrest⟩ := List.forall_mem_cons.mp hkept
      have hbetween : RunnerHistory expiration ((newer ++ [transaction]) ++ (between ++ older)) := by
        rwa [List.append_assoc]
      exact RunnerStore.machineId?_kept h.commit_eq (ih hbetween hrest) hfirst

/-- Machine ids are unique and stable in every history of concurrent operations. -/
theorem machineIds_of_history (h : RunnerHistory expiration history) : MachineIds history := by
  constructor
  case unique =>
    rintro newer older rfl
    exact h.distinct
  case stable =>
    rintro newer between older rfl address machineId haddress hkept
    rw [List.append_assoc] at h
    exact h.stable haddress hkept
  case registered =>
    rintro newer transaction older rfl address runner healthy hoperation
    have hcommit := h.commit_eq
    rw [hoperation] at hcommit
    exact RunnerStore.machineId?_registered hcommit
  case exhausted =>
    rintro newer older rfl address runner healthy now hnew
    exact h.distinct.register_fails hnew runner healthy now
  case readmitted =>
    rintro newer older rfl address runner healthy now machineId haddress
    rw [RunnerStore.register_eq, RunnerStore.machineIdFor_eq, haddress, Option.some_or]
    exact ⟨_, rfl⟩

def concurrentAttempt (readVersion : Nat) (snapshot : RunnerStore) (address : String)
    (registration : Registration) (commit : RunnerCommit) : RunnerTransaction where
  readVersion := readVersion
  mutations := [.setRunner address registration]
  reads := commit.operation.reads snapshot
  writes := {key | ∃ mutation ∈ [RunnerMutation.setRunner address registration],
    mutation.key = key}
  result := commit

/-- The health of one runner changes while another one registers. -/
theorem machineIds_of_history_concurrent :
    let first := concurrentAttempt 0 .empty "a" ⟨"a", true, ⟨0, by decide⟩, 1⟩
      ⟨1, .register "a" "a" true, .machineId ⟨0, by decide⟩⟩
    let second := concurrentAttempt 1 (runnersAfter [first]) "b" ⟨"b", true, ⟨1, by decide⟩, 2⟩
      ⟨2, .register "b" "b" true, .machineId ⟨1, by decide⟩⟩
    let third := concurrentAttempt 1 (runnersAfter [first]) "a" ⟨"a", false, ⟨0, by decide⟩, 1⟩
      ⟨2, .setRunnerHealth "a" false, .done⟩
    MachineIds [third, second, first] := by
  intro first second third
  let expiration : ShardLockExpiration := ⟨5, by decide⟩
  have hfirst : RunnerHistory expiration [first] :=
    .commit .nil le_rfl ⟨by decide +kernel, by decide +kernel, rfl, rfl⟩ (by simp [Occ.since])
  have hsecond : RunnerHistory expiration [second, first] :=
    .commit hfirst le_rfl ⟨by decide +kernel, by decide +kernel, rfl, rfl⟩
      (by simp [Occ.since, second, concurrentAttempt])
  refine machineIds_of_history (.commit hsecond (by decide)
    ⟨by decide +kernel, by decide +kernel, rfl, rfl⟩ ?_)
  intro later hlater
  obtain rfl : later = second := List.mem_singleton.mp hlater
  simp [third, second, concurrentAttempt, RunnerOperation.reads, RunnerMutation.key]

end

end FoundationDbEffect.Cluster
