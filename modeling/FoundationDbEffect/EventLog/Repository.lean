import FoundationDbEffect.Foundation.ByteOrder
import FoundationDbEffect.Foundation.Cells

/-!
# The values of a repository

A repository keeps values under paths: the id of a server, the keys that sessions are bound to,
a counter for each lock of a journal, and others.  Whatever reads and writes them is a program,
and the operations of a repository nest in one transaction.
-/

namespace FoundationDbEffect.EventLog.Repository

open FoundationDbEffect.Foundation FoundationDbEffect.Foundation.Cells

inductive Path (π : Type) where
  | remoteId
  | auth (publicKey : String)
  | lock (storeId : String)
  | other (path : π)
  deriving DecidableEq

/-- A value under the codec of numbers, or under one of the codecs of bytes. -/
inductive Value where
  | number (value : Nat)
  | bytes (value : Bytes)
  deriving DecidableEq

variable {π α : Type} [DecidableEq π]

abbrev RepositoryProgram (π : Type) := Program (Path π) Value

abbrev Values (π : Type) := Path π → Option Value

/-! ## Operations -/

def get (path : Path π) : RepositoryProgram π (Option Value) :=
  .read (fun other => decide (other = path)) fun values => .done (values ⟨path, decide_eq_true rfl⟩)

def put (path : Path π) (value : Value) : RepositoryProgram π Unit :=
  .mutate (.put path value) (.done ())

/-- A value of another codec cannot be decoded. -/
def number (path : Path π) (fallback : Nat) : RepositoryProgram π Nat := do
  match ← get path with
  | none => pure fallback
  | some (.number value) => pure value
  | some (.bytes _) => .fail

def setNumber (path : Path π) (value : Nat) : RepositoryProgram π Unit := put path (.number value)

def getOrPut (path : Path π) (created : Bytes) : RepositoryProgram π Bytes := do
  match ← get path with
  | none => do
      put path (.bytes created)
      pure created
  | some (.bytes value) => pure value
  | some (.number _) => .fail

def getId (created : Bytes) : RepositoryProgram π Bytes := getOrPut .remoteId created

def bindAuth (publicKey : String) (key : Bytes) : RepositoryProgram π Bytes :=
  getOrPut (.auth publicKey) key

def clear : RepositoryProgram π Unit := .mutate (.clear fun _ => true) (.done ())

def withLock (storeId : String) (effect : RepositoryProgram π α) : RepositoryProgram π α := do
  let version ← number (.lock storeId) 0
  setNumber (.lock storeId) (version + 1)
  effect

/-! ## Sessions -/

/-- A call of `getId` or `auth`, with the bytes that it would put and those that it returns. -/
structure BoundCall (π : Type) where
  path : Path π
  proposed : Bytes
  returned : Bytes

def Path.isBound : Path π → Bool
  | .remoteId => true
  | .auth _ => true
  | .lock _ => false
  | .other _ => false

/-- Programs that read anything and write nothing that is bound, but by calls of `getId` and
`auth`, which may depend on what has been read.  Their results are those calls. -/
inductive Binds : RepositoryProgram π (List (BoundCall π)) → Prop where
  | done : Binds (.done [])
  | fail : Binds .fail
  | read {keys : Path π → Bool}
      {next : ({path // keys path = true} → Option Value) → RepositoryProgram π (List (BoundCall π))}
      (h : ∀ values, Binds (next values)) : Binds (.read keys next)
  | mutate {mutation : Mutation (Path π) Value} {next : RepositoryProgram π (List (BoundCall π))}
      (hmutation : ∀ path, path.isBound = true → mutation.touches path = false) (h : Binds next) :
      Binds (.mutate mutation next)
  | getId (created : Bytes) {next : Bytes → RepositoryProgram π (List (BoundCall π))}
      (h : ∀ id, Binds (next id)) : Binds (do
        let id ← getId created
        let calls ← next id
        pure (⟨.remoteId, created, id⟩ :: calls))
  | auth (publicKey : String) (key : Bytes)
      {next : Bytes → RepositoryProgram π (List (BoundCall π))}
      (h : ∀ bound, Binds (next bound)) : Binds (do
        let bound ← bindAuth publicKey key
        let calls ← next bound
        pure (⟨.auth publicKey, key, bound⟩ :: calls))

theorem eval_getOrPut (values : Values π) (path : Path π) (created : Bytes) :
    (getOrPut path created).eval values =
      match values path with
      | none => some (created, Function.update values path (some (.bytes created)))
      | some (.bytes value) => some (value, values)
      | some (.number _) => none := by
  change Program.eval values (match values path with
    | none => _
    | some (.bytes value) => _
    | some (.number _) => _) = _
  cases values path with
  | none => rfl
  | some value =>
      cases value with
      | number value => rfl
      | bytes value => rfl

/-- What is bound by some calls: each returns what is bound under its path afterwards, which was
bound before or is what one of them has proposed. -/
structure BoundBy (values : Values π) (calls : List (BoundCall π)) (after : Values π) : Prop where
  kept : ∀ path value, path.isBound = true → values path = some value → after path = some value
  returned : ∀ call ∈ calls, call.path.isBound = true ∧ after call.path = some (.bytes call.returned)
  proposed : ∀ path value, path.isBound = true → values path = none → after path = some value →
    ∃ call ∈ calls, call.path = path ∧ value = .bytes call.proposed

omit [DecidableEq π] in
theorem BoundBy.frame {values middle after : Values π} {calls : List (BoundCall π)}
    (h : BoundBy middle calls after)
    (hsame : ∀ path, path.isBound = true → middle path = values path) :
    BoundBy values calls after where
  kept := by
    intro path value hpath hvalue
    rw [← hsame path hpath] at hvalue
    exact h.kept path value hpath hvalue
  returned := h.returned
  proposed := by
    intro path value hpath hvalue
    rw [← hsame path hpath] at hvalue
    exact h.proposed path value hpath hvalue

theorem BoundBy.getOrPut {values after : Values π} {path : Path π} {created : Bytes}
    (hpath : path.isBound = true) {next : Bytes → RepositoryProgram π (List (BoundCall π))}
    (hnext : ∀ value middle rest, (next value).eval middle = some (rest, after) →
      BoundBy middle rest after) {calls : List (BoundCall π)}
    (h : Program.eval values (do
      let value ← getOrPut path created
      let calls ← next value
      pure (⟨path, created, value⟩ :: calls)) = some (calls, after)) :
    BoundBy values calls after := by
  change Program.eval values ((Repository.getOrPut path created).bind fun value =>
    (next value).bind fun calls => .done (⟨path, created, value⟩ :: calls)) = _ at h
  rw [Program.eval_bind, eval_getOrPut, Option.bind_eq_some_iff] at h
  obtain ⟨⟨value, middle⟩, hput, h⟩ := h
  dsimp only at h
  rw [Program.eval_bind, Option.bind_eq_some_iff] at h
  obtain ⟨⟨rest, after'⟩, hrest, h⟩ := h
  cases h
  have hbound := hnext value middle rest hrest
  cases hvalue : values path with
  | none =>
      rw [hvalue] at hput
      cases hput
      have hhead := hbound.kept path (.bytes created) hpath (Function.update_self _ _ _)
      constructor
      case kept =>
        intro other old hother hold
        have hne : other ≠ path := by
          rintro rfl
          cases hvalue.symm.trans hold
        exact hbound.kept other old hother ((Function.update_of_ne hne _ _).trans hold)
      case returned =>
        intro call hcall
        rcases List.mem_cons.mp hcall with rfl | hcall
        · exact ⟨hpath, hhead⟩
        · exact hbound.returned call hcall
      case proposed =>
        intro other new hother hold hnew
        by_cases heq : other = path
        · subst heq
          exact ⟨_, List.mem_cons_self, rfl, Option.some.inj (hnew.symm.trans hhead)⟩
        · obtain ⟨call, hcall, hproposed⟩ := hbound.proposed other new hother
            ((Function.update_of_ne heq _ _).trans hold) hnew
          exact ⟨call, List.mem_cons_of_mem _ hcall, hproposed⟩
  | some old =>
      rw [hvalue] at hput
      cases old with
      | number number => cases hput
      | bytes bytes =>
          cases hput
          constructor
          case kept => exact hbound.kept
          case returned =>
            intro call hcall
            rcases List.mem_cons.mp hcall with rfl | hcall
            · exact ⟨hpath, hbound.kept path _ hpath hvalue⟩
            · exact hbound.returned call hcall
          case proposed =>
            intro other new hother hold hnew
            obtain ⟨call, hcall, hproposed⟩ := hbound.proposed other new hother hold hnew
            exact ⟨call, List.mem_cons_of_mem _ hcall, hproposed⟩

theorem Binds.boundBy {program : RepositoryProgram π (List (BoundCall π))} (h : Binds program)
    {values after : Values π} {calls : List (BoundCall π)}
    (heval : program.eval values = some (calls, after)) : BoundBy values calls after := by
  induction h generalizing values after calls with
  | done =>
      cases heval
      refine ⟨fun _ _ _ hvalue => hvalue, fun call hcall => ?_, ?_⟩
      · cases hcall
      · intro path value _ hnone hsome
        cases hnone.symm.trans hsome
  | fail => cases heval
  | read _ ih => exact ih _ heval
  | mutate hmutation _ ih =>
      exact (ih heval).frame fun path hpath => Mutation.apply_of_untouched (hmutation path hpath)
  | getId created _ ih => exact .getOrPut rfl (fun value _ _ hnext => ih value hnext) heval
  | auth publicKey key _ ih => exact .getOrPut rfl (fun value _ _ hnext => ih value hnext) heval

/-! ## Agreement -/

abbrev BoundTransaction (π : Type) := CellTransaction (Path π) Value (List (BoundCall π))

def boundCalls (history : List (BoundTransaction π)) : List (BoundCall π) :=
  history.flatMap fun transaction => transaction.result.result

variable {history newer older : List (BoundTransaction π)}

theorem boundBy_of_history {transaction : BoundTransaction π}
    (h : History Binds (transaction :: older)) :
    BoundBy (stateAt older) transaction.result.result (stateAt (transaction :: older)) :=
  Binds.boundBy h.serializable.1 h.eval_eq

theorem bound_kept (h : History Binds (newer ++ older)) {path : Path π} {value : Value}
    (hpath : path.isBound = true) (hvalue : stateAt older path = some value) :
    stateAt (newer ++ older) path = some value := by
  refine h.preserved (P := fun values => values path = some value) ?_ hvalue
  intro program values outcome hbinds hvalues heval
  exact (hbinds.boundBy heval).kept path value hpath hvalues

theorem bound_returned (h : History Binds history) {call : BoundCall π}
    (hcall : call ∈ boundCalls history) :
    call.path.isBound = true ∧ stateAt history call.path = some (.bytes call.returned) := by
  induction history with
  | nil => cases hcall
  | cons transaction older ih =>
      have hbound := boundBy_of_history h
      rcases List.mem_append.mp hcall with hlast | hearlier
      · exact hbound.returned call hlast
      · obtain ⟨hpath, hvalue⟩ := ih h.tail hearlier
        exact ⟨hpath, hbound.kept _ _ hpath hvalue⟩

theorem bound_proposed (h : History Binds history) {path : Path π} {value : Value}
    (hpath : path.isBound = true) (hvalue : stateAt history path = some value) :
    ∃ call ∈ boundCalls history, call.path = path ∧ value = .bytes call.proposed := by
  induction history with
  | nil => cases hvalue
  | cons transaction older ih =>
      have hbound := boundBy_of_history h
      have holder := h.tail
      cases hbefore : stateAt older path with
      | none =>
          obtain ⟨call, hcall, hproposed⟩ := hbound.proposed path value hpath hbefore hvalue
          exact ⟨call, List.mem_append_left _ hcall, hproposed⟩
      | some old =>
          obtain rfl := Option.some.inj
            ((hbound.kept path old hpath hbefore).symm.trans hvalue)
          obtain ⟨call, hcall, hproposed⟩ := ih holder hbefore
          exact ⟨call, List.mem_append_right _ hcall, hproposed⟩

/-- Whatever runs at the same time, all calls for one path return the same bytes, which the path
has from then on and which one of the calls has proposed. -/
theorem bindings_agree (h : History Binds (newer ++ older)) {call : BoundCall π}
    (hcall : call ∈ boundCalls older) :
    stateAt (newer ++ older) call.path = some (.bytes call.returned) ∧
      (∃ first ∈ boundCalls older, first.path = call.path ∧ first.proposed = call.returned) ∧
      ∀ other ∈ boundCalls (newer ++ older), other.path = call.path →
        other.returned = call.returned := by
  obtain ⟨hpath, hvalue⟩ := bound_returned h.of_append hcall
  have hlater := bound_kept h hpath hvalue
  refine ⟨hlater, ?_, ?_⟩
  · obtain ⟨first, hfirst, hsame, hproposed⟩ := bound_proposed h.of_append hpath hvalue
    exact ⟨first, hfirst, hsame, (Value.bytes.inj hproposed).symm⟩
  · intro other hother hsame
    have hreturned := (bound_returned h hother).2
    rw [hsame] at hreturned
    exact Value.bytes.inj (Option.some.inj (hreturned.symm.trans hlater))

def askId (created : Bytes) : RepositoryProgram Unit (List (BoundCall Unit)) := do
  let id ← getId created
  let calls ← pure []
  pure (⟨.remoteId, created, id⟩ :: calls)

/-- Two clients propose different ids. -/
theorem bindings_agree_ids :
    let attempt (created : Bytes) (snapshot : Values Unit) := (askId created).run snapshot []
    ∃ first second, attempt [1] (fun _ => none) = some first ∧
      attempt [2] (stateAt [first.transaction 0 (askId [1])]) = some second ∧
      stateAt [second.transaction 1 (askId [2]), first.transaction 0 (askId [1])] .remoteId =
        some (.bytes [1]) ∧
      (∃ call ∈ boundCalls [first.transaction 0 (askId [1])],
        call.path = .remoteId ∧ call.proposed = [1]) ∧
      ∀ other ∈ boundCalls [second.transaction 1 (askId [2]), first.transaction 0 (askId [1])],
        other.path = .remoteId → other.returned = [1] := by
  intro attempt
  have hbinds (created : Bytes) : Binds (askId created) := .getId created fun _ => .done
  obtain ⟨first, hfirst⟩ : ∃ first, attempt [1] (fun _ => none) = some first := ⟨_, rfl⟩
  have hcalls : first.result = [⟨.remoteId, [1], [1]⟩] := by
    cases hfirst
    rfl
  have hstate : stateAt [first.transaction 0 (askId [1])] .remoteId = some (.bytes [1]) := by
    cases hfirst
    rfl
  obtain ⟨second, hsecond⟩ : ∃ second,
      attempt [2] (stateAt [first.transaction 0 (askId [1])]) = some second := by
    cases hfirst
    exact ⟨_, rfl⟩
  refine ⟨first, second, hfirst, hsecond, ?_⟩
  have holder : History Binds [first.transaction 0 (askId [1])] :=
    .commit .nil le_rfl ⟨hbinds [1], first, hfirst, rfl⟩ (by simp [Occ.since])
  have hnewer : History Binds ([second.transaction 1 (askId [2])] ++
      [first.transaction 0 (askId [1])]) :=
    .commit holder le_rfl ⟨hbinds [2], second, hsecond, rfl⟩
      (by simp [Occ.since, Attempt.transaction])
  have hcall : ⟨.remoteId, [1], [1]⟩ ∈ boundCalls [first.transaction 0 (askId [1])] := by
    refine List.mem_append_left _ ?_
    change _ ∈ first.result
    rw [hcalls]
    exact List.mem_cons_self
  exact bindings_agree hnewer hcall

/-! ## Sections -/

/-- Programs that write no counter of a lock but by `withLock`, and clear all of them if any.
Sections nest, and what follows depends on what has been read. -/
inductive Sectioned : RepositoryProgram π α → Prop where
  | done (result : α) : Sectioned (.done result)
  | fail : Sectioned .fail
  | read {keys : Path π → Bool}
      {next : ({path // keys path = true} → Option Value) → RepositoryProgram π α}
      (h : ∀ values, Sectioned (next values)) : Sectioned (.read keys next)
  | mutate {mutation : Mutation (Path π) Value} {next : RepositoryProgram π α}
      (hmutation : ∀ storeId, mutation.touches (.lock storeId) = false) (h : Sectioned next) :
      Sectioned (.mutate mutation next)
  | destroy {next : RepositoryProgram π α} (h : Sectioned next) : Sectioned (do
      clear
      next)
  | withLock (storeId : String) {effect : RepositoryProgram π α} (h : Sectioned effect) :
      Sectioned (withLock storeId effect)

def lockNumber (values : Values π) (storeId : String) : Nat :=
  match values (.lock storeId) with
  | some (.number version) => version
  | some (.bytes _) => 0
  | none => 0

/-- The number of acquisitions of a lock since it was last destroyed. -/
def countAcquired (storeId : String) (count : Nat) : Mutation (Path π) Value → Nat
  | .put path _ => if path = .lock storeId then count + 1 else count
  | .clear keys => if keys (.lock storeId) then 0 else count

def acquisitions (storeId : String) : List (CellTransaction (Path π) Value α) → Nat
  | [] => 0
  | transaction :: older =>
    transaction.mutations.foldl (countAcquired storeId) (acquisitions storeId older)

/-- A transaction has acquired a lock, and has not destroyed it before. -/
def acquires (storeId : String) (mutations : List (Mutation (Path π) Value)) : Bool :=
  match mutations.find? fun mutation => mutation.touches (.lock storeId) with
  | some (.put _ _) => true
  | some (.clear _) => false
  | none => false

theorem run_withLock {values : Values π} {storeId : String} {effect : RepositoryProgram π α}
    {mutations : List (Mutation (Path π) Value)} {attempt : Attempt (Path π) Value α}
    (h : (withLock storeId effect).run values mutations = some attempt) : ∃ rest,
      effect.run values (mutations ++ [.put (.lock storeId)
        (.number (lockNumber (cellsAfter values mutations) storeId + 1))]) = some rest ∧
      attempt = rest.reading fun path =>
        decide (path = .lock storeId) && !written mutations path := by
  change Option.map _ (Program.run values (Program.bind
    (match cellsAfter values mutations (.lock storeId) with
      | none => Program.done 0
      | some (.number version) => .done version
      | some (.bytes _) => .fail)
    fun version => .mutate (.put (.lock storeId) (.number (version + 1))) effect) mutations) = _ at h
  rw [Option.map_eq_some_iff] at h
  obtain ⟨rest, hrest, rfl⟩ := h
  refine ⟨rest, ?_, rfl⟩
  unfold lockNumber
  cases hvalue : cellsAfter values mutations (.lock storeId) with
  | none =>
      rw [hvalue] at hrest
      exact hrest
  | some value =>
      rw [hvalue] at hrest
      cases value with
      | number version => exact hrest
      | bytes bytes => cases hrest

theorem written_append (first second : List (Mutation (Path π) Value)) (path : Path π) :
    written (first ++ second) path = (written first path || written second path) :=
  List.any_append

theorem acquires_append {storeId : String} {first : List (Mutation (Path π) Value)}
    (h : written first (.lock storeId) = false) (second : List (Mutation (Path π) Value)) :
    acquires storeId (first ++ second) = acquires storeId second := by
  have hnone : (first.find? fun mutation => mutation.touches (.lock storeId)) = none := by
    rw [List.find?_eq_none]
    intro mutation hmem
    rw [written, List.any_eq_false] at h
    exact h mutation hmem
  rw [acquires, List.find?_append, hnone, Option.none_or, acquires]

theorem Sectioned.reads_lock {program : RepositoryProgram π α} (h : Sectioned program)
    {values : Values π} {mutations : List (Mutation (Path π) Value)}
    {attempt : Attempt (Path π) Value α} (hrun : program.run values mutations = some attempt)
    {storeId : String} (hwritten : written mutations (.lock storeId) = false)
    (hacquires : acquires storeId attempt.mutations = true) :
    attempt.reads (.lock storeId) = true := by
  induction h generalizing mutations attempt with
  | done result =>
      cases hrun
      have hnone := acquires_append hwritten []
      rw [List.append_nil] at hnone
      cases hnone.symm.trans hacquires
  | fail => cases hrun
  | read _ ih =>
      obtain ⟨rest, hrest, rfl⟩ := Option.map_eq_some_iff.mp hrun
      exact Bool.or_eq_true_iff.mpr (.inl (ih _ hrest hwritten hacquires))
  | mutate hmutation _ ih =>
      refine ih hrun ?_ hacquires
      rw [written_append, hwritten, Bool.false_or, written, List.any_cons, hmutation]
      rfl
  | destroy _ ih =>
      -- Its counter is cleared first, and so is not acquired.
      have hcleared : mutations ++ [.clear fun _ => true] <+: attempt.mutations :=
        Program.run_mutations hrun
      obtain ⟨later, hlater⟩ := hcleared
      rw [← hlater, List.append_assoc, acquires_append hwritten] at hacquires
      cases hacquires
  | withLock other _ ih =>
      obtain ⟨rest, hrest, rfl⟩ := run_withLock hrun
      by_cases hother : other = storeId
      · subst hother
        simp [Attempt.reading, hwritten]
      · refine Bool.or_eq_true_iff.mpr (.inl (ih hrest ?_ hacquires))
        have hne : Path.lock (π := π) storeId ≠ .lock other := fun heq =>
          hother (Path.lock.inj heq).symm
        rw [written_append, hwritten, Bool.false_or, written, List.any_cons]
        simp [Mutation.touches, hne]

omit [DecidableEq π] in
theorem lockNumber_congr {values values' : Values π} {storeId : String}
    (h : values (.lock storeId) = values' (.lock storeId)) :
    lockNumber values storeId = lockNumber values' storeId := by
  rw [lockNumber, h, lockNumber]

theorem lockNumber_put (values : Values π) (storeId : String) (version : Nat) :
    lockNumber (Mutation.apply values (.put (.lock storeId) (.number version))) storeId =
      version := by
  simp [lockNumber, Mutation.apply]

theorem countAcquired_of_untouched {storeId : String} {mutation : Mutation (Path π) Value}
    (h : mutation.touches (.lock storeId) = false) (count : Nat) :
    countAcquired storeId count mutation = count := by
  cases mutation with
  | put path value => exact if_neg fun heq => of_decide_eq_false h heq.symm
  | clear keys =>
      simp only [Mutation.touches] at h
      simp [countAcquired, h]

/-- The counter of a lock is the number of its acquisitions. -/
theorem Sectioned.counted {program : RepositoryProgram π α} (h : Sectioned program)
    {values : Values π} {mutations : List (Mutation (Path π) Value)}
    {attempt : Attempt (Path π) Value α} (hrun : program.run values mutations = some attempt)
    {storeId : String} {count : Nat}
    (hcount : lockNumber (cellsAfter values mutations) storeId =
      mutations.foldl (countAcquired storeId) count) :
    lockNumber (cellsAfter values attempt.mutations) storeId =
      attempt.mutations.foldl (countAcquired storeId) count := by
  have huntouched {mutation : Mutation (Path π) Value} {mutations : List (Mutation (Path π) Value)}
      (hmutation : mutation.touches (.lock storeId) = false)
      (hcount : lockNumber (cellsAfter values mutations) storeId =
        mutations.foldl (countAcquired storeId) count) :
      lockNumber (cellsAfter values (mutations ++ [mutation])) storeId =
        (mutations ++ [mutation]).foldl (countAcquired storeId) count := by
    rw [cellsAfter_append, List.foldl_append, ← hcount]
    exact (lockNumber_congr (Mutation.apply_of_untouched hmutation)).trans
      (countAcquired_of_untouched hmutation _).symm
  induction h generalizing mutations attempt with
  | done result =>
      cases hrun
      exact hcount
  | fail => cases hrun
  | read _ ih =>
      obtain ⟨rest, hrest, rfl⟩ := Option.map_eq_some_iff.mp hrun
      have hnext := ih _ hrest hcount
      exact hnext
  | mutate hmutation _ ih => exact ih hrun (huntouched (hmutation storeId) hcount)
  | destroy _ ih =>
      refine ih hrun ?_
      rw [cellsAfter_append, List.foldl_append]
      rfl
  | withLock other _ ih =>
      obtain ⟨rest, hrest, rfl⟩ := run_withLock hrun
      by_cases hother : other = storeId
      · subst hother
        have hnext := ih hrest (by
          rw [cellsAfter_append, List.foldl_append, ← hcount]
          have hput := lockNumber_put (cellsAfter values mutations) other
            (lockNumber (cellsAfter values mutations) other + 1)
          rw [List.foldl_cons, List.foldl_nil, countAcquired, if_pos rfl]
          exact hput)
        exact hnext
      · have hnext := ih hrest
          (huntouched (decide_eq_false fun heq => hother (Path.lock.inj heq).symm) hcount)
        exact hnext

/-! ## Serial sections -/

/-- The sections of a lock are serial, and its counter is exact. -/
structure SerialSections (history : List (CellTransaction (Path π) Value α)) : Prop where
  serial : ∀ newer later between earlier older,
    history = newer ++ later :: (between ++ earlier :: older) → ∀ storeId,
      acquires storeId later.mutations = true →
        written earlier.mutations (.lock storeId) = true → older.length + 1 ≤ later.readVersion
  counted : ∀ newer older, history = newer ++ older → ∀ storeId,
    lockNumber (stateAt older) storeId = acquisitions storeId older

section

variable {history newer older : List (CellTransaction (Path π) Value α)}
  {transaction : CellTransaction (Path π) Value α}

theorem counted_of_history (h : History Sectioned history) (storeId : String) :
    lockNumber (stateAt history) storeId = acquisitions storeId history := by
  induction history with
  | nil => rfl
  | cons transaction older ih =>
      obtain ⟨hsectioned, attempt, hrun, hattempt⟩ := h.serializable
      have hmutations : transaction.mutations = attempt.mutations := by
        rw [hattempt]
        rfl
      rw [stateAt_cons, acquisitions, hmutations]
      exact hsectioned.counted hrun (ih h.tail)

/-- Under optimistic concurrency the sections of one lock run one after another: a transaction
that acquires a lock, and has not destroyed it before, runs on a snapshot that has the writes of
all transactions before it that have acquired the lock, or destroyed it. -/
theorem sections_serial (h : History Sectioned history) : SerialSections history := by
  constructor
  case serial =>
    rintro newer later between earlier older rfl storeId hacquires hwritten
    have hlater : History Sectioned (later :: (between ++ earlier :: older)) := h.of_append
    have hearlier : History Sectioned (earlier :: older) := hlater.tail.of_append
    by_contra hversion
    have hread : .lock storeId ∈ later.reads := by
      obtain ⟨hsectioned, attempt, hrun, hattempt⟩ := hlater.serializable
      rw [hattempt] at hacquires ⊢
      exact hsectioned.reads_lock hrun rfl hacquires
    have hwrite : .lock storeId ∈ earlier.writes := by
      obtain ⟨-, attempt, -, hattempt⟩ := hearlier.serializable
      rw [hattempt] at hwritten ⊢
      exact hwritten
    cases hlater with
    | commit _ _ _ hconflict =>
        -- Were it not in the snapshot, it would conflict.
        have hsince : earlier ∈
            Occ.since (between ++ [earlier] ++ older) later.readVersion := by
          rw [Occ.since_append (by omega)]
          simp
        rw [List.append_assoc] at hsince
        exact Set.disjoint_left.mp (hconflict earlier hsince) hread hwrite
  case counted =>
    rintro newer older rfl storeId
    exact counted_of_history h.of_append storeId

def writeLocked (value : Nat) : RepositoryProgram Unit Unit :=
  withLock "store" (put (.other ()) (.number value))

theorem sections_serial_two :
    let attempt (value : Nat) (snapshot : Values Unit) := (writeLocked value).run snapshot []
    ∃ first second, attempt 1 (fun _ => none) = some first ∧
      attempt 2 (stateAt [first.transaction 0 (writeLocked 1)]) = some second ∧
      SerialSections [second.transaction 1 (writeLocked 2), first.transaction 0 (writeLocked 1)] := by
  intro attempt
  have hsectioned (value : Nat) : Sectioned (writeLocked value) :=
    .withLock "store" (.mutate (fun _ => rfl) (.done ()))
  obtain ⟨first, hfirst⟩ : ∃ first, attempt 1 (fun _ => none) = some first := ⟨_, rfl⟩
  obtain ⟨second, hsecond⟩ : ∃ second,
      attempt 2 (stateAt [first.transaction 0 (writeLocked 1)]) = some second := by
    cases hfirst
    exact ⟨_, rfl⟩
  refine ⟨first, second, hfirst, hsecond, ?_⟩
  have holder : History Sectioned [first.transaction 0 (writeLocked 1)] :=
    .commit .nil le_rfl ⟨hsectioned 1, first, hfirst, rfl⟩ (by simp [Occ.since])
  exact sections_serial (.commit holder le_rfl ⟨hsectioned 2, second, hsecond, rfl⟩
    (by simp [Occ.since, Attempt.transaction]))

end

end FoundationDbEffect.EventLog.Repository
