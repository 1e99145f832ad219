import FoundationDbEffect.EventLog.Journal

/-!
# The storage of event-log servers

A server keeps the entries of each tenant under sequence numbers, an index of the sequences that
are taken and one of the entry ids that are stored, and the tenant's next sequence. A tenant of
the encrypted server is a public key and a store, one of the plain server is a store.

Transactions are serializable, so those that commit run one after another. A transaction holds
any number of writes, and one of them that fails rolls all of them back.

`idString` gives the text of an entry id.
-/

namespace FoundationDbEffect.EventLog.Server

open FoundationDbEffect.Foundation

/-! ## Rows -/

structure RepositoryOptions where
  pageSize : Nat := 100
  pageSize_pos : 0 < pageSize := by decide

structure PersistedEntry (ι τ : Type) where
  entryId : ι
  payload : τ
  deriving DecidableEq, Repr

structure EncryptedRemoteEntry (ι τ : Type) extends PersistedEntry ι τ where
  sequence : Nat
  deriving DecidableEq, Repr

structure Rows (θ ι ε : Type) [LinearOrder θ] [LinearOrder ι] where
  next : OrderedMap θ Nat := ∅
  entries : OrderedMap (θ ×ₗ Nat) ε := ∅
  sequences : OrderedMap (θ ×ₗ Nat) Unit := ∅
  ids : OrderedMap (θ ×ₗ ι) Unit := ∅
  signals : OrderedMap θ (BitVec 64) := ∅

structure PlainRows (σ ι : Type) [LinearOrder σ] [LinearOrder ι] where
  rows : Rows σ ι (RemoteEntry ι) := {}
  byId : OrderedMap (σ ×ₗ ι) (Entry ι) := ∅

/-- The lookups of a list of paths, one page of keys after another. -/
def hasPages {α : Type} [LinearOrder α] (index : OrderedMap α Unit) (pageSize : Nat) :
    Nat → List α → List Bool
  | 0, _ => []
  | fuel + 1, paths =>
    if paths.length = 0 then []
    else
      (paths.take pageSize).map (fun path => (index.get? path).isSome) ++
        hasPages index pageSize fuel (paths.drop pageSize)

def hasMany {α : Type} [LinearOrder α] (options : RepositoryOptions) (index : OrderedMap α Unit)
    (paths : List α) : List Bool :=
  hasPages index options.pageSize paths.length paths

section

variable {θ ι ε : Type} [LinearOrder θ] [LinearOrder ι]

def Rows.number (rows : Rows θ ι ε) (tenant : θ) (fallback : Nat) : Nat :=
  (rows.next.get? tenant).getD fallback

def Rows.setNumber (rows : Rows θ ι ε) (tenant : θ) (value : Nat) : Rows θ ι ε :=
  { rows with next := rows.next.set tenant value }

def Rows.notify (rows : Rows θ ι ε) (tenant : θ) : Rows θ ι ε :=
  { rows with signals := rows.signals.set tenant ((rows.signals.get? tenant).getD 0 + 1) }

def Rows.append (rows : Rows θ ι ε) (tenant : θ) (sequence : Nat) (id : ι) (entry : ε) :
    Rows θ ι ε :=
  { rows with
    entries := rows.entries.set (toLex (tenant, sequence)) entry
    sequences := rows.sequences.set (toLex (tenant, sequence)) ()
    ids := rows.ids.set (toLex (tenant, id)) () }

end

/-! ## The encrypted server -/

section

variable {θ ι τ : Type} [LinearOrder θ] [LinearOrder ι] (idString : ι → String)

/-- The entries of a batch with what the index says of their ids, from the first of them on. -/
def appendEncrypted (tenant : θ) :
    List (PersistedEntry ι τ × Bool) → List String → Nat →
      Rows θ ι (EncryptedRemoteEntry ι τ) →
      Rows θ ι (EncryptedRemoteEntry ι τ) × Nat × List (EncryptedRemoteEntry ι τ)
  | [], _, sequence, rows => (rows, sequence, [])
  | (entry, existing) :: rest, seen, sequence, rows =>
    if existing || seen.contains (idString entry.entryId) then
      appendEncrypted tenant rest seen sequence rows
    else
      let remote : EncryptedRemoteEntry ι τ := { entry with sequence }
      let (rows, next, written) := appendEncrypted tenant rest
        (idString entry.entryId :: seen) (sequence + 1)
        (rows.append tenant sequence entry.entryId remote)
      (rows, next, remote :: written)

def writeEncrypted (options : RepositoryOptions) (tenant : θ)
    (entries : List (PersistedEntry ι τ)) (rows : Rows θ ι (EncryptedRemoteEntry ι τ)) :
    Rows θ ι (EncryptedRemoteEntry ι τ) × List (EncryptedRemoteEntry ι τ) :=
  let sequence := rows.number tenant 0
  let existing := hasMany options rows.ids
    (entries.map fun entry => toLex (tenant, entry.entryId))
  let (rows, next, written) :=
    appendEncrypted idString tenant (entries.zip existing) [] sequence rows
  if 0 < written.length then ((rows.setNumber tenant next).notify tenant, written)
  else (rows, written)

/-! ## The plain server -/

variable {σ : Type} [LinearOrder σ]

def appendPlain (store : σ) :
    List (Entry ι × Bool) → List String → Nat → PlainRows σ ι →
      Except String (PlainRows σ ι × Nat × List (RemoteEntry ι))
  | [], _, next, state => .ok (state, next, [])
  | (entry, existing) :: rest, seen, next, state =>
    if existing || seen.contains (idString entry.id) then .error "Duplicate entries"
    else do
      let remote : RemoteEntry ι := ⟨next, entry⟩
      let (state, next, written) ← appendPlain store rest (idString entry.id :: seen) (next + 1)
        { rows := state.rows.append store next entry.id remote
          byId := state.byId.set (toLex (store, entry.id)) entry }
      .ok (state, next, remote :: written)

def writePlain (options : RepositoryOptions) (store : σ) (entries : List (Entry ι))
    (state : PlainRows σ ι) : Except String (PlainRows σ ι × List (RemoteEntry ι)) := do
  let next := state.rows.number store 1
  let existing := hasMany options state.rows.ids
    (entries.map fun entry => toLex (store, entry.id))
  let (state, next, written) ←
    appendPlain idString store (entries.zip existing) [] next state
  if 0 < written.length then
    .ok ({ state with rows := (state.rows.setNumber store next).notify store }, written)
  else .ok (state, written)

/-! ## Transactions -/

structure ServerState (θ σ ι τ : Type) [LinearOrder θ] [LinearOrder σ] [LinearOrder ι] where
  encrypted : Rows θ ι (EncryptedRemoteEntry ι τ) := {}
  plain : PlainRows σ ι := {}

inductive ServerCall (θ σ ι τ : Type) where
  | writeEncrypted (options : RepositoryOptions) (tenant : θ) (entries : List (PersistedEntry ι τ))
  | writePlain (options : RepositoryOptions) (store : σ) (entries : List (Entry ι))

def ServerState.call (state : ServerState θ σ ι τ) :
    ServerCall θ σ ι τ → Except String (ServerState θ σ ι τ)
  | .writeEncrypted options tenant entries =>
      .ok { state with
        encrypted := (Server.writeEncrypted idString options tenant entries state.encrypted).1 }
  | .writePlain options store entries => do
      let (plain, _) ← Server.writePlain idString options store entries state.plain
      .ok { state with plain }

def ServerState.run (state : ServerState θ σ ι τ) (calls : List (ServerCall θ σ ι τ)) :
    Except String (ServerState θ σ ι τ) :=
  calls.foldlM (fun state call => state.call idString call) state

inductive Reachable : ServerState θ σ ι τ → Prop where
  | empty : Reachable {}
  | commit {state state' : ServerState θ σ ι τ} {calls : List (ServerCall θ σ ι τ)}
      (h : Reachable state) (hrun : state.run idString calls = .ok state') : Reachable state'

end

end FoundationDbEffect.EventLog.Server
