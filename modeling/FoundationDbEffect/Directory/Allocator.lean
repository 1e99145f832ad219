import FoundationDbEffect.Foundation.Occ
import FoundationDbEffect.Foundation.OrderedMap
import FoundationDbEffect.Tuple.Order
import Mathlib.Data.Finset.Basic
import Mathlib.Data.Int.Order.Basic

/-!
# The high-contention allocator

The allocator keeps one counter row for each window of candidates that it has opened, under
the first candidate of the window, and one recent row for each candidate it has handed out
there.  Candidates and window starts are the integers of one-element tuples, so the key order
of the rows is the order of these integers.
-/

namespace FoundationDbEffect.Directory

open FoundationDbEffect.Foundation FoundationDbEffect.TupleLayer

inductive AllocatorKey where
  | counter (start : Int)
  | recent (candidate : Int)
  deriving DecidableEq, Repr

structure AllocatorState where
  counters : OrderedMap Int (BitVec 64)
  recent : Finset Int
  deriving DecidableEq

inductive AllocatorMutation where
  | addOne (start : Int)
  | clearCounters (stop : Int)
  | clearRecent (stop : Int)
  | setRecent (candidate : Int)
  deriving DecidableEq, Repr

def AllocatorState.apply (state : AllocatorState) : AllocatorMutation → AllocatorState
  | .addOne start =>
      { state with counters :=
          state.counters.set start ((state.counters.get? start).getD 0 + 1) }
  | .clearCounters stop => { state with counters := state.counters.clearRange (· < stop) }
  | .clearRecent stop => { state with recent := state.recent.filter (¬ · < stop) }
  | .setRecent candidate => { state with recent := insert candidate state.recent }

/-! ## Transactions in progress -/

structure AllocatorTransaction where
  snapshot : AllocatorState
  mutations : List AllocatorMutation := []
  reads : List AllocatorKey := []
  writes : List AllocatorKey := []
  allocated : List Int := []

namespace AllocatorTransaction

def view (transaction : AllocatorTransaction) : AllocatorState :=
  transaction.mutations.foldl AllocatorState.apply transaction.snapshot

def mutate (transaction : AllocatorTransaction) (mutation : AllocatorMutation) :
    AllocatorTransaction :=
  { transaction with mutations := transaction.mutations ++ [mutation] }

def addWriteConflict (transaction : AllocatorTransaction) (key : AllocatorKey) :
    AllocatorTransaction :=
  { transaction with writes := key :: transaction.writes }

/-- The greatest window start in view, read as a snapshot. -/
def latestStart (transaction : AllocatorTransaction) : Option Int :=
  (transaction.view.counters.last? fun _ => true).map Prod.fst

def overwrites (candidate : Int) : AllocatorMutation → Bool
  | .setRecent candidate' => candidate' = candidate
  | .clearRecent stop => candidate < stop
  | _ => false

/-- A read with conflict. A row that the transaction itself has set or cleared is answered
from its own writes and raises no conflict. -/
def getRecent (transaction : AllocatorTransaction) (candidate : Int) :
    Bool × AllocatorTransaction :=
  (candidate ∈ transaction.view.recent,
    if transaction.mutations.any (overwrites candidate) then transaction
    else { transaction with reads := .recent candidate :: transaction.reads })

end AllocatorTransaction

/-! ## Allocation -/

def windowSize (start : Int) : Int :=
  if start < 255 then 64 else if start < 65535 then 1024 else 8192

def randomCandidate (start window : Int) (random : UInt32) : Int :=
  start + (random.toNat % window.toNat : Nat)

/-- One pass of the loop that looks for a window with room: the windows before an advanced
start are erased, and the pass is counted in its own window. -/
def enterWindow (transaction : AllocatorTransaction) (start : Int) (advanced : Bool) :
    AllocatorTransaction :=
  let cleared :=
    if advanced then (transaction.mutate (.clearCounters start)).mutate (.clearRecent start)
    else transaction
  (cleared.mutate (.addOne start)).addWriteConflict (.counter start)

def windowLoop : Nat → AllocatorTransaction → Int → Bool →
    Option (AllocatorTransaction × Int × Int)
  | 0, _, _, _ => none
  | fuel + 1, transaction, start, advanced =>
    let transaction := enterWindow transaction start advanced
    let count := ((transaction.view.counters.get? start).map BitVec.toInt).getD 0
    let window := windowSize start
    if count * 2 < window then some (transaction, start, window)
    else windowLoop fuel transaction (start + window) true

/-- One pass of the loop that tries candidates: the outer loop starts again, the candidate is
free, or another one has to be tried. -/
inductive CandidateResult where
  | stale
  | allocated (candidate : Int)
  | taken
  deriving DecidableEq, Repr

def tryCandidate (transaction : AllocatorTransaction) (start candidate : Int) :
    AllocatorTransaction × CandidateResult :=
  let currentStart := transaction.latestStart.getD 0
  let (candidateValue, transaction) := transaction.getRecent candidate
  let transaction := transaction.mutate (.setRecent candidate)
  if currentStart > start then (transaction, .stale)
  else if candidateValue then (transaction, .taken)
  else (transaction.addWriteConflict (.recent candidate), .allocated candidate)

def candidateLoop : List UInt32 → AllocatorTransaction → Int → Int →
    Option (AllocatorTransaction × List UInt32 × Option Int)
  | [], _, _, _ => none
  | random :: randoms, transaction, start, window =>
    match tryCandidate transaction start (randomCandidate start window random) with
    | (transaction, .stale) => some (transaction, randoms, none)
    | (transaction, .allocated candidate) => some (transaction, randoms, some candidate)
    | (transaction, .taken) => candidateLoop randoms transaction start window

/-- The allocation with the random words it draws. It has no result when it would need more
passes or more random words than it is given. -/
def allocatePrefixLocked : Nat → List UInt32 → AllocatorTransaction →
    Option (AllocatorTransaction × Int)
  | 0, _, _ => none
  | fuel + 1, randoms, transaction =>
    match windowLoop (fuel + 1) transaction (transaction.latestStart.getD 0) false with
    | none => none
    | some (transaction, start, window) =>
      match candidateLoop randoms transaction start window with
      | none => none
      | some (transaction, _, some candidate) => some (transaction, candidate)
      | some (transaction, randoms, none) => allocatePrefixLocked fuel randoms transaction

def allocatePrefix (fuel : Nat) (randoms : List UInt32) (transaction : AllocatorTransaction) :
    Option AllocatorTransaction :=
  (allocatePrefixLocked fuel randoms transaction).map fun (transaction, candidate) =>
    { transaction with allocated := candidate :: transaction.allocated }

inductive Allocates (snapshot : AllocatorState) : AllocatorTransaction → Prop where
  | start : Allocates snapshot { snapshot }
  | call {transaction next : AllocatorTransaction} (fuel : Nat) (randoms : List UInt32)
      (h : Allocates snapshot transaction)
      (hcall : allocatePrefix fuel randoms transaction = some next) : Allocates snapshot next

/-! ## Committed allocations -/

abbrev Allocation := Transaction AllocatorMutation AllocatorKey (List Int)

def AllocatorTransaction.commit (transaction : AllocatorTransaction) (readVersion : Nat) :
    Allocation where
  readVersion := readVersion
  mutations := transaction.mutations
  reads := {key | key ∈ transaction.reads}
  writes := {key | key ∈ transaction.writes}
  result := transaction.allocated

def allocationBody (snapshot : AllocatorState) (allocation : Allocation) : Prop :=
  ∃ transaction, Allocates snapshot transaction ∧
    allocation = transaction.commit allocation.readVersion

abbrev AllocatorHistory (initial : AllocatorState) : List Allocation → Prop :=
  Occ.Committed (fun _ => AllocatorState.apply) initial allocationBody

end FoundationDbEffect.Directory
