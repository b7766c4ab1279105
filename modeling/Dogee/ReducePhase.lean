import Dogee.SyncManager
import Dogee.ThreadCounts
import Dogee.Transition

/-!
# The reduce phase on a cluster

`DMapReduce::Reduce` is called on the master. Under the lock of the data connections it
enters the wait list, asks every other node to reduce and reduces its own map. A node
that is asked calls `DoReduce` for each entry of its map, clears the map and reports to
the master; when all nodes have reported, the master wakes the caller.

Connections are first in, first out. A message is handled under the lock of its node,
so it is one step, and at the master it waits until the caller has left the lock.
-/

namespace Dogee.ReducePhase

open SyncManager (SyncThreadNode)
open ThreadCounts
open Transition

/-- A call of `Reduce` by a thread of node `self`. -/
structure Config where
  numNodes : Nat
  self : Nat
  placed : self < numNodes
  threadId : Nat
  hasGlobalReduce : Bool

/-- The thread that calls `Reduce` on the master. -/
def Config.caller (cfg : Config) : SyncThreadNode := ⟨0, cfg.threadId⟩

/-- `DataSyncNode`, its buffer being the map, with the calls of `DoReduce` and the number of
threads that have been started for `DoGlobalReduce`. -/
structure DataSyncNode (K V : Type) where
  doneNodeCnt : Nat
  waitlist : List SyncThreadNode
  buf : List (K × List V)
  calls : List (K × List V)
  globalReduces : Nat

inductive Message
  | localReduce
  | partialDone

/-- Where the caller is: before `Reduce`, before the lock, in the loop over the other nodes,
waiting for its event, and back with the result. -/
inductive Phase
  | idle
  | called
  | sending (i : Nat)
  | waiting
  | returned (ok : Bool)

structure State (K V : Type) where
  phase : Phase
  nodes : Nat → DataSyncNode K V
  channel : Nat → Nat → List Message
  wakes : Nat → List Nat
  event : SyncThreadNode → Bool

variable {K V : Type}

namespace State

def setNode (s : State K V) (i : Nat) (node : DataSyncNode K V) : State K V :=
  { s with nodes := Function.update s.nodes i node }

def setChannel (s : State K V) (src dst : Nat) (msgs : List Message) : State K V :=
  { s with channel := Function.update s.channel src (Function.update (s.channel src) dst msgs) }

def send (s : State K V) (src dst : Nat) (m : Message) : State K V :=
  s.setChannel src dst (s.channel src dst ++ [m])

/-- `RcWakeRemoteThread` on the master. -/
def rcWakeRemoteThread (s : State K V) (th : SyncThreadNode) : State K V :=
  if th.machine = 0 then { s with event := Function.update s.event th true }
  else { s with wakes := Function.update s.wakes th.machine (s.wakes th.machine ++ [th.threadId]) }

/-- The caller is in the lock of the master. -/
def isLocked (s : State K V) : Bool :=
  match s.phase with
  | .sending _ => true
  | _ => false

end State

section Step

variable (cfg : Config)

/-- `BaseDoReduce`, the map being iterated in the given order. -/
def baseDoReduce (node : DataSyncNode K V) (order : List (K × List V)) : DataSyncNode K V :=
  { node with
    calls := node.calls ++ order
    globalReduces := node.globalReduces + if cfg.hasGlobalReduce then 1 else 0
    buf := [] }

/-- `AcAccumulatePartialDoneMsg` on the master. -/
def acAccumulatePartialDoneMsg (s : State K V) : State K V :=
  let node := { s.nodes 0 with doneNodeCnt := (s.nodes 0).doneNodeCnt + 1 }
  if cfg.numNodes ≤ node.doneNodeCnt then
    (node.waitlist.foldl State.rcWakeRemoteThread s).setNode 0
      { node with doneNodeCnt := 0, waitlist := [] }
  else s.setNode 0 node

/-- `AcLocalReduceMsg` at node `self`. -/
def acLocalReduceMsg (s : State K V) (self : Nat) (order : List (K × List V)) : State K V :=
  let s := s.setNode self (baseDoReduce cfg (s.nodes self) order)
  if self = 0 then acAccumulatePartialDoneMsg cfg s else s.send self 0 .partialDone

/-- A step of the caller; `order` is that of the map of the master. -/
def advance [DecidableEq K] [DecidableEq V] (s : State K V) (order : List (K × List V)) : Option (State K V) :=
  match s.phase with
  | .idle =>
      if cfg.self = 0 then some { s with phase := .called, event := Function.update s.event cfg.caller false }
      else some { s with phase := .returned false }
  | .called =>
      some ({ s with phase := .sending 1 }.setNode 0
        { s.nodes 0 with waitlist := (s.nodes 0).waitlist ++ [cfg.caller] })
  | .sending i =>
      if i < cfg.numNodes then some ({ s with phase := .sending (i + 1) }.send 0 i .localReduce)
      else if order.Perm (s.nodes 0).buf then some (acLocalReduceMsg cfg { s with phase := .waiting } 0 order)
      else none
  | .waiting => if s.event cfg.caller then some { s with phase := .returned true } else none
  | .returned _ => none

/-- A node handles a message; `order` is that of its map. -/
def receive [DecidableEq K] [DecidableEq V] (s : State K V) (dst : Nat) (order : List (K × List V)) :
    Message → Option (State K V)
  | .localReduce => if order.Perm (s.nodes dst).buf then some (acLocalReduceMsg cfg s dst order) else none
  | .partialDone => some (if dst = 0 then acAccumulatePartialDoneMsg cfg s else s)

inductive Act (K V : Type)
  | advance (order : List (K × List V))
  | deliver (src dst : Nat) (order : List (K × List V))
  | wake (machine : Nat)

def step [DecidableEq K] [DecidableEq V] (s : State K V) : Act K V → Option (State K V)
  | .advance order => advance cfg s order
  | .deliver src dst order =>
      if dst = 0 ∧ s.isLocked then none
      else match s.channel src dst with
        | [] => none
        | m :: rest => receive cfg (s.setChannel src dst rest) dst order m
  | .wake machine =>
      match s.wakes machine with
      | [] => none
      | threadId :: rest =>
          some { s with
            wakes := Function.update s.wakes machine rest
            event := Function.update s.event ⟨machine, threadId⟩ true }

end Step

/-- Between two phases: nothing is on its way, nobody has reported and nobody waits. -/
structure Quiet (s : State K V) : Prop where
  channel : ∀ src dst, s.channel src dst = []
  wakes : ∀ m, s.wakes m = []
  doneNodeCnt : ∀ i, (s.nodes i).doneNodeCnt = 0
  waitlist : ∀ i, (s.nodes i).waitlist = []

/-- How far a node is: not asked, asked, has reduced and reported, and counted by the master. -/
inductive Place
  | pending
  | requested
  | reported
  | counted
deriving DecidableEq

namespace Place

def request : Place → List Message
  | .requested => [.localReduce]
  | _ => []

def report : Place → List Message
  | .reported => [.partialDone]
  | _ => []

def isReduced : Place → Bool
  | .reported => true
  | .counted => true
  | _ => false

def count : Place → Nat
  | .counted => 1
  | _ => 0

/-- What is left to a node. -/
def left : Place → Nat
  | .pending => 3
  | .requested => 2
  | .reported => 1
  | .counted => 0

end Place

section Invariant

variable (cfg : Config)

/-- What is left to the caller. -/
def Phase.left : Phase → Nat
  | .idle => cfg.numNodes + 4
  | .called => cfg.numNodes + 3
  | .sending i => cfg.numNodes - i + 2
  | .waiting => 1
  | .returned _ => 0

/-- The nodes that have been asked, by the place of the caller. -/
def Asked (place : Nat → Place) : Phase → Prop
  | .sending k => 1 ≤ k ∧ k ≤ cfg.numNodes ∧ (∀ i, 1 ≤ i → i < k → place i ≠ .pending) ∧
      ∀ i, i = 0 ∨ k ≤ i → place i = .pending
  | .waiting => ∀ i < cfg.numNodes, place i ≠ .pending
  | .returned true => ∀ i < cfg.numNodes, place i ≠ .pending
  | _ => ∀ i, place i = .pending

/-- The node has what it had, or it has reduced its map. -/
def NodeOk (p : Place) (before now : DataSyncNode K V) : Prop :=
  if p.isReduced then
    now.buf = [] ∧ (∃ order, order.Perm before.buf ∧ now.calls = before.calls ++ order) ∧
      now.globalReduces = before.globalReduces + if cfg.hasGlobalReduce then 1 else 0
  else now.buf = before.buf ∧ now.calls = before.calls ∧ now.globalReduces = before.globalReduces

/-- The caller is in the wait list. -/
def Phase.isListed : Phase → Bool
  | .sending _ => true
  | .waiting => true
  | _ => false

/-- Before the master has counted all nodes. -/
structure Counting (s : State K V) (place : Nat → Place) : Prop where
  cnt : (s.nodes 0).doneNodeCnt = total cfg.numNodes Place.count place
  lt : total cfg.numNodes Place.count place < cfg.numNodes
  waitlist : (s.nodes 0).waitlist = if s.phase.isListed then [cfg.caller] else []
  event : s.phase = .idle ∨ s.event cfg.caller = false ∨ s.phase = .returned false
  phase : s.phase ≠ .returned true

/-- All nodes are counted, and the caller has been woken. -/
structure Done (s : State K V) (place : Nat → Place) : Prop where
  all : ∀ i < cfg.numNodes, place i = .counted
  cnt : (s.nodes 0).doneNodeCnt = 0
  waitlist : (s.nodes 0).waitlist = []
  event : s.event cfg.caller = true

structure Inv (s₀ s : State K V) (place : Nat → Place) : Prop where
  request : ∀ i, s.channel 0 i = (place i).request
  report : ∀ i, i ≠ 0 → s.channel i 0 = (place i).report
  silent : ∀ i j, i ≠ 0 → j ≠ 0 → s.channel i j = []
  master : place 0 = .pending ∨ place 0 = .counted
  outside : ∀ i, cfg.numNodes ≤ i → place i = .pending
  node : ∀ i, NodeOk cfg (place i) (s₀.nodes i) (s.nodes i)
  asked : Asked cfg place s.phase
  self : s.phase = .idle ∨ (s.phase = .returned false ↔ cfg.self ≠ 0)
  slave : ∀ i, i ≠ 0 → (s.nodes i).doneNodeCnt = 0 ∧ (s.nodes i).waitlist = []
  wakes : ∀ m, s.wakes m = []
  count : Counting cfg s place ∨ Done cfg s place

/-- What is left of the phase. -/
def work (s : State K V) (place : Nat → Place) : Nat := s.phase.left cfg + total cfg.numNodes Place.left place

end Invariant

end Dogee.ReducePhase
