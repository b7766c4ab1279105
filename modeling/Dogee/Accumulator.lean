import Dogee.AccumulatorBuffer
import Dogee.SyncManager

/-!
# Accumulators on a cluster

`AccumulateAndWait` sends each node its segment of the caller's vector. A node
adds what it receives to its buffer; a message with a thread id is the last one
of a thread, and after the last message of the last thread the node writes its
buffer to the output array and reports to the master, node 0. When every node
has reported, the master wakes the threads.

Connections are first in, first out, and messages on different connections are
independent. `acAccumulateMsg` runs under a lock, so it is one step. The threads
run `_DoAccumulateAndWait` in steps of at most one message each. Some fields of
the state only record what has happened; nothing reads them.
-/

namespace Dogee.Accumulator

open SyncManager (SyncThreadNode)

variable {T : Type}

/-- An accumulator and its users. `prepare` is the `func` of `_DoAccumulateAndWait`,
`accumulate` the virtual functions of the accumulator, `input` the vector of each
call of each thread. `junkBase` is what the `base` of a node is when an accumulator
is too large and `init_data_node` does not set it. -/
structure Config (T : Type) where
  numNodes : Nat
  pos : 0 < numNodes
  users : List SyncThreadNode
  nodup : users.Nodup
  placed : ∀ u ∈ users, u.machine < numNodes
  id_ne_zero : ∀ u ∈ users, u.threadId ≠ 0
  dsmSizeOf : Nat
  len : Nat
  prepare : List T → Nat → Nat → Nat × Payload T
  accumulate : Payload T → Nat → List T → Nat → Nat → Option (List T)
  input : SyncThreadNode → Nat → List T
  junkBase : Nat → Nat

namespace Config

/-- The length of the vector in words. -/
def sz (cfg : Config T) : Nat := cfg.dsmSizeOf * cfg.len % two32

def start (cfg : Config T) (i : Nat) : Nat := segmentStart cfg.sz cfg.numNodes i

def stop (cfg : Config T) (i : Nat) : Nat := segmentEnd cfg.sz cfg.numNodes i

end Config

/-- A call of a thread. -/
abbrev Call := SyncThreadNode × Nat

/-- `DataSyncNode`. The last three fields are a record: the calls of each thread
whose last message the node has handled, the calls that have added to the buffer
since it was last cleared, and the calls that had added to it at each write. -/
structure DataSyncNode (T : Type) where
  doneNodeCnt : Nat
  val : Nat
  waitlist : List SyncThreadNode
  base : Nat
  buf : List T
  size : Nat
  finals : SyncThreadNode → List Nat
  held : List Call
  written : List (List Call)

/-- `init_data_node` at node `self`. -/
def initDataNode [Zero T] (cfg : Config T) (self : Nat) : DataSyncNode T :=
  let size := if cfg.sz ≤ maxWords then nodeSize cfg.sz cfg.numNodes self else 0
  { doneNodeCnt := 0
    val := 0
    waitlist := []
    base := if cfg.sz ≤ maxWords then nodeBase cfg.sz cfg.numNodes self else cfg.junkBase self
    buf := List.replicate (size / cfg.dsmSizeOf) 0
    size := size
    finals _ := []
    held := []
    written := [] }

/-- A message of a thread: `param12`, `param0` and the data. -/
structure Packet (T : Type) where
  threadId : Nat
  offset : Nat
  data : Payload T

/-- What travels between nodes; `call` records where a packet comes from. -/
inductive Message (T : Type)
  | accumulate (p : Packet T) (call : Call)
  | partialDone

/-- Where a thread is in `_DoAccumulateAndWait`: outside, in the loop over the
segments, before the call for its own node, before `select`, in the loop over the
nodes that were ready, or waiting for its event. -/
inductive Phase
  | idle
  | scan (i : Nat)
  | own
  | select
  | pass (ready : Nat → Bool) (i : Nat)
  | waiting

/-- The local variables of a thread and the number of calls it has begun. -/
structure Thread where
  round : Nat
  phase : Phase
  sendIdx : Nat → Nat
  sendSize : Nat → Nat
  done : Nat

structure State (T : Type) where
  threads : SyncThreadNode → Thread
  nodes : Nat → DataSyncNode T
  channel : Nat → Nat → List (Message T)
  wakes : Nat → List Nat
  event : SyncThreadNode → Bool
  out : Nat → T
  /-- the calls in which each thread has been woken -/
  woken : SyncThreadNode → List Nat
  /-- how often the master has woken the threads -/
  released : Nat

namespace State

def setNode (s : State T) (i : Nat) (node : DataSyncNode T) : State T :=
  { s with nodes := Function.update s.nodes i node }

def setThread (s : State T) (u : SyncThreadNode) (th : Thread) : State T :=
  { s with threads := Function.update s.threads u th }

def setChannel (s : State T) (src dst : Nat) (msgs : List (Message T)) : State T :=
  { s with channel := Function.update s.channel src (Function.update (s.channel src) dst msgs) }

def send (s : State T) (src dst : Nat) (m : Message T) : State T :=
  s.setChannel src dst (s.channel src dst ++ [m])

/-- `RcWakeRemoteThread` on the master. -/
def rcWakeRemoteThread (s : State T) (th : SyncThreadNode) : State T :=
  let s := { s with woken := Function.update s.woken th (s.woken th ++ [(s.threads th).round]) }
  if th.machine = 0 then { s with event := Function.update s.event th true }
  else { s with wakes := Function.update s.wakes th.machine (s.wakes th.machine ++ [th.threadId]) }

end State

section Step

variable [Zero T] (cfg : Config T)

/-- `AcAccumulatePartialDoneMsg` on the master. -/
def acAccumulatePartialDoneMsg (s : State T) : State T :=
  let node := { s.nodes 0 with doneNodeCnt := (s.nodes 0).doneNodeCnt + 1 }
  if cfg.numNodes ≤ node.doneNodeCnt then
    let s := node.waitlist.foldl State.rcWakeRemoteThread s
    { s.setNode 0 { node with doneNodeCnt := 0, waitlist := [] } with released := s.released + 1 }
  else s.setNode 0 node

/-- Add the data of a packet to the buffer. -/
def addData (node : DataSyncNode T) (p : Packet T) (call : Call) : Option (DataSyncNode T) :=
  if p.data.isEmpty then some node
  else (cfg.accumulate p.data p.offset node.buf node.base node.size).map fun buf =>
    { node with
      buf := buf
      held := node.held ++ [call] }

/-- Count the last message of a thread; the master also puts the thread on its list. -/
def arrive (node : DataSyncNode T) (self src : Nat) (p : Packet T) (call : Call) : DataSyncNode T :=
  { node with
    val := node.val + 1
    waitlist := if self = 0 then node.waitlist ++ [⟨src, p.threadId⟩] else node.waitlist
    finals := Function.update node.finals call.1 (node.finals call.1 ++ [call.2]) }

/-- `putchunk` of the buffer, if the segment is not empty. -/
def putSegment (out : Nat → T) (node : DataSyncNode T) : Nat → T := fun k =>
  if node.base / cfg.dsmSizeOf ≤ k ∧ k < node.base / cfg.dsmSizeOf + node.size / cfg.dsmSizeOf then
    node.buf.getD (k - node.base / cfg.dsmSizeOf) 0
  else out k

/-- Write the segment to the output array and start over. -/
def complete (s : State T) (self : Nat) (node : DataSyncNode T) : State T :=
  { s.setNode self { node with
      val := 0
      buf := List.replicate (node.size / cfg.dsmSizeOf) 0
      held := []
      written := node.written ++ [node.held] } with
    out := putSegment cfg s.out node }

/-- `AcAccumulateMsg` at node `self`. -/
def acAccumulateMsg (s : State T) (self src : Nat) (p : Packet T) (call : Call) :
    Option (State T) := do
  let node ← addData cfg (s.nodes self) p call
  if p.threadId = 0 then
    return s.setNode self node
  else
    let node := arrive node self src p call
    if cfg.users.length ≤ node.val then
      let s := complete cfg s self node
      return if self = 0 then acAccumulatePartialDoneMsg cfg s else s.send self 0 .partialDone
    else
      return s.setNode self node

/-- What a step of a thread sends. -/
structure Output (T : Type) where
  dst : Nat
  packet : Packet T

/-- A turn of the loop over the segments. An empty segment is done; its node gets
a message without data. -/
def scanNode (u : SyncThreadNode) (th : Thread) (i : Nat) : Thread × Option (Output T) :=
  let isDone := cfg.stop i ≤ cfg.start i
  ({ th with
      phase := .scan (i + 1)
      sendIdx := Function.update th.sendIdx i (cfg.start i)
      sendSize := Function.update th.sendSize i (cfg.stop i)
      done := if isDone then th.done + 1 else th.done },
    if isDone ∧ i ≠ u.machine then some ⟨i, ⟨u.threadId, 0, .dense []⟩⟩ else none)

/-- The caller's own segment. -/
def ownPacket (u : SyncThreadNode) (th : Thread) : Packet T :=
  let self := u.machine
  ⟨u.threadId, th.sendIdx self,
    .dense (window cfg.dsmSizeOf (cfg.input u th.round) (th.sendIdx self) (th.sendSize self))⟩

/-- A turn of the loop over the ready nodes. -/
def passNode (u : SyncThreadNode) (th : Thread) (ready : Nat → Bool) (i : Nat) :
    Thread × Option (Output T) :=
  let th := { th with phase := .pass ready (i + 1) }
  if th.sendIdx i < th.sendSize i ∧ i ≠ u.machine ∧ ready i then
    let r := cfg.prepare (cfg.input u th.round) (th.sendIdx i) (th.sendSize i)
    let idx := (th.sendIdx i + r.1) % two32
    let isLast := idx = th.sendSize i
    ({ th with
        sendIdx := Function.update th.sendIdx i idx
        done := if isLast then th.done + 1 else th.done },
      some ⟨i, ⟨if isLast then u.threadId else 0, th.sendIdx i, r.2⟩⟩)
  else (th, none)

/-- A step of a thread inside `_DoAccumulateAndWait`; `ready` is the outcome of
`select`. The wait is not part of it. -/
def advance (u : SyncThreadNode) (th : Thread) (ready : Nat → Bool) :
    Option (Thread × Option (Output T)) :=
  match th.phase with
  | .scan i => some (if i < cfg.numNodes then scanNode cfg u th i else ({ th with phase := .own }, none))
  | .own =>
      some ({ th with
          phase := .select
          sendIdx := Function.update th.sendIdx u.machine (th.sendSize u.machine) },
        some ⟨u.machine, ownPacket cfg u th⟩)
  | .select =>
      some ({ th with phase := if th.done < cfg.numNodes then .pass ready 0 else .waiting }, none)
  | .pass ready i =>
      some (if i < cfg.numNodes then passNode cfg u th ready i else ({ th with phase := .select }, none))
  | .idle => none
  | .waiting => none

/-- `RcSend` to another node, or the call of `AcAccumulateMsg` for the own one. -/
def dispatch (s : State T) (u : SyncThreadNode) (round : Nat) : Option (Output T) → Option (State T)
  | none => some s
  | some o =>
      if o.dst = u.machine then acAccumulateMsg cfg s u.machine u.machine o.packet (u, round)
      else some (s.send u.machine o.dst (.accumulate o.packet (u, round)))

/-- Begin a call. -/
def beginCall (th : Thread) : Thread where
  round := th.round + 1
  phase := .scan 0
  sendIdx _ := 0
  sendSize _ := 0
  done := 1

inductive Act
  | call (u : SyncThreadNode)
  | advance (u : SyncThreadNode) (ready : Nat → Bool)
  | ret (u : SyncThreadNode)
  | deliver (src dst : Nat)
  | wake (machine : Nat)

/-- Handle a message from another node. -/
def receive (s : State T) (src dst : Nat) : Message T → Option (State T)
  | .accumulate p call => acAccumulateMsg cfg s dst src p call
  | .partialDone => if dst = 0 then some (acAccumulatePartialDoneMsg cfg s) else some s

def step (s : State T) : Act → Option (State T)
  | .call u =>
      match (s.threads u).phase with
      | .idle =>
          if u ∈ cfg.users then
            some { s.setThread u (beginCall (s.threads u)) with event := Function.update s.event u false }
          else none
      | _ => none
  | .advance u ready => do
      let r ← advance cfg u (s.threads u) ready
      dispatch cfg (s.setThread u r.1) u (s.threads u).round r.2
  | .ret u =>
      match (s.threads u).phase with
      | .waiting => if s.event u then some (s.setThread u { s.threads u with phase := .idle }) else none
      | _ => none
  | .deliver src dst =>
      match s.channel src dst with
      | [] => none
      | m :: rest => receive cfg (s.setChannel src dst rest) src dst m
  | .wake machine =>
      match s.wakes machine with
      | [] => none
      | threadId :: rest =>
          some { s with
            wakes := Function.update s.wakes machine rest
            event := Function.update s.event ⟨machine, threadId⟩ true }

/-- Before the first call. The output array holds anything. -/
def start (out : Nat → T) : State T where
  threads _ := ⟨0, .idle, fun _ => 0, fun _ => 0, 0⟩
  nodes := initDataNode cfg
  channel _ _ := []
  wakes _ := []
  event _ := false
  out := out
  woken _ := []
  released := 0

end Step

end Dogee.Accumulator
