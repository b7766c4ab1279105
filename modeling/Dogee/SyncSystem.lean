import Dogee.SyncManager

/-!
# Synchronisation across the cluster

A thread that enters a barrier, acquires a semaphore or waits for an event resets its
own local event, sends a request to the master and waits for the local event, with or
without a timeout. The master handles the requests of each node in the order they were
sent; to wake a thread it sends the thread id to its node, where the main loop sets the
thread's event. Threads of the master, node 0, call the manager and are woken without
any message.

The fields of the state after `wakes` only record what happens. A call is a thread with
the number of its call, so that a record can tell apart the calls of one thread; neither
the manager nor the messages know the number.
-/

namespace Dogee.SyncSystem

open SyncManager

/-- A call of a thread that waits for the master. -/
structure Call where
  thread : SyncThreadNode
  number : Nat
deriving DecidableEq, Repr

/-- The calls that wait: `RcEnterBarrier`, `RcEnterSemaphore` and `RcWaitForEvent`. -/
inductive WaitOp
  | enterBarrier (id : ObjectKey)
  | enterSemaphore (id : ObjectKey)
  | waitForEvent (id : ObjectKey)
deriving DecidableEq, Repr

/-- The calls that do not wait. -/
inductive PostOp
  | leaveSemaphore (id : ObjectKey)
  | setEvent (id : ObjectKey)
  | resetEvent (id : ObjectKey)
deriving DecidableEq, Repr

def WaitOp.object : WaitOp → ObjectKey
  | .enterBarrier id => id
  | .enterSemaphore id => id
  | .waitForEvent id => id

def PostOp.object : PostOp → ObjectKey
  | .leaveSemaphore id => id
  | .setEvent id => id
  | .resetEvent id => id

/-- A message to the master. The master reads the thread id of the call only. -/
inductive Request
  | wait (op : WaitOp) (call : Call)
  | post (op : PostOp)
deriving DecidableEq, Repr

/-- The manager's handler of a request that waits. -/
def waitMsg (dsm : Dsm) (m : Manager) (src : Nat) (threadId : Nat) :
    WaitOp → Manager × List SyncThreadNode
  | .enterBarrier id => barrierMsg dsm m src id threadId
  | .enterSemaphore id => semaphoreMsg dsm m src id threadId
  | .waitForEvent id => eventWaitMsg dsm m src id threadId

/-- The manager's handler of a request that does not wait. -/
def postMsg (dsm : Dsm) (m : Manager) : PostOp → Option (Manager × List SyncThreadNode)
  | .leaveSemaphore id => semaphoreLeaveMsg m id
  | .setEvent id => some (setEventMsg dsm m id)
  | .resetEvent id => some (resetEventMsg dsm m id)

/-- Where a thread is: outside, after it has reset its event, or in `WaitForEvent`. A
negative timeout is none. -/
inductive Phase
  | idle
  | entering (op : WaitOp) (timeout : Int)
  | waiting (timeout : Int)
deriving DecidableEq, Repr

/-- A thread and the number of calls it has begun. -/
structure Thread where
  calls : Nat
  phase : Phase
deriving DecidableEq, Repr

structure State where
  manager : Manager
  threads : SyncThreadNode → Thread
  event : SyncThreadNode → Bool
  requests : Nat → List Request
  /-- thread ids on their way to a node, each with the call it is for -/
  wakes : Nat → List (Nat × Call)
  /-- the calls behind the entries of each wait list -/
  queued : ObjectKey → List Call
  /-- the calls whose request the master has handled -/
  arrived : List Call
  /-- the calls that the master has woken -/
  granted : List Call
  /-- the calls that have returned, with their results -/
  returned : List (Call × Bool)
  /-- the calls that the master has woken after they had timed out -/
  late : List Call
  /-- the calls whose wake has reached the thread in another call -/
  stray : List Call

namespace State

def setThread (s : State) (u : SyncThreadNode) (th : Thread) : State :=
  { s with threads := Function.update s.threads u th }

/-- The call a thread is in, or was in last. -/
def current (s : State) (u : SyncThreadNode) : Call := ⟨u, (s.threads u).calls⟩

/-- `RcSetRemoteEvent`, for the call `c`. -/
def rcSetRemoteEvent (s : State) (u : SyncThreadNode) (c : Call) : State :=
  { s with
    event := Function.update s.event u true
    stray := if (s.threads u).phase ≠ .idle ∧ s.current u ≠ c then s.stray ++ [c] else s.stray }

/-- `RcWakeRemoteThread`, for the call `c`. -/
def rcWakeRemoteThread (s : State) (u : SyncThreadNode) (c : Call) : State :=
  let s := { s with
    granted := s.granted ++ [c]
    late := if (c, false) ∈ s.returned then s.late ++ [c] else s.late }
  if u.machine = 0 then s.rcSetRemoteEvent u c
  else { s with wakes := Function.update s.wakes u.machine (s.wakes u.machine ++ [(u.threadId, c)]) }

/-- Wake the threads of a list one after another; the second list has the calls. -/
def wakeAll : State → List SyncThreadNode → List Call → State
  | s, [], _ => s
  | s, u :: rest, calls => wakeAll (s.rcWakeRemoteThread u (calls.headD ⟨u, 0⟩)) rest calls.tail

end State

variable (dsm : Dsm)

/-- The master handles the request of a call. A call that is granted at once takes nobody's
place in the queue. -/
def serveWait (s : State) (src : Nat) (op : WaitOp) (c : Call) : State :=
  let r := waitMsg dsm s.manager src c.thread.threadId op
  let calls := s.queued op.object
  let left := if r.2 = [] then calls ++ [c] else calls.drop (r.2.length - 1)
  let s := { s with
    manager := r.1
    arrived := s.arrived ++ [c]
    queued := Function.update s.queued op.object left }
  s.wakeAll r.2 (c :: calls)

/-- The master handles a request that does not wait. -/
def servePost (s : State) (op : PostOp) : Option State :=
  (postMsg dsm s.manager op).map fun r =>
    let calls := s.queued op.object
    let s := { s with
      manager := r.1
      queued := Function.update s.queued op.object (calls.drop r.2.length) }
    s.wakeAll r.2 calls

def send (s : State) (machine : Nat) (r : Request) : State :=
  { s with requests := Function.update s.requests machine (s.requests machine ++ [r]) }

/-- The call of a thread returns. -/
def finish (s : State) (u : SyncThreadNode) (result : Bool) : State :=
  { s.setThread u { s.threads u with phase := .idle } with
    returned := s.returned ++ [(s.current u, result)] }

inductive Act
  | call (u : SyncThreadNode) (op : WaitOp) (timeout : Int)
  | send (u : SyncThreadNode)
  | ret (u : SyncThreadNode)
  | timeout (u : SyncThreadNode)
  | post (u : SyncThreadNode) (op : PostOp)
  | deliver (machine : Nat)
  | wake (machine : Nat)
deriving DecidableEq, Repr

/-- One step of the cluster. -/
def step (s : State) : Act → Option State
  | .call u op timeout =>
      match (s.threads u).phase with
      | .idle =>
          some { s.setThread u ⟨(s.threads u).calls + 1, .entering op timeout⟩ with
            event := Function.update s.event u false }
      | _ => none
  | .send u =>
      match (s.threads u).phase with
      | .entering op timeout =>
          let s := s.setThread u { s.threads u with phase := .waiting timeout }
          some (if u.machine = 0 then serveWait dsm s 0 op (s.current u)
            else send s u.machine (.wait op (s.current u)))
      | _ => none
  | .ret u =>
      match (s.threads u).phase with
      | .waiting _ => if s.event u then some (finish s u true) else none
      | _ => none
  | .timeout u =>
      match (s.threads u).phase with
      | .waiting timeout => if 0 ≤ timeout then some (finish s u false) else none
      | _ => none
  | .post u op =>
      match (s.threads u).phase with
      | .idle => if u.machine = 0 then servePost dsm s op else some (send s u.machine (.post op))
      | _ => none
  | .deliver machine =>
      match s.requests machine with
      | [] => none
      | r :: rest =>
          let s := { s with requests := Function.update s.requests machine rest }
          match r with
          | .wait op c => some (serveWait dsm s machine op c)
          | .post op => servePost dsm s op
  | .wake machine =>
      match s.wakes machine with
      | [] => none
      | (threadId, c) :: rest =>
          some (State.rcSetRemoteEvent { s with wakes := Function.update s.wakes machine rest }
            ⟨machine, threadId⟩ c)

/-- Before the first call: no object has a node yet. -/
def start : State where
  manager := ⟨fun _ => none⟩
  threads _ := ⟨0, .idle⟩
  event _ := false
  requests _ := []
  wakes _ := []
  queued _ := []
  arrived := []
  granted := []
  returned := []
  late := []
  stray := []

end Dogee.SyncSystem
