import Dogee.Address
import Dogee.Transition
import Mathlib.Logic.Function.Basic
import Mathlib.Tactic.Ring

/-!
# The master's synchronisation manager

`SyncManager` keeps one node per synchronisation object. A node carries the
counter `val`, the value `data` read from the object when the node was made,
and the threads that wait; the barrier's `waitlist` and the semaphore's
`waitqueue` share one field. A handler returns the new manager with the list
of threads it wakes, in the order of the calls of `RcWakeRemoteThread`.
-/

namespace Dogee.SyncManager

open Transition

/-- The shared memory as the manager reads it. -/
abbrev Dsm := ObjectKey → Nat → Word

/-- A waiting thread: the node it runs on and its thread id there. -/
structure SyncThreadNode where
  machine : Nat
  threadId : Nat
deriving DecidableEq, Repr

inductive Kind
  | barrier
  | semaphore
  | event
deriving DecidableEq, Repr

structure SyncNode where
  kind : Kind
  val : Int
  data : Int
  waiting : List SyncThreadNode
deriving DecidableEq, Repr

structure Manager where
  syncData : ObjectKey → Option SyncNode

/-- `sync_data[id] = node`. -/
def Manager.put (m : Manager) (id : ObjectKey) (node : SyncNode) : Manager :=
  ⟨Function.update m.syncData id (some node)⟩

@[simp] theorem Manager.put_syncData (m : Manager) (id : ObjectKey) (node : SyncNode) :
    (m.put id node).syncData id = some node := by
  simp [Manager.put]

/-- The bits of a word read as a signed `int`. -/
def toInt (w : Word) : Int := w.toBitVec.toInt

/-- Handle the arrival of a thread at a barrier. -/
def barrierMsg (dsm : Dsm) (m : Manager) (src : Nat) (id : ObjectKey) (threadId : Nat) :
    Manager × List SyncThreadNode :=
  let node := (m.syncData id).getD ⟨.barrier, 0, toInt (dsm id 0), []⟩
  let node := { node with val := node.val + 1 }
  if node.data ≤ node.val then
    (m.put id { node with val := 0, waiting := [] }, ⟨src, threadId⟩ :: node.waiting)
  else
    (m.put id { node with waiting := node.waiting ++ [⟨src, threadId⟩] }, [])

/-- The node a semaphore starts from. -/
def newSemaphore (count : Int) : SyncNode := ⟨.semaphore, count, count, []⟩

/-- Handle an `Acquire`. -/
def semaphoreMsg (dsm : Dsm) (m : Manager) (src : Nat) (id : ObjectKey) (threadId : Nat) :
    Manager × List SyncThreadNode :=
  let node := (m.syncData id).getD (newSemaphore (toInt (dsm id 0)))
  let node := { node with val := node.val - 1 }
  if 0 ≤ node.val then
    (m.put id node, [⟨src, threadId⟩])
  else
    (m.put id { node with waiting := node.waiting ++ [⟨src, threadId⟩] }, [])

/-- Handle a `Release`. For an object with no node yet the source reads
`*(int*)val`, taking the stored count for an address; that is `none` here. -/
def semaphoreLeaveMsg (m : Manager) (id : ObjectKey) :
    Option (Manager × List SyncThreadNode) :=
  (m.syncData id).map fun node =>
    let node := { node with val := node.val + 1 }
    if 0 ≤ node.val then
      match node.waiting with
      | [] => (m.put id node, [])
      | th :: rest => (m.put id { node with waiting := rest }, [th])
    else
      (m.put id node, [])

/-- The node of an event, made from the object when there is none yet. -/
def createEventNode (dsm : Dsm) (m : Manager) (id : ObjectKey) : SyncNode :=
  (m.syncData id).getD ⟨.event, toInt (dsm id 2), toInt (dsm id 0), []⟩

/-- Handle a `Wait`. -/
def eventWaitMsg (dsm : Dsm) (m : Manager) (src : Nat) (id : ObjectKey) (threadId : Nat) :
    Manager × List SyncThreadNode :=
  let node := createEventNode dsm m id
  if node.val ≠ 0 then
    (m.put id (if node.data ≠ 0 then { node with val := 0 } else node), [⟨src, threadId⟩])
  else
    (m.put id { node with waiting := node.waiting ++ [⟨src, threadId⟩] }, [])

/-- Handle a `Set`. -/
def setEventMsg (dsm : Dsm) (m : Manager) (id : ObjectKey) : Manager × List SyncThreadNode :=
  let node := { createEventNode dsm m id with val := 1 }
  if node.data ≠ 0 then
    match node.waiting with
    | [] => (m.put id { node with val := 1 }, [])
    | th :: rest => (m.put id { node with val := 0, waiting := rest }, [th])
  else
    (m.put id { node with waiting := [] }, node.waiting)

/-- Handle a `Reset`. -/
def resetEventMsg (dsm : Dsm) (m : Manager) (id : ObjectKey) : Manager × List SyncThreadNode :=
  (m.put id { createEventNode dsm m id with val := 0 }, [])

/-! ## Histories of one semaphore -/

/-- A message about a semaphore, with the thread it comes from. -/
inductive SemaphoreCall
  | acquire (src threadId : Nat)
  | release (src threadId : Nat)
deriving DecidableEq, Repr

def SemaphoreCall.IsRelease : SemaphoreCall → Prop
  | .acquire _ _ => False
  | .release _ _ => True

/-- The manager with what has happened so far: the acquires that were granted,
at once or by a later wake, and the releases that were handled. -/
structure SemaphoreHistory where
  manager : Manager
  granted : Nat
  released : Nat

/-- The threads queued for the semaphore `id`. -/
def SemaphoreHistory.queue (h : SemaphoreHistory) (id : ObjectKey) : List SyncThreadNode :=
  ((h.manager.syncData id).map SyncNode.waiting).getD []

/-- A semaphore of initial count `c` that no message has reached yet. -/
def SemaphoreHistory.start (m : Manager) (id : ObjectKey) (c : Nat) : SemaphoreHistory :=
  ⟨m.put id (newSemaphore c), 0, 0⟩

/-- The counter of a semaphore that has lost no permit: the negated queue length
while threads are queued, the free permits otherwise. -/
def Tidy (node : SyncNode) : Prop :=
  (node.waiting = [] → 0 ≤ node.val) ∧ (node.waiting ≠ [] → node.val = -node.waiting.length)

/-- The node of a history together with the two balances every message keeps:
each grant lowers the counter or the queue, and each release raises it. -/
structure Balanced (id : ObjectKey) (c : Nat) (h : SemaphoreHistory) (node : SyncNode) : Prop where
  node_eq : h.manager.syncData id = some node
  balance : node.val + h.granted + node.waiting.length = c + h.released

/-- After `semaphoreMsg` the semaphore has a node. -/
theorem semaphoreMsg_isSome (dsm : Dsm) (m : Manager) (src : Nat) (id : ObjectKey) (threadId : Nat) :
    ((semaphoreMsg dsm m src id threadId).1.syncData id).isSome := by
  simp only [semaphoreMsg]
  split <;> simp

/-- A `Release` of a semaphore with a node is handled, and leaves it a node. -/
theorem semaphoreLeaveMsg_isSome {m : Manager} {id : ObjectKey} (hnode : (m.syncData id).isSome) :
    ∃ r, semaphoreLeaveMsg m id = some r ∧ (r.1.syncData id).isSome := by
  obtain ⟨node, hnode⟩ := Option.isSome_iff_exists.mp hnode
  refine ⟨_, by rw [semaphoreLeaveMsg, hnode]; rfl, ?_⟩
  dsimp only
  split
  · split <;> simp
  · simp

end Dogee.SyncManager
