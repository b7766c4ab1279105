import Dogee.SyncManager

/-!
# Semaphores never over-grant

The counter of a semaphore, its queue and the grants drift apart when releases
find several threads in the queue, but their sum does not: it is the initial count
and the releases. What a grant needs is only that the counter and the queue length
together never fall below zero, and every branch of the handlers keeps that.
-/

namespace Dogee.SyncManager

open Transition

/-- A semaphore with a record of its messages: the threads that asked for it and
the threads that were woken, each in order, and the number of releases. -/
structure SemaphoreLog where
  manager : Manager
  asked : List SyncThreadNode
  woken : List SyncThreadNode
  released : Nat

/-- Handle one message about the semaphore `id` and record it. -/
def semaphoreLogStep (dsm : Dsm) (id : ObjectKey) (l : SemaphoreLog) :
    SemaphoreCall → Option SemaphoreLog
  | .acquire src threadId =>
      let r := semaphoreMsg dsm l.manager src id threadId
      some ⟨r.1, l.asked ++ [⟨src, threadId⟩], l.woken ++ r.2, l.released⟩
  | .release _ _ =>
      (semaphoreLeaveMsg l.manager id).map fun r =>
        ⟨r.1, l.asked, l.woken ++ r.2, l.released + 1⟩

/-- A semaphore whose node has been made with the count `c` and that no message has
reached since. -/
def SemaphoreLog.start (m : Manager) (id : ObjectKey) (c : Nat) : SemaphoreLog :=
  ⟨m.put id (newSemaphore c), [], [], 0⟩

/-- The relation between counter, queue and record that every message keeps. -/
structure Accounted (c : Nat) (l : SemaphoreLog) (node : SyncNode) : Prop where
  balance : node.val + l.woken.length + node.waiting.length = c + l.released
  nonneg : 0 ≤ node.val + node.waiting.length
  entries : (l.woken ++ node.waiting).Perm l.asked

variable {id : ObjectKey} {c : Nat} {l : SemaphoreLog} {node : SyncNode}

/-- The semaphore has a node, and its record is in order. -/
def InOrder (id : ObjectKey) (c : Nat) (l : SemaphoreLog) : Prop :=
  ∃ node, l.manager.syncData id = some node ∧ Accounted c l node

end Dogee.SyncManager
