import Dogee.SyncCalls

/-!
# The thread pool

`submit` takes a free event for its job, or makes one, and the job sets the event when it is done. `Wait`
waits for the event and gives it back to the pool, also when it has timed out. A thread that finds no
free event, and no room for a new one, waits for the semaphore that counts them.

The pool belongs to the process of one node; the events and the waits for them are those of the cluster,
whose only objects are the events of the pool here. A submission, its job and its `Wait` go on
independently; a submission is waited for at most once.
-/

namespace Dogee.ThreadPool

open Transition SyncManager SyncSystem

/-- Every object is a `DEvent(true, false)`. -/
def eventDsm : Dsm := fun _ field => if field = 0 then 1 else 0

/-- Where a submission is in `FindEvent`: before it, before `sem_lock.wait()`, behind that, or it has
its event. -/
inductive Finder
  | outside
  | parked
  | permitted
  | found (event : ObjectKey)
deriving DecidableEq, Repr

/-- Where the `Wait` of a submission is; `pushed` is before `sem_lock.notify()`. -/
inductive Waiter
  | unused
  | inside (c : Call)
  | returned (result : Bool)
  | pushed (result : Bool)
  | notified (result : Bool)
deriving DecidableEq, Repr

/-- What `Wait` has returned, or will when it has given the event back. -/
def Waiter.result : Waiter → Option Bool
  | returned result => some result
  | pushed result => some result
  | notified result => some result
  | _ => none

/-- The event is not back in the pool yet. -/
def Waiter.Keeps : Waiter → Prop
  | pushed _ => False
  | notified _ => False
  | _ => True

structure Submission where
  finder : Finder
  /-- the function of the job has returned -/
  finished : Bool
  /-- the node from which the job has set its event -/
  posted : Option Nat
  waiter : Waiter
deriving DecidableEq, Repr

structure Pool where
  sys : State
  events : List ObjectKey
  eventQueue : List ObjectKey
  semLock : Nat
  submissions : Nat → Submission

namespace Pool

def setSubmission (s : Pool) (k : Nat) (sub : Submission) : Pool :=
  { s with submissions := Function.update s.submissions k sub }

inductive Act
  | newEvent (k : Nat) (e : ObjectKey)
  | park (k : Nat)
  | permit (k : Nat)
  | take (k : Nat)
  | finishJob (k : Nat)
  | setEvent (k : Nat) (worker : SyncThreadNode)
  | wait (k : Nat) (threadId : Nat) (timeout : Int)
  | ret (k : Nat)
  | timeout (k : Nat)
  | push (k : Nat)
  | notify (k : Nat)
  | send (threadId : Nat)
  | deliver (machine : Nat)
  | wake (machine : Nat)
deriving DecidableEq, Repr

variable (home maxWaitEvents : Nat)

/-- One step. The master has no pool of its own, so a job runs on another node. -/
def step (s : Pool) : Act → Option Pool
  | .newEvent k e =>
      if (s.submissions k).finder = .outside ∧ s.eventQueue = [] ∧ s.events.length < maxWaitEvents ∧ e ∉ s.events then
        some { s.setSubmission k { s.submissions k with finder := .found e } with events := s.events ++ [e] }
      else none
  | .park k =>
      if (s.submissions k).finder = .outside ∧ ¬(s.eventQueue = [] ∧ s.events.length < maxWaitEvents) then
        some (s.setSubmission k { s.submissions k with finder := .parked })
      else none
  | .permit k =>
      if (s.submissions k).finder = .parked ∧ 0 < s.semLock then
        some { s.setSubmission k { s.submissions k with finder := .permitted } with semLock := s.semLock - 1 }
      else none
  | .take k =>
      match (s.submissions k).finder, s.eventQueue with
      | .permitted, e :: rest =>
          some { s.setSubmission k { s.submissions k with finder := .found e } with eventQueue := rest }
      | _, _ => none
  | .finishJob k =>
      match (s.submissions k).finder with
      | .found _ => some (s.setSubmission k { s.submissions k with finished := true })
      | _ => none
  | .setEvent k worker =>
      match (s.submissions k).finder with
      | .found e =>
          if (s.submissions k).finished ∧ (s.submissions k).posted = none ∧ worker.machine ≠ 0 then
            (SyncSystem.step eventDsm s.sys (.post worker (.setEvent e))).map fun sys =>
              { s.setSubmission k { s.submissions k with posted := some worker.machine } with sys := sys }
          else none
      | _ => none
  | .wait k threadId timeout =>
      match (s.submissions k).finder with
      | .found e =>
          if (s.submissions k).waiter = .unused then
            (SyncSystem.step eventDsm s.sys (.call ⟨home, threadId⟩ (.waitForEvent e) timeout)).map fun sys =>
              { s.setSubmission k { s.submissions k with waiter := .inside (sys.current ⟨home, threadId⟩) } with sys := sys }
          else none
      | _ => none
  | .ret k =>
      match (s.submissions k).waiter with
      | .inside c =>
          (SyncSystem.step eventDsm s.sys (.ret c.thread)).map fun sys =>
            { s.setSubmission k { s.submissions k with waiter := .returned true } with sys := sys }
      | _ => none
  | .timeout k =>
      match (s.submissions k).waiter with
      | .inside c =>
          (SyncSystem.step eventDsm s.sys (.timeout c.thread)).map fun sys =>
            { s.setSubmission k { s.submissions k with waiter := .returned false } with sys := sys }
      | _ => none
  | .push k =>
      match (s.submissions k).finder, (s.submissions k).waiter with
      | .found e, .returned result =>
          some { s.setSubmission k { s.submissions k with waiter := .pushed result } with eventQueue := s.eventQueue ++ [e] }
      | _, _ => none
  | .notify k =>
      match (s.submissions k).waiter with
      | .pushed result =>
          some { s.setSubmission k { s.submissions k with waiter := .notified result } with semLock := s.semLock + 1 }
      | _ => none
  | .send threadId => (SyncSystem.step eventDsm s.sys (.send ⟨home, threadId⟩)).map fun sys => { s with sys := sys }
  | .deliver machine => (SyncSystem.step eventDsm s.sys (.deliver machine)).map fun sys => { s with sys := sys }
  | .wake machine => (SyncSystem.step eventDsm s.sys (.wake machine)).map fun sys => { s with sys := sys }

def start : Pool := ⟨SyncSystem.start, [], [], 0, fun _ => ⟨.outside, false, none, .unused⟩⟩

/-- An event that a submission has is not given to another one before the job is done. -/
def NotShared (s : Pool) : Prop :=
  ∀ k k' e, (s.submissions k).finder = .found e → (s.submissions k').finder = .found e →
    (s.submissions k).finished = false → (s.submissions k').finished = false → k = k'

/-- A `Wait` returns true only after the job of its own submission. -/
def TrueAfterJob (s : Pool) : Prop :=
  ∀ k, (s.submissions k).waiter.result = some true → (s.submissions k).finished = true

/-- A `Wait` times out only after the master has granted it, and begins only when no wake for its
thread is under way. -/
def Timely (s : Pool) : Act → Prop
  | .wait _ threadId _ => ∀ x ∈ s.sys.wakes home, x.1 ≠ threadId
  | .timeout k =>
      match (s.submissions k).waiter with
      | .inside c => c ∈ s.sys.granted
      | _ => True
  | _ => True

instance (s : Pool) (a : Act) : Decidable (s.Timely home a) := by
  unfold Timely
  split
  · infer_instance
  · split <;> infer_instance
  · infer_instance

end Pool

end Dogee.ThreadPool
