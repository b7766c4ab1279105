import Dogee.SharedArray
import Dogee.Transition

/-!
# `Map` of a shared array

`Map` cuts the indices into ranges and submits a task for each of them. A task
copies its range of the array to a local buffer, applies the function, and copies
the results to the other array. The loop waits for the submitted tasks in batches,
so that the events of the pool do not run out, and at the end for the rest.

The elements have four bytes. Memory is flat and every `CopyTo` and `CopyFrom` is
one step; the tasks of a batch run in any order, also while the loop still submits.
A `Wait` returns after its task has set the event, and gives the event back.
-/

namespace Dogee.DData

open Transition SharedArray

/-- `DData<Array<T>>` -/
structure Data where
  arr : Nat
  len : Nat
deriving DecidableEq, Repr

/-- The elements that the local buffers of a task hold. -/
def bufLen : Nat := 32 * blockSize / Width.four.dsmSizeOf

/-- The parameter of `DThreadPool` is unsigned. -/
def maxWaitEvents (threadPoolMaxWait : Int) : Nat := (threadPoolMaxWait % two32).toNat

/-- A call of `Map`, and what it finds. -/
structure MapCall where
  data : Data
  outArr : Nat
  outLen : Nat
  fnarg : Word → Word
  numNodes : Nat
  threadPoolMaxWait : Int
  /-- the events that the pool has made before -/
  made : Nat
  two_le_numNodes : 2 ≤ numNodes
  len_pos : 0 < data.len
  len_lt : data.len < two32
  maxWait_ge : -2 ^ 31 ≤ threadPoolMaxWait
  maxWait_lt : threadPoolMaxWait < 2 ^ 31
  made_le : made ≤ maxWaitEvents threadPoolMaxWait

/-- How far the lambda of a submitted task has come; behind `written` its event is set. -/
inductive Progress
  | submitted
  | read (buf : List Word)
  | written
deriving DecidableEq, Repr

structure Task where
  start : Nat
  step : Nat
  progress : Progress
deriving DecidableEq, Repr

/-- The events of the pool, and those of them in `event_queue`. -/
structure Events where
  made : Nat
  queued : Nat
deriving DecidableEq, Repr

/-- `FindEvent`; without a result it waits for the semaphore, which counts the queued events. -/
def Events.findEvent (limit : Nat) (pool : Events) : Option Events :=
  if pool.queued = 0 ∧ pool.made < limit then some { pool with made := pool.made + 1 }
  else if 0 < pool.queued then some { pool with queued := pool.queued - 1 }
  else none

/-- Where `Map` is: at the head of the loop, waiting for tasks one after another, or behind its end. -/
inductive Place
  | loop
  | waiting (rest : List Nat) (last : Bool)
  | returned (data : Data)
deriving DecidableEq, Repr

structure State where
  memory : Memory
  i : Nat
  /-- all tasks submitted so far -/
  tasks : List Task
  /-- the events of the batch, by the number of their task -/
  events : List Nat
  pool : Events
  place : Place

inductive Act
  | submit
  | wait
  | clear
  | leave
  | ret
  | copyTo (k : Nat)
  | copyFrom (k : Nat)
deriving DecidableEq, Repr

namespace MapCall

/-- `avg` when the loop begins -/
def avg (c : MapCall) : Nat :=
  let avg := c.data.len / (c.numNodes - 1)
  if 32 * blockSize ≤ avg * Width.four.dsmSizeOf then 32 * blockSize / Width.four.dsmSizeOf else avg

/-- `i += avg` -/
def next (c : MapCall) (i : Nat) : Nat := (i + c.avg) % two32

/-- `i + avg < len ? avg : len - i` -/
def stepAt (c : MapCall) (i : Nat) : Nat := if c.next i < c.data.len then c.avg else c.data.len - i

/-- The batch of `n` events is waited for. -/
def BatchEnds (c : MapCall) (n : Nat) : Prop := c.threadPoolMaxWait - 20 ≤ 0 ∨ (n : Int) = c.threadPoolMaxWait - 20

instance (c : MapCall) (n : Nat) : Decidable (c.BatchEnds n) := inferInstanceAs (Decidable (_ ∨ _))

/-- The body of the loop up to the first `Wait`, or to its end. -/
def submitted (c : MapCall) (s : State) (pool : Events) : State :=
  let events := s.events ++ [s.tasks.length]
  let s := { s with tasks := s.tasks ++ [Task.mk s.i (c.stepAt s.i) .submitted], events := events, pool := pool }
  if c.BatchEnds events.length then { s with place := .waiting events false } else { s with i := c.next s.i }

def step (c : MapCall) (s : State) : Act → Option State
  | .submit =>
      if s.place = .loop ∧ s.i < c.data.len then
        (s.pool.findEvent (maxWaitEvents c.threadPoolMaxWait)).map (c.submitted s)
      else none
  | .wait =>
      match s.place with
      | .waiting (k :: rest) last =>
          if (s.tasks[k]?).map Task.progress = some .written then
            some { s with pool := { s.pool with queued := s.pool.queued + 1 }, place := .waiting rest last }
          else none
      | _ => none
  | .clear =>
      match s.place with
      | .waiting [] false => some { s with i := c.next s.i, events := [], place := .loop }
      | _ => none
  | .leave =>
      if s.place = .loop ∧ ¬s.i < c.data.len then some { s with place := .waiting s.events true } else none
  | .ret =>
      match s.place with
      | .waiting [] true => some { s with place := .returned ⟨c.outArr, c.outLen⟩ }
      | _ => none
  | .copyTo k =>
      match s.tasks[k]? with
      | some ⟨start, step, .submitted⟩ =>
          let buf := ((copyTo .four c.data.arr (List.replicate step 0) start step).flat s.memory).1
          some { s with tasks := s.tasks.set k ⟨start, step, .read buf⟩ }
      | _ => none
  | .copyFrom k =>
      match s.tasks[k]? with
      | some ⟨start, step, .read buf⟩ =>
          some { s with
            memory := ((copyFrom .four c.outArr (buf.map c.fnarg) start step).flat s.memory).2
            tasks := s.tasks.set k ⟨start, step, .written⟩ }
      | _ => none

def start (c : MapCall) (m : Memory) : State := ⟨m, 0, [], [], ⟨c.made, c.made⟩, .loop⟩

end MapCall

/-- The index is in the range of the task. -/
def Task.Covers (t : Task) (i : Nat) : Prop := t.start ≤ i ∧ i < t.start + t.step

/-- The ranges of the tasks partition the indices below `len`. -/
def Partition (tasks : List Task) (len : Nat) : Prop :=
  (∀ i, (∃ t ∈ tasks, t.Covers i) ↔ i < len) ∧ tasks.Pairwise fun t t' => ∀ i, ¬(t.Covers i ∧ t'.Covers i)

def State.Returned (s : State) : Prop := ∃ data, s.place = .returned data

/-- `Map` ends, whatever the order of the steps; every range fits into the buffers of its task, and at the
end the ranges are a partition and the other array has the results and is otherwise unchanged. -/
structure MapCall.Meets (c : MapCall) (m : Memory) : Prop where
  bounded : ∃ bound, ∀ acts s, run c.step (c.start m) acts = some s → acts.length ≤ bound
  proceeds : ∀ acts s, run c.step (c.start m) acts = some s → s.Returned ∨ ∃ a, (c.step s a).isSome
  fits : ∀ acts s, run c.step (c.start m) acts = some s → ∀ t ∈ s.tasks, t.step ≤ bufLen
  partition : ∀ acts s, run c.step (c.start m) acts = some s → s.Returned → Partition s.tasks c.data.len
  mapped : ∀ acts s, run c.step (c.start m) acts = some s → s.Returned → ∀ i < c.data.len,
    element .four s.memory c.outArr i = (element .four m c.data.arr i).map c.fnarg
  unchanged : ∀ acts s, run c.step (c.start m) acts = some s → s.Returned → ∀ key i, i < two32 →
    ¬(key = c.outArr ∧ i < c.data.len) → element .four s.memory key i = element .four m key i

end Dogee.DData
