import Dogee.CheckpointRoundTrip
import Dogee.Transition

/-!
# The checkpoint barrier

The threads of a checkpoint barrier are one thread of the master and any number of threads on
the slaves. `Enter` passes two inner barriers. A slave's thread dumps its node before the first
one, if no other thread of the node does; the master's thread dumps between the two. A dump is
not one step: the file is opened, the shared memory is read word by word, the master writes
`.master`, the file before the last is removed, the counter is increased, and the file is closed
when `DoCheckPoint` returns. Until a file is closed nothing of it is on disk.

An inner barrier lets a thread leave when every thread has entered as often as it has. A crash
ends all processes; `launch` starts them again from the checkpoint that `.master` names. The
removal of all files at the regular end of a program is not modelled.
-/

namespace Dogee.Checkpoint

open Transition

/-! ## Files -/

/-- A file of the disk. A file that was not closed holds nothing that can be relied on. -/
inductive FileState
  | absent
  | unfinished
  | closed (bytes : List Byte)

/-- The dump files by node and number, and `.master`: absent, truncated or a number. -/
structure Disk where
  file : Nat → Nat → FileState
  master : Option (Option Nat)

def Disk.setFile (disk : Disk) (i c : Nat) (f : FileState) : Disk :=
  { disk with file := Function.update disk.file i (Function.update (disk.file i) c f) }

/-- `MasterCheckCheckPoint`: reading a number from an empty file leaves the counter at zero. -/
def masterCheckCheckPoint (disk : Disk) : Option Nat := disk.master.map fun m => m.getD 0

/-! ## Dumps -/

/-- What a dump still has to do. -/
inductive Task
  | dump (h : Header)
  | chunk (key size i : Nat)
  | word (key i : Nat)
  | count
  | forEachObject
  | object (key : ObjectKey)
  | unlock
  | members

/-- One step of a dump: what is written, and what there is to do then. -/
def Task.step (d : Dsm) (junk : ObjectKey → Word × Word) (p : Process) : Task → List Byte × List Task
  | .dump h => (writeWord h.key ++ writeWord h.size ++ writeWord h.flag, [.chunk h.key.toNat h.size.toNat 0])
  | .chunk key size i =>
      if i < size then
        ([], (List.range (min fetchSize (size - i))).map (fun j => .word key (i + j)) ++
          [.chunk key size ((i + fetchSize) % two32)])
      else ([], [])
  | .word key i => (writeWord (d.words key i), [])
  | .count => (writeWord (UInt32.ofNat p.objectList.card), [])
  | .forEachObject => ([], (p.objectList.sort (· ≤ ·)).map .object ++ [.unlock])
  | .object key => ([], [.dump (headerOf d junk key)])
  | .unlock => ([], [])
  | .members => (p.members.flatten, [])

/-- `object_list_lock` is held while `ForEachObject` runs. -/
def Task.locks (locked : Bool) : Task → Bool
  | .forEachObject => true
  | .unlock => false
  | _ => locked

/-- All that `DoCheckPoint` writes. -/
def tasks (isMaster : Bool) (fid : Nat) : List Task :=
  (if isMaster then [.dump (statics fid)] else []) ++ [.count, .forEachObject, .members]

/-- The statements of `DoCheckPoint` after the lock is taken: the file is opened, written,
`.master` is open, the old file is removed, the counter increased, the file closed. -/
inductive Stage
  | opening
  | writing (out : List Byte) (todo : List Task)
  | masterOpened (out : List Byte)
  | removing (out : List Byte)
  | counting (out : List Byte)
  | closing (out : List Byte)

/-- Where a thread is: in the program, in `DoCheckPoint` with the number of its file, before, in
and after the first inner barrier with its value of `needrelease`, at the reset of the lock on
the master, before and in the second barrier. -/
inductive Pc
  | outside
  | dump (number : Nat) (stage : Stage)
  | arrive1 (needrelease : Bool)
  | wait1 (needrelease : Bool)
  | after1 (needrelease : Bool)
  | resetting
  | arrive2
  | wait2

/-- A thread; `round` is the number of the checkpoint it makes next or is making. -/
structure Part where
  pc : Pc
  round : Nat

/-- How often a thread has entered an inner barrier. -/
def Part.entries (isMaster : Bool) (pt : Part) : Nat :=
  match pt.pc with
  | .outside | .arrive1 _ => 2 * pt.round
  | .dump _ _ => 2 * pt.round + if isMaster then 1 else 0
  | .wait1 _ | .after1 _ | .resetting | .arrive2 => 2 * pt.round + 1
  | .wait2 => 2 * pt.round + 2

/-- A program with its checkpoint barrier: the thread 0 is the master's. `junk` and `blank` are
what uninitialised variables and new processes hold. -/
structure Group where
  cluster : Cluster
  slaves : Nat
  node : Fin (slaves + 1) → Nat
  node_lt : ∀ p, node p < cluster.numNodes
  node_eq_zero : ∀ p, node p = 0 ↔ p = 0
  junk : Nat → ObjectKey → Word × Word
  blank : Nat → Process

/-- Found before the general instances, so that the threads are numbered from the same zero everywhere. -/
instance (priority := 2000) (g : Group) : @NeZero Nat Zero.ofOfNat0 (g.slaves + 1) := Nat.instNeZeroSucc

/-- The running processes: the shared memory, what each node keeps, `object_list_lock`,
`checkpointlock` and `checkpoint_cnt` of each node, and the threads. -/
structure Procs (g : Group) where
  dsm : Dsm
  process : Nat → Process
  listLock : Nat → Bool
  lock : Nat → Bool
  cnt : Nat → Nat
  part : Fin (g.slaves + 1) → Part

structure State (g : Group) where
  disk : Disk
  procs : Option (Procs g)

section Steps

variable {g : Group}

def Procs.setPart (P : Procs g) (p : Fin (g.slaves + 1)) (pt : Part) : Procs g :=
  { P with part := Function.update P.part p pt }

def Procs.setPc (P : Procs g) (p : Fin (g.slaves + 1)) (pc : Pc) : Procs g :=
  P.setPart p ⟨pc, (P.part p).round⟩

def Procs.setLock (P : Procs g) (i : Nat) (b : Bool) : Procs g :=
  { P with lock := Function.update P.lock i b }

/-- How often the thread `p` has entered an inner barrier. -/
def Procs.entries (P : Procs g) (p : Fin (g.slaves + 1)) : Nat := (P.part p).entries (p = 0)

/-- Every thread has entered the inner barriers `n` times. -/
def Procs.allEntered (P : Procs g) (n : Nat) : Prop := ∀ q, n ≤ P.entries q

instance (P : Procs g) (n : Nat) : Decidable (P.allEntered n) :=
  inferInstanceAs (Decidable (∀ q, n ≤ P.entries q))

/-- The start of `DoCheckPoint`: another thread of the node may hold the lock. -/
def Procs.beginDump (P : Procs g) (p : Fin (g.slaves + 1)) (busy : Pc) : Procs g :=
  if P.lock (g.node p) then P.setPc p busy
  else (P.setLock (g.node p) true).setPc p (.dump (P.cnt (g.node p)) .opening)

/-- A step of `DoCheckPoint`. -/
def dumpStep (disk : Disk) (P : Procs g) (p : Fin (g.slaves + 1)) (c : Nat) : Stage → Disk × Procs g
  | .opening =>
      (disk.setFile (g.node p) c .unfinished,
        P.setPc p (.dump c (.writing [] (tasks (p = 0) g.cluster.fid))))
  | .writing out (t :: todo) =>
      let r := t.step P.dsm (g.junk (g.node p)) (P.process (g.node p))
      (disk, { P with
        listLock := Function.update P.listLock (g.node p) (t.locks (P.listLock (g.node p))) }.setPc p
          (.dump c (.writing (out ++ r.1) (r.2 ++ todo))))
  | .writing out [] =>
      if p = 0 then ({ disk with master := some none }, P.setPc p (.dump c (.masterOpened out)))
      else (disk, P.setPc p (.dump c (.removing out)))
  | .masterOpened out =>
      ({ disk with master := some (some (P.cnt (g.node p))) }, P.setPc p (.dump c (.removing out)))
  | .removing out =>
      (if 2 ≤ P.cnt (g.node p) then disk.setFile (g.node p) (P.cnt (g.node p) - 2) .absent else disk,
        P.setPc p (.dump c (.counting out)))
  | .counting out =>
      (disk, { P with cnt := Function.update P.cnt (g.node p) (P.cnt (g.node p) + 1) }.setPc p
        (.dump c (.closing out)))
  | .closing out =>
      (disk.setFile (g.node p) c (.closed out), P.setPc p (if p = 0 then .resetting else .arrive1 true))

/-- The next step of the thread `p` in `Enter`. -/
def enterStep (disk : Disk) (P : Procs g) (p : Fin (g.slaves + 1)) : Option (Disk × Procs g) :=
  match (P.part p).pc with
  | .outside =>
      some (disk, if p = 0 then P.setPc p (.arrive1 false) else P.beginDump p (.arrive1 false))
  | .dump c stage => some (dumpStep disk P p c stage)
  | .arrive1 needrelease => some (disk, P.setPc p (.wait1 needrelease))
  | .wait1 needrelease =>
      if P.allEntered (2 * (P.part p).round + 1) then some (disk, P.setPc p (.after1 needrelease)) else none
  | .after1 needrelease =>
      some (disk, if p = 0 then P.beginDump p .arrive2
        else (if needrelease then P.setLock (g.node p) false else P).setPc p .arrive2)
  | .resetting => some (disk, (P.setLock (g.node p) false).setPc p .arrive2)
  | .arrive2 => some (disk, P.setPc p .wait2)
  | .wait2 =>
      if P.allEntered (2 * (P.part p).round + 2) then
        some (disk, P.setPart p ⟨.outside, (P.part p).round + 1⟩)
      else none

/-- What a program does with the shared memory and with the object list of its node. -/
inductive Call
  | put (key : Word) (w : Nat) (v : Word)
  | newobj (key flag size : Word)
  | del (key : Word)
  | pushObject (key : Word)
  | deleteObject (key : Word)

/-- `del` removes the words of an object and the information about it. -/
def Dsm.del (d : Dsm) (key : ObjectKey) : Dsm :=
  match d.info key with
  | none => d
  | some (_, size) =>
      ⟨d.words.write key 0 (List.replicate size.toNat 0), Function.update d.info key none⟩

def Procs.setList (P : Procs g) (i : Nat) (l : Finset ObjectKey) : Procs g :=
  { P with process := Function.update P.process i { P.process i with objectList := l } }

/-- A call by a thread of the node `i`. `PushObject` and `DeleteObject` wait for
`object_list_lock`. -/
def Procs.call (P : Procs g) (i : Nat) : Call → Option (Procs g)
  | .put key w v => some { P with dsm := { P.dsm with words := P.dsm.words.write key.toNat w [v] } }
  | .newobj key flag size => some { P with dsm := P.dsm.newobj key.toNat flag size }
  | .del key => some { P with dsm := P.dsm.del key.toNat }
  | .pushObject key =>
      if P.listLock i then none else some (P.setList i (insert key.toNat (P.process i).objectList))
  | .deleteObject key =>
      if P.listLock i then none else some (P.setList i ((P.process i).objectList.erase key.toNat))

/-- New processes, which make the checkpoint `round` next. -/
def Procs.launched (d : Dsm) (ps : Nat → Process) (round : Nat) : Procs g where
  dsm := d
  process := ps
  listLock := fun _ => false
  lock := fun _ => false
  cnt := fun _ => round
  part := fun _ => ⟨.outside, round⟩

/-- The contents of the files of a checkpoint, if all nodes have one. -/
def Disk.contents (disk : Disk) (c : Nat) : Nat → Option (Nat → List Byte)
  | 0 => some fun _ => []
  | n + 1 =>
      match disk.file n c with
      | .closed bytes => (disk.contents c n).map fun files => Function.update files n bytes
      | _ => none

/-- The start of all processes: from the checkpoint that `.master` names, or anew. -/
def launch (g : Group) (fuel : Nat) (order : List Nat) (disk : Disk) : Option (Procs g) :=
  match masterCheckCheckPoint disk with
  | none => some (.launched Dsm.empty g.blank 0)
  | some c => do
      let files ← disk.contents c g.cluster.numNodes
      let (d, ps) ← restartAll fuel g.cluster files order (Dsm.empty, g.blank)
      return .launched d ps (c + 1)

/-- What can happen: all processes start or crash, a thread outside `Enter` calls the shared
memory, a thread takes its next step in `Enter` or calls it. -/
inductive Act (g : Group)
  | launch (fuel : Nat) (order : List Nat)
  | crash
  | call (p : Fin (g.slaves + 1)) (call : Call)
  | enter (p : Fin (g.slaves + 1))

def step (s : State g) : Act g → Option (State g)
  | .launch fuel order =>
      match s.procs with
      | none => (Checkpoint.launch g fuel order s.disk).map fun P => ⟨s.disk, some P⟩
      | some _ => none
  | .crash => s.procs.map fun _ => ⟨s.disk, none⟩
  | .call p call => s.procs.bind fun P =>
      match (P.part p).pc with
      | .outside => (P.call (g.node p) call).map fun P' => ⟨s.disk, some P'⟩
      | _ => none
  | .enter p => s.procs.bind fun P => (enterStep s.disk P p).map fun r => ⟨r.1, some r.2⟩

/-- Before the first start there is no `.master`. -/
def State.start (file : Nat → Nat → FileState) : State g := ⟨⟨file, none⟩, none⟩

end Steps

end Dogee.Checkpoint
