import Dogee.WordMemory
import Mathlib.Data.Finset.Sort
import Mathlib.Data.List.Basic

/-!
# Checkpoint files

A node writes its objects to a file: for each one its key, size, flag and words, in
chunks of `fetchSize` words, after the number of objects. The master writes object 0
first, which holds the global variables. The registered members of the checkpoint object
follow as they stand in memory. `doRestart` reads the file back.

A read past the end of a file is `none` here, and so is a loop that has not ended when
the fuel is spent. The hooks of the checkpoint object are the user's: `members` are the
members after `DoCheckPoint` of that object and before its `DoRestart`.
-/

namespace Dogee.Checkpoint

abbrev Byte := UInt8

/-! ## Streams -/

/-- `os.write` of a 32-bit value. -/
def writeWord (w : Word) : List Byte :=
  [UInt8.ofNat w.toNat, UInt8.ofNat (w.toNat / 2 ^ 8), UInt8.ofNat (w.toNat / 2 ^ 16),
    UInt8.ofNat (w.toNat / 2 ^ 24)]

/-- `os.read` of a 32-bit value. -/
def readWord : List Byte → Option (Word × List Byte)
  | a :: b :: c :: d :: rest =>
      some (UInt32.ofNat (a.toNat + 2 ^ 8 * b.toNat + 2 ^ 16 * c.toNat + 2 ^ 24 * d.toNat), rest)
  | _ => none

def writeWords (ws : List Word) : List Byte := ws.flatMap writeWord

def readWords : Nat → List Byte → Option (List Word × List Byte)
  | 0, bytes => some ([], bytes)
  | n + 1, bytes => do
      let (w, bytes) ← readWord bytes
      let (ws, bytes) ← readWords n bytes
      return (w :: ws, bytes)

theorem readWord_writeWord (w : Word) (rest : List Byte) :
    readWord (writeWord w ++ rest) = some (w, rest) := by
  have hlt : w.toNat < 2 ^ 32 := w.toNat_lt
  simp only [writeWord, List.cons_append, List.nil_append, readWord, UInt8.toNat_ofNat',
    Option.some.injEq, Prod.mk.injEq, and_true]
  apply UInt32.toNat_inj.mp
  rw [UInt32.toNat_ofNat']
  omega

theorem readWords_writeWords (ws : List Word) (rest : List Byte) :
    readWords ws.length (writeWords ws ++ rest) = some (ws, rest) := by
  induction ws with
  | nil => rfl
  | cons w ws ih =>
      have hsplit : writeWords (w :: ws) ++ rest = writeWord w ++ (writeWords ws ++ rest) :=
        List.append_assoc ..
      rw [List.length_cons, readWords, hsplit, readWord_writeWord]
      simp only [Option.bind_eq_bind, Option.bind_some, ih]
      rfl

theorem writeWords_append (ws ws' : List Word) :
    writeWords (ws ++ ws') = writeWords ws ++ writeWords ws' :=
  List.flatMap_append

/-! ## The shared memory and the processes -/

/-- The words of the shared memory, and the flag and size of each object. -/
structure Dsm where
  words : Memory
  info : ObjectKey → Option (Word × Word)

def Dsm.empty : Dsm := ⟨Memory.empty, fun _ => none⟩

/-- `newobj` adds the information about an object, if there is none yet. -/
def Dsm.newobj (d : Dsm) (key : ObjectKey) (flag size : Word) : Dsm :=
  if (d.info key).isSome then d else { d with info := Function.update d.info key (some (flag, size)) }

/-- What a process saves apart from shared memory: its object list, and the bytes of its
checkpoint members. -/
@[ext] structure Process where
  objectList : Finset ObjectKey
  members : List (List Byte)

/-! ## Objects -/

/-- The chunk in which objects are dumped. -/
def fetchSize : Nat := blockSize * 256

/-- The loop of `DumpSharedMemory`. -/
def dumpWords (m : Memory) (key : ObjectKey) (size : Nat) : Nat → Nat → Option (List Byte)
  | 0, _ => none
  | fuel + 1, i =>
      if i < size then do
        let theSize := min fetchSize (size - i)
        let rest ← dumpWords m key size fuel ((i + fetchSize) % two32)
        return writeWords (m.read key i theSize) ++ rest
      else some []

/-- The header of an object in the file. -/
structure Header where
  key : Word
  size : Word
  flag : Word

def dumpSharedMemory (fuel : Nat) (m : Memory) (h : Header) : Option (List Byte) := do
  let words ← dumpWords m h.key.toNat h.size.toNat fuel 0
  return writeWord h.key ++ writeWord h.size ++ writeWord h.flag ++ words

/-- The loop of `RestoreSharedMemory`. -/
def restoreWords (key : ObjectKey) (size : Nat) :
    Nat → Nat → Memory × List Byte → Option (Memory × List Byte)
  | 0, _, _ => none
  | fuel + 1, i, (m, bytes) =>
      if i < size then do
        let theSize := min fetchSize (size - i)
        let (buf, bytes) ← readWords theSize bytes
        restoreWords key size fuel ((i + fetchSize) % two32) (m.write key i buf, bytes)
      else some (m, bytes)

/-- A process that restores: the shared memory, its object list and what it has not read. -/
structure Restoring where
  dsm : Dsm
  objectList : Finset ObjectKey
  bytes : List Byte

def restoreSharedMemory (fuel : Nat) (st : Restoring) : Option (ObjectKey × Restoring) := do
  let (key, bytes) ← readWord st.bytes
  let (size, bytes) ← readWord bytes
  let (flag, bytes) ← readWord bytes
  let (words, bytes) ← restoreWords key.toNat size.toNat fuel 0 (st.dsm.words, bytes)
  let dsm := { st.dsm with words := words }.newobj key.toNat flag size
  return (key.toNat, ⟨dsm, insert key.toNat st.objectList, bytes⟩)

/-! ## Nodes -/

/-- The objects of a list. `getinfo` leaves its results alone when the object does not
exist; `junk` is what they held before. -/
def dumpObjects (fuel : Nat) (d : Dsm) (junk : ObjectKey → Word × Word) :
    List ObjectKey → Option (List Byte)
  | [] => some []
  | key :: rest => do
      let (flag, size) := (d.info key).getD (junk key)
      let bytes ← dumpSharedMemory fuel d.words ⟨UInt32.ofNat key, size, flag⟩
      let bytes' ← dumpObjects fuel d junk rest
      return bytes ++ bytes'

/-- The static variables, in the words of object 0 below `gloabl_fid`. -/
def statics (fid : Nat) : Header := ⟨0, UInt32.ofNat fid, 0xFFFFFFFF⟩

/-- The static part, which the master's file starts with. -/
def dumpStatics (fuel : Nat) (isMaster : Bool) (fid : Nat) (m : Memory) : Option (List Byte) :=
  if isMaster then dumpSharedMemory fuel m (statics fid) else some []

/-- The file that `DoCheckPoint` writes; `fid` is `gloabl_fid`. -/
def doCheckPoint (fuel : Nat) (isMaster : Bool) (fid : Nat) (d : Dsm)
    (junk : ObjectKey → Word × Word) (p : Process) : Option (List Byte) := do
  let statics ← dumpStatics fuel isMaster fid d.words
  let objects ← dumpObjects fuel d junk (p.objectList.sort (· ≤ ·))
  return statics ++ (writeWord (UInt32.ofNat p.objectList.card) ++ (objects ++ p.members.flatten))

def restoreObjects (fuel : Nat) : Nat → Restoring → Option Restoring
  | 0, st => some st
  | n + 1, st => do
      let (_, st) ← restoreSharedMemory fuel st
      restoreObjects fuel n st

def readMembers : List Nat → List Byte → Option (List (List Byte))
  | [], _ => some []
  | n :: sizes, bytes =>
      if n ≤ bytes.length then (readMembers sizes (bytes.drop n)).map (bytes.take n :: ·) else none

def restoreStatics (fuel : Nat) (isMaster : Bool) (st : Restoring) : Option Restoring :=
  if isMaster then
    (restoreSharedMemory fuel st).bind fun r => if r.1 = 0 then some r.2 else none
  else some st

/-- `DoRestart` of a new process, whose members have the given sizes. -/
def doRestart (fuel : Nat) (isMaster : Bool) (sizes : List Nat) (d : Dsm) (file : List Byte) :
    Option (Dsm × Process) := do
  let st ← restoreStatics fuel isMaster ⟨d, ∅, file⟩
  let (numobj, bytes) ← readWord st.bytes
  let st ← restoreObjects fuel numobj.toBitVec.toInt.toNat { st with bytes := bytes }
  let members ← readMembers sizes st.bytes
  return (st.dsm, ⟨st.objectList, members⟩)

/-- `RegisterGlobalVariable`: the new value of `gloabl_fid`, which is also the field id
that the variable gets. -/
def registerGlobalVariable (fid : Nat) : Nat := (fid + 2) % two32

end Dogee.Checkpoint
