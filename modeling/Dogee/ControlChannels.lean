import Dogee.Framing
import Dogee.Checkpoint
import Mathlib.Data.List.FinRange

/-!
# The receiving loops of the control sockets

The main loop of a slave reads a command with one `RcRecv`, and the function object of a thread with
another one. The master polls its slaves and reads one command from each that has something to
read. A cache reads packs of one size from each of the other caches. `RcRecv` is a single `recv`.

A `RcCommandPack` has 24 bytes, of which four come before the union to align it; they are whatever
the sender had there. A loop that has nothing to read waits.
-/

namespace Dogee.ControlChannels

open Framing
open Checkpoint (Byte writeWords readWords)

/-! ## Commands -/

inductive RcCommand
  | close
  | createThread
  | suspendThread
  | stopThread
  | triggerGC
  | doGC
  | doneGC
  | wakeSync
  | enterBarrier
  | enterSemaphore
  | leaveSemaphore
  | waitForEvent
  | setEvent
  | resetEvent
  | alive
  | restart
deriving DecidableEq

/-- The enumerators, from 1 on. -/
def rcCommands : List RcCommand :=
  [.close, .createThread, .suspendThread, .stopThread, .triggerGC, .doGC, .doneGC, .wakeSync, .enterBarrier,
    .enterSemaphore, .leaveSemaphore, .waitForEvent, .setEvent, .resetEvent, .alive, .restart]

structure RcCommandPack where
  cmd : Word
  param : Word
  param2 : Word
  padding : Word
  param3 : Word
  param4 : Word
deriving DecidableEq

namespace RcCommandPack

def command (p : RcCommandPack) : Option RcCommand := if p.cmd = 0 then none else rcCommands[p.cmd.toNat - 1]?

def toBytes (p : RcCommandPack) : List Byte :=
  writeWords [p.cmd, p.param, p.param2, p.padding, p.param3, p.param4]

def sizeOf : Nat := 24

def ofBytes (bytes : List Byte) : RcCommandPack :=
  match readWords 6 bytes with
  | some ([cmd, param, param2, padding, param3, param4], _) => ⟨cmd, param, param2, padding, param3, param4⟩
  | _ => ⟨0, 0, 0, 0, 0, 0⟩

theorem length_toBytes (p : RcCommandPack) : p.toBytes.length = sizeOf := rfl

theorem ofBytes_toBytes (p : RcCommandPack) : ofBytes p.toBytes = p := by
  have hread := Checkpoint.readWords_writeWords [p.cmd, p.param, p.param2, p.padding, p.param3, p.param4] []
  rw [List.append_nil] at hread
  rw [ofBytes, toBytes, show (6 : Nat) = [p.cmd, p.param, p.param2, p.padding, p.param3, p.param4].length from rfl,
    hread]

end RcCommandPack

/-- A value of type `int`. -/
def toInt (w : Word) : Int := w.toBitVec.toInt

/-- Such a value as a `size_t`. -/
def toSize (w : Word) : Nat := (toInt w % 2 ^ 64).toNat

/-! ## The slave -/

/-- What the main loop of a slave does with a message. -/
inductive SlaveCall
  | close
  | threadEntry (index param okey : Word)
  | threadEntryObject (index param okey : Word) (data : List Byte)
  | setRemoteEvent (thread : Word)
  | sendBack (cmd : RcCommandPack)
  | restartCurrentProcess
  | unknownCommand (cmd : Word)
deriving DecidableEq

inductive SlaveEvent
  | call (c : SlaveCall)
  | socketError
  | tooLarge
deriving DecidableEq

/-- Where the main loop is: before a command, before the function object of a thread, or at its end. -/
inductive Phase
  | command
  | object (cmd : RcCommandPack)
  | ended
deriving DecidableEq

structure SlaveLoop where
  phase : Phase
  stream : List Byte
  recvs : Nat
  events : List SlaveEvent

/-- The `switch` of the main loop, up to the function object. -/
def dispatch (cmd : RcCommandPack) : Phase × List SlaveEvent :=
  match cmd.command with
  | some .close => (.ended, [.call .close])
  | some .createThread =>
      if cmd.param4 ≠ 0 then
        if 2048 < toInt cmd.param4 then (.command, [.tooLarge]) else (.object cmd, [])
      else (.command, [.call (.threadEntry cmd.param cmd.param2 cmd.param3)])
  | some .wakeSync => (.command, [.call (.setRemoteEvent cmd.param)])
  | some .alive => (.command, [.call (.sendBack cmd)])
  -- `execv` does not come back
  | some .restart => (.ended, [.call .restartCurrentProcess])
  | _ => (.command, [.call (.unknownCommand cmd.cmd)])

/-- The main loop up to the return of the next `RcRecv` and what follows from it. -/
def slaveRecv (seg : Segmentation) (l : SlaveLoop) : SlaveLoop :=
  if l.stream = [] then l
  else
    match l.phase with
    | .ended => l
    | .command =>
        let bytes := seg.recv l.recvs RcCommandPack.sizeOf l.stream
        let next := if bytes.length ≠ RcCommandPack.sizeOf then (.ended, [.socketError])
          else dispatch (RcCommandPack.ofBytes bytes)
        ⟨next.1, l.stream.drop bytes.length, l.recvs + 1, l.events ++ next.2⟩
    | .object cmd =>
        let bytes := seg.recv l.recvs (toSize cmd.param4) l.stream
        let event := if (bytes.length : Int) ≠ toInt cmd.param4 then .socketError
          else .call (.threadEntryObject cmd.param cmd.param2 cmd.param3 bytes)
        ⟨.command, l.stream.drop bytes.length, l.recvs + 1, l.events ++ [event]⟩

/-- `RcSlaveMainLoop` until there is nothing left to read: each `recv` takes a byte at least. -/
def rcSlaveMainLoop (seg : Segmentation) (stream : List Byte) : SlaveLoop :=
  (slaveRecv seg)^[stream.length] ⟨.command, stream, 0, []⟩

/-- A message to a slave: a command, and the function object of a thread, if there is one, which has at
most 2048 bytes. -/
structure SlaveMessage where
  pack : RcCommandPack
  object : List Byte
  length_object : object.length = if pack.command = some .createThread then pack.param4.toNat else 0
  object_le : object.length ≤ 2048

namespace SlaveMessage

def toBytes (m : SlaveMessage) : List Byte := m.pack.toBytes ++ m.object

/-- The lengths that `RcRecv` is called with for the message. -/
def pieces (m : SlaveMessage) : List Nat :=
  RcCommandPack.sizeOf :: if m.object = [] then [] else [m.object.length]

/-- The main loop ends with the message. -/
def Last (m : SlaveMessage) : Prop := m.pack.command = some .close ∨ m.pack.command = some .restart

/-- The call that a message is for. -/
def call (m : SlaveMessage) : SlaveCall :=
  match m.pack.command with
  | some .close => .close
  | some .createThread =>
      if m.object = [] then .threadEntry m.pack.param m.pack.param2 m.pack.param3
      else .threadEntryObject m.pack.param m.pack.param2 m.pack.param3 m.object
  | some .wakeSync => .setRemoteEvent m.pack.param
  | some .alive => .sendBack m.pack
  | some .restart => .restartCurrentProcess
  | _ => .unknownCommand m.pack.cmd

end SlaveMessage

/-! ## The master -/

/-- What the master does with a command of the slave `i`. -/
inductive MasterCall
  | barrierMsg (node : Nat) (okey thread : Word)
  | semaphoreMsg (node : Nat) (okey thread : Word)
  | semaphoreLeaveMsg (node : Nat) (okey thread : Word)
  | eventWaitMsg (node : Nat) (okey thread : Word)
  | setEventMsg (node : Nat) (okey : Word)
  | resetEventMsg (node : Nat) (okey : Word)
  | alive (node : Nat)
  | badCommand (cmd : Word)
deriving DecidableEq

def masterCall (node : Nat) (cmd : RcCommandPack) : MasterCall :=
  match cmd.command with
  | some .enterBarrier => .barrierMsg node cmd.param cmd.param2
  | some .enterSemaphore => .semaphoreMsg node cmd.param cmd.param2
  | some .leaveSemaphore => .semaphoreLeaveMsg node cmd.param cmd.param2
  | some .waitForEvent => .eventWaitMsg node cmd.param cmd.param2
  | some .setEvent => .setEventMsg node cmd.param
  | some .resetEvent => .resetEventMsg node cmd.param
  | some .alive => .alive node
  | _ => .badCommand cmd.cmd

/-- `RcMasterListen`: in each round `select` reports some of the slaves, and those are read in their
order. The slave `i` is the node `i + 1`. -/
def rcMasterListen {slaves : Nat} (seg : Fin slaves → Segmentation) (rounds : List (Fin slaves → Bool))
    (stream : Fin slaves → List Byte) : Listener (Fin slaves) Byte RcCommandPack :=
  (Listener.start stream).listen seg RcCommandPack.sizeOf RcCommandPack.ofBytes
    (rounds.flatMap fun isSet => (List.finRange slaves).filter isSet)

/-! ## The cache -/

inductive CacheMessageKind
  | replyOK
  | replyBadAddress
  | writeMiss
  | readMiss
  | writeChunkMiss
  | write
  | renew
  | writeback
  | writeChunk
  | renewChunk
deriving DecidableEq

/-- The enumerators, from 1 on. -/
def cacheMessageKinds : List CacheMessageKind :=
  [.replyOK, .replyBadAddress, .writeMiss, .readMiss, .writeChunkMiss, .write, .renew, .writeback, .writeChunk,
    .renewChunk]

/-- The two halves of the address, the kind, the length and the words of a block. -/
structure DataPack where
  addrLow : Word
  addrHigh : Word
  kind : Word
  len : Word
  buf : Fin blockSize → Word
deriving DecidableEq

namespace DataPack

def toBytes (p : DataPack) : List Byte :=
  writeWords ([p.addrLow, p.addrHigh, p.kind, p.len] ++ List.ofFn p.buf)

def sizeOf : Nat := 16 + 4 * blockSize

def ofBytes (bytes : List Byte) : DataPack :=
  match readWords (4 + blockSize) bytes with
  | some (addrLow :: addrHigh :: kind :: len :: buf, _) => ⟨addrLow, addrHigh, kind, len, fun i => buf.getD i 0⟩
  | _ => ⟨0, 0, 0, 0, fun _ => 0⟩

def messageKind (p : DataPack) : Option CacheMessageKind :=
  if p.kind = 0 then none else cacheMessageKinds[p.kind.toNat - 1]?

def addr (p : DataPack) : Nat := p.addrLow.toNat + 2 ^ 32 * p.addrHigh.toNat

end DataPack

/-- What a cache does with a pack of another one. -/
inductive CacheCall
  | serverReadMiss (addr target : Nat)
  | serverWriteMiss (addr target : Nat) (v : Fin blockSize → Word) (len : Nat)
  | serverWrite (addr target : Nat) (v : Fin blockSize → Word) (len : Nat)
  | serverRenew (addr target : Nat) (v : Fin blockSize → Word) (len : Nat)
  | serverWriteback (addr target : Nat)
  | serverRenewChunk (addr target : Nat) (v : Fin blockSize → Word)
  | badMessage (kind : Word)

def cacheCall (target : Nat) (p : DataPack) : CacheCall :=
  match p.messageKind with
  | some .readMiss => .serverReadMiss p.addr target
  | some .writeMiss => .serverWriteMiss p.addr target p.buf p.len.toNat
  -- here the length is that of the buffer in bytes
  | some .writeChunkMiss => .serverWriteMiss p.addr target p.buf (4 * blockSize)
  | some .write => .serverWrite p.addr target p.buf p.len.toNat
  | some .renew => .serverRenew p.addr target p.buf p.len.toNat
  | some .writeback => .serverWriteback p.addr target
  | some .renewChunk => .serverRenewChunk p.addr target p.buf
  | _ => .badMessage p.kind

/-- `CacheProtocalProc` until there is nothing left to read. -/
def cacheProtocalProc (seg : Segmentation) (stream : List Byte) : Listener Unit Byte DataPack :=
  (Listener.start fun _ => stream).listen (fun _ => seg) DataPack.sizeOf DataPack.ofBytes
    (List.replicate stream.length ())

/-! ## The messages to a slave -/

section Slave

variable {seg : Segmentation} {m : SlaveMessage} {j : Nat} {rest : List Byte} {events : List SlaveEvent}
  {l : SlaveLoop}

theorem toInt_param4 (hobject : m.object ≠ []) :
    m.pack.command = some .createThread ∧ toInt m.pack.param4 = m.object.length := by
  have hlength := m.length_object
  have hle := m.object_le
  split at hlength
  · rename_i hcreate
    refine ⟨hcreate, ?_⟩
    rw [hlength] at hle ⊢
    apply BitVec.toInt_eq_toNat_of_lt
    show 2 * m.pack.param4.toNat < 2 ^ 32
    omega
  · exact absurd (List.length_eq_zero_iff.mp hlength) hobject

/-- A message without a function object is complete with its command. -/
theorem dispatch_of_nil (hobject : m.object = []) :
    (dispatch m.pack).2 = [.call m.call] ∧
      ((dispatch m.pack).1 = .ended ∧ m.Last ∨ (dispatch m.pack).1 = .command ∧ ¬m.Last) := by
  unfold dispatch SlaveMessage.call SlaveMessage.Last
  cases hcommand : m.pack.command with
  | none => simp
  | some c =>
      cases c with
      | createThread =>
          have hzero : m.pack.param4 = 0 := by
            have hlength := m.length_object
            rw [hcommand, if_pos rfl, hobject] at hlength
            exact UInt32.toNat_inj.mp hlength.symm
          simp [hzero, hobject]
      | _ => simp

/-- Otherwise the main loop goes on to read the function object. -/
theorem dispatch_of_ne_nil (hobject : m.object ≠ []) :
    dispatch m.pack = (.object m.pack, []) ∧ ¬m.Last ∧
      m.call = .threadEntryObject m.pack.param m.pack.param2 m.pack.param3 m.object := by
  obtain ⟨hcommand, hint⟩ := toInt_param4 hobject
  have hzero : m.pack.param4 ≠ 0 := by
    intro hzero
    rw [hzero] at hint
    exact hobject (List.length_eq_zero_iff.mp (Int.ofNat_inj.mp hint.symm))
  have hle : ¬2048 < toInt m.pack.param4 := by
    have hobject := m.object_le
    omega
  refine ⟨?_, ?_, ?_⟩
  · simp only [dispatch, hcommand, if_pos hzero, if_neg hle]
  · simp [SlaveMessage.Last, hcommand]
  · simp only [SlaveMessage.call, hcommand, if_neg hobject]

theorem toBytes_append_ne_nil (cmd : RcCommandPack) (rest : List Byte) : cmd.toBytes ++ rest ≠ [] := by
  intro hnil
  have hlength := congrArg List.length hnil
  rw [List.length_append, cmd.length_toBytes] at hlength
  simp [RcCommandPack.sizeOf] at hlength

theorem slaveRecv_command (hwhole : RcCommandPack.sizeOf ≤ seg.size j) (cmd : RcCommandPack) :
    slaveRecv seg ⟨.command, cmd.toBytes ++ rest, j, events⟩ =
      ⟨(dispatch cmd).1, rest, j + 1, events ++ (dispatch cmd).2⟩ := by
  have hbytes : seg.recv j RcCommandPack.sizeOf (cmd.toBytes ++ rest) = cmd.toBytes := by
    rw [← cmd.length_toBytes]
    exact recv_whole hwhole
  rw [slaveRecv, if_neg (toBytes_append_ne_nil cmd rest)]
  simp only [hbytes, cmd.length_toBytes, ne_eq, not_true_eq_false, if_false, cmd.ofBytes_toBytes]
  rw [← cmd.length_toBytes, List.drop_left]

theorem slaveRecv_command_short (hshort : seg.size j < RcCommandPack.sizeOf) (cmd : RcCommandPack) :
    (slaveRecv seg ⟨.command, cmd.toBytes ++ rest, j, events⟩).events = events ++ [.socketError] := by
  have hlength : (seg.recv j RcCommandPack.sizeOf (cmd.toBytes ++ rest)).length ≠ RcCommandPack.sizeOf := by
    rw [length_recv]
    · omega
    · rw [List.length_append, cmd.length_toBytes]
      exact Nat.le_add_right ..
  rw [slaveRecv, if_neg (toBytes_append_ne_nil cmd rest)]
  simp only [if_pos hlength]

theorem toSize_param4 (hobject : m.object ≠ []) : toSize m.pack.param4 = m.object.length := by
  have hle := m.object_le
  rw [toSize, (toInt_param4 hobject).2]
  omega

theorem slaveRecv_object (hobject : m.object ≠ []) (hwhole : m.object.length ≤ seg.size j) :
    slaveRecv seg ⟨.object m.pack, m.object ++ rest, j, events⟩ =
      ⟨.command, rest, j + 1, events ++ [.call m.call]⟩ := by
  rw [slaveRecv, if_neg (List.append_ne_nil_of_left_ne_nil hobject rest)]
  simp only [toSize_param4 hobject, recv_whole hwhole, (toInt_param4 hobject).2, ne_eq, not_true_eq_false,
    if_false, List.drop_left, (dispatch_of_ne_nil hobject).2.2]

theorem slaveRecv_object_short (hobject : m.object ≠ []) (hshort : seg.size j < m.object.length) :
    (slaveRecv seg ⟨.object m.pack, m.object ++ rest, j, events⟩).events = events ++ [.socketError] := by
  have hlength : ((seg.recv j m.object.length (m.object ++ rest)).length : Int) ≠ m.object.length := by
    rw [length_recv]
    · omega
    · rw [List.length_append]
      exact Nat.le_add_right ..
  rw [slaveRecv, if_neg (List.append_ne_nil_of_left_ne_nil hobject rest)]
  simp only [toSize_param4 hobject, (toInt_param4 hobject).2, if_pos hlength]

/-- What a loop has done stays done. -/
theorem events_prefix (seg : Segmentation) (fuel : Nat) (l : SlaveLoop) :
    l.events <+: ((slaveRecv seg)^[fuel] l).events := by
  induction fuel generalizing l with
  | zero => exact List.prefix_refl _
  | succ fuel ih =>
      have hone : l.events <+: (slaveRecv seg l).events := by
        rw [slaveRecv]
        split
        · exact List.prefix_refl _
        · split
          · exact List.prefix_refl _
          · exact List.prefix_append ..
          · exact List.prefix_append ..
      exact hone.trans (ih _)

/-- A loop at its end, or with nothing to read, does nothing more. -/
theorem iterate_slaveRecv (hdone : l.phase = .ended ∨ l.stream = []) (fuel : Nat) :
    (slaveRecv seg)^[fuel] l = l := by
  have hone : slaveRecv seg l = l := by
    rw [slaveRecv]
    split
    · rfl
    · rename_i hstream
      rcases hdone with hphase | hnil
      · simp only [hphase]
      · exact absurd hnil hstream
  exact Function.iterate_fixed hone fuel

/-- After an error the events are not those of the messages. -/
theorem events_ne_of_error {fuel : Nat} {cs : List SlaveEvent} {c : SlaveCall}
    (herror : l.events = events ++ [.socketError]) :
    ((slaveRecv seg)^[fuel] l).events ≠ events ++ .call c :: cs := by
  intro heq
  obtain ⟨more, hmore⟩ := events_prefix seg fuel l
  rw [heq, herror, List.append_assoc] at hmore
  obtain ⟨hhead, -⟩ := List.cons.inj (List.append_cancel_left hmore)
  cases hhead

theorem forall_dropLast_cons {P : SlaveMessage → Prop} (m : SlaveMessage) (ms : List SlaveMessage) :
    (∀ m' ∈ (m :: ms).dropLast, P m') ↔ (ms ≠ [] → P m) ∧ ∀ m' ∈ ms.dropLast, P m' := by
  cases ms with
  | nil => simp
  | cons m₁ ms => simp

/-- The main loop makes the calls that the messages are for exactly when each `recv` returns all that is
asked for, and no message follows one that ends the loop. -/
theorem slave_events_iff (ms : List SlaveMessage) {fuel : Nat}
    (hfuel : (ms.flatMap SlaveMessage.toBytes).length ≤ fuel) :
    ((slaveRecv seg)^[fuel] ⟨.command, ms.flatMap SlaveMessage.toBytes, j, events⟩).events =
        events ++ ms.map (fun m => .call m.call) ↔
      seg.Whole j (ms.flatMap SlaveMessage.pieces) ∧ ∀ m ∈ ms.dropLast, ¬m.Last := by
  induction ms generalizing j events fuel with
  | nil =>
      rw [iterate_slaveRecv (Or.inr rfl)]
      simp [Segmentation.Whole]
  | cons m ms ih =>
      rw [List.flatMap_cons, List.length_append, SlaveMessage.toBytes, List.length_append,
        m.pack.length_toBytes] at hfuel
      have hsize : RcCommandPack.sizeOf = 24 := rfl
      obtain ⟨fuel, rfl⟩ : ∃ fuel', fuel = fuel' + 1 := Nat.exists_eq_succ_of_ne_zero (by omega)
      rw [List.flatMap_cons, List.flatMap_cons, SlaveMessage.toBytes, List.append_assoc, List.map_cons,
        Function.iterate_succ_apply, SlaveMessage.pieces, List.cons_append, Segmentation.Whole,
        forall_dropLast_cons]
      rcases Nat.lt_or_ge (seg.size j) RcCommandPack.sizeOf with hshort | hwhole
      · constructor
        · intro heq
          exact absurd heq (events_ne_of_error (slaveRecv_command_short hshort m.pack))
        · rintro ⟨⟨hlong, -⟩, -⟩
          omega
      · have hsplit := List.append_cons events (.call m.call) (ms.map fun m => SlaveEvent.call m.call)
        rw [slaveRecv_command hwhole]
        by_cases hobject : m.object = []
        · obtain ⟨hevents, hphase⟩ := dispatch_of_nil hobject
          rw [hevents, hobject, List.nil_append, if_pos rfl, List.nil_append, hsplit]
          rcases hphase with ⟨hended, hlast⟩ | ⟨hcommand, hlast⟩
          · rw [iterate_slaveRecv (Or.inl hended), List.self_eq_append_right, List.map_eq_nil_iff]
            constructor
            · rintro rfl
              exact ⟨⟨hwhole, trivial⟩, fun hne => absurd rfl hne, fun m hm => absurd hm List.not_mem_nil⟩
            · rintro ⟨-, hnone, -⟩
              by_contra hne
              exact hnone hne hlast
          · rw [hcommand, ih (by omega)]
            constructor
            · rintro ⟨hpieces, hrest⟩
              exact ⟨⟨hwhole, hpieces⟩, fun _ => hlast, hrest⟩
            · rintro ⟨⟨-, hpieces⟩, -, hrest⟩
              exact ⟨hpieces, hrest⟩
        · -- the function object is read by a second `recv`
          obtain ⟨hdispatch, hlast, -⟩ := dispatch_of_ne_nil hobject
          have hlength := List.length_pos_iff.mpr hobject
          obtain ⟨fuel, rfl⟩ : ∃ fuel', fuel = fuel' + 1 := Nat.exists_eq_succ_of_ne_zero (by omega)
          rw [hdispatch, List.append_nil, Function.iterate_succ_apply, if_neg hobject, List.cons_append,
            List.nil_append, Segmentation.Whole]
          rcases Nat.lt_or_ge (seg.size (j + 1)) m.object.length with hshort | hlong
          · constructor
            · intro heq
              exact absurd heq (events_ne_of_error (slaveRecv_object_short hobject hshort))
            · rintro ⟨⟨-, hlong, -⟩, -⟩
              omega
          · rw [slaveRecv_object hobject hlong, hsplit, ih (by omega)]
            constructor
            · rintro ⟨hpieces, hrest⟩
              exact ⟨⟨hwhole, hlong, hpieces⟩, fun _ => hlast, hrest⟩
            · rintro ⟨⟨-, -, hpieces⟩, -, hrest⟩
              exact ⟨hpieces, hrest⟩

end Slave

/-! ## The messages to the master and to a cache -/

theorem count_rounds {slaves : Nat} (rounds : List (Fin slaves → Bool)) (i : Fin slaves) :
    (rounds.flatMap fun isSet => (List.finRange slaves).filter isSet).count i =
      rounds.countP fun isSet => isSet i := by
  induction rounds with
  | nil => rfl
  | cons isSet rounds ih =>
      rw [List.flatMap_cons, List.count_append, ih, List.countP_cons]
      cases hset : isSet i with
      | false =>
          have hcount : ((List.finRange slaves).filter isSet).count i = 0 := by
            apply List.count_eq_zero.mpr
            simp [hset]
          simp [hcount]
      | true =>
          have hcount : ((List.finRange slaves).filter isSet).count i = 1 := by
            apply List.count_eq_one_of_mem
            · exact (List.nodup_finRange slaves).filter _
            · simp [hset]
          rw [hcount]
          exact Nat.add_comm ..

namespace DataPack

theorem length_toBytes (p : DataPack) : p.toBytes.length = sizeOf := by
  have hwords : ∀ ws : List Word, (writeWords ws).length = 4 * ws.length := by
    intro ws
    induction ws with
    | nil => rfl
    | cons w ws ih =>
        have hcons : writeWords (w :: ws) = Checkpoint.writeWord w ++ writeWords ws := rfl
        rw [hcons, List.length_append, ih, List.length_cons]
        show 4 + _ = _
        omega
  rw [toBytes, hwords, List.length_append, List.length_ofFn]
  rfl

theorem ofBytes_toBytes (p : DataPack) : ofBytes p.toBytes = p := by
  have hread := Checkpoint.readWords_writeWords ([p.addrLow, p.addrHigh, p.kind, p.len] ++ List.ofFn p.buf) []
  rw [List.append_nil, List.length_append, List.length_ofFn] at hread
  rw [ofBytes, toBytes, show 4 + blockSize = [p.addrLow, p.addrHigh, p.kind, p.len].length + blockSize from rfl,
    hread]
  have hbuf : (fun i : Fin blockSize => (List.ofFn p.buf).getD i 0) = p.buf := by
    ext i
    simp
  simp only [List.cons_append, List.nil_append, hbuf]

end DataPack

section Channels

variable {slaves : Nat}

/-- The master makes the calls that the commands of each slave are for, unless a `recv` is short. -/
theorem master_calls_iff (seg : Fin slaves → Segmentation) (ms : Fin slaves → List RcCommandPack)
    {rounds : List (Fin slaves → Bool)} (hfair : ∀ i, (ms i).length ≤ rounds.countP fun isSet => isSet i) :
    ((rcMasterListen seg rounds fun i => (ms i).flatMap RcCommandPack.toBytes).failed = false ∧
      ∀ i, ((rcMasterListen seg rounds fun i => (ms i).flatMap RcCommandPack.toBytes).received i).map
        (masterCall (i + 1)) = (ms i).map (masterCall (i + 1))) ↔
      ∀ i, ∀ j < (ms i).length, RcCommandPack.sizeOf ≤ (seg i).size j := by
  have hcount : ∀ i, (ms i).length ≤
      (rounds.flatMap fun isSet => (List.finRange slaves).filter isSet).count i := by
    intro i
    rw [count_rounds]
    exact hfair i
  have hiff := listen_ok_iff seg ms RcCommandPack.length_toBytes (by decide) RcCommandPack.ofBytes_toBytes hcount
  constructor
  · rintro ⟨hok, -⟩
    exact hiff.mp hok
  · intro hwhole
    have hok := hiff.mpr hwhole
    refine ⟨hok, fun i => ?_⟩
    apply congrArg (List.map _)
    exact (listen_received RcCommandPack.length_toBytes (by decide) RcCommandPack.ofBytes_toBytes hcount hok i).1

/-- A cache makes the calls that the packs of another one are for, unless a `recv` is short. -/
theorem cache_calls_iff (seg : Segmentation) (target : Nat) (ms : List DataPack) :
    ((cacheProtocalProc seg (ms.flatMap DataPack.toBytes)).failed = false ∧
      ((cacheProtocalProc seg (ms.flatMap DataPack.toBytes)).received ()).map (cacheCall target) =
        ms.map (cacheCall target)) ↔
      ∀ j < ms.length, DataPack.sizeOf ≤ seg.size j := by
  have hcount : ∀ i : Unit, ms.length ≤
      (List.replicate (ms.flatMap DataPack.toBytes).length ()).count i := by
    intro i
    rw [List.count_replicate_self]
    induction ms with
    | nil => exact Nat.zero_le _
    | cons m ms ih =>
        rw [List.flatMap_cons, List.length_append, List.length_cons, m.length_toBytes, DataPack.sizeOf]
        omega
  have hiff := listen_ok_iff (fun _ => seg) (fun _ => ms) DataPack.length_toBytes (by decide)
    DataPack.ofBytes_toBytes hcount
  constructor
  · rintro ⟨hok, -⟩
    exact hiff.mp hok ()
  · intro hwhole
    have hok := hiff.mpr fun _ => hwhole
    refine ⟨hok, ?_⟩
    apply congrArg (List.map _)
    exact (listen_received DataPack.length_toBytes (by decide) DataPack.ofBytes_toBytes hcount hok ()).1

end Channels

/-- The three loops make the calls that the messages sent to them are for, and report no error, exactly
when each `recv` returns all that is asked for; for a slave, no message may follow one that ends its
loop. The master polls each slave often enough. -/
theorem framing_iff (seg : Segmentation) (ms : List SlaveMessage) {slaves : Nat}
    (slaveSeg : Fin slaves → Segmentation) (commands : Fin slaves → List RcCommandPack)
    (rounds : List (Fin slaves → Bool)) (hfair : ∀ i, (commands i).length ≤ rounds.countP fun isSet => isSet i)
    (cacheSeg : Segmentation) (target : Nat) (packs : List DataPack) :
    ((rcSlaveMainLoop seg (ms.flatMap SlaveMessage.toBytes)).events = ms.map (fun m => .call m.call) ↔
      seg.Whole 0 (ms.flatMap SlaveMessage.pieces) ∧ ∀ m ∈ ms.dropLast, ¬m.Last) ∧
    (((rcMasterListen slaveSeg rounds fun i => (commands i).flatMap RcCommandPack.toBytes).failed = false ∧
      ∀ i, ((rcMasterListen slaveSeg rounds fun i => (commands i).flatMap RcCommandPack.toBytes).received i).map
        (masterCall (i + 1)) = (commands i).map (masterCall (i + 1))) ↔
      ∀ i, ∀ j < (commands i).length, RcCommandPack.sizeOf ≤ (slaveSeg i).size j) ∧
    (((cacheProtocalProc cacheSeg (packs.flatMap DataPack.toBytes)).failed = false ∧
      ((cacheProtocalProc cacheSeg (packs.flatMap DataPack.toBytes)).received ()).map (cacheCall target) =
        packs.map (cacheCall target)) ↔
      ∀ j < packs.length, DataPack.sizeOf ≤ cacheSeg.size j) := by
  refine ⟨?_, ?_, ?_⟩
  · exact slave_events_iff ms (Nat.le_refl _)
  · exact master_calls_iff slaveSeg commands hfair
  · exact cache_calls_iff cacheSeg target packs

/-- `RcCmdAlive`, as the master sends it and a slave sends it back. -/
def aliveMessage : SlaveMessage := ⟨⟨15, 0, 0, 0, 0, 0⟩, [], rfl, Nat.zero_le _⟩

/-- Nothing is split. -/
def quiet : Segmentation := ⟨fun _ => 2048, fun _ => by decide⟩

theorem framing_quiet :
    (rcSlaveMainLoop quiet aliveMessage.toBytes).events = [.call (.sendBack aliveMessage.pack)] ∧
      (rcMasterListen (fun _ : Fin 1 => quiet) [fun _ => true] fun _ => aliveMessage.pack.toBytes).failed = false := by
  have hframing := framing_iff quiet [aliveMessage] (fun _ : Fin 1 => quiet) (fun _ => [aliveMessage.pack])
    [fun _ => true] (by decide) quiet 0 []
  constructor
  · exact hframing.1.mpr ⟨by decide, fun m hm => absurd hm List.not_mem_nil⟩
  · exact (hframing.2.1.mpr (by decide)).1

/-- Each `recv` returns twelve bytes at most. -/
def halves : Segmentation := ⟨fun _ => 12, fun _ => by decide⟩

/-- A command that arrives in two parts is an error. -/
theorem split_command_is_error :
    (rcSlaveMainLoop halves aliveMessage.toBytes).events = [.socketError] ∧
      (rcSlaveMainLoop halves aliveMessage.toBytes).events ≠ [.call aliveMessage.call] := by
  decide +kernel

end Dogee.ControlChannels
