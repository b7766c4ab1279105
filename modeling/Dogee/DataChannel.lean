import Dogee.AccumulatorBuffer
import Dogee.ControlChannels

/-!
# The data channels

A node has one connection to each of the other nodes for packs of data. Its thread `AcListenData`
waits in `select`, and reads one message from each connection that has something to read: the 28 bytes
of an `RcDataPack` and as many bytes of payload as it says, each in a loop of `recv`s that goes on
until all bytes are there. All messages are read into the same pack and the same buffer.
-/

namespace Dogee.DataChannel

open Framing (Segmentation length_recv)
open Checkpoint (Byte writeWords readWords)
open Accumulator (dataProcessSize)

/-! ## Messages -/

inductive AcDataCommand
  | hello
  | accumulate
  | accumulatePartialDone
  | localReduce
  | threadPoolExec
deriving DecidableEq

/-- The enumerators, from 1 on. -/
def acDataCommands : List AcDataCommand :=
  [.hello, .accumulate, .accumulatePartialDone, .localReduce, .threadPoolExec]

structure RcDataPack where
  cmd : Word
  size : Word
  id : Word
  datatype : Word
  param0 : Word
  param1 : Word
  param2 : Word
deriving DecidableEq

namespace RcDataPack

def command (p : RcDataPack) : Option AcDataCommand := if p.cmd = 0 then none else acDataCommands[p.cmd.toNat - 1]?

/-- The union with `param1` and `param2`. -/
def param12 (p : RcDataPack) : UInt64 := UInt64.ofNat (p.param1.toNat + 2 ^ 32 * p.param2.toNat)

def toBytes (p : RcDataPack) : List Byte :=
  writeWords [p.cmd, p.size, p.id, p.datatype, p.param0, p.param1, p.param2]

def sizeOf : Nat := 28

def ofBytes (bytes : List Byte) : RcDataPack :=
  match readWords 7 bytes with
  | some ([cmd, size, id, datatype, param0, param1, param2], _) => ⟨cmd, size, id, datatype, param0, param1, param2⟩
  | _ => ⟨0, 0, 0, 0, 0, 0, 0⟩

theorem length_toBytes (p : RcDataPack) : p.toBytes.length = sizeOf := rfl

theorem ofBytes_toBytes (p : RcDataPack) : ofBytes p.toBytes = p := by
  have hread := Checkpoint.readWords_writeWords [p.cmd, p.size, p.id, p.datatype, p.param0, p.param1, p.param2] []
  rw [List.append_nil] at hread
  rw [ofBytes, toBytes,
    show (7 : Nat) = [p.cmd, p.size, p.id, p.datatype, p.param0, p.param1, p.param2].length from rfl, hread]

end RcDataPack

/-- A message: a pack and its payload, which fits in the buffer. -/
structure Message where
  pack : RcDataPack
  payload : List Byte
  size_eq : pack.size.toNat = payload.length
  payload_le : payload.length ≤ dataProcessSize

def Message.toBytes (m : Message) : List Byte := m.pack.toBytes ++ m.payload

/-- What the `switch` does with a message. -/
inductive Call
  | accumulateMsg (src : Nat) (aid : Word) (threadId : Int32) (offset sizeBytes : Word) (data : List Byte) (type : Word)
  | accumulatePartialDoneMsg (src : Nat) (aid : Word)
  | controlMessageError
  | localReduceMsg (src : Nat) (aid : Word)
  | executeClosureInLocalThreadPool (obj : List Byte) (param : Word) (id : Int32) (devent : Word)
  | badCommand (cmd : Word)
deriving DecidableEq

/-- The node at the other end of a connection of the node `self`. -/
def idx2nodeid (self idx : Nat) : Nat := if idx + 1 = self then 0 else idx + 1

/-- The `switch`, with what the buffer holds of the message. -/
def dispatch (self idx : Nat) (cmd : RcDataPack) (buf : List Byte) : Call :=
  match cmd.command with
  | some .accumulate =>
      .accumulateMsg (idx2nodeid self idx) cmd.id cmd.param12.toUInt32.toInt32 cmd.param0 cmd.size buf cmd.datatype
  | some .accumulatePartialDone =>
      if self = 0 then .accumulatePartialDoneMsg (idx2nodeid self idx) cmd.id else .controlMessageError
  | some .localReduce => .localReduceMsg (idx2nodeid self idx) cmd.id
  | some .threadPoolExec => .executeClosureInLocalThreadPool buf cmd.param1 cmd.id.toInt32 cmd.param0
  | _ => .badCommand cmd.cmd

/-! ## The listener -/

/-- Why the listener does not go on: a `recv` with nothing to read, the jump to `ERR`, or a write behind
the end of the pack or of the buffer. -/
inductive Failure
  | blocked
  | err
  | undefined
deriving DecidableEq

/-- `while (torec > 0)`: receive into `dst` from `rec` on, with the `recv`s from number `j` on. Each of them
takes a byte at least, so `torec` rounds are enough. -/
def recvLoop {β : Type*} (seg : Segmentation) :
    Nat → Nat → List β → Nat → Nat → List β → Except Failure (List β × Nat × List β)
  | _, j, dst, _, 0, stream => .ok (dst, j, stream)
  | 0, _, _, _, _ + 1, _ => .error .blocked
  | fuel + 1, j, dst, rec, torec + 1, stream =>
      let bytes := seg.recv j (torec + 1) stream
      if bytes = [] then .error .blocked
      else
        match copyWords dst rec bytes with
        | none => .error .undefined
        | some dst =>
            recvLoop seg fuel (j + 1) dst (rec + bytes.length) (torec + 1 - bytes.length) (stream.drop bytes.length)

/-- What the `switch` has come to: the connection, the pack and the payload. -/
structure Entry (n : Nat) where
  idx : Fin n
  cmd : RcDataPack
  payload : List Byte
deriving DecidableEq

/-- The listener: what is under way on each connection, how often it has called `recv` there, the memory of
`cmd` and `buf`, and what has been dispatched. -/
structure Listener (n : Nat) where
  stream : Fin n → List Byte
  recvs : Fin n → Nat
  cmd : List Byte
  buf : List Byte
  dispatched : List (Entry n)

/-- One message of the connection `i`, which `select` reports when there is anything to read. -/
def Listener.receive {n : Nat} (seg : Fin n → Segmentation) (l : Listener n) (i : Fin n) :
    Except Failure (Listener n) :=
  if l.stream i = [] then .ok l
  else do
    let (cmd, j, stream) ← recvLoop (seg i) RcDataPack.sizeOf (l.recvs i) l.cmd 0 RcDataPack.sizeOf (l.stream i)
    let pack := RcDataPack.ofBytes cmd
    let size := pack.size.toNat
    if dataProcessSize < size then
      throw .err
    let (buf, j, stream) ← recvLoop (seg i) size j l.buf 0 size stream
    return ⟨Function.update l.stream i stream, Function.update l.recvs i j, cmd, buf,
      l.dispatched ++ [⟨i, pack, buf.take size⟩]⟩

/-- The connections that are read one after the other: in each round `select` reports some of them. -/
def schedule {n : Nat} (rounds : List (Fin n → Bool)) : List (Fin n) :=
  rounds.flatMap fun isSet => (List.finRange n).filter isSet

/-- The packs and payloads from one connection. -/
def Listener.received {n : Nat} (l : Listener n) (i : Fin n) : List (RcDataPack × List Byte) :=
  (l.dispatched.filter (·.idx = i)).map fun e => (e.cmd, e.payload)

/-- The calls of the node `self` for one connection. -/
def Listener.calls {n : Nat} (self : Nat) (l : Listener n) (i : Fin n) : List Call :=
  (l.dispatched.filter (·.idx = i)).map fun e => dispatch self e.idx e.cmd e.payload

/-! ## The loops -/

section Loops

variable {β : Type*} {seg : Segmentation}

/-- Writing one part behind the other. -/
theorem copyWords_append {α : Type*} (dst : List α) (j : Nat) (vs vs' : List α) :
    copyWords dst j (vs ++ vs') = (copyWords dst j vs).bind fun dst => copyWords dst (j + vs.length) vs' := by
  induction vs generalizing dst j with
  | nil => rfl
  | cons v vs ih =>
      rw [List.cons_append, copyWords, copyWords]
      split
      · rw [ih, List.length_cons, Nat.add_right_comm, Nat.add_assoc]
      · rfl

/-- What has been written stands at the beginning of the buffer. -/
theorem take_copyWords {α : Type*} {dst dst' vs : List α} (h : copyWords dst 0 vs = some dst')
    (hroom : vs.length ≤ dst.length) : dst'.take vs.length = vs := by
  obtain ⟨d, hd, -, hget⟩ := copyWords_spec dst 0 vs (by omega)
  obtain rfl : d = dst' := Option.some.inj (hd.symm.trans h)
  apply List.ext_getElem?
  intro i
  by_cases hi : i < vs.length
  · rw [List.getElem?_take_of_lt hi, hget, if_pos (by omega), Nat.sub_zero]
  · rw [List.getElem?_take_eq_none (by omega), List.getElem?_eq_none (by omega)]

theorem recvLoop_pos {fuel torec : Nat} (hpos : 0 < torec) (j rec : Nat) (dst stream : List β) :
    recvLoop seg (fuel + 1) j dst rec torec stream =
      if seg.recv j torec stream = [] then .error .blocked
      else
        match copyWords dst rec (seg.recv j torec stream) with
        | none => .error .undefined
        | some dst =>
            recvLoop seg fuel (j + 1) dst (rec + (seg.recv j torec stream).length)
              (torec - (seg.recv j torec stream).length) (stream.drop (seg.recv j torec stream).length) := by
  cases torec with
  | zero => exact absurd hpos (Nat.lt_irrefl 0)
  | succ torec => rfl

/-- The loop receives just the bytes it is to receive, in whatever parts they come. -/
theorem recvLoop_append (seg : Segmentation) {fuel : Nat} (bytes : List β) (hfuel : bytes.length ≤ fuel)
    (j rec : Nat) {dst : List β} (hroom : rec + bytes.length ≤ dst.length) (rest : List β) :
    ∃ dst' j', recvLoop seg fuel j dst rec bytes.length (bytes ++ rest) = .ok (dst', j', rest) ∧
      copyWords dst rec bytes = some dst' := by
  induction fuel generalizing bytes j rec dst with
  | zero =>
      obtain rfl := List.length_eq_zero_iff.mp (Nat.le_zero.mp hfuel)
      exact ⟨dst, j, rfl, rfl⟩
  | succ fuel ih =>
      rcases Nat.eq_zero_or_pos bytes.length with hnil | hpos
      · obtain rfl := List.length_eq_zero_iff.mp hnil
        exact ⟨dst, j, rfl, rfl⟩
      · -- the part that this `recv` returns, and what is left of the bytes
        obtain ⟨part, left, hbytes, hlen, hrecv⟩ : ∃ part left, bytes = part ++ left ∧ 0 < part.length ∧
            seg.recv j bytes.length (bytes ++ rest) = part := by
          have hsize := seg.pos j
          refine ⟨bytes.take (min bytes.length (seg.size j)), bytes.drop (min bytes.length (seg.size j)),
            (List.take_append_drop _ _).symm, ?_, ?_⟩
          · rw [List.length_take]
            omega
          · rw [Segmentation.recv, List.take_append_of_le_length (Nat.min_le_left ..)]
        have htotal : bytes.length = part.length + left.length := by rw [hbytes, List.length_append]
        obtain ⟨dst₁, hcopy, hdst₁, -⟩ := copyWords_spec dst rec part (by omega)
        have hne : part ≠ [] := List.ne_nil_of_length_pos hlen
        have hdrop : (bytes ++ rest).drop part.length = left ++ rest := by
          rw [hbytes, List.append_assoc, List.drop_left]
        have hleft : bytes.length - part.length = left.length := by omega
        have hroom₁ : rec + part.length + left.length ≤ dst₁.length := by omega
        obtain ⟨dst₂, j₂, hloop, hcopy₂⟩ := ih left (by omega) (j + 1) (rec + part.length) hroom₁
        refine ⟨dst₂, j₂, ?_, ?_⟩
        · rw [recvLoop_pos hpos, hrecv, if_neg hne, hdrop, hleft, hcopy]
          exact hloop
        · rw [hbytes, copyWords_append, hcopy, Option.bind_some]
          exact hcopy₂

end Loops

/-! ## Whole runs -/

/-- A message as the `switch` finds it. -/
def Message.found (m : Message) : RcDataPack × List Byte := (m.pack, m.payload)

/-- The call that the node `self` makes for a message on the connection `idx`. -/
def Message.call (self idx : Nat) (m : Message) : Call := dispatch self idx m.pack m.payload

section Run

variable {n : Nat} {ms : Fin n → List Message} {l : Listener n} {seen : List (Fin n)}

/-- How many messages of a connection have been read when `seen` have been reported. -/
def readOf (ms : Fin n → List Message) (seen : List (Fin n)) (i : Fin n) : Nat := min (seen.count i) (ms i).length

/-- Of each connection as many messages have been read as it has been reported, no byte more, and `cmd` and
`buf` have their sizes. -/
structure Listener.Inv (ms : Fin n → List Message) (seen : List (Fin n)) (l : Listener n) : Prop where
  stream : ∀ i, l.stream i = ((ms i).drop (readOf ms seen i)).flatMap Message.toBytes
  received : ∀ i, l.received i = ((ms i).take (readOf ms seen i)).map Message.found
  cmd : l.cmd.length = RcDataPack.sizeOf
  buf : l.buf.length = dataProcessSize

theorem toBytes_ne_nil (m : Message) : m.toBytes ≠ [] := by
  intro hnil
  have hlength := congrArg List.length hnil
  rw [Message.toBytes, List.length_append, m.pack.length_toBytes, List.length_nil, RcDataPack.sizeOf] at hlength
  omega

/-- One message: it is dispatched, and what comes behind it stays in the socket. -/
theorem receive_message (seg : Fin n → Segmentation) (hcmd : l.cmd.length = RcDataPack.sizeOf)
    (hbuf : l.buf.length = dataProcessSize) {i : Fin n} {m : Message} {rest : List Byte}
    (hstream : l.stream i = m.toBytes ++ rest) :
    ∃ cmd buf j, l.receive seg i = .ok ⟨Function.update l.stream i rest, Function.update l.recvs i j, cmd, buf,
        l.dispatched ++ [⟨i, m.pack, m.payload⟩]⟩ ∧
      cmd.length = RcDataPack.sizeOf ∧ buf.length = dataProcessSize := by
  have hne : ¬ l.stream i = [] := by
    rw [hstream]
    exact List.append_ne_nil_of_left_ne_nil (toBytes_ne_nil m) rest
  obtain ⟨cmd, j, hheader, hcopy⟩ := recvLoop_append (seg i) m.pack.toBytes (Nat.le_of_eq m.pack.length_toBytes)
    (l.recvs i) 0 (by rw [hcmd, m.pack.length_toBytes, Nat.zero_add]) (m.payload ++ rest)
  have hpack : cmd = m.pack.toBytes := by
    rw [copyWords_all (by rw [m.pack.length_toBytes, hcmd])] at hcopy
    exact (Option.some.inj hcopy).symm
  have hroom : 0 + m.payload.length ≤ l.buf.length := by
    have hle := m.payload_le
    omega
  obtain ⟨buf, j', hpayload, hcopy'⟩ := recvLoop_append (seg i) m.payload (Nat.le_refl _) j 0 hroom rest
  have htake : buf.take m.payload.length = m.payload := take_copyWords hcopy' (by omega)
  refine ⟨cmd, buf, j', ?_, ?_, ?_⟩
  · have hsmall : ¬ dataProcessSize < m.payload.length := Nat.not_lt.mpr m.payload_le
    rw [m.pack.length_toBytes, hpack] at hheader
    rw [Listener.receive, if_neg hne, hstream, Message.toBytes, List.append_assoc, hheader]
    simp only [bind, Except.bind, m.pack.ofBytes_toBytes, m.size_eq, if_neg hsmall, hpayload, htake, hpack]
    rfl
  · rw [hpack, m.pack.length_toBytes]
  · rw [copyWords_length hcopy', hbuf]

theorem readOf_le (ms : Fin n → List Message) (seen : List (Fin n)) (i : Fin n) :
    readOf ms seen i ≤ (ms i).length :=
  Nat.min_le_right ..

theorem readOf_append_self (ms : Fin n → List Message) (seen : List (Fin n)) (i : Fin n) :
    readOf ms (seen ++ [i]) i = min (readOf ms seen i + 1) (ms i).length := by
  rw [readOf, readOf, List.count_append, List.count_singleton_self]
  omega

theorem readOf_append_of_ne {i i' : Fin n} (h : i' ≠ i) : readOf ms (seen ++ [i]) i' = readOf ms seen i' := by
  rw [readOf, readOf, List.count_append, List.count_singleton, if_neg (by simpa using Ne.symm h), Nat.add_zero]

theorem received_append (stream : Fin n → List Byte) (recvs : Fin n → Nat) (cmd buf : List Byte)
    (e : Entry n) (i : Fin n) :
    Listener.received ⟨stream, recvs, cmd, buf, l.dispatched ++ [e]⟩ i =
      l.received i ++ if e.idx = i then [(e.cmd, e.payload)] else [] := by
  rw [Listener.received, List.filter_append, List.map_append, List.filter_cons, List.filter_nil, Listener.received]
  simp only [decide_eq_true_eq]
  split <;> rfl

/-- The step from one report of `select` to the next. -/
theorem Listener.Inv.receive (seg : Fin n → Segmentation) (h : l.Inv ms seen) (i : Fin n) :
    ∃ l', l.receive seg i = .ok l' ∧ l'.Inv ms (seen ++ [i]) := by
  have hself := readOf_append_self ms seen i
  rcases Nat.eq_or_lt_of_le (readOf_le ms seen i) with hall | hlt
  · -- nothing is left on the connection
    have hnil : l.stream i = [] := by
      rw [h.stream, hall, List.drop_length, List.flatMap_nil]
    have hsame : readOf ms (seen ++ [i]) = readOf ms seen := by
      funext i'
      rcases eq_or_ne i' i with rfl | hi
      · rw [hself, hall]
        omega
      · exact readOf_append_of_ne hi
    refine ⟨l, if_pos hnil, ?_, ?_, h.cmd, h.buf⟩
    · rw [hsame]
      exact h.stream
    · rw [hsame]
      exact h.received
  · have hnext : readOf ms (seen ++ [i]) i = readOf ms seen i + 1 := by
      rw [hself]
      exact Nat.min_eq_left hlt
    have hstream : l.stream i = ((ms i)[readOf ms seen i]).toBytes ++
        ((ms i).drop (readOf ms seen i + 1)).flatMap Message.toBytes := by
      rw [h.stream, List.drop_eq_getElem_cons hlt, List.flatMap_cons]
    obtain ⟨cmd, buf, j, hreceive, hcmd, hbuf⟩ := receive_message seg h.cmd h.buf hstream
    refine ⟨_, hreceive, fun i' => ?_, fun i' => ?_, hcmd, hbuf⟩
    · rcases eq_or_ne i' i with rfl | hi
      · rw [hnext]
        exact Function.update_self ..
      · rw [readOf_append_of_ne hi]
        exact (Function.update_of_ne hi ..).trans (h.stream i')
    · rw [received_append, h.received]
      rcases eq_or_ne i' i with rfl | hi
      · rw [if_pos rfl, hnext, List.take_succ_eq_append_getElem hlt, List.map_append]
        rfl
      · rw [if_neg (Ne.symm hi), readOf_append_of_ne hi, List.append_nil]

/-- A run of reports. -/
theorem Listener.Inv.run (seg : Fin n → Segmentation) (h : l.Inv ms seen) (more : List (Fin n)) :
    ∃ l', more.foldlM (Listener.receive seg) l = .ok l' ∧ l'.Inv ms (seen ++ more) := by
  induction more generalizing l seen with
  | nil =>
      rw [List.append_nil]
      exact ⟨l, rfl, h⟩
  | cons i more ih =>
      obtain ⟨l₁, hone, h₁⟩ := h.receive seg i
      obtain ⟨l₂, hrest, h₂⟩ := ih h₁
      refine ⟨l₂, ?_, ?_⟩
      · rw [List.foldlM_cons, hone]
        exact hrest
      · rw [List.append_assoc] at h₂
        exact h₂

theorem start_inv (ms : Fin n → List Message) (cmd : Vector Byte RcDataPack.sizeOf)
    (buf : Vector Byte dataProcessSize) :
    Listener.Inv ms [] ⟨fun i => (ms i).flatMap Message.toBytes, fun _ => 0, cmd.toList, buf.toList, []⟩ := by
  refine ⟨fun i => ?_, fun i => ?_, Vector.length_toList, Vector.length_toList⟩
  · rw [readOf, List.count_nil, Nat.zero_min, List.drop_zero]
  · rw [readOf, List.count_nil, Nat.zero_min, List.take_zero]
    rfl

end Run

end Dogee.DataChannel
