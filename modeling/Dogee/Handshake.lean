import Dogee.Checkpoint
import Mathlib.Data.List.Induction

/-!
# The handshake of a cluster

The master says hello to one slave after another: it sends a `MasterInfo`, and a record for each slave
and for each memory server, with the length of the name, the name and the port. A name of more than 254
characters is cut in the vector of the master itself, with a NUL. The slave reads all names into one
buffer, which nobody has initialised, and takes what is there up to the first NUL.

The length is put into 32 bits before it is compared with 255, and so are the two counts.
-/

namespace Dogee.Handshake

open Checkpoint (Byte writeWord readWord writeWords readWords readWord_writeWord readWords_writeWords)

/-! ## What is sent -/

inductive BackendType
  | test
  | chunkMemcached
  | memcached
  deriving DecidableEq, Repr

def BackendType.toWord : BackendType → Word
  | .test => 0
  | .chunkMemcached => 1
  | .memcached => 2

def BackendType.ofWord (w : Word) : Option BackendType :=
  [BackendType.test, .chunkMemcached, .memcached][w.toNat]?

inductive CacheType
  | noCache
  | writeThroughCache
  deriving DecidableEq, Repr

def CacheType.toWord : CacheType → Word
  | .noCache => 0
  | .writeThroughCache => 1

def CacheType.ofWord (w : Word) : Option CacheType := [CacheType.noCache, .writeThroughCache][w.toNat]?

def rcMagicMaster : Word := 0x12335edf

def rcMagicSlave : Word := 0x33950f0e

structure MasterInfo where
  magic : Word
  numMemServer : Word
  numNodes : Word
  nodeId : Word
  localport : Int32
  backty : BackendType
  cachety : CacheType
  checkpoint : Int32
  deriving DecidableEq, Repr

namespace MasterInfo

def toWords (mi : MasterInfo) : List Word :=
  [mi.magic, mi.numMemServer, mi.numNodes, mi.nodeId, mi.localport.toUInt32, mi.backty.toWord,
    mi.cachety.toWord, mi.checkpoint.toUInt32]

def ofWords : List Word → Option MasterInfo
  | [magic, numMemServer, numNodes, nodeId, localport, backty, cachety, checkpoint] => do
      let backty ← BackendType.ofWord backty
      let cachety ← CacheType.ofWord cachety
      return ⟨magic, numMemServer, numNodes, nodeId, localport.toInt32, backty, cachety, checkpoint.toInt32⟩
  | _ => none

theorem ofWords_toWords (mi : MasterInfo) : ofWords mi.toWords = some mi := by
  obtain ⟨magic, numMemServer, numNodes, nodeId, localport, backty, cachety, checkpoint⟩ := mi
  cases backty <;> cases cachety <;> rfl

end MasterInfo

/-- A name and a port. -/
structure Endpoint where
  host : List Byte
  port : Int32
  deriving DecidableEq, Repr

/-- Why a handshake does not come to its end: a return code or the number that is printed, a `recv` that
waits for more, or a step that the language leaves undefined. -/
inductive Failure
  | error (code : Nat)
  | blocked
  | undefined
  deriving DecidableEq, Repr

/-! ## The master -/

/-- The vectors of the master. It is itself the first host. -/
structure Lists where
  master : Endpoint
  slaves : List Endpoint
  memhosts : List Endpoint

def Lists.hosts (l : Lists) : List Endpoint := l.master :: l.slaves

/-- One round of the two loops of `RcMasterHello`: the endpoint that is left in the vectors, and the bytes
that are sent. -/
def sendEndpoint (e : Endpoint) : Endpoint × List Byte :=
  let sendl : Word := UInt32.ofNat (e.host.length + 1)
  let (sendl, host) := if 255 < sendl then ((255 : Word), e.host.set 254 0) else (sendl, e.host)
  (⟨host, e.port⟩,
    writeWord sendl ++ ((host ++ [0]).take sendl.toNat ++ writeWord e.port.toUInt32))

/-- A loop that sends the first `n` endpoints. -/
def sendEndpoints (n : Nat) (es : List Endpoint) : List Endpoint × List Byte :=
  ((es.take n).map (fun e => (sendEndpoint e).1) ++ es.drop n, (es.take n).flatMap fun e => (sendEndpoint e).2)

/-- What one call of `RcMasterHello` is for. -/
structure Hello where
  nodeId : Word
  backty : BackendType
  cachety : CacheType
  checkpoint : Int32
  deriving DecidableEq, Repr

def recvWord (stream : List Byte) : Except Failure (Word × List Byte) :=
  match readWord stream with
  | some r => .ok r
  | none => .error .blocked

/-- `RcMasterHello` on a connection on which `incoming` has been sent. -/
def rcMasterHello (incoming : List Byte) (l : Lists) (hello : Hello) : Except Failure (Lists × List Byte) := do
  let memCnt : Word := UInt32.ofNat l.memhosts.length
  let hostCnt : Word := UInt32.ofNat l.hosts.length
  let (magic, _) ← recvWord incoming
  if magic ≠ rcMagicSlave then
    throw (.error 2)
  let mi : MasterInfo := ⟨rcMagicMaster, memCnt, hostCnt, hello.nodeId, l.master.port, hello.backty,
    hello.cachety, hello.checkpoint⟩
  let (slaves, sent) := sendEndpoints (hostCnt.toNat - 1) l.slaves
  let (memhosts, sentMem) := sendEndpoints memCnt.toNat l.memhosts
  return (⟨l.master, slaves, memhosts⟩, writeWords mi.toWords ++ (sent ++ sentMem))

/-- What a slave sends before anything else. -/
def slaveInfo : List Byte := writeWord rcMagicSlave

/-- One call after another, each on the connection of its own slave. -/
def rcMasterHellos : Lists → List Hello → Except Failure (Lists × List (Hello × List Byte))
  | l, [] => .ok (l, [])
  | l, hello :: rest => do
      let (l, sent) ← rcMasterHello slaveInfo l hello
      let (l, sents) ← rcMasterHellos l rest
      return (l, (hello, sent) :: sents)

/-! ## The slave -/

/-- `RcRecv` of `len` bytes that returns all of them. -/
def recvBytes (len : Nat) (stream : List Byte) : Except Failure (List Byte × List Byte) :=
  if len ≤ stream.length then .ok (stream.take len, stream.drop len) else .error .blocked

def recvMasterInfo (stream : List Byte) : Except Failure (MasterInfo × List Byte) :=
  match readWords 8 stream with
  | none => .error .blocked
  | some (words, stream) =>
      match MasterInfo.ofWords words with
      | some mi => .ok (mi, stream)
      | none => .error .undefined

/-- `RcRecv` into the buffer. -/
def store (buf bytes : List Byte) : Except Failure (List Byte) :=
  match copyWords buf 0 bytes with
  | some buf => .ok buf
  | none => .error .undefined

/-- `std::string(buf)` -/
def cString (buf : List Byte) : Except Failure (List Byte) :=
  if 0 ∈ buf then .ok (buf.takeWhile (· ≠ 0)) else .error .undefined

/-- What one round of the loops of `RcSlave` has read. -/
structure Received where
  len : Word
  host : List Byte
  port : Int32
  deriving DecidableEq, Repr

def Received.endpoint (r : Received) : Endpoint := ⟨r.host, r.port⟩

/-- One round: the record, the buffer and the rest of the stream. -/
def recvEndpoint (buf stream : List Byte) : Except Failure (Received × List Byte × List Byte) := do
  let (len, stream) ← recvWord stream
  if 255 < len then
    throw (.error 6)
  let (bytes, stream) ← recvBytes len.toNat stream
  let buf ← store buf bytes
  let (port, stream) ← recvWord stream
  let host ← cString buf
  return (⟨len, host, port.toInt32⟩, buf, stream)

def recvEndpoints : Nat → List Byte → List Byte → Except Failure (List Received × List Byte × List Byte)
  | 0, buf, stream => .ok ([], buf, stream)
  | n + 1, buf, stream => do
      let (r, buf, stream) ← recvEndpoint buf stream
      let (rs, buf, stream) ← recvEndpoints n buf stream
      return (r :: rs, buf, stream)

/-- What a slave goes on with: it takes the address of the master from its socket. -/
structure Slave where
  info : MasterInfo
  peer : List Byte
  slaves : List Received
  memServers : List Received
  deriving DecidableEq, Repr

namespace Slave

/-- The vectors `hosts` and `ports`. -/
def hosts (s : Slave) : List Endpoint := ⟨s.peer, s.info.localport⟩ :: s.slaves.map Received.endpoint

/-- The vectors `memhosts` and `memports`. -/
def memhosts (s : Slave) : List Endpoint := s.memServers.map Received.endpoint

end Slave

/-- The handshake of `RcSlave`, with `buf` as it is on the stack. -/
def rcSlave (peer buf stream : List Byte) : Except Failure (Slave × List Byte) := do
  let (mi, stream) ← recvMasterInfo stream
  if mi.magic ≠ rcMagicMaster then
    throw (.error 0)
  let (slaves, buf, stream) ← recvEndpoints (mi.numNodes.toNat - 1) buf stream
  let (memServers, _, stream) ← recvEndpoints mi.numMemServer.toNat buf stream
  return (⟨mi, peer, slaves, memServers⟩, stream)

/-! ## Names -/

/-- The length of a name and its terminator is more than 32 bits hold, and what 32 bits hold of it is no
more than 255. -/
def Overlong (host : List Byte) : Prop := 2 ^ 32 ≤ host.length + 1 ∧ (host.length + 1) % 2 ^ 32 ≤ 255

instance (host : List Byte) : Decidable (Overlong host) :=
  inferInstanceAs (Decidable (2 ^ 32 ≤ host.length + 1 ∧ (host.length + 1) % 2 ^ 32 ≤ 255))

/-- The bytes of a name that are sent. -/
def sent (host : List Byte) : List Byte :=
  if Overlong host then host.take ((host.length + 1) % 2 ^ 32) else host.take 254 ++ [0]

/-- The record of a name. -/
def frame (bytes : List Byte) (port : Int32) : List Byte :=
  writeWord (UInt32.ofNat bytes.length) ++ (bytes ++ writeWord port.toUInt32)

section Names

variable {host : List Byte}

theorem sent_overlong (h : Overlong host) : sent host = host.take ((host.length + 1) % 2 ^ 32) := if_pos h

theorem sent_of_not_overlong (h : ¬ Overlong host) : sent host = host.take 254 ++ [0] := if_neg h

theorem length_sent_le (host : List Byte) : (sent host).length ≤ 255 := by
  by_cases h : Overlong host
  · rw [sent_overlong h, List.length_take]
    have hsmall := h.2
    omega
  · rw [sent_of_not_overlong h, List.length_append, List.length_take, List.length_singleton]
    omega

/-- The name as the vector of the master holds it afterwards. -/
def kept (host : List Byte) : List Byte :=
  if 255 < (host.length + 1) % 2 ^ 32 then host.set 254 0 else host

theorem take_set_nul (hlen : 254 < host.length) : (host.set 254 0 ++ [0]).take 255 = host.take 254 ++ [0] := by
  rw [List.take_append_of_le_length (by rw [List.length_set]; omega), List.set_eq_take_append_cons_drop,
    if_pos hlen, List.take_append, List.take_take, List.length_take]
  rw [show min 255 254 = 254 from rfl, show 255 - min 254 host.length = 1 by omega]
  rfl

/-- A name that is cut is sent with the NUL behind its first 254 characters. -/
theorem sent_of_clamp (hclamp : 255 < (host.length + 1) % 2 ^ 32) :
    (host.set 254 0 ++ [0]).take 255 = sent host ∧ (sent host).length = 255 := by
  have hnot : ¬ Overlong host := fun h => absurd h.2 (by omega)
  have hlen : 254 < host.length := by omega
  rw [sent_of_not_overlong hnot, List.length_append, List.length_take, List.length_singleton]
  exact ⟨take_set_nul hlen, by omega⟩

/-- Of any other name as much is sent as 32 bits hold of its length. -/
theorem sent_of_not_clamp (hclamp : ¬ 255 < (host.length + 1) % 2 ^ 32) :
    (host ++ [0]).take ((host.length + 1) % 2 ^ 32) = sent host := by
  by_cases hover : Overlong host
  · rw [sent_overlong hover, List.take_append_of_le_length]
    have hlong := hover.1
    omega
  · have hshort : host.length + 1 ≤ 255 := by
      by_contra hlong
      exact hover ⟨by omega, by omega⟩
    have hlength : (host ++ [0]).length ≤ host.length + 1 := Nat.le_of_eq List.length_append
    rw [sent_of_not_overlong hover, Nat.mod_eq_of_lt (by omega), List.take_of_length_le hlength,
      List.take_of_length_le (by omega)]

/-- A round sends one record, and leaves a name that is cut with a NUL in it. -/
theorem sendEndpoint_eq (e : Endpoint) : sendEndpoint e = (⟨kept e.host, e.port⟩, frame (sent e.host) e.port) := by
  have hword : (UInt32.ofNat (e.host.length + 1)).toNat = (e.host.length + 1) % 2 ^ 32 := UInt32.toNat_ofNat'
  have hlt : 255 < UInt32.ofNat (e.host.length + 1) ↔ 255 < (e.host.length + 1) % 2 ^ 32 := by
    rw [UInt32.lt_iff_toNat_lt, hword]
    rfl
  unfold sendEndpoint kept
  by_cases hclamp : 255 < (e.host.length + 1) % 2 ^ 32
  · obtain ⟨hsent, hlength⟩ := sent_of_clamp hclamp
    have hbytes : (e.host.set 254 0 ++ [0]).take (255 : Word).toNat = sent e.host := hsent
    simp only [if_pos (hlt.mpr hclamp), if_pos hclamp, hbytes]
    rw [frame, hlength]
    rfl
  · have hsent := sent_of_not_clamp hclamp
    have hlength : UInt32.ofNat (e.host.length + 1) = UInt32.ofNat (sent e.host).length := by
      apply UInt32.toNat_inj.mp
      rw [← hsent, List.length_take, hword, UInt32.toNat_ofNat', List.length_append, List.length_singleton]
      omega
    simp only [if_neg (mt hlt.mp hclamp), if_neg hclamp, hword, hsent]
    rw [frame, hlength]

theorem length_kept (host : List Byte) : (kept host).length = host.length := by
  unfold kept
  split
  · exact List.length_set
  · rfl

/-- A name that has been cut is sent as before. -/
theorem sent_kept (host : List Byte) : sent (kept host) = sent host := by
  unfold kept
  split
  · rename_i hclamp
    have hnot : ¬ Overlong host := fun h => absurd h.2 (by omega)
    have hnot' : ¬ Overlong (host.set 254 0) := by
      rw [Overlong, List.length_set]
      exact hnot
    rw [sent_of_not_overlong hnot, sent_of_not_overlong hnot', List.take_set_of_le (Nat.le_refl _)]
  · rfl

end Names

/-! ## The buffer of the slave -/

/-- The buffer after some bytes have been received. -/
def put (buf bytes : List Byte) : List Byte := bytes ++ buf.drop bytes.length

/-- The buffer after some names have been received. -/
def fill (buf : List Byte) (hosts : List (List Byte)) : List Byte :=
  hosts.foldl (fun buf host => put buf (sent host)) buf

/-- The byte that the last of some names has left in place `q` of the buffer. -/
def left (hosts : List (List Byte)) (q : Nat) : Option Byte :=
  (hosts.filter fun host => q < (sent host).length).getLast?.bind fun host => (sent host)[q]?

section Buffer

variable {buf : List Byte}

theorem store_eq {bytes : List Byte} (hlen : bytes.length ≤ buf.length) : store buf bytes = .ok (put buf bytes) := by
  obtain ⟨d, hd, -, hget⟩ := copyWords_spec buf 0 bytes (by omega)
  have hput : d = put buf bytes := by
    apply List.ext_getElem?
    intro q
    rw [hget, put, List.getElem?_append]
    simp only [Nat.zero_le, true_and, Nat.zero_add, Nat.sub_zero]
    split
    · rfl
    · rw [List.getElem?_drop, Nat.add_sub_cancel' (by omega)]
  rw [store, hd, hput]

theorem length_put {bytes : List Byte} (hlen : bytes.length ≤ buf.length) : (put buf bytes).length = buf.length := by
  rw [put, List.length_append, List.length_drop]
  omega

theorem fill_append (hosts : List (List Byte)) (host : List Byte) :
    fill buf (hosts ++ [host]) = put (fill buf hosts) (sent host) := by
  rw [fill, List.foldl_append]
  rfl

theorem length_fill (hbuf : buf.length = 255) (hosts : List (List Byte)) : (fill buf hosts).length = 255 := by
  induction hosts using List.reverseRecOn with
  | nil => exact hbuf
  | append_singleton hosts host ih =>
      rw [fill_append, length_put (by rw [ih]; exact length_sent_le host), ih]

theorem left_append (hosts : List (List Byte)) (host : List Byte) (q : Nat) :
    left (hosts ++ [host]) q = if q < (sent host).length then (sent host)[q]? else left hosts q := by
  unfold left
  rw [List.filter_append]
  split
  · rename_i hq
    rw [List.filter_cons_of_pos (by simpa using hq), List.filter_nil, List.getLast?_concat]
    rfl
  · rename_i hq
    rw [List.filter_cons_of_neg (by simpa using hq), List.filter_nil, List.append_nil]

/-- A place of the buffer holds what the last name to reach it has left there, or what was there before
the first one. -/
theorem getElem?_fill (hosts : List (List Byte)) (q : Nat) :
    (fill buf hosts)[q]? = (left hosts q).or buf[q]? := by
  induction hosts using List.reverseRecOn with
  | nil => rfl
  | append_singleton hosts host ih =>
      rw [fill_append, left_append, put, List.getElem?_append]
      split
      · rename_i hq
        rw [List.getElem?_eq_getElem hq]
        rfl
      · rename_i hq
        rw [List.getElem?_drop, Nat.add_sub_cancel' (by omega), ih]

end Buffer

/-- What is missing of an overlong name, the terminator included, stands in the buffer already: the last
earlier name to reach a place has left the right byte there. -/
def Completed (before : List (List Byte)) (host : List Byte) : Prop :=
  (host.length + 1) % 2 ^ 32 ≤ 254 ∧
    ∀ q < 255, (host.length + 1) % 2 ^ 32 ≤ q → left before q = (host.take 254 ++ [0])[q]?

section Arrival

variable {buf host : List Byte} {before : List (List Byte)}

theorem cString_terminated {tail : List Byte} (hnul : 0 ∉ host) : cString (host ++ 0 :: tail) = .ok host := by
  have hhost : ∀ b ∈ host, decide (b ≠ 0) = true := by
    rintro b hb
    rw [decide_eq_true_eq]
    rintro rfl
    exact hnul hb
  have hmem : (0 : Byte) ∈ host ++ 0 :: tail := List.mem_append_right host List.mem_cons_self
  rw [cString, if_pos hmem, List.takeWhile_append_of_pos hhost, List.takeWhile_cons_of_neg (by decide),
    List.append_nil]

/-- A buffer with room for nothing but a name and its terminator. -/
theorem cString_eq_iff (hbuf : buf.length = host.length + 1) (hnul : 0 ∉ host) :
    cString buf = .ok host ↔ buf = host ++ [0] := by
  constructor
  · intro h
    unfold cString at h
    split at h
    · rename_i hmem
      have hhost : buf.takeWhile (· ≠ 0) = host := Except.ok.inj h
      have hsplit : buf.takeWhile (· ≠ 0) ++ buf.dropWhile (· ≠ 0) = buf := List.takeWhile_append_dropWhile
      rw [hhost] at hsplit
      have hlen : (buf.dropWhile (· ≠ 0)).length = 1 := by
        rw [← hsplit, List.length_append] at hbuf
        omega
      obtain ⟨b, hb⟩ := List.length_eq_one_iff.mp hlen
      have hhead := List.head?_dropWhile_not (fun b : Byte => decide (b ≠ 0)) buf
      rw [hb] at hhead
      have hzero : b = 0 := by simpa using hhead
      rw [← hsplit, hb, hzero]
    · cases h
  · rintro rfl
    exact cString_terminated hnul

theorem length_take_overlong (h : Overlong host) : (host.take 254).length = 254 := by
  have hlong := h.1
  rw [List.length_take]
  omega

theorem notMem_take {n : Nat} (hnul : 0 ∉ host) : 0 ∉ host.take n := fun hmem => hnul (List.mem_of_mem_take hmem)

/-- The buffer after an overlong name, place by place. -/
theorem getElem?_put_overlong (h : Overlong host) (q : Nat) :
    (put (fill buf before) (sent host))[q]? =
      if q < (host.length + 1) % 2 ^ 32 then host[q]? else (left before q).or buf[q]? := by
  have hlen : (host.take ((host.length + 1) % 2 ^ 32)).length = (host.length + 1) % 2 ^ 32 := by
    have hlong := h.1
    have hshort := h.2
    rw [List.length_take]
    omega
  rw [sent_overlong h, put, List.getElem?_append, hlen]
  split
  · rename_i hq
    rw [List.getElem?_take_of_lt hq]
  · rw [List.getElem?_drop, Nat.add_sub_cancel' (by omega), getElem?_fill]

/-- The byte expected in a place. -/
theorem getElem?_expected (h : Overlong host) {q : Nat} (hq : q < 254) :
    (host.take 254 ++ [0])[q]? = host[q]? := by
  rw [List.getElem?_append_left (by rw [length_take_overlong h]; exact hq), List.getElem?_take_of_lt hq]

theorem length_expected (h : Overlong host) : (host.take 254 ++ [0]).length = 255 := by
  rw [List.length_append, length_take_overlong h, List.length_singleton]

theorem length_put_fill (hbuf : buf.length = 255) (host : List Byte) :
    (put (fill buf before) (sent host)).length = 255 := by
  rw [length_put (by rw [length_fill hbuf]; exact length_sent_le host), length_fill hbuf]

theorem add_one_ne (b : Byte) : b + 1 ≠ b := by
  intro hb
  have hb' := congrArg UInt8.toNat hb
  rw [UInt8.toNat_add] at hb'
  have hlt := b.toNat_lt
  have hone : (1 : Byte).toNat = 1 := rfl
  omega

/-- What is right in the buffer of a slave whatever stood there at first has been left by a name. -/
theorem completed_of_put (h : Overlong host) (hnul : 0 ∉ host)
    (hput : ∀ buf : List Byte, buf.length = 255 → put (fill buf before) (sent host) = host.take 254 ++ [0]) :
    Completed before host := by
  have hlong := h.1
  have hshort := h.2
  have hget : ∀ buf : List Byte, buf.length = 255 → ∀ q,
      (if q < (host.length + 1) % 2 ^ 32 then host[q]? else (left before q).or buf[q]?) =
        (host.take 254 ++ [0])[q]? := by
    intro buf hbuf q
    rw [← getElem?_put_overlong h, hput buf hbuf]
  refine ⟨?_, fun q hq hk => ?_⟩
  · by_contra hfull
    have hlast := hget (List.replicate 255 0) List.length_replicate 254
    rw [if_pos (by omega), List.getElem?_append_right (by rw [length_take_overlong h]),
      length_take_overlong h] at hlast
    exact hnul (List.mem_of_getElem? hlast)
  · -- were nothing left there, some byte in the buffer would be the wrong one
    have hexpected : q < (host.take 254 ++ [0]).length := by
      rw [length_expected h]
      exact hq
    have hq' := hget (List.replicate 255 ((host.take 254 ++ [0])[q] + 1)) List.length_replicate q
    rw [if_neg (by omega), List.getElem?_replicate_of_lt hq, List.getElem?_eq_getElem hexpected] at hq'
    rw [List.getElem?_eq_getElem hexpected]
    cases hleft : left before q with
    | some b =>
        rw [hleft] at hq'
        exact hq'
    | none =>
        rw [hleft] at hq'
        exact absurd (Option.some.inj hq') (add_one_ne _)

theorem put_of_completed (h : Overlong host) (hcompleted : Completed before host) (hbuf : buf.length = 255) :
    put (fill buf before) (sent host) = host.take 254 ++ [0] := by
  obtain ⟨hk, hleft⟩ := hcompleted
  have hexpected := length_expected h
  have hplaces := @length_put_fill buf before hbuf host
  apply List.ext_getElem?
  intro q
  by_cases hq : q < 255
  · rw [getElem?_put_overlong h]
    split
    · rw [getElem?_expected h (by omega)]
    · rw [hleft q hq (by omega), List.getElem?_eq_getElem (by rw [hexpected]; exact hq)]
      rfl
  · rw [List.getElem?_eq_none (by omega), List.getElem?_eq_none (by omega)]

theorem cString_overlong_iff (h : Overlong host) (hnul : 0 ∉ host) (hbuf : buf.length = 255) :
    cString (put (fill buf before) (sent host)) = .ok (host.take 254) ↔
      put (fill buf before) (sent host) = host.take 254 ++ [0] := by
  apply cString_eq_iff _ (notMem_take hnul)
  rw [length_put_fill hbuf, length_take_overlong h]

/-- A name arrives, whatever stood in the buffer at first. -/
theorem forall_cString_iff (hnul : 0 ∉ host) :
    (∀ buf : List Byte, buf.length = 255 → cString (put (fill buf before) (sent host)) = .ok (host.take 254)) ↔
      (Overlong host → Completed before host) := by
  by_cases hover : Overlong host
  · constructor
    · intro harrives _
      apply completed_of_put hover hnul
      intro buf hbuf
      exact (cString_overlong_iff hover hnul hbuf).mp (harrives buf hbuf)
    · intro hcompleted buf hbuf
      exact (cString_overlong_iff hover hnul hbuf).mpr (put_of_completed hover (hcompleted hover) hbuf)
  · constructor
    · intro _ h
      exact absurd h hover
    · intro _ buf _
      rw [sent_of_not_overlong hover, put, List.append_assoc]
      exact cString_terminated (notMem_take hnul)

end Arrival

/-! ## The records of one slave -/

/-- A name and a port as a slave is to have them. -/
def Endpoint.cut (e : Endpoint) : Endpoint := ⟨e.host.take 254, e.port⟩

/-- What the slave makes of the records of some endpoints. -/
def heard : List Byte → List Endpoint → Except Failure (List Received)
  | _, [] => .ok []
  | buf, e :: es => do
      let host ← cString (put buf (sent e.host))
      let rs ← heard (put buf (sent e.host)) es
      return ⟨UInt32.ofNat (sent e.host).length, host, e.port⟩ :: rs

/-- Each name that is overlong is completed by those before it. -/
def NamesFit : List (List Byte) → List Endpoint → Prop
  | _, [] => True
  | before, e :: es => (Overlong e.host → Completed before e.host) ∧ NamesFit (before ++ [e.host]) es

/-- The bytes of the records. -/
def wire (es : List Endpoint) : List Byte := es.flatMap fun e => frame (sent e.host) e.port

section Records

variable {buf stream : List Byte} {before : List (List Byte)} {es : List Endpoint}

@[simp] theorem ok_bind {α β : Type} (a : α) (f : α → Except Failure β) : (Except.ok a >>= f) = f a := rfl

@[simp] theorem error_bind {α β : Type} (r : Failure) (f : α → Except Failure β) :
    (Except.error r >>= f) = .error r := rfl

/-- A step that comes to its end after another one. -/
theorem of_bind_eq_ok {α β : Type} {x : Except Failure α} {f : α → Except Failure β} {b : β}
    (h : (x >>= f) = .ok b) : ∃ a, x = .ok a ∧ f a = .ok b := by
  cases x with
  | error r => cases h
  | ok a => exact ⟨a, rfl, h⟩

theorem recvWord_writeWord (w : Word) (stream : List Byte) : recvWord (writeWord w ++ stream) = .ok (w, stream) := by
  rw [recvWord, readWord_writeWord]

theorem recvBytes_append (bytes stream : List Byte) :
    recvBytes bytes.length (bytes ++ stream) = .ok (bytes, stream) := by
  rw [recvBytes, if_pos (by rw [List.length_append]; omega), List.take_left, List.drop_left]

/-- One record. -/
theorem recvEndpoint_frame (hbuf : buf.length = 255) (e : Endpoint) (stream : List Byte) :
    recvEndpoint buf (frame (sent e.host) e.port ++ stream) = do
      let host ← cString (put buf (sent e.host))
      return (⟨UInt32.ofNat (sent e.host).length, host, e.port⟩, put buf (sent e.host), stream) := by
  have hle := length_sent_le e.host
  have hlen : (UInt32.ofNat (sent e.host).length).toNat = (sent e.host).length := by
    rw [UInt32.toNat_ofNat']
    omega
  have hsmall : ¬ 255 < UInt32.ofNat (sent e.host).length := by
    rw [UInt32.lt_iff_toNat_lt, hlen]
    exact Nat.not_lt.mpr hle
  rw [recvEndpoint, frame, List.append_assoc, List.append_assoc, recvWord_writeWord, ok_bind]
  simp only [if_neg hsmall, hlen, recvBytes_append, store_eq (Nat.le_trans hle (Nat.le_of_eq hbuf.symm)),
    recvWord_writeWord, ok_bind]
  rfl

theorem recvEndpoints_wire (hbuf : buf.length = 255) (es : List Endpoint) (stream : List Byte) :
    recvEndpoints es.length buf (wire es ++ stream) = do
      let rs ← heard buf es
      return (rs, fill buf (es.map Endpoint.host), stream) := by
  induction es generalizing buf with
  | nil => rfl
  | cons e es ih =>
      have hput : (put buf (sent e.host)).length = 255 := by
        rw [length_put (by rw [hbuf]; exact length_sent_le e.host), hbuf]
      have hwire : wire (e :: es) ++ stream = frame (sent e.host) e.port ++ (wire es ++ stream) := by
        rw [wire, List.flatMap_cons, List.append_assoc]
        rfl
      rw [List.length_cons, recvEndpoints, hwire, recvEndpoint_frame hbuf, heard]
      cases cString (put buf (sent e.host)) with
      | error r => rfl
      | ok host =>
          simp only [ok_bind, pure_bind, ih hput]
          cases heard (put buf (sent e.host)) es with
          | error r => rfl
          | ok rs => rfl

/-- A record as it should arrive. -/
def arrived (e : Endpoint) : Received := ⟨UInt32.ofNat (sent e.host).length, e.host.take 254, e.port⟩

theorem endpoint_arrived (e : Endpoint) : (arrived e).endpoint = e.cut := rfl

theorem len_arrived_le (e : Endpoint) : (arrived e).len ≤ 255 := by
  have hlen := length_sent_le e.host
  rw [UInt32.le_iff_toNat_le, arrived, UInt32.toNat_ofNat']
  exact Nat.le_trans (Nat.mod_le _ _) hlen

theorem heard_cons_iff {e : Endpoint} :
    heard buf (e :: es) = .ok ((e :: es).map arrived) ↔
      cString (put buf (sent e.host)) = .ok (e.host.take 254) ∧
        heard (put buf (sent e.host)) es = .ok (es.map arrived) := by
  rw [heard, List.map_cons]
  constructor
  · intro h
    obtain ⟨host, hhost, h⟩ := of_bind_eq_ok h
    obtain ⟨rs, hrest, h⟩ := of_bind_eq_ok h
    obtain ⟨hfirst, hrs⟩ := List.cons.inj (Except.ok.inj h)
    rw [hhost, hrest, hrs]
    exact ⟨congrArg Except.ok (congrArg Received.host hfirst), rfl⟩
  · rintro ⟨hhost, hrest⟩
    rw [hhost, hrest]
    rfl

/-- The records arrive, whatever stood in the buffer at first, just when the overlong names are
completed. -/
theorem forall_heard_iff (hnul : ∀ e ∈ es, 0 ∉ e.host) :
    (∀ buf : List Byte, buf.length = 255 → heard (fill buf before) es = .ok (es.map arrived)) ↔
      NamesFit before es := by
  induction es generalizing before with
  | nil => exact iff_of_true (fun _ _ => rfl) trivial
  | cons e es ih =>
      rw [NamesFit, ← forall_cString_iff (hnul e List.mem_cons_self),
        ← ih fun e' he' => hnul e' (List.mem_cons_of_mem e he'), ← forall₂_and]
      refine forall₂_congr fun buf _ => ?_
      rw [heard_cons_iff, fill_append]

/-- Names and ports that are right come in records that are right. -/
theorem heard_eq_arrived {rs : List Received} (h : heard buf es = .ok rs)
    (hcut : rs.map Received.endpoint = es.map Endpoint.cut) : rs = es.map arrived := by
  induction es generalizing buf rs with
  | nil => exact List.map_eq_nil_iff.mp hcut
  | cons e es ih =>
      rw [heard] at h
      obtain ⟨host, -, h⟩ := of_bind_eq_ok h
      obtain ⟨rs', hrest, h⟩ := of_bind_eq_ok h
      cases h
      obtain ⟨hfirst, hcut'⟩ := List.cons.inj hcut
      have hname : host = e.host.take 254 := congrArg Endpoint.host hfirst
      rw [ih hrest hcut', hname]
      rfl

theorem namesFit_append (es' : List Endpoint) :
    NamesFit before (es ++ es') ↔ NamesFit before es ∧ NamesFit (before ++ es.map Endpoint.host) es' := by
  induction es generalizing before with
  | nil => rw [List.nil_append, NamesFit, List.map_nil, List.append_nil, true_and]
  | cons e es ih =>
      rw [List.cons_append, NamesFit, ih, NamesFit, List.map_cons, List.append_assoc, and_assoc]
      rfl

theorem namesFit_of_short (h : ∀ e ∈ es, e.host.length + 1 < 2 ^ 32) : NamesFit before es := by
  induction es generalizing before with
  | nil => trivial
  | cons e es ih =>
      refine ⟨fun hover => ?_, ih fun e' he' => h e' (List.mem_cons_of_mem e he')⟩
      have hshort := h e List.mem_cons_self
      exact absurd hover.1 (by omega)

end Records

/-! ## The whole handshake -/

/-- What the master tells a slave first. -/
def Lists.masterInfo (l : Lists) (hello : Hello) : MasterInfo :=
  ⟨rcMagicMaster, UInt32.ofNat l.memhosts.length, UInt32.ofNat l.hosts.length, hello.nodeId, l.master.port,
    hello.backty, hello.cachety, hello.checkpoint⟩

/-- All that the master sends to a slave. -/
def Lists.stream (l : Lists) (hello : Hello) : List Byte :=
  writeWords (l.masterInfo hello).toWords ++ (wire l.slaves ++ wire l.memhosts)

/-- An endpoint in the vectors of the master after a call. -/
def Endpoint.keep (e : Endpoint) : Endpoint := ⟨kept e.host, e.port⟩

/-- The vectors of the master after a call. -/
def Lists.keep (l : Lists) : Lists := ⟨l.master, l.slaves.map Endpoint.keep, l.memhosts.map Endpoint.keep⟩

/-- The counts fit in 32 bits. -/
structure Lists.Counted (l : Lists) : Prop where
  hosts : l.hosts.length < 2 ^ 32
  memhosts : l.memhosts.length < 2 ^ 32

section Whole

variable {l : Lists} {hello : Hello}

theorem toNat_hostCnt (h : l.Counted) : (UInt32.ofNat l.hosts.length).toNat = l.hosts.length := by
  rw [UInt32.toNat_ofNat', Nat.mod_eq_of_lt h.hosts]

theorem toNat_memCnt (h : l.Counted) : (UInt32.ofNat l.memhosts.length).toNat = l.memhosts.length := by
  rw [UInt32.toNat_ofNat', Nat.mod_eq_of_lt h.memhosts]

theorem length_slaves (l : Lists) : l.hosts.length - 1 = l.slaves.length := rfl

theorem sendEndpoints_all (es : List Endpoint) :
    sendEndpoints es.length es = (es.map Endpoint.keep, wire es) := by
  rw [sendEndpoints, List.take_length, List.drop_length, List.append_nil, wire]
  simp only [sendEndpoint_eq]
  rfl

theorem wire_keep (es : List Endpoint) : wire (es.map Endpoint.keep) = wire es := by
  rw [wire, List.flatMap_map]
  simp only [Endpoint.keep, sent_kept]
  rfl

theorem stream_keep (l : Lists) (hello : Hello) : l.keep.stream hello = l.stream hello := by
  rw [Lists.stream, Lists.stream, Lists.masterInfo, Lists.masterInfo, Lists.keep, Lists.hosts, Lists.hosts]
  simp only [wire_keep, List.length_cons, List.length_map]

theorem Lists.Counted.keep (h : l.Counted) : l.keep.Counted := by
  constructor
  · rw [Lists.hosts, Lists.keep, List.length_cons, List.length_map]
    exact h.hosts
  · rw [Lists.keep, List.length_map]
    exact h.memhosts

/-- One call. -/
theorem rcMasterHello_eq (h : l.Counted) (hello : Hello) :
    rcMasterHello slaveInfo l hello = .ok (l.keep, l.stream hello) := by
  have hmagic : recvWord slaveInfo = .ok (rcMagicSlave, []) := by
    rw [slaveInfo, ← List.append_nil (writeWord rcMagicSlave), recvWord_writeWord]
  rw [rcMasterHello, hmagic]
  simp only [ok_bind, ne_eq, not_true_eq_false, if_false, toNat_hostCnt h, toNat_memCnt h, length_slaves,
    sendEndpoints_all]
  rfl

/-- All slaves are sent the same records, whatever a call has done to the vectors. -/
theorem rcMasterHellos_eq (h : l.Counted) (hellos : List Hello) :
    ∃ l', rcMasterHellos l hellos = .ok (l', hellos.map fun hello => (hello, l.stream hello)) := by
  induction hellos generalizing l with
  | nil => exact ⟨l, rfl⟩
  | cons hello hellos ih =>
      obtain ⟨l', hrest⟩ := ih h.keep
      refine ⟨l', ?_⟩
      rw [rcMasterHellos, rcMasterHello_eq h hello, ok_bind]
      simp only [hrest, stream_keep]
      rfl

theorem recvMasterInfo_toWords (mi : MasterInfo) (stream : List Byte) :
    recvMasterInfo (writeWords mi.toWords ++ stream) = .ok (mi, stream) := by
  have hread : readWords 8 (writeWords mi.toWords ++ stream) = some (mi.toWords, stream) :=
    readWords_writeWords mi.toWords stream
  rw [recvMasterInfo, hread]
  simp only [MasterInfo.ofWords_toWords]

/-- What a slave makes of what it is sent. -/
theorem rcSlave_stream (h : l.Counted) (hello : Hello) (peer : List Byte) {buf : List Byte}
    (hbuf : buf.length = 255) (rest : List Byte) :
    rcSlave peer buf (l.stream hello ++ rest) = do
      let slaves ← heard buf l.slaves
      let memServers ← heard (fill buf (l.slaves.map Endpoint.host)) l.memhosts
      return (⟨l.masterInfo hello, peer, slaves, memServers⟩, rest) := by
  have hmagic : (l.masterInfo hello).magic = rcMagicMaster := rfl
  have hslaves : (l.masterInfo hello).numNodes.toNat - 1 = l.slaves.length :=
    congrArg (· - 1) (toNat_hostCnt h)
  have hmem : (l.masterInfo hello).numMemServer.toNat = l.memhosts.length := toNat_memCnt h
  have hfill := length_fill hbuf (l.slaves.map Endpoint.host)
  rw [rcSlave, Lists.stream, List.append_assoc, List.append_assoc, recvMasterInfo_toWords, ok_bind]
  simp only [hmagic, ne_eq, not_true_eq_false, if_false, hslaves, hmem, recvEndpoints_wire hbuf]
  cases heard buf l.slaves with
  | error r => rfl
  | ok slaves =>
      simp only [pure_bind, ok_bind, recvEndpoints_wire hfill]
      cases heard (fill buf (l.slaves.map Endpoint.host)) l.memhosts with
      | error r => rfl
      | ok memServers => rfl

theorem length_recvEndpoints {n : Nat} {buf stream : List Byte} {r : List Received × List Byte × List Byte}
    (h : recvEndpoints n buf stream = .ok r) : r.1.length = n := by
  induction n generalizing buf stream r with
  | zero =>
      cases h
      rfl
  | succ n ih =>
      rw [recvEndpoints] at h
      obtain ⟨⟨first, buf₁, stream₁⟩, -, h⟩ := of_bind_eq_ok h
      obtain ⟨⟨rest, buf₂, stream₂⟩, hrest, h⟩ := of_bind_eq_ok h
      cases h
      exact congrArg (· + 1) (ih hrest)

/-- A slave has as many memory servers as it was told. -/
theorem length_memServers {peer buf stream rest : List Byte} {s : Slave}
    (h : rcSlave peer buf stream = .ok (s, rest)) : s.memServers.length = s.info.numMemServer.toNat := by
  rw [rcSlave] at h
  obtain ⟨⟨mi, stream₁⟩, -, h⟩ := of_bind_eq_ok h
  by_cases hmagic : mi.magic ≠ rcMagicMaster
  · simp only [if_pos hmagic] at h
    cases h
  · simp only [if_neg hmagic] at h
    obtain ⟨⟨slaves, buf₂, stream₂⟩, -, h⟩ := of_bind_eq_ok h
    obtain ⟨⟨memServers, buf₃, stream₃⟩, hmem, h⟩ := of_bind_eq_ok h
    cases h
    exact length_recvEndpoints hmem

end Whole

/-! ## The round trip -/

/-- What a slave has after the handshake is what the master has, with names cut to 254 characters. -/
structure Agrees (l : Lists) (hello : Hello) (s : Slave) : Prop where
  nodeId : s.info.nodeId = hello.nodeId
  numNodes : s.info.numNodes.toNat = l.hosts.length
  backty : s.info.backty = hello.backty
  cachety : s.info.cachety = hello.cachety
  checkpoint : s.info.checkpoint = hello.checkpoint
  ports : s.hosts.map Endpoint.port = l.hosts.map Endpoint.port
  slaves : s.hosts.tail = l.slaves.map Endpoint.cut
  memhosts : s.memhosts = l.memhosts.map Endpoint.cut
  lens : ∀ r ∈ s.slaves ++ s.memServers, r.len ≤ 255

/-- Whatever slaves the master says hello to one after the other, each of them reads the same as the
master has, whatever stood in its buffer and whatever comes behind, which is left in its socket. -/
def RoundTrip (l : Lists) : Prop :=
  ∀ hellos : List Hello, ∃ l' sents, rcMasterHellos l hellos = .ok (l', sents) ∧ sents.map Prod.fst = hellos ∧
    ∀ hello ∈ sents, ∀ peer buf rest : List Byte, buf.length = 255 →
      ∃ s, rcSlave peer buf (hello.2 ++ rest) = .ok (s, rest) ∧ Agrees l hello.1 s

/-- The counts fit in 32 bits, and overlong names are completed by the names before them. -/
structure Sendable (l : Lists) : Prop where
  counted : l.Counted
  names : NamesFit [] (l.slaves ++ l.memhosts)

section RoundTrip

variable {l : Lists}

theorem Sendable.roundTrip (h : Sendable l) (hnul : ∀ e ∈ l.slaves ++ l.memhosts, 0 ∉ e.host) : RoundTrip l := by
  intro hellos
  obtain ⟨l', hsends⟩ := rcMasterHellos_eq h.counted hellos
  refine ⟨l', _, hsends, ?_, ?_⟩
  · rw [List.map_map]
    exact List.map_id hellos
  · intro hello hmem peer buf rest hbuf
    obtain ⟨hello, -, rfl⟩ := List.mem_map.mp hmem
    obtain ⟨hslaves, hmemhosts⟩ := namesFit_append l.memhosts |>.mp h.names
    have hheard := (forall_heard_iff fun e he => hnul e (List.mem_append_left _ he)).mpr hslaves buf hbuf
    have hheardMem := (forall_heard_iff fun e he => hnul e (List.mem_append_right _ he)).mpr hmemhosts buf hbuf
    rw [List.nil_append] at hheardMem
    refine ⟨⟨l.masterInfo hello, peer, l.slaves.map arrived, l.memhosts.map arrived⟩, ?_, ?_⟩
    · rw [rcSlave_stream h.counted hello peer hbuf, show heard buf l.slaves = _ from hheard, ok_bind, hheardMem]
      rfl
    · have hcut : ∀ es : List Endpoint, (es.map arrived).map Received.endpoint = es.map Endpoint.cut :=
        fun es => List.map_map
      refine ⟨rfl, toNat_hostCnt h.counted, rfl, rfl, rfl, ?_, hcut _, hcut _, ?_⟩
      · rw [Slave.hosts, hcut, List.map_cons, List.map_map]
        rfl
      · intro r hr
        rw [← List.map_append] at hr
        obtain ⟨e, -, rfl⟩ := List.mem_map.mp hr
        exact len_arrived_le e

/-- A hello to a slave. -/
def someHello : Hello := ⟨1, .test, .noCache, 0⟩

theorem RoundTrip.counted (h : RoundTrip l) : l.Counted := by
  obtain ⟨l', sents, -, hfst, hslave⟩ := h [someHello]
  obtain ⟨hello, rfl, -⟩ := List.map_eq_singleton_iff.mp hfst
  obtain ⟨s, hs, hagrees⟩ := hslave hello List.mem_cons_self [] (List.replicate 255 0) [] List.length_replicate
  have hmem : s.memServers.length = l.memhosts.length := by
    have hlen := congrArg List.length hagrees.memhosts
    rwa [Slave.memhosts, List.length_map, List.length_map] at hlen
  constructor
  · rw [← hagrees.numNodes]
    exact UInt32.toNat_lt _
  · rw [← hmem, length_memServers hs]
    exact UInt32.toNat_lt _

theorem RoundTrip.sendable (h : RoundTrip l) (hnul : ∀ e ∈ l.slaves ++ l.memhosts, 0 ∉ e.host) : Sendable l := by
  have hcounted := h.counted
  obtain ⟨l', sents, hsends, -, hslave⟩ := h [someHello]
  obtain ⟨l'', hsends'⟩ := rcMasterHellos_eq hcounted [someHello]
  rw [hsends'] at hsends
  cases hsends
  have hheard : ∀ buf : List Byte, buf.length = 255 →
      heard buf l.slaves = .ok (l.slaves.map arrived) ∧
        heard (fill buf (l.slaves.map Endpoint.host)) l.memhosts = .ok (l.memhosts.map arrived) := by
    intro buf hbuf
    obtain ⟨s, hs, hagrees⟩ := hslave (someHello, l.stream someHello) List.mem_cons_self [] buf [] hbuf
    rw [rcSlave_stream hcounted someHello [] hbuf] at hs
    obtain ⟨slaves, hslaves, hs⟩ := of_bind_eq_ok hs
    obtain ⟨memServers, hmem, hs⟩ := of_bind_eq_ok hs
    cases hs
    rw [hslaves, hmem, heard_eq_arrived hslaves hagrees.slaves, heard_eq_arrived hmem hagrees.memhosts]
    exact ⟨rfl, rfl⟩
  refine ⟨hcounted, (namesFit_append l.memhosts).mpr ⟨?_, ?_⟩⟩
  · exact (forall_heard_iff fun e he => hnul e (List.mem_append_left _ he)).mp fun buf hbuf => (hheard buf hbuf).1
  · exact (forall_heard_iff fun e he => hnul e (List.mem_append_right _ he)).mp fun buf hbuf => (hheard buf hbuf).2

/-- The handshake is a round trip just when the counts fit in 32 bits and no name of the master is so long
that what 32 bits hold of its length is wrong but no more than 255, unless what is missing of that name
has been left in the buffer by the names before it. -/
theorem handshake_roundTrip_iff (l : Lists) (hnul : ∀ e ∈ l.slaves ++ l.memhosts, 0 ∉ e.host) :
    RoundTrip l ↔ Sendable l :=
  ⟨fun h => h.sendable hnul, fun h => h.roundTrip hnul⟩

/-- Two slaves, one of them with a name of 300 characters, and a memory server. -/
theorem handshake_roundTrip_of_long_name :
    RoundTrip
      ⟨⟨[], 9090⟩, [⟨[104, 49], 18080⟩, ⟨List.replicate 300 104, 18081⟩], [⟨[109, 49], 11211⟩]⟩ := by
  refine (handshake_roundTrip_iff _ (by decide +kernel)).mpr ⟨⟨by decide, by decide⟩, namesFit_of_short ?_⟩
  decide +kernel

/-- Nothing has been left in the buffer for the first name. -/
theorem not_completed_nil {host : List Byte} (h : Overlong host) : ¬ Completed [] host := by
  rintro ⟨hk, hleft⟩
  have hlast := hleft 254 (by decide) (by omega)
  rw [List.getElem?_append_right (by rw [length_take_overlong h]), length_take_overlong h] at hlast
  cases hlast

theorem not_roundTrip_of_overlong {master e : Endpoint} {slaves memhosts : List Endpoint} (h : Overlong e.host)
    (hnul : ∀ e' ∈ (e :: slaves) ++ memhosts, 0 ∉ e'.host) : ¬ RoundTrip ⟨master, e :: slaves, memhosts⟩ :=
  fun hround => not_completed_nil h ((hround.sendable hnul).names.1 h)

/-- The length of a name of `2 ^ 32 - 1` characters and its terminator is 0 in 32 bits. -/
theorem overlong_replicate (b : Byte) : Overlong (List.replicate (2 ^ 32 - 1) b) := by
  rw [Overlong, List.length_replicate]
  decide

/-- A slave whose name has `2 ^ 32 - 1` characters, none of them NUL: nothing of the name is sent. -/
theorem handshake_fails_on_overlong_name :
    (∀ e ∈ [(⟨List.replicate (2 ^ 32 - 1) 104, 18080⟩ : Endpoint)], 0 ∉ e.host) ∧
      ¬ RoundTrip ⟨⟨[], 9090⟩, [⟨List.replicate (2 ^ 32 - 1) 104, 18080⟩], []⟩ := by
  have hnul : ∀ e ∈ [(⟨List.replicate (2 ^ 32 - 1) 104, 18080⟩ : Endpoint)], 0 ∉ e.host := by
    intro e he hmem
    rw [List.mem_singleton.mp he] at hmem
    exact absurd (List.eq_of_mem_replicate hmem) (by decide)
  exact ⟨hnul, not_roundTrip_of_overlong (overlong_replicate 104) hnul⟩

end RoundTrip

end Dogee.Handshake
