import Dogee.Serializer
import Dogee.SyncManager
import Dogee.Transition

/-!
# The map phase on a cluster

`DMapReduce::Map` deals the pairs of a map to the nodes. It packs pairs into a buffer and gives the
buffer to its own node when it is its turn, and else to each node whose socket is ready. A node
decodes what it gets and calls `DoMap` for each pair. At the end every node gets a message with the
id of the calling thread, and reports to node 0; when all have reported, node 0 wakes the thread.

The accumulator has one user and an empty output array. Connections are first in, first out;
`acAccumulateMsg` runs under a lock, so it is one step. `took`, `finished` and the pairs of a packet
only record what has happened.
-/

namespace Dogee.MapReduce

open Checkpoint (Byte)
open Serializer
open SyncManager (SyncThreadNode)

/-- A call of `Map` by a thread of node `self`. `inMap` lists the map in the order of its iterator. -/
structure Config where
  numNodes : Nat
  self : Nat
  placed : self < numNodes
  threadId : Nat
  id_ne_zero : threadId ≠ 0
  keyTy : Ty
  valueTy : Ty
  inMap : List (keyTy.Val × valueTy.Val)
  nodup : (inMap.map Prod.fst).Nodup
  ndebug : Bool

namespace Config

abbrev Pair (cfg : Config) : Type := cfg.keyTy.Val × cfg.valueTy.Val

/-- The words of a pair, `size_to_add`. -/
def size (cfg : Config) (p : cfg.Pair) : Nat :=
  cfg.keyTy.serializer.getSize p.1 + cfg.valueTy.serializer.getSize p.2

/-- No string in the pair has a zero byte. -/
def noNul (cfg : Config) (p : cfg.Pair) : Bool := cfg.keyTy.noNul p.1 && cfg.valueTy.noNul p.2

/-- The pair as `DoMap` sees it. -/
def shown (cfg : Config) (p : cfg.Pair) : cfg.Pair := (cfg.keyTy.shown p.1, cfg.valueTy.shown p.2)

/-- The thread that calls `Map`. -/
def caller (cfg : Config) : SyncThreadNode := ⟨cfg.self, cfg.threadId⟩

end Config

section Buffers

variable (cfg : Config)

/-- Write a pair at the word `idx`; the result also has the index after it. -/
def writePair (p : cfg.Pair) (idx : Nat) (mybuf : List Byte) : List Byte × Nat :=
  let r := cfg.keyTy.serializer.serialize p.1 (mybuf.drop (4 * idx))
  let mybuf := mybuf.take (4 * idx) ++ r.1
  let idx := idx + r.2
  let r := cfg.valueTy.serializer.serialize p.2 (mybuf.drop (4 * idx))
  (mybuf.take (4 * idx) ++ r.1, idx + r.2)

/-- The loop of `PrepareBuf`: the pairs that are left, the words written and the buffer. -/
def prepareLoop : List cfg.Pair → Nat → Nat → List Byte → List cfg.Pair × Nat × List Byte
  | [], _, idx, mybuf => ([], idx, mybuf)
  | p :: itr, elements, idx, mybuf =>
      if idx < bufLen then
        if idx + cfg.size p ≤ bufLen then
          let r := writePair cfg p idx mybuf
          if cfg.inMap.length % two32 / cfg.numNodes + 1 ≤ elements + 1 then (itr, r.2, r.1)
          else prepareLoop itr (elements + 1) r.2 r.1
        else (p :: itr, idx, mybuf)
      else (p :: itr, idx, mybuf)

/-- `PrepareBuf`. -/
def prepareBuf (itr : List cfg.Pair) (mybuf : List Byte) : List cfg.Pair × Nat × List Byte :=
  prepareLoop cfg itr 0 0 mybuf

/-- `DecodeKeyValue`: the pair and the words read. -/
def decodeKeyValue (buf : List Byte) (len : Nat) : Option (cfg.Pair × Nat) := do
  let (key, mylen) ← cfg.keyTy.serializer.deserialize cfg.ndebug buf
  if cfg.ndebug ∨ mylen < len then
    let (value, vlen) ← cfg.valueTy.serializer.deserialize cfg.ndebug (buf.drop (4 * mylen))
    if cfg.ndebug ∨ mylen + vlen ≤ len then
      return ((key, value), mylen + vlen)
    else none
  else none

/-- The loop of `BaseDoAccumulateDense` over `len` words: the pairs given to `DoMap`. A pair takes at
least a word, so that the fuel is not spent before the words are. -/
def accumulateLoop : Nat → List Byte → Nat → Option (List cfg.Pair)
  | _, _, 0 => some []
  | 0, _, _ + 1 => none
  | fuel + 1, buf, len + 1 => do
      let (p, readlen) ← decodeKeyValue cfg buf (len + 1)
      let ps ← accumulateLoop fuel (buf.drop (4 * readlen)) (len + 1 - readlen)
      return p :: ps

/-- `BaseDoAccumulateDense`. -/
def baseDoAccumulateDense (data : List Byte) : Option (List cfg.Pair) :=
  accumulateLoop cfg (data.length / 4) data (data.length / 4)

end Buffers

/-- `DataSyncNode`, with the calls of `DoMap`, the pairs of the packets that the node has handled, and
whether it has handled the last one. -/
structure DataSyncNode (cfg : Config) where
  doneNodeCnt : Nat
  val : Nat
  waitlist : List SyncThreadNode
  ran : List cfg.Pair
  took : List cfg.Pair
  finished : Bool

/-- `param12`, the data, and the pairs that it is made of. -/
structure Packet (cfg : Config) where
  threadId : Nat
  data : List Byte
  pairs : List cfg.Pair

inductive Message (cfg : Config)
  | accumulate (p : Packet cfg)
  | partialDone

/-- Where the caller is: before `Map`, before `has_more`, in the loop over the ready sockets, in the
loop of the last messages, waiting for its event, and back. -/
inductive Phase
  | idle
  | loop
  | pass (ready : Nat → Bool) (i : Nat)
  | last (i : Nat)
  | waiting
  | returned

structure State (cfg : Config) where
  phase : Phase
  itr : List cfg.Pair
  turns : BitVec 32
  nodes : Nat → DataSyncNode cfg
  channel : Nat → Nat → List (Message cfg)
  wakes : Nat → List Nat
  event : SyncThreadNode → Bool
  aborted : Bool

namespace State

variable {cfg : Config}

def setNode (s : State cfg) (i : Nat) (node : DataSyncNode cfg) : State cfg :=
  { s with nodes := Function.update s.nodes i node }

def setChannel (s : State cfg) (src dst : Nat) (msgs : List (Message cfg)) : State cfg :=
  { s with channel := Function.update s.channel src (Function.update (s.channel src) dst msgs) }

def send (s : State cfg) (src dst : Nat) (m : Message cfg) : State cfg :=
  s.setChannel src dst (s.channel src dst ++ [m])

/-- `RcWakeRemoteThread` on the master. -/
def rcWakeRemoteThread (s : State cfg) (th : SyncThreadNode) : State cfg :=
  if th.machine = 0 then { s with event := Function.update s.event th true }
  else { s with wakes := Function.update s.wakes th.machine (s.wakes th.machine ++ [th.threadId]) }

end State

section Step

variable (cfg : Config)

/-- `num_users` -/
def numUsers : Nat := 1

/-- `AcAccumulatePartialDoneMsg` on the master. -/
def acAccumulatePartialDoneMsg (s : State cfg) : State cfg :=
  let node := { s.nodes 0 with doneNodeCnt := (s.nodes 0).doneNodeCnt + 1 }
  if cfg.numNodes ≤ node.doneNodeCnt then
    (node.waitlist.foldl State.rcWakeRemoteThread s).setNode 0
      { node with doneNodeCnt := 0, waitlist := [] }
  else s.setNode 0 node

/-- `DoMap` for the pairs of a packet. -/
def doMaps (node : DataSyncNode cfg) (p : Packet cfg) : Option (DataSyncNode cfg) :=
  if p.data = [] then some { node with took := node.took ++ p.pairs }
  else (baseDoAccumulateDense cfg p.data).map fun ps =>
    { node with
      ran := node.ran ++ ps
      took := node.took ++ p.pairs }

/-- The last message of the caller at node `self`. -/
def arrive (node : DataSyncNode cfg) (self src threadId : Nat) : DataSyncNode cfg :=
  { node with
    val := node.val + 1
    waitlist := if self = 0 then node.waitlist ++ [⟨src, threadId⟩] else node.waitlist
    finished := true }

/-- `AcAccumulateMsg` at node `self`. -/
def acAccumulateMsg (s : State cfg) (self src : Nat) (p : Packet cfg) : Option (State cfg) := do
  let node ← doMaps cfg (s.nodes self) p
  if p.threadId = 0 then
    return s.setNode self node
  else
    let node := arrive cfg node self src p.threadId
    if numUsers ≤ node.val then
      let s := s.setNode self { node with val := 0 }
      return if self = 0 then acAccumulatePartialDoneMsg cfg s else s.send self 0 .partialDone
    else
      return s.setNode self node

/-- A failed assertion. -/
def orAbort (s : State cfg) : Option (State cfg) → State cfg
  | some s' => s'
  | none => { s with aborted := true }

/-- `PrepareBuf` in a turn of `_Map`: the packet and the caller after it. -/
def prepare (s : State cfg) (mybuf : List Byte) : Packet cfg × State cfg :=
  let r := prepareBuf cfg s.itr mybuf
  (⟨0, r.2.2.take (4 * r.2.1), s.itr.take (s.itr.length - r.1.length)⟩,
    { s with itr := r.1, turns := s.turns + 1 })

/-- The message that ends the map phase. -/
def lastPacket : Packet cfg := ⟨cfg.threadId, [], []⟩

/-- A step of the caller. `mybuf` is what earlier turns have left in the buffer, `ready` the outcome of
`select`, which waits for a socket. -/
def advance (s : State cfg) (mybuf : List Byte) (ready : Nat → Bool) : Option (State cfg) :=
  match s.phase with
  | .idle => some { s with phase := .loop, event := Function.update s.event cfg.caller false }
  | .loop =>
      if s.itr = [] then some { s with phase := .last 0 }
      else if s.turns.toInt.tmod cfg.numNodes = cfg.self then
        let r := prepare cfg s mybuf
        some (orAbort cfg r.2 (acAccumulateMsg cfg r.2 cfg.self cfg.self r.1))
      else if ∃ i < cfg.numNodes, i ≠ cfg.self ∧ ready i then some { s with phase := .pass ready 0 }
      else none
  | .pass ready i =>
      if i < cfg.numNodes then
        if i ≠ cfg.self ∧ ready i then
          let r := prepare cfg s mybuf
          some { r.2.send cfg.self i (.accumulate r.1) with phase := .pass ready (i + 1) }
        else some { s with phase := .pass ready (i + 1) }
      else some { s with phase := .loop }
  | .last i =>
      if i < cfg.numNodes then
        let s := { s with phase := .last (i + 1) }
        if i = cfg.self then
          some (orAbort cfg s (acAccumulateMsg cfg s cfg.self cfg.self (lastPacket cfg)))
        else some (s.send cfg.self i (.accumulate (lastPacket cfg)))
      else some { s with phase := .waiting }
  | .waiting => if s.event cfg.caller then some { s with phase := .returned } else none
  | .returned => none

/-- A node handles a message from another one. -/
def receive (s : State cfg) (src dst : Nat) : Message cfg → State cfg
  | .accumulate p =>
      if 4 * bufLen < p.data.length then { s with aborted := true }
      else orAbort cfg s (acAccumulateMsg cfg s dst src p)
  | .partialDone => if dst = 0 then acAccumulatePartialDoneMsg cfg s else s

inductive Act
  | advance (mybuf : List Byte) (ready : Nat → Bool)
  | deliver (src dst : Nat)
  | wake (machine : Nat)

def step (s : State cfg) (a : Act) : Option (State cfg) :=
  if s.aborted then none
  else match a with
    | .advance mybuf ready => if mybuf.length = 4 * bufLen then advance cfg s mybuf ready else none
    | .deliver src dst =>
        match s.channel src dst with
        | [] => none
        | m :: rest => some (receive cfg (s.setChannel src dst rest) src dst m)
    | .wake machine =>
        match s.wakes machine with
        | [] => none
        | threadId :: rest =>
            some { s with
              wakes := Function.update s.wakes machine rest
              event := Function.update s.event ⟨machine, threadId⟩ true }

/-- Before the call; the events may be left from earlier calls. -/
def start (event : SyncThreadNode → Bool) : State cfg where
  phase := .idle
  itr := cfg.inMap
  turns := 0
  nodes _ := ⟨0, 0, [], [], [], false⟩
  channel _ _ := []
  wakes _ := []
  event := event
  aborted := false

/-- The calls of `DoMap` on all nodes. -/
def State.allRan {cfg : Config} (s : State cfg) : List cfg.Pair :=
  (List.range cfg.numNodes).flatMap fun i => (s.nodes i).ran

/-- Every run comes to an end with the return of `Map`, and then the calls of `DoMap` on all nodes
together are the pairs of the map, each once. -/
def MapsExactlyOnce : Prop :=
  ∀ event, ∃ bound, ∀ as s, Transition.run (step cfg) (start cfg event) as = some s →
    as.length ≤ bound ∧ ((∀ a, step cfg s a = none) → s.phase = .returned) ∧
      (s.phase = .returned → s.allRan.Perm cfg.inMap)

end Step

/-! ## What a buffer holds -/

section Holds

variable {cfg : Config}

/-- The bytes are those of the pair: decoding gives the pair as `DoMap` sees it, and goes through
unless an assertion meets a zero byte. -/
def HoldsPair (cfg : Config) (p : cfg.Pair) (bytes : List Byte) : Prop :=
  bytes.length = 4 * cfg.size p ∧ ∀ rest len r, cfg.size p ≤ len →
    (decodeKeyValue cfg (bytes ++ rest) len = some r ↔
      r = (cfg.shown p, cfg.size p) ∧ (cfg.ndebug = true ∨ cfg.noNul p = true))

/-- The bytes are those of the pairs, one after the other. -/
inductive HoldsPairs (cfg : Config) : List cfg.Pair → List Byte → Prop
  | nil : HoldsPairs cfg [] []
  | cons {p : cfg.Pair} {ps : List cfg.Pair} {bytes rest : List Byte} (hp : HoldsPair cfg p bytes)
      (hps : HoldsPairs cfg ps rest) : HoldsPairs cfg (p :: ps) (bytes ++ rest)

theorem Config.size_pos (p : cfg.Pair) : 1 ≤ cfg.size p :=
  Nat.le_trans (cfg.keyTy.lawful.size_pos p.1) (Nat.le_add_right ..)

theorem HoldsPairs.concat {ps : List cfg.Pair} {p : cfg.Pair} {bytes bytes' : List Byte}
    (h : HoldsPairs cfg ps bytes) (hp : HoldsPair cfg p bytes') :
    HoldsPairs cfg (ps ++ [p]) (bytes ++ bytes') := by
  induction h with
  | nil =>
      rw [List.nil_append, List.nil_append, ← List.append_nil bytes']
      exact HoldsPairs.cons hp HoldsPairs.nil
  | cons hq _ ih =>
      rw [List.append_assoc]
      exact HoldsPairs.cons hq ih

theorem HoldsPairs.length {ps : List cfg.Pair} {bytes : List Byte} (h : HoldsPairs cfg ps bytes) :
    bytes.length = 4 * (ps.map cfg.size).sum := by
  induction h with
  | nil => rfl
  | cons hp _ ih => rw [List.length_append, hp.1, ih, List.map_cons, List.sum_cons, Nat.mul_add]

/-- The loop over the words of some pairs decodes them. -/
theorem HoldsPairs.accumulateLoop {ps : List cfg.Pair} {bytes : List Byte} (h : HoldsPairs cfg ps bytes)
    {fuel : Nat} (hfuel : (ps.map cfg.size).sum ≤ fuel) (out : List cfg.Pair) :
    accumulateLoop cfg fuel bytes (ps.map cfg.size).sum = some out ↔
      out = ps.map cfg.shown ∧ (cfg.ndebug = true ∨ ps.all cfg.noNul = true) := by
  induction h generalizing fuel out with
  | nil =>
      have hnil : MapReduce.accumulateLoop cfg fuel [] 0 = some [] := by cases fuel <;> rfl
      rw [List.map_nil, List.sum_nil, hnil, Option.some.injEq]
      exact ⟨fun h => ⟨h.symm, Or.inr rfl⟩, fun h => h.1.symm⟩
  | @cons p ps bytes rest hp hps ih =>
      rw [List.map_cons, List.sum_cons] at hfuel ⊢
      have hpos := cfg.size_pos p
      obtain ⟨fuel, rfl⟩ : ∃ f, fuel = f + 1 := ⟨fuel - 1, by omega⟩
      obtain ⟨len, hlen⟩ : ∃ l, cfg.size p + (ps.map cfg.size).sum = l + 1 :=
        ⟨cfg.size p + (ps.map cfg.size).sum - 1, by omega⟩
      have hdrop : (bytes ++ rest).drop (4 * cfg.size p) = rest := by
        rw [← hp.1, List.drop_left]
      have hsub : len + 1 - cfg.size p = (ps.map cfg.size).sum := by omega
      rw [hlen, MapReduce.accumulateLoop]
      simp only [Option.bind_eq_bind, Option.bind_eq_some_iff, Option.pure_def, Option.some.injEq,
        hp.2 rest (len + 1) _ (by omega)]
      constructor
      · rintro ⟨_, ⟨rfl, hclean⟩, out', hout', rfl⟩
        rw [hdrop, hsub] at hout'
        obtain ⟨rfl, hclean'⟩ := (ih (by omega) out').mp hout'
        refine ⟨rfl, ?_⟩
        rw [List.all_cons, Bool.and_eq_true]
        exact or_and_left.mpr ⟨hclean, hclean'⟩
      · rintro ⟨rfl, hclean⟩
        rw [List.all_cons, Bool.and_eq_true] at hclean
        refine ⟨_, ⟨rfl, hclean.imp_right And.left⟩, ps.map cfg.shown, ?_, rfl⟩
        rw [hdrop, hsub]
        exact (ih (by omega) _).mpr ⟨rfl, hclean.imp_right And.right⟩

/-- What the nodes make of the bytes of some pairs. -/
theorem HoldsPairs.decode {ps : List cfg.Pair} {bytes : List Byte} (h : HoldsPairs cfg ps bytes)
    (out : List cfg.Pair) : baseDoAccumulateDense cfg bytes = some out ↔
      out = ps.map cfg.shown ∧ (cfg.ndebug = true ∨ ps.all cfg.noNul = true) := by
  have hlen : bytes.length / 4 = (ps.map cfg.size).sum := by
    rw [h.length, Nat.mul_div_cancel_left _ (by decide)]
  rw [baseDoAccumulateDense, hlen]
  exact h.accumulateLoop (Nat.le_refl _) out

/-- The bytes of a key and of a value make up those of the pair. -/
theorem holdsPair_append {p : cfg.Pair} {kb vb : List Byte}
    (hk : Holds cfg.keyTy.serializer cfg.keyTy.noNul cfg.keyTy.shown p.1 kb)
    (hv : Holds cfg.valueTy.serializer cfg.valueTy.noNul cfg.valueTy.shown p.2 vb) :
    HoldsPair cfg p (kb ++ vb) := by
  constructor
  · rw [List.length_append, hk.1, hv.1, Config.size, Nat.mul_add]
  · intro rest len r hlen
    have hpos := cfg.valueTy.lawful.size_pos p.2
    rw [Config.size] at hlen
    have hdrop : (kb ++ (vb ++ rest)).drop (4 * cfg.keyTy.serializer.getSize p.1) = vb ++ rest := by
      rw [← hk.1, List.drop_left]
    rw [decodeKeyValue, List.append_assoc]
    simp only [Option.bind_eq_bind, Option.bind_eq_some_iff, hk.2, Config.noNul, Bool.and_eq_true]
    constructor
    · rintro ⟨_, ⟨rfl, hclean⟩, hr⟩
      simp only [hdrop] at hr
      rw [if_pos (Or.inr (by omega))] at hr
      obtain ⟨_, hx, hr⟩ := Option.bind_eq_some_iff.mp hr
      obtain ⟨rfl, hclean'⟩ := (hv.2 _ _ _).mp hx
      rw [if_pos (Or.inr hlen)] at hr
      exact ⟨(Option.some.inj hr).symm, or_and_left.mpr ⟨hclean, hclean'⟩⟩
    · rintro ⟨rfl, hclean⟩
      refine ⟨_, ⟨rfl, hclean.imp_right And.left⟩, ?_⟩
      simp only [hdrop]
      rw [if_pos (Or.inr (by omega)), Option.bind_eq_some_iff]
      refine ⟨_, (hv.2 _ _ _).mpr ⟨rfl, hclean.imp_right And.right⟩, ?_⟩
      rw [if_pos (Or.inr hlen)]
      rfl

/-- `writePair` puts the bytes of the pair after the words that are there. -/
theorem writePair_spec {p : cfg.Pair} {idx : Nat} {mybuf : List Byte} (hbuf : mybuf.length = 4 * bufLen)
    (hfits : idx + cfg.size p ≤ bufLen) :
    ∃ bytes, HoldsPair cfg p bytes ∧ writePair cfg p idx mybuf =
      (mybuf.take (4 * idx) ++ (bytes ++ mybuf.drop (4 * (idx + cfg.size p))), idx + cfg.size p) := by
  rw [Config.size] at hfits ⊢
  have hlen : (mybuf.drop (4 * idx)).length = 4 * bufLen - 4 * idx := by rw [List.length_drop, hbuf]
  obtain ⟨kb, hkey, hk⟩ := cfg.keyTy.lawful.writes p.1 (mybuf.drop (4 * idx)) (by omega) (by omega)
  have hfront : (mybuf.take (4 * idx) ++ kb).length = 4 * (idx + cfg.keyTy.serializer.getSize p.1) := by
    rw [List.length_append, List.length_take, hk.1, hbuf]
    omega
  have hlen' : (mybuf.drop (4 * (idx + cfg.keyTy.serializer.getSize p.1))).length =
      4 * bufLen - 4 * (idx + cfg.keyTy.serializer.getSize p.1) := by
    rw [List.length_drop, hbuf]
  obtain ⟨vb, hvalue, hv⟩ := cfg.valueTy.lawful.writes p.2
    (mybuf.drop (4 * (idx + cfg.keyTy.serializer.getSize p.1))) (by omega) (by omega)
  refine ⟨kb ++ vb, holdsPair_append hk hv, ?_⟩
  rw [writePair]
  simp only [hkey, List.drop_drop, ← Nat.mul_add]
  rw [← List.append_assoc, ← hfront, List.drop_left, List.take_left, hfront, hvalue, List.drop_drop]
  simp only [List.append_assoc, Nat.mul_add, Nat.add_assoc]

/-- The loop of `PrepareBuf` continues a buffer that holds the pairs `done`. -/
theorem prepareLoop_spec (itr : List cfg.Pair) (elements : Nat) {idx : Nat} {mybuf : List Byte}
    {done : List cfg.Pair} (hbuf : mybuf.length = 4 * bufLen) (hidx : idx ≤ bufLen)
    (hdone : HoldsPairs cfg done (mybuf.take (4 * idx))) :
    ∃ ps rest idx' mybuf', prepareLoop cfg itr elements idx mybuf = (rest, idx', mybuf') ∧
      itr = ps ++ rest ∧ idx' ≤ bufLen ∧ HoldsPairs cfg (done ++ ps) (mybuf'.take (4 * idx')) ∧
      ((∃ p ∈ itr.head?, idx < bufLen ∧ idx + cfg.size p ≤ bufLen) → ps ≠ []) := by
  induction itr generalizing elements idx mybuf done with
  | nil =>
      refine ⟨[], [], idx, mybuf, rfl, rfl, hidx, ?_, fun ⟨p, hp, _⟩ => by cases hp⟩
      rwa [List.append_nil]
  | cons p itr ih =>
      rw [prepareLoop]
      by_cases hroom : idx < bufLen ∧ idx + cfg.size p ≤ bufLen
      · obtain ⟨bytes, hp, hwrite⟩ := writePair_spec hbuf hroom.2
        have hfront : (mybuf.take (4 * idx) ++ bytes).length = 4 * (idx + cfg.size p) := by
          rw [List.length_append, List.length_take, hp.1, hbuf]
          omega
        have hbuf' : (mybuf.take (4 * idx) ++ (bytes ++ mybuf.drop (4 * (idx + cfg.size p)))).length =
            4 * bufLen := by
          rw [← List.append_assoc, List.length_append, hfront, List.length_drop, hbuf]
          omega
        have hdone' : HoldsPairs cfg (done ++ [p])
            ((mybuf.take (4 * idx) ++ (bytes ++ mybuf.drop (4 * (idx + cfg.size p)))).take
              (4 * (idx + cfg.size p))) := by
          rw [← List.append_assoc, ← hfront, List.take_left]
          exact hdone.concat hp
        rw [if_pos hroom.1, if_pos hroom.2, hwrite]
        dsimp only
        split
        · exact ⟨[p], itr, _, _, rfl, rfl, hroom.2, hdone', fun _ => List.cons_ne_nil _ _⟩
        · obtain ⟨ps, rest, idx', mybuf', hloop, hitr, hidx', hholds, -⟩ := ih (elements + 1) hbuf' hroom.2 hdone'
          refine ⟨p :: ps, rest, idx', mybuf', hloop, ?_, hidx', ?_, fun _ => List.cons_ne_nil _ _⟩
          · rw [hitr]
            rfl
          · rwa [List.append_assoc] at hholds
      · have hstop : (if idx < bufLen then
            if idx + cfg.size p ≤ bufLen then
              let r := writePair cfg p idx mybuf
              if cfg.inMap.length % two32 / cfg.numNodes + 1 ≤ elements + 1 then (itr, r.2, r.1)
              else prepareLoop cfg itr (elements + 1) r.2 r.1
            else (p :: itr, idx, mybuf)
          else (p :: itr, idx, mybuf)) = (p :: itr, idx, mybuf) := by
          split
          · split
            · exact absurd ⟨‹_›, ‹_›⟩ hroom
            · rfl
          · rfl
        refine ⟨[], p :: itr, idx, mybuf, hstop, rfl, hidx, ?_, fun ⟨q, hq, hroom'⟩ => ?_⟩
        · rwa [List.append_nil]
        · obtain rfl : p = q := Option.some.inj hq
          exact absurd hroom' hroom

/-- What `PrepareBuf` takes from the iterator is in the buffer, and it takes something while there is
something to take. -/
theorem prepareBuf_spec {itr : List cfg.Pair} {mybuf : List Byte} (hbuf : mybuf.length = 4 * bufLen)
    (hfit : ∀ p ∈ itr, cfg.size p ≤ bufLen) :
    ∃ ps rest idx mybuf', prepareBuf cfg itr mybuf = (rest, idx, mybuf') ∧ itr = ps ++ rest ∧
      idx ≤ bufLen ∧ HoldsPairs cfg ps (mybuf'.take (4 * idx)) ∧ (itr ≠ [] → ps ≠ []) := by
  have hnone : HoldsPairs cfg [] (mybuf.take (4 * 0)) := by
    rw [Nat.mul_zero, List.take_zero]
    exact HoldsPairs.nil
  obtain ⟨ps, rest, idx, mybuf', hloop, hitr, hidx, hholds, hsome⟩ :=
    prepareLoop_spec itr 0 hbuf (Nat.zero_le _) hnone
  refine ⟨ps, rest, idx, mybuf', hloop, hitr, hidx, hholds, fun hne => hsome ?_⟩
  obtain ⟨p, itr', rfl⟩ := List.exists_cons_of_ne_nil hne
  refine ⟨p, rfl, by decide, ?_⟩
  rw [Nat.zero_add]
  exact hfit p List.mem_cons_self

/-- A packet as the caller builds it. -/
structure Packet.Good (p : Packet cfg) : Prop where
  holds : HoldsPairs cfg p.pairs p.data
  small : p.data.length ≤ 4 * bufLen

/-- A turn of the caller takes pairs from the front of what is left. -/
theorem prepare_spec {s : State cfg} {mybuf : List Byte} (hbuf : mybuf.length = 4 * bufLen)
    (hfit : ∀ p ∈ s.itr, cfg.size p ≤ bufLen) :
    ∃ ps rest data, prepare cfg s mybuf = (⟨0, data, ps⟩, { s with itr := rest, turns := s.turns + 1 }) ∧
      s.itr = ps ++ rest ∧ (⟨0, data, ps⟩ : Packet cfg).Good ∧ (s.itr ≠ [] → ps ≠ []) := by
  obtain ⟨ps, rest, idx, mybuf', hprep, hitr, hidx, hholds, hsome⟩ := prepareBuf_spec hbuf hfit
  refine ⟨ps, rest, mybuf'.take (4 * idx), ?_, hitr, ⟨hholds, ?_⟩, hsome⟩
  · have htake : s.itr.take (s.itr.length - rest.length) = ps := by
      rw [hitr, List.length_append, Nat.add_sub_cancel, List.take_left]
    rw [prepare, hprep]
    dsimp only
    rw [htake]
  · apply Nat.le_trans (List.length_take_le _ _)
    omega

theorem HoldsPairs.eq_nil {ps : List cfg.Pair} (h : HoldsPairs cfg ps []) : ps = [] := by
  have hlen := h.length
  cases ps with
  | nil => rfl
  | cons p ps =>
      have hpos := cfg.size_pos p
      rw [List.map_cons, List.sum_cons, List.length_nil] at hlen
      omega

/-- What `DoMap` is called for. -/
theorem doMaps_eq_some_iff {node node' : DataSyncNode cfg} {p : Packet cfg} (hp : p.Good) :
    doMaps cfg node p = some node' ↔
      node' = { node with ran := node.ran ++ p.pairs.map cfg.shown, took := node.took ++ p.pairs } ∧
        (cfg.ndebug = true ∨ p.pairs.all cfg.noNul = true) := by
  rw [doMaps]
  split
  · rename_i hdata
    have hnil : p.pairs = [] := HoldsPairs.eq_nil (hdata ▸ hp.holds)
    simp only [hnil, List.map_nil, List.append_nil, List.all_nil, or_true, and_true, Option.some.injEq]
    exact eq_comm
  · simp only [Option.map_eq_some_iff, hp.holds.decode]
    constructor
    · rintro ⟨_, ⟨rfl, hclean⟩, rfl⟩
      exact ⟨rfl, hclean⟩
    · rintro ⟨rfl, hclean⟩
      exact ⟨_, ⟨rfl, hclean⟩, rfl⟩

end Holds

end Dogee.MapReduce
