import Dogee.AccumulatorPacket

/-!
# The sum of an accumulator

The invariant follows every packet of the current round from the thread that sends
it to the buffer that takes it up. A buffer holds the sum of the packets it has taken
up, so a node that has taken up everything writes the sum of the users' vectors, and
the output array is the element-wise sum when the last node has written.
-/

namespace Dogee.Accumulator

open SyncManager (SyncThreadNode)
open Transition

variable {T : Type} [AddCommGroup T] [LinearOrder T]

/-! ## The invariant of the sums -/

section Sums

variable {acc : AddAccumulator T} {s : State T} {u : SyncThreadNode}

/-- The arithmetic of the segments does not wrap. -/
def Fits (cfg : Config T) : Prop := cfg.sz = 0 ∨ cfg.numNodes < 2 ^ 27

theorem AddAccumulator.dsmSizeOf_pos (acc : AddAccumulator T) : 0 < acc.dsmSizeOf := by
  rcases acc.size_of with h | h <;> omega

/-- The segment of a node is the one that the senders know. -/
theorem node_segment (hfits : Fits acc.toConfig) {i : Nat} (hi : i < acc.numNodes) :
    nodeBase acc.sz acc.numNodes i = acc.start i ∧
    nodeBase acc.sz acc.numNodes i + nodeSize acc.sz acc.numNodes i =
      max (acc.start i) (acc.stop i) := by
  refine ⟨nodeBase_eq .., ?_⟩
  rcases hfits with hzero | hsmall
  · have hB : segmentBlocks 0 acc.numNodes = 0 := by
      simp [segmentBlocks, ceilDiv]
    simp [Config.start, Config.stop, hzero, segmentStart, segmentEnd, nodeBase, nodeSize, hB]
  · exact nodeBase_add_nodeSize acc.sz_le hsmall hi

/-- What a thread has sent a node lies in the node's segment. -/
theorem Sending.gives {th : Thread} {outs : List (Output T)} (h : Sending acc.toConfig u th outs)
    {i : Nat} (hi : i < acc.numNodes) :
    ∃ b ≤ max (acc.start i) (acc.stop i),
      Gives acc.dsmSizeOf (acc.input u th.round) (acc.start i) (packetsTo i outs) b := by
  have hserved : Served acc.toConfig u th.round i (packetsTo i outs) →
      ∃ b ≤ max (acc.start i) (acc.stop i),
        Gives acc.dsmSizeOf (acc.input u th.round) (acc.start i) (packetsTo i outs) b :=
    fun hs => ⟨_, Nat.le_refl _, hs.1⟩
  have hscan : ∀ k, Scanned acc.toConfig u k th outs →
      ∃ b ≤ max (acc.start i) (acc.stop i),
        Gives acc.dsmSizeOf (acc.input u th.round) (acc.start i) (packetsTo i outs) b := by
    intro k hs
    by_cases hc : i < k ∧ acc.stop i ≤ acc.start i ∧ i ≠ u.machine
    · exact hserved (hs.served i hc.1 hc.2.1 hc.2.2)
    · rw [hs.unsent i hc]
      exact ⟨acc.start i, Nat.le_max_left _ _, rfl⟩
  have hloop : Looping acc.toConfig u th outs →
      ∃ b ≤ max (acc.start i) (acc.stop i),
        Gives acc.dsmSizeOf (acc.input u th.round) (acc.start i) (packetsTo i outs) b := by
    intro hl
    by_cases hself : i = u.machine
    · apply hserved
      rw [hself]
      exact hl.own
    · rcases hl.others i hi hself with hs | hway
      · exact hserved hs.2
      · exact ⟨th.sendIdx i, Nat.le_trans (Nat.le_of_lt hway.lt) (Nat.le_max_right _ _), hway.gives⟩
  rw [Sending] at h
  split at h
  · exact h.elim
  · exact hscan _ h.2
  · exact hscan _ h
  · exact hloop h
  · exact hloop h.2
  · exact hloop h.1

/-- The nodes' buffers and the output array, given what each thread has sent in its
call, what each node has added to its buffer, and what a node has in hand. -/
structure Sums (acc : AddAccumulator T) (s : State T) (sent : SyncThreadNode → List (Output T))
    (got hand : Nat → SyncThreadNode → List (Packet T)) : Prop where
  base : ∀ i < acc.numNodes, (s.nodes i).base = nodeBase acc.sz acc.numNodes i
  size : ∀ i < acc.numNodes, (s.nodes i).size = nodeSize acc.sz acc.numNodes i
  sending : ∀ u ∈ acc.users, (s.threads u).round = s.released + 1 →
    Sending acc.toConfig u (s.threads u) (sent u)
  fresh : ∀ u ∈ acc.users, (s.threads u).round = s.released → sent u = []
  flow : ∀ u ∈ acc.users, ∀ i < acc.numNodes,
    packetsTo i (sent u) = got i u ++ hand i u ++ (s.inFlight u i).map Prod.fst
  length_buf : ∀ i < acc.numNodes,
    (s.nodes i).buf.length = nodeSize acc.sz acc.numNodes i / acc.dsmSizeOf
  buf : ∀ i < acc.numNodes, s.wrote i = s.released →
    ∀ j < nodeSize acc.sz acc.numNodes i / acc.dsmSizeOf, (s.nodes i).buf.getD j 0 =
      (acc.users.map fun u => ((got i u).map fun p =>
        p.part acc.dsmSizeOf (nodeBase acc.sz acc.numNodes i / acc.dsmSizeOf + j)).sum).sum
  clear : ∀ i < acc.numNodes, s.wrote i = s.released + 1 → ∀ j, (s.nodes i).buf.getD j 0 = 0
  out : ∀ i < acc.numNodes, ∀ r, s.wrote i = r + 1 →
    ∀ j < nodeSize acc.sz acc.numNodes i / acc.dsmSizeOf,
      s.out (nodeBase acc.sz acc.numNodes i / acc.dsmSizeOf + j) =
        (acc.users.map fun u => (acc.input u (r + 1)).getD
          (nodeBase acc.sz acc.numNodes i / acc.dsmSizeOf + j) 0).sum

/-- Nothing is in hand. -/
def noHand : Nat → SyncThreadNode → List (Packet T) := fun _ _ => []

/-- One packet is in hand. -/
def inHand (i : Nat) (u : SyncThreadNode) (p : Packet T) : Nat → SyncThreadNode → List (Packet T) :=
  fun j v => if j = i ∧ v = u then [p] else []

variable {sent : SyncThreadNode → List (Output T)} {got hand : Nat → SyncThreadNode → List (Packet T)}

theorem sums_start (acc : AddAccumulator T) (out : Nat → T) :
    Sums acc (start acc.toConfig out) (fun _ => []) (fun _ _ => []) noHand := by
  have hsz := acc.sz_le
  have hsize : ∀ i, ((start acc.toConfig out).nodes i).size = nodeSize acc.sz acc.numNodes i := by
    intro i
    simp [start, initDataNode, hsz]
  have hbuf : ∀ i, ((start acc.toConfig out).nodes i).buf =
      List.replicate (nodeSize acc.sz acc.numNodes i / acc.dsmSizeOf) 0 := by
    intro i
    simp [start, initDataNode, hsz]
  constructor
  · intro i _
    simp [start, initDataNode, hsz]
  · exact fun i _ => hsize i
  · intro u _ h
    cases h
  · exact fun _ _ _ => rfl
  · exact fun _ _ _ _ => rfl
  · intro i _
    rw [hbuf, List.length_replicate]
  · intro i _ _ j _
    rw [hbuf]
    simp [List.getD_eq_getElem?_getD, List.getElem?_replicate]
    split <;> rfl
  · intro i _ h
    cases h
  · intro i _ r h
    cases h

/-- A change to one thread and to what it has in flight. -/
theorem Sums.setThread (h : Sums acc s sent got hand) (hu : u ∈ acc.users) {s' : State T}
    {th : Thread} (outs : List (Output T)) (hand' : Nat → SyncThreadNode → List (Packet T))
    (hthreads : s'.threads = Function.update s.threads u th) (hnodes : s'.nodes = s.nodes)
    (hout : s'.out = s.out) (hreleased : s'.released = s.released)
    (hother : ∀ v, v ≠ u → ∀ i, s'.inFlight v i = s.inFlight v i ∧ hand' i v = hand i v)
    (hsending : th.round = s.released + 1 → Sending acc.toConfig u th outs)
    (hfresh : th.round = s.released → outs = [])
    (hflow : ∀ i < acc.numNodes,
      packetsTo i outs = got i u ++ hand' i u ++ (s'.inFlight u i).map Prod.fst) :
    Sums acc s' (Function.update sent u outs) got hand' := by
  have hwrote : ∀ i, s'.wrote i = s.wrote i := fun i => by
    rw [State.wrote, State.wrote, hnodes]
  constructor
  · rw [hnodes]
    exact h.base
  · rw [hnodes]
    exact h.size
  · intro v hv
    rw [hthreads, hreleased]
    by_cases hvu : v = u
    · subst hvu
      simp only [Function.update_self]
      exact hsending
    · simp only [Function.update_of_ne hvu]
      exact h.sending v hv
  · intro v hv
    rw [hthreads, hreleased]
    by_cases hvu : v = u
    · subst hvu
      simp only [Function.update_self]
      exact hfresh
    · simp only [Function.update_of_ne hvu]
      exact h.fresh v hv
  · intro v hv i hi
    by_cases hvu : v = u
    · subst hvu
      simp only [Function.update_self]
      exact hflow i hi
    · rw [Function.update_of_ne hvu, (hother v hvu i).1, (hother v hvu i).2]
      exact h.flow v hv i hi
  · rw [hnodes]
    exact h.length_buf
  · intro i hi
    rw [hnodes, hwrote, hreleased]
    exact h.buf i hi
  · intro i hi
    rw [hnodes, hwrote, hreleased]
    exact h.clear i hi
  · intro i hi r
    rw [hout, hwrote]
    exact h.out i hi r

/-- A change to one connection. -/
theorem Sums.setChannel (h : Sums acc s sent got hand) {src dst : Nat} {msgs : List (Message T)}
    {hand' : Nat → SyncThreadNode → List (Packet T)}
    (hflow : ∀ v ∈ acc.users, v.machine = src → dst < acc.numNodes →
      hand' dst v ++ (packetsOf v msgs).map Prod.fst =
        hand dst v ++ (s.inFlight v dst).map Prod.fst)
    (hother : ∀ v i, ¬(v.machine = src ∧ i = dst) → hand' i v = hand i v) :
    Sums acc (s.setChannel src dst msgs) sent got hand' := by
  refine { h with flow := ?_ }
  intro v hv i hi
  rw [h.flow v hv i hi, List.append_assoc, List.append_assoc]
  congr 1
  by_cases hvi : v.machine = src ∧ i = dst
  · obtain ⟨hsrc, rfl⟩ := hvi
    rw [← hflow v hv hsrc hi, State.inFlight, hsrc]
    simp [State.setChannel]
  · rw [hother v i hvi]
    congr 2
    rw [State.inFlight, State.inFlight]
    by_cases hsrc : v.machine = src
    · have hdst : i ≠ dst := fun hc => hvi ⟨hsrc, hc⟩
      simp [State.setChannel, hsrc, hdst]
    · simp [State.setChannel, hsrc]

omit [LinearOrder T] in
/-- A sum over a list without repetitions in which one term changes. -/
theorem sum_map_add {α : Type*} {l : List α} (hl : l.Nodup) {a : α} (ha : a ∈ l) {f g : α → T} {x : T}
    (hself : g a = f a + x) (hother : ∀ b ∈ l, b ≠ a → g b = f b) :
    (l.map g).sum = (l.map f).sum + x := by
  induction l with
  | nil => cases ha
  | cons b l ih =>
      rw [List.nodup_cons] at hl
      rw [List.map_cons, List.map_cons, List.sum_cons, List.sum_cons]
      by_cases hba : b = a
      · subst hba
        have hrest : l.map g = l.map f := by
          apply List.map_congr_left
          intro c hc
          apply hother c (List.mem_cons_of_mem b hc)
          rintro rfl
          exact hl.1 hc
        rw [hself, hrest, add_assoc, add_comm x, ← add_assoc]
      · have hmem : a ∈ l := (List.mem_cons.mp ha).resolve_left (Ne.symm hba)
        rw [hother b List.mem_cons_self hba,
          ih hl.2 hmem fun c hc => hother c (List.mem_cons_of_mem b hc), add_assoc]

/-- The packet in hand is one that its sender has sent. -/
theorem Sums.mem_sent {i : Nat} {p : Packet T} (h : Sums acc s sent got (inHand i u p))
    (hu : u ∈ acc.users) (hi : i < acc.numNodes) : p ∈ packetsTo i (sent u) := by
  rw [h.flow u hu i hi]
  simp [inHand]

/-- Adding the packet in hand succeeds, and adds its part to every element of the buffer. -/
theorem addData_adds (hfits : Fits acc.toConfig) {i : Nat} {p : Packet T}
    (hand : InHand acc.toConfig s u i p) (h : Sums acc s sent got (inHand i u p)) :
    ∃ node, addData acc.toConfig (s.nodes i) p (u, s.released + 1) = some node ∧
      (node.base = (s.nodes i).base ∧ node.size = (s.nodes i).size ∧
        node.written = (s.nodes i).written ∧ node.buf.length = (s.nodes i).buf.length) ∧
      ∀ j < nodeSize acc.sz acc.numNodes i / acc.dsmSizeOf, node.buf.getD j 0 =
        (s.nodes i).buf.getD j 0 +
          p.part acc.dsmSizeOf (nodeBase acc.sz acc.numNodes i / acc.dsmSizeOf + j) := by
  have hd := acc.dsmSizeOf_pos
  obtain ⟨hstart, hend⟩ := node_segment hfits hand.lt
  by_cases hempty : p.data.isEmpty = true
  · refine ⟨s.nodes i, if_pos hempty, ⟨rfl, rfl, rfl, rfl⟩, fun j _ => ?_⟩
    rw [Packet.part_of_isEmpty hempty, add_zero]
  · -- the packet lies in the segment of the node
    have hsend := h.sending u hand.mem hand.round
    obtain ⟨b, hb, hgives⟩ := hsend.gives hand.lt
    obtain ⟨x, y, hx, hy, hdvd, hcarries⟩ := hgives.mem_whole (acc.dvd_start i) (h.mem_sent hand.mem hand.lt)
    obtain ⟨buf, hacc, hlen, hget⟩ := doAccumulate_spec hd hcarries hdvd
      (hstart ▸ acc.dvd_start i : acc.dsmSizeOf ∣ nodeBase acc.sz acc.numNodes i)
      (hstart ▸ hx) (hend ▸ Nat.le_trans hy hb) (by simpa using hempty)
      (fun hlt => by
        have hstop : acc.stop i ≤ acc.sz := segmentEnd_le ..
        have hsz := acc.sz_le
        rw [hend]
        omega) (h.length_buf i hand.lt)
    have hrun : acc.accumulate p.data p.offset (s.nodes i).buf (s.nodes i).base (s.nodes i).size =
        some buf := by
      rw [h.base i hand.lt, h.size i hand.lt, acc.accumulate_eq]
      exact hacc
    refine ⟨{ s.nodes i with
      buf := buf
      held := (s.nodes i).held ++ [(u, s.released + 1)] }, ?_, ⟨rfl, rfl, rfl, hlen⟩, hget⟩
    rw [addData, if_neg hempty, hrun]
    rfl

/-- The packet in hand is added to the buffer. -/
theorem sums_addData {k : Nat} (hs : Inv acc.toConfig k s) (hfits : Fits acc.toConfig) {i : Nat}
    {p : Packet T} (hand : InHand acc.toConfig s u i p) (h : Sums acc s sent got (inHand i u p)) :
    ∃ node, addData acc.toConfig (s.nodes i) p (u, s.released + 1) = some node ∧
      node.written = (s.nodes i).written ∧
      Sums acc (s.setNode i node) sent
        (Function.update got i (Function.update (got i) u (got i u ++ [p]))) noHand := by
  have hwritten : s.wrote i = s.released := hand.written hs
  obtain ⟨node, hadd, hsame, hget⟩ := addData_adds hfits hand h
  refine ⟨node, hadd, hsame.2.2.1, ?_⟩
  have hnode : ∀ j, j ≠ i → (s.setNode i node).nodes j = s.nodes j := fun j hj => by
    simp [State.setNode, hj]
  have hself : (s.setNode i node).nodes i = node := by
    simp [State.setNode]
  have hwrote : ∀ j, (s.setNode i node).wrote j = s.wrote j :=
    State.wrote_setNode_of_eq s hsame.2.2.1
  constructor
  · intro j hj
    by_cases hji : j = i
    · subst hji
      rw [hself, hsame.1]
      exact h.base j hj
    · rw [hnode j hji]
      exact h.base j hj
  · intro j hj
    by_cases hji : j = i
    · subst hji
      rw [hself, hsame.2.1]
      exact h.size j hj
    · rw [hnode j hji]
      exact h.size j hj
  · exact h.sending
  · exact h.fresh
  · intro v hv j hj
    have hflow := h.flow v hv j hj
    have hflight : (s.setNode i node).inFlight v j = s.inFlight v j := rfl
    rw [hflight, hflow]
    by_cases hji : j = i
    · subst hji
      by_cases hvu : v = u
      · subst hvu
        simp [inHand, noHand]
      · simp [inHand, noHand, hvu]
    · simp [inHand, noHand, hji]
  · intro j hj
    by_cases hji : j = i
    · subst hji
      rw [hself, hsame.2.2.2]
      exact h.length_buf j hj
    · rw [hnode j hji]
      exact h.length_buf j hj
  · intro j hj hw m hm
    rw [hwrote j] at hw
    by_cases hji : j = i
    · subst hji
      rw [hself, hget m hm, h.buf j hj hw m hm]
      symm
      apply sum_map_add acc.nodup hand.mem
      · simp
      · intro v _ hvu
        simp [Function.update_of_ne hvu]
    · rw [hnode j hji, Function.update_of_ne hji]
      exact h.buf j hj hw m hm
  · intro j hj hw
    rw [hwrote j] at hw
    by_cases hji : j = i
    · subst hji
      exact absurd (hwritten.symm.trans hw) (Nat.ne_of_lt (Nat.lt_succ_self _))
    · rw [hnode j hji]
      exact h.clear j hj hw
  · intro j hj r hw
    rw [hwrote j] at hw
    exact h.out j hj r hw

/-- Only the counters of a node change. -/
theorem Sums.setCounters (h : Sums acc s sent got hand) (i : Nat) (node : DataSyncNode T)
    (hbase : node.base = (s.nodes i).base) (hsize : node.size = (s.nodes i).size)
    (hbuf : node.buf = (s.nodes i).buf) (hwritten : node.written = (s.nodes i).written) :
    Sums acc (s.setNode i node) sent got hand := by
  have hnode : ∀ j, ((s.setNode i node).nodes j).base = (s.nodes j).base ∧
      ((s.setNode i node).nodes j).size = (s.nodes j).size ∧
      ((s.setNode i node).nodes j).buf = (s.nodes j).buf := by
    intro j
    by_cases hji : j = i
    · subst hji
      simp [State.setNode, hbase, hsize, hbuf]
    · simp [State.setNode, hji]
  have hwrote : ∀ j, (s.setNode i node).wrote j = s.wrote j :=
    State.wrote_setNode_of_eq s hwritten
  constructor
  · exact fun j hj => (hnode j).1.trans (h.base j hj)
  · exact fun j hj => (hnode j).2.1.trans (h.size j hj)
  · exact h.sending
  · exact h.fresh
  · exact h.flow
  · intro j hj
    rw [(hnode j).2.2]
    exact h.length_buf j hj
  · intro j hj hw
    rw [hwrote j] at hw
    rw [(hnode j).2.2]
    exact h.buf j hj hw
  · intro j hj hw
    rw [hwrote j] at hw
    rw [(hnode j).2.2]
    exact h.clear j hj hw
  · intro j hj r hw
    rw [hwrote j] at hw
    exact h.out j hj r hw

/-- When a node has handled the last message of a thread, it has added all that the
thread sends it. -/
theorem Sums.sum_got {k : Nat} (hs : Inv acc.toConfig k s) (h : Sums acc s sent got noHand)
    {i : Nat} (hi : i < acc.numNodes) (hu : u ∈ acc.users)
    (hfinal : (s.nodes i).finals u = upTo (s.released + 1)) (e : Nat)
    (hlo : acc.start i ≤ acc.dsmSizeOf * e)
    (hhi : acc.dsmSizeOf * e < max (acc.start i) (acc.stop i)) :
    ((got i u).map fun p => p.part acc.dsmSizeOf e).sum = (acc.input u (s.released + 1)).getD e 0 := by
  obtain ⟨hround, hclosed, hflight⟩ := (hs.pair u hu i hi).handled hfinal
  have hserved := (h.sending u hu hround).served hi hclosed
  have hflow := h.flow u hu i hi
  rw [hflight, noHand, List.append_nil, List.map_nil, List.append_nil] at hflow
  rw [← hflow, hserved.1.sum_part acc.dsmSizeOf_pos (acc.dvd_start i), if_pos ⟨hlo, hhi⟩, hround]

/-- The elements of a node's segment. -/
theorem segment_bounds (hfits : Fits acc.toConfig) {i j : Nat} (hi : i < acc.numNodes)
    (hj : j < nodeSize acc.sz acc.numNodes i / acc.dsmSizeOf) :
    acc.start i ≤ acc.dsmSizeOf * (nodeBase acc.sz acc.numNodes i / acc.dsmSizeOf + j) ∧
      acc.dsmSizeOf * (nodeBase acc.sz acc.numNodes i / acc.dsmSizeOf + j) <
        max (acc.start i) (acc.stop i) := by
  have hd := acc.dsmSizeOf_pos
  obtain ⟨hstart, hend⟩ := node_segment hfits hi
  obtain ⟨x, hx⟩ := acc.dvd_start i
  have hbase : nodeBase acc.sz acc.numNodes i / acc.dsmSizeOf = x := by
    rw [hstart, hx, Nat.mul_div_cancel_left _ hd]
  have hmul : acc.dsmSizeOf * (j + 1) ≤ nodeSize acc.sz acc.numNodes i := by
    rw [Nat.mul_comm]
    exact (Nat.le_div_iff_mul_le hd).mp hj
  rw [Nat.mul_add, Nat.mul_one] at hmul
  rw [hbase, ← hend, hstart, Nat.mul_add, ← hx]
  omega

/-- The words of two nodes are different. -/
theorem node_of_word (hfits : Fits acc.toConfig) {i j m x : Nat} (hi : i < acc.numNodes) (hj : j < acc.numNodes)
    (hm : m < nodeSize acc.sz acc.numNodes j / acc.dsmSizeOf)
    (hx : x < nodeSize acc.sz acc.numNodes i / acc.dsmSizeOf)
    (heq : nodeBase acc.sz acc.numNodes j / acc.dsmSizeOf + m =
      nodeBase acc.sz acc.numNodes i / acc.dsmSizeOf + x) : j = i := by
  have hbj := segment_bounds hfits hj hm
  have hbi := segment_bounds hfits hi hx
  rw [← heq] at hbi
  -- a word of a node is in its segment, which is not empty then
  have hstop : ∀ {k : Nat} {w : Nat}, acc.start k ≤ w → w < max (acc.start k) (acc.stop k) → w < acc.stop k := by
    intro k w hlo hhi
    rcases lt_max_iff.mp hhi with h | h
    · exact absurd h (Nat.not_lt_of_le hlo)
    · exact h
  have hj' := hstop hbj.1 hbj.2
  have hi' := hstop hbi.1 hbi.2
  rcases hfits with hzero | hsmall
  · have hle : acc.stop i ≤ acc.sz := segmentEnd_le ..
    omega
  · exact segment_disjoint acc.sz_le hsmall hj hi hbj.1 hj' hbi.1 hi'

/-- The node writes the sum of what it has added. -/
theorem sums_complete (hs : Inv acc.toConfig 0 s) (hfits : Fits acc.toConfig)
    (h : Sums acc s sent got noHand) {i : Nat} (hi : i < acc.numNodes)
    (hwritten : (s.nodes i).written.length = s.released)
    (hval : acc.users.length ≤ (s.nodes i).val) :
    Sums acc (complete acc.toConfig s i (s.nodes i)) sent got noHand := by
  have hd := acc.dsmSizeOf_pos
  have hwrotei : s.wrote i = s.released := hwritten
  obtain ⟨hinv, hwrote'⟩ := inv_complete hs hi hwritten hval
  have hnode : ∀ j, j ≠ i → (complete acc.toConfig s i (s.nodes i)).nodes j = s.nodes j :=
    fun j hj => by simp [complete, State.setNode, hj]
  have hself : (complete acc.toConfig s i (s.nodes i)).nodes i = { s.nodes i with
      val := 0
      buf := List.replicate ((s.nodes i).size / acc.dsmSizeOf) 0
      held := []
      written := (s.nodes i).written ++ [(s.nodes i).held] } := by
    simp [complete, State.setNode]
  have hfinals : ∀ u ∈ acc.users, (s.nodes i).finals u = upTo (s.released + 1) := by
    intro u hu
    have hle := (hinv.node i hi).le_finals u hu
    have hlen : ((complete acc.toConfig s i (s.nodes i)).nodes i).written.length = s.released + 1 :=
      hwrote'
    rw [hlen, hself] at hle
    rcases (hs.pair u hu i hi).finals_eq with hfin | hfin
    · simp only [hfin, length_upTo] at hle
      omega
    · exact hfin
  have hout : ∀ j < acc.numNodes, ∀ m < nodeSize acc.sz acc.numNodes j / acc.dsmSizeOf,
      (complete acc.toConfig s i (s.nodes i)).out (nodeBase acc.sz acc.numNodes j / acc.dsmSizeOf + m) =
        if j = i then (s.nodes i).buf.getD m 0
        else s.out (nodeBase acc.sz acc.numNodes j / acc.dsmSizeOf + m) := by
    intro j hj m hm
    simp only [complete, putSegment, h.base i hi, h.size i hi]
    by_cases hji : j = i
    · subst hji
      rw [if_pos rfl, if_pos (by omega), Nat.add_sub_cancel_left]
    · rw [if_neg hji, if_neg]
      rintro ⟨hlo, hhi⟩
      obtain ⟨x, hx⟩ := Nat.exists_eq_add_of_le hlo
      exact hji (node_of_word hfits hi hj hm (by omega) hx)
  have hwrote : ∀ j, j ≠ i → (complete acc.toConfig s i (s.nodes i)).wrote j = s.wrote j := by
    intro j hj
    rw [State.wrote, hnode j hj]
    rfl
  constructor
  · intro j hj
    by_cases hji : j = i
    · subst hji
      rw [hself]
      exact h.base j hj
    · rw [hnode j hji]
      exact h.base j hj
  · intro j hj
    by_cases hji : j = i
    · subst hji
      rw [hself]
      exact h.size j hj
    · rw [hnode j hji]
      exact h.size j hj
  · exact h.sending
  · exact h.fresh
  · exact h.flow
  · intro j hj
    by_cases hji : j = i
    · subst hji
      rw [hself]
      simp only [List.length_replicate, h.size j hj]
    · rw [hnode j hji]
      exact h.length_buf j hj
  · intro j hj hw
    by_cases hji : j = i
    · subst hji
      rw [hwrote'] at hw
      exact absurd hw (Nat.ne_of_gt (Nat.lt_succ_self _))
    · rw [hwrote j hji] at hw
      rw [hnode j hji]
      exact h.buf j hj hw
  · intro j hj hw m
    by_cases hji : j = i
    · subst hji
      rw [hself]
      simp only [List.getD_eq_getElem?_getD, List.getElem?_replicate]
      split <;> rfl
    · rw [hwrote j hji] at hw
      rw [hnode j hji]
      exact h.clear j hj hw m
  · intro j hj r hw m hm
    rw [hout j hj m hm]
    by_cases hji : j = i
    · subst hji
      rw [hwrote'] at hw
      obtain rfl : s.released = r := Nat.succ.inj hw
      rw [if_pos rfl, h.buf j hj hwrotei m hm]
      congr 1
      apply List.map_congr_left
      intro u hu
      obtain ⟨hlo, hhi⟩ := segment_bounds hfits hj hm
      exact h.sum_got hs hj hu (hfinals u hu) _ hlo hhi
    · rw [hwrote j hji] at hw
      rw [if_neg hji]
      exact h.out j hj r hw m hm

/-- The master starts the next round. -/
theorem sums_partialDone (hs : Inv acc.toConfig 1 s) (h : Sums acc s sent got noHand) :
    ∃ sent' got', Sums acc (acAccumulatePartialDoneMsg acc.toConfig s) sent' got' noHand := by
  rw [acAccumulatePartialDoneMsg]
  split
  · rename_i hall
    have hw := foldl_wakes hs.waiting.1 s
    have hwrote := hs.all_wrote hall
    obtain ⟨s', hs'⟩ : ∃ s', s' = List.foldl State.rcWakeRemoteThread s (s.nodes 0).waitlist := ⟨_, rfl⟩
    rw [← hs'] at hw
    obtain ⟨node, hnodedef⟩ : ∃ node, node = { s.nodes 0 with doneNodeCnt := 0, waitlist := [] } :=
      ⟨_, rfl⟩
    simp only [← hs', ← hnodedef]
    have hnode : ∀ i, ((s'.setNode 0 node).nodes i).base = (s.nodes i).base ∧
        ((s'.setNode 0 node).nodes i).size = (s.nodes i).size ∧
        ((s'.setNode 0 node).nodes i).buf = (s.nodes i).buf ∧
        ((s'.setNode 0 node).nodes i).written = (s.nodes i).written := by
      intro i
      by_cases hi : i = 0
      · subst hi
        simp [State.setNode, hnodedef]
      · simp [State.setNode, hi, hw.nodes]
    have hwrote' : ∀ i < acc.numNodes, (s'.setNode 0 node).wrote i = s.released + 1 := by
      intro i hi
      rw [State.wrote, (hnode i).2.2.2]
      exact (hwrote i hi).1
    have hfinals : ∀ i < acc.numNodes, ∀ u ∈ acc.users,
        (s.nodes i).finals u = upTo (s.released + 1) := by
      intro i hi u hu
      have hle : s.wrote i ≤ ((s.nodes i).finals u).length := (hs.node i hi).le_finals u hu
      rcases (hs.pair u hu i hi).finals_eq with hfin | hfin
      · rw [hfin, length_upTo, (hwrote i hi).1] at hle
        omega
      · exact hfin
    refine ⟨fun _ => [], fun _ _ => [], ?_⟩
    constructor
    · exact fun i hi => (hnode i).1.trans (h.base i hi)
    · exact fun i hi => (hnode i).2.1.trans (h.size i hi)
    · intro u hu hround
      have hthreads : s'.threads u = s.threads u := congrFun hw.threads u
      have hround' : (s'.threads u).round = s'.released + 1 + 1 := hround
      obtain ⟨hr, -, -⟩ := (hs.pair u hu 0 acc.pos).handled (hfinals 0 acc.pos u hu)
      rw [hthreads, hr, hw.released] at hround'
      omega
    · exact fun _ _ _ => rfl
    · intro u hu i hi
      have hflight := ((hs.pair u hu i hi).handled (hfinals i hi u hu)).2.2
      have hsame : (s'.setNode 0 node).inFlight u i = s.inFlight u i := by
        rw [State.inFlight, State.inFlight, State.setNode, hw.channel]
      show packetsTo i [] = [] ++ noHand i u ++ ((s'.setNode 0 node).inFlight u i).map Prod.fst
      rw [hsame, hflight]
      rfl
    · intro i hi
      rw [show ((s'.setNode 0 node).nodes i).buf = (s.nodes i).buf from (hnode i).2.2.1]
      exact h.length_buf i hi
    · intro i hi _ j hj
      rw [show ((s'.setNode 0 node).nodes i).buf = (s.nodes i).buf from (hnode i).2.2.1,
        h.clear i hi (hwrote i hi).1]
      simp
    · intro i hi hbad
      have hbad' : (s'.setNode 0 node).wrote i = s'.released + 1 + 1 := hbad
      rw [hwrote' i hi, hw.released] at hbad'
      omega
    · intro i hi r hr j hj
      have hr' : (s'.setNode 0 node).wrote i = r + 1 := hr
      rw [hwrote' i hi] at hr'
      have hold := h.out i hi r ((hwrote i hi).1.trans hr') j hj
      show s'.out _ = _
      rw [hw.out]
      exact hold
  · exact ⟨sent, got, h.setCounters _ _ rfl rfl rfl rfl⟩

/-- The sums are as they should be between two steps. -/
def Summed (acc : AddAccumulator T) (s : State T) : Prop := ∃ sent got, Sums acc s sent got noHand

/-- `AcAccumulateMsg` fails no assertion and keeps the sums. -/
theorem summed_acAccumulateMsg (hs : Inv acc.toConfig 0 s) (hfits : Fits acc.toConfig) {i : Nat}
    {p : Packet T} (hand : InHand acc.toConfig s u i p) (h : Sums acc s sent got (inHand i u p)) :
    ∃ s', acAccumulateMsg acc.toConfig s i u.machine p (u, s.released + 1) = some s' ∧
      Summed acc s' := by
  obtain ⟨node, hadd, hwritten, h₁⟩ := sums_addData hs hfits hand h
  obtain ⟨hs₁, hfinals⟩ := inv_addData hs hand hadd
  have hnode : (s.setNode i node).nodes i = node := by
    simp [State.setNode]
  have hset : ∀ node', (s.setNode i node).setNode i node' = s.setNode i node' := fun node' => by
    simp [State.setNode]
  by_cases hid : p.threadId = 0
  · refine ⟨s.setNode i node, ?_, _, _, h₁⟩
    simp only [acAccumulateMsg, hadd, Option.bind_eq_bind, Option.bind_some, if_pos hid, Option.pure_def]
  · have hand₁ : InHand acc.toConfig (s.setNode i node) u i p :=
      { hand with
        finals := by
          rw [hnode, hfinals]
          exact hand.finals }
    obtain ⟨arrived, harrived⟩ : ∃ arrived, arrived =
      arrive node i u.machine p (u, s.released + 1) := ⟨_, rfl⟩
    have hs₂ := inv_arrive hs₁ hand₁ hid
    have h₂ := h₁.setCounters i arrived
      (by rw [hnode, harrived]; rfl) (by rw [hnode, harrived]; rfl)
      (by rw [hnode, harrived]; rfl) (by rw [hnode, harrived]; rfl)
    rw [hnode, hset] at hs₂
    change Inv acc.toConfig 0 (s.setNode i (arrive node i u.machine p (u, s.released + 1))) at hs₂
    rw [← harrived] at hs₂
    rw [hset] at h₂
    have hself : (s.setNode i arrived).nodes i = arrived := by
      simp [State.setNode]
    by_cases hval : acc.users.length ≤ arrived.val
    · have hlen : ((s.setNode i arrived).nodes i).written.length = s.released := by
        rw [hself, harrived]
        show node.written.length = s.released
        rw [hwritten]
        exact hand.written hs
      have hval' : acc.users.length ≤ ((s.setNode i arrived).nodes i).val := by
        rw [hself]
        exact hval
      have h₃ := sums_complete hs₂ hfits h₂ hand.lt hlen hval'
      have hs₃ := (inv_complete hs₂ hand.lt hlen hval').1
      have hcomplete : complete acc.toConfig (s.setNode i arrived) i ((s.setNode i arrived).nodes i) =
          complete acc.toConfig s i arrived := by
        rw [hself]
        simp [complete, State.setNode]
      rw [hcomplete] at h₃ hs₃
      have hmsg : acAccumulateMsg acc.toConfig s i u.machine p (u, s.released + 1) =
          some (if i = 0 then acAccumulatePartialDoneMsg acc.toConfig (complete acc.toConfig s i arrived)
            else (complete acc.toConfig s i arrived).send i 0 .partialDone) := by
        simp only [acAccumulateMsg, hadd, Option.bind_eq_bind, Option.bind_some, if_neg hid,
          ← harrived, if_pos hval, Option.pure_def]
      refine ⟨_, hmsg, ?_⟩
      split
      · obtain ⟨sent', got', h₄⟩ := sums_partialDone hs₃ h₃
        exact ⟨sent', got', h₄⟩
      · refine ⟨sent, _, h₃.setChannel (fun v hv hsrc _ => ?_) fun _ _ _ => rfl⟩
        rw [packetsOf_append, State.inFlight, hsrc]
        simp [packetsOf]
    · refine ⟨s.setNode i arrived, ?_, _, _, h₂⟩
      simp only [acAccumulateMsg, hadd, Option.bind_eq_bind, Option.bind_some, if_neg hid,
        ← harrived, if_neg hval, Option.pure_def]

/-- A step of a thread fails no assertion and keeps the sums. -/
theorem summed_advance (hs : Inv acc.toConfig 0 s) (hfits : Fits acc.toConfig) (h : Summed acc s)
    (hu : u ∈ acc.users) {ready : Nat → Bool} {th : Thread} {o : Option (Output T)}
    (hadv : advance acc.toConfig u (s.threads u) ready = some (th, o)) :
    ∃ s', dispatch acc.toConfig (s.setThread u th) u (s.threads u).round o = some s' ∧
      Summed acc s' := by
  obtain ⟨sent, got, h⟩ := h
  have ha := advance_advances hu hadv
  have hsending : th.round = s.released + 1 → Sending acc.toConfig u th (sent u ++ o.toList) := by
    intro hround
    rw [ha.round_eq] at hround
    exact sending_step hu (h.sending u hu hround) hadv
  cases o with
  | none =>
      refine ⟨_, rfl, Function.update sent u (sent u ++ []), got,
        h.setThread hu (sent u ++ []) noHand rfl rfl rfl rfl (fun _ _ _ => ⟨rfl, rfl⟩) hsending ?_ ?_⟩
      · intro hround
        rw [ha.round_eq] at hround
        rw [h.fresh u hu hround, List.append_nil]
      · intro i hi
        rw [List.append_nil]
        exact h.flow u hu i hi
  | some out =>
      obtain ⟨hround, hfinals, -⟩ := round_of_sends hs hu ha
      have hlt := ha.dst_lt out rfl
      have hs₁ := inv_advances hs hu ha
      have hth : (s.setThread u th).threads u = th := by
        simp [State.setThread]
      have hnot : th.round = s.released → sent u ++ (some out).toList = [] := by
        intro hbad
        rw [ha.round_eq, hround] at hbad
        omega
      have hout : out = ⟨out.dst, out.packet⟩ := rfl
      by_cases hdst : out.dst = u.machine
      · have hnone : s.inFlight u out.dst = [] := by
          -- nothing travels from a node to itself
          apply List.filterMap_eq_nil_iff.mpr
          intro m hm
          cases m with
          | accumulate p c => exact absurd hdst (hs.sender u.machine out.dst p c hm).2.2.2
          | partialDone => rfl
        have h₁ : Sums acc (s.setThread u th) (Function.update sent u (sent u ++ (some out).toList)) got
            (inHand out.dst u out.packet) := by
          refine h.setThread hu _ _ rfl rfl rfl rfl (fun v hv i => ⟨rfl, ?_⟩) hsending hnot ?_
          · simp [inHand, noHand, hv]
          · intro i hi
            have hflow := h.flow u hu i hi
            have hsame : (s.setThread u th).inFlight u i = s.inFlight u i := rfl
            rw [packetsTo_append, hflow, hsame, Option.toList_some]
            by_cases hi' : i = out.dst
            · subst hi'
              rw [hnone, hout, packetsTo_self]
              simp [inHand, noHand]
            · rw [hout, packetsTo_of_ne (Ne.symm hi')]
              simp [inHand, noHand, hi']
        have hand : InHand acc.toConfig (s.setThread u th) u out.dst out.packet := by
          refine ⟨hu, hlt, ?_, hfinals, (ha.last out rfl).imp id fun hlast => ⟨hlast.1, ?_, hnone⟩⟩
          · rw [hth, ha.round_eq]
            exact hround
          · rw [hth]
            exact hlast.2
        obtain ⟨s', hmsg, hsum⟩ := summed_acAccumulateMsg hs₁ hfits hand h₁
        refine ⟨s', ?_, hsum⟩
        rw [dispatch, if_pos hdst, hround, ← hdst]
        rw [← hdst] at hmsg
        exact hmsg
      · refine ⟨_, if_neg hdst, Function.update sent u (sent u ++ (some out).toList), got,
          h.setThread hu _ noHand rfl rfl rfl rfl (fun v hv i => ⟨?_, rfl⟩) hsending hnot ?_⟩
        · rw [State.inFlight, State.inFlight]
          by_cases hc : v.machine = u.machine ∧ i = out.dst
          · obtain ⟨hm, rfl⟩ := hc
            simp [State.send, State.setChannel, State.setThread, hm, packetsOf, Ne.symm hv]
          · by_cases hm : v.machine = u.machine
            · have hi' : i ≠ out.dst := fun heq => hc ⟨hm, heq⟩
              simp [State.send, State.setChannel, State.setThread, hm, hi']
            · simp [State.send, State.setChannel, State.setThread, hm]
        · intro i hi
          have hflow := h.flow u hu i hi
          rw [packetsTo_append, hflow, Option.toList_some]
          by_cases hi' : i = out.dst
          · subst hi'
            have hflight : ((s.setThread u th).send u.machine out.dst
                (.accumulate out.packet (u, (s.threads u).round))).inFlight u out.dst =
                s.inFlight u out.dst ++ [(out.packet, (s.threads u).round)] := by
              simp [State.inFlight, State.send, State.setChannel, State.setThread, packetsOf]
            rw [hflight, hout, packetsTo_self]
            simp [noHand]
          · have hflight : ((s.setThread u th).send u.machine out.dst
                (.accumulate out.packet (u, (s.threads u).round))).inFlight u i = s.inFlight u i := by
              simp [State.inFlight, State.send, State.setChannel, State.setThread, hi']
            rw [hflight, hout, packetsTo_of_ne (Ne.symm hi')]
            simp [noHand]

/-- Delivering a message fails no assertion and keeps the sums. -/
theorem summed_deliver (hs : Inv acc.toConfig 0 s) (hfits : Fits acc.toConfig) (h : Summed acc s)
    {src dst : Nat} {m : Message T} {rest : List (Message T)} (hchan : s.channel src dst = m :: rest) :
    ∃ s', receive acc.toConfig (s.setChannel src dst rest) src dst m = some s' ∧ Summed acc s' := by
  obtain ⟨sent, got, h⟩ := h
  cases m with
  | accumulate p c =>
      obtain ⟨hs₁, hand, hmachine, hround⟩ := inv_takePacket hs hchan
      have hc : c = (c.1, s.released + 1) := by
        rw [← hround]
      have h₁ : Sums acc (s.setChannel src dst rest) sent got (inHand dst c.1 p) := by
        apply h.setChannel
        · intro v _ hsrc _
          rw [State.inFlight, hsrc, hchan]
          by_cases hv : v = c.1
          · subst hv
            simp [inHand, noHand, packetsOf]
          · simp [inHand, noHand, packetsOf, hv, Ne.symm hv]
        · intro v i hnot
          apply if_neg
          rintro ⟨rfl, rfl⟩
          exact hnot ⟨hmachine, rfl⟩
      rw [← hmachine] at hs₁ hand h₁
      rw [receive, hc, ← hmachine]
      exact summed_acAccumulateMsg hs₁ hfits hand h₁
  | partialDone =>
      have hs₁ := inv_takeReport hs hchan
      have h₁ : Sums acc (s.setChannel src dst rest) sent got noHand := by
        apply h.setChannel
        · intro v _ hsrc _
          rw [State.inFlight, hsrc, hchan]
          simp [packetsOf]
        · exact fun _ _ _ => rfl
      rw [receive]
      split
      · rename_i hdst
        rw [if_pos hdst] at hs₁
        exact ⟨_, rfl, sums_partialDone hs₁ h₁⟩
      · exact ⟨_, rfl, sent, got, h₁⟩

/-- Beginning a call keeps the sums. -/
theorem summed_call (hs : Inv acc.toConfig 0 s) (h : Summed acc s) (hu : u ∈ acc.users)
    (hidle : (s.threads u).phase = .idle) :
    Summed acc { s.setThread u (beginCall (s.threads u)) with
      event := Function.update s.event u false } := by
  obtain ⟨sent, got, h⟩ := h
  have hround := (hs.thread u hu).round_of_idle hidle
  refine ⟨Function.update sent u [], got,
    h.setThread hu [] noHand rfl rfl rfl rfl (fun _ _ _ => ⟨rfl, rfl⟩) ?_ (fun _ => rfl) ?_⟩
  · exact fun _ => sending_begin acc u (s.threads u)
  · intro i hi
    have hflow := h.flow u hu i hi
    rw [h.fresh u hu hround] at hflow
    exact hflow

/-- Returning from a call keeps the sums. -/
theorem summed_ret (hs : Inv acc.toConfig 0 s) (h : Summed acc s) (hu : u ∈ acc.users)
    (hphase : (s.threads u).phase = .waiting) (hevent : s.event u = true) :
    Summed acc (s.setThread u { s.threads u with phase := .idle }) := by
  obtain ⟨sent, got, h⟩ := h
  have hround : (s.threads u).round = s.released := by
    have hs' := inv_ret hs hu hphase hevent
    have hth := hs'.thread u hu
    simp only [State.setThread, Function.update_self] at hth
    exact hth.round_of_idle rfl
  refine ⟨Function.update sent u (sent u), got,
    h.setThread hu (sent u) noHand rfl rfl rfl rfl (fun _ _ _ => ⟨rfl, rfl⟩) ?_
      (fun _ => h.fresh u hu hround) (h.flow u hu)⟩
  intro hbad
  have hbad' : (s.threads u).round = s.released + 1 := hbad
  omega

end Sums

/-! ## Whole runs -/

section Runs

variable {acc : AddAccumulator T} {s s' : State T} {out : Nat → T} {acts : List Act}

theorem summed_step (hfits : Fits acc.toConfig) (hs : Inv acc.toConfig 0 s) (h : Summed acc s) {a : Act}
    (hstep : step acc.toConfig s a = some s') : Summed acc s' := by
  have hmem : ∀ u, (s.threads u).phase ≠ .idle → u ∈ acc.users := by
    intro u hne
    by_contra hu
    exact hne (hs.idle u hu)
  cases a with
  | call u =>
      simp only [step] at hstep
      split at hstep
      · rename_i hphase
        split at hstep
        · rename_i hu
          obtain rfl := Option.some.inj hstep
          exact summed_call hs h hu hphase
        · cases hstep
      · cases hstep
  | advance u ready =>
      obtain ⟨⟨th, o⟩, hadv, hdisp⟩ := Option.bind_eq_some_iff.mp hstep
      have hu : u ∈ acc.users := by
        apply hmem
        intro hidle
        rw [advance, hidle] at hadv
        cases hadv
      obtain ⟨t, ht, hsum⟩ := summed_advance hs hfits h hu hadv
      obtain rfl := Option.some.inj (ht.symm.trans hdisp)
      exact hsum
  | ret u =>
      simp only [step] at hstep
      split at hstep
      · rename_i hphase
        split at hstep
        · rename_i hevent
          obtain rfl := Option.some.inj hstep
          exact summed_ret hs h (hmem u (by rw [hphase]; exact Phase.noConfusion)) hphase hevent
        · cases hstep
      · cases hstep
  | deliver src dst =>
      simp only [step] at hstep
      split at hstep
      · cases hstep
      · rename_i m rest hchan
        obtain ⟨t, ht, hsum⟩ := summed_deliver hs hfits h hchan
        obtain rfl := Option.some.inj (ht.symm.trans hstep)
        exact hsum
  | wake machine =>
      simp only [step] at hstep
      split at hstep
      · cases hstep
      · obtain rfl := Option.some.inj hstep
        obtain ⟨sent, got, h⟩ := h
        exact ⟨sent, got, { h with }⟩

theorem summed_run (hfits : Fits acc.toConfig)
    (hrun : run (step acc.toConfig) (start acc.toConfig out) acts = some s) :
    Inv acc.toConfig 0 s ∧ Summed acc s := by
  apply invariant_reachable (fun _ _ _ h hstep => ⟨inv_step h.1 hstep, summed_step hfits h.1 h.2 hstep⟩)
    _ hrun
  exact ⟨inv_start acc.toConfig out, _, _, sums_start acc out⟩

/-- A thread inside a call can take its next step and a message can be handled: no
assertion on the way fails. -/
def NoAssertFails (cfg : Config T) (s : State T) : Prop :=
  (∀ u ready, (s.threads u).phase ≠ .idle → (s.threads u).phase ≠ .waiting →
    (step cfg s (.advance u ready)).isSome) ∧
  ∀ src dst, s.channel src dst ≠ [] → (step cfg s (.deliver src dst)).isSome

/-- When every node has written its segment for a round and no node for a later one, the
output array holds the sum of the vectors of that round. -/
def HoldsSum (cfg : Config T) (s : State T) : Prop :=
  ∀ r, (∀ i < cfg.numNodes, (s.nodes i).written.length = r + 1) →
    ∀ k < cfg.len, s.out k = (cfg.users.map fun u => (cfg.input u (r + 1)).getD k 0).sum

/-- Every call gives every node its segment, and in every run no assertion fails and the
output is the sum. -/
def Accumulates (cfg : Config T) (out : Nat → T) : Prop :=
  (∀ u ∈ cfg.users, CallsGive cfg u) ∧
  ∀ acts s, run (step cfg) (start cfg out) acts = some s → NoAssertFails cfg s ∧ HoldsSum cfg s

theorem Summed.noAssertFails (hfits : Fits acc.toConfig) (hs : Inv acc.toConfig 0 s)
    (h : Summed acc s) : NoAssertFails acc.toConfig s := by
  constructor
  · intro u ready hidle hwaiting
    have hu : u ∈ acc.users := by
      by_contra hu
      exact hidle (hs.idle u hu)
    obtain ⟨⟨th, o⟩, hadv⟩ : ∃ r, advance acc.toConfig u (s.threads u) ready = some r := by
      rw [advance]
      split <;> first | exact ⟨_, rfl⟩ | contradiction
    obtain ⟨t, ht, -⟩ := summed_advance hs hfits h hu hadv
    rw [step, hadv]
    exact Option.isSome_iff_exists.mpr ⟨t, ht⟩
  · intro src dst hne
    obtain ⟨m, rest, hchan⟩ := List.exists_cons_of_ne_nil hne
    obtain ⟨t, ht, -⟩ := summed_deliver hs hfits h hchan
    simp only [step, hchan]
    exact Option.isSome_iff_exists.mpr ⟨t, ht⟩

theorem Summed.holdsSum (hfits : Fits acc.toConfig) (h : Summed acc s) :
    HoldsSum acc.toConfig s := by
  obtain ⟨sent, got, h⟩ := h
  intro r hr k hk
  have hd := acc.dsmSizeOf_pos
  have hlt : acc.dsmSizeOf * k < acc.sz := by
    rw [acc.sz_eq]
    exact Nat.mul_lt_mul_of_pos_left hk hd
  have hsmall : acc.numNodes < 2 ^ 27 := by
    apply hfits.resolve_left
    omega
  obtain ⟨i, hi, hlo, hhi⟩ := exists_segment acc.sz_le acc.pos hlt
  obtain ⟨hbase, hend⟩ := node_segment (Or.inr hsmall) hi
  obtain ⟨b, hb⟩ : acc.dsmSizeOf ∣ nodeBase acc.sz acc.numNodes i := by
    rw [hbase]
    exact acc.dvd_start i
  obtain ⟨c, hc⟩ : acc.dsmSizeOf ∣ nodeSize acc.sz acc.numNodes i := by
    rw [← Nat.dvd_add_right ⟨b, hb⟩, hend]
    rcases Nat.le_total (acc.start i) (acc.stop i) with hle | hle
    · rw [Nat.max_eq_right hle]
      exact acc.dvd_stop i
    · rw [Nat.max_eq_left hle]
      exact acc.dvd_start i
  have hbk : b ≤ k := by
    apply Nat.le_of_mul_le_mul_left _ hd
    rw [← hb, hbase]
    exact hlo
  have hkc : k < b + c := by
    apply Nat.lt_of_mul_lt_mul_left (a := acc.dsmSizeOf)
    rw [Nat.mul_add, ← hb, ← hc, hend]
    exact Nat.lt_of_lt_of_le hhi (Nat.le_max_right _ _)
  have hword := h.out i hi r (hr i hi) (k - b)
  rw [hb, hc, Nat.mul_div_cancel_left _ hd, Nat.mul_div_cancel_left _ hd,
    Nat.add_sub_cancel' hbk] at hword
  apply hword
  omega

/-- Without users nothing happens. -/
theorem run_of_no_users (hnone : acc.users = [])
    (hrun : run (step acc.toConfig) (start acc.toConfig out) acts = some s) :
    s = start acc.toConfig out := by
  cases acts with
  | nil => exact (Option.some.inj hrun).symm
  | cons a rest =>
      obtain ⟨t, ht, -⟩ := Option.bind_eq_some_iff.mp hrun
      cases a <;> simp [step, start, advance, hnone] at ht

theorem accumulates_of_no_users (hnone : acc.users = []) : Accumulates acc.toConfig out := by
  constructor
  · intro u hu
    rw [hnone] at hu
    cases hu
  · intro acts s hrun
    obtain rfl := run_of_no_users hnone hrun
    refine ⟨⟨fun u _ hne => absurd rfl hne, fun _ _ hne => absurd rfl hne⟩, fun r hr => ?_⟩
    cases hr 0 acc.pos

theorem ownSegment_of_callsGive {u : SyncThreadNode} (hu : u ∈ acc.users)
    (hgive : CallsGive acc.toConfig u) : OwnSegment acc.toConfig u := by
  by_contra hnot
  rw [OwnSegment, not_or] at hnot
  have hpos : 0 < acc.sz := Nat.pos_of_ne_zero hnot.1
  by_cases hsmall : acc.numNodes < 2 ^ 27
  · apply not_calls_give_of_empty hu hpos hsmall _ hgive
    exact Nat.le_of_not_lt fun hlt => hnot.2 ⟨hsmall, hlt⟩
  · exact not_calls_give_of_many hu hpos (Nat.le_of_not_lt hsmall) hgive

/-- A `DAddAccumulator` gives every node its segment of every call and sums the vectors
exactly when there is no data or the node of every user has a segment of its own. -/
theorem accumulates_iff (acc : AddAccumulator T) (out : Nat → T) :
    Accumulates acc.toConfig out ↔ ∀ u ∈ acc.users, OwnSegment acc.toConfig u := by
  constructor
  · exact fun h u hu => ownSegment_of_callsGive hu (h.1 u hu)
  · intro hown
    by_cases hnone : acc.users = []
    · exact accumulates_of_no_users hnone
    · obtain ⟨u, hu⟩ := List.exists_mem_of_ne_nil _ hnone
      have hfits : Fits acc.toConfig := (hown u hu).imp id And.left
      refine ⟨fun v hv => calls_give hv (hown v hv), fun acts s hrun => ?_⟩
      obtain ⟨hs, h⟩ := summed_run hfits hrun
      exact ⟨h.noAssertFails hfits hs, h.holdsSum hfits⟩

end Runs

/-- One integer on two nodes: the only segment is that of node 0, and the thread is on
node 1. -/
def oneWord : AddAccumulator Int where
  numNodes := 2
  pos := Nat.two_pos
  users := [⟨1, 1⟩]
  nodup := by decide
  placed := by decide
  id_ne_zero := by decide
  dsmSizeOf := 1
  len := 1
  prepare := acAccumulatePrepareBuffer 1 .dense 0
  accumulate := doAccumulate 1
  input _ _ := [7]
  junkBase _ := 0
  size_of := Or.inl rfl
  mode := .dense
  prepare_eq := rfl
  accumulate_eq := rfl
  small := by decide
  length_input _ _ := rfl

/-- The thread leaves the loop although node 0 has got nothing. -/
theorem empty_segment_counted_twice :
    ¬CallsGive oneWord.toConfig ⟨1, 1⟩ ∧ ¬Accumulates oneWord.toConfig fun _ => 0 := by
  have hnot : ¬CallsGive oneWord.toConfig ⟨1, 1⟩ := by
    have hmem : (⟨1, 1⟩ : SyncThreadNode) ∈ oneWord.users := by decide
    apply not_calls_give_of_empty hmem <;> decide
  exact ⟨hnot, fun h => hnot (h.1 ⟨1, 1⟩ (by decide))⟩

end Dogee.Accumulator
