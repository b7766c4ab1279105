import Dogee.MapReduceSteps

/-!
# Pairs and reports

What the moves of the map phase do to the connections, to the pairs that are dealt, and to the
reports that the master counts.
-/

namespace Dogee.MapReduce

open Serializer
open SyncManager (SyncThreadNode)
open Transition

variable {cfg : Config}

/-! ## The connections -/

section Wires

variable {s s' : State cfg} {i j : Nat} {msgs : List (Message cfg)}

theorem channel_setChannel_self : (s.setChannel i j msgs).channel i j = msgs := by
  simp only [State.setChannel, Function.update_self]

theorem channel_setChannel_of_ne {i' j' : Nat} (hne : i' ≠ i ∨ j' ≠ j) :
    (s.setChannel i j msgs).channel i' j' = s.channel i' j' := by
  simp only [State.setChannel]
  by_cases hi : i' = i
  · subst hi
    rw [Function.update_self, Function.update_of_ne (hne.resolve_left fun h => h rfl)]
  · rw [Function.update_of_ne hi]

theorem Wires.congr (h : Wires s) (hchannel : s'.channel = s.channel) : Wires s' := by
  constructor
  · rw [hchannel]
    exact h.packet
  · rw [hchannel]
    exact h.report
  · rw [hchannel]
    exact h.own

/-- The messages of one connection change. -/
theorem Wires.setChannel (h : Wires s) (hchannel : s'.channel = (s.setChannel i j msgs).channel)
    (hpacket : i ≠ cfg.self ∨ cfg.numNodes ≤ j ∨ j = cfg.self → packets msgs = [])
    (hreport : i = 0 ∨ j ≠ 0 ∨ cfg.numNodes ≤ i → reports msgs = 0) : Wires s' := by
  apply Wires.congr _ hchannel
  constructor
  · intro i' j' hij
    by_cases heq : i' = i ∧ j' = j
    · obtain ⟨rfl, rfl⟩ := heq
      rw [channel_setChannel_self]
      exact hpacket (hij.imp_right Or.inl)
    · rw [channel_setChannel_of_ne (not_and_or.mp heq)]
      exact h.packet i' j' hij
  · intro i' j' hij
    by_cases heq : i' = i ∧ j' = j
    · obtain ⟨rfl, rfl⟩ := heq
      rw [channel_setChannel_self]
      exact hreport hij
    · rw [channel_setChannel_of_ne (not_and_or.mp heq)]
      exact h.report i' j' hij
  · by_cases heq : cfg.self = i ∧ cfg.self = j
    · obtain ⟨rfl, rfl⟩ := heq
      rw [channel_setChannel_self]
      exact hpacket (Or.inr (Or.inr rfl))
    · rw [channel_setChannel_of_ne (not_and_or.mp heq)]
      exact h.own

/-- The first message of a connection is taken. -/
theorem Wires.tail (h : Wires s) {m : Message cfg} (hchannel : s.channel i j = m :: msgs) :
    Wires (s.setChannel i j msgs) := by
  have hpackets : packets (s.channel i j) = [] → packets msgs = [] := by
    rw [hchannel]
    cases m with
    | accumulate p => exact fun h => by cases h
    | partialDone => exact id
  have hreports : reports (s.channel i j) = 0 → reports msgs = 0 := by
    rw [hchannel]
    cases m with
    | accumulate p => exact id
    | partialDone => exact fun h => absurd h (Nat.succ_ne_zero _)
  apply h.setChannel rfl
  · rintro (hi | hj | rfl)
    · exact hpackets (h.packet i j (Or.inl hi))
    · exact hpackets (h.packet i j (Or.inr hj))
    · by_cases hi : i = cfg.self
      · subst hi
        exact hpackets h.own
      · exact hpackets (h.packet i _ (Or.inl hi))
  · exact fun hij => hreports (h.report i j hij)

/-- The caller sends a packet to another node. -/
theorem Wires.sendPacket (h : Wires s) {p : Packet cfg} (hi : i < cfg.numNodes) (hself : i ≠ cfg.self)
    (hchannel : s'.channel = (s.send cfg.self i (.accumulate p)).channel) : Wires s' := by
  apply h.setChannel hchannel
  · rintro (hi' | hi' | hi')
    · exact absurd rfl hi'
    · exact absurd hi (Nat.not_lt_of_le hi')
    · exact absurd hi' hself
  · intro hij
    rw [reports_append, h.report _ _ hij]
    rfl

/-- A node reports to the master. -/
theorem Wires.sendReport (h : Wires s) (hi : i < cfg.numNodes) (hpos : i ≠ 0)
    (hchannel : s'.channel = (s.send i 0 .partialDone).channel) : Wires s' := by
  apply h.setChannel hchannel
  · intro hij
    rw [packets_append]
    rcases hij with hi' | hj | hj
    · rw [h.packet i 0 (Or.inl hi')]
      rfl
    · rw [h.packet i 0 (Or.inr hj)]
      rfl
    · by_cases hi' : i = cfg.self
      · exact absurd (hi'.trans hj.symm) hpos
      · rw [h.packet i 0 (Or.inl hi')]
        rfl
  · rintro (hi' | hj | hi')
    · exact absurd hi' hpos
    · exact absurd rfl hj
    · exact absurd hi (Nat.not_lt_of_le hi')

end Wires

/-! ## What a report changes -/

section Frames

/-- The wake-ups only change the events and the messages of the master. -/
theorem foldl_wake (ws : List SyncThreadNode) (s : State cfg) :
    ∃ wakes event, ws.foldl State.rcWakeRemoteThread s = { s with wakes := wakes, event := event } := by
  induction ws generalizing s with
  | nil => exact ⟨s.wakes, s.event, rfl⟩
  | cons w ws ih =>
      have hone : ∃ wakes event, s.rcWakeRemoteThread w = { s with wakes := wakes, event := event } := by
        rw [State.rcWakeRemoteThread]
        split
        · exact ⟨_, _, rfl⟩
        · exact ⟨_, _, rfl⟩
      obtain ⟨wakes, event, hone⟩ := hone
      obtain ⟨wakes', event', hall⟩ := ih (s.rcWakeRemoteThread w)
      rw [List.foldl_cons, hall, hone]
      exact ⟨wakes', event', rfl⟩

/-- Counting a report leaves the pairs and the connections alone. -/
theorem partialDone_frame (s : State cfg) :
    ∃ cnt waitlist wakes event, acAccumulatePartialDoneMsg cfg s =
      { s.setNode 0 { s.nodes 0 with doneNodeCnt := cnt, waitlist := waitlist } with
        wakes := wakes
        event := event } := by
  rw [acAccumulatePartialDoneMsg]
  dsimp only
  split
  · obtain ⟨wakes, event, hwake⟩ := foldl_wake (s.nodes 0).waitlist s
    rw [hwake]
    exact ⟨_, _, wakes, event, rfl⟩
  · exact ⟨_, _, _, _, rfl⟩

/-- The two states agree on the pairs, the packets and the place of the caller; only the nodes `fin`
may have finished. -/
structure Frame (s s' : State cfg) (fin : Nat → Bool) : Prop where
  phase : s'.phase = s.phase
  itr : s'.itr = s.itr
  aborted : s'.aborted = s.aborted
  took : ∀ j, (s'.nodes j).took = (s.nodes j).took
  ran : ∀ j, (s'.nodes j).ran = (s.nodes j).ran
  finished : ∀ j, (s'.nodes j).finished = (fin j || (s.nodes j).finished)
  packets : ∀ j l, packets (s'.channel j l) = packets (s.channel j l)

/-- One node changes, but neither its pairs nor, if `b` is not set, whether it has finished. -/
theorem frame_setNode (s : State cfg) {i : Nat} {node : DataSyncNode cfg} {b : Bool} {wakes : Nat → List Nat}
    {event : SyncThreadNode → Bool} (htook : node.took = (s.nodes i).took)
    (hran : node.ran = (s.nodes i).ran) (hf : node.finished = (b || (s.nodes i).finished)) :
    Frame s { s.setNode i node with wakes := wakes, event := event } fun j => b && j = i := by
  have hnode : ∀ j, j ≠ i → Function.update s.nodes i node j = s.nodes j :=
    fun j hj => Function.update_of_ne hj ..
  refine ⟨rfl, rfl, rfl, fun j => ?_, fun j => ?_, fun j => ?_, fun _ _ => rfl⟩
  all_goals
    simp only [State.setNode]
    by_cases hj : j = i
  · rw [hj, Function.update_self, htook]
  · rw [hnode j hj]
  · rw [hj, Function.update_self, hran]
  · rw [hnode j hj]
  · rw [hj, Function.update_self, hf]
    simp
  · rw [hnode j hj]
    simp [hj]

theorem frame_partialDone (s : State cfg) :
    Frame s (acAccumulatePartialDoneMsg cfg s) fun _ => false := by
  obtain ⟨cnt, waitlist, wakes, event, heq⟩ := partialDone_frame s
  rw [heq]
  exact frame_setNode s (b := false) rfl rfl rfl

theorem frame_send (s : State cfg) (i : Nat) : Frame s (s.send i 0 .partialDone) fun _ => false := by
  refine ⟨rfl, rfl, rfl, fun _ => rfl, fun _ => rfl, fun _ => rfl, fun j l => ?_⟩
  by_cases heq : j = i ∧ l = 0
  · obtain ⟨rfl, rfl⟩ := heq
    rw [State.send, channel_setChannel_self, packets_append]
    exact List.append_nil _
  · rw [State.send, channel_setChannel_of_ne (not_and_or.mp heq)]

theorem Frame.trans {s s' s'' : State cfg} {fin : Nat → Bool} (h : Frame s s' fin)
    (h' : Frame s' s'' fun _ => false) : Frame s s'' fin where
  phase := h'.phase.trans h.phase
  itr := h'.itr.trans h.itr
  aborted := h'.aborted.trans h.aborted
  took j := (h'.took j).trans (h.took j)
  ran j := (h'.ran j).trans (h.ran j)
  finished j := (h'.finished j).trans (h.finished j)
  packets j l := (h'.packets j l).trans (h.packets j l)

/-- Only node `i` finishes. -/
theorem frame_finishNode (s : State cfg) (i : Nat) : Frame s (finishNode s i) fun j => j = i := by
  have hnode : Frame s (s.setNode i { arrive cfg (s.nodes i) i cfg.self cfg.threadId with val := 0 })
      fun j => true && j = i := frame_setNode s rfl rfl rfl
  simp only [Bool.true_and] at hnode
  rw [finishNode]
  dsimp only
  split
  · exact hnode.trans (frame_partialDone _)
  · exact hnode.trans (frame_send _ i)

end Frames

/-! ## Where the pairs go -/

section Deals

variable {s s' : State cfg} {dealt : Nat → List cfg.Pair} {i : Nat}

/-- More elements for one index. -/
theorem perm_flatMap_update {α : Type} {l : List Nat} (hl : l.Nodup) (hi : i ∈ l) (f : Nat → List α)
    (ps : List α) : (l.flatMap (Function.update f i (f i ++ ps))).Perm (l.flatMap f ++ ps) := by
  induction l with
  | nil => cases hi
  | cons a l ih =>
      obtain ⟨ha, hl⟩ := List.nodup_cons.mp hl
      rw [List.flatMap_cons, List.flatMap_cons]
      by_cases hai : a = i
      · subst hai
        have hrest : l.flatMap (Function.update f a (f a ++ ps)) = l.flatMap f := by
          apply List.flatMap_congr
          intro b hb
          apply Function.update_of_ne
          rintro rfl
          exact ha hb
        rw [Function.update_self, hrest, List.append_assoc, List.append_assoc]
        exact List.perm_append_comm.append_left _
      · rw [Function.update_of_ne hai, List.append_assoc]
        exact (ih hl ((List.mem_cons.mp hi).resolve_left (Ne.symm hai))).append_left _

/-- A state that shares the pairs and the packets. -/
theorem Deals.of_frame {fin : Nat → Bool} (hframe : Frame s s' fin)
    (hlane : ∀ j < cfg.numNodes, Lane cfg j (s.phase.sentLast cfg.numNodes)
      { s.nodes j with finished := fin j || (s.nodes j).finished } (dealt j)
      (packets (s.channel cfg.self j)))
    (hperm : ((List.range cfg.numNodes).flatMap dealt ++ s.itr).Perm cfg.inMap)
    (hending : s.phase.isEnding → s.itr = []) : Deals s' dealt := by
  constructor
  · intro j hj
    rw [hframe.phase, hframe.packets]
    exact (hlane j hj).congr (hframe.took j) (hframe.ran j) (hframe.finished j)
  · rw [hframe.itr]
    exact hperm
  · rw [hframe.phase, hframe.itr]
    exact hending

theorem Deals.frame (h : Deals s dealt) (hframe : Frame s s' fun _ => false) : Deals s' dealt :=
  Deals.of_frame hframe h.lane h.perm h.ending

/-- The caller moves on, and no last packet is sent. -/
theorem Deals.setPhase (h : Deals s dealt) {phase : Phase} {event : SyncThreadNode → Bool}
    (hsent : phase.sentLast cfg.numNodes = s.phase.sentLast cfg.numNodes)
    (hending : phase.isEnding → s.itr = []) :
    Deals { s with phase := phase, event := event } dealt := by
  constructor
  · intro j hj
    have hlane := h.lane j hj
    rw [← hsent] at hlane
    exact hlane
  · exact h.perm
  · exact hending

/-- Some pairs go to node `i`. -/
theorem Deals.deal (h : Deals s dealt) {ps : List cfg.Pair} (hi : i < cfg.numNodes)
    (hitr : s.itr = ps ++ s'.itr) (hsent : s'.phase.sentLast cfg.numNodes = s.phase.sentLast cfg.numNodes)
    (hending : ¬s'.phase.isEnding)
    (hlane : Lane cfg i (s.phase.sentLast cfg.numNodes) (s'.nodes i) (dealt i ++ ps)
      (packets (s'.channel cfg.self i)))
    (hother : ∀ j, j ≠ i → s'.nodes j = s.nodes j ∧ s'.channel cfg.self j = s.channel cfg.self j) :
    Deals s' (Function.update dealt i (dealt i ++ ps)) := by
  constructor
  · intro j hj
    rw [hsent]
    by_cases hji : j = i
    · subst hji
      rw [Function.update_self]
      exact hlane
    · rw [Function.update_of_ne hji, (hother j hji).1, (hother j hji).2]
      exact h.lane j hj
  · have hmore := perm_flatMap_update List.nodup_range (List.mem_range.mpr hi) dealt ps
    apply (hmore.append_right _).trans
    rw [List.append_assoc, ← hitr]
    exact h.perm
  · exact fun hend => absurd hend hending

/-- A node takes the first packet on its way. -/
theorem Deals.take (h : Deals s dealt) (hi : i < cfg.numNodes) {p : Packet cfg} {rest : List (Message cfg)}
    (hchannel : s.channel cfg.self i = .accumulate p :: rest) (hid : p.threadId = 0) :
    Deals ((s.setChannel cfg.self i rest).setNode i ((s.nodes i).take p.pairs)) dealt := by
  constructor
  · intro j hj
    by_cases hji : j = i
    · subst hji
      have hlane := h.lane j hj
      rw [hchannel] at hlane
      simp only [State.setNode, Function.update_self, channel_setChannel_self]
      rcases hlane.take with ⟨-, -, hlane⟩ | ⟨hp, -⟩
      · exact hlane
      · rw [hp] at hid
        exact absurd hid cfg.id_ne_zero
    · simp only [State.setNode, Function.update_of_ne hji, channel_setChannel_of_ne (Or.inr hji)]
      exact h.lane j hj
  · exact h.perm
  · exact h.ending

/-- A node takes the last packet. -/
theorem Deals.takeLast (h : Deals s dealt) {rest : List (Message cfg)}
    (hchannel : s.channel cfg.self i = .accumulate (lastPacket cfg) :: rest) :
    Deals (finishNode (s.setChannel cfg.self i rest) i) dealt := by
  apply Deals.of_frame (frame_finishNode _ i)
  · intro j hj
    by_cases hji : j = i
    · subst hji
      have hlane := h.lane j hj
      rw [hchannel] at hlane
      rw [channel_setChannel_self]
      rcases hlane.take with ⟨hid, -⟩ | ⟨-, -, -, hlane⟩
      · exact absurd hid cfg.id_ne_zero
      · exact hlane.congr rfl rfl (by simp)
    · rw [channel_setChannel_of_ne (Or.inr hji)]
      exact (h.lane j hj).congr rfl rfl (by simp [hji]; rfl)
  · exact h.perm
  · exact h.ending

/-- The own node takes its last packet. -/
theorem Deals.ownLast (h : Deals s dealt) (hwires : Wires s) (hphase : s.phase = .last i)
    (hself : i = cfg.self) : Deals (finishNode { s with phase := .last (i + 1) } i) dealt := by
  have hsent : s.phase.sentLast cfg.numNodes = i := by rw [hphase]; rfl
  apply Deals.of_frame (frame_finishNode _ i)
  · intro j hj
    have hlane := h.lane j hj
    rw [hsent] at hlane
    by_cases hji : j = i
    · subst hji
      have hown : packets (s.channel cfg.self j) = [] := hself ▸ hwires.own
      rw [hown] at hlane
      dsimp only [Phase.sentLast]
      rw [hown]
      exact hlane.takeOwnLast.congr rfl rfl (by simp)
    · exact (hlane.pass hji).congr rfl rfl (by simp [hji])
  · exact h.perm
  · have hend := h.ending
    rw [hphase] at hend
    exact fun _ => hend trivial

/-- The last packet is sent to another node. -/
theorem Deals.sendLast (h : Deals s dealt) (hphase : s.phase = .last i) (hself : i ≠ cfg.self) :
    Deals ({ s with phase := .last (i + 1) }.send cfg.self i (.accumulate (lastPacket cfg))) dealt := by
  have hsent : s.phase.sentLast cfg.numNodes = i := by rw [hphase]; rfl
  constructor
  · intro j hj
    have hlane := h.lane j hj
    rw [hsent] at hlane
    by_cases hji : j = i
    · subst hji
      rw [State.send, channel_setChannel_self, packets_append]
      exact hlane.sendLast hself
    · rw [State.send, channel_setChannel_of_ne (Or.inr hji)]
      exact hlane.pass hji
  · exact h.perm
  · have hend := h.ending
    rw [hphase] at hend
    exact fun _ => hend trivial

end Deals

/-! ## The reports -/

section Reports

variable {s s' : State cfg} {counted hand : Finset Nat} {i : Nat}

theorem Reporting.congr (h : Reporting s counted hand)
    (hf : ∀ i, (s'.nodes i).finished = (s.nodes i).finished)
    (hcnt : (s'.nodes 0).doneNodeCnt = (s.nodes 0).doneNodeCnt)
    (hwait : (s'.nodes 0).waitlist = (s.nodes 0).waitlist)
    (hreport : ∀ i, reports (s'.channel i 0) = reports (s.channel i 0)) (hwakes : s'.wakes = s.wakes)
    (hevent : s'.phase = .idle ∨ s'.event cfg.caller = false) (hphase : s'.phase ≠ .returned) :
    Reporting s' counted hand := by
  constructor
  · intro j hj
    rw [hf]
    exact h.isCounted j hj
  · intro j hj
    rw [hf]
    exact h.inHand j hj
  · rw [hcnt]
    exact h.cnt
  · exact h.missing
  · intro j hj
    rw [hreport, hf]
    exact h.report j hj
  · rw [hf]
    exact h.master
  · rw [hwait, hf]
    exact h.waitlist
  · exact hevent
  · rw [hwakes]
    exact h.wakes
  · exact hphase

/-- A node takes pairs. -/
theorem Reporting.take (h : Reporting s counted hand) {ps : List cfg.Pair}
    (hnodes : s'.nodes = Function.update s.nodes i ((s.nodes i).take ps))
    (hreport : ∀ i, reports (s'.channel i 0) = reports (s.channel i 0)) (hwakes : s'.wakes = s.wakes)
    (hevent : s'.event = s.event) (hphase : s'.phase = s.phase) : Reporting s' counted hand := by
  have hsame : ∀ {β : Type} (f : DataSyncNode cfg → β), f ((s.nodes i).take ps) = f (s.nodes i) →
      ∀ j, f (s'.nodes j) = f (s.nodes j) := by
    intro β f hf j
    rw [hnodes]
    by_cases hj : j = i
    · rw [hj, Function.update_self, hf]
    · rw [Function.update_of_ne hj]
  apply h.congr (hsame _ rfl) (hsame _ rfl 0) (hsame _ rfl 0) hreport hwakes
  · rw [hphase, hevent]
    exact h.event
  · rw [hphase]
    exact h.phase

theorem reports_sendPacket (s : State cfg) (i j l m : Nat) (p : Packet cfg) :
    reports ((s.send i j (.accumulate p)).channel l m) = reports (s.channel l m) := by
  by_cases heq : l = i ∧ m = j
  · obtain ⟨rfl, rfl⟩ := heq
    rw [State.send, channel_setChannel_self, reports_append]
    rfl
  · rw [State.send, channel_setChannel_of_ne (not_and_or.mp heq)]

theorem reports_tailPacket {src dst : Nat} {p : Packet cfg} {rest : List (Message cfg)}
    (hchannel : s.channel src dst = .accumulate p :: rest) (l m : Nat) :
    reports ((s.setChannel src dst rest).channel l m) = reports (s.channel l m) := by
  by_cases heq : l = src ∧ m = dst
  · obtain ⟨rfl, rfl⟩ := heq
    rw [channel_setChannel_self, hchannel]
    rfl
  · rw [channel_setChannel_of_ne (not_and_or.mp heq)]

/-- A report leaves its connection. -/
theorem Reporting.consume (h : Reporting s counted ∅) (hi : i < cfg.numNodes) {rest : List (Message cfg)}
    (hchannel : s.channel i 0 = .partialDone :: rest) :
    Reporting (s.setChannel i 0 rest) counted {i} := by
  have hone := h.report i hi
  rw [hchannel, reports] at hone
  have hfin : (s.nodes i).finished = true ∧ i ∉ counted ∧ i ∉ (∅ : Finset Nat) := by
    by_contra hno
    rw [if_neg hno] at hone
    exact absurd hone (Nat.succ_ne_zero _)
  rw [if_pos hfin] at hone
  refine ⟨h.isCounted, ?_, h.cnt, h.missing, ?_, ?_, h.waitlist, h.event, h.wakes, h.phase⟩
  · intro j hj
    rw [Finset.mem_singleton.mp hj]
    exact ⟨hi, hfin.1, hfin.2.1⟩
  · intro j hj
    by_cases hji : j = i
    · subst hji
      rw [channel_setChannel_self, if_neg fun hc => hc.2.2 (Finset.mem_singleton_self j)]
      exact Nat.succ.inj hone
    · rw [channel_setChannel_of_ne (Or.inl hji), h.report j hj]
      simp only [Finset.notMem_empty, not_false_eq_true, and_true, Finset.mem_singleton, hji]
      rfl
  · intro h0
    exact Or.inl ((h.master h0).resolve_right (Finset.notMem_empty 0))

/-- Node `i`, which is not the master, finishes and reports. -/
theorem Reporting.report_of_ne (h : Reporting s counted ∅) (hpos : i ≠ 0)
    (hopen : (s.nodes i).finished = false) {node : DataSyncNode cfg} (hnode : node.finished = true) :
    Reporting ((s.setNode i node).send i 0 .partialDone) counted ∅ := by
  have hnot : i ∉ counted := by
    intro hc
    rw [(h.isCounted i hc).2] at hopen
    cases hopen
  have hother : ∀ j, j ≠ i → ((s.setNode i node).send i 0 .partialDone).nodes j = s.nodes j :=
    fun j hj => Function.update_of_ne hj ..
  have hzero := hother 0 (Ne.symm hpos)
  refine ⟨?_, ?_, ?_, h.missing, ?_, ?_, ?_, h.event, h.wakes, h.phase⟩
  · intro j hj
    have hji : j ≠ i := by
      rintro rfl
      exact hnot hj
    rw [hother j hji]
    exact h.isCounted j hj
  · exact fun j hj => absurd hj (Finset.notMem_empty j)
  · rw [hzero]
    exact h.cnt
  · intro j hj
    by_cases hji : j = i
    · subst hji
      have hself : ((s.setNode j node).send j 0 .partialDone).nodes j = node := Function.update_self ..
      have hnone := h.report j hj
      rw [hopen] at hnone
      rw [State.send, channel_setChannel_self, reports_append]
      rw [State.send] at hself
      rw [hself, hnode, if_pos ⟨rfl, hnot, Finset.notMem_empty j⟩]
      show reports (s.channel j 0) + 1 = 1
      rw [hnone]
      rfl
    · rw [hother j hji, State.send, channel_setChannel_of_ne (Or.inl hji)]
      exact h.report j hj
  · rw [hzero]
    exact h.master
  · rw [hzero]
    exact h.waitlist

/-- The master finishes and has its own report in hand. -/
theorem Reporting.report_master (h : Reporting s counted ∅) (hopen : (s.nodes 0).finished = false)
    {node : DataSyncNode cfg} (hnode : node.finished = true)
    (hcnt : node.doneNodeCnt = (s.nodes 0).doneNodeCnt) (hwait : node.waitlist = [cfg.caller]) :
    Reporting (s.setNode 0 node) counted {0} := by
  have hnot : 0 ∉ counted := by
    intro hc
    rw [(h.isCounted 0 hc).2] at hopen
    cases hopen
  have hother : ∀ j, j ≠ 0 → (s.setNode 0 node).nodes j = s.nodes j :=
    fun j hj => Function.update_of_ne hj ..
  have hzero : (s.setNode 0 node).nodes 0 = node := by simp only [State.setNode, Function.update_self]
  refine ⟨?_, ?_, ?_, h.missing, ?_, ?_, ?_, h.event, h.wakes, h.phase⟩
  · intro j hj
    have hj0 : j ≠ 0 := by
      rintro rfl
      exact hnot hj
    rw [hother j hj0]
    exact h.isCounted j hj
  · intro j hj
    rw [Finset.mem_singleton.mp hj, hzero]
    exact ⟨Nat.lt_of_le_of_lt (Nat.zero_le _) cfg.placed, hnode, hnot⟩
  · rw [hzero, hcnt]
    exact h.cnt
  · intro j hj
    have hold := h.report j hj
    by_cases hj0 : j = 0
    · subst hj0
      rw [hopen] at hold
      rw [if_neg fun hc => hc.2.2 (Finset.mem_singleton_self 0)]
      exact hold
    · rw [hother j hj0]
      simp only [Finset.mem_singleton, hj0, not_false_eq_true, and_true]
      simp only [Finset.notMem_empty, not_false_eq_true, and_true] at hold
      exact hold
  · exact fun _ => Or.inr (Finset.mem_singleton_self 0)
  · rw [hzero, hnode, hwait]
    rfl

theorem Reporting.card_insert (h : Reporting s counted {i}) : (insert i counted).card = counted.card + 1 :=
  Finset.card_insert_of_notMem (h.inHand i (Finset.mem_singleton_self i)).2.2

/-- A node counts as finished when it is counted or in hand. -/
theorem Reporting.finished_of_insert (h : Reporting s counted {i}) {j : Nat} (hj : j ∈ insert i counted) :
    j < cfg.numNodes ∧ (s.nodes j).finished = true := by
  rcases Finset.mem_insert.mp hj with rfl | hj
  · obtain ⟨hlt, hfin, -⟩ := h.inHand j (Finset.mem_singleton_self j)
    exact ⟨hlt, hfin⟩
  · exact h.isCounted j hj

/-- The report in hand is counted, and another one is missing. -/
theorem Reporting.count_more (h : Reporting s counted {i}) (hmore : counted.card + 1 < cfg.numNodes) :
    Reporting (acAccumulatePartialDoneMsg cfg s) (insert i counted) ∅ := by
  have hlt : ¬cfg.numNodes ≤ (s.nodes 0).doneNodeCnt + 1 := by
    rw [h.cnt]
    omega
  have hmsg : acAccumulatePartialDoneMsg cfg s =
      s.setNode 0 { s.nodes 0 with doneNodeCnt := (s.nodes 0).doneNodeCnt + 1 } := by
    rw [acAccumulatePartialDoneMsg]
    exact if_neg hlt
  have hf := (frame_partialDone s).finished
  simp only [Bool.false_or] at hf
  have hzero : (acAccumulatePartialDoneMsg cfg s).nodes 0 =
      { s.nodes 0 with doneNodeCnt := (s.nodes 0).doneNodeCnt + 1 } := by
    rw [hmsg]
    simp only [State.setNode, Function.update_self]
  have hchannel : (acAccumulatePartialDoneMsg cfg s).channel = s.channel := by
    rw [hmsg]
    rfl
  constructor
  · intro j hj
    rw [hf]
    exact h.finished_of_insert hj
  · exact fun j hj => absurd hj (Finset.notMem_empty j)
  · rw [hzero, h.card_insert, h.cnt]
  · by_contra hall
    push Not at hall
    have hsub : Finset.range cfg.numNodes ⊆ insert i counted :=
      fun j hj => hall j (Finset.mem_range.mp hj)
    have hle := Finset.card_le_card hsub
    rw [Finset.card_range, h.card_insert] at hle
    omega
  · intro j hj
    rw [hchannel, hf, h.report j hj]
    simp only [Finset.mem_insert, Finset.mem_singleton, Finset.notMem_empty, not_false_eq_true, and_true,
      not_or]
    simp only [and_comm]
  · intro h0
    rw [hf] at h0
    refine Or.inl (Finset.mem_insert.mpr ?_)
    rcases h.master h0 with h0 | h0
    · exact Or.inr h0
    · exact Or.inl (Finset.mem_singleton.mp h0)
  · rw [hzero]
    exact h.waitlist
  · rw [hmsg]
    exact h.event
  · rw [hmsg]
    exact h.wakes
  · rw [hmsg]
    exact h.phase

/-- The report in hand is the last one: the master wakes the caller. -/
theorem Reporting.count_last (h : Reporting s counted {i}) (hidle : s.phase ≠ .idle)
    (hlast : cfg.numNodes ≤ counted.card + 1) : Released (acAccumulatePartialDoneMsg cfg s) := by
  have hle : cfg.numNodes ≤ (s.nodes 0).doneNodeCnt + 1 := by
    rw [h.cnt]
    exact hlast
  have hall : ∀ j < cfg.numNodes, j ∈ insert i counted := by
    have hsub : insert i counted ⊆ Finset.range cfg.numNodes :=
      fun j hj => Finset.mem_range.mpr (h.finished_of_insert hj).1
    have heq := Finset.eq_of_subset_of_card_le hsub (by rw [Finset.card_range, h.card_insert]; exact hlast)
    intro j hj
    rw [heq]
    exact Finset.mem_range.mpr hj
  have hfin : ∀ j < cfg.numNodes, (s.nodes j).finished = true :=
    fun j hj => (h.finished_of_insert (hall j hj)).2
  have hwait : (s.nodes 0).waitlist = [cfg.caller] := by
    rw [h.waitlist, if_pos (hfin 0 (Nat.lt_of_le_of_lt (Nat.zero_le _) cfg.placed))]
  have hmsg : acAccumulatePartialDoneMsg cfg s = (s.rcWakeRemoteThread cfg.caller).setNode 0
      { s.nodes 0 with doneNodeCnt := 0, waitlist := [] } := by
    rw [acAccumulatePartialDoneMsg]
    dsimp only
    rw [if_pos hle, hwait]
    rfl
  have hf := (frame_partialDone s).finished
  simp only [Bool.false_or] at hf
  have hevent : s.event cfg.caller = false := h.event.resolve_left hidle
  constructor
  · intro j hj
    rw [hf]
    exact hfin j hj
  · intro j hj
    have hchannel : (acAccumulatePartialDoneMsg cfg s).channel = s.channel := by
      obtain ⟨_, _, _, _, heq⟩ := partialDone_frame s
      rw [heq]
      rfl
    have hj' := Finset.mem_insert.mp (hall j hj)
    rw [hchannel, h.report j hj, if_neg]
    rintro ⟨-, hnot, hne⟩
    exact hj'.elim (fun hj' => hne (Finset.mem_singleton.mpr hj')) hnot
  · rw [hmsg, State.rcWakeRemoteThread]
    split
    · refine Or.inl ⟨?_, h.wakes⟩
      exact Function.update_self ..
    · refine Or.inr ⟨hevent, h.phase, fun m => ?_⟩
      simp only [State.setNode]
      by_cases hm : m = cfg.self
      · subst hm
        show Function.update s.wakes cfg.self (s.wakes cfg.self ++ [cfg.threadId]) cfg.self = _
        rw [Function.update_self, h.wakes, if_pos rfl]
        rfl
      · show Function.update s.wakes cfg.self (s.wakes cfg.self ++ [cfg.threadId]) m = _
        rw [Function.update_of_ne hm, h.wakes, if_neg hm]

theorem Reporting.count (h : Reporting s counted {i}) (hidle : s.phase ≠ .idle) :
    (∃ counted', Reporting (acAccumulatePartialDoneMsg cfg s) counted' ∅) ∨
      Released (acAccumulatePartialDoneMsg cfg s) := by
  by_cases hmore : counted.card + 1 < cfg.numNodes
  · exact Or.inl ⟨_, h.count_more hmore⟩
  · exact Or.inr (h.count_last hidle (Nat.le_of_not_lt hmore))

/-- The master gets the last packet. -/
theorem Reporting.arrive_master (h : Reporting s counted ∅) (hopen : (s.nodes 0).finished = false) :
    Reporting (s.setNode 0 { arrive cfg (s.nodes 0) 0 cfg.self cfg.threadId with val := 0 }) counted {0} := by
  have hwait : (arrive cfg (s.nodes 0) 0 cfg.self cfg.threadId).waitlist = [cfg.caller] := by
    simp [arrive, h.waitlist, hopen, Config.caller]
  exact h.report_master hopen rfl rfl hwait

/-- A node gets the last packet. -/
theorem Reporting.finish (h : Reporting s counted ∅) (hidle : s.phase ≠ .idle)
    (hopen : (s.nodes i).finished = false) :
    (∃ counted', Reporting (finishNode s i) counted' ∅) ∨ Released (finishNode s i) := by
  rw [finishNode]
  dsimp only
  by_cases hi : i = 0
  · subst hi
    rw [if_pos rfl]
    exact (h.arrive_master hopen).count hidle
  · rw [if_neg hi]
    exact Or.inl ⟨counted, h.report_of_ne hi hopen rfl⟩

/-- After the release all last packets are sent. -/
theorem Released.sentLast {dealt : Nat → List cfg.Pair} (h : Released s) (hdeals : Deals s dealt) :
    ∀ i < cfg.numNodes, i < s.phase.sentLast cfg.numNodes ∧ packets (s.channel cfg.self i) = [] := by
  intro i hi
  obtain ⟨hpackets, hlt, -⟩ := (hdeals.lane i hi).of_finished (h.finished i hi)
  exact ⟨hlt, hpackets⟩

/-- While a last packet is not sent, the caller is not woken. -/
theorem Inv.reporting_of_sentLast (h : Inv s) (hi : i < cfg.numNodes)
    (hsent : s.phase.sentLast cfg.numNodes ≤ i) : ∃ counted, Reporting s counted ∅ := by
  obtain ⟨dealt, hdeals⟩ := h.deals
  apply h.reporting.resolve_right
  intro hrel
  exact absurd (hrel.sentLast hdeals i hi).1 (Nat.not_lt_of_le hsent)

/-- While a packet is on its way, the caller is not woken. -/
theorem Inv.reporting_of_packet (h : Inv s) (hi : i < cfg.numNodes)
    (hpackets : packets (s.channel cfg.self i) ≠ []) : ∃ counted, Reporting s counted ∅ := by
  obtain ⟨dealt, hdeals⟩ := h.deals
  apply h.reporting.resolve_right
  intro hrel
  exact hpackets (hrel.sentLast hdeals i hi).2

/-- While a report is on its way, the caller is not woken. -/
theorem Inv.reporting_of_report (h : Inv s) (hi : i < cfg.numNodes) (hreport : reports (s.channel i 0) ≠ 0) :
    ∃ counted, Reporting s counted ∅ := by
  apply h.reporting.resolve_right
  intro hrel
  exact hreport (hrel.report i hi)

end Reports

end Dogee.MapReduce
