import Dogee.MapReduce
import Mathlib.Data.Finset.Card

/-!
# The steps of the map phase

A pair of the map is still with the caller, in a packet on its way to a node, or taken by a node.
The packets of a connection arrive in order, so that a node has taken all its pairs when it gets the
last packet. `Inv` says where the pairs and the reports are, and `Move` what a step does to a state
in which it holds.
-/

namespace Dogee.MapReduce

open Serializer
open SyncManager (SyncThreadNode)
open Transition

variable {cfg : Config}

/-! ## The way to a node -/

/-- The packets among the messages of a connection. -/
def packets : List (Message cfg) → List (Packet cfg)
  | [] => []
  | .accumulate p :: msgs => p :: packets msgs
  | .partialDone :: msgs => packets msgs

/-- The number of reports among the messages of a connection. -/
def reports : List (Message cfg) → Nat
  | [] => 0
  | .accumulate _ :: msgs => reports msgs
  | .partialDone :: msgs => reports msgs + 1

theorem packets_append (msgs msgs' : List (Message cfg)) :
    packets (msgs ++ msgs') = packets msgs ++ packets msgs' := by
  induction msgs with
  | nil => rfl
  | cons m msgs ih =>
      cases m with
      | accumulate p => exact congrArg (p :: ·) ih
      | partialDone => exact ih

theorem reports_append (msgs msgs' : List (Message cfg)) :
    reports (msgs ++ msgs') = reports msgs + reports msgs' := by
  induction msgs with
  | nil => exact (Nat.zero_add _).symm
  | cons m msgs ih =>
      cases m with
      | accumulate p => exact ih
      | partialDone => rw [List.cons_append, reports, reports, ih, Nat.add_right_comm]

/-- A node with the data packets `ds` on their way has been dealt the pairs `dealt`. -/
structure Carries (node : DataSyncNode cfg) (ds : List (Packet cfg)) (dealt : List cfg.Pair) : Prop where
  good : ∀ d ∈ ds, d.Good ∧ d.threadId = 0
  flow : dealt = node.took ++ ds.flatMap Packet.pairs
  ran : node.ran = node.took.map cfg.shown

/-- The packets on their way to node `i` when the last packets of the nodes below `k` are sent: no
last packet yet, the last packet on its way, or all packets taken. -/
inductive Lane (cfg : Config) (i k : Nat) (node : DataSyncNode cfg) (dealt : List cfg.Pair) :
    List (Packet cfg) → Prop
  | opened {ds : List (Packet cfg)} (h : Carries node ds dealt) (hk : k ≤ i)
      (hf : node.finished = false) : Lane cfg i k node dealt ds
  | closing {ds : List (Packet cfg)} (h : Carries node ds dealt) (hk : i < k)
      (hf : node.finished = false) (hi : i ≠ cfg.self) : Lane cfg i k node dealt (ds ++ [lastPacket cfg])
  | closed (h : Carries node [] dealt) (hk : i < k) (hf : node.finished = true) :
      Lane cfg i k node dealt []

/-- A node after it has taken a packet of pairs. -/
def DataSyncNode.take (node : DataSyncNode cfg) (ps : List cfg.Pair) : DataSyncNode cfg :=
  { node with ran := node.ran ++ ps.map cfg.shown, took := node.took ++ ps }

section Lane

variable {i k : Nat} {node node' : DataSyncNode cfg} {dealt : List cfg.Pair} {ps : List (Packet cfg)}
  {p : Packet cfg}

theorem Carries.congr {ds : List (Packet cfg)} (h : Carries node ds dealt) (htook : node'.took = node.took)
    (hran : node'.ran = node.ran) : Carries node' ds dealt := by
  constructor
  · exact h.good
  · rw [htook]
    exact h.flow
  · rw [htook, hran]
    exact h.ran

/-- A node takes the first packet. -/
theorem Carries.take {ds : List (Packet cfg)} (h : Carries node (p :: ds) dealt) :
    Carries (node.take p.pairs) ds dealt := by
  constructor
  · exact fun d hd => h.good d (List.mem_cons_of_mem _ hd)
  · rw [h.flow, List.flatMap_cons, ← List.append_assoc]
    rfl
  · show node.ran ++ _ = (node.took ++ _).map _
    rw [h.ran, List.map_append]

/-- One more packet is sent. -/
theorem Carries.send {ds : List (Packet cfg)} (h : Carries node ds dealt) (hp : p.Good)
    (hid : p.threadId = 0) : Carries node (ds ++ [p]) (dealt ++ p.pairs) := by
  constructor
  · intro d hd
    rcases List.mem_append.mp hd with hd | hd
    · exact h.good d hd
    · rw [List.mem_singleton.mp hd]
      exact ⟨hp, hid⟩
  · rw [h.flow, List.flatMap_append, List.append_assoc, List.flatMap_singleton]
  · exact h.ran

theorem Lane.congr (h : Lane cfg i k node dealt ps) (htook : node'.took = node.took)
    (hran : node'.ran = node.ran) (hf : node'.finished = node.finished) :
    Lane cfg i k node' dealt ps := by
  cases h with
  | opened h hk hopen => exact Lane.opened (h.congr htook hran) hk (hf.trans hopen)
  | closing h hk hopen hi => exact Lane.closing (h.congr htook hran) hk (hf.trans hopen) hi
  | closed h hk hdone => exact Lane.closed (h.congr htook hran) hk (hf.trans hdone)

/-- The last packet goes to another node, `k`. -/
theorem Lane.pass (h : Lane cfg i k node dealt ps) (hi : i ≠ k) : Lane cfg i (k + 1) node dealt ps := by
  cases h with
  | opened h hk hf => exact Lane.opened h (Nat.lt_of_le_of_ne hk (Ne.symm hi)) hf
  | closing h hk hf hself => exact Lane.closing h (Nat.lt_succ_of_lt hk) hf hself
  | closed h hk hf => exact Lane.closed h (Nat.lt_succ_of_lt hk) hf

/-- A packet goes to the node, which has not got the last one. -/
theorem Lane.send (h : Lane cfg i k node dealt ps) (hk : k ≤ i) (hp : p.Good) (hid : p.threadId = 0) :
    Lane cfg i k node (dealt ++ p.pairs) (ps ++ [p]) := by
  cases h with
  | opened h hk hf => exact Lane.opened (h.send hp hid) hk hf
  | closing h hlt => exact absurd hlt (Nat.not_lt_of_le hk)
  | closed h hlt => exact absurd hlt (Nat.not_lt_of_le hk)

/-- The last packet goes to the node. -/
theorem Lane.sendLast (h : Lane cfg i i node dealt ps) (hi : i ≠ cfg.self) :
    Lane cfg i (i + 1) node dealt (ps ++ [lastPacket cfg]) := by
  cases h with
  | opened h hk hf => exact Lane.closing h (Nat.lt_succ_self i) hf hi
  | closing h hlt => exact absurd hlt (Nat.lt_irrefl i)
  | closed h hlt => exact absurd hlt (Nat.lt_irrefl i)

/-- The node takes a packet: one of data, or the last one. -/
theorem Lane.take (h : Lane cfg i k node dealt (p :: ps)) :
    p.threadId = 0 ∧ p.Good ∧ Lane cfg i k (node.take p.pairs) dealt ps ∨
      p = lastPacket cfg ∧ node.finished = false ∧ i < k ∧
        Lane cfg i k { node with finished := true } dealt ps := by
  generalize hq : p :: ps = q at h
  cases h with
  | opened h hk hf =>
      subst hq
      obtain ⟨hgood, hid⟩ := h.good p List.mem_cons_self
      exact Or.inl ⟨hid, hgood, Lane.opened h.take hk hf⟩
  | @closing ds h hk hf hi =>
      cases ds with
      | nil =>
          obtain ⟨rfl, rfl⟩ := List.cons.inj hq
          exact Or.inr ⟨rfl, hf, hk, Lane.closed (h.congr rfl rfl) hk rfl⟩
      | cons d ds =>
          obtain ⟨rfl, rfl⟩ := List.cons.inj hq
          obtain ⟨hgood, hid⟩ := h.good p List.mem_cons_self
          exact Or.inl ⟨hid, hgood, Lane.closing h.take hk hf hi⟩
  | closed h hk hf => cases hq

/-- The own node takes its packets at once. -/
theorem Lane.takeOwn (h : Lane cfg i k node dealt []) (hk : k ≤ i) (hp : p.Good) (hid : p.threadId = 0) :
    Lane cfg i k (node.take p.pairs) (dealt ++ p.pairs) [] := by
  have hsend := h.send hk hp hid
  rw [List.nil_append] at hsend
  rcases hsend.take with ⟨-, -, hlane⟩ | ⟨hp', -⟩
  · exact hlane
  · rw [hp'] at hid
    exact absurd hid cfg.id_ne_zero

theorem Lane.takeOwnLast (h : Lane cfg i i node dealt []) :
    Lane cfg i (i + 1) { node with finished := true } dealt [] := by
  generalize hq : ([] : List (Packet cfg)) = q at h
  cases h with
  | opened h hk hf =>
      subst hq
      exact Lane.closed (h.congr rfl rfl) (Nat.lt_succ_self i) rfl
  | closing h hlt => exact absurd hlt (Nat.lt_irrefl i)
  | closed h hlt => exact absurd hlt (Nat.lt_irrefl i)

/-- A node that has taken the last packet has taken all its pairs. -/
theorem Lane.of_finished (h : Lane cfg i k node dealt ps) (hf : node.finished = true) :
    ps = [] ∧ i < k ∧ node.took = dealt ∧ node.ran = dealt.map cfg.shown := by
  cases h with
  | opened h hk hopen => rw [hf] at hopen; cases hopen
  | closing h hk hopen hi => rw [hf] at hopen; cases hopen
  | closed h hk hdone =>
      have hflow := h.flow
      rw [List.flatMap_nil, List.append_nil] at hflow
      exact ⟨rfl, hk, hflow.symm, hflow ▸ h.ran⟩

end Lane

/-! ## The invariant -/

/-- The number of nodes to which the caller has sent the last packet. -/
def Phase.sentLast (numNodes : Nat) : Phase → Nat
  | .last i => i
  | .waiting => numNodes
  | .returned => numNodes
  | _ => 0

/-- All pairs have been dealt. -/
def Phase.isEnding : Phase → Prop
  | .last _ => True
  | .waiting => True
  | .returned => True
  | _ => False

/-- A pass over the ready sockets deals a pair; the indices of the loops stay in range. -/
def PhaseOk (s : State cfg) : Prop :=
  match s.phase with
  | .pass ready i => i ≤ cfg.numNodes ∧ (∃ j < cfg.numNodes, j ≠ cfg.self ∧ ready j = true) ∧
      ((∃ j < i, j ≠ cfg.self ∧ ready j = true) ∨ s.itr ≠ [])
  | .last i => i ≤ cfg.numNodes
  | _ => True

/-- Packets come from the caller, and reports go to the master. -/
structure Wires (s : State cfg) : Prop where
  packet : ∀ i j, i ≠ cfg.self ∨ cfg.numNodes ≤ j → packets (s.channel i j) = []
  report : ∀ i j, i = 0 ∨ j ≠ 0 ∨ cfg.numNodes ≤ i → reports (s.channel i j) = 0
  own : packets (s.channel cfg.self cfg.self) = []

/-- Where the pairs of the map are. -/
structure Deals (s : State cfg) (dealt : Nat → List cfg.Pair) : Prop where
  lane : ∀ i < cfg.numNodes, Lane cfg i (s.phase.sentLast cfg.numNodes) (s.nodes i) (dealt i)
    (packets (s.channel cfg.self i))
  perm : ((List.range cfg.numNodes).flatMap dealt ++ s.itr).Perm cfg.inMap
  ending : s.phase.isEnding → s.itr = []

/-- Before the caller is woken. The master has counted the reports of the nodes `counted`; a report in
`hand` has left its connection but is not counted yet. -/
structure Reporting (s : State cfg) (counted hand : Finset Nat) : Prop where
  isCounted : ∀ i ∈ counted, i < cfg.numNodes ∧ (s.nodes i).finished = true
  inHand : ∀ i ∈ hand, i < cfg.numNodes ∧ (s.nodes i).finished = true ∧ i ∉ counted
  cnt : (s.nodes 0).doneNodeCnt = counted.card
  missing : ∃ i < cfg.numNodes, i ∉ counted
  report : ∀ i < cfg.numNodes, reports (s.channel i 0) =
    if (s.nodes i).finished = true ∧ i ∉ counted ∧ i ∉ hand then 1 else 0
  master : (s.nodes 0).finished = true → 0 ∈ counted ∨ 0 ∈ hand
  waitlist : (s.nodes 0).waitlist = if (s.nodes 0).finished = true then [cfg.caller] else []
  event : s.phase = .idle ∨ s.event cfg.caller = false
  wakes : ∀ m, s.wakes m = []
  phase : s.phase ≠ .returned

/-- After all reports: the caller is woken, or will be. -/
structure Released (s : State cfg) : Prop where
  finished : ∀ i < cfg.numNodes, (s.nodes i).finished = true
  report : ∀ i < cfg.numNodes, reports (s.channel i 0) = 0
  woken : s.event cfg.caller = true ∧ (∀ m, s.wakes m = []) ∨
    s.event cfg.caller = false ∧ s.phase ≠ .returned ∧
      ∀ m, s.wakes m = if m = cfg.self then [cfg.threadId] else []

structure Inv (s : State cfg) : Prop where
  aborted : s.aborted = false
  phase : PhaseOk s
  wires : Wires s
  deals : ∃ dealt, Deals s dealt
  reporting : (∃ counted, Reporting s counted ∅) ∨ Released s

theorem inv_start (event : SyncThreadNode → Bool) : Inv (start cfg event) := by
  refine ⟨rfl, trivial, ⟨fun _ _ _ => rfl, fun _ _ _ => rfl, rfl⟩, ⟨fun _ => [], ?_⟩, Or.inl ⟨∅, ?_⟩⟩
  · refine ⟨fun i _ => ?_, ?_, fun h => h.elim⟩
    · exact Lane.opened ⟨fun _ hd => absurd hd List.not_mem_nil, rfl, rfl⟩ (Nat.zero_le i) rfl
    · have hnil : (List.range cfg.numNodes).flatMap (fun _ => ([] : List cfg.Pair)) = [] := by
        apply List.flatMap_eq_nil_iff.mpr
        exact fun _ _ => rfl
      rw [hnil]
      exact List.Perm.refl _
  · constructor
    · exact fun i hi => absurd hi (Finset.notMem_empty i)
    · exact fun i hi => absurd hi (Finset.notMem_empty i)
    · rfl
    · exact ⟨cfg.self, cfg.placed, Finset.notMem_empty _⟩
    · exact fun i _ => rfl
    · exact fun h => by cases h
    · rfl
    · exact Or.inl rfl
    · exact fun _ => rfl
    · exact fun h => by cases h

/-! ## The steps -/

/-- Node `i` gets the last packet: it reports, or counts its own report. -/
def finishNode (s : State cfg) (i : Nat) : State cfg :=
  let s := s.setNode i { arrive cfg (s.nodes i) i cfg.self cfg.threadId with val := 0 }
  if i = 0 then acAccumulatePartialDoneMsg cfg s else s.send i 0 .partialDone

/-- What a step does when no assertion fails. -/
inductive Move (s : State cfg) : State cfg → Prop
  | call (hphase : s.phase = .idle) :
      Move s { s with phase := .loop, event := Function.update s.event cfg.caller false }
  | dealt (hphase : s.phase = .loop) (hitr : s.itr = []) : Move s { s with phase := .last 0 }
  | own {ps rest : List cfg.Pair} {data : List Checkpoint.Byte} (hphase : s.phase = .loop)
      (hitr : s.itr = ps ++ rest) (hne : ps ≠ []) (hgood : (⟨0, data, ps⟩ : Packet cfg).Good) :
      Move s ({ s with itr := rest, turns := s.turns + 1 }.setNode cfg.self
        ((s.nodes cfg.self).take ps))
  | select {ready : Nat → Bool} (hphase : s.phase = .loop) (hitr : s.itr ≠ [])
      (hready : ∃ i < cfg.numNodes, i ≠ cfg.self ∧ ready i = true) :
      Move s { s with phase := .pass ready 0 }
  | deal {ready : Nat → Bool} {i : Nat} {ps rest : List cfg.Pair} {data : List Checkpoint.Byte}
      (hphase : s.phase = .pass ready i) (hi : i < cfg.numNodes) (hself : i ≠ cfg.self)
      (hready : ready i = true) (hitr : s.itr = ps ++ rest) (hne : s.itr ≠ [] → ps ≠ [])
      (hgood : (⟨0, data, ps⟩ : Packet cfg).Good) :
      Move s ({ s with
        itr := rest
        turns := s.turns + 1
        phase := .pass ready (i + 1) }.send cfg.self i (.accumulate ⟨0, data, ps⟩))
  | skip {ready : Nat → Bool} {i : Nat} (hphase : s.phase = .pass ready i) (hi : i < cfg.numNodes)
      (hskip : ¬(i ≠ cfg.self ∧ ready i = true)) : Move s { s with phase := .pass ready (i + 1) }
  | passed {ready : Nat → Bool} {i : Nat} (hphase : s.phase = .pass ready i) (hi : ¬i < cfg.numNodes) :
      Move s { s with phase := .loop }
  | ownLast {i : Nat} (hphase : s.phase = .last i) (hi : i < cfg.numNodes) (hself : i = cfg.self) :
      Move s (finishNode { s with phase := .last (i + 1) } i)
  | sendLast {i : Nat} (hphase : s.phase = .last i) (hi : i < cfg.numNodes) (hself : i ≠ cfg.self) :
      Move s ({ s with phase := .last (i + 1) }.send cfg.self i (.accumulate (lastPacket cfg)))
  | wait {i : Nat} (hphase : s.phase = .last i) (hi : ¬i < cfg.numNodes) :
      Move s { s with phase := .waiting }
  | ret (hphase : s.phase = .waiting) (hevent : s.event cfg.caller = true) :
      Move s { s with phase := .returned }
  | take {i : Nat} {p : Packet cfg} {rest : List (Message cfg)} (hi : i < cfg.numNodes)
      (hchannel : s.channel cfg.self i = .accumulate p :: rest) (hid : p.threadId = 0) :
      Move s ((s.setChannel cfg.self i rest).setNode i ((s.nodes i).take p.pairs))
  | takeLast {i : Nat} {rest : List (Message cfg)} (hi : i < cfg.numNodes)
      (hchannel : s.channel cfg.self i = .accumulate (lastPacket cfg) :: rest) :
      Move s (finishNode (s.setChannel cfg.self i rest) i)
  | count {i : Nat} {rest : List (Message cfg)} (hi : i < cfg.numNodes)
      (hchannel : s.channel i 0 = .partialDone :: rest) :
      Move s (acAccumulatePartialDoneMsg cfg (s.setChannel i 0 rest))
  | wake {m threadId : Nat} {rest : List Nat} (hwakes : s.wakes m = threadId :: rest) :
      Move s { s with
        wakes := Function.update s.wakes m rest
        event := Function.update s.event ⟨m, threadId⟩ true }

/-- A node takes a packet of pairs, or an assertion fails. -/
theorem acAccumulateMsg_data (s : State cfg) (i src : Nat) {p : Packet cfg} (hid : p.threadId = 0)
    (hgood : p.Good) :
    acAccumulateMsg cfg s i src p = some (s.setNode i ((s.nodes i).take p.pairs)) ∨
      acAccumulateMsg cfg s i src p = none ∧ ∃ q ∈ p.pairs, cfg.noNul q = false := by
  cases hmaps : doMaps cfg (s.nodes i) p with
  | some node =>
      obtain ⟨rfl, -⟩ := (doMaps_eq_some_iff hgood).mp hmaps
      refine Or.inl ?_
      rw [acAccumulateMsg, hmaps]
      exact if_pos hid
  | none =>
      refine Or.inr ⟨?_, ?_⟩
      · rw [acAccumulateMsg, hmaps]
        rfl
      · by_contra hclean
        push Not at hclean
        have hall : p.pairs.all cfg.noNul = true := by
          apply List.all_eq_true.mpr
          exact fun q hq => Bool.not_eq_false _ ▸ hclean q hq
        have hsome : doMaps cfg (s.nodes i) p = some _ :=
          (doMaps_eq_some_iff hgood).mpr ⟨rfl, Or.inr hall⟩
        rw [hmaps] at hsome
        cases hsome

theorem acAccumulateMsg_last (s : State cfg) (i : Nat) :
    acAccumulateMsg cfg s i cfg.self (lastPacket cfg) = some (finishNode s i) := by
  have hmaps : doMaps cfg (s.nodes i) (lastPacket cfg) = some (s.nodes i) := by
    simp [doMaps, lastPacket]
  rw [acAccumulateMsg, hmaps]
  have hval : numUsers ≤ (arrive cfg (s.nodes i) i cfg.self cfg.threadId).val := Nat.le_add_left ..
  exact (if_neg cfg.id_ne_zero).trans (if_pos hval)

/-- A failed assertion: a string of the map has a zero byte. -/
def Failed (s : State cfg) : Prop :=
  s.aborted = true ∧ s.phase ≠ .returned ∧ ∃ p ∈ cfg.inMap, cfg.noNul p = false

section Moves

variable {s s' : State cfg}

theorem Deals.mem_inMap {dealt : Nat → List cfg.Pair} (h : Deals s dealt) {p : cfg.Pair}
    (hp : p ∈ s.itr) : p ∈ cfg.inMap :=
  h.perm.mem_iff.mp (List.mem_append_right _ hp)

/-- A packet on its way to a node holds pairs of the map. -/
theorem Deals.packet_mem {dealt : Nat → List cfg.Pair} (h : Deals s dealt) {i : Nat}
    (hi : i < cfg.numNodes) {q : Packet cfg} {qs : List (Packet cfg)}
    (hpackets : packets (s.channel cfg.self i) = q :: qs) {p : cfg.Pair} (hp : p ∈ q.pairs) :
    p ∈ cfg.inMap := by
  have hdealt : p ∈ dealt i := by
    have hlane := h.lane i hi
    rw [hpackets] at hlane
    generalize hps : q :: qs = ps at hlane
    cases hlane with
    | opened hc =>
        subst hps
        rw [hc.flow]
        exact List.mem_append_right _ (List.mem_flatMap.mpr ⟨q, List.mem_cons_self, hp⟩)
    | @closing ds hc =>
        rw [hc.flow]
        cases ds with
        | nil =>
            obtain ⟨rfl, -⟩ := List.cons.inj hps
            cases hp
        | cons d ds =>
            obtain ⟨rfl, -⟩ := List.cons.inj hps
            exact List.mem_append_right _ (List.mem_flatMap.mpr ⟨q, List.mem_cons_self, hp⟩)
    | closed => cases hps
  apply h.perm.mem_iff.mp
  exact List.mem_append_left _ (List.mem_flatMap.mpr ⟨i, List.mem_range.mpr hi, hdealt⟩)

theorem move_of_advance (hfit : ∀ p ∈ cfg.inMap, cfg.size p ≤ bufLen) (h : Inv s)
    {mybuf : List Checkpoint.Byte} {ready : Nat → Bool} (hbuf : mybuf.length = 4 * bufLen)
    (hstep : advance cfg s mybuf ready = some s') : Move s s' ∨ Failed s' := by
  obtain ⟨dealt, hdeals⟩ := h.deals
  have hprepare := prepare_spec hbuf fun p hp => hfit p (hdeals.mem_inMap hp)
  unfold advance at hstep
  split at hstep
  · rename_i hphase
    obtain rfl := Option.some.inj hstep
    exact Or.inl (Move.call hphase)
  · rename_i hphase
    split at hstep
    · rename_i hitr
      obtain rfl := Option.some.inj hstep
      exact Or.inl (Move.dealt hphase hitr)
    · rename_i hitr
      split at hstep
      · obtain ⟨ps, rest, data, hprep, hsplit, hgood, hne⟩ := hprepare
        rw [hprep] at hstep
        obtain rfl := Option.some.inj hstep
        dsimp only
        rcases acAccumulateMsg_data { s with itr := rest, turns := s.turns + 1 } cfg.self cfg.self rfl
          hgood with hmsg | ⟨hmsg, q, hq, hnul⟩
        · rw [hmsg]
          exact Or.inl (Move.own hphase hsplit (hne hitr) hgood)
        · rw [hmsg]
          refine Or.inr ⟨rfl, ?_, q, ?_, hnul⟩
          · show s.phase ≠ .returned
            rw [hphase]
            exact fun h => by cases h
          · apply hdeals.mem_inMap
            rw [hsplit]
            exact List.mem_append_left _ hq
      · split at hstep
        · rename_i hready
          obtain rfl := Option.some.inj hstep
          exact Or.inl (Move.select hphase hitr hready)
        · cases hstep
  · rename_i ready' i hphase
    split at hstep
    · rename_i hi
      split at hstep
      · rename_i hready
        obtain ⟨ps, rest, data, hprep, hsplit, hgood, hne⟩ := hprepare
        rw [hprep] at hstep
        obtain rfl := Option.some.inj hstep
        exact Or.inl (Move.deal hphase hi hready.1 hready.2 hsplit hne hgood)
      · rename_i hskip
        obtain rfl := Option.some.inj hstep
        exact Or.inl (Move.skip hphase hi hskip)
    · rename_i hi
      obtain rfl := Option.some.inj hstep
      exact Or.inl (Move.passed hphase hi)
  · rename_i i hphase
    split at hstep
    · rename_i hi
      split at hstep
      · rename_i hself
        obtain rfl := Option.some.inj hstep
        rw [acAccumulateMsg_last]
        subst hself
        exact Or.inl (Move.ownLast hphase hi rfl)
      · rename_i hself
        obtain rfl := Option.some.inj hstep
        exact Or.inl (Move.sendLast hphase hi hself)
    · rename_i hi
      obtain rfl := Option.some.inj hstep
      exact Or.inl (Move.wait hphase hi)
  · rename_i hphase
    split at hstep
    · rename_i hevent
      obtain rfl := Option.some.inj hstep
      exact Or.inl (Move.ret hphase hevent)
    · cases hstep
  · cases hstep

/-- While a packet is on its way, `Map` has not returned. -/
theorem Inv.phase_ne_returned (h : Inv s) {i : Nat} (hi : i < cfg.numNodes)
    (hpackets : packets (s.channel cfg.self i) ≠ []) : s.phase ≠ .returned := by
  rcases h.reporting with ⟨counted, hrep⟩ | hrel
  · exact hrep.phase
  · obtain ⟨dealt, hdeals⟩ := h.deals
    exact absurd ((hdeals.lane i hi).of_finished (hrel.finished i hi)).1 hpackets

theorem move_of_deliver (h : Inv s) {src dst : Nat} {m : Message cfg} {rest : List (Message cfg)}
    (hchannel : s.channel src dst = m :: rest) :
    Move s (receive cfg (s.setChannel src dst rest) src dst m) ∨
      Failed (receive cfg (s.setChannel src dst rest) src dst m) := by
  cases m with
  | accumulate p =>
      have hne : packets (s.channel src dst) ≠ [] := by
        rw [hchannel]
        exact List.cons_ne_nil _ _
      have hwire := mt (h.wires.packet src dst) hne
      push Not at hwire
      obtain ⟨rfl, hdst⟩ := hwire
      obtain ⟨dealt, hdeals⟩ := h.deals
      have hpackets : packets (s.channel cfg.self dst) = p :: packets rest := by
        rw [hchannel]
        rfl
      have hlane := hdeals.lane dst hdst
      rw [hpackets] at hlane
      rcases hlane.take with ⟨hid, hgood, -⟩ | ⟨rfl, -⟩
      · have hsmall : ¬4 * bufLen < p.data.length := Nat.not_lt_of_le hgood.small
        rw [receive, if_neg hsmall]
        rcases acAccumulateMsg_data (s.setChannel cfg.self dst rest) dst cfg.self hid hgood with
          hmsg | ⟨hmsg, q, hq, hnul⟩
        · rw [hmsg]
          exact Or.inl (Move.take hdst hchannel hid)
        · rw [hmsg]
          exact Or.inr ⟨rfl, h.phase_ne_returned hdst hne, q, hdeals.packet_mem hdst hpackets hq, hnul⟩
      · have hsmall : ¬4 * bufLen < (lastPacket cfg).data.length := Nat.not_lt_zero _
        rw [receive, if_neg hsmall, acAccumulateMsg_last]
        exact Or.inl (Move.takeLast hdst hchannel)
  | partialDone =>
      have hne : reports (s.channel src dst) ≠ 0 := by
        rw [hchannel]
        exact Nat.succ_ne_zero _
      have hwire := mt (h.wires.report src dst) hne
      push Not at hwire
      obtain ⟨-, rfl, hsrc⟩ := hwire
      exact Or.inl (Move.count hsrc hchannel)

theorem move_of_step (hfit : ∀ p ∈ cfg.inMap, cfg.size p ≤ bufLen) (h : Inv s) {a : Act}
    (hstep : step cfg s a = some s') : Move s s' ∨ Failed s' := by
  have hgoing : ¬s.aborted = true := by
    rw [h.aborted]
    exact Bool.false_ne_true
  unfold step at hstep
  rw [if_neg hgoing] at hstep
  cases a with
  | advance mybuf ready =>
      obtain ⟨hbuf, hstep⟩ := Option.ite_none_right_eq_some.mp hstep
      exact move_of_advance hfit h hbuf hstep
  | deliver src dst =>
      dsimp only at hstep
      split at hstep
      · cases hstep
      · rename_i m rest hchannel
        obtain rfl := Option.some.inj hstep
        exact move_of_deliver h hchannel
  | wake machine =>
      dsimp only at hstep
      split at hstep
      · cases hstep
      · rename_i threadId rest hwakes
        obtain rfl := Option.some.inj hstep
        exact Or.inl (Move.wake hwakes)

end Moves

end Dogee.MapReduce
