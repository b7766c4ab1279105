import Dogee.MapReduceReports
import Mathlib.Algebra.BigOperators.Group.Finset.Basic

/-!
# Every pair is mapped once

Every step keeps the invariant and lowers the work that is left, and something can happen until
`Map` has returned. All nodes have reported by then, so that they have taken all pairs. What `DoMap`
sees of a pair is the pair itself unless it has a string with a zero byte.
-/

namespace Dogee.MapReduce

open Serializer
open SyncManager (SyncThreadNode)
open Transition

variable {cfg : Config}

/-! ## Every step keeps the invariant -/

section Steps

variable {s s' : State cfg}

/-- The caller moves on before the last packets are sent. -/
theorem Inv.setPhase (h : Inv s) {phase : Phase} (hsent : s.phase.sentLast cfg.numNodes = 0)
    (hidle : s.phase ≠ .idle) (hphase : PhaseOk { s with phase := phase })
    (hsent' : phase.sentLast cfg.numNodes = 0) (hending : phase.isEnding → s.itr = [])
    (hret : phase ≠ .returned) : Inv { s with phase := phase } := by
  obtain ⟨dealt, hdeals⟩ := h.deals
  obtain ⟨counted, hrep⟩ := h.reporting_of_sentLast cfg.placed (hsent ▸ Nat.zero_le _)
  refine ⟨h.aborted, hphase, h.wires.congr rfl, ⟨dealt, ?_⟩, Or.inl ⟨counted, ?_⟩⟩
  · exact hdeals.setPhase (hsent'.trans hsent.symm) hending
  · exact hrep.congr (fun _ => rfl) rfl rfl (fun _ => rfl) rfl (Or.inr (hrep.event.resolve_left hidle)) hret

theorem inv_call (h : Inv s) (hphase : s.phase = .idle) :
    Inv { s with phase := .loop, event := Function.update s.event cfg.caller false } := by
  obtain ⟨dealt, hdeals⟩ := h.deals
  have hsent : s.phase.sentLast cfg.numNodes = 0 := by rw [hphase]; rfl
  obtain ⟨counted, hrep⟩ := h.reporting_of_sentLast cfg.placed (hsent ▸ Nat.zero_le _)
  refine ⟨h.aborted, trivial, h.wires.congr rfl, ⟨dealt, ?_⟩, Or.inl ⟨counted, ?_⟩⟩
  · exact hdeals.setPhase hsent.symm fun hend => hend.elim
  · refine hrep.congr (fun _ => rfl) rfl rfl (fun _ => rfl) rfl (Or.inr ?_) fun hc => by cases hc
    exact Function.update_self ..

theorem inv_own (h : Inv s) {ps rest : List cfg.Pair} {data : List Checkpoint.Byte}
    (hphase : s.phase = .loop) (hitr : s.itr = ps ++ rest) (hgood : (⟨0, data, ps⟩ : Packet cfg).Good) :
    Inv ({ s with itr := rest, turns := s.turns + 1 }.setNode cfg.self ((s.nodes cfg.self).take ps)) := by
  obtain ⟨dealt, hdeals⟩ := h.deals
  have hsent : s.phase.sentLast cfg.numNodes = 0 := by rw [hphase]; rfl
  obtain ⟨counted, hrep⟩ := h.reporting_of_sentLast cfg.placed (hsent ▸ Nat.zero_le _)
  refine ⟨h.aborted, ?_, h.wires.congr rfl, ⟨_, hdeals.deal cfg.placed hitr rfl ?_ ?_ ?_⟩,
    Or.inl ⟨counted, hrep.take rfl (fun _ => rfl) rfl rfl rfl⟩⟩
  · show PhaseOk { s with itr := rest }
    rw [PhaseOk, hphase]
    trivial
  · show ¬s.phase.isEnding
    rw [hphase]
    exact id
  · have hlane := hdeals.lane cfg.self cfg.placed
    rw [h.wires.own] at hlane
    simp only [State.setNode, Function.update_self]
    rw [h.wires.own]
    exact hlane.takeOwn (hsent ▸ Nat.zero_le _) hgood rfl
  · intro j hj
    exact ⟨Function.update_of_ne hj .., rfl⟩

/-- The caller sends some pairs to a node. -/
theorem inv_deal (h : Inv s) {ready : Nat → Bool} {i : Nat} {ps rest : List cfg.Pair}
    {data : List Checkpoint.Byte} (hphase : s.phase = .pass ready i) (hi : i < cfg.numNodes)
    (hself : i ≠ cfg.self) (hready : ready i = true) (hitr : s.itr = ps ++ rest)
    (hgood : (⟨0, data, ps⟩ : Packet cfg).Good) :
    Inv ({ s with
      itr := rest
      turns := s.turns + 1
      phase := .pass ready (i + 1) }.send cfg.self i (.accumulate ⟨0, data, ps⟩)) := by
  obtain ⟨dealt, hdeals⟩ := h.deals
  have hsent : s.phase.sentLast cfg.numNodes = 0 := by rw [hphase]; rfl
  obtain ⟨counted, hrep⟩ := h.reporting_of_sentLast cfg.placed (hsent ▸ Nat.zero_le _)
  refine ⟨h.aborted, ⟨hi, ⟨i, hi, hself, hready⟩, Or.inl ⟨i, Nat.lt_succ_self i, hself, hready⟩⟩,
    h.wires.sendPacket hi hself rfl, ⟨_, hdeals.deal hi hitr hsent.symm id ?_ ?_⟩, Or.inl ⟨counted, ?_⟩⟩
  · rw [State.send, channel_setChannel_self, packets_append]
    exact (hdeals.lane i hi).send (hsent ▸ Nat.zero_le _) hgood rfl
  · intro j hj
    exact ⟨rfl, channel_setChannel_of_ne (Or.inr hj)⟩
  · refine hrep.congr (fun _ => rfl) rfl rfl (fun j => ?_) rfl (Or.inr ?_) fun hc => by cases hc
    · exact reports_sendPacket ..
    · refine hrep.event.resolve_left fun hc => ?_
      rw [hphase] at hc
      cases hc

/-- The connections after a node has finished. -/
theorem Wires.finish (h : Wires s) {i : Nat} (hi : i < cfg.numNodes) : Wires (finishNode s i) := by
  rw [finishNode]
  dsimp only
  split
  · obtain ⟨_, _, _, _, heq⟩ := partialDone_frame
      (s.setNode i { arrive cfg (s.nodes i) i cfg.self cfg.threadId with val := 0 })
    rw [heq]
    exact h.congr rfl
  · rename_i hpos
    exact h.sendReport hi hpos rfl

theorem Phase.ne_idle_of_sentLast {phase : Phase} {n i : Nat} (h : i < phase.sentLast n) :
    phase ≠ .idle := by
  rintro rfl
  exact Nat.not_lt_zero i h

/-- A node finishes. -/
theorem Inv.finish {i : Nat} {dealt : Nat → List cfg.Pair} {counted : Finset Nat} (hi : i < cfg.numNodes)
    (hgoing : s.aborted = false) (hok : PhaseOk s) (hwires : Wires s) (hdeals : Deals (finishNode s i) dealt)
    (hrep : Reporting s counted ∅) (hidle : s.phase ≠ .idle) (hopen : (s.nodes i).finished = false) :
    Inv (finishNode s i) := by
  have hframe := frame_finishNode s i
  refine ⟨hframe.aborted.trans hgoing, ?_, hwires.finish hi, ⟨dealt, hdeals⟩, hrep.finish hidle hopen⟩
  rw [PhaseOk, hframe.phase, hframe.itr]
  exact hok

/-- Before the own node takes its last packet. -/
theorem Inv.before_ownLast (h : Inv s) {i : Nat} (hphase : s.phase = .last i) (hi : i < cfg.numNodes) :
    ∃ counted, Reporting { s with phase := .last (i + 1) } counted ∅ ∧ (s.nodes i).finished = false := by
  obtain ⟨dealt, hdeals⟩ := h.deals
  have hsent : s.phase.sentLast cfg.numNodes = i := by rw [hphase]; rfl
  obtain ⟨counted, hrep⟩ := h.reporting_of_sentLast hi (Nat.le_of_eq hsent)
  refine ⟨counted, ?_, ?_⟩
  · refine hrep.congr (fun _ => rfl) rfl rfl (fun _ => rfl) rfl (Or.inr ?_) fun hc => by cases hc
    refine hrep.event.resolve_left fun hc => ?_
    rw [hphase] at hc
    cases hc
  · have hlane := hdeals.lane i hi
    rw [hsent] at hlane
    by_contra hf
    rw [Bool.not_eq_false] at hf
    exact absurd (hlane.of_finished hf).2.1 (Nat.lt_irrefl i)

theorem inv_ownLast (h : Inv s) {i : Nat} (hphase : s.phase = .last i) (hi : i < cfg.numNodes)
    (hself : i = cfg.self) : Inv (finishNode { s with phase := .last (i + 1) } i) := by
  obtain ⟨dealt, hdeals⟩ := h.deals
  obtain ⟨counted, hrep, hopen⟩ := h.before_ownLast hphase hi
  have hwires : Wires { s with phase := .last (i + 1) } := h.wires.congr rfl
  exact Inv.finish hi h.aborted hi hwires (hdeals.ownLast h.wires hphase hself) hrep
    (fun hc => by cases hc) hopen

theorem inv_sendLast (h : Inv s) {i : Nat} (hphase : s.phase = .last i) (hi : i < cfg.numNodes)
    (hself : i ≠ cfg.self) :
    Inv ({ s with phase := .last (i + 1) }.send cfg.self i (.accumulate (lastPacket cfg))) := by
  obtain ⟨dealt, hdeals⟩ := h.deals
  have hsent : s.phase.sentLast cfg.numNodes = i := by rw [hphase]; rfl
  obtain ⟨counted, hrep⟩ := h.reporting_of_sentLast hi (Nat.le_of_eq hsent)
  refine ⟨h.aborted, hi, h.wires.sendPacket hi hself rfl, ⟨dealt, hdeals.sendLast hphase hself⟩,
    Or.inl ⟨counted, ?_⟩⟩
  refine hrep.congr (fun _ => rfl) rfl rfl (fun j => ?_) rfl (Or.inr ?_) fun hc => by cases hc
  · exact reports_sendPacket ..
  · refine hrep.event.resolve_left fun hc => ?_
    rw [hphase] at hc
    cases hc

theorem inv_wait (h : Inv s) {i : Nat} (hphase : s.phase = .last i) (hi : ¬i < cfg.numNodes) :
    Inv { s with phase := .waiting } := by
  obtain ⟨dealt, hdeals⟩ := h.deals
  have hok := h.phase
  rw [PhaseOk, hphase] at hok
  have hsent : s.phase.sentLast cfg.numNodes = cfg.numNodes := by
    rw [hphase]
    exact Nat.le_antisymm hok (Nat.le_of_not_lt hi)
  refine ⟨h.aborted, trivial, h.wires.congr rfl, ⟨dealt, hdeals.setPhase hsent.symm fun _ => ?_⟩, ?_⟩
  · apply hdeals.ending
    rw [hphase]
    trivial
  · rcases h.reporting with ⟨counted, hrep⟩ | hrel
    · refine Or.inl ⟨counted, hrep.congr (fun _ => rfl) rfl rfl (fun _ => rfl) rfl (Or.inr ?_) ?_⟩
      · refine hrep.event.resolve_left fun hc => ?_
        rw [hphase] at hc
        cases hc
      · exact fun hc => by cases hc
    · refine Or.inr ⟨hrel.finished, hrel.report, hrel.woken.imp_right fun hw => ?_⟩
      exact ⟨hw.1, Phase.noConfusion, hw.2.2⟩

theorem inv_ret (h : Inv s) (hphase : s.phase = .waiting) (hevent : s.event cfg.caller = true) :
    Inv { s with phase := .returned } := by
  obtain ⟨dealt, hdeals⟩ := h.deals
  have hsent : s.phase.sentLast cfg.numNodes = cfg.numNodes := by rw [hphase]; rfl
  refine ⟨h.aborted, trivial, h.wires.congr rfl, ⟨dealt, hdeals.setPhase hsent.symm fun _ => ?_⟩, ?_⟩
  · apply hdeals.ending
    rw [hphase]
    trivial
  · rcases h.reporting with ⟨counted, hrep⟩ | hrel
    · rcases hrep.event with hidle | hno
      · rw [hphase] at hidle
        cases hidle
      · rw [hevent] at hno
        cases hno
    · refine Or.inr ⟨hrel.finished, hrel.report, Or.inl ?_⟩
      rcases hrel.woken with hw | ⟨hno, -⟩
      · exact hw
      · rw [hevent] at hno
        cases hno

theorem inv_take (h : Inv s) {i : Nat} {p : Packet cfg} {rest : List (Message cfg)} (hi : i < cfg.numNodes)
    (hchannel : s.channel cfg.self i = .accumulate p :: rest) (hid : p.threadId = 0) :
    Inv ((s.setChannel cfg.self i rest).setNode i ((s.nodes i).take p.pairs)) := by
  obtain ⟨dealt, hdeals⟩ := h.deals
  have hne : packets (s.channel cfg.self i) ≠ [] := by
    rw [hchannel]
    exact List.cons_ne_nil _ _
  obtain ⟨counted, hrep⟩ := h.reporting_of_packet hi hne
  refine ⟨h.aborted, h.phase, (h.wires.tail hchannel).congr rfl, ⟨dealt, hdeals.take hi hchannel hid⟩,
    Or.inl ⟨counted, hrep.take rfl (fun j => ?_) rfl rfl rfl⟩⟩
  exact reports_tailPacket hchannel j 0

/-- Before a node takes its last packet. -/
theorem Inv.before_takeLast (h : Inv s) {i : Nat} {rest : List (Message cfg)} (hi : i < cfg.numNodes)
    (hchannel : s.channel cfg.self i = .accumulate (lastPacket cfg) :: rest) :
    ∃ counted, Reporting (s.setChannel cfg.self i rest) counted ∅ ∧ (s.nodes i).finished = false ∧
      i < s.phase.sentLast cfg.numNodes := by
  obtain ⟨dealt, hdeals⟩ := h.deals
  have hne : packets (s.channel cfg.self i) ≠ [] := by
    rw [hchannel]
    exact List.cons_ne_nil _ _
  obtain ⟨counted, hrep⟩ := h.reporting_of_packet hi hne
  have hlane := hdeals.lane i hi
  rw [hchannel] at hlane
  obtain ⟨-, hopen, hlt, -⟩ := hlane.take.resolve_left fun hdata => cfg.id_ne_zero hdata.1
  refine ⟨counted, ?_, hopen, hlt⟩
  exact hrep.congr (fun _ => rfl) rfl rfl (fun j => reports_tailPacket hchannel j 0) rfl hrep.event hrep.phase

theorem inv_takeLast (h : Inv s) {i : Nat} {rest : List (Message cfg)} (hi : i < cfg.numNodes)
    (hchannel : s.channel cfg.self i = .accumulate (lastPacket cfg) :: rest) :
    Inv (finishNode (s.setChannel cfg.self i rest) i) := by
  obtain ⟨dealt, hdeals⟩ := h.deals
  obtain ⟨counted, hrep, hopen, hlt⟩ := h.before_takeLast hi hchannel
  exact Inv.finish hi h.aborted h.phase (h.wires.tail hchannel) (hdeals.takeLast hchannel) hrep
    (Phase.ne_idle_of_sentLast hlt) hopen

/-- Before the master counts a report. -/
theorem Inv.before_count (h : Inv s) {i : Nat} {rest : List (Message cfg)} (hi : i < cfg.numNodes)
    (hchannel : s.channel i 0 = .partialDone :: rest) :
    ∃ counted, Reporting (s.setChannel i 0 rest) counted {i} ∧ i < s.phase.sentLast cfg.numNodes := by
  obtain ⟨dealt, hdeals⟩ := h.deals
  have hne : reports (s.channel i 0) ≠ 0 := by
    rw [hchannel]
    exact Nat.succ_ne_zero _
  obtain ⟨counted, hrep⟩ := h.reporting_of_report hi hne
  have hhand := hrep.consume hi hchannel
  have hfin := (hhand.inHand i (Finset.mem_singleton_self i)).2.1
  exact ⟨counted, hhand, ((hdeals.lane i hi).of_finished hfin).2.1⟩

theorem inv_count (h : Inv s) {i : Nat} {rest : List (Message cfg)} (hi : i < cfg.numNodes)
    (hchannel : s.channel i 0 = .partialDone :: rest) :
    Inv (acAccumulatePartialDoneMsg cfg (s.setChannel i 0 rest)) := by
  obtain ⟨dealt, hdeals⟩ := h.deals
  obtain ⟨counted, hhand, hlt⟩ := h.before_count hi hchannel
  have hframe := frame_partialDone (s.setChannel i 0 rest)
  have hwires : Wires (acAccumulatePartialDoneMsg cfg (s.setChannel i 0 rest)) := by
    obtain ⟨_, _, _, _, heq⟩ := partialDone_frame (s.setChannel i 0 rest)
    rw [heq]
    exact (h.wires.tail hchannel).congr rfl
  have hdeals' : Deals (s.setChannel i 0 rest) dealt := by
    refine hdeals.frame ⟨rfl, rfl, rfl, fun _ => rfl, fun _ => rfl, fun _ => rfl, fun j l => ?_⟩
    by_cases heq : j = i ∧ l = 0
    · obtain ⟨rfl, rfl⟩ := heq
      rw [channel_setChannel_self, hchannel]
      rfl
    · rw [channel_setChannel_of_ne (not_and_or.mp heq)]
  refine ⟨hframe.aborted.trans h.aborted, ?_, hwires, ⟨dealt, hdeals'.frame hframe⟩,
    hhand.count (Phase.ne_idle_of_sentLast hlt)⟩
  rw [PhaseOk, hframe.phase, hframe.itr]
  exact h.phase

/-- Only the caller is woken. -/
theorem Inv.wakes_eq (h : Inv s) {m threadId : Nat} {rest : List Nat}
    (hwakes : s.wakes m = threadId :: rest) : m = cfg.self ∧ rest = [] := by
  rcases h.reporting with ⟨counted, hrep⟩ | hrel
  · rw [hrep.wakes m] at hwakes
    cases hwakes
  · rcases hrel.woken with ⟨-, hnone⟩ | ⟨-, -, hone⟩
    · rw [hnone m] at hwakes
      cases hwakes
    · rw [hone m] at hwakes
      split at hwakes
      · exact ⟨‹_›, (List.cons.inj hwakes).2.symm⟩
      · cases hwakes

theorem inv_wake (h : Inv s) {m threadId : Nat} {rest : List Nat} (hwakes : s.wakes m = threadId :: rest) :
    Inv { s with
      wakes := Function.update s.wakes m rest
      event := Function.update s.event ⟨m, threadId⟩ true } := by
  obtain ⟨dealt, hdeals⟩ := h.deals
  refine ⟨h.aborted, h.phase, h.wires.congr rfl, ⟨dealt, hdeals.lane, hdeals.perm, hdeals.ending⟩, Or.inr ?_⟩
  rcases h.reporting with ⟨counted, hrep⟩ | hrel
  · rw [hrep.wakes m] at hwakes
    cases hwakes
  · refine ⟨hrel.finished, hrel.report, Or.inl ?_⟩
    rcases hrel.woken with ⟨-, hnone⟩ | ⟨-, -, hone⟩
    · rw [hnone m] at hwakes
      cases hwakes
    · rw [hone m] at hwakes
      by_cases hm : m = cfg.self
      · rw [if_pos hm] at hwakes
        obtain ⟨rfl, rfl⟩ := List.cons.inj hwakes
        subst hm
        refine ⟨Function.update_self .., fun m => ?_⟩
        show Function.update s.wakes cfg.self [] m = []
        by_cases hm : m = cfg.self
        · rw [hm, Function.update_self]
        · rw [Function.update_of_ne hm, hone m, if_neg hm]
      · rw [if_neg hm] at hwakes
        cases hwakes

theorem inv_move (h : Inv s) (hmove : Move s s') : Inv s' := by
  cases hmove with
  | call hphase => exact inv_call h hphase
  | dealt hphase hitr =>
      refine h.setPhase ?_ ?_ (Nat.zero_le _) rfl (fun _ => hitr) fun hc => by cases hc
      · rw [hphase]
        rfl
      · rw [hphase]
        exact Phase.noConfusion
  | own hphase hitr hne hgood => exact inv_own h hphase hitr hgood
  | select hphase hitr hready =>
      refine h.setPhase ?_ ?_ ⟨Nat.zero_le _, hready, Or.inr hitr⟩ rfl (fun hc => hc.elim) fun hc => by cases hc
      · rw [hphase]
        rfl
      · rw [hphase]
        exact Phase.noConfusion
  | deal hphase hi hself hready hitr hne hgood => exact inv_deal h hphase hi hself hready hitr hgood
  | @skip ready i hphase hi hskip =>
      have hok := h.phase
      rw [PhaseOk, hphase] at hok
      have hok' : (∃ j < i + 1, j ≠ cfg.self ∧ ready j = true) ∨ s.itr ≠ [] := by
        apply hok.2.2.imp_left
        rintro ⟨j, hj, hrest⟩
        exact ⟨j, Nat.lt_succ_of_lt hj, hrest⟩
      refine h.setPhase ?_ ?_ ⟨hi, hok.2.1, hok'⟩ rfl (fun hc => hc.elim) fun hc => by cases hc
      · rw [hphase]
        rfl
      · rw [hphase]
        exact Phase.noConfusion
  | passed hphase hi =>
      refine h.setPhase ?_ ?_ trivial rfl (fun hc => hc.elim) fun hc => by cases hc
      · rw [hphase]
        rfl
      · rw [hphase]
        exact Phase.noConfusion
  | ownLast hphase hi hself => exact inv_ownLast h hphase hi hself
  | sendLast hphase hi hself => exact inv_sendLast h hphase hi hself
  | wait hphase hi => exact inv_wait h hphase hi
  | ret hphase hevent => exact inv_ret h hphase hevent
  | take hi hchannel hid => exact inv_take h hi hchannel hid
  | takeLast hi hchannel => exact inv_takeLast h hi hchannel
  | count hi hchannel => exact inv_count h hi hchannel
  | wake hwakes => exact inv_wake h hwakes

end Steps

/-! ## Every run ends -/

/-- What a message is worth: the steps that it can cause. -/
def Message.weight : Message cfg → Nat
  | .accumulate p => if p.threadId = 0 then 1 else 4
  | .partialDone => 2

def load (msgs : List (Message cfg)) : Nat := (msgs.map Message.weight).sum

def traffic (s : State cfg) : Nat :=
  ∑ i ∈ Finset.range cfg.numNodes, ∑ j ∈ Finset.range cfg.numNodes, load (s.channel i j)

/-- A pair is worth more than a pass over the sockets. -/
def pairWorth (cfg : Config) : Nat := 2 * cfg.numNodes + 4

/-- What is left to do for the caller. A pass that has dealt nothing yet is paid by the pair that it
will deal. -/
def callerWork (s : State cfg) : Nat :=
  match s.phase with
  | .idle => pairWorth cfg * s.itr.length + (5 * cfg.numNodes + 5)
  | .loop => pairWorth cfg * s.itr.length + (5 * cfg.numNodes + 4)
  | .pass ready i =>
      if ∃ j < i, j ≠ cfg.self ∧ ready j = true then
        pairWorth cfg * s.itr.length + (5 * cfg.numNodes + 5) + 2 * (cfg.numNodes - i)
      else pairWorth cfg * s.itr.length + (5 * cfg.numNodes + 3 - i)
  | .last i => 5 * (cfg.numNodes - i) + 3
  | .waiting => 2
  | .returned => 1

def work (s : State cfg) : Nat := callerWork s + traffic s + (s.wakes cfg.self).length

section Work

variable {s s' : State cfg} {i j : Nat}

theorem load_append (msgs msgs' : List (Message cfg)) : load (msgs ++ msgs') = load msgs + load msgs' := by
  rw [load, List.map_append, List.sum_append]
  rfl

theorem load_cons (m : Message cfg) (msgs : List (Message cfg)) : load (m :: msgs) = m.weight + load msgs := by
  rw [load, List.map_cons, List.sum_cons]
  rfl

/-- One summand changes. -/
theorem sum_update {n : Nat} (hi : i < n) {α : Type} (f : α → Nat) (g : Nat → α) (v : α) :
    (∑ j ∈ Finset.range n, f (Function.update g i v j)) + f (g i) =
      (∑ j ∈ Finset.range n, f (g j)) + f v := by
  have hmem := Finset.mem_range.mpr hi
  have hrest : ∑ j ∈ (Finset.range n).erase i, f (Function.update g i v j) =
      ∑ j ∈ (Finset.range n).erase i, f (g j) := by
    apply Finset.sum_congr rfl
    intro j hj
    rw [Function.update_of_ne (Finset.ne_of_mem_erase hj)]
  have hnew := Finset.add_sum_erase _ (fun j => f (Function.update g i v j)) hmem
  have hold := Finset.add_sum_erase _ (fun j => f (g j)) hmem
  rw [hrest, Function.update_self] at hnew
  rw [← hnew, ← hold]
  omega

theorem traffic_setChannel (s : State cfg) (hi : i < cfg.numNodes) (hj : j < cfg.numNodes)
    (msgs : List (Message cfg)) :
    traffic (s.setChannel i j msgs) + load (s.channel i j) = traffic s + load msgs := by
  have hrow := sum_update hj load (s.channel i) msgs
  have hall := sum_update hi (fun row : Nat → List (Message cfg) =>
    ∑ j ∈ Finset.range cfg.numNodes, load (row j)) s.channel (Function.update (s.channel i) j msgs)
  rw [traffic, traffic]
  simp only [State.setChannel]
  omega

/-- A message is sent. -/
theorem work_send (s : State cfg) (hi : i < cfg.numNodes) (hj : j < cfg.numNodes) (m : Message cfg) :
    work (s.send i j m) = work s + m.weight := by
  have htraffic := traffic_setChannel s hi hj (s.channel i j ++ [m])
  have hcaller : callerWork (s.send i j m) = callerWork s := rfl
  have hwakes : (s.send i j m).wakes = s.wakes := rfl
  have hnil : load ([] : List (Message cfg)) = 0 := rfl
  rw [load_append, load_cons] at htraffic
  rw [work, work, hcaller, hwakes, State.send]
  omega

/-- A message is taken. -/
theorem work_tail (s : State cfg) (hi : i < cfg.numNodes) (hj : j < cfg.numNodes) {m : Message cfg}
    {rest : List (Message cfg)} (hchannel : s.channel i j = m :: rest) :
    work (s.setChannel i j rest) + m.weight = work s := by
  have htraffic := traffic_setChannel s hi hj rest
  have hcaller : callerWork (s.setChannel i j rest) = callerWork s := rfl
  have hwakes : (s.setChannel i j rest).wakes = s.wakes := rfl
  rw [hchannel, load_cons] at htraffic
  rw [work, work, hcaller, hwakes]
  omega

/-- Only the caller has moved on. -/
theorem work_of_callerWork {k : Nat} (hchannel : s'.channel = s.channel) (hwakes : s'.wakes = s.wakes)
    (hle : callerWork s' + k ≤ callerWork s) : work s' + k ≤ work s := by
  rw [work, work, traffic, traffic, hchannel, hwakes]
  omega

/-- Counting a report wakes at most one thread. -/
theorem work_partialDone {counted : Finset Nat} {hand : Finset Nat} (h : Reporting s counted hand) :
    work (acAccumulatePartialDoneMsg cfg s) ≤ work s + 1 := by
  have hframe := frame_partialDone s
  have hcaller : callerWork (acAccumulatePartialDoneMsg cfg s) = callerWork s := by
    rw [callerWork, callerWork, hframe.phase, hframe.itr]
  have htraffic : traffic (acAccumulatePartialDoneMsg cfg s) = traffic s := by
    obtain ⟨_, _, _, _, heq⟩ := partialDone_frame s
    rw [heq]
    rfl
  have hwakes : ((acAccumulatePartialDoneMsg cfg s).wakes cfg.self).length ≤ 1 := by
    rw [acAccumulatePartialDoneMsg]
    dsimp only
    split
    · rw [h.waitlist]
      split
      · simp only [List.foldl_cons, List.foldl_nil, State.rcWakeRemoteThread, State.setNode]
        split
        · rw [h.wakes]
          exact Nat.zero_le 1
        · show (Function.update s.wakes cfg.self (s.wakes cfg.self ++ [_]) cfg.self).length ≤ 1
          rw [Function.update_self, h.wakes]
          exact Nat.le_refl 1
      · show (s.wakes cfg.self).length ≤ 1
        rw [h.wakes]
        exact Nat.zero_le 1
    · show (s.wakes cfg.self).length ≤ 1
      rw [h.wakes]
      exact Nat.zero_le 1
  rw [work, work, hcaller, htraffic]
  omega

/-- A node that finishes causes at most one report. -/
theorem work_finishNode {counted : Finset Nat} (h : Reporting s counted ∅) (hi : i < cfg.numNodes)
    (hopen : (s.nodes i).finished = false) : work (finishNode s i) ≤ work s + 2 := by
  rw [finishNode]
  dsimp only
  split
  · rename_i hzero
    subst hzero
    exact Nat.le_trans (work_partialDone (h.arrive_master hopen)) (Nat.le_succ _)
  · have hpos : 0 < cfg.numNodes := Nat.lt_of_le_of_lt (Nat.zero_le _) cfg.placed
    exact Nat.le_of_eq (work_send _ hi hpos .partialDone)

/-- The work of the caller when some pairs are dealt. -/
theorem pairWorth_mul_length {ps : List cfg.Pair} (rest : List cfg.Pair) (hne : ps ≠ []) :
    pairWorth cfg * rest.length + pairWorth cfg ≤ pairWorth cfg * (ps ++ rest).length := by
  have hlen : rest.length + 1 ≤ (ps ++ rest).length := by
    have hpos := List.length_pos_of_ne_nil hne
    rw [List.length_append]
    omega
  exact Nat.le_trans (Nat.le_of_eq (Nat.mul_succ ..).symm) (Nat.mul_le_mul_left _ hlen)

/-- The work of a pass that goes on. -/
theorem callerWork_pass {ready : Nat → Bool} (hphase : s.phase = .pass ready i) :
    callerWork s = if ∃ j < i, j ≠ cfg.self ∧ ready j = true then
        pairWorth cfg * s.itr.length + (5 * cfg.numNodes + 5) + 2 * (cfg.numNodes - i)
      else pairWorth cfg * s.itr.length + (5 * cfg.numNodes + 3 - i) := by
  rw [callerWork, hphase]

/-- Some pairs are sent; after the first ones the pass is paid by the pairs that are gone. -/
theorem work_deal (h : Inv s) {ready : Nat → Bool} {ps rest : List cfg.Pair}
    {data : List Checkpoint.Byte} (hphase : s.phase = .pass ready i) (hi : i < cfg.numNodes)
    (hself : i ≠ cfg.self) (hready : ready i = true) (hitr : s.itr = ps ++ rest)
    (hne : s.itr ≠ [] → ps ≠ []) :
    work ({ s with
      itr := rest
      turns := s.turns + 1
      phase := .pass ready (i + 1) }.send cfg.self i (.accumulate ⟨0, data, ps⟩)) < work s := by
  have hweight : (Message.accumulate (⟨0, data, ps⟩ : Packet cfg)).weight = 1 := rfl
  rw [work_send _ cfg.placed hi, hweight]
  refine work_of_callerWork (k := 2) rfl rfl ?_
  rw [callerWork_pass hphase, callerWork_pass rfl, if_pos ⟨i, Nat.lt_succ_self i, hself, hready⟩, hitr]
  split
  · have hle : pairWorth cfg * rest.length ≤ pairWorth cfg * (ps ++ rest).length :=
      Nat.mul_le_mul_left _ (by rw [List.length_append]; omega)
    dsimp only
    omega
  · rename_i hnone
    have hok := h.phase
    rw [PhaseOk, hphase] at hok
    have hle := pairWorth_mul_length rest (hne (hok.2.2.resolve_left hnone))
    rw [pairWorth] at hle ⊢
    dsimp only
    omega

/-- A socket that is not ready, or the own node. -/
theorem work_skip {ready : Nat → Bool} (hphase : s.phase = .pass ready i) (hi : i < cfg.numNodes)
    (hskip : ¬(i ≠ cfg.self ∧ ready i = true)) : work { s with phase := .pass ready (i + 1) } < work s := by
  have hiff : (∃ j < i + 1, j ≠ cfg.self ∧ ready j = true) ↔ ∃ j < i, j ≠ cfg.self ∧ ready j = true := by
    constructor
    · rintro ⟨j, hj, hready⟩
      refine ⟨j, Nat.lt_of_le_of_ne (Nat.le_of_lt_succ hj) ?_, hready⟩
      rintro rfl
      exact hskip hready
    · rintro ⟨j, hj, hready⟩
      exact ⟨j, Nat.lt_succ_of_lt hj, hready⟩
  refine work_of_callerWork (k := 1) rfl rfl ?_
  rw [callerWork_pass hphase, callerWork_pass rfl]
  simp only [hiff]
  split
  · omega
  · omega

/-- A pass has dealt something when it ends. -/
theorem work_passed (h : Inv s) {ready : Nat → Bool} (hphase : s.phase = .pass ready i)
    (hi : ¬i < cfg.numNodes) : work { s with phase := .loop } < work s := by
  have hok := h.phase
  rw [PhaseOk, hphase] at hok
  obtain ⟨j, hj, hready⟩ := hok.2.1
  refine work_of_callerWork (k := 1) rfl rfl ?_
  rw [callerWork_pass hphase, if_pos ⟨j, Nat.lt_of_lt_of_le hj (Nat.le_of_not_lt hi), hready⟩]
  simp only [callerWork]
  omega

/-- Every step lowers the work that is left. -/
theorem work_move (h : Inv s) (hmove : Move s s') : work s' < work s := by
  obtain ⟨dealt, hdeals⟩ := h.deals
  cases hmove with
  | call hphase =>
      refine work_of_callerWork (k := 1) rfl rfl ?_
      simp only [callerWork, hphase]
      omega
  | dealt hphase hitr =>
      refine work_of_callerWork (k := 1) rfl rfl ?_
      simp only [callerWork, hphase]
      omega
  | @own ps rest data hphase hitr hne hgood =>
      have hle := pairWorth_mul_length rest hne
      have hpos : 0 < pairWorth cfg := Nat.lt_of_lt_of_le (by decide) (Nat.le_add_left 4 _)
      refine work_of_callerWork (k := 1) rfl rfl ?_
      simp only [callerWork, hphase, State.setNode, hitr]
      omega
  | select hphase hitr hready =>
      refine work_of_callerWork (k := 1) rfl rfl ?_
      simp only [callerWork, hphase, Nat.not_lt_zero, false_and, exists_false, if_false]
      omega
  | deal hphase hi hself hready hitr hne hgood => exact work_deal h hphase hi hself hready hitr hne
  | skip hphase hi hskip => exact work_skip hphase hi hskip
  | passed hphase hi => exact work_passed h hphase hi
  | @ownLast i hphase hi hself =>
      have hcaller : work { s with phase := .last (i + 1) } + 5 ≤ work s := by
        refine work_of_callerWork rfl rfl ?_
        simp only [callerWork, hphase]
        omega
      obtain ⟨counted, hrep, hopen⟩ := h.before_ownLast hphase hi
      have hfinish := work_finishNode hrep hi hopen
      omega
  | @sendLast i hphase hi hself =>
      have hcaller : work { s with phase := .last (i + 1) } + 5 ≤ work s := by
        refine work_of_callerWork rfl rfl ?_
        simp only [callerWork, hphase]
        omega
      have hweight : (Message.accumulate (lastPacket cfg)).weight = 4 := if_neg cfg.id_ne_zero
      rw [work_send _ cfg.placed hi, hweight]
      omega
  | wait hphase hi =>
      refine work_of_callerWork (k := 1) rfl rfl ?_
      simp only [callerWork, hphase]
      omega
  | ret hphase hevent =>
      refine work_of_callerWork (k := 1) rfl rfl ?_
      simp only [callerWork, hphase]
      omega
  | @take i p rest hi hchannel hid =>
      have htail := work_tail s cfg.placed hi hchannel
      have hweight : (Message.accumulate p).weight = 1 := if_pos hid
      have hnode : work ((s.setChannel cfg.self i rest).setNode i ((s.nodes i).take p.pairs)) =
          work (s.setChannel cfg.self i rest) := rfl
      rw [hnode]
      omega
  | @takeLast i rest hi hchannel =>
      obtain ⟨counted, hrep, hopen, -⟩ := h.before_takeLast hi hchannel
      have htail := work_tail s cfg.placed hi hchannel
      have hweight : (Message.accumulate (lastPacket cfg)).weight = 4 := if_neg cfg.id_ne_zero
      have hfinish := work_finishNode hrep hi hopen
      omega
  | @count i rest hi hchannel =>
      obtain ⟨counted, hhand, -⟩ := h.before_count hi hchannel
      have hpos : 0 < cfg.numNodes := Nat.lt_of_le_of_lt (Nat.zero_le _) cfg.placed
      have htail := work_tail s hi hpos hchannel
      have hweight : (Message.partialDone : Message cfg).weight = 2 := rfl
      have hcount := work_partialDone hhand
      omega
  | @wake m threadId rest hwakes =>
      obtain ⟨rfl, rfl⟩ := h.wakes_eq hwakes
      have hcaller : ∀ w e, callerWork { s with wakes := w, event := e } = callerWork s := fun _ _ => rfl
      have htraffic : ∀ w e, traffic { s with wakes := w, event := e } = traffic s := fun _ _ => rfl
      rw [work, work, hcaller, htraffic, hwakes]
      show _ + (Function.update s.wakes cfg.self [] cfg.self).length < _
      rw [Function.update_self]
      exact Nat.lt_succ_self _

end Work

/-! ## The end of a run -/

section End

variable {s : State cfg}

theorem step_advance_ne_none (h : Inv s) (ready : Nat → Bool)
    (hne : ∀ mybuf, advance cfg s mybuf ready ≠ none) : ∃ a, step cfg s a ≠ none := by
  refine ⟨.advance (List.replicate (4 * bufLen) 0) ready, ?_⟩
  simp only [step, h.aborted, Bool.false_eq_true, if_false, List.length_replicate, if_true]
  exact hne _

theorem step_deliver_ne_none (h : Inv s) (src dst : Nat) (hne : s.channel src dst ≠ []) :
    ∃ a, step cfg s a ≠ none := by
  obtain ⟨m, rest, hchannel⟩ := List.exists_cons_of_ne_nil hne
  refine ⟨.deliver src dst, ?_⟩
  simp only [step, h.aborted, hchannel, Bool.false_eq_true, if_false]
  exact Option.some_ne_none _

/-- When it is not the caller's own turn, there is another node. -/
theorem exists_other {turns : BitVec 32} (hturn : ¬turns.toInt.tmod cfg.numNodes = cfg.self) :
    ∃ i < cfg.numNodes, i ≠ cfg.self := by
  by_contra hnone
  push Not at hnone
  have hself := hnone 0 (Nat.lt_of_le_of_lt (Nat.zero_le _) cfg.placed)
  have hone : cfg.numNodes = 1 := by
    by_contra hne
    have hpos := cfg.placed
    have hsecond := hnone 1 (by omega)
    omega
  apply hturn
  rw [hone, ← hself]
  exact Int.tmod_one _

/-- While the caller waits, a message is on its way. -/
theorem enabled_of_waiting (h : Inv s) (hphase : s.phase = .waiting) : ∃ a, step cfg s a ≠ none := by
  obtain ⟨dealt, hdeals⟩ := h.deals
  rcases h.reporting with ⟨counted, hrep⟩ | hrel
  · obtain ⟨i, hi, hnot⟩ := hrep.missing
    have hsent : s.phase.sentLast cfg.numNodes = cfg.numNodes := by rw [hphase]; rfl
    have hlane := hdeals.lane i hi
    rw [hsent] at hlane
    cases hf : (s.nodes i).finished with
    | true =>
        apply step_deliver_ne_none h i 0
        intro hnil
        have hreport := hrep.report i hi
        rw [hnil, if_pos ⟨hf, hnot, Finset.notMem_empty i⟩] at hreport
        cases hreport
    | false =>
        apply step_deliver_ne_none h cfg.self i
        intro hnil
        rw [hnil] at hlane
        generalize hps : packets ([] : List (Message cfg)) = ps at hlane
        cases hlane with
        | opened _ hk _ => exact absurd hi (Nat.not_lt_of_le hk)
        | closing => exact absurd hps.symm (List.append_ne_nil_of_right_ne_nil _ (List.cons_ne_nil _ _))
        | closed _ _ hdone =>
            rw [hf] at hdone
            cases hdone
  · rcases hrel.woken with ⟨hevent, -⟩ | ⟨-, -, hone⟩
    · apply step_advance_ne_none h fun _ => false
      intro mybuf
      simp only [advance, hphase, hevent, if_true]
      exact Option.some_ne_none _
    · refine ⟨.wake cfg.self, ?_⟩
      have hself := hone cfg.self
      rw [if_pos rfl] at hself
      simp only [step, h.aborted, hself, Bool.false_eq_true, if_false]
      exact Option.some_ne_none _

/-- Something can happen until `Map` has returned. -/
theorem returned_of_stuck (h : Inv s) (hstuck : ∀ a, step cfg s a = none) : s.phase = .returned := by
  by_contra hret
  have henabled : ∃ a, step cfg s a ≠ none := by
    cases hphase : s.phase with
    | idle =>
        apply step_advance_ne_none h fun _ => false
        intro mybuf
        simp [advance, hphase]
    | loop =>
        apply step_advance_ne_none h fun _ => true
        intro mybuf
        simp only [advance, hphase]
        split
        · exact Option.some_ne_none _
        · split
          · exact Option.some_ne_none _
          · rename_i hturn
            obtain ⟨i, hi, hself⟩ := exists_other hturn
            rw [if_pos ⟨i, hi, hself, trivial⟩]
            exact Option.some_ne_none _
    | pass ready i =>
        apply step_advance_ne_none h fun _ => false
        intro mybuf
        simp only [advance, hphase]
        split
        · split <;> exact Option.some_ne_none _
        · exact Option.some_ne_none _
    | last i =>
        apply step_advance_ne_none h fun _ => false
        intro mybuf
        simp only [advance, hphase]
        split
        · split <;> exact Option.some_ne_none _
        · exact Option.some_ne_none _
    | waiting => exact enabled_of_waiting h hphase
    | returned => exact absurd hphase hret
  obtain ⟨a, ha⟩ := henabled
  exact ha (hstuck a)

/-- When `Map` returns, every pair has been mapped once, as `DoMap` sees it. -/
theorem Inv.allRan_perm (h : Inv s) (hret : s.phase = .returned) :
    s.allRan.Perm (cfg.inMap.map cfg.shown) := by
  obtain ⟨dealt, hdeals⟩ := h.deals
  have hrel : Released s := h.reporting.resolve_left fun ⟨_, hrep⟩ => hrep.phase hret
  have hitr : s.itr = [] := by
    apply hdeals.ending
    rw [hret]
    trivial
  have hran : s.allRan = ((List.range cfg.numNodes).flatMap dealt).map cfg.shown := by
    rw [State.allRan, List.map_flatMap]
    apply List.flatMap_congr
    intro i hi
    have hi' := List.mem_range.mp hi
    exact ((hdeals.lane i hi').of_finished (hrel.finished i hi')).2.2.2
  have hperm := hdeals.perm
  rw [hitr, List.append_nil] at hperm
  rw [hran]
  exact hperm.map _

theorem inv_run (hfit : ∀ p ∈ cfg.inMap, cfg.size p ≤ bufLen) {event : SyncThreadNode → Bool} {as : List Act}
    (hrun : run (step cfg) (start cfg event) as = some s) : Inv s ∨ Failed s := by
  have hkeep : ∀ (s : State cfg) (a : Act) (t : State cfg), Inv s ∨ Failed s → step cfg s a = some t →
      Inv t ∨ Failed t := by
    rintro s a t (h | hfailed) hstep
    · exact (move_of_step hfit h hstep).imp_left (inv_move h)
    · simp [step, hfailed.1] at hstep
  exact invariant_reachable hkeep (Or.inl (inv_start event)) hrun

end End

theorem Config.noNul_shown (p : cfg.Pair) : cfg.noNul (cfg.shown p) = true := by
  rw [noNul, Bool.and_eq_true]
  exact ⟨cfg.keyTy.lawful.noNul_shown p.1, cfg.valueTy.lawful.noNul_shown p.2⟩

theorem Config.shown_eq {p : cfg.Pair} (h : cfg.noNul p = true) : cfg.shown p = p := by
  rw [noNul, Bool.and_eq_true] at h
  exact Prod.ext (cfg.keyTy.lawful.shown_eq p.1 h.1) (cfg.valueTy.lawful.shown_eq p.2 h.2)

/-- A pair that is mapped as it is has no zero byte. -/
theorem MapsExactlyOnce.noNul (hfit : ∀ p ∈ cfg.inMap, cfg.size p ≤ bufLen) (h : MapsExactlyOnce cfg)
    {p : cfg.Pair} (hp : p ∈ cfg.inMap) : cfg.noNul p = true := by
  obtain ⟨bound, hall⟩ := h fun _ => false
  obtain ⟨as, s, hrun, hstuck⟩ := exists_stuck_run fun as s hrun => (hall as s hrun).1
  obtain ⟨-, hret, honce⟩ := hall as s hrun
  have hinv : Inv s := (inv_run hfit hrun).resolve_right fun hfailed => hfailed.2.1 (hret hstuck)
  have hperm := (honce (hret hstuck)).symm.trans (hinv.allRan_perm (hret hstuck))
  obtain ⟨q, -, rfl⟩ := List.mem_map.mp (hperm.mem_iff.mp hp)
  exact Config.noNul_shown q

/-- Maps without zero bytes are mapped once. -/
theorem mapsExactlyOnce_of_noNul (hfit : ∀ p ∈ cfg.inMap, cfg.size p ≤ bufLen)
    (hclean : ∀ p ∈ cfg.inMap, cfg.noNul p = true) : MapsExactlyOnce cfg := by
  have hnofail : ∀ s : State cfg, ¬Failed s := by
    rintro s ⟨-, -, p, hp, hnul⟩
    rw [hclean p hp] at hnul
    cases hnul
  have hmap : cfg.inMap.map cfg.shown = cfg.inMap :=
    (List.map_congr_left fun p hp => Config.shown_eq (hclean p hp)).trans (List.map_id _)
  intro event
  refine ⟨work (start cfg event), fun as s hrun => ?_⟩
  have hinv : Inv s := (inv_run hfit hrun).resolve_right (hnofail s)
  have hlower : ∀ (s : State cfg) (a : Act) (t : State cfg), Inv s → step cfg s a = some t →
      Inv t ∧ work t < work s := by
    intro s a t h hstep
    have hmove := (move_of_step hfit h hstep).resolve_right (hnofail t)
    exact ⟨inv_move h hmove, work_move h hmove⟩
  refine ⟨?_, returned_of_stuck hinv, fun hret => ?_⟩
  · have hle := length_le_of_measure hlower (inv_start event) hrun
    omega
  · rw [← hmap]
    exact hinv.allRan_perm hret

/-- Every run of `Map` ends with each pair mapped once, on one node, exactly when no string of the map
has a zero byte. -/
theorem mapsExactlyOnce_iff (cfg : Config) (hfit : ∀ p ∈ cfg.inMap, cfg.size p ≤ bufLen) :
    MapsExactlyOnce cfg ↔ ∀ p ∈ cfg.inMap, cfg.noNul p = true :=
  ⟨fun h _ hp => h.noNul hfit hp, mapsExactlyOnce_of_noNul hfit⟩

/-- Two lines for the word count, on two nodes. -/
def twoLines : Config where
  numNodes := 2
  self := 0
  placed := Nat.two_pos
  threadId := 1
  id_ne_zero := Nat.one_ne_zero
  keyTy := .int
  valueTy := .string
  inMap := [((1 : Word), [79, 110, 32, 97]), ((2 : Word), [99, 111, 111, 108])]
  nodup := by decide
  ndebug := false

theorem mapsExactlyOnce_twoLines : MapsExactlyOnce twoLines :=
  (mapsExactlyOnce_iff twoLines (by decide)).mpr (by decide)

/-- A line with a zero byte, on one node. -/
def nulLine (ndebug : Bool) : Config where
  numNodes := 1
  self := 0
  placed := Nat.one_pos
  threadId := 1
  id_ne_zero := Nat.one_ne_zero
  keyTy := .int
  valueTy := .string
  inMap := [((1 : Word), [97, 0, 98])]
  nodup := by decide
  ndebug := ndebug

/-- With or without assertions, the line is not mapped. -/
theorem nulLine_not_mapped : ¬MapsExactlyOnce (nulLine false) ∧ ¬MapsExactlyOnce (nulLine true) := by
  constructor
  · intro h
    have hclean := h.noNul (by decide) (p := ((1 : Word), [97, 0, 98])) List.mem_cons_self
    revert hclean
    decide
  · intro h
    have hclean := h.noNul (by decide) (p := ((1 : Word), [97, 0, 98])) List.mem_cons_self
    revert hclean
    decide

end Dogee.MapReduce
