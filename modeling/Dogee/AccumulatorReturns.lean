import Dogee.AccumulatorDelivery
import Dogee.ThreadCounts

/-!
# The calls of an accumulator return

As long as nobody begins a call, each step of the cluster uses up something: a
thread comes nearer to the end of its loop, a message or a wake is taken off its
connection. Where nothing is left, every thread is outside, or it waits for one
that has not joined its round.

The loop of `_DoAccumulateAndWait` turns without sending as long as `select`
finds only connections to nodes that have got everything. A step of such a turn
is not counted: `select` finds a node that is still owed something.
-/

namespace Dogee.Accumulator

open SyncManager (SyncThreadNode)
open Transition ThreadCounts

variable {T : Type}

section Steps

variable (cfg : Config T)

/-- A ready node, from `k` on, that is still owed something. -/
def OwedFrom (u : SyncThreadNode) (th : Thread) (ready : Nat → Bool) (k : Nat) : Prop :=
  ∃ i < cfg.numNodes, k ≤ i ∧ th.sendIdx i < th.sendSize i ∧ i ≠ u.machine ∧ ready i = true

instance (u : SyncThreadNode) (th : Thread) (ready : Nat → Bool) (k : Nat) :
    Decidable (OwedFrom cfg u th ready k) := by
  unfold OwedFrom
  infer_instance

/-- `select` finds a node that is still owed something. -/
def findsReady (u : SyncThreadNode) (th : Thread) (ready : Nat → Bool) : Bool :=
  match th.phase with
  | .select => decide (th.done < cfg.numNodes → OwedFrom cfg u th ready 0)
  | _ => true

variable [Zero T]

/-- The steps while nobody begins a call. -/
def goOn (s : State T) : Act → Option (State T)
  | .call _ => none
  | .advance u ready =>
      if findsReady cfg u (s.threads u) ready then step cfg s (.advance u ready) else none
  | .ret u => step cfg s (.ret u)
  | .deliver src dst => step cfg s (.deliver src dst)
  | .wake machine => step cfg s (.wake machine)

theorem step_of_goOn {s s' : State T} {a : Act} (h : goOn cfg s a = some s') : step cfg s a = some s' := by
  cases a with
  | call u => cases h
  | advance u ready => exact (Option.ite_none_right_eq_some.mp h).2
  | ret u => exact h
  | deliver src dst => exact h
  | wake machine => exact h

end Steps

/-! ## What is left to do -/

section Left

variable (cfg : Config T)

/-- The cost of a packet: it may cause a report, and a report all the wakes. -/
def packetCost : Nat := cfg.users.length + 2

/-- The words that a thread has not sent. -/
def unsent (th : Thread) : Nat := ∑ i ∈ Finset.range cfg.numNodes, (th.sendSize i - th.sendIdx i)

/-- The words of all segments. -/
def whole : Nat := ∑ i ∈ Finset.range cfg.numNodes, (cfg.stop i - cfg.start i)

/-- The steps of one thread and what they cause. A pass that is going to send
something is as good as if it had. -/
def Thread.left (u : SyncThreadNode) (th : Thread) : Nat :=
  match th.phase with
  | .idle => 0
  | .waiting => 1
  | .select => 2 + (packetCost cfg + cfg.numNodes + 2) * unsent cfg th
  | .pass ready k => 3 + packetCost cfg * unsent cfg th +
      (cfg.numNodes + 2) * (unsent cfg th - if OwedFrom cfg u th ready k then 1 else 0) + (cfg.numNodes - k)
  | .own => 3 + packetCost cfg + (packetCost cfg + cfg.numNodes + 2) * whole cfg
  | .scan k => 4 + packetCost cfg + (packetCost cfg + cfg.numNodes + 2) * whole cfg +
      (cfg.numNodes - k) * (packetCost cfg + 1)

/-- The cost of what a step sends. -/
def outputCost : Option (Output T) → Nat
  | none => 0
  | some _ => packetCost cfg

/-- The cost of a message. -/
def Message.cost : Message T → Nat
  | .accumulate _ _ => packetCost cfg
  | .partialDone => cfg.users.length + 1

/-- The cost of the messages of a connection. -/
def connectionCost (msgs : List (Message T)) : Nat := (msgs.map (Message.cost cfg)).sum

/-- The cost of all messages on their way. -/
def messagesCost (channel : Nat → Nat → List (Message T)) : Nat :=
  total cfg.numNodes (total cfg.numNodes (connectionCost cfg)) channel

/-- A bound on the steps that are left. -/
def stepsLeft (s : State T) : Nat :=
  (cfg.users.map fun u => (s.threads u).left cfg u).sum + messagesCost cfg s.channel +
    total cfg.numNodes List.length s.wakes

end Left

/-! ## A step of a thread -/

section Threads

theorem outputCost_le (cfg : Config T) (o : Option (Output T)) : outputCost cfg o ≤ packetCost cfg := by
  cases o with
  | none => exact Nat.zero_le _
  | some out => exact Nat.le_refl (packetCost cfg)

/-- A turn that sends leaves less to be sent. -/
theorem unsent_pass {cfg : Config T} {k idx : Nat} {th th' : Thread} (hk : k < cfg.numNodes)
    (hidx : th'.sendIdx = Function.update th.sendIdx k idx) (hsize : th'.sendSize = th.sendSize)
    (hlt : th.sendIdx k < idx) (hle : idx ≤ th.sendSize k) : unsent cfg th' < unsent cfg th := by
  apply Finset.sum_lt_sum
  · intro i _
    rw [hidx, hsize]
    by_cases hik : i = k
    · subst hik
      rw [Function.update_self]
      exact Nat.sub_le_sub_left (Nat.le_of_lt hlt) _
    · rw [Function.update_of_ne hik]
  · refine ⟨k, Finset.mem_range.mpr hk, ?_⟩
    rw [hidx, hsize, Function.update_self]
    omega

theorem OwedFrom.unsent_pos {cfg : Config T} {u : SyncThreadNode} {th : Thread} {ready : Nat → Bool} {k : Nat}
    (h : OwedFrom cfg u th ready k) : 0 < unsent cfg th := by
  obtain ⟨i, hi, -, hlt, -⟩ := h
  apply Finset.sum_pos' (fun _ _ => Nat.zero_le _)
  exact ⟨i, Finset.mem_range.mpr hi, Nat.sub_pos_of_lt hlt⟩

variable [AddCommGroup T] [LinearOrder T] {acc : AddAccumulator T} {u : SyncThreadNode} {th : Thread}
  {outs : List (Output T)}

/-- A thread has at most all words left when it comes to the loop. -/
theorem unsent_own (h : Scanned acc.toConfig u acc.numNodes th outs) :
    unsent acc.toConfig { th with
      phase := .select
      sendIdx := Function.update th.sendIdx u.machine (th.sendSize u.machine) } ≤ whole acc.toConfig := by
  apply Finset.sum_le_sum
  intro i hi
  have hi' := Finset.mem_range.mp hi
  by_cases hself : i = u.machine
  · subst hself
    simp
  · simp only [Function.update_of_ne hself, h.idx_eq i hi', h.size_eq i hi']
    exact Nat.le_refl _

/-- A turn of a pass. -/
theorem left_passNode {ready : Nat → Bool} {k : Nat} (hphase : th.phase = .pass ready k) (hk : k < acc.numNodes)
    (h : Looping acc.toConfig u th outs) :
    (passNode acc.toConfig u th ready k).1.left acc.toConfig u +
      outputCost acc.toConfig (passNode acc.toConfig u th ready k).2 < th.left acc.toConfig u := by
  have hturn : acc.numNodes - (k + 1) < acc.numNodes - k := by omega
  by_cases hsend : th.sendIdx k < th.sendSize k ∧ k ≠ u.machine ∧ ready k
  · obtain ⟨hlt, hne, hrdy⟩ := hsend
    have howed : OwedFrom acc.toConfig u th ready k := ⟨k, hk, Nat.le_refl k, hlt, hne, hrdy⟩
    rw [h.size_eq k hk] at hlt
    obtain ⟨r, hpos, hle, -, -, heq⟩ := passNode_sends hk h hlt hne hrdy
    rw [heq]
    obtain ⟨th', hth'⟩ : ∃ th', th' = { th with
      phase := .pass ready (k + 1)
      sendIdx := Function.update th.sendIdx k (th.sendIdx k + r.1)
      done := if th.sendIdx k + r.1 = acc.stop k then th.done + 1 else th.done } := ⟨_, rfl⟩
    have hless : unsent acc.toConfig th' < unsent acc.toConfig th := by
      apply unsent_pass (k := k) hk
      · rw [hth']
      · rw [hth']
      · exact Nat.lt_add_of_pos_right hpos
      · rwa [h.size_eq k hk]
    have hphase' : th'.phase = .pass ready (k + 1) := by
      rw [hth']
    rw [← hth']
    simp only [Thread.left, hphase, hphase', howed, if_true, outputCost]
    have hcost : packetCost acc.toConfig * unsent acc.toConfig th' + packetCost acc.toConfig ≤
        packetCost acc.toConfig * unsent acc.toConfig th := Nat.mul_le_mul_left _ hless
    have hgain : (acc.numNodes + 2) * (unsent acc.toConfig th' -
        if OwedFrom acc.toConfig u th' ready (k + 1) then 1 else 0) ≤
          (acc.numNodes + 2) * (unsent acc.toConfig th - 1) := by
      apply Nat.mul_le_mul_left
      exact Nat.le_trans (Nat.sub_le _ _) (Nat.le_sub_one_of_lt hless)
    omega
  · have howed : OwedFrom acc.toConfig u { th with phase := .pass ready (k + 1) } ready (k + 1) ↔
        OwedFrom acc.toConfig u th ready k := by
      constructor
      · rintro ⟨i, hi, hki, hrest⟩
        exact ⟨i, hi, Nat.le_of_succ_le hki, hrest⟩
      · rintro ⟨i, hi, hki, hrest⟩
        refine ⟨i, hi, Nat.lt_of_le_of_ne hki ?_, hrest⟩
        rintro rfl
        exact hsend hrest
    have hsame : unsent acc.toConfig { th with phase := .pass ready (k + 1) } = unsent acc.toConfig th := rfl
    rw [passNode, if_neg hsend]
    simp only [Thread.left, hphase, howed, hsame, outputCost]
    omega

/-- Each step of a thread pays for what it sends. -/
theorem left_advance (h : Sending acc.toConfig u th outs) {ready : Nat → Bool}
    (hready : findsReady acc.toConfig u th ready = true) {th' : Thread} {o : Option (Output T)}
    (hadv : advance acc.toConfig u th ready = some (th', o)) :
    th'.left acc.toConfig u + outputCost acc.toConfig o < th.left acc.toConfig u := by
  rw [advance] at hadv
  rw [Sending] at h
  rw [findsReady] at hready
  split at hadv
  · rename_i k hphase
    rw [hphase] at h
    split at hadv
    · rename_i hk
      have hout := outputCost_le acc.toConfig o
      obtain ⟨m, hm⟩ : ∃ m, acc.numNodes - k = m + 1 := ⟨acc.numNodes - (k + 1), by omega⟩
      have hm' : acc.numNodes - (k + 1) = m := by omega
      have hphase' : th'.phase = .scan (k + 1) := by
        cases hadv
        rfl
      simp only [Thread.left, hphase, hphase', hm, hm', Nat.add_mul, Nat.one_mul]
      omega
    · cases hadv
      simp only [Thread.left, hphase, outputCost]
      omega
  · rename_i hphase
    rw [hphase] at h
    cases hadv
    have hle := Nat.mul_le_mul_left (packetCost acc.toConfig + acc.numNodes + 2) (unsent_own h)
    simp only [Thread.left, hphase, outputCost]
    omega
  · rename_i hphase
    rw [hphase] at h hready
    cases hadv
    by_cases hdone : th.done < acc.numNodes
    · have howed : OwedFrom acc.toConfig u th ready 0 := of_decide_eq_true hready hdone
      have howed' : OwedFrom acc.toConfig u { th with phase := .pass ready 0 } ready 0 := howed
      have hsame : unsent acc.toConfig { th with phase := .pass ready 0 } = unsent acc.toConfig th := rfl
      obtain ⟨m, hm⟩ : ∃ m, unsent acc.toConfig th = m + 1 :=
        ⟨_, (Nat.succ_pred_eq_of_pos howed.unsent_pos).symm⟩
      simp only [Thread.left, hphase, hdone, if_true, howed', hsame, hm, outputCost, Nat.add_sub_cancel,
        Nat.add_mul, Nat.mul_add, Nat.mul_one, Nat.sub_zero]
      omega
    · simp only [Thread.left, hphase, hdone, if_false, outputCost]
      omega
  · rename_i ready' k hphase
    rw [hphase] at h
    split at hadv
    · rename_i hk
      have hpair := Option.some.inj hadv
      have hlt := left_passNode hphase hk h.2
      rw [hpair] at hlt
      exact hlt
    · rename_i hk
      cases hadv
      have hnot : ¬OwedFrom acc.toConfig u th ready' k := by
        rintro ⟨i, hi, hki, -⟩
        exact hk (Nat.lt_of_le_of_lt hki hi)
      have hsame : unsent acc.toConfig { th with phase := .select } = unsent acc.toConfig th := rfl
      simp only [Thread.left, hphase, hnot, if_false, hsame, outputCost, Nat.add_mul, Nat.sub_zero]
      omega
  · cases hadv
  · cases hadv

end Threads

/-! ## A step of the cluster -/

section Cluster

theorem connectionCost_append (cfg : Config T) (msgs msgs' : List (Message T)) :
    connectionCost cfg (msgs ++ msgs') = connectionCost cfg msgs + connectionCost cfg msgs' := by
  rw [connectionCost, List.map_append, List.sum_append]
  rfl

/-- One connection changes. -/
theorem messagesCost_setChannel (cfg : Config T) (s : State T) {src dst : Nat} (hsrc : src < cfg.numNodes)
    (hdst : dst < cfg.numNodes) (msgs : List (Message T)) :
    messagesCost cfg (s.setChannel src dst msgs).channel + connectionCost cfg (s.channel src dst) =
      messagesCost cfg s.channel + connectionCost cfg msgs := by
  have hrow := total_update hsrc (total cfg.numNodes (connectionCost cfg)) s.channel
    (Function.update (s.channel src) dst msgs)
  have hcell := total_update hdst (connectionCost cfg) (s.channel src) msgs
  simp only [messagesCost, State.setChannel]
  omega

theorem messagesCost_send (cfg : Config T) (s : State T) {src dst : Nat} (hsrc : src < cfg.numNodes)
    (hdst : dst < cfg.numNodes) (m : Message T) :
    messagesCost cfg (s.send src dst m).channel = messagesCost cfg s.channel + m.cost cfg := by
  have hset := messagesCost_setChannel cfg s hsrc hdst (s.channel src dst ++ [m])
  rw [connectionCost_append] at hset
  have hone : connectionCost cfg [m] = m.cost cfg := List.sum_singleton
  rw [State.send]
  omega

/-- The threads to which a wake is on the way. -/
def wakesPending (cfg : Config T) (s : State T) : List SyncThreadNode :=
  (List.range cfg.numNodes).flatMap fun machine => (s.wakes machine).map fun threadId => ⟨machine, threadId⟩

theorem length_wakesPending (cfg : Config T) (s : State T) :
    (wakesPending cfg s).length = total cfg.numNodes List.length s.wakes := by
  simp only [wakesPending, List.length_flatMap, List.length_map]
  rfl

/-- Each thread has at most one wake on the way. -/
theorem wakes_le {cfg : Config T} {s : State T} (hs : Inv cfg 0 s) :
    total cfg.numNodes List.length s.wakes ≤ cfg.users.length := by
  have hcount : ∀ machine, (s.wakes machine).Nodup := by
    intro machine
    apply List.nodup_iff_count_le_one.mpr
    intro threadId
    by_cases hmem : threadId ∈ s.wakes machine
    · have hu := hs.wake machine threadId hmem
      have hth := hs.thread _ hu
      change ThreadInv cfg s.released _ _ _ ((s.wakes machine).count threadId) at hth
      rcases hth.round with hround | ⟨hround, -⟩
      · by_cases hidle : (s.threads ⟨machine, threadId⟩).phase = .idle
        · rw [hth.idle hidle]
          exact Nat.zero_le 1
        · rcases (hth.woken hround hidle).2 with ⟨-, hzero⟩ | ⟨-, hone⟩
          · rw [hzero]
            exact Nat.zero_le 1
          · rw [hone]
      · rw [(hth.inCall hround).2]
        exact Nat.zero_le 1
    · rw [List.count_eq_zero_of_not_mem hmem]
      exact Nat.zero_le 1
  have hnodup : (wakesPending cfg s).Nodup := by
    apply List.nodup_flatMap.mpr
    refine ⟨fun machine _ => (hcount machine).map fun a b h => (SyncThreadNode.mk.inj h).2, ?_⟩
    apply List.nodup_range.imp
    intro a b hab u ha hb
    obtain ⟨_, -, rfl⟩ := List.mem_map.mp ha
    obtain ⟨_, -, heq⟩ := List.mem_map.mp hb
    exact hab (SyncThreadNode.mk.inj heq).1.symm
  have hsub : wakesPending cfg s ⊆ cfg.users := by
    intro u hu
    obtain ⟨machine, -, hu⟩ := List.mem_flatMap.mp hu
    obtain ⟨threadId, hid, rfl⟩ := List.mem_map.mp hu
    exact hs.wake machine threadId hid
  rw [← length_wakesPending]
  exact (hnodup.subperm hsub).length_le

/-- One thread goes on. -/
theorem left_setThread {cfg : Config T} {s : State T} {u : SyncThreadNode} (hu : u ∈ cfg.users) (th : Thread) :
    (cfg.users.map fun v => ((s.setThread u th).threads v).left cfg v).sum + (s.threads u).left cfg u =
      (cfg.users.map fun v => (s.threads v).left cfg v).sum + th.left cfg u :=
  sum_map_update cfg.nodup hu (fun v th => th.left cfg v) s.threads th

/-- Handling a message causes a report or the wakes. -/
theorem stepsLeft_handled {cfg : Config T} {s s' : State T} {i : Nat} {p : Packet T} {call : Call}
    (hhandled : Handled cfg s s' i p call) (hs' : Inv cfg 0 s') (hi : i < cfg.numNodes) :
    stepsLeft cfg s' ≤ stepsLeft cfg s + cfg.users.length + 1 := by
  have hwakes := wakes_le hs'
  unfold stepsLeft
  rw [hhandled.threads]
  rcases hhandled.channel with hchan | ⟨hsame, hchan⟩
  · rw [hchan]
    omega
  · rw [hchan, hsame, messagesCost_send cfg s hi cfg.pos]
    simp only [Message.cost]
    omega

theorem stepsLeft_announced {cfg : Config T} {s s' : State T} (hdone : Announced s s') (hs' : Inv cfg 0 s') :
    stepsLeft cfg s' ≤ stepsLeft cfg s + cfg.users.length := by
  have hwakes := wakes_le hs'
  unfold stepsLeft
  rw [hdone.threads, hdone.channel]
  omega

variable [AddCommGroup T] [LinearOrder T] {acc : AddAccumulator T} {s s' : State T}

theorem stepsLeft_advance {u : SyncThreadNode} (h : Delivering acc s noLast) (hu : u ∈ acc.users)
    {ready : Nat → Bool} (hready : findsReady acc.toConfig u (s.threads u) ready = true) {th : Thread}
    {o : Option (Output T)} (hadv : advance acc.toConfig u (s.threads u) ready = some (th, o))
    (hdisp : dispatch acc.toConfig (s.setThread u th) u (s.threads u).round o = some s')
    (hs' : Inv acc.toConfig 0 s') : stepsLeft acc.toConfig s' < stepsLeft acc.toConfig s := by
  have ha := advance_advances hu hadv
  obtain ⟨outs, hsending⟩ := h.sending u hu ha.active
  have hleft := left_advance hsending hready hadv
  have hset := left_setThread (s := s) hu th
  have hthread : stepsLeft acc.toConfig (s.setThread u th) + outputCost acc.toConfig o <
      stepsLeft acc.toConfig s := by
    have hchan : (s.setThread u th).channel = s.channel := rfl
    have hwakes : (s.setThread u th).wakes = s.wakes := rfl
    unfold stepsLeft
    rw [hchan, hwakes]
    omega
  refine Nat.lt_of_le_of_lt ?_ hthread
  cases o with
  | none =>
      obtain rfl := Option.some.inj hdisp
      exact Nat.le_refl _
  | some out =>
      have hdst := ha.dst_lt out rfl
      by_cases hself : out.dst = u.machine
      · rw [dispatch, if_pos hself] at hdisp
        apply Nat.le_trans (stepsLeft_handled (handled_acAccumulateMsg hdisp) hs' (hself ▸ hdst))
        simp only [outputCost, packetCost]
        omega
      · rw [dispatch, if_neg hself] at hdisp
        obtain rfl := Option.some.inj hdisp
        have hsend := messagesCost_send acc.toConfig (s.setThread u th) (acc.placed u hu) hdst
          (.accumulate out.packet (u, (s.threads u).round))
        unfold stepsLeft
        rw [hsend]
        simp only [State.send, State.setChannel, Message.cost, outputCost]
        omega

theorem stepsLeft_deliver (hs : Inv acc.toConfig 0 s) (h : Delivering acc s noLast) {src dst : Nat}
    {m : Message T} {rest : List (Message T)} (hchan : s.channel src dst = m :: rest)
    (hrecv : receive acc.toConfig (s.setChannel src dst rest) src dst m = some s')
    (hs' : Inv acc.toConfig 0 s') : stepsLeft acc.toConfig s' < stepsLeft acc.toConfig s := by
  have hmem : m ∈ s.channel src dst := by
    rw [hchan]
    exact List.mem_cons_self
  have htake : ∀ hsrc : src < acc.numNodes, ∀ hdst : dst < acc.numNodes,
      stepsLeft acc.toConfig (s.setChannel src dst rest) + m.cost acc.toConfig = stepsLeft acc.toConfig s := by
    intro hsrc hdst
    have hset := messagesCost_setChannel acc.toConfig s hsrc hdst rest
    have hcons : connectionCost acc.toConfig (m :: rest) = m.cost acc.toConfig + connectionCost acc.toConfig rest :=
      List.sum_cons
    rw [hchan, hcons] at hset
    have hthreads : (s.setChannel src dst rest).threads = s.threads := rfl
    have hwakes : (s.setChannel src dst rest).wakes = s.wakes := rfl
    unfold stepsLeft
    rw [hthreads, hwakes]
    omega
  cases m with
  | accumulate p c =>
      obtain ⟨hu, hmachine, hdst, -⟩ := hs.sender src dst p c hmem
      have htaken := htake (hmachine ▸ acc.placed _ hu) hdst
      have hle := stepsLeft_handled (handled_acAccumulateMsg hrecv) hs' hdst
      simp only [Message.cost, packetCost] at htaken
      omega
  | partialDone =>
      obtain rfl := h.report src dst hmem
      have htaken := htake (hs.reporter src 0 hmem) acc.pos
      rw [receive, if_pos rfl] at hrecv
      obtain rfl := Option.some.inj hrecv
      have hle := stepsLeft_announced (announced_partialDone acc.toConfig (s.setChannel src 0 rest)) hs'
      simp only [Message.cost] at htaken
      omega

/-- Every step lowers the bound. -/
theorem stepsLeft_goOn (hs : Inv acc.toConfig 0 s) (h : Delivering acc s noLast) {a : Act}
    (hgo : goOn acc.toConfig s a = some s') : stepsLeft acc.toConfig s' < stepsLeft acc.toConfig s := by
  have hstep := step_of_goOn acc.toConfig hgo
  have hs' := inv_step hs hstep
  have hmem : ∀ u, (s.threads u).phase ≠ .idle → u ∈ acc.users := by
    intro u hne
    by_contra hu
    exact hne (hs.idle u hu)
  cases a with
  | call u => cases hgo
  | advance u ready =>
      obtain ⟨hready, -⟩ := Option.ite_none_right_eq_some.mp hgo
      obtain ⟨⟨th, o⟩, hadv, hdisp⟩ := Option.bind_eq_some_iff.mp hstep
      have hu : u ∈ acc.users := by
        apply hmem
        intro hidle
        rw [advance, hidle] at hadv
        cases hadv
      exact stepsLeft_advance h hu hready hadv hdisp hs'
  | ret u =>
      simp only [step] at hstep
      split at hstep
      · rename_i hphase
        split at hstep
        · obtain rfl := Option.some.inj hstep
          have hu : u ∈ acc.users := hmem u (by rw [hphase]; exact Phase.noConfusion)
          have hset := left_setThread (s := s) hu { s.threads u with phase := .idle }
          have hold : (s.threads u).left acc.toConfig u = 1 := by
            simp only [Thread.left, hphase]
          have hnew : Thread.left acc.toConfig u { s.threads u with phase := .idle } = 0 := rfl
          rw [hold, hnew] at hset
          dsimp only at hset
          have hchan : (s.setThread u { s.threads u with phase := .idle }).channel = s.channel := rfl
          have hwakes : (s.setThread u { s.threads u with phase := .idle }).wakes = s.wakes := rfl
          unfold stepsLeft
          rw [hchan, hwakes]
          omega
        · cases hstep
      · cases hstep
  | deliver src dst =>
      simp only [step] at hstep
      split at hstep
      · cases hstep
      · rename_i m rest hchan
        exact stepsLeft_deliver hs h hchan hstep hs'
  | wake machine =>
      simp only [step] at hstep
      split at hstep
      · cases hstep
      · rename_i threadId rest hwakes
        obtain rfl := Option.some.inj hstep
        have hmachine : machine < acc.numNodes := by
          have hu := hs.wake machine threadId (by rw [hwakes]; exact List.mem_cons_self)
          exact acc.placed _ hu
        have hset := total_update hmachine List.length s.wakes rest
        rw [hwakes, List.length_cons] at hset
        simp only [stepsLeft]
        omega

end Cluster

/-! ## Where nothing goes on -/

section Ends

variable [AddCommGroup T] [LinearOrder T] {acc : AddAccumulator T} {s : State T} {u : SyncThreadNode}

/-- A thread that has left the loop has sent everything. -/
theorem closed_of_waiting {th : Thread} {outs : List (Output T)} (hu : u ∈ acc.users)
    (hown : OwnSegment acc.toConfig u) (h : Sending acc.toConfig u th outs) (hphase : th.phase = .waiting)
    {i : Nat} (hi : i < acc.numNodes) : th.Closed u i := by
  rw [Sending, hphase] at h
  obtain ⟨hloop, hdone⟩ := h
  rw [Thread.Closed, hphase]
  show th.sendSize i ≤ th.sendIdx i
  rw [hloop.size_eq i hi]
  by_cases hself : i = u.machine
  · rw [hself, hloop.own_idx]
  · rcases hloop.others i hi hself with ⟨hle, -⟩ | hway
    · exact hle
    · exfalso
      rcases hown with hzero | ⟨hsmall, hown⟩
      · have hstop : acc.stop i ≤ acc.sz := segmentEnd_le ..
        rw [hzero] at hstop
        exact Nat.not_lt_zero _ (Nat.lt_of_lt_of_le hway.lt hstop)
      · have hiff := segmentEnd_le_start_iff acc.sz_le hsmall (acc.placed u hu)
        have hlt : acc.start u.machine < acc.stop u.machine :=
          Nat.lt_of_not_le fun hle => Nat.not_lt_of_le (hiff.mp hle) hown
        exact not_final_of_plain hu hway.plain (hloop.all_served hu hdone hlt hi).2

theorem channel_of_stuck (hasserts : NoAssertFails acc.toConfig s) (hstuck : ∀ a, goOn acc.toConfig s a = none)
    (src dst : Nat) : s.channel src dst = [] := by
  by_contra hne
  have hsome := hasserts.2 src dst hne
  have hnone : step acc.toConfig s (.deliver src dst) = none := hstuck (.deliver src dst)
  rw [hnone] at hsome
  cases hsome

theorem wakes_of_stuck (hstuck : ∀ a, goOn acc.toConfig s a = none) (machine : Nat) : s.wakes machine = [] := by
  have hnone : step acc.toConfig s (.wake machine) = none := hstuck (.wake machine)
  simp only [step] at hnone
  split at hnone
  · assumption
  · cases hnone

/-- A thread that does not go on is outside, or waits for its event. -/
theorem thread_of_stuck (h : Delivering acc s noLast) (hasserts : NoAssertFails acc.toConfig s)
    (hstuck : ∀ a, goOn acc.toConfig s a = none) (hu : u ∈ acc.users) :
    (s.threads u).phase = .idle ∨ (s.threads u).phase = .waiting ∧ s.event u = false := by
  by_cases hidle : (s.threads u).phase = .idle
  · exact Or.inl hidle
  · by_cases hwaiting : (s.threads u).phase = .waiting
    · refine Or.inr ⟨hwaiting, ?_⟩
      have hnone : step acc.toConfig s (.ret u) = none := hstuck (.ret u)
      simp only [step, hwaiting] at hnone
      split at hnone
      · cases hnone
      · rename_i hevent
        exact eq_false_of_ne_true hevent
    · exfalso
      have hsome := hasserts.1 u (fun _ => true) hidle hwaiting
      have hready : findsReady acc.toConfig u (s.threads u) (fun _ => true) = true := by
        rw [findsReady]
        split
        · rename_i hphase
          apply decide_eq_true
          intro hdone
          obtain ⟨outs, hsending⟩ := h.sending u hu hidle
          rw [Sending, hphase] at hsending
          obtain ⟨i, hi, hne, -, hlt⟩ := hsending.exists_owed hdone (v := u.machine) fun _ _ _ heq => heq
          rw [← hsending.size_eq i hi] at hlt
          exact ⟨i, hi, Nat.zero_le i, hlt, hne, rfl⟩
        · rfl
      have hnone := hstuck (.advance u fun _ => true)
      rw [goOn, if_pos hready] at hnone
      rw [hnone] at hsome
      cases hsome

/-- Not all threads wait in one round. -/
theorem not_all_waiting (hs : Inv acc.toConfig 0 s) (h : Delivering acc s noLast)
    (hasserts : NoAssertFails acc.toConfig s) (hown : ∀ u ∈ acc.users, OwnSegment acc.toConfig u)
    (hstuck : ∀ a, goOn acc.toConfig s a = none) (hne : acc.users ≠ []) :
    ¬∀ u ∈ acc.users, (s.threads u).phase = .waiting ∧ (s.threads u).round = s.released + 1 := by
  intro hall
  have hfinals : ∀ i < acc.numNodes, ∀ u ∈ acc.users, (s.nodes i).finals u = upTo (s.released + 1) := by
    intro i hi u hu
    obtain ⟨hwaiting, hround⟩ := hall u hu
    obtain ⟨outs, hsending⟩ := h.sending u hu (by rw [hwaiting]; exact Phase.noConfusion)
    have hclosed := closed_of_waiting hu (hown u hu) hsending hwaiting hi
    rcases h.last u hu hround i hi hclosed with hfin | ⟨x, hx, -⟩ | hnone
    · exact hfin
    · rw [State.inFlight, channel_of_stuck hasserts hstuck] at hx
      cases hx
    · exact hnone.elim
  have hwrote : ∀ i < acc.numNodes, s.wrote i = s.released + 1 := by
    intro i hi
    have hnode := hs.node i hi
    refine hnode.written.resolve_left fun hwritten => ?_
    have hcount : (s.nodes i).val = acc.users.length := by
      rw [hnode.val, hwritten]
      apply List.countP_eq_length.mpr
      intro u hu
      rw [hfinals i hi u hu, length_upTo]
      exact decide_eq_true rfl
    exact Nat.ne_of_lt (h.val hne i) hcount
  have hdone : (s.nodes 0).doneNodeCnt = acc.numNodes := by
    have hcount := hs.done
    rw [Nat.add_zero] at hcount
    rw [hcount]
    calc (List.range acc.numNodes).countP (fun i => s.wrote i = s.released + 1 ∧ s.reports i = 0)
        = (List.range acc.numNodes).length := by
          apply List.countP_eq_length.mpr
          intro i hi
          apply decide_eq_true
          refine ⟨hwrote i (List.mem_range.mp hi), ?_⟩
          rw [State.reports, channel_of_stuck hasserts hstuck]
          rfl
      _ = acc.numNodes := List.length_range
  exact Nat.ne_of_lt hs.done_lt hdone

/-- Who waits, waits for a thread that has not joined the round. -/
theorem waits_for_thread (hs : Inv acc.toConfig 0 s) (h : Delivering acc s noLast)
    (hasserts : NoAssertFails acc.toConfig s) (hown : ∀ u ∈ acc.users, OwnSegment acc.toConfig u)
    (hstuck : ∀ a, goOn acc.toConfig s a = none) (hu : u ∈ acc.users) (hactive : (s.threads u).phase ≠ .idle) :
    ∃ v ∈ acc.users, (s.threads v).phase = .idle ∧ (s.threads v).round < (s.threads u).round := by
  have hround : ∀ v ∈ acc.users, (s.threads v).phase ≠ .idle →
      (s.threads v).phase = .waiting ∧ (s.threads v).round = s.released + 1 := by
    intro v hv hactive
    obtain ⟨hwaiting, hevent⟩ := (thread_of_stuck h hasserts hstuck hv).resolve_left hactive
    refine ⟨hwaiting, ?_⟩
    have hth := hs.thread v hv
    rcases hth.round with hR | ⟨hR, -⟩
    · exfalso
      rcases (hth.woken hR hactive).2 with ⟨htrue, -⟩ | ⟨-, hone⟩
      · rw [hevent] at htrue
        cases htrue
      · rw [State.wakesOf, wakes_of_stuck hstuck] at hone
        cases hone
    · exact hR
  by_contra hnone
  push Not at hnone
  apply not_all_waiting hs h hasserts hown hstuck (List.ne_nil_of_mem hu)
  intro v hv
  by_cases hidle : (s.threads v).phase = .idle
  · have hle := hnone v hv hidle
    rw [(hs.thread v hv).round_of_idle hidle, (hround u hu hactive).2] at hle
    exact absurd hle (Nat.not_succ_le_self _)
  · exact hround v hv hidle

end Ends

section Runs

variable [AddCommGroup T] [LinearOrder T] {acc : AddAccumulator T} {out : Nat → T}

/-- A state that the cluster reaches. -/
def Reachable (acc : AddAccumulator T) (out : Nat → T) (s : State T) : Prop :=
  ∃ acts, run (step acc.toConfig) (start acc.toConfig out) acts = some s

theorem Reachable.step {s s' : State T} {a : Act} (h : Reachable acc out s)
    (hstep : Accumulator.step acc.toConfig s a = some s') : Reachable acc out s' := by
  obtain ⟨acts, hrun⟩ := h
  refine ⟨acts ++ [a], ?_⟩
  rw [run_concat, hrun]
  exact hstep

theorem Reachable.inv {s : State T} (h : Reachable acc out s) :
    Inv acc.toConfig 0 s ∧ Delivering acc s noLast := by
  obtain ⟨acts, hrun⟩ := h
  have hstep : ∀ s a s', Inv acc.toConfig 0 s ∧ Delivering acc s noLast →
      Accumulator.step acc.toConfig s a = some s' → Inv acc.toConfig 0 s' ∧ Delivering acc s' noLast :=
    fun _ _ _ h hstep => ⟨inv_step h.1 hstep, delivering_step h.1 h.2 hstep⟩
  exact invariant_reachable hstep ⟨inv_start acc.toConfig out, delivering_start acc out⟩ hrun

theorem Reachable.noAssertFails {s : State T} (hown : ∀ u ∈ acc.users, OwnSegment acc.toConfig u)
    (h : Reachable acc out s) : NoAssertFails acc.toConfig s := by
  obtain ⟨acts, hrun⟩ := h
  by_cases hnone : acc.users = []
  · exact ((accumulates_of_no_users hnone).2 acts s hrun).1
  · obtain ⟨u, hu⟩ := List.exists_mem_of_ne_nil _ hnone
    have hfits : Fits acc.toConfig := (hown u hu).imp id And.left
    obtain ⟨hs, hsum⟩ := summed_run hfits hrun
    exact hsum.noAssertFails hfits hs

/-- Where the node of every user has a segment of its own (or there is no data), the
calls that have begun come to an end: as long as nobody begins a call and `select`
finds a node that is still owed something, the cluster takes a bounded number of
steps. Where none is left, a thread that has not returned waits for one that has
made fewer calls, so when all have made the same number of calls, all have returned. -/
theorem accumulations_return (acc : AddAccumulator T) (out : Nat → T)
    (hown : ∀ u ∈ acc.users, OwnSegment acc.toConfig u) {acts : List Act} {s : State T}
    (hrun : run (step acc.toConfig) (start acc.toConfig out) acts = some s) :
    (∃ bs s', run (goOn acc.toConfig) s bs = some s' ∧ ∀ a, goOn acc.toConfig s' a = none) ∧
    ∀ bs s', run (goOn acc.toConfig) s bs = some s' → bs.length ≤ stepsLeft acc.toConfig s ∧
      ((∀ a, goOn acc.toConfig s' a = none) → ∀ u ∈ acc.users, (s'.threads u).phase ≠ .idle →
        ∃ v ∈ acc.users, (s'.threads v).phase = .idle ∧ (s'.threads v).round < (s'.threads u).round) := by
  have hreach : Reachable acc out s := ⟨acts, hrun⟩
  have hlower : ∀ (s : State T) a s', Reachable acc out s → goOn acc.toConfig s a = some s' →
      Reachable acc out s' ∧ stepsLeft acc.toConfig s' < stepsLeft acc.toConfig s :=
    fun _ _ _ h hgo => ⟨h.step (step_of_goOn acc.toConfig hgo), stepsLeft_goOn h.inv.1 h.inv.2 hgo⟩
  have hbound : ∀ bs s', run (goOn acc.toConfig) s bs = some s' → bs.length ≤ stepsLeft acc.toConfig s :=
    fun bs s' hrun' => Nat.le_of_add_right_le (length_le_of_measure hlower hreach hrun')
  refine ⟨exists_stuck_run hbound, fun bs s' hrun' => ⟨hbound bs s' hrun', ?_⟩⟩
  have hreach' : Reachable acc out s' := invariant_reachable (fun _ _ _ h hgo => (hlower _ _ _ h hgo).1) hreach hrun'
  obtain ⟨hs, h⟩ := hreach'.inv
  exact fun hstuck u hu hactive => waits_for_thread hs h (hreach'.noAssertFails hown) hown hstuck hu hactive

end Runs

/-- Twenty integers for each of two nodes, and a thread on each. -/
def twentyEach : AddAccumulator Int where
  toConfig := twoNodes
  size_of := Or.inl rfl
  mode := .dense
  prepare_eq := rfl
  accumulate_eq := rfl
  small := by decide
  length_input _ _ := List.length_replicate

/-- The thread of node 0 has joined the round, that of node 1 is about to. -/
theorem twentyEach_return : ∃ s, run (step twentyEach.toConfig) (start twentyEach.toConfig fun _ => 0)
    [.call ⟨0, 1⟩, .advance ⟨0, 1⟩ fun _ => true, .call ⟨1, 1⟩] = some s ∧
    ∃ bs s', run (goOn twentyEach.toConfig) s bs = some s' ∧ ∀ a, goOn twentyEach.toConfig s' a = none := by
  have hsome : (run (step twentyEach.toConfig) (start twentyEach.toConfig fun _ => 0)
      [.call ⟨0, 1⟩, .advance ⟨0, 1⟩ fun _ => true, .call ⟨1, 1⟩]).isSome = true := by
    decide +kernel
  obtain ⟨s, hrun⟩ := Option.isSome_iff_exists.mp hsome
  have hown : ∀ u ∈ twentyEach.users, OwnSegment twentyEach.toConfig u := by
    intro u hu
    right
    rcases List.mem_pair.mp hu with rfl | rfl
    · decide
    · decide
  exact ⟨s, hrun, (accumulations_return twentyEach (fun _ => 0) hown hrun).1⟩

end Dogee.Accumulator
