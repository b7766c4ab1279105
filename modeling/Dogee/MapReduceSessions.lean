import Dogee.MapReduceOnce
import Dogee.ReduceReturns
import Dogee.VectorMap

/-!
# Sequences of map and reduce calls

When `Map` returns, nothing of it is left on the connections, in the counters of the
nodes or in the wait list, so that the next call finds the cluster as the first one
did; only the maps of the nodes have grown. `DoMap` appends values to vectors of the
map of its node. Over any sequence of calls, what `DoReduce` has been given and what is
still in the maps are together the values that `DoMap` has emitted, key by key.
-/

namespace Dogee.MapReduce

open Serializer
open SyncManager (SyncThreadNode)
open Transition
open VectorMap

/-! ## What a call of `Map` leaves -/

section Quiet

variable {cfg : Config} {s s' : State cfg}

/-- Nothing is on its way, nobody has reported and nobody waits. -/
structure Quiet (s : State cfg) : Prop where
  channel : ∀ i j, s.channel i j = []
  wakes : ∀ m, s.wakes m = []
  node : ∀ i, (s.nodes i).doneNodeCnt = 0 ∧ (s.nodes i).val = 0 ∧ (s.nodes i).waitlist = []

/-- Every node has finished, and no report is on its way. -/
def Collected (s : State cfg) : Prop :=
  ∀ i < cfg.numNodes, (s.nodes i).finished = true ∧ reports (s.channel i 0) = 0

/-- The counters of the nodes; those of the master are reset by the last report. -/
structure Tidy (s : State cfg) : Prop where
  val : ∀ i, (s.nodes i).val = 0
  slave : ∀ i, i ≠ 0 → (s.nodes i).doneNodeCnt = 0 ∧ (s.nodes i).waitlist = []
  master : Collected s → (s.nodes 0).doneNodeCnt = 0 ∧ (s.nodes 0).waitlist = []

theorem Reporting.not_collected {counted : Finset Nat} (h : Reporting s counted ∅) : ¬Collected s := by
  intro hall
  obtain ⟨i, hi, hnot⟩ := h.missing
  have hone := h.report i hi
  rw [(hall i hi).2, if_pos ⟨(hall i hi).1, hnot, Finset.notMem_empty i⟩] at hone
  cases hone

/-- The counters stay, and so do the reports. -/
theorem Tidy.congr (h : Tidy s) (hval : ∀ i, (s'.nodes i).val = (s.nodes i).val)
    (hcnt : ∀ i, (s'.nodes i).doneNodeCnt = (s.nodes i).doneNodeCnt)
    (hwait : ∀ i, (s'.nodes i).waitlist = (s.nodes i).waitlist)
    (hf : ∀ i, (s'.nodes i).finished = (s.nodes i).finished)
    (hreport : ∀ i, reports (s'.channel i 0) = reports (s.channel i 0)) : Tidy s' := by
  refine ⟨fun i => (hval i).trans (h.val i), fun i hi => ?_, fun hall => ?_⟩
  · rw [hcnt, hwait]
    exact h.slave i hi
  · rw [hcnt, hwait]
    apply h.master
    intro i hi
    rw [← hf, ← hreport]
    exact hall i hi

/-- A node takes pairs. -/
theorem Tidy.take (h : Tidy s) {i : Nat} {ps : List cfg.Pair}
    (hnodes : s'.nodes = Function.update s.nodes i ((s.nodes i).take ps))
    (hreport : ∀ j, reports (s'.channel j 0) = reports (s.channel j 0)) : Tidy s' := by
  have hsame : ∀ {β : Type} (f : DataSyncNode cfg → β), f ((s.nodes i).take ps) = f (s.nodes i) →
      ∀ j, f (s'.nodes j) = f (s.nodes j) := by
    intro β f hf j
    rw [hnodes]
    by_cases hj : j = i
    · rw [hj, Function.update_self, hf]
    · rw [Function.update_of_ne hj]
  exact h.congr (hsame _ rfl) (hsame _ rfl) (hsame _ rfl) (hsame _ rfl) hreport

/-- The master counts a report: the last one resets its counter and its wait list. -/
theorem nodes_partialDone (s : State cfg) : ∃ cnt waitlist,
    (acAccumulatePartialDoneMsg cfg s).nodes =
      Function.update s.nodes 0 { s.nodes 0 with doneNodeCnt := cnt, waitlist := waitlist } ∧
    (cfg.numNodes ≤ (s.nodes 0).doneNodeCnt + 1 → cnt = 0 ∧ waitlist = []) := by
  rw [acAccumulatePartialDoneMsg]
  dsimp only
  split
  · obtain ⟨wakes, event, hwake⟩ := foldl_wake (s.nodes 0).waitlist s
    rw [hwake]
    exact ⟨0, [], rfl, fun _ => ⟨rfl, rfl⟩⟩
  · rename_i hmore
    exact ⟨_, _, rfl, fun hle => absurd hle hmore⟩

theorem tidy_partialDone {i : Nat} {counted : Finset Nat} (h : Reporting s counted {i})
    (hval : ∀ j, (s.nodes j).val = 0)
    (hslave : ∀ j, j ≠ 0 → (s.nodes j).doneNodeCnt = 0 ∧ (s.nodes j).waitlist = []) :
    Tidy (acAccumulatePartialDoneMsg cfg s) := by
  obtain ⟨cnt, waitlist, hnodes, hreset⟩ := nodes_partialDone s
  refine ⟨fun j => ?_, fun j hj => ?_, fun hall => ?_⟩
  · rw [hnodes]
    by_cases hj : j = 0
    · rw [hj, Function.update_self]
      exact hval 0
    · rw [Function.update_of_ne hj]
      exact hval j
  · rw [hnodes, Function.update_of_ne hj]
    exact hslave j hj
  · rw [hnodes, Function.update_self]
    apply hreset
    by_contra hmore
    rw [h.cnt] at hmore
    exact (h.count_more (Nat.lt_of_not_le hmore)).not_collected hall

/-- A node gets the last packet. -/
theorem tidy_finishNode {i : Nat} {counted : Finset Nat} (h : Reporting s counted ∅)
    (hopen : (s.nodes i).finished = false) (hval : ∀ j, (s.nodes j).val = 0)
    (hslave : ∀ j, j ≠ 0 → (s.nodes j).doneNodeCnt = 0 ∧ (s.nodes j).waitlist = []) :
    Tidy (finishNode s i) := by
  have hval' : ∀ j, (Function.update s.nodes i { arrive cfg (s.nodes i) i cfg.self cfg.threadId with val := 0 } j).val =
      0 := by
    intro j
    by_cases hj : j = i
    · rw [hj, Function.update_self]
    · rw [Function.update_of_ne hj]
      exact hval j
  rw [finishNode]
  dsimp only
  by_cases hi : i = 0
  · subst hi
    rw [if_pos rfl]
    refine tidy_partialDone (h.arrive_master hopen) hval' fun j hj => ?_
    simp only [State.setNode, Function.update_of_ne hj]
    exact hslave j hj
  · rw [if_neg hi]
    refine ⟨hval', fun j hj => ?_, fun hall => absurd hall (h.report_of_ne hi hopen rfl).not_collected⟩
    simp only [State.send, State.setChannel, State.setNode]
    by_cases hji : j = i
    · subst hji
      rw [Function.update_self]
      refine ⟨(hslave j hj).1, ?_⟩
      rw [arrive]
      simp only [hj, if_false]
      exact (hslave j hj).2
    · rw [Function.update_of_ne hji]
      exact hslave j hj

theorem tidy_move (h : Inv s) (ht : Tidy s) (hmove : Move s s') : Tidy s' := by
  cases hmove with
  | own => exact ht.take rfl fun _ => rfl
  | deal => exact ht.congr (fun _ => rfl) (fun _ => rfl) (fun _ => rfl) (fun _ => rfl) fun j => reports_sendPacket ..
  | sendLast =>
      exact ht.congr (fun _ => rfl) (fun _ => rfl) (fun _ => rfl) (fun _ => rfl) fun j => reports_sendPacket ..
  | ownLast hphase hi hself =>
      obtain ⟨counted, hrep, hopen⟩ := h.before_ownLast hphase hi
      exact tidy_finishNode hrep hopen ht.val ht.slave
  | take hi hchannel hid => exact ht.take rfl fun j => reports_tailPacket hchannel j 0
  | takeLast hi hchannel =>
      obtain ⟨counted, hrep, hopen, -⟩ := h.before_takeLast hi hchannel
      exact tidy_finishNode hrep hopen ht.val ht.slave
  | count hi hchannel =>
      obtain ⟨counted, hhand, -⟩ := h.before_count hi hchannel
      exact tidy_partialDone hhand ht.val ht.slave
  | call | dealt | select | skip | passed | wait | ret | wake =>
      exact ht.congr (fun _ => rfl) (fun _ => rfl) (fun _ => rfl) (fun _ => rfl) fun _ => rfl

theorem eq_nil_of_packets_reports {msgs : List (Message cfg)} (hp : packets msgs = []) (hr : reports msgs = 0) :
    msgs = [] := by
  cases msgs with
  | nil => rfl
  | cons m msgs =>
      cases m with
      | accumulate p => cases hp
      | partialDone => exact absurd hr (Nat.succ_ne_zero _)

theorem Inv.quiet (h : Inv s) (ht : Tidy s) (hret : s.phase = .returned) : Quiet s := by
  obtain ⟨dealt, hdeals⟩ := h.deals
  have hrel : Released s := h.reporting.resolve_left fun ⟨_, hrep⟩ => hrep.phase hret
  refine ⟨fun i j => ?_, ?_, fun i => ⟨?_, ht.val i, ?_⟩⟩
  · apply eq_nil_of_packets_reports
    · by_cases hij : i = cfg.self ∧ j < cfg.numNodes
      · obtain ⟨rfl, hj⟩ := hij
        exact ((hdeals.lane j hj).of_finished (hrel.finished j hj)).1
      · exact h.wires.packet i j ((not_and_or.mp hij).imp_right Nat.le_of_not_lt)
    · by_cases hij : j = 0 ∧ i < cfg.numNodes
      · obtain ⟨rfl, hi⟩ := hij
        exact hrel.report i hi
      · exact h.wires.report i j (Or.inr ((not_and_or.mp hij).imp_right Nat.le_of_not_lt))
  · rcases hrel.woken with ⟨-, hnone⟩ | ⟨-, hphase, -⟩
    · exact hnone
    · exact absurd hret hphase
  · by_cases hi : i = 0
    · rw [hi]
      exact (ht.master fun j hj => ⟨hrel.finished j hj, hrel.report j hj⟩).1
    · exact (ht.slave i hi).1
  · by_cases hi : i = 0
    · rw [hi]
      exact (ht.master fun j hj => ⟨hrel.finished j hj, hrel.report j hj⟩).2
    · exact (ht.slave i hi).2

theorem tidy_start (event : SyncThreadNode → Bool) : Tidy (start cfg event) :=
  ⟨fun _ => rfl, fun _ _ => ⟨rfl, rfl⟩, fun _ => ⟨rfl, rfl⟩⟩

theorem tidy_run (hfit : ∀ p ∈ cfg.inMap, cfg.size p ≤ bufLen) (hclean : ∀ p ∈ cfg.inMap, cfg.noNul p = true)
    {event : SyncThreadNode → Bool} {as : List Act} (hrun : run (step cfg) (start cfg event) as = some s) :
    Inv s ∧ Tidy s := by
  have hkeep : ∀ (s : State cfg) (a : Act) (t : State cfg), Inv s ∧ Tidy s → step cfg s a = some t →
      Inv t ∧ Tidy t := by
    rintro s a t ⟨h, ht⟩ hstep
    have hmove : Move s t := by
      apply (move_of_step hfit h hstep).resolve_right
      rintro ⟨-, -, p, hp, hnul⟩
      rw [hclean p hp] at hnul
      cases hnul
    exact ⟨inv_move h hmove, tidy_move h ht hmove⟩
  exact invariant_reachable hkeep ⟨inv_start event, tidy_start event⟩ hrun

end Quiet

variable {K V : Type}

/-- The nodes as a call of `Map` has left them, with their maps and the calls of `DoReduce` so far;
nothing is taken over from the connections. -/
def reduceStart {cfg : Config} (s : State cfg) (maps calls : Nat → List (K × List V)) :
    ReducePhase.State K V where
  phase := .idle
  nodes i := ⟨(s.nodes i).doneNodeCnt, (s.nodes i).waitlist, maps i, calls i, 0⟩
  channel _ _ := []
  wakes := s.wakes
  event := s.event

theorem Quiet.reduceStart {cfg : Config} {s : State cfg} (h : Quiet s) (maps calls : Nat → List (K × List V)) :
    ReducePhase.Quiet (reduceStart s maps calls) :=
  ⟨fun _ _ => rfl, h.wakes, fun i => (h.node i).1, fun i => (h.node i).2.2⟩

/-- When `Map` returns, its connections are empty. A call of `Reduce` then takes a bounded number of
steps, can only stop when it has returned, and then, on the master, every node has called `DoReduce`
once for each entry of its map and has cleared the map, and the cluster is quiet again. -/
theorem reduce_after_map [DecidableEq K] [DecidableEq V] {cfg : Config} (rcfg : ReducePhase.Config)
    (maps calls : Nat → List (K × List V)) (hfit : ∀ p ∈ cfg.inMap, cfg.size p ≤ bufLen)
    (hclean : ∀ p ∈ cfg.inMap, cfg.noNul p = true) {event : SyncThreadNode → Bool} {as : List Act} {s : State cfg}
    (hrun : run (step cfg) (start cfg event) as = some s) (hret : s.phase = .returned)
    {bs : List (ReducePhase.Act K V)} {t : ReducePhase.State K V}
    (hreduce : run (ReducePhase.step rcfg) (reduceStart s maps calls) bs = some t) :
    (∀ i j, s.channel i j = []) ∧ bs.length ≤ 4 * rcfg.numNodes + 4 ∧
      ((∀ b, ReducePhase.step rcfg t b = none) → ∃ ok, t.phase = .returned ok) ∧
      ∀ ok, t.phase = .returned ok → ReducePhase.Result rcfg (reduceStart s maps calls) t ok := by
  obtain ⟨h, ht⟩ := tidy_run hfit hclean hrun
  have hquiet := h.quiet ht hret
  exact ⟨hquiet.channel, ReducePhase.reduce_returns rcfg (hquiet.reduceStart maps calls) rfl hreduce⟩

theorem twoLines_returns : ∃ as s, run (step twoLines) (start twoLines fun _ => false) as = some s ∧
    s.phase = .returned ∧ Quiet s := by
  have hfit : ∀ p ∈ twoLines.inMap, twoLines.size p ≤ bufLen := by decide
  have hclean : ∀ p ∈ twoLines.inMap, twoLines.noNul p = true := by decide
  obtain ⟨bound, hall⟩ := mapsExactlyOnce_of_noNul hfit hclean fun _ => false
  obtain ⟨as, s, hrun, hstuck⟩ := exists_stuck_run fun as s hrun => (hall as s hrun).1
  have hret := (hall as s hrun).2.1 hstuck
  obtain ⟨h, ht⟩ := tidy_run hfit hclean hrun
  exact ⟨as, s, hrun, hret, h.quiet ht hret⟩

/-- A thread of the master reduces on two nodes. -/
def twoNodesReduce : ReducePhase.Config := ⟨2, 0, Nat.two_pos, 1, false⟩

/-- After two lines have been mapped, each node reduces a map with one entry. -/
theorem reduce_after_map_twoLines :
    ∃ as s, run (step twoLines) (start twoLines fun _ => false) as = some s ∧ s.phase = .returned ∧
      ∃ bs t, run (ReducePhase.step twoNodesReduce) (reduceStart s (fun _ => [(7, [1])]) fun _ => []) bs = some t ∧
        ReducePhase.Result twoNodesReduce (reduceStart s (fun _ => [(7, [1])]) fun _ => []) t true := by
  obtain ⟨as, s, hrun, hret, hquiet⟩ := twoLines_returns
  obtain ⟨bs, t, ok, hreduce, hback⟩ := ReducePhase.exists_return twoNodesReduce
    (hquiet.reduceStart (fun _ => [(7, [1])]) fun _ => []) rfl
  obtain ⟨-, -, -, hresult⟩ := reduce_after_map twoNodesReduce (fun _ => [(7, [1])]) (fun _ => [])
    (by decide) (by decide) hrun hret hreduce
  obtain rfl : ok = true := (hresult ok hback).ok_iff.mpr rfl
  exact ⟨as, s, hrun, hret, bs, t, hreduce, hresult true hback⟩

/-! ## Sequences of calls -/

/-- The maps of the nodes, and the calls of `DoReduce` on each node so far. -/
structure Cluster (K V : Type) where
  maps : Nat → List (K × List V)
  calls : Nat → List (K × List V)

/-- A call on the cluster; `emit` gives the pairs that `DoMap` appends for a pair of the map. -/
inductive Call (K V : Type)
  | map (cfg : Config) (emit : cfg.Pair → List (K × V))
  | reduce (cfg : ReducePhase.Config)

/-- The pairs that `DoMap` appends over a call. -/
def Call.emitted : Call K V → List (K × V)
  | .map cfg emit => cfg.inMap.flatMap emit
  | .reduce _ => []

/-- A call of `Reduce` on the master. -/
def Call.isReduce : Call K V → Bool
  | .map _ _ => false
  | .reduce cfg => cfg.self = 0

/-- The call is one on `n` nodes, and its map can be sent: every pair fits into a buffer, and no string
has a zero byte. -/
def Call.Sendable (n : Nat) : Call K V → Prop
  | .map cfg _ => cfg.numNodes = n ∧ ∀ p ∈ cfg.inMap, cfg.size p ≤ bufLen ∧ cfg.noNul p = true
  | .reduce cfg => cfg.numNodes = n

/-- The cluster before and after some calls, one after the other, each taken to its return. -/
inductive Calls [DecidableEq K] [DecidableEq V] : Cluster K V → List (Call K V) → Cluster K V → Prop
  | nil {c : Cluster K V} : Calls c [] c
  | map {c c' : Cluster K V} {cfg : Config} {emit : cfg.Pair → List (K × V)} {rest : List (Call K V)}
      {event : SyncThreadNode → Bool} {as : List Act} {s : State cfg}
      (hrun : run (step cfg) (start cfg event) as = some s) (hret : s.phase = .returned)
      (hrest : Calls ⟨fun i => pushAll (c.maps i) ((s.nodes i).ran.flatMap emit), c.calls⟩ rest c') :
      Calls c (.map cfg emit :: rest) c'
  | reduce {c c' : Cluster K V} {cfg : ReducePhase.Config} {rest : List (Call K V)}
      {s t : ReducePhase.State K V} {as : List (ReducePhase.Act K V)} {ok : Bool}
      (hquiet : ReducePhase.Quiet s) (hidle : s.phase = .idle)
      (hstart : ∀ i, (s.nodes i).buf = c.maps i ∧ (s.nodes i).calls = c.calls i)
      (hrun : run (ReducePhase.step cfg) s as = some t) (hret : t.phase = .returned ok)
      (hrest : Calls ⟨fun i => (t.nodes i).buf, fun i => (t.nodes i).calls⟩ rest c') :
      Calls c (.reduce cfg :: rest) c'

/-- No map has been called yet. -/
def Cluster.empty : Cluster K V := ⟨fun _ => [], fun _ => []⟩

section Calls

variable [DecidableEq K] {n : Nat} {c c' : Cluster K V}

/-- The values of a key on the first `n` nodes, given to `DoReduce` or still in a map. -/
def Cluster.valuesOf (c : Cluster K V) (n : Nat) (k : K) : List V :=
  (List.range n).flatMap fun i => under k (c.calls i) ++ under k (c.maps i)

/-- More values at each index. -/
theorem perm_flatMap_append {α : Type} (l : List Nat) (f g : Nat → List α) :
    (l.flatMap fun i => f i ++ g i).Perm (l.flatMap f ++ l.flatMap g) := by
  induction l with
  | nil => exact List.Perm.refl _
  | cons i l ih =>
      rw [List.flatMap_cons, List.flatMap_cons, List.flatMap_cons]
      calc List.Perm ((f i ++ g i) ++ l.flatMap fun i => f i ++ g i)
            ((f i ++ g i) ++ (l.flatMap f ++ l.flatMap g)) := ih.append_left _
        List.Perm _ ((f i ++ l.flatMap f) ++ (g i ++ l.flatMap g)) := by
            simp only [List.append_assoc]
            exact (List.perm_append_comm_assoc ..).append_left _

/-- Every pair of the map has been mapped on one node, and its values are there. -/
theorem valuesOf_map {cfg : Config} (emit : cfg.Pair → List (K × V)) {s : State cfg}
    (hwell : ∀ i < cfg.numNodes, WellFormed (c.maps i)) (hran : s.allRan.Perm cfg.inMap) (k : K) :
    (Cluster.valuesOf ⟨fun i => pushAll (c.maps i) ((s.nodes i).ran.flatMap emit), c.calls⟩ cfg.numNodes k).Perm
      (c.valuesOf cfg.numNodes k ++ valuesFor k (cfg.inMap.flatMap emit)) := by
  have hnode : Cluster.valuesOf ⟨fun i => pushAll (c.maps i) ((s.nodes i).ran.flatMap emit), c.calls⟩ cfg.numNodes k =
      (List.range cfg.numNodes).flatMap fun i =>
        (under k (c.calls i) ++ under k (c.maps i)) ++ valuesFor k ((s.nodes i).ran.flatMap emit) := by
    apply List.flatMap_congr
    intro i hi
    dsimp only
    rw [under_pushAll (hwell i (List.mem_range.mp hi)), List.append_assoc]
  have hall : (List.range cfg.numNodes).flatMap (fun i => valuesFor k ((s.nodes i).ran.flatMap emit)) =
      valuesFor k (s.allRan.flatMap emit) := by
    simp only [State.allRan, valuesFor, List.flatMap_assoc, List.filter_flatMap, List.map_flatMap]
  rw [hnode]
  calc List.Perm _ ((c.valuesOf cfg.numNodes k) ++
        (List.range cfg.numNodes).flatMap fun i => valuesFor k ((s.nodes i).ran.flatMap emit)) :=
        perm_flatMap_append _ _ _
    List.Perm _ (c.valuesOf cfg.numNodes k ++ valuesFor k (cfg.inMap.flatMap emit)) := by
        rw [hall]
        exact (valuesFor_perm k (hran.flatMap_right emit)).append_left _

omit [DecidableEq K] in
/-- What a call of `Reduce` does to the cluster: each node has gone through its map once and cleared
it, or nothing has happened. -/
theorem reduce_nodes {cfg : ReducePhase.Config} {s t : ReducePhase.State K V} {ok : Bool}
    (h : ReducePhase.Result cfg s t ok) (hstart : ∀ i, (s.nodes i).buf = c.maps i ∧ (s.nodes i).calls = c.calls i)
    {i : Nat} (hi : i < cfg.numNodes) :
    if cfg.self = 0 then (t.nodes i).buf = [] ∧
      ∃ order, order.Perm (c.maps i) ∧ (t.nodes i).calls = c.calls i ++ order
    else (t.nodes i).buf = c.maps i ∧ (t.nodes i).calls = c.calls i := by
  obtain ⟨hmaps, hcalls⟩ := hstart i
  split
  · rename_i hself
    obtain ⟨hbuf, ⟨order, horder, hnew⟩, -⟩ := h.reduced (h.ok_iff.mpr hself) i hi
    exact ⟨hbuf, order, hmaps ▸ horder, hcalls ▸ hnew⟩
  · rename_i hself
    have hok : ok = false := by
      rw [← Bool.not_eq_true]
      exact fun hok => hself (h.ok_iff.mp hok)
    obtain ⟨hbuf, hnew⟩ := h.refused hok i
    exact ⟨hbuf.trans hmaps, hnew.trans hcalls⟩

/-- What some calls have done to a cluster on `n` nodes. -/
structure Exact (n : Nat) (c : Cluster K V) (calls : List (Call K V)) (c' : Cluster K V) : Prop where
  wellFormed : ∀ i < n, WellFormed (c'.maps i)
  values : ∀ k, (c'.valuesOf n k).Perm (c.valuesOf n k ++ valuesFor k (calls.flatMap Call.emitted))
  rounds : ∀ i < n, ∃ rounds : List (List (K × List V)), rounds.length = calls.countP Call.isReduce ∧
    c'.calls i = c.calls i ++ rounds.flatten ∧ ∀ r ∈ rounds, WellFormed r
  last : (∃ call, calls.getLast? = some call ∧ call.isReduce = true) → ∀ i < n, c'.maps i = []

omit [DecidableEq K] in
/-- The last of some calls is the first one when there is no other. -/
theorem last_cons {call : Call K V} {rest : List (Call K V)}
    (h : ∃ r, (call :: rest).getLast? = some r ∧ r.isReduce = true) :
    (rest = [] ∧ call.isReduce = true) ∨ ∃ r, rest.getLast? = some r ∧ r.isReduce = true := by
  obtain ⟨r, hlast, hreduce⟩ := h
  cases rest with
  | nil =>
      obtain rfl : call = r := Option.some.inj hlast
      exact Or.inl ⟨rfl, hreduce⟩
  | cons call' rest =>
      rw [List.getLast?_cons_cons] at hlast
      exact Or.inr ⟨r, hlast, hreduce⟩

theorem allRan_perm {cfg : Config} (hfit : ∀ p ∈ cfg.inMap, cfg.size p ≤ bufLen)
    (hclean : ∀ p ∈ cfg.inMap, cfg.noNul p = true) {event : SyncThreadNode → Bool} {as : List Act} {s : State cfg}
    (hrun : run (step cfg) (start cfg event) as = some s) (hret : s.phase = .returned) :
    s.allRan.Perm cfg.inMap := by
  have hmap : cfg.inMap.map cfg.shown = cfg.inMap :=
    (List.map_congr_left fun p hp => Config.shown_eq (hclean p hp)).trans (List.map_id _)
  have hperm := (tidy_run hfit hclean hrun).1.allRan_perm hret
  rwa [hmap] at hperm

/-- The first call is one of `Map`. -/
theorem Exact.map {cfg : Config} {emit : cfg.Pair → List (K × V)} {s : State cfg} {rest : List (Call K V)}
    (hwell : ∀ i < cfg.numNodes, WellFormed (c.maps i)) (hran : s.allRan.Perm cfg.inMap)
    (h : Exact cfg.numNodes ⟨fun i => pushAll (c.maps i) ((s.nodes i).ran.flatMap emit), c.calls⟩ rest c') :
    Exact cfg.numNodes c (.map cfg emit :: rest) c' := by
  refine ⟨h.wellFormed, fun k => ?_, fun i hi => ?_, fun hlast => ?_⟩
  · have hfirst := (valuesOf_map emit hwell hran k).append_right (valuesFor k (rest.flatMap Call.emitted))
    rw [List.append_assoc, ← valuesFor_append] at hfirst
    exact (h.values k).trans hfirst
  · obtain ⟨rounds, hlen, hcalls, hrounds⟩ := h.rounds i hi
    refine ⟨rounds, ?_, hcalls, hrounds⟩
    rw [hlen, List.countP_cons_of_neg]
    exact Bool.false_ne_true
  · rcases last_cons hlast with ⟨-, hreduce⟩ | hlast
    · cases hreduce
    · exact h.last hlast

/-- The first call is one of `Reduce`. -/
theorem Exact.reduce {cfg : ReducePhase.Config} {s t : ReducePhase.State K V} {ok : Bool} {rest : List (Call K V)}
    (hwell : ∀ i < cfg.numNodes, WellFormed (c.maps i)) (hresult : ReducePhase.Result cfg s t ok)
    (hstart : ∀ i, (s.nodes i).buf = c.maps i ∧ (s.nodes i).calls = c.calls i)
    (hrest : rest = [] → c' = ⟨fun i => (t.nodes i).buf, fun i => (t.nodes i).calls⟩)
    (h : Exact cfg.numNodes ⟨fun i => (t.nodes i).buf, fun i => (t.nodes i).calls⟩ rest c') :
    Exact cfg.numNodes c (.reduce cfg :: rest) c' := by
  have hnode : ∀ i < cfg.numNodes, _ := fun i hi => reduce_nodes hresult hstart hi
  refine ⟨h.wellFormed, fun k => ?_, fun i hi => ?_, fun hlast i hi => ?_⟩
  · have hsame : Cluster.valuesOf ⟨fun i => (t.nodes i).buf, fun i => (t.nodes i).calls⟩ cfg.numNodes k =
        c.valuesOf cfg.numNodes k := by
      apply List.flatMap_congr
      intro i hi
      have hone := hnode i (List.mem_range.mp hi)
      dsimp only
      split at hone
      · obtain ⟨hbuf, order, horder, hcalls⟩ := hone
        rw [hbuf, hcalls, under_append, under_perm (hwell i (List.mem_range.mp hi)) horder, under_nil,
          List.append_nil]
      · rw [hone.1, hone.2]
    have hvalues := h.values k
    rwa [hsame] at hvalues
  · obtain ⟨rounds, hlen, hcalls, hrounds⟩ := h.rounds i hi
    have hone := hnode i hi
    split at hone
    · rename_i hself
      obtain ⟨-, order, horder, hnew⟩ := hone
      refine ⟨order :: rounds, ?_, ?_, ?_⟩
      · rw [List.length_cons, hlen, List.countP_cons_of_pos]
        exact decide_eq_true hself
      · rw [hcalls, List.flatten_cons, ← List.append_assoc, ← hnew]
      · intro r hr
        rcases List.mem_cons.mp hr with rfl | hr
        · exact (horder.map Prod.fst).nodup_iff.mpr (hwell i hi)
        · exact hrounds r hr
    · rename_i hself
      refine ⟨rounds, ?_, ?_, hrounds⟩
      · rw [hlen, List.countP_cons_of_neg]
        rw [Call.isReduce, decide_eq_true_eq]
        exact hself
      · rw [hcalls, ← hone.2]
  · rcases last_cons hlast with ⟨hnil, hreduce⟩ | hlast
    · have hone := hnode i hi
      rw [if_pos (of_decide_eq_true hreduce)] at hone
      rw [hrest hnil]
      exact hone.1
    · exact h.last hlast i hi

/-- Over any sequence of calls of `Map` and `Reduce`, for every key, the values that `DoReduce` has
been given on all nodes and those still in the maps are together the values that `DoMap` has emitted,
each once. Each `Reduce` on the master goes over every map once, each key in one call, and when it is
the last call nothing is left in the maps. -/
theorem calls_exact [DecidableEq V] {calls : List (Call K V)} (h : Calls c calls c')
    (hsend : ∀ call ∈ calls, call.Sendable n) (hwell : ∀ i < n, WellFormed (c.maps i)) : Exact n c calls c' := by
  induction h with
  | nil =>
      refine ⟨hwell, fun k => ?_, fun i _ => ⟨[], rfl, ?_, ?_⟩, ?_⟩
      · simp
      · simp
      · simp
      · simp
  | @map c c' cfg emit rest event as s hrun hret _ ih =>
      obtain ⟨rfl, hpairs⟩ := hsend _ List.mem_cons_self
      have hran := allRan_perm (fun p hp => (hpairs p hp).1) (fun p hp => (hpairs p hp).2) hrun hret
      apply Exact.map hwell hran
      exact ih (fun call hcall => hsend call (List.mem_cons_of_mem _ hcall)) fun i hi => (hwell i hi).pushAll _
  | @reduce c c' cfg rest s t as ok hquiet hidle hstart hrun hret hrest ih =>
      obtain rfl := hsend _ List.mem_cons_self
      obtain ⟨-, -, hresult⟩ := ReducePhase.reduce_returns cfg hquiet hidle hrun
      apply Exact.reduce hwell (hresult ok hret) hstart
      · rintro rfl
        cases hrest
        rfl
      · apply ih fun call hcall => hsend call (List.mem_cons_of_mem _ hcall)
        intro i hi
        have hone := reduce_nodes (hresult ok hret) hstart hi
        dsimp only
        split at hone
        · rw [hone.1]
          exact List.nodup_nil
        · rw [hone.1]
          exact hwell i hi

end Calls

/-- Each line is counted once under itself. -/
def countLine (p : twoLines.Pair) : List (List Checkpoint.Byte × Nat) := [(p.2, 1)]

/-- Two lines are mapped and reduced. -/
theorem calls_exact_twoLines : ∃ c, Calls Cluster.empty [.map twoLines countLine, .reduce twoNodesReduce] c ∧
    Exact 2 Cluster.empty [.map twoLines countLine, .reduce twoNodesReduce] c := by
  obtain ⟨as, s, hrun, hret, hquiet⟩ := twoLines_returns
  obtain ⟨bs, t, ok, hreduce, hback⟩ := ReducePhase.exists_return twoNodesReduce
    (hquiet.reduceStart (fun i => pushAll [] ((s.nodes i).ran.flatMap countLine)) fun _ => []) rfl
  have hcalls : Calls Cluster.empty [.map twoLines countLine, .reduce twoNodesReduce]
      ⟨fun i => (t.nodes i).buf, fun i => (t.nodes i).calls⟩ :=
    .map hrun hret (.reduce (hquiet.reduceStart _ _) rfl (fun _ => ⟨rfl, rfl⟩) hreduce hback .nil)
  refine ⟨_, hcalls, calls_exact hcalls ?_ fun _ _ => List.nodup_nil⟩
  intro call hcall
  rcases List.mem_pair.mp hcall with rfl | rfl
  · exact ⟨rfl, by decide⟩
  · rfl

end Dogee.MapReduce
