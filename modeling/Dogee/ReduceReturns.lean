import Dogee.ReducePhase

/-!
# The reduce phase ends

Each step asks a node, lets a node reduce, counts a report or brings the caller nearer to
its return, and something can happen until the caller is back. By then every node has
called `DoReduce` once for each entry of its map, and the cluster is as quiet as before.
-/

namespace Dogee.ReducePhase

open SyncManager (SyncThreadNode)
open ThreadCounts
open Transition

variable {K V : Type} {cfg : Config} {s₀ s s' : State K V} {place : Nat → Place}

/-! ## What the steps change -/

section Channels

variable {i j : Nat} {msgs : List Message}

theorem channel_setChannel_self : (s.setChannel i j msgs).channel i j = msgs := by
  simp only [State.setChannel, Function.update_self]

theorem channel_setChannel_of_ne {k l : Nat} (hne : k ≠ i ∨ l ≠ j) :
    (s.setChannel i j msgs).channel k l = s.channel k l := by
  simp only [State.setChannel]
  by_cases hk : k = i
  · subst hk
    rw [Function.update_self, Function.update_of_ne (hne.resolve_left fun h => h rfl)]
  · rw [Function.update_of_ne hk]

end Channels

theorem NodeOk.congr {p : Place} {before now now' : DataSyncNode K V} (h : NodeOk cfg p before now)
    (hbuf : now'.buf = now.buf) (hcalls : now'.calls = now.calls)
    (hglobal : now'.globalReduces = now.globalReduces) : NodeOk cfg p before now' := by
  rw [NodeOk] at h ⊢
  rw [hbuf, hcalls, hglobal]
  exact h

/-- A node that has not reduced yet reduces its map. -/
theorem NodeOk.reduce {p q : Place} {before now : DataSyncNode K V} {order : List (K × List V)}
    (h : NodeOk cfg p before now) (hp : p.isReduced = false) (hq : q.isReduced = true)
    (horder : order.Perm now.buf) : NodeOk cfg q before (baseDoReduce cfg now order) := by
  rw [NodeOk, hp, if_neg Bool.false_ne_true] at h
  obtain ⟨hbuf, hcalls, hglobal⟩ := h
  rw [NodeOk, hq, if_pos rfl]
  refine ⟨rfl, ⟨order, hbuf ▸ horder, ?_⟩, ?_⟩
  · rw [baseDoReduce, hcalls]
  · rw [baseDoReduce, hglobal]

/-- The master counts a report when only the caller may be woken. -/
theorem partialDone_eq (hwait : (s.nodes 0).waitlist = [cfg.caller]) :
    acAccumulatePartialDoneMsg cfg s =
      if cfg.numNodes ≤ (s.nodes 0).doneNodeCnt + 1 then
        { s with event := Function.update s.event cfg.caller true }.setNode 0
          { s.nodes 0 with doneNodeCnt := 0, waitlist := [] }
      else s.setNode 0 { s.nodes 0 with doneNodeCnt := (s.nodes 0).doneNodeCnt + 1 } := by
  have hmachine : cfg.caller.machine = 0 := rfl
  simp only [acAccumulatePartialDoneMsg, hwait, List.foldl_cons, List.foldl_nil, State.rcWakeRemoteThread, hmachine,
    if_true]

theorem foldl_wake_phase (ws : List SyncThreadNode) (s : State K V) :
    (ws.foldl State.rcWakeRemoteThread s).phase = s.phase := by
  induction ws generalizing s with
  | nil => rfl
  | cons w ws ih =>
      rw [List.foldl_cons, ih, State.rcWakeRemoteThread]
      split
      · rfl
      · rfl

variable (cfg) in
theorem phase_partialDone (s : State K V) : (acAccumulatePartialDoneMsg cfg s).phase = s.phase := by
  rw [acAccumulatePartialDoneMsg]
  split
  · exact foldl_wake_phase _ s
  · rfl

variable (cfg) in
theorem phase_localReduce (s : State K V) (i : Nat) (order : List (K × List V)) :
    (acLocalReduceMsg cfg s i order).phase = s.phase := by
  rw [acLocalReduceMsg]
  split
  · exact phase_partialDone cfg _
  · rfl

/-- Counting a report leaves the maps, the connections and the other nodes alone. -/
structure Frame (s s' : State K V) : Prop where
  phase : s'.phase = s.phase
  channel : s'.channel = s.channel
  wakes : s'.wakes = s.wakes
  other : ∀ i, i ≠ 0 → s'.nodes i = s.nodes i
  buf : ∀ i, (s'.nodes i).buf = (s.nodes i).buf
  calls : ∀ i, (s'.nodes i).calls = (s.nodes i).calls
  globalReduces : ∀ i, (s'.nodes i).globalReduces = (s.nodes i).globalReduces

/-- Only the master's counter, its wait list and the events change. -/
theorem frame_setNode (s : State K V) (event : SyncThreadNode → Bool) (cnt : Nat) (waitlist : List SyncThreadNode) :
    Frame s ({ s with event := event }.setNode 0
      { s.nodes 0 with doneNodeCnt := cnt, waitlist := waitlist }) := by
  have hsame : ∀ {β : Type} (f : DataSyncNode K V → β),
      f { s.nodes 0 with doneNodeCnt := cnt, waitlist := waitlist } = f (s.nodes 0) →
      ∀ i, f (Function.update s.nodes 0 { s.nodes 0 with doneNodeCnt := cnt, waitlist := waitlist } i) =
        f (s.nodes i) := by
    intro β f hf i
    by_cases hi : i = 0
    · rw [hi, Function.update_self, hf]
    · rw [Function.update_of_ne hi]
  exact ⟨rfl, rfl, rfl, fun i hi => Function.update_of_ne hi .., hsame _ rfl, hsame _ rfl, hsame _ rfl⟩

/-- The master counts the report of node `i`. -/
theorem Counting.count {i : Nat} (h : Counting cfg s place) (hi : i < cfg.numNodes) (hp : (place i).count = 0)
    (hphase : s.phase = .waiting) :
    Frame s (acAccumulatePartialDoneMsg cfg s) ∧
      (Counting cfg (acAccumulatePartialDoneMsg cfg s) (Function.update place i .counted) ∨
        Done cfg (acAccumulatePartialDoneMsg cfg s) (Function.update place i .counted)) := by
  have hwait : (s.nodes 0).waitlist = [cfg.caller] := by
    rw [h.waitlist, hphase]
    rfl
  have htotal : total cfg.numNodes Place.count (Function.update place i .counted) =
      total cfg.numNodes Place.count place + 1 := by
    have hupdate := total_update hi Place.count place .counted
    rwa [hp, Nat.add_zero] at hupdate
  rw [partialDone_eq hwait, h.cnt]
  split
  · rename_i hall
    refine ⟨frame_setNode .., Or.inr ⟨fun j hj => ?_, ?_, ?_, ?_⟩⟩
    · -- the counters are full, so that no node is left
      by_contra hne
      have hle : ∀ p : Place, p.count ≤ 1 := fun p => by cases p <;> decide
      have hzero : (Function.update place i .counted j).count = 0 := by
        cases hq : Function.update place i .counted j <;> first | rfl | exact absurd hq hne
      have hlt := total_lt hle hj hzero
      omega
    · simp only [State.setNode, Function.update_self]
    · simp only [State.setNode, Function.update_self]
    · exact Function.update_self ..
  · rename_i hmore
    refine ⟨frame_setNode s s.event _ (s.nodes 0).waitlist, Or.inl ⟨?_, ?_, ?_, ?_, h.phase⟩⟩
    · simp only [State.setNode, Function.update_self, htotal]
    · omega
    · simp only [State.setNode, Function.update_self]
      exact h.waitlist
    · exact h.event

/-! ## Every step keeps the invariant -/

section Steps

theorem Config.pos (cfg : Config) : 0 < cfg.numNodes := Nat.lt_of_le_of_lt (Nat.zero_le _) cfg.placed

theorem Inv.lt (h : Inv cfg s₀ s place) {i : Nat} (hi : place i ≠ .pending) : i < cfg.numNodes := by
  by_contra hge
  exact hi (h.outside i (Nat.le_of_not_lt hge))

/-- As long as a node is not counted, the caller waits. -/
theorem Inv.counting (h : Inv cfg s₀ s place) {i : Nat} (hi : i < cfg.numNodes) (hp : place i ≠ .counted) :
    Counting cfg s place := h.count.resolve_right fun hdone => hp (hdone.all i hi)

/-- Once a node has been asked, the caller is in its loop or waits. -/
theorem Inv.listed (h : Inv cfg s₀ s place) {i : Nat} (hp : place i ≠ .pending) (hcount : Counting cfg s place) :
    (∃ k, s.phase = .sending k) ∨ s.phase = .waiting := by
  have hasked := h.asked
  cases hphase : s.phase with
  | sending k => exact Or.inl ⟨k, rfl⟩
  | waiting => exact Or.inr rfl
  | returned ok =>
      rw [hphase] at hasked
      cases ok with
      | false => exact absurd (hasked i) hp
      | true => exact absurd hphase hcount.phase
  | idle | called =>
      rw [hphase] at hasked
      exact absurd (hasked i) hp

/-- The caller moves on, and no node does. -/
theorem Inv.setPhase (h : Inv cfg s₀ s place) {phase : Phase} {event : SyncThreadNode → Bool}
    (hasked : Asked cfg place phase) (hself : phase = .returned false ↔ cfg.self ≠ 0)
    (hcount : Counting cfg { s with phase := phase, event := event } place ∨
      Done cfg { s with phase := phase, event := event } place) :
    Inv cfg s₀ { s with phase := phase, event := event } place :=
  ⟨h.request, h.report, h.silent, h.master, h.outside, h.node, hasked, Or.inr hself, h.slave, h.wakes, hcount⟩

theorem inv_idle (h : Inv cfg s₀ s place) (hphase : s.phase = .idle) :
    if cfg.self = 0 then
      Inv cfg s₀ { s with phase := .called, event := Function.update s.event cfg.caller false } place
    else Inv cfg s₀ { s with phase := .returned false } place := by
  have hasked := h.asked
  rw [hphase] at hasked
  have hcount := h.counting cfg.pos (by rw [hasked 0]; decide)
  have hwait := hcount.waitlist
  rw [hphase] at hwait
  split
  · rename_i hself
    refine h.setPhase hasked ?_ (Or.inl ⟨hcount.cnt, hcount.lt, hwait, ?_, Phase.noConfusion⟩)
    · simp [hself]
    · exact Or.inr (Or.inl (Function.update_self ..))
  · rename_i hself
    refine h.setPhase hasked ?_ (Or.inl ⟨hcount.cnt, hcount.lt, hwait, Or.inr (Or.inr rfl), ?_⟩)
    · simp [hself]
    · simp

/-- The caller enters the lock and the wait list. -/
theorem inv_enter (h : Inv cfg s₀ s place) (hphase : s.phase = .called) :
    Inv cfg s₀ ({ s with phase := .sending 1 }.setNode 0
      { s.nodes 0 with waitlist := (s.nodes 0).waitlist ++ [cfg.caller] }) place := by
  have hasked := h.asked
  rw [hphase] at hasked
  have hcount := h.counting cfg.pos (by rw [hasked 0]; decide)
  have hself : cfg.self = 0 := by
    have hself := h.self
    rw [hphase] at hself
    by_contra hne
    exact absurd ((hself.resolve_left Phase.noConfusion).mpr hne) Phase.noConfusion
  have hframe := frame_setNode { s with phase := .sending 1 } s.event (s.nodes 0).doneNodeCnt
    ((s.nodes 0).waitlist ++ [cfg.caller])
  refine ⟨h.request, h.report, h.silent, h.master, h.outside, fun i => ?_, ?_, ?_, fun i hi => ?_, h.wakes, ?_⟩
  · exact (h.node i).congr (hframe.buf i) (hframe.calls i) (hframe.globalReduces i)
  · exact ⟨Nat.le_refl 1, cfg.pos, fun i hi hi' => absurd hi (Nat.not_le_of_lt hi'), fun i _ => hasked i⟩
  · simp [State.setNode, hself]
  · have hother := hframe.other i hi
    simp only at hother
    rw [hother]
    exact h.slave i hi
  · refine Or.inl ⟨?_, hcount.lt, ?_, ?_, Phase.noConfusion⟩
    · simp only [State.setNode, Function.update_self]
      exact hcount.cnt
    · simp only [State.setNode, Function.update_self]
      rw [hcount.waitlist, hphase]
      rfl
    · have hevent := hcount.event
      rw [hphase] at hevent
      simp only [reduceCtorEq, false_or, or_false] at hevent
      exact Or.inr (Or.inl hevent)

/-- The caller asks node `k`. -/
theorem inv_send (h : Inv cfg s₀ s place) {k : Nat} (hphase : s.phase = .sending k) (hk : k < cfg.numNodes) :
    Inv cfg s₀ ({ s with phase := .sending (k + 1) }.send 0 k .localReduce) (Function.update place k .requested) := by
  have hasked := h.asked
  rw [hphase] at hasked
  obtain ⟨hone, -, hbelow, habove⟩ := hasked
  have hpending : place k = .pending := habove k (Or.inr (Nat.le_refl k))
  have hk0 : k ≠ 0 := Nat.ne_of_gt hone
  have hcount := h.counting hk (by rw [hpending]; decide)
  have htotal : total cfg.numNodes Place.count (Function.update place k .requested) =
      total cfg.numNodes Place.count place := by
    have hupdate := total_update hk Place.count place .requested
    rwa [hpending] at hupdate
  refine ⟨fun i => ?_, fun i hi => ?_, fun i j hi hj => ?_, ?_, fun i hi => ?_, fun i => ?_, ?_, ?_, h.slave,
    h.wakes, ?_⟩
  · by_cases hik : i = k
    · subst hik
      rw [State.send, channel_setChannel_self, Function.update_self]
      show s.channel 0 i ++ [.localReduce] = _
      rw [h.request i, hpending]
      rfl
    · rw [State.send, channel_setChannel_of_ne (Or.inr hik), Function.update_of_ne hik]
      exact h.request i
  · rw [State.send, channel_setChannel_of_ne (Or.inl hi)]
    have hold := h.report i hi
    by_cases hik : i = k
    · subst hik
      rw [hpending] at hold
      rw [Function.update_self]
      exact hold
    · rw [Function.update_of_ne hik]
      exact hold
  · rw [State.send, channel_setChannel_of_ne (Or.inl hi)]
    exact h.silent i j hi hj
  · rw [Function.update_of_ne (Ne.symm hk0)]
    exact h.master
  · rw [Function.update_of_ne (Nat.ne_of_gt (Nat.lt_of_lt_of_le hk hi))]
    exact h.outside i hi
  · by_cases hik : i = k
    · subst hik
      have hold := h.node i
      rw [hpending] at hold
      rw [Function.update_self]
      exact hold
    · rw [Function.update_of_ne hik]
      exact h.node i
  · refine ⟨Nat.le_succ_of_le hone, hk, fun i hi hi' => ?_, fun i hi => ?_⟩
    · by_cases hik : i = k
      · rw [hik, Function.update_self]
        exact Place.noConfusion
      · rw [Function.update_of_ne hik]
        exact hbelow i hi (Nat.lt_of_le_of_ne (Nat.le_of_lt_succ hi') hik)
    · have hik : i ≠ k := by
        rcases hi with rfl | hi
        · exact Ne.symm hk0
        · exact Nat.ne_of_gt hi
      rw [Function.update_of_ne hik]
      exact habove i (hi.imp_right Nat.le_of_succ_le)
  · have hself := h.self
    rw [hphase] at hself
    simpa [State.send, State.setChannel] using hself
  · have hwait := hcount.waitlist
    have hevent := hcount.event
    rw [hphase] at hwait hevent
    simp only [reduceCtorEq, false_or, or_false] at hevent
    exact Or.inl ⟨htotal ▸ hcount.cnt, htotal ▸ hcount.lt, hwait, Or.inr (Or.inl hevent), Phase.noConfusion⟩

/-- The last of the other nodes has been asked: the master reduces its own map. -/
theorem inv_own (h : Inv cfg s₀ s place) {k : Nat} (hphase : s.phase = .sending k) (hk : ¬k < cfg.numNodes)
    {order : List (K × List V)} (horder : order.Perm (s.nodes 0).buf) :
    Inv cfg s₀ (acLocalReduceMsg cfg { s with phase := .waiting } 0 order) (Function.update place 0 .counted) := by
  have hasked := h.asked
  rw [hphase] at hasked
  obtain ⟨-, hkn, hbelow, habove⟩ := hasked
  have hpending : place 0 = .pending := habove 0 (Or.inl rfl)
  have hcount := h.counting cfg.pos (by rw [hpending]; decide)
  obtain ⟨r, hr⟩ : ∃ r : State K V, r = { s with phase := .waiting }.setNode 0 (baseDoReduce cfg (s.nodes 0) order) :=
    ⟨_, rfl⟩
  have hreduced : Counting cfg r place := by
    have hwait := hcount.waitlist
    have hevent := hcount.event
    rw [hphase] at hwait hevent
    simp only [reduceCtorEq, false_or, or_false] at hevent
    subst hr
    refine ⟨?_, hcount.lt, ?_, Or.inr (Or.inl hevent), Phase.noConfusion⟩
    · simp only [State.setNode, Function.update_self]
      exact hcount.cnt
    · simp only [State.setNode, Function.update_self]
      exact hwait
  have hphase' : r.phase = .waiting := by
    rw [hr]
    rfl
  obtain ⟨hframe, hcount'⟩ := hreduced.count cfg.pos (by rw [hpending]; rfl) hphase'
  have hchannel : (acAccumulatePartialDoneMsg cfg r).channel = s.channel := by
    rw [hframe.channel, hr]
    rfl
  have hmsg : acLocalReduceMsg cfg { s with phase := .waiting } 0 order = acAccumulatePartialDoneMsg cfg r := by
    rw [acLocalReduceMsg, if_pos rfl, hr]
  have hother : ∀ i, i ≠ 0 → r.nodes i = s.nodes i := by
    intro i hi
    rw [hr]
    exact Function.update_of_ne hi ..
  rw [hmsg]
  refine ⟨fun i => ?_, fun i hi => ?_, fun i j hi hj => ?_, Or.inr (Function.update_self ..), fun i hi => ?_, fun i => ?_,
    ?_, ?_, fun i hi => ?_, ?_, hcount'⟩
  · rw [hchannel, h.request i]
    by_cases hi : i = 0
    · rw [hi, hpending, Function.update_self]
      rfl
    · rw [Function.update_of_ne hi]
  · rw [hchannel, Function.update_of_ne hi]
    exact h.report i hi
  · rw [hchannel]
    exact h.silent i j hi hj
  · rw [Function.update_of_ne (Nat.ne_of_gt (Nat.lt_of_lt_of_le cfg.pos hi))]
    exact h.outside i hi
  · refine NodeOk.congr ?_ (hframe.buf i) (hframe.calls i) (hframe.globalReduces i)
    by_cases hi : i = 0
    · subst hi
      have hnode : r.nodes 0 = baseDoReduce cfg (s.nodes 0) order := by
        rw [hr]
        simp only [State.setNode, Function.update_self]
      rw [hnode, Function.update_self]
      exact (h.node 0).reduce (by rw [hpending]; rfl) rfl horder
    · rw [hother i hi, Function.update_of_ne hi]
      exact h.node i
  · rw [hframe.phase, hphase']
    intro i hi
    by_cases hi0 : i = 0
    · rw [hi0, Function.update_self]
      exact Place.noConfusion
    · rw [Function.update_of_ne hi0]
      exact hbelow i (Nat.pos_of_ne_zero hi0) (Nat.lt_of_lt_of_le hi (Nat.le_of_not_lt hk))
  · have hself := h.self
    rw [hphase] at hself
    rw [hframe.phase, hphase']
    simpa using hself
  · rw [hframe.other i hi, hother i hi]
    exact h.slave i hi
  · rw [hframe.wakes, hr]
    exact h.wakes

/-- A node that has been asked reduces its map and reports. -/
theorem inv_take (h : Inv cfg s₀ s place) {i : Nat} {rest : List Message} (hi : i ≠ 0)
    (hchannel : s.channel 0 i = .localReduce :: rest) {order : List (K × List V)}
    (horder : order.Perm (s.nodes i).buf) :
    place i = .requested ∧
      Inv cfg s₀ (acLocalReduceMsg cfg (s.setChannel 0 i rest) i order) (Function.update place i .reported) := by
  have hrequest := h.request i
  rw [hchannel] at hrequest
  have hplace : place i = .requested := by
    cases hp : place i <;> rw [hp] at hrequest <;> first | rfl | cases hrequest
  rw [hplace] at hrequest
  obtain rfl : rest = [] := (List.cons.inj hrequest).2
  have hlt : i < cfg.numNodes := h.lt (by rw [hplace]; decide)
  have hcount := h.counting hlt (by rw [hplace]; decide)
  have htotal : total cfg.numNodes Place.count (Function.update place i .reported) =
      total cfg.numNodes Place.count place := by
    have hupdate := total_update hlt Place.count place .reported
    rwa [hplace] at hupdate
  refine ⟨hplace, ?_⟩
  rw [acLocalReduceMsg, if_neg hi]
  have hzero : ∀ node, Function.update s.nodes i node 0 = s.nodes 0 :=
    fun node => Function.update_of_ne (Ne.symm hi) ..
  refine ⟨fun j => ?_, fun j hj => ?_, fun j l hj hl => ?_, ?_, fun j hj => ?_, fun j => ?_, ?_, h.self, fun j hj => ?_,
    h.wakes, ?_⟩
  · rw [State.send, channel_setChannel_of_ne (Or.inl (Ne.symm hi))]
    show (s.setChannel 0 i []).channel 0 j = _
    by_cases hji : j = i
    · rw [hji, channel_setChannel_self, Function.update_self]
      rfl
    · rw [channel_setChannel_of_ne (Or.inr hji), Function.update_of_ne hji]
      exact h.request j
  · by_cases hji : j = i
    · subst hji
      rw [State.send, channel_setChannel_self, Function.update_self]
      show (s.setChannel 0 j []).channel j 0 ++ [.partialDone] = _
      rw [channel_setChannel_of_ne (Or.inl hj), h.report j hj, hplace]
      rfl
    · rw [State.send, channel_setChannel_of_ne (Or.inl hji), Function.update_of_ne hji]
      show (s.setChannel 0 i []).channel j 0 = _
      rw [channel_setChannel_of_ne (Or.inl hj)]
      exact h.report j hj
  · rw [State.send, channel_setChannel_of_ne (Or.inr hl)]
    show (s.setChannel 0 i []).channel j l = _
    rw [channel_setChannel_of_ne (Or.inl hj)]
    exact h.silent j l hj hl
  · rw [Function.update_of_ne (Ne.symm hi)]
    exact h.master
  · rw [Function.update_of_ne (Nat.ne_of_gt (Nat.lt_of_lt_of_le hlt hj))]
    exact h.outside j hj
  · show NodeOk cfg _ _ (Function.update s.nodes i (baseDoReduce cfg (s.nodes i) order) j)
    by_cases hji : j = i
    · subst hji
      rw [Function.update_self, Function.update_self]
      exact (h.node j).reduce (by rw [hplace]; rfl) rfl horder
    · rw [Function.update_of_ne hji, Function.update_of_ne hji]
      exact h.node j
  · -- the caller has asked the node already
    show Asked cfg _ s.phase
    have hasked := h.asked
    have hstays : ∀ j, place j ≠ .pending → Function.update place i .reported j ≠ .pending := by
      intro j hj
      by_cases hji : j = i
      · rw [hji, Function.update_self]
        exact Place.noConfusion
      · rwa [Function.update_of_ne hji]
    rcases h.listed (by rw [hplace]; decide : place i ≠ .pending) hcount with ⟨k, hphase⟩ | hphase
    · rw [hphase] at hasked ⊢
      obtain ⟨hone, hkn, hbelow, habove⟩ := hasked
      refine ⟨hone, hkn, fun j hj hjk => hstays j (hbelow j hj hjk), fun j hj => ?_⟩
      rw [Function.update_of_ne]
      · exact habove j hj
      · rintro rfl
        rw [habove j hj] at hplace
        cases hplace
    · rw [hphase] at hasked ⊢
      exact fun j hj => hstays j (hasked j hj)
  · show (Function.update s.nodes i (baseDoReduce cfg (s.nodes i) order) j).doneNodeCnt = 0 ∧
      (Function.update s.nodes i (baseDoReduce cfg (s.nodes i) order) j).waitlist = []
    by_cases hji : j = i
    · subst hji
      rw [Function.update_self]
      exact h.slave j hj
    · rw [Function.update_of_ne hji]
      exact h.slave j hj
  · refine Or.inl ⟨?_, htotal ▸ hcount.lt, ?_, hcount.event, hcount.phase⟩
    · show (Function.update s.nodes i _ 0).doneNodeCnt = _
      rw [hzero, htotal]
      exact hcount.cnt
    · show (Function.update s.nodes i _ 0).waitlist = _
      rw [hzero]
      exact hcount.waitlist

/-- The master counts a report. -/
theorem inv_count (h : Inv cfg s₀ s place) {i : Nat} {rest : List Message} (hi : i ≠ 0)
    (hchannel : s.channel i 0 = .partialDone :: rest) (hlock : s.isLocked = false) :
    place i = .reported ∧
      Inv cfg s₀ (acAccumulatePartialDoneMsg cfg (s.setChannel i 0 rest)) (Function.update place i .counted) := by
  have hreport := h.report i hi
  rw [hchannel] at hreport
  have hplace : place i = .reported := by
    cases hp : place i <;> rw [hp] at hreport <;> first | rfl | cases hreport
  rw [hplace] at hreport
  obtain rfl : rest = [] := (List.cons.inj hreport).2
  have hlt : i < cfg.numNodes := h.lt (by rw [hplace]; decide)
  have hcount := h.counting hlt (by rw [hplace]; decide)
  have hphase : s.phase = .waiting := by
    rcases h.listed (by rw [hplace]; decide : place i ≠ .pending) hcount with ⟨k, hphase⟩ | hphase
    · rw [State.isLocked, hphase] at hlock
      cases hlock
    · exact hphase
  have htaken : Counting cfg (s.setChannel i 0 []) place :=
    ⟨hcount.cnt, hcount.lt, hcount.waitlist, hcount.event, hcount.phase⟩
  obtain ⟨hframe, hcount'⟩ := htaken.count hlt (by rw [hplace]; rfl) hphase
  refine ⟨hplace, fun j => ?_, fun j hj => ?_, fun j l hj hl => ?_, ?_, fun j hj => ?_, fun j => ?_, ?_, ?_,
    fun j hj => ?_, ?_, hcount'⟩
  · rw [hframe.channel, channel_setChannel_of_ne (Or.inl (Ne.symm hi)), h.request j]
    by_cases hji : j = i
    · rw [hji, hplace, Function.update_self]
      rfl
    · rw [Function.update_of_ne hji]
  · rw [hframe.channel]
    by_cases hji : j = i
    · rw [hji, channel_setChannel_self, Function.update_self]
      rfl
    · rw [channel_setChannel_of_ne (Or.inl hji), Function.update_of_ne hji]
      exact h.report j hj
  · rw [hframe.channel, channel_setChannel_of_ne (Or.inr hl)]
    exact h.silent j l hj hl
  · rw [Function.update_of_ne (Ne.symm hi)]
    exact h.master
  · rw [Function.update_of_ne (Nat.ne_of_gt (Nat.lt_of_lt_of_le hlt hj))]
    exact h.outside j hj
  · refine NodeOk.congr ?_ (hframe.buf j) (hframe.calls j) (hframe.globalReduces j)
    have hold := h.node j
    by_cases hji : j = i
    · subst hji
      rw [hplace] at hold
      rw [Function.update_self]
      exact hold
    · rw [Function.update_of_ne hji]
      exact hold
  · have hasked := h.asked
    rw [hphase] at hasked
    have hwaits : (acAccumulatePartialDoneMsg cfg (s.setChannel i 0 [])).phase = .waiting :=
      hframe.phase.trans hphase
    rw [hwaits]
    intro j hj
    by_cases hji : j = i
    · rw [hji, Function.update_self]
      exact Place.noConfusion
    · rw [Function.update_of_ne hji]
      exact hasked j hj
  · rw [hframe.phase]
    exact h.self
  · rw [hframe.other j hj]
    exact h.slave j hj
  · rw [hframe.wakes]
    exact h.wakes

/-- Only the master asks. -/
theorem Inv.request_of_channel (h : Inv cfg s₀ s place) {src dst : Nat} {rest : List Message}
    (hchannel : s.channel src dst = .localReduce :: rest) : src = 0 ∧ dst ≠ 0 := by
  by_cases hsrc : src = 0
  · refine ⟨hsrc, ?_⟩
    rintro rfl
    subst hsrc
    have hown := h.request 0
    rw [hchannel] at hown
    rcases h.master with hp | hp
    · rw [hp] at hown
      cases hown
    · rw [hp] at hown
      cases hown
  · by_cases hdst : dst = 0
    · subst hdst
      have hreport := h.report src hsrc
      rw [hchannel] at hreport
      cases hp : place src <;> rw [hp] at hreport <;> cases hreport
    · rw [h.silent src dst hsrc hdst] at hchannel
      cases hchannel

/-- Only the other nodes report, to the master. -/
theorem Inv.report_of_channel (h : Inv cfg s₀ s place) {src dst : Nat} {rest : List Message}
    (hchannel : s.channel src dst = .partialDone :: rest) : src ≠ 0 ∧ dst = 0 := by
  by_cases hsrc : src = 0
  · have hrequest := h.request dst
    rw [← hsrc, hchannel] at hrequest
    cases hp : place dst <;> rw [hp] at hrequest <;> cases hrequest
  · refine ⟨hsrc, ?_⟩
    by_contra hdst
    rw [h.silent src dst hsrc hdst] at hchannel
    cases hchannel

/-- The event of the caller is set only when all nodes are counted. -/
theorem inv_ret (h : Inv cfg s₀ s place) (hphase : s.phase = .waiting) (hevent : s.event cfg.caller = true) :
    Inv cfg s₀ { s with phase := .returned true } place := by
  have hdone : Done cfg s place := by
    apply h.count.resolve_left
    intro hcount
    have hno := hcount.event
    rw [hphase, hevent] at hno
    simp at hno
  have hasked := h.asked
  have hself := h.self
  rw [hphase] at hasked hself
  refine h.setPhase hasked ?_ (Or.inr ⟨hdone.all, hdone.cnt, hdone.waitlist, hdone.event⟩)
  simpa using hself

variable [DecidableEq K] [DecidableEq V]

/-- Every step keeps the invariant and leaves less to do. -/
theorem inv_step (h : Inv cfg s₀ s place) {a : Act K V} (hstep : step cfg s a = some s') :
    ∃ place', Inv cfg s₀ s' place' ∧ work cfg s' place' < work cfg s place := by
  have hmove : ∀ {i : Nat} {p : Place}, i < cfg.numNodes →
      total cfg.numNodes Place.left (Function.update place i p) + (place i).left =
        total cfg.numNodes Place.left place + p.left := fun hi => total_update hi _ _ _
  cases a with
  | advance order =>
      simp only [step, advance] at hstep
      split at hstep
      · rename_i hphase
        have hidle := inv_idle h hphase
        have hleft : s.phase.left cfg = cfg.numNodes + 4 := by rw [hphase]; rfl
        split at hstep
        · rename_i hself
          obtain rfl := Option.some.inj hstep
          rw [if_pos hself] at hidle
          refine ⟨place, hidle, ?_⟩
          rw [work, work, hleft]
          simp only [Phase.left]
          omega
        · rename_i hself
          obtain rfl := Option.some.inj hstep
          rw [if_neg hself] at hidle
          refine ⟨place, hidle, ?_⟩
          rw [work, work, hleft]
          simp only [Phase.left]
          omega
      · rename_i hphase
        obtain rfl := Option.some.inj hstep
        refine ⟨place, inv_enter h hphase, ?_⟩
        have hpos := cfg.pos
        simp only [work, hphase, State.setNode, Phase.left]
        omega
      · rename_i k hphase
        split at hstep
        · rename_i hk
          obtain rfl := Option.some.inj hstep
          refine ⟨_, inv_send h hphase hk, ?_⟩
          have hasked := h.asked
          rw [hphase] at hasked
          have hless := hmove (p := .requested) hk
          rw [hasked.2.2.2 k (Or.inr (Nat.le_refl k))] at hless
          simp only [work, hphase, State.send, State.setChannel, Phase.left]
          simp only [Place.left] at hless
          omega
        · rename_i hk
          obtain ⟨horder, hstep⟩ := Option.ite_none_right_eq_some.mp hstep
          obtain rfl := Option.some.inj hstep
          refine ⟨_, inv_own h hphase hk horder, ?_⟩
          have hasked := h.asked
          rw [hphase] at hasked
          have hless := hmove (p := .counted) cfg.pos
          rw [hasked.2.2.2 0 (Or.inl rfl)] at hless
          have hphase' := phase_localReduce cfg { s with phase := .waiting } 0 order
          simp only [work, hphase, hphase', Phase.left]
          simp only [Place.left] at hless
          omega
      · rename_i hphase
        obtain ⟨hevent, hstep⟩ := Option.ite_none_right_eq_some.mp hstep
        obtain rfl := Option.some.inj hstep
        refine ⟨place, inv_ret h hphase hevent, ?_⟩
        simp only [work, hphase, Phase.left]
        omega
      · cases hstep
  | deliver src dst order =>
      simp only [step] at hstep
      split at hstep
      · cases hstep
      · rename_i hlock
        split at hstep
        · cases hstep
        · rename_i m rest hchannel
          cases m with
          | localReduce =>
              obtain ⟨rfl, hdst⟩ := h.request_of_channel hchannel
              obtain ⟨horder, hstep⟩ := Option.ite_none_right_eq_some.mp hstep
              obtain rfl := Option.some.inj hstep
              obtain ⟨hplace, hinv⟩ := inv_take h hdst hchannel horder
              have hless := hmove (p := .reported) (h.lt (by rw [hplace]; decide : place dst ≠ .pending))
              have hphase' := phase_localReduce cfg (s.setChannel 0 dst rest) dst order
              refine ⟨_, hinv, ?_⟩
              rw [hplace] at hless
              simp only [Place.left] at hless
              have hsame : (s.setChannel 0 dst rest).phase = s.phase := rfl
              rw [work, work, hphase', hsame]
              omega
          | partialDone =>
              obtain ⟨hsrc, rfl⟩ := h.report_of_channel hchannel
              obtain rfl := Option.some.inj hstep
              rw [if_pos rfl]
              obtain ⟨hplace, hinv⟩ := inv_count h hsrc hchannel (by simpa using hlock)
              have hless := hmove (p := .counted) (h.lt (by rw [hplace]; decide : place src ≠ .pending))
              have hphase' := phase_partialDone cfg (s.setChannel src 0 rest)
              refine ⟨_, hinv, ?_⟩
              rw [hplace] at hless
              simp only [Place.left] at hless
              have hsame : (s.setChannel src 0 rest).phase = s.phase := rfl
              rw [work, work, hphase', hsame]
              omega
  | wake machine =>
      simp only [step, h.wakes machine] at hstep
      cases hstep

end Steps

/-! ## The end of the phase -/

section Runs

theorem inv_start (hquiet : Quiet s₀) (hidle : s₀.phase = .idle) : Inv cfg s₀ s₀ fun _ => .pending := by
  have hzero : total cfg.numNodes Place.count (fun _ => .pending) = 0 := total_eq_zero fun _ _ => rfl
  refine ⟨fun i => hquiet.channel 0 i, fun i _ => hquiet.channel i 0, fun i j _ _ => hquiet.channel i j,
    Or.inl rfl, fun _ _ => rfl, fun _ => ⟨rfl, rfl, rfl⟩, ?_, Or.inl hidle,
    fun i _ => ⟨hquiet.doneNodeCnt i, hquiet.waitlist i⟩, hquiet.wakes, Or.inl ⟨?_, ?_, ?_, Or.inl hidle, ?_⟩⟩
  · rw [hidle]
    exact fun _ => rfl
  · rw [hzero]
    exact hquiet.doneNodeCnt 0
  · rw [hzero]
    exact cfg.pos
  · rw [hidle]
    exact hquiet.waitlist 0
  · rw [hidle]
    exact Phase.noConfusion

/-- When the caller is back, nothing is left of the phase. -/
theorem Inv.quiet (h : Inv cfg s₀ s place) {ok : Bool} (hphase : s.phase = .returned ok) : Quiet s := by
  have hasked := h.asked
  rw [hphase] at hasked
  have hstill : (∀ i, place i = .pending ∨ place i = .counted) ∧ (s.nodes 0).doneNodeCnt = 0 ∧
      (s.nodes 0).waitlist = [] := by
    cases ok with
    | false =>
        have hcount := h.counting cfg.pos (by rw [hasked 0]; decide)
        have hwait := hcount.waitlist
        rw [hphase] at hwait
        refine ⟨fun i => Or.inl (hasked i), ?_, hwait⟩
        rw [hcount.cnt]
        exact total_eq_zero fun i _ => by rw [hasked i]; rfl
    | true =>
        have hdone := h.count.resolve_left fun hcount => hcount.phase hphase
        refine ⟨fun i => ?_, hdone.cnt, hdone.waitlist⟩
        by_cases hi : i < cfg.numNodes
        · exact Or.inr (hdone.all i hi)
        · exact Or.inl (h.outside i (Nat.le_of_not_lt hi))
  obtain ⟨hplace, hcnt, hwait⟩ := hstill
  refine ⟨fun src dst => ?_, h.wakes, fun i => ?_, fun i => ?_⟩
  · by_cases hsrc : src = 0
    · rw [hsrc, h.request dst]
      rcases hplace dst with hp | hp <;> rw [hp] <;> rfl
    · by_cases hdst : dst = 0
      · rw [hdst, h.report src hsrc]
        rcases hplace src with hp | hp <;> rw [hp] <;> rfl
      · exact h.silent src dst hsrc hdst
  · by_cases hi : i = 0
    · rw [hi, hcnt]
    · exact (h.slave i hi).1
  · by_cases hi : i = 0
    · rw [hi, hwait]
    · exact (h.slave i hi).2

/-- The node has called `DoReduce` once for each entry of its map, in some order. -/
def Reduced (cfg : Config) (before now : DataSyncNode K V) : Prop :=
  now.buf = [] ∧ (∃ order, order.Perm before.buf ∧ now.calls = before.calls ++ order) ∧
    now.globalReduces = before.globalReduces + if cfg.hasGlobalReduce then 1 else 0

/-- The result of a call on a quiet cluster: on the master every node has reduced its map,
elsewhere nothing has happened; and the cluster is quiet again. -/
structure Result (cfg : Config) (s₀ s : State K V) (ok : Bool) : Prop where
  ok_iff : ok = true ↔ cfg.self = 0
  quiet : Quiet s
  reduced : ok = true → ∀ i < cfg.numNodes, Reduced cfg (s₀.nodes i) (s.nodes i)
  refused : ok = false → ∀ i, (s.nodes i).buf = (s₀.nodes i).buf ∧ (s.nodes i).calls = (s₀.nodes i).calls

theorem Inv.result (h : Inv cfg s₀ s place) {ok : Bool} (hphase : s.phase = .returned ok) :
    Result cfg s₀ s ok := by
  have hself := h.self
  have hasked := h.asked
  rw [hphase] at hself hasked
  simp only [reduceCtorEq, Phase.returned.injEq, false_or] at hself
  refine ⟨?_, h.quiet hphase, ?_, ?_⟩
  · cases ok with
    | false => simpa using hself
    | true => simpa using hself
  · rintro rfl i hi
    have hdone := h.count.resolve_left fun hcount => hcount.phase hphase
    have hnode := h.node i
    rw [hdone.all i hi] at hnode
    exact hnode
  · rintro rfl i
    have hnode := h.node i
    rw [hasked i] at hnode
    exact ⟨hnode.1, hnode.2.1⟩

variable [DecidableEq K] [DecidableEq V]

/-- Something can happen until the caller is back. -/
theorem Inv.returned_of_stuck (h : Inv cfg s₀ s place) (hstuck : ∀ a, step cfg s a = none) :
    ∃ ok, s.phase = .returned ok := by
  cases hphase : s.phase with
  | idle =>
      have hno := hstuck (.advance [])
      simp only [step, advance, hphase] at hno
      split at hno <;> cases hno
  | called =>
      have hno := hstuck (.advance [])
      simp [step, advance, hphase] at hno
  | sending k =>
      have hno := hstuck (.advance (s.nodes 0).buf)
      simp only [step, advance, hphase, List.Perm.refl, if_true] at hno
      split at hno <;> cases hno
  | returned ok => exact ⟨ok, rfl⟩
  | waiting =>
      exfalso
      have hasked := h.asked
      rw [hphase] at hasked
      have hopen : s.isLocked = false := by
        rw [State.isLocked, hphase]
      rcases h.count with hcount | hdone
      · obtain ⟨i, hi, hne⟩ : ∃ i < cfg.numNodes, place i ≠ .counted := by
          by_contra hall
          push Not at hall
          have hfull : total cfg.numNodes Place.count place = cfg.numNodes :=
            total_eq fun i hi => by rw [hall i hi]; rfl
          exact absurd hcount.lt (Nat.not_lt_of_le (Nat.le_of_eq hfull.symm))
        have hi0 : i ≠ 0 := by
          rintro rfl
          exact h.master.elim (hasked 0 hi) hne
        cases hp : place i with
        | pending => exact hasked i hi hp
        | counted => exact hne hp
        | requested =>
            have hrequest := h.request i
            rw [hp] at hrequest
            have hno := hstuck (.deliver 0 i (s.nodes i).buf)
            simp [step, hi0, hrequest, Place.request, receive, State.setChannel] at hno
        | reported =>
            have hreport := h.report i hi0
            rw [hp] at hreport
            have hno := hstuck (.deliver i 0 [])
            simp [step, hopen, hreport, Place.report, receive] at hno
      · have hno := hstuck (.advance [])
        simp [step, advance, hphase, hdone.event] at hno

/-- A call of `Reduce` on a quiet cluster takes a bounded number of steps, can only stop when it has
returned, and then it has its result. -/
theorem reduce_returns (cfg : Config) {s₀ : State K V} (hquiet : Quiet s₀) (hidle : s₀.phase = .idle)
    {as : List (Act K V)} {s : State K V} (hrun : run (step cfg) s₀ as = some s) :
    as.length ≤ 4 * cfg.numNodes + 4 ∧ ((∀ a, step cfg s a = none) → ∃ ok, s.phase = .returned ok) ∧
      ∀ ok, s.phase = .returned ok → Result cfg s₀ s ok := by
  have hstep : ∀ m (s : State K V) a t, (∃ place, Inv cfg s₀ s place ∧ work cfg s place = m) →
      step cfg s a = some t → ∃ k < m, ∃ place, Inv cfg s₀ t place ∧ work cfg t place = k := by
    rintro m s a t ⟨place, h, rfl⟩ hs
    obtain ⟨place', h', hless⟩ := inv_step h hs
    exact ⟨_, hless, place', h', rfl⟩
  obtain ⟨k, ⟨place, h, -⟩, hle⟩ := length_le_of_rank hstep ⟨_, inv_start hquiet hidle, rfl⟩ hrun
  have hleft : total cfg.numNodes Place.left (fun _ => .pending) = 3 * cfg.numNodes := by
    simp [total, Place.left, Nat.mul_comm]
  have hwork : work cfg s₀ (fun _ => .pending) = 4 * cfg.numNodes + 4 := by
    rw [work, hleft, hidle]
    simp only [Phase.left]
    omega
  refine ⟨?_, h.returned_of_stuck, fun ok => h.result⟩
  omega

/-- Some run of the call comes to its return. -/
theorem exists_return (cfg : Config) {s₀ : State K V} (hquiet : Quiet s₀) (hidle : s₀.phase = .idle) :
    ∃ as s ok, run (step cfg) s₀ as = some s ∧ s.phase = .returned ok := by
  obtain ⟨as, s, hrun, hstuck⟩ := exists_stuck_run fun as s hrun => (reduce_returns cfg hquiet hidle hrun).1
  obtain ⟨ok, hret⟩ := (reduce_returns cfg hquiet hidle hrun).2.1 hstuck
  exact ⟨as, s, ok, hrun, hret⟩

end Runs

end Dogee.ReducePhase
