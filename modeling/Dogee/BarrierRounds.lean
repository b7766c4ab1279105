import Dogee.SyncCalls
import Mathlib.Data.List.Perm.Subperm

/-!
# Rounds of a barrier

The threads of a barrier enter it again and again. The requests that the master has
handled fall into rounds of as many requests as the barrier counts; the last request of
a round wakes the calls of that round, and each round has one call of every thread.
-/

namespace Dogee.SyncSystem

open SyncManager Transition

/-- A barrier, and as many threads as it counts. -/
structure BarrierUsers (dsm : Dsm) where
  id : ObjectKey
  users : List SyncThreadNode
  nodup : users.Nodup
  nonempty : users ≠ []
  count : toInt (dsm id 0) = users.length

variable {dsm : Dsm} {b : BarrierUsers dsm} {s s' : State} {place : SyncThreadNode → Place} {c : Call}

/-- The threads only enter the barrier, without a timeout. -/
def BarrierUsers.Enters (b : BarrierUsers dsm) (_ : State) : Act → Prop
  | .call u op timeout => u ∈ b.users ∧ op = .enterBarrier b.id ∧ timeout < 0
  | .post _ _ => False
  | _ => True

/-- The node of the barrier, also before it is made. -/
def BarrierUsers.node (b : BarrierUsers dsm) (m : Manager) : SyncNode :=
  (m.syncData b.id).getD ⟨.barrier, 0, toInt (dsm b.id 0), []⟩

/-- The calls of one round. -/
def BarrierUsers.round (b : BarrierUsers dsm) (r : Nat) : List Call := b.users.map fun u => ⟨u, r⟩

/-- A thread in its call, when `R` rounds are complete. -/
def InRound (R : Nat) (id : ObjectKey) (th : Thread) : Prop :=
  match th.phase with
  | .idle => th.calls = R
  | .entering op timeout => th.calls = R + 1 ∧ op = .enterBarrier id ∧ timeout < 0
  | .waiting timeout => 0 < th.calls ∧ (th.calls = R ∨ th.calls = R + 1) ∧ timeout < 0

/-- The state when `R` rounds are complete. -/
structure Rounds (b : BarrierUsers dsm) (R : Nat) (s : State) : Prop where
  thread : ∀ u ∈ b.users, InRound R b.id (s.threads u)
  idle : ∀ u ∉ b.users, (s.threads u).phase = .idle
  quiet : ∀ u ∈ b.users, (s.threads u).phase = .idle → ∀ x ∈ s.wakes u.machine, x.1 ≠ u.threadId
  requests : ∀ m, ∀ r ∈ s.requests m, ∃ c, r = .wait (.enterBarrier b.id) c
  mem_granted : ∀ c, c ∈ s.granted ↔ c.thread ∈ b.users ∧ 0 < c.number ∧ c.number ≤ R
  granted : s.granted.Perm (s.arrived.take (b.users.length * R))
  arrived : s.arrived.drop (b.users.length * R) = s.queued b.id
  length : b.users.length * R ≤ s.arrived.length
  round : ∀ r < R, ((s.arrived.drop (b.users.length * r)).take b.users.length).Perm (b.round (r + 1))
  data : (b.node s.manager).data = b.users.length
  val : (b.node s.manager).val = (s.queued b.id).length
  open_ : (s.queued b.id).length < b.users.length
  returned : ∀ x ∈ s.returned, x.2 = true

theorem BarrierUsers.pos (b : BarrierUsers dsm) : 0 < b.users.length :=
  List.length_pos_iff.mpr b.nonempty

theorem rounds_start (b : BarrierUsers dsm) : Rounds b 0 start := by
  constructor
  · exact fun _ _ => rfl
  · exact fun _ _ => rfl
  · exact fun _ _ _ _ h => absurd h List.not_mem_nil
  · exact fun _ _ h => absurd h List.not_mem_nil
  · intro c
    constructor
    · exact fun h => absurd h List.not_mem_nil
    · exact fun h => absurd h.2.2 (Nat.not_le_of_lt h.2.1)
  · exact List.Perm.refl []
  · rfl
  · exact Nat.le_refl _
  · exact fun _ h => absurd h (Nat.not_lt_zero _)
  · exact b.count
  · rfl
  · exact b.pos
  · exact fun _ h => absurd h List.not_mem_nil

/-- A pending call is the call of the current round. -/
theorem Rounds.number_of_pending {R : Nat} (h : Rounds b R s) (hc : Pending s c) :
    c.thread ∈ b.users ∧ c.number = R + 1 := by
  obtain ⟨timeout, hphase⟩ := hc.waiting
  have hmem : c.thread ∈ b.users := by
    by_contra hnot
    exact absurd (hphase.symm.trans (h.idle _ hnot)) Phase.noConfusion
  have hcalls : (s.threads c.thread).calls = c.number := congrArg Call.number hc.current
  have hth := h.thread _ hmem
  rw [InRound, hphase, hcalls] at hth
  obtain ⟨hpos, hR | hR, -⟩ := hth
  · exact absurd ((h.mem_granted c).mpr ⟨hmem, hpos, Nat.le_of_eq hR⟩) hc.open_
  · exact ⟨hmem, hR⟩

/-- A call arrives and is not the last one of its round. -/
theorem serveWait_queue {R : Nat} (h : Rounds b R s) (c : Call)
    (hlt : (s.queued b.id).length + 1 < b.users.length) :
    serveWait dsm s c.thread.machine (.enterBarrier b.id) c = { s with
      manager := s.manager.put b.id { b.node s.manager with
        val := (s.queued b.id).length + 1
        waiting := (b.node s.manager).waiting ++ [c.thread] }
      arrived := s.arrived ++ [c]
      queued := Function.update s.queued b.id (s.queued b.id ++ [c]) } := by
  have hnot : ¬(b.node s.manager).data ≤ (b.node s.manager).val + 1 := by
    rw [h.data, h.val]
    omega
  rw [BarrierUsers.node] at hnot
  have hmsg : waitMsg dsm s.manager c.thread.machine c.thread.threadId (.enterBarrier b.id) =
      (s.manager.put b.id { b.node s.manager with
        val := (s.queued b.id).length + 1
        waiting := (b.node s.manager).waiting ++ [c.thread] }, []) := by
    simp only [waitMsg, barrierMsg, if_neg hnot]
    rw [← h.val]
    rfl
  simp only [serveWait, hmsg, WaitOp.object, if_true]
  rfl

/-- The last call of a round arrives. -/
theorem serveWait_complete {R : Nat} (h : Rounds b R s) (hs : Inv place [c] s)
    (hle : b.users.length ≤ (s.queued b.id).length + 1) :
    serveWait dsm s c.thread.machine (.enterBarrier b.id) c =
      (c :: s.queued b.id).foldl (fun s c => s.rcWakeRemoteThread c.thread c) { s with
        manager := s.manager.put b.id { b.node s.manager with
          val := 0
          waiting := [] }
        arrived := s.arrived ++ [c]
        queued := Function.update s.queued b.id [] } := by
  have hle' : (b.node s.manager).data ≤ (b.node s.manager).val + 1 := by
    rw [h.data, h.val]
    omega
  have htags : (s.queued b.id).map Call.thread = (b.node s.manager).waiting := by
    rw [hs.tags b.id, BarrierUsers.node, waiting_getD s.manager b.id rfl]
  have hlen : (b.node s.manager).waiting.length = (s.queued b.id).length := by
    rw [← htags, List.length_map]
  have hmsg : waitMsg dsm s.manager c.thread.machine c.thread.threadId (.enterBarrier b.id) =
      (s.manager.put b.id { b.node s.manager with
        val := 0
        waiting := [] }, c.thread :: (b.node s.manager).waiting) := by
    rw [BarrierUsers.node] at hle' ⊢
    simp only [waitMsg, barrierMsg, if_pos hle']
  simp only [serveWait, hmsg, WaitOp.object, List.length_cons, Nat.add_sub_cancel, hlen,
    List.drop_length]
  rw [if_neg (List.cons_ne_nil _ _), wakeAll_eq]
  · rw [List.length_cons, List.take_succ_cons, hlen, List.take_length]
  · rw [List.length_cons, List.take_succ_cons, hlen, List.take_length, List.map_cons, htags]

/-- The calls that wait when the last call of a round arrives are the calls of the round. -/
theorem round_of_full {R : Nat} (h : Rounds b R s) (hs : Inv place [c] s)
    (hle : b.users.length ≤ (s.queued b.id).length + 1) :
    (c :: s.queued b.id).Perm (b.round (R + 1)) := by
  obtain ⟨hc, hplace⟩ := hs.hand c List.mem_cons_self
  have hnot : c ∉ s.queued b.id := by
    intro hmem
    have := (hs.queued _ _ hmem).2
    rw [hplace] at this
    cases this
  have hnodup : (c :: s.queued b.id).Nodup := List.nodup_cons.mpr ⟨hnot, hs.nodup_queued b.id⟩
  have hsub : (c :: s.queued b.id) ⊆ b.round (R + 1) := by
    intro c' hc'
    have hpending : Pending s c' := by
      rcases List.mem_cons.mp hc' with rfl | hmem
      · exact hc
      · exact (hs.queued _ _ hmem).1
    obtain ⟨hmem, hnumber⟩ := h.number_of_pending hpending
    exact List.mem_map.mpr ⟨c'.thread, hmem, by rw [← hnumber]⟩
  apply (hnodup.subperm hsub).perm_of_length_le
  rw [BarrierUsers.round, List.length_map, List.length_cons]
  exact hle

theorem node_put (b : BarrierUsers dsm) (m : Manager) (node : SyncNode) :
    b.node (m.put b.id node) = node := by
  simp [BarrierUsers.node]

/-- A chunk of a list is also a chunk of a longer one. -/
theorem chunk_append {α : Type*} {l l' : List α} {m n : Nat} (h : m + n ≤ l.length) :
    ((l ++ l').drop m).take n = (l.drop m).take n := by
  rw [List.drop_append_of_le_length (by omega), List.take_append_of_le_length]
  rw [List.length_drop]
  omega

theorem Rounds.length_arrived {R : Nat} (h : Rounds b R s) :
    s.arrived.length = b.users.length * R + (s.queued b.id).length := by
  have hdrop := congrArg List.length h.arrived
  have hle := h.length
  rw [List.length_drop] at hdrop
  omega

/-- The rounds that are over stay when calls arrive. -/
theorem Rounds.round_append {R r : Nat} (h : Rounds b R s) (hr : r < R) (calls : List Call) :
    (((s.arrived ++ calls).drop (b.users.length * r)).take b.users.length).Perm (b.round (r + 1)) := by
  have hchunk : b.users.length * r + b.users.length ≤ s.arrived.length :=
    Nat.le_trans (Nat.mul_le_mul_left _ hr) h.length
  rw [chunk_append hchunk]
  exact h.round r hr

/-- A call that is not the last of its round waits. -/
theorem rounds_queue {R : Nat} (h : Rounds b R s) (c : Call) (hlt : (s.queued b.id).length + 1 < b.users.length) :
    Rounds b R (serveWait dsm s c.thread.machine (.enterBarrier b.id) c) := by
  rw [serveWait_queue h c hlt]
  constructor
  · exact h.thread
  · exact h.idle
  · exact h.quiet
  · exact h.requests
  · exact h.mem_granted
  · show s.granted.Perm ((s.arrived ++ [c]).take (b.users.length * R))
    rw [List.take_append_of_le_length h.length]
    exact h.granted
  · show (s.arrived ++ [c]).drop (b.users.length * R) = Function.update s.queued b.id _ b.id
    rw [List.drop_append_of_le_length h.length, h.arrived, Function.update_self]
  · show b.users.length * R ≤ (s.arrived ++ [c]).length
    rw [List.length_append]
    exact Nat.le_add_right_of_le h.length
  · intro r hr
    exact h.round_append hr [c]
  · show (b.node (s.manager.put b.id _)).data = _
    rw [node_put]
    exact h.data
  · show (b.node (s.manager.put b.id _)).val = ((Function.update s.queued b.id _ b.id).length : Int)
    rw [node_put, Function.update_self, List.length_append, List.length_singleton]
    push_cast
    rfl
  · show (Function.update s.queued b.id _ b.id).length < _
    rw [Function.update_self, List.length_append, List.length_singleton]
    exact hlt
  · exact h.returned

/-- The last call of a round lets all of them go. -/
theorem rounds_complete {R : Nat} (h : Rounds b R s) (hs : Inv place [c] s)
    (hle : b.users.length ≤ (s.queued b.id).length + 1) :
    Rounds b (R + 1) (serveWait dsm s c.thread.machine (.enterBarrier b.id) c) := by
  have hfull : (s.queued b.id).length + 1 = b.users.length := by
    have := h.open_
    omega
  have hround := round_of_full h hs hle
  have hin : ∀ u ∈ b.users, Pending s ⟨u, R + 1⟩ := by
    intro u hu
    have hmem : (⟨u, R + 1⟩ : Call) ∈ c :: s.queued b.id :=
      hround.symm.subset (List.mem_map.mpr ⟨u, hu, rfl⟩)
    rcases List.mem_cons.mp hmem with heq | hmem
    · rw [heq]
      exact (hs.hand c List.mem_cons_self).1
    · exact (hs.queued _ _ hmem).1
  have htotal : (s.arrived ++ [c]).length = b.users.length * (R + 1) := by
    rw [List.length_append, List.length_singleton, h.length_arrived, Nat.mul_succ]
    omega
  rw [serveWait_complete h hs hle]
  obtain ⟨hthreads, hmanager, hrequests, hqueued, harrived, hreturned, hgranted⟩ :=
    wakeAll_same (c :: s.queued b.id) { s with
      manager := s.manager.put b.id { b.node s.manager with
        val := 0
        waiting := [] }
      arrived := s.arrived ++ [c]
      queued := Function.update s.queued b.id [] }
  constructor
  · intro u hu
    rw [hthreads]
    obtain ⟨timeout, hphase⟩ := (hin u hu).waiting
    have hphase : (s.threads u).phase = .waiting timeout := hphase
    have hcalls : (s.threads u).calls = R + 1 := congrArg Call.number (hin u hu).current
    have hth := h.thread u hu
    rw [InRound, hphase] at hth ⊢
    rw [hcalls]
    exact ⟨Nat.succ_pos R, Or.inl rfl, hth.2.2⟩
  · rw [hthreads]
    exact h.idle
  · intro u hu hidle
    rw [hthreads] at hidle
    obtain ⟨timeout, hphase⟩ := (hin u hu).waiting
    exact absurd (hphase.symm.trans hidle) Phase.noConfusion
  · rw [hrequests]
    exact h.requests
  · intro c'
    rw [hgranted, List.mem_append, hround.mem_iff, h.mem_granted]
    constructor
    · rintro (⟨hu, hpos, hnumber⟩ | hmem)
      · exact ⟨hu, hpos, Nat.le_succ_of_le hnumber⟩
      · obtain ⟨u, hu, rfl⟩ := List.mem_map.mp hmem
        exact ⟨hu, Nat.succ_pos R, Nat.le_refl _⟩
    · rintro ⟨hu, hpos, hnumber⟩
      rcases Nat.lt_or_ge R c'.number with hlt' | hge
      · right
        have heq : c'.number = R + 1 := Nat.le_antisymm hnumber hlt'
        exact List.mem_map.mpr ⟨c'.thread, hu, by rw [← heq]⟩
      · exact Or.inl ⟨hu, hpos, hge⟩
  · rw [hgranted, harrived, ← htotal, List.take_length]
    show (s.granted ++ (c :: s.queued b.id)).Perm (s.arrived ++ [c])
    calc (s.granted ++ (c :: s.queued b.id)).Perm
          (s.arrived.take (b.users.length * R) ++ (c :: s.queued b.id)) := h.granted.append_right _
      List.Perm _ (s.arrived.take (b.users.length * R) ++ (s.queued b.id ++ [c])) :=
          List.Perm.append_left _ (List.perm_append_singleton c _).symm
      _ = s.arrived ++ [c] := by
          rw [← h.arrived, ← List.append_assoc, List.take_append_drop]
  · rw [harrived, hqueued, ← htotal]
    show (s.arrived ++ [c]).drop _ = Function.update s.queued b.id [] b.id
    rw [List.drop_length, Function.update_self]
  · rw [harrived]
    exact Nat.le_of_eq htotal.symm
  · intro r hr
    rw [harrived]
    show (((s.arrived ++ [c]).drop _).take _).Perm _
    rcases Nat.lt_succ_iff_lt_or_eq.mp hr with hr | rfl
    · exact h.round_append hr [c]
    · rw [List.drop_append_of_le_length h.length, h.arrived, List.take_of_length_le]
      · exact (List.perm_append_singleton c _).trans hround
      · rw [List.length_append, List.length_singleton]
        exact Nat.le_of_eq hfull
  · rw [hmanager]
    show (b.node (s.manager.put b.id _)).data = _
    rw [node_put]
    exact h.data
  · rw [hmanager, hqueued]
    show (b.node (s.manager.put b.id _)).val = ((Function.update s.queued b.id _ b.id).length : Int)
    rw [node_put, Function.update_self]
    rfl
  · rw [hqueued]
    show (Function.update s.queued b.id _ b.id).length < _
    rw [Function.update_self]
    exact b.pos
  · rw [hreturned]
    exact h.returned

/-- A call arrives at the barrier. -/
theorem rounds_serve {R : Nat} (h : Rounds b R s) (hs : Inv place [c] s) :
    ∃ R', Rounds b R' (serveWait dsm s c.thread.machine (.enterBarrier b.id) c) := by
  by_cases hlt : (s.queued b.id).length + 1 < b.users.length
  · exact ⟨R, rounds_queue h c hlt⟩
  · exact ⟨R + 1, rounds_complete h hs (Nat.le_of_not_lt hlt)⟩

/-! ## Steps -/

/-- A thread moves on in its call. -/
theorem Rounds.setThread {R : Nat} (h : Rounds b R s) {u : SyncThreadNode} (hu : u ∈ b.users)
    {th : Thread} (hth : InRound R b.id th)
    (hquiet : th.phase = .idle → ∀ x ∈ s.wakes u.machine, x.1 ≠ u.threadId)
    (event : SyncThreadNode → Bool) {returned : List (Call × Bool)}
    (hreturned : ∀ x ∈ returned, x.2 = true) :
    Rounds b R { s.setThread u th with
      event := event
      returned := returned } := by
  have hthread : ∀ v, (s.setThread u th).threads v = if v = u then th else s.threads v := fun v => by
    simp [State.setThread, Function.update_apply]
  refine { h with
    thread := ?_
    idle := ?_
    quiet := ?_
    returned := hreturned }
  · intro v hv
    show InRound R b.id ((s.setThread u th).threads v)
    rw [hthread]
    split
    · exact hth
    · exact h.thread v hv
  · intro v hv
    show ((s.setThread u th).threads v).phase = .idle
    rw [hthread, if_neg]
    · exact h.idle v hv
    · rintro rfl
      exact hv hu
  · intro v hv
    show ((s.setThread u th).threads v).phase = .idle → _
    rw [hthread]
    split
    · rename_i hvu
      rw [hvu]
      exact hquiet
    · exact h.quiet v hv

/-- A thread that is not outside is one of the barrier's. -/
theorem Rounds.mem_users {R : Nat} (h : Rounds b R s) {u : SyncThreadNode}
    (hne : (s.threads u).phase ≠ .idle) : u ∈ b.users := by
  by_contra hu
  exact hne (h.idle u hu)

theorem rounds_send {R : Nat} (hs : Inv place [] s) (h : Rounds b R s) {u : SyncThreadNode}
    {op : WaitOp} {timeout : Int} (hphase : (s.threads u).phase = .entering op timeout) {s₁ : State}
    (hs₁ : s₁ = s.setThread u { s.threads u with phase := .waiting timeout }) :
    ∃ R', Rounds b R' (if u.machine = 0 then serveWait dsm s₁ 0 op (s₁.current u)
      else send s₁ u.machine (.wait op (s₁.current u))) := by
  have hu := h.mem_users (by rw [hphase]; exact Phase.noConfusion)
  have hth := h.thread u hu
  rw [InRound, hphase] at hth
  obtain ⟨hcalls, rfl, hneg⟩ := hth
  have h₁ : Rounds b R s₁ := by
    rw [hs₁]
    apply h.setThread hu
    · show 0 < (s.threads u).calls ∧ _ ∧ timeout < 0
      rw [hcalls]
      exact ⟨Nat.succ_pos R, Or.inr rfl, hneg⟩
    · exact fun hidle => Phase.noConfusion hidle
    · exact h.returned
  split
  · rename_i hmaster
    have hserve := rounds_serve h₁ (inv_hold hs hphase hs₁)
    rw [show (s₁.current u).thread.machine = 0 from hmaster] at hserve
    exact hserve
  · refine ⟨R, { h₁ with requests := ?_ }⟩
    intro m r hr
    simp only [send, Function.update_apply] at hr
    split at hr
    · rcases List.mem_append.mp hr with hr | hr
      · exact h₁.requests _ r hr
      · exact ⟨_, List.mem_singleton.mp hr⟩
    · exact h₁.requests m r hr

theorem rounds_step (hs : Inv place [] s) {R : Nat} (h : Rounds b R s) {a : Act} (hok : b.Enters s a)
    (hstep : step dsm s a = some s') : (∃ place', Inv place' [] s') ∧ ∃ R', Rounds b R' s' := by
  cases a with
  | call u op timeout =>
      obtain ⟨hu, rfl, hneg⟩ := hok
      simp only [step] at hstep
      split at hstep
      · rename_i hidle
        obtain rfl := Option.some.inj hstep
        have hth := h.thread u hu
        rw [InRound, hidle] at hth
        refine ⟨⟨place, inv_call hs hidle (h.quiet u hu hidle) _ timeout⟩, R, ?_⟩
        apply h.setThread hu
        · exact ⟨congrArg Nat.succ hth, rfl, hneg⟩
        · exact fun hidle => Phase.noConfusion hidle
        · exact h.returned
      · cases hstep
  | send u =>
      refine ⟨inv_step (a := .send u) ⟨place, hs⟩ trivial hstep, ?_⟩
      simp only [step] at hstep
      split at hstep
      · rename_i op timeout hphase
        obtain rfl := Option.some.inj hstep
        exact rounds_send hs h hphase rfl
      · cases hstep
  | ret u =>
      refine ⟨inv_step (a := .ret u) ⟨place, hs⟩ trivial hstep, R, ?_⟩
      simp only [step] at hstep
      split at hstep
      · rename_i timeout hphase
        split at hstep
        · rename_i hevent
          obtain rfl := Option.some.inj hstep
          have hne : (s.threads u).phase ≠ .idle := by
            rw [hphase]
            exact Phase.noConfusion
          have hu := h.mem_users hne
          obtain ⟨-, -, hle⟩ := (h.mem_granted _).mp (hs.event u hne hevent)
          have hle : (s.threads u).calls ≤ R := hle
          have hth := h.thread u hu
          rw [InRound, hphase] at hth
          apply h.setThread hu
          · show (s.threads u).calls = R
            rcases hth.2.1 with heq | heq
            · exact heq
            · omega
          · -- the wake of the call has arrived, and there was one only
            intro _ x hx heq
            obtain ⟨hthread, -, -, hfalse, -⟩ := hs.wakes _ x hx
            rw [hthread, heq] at hfalse
            exact absurd (hevent.symm.trans hfalse) Bool.noConfusion
          · intro x hx
            rcases List.mem_append.mp hx with hx | hx
            · exact h.returned x hx
            · rw [List.mem_singleton.mp hx]
        · cases hstep
      · cases hstep
  | timeout u =>
      -- no call has a timeout
      simp only [step] at hstep
      split at hstep
      · rename_i timeout hphase
        split at hstep
        · rename_i hpos
          have hu := h.mem_users (by rw [hphase]; exact Phase.noConfusion)
          have hth := h.thread u hu
          rw [InRound, hphase] at hth
          omega
        · cases hstep
      · cases hstep
  | post u op => exact hok.elim
  | deliver machine =>
      refine ⟨inv_step (a := .deliver machine) ⟨place, hs⟩ trivial hstep, ?_⟩
      simp only [step] at hstep
      split at hstep
      · cases hstep
      · rename_i r rest hrequests
        obtain ⟨c, rfl⟩ := h.requests machine r (by rw [hrequests]; exact List.mem_cons_self)
        obtain rfl := Option.some.inj hstep
        obtain ⟨rfl, hs'⟩ := inv_takeWait hs hrequests
        refine rounds_serve { h with requests := ?_ } hs'
        intro m r hr
        simp only [Function.update_apply] at hr
        split at hr
        · apply h.requests c.thread.machine
          rw [hrequests]
          exact List.mem_cons_of_mem _ hr
        · exact h.requests m r hr
  | wake machine =>
      refine ⟨inv_step (a := .wake machine) ⟨place, hs⟩ trivial hstep, R, ?_⟩
      simp only [step] at hstep
      split at hstep
      · cases hstep
      · rename_i threadId c rest hwakes
        obtain rfl := Option.some.inj hstep
        refine { h with quiet := ?_ }
        intro u hu hidle x hx
        simp only [State.rcSetRemoteEvent, Function.update_apply] at hx
        apply h.quiet u hu hidle
        split at hx
        · rename_i hm
          rw [hm, hwakes]
          exact List.mem_cons_of_mem _ hx
        · exact hx

theorem rounds_run {acts : List Act} (hok : Along (step dsm) b.Enters start acts)
    (hrun : run (step dsm) start acts = some s) :
    ∃ place R, Inv place [] s ∧ Rounds b R s := by
  apply invariant_run _ ⟨_, 0, inv_start, rounds_start b⟩ hok hrun
  rintro s a s' ⟨place, R, hs, h⟩ hok hstep
  obtain ⟨⟨place', hs'⟩, R', h'⟩ := rounds_step hs h hok hstep
  exact ⟨place', R', hs', h'⟩

/-- In every run a thread returns from a call only after every thread has arrived in that
round. The requests that the master has handled fall into rounds with one call of every
thread; the last one of each round wakes the calls of the round once, and nothing else wakes
a call. The counter of the node is the length of its wait list and smaller than the count. -/
theorem barrier_rounds (b : BarrierUsers dsm) (acts : List Act) {s : State}
    (hok : Along (step dsm) b.Enters start acts) (hrun : run (step dsm) start acts = some s) :
    (∀ u r result, (⟨u, r⟩, result) ∈ s.returned → ∀ v ∈ b.users, (⟨v, r⟩ : Call) ∈ s.arrived) ∧
    (∀ r < s.arrived.length / b.users.length,
      ((s.arrived.drop (b.users.length * r)).take b.users.length).Perm (b.round (r + 1))) ∧
    s.granted.Perm (s.arrived.take (b.users.length * (s.arrived.length / b.users.length))) ∧
    NoTrace s ∧
    ∀ node, s.manager.syncData b.id = some node →
      node.val = node.waiting.length ∧ node.val < b.users.length := by
  obtain ⟨place, R, hs, h⟩ := rounds_run hok hrun
  have hlen : s.arrived.length = b.users.length * R + (s.queued b.id).length := by
    have hdrop := congrArg List.length h.arrived
    have hle := h.length
    rw [List.length_drop] at hdrop
    omega
  have hR : s.arrived.length / b.users.length = R := by
    rw [hlen, Nat.mul_add_div b.pos, Nat.div_eq_of_lt h.open_, Nat.add_zero]
  rw [hR]
  refine ⟨?_, h.round, h.granted, ⟨hs.returned_true, hs.late, hs.stray⟩, ?_⟩
  · intro u r result hret v hv
    obtain rfl : result = true := h.returned _ hret
    obtain ⟨-, hpos, hle⟩ := (h.mem_granted _).mp (hs.returned_true _ hret)
    have hgranted : (⟨v, r⟩ : Call) ∈ s.granted := (h.mem_granted _).mpr ⟨hv, hpos, hle⟩
    exact List.mem_of_mem_take (h.granted.subset hgranted)
  · intro node hnode
    have hval := h.val
    have htags := congrArg List.length (hs.tags b.id)
    have hopen := h.open_
    rw [BarrierUsers.node, hnode, Option.getD_some] at hval
    rw [List.length_map, waitingOf, hnode, Option.map_some, Option.getD_some] at htags
    rw [hval, ← htags]
    exact ⟨rfl, by exact_mod_cast hopen⟩

theorem nodup_twoThreads : ([⟨0, 1⟩, ⟨1, 1⟩] : List SyncThreadNode).Nodup := by decide

/-- A barrier for two threads, one of them on the master. -/
def twoThreads : BarrierUsers (fun _ _ => 2) where
  id := 1
  users := [⟨0, 1⟩, ⟨1, 1⟩]
  nodup := nodup_twoThreads
  nonempty := by decide
  count := by decide

/-- Two rounds; in the second one the other thread arrives first. -/
def twoRounds : List Act :=
  [.call ⟨0, 1⟩ (.enterBarrier 1) (-1), .send ⟨0, 1⟩, .call ⟨1, 1⟩ (.enterBarrier 1) (-1), .send ⟨1, 1⟩,
    .deliver 1, .wake 1, .ret ⟨1, 1⟩, .call ⟨1, 1⟩ (.enterBarrier 1) (-1), .send ⟨1, 1⟩, .deliver 1,
    .ret ⟨0, 1⟩, .call ⟨0, 1⟩ (.enterBarrier 1) (-1), .send ⟨0, 1⟩, .ret ⟨0, 1⟩]

instance (b : BarrierUsers dsm) (s : State) : (a : Act) → Decidable (b.Enters s a)
  | .call u op timeout => inferInstanceAs (Decidable (u ∈ b.users ∧ op = .enterBarrier b.id ∧ timeout < 0))
  | .post _ _ => inferInstanceAs (Decidable False)
  | .send _ | .ret _ | .timeout _ | .deliver _ | .wake _ => inferInstanceAs (Decidable True)

theorem barrier_rounds_two_threads :
    ∃ s, run (step fun _ _ => 2) start twoRounds = some s ∧
      (⟨⟨0, 1⟩, 2⟩, true) ∈ s.returned ∧ s.arrived.length = 4 ∧
      ∀ u r result, (⟨u, r⟩, result) ∈ s.returned → ∀ v ∈ twoThreads.users,
        (⟨v, r⟩ : Call) ∈ s.arrived := by
  have hreturned : (run (step fun _ _ => 2) start twoRounds).map
      (fun s => (decide ((⟨⟨0, 1⟩, 2⟩, true) ∈ s.returned), s.arrived.length)) = some (true, 4) := by
    decide +kernel
  obtain ⟨s, hs, heq⟩ := Option.map_eq_some_iff.mp hreturned
  have hok : Along (step fun _ _ => 2) twoThreads.Enters start twoRounds := by
    apply along_of_check
    decide +kernel
  obtain ⟨hmem, hlen⟩ := Prod.mk.inj heq
  exact ⟨s, hs, of_decide_eq_true hmem, hlen, (barrier_rounds twoThreads twoRounds hok hs).1⟩

end Dogee.SyncSystem
