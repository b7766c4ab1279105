import Dogee.BarrierRounds
import Dogee.SyncWaits
import Dogee.ThreadCounts

/-!
# The calls of a barrier return

As long as no thread enters the barrier again, the threads, the master and the
nodes take a bounded number of steps. Where none is left, a thread that has not
returned waits for one that has entered the barrier fewer times.
-/

namespace Dogee.SyncSystem

open SyncManager Transition ThreadCounts

variable {dsm : Dsm} {b : BarrierUsers dsm} {s s' : State} {place : SyncThreadNode → Place} {c : Call} {R : Nat}

/-- The steps while no thread begins a call. -/
def goOn (dsm : Dsm) (s : State) : Act → Option State
  | .call _ _ _ => none
  | .post _ _ => none
  | a => step dsm s a

theorem step_of_goOn {a : Act} (h : goOn dsm s a = some s') : b.Enters s a ∧ step dsm s a = some s' := by
  cases a with
  | call u op timeout => cases h
  | post u op => cases h
  | send u => exact ⟨trivial, h⟩
  | ret u => exact ⟨trivial, h⟩
  | timeout u => exact ⟨trivial, h⟩
  | deliver machine => exact ⟨trivial, h⟩
  | wake machine => exact ⟨trivial, h⟩

/-! ## Two halves of a step -/

/-- A thread has sent its request, before the request is anywhere. -/
theorem Rounds.entered (h : Rounds b R s) {u : SyncThreadNode} {op : WaitOp} {timeout : Int}
    (hphase : (s.threads u).phase = .entering op timeout) : u ∈ b.users ∧ op = .enterBarrier b.id ∧
      Rounds b R (s.setThread u ⟨(s.threads u).calls, .waiting timeout⟩) := by
  have hu := h.mem_users (by rw [hphase]; exact Phase.noConfusion)
  have hth := h.thread u hu
  rw [InRound, hphase] at hth
  obtain ⟨hcalls, rfl, hneg⟩ := hth
  refine ⟨hu, rfl, h.setThread hu ?_ (fun hidle => Phase.noConfusion hidle) s.event h.returned⟩
  show 0 < (s.threads u).calls ∧ _ ∧ timeout < 0
  rw [hcalls]
  exact ⟨Nat.succ_pos R, Or.inr rfl, hneg⟩

/-- The master has taken a request off a connection. -/
theorem Rounds.taken (h : Rounds b R s) {machine : Nat} {r : Request} {rest : List Request}
    (hrequests : s.requests machine = r :: rest) :
    Rounds b R { s with requests := Function.update s.requests machine rest } := by
  refine { h with requests := ?_ }
  intro m r' hr
  simp only [Function.update_apply] at hr
  split at hr
  · apply h.requests machine
    rw [hrequests]
    exact List.mem_cons_of_mem _ hr
  · exact h.requests m r' hr

/-! ## What is left to do -/

/-- The machines of the threads. -/
def BarrierUsers.machines (b : BarrierUsers dsm) : Finset Nat := (b.users.map SyncThreadNode.machine).toFinset

theorem BarrierUsers.mem_machines (b : BarrierUsers dsm) {u : SyncThreadNode} (hu : u ∈ b.users) :
    u.machine ∈ b.machines := List.mem_toFinset.mpr (List.mem_map_of_mem hu)

/-- The steps of a thread and of its request. -/
def Thread.left (th : Thread) : Nat :=
  match th.phase with
  | .idle => 0
  | .entering _ _ => 4
  | .waiting _ => 1

/-- The requests on their way; each may make the master wake its thread. -/
def requestsLeft (b : BarrierUsers dsm) (s : State) : Nat := ∑ m ∈ b.machines, 2 * (s.requests m).length

/-- The wakes on their way. -/
def wakesLeft (b : BarrierUsers dsm) (s : State) : Nat := ∑ m ∈ b.machines, (s.wakes m).length

/-- A bound on the steps that are left. -/
def stepsLeft (b : BarrierUsers dsm) (s : State) : Nat :=
  (b.users.map fun u => (s.threads u).left).sum + requestsLeft b s + wakesLeft b s + (s.queued b.id).length

/-- A sum over the machines when one of them changes. -/
theorem sum_machines_update {β : Type*} (b : BarrierUsers dsm) {m : Nat} (hm : m ∈ b.machines) (f : β → Nat)
    (place : Nat → β) (x : β) : ∑ i ∈ b.machines, f (Function.update place m x i) + f (place m) =
      ∑ i ∈ b.machines, f (place i) + f x := by
  have hrest : ∑ i ∈ b.machines.erase m, f (Function.update place m x i) = ∑ i ∈ b.machines.erase m, f (place i) := by
    apply Finset.sum_congr rfl
    intro i hi
    rw [Function.update_of_ne (Finset.ne_of_mem_erase hi)]
  rw [← Finset.add_sum_erase _ _ hm, ← Finset.add_sum_erase _ (fun i => f (place i)) hm, hrest,
    Function.update_self]
  omega

/-- Waking a call leaves at most one wake more. -/
theorem wakesLeft_rcWakeRemoteThread (b : BarrierUsers dsm) (s : State) (c : Call) :
    wakesLeft b (s.rcWakeRemoteThread c.thread c) ≤ wakesLeft b s + 1 := by
  rw [State.rcWakeRemoteThread]
  split
  · exact Nat.le_succ _
  · unfold wakesLeft
    by_cases hm : c.thread.machine ∈ b.machines
    · have hset := sum_machines_update b hm List.length s.wakes
        (s.wakes c.thread.machine ++ [(c.thread.threadId, c)])
      rw [List.length_append, List.length_singleton] at hset
      show ∑ m ∈ b.machines, (Function.update s.wakes c.thread.machine
        (s.wakes c.thread.machine ++ [(c.thread.threadId, c)]) m).length ≤ _
      omega
    · apply Nat.le_succ_of_le
      apply Nat.le_of_eq
      apply Finset.sum_congr rfl
      intro m hm'
      show (Function.update s.wakes c.thread.machine _ m).length = _
      rw [Function.update_of_ne]
      rintro rfl
      exact hm hm'

theorem wakesLeft_wakeAll (b : BarrierUsers dsm) (s : State) (calls : List Call) :
    wakesLeft b (calls.foldl (fun s c => s.rcWakeRemoteThread c.thread c) s) ≤ wakesLeft b s + calls.length := by
  induction calls generalizing s with
  | nil => exact Nat.le_refl _
  | cons c rest ih =>
      calc wakesLeft b (rest.foldl (fun s c => s.rcWakeRemoteThread c.thread c) (s.rcWakeRemoteThread c.thread c))
          ≤ wakesLeft b (s.rcWakeRemoteThread c.thread c) + rest.length := ih _
        _ ≤ wakesLeft b s + 1 + rest.length := Nat.add_le_add_right (wakesLeft_rcWakeRemoteThread b s c) _
        _ = wakesLeft b s + (c :: rest).length := by rw [List.length_cons]; omega

/-- The master queues the call, or it wakes it with all the others. -/
theorem stepsLeft_serveWait (h : Rounds b R s) (hs : Inv place [c] s) :
    stepsLeft b (serveWait dsm s c.thread.machine (.enterBarrier b.id) c) ≤ stepsLeft b s + 1 := by
  by_cases hlt : (s.queued b.id).length + 1 < b.users.length
  · rw [serveWait_queue h c hlt]
    simp only [stepsLeft, requestsLeft, wakesLeft, Function.update_self, List.length_append, List.length_singleton]
    omega
  · rw [serveWait_complete h hs (Nat.le_of_not_lt hlt)]
    obtain ⟨s₁, hs₁⟩ : ∃ s₁ : State, s₁ = { s with
      manager := s.manager.put b.id { b.node s.manager with
        val := 0
        waiting := [] }
      arrived := s.arrived ++ [c]
      queued := Function.update s.queued b.id [] } := ⟨_, rfl⟩
    rw [← hs₁]
    obtain ⟨hthreads, -, hrequests, hqueued, -⟩ := wakeAll_same (c :: s.queued b.id) s₁
    have hwakes := wakesLeft_wakeAll b s₁ (c :: s.queued b.id)
    have hsame : wakesLeft b s₁ = wakesLeft b s := by
      rw [hs₁]
      rfl
    have hnil : s₁.queued b.id = [] := by
      rw [hs₁]
      exact Function.update_self ..
    have hthreads' : s₁.threads = s.threads := by
      rw [hs₁]
    have hrequests' : s₁.requests = s.requests := by
      rw [hs₁]
    rw [hsame, List.length_cons] at hwakes
    simp only [stepsLeft, requestsLeft, hthreads, hrequests, hqueued, hnil, hthreads', hrequests', List.length_nil]
    omega

/-- A thread moves on. -/
theorem left_setThread {u : SyncThreadNode} (hu : u ∈ b.users) (th : Thread) :
    (b.users.map fun v => ((s.setThread u th).threads v).left).sum + (s.threads u).left =
      (b.users.map fun v => (s.threads v).left).sum + th.left :=
  sum_map_update b.nodup hu (fun _ th => th.left) s.threads th

theorem stepsLeft_goOn (hs : Inv place [] s) (h : Rounds b R s) {a : Act} (hgo : goOn dsm s a = some s') :
    stepsLeft b s' < stepsLeft b s := by
  cases a with
  | call u op timeout => cases hgo
  | post u op => cases hgo
  | send u =>
      simp only [goOn, step] at hgo
      split at hgo
      · rename_i op timeout hphase
        obtain rfl := Option.some.inj hgo
        obtain ⟨hu, rfl, h₁⟩ := h.entered hphase
        obtain ⟨s₁, hs₁⟩ : ∃ s₁, s₁ = s.setThread u ⟨(s.threads u).calls, .waiting timeout⟩ := ⟨_, rfl⟩
        have hold : (s.threads u).left = 4 := by
          rw [Thread.left, hphase]
        have hset := left_setThread (s := s) hu ⟨(s.threads u).calls, .waiting timeout⟩
        rw [← hs₁, hold] at hset
        change _ + 4 = _ + 1 at hset
        have hthread : stepsLeft b s₁ + 3 = stepsLeft b s := by
          have hrequests : requestsLeft b s₁ = requestsLeft b s := by
            rw [hs₁]
            rfl
          have hwakes : wakesLeft b s₁ = wakesLeft b s := by
            rw [hs₁]
            rfl
          have hqueued : s₁.queued = s.queued := by
            rw [hs₁]
            rfl
          unfold stepsLeft
          rw [hrequests, hwakes, hqueued]
          omega
        rw [← hs₁] at h₁
        simp only [← hs₁]
        split
        · rename_i hmaster
          have hle := stepsLeft_serveWait h₁ (inv_hold hs hphase hs₁)
          rw [show (s₁.current u).thread.machine = 0 from hmaster] at hle
          omega
        · have hsend := sum_machines_update b (b.mem_machines hu) (fun rs : List Request => 2 * rs.length) s₁.requests
            (s₁.requests u.machine ++ [.wait (.enterBarrier b.id) (s₁.current u)])
          rw [List.length_append, List.length_singleton] at hsend
          simp only [stepsLeft, requestsLeft, send, wakesLeft] at hthread ⊢
          omega
      · cases hgo
  | ret u =>
      simp only [goOn, step] at hgo
      split at hgo
      · rename_i timeout hphase
        split at hgo
        · obtain rfl := Option.some.inj hgo
          have hu := h.mem_users (by rw [hphase]; exact Phase.noConfusion)
          have hold : (s.threads u).left = 1 := by
            rw [Thread.left, hphase]
          have hset := left_setThread (s := s) hu ⟨(s.threads u).calls, .idle⟩
          rw [hold] at hset
          change _ + 1 = _ + 0 at hset
          simp only [stepsLeft, finish, requestsLeft, wakesLeft, State.setThread] at hset ⊢
          omega
        · cases hgo
      · cases hgo
  | timeout u =>
      -- no call has a timeout
      simp only [goOn, step] at hgo
      split at hgo
      · rename_i timeout hphase
        split at hgo
        · have hth := h.thread u (h.mem_users (by rw [hphase]; exact Phase.noConfusion))
          rw [InRound, hphase] at hth
          omega
        · cases hgo
      · cases hgo
  | deliver machine =>
      simp only [goOn, step] at hgo
      split at hgo
      · cases hgo
      · rename_i r rest hrequests
        obtain ⟨c, rfl⟩ := h.requests machine r (by rw [hrequests]; exact List.mem_cons_self)
        obtain rfl := Option.some.inj hgo
        obtain ⟨rfl, hs'⟩ := inv_takeWait hs hrequests
        have hmem : c ∈ callsOf (s.requests c.thread.machine) := by
          rw [hrequests]
          exact List.mem_cons_self
        have hu := (h.number_of_pending (hs.sent _ c hmem).2.1).1
        have h₁ := h.taken hrequests
        have htake := sum_machines_update b (b.mem_machines hu) (fun rs : List Request => 2 * rs.length) s.requests rest
        rw [hrequests, List.length_cons] at htake
        have hle := stepsLeft_serveWait h₁ hs'
        refine Nat.lt_of_le_of_lt hle ?_
        simp only [stepsLeft, requestsLeft, wakesLeft]
        omega
  | wake machine =>
      simp only [goOn, step] at hgo
      split at hgo
      · cases hgo
      · rename_i threadId c rest hwakes
        obtain rfl := Option.some.inj hgo
        obtain ⟨hthread, -, hgranted, -⟩ := hs.wakes machine (threadId, c) (by rw [hwakes]; exact List.mem_cons_self)
        have hu := ((h.mem_granted c).mp hgranted).1
        have hmachine : machine ∈ b.machines := by
          have hmem := b.mem_machines hu
          rwa [hthread] at hmem
        have htake := sum_machines_update b hmachine List.length s.wakes rest
        rw [hwakes, List.length_cons] at htake
        simp only [stepsLeft, requestsLeft, wakesLeft, State.rcSetRemoteEvent]
        omega

/-! ## Where nothing goes on -/

/-- Only the barrier has a wait list. -/
def OnlyBarrier (b : BarrierUsers dsm) (s : State) : Prop := ∀ id, id ≠ b.id → s.queued id = []

theorem onlyBarrier_serveWait (h : Rounds b R s) (hs : Inv place [c] s) (honly : OnlyBarrier b s) :
    OnlyBarrier b (serveWait dsm s c.thread.machine (.enterBarrier b.id) c) := by
  intro id hid
  by_cases hlt : (s.queued b.id).length + 1 < b.users.length
  · rw [serveWait_queue h c hlt]
    show Function.update s.queued b.id _ id = []
    rw [Function.update_of_ne hid]
    exact honly id hid
  · rw [serveWait_complete h hs (Nat.le_of_not_lt hlt), (wakeAll_same _ _).2.2.2.1]
    show Function.update s.queued b.id _ id = []
    rw [Function.update_of_ne hid]
    exact honly id hid

theorem onlyBarrier_step (hs : Inv place [] s) (h : Rounds b R s) (honly : OnlyBarrier b s) {a : Act}
    (hok : b.Enters s a) (hstep : step dsm s a = some s') : OnlyBarrier b s' := by
  cases a with
  | call u op timeout =>
      simp only [step] at hstep
      split at hstep
      · obtain rfl := Option.some.inj hstep
        exact honly
      · cases hstep
  | send u =>
      simp only [step] at hstep
      split at hstep
      · rename_i op timeout hphase
        obtain rfl := Option.some.inj hstep
        obtain ⟨hu, rfl, h₁⟩ := h.entered hphase
        obtain ⟨s₁, hs₁⟩ : ∃ s₁, s₁ = s.setThread u ⟨(s.threads u).calls, .waiting timeout⟩ := ⟨_, rfl⟩
        rw [← hs₁] at h₁
        have honly₁ : OnlyBarrier b s₁ := by
          rw [hs₁]
          exact honly
        simp only [← hs₁]
        split
        · rename_i hmaster
          have hserve := onlyBarrier_serveWait h₁ (inv_hold hs hphase hs₁) honly₁
          rwa [show (s₁.current u).thread.machine = 0 from hmaster] at hserve
        · exact honly₁
      · cases hstep
  | ret u =>
      simp only [step] at hstep
      split at hstep
      · split at hstep
        · obtain rfl := Option.some.inj hstep
          exact honly
        · cases hstep
      · cases hstep
  | timeout u =>
      simp only [step] at hstep
      split at hstep
      · split at hstep
        · obtain rfl := Option.some.inj hstep
          exact honly
        · cases hstep
      · cases hstep
  | post u op => exact hok.elim
  | deliver machine =>
      simp only [step] at hstep
      split at hstep
      · cases hstep
      · rename_i r rest hrequests
        obtain ⟨c, rfl⟩ := h.requests machine r (by rw [hrequests]; exact List.mem_cons_self)
        obtain rfl := Option.some.inj hstep
        obtain ⟨rfl, hs'⟩ := inv_takeWait hs hrequests
        exact onlyBarrier_serveWait (h.taken hrequests) hs' honly
  | wake machine =>
      simp only [step] at hstep
      split at hstep
      · cases hstep
      · obtain rfl := Option.some.inj hstep
        exact honly

/-- What holds in every state that the threads reach. -/
structure Joined (b : BarrierUsers dsm) (s : State) : Prop where
  rounds : ∃ place R, Inv place [] s ∧ Rounds b R s
  accounted : Accounted [] s
  only : OnlyBarrier b s

theorem joined_start (b : BarrierUsers dsm) : Joined b start :=
  ⟨⟨_, 0, inv_start, rounds_start b⟩, fun _ _ hphase => (nomatch hphase), fun _ _ => rfl⟩

theorem joined_step (h : Joined b s) {a : Act} (hok : b.Enters s a) (hstep : step dsm s a = some s') :
    Joined b s' := by
  obtain ⟨place, R, hs, hrounds⟩ := h.rounds
  obtain ⟨⟨place', hs'⟩, R', hrounds'⟩ := rounds_step hs hrounds hok hstep
  exact ⟨⟨place', R', hs', hrounds'⟩, accounted_step hs h.accounted hstep,
    onlyBarrier_step hs hrounds h.only hok hstep⟩

theorem still_of_stuck (h : Rounds b R s) (hstuck : ∀ a, goOn dsm s a = none) : Still s := by
  constructor
  · intro m
    have hnone : step dsm s (.deliver m) = none := hstuck (.deliver m)
    simp only [step] at hnone
    split at hnone
    · assumption
    · rename_i r rest hrequests
      obtain ⟨c, rfl⟩ := h.requests m r (by rw [hrequests]; exact List.mem_cons_self)
      cases hnone
  · intro m
    have hnone : step dsm s (.wake m) = none := hstuck (.wake m)
    simp only [step] at hnone
    split at hnone
    · assumption
    · cases hnone
  · intro u timeout hphase
    have hnone : step dsm s (.ret u) = none := hstuck (.ret u)
    simp only [step, hphase] at hnone
    split at hnone
    · cases hnone
    · rename_i hevent
      exact eq_false_of_ne_true hevent

/-- A thread that does not go on is outside, or waits in the round that is open. -/
theorem thread_of_stuck (hs : Inv place [] s) (h : Rounds b R s) (hjoined : Joined b s)
    (hstuck : ∀ a, goOn dsm s a = none) {u : SyncThreadNode} (hactive : (s.threads u).phase ≠ .idle) :
    (⟨u, R + 1⟩ : Call) ∈ s.queued b.id ∧ (s.threads u).calls = R + 1 := by
  cases hphase : (s.threads u).phase with
  | idle => exact absurd hphase hactive
  | entering op timeout =>
      have hnone : step dsm s (.send u) = none := hstuck (.send u)
      simp only [step, hphase] at hnone
      cases hnone
  | waiting timeout =>
      obtain ⟨id, hmem⟩ := (still_of_stuck h hstuck).queued_of_waiting hjoined.accounted hphase
      have hid : id = b.id := by
        by_contra hne
        rw [hjoined.only id hne] at hmem
        cases hmem
      subst hid
      have hnumber := (h.number_of_pending (hs.queued _ _ hmem).1).2
      have hcalls : (s.threads u).calls = R + 1 := hnumber
      refine ⟨?_, hcalls⟩
      rw [State.current, hcalls] at hmem
      exact hmem

/-- Who waits, waits for a thread that has not entered the round. -/
theorem waits_for_thread (hs : Inv place [] s) (h : Rounds b R s) (hjoined : Joined b s)
    (hstuck : ∀ a, goOn dsm s a = none) {u : SyncThreadNode}
    (hactive : (s.threads u).phase ≠ .idle) :
    ∃ v ∈ b.users, (s.threads v).phase = .idle ∧ (s.threads v).calls < (s.threads u).calls := by
  by_contra hnone
  push Not at hnone
  have hcalls := (thread_of_stuck hs h hjoined hstuck hactive).2
  have hall : b.round (R + 1) ⊆ s.queued b.id := by
    intro c hc
    obtain ⟨v, hv, rfl⟩ := List.mem_map.mp hc
    by_cases hidle : (s.threads v).phase = .idle
    · have hle := hnone v hv hidle
      have hth := h.thread v hv
      rw [InRound, hidle] at hth
      change (s.threads v).calls = R at hth
      omega
    · exact (thread_of_stuck hs h hjoined hstuck hidle).1
  have hnodup : (b.round (R + 1)).Nodup := b.nodup.map fun v v' heq => congrArg Call.thread heq
  have hle := (hnodup.subperm hall).length_le
  rw [BarrierUsers.round, List.length_map] at hle
  exact Nat.not_lt_of_le hle h.open_

/-- The calls of a barrier return. As long as no thread enters the barrier, at most
`stepsLeft` steps are left, whatever order they are taken in; where none is left, a
thread that has not returned waits for one that is outside and has entered the barrier
fewer times. So when all threads have entered it equally often, all have returned. -/
theorem barrier_calls_return (b : BarrierUsers dsm) {acts : List Act} {s : State}
    (hok : Along (step dsm) b.Enters start acts) (hrun : run (step dsm) start acts = some s) :
    (∃ bs s', run (goOn dsm) s bs = some s' ∧ ∀ a, goOn dsm s' a = none) ∧
    ∀ bs s', run (goOn dsm) s bs = some s' → bs.length ≤ stepsLeft b s ∧
      ((∀ a, goOn dsm s' a = none) → ∀ u ∈ b.users, (s'.threads u).phase ≠ .idle →
        ∃ v ∈ b.users, (s'.threads v).phase = .idle ∧ (s'.threads v).calls < (s'.threads u).calls) := by
  have hjoined : Joined b s :=
    invariant_run (fun _ _ _ h hok hstep => joined_step h hok hstep) (joined_start b) hok hrun
  have hlower : ∀ (s : State) a s', Joined b s → goOn dsm s a = some s' →
      Joined b s' ∧ stepsLeft b s' < stepsLeft b s := by
    intro s a s' h hgo
    obtain ⟨hok, hstep⟩ := step_of_goOn (b := b) hgo
    obtain ⟨place, R, hs, hrounds⟩ := h.rounds
    exact ⟨joined_step h hok hstep, stepsLeft_goOn hs hrounds hgo⟩
  have hbound : ∀ bs s', run (goOn dsm) s bs = some s' → bs.length ≤ stepsLeft b s :=
    fun bs s' hrun' => Nat.le_of_add_right_le (length_le_of_measure hlower hjoined hrun')
  refine ⟨exists_stuck_run hbound, fun bs s' hrun' => ⟨hbound bs s' hrun', ?_⟩⟩
  have hjoined' : Joined b s' := invariant_reachable (fun _ _ _ h hgo => (hlower _ _ _ h hgo).1) hjoined hrun'
  obtain ⟨place, R, hs, hrounds⟩ := hjoined'.rounds
  exact fun hstuck u _ hactive => waits_for_thread hs hrounds hjoined' hstuck hactive

/-- Both threads are in their second call when the wake of the first one is still on its way. -/
def secondRound : List Act :=
  [.call ⟨0, 1⟩ (.enterBarrier 1) (-1), .send ⟨0, 1⟩, .call ⟨1, 1⟩ (.enterBarrier 1) (-1), .send ⟨1, 1⟩,
    .deliver 1, .ret ⟨0, 1⟩, .call ⟨0, 1⟩ (.enterBarrier 1) (-1)]

theorem secondRound_returns : ∃ s, run (step fun _ _ => 2) start secondRound = some s ∧
    ∃ bs s', run (goOn fun _ _ => 2) s bs = some s' ∧ ∀ a, goOn (fun _ _ => 2) s' a = none := by
  have hsome : (run (step fun _ _ => 2) start secondRound).isSome = true := by
    decide +kernel
  obtain ⟨s, hs⟩ := Option.isSome_iff_exists.mp hsome
  have hok : Along (step fun _ _ => 2) twoThreads.Enters start secondRound := by
    apply along_of_check
    decide +kernel
  exact ⟨s, hs, (barrier_calls_return twoThreads hok hs).1⟩

end Dogee.SyncSystem
