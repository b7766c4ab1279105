import Dogee.SyncSystem
import Mathlib.Data.List.Nodup

/-!
# Calls and their grants

A thread is in one call at a time, and while none of its calls has timed out too early
the request of that call, its entry in a wait list and its wake are the only traces of
the thread in the system, one at a time. The invariant below follows each call through
these places. It holds in every run in which a call times out only after the master has
granted it, and a thread begins a call only when no wake for it is under way.
-/

namespace Dogee.SyncSystem

open SyncManager Transition

/-! ## What the handlers do to a wait list -/

/-- The wait list of an object. -/
def waitingOf (m : Manager) (id : ObjectKey) : List SyncThreadNode :=
  ((m.syncData id).map SyncNode.waiting).getD []

theorem waitingOf_put_self (m : Manager) (id : ObjectKey) (node : SyncNode) :
    waitingOf (m.put id node) id = node.waiting := by
  simp [waitingOf]

theorem waitingOf_put_of_ne (m : Manager) {id id' : ObjectKey} (node : SyncNode) (h : id' ≠ id) :
    waitingOf (m.put id node) id' = waitingOf m id' := by
  simp [waitingOf, Manager.put, h]

/-- A node made for an object that has none has an empty wait list. -/
theorem waiting_getD (m : Manager) (id : ObjectKey) {node : SyncNode} (h : node.waiting = []) :
    ((m.syncData id).getD node).waiting = waitingOf m id := by
  cases hm : m.syncData id with
  | none => simp [waitingOf, hm, h]
  | some node' => simp [waitingOf, hm]

/-- A handler has put its caller at the end of the wait list and woken nobody, or has
woken its caller and the first threads of the wait list. -/
def Waits (m m' : Manager) (id : ObjectKey) (u : SyncThreadNode) (woken : List SyncThreadNode) : Prop :=
  (∀ id', id' ≠ id → waitingOf m' id' = waitingOf m id') ∧
  ((woken = [] ∧ waitingOf m' id = waitingOf m id ++ [u]) ∨
    ∃ n ≤ (waitingOf m id).length, woken = u :: (waitingOf m id).take n ∧
      waitingOf m' id = (waitingOf m id).drop n)

theorem waits_of_put {m : Manager} {id : ObjectKey} {u : SyncThreadNode} {node : SyncNode}
    {woken : List SyncThreadNode}
    (h : (woken = [] ∧ node.waiting = waitingOf m id ++ [u]) ∨
      ∃ n ≤ (waitingOf m id).length, woken = u :: (waitingOf m id).take n ∧
        node.waiting = (waitingOf m id).drop n) :
    Waits m (m.put id node) id u woken := by
  refine ⟨fun id' hne => waitingOf_put_of_ne m node hne, ?_⟩
  rw [waitingOf_put_self]
  exact h

theorem waitMsg_waits (dsm : Dsm) (m : Manager) (src threadId : Nat) (op : WaitOp) :
    Waits m (waitMsg dsm m src threadId op).1 op.object ⟨src, threadId⟩
      (waitMsg dsm m src threadId op).2 := by
  cases op with
  | enterBarrier id =>
      simp only [waitMsg, barrierMsg, WaitOp.object]
      split
      · apply waits_of_put
        exact Or.inr ⟨(waitingOf m id).length, Nat.le_refl _, by
          rw [List.take_length, waiting_getD m id rfl], by rw [List.drop_length]⟩
      · apply waits_of_put
        exact Or.inl ⟨rfl, by rw [waiting_getD m id rfl]⟩
  | enterSemaphore id =>
      simp only [waitMsg, semaphoreMsg, WaitOp.object]
      split
      · apply waits_of_put
        exact Or.inr ⟨0, Nat.zero_le _, rfl, waiting_getD m id rfl⟩
      · apply waits_of_put
        exact Or.inl ⟨rfl, by rw [waiting_getD m id rfl]⟩
  | waitForEvent id =>
      have hwaiting : (createEventNode dsm m id).waiting = waitingOf m id := waiting_getD m id rfl
      simp only [waitMsg, eventWaitMsg, WaitOp.object]
      split
      · apply waits_of_put
        refine Or.inr ⟨0, Nat.zero_le _, rfl, ?_⟩
        split <;> exact hwaiting
      · apply waits_of_put
        exact Or.inl ⟨rfl, by rw [hwaiting]⟩

/-- A handler has woken the first threads of the wait list. -/
def Posts (m m' : Manager) (id : ObjectKey) (woken : List SyncThreadNode) : Prop :=
  (∀ id', id' ≠ id → waitingOf m' id' = waitingOf m id') ∧
  ∃ n ≤ (waitingOf m id).length, woken = (waitingOf m id).take n ∧
    waitingOf m' id = (waitingOf m id).drop n

theorem posts_of_put {m : Manager} {id : ObjectKey} {node : SyncNode} {woken : List SyncThreadNode}
    (n : Nat) (hn : n ≤ (waitingOf m id).length) (hwoken : woken = (waitingOf m id).take n)
    (hleft : node.waiting = (waitingOf m id).drop n) : Posts m (m.put id node) id woken := by
  refine ⟨fun id' hne => waitingOf_put_of_ne m node hne, n, hn, hwoken, ?_⟩
  rw [waitingOf_put_self]
  exact hleft

theorem postMsg_posts {dsm : Dsm} {m : Manager} {op : PostOp} {r : Manager × List SyncThreadNode}
    (h : postMsg dsm m op = some r) : Posts m r.1 op.object r.2 := by
  cases op with
  | leaveSemaphore id =>
      obtain ⟨node, hnode, rfl⟩ := Option.map_eq_some_iff.mp h
      have hwaiting : waitingOf m id = node.waiting := by simp [waitingOf, hnode]
      simp only [PostOp.object]
      split
      · cases hw : node.waiting with
        | nil =>
            rw [hw] at hwaiting
            exact posts_of_put 0 (Nat.zero_le _) (by rw [List.take_zero]) (by simp [hwaiting])
        | cons th rest =>
            rw [hw] at hwaiting
            exact posts_of_put 1 (by simp [hwaiting]) (by simp [hwaiting]) (by simp [hwaiting])
      · exact posts_of_put 0 (Nat.zero_le _) (by rw [List.take_zero]) hwaiting.symm
  | setEvent id =>
      have hwaiting : (createEventNode dsm m id).waiting = waitingOf m id := waiting_getD m id rfl
      obtain rfl := Option.some.inj h
      simp only [setEventMsg, PostOp.object]
      split
      · cases hw : (createEventNode dsm m id).waiting with
        | nil =>
            rw [hw] at hwaiting
            exact posts_of_put 0 (Nat.zero_le _) (by rw [List.take_zero]) (by simp [← hwaiting])
        | cons th rest =>
            rw [hw] at hwaiting
            exact posts_of_put 1 (by simp [← hwaiting]) (by simp [← hwaiting]) (by simp [← hwaiting])
      · exact posts_of_put (waitingOf m id).length (Nat.le_refl _)
          (by rw [List.take_length]; exact hwaiting) (by rw [List.drop_length])
  | resetEvent id =>
      have hwaiting : (createEventNode dsm m id).waiting = waitingOf m id := waiting_getD m id rfl
      obtain rfl := Option.some.inj h
      exact posts_of_put 0 (Nat.zero_le _) (by rw [List.take_zero]; rfl) hwaiting

/-! ## The invariant -/

/-- The master has not granted the call yet, and its thread waits in it. -/
structure Pending (s : State) (c : Call) : Prop where
  waiting : ∃ timeout, (s.threads c.thread).phase = .waiting timeout
  current : s.current c.thread = c
  open_ : c ∉ s.granted

/-- Where the pending call of a thread is. -/
inductive Place
  | out
  | sent
  | queued (id : ObjectKey)
  | hand

/-- The calls whose requests are in a list of messages. -/
def callsOf (rs : List Request) : List Call :=
  rs.filterMap fun
    | .wait _ c => some c
    | .post _ => none

/-- Every trace of a call belongs to a thread that is in it; `held` are the calls that the
master is about to wake. -/
structure Inv (place : SyncThreadNode → Place) (held : List Call) (s : State) : Prop where
  sent : ∀ m, ∀ c ∈ callsOf (s.requests m), c.thread.machine = m ∧ Pending s c ∧ place c.thread = .sent
  queued : ∀ id, ∀ c ∈ s.queued id, Pending s c ∧ place c.thread = .queued id
  hand : ∀ c ∈ held, Pending s c ∧ place c.thread = .hand
  nodup_sent : ∀ m, (callsOf (s.requests m)).Nodup
  nodup_queued : ∀ id, (s.queued id).Nodup
  nodup_hand : held.Nodup
  tags : ∀ id, (s.queued id).map Call.thread = waitingOf s.manager id
  wakes : ∀ m, ∀ x ∈ s.wakes m, x.2.thread = ⟨m, x.1⟩ ∧ s.current x.2.thread = x.2 ∧ x.2 ∈ s.granted ∧
    s.event x.2.thread = false ∧ ∀ op timeout, (s.threads x.2.thread).phase ≠ .entering op timeout
  nodup_wakes : ∀ m, (s.wakes m).Nodup
  event : ∀ u, (s.threads u).phase ≠ .idle → s.event u = true → s.current u ∈ s.granted
  entering : ∀ u op timeout, (s.threads u).phase = .entering op timeout → s.current u ∉ s.granted
  granted : ∀ c ∈ s.granted, c.number ≤ (s.threads c.thread).calls
  returned : ∀ x ∈ s.returned, x.1.number < (s.threads x.1.thread).calls ∨
    x.1 = s.current x.1.thread ∧ (s.threads x.1.thread).phase = .idle
  returned_true : ∀ c, (c, true) ∈ s.returned → c ∈ s.granted
  late : s.late = []
  stray : s.stray = []

theorem inv_start : Inv (fun _ => .out) [] start := by
  constructor
  · exact fun _ _ h => by cases h
  · exact fun _ _ h => by cases h
  · exact fun _ h => by cases h
  · exact fun _ => List.nodup_nil
  · exact fun _ => List.nodup_nil
  · exact List.nodup_nil
  · exact fun _ => rfl
  · exact fun _ _ h => by cases h
  · exact fun _ => List.nodup_nil
  · exact fun _ h => absurd rfl h
  · exact fun _ _ _ h => by cases h
  · exact fun _ h => by cases h
  · exact fun _ h => by cases h
  · exact fun _ h => by cases h
  · rfl
  · rfl

variable {place : SyncThreadNode → Place} {held : List Call} {s : State} {u : SyncThreadNode} {c : Call}

theorem Pending.not_returned (h : Pending s c) (hs : Inv place held s) (b : Bool) :
    (c, b) ∉ s.returned := by
  intro hmem
  obtain ⟨timeout, hphase⟩ := h.waiting
  have hnumber : c.number = (s.threads c.thread).calls := (congrArg Call.number h.current).symm
  rcases hs.returned _ hmem with hlt | ⟨-, hidle⟩
  · exact absurd hnumber (Nat.ne_of_lt hlt)
  · exact absurd (hphase.symm.trans hidle) Phase.noConfusion

theorem Pending.event_false (h : Pending s c) (hs : Inv place held s) : s.event c.thread = false := by
  obtain ⟨timeout, hphase⟩ := h.waiting
  apply Bool.eq_false_iff.mpr
  intro htrue
  apply h.open_
  rw [← h.current]
  exact hs.event c.thread (by rw [hphase]; exact Phase.noConfusion) htrue

/-- Granting one call does not touch another that is pending. -/
theorem Pending.of_granted {s' : State} {c' : Call} (h : Pending s c') (hne : c' ≠ c)
    (hthreads : s'.threads = s.threads) (hgranted : s'.granted = s.granted ++ [c]) : Pending s' c' := by
  refine ⟨by rw [hthreads]; exact h.waiting, ?_, ?_⟩
  · rw [State.current, hthreads]
    exact h.current
  · rw [hgranted, List.mem_append, not_or, List.mem_singleton]
    exact ⟨h.open_, hne⟩

/-- What waking the call `c` changes: its event is set, or its wake is on the way to its machine. -/
structure Woken (c : Call) (s s' : State) : Prop where
  threads : s'.threads = s.threads
  granted : s'.granted = s.granted ++ [c]
  requests : s'.requests = s.requests
  queued : s'.queued = s.queued
  manager : s'.manager = s.manager
  returned : s'.returned = s.returned
  late : s'.late = s.late
  stray : s'.stray = s.stray
  wakes : ∀ m, ∀ x ∈ s'.wakes m, x ∈ s.wakes m ∧ s'.event x.2.thread = s.event x.2.thread ∨
    x = (c.thread.threadId, c) ∧ m = c.thread.machine ∧ s'.event c.thread = false
  nodup_wakes : ∀ m, (s'.wakes m).Nodup
  event : ∀ v, v ≠ c.thread → s'.event v = s.event v

/-- No wake is on the way to a thread whose call is pending. -/
theorem Pending.no_wake (hc : Pending s c) (hs : Inv place held s) {m : Nat} {x : Nat × Call}
    (hx : x ∈ s.wakes m) : x.2.thread ≠ c.thread := by
  intro heq
  obtain ⟨-, hcur, hmem, -⟩ := hs.wakes m x hx
  apply hc.open_
  rw [heq, hc.current] at hcur
  rw [hcur]
  exact hmem

theorem woken_rcWakeRemoteThread (hc : Pending s c) (hs : Inv place held s) :
    Woken c s (s.rcWakeRemoteThread c.thread c) := by
  have hlate : (c, false) ∉ s.returned := hc.not_returned hs false
  rw [State.rcWakeRemoteThread]
  simp only [if_neg hlate]
  split
  · refine ⟨rfl, rfl, rfl, rfl, rfl, rfl, rfl, ?_, fun m x hx => Or.inl ⟨hx, ?_⟩, hs.nodup_wakes, fun v hv => ?_⟩
    · simp only [State.rcSetRemoteEvent]
      rw [if_neg]
      exact fun h => h.2 hc.current
    · exact Function.update_of_ne (hc.no_wake hs hx) ..
    · exact Function.update_of_ne hv ..
  · refine ⟨rfl, rfl, rfl, rfl, rfl, rfl, rfl, rfl, fun m x hx => ?_, fun m => ?_, fun v _ => rfl⟩
    · simp only [Function.update_apply] at hx
      split at hx
      · rename_i hm
        rcases List.mem_append.mp hx with hold | hnew
        · exact Or.inl ⟨by rw [hm]; exact hold, rfl⟩
        · exact Or.inr ⟨List.mem_singleton.mp hnew, hm, hc.event_false hs⟩
      · exact Or.inl ⟨hx, rfl⟩
    · simp only [Function.update_apply]
      split
      · refine List.nodup_append.mpr ⟨hs.nodup_wakes _, List.nodup_singleton _, ?_⟩
        rintro x hx y hy rfl
        rw [List.mem_singleton] at hy
        apply hc.no_wake hs hx
        rw [hy]
      · exact hs.nodup_wakes m

/-- The master wakes a call. -/
theorem inv_rcWakeRemoteThread (hs : Inv place (c :: held) s) :
    Inv place held (s.rcWakeRemoteThread c.thread c) := by
  obtain ⟨hc, hplace⟩ := hs.hand c List.mem_cons_self
  obtain ⟨timeout, hphase⟩ := hc.waiting
  obtain ⟨s', hs'⟩ : ∃ s', s' = s.rcWakeRemoteThread c.thread c := ⟨_, rfl⟩
  have hwoken : Woken c s s' := hs' ▸ woken_rcWakeRemoteThread hc hs
  have hthreads := hwoken.threads
  have hgranted := hwoken.granted
  have hcurrent : ∀ v, s'.current v = s.current v := fun v => by
    rw [State.current, hthreads]
    rfl
  have hpending : ∀ c', Pending s c' → c' ≠ c → Pending s' c' :=
    fun c' h hne => h.of_granted hne hthreads hgranted
  have hmem : ∀ c', c' ∈ s.granted → c' ∈ s'.granted := fun c' h => by
    rw [hgranted]
    exact List.mem_append_left _ h
  have hself : c ∈ s'.granted := by
    rw [hgranted]
    exact List.mem_append_right _ List.mem_cons_self
  rw [← hs']
  constructor
  · intro m c' hc'
    rw [hwoken.requests] at hc'
    obtain ⟨hm, hp, hpl⟩ := hs.sent m c' hc'
    refine ⟨hm, hpending c' hp ?_, hpl⟩
    rintro rfl
    rw [hplace] at hpl
    cases hpl
  · intro id c' hc'
    rw [hwoken.queued] at hc'
    obtain ⟨hp, hpl⟩ := hs.queued id c' hc'
    refine ⟨hpending c' hp ?_, hpl⟩
    rintro rfl
    rw [hplace] at hpl
    cases hpl
  · intro c' hc'
    obtain ⟨hp, hpl⟩ := hs.hand c' (List.mem_cons_of_mem _ hc')
    refine ⟨hpending c' hp ?_, hpl⟩
    rintro rfl
    exact (List.nodup_cons.mp hs.nodup_hand).1 hc'
  · rw [hwoken.requests]
    exact hs.nodup_sent
  · rw [hwoken.queued]
    exact hs.nodup_queued
  · exact (List.nodup_cons.mp hs.nodup_hand).2
  · rw [hwoken.queued, hwoken.manager]
    exact hs.tags
  · intro m x hx
    rcases hwoken.wakes m x hx with ⟨hold, hev⟩ | ⟨rfl, rfl, hev⟩
    · obtain ⟨hth, hcur, hg, hf, hent⟩ := hs.wakes m x hold
      refine ⟨hth, by rw [hcurrent]; exact hcur, hmem _ hg, by rw [hev]; exact hf, ?_⟩
      rw [hthreads]
      exact hent
    · refine ⟨rfl, by rw [hcurrent]; exact hc.current, hself, hev, ?_⟩
      intro op t
      rw [hthreads, hphase]
      exact Phase.noConfusion
  · exact hwoken.nodup_wakes
  · intro v hv hev
    rw [hcurrent]
    by_cases hvc : v = c.thread
    · rw [hvc, hc.current]
      exact hself
    · rw [hthreads] at hv
      rw [hwoken.event v hvc] at hev
      exact hmem _ (hs.event v hv hev)
  · intro v op t hv
    rw [hthreads] at hv
    rw [hcurrent, hgranted, List.mem_append, not_or, List.mem_singleton]
    refine ⟨hs.entering v op t hv, ?_⟩
    intro heq
    have hvc : v = c.thread := congrArg Call.thread heq
    rw [hvc, hphase] at hv
    cases hv
  · intro c' hc'
    rw [hgranted, List.mem_append, List.mem_singleton] at hc'
    rw [hthreads]
    rcases hc' with hold | rfl
    · exact hs.granted c' hold
    · exact Nat.le_of_eq (congrArg Call.number hc.current).symm
  · rw [hwoken.returned, hthreads]
    intro x hx
    rw [hcurrent]
    exact hs.returned x hx
  · rw [hwoken.returned]
    exact fun c' hc' => hmem _ (hs.returned_true c' hc')
  · rw [hwoken.late]
    exact hs.late
  · rw [hwoken.stray]
    exact hs.stray

/-- When the calls belong to the threads, waking the threads is granting the calls. -/
theorem wakeAll_eq (s : State) {us : List SyncThreadNode} {calls : List Call}
    (h : us = (calls.take us.length).map Call.thread) :
    s.wakeAll us calls =
      (calls.take us.length).foldl (fun s c => s.rcWakeRemoteThread c.thread c) s := by
  induction us generalizing s calls with
  | nil => rfl
  | cons u rest ih =>
      cases calls with
      | nil => cases h
      | cons c calls =>
          rw [List.length_cons, List.take_succ_cons, List.map_cons] at h
          obtain ⟨rfl, hrest⟩ := List.cons.inj h
          exact ih _ hrest

/-- What waking the calls of a list changes. -/
theorem wakeAll_same (calls : List Call) (s : State) :
    let s' := calls.foldl (fun s c => s.rcWakeRemoteThread c.thread c) s
    s'.threads = s.threads ∧ s'.manager = s.manager ∧ s'.requests = s.requests ∧
      s'.queued = s.queued ∧ s'.arrived = s.arrived ∧ s'.returned = s.returned ∧
      s'.granted = s.granted ++ calls := by
  induction calls generalizing s with
  | nil => exact ⟨rfl, rfl, rfl, rfl, rfl, rfl, (List.append_nil _).symm⟩
  | cons c rest ih =>
      have hone : (s.rcWakeRemoteThread c.thread c).threads = s.threads ∧
          (s.rcWakeRemoteThread c.thread c).manager = s.manager ∧
          (s.rcWakeRemoteThread c.thread c).requests = s.requests ∧
          (s.rcWakeRemoteThread c.thread c).queued = s.queued ∧
          (s.rcWakeRemoteThread c.thread c).arrived = s.arrived ∧
          (s.rcWakeRemoteThread c.thread c).returned = s.returned ∧
          (s.rcWakeRemoteThread c.thread c).granted = s.granted ++ [c] := by
        rw [State.rcWakeRemoteThread]
        split <;> exact ⟨rfl, rfl, rfl, rfl, rfl, rfl, rfl⟩
      obtain ⟨h₁, h₂, h₃, h₄, h₅, h₆, h₇⟩ := ih (s.rcWakeRemoteThread c.thread c)
      obtain ⟨k₁, k₂, k₃, k₄, k₅, k₆, k₇⟩ := hone
      refine ⟨h₁.trans k₁, h₂.trans k₂, h₃.trans k₃, h₄.trans k₄, h₅.trans k₅, h₆.trans k₆, ?_⟩
      rw [List.foldl_cons, h₇, k₇, List.append_assoc]
      rfl

theorem inv_wakeAll {calls : List Call} (hs : Inv place calls s) :
    Inv place [] (calls.foldl (fun s c => s.rcWakeRemoteThread c.thread c) s) := by
  induction calls generalizing s with
  | nil => exact hs
  | cons c rest ih => exact ih (inv_rcWakeRemoteThread hs)

/-- The manager and one wait list change; some calls of the list are taken in hand. -/
theorem Inv.requeue (hs : Inv place held s) (id : ObjectKey) (calls held' : List Call) (m : Manager)
    (arrived : List Call)
    (hother : ∀ id', id' ≠ id → waitingOf m id' = waitingOf s.manager id')
    (htags : calls.map Call.thread = waitingOf m id)
    (hmem : ∀ c, c ∈ calls ∨ c ∈ held' → c ∈ s.queued id ∨ c ∈ held)
    (hnodup : (calls ++ held').Nodup) :
    ∃ place', Inv place' held' { s with
      manager := m
      arrived := arrived
      queued := Function.update s.queued id calls } := by
  have hpending : ∀ c, c ∈ calls ∨ c ∈ held' → Pending s c := by
    intro c hc
    rcases hmem c hc with h | h
    · exact (hs.queued id c h).1
    · exact (hs.hand c h).1
  have hplace : ∀ c, c ∈ calls ∨ c ∈ held' →
      place c.thread = .queued id ∨ place c.thread = .hand := by
    intro c hc
    rcases hmem c hc with h | h
    · exact Or.inl (hs.queued id c h).2
    · exact Or.inr (hs.hand c h).2
  have hcalls := List.nodup_append.mp hnodup
  -- a thread is in one call, so two calls with one thread are the same call
  have hsame : ∀ c c', Pending s c → Pending s c' → c.thread = c'.thread → c = c' := by
    intro c c' h h' heq
    rw [← h.current, ← h'.current, heq]
  refine ⟨fun u => if ∃ c ∈ calls, c.thread = u then .queued id
    else if ∃ c ∈ held', c.thread = u then .hand else place u, ?_⟩
  have hkept : ∀ c, Pending s c → place c.thread ≠ .queued id → place c.thread ≠ .hand →
      (if ∃ c' ∈ calls, c'.thread = c.thread then Place.queued id
        else if ∃ c' ∈ held', c'.thread = c.thread then .hand else place c.thread) = place c.thread := by
    intro c hc hnq hnh
    rw [if_neg, if_neg]
    · rintro ⟨c', hc', heq⟩
      rcases hplace c' (Or.inr hc') with h | h
      · exact hnq (heq ▸ h)
      · exact hnh (heq ▸ h)
    · rintro ⟨c', hc', heq⟩
      rcases hplace c' (Or.inl hc') with h | h
      · exact hnq (heq ▸ h)
      · exact hnh (heq ▸ h)
  constructor
  · intro n c hc
    obtain ⟨hm, hp, hpl⟩ := hs.sent n c hc
    refine ⟨hm, ⟨hp.waiting, hp.current, hp.open_⟩, ?_⟩
    show (if _ then _ else _) = _
    rw [hkept c hp (by rw [hpl]; exact Place.noConfusion) (by rw [hpl]; exact Place.noConfusion)]
    exact hpl
  · intro id' c hc
    by_cases hid : id' = id
    · subst hid
      simp only [Function.update_self] at hc
      have hp := hpending c (Or.inl hc)
      exact ⟨⟨hp.waiting, hp.current, hp.open_⟩, if_pos ⟨c, hc, rfl⟩⟩
    · simp only [Function.update_of_ne hid] at hc
      obtain ⟨hp, hpl⟩ := hs.queued id' c hc
      refine ⟨⟨hp.waiting, hp.current, hp.open_⟩, ?_⟩
      show (if _ then _ else _) = _
      rw [hkept c hp _ (by rw [hpl]; exact Place.noConfusion)]
      · exact hpl
      · rw [hpl]
        exact fun h => hid (Place.queued.inj h)
  · intro c hc
    have hp := hpending c (Or.inr hc)
    refine ⟨⟨hp.waiting, hp.current, hp.open_⟩, ?_⟩
    show (if _ then _ else _) = _
    rw [if_neg, if_pos ⟨c, hc, rfl⟩]
    rintro ⟨c', hc', heq⟩
    obtain rfl := hsame c' c (hpending c' (Or.inl hc')) hp heq
    exact hcalls.2.2 c' hc' c' hc rfl
  · exact hs.nodup_sent
  · intro id'
    simp only [Function.update_apply]
    split
    · exact hcalls.1
    · exact hs.nodup_queued id'
  · exact hcalls.2.1
  · intro id'
    by_cases hid : id' = id
    · subst hid
      simp only [Function.update_self]
      exact htags
    · simp only [Function.update_of_ne hid]
      rw [hs.tags id', hother id' hid]
  · exact hs.wakes
  · exact hs.nodup_wakes
  · exact hs.event
  · exact hs.entering
  · exact hs.granted
  · exact hs.returned
  · exact hs.returned_true
  · exact hs.late
  · exact hs.stray

/-- The master handles the request of a call. -/
theorem inv_serveWait (dsm : Dsm) (hs : Inv place [c] s) (op : WaitOp) :
    ∃ place', Inv place' [] (serveWait dsm s c.thread.machine op c) := by
  obtain ⟨hc, hplace⟩ := hs.hand c List.mem_cons_self
  have htags := hs.tags op.object
  have hnodup := hs.nodup_queued op.object
  have hnot : c ∉ s.queued op.object := by
    intro hmem
    have := (hs.queued _ _ hmem).2
    rw [hplace] at this
    cases this
  obtain ⟨hother, hcase⟩ := waitMsg_waits dsm s.manager c.thread.machine c.thread.threadId op
  obtain ⟨r, hr⟩ : ∃ r, r = waitMsg dsm s.manager c.thread.machine c.thread.threadId op := ⟨_, rfl⟩
  rw [← hr] at hother hcase
  simp only [serveWait, ← hr]
  rcases hcase with ⟨hwoken, hleft⟩ | ⟨n, hn, hwoken, hleft⟩
  · rw [hwoken, if_pos rfl]
    apply hs.requeue op.object (s.queued op.object ++ [c]) [] r.1 _ hother
    · rw [List.map_append, htags, hleft]
      rfl
    · intro c' hc'
      rw [List.mem_append] at hc'
      exact hc'.resolve_right List.not_mem_nil
    · rw [List.append_nil]
      refine List.nodup_append.mpr ⟨hnodup, List.nodup_singleton c, ?_⟩
      rintro x hx y hy rfl
      rw [List.mem_singleton] at hy
      exact hnot (hy ▸ hx)
  · have hlen : r.2.length = n + 1 := by
      rw [hwoken, List.length_cons, List.length_take, Nat.min_eq_left hn]
    have hne : r.2 ≠ [] := by
      rw [hwoken]
      exact List.cons_ne_nil _ _
    rw [if_neg hne, hlen, Nat.add_sub_cancel, wakeAll_eq]
    · rw [hlen, List.take_succ_cons]
      obtain ⟨place', hs'⟩ := hs.requeue op.object ((s.queued op.object).drop n)
        (c :: (s.queued op.object).take n) r.1 (s.arrived ++ [c]) hother
        (by rw [List.map_drop, htags, hleft]) (by
          rintro c' (hc' | hc')
          · exact Or.inl (List.mem_of_mem_drop hc')
          · rcases List.mem_cons.mp hc' with rfl | hc'
            · exact Or.inr List.mem_cons_self
            · exact Or.inl (List.mem_of_mem_take hc')) (by
          have hperm : ((s.queued op.object).drop n ++ c :: (s.queued op.object).take n).Perm
              (c :: s.queued op.object) := by
            calc ((s.queued op.object).drop n ++ c :: (s.queued op.object).take n).Perm
                  (c :: ((s.queued op.object).drop n ++ (s.queued op.object).take n)) :=
                  List.perm_middle
              List.Perm _ (c :: ((s.queued op.object).take n ++ (s.queued op.object).drop n)) :=
                  List.Perm.cons c List.perm_append_comm
              _ = c :: s.queued op.object := by rw [List.take_append_drop]
          exact hperm.nodup_iff.mpr (List.nodup_cons.mpr ⟨hnot, hnodup⟩))
      exact ⟨place', inv_wakeAll hs'⟩
    · rw [hlen, List.take_succ_cons, List.map_cons, List.map_take, htags, hwoken]

/-- The master handles a request that does not wait. -/
theorem inv_servePost {dsm : Dsm} (hs : Inv place [] s) {op : PostOp} {s' : State}
    (h : servePost dsm s op = some s') : ∃ place', Inv place' [] s' := by
  obtain ⟨r, hr, rfl⟩ := Option.map_eq_some_iff.mp h
  obtain ⟨hother, n, hn, hwoken, hleft⟩ := postMsg_posts hr
  have htags := hs.tags op.object
  have hlen : r.2.length = n := by
    rw [hwoken, List.length_take, Nat.min_eq_left hn]
  dsimp only
  rw [wakeAll_eq]
  · rw [hlen]
    obtain ⟨place', hs'⟩ := hs.requeue op.object ((s.queued op.object).drop n)
      ((s.queued op.object).take n) r.1 s.arrived hother
      (by rw [List.map_drop, htags, hleft]) (by
        rintro c' (hc' | hc')
        · exact Or.inl (List.mem_of_mem_drop hc')
        · exact Or.inl (List.mem_of_mem_take hc')) (by
        apply (List.perm_append_comm.nodup_iff).mpr
        rw [List.take_append_drop]
        exact hs.nodup_queued op.object)
    exact ⟨place', inv_wakeAll hs'⟩
  · rw [hlen, List.map_take, htags, hwoken]

/-! ## Steps -/

/-- The condition: a call times out only after the master has granted it, and a thread
begins a call only when no wake for it is under way. -/
def Orderly (s : State) : Act → Prop
  | .call u _ _ => ∀ x ∈ s.wakes u.machine, x.1 ≠ u.threadId
  | .timeout u => s.current u ∈ s.granted
  | _ => True

theorem callsOf_append (rs rs' : List Request) : callsOf (rs ++ rs') = callsOf rs ++ callsOf rs' :=
  List.filterMap_append

/-- A thread moves on: what the system knows of its call stays true. -/
theorem Inv.setThread (hs : Inv place held s) (u : SyncThreadNode) (th : Thread) (event : Bool)
    (returned : List (Call × Bool))
    (hpending : ∀ c, c.thread = u → Pending s c →
      (∃ timeout, th.phase = .waiting timeout) ∧ th.calls = (s.threads u).calls)
    (hcalls : (s.threads u).calls ≤ th.calls)
    (hwakes : (∃ x ∈ s.wakes u.machine, x.1 = u.threadId) →
      th.calls = (s.threads u).calls ∧ event = s.event u ∧ ∀ op timeout, th.phase ≠ .entering op timeout)
    (hevent : th.phase ≠ .idle → event = true → ⟨u, th.calls⟩ ∈ s.granted)
    (hentering : ∀ op timeout, th.phase = .entering op timeout → ⟨u, th.calls⟩ ∉ s.granted)
    (hself : ∀ x ∈ returned, x.1.thread = u → x.1.number < th.calls ∨
      x.1 = ⟨u, th.calls⟩ ∧ th.phase = .idle)
    (hreturned : ∀ x ∈ returned, x.1.thread ≠ u → x ∈ s.returned)
    (htrue : ∀ c, (c, true) ∈ returned → c ∈ s.granted) :
    Inv place held { s.setThread u th with
      event := Function.update s.event u event
      returned := returned } := by
  have hthread : ∀ v, (s.setThread u th).threads v = if v = u then th else s.threads v := fun v => by
    simp [State.setThread, Function.update_apply]
  have hcurrent : ∀ v, v ≠ u → (s.setThread u th).current v = s.current v := fun v hv => by
    rw [State.current, hthread, if_neg hv]
    rfl
  have hkeep : ∀ c, Pending s c → Pending { s.setThread u th with
      event := Function.update s.event u event
      returned := returned } c := by
    intro c hc
    by_cases hcu : c.thread = u
    · obtain ⟨hwait, heq⟩ := hpending c hcu hc
      refine ⟨?_, ?_, hc.open_⟩
      · show ∃ timeout, ((s.setThread u th).threads c.thread).phase = .waiting timeout
        rw [hthread, if_pos hcu]
        exact hwait
      · show (⟨c.thread, ((s.setThread u th).threads c.thread).calls⟩ : Call) = c
        rw [hthread, if_pos hcu, heq]
        subst hcu
        exact hc.current
    · refine ⟨?_, (hcurrent _ hcu).trans hc.current, hc.open_⟩
      show ∃ timeout, ((s.setThread u th).threads c.thread).phase = .waiting timeout
      rw [hthread, if_neg hcu]
      exact hc.waiting
  constructor
  · intro m c hc
    obtain ⟨hm, hp, hpl⟩ := hs.sent m c hc
    exact ⟨hm, hkeep c hp, hpl⟩
  · intro id c hc
    obtain ⟨hp, hpl⟩ := hs.queued id c hc
    exact ⟨hkeep c hp, hpl⟩
  · intro c hc
    obtain ⟨hp, hpl⟩ := hs.hand c hc
    exact ⟨hkeep c hp, hpl⟩
  · exact hs.nodup_sent
  · exact hs.nodup_queued
  · exact hs.nodup_hand
  · exact hs.tags
  · intro m x hx
    obtain ⟨hth, hcur, hg, hf, hent⟩ := hs.wakes m x hx
    by_cases hxu : x.2.thread = u
    · have hmu : u = ⟨m, x.1⟩ := hxu.symm.trans hth
      have hm : m = u.machine := by rw [hmu]
      obtain ⟨heq, hev, hne⟩ := hwakes ⟨x, by rw [← hm]; exact hx, by rw [hmu]⟩
      refine ⟨hth, ?_, hg, ?_, ?_⟩
      · show (⟨x.2.thread, ((s.setThread u th).threads x.2.thread).calls⟩ : Call) = x.2
        rw [hthread, if_pos hxu, heq, ← hxu]
        exact hcur
      · show Function.update s.event u event x.2.thread = false
        rw [hxu, Function.update_self, hev, ← hxu]
        exact hf
      · show ∀ op timeout, ((s.setThread u th).threads x.2.thread).phase ≠ .entering op timeout
        rw [hthread, if_pos hxu]
        exact hne
    · refine ⟨hth, (hcurrent _ hxu).trans hcur, hg, ?_, ?_⟩
      · show Function.update s.event u event x.2.thread = false
        rw [Function.update_of_ne hxu]
        exact hf
      · show ∀ op timeout, ((s.setThread u th).threads x.2.thread).phase ≠ .entering op timeout
        rw [hthread, if_neg hxu]
        exact hent
  · exact hs.nodup_wakes
  · intro v
    show ((s.setThread u th).threads v).phase ≠ .idle → Function.update s.event u event v = true →
      (⟨v, ((s.setThread u th).threads v).calls⟩ : Call) ∈ s.granted
    rw [hthread]
    by_cases hv : v = u
    · rw [if_pos hv, hv, Function.update_self]
      exact hevent
    · rw [if_neg hv, Function.update_of_ne hv]
      exact hs.event v
  · intro v op timeout
    show ((s.setThread u th).threads v).phase = .entering op timeout →
      (⟨v, ((s.setThread u th).threads v).calls⟩ : Call) ∉ s.granted
    rw [hthread]
    by_cases hv : v = u
    · rw [if_pos hv, hv]
      exact hentering op timeout
    · rw [if_neg hv]
      exact hs.entering v op timeout
  · intro c hc
    show c.number ≤ ((s.setThread u th).threads c.thread).calls
    have hle := hs.granted c hc
    rw [hthread]
    split
    · rename_i hcu
      rw [hcu] at hle
      exact Nat.le_trans hle hcalls
    · exact hle
  · intro x hx
    show x.1.number < ((s.setThread u th).threads x.1.thread).calls ∨
      x.1 = ⟨x.1.thread, ((s.setThread u th).threads x.1.thread).calls⟩ ∧
        ((s.setThread u th).threads x.1.thread).phase = .idle
    rw [hthread]
    by_cases hxu : x.1.thread = u
    · rw [if_pos hxu]
      have := hself x hx hxu
      rw [← hxu] at this
      exact this
    · rw [if_neg hxu]
      exact hs.returned x (hreturned x hx hxu)
  · exact htrue
  · exact hs.late
  · exact hs.stray

/-- A change to the messages on their way to the master. -/
theorem Inv.setRequests (hs : Inv place held s) (requests : Nat → List Request)
    (place' : SyncThreadNode → Place) (held' : List Call)
    (hsent : ∀ m, ∀ c ∈ callsOf (requests m),
      c.thread.machine = m ∧ Pending s c ∧ place' c.thread = .sent)
    (hnodup : ∀ m, (callsOf (requests m)).Nodup)
    (hqueued : ∀ id, ∀ c ∈ s.queued id, place' c.thread = .queued id)
    (hheld : ∀ c ∈ held', Pending s c ∧ place' c.thread = .hand) (hnodup' : held'.Nodup) :
    Inv place' held' { s with requests := requests } := by
  have hkeep : ∀ c, Pending s c → Pending { s with requests := requests } c :=
    fun c h => ⟨h.waiting, h.current, h.open_⟩
  refine { hs with
    sent := ?_
    queued := ?_
    hand := ?_
    nodup_sent := hnodup
    nodup_hand := hnodup' }
  · intro m c hc
    obtain ⟨hm, hp, hpl⟩ := hsent m c hc
    exact ⟨hm, hkeep c hp, hpl⟩
  · exact fun id c hc => ⟨hkeep c (hs.queued id c hc).1, hqueued id c hc⟩
  · intro c hc
    obtain ⟨hp, hpl⟩ := hheld c hc
    exact ⟨hkeep c hp, hpl⟩

theorem callsOf_update (s : State) (machine : Nat) (rs : List Request) (m : Nat) :
    callsOf (Function.update s.requests machine rs m) =
      if m = machine then callsOf rs else callsOf (s.requests m) := by
  rw [Function.update_apply]
  split <;> rfl

/-- A message that does not wait is sent or taken off. -/
theorem Inv.setRequests_same (hs : Inv place [] s) {machine : Nat} {rs : List Request}
    (h : callsOf rs = callsOf (s.requests machine)) :
    Inv place [] { s with requests := Function.update s.requests machine rs } := by
  have hsame : ∀ m, callsOf (Function.update s.requests machine rs m) = callsOf (s.requests m) := by
    intro m
    rw [callsOf_update]
    split
    · rename_i hm
      rw [h, hm]
    · rfl
  apply hs.setRequests
  · intro m c hc
    rw [hsame] at hc
    exact hs.sent m c hc
  · intro m
    rw [hsame]
    exact hs.nodup_sent m
  · exact fun id c hc => (hs.queued id c hc).2
  · exact fun c hc => absurd hc List.not_mem_nil
  · exact List.nodup_nil

/-- A call leaves no trace before its request is made. -/
theorem Inv.untraced (hs : Inv place [] s) {op : WaitOp} {timeout : Int}
    (hphase : (s.threads u).phase = .entering op timeout) :
    (∀ m, ∀ c ∈ callsOf (s.requests m), c.thread ≠ u) ∧ (∀ id, ∀ c ∈ s.queued id, c.thread ≠ u) := by
  have hne : ∀ c, Pending s c → c.thread ≠ u := by
    rintro c hc rfl
    obtain ⟨t, ht⟩ := hc.waiting
    exact absurd (hphase.symm.trans ht) Phase.noConfusion
  exact ⟨fun m c hc => hne c (hs.sent m c hc).2.1, fun id c hc => hne c (hs.queued id c hc).1⟩

/-- A call begins. -/
theorem inv_call (hs : Inv place [] s) (hidle : (s.threads u).phase = .idle)
    (hok : ∀ x ∈ s.wakes u.machine, x.1 ≠ u.threadId) (op : WaitOp) (timeout : Int) :
    Inv place [] { s.setThread u ⟨(s.threads u).calls + 1, .entering op timeout⟩ with
      event := Function.update s.event u false } := by
  apply hs.setThread u ⟨(s.threads u).calls + 1, .entering op timeout⟩ false s.returned
  · rintro c rfl hc
    obtain ⟨t, ht⟩ := hc.waiting
    exact absurd (hidle.symm.trans ht) Phase.noConfusion
  · exact Nat.le_succ _
  · rintro ⟨x, hx, heq⟩
    exact absurd heq (hok x hx)
  · exact fun _ h => Bool.noConfusion h
  · intro _ _ _ hmem
    exact absurd (hs.granted _ hmem) (Nat.not_succ_le_self _)
  · rintro x hx rfl
    rcases hs.returned x hx with hlt | ⟨heq, -⟩
    · exact Or.inl (Nat.lt_succ_of_lt hlt)
    · left
      rw [heq]
      exact Nat.lt_succ_self _
  · exact fun x hx _ => hx
  · exact hs.returned_true

/-- A thread comes to wait in its call. -/
theorem inv_waiting (hs : Inv place [] s) {op : WaitOp} {timeout : Int}
    (hphase : (s.threads u).phase = .entering op timeout) :
    Inv place [] (s.setThread u { s.threads u with phase := .waiting timeout }) := by
  have hs' := hs.setThread u { s.threads u with phase := .waiting timeout } (s.event u) s.returned
    (by
      rintro c rfl hc
      obtain ⟨t, ht⟩ := hc.waiting
      exact absurd (hphase.symm.trans ht) Phase.noConfusion)
    (Nat.le_refl _)
    (by
      rintro ⟨x, hx, heq⟩
      obtain ⟨hth, -, -, -, hne⟩ := hs.wakes _ x hx
      have hxu : x.2.thread = u := by rw [hth, heq]
      rw [hxu] at hne
      exact absurd hphase (hne op timeout))
    (by
      intro _ hev
      exact hs.event u (by rw [hphase]; exact Phase.noConfusion) hev)
    (fun _ _ h => Phase.noConfusion h)
    (by
      rintro x hx rfl
      rcases hs.returned x hx with hlt | ⟨-, hidle⟩
      · exact Or.inl hlt
      · exact absurd (hphase.symm.trans hidle) Phase.noConfusion)
    (fun x hx _ => hx) hs.returned_true
  rw [Function.update_eq_self] at hs'
  exact hs'

/-- A call returns after it has been granted. -/
theorem inv_finish (hs : Inv place [] s) (hgranted : s.current u ∈ s.granted) (result : Bool) :
    Inv place [] (finish s u result) := by
  have hs' := hs.setThread u { s.threads u with phase := .idle } (s.event u)
    (s.returned ++ [(s.current u, result)])
    (by
      rintro c rfl hc
      rw [hc.current] at hgranted
      exact absurd hgranted hc.open_)
    (Nat.le_refl _) (fun _ => ⟨rfl, rfl, fun _ _ => Phase.noConfusion⟩)
    (fun h => absurd rfl h) (fun _ _ h => Phase.noConfusion h)
    (by
      rintro x hx rfl
      rcases List.mem_append.mp hx with hold | hnew
      · rcases hs.returned x hold with hlt | ⟨heq, -⟩
        · exact Or.inl hlt
        · exact Or.inr ⟨heq, rfl⟩
      · rw [List.mem_singleton.mp hnew]
        exact Or.inr ⟨rfl, rfl⟩)
    (by
      intro x hx hne
      rcases List.mem_append.mp hx with hold | hnew
      · exact hold
      · rw [List.mem_singleton.mp hnew] at hne
        exact absurd rfl hne)
    (by
      intro c hc
      rcases List.mem_append.mp hc with hold | hnew
      · exact hs.returned_true c hold
      · obtain ⟨rfl, -⟩ := Prod.mk.inj (List.mem_singleton.mp hnew)
        exact hgranted)
  rw [Function.update_eq_self] at hs'
  exact hs'

/-- The call of a thread that comes to wait is in no place yet, so it can be put in one. -/
theorem inv_placed (hs : Inv place [] s) {op : WaitOp} {timeout : Int}
    (hphase : (s.threads u).phase = .entering op timeout) {s₁ : State}
    (hs₁ : s₁ = s.setThread u { s.threads u with phase := .waiting timeout }) (p : Place) :
    Inv place [] s₁ ∧ Pending s₁ (s₁.current u) ∧
    (∀ m, ∀ c ∈ callsOf (s₁.requests m), c.thread ≠ u ∧ Function.update place u p c.thread = .sent) ∧
    ∀ id, ∀ c ∈ s₁.queued id, Function.update place u p c.thread = .queued id := by
  obtain ⟨hsent, hqueued⟩ := hs.untraced hphase
  have hthread : s₁.threads u = { s.threads u with phase := .waiting timeout } := by
    rw [hs₁]
    simp [State.setThread]
  have hplace : ∀ v, v ≠ u → Function.update place u p v = place v :=
    fun v hv => Function.update_of_ne hv ..
  refine ⟨hs₁ ▸ inv_waiting hs hphase, ⟨⟨timeout, ?_⟩, rfl, ?_⟩, ?_, ?_⟩
  · show (s₁.threads u).phase = .waiting timeout
    rw [hthread]
  · have hcall : s₁.current u = s.current u := by
      rw [State.current, hthread]
      rfl
    rw [hcall, hs₁]
    exact hs.entering u op timeout hphase
  · intro m c hc
    rw [hs₁] at hc
    exact ⟨hsent m c hc, (hplace _ (hsent m c hc)).trans (hs.sent m c hc).2.2⟩
  · intro id c hc
    rw [hs₁] at hc
    exact (hplace _ (hqueued id c hc)).trans (hs.queued id c hc).2

/-- A thread of the master hands its call to the manager. -/
theorem inv_hold (hs : Inv place [] s) {op : WaitOp} {timeout : Int}
    (hphase : (s.threads u).phase = .entering op timeout) {s₁ : State}
    (hs₁ : s₁ = s.setThread u { s.threads u with phase := .waiting timeout }) :
    Inv (Function.update place u .hand) [s₁.current u] s₁ := by
  obtain ⟨hinv, hpending, hsent, hqueued⟩ := inv_placed hs hphase hs₁ .hand
  apply hinv.setRequests s₁.requests
  · intro m c hc
    obtain ⟨hm, hp, -⟩ := hinv.sent m c hc
    exact ⟨hm, hp, (hsent m c hc).2⟩
  · exact hinv.nodup_sent
  · exact hqueued
  · intro c hc
    rw [List.mem_singleton.mp hc]
    exact ⟨hpending, Function.update_self ..⟩
  · exact List.nodup_singleton _

/-- A thread of another node sends its request. -/
theorem inv_request (hs : Inv place [] s) {op : WaitOp} {timeout : Int}
    (hphase : (s.threads u).phase = .entering op timeout) {s₁ : State}
    (hs₁ : s₁ = s.setThread u { s.threads u with phase := .waiting timeout }) :
    Inv (Function.update place u .sent) [] (send s₁ u.machine (.wait op (s₁.current u))) := by
  obtain ⟨hinv, hpending, hsent, hqueued⟩ := inv_placed hs hphase hs₁ .sent
  apply hinv.setRequests
  · intro m c hc
    rw [callsOf_update, callsOf_append] at hc
    have hold : c ∈ callsOf (s₁.requests m) →
        c.thread.machine = m ∧ Pending s₁ c ∧ Function.update place u .sent c.thread = .sent := by
      intro hc
      obtain ⟨hm, hp, -⟩ := hinv.sent m c hc
      exact ⟨hm, hp, (hsent m c hc).2⟩
    split at hc
    · rename_i hm
      rcases List.mem_append.mp hc with hc | hc
      · exact hold (by rw [hm]; exact hc)
      · rw [List.mem_singleton.mp hc]
        exact ⟨hm.symm, hpending, Function.update_self ..⟩
    · exact hold hc
  · intro m
    rw [callsOf_update, callsOf_append]
    split
    · refine List.nodup_append.mpr ⟨hinv.nodup_sent _, List.nodup_singleton _, ?_⟩
      rintro c hc c' hc' rfl
      apply (hsent _ c hc).1
      rw [List.mem_singleton.mp hc']
      rfl
    · exact hinv.nodup_sent m
  · exact hqueued
  · exact fun c hc => absurd hc List.not_mem_nil
  · exact List.nodup_nil

/-- The master takes the request of a call off a connection. -/
theorem inv_takeWait (hs : Inv place [] s) {machine : Nat} {op : WaitOp} {rest : List Request}
    (hrequests : s.requests machine = .wait op c :: rest) :
    c.thread.machine = machine ∧ Inv (Function.update place c.thread .hand) [c]
      { s with requests := Function.update s.requests machine rest } := by
  have hcalls : callsOf (s.requests machine) = c :: callsOf rest := by
    rw [hrequests]
    rfl
  have hmem : c ∈ callsOf (s.requests machine) := by
    rw [hcalls]
    exact List.mem_cons_self
  obtain ⟨hmachine, hpending, hplace⟩ := hs.sent machine c hmem
  have hnodup := hs.nodup_sent machine
  rw [hcalls, List.nodup_cons] at hnodup
  -- another call of the same thread would be the same call
  have hother : ∀ c', Pending s c' → c' ≠ c → c'.thread ≠ c.thread := by
    intro c' hc' hne heq
    apply hne
    rw [← hc'.current, ← hpending.current, heq]
  refine ⟨hmachine, ?_⟩
  apply hs.setRequests
  · intro m c' hc'
    rw [callsOf_update] at hc'
    have hold : c' ∈ callsOf (s.requests m) ∧ c' ≠ c := by
      split at hc'
      · rename_i hm
        rw [hm, hcalls]
        refine ⟨List.mem_cons_of_mem _ hc', ?_⟩
        rintro rfl
        exact hnodup.1 hc'
      · rename_i hm
        refine ⟨hc', ?_⟩
        rintro rfl
        exact hm ((hs.sent m c' hc').1.symm.trans hmachine)
    obtain ⟨hm, hp, hpl⟩ := hs.sent m c' hold.1
    exact ⟨hm, hp, (Function.update_of_ne (hother c' hp hold.2) ..).trans hpl⟩
  · intro m
    rw [callsOf_update]
    split
    · exact hnodup.2
    · exact hs.nodup_sent m
  · intro id c' hc'
    obtain ⟨hp, hpl⟩ := hs.queued id c' hc'
    apply (Function.update_of_ne _ ..).trans hpl
    apply hother c' hp
    rintro rfl
    rw [hplace] at hpl
    cases hpl
  · intro c' hc'
    rw [List.mem_singleton.mp hc']
    exact ⟨hpending, Function.update_self ..⟩
  · exact List.nodup_singleton c

/-- A wake reaches its node. -/
theorem inv_wake (hs : Inv place [] s) {machine threadId : Nat} {rest : List (Nat × Call)}
    (hwakes : s.wakes machine = (threadId, c) :: rest) :
    Inv place [] (State.rcSetRemoteEvent { s with wakes := Function.update s.wakes machine rest }
      ⟨machine, threadId⟩ c) := by
  have hmem : (threadId, c) ∈ s.wakes machine := by
    rw [hwakes]
    exact List.mem_cons_self
  obtain ⟨hthread, hcurrent, hgranted, -, hentering⟩ := hs.wakes machine _ hmem
  have hthread : c.thread = ⟨machine, threadId⟩ := hthread
  have hcurrent : s.current c.thread = c := hcurrent
  have hgranted : c ∈ s.granted := hgranted
  have hnodup := hs.nodup_wakes machine
  rw [hwakes, List.nodup_cons] at hnodup
  have hother : ∀ m, ∀ x ∈ Function.update s.wakes machine rest m,
      x ∈ s.wakes m ∧ x.2.thread ≠ ⟨machine, threadId⟩ := by
    intro m x hx
    rw [Function.update_apply] at hx
    have hold : x ∈ s.wakes m := by
      split at hx
      · rename_i hm
        rw [hm, hwakes]
        exact List.mem_cons_of_mem _ hx
      · exact hx
    refine ⟨hold, fun heq => ?_⟩
    obtain ⟨hth, hcur, -⟩ := hs.wakes m x hold
    have hpair := hth.symm.trans heq
    have hm : m = machine := congrArg SyncThreadNode.machine hpair
    have hid : x.1 = threadId := congrArg SyncThreadNode.threadId hpair
    have hx2 : x.2 = c := by
      rw [← hcur, ← hcurrent, heq, hthread]
    rw [if_pos hm] at hx
    apply hnodup.1
    rw [← hid, ← hx2]
    exact hx
  constructor
  · intro m c' hc'
    obtain ⟨hm, hp, hpl⟩ := hs.sent m c' hc'
    exact ⟨hm, ⟨hp.waiting, hp.current, hp.open_⟩, hpl⟩
  · intro id c' hc'
    obtain ⟨hp, hpl⟩ := hs.queued id c' hc'
    exact ⟨⟨hp.waiting, hp.current, hp.open_⟩, hpl⟩
  · exact fun c' hc' => absurd hc' List.not_mem_nil
  · exact hs.nodup_sent
  · exact hs.nodup_queued
  · exact List.nodup_nil
  · exact hs.tags
  · intro m x hx
    obtain ⟨hold, hne⟩ := hother m x hx
    obtain ⟨hth, hcur, hg, hf, hent⟩ := hs.wakes m x hold
    exact ⟨hth, hcur, hg, (Function.update_of_ne hne ..).trans hf, hent⟩
  · intro m
    show (Function.update s.wakes machine rest m).Nodup
    rw [Function.update_apply]
    split
    · exact hnodup.2
    · exact hs.nodup_wakes m
  · intro v hv hev
    by_cases hvt : v = ⟨machine, threadId⟩
    · rw [hvt, ← hthread]
      show s.current c.thread ∈ s.granted
      rw [hcurrent]
      exact hgranted
    · exact hs.event v hv ((Function.update_of_ne hvt ..).symm.trans hev)
  · exact hs.entering
  · exact hs.granted
  · exact hs.returned
  · exact hs.returned_true
  · exact hs.late
  · show (if _ then _ else _) = []
    rw [if_neg]
    · exact hs.stray
    · rintro ⟨-, hne⟩
      apply hne
      rw [← hthread]
      exact hcurrent

instance (s : State) : (a : Act) → Decidable (Orderly s a)
  | .call u _ _ => inferInstanceAs (Decidable (∀ x ∈ s.wakes u.machine, x.1 ≠ u.threadId))
  | .timeout u => inferInstanceAs (Decidable (s.current u ∈ s.granted))
  | .send _ | .ret _ | .post _ _ | .deliver _ | .wake _ => inferInstanceAs (Decidable True)

theorem inv_step {dsm : Dsm} (hs : ∃ place, Inv place [] s) {a : Act} (hok : Orderly s a) {s' : State}
    (hstep : step dsm s a = some s') : ∃ place, Inv place [] s' := by
  obtain ⟨place, hs⟩ := hs
  cases a with
  | call u op timeout =>
      simp only [step] at hstep
      split at hstep
      · rename_i hidle
        obtain rfl := Option.some.inj hstep
        exact ⟨place, inv_call hs hidle hok op timeout⟩
      · cases hstep
  | send u =>
      simp only [step] at hstep
      split at hstep
      · rename_i op timeout hphase
        obtain rfl := Option.some.inj hstep
        split
        · rename_i hmaster
          have hserve := inv_serveWait dsm (inv_hold hs hphase rfl) op
          rw [show (State.current _ u).thread.machine = 0 from hmaster] at hserve
          exact hserve
        · exact ⟨_, inv_request hs hphase rfl⟩
      · cases hstep
  | ret u =>
      simp only [step] at hstep
      split at hstep
      · rename_i timeout hphase
        split at hstep
        · rename_i hevent
          obtain rfl := Option.some.inj hstep
          refine ⟨place, inv_finish hs (hs.event u ?_ hevent) true⟩
          rw [hphase]
          exact Phase.noConfusion
        · cases hstep
      · cases hstep
  | timeout u =>
      simp only [step] at hstep
      split at hstep
      · split at hstep
        · obtain rfl := Option.some.inj hstep
          exact ⟨place, inv_finish hs hok false⟩
        · cases hstep
      · cases hstep
  | post u op =>
      simp only [step] at hstep
      split at hstep
      · split at hstep
        · exact inv_servePost hs hstep
        · obtain rfl := Option.some.inj hstep
          refine ⟨place, hs.setRequests_same ?_⟩
          rw [callsOf_append]
          exact List.append_nil _
      · cases hstep
  | deliver machine =>
      simp only [step] at hstep
      split at hstep
      · cases hstep
      · rename_i r rest hrequests
        cases r with
        | wait op c =>
            obtain rfl := Option.some.inj hstep
            obtain ⟨rfl, hs'⟩ := inv_takeWait hs hrequests
            exact inv_serveWait dsm hs' op
        | post op =>
            have hs' : Inv place [] { s with requests := Function.update s.requests machine rest } := by
              apply hs.setRequests_same
              rw [hrequests]
              rfl
            exact inv_servePost hs' hstep
  | wake machine =>
      simp only [step] at hstep
      split at hstep
      · cases hstep
      · rename_i threadId c rest hwakes
        obtain rfl := Option.some.inj hstep
        exact ⟨place, inv_wake hs hwakes⟩

/-- Every state of every orderly run. -/
theorem inv_run {dsm : Dsm} {acts : List Act} (hok : Along (step dsm) Orderly start acts)
    (hrun : run (step dsm) start acts = some s) : ∃ place, Inv place [] s :=
  invariant_run (fun _ _ _ hs hok hstep => inv_step hs hok hstep) ⟨_, inv_start⟩ hok hrun

/-! ## Timeouts -/

/-- A call has returned true only after the master had granted it; the master has granted
no call that had timed out; and no wake has reached a thread in another call. -/
structure NoTrace (s : State) : Prop where
  granted : ∀ c, (c, true) ∈ s.returned → c ∈ s.granted
  late : s.late = []
  stray : s.stray = []

/-- Timeouts leave no trace in a run in which a call times out only after the master has
granted it and a thread begins a call only when no wake for it is under way. -/
theorem timeouts_leave_no_trace (dsm : Dsm) (acts : List Act) {s : State}
    (hok : Along (step dsm) Orderly start acts) (hrun : run (step dsm) start acts = some s) :
    NoTrace s := by
  obtain ⟨place, hs⟩ := inv_run hok hrun
  exact ⟨hs.returned_true, hs.late, hs.stray⟩

/-- A semaphore with one permit. -/
def onePermit : Dsm := fun id _ => if id = 1 then 1 else 0

/-- A thread acquires the permit and times out while its wake is under way; when the wake has
arrived, it releases the permit and acquires it again. -/
def lateWake : List Act :=
  [.call ⟨1, 1⟩ (.enterSemaphore 1) 5, .send ⟨1, 1⟩, .deliver 1, .timeout ⟨1, 1⟩, .wake 1,
    .post ⟨1, 1⟩ (.leaveSemaphore 1), .call ⟨1, 1⟩ (.enterSemaphore 1) 5, .send ⟨1, 1⟩, .deliver 1,
    .deliver 1, .wake 1, .ret ⟨1, 1⟩]

theorem timeouts_leave_no_trace_lateWake :
    ∃ s, run (step onePermit) start lateWake = some s ∧
      s.returned = [(⟨⟨1, 1⟩, 1⟩, false), (⟨⟨1, 1⟩, 2⟩, true)] ∧ NoTrace s := by
  have hreturned : (run (step onePermit) start lateWake).map State.returned =
      some [(⟨⟨1, 1⟩, 1⟩, false), (⟨⟨1, 1⟩, 2⟩, true)] := by decide +kernel
  obtain ⟨s, hs, hret⟩ := Option.map_eq_some_iff.mp hreturned
  have hok : Along (step onePermit) Orderly start lateWake := by
    apply along_of_check
    decide +kernel
  exact ⟨s, hs, hret, timeouts_leave_no_trace onePermit lateWake hok hs⟩

/-- A thread times out on a semaphore, then waits for an event. A release finds the thread's
old entry in the queue, spends its permit on it, and the wake ends the wait for the event. -/
theorem stale_entry_woken :
    ¬∀ (dsm : Dsm) (acts : List Act) (s : State), run (step dsm) start acts = some s → NoTrace s := by
  intro hall
  obtain ⟨acts, hacts⟩ : ∃ acts, acts = ([.call ⟨1, 1⟩ (.enterSemaphore 1) 5, .send ⟨1, 1⟩, .deliver 1,
    .timeout ⟨1, 1⟩, .call ⟨1, 1⟩ (.waitForEvent 2) (-1), .send ⟨1, 1⟩, .deliver 1,
    .post ⟨0, 1⟩ (.leaveSemaphore 1), .wake 1, .ret ⟨1, 1⟩] : List Act) := ⟨_, rfl⟩
  have hrun : (run (step fun _ _ => 0) start acts).map
      (fun s => (s.returned, s.granted, s.late, s.stray)) =
      some ([(⟨⟨1, 1⟩, 1⟩, false), (⟨⟨1, 1⟩, 2⟩, true)], [⟨⟨1, 1⟩, 1⟩], [⟨⟨1, 1⟩, 1⟩], [⟨⟨1, 1⟩, 1⟩]) := by
    rw [hacts]
    decide +kernel
  obtain ⟨s, hs, heq⟩ := Option.map_eq_some_iff.mp hrun
  have hlate := (hall _ _ s hs).late
  have hlate' : s.late = [⟨⟨1, 1⟩, 1⟩] := congrArg (fun x => x.2.2.1) heq
  rw [hlate'] at hlate
  cases hlate

end Dogee.SyncSystem
