import Dogee.SyncWaits

/-!
# The permits of a semaphore

Threads on any nodes guard a section of their programs with one semaphore: they acquire
it without a timeout and release it when they have acquired it. They may use any other
barriers, semaphores and events meanwhile, as any other threads may.

The state adds to the cluster what the threads do with the semaphore. A `Release` does
not wait, so a thread may be in its next call while the release is on its way; it is
then in front of the request of that call.
-/

namespace Dogee.SemaphoreUsers

open Transition SyncManager SyncSystem

/-- A semaphore with a permit, and the threads that use it. -/
structure Users (dsm : Dsm) where
  id : ObjectKey
  count : Nat
  count_eq : toInt (dsm id 0) = count
  count_pos : 0 < count
  users : List SyncThreadNode
  nodup : users.Nodup

structure State where
  sys : SyncSystem.State
  /-- the last call of the thread is an `Acquire` of the semaphore -/
  acquiring : SyncThreadNode → Bool
  /-- the thread has returned from `Acquire` and has not called `Release` -/
  inside : SyncThreadNode → Bool
  /-- the threads whose `Release` is on its way from a machine -/
  leaving : Nat → List SyncThreadNode

variable {dsm : Dsm} (b : Users dsm)

/-- What the threads do with the semaphore in a step of the cluster. -/
def note (s : State) (sys : SyncSystem.State) : Act → State
  | .call u op _ => { s with
      sys := sys
      acquiring := Function.update s.acquiring u (decide (op.object = b.id)) }
  | .ret u => { s with
      sys := sys
      inside := Function.update s.inside u (s.acquiring u || s.inside u) }
  | .post u op =>
      if op = .leaveSemaphore b.id then { s with
        sys := sys
        inside := Function.update s.inside u false
        leaving := if u.machine = 0 then s.leaving
          else Function.update s.leaving u.machine (s.leaving u.machine ++ [u]) }
      else { s with sys := sys }
  | .deliver machine =>
      if (s.sys.requests machine).head? = some (.post (.leaveSemaphore b.id)) then { s with
        sys := sys
        leaving := Function.update s.leaving machine (s.leaving machine).tail }
      else { s with sys := sys }
  | .send _ => { s with sys := sys }
  | .timeout _ => { s with sys := sys }
  | .wake _ => { s with sys := sys }

/-- One step. -/
def step (s : State) (a : Act) : Option State :=
  (SyncSystem.step dsm s.sys a).map fun sys => note b s sys a

def start : State := ⟨SyncSystem.start, fun _ => false, fun _ => false, fun _ => []⟩

/-- The threads acquire and release the semaphore in turn, and no call leaves a trace. -/
def Uses (s : State) : Act → Prop
  | .call u op timeout => Orderly s.sys (.call u op timeout) ∧
      (op.object = b.id → op = .enterSemaphore b.id ∧ u ∈ b.users ∧ s.inside u = false ∧ timeout < 0)
  | .timeout u => Orderly s.sys (.timeout u)
  | .post u op => op.object = b.id → op = .leaveSemaphore b.id ∧ s.inside u = true
  | _ => True

theorem orderly_of_uses {s : State} {a : Act} (h : Uses b s a) : Orderly s.sys a := by
  cases a with
  | call u op timeout => exact h.1
  | timeout u => exact h
  | send u => exact trivial
  | ret u => exact trivial
  | post u op => exact trivial
  | deliver machine => exact trivial
  | wake machine => exact trivial

/-! ## The permits -/

/-- The node of the semaphore, also before it is made. -/
def Users.node (m : Manager) : SyncNode := (m.syncData b.id).getD (newSemaphore b.count)

/-- The permits when `held` threads hold one and `queued` threads wait. A permit is lost
when the counter and the queue together are more than nothing. -/
structure Permits (m : Manager) (held queued : Nat) : Prop where
  balance : (held : Int) + (b.node m).val + queued = b.count
  free : 0 ≤ (b.node m).val + queued

/-- No permit has been lost, and one thread waits at most. -/
structure Tight (m : Manager) (queued : Nat) : Prop where
  one : queued ≤ 1
  used : 0 < queued → (b.node m).val = -1

variable {b} {m : Manager} {held queued : Nat}

theorem node_put (m : Manager) (node : SyncNode) : b.node (m.put b.id node) = node := by
  rw [Users.node, Manager.put_syncData, Option.getD_some]

theorem node_of_ne {m' : Manager} (h : m'.syncData b.id = m.syncData b.id) : b.node m' = b.node m := by
  rw [Users.node, h]
  rfl

/-- There are no more holders than permits. -/
theorem Permits.held_le (h : Permits b m held queued) : held ≤ b.count := by
  have hbalance := h.balance
  have hfree := h.free
  omega

/-- Who waits although no permit is lost, waits for all of them. -/
theorem Permits.held_eq (h : Permits b m held queued) (ht : Tight b m queued) (hqueued : 0 < queued) :
    held = b.count := by
  have hbalance := h.balance
  have hone := ht.one
  have hused := ht.used hqueued
  omega

theorem Tight.none : Tight b m 0 :=
  ⟨Nat.zero_le 1, fun hsome => absurd hsome (Nat.lt_irrefl 0)⟩

theorem Tight.none_of_ne (h : Tight b m queued) (hval : (b.node m).val ≠ -1) : queued = 0 := by
  by_contra hsome
  exact hval (h.used (Nat.pos_of_ne_zero hsome))

/-- The manager handles an `Acquire`. -/
theorem semaphoreMsg_spec (m : Manager) (u : SyncThreadNode) :
    let r := semaphoreMsg dsm m u.machine b.id u.threadId
    ((b.node r.1).val = (b.node m).val - 1 ∧ ∀ id, id ≠ b.id → r.1.syncData id = m.syncData id) ∧
      (0 < (b.node m).val → r.2 = [u]) ∧ ((b.node m).val ≤ 0 → r.2 = []) := by
  have hnode : (m.syncData b.id).getD (newSemaphore (toInt (dsm b.id 0))) = b.node m := by
    rw [b.count_eq]
    rfl
  simp only [semaphoreMsg, hnode]
  split
  · rename_i hfree
    refine ⟨⟨by rw [node_put], fun id hid => Function.update_of_ne hid ..⟩, fun _ => rfl, fun hle => ?_⟩
    omega
  · rename_i hfree
    refine ⟨⟨by rw [node_put], fun id hid => Function.update_of_ne hid ..⟩, fun hlt => ?_, fun _ => rfl⟩
    omega

/-- The manager handles a `Release`. -/
theorem semaphoreLeaveMsg_spec {r : Manager × List SyncThreadNode} (h : semaphoreLeaveMsg m b.id = some r) :
    ((b.node r.1).val = (b.node m).val + 1 ∧ ∀ id, id ≠ b.id → r.1.syncData id = m.syncData id) ∧
      (-1 ≤ (b.node m).val → r.2 = (waitingOf m b.id).take 1) ∧ ((b.node m).val < -1 → r.2 = []) := by
  obtain ⟨node, hnode, rfl⟩ := Option.map_eq_some_iff.mp h
  have heq : b.node m = node := by
    rw [Users.node, hnode]
    rfl
  have hwaiting : waitingOf m b.id = node.waiting := by
    rw [waitingOf, hnode]
    rfl
  rw [heq, hwaiting]
  dsimp only
  split
  · rename_i hfree
    cases hw : node.waiting with
    | nil =>
        refine ⟨⟨by rw [node_put], fun id hid => Function.update_of_ne hid ..⟩, fun _ => rfl, fun hlt => ?_⟩
        omega
    | cons th rest =>
        refine ⟨⟨by rw [node_put], fun id hid => Function.update_of_ne hid ..⟩, fun _ => rfl, fun hlt => ?_⟩
        omega
  · rename_i hfree
    refine ⟨⟨by rw [node_put], fun id hid => Function.update_of_ne hid ..⟩, fun hle => ?_, fun _ => rfl⟩
    omega

/-- An `Acquire` that finds a permit takes it. -/
theorem Permits.take {m' : Manager} (h : Permits b m held queued) (hval : (b.node m').val = (b.node m).val - 1)
    (hpos : 0 < (b.node m).val) : Permits b m' (held + 1) queued := by
  have hbalance := h.balance
  constructor
  · rw [hval]
    push_cast
    omega
  · rw [hval]
    omega

/-- An `Acquire` that finds none waits. -/
theorem Permits.wait {m' : Manager} (h : Permits b m held queued) (hval : (b.node m').val = (b.node m).val - 1) :
    Permits b m' held (queued + 1) := by
  have hbalance := h.balance
  have hfree := h.free
  constructor
  · rw [hval]
    push_cast
    omega
  · rw [hval]
    push_cast
    omega

/-- A `Release` hands the permit to a thread that waits. -/
theorem Permits.hand {m' : Manager} (h : Permits b m (held + 1) (queued + 1))
    (hval : (b.node m').val = (b.node m).val + 1) : Permits b m' (held + 1) queued := by
  have hbalance := h.balance
  have hfree := h.free
  push_cast at hbalance hfree
  constructor
  · rw [hval]
    push_cast
    omega
  · rw [hval]
    omega

/-- A `Release` wakes nobody. -/
theorem Permits.give {m' : Manager} (h : Permits b m (held + 1) queued)
    (hval : (b.node m').val = (b.node m).val + 1) : Permits b m' held queued := by
  have hbalance := h.balance
  have hfree := h.free
  push_cast at hbalance
  constructor
  · rw [hval]
    omega
  · rw [hval]
    omega

/-! ## Releases on their way -/

/-- The releases on their way from a machine are those of the threads in the list, in this
order, and none of them is behind the request of a call of its thread. -/
inductive Behind (id : ObjectKey) : List Request → List SyncThreadNode → Prop
  | nil : Behind id [] []
  | release (u : SyncThreadNode) {rs us} : Behind id rs us → Behind id (.post (.leaveSemaphore id) :: rs) (u :: us)
  | post {op rs us} : op ≠ .leaveSemaphore id → Behind id rs us → Behind id (.post op :: rs) us
  | wait {op c rs us} : c.thread ∉ us → Behind id rs us → Behind id (.wait op c :: rs) us

variable {id : ObjectKey} {rs : List Request} {us : List SyncThreadNode}

/-- The request of a call is sent. -/
theorem Behind.concat_wait (h : Behind id rs us) (op : WaitOp) (c : Call) : Behind id (rs ++ [.wait op c]) us := by
  induction h with
  | nil => exact Behind.wait List.not_mem_nil Behind.nil
  | release u _ ih => exact Behind.release u ih
  | post hop _ ih => exact Behind.post hop ih
  | wait hc _ ih => exact Behind.wait hc ih

/-- A request that is no release is sent. -/
theorem Behind.concat_post (h : Behind id rs us) {op : PostOp} (hop : op ≠ .leaveSemaphore id) :
    Behind id (rs ++ [.post op]) us := by
  induction h with
  | nil => exact Behind.post hop Behind.nil
  | release u _ ih => exact Behind.release u ih
  | post hop' _ ih => exact Behind.post hop' ih
  | wait hc _ ih => exact Behind.wait hc ih

/-- A thread of which no request is on its way sends a release. -/
theorem Behind.concat_release (h : Behind id rs us) {u : SyncThreadNode} (hu : ∀ c ∈ callsOf rs, c.thread ≠ u) :
    Behind id (rs ++ [.post (.leaveSemaphore id)]) (us ++ [u]) := by
  induction h with
  | nil => exact Behind.release u Behind.nil
  | release v _ ih => exact Behind.release v (ih hu)
  | post hop _ ih => exact Behind.post hop (ih hu)
  | @wait op c rs us hc _ ih =>
      refine Behind.wait ?_ (ih fun c' hc' => hu c' (List.mem_cons_of_mem c hc'))
      rw [List.mem_append, not_or, List.mem_singleton]
      exact ⟨hc, hu c List.mem_cons_self⟩

theorem behind_nil (h : Behind id [] us) : us = [] := by
  cases h
  rfl

theorem Behind.of_wait {op : WaitOp} {c : Call} (h : Behind id (.wait op c :: rs) us) :
    c.thread ∉ us ∧ Behind id rs us := by
  cases h with
  | wait hc hrest => exact ⟨hc, hrest⟩

theorem Behind.of_release (h : Behind id (.post (.leaveSemaphore id) :: rs) us) :
    ∃ u, us = u :: us.tail ∧ Behind id rs us.tail := by
  cases h with
  | release u hrest => exact ⟨u, rfl, hrest⟩
  | post hop _ => exact absurd rfl hop

theorem Behind.of_post {op : PostOp} (h : Behind id (.post op :: rs) us) (hop : op ≠ .leaveSemaphore id) :
    Behind id rs us := by
  cases h with
  | release u _ => exact absurd rfl hop
  | post _ hrest => exact hrest

/-! ## What a message does to the cluster -/

/-- The master has handled a message about `id`: the calls in `woken` are granted, those in
`left` wait. -/
structure Served (id : ObjectKey) (left woken : List Call) (s s' : SyncSystem.State) : Prop where
  threads : s'.threads = s.threads
  requests : s'.requests = s.requests
  queued : s'.queued = Function.update s.queued id left
  granted : s'.granted = s.granted ++ woken

variable {s s' : SyncSystem.State} {place : SyncThreadNode → Place} {c : Call} {left woken : List Call}

theorem Served.current (h : Served id left woken s s') (u : SyncThreadNode) : s'.current u = s.current u := by
  rw [SyncSystem.State.current, h.threads]
  rfl

theorem serveWait_served (hs : Inv place [c] s) (op : WaitOp) {r : Manager × List SyncThreadNode}
    (hr : r = waitMsg dsm s.manager c.thread.machine c.thread.threadId op) :
    Served op.object (if r.2 = [] then s.queued op.object ++ [c] else (s.queued op.object).drop (r.2.length - 1))
        ((c :: s.queued op.object).take r.2.length) s (serveWait dsm s c.thread.machine op c) ∧
      (serveWait dsm s c.thread.machine op c).manager = r.1 ∧
      (serveWait dsm s c.thread.machine op c).arrived = s.arrived ++ [c] := by
  have htags := hs.tags op.object
  have hwoken : r.2 = ((c :: s.queued op.object).take r.2.length).map Call.thread := by
    obtain ⟨-, hcase⟩ := waitMsg_waits dsm s.manager c.thread.machine c.thread.threadId op
    rw [← hr] at hcase
    rcases hcase with ⟨hnil, -⟩ | ⟨n, hn, hcons, -⟩
    · rw [hnil]
      rfl
    · have hlen : r.2.length = n + 1 := by
        rw [hcons, List.length_cons, List.length_take, Nat.min_eq_left hn]
      rw [hlen, List.take_succ_cons, List.map_cons, List.map_take, htags]
      exact hcons
  simp only [serveWait, ← hr]
  rw [wakeAll_eq _ hwoken]
  obtain ⟨hthreads, hmanager, hrequests, hqueued, harrived, -, hgranted⟩ :=
    wakeAll_same ((c :: s.queued op.object).take r.2.length) { s with
      manager := r.1
      arrived := s.arrived ++ [c]
      queued := Function.update s.queued op.object
        (if r.2 = [] then s.queued op.object ++ [c] else (s.queued op.object).drop (r.2.length - 1)) }
  exact ⟨⟨hthreads, hrequests, hqueued, hgranted⟩, hmanager, harrived⟩

theorem servePost_served (hs : Inv place [] s) {op : PostOp} (h : servePost dsm s op = some s') :
    ∃ r, postMsg dsm s.manager op = some r ∧
      Served op.object ((s.queued op.object).drop r.2.length) ((s.queued op.object).take r.2.length) s s' ∧
      s'.manager = r.1 ∧ s'.arrived = s.arrived := by
  obtain ⟨r, hr, rfl⟩ := Option.map_eq_some_iff.mp h
  obtain ⟨-, n, hn, hwoken, -⟩ := postMsg_posts hr
  have htags := hs.tags op.object
  have hlen : r.2.length = n := by
    rw [hwoken, List.length_take, Nat.min_eq_left hn]
  refine ⟨r, hr, ?_⟩
  dsimp only
  rw [wakeAll_eq]
  · obtain ⟨hthreads, hmanager, hrequests, hqueued, harrived, -, hgranted⟩ :=
      wakeAll_same ((s.queued op.object).take r.2.length) { s with
        manager := r.1
        queued := Function.update s.queued op.object ((s.queued op.object).drop r.2.length) }
    exact ⟨⟨hthreads, hrequests, hqueued, hgranted⟩, hmanager, harrived⟩
  · rw [hlen, List.map_take, htags, hwoken]

/-- A message about another object leaves the semaphore alone. -/
theorem waitMsg_other (m : Manager) (src threadId : Nat) {op : WaitOp} (h : op.object ≠ b.id) :
    (waitMsg dsm m src threadId op).1.syncData b.id = m.syncData b.id := by
  cases op with
  | enterBarrier id =>
      simp only [waitMsg, barrierMsg]
      split <;> exact Function.update_of_ne (Ne.symm h) ..
  | enterSemaphore id =>
      simp only [waitMsg, semaphoreMsg]
      split <;> exact Function.update_of_ne (Ne.symm h) ..
  | waitForEvent id =>
      simp only [waitMsg, eventWaitMsg]
      split <;> exact Function.update_of_ne (Ne.symm h) ..

theorem postMsg_other {op : PostOp} (h : op.object ≠ b.id) {r : Manager × List SyncThreadNode}
    (hr : postMsg dsm m op = some r) : r.1.syncData b.id = m.syncData b.id := by
  cases op with
  | leaveSemaphore id =>
      obtain ⟨node, -, rfl⟩ := Option.map_eq_some_iff.mp hr
      dsimp only
      split
      · split <;> exact Function.update_of_ne (Ne.symm h) ..
      · exact Function.update_of_ne (Ne.symm h) ..
  | setEvent id =>
      obtain rfl := Option.some.inj hr
      simp only [setEventMsg]
      split
      · split <;> exact Function.update_of_ne (Ne.symm h) ..
      · exact Function.update_of_ne (Ne.symm h) ..
  | resetEvent id =>
      obtain rfl := Option.some.inj hr
      exact Function.update_of_ne (Ne.symm h) ..

end Dogee.SemaphoreUsers
