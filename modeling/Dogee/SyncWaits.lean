import Dogee.SyncCalls

/-!
# No wait is lost

The call of a thread that waits is in one of these places: its request is on its
way to the master, or it is in a wait list, or the master has woken it, and then
its wake is on its way or its event is set. Where nothing is on its way, the
threads that wait for the master are the threads of the wait lists.
-/

namespace Dogee.SyncSystem

open SyncManager Transition

variable {place : SyncThreadNode → Place} {held calls : List Call} {s s' : State} {u : SyncThreadNode} {c : Call}
  {dsm : Dsm}

/-- Where a call is; `held` are the calls that the master is about to wake. -/
def Located (held : List Call) (s : State) (c : Call) : Prop :=
  c ∈ callsOf (s.requests c.thread.machine) ∨ (∃ id, c ∈ s.queued id) ∨ c ∈ held ∨ s.event c.thread = true ∨
    (c.thread.threadId, c) ∈ s.wakes c.thread.machine

/-- The call of each waiting thread is somewhere. -/
def Accounted (held : List Call) (s : State) : Prop :=
  ∀ u timeout, (s.threads u).phase = .waiting timeout → Located held s (s.current u)

/-- The master goes on, and the threads stay where they are. -/
theorem Accounted.of_threads (h : Accounted held s) (hthreads : s'.threads = s.threads)
    (hlocated : ∀ c, Located held s c → Located calls s' c) : Accounted calls s' := by
  intro u timeout hphase
  rw [hthreads] at hphase
  have hcurrent : s'.current u = s.current u := by
    rw [State.current, hthreads]
    rfl
  rw [hcurrent]
  exact hlocated _ (h u timeout hphase)

/-- One thread moves on, and no other place changes. -/
theorem Accounted.setThread (h : Accounted held s) {th : Thread}
    (hthreads : s'.threads = Function.update s.threads u th)
    (hself : ∀ timeout, th.phase = .waiting timeout → Located calls s' (s'.current u))
    (hother : ∀ c, c.thread ≠ u → Located held s c → Located calls s' c) : Accounted calls s' := by
  intro v timeout hphase
  by_cases hv : v = u
  · subst hv
    rw [hthreads, Function.update_self] at hphase
    exact hself timeout hphase
  · have hsame : s'.threads v = s.threads v := by
      rw [hthreads, Function.update_of_ne hv]
    have hcurrent : s'.current v = s.current v := by
      rw [State.current, hsame]
      rfl
    rw [hsame] at hphase
    rw [hcurrent]
    exact hother _ hv (h v timeout hphase)

/-! ## The master wakes calls -/

theorem located_rcWakeRemoteThread (c' : Call) (h : Located (c :: held) s c') :
    Located held (s.rcWakeRemoteThread c.thread c) c' := by
  by_cases hmaster : c.thread.machine = 0
  · have hevent : (s.rcWakeRemoteThread c.thread c).event = Function.update s.event c.thread true := by
      rw [State.rcWakeRemoteThread, if_pos hmaster]
      rfl
    have hrest : (s.rcWakeRemoteThread c.thread c).requests = s.requests ∧
        (s.rcWakeRemoteThread c.thread c).queued = s.queued ∧
        (s.rcWakeRemoteThread c.thread c).wakes = s.wakes := by
      rw [State.rcWakeRemoteThread, if_pos hmaster]
      exact ⟨rfl, rfl, rfl⟩
    unfold Located
    rw [hrest.1, hrest.2.1, hrest.2.2, hevent]
    by_cases hthread : c'.thread = c.thread
    · rw [hthread, Function.update_self]
      exact Or.inr (Or.inr (Or.inr (Or.inl rfl)))
    · rw [Function.update_of_ne hthread]
      refine h.imp_right (Or.imp_right fun hmem => ?_)
      rcases hmem with hheld | hrest
      · left
        apply (List.mem_cons.mp hheld).resolve_left
        rintro rfl
        exact hthread rfl
      · exact Or.inr hrest
  · have hwakes : (s.rcWakeRemoteThread c.thread c).wakes = Function.update s.wakes c.thread.machine
        (s.wakes c.thread.machine ++ [(c.thread.threadId, c)]) := by
      rw [State.rcWakeRemoteThread, if_neg hmaster]
    have hrest : (s.rcWakeRemoteThread c.thread c).requests = s.requests ∧
        (s.rcWakeRemoteThread c.thread c).queued = s.queued ∧
        (s.rcWakeRemoteThread c.thread c).event = s.event := by
      rw [State.rcWakeRemoteThread, if_neg hmaster]
      exact ⟨rfl, rfl, rfl⟩
    have hmore : ∀ m, ∀ x ∈ s.wakes m, x ∈ Function.update s.wakes c.thread.machine
        (s.wakes c.thread.machine ++ [(c.thread.threadId, c)]) m := by
      intro m x hx
      by_cases hm : m = c.thread.machine
      · subst hm
        rw [Function.update_self]
        exact List.mem_append_left _ hx
      · rwa [Function.update_of_ne hm]
    unfold Located
    rw [hrest.1, hrest.2.1, hrest.2.2, hwakes]
    rcases h with hsent | hqueued | hheld | hevent | hwake
    · exact Or.inl hsent
    · exact Or.inr (Or.inl hqueued)
    · rcases List.mem_cons.mp hheld with rfl | hheld
      · refine Or.inr (Or.inr (Or.inr (Or.inr ?_)))
        rw [Function.update_self]
        exact List.mem_append_right _ List.mem_cons_self
      · exact Or.inr (Or.inr (Or.inl hheld))
    · exact Or.inr (Or.inr (Or.inr (Or.inl hevent)))
    · exact Or.inr (Or.inr (Or.inr (Or.inr (hmore _ _ hwake))))

theorem located_wakeAll (c' : Call) (h : Located calls s c') :
    Located [] (calls.foldl (fun s c => s.rcWakeRemoteThread c.thread c) s) c' := by
  induction calls generalizing s with
  | nil => exact h
  | cons c rest ih => exact ih (located_rcWakeRemoteThread c' h)

/-- One wait list changes, and some of its calls are taken in hand. -/
theorem Located.requeue (h : Located held s c) {s₁ : State} (hrequests : s₁.requests = s.requests)
    (hevent : s₁.event = s.event) (hwakes : s₁.wakes = s.wakes) {id : ObjectKey} {left : List Call}
    (hqueued : s₁.queued = Function.update s.queued id left)
    (hleft : ∀ c, c ∈ s.queued id ∨ c ∈ held → c ∈ left ∨ c ∈ calls) : Located calls s₁ c := by
  unfold Located
  rw [hrequests, hevent, hwakes, hqueued]
  have htake : c ∈ s.queued id ∨ c ∈ held → (∃ id', c ∈ Function.update s.queued id left id') ∨ c ∈ calls := by
    intro hmem
    rcases hleft c hmem with hmem | hmem
    · left
      exact ⟨id, by rwa [Function.update_self]⟩
    · exact Or.inr hmem
  rcases h with hsent | ⟨id', hmem⟩ | hheld | hrest
  · exact Or.inl hsent
  · by_cases hid : id' = id
    · subst hid
      exact Or.inr ((htake (Or.inl hmem)).imp_right Or.inl)
    · exact Or.inr (Or.inl ⟨id', by rwa [Function.update_of_ne hid]⟩)
  · exact Or.inr ((htake (Or.inr hheld)).imp_right Or.inl)
  · exact Or.inr (Or.inr (Or.inr hrest))

/-- The master handles the request of a call. -/
theorem accounted_serveWait (hs : Inv place [c] s) (h : Accounted [c] s) (op : WaitOp) :
    Accounted [] (serveWait dsm s c.thread.machine op c) := by
  have htags := hs.tags op.object
  obtain ⟨-, hcase⟩ := waitMsg_waits dsm s.manager c.thread.machine c.thread.threadId op
  obtain ⟨r, hr⟩ : ∃ r, r = waitMsg dsm s.manager c.thread.machine c.thread.threadId op := ⟨_, rfl⟩
  rw [← hr] at hcase
  simp only [serveWait, ← hr]
  rcases hcase with ⟨hwoken, -⟩ | ⟨n, hn, hwoken, -⟩
  · rw [hwoken, if_pos rfl]
    refine h.of_threads rfl fun c' hc' => hc'.requeue rfl rfl rfl rfl ?_
    rintro c'' (hmem | hmem)
    · exact Or.inl (List.mem_append_left _ hmem)
    · exact Or.inl (List.mem_append_right _ hmem)
  · have hlen : r.2.length = n + 1 := by
      rw [hwoken, List.length_cons, List.length_take, Nat.min_eq_left hn]
    have hne : r.2 ≠ [] := by
      rw [hwoken]
      exact List.cons_ne_nil _ _
    rw [if_neg hne, hlen, Nat.add_sub_cancel, wakeAll_eq]
    · rw [hlen, List.take_succ_cons]
      have hsame := wakeAll_same (c :: (s.queued op.object).take n) { s with
        manager := r.1
        arrived := s.arrived ++ [c]
        queued := Function.update s.queued op.object ((s.queued op.object).drop n) }
      refine h.of_threads hsame.1 fun c' hc' => located_wakeAll c' (hc'.requeue rfl rfl rfl rfl ?_)
      rintro c'' (hmem | hmem)
      · rw [← List.take_append_drop n (s.queued op.object), List.mem_append] at hmem
        exact hmem.symm.imp_right (List.mem_cons_of_mem c)
      · rw [List.mem_singleton.mp hmem]
        exact Or.inr List.mem_cons_self
    · rw [hlen, List.take_succ_cons, List.map_cons, List.map_take, htags, hwoken]

/-- The master handles a request that does not wait. -/
theorem accounted_servePost (hs : Inv place [] s) (h : Accounted [] s) {op : PostOp}
    (hpost : servePost dsm s op = some s') : Accounted [] s' := by
  obtain ⟨r, hr, rfl⟩ := Option.map_eq_some_iff.mp hpost
  obtain ⟨-, n, hn, hwoken, -⟩ := postMsg_posts hr
  have htags := hs.tags op.object
  have hlen : r.2.length = n := by
    rw [hwoken, List.length_take, Nat.min_eq_left hn]
  dsimp only
  rw [wakeAll_eq]
  · rw [hlen]
    have hsame := wakeAll_same ((s.queued op.object).take n) { s with
      manager := r.1
      queued := Function.update s.queued op.object ((s.queued op.object).drop n) }
    refine h.of_threads hsame.1 fun c' hc' => located_wakeAll c' (hc'.requeue rfl rfl rfl rfl ?_)
    rintro c'' (hmem | hmem)
    · rw [← List.take_append_drop n (s.queued op.object), List.mem_append] at hmem
      exact hmem.symm
    · cases hmem
  · rw [hlen, List.map_take, htags, hwoken]

/-! ## Steps -/

/-- A message to the master is added. -/
theorem located_send {machine : Nat} {r : Request} (h : Located held s c) : Located held (send s machine r) c := by
  refine h.imp_left fun hmem => ?_
  rw [send, callsOf_update]
  split
  · rename_i hm
    rw [callsOf_append, ← hm]
    exact List.mem_append_left _ hmem
  · exact hmem

/-- The master takes a message off a connection. -/
theorem located_take {machine : Nat} {r : Request} {rest : List Request} (h : Located [] s c)
    (hrequests : s.requests machine = r :: rest) (hheld : ∀ op c', r = .wait op c' → c' ∈ held) :
    Located held { s with requests := Function.update s.requests machine rest } c := by
  rcases h with hsent | hqueued | hnone | hwoken
  · by_cases hm : c.thread.machine = machine
    · rw [hm, hrequests] at hsent
      cases r with
      | wait op c' =>
          rcases List.mem_cons.mp hsent with rfl | hrest
          · exact Or.inr (Or.inr (Or.inl (hheld op c rfl)))
          · left
            rw [callsOf_update, if_pos hm]
            exact hrest
      | post op =>
          left
          rw [callsOf_update, if_pos hm]
          exact hsent
    · left
      rw [callsOf_update, if_neg hm]
      exact hsent
  · exact Or.inr (Or.inl hqueued)
  · cases hnone
  · exact Or.inr (Or.inr (Or.inr hwoken))

/-- A thread sends its request, or hands its call to the manager. -/
theorem accounted_send (hs : Inv place [] s) (h : Accounted [] s) {op : WaitOp} {timeout : Int}
    (hphase : (s.threads u).phase = .entering op timeout) {s₁ : State}
    (hs₁ : s₁ = s.setThread u { s.threads u with phase := .waiting timeout }) :
    Accounted [] (if u.machine = 0 then serveWait dsm s₁ 0 op (s₁.current u)
      else send s₁ u.machine (.wait op (s₁.current u))) := by
  have hthreads : s₁.threads = Function.update s.threads u { s.threads u with phase := .waiting timeout } := by
    rw [hs₁]
    rfl
  have hother : ∀ held c, Located [] s c → Located held s₁ c := by
    intro held c hc
    rw [hs₁]
    exact hc.imp_right (Or.imp_right (Or.imp_left fun hnone => absurd hnone List.not_mem_nil))
  split
  · rename_i hmaster
    have hserve : Accounted [] (serveWait dsm s₁ (s₁.current u).thread.machine op (s₁.current u)) :=
      accounted_serveWait (inv_hold hs hphase hs₁)
        (h.setThread hthreads (fun _ _ => Or.inr (Or.inr (Or.inl List.mem_cons_self))) fun c _ => hother _ c) op
    rwa [show (s₁.current u).thread.machine = 0 from hmaster] at hserve
  · have hlast : s₁.current u ∈
        callsOf ((send s₁ u.machine (.wait op (s₁.current u))).requests u.machine) := by
      rw [send, callsOf_update, if_pos rfl, callsOf_append]
      exact List.mem_append_right _ List.mem_cons_self
    exact h.setThread (u := u) hthreads (fun _ _ => Or.inl hlast) fun c _ hc => located_send (hother [] c hc)

theorem accounted_step (hs : Inv place [] s) (h : Accounted [] s) {a : Act} (hstep : step dsm s a = some s') :
    Accounted [] s' := by
  cases a with
  | call u op timeout =>
      simp only [step] at hstep
      split at hstep
      · obtain rfl := Option.some.inj hstep
        refine h.setThread (u := u) rfl (fun timeout hphase => by cases hphase) fun c hc hlocated => ?_
        refine hlocated.imp_right (Or.imp_right (Or.imp_right (Or.imp_left fun hevent => ?_)))
        show Function.update s.event u false c.thread = true
        rwa [Function.update_of_ne hc]
      · cases hstep
  | send u =>
      simp only [step] at hstep
      split at hstep
      · rename_i op timeout hphase
        obtain rfl := Option.some.inj hstep
        exact accounted_send hs h hphase rfl
      · cases hstep
  | ret u =>
      simp only [step] at hstep
      split at hstep
      · split at hstep
        · obtain rfl := Option.some.inj hstep
          exact h.setThread (u := u) rfl (fun timeout hphase => by cases hphase) fun _ _ hc => hc
        · cases hstep
      · cases hstep
  | timeout u =>
      simp only [step] at hstep
      split at hstep
      · split at hstep
        · obtain rfl := Option.some.inj hstep
          exact h.setThread (u := u) rfl (fun timeout hphase => by cases hphase) fun _ _ hc => hc
        · cases hstep
      · cases hstep
  | post u op =>
      simp only [step] at hstep
      split at hstep
      · split at hstep
        · exact accounted_servePost hs h hstep
        · obtain rfl := Option.some.inj hstep
          exact h.of_threads rfl fun _ hc => located_send hc
      · cases hstep
  | deliver machine =>
      simp only [step] at hstep
      split at hstep
      · cases hstep
      · rename_i r rest hrequests
        cases r with
        | wait op c =>
            obtain rfl := Option.some.inj hstep
            obtain ⟨rfl, hs'⟩ := inv_takeWait hs hrequests
            refine accounted_serveWait hs' (h.of_threads rfl fun _ hc => located_take hc hrequests ?_) op
            intro op' c' heq
            cases heq
            exact List.mem_cons_self
        | post op =>
            have hs' : Inv place [] { s with requests := Function.update s.requests machine rest } := by
              apply hs.setRequests_same
              rw [hrequests]
              rfl
            exact accounted_servePost hs' (h.of_threads rfl fun _ hc => located_take hc hrequests fun _ _ heq => by cases heq) hstep
  | wake machine =>
      simp only [step] at hstep
      split at hstep
      · cases hstep
      · rename_i threadId c rest hwakes
        obtain rfl := Option.some.inj hstep
        refine h.of_threads rfl fun c' hc' => ?_
        rcases hc' with hsent | hqueued | hnone | hevent | hwake
        · exact Or.inl hsent
        · exact Or.inr (Or.inl hqueued)
        · cases hnone
        · refine Or.inr (Or.inr (Or.inr (Or.inl ?_)))
          simp only [State.rcSetRemoteEvent, Function.update_apply]
          split
          · rfl
          · exact hevent
        · refine Or.inr (Or.inr (Or.inr ?_))
          simp only [State.rcSetRemoteEvent]
          by_cases hm : c'.thread.machine = machine
          · rw [hm, hwakes] at hwake
            rcases List.mem_cons.mp hwake with heq | hrest
            · left
              obtain ⟨hid, -⟩ := Prod.mk.inj heq
              rw [← hm, ← hid]
              exact Function.update_self ..
            · right
              rw [hm, Function.update_self]
              exact hrest
          · right
            rwa [Function.update_of_ne hm]

/-- Nothing is on its way, and no event is set for a thread that waits. -/
structure Still (s : State) : Prop where
  requests : ∀ m, s.requests m = []
  wakes : ∀ m, s.wakes m = []
  event : ∀ u timeout, (s.threads u).phase = .waiting timeout → s.event u = false

theorem Still.queued_of_waiting (h : Still s) (haccounted : Accounted [] s) {timeout : Int}
    (hphase : (s.threads u).phase = .waiting timeout) : ∃ id, s.current u ∈ s.queued id := by
  rcases haccounted u timeout hphase with hsent | hqueued | hnone | hevent | hwake
  · rw [h.requests] at hsent
    cases hsent
  · exact hqueued
  · cases hnone
  · have hfalse := h.event u timeout hphase
    rw [show (s.current u).thread = u from rfl, hfalse] at hevent
    cases hevent
  · rw [h.wakes] at hwake
    cases hwake

theorem accounted_run {acts : List Act} (hok : Along (step dsm) Orderly start acts)
    (hrun : run (step dsm) start acts = some s) : (∃ place, Inv place [] s) ∧ Accounted [] s := by
  have hstep : ∀ s a s', (∃ place, Inv place [] s) ∧ Accounted [] s → Orderly s a → step dsm s a = some s' →
      (∃ place, Inv place [] s') ∧ Accounted [] s' := by
    rintro s a s' ⟨hs, h⟩ hok hstep
    refine ⟨inv_step hs hok hstep, ?_⟩
    obtain ⟨place, hs⟩ := hs
    exact accounted_step hs h hstep
  apply invariant_run hstep ⟨⟨_, inv_start⟩, ?_⟩ hok hrun
  exact fun u timeout hphase => nomatch hphase

/-- In every run in which a call times out only after the master has granted it and a
thread begins a call only when no wake for it is under way, the wait lists of all
barriers, semaphores and events have no thread twice, in one list or in two, and each
of their threads waits in a call that the master has not granted. Where nothing is on
its way, every thread that waits is in one of them: no request and no wake is lost. -/
theorem waiting_threads_listed (dsm : Dsm) (acts : List Act) {s : State}
    (hok : Along (step dsm) Orderly start acts) (hrun : run (step dsm) start acts = some s) :
    (∀ id, (waitingOf s.manager id).Nodup) ∧
    (∀ id id', ∀ u ∈ waitingOf s.manager id, u ∈ waitingOf s.manager id' → id = id') ∧
    (∀ id, ∀ u ∈ waitingOf s.manager id,
      (∃ timeout, (s.threads u).phase = .waiting timeout) ∧ s.current u ∉ s.granted) ∧
    (Still s → ∀ u timeout, (s.threads u).phase = .waiting timeout → ∃ id, u ∈ waitingOf s.manager id) := by
  obtain ⟨⟨place, hs⟩, haccounted⟩ := accounted_run hok hrun
  have hlisted : ∀ id, ∀ u ∈ waitingOf s.manager id, s.current u ∈ s.queued id := by
    intro id u hu
    rw [← hs.tags id] at hu
    obtain ⟨c, hc, rfl⟩ := List.mem_map.mp hu
    rwa [(hs.queued id c hc).1.current]
  refine ⟨fun id => ?_, fun id id' u hu hu' => ?_, fun id u hu => ?_, fun hstill u timeout hphase => ?_⟩
  · rw [← hs.tags id]
    apply (hs.nodup_queued id).map_on
    intro c hc c' hc' heq
    rw [← (hs.queued id c hc).1.current, ← (hs.queued id c' hc').1.current, heq]
  · have hplace := (hs.queued id _ (hlisted id u hu)).2
    have hplace' := (hs.queued id' _ (hlisted id' u hu')).2
    exact Place.queued.inj (hplace.symm.trans hplace')
  · have hpending := (hs.queued id _ (hlisted id u hu)).1
    exact ⟨hpending.waiting, hpending.open_⟩
  · obtain ⟨id, hmem⟩ := hstill.queued_of_waiting haccounted hphase
    refine ⟨id, ?_⟩
    rw [← hs.tags id]
    exact List.mem_map_of_mem hmem

/-- Two threads acquire a semaphore with one permit; the second one stays in its list. -/
def secondWaits : List Act :=
  [.call ⟨1, 1⟩ (.enterSemaphore 1) 5, .send ⟨1, 1⟩, .call ⟨2, 1⟩ (.enterSemaphore 1) (-1), .deliver 1, .send ⟨2, 1⟩,
    .deliver 2, .wake 1, .ret ⟨1, 1⟩]

theorem secondWaits_listed : ∃ s, run (step onePermit) start secondWaits = some s ∧
    (s.threads ⟨2, 1⟩).phase = .waiting (-1) ∧ (Still s → ∃ id, ⟨2, 1⟩ ∈ waitingOf s.manager id) := by
  have hphase : (run (step onePermit) start secondWaits).map (fun s => (s.threads ⟨2, 1⟩).phase) =
      some (.waiting (-1)) := by
    decide +kernel
  obtain ⟨s, hs, hwaiting⟩ := Option.map_eq_some_iff.mp hphase
  have hok : Along (step onePermit) Orderly start secondWaits := by
    apply along_of_check
    decide +kernel
  exact ⟨s, hs, hwaiting, fun hstill =>
    (waiting_threads_listed onePermit secondWaits hok hs).2.2.2 hstill _ _ hwaiting⟩

end Dogee.SyncSystem
