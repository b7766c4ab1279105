import Dogee.ThreadPool

/-!
# The events of the pool

An event of the pool belongs to one submission at a time, from where it is found to where `Wait` gives it
back. Its job sets it once and its `Wait` is granted once, and the grant needs the `Set`: so when the
event goes back, nothing about it is under way and it is not signalled. A `Wait` that has timed out
before its grant gives back an event whose job still runs.
-/

namespace Dogee.ThreadPool

open Transition SyncManager SyncSystem

/-! ## What a step does -/

/-- The steps of the pool; those of the cluster are left as they are. -/
inductive Moves (home maxWaitEvents : Nat) (s : Pool) : Pool.Act → Pool → Prop
  | newEvent {k : Nat} {e : ObjectKey} (houtside : (s.submissions k).finder = .outside) (hnew : e ∉ s.events) :
      Moves home maxWaitEvents s (.newEvent k e)
        { s.setSubmission k { s.submissions k with finder := .found e } with events := s.events ++ [e] }
  | park {k : Nat} (houtside : (s.submissions k).finder = .outside) :
      Moves home maxWaitEvents s (.park k) (s.setSubmission k { s.submissions k with finder := .parked })
  | permit {k : Nat} (hparked : (s.submissions k).finder = .parked) :
      Moves home maxWaitEvents s (.permit k)
        { s.setSubmission k { s.submissions k with finder := .permitted } with semLock := s.semLock - 1 }
  | take {k : Nat} {e : ObjectKey} {rest : List ObjectKey} (hpermitted : (s.submissions k).finder = .permitted)
      (hqueue : s.eventQueue = e :: rest) :
      Moves home maxWaitEvents s (.take k)
        { s.setSubmission k { s.submissions k with finder := .found e } with eventQueue := rest }
  | finishJob {k : Nat} :
      Moves home maxWaitEvents s (.finishJob k) (s.setSubmission k { s.submissions k with finished := true })
  | setEvent {k : Nat} {worker : SyncThreadNode} {e : ObjectKey} {sys : State}
      (hfound : (s.submissions k).finder = .found e) (hfinished : (s.submissions k).finished = true)
      (hposted : (s.submissions k).posted = none) (hworker : worker.machine ≠ 0)
      (hsys : SyncSystem.step eventDsm s.sys (.post worker (.setEvent e)) = some sys) :
      Moves home maxWaitEvents s (.setEvent k worker)
        { s.setSubmission k { s.submissions k with posted := some worker.machine } with sys := sys }
  | wait {k threadId : Nat} {timeout : Int} {e : ObjectKey} {sys : State}
      (hfound : (s.submissions k).finder = .found e) (hunused : (s.submissions k).waiter = .unused)
      (hsys : SyncSystem.step eventDsm s.sys (.call ⟨home, threadId⟩ (.waitForEvent e) timeout) = some sys) :
      Moves home maxWaitEvents s (.wait k threadId timeout)
        { s.setSubmission k { s.submissions k with waiter := .inside (sys.current ⟨home, threadId⟩) } with sys := sys }
  | ret {k : Nat} {c : Call} {sys : State} (hinside : (s.submissions k).waiter = .inside c)
      (hsys : SyncSystem.step eventDsm s.sys (.ret c.thread) = some sys) :
      Moves home maxWaitEvents s (.ret k)
        { s.setSubmission k { s.submissions k with waiter := .returned true } with sys := sys }
  | timeout {k : Nat} {c : Call} {sys : State} (hinside : (s.submissions k).waiter = .inside c)
      (hsys : SyncSystem.step eventDsm s.sys (.timeout c.thread) = some sys) :
      Moves home maxWaitEvents s (.timeout k)
        { s.setSubmission k { s.submissions k with waiter := .returned false } with sys := sys }
  | push {k : Nat} {e : ObjectKey} {result : Bool} (hfound : (s.submissions k).finder = .found e)
      (hreturned : (s.submissions k).waiter = .returned result) :
      Moves home maxWaitEvents s (.push k)
        { s.setSubmission k { s.submissions k with waiter := .pushed result } with eventQueue := s.eventQueue ++ [e] }
  | notify {k : Nat} {result : Bool} (hpushed : (s.submissions k).waiter = .pushed result) :
      Moves home maxWaitEvents s (.notify k)
        { s.setSubmission k { s.submissions k with waiter := .notified result } with semLock := s.semLock + 1 }
  | send {threadId : Nat} {sys : State} (hsys : SyncSystem.step eventDsm s.sys (.send ⟨home, threadId⟩) = some sys) :
      Moves home maxWaitEvents s (.send threadId) { s with sys := sys }
  | deliver {machine : Nat} {sys : State} (hsys : SyncSystem.step eventDsm s.sys (.deliver machine) = some sys) :
      Moves home maxWaitEvents s (.deliver machine) { s with sys := sys }
  | wake {machine : Nat} {sys : State} (hsys : SyncSystem.step eventDsm s.sys (.wake machine) = some sys) :
      Moves home maxWaitEvents s (.wake machine) { s with sys := sys }

theorem moves_of_step {home maxWaitEvents : Nat} {s s' : Pool} {a : Pool.Act}
    (hstep : s.step home maxWaitEvents a = some s') : Moves home maxWaitEvents s a s' := by
  cases a with
  | newEvent k e =>
      simp only [Pool.step] at hstep
      split at hstep
      · rename_i hcond
        obtain rfl := Option.some.inj hstep
        exact .newEvent hcond.1 hcond.2.2.2
      · cases hstep
  | park k =>
      simp only [Pool.step] at hstep
      split at hstep
      · rename_i hcond
        obtain rfl := Option.some.inj hstep
        exact .park hcond.1
      · cases hstep
  | permit k =>
      simp only [Pool.step] at hstep
      split at hstep
      · rename_i hcond
        obtain rfl := Option.some.inj hstep
        exact .permit hcond.1
      · cases hstep
  | take k =>
      simp only [Pool.step] at hstep
      split at hstep
      · rename_i e rest hpermitted hqueue
        obtain rfl := Option.some.inj hstep
        exact .take hpermitted hqueue
      · cases hstep
  | finishJob k =>
      simp only [Pool.step] at hstep
      split at hstep
      · obtain rfl := Option.some.inj hstep
        exact .finishJob
      · cases hstep
  | setEvent k worker =>
      simp only [Pool.step] at hstep
      split at hstep
      · rename_i e hfound
        split at hstep
        · rename_i hcond
          obtain ⟨sys, hsys, rfl⟩ := Option.map_eq_some_iff.mp hstep
          exact .setEvent hfound hcond.1 hcond.2.1 hcond.2.2 hsys
        · cases hstep
      · cases hstep
  | wait k threadId timeout =>
      simp only [Pool.step] at hstep
      split at hstep
      · rename_i e hfound
        split at hstep
        · rename_i hunused
          obtain ⟨sys, hsys, rfl⟩ := Option.map_eq_some_iff.mp hstep
          exact .wait hfound hunused hsys
        · cases hstep
      · cases hstep
  | ret k =>
      simp only [Pool.step] at hstep
      split at hstep
      · rename_i c hinside
        obtain ⟨sys, hsys, rfl⟩ := Option.map_eq_some_iff.mp hstep
        exact .ret hinside hsys
      · cases hstep
  | timeout k =>
      simp only [Pool.step] at hstep
      split at hstep
      · rename_i c hinside
        obtain ⟨sys, hsys, rfl⟩ := Option.map_eq_some_iff.mp hstep
        exact .timeout hinside hsys
      · cases hstep
  | push k =>
      simp only [Pool.step] at hstep
      split at hstep
      · rename_i e result hfound hreturned
        obtain rfl := Option.some.inj hstep
        exact .push hfound hreturned
      · cases hstep
  | notify k =>
      simp only [Pool.step] at hstep
      split at hstep
      · rename_i result hpushed
        obtain rfl := Option.some.inj hstep
        exact .notify hpushed
      · cases hstep
  | send threadId =>
      obtain ⟨sys, hsys, rfl⟩ := Option.map_eq_some_iff.mp hstep
      exact .send hsys
  | deliver machine =>
      obtain ⟨sys, hsys, rfl⟩ := Option.map_eq_some_iff.mp hstep
      exact .deliver hsys
  | wake machine =>
      obtain ⟨sys, hsys, rfl⟩ := Option.map_eq_some_iff.mp hstep
      exact .wake hsys

/-! ## Handling the messages about an event -/

/-- The node of an event, also before it is made. -/
def eventNode (s : State) (e : ObjectKey) : SyncNode := createEventNode eventDsm s.manager e

/-- What the master does with a message about `e`: the new node and wait list, and the calls that are
woken. -/
structure Handled (e : ObjectKey) (node : SyncNode) (calls woken : List Call) (s s' : State) : Prop where
  threads : s'.threads = s.threads
  requests : s'.requests = s.requests
  manager : s'.manager = s.manager.put e node
  queued : s'.queued = Function.update s.queued e calls
  granted : s'.granted = s.granted ++ woken
  returned : s'.returned = s.returned
  wakes : ∀ m, ∀ x ∈ s'.wakes m, x ∈ s.wakes m ∨ x.2 ∈ woken

section Handling

variable {s s' : State} {e : ObjectKey} {c : Call} {node : SyncNode} {calls woken : List Call}

theorem Handled.eventNode_self (h : Handled e node calls woken s s') : eventNode s' e = node := by
  rw [eventNode, h.manager, createEventNode, Manager.put_syncData, Option.getD_some]

theorem Handled.eventNode_of_ne (h : Handled e node calls woken s s') {e' : ObjectKey} (hne : e' ≠ e) :
    eventNode s' e' = eventNode s e' := by
  rw [eventNode, h.manager, createEventNode, Manager.put]
  dsimp only
  rw [Function.update_of_ne hne]
  rfl

theorem mem_wakes_wakeAll {calls : List Call} {m : Nat} {x : Nat × Call}
    (hx : x ∈ (calls.foldl (fun s c => s.rcWakeRemoteThread c.thread c) s).wakes m) :
    x ∈ s.wakes m ∨ x.2 ∈ calls := by
  induction calls generalizing s with
  | nil => exact Or.inl hx
  | cons c rest ih =>
      rcases ih hx with hone | hrest
      · simp only [State.rcWakeRemoteThread] at hone
        split at hone
        · exact Or.inl hone
        · simp only [Function.update_apply] at hone
          split at hone
          · rename_i hm
            rcases List.mem_append.mp hone with hold | hnew
            · exact Or.inl (by rw [hm]; exact hold)
            · rw [List.mem_singleton.mp hnew]
              exact Or.inr List.mem_cons_self
          · exact Or.inl hone
      · exact Or.inr (List.mem_cons_of_mem c hrest)

theorem handled_wakeAll (us : List SyncThreadNode) (hus : us = (calls.take us.length).map Call.thread)
    (arrived : List Call) (left : List Call) :
    Handled e node left (calls.take us.length) s
      (State.wakeAll
        { s with
          manager := s.manager.put e node
          arrived := arrived
          queued := Function.update s.queued e left }
        us calls) := by
  rw [wakeAll_eq _ hus]
  obtain ⟨hthreads, hmanager, hrequests, hqueued, _, hreturned, hgranted⟩ := wakeAll_same (calls.take us.length)
    { s with
      manager := s.manager.put e node
      arrived := arrived
      queued := Function.update s.queued e left }
  refine ⟨hthreads, hrequests, hmanager, hqueued, hgranted, hreturned, fun m x hx => ?_⟩
  have hmem := mem_wakes_wakeAll hx
  exact hmem

/-- A `Wait` takes the signal of the event, or joins its queue. -/
theorem serveWait_event (hauto : (eventNode s e).data ≠ 0) :
    ((eventNode s e).val ≠ 0 → Handled e { eventNode s e with val := 0 } (s.queued e) [c] s
      (serveWait eventDsm s c.thread.machine (.waitForEvent e) c)) ∧
    ((eventNode s e).val = 0 → Handled e { eventNode s e with waiting := (eventNode s e).waiting ++ [c.thread] }
      (s.queued e ++ [c]) [] s (serveWait eventDsm s c.thread.machine (.waitForEvent e) c)) := by
  constructor
  · intro hval
    have hmsg : waitMsg eventDsm s.manager c.thread.machine c.thread.threadId (.waitForEvent e) =
        (s.manager.put e { eventNode s e with val := 0 }, [c.thread]) := by
      rw [eventNode] at hval hauto
      rw [waitMsg, eventWaitMsg, if_pos hval, if_pos hauto]
      rfl
    have hserve := @handled_wakeAll s e { eventNode s e with val := 0 } (c :: s.queued e) [c.thread] rfl
      (s.arrived ++ [c]) (s.queued e)
    rw [serveWait, hmsg]
    exact hserve
  · intro hval
    have hmsg : waitMsg eventDsm s.manager c.thread.machine c.thread.threadId (.waitForEvent e) =
        (s.manager.put e { eventNode s e with waiting := (eventNode s e).waiting ++ [c.thread] }, []) := by
      rw [eventNode] at hval
      rw [waitMsg, eventWaitMsg, if_neg (not_not.mpr hval)]
      rfl
    have hserve := @handled_wakeAll s e { eventNode s e with waiting := (eventNode s e).waiting ++ [c.thread] }
      (c :: s.queued e) [] rfl (s.arrived ++ [c]) (s.queued e ++ [c])
    rw [serveWait, hmsg]
    exact hserve

/-- A `Set` wakes the call that waits first, or signals the event. -/
theorem servePost_event (hauto : (eventNode s e).data ≠ 0) (htags : (s.queued e).map Call.thread = waitingOf s.manager e) :
    ∃ s', servePost eventDsm s (.setEvent e) = some s' ∧
      (s.queued e = [] → Handled e { eventNode s e with val := 1 } [] [] s s') ∧
      ∀ c rest, s.queued e = c :: rest →
        Handled e { eventNode s e with val := 0, waiting := (eventNode s e).waiting.tail } rest [c] s s' := by
  have hwaiting : (eventNode s e).waiting = (s.queued e).map Call.thread := by
    rw [htags]
    exact waiting_getD s.manager e rfl
  refine ⟨_, rfl, fun hnil => ?_, fun c rest hcons => ?_⟩
  · have hmsg : setEventMsg eventDsm s.manager e = (s.manager.put e { eventNode s e with val := 1 }, []) := by
      rw [hnil, List.map_nil, eventNode] at hwaiting
      rw [eventNode] at hauto
      simp only [setEventMsg, if_pos hauto, eventNode, hwaiting]
    have hserve := @handled_wakeAll s e { eventNode s e with val := 1 } (s.queued e) [] rfl s.arrived []
    dsimp only [PostOp.object]
    rw [hmsg, hnil]
    rw [hnil] at hserve
    exact hserve
  · have hmsg : setEventMsg eventDsm s.manager e =
        (s.manager.put e { eventNode s e with val := 0, waiting := (eventNode s e).waiting.tail }, [c.thread]) := by
      rw [hcons, List.map_cons, eventNode] at hwaiting
      rw [eventNode] at hauto
      simp only [setEventMsg, if_pos hauto, eventNode, hwaiting, List.tail_cons]
    have hserve := @handled_wakeAll s e { eventNode s e with val := 0, waiting := (eventNode s e).waiting.tail }
      (s.queued e) [c.thread] (by rw [hcons]; rfl) s.arrived rest
    dsimp only [PostOp.object]
    rw [hmsg]
    rw [hcons] at hserve ⊢
    exact hserve

end Handling

/-! ## Who has an event -/

/-- The submission that has an event, the node from which its job has set it, and its `Wait`. -/
structure Tenure where
  submission : Nat
  posted : Option Nat
  waiter : Waiter

/-- The master has handled the `Set` of the job. -/
def Tenure.SetDone (t : Tenure) (e : ObjectKey) (s : State) : Prop :=
  ∃ m, t.posted = some m ∧ Request.post (.setEvent e) ∉ s.requests m

/-- The `Wait` of the submission is in the call `c`. -/
def Tenure.Inside (t : Tenure) (c : Call) : Prop := t.waiter = .inside c

/-- What is under way about the events belongs to those that have them. -/
structure Linked (owner : ObjectKey → Option Tenure) (s : State) : Prop where
  data : ∀ e, (eventNode s e).data ≠ 0
  val : ∀ e, (eventNode s e).val ≠ 0 → ∃ t, owner e = some t ∧ t.SetDone e s ∧
    (t.waiter = .unused ∨ ∃ c, t.Inside c ∧ c ∉ s.granted)
  requests : ∀ m, ∀ r ∈ s.requests m, ∃ e t, owner e = some t ∧
    ((∃ c, r = .wait (.waitForEvent e) c ∧ t.Inside c) ∨ r = .post (.setEvent e) ∧ t.posted = some m)
  once : ∀ m e, (s.requests m).count (.post (.setEvent e)) ≤ 1
  entering : ∀ u op timeout, (s.threads u).phase = .entering op timeout → ∃ e t, owner e = some t ∧
    op = .waitForEvent e ∧ t.Inside (s.current u)
  queued : ∀ e, ∀ c ∈ s.queued e, ∃ t, owner e = some t ∧ t.Inside c
  granted : ∀ e t c, owner e = some t → t.Inside c → c ∈ s.granted → t.SetDone e s ∧ (eventNode s e).val = 0
  returned : ∀ e t b, owner e = some t → t.waiter = .returned b → t.SetDone e s ∧ (eventNode s e).val = 0
  inside : ∀ e t c, owner e = some t → t.Inside c → s.current c.thread = c ∧ (s.threads c.thread).phase ≠ .idle
  one : ∀ e e' t t' c, owner e = some t → owner e' = some t' → t.Inside c → t'.Inside c → e = e'
  wakes : ∀ m, ∀ x ∈ s.wakes m, (s.threads x.2.thread).phase ≠ .idle ∨ (x.2, false) ∈ s.returned

section Linked

variable {owner : ObjectKey → Option Tenure} {s s' : State} {e : ObjectKey} {t : Tenure} {c : Call}

theorem linked_start : Linked (fun _ => none) SyncSystem.start where
  data := fun _ => (by decide : (1 : Int) ≠ 0)
  val := fun e h => absurd rfl h
  requests := fun _ _ h => by cases h
  once := fun _ _ => Nat.zero_le 1
  entering := fun _ _ _ h => by cases h
  queued := fun _ _ h => by cases h
  granted := fun _ _ _ h => by cases h
  returned := fun _ _ _ h => by cases h
  inside := fun _ _ _ h => by cases h
  one := fun _ _ _ _ _ h => by cases h
  wakes := fun _ _ h => by cases h

theorem Tenure.Inside.eq {c' : Call} (h : t.Inside c) (h' : t.Inside c') : c = c' :=
  Waiter.inside.inj (Eq.trans (Eq.symm h) h')

/-- Some requests are gone; nothing else that the links are about has changed. -/
theorem Linked.of_subset (h : Linked owner s) (hthreads : s'.threads = s.threads) (hmanager : s'.manager = s.manager)
    (hqueued : s'.queued = s.queued) (hgranted : s'.granted = s.granted) (hreturned : s'.returned = s.returned)
    (hrequests : ∀ m, (s'.requests m).Sublist (s.requests m)) (hwakes : ∀ m, s'.wakes m ⊆ s.wakes m) :
    Linked owner s' := by
  have hdone : ∀ {t : Tenure} {e}, t.SetDone e s → t.SetDone e s' := by
    rintro t e ⟨m, hposted, hgone⟩
    exact ⟨m, hposted, fun hmem => hgone ((hrequests m).subset hmem)⟩
  have hnode : ∀ e, eventNode s' e = eventNode s e := fun e => by rw [eventNode, hmanager, eventNode]
  have hcurrent : ∀ u, s'.current u = s.current u := fun u => by rw [State.current, hthreads, State.current]
  constructor
  · exact fun e => by rw [hnode]; exact h.data e
  · intro e hval
    rw [hnode] at hval
    obtain ⟨t, ht, hset, hwait⟩ := h.val e hval
    exact ⟨t, ht, hdone hset, by rw [hgranted]; exact hwait⟩
  · exact fun m r hr => h.requests m r ((hrequests m).subset hr)
  · exact fun m e => Nat.le_trans ((hrequests m).count_le _) (h.once m e)
  · intro u op timeout hphase
    rw [hthreads] at hphase
    rw [hcurrent]
    exact h.entering u op timeout hphase
  · rw [hqueued]
    exact h.queued
  · intro e t c ht hc hmem
    rw [hgranted] at hmem
    obtain ⟨hset, hval⟩ := h.granted e t c ht hc hmem
    exact ⟨hdone hset, by rw [hnode]; exact hval⟩
  · intro e t b ht hw
    obtain ⟨hset, hval⟩ := h.returned e t b ht hw
    exact ⟨hdone hset, by rw [hnode]; exact hval⟩
  · intro e t c ht hc
    rw [hcurrent, hthreads]
    exact h.inside e t c ht hc
  · exact h.one
  · intro m x hx
    rw [hthreads, hreturned]
    exact h.wakes m x (hwakes m hx)

/-- The master handles a message about `e`; only the submission that has the event can be woken. -/
theorem Linked.handled {node : SyncNode} {calls woken : List Call} (h : Linked owner s)
    (hs : Handled e node calls woken s s') (ht : owner e = some t) (hdata : node.data ≠ 0)
    (hval : node.val ≠ 0 → t.SetDone e s ∧ (t.waiter = .unused ∨ ∃ c, t.Inside c ∧ c ∉ s.granted ∧ c ∉ woken))
    (hcalls : ∀ c ∈ calls, t.Inside c) (hwoken : ∀ c ∈ woken, t.Inside c ∧ t.SetDone e s ∧ node.val = 0)
    (hgranted : ∀ c, t.Inside c → c ∈ s.granted → node.val = 0) (hreturned : ∀ b, t.waiter = .returned b → node.val = 0) :
    Linked owner s' := by
  have hdone : ∀ {t : Tenure} {e}, t.SetDone e s → t.SetDone e s' := by
    rintro t e ⟨m, hposted, hgone⟩
    exact ⟨m, hposted, by rw [hs.requests]; exact hgone⟩
  have hcurrent : ∀ u, s'.current u = s.current u := fun u => by rw [State.current, hs.threads, State.current]
  -- a call that is woken belongs to no other event
  have hother : ∀ e' t' c, owner e' = some t' → e' ≠ e → t'.Inside c → c ∉ woken :=
    fun e' t' c ht' hne hc hmem => hne (h.one e' e t' t c ht' ht hc (hwoken c hmem).1)
  constructor
  · intro e'
    by_cases he : e' = e
    · subst he
      rw [hs.eventNode_self]
      exact hdata
    · rw [hs.eventNode_of_ne he]
      exact h.data e'
  · intro e' hval'
    by_cases he : e' = e
    · subst he
      rw [hs.eventNode_self] at hval'
      obtain ⟨hset, hwait⟩ := hval hval'
      refine ⟨t, ht, hdone hset, hwait.imp_right ?_⟩
      rintro ⟨c, hc, hold, hnew⟩
      exact ⟨c, hc, by rw [hs.granted, List.mem_append, not_or]; exact ⟨hold, hnew⟩⟩
    · rw [hs.eventNode_of_ne he] at hval'
      obtain ⟨t', ht', hset, hwait⟩ := h.val e' hval'
      refine ⟨t', ht', hdone hset, hwait.imp_right ?_⟩
      rintro ⟨c, hc, hold⟩
      exact ⟨c, hc, by rw [hs.granted, List.mem_append, not_or]; exact ⟨hold, hother e' t' c ht' he hc⟩⟩
  · rw [hs.requests]
    exact h.requests
  · rw [hs.requests]
    exact h.once
  · intro u op timeout hphase
    rw [hs.threads] at hphase
    rw [hcurrent]
    exact h.entering u op timeout hphase
  · intro e' c hc
    rw [hs.queued] at hc
    by_cases he : e' = e
    · subst he
      rw [Function.update_self] at hc
      exact ⟨t, ht, hcalls c hc⟩
    · rw [Function.update_of_ne he] at hc
      exact h.queued e' c hc
  · intro e' t' c ht' hc hmem
    rw [hs.granted, List.mem_append] at hmem
    by_cases he : e' = e
    · subst he
      obtain rfl : t' = t := Option.some.inj (ht'.symm.trans ht)
      rw [hs.eventNode_self]
      rcases hmem with hold | hnew
      · exact ⟨hdone (h.granted e' t' c ht hc hold).1, hgranted c hc hold⟩
      · exact ⟨hdone (hwoken c hnew).2.1, (hwoken c hnew).2.2⟩
    · rw [hs.eventNode_of_ne he]
      obtain ⟨hset, hval'⟩ := h.granted e' t' c ht' hc (hmem.resolve_right (hother e' t' c ht' he hc))
      exact ⟨hdone hset, hval'⟩
  · intro e' t' b ht' hb
    obtain ⟨hset, hval'⟩ := h.returned e' t' b ht' hb
    refine ⟨hdone hset, ?_⟩
    by_cases he : e' = e
    · subst he
      obtain rfl : t' = t := Option.some.inj (ht'.symm.trans ht)
      rw [hs.eventNode_self]
      exact hreturned b hb
    · rw [hs.eventNode_of_ne he]
      exact hval'
  · intro e' t' c ht' hc
    rw [hcurrent, hs.threads]
    exact h.inside e' t' c ht' hc
  · exact h.one
  · intro m x hx
    rw [hs.threads, hs.returned]
    rcases hs.wakes m x hx with hold | hnew
    · exact h.wakes m x hold
    · exact Or.inl (h.inside e t x.2 ht (hwoken x.2 hnew).1).2

/-- The master handles the `Wait` of the submission that has the event. -/
theorem linked_serveWait (h : Linked owner s) (ht : owner e = some t) (hc : t.Inside c) :
    Linked owner (serveWait eventDsm s c.thread.machine (.waitForEvent e) c) := by
  obtain ⟨hgrant, hqueue⟩ := @serveWait_event s e c (h.data e)
  have hqueued : ∀ c' ∈ s.queued e, t.Inside c' := by
    intro c' hc'
    obtain ⟨t', ht', hin⟩ := h.queued e c' hc'
    obtain rfl : t' = t := Option.some.inj (ht'.symm.trans ht)
    exact hin
  by_cases hval : (eventNode s e).val = 0
  · refine h.handled (hqueue hval) ht (h.data e) (fun hne => absurd hval hne) ?_ (fun _ hmem => by cases hmem)
      (fun _ _ _ => hval) (fun _ _ => hval)
    intro c' hc'
    rcases List.mem_append.mp hc' with hold | hnew
    · exact hqueued c' hold
    · rw [List.mem_singleton.mp hnew]
      exact hc
  · -- the event is signalled, so the job has set it
    obtain ⟨t', ht', hset, _⟩ := h.val e hval
    obtain rfl : t' = t := Option.some.inj (ht'.symm.trans ht)
    refine h.handled (hgrant hval) ht (h.data e) (fun hne => absurd rfl hne) hqueued ?_ (fun _ _ _ => rfl)
      (fun _ _ => rfl)
    intro c' hc'
    rw [List.mem_singleton.mp hc']
    exact ⟨hc, hset, rfl⟩

/-- The master handles the `Set` of the job of the submission that has the event. -/
theorem linked_servePost (h : Linked owner s) (ht : owner e = some t) (hset : t.SetDone e s)
    (htags : (s.queued e).map Call.thread = waitingOf s.manager e) (hopen : ∀ c, t.Inside c → c ∉ s.granted)
    (hreturned : ∀ b, t.waiter ≠ .returned b) (hkeeps : t.waiter = .unused ∨ ∃ c, t.Inside c)
    (hs' : servePost eventDsm s (.setEvent e) = some s') : Linked owner s' := by
  obtain ⟨s'', hserve, hnil, hcons⟩ := servePost_event (h.data e) htags
  obtain rfl : s'' = s' := Option.some.inj (hserve.symm.trans hs')
  have hqueued : ∀ c' ∈ s.queued e, t.Inside c' := by
    intro c' hc'
    obtain ⟨t', ht', hin⟩ := h.queued e c' hc'
    obtain rfl : t' = t := Option.some.inj (ht'.symm.trans ht)
    exact hin
  cases hq : s.queued e with
  | nil =>
      refine h.handled (hnil hq) ht (h.data e) (fun _ => ⟨hset, hkeeps.imp_right ?_⟩) (fun _ hmem => by cases hmem)
        (fun _ hmem => by cases hmem) (fun c hc hmem => absurd hmem (hopen c hc))
        (fun b hb => absurd hb (hreturned b))
      rintro ⟨c, hc⟩
      exact ⟨c, hc, hopen c hc, List.not_mem_nil⟩
  | cons c rest =>
      rw [hq] at hqueued
      refine h.handled (hcons c rest hq) ht (h.data e) (fun hne => absurd rfl hne)
        (fun c' hc' => hqueued c' (List.mem_cons_of_mem c hc')) ?_ (fun _ _ _ => rfl) (fun _ _ => rfl)
      intro c' hc'
      rw [List.mem_singleton.mp hc']
      exact ⟨hqueued c List.mem_cons_self, hset, rfl⟩

/-- An event changes hands, or its submission goes on; nothing changes at the master. -/
theorem Linked.reassign (h : Linked owner s) {o : Option Tenure} (hmanager : s'.manager = s.manager)
    (hqueued : s'.queued = s.queued) (hgranted : s'.granted = s.granted)
    (hsets : ∀ m e', e' ≠ e → Request.post (.setEvent e') ∈ s'.requests m → Request.post (.setEvent e') ∈ s.requests m)
    (hval : (eventNode s e).val ≠ 0 → ∃ t, o = some t ∧ t.SetDone e s' ∧
      (t.waiter = .unused ∨ ∃ c, t.Inside c ∧ c ∉ s.granted))
    (hrequests : ∀ m, ∀ r ∈ s'.requests m, ∃ e' t, Function.update owner e o e' = some t ∧
      ((∃ c, r = .wait (.waitForEvent e') c ∧ t.Inside c) ∨ r = .post (.setEvent e') ∧ t.posted = some m))
    (honce : ∀ m e', (s'.requests m).count (.post (.setEvent e')) ≤ 1)
    (hentering : ∀ u op timeout, (s'.threads u).phase = .entering op timeout → ∃ e' t,
      Function.update owner e o e' = some t ∧ op = .waitForEvent e' ∧ t.Inside (s'.current u))
    (hcalls : ∀ c ∈ s.queued e, ∃ t, o = some t ∧ t.Inside c)
    (hgrant : ∀ t c, o = some t → t.Inside c → c ∈ s.granted → t.SetDone e s' ∧ (eventNode s e).val = 0)
    (hreturned : ∀ t b, o = some t → t.waiter = .returned b → t.SetDone e s' ∧ (eventNode s e).val = 0)
    (hinside : ∀ t c, o = some t → t.Inside c → s'.current c.thread = c ∧ (s'.threads c.thread).phase ≠ .idle ∧
      ∀ e' t', e' ≠ e → owner e' = some t' → ¬ t'.Inside c)
    (hothers : ∀ e' t c, e' ≠ e → owner e' = some t → t.Inside c →
      s'.current c.thread = c ∧ (s'.threads c.thread).phase ≠ .idle)
    (hwakes : ∀ m, ∀ x ∈ s'.wakes m, (s'.threads x.2.thread).phase ≠ .idle ∨ (x.2, false) ∈ s'.returned) :
    Linked (Function.update owner e o) s' := by
  have hnode : ∀ e', eventNode s' e' = eventNode s e' := fun e' => by rw [eventNode, hmanager, eventNode]
  have hdone : ∀ {t : Tenure} {e'}, e' ≠ e → t.SetDone e' s → t.SetDone e' s' := by
    rintro t e' hne ⟨m, hposted, hgone⟩
    exact ⟨m, hposted, fun hmem => hgone (hsets m e' hne hmem)⟩
  constructor
  · exact fun e' => by rw [hnode]; exact h.data e'
  · intro e' hval'
    rw [hnode] at hval'
    rw [hgranted]
    by_cases he : e' = e
    · subst he
      rw [Function.update_self]
      exact hval hval'
    · rw [Function.update_of_ne he]
      obtain ⟨t, ht, hset, hwait⟩ := h.val e' hval'
      exact ⟨t, ht, hdone he hset, hwait⟩
  · exact hrequests
  · exact honce
  · exact hentering
  · intro e' c hc
    rw [hqueued] at hc
    by_cases he : e' = e
    · subst he
      rw [Function.update_self]
      exact hcalls c hc
    · rw [Function.update_of_ne he]
      exact h.queued e' c hc
  · intro e' t c ht hc hmem
    rw [hgranted] at hmem
    rw [hnode]
    by_cases he : e' = e
    · subst he
      rw [Function.update_self] at ht
      exact hgrant t c ht hc hmem
    · rw [Function.update_of_ne he] at ht
      obtain ⟨hset, hval'⟩ := h.granted e' t c ht hc hmem
      exact ⟨hdone he hset, hval'⟩
  · intro e' t b ht hb
    rw [hnode]
    by_cases he : e' = e
    · subst he
      rw [Function.update_self] at ht
      exact hreturned t b ht hb
    · rw [Function.update_of_ne he] at ht
      obtain ⟨hset, hval'⟩ := h.returned e' t b ht hb
      exact ⟨hdone he hset, hval'⟩
  · intro e' t c ht hc
    by_cases he : e' = e
    · subst he
      rw [Function.update_self] at ht
      exact ⟨(hinside t c ht hc).1, (hinside t c ht hc).2.1⟩
    · rw [Function.update_of_ne he] at ht
      exact hothers e' t c he ht hc
  · intro e₁ e₂ t₁ t₂ c ht₁ ht₂ hc₁ hc₂
    by_cases h₁ : e₁ = e
    · subst h₁
      rw [Function.update_self] at ht₁
      by_cases h₂ : e₂ = e₁
      · exact h₂.symm
      · rw [Function.update_of_ne h₂] at ht₂
        exact absurd hc₂ ((hinside t₁ c ht₁ hc₁).2.2 e₂ t₂ h₂ ht₂)
    · rw [Function.update_of_ne h₁] at ht₁
      by_cases h₂ : e₂ = e
      · subst h₂
        rw [Function.update_self] at ht₂
        exact absurd hc₁ ((hinside t₂ c ht₂ hc₂).2.2 e₁ t₁ h₁ ht₁)
      · rw [Function.update_of_ne h₂] at ht₂
        exact h.one e₁ e₂ t₁ t₂ c ht₁ ht₂ hc₁ hc₂
  · exact hwakes

/-- What is under way about an event that no submission has: nothing. -/
theorem Linked.free (h : Linked owner s) (hfree : owner e = none) : (eventNode s e).val = 0 ∧ s.queued e = [] := by
  refine ⟨?_, List.eq_nil_iff_forall_not_mem.mpr fun c hc => ?_⟩
  · by_contra hval
    obtain ⟨t, ht, _⟩ := h.val e hval
    rw [hfree] at ht
    cases ht
  · obtain ⟨t, ht, _⟩ := h.queued e c hc
    rw [hfree] at ht
    cases ht

/-- A submission finds a free event. -/
theorem Linked.give (h : Linked owner s) (hfree : owner e = none) (k : Nat) :
    Linked (Function.update owner e (some ⟨k, none, .unused⟩)) s := by
  obtain ⟨hval, hqueue⟩ := h.free hfree
  have hne : ∀ {e' t}, owner e' = some t → e' ≠ e := by
    rintro e' t ht rfl
    rw [hfree] at ht
    cases ht
  have hkeep : ∀ {e' t}, owner e' = some t → Function.update owner e (some ⟨k, none, .unused⟩) e' = some t :=
    fun ht => by rw [Function.update_of_ne (hne ht)]; exact ht
  refine h.reassign rfl rfl rfl (fun _ _ _ hmem => hmem) (fun hval' => absurd hval hval') ?_ h.once ?_ ?_ ?_ ?_ ?_
    (fun e' t c _ ht hc => h.inside e' t c ht hc) h.wakes
  · intro m r hr
    obtain ⟨e', t, ht, hkind⟩ := h.requests m r hr
    exact ⟨e', t, hkeep ht, hkind⟩
  · intro u op timeout hphase
    obtain ⟨e', t, ht, hop⟩ := h.entering u op timeout hphase
    exact ⟨e', t, hkeep ht, hop⟩
  · intro c hc
    rw [hqueue] at hc
    cases hc
  · rintro t c ⟨⟩ hc
    cases hc
  · rintro t b ⟨⟩ hb
    cases hb
  · rintro t c ⟨⟩ hc
    cases hc

/-- A submission whose `Wait` has returned gives its event back. -/
theorem Linked.back (h : Linked owner s) (ht : owner e = some t) {b : Bool} (hb : t.waiter = .returned b) :
    Linked (Function.update owner e none) s := by
  obtain ⟨⟨m₀, hposted, hgone⟩, hval⟩ := h.returned e t b ht hb
  have hnot : ∀ c, ¬ t.Inside c := fun c hc => by
    rw [Tenure.Inside, hb] at hc
    cases hc
  -- nothing about the event is under way
  have hne : ∀ {e' t'} {P : Prop}, owner e' = some t' → (e' = e → t' = t → P) → (e' ≠ e → P) → P := by
    intro e' t' P ht' h₁ h₂
    by_cases he : e' = e
    · subst he
      exact h₁ rfl (Option.some.inj (ht'.symm.trans ht))
    · exact h₂ he
  refine h.reassign rfl rfl rfl (fun _ _ _ hmem => hmem) (fun hval' => absurd hval hval') ?_ h.once ?_ ?_
    (fun _ _ hnone => by cases hnone) (fun _ _ hnone => by cases hnone) (fun _ _ hnone => by cases hnone)
    (fun e' t c _ ht hc => h.inside e' t c ht hc) h.wakes
  · intro m r hr
    obtain ⟨e', t', ht', hkind⟩ := h.requests m r hr
    refine hne ht' ?_ fun he => ⟨e', t', by rw [Function.update_of_ne he]; exact ht', hkind⟩
    rintro rfl rfl
    rcases hkind with ⟨c, _, hc⟩ | ⟨rfl, hm⟩
    · exact absurd hc (hnot c)
    · obtain rfl : m₀ = m := Option.some.inj (hposted.symm.trans hm)
      exact absurd hr hgone
  · intro u op timeout hphase
    obtain ⟨e', t', ht', hop, hin⟩ := h.entering u op timeout hphase
    refine hne ht' ?_ fun he => ⟨e', t', by rw [Function.update_of_ne he]; exact ht', hop, hin⟩
    rintro rfl rfl
    exact absurd hin (hnot _)
  · intro c hc
    obtain ⟨t', ht', hin⟩ := h.queued e c hc
    obtain rfl : t' = t := Option.some.inj (ht'.symm.trans ht)
    exact absurd hin (hnot c)

/-- The job sets its event. -/
theorem Linked.post (h : Linked owner s) (ht : owner e = some t) (hposted : t.posted = none) (machine : Nat) :
    Linked (Function.update owner e (some { t with posted := some machine }))
      (send s machine (.post (.setEvent e))) := by
  have hset : ¬ t.SetDone e s := by
    rintro ⟨m, hm, _⟩
    rw [hposted] at hm
    cases hm
  have hmem : ∀ {m r}, r ∈ (send s machine (.post (.setEvent e))).requests m →
      r ∈ s.requests m ∨ r = .post (.setEvent e) ∧ m = machine := by
    intro m r hr
    simp only [send, Function.update_apply] at hr
    split at hr
    · rename_i hm
      rw [hm]
      exact (List.mem_append.mp hr).imp_right fun hr => ⟨List.mem_singleton.mp hr, rfl⟩
    · exact Or.inl hr
  -- the event has not been set before
  have hnone : ∀ m, Request.post (.setEvent e) ∉ s.requests m := by
    intro m hr
    obtain ⟨e', t', ht', ⟨_, hreq, _⟩ | ⟨hreq, hm⟩⟩ := h.requests m _ hr
    · cases hreq
    · cases hreq
      obtain rfl : t' = t := Option.some.inj (ht'.symm.trans ht)
      rw [hposted] at hm
      cases hm
  have howner : ∀ {e' t'}, owner e' = some t' → ∃ t'', Function.update owner e (some { t with posted := some machine }) e' =
      some t'' ∧ t''.waiter = t'.waiter ∧ (e' ≠ e → t'' = t') := by
    intro e' t' ht'
    by_cases he : e' = e
    · subst he
      obtain rfl : t' = t := Option.some.inj (ht'.symm.trans ht)
      exact ⟨_, Function.update_self _ _ _, rfl, fun hne => absurd rfl hne⟩
    · exact ⟨t', by rw [Function.update_of_ne he]; exact ht', rfl, fun _ => rfl⟩
  refine h.reassign rfl rfl rfl ?_ ?_ ?_ ?_ ?_ ?_ ?_ ?_ ?_ (fun e' t' c _ ht' hc => h.inside e' t' c ht' hc) h.wakes
  · intro m e' hne hr
    rcases hmem hr with hold | ⟨hreq, _⟩
    · exact hold
    · cases hreq
      exact absurd rfl hne
  · intro hval
    obtain ⟨t', ht', hset', _⟩ := h.val e hval
    obtain rfl : t' = t := Option.some.inj (ht'.symm.trans ht)
    exact absurd hset' hset
  · intro m r hr
    rcases hmem hr with hold | ⟨rfl, rfl⟩
    · obtain ⟨e', t', ht', hkind⟩ := h.requests m r hold
      obtain ⟨t'', ht'', hwaiter, hsame⟩ := howner ht'
      refine ⟨e', t'', ht'', ?_⟩
      rcases hkind with ⟨c, hreq, hc⟩ | ⟨rfl, hm⟩
      · exact Or.inl ⟨c, hreq, hwaiter.trans hc⟩
      · have hne : e' ≠ e := by
          rintro rfl
          exact hnone m hold
        rw [hsame hne]
        exact Or.inr ⟨rfl, hm⟩
    · exact ⟨e, _, Function.update_self _ _ _, Or.inr ⟨rfl, rfl⟩⟩
  · intro m e'
    simp only [send, Function.update_apply]
    split
    · rename_i hm
      rw [List.count_append]
      by_cases he : e' = e
      · subst he
        rw [List.count_eq_zero_of_not_mem (hnone machine), List.count_singleton_self]
      · rw [List.count_singleton, if_neg (by simpa using fun heq => he heq.symm)]
        exact h.once machine e'
    · exact h.once m e'
  · intro u op timeout hphase
    obtain ⟨e', t', ht', hop, hin⟩ := h.entering u op timeout hphase
    obtain ⟨t'', ht'', hwaiter, _⟩ := howner ht'
    exact ⟨e', t'', ht'', hop, hwaiter.trans hin⟩
  · intro c hc
    obtain ⟨t', ht', hin⟩ := h.queued e c hc
    obtain rfl : t' = t := Option.some.inj (ht'.symm.trans ht)
    exact ⟨_, rfl, hin⟩
  · rintro t' c ⟨⟩ hc hgranted
    exact absurd (h.granted e t c ht hc hgranted).1 hset
  · rintro t' b ⟨⟩ hb
    exact absurd (h.returned e t b ht hb).1 hset
  · rintro t' c ⟨⟩ hc
    obtain ⟨hcurrent, hphase⟩ := h.inside e t c ht hc
    exact ⟨hcurrent, hphase, fun e' t' hne ht' hc' => hne (h.one e' e t' t c ht' ht hc' hc)⟩

/-- A thread begins to wait for the event of a submission. -/
theorem Linked.call (h : Linked owner s) (ht : owner e = some t) (hunused : t.waiter = .unused) {u : SyncThreadNode}
    (hidle : (s.threads u).phase = .idle) (hnew : (⟨u, (s.threads u).calls + 1⟩ : Call) ∉ s.granted) (timeout : Int)
    (event : SyncThreadNode → Bool) :
    Linked (Function.update owner e (some { t with waiter := .inside ⟨u, (s.threads u).calls + 1⟩ }))
      { s.setThread u ⟨(s.threads u).calls + 1, .entering (.waitForEvent e) timeout⟩ with event := event } := by
  have hnot : ∀ c, ¬ t.Inside c := fun c hc => by
    rw [Tenure.Inside, hunused] at hc
    cases hc
  -- a thread that is in a call is another one
  have hother : ∀ {e' t' c}, owner e' = some t' → t'.Inside c → c.thread ≠ u := by
    rintro e' t' c ht' hc rfl
    exact (h.inside e' t' c ht' hc).2 hidle
  have hne : ∀ {e' t' c}, owner e' = some t' → t'.Inside c → e' ≠ e := by
    rintro e' t' c ht' hc rfl
    obtain rfl : t' = t := Option.some.inj (ht'.symm.trans ht)
    exact hnot c hc
  refine h.reassign rfl rfl rfl (fun _ _ _ hmem => hmem) ?_ ?_ h.once ?_ ?_ ?_ ?_ ?_ ?_ ?_
  · intro hval
    obtain ⟨t', ht', hset, _⟩ := h.val e hval
    obtain rfl : t' = t := Option.some.inj (ht'.symm.trans ht)
    exact ⟨_, rfl, hset, Or.inr ⟨_, rfl, hnew⟩⟩
  · intro m r hr
    obtain ⟨e', t', ht', hkind⟩ := h.requests m r hr
    rcases hkind with ⟨c, hreq, hc⟩ | ⟨rfl, hm⟩
    · exact ⟨e', t', by rw [Function.update_of_ne (hne ht' hc)]; exact ht', Or.inl ⟨c, hreq, hc⟩⟩
    · by_cases he : e' = e
      · subst he
        obtain rfl : t' = t := Option.some.inj (ht'.symm.trans ht)
        exact ⟨e', _, Function.update_self _ _ _, Or.inr ⟨rfl, hm⟩⟩
      · exact ⟨e', t', by rw [Function.update_of_ne he]; exact ht', Or.inr ⟨rfl, hm⟩⟩
  · intro u' op timeout' hphase
    by_cases hu : u' = u
    · subst hu
      simp only [State.setThread, Function.update_self] at hphase
      cases hphase
      refine ⟨e, _, Function.update_self _ _ _, rfl, ?_⟩
      simp only [Tenure.Inside, State.current, State.setThread, Function.update_self]
    · simp only [State.setThread, Function.update_of_ne hu] at hphase
      obtain ⟨e', t', ht', hop, hin⟩ := h.entering u' op timeout' hphase
      refine ⟨e', t', by rw [Function.update_of_ne (hne ht' hin)]; exact ht', hop, ?_⟩
      simp only [State.current, State.setThread, Function.update_of_ne hu]
      exact hin
  · intro c hc
    obtain ⟨t', ht', hin⟩ := h.queued e c hc
    exact absurd rfl (hne ht' hin)
  · rintro t' c ⟨⟩ hc hgranted
    cases hc
    exact absurd hgranted hnew
  · rintro t' b ⟨⟩ hb
    cases hb
  · rintro t' c ⟨⟩ hc
    cases hc
    refine ⟨?_, ?_, fun e' t' _ ht' hc' => hother ht' hc' rfl⟩
    · simp only [State.current, State.setThread, Function.update_self]
    · simp only [State.setThread, Function.update_self]
      exact fun hphase => by cases hphase
  · intro e' t' c _ ht' hc
    obtain ⟨hcurrent, hphase⟩ := h.inside e' t' c ht' hc
    simp only [State.current, State.setThread, Function.update_of_ne (hother ht' hc)]
    exact ⟨hcurrent, hphase⟩
  · intro m x hx
    by_cases hu : x.2.thread = u
    · refine Or.inl ?_
      rw [hu]
      simp only [State.setThread, Function.update_self]
      exact fun hphase => by cases hphase
    · simp only [State.setThread, Function.update_of_ne hu]
      exact h.wakes m x hx

/-- A `Wait` that has been granted returns. -/
theorem Linked.ret (h : Linked owner s) (ht : owner e = some t) (hc : t.Inside c) (hgranted : c ∈ s.granted)
    (hsent : ∀ m, ∀ op, Request.wait op c ∉ s.requests m) (hqueued : c ∉ s.queued e) {result : Bool}
    (hwakes : ∀ m, ∀ x ∈ s.wakes m, x.2.thread = c.thread → x.2 = c ∧ result = false) :
    Linked (Function.update owner e (some { t with waiter := .returned result })) (finish s c.thread result) := by
  obtain ⟨hset, hval⟩ := h.granted e t c ht hc hgranted
  have hother : ∀ {e' t' c'}, owner e' = some t' → t'.Inside c' → e' ≠ e → c'.thread ≠ c.thread := by
    intro e' t' c' ht' hc' hne hthread
    have hcurrent := (h.inside e' t' c' ht' hc').1
    rw [hthread, (h.inside e t c ht hc).1] at hcurrent
    subst hcurrent
    exact hne (h.one e' e t' t c ht' ht hc' hc)
  refine h.reassign rfl rfl rfl (fun _ _ _ hmem => hmem) (fun hval' => absurd hval hval') ?_ h.once ?_ ?_ ?_ ?_ ?_ ?_ ?_
  · intro m r hr
    obtain ⟨e', t', ht', hkind⟩ := h.requests m r hr
    by_cases he : e' = e
    · subst he
      obtain rfl : t' = t := Option.some.inj (ht'.symm.trans ht)
      refine ⟨e', _, Function.update_self _ _ _, Or.inr ?_⟩
      rcases hkind with ⟨c', rfl, hc'⟩ | hpost
      · rw [hc'.eq hc] at hr
        exact absurd hr (hsent m _)
      · exact hpost
    · exact ⟨e', t', by rw [Function.update_of_ne he]; exact ht', hkind⟩
  · intro u op timeout hphase
    by_cases hu : u = c.thread
    · subst hu
      simp only [finish, State.setThread, Function.update_self] at hphase
      cases hphase
    · simp only [finish, State.setThread, Function.update_of_ne hu] at hphase
      obtain ⟨e', t', ht', hop, hin⟩ := h.entering u op timeout hphase
      have he : e' ≠ e := by
        rintro rfl
        obtain rfl : t' = t := Option.some.inj (ht'.symm.trans ht)
        exact hu (congrArg Call.thread (hin.eq hc))
      refine ⟨e', t', by rw [Function.update_of_ne he]; exact ht', hop, ?_⟩
      simp only [finish, State.current, State.setThread, Function.update_of_ne hu]
      exact hin
  · intro c' hc'
    obtain ⟨t', ht', hin⟩ := h.queued e c' hc'
    obtain rfl : t' = t := Option.some.inj (ht'.symm.trans ht)
    rw [hin.eq hc] at hc'
    exact absurd hc' hqueued
  · rintro t' c' ⟨⟩ hc'
    cases hc'
  · rintro t' b ⟨⟩ hb
    exact ⟨hset, hval⟩
  · rintro t' c' ⟨⟩ hc'
    cases hc'
  · intro e' t' c' hne ht' hc'
    obtain ⟨hcurrent, hphase⟩ := h.inside e' t' c' ht' hc'
    simp only [finish, State.current, State.setThread, Function.update_of_ne (hother ht' hc' hne)]
    exact ⟨hcurrent, hphase⟩
  · intro m x hx
    by_cases hthread : x.2.thread = c.thread
    · obtain ⟨hcall, hfalse⟩ := hwakes m x hx hthread
      refine Or.inr (List.mem_append_right _ ?_)
      rw [hcall, hfalse, (h.inside e t c ht hc).1]
      exact List.mem_singleton_self _
    · simp only [finish, State.setThread, Function.update_of_ne hthread]
      exact (h.wakes m x hx).imp_right fun hmem => List.mem_append_left _ hmem

/-! ## The steps of the cluster -/

variable {place : SyncThreadNode → Place}

/-- The request of the `Wait` of a submission is under way. -/
theorem Linked.sendWait (h : Linked owner s) (ht : owner e = some t) (hc : t.Inside c) (machine : Nat) :
    Linked owner (send s machine (.wait (.waitForEvent e) c)) := by
  have hmem : ∀ {m r}, r ∈ (send s machine (.wait (.waitForEvent e) c)).requests m →
      r ∈ s.requests m ∨ r = .wait (.waitForEvent e) c := by
    intro m r hr
    simp only [SyncSystem.send, Function.update_apply] at hr
    split at hr
    · rename_i hm
      rw [hm]
      exact (List.mem_append.mp hr).imp_right List.mem_singleton.mp
    · exact Or.inl hr
  have hpost : ∀ m e', Request.post (.setEvent e') ∈ (send s machine (.wait (.waitForEvent e) c)).requests m →
      Request.post (.setEvent e') ∈ s.requests m := by
    intro m e' hr
    rcases hmem hr with hold | hreq
    · exact hold
    · cases hreq
  have hdone : ∀ {t : Tenure} {e'}, t.SetDone e' s → t.SetDone e' (send s machine (.wait (.waitForEvent e) c)) := by
    rintro t e' ⟨m, hposted, hgone⟩
    exact ⟨m, hposted, fun hr => hgone (hpost m e' hr)⟩
  refine ⟨h.data, fun e' hval => ?_, fun m r hr => ?_, fun m e' => ?_, h.entering, h.queued,
    fun e' t' c' ht' hc' hg => ?_, fun e' t' b ht' hb => ?_, h.inside, h.one, h.wakes⟩
  · obtain ⟨t', ht', hset, hwait⟩ := h.val e' hval
    exact ⟨t', ht', hdone hset, hwait⟩
  · rcases hmem hr with hold | rfl
    · exact h.requests m r hold
    · exact ⟨e, t, ht, Or.inl ⟨c, rfl, hc⟩⟩
  · simp only [SyncSystem.send, Function.update_apply]
    split
    · rename_i hm
      rw [List.count_append, List.count_singleton, if_neg (by simp)]
      exact h.once machine e'
    · exact h.once m e'
  · obtain ⟨hset, hval⟩ := h.granted e' t' c' ht' hc' hg
    exact ⟨hdone hset, hval⟩
  · obtain ⟨hset, hval⟩ := h.returned e' t' b ht' hb
    exact ⟨hdone hset, hval⟩

/-- A thread waits for its local event. -/
theorem Linked.waiting (h : Linked owner s) (u : SyncThreadNode) (timeout : Int) :
    Linked owner (s.setThread u { s.threads u with phase := .waiting timeout }) := by
  have hcurrent : ∀ v, (s.setThread u { s.threads u with phase := .waiting timeout }).current v = s.current v := by
    intro v
    by_cases hv : v = u
    · subst hv
      simp only [State.current, State.setThread, Function.update_self]
    · simp only [State.current, State.setThread, Function.update_of_ne hv]
  refine ⟨h.data, h.val, h.requests, h.once, fun v op timeout' hv => ?_, h.queued, h.granted, h.returned,
    fun e t c ht hc => ?_, h.one, fun m x hx => ?_⟩
  · rw [hcurrent]
    by_cases hvu : v = u
    · subst hvu
      simp only [State.setThread, Function.update_self] at hv
      cases hv
    · simp only [State.setThread, Function.update_of_ne hvu] at hv
      exact h.entering v op timeout' hv
  · rw [hcurrent]
    obtain ⟨hcur, hne⟩ := h.inside e t c ht hc
    refine ⟨hcur, ?_⟩
    by_cases hv : c.thread = u
    · rw [hv]
      simp only [State.setThread, Function.update_self]
      exact fun hphase => by cases hphase
    · simp only [State.setThread, Function.update_of_ne hv]
      exact hne
  · by_cases hv : x.2.thread = u
    · refine Or.inl ?_
      rw [hv]
      simp only [State.setThread, Function.update_self]
      exact fun hphase => by cases hphase
    · simp only [State.setThread, Function.update_of_ne hv]
      exact h.wakes m x hx

/-- The request of a thread goes to the master. -/
theorem Linked.send (h : Linked owner s) {u : SyncThreadNode} (hstep : SyncSystem.step eventDsm s (.send u) = some s') :
    Linked owner s' := by
  simp only [SyncSystem.step] at hstep
  split at hstep
  · rename_i op timeout hphase
    obtain ⟨e, t, ht, rfl, hin⟩ := h.entering u op timeout hphase
    have hwaiting := h.waiting u timeout
    have hcurrent : (s.setThread u { s.threads u with phase := .waiting timeout }).current u = s.current u := by
      simp only [State.current, State.setThread, Function.update_self]
    rw [hcurrent] at hstep
    obtain rfl := Option.some.inj hstep
    split
    · rename_i hmaster
      have hserve := linked_serveWait hwaiting ht hin
      have hmachine : (s.current u).thread.machine = 0 := hmaster
      rw [hmachine] at hserve
      exact hserve
    · exact hwaiting.sendWait ht hin u.machine
  · cases hstep

/-- The master handles the request that comes first from a node. -/
theorem Linked.deliver (h : Linked owner s) (hs : Inv place [] s) (hkeeps : ∀ e t, owner e = some t → t.waiter.Keeps)
    {machine : Nat} (hstep : SyncSystem.step eventDsm s (.deliver machine) = some s') : Linked owner s' := by
  simp only [SyncSystem.step] at hstep
  split at hstep
  · cases hstep
  · rename_i r rest hrequests
    have hmem : r ∈ s.requests machine := by
      rw [hrequests]
      exact List.mem_cons_self
    have hless : Linked owner { s with requests := Function.update s.requests machine rest } := by
      refine h.of_subset rfl rfl rfl rfl rfl (fun m => ?_) fun m => List.Subset.refl _
      simp only [Function.update_apply]
      split
      · rename_i hm
        rw [hm, hrequests]
        exact List.sublist_cons_self r rest
      · exact List.Sublist.refl _
    obtain ⟨e, t, ht, ⟨c, rfl, hc⟩ | ⟨rfl, hposted⟩⟩ := h.requests machine r hmem
    · have hcall : c ∈ callsOf (s.requests machine) := List.mem_filterMap.mpr ⟨_, hmem, rfl⟩
      obtain ⟨hmachine, _, _⟩ := hs.sent machine c hcall
      have hserve := linked_serveWait hless ht hc
      rw [hmachine] at hserve
      exact Option.some.inj hstep ▸ hserve
    · -- while its `Set` is under way, the event is not signalled and its `Wait` is not granted
      have hunset : ¬ t.SetDone e s := by
        rintro ⟨m, hm, hgone⟩
        obtain rfl : machine = m := Option.some.inj (hposted.symm.trans hm)
        exact hgone hmem
      have hset : t.SetDone e { s with requests := Function.update s.requests machine rest } := by
        refine ⟨machine, hposted, ?_⟩
        dsimp only
        rw [Function.update_self]
        intro hrest
        have honce := h.once machine e
        rw [hrequests, List.count_cons_self] at honce
        have hpos := List.count_pos_iff.mpr hrest
        omega
      refine linked_servePost hless ht hset (hs.tags e) (fun c hc hg => ?_) (fun b hb => ?_) ?_ hstep
      · exact hunset (h.granted e t c ht hc hg).1
      · exact hunset (h.returned e t b ht hb).1
      · have hk := hkeeps e t ht
        cases hw : t.waiter with
        | unused => exact Or.inl rfl
        | inside c => exact Or.inr ⟨c, hw⟩
        | returned b => exact absurd (h.returned e t b ht hw).1 hunset
        | pushed b => rw [hw] at hk; exact absurd hk id
        | notified b => rw [hw] at hk; exact absurd hk id

/-- A wake arrives. -/
theorem Linked.wake (h : Linked owner s) {machine : Nat}
    (hstep : SyncSystem.step eventDsm s (.wake machine) = some s') : Linked owner s' := by
  simp only [SyncSystem.step] at hstep
  split at hstep
  · cases hstep
  · obtain rfl := Option.some.inj hstep
    rename_i threadId c rest hwakes
    refine h.of_subset rfl rfl rfl rfl rfl (fun m => List.Sublist.refl _) fun m x hx => ?_
    simp only [State.rcSetRemoteEvent, Function.update_apply] at hx
    split at hx
    · rename_i hm
      rw [hm, hwakes]
      exact List.mem_cons_of_mem _ hx
    · exact hx

end Linked

/-! ## The pool -/

/-- The submission has the event: it has found it, and its `Wait` has not given it back. -/
def Submission.Has (sub : Submission) (e : ObjectKey) (t : Tenure) : Prop :=
  sub.finder = .found e ∧ sub.waiter.Keeps ∧ t.posted = sub.posted ∧ t.waiter = sub.waiter

/-- A job is set after it is done, and an event goes back after it has been set. -/
structure Submission.Ordered (sub : Submission) : Prop where
  unfound : (∀ e, sub.finder ≠ .found e) → sub.posted = none ∧ sub.waiter = .unused
  posted : sub.posted ≠ none → sub.finished = true
  back : ¬ sub.waiter.Keeps → sub.posted ≠ none

/-- What holds in every state. -/
structure Sound (owner : ObjectKey → Option Tenure) (s : Pool) : Prop where
  inv : ∃ place, SyncSystem.Inv place [] s.sys
  linked : Linked owner s.sys
  has : ∀ e t, owner e = some t ↔ (s.submissions t.submission).Has e t
  ordered : ∀ k, (s.submissions k).Ordered
  free : ∀ e ∈ s.eventQueue, owner e = none
  nodup : s.eventQueue.Nodup
  known : ∀ e, e ∉ s.events → owner e = none ∧ e ∉ s.eventQueue

section Pool

variable {owner : ObjectKey → Option Tenure} {s : Pool} {k : Nat} {sub : Submission} {e : ObjectKey} {t : Tenure}

theorem Sound.owner_eq (h : Sound owner s) (hfound : (s.submissions k).finder = .found e) (hkeeps : (s.submissions k).waiter.Keeps) :
    owner e = some ⟨k, (s.submissions k).posted, (s.submissions k).waiter⟩ :=
  (h.has e _).mpr ⟨hfound, hkeeps, rfl, rfl⟩

theorem Sound.keeps (h : Sound owner s) (e : ObjectKey) (t : Tenure) (ht : owner e = some t) : t.waiter.Keeps := by
  obtain ⟨_, hkeeps, _, hw⟩ := (h.has e t).mp ht
  rw [hw]
  exact hkeeps

/-- The submission goes on and has the same events as before. -/
theorem owner_same (h : ∀ e t, owner e = some t ↔ (s.submissions t.submission).Has e t)
    (hsame : ∀ e t, sub.Has e t ↔ (s.submissions k).Has e t) (e : ObjectKey) (t : Tenure) :
    owner e = some t ↔ ((s.setSubmission k sub).submissions t.submission).Has e t := by
  rw [h, Pool.setSubmission]
  by_cases hk : t.submission = k
  · rw [hk]
    simp only [Function.update_self]
    exact (hsame e t).symm
  · simp only [Function.update_of_ne hk]

/-- The submission has the event `e`, and has had no other one. -/
theorem owner_put (h : ∀ e t, owner e = some t ↔ (s.submissions t.submission).Has e t)
    (hfree : ∀ t, owner e = some t → t.submission = k) (hother : ∀ e' t, (s.submissions k).Has e' t → e' = e)
    (hfound : sub.finder = .found e) (hkeeps : sub.waiter.Keeps) (e' : ObjectKey) (t : Tenure) :
    Function.update owner e (some ⟨k, sub.posted, sub.waiter⟩) e' = some t ↔
      ((s.setSubmission k sub).submissions t.submission).Has e' t := by
  rw [Pool.setSubmission]
  by_cases hk : t.submission = k
  · rw [hk]
    simp only [Function.update_self]
    by_cases he : e' = e
    · subst he
      rw [Function.update_self]
      constructor
      · rintro ⟨⟩
        exact ⟨hfound, hkeeps, rfl, rfl⟩
      · rintro ⟨_, _, hposted, hwaiter⟩
        obtain ⟨k', posted, waiter⟩ := t
        dsimp only at hk hposted hwaiter
        rw [hk, hposted, hwaiter]
    · rw [Function.update_of_ne he, h, hk]
      refine iff_of_false (fun hhas => he (hother e' t hhas)) fun hhas => he ?_
      rw [Submission.Has, hfound] at hhas
      exact (Finder.found.inj hhas.1).symm
  · simp only [Function.update_of_ne hk]
    by_cases he : e' = e
    · subst he
      rw [Function.update_self]
      refine iff_of_false ?_ fun hhas => hk (hfree t ((h e' t).mpr hhas))
      rintro ⟨⟩
      exact hk rfl
    · rw [Function.update_of_ne he, h]

/-- The submission gives the event `e` back. -/
theorem owner_drop (h : ∀ e t, owner e = some t ↔ (s.submissions t.submission).Has e t)
    (hfound : (s.submissions k).finder = .found e) (ht : owner e = some t) (hk : t.submission = k)
    (hback : ¬ sub.waiter.Keeps) (e' : ObjectKey) (t' : Tenure) :
    Function.update owner e none e' = some t' ↔ ((s.setSubmission k sub).submissions t'.submission).Has e' t' := by
  rw [Pool.setSubmission]
  by_cases hk' : t'.submission = k
  · rw [hk']
    simp only [Function.update_self]
    refine iff_of_false ?_ fun hhas => hback hhas.2.1
    by_cases he : e' = e
    · subst he
      rw [Function.update_self]
      exact fun hnone => by cases hnone
    · rw [Function.update_of_ne he, h, hk']
      intro hhas
      exact he (Finder.found.inj (hhas.1.symm.trans hfound))
  · simp only [Function.update_of_ne hk']
    by_cases he : e' = e
    · subst he
      rw [Function.update_self]
      refine iff_of_false (fun hnone => by cases hnone) fun hhas => ?_
      have hsame : t' = t := Option.some.inj (((h e' t').mpr hhas).symm.trans ht)
      rw [hsame] at hk'
      exact hk' hk
    · rw [Function.update_of_ne he, h]

theorem ordered_set (h : ∀ k, (s.submissions k).Ordered) (hsub : sub.Ordered) (k' : Nat) :
    ((s.setSubmission k sub).submissions k').Ordered := by
  rw [Pool.setSubmission]
  by_cases hk : k' = k
  · rw [hk]
    simp only [Function.update_self]
    exact hsub
  · simp only [Function.update_of_ne hk]
    exact h k'

/-- Nothing but the submission itself has changed, and it has the events it had. -/
theorem Sound.same (h : Sound owner s) (hsub : sub.Ordered) (hsame : ∀ e t, sub.Has e t ↔ (s.submissions k).Has e t)
    (n : Nat) : Sound owner { s.setSubmission k sub with semLock := n } :=
  ⟨h.inv, h.linked, owner_same h.has hsame, ordered_set h.ordered hsub, h.free, h.nodup, h.known⟩

/-- The submission that has the event goes on, and so does the cluster. -/
theorem Sound.go_on (h : Sound owner s) {sys : State} (hinv : ∃ place, SyncSystem.Inv place [] sys)
    (hfound : sub.finder = .found e) (hkeeps : sub.waiter.Keeps) (hold : (s.submissions k).finder = .found e)
    (hkeeps' : (s.submissions k).waiter.Keeps) (hsub : sub.Ordered)
    (hlinked : Linked (Function.update owner e (some ⟨k, sub.posted, sub.waiter⟩)) sys) :
    Sound (Function.update owner e (some ⟨k, sub.posted, sub.waiter⟩)) { s.setSubmission k sub with sys := sys } := by
  have howner := h.owner_eq hold hkeeps'
  have hne : ∀ {e'}, owner e' = none → e' ≠ e := by
    rintro e' hnone rfl
    rw [hnone] at howner
    cases howner
  refine ⟨hinv, hlinked, ?_, ordered_set h.ordered hsub, fun e' he' => ?_, h.nodup, fun e' he' => ?_⟩
  · refine owner_put h.has (fun t ht => ?_) (fun e' t hhas => ?_) hfound hkeeps
    · rw [howner] at ht
      exact (congrArg Tenure.submission (Option.some.inj ht)).symm
    · exact Finder.found.inj (hhas.1.symm.trans hold)
  · rw [Function.update_of_ne (hne (h.free e' he'))]
    exact h.free e' he'
  · obtain ⟨hnone, hqueue⟩ := h.known e' he'
    rw [Function.update_of_ne (hne hnone)]
    exact ⟨hnone, hqueue⟩

/-- A submission finds an event that is free. -/
theorem Sound.find (h : Sound owner s) (hfinder : ∀ e, (s.submissions k).finder ≠ .found e) (hfree : owner e = none)
    {events queue : List ObjectKey} (hqueue : queue.Sublist s.eventQueue) (hnot : e ∉ queue)
    (hknown : ∀ e', e' ∉ events → e' ∉ s.events ∧ e' ≠ e) :
    Sound (Function.update owner e (some ⟨k, none, .unused⟩))
      { s.setSubmission k { s.submissions k with finder := .found e } with events := events, eventQueue := queue } := by
  obtain ⟨hposted, hunused⟩ := (h.ordered k).unfound hfinder
  refine ⟨h.inv, h.linked.give hfree k, ?_, ?_, fun e' he' => ?_, h.nodup.sublist hqueue, fun e' he' => ?_⟩
  · have hput := @owner_put owner s k { s.submissions k with finder := .found e } e h.has
      (fun t ht => by rw [hfree] at ht; cases ht) (fun e' t hhas => absurd hhas.1 (hfinder e')) rfl
      (by dsimp only; rw [hunused]; trivial)
    have hnew : (⟨k, none, .unused⟩ : Tenure) = ⟨k, (s.submissions k).posted, (s.submissions k).waiter⟩ := by
      rw [hposted, hunused]
    rw [hnew]
    exact hput
  · refine ordered_set h.ordered ⟨fun hnone => absurd rfl (hnone e), fun hne => absurd hposted hne, fun hback => ?_⟩
    dsimp only at hback
    rw [hunused] at hback
    exact absurd trivial hback
  · have hne : e' ≠ e := by
      rintro rfl
      exact hnot he'
    rw [Function.update_of_ne hne]
    exact h.free e' (hqueue.subset he')
  · obtain ⟨he, hne⟩ := hknown e' he'
    rw [Function.update_of_ne hne]
    exact ⟨(h.known e' he).1, fun hmem => (h.known e' he).2 (hqueue.subset hmem)⟩

/-- A submission whose `Wait` is not back has found its event. -/
theorem Sound.found (h : Sound owner s) (hused : (s.submissions k).waiter ≠ .unused) :
    ∃ e, (s.submissions k).finder = .found e := by
  by_contra hnone
  exact hused ((h.ordered k).unfound (not_exists.mp hnone)).2

theorem Sound.current (h : Sound owner s) {c : Call} (hinside : (s.submissions k).waiter = .inside c) :
    s.sys.current c.thread = c := by
  obtain ⟨e, hfound⟩ := h.found (by rw [hinside]; exact Waiter.noConfusion)
  have hkeeps : (s.submissions k).waiter.Keeps := by rw [hinside]; trivial
  exact (h.linked.inside e _ c (h.owner_eq hfound hkeeps) hinside).1

/-- `Wait` gives its event back. -/
theorem Sound.push (h : Sound owner s) {result : Bool} (hfound : (s.submissions k).finder = .found e)
    (hreturned : (s.submissions k).waiter = .returned result) :
    Sound (Function.update owner e none)
      { s.setSubmission k { s.submissions k with waiter := .pushed result } with eventQueue := s.eventQueue ++ [e] } := by
  have hkeeps : (s.submissions k).waiter.Keeps := by rw [hreturned]; trivial
  have howner := h.owner_eq hfound hkeeps
  have hnot : e ∉ s.eventQueue := fun hmem => by
    rw [h.free e hmem] at howner
    cases howner
  obtain ⟨⟨m, hposted, _⟩, _⟩ := h.linked.returned e _ result howner hreturned
  have hposted' : (s.submissions k).posted ≠ none := by
    rw [show (s.submissions k).posted = some m from hposted]
    exact Option.some_ne_none m
  refine ⟨h.inv, h.linked.back howner hreturned, ?_, ?_, fun e' he' => ?_, ?_, fun e' he' => ?_⟩
  · exact @owner_drop owner s k { s.submissions k with waiter := .pushed result } e _ h.has hfound howner rfl id
  · exact ordered_set h.ordered ⟨fun hnone => absurd hfound (hnone e), (h.ordered k).posted, fun _ => hposted'⟩
  · rcases List.mem_append.mp he' with hold | hnew
    · have hne : e' ≠ e := by
        rintro rfl
        exact hnot hold
      rw [Function.update_of_ne hne]
      exact h.free e' hold
    · rw [List.mem_singleton.mp hnew, Function.update_self]
  · refine List.nodup_append.mpr ⟨h.nodup, List.nodup_singleton e, ?_⟩
    rintro x hx y hy rfl
    rw [List.mem_singleton] at hy
    exact hnot (hy ▸ hx)
  · obtain ⟨hnone, hqueue⟩ := h.known e' he'
    have hne : e' ≠ e := by
      rintro rfl
      rw [hnone] at howner
      cases howner
    rw [Function.update_of_ne hne]
    exact ⟨hnone, by simpa using ⟨hqueue, hne⟩⟩

/-- A `Wait` returns after its grant. -/
theorem Sound.ret (h : Sound owner s) {c : Call} (hwaiter : (s.submissions k).waiter = .inside c)
    (hgranted : c ∈ s.sys.granted) (result : Bool) (hevent : result = true → s.sys.event c.thread = true)
    (hinv : ∃ place, SyncSystem.Inv place [] (finish s.sys c.thread result)) :
    ∃ owner', Sound owner' { s.setSubmission k { s.submissions k with waiter := .returned result } with
      sys := finish s.sys c.thread result } := by
  have hkeeps : (s.submissions k).waiter.Keeps := by rw [hwaiter]; trivial
  obtain ⟨e, hfound⟩ := h.found (by rw [hwaiter]; exact Waiter.noConfusion)
  have howner := h.owner_eq hfound hkeeps
  obtain ⟨place, hs⟩ := h.inv
  have hsent : ∀ m op, Request.wait op c ∉ s.sys.requests m := fun m op hr =>
    (hs.sent m c (List.mem_filterMap.mpr ⟨_, hr, rfl⟩)).2.1.open_ hgranted
  have hqueued : c ∉ s.sys.queued e := fun hq => (hs.queued e c hq).1.open_ hgranted
  have hwakes : ∀ m, ∀ x ∈ s.sys.wakes m, x.2.thread = c.thread → x.2 = c ∧ result = false := by
    intro m x hx hthread
    obtain ⟨_, hcurrent, _, hunset, _⟩ := hs.wakes m x hx
    rw [hthread] at hcurrent hunset
    refine ⟨hcurrent.symm.trans (h.current hwaiter), ?_⟩
    cases result with
    | false => rfl
    | true => rw [hevent rfl] at hunset; cases hunset
  have hlinked := h.linked.ret howner hwaiter hgranted hsent hqueued hwakes
  exact ⟨_, h.go_on hinv hfound trivial hfound hkeeps ⟨fun hnone => absurd hfound (hnone e),
    (h.ordered k).posted, fun hback => absurd trivial hback⟩ hlinked⟩

/-- A submission that has found no event yet moves on in `FindEvent`. -/
theorem Sound.move (h : Sound owner s) (hold : ∀ e, (s.submissions k).finder ≠ .found e) {finder : Finder}
    (hnew : ∀ e, finder ≠ .found e) (n : Nat) :
    Sound owner { s.setSubmission k { s.submissions k with finder := finder } with semLock := n } :=
  @Sound.same owner s k { s.submissions k with finder := finder } h
    ⟨fun _ => (h.ordered k).unfound hold, (h.ordered k).posted, (h.ordered k).back⟩
    (fun e _ => iff_of_false (fun hhas => hnew e hhas.1) fun hhas => hold e hhas.1) n

/-- Only the cluster has gone on. -/
theorem Sound.sys (h : Sound owner s) {sys : State} (hinv : ∃ place, SyncSystem.Inv place [] sys)
    (hlinked : Linked owner sys) : Sound owner { s with sys := sys } :=
  ⟨hinv, hlinked, h.has, h.ordered, h.free, h.nodup, h.known⟩

/-- The job sets its event. -/
theorem Sound.setEvent (h : Sound owner s) {worker : SyncThreadNode} (hfound : (s.submissions k).finder = .found e)
    (hfinished : (s.submissions k).finished = true) (hposted : (s.submissions k).posted = none)
    (hworker : worker.machine ≠ 0) {sys : State}
    (hsys : SyncSystem.step eventDsm s.sys (.post worker (.setEvent e)) = some sys) :
    ∃ owner', Sound owner'
      { s.setSubmission k { s.submissions k with posted := some worker.machine } with sys := sys } := by
  have hkeeps : (s.submissions k).waiter.Keeps := by
    by_contra hback
    exact (h.ordered k).back hback hposted
  have hinv := inv_step h.inv (by exact trivial) hsys
  have hsend : sys = send s.sys worker.machine (.post (.setEvent e)) := by
    simp only [SyncSystem.step, if_neg hworker] at hsys
    split at hsys
    · exact (Option.some.inj hsys).symm
    · cases hsys
  have hlinked := h.linked.post (h.owner_eq hfound hkeeps) hposted worker.machine
  rw [← hsend] at hlinked
  exact ⟨_, h.go_on hinv hfound hkeeps hfound hkeeps ⟨fun hnone => absurd hfound (hnone e),
    fun _ => hfinished, fun hback => absurd hkeeps hback⟩ hlinked⟩

/-- A thread waits for the event of a submission. -/
theorem Sound.wait (h : Sound owner s) {u : SyncThreadNode} {timeout : Int}
    (hfound : (s.submissions k).finder = .found e) (hunused : (s.submissions k).waiter = .unused) {sys : State}
    (hok : Orderly s.sys (.call u (.waitForEvent e) timeout))
    (hsys : SyncSystem.step eventDsm s.sys (.call u (.waitForEvent e) timeout) = some sys) :
    ∃ owner', Sound owner'
      { s.setSubmission k { s.submissions k with waiter := .inside (sys.current u) } with sys := sys } := by
  have hkeeps : (s.submissions k).waiter.Keeps := by rw [hunused]; trivial
  have hinv := inv_step h.inv hok hsys
  simp only [SyncSystem.step] at hsys
  split at hsys
  · rename_i hidle
    obtain ⟨place, hs⟩ := h.inv
    have hnew : (⟨u, (s.sys.threads u).calls + 1⟩ : Call) ∉ s.sys.granted :=
      fun hmem => absurd (hs.granted _ hmem) (Nat.not_succ_le_self _)
    have hlinked := h.linked.call (h.owner_eq hfound hkeeps) hunused hidle hnew timeout
      (Function.update s.sys.event u false)
    rw [Option.some.inj hsys] at hlinked
    have hcurrent : sys.current u = ⟨u, (s.sys.threads u).calls + 1⟩ := by
      rw [← Option.some.inj hsys]
      simp only [State.current, State.setThread, Function.update_self]
    rw [hcurrent]
    exact ⟨_, h.go_on hinv hfound trivial hfound hkeeps ⟨fun hnone => absurd hfound (hnone e),
      (h.ordered k).posted, fun hback => absurd trivial hback⟩ hlinked⟩
  · cases hsys

/-- A `Wait` whose event is set returns true. -/
theorem Sound.ret_true (h : Sound owner s) {c : Call} (hinside : (s.submissions k).waiter = .inside c) {sys : State}
    (hsys : SyncSystem.step eventDsm s.sys (.ret c.thread) = some sys) :
    ∃ owner', Sound owner'
      { s.setSubmission k { s.submissions k with waiter := .returned true } with sys := sys } := by
  have hinv := @inv_step s.sys eventDsm h.inv (.ret c.thread) trivial sys hsys
  simp only [SyncSystem.step] at hsys
  split at hsys
  · rename_i timeout hwaiting
    split at hsys
    · rename_i hevent
      obtain rfl := Option.some.inj hsys
      obtain ⟨place, hs⟩ := h.inv
      have hgranted := hs.event c.thread (by rw [hwaiting]; exact Phase.noConfusion) hevent
      rw [h.current hinside] at hgranted
      exact h.ret hinside hgranted true (fun _ => hevent) hinv
    · cases hsys
  · cases hsys

/-- A `Wait` times out after its grant. -/
theorem Sound.ret_false (h : Sound owner s) {c : Call} (hinside : (s.submissions k).waiter = .inside c)
    (hgranted : c ∈ s.sys.granted) {sys : State}
    (hsys : SyncSystem.step eventDsm s.sys (.timeout c.thread) = some sys) :
    ∃ owner', Sound owner'
      { s.setSubmission k { s.submissions k with waiter := .returned false } with sys := sys } := by
  have hinv := @inv_step s.sys eventDsm h.inv (.timeout c.thread)
    (by rw [Orderly, h.current hinside]; exact hgranted) sys hsys
  simp only [SyncSystem.step] at hsys
  split at hsys
  · split at hsys
    · obtain rfl := Option.some.inj hsys
      exact h.ret hinside hgranted false Bool.noConfusion hinv
    · cases hsys
  · cases hsys

variable {home maxWaitEvents : Nat}

theorem sound_step {s' : Pool} (h : ∃ owner, Sound owner s) {a : Pool.Act} (hok : s.Timely home a)
    (hstep : s.step home maxWaitEvents a = some s') : ∃ owner, Sound owner s' := by
  obtain ⟨owner, h⟩ := h
  have hunfound : ∀ {k finder}, (s.submissions k).finder = finder → (∀ e, finder ≠ .found e) →
      ∀ e, (s.submissions k).finder ≠ .found e := by
    rintro k finder rfl hne
    exact hne
  cases moves_of_step hstep with
  | newEvent houtside hnew =>
      refine ⟨_, h.find (hunfound houtside (fun _ => Finder.noConfusion)) (h.known _ hnew).1 (List.Sublist.refl _)
        (h.known _ hnew).2 fun e' he' => ?_⟩
      rw [List.mem_append, not_or, List.mem_singleton] at he'
      exact he'
  | park houtside =>
      exact ⟨owner, h.move (hunfound houtside (fun _ => Finder.noConfusion)) (fun _ => Finder.noConfusion) s.semLock⟩
  | permit hparked =>
      exact ⟨owner, h.move (hunfound hparked (fun _ => Finder.noConfusion)) (fun _ => Finder.noConfusion)
        (s.semLock - 1)⟩
  | @take k e rest hpermitted hqueue =>
      have hmem : e ∈ s.eventQueue := by
        rw [hqueue]
        exact List.mem_cons_self
      have hnodup := h.nodup
      rw [hqueue, List.nodup_cons] at hnodup
      refine ⟨_, h.find (hunfound hpermitted (fun _ => Finder.noConfusion)) (h.free e hmem) ?_ hnodup.1
        fun e' he' => ⟨he', ?_⟩⟩
      · rw [hqueue]
        exact List.sublist_cons_self e rest
      · rintro rfl
        exact (h.known e' he').2 hmem
  | @finishJob k =>
      exact ⟨owner, @Sound.same owner s k { s.submissions k with finished := true } h
        ⟨(h.ordered k).unfound, fun _ => rfl, (h.ordered k).back⟩ (fun _ _ => Iff.rfl) s.semLock⟩
  | setEvent hfound hfinished hposted hworker hsys => exact h.setEvent hfound hfinished hposted hworker hsys
  | wait hfound hunused hsys => exact h.wait hfound hunused hok hsys
  | ret hinside hsys => exact h.ret_true hinside hsys
  | timeout hinside hsys =>
      simp only [Pool.Timely, hinside] at hok
      exact h.ret_false hinside hok hsys
  | push hfound hreturned => exact ⟨_, h.push hfound hreturned⟩
  | @notify k result hpushed =>
      have hback : ¬ (s.submissions k).waiter.Keeps := by rw [hpushed]; exact id
      exact ⟨owner, @Sound.same owner s k { s.submissions k with waiter := .notified result } h
        ⟨fun hnone => absurd ((h.ordered k).unfound hnone).1 ((h.ordered k).back hback), (h.ordered k).posted,
          fun _ => (h.ordered k).back hback⟩
        (fun _ _ => iff_of_false (fun hhas => hhas.2.1) fun hhas => hback hhas.2.1) (s.semLock + 1)⟩
  | send hsys => exact ⟨owner, h.sys (inv_step h.inv (by exact trivial) hsys) (h.linked.send hsys)⟩
  | deliver hsys =>
      obtain ⟨place, hs⟩ := h.inv
      exact ⟨owner, h.sys (inv_step h.inv (by exact trivial) hsys) (h.linked.deliver hs h.keeps hsys)⟩
  | wake hsys => exact ⟨owner, h.sys (inv_step h.inv (by exact trivial) hsys) (h.linked.wake hsys)⟩

theorem sound_start : Sound (fun _ => none) Pool.start where
  inv := ⟨_, SyncSystem.inv_start⟩
  linked := linked_start
  has := fun _ _ => iff_of_false (fun hnone => by cases hnone) fun hhas => by cases hhas.1
  ordered := fun _ => ⟨fun _ => ⟨rfl, rfl⟩, fun hne => absurd rfl hne, fun hback => absurd trivial hback⟩
  free := fun _ hmem => by cases hmem
  nodup := List.nodup_nil
  known := fun _ _ => ⟨rfl, List.not_mem_nil⟩

theorem Sound.notShared (h : Sound owner s) : s.NotShared := by
  intro k k' e hfound hfound' hrunning hrunning'
  have hkeeps : ∀ k, (s.submissions k).finished = false → (s.submissions k).waiter.Keeps := by
    intro k hk
    by_contra hback
    rw [(h.ordered k).posted ((h.ordered k).back hback)] at hk
    cases hk
  have hsame := (h.owner_eq hfound (hkeeps k hrunning)).symm.trans (h.owner_eq hfound' (hkeeps k' hrunning'))
  exact congrArg Tenure.submission (Option.some.inj hsame)

theorem Sound.trueAfterJob (h : Sound owner s) : s.TrueAfterJob := by
  intro k hresult
  refine (h.ordered k).posted ?_
  by_cases hkeeps : (s.submissions k).waiter.Keeps
  · obtain ⟨e, hfound⟩ := h.found fun hunused => by rw [hunused] at hresult; cases hresult
    have hreturned : ∃ b, (s.submissions k).waiter = .returned b := by
      cases hw : (s.submissions k).waiter with
      | returned b => exact ⟨b, rfl⟩
      | unused => rw [hw] at hresult; cases hresult
      | inside c => rw [hw] at hresult; cases hresult
      | pushed b => rw [hw] at hkeeps; exact absurd hkeeps id
      | notified b => rw [hw] at hkeeps; exact absurd hkeeps id
    obtain ⟨b, hb⟩ := hreturned
    obtain ⟨⟨m, hposted, _⟩, _⟩ := h.linked.returned e _ b (h.owner_eq hfound hkeeps) hb
    rw [show (s.submissions k).posted = some m from hposted]
    exact Option.some_ne_none m
  · exact (h.ordered k).back hkeeps

/-- A thread that has never timed out has no wake under way when it is in no call. -/
theorem Sound.no_wake (h : Sound owner s) (hfalse : ∀ c, (c, false) ∉ s.sys.returned) {threadId : Nat}
    (hidle : (s.sys.threads ⟨home, threadId⟩).phase = .idle) (x : Nat × Call) (hx : x ∈ s.sys.wakes home) :
    x.1 ≠ threadId := by
  rintro rfl
  obtain ⟨place, hs⟩ := h.inv
  have hthread := (hs.wakes home x hx).1
  rcases h.linked.wakes home x hx with hphase | hmem
  · rw [hthread] at hphase
    exact hphase hidle
  · exact hfalse x.2 hmem

end Pool

/-- Every state of every timely run. -/
theorem sound_run {home maxWaitEvents : Nat} {acts : List Pool.Act} {s : Pool}
    (hok : Along (Pool.step home maxWaitEvents) (Pool.Timely home) Pool.start acts)
    (hrun : run (Pool.step home maxWaitEvents) Pool.start acts = some s) : ∃ owner, Sound owner s :=
  invariant_run (fun _ _ _ hs hok hstep => sound_step hs hok hstep) ⟨_, sound_start⟩ hok hrun

/-! ## Runs without timeouts -/

theorem wakeAll_returned (us : List SyncThreadNode) (s : State) (calls : List Call) :
    (s.wakeAll us calls).returned = s.returned := by
  induction us generalizing s calls with
  | nil => rfl
  | cons u rest ih =>
      rw [State.wakeAll, ih]
      simp only [State.rcWakeRemoteThread]
      split <;> rfl

/-- Only a timeout makes a call return false. -/
theorem step_returned {dsm : Dsm} {s s' : State} {a : SyncSystem.Act} (ha : ∀ u, a ≠ .timeout u)
    (hstep : SyncSystem.step dsm s a = some s') {c : Call} (hc : (c, false) ∈ s'.returned) :
    (c, false) ∈ s.returned := by
  have hpost : ∀ {s s' : State} {op}, servePost dsm s op = some s' → s'.returned = s.returned := by
    intro s s' op hserve
    obtain ⟨r, _, rfl⟩ := Option.map_eq_some_iff.mp hserve
    exact wakeAll_returned ..
  cases a with
  | call u op timeout =>
      simp only [SyncSystem.step] at hstep
      split at hstep
      · obtain rfl := Option.some.inj hstep
        exact hc
      · cases hstep
  | send u =>
      simp only [SyncSystem.step] at hstep
      split at hstep
      · obtain rfl := Option.some.inj hstep
        split at hc
        · rw [serveWait, wakeAll_returned] at hc
          exact hc
        · exact hc
      · cases hstep
  | ret u =>
      simp only [SyncSystem.step] at hstep
      split at hstep
      · split at hstep
        · obtain rfl := Option.some.inj hstep
          rcases List.mem_append.mp hc with hold | hnew
          · exact hold
          · cases List.mem_singleton.mp hnew
        · cases hstep
      · cases hstep
  | timeout u => exact absurd rfl (ha u)
  | post u op =>
      simp only [SyncSystem.step] at hstep
      split at hstep
      · split at hstep
        · rw [hpost hstep] at hc
          exact hc
        · obtain rfl := Option.some.inj hstep
          exact hc
      · cases hstep
  | deliver machine =>
      simp only [SyncSystem.step] at hstep
      split at hstep
      · cases hstep
      · split at hstep
        · obtain rfl := Option.some.inj hstep
          rw [serveWait, wakeAll_returned] at hc
          exact hc
        · rw [hpost hstep] at hc
          exact hc
  | wake machine =>
      simp only [SyncSystem.step] at hstep
      split at hstep
      · cases hstep
      · obtain rfl := Option.some.inj hstep
        exact hc

section NoTimeout

variable {home maxWaitEvents : Nat} {s s' : Pool} {a : Pool.Act}

/-- The cluster stands still, or it makes a step that is no timeout. -/
theorem sys_step (ha : ∀ k, a ≠ .timeout k) (hstep : s.step home maxWaitEvents a = some s') :
    s'.sys = s.sys ∨ ∃ b, (∀ u, b ≠ .timeout u) ∧ SyncSystem.step eventDsm s.sys b = some s'.sys := by
  cases moves_of_step hstep with
  | timeout _ _ => exact absurd rfl (ha _)
  | setEvent _ _ _ _ hsys => exact Or.inr ⟨_, fun _ => SyncSystem.Act.noConfusion, hsys⟩
  | wait _ _ hsys | ret _ hsys => exact Or.inr ⟨_, fun _ => SyncSystem.Act.noConfusion, hsys⟩
  | send hsys | deliver hsys | wake hsys => exact Or.inr ⟨_, fun _ => SyncSystem.Act.noConfusion, hsys⟩
  | _ => exact Or.inl rfl

theorem timely_of_returned {owner : ObjectKey → Option Tenure} (h : Sound owner s)
    (hfalse : ∀ c, (c, false) ∉ s.sys.returned) (ha : ∀ k, a ≠ .timeout k)
    (hstep : s.step home maxWaitEvents a = some s') : s.Timely home a := by
  cases moves_of_step hstep with
  | timeout _ _ => exact absurd rfl (ha _)
  | wait _ _ hsys =>
      simp only [SyncSystem.step] at hsys
      split at hsys
      · rename_i hidle
        exact h.no_wake hfalse hidle
      · cases hsys
  | _ => trivial

/-- A run in which no `Wait` times out is timely. -/
theorem timely_of_no_timeout {owner : ObjectKey → Option Tenure} (h : Sound owner s)
    (hfalse : ∀ c, (c, false) ∉ s.sys.returned) {acts : List Pool.Act} (hno : ∀ k, .timeout k ∉ acts)
    (hrun : run (Pool.step home maxWaitEvents) s acts = some s') :
    Along (Pool.step home maxWaitEvents) (Pool.Timely home) s acts := by
  induction acts generalizing owner s with
  | nil => trivial
  | cons a rest ih =>
      obtain ⟨t, hstep, hrest⟩ := Option.bind_eq_some_iff.mp hrun
      have ha : ∀ k, a ≠ .timeout k := fun k heq => hno k (by rw [heq]; exact List.mem_cons_self)
      have hok := timely_of_returned h hfalse ha hstep
      refine ⟨hok, fun t' ht' => ?_⟩
      obtain rfl : t = t' := Option.some.inj (hstep.symm.trans ht')
      obtain ⟨owner', h'⟩ := sound_step ⟨owner, h⟩ hok hstep
      refine ih h' (fun c hc => ?_) (fun k hk => hno k (List.mem_cons_of_mem a hk)) hrest
      rcases sys_step ha hstep with hsame | ⟨b, hb, hsys⟩
      · rw [hsame] at hc
        exact hfalse c hc
      · exact hfalse c (step_returned hb hsys hc)

end NoTimeout

/-- In particular in every run without timeouts. -/
theorem events_not_shared_of_no_timeout (home maxWaitEvents : Nat) (acts : List Pool.Act) {s : Pool}
    (hno : ∀ k, .timeout k ∉ acts) (hrun : run (Pool.step home maxWaitEvents) Pool.start acts = some s) :
    s.NotShared ∧ s.TrueAfterJob := by
  have hok := timely_of_no_timeout sound_start (fun _ hc => by cases hc) hno hrun
  obtain ⟨owner, h⟩ := sound_run hok hrun
  exact ⟨h.notShared, h.trueAfterJob⟩

end Dogee.ThreadPool
