import Dogee.SemaphorePermits
import Mathlib.Data.List.Perm.Subperm

/-!
# The holders of a semaphore

The permits that are given out, counted with the threads that hold them, in every run of
the cluster.
-/

namespace Dogee.SemaphoreUsers

open Transition SyncManager SyncSystem

variable {dsm : Dsm} {b : Users dsm} {m : Manager} {held queued : Nat} {id : ObjectKey} {rs : List Request}
  {us : List SyncThreadNode} {s s' : SyncSystem.State} {place : SyncThreadNode → Place} {c : Call}
  {left woken : List Call} {t t' : State} {u : SyncThreadNode}

/-- A thread holds a permit when it has been woken, when it is inside and while its release
is on its way. -/
def Holds (t : State) (u : SyncThreadNode) : Prop :=
  (t.acquiring u = true ∧ (t.sys.threads u).phase ≠ .idle ∧ t.sys.current u ∈ t.sys.granted) ∨
    t.inside u = true ∨ u ∈ t.leaving u.machine

instance (t : State) : DecidablePred (Holds t) := fun u => by
  unfold Holds
  infer_instance

variable (b) in
def holders (t : State) : Nat := b.users.countP fun u => decide (Holds t u)

theorem holders_same (h : ∀ u, Holds t' u ↔ Holds t u) : holders b t' = holders b t := by
  apply List.countP_congr
  intro u _
  rw [decide_eq_true_iff, decide_eq_true_iff]
  exact h u

/-- One thread has taken a permit. -/
theorem holders_take (hu : u ∈ b.users) (hother : ∀ v, v ≠ u → (Holds t' v ↔ Holds t v))
    (hnot : ¬ Holds t u) (hself : Holds t' u) : holders b t' = holders b t + 1 := by
  have hperm := List.perm_cons_erase hu
  have hrest : (b.users.erase u).countP (fun v => decide (Holds t' v)) =
      (b.users.erase u).countP fun v => decide (Holds t v) := by
    apply List.countP_congr
    intro v hv
    rw [decide_eq_true_iff, decide_eq_true_iff]
    apply hother
    rintro rfl
    exact b.nodup.not_mem_erase hv
  unfold holders
  rw [hperm.countP_eq, hperm.countP_eq, List.countP_cons_of_pos (by exact decide_eq_true hself),
    List.countP_cons_of_neg (by rw [decide_eq_true_iff]; exact hnot), hrest]

/-- What holds of the threads that use the semaphore and of their calls. -/
structure Sound (b : Users dsm) (t : State) : Prop where
  sent : ∀ m op c, Request.wait op c ∈ t.sys.requests m →
    (op.object = b.id → op = .enterSemaphore b.id) ∧ (t.acquiring c.thread = true ↔ op.object = b.id)
  posted : ∀ m op, Request.post op ∈ t.sys.requests m → op.object = b.id → op = .leaveSemaphore b.id
  entering : ∀ u op timeout, (t.sys.threads u).phase = .entering op timeout →
    (op.object = b.id → op = .enterSemaphore b.id ∧ timeout < 0) ∧ (t.acquiring u = true ↔ op.object = b.id)
  queued : ∀ id, ∀ c ∈ t.sys.queued id, (t.acquiring c.thread = true ↔ id = b.id)
  endless : ∀ u timeout, t.acquiring u = true → (t.sys.threads u).phase = .waiting timeout → timeout < 0
  outside : ∀ u, t.acquiring u = true → (t.sys.threads u).phase ≠ .idle → u ∈ b.users ∧ t.inside u = false
  inside : ∀ u, t.inside u = true → u ∈ b.users
  arrived : (∀ c ∈ t.sys.granted, c ∈ t.sys.arrived) ∧ ∀ id, ∀ c ∈ t.sys.queued id, c ∈ t.sys.arrived
  number : ∀ c ∈ t.sys.arrived, c.number ≤ (t.sys.threads c.thread).calls
  behind : ∀ m, Behind b.id (t.sys.requests m) (t.leaving m)
  leaving : ∀ m, ∀ u ∈ t.leaving m, u ∈ b.users ∧ u.machine = m ∧ t.inside u = false ∧
    ((t.sys.threads u).phase ≠ .idle → t.sys.current u ∉ t.sys.arrived)
  distinct : ∀ m, (t.leaving m).Nodup
  home : t.leaving 0 = []

theorem sound_start : Sound b start := by
  constructor
  · exact fun _ _ _ h => by cases h
  · exact fun _ _ h => by cases h
  · exact fun _ _ _ h => by cases h
  · exact fun _ _ h => by cases h
  · exact fun _ _ h => by cases h
  · exact fun _ h => by cases h
  · exact fun _ h => by cases h
  · exact ⟨fun _ h => (by cases h), fun _ _ h => by cases h⟩
  · exact fun _ h => by cases h
  · exact fun _ => Behind.nil
  · exact fun _ _ h => by cases h
  · exact fun _ => List.nodup_nil
  · rfl

/-- The master has handled a message; the calls in `new` have arrived with it. -/
theorem Sound.served (h : Sound b t) (hs : Served id left woken t.sys s') (new : List Call)
    (harrived : s'.arrived = t.sys.arrived ++ new)
    (hcalls : ∀ c, c ∈ left ∨ c ∈ woken → c ∈ t.sys.queued id ∨ c ∈ new)
    (hnew : ∀ c ∈ new, (t.acquiring c.thread = true ↔ id = b.id) ∧ t.sys.current c.thread = c ∧
      c.thread ∉ t.leaving c.thread.machine) : Sound b { t with sys := s' } := by
  have hmem : ∀ c, c ∈ t.sys.queued id ∨ c ∈ new → c ∈ s'.arrived := by
    intro c hc
    rw [harrived, List.mem_append]
    exact hc.imp_left (h.arrived.2 id c)
  constructor
  · intro m op c hc
    rw [hs.requests] at hc
    exact h.sent m op c hc
  · intro m op hop
    rw [hs.requests] at hop
    exact h.posted m op hop
  · intro v op timeout hphase
    rw [hs.threads] at hphase
    exact h.entering v op timeout hphase
  · intro id' c hc
    rw [hs.queued, Function.update_apply] at hc
    split at hc
    · rename_i hid
      rw [hid]
      rcases hcalls c (Or.inl hc) with hold | hold
      · exact h.queued id c hold
      · exact (hnew c hold).1
    · exact h.queued id' c hc
  · intro v timeout hacquiring hphase
    rw [hs.threads] at hphase
    exact h.endless v timeout hacquiring hphase
  · intro v hacquiring hphase
    rw [hs.threads] at hphase
    exact h.outside v hacquiring hphase
  · exact h.inside
  · constructor
    · intro c hc
      rw [hs.granted, List.mem_append] at hc
      rcases hc with hold | hwoken
      · rw [harrived]
        exact List.mem_append_left _ (h.arrived.1 c hold)
      · exact hmem c (hcalls c (Or.inr hwoken))
    · intro id' c hc
      rw [hs.queued, Function.update_apply] at hc
      split at hc
      · exact hmem c (hcalls c (Or.inl hc))
      · rw [harrived]
        exact List.mem_append_left _ (h.arrived.2 id' c hc)
  · intro c hc
    rw [harrived, List.mem_append] at hc
    rw [hs.threads]
    rcases hc with hold | hold
    · exact h.number c hold
    · exact Nat.le_of_eq (congrArg Call.number (hnew c hold).2.1).symm
  · rw [hs.requests]
    exact h.behind
  · intro m v hv
    obtain ⟨huser, hmachine, hinside, hopen⟩ := h.leaving m v hv
    refine ⟨huser, hmachine, hinside, fun hphase => ?_⟩
    rw [hs.threads] at hphase
    rw [hs.current, harrived, List.mem_append, not_or]
    refine ⟨hopen hphase, fun hlast => (hnew _ hlast).2.2 ?_⟩
    show v ∈ t.leaving v.machine
    rw [hmachine]
    exact hv
  · exact h.distinct
  · exact h.home

/-! ## The master serves the threads -/

/-- The permits are accounted for; no permit is lost when there is one thread more than permits. -/
structure Counted (b : Users dsm) (t : State) (held : Nat) : Prop where
  permits : Permits b t.sys.manager held (t.sys.queued b.id).length
  tight : b.users.length ≤ b.count + 1 → Tight b t.sys.manager (t.sys.queued b.id).length

/-- A thread waits whose call the master has not granted yet. -/
theorem active_of_pending (h : Pending s c) : (s.threads c.thread).phase ≠ .idle := by
  obtain ⟨timeout, hphase⟩ := h.waiting
  rw [hphase]
  exact Phase.noConfusion

theorem holds_served (hs : Served id left woken t.sys s') (v : SyncThreadNode) :
    Holds { t with sys := s' } v ↔ Holds t v ∨
      t.acquiring v = true ∧ (t.sys.threads v).phase ≠ .idle ∧ t.sys.current v ∈ woken := by
  simp only [Holds, hs.threads, hs.current, hs.granted, List.mem_append]
  tauto

/-- The call that is woken makes its thread a holder. -/
theorem holders_woken (hs : Served id left [c] t.sys s') (hpending : Pending t.sys c)
    (hacquiring : t.acquiring c.thread = true) (huser : c.thread ∈ b.users) (hnot : ¬ Holds t c.thread) :
    holders b { t with sys := s' } = holders b t + 1 := by
  apply holders_take huser _ hnot
  · apply (holds_served hs c.thread).mpr
    refine Or.inr ⟨hacquiring, active_of_pending hpending, ?_⟩
    rw [hpending.current]
    exact List.mem_cons_self
  · intro v hv
    rw [holds_served hs]
    refine or_iff_left fun hnew => hv ?_
    rw [← List.mem_singleton.mp hnew.2.2]
    rfl

theorem holders_unwoken (hs : Served id left woken t.sys s')
    (hwoken : ∀ c ∈ woken, ¬ t.acquiring c.thread = true) :
    holders b { t with sys := s' } = holders b t := by
  apply holders_same
  intro v
  rw [holds_served hs]
  exact or_iff_left fun hnew => hwoken _ hnew.2.2 hnew.1

/-- The calls of another object are woken. -/
theorem counted_other (h : Counted b t (holders b t)) (hs : Served id left woken t.sys s') (hid : id ≠ b.id)
    (hmanager : s'.manager.syncData b.id = t.sys.manager.syncData b.id)
    (hwoken : ∀ c ∈ woken, ¬ t.acquiring c.thread = true) :
    Counted b { t with sys := s' } (holders b { t with sys := s' }) := by
  have hqueued : s'.queued b.id = t.sys.queued b.id := by
    rw [hs.queued, Function.update_of_ne (Ne.symm hid)]
  have hnode : b.node s'.manager = b.node t.sys.manager := node_of_ne hmanager
  obtain ⟨⟨hbalance, hfree⟩, htight⟩ := h
  rw [holders_unwoken hs hwoken]
  refine ⟨⟨?_, ?_⟩, fun hfew => ⟨?_, ?_⟩⟩
  · rw [hqueued, hnode]
    exact hbalance
  · rw [hqueued, hnode]
    exact hfree
  · rw [hqueued]
    exact (htight hfew).one
  · rw [hqueued, hnode]
    exact (htight hfew).used

/-- A thread whose `Acquire` has not been granted holds no permit. -/
theorem not_holds_of_pending (h : Sound b t) (hpending : Pending t.sys c) (hacquiring : t.acquiring c.thread = true)
    (hc : c.thread ∉ t.leaving c.thread.machine) : c.thread ∈ b.users ∧ ¬ Holds t c.thread := by
  obtain ⟨huser, hinside⟩ := h.outside c.thread hacquiring (active_of_pending hpending)
  refine ⟨huser, ?_⟩
  rintro (⟨-, -, hgranted⟩ | hin | hleaving)
  · apply hpending.open_
    rwa [hpending.current] at hgranted
  · exact absurd hin (ne_true_of_eq_false hinside)
  · exact hc hleaving

/-- A thread in the queue holds no permit. -/
theorem not_holds_of_queued (h : Sound b t) {held : List Call} (hs : Inv place held t.sys)
    (hc : c ∈ t.sys.queued b.id) : c.thread ∈ b.users ∧ ¬ Holds t c.thread := by
  have hpending := (hs.queued b.id c hc).1
  apply not_holds_of_pending h hpending ((h.queued b.id c hc).mpr rfl)
  intro hleaving
  apply (h.leaving _ _ hleaving).2.2.2 (active_of_pending hpending)
  rw [hpending.current]
  exact h.arrived.2 b.id c hc

/-- The holders, the threads that wait and one that comes are different threads. -/
theorem crowd (h : Sound b t) (hs : Inv place [c] t.sys) (hacquiring : t.acquiring c.thread = true)
    (hc : c.thread ∉ t.leaving c.thread.machine) :
    holders b t + (t.sys.queued b.id).length + 1 ≤ b.users.length := by
  obtain ⟨huser, hnot⟩ := not_holds_of_pending h (hs.hand c List.mem_cons_self).1 hacquiring hc
  have hthreads : ((t.sys.queued b.id).map Call.thread).Nodup := by
    apply (hs.nodup_queued b.id).map_on
    intro c₁ hc₁ c₂ hc₂ heq
    rw [← (hs.queued b.id c₁ hc₁).1.current, ← (hs.queued b.id c₂ hc₂).1.current, heq]
  have hnew : c.thread ∉ (t.sys.queued b.id).map Call.thread := by
    intro hmem
    obtain ⟨c', hc', heq⟩ := List.mem_map.mp hmem
    have hplace := (hs.queued b.id c' hc').2
    rw [heq, (hs.hand c List.mem_cons_self).2] at hplace
    cases hplace
  have hnodup : (b.users.filter (fun u => decide (Holds t u)) ++
      c.thread :: (t.sys.queued b.id).map Call.thread).Nodup := by
    refine List.nodup_append.mpr ⟨b.nodup.filter _, List.nodup_cons.mpr ⟨hnew, hthreads⟩, ?_⟩
    rintro v hv w hw rfl
    have hholds := of_decide_eq_true (List.mem_filter.mp hv).2
    rcases List.mem_cons.mp hw with rfl | hw
    · exact hnot hholds
    · obtain ⟨c', hc', rfl⟩ := List.mem_map.mp hw
      exact (not_holds_of_queued h hs hc').2 hholds
  have hsub : b.users.filter (fun u => decide (Holds t u)) ++
      c.thread :: (t.sys.queued b.id).map Call.thread ⊆ b.users := by
    intro v hv
    rcases List.mem_append.mp hv with hv | hv
    · exact (List.mem_filter.mp hv).1
    · rcases List.mem_cons.mp hv with rfl | hv
      · exact huser
      · obtain ⟨c', hc', rfl⟩ := List.mem_map.mp hv
        exact (not_holds_of_queued h hs hc').1
  have hle := (hnodup.subperm hsub).length_le
  rw [List.length_append, List.length_cons, List.length_map, ← List.countP_eq_length_filter] at hle
  exact hle

/-- The master handles an `Acquire`. -/
theorem counted_acquire (hsound : Sound b t) (hs : Inv place [c] t.sys) (h : Counted b t (holders b t))
    (hacquiring : t.acquiring c.thread = true) (hc : c.thread ∉ t.leaving c.thread.machine) :
    let s' := serveWait dsm t.sys c.thread.machine (.enterSemaphore b.id) c
    Counted b { t with sys := s' } (holders b { t with sys := s' }) := by
  obtain ⟨hserved, hmanager, -⟩ := @serveWait_served dsm _ _ _ hs (.enterSemaphore b.id) _ rfl
  obtain ⟨⟨hval, -⟩, hgrant, hwait⟩ := semaphoreMsg_spec (b := b) t.sys.manager c.thread
  obtain ⟨r, hr⟩ : ∃ r, r = semaphoreMsg dsm t.sys.manager c.thread.machine b.id c.thread.threadId :=
    ⟨_, rfl⟩
  simp only [waitMsg, ← hr, WaitOp.object] at hserved hmanager hval hgrant hwait
  obtain ⟨s', hs'⟩ : ∃ s', s' = serveWait dsm t.sys c.thread.machine (.enterSemaphore b.id) c := ⟨_, rfl⟩
  simp only [← hs'] at hserved hmanager ⊢
  rw [← hmanager] at hval
  have hpending := (hs.hand c List.mem_cons_self).1
  obtain ⟨huser, hnot⟩ := not_holds_of_pending hsound hpending hacquiring hc
  by_cases hpos : 0 < (b.node t.sys.manager).val
  · have hone := hgrant hpos
    rw [if_neg (by rw [hone]; exact List.cons_ne_nil _ _), hone] at hserved
    simp only [List.length_singleton, Nat.sub_self, List.drop_zero, List.take_succ_cons, List.take_zero] at hserved
    have hqueued : s'.queued b.id = t.sys.queued b.id := by
      rw [hserved.queued, Function.update_self]
    rw [holders_woken hserved hpending hacquiring huser hnot]
    refine ⟨?_, fun hfew => ?_⟩
    · rw [hqueued]
      exact h.permits.take hval hpos
    · -- a free permit means that nobody waits
      have hnone := (h.tight hfew).none_of_ne (by omega)
      rw [hqueued, hnone]
      exact Tight.none
  · have hnil := hwait (not_lt.mp hpos)
    rw [if_pos hnil, hnil, List.length_nil, List.take_zero] at hserved
    have hqueued : (s'.queued b.id).length = (t.sys.queued b.id).length + 1 := by
      rw [hserved.queued, Function.update_self, List.length_append, List.length_singleton]
    rw [holders_unwoken hserved fun c' hc' => absurd hc' List.not_mem_nil]
    refine ⟨?_, fun hfew => ?_⟩
    · rw [hqueued]
      exact h.permits.wait hval
    · have hcrowd := crowd hsound hs hacquiring hc
      have hnone : (t.sys.queued b.id).length = 0 := by
        by_contra hsome
        have hall := h.permits.held_eq (h.tight hfew) (Nat.pos_of_ne_zero hsome)
        omega
      have hfree := h.permits.free
      rw [hqueued, hnone]
      refine ⟨Nat.le_refl 1, fun _ => ?_⟩
      rw [hval]
      rw [hnone] at hfree
      omega

/-- The master handles a `Release`; its thread counts as a holder no more. -/
theorem counted_release (hsound : Sound b t) (hs : Inv place [] t.sys) (h : Counted b t (holders b t + 1))
    (hpost : servePost dsm t.sys (.leaveSemaphore b.id) = some s') :
    Counted b { t with sys := s' } (holders b { t with sys := s' }) := by
  obtain ⟨r, hr, hserved, hmanager, -⟩ := servePost_served hs hpost
  obtain ⟨⟨hval, -⟩, hwake, hlost⟩ := semaphoreLeaveMsg_spec (b := b) hr
  simp only [PostOp.object] at hserved
  rw [← hmanager] at hval
  have htags := hs.tags b.id
  have hstay : r.2 = [] → holders b { t with sys := s' } = holders b t ∧ s'.queued b.id = t.sys.queued b.id := by
    intro hnil
    rw [hnil, List.length_nil, List.drop_zero, List.take_zero] at hserved
    refine ⟨holders_unwoken hserved fun c' hc' => absurd hc' List.not_mem_nil, ?_⟩
    rw [hserved.queued, Function.update_self]
  rcases Int.lt_or_le (b.node t.sys.manager).val (-1) with hlt | hge
  · obtain ⟨hholders, hqueued⟩ := hstay (hlost hlt)
    rw [hholders]
    refine ⟨?_, fun hfew => ?_⟩
    · rw [hqueued]
      exact h.permits.give hval
    · have hnone := (h.tight hfew).none_of_ne (by omega)
      rw [hqueued, hnone]
      exact Tight.none
  · have htaken := hwake hge
    rw [← htags] at htaken
    cases hq : t.sys.queued b.id with
    | nil =>
        rw [hq] at htaken
        obtain ⟨hholders, hqueued⟩ := hstay htaken
        rw [hholders]
        refine ⟨?_, fun hfew => ?_⟩
        · rw [hqueued]
          exact h.permits.give hval
        · rw [hqueued, hq]
          exact Tight.none
    | cons c rest =>
        have hc : c ∈ t.sys.queued b.id := by
          rw [hq]
          exact List.mem_cons_self
        have hone : r.2.length = 1 := by
          rw [htaken, hq]
          rfl
        rw [hone, hq, List.drop_one, List.tail_cons, List.take_succ_cons, List.take_zero] at hserved
        obtain ⟨huser, hnot⟩ := not_holds_of_queued hsound hs hc
        have hqueued : s'.queued b.id = rest := by
          rw [hserved.queued, Function.update_self]
        have hpermits := h.permits
        rw [hq, List.length_cons] at hpermits
        rw [holders_woken hserved (hs.queued b.id c hc).1 ((hsound.queued b.id c hc).mpr rfl) huser hnot]
        refine ⟨?_, fun hfew => ?_⟩
        · rw [hqueued]
          exact hpermits.hand hval
        · have hle := (h.tight hfew).one
          rw [hq, List.length_cons] at hle
          rw [hqueued]
          exact ⟨by omega, fun hsome => by omega⟩

/-! ## The threads go on -/

/-- One thread has gone on in its program; the messages and what the master knows are the same. -/
structure Moves (u : SyncThreadNode) (t t' : State) : Prop where
  requests : t'.sys.requests = t.sys.requests
  queued : t'.sys.queued = t.sys.queued
  granted : t'.sys.granted = t.sys.granted
  arrived : t'.sys.arrived = t.sys.arrived
  leaving : t'.leaving = t.leaving
  calls : (t.sys.threads u).calls ≤ (t'.sys.threads u).calls
  other : ∀ v, v ≠ u → t'.sys.threads v = t.sys.threads v ∧ t'.acquiring v = t.acquiring v ∧
    t'.inside v = t.inside v

theorem Moves.current (hm : Moves u t t') {v : SyncThreadNode} (hv : v ≠ u) :
    t'.sys.current v = t.sys.current v := by
  rw [SyncSystem.State.current, (hm.other v hv).1]
  rfl

theorem Moves.holders (hm : Moves u t t') (hself : Holds t' u ↔ Holds t u) : holders b t' = holders b t := by
  apply holders_same
  intro v
  by_cases hv : v = u
  · rw [hv]
    exact hself
  · obtain ⟨hthread, hacquiring, hinside⟩ := hm.other v hv
    unfold Holds
    rw [hacquiring, hthread, hm.current hv, hm.granted, hinside, hm.leaving]

/-- What the thread that goes on must see to. -/
structure Fits (b : Users dsm) (u : SyncThreadNode) (t t' : State) : Prop where
  same : t'.acquiring u = t.acquiring u ∨
    ∀ c, (∃ m, c ∈ callsOf (t.sys.requests m)) ∨ (∃ id, c ∈ t.sys.queued id) → c.thread ≠ u
  entering : ∀ op timeout, (t'.sys.threads u).phase = .entering op timeout →
    (op.object = b.id → op = .enterSemaphore b.id ∧ timeout < 0) ∧ (t'.acquiring u = true ↔ op.object = b.id)
  endless : ∀ timeout, t'.acquiring u = true → (t'.sys.threads u).phase = .waiting timeout → timeout < 0
  outside : t'.acquiring u = true → (t'.sys.threads u).phase ≠ .idle → u ∈ b.users ∧ t'.inside u = false
  inside : t'.inside u = true → u ∈ b.users
  leaving : u ∈ t.leaving u.machine → t'.inside u = false ∧
    ((t'.sys.threads u).phase ≠ .idle → t'.sys.current u ∉ t.sys.arrived)

theorem mem_callsOf {op : WaitOp} (h : Request.wait op c ∈ rs) : c ∈ callsOf rs :=
  List.mem_filterMap.mpr ⟨_, h, rfl⟩

theorem Sound.moves (h : Sound b t) (hm : Moves u t t') (hf : Fits b u t t') : Sound b t' := by
  have hacquiring : ∀ c, (∃ m, c ∈ callsOf (t.sys.requests m)) ∨ (∃ id, c ∈ t.sys.queued id) →
      t'.acquiring c.thread = t.acquiring c.thread := by
    intro c hc
    by_cases hu : c.thread = u
    · rw [hu]
      exact hf.same.resolve_right fun hother => hother c hc hu
    · exact (hm.other c.thread hu).2.1
  constructor
  · intro m op c hc
    rw [hm.requests] at hc
    rw [hacquiring c (Or.inl ⟨m, mem_callsOf hc⟩)]
    exact h.sent m op c hc
  · rw [hm.requests]
    exact h.posted
  · intro v op timeout hphase
    by_cases hv : v = u
    · subst hv
      exact hf.entering op timeout hphase
    · obtain ⟨hthread, hsame, -⟩ := hm.other v hv
      rw [hthread] at hphase
      rw [hsame]
      exact h.entering v op timeout hphase
  · intro id c hc
    rw [hm.queued] at hc
    rw [hacquiring c (Or.inr ⟨id, hc⟩)]
    exact h.queued id c hc
  · intro v timeout hv' hphase
    by_cases hv : v = u
    · subst hv
      exact hf.endless timeout hv' hphase
    · obtain ⟨hthread, hsame, -⟩ := hm.other v hv
      rw [hthread] at hphase
      rw [hsame] at hv'
      exact h.endless v timeout hv' hphase
  · intro v hv' hphase
    by_cases hv : v = u
    · subst hv
      exact hf.outside hv' hphase
    · obtain ⟨hthread, hsame, hinside⟩ := hm.other v hv
      rw [hthread] at hphase
      rw [hsame] at hv'
      rw [hinside]
      exact h.outside v hv' hphase
  · intro v hv'
    by_cases hv : v = u
    · subst hv
      exact hf.inside hv'
    · rw [(hm.other v hv).2.2] at hv'
      exact h.inside v hv'
  · rw [hm.granted, hm.arrived, hm.queued]
    exact h.arrived
  · intro c hc
    rw [hm.arrived] at hc
    by_cases hu : c.thread = u
    · have hle := h.number c hc
      rw [hu] at hle ⊢
      exact hle.trans hm.calls
    · rw [(hm.other c.thread hu).1]
      exact h.number c hc
  · rw [hm.requests, hm.leaving]
    exact h.behind
  · intro m v hv'
    rw [hm.leaving] at hv'
    rw [hm.arrived]
    obtain ⟨huser, hmachine, hinside, hopen⟩ := h.leaving m v hv'
    refine ⟨huser, hmachine, ?_⟩
    by_cases hv : v = u
    · subst hv
      apply hf.leaving
      rw [hmachine]
      exact hv'
    · rw [(hm.other v hv).1, (hm.other v hv).2.2, hm.current hv]
      exact ⟨hinside, hopen⟩
  · rw [hm.leaving]
    exact h.distinct
  · rw [hm.leaving]
    exact h.home

/-- A thread whose request is on its way or that is in a wait list waits. -/
theorem not_idle (hs : Inv place [] t.sys)
    (hc : (∃ m, c ∈ callsOf (t.sys.requests m)) ∨ ∃ id, c ∈ t.sys.queued id) :
    (t.sys.threads c.thread).phase ≠ .idle := by
  apply active_of_pending
  rcases hc with ⟨m, hm⟩ | ⟨id, hid⟩
  · exact (hs.sent m c hm).2.1
  · exact (hs.queued id c hid).1

theorem moves_call (t : State) (u : SyncThreadNode) (op : WaitOp) (timeout : Int) (event : SyncThreadNode → Bool)
    (acquiring : Bool) : Moves u t { t with
      sys := { t.sys.setThread u ⟨(t.sys.threads u).calls + 1, .entering op timeout⟩ with event := event }
      acquiring := Function.update t.acquiring u acquiring } := by
  refine ⟨rfl, rfl, rfl, rfl, rfl, ?_, fun v hv => ?_⟩
  · simp only [SyncSystem.State.setThread, Function.update_self]
    exact Nat.le_succ _
  · exact ⟨Function.update_of_ne hv .., Function.update_of_ne hv .., rfl⟩

/-- A call begins. -/
theorem sound_call (h : Sound b t) (hs : Inv place [] t.sys) (hidle : (t.sys.threads u).phase = .idle) {op : WaitOp}
    {timeout : Int}
    (hop : op.object = b.id → op = .enterSemaphore b.id ∧ u ∈ b.users ∧ t.inside u = false ∧ timeout < 0)
    (event : SyncThreadNode → Bool) :
    Sound b { t with
      sys := { t.sys.setThread u ⟨(t.sys.threads u).calls + 1, .entering op timeout⟩ with event := event }
      acquiring := Function.update t.acquiring u (decide (op.object = b.id)) } := by
  apply h.moves (moves_call t u op timeout event _)
  constructor
  · refine Or.inr fun c hc => ?_
    rintro rfl
    exact not_idle hs hc hidle
  · intro op' timeout' hphase
    simp only [SyncSystem.State.setThread, Function.update_self, decide_eq_true_iff] at hphase ⊢
    obtain ⟨rfl, rfl⟩ := Phase.entering.inj hphase
    exact ⟨fun hid => ⟨(hop hid).1, (hop hid).2.2.2⟩, Iff.rfl⟩
  · intro timeout' _ hphase
    simp only [SyncSystem.State.setThread, Function.update_self] at hphase
    cases hphase
  · intro hacquiring _
    simp only [Function.update_self, decide_eq_true_iff] at hacquiring
    exact ⟨(hop hacquiring).2.1, (hop hacquiring).2.2.1⟩
  · exact h.inside u
  · intro hleaving
    refine ⟨(h.leaving _ u hleaving).2.2.1, fun _ hmem => ?_⟩
    have hle := h.number _ hmem
    simp only [SyncSystem.State.current, SyncSystem.State.setThread, Function.update_self] at hle
    exact Nat.not_succ_le_self _ hle

theorem holders_call (h : Sound b t) (hidle : (t.sys.threads u).phase = .idle) (op : WaitOp) (timeout : Int)
    (event : SyncThreadNode → Bool) :
    holders b { t with
      sys := { t.sys.setThread u ⟨(t.sys.threads u).calls + 1, .entering op timeout⟩ with event := event }
      acquiring := Function.update t.acquiring u (decide (op.object = b.id)) } = holders b t := by
  apply (moves_call t u op timeout event _).holders
  have hnew : (⟨u, (t.sys.threads u).calls + 1⟩ : Call) ∉ t.sys.granted := fun hmem =>
    absurd (h.number _ (h.arrived.1 _ hmem)) (Nat.not_succ_le_self _)
  simp only [Holds, SyncSystem.State.current, SyncSystem.State.setThread, Function.update_self, hnew, hidle,
    and_false, false_and, ne_eq, not_true_eq_false, false_or]

theorem moves_waiting (t : State) (u : SyncThreadNode) (timeout : Int) :
    Moves u t { t with sys := t.sys.setThread u ⟨(t.sys.threads u).calls, .waiting timeout⟩ } := by
  refine ⟨rfl, rfl, rfl, rfl, rfl, ?_, fun v hv => ⟨Function.update_of_ne hv .., rfl, rfl⟩⟩
  simp only [SyncSystem.State.setThread, Function.update_self]
  exact Nat.le_refl _

/-- A thread comes to wait in its call. -/
theorem sound_waiting (h : Sound b t) {op : WaitOp} {timeout : Int}
    (hphase : (t.sys.threads u).phase = .entering op timeout) :
    Sound b { t with sys := t.sys.setThread u ⟨(t.sys.threads u).calls, .waiting timeout⟩ } := by
  have hactive : (t.sys.threads u).phase ≠ .idle := by
    rw [hphase]
    exact Phase.noConfusion
  apply h.moves (moves_waiting t u timeout)
  constructor
  · exact Or.inl rfl
  · intro op' timeout' hphase'
    simp only [SyncSystem.State.setThread, Function.update_self] at hphase'
    cases hphase'
  · intro timeout' hacquiring hphase'
    simp only [SyncSystem.State.setThread, Function.update_self] at hphase'
    obtain rfl := Phase.waiting.inj hphase'
    obtain ⟨hop, hiff⟩ := h.entering u op timeout hphase
    exact (hop (hiff.mp hacquiring)).2
  · exact fun hacquiring _ => h.outside u hacquiring hactive
  · exact h.inside u
  · intro hleaving
    obtain ⟨-, -, hinside, hopen⟩ := h.leaving _ u hleaving
    refine ⟨hinside, fun _ => ?_⟩
    simp only [SyncSystem.State.current, SyncSystem.State.setThread, Function.update_self]
    exact hopen hactive

theorem holders_waiting {op : WaitOp} {timeout : Int} (hphase : (t.sys.threads u).phase = .entering op timeout) :
    holders b { t with sys := t.sys.setThread u ⟨(t.sys.threads u).calls, .waiting timeout⟩ } = holders b t := by
  apply (moves_waiting t u timeout).holders
  simp only [Holds, SyncSystem.State.current, SyncSystem.State.setThread, Function.update_self, hphase, ne_eq,
    reduceCtorEq, not_false_eq_true, true_and]

/-- What is in a connection after a message has been sent. -/
theorem mem_send {machine m : Nat} {r r' : Request} (h : r' ∈ (send s machine r).requests m) :
    r' ∈ s.requests m ∨ r' = r := by
  simp only [send, Function.update_apply] at h
  split at h
  · rename_i hm
    rw [hm, ← List.mem_singleton, ← List.mem_append]
    exact h
  · exact Or.inl h

/-- The request of a call is sent. -/
theorem sound_sendWait (h : Sound b t) (machine : Nat) {op : WaitOp}
    (hop : (op.object = b.id → op = .enterSemaphore b.id) ∧ (t.acquiring c.thread = true ↔ op.object = b.id)) :
    Sound b { t with sys := send t.sys machine (.wait op c) } := by
  refine { h with sent := ?_, posted := ?_, behind := ?_ }
  · intro m op' c' hc'
    rcases mem_send hc' with hold | hnew
    · exact h.sent m op' c' hold
    · obtain ⟨rfl, rfl⟩ := Request.wait.inj hnew
      exact hop
  · intro m op' hop'
    rcases mem_send hop' with hold | hnew
    · exact h.posted m op' hold
    · cases hnew
  · intro m
    simp only [send, Function.update_apply]
    split
    · rename_i hm
      rw [hm]
      exact (h.behind machine).concat_wait op c
    · exact h.behind m

theorem moves_finish (t : State) (u : SyncThreadNode) (value inside : Bool) :
    Moves u t { t with sys := finish t.sys u value, inside := Function.update t.inside u inside } := by
  refine ⟨rfl, rfl, rfl, rfl, rfl, ?_, fun v hv => ?_⟩
  · simp only [finish, SyncSystem.State.setThread, Function.update_self]
    exact Nat.le_refl _
  · exact ⟨Function.update_of_ne hv .., rfl, Function.update_of_ne hv ..⟩

/-- A call returns; `result` is whether the thread is inside then. -/
theorem sound_finish (h : Sound b t) (result : Bool) (hphase : (t.sys.threads u).phase ≠ .idle)
    (hinside : t.acquiring u = true → result = true → t.sys.current u ∈ t.sys.granted) (value : Bool) :
    Sound b { t with
      sys := finish t.sys u value
      inside := Function.update t.inside u ((t.acquiring u && result) || t.inside u) } := by
  apply h.moves (moves_finish t u value _)
  constructor
  · exact Or.inl rfl
  · intro op timeout hphase'
    simp only [finish, SyncSystem.State.setThread, Function.update_self] at hphase'
    cases hphase'
  · intro timeout _ hphase'
    simp only [finish, SyncSystem.State.setThread, Function.update_self] at hphase'
    cases hphase'
  · intro _ hphase'
    simp only [finish, SyncSystem.State.setThread, Function.update_self] at hphase'
    exact absurd rfl hphase'
  · intro hin
    simp only [Function.update_self, Bool.or_eq_true, Bool.and_eq_true] at hin
    rcases hin with hnew | hold
    · exact (h.outside u hnew.1 hphase).1
    · exact h.inside u hold
  · intro hleaving
    obtain ⟨-, -, hout, hopen⟩ := h.leaving _ u hleaving
    constructor
    · simp only [Function.update_self, hout, Bool.or_false, Bool.and_eq_false_iff]
      by_contra hboth
      rw [not_or, Bool.not_eq_false, Bool.not_eq_false] at hboth
      exact hopen hphase (h.arrived.1 _ (hinside hboth.1 hboth.2))
    · intro hphase'
      simp only [finish, SyncSystem.State.setThread, Function.update_self] at hphase'
      exact absurd rfl hphase'

/-- A call that returns makes its thread a holder exactly when the thread was one. -/
theorem holders_finish (result : Bool) (hphase : (t.sys.threads u).phase ≠ .idle)
    (hresult : t.acquiring u = true → (t.sys.current u ∈ t.sys.granted ∧ result = true)) (value : Bool) :
    holders b { t with
      sys := finish t.sys u value
      inside := Function.update t.inside u ((t.acquiring u && result) || t.inside u) } = holders b t := by
  apply (moves_finish t u value _).holders
  simp only [Holds, finish, SyncSystem.State.setThread, Function.update_self, ne_eq, not_true_eq_false, false_and,
    and_false, false_or, Bool.or_eq_true, Bool.and_eq_true]
  constructor
  · rintro ((⟨hacquiring, -⟩ | hin) | hleaving)
    · exact Or.inl ⟨hacquiring, hphase, (hresult hacquiring).1⟩
    · exact Or.inr (Or.inl hin)
    · exact Or.inr (Or.inr hleaving)
  · rintro (⟨hacquiring, -, -⟩ | hin | hleaving)
    · exact Or.inl (Or.inl ⟨hacquiring, (hresult hacquiring).2⟩)
    · exact Or.inl (Or.inr hin)
    · exact Or.inr hleaving

/-- A request that does not wait is sent, and it is not about the semaphore. -/
theorem sound_sendPost (h : Sound b t) (machine : Nat) {op : PostOp} (hop : op.object ≠ b.id) :
    Sound b { t with sys := send t.sys machine (.post op) } := by
  refine { h with sent := ?_, posted := ?_, behind := ?_ }
  · intro m op' c' hc'
    rcases mem_send hc' with hold | hnew
    · exact h.sent m op' c' hold
    · cases hnew
  · intro m op' hop'
    rcases mem_send hop' with hold | hnew
    · exact h.posted m op' hold
    · obtain rfl := Request.post.inj hnew
      exact fun hid => absurd hid hop
  · intro m
    simp only [send, Function.update_apply]
    split
    · rename_i hm
      rw [hm]
      apply (h.behind machine).concat_post
      rintro rfl
      exact hop rfl
    · exact h.behind m

/-- A thread of the master leaves the section. -/
theorem sound_leave (h : Sound b t) (u : SyncThreadNode) :
    Sound b { t with inside := Function.update t.inside u false } := by
  have hout : ∀ v, t.inside v = false → Function.update t.inside u false v = false := by
    intro v hv
    rw [Function.update_apply]
    split
    · rfl
    · exact hv
  refine { h with outside := ?_, inside := ?_, leaving := ?_ }
  · intro v hacquiring hphase
    obtain ⟨huser, hv⟩ := h.outside v hacquiring hphase
    exact ⟨huser, hout v hv⟩
  · intro v hv
    by_contra hnot
    have hfalse : t.inside v = false := by
      by_contra htrue
      exact hnot (h.inside v (eq_true_of_ne_false htrue))
    exact absurd (hout v hfalse) (ne_false_of_eq_true hv)
  · intro m v hv
    obtain ⟨huser, hmachine, hin, hopen⟩ := h.leaving m v hv
    exact ⟨huser, hmachine, hout v hin, hopen⟩

/-- A thread that is inside holds a permit until its release is handled. -/
theorem holders_leave (h : Sound b t) (hidle : (t.sys.threads u).phase = .idle) (hin : t.inside u = true) :
    holders b t = holders b { t with inside := Function.update t.inside u false } + 1 := by
  apply holders_take (h.inside u hin)
  · intro v hv
    unfold Holds
    dsimp only
    rw [Function.update_of_ne hv]
  · rintro (⟨-, hphase, -⟩ | hstill | hleaving)
    · exact hphase hidle
    · dsimp only at hstill
      rw [Function.update_self] at hstill
      cases hstill
    · exact absurd hin (ne_true_of_eq_false (h.leaving _ _ hleaving).2.2.1)
  · exact Or.inr (Or.inl hin)

/-- A thread of another node leaves the section and sends its release. -/
theorem sound_release (h : Sound b t) (hs : Inv place [] t.sys) (hidle : (t.sys.threads u).phase = .idle)
    (hin : t.inside u = true) (hmachine : u.machine ≠ 0) :
    Sound b { t with
      sys := send t.sys u.machine (.post (.leaveSemaphore b.id))
      inside := Function.update t.inside u false
      leaving := Function.update t.leaving u.machine (t.leaving u.machine ++ [u]) } := by
  have hleave := sound_leave h u
  have hnew : u ∉ t.leaving u.machine := fun hleaving =>
    absurd hin (ne_true_of_eq_false (h.leaving _ _ hleaving).2.2.1)
  refine { hleave with sent := ?_, posted := ?_, behind := ?_, leaving := ?_, distinct := ?_, home := ?_ }
  · intro m op' c' hc'
    rcases mem_send hc' with hold | hnew
    · exact h.sent m op' c' hold
    · cases hnew
  · intro m op' hop'
    rcases mem_send hop' with hold | hnew
    · exact h.posted m op' hold
    · obtain rfl := Request.post.inj hnew
      exact fun _ => rfl
  · intro m
    simp only [send, Function.update_apply]
    split
    · rename_i hm
      apply (h.behind u.machine).concat_release
      rintro c hc rfl
      exact not_idle hs (Or.inl ⟨_, hc⟩) hidle
    · exact h.behind m
  · intro m v hv
    simp only [Function.update_apply] at hv
    split at hv
    · rename_i hm
      rcases List.mem_append.mp hv with hold | hself
      · rw [hm]
        exact hleave.leaving u.machine v hold
      · rw [List.mem_singleton.mp hself]
        exact ⟨h.inside u hin, hm.symm, Function.update_self .., fun hphase => absurd hidle hphase⟩
    · exact hleave.leaving m v hv
  · intro m
    simp only [Function.update_apply]
    split
    · refine List.nodup_append.mpr ⟨h.distinct _, List.nodup_singleton u, ?_⟩
      rintro v hv w hw rfl
      rw [List.mem_singleton.mp hw] at hv
      exact hnew hv
    · exact h.distinct m
  · show Function.update t.leaving u.machine _ 0 = []
    rw [Function.update_of_ne (Ne.symm hmachine)]
    exact h.home

theorem holders_release (hin : t.inside u = true) :
    holders b { t with
      sys := send t.sys u.machine (.post (.leaveSemaphore b.id))
      inside := Function.update t.inside u false
      leaving := Function.update t.leaving u.machine (t.leaving u.machine ++ [u]) } = holders b t := by
  apply holders_same
  intro v
  unfold Holds
  dsimp only
  by_cases hv : v = u
  · subst hv
    rw [Function.update_self, Function.update_self]
    exact iff_of_true (Or.inr (Or.inr (List.mem_append_right _ List.mem_cons_self))) (Or.inr (Or.inl hin))
  · have hleaving : v ∈ Function.update t.leaving u.machine (t.leaving u.machine ++ [u]) v.machine ↔
        v ∈ t.leaving v.machine := by
      simp only [Function.update_apply]
      split
      · rename_i hm
        rw [List.mem_append, List.mem_singleton, hm]
        exact or_iff_left hv
      · exact Iff.rfl
    rw [Function.update_of_ne hv, hleaving]
    rfl

/-- The master takes a message off a connection. -/
theorem sound_taken (h : Sound b t) {machine : Nat} {r : Request} {rest : List Request}
    (hrequests : t.sys.requests machine = r :: rest) {us : List SyncThreadNode} (hbehind : Behind b.id rest us)
    (hsub : us.Sublist (t.leaving machine)) :
    Sound b { t with
      sys := { t.sys with requests := Function.update t.sys.requests machine rest }
      leaving := Function.update t.leaving machine us } := by
  have hmem : ∀ m r', r' ∈ Function.update t.sys.requests machine rest m → r' ∈ t.sys.requests m := by
    intro m r' hr'
    rw [Function.update_apply] at hr'
    split at hr'
    · rename_i hm
      rw [hm, hrequests]
      exact List.mem_cons_of_mem r hr'
    · exact hr'
  have hless : ∀ m, (Function.update t.leaving machine us m).Sublist (t.leaving m) := by
    intro m
    rw [Function.update_apply]
    split
    · rename_i hm
      rw [hm]
      exact hsub
    · exact List.Sublist.refl _
  refine { h with sent := ?_, posted := ?_, behind := ?_, leaving := ?_, distinct := ?_, home := ?_ }
  · exact fun m op c hc => h.sent m op c (hmem m _ hc)
  · exact fun m op hop => h.posted m op (hmem m _ hop)
  · intro m
    simp only [Function.update_apply]
    split
    · exact hbehind
    · exact h.behind m
  · exact fun m v hv => h.leaving m v ((hless m).subset hv)
  · exact fun m => (hless m).nodup (h.distinct m)
  · apply List.sublist_nil.mp
    rw [← h.home]
    exact hless 0

/-- The release of a thread is handled. -/
theorem holders_taken (h : Sound b t) {machine : Nat} (rest : List Request) {us : List SyncThreadNode}
    (hleaving : t.leaving machine = u :: us) :
    holders b t = holders b { t with
      sys := { t.sys with requests := Function.update t.sys.requests machine rest }
      leaving := Function.update t.leaving machine us } + 1 := by
  have hu : u ∈ t.leaving machine := by
    rw [hleaving]
    exact List.mem_cons_self
  obtain ⟨huser, hmachine, hinside, hopen⟩ := h.leaving machine u hu
  have hdistinct := h.distinct machine
  rw [hleaving] at hdistinct
  apply holders_take huser
  · intro v hv
    have hsame : v ∈ Function.update t.leaving machine us v.machine ↔ v ∈ t.leaving v.machine := by
      simp only [Function.update_apply]
      split
      · rename_i hm
        rw [hm, hleaving, List.mem_cons]
        exact (or_iff_right hv).symm
      · exact Iff.rfl
    unfold Holds
    dsimp only
    rw [hsame]
    rfl
  · rintro (⟨-, hphase, hgranted⟩ | hin | hstill)
    · exact hopen hphase (h.arrived.1 _ hgranted)
    · exact absurd hin (ne_true_of_eq_false hinside)
    · dsimp only at hstill
      rw [hmachine, Function.update_self] at hstill
      exact (List.nodup_cons.mp hdistinct).1 hstill
  · refine Or.inr (Or.inr ?_)
    rw [hmachine]
    exact hu

/-! ## Runs -/

/-- What holds in every state. -/
structure Guarded (b : Users dsm) (t : State) : Prop where
  inv : ∃ place, Inv place [] t.sys
  accounted : Accounted [] t.sys
  sound : Sound b t
  counted : Counted b t (holders b t)

theorem guarded_start : Guarded b start := by
  have hzero : holders b start = 0 := by
    apply List.countP_eq_zero.mpr
    intro u _ hu
    rcases of_decide_eq_true hu with ⟨hfalse, -⟩ | hfalse | hfalse
    · cases hfalse
    · cases hfalse
    · cases hfalse
  have hnode : b.node start.sys.manager = newSemaphore b.count := rfl
  refine ⟨⟨_, inv_start⟩, fun _ _ hphase => (by cases hphase), sound_start, ?_⟩
  rw [hzero]
  refine ⟨⟨?_, ?_⟩, fun _ => ⟨Nat.zero_le 1, fun hsome => absurd hsome (Nat.lt_irrefl 0)⟩⟩
  · rw [hnode]
    show (0 : Int) + b.count + 0 = b.count
    omega
  · rw [hnode]
    show 0 ≤ (b.count : Int) + 0
    omega

/-- The master handles the request of a call. -/
theorem served_wait (h : Sound b t) (hs : Inv place [c] t.sys) (hcounted : Counted b t (holders b t)) {op : WaitOp}
    (hop : (op.object = b.id → op = .enterSemaphore b.id) ∧ (t.acquiring c.thread = true ↔ op.object = b.id))
    (hc : c.thread ∉ t.leaving c.thread.machine) :
    let s' := serveWait dsm t.sys c.thread.machine op c
    Sound b { t with sys := s' } ∧ Counted b { t with sys := s' } (holders b { t with sys := s' }) := by
  obtain ⟨r, hr⟩ : ∃ r, r = waitMsg dsm t.sys.manager c.thread.machine c.thread.threadId op := ⟨_, rfl⟩
  obtain ⟨hserved, hmanager, harrived⟩ := serveWait_served hs op hr
  refine ⟨h.served hserved _ harrived ?_ ?_, ?_⟩
  · rintro c' (hleft | hwoken)
    · split at hleft
      · rw [List.mem_singleton]
        exact (List.mem_append.mp hleft).imp_right List.mem_singleton.mp
      · exact Or.inl (List.mem_of_mem_drop hleft)
    · rw [List.mem_singleton]
      exact (List.mem_cons.mp (List.mem_of_mem_take hwoken)).symm
  · intro c' hc'
    rw [List.mem_singleton] at hc'
    subst hc'
    exact ⟨hop.2, (hs.hand c' List.mem_cons_self).1.current, hc⟩
  · by_cases hid : op.object = b.id
    · obtain rfl := hop.1 hid
      exact counted_acquire h hs hcounted (hop.2.mpr hid) hc
    · refine counted_other hcounted hserved hid ?_ ?_
      · rw [hmanager, hr]
        exact waitMsg_other t.sys.manager _ _ hid
      · intro c' hc' hacquiring
        rcases List.mem_cons.mp (List.mem_of_mem_take hc') with rfl | hmem
        · exact hid (hop.2.mp hacquiring)
        · exact hid ((h.queued op.object c' hmem).mp hacquiring)

/-- The master handles a request that does not wait; `held` counts the thread that releases. -/
theorem served_post (h : Sound b t) (hs : Inv place [] t.sys) {op : PostOp}
    (hpost : servePost dsm t.sys op = some s')
    (hcounted : if op = .leaveSemaphore b.id then Counted b t (holders b t + 1)
      else op.object ≠ b.id ∧ Counted b t (holders b t)) :
    Sound b { t with sys := s' } ∧ Counted b { t with sys := s' } (holders b { t with sys := s' }) := by
  obtain ⟨r, hr, hserved, hmanager, harrived⟩ := servePost_served hs hpost
  constructor
  · refine h.served hserved [] ?_ ?_ ?_
    · rw [harrived, List.append_nil]
    · rintro c' (hleft | hwoken)
      · exact Or.inl (List.mem_of_mem_drop hleft)
      · exact Or.inl (List.mem_of_mem_take hwoken)
    · exact fun c' hc' => absurd hc' List.not_mem_nil
  · split at hcounted
    · rename_i hop
      subst hop
      exact counted_release h hs hcounted hpost
    · obtain ⟨hid, hcounted⟩ := hcounted
      refine counted_other hcounted hserved hid ?_ ?_
      · rw [hmanager]
        exact postMsg_other hid hr
      · intro c' hc' hacquiring
        exact hid ((h.queued op.object c' (List.mem_of_mem_take hc')).mp hacquiring)

/-- The release of a thread, or another request that does not wait, is made. -/
theorem kept_post (h : Sound b t) (hs : Inv place [] t.sys) (hcounted : Counted b t (holders b t)) {op : PostOp}
    (hok : op.object = b.id → op = .leaveSemaphore b.id ∧ t.inside u = true)
    (hstep : SyncSystem.step dsm t.sys (.post u op) = some s') :
    Sound b (note b t s' (.post u op)) ∧
      Counted b (note b t s' (.post u op)) (holders b (note b t s' (.post u op))) := by
  simp only [SyncSystem.step] at hstep
  split at hstep
  · rename_i hidle
    by_cases hop : op = .leaveSemaphore b.id
    · subst hop
      obtain ⟨-, hin⟩ := hok rfl
      simp only [note, if_true]
      split at hstep
      · rename_i hmaster
        rw [if_pos hmaster]
        have hleave := holders_leave h hidle hin
        rw [hleave] at hcounted
        exact served_post (t := { t with inside := Function.update t.inside u false }) (sound_leave h u) hs hstep
          (by rw [if_pos rfl]; exact ⟨hcounted.permits, hcounted.tight⟩)
      · rename_i hmachine
        obtain rfl := Option.some.inj hstep
        rw [if_neg hmachine]
        refine ⟨sound_release h hs hidle hin hmachine, ?_⟩
        rw [holders_release hin]
        exact ⟨hcounted.permits, hcounted.tight⟩
    · have hid : op.object ≠ b.id := fun hid => hop (hok hid).1
      simp only [note, if_neg hop]
      split at hstep
      · exact served_post h hs hstep (by rw [if_neg hop]; exact ⟨hid, hcounted⟩)
      · obtain rfl := Option.some.inj hstep
        refine ⟨sound_sendPost h u.machine hid, ?_⟩
        have hsame : holders b { t with sys := send t.sys u.machine (.post op) } = holders b t :=
          holders_same fun v => Iff.rfl
        rw [hsame]
        exact ⟨hcounted.permits, hcounted.tight⟩
  · cases hstep

/-- The master handles a message from a connection. -/
theorem kept_deliver (h : Sound b t) (hs : Inv place [] t.sys) (hcounted : Counted b t (holders b t)) {machine : Nat}
    (hstep : SyncSystem.step dsm t.sys (.deliver machine) = some s') :
    Sound b (note b t s' (.deliver machine)) ∧
      Counted b (note b t s' (.deliver machine)) (holders b (note b t s' (.deliver machine))) := by
  simp only [SyncSystem.step] at hstep
  split at hstep
  · cases hstep
  · rename_i r rest hrequests
    have hmem : r ∈ t.sys.requests machine := by
      rw [hrequests]
      exact List.mem_cons_self
    have hbehind := h.behind machine
    rw [hrequests] at hbehind
    cases r with
    | wait op c =>
        obtain rfl := Option.some.inj hstep
        obtain ⟨rfl, hs'⟩ := inv_takeWait hs hrequests
        obtain ⟨hc, hrest⟩ := hbehind.of_wait
        have htaken := sound_taken h hrequests hrest (List.Sublist.refl _)
        rw [Function.update_eq_self] at htaken
        simp only [note, hrequests, List.head?_cons, Option.some.injEq, reduceCtorEq, if_false]
        exact served_wait (t := { t with
          sys := { t.sys with requests := Function.update t.sys.requests c.thread.machine rest } }) htaken hs'
          ⟨hcounted.permits, hcounted.tight⟩ (h.sent _ op c hmem) hc
    | post op =>
        have hs' : Inv place [] { t.sys with requests := Function.update t.sys.requests machine rest } := by
          apply hs.setRequests_same
          rw [hrequests]
          rfl
        by_cases hop : op = .leaveSemaphore b.id
        · subst hop
          obtain ⟨u, hu, hrest⟩ := hbehind.of_release
          have htaken := sound_taken h hrequests hrest (List.tail_sublist _)
          have hleave := holders_taken h rest hu
          rw [hleave] at hcounted
          simp only [note, hrequests, List.head?_cons, if_true]
          exact served_post (t := { t with
            sys := { t.sys with requests := Function.update t.sys.requests machine rest }
            leaving := Function.update t.leaving machine (t.leaving machine).tail }) htaken hs' hstep
            (by rw [if_pos rfl]; exact ⟨hcounted.permits, hcounted.tight⟩)
        · have htaken := sound_taken h hrequests (hbehind.of_post hop) (List.Sublist.refl _)
          rw [Function.update_eq_self] at htaken
          have hid : op.object ≠ b.id := fun hid => hop (h.posted machine op hmem hid)
          have hnot : ¬ some (Request.post op) = some (.post (.leaveSemaphore b.id)) := fun heq =>
            hop (Request.post.inj (Option.some.inj heq))
          simp only [note, hrequests, List.head?_cons, if_neg hnot]
          exact served_post (t := { t with
            sys := { t.sys with requests := Function.update t.sys.requests machine rest } }) htaken hs' hstep
            (by rw [if_neg hop]; exact ⟨hid, hcounted.permits, hcounted.tight⟩)

theorem kept_send (h : Sound b t) (hs : Inv place [] t.sys) (hcounted : Counted b t (holders b t))
    (hstep : SyncSystem.step dsm t.sys (.send u) = some s') :
    Sound b { t with sys := s' } ∧ Counted b { t with sys := s' } (holders b { t with sys := s' }) := by
  simp only [SyncSystem.step] at hstep
  split at hstep
  · rename_i op timeout hphase
    obtain rfl := Option.some.inj hstep
    obtain ⟨hop, hiff⟩ := h.entering u op timeout hphase
    have hwaiting := sound_waiting h hphase
    have hholders := holders_waiting (b := b) hphase
    obtain ⟨s₁, hs₁⟩ : ∃ s₁, s₁ = t.sys.setThread u ⟨(t.sys.threads u).calls, .waiting timeout⟩ :=
      ⟨_, rfl⟩
    have hcounted₁ : Counted b { t with sys := s₁ } (holders b { t with sys := s₁ }) := by
      rw [hs₁, hholders]
      exact ⟨hcounted.permits, hcounted.tight⟩
    rw [← hs₁] at hwaiting
    have hthread : (s₁.current u).thread = u := rfl
    simp only [← hs₁]
    split
    · rename_i hmaster
      have hserve := served_wait (c := s₁.current u) hwaiting (inv_hold hs hphase hs₁) hcounted₁
        ⟨fun hid => (hop hid).1, hiff⟩ (by
          rw [hthread, hmaster, h.home]
          exact List.not_mem_nil)
      rwa [hthread, hmaster] at hserve
    · refine ⟨sound_sendWait hwaiting u.machine ⟨fun hid => (hop hid).1, hiff⟩, ?_⟩
      have hsame : holders b { t with sys := send s₁ u.machine (.wait op (s₁.current u)) } =
          holders b { t with sys := s₁ } := holders_same fun v => Iff.rfl
      rw [hsame]
      exact ⟨hcounted₁.permits, hcounted₁.tight⟩
  · cases hstep

theorem note_sys (t : State) (s : SyncSystem.State) (a : Act) : (note b t s a).sys = s := by
  cases a with
  | post u op =>
      simp only [note]
      split
      · rfl
      · rfl
  | deliver machine =>
      simp only [note]
      split
      · rfl
      · rfl
  | call u op timeout => rfl
  | send u => rfl
  | ret u => rfl
  | timeout u => rfl
  | wake machine => rfl

theorem guarded_step {a : Act} (h : Guarded b t) (hok : Uses b t a) (hstep : step b t a = some t') :
    Guarded b t' := by
  obtain ⟨s', hs', rfl⟩ := Option.map_eq_some_iff.mp hstep
  have hinv := inv_step h.inv (orderly_of_uses b hok) hs'
  obtain ⟨place, hs⟩ := h.inv
  have haccounted := accounted_step hs h.accounted hs'
  have hfinal : Sound b (note b t s' a) ∧ Counted b (note b t s' a) (holders b (note b t s' a)) := by
    cases a with
    | call u op timeout =>
        simp only [SyncSystem.step] at hs'
        split at hs'
        · rename_i hidle
          obtain rfl := Option.some.inj hs'
          have hholders := holders_call (b := b) h.sound hidle op timeout (Function.update t.sys.event u false)
          refine ⟨sound_call h.sound hs hidle hok.2 _, ?_⟩
          simp only [note]
          rw [hholders]
          exact ⟨h.counted.permits, h.counted.tight⟩
        · cases hs'
    | send u => exact kept_send h.sound hs h.counted hs'
    | ret u =>
        simp only [SyncSystem.step] at hs'
        split at hs'
        · rename_i timeout hphase
          split at hs'
          · rename_i hevent
            obtain rfl := Option.some.inj hs'
            have hactive : (t.sys.threads u).phase ≠ .idle := by
              rw [hphase]
              exact Phase.noConfusion
            have hgranted := hs.event u hactive hevent
            have hsound := sound_finish h.sound true hactive (fun _ _ => hgranted) true
            have hholders := holders_finish (b := b) true hactive (fun _ => ⟨hgranted, rfl⟩) true
            simp only [Bool.and_true] at hsound hholders
            refine ⟨hsound, ?_⟩
            simp only [note]
            rw [hholders]
            exact ⟨h.counted.permits, h.counted.tight⟩
          · cases hs'
        · cases hs'
    | timeout u =>
        simp only [SyncSystem.step] at hs'
        split at hs'
        · rename_i timeout hphase
          split at hs'
          · rename_i hfinite
            obtain rfl := Option.some.inj hs'
            have hactive : (t.sys.threads u).phase ≠ .idle := by
              rw [hphase]
              exact Phase.noConfusion
            have hnot : ¬ t.acquiring u = true := fun hacquiring =>
              absurd hfinite (not_le.mpr (h.sound.endless u timeout hacquiring hphase))
            have hsound := sound_finish h.sound false hactive
              (fun hacquiring _ => absurd hacquiring hnot) false
            have hholders := holders_finish (b := b) false hactive
              (fun hacquiring => absurd hacquiring hnot) false
            simp only [Bool.and_false, Bool.false_or, Function.update_eq_self] at hsound hholders
            refine ⟨hsound, ?_⟩
            simp only [note]
            rw [hholders]
            exact ⟨h.counted.permits, h.counted.tight⟩
          · cases hs'
        · cases hs'
    | post u op => exact kept_post h.sound hs h.counted hok hs'
    | deliver machine => exact kept_deliver h.sound hs h.counted hs'
    | wake machine =>
        simp only [SyncSystem.step] at hs'
        split at hs'
        · cases hs'
        · have heq := Option.some.inj hs'
          have hsame : holders b (note b t s' (.wake machine)) = holders b t := by
            rw [← heq]
            exact holders_same fun v => Iff.rfl
          rw [hsame, ← heq]
          exact ⟨{ h.sound with }, ⟨h.counted.permits, h.counted.tight⟩⟩
  refine ⟨?_, ?_, hfinal.1, hfinal.2⟩
  · rw [note_sys]
    exact hinv
  · rw [note_sys]
    exact haccounted

theorem guarded_run {acts : List Act} (hok : Along (step b) (Uses b) start acts)
    (hrun : run (step b) start acts = some t) : Guarded b t :=
  invariant_run (fun _ _ _ h hok hstep => guarded_step h hok hstep) guarded_start hok hrun

end Dogee.SemaphoreUsers
