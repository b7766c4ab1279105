import Dogee.SemaphoreHolders

/-!
# How many threads a semaphore can serve

A release wakes the first thread of the queue only when the counter has come up to
zero, so it wakes nobody while two threads wait. With one thread more than permits
nobody waits beside another one, and who waits, waits for threads that are inside.
With two threads more there is a run in which a permit is lost.
-/

namespace Dogee.SemaphoreUsers

open Transition SyncManager SyncSystem

variable {dsm : Dsm} {b : Users dsm} {t t' : State} {u : SyncThreadNode} {val : Int}
  {ins waits : List SyncThreadNode} {s : SyncSystem.State} {c : Call}

variable (b) in
/-- The threads inside. -/
def inUse (t : State) : Nat := b.users.countP t.inside

theorem inUse_le_holders (t : State) : inUse b t ≤ holders b t := by
  apply List.countP_mono_left
  intro u _ hu
  exact decide_eq_true (Or.inr (Or.inl hu))

/-- Where nothing is on its way, the holders are inside. -/
theorem holders_of_still (h : Guarded b t) (hstill : Still t.sys) : holders b t = inUse b t := by
  obtain ⟨place, hs⟩ := h.inv
  apply List.countP_congr
  intro v _
  rw [decide_eq_true_iff]
  refine ⟨?_, fun hin => Or.inr (Or.inl hin)⟩
  rintro (⟨-, hphase, hgranted⟩ | hin | hleaving)
  · exfalso
    cases hv : (t.sys.threads v).phase with
    | idle => exact hphase hv
    | entering op timeout => exact hs.entering v op timeout hv hgranted
    | waiting timeout =>
        obtain ⟨id, hmem⟩ := hstill.queued_of_waiting h.accounted hv
        exact (hs.queued id _ hmem).1.open_ hgranted
  · exact hin
  · have hbehind := h.sound.behind v.machine
    rw [hstill.requests] at hbehind
    rw [behind_nil hbehind] at hleaving
    cases hleaving

/-- With one thread more than permits, who waits where nothing goes on waits for all the permits. -/
theorem inUse_of_still (h : Guarded b t) (hfew : b.users.length ≤ b.count + 1) (hstill : Still t.sys)
    (hacquiring : t.acquiring u = true) {timeout : Int} (hphase : (t.sys.threads u).phase = .waiting timeout) :
    inUse b t = b.count := by
  obtain ⟨id, hmem⟩ := hstill.queued_of_waiting h.accounted hphase
  have hid : id = b.id := (h.sound.queued id _ hmem).mp hacquiring
  subst hid
  rw [← holders_of_still h hstill]
  exact h.counted.permits.held_eq (h.counted.tight hfew) (List.length_pos_of_mem hmem)

/-! ## A run that loses a permit -/

/-- Nothing is on its way; the threads in `ins` are inside and those in `waits` wait. -/
structure Calm (b : Users dsm) (t : State) (val : Int) (ins waits : List SyncThreadNode) : Prop where
  requests : ∀ m, t.sys.requests m = []
  wakes : ∀ m, t.sys.wakes m = []
  val : (b.node t.sys.manager).val = val
  inside : ∀ v, t.inside v = true ↔ v ∈ ins
  idle : ∀ v, v ∉ waits → (t.sys.threads v).phase = .idle
  waits : ∀ v ∈ waits, (t.sys.threads v).phase = .waiting (-1) ∧ t.acquiring v = true ∧ t.sys.event v = false

theorem calm_start : Calm b start b.count [] [] := by
  constructor
  · exact fun _ => rfl
  · exact fun _ => rfl
  · rfl
  · exact fun v => iff_of_false Bool.false_ne_true List.not_mem_nil
  · exact fun _ _ => rfl
  · exact fun _ h => absurd h List.not_mem_nil

theorem Calm.still (h : Calm b t val ins waits) : Still t.sys := by
  refine ⟨h.requests, h.wakes, fun v timeout hphase => ?_⟩
  by_cases hv : v ∈ waits
  · exact (h.waits v hv).2.2
  · rw [h.idle v hv] at hphase
    cases hphase

/-- The master grants an `Acquire` at once. -/
theorem serveWait_grant (c : Call) (hpos : 0 < (b.node s.manager).val) :
    ∃ m arrived queued, (b.node m).val = (b.node s.manager).val - 1 ∧
      serveWait dsm s c.thread.machine (.enterSemaphore b.id) c =
        State.rcWakeRemoteThread { s with manager := m, arrived := arrived, queued := queued } c.thread c := by
  obtain ⟨⟨hval, -⟩, hgrant, -⟩ := semaphoreMsg_spec (b := b) s.manager c.thread
  have hmsg : waitMsg dsm s.manager c.thread.machine c.thread.threadId (.enterSemaphore b.id) =
      ((semaphoreMsg dsm s.manager c.thread.machine b.id c.thread.threadId).1, [c.thread]) :=
    Prod.ext rfl (hgrant hpos)
  refine ⟨_, s.arrived ++ [c], Function.update s.queued b.id (s.queued b.id), hval, ?_⟩
  simp only [serveWait, hmsg]
  rfl

/-- The master puts an `Acquire` into the queue. -/
theorem serveWait_wait (c : Call) (hle : (b.node s.manager).val ≤ 0) :
    ∃ m arrived queued, (b.node m).val = (b.node s.manager).val - 1 ∧
      serveWait dsm s c.thread.machine (.enterSemaphore b.id) c =
        { s with manager := m, arrived := arrived, queued := queued } := by
  obtain ⟨⟨hval, -⟩, -, hwait⟩ := semaphoreMsg_spec (b := b) s.manager c.thread
  have hmsg : waitMsg dsm s.manager c.thread.machine c.thread.threadId (.enterSemaphore b.id) =
      ((semaphoreMsg dsm s.manager c.thread.machine b.id c.thread.threadId).1, []) :=
    Prod.ext rfl (hwait hle)
  refine ⟨_, s.arrived ++ [c], Function.update s.queued b.id (s.queued b.id ++ [c]), hval, ?_⟩
  simp only [serveWait, hmsg]
  rfl

/-- The master handles a `Release` while two threads wait. -/
theorem servePost_lost (b : Users dsm) (s : SyncSystem.State) (hlt : (b.node s.manager).val < -1) :
    ∃ m queued, (b.node m).val = (b.node s.manager).val + 1 ∧
      servePost dsm s (.leaveSemaphore b.id) = some { s with manager := m, queued := queued } := by
  obtain ⟨r, hr⟩ : ∃ r, semaphoreLeaveMsg s.manager b.id = some r := by
    cases hnode : s.manager.syncData b.id with
    | none =>
        rw [Users.node, hnode, Option.getD_none] at hlt
        change (b.count : Int) < -1 at hlt
        omega
    | some node => exact ⟨_, by rw [semaphoreLeaveMsg, hnode]; rfl⟩
  obtain ⟨⟨hval, -⟩, -, hlost⟩ := semaphoreLeaveMsg_spec (b := b) hr
  have hnil := hlost hlt
  refine ⟨r.1, Function.update s.queued b.id (s.queued b.id), hval, ?_⟩
  rw [servePost, show postMsg dsm s.manager (.leaveSemaphore b.id) = some r from hr, Option.map_some, hnil]
  rfl

/-- A message that nothing is in front of is sent and taken. -/
theorem send_taken {machine : Nat} (hrequests : s.requests machine = []) (r : Request) :
    (send s machine r).requests machine = [r] ∧
      { send s machine r with requests := Function.update (send s machine r).requests machine [] } = s := by
  constructor
  · simp only [send, Function.update_self, hrequests]
    rfl
  · simp only [send, Function.update_idem]
    rw [← hrequests, Function.update_eq_self]

/-- A wake that nothing is in front of reaches its thread. -/
theorem reaches_woken (t : State) (s : SyncSystem.State) (u : SyncThreadNode) (c : Call)
    (hwakes : s.wakes u.machine = []) :
    ∃ s', s'.manager = s.manager ∧ s'.threads = s.threads ∧ s'.event = Function.update s.event u true ∧
      s'.requests = s.requests ∧ s'.wakes = s.wakes ∧
      Reaches (step b) (Uses b) { t with sys := s.rcWakeRemoteThread u c } { t with sys := s' } := by
  by_cases hmaster : u.machine = 0
  · obtain ⟨granted, late, hwoken⟩ : ∃ granted late, s.rcWakeRemoteThread u c =
        State.rcSetRemoteEvent { s with granted := granted, late := late } u c := by
      refine ⟨s.granted ++ [c], if (c, false) ∈ s.returned then s.late ++ [c] else s.late, ?_⟩
      rw [SyncSystem.State.rcWakeRemoteThread, if_pos hmaster]
    rw [hwoken]
    exact ⟨State.rcSetRemoteEvent { s with granted := granted, late := late } u c, rfl, rfl, rfl, rfl, rfl,
      Reaches.refl _⟩
  · obtain ⟨granted, late, hwoken⟩ : ∃ granted late, s.rcWakeRemoteThread u c =
        { s with
          granted := granted
          late := late
          wakes := Function.update s.wakes u.machine [(u.threadId, c)] } := by
      refine ⟨s.granted ++ [c], if (c, false) ∈ s.returned then s.late ++ [c] else s.late, ?_⟩
      rw [SyncSystem.State.rcWakeRemoteThread, if_neg hmaster]
      dsimp only
      rw [hwakes, List.nil_append]
    rw [hwoken]
    refine ⟨State.rcSetRemoteEvent { s with granted := granted, late := late } u c, rfl, rfl, rfl, rfl, rfl,
      Reaches.cons (a := .wake u.machine) trivial ?_ (Reaches.refl _)⟩
    simp only [step, SyncSystem.step, Function.update_self, Option.map_some, note, Function.update_idem]
    rw [← hwakes, Function.update_eq_self]

/-- A thread calls `Acquire`, and its request comes to the master. -/
theorem calm_request (h : Calm b t val ins waits) (hu : u ∈ b.users) (hin : u ∉ ins) (hout : u ∉ waits) :
    ∃ s c, c.thread = u ∧ s.manager = t.sys.manager ∧
      s.threads = Function.update t.sys.threads u ⟨(t.sys.threads u).calls + 1, .waiting (-1)⟩ ∧
      s.event = Function.update t.sys.event u false ∧ s.requests = t.sys.requests ∧ s.wakes = t.sys.wakes ∧
      Reaches (step b) (Uses b) t { t with
        sys := serveWait dsm s u.machine (.enterSemaphore b.id) c
        acquiring := Function.update t.acquiring u true } := by
  have hidle := h.idle u hout
  have hinside : t.inside u = false := by
    by_contra hne
    exact hin ((h.inside u).mp (eq_true_of_ne_false hne))
  have hcall : Uses b t (.call u (.enterSemaphore b.id) (-1)) := by
    refine ⟨fun x hx => ?_, fun _ => ⟨rfl, hu, hinside, by decide⟩⟩
    rw [h.wakes] at hx
    cases hx
  obtain ⟨s₁, hs₁⟩ : ∃ s₁ : SyncSystem.State, s₁ =
      { t.sys.setThread u ⟨(t.sys.threads u).calls + 1, .entering (.enterSemaphore b.id) (-1)⟩ with
        event := Function.update t.sys.event u false } := ⟨_, rfl⟩
  have hstep₁ : step b t (.call u (.enterSemaphore b.id) (-1)) = some { t with
      sys := s₁
      acquiring := Function.update t.acquiring u true } := by
    simp only [step, SyncSystem.step, hidle, Option.map_some, note, WaitOp.object, decide_true, hs₁]
  have hphase : s₁.threads u = ⟨(t.sys.threads u).calls + 1, .entering (.enterSemaphore b.id) (-1)⟩ := by
    rw [hs₁]
    exact Function.update_self ..
  obtain ⟨s₂, hs₂⟩ : ∃ s₂, s₂ = s₁.setThread u ⟨(t.sys.threads u).calls + 1, .waiting (-1)⟩ := ⟨_, rfl⟩
  have hthreads : s₂.threads =
      Function.update t.sys.threads u ⟨(t.sys.threads u).calls + 1, .waiting (-1)⟩ := by
    rw [hs₂, hs₁]
    exact Function.update_idem ..
  have hrest : s₂.manager = t.sys.manager ∧ s₂.event = Function.update t.sys.event u false ∧
      s₂.requests = t.sys.requests ∧ s₂.wakes = t.sys.wakes := by
    rw [hs₂, hs₁]
    exact ⟨rfl, rfl, rfl, rfl⟩
  obtain ⟨hmanager, hevent, hrequests, hwakes⟩ := hrest
  refine ⟨s₂, s₂.current u, rfl, hmanager, hthreads, hevent, hrequests, hwakes, Reaches.cons hcall hstep₁ ?_⟩
  by_cases hmaster : u.machine = 0
  · refine Reaches.cons (a := .send u) trivial ?_ (Reaches.refl _)
    simp only [step, SyncSystem.step, hphase, ← hs₂, if_pos hmaster, Option.map_some, note]
    rw [hmaster]
  · have hempty : s₂.requests u.machine = [] := by
      rw [hrequests]
      exact h.requests u.machine
    obtain ⟨hone, htaken⟩ := send_taken hempty (.wait (.enterSemaphore b.id) (s₂.current u))
    refine Reaches.cons (a := .send u) (t := { t with
        sys := send s₂ u.machine (.wait (.enterSemaphore b.id) (s₂.current u))
        acquiring := Function.update t.acquiring u true }) trivial ?_
      (Reaches.cons (a := .deliver u.machine) trivial ?_ (Reaches.refl _))
    · simp only [step, SyncSystem.step, hphase, ← hs₂, if_neg hmaster, Option.map_some, note]
    · simp only [step, SyncSystem.step, hone, htaken, Option.map_some, note, List.head?_cons, Option.some.injEq,
        reduceCtorEq, if_false]

/-- A thread calls `Acquire` and is woken. -/
theorem calm_granted (h : Calm b t val ins waits) (hpos : 0 < val) (hu : u ∈ b.users) (hin : u ∉ ins)
    (hout : u ∉ waits) :
    ∃ s', (b.node s'.manager).val = val - 1 ∧
      s'.threads = Function.update t.sys.threads u ⟨(t.sys.threads u).calls + 1, .waiting (-1)⟩ ∧
      s'.event = Function.update t.sys.event u true ∧ s'.requests = t.sys.requests ∧ s'.wakes = t.sys.wakes ∧
      Reaches (step b) (Uses b) t { t with
        sys := s'
        acquiring := Function.update t.acquiring u true } := by
  obtain ⟨s, c, hc, hmanager, hthreads, hevent, hrequests, hwakes, hreach⟩ := calm_request h hu hin hout
  have hval : (b.node s.manager).val = val := by
    rw [hmanager]
    exact h.val
  obtain ⟨m, arrived, queued, hm, hserve⟩ := serveWait_grant (b := b) (s := s) c (by rw [hval]; exact hpos)
  rw [hval] at hm
  rw [hc] at hserve
  rw [hserve] at hreach
  obtain ⟨s', hmanager', hthreads', hevent', hrequests', hwakes', hreach'⟩ :=
    reaches_woken (b := b) { t with acquiring := Function.update t.acquiring u true }
      { s with manager := m, arrived := arrived, queued := queued } u c (by
        rw [hwakes]
        exact h.wakes u.machine)
  refine ⟨s', ?_, ?_, ?_, ?_, ?_, hreach.trans hreach'⟩
  · rw [hmanager']
    exact hm
  · rw [hthreads']
    exact hthreads
  · rw [hevent', hevent, Function.update_idem]
  · rw [hrequests']
    exact hrequests
  · rw [hwakes']
    exact hwakes

/-- A thread that finds a permit comes inside. -/
theorem calm_acquire (h : Calm b t val ins waits) (hpos : 0 < val) (hu : u ∈ b.users) (hin : u ∉ ins)
    (hout : u ∉ waits) :
    ∃ t', Reaches (step b) (Uses b) t t' ∧ Calm b t' (val - 1) (u :: ins) waits := by
  obtain ⟨s, hval, hthreads, hevent, hrequests, hwakes, hreach⟩ := calm_granted h hpos hu hin hout
  have hphase : s.threads u = ⟨(t.sys.threads u).calls + 1, .waiting (-1)⟩ := by
    rw [hthreads, Function.update_self]
  have hset : s.event u = true := by
    rw [hevent, Function.update_self]
  refine ⟨{ t with
      sys := finish s u true
      acquiring := Function.update t.acquiring u true
      inside := Function.update t.inside u true },
    hreach.trans (Reaches.cons (a := .ret u) trivial ?_ (Reaches.refl _)), ?_⟩
  · simp only [step, SyncSystem.step, hphase, hset, if_true, Option.map_some, note, Function.update_self,
      Bool.true_or]
  · constructor
    · intro m
      exact (congrFun hrequests m).trans (h.requests m)
    · intro m
      exact (congrFun hwakes m).trans (h.wakes m)
    · exact hval
    · intro v
      rw [List.mem_cons, ← h.inside v]
      simp only [Function.update_apply]
      split
      · rename_i hv
        exact iff_of_true rfl (Or.inl hv)
      · rename_i hv
        exact (or_iff_right hv).symm
    · intro v hv
      simp only [finish, SyncSystem.State.setThread, hthreads, Function.update_apply]
      split
      · rfl
      · exact h.idle v hv
    · intro v hv
      have hne : v ≠ u := by
        rintro rfl
        exact hout hv
      simp only [finish, SyncSystem.State.setThread, hthreads, hevent, Function.update_of_ne hne]
      exact h.waits v hv

/-- A thread that finds no permit waits. -/
theorem calm_wait (h : Calm b t val ins waits) (hle : val ≤ 0) (hu : u ∈ b.users) (hin : u ∉ ins)
    (hout : u ∉ waits) :
    ∃ t', Reaches (step b) (Uses b) t t' ∧ Calm b t' (val - 1) ins (u :: waits) := by
  obtain ⟨s, c, hc, hmanager, hthreads, hevent, hrequests, hwakes, hreach⟩ := calm_request h hu hin hout
  have hval : (b.node s.manager).val = val := by
    rw [hmanager]
    exact h.val
  obtain ⟨m, arrived, queued, hm, hserve⟩ := serveWait_wait (b := b) (s := s) c (by rw [hval]; exact hle)
  rw [hval] at hm
  rw [hc] at hserve
  rw [hserve] at hreach
  refine ⟨_, hreach, ?_⟩
  constructor
  · intro m
    exact (congrFun hrequests m).trans (h.requests m)
  · intro m
    exact (congrFun hwakes m).trans (h.wakes m)
  · exact hm
  · exact h.inside
  · intro v hv
    rw [List.mem_cons, not_or] at hv
    simp only [hthreads, Function.update_of_ne hv.1]
    exact h.idle v hv.2
  · intro v hv
    simp only [hthreads, hevent, Function.update_apply]
    split
    · exact ⟨rfl, rfl, rfl⟩
    · rename_i hne
      exact h.waits v ((List.mem_cons.mp hv).resolve_left hne)

/-- A thread that is inside releases its permit while two threads wait; neither of them is woken. -/
theorem calm_lose (h : Calm b t val (u :: ins) waits) (hlt : val < -1) (hin : u ∉ ins) (hout : u ∉ waits) :
    ∃ t', Reaches (step b) (Uses b) t t' ∧ Calm b t' (val + 1) ins waits := by
  have hidle := h.idle u hout
  have hinside : t.inside u = true := (h.inside u).mpr List.mem_cons_self
  have hleft : ∀ v, Function.update t.inside u false v = true ↔ v ∈ ins := by
    intro v
    rw [Function.update_apply]
    split
    · rename_i hv
      rw [hv]
      exact iff_of_false Bool.false_ne_true hin
    · rename_i hv
      rw [h.inside v, List.mem_cons]
      exact or_iff_right hv
  have hok : Uses b t (.post u (.leaveSemaphore b.id)) := fun _ => ⟨rfl, hinside⟩
  have hval := h.val
  obtain ⟨m, queued, hm, hpost⟩ := servePost_lost b t.sys (by rw [hval]; exact hlt)
  rw [hval] at hm
  by_cases hmaster : u.machine = 0
  · refine ⟨{ t with
        sys := { t.sys with manager := m, queued := queued }
        inside := Function.update t.inside u false }, Reaches.cons hok ?_ (Reaches.refl _), ?_⟩
    · simp only [step, SyncSystem.step, hidle, if_pos hmaster, hpost, Option.map_some, note, if_true]
    · exact ⟨h.requests, h.wakes, hm, hleft, h.idle, h.waits⟩
  · obtain ⟨hone, htaken⟩ := send_taken (h.requests u.machine) (.post (.leaveSemaphore b.id))
    refine ⟨{ t with
        sys := { t.sys with manager := m, queued := queued }
        inside := Function.update t.inside u false
        leaving := Function.update (Function.update t.leaving u.machine (t.leaving u.machine ++ [u])) u.machine
          (t.leaving u.machine ++ [u]).tail },
      Reaches.cons hok (t := { t with
        sys := send t.sys u.machine (.post (.leaveSemaphore b.id))
        inside := Function.update t.inside u false
        leaving := Function.update t.leaving u.machine (t.leaving u.machine ++ [u]) }) ?_
        (Reaches.cons (a := .deliver u.machine) trivial ?_ (Reaches.refl _)), ?_⟩
    · simp only [step, SyncSystem.step, hidle, if_neg hmaster, Option.map_some, note, if_true]
    · simp only [step, SyncSystem.step, hone, htaken, hpost, Option.map_some, note, List.head?_cons, if_true,
        Function.update_self]
    · exact ⟨h.requests, h.wakes, hm, hleft, h.idle, h.waits⟩

/-- Threads acquire one permit after another. -/
theorem calm_fill (us : List SyncThreadNode) (h : Calm b t val ins waits) (hle : us.length ≤ val)
    (hnodup : us.Nodup) (hus : ∀ u ∈ us, u ∈ b.users ∧ u ∉ ins ∧ u ∉ waits) :
    ∃ t', Reaches (step b) (Uses b) t t' ∧ Calm b t' (val - us.length) (us.reverse ++ ins) waits := by
  induction us generalizing t val ins with
  | nil =>
      refine ⟨t, Reaches.refl t, ?_⟩
      rw [List.length_nil, Nat.cast_zero, sub_zero]
      exact h
  | cons u rest ih =>
      rw [List.length_cons, Nat.cast_succ] at hle
      obtain ⟨hu, hin, hout⟩ := hus u List.mem_cons_self
      obtain ⟨hnot, hrest⟩ := List.nodup_cons.mp hnodup
      obtain ⟨t₁, hreach₁, hcalm₁⟩ := calm_acquire h (by omega) hu hin hout
      obtain ⟨t₂, hreach₂, hcalm₂⟩ := ih hcalm₁ (by omega) hrest fun v hv => by
        obtain ⟨hv₁, hv₂, hv₃⟩ := hus v (List.mem_cons_of_mem u hv)
        refine ⟨hv₁, ?_, hv₃⟩
        rw [List.mem_cons, not_or]
        refine ⟨?_, hv₂⟩
        rintro rfl
        exact hnot hv
      refine ⟨t₂, hreach₁.trans hreach₂, ?_⟩
      rw [List.reverse_cons, List.append_assoc, List.singleton_append, List.length_cons, Nat.cast_succ,
        show val - ((rest.length : Int) + 1) = val - 1 - rest.length by omega]
      exact hcalm₂

theorem Calm.inUse_le (h : Calm b t val ins waits) : inUse b t ≤ ins.length := by
  have hsub : b.users.filter t.inside ⊆ ins := by
    intro v hv
    exact (h.inside v).mp (List.mem_filter.mp hv).2
  rw [inUse, List.countP_eq_length_filter]
  exact ((b.nodup.filter _).subperm hsub).length_le

/-- With two threads more than permits, one permit of a release is lost: two threads wait,
nothing is on its way, and fewer threads are inside than there are permits. -/
theorem loses_permit (hmany : b.count + 1 < b.users.length) :
    ∃ t, Reaches (step b) (Uses b) start t ∧ Still t.sys ∧
      (∃ u, t.acquiring u = true ∧ (t.sys.threads u).phase = .waiting (-1)) ∧ inUse b t < b.count := by
  have hsplit := List.take_append_drop b.count b.users
  obtain ⟨front, hfront⟩ : ∃ front, front = b.users.take b.count := ⟨_, rfl⟩
  have hlength : front.length = b.count := by
    rw [hfront, List.length_take]
    omega
  obtain ⟨v, w, rest, hdrop⟩ : ∃ v w rest, b.users.drop b.count = v :: w :: rest := by
    have hlen : 2 ≤ (b.users.drop b.count).length := by
      rw [List.length_drop]
      omega
    match hd : b.users.drop b.count, hlen with
    | v :: w :: rest, _ => exact ⟨v, w, rest, rfl⟩
  rw [← hfront, hdrop] at hsplit
  have hnodup := b.nodup
  rw [← hsplit] at hnodup
  obtain ⟨hfrontNodup, htailNodup, hdisjoint⟩ := List.nodup_append.mp hnodup
  have hmem : ∀ x, x ∈ front ∨ x = v ∨ x = w → x ∈ b.users := by
    intro x hx
    rw [← hsplit, List.mem_append, List.mem_cons, List.mem_cons]
    tauto
  have hv : v ∉ front := fun hv => hdisjoint v hv v List.mem_cons_self rfl
  have hw : w ∉ front := fun hw => hdisjoint w hw w (List.mem_cons_of_mem v List.mem_cons_self) rfl
  have hvw : w ≠ v := by
    rintro rfl
    exact (List.nodup_cons.mp htailNodup).1 List.mem_cons_self
  -- all permits are taken, and two more threads come
  obtain ⟨t₁, hreach₁, hcalm₁⟩ := calm_fill front (calm_start (b := b)) (by rw [hlength]) hfrontNodup
    fun u hu => ⟨hmem u (Or.inl hu), List.not_mem_nil, List.not_mem_nil⟩
  rw [hlength, sub_self, List.append_nil] at hcalm₁
  obtain ⟨t₂, hreach₂, hcalm₂⟩ := calm_wait hcalm₁ (le_refl 0) (hmem v (Or.inr (Or.inl rfl)))
    (by rw [List.mem_reverse]; exact hv) List.not_mem_nil
  obtain ⟨t₃, hreach₃, hcalm₃⟩ := calm_wait hcalm₂ (by omega) (hmem w (Or.inr (Or.inr rfl)))
    (by rw [List.mem_reverse]; exact hw) (by rw [List.mem_singleton]; exact hvw)
  -- one thread leaves
  have hpos := b.count_pos
  obtain ⟨u, ins, hins⟩ : ∃ u ins, front.reverse = u :: ins := by
    apply List.exists_cons_of_length_pos
    rw [List.length_reverse, hlength]
    exact hpos
  have hu : u ∈ front := by
    rw [← List.mem_reverse, hins]
    exact List.mem_cons_self
  have hreverse := List.nodup_reverse.mpr hfrontNodup
  rw [hins] at hreverse hcalm₃
  have hout : u ∉ [w, v] := by
    rw [List.mem_cons, List.mem_singleton, not_or]
    refine ⟨?_, ?_⟩
    · rintro rfl
      exact hw hu
    · rintro rfl
      exact hv hu
  obtain ⟨t₄, hreach₄, hcalm₄⟩ := calm_lose hcalm₃ (by omega) (List.nodup_cons.mp hreverse).1 hout
  obtain ⟨hphase, hacquiring, -⟩ := hcalm₄.waits w List.mem_cons_self
  refine ⟨t₄, hreach₁.trans (hreach₂.trans (hreach₃.trans hreach₄)), hcalm₄.still, ⟨w, hacquiring, hphase⟩, ?_⟩
  have hshort := congrArg List.length hins
  rw [List.length_reverse, List.length_cons, hlength] at hshort
  have hle := hcalm₄.inUse_le
  omega

/-- A semaphore of `count` permits guards a section for its threads, on any nodes and beside any other
synchronisation of theirs: in no state of any run are more than `count` threads inside. And a thread that waits
for it where nothing is on its way waits for `count` threads that are inside, in every run, exactly
when there is at most one thread more than permits. -/
theorem semaphore_guards (b : Users dsm) :
    (∀ acts t, Along (step b) (Uses b) start acts → run (step b) start acts = some t → inUse b t ≤ b.count) ∧
    ((∀ acts t, Along (step b) (Uses b) start acts → run (step b) start acts = some t → Still t.sys →
        (∃ u timeout, t.acquiring u = true ∧ (t.sys.threads u).phase = .waiting timeout) → inUse b t = b.count) ↔
      b.users.length ≤ b.count + 1) := by
  refine ⟨fun acts t hok hrun => ?_, fun hserves => ?_, fun hfew acts t hok hrun hstill hwaits => ?_⟩
  · have h := guarded_run hok hrun
    calc inUse b t ≤ holders b t := inUse_le_holders t
      _ ≤ b.count := h.counted.permits.held_le
  · by_contra hmany
    obtain ⟨t, ⟨acts, hok, hrun⟩, hstill, ⟨u, hacquiring, hphase⟩, hlt⟩ := loses_permit (not_le.mp hmany)
    have hall := hserves acts t hok hrun hstill ⟨u, -1, hacquiring, hphase⟩
    exact absurd hall (Nat.ne_of_lt hlt)
  · obtain ⟨u, timeout, hacquiring, hphase⟩ := hwaits
    exact inUse_of_still (guarded_run hok hrun) hfew hstill hacquiring hphase

instance (t : State) (a : Act) : Decidable (Uses b t a) := by
  unfold Uses
  split <;> infer_instance

theorem nodup_mutexUsers : ([⟨0, 1⟩, ⟨1, 1⟩] : List SyncThreadNode).Nodup := by decide

/-- A thread of the master and one of another node, and a semaphore with one permit. -/
def mutex : Users onePermit where
  id := 1
  count := 1
  count_eq := rfl
  count_pos := Nat.one_pos
  users := [⟨0, 1⟩, ⟨1, 1⟩]
  nodup := nodup_mutexUsers

/-- The second thread comes while the first one is inside. -/
def contended : List Act :=
  [.call ⟨0, 1⟩ (.enterSemaphore 1) (-1), .send ⟨0, 1⟩, .ret ⟨0, 1⟩, .call ⟨1, 1⟩ (.enterSemaphore 1) (-1),
    .send ⟨1, 1⟩, .deliver 1]

theorem contended_guarded : ∃ t, run (step mutex) start contended = some t ∧
    (t.sys.threads ⟨1, 1⟩).phase = .waiting (-1) ∧ t.acquiring ⟨1, 1⟩ = true ∧ inUse mutex t ≤ 1 ∧
    (Still t.sys → inUse mutex t = 1) := by
  have hlast : (run (step mutex) start contended).map (fun t => ((t.sys.threads ⟨1, 1⟩).phase, t.acquiring ⟨1, 1⟩)) =
      some (.waiting (-1), true) := by
    decide +kernel
  obtain ⟨t, ht, hwaiting⟩ := Option.map_eq_some_iff.mp hlast
  obtain ⟨hphase, hacquiring⟩ := Prod.mk.inj hwaiting
  have hok : Along (step mutex) (Uses mutex) start contended := by
    apply along_of_check
    decide +kernel
  obtain ⟨hsafe, hserves⟩ := semaphore_guards mutex
  exact ⟨t, ht, hphase, hacquiring, hsafe contended t hok ht,
    fun hstill => hserves.mpr (Nat.le_refl 2) contended t hok ht hstill ⟨⟨1, 1⟩, -1, hacquiring, hphase⟩⟩

end Dogee.SemaphoreUsers
