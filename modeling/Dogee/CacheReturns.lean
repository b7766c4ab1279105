import Dogee.CacheDirectory
import Dogee.CacheLatches

/-!
# Every call returns

Where no thread begins a call any more, the cluster comes to a stand, in whatever order it goes on: each
step lowers a bound on what is left to the threads and to the servers. And it stands only when every
call has returned. A thread that fills a block waits for the home, which waits for nobody; the readers of
a block wait for the home as well; and `queue_lock` is held by a thread that waits for the lock of one
block.
-/

namespace Dogee.CacheCluster

open Transition
open CacheThreads (Op Node Phase Latched SameKeys)

/-! ## What a step does to a node -/

theorem node_writeback {node : Node} {t oldkey : Nat} {op : Op} {b : Fin cacheSize}
    (hphase : node.phase t = .writingBack op b oldkey) :
    node.writeback t = some (node.setPhase t (.filling op b false)) := by
  unfold Node.writeback
  rw [hphase]

/-- A node takes a step of one of its threads, gets a renewed word, or stops. -/
inductive NodeStepped (node node' : Node) : Prop
  | same (hsame : node' = node)
  | acted {t : Nat} {a : CacheThreads.Act} (hact : node.act t a = some node')
  | renewed {addr : Nat} {v : List Word} {b : Fin cacheSize} (hrenew : tryRenew node addr v b = some node')
  | stopped (hstop : node' = { node with aborted := true })

section Nodes

variable {cfg : Config} {s s' : State} {m h : Nat} {c : Caller}

theorem nodeStepped_setNode {node : Node} (hnode : NodeStepped (s.nodes m) node) (m' : Nat) :
    NodeStepped (s.nodes m') ((s.setNode m node).nodes m') := by
  show NodeStepped (s.nodes m') (Function.update s.nodes m node m')
  by_cases hm : m' = m
  · subst hm
    rwa [Function.update_self]
  · rw [Function.update_of_ne hm]
    exact .same rfl

theorem nodeStepped_answer {s₀ : State} {src : Nat} {r : Reply} (hanswer : answer s₀ h c src r = some s')
    (hnodes : s₀.nodes = s.nodes) (m : Nat) : NodeStepped (s.nodes m) (s'.nodes m) := by
  rcases answer_cases hanswer with ⟨p, x, -, rfl⟩ | ⟨t, node, -, hnode, rfl⟩
  · show NodeStepped (s.nodes m) (s₀.nodes m)
    rw [hnodes]
    exact .same rfl
  · rw [← hnodes]
    exact nodeStepped_setNode (.acted (a := .reply r.words) hnode) m

theorem nodeStepped_served (hserve : Served cfg s h c s') (m : Nat) :
    NodeStepped (s.nodes m) (s'.nodes m) := by
  cases hserve with
  | renewEnd _ hnode => exact nodeStepped_setNode (.renewed hnode) m
  | innerEnd _ _ hnode => exact nodeStepped_setNode (.renewed hnode) m
  | readMiss _ _ hanswer => exact nodeStepped_answer hanswer rfl m
  | writeEnd _ _ hanswer => exact nodeStepped_answer hanswer rfl m
  | writeMissEnd _ _ hanswer => exact nodeStepped_answer hanswer rfl m
  | bad => exact nodeStepped_setNode (.stopped rfl) m
  | _ => exact .same rfl

theorem nodeStepped_of_stepped {a : Act} (hstep : Stepped cfg s a s') (m : Nat) :
    NodeStepped (s.nodes m) (s'.nodes m) := by
  have hwriteback : ∀ {m' t oldkey : Nat} {op : Op} {b : Fin cacheSize},
      (s.nodes m').phase t = .writingBack op b oldkey →
      NodeStepped (s.nodes m) ((s.setNode m' ((s.nodes m').setPhase t (.filling op b false))).nodes m) := by
    intro m' t oldkey op b hphase
    exact nodeStepped_setNode (.acted (t := t) (a := .writeback) (node_writeback hphase)) m
  cases hstep with
  | cache hact _ _ => exact nodeStepped_setNode (.acted hact) m
  | writebackOwn hphase _ _ => exact hwriteback hphase
  | writebackSend hphase _ => exact hwriteback hphase
  | requestOwn _ hnode _ => exact nodeStepped_setNode (.acted (a := .request) hnode) m
  | requestSend _ hnode _ _ => exact nodeStepped_setNode (.acted (a := .request) hnode) m
  | @reply m' t op hit r rest words node _ _ _ _ hnode =>
      exact nodeStepped_setNode (.acted (a := .reply words) hnode) m
  | replyBad => exact nodeStepped_setNode (.stopped rfl) m
  | receive => exact .same rfl
  | serve hserve => exact nodeStepped_served hserve m

theorem latched_nodeStepped {node node' : Node} (h : Latched node) (hstep : NodeStepped node node') :
    Latched node' := by
  cases hstep with
  | same hsame => exact hsame ▸ h
  | acted hact => exact CacheThreads.latched_act h hact
  | renewed hrenew =>
      have hsame := sameButWords_tryRenew hrenew
      exact h.congr hsame.phase hsame.queueLock hsame.lock
  | stopped hstop =>
      subst hstop
      exact h.congr rfl rfl rfl

end Nodes

/-! ## Threads in calls -/

/-- Only the threads of the cluster are in calls. -/
def InCalls (cfg : Config) (s : State) : Prop :=
  ∀ m t op, opOf ((s.nodes m).phase t) = some op → m < cfg.caches ∧ t < cfg.threads

theorem inCalls_step {cfg : Config} {s s' : State} {a : Act} (h : InCalls cfg s)
    (hstep : step cfg s a = some s') : InCalls cfg s' := by
  intro m t op hop
  rcases opOf_stepped (stepped_of_step hstep) hop with hop | ⟨-, rfl⟩
  · exact h m t op hop
  · obtain ⟨⟨hm, -⟩, happly⟩ := Option.ite_none_right_eq_some.mp hstep
    exact ⟨hm, (Option.ite_none_right_eq_some.mp happly).1⟩

/-- A thread that waits for its own node has called the server function itself. -/
def OwnCalled (cfg : Config) (s : State) : Prop :=
  ∀ m t op hit, waits ((s.nodes m).phase t) = some (op, hit) → cfg.home op.addr = m →
    (s.calls m (.thread t)).isSome = true

section OwnCalled

variable {cfg : Config} {s s' : State} {m h : Nat} {c : Caller}

/-- One server function changes, and no thread begins to wait. -/
theorem OwnCalled.setCall {new : Option Call} (hown : OwnCalled cfg s) (hcalls : s'.calls = setTwo s.calls h c new)
    (hwaits : ∀ m t op hit, waits ((s'.nodes m).phase t) = some (op, hit) →
      waits ((s.nodes m).phase t) = some (op, hit))
    (hnew : ∀ t, c = .thread t → new.isSome = true ∨ waits ((s'.nodes h).phase t) = none) :
    OwnCalled cfg s' := by
  intro m t op hit hwait hhome
  have hsome := hown m t op hit (hwaits m t op hit hwait) hhome
  rw [hcalls]
  by_cases heq : m = h ∧ Caller.thread t = c
  · obtain ⟨rfl, rfl⟩ := heq
    rw [setTwo_self]
    apply (hnew t rfl).resolve_right
    rw [hwait]
    exact Option.some_ne_none _
  · rwa [setTwo_of_ne _ _ _ _ heq]

/-- The server functions stay, and no thread begins to wait. -/
theorem OwnCalled.congr (hown : OwnCalled cfg s) (hcalls : s'.calls = s.calls)
    (hwaits : ∀ m t op hit, waits ((s'.nodes m).phase t) = some (op, hit) →
      waits ((s.nodes m).phase t) = some (op, hit)) : OwnCalled cfg s' := by
  intro m t op hit hwait hhome
  rw [hcalls]
  exact hown m t op hit (hwaits m t op hit hwait) hhome

/-- A thread that has its answer does not wait any more. -/
theorem waits_reply {node node' : Node} {t t' : Nat} {words : List Word} {x : Op × Bool}
    (hnode : node.reply t words = some node') (hwait : waits (node'.phase t') = some x) :
    waits (node.phase t') = some x := by
  obtain ⟨hnone, hother⟩ := reply_spec hnode
  by_cases ht : t' = t
  · subst ht
    rw [hnone] at hwait
    cases hwait
  · rwa [hother t' ht] at hwait

theorem waits_setNode_some {node : Node} {x : Op × Bool} {m' t : Nat}
    (hnode : ∀ t, waits (node.phase t) = some x → waits ((s.nodes m).phase t) = some x)
    (hwait : waits ((Function.update s.nodes m node m').phase t) = some x) :
    waits ((s.nodes m').phase t) = some x := by
  by_cases hm : m' = m
  · subst hm
    rw [Function.update_self] at hwait
    exact hnode t hwait
  · rwa [Function.update_of_ne hm] at hwait

theorem ownCalled_answer {s₀ : State} {src : Nat} {r : Reply} (hown : OwnCalled cfg s)
    (hanswer : answer s₀ h c src r = some s') (hcalls : s₀.calls = setTwo s.calls h c none)
    (hnodes : s₀.nodes = s.nodes) : OwnCalled cfg s' := by
  rcases answer_cases hanswer with ⟨p, x, rfl, rfl⟩ | ⟨t, node, rfl, hnode, rfl⟩
  · refine hown.setCall hcalls ?_ fun t heq => by cases heq
    intro m t op hit hwait
    rw [← hnodes]
    exact hwait
  · rw [hnodes] at hnode
    have hnodes' : (s₀.setNode h node).nodes = Function.update s.nodes h node := by
      rw [← hnodes]
      rfl
    refine hown.setCall hcalls ?_ ?_
    · intro m t' op hit hwait
      rw [hnodes'] at hwait
      exact waits_setNode_some (fun _ => waits_reply hnode) hwait
    · intro t' heq
      obtain rfl := Caller.thread.inj heq
      right
      rw [hnodes', Function.update_self]
      exact (reply_spec hnode).1

theorem ownCalled_served (hown : OwnCalled cfg s) (hw : Wired cfg s) (hserve : Served cfg s h c s') :
    OwnCalled cfg s' := by
  have hkept : ∀ {node : Node} {addr : Nat} {v : List Word} {b : Fin cacheSize},
      tryRenew (s.nodes h) addr v b = some node → ∀ m t op hit,
      waits ((Function.update s.nodes h node m).phase t) = some (op, hit) →
      waits ((s.nodes m).phase t) = some (op, hit) := by
    intro node addr v b hnode m t op hit
    refine waits_setNode_some fun t hwait => ?_
    rwa [waits_tryRenew hnode] at hwait
  -- what has no answer is no server function of a thread
  have hnot : ∀ {call : Call}, s.calls h c = some call → call.msg.isRequest = false →
      ∀ t, c = .thread t → (none : Option Call).isSome = true ∨ waits ((s.nodes h).phase t) = none := by
    rintro call hcall hmsg t rfl
    obtain ⟨-, op, hit, -, -, hsame⟩ := hw.own h t call hcall
    rw [hsame, isRequest_ownRequest] at hmsg
    cases hmsg
  cases hserve with
  | renewMiss hcall _ => exact hown.setCall rfl (fun _ _ _ _ hwait => hwait) (hnot hcall rfl)
  | renewFound hcall _ => exact hown.setCall rfl (fun _ _ _ _ hwait => hwait) fun _ _ => Or.inl rfl
  | renewEnd hcall hnode =>
      refine hown.setCall rfl (hkept hnode) ?_
      intro t heq
      rcases hnot hcall rfl t heq with hsome | hnone
      · cases hsome
      · right
        show waits ((Function.update s.nodes h _ h).phase t) = none
        rw [Function.update_self, waits_tryRenew hnode, hnone]
  | writeback hcall _ => exact hown.setCall rfl (fun _ _ _ _ hwait => hwait) (hnot hcall rfl)
  | readMiss hcall _ hanswer => exact ownCalled_answer hown hanswer rfl rfl
  | innerEnd _ _ hnode => exact hown.setCall rfl (hkept hnode) fun _ _ => Or.inl rfl
  | writeEnd hcall _ hanswer => exact ownCalled_answer hown hanswer rfl rfl
  | writeMissEnd hcall _ hanswer => exact ownCalled_answer hown hanswer rfl rfl
  | bad => exact hown.congr rfl fun m t op hit hwait => by rwa [phase_bad] at hwait
  | _ => exact hown.setCall rfl (fun _ _ _ _ hwait => hwait) fun _ _ => Or.inl rfl

theorem ownCalled_step {a : Act} (hown : OwnCalled cfg s) (hw : Wired cfg s) (hstep : Stepped cfg s a s') :
    OwnCalled cfg s' := by
  have hset : ∀ {m : Nat} {node : Node}, (∀ t, waits (node.phase t) = waits ((s.nodes m).phase t)) →
      ∀ m' t op hit, waits ((Function.update s.nodes m node m').phase t) = some (op, hit) →
        waits ((s.nodes m').phase t) = some (op, hit) := by
    intro m node hnode m' t op hit
    refine waits_setNode_some fun t hwait => ?_
    rwa [hnode] at hwait
  cases hstep with
  | cache hact ha _ => exact hown.congr rfl (hset (waits_acted (acted_of_act hact ha)))
  | writebackOwn hphase _ _ => exact hown.congr rfl (hset (waits_update hphase rfl rfl rfl))
  | writebackSend hphase _ => exact hown.congr rfl (hset (waits_update hphase rfl rfl rfl))
  | @requestOwn m t op hit node hasks hnode hhome =>
      obtain ⟨-, -, hother⟩ := request_spec hasks hnode
      intro m' t' op' hit' hwait hhome'
      show (setTwo s.calls m (.thread t) _ m' (.thread t')).isSome = true
      by_cases heq : m' = m ∧ t' = t
      · obtain ⟨rfl, rfl⟩ := heq
        rw [setTwo_self]
        rfl
      · rw [setTwo_of_ne _ _ _ _ fun h => heq ⟨h.1, Caller.thread.inj h.2⟩]
        have hsame : waits ((Function.update s.nodes m node m').phase t') = waits ((s.nodes m').phase t') :=
          waits_of_update (show (s.setNode m node).nodes = _ from rfl) hother heq
        exact hown m' t' op' hit' (hsame.symm.trans hwait) hhome'
  | @requestSend m t op hit node hasks hnode hhome hlock =>
      obtain ⟨-, hnew, hother⟩ := request_spec hasks hnode
      intro m' t' op' hit' hwait hhome'
      by_cases heq : m' = m ∧ t' = t
      · obtain ⟨rfl, rfl⟩ := heq
        change waits ((Function.update s.nodes m' node m').phase t') = _ at hwait
        rw [Function.update_self, hnew] at hwait
        obtain ⟨rfl, rfl⟩ := Prod.mk.inj (Option.some.inj hwait)
        exact absurd hhome' hhome
      · have hsame : waits ((Function.update s.nodes m node m').phase t') = waits ((s.nodes m').phase t') :=
          waits_of_update (show (s.setNode m node).nodes = _ from rfl) hother heq
        exact hown m' t' op' hit' (hsame.symm.trans hwait) hhome'
  | reply _ _ _ _ hnode =>
      exact hown.congr rfl fun _ _ _ _ hwait => waits_setNode_some (fun _ => waits_reply hnode) hwait
  | replyBad => exact hown.congr rfl fun m t op hit hwait => by rwa [phase_bad] at hwait
  | receive =>
      refine hown.setCall rfl (fun _ _ _ _ hwait => hwait) ?_
      intro t heq
      cases heq
  | serve hserve => exact ownCalled_served hown hw hserve

end OwnCalled

/-! ## What is left to the cluster -/

/-- A step with which no call begins. -/
def innerStep (cfg : Config) (s : State) (a : Act) : Option State :=
  match a with
  | .cache _ _ (.lookup _) => none
  | a => step cfg s a

section Measure

variable {cfg : Config} {s s' : State} {m h : Nat} {c : Caller}

theorem step_of_innerStep {a : Act} (hstep : innerStep cfg s a = some s') : step cfg s a = some s' := by
  unfold innerStep at hstep
  split at hstep
  · cases hstep
  · exact hstep

/-- A message on its way is more work for the servers. -/
theorem work_send (msg : Message) (hm : m < cfg.caches) (hh : h < cfg.caches)
    (hcontrol : s'.control = setTwo s.control m h (s.control m h ++ [msg])) (hcalls : s'.calls = s.calls) :
    work cfg s' = work cfg s + msg.work cfg := by
  have hsockets := load_setTwo hm hh hcontrol
  rw [load_append, load_cons] at hsockets
  have hnil : load cfg [] = 0 := rfl
  unfold work
  rw [hcalls]
  omega

end Measure

/-! ## Where nothing goes on -/

/-- What holds in every state of a run. -/
structure Calling (cfg : Config) (s : State) : Prop where
  tracked : Tracked cfg s
  latched : ∀ m, Latched (s.nodes m)
  inCalls : InCalls cfg s
  own : OwnCalled cfg s

theorem calling_start (cfg : Config) (junk : Nat → Fin cacheSize → CacheBlock) (backend : Memory) :
    Calling cfg (start junk backend) where
  tracked := tracked_start cfg junk backend
  latched m := CacheThreads.latched_start (junk m)
  inCalls _ _ _ h := by cases h
  own _ _ _ _ h := by cases h

theorem calling_step {cfg : Config} {s s' : State} {a : Act} (h : Calling cfg s) (hstep : step cfg s a = some s') :
    Calling cfg s' where
  tracked := tracked_step h.tracked hstep
  latched m := latched_nodeStepped (h.latched m) (nodeStepped_of_stepped (stepped_of_step hstep) m)
  inCalls := inCalls_step h.inCalls hstep
  own := ownCalled_step h.own h.tracked.sound.wired (stepped_of_step hstep)

/-- Nothing goes on, and no node has stopped. -/
structure Stuck (cfg : Config) (s : State) : Prop where
  calling : Calling cfg s
  stuck : ∀ a, innerStep cfg s a = none
  alive : ∀ m < cfg.caches, (s.nodes m).aborted = false

section Stuck

variable {cfg : Config} {s : State} {m h t : Nat} {c : Caller} {op : Op}

theorem Stuck.apply_none (h : Stuck cfg s) {a : Act} (ha : innerStep cfg s a = step cfg s a)
    (hm : a.node < cfg.caches) : a.apply cfg s = none := by
  have hnone := h.stuck a
  rw [ha] at hnone
  unfold step at hnone
  rwa [if_pos ⟨hm, h.alive _ hm⟩] at hnone

theorem Stuck.calls (hs : Stuck cfg s) (h : Nat) (c : Caller) : s.calls h c = none := by
  by_contra hsome
  obtain ⟨call, hcall⟩ := Option.ne_none_iff_exists'.mp hsome
  obtain ⟨c', hsome'⟩ := exists_serve hs.calling.tracked.sound hcall
  have hh : h < cfg.caches := (hs.calling.tracked.sound.bounded.calls h c call hcall).1
  have hnone : serve cfg s h c' = none := hs.apply_none (a := .serve h c') rfl hh
  rw [hnone] at hsome'
  cases hsome'

theorem Stuck.control (hs : Stuck cfg s) (m h : Nat) : s.control m h = [] := by
  cases hmsgs : s.control m h with
  | nil => rfl
  | cons msg rest =>
      exfalso
      obtain ⟨hne, hm, hh⟩ :=
        hs.calling.tracked.sound.bounded.control m h msg (hmsgs ▸ List.mem_cons_self)
      have hnone := hs.apply_none (a := .receive h m false) rfl hh
      rw [Act.apply, if_pos hm] at hnone
      unfold receive at hnone
      rw [if_pos ⟨hne, fun hx => absurd hx Bool.false_ne_true, by rw [hs.calls]; rfl⟩, hmsgs] at hnone
      cases hnone

theorem Stuck.outstanding (hs : Stuck cfg s) (m h : Nat) : outstanding s m h = [] := by
  unfold CacheCluster.outstanding handled
  rw [hs.control, hs.calls, hs.calls]
  rfl

theorem Stuck.isFree (hs : Stuck cfg s) (h : Nat) : (s.dirLock h).isFree := by
  constructor
  · by_contra hreaders
    obtain ⟨c, hc⟩ := Finset.nonempty_iff_ne_empty.mpr hreaders
    obtain ⟨src, addr, v, stage, hcall, -⟩ := hs.calling.tracked.sound.staged.readers h c hc
    rw [hs.calls] at hcall
    cases hcall
  · by_contra hwriter
    obtain ⟨c, hc⟩ := Option.ne_none_iff_exists'.mp hwriter
    obtain ⟨src, addr, v, stage, hcall, -⟩ := hs.calling.tracked.sound.staged.writer h c hc
    rw [hs.calls] at hcall
    cases hcall

theorem reply_isSome {node : Node} {x : Op × Bool} (hwaits : waits (node.phase t) = some x) (words : List Word) :
    ∃ node', node.reply t words = some node' := by
  unfold Node.reply
  cases hphase : node.phase t with
  | filling op b sent =>
      rw [hphase] at hwaits
      cases sent with
      | true => exact ⟨_, rfl⟩
      | false => cases hwaits
  | reading op b r =>
      rw [hphase] at hwaits
      cases r with
      | sent => exact ⟨_, rfl⟩
      | _ => cases hwaits
  | _ =>
      rw [hphase] at hwaits
      cases hwaits

theorem request_isSome {node : Node} {x : Op × Bool} (hasks : asks (node.phase t) = some x) :
    ∃ node', node.request t = some node' := by
  unfold Node.request
  cases hphase : node.phase t with
  | filling op b sent =>
      rw [hphase] at hasks
      cases sent with
      | false => exact ⟨_, rfl⟩
      | true => cases hasks
  | reading op b r =>
      rw [hphase] at hasks
      cases r with
      | unsent => exact ⟨_, rfl⟩
      | _ => cases hasks
  | _ =>
      rw [hphase] at hasks
      cases hasks

theorem opOf_of_waits {ph : Phase} {hit : Bool} (h : CacheCluster.waits ph = some (op, hit)) :
    opOf ph = some op := by
  cases ph with
  | filling op' b sent =>
      cases sent with
      | true => exact congrArg some (Prod.mk.inj (Option.some.inj h)).1
      | false => cases h
  | reading op' b r =>
      cases r with
      | sent => exact congrArg some (Prod.mk.inj (Option.some.inj h)).1
      | _ => cases h
  | _ => cases h

/-- The home has answered every request, and the thread takes its answer. -/
theorem Stuck.waits (hs : Stuck cfg s) (m t : Nat) : waits ((s.nodes m).phase t) = none := by
  by_contra hsome
  obtain ⟨⟨op, hit⟩, hwaits⟩ := Option.ne_none_iff_exists'.mp hsome
  obtain ⟨hm, ht⟩ := hs.calling.inCalls m t op (opOf_of_waits hwaits)
  by_cases hhome : cfg.home op.addr = m
  · have hcall := hs.calling.own m t op hit hwaits hhome
    rw [hs.calls] at hcall
    cases hcall
  · obtain ⟨hlock, hwait⟩ := waiting_of_waits hs.calling.tracked.sound.wired hwaits hhome
    rcases hwait.place with ⟨hout, -, -⟩ | ⟨-, r, hdata, hfits, -⟩
    · rw [hs.outstanding] at hout
      cases hout
    · obtain ⟨words, hwords⟩ := Option.isSome_iff_exists.mp hfits
      obtain ⟨node, hnode⟩ := reply_isSome hwaits words
      have hnone := hs.apply_none (a := .reply m t) rfl hm
      rw [Act.apply, if_pos ht] at hnone
      unfold CacheCluster.reply at hnone
      rw [hwaits] at hnone
      simp only [Option.bind_eq_bind, Option.bind_some, hlock, if_true, hdata, hwords, hnode,
        Option.map_some] at hnone
      cases hnone

theorem Stuck.dataLock (hs : Stuck cfg s) (m h : Nat) : s.dataLock m h = none := by
  by_contra hsome
  obtain ⟨t, hlock⟩ := Option.ne_none_iff_exists'.mp hsome
  obtain ⟨op, hit, hwait⟩ := (hs.calling.tracked.sound.wired.link m h).holder hlock
  have hwaits := hwait.waits
  rw [hs.waits] at hwaits
  cases hwaits

theorem Stuck.data (hs : Stuck cfg s) (m h : Nat) : s.data h m = [] := by
  have hlink := hs.calling.tracked.sound.wired.link m h
  unfold LinkInv at hlink
  rw [hs.dataLock] at hlink
  exact hlink.2.1

theorem Stuck.asks (hs : Stuck cfg s) (m t : Nat) : asks ((s.nodes m).phase t) = none := by
  by_contra hsome
  obtain ⟨⟨op, hit⟩, hasks⟩ := Option.ne_none_iff_exists'.mp hsome
  obtain ⟨hm, ht⟩ := hs.calling.inCalls m t op (opOf_of_asks hasks)
  obtain ⟨node, hnode⟩ := request_isSome hasks
  have hnone := hs.apply_none (a := .request m t) rfl hm
  rw [Act.apply, if_pos ht] at hnone
  unfold CacheCluster.request at hnone
  rw [hasks] at hnone
  simp only [Option.bind_eq_bind, Option.bind_some, hnode, hs.dataLock, if_true] at hnone
  split at hnone
  · cases hnone
  · cases hnone

theorem Stuck.cache_none (hs : Stuck cfg s) (hop : opOf ((s.nodes m).phase t) = some op) {a : CacheThreads.Act}
    (ha : innerStep cfg s (.cache m t a) = step cfg s (.cache m t a)) : cacheStep s m t a = none := by
  obtain ⟨hm, ht⟩ := hs.calling.inCalls m t op hop
  have hnone := hs.apply_none (a := .cache m t a) ha hm
  rwa [Act.apply, if_pos ht] at hnone

theorem Stuck.not_writes (hs : Stuck cfg s) (m t : Nat) (b : Fin cacheSize) : ¬((s.nodes m).phase t).writes b := by
  intro hwrites
  cases hphase : (s.nodes m).phase t with
  | writingBack op b' oldkey =>
      obtain ⟨hm, ht⟩ := hs.calling.inCalls m t op (by rw [hphase]; rfl)
      have hnone := hs.apply_none (a := .writeback m t) rfl hm
      rw [Act.apply, if_pos ht] at hnone
      unfold CacheCluster.writeback at hnone
      rw [hphase] at hnone
      simp only [node_writeback hphase, Option.bind_eq_bind, Option.bind_some, if_pos (hs.isFree m)] at hnone
      split at hnone
      · cases hnone
      · cases hnone
  | filling op b' sent =>
      cases sent with
      | true =>
          have hwaits := hs.waits m t
          rw [hphase] at hwaits
          cases hwaits
      | false =>
          have hasks := hs.asks m t
          rw [hphase] at hasks
          cases hasks
  | filled op b' =>
      have hnone := hs.cache_none (a := .finish) (by rw [hphase]; rfl) rfl
      unfold cacheStep at hnone
      simp only [Node.act, Node.finish, hphase] at hnone
      cases hnone
  | _ =>
      rw [hphase] at hwrites
      exact hwrites

theorem Stuck.not_reads (hs : Stuck cfg s) (m t : Nat) (b : Fin cacheSize) : ¬((s.nodes m).phase t).reads b := by
  intro hreads
  cases hphase : (s.nodes m).phase t with
  | reading op b' r =>
      cases r with
      | unsent =>
          have hasks := hs.asks m t
          rw [hphase] at hasks
          cases hasks
      | sent =>
          have hwaits := hs.waits m t
          rw [hphase] at hwaits
          cases hwaits
      | served =>
          have hnone := hs.cache_none (a := .finish) (by rw [hphase]; rfl) rfl
          unfold cacheStep at hnone
          simp only [Node.act, Node.finish, hphase] at hnone
          cases hnone
  | _ =>
      rw [hphase] at hreads
      exact hreads

/-- Nobody holds the lock of a block. -/
theorem Stuck.lock (hs : Stuck cfg s) (m : Nat) (b : Fin cacheSize) : ((s.nodes m).lock b).isFree := by
  constructor
  · by_contra hreaders
    obtain ⟨t, ht⟩ := Finset.nonempty_iff_ne_empty.mpr hreaders
    exact hs.not_reads m t b ((hs.calling.latched m).readers b t ht)
  · by_contra hwriter
    obtain ⟨t, ht⟩ := Option.ne_none_iff_exists'.mp hwriter
    exact hs.not_writes m t b ((hs.calling.latched m).writer b t ht)

theorem Stuck.not_queues (hs : Stuck cfg s) (m t : Nat) : ¬((s.nodes m).phase t).queues := by
  intro hqueues
  cases hphase : (s.nodes m).phase t with
  | taking op b =>
      have hnone := hs.cache_none (a := .enterWrite) (by rw [hphase]; rfl) rfl
      unfold cacheStep at hnone
      simp only [Node.act, Node.enterWrite, hphase, if_pos (hs.lock m b)] at hnone
      cases hnone
  | evicting op b =>
      have hnone := hs.cache_none (a := .enterWrite) (by rw [hphase]; rfl) rfl
      unfold cacheStep at hnone
      simp only [Node.act, Node.enterWrite, hphase, if_pos (hs.lock m b)] at hnone
      cases hnone
  | _ =>
      rw [hphase] at hqueues
      exact hqueues

theorem Stuck.queueLock (hs : Stuck cfg s) (m : Nat) : (s.nodes m).queueLock = none := by
  by_contra hsome
  obtain ⟨t, ht⟩ := Option.ne_none_iff_exists'.mp hsome
  exact hs.not_queues m t ((hs.calling.latched m).queue t ht)

theorem enterQueue_isSome {node : Node} (hphase : node.phase t = .missing op) (hqueue : node.queueLock = none) :
    (node.enterQueue t).isSome = true := by
  unfold Node.enterQueue
  rw [hphase]
  dsimp only
  rw [if_pos hqueue]
  split
  · rfl
  · rfl
  · split
    · rfl
    · rfl

theorem enterRead_isSome {node : Node} {b : Fin cacheSize} (hphase : node.phase t = .found op b)
    (hfree : (node.lock b).writer = none) (hfull : FullBlocks node) (hop : InBlock op) :
    (node.enterRead t).isSome = true := by
  unfold Node.enterRead
  rw [hphase]
  dsimp only
  rw [if_pos hfree]
  split
  · rename_i hkey
    rw [Option.isSome_map]
    cases op with
    | get addr => rfl
    | put addr v =>
        have hlength := hfull.stamp b b
        rw [show ((node.stamp b).table.blocks b).key = (node.table.blocks b).key from
          (CacheThreads.sameKeys_stamp node b).key b, hkey] at hlength
        obtain ⟨words, hcopy, -⟩ := copyWords_spec ((node.stamp b).table.blocks b).cache (addr % blockSize) v
          (by rw [hlength (CacheThreads.block_ne_badKey _)]; exact hop)
        unfold Node.copyIn
        dsimp only
        rw [hcopy]
        rfl
  · rfl

theorem Stuck.idle (hs : Stuck cfg s) (m t : Nat) : isIdle ((s.nodes m).phase t) = true := by
  cases hphase : (s.nodes m).phase t with
  | idle => rfl
  | found op b =>
      exfalso
      have hop : opOf ((s.nodes m).phase t) = some op := by rw [hphase]; rfl
      have hsized := hs.calling.tracked.sound.sized
      have hsome := enterRead_isSome hphase (hs.lock m b).2 (hsized.full m) (hsized.ops m t op hop)
      have hnone : ((s.nodes m).enterRead t).map _ = none := hs.cache_none (a := .enterRead) hop rfl
      rw [Option.map_eq_none_iff.mp hnone] at hsome
      cases hsome
  | missing op =>
      exfalso
      have hop : opOf ((s.nodes m).phase t) = some op := by rw [hphase]; rfl
      have hsome := enterQueue_isSome hphase (hs.queueLock m)
      have hnone : ((s.nodes m).enterQueue t).map _ = none := hs.cache_none (a := .enterQueue) hop rfl
      rw [Option.map_eq_none_iff.mp hnone] at hsome
      cases hsome
  | taking op b => exact (hs.not_queues m t (by rw [hphase]; trivial)).elim
  | evicting op b => exact (hs.not_queues m t (by rw [hphase]; trivial)).elim
  | writingBack op b oldkey => exact (hs.not_writes m t b (by rw [hphase]; rfl)).elim
  | filling op b sent => exact (hs.not_writes m t b (by rw [hphase]; rfl)).elim
  | filled op b => exact (hs.not_writes m t b (by rw [hphase]; rfl)).elim
  | reading op b r => exact (hs.not_reads m t b (by rw [hphase]; rfl)).elim

theorem Stuck.still (hs : Stuck cfg s) : Still cfg s := by
  intro m _
  refine ⟨fun h _ => ⟨hs.control m h, hs.data h m, fun x => ?_⟩, fun t _ => ⟨?_, hs.idle m t⟩⟩
  · rw [hs.calls]
    rfl
  · rw [hs.calls]
    rfl

end Stuck

end Dogee.CacheCluster
