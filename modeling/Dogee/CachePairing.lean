import Dogee.CacheLinks

/-!
# Where messages come from, and bad addresses

A message in a socket was sent by a step, and a server function was started by one. So a writeback is
at the home of its block and a request at the home of its address, and the branches for a bad address
are not taken, at either end.
-/

namespace Dogee.CacheCluster

open Transition
open CacheThreads (Op Node Phase)

/-! ## Where messages come from -/

/-- The messages that a node may send. -/
inductive Sends (cfg : Config) (s : State) (m h : Nat) : Message → Prop
  | writeback {t oldkey : Nat} {op : Op} {b : Fin cacheSize}
      (hphase : (s.nodes m).phase t = .writingBack op b oldkey) (hhome : cfg.home oldkey = h) :
      Sends cfg s m h (.writeback oldkey)
  | request {t : Nat} {op : Op} {hit : Bool} (hasks : asks ((s.nodes m).phase t) = some (op, hit))
      (hhome : cfg.home op.addr = h) : Sends cfg s m h (requestOf op hit)
  | renew {c : Caller} {call : Call} {addr : Nat} {v : List Word} (hcall : s.calls m c = some call)
      (hmsg : call.msg.stores = some (addr, v)) (hlt : h < cfg.caches) : Sends cfg s m h (.renew addr v)

/-- The server functions that a step may start or go on with. -/
inductive Runs (s : State) (h : Nat) (c : Caller) (src : Nat) (msg : Message) : Prop
  | old {stage : Stage} (hcall : s.calls h c = some ⟨src, msg, stage⟩) : Runs s h c src msg
  | received {x : Bool} (hc : c = .handler src x) (hmem : msg ∈ s.control src h) : Runs s h c src msg
  | own {t : Nat} {op : Op} {hit : Bool} (hc : c = .thread t) (hsrc : src = h)
      (hasks : asks ((s.nodes h).phase t) = some (op, hit)) (hmsg : msg = ownRequest op hit) :
      Runs s h c src msg

section Origin

variable {cfg : Config} {s s' : State} {m h : Nat} {c : Caller} {call : Call}

theorem mem_send {msg msg' : Message} {src dst : Nat}
    (hmem : msg ∈ setTwo s.control src dst (s.control src dst ++ [msg']) m h) :
    msg ∈ s.control m h ∨ (m = src ∧ h = dst ∧ msg = msg') := by
  by_cases heq : m = src ∧ h = dst
  · obtain ⟨rfl, rfl⟩ := heq
    rw [setTwo_self] at hmem
    rcases List.mem_append.mp hmem with hmem | hmem
    · exact Or.inl hmem
    · exact Or.inr ⟨rfl, rfl, List.mem_singleton.mp hmem⟩
  · rw [setTwo_of_ne _ _ _ _ heq] at hmem
    exact Or.inl hmem

theorem control_answer {src : Nat} {r : Reply} (hanswer : answer s h c src r = some s') :
    s'.control = s.control ∧ s'.calls = s.calls := by
  rcases answer_cases hanswer with ⟨p, x, -, rfl⟩ | ⟨t, node, -, -, rfl⟩
  · exact ⟨rfl, rfl⟩
  · exact ⟨rfl, rfl⟩

theorem sends_of_served {msg : Message} {m' h' : Nat} (hserve : Served cfg s h c s')
    (hmem : msg ∈ s'.control m' h') : msg ∈ s.control m' h' ∨ Sends cfg s m' h' msg := by
  cases hserve with
  | loopSend hcall hmsg hi _ _ =>
      rcases mem_send hmem with hmem | ⟨rfl, rfl, rfl⟩
      · exact Or.inl hmem
      · exact Or.inr (.renew hcall hmsg hi)
  | readMiss _ _ hanswer =>
      rw [(control_answer hanswer).1] at hmem
      exact Or.inl hmem
  | writeEnd _ _ hanswer =>
      rw [(control_answer hanswer).1] at hmem
      exact Or.inl hmem
  | writeMissEnd _ _ hanswer =>
      rw [(control_answer hanswer).1] at hmem
      exact Or.inl hmem
  | _ => exact Or.inl hmem

theorem sends_of_stepped {a : Act} {msg : Message} {m' h' : Nat} (hstep : Stepped cfg s a s')
    (hmem : msg ∈ s'.control m' h') : msg ∈ s.control m' h' ∨ Sends cfg s m' h' msg := by
  cases hstep with
  | writebackSend hphase _ =>
      rcases mem_send hmem with hmem | ⟨rfl, rfl, rfl⟩
      · exact Or.inl hmem
      · exact Or.inr (.writeback hphase rfl)
  | requestSend hasks _ _ _ =>
      rcases mem_send hmem with hmem | ⟨rfl, rfl, rfl⟩
      · exact Or.inl hmem
      · exact Or.inr (.request hasks rfl)
  | @receive h peer second msg' rest _ _ hcontrol =>
      change msg ∈ setTwo s.control peer h rest m' h' at hmem
      by_cases heq : m' = peer ∧ h' = h
      · obtain ⟨rfl, rfl⟩ := heq
        rw [setTwo_self] at hmem
        rw [hcontrol]
        exact Or.inl (List.mem_cons_of_mem _ hmem)
      · rw [setTwo_of_ne _ _ _ _ heq] at hmem
        exact Or.inl hmem
  | serve hserve => exact sends_of_served hserve hmem
  | _ => exact Or.inl hmem

/-- After a change at one place the other server functions are the old ones. -/
theorem runs_of_setTwo {call' : Option Call} {h' : Nat} {c' : Caller}
    (hnew : ∀ call, call' = some call → Runs s h c call.src call.msg)
    (hcall : setTwo s.calls h c call' h' c' = some call) : Runs s h' c' call.src call.msg := by
  by_cases heq : h' = h ∧ c' = c
  · obtain ⟨rfl, rfl⟩ := heq
    rw [setTwo_self] at hcall
    exact hnew call hcall
  · rw [setTwo_of_ne _ _ _ _ heq] at hcall
    exact .old hcall

theorem runs_of_stage {src : Nat} {msg : Message} {stage stage' : Stage} {h' : Nat} {c' : Caller}
    (hcall : s.calls h c = some ⟨src, msg, stage⟩)
    (hcall' : setTwo s.calls h c (some ⟨src, msg, stage'⟩) h' c' = some call) :
    Runs s h' c' call.src call.msg := by
  refine runs_of_setTwo ?_ hcall'
  intro new hnew
  obtain rfl := Option.some.inj hnew
  exact .old hcall

theorem runs_of_end {h' : Nat} {c' : Caller} (hcall : setTwo s.calls h c none h' c' = some call) :
    Runs s h' c' call.src call.msg :=
  runs_of_setTwo (fun _ hnone => by cases hnone) hcall

theorem runs_of_served {h' : Nat} {c' : Caller} (hserve : Served cfg s h c s')
    (hcall' : s'.calls h' c' = some call) : Runs s h' c' call.src call.msg := by
  cases hserve with
  | renewMiss _ _ => exact runs_of_end hcall'
  | renewFound hcall _ => exact runs_of_stage hcall hcall'
  | renewEnd _ _ => exact runs_of_end hcall'
  | writeback _ _ => exact runs_of_end hcall'
  | readMiss _ _ hanswer =>
      rw [(control_answer hanswer).2] at hcall'
      exact runs_of_end hcall'
  | store hcall _ => exact runs_of_stage hcall hcall'
  | writeSection hcall _ => exact runs_of_stage hcall hcall'
  | writeMissSection hcall _ => exact runs_of_stage hcall hcall'
  | loopSkip hcall _ _ _ => exact runs_of_stage hcall hcall'
  | loopOwn hcall _ _ _ => exact runs_of_stage hcall hcall'
  | loopSend hcall _ _ _ _ => exact runs_of_stage hcall hcall'
  | innerEnd hcall _ _ => exact runs_of_stage hcall hcall'
  | writeEnd _ _ hanswer =>
      rw [(control_answer hanswer).2] at hcall'
      exact runs_of_end hcall'
  | writeMissEnd _ _ hanswer =>
      rw [(control_answer hanswer).2] at hcall'
      exact runs_of_end hcall'
  | bad => exact .old hcall'

theorem runs_of_stepped {a : Act} {h' : Nat} {c' : Caller} (hstep : Stepped cfg s a s')
    (hcall' : s'.calls h' c' = some call) : Runs s h' c' call.src call.msg := by
  cases hstep with
  | requestOwn hasks _ _ =>
      refine runs_of_setTwo ?_ hcall'
      intro new hnew
      obtain rfl := Option.some.inj hnew
      exact .own rfl rfl hasks rfl
  | receive _ _ hcontrol =>
      refine runs_of_setTwo ?_ hcall'
      intro new hnew
      obtain rfl := Option.some.inj hnew
      refine .received rfl ?_
      rw [hcontrol]
      exact List.mem_cons_self
  | serve hserve => exact runs_of_served hserve hcall'
  | _ => exact .old hcall'

end Origin

/-! ## Bad addresses -/

theorem home_blockBase (cfg : Config) (addr : Nat) : cfg.home (blockBase addr) = cfg.home addr := by
  unfold Config.home blockBase
  rw [Nat.mul_div_cancel _ (by decide)]

/-- Writebacks go to the home of their block, and no bad address has been seen. -/
structure Addressed (cfg : Config) (s : State) : Prop where
  control : ∀ m h addr, Message.writeback addr ∈ s.control m h → cfg.home addr = h
  calls : ∀ h c call addr, s.calls h c = some call → call.msg = .writeback addr → cfg.home addr = h
  good : s.badAddress = false

theorem addressed_start (cfg : Config) (junk : Nat → Fin cacheSize → CacheBlock) (backend : Memory) :
    Addressed cfg (start junk backend) where
  control _ _ _ h := by cases h
  calls _ _ _ _ h := by cases h
  good := rfl

section Address

variable {cfg : Config} {s s' : State} {m h : Nat} {c : Caller}

theorem not_misses_of_waits {op : Op} {hit : Bool} {msg : Message} {src : Nat}
    (hhome : cfg.home op.addr = h) (hmsg : msg = requestOf op hit ∨ msg = ownRequest op hit) :
    ¬msg.misses cfg h src := by
  have hblock : cfg.home (blockBase op.addr) = h := (home_blockBase cfg op.addr).trans hhome
  cases op with
  | get addr =>
      obtain rfl : msg = .readMiss (blockBase addr) := hmsg.elim id id
      exact fun hc => hc.2 hblock
  | put addr v =>
      cases hit with
      | true =>
          obtain rfl : msg = .write addr v := hmsg.elim id id
          exact fun hc => hc.2 hhome
      | false =>
          rcases hmsg with rfl | rfl
          · exact fun hc => hc.2 hhome
          · exact fun hc => hc.2 hhome

/-- A server function is at the home of its address. -/
theorem not_misses {call : Call} (hw : Wired cfg s) (ha : Addressed cfg s)
    (hcall : s.calls h c = some call) : ¬call.msg.misses cfg h call.src := by
  by_cases hreq : call.msg.isRequest = true
  · obtain ⟨t, op, hit, -, hhome, hmsg⟩ := hw.call_waits hcall hreq
    exact not_misses_of_waits hhome hmsg
  · cases hmsg : call.msg with
    | writeback addr => exact fun hc => hc (ha.calls h c call addr hcall hmsg)
    | renew addr v => exact fun hc => hc
    | _ =>
        rw [hmsg] at hreq
        exact absurd rfl hreq

theorem badAddress_answer {src : Nat} {r : Reply} (hanswer : answer s h c src r = some s') :
    s'.badAddress = s.badAddress := by
  rcases answer_cases hanswer with ⟨p, x, -, rfl⟩ | ⟨t, node, -, -, rfl⟩
  · rfl
  · rfl

/-- No step comes to a breakpoint. -/
theorem badAddress_stepped {a : Act} (hw : Wired cfg s) (ha : Addressed cfg s)
    (hstep : Stepped cfg s a s') : s'.badAddress = s.badAddress := by
  cases hstep with
  | serve hserve =>
      cases hserve with
      | readMiss _ _ hanswer => exact (badAddress_answer hanswer).trans rfl
      | writeEnd _ _ hanswer => exact (badAddress_answer hanswer).trans rfl
      | writeMissEnd _ _ hanswer => exact (badAddress_answer hanswer).trans rfl
      | bad hcall hmiss => exact absurd hmiss (not_misses hw ha hcall)
      | _ => rfl
  | @replyBad m t op hit r rest hwaits hlock hdata hfits =>
      obtain ⟨op', hit', hwait⟩ := (hw.link m (cfg.home op.addr)).holder hlock
      have hsame := hwait.waits
      rw [hwaits] at hsame
      obtain ⟨rfl, rfl⟩ := Prod.mk.inj (Option.some.inj hsame)
      rcases hwait.place with ⟨-, hnil, -⟩ | ⟨-, r', hone, hfits', -⟩
      · rw [hdata] at hnil
        cases hnil
      · rw [hdata] at hone
        obtain ⟨rfl, -⟩ := List.cons.inj hone
        rw [hfits] at hfits'
        cases hfits'
  | _ => rfl

theorem isRequest_ownRequest (op : Op) (hit : Bool) : (ownRequest op hit).isRequest = true := by
  cases op with
  | get addr => rfl
  | put addr v => cases hit <;> rfl

theorem addressed_step {a : Act} (hw : Wired cfg s) (ha : Addressed cfg s)
    (hstep : Stepped cfg s a s') : Addressed cfg s' := by
  constructor
  · intro m h addr hmem
    rcases sends_of_stepped hstep hmem with hmem | hsends
    · exact ha.control m h addr hmem
    · generalize hmsg : Message.writeback addr = msg at hsends
      cases hsends with
      | writeback _ hhome =>
          obtain rfl := Message.writeback.inj hmsg
          exact hhome
      | request _ _ =>
          have hreq := isRequest_requestOf ‹Op› ‹Bool›
          rw [← hmsg] at hreq
          cases hreq
      | renew _ _ _ => cases hmsg
  · intro h c call addr hcall hmsg
    cases runs_of_stepped hstep hcall with
    | old hold => exact ha.calls h c _ addr hold hmsg
    | received hc hmem => exact ha.control _ h addr (hmsg ▸ hmem)
    | own _ _ _ hown =>
        have hreq := isRequest_ownRequest ‹Op› ‹Bool›
        rw [← hown, hmsg] at hreq
        cases hreq
  · rw [badAddress_stepped hw ha hstep]
    exact ha.good

end Address

end Dogee.CacheCluster
