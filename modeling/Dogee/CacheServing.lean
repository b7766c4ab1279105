import Dogee.CacheSizes
import Mathlib.Algebra.BigOperators.Ring.Finset

/-!
# The server functions come to their end

A server function waits for nothing but the lock of the directory, and who holds that lock goes on. So
as long as some server function runs or some message is in a socket, some server can take a step; and
every such step lowers a measure, in which a write is worth the renews that it sends.
-/

namespace Dogee.CacheCluster

open Transition
open CacheThreads (Op Node Phase)

/-! ## Stages and the lock of the directory -/

/-- The server function is in its loop. -/
def Stage.inLoop : Stage → Prop
  | .loop _ _ => True
  | .inner _ _ _ => True
  | _ => False

/-- The stages that the server function of a message has. -/
def Stage.fits (msg : Message) : Stage → Prop
  | .entry => True
  | .found _ => ∃ addr v, msg = .renew addr v
  | _ => ∃ addr v, msg.stores = some (addr, v)

/-- The server functions are in stages they have, and those that hold the lock of the directory are in
their loops. -/
structure Staged (s : State) : Prop where
  stage : ∀ h c call, s.calls h c = some call → call.stage.fits call.msg
  readers : ∀ h, ∀ c ∈ (s.dirLock h).readers, ∃ src addr v stage,
    s.calls h c = some ⟨src, .write addr v, stage⟩ ∧ stage.inLoop
  writer : ∀ h c, (s.dirLock h).writer = some c → ∃ src addr v stage,
    s.calls h c = some ⟨src, .writeMiss addr v, stage⟩ ∧ stage.inLoop

theorem staged_start (junk : Nat → Fin cacheSize → CacheBlock) (backend : Memory) :
    Staged (start junk backend) where
  stage _ _ _ h := by cases h
  readers _ _ h := absurd h (Finset.notMem_empty _)
  writer _ _ h := by cases h

section Staged

variable {cfg : Config} {s s' : State} {h : Nat} {c : Caller}

/-- The locks stay, and so do the server functions in their loops. -/
theorem Staged.congr (hs : Staged s)
    (hstage : ∀ h c call, s'.calls h c = some call → call.stage.fits call.msg)
    (hlock : s'.dirLock = s.dirLock)
    (hcalls : ∀ h c src msg stage, s.calls h c = some ⟨src, msg, stage⟩ → stage.inLoop →
      ∃ stage', s'.calls h c = some ⟨src, msg, stage'⟩ ∧ stage'.inLoop) : Staged s' := by
  refine ⟨hstage, ?_, ?_⟩
  · intro h c hc
    rw [hlock] at hc
    obtain ⟨src, addr, v, stage, hcall, hloop⟩ := hs.readers h c hc
    obtain ⟨stage', hcall', hloop'⟩ := hcalls h c src _ stage hcall hloop
    exact ⟨src, addr, v, stage', hcall', hloop'⟩
  · intro h c hc
    rw [hlock] at hc
    obtain ⟨src, addr, v, stage, hcall, hloop⟩ := hs.writer h c hc
    obtain ⟨stage', hcall', hloop'⟩ := hcalls h c src _ stage hcall hloop
    exact ⟨src, addr, v, stage', hcall', hloop'⟩

theorem Staged.sameCalls (hs : Staged s) (hcalls : s'.calls = s.calls) (hlock : s'.dirLock = s.dirLock) :
    Staged s' := by
  refine hs.congr ?_ hlock ?_
  · rw [hcalls]
    exact hs.stage
  · intro h c src msg stage hcall hloop
    rw [hcalls]
    exact ⟨stage, hcall, hloop⟩

/-- The stage of the one call that changed, and of the others. -/
theorem Staged.stage_setTwo {new : Option Call} (hs : Staged s) (hcalls : s'.calls = setTwo s.calls h c new)
    (hnew : ∀ call, new = some call → call.stage.fits call.msg) (h' : Nat) (c' : Caller) (call : Call)
    (hcall : s'.calls h' c' = some call) : call.stage.fits call.msg := by
  rw [hcalls] at hcall
  by_cases heq : h' = h ∧ c' = c
  · rw [heq.1, heq.2, setTwo_self] at hcall
    exact hnew call hcall
  · rw [setTwo_of_ne _ _ _ _ heq] at hcall
    exact hs.stage h' c' call hcall

/-- One server function changes that is not in its loop, or stays there. -/
theorem Staged.setCall {new : Option Call} (hs : Staged s) (hcalls : s'.calls = setTwo s.calls h c new)
    (hlock : s'.dirLock = s.dirLock) (hnew : ∀ call, new = some call → call.stage.fits call.msg)
    (hloop : ∀ src msg stage, s.calls h c = some ⟨src, msg, stage⟩ → stage.inLoop →
      ∃ stage', new = some ⟨src, msg, stage'⟩ ∧ stage'.inLoop) : Staged s' := by
  refine hs.congr (hs.stage_setTwo hcalls hnew) hlock ?_
  intro h' c' src msg stage hcall hin
  rw [hcalls]
  by_cases heq : h' = h ∧ c' = c
  · obtain ⟨rfl, rfl⟩ := heq
    rw [setTwo_self]
    exact hloop src msg stage hcall hin
  · rw [setTwo_of_ne _ _ _ _ heq]
    exact ⟨stage, hcall, hin⟩

/-- A server function before its loop changes. -/
theorem Staged.before {call : Call} {new : Option Call} (hs : Staged s) (hcall : s.calls h c = some call)
    (hbefore : ¬call.stage.inLoop) (hcalls : s'.calls = setTwo s.calls h c new)
    (hlock : s'.dirLock = s.dirLock) (hnew : ∀ call, new = some call → call.stage.fits call.msg) :
    Staged s' := by
  refine hs.setCall hcalls hlock hnew ?_
  intro src msg stage hcall' hin
  rw [hcall] at hcall'
  obtain rfl := Option.some.inj hcall'
  exact absurd hin hbefore

/-- A server function goes on in its loop. -/
theorem Staged.loop {src : Nat} {msg : Message} {stage stage' : Stage} (hs : Staged s)
    (hcall : s.calls h c = some ⟨src, msg, stage⟩) (hin : stage.inLoop) (hin' : stage'.inLoop)
    (hcalls : s'.calls = setTwo s.calls h c (some ⟨src, msg, stage'⟩)) (hlock : s'.dirLock = s.dirLock) :
    Staged s' := by
  have hstores : ∃ addr v, msg.stores = some (addr, v) := by
    have hfits := hs.stage h c _ hcall
    cases stage with
    | loop old i => exact hfits
    | inner old i b => exact hfits
    | _ => exact hin.elim
  refine hs.setCall hcalls hlock ?_ ?_
  · intro call hnew
    obtain rfl := Option.some.inj hnew
    cases stage' with
    | loop old i => exact hstores
    | inner old i b => exact hstores
    | _ => exact hin'.elim
  · intro src' msg' stage'' hcall' _
    rw [hcall] at hcall'
    obtain ⟨rfl, rfl, -⟩ := Call.mk.inj (Option.some.inj hcall')
    exact ⟨stage', rfl, hin'⟩

/-- A server function takes the lock of the directory or gives it back. -/
theorem Staged.setLock {new : Option Call} {l : DirLock} (hs : Staged s)
    (hcalls : s'.calls = setTwo s.calls h c new) (hlock : s'.dirLock = Function.update s.dirLock h l)
    (hnew : ∀ call, new = some call → call.stage.fits call.msg)
    (hreaders : ∀ c' ∈ l.readers, (c' = c ∧ ∃ src addr v stage, new = some ⟨src, .write addr v, stage⟩ ∧
      stage.inLoop) ∨ (c' ≠ c ∧ c' ∈ (s.dirLock h).readers))
    (hwriter : ∀ c', l.writer = some c' → (c' = c ∧ ∃ src addr v stage,
      new = some ⟨src, .writeMiss addr v, stage⟩ ∧ stage.inLoop) ∨ (c' ≠ c ∧ (s.dirLock h).writer = some c')) :
    Staged s' := by
  have hother : ∀ {h' c'}, ¬(h' = h ∧ c' = c) → s'.calls h' c' = s.calls h' c' := by
    intro h' c' hne
    rw [hcalls, setTwo_of_ne _ _ _ _ hne]
  have hmine : s'.calls h c = new := by
    rw [hcalls, setTwo_self]
  refine ⟨hs.stage_setTwo hcalls hnew, ?_, ?_⟩
  · intro h' c' hc'
    rw [hlock] at hc'
    by_cases hh : h' = h
    · subst hh
      rw [Function.update_self] at hc'
      rcases hreaders c' hc' with ⟨rfl, hloop⟩ | ⟨hne, hold⟩
      · rw [hmine]
        exact hloop
      · rw [hother fun heq => hne heq.2]
        exact hs.readers h' c' hold
    · rw [Function.update_of_ne hh] at hc'
      rw [hother fun heq => hh heq.1]
      exact hs.readers h' c' hc'
  · intro h' c' hc'
    rw [hlock] at hc'
    by_cases hh : h' = h
    · subst hh
      rw [Function.update_self] at hc'
      rcases hwriter c' hc' with ⟨rfl, hloop⟩ | ⟨hne, hold⟩
      · rw [hmine]
        exact hloop
      · rw [hother fun heq => hne heq.2]
        exact hs.writer h' c' hold
    · rw [Function.update_of_ne hh] at hc'
      rw [hother fun heq => hh heq.1]
      exact hs.writer h' c' hc'

theorem Staged.answer {s₀ : State} {src : Nat} {r : Reply} (hanswer : answer s₀ h c src r = some s')
    (hs : Staged s₀) : Staged s' := by
  rcases answer_cases hanswer with ⟨p, x, -, rfl⟩ | ⟨t, node, -, -, rfl⟩
  · exact hs.sameCalls rfl rfl
  · exact hs.sameCalls rfl rfl

theorem staged_served (hs : Staged s) (hserve : Served cfg s h c s') : Staged s' := by
  have hend : ∀ call : Call, none = some call → call.stage.fits call.msg := by
    intro call hnone
    cases hnone
  cases hserve with
  | renewMiss hcall _ => exact hs.before hcall id rfl rfl hend
  | renewFound hcall _ =>
      refine hs.before hcall id rfl rfl ?_
      intro call hnew
      obtain rfl := Option.some.inj hnew
      exact ⟨_, _, rfl⟩
  | renewEnd hcall _ => exact hs.before hcall id rfl rfl hend
  | writeback hcall _ => exact hs.before hcall id rfl rfl hend
  | readMiss hcall _ hanswer => exact Staged.answer hanswer (hs.before hcall id rfl rfl hend)
  | store hcall hmsg =>
      refine hs.before hcall id rfl rfl ?_
      intro call hnew
      obtain rfl := Option.some.inj hnew
      exact ⟨_, _, hmsg⟩
  | writeSection hcall hlock =>
      refine hs.setLock rfl rfl ?_ ?_ ?_
      · intro call hnew
        obtain rfl := Option.some.inj hnew
        exact ⟨_, _, rfl⟩
      · intro c' hc'
        by_cases heq : c' = c
        · exact Or.inl ⟨heq, _, _, _, _, rfl, trivial⟩
        · exact Or.inr ⟨heq, Finset.mem_of_mem_insert_of_ne hc' heq⟩
      · intro c' hc'
        rw [hlock] at hc'
        cases hc'
  | writeMissSection hcall hfree =>
      refine hs.setLock rfl rfl ?_ ?_ ?_
      · intro call hnew
        obtain rfl := Option.some.inj hnew
        exact ⟨_, _, rfl⟩
      · intro c' hc'
        exact absurd hc' (Finset.notMem_empty c')
      · intro c' hc'
        exact Or.inl ⟨(Option.some.inj hc').symm, _, _, _, _, rfl, trivial⟩
  | loopSkip hcall _ _ _ =>
      refine hs.loop hcall trivial ?_ rfl rfl
      trivial
  | loopOwn hcall _ _ _ =>
      refine hs.loop hcall trivial ?_ rfl rfl
      trivial
  | loopSend hcall _ _ _ _ =>
      refine hs.loop hcall trivial ?_ rfl rfl
      trivial
  | innerEnd hcall _ _ =>
      refine hs.loop hcall trivial ?_ rfl rfl
      trivial
  | writeEnd hcall _ hanswer =>
      refine Staged.answer hanswer (hs.setLock rfl rfl hend ?_ ?_)
      · intro c' hc'
        exact Or.inr (Finset.mem_erase.mp hc')
      · intro c' hc'
        refine Or.inr ⟨?_, hc'⟩
        rintro rfl
        -- the writer is in a write miss, and this is a write
        obtain ⟨src, addr, v, stage, hcall', -⟩ := hs.writer h c' hc'
        rw [hcall] at hcall'
        cases hcall'
  | writeMissEnd hcall _ hanswer =>
      refine Staged.answer hanswer (hs.setLock rfl rfl hend ?_ ?_)
      · intro c' hc'
        exact absurd hc' (Finset.notMem_empty c')
      · intro c' hc'
        cases hc'
  | bad => exact hs.sameCalls rfl rfl

theorem staged_step {a : Act} (hs : Staged s) (hw : Wired cfg s) (hstep : Stepped cfg s a s') : Staged s' := by
  cases hstep with
  | @requestOwn m t op hit node hasks hnode _ =>
      refine hs.setCall rfl rfl ?_ ?_
      · intro call hnew
        obtain rfl := Option.some.inj hnew
        trivial
      · intro src msg stage hcall _
        obtain ⟨-, op', hit', hop, -, -⟩ := hw.own m t _ hcall
        rw [(request_spec hasks hnode).1] at hop
        cases hop
  | receive _ hcall _ =>
      refine hs.setCall rfl rfl ?_ ?_
      · intro call hnew
        obtain rfl := Option.some.inj hnew
        trivial
      · intro src msg stage hcall' _
        rw [hcall] at hcall'
        cases hcall'
  | serve hserve => exact staged_served hs hserve
  | _ => exact hs.sameCalls rfl rfl

end Staged

/-! ## What is there at all -/

/-- A caller of the cluster. -/
def Caller.bounded (cfg : Config) : Caller → Prop
  | .thread t => t < cfg.threads
  | .handler p _ => p < cfg.caches

/-- Only the sockets between two nodes have messages, and only the threads there are run server
functions. -/
structure Bounded (cfg : Config) (s : State) : Prop where
  control : ∀ m h msg, msg ∈ s.control m h → m ≠ h ∧ m < cfg.caches ∧ h < cfg.caches
  calls : ∀ h c call, s.calls h c = some call → h < cfg.caches ∧ c.bounded cfg

theorem bounded_start (cfg : Config) (junk : Nat → Fin cacheSize → CacheBlock) (backend : Memory) :
    Bounded cfg (start junk backend) where
  control _ _ _ h := by cases h
  calls _ _ _ h := by cases h

section Bounded

variable {cfg : Config} {s s' : State}

theorem home_lt (cfg : Config) (addr : Nat) : cfg.home addr < cfg.caches := Nat.mod_lt _ cfg.pos

theorem Bounded.send {m h : Nat} {msg : Message} (hb : Bounded cfg s) (hne : m ≠ h) (hm : m < cfg.caches)
    (hh : h < cfg.caches) (hcontrol : s'.control = setTwo s.control m h (s.control m h ++ [msg]))
    (m' h' : Nat) (msg' : Message) (hmem : msg' ∈ s'.control m' h') :
    m' ≠ h' ∧ m' < cfg.caches ∧ h' < cfg.caches := by
  rw [hcontrol] at hmem
  rcases mem_send hmem with hold | ⟨rfl, rfl, -⟩
  · exact hb.control m' h' msg' hold
  · exact ⟨hne, hm, hh⟩

theorem Bounded.tail {m h : Nat} {msg : Message} {rest : List Message} (hb : Bounded cfg s)
    (hcontrol : s.control m h = msg :: rest) (hcontrol' : s'.control = setTwo s.control m h rest)
    (m' h' : Nat) (msg' : Message) (hmem : msg' ∈ s'.control m' h') :
    m' ≠ h' ∧ m' < cfg.caches ∧ h' < cfg.caches := by
  apply hb.control m' h' msg'
  rw [hcontrol'] at hmem
  by_cases heq : m' = m ∧ h' = h
  · rw [heq.1, heq.2, setTwo_self] at hmem
    rw [heq.1, heq.2, hcontrol]
    exact List.mem_cons_of_mem msg hmem
  · rwa [setTwo_of_ne _ _ _ _ heq] at hmem

theorem Bounded.setCall {h : Nat} {c : Caller} {new : Option Call} (hb : Bounded cfg s)
    (hcalls : s'.calls = setTwo s.calls h c new) (hh : h < cfg.caches) (hc : c.bounded cfg)
    (h' : Nat) (c' : Caller) (call : Call) (hcall : s'.calls h' c' = some call) :
    h' < cfg.caches ∧ c'.bounded cfg := by
  rw [hcalls] at hcall
  by_cases heq : h' = h ∧ c' = c
  · rw [heq.1, heq.2]
    exact ⟨hh, hc⟩
  · rw [setTwo_of_ne _ _ _ _ heq] at hcall
    exact hb.calls h' c' call hcall

end Bounded

/-! ## The work that is left -/

/-- The steps that a server function has left, and those of the renews that it sends. -/
def Stage.work (cfg : Config) (msg : Message) : Stage → Nat
  | .entry =>
      match msg with
      | .renew _ _ => 2
      | .readMiss _ => 1
      | .writeback _ => 1
      | .write _ _ => cfg.caches * 5 + 3
      | .writeMiss _ _ => cfg.caches * 5 + 3
  | .stored => cfg.caches * 5 + 2
  | .loop _ i => (cfg.caches - i) * 5 + 1
  | .inner _ i _ => (cfg.caches - (i + 1)) * 5 + 2
  | .found _ => 1

/-- A message is to be received and then served. -/
def Message.work (cfg : Config) (msg : Message) : Nat := Stage.work cfg msg .entry + 1

def callWork (cfg : Config) : Option Call → Nat
  | some call => call.stage.work cfg call.msg
  | none => 0

/-- What one step of a server function does to the functions and to the sockets. -/
inductive Lowers (cfg : Config) (s s' : State) (h : Nat) (c : Caller) (call : Call) (new : Option Call) : Prop
  | quiet (hcontrol : s'.control = s.control) (hwork : callWork cfg new < callWork cfg (some call)) :
      Lowers cfg s s' h c call new
  | renew {i addr : Nat} {v : List Word} (hne : h ≠ i) (hi : i < cfg.caches)
      (hcontrol : s'.control = setTwo s.control h i (s.control h i ++ [.renew addr v]))
      (hwork : callWork cfg new + (Message.renew addr v).work cfg < callWork cfg (some call)) :
      Lowers cfg s s' h c call new

section Work

variable {cfg : Config} {s s' : State} {h : Nat} {c : Caller}

theorem callWork_entry {src addr : Nat} {msg : Message} {v : List Word} (hmsg : msg.stores = some (addr, v)) :
    callWork cfg (some ⟨src, msg, .entry⟩) = cfg.caches * 5 + 3 := by
  cases msg with
  | write addr v => rfl
  | writeMiss addr v => rfl
  | _ => cases hmsg

theorem lowers_of_served (hw : Wired cfg s) (ha : Addressed cfg s) (hh : h < cfg.caches)
    (hserve : Served cfg s h c s') :
    ∃ call new, s.calls h c = some call ∧ s'.calls = setTwo s.calls h c new ∧
      Lowers cfg s s' h c call new := by
  cases hserve with
  | renewMiss hcall _ => exact ⟨_, none, hcall, rfl, .quiet rfl Nat.two_pos⟩
  | renewFound hcall _ => exact ⟨_, some _, hcall, rfl, .quiet rfl Nat.one_lt_two⟩
  | renewEnd hcall _ => exact ⟨_, none, hcall, rfl, .quiet rfl Nat.one_pos⟩
  | writeback hcall _ => exact ⟨_, none, hcall, rfl, .quiet rfl Nat.one_pos⟩
  | readMiss hcall _ hanswer =>
      obtain ⟨hcontrol, hcalls⟩ := control_answer hanswer
      exact ⟨_, none, hcall, hcalls, .quiet hcontrol Nat.one_pos⟩
  | store hcall hmsg =>
      refine ⟨_, some _, hcall, rfl, .quiet rfl ?_⟩
      rw [callWork_entry hmsg]
      exact Nat.lt_succ_self _
  | writeSection hcall _ =>
      refine ⟨_, some _, hcall, rfl, .quiet rfl ?_⟩
      exact Nat.lt_succ_self _
  | writeMissSection hcall _ =>
      refine ⟨_, some _, hcall, rfl, .quiet rfl ?_⟩
      exact Nat.lt_succ_self _
  | @loopSkip src addr i msg v old hcall _ hi _ =>
      refine ⟨_, some _, hcall, rfl, .quiet rfl ?_⟩
      show (cfg.caches - (i + 1)) * 5 + 1 < (cfg.caches - i) * 5 + 1
      omega
  | loopOwn hcall _ _ _ =>
      refine ⟨_, some _, hcall, rfl, .quiet rfl ?_⟩
      show (cfg.caches - (h + 1)) * 5 + 2 < (cfg.caches - h) * 5 + 1
      omega
  | @loopSend src addr i msg v old hcall _ hi hne _ =>
      refine ⟨_, some _, hcall, rfl, .renew (Ne.symm hne) hi rfl ?_⟩
      show (cfg.caches - (i + 1)) * 5 + 1 + 3 < (cfg.caches - i) * 5 + 1
      omega
  | innerEnd hcall _ _ =>
      refine ⟨_, some _, hcall, rfl, .quiet rfl ?_⟩
      exact Nat.lt_succ_self _
  | writeEnd hcall _ hanswer =>
      obtain ⟨hcontrol, hcalls⟩ := control_answer hanswer
      exact ⟨_, none, hcall, hcalls, .quiet hcontrol (Nat.succ_pos _)⟩
  | writeMissEnd hcall _ hanswer =>
      obtain ⟨hcontrol, hcalls⟩ := control_answer hanswer
      exact ⟨_, none, hcall, hcalls, .quiet hcontrol (Nat.succ_pos _)⟩
  | bad hcall hmiss => exact absurd hmiss (not_misses hw ha hcall)

end Work

section Bounded

variable {cfg : Config} {s s' : State}

theorem bounded_served {h : Nat} {c : Caller} (hb : Bounded cfg s) (hw : Wired cfg s) (ha : Addressed cfg s)
    (hh : h < cfg.caches) (hserve : Served cfg s h c s') : Bounded cfg s' := by
  obtain ⟨call, new, hcall, hcalls, hlowers⟩ := lowers_of_served hw ha hh hserve
  refine ⟨?_, hb.setCall hcalls hh (hb.calls h c call hcall).2⟩
  cases hlowers with
  | quiet hcontrol _ =>
      rw [hcontrol]
      exact hb.control
  | renew hne hi hcontrol _ => exact hb.send hne hh hi hcontrol

theorem bounded_step {a : Act} (hb : Bounded cfg s) (hw : Wired cfg s) (ha : Addressed cfg s)
    (hstep : step cfg s a = some s') : Bounded cfg s' := by
  have hstepped := stepped_of_step hstep
  obtain ⟨⟨hnode, -⟩, happly⟩ := Option.ite_none_right_eq_some.mp hstep
  cases hstepped with
  | cache _ _ _ => exact ⟨hb.control, hb.calls⟩
  | writebackOwn _ _ _ => exact ⟨hb.control, hb.calls⟩
  | writebackSend _ hhome => exact ⟨hb.send (Ne.symm hhome) hnode (home_lt cfg _) rfl, hb.calls⟩
  | requestOwn _ _ _ =>
      obtain ⟨ht, -⟩ := Option.ite_none_right_eq_some.mp happly
      exact ⟨hb.control, hb.setCall rfl hnode ht⟩
  | requestSend _ _ hhome _ => exact ⟨hb.send (Ne.symm hhome) hnode (home_lt cfg _) rfl, hb.calls⟩
  | reply _ _ _ _ _ => exact ⟨hb.control, hb.calls⟩
  | replyBad _ _ _ _ => exact ⟨hb.control, hb.calls⟩
  | receive _ _ hcontrol =>
      obtain ⟨hp, -⟩ := Option.ite_none_right_eq_some.mp happly
      exact ⟨hb.tail hcontrol rfl, hb.setCall rfl hnode hp⟩
  | serve hserve => exact bounded_served hb hw ha hnode hserve

end Bounded

/-- What holds in every state of a cluster. -/
structure Sound (cfg : Config) (s : State) : Prop where
  wired : Wired cfg s
  addressed : Addressed cfg s
  sized : Sized s
  staged : Staged s
  bounded : Bounded cfg s

theorem sound_start (cfg : Config) (junk : Nat → Fin cacheSize → CacheBlock) (backend : Memory) :
    Sound cfg (start junk backend) where
  wired := wired_start cfg junk backend
  addressed := addressed_start cfg junk backend
  sized := sized_start junk backend
  staged := staged_start junk backend
  bounded := bounded_start cfg junk backend

theorem sound_step {cfg : Config} {s s' : State} {a : Act} (hs : Sound cfg s)
    (hstep : step cfg s a = some s') : Sound cfg s' := by
  have hstepped := stepped_of_step hstep
  constructor
  · exact wired_step hs.wired hstepped
  · exact addressed_step hs.wired hs.addressed hstepped
  · exact sized_step hs.sized hs.wired hstepped
  · exact staged_step hs.staged hs.wired hstepped
  · exact bounded_step hs.bounded hs.wired hs.addressed hstep

/-! ## Some server can go on -/

section Progress

variable {cfg : Config} {s s' : State} {h : Nat} {c : Caller}

/-- The thread of the home itself waits for the answer, so it can take it. -/
theorem answer_isSome {call : Call} {s₀ : State} (hw : Wired cfg s) (hcall : s.calls h c = some call)
    (hnodes : s₀.nodes = s.nodes) (r : Reply) : (answer s₀ h c call.src r).isSome = true := by
  cases c with
  | handler p x => rfl
  | thread t =>
      obtain ⟨-, op, hit, hop, -, -⟩ := hw.own h t call hcall
      have hreply : ((s₀.nodes h).reply t r.words).isSome = true := by
        rw [hnodes]
        unfold Node.reply
        cases hphase : (s.nodes h).phase t with
        | filling op' b sent =>
            rw [hphase] at hop
            cases sent with
            | true => rfl
            | false => cases hop
        | reading op' b request =>
            rw [hphase] at hop
            cases request with
            | sent => rfl
            | _ => cases hop
        | _ =>
            rw [hphase] at hop
            cases hop
      show (((s₀.nodes h).reply t r.words).map fun node => s₀.setNode h node).isSome = true
      rw [Option.isSome_map]
      exact hreply

theorem tryRenew_map_isSome {addr : Nat} {v : List Word} {b : Fin cacheSize} (hs : Sound cfg s)
    {call : Call} (hcall : s.calls h c = some call)
    (hmsg : call.msg = .renew addr v ∨ call.msg.stores = some (addr, v)) (f : Node → State) :
    ((tryRenew (s.nodes h) addr v b).map f).isSome = true := by
  have hsize : (Message.renew addr v).inBlock := by
    rcases hmsg with hmsg | hmsg
    · rw [← hmsg]
      exact hs.sized.calls h c call hcall
    · exact inBlock_of_stores (hs.sized.calls h c call hcall) hmsg
  obtain ⟨node, hnode⟩ := tryRenew_isSome (b := b) (hs.sized.full h) hsize
  rw [hnode]
  rfl

theorem serveLoop_isSome {call : Call} {addr i : Nat} {v : List Word} {old : Nat → Bool} {s₀ : State}
    (hs : Sound cfg s) (hcall : s.calls h c = some call) (hnodes : s₀.nodes = s.nodes) (r : Reply) :
    (if i < cfg.caches then some (serveLoop s h c call addr v old i)
      else answer s₀ h c call.src r).isSome = true := by
  split
  · rfl
  · exact answer_isSome hs.wired hcall hnodes r

/-- A server function waits for the lock of the directory only. -/
theorem serve_isSome {call : Call} (hs : Sound cfg s) (hcall : s.calls h c = some call)
    (hfree : ¬call.stage.inLoop → (s.dirLock h).isFree) : (serve cfg s h c).isSome = true := by
  have hmiss := not_misses hs.wired hs.addressed hcall
  have hfits := hs.staged.stage h c call hcall
  unfold serve
  rw [hcall]
  dsimp only
  rw [if_neg hmiss]
  unfold serveCall
  obtain ⟨src, msg, stage⟩ := call
  cases stage with
  | entry =>
      have hdir := hfree id
      cases msg with
      | renew addr v =>
          dsimp only
          split
          · rfl
          · rfl
      | writeback addr =>
          dsimp only
          rw [if_pos hdir]
          rfl
      | readMiss addr =>
          dsimp only
          rw [if_pos hdir]
          refine answer_isSome hs.wired hcall ?_ _
          rfl
      | write addr v => rfl
      | writeMiss addr v => rfl
  | found b =>
      obtain ⟨addr, v, rfl⟩ := hfits
      exact tryRenew_map_isSome hs hcall (Or.inl rfl) _
  | stored =>
      have hdir := hfree id
      cases msg with
      | write addr v =>
          dsimp only
          rw [if_pos hdir.2]
          rfl
      | writeMiss addr v =>
          dsimp only
          rw [if_pos hdir]
          rfl
      | _ => exact (Option.some_ne_none _ hfits.choose_spec.choose_spec.symm).elim
  | loop old i =>
      cases msg with
      | write addr v =>
          refine serveLoop_isSome hs hcall ?_ _
          rfl
      | writeMiss addr v =>
          refine serveLoop_isSome hs hcall ?_ _
          rfl
      | _ => exact (Option.some_ne_none _ hfits.choose_spec.choose_spec.symm).elim
  | inner old i b =>
      cases msg with
      | write addr v => exact tryRenew_map_isSome hs hcall (Or.inr rfl) _
      | writeMiss addr v => exact tryRenew_map_isSome hs hcall (Or.inr rfl) _
      | _ => exact (Option.some_ne_none _ hfits.choose_spec.choose_spec.symm).elim

/-- As long as a server function runs at a node, one of them can go on: who holds the lock of the
directory is in its loop. -/
theorem exists_serve {call : Call} (hs : Sound cfg s) (hcall : s.calls h c = some call) :
    ∃ c', (serve cfg s h c').isSome = true := by
  by_cases hfree : (s.dirLock h).isFree
  · exact ⟨c, serve_isSome hs hcall fun _ => hfree⟩
  · cases hwriter : (s.dirLock h).writer with
    | some c' =>
        obtain ⟨src, addr, v, stage, hcall', hloop⟩ := hs.staged.writer h c' hwriter
        exact ⟨c', serve_isSome hs hcall' fun hnot => absurd hloop hnot⟩
    | none =>
        have hreaders : (s.dirLock h).readers ≠ ∅ := fun hempty => hfree ⟨hempty, hwriter⟩
        obtain ⟨c', hmem⟩ := Finset.nonempty_iff_ne_empty.mpr hreaders
        obtain ⟨src, addr, v, stage, hcall', hloop⟩ := hs.staged.readers h c' hmem
        exact ⟨c', serve_isSome hs hcall' fun hnot => absurd hloop hnot⟩

end Progress

/-! ## The servers come to their end -/

/-- The callers of a node. -/
def callers (cfg : Config) : Finset Caller :=
  (Finset.range cfg.threads).image Caller.thread ∪
    (Finset.range cfg.caches ×ˢ Finset.univ).image fun p : Nat × Bool => Caller.handler p.1 p.2

def load (cfg : Config) (msgs : List Message) : Nat := (msgs.map (Message.work cfg)).sum

/-- Everything that the servers have still to do. -/
def work (cfg : Config) (s : State) : Nat :=
  (∑ p ∈ Finset.range cfg.caches ×ˢ Finset.range cfg.caches, load cfg (s.control p.1 p.2)) +
    ∑ p ∈ Finset.range cfg.caches ×ˢ callers cfg, callWork cfg (s.calls p.1 p.2)

section End

variable {cfg : Config} {s s' : State}

/-- One summand changes. -/
theorem sum_setTwo {α β γ : Type*} [DecidableEq α] [DecidableEq β] {A : Finset α} {B : Finset β} {a : α} {b : β}
    (ha : a ∈ A) (hb : b ∈ B) (f : γ → Nat) (g : α → β → γ) (v : γ) :
    (∑ p ∈ A ×ˢ B, f (setTwo g a b v p.1 p.2)) + f (g a b) = (∑ p ∈ A ×ˢ B, f (g p.1 p.2)) + f v := by
  have hmem : (a, b) ∈ A ×ˢ B := Finset.mem_product.mpr ⟨ha, hb⟩
  have hrest : ∑ p ∈ (A ×ˢ B).erase (a, b), f (setTwo g a b v p.1 p.2) =
      ∑ p ∈ (A ×ˢ B).erase (a, b), f (g p.1 p.2) := by
    apply Finset.sum_congr rfl
    intro p hp
    rw [setTwo_of_ne g a b v fun heq => Finset.ne_of_mem_erase hp (Prod.ext heq.1 heq.2)]
  have hnew := Finset.add_sum_erase _ (fun p : α × β => f (setTwo g a b v p.1 p.2)) hmem
  have hold := Finset.add_sum_erase _ (fun p : α × β => f (g p.1 p.2)) hmem
  dsimp only at hnew hold
  rw [hrest, setTwo_self] at hnew
  rw [← hnew, ← hold]
  omega

theorem load_append (as bs : List Message) : load cfg (as ++ bs) = load cfg as + load cfg bs := by
  unfold load
  rw [List.map_append, List.sum_append]

theorem load_cons (msg : Message) (rest : List Message) :
    load cfg (msg :: rest) = msg.work cfg + load cfg rest := rfl

/-- The messages of one socket change. -/
theorem load_setTwo {m h : Nat} {msgs : List Message} (hm : m < cfg.caches) (hh : h < cfg.caches)
    (hcontrol : s'.control = setTwo s.control m h msgs) :
    (∑ p ∈ Finset.range cfg.caches ×ˢ Finset.range cfg.caches, load cfg (s'.control p.1 p.2)) +
        load cfg (s.control m h) =
      (∑ p ∈ Finset.range cfg.caches ×ˢ Finset.range cfg.caches, load cfg (s.control p.1 p.2)) +
        load cfg msgs := by
  rw [hcontrol]
  exact sum_setTwo (Finset.mem_range.mpr hm) (Finset.mem_range.mpr hh) (load cfg) s.control msgs

end End

theorem sound_run {cfg : Config} {junk : Nat → Fin cacheSize → CacheBlock} {backend : Memory} {as : List Act}
    {s : State} (hrun : run (step cfg) (start junk backend) as = some s) : Sound cfg s :=
  invariant_reachable (fun _ _ _ hs hstep => sound_step hs hstep) (sound_start cfg junk backend) hrun

/-- A thread that waits for another node has the lock of its data socket, and either its request is the
one that is not answered, or the one answer in the socket is the answer to its request. -/
theorem waiting_of_waits {cfg : Config} {s : State} {m t : Nat} {op : Op} {hit : Bool} (hw : Wired cfg s)
    (hwaits : waits ((s.nodes m).phase t) = some (op, hit)) (hhome : cfg.home op.addr ≠ m) :
    s.dataLock m (cfg.home op.addr) = some t ∧ Waiting cfg s m (cfg.home op.addr) t op hit := by
  have hlock := hw.lock m t op hit hwaits hhome
  obtain ⟨op', hit', hwait⟩ := (hw.link m (cfg.home op.addr)).holder hlock
  have hsame := hwait.waits
  rw [hwaits] at hsame
  obtain ⟨rfl, rfl⟩ := Prod.mk.inj (Option.some.inj hsame)
  exact ⟨hlock, hwait⟩

end Dogee.CacheCluster
