import Dogee.CacheRenews

/-!
# The renews that a write has still to send

A write that is stored has still to come to a node as long as its loop over the nodes has not passed
it. The loop runs under the lock of the directory, so no miss of the home goes into the directory
meanwhile, and the block of the home stays in the place where the loop has found it.
-/

namespace Dogee.CacheCluster

open CacheThreads (Op Node Phase Request Inv)

/-! ## The lock of the directory -/

/-- A server function in its loop holds the lock of the directory, and `ServerWriteMiss` holds it alone. -/
structure Locked (s : State) : Prop where
  read : ∀ h c src addr v stage, s.calls h c = some ⟨src, .write addr v, stage⟩ → stage.inLoop →
    c ∈ (s.dirLock h).readers
  write : ∀ h c src addr v stage, s.calls h c = some ⟨src, .writeMiss addr v, stage⟩ → stage.inLoop →
    (s.dirLock h).writer = some c
  alone : ∀ h c, (s.dirLock h).writer = some c → (s.dirLock h).readers = ∅

section Locked

variable {cfg : Config} {s s' : State} {a : Act} {h : Nat} {c : Caller}

/-- The locks stay, and no server function comes into its loop. -/
theorem Locked.congr (hl : Locked s) (hlock : s'.dirLock = s.dirLock)
    (hcalls : ∀ h c src msg stage, s'.calls h c = some ⟨src, msg, stage⟩ → stage.inLoop →
      ∃ stage₀, s.calls h c = some ⟨src, msg, stage₀⟩ ∧ stage₀.inLoop) : Locked s' := by
  constructor
  · intro h c src addr v stage hcall hloop
    obtain ⟨stage₀, hold, hloop₀⟩ := hcalls h c src _ stage hcall hloop
    rw [hlock]
    exact hl.read h c src addr v stage₀ hold hloop₀
  · intro h c src addr v stage hcall hloop
    obtain ⟨stage₀, hold, hloop₀⟩ := hcalls h c src _ stage hcall hloop
    rw [hlock]
    exact hl.write h c src addr v stage₀ hold hloop₀
  · intro h c hwriter
    rw [hlock] at hwriter ⊢
    exact hl.alone h c hwriter

/-- One server function changes together with the lock of its directory. -/
theorem Locked.setLock {l : DirLock} {new : Option Call} (hl : Locked s)
    (hcalls : s'.calls = setTwo s.calls h c new) (hlock : s'.dirLock = Function.update s.dirLock h l)
    (hread : ∀ c', c' ≠ c → c' ∈ (s.dirLock h).readers → c' ∈ l.readers)
    (hwrite : ∀ c', c' ≠ c → (s.dirLock h).writer = some c' → l.writer = some c')
    (hnew : ∀ src msg stage, new = some ⟨src, msg, stage⟩ → stage.inLoop →
      (∀ addr v, msg = .write addr v → c ∈ l.readers) ∧ (∀ addr v, msg = .writeMiss addr v → l.writer = some c))
    (halone : ∀ c', l.writer = some c' → l.readers = ∅) : Locked s' := by
  have hat : s'.dirLock h = l := by
    rw [hlock, Function.update_self]
  have hother : ∀ h', h' ≠ h → s'.dirLock h' = s.dirLock h' := by
    intro h' hne
    rw [hlock, Function.update_of_ne hne]
  constructor
  · intro h' c' src addr v stage hcall hloop
    rw [hcalls] at hcall
    rcases call_of_setTwo hcall with hold | ⟨rfl, rfl, hnew'⟩
    · have hmem := hl.read h' c' src addr v stage hold hloop
      by_cases hne : h' = h
      · subst hne
        rw [hat]
        by_cases hc : c' = c
        · subst hc
          rw [setTwo_self] at hcall
          exact (hnew src _ stage hcall hloop).1 addr v rfl
        · exact hread c' hc hmem
      · rw [hother h' hne]
        exact hmem
    · rw [hat]
      exact (hnew src _ stage hnew' hloop).1 addr v rfl
  · intro h' c' src addr v stage hcall hloop
    rw [hcalls] at hcall
    rcases call_of_setTwo hcall with hold | ⟨rfl, rfl, hnew'⟩
    · have hwriter := hl.write h' c' src addr v stage hold hloop
      by_cases hne : h' = h
      · subst hne
        rw [hat]
        by_cases hc : c' = c
        · subst hc
          rw [setTwo_self] at hcall
          exact (hnew src _ stage hcall hloop).2 addr v rfl
        · exact hwrite c' hc hwriter
      · rw [hother h' hne]
        exact hwriter
    · rw [hat]
      exact (hnew src _ stage hnew' hloop).2 addr v rfl
  · intro h' c' hwriter
    by_cases hne : h' = h
    · subst hne
      rw [hat] at hwriter ⊢
      exact halone c' hwriter
    · rw [hother h' hne] at hwriter ⊢
      exact hl.alone h' c' hwriter

/-- The lock of the directory is not free while a server function is in its loop. -/
theorem Locked.not_free {src addr : Nat} {msg : Message} {v : List Word} {stage : Stage} (hl : Locked s)
    (hcall : s.calls h c = some ⟨src, msg, stage⟩) (hmsg : msg.stores = some (addr, v)) (hloop : stage.inLoop) :
    ¬(s.dirLock h).isFree := by
  rintro ⟨hreaders, hwriter⟩
  rcases stores_cases hmsg with rfl | rfl
  · have hmem := hl.read h c src addr v stage hcall hloop
    rw [hreaders] at hmem
    cases hmem
  · have hself := hl.write h c src addr v stage hcall hloop
    rw [hwriter] at hself
    cases hself

end Locked

/-! ## The home's own block -/

/-- The block that a loop has found at the home itself is where the home has it, if it has it. -/
def InPlace (s : State) : Prop :=
  ∀ h c src msg addr v old i x, s.calls h c = some ⟨src, msg, .inner old i x⟩ → msg.stores = some (addr, v) →
    i = h ∧ src ≠ h ∧ ∀ y, At (s.nodes h) (blockBase addr) y → y = x

section InPlace

variable {cfg : Config} {s s' : State} {a : Act} {m h b : Nat} {c : Caller} {x : Fin cacheSize}

end InPlace

/-! ## What is still to come to a node -/

/-- The thread has copied its words into the block and has not sent its request. -/
def Puts (node : Node) (t addr : Nat) (v : List Word) : Prop :=
  ∃ x, node.phase t = .reading (.put addr v) x .unsent

/-- The loop of a write has still to come to the node. -/
def Stage.comesTo (m : Nat) : Stage → Prop
  | .stored => True
  | .loop old i => i ≤ m ∧ old m = true
  | .inner old i _ => i ≤ m ∧ old m = true
  | _ => False

/-- The next step of the loop of home `h` hands the word on to node `m`. -/
def Stage.handsTo (h m : Nat) : Stage → Prop
  | .loop old i => i = m ∧ m ≠ h ∧ old m = true
  | .inner _ i _ => i = m
  | _ => False

/-- A write of `w` that has still to come to node `m`, and the server function that is about it: a hit of
the node itself that the home has not stored, or a write of another node that is stored and whose loop
has not passed the node. -/
inductive Comes (cfg : Config) (s : State) (m w : Nat) : Option Caller → Prop
  | unsent {t addr : Nat} {v : List Word} {u : Word} (hputs : Puts (s.nodes m) t addr v)
      (hword : wordAt addr v w = some u) : Comes cfg s m w none
  | sent {addr : Nat} {v : List Word} {u : Word} (hmem : Message.write addr v ∈ s.control m (cfg.home w))
      (hword : wordAt addr v w = some u) : Comes cfg s m w none
  | taken {c : Caller} {addr : Nat} {v : List Word} {u : Word}
      (hcall : s.calls (cfg.home w) c = some ⟨m, .write addr v, .entry⟩) (hword : wordAt addr v w = some u) :
      Comes cfg s m w (some c)
  | due {c : Caller} {src : Nat} {msg : Message} {u : Word} {stage : Stage}
      (hcall : s.calls (cfg.home w) c = some ⟨src, msg, stage⟩) (hmsg : msg.storesAt w = some u)
      (hsrc : src ≠ m) (hcomes : stage.comesTo m) : Comes cfg s m w (some c)

def Coming (cfg : Config) (s : State) (m w : Nat) : Prop := ∃ o, Comes cfg s m w o

/-- A write other than that of the server function `c` has still to come. -/
def ComingBut (cfg : Config) (s : State) (c : Caller) (m w : Nat) : Prop := ∃ o, o ≠ some c ∧ Comes cfg s m w o

section Coming

variable {cfg : Config} {s s' : State} {a : Act} {m h w addr : Nat} {c : Caller} {v : List Word}

/-- A server function that does not take the step stays where it is. -/
theorem call_after {call : Call} (hw : Wired cfg s) (hstep : Stepped cfg s a s') (hne : a ≠ .serve h c)
    (hcall : s.calls h c = some call) : s'.calls h c = some call := by
  cases hstep with
  | @requestOwn m t op hit node hasks hnode hhome =>
      show setTwo s.calls m (.thread t) _ h c = some call
      rw [setTwo_of_ne]
      · exact hcall
      · -- the thread waits for no answer yet
        rintro ⟨rfl, rfl⟩
        obtain ⟨-, op', hit', hwaits, -⟩ := hw.own h t call hcall
        rw [(request_spec hasks hnode).1] at hwaits
        cases hwaits
  | @receive h' p second msg rest hpeer hfree hcontrol =>
      show setTwo s.calls h' (.handler p second) _ h c = some call
      rw [setTwo_of_ne]
      · exact hcall
      · rintro ⟨rfl, rfl⟩
        rw [hfree] at hcall
        cases hcall
  | @serve h' c' _ hserve =>
      rw [served_calls_of_ne hserve]
      · exact hcall
      · rintro ⟨rfl, rfl⟩
        exact hne rfl
  | _ => exact hcall

/-- A thread that has hit stays at its place until it sends its request. -/
theorem unsent_after {node node' : Node} {t t' : Nat} {act : CacheThreads.Act} (hact : Acted node t' act node')
    (hputs : Puts node t addr v) : Puts node' t addr v := by
  obtain ⟨x, hread⟩ := hputs
  have hkept : ∀ {q p : Phase}, node.phase t' = q → q ≠ .reading (.put addr v) x .unsent →
      node'.phase = Function.update node.phase t' p → Puts node' t addr v := by
    intro q p hq hne hupdate
    refine ⟨x, ?_⟩
    rw [hupdate, Function.update_of_ne]
    · exact hread
    · rintro rfl
      exact hne (hq.symm.trans hread)
  cases hact with
  | abort => exact ⟨x, hread⟩
  | lookupFound hphase _ => exact hkept hphase Phase.noConfusion rfl
  | lookupMissing hphase _ => exact hkept hphase Phase.noConfusion rfl
  | hitGet hphase => exact hkept hphase Phase.noConfusion rfl
  | hitPut hphase => exact hkept hphase Phase.noConfusion rfl
  | changed hphase => exact hkept hphase Phase.noConfusion rfl
  | pending hphase => exact hkept hphase Phase.noConfusion rfl
  | take hphase => exact hkept hphase Phase.noConfusion rfl
  | evict hphase => exact hkept hphase Phase.noConfusion rfl
  | lockTaken hphase => exact hkept hphase Phase.noConfusion rfl
  | lockEvicted hphase => exact hkept hphase Phase.noConfusion rfl
  | @finishHit op y hphase =>
      have hsame := (CacheThreads.callback_frame node y op).2.2.2
      refine hkept hphase ?_ (congrArg (Function.update · t' _) hsame)
      intro heq
      cases (Phase.reading.inj heq).2.2
  | @finishMiss op y hphase =>
      have hsame := (CacheThreads.callback_frame (node.stamp y) y op).2.2.2
      exact hkept hphase Phase.noConfusion (congrArg (Function.update · t' _) hsame)

theorem unsent_after_reply {node node' : Node} {t t' : Nat} {words : List Word}
    (hnode : node.reply t' words = some node') (hputs : Puts node t addr v) : Puts node' t addr v := by
  obtain ⟨x, hread⟩ := hputs
  rcases reply_cases hnode with ⟨op, y, hphase, rfl⟩ | ⟨op, y, hphase, rfl⟩
  · refine ⟨x, (Function.update_of_ne ?_ ..).trans hread⟩
    rintro rfl
    cases hphase.symm.trans hread
  · refine ⟨x, (Function.update_of_ne ?_ ..).trans hread⟩
    rintro rfl
    cases hphase.symm.trans hread

/-- One node is replaced, and the thread stays at its place. -/
theorem unsent_setNode {m' t : Nat} {node : Node} (hputs : Puts (s.nodes m) t addr v)
    (hnode : Puts (s.nodes m') t addr v → Puts node t addr v) :
    Puts (Function.update s.nodes m' node m) t addr v := by
  by_cases hm : m = m'
  · subst hm
    rw [Function.update_self]
    exact hnode hputs
  · rwa [Function.update_of_ne hm]

theorem unsent_answer {s₀ : State} {h src t : Nat} {r : Reply} (hanswer : answer s₀ h c src r = some s')
    (hs₀ : s₀.nodes = s.nodes) (hputs : Puts (s.nodes m) t addr v) : Puts (s'.nodes m) t addr v := by
  rcases answer_cases hanswer with ⟨p, x, -, rfl⟩ | ⟨t', node, -, hnode, rfl⟩
  · show Puts (s₀.nodes m) t addr v
    rwa [hs₀]
  · show Puts (Function.update s₀.nodes h node m) t addr v
    rw [hs₀] at hnode ⊢
    exact unsent_setNode hputs (unsent_after_reply hnode)

theorem unsent_served {h t : Nat} (hserve : Served cfg s h c s') (hputs : Puts (s.nodes m) t addr v) :
    Puts (s'.nodes m) t addr v := by
  have hsame : ∀ {m' : Nat} {node : Node}, node.phase = (s.nodes m').phase →
      Puts (Function.update s.nodes m' node m) t addr v := by
    intro m' node hphase
    refine unsent_setNode hputs ?_
    rintro ⟨x, hread⟩
    exact ⟨x, hphase ▸ hread⟩
  cases hserve with
  | renewEnd _ hnode => exact hsame (sameButWords_tryRenew hnode).phase
  | innerEnd _ _ hnode => exact hsame (sameButWords_tryRenew hnode).phase
  | readMiss _ _ hanswer => exact unsent_answer hanswer rfl hputs
  | writeEnd _ _ hanswer => exact unsent_answer hanswer rfl hputs
  | writeMissEnd _ _ hanswer => exact unsent_answer hanswer rfl hputs
  | bad =>
      obtain ⟨x, hread⟩ := hputs
      exact ⟨x, (phase_bad s h m t).trans hread⟩
  | _ => exact hputs

/-- A message that was in a socket is still there, or it was received. -/
theorem mem_control_after {h : Nat} {msg : Message} (hstep : Stepped cfg s a s') (hmem : msg ∈ s.control m h) :
    msg ∈ s'.control m h ∨ ∃ b, s'.calls h (.handler m b) = some ⟨m, msg, .entry⟩ := by
  have hsent : ∀ {src dst : Nat} {msg' : Message}, msg ∈ setTwo s.control src dst (s.control src dst ++ [msg']) m h := by
    intro src dst msg'
    by_cases heq : m = src ∧ h = dst
    · obtain ⟨rfl, rfl⟩ := heq
      rw [setTwo_self]
      exact List.mem_append_left _ hmem
    · rwa [setTwo_of_ne _ _ _ _ heq]
  cases hstep with
  | writebackSend => exact Or.inl hsent
  | requestSend => exact Or.inl hsent
  | @receive h' p second msg' rest hpeer hfree hcontrol =>
      by_cases heq : m = p ∧ h = h'
      · obtain ⟨rfl, rfl⟩ := heq
        rw [hcontrol] at hmem
        rcases List.mem_cons.mp hmem with rfl | hrest
        · exact Or.inr ⟨second, setTwo_self ..⟩
        · left
          show msg ∈ setTwo s.control m h rest m h
          rwa [setTwo_self]
      · left
        show msg ∈ setTwo s.control p h' rest m h
        rwa [setTwo_of_ne _ _ _ _ heq]
  | serve hserve =>
      left
      cases hserve with
      | loopSend => exact hsent
      | readMiss _ _ hanswer => rwa [(control_answer hanswer).1]
      | writeEnd _ _ hanswer => rwa [(control_answer hanswer).1]
      | writeMissEnd _ _ hanswer => rwa [(control_answer hanswer).1]
      | _ => exact hmem
  | _ => exact Or.inl hmem

/-- A write has still to come after a step, unless the step is that of its server function. -/
theorem coming_after {o : Option Caller} (hs : Sound cfg s) (hstep : Stepped cfg s a s') (hcomes : Comes cfg s m w o) :
    Coming cfg s' m w ∨ ∃ c, o = some c ∧ a = .serve (cfg.home w) c := by
  have hw := hs.wired
  cases hcomes with
  | @unsent t addr v u hputs hword =>
      left
      have hhome : cfg.home w = cfg.home addr := by
        obtain ⟨x, hread⟩ := hputs
        refine home_of_wordAt cfg (hs.sized.ops m t (.put addr v) ?_) hword
        rw [hread]
        rfl
      have hkept : Puts (s'.nodes m) t addr v → Coming cfg s' m w :=
        fun hputs' => ⟨none, .unsent hputs' hword⟩
      -- the request that the thread sends
      have hrequest : ∀ {m' t' : Nat} {op : Op} {hit : Bool} {node : Node},
          asks ((s.nodes m').phase t') = some (op, hit) → (s.nodes m').request t' = some node →
          (m' = m ∧ t' = t ∧ op = .put addr v ∧ hit = true) ∨
            Puts (Function.update s.nodes m' node m) t addr v := by
        intro m' t' op hit node hasks hnode
        by_cases heq : m' = m ∧ t' = t
        · obtain ⟨rfl, rfl⟩ := heq
          obtain ⟨x, hread⟩ := hputs
          rw [hread] at hasks
          obtain ⟨rfl, rfl⟩ := Prod.mk.inj (Option.some.inj hasks)
          exact Or.inl ⟨rfl, rfl, rfl, rfl⟩
        · right
          by_cases hm : m = m'
          · subst hm
            obtain ⟨x, hread⟩ := hputs
            rw [Function.update_self]
            exact ⟨x, ((request_spec hasks hnode).2.2 t fun ht => heq ⟨rfl, ht.symm⟩).trans hread⟩
          · rwa [Function.update_of_ne hm]
      have hwriteback : ∀ {m' t' oldkey : Nat} {op : Op} {y : Fin cacheSize},
          (s.nodes m').phase t' = .writingBack op y oldkey →
          Puts (Function.update s.nodes m' ((s.nodes m').setPhase t' (.filling op y false)) m) t addr v := by
        intro m' t' oldkey op y hphase
        refine unsent_setNode hputs ?_
        rintro ⟨x, hread⟩
        refine ⟨x, (Function.update_of_ne ?_ ..).trans hread⟩
        rintro rfl
        cases hphase.symm.trans hread
      cases hstep with
      | cache hact hinside _ => exact hkept (unsent_setNode hputs (unsent_after (acted_of_act hact hinside)))
      | writebackOwn hphase _ _ => exact hkept (hwriteback hphase)
      | writebackSend hphase _ => exact hkept (hwriteback hphase)
      | @requestOwn m' t' op hit node hasks hnode hown =>
          rcases hrequest hasks hnode with ⟨rfl, rfl, rfl, rfl⟩ | hputs'
          · refine ⟨some (.thread t'), .taken ?_ hword⟩
            rw [hhome, show cfg.home addr = m' from hown]
            exact setTwo_self ..
          · exact hkept hputs'
      | @requestSend m' t' op hit node hasks hnode hne hlock =>
          rcases hrequest hasks hnode with ⟨rfl, rfl, rfl, rfl⟩ | hputs'
          · refine ⟨none, .sent ?_ hword⟩
            rw [hhome]
            show _ ∈ setTwo s.control m' (cfg.home addr) (s.control m' (cfg.home addr) ++ [.write addr v]) m'
              (cfg.home addr)
            rw [setTwo_self]
            exact List.mem_append_right _ (List.mem_singleton.mpr rfl)
          · exact hkept hputs'
      | reply _ _ _ _ hnode => exact hkept (unsent_setNode hputs (unsent_after_reply hnode))
      | @replyBad m' =>
          obtain ⟨x, hread⟩ := hputs
          exact hkept ⟨x, (phase_bad s m' m t).trans hread⟩
      | receive => exact hkept hputs
      | serve hserve => exact hkept (unsent_served hserve hputs)
  | sent hmem hword =>
      left
      rcases mem_control_after hstep hmem with hmem' | ⟨b, hcall⟩
      · exact ⟨none, .sent hmem' hword⟩
      · exact ⟨some (.handler m b), .taken hcall hword⟩
  | @taken c addr v u hcall hword =>
      by_cases ha : a = .serve (cfg.home w) c
      · exact Or.inr ⟨c, rfl, ha⟩
      · exact Or.inl ⟨some c, .taken (call_after hw hstep ha hcall) hword⟩
  | @due c src msg u stage hcall hmsg hsrc hcomes =>
      by_cases ha : a = .serve (cfg.home w) c
      · exact Or.inr ⟨c, rfl, ha⟩
      · exact Or.inl ⟨some c, .due (call_after hw hstep ha hcall) hmsg hsrc hcomes⟩

/-- A step of a server function leaves the other writes to come. -/
theorem ComingBut.after (hbut : ComingBut cfg s c m w) (hs : Sound cfg s)
    (hstep : Stepped cfg s (.serve (cfg.home w) c) s') : Coming cfg s' m w := by
  obtain ⟨o, hne, hcomes⟩ := hbut
  rcases coming_after hs hstep hcomes with hcoming | ⟨c', rfl, heq⟩
  · exact hcoming
  · obtain ⟨-, rfl⟩ := Act.serve.inj heq
    exact absurd rfl hne

/-- What is to come to node `m` ends with the word `u`: the last renew on its way carries it, and if there
is none the blocks that the node has have it. -/
structure Settled (cfg : Config) (s : State) (m w : Nat) (u : Word) : Prop where
  last : ∀ u' ∈ (renewsTo cfg s m w).getLast?, u' = u
  none : renewsTo cfg s m w = [] → ∀ words, Copy cfg s m (blockBase w) words → words[w % blockSize]? = some u

/-- A renew that finds a writer at its block is thrown away. The block has its word already, unless
another renew or another write is still to come. -/
def KeepsUp (cfg : Config) (s : State) (a : Act) (m w : Nat) : Prop :=
  ∀ c addr v x u, a = .serve m c → Renewing s m c addr v x → wordAt addr v w = some u →
    ((s.nodes m).lock x).writer ≠ none → (s.nodes m).table.cache (blockBase w) = some x →
    ComingBut cfg s c m w ∨ 1 < (renewsTo cfg s m w).length ∨
      ∀ words, Copy cfg s m (blockBase w) words → words[w % blockSize]? = some u

/-- The word that the loop of a write hands on is that of the backend, unless another write is still to
come. -/
def HandsOnLast (cfg : Config) (s : State) (a : Act) (m w : Nat) : Prop :=
  ∀ c src msg u stage, a = .serve (cfg.home w) c → s.calls (cfg.home w) c = some ⟨src, msg, stage⟩ →
    msg.storesAt w = some u → src ≠ m → stage.handsTo (cfg.home w) m → u = s.word w ∨ ComingBut cfg s c m w

end Coming

end Dogee.CacheCluster
