import Dogee.CacheCluster

/-!
# Requests and answers in a cluster of caches

A thread that waits for a remote home holds the lock of the data socket to it. Its request is in the
control socket, or with one thread of the home that serves it, or answered; the control socket and the
threads that serve it hold no other request of that node, and the data socket no other answer.
-/

namespace Dogee.CacheCluster

open CacheThreads (Op Node Phase SameKeys Inv KeepsLocks)

/-! ## The tables of the nodes -/

section Node

variable {node node' : Node} {t : Nat}

theorem inv_of_sameKeys (h : Inv node) (htable : SameKeys node.table node'.table)
    (hlock : node'.lock = node.lock) (hqueue : node'.queueLock = node.queueLock)
    (hphase : node'.phase = node.phase) (hran : node'.ran = node.ran) : Inv node' := by
  have hlocks : ∀ t, KeepsLocks node node' t := fun t => KeepsLocks.of_eq hqueue hlock
  have hupdate : node'.phase = Function.update node.phase 0 (node.phase 0) := by
    rw [hphase, Function.update_eq_self]
  refine h.keep hupdate htable ?_ (fun t _ => hlocks t) rfl ?_
  · apply (h.thread 0).frame (hlocks 0)
    · intro k b _ hk hb
      rw [htable.cache, htable.key]
      exact ⟨hk, hb⟩
    · intro k b _ hk hb
      rw [htable.cache, htable.key]
      exact ⟨hk, hb⟩
    · intro b _ _
      exact htable.key b
  · rw [hran]
    exact h.ran

/-- A renew changes at most the words of one block. -/
structure SameButWords (node node' : Node) : Prop where
  table : SameKeys node.table node'.table
  lock : node'.lock = node.lock
  queueLock : node'.queueLock = node.queueLock
  phase : node'.phase = node.phase
  ran : node'.ran = node.ran

theorem sameButWords_tryRenew {addr : Nat} {v : List Word} {b : Fin cacheSize}
    (h : tryRenew node addr v b = some node') : SameButWords node node' := by
  unfold tryRenew at h
  split at h
  · obtain ⟨words, -, rfl⟩ := Option.map_eq_some_iff.mp h
    refine ⟨?_, rfl, rfl, rfl, rfl⟩
    dsimp only
    apply CacheThreads.sameKeys_modify
    intro blk
    rfl
  · obtain rfl := Option.some.inj h
    exact ⟨SameKeys.refl _, rfl, rfl, rfl, rfl⟩

theorem SameButWords.inv (hsame : SameButWords node node') (h : Inv node) : Inv node' :=
  inv_of_sameKeys h hsame.table hsame.lock hsame.queueLock hsame.phase hsame.ran

theorem inv_of_act {a : CacheThreads.Act} (h : Inv node) (hact : node.act t a = some node') : Inv node' := by
  cases a with
  | lookup op => exact CacheThreads.inv_lookup h hact
  | enterRead => exact CacheThreads.inv_enterRead h hact
  | enterQueue => exact CacheThreads.inv_enterQueue h hact
  | enterWrite => exact CacheThreads.inv_enterWrite h hact
  | writeback => exact CacheThreads.inv_writeback h hact
  | request => exact CacheThreads.inv_request h hact
  | reply words => exact CacheThreads.inv_reply h hact
  | finish => exact CacheThreads.inv_finish h hact

end Node

/-- The table of every node is in order. -/
def NodesInv (s : State) : Prop := ∀ m, Inv (s.nodes m)

section Nodes

variable {cfg : Config} {s s' : State} {m h : Nat} {c : Caller}

theorem NodesInv.setNode {node : Node} (hinv : NodesInv s) (hnode : Inv node) :
    NodesInv (s.setNode m node) := by
  intro m'
  show Inv (Function.update s.nodes m node m')
  by_cases hm : m' = m
  · rw [hm, Function.update_self]
    exact hnode
  · rw [Function.update_of_ne hm]
    exact hinv m'

theorem NodesInv.bad (hinv : NodesInv s) : NodesInv (s.bad m) :=
  hinv.setNode (inv_of_sameKeys (hinv m) (SameKeys.refl _) rfl rfl rfl rfl)

/-- An answer goes to the data socket or, at the home itself, to the thread. -/
theorem answer_cases {src : Nat} {r : Reply} (hanswer : answer s h c src r = some s') :
    (∃ p x, c = .handler p x ∧ s' = s.sendData h src r) ∨
      ∃ t node, c = .thread t ∧ (s.nodes h).reply t r.words = some node ∧ s' = s.setNode h node := by
  cases c with
  | handler p x => exact Or.inl ⟨p, x, rfl, (Option.some.inj hanswer).symm⟩
  | thread t =>
      obtain ⟨node, hnode, rfl⟩ := Option.map_eq_some_iff.mp hanswer
      exact Or.inr ⟨t, node, rfl, hnode, rfl⟩

theorem nodesInv_answer {src : Nat} {r : Reply} (hanswer : answer s h c src r = some s')
    (hinv : NodesInv s) : NodesInv s' := by
  rcases answer_cases hanswer with ⟨p, x, -, rfl⟩ | ⟨t, node, -, hnode, rfl⟩
  · exact hinv
  · exact hinv.setNode (CacheThreads.inv_reply (hinv h) hnode)

theorem nodesInv_served (hinv : NodesInv s) (hserve : Served cfg s h c s') : NodesInv s' := by
  cases hserve with
  | renewEnd _ hnode => exact hinv.setNode ((sameButWords_tryRenew hnode).inv (hinv h))
  | innerEnd _ _ hnode => exact hinv.setNode ((sameButWords_tryRenew hnode).inv (hinv h))
  | readMiss _ _ hanswer => exact nodesInv_answer hanswer hinv
  | writeEnd _ _ hanswer => exact nodesInv_answer hanswer hinv
  | writeMissEnd _ _ hanswer => exact nodesInv_answer hanswer hinv
  | bad => exact hinv.bad
  | _ => exact hinv

theorem inv_writingBack {node : Node} {t oldkey : Nat} {op : Op} {b : Fin cacheSize} (hnode : Inv node)
    (hphase : node.phase t = .writingBack op b oldkey) : Inv (node.setPhase t (.filling op b false)) := by
  apply CacheThreads.inv_writeback (t := t) hnode
  unfold Node.writeback
  rw [hphase]

theorem nodesInv_step {a : Act} (hinv : NodesInv s) (hstep : Stepped cfg s a s') : NodesInv s' := by
  cases hstep with
  | cache hact _ => exact hinv.setNode (inv_of_act (hinv _) hact)
  | writebackOwn hphase _ _ => exact hinv.setNode (inv_writingBack (hinv _) hphase)
  | writebackSend hphase _ => exact hinv.setNode (inv_writingBack (hinv _) hphase)
  | requestOwn _ hnode _ => exact hinv.setNode (CacheThreads.inv_request (hinv _) hnode)
  | requestSend _ hnode _ _ => exact hinv.setNode (CacheThreads.inv_request (hinv _) hnode)
  | reply _ _ _ _ hnode => exact hinv.setNode (CacheThreads.inv_reply (hinv _) hnode)
  | replyBad => exact hinv.bad
  | receive => exact hinv
  | serve hserve => exact nodesInv_served hinv hserve

end Nodes

/-! ## Links -/

/-- The home answers the message. -/
def Message.isRequest : Message → Bool
  | .readMiss _ => true
  | .writeMiss _ _ => true
  | .write _ _ => true
  | _ => false

/-- The request that a server function of node `h` is about. -/
def handled (s : State) (h : Nat) (c : Caller) : List Message :=
  match s.calls h c with
  | some call => [call.msg].filter Message.isRequest
  | none => []

/-- The requests of node `m` that node `h` has not answered. -/
def outstanding (s : State) (m h : Nat) : List Message :=
  (s.control m h).filter Message.isRequest ++
    (handled s h (.handler m false) ++ handled s h (.handler m true))

/-- The answers, one after another, are those to the requests. -/
def Paired (requests : List Message) (answers : List Reply) : Prop :=
  List.Forall₂ (fun msg r => (fits msg r).isSome = true) requests answers

/-- The thread `t` waits at the end of a link: for the one request that is not answered, or for the one
answer. -/
structure Waiting (cfg : Config) (s : State) (m h t : Nat) (op : Op) (hit : Bool) : Prop where
  waits : waits ((s.nodes m).phase t) = some (op, hit)
  home : cfg.home op.addr = h
  place : (outstanding s m h = [requestOf op hit] ∧ s.data h m = [] ∧
      ∃ served, s.asked m h = served ++ [requestOf op hit] ∧ Paired served (s.answered h m)) ∨
    (outstanding s m h = [] ∧ ∃ r, s.data h m = [r] ∧ (fits (requestOf op hit) r).isSome = true ∧
      Paired (s.asked m h) (s.answered h m))

/-- A link whose data socket no thread holds has no request and no answer. -/
def LinkInv (cfg : Config) (s : State) (m h : Nat) : Prop :=
  match s.dataLock m h with
  | none => outstanding s m h = [] ∧ s.data h m = [] ∧ Paired (s.asked m h) (s.answered h m)
  | some t => ∃ op hit, Waiting cfg s m h t op hit

structure Wired (cfg : Config) (s : State) : Prop where
  link : ∀ m h, LinkInv cfg s m h
  lock : ∀ m t op hit, waits ((s.nodes m).phase t) = some (op, hit) → cfg.home op.addr ≠ m →
    s.dataLock m (cfg.home op.addr) = some t
  own : ∀ m t call, s.calls m (.thread t) = some call → call.src = m ∧
    ∃ op hit, waits ((s.nodes m).phase t) = some (op, hit) ∧ cfg.home op.addr = m ∧
      call.msg = ownRequest op hit
  src : ∀ h p x call, s.calls h (.handler p x) = some call → call.src = p ∧ p ≠ h
  self : ∀ m, s.dataLock m m = none

theorem wired_start (cfg : Config) (junk : Nat → Fin cacheSize → CacheBlock) (backend : Memory) :
    Wired cfg (start junk backend) where
  link _ _ := ⟨rfl, rfl, List.Forall₂.nil⟩
  lock _ _ _ _ h := by cases h
  own _ _ _ h := by cases h
  src _ _ _ _ h := by cases h
  self _ := rfl

section Links

variable {cfg : Config} {s s' : State} {m n t h : Nat} {c : Caller} {op : Op} {hit : Bool}

/-- The two states show the same at the link from `m` to `n`. -/
structure SameLink (s s' : State) (m n : Nat) : Prop where
  lock : s'.dataLock m n = s.dataLock m n
  out : (outstanding s' m n).Perm (outstanding s m n)
  data : s'.data n m = s.data n m
  asked : s'.asked m n = s.asked m n
  answered : s'.answered n m = s.answered n m
  waits : ∀ t, s.dataLock m n = some t → waits ((s'.nodes m).phase t) = waits ((s.nodes m).phase t)

theorem LinkInv.congr (hlink : LinkInv cfg s m n) (hsame : SameLink s s' m n) : LinkInv cfg s' m n := by
  obtain ⟨hlock, hout, hdata, hasked, hanswered, hwaits⟩ := hsame
  unfold LinkInv at hlink ⊢
  rw [hlock]
  cases hholder : s.dataLock m n with
  | none =>
      rw [hholder] at hlink
      obtain ⟨hnone, hnil, hpaired⟩ := hlink
      rw [hnone] at hout
      rw [hdata, hasked, hanswered]
      exact ⟨hout.eq_nil, hnil, hpaired⟩
  | some t =>
      rw [hholder] at hlink
      obtain ⟨op, hit, hop, hhome, hplace⟩ := hlink
      refine ⟨op, hit, (hwaits t hholder).trans hop, hhome, ?_⟩
      rw [hdata, hasked, hanswered]
      rcases hplace with ⟨hreq, hnil, hpaired⟩ | ⟨hreq, hreply⟩
      · rw [hreq] at hout
        exact Or.inl ⟨List.perm_singleton.mp hout, hnil, hpaired⟩
      · rw [hreq] at hout
        exact Or.inr ⟨hout.eq_nil, hreply⟩

/-- The holder of the data socket of a link waits at its end. -/
theorem LinkInv.holder (hlink : LinkInv cfg s m n) (hlock : s.dataLock m n = some t) :
    ∃ op hit, Waiting cfg s m n t op hit := by
  unfold LinkInv at hlink
  rwa [hlock] at hlink

theorem LinkInv.holder_home (hlink : LinkInv cfg s m n) (hlock : s.dataLock m n = some t)
    (hop : waits ((s.nodes m).phase t) = some (op, hit)) : cfg.home op.addr = n := by
  obtain ⟨op', hit', hwait⟩ := hlink.holder hlock
  have hsame := hwait.waits
  rw [hop] at hsame
  obtain ⟨rfl, rfl⟩ := Prod.mk.inj (Option.some.inj hsame)
  exact hwait.home

/-- A thread that does not wait holds no data socket. -/
theorem LinkInv.not_holder (hlink : LinkInv cfg s m n) (hnone : waits ((s.nodes m).phase t) = none) :
    s.dataLock m n ≠ some t := by
  intro hlock
  obtain ⟨op', hit', hwait⟩ := hlink.holder hlock
  rw [hwait.waits] at hnone
  cases hnone

/-- A link with a request has a thread that waits for it. -/
theorem LinkInv.of_mem {msg : Message} (hlink : LinkInv cfg s m n) (hmsg : msg ∈ outstanding s m n) :
    ∃ t op hit, s.dataLock m n = some t ∧ Waiting cfg s m n t op hit ∧ msg = requestOf op hit ∧
      outstanding s m n = [msg] ∧ s.data n m = [] ∧
      ∃ served, s.asked m n = served ++ [msg] ∧ Paired served (s.answered n m) := by
  unfold LinkInv at hlink
  cases hholder : s.dataLock m n with
  | none =>
      rw [hholder] at hlink
      rw [hlink.1] at hmsg
      cases hmsg
  | some t =>
      rw [hholder] at hlink
      obtain ⟨op, hit, hwait⟩ := hlink
      rcases hwait.place with ⟨hreq, hnil, hpaired⟩ | ⟨hreq, -⟩
      · rw [hreq] at hmsg
        obtain rfl := List.mem_singleton.mp hmsg
        exact ⟨t, op, hit, rfl, hwait, rfl, hreq, hnil, hpaired⟩
      · rw [hreq] at hmsg
        cases hmsg

theorem mem_handled {call : Call} (hcall : s.calls h c = some call) (hreq : call.msg.isRequest = true) :
    call.msg ∈ handled s h c := by
  unfold handled
  rw [hcall]
  exact List.mem_filter.mpr ⟨List.mem_singleton.mpr rfl, hreq⟩

theorem mem_outstanding_of_call {p : Nat} {x : Bool} {call : Call}
    (hcall : s.calls h (.handler p x) = some call) (hreq : call.msg.isRequest = true) :
    call.msg ∈ outstanding s p h := by
  have hmem := mem_handled hcall hreq
  apply List.mem_append_right
  cases x with
  | false => exact List.mem_append_left _ hmem
  | true => exact List.mem_append_right _ hmem

/-- A thread waits for the request that a server function is about. -/
theorem Wired.call_waits {call : Call} (hw : Wired cfg s) (hcall : s.calls h c = some call)
    (hreq : call.msg.isRequest = true) :
    ∃ t op hit, waits ((s.nodes call.src).phase t) = some (op, hit) ∧ cfg.home op.addr = h ∧
      (call.msg = requestOf op hit ∨ call.msg = ownRequest op hit) := by
  cases c with
  | thread t =>
      obtain ⟨hsrc, op, hit, hop, hhome, hmsg⟩ := hw.own h t call hcall
      rw [hsrc]
      exact ⟨t, op, hit, hop, hhome, Or.inr hmsg⟩
  | handler p x =>
      have hmem := mem_outstanding_of_call hcall hreq
      obtain ⟨t, op, hit, -, hwait, hmsg, -⟩ := (hw.link p h).of_mem hmem
      rw [(hw.src h p x call hcall).1]
      exact ⟨t, op, hit, hwait.waits, hwait.home, Or.inl hmsg⟩

/-! ## Steps that keep the requests where they are -/

theorem outstanding_congr (hcontrol : (s'.control m n).filter Message.isRequest =
      (s.control m n).filter Message.isRequest)
    (hhandled : ∀ x, handled s' n (.handler m x) = handled s n (.handler m x)) :
    outstanding s' m n = outstanding s m n := by
  unfold outstanding
  rw [hcontrol, hhandled, hhandled]

/-- What the links do not depend on may change. -/
structure SameWires (s s' : State) : Prop where
  control : ∀ m h, (s'.control m h).filter Message.isRequest = (s.control m h).filter Message.isRequest
  data : s'.data = s.data
  lock : s'.dataLock = s.dataLock
  asked : s'.asked = s.asked
  answered : s'.answered = s.answered
  waits : ∀ m t, waits ((s'.nodes m).phase t) = waits ((s.nodes m).phase t)

theorem Wired.congr (hw : Wired cfg s) (hsame : SameWires s s')
    (hcalls : ∀ h c call', s'.calls h c = some call' →
      ∃ call, s.calls h c = some call ∧ call'.src = call.src ∧ call'.msg = call.msg)
    (hhandled : ∀ h c, handled s' h c = handled s h c) : Wired cfg s' := by
  obtain ⟨hcontrol, hdata, hlock, hasked, hanswered, hwaits⟩ := hsame
  constructor
  · intro m n
    refine (hw.link m n).congr ⟨?_, ?_, ?_, ?_, ?_, fun t _ => hwaits m t⟩
    · rw [hlock]
    · rw [outstanding_congr (hcontrol m n) fun x => hhandled n _]
    · rw [hdata]
    · rw [hasked]
    · rw [hanswered]
  · intro m t op hit hop hhome
    rw [hwaits] at hop
    rw [hlock]
    exact hw.lock m t op hit hop hhome
  · intro m t call' hcall'
    obtain ⟨call, hcall, hsrc, hmsg⟩ := hcalls m (.thread t) call' hcall'
    rw [hwaits, hsrc, hmsg]
    exact hw.own m t call hcall
  · intro h p x call' hcall'
    obtain ⟨call, hcall, hsrc, -⟩ := hcalls h (.handler p x) call' hcall'
    rw [hsrc]
    exact hw.src h p x call hcall
  · intro m
    rw [hlock]
    exact hw.self m

/-- A step in which no server function changes. -/
theorem Wired.sameCalls (hw : Wired cfg s) (hsame : SameWires s s') (hcalls : s'.calls = s.calls) :
    Wired cfg s' := by
  apply hw.congr hsame
  · intro h c call hcall
    rw [hcalls] at hcall
    exact ⟨call, hcall, rfl, rfl⟩
  · intro h c
    unfold handled
    rw [hcalls]

theorem handled_of_ne {call : Option Call} {h' : Nat} {c' : Caller}
    (hcalls : s'.calls = setTwo s.calls h c call) (hne : ¬(h' = h ∧ c' = c)) :
    handled s' h' c' = handled s h' c' := by
  unfold handled
  rw [hcalls, setTwo_of_ne _ _ _ _ hne]

/-- A server function goes on. -/
theorem Wired.stage {src : Nat} {msg : Message} {stage stage' : Stage} (hw : Wired cfg s)
    (hcall : s.calls h c = some ⟨src, msg, stage⟩) (hsame : SameWires s s')
    (hcalls : s'.calls = setTwo s.calls h c (some ⟨src, msg, stage'⟩)) : Wired cfg s' := by
  apply hw.congr hsame
  · intro h' c' call' hcall'
    by_cases heq : h' = h ∧ c' = c
    · obtain ⟨rfl, rfl⟩ := heq
      rw [hcalls, setTwo_self] at hcall'
      obtain rfl := Option.some.inj hcall'
      exact ⟨_, hcall, rfl, rfl⟩
    · rw [hcalls, setTwo_of_ne _ _ _ _ heq] at hcall'
      exact ⟨call', hcall', rfl, rfl⟩
  · intro h' c'
    by_cases heq : h' = h ∧ c' = c
    · obtain ⟨rfl, rfl⟩ := heq
      unfold handled
      rw [hcalls, setTwo_self, hcall]
    · exact handled_of_ne hcalls heq

theorem calls_of_setTwo_none (hcalls : s'.calls = setTwo s.calls h c none) {h' : Nat} {c' : Caller}
    {call : Call} (hcall : s'.calls h' c' = some call) : ¬(h' = h ∧ c' = c) ∧ s.calls h' c' = some call := by
  rw [hcalls] at hcall
  by_cases heq : h' = h ∧ c' = c
  · rw [heq.1, heq.2, setTwo_self] at hcall
    cases hcall
  · rw [setTwo_of_ne _ _ _ _ heq] at hcall
    exact ⟨heq, hcall⟩

/-- A server function that answers nothing ends. -/
theorem Wired.drop {src : Nat} {msg : Message} {stage : Stage} (hw : Wired cfg s)
    (hcall : s.calls h c = some ⟨src, msg, stage⟩) (hmsg : msg.isRequest = false)
    (hsame : SameWires s s') (hcalls : s'.calls = setTwo s.calls h c none) : Wired cfg s' := by
  apply hw.congr hsame
  · intro h' c' call' hcall'
    exact ⟨call', (calls_of_setTwo_none hcalls hcall').2, rfl, rfl⟩
  · intro h' c'
    by_cases heq : h' = h ∧ c' = c
    · obtain ⟨rfl, rfl⟩ := heq
      unfold handled
      rw [hcalls, setTwo_self, hcall]
      simp [hmsg]
    · exact handled_of_ne hcalls heq

/-! ## The threads -/

theorem request_spec {node node' : Node} (hasks : asks (node.phase t) = some (op, hit))
    (hnode : node.request t = some node') :
    waits (node.phase t) = none ∧ waits (node'.phase t) = some (op, hit) ∧
      ∀ t', t' ≠ t → node'.phase t' = node.phase t' := by
  unfold Node.request at hnode
  split at hnode
  · rename_i op' b hphase
    obtain rfl := Option.some.inj hnode
    rw [hphase] at hasks ⊢
    obtain ⟨rfl, rfl⟩ := Prod.mk.inj (Option.some.inj hasks)
    refine ⟨rfl, ?_, fun t' ht' => Function.update_of_ne ht' ..⟩
    exact congrArg waits (Function.update_self t _ node.phase)
  · rename_i op' b hphase
    obtain rfl := Option.some.inj hnode
    rw [hphase] at hasks ⊢
    obtain ⟨rfl, rfl⟩ := Prod.mk.inj (Option.some.inj hasks)
    refine ⟨rfl, ?_, fun t' ht' => Function.update_of_ne ht' ..⟩
    exact congrArg waits (Function.update_self t _ node.phase)
  · cases hnode

theorem reply_spec {node node' : Node} {words : List Word} (hnode : node.reply t words = some node') :
    waits (node'.phase t) = none ∧ ∀ t', t' ≠ t → node'.phase t' = node.phase t' := by
  unfold Node.reply at hnode
  split at hnode
  · obtain rfl := Option.some.inj hnode
    refine ⟨?_, fun t' ht' => Function.update_of_ne ht' ..⟩
    exact congrArg waits (Function.update_self t _ node.phase)
  · obtain rfl := Option.some.inj hnode
    refine ⟨?_, fun t' ht' => Function.update_of_ne ht' ..⟩
    exact congrArg waits (Function.update_self t _ node.phase)
  · cases hnode

/-- A change of place that has nothing to do with requests. -/
theorem waits_update {node node' : Node} {ph₀ ph : Phase} (hphase : node.phase t = ph₀)
    (hupdate : node'.phase = Function.update node.phase t ph) (hold : waits ph₀ = none)
    (hnew : waits ph = none) (t' : Nat) : waits (node'.phase t') = waits (node.phase t') := by
  rw [hupdate]
  by_cases ht : t' = t
  · rw [ht, Function.update_self, hphase, hold, hnew]
  · rw [Function.update_of_ne ht]

theorem waits_acted {node node' : Node} {a : CacheThreads.Act} (hact : Acted node t a node') (t' : Nat) :
    waits (node'.phase t') = waits (node.phase t') := by
  cases hact with
  | abort hphase => rfl
  | @finishHit op b hphase =>
      have hsame := (CacheThreads.callback_frame node b op).2.2.2
      exact waits_update hphase (congrArg (Function.update · t _) hsame) rfl rfl t'
  | @finishMiss op b hphase =>
      have hsame := (CacheThreads.callback_frame (node.stamp b) b op).2.2.2
      exact waits_update hphase (congrArg (Function.update · t _) hsame) rfl rfl t'
  | lookupFound hphase => exact waits_update hphase rfl rfl rfl t'
  | lookupMissing hphase => exact waits_update hphase rfl rfl rfl t'
  | hitGet hphase => exact waits_update hphase rfl rfl rfl t'
  | hitPut hphase => exact waits_update hphase rfl rfl rfl t'
  | changed hphase => exact waits_update hphase rfl rfl rfl t'
  | pending hphase => exact waits_update hphase rfl rfl rfl t'
  | take hphase => exact waits_update hphase rfl rfl rfl t'
  | evict hphase => exact waits_update hphase rfl rfl rfl t'
  | lockTaken hphase => exact waits_update hphase rfl rfl rfl t'
  | lockEvicted hphase => exact waits_update hphase rfl rfl rfl t'

/-- The threads of one node change in nothing that the links are about. -/
theorem waits_setNode {node : Node} (hnode : ∀ t, waits (node.phase t) = waits ((s.nodes m).phase t))
    (m' t : Nat) : waits ((Function.update s.nodes m node m').phase t) = waits ((s.nodes m').phase t) := by
  by_cases hm : m' = m
  · rw [hm, Function.update_self, hnode]
  · rw [Function.update_of_ne hm]

/-- Only the thread `t` of node `m` changes its place. -/
theorem waits_of_update {node : Node} (hnodes : s'.nodes = Function.update s.nodes m node)
    (hnode : ∀ t', t' ≠ t → node.phase t' = (s.nodes m).phase t') {m' t' : Nat}
    (hne : ¬(m' = m ∧ t' = t)) :
    waits ((s'.nodes m').phase t') = waits ((s.nodes m').phase t') := by
  rw [hnodes]
  by_cases hm : m' = m
  · subst hm
    rw [Function.update_self]
    exact congrArg waits (hnode t' fun ht => hne ⟨rfl, ht⟩)
  · rw [Function.update_of_ne hm]

theorem waits_of_update_self {node : Node} (hnodes : s'.nodes = Function.update s.nodes m node) :
    waits ((s'.nodes m).phase t) = waits (node.phase t) := by
  rw [hnodes, Function.update_self]

/-- A server function of a thread is none of a socket. -/
theorem handled_of_thread {call : Option Call} (hcalls : s'.calls = setTwo s.calls h (.thread t) call)
    (n p : Nat) (x : Bool) : handled s' n (.handler p x) = handled s n (.handler p x) := by
  apply handled_of_ne hcalls
  rintro ⟨-, heq⟩
  cases heq

/-! ## Steps of the threads -/

section Thread

variable {node : Node}

/-- A thread of the home itself calls the server function. -/
theorem wired_requestOwn (hw : Wired cfg s) (hasks : asks ((s.nodes m).phase t) = some (op, hit))
    (hnode : (s.nodes m).request t = some node) (hhome : cfg.home op.addr = m) :
    Wired cfg ((s.setNode m node).setCall m (.thread t) (some ⟨m, ownRequest op hit, .entry⟩)) := by
  obtain ⟨s', hs'⟩ : ∃ s', s' = (s.setNode m node).setCall m (.thread t)
    (some ⟨m, ownRequest op hit, .entry⟩) := ⟨_, rfl⟩
  obtain ⟨hold, hnew, hother⟩ := request_spec hasks hnode
  have hnodes : s'.nodes = Function.update s.nodes m node := hs' ▸ rfl
  have hcalls : s'.calls = setTwo s.calls m (.thread t) (some ⟨m, ownRequest op hit, .entry⟩) := hs' ▸ rfl
  have hcontrol : s'.control = s.control := hs' ▸ rfl
  have hlock : s'.dataLock = s.dataLock := hs' ▸ rfl
  have hself := (waits_of_update_self (t := t) hnodes).trans hnew
  have hwaits : ∀ m' t', ¬(m' = m ∧ t' = t) → waits ((s'.nodes m').phase t') = waits ((s.nodes m').phase t') :=
    fun _ _ => waits_of_update hnodes hother
  rw [← hs']
  constructor
  · intro m' n
    refine (hw.link m' n).congr ⟨by rw [hlock], ?_, by rw [hs']; rfl, by rw [hs']; rfl, by rw [hs']; rfl, ?_⟩
    · exact List.Perm.of_eq (outstanding_congr (by rw [hcontrol]) (handled_of_thread hcalls n m'))
    · intro t' hholder
      apply hwaits
      rintro ⟨rfl, rfl⟩
      exact (hw.link m' n).not_holder hold hholder
  · intro m' t' op' hit' hop hne
    rw [hlock]
    by_cases heq : m' = m ∧ t' = t
    · obtain ⟨rfl, rfl⟩ := heq
      rw [hself] at hop
      obtain ⟨rfl, rfl⟩ := Prod.mk.inj (Option.some.inj hop)
      exact absurd hhome hne
    · rw [hwaits m' t' heq] at hop
      exact hw.lock m' t' op' hit' hop hne
  · intro m' t' call hcall
    rw [hcalls] at hcall
    by_cases heq : m' = m ∧ t' = t
    · obtain ⟨rfl, rfl⟩ := heq
      rw [setTwo_self] at hcall
      obtain rfl := Option.some.inj hcall
      exact ⟨rfl, op, hit, hself, hhome, rfl⟩
    · rw [setTwo_of_ne _ _ _ _ (fun hc => heq ⟨hc.1, Caller.thread.inj hc.2⟩)] at hcall
      rw [hwaits m' t' heq]
      exact hw.own m' t' call hcall
  · intro h p x call hcall
    rw [hcalls, setTwo_of_ne _ _ _ _ (fun hc => Caller.noConfusion hc.2)] at hcall
    exact hw.src h p x call hcall
  · rw [hlock]
    exact hw.self

theorem isRequest_requestOf (op : Op) (hit : Bool) : (requestOf op hit).isRequest = true := by
  cases op with
  | get addr => rfl
  | put addr v => cases hit <;> rfl

/-- A thread takes the data socket and sends its request. -/
theorem wired_requestSend (hw : Wired cfg s) (hasks : asks ((s.nodes m).phase t) = some (op, hit))
    (hnode : (s.nodes m).request t = some node) (hhome : cfg.home op.addr ≠ m)
    (hfree : s.dataLock m (cfg.home op.addr) = none) :
    Wired cfg (((s.setNode m node).setDataLock m (cfg.home op.addr) (some t)).ask m (cfg.home op.addr)
      (requestOf op hit)) := by
  obtain ⟨s', hs'⟩ : ∃ s', s' = ((s.setNode m node).setDataLock m (cfg.home op.addr) (some t)).ask m
    (cfg.home op.addr) (requestOf op hit) := ⟨_, rfl⟩
  obtain ⟨hold, hnew, hother⟩ := request_spec hasks hnode
  have hnodes : s'.nodes = Function.update s.nodes m node := hs' ▸ rfl
  have hcalls : s'.calls = s.calls := hs' ▸ rfl
  have hcontrol : s'.control = setTwo s.control m (cfg.home op.addr)
    (s.control m (cfg.home op.addr) ++ [requestOf op hit]) := hs' ▸ rfl
  have hlock : s'.dataLock = setTwo s.dataLock m (cfg.home op.addr) (some t) := hs' ▸ rfl
  have hdata : s'.data = s.data := hs' ▸ rfl
  have hasked : s'.asked = setTwo s.asked m (cfg.home op.addr)
    (s.asked m (cfg.home op.addr) ++ [requestOf op hit]) := hs' ▸ rfl
  have hanswered : s'.answered = s.answered := hs' ▸ rfl
  have hhandled : ∀ h c, handled s' h c = handled s h c := fun h c => by
    unfold handled
    rw [hcalls]
  have hself := (waits_of_update_self (t := t) hnodes).trans hnew
  have hwaits : ∀ m' t', ¬(m' = m ∧ t' = t) → waits ((s'.nodes m').phase t') = waits ((s.nodes m').phase t') :=
    fun _ _ => waits_of_update hnodes hother
  rw [← hs']
  constructor
  · intro m' n
    by_cases heq : m' = m ∧ n = cfg.home op.addr
    · obtain ⟨rfl, rfl⟩ := heq
      have hlink := hw.link m' (cfg.home op.addr)
      unfold LinkInv at hlink ⊢
      rw [hfree] at hlink
      obtain ⟨hnone, hnil, hpaired⟩ := hlink
      rw [hlock, setTwo_self]
      refine ⟨op, hit, hself, rfl, Or.inl ⟨?_, hdata ▸ hnil, s.asked m' (cfg.home op.addr), ?_, ?_⟩⟩
      · -- nothing was on the link before the request
        unfold outstanding at hnone ⊢
        rw [hhandled, hhandled, hcontrol, setTwo_self, List.filter_append]
        simp only [List.append_eq_nil_iff] at hnone
        rw [hnone.1, hnone.2.1, hnone.2.2]
        simp [isRequest_requestOf]
      · rw [hasked, setTwo_self]
      · rw [hanswered]
        exact hpaired
    · refine (hw.link m' n).congr ⟨?_, List.Perm.of_eq (outstanding_congr ?_ fun x => hhandled n _), ?_, ?_, ?_, ?_⟩
      · rw [hlock, setTwo_of_ne _ _ _ _ heq]
      · rw [hcontrol, setTwo_of_ne _ _ _ _ heq]
      · rw [hdata]
      · rw [hasked, setTwo_of_ne _ _ _ _ heq]
      · rw [hanswered]
      · intro t' hholder
        apply hwaits
        rintro ⟨rfl, rfl⟩
        exact (hw.link m' n).not_holder hold hholder
  · intro m' t' op' hit' hop hne
    by_cases heq : m' = m ∧ t' = t
    · obtain ⟨rfl, rfl⟩ := heq
      rw [hself] at hop
      obtain ⟨rfl, rfl⟩ := Prod.mk.inj (Option.some.inj hop)
      rw [hlock, setTwo_self]
    · rw [hwaits m' t' heq] at hop
      have hmine := hw.lock m' t' op' hit' hop hne
      rw [hlock, setTwo_of_ne, hmine]
      rintro ⟨rfl, hsame⟩
      rw [hsame, hfree] at hmine
      cases hmine
  · intro m' t' call hcall
    rw [hcalls] at hcall
    obtain ⟨hsrc, op', hit', hop, hhome', hmsg⟩ := hw.own m' t' call hcall
    refine ⟨hsrc, op', hit', ?_, hhome', hmsg⟩
    rw [hwaits m' t', hop]
    rintro ⟨rfl, rfl⟩
    rw [hop] at hold
    cases hold
  · rw [hcalls]
    exact hw.src
  · intro m'
    rw [hlock, setTwo_of_ne, hw.self]
    rintro ⟨rfl, heq⟩
    exact hhome heq.symm

/-- A thread gets its answer and gives the data socket back. -/
theorem wired_reply {r : Reply} {rest : List Reply} {words : List Word} (hw : Wired cfg s)
    (hop : waits ((s.nodes m).phase t) = some (op, hit))
    (hholder : s.dataLock m (cfg.home op.addr) = some t) (hreply : s.data (cfg.home op.addr) m = r :: rest)
    (hnode : (s.nodes m).reply t words = some node) :
    Wired cfg (((s.setNode m node).setData (cfg.home op.addr) m rest).setDataLock m (cfg.home op.addr) none) := by
  obtain ⟨s', hs'⟩ : ∃ s', s' = ((s.setNode m node).setData (cfg.home op.addr) m rest).setDataLock m
    (cfg.home op.addr) none := ⟨_, rfl⟩
  obtain ⟨hnew, hother⟩ := reply_spec hnode
  have hnodes : s'.nodes = Function.update s.nodes m node := hs' ▸ rfl
  have hcalls : s'.calls = s.calls := hs' ▸ rfl
  have hcontrol : s'.control = s.control := hs' ▸ rfl
  have hlock : s'.dataLock = setTwo s.dataLock m (cfg.home op.addr) none := hs' ▸ rfl
  have hdata : s'.data = setTwo s.data (cfg.home op.addr) m rest := hs' ▸ rfl
  have hasked : s'.asked = s.asked := hs' ▸ rfl
  have hanswered : s'.answered = s.answered := hs' ▸ rfl
  have hout : ∀ m' n, outstanding s' m' n = outstanding s m' n := fun m' n => by
    unfold outstanding handled
    rw [hcalls, hcontrol]
  have hself := (waits_of_update_self (t := t) hnodes).trans hnew
  have hwaits : ∀ m' t', ¬(m' = m ∧ t' = t) → waits ((s'.nodes m').phase t') = waits ((s.nodes m').phase t') :=
    fun _ _ => waits_of_update hnodes hother
  rw [← hs']
  constructor
  · intro m' n
    by_cases heq : m' = m ∧ n = cfg.home op.addr
    · obtain ⟨rfl, rfl⟩ := heq
      obtain ⟨op', hit', hwait⟩ := (hw.link m' (cfg.home op.addr)).holder hholder
      unfold LinkInv
      rw [hlock, setTwo_self]
      rcases hwait.place with ⟨-, hnil, -⟩ | ⟨hnone, r', hone, -, hpaired⟩
      · rw [hreply] at hnil
        cases hnil
      · rw [hreply] at hone
        refine ⟨(hout _ _).trans hnone, ?_, ?_⟩
        · rw [hdata, setTwo_self]
          exact (List.cons.inj hone).2
        · rw [hasked, hanswered]
          exact hpaired
    · have hne : ¬(n = cfg.home op.addr ∧ m' = m) := fun hc => heq hc.symm
      refine (hw.link m' n).congr ⟨?_, List.Perm.of_eq (hout m' n), ?_, ?_, ?_, ?_⟩
      · rw [hlock, setTwo_of_ne _ _ _ _ heq]
      · rw [hdata, setTwo_of_ne _ _ _ _ hne]
      · rw [hasked]
      · rw [hanswered]
      · intro t' hholder'
        apply hwaits
        rintro ⟨rfl, rfl⟩
        exact heq ⟨rfl, ((hw.link m' n).holder_home hholder' hop).symm⟩
  · intro m' t' op' hit' hop' hne
    by_cases heq : m' = m ∧ t' = t
    · obtain ⟨rfl, rfl⟩ := heq
      rw [hself] at hop'
      cases hop'
    · rw [hwaits m' t' heq] at hop'
      have hmine := hw.lock m' t' op' hit' hop' hne
      rw [hlock, setTwo_of_ne, hmine]
      rintro ⟨rfl, hsame⟩
      rw [hsame, hholder] at hmine
      exact heq ⟨rfl, (Option.some.inj hmine).symm⟩
  · intro m' t' call hcall
    rw [hcalls] at hcall
    obtain ⟨hsrc, op', hit', hop', hhome', hmsg⟩ := hw.own m' t' call hcall
    refine ⟨hsrc, op', hit', ?_, hhome', hmsg⟩
    rw [hwaits m' t', hop']
    rintro ⟨rfl, rfl⟩
    rw [hop] at hop'
    obtain ⟨rfl, rfl⟩ := Prod.mk.inj (Option.some.inj hop')
    rw [hhome', hw.self] at hholder
    cases hholder
  · rw [hcalls]
    exact hw.src
  · intro m'
    rw [hlock]
    by_cases heq : m' = m ∧ m' = cfg.home op.addr
    · unfold setTwo
      rw [if_pos heq]
    · rw [setTwo_of_ne _ _ _ _ heq, hw.self]

end Thread

/-! ## Steps of the server functions -/

/-- A step of a server function before its answer: it ends, and what the links are about stays. -/
structure Ended (s s₀ : State) (h : Nat) (c : Caller) : Prop where
  nodes : s₀.nodes = s.nodes
  control : s₀.control = s.control
  data : s₀.data = s.data
  lock : s₀.dataLock = s.dataLock
  calls : s₀.calls = setTwo s.calls h c none
  asked : s₀.asked = s.asked
  answered : s₀.answered = s.answered

/-- The home answers its own thread. -/
theorem wired_answerOwn {s₀ : State} {call : Call} {words : List Word} {node : Node} (hw : Wired cfg s)
    (hcall : s.calls h (.thread t) = some call) (hend : Ended s s₀ h (.thread t))
    (hnode : (s.nodes h).reply t words = some node) : Wired cfg (s₀.setNode h node) := by
  obtain ⟨s', hs'⟩ : ∃ s', s' = s₀.setNode h node := ⟨_, rfl⟩
  obtain ⟨-, op, hit, hop, hhome, -⟩ := hw.own h t call hcall
  obtain ⟨hnew, hother⟩ := reply_spec hnode
  have hnodes : s'.nodes = Function.update s.nodes h node := by
    rw [hs', ← hend.nodes]
    rfl
  have hcalls : s'.calls = setTwo s.calls h (.thread t) none := by
    rw [hs', ← hend.calls]
    rfl
  have hcontrol : s'.control = s.control := hs' ▸ hend.control
  have hlock : s'.dataLock = s.dataLock := hs' ▸ hend.lock
  have hdata : s'.data = s.data := hs' ▸ hend.data
  have hasked : s'.asked = s.asked := hs' ▸ hend.asked
  have hanswered : s'.answered = s.answered := hs' ▸ hend.answered
  have hself := (waits_of_update_self (t := t) hnodes).trans hnew
  have hwaits : ∀ m' t', ¬(m' = h ∧ t' = t) → waits ((s'.nodes m').phase t') = waits ((s.nodes m').phase t') :=
    fun _ _ => waits_of_update hnodes hother
  rw [← hs']
  constructor
  · intro m' n
    refine (hw.link m' n).congr ⟨by rw [hlock], List.Perm.of_eq (outstanding_congr (by rw [hcontrol])
      (handled_of_thread hcalls n m')), by rw [hdata], by rw [hasked], by rw [hanswered], ?_⟩
    intro t' hholder
    apply hwaits
    rintro ⟨rfl, rfl⟩
    rw [← (hw.link m' n).holder_home hholder hop, hhome, hw.self] at hholder
    cases hholder
  · intro m' t' op' hit' hop' hne
    rw [hlock]
    by_cases heq : m' = h ∧ t' = t
    · obtain ⟨rfl, rfl⟩ := heq
      rw [hself] at hop'
      cases hop'
    · rw [hwaits m' t' heq] at hop'
      exact hw.lock m' t' op' hit' hop' hne
  · intro m' t' call' hcall'
    obtain ⟨hne, hcall'⟩ := calls_of_setTwo_none hcalls hcall'
    rw [hwaits m' t' fun hc => hne ⟨hc.1, congrArg Caller.thread hc.2⟩]
    exact hw.own m' t' call' hcall'
  · intro n p x call' hcall'
    exact hw.src n p x call' (calls_of_setTwo_none hcalls hcall').2
  · rw [hlock]
    exact hw.self

/-- When the one request of a link is answered, no request is left. -/
theorem outstanding_answered {p : Nat} {x : Bool} {call : Call}
    (hcall : s.calls h (.handler p x) = some call) (hreq : call.msg.isRequest = true)
    (hone : outstanding s p h = [call.msg]) (hcontrol : s'.control = s.control)
    (hcalls : s'.calls = setTwo s.calls h (.handler p x) none) : outstanding s' p h = [] := by
  have hmem := mem_handled hcall hreq
  have hmine : handled s' h (.handler p x) = [] := by
    unfold handled
    rw [hcalls, setTwo_self]
  have hother : handled s' h (.handler p !x) = handled s h (.handler p !x) := by
    apply handled_of_ne hcalls
    rintro ⟨-, heq⟩
    cases x <;> cases heq
  have hlength := congrArg List.length hone
  have hpos := List.length_pos_of_mem hmem
  unfold outstanding at hlength ⊢
  rw [List.eq_nil_iff_length_eq_zero]
  rw [hcontrol]
  cases x with
  | false =>
      rw [Bool.not_false] at hother
      rw [hmine, hother]
      simp only [List.length_append, List.length_nil, List.length_singleton] at hlength ⊢
      omega
  | true =>
      rw [Bool.not_true] at hother
      rw [hmine, hother]
      simp only [List.length_append, List.length_nil, List.length_singleton] at hlength ⊢
      omega

/-- The home answers over the data socket. -/
theorem wired_answer {s₀ : State} {call : Call} {p : Nat} {x : Bool} {r : Reply} (hw : Wired cfg s)
    (hcall : s.calls h (.handler p x) = some call) (hreq : call.msg.isRequest = true)
    (hfits : (fits call.msg r).isSome = true) (hend : Ended s s₀ h (.handler p x)) :
    Wired cfg (s₀.sendData h p r) := by
  obtain ⟨s', hs'⟩ : ∃ s', s' = s₀.sendData h p r := ⟨_, rfl⟩
  have hnodes : s'.nodes = s.nodes := hs' ▸ hend.nodes
  have hcalls : s'.calls = setTwo s.calls h (.handler p x) none := hs' ▸ hend.calls
  have hcontrol : s'.control = s.control := hs' ▸ hend.control
  have hlock : s'.dataLock = s.dataLock := hs' ▸ hend.lock
  have hdata : s'.data = setTwo s.data h p (s.data h p ++ [r]) := by
    rw [hs', ← hend.data]
    rfl
  have hasked : s'.asked = s.asked := hs' ▸ hend.asked
  have hanswered : s'.answered = setTwo s.answered h p (s.answered h p ++ [r]) := by
    rw [hs', ← hend.answered]
    rfl
  rw [← hs']
  constructor
  · intro m' n
    by_cases heq : m' = p ∧ n = h
    · obtain ⟨rfl, rfl⟩ := heq
      have hmem := mem_outstanding_of_call hcall hreq
      obtain ⟨t, op, hit, hholder, hwait, hmsg, hone, hnil, served, hserved, hpaired⟩ :=
        (hw.link m' n).of_mem hmem
      unfold LinkInv
      rw [hlock, hholder]
      refine ⟨op, hit, hnodes ▸ hwait.waits, hwait.home, Or.inr ⟨?_, r, ?_, hmsg ▸ hfits, ?_⟩⟩
      · exact outstanding_answered hcall hreq hone hcontrol hcalls
      · rw [hdata, setTwo_self, hnil]
        rfl
      · rw [hasked, hserved, hanswered, setTwo_self]
        exact List.rel_append hpaired (List.Forall₂.cons hfits List.Forall₂.nil)
    · have hne : ¬(n = h ∧ m' = p) := fun hc => heq hc.symm
      refine (hw.link m' n).congr ⟨by rw [hlock], List.Perm.of_eq (outstanding_congr (by rw [hcontrol])
        fun y => handled_of_ne hcalls ?_), ?_, by rw [hasked], ?_, fun t _ => by rw [hnodes]⟩
      · rintro ⟨rfl, hc⟩
        exact heq ⟨(Caller.handler.inj hc).1, rfl⟩
      · rw [hdata, setTwo_of_ne _ _ _ _ hne]
      · rw [hanswered, setTwo_of_ne _ _ _ _ hne]
  · intro m' t' op' hit' hop' hne
    rw [hnodes] at hop'
    rw [hlock]
    exact hw.lock m' t' op' hit' hop' hne
  · intro m' t' call' hcall'
    rw [hnodes]
    exact hw.own m' t' call' (calls_of_setTwo_none hcalls hcall').2
  · intro n p' x' call' hcall'
    exact hw.src n p' x' call' (calls_of_setTwo_none hcalls hcall').2
  · rw [hlock]
    exact hw.self

/-- A server function ends with the answer to its request. -/
theorem Wired.answered {s₀ : State} {call : Call} {r : Reply} (hw : Wired cfg s)
    (hcall : s.calls h c = some call) (hreq : call.msg.isRequest = true)
    (hanswer : answer s₀ h c call.src r = some s') (hfits : (fits call.msg r).isSome = true)
    (hend : Ended s s₀ h c) : Wired cfg s' := by
  rcases answer_cases hanswer with ⟨p, x, rfl, rfl⟩ | ⟨t, node, rfl, hnode, rfl⟩
  · rw [(hw.src h p x call hcall).1]
    exact wired_answer hw hcall hreq hfits hend
  · rw [hend.nodes] at hnode
    exact wired_answerOwn hw hcall hend hnode

/-- A thread that serves a socket takes the next message. -/
theorem wired_receive {p : Nat} {x : Bool} {msg : Message} {rest : List Message} (hw : Wired cfg s)
    (hpeer : p ≠ h) (hcall : s.calls h (.handler p x) = none) (hmsgs : s.control p h = msg :: rest) :
    Wired cfg ((s.setControl p h rest).setCall h (.handler p x) (some ⟨p, msg, .entry⟩)) := by
  obtain ⟨s', hs'⟩ : ∃ s', s' = (s.setControl p h rest).setCall h (.handler p x) (some ⟨p, msg, .entry⟩) :=
    ⟨_, rfl⟩
  have hcalls : s'.calls = setTwo s.calls h (.handler p x) (some ⟨p, msg, .entry⟩) := hs' ▸ rfl
  have hcontrol : s'.control = setTwo s.control p h rest := hs' ▸ rfl
  have hother : ∀ n m y, ¬(n = h ∧ Caller.handler m y = .handler p x) →
      handled s' n (.handler m y) = handled s n (.handler m y) := fun n m y hne => handled_of_ne hcalls hne
  have hmine : handled s' h (.handler p x) = [msg].filter Message.isRequest := by
    unfold handled
    rw [hcalls, setTwo_self]
  have hnone : handled s h (.handler p x) = [] := by
    unfold handled
    rw [hcall]
  rw [← hs']
  constructor
  · intro m' n
    refine (hw.link m' n).congr ⟨by rw [hs']; rfl, ?_, by rw [hs']; rfl, by rw [hs']; rfl, by rw [hs']; rfl,
      fun t _ => by rw [hs']; rfl⟩
    by_cases heq : m' = p ∧ n = h
    · obtain ⟨rfl, rfl⟩ := heq
      -- the message moves from the socket to the thread that serves it
      have hfilter : (s.control m' n).filter Message.isRequest =
          [msg].filter Message.isRequest ++ rest.filter Message.isRequest := by
        rw [hmsgs, ← List.filter_append]
        rfl
      unfold outstanding
      rw [hcontrol, setTwo_self, hfilter]
      cases x with
      | false =>
          rw [hmine, hnone, hother n m' true (fun hc => by simp at hc), List.nil_append, List.append_assoc]
          exact (List.perm_append_comm_assoc _ _ _)
      | true =>
          rw [hmine, hnone, hother n m' false (fun hc => by simp at hc), List.append_nil, ← List.append_assoc]
          exact List.perm_append_comm.trans (List.Perm.of_eq (List.append_assoc _ _ _).symm)
    · refine List.Perm.of_eq (outstanding_congr ?_ fun y => hother n m' y ?_)
      · rw [hcontrol, setTwo_of_ne _ _ _ _ heq]
      · rintro ⟨rfl, hc⟩
        exact heq ⟨(Caller.handler.inj hc).1, rfl⟩
  · rw [hs']
    exact hw.lock
  · intro m' t' call' hcall'
    rw [hcalls, setTwo_of_ne _ _ _ _ (fun hc => Caller.noConfusion hc.2)] at hcall'
    rw [hs']
    exact hw.own m' t' call' hcall'
  · intro n p' x' call' hcall'
    rw [hcalls] at hcall'
    by_cases heq : n = h ∧ Caller.handler p' x' = .handler p x
    · rw [heq.1, heq.2, setTwo_self] at hcall'
      obtain rfl := Option.some.inj hcall'
      obtain ⟨rfl, rfl⟩ := Caller.handler.inj heq.2
      exact ⟨rfl, heq.1 ▸ hpeer⟩
    · rw [setTwo_of_ne _ _ _ _ heq] at hcall'
      exact hw.src n p' x' call' hcall'
  · rw [hs']
    exact hw.self

/-- What is no request may be sent. -/
theorem filter_send {msg : Message} (hmsg : msg.isRequest = false) (src dst m n : Nat) :
    (setTwo s.control src dst (s.control src dst ++ [msg]) m n).filter Message.isRequest =
      (s.control m n).filter Message.isRequest := by
  by_cases heq : m = src ∧ n = dst
  · obtain ⟨rfl, rfl⟩ := heq
    rw [setTwo_self, List.filter_append]
    simp [hmsg]
  · rw [setTwo_of_ne _ _ _ _ heq]

theorem waits_tryRenew {node node' : Node} {addr : Nat} {v : List Word} {b : Fin cacheSize}
    (hnode : tryRenew node addr v b = some node') (t : Nat) : waits (node'.phase t) = waits (node.phase t) := by
  rw [(sameButWords_tryRenew hnode).phase]

theorem wired_bad (hw : Wired cfg s) : Wired cfg (s.bad m) := by
  refine hw.sameCalls ⟨fun _ _ => rfl, rfl, rfl, rfl, rfl, ?_⟩ rfl
  exact waits_setNode fun _ => rfl

theorem wired_served (hw : Wired cfg s) (hserve : Served cfg s h c s') : Wired cfg s' := by
  cases hserve with
  | renewMiss hcall _ => exact hw.drop hcall rfl ⟨fun _ _ => rfl, rfl, rfl, rfl, rfl, fun _ _ => rfl⟩ rfl
  | renewFound hcall _ => exact hw.stage hcall ⟨fun _ _ => rfl, rfl, rfl, rfl, rfl, fun _ _ => rfl⟩ rfl
  | renewEnd hcall hnode =>
      exact hw.drop hcall rfl ⟨fun _ _ => rfl, rfl, rfl, rfl, rfl, waits_setNode (waits_tryRenew hnode)⟩ rfl
  | writeback hcall _ => exact hw.drop hcall rfl ⟨fun _ _ => rfl, rfl, rfl, rfl, rfl, fun _ _ => rfl⟩ rfl
  | readMiss hcall _ hanswer =>
      refine hw.answered hcall rfl hanswer ?_ ⟨rfl, rfl, rfl, rfl, rfl, rfl, rfl⟩
      simp [fits]
  | store hcall _ => exact hw.stage hcall ⟨fun _ _ => rfl, rfl, rfl, rfl, rfl, fun _ _ => rfl⟩ rfl
  | writeSection hcall _ => exact hw.stage hcall ⟨fun _ _ => rfl, rfl, rfl, rfl, rfl, fun _ _ => rfl⟩ rfl
  | writeMissSection hcall _ => exact hw.stage hcall ⟨fun _ _ => rfl, rfl, rfl, rfl, rfl, fun _ _ => rfl⟩ rfl
  | loopSkip hcall _ _ _ => exact hw.stage hcall ⟨fun _ _ => rfl, rfl, rfl, rfl, rfl, fun _ _ => rfl⟩ rfl
  | loopOwn hcall _ _ _ => exact hw.stage hcall ⟨fun _ _ => rfl, rfl, rfl, rfl, rfl, fun _ _ => rfl⟩ rfl
  | loopSend hcall _ _ _ _ =>
      exact hw.stage hcall ⟨filter_send rfl _ _, rfl, rfl, rfl, rfl, fun _ _ => rfl⟩ rfl
  | innerEnd hcall _ hnode =>
      exact hw.stage hcall ⟨fun _ _ => rfl, rfl, rfl, rfl, rfl, waits_setNode (waits_tryRenew hnode)⟩ rfl
  | writeEnd hcall _ hanswer =>
      refine hw.answered hcall rfl hanswer ?_ ⟨rfl, rfl, rfl, rfl, rfl, rfl, rfl⟩
      simp [fits]
  | writeMissEnd hcall _ hanswer =>
      refine hw.answered hcall rfl hanswer ?_ ⟨rfl, rfl, rfl, rfl, rfl, rfl, rfl⟩
      simp [fits]
  | bad => exact wired_bad hw

theorem wired_step {a : Act} (hw : Wired cfg s) (hstep : Stepped cfg s a s') : Wired cfg s' := by
  cases hstep with
  | cache hact ha _ =>
      refine hw.sameCalls ⟨fun _ _ => rfl, rfl, rfl, rfl, rfl, ?_⟩ rfl
      exact waits_setNode (waits_acted (acted_of_act hact ha))
  | writebackOwn hphase _ _ =>
      refine hw.sameCalls ⟨fun _ _ => rfl, rfl, rfl, rfl, rfl, ?_⟩ rfl
      exact waits_setNode (waits_update hphase rfl rfl rfl)
  | writebackSend hphase _ =>
      refine hw.sameCalls ⟨filter_send rfl _ _, rfl, rfl, rfl, rfl, ?_⟩ rfl
      exact waits_setNode (waits_update hphase rfl rfl rfl)
  | requestOwn hasks hnode hhome => exact wired_requestOwn hw hasks hnode hhome
  | requestSend hasks hnode hhome hlock => exact wired_requestSend hw hasks hnode hhome hlock
  | reply hwaits hlock hdata _ hnode => exact wired_reply hw hwaits hlock hdata hnode
  | replyBad => exact wired_bad hw
  | receive hpeer hcall hcontrol => exact wired_receive hw hpeer hcall hcontrol
  | serve hserve => exact wired_served hw hserve

end Links

end Dogee.CacheCluster
