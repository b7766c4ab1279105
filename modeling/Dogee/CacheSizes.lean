import Dogee.CachePairing

/-!
# Sizes in a cluster of caches

The words of a call lie in one block, and so do those of the messages that come of it. A block with a
key holds as many words as a block has, and so does the answer to a miss. So no copy is larger than the
block it goes to.
-/

namespace Dogee.CacheCluster

open CacheThreads (Op Node Phase)

/-- The call that a thread is in. -/
def opOf : Phase → Option Op
  | .idle => none
  | .found op _ => some op
  | .missing op => some op
  | .taking op _ => some op
  | .evicting op _ => some op
  | .writingBack op _ _ => some op
  | .filling op _ _ => some op
  | .filled op _ => some op
  | .reading op _ _ => some op

/-- The words of the message lie in one block. -/
def Message.inBlock : Message → Prop
  | .writeMiss addr v => addr % blockSize + v.length ≤ blockSize
  | .write addr v => addr % blockSize + v.length ≤ blockSize
  | .renew addr v => addr % blockSize + v.length ≤ blockSize
  | _ => True

/-- The blocks with a key hold the words of a block. -/
def FullBlocks (node : Node) : Prop :=
  ∀ b, (node.table.blocks b).key ≠ badKey → (node.table.blocks b).cache.length = blockSize

section Sizes

variable {node node' : Node} {t : Nat}

theorem inBlock_requestOf {op : Op} (hop : InBlock op) (hit : Bool) : (requestOf op hit).inBlock := by
  cases op with
  | get addr => trivial
  | put addr v => cases hit <;> exact hop

theorem inBlock_ownRequest {op : Op} (hop : InBlock op) (hit : Bool) : (ownRequest op hit).inBlock := by
  cases op with
  | get addr => trivial
  | put addr v =>
      cases hit with
      | true => exact hop
      | false =>
          have hle : (v.take 1).length ≤ v.length := List.length_take_le' 1 v
          exact Nat.le_trans (Nat.add_le_add_left hle _) hop

theorem inBlock_of_stores {msg : Message} {addr : Nat} {v : List Word} (hmsg : msg.inBlock)
    (hstores : msg.stores = some (addr, v)) : (Message.renew addr v).inBlock := by
  cases msg with
  | write addr' v' =>
      obtain ⟨rfl, rfl⟩ := Prod.mk.inj (Option.some.inj hstores)
      exact hmsg
  | writeMiss addr' v' =>
      obtain ⟨rfl, rfl⟩ := Prod.mk.inj (Option.some.inj hstores)
      exact hmsg
  | _ => cases hstores

theorem opOf_of_asks {ph : Phase} {op : Op} {hit : Bool} (h : asks ph = some (op, hit)) : opOf ph = some op := by
  cases ph with
  | filling op' b sent =>
      cases sent with
      | false => exact congrArg some (Prod.mk.inj (Option.some.inj h)).1
      | true => cases h
  | reading op' b r =>
      cases r with
      | unsent => exact congrArg some (Prod.mk.inj (Option.some.inj h)).1
      | _ => cases h
  | _ => cases h

/-- A block that is changed in nothing but its stamp and its words. -/
theorem FullBlocks.modify {b : Fin cacheSize} {f : CacheBlock → CacheBlock} (hfull : FullBlocks node)
    (htable : node'.table = node.table.modify b f) (hkey : (f (node.table.blocks b)).key = (node.table.blocks b).key)
    (hlength : (f (node.table.blocks b)).cache.length = (node.table.blocks b).cache.length) :
    FullBlocks node' := by
  intro b' hb'
  rw [htable] at hb' ⊢
  simp only [CacheTable.modify] at hb' ⊢
  by_cases heq : b' = b
  · rw [heq, Function.update_self] at hb' ⊢
    rw [hkey] at hb'
    rw [hlength]
    exact hfull b hb'
  · rw [Function.update_of_ne heq] at hb' ⊢
    exact hfull b' hb'

theorem FullBlocks.stamp (hfull : FullBlocks node) (b : Fin cacheSize) : FullBlocks (node.stamp b) := by
  refine hfull.modify (b := b) (f := fun blk => { blk with lru := node.clock }) rfl ?_ ?_
  · rfl
  · rfl

theorem FullBlocks.callback (hfull : FullBlocks node) (b : Fin cacheSize) (op : Op) :
    FullBlocks (node.callback b op) := by
  intro b'
  rw [(CacheThreads.callback_frame node b op).1]
  exact hfull b'

theorem fullBlocks_acted {a : CacheThreads.Act} (hfull : FullBlocks node) (hact : Acted node t a node') :
    FullBlocks node' := by
  cases hact with
  | @hitGet addr b _ _ _ => exact hfull.stamp b
  | @hitPut addr v words b _ _ _ hcopy =>
      have hstamp := hfull.stamp b
      refine hstamp.modify (b := b) (f := fun blk => { blk with cache := words }) rfl ?_ ?_
      · rfl
      · simp only [Node.stamp, CacheTable.modify, Function.update_self]
        exact copyWords_length hcopy
  | @lockEvicted op b _ _ =>
      intro b' hb'
      change ((node.table.swapOut b op.block).blocks b').key ≠ badKey at hb'
      have hne : b' ≠ b := by
        rintro rfl
        exact hb' CacheThreads.swapOut_key
      change ((node.table.swapOut b op.block).blocks b').cache.length = blockSize
      rw [CacheThreads.swapOut_blocks b' hne] at hb' ⊢
      exact hfull b' hb'
  | @finishHit op b _ => exact hfull.callback b op
  | @finishMiss op b _ => exact (hfull.stamp b).callback b op
  | _ => exact hfull

theorem fullBlocks_tryRenew {addr : Nat} {v : List Word} {b : Fin cacheSize} (hfull : FullBlocks node)
    (hnode : tryRenew node addr v b = some node') : FullBlocks node' := by
  unfold tryRenew at hnode
  split at hnode
  · obtain ⟨words, hcopy, rfl⟩ := Option.map_eq_some_iff.mp hnode
    refine hfull.modify (b := b) (f := fun blk => { blk with cache := words }) rfl ?_ ?_
    · rfl
    · exact copyWords_length hcopy
  · obtain rfl := Option.some.inj hnode
    exact hfull

/-- A renew that fits into a block is not stuck. -/
theorem tryRenew_isSome {addr : Nat} {v : List Word} {b : Fin cacheSize} (hfull : FullBlocks node)
    (hsize : (Message.renew addr v).inBlock) : ∃ node', tryRenew node addr v b = some node' := by
  unfold tryRenew
  split
  · rename_i hkey
    have hne : blockBase addr ≠ badKey := CacheThreads.block_ne_badKey (.get addr)
    have hlength := hfull b (hkey.2 ▸ hne)
    have hle : addr % blockSize + v.length ≤ (node.table.blocks b).cache.length := by
      rw [hlength]
      exact hsize
    obtain ⟨words, hwords, -⟩ := copyWords_spec _ _ _ hle
    exact ⟨_, Option.map_eq_some_iff.mpr ⟨words, hwords, rfl⟩⟩
  · exact ⟨node, rfl⟩

/-- A reply fills the block of a miss, or ends the wait of a hit. -/
theorem reply_cases {words : List Word} (hnode : node.reply t words = some node') :
    (∃ op b, node.phase t = .filling op b true ∧ node' = { node with
      table := node.table.modify b fun blk => { blk with cache := words, key := op.block } }.setPhase t
        (.filled op b)) ∨
      ∃ op b, node.phase t = .reading op b .sent ∧ node' = node.setPhase t (.reading op b .served) := by
  unfold Node.reply at hnode
  split at hnode
  · rename_i op b hphase
    exact Or.inl ⟨op, b, hphase, (Option.some.inj hnode).symm⟩
  · rename_i op b hphase
    exact Or.inr ⟨op, b, hphase, (Option.some.inj hnode).symm⟩
  · cases hnode

theorem fullBlocks_reply {words : List Word} (hfull : FullBlocks node)
    (hnode : node.reply t words = some node')
    (hwords : ∀ op b, node.phase t = .filling op b true → words.length = blockSize) : FullBlocks node' := by
  rcases reply_cases hnode with ⟨op, b, hphase, rfl⟩ | ⟨op, b, -, rfl⟩
  · intro b' hb'
    simp only [Node.setPhase, CacheTable.modify] at hb' ⊢
    by_cases heq : b' = b
    · rw [heq, Function.update_self]
      exact hwords op b hphase
    · rw [Function.update_of_ne heq] at hb' ⊢
      exact hfull b' hb'
  · exact hfull

theorem fullBlocks_request (hfull : FullBlocks node) (hnode : node.request t = some node') :
    FullBlocks node' := by
  unfold Node.request at hnode
  split at hnode
  · obtain rfl := Option.some.inj hnode
    exact hfull
  · obtain rfl := Option.some.inj hnode
    exact hfull
  · cases hnode

/-- The answer to a miss is a block. -/
theorem block_of_fits {op : Op} {r : Reply} {words : List Word}
    (hfits : fits (requestOf op false) r = some words) : ∃ addr, r = .block addr words := by
  cases r with
  | block addr words' =>
      refine ⟨addr, ?_⟩
      cases op with
      | get a =>
          obtain ⟨-, hwords⟩ := Option.ite_none_right_eq_some.mp hfits
          rw [Option.some.inj hwords]
      | put a v =>
          obtain ⟨-, hwords⟩ := Option.ite_none_right_eq_some.mp hfits
          rw [Option.some.inj hwords]
  | written addr => cases op <;> cases hfits

/-- Only a lookup begins a call. -/
theorem opOf_acted {a : CacheThreads.Act} {op : Op} {t' : Nat} (hact : Acted node t a node')
    (hop : opOf (node'.phase t') = some op) : opOf (node.phase t') = some op ∨ (t' = t ∧ a = .lookup op) := by
  have hmove : ∀ {ph₀ ph : Phase}, node.phase t = ph₀ → node'.phase = Function.update node.phase t ph →
      (opOf ph = some op → opOf ph₀ = some op ∨ a = .lookup op) →
      opOf (node.phase t') = some op ∨ (t' = t ∧ a = .lookup op) := by
    intro ph₀ ph hphase hupdate hsame
    rw [hupdate] at hop
    by_cases ht : t' = t
    · rw [ht, Function.update_self] at hop
      rw [ht, hphase]
      exact (hsame hop).imp id fun hlookup => ⟨rfl, hlookup⟩
    · rw [Function.update_of_ne ht] at hop
      exact Or.inl hop
  cases hact with
  | lookupFound hphase _ => exact hmove hphase rfl fun h => Or.inr (congrArg _ (Option.some.inj h))
  | lookupMissing hphase _ => exact hmove hphase rfl fun h => Or.inr (congrArg _ (Option.some.inj h))
  | hitGet hphase => exact hmove hphase rfl Or.inl
  | hitPut hphase => exact hmove hphase rfl Or.inl
  | changed hphase => exact hmove hphase rfl Or.inl
  | pending hphase => exact hmove hphase rfl Or.inl
  | take hphase => exact hmove hphase rfl Or.inl
  | evict hphase => exact hmove hphase rfl Or.inl
  | abort hphase => exact Or.inl hop
  | lockTaken hphase => exact hmove hphase rfl Or.inl
  | lockEvicted hphase => exact hmove hphase rfl Or.inl
  | @finishHit op' b hphase =>
      have hsame := (CacheThreads.callback_frame node b op').2.2.2
      exact hmove hphase (congrArg (Function.update · t _) hsame) fun h => by cases h
  | @finishMiss op' b hphase =>
      have hsame := (CacheThreads.callback_frame (node.stamp b) b op').2.2.2
      exact hmove hphase (congrArg (Function.update · t _) hsame) fun h => by cases h

end Sizes

/-- Everything that is to be copied fits into the block it is copied to. -/
structure Sized (s : State) : Prop where
  ops : ∀ m t op, opOf ((s.nodes m).phase t) = some op → InBlock op
  full : ∀ m, FullBlocks (s.nodes m)
  control : ∀ m h, ∀ msg ∈ s.control m h, msg.inBlock
  calls : ∀ h c call, s.calls h c = some call → call.msg.inBlock
  replies : ∀ h m addr words, Reply.block addr words ∈ s.data h m → words.length = blockSize

theorem sized_start (junk : Nat → Fin cacheSize → CacheBlock) (backend : Memory) :
    Sized (start junk backend) where
  ops _ _ _ h := by cases h
  full _ _ h := absurd rfl h
  control _ _ _ h := by cases h
  calls _ _ _ h := by cases h
  replies _ _ _ _ h := by cases h

section Sized

variable {cfg : Config} {s s' : State} {m h t : Nat} {c : Caller}

/-- One node is replaced. -/
theorem forall_setNode {P : Node → Prop} {node : Node} (hall : ∀ m, P (s.nodes m)) (hnode : P node) (m' : Nat) :
    P (Function.update s.nodes m node m') := by
  by_cases hm : m' = m
  · rw [hm, Function.update_self]
    exact hnode
  · rw [Function.update_of_ne hm]
    exact hall m'

theorem length_backendBlock (m : Memory) (addr : Nat) : (backendBlock m addr).length = blockSize :=
  Memory.length_read ..

/-- An answer to the own thread of the home fills a block, unless it ends a write. -/
theorem full_answer {s₀ : State} {call : Call} {r : Reply} (hs : Sized s) (hw : Wired cfg s)
    (hcall : s.calls h c = some call) (hanswer : answer s₀ h c call.src r = some s')
    (hnodes : s₀.nodes = s.nodes)
    (hwords : ∀ op, call.msg = ownRequest op false → r.words.length = blockSize) (m : Nat) :
    FullBlocks (s'.nodes m) := by
  rcases answer_cases hanswer with ⟨p, x, -, rfl⟩ | ⟨t, node, rfl, hnode, rfl⟩
  · show FullBlocks (s₀.nodes m)
    rw [hnodes]
    exact hs.full m
  · rw [hnodes] at hnode
    show FullBlocks (Function.update s₀.nodes h node m)
    rw [hnodes]
    refine forall_setNode hs.full (fullBlocks_reply (hs.full h) hnode ?_) m
    intro op b hphase
    obtain ⟨-, op', hit, hop, -, hmsg⟩ := hw.own h t call hcall
    rw [hphase] at hop
    obtain ⟨rfl, rfl⟩ := Prod.mk.inj (Option.some.inj hop)
    exact hwords op hmsg

theorem full_bad (hs : Sized s) (m m' : Nat) : FullBlocks ((s.bad m).nodes m') := by
  have habort : FullBlocks { s.nodes m with aborted := true } := hs.full m
  exact forall_setNode hs.full habort m'

theorem full_served (hs : Sized s) (hw : Wired cfg s) (hserve : Served cfg s h c s') (m : Nat) :
    FullBlocks (s'.nodes m) := by
  cases hserve with
  | renewEnd _ hnode => exact forall_setNode hs.full (fullBlocks_tryRenew (hs.full h) hnode) m
  | innerEnd _ _ hnode => exact forall_setNode hs.full (fullBlocks_tryRenew (hs.full h) hnode) m
  | readMiss hcall _ hans => exact full_answer hs hw hcall hans rfl (fun _ _ => length_backendBlock ..) m
  | writeMissEnd hcall _ hans => exact full_answer hs hw hcall hans rfl (fun _ _ => length_backendBlock ..) m
  | writeEnd hcall _ hans =>
      refine full_answer hs hw hcall hans rfl ?_ m
      intro op hmsg
      cases op <;> cases hmsg
  | bad => exact full_bad hs h m
  | _ => exact hs.full m

theorem full_stepped {a : Act} (hs : Sized s) (hw : Wired cfg s) (hstep : Stepped cfg s a s') (m : Nat) :
    FullBlocks (s'.nodes m) := by
  cases hstep with
  | cache hact ha _ => exact forall_setNode hs.full (fullBlocks_acted (hs.full _) (acted_of_act hact ha)) m
  | @writebackOwn m' t oldkey op b _ _ _ =>
      have hsame : FullBlocks ((s.nodes m').setPhase t (.filling op b false)) := hs.full m'
      exact forall_setNode hs.full hsame m
  | @writebackSend m' t oldkey op b _ _ =>
      have hsame : FullBlocks ((s.nodes m').setPhase t (.filling op b false)) := hs.full m'
      exact forall_setNode hs.full hsame m
  | requestOwn hasks hnode _ => exact forall_setNode hs.full (fullBlocks_request (hs.full _) hnode) m
  | requestSend hasks hnode _ _ => exact forall_setNode hs.full (fullBlocks_request (hs.full _) hnode) m
  | @reply m' t op hit r rest words node hwaits _ hdata hfits hnode =>
      refine forall_setNode hs.full (fullBlocks_reply (hs.full m') hnode ?_) m
      intro op' b hphase
      rw [hphase] at hwaits
      obtain ⟨rfl, rfl⟩ := Prod.mk.inj (Option.some.inj hwaits)
      obtain ⟨addr, rfl⟩ := block_of_fits hfits
      exact hs.replies _ m' addr words (hdata ▸ List.mem_cons_self)
  | replyBad => exact full_bad hs _ m
  | receive => exact hs.full m
  | serve hserve => exact full_served hs hw hserve m

/-- A thread stays in its call. -/
theorem opOf_setNode {node : Node} {op : Op} {m' t' : Nat}
    (hnode : ∀ t' op, opOf (node.phase t') = some op → opOf ((s.nodes m).phase t') = some op)
    (hop : opOf ((Function.update s.nodes m node m').phase t') = some op) :
    opOf ((s.nodes m').phase t') = some op := by
  by_cases hm : m' = m
  · subst hm
    rw [Function.update_self] at hop
    exact hnode t' op hop
  · rwa [Function.update_of_ne hm] at hop

theorem opOf_update {node node' : Node} {q p : Phase} (hphase : node.phase t = q)
    (hupdate : node'.phase = Function.update node.phase t p) (hsame : opOf p = opOf q) (t' : Nat) (op : Op)
    (hop : opOf (node'.phase t') = some op) : opOf (node.phase t') = some op := by
  rw [hupdate] at hop
  by_cases ht : t' = t
  · rw [ht, Function.update_self, hsame, ← hphase] at hop
    rw [ht]
    exact hop
  · rwa [Function.update_of_ne ht] at hop

theorem opOf_setPhase {node : Node} {q : Phase} (p : Phase) (hphase : node.phase t = q) (hsame : opOf p = opOf q)
    (t' : Nat) (op : Op) (hop : opOf ((node.setPhase t p).phase t') = some op) :
    opOf (node.phase t') = some op :=
  opOf_update hphase rfl hsame t' op hop

theorem phase_bad (s : State) (m m' t : Nat) : ((s.bad m).nodes m').phase t = (s.nodes m').phase t := by
  show (Function.update s.nodes m { s.nodes m with aborted := true } m').phase t = _
  by_cases hm : m' = m
  · rw [hm, Function.update_self]
  · rw [Function.update_of_ne hm]

theorem opOf_request {node node' : Node} (hnode : node.request t = some node') (t' : Nat) (op : Op)
    (hop : opOf (node'.phase t') = some op) : opOf (node.phase t') = some op := by
  unfold Node.request at hnode
  split at hnode
  · rename_i op' b hphase
    obtain rfl := Option.some.inj hnode
    exact opOf_setPhase (.filling op' b true) hphase rfl t' op hop
  · rename_i op' b hphase
    obtain rfl := Option.some.inj hnode
    exact opOf_setPhase (.reading op' b .sent) hphase rfl t' op hop
  · cases hnode

theorem opOf_reply {node node' : Node} {words : List Word} (hnode : node.reply t words = some node')
    (t' : Nat) (op : Op) (hop : opOf (node'.phase t') = some op) : opOf (node.phase t') = some op := by
  rcases reply_cases hnode with ⟨op', b, hphase, rfl⟩ | ⟨op', b, hphase, rfl⟩
  · exact opOf_update (p := .filled op' b) hphase rfl rfl t' op hop
  · exact opOf_setPhase (.reading op' b .served) hphase rfl t' op hop

theorem opOf_answer {src : Nat} {r : Reply} {m t : Nat} {op : Op} (hanswer : answer s h c src r = some s')
    (hop : opOf ((s'.nodes m).phase t) = some op) : opOf ((s.nodes m).phase t) = some op := by
  rcases answer_cases hanswer with ⟨p, x, -, rfl⟩ | ⟨t', node, -, hnode, rfl⟩
  · exact hop
  · exact opOf_setNode (opOf_reply hnode) hop

theorem opOf_served {m t : Nat} {op : Op} (hserve : Served cfg s h c s')
    (hop : opOf ((s'.nodes m).phase t) = some op) : opOf ((s.nodes m).phase t) = some op := by
  cases hserve with
  | renewEnd _ hnode =>
      refine opOf_setNode ?_ hop
      rw [(sameButWords_tryRenew hnode).phase]
      exact fun _ _ => id
  | innerEnd _ _ hnode =>
      refine opOf_setNode ?_ hop
      rw [(sameButWords_tryRenew hnode).phase]
      exact fun _ _ => id
  | readMiss _ _ hanswer =>
      have hold := opOf_answer hanswer hop
      exact hold
  | writeEnd _ _ hanswer =>
      have hold := opOf_answer hanswer hop
      exact hold
  | writeMissEnd _ _ hanswer =>
      have hold := opOf_answer hanswer hop
      exact hold
  | bad =>
      rw [phase_bad] at hop
      exact hop
  | _ => exact hop

/-- A call begins with the lookup of its thread. -/
theorem opOf_stepped {a : Act} (hstep : Stepped cfg s a s') {m t : Nat} {op : Op}
    (hop : opOf ((s'.nodes m).phase t) = some op) :
    opOf ((s.nodes m).phase t) = some op ∨ InBlock op ∧ a = .cache m t (.lookup op) := by
  cases hstep with
  | @cache m' t' a node hact ha hblock =>
      change opOf ((Function.update s.nodes m' node m).phase t) = some op at hop
      by_cases hm : m = m'
      · subst hm
        rw [Function.update_self] at hop
        rcases opOf_acted (acted_of_act hact ha) hop with hop | ⟨rfl, rfl⟩
        · exact Or.inl hop
        · exact Or.inr ⟨hblock op rfl, rfl⟩
      · rw [Function.update_of_ne hm] at hop
        exact Or.inl hop
  | writebackOwn hphase _ _ => exact Or.inl (opOf_setNode (opOf_setPhase (.filling _ _ false) hphase rfl) hop)
  | writebackSend hphase _ => exact Or.inl (opOf_setNode (opOf_setPhase (.filling _ _ false) hphase rfl) hop)
  | requestOwn _ hnode _ => exact Or.inl (opOf_setNode (opOf_request hnode) hop)
  | requestSend _ hnode _ _ => exact Or.inl (opOf_setNode (opOf_request hnode) hop)
  | reply _ _ _ _ hnode => exact Or.inl (opOf_setNode (opOf_reply hnode) hop)
  | replyBad =>
      rw [phase_bad] at hop
      exact Or.inl hop
  | receive => exact Or.inl hop
  | serve hserve => exact Or.inl (opOf_served hserve hop)

theorem inBlock_ops {a : Act} (hs : Sized s) (hstep : Stepped cfg s a s') {m t : Nat} {op : Op}
    (hop : opOf ((s'.nodes m).phase t) = some op) : InBlock op := by
  rcases opOf_stepped hstep hop with hop | ⟨hblock, -⟩
  · exact hs.ops m t op hop
  · exact hblock

theorem length_answer {s₀ : State} {src addr m n : Nat} {r : Reply} {words : List Word} (hs : Sized s)
    (hanswer : answer s₀ h c src r = some s') (hdata : s₀.data = s.data)
    (hr : ∀ addr words, r = .block addr words → words.length = blockSize)
    (hmem : Reply.block addr words ∈ s'.data m n) : words.length = blockSize := by
  rcases answer_cases hanswer with ⟨p, x, -, rfl⟩ | ⟨t, node, -, -, rfl⟩
  · change _ ∈ setTwo s₀.data h src (s₀.data h src ++ [r]) m n at hmem
    rw [hdata] at hmem
    by_cases heq : m = h ∧ n = src
    · rw [heq.1, heq.2, setTwo_self] at hmem
      rcases List.mem_append.mp hmem with hmem | hmem
      · exact hs.replies h src addr words hmem
      · exact hr addr words (List.mem_singleton.mp hmem).symm
    · rw [setTwo_of_ne _ _ _ _ heq] at hmem
      exact hs.replies m n addr words hmem
  · change _ ∈ s₀.data m n at hmem
    rw [hdata] at hmem
    exact hs.replies m n addr words hmem

theorem length_replies {a : Act} (hs : Sized s) (hstep : Stepped cfg s a s') {m n addr : Nat}
    {words : List Word} (hmem : Reply.block addr words ∈ s'.data m n) : words.length = blockSize := by
  have hblock : ∀ {addr' : Nat} {mem : Memory} (addr : Nat) (words : List Word),
      Reply.block addr' (backendBlock mem addr') = .block addr words → words.length = blockSize := by
    rintro addr' mem addr words heq
    rw [← (Reply.block.inj heq).2]
    exact length_backendBlock ..
  cases hstep with
  | @reply m' t op hit r rest _ _ _ _ hdata _ _ =>
      change _ ∈ setTwo s.data (cfg.home op.addr) m' rest m n at hmem
      by_cases heq : m = cfg.home op.addr ∧ n = m'
      · rw [heq.1, heq.2, setTwo_self] at hmem
        refine hs.replies (cfg.home op.addr) m' addr words ?_
        rw [hdata]
        exact List.mem_cons_of_mem _ hmem
      · rw [setTwo_of_ne _ _ _ _ heq] at hmem
        exact hs.replies m n addr words hmem
  | serve hserve =>
      cases hserve with
      | readMiss _ _ hanswer => exact length_answer hs hanswer rfl hblock hmem
      | writeEnd _ _ hanswer => exact length_answer hs hanswer rfl (fun _ _ heq => by cases heq) hmem
      | writeMissEnd _ _ hanswer =>
          refine length_answer hs hanswer rfl ?_ hmem
          rintro addr words heq
          rw [← (Reply.block.inj heq).2]
          exact length_backendBlock ..
      | _ => exact hs.replies m n addr words hmem
  | _ => exact hs.replies m n addr words hmem

theorem sized_step {a : Act} (hs : Sized s) (hw : Wired cfg s) (hstep : Stepped cfg s a s') : Sized s' := by
  constructor
  · intro m t op hop
    exact inBlock_ops hs hstep hop
  · exact full_stepped hs hw hstep
  · intro m h msg hmem
    rcases sends_of_stepped hstep hmem with hmem | hsends
    · exact hs.control m h msg hmem
    · cases hsends with
      | writeback _ _ => trivial
      | request hasks _ => exact inBlock_requestOf (hs.ops m _ _ (opOf_of_asks hasks)) _
      | renew hcall hmsg _ => exact inBlock_of_stores (hs.calls m _ _ hcall) hmsg
  · intro h c call hcall
    cases runs_of_stepped hstep hcall with
    | old hold =>
        have hblock := hs.calls h c _ hold
        exact hblock
    | received _ hmem => exact hs.control _ h _ hmem
    | own _ _ hasks hmsg =>
        rw [hmsg]
        exact inBlock_ownRequest (hs.ops h _ _ (opOf_of_asks hasks)) _
  · intro h m addr words hmem
    exact length_replies hs hstep hmem

end Sized

end Dogee.CacheCluster
