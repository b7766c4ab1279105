import Dogee.CacheServing
import Dogee.CacheFetch

/-!
# The directory and the nodes that hold a block

A miss sets the bit of its node in the directory, and the writeback of a block that was swapped out
clears it. `getblock` sends the writeback after it has given up `queue_lock`, so another thread of the
node may fetch the block again before the home gets it, and the writeback then clears the bit of a
node that has the block. As long as a miss goes into the directory only when no writeback of its node
and its block is on its way, the directory has the bits of all nodes that have a block.
-/

namespace Dogee.CacheCluster

open Transition
open CacheThreads (Op Node Phase Inv SameKeys)

/-- The block `b` is in the hash table of the node, and it has its contents. -/
def Valid (node : Node) (b : Nat) : Prop :=
  ∃ x, node.table.cache b = some x ∧ (node.table.blocks x).key = b ∧ b ≠ badKey

/-- The block `b` is in the place `x` of the node, with its contents. -/
def At (node : Node) (b : Nat) (x : Fin cacheSize) : Prop :=
  node.table.cache b = some x ∧ (node.table.blocks x).key = b ∧ b ≠ badKey

/-- Some thread of the node has swapped the block `b` out and has not sent its writeback. -/
def SwappedOut (node : Node) (b : Nat) : Prop := ∃ t op x, node.phase t = .writingBack op x b

/-- The step of a thread with which it swaps a block out. -/
def evicts : CacheThreads.Act → Phase → Bool
  | .enterWrite, .evicting _ _ => true
  | _, _ => false

section Node

variable {node node' : Node} {t b : Nat}

theorem At.congr {x : Fin cacheSize} (hat : At node' b x) (hsame : SameKeys node.table node'.table) :
    At node b x := by
  obtain ⟨hx, hkey, hb⟩ := hat
  rw [hsame.cache] at hx
  rw [hsame.key] at hkey
  exact ⟨hx, hkey, hb⟩

theorem Valid.congr (hvalid : Valid node' b) (hsame : SameKeys node.table node'.table) : Valid node b := by
  obtain ⟨x, hat⟩ := hvalid
  exact ⟨x, At.congr hat hsame⟩

/-- A block that is being filled is not valid. -/
theorem not_valid_of_filling {op : Op} {x : Fin cacheSize} {sent : Bool} (hnode : Inv node)
    (hphase : node.phase t = .filling op x sent) : ¬Valid node op.block := by
  rintro ⟨y, hy, hkey, hb⟩
  have hthread := hnode.thread t
  rw [hphase] at hthread
  obtain ⟨-, hx, hbad⟩ := hthread
  obtain rfl : x = y := Option.some.inj (hx.symm.trans hy)
  exact hb (hkey.symm.trans hbad)

/-- What was swapped out is not valid any more. -/
theorem not_valid_swapOut {x : Fin cacheSize} {k : Nat} (hnode : Inv node)
    (hkey : (node.table.blocks x).key ≠ badKey) (hk : node.table.cache k = none)
    (htable : node'.table = node.table.swapOut x k) : ¬Valid node' (node.table.blocks x).key := by
  rintro ⟨y, hy, -, -⟩
  have hx := hnode.table.key x hkey
  rw [htable, CacheThreads.swapOut_cache hnode.table hkey hk] at hy
  rcases hy with ⟨heq, -⟩ | ⟨hy, hne⟩
  · rw [heq, hk] at hx
    cases hx
  · exact hne (Option.some.inj (hy.symm.trans hx))

theorem at_of_swapOut {x y : Fin cacheSize} {k : Nat} (hnode : Inv node)
    (hkey : (node.table.blocks x).key ≠ badKey) (hk : node.table.cache k = none)
    (htable : node'.table = node.table.swapOut x k) (hat : At node' b y) :
    At node b y ∧ node'.table.blocks y = node.table.blocks y := by
  obtain ⟨hy, hykey, hb⟩ := hat
  rw [htable] at hy hykey ⊢
  rw [CacheThreads.swapOut_cache hnode.table hkey hk] at hy
  rcases hy with ⟨-, rfl⟩ | ⟨hy, hne⟩
  · rw [CacheThreads.swapOut_key] at hykey
    exact absurd hykey.symm hb
  · rw [CacheThreads.swapOut_blocks y hne] at hykey
    exact ⟨⟨hy, hykey, hb⟩, CacheThreads.swapOut_blocks y hne⟩

theorem at_of_takeFree {x y : Fin cacheSize} {rest : List (Fin cacheSize)} {k : Nat} (hnode : Inv node)
    (hqueue : node.table.queue = x :: rest) (htable : node'.table = node.table.takeFree x rest k)
    (hat : At node' b y) : At node b y ∧ node'.table.blocks y = node.table.blocks y := by
  obtain ⟨hy, hykey, hb⟩ := hat
  rw [htable] at hy hykey ⊢
  change Function.update node.table.cache k (some x) b = some y at hy
  by_cases hbk : b = k
  · rw [hbk, Function.update_self] at hy
    obtain rfl := Option.some.inj hy
    have hfree := (hnode.table.free x (hqueue ▸ List.mem_cons_self)).1
    exact absurd (hykey.symm.trans hfree) hb
  · rw [Function.update_of_ne hbk] at hy
    exact ⟨⟨hy, hykey, hb⟩, rfl⟩

theorem cache_stamp (node : Node) (x y : Fin cacheSize) :
    ((node.stamp x).table.blocks y).cache = (node.table.blocks y).cache := by
  show (Function.update node.table.blocks x { node.table.blocks x with lru := node.clock } y).cache = _
  by_cases hy : y = x
  · rw [hy, Function.update_self]
  · rw [Function.update_of_ne hy]

/-- A step of a thread in its node brings no block to its place; a hit of `doput` copies its words there. -/
theorem at_of_acted {a : CacheThreads.Act} {x : Fin cacheSize} (hnode : Inv node) (hact : Acted node t a node')
    (hat : At node' b x) : At node b x ∧
      ((node'.table.blocks x).cache = (node.table.blocks x).cache ∨
        ∃ w v, a = .enterRead ∧ node.phase t = .found (.put w v) x ∧ blockBase w = b ∧
          copyWords (node.table.blocks x).cache (w % blockSize) v = some (node'.table.blocks x).cache) := by
  have hthread := hnode.thread t
  cases hact with
  | @take op y rest hphase hcache hqueue =>
      obtain ⟨hold, hsame⟩ := at_of_takeFree hnode hqueue rfl hat
      exact ⟨hold, Or.inl (congrArg CacheBlock.cache hsame)⟩
  | @lockEvicted op y hphase hfree =>
      rw [hphase] at hthread
      obtain ⟨hold, hsame⟩ := at_of_swapOut hnode hthread.2.2 hthread.2.1 rfl hat
      exact ⟨hold, Or.inl (congrArg CacheBlock.cache hsame)⟩
  | @hitGet addr y _ _ _ =>
      exact ⟨hat.congr (CacheThreads.sameKeys_stamp node y), Or.inl (cache_stamp node y x)⟩
  | @hitPut addr v words y hphase _ hkey hcopy =>
      have hsame : SameKeys node.table ((node.stamp y).table.modify y fun blk => { blk with cache := words }) := by
        refine (CacheThreads.sameKeys_stamp node y).trans ?_
        apply CacheThreads.sameKeys_modify
        intro blk
        rfl
      have hold : At node b x := At.congr hat hsame
      refine ⟨hold, ?_⟩
      dsimp only [Node.setPhase, Node.setLock, CacheTable.modify]
      by_cases hx : x = y
      · subst hx
        right
        rw [Function.update_self]
        exact ⟨addr, v, rfl, hphase, hkey.symm.trans hold.2.1, hcopy⟩
      · left
        rw [Function.update_of_ne hx]
        exact cache_stamp node y x
  | @finishHit op y _ =>
      have hsame := (CacheThreads.callback_frame node y op).1
      have htable : (((node.callback y op).setLock y
          { node.lock y with readers := (node.lock y).readers.erase t }).setPhase t .idle).table = node.table := hsame
      refine ⟨hat.congr ?_, Or.inl ?_⟩
      · rw [htable]
        exact SameKeys.refl _
      · rw [htable]
  | @finishMiss op y _ =>
      have hsame := (CacheThreads.callback_frame (node.stamp y) y op).1
      have htable : ((((node.stamp y).callback y op).setLock y
          { node.lock y with writer := none }).setPhase t .idle).table = (node.stamp y).table := hsame
      refine ⟨hat.congr ?_, Or.inl ?_⟩
      · rw [htable]
        exact CacheThreads.sameKeys_stamp node y
      · rw [htable]
        exact cache_stamp node y x
  | _ => exact ⟨hat, Or.inl rfl⟩

/-- A step of a thread in its node makes no block valid. -/
theorem valid_of_acted {a : CacheThreads.Act} (hnode : Inv node) (hact : Acted node t a node')
    (hvalid : Valid node' b) : Valid node b := by
  obtain ⟨x, hat⟩ := hvalid
  exact ⟨x, (at_of_acted hnode hact hat).1⟩

/-- The answer to a miss brings its words to the block that the thread fills. -/
theorem at_of_reply {words : List Word} {x : Fin cacheSize} (hreply : node.reply t words = some node')
    (hat : At node' b x) :
    (At node b x ∧ (node'.table.blocks x).cache = (node.table.blocks x).cache) ∨
      ∃ op, node.phase t = .filling op x true ∧ op.block = b ∧ (node'.table.blocks x).cache = words := by
  obtain ⟨hx, hkey, hb⟩ := hat
  rcases reply_cases hreply with ⟨op, y, hphase, rfl⟩ | ⟨op, y, -, rfl⟩
  · change (Function.update node.table.blocks y _ x).key = b at hkey
    show (_ ∧ (Function.update node.table.blocks y _ x).cache = _) ∨
      ∃ op, _ ∧ _ ∧ (Function.update node.table.blocks y _ x).cache = _
    by_cases hxy : x = y
    · subst hxy
      rw [Function.update_self] at hkey ⊢
      exact Or.inr ⟨op, hphase, hkey, rfl⟩
    · rw [Function.update_of_ne hxy] at hkey ⊢
      exact Or.inl ⟨⟨hx, hkey, hb⟩, rfl⟩
  · exact Or.inl ⟨⟨hx, hkey, hb⟩, rfl⟩

/-- The answer to a miss makes its block valid. -/
theorem valid_of_reply {words : List Word} (hreply : node.reply t words = some node')
    (hvalid : Valid node' b) :
    Valid node b ∨ ∃ op x, node.phase t = .filling op x true ∧ op.block = b := by
  obtain ⟨x, hat⟩ := hvalid
  rcases at_of_reply hreply hat with ⟨hold, -⟩ | ⟨op, hphase, hblock, -⟩
  · exact Or.inl ⟨x, hold⟩
  · exact Or.inr ⟨op, x, hphase, hblock⟩

/-- Only one thread changes its place, and it does not come to the writeback of `b`. -/
theorem SwappedOut.of_update {ph : Phase} (hswapped : SwappedOut node' b)
    (hphase : node'.phase = Function.update node.phase t ph)
    (hne : ∀ op x, ph ≠ .writingBack op x b) : SwappedOut node b := by
  obtain ⟨t', op, x, ht'⟩ := hswapped
  rw [hphase] at ht'
  by_cases heq : t' = t
  · rw [heq, Function.update_self] at ht'
    exact absurd ht' (hne op x)
  · rw [Function.update_of_ne heq] at ht'
    exact ⟨t', op, x, ht'⟩

/-- A thread that swaps a block out: it was valid, and it is not any more. -/
theorem swappedOut_of_acted {a : CacheThreads.Act} (hnode : Inv node) (hact : Acted node t a node')
    (hswapped : SwappedOut node' b) : SwappedOut node b ∨
      (evicts a (node.phase t) = true ∧ Valid node b ∧ ¬Valid node' b) := by
  have hthread := hnode.thread t
  cases hact with
  | @lockEvicted op x hphase hfree =>
      rw [hphase] at hthread
      by_cases hb : (node.table.blocks x).key = b
      · subst hb
        refine Or.inr ⟨by rw [hphase]; rfl, ⟨x, hnode.table.key x hthread.2.2, rfl, hthread.2.2⟩, ?_⟩
        exact not_valid_swapOut hnode hthread.2.2 hthread.2.1 rfl
      · refine Or.inl (hswapped.of_update rfl ?_)
        rintro op' x' heq
        exact hb (Phase.writingBack.inj heq).2.2
  | abort => exact Or.inl hswapped
  | @finishHit op x _ =>
      have hsame := (CacheThreads.callback_frame node x op).2.2.2
      exact Or.inl (hswapped.of_update (congrArg (Function.update · t _) hsame) fun _ _ heq => by cases heq)
  | @finishMiss op x _ =>
      have hsame := (CacheThreads.callback_frame (node.stamp x) x op).2.2.2
      exact Or.inl (hswapped.of_update (congrArg (Function.update · t _) hsame) fun _ _ heq => by cases heq)
  | lookupFound => exact Or.inl (hswapped.of_update rfl fun _ _ heq => by cases heq)
  | lookupMissing => exact Or.inl (hswapped.of_update rfl fun _ _ heq => by cases heq)
  | hitGet => exact Or.inl (hswapped.of_update rfl fun _ _ heq => by cases heq)
  | hitPut => exact Or.inl (hswapped.of_update rfl fun _ _ heq => by cases heq)
  | changed => exact Or.inl (hswapped.of_update rfl fun _ _ heq => by cases heq)
  | pending => exact Or.inl (hswapped.of_update rfl fun _ _ heq => by cases heq)
  | take => exact Or.inl (hswapped.of_update rfl fun _ _ heq => by cases heq)
  | evict => exact Or.inl (hswapped.of_update rfl fun _ _ heq => by cases heq)
  | lockTaken => exact Or.inl (hswapped.of_update rfl fun _ _ heq => by cases heq)

end Node

/-! ## The bits of the directory -/

/-- A writeback of the block `b` by node `m` is on its way. -/
def WritebackDue (cfg : Config) (s : State) (m b : Nat) : Prop :=
  SwappedOut (s.nodes m) b ∨ Message.writeback b ∈ s.control m (cfg.home b) ∨
    ∃ c stage, s.calls (cfg.home b) c = some ⟨m, .writeback b, stage⟩

/-- The home has put the miss of node `m` into the directory, and the node has not got the block. -/
def Arriving (cfg : Config) (s : State) (m b : Nat) : Prop :=
  (∃ addr words, Reply.block addr words ∈ s.data (cfg.home b) m ∧ blockBase addr = b) ∨
    ∃ c addr v stage, s.calls (cfg.home b) c = some ⟨m, .writeMiss addr v, stage⟩ ∧ stage.inLoop ∧
      blockBase addr = b

/-- Node `m` has the block `b`, or it is going to get it. -/
def Held (cfg : Config) (s : State) (m b : Nat) : Prop := Valid (s.nodes m) b ∨ Arriving cfg s m b

/-- The miss that the step puts into the directory: the node and the block. -/
def entered (s : State) : Act → Option (Nat × Nat)
  | .serve h c =>
      match s.calls h c with
      | some ⟨src, .readMiss addr, .entry⟩ => some (src, addr)
      | some ⟨src, .writeMiss addr _, .stored⟩ => some (src, blockBase addr)
      | _ => none
  | _ => none

/-- The step swaps a block out. -/
def Act.evicts (s : State) : Act → Bool
  | .cache m t a => CacheCluster.evicts a ((s.nodes m).phase t)
  | _ => false

/-- A miss goes into the directory when no writeback of its node and its block is on its way. -/
def InOrder (cfg : Config) (s : State) (a : Act) : Prop :=
  ∀ m b, entered s a = some (m, b) → ¬WritebackDue cfg s m b

/-- The directory has the bit of every node that has a block. -/
structure Covered (cfg : Config) (s : State) : Prop where
  bit : ∀ m b, Held cfg s m b → s.directory (cfg.home b) b m = true
  due : ∀ m b, Held cfg s m b → ¬WritebackDue cfg s m b

/-- The directory has the bit of the node, if it has the block. -/
def CoveredAt (cfg : Config) (s : State) (m b : Nat) : Prop :=
  Held cfg s m b → s.directory (cfg.home b) b m = true ∧ ¬WritebackDue cfg s m b

/-! ## A thread that waits for a block -/

/-- A hit of `doget` asks nobody. -/
def ReadsServed (node : Node) : Prop :=
  ∀ t addr x r, node.phase t = .reading (.get addr) x r → r = .served

section Reads

variable {node node' : Node} {t : Nat}

theorem ReadsServed.of_update {ph : Phase} (hreads : ReadsServed node)
    (hphase : node'.phase = Function.update node.phase t ph)
    (hph : ∀ addr x r, ph = .reading (.get addr) x r → r = .served) : ReadsServed node' := by
  intro t' addr x r ht'
  rw [hphase] at ht'
  by_cases heq : t' = t
  · rw [heq, Function.update_self] at ht'
    exact hph addr x r ht'
  · rw [Function.update_of_ne heq] at ht'
    exact hreads t' addr x r ht'

theorem readsServed_acted {a : CacheThreads.Act} (hreads : ReadsServed node) (hact : Acted node t a node') :
    ReadsServed node' := by
  cases hact with
  | abort => exact hreads
  | hitGet =>
      apply hreads.of_update rfl
      intro addr x r heq
      exact (Phase.reading.inj heq).2.2.symm
  | hitPut =>
      apply hreads.of_update rfl
      intro addr x r heq
      cases (Phase.reading.inj heq).1
  | @finishHit op x _ =>
      have hsame := (CacheThreads.callback_frame node x op).2.2.2
      exact hreads.of_update (congrArg (Function.update · t _) hsame) fun _ _ _ heq => by cases heq
  | @finishMiss op x _ =>
      have hsame := (CacheThreads.callback_frame (node.stamp x) x op).2.2.2
      exact hreads.of_update (congrArg (Function.update · t _) hsame) fun _ _ _ heq => by cases heq
  | lookupFound => exact hreads.of_update rfl fun _ _ _ heq => by cases heq
  | lookupMissing => exact hreads.of_update rfl fun _ _ _ heq => by cases heq
  | changed => exact hreads.of_update rfl fun _ _ _ heq => by cases heq
  | pending => exact hreads.of_update rfl fun _ _ _ heq => by cases heq
  | take => exact hreads.of_update rfl fun _ _ _ heq => by cases heq
  | evict => exact hreads.of_update rfl fun _ _ _ heq => by cases heq
  | lockTaken => exact hreads.of_update rfl fun _ _ _ heq => by cases heq
  | lockEvicted => exact hreads.of_update rfl fun _ _ _ heq => by cases heq

theorem readsServed_request (hreads : ReadsServed node) (hnode : node.request t = some node') :
    ReadsServed node' := by
  unfold Node.request at hnode
  split at hnode
  · obtain rfl := Option.some.inj hnode
    exact hreads.of_update rfl fun _ _ _ heq => by cases heq
  · rename_i op x hphase
    obtain rfl := Option.some.inj hnode
    apply hreads.of_update rfl
    intro addr y r heq
    obtain ⟨rfl, rfl, rfl⟩ := Phase.reading.inj heq
    cases hreads t addr x _ hphase
  · cases hnode

theorem readsServed_reply {words : List Word} (hreads : ReadsServed node)
    (hnode : node.reply t words = some node') : ReadsServed node' := by
  unfold Node.reply at hnode
  split at hnode
  · obtain rfl := Option.some.inj hnode
    exact hreads.of_update rfl fun _ _ _ heq => by cases heq
  · obtain rfl := Option.some.inj hnode
    apply hreads.of_update rfl
    intro addr x r heq
    exact (Phase.reading.inj heq).2.2.symm
  · cases hnode

/-- The message asks for a block. -/
def Message.fetches : Message → Option Nat
  | .readMiss addr => some (blockBase addr)
  | .writeMiss addr _ => some (blockBase addr)
  | _ => none

theorem isRequest_of_fetches {msg : Message} {b : Nat} (hfetch : msg.fetches = some b) : msg.isRequest = true := by
  cases msg with
  | readMiss addr => rfl
  | writeMiss addr v => rfl
  | _ => cases hfetch

theorem blockBase_blockBase (addr : Nat) : blockBase (blockBase addr) = blockBase addr := by
  unfold blockBase
  rw [Nat.mul_div_cancel _ (by decide)]

/-- A thread that asks for a block fills it. -/
theorem filling_of_waits {op : Op} {hit : Bool} {b : Nat} (hreads : ReadsServed node)
    (hwaits : waits (node.phase t) = some (op, hit))
    (hmsg : (requestOf op hit).fetches = some b ∨ (ownRequest op hit).fetches = some b) :
    ∃ x, node.phase t = .filling op x true ∧ op.block = b := by
  cases hphase : node.phase t with
  | filling op' x sent =>
      rw [hphase] at hwaits
      cases sent with
      | false => cases hwaits
      | true =>
          obtain ⟨rfl, rfl⟩ := Prod.mk.inj (Option.some.inj hwaits)
          refine ⟨x, rfl, ?_⟩
          cases op' with
          | get addr =>
              have hb : some (blockBase (blockBase addr)) = some b := hmsg.elim id id
              exact (blockBase_blockBase addr).symm.trans (Option.some.inj hb)
          | put addr v =>
              have hb : some (blockBase addr) = some b := hmsg.elim id id
              exact Option.some.inj hb
  | reading op' x r =>
      rw [hphase] at hwaits
      cases r with
      | sent =>
          obtain ⟨rfl, rfl⟩ := Prod.mk.inj (Option.some.inj hwaits)
          cases op' with
          | get addr => cases hreads t addr x _ hphase
          | put addr v =>
              have hb : (none : Option Nat) = some b := hmsg.elim id id
              cases hb
      | _ => cases hwaits
  | _ =>
      rw [hphase] at hwaits
      cases hwaits

/-- The answer that fits a request with a block is to a request for that block. -/
theorem fetches_of_fits {msg : Message} {addr : Nat} {words : List Word}
    (hfits : (fits msg (.block addr words)).isSome = true) : msg.fetches = some (blockBase addr) := by
  cases msg with
  | readMiss addr' =>
      by_cases heq : addr = addr'
      · rw [heq]
        rfl
      · simp [fits, heq] at hfits
  | writeMiss addr' v =>
      by_cases heq : addr = addr'
      · rw [heq]
        rfl
      · simp [fits, heq] at hfits
  | _ => cases hfits

end Reads

/-- In no node does a hit of `doget` ask. -/
def ReadsInv (s : State) : Prop := ∀ m, ReadsServed (s.nodes m)

section Waiting

variable {cfg : Config} {s s' : State} {m h b : Nat} {c : Caller}

theorem ReadsInv.setNode {node : Node} (hinv : ReadsInv s) (hnode : ReadsServed node) :
    ReadsInv (s.setNode m node) := by
  intro m'
  show ReadsServed (Function.update s.nodes m node m')
  by_cases hm : m' = m
  · rw [hm, Function.update_self]
    exact hnode
  · rw [Function.update_of_ne hm]
    exact hinv m'

theorem readsInv_answer {src : Nat} {r : Reply} (hanswer : answer s h c src r = some s') (hinv : ReadsInv s) :
    ReadsInv s' := by
  rcases answer_cases hanswer with ⟨p, x, -, rfl⟩ | ⟨t, node, -, hnode, rfl⟩
  · exact hinv
  · exact hinv.setNode (readsServed_reply (hinv h) hnode)

theorem readsServed_tryRenew {node node' : Node} {addr : Nat} {v : List Word} {x : Fin cacheSize}
    (hreads : ReadsServed node) (hnode : tryRenew node addr v x = some node') : ReadsServed node' := by
  intro t
  rw [(sameButWords_tryRenew hnode).phase]
  exact hreads t

theorem readsInv_served (hinv : ReadsInv s) (hserve : Served cfg s h c s') : ReadsInv s' := by
  cases hserve with
  | renewEnd _ hnode => exact hinv.setNode (readsServed_tryRenew (hinv h) hnode)
  | innerEnd _ _ hnode => exact hinv.setNode (readsServed_tryRenew (hinv h) hnode)
  | readMiss _ _ hanswer => exact readsInv_answer hanswer hinv
  | writeEnd _ _ hanswer => exact readsInv_answer hanswer hinv
  | writeMissEnd _ _ hanswer => exact readsInv_answer hanswer hinv
  | bad => exact hinv.setNode (hinv h)
  | _ => exact hinv

theorem readsInv_step {a : Act} (hinv : ReadsInv s) (hstep : Stepped cfg s a s') : ReadsInv s' := by
  cases hstep with
  | @cache m t a node hact ha _ =>
      exact hinv.setNode (readsServed_acted (hinv m) (acted_of_act hact ha))
  | @writebackOwn m t oldkey op x hphase _ _ =>
      exact hinv.setNode ((hinv m).of_update rfl fun _ _ _ heq => by cases heq)
  | @writebackSend m t oldkey op x hphase _ =>
      exact hinv.setNode ((hinv m).of_update rfl fun _ _ _ heq => by cases heq)
  | requestOwn _ hnode _ => exact hinv.setNode (readsServed_request (hinv _) hnode)
  | requestSend _ hnode _ _ => exact hinv.setNode (readsServed_request (hinv _) hnode)
  | reply _ _ _ _ hnode => exact hinv.setNode (readsServed_reply (hinv _) hnode)
  | @replyBad m t op hit r rest _ _ _ _ => exact hinv.setNode (hinv m)
  | receive => exact hinv
  | serve hserve => exact readsInv_served hinv hserve

/-- The block of a miss that a server function is about is being filled. -/
theorem filling_of_call {call : Call} (hw : Wired cfg s) (hreads : ReadsInv s)
    (hcall : s.calls h c = some call) (hmsg : call.msg.fetches = some b) :
    ∃ t op x, (s.nodes call.src).phase t = .filling op x true ∧ op.block = b ∧ cfg.home b = h := by
  obtain ⟨t, op, hit, hwaits, hhome, hop⟩ := hw.call_waits hcall (isRequest_of_fetches hmsg)
  have hfetch : (requestOf op hit).fetches = some b ∨ (ownRequest op hit).fetches = some b := by
    rcases hop with hop | hop
    · exact Or.inl (hop ▸ hmsg)
    · exact Or.inr (hop ▸ hmsg)
  obtain ⟨x, hphase, rfl⟩ := filling_of_waits (hreads call.src) hwaits hfetch
  exact ⟨t, op, x, hphase, rfl, (home_blockBase cfg op.addr).trans hhome⟩

/-- The block of an answer is being filled. -/
theorem filling_of_data {addr : Nat} {words : List Word} (hw : Wired cfg s) (hreads : ReadsInv s)
    (hdata : Reply.block addr words ∈ s.data h m) :
    ∃ t op x, (s.nodes m).phase t = .filling op x true ∧ op.block = blockBase addr ∧
      cfg.home (blockBase addr) = h ∧ s.dataLock m h = some t ∧ s.data h m = [.block addr words] := by
  have hlink := hw.link m h
  unfold LinkInv at hlink
  cases hholder : s.dataLock m h with
  | none =>
      rw [hholder] at hlink
      rw [hlink.2.1] at hdata
      cases hdata
  | some t =>
      rw [hholder] at hlink
      obtain ⟨op, hit, hwait⟩ := hlink
      rcases hwait.place with ⟨-, hnil, -⟩ | ⟨-, r, hone, hfits, -⟩
      · rw [hnil] at hdata
        cases hdata
      · rw [hone] at hdata
        obtain rfl := List.mem_singleton.mp hdata
        obtain ⟨x, hphase, hblock⟩ :=
          filling_of_waits (hreads m) hwait.waits (Or.inl (fetches_of_fits hfits))
        refine ⟨t, op, x, hphase, hblock, ?_, rfl, hone⟩
        rw [← hblock]
        exact (home_blockBase cfg op.addr).trans hwait.home

/-- A block that arrives is not valid yet. -/
theorem Arriving.not_valid (hw : Wired cfg s) (hnodes : NodesInv s) (hreads : ReadsInv s)
    (harriving : Arriving cfg s m b) : ¬Valid (s.nodes m) b := by
  rcases harriving with ⟨addr, words, hdata, rfl⟩ | ⟨c, addr, v, stage, hcall, -, rfl⟩
  · obtain ⟨t, op, x, hphase, hblock, -⟩ := filling_of_data hw hreads hdata
    rw [← hblock]
    exact not_valid_of_filling (hnodes m) hphase
  · obtain ⟨t, op, x, hphase, hblock, -⟩ := filling_of_call hw hreads hcall rfl
    rw [← hblock]
    exact not_valid_of_filling (hnodes m) hphase

/-- The two misses that a step may put into the directory. -/
theorem entered_cases {a : Act} (hentered : entered s a = some (m, b)) : ∃ h c, a = .serve h c ∧
    (s.calls h c = some ⟨m, .readMiss b, .entry⟩ ∨
      ∃ addr v, s.calls h c = some ⟨m, .writeMiss addr v, .stored⟩ ∧ blockBase addr = b) := by
  cases a with
  | serve h c =>
      simp only [entered] at hentered
      split at hentered
      · rename_i src addr hcall
        obtain ⟨rfl, rfl⟩ := Prod.mk.inj (Option.some.inj hentered)
        exact ⟨h, c, rfl, Or.inl hcall⟩
      · rename_i src addr v hcall
        obtain ⟨rfl, rfl⟩ := Prod.mk.inj (Option.some.inj hentered)
        exact ⟨h, c, rfl, Or.inr ⟨addr, v, hcall, rfl⟩⟩
      · cases hentered
  | _ => cases hentered

theorem entered_readMiss {src addr : Nat} (hcall : s.calls h c = some ⟨src, .readMiss addr, .entry⟩) :
    entered s (.serve h c) = some (src, addr) := by
  simp only [entered, hcall]

theorem entered_writeMiss {src addr : Nat} {v : List Word}
    (hcall : s.calls h c = some ⟨src, .writeMiss addr v, .stored⟩) :
    entered s (.serve h c) = some (src, blockBase addr) := by
  simp only [entered, hcall]

/-- The block of a read miss is the address of a block. -/
theorem blockBase_of_readMiss {src addr : Nat} {stage : Stage} (hw : Wired cfg s)
    (hcall : s.calls h c = some ⟨src, .readMiss addr, stage⟩) : blockBase addr = addr := by
  obtain ⟨t, op, hit, -, -, hmsg⟩ := hw.call_waits hcall rfl
  cases op with
  | get addr' =>
      obtain rfl := Message.readMiss.inj (hmsg.elim id id : Message.readMiss addr = .readMiss (blockBase addr'))
      exact blockBase_blockBase addr'
  | put addr' v => cases hit <;> rcases hmsg with hmsg | hmsg <;> cases hmsg

/-- A miss that goes into the directory is of a block that is not valid, and at its home. -/
theorem entered_spec {a : Act} (hw : Wired cfg s) (hnodes : NodesInv s) (hreads : ReadsInv s)
    (hentered : entered s a = some (m, b)) :
    ¬Valid (s.nodes m) b ∧ ∃ c, a = .serve (cfg.home b) c := by
  obtain ⟨h, c, rfl, hcall | ⟨addr, v, hcall, rfl⟩⟩ := entered_cases hentered
  · have hfetch : (Message.readMiss b).fetches = some b := congrArg some (blockBase_of_readMiss hw hcall)
    obtain ⟨t, op, x, hphase, rfl, rfl⟩ := filling_of_call hw hreads hcall hfetch
    exact ⟨not_valid_of_filling (hnodes m) hphase, c, rfl⟩
  · obtain ⟨t, op, x, hphase, hblock, rfl⟩ := filling_of_call hw hreads hcall rfl
    rw [← hblock]
    exact ⟨not_valid_of_filling (hnodes m) hphase, c, rfl⟩

end Waiting

/-! ## Where a writeback comes from -/

section Due

variable {cfg : Config} {s s' : State} {m h b : Nat} {c : Caller}

/-- One node is replaced. -/
theorem swappedOut_of_setNode {m' : Nat} {node : Node} (hnode : SwappedOut node b → SwappedOut (s.nodes m) b)
    (hswapped : SwappedOut (Function.update s.nodes m node m') b) : SwappedOut (s.nodes m') b := by
  by_cases hm : m' = m
  · subst hm
    rw [Function.update_self] at hswapped
    exact hnode hswapped
  · rwa [Function.update_of_ne hm] at hswapped

theorem swappedOut_request {node node' : Node} {t : Nat} (hnode : node.request t = some node')
    (hswapped : SwappedOut node' b) : SwappedOut node b := by
  unfold Node.request at hnode
  split at hnode
  · obtain rfl := Option.some.inj hnode
    exact hswapped.of_update rfl fun _ _ heq => by cases heq
  · obtain rfl := Option.some.inj hnode
    exact hswapped.of_update rfl fun _ _ heq => by cases heq
  · cases hnode

theorem swappedOut_reply {node node' : Node} {t : Nat} {words : List Word}
    (hnode : node.reply t words = some node') (hswapped : SwappedOut node' b) : SwappedOut node b := by
  unfold Node.reply at hnode
  split at hnode
  · obtain rfl := Option.some.inj hnode
    exact hswapped.of_update rfl fun _ _ heq => by cases heq
  · obtain rfl := Option.some.inj hnode
    exact hswapped.of_update rfl fun _ _ heq => by cases heq
  · cases hnode

theorem swappedOut_tryRenew {node node' : Node} {addr : Nat} {v : List Word} {x : Fin cacheSize}
    (hnode : tryRenew node addr v x = some node') (hswapped : SwappedOut node' b) : SwappedOut node b := by
  obtain ⟨t, op, y, ht⟩ := hswapped
  rw [(sameButWords_tryRenew hnode).phase] at ht
  exact ⟨t, op, y, ht⟩

theorem swappedOut_answer {s₀ : State} {src : Nat} {r : Reply} (hanswer : answer s₀ h c src r = some s')
    (hs₀ : s₀.nodes = s.nodes) (hswapped : SwappedOut (s'.nodes m) b) : SwappedOut (s.nodes m) b := by
  rw [← hs₀]
  rcases answer_cases hanswer with ⟨p, x, -, rfl⟩ | ⟨t, node, -, hnode, rfl⟩
  · exact hswapped
  · exact swappedOut_of_setNode (swappedOut_reply hnode) hswapped

theorem swappedOut_of_served (hserve : Served cfg s h c s') (hswapped : SwappedOut (s'.nodes m) b) :
    SwappedOut (s.nodes m) b := by
  cases hserve with
  | renewEnd _ hnode => exact swappedOut_of_setNode (swappedOut_tryRenew hnode) hswapped
  | innerEnd _ _ hnode => exact swappedOut_of_setNode (swappedOut_tryRenew hnode) hswapped
  | readMiss _ _ hanswer => exact swappedOut_answer hanswer rfl hswapped
  | writeEnd _ _ hanswer => exact swappedOut_answer hanswer rfl hswapped
  | writeMissEnd _ _ hanswer => exact swappedOut_answer hanswer rfl hswapped
  | bad =>
      refine swappedOut_of_setNode ?_ hswapped
      exact fun hnew => hnew
  | _ => exact hswapped

theorem swappedOut_of_stepped {a : Act} (hnodes : NodesInv s) (hstep : Stepped cfg s a s')
    (hswapped : SwappedOut (s'.nodes m) b) :
    SwappedOut (s.nodes m) b ∨ (a.evicts s = true ∧ Valid (s.nodes m) b ∧ ¬Valid (s'.nodes m) b) := by
  cases hstep with
  | @cache m' t a node hact ha _ =>
      change SwappedOut (Function.update s.nodes m' node m) b at hswapped
      show _ ∨ (_ ∧ _ ∧ ¬Valid (Function.update s.nodes m' node m) b)
      by_cases hm : m = m'
      · subst hm
        rw [Function.update_self] at hswapped ⊢
        exact swappedOut_of_acted (hnodes m) (acted_of_act hact ha) hswapped
      · rw [Function.update_of_ne hm] at hswapped
        exact Or.inl hswapped
  | writebackOwn hphase _ _ =>
      refine Or.inl (swappedOut_of_setNode ?_ hswapped)
      exact fun hnew => hnew.of_update rfl fun _ _ heq => by cases heq
  | writebackSend hphase _ =>
      refine Or.inl (swappedOut_of_setNode ?_ hswapped)
      exact fun hnew => hnew.of_update rfl fun _ _ heq => by cases heq
  | requestOwn _ hnode _ => exact Or.inl (swappedOut_of_setNode (swappedOut_request hnode) hswapped)
  | requestSend _ hnode _ _ => exact Or.inl (swappedOut_of_setNode (swappedOut_request hnode) hswapped)
  | reply _ _ _ _ hnode => exact Or.inl (swappedOut_of_setNode (swappedOut_reply hnode) hswapped)
  | replyBad =>
      refine Or.inl (swappedOut_of_setNode ?_ hswapped)
      exact fun hnew => hnew
  | receive => exact Or.inl hswapped
  | serve hserve => exact Or.inl (swappedOut_of_served hserve hswapped)

/-- A writeback comes from a block that was valid and is not any more. -/
theorem writebackDue_of_stepped {a : Act} (hnodes : NodesInv s) (hstep : Stepped cfg s a s')
    (hdue : WritebackDue cfg s' m b) :
    WritebackDue cfg s m b ∨ (a.evicts s = true ∧ Valid (s.nodes m) b ∧ ¬Valid (s'.nodes m) b) := by
  rcases hdue with hswapped | hmem | ⟨c, stage, hcall⟩
  · exact (swappedOut_of_stepped hnodes hstep hswapped).imp Or.inl id
  · rcases sends_of_stepped hstep hmem with hmem | hsends
    · exact Or.inl (Or.inr (Or.inl hmem))
    · generalize hmsg : Message.writeback b = msg at hsends
      cases hsends with
      | writeback hphase _ =>
          obtain rfl := Message.writeback.inj hmsg
          exact Or.inl (Or.inl ⟨_, _, _, hphase⟩)
      | @request t op hit _ _ =>
          have hreq := isRequest_requestOf op hit
          rw [← hmsg] at hreq
          cases hreq
      | renew _ _ _ => cases hmsg
  · cases runs_of_stepped hstep hcall with
    | old hold => exact Or.inl (Or.inr (Or.inr ⟨c, _, hold⟩))
    | received _ hmem => exact Or.inl (Or.inr (Or.inl hmem))
    | @own t op hit _ _ _ hown =>
        have hreq := isRequest_ownRequest op hit
        rw [← hown] at hreq
        cases hreq

end Due

/-! ## Where a block comes from -/

section Held

variable {cfg : Config} {s s' : State} {m h b : Nat} {c : Caller}

/-- One node is replaced. -/
theorem valid_of_setNode {m' : Nat} {node : Node} (hnode : Valid node b → Valid (s.nodes m) b)
    (hvalid : Valid (Function.update s.nodes m node m') b) : Valid (s.nodes m') b := by
  by_cases hm : m' = m
  · subst hm
    rw [Function.update_self] at hvalid
    exact hnode hvalid
  · rwa [Function.update_of_ne hm] at hvalid

theorem valid_request {node node' : Node} {t : Nat} (hnode : node.request t = some node')
    (hvalid : Valid node' b) : Valid node b := by
  unfold Node.request at hnode
  split at hnode
  · obtain rfl := Option.some.inj hnode
    exact hvalid
  · obtain rfl := Option.some.inj hnode
    exact hvalid
  · cases hnode

/-- The answer to its own thread makes the block of the request valid. -/
theorem valid_of_answer {s₀ : State} {call : Call} {r : Reply} (hw : Wired cfg s)
    (hcall : s.calls h c = some call) (hanswer : answer s₀ h c call.src r = some s') (hs₀ : s₀.nodes = s.nodes)
    (hvalid : Valid (s'.nodes m) b) :
    Valid (s.nodes m) b ∨ (m = h ∧ call.src = m ∧ call.msg.fetches = some b) := by
  rcases answer_cases hanswer with ⟨p, x, -, rfl⟩ | ⟨t, node, rfl, hnode, rfl⟩
  · rw [← hs₀]
    exact Or.inl hvalid
  · change Valid (Function.update s₀.nodes h node m) b at hvalid
    rw [hs₀] at hvalid hnode
    by_cases hm : m = h
    · subst hm
      rw [Function.update_self] at hvalid
      rcases valid_of_reply hnode hvalid with hvalid | ⟨op, x, hphase, rfl⟩
      · exact Or.inl hvalid
      · obtain ⟨hsrc, op', hit, hwaits, -, hmsg⟩ := hw.own m t call hcall
        rw [hphase] at hwaits
        obtain ⟨rfl, rfl⟩ := Prod.mk.inj (Option.some.inj hwaits)
        refine Or.inr ⟨rfl, hsrc, ?_⟩
        rw [hmsg]
        cases op with
        | get addr => exact congrArg some (blockBase_blockBase addr)
        | put addr v => rfl
    · rw [Function.update_of_ne hm] at hvalid
      exact Or.inl hvalid

theorem valid_of_served (hw : Wired cfg s) (hreads : ReadsInv s) (hserve : Served cfg s h c s')
    (hvalid : Valid (s'.nodes m) b) : Held cfg s m b ∨ entered s (.serve h c) = some (m, b) := by
  cases hserve with
  | renewEnd _ hnode =>
      refine Or.inl (Or.inl (valid_of_setNode ?_ hvalid))
      exact fun hnew => hnew.congr (sameButWords_tryRenew hnode).table
  | innerEnd _ _ hnode =>
      refine Or.inl (Or.inl (valid_of_setNode ?_ hvalid))
      exact fun hnew => hnew.congr (sameButWords_tryRenew hnode).table
  | @readMiss src addr _ hcall _ hanswer =>
      rcases valid_of_answer hw hcall hanswer rfl hvalid with hvalid | ⟨-, rfl, hfetch⟩
      · exact Or.inl (Or.inl hvalid)
      · rw [entered_readMiss hcall, ← Option.some.inj hfetch, blockBase_of_readMiss hw hcall]
        exact Or.inr rfl
  | writeEnd hcall _ hanswer =>
      rcases valid_of_answer hw hcall hanswer rfl hvalid with hvalid | ⟨-, -, hfetch⟩
      · exact Or.inl (Or.inl hvalid)
      · cases hfetch
  | @writeMissEnd src addr i v old _ hcall _ hanswer =>
      rcases valid_of_answer hw hcall hanswer rfl hvalid with hvalid | ⟨rfl, rfl, hfetch⟩
      · exact Or.inl (Or.inl hvalid)
      · obtain ⟨t, op, x, -, -, rfl⟩ := filling_of_call hw hreads hcall hfetch
        exact Or.inl (Or.inr (Or.inr ⟨c, addr, v, _, hcall, trivial, Option.some.inj hfetch⟩))
  | bad =>
      refine Or.inl (Or.inl (valid_of_setNode ?_ hvalid))
      exact fun hnew => hnew
  | _ => exact Or.inl (Or.inl hvalid)

theorem valid_of_stepped {a : Act} (hw : Wired cfg s) (hnodes : NodesInv s) (hreads : ReadsInv s)
    (hstep : Stepped cfg s a s') (hvalid : Valid (s'.nodes m) b) :
    Held cfg s m b ∨ entered s a = some (m, b) := by
  cases hstep with
  | cache hact ha _ =>
      exact Or.inl (Or.inl (valid_of_setNode (valid_of_acted (hnodes _) (acted_of_act hact ha)) hvalid))
  | writebackOwn =>
      refine Or.inl (Or.inl (valid_of_setNode ?_ hvalid))
      exact fun hnew => hnew
  | writebackSend =>
      refine Or.inl (Or.inl (valid_of_setNode ?_ hvalid))
      exact fun hnew => hnew
  | requestOwn _ hnode _ => exact Or.inl (Or.inl (valid_of_setNode (valid_request hnode) hvalid))
  | requestSend _ hnode _ _ => exact Or.inl (Or.inl (valid_of_setNode (valid_request hnode) hvalid))
  | @reply m' t op hit r rest words node hwaits hlock hdata hfits hnode =>
      change Valid (Function.update s.nodes m' node m) b at hvalid
      by_cases hm : m = m'
      · subst hm
        rw [Function.update_self] at hvalid
        rcases valid_of_reply hnode hvalid with hvalid | ⟨op', x, hphase, rfl⟩
        · exact Or.inl (Or.inl hvalid)
        · -- the answer that the thread takes is the one that was arriving
          rw [hphase] at hwaits
          obtain ⟨rfl, rfl⟩ := Prod.mk.inj (Option.some.inj hwaits)
          cases r with
          | written addr =>
              cases op' with
              | get addr' => cases hfits
              | put addr' v => cases hfits
          | block addr words' =>
              have hsome := Option.isSome_iff_exists.mpr ⟨words, hfits⟩
              obtain ⟨y, -, hblock⟩ := filling_of_waits (hreads m) (congrArg waits hphase)
                (Or.inl (fetches_of_fits hsome))
              refine Or.inl (Or.inr (Or.inl ⟨addr, words', ?_, hblock.symm⟩))
              rw [show cfg.home op'.block = cfg.home op'.addr from home_blockBase cfg op'.addr, hdata]
              exact List.mem_cons_self
      · rw [Function.update_of_ne hm] at hvalid
        exact Or.inl (Or.inl hvalid)
  | replyBad =>
      refine Or.inl (Or.inl (valid_of_setNode ?_ hvalid))
      exact fun hnew => hnew
  | receive => exact Or.inl (Or.inl hvalid)
  | serve hserve => exact valid_of_served hw hreads hserve hvalid

/-- The answer of a server function is to its own request. -/
theorem data_of_answer {s₀ : State} {r : Reply} {src addr m' : Nat} {words : List Word}
    (hanswer : answer s₀ h c src r = some s') (hs₀ : s₀.data = s.data)
    (hdata : Reply.block addr words ∈ s'.data m' m) :
    Reply.block addr words ∈ s.data m' m ∨ (m' = h ∧ m = src ∧ r = .block addr words) := by
  rcases answer_cases hanswer with ⟨p, x, rfl, rfl⟩ | ⟨t, node, -, -, rfl⟩
  · change _ ∈ setTwo s₀.data h src (s₀.data h src ++ [r]) m' m at hdata
    rw [hs₀] at hdata
    by_cases heq : m' = h ∧ m = src
    · obtain ⟨rfl, rfl⟩ := heq
      rw [setTwo_self] at hdata
      rcases List.mem_append.mp hdata with hdata | hdata
      · exact Or.inl hdata
      · exact Or.inr ⟨rfl, rfl, (List.mem_singleton.mp hdata).symm⟩
    · rw [setTwo_of_ne _ _ _ _ heq] at hdata
      exact Or.inl hdata
  · rw [← hs₀]
    exact Or.inl hdata

/-- An answer with a block is new only at the end of a miss. -/
theorem data_of_stepped {a : Act} {m' addr : Nat} {words : List Word} (hstep : Stepped cfg s a s')
    (hdata : Reply.block addr words ∈ s'.data m' m) : Reply.block addr words ∈ s.data m' m ∨
      ∃ c, a = .serve m' c ∧ ((s.calls m' c = some ⟨m, .readMiss addr, .entry⟩ ∧
          words = backendBlock s.backend addr) ∨
        ∃ v old i, s.calls m' c = some ⟨m, .writeMiss addr v, .loop old i⟩ ∧
          words = backendBlock s.backend (blockBase addr)) := by
  cases hstep with
  | @reply m₁ t op hit r rest words' node _ _ hdata' _ _ =>
      change _ ∈ setTwo s.data (cfg.home op.addr) m₁ rest m' m at hdata
      by_cases heq : m' = cfg.home op.addr ∧ m = m₁
      · obtain ⟨rfl, rfl⟩ := heq
        rw [setTwo_self] at hdata
        rw [hdata']
        exact Or.inl (List.mem_cons_of_mem _ hdata)
      · rw [setTwo_of_ne _ _ _ _ heq] at hdata
        exact Or.inl hdata
  | @serve h c _ hserve =>
      cases hserve with
      | readMiss hcall _ hanswer =>
          rcases data_of_answer hanswer rfl hdata with hdata | ⟨rfl, rfl, hr⟩
          · exact Or.inl hdata
          · obtain ⟨rfl, rfl⟩ := Reply.block.inj hr
            exact Or.inr ⟨c, rfl, Or.inl ⟨hcall, rfl⟩⟩
      | writeEnd _ _ hanswer =>
          rcases data_of_answer hanswer rfl hdata with hdata | ⟨-, -, hr⟩
          · exact Or.inl hdata
          · cases hr
      | writeMissEnd hcall _ hanswer =>
          rcases data_of_answer hanswer rfl hdata with hdata | ⟨rfl, rfl, hr⟩
          · exact Or.inl hdata
          · obtain ⟨rfl, rfl⟩ := Reply.block.inj hr
            exact Or.inr ⟨c, rfl, Or.inr ⟨_, _, _, hcall, rfl⟩⟩
      | _ => exact Or.inl hdata
  | _ => exact Or.inl hdata

/-- The server function at one place is replaced. -/
theorem call_of_setTwo {new : Option Call} {h' : Nat} {c' : Caller} {call : Call}
    (hcall : setTwo s.calls h c new h' c' = some call) :
    s.calls h' c' = some call ∨ (h' = h ∧ c' = c ∧ new = some call) := by
  by_cases heq : h' = h ∧ c' = c
  · obtain ⟨rfl, rfl⟩ := heq
    rw [setTwo_self] at hcall
    exact Or.inr ⟨rfl, rfl, hcall⟩
  · rw [setTwo_of_ne _ _ _ _ heq] at hcall
    exact Or.inl hcall

/-- A server function is in its loop when it was there before, or when it gets the lock of the
directory. -/
theorem loop_of_served {h' : Nat} {c' : Caller} {src : Nat} {msg : Message} {stage : Stage}
    (hserve : Served cfg s h c s') (hcall' : s'.calls h' c' = some ⟨src, msg, stage⟩) (hloop : stage.inLoop) :
    (∃ stage, s.calls h' c' = some ⟨src, msg, stage⟩ ∧ stage.inLoop) ∨
      (h' = h ∧ c' = c ∧ s.calls h c = some ⟨src, msg, .stored⟩) := by
  have hkept : ∀ new, setTwo s.calls h c new h' c' = some ⟨src, msg, stage⟩ →
      (∀ call, new = some call → call.stage.inLoop → ∃ stage, s.calls h c = some ⟨call.src, call.msg, stage⟩ ∧
        (stage.inLoop ∨ stage = .stored)) →
      (∃ stage, s.calls h' c' = some ⟨src, msg, stage⟩ ∧ stage.inLoop) ∨
        (h' = h ∧ c' = c ∧ s.calls h c = some ⟨src, msg, .stored⟩) := by
    intro new hnew hold
    rcases call_of_setTwo hnew with hsame | ⟨rfl, rfl, hself⟩
    · exact Or.inl ⟨stage, hsame, hloop⟩
    · obtain ⟨stage', hcall, hstage' | rfl⟩ := hold _ hself hloop
      · exact Or.inl ⟨stage', hcall, hstage'⟩
      · exact Or.inr ⟨rfl, rfl, hcall⟩
  have hended : setTwo s.calls h c none h' c' = some ⟨src, msg, stage⟩ →
      (∃ stage, s.calls h' c' = some ⟨src, msg, stage⟩ ∧ stage.inLoop) ∨
        (h' = h ∧ c' = c ∧ s.calls h c = some ⟨src, msg, .stored⟩) :=
    fun hnone => hkept none hnone fun _ heq => by cases heq
  have hmoved : ∀ {src₀ : Nat} {msg₀ : Message} {old new : Stage}, s.calls h c = some ⟨src₀, msg₀, old⟩ →
      (new.inLoop → old.inLoop ∨ old = .stored) →
      setTwo s.calls h c (some ⟨src₀, msg₀, new⟩) h' c' = some ⟨src, msg, stage⟩ →
      (∃ stage, s.calls h' c' = some ⟨src, msg, stage⟩ ∧ stage.inLoop) ∨
        (h' = h ∧ c' = c ∧ s.calls h c = some ⟨src, msg, .stored⟩) := by
    intro src₀ msg₀ old new hold hstage hnew
    refine hkept _ hnew fun call heq hl => ?_
    obtain rfl := Option.some.inj heq
    exact ⟨old, hold, hstage hl⟩
  cases hserve with
  | renewMiss => exact hended hcall'
  | renewEnd => exact hended hcall'
  | writeback => exact hended hcall'
  | readMiss _ _ hanswer =>
      rw [(control_answer hanswer).2] at hcall'
      exact hended hcall'
  | writeEnd _ _ hanswer =>
      rw [(control_answer hanswer).2] at hcall'
      exact hended hcall'
  | writeMissEnd _ _ hanswer =>
      rw [(control_answer hanswer).2] at hcall'
      exact hended hcall'
  | renewFound hcall _ => exact hmoved hcall False.elim hcall'
  | store hcall _ => exact hmoved hcall False.elim hcall'
  | writeSection hcall _ => exact hmoved hcall (fun _ => Or.inr rfl) hcall'
  | writeMissSection hcall _ => exact hmoved hcall (fun _ => Or.inr rfl) hcall'
  | loopSkip hcall _ _ _ => exact hmoved hcall (fun _ => Or.inl trivial) hcall'
  | loopOwn hcall _ _ _ => exact hmoved hcall (fun _ => Or.inl trivial) hcall'
  | loopSend hcall _ _ _ _ => exact hmoved hcall (fun _ => Or.inl trivial) hcall'
  | innerEnd hcall _ _ => exact hmoved hcall (fun _ => Or.inl trivial) hcall'
  | bad => exact Or.inl ⟨stage, hcall', hloop⟩

theorem loop_of_stepped {a : Act} {src : Nat} {msg : Message} {stage : Stage} (hstep : Stepped cfg s a s')
    (hcall' : s'.calls h c = some ⟨src, msg, stage⟩) (hloop : stage.inLoop) :
    (∃ stage, s.calls h c = some ⟨src, msg, stage⟩ ∧ stage.inLoop) ∨
      (a = .serve h c ∧ s.calls h c = some ⟨src, msg, .stored⟩) := by
  cases hstep with
  | requestOwn =>
      rcases call_of_setTwo hcall' with hsame | ⟨-, -, hnew⟩
      · exact Or.inl ⟨stage, hsame, hloop⟩
      · obtain ⟨-, -, rfl⟩ := Call.mk.inj (Option.some.inj hnew)
        exact hloop.elim
  | receive =>
      rcases call_of_setTwo hcall' with hsame | ⟨-, -, hnew⟩
      · exact Or.inl ⟨stage, hsame, hloop⟩
      · obtain ⟨-, -, rfl⟩ := Call.mk.inj (Option.some.inj hnew)
        exact hloop.elim
  | serve hserve =>
      refine (loop_of_served hserve hcall' hloop).imp id ?_
      rintro ⟨rfl, rfl, hcall⟩
      exact ⟨rfl, hcall⟩
  | _ => exact Or.inl ⟨stage, hcall', hloop⟩

/-- A block arrives when it did before or when its miss goes into the directory. -/
theorem arriving_of_stepped {a : Act} (hw : Wired cfg s) (hstep : Stepped cfg s a s')
    (harriving : Arriving cfg s' m b) : Arriving cfg s m b ∨ entered s a = some (m, b) := by
  rcases harriving with ⟨addr, words, hdata, rfl⟩ | ⟨c, addr, v, stage, hcall, hloop, rfl⟩
  · rcases data_of_stepped hstep hdata with hdata | ⟨c, rfl, ⟨hcall, -⟩ | ⟨v, old, i, hcall, -⟩⟩
    · exact Or.inl (Or.inl ⟨addr, words, hdata, rfl⟩)
    · exact Or.inr ((entered_readMiss hcall).trans (by rw [blockBase_of_readMiss hw hcall]))
    · exact Or.inl (Or.inr ⟨c, addr, v, _, hcall, trivial, rfl⟩)
  · rcases loop_of_stepped hstep hcall hloop with ⟨stage', hcall, hloop⟩ | ⟨rfl, hcall⟩
    · exact Or.inl (Or.inr ⟨c, addr, v, stage', hcall, hloop, rfl⟩)
    · exact Or.inr (entered_writeMiss hcall)

/-- A node holds a block as before, or its miss goes into the directory. -/
theorem held_of_stepped {a : Act} (hw : Wired cfg s) (hnodes : NodesInv s) (hreads : ReadsInv s)
    (hstep : Stepped cfg s a s') (hheld : Held cfg s' m b) : Held cfg s m b ∨ entered s a = some (m, b) := by
  rcases hheld with hvalid | harriving
  · exact valid_of_stepped hw hnodes hreads hstep hvalid
  · exact (arriving_of_stepped hw hstep harriving).imp Or.inr id

end Held

/-! ## The directory -/

section Directory

variable {cfg : Config} {s s' : State} {m h b : Nat} {c : Caller}

/-- One bit is set or cleared. -/
theorem directory_setBit {src addr b' m' h' : Nat} {bit : Bool} :
    (s.setBit h addr src bit).directory h' b' m' =
      if h' = h ∧ b' = addr ∧ m' = src then bit else s.directory h' b' m' := by
  show setTwo s.directory h addr (Function.update (s.directory h addr) src bit) h' b' m' = _
  by_cases heq : h' = h ∧ b' = addr
  · obtain ⟨rfl, rfl⟩ := heq
    rw [setTwo_self]
    by_cases hm : m' = src
    · rw [hm, Function.update_self, if_pos ⟨rfl, rfl, rfl⟩]
    · rw [Function.update_of_ne hm, if_neg fun hc => hm hc.2.2]
  · rw [setTwo_of_ne _ _ _ _ heq, if_neg fun hc => heq ⟨hc.1, hc.2.1⟩]

theorem directory_answer {src : Nat} {r : Reply} (hanswer : answer s h c src r = some s') :
    s'.directory = s.directory := by
  rcases answer_cases hanswer with ⟨p, x, -, rfl⟩ | ⟨t, node, -, -, rfl⟩
  · rfl
  · rfl

/-- A bit is cleared by a writeback that was on its way. -/
theorem bit_of_stepped {a : Act} (hstep : Stepped cfg s a s') (hbit : s.directory (cfg.home b) b m = true)
    (hdue : ¬WritebackDue cfg s m b) : s'.directory (cfg.home b) b m = true := by
  cases hstep with
  | @writebackOwn m' t oldkey op x hphase _ _ =>
      show ((s.setNode _ _).setBit m' oldkey m' false).directory (cfg.home b) b m = true
      rw [directory_setBit, if_neg]
      · exact hbit
      · rintro ⟨-, rfl, rfl⟩
        exact hdue (Or.inl ⟨t, op, x, hphase⟩)
  | serve hserve =>
      cases hserve with
      | writeback hcall _ =>
          show (s.setBit _ _ _ false).directory (cfg.home b) b m = true
          rw [directory_setBit, if_neg]
          · exact hbit
          · rintro ⟨rfl, rfl, rfl⟩
            exact hdue (Or.inr (Or.inr ⟨_, _, hcall⟩))
      | readMiss _ _ hanswer =>
          rw [directory_answer hanswer]
          show (s.setBit _ _ _ true).directory (cfg.home b) b m = true
          rw [directory_setBit, hbit, ite_self]
      | writeMissSection _ _ =>
          show (s.setBit _ _ _ true).directory (cfg.home b) b m = true
          rw [directory_setBit, hbit, ite_self]
      | writeEnd _ _ hanswer =>
          rw [directory_answer hanswer]
          exact hbit
      | writeMissEnd _ _ hanswer =>
          rw [directory_answer hanswer]
          exact hbit
      | _ => exact hbit
  | _ => exact hbit

/-- The step of a server function, which is at the home of its address. -/
theorem serveCall_of_step {call : Call} (hw : Wired cfg s) (ha : Addressed cfg s)
    (hcall : s.calls h c = some call) (hstep : step cfg s (.serve h c) = some s') :
    serveCall cfg s h c call = some s' := by
  unfold step at hstep
  obtain ⟨-, hserve⟩ := Option.ite_none_right_eq_some.mp hstep
  simp only [Act.apply, serve, hcall] at hserve
  rwa [if_neg (not_misses hw ha hcall)] at hserve

/-- A miss that goes into the directory has its bit there. -/
theorem bit_of_entered {a : Act} (hw : Wired cfg s) (ha : Addressed cfg s) (hreads : ReadsInv s)
    (hentered : entered s a = some (m, b)) (hstep : step cfg s a = some s') :
    s'.directory (cfg.home b) b m = true := by
  obtain ⟨h, c, rfl, hcall | ⟨addr, v, hcall, rfl⟩⟩ := entered_cases hentered
  · have hserve := serveCall_of_step hw ha hcall hstep
    obtain ⟨-, hanswer⟩ := Option.ite_none_right_eq_some.mp hserve
    have hfetch : (Message.readMiss b).fetches = some b := congrArg some (blockBase_of_readMiss hw hcall)
    obtain ⟨-, -, -, -, -, rfl⟩ := filling_of_call hw hreads hcall hfetch
    rw [directory_answer hanswer]
    show (s.setBit _ _ _ true).directory (cfg.home b) b m = true
    rw [directory_setBit, if_pos ⟨rfl, rfl, rfl⟩]
  · have hserve := serveCall_of_step hw ha hcall hstep
    obtain ⟨-, hs'⟩ := Option.ite_none_right_eq_some.mp hserve
    obtain rfl := Option.some.inj hs'
    obtain ⟨-, -, -, -, -, rfl⟩ := filling_of_call hw hreads hcall rfl
    show (s.setBit _ _ _ true).directory _ (blockBase addr) m = true
    rw [directory_setBit, if_pos ⟨rfl, rfl, rfl⟩]

/-- The directory keeps the bit of a node, when its next miss of the block is in order. -/
theorem coveredAt_step {a : Act} (hw : Wired cfg s) (ha : Addressed cfg s) (hnodes : NodesInv s)
    (hreads : ReadsInv s) (hc : CoveredAt cfg s m b) (hok : entered s a = some (m, b) → ¬WritebackDue cfg s m b)
    (hact : step cfg s a = some s') : CoveredAt cfg s' m b := by
  have hstep := stepped_of_step hact
  intro hheld
  constructor
  · rcases held_of_stepped hw hnodes hreads hstep hheld with hold | hentered
    · exact bit_of_stepped hstep (hc hold).1 (hc hold).2
    · exact bit_of_entered hw ha hreads hentered hact
  · intro hdue
    rcases writebackDue_of_stepped hnodes hstep hdue with hdue | ⟨-, hvalid, hgone⟩
    · rcases held_of_stepped hw hnodes hreads hstep hheld with hold | hentered
      · exact (hc hold).2 hdue
      · exact hok hentered hdue
    · -- the block was swapped out, and nobody was filling it
      rcases hheld with hvalid' | harriving
      · exact hgone hvalid'
      · rcases arriving_of_stepped hw hstep harriving with harriving | hentered
        · exact harriving.not_valid hw hnodes hreads hvalid
        · exact (entered_spec hw hnodes hreads hentered).1 hvalid

theorem covered_step {a : Act} (hw : Wired cfg s) (ha : Addressed cfg s) (hnodes : NodesInv s)
    (hreads : ReadsInv s) (hc : Covered cfg s) (hok : InOrder cfg s a) (hact : step cfg s a = some s') :
    Covered cfg s' := by
  have hcovered : ∀ m b, CoveredAt cfg s' m b := fun m b =>
    coveredAt_step hw ha hnodes hreads (fun hheld => ⟨hc.bit m b hheld, hc.due m b hheld⟩) (hok m b) hact
  exact ⟨fun m b hheld => (hcovered m b hheld).1, fun m b hheld => (hcovered m b hheld).2⟩

end Directory

/-! ## Runs -/

/-- What holds in every state of a run in order. -/
structure Tracked (cfg : Config) (s : State) : Prop where
  sound : Sound cfg s
  nodes : NodesInv s
  reads : ReadsInv s

theorem tracked_start (cfg : Config) (junk : Nat → Fin cacheSize → CacheBlock) (backend : Memory) :
    Tracked cfg (start junk backend) where
  sound := sound_start cfg junk backend
  nodes m := CacheThreads.inv_start (junk m)
  reads _ _ _ _ _ h := by cases h

theorem covered_start (cfg : Config) (junk : Nat → Fin cacheSize → CacheBlock) (backend : Memory) :
    Covered cfg (start junk backend) := by
  have hnone : ∀ m b, ¬Held cfg (start junk backend) m b := by
    rintro m b (⟨x, hx, -⟩ | ⟨addr, words, hdata, -⟩ | ⟨c, addr, v, stage, hcall, -⟩)
    · cases hx
    · cases hdata
    · cases hcall
  exact ⟨fun m b hheld => absurd hheld (hnone m b), fun m b hheld => absurd hheld (hnone m b)⟩

section Runs

variable {cfg : Config} {s s' : State}

theorem tracked_step {a : Act} (ht : Tracked cfg s) (hstep : step cfg s a = some s') : Tracked cfg s' where
  sound := sound_step ht.sound hstep
  nodes := nodesInv_step ht.nodes (stepped_of_step hstep)
  reads := readsInv_step ht.reads (stepped_of_step hstep)

theorem covered_run {junk : Nat → Fin cacheSize → CacheBlock} {backend : Memory} {as : List Act}
    (hok : Along (step cfg) (InOrder cfg) (start junk backend) as)
    (hrun : run (step cfg) (start junk backend) as = some s) : Tracked cfg s ∧ Covered cfg s := by
  have hkeeps : ∀ s a s', Tracked cfg s ∧ Covered cfg s → InOrder cfg s a → step cfg s a = some s' →
      Tracked cfg s' ∧ Covered cfg s' := by
    rintro s a s' ⟨ht, hc⟩ hok hstep
    exact ⟨tracked_step ht hstep,
      covered_step ht.sound.wired ht.sound.addressed ht.nodes ht.reads hc hok hstep⟩
  exact invariant_run hkeeps ⟨tracked_start cfg junk backend, covered_start cfg junk backend⟩ hok hrun

/-- As long as no node swaps a block out, every miss is in order. -/
theorem inOrder_of_no_eviction {junk : Nat → Fin cacheSize → CacheBlock} {backend : Memory} {as : List Act}
    (hkept : Along (step cfg) (fun s a => a.evicts s = false) (start junk backend) as) :
    Along (step cfg) (InOrder cfg) (start junk backend) as := by
  have hkeeps : ∀ s a s', (Tracked cfg s ∧ ∀ m b, ¬WritebackDue cfg s m b) → a.evicts s = false →
      step cfg s a = some s' → Tracked cfg s' ∧ ∀ m b, ¬WritebackDue cfg s' m b := by
    rintro s a s' ⟨ht, hnone⟩ hkept hstep
    refine ⟨tracked_step ht hstep, fun m b hdue => ?_⟩
    rcases writebackDue_of_stepped ht.nodes (stepped_of_step hstep) hdue with hdue | ⟨hevicts, -⟩
    · exact hnone m b hdue
    · rw [hkept] at hevicts
      cases hevicts
  refine Along.imp hkeeps ?_ ?_ hkept
  · rintro s a ⟨-, hnone⟩ - m b -
    exact hnone m b
  · refine ⟨tracked_start cfg junk backend, ?_⟩
    rintro m b (⟨t, op, x, hphase⟩ | hmem | ⟨c, stage, hcall⟩)
    · cases hphase
    · cases hmem
    · cases hcall

/-- In a run in which every miss goes into the directory in order, the home of a block has the bit of
every node that has the block, in every state; so the loop of a write to the block that starts there
comes to that node. -/
theorem directory_covers_holders {junk : Nat → Fin cacheSize → CacheBlock} {backend : Memory} {as : List Act}
    (hok : Along (step cfg) (InOrder cfg) (start junk backend) as)
    (hrun : run (step cfg) (start junk backend) as = some s) (m b : Nat) (hvalid : Valid (s.nodes m) b) :
    s.directory (cfg.home b) b m = true ∧
    ∀ c src msg addr v s', Message.stores msg = some (addr, v) → blockBase addr = b →
      s.calls (cfg.home b) c = some ⟨src, msg, .stored⟩ → step cfg s (.serve (cfg.home b) c) = some s' →
      ∃ old, s'.calls (cfg.home b) c = some ⟨src, msg, .loop old 0⟩ ∧ old m = true := by
  obtain ⟨ht, hc⟩ := covered_run hok hrun
  have hbit := hc.bit m b (Or.inl hvalid)
  refine ⟨hbit, ?_⟩
  rintro c src msg addr v s' hmsg rfl hcall hstep
  have hserve := serveCall_of_step ht.sound.wired ht.sound.addressed hcall hstep
  cases msg with
  | write addr' v' =>
      obtain ⟨rfl, rfl⟩ := Prod.mk.inj (Option.some.inj hmsg)
      obtain ⟨-, hs'⟩ := Option.ite_none_right_eq_some.mp hserve
      obtain rfl := Option.some.inj hs'
      exact ⟨_, setTwo_self .., hbit⟩
  | writeMiss addr' v' =>
      obtain ⟨rfl, rfl⟩ := Prod.mk.inj (Option.some.inj hmsg)
      obtain ⟨-, hs'⟩ := Option.ite_none_right_eq_some.mp hserve
      obtain rfl := Option.some.inj hs'
      exact ⟨_, setTwo_self .., hbit⟩
  | _ => cases hmsg

end Runs

/-- Node 0 reads a block of node 1. -/
def readOther : List Act :=
  [.cache 0 0 (.lookup (.get 40)), .cache 0 0 .enterQueue, .cache 0 0 .enterWrite, .request 0 0,
    .receive 1 0 false, .serve 1 (.handler 0 false), .reply 0 0, .cache 0 0 .finish]

theorem directory_covers_reader : ∃ s, run (step pair) (start (fun _ _ => ⟨[], 0, 0⟩) zeros) readOther = some s ∧
    Valid (s.nodes 0) 32 ∧ s.directory 1 32 0 = true := by
  have hmap : (run (step pair) (start (fun _ _ => ⟨[], 0, 0⟩) zeros) readOther).map
      (fun s => ((s.nodes 0).table.cache 32, ((s.nodes 0).table.blocks ⟨0, by decide⟩).key)) =
        some (some ⟨0, by decide⟩, 32) := by
    decide +kernel
  have hkept : checkAlong (step pair) (fun s a => a.evicts s = false)
      (start (fun _ _ => ⟨[], 0, 0⟩) zeros) readOther = true := by
    decide +kernel
  obtain ⟨s, hrun, htable⟩ := Option.map_eq_some_iff.mp hmap
  obtain ⟨hcache, hkey⟩ := Prod.mk.inj htable
  have hvalid : Valid (s.nodes 0) 32 := ⟨_, hcache, hkey, by decide⟩
  exact ⟨s, hrun, hvalid,
    (directory_covers_holders (inOrder_of_no_eviction (along_of_check hkept)) hrun 0 32 hvalid).1⟩

/-- The thread is in no call. -/
def isIdle : Phase → Bool
  | .idle => true
  | _ => false

/-- No message is on its way, no server function runs, and no thread is in a call. -/
def Still (cfg : Config) (s : State) : Prop :=
  ∀ m < cfg.caches, (∀ h < cfg.caches, s.control m h = [] ∧ s.data m h = [] ∧
      ∀ x, (s.calls m (.handler h x)).isNone = true) ∧
    ∀ t < cfg.threads, (s.calls m (.thread t)).isNone = true ∧ isIdle ((s.nodes m).phase t) = true

instance (cfg : Config) (s : State) : Decidable (Still cfg s) :=
  inferInstanceAs (Decidable (∀ m < cfg.caches, _))

/-- Thread 0 swaps a block out, thread 1 fetches it again, and only then does the writeback of thread 0
come to the directory. -/
def refetch : List Act :=
  fetches cacheSize ++ swapTwice.map (fun p => .cache 0 p.1 p.2) ++
    [.writeback 0 1, .request 0 1, .serve 0 (.thread 1), .cache 0 1 .finish,
      .writeback 0 0, .request 0 0, .serve 0 (.thread 0), .cache 0 0 .finish]

theorem holder_not_in_directory : ∃ s, run (step pair) (start (fun _ _ => ⟨[], 0, 0⟩) zeros) refetch = some s ∧
    Still pair s ∧ Valid (s.nodes 0) 0 ∧ s.directory (pair.home 0) 0 0 = false := by
  have hacts : ∀ p ∈ swapTwice, p.1 < pair.threads ∧ Inside p.2 ∧
      ∀ op, p.2 = CacheThreads.Act.lookup op → InBlock op := by
    simp [swapTwice, pair, Inside, InBlock]
  have hswaps : run (step pair) (filledState cacheSize) (swapTwice.map fun p => .cache 0 p.1 p.2) =
      some ((filledState cacheSize).setNode 0 twiceSwapped) :=
    run_cache (m := 0) (by decide) hacts run_swapTwice
  have hmap : (run (step pair) ((filledState cacheSize).setNode 0 twiceSwapped)
      [.writeback 0 1, .request 0 1, .serve 0 (.thread 1), .cache 0 1 .finish,
        .writeback 0 0, .request 0 0, .serve 0 (.thread 0), .cache 0 0 .finish]).map
      (fun s => (decide (Still pair s), (s.nodes 0).table.cache 0,
        ((s.nodes 0).table.blocks ⟨1, by decide⟩).key, s.directory (pair.home 0) 0 0)) =
        some (true, some ⟨1, by decide⟩, 0, false) := by
    decide +kernel
  obtain ⟨s, hrun, hend⟩ := Option.map_eq_some_iff.mp hmap
  obtain ⟨hstill, hend⟩ := Prod.mk.inj hend
  obtain ⟨hcache, hend⟩ := Prod.mk.inj hend
  obtain ⟨hkey, hbit⟩ := Prod.mk.inj hend
  refine ⟨s, ?_, of_decide_eq_true hstill, ⟨_, hcache, hkey, by decide⟩, hbit⟩
  unfold refetch
  rw [run_append, run_append, run_fetches (Nat.le_refl _), Option.bind_some, hswaps, Option.bind_some]
  exact hrun

end Dogee.CacheCluster
