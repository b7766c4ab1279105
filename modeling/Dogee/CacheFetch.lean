import Dogee.CacheCluster

/-!
# A node fetches blocks until its cache is full

The steps of a thread, each with what it needs and where it leads. A thread that finds no free block
swaps out the one with the smallest stamp. In a cluster of two, node 0 fetches blocks of which it is
the home itself; after `cacheSize` of them no block is free, and the first of them is the next to go.
-/

namespace Dogee.CacheCluster

open Transition
open CacheThreads (Op Node Phase)

/-! ## Steps of a thread -/

theorem setPhase_self (node : Node) (t : Nat) (ph : Phase) : (node.setPhase t ph).phase t = ph :=
  Function.update_self ..

section Moves

variable {node : Node} {t : Nat} {op : Op} {b : Fin cacheSize}

theorem lookup_missing (hphase : node.phase t = .idle) (hcache : node.table.cache op.block = none) :
    node.act t (.lookup op) = some (node.setPhase t (.missing op)) := by
  simp only [Node.act, Node.lookup, hphase, hcache]

theorem enterQueue_take {rest : List (Fin cacheSize)} (hphase : node.phase t = .missing op)
    (hlock : node.queueLock = none) (hcache : node.table.cache op.block = none)
    (hqueue : node.table.queue = b :: rest) : node.act t .enterQueue = some ({ node with
      table := node.table.takeFree b rest op.block
      queueLock := some t }.setPhase t (.taking op b)) := by
  simp only [Node.act, Node.enterQueue, hphase, hlock, hcache, hqueue, if_true]

theorem enterQueue_evict (hphase : node.phase t = .missing op)
    (hlock : node.queueLock = none) (hcache : node.table.cache op.block = none)
    (hqueue : node.table.queue = []) (hvictim : CacheTable.victim node.table.blocks = some b) :
    node.act t .enterQueue = some ({ node with queueLock := some t }.setPhase t (.evicting op b)) := by
  simp only [Node.act, Node.enterQueue, hphase, hlock, hcache, hqueue, hvictim, if_true]

theorem enterWrite_taking (hphase : node.phase t = .taking op b) (hfree : (node.lock b).isFree) :
    node.act t .enterWrite = some (({ node with queueLock := none }.setLock b ⟨∅, some t⟩).setPhase t
      (.filling op b false)) := by
  simp only [Node.act, Node.enterWrite, hphase, if_pos hfree]

theorem enterWrite_evicting (hphase : node.phase t = .evicting op b) (hfree : (node.lock b).isFree) :
    node.act t .enterWrite = some (({ node with
      table := node.table.swapOut b op.block
      queueLock := none }.setLock b ⟨∅, some t⟩).setPhase t
        (.writingBack op b (node.table.blocks b).key)) := by
  simp only [Node.act, Node.enterWrite, hphase, if_pos hfree]

end Moves

/-- One step of a thread, and then the rest. -/
theorem run_of_act {node node' : Node} {t : Nat} {a : CacheThreads.Act} {rest : List (Nat × CacheThreads.Act)}
    {r : Option Node} (halive : node.aborted = false) (hact : node.act t a = some node')
    (hrest : run CacheThreads.step node' rest = r) : run CacheThreads.step node ((t, a) :: rest) = r := by
  have hstep : CacheThreads.step node (t, a) = some node' := by
    unfold CacheThreads.step
    rw [halive]
    exact hact
  rw [run_cons, hstep]
  exact hrest

/-- The node after thread `t` has swapped out the block `x` for its call. -/
def swapped (node : Node) (t : Nat) (op : Op) (x : Fin cacheSize) : Node :=
  { node with
    table := node.table.swapOut x op.block
    lock := Function.update node.lock x ⟨∅, some t⟩
    phase := Function.update node.phase t (.writingBack op x (node.table.blocks x).key) }

/-- A thread that finds no free block swaps out the one with the smallest stamp. -/
theorem run_swapped {node : Node} {t : Nat} {op : Op} {x : Fin cacheSize} (halive : node.aborted = false)
    (hphase : node.phase t = .idle) (hlock : node.queueLock = none) (hcache : node.table.cache op.block = none)
    (hqueue : node.table.queue = []) (hvictim : CacheTable.victim node.table.blocks = some x)
    (hfree : (node.lock x).isFree) :
    run CacheThreads.step node [(t, .lookup op), (t, .enterQueue), (t, .enterWrite)] =
      some (swapped node t op x) := by
  refine run_of_act halive (lookup_missing hphase hcache) ?_
  refine run_of_act halive (enterQueue_evict (setPhase_self ..) hlock hcache hqueue hvictim) ?_
  refine run_of_act halive (enterWrite_evicting (setPhase_self ..) hfree) ?_
  rw [run_nil]
  refine congrArg some ?_
  unfold swapped Node.setPhase Node.setLock
  simp only [Function.update_idem, hlock]

/-- A step of a thread in its node is a step of the cluster. -/
theorem step_cache {cfg : Config} {s : State} {m t : Nat} {a : CacheThreads.Act} {node : Node}
    (hm : m < cfg.caches) (ht : t < cfg.threads) (halive : (s.nodes m).aborted = false) (ha : Inside a)
    (hop : ∀ op, a = .lookup op → InBlock op) (hact : (s.nodes m).act t a = some node) :
    step cfg s (.cache m t a) = some (s.setNode m node) := by
  unfold step
  rw [if_pos ⟨hm, halive⟩]
  show (if t < cfg.threads then cacheStep s m t a else none) = _
  rw [if_pos ht]
  cases a with
  | writeback => exact ha.elim
  | request => exact ha.elim
  | reply words => exact ha.elim
  | lookup op =>
      show (if InBlock op then _ else none) = _
      rw [if_pos (hop op rfl)]
      exact congrArg (Option.map fun node => s.setNode m node) hact
  | _ => exact congrArg (Option.map fun node => s.setNode m node) hact

/-- Steps of the threads of one node in their node are steps of the cluster. -/
theorem run_cache {cfg : Config} {m : Nat} {acts : List (Nat × CacheThreads.Act)} {s : State} {node : Node}
    (hm : m < cfg.caches)
    (hacts : ∀ p ∈ acts, p.1 < cfg.threads ∧ Inside p.2 ∧ ∀ op, p.2 = .lookup op → InBlock op)
    (hrun : run CacheThreads.step (s.nodes m) acts = some node) :
    run (step cfg) s (acts.map fun p => .cache m p.1 p.2) = some (s.setNode m node) := by
  induction acts generalizing s with
  | nil =>
      obtain rfl := Option.some.inj hrun
      refine congrArg some ?_
      show s = { s with nodes := Function.update s.nodes m (s.nodes m) }
      rw [Function.update_eq_self]
  | cons p rest ih =>
      obtain ⟨node', hstep, hrest⟩ := Option.bind_eq_some_iff.mp hrun
      obtain ⟨ht, ha, hop⟩ := hacts p List.mem_cons_self
      unfold CacheThreads.step at hstep
      split at hstep
      · cases hstep
      · rename_i halive
        have hfirst := step_cache hm ht (Bool.eq_false_iff.mpr halive) ha hop hstep
        rw [List.map_cons, run_cons, hfirst, Option.bind_some]
        have hself : (s.setNode m node').nodes m = node' := Function.update_self ..
        rw [ih (fun q hq => hacts q (List.mem_cons_of_mem _ hq)) (by rwa [hself])]
        refine congrArg some ?_
        show { s with nodes := Function.update (Function.update s.nodes m node') m node } = _
        rw [Function.update_idem]
        rfl

/-- A thread of the home calls the server function. -/
theorem step_requestOwn {cfg : Config} {s : State} {m t : Nat} {op : Op} {hit : Bool} {node : Node}
    (hm : m < cfg.caches) (ht : t < cfg.threads) (halive : (s.nodes m).aborted = false)
    (hasks : asks ((s.nodes m).phase t) = some (op, hit)) (hnode : (s.nodes m).request t = some node)
    (hhome : cfg.home op.addr = m) : step cfg s (.request m t) =
      some ((s.setNode m node).setCall m (.thread t) (some ⟨m, ownRequest op hit, .entry⟩)) := by
  unfold step
  rw [if_pos ⟨hm, halive⟩]
  simp only [Act.apply, if_pos ht, request, hasks, hnode, Option.bind_eq_bind, Option.bind_some, if_pos hhome]

/-- The home answers the miss of its own thread. -/
theorem step_readMissOwn {cfg : Config} {s : State} {h t addr : Nat} {node : Node}
    (hh : h < cfg.caches) (halive : (s.nodes h).aborted = false)
    (hcall : s.calls h (.thread t) = some ⟨h, .readMiss addr, .entry⟩) (hfree : (s.dirLock h).isFree)
    (hnode : (s.nodes h).reply t (backendBlock s.backend addr) = some node) :
    step cfg s (.serve h (.thread t)) =
      some (((s.setBit h addr h true).setCall h (.thread t) none).setNode h node) := by
  have hhome : ¬(Message.readMiss addr).misses cfg h h := fun hc => hc.1 rfl
  unfold step
  rw [if_pos ⟨hh, halive⟩]
  simp only [Act.apply, serve, hcall, if_neg hhome, serveCall, if_pos hfree]
  exact congrArg (Option.map _) hnode

/-! ## Node 0 fills its cache -/

/-- Two nodes with two threads each. -/
def pair : Config := ⟨2, Nat.two_pos, by decide, 2⟩

def zeros : Memory := fun _ _ => 0

/-- The block that was fetched as the `i`-th. -/
def fullBlock (i : Nat) : CacheBlock := ⟨backendBlock zeros (64 * i), i, 64 * i⟩

/-- The table after the first `n` fetches. -/
def filledTable (n : Nat) : CacheTable where
  blocks i := if i.val < n then fullBlock i else ⟨[], 0, badKey⟩
  queue := (List.finRange cacheSize).drop n
  cache k := if h : k % 64 = 0 ∧ k / 64 < n ∧ k / 64 < cacheSize then some ⟨k / 64, h.2.2⟩ else none

def filledNode (n : Nat) : Node where
  table := filledTable n
  lock _ := ⟨∅, none⟩
  queueLock := none
  clock := n
  phase _ := .idle
  ran := (List.range n).map fun i => (.get (64 * i), fullBlock i)
  aborted := false

def filledState (n : Nat) : State :=
  { start (fun _ _ => ⟨[], 0, 0⟩) zeros with
    nodes := Function.update (fun _ => Node.start fun _ => ⟨[], 0, 0⟩) 0 (filledNode n)
    directory := fun h b m => decide (h = 0 ∧ m = 0 ∧ b % 64 = 0 ∧ b / 64 < n) }

/-- The thread 0 fetches the block of the address `64 * n`. -/
def fetch (n : Nat) : List Act :=
  [.cache 0 0 (.lookup (.get (64 * n))), .cache 0 0 .enterQueue, .cache 0 0 .enterWrite, .request 0 0,
    .serve 0 (.thread 0), .cache 0 0 .finish]

theorem filledTable_next {n : Nat} (hn : n < cacheSize) :
    (((filledTable n).takeFree ⟨n, hn⟩ ((List.finRange cacheSize).drop (n + 1)) (64 * n)).modify ⟨n, hn⟩ fun blk =>
      { blk with cache := backendBlock zeros (64 * n), key := 64 * n }).modify ⟨n, hn⟩
        (fun blk => { blk with lru := n }) = filledTable (n + 1) := by
  unfold filledTable CacheTable.takeFree CacheTable.modify
  dsimp only
  congr 1
  · funext i
    by_cases hi : i = ⟨n, hn⟩
    · subst hi
      simp [fullBlock]
    · have hne : i.val ≠ n := fun h => hi (Fin.ext h)
      rw [Function.update_of_ne hi, Function.update_of_ne hi]
      by_cases hlt : i.val < n
      · rw [if_pos hlt, if_pos (Nat.lt_succ_of_lt hlt)]
      · rw [if_neg hlt, if_neg (by omega)]
  · funext k
    by_cases hk : k = 64 * n
    · subst hk
      rw [Function.update_self, dif_pos]
      · simp
      · refine ⟨by omega, by omega, ?_⟩
        rwa [Nat.mul_div_cancel_left _ (by decide)]
    · rw [Function.update_of_ne hk]
      by_cases hc : k % 64 = 0 ∧ k / 64 < n ∧ k / 64 < cacheSize
      · rw [dif_pos hc, dif_pos ⟨hc.1, by omega, hc.2.2⟩]
      · rw [dif_neg hc, dif_neg]
        rintro ⟨h1, h2, h3⟩
        exact hc ⟨h1, by omega, h3⟩

/-- The node while it fetches the block of `n`, before the answer. -/
def fetchingNode (n : Nat) (b : Fin cacheSize) (sent : Bool) : Node :=
  { filledNode n with
    table := (filledTable n).takeFree b ((List.finRange cacheSize).drop (n + 1)) (64 * n)
    lock := Function.update (filledNode n).lock b ⟨∅, some 0⟩
    phase := Function.update (filledNode n).phase 0 (.filling (.get (64 * n)) b sent) }

theorem block_get_fetch (n : Nat) : Op.block (.get (64 * n)) = 64 * n := by
  show 64 * n / 32 * 32 = 64 * n
  omega

theorem home_fetch (n : Nat) : pair.home (64 * n) = 0 := by
  show 64 * n / 32 % 2 = 0
  omega

theorem fetch_enter {n : Nat} (hn : n < cacheSize) :
    run CacheThreads.step (filledNode n) [(0, .lookup (.get (64 * n))), (0, .enterQueue), (0, .enterWrite)] =
      some (fetchingNode n ⟨n, hn⟩ false) := by
  have hcache : (filledTable n).cache (Op.block (.get (64 * n))) = none := by
    rw [block_get_fetch]
    apply dif_neg
    rintro ⟨-, hlt, -⟩
    rw [Nat.mul_div_cancel_left _ (by decide)] at hlt
    exact Nat.lt_irrefl _ hlt
  have hqueue : (filledTable n).queue = ⟨n, hn⟩ :: (List.finRange cacheSize).drop (n + 1) := by
    show (List.finRange cacheSize).drop n = _
    rw [List.drop_eq_getElem_cons (by simpa using hn)]
    simp
  refine run_of_act rfl (lookup_missing rfl hcache) ?_
  refine run_of_act rfl (enterQueue_take (setPhase_self ..) rfl hcache hqueue) ?_
  refine run_of_act rfl (enterWrite_taking (setPhase_self ..) ⟨rfl, rfl⟩) ?_
  rw [run_nil, block_get_fetch]
  refine congrArg some ?_
  unfold fetchingNode Node.setPhase Node.setLock
  simp [filledNode]

/-- The node when its thread has got the block. -/
def fetchedNode (n : Nat) (b : Fin cacheSize) : Node :=
  { fetchingNode n b true with
    table := (fetchingNode n b true).table.modify b fun blk =>
      { blk with cache := backendBlock zeros (64 * n), key := 64 * n } }.setPhase 0 (.filled (.get (64 * n)) b)

theorem fetch_request {n : Nat} (hn : n < cacheSize) :
    step pair ((filledState n).setNode 0 (fetchingNode n ⟨n, hn⟩ false)) (.request 0 0) =
      some ((((filledState n).setNode 0 (fetchingNode n ⟨n, hn⟩ false)).setNode 0
        (fetchingNode n ⟨n, hn⟩ true)).setCall 0 (.thread 0) (some ⟨0, .readMiss (64 * n), .entry⟩)) := by
  have hphase : (fetchingNode n ⟨n, hn⟩ false).phase 0 = .filling (.get (64 * n)) ⟨n, hn⟩ false := rfl
  have hnode : (fetchingNode n ⟨n, hn⟩ false).request 0 = some (fetchingNode n ⟨n, hn⟩ true) := by
    unfold Node.request
    rw [hphase]
    simp [fetchingNode, Node.setPhase]
  have hmsg : ownRequest (.get (64 * n)) false = .readMiss (64 * n) :=
    congrArg Message.readMiss (block_get_fetch n)
  rw [← hmsg]
  exact step_requestOwn (by decide) (by decide) rfl (congrArg asks hphase) hnode (home_fetch n)

theorem fetch_answer {n : Nat} {s : State} (hn : n < cacheSize) (hnodes : s.nodes 0 = fetchingNode n ⟨n, hn⟩ true)
    (hcall : s.calls 0 (.thread 0) = some ⟨0, .readMiss (64 * n), .entry⟩) (hfree : (s.dirLock 0).isFree)
    (hbackend : s.backend = zeros) :
    step pair s (.serve 0 (.thread 0)) = some (((s.setBit 0 (64 * n) 0 true).setCall 0 (.thread 0) none).setNode 0
      (fetchedNode n ⟨n, hn⟩)) := by
  apply step_readMissOwn (by decide) (by rw [hnodes]; rfl) hcall hfree
  rw [hnodes, hbackend]
  have hphase : (fetchingNode n ⟨n, hn⟩ true).phase 0 = .filling (.get (64 * n)) ⟨n, hn⟩ true := rfl
  unfold Node.reply
  rw [hphase]
  simp only [block_get_fetch]
  rfl

theorem fetch_finish {n : Nat} (hn : n < cacheSize) :
    (fetchedNode n ⟨n, hn⟩).act 0 .finish = some (filledNode (n + 1)) := by
  have hphase : (fetchedNode n ⟨n, hn⟩).phase 0 = .filled (.get (64 * n)) ⟨n, hn⟩ := rfl
  simp only [Node.act, Node.finish, hphase]
  refine congrArg some ?_
  have htable := filledTable_next hn
  have hblock : (filledTable (n + 1)).blocks ⟨n, hn⟩ = fullBlock n := if_pos (Nat.lt_succ_self n)
  have hclock : (n + 1) % two32 = n + 1 := Nat.mod_eq_of_lt (Nat.lt_trans (Nat.succ_lt_succ hn) (by decide))
  have hstamp : ((fetchedNode n ⟨n, hn⟩).stamp ⟨n, hn⟩).table = filledTable (n + 1) := htable
  simp only [Node.callback, Node.setPhase, Node.setLock, hstamp, hblock]
  unfold filledNode
  congr 1
  · funext b
    by_cases hb : b = ⟨n, hn⟩
    · rw [hb, Function.update_self]
      exact congrArg (fun l : CacheThreads.RwLock => CacheThreads.RwLock.mk l.readers none)
        (Function.update_self ⟨n, hn⟩ _ (filledNode n).lock)
    · rw [Function.update_of_ne hb]
      exact Function.update_of_ne hb _ (filledNode n).lock
  · funext t
    by_cases ht : t = 0
    · rw [ht, Function.update_self]
    · rw [Function.update_of_ne ht]
      show Function.update (Function.update (filledNode n).phase 0 _) 0 _ t = _
      rw [Function.update_of_ne ht, Function.update_of_ne ht]
      rfl
  · rw [List.range_succ, List.map_append]
    rfl

theorem fetch_filled {n : Nat} (hn : n < cacheSize) :
    run (step pair) (filledState n) (fetch n) = some (filledState (n + 1)) := by
  have henter : run (step pair) (filledState n) ((fetch n).take 3) =
      some ((filledState n).setNode 0 (fetchingNode n ⟨n, hn⟩ false)) := by
    have hacts : ∀ p ∈ [(0, .lookup (.get (64 * n))), (0, .enterQueue), (0, .enterWrite)],
        p.1 < pair.threads ∧ Inside p.2 ∧ ∀ op, p.2 = CacheThreads.Act.lookup op → InBlock op := by
      simp [pair, Inside, InBlock]
    exact run_cache (m := 0) (by decide) hacts (fetch_enter hn)
  have hfinish : ∀ s : State, s.nodes 0 = fetchedNode n ⟨n, hn⟩ →
      step pair s (.cache 0 0 .finish) = some (s.setNode 0 (filledNode (n + 1))) := by
    intro s hs
    refine step_cache (by decide) (by decide) ?_ trivial (fun _ heq => by cases heq) ?_
    · rw [hs]
      rfl
    · rw [hs]
      exact fetch_finish hn
  rw [← List.take_append_drop 3 (fetch n), run_append, henter, Option.bind_some]
  show run (step pair) _ [.request 0 0, .serve 0 (.thread 0), .cache 0 0 .finish] = _
  rw [run_cons, fetch_request hn, Option.bind_some, run_cons, fetch_answer hn rfl rfl ⟨rfl, rfl⟩ rfl,
    Option.bind_some, run_cons, hfinish _ rfl, Option.bind_some, run_nil]
  refine congrArg some ?_
  unfold filledState State.setNode State.setCall State.setBit
  dsimp only
  congr 1
  · simp only [Function.update_idem]
  · funext h b m
    by_cases heq : h = 0 ∧ b = 64 * n
    · obtain ⟨rfl, rfl⟩ := heq
      rw [setTwo_self]
      by_cases hm : m = 0
      · rw [hm, Function.update_self]
        refine (decide_eq_true ⟨rfl, rfl, by omega, by omega⟩).symm
      · rw [Function.update_of_ne hm]
        exact decide_eq_decide.mpr ⟨fun hc => absurd hc.2.1 hm, fun hc => absurd hc.2.1 hm⟩
    · rw [setTwo_of_ne _ _ _ _ heq]
      exact decide_eq_decide.mpr ⟨fun hc => ⟨hc.1, hc.2.1, hc.2.2.1, by omega⟩,
        fun hc => ⟨hc.1, hc.2.1, hc.2.2.1, by omega⟩⟩
  · funext h c
    by_cases heq : h = 0 ∧ c = .thread 0
    · obtain ⟨rfl, rfl⟩ := heq
      rw [setTwo_self]
      rfl
    · rw [setTwo_of_ne _ _ _ _ heq, setTwo_of_ne _ _ _ _ heq]

/-- The first `n` fetches. -/
def fetches (n : Nat) : List Act := (List.range n).flatMap fetch

theorem run_fetches {n : Nat} (hn : n ≤ cacheSize) :
    run (step pair) (start (fun _ _ => ⟨[], 0, 0⟩) zeros) (fetches n) = some (filledState n) := by
  induction n with
  | zero =>
      refine congrArg some ?_
      unfold filledState start
      congr 1
      · funext m
        by_cases hm : m = 0
        · rw [hm, Function.update_self]
          unfold filledNode filledTable Node.start CacheTable.fresh
          simp
        · rw [Function.update_of_ne hm]
      · funext h b m
        simp
  | succ n ih =>
      have hsucc : fetches (n + 1) = fetches n ++ fetch n := by
        simp [fetches, List.range_succ]
      rw [hsucc, run_append, ih (Nat.le_of_succ_le hn), Option.bind_some]
      exact fetch_filled hn

theorem filledTable_queue (n : Nat) : (filledTable n).queue = (List.finRange cacheSize).drop n := rfl

theorem filledTable_cache (n k : Nat) : (filledTable n).cache k =
    if h : k % 64 = 0 ∧ k / 64 < n ∧ k / 64 < cacheSize then some ⟨k / 64, h.2.2⟩ else none := rfl

theorem filledTable_full : (filledTable cacheSize).queue = [] := by
  rw [filledTable_queue, List.drop_eq_nil_iff, List.length_finRange]

theorem filledTable_block (i : Fin cacheSize) : (filledTable cacheSize).blocks i = fullBlock i := if_pos i.isLt

theorem fullBlock_key (i : Nat) : (fullBlock i).key ≠ badKey := by
  intro heq
  change 64 * i = 31 at heq
  omega

/-- Once the cache is full, the block that was fetched first is the one to swap out. -/
theorem victim_first : CacheTable.victim (filledTable cacheSize).blocks = some ⟨0, by decide⟩ := by
  apply CacheTable.victim_eq
  · rw [filledTable_block]
    exact fullBlock_key 0
  · rw [filledTable_block]
    decide
  · intro i hi _
    rw [filledTable_block, filledTable_block]
    exact Nat.pos_of_ne_zero fun h0 => hi (Fin.ext h0)

theorem victim_second (k : Nat) :
    CacheTable.victim ((filledTable cacheSize).swapOut ⟨0, by decide⟩ k).blocks = some ⟨1, by decide⟩ := by
  have hother : ∀ i : Fin cacheSize, i ≠ ⟨0, by decide⟩ →
      ((filledTable cacheSize).swapOut ⟨0, by decide⟩ k).blocks i = fullBlock i := fun i hi =>
    (CacheThreads.swapOut_blocks i hi).trans (filledTable_block i)
  have hone : (⟨1, by decide⟩ : Fin cacheSize) ≠ ⟨0, by decide⟩ := by decide
  apply CacheTable.victim_eq
  · rw [hother _ hone]
    exact fullBlock_key 1
  · rw [hother _ hone]
    decide
  · intro i hi hvalid
    have hzero : i ≠ ⟨0, by decide⟩ := by
      rintro rfl
      exact hvalid CacheThreads.swapOut_key
    rw [hother _ hone, hother _ hzero]
    have h0 : i.val ≠ 0 := fun h => hzero (Fin.ext h)
    have h1 : i.val ≠ 1 := fun h => hi (Fin.ext h)
    show 1 < i.val
    omega

/-- Thread 0 swaps block 0 out, and thread 1 another one, to fetch block 0 again. -/
def twiceSwapped : Node :=
  swapped (swapped (filledNode cacheSize) 0 (.get 65536) ⟨0, by decide⟩) 1 (.get 0) ⟨1, by decide⟩

theorem filledNode_table (n : Nat) : (filledNode n).table = filledTable n := rfl

theorem swapped_table (node : Node) (t : Nat) (op : Op) (x : Fin cacheSize) :
    (swapped node t op x).table = node.table.swapOut x op.block := rfl

theorem swapOut_queue (t : CacheTable) (x : Fin cacheSize) (k : Nat) : (t.swapOut x k).queue = t.queue := rfl

/-- The steps of the two threads. -/
def swapTwice : List (Nat × CacheThreads.Act) :=
  [(0, .lookup (.get 65536)), (0, .enterQueue), (0, .enterWrite)] ++
    [(1, .lookup (.get 0)), (1, .enterQueue), (1, .enterWrite)]

theorem run_swapTwice : run CacheThreads.step (filledNode cacheSize) swapTwice = some twiceSwapped := by
  have hfirst : run CacheThreads.step (filledNode cacheSize)
      [(0, .lookup (.get 65536)), (0, .enterQueue), (0, .enterWrite)] =
        some (swapped (filledNode cacheSize) 0 (.get 65536) ⟨0, by decide⟩) := by
    refine run_swapped rfl rfl rfl ?_ ?_ ?_ ⟨rfl, rfl⟩
    · rw [filledNode_table, filledTable_cache, dif_neg (by decide)]
    · rw [filledNode_table, filledTable_full]
    · rw [filledNode_table, victim_first]
  unfold swapTwice
  rw [run_append, hfirst, Option.bind_some]
  refine run_swapped rfl rfl rfl ?_ ?_ ?_ ?_
  · rw [swapped_table, filledNode_table]
    have hkey : ((filledTable cacheSize).blocks ⟨0, by decide⟩).key = 0 := by
      rw [filledTable_block]
      rfl
    simp only [CacheTable.swapOut, hkey]
    rw [Function.update_of_ne (by decide)]
    exact Function.update_self ..
  · rw [swapped_table, swapOut_queue, filledNode_table, filledTable_full]
  · rw [swapped_table, filledNode_table, victim_second]
  · unfold swapped
    dsimp only
    rw [Function.update_of_ne (by decide)]
    exact ⟨rfl, rfl⟩

end Dogee.CacheCluster
