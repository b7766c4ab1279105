import Dogee.CacheReturns

/-!
# The block that is swapped out

`getblock` asserts that the scan for the block with the smallest stamp finds one. It does as long as the
clock has not gone around: a block that the scan passes over belongs to a thread that fills it or has just
filled it, and the thread that scans has none. So the assertion holds when a node has no more threads than
blocks; with one thread more, the others can take all the blocks before it.
-/

namespace Dogee.CacheCluster

open Transition
open CacheThreads (Op Node Phase Inv)

/-! ## Stamps -/

/-- The block has been filled, and its thread has not stamped it. -/
def Filled (s : Node) (b : Fin cacheSize) : Prop := ∃ t op, s.phase t = .filled op b

/-- After `k` steps the clock shows at most `k`, and a block with contents has a stamp or is about to get
one. -/
structure Stamped (k : Nat) (s : Node) : Prop where
  clock : s.clock ≤ k
  lru : ∀ b, (s.table.blocks b).key ≠ badKey → (s.table.blocks b).lru < noStamp ∨ Filled s b

section Stamps

variable {s s' : Node} {k t : Nat} {ph : Phase}

theorem stamped_start (junk : Fin cacheSize → CacheBlock) : Stamped 0 (Node.start junk) where
  clock := Nat.le_refl _
  lru _ h := absurd rfl h

theorem Stamped.succ (h : Stamped k s) : Stamped (k + 1) s := ⟨Nat.le_succ_of_le h.clock, h.lru⟩

theorem modify_words (table : CacheTable) (b : Fin cacheSize) (words : List Word) (b' : Fin cacheSize) :
    ((table.modify b fun blk => { blk with cache := words }).blocks b').key = (table.blocks b').key ∧
      ((table.modify b fun blk => { blk with cache := words }).blocks b').lru = (table.blocks b').lru := by
  unfold CacheTable.modify
  dsimp only
  by_cases hb' : b' = b
  · subst hb'
    rw [Function.update_self]
    exact ⟨rfl, rfl⟩
  · rw [Function.update_of_ne hb']
    exact ⟨rfl, rfl⟩

/-- One thread goes on; a block that it has filled is stamped. -/
theorem Stamped.update (h : Stamped k s) (hphase : s'.phase = Function.update s.phase t ph)
    (hclock : s'.clock ≤ k + 1)
    (hstamped : ∀ op b, s.phase t = .filled op b → (s'.table.blocks b).lru < noStamp)
    (hblocks : ∀ b, (s'.table.blocks b).key ≠ badKey → (s'.table.blocks b).lru < noStamp ∨
      (∃ op, ph = .filled op b) ∨
      ((s.table.blocks b).key ≠ badKey ∧ (s'.table.blocks b).lru = (s.table.blocks b).lru)) :
    Stamped (k + 1) s' := by
  refine ⟨hclock, fun b hkey => ?_⟩
  rcases hblocks b hkey with hlru | ⟨op, rfl⟩ | ⟨hold, hsame⟩
  · exact Or.inl hlru
  · right
    refine ⟨t, op, ?_⟩
    rw [hphase, Function.update_self]
  · rcases h.lru b hold with hlru | ⟨t', op, hfilled⟩
    · rw [hsame]
      exact Or.inl hlru
    · by_cases heq : t' = t
      · subst heq
        exact Or.inl (hstamped op b hfilled)
      · right
        refine ⟨t', op, ?_⟩
        rw [hphase, Function.update_of_ne heq]
        exact hfilled

/-- No block changes. -/
theorem Stamped.move (h : Stamped k s) (hphase : s'.phase = Function.update s.phase t ph)
    (hclock : s'.clock = s.clock) (hblocks : s'.table.blocks = s.table.blocks)
    (hnot : ∀ op b, s.phase t ≠ .filled op b) : Stamped (k + 1) s' := by
  refine h.update hphase (Nat.le_succ_of_le (hclock ▸ h.clock)) ?_ ?_
  · exact fun op b hfilled => absurd hfilled (hnot op b)
  · intro b hkey
    rw [hblocks] at hkey
    exact Or.inr (Or.inr ⟨hkey, by rw [hblocks]⟩)

/-- The thread stamps a block. -/
theorem Stamped.stamp {b : Fin cacheSize} (h : Stamped k s) (hk : k < noStamp)
    (hphase : s'.phase = Function.update s.phase t ph) (hclock : s'.clock = (s.stamp b).clock)
    (hblocks : ∀ b', (s'.table.blocks b').key = ((s.stamp b).table.blocks b').key ∧
      (s'.table.blocks b').lru = ((s.stamp b).table.blocks b').lru)
    (hfilled : ∀ op b', s.phase t = .filled op b' → b' = b) : Stamped (k + 1) s' := by
  have hself : ((s.stamp b).table.blocks b).lru = s.clock := by
    show (Function.update s.table.blocks b { s.table.blocks b with lru := s.clock } b).lru = _
    rw [Function.update_self]
  have hother : ∀ b', b' ≠ b → (s.stamp b).table.blocks b' = s.table.blocks b' :=
    fun b' hb' => Function.update_of_ne hb' ..
  have hnew : (s'.table.blocks b).lru < noStamp := by
    rw [(hblocks b).2, hself]
    exact Nat.lt_of_le_of_lt h.clock hk
  refine h.update hphase ?_ ?_ ?_
  · rw [hclock]
    exact Nat.le_trans (Nat.mod_le _ _) (Nat.succ_le_succ h.clock)
  · intro op b' hb'
    rw [hfilled op b' hb']
    exact hnew
  · intro b' hkey
    by_cases hb' : b' = b
    · rw [hb']
      exact Or.inl hnew
    · right
      right
      rw [(hblocks b').1, hother b' hb'] at hkey
      exact ⟨hkey, by rw [(hblocks b').2, hother b' hb']⟩

theorem stamped_acted {a : CacheThreads.Act} (h : Stamped k s) (hk : k < noStamp) (hact : Acted s t a s') :
    Stamped (k + 1) s' := by
  have hnot : ∀ {ph : Phase}, s.phase t = ph → (∀ op b, ph ≠ .filled op b) →
      ∀ op b, s.phase t ≠ .filled op b := by
    intro ph hphase hne op b
    rw [hphase]
    exact hne op b
  cases hact with
  | lookupFound hphase _ => exact h.move rfl rfl rfl (hnot hphase fun _ _ => by simp)
  | lookupMissing hphase _ => exact h.move rfl rfl rfl (hnot hphase fun _ _ => by simp)
  | hitGet hphase _ _ =>
      refine h.stamp hk rfl rfl (fun b' => ⟨rfl, rfl⟩) ?_
      intro op b' hfilled
      rw [hphase] at hfilled
      cases hfilled
  | @hitPut addr v words b hphase _ _ _ =>
      refine h.stamp (b := b) hk rfl rfl (modify_words (s.stamp b).table b words) ?_
      intro op b' hfilled
      rw [hphase] at hfilled
      cases hfilled
  | changed hphase => exact h.move rfl rfl rfl (hnot hphase fun _ _ => by simp)
  | pending hphase => exact h.move rfl rfl rfl (hnot hphase fun _ _ => by simp)
  | take hphase _ _ => exact h.move rfl rfl rfl (hnot hphase fun _ _ => by simp)
  | evict hphase => exact h.move rfl rfl rfl (hnot hphase fun _ _ => by simp)
  | abort _ => exact ⟨h.succ.clock, h.succ.lru⟩
  | lockTaken hphase _ => exact h.move rfl rfl rfl (hnot hphase fun _ _ => by simp)
  | @lockEvicted op b hphase _ =>
      refine h.update rfl (Nat.le_succ_of_le h.clock) ?_ ?_
      · exact fun op' b' hfilled => absurd hfilled (hnot hphase (fun _ _ => by simp) op' b')
      · intro b' hkey
        change ((s.table.swapOut b op.block).blocks b').key ≠ badKey at hkey
        by_cases hb' : b' = b
        · rw [hb', CacheThreads.swapOut_key] at hkey
          exact absurd rfl hkey
        · rw [CacheThreads.swapOut_blocks b' hb'] at hkey
          refine Or.inr (Or.inr ⟨hkey, ?_⟩)
          show ((s.table.swapOut b op.block).blocks b').lru = _
          rw [CacheThreads.swapOut_blocks b' hb']
  | @finishHit op b hphase =>
      obtain ⟨htable, -, -, hold⟩ := CacheThreads.callback_frame s b op
      have hclock : (s.callback b op).clock = s.clock := by cases op <;> rfl
      exact h.move (congrArg (Function.update · t _) hold) hclock (congrArg CacheTable.blocks htable)
        (hnot hphase fun _ _ => by simp)
  | @finishMiss op b hphase =>
      obtain ⟨htable, -, -, hold⟩ := CacheThreads.callback_frame (s.stamp b) b op
      have hclock : ((s.stamp b).callback b op).clock = (s.stamp b).clock := by cases op <;> rfl
      refine h.stamp (b := b) hk (congrArg (Function.update · t _) hold) hclock (fun b' => ?_) ?_
      · show (((s.stamp b).callback b op).table.blocks b').key = _ ∧
          (((s.stamp b).callback b op).table.blocks b').lru = _
        rw [htable]
        exact ⟨rfl, rfl⟩
      · intro op' b' hfilled
        rw [hphase] at hfilled
        exact (Phase.filled.inj hfilled).2.symm

theorem stamped_reply {words : List Word} (h : Stamped k s) (hreply : s.reply t words = some s') :
    Stamped (k + 1) s' := by
  unfold Node.reply at hreply
  split at hreply
  · rename_i op b hphase
    obtain rfl := Option.some.inj hreply
    refine h.update rfl (Nat.le_succ_of_le h.clock) ?_ ?_
    · intro op' b' hfilled
      rw [hphase] at hfilled
      cases hfilled
    · intro b' hkey
      by_cases hb' : b' = b
      · subst hb'
        exact Or.inr (Or.inl ⟨op, rfl⟩)
      · change (Function.update s.table.blocks b _ b').key ≠ badKey at hkey
        rw [Function.update_of_ne hb'] at hkey
        refine Or.inr (Or.inr ⟨hkey, ?_⟩)
        show (Function.update s.table.blocks b _ b').lru = _
        rw [Function.update_of_ne hb']
  · rename_i op b hphase
    obtain rfl := Option.some.inj hreply
    refine h.move rfl rfl rfl ?_
    intro op' b' hfilled
    rw [hphase] at hfilled
    cases hfilled
  · cases hreply

theorem stamped_act {a : CacheThreads.Act} (h : Stamped k s) (hk : k < noStamp) (hact : s.act t a = some s') :
    Stamped (k + 1) s' := by
  cases a with
  | writeback =>
      simp only [Node.act, Node.writeback] at hact
      split at hact
      · rename_i op b oldkey hphase
        obtain rfl := Option.some.inj hact
        exact h.move rfl rfl rfl fun _ _ => by simp [hphase]
      · cases hact
  | request =>
      simp only [Node.act, Node.request] at hact
      split at hact
      · rename_i op b hphase
        obtain rfl := Option.some.inj hact
        exact h.move rfl rfl rfl fun _ _ => by simp [hphase]
      · rename_i op b hphase
        obtain rfl := Option.some.inj hact
        exact h.move rfl rfl rfl fun _ _ => by simp [hphase]
      · cases hact
  | reply words => exact stamped_reply h hact
  | _ => exact stamped_acted h hk (acted_of_act hact trivial)

theorem stamped_tryRenew {addr : Nat} {v : List Word} {b : Fin cacheSize} (h : Stamped k s)
    (hnode : tryRenew s addr v b = some s') : Stamped (k + 1) s' := by
  unfold tryRenew at hnode
  split at hnode
  · obtain ⟨words, -, rfl⟩ := Option.map_eq_some_iff.mp hnode
    refine ⟨h.succ.clock, fun b' hkey => ?_⟩
    obtain ⟨hsame, hlru⟩ := modify_words s.table b words b'
    rw [hsame] at hkey
    rw [hlru]
    exact h.lru b' hkey
  · obtain rfl := Option.some.inj hnode
    exact h.succ

theorem stamped_nodeStepped (h : Stamped k s) (hk : k < noStamp) (hstep : NodeStepped s s') :
    Stamped (k + 1) s' := by
  cases hstep with
  | same hsame => exact hsame ▸ h.succ
  | acted hact => exact stamped_act h hk hact
  | renewed hrenew => exact stamped_tryRenew h hrenew
  | stopped hstop =>
      subst hstop
      exact ⟨h.succ.clock, h.succ.lru⟩

end Stamps

/-! ## The scan finds a block -/

/-- The block that a thread fills or has filled. -/
def fillsBlock : Phase → Option (Fin cacheSize)
  | .taking _ b => some b
  | .writingBack _ b _ => some b
  | .filling _ b _ => some b
  | .filled _ b => some b
  | _ => none

section Scan

variable {s : Node} {k n t : Nat} {op : Op} {b : Fin cacheSize}

theorem fillsBlock_of_fills {ph : Phase} (h : ph.fills b) : fillsBlock ph = some b := by
  cases ph with
  | taking op b' => exact congrArg some h
  | writingBack op b' oldkey => exact congrArg some h
  | filling op b' sent => exact congrArg some h
  | _ => exact h.elim

theorem opOf_of_fillsBlock {ph : Phase} (h : fillsBlock ph = some b) : ∃ op, opOf ph = some op := by
  cases ph with
  | taking op b' => exact ⟨op, rfl⟩
  | writingBack op b' oldkey => exact ⟨op, rfl⟩
  | filling op b' sent => exact ⟨op, rfl⟩
  | filled op b' => exact ⟨op, rfl⟩
  | _ => cases h

/-- Where no block is free, each block that the scan passes over has its thread. -/
theorem exists_thread (hinv : Inv s) (hstamped : Stamped k s) (hqueue : s.table.queue = [])
    (hnone : CacheTable.victim s.table.blocks = none) (b : Fin cacheSize) :
    ∃ t, fillsBlock (s.phase t) = some b := by
  by_cases hkey : (s.table.blocks b).key = badKey
  · obtain ⟨k, hk⟩ := hinv.table.mapped b (by rw [hqueue]; exact List.not_mem_nil)
    obtain ⟨t, hfills⟩ := hinv.filler k b hk hkey
    exact ⟨t, fillsBlock_of_fills hfills⟩
  · rcases hstamped.lru b hkey with hlru | ⟨t, op, hfilled⟩
    · obtain ⟨b', hb'⟩ := CacheTable.exists_victim hkey hlru
      rw [hnone] at hb'
      cases hb'
    · refine ⟨t, ?_⟩
      rw [hfilled]
      rfl

/-- A thread that fills no block finds one, when there are no more threads than blocks. -/
theorem exists_victim_of_threads (hinv : Inv s) (hstamped : Stamped k s) (hqueue : s.table.queue = [])
    (hthreads : ∀ t op, opOf (s.phase t) = some op → t < n) (hphase : s.phase t = .missing op)
    (hn : n ≤ cacheSize) : CacheTable.victim s.table.blocks ≠ none := by
  intro hnone
  choose f hf using exists_thread hinv hstamped hqueue hnone
  have ht : t ∈ Finset.range n := Finset.mem_range.mpr (hthreads t op (by rw [hphase]; rfl))
  have hmaps : ∀ b ∈ (Finset.univ : Finset (Fin cacheSize)), f b ∈ (Finset.range n).erase t := by
    intro b _
    obtain ⟨op', hop'⟩ := opOf_of_fillsBlock (hf b)
    refine Finset.mem_erase.mpr ⟨?_, Finset.mem_range.mpr (hthreads _ op' hop')⟩
    intro heq
    have hown := hf b
    rw [heq, hphase] at hown
    cases hown
  have hinj : Set.InjOn f (Finset.univ : Finset (Fin cacheSize)) := by
    intro b _ b' _ heq
    have hsame := hf b
    rw [heq, hf b'] at hsame
    exact (Option.some.inj hsame).symm
  have hle := Finset.card_le_card_of_injOn f hmaps hinj
  rw [Finset.card_univ, Fintype.card_fin, Finset.card_erase_of_mem ht, Finset.card_range] at hle
  have hpos := Finset.mem_range.mp ht
  omega

theorem aborted_reply {s' : Node} {words : List Word} (hreply : s.reply t words = some s') :
    s'.aborted = s.aborted := by
  unfold Node.reply at hreply
  split at hreply
  · obtain rfl := Option.some.inj hreply
    rfl
  · obtain rfl := Option.some.inj hreply
    rfl
  · cases hreply

theorem aborted_act {s' : Node} {a : CacheThreads.Act} (hinv : Inv s) (hstamped : Stamped k s)
    (hthreads : ∀ t op, opOf (s.phase t) = some op → t < n) (hn : n ≤ cacheSize) (halive : s.aborted = false)
    (hact : s.act t a = some s') : s'.aborted = false := by
  cases a with
  | enterQueue =>
      simp only [Node.act, Node.enterQueue] at hact
      split at hact
      · rename_i op hphase
        split at hact
        · split at hact
          · obtain rfl := Option.some.inj hact
            exact halive
          · obtain rfl := Option.some.inj hact
            exact halive
          · rename_i hcache hqueue
            split at hact
            · rename_i hnone
              exact absurd hnone (exists_victim_of_threads hinv hstamped hqueue hthreads hphase hn)
            · obtain rfl := Option.some.inj hact
              exact halive
        · cases hact
      · cases hact
  | writeback =>
      simp only [Node.act, Node.writeback] at hact
      split at hact
      · obtain rfl := Option.some.inj hact
        exact halive
      · cases hact
  | request =>
      simp only [Node.act, Node.request] at hact
      split at hact
      · obtain rfl := Option.some.inj hact
        exact halive
      · obtain rfl := Option.some.inj hact
        exact halive
      · cases hact
  | reply words => exact (aborted_reply hact).trans halive
  | enterRead =>
      cases acted_of_act hact trivial <;> exact halive
  | enterWrite =>
      cases acted_of_act hact trivial <;> exact halive
  | lookup op =>
      cases acted_of_act hact trivial <;> exact halive
  | finish =>
      cases acted_of_act hact trivial with
      | finishHit _ => exact (CacheThreads.aborted_callback s _ _).trans halive
      | finishMiss _ => exact (CacheThreads.aborted_callback (s.stamp _) _ _).trans halive

end Scan

/-! ## Runs -/

/-- What holds after `k` steps when a node has no more threads than blocks. -/
structure Running (cfg : Config) (k : Nat) (s : State) : Prop where
  calling : Calling cfg s
  stamped : ∀ m, Stamped k (s.nodes m)
  alive : ∀ m, (s.nodes m).aborted = false

section Runs

variable {cfg : Config} {s s' : State} {k m : Nat}

theorem setNode_self (s : State) (m : Nat) (node : Node) : (s.setNode m node).nodes m = node :=
  Function.update_self ..

theorem aborted_setNode {node : Node} {h : Nat} (halive : ∀ m, (s.nodes m).aborted = false)
    (hnode : node.aborted = false) : (Function.update s.nodes h node m).aborted = false := by
  by_cases hm : m = h
  · rw [hm, Function.update_self]
    exact hnode
  · rw [Function.update_of_ne hm]
    exact halive m

theorem running_start (cfg : Config) (junk : Nat → Fin cacheSize → CacheBlock) (backend : Memory) :
    Running cfg 0 (start junk backend) where
  calling := calling_start cfg junk backend
  stamped m := stamped_start (junk m)
  alive _ := rfl

theorem alive_answer {s₀ : State} {h src : Nat} {c : Caller} {r : Reply} (halive : ∀ m, (s.nodes m).aborted = false)
    (hanswer : answer s₀ h c src r = some s') (hnodes : s₀.nodes = s.nodes) : (s'.nodes m).aborted = false := by
  rcases answer_cases hanswer with ⟨p, x, -, rfl⟩ | ⟨t, node, -, hnode, rfl⟩
  · show (s₀.nodes m).aborted = false
    rw [hnodes]
    exact halive m
  · show (Function.update s₀.nodes h node m).aborted = false
    rw [hnodes] at hnode ⊢
    exact aborted_setNode halive ((aborted_reply hnode).trans (halive h))

theorem alive_tryRenew {node : Node} {h addr : Nat} {v : List Word} {b : Fin cacheSize}
    (halive : ∀ m, (s.nodes m).aborted = false) (hnode : tryRenew (s.nodes h) addr v b = some node) :
    (Function.update s.nodes h node m).aborted = false := by
  refine aborted_setNode halive ?_
  unfold tryRenew at hnode
  split at hnode
  · obtain ⟨words, -, rfl⟩ := Option.map_eq_some_iff.mp hnode
    exact halive h
  · obtain rfl := Option.some.inj hnode
    exact halive h

theorem alive_served {h : Nat} {c : Caller} (halive : ∀ m, (s.nodes m).aborted = false)
    (hgood : s'.badAddress = false) (hserve : Served cfg s h c s') : (s'.nodes m).aborted = false := by
  cases hserve with
  | renewEnd _ hnode => exact alive_tryRenew halive hnode
  | innerEnd _ _ hnode => exact alive_tryRenew halive hnode
  | readMiss _ _ hanswer => exact alive_answer halive hanswer rfl
  | writeEnd _ _ hanswer => exact alive_answer halive hanswer rfl
  | writeMissEnd _ _ hanswer => exact alive_answer halive hanswer rfl
  | bad => cases hgood
  | _ => exact halive m

theorem alive_stepped {a : Act} (h : Running cfg k s) (hn : cfg.threads ≤ cacheSize)
    (hgood : s'.badAddress = false) (hstep : Stepped cfg s a s') : (s'.nodes m).aborted = false := by
  have hact : ∀ {n t : Nat} {a : CacheThreads.Act} {node : Node}, (s.nodes n).act t a = some node →
      (Function.update s.nodes n node m).aborted = false := by
    intro n t a node hact
    refine aborted_setNode h.alive (aborted_act (h.calling.tracked.nodes n) (h.stamped n) ?_ hn (h.alive n) hact)
    exact fun t op hop => (h.calling.inCalls n t op hop).2
  cases hstep with
  | cache hcache _ _ => exact hact hcache
  | writebackOwn hphase _ _ => exact hact (a := .writeback) (node_writeback hphase)
  | writebackSend hphase _ => exact hact (a := .writeback) (node_writeback hphase)
  | requestOwn _ hnode _ => exact hact (a := .request) hnode
  | requestSend _ hnode _ _ => exact hact (a := .request) hnode
  | @reply m' t op hit r rest words node _ _ _ _ hnode => exact hact (a := .reply words) hnode
  | replyBad => cases hgood
  | receive => exact h.alive m
  | serve hserve => exact alive_served h.alive hgood hserve

theorem running_step {a : Act} (h : Running cfg k s) (hn : cfg.threads ≤ cacheSize) (hk : k < noStamp)
    (hstep : step cfg s a = some s') : Running cfg (k + 1) s' := by
  have hcalling := calling_step h.calling hstep
  refine ⟨hcalling, fun m => ?_, fun m => ?_⟩
  · exact stamped_nodeStepped (h.stamped m) hk (nodeStepped_of_stepped (stepped_of_step hstep) m)
  · exact alive_stepped h hn hcalling.tracked.sound.addressed.good (stepped_of_step hstep)

theorem running_run {as : List Act} (h : Running cfg k s) (hn : cfg.threads ≤ cacheSize)
    (hlength : k + as.length ≤ noStamp) (hrun : run (step cfg) s as = some s') :
    Running cfg (k + as.length) s' := by
  induction as generalizing k s with
  | nil =>
      obtain rfl : s = s' := Option.some.inj hrun
      exact h
  | cons a rest ih =>
      obtain ⟨u, hu, hrest⟩ := Option.bind_eq_some_iff.mp hrun
      rw [List.length_cons] at hlength ⊢
      have hk : k < noStamp := by omega
      have hrunning := ih (running_step h hn hk hu) (by omega) hrest
      rwa [Nat.add_assoc, Nat.add_comm 1] at hrunning

end Runs

/-! ## One thread too many -/

/-- The first `n` threads have taken the first `n` blocks, and no block has contents. -/
structure Taken (n : Nat) (s : Node) : Prop where
  queue : s.table.queue = (List.finRange cacheSize).drop n
  key : ∀ b, (s.table.blocks b).key = badKey
  cache : ∀ i, n ≤ i → s.table.cache (i * blockSize) = none
  lock : ∀ b : Fin cacheSize, n ≤ b.val → (s.lock b).isFree
  queueLock : s.queueLock = none
  idle : ∀ t, n ≤ t → s.phase t = .idle
  alive : s.aborted = false

section Taken

variable {s : Node} {n : Nat}

theorem taken_start (junk : Fin cacheSize → CacheBlock) : Taken 0 (Node.start junk) where
  queue := by simp only [Node.start, CacheTable.fresh, List.drop_zero]
  key _ := rfl
  cache _ _ := rfl
  lock _ _ := ⟨rfl, rfl⟩
  queueLock := rfl
  idle _ _ := rfl
  alive := rfl

theorem block_get (i : Nat) : (Op.get (i * blockSize)).block = i * blockSize := by
  show i * blockSize / blockSize * blockSize = i * blockSize
  rw [Nat.mul_div_cancel i (by decide)]

/-- The next thread takes the next block. -/
def takeNext (n : Nat) : List (Nat × CacheThreads.Act) :=
  [(n, .lookup (.get (n * blockSize))), (n, .enterQueue), (n, .enterWrite)]

/-- The node after thread `t` has taken the free block `b` for its call. -/
def withBlock (node : Node) (t : Nat) (op : Op) (b : Fin cacheSize) (rest : List (Fin cacheSize)) : Node :=
  { node with
    table := node.table.takeFree b rest op.block
    lock := Function.update node.lock b ⟨∅, some t⟩
    phase := Function.update node.phase t (.filling op b false) }

theorem run_withBlock {t : Nat} {op : Op} {b : Fin cacheSize} {rest : List (Fin cacheSize)}
    (halive : s.aborted = false) (hphase : s.phase t = .idle) (hlock : s.queueLock = none)
    (hcache : s.table.cache op.block = none) (hqueue : s.table.queue = b :: rest) (hfree : (s.lock b).isFree) :
    run CacheThreads.step s [(t, .lookup op), (t, .enterQueue), (t, .enterWrite)] =
      some (withBlock s t op b rest) := by
  refine run_of_act halive (lookup_missing hphase hcache) ?_
  refine run_of_act halive (enterQueue_take (setPhase_self ..) hlock hcache hqueue) ?_
  refine run_of_act halive (enterWrite_taking (setPhase_self ..) hfree) ?_
  rw [run_nil]
  refine congrArg some ?_
  unfold withBlock Node.setPhase Node.setLock
  simp only [Function.update_idem, hlock]

theorem taken_succ (h : Taken n s) (hn : n < cacheSize) :
    ∃ s', run CacheThreads.step s (takeNext n) = some s' ∧ Taken (n + 1) s' := by
  obtain ⟨rest, hrest, hnext⟩ : ∃ rest, rest = (List.finRange cacheSize).drop (n + 1) ∧
      s.table.queue = ⟨n, hn⟩ :: rest := by
    refine ⟨_, rfl, ?_⟩
    rw [h.queue, List.drop_eq_getElem_cons (by rw [List.length_finRange]; exact hn), List.getElem_finRange]
    rfl
  have hcache : s.table.cache (Op.get (n * blockSize)).block = none := by
    rw [block_get]
    exact h.cache n (Nat.le_refl n)
  have hrun := run_withBlock h.alive (h.idle n (Nat.le_refl n)) h.queueLock hcache hnext
    (h.lock ⟨n, hn⟩ (Nat.le_refl n))
  refine ⟨_, hrun, ?_⟩
  constructor
  · exact hrest
  · exact h.key
  · intro i hi
    show Function.update s.table.cache (Op.get (n * blockSize)).block (some ⟨n, hn⟩) (i * blockSize) = none
    rw [block_get, Function.update_of_ne]
    · exact h.cache i (Nat.le_of_succ_le hi)
    · intro heq
      have hsame := Nat.eq_of_mul_eq_mul_right (by decide) heq
      omega
  · intro b hb
    show (Function.update s.lock ⟨n, hn⟩ ⟨∅, some n⟩ b).isFree
    rw [Function.update_of_ne fun heq => Nat.ne_of_gt hb (congrArg Fin.val heq)]
    exact h.lock b (Nat.le_of_succ_le hb)
  · exact h.queueLock
  · intro t ht
    show Function.update s.phase n _ t = .idle
    rw [Function.update_of_ne (Nat.ne_of_gt ht)]
    exact h.idle t (Nat.le_of_succ_le ht)
  · exact h.alive

/-- The first `n` threads take the first `n` blocks. -/
def takeAll (n : Nat) : List (Nat × CacheThreads.Act) := (List.range n).flatMap takeNext

theorem run_takeAll (junk : Fin cacheSize → CacheBlock) {n : Nat} (hn : n ≤ cacheSize) :
    ∃ s, run CacheThreads.step (Node.start junk) (takeAll n) = some s ∧ Taken n s := by
  induction n with
  | zero => exact ⟨_, rfl, taken_start junk⟩
  | succ n ih =>
      obtain ⟨s, hrun, htaken⟩ := ih (Nat.le_of_succ_le hn)
      obtain ⟨s', hrun', htaken'⟩ := taken_succ htaken hn
      refine ⟨s', ?_, htaken'⟩
      rw [takeAll, List.range_succ, List.flatMap_append, run_append, ← takeAll, hrun, List.flatMap_cons,
        List.flatMap_nil, List.append_nil]
      exact hrun'

theorem length_takeAll (n : Nat) : (takeAll n).length = 3 * n := by
  induction n with
  | zero => rfl
  | succ n ih =>
      rw [takeAll, List.range_succ, List.flatMap_append, List.length_append, ← takeAll, ih]
      rfl

/-- A thread more than there are blocks looks for one. -/
def takeTooMany : List (Nat × CacheThreads.Act) :=
  takeAll cacheSize ++ [(cacheSize, .lookup (.get (cacheSize * blockSize))), (cacheSize, .enterQueue)]

theorem acts_takeTooMany {cfg : Config} (hmany : cacheSize < cfg.threads) : ∀ p ∈ takeTooMany,
    p.1 < cfg.threads ∧ Inside p.2 ∧ ∀ op, p.2 = CacheThreads.Act.lookup op → InBlock op := by
  have hget : ∀ {i : Nat} (op : Op), CacheThreads.Act.lookup (.get i) = .lookup op → InBlock op := by
    intro i op heq
    obtain rfl := CacheThreads.Act.lookup.inj heq
    trivial
  have hnot : ∀ {a : CacheThreads.Act} (op : Op), (∀ op, a ≠ .lookup op) → a = .lookup op → InBlock op :=
    fun op hne heq => absurd heq (hne op)
  intro p hp
  rcases List.mem_append.mp hp with hp | hp
  · obtain ⟨n, hn, hmem⟩ := List.mem_flatMap.mp hp
    have hthread : n < cfg.threads := Nat.lt_trans (List.mem_range.mp hn) hmany
    simp only [takeNext, List.mem_cons, List.not_mem_nil, or_false] at hmem
    rcases hmem with rfl | rfl | rfl
    · exact ⟨hthread, trivial, hget⟩
    · exact ⟨hthread, trivial, fun op => hnot op nofun⟩
    · exact ⟨hthread, trivial, fun op => hnot op nofun⟩
  · simp only [List.mem_cons, List.not_mem_nil, or_false] at hp
    rcases hp with rfl | rfl
    · exact ⟨hmany, trivial, hget⟩
    · exact ⟨hmany, trivial, fun op => hnot op nofun⟩

theorem enterQueue_abort {t : Nat} {op : Op} (hphase : s.phase t = .missing op) (hlock : s.queueLock = none)
    (hcache : s.table.cache op.block = none) (hqueue : s.table.queue = [])
    (hvictim : CacheTable.victim s.table.blocks = none) :
    s.act t .enterQueue = some { s with aborted := true } := by
  simp only [Node.act, Node.enterQueue, hphase, hlock, hcache, hqueue, hvictim, if_true]

/-- No block has contents, and the thread finds none to swap out. -/
theorem run_takeTooMany (junk : Fin cacheSize → CacheBlock) :
    ∃ s, run CacheThreads.step (Node.start junk) takeTooMany = some s ∧ s.aborted = true := by
  obtain ⟨s, hrun, htaken⟩ := run_takeAll junk (Nat.le_refl cacheSize)
  have hcache : s.table.cache (Op.get (cacheSize * blockSize)).block = none := by
    rw [block_get]
    exact htaken.cache cacheSize (Nat.le_refl _)
  have hqueue : s.table.queue = [] := by
    rw [htaken.queue]
    exact List.drop_of_length_le (Nat.le_of_eq List.length_finRange)
  have hvictim : CacheTable.victim s.table.blocks = none := by
    cases hsome : CacheTable.victim s.table.blocks with
    | none => rfl
    | some b => exact absurd (htaken.key b) (CacheTable.key_of_victim hsome)
  have habort : run CacheThreads.step s
      [(cacheSize, .lookup (.get (cacheSize * blockSize))), (cacheSize, .enterQueue)] =
        some { s.setPhase cacheSize (.missing (.get (cacheSize * blockSize))) with aborted := true } := by
    refine run_of_act htaken.alive (lookup_missing (htaken.idle cacheSize (Nat.le_refl _)) hcache) ?_
    exact run_of_act htaken.alive
      (enterQueue_abort (setPhase_self ..) htaken.queueLock hcache hqueue hvictim) (run_nil _)
  refine ⟨{ s.setPhase cacheSize (.missing (.get (cacheSize * blockSize))) with aborted := true }, ?_, rfl⟩
  rw [takeTooMany, run_append, hrun]
  exact habort

end Taken

/-- In runs of fewer than `2 ^ 32` steps no assertion fails and no breakpoint is reached, at any node,
exactly when the nodes have no more threads than blocks. -/
theorem no_node_stops_iff (cfg : Config) (junk : Nat → Fin cacheSize → CacheBlock) (backend : Memory) :
    (∀ as s, as.length ≤ noStamp → run (step cfg) (start junk backend) as = some s →
      ∀ m, (s.nodes m).aborted = false) ↔ cfg.threads ≤ cacheSize := by
  constructor
  · intro hnone
    by_contra hmany
    have hmany' : cacheSize < cfg.threads := Nat.lt_of_not_le hmany
    obtain ⟨node, hrun, hstopped⟩ := run_takeTooMany (junk 0)
    have hcluster := run_cache (s := start junk backend) (m := 0) cfg.pos (acts_takeTooMany hmany') hrun
    have halive := hnone _ _ ?_ hcluster 0
    · rw [setNode_self, hstopped] at halive
      cases halive
    · rw [List.length_map, takeTooMany, List.length_append, length_takeAll]
      decide
  · intro hn as s hlength hrun
    exact (running_run (running_start cfg junk backend) hn (by rwa [Nat.zero_add]) hrun).alive

end Dogee.CacheCluster
