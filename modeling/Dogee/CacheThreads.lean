import Dogee.CacheTable
import Dogee.Transition
import Mathlib.Data.Finset.Basic

/-!
# The threads of one cache

`doget` and `doput` run on any number of threads of a node. A thread looks its block up under
`hash_lock`, locks the block and checks its key; on a miss it takes a block under `queue_lock`,
locks it, and fills it with what the home node sends. Each section under a lock is a step, and
so is each wait for a lock of a block. The home answers every request; what it does with it is
not modelled here.

A lock is given by the threads that hold it. `ran` only records the blocks on which `doget` has
run its callback.
-/

namespace Dogee.CacheThreads

open Transition

/-- A call of `doget` or `doput`. -/
inductive Op
  | get (addr : Nat)
  | put (addr : Nat) (v : List Word)

def Op.addr : Op → Nat
  | .get addr => addr
  | .put addr _ => addr

/-- The address of the block that the call is about. -/
def Op.block (op : Op) : Nat := blockBase op.addr

/-- The lock of a block. -/
structure RwLock where
  readers : Finset Nat
  writer : Option Nat

def RwLock.isFree (l : RwLock) : Prop := l.readers = ∅ ∧ l.writer = none

instance (l : RwLock) : Decidable l.isFree := inferInstanceAs (Decidable (_ ∧ _))

/-- How far the request of a hit to the home node is. A read sends none. -/
inductive Request
  | unsent
  | sent
  | served
deriving DecidableEq

/-- Where a thread is: outside; before the lock of a block that it has found; at the label
`MISS`; in `getblock` with a free block or with the block to swap out, before its lock; before
`Writeback` of the old key; in the miss function of the protocol; with the block filled; and in
a hit, with the read lock. -/
inductive Phase
  | idle
  | found (op : Op) (b : Fin cacheSize)
  | missing (op : Op)
  | taking (op : Op) (b : Fin cacheSize)
  | evicting (op : Op) (b : Fin cacheSize)
  | writingBack (op : Op) (b : Fin cacheSize) (oldkey : Nat)
  | filling (op : Op) (b : Fin cacheSize) (sent : Bool)
  | filled (op : Op) (b : Fin cacheSize)
  | reading (op : Op) (b : Fin cacheSize) (request : Request)

/-- The cache of a node and its threads. -/
structure Node where
  table : CacheTable
  lock : Fin cacheSize → RwLock
  queueLock : Option Nat
  clock : Nat
  phase : Nat → Phase
  ran : List (Op × CacheBlock)
  aborted : Bool

namespace Node

def setPhase (s : Node) (t : Nat) (ph : Phase) : Node :=
  { s with phase := Function.update s.phase t ph }

def setLock (s : Node) (b : Fin cacheSize) (l : RwLock) : Node :=
  { s with lock := Function.update s.lock b l }

/-- `blk->lru = CacheClock()` -/
def stamp (s : Node) (b : Fin cacheSize) : Node :=
  { s with
    table := s.table.modify b fun blk => { blk with lru := s.clock }
    clock := (s.clock + 1) % two32 }

/-- A hit of `doput` copies the words into the block. -/
def copyIn (s : Node) (b : Fin cacheSize) : Op → Option Node
  | .get _ => some s
  | .put addr v =>
      (copyWords (s.table.blocks b).cache (addr % blockSize) v).map fun words =>
        { s with table := s.table.modify b fun blk => { blk with cache := words } }

/-- `doget` runs its callback. -/
def callback (s : Node) (b : Fin cacheSize) (op : Op) : Node :=
  match op with
  | .get _ => { s with ran := s.ran ++ [(op, s.table.blocks b)] }
  | .put _ _ => s

/-- The lookup under `hash_lock`. -/
def lookup (s : Node) (t : Nat) (op : Op) : Option Node :=
  match s.phase t with
  | .idle =>
      match s.table.cache op.block with
      | some b => some (s.setPhase t (.found op b))
      | none => some (s.setPhase t (.missing op))
  | _ => none

/-- The read lock of a block and the check of its key. -/
def enterRead (s : Node) (t : Nat) : Option Node :=
  match s.phase t with
  | .found op b =>
      if (s.lock b).writer = none then
        if (s.table.blocks b).key = op.block then
          ((s.stamp b).copyIn b op).map fun s =>
            (s.setLock b { s.lock b with readers := insert t (s.lock b).readers }).setPhase t
              (.reading op b (match op with
                | .get _ => .served
                | .put _ _ => .unsent))
        else some (s.setPhase t (.missing op))
      else none
  | _ => none

/-- `getblock` under `queue_lock`: a block for the address, or one to wait for. -/
def enterQueue (s : Node) (t : Nat) : Option Node :=
  match s.phase t with
  | .missing op =>
      if s.queueLock = none then
        match s.table.cache op.block, s.table.queue with
        | some b, _ => some (s.setPhase t (.found op b))
        | none, b :: rest =>
            some ({ s with
              table := s.table.takeFree b rest op.block
              queueLock := some t }.setPhase t (.taking op b))
        | none, [] =>
            match CacheTable.victim s.table.blocks with
            | none => some { s with aborted := true }
            | some b => some ({ s with queueLock := some t }.setPhase t (.evicting op b))
      else none
  | _ => none

/-- The write lock of the new block; a block that was in use gets its new key in the table. -/
def enterWrite (s : Node) (t : Nat) : Option Node :=
  match s.phase t with
  | .taking op b =>
      if (s.lock b).isFree then
        some (({ s with queueLock := none }.setLock b ⟨∅, some t⟩).setPhase t (.filling op b false))
      else none
  | .evicting op b =>
      if (s.lock b).isFree then
        some (({ s with
          table := s.table.swapOut b op.block
          queueLock := none }.setLock b ⟨∅, some t⟩).setPhase t
            (.writingBack op b (s.table.blocks b).key))
      else none
  | _ => none

/-- `Writeback` of the old key. -/
def writeback (s : Node) (t : Nat) : Option Node :=
  match s.phase t with
  | .writingBack op b _ => some (s.setPhase t (.filling op b false))
  | _ => none

/-- The request to the home node: `ReadMiss`, `WriteMiss` or `Write`. -/
def request (s : Node) (t : Nat) : Option Node :=
  match s.phase t with
  | .filling op b false => some (s.setPhase t (.filling op b true))
  | .reading op b .unsent => some (s.setPhase t (.reading op b .sent))
  | _ => none

/-- The answer of the home node; a miss gets the words of its block. -/
def reply (s : Node) (t : Nat) (words : List Word) : Option Node :=
  match s.phase t with
  | .filling op b true =>
      some ({ s with
        table := s.table.modify b fun blk => { blk with cache := words, key := op.block } }.setPhase t
          (.filled op b))
  | .reading op b .sent => some (s.setPhase t (.reading op b .served))
  | _ => none

/-- The end of a call. -/
def finish (s : Node) (t : Nat) : Option Node :=
  match s.phase t with
  | .reading op b .served =>
      some (((s.callback b op).setLock b
        { s.lock b with readers := (s.lock b).readers.erase t }).setPhase t .idle)
  | .filled op b =>
      some ((((s.stamp b).callback b op).setLock b { s.lock b with writer := none }).setPhase t .idle)
  | _ => none

end Node

/-- The steps of a thread. -/
inductive Act
  | lookup (op : Op)
  | enterRead
  | enterQueue
  | enterWrite
  | writeback
  | request
  | reply (words : List Word)
  | finish

/-- A step of the thread `t`. -/
def Node.act (s : Node) (t : Nat) : Act → Option Node
  | .lookup op => s.lookup t op
  | .enterRead => s.enterRead t
  | .enterQueue => s.enterQueue t
  | .enterWrite => s.enterWrite t
  | .writeback => s.writeback t
  | .request => s.request t
  | .reply words => s.reply t words
  | .finish => s.finish t

/-- After a failed assertion nothing happens any more. -/
def step (s : Node) (a : Nat × Act) : Option Node := if s.aborted then none else s.act a.1 a.2

/-- A new cache. -/
def Node.start (junk : Fin cacheSize → CacheBlock) : Node where
  table := CacheTable.fresh junk
  lock := fun _ => ⟨∅, none⟩
  queueLock := none
  clock := 0
  phase := fun _ => .idle
  ran := []
  aborted := false

/-! ## The table -/

/-- The blocks, the queue and the hash table fit together. -/
structure TableInv (t : CacheTable) : Prop where
  nodup : t.queue.Nodup
  free : ∀ b ∈ t.queue, (t.blocks b).key = badKey ∧ ∀ k, t.cache k ≠ some b
  mapped : ∀ b, b ∉ t.queue → ∃ k, t.cache k = some b
  inj : ∀ k k' b, t.cache k = some b → t.cache k' = some b → k = k'
  key : ∀ b, (t.blocks b).key ≠ badKey → t.cache (t.blocks b).key = some b

theorem block_ne_badKey (op : Op) : op.block ≠ badKey := by
  intro h
  have hdvd : blockSize ∣ badKey := by
    rw [← h]
    exact ⟨op.addr / blockSize, Nat.mul_comm ..⟩
  revert hdvd
  decide

theorem tableInv_fresh (junk : Fin cacheSize → CacheBlock) : TableInv (CacheTable.fresh junk) := by
  constructor
  · simp only [CacheTable.fresh]
    exact List.nodup_finRange _
  · intro b _
    simp [CacheTable.fresh]
  · intro b hb
    simp only [CacheTable.fresh] at hb
    exact absurd (List.mem_finRange b) hb
  · intro k k' b h
    simp [CacheTable.fresh] at h
  · intro b hb
    simp [CacheTable.fresh] at hb

section Table

variable {t : CacheTable} {b : Fin cacheSize} {rest : List (Fin cacheSize)} {k : Nat}

/-- The two tables differ at most in the contents and the stamps of their blocks. -/
structure SameKeys (t t' : CacheTable) : Prop where
  queue : t'.queue = t.queue
  cache : t'.cache = t.cache
  key : ∀ b, (t'.blocks b).key = (t.blocks b).key

theorem SameKeys.refl (t : CacheTable) : SameKeys t t := ⟨rfl, rfl, fun _ => rfl⟩

theorem SameKeys.trans {t' t'' : CacheTable} (h : SameKeys t t') (h' : SameKeys t' t'') : SameKeys t t'' :=
  ⟨h'.queue.trans h.queue, h'.cache.trans h.cache, fun b => (h'.key b).trans (h.key b)⟩

theorem sameKeys_modify {f : CacheBlock → CacheBlock} (hf : ∀ blk, (f blk).key = blk.key) :
    SameKeys t (t.modify b f) := by
  refine ⟨rfl, rfl, fun b' => ?_⟩
  show (Function.update t.blocks b (f (t.blocks b)) b').key = _
  by_cases h : b' = b
  · rw [h, Function.update_self, hf]
  · rw [Function.update_of_ne h]

theorem TableInv.congr {t' : CacheTable} (h : TableInv t) (hsame : SameKeys t t') : TableInv t' := by
  obtain ⟨hqueue, hcache, hkey⟩ := hsame
  constructor
  · rw [hqueue]
    exact h.nodup
  · intro b hb
    rw [hqueue] at hb
    rw [hkey, hcache]
    exact h.free b hb
  · intro b hb
    rw [hqueue] at hb
    rw [hcache]
    exact h.mapped b hb
  · rw [hcache]
    exact h.inj
  · intro b hb
    rw [hkey] at hb ⊢
    rw [hcache]
    exact h.key b hb

/-- A free block is given to an address that has none. -/
theorem TableInv.takeFree (h : TableInv t) (hqueue : t.queue = b :: rest) (hk : t.cache k = none) :
    TableInv (t.takeFree b rest k) := by
  have hnodup := h.nodup
  rw [hqueue, List.nodup_cons] at hnodup
  have hb : b ∈ t.queue := hqueue ▸ List.mem_cons_self
  constructor
  · exact hnodup.2
  · intro b' hb'
    have hmem : b' ∈ t.queue := hqueue ▸ List.mem_cons_of_mem _ hb'
    refine ⟨(h.free b' hmem).1, fun k' hk' => ?_⟩
    change Function.update t.cache k (some b) k' = some b' at hk'
    by_cases hkk : k' = k
    · rw [hkk, Function.update_self] at hk'
      obtain rfl := Option.some.inj hk'
      exact hnodup.1 hb'
    · rw [Function.update_of_ne hkk] at hk'
      exact (h.free b' hmem).2 k' hk'
  · intro b' hb'
    by_cases hbb : b' = b
    · subst hbb
      exact ⟨k, Function.update_self ..⟩
    · have hnot : b' ∉ t.queue := by
        rw [hqueue]
        exact fun hm => (List.mem_cons.mp hm).elim hbb hb'
      obtain ⟨k', hk'⟩ := h.mapped b' hnot
      refine ⟨k', ?_⟩
      show Function.update t.cache k (some b) k' = some b'
      rw [Function.update_of_ne, hk']
      rintro rfl
      rw [hk] at hk'
      cases hk'
  · intro k₁ k₂ b' h₁ h₂
    change Function.update t.cache k (some b) k₁ = some b' at h₁
    change Function.update t.cache k (some b) k₂ = some b' at h₂
    by_cases hk₁ : k₁ = k
    · by_cases hk₂ : k₂ = k
      · rw [hk₁, hk₂]
      · rw [hk₁, Function.update_self] at h₁
        rw [Function.update_of_ne hk₂] at h₂
        obtain rfl := Option.some.inj h₁
        exact absurd h₂ ((h.free b hb).2 k₂)
    · by_cases hk₂ : k₂ = k
      · rw [hk₂, Function.update_self] at h₂
        rw [Function.update_of_ne hk₁] at h₁
        obtain rfl := Option.some.inj h₂
        exact absurd h₁ ((h.free b hb).2 k₁)
      · rw [Function.update_of_ne hk₁] at h₁
        rw [Function.update_of_ne hk₂] at h₂
        exact h.inj k₁ k₂ b' h₁ h₂
  · intro b' hb'
    show Function.update t.cache k (some b) (t.blocks b').key = some b'
    have hkey := h.key b' hb'
    rw [Function.update_of_ne, hkey]
    intro heq
    rw [heq, hk] at hkey
    cases hkey

theorem swapOut_blocks (b' : Fin cacheSize) (hb : b' ≠ b) : (t.swapOut b k).blocks b' = t.blocks b' :=
  Function.update_of_ne hb ..

theorem swapOut_key : ((t.swapOut b k).blocks b).key = badKey := by
  show (Function.update t.blocks b _ b).key = badKey
  rw [Function.update_self]

/-- What the hash table holds after a block was swapped out. -/
theorem swapOut_cache (h : TableInv t) (hkey : (t.blocks b).key ≠ badKey) (hk : t.cache k = none)
    {k' : Nat} {b' : Fin cacheSize} :
    (t.swapOut b k).cache k' = some b' ↔ k' = k ∧ b' = b ∨ t.cache k' = some b' ∧ b' ≠ b := by
  show Function.update (Function.update t.cache (t.blocks b).key none) k (some b) k' = some b' ↔ _
  have hold := h.key b hkey
  by_cases hkk : k' = k
  · rw [hkk, Function.update_self, hk]
    constructor
    · exact fun heq => Or.inl ⟨rfl, (Option.some.inj heq).symm⟩
    · rintro (⟨-, rfl⟩ | ⟨heq, -⟩)
      · rfl
      · cases heq
  · rw [Function.update_of_ne hkk]
    by_cases hko : k' = (t.blocks b).key
    · rw [hko, Function.update_self]
      constructor
      · intro heq
        cases heq
      · rintro (⟨heq, -⟩ | ⟨heq, hne⟩)
        · exact absurd (hko.trans heq) hkk
        · rw [hold] at heq
          exact absurd (Option.some.inj heq).symm hne
    · rw [Function.update_of_ne hko]
      constructor
      · intro heq
        refine Or.inr ⟨heq, ?_⟩
        rintro rfl
        exact hko (h.inj _ _ _ heq hold)
      · rintro (⟨heq, -⟩ | ⟨heq, -⟩)
        · exact absurd heq hkk
        · exact heq

/-- A block is given to another address. -/
theorem TableInv.swapOut (h : TableInv t) (hkey : (t.blocks b).key ≠ badKey) (hk : t.cache k = none) :
    TableInv (t.swapOut b k) := by
  have hnot : b ∉ t.queue := fun hb => hkey (h.free b hb).1
  constructor
  · exact h.nodup
  · intro b' hb'
    have hne : b' ≠ b := by
      rintro rfl
      exact hnot hb'
    refine ⟨?_, fun k' hk' => ?_⟩
    · rw [swapOut_blocks b' hne]
      exact (h.free b' hb').1
    · rcases (swapOut_cache h hkey hk).mp hk' with ⟨-, heq⟩ | ⟨heq, -⟩
      · exact hne heq
      · exact (h.free b' hb').2 k' heq
  · intro b' hb'
    by_cases hbb : b' = b
    · exact ⟨k, (swapOut_cache h hkey hk).mpr (Or.inl ⟨rfl, hbb⟩)⟩
    · obtain ⟨k', hk'⟩ := h.mapped b' hb'
      exact ⟨k', (swapOut_cache h hkey hk).mpr (Or.inr ⟨hk', hbb⟩)⟩
  · intro k₁ k₂ b' h₁ h₂
    rcases (swapOut_cache h hkey hk).mp h₁ with ⟨rfl, rfl⟩ | ⟨h₁, hne⟩
    · rcases (swapOut_cache h hkey hk).mp h₂ with ⟨rfl, -⟩ | ⟨-, hne⟩
      · rfl
      · exact absurd rfl hne
    · rcases (swapOut_cache h hkey hk).mp h₂ with ⟨-, heq⟩ | ⟨h₂, -⟩
      · exact absurd heq hne
      · exact h.inj k₁ k₂ b' h₁ h₂
  · intro b' hb'
    have hne : b' ≠ b := by
      rintro rfl
      exact hb' swapOut_key
    rw [swapOut_blocks b' hne] at hb' ⊢
    exact (swapOut_cache h hkey hk).mpr (Or.inr ⟨h.key b' hb', hne⟩)

/-- A mapped block gets its key. -/
theorem TableInv.fill (h : TableInv t) (hk : t.cache k = some b) {f : CacheBlock → CacheBlock}
    (hf : ∀ blk, (f blk).key = k) : TableInv (t.modify b f) := by
  constructor
  · exact h.nodup
  · intro b' hb'
    have hne : b' ≠ b := by
      rintro rfl
      exact (h.free b' hb').2 k hk
    refine ⟨?_, (h.free b' hb').2⟩
    show (Function.update t.blocks b _ b').key = badKey
    rw [Function.update_of_ne hne]
    exact (h.free b' hb').1
  · exact h.mapped
  · exact h.inj
  · intro b' hb'
    show t.cache (Function.update t.blocks b _ b').key = some b'
    change (Function.update t.blocks b _ b').key ≠ badKey at hb'
    by_cases hbb : b' = b
    · subst hbb
      rw [Function.update_self, hf]
      exact hk
    · rw [Function.update_of_ne hbb] at hb' ⊢
      exact h.key b' hb'

end Table

/-! ## The threads -/

/-- The thread is to fill the block. -/
def Phase.fills (ph : Phase) (b : Fin cacheSize) : Prop :=
  match ph with
  | .taking _ b' => b' = b
  | .writingBack _ b' _ => b' = b
  | .filling _ b' _ => b' = b
  | _ => False

/-- What a thread relies on: the locks that it holds, and the keys that these protect. -/
def ThreadInv (s : Node) (t : Nat) : Phase → Prop
  | .idle => True
  | .found _ _ => True
  | .missing _ => True
  | .taking op b =>
      s.queueLock = some t ∧ s.table.cache op.block = some b ∧ (s.table.blocks b).key = badKey
  | .evicting op b =>
      s.queueLock = some t ∧ s.table.cache op.block = none ∧ (s.table.blocks b).key ≠ badKey
  | .writingBack op b _ =>
      (s.lock b).writer = some t ∧ s.table.cache op.block = some b ∧ (s.table.blocks b).key = badKey
  | .filling op b _ =>
      (s.lock b).writer = some t ∧ s.table.cache op.block = some b ∧ (s.table.blocks b).key = badKey
  | .filled op b => (s.lock b).writer = some t ∧ (s.table.blocks b).key = op.block
  | .reading op b _ => t ∈ (s.lock b).readers ∧ (s.table.blocks b).key = op.block

structure Inv (s : Node) : Prop where
  table : TableInv s.table
  thread : ∀ t, ThreadInv s t (s.phase t)
  filler : ∀ k b, s.table.cache k = some b → (s.table.blocks b).key = badKey →
    ∃ t, (s.phase t).fills b
  unique : ∀ t t' b, (s.phase t).fills b → (s.phase t').fills b → t = t'
  ran : ∀ p ∈ s.ran, p.2.key = p.1.block

theorem inv_start (junk : Fin cacheSize → CacheBlock) : Inv (Node.start junk) where
  table := tableInv_fresh junk
  thread _ := trivial
  filler _ _ h := by cases h
  unique _ _ _ h := h.elim
  ran _ h := by cases h

/-- The locks that `t` holds in `s` are still its own in `s'`. -/
structure KeepsLocks (s s' : Node) (t : Nat) : Prop where
  queue : s.queueLock = some t → s'.queueLock = some t
  writer : ∀ b, (s.lock b).writer = some t → (s'.lock b).writer = some t
  readers : ∀ b, t ∈ (s.lock b).readers → t ∈ (s'.lock b).readers

section Threads

variable {s s' : Node} {t : Nat} {ph : Phase}

/-- A thread that fills a block has it mapped, without a key. -/
theorem ThreadInv.of_fills {b : Fin cacheSize} (h : ThreadInv s t ph) (hfills : ph.fills b) :
    (∃ k, s.table.cache k = some b) ∧ (s.table.blocks b).key = badKey := by
  cases ph with
  | taking op b' =>
      obtain rfl : b' = b := hfills
      exact ⟨⟨_, h.2.1⟩, h.2.2⟩
  | writingBack op b' oldkey =>
      obtain rfl : b' = b := hfills
      exact ⟨⟨_, h.2.1⟩, h.2.2⟩
  | filling op b' sent =>
      obtain rfl : b' = b := hfills
      exact ⟨⟨_, h.2.1⟩, h.2.2⟩
  | _ => exact hfills.elim

/-- The locks of a thread are kept, and with them what they protect. -/
theorem ThreadInv.frame (h : ThreadInv s t ph) (hlocks : KeepsLocks s s' t)
    (hfill : ∀ k b, ph.fills b → s.table.cache k = some b → (s.table.blocks b).key = badKey →
      s'.table.cache k = some b ∧ (s'.table.blocks b).key = badKey)
    (hevict : ∀ k b, s.queueLock = some t → s.table.cache k = none → (s.table.blocks b).key ≠ badKey →
      s'.table.cache k = none ∧ (s'.table.blocks b).key ≠ badKey)
    (hkey : ∀ b, (s.lock b).writer = some t ∨ t ∈ (s.lock b).readers →
      (s.table.blocks b).key ≠ badKey → (s'.table.blocks b).key = (s.table.blocks b).key) :
    ThreadInv s' t ph := by
  cases ph with
  | idle => trivial
  | found op b => trivial
  | missing op => trivial
  | taking op b => exact ⟨hlocks.queue h.1, hfill _ b rfl h.2.1 h.2.2⟩
  | evicting op b => exact ⟨hlocks.queue h.1, hevict _ b h.1 h.2.1 h.2.2⟩
  | writingBack op b oldkey => exact ⟨hlocks.writer b h.1, hfill _ b rfl h.2.1 h.2.2⟩
  | filling op b sent => exact ⟨hlocks.writer b h.1, hfill _ b rfl h.2.1 h.2.2⟩
  | filled op b =>
      have hne : (s.table.blocks b).key ≠ badKey := h.2 ▸ block_ne_badKey op
      exact ⟨hlocks.writer b h.1, (hkey b (Or.inl h.1) hne).trans h.2⟩
  | reading op b r =>
      have hne : (s.table.blocks b).key ≠ badKey := h.2 ▸ block_ne_badKey op
      exact ⟨hlocks.readers b h.1, (hkey b (Or.inr h.1) hne).trans h.2⟩

/-- A step of `t` that changes no key and no entry of the table. -/
theorem Inv.keep (h : Inv s) (hphase : s'.phase = Function.update s.phase t ph)
    (htable : SameKeys s.table s'.table) (hown : ThreadInv s' t ph)
    (hlocks : ∀ t', t' ≠ t → KeepsLocks s s' t') (hfills : ph.fills = (s.phase t).fills)
    (hran : ∀ p ∈ s'.ran, p.2.key = p.1.block) : Inv s' := by
  have hsame : ∀ t', (s'.phase t').fills = (s.phase t').fills := by
    intro t'
    rw [hphase]
    by_cases ht : t' = t
    · rw [ht, Function.update_self, hfills]
    · rw [Function.update_of_ne ht]
  constructor
  · exact h.table.congr htable
  · intro t'
    rw [hphase]
    by_cases ht : t' = t
    · rw [ht, Function.update_self]
      exact hown
    · rw [Function.update_of_ne ht]
      apply (h.thread t').frame (hlocks t' ht)
      · intro k b _ hk hb
        rw [htable.cache, htable.key]
        exact ⟨hk, hb⟩
      · intro k b _ hk hb
        rw [htable.cache, htable.key]
        exact ⟨hk, hb⟩
      · intro b _ _
        exact htable.key b
  · intro k b hk hb
    rw [htable.cache] at hk
    rw [htable.key] at hb
    obtain ⟨t', ht'⟩ := h.filler k b hk hb
    exact ⟨t', hsame t' ▸ ht'⟩
  · intro t₁ t₂ b h₁ h₂
    rw [hsame] at h₁ h₂
    exact h.unique t₁ t₂ b h₁ h₂
  · exact hran

theorem KeepsLocks.of_eq (hqueue : s'.queueLock = s.queueLock) (hlock : s'.lock = s.lock) :
    KeepsLocks s s' t := by
  constructor
  · rw [hqueue]
    exact id
  · rw [hlock]
    exact fun _ => id
  · rw [hlock]
    exact fun _ => id

theorem KeepsLocks.of_update {b : Fin cacheSize} {l : RwLock}
    (hqueue : s.queueLock = some t → s'.queueLock = some t)
    (hlock : s'.lock = Function.update s.lock b l)
    (hwriter : (s.lock b).writer = some t → l.writer = some t)
    (hreaders : t ∈ (s.lock b).readers → t ∈ l.readers) : KeepsLocks s s' t := by
  constructor
  · exact hqueue
  · intro b'
    rw [hlock]
    by_cases hb : b' = b
    · rw [hb, Function.update_self]
      exact hwriter
    · rw [Function.update_of_ne hb]
      exact id
  · intro b'
    rw [hlock]
    by_cases hb : b' = b
    · rw [hb, Function.update_self]
      exact hreaders
    · rw [Function.update_of_ne hb]
      exact id

/-- A free lock is not held by any thread. -/
theorem KeepsLocks.of_isFree {b : Fin cacheSize} {l : RwLock} (hfree : (s.lock b).isFree)
    (hqueue : s.queueLock = some t → s'.queueLock = some t)
    (hlock : s'.lock = Function.update s.lock b l) : KeepsLocks s s' t := by
  apply KeepsLocks.of_update hqueue hlock
  · rw [hfree.2]
    exact fun h => by cases h
  · rw [hfree.1]
    exact fun h => by cases h

/-- Only the place of the thread `t` changes, and it fills what it filled. -/
theorem Inv.setPhase (h : Inv s) (hown : ThreadInv s t ph) (hfills : ph.fills = (s.phase t).fills) :
    Inv (s.setPhase t ph) :=
  h.keep rfl (SameKeys.refl _) (hown.frame (KeepsLocks.of_eq rfl rfl) (fun _ _ _ hk hb => ⟨hk, hb⟩)
    (fun _ _ _ hk hb => ⟨hk, hb⟩) fun _ _ _ => rfl) (fun _ _ => KeepsLocks.of_eq rfl rfl) hfills h.ran

theorem inv_lookup {op : Op} (h : Inv s) (hstep : s.lookup t op = some s') : Inv s' := by
  unfold Node.lookup at hstep
  split at hstep
  · rename_i hph
    split at hstep
    all_goals
      obtain rfl := Option.some.inj hstep
      refine h.setPhase ?_ ?_
      · trivial
      · rw [hph]
        rfl
  · cases hstep

theorem sameKeys_stamp (s : Node) (b : Fin cacheSize) : SameKeys s.table (s.stamp b).table := by
  have htable : (s.stamp b).table = s.table.modify b fun blk => { blk with lru := s.clock } := rfl
  rw [htable]
  apply sameKeys_modify
  intro blk
  rfl

/-- `stamp` and `copyIn` leave the keys alone. -/
theorem copyIn_stamp {op : Op} {b : Fin cacheSize} {s₁ : Node} (hcopy : (s.stamp b).copyIn b op = some s₁) :
    SameKeys s.table s₁.table ∧ s₁.lock = s.lock ∧ s₁.queueLock = s.queueLock ∧
      s₁.phase = s.phase ∧ s₁.ran = s.ran := by
  have hstamp := sameKeys_stamp s b
  cases op with
  | get addr =>
      obtain rfl := Option.some.inj hcopy
      exact ⟨hstamp, rfl, rfl, rfl, rfl⟩
  | put addr v =>
      obtain ⟨words, -, rfl⟩ := Option.map_eq_some_iff.mp hcopy
      refine ⟨hstamp.trans ?_, rfl, rfl, rfl, rfl⟩
      dsimp only
      apply sameKeys_modify
      intro blk
      rfl

theorem inv_enterRead (h : Inv s) (hstep : s.enterRead t = some s') : Inv s' := by
  unfold Node.enterRead at hstep
  split at hstep
  · rename_i op b hph
    split at hstep
    · split at hstep
      · rename_i hkey
        obtain ⟨s₁, hcopy, rfl⟩ := Option.map_eq_some_iff.mp hstep
        obtain ⟨hsame, hlock, hqueue, hphase, hran⟩ := copyIn_stamp hcopy
        refine h.keep (congrArg (Function.update · t _) hphase) hsame ⟨?_, ?_⟩ ?_ ?_ ?_
        · show t ∈ (Function.update s₁.lock b _ b).readers
          rw [Function.update_self]
          exact Finset.mem_insert_self _ _
        · exact (hsame.key b).trans hkey
        · intro t' _
          refine KeepsLocks.of_update ?_ (congrArg (Function.update · b _) hlock) ?_ ?_
          · exact fun hq => hqueue.trans hq
          · exact fun hw => (congrArg (fun l => (l b).writer) hlock).trans hw
          · intro hr
            rw [← hlock] at hr
            exact Finset.mem_insert_of_mem hr
        · rw [hph]
          rfl
        · intro p hp
          exact h.ran p (hran ▸ hp)
      · obtain rfl := Option.some.inj hstep
        refine h.setPhase ?_ ?_
        · trivial
        · rw [hph]
          rfl
    · cases hstep
  · cases hstep

theorem inv_writeback (h : Inv s) (hstep : s.writeback t = some s') : Inv s' := by
  unfold Node.writeback at hstep
  split at hstep
  · rename_i op b oldkey hph
    obtain rfl := Option.some.inj hstep
    have hown := h.thread t
    rw [hph] at hown
    refine h.setPhase hown ?_
    rw [hph]
    rfl
  · cases hstep

theorem inv_request (h : Inv s) (hstep : s.request t = some s') : Inv s' := by
  have hown := h.thread t
  unfold Node.request at hstep
  split at hstep
  · rename_i op b hph
    obtain rfl := Option.some.inj hstep
    rw [hph] at hown
    refine h.setPhase hown ?_
    rw [hph]
    rfl
  · rename_i op b hph
    obtain rfl := Option.some.inj hstep
    rw [hph] at hown
    refine h.setPhase hown ?_
    rw [hph]
    rfl
  · cases hstep

/-- `callback` only records the block, which has the key of the call. -/
theorem ran_callback {op : Op} {b : Fin cacheSize} (hran : ∀ p ∈ s.ran, p.2.key = p.1.block)
    (hkey : (s.table.blocks b).key = op.block) :
    ∀ p ∈ (s.callback b op).ran, p.2.key = p.1.block := by
  cases op with
  | put addr v => exact hran
  | get addr =>
      intro p hp
      rcases List.mem_append.mp hp with hp | hp
      · exact hran p hp
      · obtain rfl := List.mem_singleton.mp hp
        exact hkey

theorem callback_frame (s : Node) (b : Fin cacheSize) (op : Op) :
    (s.callback b op).table = s.table ∧ (s.callback b op).lock = s.lock ∧
      (s.callback b op).queueLock = s.queueLock ∧ (s.callback b op).phase = s.phase := by
  cases op <;> exact ⟨rfl, rfl, rfl, rfl⟩

theorem inv_finish (h : Inv s) (hstep : s.finish t = some s') : Inv s' := by
  have hown := h.thread t
  unfold Node.finish at hstep
  split at hstep
  · rename_i op b hph
    obtain rfl := Option.some.inj hstep
    obtain ⟨htable, hlock, hqueue, hphase⟩ := callback_frame s b op
    rw [hph] at hown
    refine h.keep (congrArg (Function.update · t _) hphase) ?_ trivial ?_ ?_ ?_
    · exact htable ▸ SameKeys.refl _
    · intro t' ht'
      refine KeepsLocks.of_update ?_ (congrArg (Function.update · b _) hlock) ?_ ?_
      · exact fun hq => hqueue.trans hq
      · exact id
      · exact fun hr => Finset.mem_erase.mpr ⟨ht', hr⟩
    · rw [hph]
      rfl
    · exact ran_callback h.ran hown.2
  · rename_i op b hph
    obtain rfl := Option.some.inj hstep
    obtain ⟨htable, hlock, hqueue, hphase⟩ := callback_frame (s.stamp b) b op
    have hstamp := sameKeys_stamp s b
    rw [hph] at hown
    refine h.keep (congrArg (Function.update · t _) hphase) ?_ trivial ?_ ?_ ?_
    · exact htable ▸ hstamp
    · intro t' ht'
      refine KeepsLocks.of_update ?_ (congrArg (Function.update · b _) hlock) ?_ ?_
      · exact fun hq => hqueue.trans hq
      · intro hw
        exact absurd (Option.some.inj (hw.symm.trans hown.1)) ht'
      · exact id
    · rw [hph]
      rfl
    · exact ran_callback h.ran ((hstamp.key b).trans hown.2)
  · cases hstep

/-- The step with which `t` begins to fill the block `b`, that no thread filled before. -/
theorem Inv.startFill {b : Fin cacheSize} (h : Inv s) (hphase : s'.phase = Function.update s.phase t ph)
    (htable : TableInv s'.table) (hown : ThreadInv s' t ph) (hfills : ∀ b', ph.fills b' ↔ b' = b)
    (hother : ∀ t', t' ≠ t → ThreadInv s' t' (s.phase t')) (hnone : ∀ b', ¬(s.phase t).fills b')
    (hnew : ∀ t', ¬(s.phase t').fills b)
    (hback : ∀ k b', b' ≠ b → s'.table.cache k = some b' → (s'.table.blocks b').key = badKey →
      s.table.cache k = some b' ∧ (s.table.blocks b').key = badKey)
    (hran : s'.ran = s.ran) : Inv s' := by
  have hiff : ∀ t' b', (s'.phase t').fills b' ↔ t' = t ∧ b' = b ∨ (s.phase t').fills b' := by
    intro t' b'
    rw [hphase]
    by_cases ht : t' = t
    · subst ht
      rw [Function.update_self, hfills]
      exact ⟨fun hb => Or.inl ⟨rfl, hb⟩, fun hb => hb.elim And.right fun hf => absurd hf (hnone b')⟩
    · rw [Function.update_of_ne ht]
      exact ⟨Or.inr, fun hb => hb.elim (fun hb => absurd hb.1 ht) id⟩
  constructor
  · exact htable
  · intro t'
    rw [hphase]
    by_cases ht : t' = t
    · rw [ht, Function.update_self]
      exact hown
    · rw [Function.update_of_ne ht]
      exact hother t' ht
  · intro k b' hk hb'
    by_cases hb : b' = b
    · exact ⟨t, (hiff t b').mpr (Or.inl ⟨rfl, hb⟩)⟩
    · obtain ⟨hk, hb'⟩ := hback k b' hb hk hb'
      obtain ⟨t', ht'⟩ := h.filler k b' hk hb'
      exact ⟨t', (hiff t' b').mpr (Or.inr ht')⟩
  · intro t₁ t₂ b' h₁ h₂
    rcases (hiff t₁ b').mp h₁ with ⟨rfl, rfl⟩ | h₁
    · rcases (hiff t₂ b').mp h₂ with ⟨rfl, -⟩ | h₂
      · rfl
      · exact absurd h₂ (hnew t₂)
    · rcases (hiff t₂ b').mp h₂ with ⟨-, rfl⟩ | h₂
      · exact absurd h₁ (hnew t₁)
      · exact h.unique t₁ t₂ b' h₁ h₂
  · rw [hran]
    exact h.ran

/-- A block in the queue is filled by no thread. -/
theorem Inv.not_fills_of_queue {b : Fin cacheSize} (h : Inv s) (hb : b ∈ s.table.queue) (t : Nat) :
    ¬(s.phase t).fills b := by
  intro hfills
  obtain ⟨⟨k, hk⟩, -⟩ := (h.thread t).of_fills hfills
  exact (h.table.free b hb).2 k hk

/-- A block with a key is filled by no thread. -/
theorem Inv.not_fills_of_key {b : Fin cacheSize} (h : Inv s) (hb : (s.table.blocks b).key ≠ badKey)
    (t : Nat) : ¬(s.phase t).fills b :=
  fun hfills => hb ((h.thread t).of_fills hfills).2

theorem inv_enterQueue (h : Inv s) (hstep : s.enterQueue t = some s') : Inv s' := by
  unfold Node.enterQueue at hstep
  split at hstep
  · rename_i op hph
    split at hstep
    · rename_i hqueue
      have hfree : ∀ t', s.queueLock ≠ some t' := by
        intro t' ht'
        rw [hqueue] at ht'
        cases ht'
      split at hstep
      · obtain rfl := Option.some.inj hstep
        refine h.setPhase ?_ ?_
        · trivial
        · rw [hph]
          rfl
      · rename_i b rest hk hq
        obtain rfl := Option.some.inj hstep
        have hb : b ∈ s.table.queue := hq ▸ List.mem_cons_self
        refine h.startFill (b := b) rfl (h.table.takeFree hq hk) ⟨rfl, ?_, ?_⟩ ?_ ?_ ?_ ?_ ?_ rfl
        · exact Function.update_self ..
        · exact (h.table.free b hb).1
        · intro b'
          exact eq_comm
        · intro t' _
          apply (h.thread t').frame
          · exact ⟨fun hq => absurd hq (hfree t'), fun _ => id, fun _ => id⟩
          · intro k' b' _ hk' hb'
            refine ⟨?_, hb'⟩
            show Function.update s.table.cache op.block (some b) k' = some b'
            rw [Function.update_of_ne, hk']
            rintro rfl
            rw [hk] at hk'
            cases hk'
          · exact fun _ _ hq => absurd hq (hfree t')
          · exact fun _ _ _ => rfl
        · intro b' hb'
          rw [hph] at hb'
          exact hb'
        · exact h.not_fills_of_queue hb
        · intro k' b' hne hk' hb'
          refine ⟨?_, hb'⟩
          change Function.update s.table.cache op.block (some b) k' = some b' at hk'
          rwa [Function.update_of_ne] at hk'
          rintro rfl
          rw [Function.update_self] at hk'
          exact hne (Option.some.inj hk').symm
      · rename_i hk hq
        split at hstep
        · obtain rfl := Option.some.inj hstep
          exact ⟨h.table, h.thread, h.filler, h.unique, h.ran⟩
        · rename_i b hvictim
          obtain rfl := Option.some.inj hstep
          refine h.keep rfl (SameKeys.refl _) ⟨rfl, hk, CacheTable.key_of_victim hvictim⟩ ?_ ?_ h.ran
          · intro t' _
            exact ⟨fun hq => absurd hq (hfree t'), fun _ => id, fun _ => id⟩
          · rw [hph]
            rfl
    · cases hstep
  · cases hstep

theorem inv_enterWrite (h : Inv s) (hstep : s.enterWrite t = some s') : Inv s' := by
  have hown := h.thread t
  unfold Node.enterWrite at hstep
  split at hstep
  · rename_i op b hph
    split at hstep
    · rename_i hfree
      obtain rfl := Option.some.inj hstep
      rw [hph] at hown
      refine h.keep rfl (SameKeys.refl _) ⟨?_, hown.2⟩ ?_ ?_ h.ran
      · exact congrArg RwLock.writer (Function.update_self b _ s.lock)
      · intro t' ht'
        refine KeepsLocks.of_isFree hfree ?_ rfl
        exact fun hq => absurd (Option.some.inj (hq.symm.trans hown.1)) ht'
      · rw [hph]
        rfl
    · cases hstep
  · rename_i op b hph
    split at hstep
    · rename_i hfree
      obtain rfl := Option.some.inj hstep
      rw [hph] at hown
      obtain ⟨hqueue, hk, hkey⟩ := hown
      have hother : ∀ t', t' ≠ t → s.queueLock ≠ some t' := fun t' ht' hq =>
        ht' (Option.some.inj (hq.symm.trans hqueue))
      have hcache : ∀ k' b', (s.table.swapOut b op.block).cache k' = some b' ↔
          k' = op.block ∧ b' = b ∨ s.table.cache k' = some b' ∧ b' ≠ b :=
        fun _ _ => swapOut_cache h.table hkey hk
      refine h.startFill (b := b) rfl (h.table.swapOut hkey hk) ⟨?_, ?_, ?_⟩ ?_ ?_ ?_ ?_ ?_ rfl
      · exact congrArg RwLock.writer (Function.update_self b _ s.lock)
      · exact (hcache _ _).mpr (Or.inl ⟨rfl, rfl⟩)
      · exact swapOut_key
      · intro b'
        exact eq_comm
      · intro t' ht'
        apply (h.thread t').frame
        · refine KeepsLocks.of_isFree hfree ?_ rfl
          exact fun hq => absurd hq (hother t' ht')
        · intro k' b' _ hk' hb'
          have hne : b' ≠ b := by
            rintro rfl
            exact hkey hb'
          refine ⟨(hcache _ _).mpr (Or.inr ⟨hk', hne⟩), ?_⟩
          exact (congrArg CacheBlock.key (swapOut_blocks b' hne)).trans hb'
        · exact fun _ _ hq => absurd hq (hother t' ht')
        · intro b' hheld _
          refine congrArg CacheBlock.key (swapOut_blocks b' ?_)
          rintro rfl
          rw [hfree.1, hfree.2] at hheld
          rcases hheld with hheld | hheld <;> cases hheld
      · intro b' hb'
        rw [hph] at hb'
        exact hb'
      · exact h.not_fills_of_key hkey
      · intro k' b' hne hk' hb'
        rcases (hcache _ _).mp hk' with ⟨-, heq⟩ | ⟨hk', -⟩
        · exact absurd heq hne
        · exact ⟨hk', (congrArg CacheBlock.key (swapOut_blocks b' hne)).symm.trans hb'⟩
    · cases hstep
  · cases hstep

/-- The block that `t` fills gets its contents and its key. -/
theorem Inv.fill {op : Op} {b : Fin cacheSize} {words : List Word} (h : Inv s)
    (hph : s.phase t = .filling op b true) :
    Inv ({ s with
      table := s.table.modify b fun blk => { blk with cache := words, key := op.block } }.setPhase t
        (.filled op b)) := by
  have hown := h.thread t
  rw [hph] at hown
  obtain ⟨hwriter, hk, hbad⟩ := hown
  have hmine : (s.phase t).fills b := by
    rw [hph]
    rfl
  have hself : ∀ b', (s.phase t).fills b' → b' = b := by
    intro b' hb'
    rw [hph] at hb'
    exact hb'.symm
  let f : CacheBlock → CacheBlock := fun blk => { blk with cache := words, key := op.block }
  have hnew : ((s.table.modify b f).blocks b).key = op.block :=
    congrArg CacheBlock.key (Function.update_self b _ s.table.blocks)
  have hold : ∀ b', b' ≠ b → ((s.table.modify b f).blocks b').key = (s.table.blocks b').key := by
    intro b' hb'
    exact congrArg CacheBlock.key (Function.update_of_ne hb' _ s.table.blocks)
  have hkeep : ∀ b', (s.table.blocks b').key ≠ badKey →
      ((s.table.modify b f).blocks b').key = (s.table.blocks b').key := by
    intro b' hb'
    apply hold
    rintro rfl
    exact hb' hbad
  have hfills : ∀ t' b', (Function.update s.phase t (.filled op b) t').fills b' ↔
      t' ≠ t ∧ (s.phase t').fills b' := by
    intro t' b'
    by_cases ht : t' = t
    · rw [ht, Function.update_self]
      exact ⟨False.elim, fun hf => hf.1 rfl⟩
    · rw [Function.update_of_ne ht]
      exact ⟨fun hf => ⟨ht, hf⟩, And.right⟩
  constructor
  · exact TableInv.fill (f := f) h.table hk fun _ => rfl
  · intro t'
    show ThreadInv _ t' (Function.update s.phase t (.filled op b) t')
    by_cases ht : t' = t
    · rw [ht, Function.update_self]
      exact ⟨hwriter, hnew⟩
    · rw [Function.update_of_ne ht]
      refine (h.thread t').frame (KeepsLocks.of_eq rfl rfl) ?_ ?_ ?_
      · intro k' b' hf hk' hb'
        refine ⟨hk', (hold b' ?_).trans hb'⟩
        rintro rfl
        exact ht (h.unique t' t b' hf hmine)
      · exact fun k' b' _ hk' hb' => ⟨hk', fun heq => hb' ((hkeep b' hb').symm.trans heq)⟩
      · exact fun b' _ hb' => hkeep b' hb'
  · intro k' b' hk' hb'
    have hne : b' ≠ b := by
      rintro rfl
      exact block_ne_badKey op (hnew.symm.trans hb')
    obtain ⟨t', ht'⟩ := h.filler k' b' hk' ((hold b' hne).symm.trans hb')
    refine ⟨t', (hfills t' b').mpr ⟨?_, ht'⟩⟩
    rintro rfl
    exact hne (hself b' ht')
  · intro t₁ t₂ b' h₁ h₂
    exact h.unique t₁ t₂ b' ((hfills t₁ b').mp h₁).2 ((hfills t₂ b').mp h₂).2
  · exact h.ran

theorem inv_reply {words : List Word} (h : Inv s) (hstep : s.reply t words = some s') : Inv s' := by
  unfold Node.reply at hstep
  split at hstep
  · rename_i op b hph
    obtain rfl := Option.some.inj hstep
    exact h.fill hph
  · rename_i op b hph
    obtain rfl := Option.some.inj hstep
    have hown := h.thread t
    rw [hph] at hown
    refine h.setPhase hown ?_
    rw [hph]
    rfl
  · cases hstep

end Threads

theorem inv_step {s s' : Node} {a : Nat × Act} (h : Inv s) (hstep : step s a = some s') : Inv s' := by
  unfold step at hstep
  split at hstep
  · cases hstep
  · obtain ⟨t, a⟩ := a
    cases a with
    | lookup op => exact inv_lookup h hstep
    | enterRead => exact inv_enterRead h hstep
    | enterQueue => exact inv_enterQueue h hstep
    | enterWrite => exact inv_enterWrite h hstep
    | writeback => exact inv_writeback h hstep
    | request => exact inv_request h hstep
    | reply words => exact inv_reply h hstep
    | finish => exact inv_finish h hstep

theorem inv_run {junk : Fin cacheSize → CacheBlock} {as : List (Nat × Act)} {s : Node}
    (hrun : run step (Node.start junk) as = some s) : Inv s :=
  invariant_reachable (fun _ _ _ h hstep => inv_step h hstep) (inv_start junk) hrun

/-- In every state that the threads can reach, a block is free and unmapped or has exactly one
address; its key is that address or it is being filled, by one thread; and the callbacks of `doget`
have only seen blocks with the key they asked for. -/
theorem blocks_mapped_once {junk : Fin cacheSize → CacheBlock} {as : List (Nat × Act)} {s : Node}
    (hrun : run step (Node.start junk) as = some s) :
    (∀ b, (b ∈ s.table.queue ∧ ∀ k, s.table.cache k ≠ some b) ∨
      (b ∉ s.table.queue ∧ ∃! k, s.table.cache k = some b)) ∧
    (∀ k k' b, s.table.cache k = some b → s.table.cache k' = some b → k = k') ∧
    (∀ b, (s.table.blocks b).key ≠ badKey → s.table.cache (s.table.blocks b).key = some b) ∧
    (∀ k b, s.table.cache k = some b → (s.table.blocks b).key = badKey →
      ∃! t, (s.phase t).fills b) ∧
    ∀ p ∈ s.ran, p.2.key = p.1.block := by
  have h := inv_run hrun
  refine ⟨?_, h.table.inj, h.table.key, ?_, h.ran⟩
  · intro b
    by_cases hb : b ∈ s.table.queue
    · exact Or.inl ⟨hb, (h.table.free b hb).2⟩
    · obtain ⟨k, hk⟩ := h.table.mapped b hb
      exact Or.inr ⟨hb, k, hk, fun k' hk' => h.table.inj k' k b hk' hk⟩
  · intro k b hk hb
    obtain ⟨t, ht⟩ := h.filler k b hk hb
    exact ⟨t, ht, fun t' ht' => h.unique t' t b ht' ht⟩

/-- Thread 1 asks for a word of the block that thread 0 still fills, and both read it in the end. -/
def twoReaders : List (Nat × Act) :=
  [(0, .lookup (.get 40)), (0, .enterQueue), (1, .lookup (.get 33)), (0, .enterWrite), (0, .request),
    (0, .reply (List.replicate blockSize 7)), (0, .finish), (1, .enterRead), (1, .finish)]

theorem blocks_mapped_once_twoReaders :
    ∃ s, run step (Node.start fun _ => ⟨[], 0, 0⟩) twoReaders = some s ∧
      s.ran.map (fun p => (p.1.addr, p.2.key)) = [(40, 32), (33, 32)] ∧
      ∀ b, (s.table.blocks b).key ≠ badKey → s.table.cache (s.table.blocks b).key = some b := by
  have hran : (run step (Node.start fun _ => ⟨[], 0, 0⟩) twoReaders).map
      (fun s => s.ran.map fun p => (p.1.addr, p.2.key)) = some [(40, 32), (33, 32)] := by
    decide +kernel
  obtain ⟨s, hrun, hran⟩ := Option.map_eq_some_iff.mp hran
  exact ⟨s, hrun, hran, (blocks_mapped_once hrun).2.2.1⟩

end Dogee.CacheThreads
