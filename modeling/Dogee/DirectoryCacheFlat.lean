import Dogee.DirectoryCache

/-!
# The cache against the memory behind it

On one node the cache is meant to be invisible: calls through it return what the
same calls return without it (`DSMNoCache` passes every call on to the backend),
and the backend holds the same words. A write miss breaks this: `writeMiss` hands
on one word whatever the length of the write. Between calls every block in the
cache agrees with the backend, so a run in which no write miss loses a word, and
every miss finds a block, is transparent.
-/

namespace Dogee.DirectoryCache

open Transition

/-! ## Blocks of the backend -/

theorem blockBase_mod (addr : Nat) : blockBase addr % blockSize = 0 := Nat.mul_mod_left _ _

theorem aligned_ne_badKey {k : Nat} (hk : k % blockSize = 0) : k ≠ badKey := by
  simp only [badKey, blockSize] at *
  omega

/-- A write within one block patches that block. -/
theorem backendBlock_put {m : Memory} {addr : Nat} {v : List Word}
    (hfit : addr % blockSize + v.length ≤ blockSize) :
    copyWords (backendBlock m (blockBase addr)) (addr % blockSize) v =
      some (backendBlock (backendPut m addr v) (blockBase addr)) := by
  have hlen : (backendBlock m (blockBase addr)).length = blockSize := Memory.length_read ..
  obtain ⟨d, hd, hdlen, hget⟩ := copyWords_spec (backendBlock m (blockBase addr)) (addr % blockSize) v
    (by rw [hlen]; exact hfit)
  have hkey : blockBase addr / two32 = addr / two32 := by
    simp only [blockBase, two32, blockSize]
    omega
  have hfld : blockBase addr % two32 + addr % blockSize = addr % two32 := by
    simp only [blockBase, two32, blockSize]
    omega
  rw [hd]
  refine congrArg some (Memory.eq_read (hdlen.trans hlen) fun i hi => ?_)
  rw [hget, backendPut, Memory.write]
  by_cases hin : addr % blockSize ≤ i ∧ i < addr % blockSize + v.length
  · have hlt : i - addr % blockSize < v.length := by omega
    rw [if_pos hin, if_pos ⟨hkey, by omega, by omega⟩,
      show blockBase addr % two32 + i - addr % two32 = i - addr % blockSize by omega,
      List.getD_eq_getElem?_getD, List.getElem?_eq_getElem hlt]
    rfl
  · rw [if_neg hin, if_neg (by omega)]
    exact Memory.getElem?_read hi

/-- A write within one block leaves the other blocks alone. -/
theorem backendBlock_put_of_ne {m : Memory} {addr k : Nat} {v : List Word}
    (hfit : addr % blockSize + v.length ≤ blockSize) (hk : k % blockSize = 0)
    (hne : k ≠ blockBase addr) : backendBlock (backendPut m addr v) k = backendBlock m k := by
  simp only [backendBlock, Memory.read, List.map_inj_left, List.mem_range]
  intro i hi
  rw [backendPut, Memory.write, if_neg]
  rintro ⟨hkey, hlo, hhi⟩
  apply hne
  simp only [blockBase, two32, blockSize] at *
  omega

/-- Words that are there already need not be written. -/
theorem backendPut_take_one {m : Memory} {addr : Nat} {v : List Word}
    (h : ∀ i, 1 ≤ i → i < v.length → m (addr / two32) (addr % two32 + i) = v.getD i 0) :
    backendPut m addr (v.take 1) = backendPut m addr v := by
  funext o w
  simp only [backendPut, Memory.write, List.length_take]
  by_cases hin : o = addr / two32 ∧ addr % two32 ≤ w ∧ w < addr % two32 + v.length
  · rw [if_pos hin]
    obtain ⟨rfl, hlo, hhi⟩ := hin
    by_cases hfirst : w = addr % two32
    · subst hfirst
      rw [if_pos ⟨rfl, by omega, by omega⟩, Nat.sub_self]
      cases v with
      | nil => rfl
      | cons a v => rfl
    · have hrest := h (w - addr % two32) (by omega) (by omega)
      rw [if_neg (by omega), ← hrest, show addr % two32 + (w - addr % two32) = w by omega]
  · rw [if_neg hin, if_neg (by omega)]

/-! ## The invariant between calls -/

/-- Between calls the table and the hash table agree, the free blocks are queued
once each, and every block in the cache holds what the backend holds. -/
structure Coherent (s : State) : Prop where
  aligned : ∀ k b, s.table.cache k = some b → k % blockSize = 0
  key_eq : ∀ k b, s.table.cache k = some b → (s.table.blocks b).key = k
  cached : ∀ b, (s.table.blocks b).key ≠ badKey → s.table.cache (s.table.blocks b).key = some b
  free_iff : ∀ b, b ∈ s.table.queue ↔ (s.table.blocks b).key = badKey
  nodup : s.table.queue.Nodup
  words : ∀ k b, s.table.cache k = some b → (s.table.blocks b).cache = backendBlock s.backend k

/-- While a miss is served, block `b` belongs to `k` and has no contents yet. -/
structure Claimed (s : State) (k : Nat) (b : Fin cacheSize) : Prop where
  claimed : s.table.cache k = some b
  empty : (s.table.blocks b).key = badKey
  not_free : b ∉ s.table.queue
  aligned : ∀ k b, s.table.cache k = some b → k % blockSize = 0
  key_eq : ∀ k' b', k' ≠ k → s.table.cache k' = some b' → (s.table.blocks b').key = k'
  cached : ∀ b', (s.table.blocks b').key ≠ badKey → s.table.cache (s.table.blocks b').key = some b'
  free_iff : ∀ b', b' ≠ b → (b' ∈ s.table.queue ↔ (s.table.blocks b').key = badKey)
  nodup : s.table.queue.Nodup
  words : ∀ k' b', k' ≠ k → s.table.cache k' = some b' →
    (s.table.blocks b').cache = backendBlock s.backend k'

/-- The cache finds a block to swap out when it needs one. -/
def VictimExists (s : State) : Prop :=
  s.table.queue = [] → ∃ i, (s.table.blocks i).key ≠ badKey ∧ (s.table.blocks i).lru < noStamp

theorem Coherent.lookup_eq {s : State} (hs : Coherent s) (k : Nat) :
    lookup s k = s.table.cache k := by
  rw [lookup]
  cases h : s.table.cache k with
  | none => rfl
  | some b => simp [hs.key_eq k b h]

theorem start_cache (junk : Fin cacheSize → CacheBlock) (m : Memory) (k : Nat) :
    (start junk m).table.cache k = none := rfl

theorem start_queue (junk : Fin cacheSize → CacheBlock) (m : Memory) :
    (start junk m).table.queue = List.finRange cacheSize := by
  rw [start, CacheTable.fresh]

theorem start_key (junk : Fin cacheSize → CacheBlock) (m : Memory) (b : Fin cacheSize) :
    ((start junk m).table.blocks b).key = badKey := rfl

theorem coherent_start (junk : Fin cacheSize → CacheBlock) (m : Memory) : Coherent (start junk m) where
  aligned k b h := by
    rw [start_cache] at h
    cases h
  key_eq k b h := by
    rw [start_cache] at h
    cases h
  cached b h := absurd (start_key junk m b) h
  free_iff b := by
    rw [start_queue, start_key]
    exact ⟨fun _ => rfl, fun _ => List.mem_finRange b⟩
  nodup := by
    rw [start_queue]
    exact List.nodup_finRange cacheSize
  words k b h := by
    rw [start_cache] at h
    cases h

@[simp] theorem stamp_backend (s : State) (b : Fin cacheSize) : (stamp s b).backend = s.backend := rfl

theorem Coherent.stamp {s : State} (hs : Coherent s) (b : Fin cacheSize) : Coherent (stamp s b) := by
  have hblock : ∀ i, ((DirectoryCache.stamp s b).table.blocks i).key = (s.table.blocks i).key ∧
      ((DirectoryCache.stamp s b).table.blocks i).cache = (s.table.blocks i).cache := by
    intro i
    by_cases hi : i = b
    · subst hi
      simp [DirectoryCache.stamp, CacheTable.modify]
    · simp [DirectoryCache.stamp, CacheTable.modify, hi]
  refine ⟨hs.aligned, ?_, ?_, ?_, hs.nodup, ?_⟩
  · intro k i h
    rw [(hblock i).1]
    exact hs.key_eq k i h
  · intro i h
    rw [(hblock i).1] at h ⊢
    exact hs.cached i h
  · intro i
    rw [(hblock i).1]
    exact hs.free_iff i
  · intro k i h
    rw [(hblock i).2]
    exact hs.words k i h

/-- With a single node there is nobody else to renew. -/
theorem renewOthers_self (s : State) (old : Nat → Bool) (addr : Nat) (v : List Word) :
    renewOthers s old cacheId addr v = some s := by
  simp [renewOthers, caches, cacheId, List.range_succ]

/-! ## Hits -/

@[simp] theorem modify_self (t : CacheTable) (b : Fin cacheSize) (f : CacheBlock → CacheBlock) :
    (t.modify b f).blocks b = f (t.blocks b) := Function.update_self ..

theorem modify_of_ne (t : CacheTable) {b i : Fin cacheSize} (h : i ≠ b)
    (f : CacheBlock → CacheBlock) : (t.modify b f).blocks i = t.blocks i :=
  Function.update_of_ne h ..

/-- A write to a block in the cache goes to the block and to the backend. -/
theorem putHit_spec {s : State} (hs : Coherent s) {addr : Nat} {v : List Word} {b : Fin cacheSize}
    (hb : s.table.cache (blockBase addr) = some b)
    (hfit : addr % blockSize + v.length ≤ blockSize) :
    ∃ s', putHit s b addr v = some s' ∧ Coherent s' ∧ s'.backend = backendPut s.backend addr v := by
  have hst := hs.stamp b
  have hcopy : copyWords ((stamp s b).table.blocks b).cache (addr % blockSize) v =
      some (backendBlock (backendPut s.backend addr v) (blockBase addr)) := by
    rw [hst.words _ b hb]
    exact backendBlock_put hfit
  obtain ⟨words, hwords⟩ : ∃ words,
      words = backendBlock (backendPut s.backend addr v) (blockBase addr) := ⟨_, rfl⟩
  rw [← hwords] at hcopy
  let t := (stamp s b).table.modify b fun blk => { blk with cache := words }
  refine ⟨{ stamp s b with table := t, backend := backendPut s.backend addr v }, ?_, ?_, rfl⟩
  · simp only [putHit, patch, hcopy, serverWrite, renewOthers_self, Option.bind_eq_bind,
      Option.bind_some, Option.pure_def]
    rfl
  · have hkey : ∀ i, (t.blocks i).key = ((stamp s b).table.blocks i).key := by
      intro i
      by_cases hi : i = b
      · subst hi
        rw [modify_self]
      · rw [modify_of_ne _ hi]
    refine ⟨hst.aligned, ?_, ?_, ?_, hst.nodup, ?_⟩
    · intro k i h
      rw [hkey]
      exact hst.key_eq k i h
    · intro i h
      rw [hkey] at h ⊢
      exact hst.cached i h
    · intro i
      rw [hkey]
      exact hst.free_iff i
    · intro k i h
      by_cases hk : k = blockBase addr
      · have hib : i = b := by
          rw [hk] at h
          exact Option.some.inj (h.symm.trans hb)
        have hself : (t.blocks b).cache = words := by simp [t]
        rw [hib, hk]
        exact hself.trans hwords
      · have hib : i ≠ b := by
          rintro rfl
          exact hk ((hst.key_eq k i h).symm.trans (hst.key_eq _ i hb))
        have hother : t.blocks i = (stamp s b).table.blocks i := modify_of_ne _ hib _
        rw [backendBlock_put_of_ne hfit (hst.aligned k i h) hk]
        exact (congrArg CacheBlock.cache hother).trans (hst.words k i h)

/-! ## Misses -/

theorem Coherent.claim_free {s : State} (hs : Coherent s) {k : Nat} (hk : k % blockSize = 0)
    (hmiss : s.table.cache k = none) {b : Fin cacheSize} {rest : List (Fin cacheSize)}
    (hq : s.table.queue = b :: rest) :
    Claimed { s with table := s.table.takeFree b rest k } k b := by
  have hnd := hs.nodup
  rw [hq, List.nodup_cons] at hnd
  have hcache : ∀ k', k' ≠ k → (s.table.takeFree b rest k).cache k' = s.table.cache k' :=
    fun k' h => Function.update_of_ne h ..
  have hself : (s.table.takeFree b rest k).cache k = some b := Function.update_self ..
  refine ⟨hself, (hs.free_iff b).mp (by rw [hq]; simp), hnd.1, ?_, ?_, ?_, ?_, hnd.2, ?_⟩
  · intro k' b' h
    by_cases hk' : k' = k
    · rw [hk']
      exact hk
    · rw [hcache k' hk'] at h
      exact hs.aligned k' b' h
  · intro k' b' hk' h
    rw [hcache k' hk'] at h
    exact hs.key_eq k' b' h
  · intro b' h
    have hold := hs.cached b' h
    have hne : (s.table.blocks b').key ≠ k := by
      intro heq
      rw [heq, hmiss] at hold
      cases hold
    exact (hcache _ hne).trans hold
  · intro b' hb'
    have hiff := hs.free_iff b'
    rw [hq, List.mem_cons, or_iff_right hb'] at hiff
    exact hiff
  · intro k' b' hk' h
    rw [hcache k' hk'] at h
    exact hs.words k' b' h

theorem Coherent.claim_victim {s : State} (hs : Coherent s) {k : Nat} (hk : k % blockSize = 0)
    (hmiss : s.table.cache k = none) (hq : s.table.queue = []) {mini : Fin cacheSize}
    (hmini : (s.table.blocks mini).key ≠ badKey) :
    Claimed (serverWriteback { s with table := s.table.swapOut mini k }
      (s.table.blocks mini).key cacheId) k mini := by
  obtain ⟨t, ht⟩ : ∃ t, t = s.table.swapOut mini k := ⟨_, rfl⟩
  rw [← ht]
  have hblk : ∀ i, i ≠ mini → t.blocks i = s.table.blocks i := by
    intro i hi
    rw [ht]
    simp [CacheTable.swapOut, modify_of_ne _ hi]
  have hkey : (t.blocks mini).key = badKey := by
    rw [ht]
    simp [CacheTable.swapOut]
  have hold := hs.cached mini hmini
  have hself : t.cache k = some mini := by
    rw [ht]
    exact Function.update_self ..
  -- the other addresses keep their blocks, except the one swapped out
  have hcache : ∀ k' b', k' ≠ k → (t.cache k' = some b' ↔
      s.table.cache k' = some b' ∧ b' ≠ mini) := by
    intro k' b' hk'
    rw [ht]
    simp only [CacheTable.swapOut, Function.update_of_ne hk']
    by_cases hk'' : k' = (s.table.blocks mini).key
    · rw [hk'', Function.update_self, hold]
      constructor
      · intro h
        cases h
      · rintro ⟨h, hne⟩
        exact absurd (Option.some.inj h).symm hne
    · rw [Function.update_of_ne hk'']
      refine ⟨fun h => ⟨h, ?_⟩, And.left⟩
      rintro rfl
      exact hk'' (hs.key_eq k' b' h).symm
  have hqueue : t.queue = [] := by
    rw [ht]
    exact hq
  refine ⟨hself, hkey, ?_, ?_, ?_, ?_, ?_, ?_, ?_⟩
  · simp [serverWriteback, hqueue]
  · intro k' b' h
    by_cases hk' : k' = k
    · rw [hk']
      exact hk
    · exact hs.aligned k' b' ((hcache k' b' hk').mp h).1
  · intro k' b' hk' h
    obtain ⟨h, hne⟩ := (hcache k' b' hk').mp h
    exact (congrArg CacheBlock.key (hblk b' hne)).trans (hs.key_eq k' b' h)
  · intro b' h
    have hne : b' ≠ mini := by
      rintro rfl
      exact h hkey
    have hkeq : (t.blocks b').key = (s.table.blocks b').key := congrArg CacheBlock.key (hblk b' hne)
    have hbad : (s.table.blocks b').key ≠ badKey := by
      rw [← hkeq]
      exact h
    have hcached := hs.cached b' hbad
    have hk' : (t.blocks b').key ≠ k := by
      rw [hkeq]
      rintro rfl
      rw [hmiss] at hcached
      cases hcached
    refine (hcache _ b' hk').mpr ⟨?_, hne⟩
    rw [hkeq]
    exact hcached
  · intro b' hne
    have hbad := hs.free_iff b'
    rw [hq] at hbad
    have hkeq : (t.blocks b').key = (s.table.blocks b').key := congrArg CacheBlock.key (hblk b' hne)
    simp only [serverWriteback, hqueue, hkeq]
    exact hbad
  · simp [serverWriteback, hqueue]
  · intro k' b' hk' h
    obtain ⟨h, hne⟩ := (hcache k' b' hk').mp h
    exact (congrArg CacheBlock.cache (hblk b' hne)).trans (hs.words k' b' h)

/-- On a miss the cache claims a block. -/
theorem getblock_spec {s : State} (hs : Coherent s) {k : Nat} (hk : k % blockSize = 0)
    (hmiss : s.table.cache k = none) (hvictim : VictimExists s) :
    ∃ s' b, getblock s k = some (s', b, false) ∧ Claimed s' k b ∧ s'.backend = s.backend := by
  cases hq : s.table.queue with
  | cons b rest =>
      refine ⟨_, b, ?_, hs.claim_free hk hmiss hq, rfl⟩
      rw [getblock, hmiss, hq]
  | nil =>
      obtain ⟨i, hi, hlru⟩ := hvictim hq
      obtain ⟨mini, hmini⟩ := CacheTable.exists_victim hi hlru
      refine ⟨_, mini, ?_, hs.claim_victim hk hmiss hq (CacheTable.key_of_victim hmini), rfl⟩
      rw [getblock, hmiss, hq]
      simp only [hmini, Option.bind_eq_bind, Option.bind_some, Option.pure_def]

/-- Filling the claimed block from the backend ends the miss. -/
theorem Claimed.fill {s : State} {k : Nat} {b : Fin cacheSize} (hs : Claimed s k b) :
    Coherent (fill s b k (backendBlock s.backend k)) := by
  have hblk : ∀ i, i ≠ b →
      (DirectoryCache.fill s b k (backendBlock s.backend k)).table.blocks i = s.table.blocks i :=
    fun i hi => by simp [DirectoryCache.fill, modify_of_ne _ hi]
  have hself : (DirectoryCache.fill s b k (backendBlock s.backend k)).table.blocks b =
      { s.table.blocks b with cache := backendBlock s.backend k, key := k } := by
    simp [DirectoryCache.fill]
  have hne : ∀ k' b', k' ≠ k → s.table.cache k' = some b' → b' ≠ b := by
    rintro k' b' hk' h rfl
    have hkey := hs.key_eq k' b' hk' h
    rw [hs.empty] at hkey
    exact aligned_ne_badKey (hs.aligned k' b' h) hkey.symm
  have hk : k ≠ badKey := aligned_ne_badKey (hs.aligned k b hs.claimed)
  refine ⟨hs.aligned, ?_, ?_, ?_, hs.nodup, ?_⟩
  · intro k' b' h
    by_cases hk' : k' = k
    · subst hk'
      obtain rfl : b = b' := Option.some.inj (hs.claimed.symm.trans h)
      rw [hself]
    · rw [hblk b' (hne k' b' hk' h)]
      exact hs.key_eq k' b' hk' h
  · intro b' h
    by_cases hb' : b' = b
    · subst hb'
      rw [hself]
      exact hs.claimed
    · rw [hblk b' hb'] at h ⊢
      exact hs.cached b' h
  · intro b'
    by_cases hb' : b' = b
    · subst hb'
      rw [hself]
      exact ⟨fun h => absurd h hs.not_free, fun h => absurd h hk⟩
    · rw [hblk b' hb']
      exact hs.free_iff b' hb'
  · intro k' b' h
    by_cases hk' : k' = k
    · subst hk'
      obtain rfl : b = b' := Option.some.inj (hs.claimed.symm.trans h)
      rw [hself]
      rfl
    · rw [hblk b' (hne k' b' hk' h)]
      exact hs.words k' b' hk' h

/-- A change of the directory and of one block of the backend does not disturb a miss on that block. -/
theorem Claimed.backend {s : State} {k : Nat} {b : Fin cacheSize} (hs : Claimed s k b)
    {addr : Nat} {v : List Word} (hfit : addr % blockSize + v.length ≤ blockSize)
    (hk : k = blockBase addr) (dir : Nat → Nat → Bool) :
    Claimed { s with directory := dir, backend := backendPut s.backend addr v } k b :=
  { hs with
    words := by
      intro k' b' hk' h
      rw [hs.words k' b' hk' h]
      have hne : k' ≠ blockBase addr := by
        rw [← hk]
        exact hk'
      exact (backendBlock_put_of_ne hfit (hs.aligned k' b' h) hne).symm }

/-- A write within one block does what it should when it hits, or when there is a
block to claim and the words after the first are in the backend already. -/
def PutOk (s : State) (addr : Nat) (v : List Word) : Prop :=
  lookup s (blockBase addr) = none → VictimExists s ∧
    ∀ i, 1 ≤ i → i < v.length → s.backend (addr / two32) (addr % two32 + i) = v.getD i 0

/-- A read within one block does what it should when it hits, or when there is a
block to claim. -/
def GetOk (s : State) (addr : Nat) : Prop :=
  lookup s (blockBase addr) = none → VictimExists s

theorem writeMiss_spec {s : State} {addr : Nat} {v : List Word} {b : Fin cacheSize}
    (hs : Claimed s (blockBase addr) b) (hfit : addr % blockSize + v.length ≤ blockSize) :
    ∃ s', writeMiss s addr v b = some s' ∧ Coherent s' ∧
      s'.backend = backendPut s.backend addr (v.take 1) := by
  have hfit' : addr % blockSize + (v.take 1).length ≤ blockSize := by
    rw [List.length_take]
    omega
  obtain ⟨dir, hdir⟩ : ∃ dir, dir =
      (setBit { s with backend := backendPut s.backend addr (v.take 1) }
        (blockBase addr) cacheId).directory := ⟨_, rfl⟩
  refine ⟨_, ?_, (hs.backend hfit' rfl dir).fill, rfl⟩
  simp only [writeMiss, serverWriteMiss, renewOthers_self, Option.bind_eq_bind, Option.bind_some,
    Option.pure_def, hdir]
  rfl

theorem readMiss_spec {s : State} {k : Nat} {b : Fin cacheSize} (hs : Claimed s k b) :
    Coherent (readMiss s k b) ∧ (readMiss s k b).backend = s.backend ∧
      (readMiss s k b).table.cache k = some b := by
  refine ⟨?_, rfl, hs.claimed⟩
  have hdir : Claimed (setBit s k cacheId) k b := { hs with }
  exact hdir.fill

theorem doput_spec {s : State} (hs : Coherent s) {addr : Nat} {v : List Word}
    (hfit : addr % blockSize + v.length ≤ blockSize) (hok : PutOk s addr v) :
    ∃ s', doput s addr v = some s' ∧ Coherent s' ∧ s'.backend = backendPut s.backend addr v := by
  rw [doput]
  rw [PutOk] at hok
  cases hb : lookup s (blockBase addr) with
  | some b =>
      rw [hs.lookup_eq] at hb
      exact putHit_spec hs hb hfit
  | none =>
      obtain ⟨hvictim, htail⟩ := hok hb
      rw [hs.lookup_eq] at hb
      obtain ⟨s₁, b, hget, hclaim, hback⟩ := getblock_spec hs (blockBase_mod addr) hb hvictim
      obtain ⟨s₂, hmiss, hco, hback'⟩ := writeMiss_spec hclaim hfit
      refine ⟨stamp s₂ b, ?_, hco.stamp b, ?_⟩
      · simp only [hget, hmiss, Option.bind_eq_bind, Option.bind_some, Option.pure_def,
          Bool.false_eq_true, if_false]
      · rw [stamp_backend, hback', hback, backendPut_take_one htail]

theorem doget_spec {s : State} (hs : Coherent s) {addr : Nat} (hok : GetOk s addr) :
    ∃ s' b, doget s addr = some (s', b) ∧ Coherent s' ∧ s'.backend = s.backend ∧
      s'.table.cache (blockBase addr) = some b := by
  rw [doget]
  rw [GetOk] at hok
  cases hb : lookup s (blockBase addr) with
  | some b =>
      rw [hs.lookup_eq] at hb
      exact ⟨_, b, rfl, hs.stamp b, rfl, hb⟩
  | none =>
      have hvictim := hok hb
      rw [hs.lookup_eq] at hb
      obtain ⟨s₁, b, hget, hclaim, hback⟩ := getblock_spec hs (blockBase_mod addr) hb hvictim
      obtain ⟨hco, hback', hcache⟩ := readMiss_spec hclaim
      refine ⟨stamp (readMiss s₁ (blockBase addr) b) b, b, ?_, hco.stamp b, ?_, hcache⟩
      · simp only [hget, Option.bind_eq_bind, Option.bind_some, Option.pure_def,
          Bool.false_eq_true, if_false]
      · rw [stamp_backend, hback', hback]

/-- The words of one block, read through the cache. -/
theorem getblockdata_spec {s : State} (hs : Coherent s) {addr len : Nat} (hok : GetOk s addr)
    (hfit : addr % blockSize + len ≤ blockSize) :
    ∃ s', getblockdata s addr len = some (s', s.backend.read (addr / two32) (addr % two32) len) ∧
      Coherent s' ∧ s'.backend = s.backend := by
  obtain ⟨s', b, hget, hco, hback, hcache⟩ := doget_spec hs hok
  refine ⟨s', ?_, hco, hback⟩
  have hwords : slice (s'.table.blocks b).cache (addr % blockSize) len =
      some (s.backend.read (addr / two32) (addr % two32) len) := by
    rw [hco.words _ b hcache, hback, backendBlock, slice, Memory.length_read, if_pos hfit]
    refine congrArg some (Memory.eq_read ?_ fun i hi => ?_)
    · rw [List.length_take, List.length_drop, Memory.length_read]
      omega
    · have hkey : blockBase addr / two32 = addr / two32 := by
        simp only [blockBase, two32, blockSize]
        omega
      have hfld : blockBase addr % two32 + (addr % blockSize + i) = addr % two32 + i := by
        simp only [blockBase, two32, blockSize]
        omega
      rw [List.getElem?_take_of_lt hi, List.getElem?_drop, Memory.getElem?_read (by omega), hkey, hfld]
  simp only [getblockdata, hget, hwords, Option.bind_eq_bind, Option.bind_some, Option.pure_def]

theorem make64_div {key fldid : Nat} (h : fldid < two32) : make64 key fldid / two32 = key := by
  simp only [make64, two32] at *
  omega

theorem make64_mod {key fldid : Nat} (h : fldid < two32) : make64 key fldid % two32 = fldid := by
  simp only [make64, two32] at *
  omega

theorem get_spec {s : State} (hs : Coherent s) {key fldid : Nat} (hfld : fldid < two32)
    (hok : GetOk s (make64 key fldid)) :
    ∃ s', get s key fldid = some (s', s.backend key fldid) ∧ Coherent s' ∧
      s'.backend = s.backend := by
  obtain ⟨s', b, hget, hco, hback, hcache⟩ := doget_spec hs hok
  refine ⟨s', ?_, hco, hback⟩
  have hlow : fldid % blockSize < blockSize := Nat.mod_lt _ (by decide)
  have hkey : blockBase (make64 key fldid) / two32 = key := by
    simp only [blockBase, make64, two32, blockSize] at *
    omega
  have hword : blockBase (make64 key fldid) % two32 + fldid % blockSize = fldid := by
    simp only [blockBase, make64, two32, blockSize] at *
    omega
  have hw : (s'.table.blocks b).cache[fldid % blockSize]? = some (s.backend key fldid) := by
    rw [hco.words _ b hcache, hback, backendBlock, Memory.getElem?_read hlow, hkey, hword]
  simp only [get, hget, hw, Option.bind_eq_bind, Option.bind_some, Option.pure_def]

/-! ## Chunks -/

/-- Consecutive pieces that cover the words of a call from `i` to `n`, each within one block. -/
def Tiles (k : Nat) : Nat → List Piece → Nat → Prop
  | i, [], n => i = n
  | i, p :: ps, n => p.addr = k + i ∧ p.idx = i ∧ p.addr % blockSize + p.len ≤ blockSize ∧
      Tiles k (i + p.len) ps n

theorem Tiles.append {k i m n : Nat} {ps qs : List Piece} (hps : Tiles k i ps m)
    (hqs : Tiles k m qs n) : Tiles k i (ps ++ qs) n := by
  induction ps generalizing i with
  | nil =>
      obtain rfl : i = m := hps
      exact hqs
  | cons p ps ih => exact ⟨hps.1, hps.2.1, hps.2.2.1, ih hps.2.2.2⟩

theorem Tiles.le {k i n : Nat} {ps : List Piece} (h : Tiles k i ps n) : i ≤ n := by
  induction ps generalizing i with
  | nil => exact Nat.le_of_eq h
  | cons p ps ih => exact Nat.le_trans (Nat.le_add_right i p.len) (ih h.2.2.2)

theorem tiles_blocks {k i : Nat} (h : (k + i) % blockSize = 0) (n : Nat) :
    Tiles k i ((List.range n).map fun j => ⟨k + i + j * blockSize, i + j * blockSize, blockSize⟩)
      (i + n * blockSize) := by
  induction n with
  | zero => exact (Nat.zero_mul blockSize ▸ rfl : i = i + 0 * blockSize)
  | succ n ih =>
      rw [List.range_succ, List.map_append]
      refine ih.append ⟨?_, rfl, ?_, ?_⟩
      · exact Nat.add_assoc ..
      · simp only [blockSize] at *
        omega
      · rw [Nat.succ_mul]
        exact Nat.add_assoc ..

/-- The pieces of a call cover its words. -/
theorem pieces_spec {k len : Nat} (h : k + len + blockSize ≤ two64) :
    ∃ ps, pieces k len = some ps ∧ Tiles k 0 ps len := by
  obtain ⟨kStart, hstart⟩ : ∃ kStart, kStart = (if k % blockSize ≠ 0 then
      (k / blockSize * blockSize + blockSize) % two64 else k) := ⟨_, rfl⟩
  have hmod : (k + len) % two64 = k + len := Nat.mod_eq_of_lt (by simp only [two64, blockSize] at *; omega)
  have haligned : kStart % blockSize = 0 ∧ k ≤ kStart ∧ kStart < k + blockSize := by
    by_cases hk : k % blockSize = 0
    · rw [if_neg (not_not_intro hk)] at hstart
      simp only [blockSize] at *
      omega
    · rw [if_pos hk] at hstart
      simp only [two64, blockSize] at *
      omega
  obtain ⟨hal, hle, hlt⟩ := haligned
  by_cases hin : kStart < k + len
  · -- the range goes beyond the first block boundary
    obtain ⟨n, hn⟩ : ∃ n, n =
      ((k + len) / blockSize * blockSize - kStart + (blockSize - 1)) / blockSize := ⟨_, rfl⟩
    have hend : kStart + n * blockSize = (k + len) / blockSize * blockSize := by
      rw [hn]
      simp only [blockSize] at *
      omega
    refine ⟨_, ?_, ((?_ : Tiles k 0 (if kStart - k > 0 then [⟨k, 0, kStart - k⟩] else [])
      (kStart - k)).append (tiles_blocks (i := kStart - k) ?_ n)).append
      (?_ : Tiles k _ (if kStart - k + n * blockSize < len then
        [⟨(k + len) / blockSize * blockSize, kStart - k + n * blockSize,
          len - (kStart - k + n * blockSize)⟩] else []) len)⟩
    · simp only [pieces, hmod, ← hstart, if_pos hin, ← hn, show k + (kStart - k) = kStart by omega]
      rw [if_pos (by simp only [blockSize] at *; omega)]
    · split
      · refine ⟨rfl, rfl, ?_, Nat.zero_add _⟩
        simp only [blockSize] at *
        omega
      · exact (by omega : 0 = kStart - k)
    · rw [show k + (kStart - k) = kStart by omega]
      exact hal
    · split
      · refine ⟨by simp only; omega, rfl, ?_, by simp only [Tiles]; omega⟩
        simp only [blockSize] at *
        omega
      · rename_i hnot
        simp only [Tiles, blockSize] at *
        omega
  · -- the range lies within one block
    have hn : ((k + len) / blockSize * blockSize - kStart + (blockSize - 1)) / blockSize = 0 := by
      simp only [blockSize] at *
      omega
    refine ⟨if len > 0 then [⟨k, 0, len⟩] else [], ?_, ?_⟩
    · simp only [pieces, hmod, ← hstart, if_neg hin, hn, List.range_zero, List.map_nil,
        Nat.zero_mul, Nat.add_zero, Nat.lt_irrefl, if_false, List.append_nil]
      rw [if_pos (by simp only [blockSize] at *; omega)]
    · split
      · refine ⟨rfl, rfl, ?_, Nat.zero_add _⟩
        simp only [blockSize] at *
        omega
      · exact (by omega : 0 = len)

theorem pieces_make64 {key fldid len : Nat} (hkey : key < two32) (h : fldid + len ≤ wordLimit) :
    ∃ ps, pieces (make64 key fldid) len = some ps ∧ Tiles (make64 key fldid) 0 ps len := by
  apply pieces_spec
  simp only [make64, wordLimit, two32, two64, blockSize] at *
  omega

/-- The condition on a piece of a chunk write. -/
def PieceOk (buf : List Word) (s : State) (p : Piece) : Prop :=
  PutOk s p.addr ((buf.drop p.idx).take p.len)

theorem run_putPiece {buf : List Word} {key fldid : Nat} (hrange : fldid + buf.length ≤ wordLimit)
    {ps : List Piece} {i : Nat} (hps : Tiles (make64 key fldid) i ps buf.length) {s : State}
    (hs : Coherent s) (hok : Along (putPiece buf) (PieceOk buf) s ps) :
    ∃ s', run (putPiece buf) s ps = some s' ∧ Coherent s' ∧
      s'.backend = s.backend.write key (fldid + i) (buf.drop i) := by
  induction ps generalizing i s with
  | nil =>
      refine ⟨s, rfl, hs, ?_⟩
      rw [show i = buf.length from hps, List.drop_length, Memory.write_nil]
  | cons p ps ih =>
      obtain ⟨haddr, hidx, hfit, hrest⟩ := hps
      have hle := hrest.le
      have hmake : p.addr = make64 key (fldid + i) := haddr.trans (Nat.add_assoc ..)
      have hfld : fldid + i < two32 := Nat.lt_of_le_of_lt (by omega) wordLimit_lt
      have hslice : slice buf p.idx p.len = some ((buf.drop p.idx).take p.len) := by
        rw [slice, if_pos (by omega)]
      have hlen : ((buf.drop p.idx).take p.len).length = p.len := by
        rw [List.length_take, List.length_drop]
        omega
      obtain ⟨s₁, hput, hco, hback⟩ := doput_spec hs (by rw [hlen]; exact hfit) hok.1
      have hstep : putPiece buf s p = some s₁ := by
        rw [putPiece, hslice]
        exact hput
      obtain ⟨s₂, hrun, hco₂, hback₂⟩ := ih hrest hco (hok.2 s₁ hstep)
      refine ⟨s₂, ?_, hco₂, ?_⟩
      · exact run_of_step hstep hrun
      · have hsplit : buf.drop i = (buf.drop i).take p.len ++ buf.drop (i + p.len) := by
          rw [← List.drop_drop, List.take_append_drop]
        rw [hidx] at hback hlen
        rw [hback₂, hback, backendPut, hmake, make64_div hfld, make64_mod hfld, hsplit,
          Memory.write_append, ← hsplit, hlen, Nat.add_assoc]

theorem run_getPiece {key fldid len : Nat} (hrange : fldid + len ≤ wordLimit)
    {ps : List Piece} {i : Nat} (hps : Tiles (make64 key fldid) i ps len) {s : State}
    {buf : List Word} (hs : Coherent s) (hlen : buf.length = len)
    (hfill : s.backend.Filled key fldid i buf)
    (hok : Along getPiece (fun t p => GetOk t.1 p.addr) (s, buf) ps) :
    ∃ s', run getPiece (s, buf) ps = some (s', s.backend.read key fldid len) ∧ Coherent s' ∧
      s'.backend = s.backend := by
  induction ps generalizing i s buf with
  | nil =>
      obtain rfl : i = len := hps
      refine ⟨s, ?_, hs, rfl⟩
      rw [run_nil, ← Memory.eq_read hlen hfill]
  | cons p ps ih =>
      obtain ⟨haddr, hidx, hfit, hrest⟩ := hps
      have hle := hrest.le
      have hmake : p.addr = make64 key (fldid + i) := haddr.trans (Nat.add_assoc ..)
      have hfld : fldid + i < two32 := Nat.lt_of_le_of_lt (by omega) wordLimit_lt
      obtain ⟨s₁, hget, hco, hback⟩ := getblockdata_spec hs hok.1 hfit
      rw [hmake, make64_div hfld, make64_mod hfld, ← hmake] at hget
      obtain ⟨buf₁, hcopy, hlen₁, hfill₁⟩ := hfill.extend p.len (by omega)
      have hstep : getPiece (s, buf) p = some (s₁, buf₁) := by
        simp only [getPiece, hget, hidx, hcopy, Option.bind_eq_bind, Option.bind_some, Option.pure_def]
      rw [← hback] at hfill₁ ⊢
      obtain ⟨s₂, hrun, hco₂, hback₂⟩ := ih hrest hco (hlen₁.trans hlen) hfill₁ (hok.2 _ hstep)
      exact ⟨s₂, run_of_step hstep hrun, hco₂, hback₂⟩

/-- The condition on a chunk write: it holds of every piece when its turn comes. -/
def PutchunkOk (s : State) (key fldid : Nat) (buf : List Word) : Prop :=
  ∀ ps, pieces (make64 key fldid) buf.length = some ps → Along (putPiece buf) (PieceOk buf) s ps

/-- The condition on a chunk read. -/
def GetchunkOk (s : State) (key fldid len : Nat) (buf : List Word) : Prop :=
  ∀ ps, pieces (make64 key fldid) len = some ps →
    Along getPiece (fun t p => GetOk t.1 p.addr) (s, buf) ps

theorem putchunk_spec {s : State} (hs : Coherent s) {key fldid : Nat} {buf : List Word}
    (hkey : key < two32) (hrange : fldid + buf.length ≤ wordLimit)
    (hok : PutchunkOk s key fldid buf) :
    ∃ s', putchunk s key fldid buf = some s' ∧ Coherent s' ∧
      s'.backend = s.backend.write key fldid buf := by
  obtain ⟨ps, hps, htiles⟩ := pieces_make64 hkey hrange
  obtain ⟨s', hrun, hco, hback⟩ := run_putPiece hrange htiles hs (hok ps hps)
  refine ⟨s', ?_, hco, hback⟩
  rw [putchunk, hps]
  exact hrun

theorem getchunk_spec {s : State} (hs : Coherent s) {key fldid len : Nat} {buf : List Word}
    (hkey : key < two32) (hrange : fldid + len ≤ wordLimit) (hlen : buf.length = len)
    (hok : GetchunkOk s key fldid len buf) :
    ∃ s', getchunk s key fldid len buf = some (s', s.backend.read key fldid len) ∧ Coherent s' ∧
      s'.backend = s.backend := by
  obtain ⟨ps, hps, htiles⟩ := pieces_make64 hkey hrange
  obtain ⟨s', hrun, hco, hback⟩ := run_getPiece hrange htiles hs hlen
    (fun x hx => absurd hx (Nat.not_lt_zero x)) (hok ps hps)
  refine ⟨s', ?_, hco, hback⟩
  rw [getchunk, hps]
  exact hrun

/-! ## Calls -/

/-- The calls that a cache offers. -/
def Offered : Call → Prop
  | .getblock _ _ _ => False
  | _ => True

/-- The condition on a call. -/
def CallOk (s : State) : Call → Prop
  | .put key fldid v => PutOk s (make64 key fldid) [v]
  | .put64 key fldid v => PutchunkOk s key fldid (words64 v)
  | .putchunk key fldid buf => PutchunkOk s key fldid buf
  | .putchunk64 key fldid buf => PutchunkOk s key fldid (buf.flatMap words64)
  | .get key fldid => GetOk s (make64 key fldid)
  | .getchunk key fldid len buf => GetchunkOk s key fldid len buf
  | .getchunk64 key fldid len buf => GetchunkOk s key fldid (len * 2) buf
  | .getblock _ _ _ => True

theorem call_spec {s : State} (hs : Coherent s) {c : Call} (hc : c.InRange) (hoff : Offered c)
    (hok : CallOk s c) :
    ∃ s', call s c = some (s', (c.flat s.backend).1) ∧ Coherent s' ∧
      s'.backend = (c.flat s.backend).2 := by
  cases c with
  | put key fldid v =>
      have hfld : fldid < two32 := Nat.lt_of_le_of_lt (Nat.le_of_succ_le hc.2) wordLimit_lt
      have hfit : make64 key fldid % blockSize + [v].length ≤ blockSize :=
        Nat.mod_lt (make64 key fldid) (show 0 < blockSize by decide)
      obtain ⟨s', hput, hco, hback⟩ := doput_spec hs hfit hok
      rw [backendPut, make64_div hfld, make64_mod hfld] at hback
      exact ⟨s', by rw [call, hput]; rfl, hco, hback⟩
  | put64 key fldid v =>
      have hrange : fldid + (words64 v).length ≤ wordLimit := hc.2
      obtain ⟨s', hput, hco, hback⟩ := putchunk_spec hs hc.1 hrange hok
      exact ⟨s', by rw [call, hput]; rfl, hco, hback⟩
  | putchunk key fldid buf =>
      obtain ⟨s', hput, hco, hback⟩ := putchunk_spec hs hc.1 hc.2 hok
      exact ⟨s', by rw [call, hput]; rfl, hco, hback⟩
  | putchunk64 key fldid buf =>
      have hrange := hc.2
      rw [← length_flatMap_words64] at hrange
      obtain ⟨s', hput, hco, hback⟩ := putchunk_spec hs hc.1 hrange hok
      exact ⟨s', by rw [call, take_words64 (lt_two32_of_range hc.2), hput]; rfl, hco, hback⟩
  | get key fldid =>
      have hfld : fldid < two32 := Nat.lt_of_le_of_lt (Nat.le_of_succ_le hc.2) wordLimit_lt
      obtain ⟨s', hget, hco, hback⟩ := get_spec hs hfld hok
      exact ⟨s', by rw [call, hget]; rfl, hco, hback⟩
  | getchunk key fldid len buf =>
      obtain ⟨s', hget, hco, hback⟩ := getchunk_spec hs hc.1 hc.2.1 hc.2.2 hok
      exact ⟨s', hget, hco, hback⟩
  | getchunk64 key fldid len buf =>
      obtain ⟨s', hget, hco, hback⟩ := getchunk_spec hs hc.1 hc.2.1 hc.2.2 hok
      refine ⟨s', ?_, hco, hback⟩
      rw [call, Nat.mod_eq_of_lt (lt_two32_of_range hc.2.1)]
      exact hget
  | getblock key fldid buf => exact hoff.elim

/-- The condition on the calls of a sequence, each in the state it meets. -/
def ServeOk : State → List Call → Prop :=
  Along (fun s c => (call s c).map Prod.fst) CallOk

theorem serve_spec {calls : List Call} (hrange : ∀ c ∈ calls, c.InRange ∧ Offered c) {s : State}
    (hs : Coherent s) (hok : ServeOk s calls) :
    ∃ s', serve s calls = some (s', (flatRun calls s.backend).1) ∧ Coherent s' ∧
      s'.backend = (flatRun calls s.backend).2 := by
  induction calls generalizing s with
  | nil => exact ⟨s, rfl, hs, rfl⟩
  | cons c rest ih =>
      obtain ⟨hc, hoff⟩ := hrange c (by simp)
      obtain ⟨s₁, hcall, hco, hback⟩ := call_spec hs hc hoff hok.1
      obtain ⟨s₂, hserve, hco₂, hback₂⟩ := ih (fun c h => hrange c (by simp [h])) hco
        (hok.2 s₁ (by simp only [hcall, Option.map_some]))
      refine ⟨s₂, ?_, hco₂, ?_⟩
      · simp only [serve, hcall, hserve, hback, flatRun, Option.bind_eq_bind, Option.bind_some,
          Option.pure_def]
      · rw [hback₂, hback]
        rfl

/-- A sequence of calls that meet the condition returns what the calls return
without a cache and leaves the same words in the backend. -/
theorem cache_transparent (junk : Fin cacheSize → CacheBlock) (m : Memory) (calls : List Call)
    (hrange : ∀ c ∈ calls, c.InRange ∧ Offered c) (hok : ServeOk (start junk m) calls) :
    ∃ s, serve (start junk m) calls = some (s, (flatRun calls m).1) ∧
      s.backend = (flatRun calls m).2 := by
  obtain ⟨s, hserve, -, hback⟩ := serve_spec hrange (coherent_start junk m) hok
  exact ⟨s, hserve, hback⟩


/-- Blocks as the allocator may leave them. -/
def zeroBlocks : Fin cacheSize → CacheBlock := fun _ => ⟨List.replicate blockSize 0, 0, 0⟩

theorem cache_transparent_hit :
    ∃ s, serve (start zeroBlocks Memory.empty)
        [.put 1 0 7, .putchunk 1 0 [8, 9], .getchunk 1 0 2 [0, 0]] = some (s, [[], [], [8, 9]]) ∧
      s.backend = (Memory.empty.write 1 0 [7]).write 1 0 [8, 9] := by
  have hfirst : ∀ t, (call (start zeroBlocks Memory.empty) (.put 1 0 7)).map Prod.fst = some t →
      (lookup t (2 ^ 32)).isSome := by
    intro t ht
    have hrun : (((call (start zeroBlocks Memory.empty) (.put 1 0 7)).map Prod.fst).bind
        (lookup · (2 ^ 32))).isSome := by decide +kernel
    rwa [ht] at hrun
  have hsecond : ∀ t u, (call (start zeroBlocks Memory.empty) (.put 1 0 7)).map Prod.fst = some t →
      (call t (.putchunk 1 0 [8, 9])).map Prod.fst = some u → (lookup u (2 ^ 32)).isSome := by
    intro t u ht hu
    have hrun : ((((call (start zeroBlocks Memory.empty) (.put 1 0 7)).map Prod.fst).bind fun t =>
        (call t (.putchunk 1 0 [8, 9])).map Prod.fst).bind (lookup · (2 ^ 32))).isSome := by
      decide +kernel
    rwa [ht, Option.bind_some, hu] at hrun
  have hpieces : pieces (make64 1 0) 2 = some [⟨2 ^ 32, 0, 2⟩] := by decide +kernel
  have hhit : ∀ t, (lookup t (2 ^ 32)).isSome → lookup t (blockBase (2 ^ 32)) ≠ none := by
    intro t ht hnone
    rw [show blockBase (2 ^ 32) = 2 ^ 32 from rfl] at hnone
    rw [hnone] at ht
    cases ht
  refine cache_transparent zeroBlocks Memory.empty
    [.put 1 0 7, .putchunk 1 0 [8, 9], .getchunk 1 0 2 [0, 0]] ?_
    ⟨?_, fun t ht => ⟨?_, fun u hu => ⟨?_, fun _ _ => trivial⟩⟩⟩
  · simp [Call.InRange, Offered, wordLimit, two32, blockSize]
  · intro _
    refine ⟨fun hq => ?_, fun i h h' => ?_⟩
    · rw [start_queue] at hq
      exact absurd (congrArg List.length hq) (by rw [List.length_finRange]; decide)
    · exact absurd h' (Nat.not_lt_of_le h)
  · intro ps hps
    obtain rfl := Option.some.inj (hps.symm.trans hpieces)
    exact ⟨fun hmiss => absurd hmiss (hhit t (hfirst t ht)), fun _ _ => trivial⟩
  · intro ps hps
    obtain rfl := Option.some.inj (hps.symm.trans hpieces)
    exact ⟨fun hmiss => absurd hmiss (hhit u (hsecond t u ht hu)), fun _ _ => trivial⟩

theorem second_word_lost :
    (∀ c ∈ [Call.putchunk 1 0 [5, 6], .get 1 1], c.InRange ∧ Offered c) ∧
      (serve (start zeroBlocks Memory.empty) [.putchunk 1 0 [5, 6], .get 1 1]).map Prod.snd =
        some [[], [0]] ∧
      ¬∃ s, serve (start zeroBlocks Memory.empty) [.putchunk 1 0 [5, 6], .get 1 1] =
        some (s, (flatRun [.putchunk 1 0 [5, 6], .get 1 1] Memory.empty).1) := by
  have hrun : (serve (start zeroBlocks Memory.empty) [.putchunk 1 0 [5, 6], .get 1 1]).map Prod.snd =
      some [[], [0]] := by decide +kernel
  refine ⟨?_, hrun, ?_⟩
  · simp [Call.InRange, Offered, wordLimit, two32, blockSize]
  · rintro ⟨s, hs⟩
    rw [hs] at hrun
    have hread : (flatRun [.putchunk 1 0 [5, 6], .get 1 1] Memory.empty).1 = [[], [0]] :=
      Option.some.inj hrun
    exact absurd hread (by decide)

end Dogee.DirectoryCache
