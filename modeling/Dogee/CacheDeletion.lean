import Dogee.CacheThreads
import Dogee.DirectoryCacheFlat
import Dogee.Checkpoint

/-!
# Caches and deleted objects

Any number of nodes call the cache one after the other, and all messages of a call have arrived before
the next one. `AllocObjectId`, `DelObj` and `DelArray` go to the backend, past the caches: a block of
a deleted object stays in the caches and in the directory, and is still there when the key is used again.

A call that stops at an assertion or that waits for ever is `none`. Since no two calls overlap, every
lock that a call asks for is free, except one that has never been released: on POSIX `ServerRenew`
takes the lock of its block, takes the zero of `pthread_rwlock_tryrdlock` for a failure, and leaves.
-/

namespace Dogee.CacheDeletion

open Transition
open Checkpoint (Dsm)
open CacheThreads (TableInv SameKeys)
open DirectoryCache (backendPut backendBlock)

inductive Platform
  | windows
  | posix
deriving DecidableEq

inductive BackendType
  | chunkMemcached
  | memcached

/-- A cluster; the entries of the directory have 64 bits. -/
structure Config where
  caches : Nat
  pos : 0 < caches
  small : caches ≤ 64
  platform : Platform
  backend : BackendType

/-- The home of a block, `(addr >> DSM_CACHE_BITS) % caches`. -/
def Config.home (cfg : Config) (addr : Nat) : Nat := addr / blockSize % cfg.caches

/-- The cache of a node: its table, the clock of `CacheClock`, and the blocks whose lock has never been
released. -/
structure Node where
  table : CacheTable
  clock : Nat
  held : Fin cacheSize → Bool

/-- The caches, the entries of the directory, each at the home of its block, and the backend. -/
structure State (cfg : Config) where
  node : Fin cfg.caches → Node
  directory : Nat → Fin cfg.caches → Bool
  backend : Dsm

/-! ## The backend -/

/-- How many words `del` deletes of an object of a size. -/
def BackendType.span : BackendType → Nat → Nat
  | .chunkMemcached, size =>
      (if size % blockSize = 0 then size / blockSize else size / blockSize + 1) * blockSize
  | .memcached, size => size

/-- `del`; `getinfo` leaves the size alone when there is no such object. -/
def del (ty : BackendType) (junk : Word) (d : Dsm) (key : ObjectKey) : Dsm :=
  let size := ((d.info key).map Prod.snd).getD junk
  ⟨fun o w => if o = key ∧ w < ty.span size.toNat then 0 else d.words o w, Function.update d.info key none⟩

/-- `newobj` of `AllocObjectId`, which tries another key when there is an object already. -/
def alloc (d : Dsm) (key : ObjectKey) (flag size : Word) : Option Dsm :=
  if (d.info key).isSome then none else some (d.newobj key flag size)

/-- `putchunk` -/
def putWords (d : Dsm) (addr : Nat) (v : List Word) : Dsm := { d with words := backendPut d.words addr v }

/-- A word of an object that exists. -/
def Live (d : Dsm) (key : ObjectKey) (w : Nat) : Prop :=
  ∃ flag size, d.info key = some (flag, size) ∧ w < size.toNat

/-! ## The server functions -/

/-- `memcpy` into a block. -/
def memcpy (words : List Word) (off : Nat) (v : List Word) : List Word := (copyWords words off v).getD words

def Node.patch (nd : Node) (b : Fin cacheSize) (addr : Nat) (v : List Word) : Node :=
  { nd with table := nd.table.modify b fun blk => { blk with cache := memcpy blk.cache (addr % blockSize) v } }

def serverRenew (platform : Platform) (addr : Nat) (v : List Word) (nd : Node) : Node :=
  match nd.table.cache (blockBase addr) with
  | none => nd
  | some b =>
      match platform with
      | .windows => if (nd.table.blocks b).key = blockBase addr then nd.patch b addr v else nd
      | .posix => { nd with held := Function.update nd.held b true }

variable {cfg : Config}

namespace State

def setNode (s : State cfg) (n : Fin cfg.caches) (nd : Node) : State cfg :=
  { s with node := Function.update s.node n nd }

def setBit (s : State cfg) (baddr : Nat) (n : Fin cfg.caches) (bit : Bool) : State cfg :=
  { s with directory := Function.update s.directory baddr (Function.update (s.directory baddr) n bit) }

/-- The nodes whose bit is set in the entry `old`, the writer left out, renew their blocks. -/
def renewOthers (s : State cfg) (old : Fin cfg.caches → Bool) (src : Fin cfg.caches) (addr : Nat)
    (v : List Word) : State cfg :=
  { s with node := fun i => if old i ∧ i ≠ src then serverRenew cfg.platform addr v (s.node i) else s.node i }

def serverWrite (s : State cfg) (addr : Nat) (src : Fin cfg.caches) (v : List Word) : State cfg :=
  let s := { s with backend := putWords s.backend addr v }
  s.renewOthers (s.directory (blockBase addr)) src addr v

def serverWriteMiss (s : State cfg) (addr : Nat) (src : Fin cfg.caches) (v : List Word) :
    State cfg × List Word :=
  let s := { s with backend := putWords s.backend addr v }
  let old := s.directory (blockBase addr)
  let s := (s.setBit (blockBase addr) src true).renewOthers old src addr v
  (s, backendBlock s.backend.words (blockBase addr))

def serverReadMiss (s : State cfg) (addr : Nat) (src : Fin cfg.caches) : State cfg × List Word :=
  (s.setBit addr src true, backendBlock s.backend.words addr)

def serverWriteback (s : State cfg) (addr : Nat) (src : Fin cfg.caches) : State cfg :=
  s.setBit addr src false

end State

/-! ## The cache -/

def Node.stamp (nd : Node) (b : Fin cacheSize) : Node :=
  { nd with
    table := nd.table.modify b fun blk => { blk with lru := nd.clock }
    clock := (nd.clock + 1) % two32 }

/-- The block of the address `k` if it is in the cache. -/
def Node.lookup (nd : Node) (k : Nat) : Option (Fin cacheSize) :=
  (nd.table.cache k).filter fun b => (nd.table.blocks b).key = k

/-- The miss functions of the protocol put the block and its key in place. -/
def Node.fill (nd : Node) (b : Fin cacheSize) (key : Nat) (words : List Word) : Node :=
  { nd with table := nd.table.modify b fun blk => { blk with cache := words, key := key } }

namespace State

variable (s : State cfg) (n : Fin cfg.caches)

/-- A block for the address `k`, and whether another request for it is pending. -/
def getblock (k : Nat) : Option (State cfg × Fin cacheSize × Bool) :=
  match (s.node n).table.cache k, (s.node n).table.queue with
  | some b, _ => some (s, b, true)
  | none, b :: rest =>
      some (s.setNode n { s.node n with table := (s.node n).table.takeFree b rest k }, b, false)
  | none, [] => do
      let mini ← CacheTable.victim (s.node n).table.blocks
      -- the lock of the block is taken for writing
      if (s.node n).held mini then none
      else
        let oldkey := ((s.node n).table.blocks mini).key
        let s := s.setNode n { s.node n with table := (s.node n).table.swapOut mini k }
        return (s.serverWriteback oldkey n, mini, false)

def putHit (b : Fin cacheSize) (addr : Nat) (v : List Word) : State cfg :=
  (s.setNode n (((s.node n).stamp b).patch b addr v)).serverWrite addr n v

/-- At its own node the protocol hands on one word of a write miss. -/
def writeMiss (addr : Nat) (v : List Word) (b : Fin cacheSize) : State cfg :=
  let (s, words) := s.serverWriteMiss addr n (if cfg.home addr = n then v.take 1 else v)
  s.setNode n ((s.node n).fill b (blockBase addr) words)

def readMiss (addr : Nat) (b : Fin cacheSize) : State cfg :=
  let (s, words) := s.serverReadMiss addr n
  s.setNode n ((s.node n).fill b addr words)

def doput (addr : Nat) (v : List Word) : Option (State cfg) :=
  match (s.node n).lookup (blockBase addr) with
  | some b => some (s.putHit n b addr v)
  | none => do
      let (s, b, isPending) ← s.getblock n (blockBase addr)
      if isPending then
        -- nobody finishes a pending request
        if ((s.node n).table.blocks b).key = blockBase addr then some (s.putHit n b addr v) else none
      else
        let s := s.writeMiss n addr v b
        return s.setNode n ((s.node n).stamp b)

/-- The state after `doget` and the block that it passes to `func`. -/
def doget (addr : Nat) : Option (State cfg × Fin cacheSize) :=
  match (s.node n).lookup (blockBase addr) with
  | some b => some (s.setNode n ((s.node n).stamp b), b)
  | none => do
      let (s, b, isPending) ← s.getblock n (blockBase addr)
      if isPending then
        if ((s.node n).table.blocks b).key = blockBase addr then some (s.setNode n ((s.node n).stamp b), b)
        else none
      else
        let s := s.readMiss n (blockBase addr) b
        return (s.setNode n ((s.node n).stamp b), b)

def get (key : ObjectKey) (fldid : Nat) : Option (State cfg × Word) := do
  let (s, b) ← s.doget n (make64 key fldid)
  let w ← ((s.node n).table.blocks b).cache[fldid % blockSize]?
  return (s, w)

end State

/-! ## The calls of a program -/

/-- Words of one block; `put` and `putchunk` write such pieces one after the other. -/
structure Piece where
  key : ObjectKey
  fldid : Nat
  words : List Word
  lt : fldid < two32
  fits : fldid % blockSize + words.length ≤ blockSize

def Piece.addr (p : Piece) : Nat := make64 p.key p.fldid

/-- The calls, each by a node. The key of an allocation is one that `AllocObjectId` has drawn. -/
inductive Op (cfg : Config)
  | put (n : Fin cfg.caches) (p : Piece)
  | get (n : Fin cfg.caches) (key : ObjectKey) (fldid : Nat)
  | alloc (n : Fin cfg.caches) (key : ObjectKey) (flag size : Word)
  | del (n : Fin cfg.caches) (key : ObjectKey) (junk : Word)

def step (s : State cfg) : Op cfg → Option (State cfg)
  | .put n p => s.doput n p.addr p.words
  | .get n key fldid => (s.get n key fldid).map Prod.fst
  | .alloc _ key flag size => (alloc s.backend key flag size).map fun d => { s with backend := d }
  | .del _ key junk => some { s with backend := del cfg.backend junk s.backend key }

/-- The same calls through `DSMNoCache`, which passes them on to the backend. -/
def noCacheStep (d : Dsm) : Op cfg → Option Dsm
  | .put _ p => some (putWords d p.addr p.words)
  | .get _ _ _ => some d
  | .alloc _ key flag size => alloc d key flag size
  | .del _ key junk => some (del cfg.backend junk d key)

/-- New caches over a backend. -/
def start (cfg : Config) (junk : Fin cfg.caches → Fin cacheSize → CacheBlock) (d : Dsm) : State cfg where
  node n := ⟨CacheTable.fresh (junk n), 0, fun _ => false⟩
  directory _ _ := false
  backend := d

/-! ## What a table holds -/

/-- The words that a table holds for the address of a block. -/
def view (t : CacheTable) (k : Nat) : Option (List Word) := (t.cache k).map fun b => (t.blocks b).cache

/-- Between calls every address in the hash table has a block with its key. -/
structure TableOk (t : CacheTable) : Prop where
  inv : TableInv t
  key_eq : ∀ k b, t.cache k = some b → (t.blocks b).key = k
  aligned : ∀ k b, t.cache k = some b → k % blockSize = 0

section Table

variable {t : CacheTable} {k : Nat} {b : Fin cacheSize}

theorem tableOk_fresh (junk : Fin cacheSize → CacheBlock) : TableOk (CacheTable.fresh junk) where
  inv := CacheThreads.tableInv_fresh junk
  key_eq k b h := by cases h
  aligned k b h := by cases h

theorem TableOk.modify (h : TableOk t) (b : Fin cacheSize) (f : CacheBlock → CacheBlock)
    (hf : ∀ blk, (f blk).key = blk.key) : TableOk (t.modify b f) := by
  have hsame : SameKeys t (t.modify b f) := CacheThreads.sameKeys_modify hf
  constructor
  · exact h.inv.congr hsame
  · intro k b' hb'
    rw [hsame.key]
    exact h.key_eq k b' hb'
  · exact h.aligned

theorem view_modify (f : CacheBlock → CacheBlock) (k : Nat) :
    view (t.modify b f) k = if t.cache k = some b then some (f (t.blocks b)).cache else view t k := by
  show (t.cache k).map (fun b' => (Function.update t.blocks b (f (t.blocks b)) b').cache) = _
  cases hk : t.cache k with
  | none => simp [view, hk]
  | some b' =>
      rcases eq_or_ne b' b with rfl | hb
      · simp
      · simp [view, hk, hb]

/-- The stamp is not part of the view. -/
theorem view_modify_lru (lru k : Nat) : view (t.modify b fun blk => { blk with lru := lru }) k = view t k := by
  rw [view_modify]
  split
  · rename_i hk
    rw [view, hk]
    rfl
  · rfl

theorem TableOk.cache_iff (h : TableOk t) (hb : t.cache k = some b) (k' : Nat) :
    t.cache k' = some b ↔ k' = k := by
  constructor
  · intro hb'
    exact h.inv.inj k' k b hb' hb
  · rintro rfl
    exact hb

/-- A free block is taken and filled. -/
theorem TableOk.fill_free (h : TableOk t) (hk : k % blockSize = 0) (hmiss : t.cache k = none)
    {rest : List (Fin cacheSize)} (hqueue : t.queue = b :: rest) (words : List Word) :
    TableOk ((t.takeFree b rest k).modify b fun blk => { blk with cache := words, key := k }) ∧
      ∀ k', view ((t.takeFree b rest k).modify b fun blk => { blk with cache := words, key := k }) k' =
        if k' = k then some words else view t k' := by
  have hinv := h.inv.takeFree hqueue hmiss
  have hself : (t.takeFree b rest k).cache k = some b := Function.update_self ..
  have hother : ∀ k', k' ≠ k → (t.takeFree b rest k).cache k' = t.cache k' := fun k' hne =>
    Function.update_of_ne hne ..
  have hnot : ∀ k', t.cache k' ≠ some b := (h.inv.free b (hqueue ▸ List.mem_cons_self)).2
  constructor
  · constructor
    · exact hinv.fill hself fun _ => rfl
    · intro k' b' hb'
      change (t.takeFree b rest k).cache k' = some b' at hb'
      rcases eq_or_ne k' k with rfl | hne
      · rw [hself] at hb'
        obtain rfl := Option.some.inj hb'
        rw [DirectoryCache.modify_self]
      · rw [hother k' hne] at hb'
        rw [DirectoryCache.modify_of_ne]
        · exact h.key_eq k' b' hb'
        · rintro rfl
          exact hnot k' hb'
    · intro k' b' hb'
      change (t.takeFree b rest k).cache k' = some b' at hb'
      rcases eq_or_ne k' k with rfl | hne
      · exact hk
      · rw [hother k' hne] at hb'
        exact h.aligned k' b' hb'
  · intro k'
    rw [view_modify]
    rcases eq_or_ne k' k with rfl | hne
    · rw [if_pos hself, if_pos rfl]
    · rw [hother k' hne, if_neg (hnot k'), if_neg hne]
      show ((t.takeFree b rest k).cache k').map _ = _
      rw [hother k' hne]
      rfl

/-- A block is swapped out and filled. -/
theorem TableOk.fill_victim (h : TableOk t) (hk : k % blockSize = 0) (hmiss : t.cache k = none)
    (hb : (t.blocks b).key ≠ badKey) (words : List Word) :
    TableOk ((t.swapOut b k).modify b fun blk => { blk with cache := words, key := k }) ∧
      ∀ k', view ((t.swapOut b k).modify b fun blk => { blk with cache := words, key := k }) k' =
        if k' = k then some words else if k' = (t.blocks b).key then none else view t k' := by
  have hinv := h.inv.swapOut hb hmiss
  have hcache : ∀ k' b', (t.swapOut b k).cache k' = some b' ↔
      k' = k ∧ b' = b ∨ t.cache k' = some b' ∧ b' ≠ b := fun _ _ =>
    CacheThreads.swapOut_cache h.inv hb hmiss
  have hself : (t.swapOut b k).cache k = some b := (hcache k b).mpr (Or.inl ⟨rfl, rfl⟩)
  constructor
  · constructor
    · exact hinv.fill hself fun _ => rfl
    · intro k' b' hb'
      change (t.swapOut b k).cache k' = some b' at hb'
      rcases (hcache k' b').mp hb' with ⟨rfl, rfl⟩ | ⟨hold, hne⟩
      · rw [DirectoryCache.modify_self]
      · rw [DirectoryCache.modify_of_ne _ hne, CacheThreads.swapOut_blocks b' hne]
        exact h.key_eq k' b' hold
    · intro k' b' hb'
      change (t.swapOut b k).cache k' = some b' at hb'
      rcases (hcache k' b').mp hb' with ⟨rfl, -⟩ | ⟨hold, -⟩
      · exact hk
      · exact h.aligned k' b' hold
  · intro k'
    rw [view_modify]
    rcases eq_or_ne k' k with rfl | hne
    · rw [if_pos hself, if_pos rfl]
    · have hold := h.inv.key b hb
      have hnot : (t.swapOut b k).cache k' ≠ some b := by
        intro hb'
        rcases (hcache k' b).mp hb' with ⟨heq, -⟩ | ⟨-, hself⟩
        · exact hne heq
        · exact hself rfl
      rw [if_neg hnot, if_neg hne]
      show ((Function.update (Function.update t.cache (t.blocks b).key none) k (some b)) k').map _ = _
      rw [Function.update_of_ne hne]
      rcases eq_or_ne k' (t.blocks b).key with rfl | hkey
      · rw [Function.update_self, if_pos rfl]
        rfl
      · rw [Function.update_of_ne hkey, if_neg hkey, view]
        cases hk' : t.cache k' with
        | none => rfl
        | some b' =>
            have hbb : b' ≠ b := by
              rintro rfl
              exact hkey (h.key_eq k' b' hk').symm
            exact congrArg some (congrArg CacheBlock.cache (CacheThreads.swapOut_blocks b' hbb))

end Table

/-! ## Blocks against the backend -/

/-- The words of a block are those of the backend as far as objects exist there. -/
structure Fresh (d : Dsm) (k : Nat) (ws : List Word) : Prop where
  length : ws.length = blockSize
  words : ∀ i < blockSize, Live d (k / two32) (k % two32 + i) →
    ws[i]? = some (d.words (k / two32) (k % two32 + i))

section Fresh

variable {d d' : Dsm} {k addr : Nat} {ws v : List Word}

theorem fresh_backendBlock (d : Dsm) (k : Nat) : Fresh d k (backendBlock d.words k) where
  length := Memory.length_read ..
  words _ hi _ := Memory.getElem?_read hi

theorem memcpy_spec (hfit : addr % blockSize + v.length ≤ blockSize) (hlength : ws.length = blockSize) :
    (memcpy ws (addr % blockSize) v).length = blockSize ∧
      ∀ i, (memcpy ws (addr % blockSize) v)[i]? =
        if addr % blockSize ≤ i ∧ i < addr % blockSize + v.length then v[i - addr % blockSize]? else ws[i]? := by
  obtain ⟨words, hcopy, hlen, hget⟩ := copyWords_spec ws (addr % blockSize) v (by omega)
  rw [memcpy, hcopy, Option.getD_some]
  exact ⟨hlen.trans hlength, hget⟩

/-- Where the words of a block lie in the backend. -/
theorem blockBase_split (addr : Nat) : blockBase addr / two32 = addr / two32 ∧
    blockBase addr % two32 + addr % blockSize = addr % two32 := by
  simp only [blockBase, two32, blockSize]
  omega

/-- A write to the backend that is made to the block as well. -/
theorem Fresh.memcpy (h : Fresh d (blockBase addr) ws) (hfit : addr % blockSize + v.length ≤ blockSize) :
    Fresh (putWords d addr v) (blockBase addr) (memcpy ws (addr % blockSize) v) := by
  obtain ⟨hlength, hget⟩ := memcpy_spec hfit h.length
  obtain ⟨hkey, hfld⟩ := blockBase_split addr
  refine ⟨hlength, fun i hi hlive => ?_⟩
  have hword : (putWords d addr v).words (blockBase addr / two32) (blockBase addr % two32 + i) =
      if addr % blockSize ≤ i ∧ i < addr % blockSize + v.length then v.getD (i - addr % blockSize) 0
      else d.words (blockBase addr / two32) (blockBase addr % two32 + i) := by
    show Memory.write _ _ _ _ _ _ = _
    rw [Memory.write]
    by_cases hin : addr % blockSize ≤ i ∧ i < addr % blockSize + v.length
    · rw [if_pos hin, if_pos ⟨hkey, by omega, by omega⟩]
      congr 1
      omega
    · rw [if_neg hin, if_neg (by omega)]
  rw [hget, hword]
  split
  · rename_i hin
    have hlt : i - addr % blockSize < v.length := by omega
    rw [List.getD_eq_getElem?_getD, List.getElem?_eq_getElem hlt]
    rfl
  · exact h.words i hi hlive

/-- A write to another block. -/
theorem Fresh.put_other (h : Fresh d k ws) (hfit : addr % blockSize + v.length ≤ blockSize)
    (hk : k % blockSize = 0) (hne : k ≠ blockBase addr) : Fresh (putWords d addr v) k ws := by
  refine ⟨h.length, fun i hi hlive => ?_⟩
  have hword : (putWords d addr v).words (k / two32) (k % two32 + i) =
      d.words (k / two32) (k % two32 + i) := by
    show Memory.write _ _ _ _ _ _ = _
    rw [Memory.write, if_neg]
    rintro ⟨hkey, hlow, hhigh⟩
    apply hne
    simp only [blockBase, two32, blockSize] at *
    omega
  rw [hword]
  exact h.words i hi hlive

/-- The blocks stay as they are when the words of existing objects do. -/
theorem Fresh.congr (h : Fresh d k ws)
    (hlive : ∀ w, Live d' (k / two32) w → Live d (k / two32) w ∧ d'.words (k / two32) w = d.words (k / two32) w) :
    Fresh d' k ws := by
  refine ⟨h.length, fun i hi hnow => ?_⟩
  obtain ⟨hbefore, hword⟩ := hlive _ hnow
  rw [hword]
  exact h.words i hi hbefore

end Fresh

/-! ## The invariant between calls -/

def State.view (s : State cfg) (n : Fin cfg.caches) (k : Nat) : Option (List Word) :=
  CacheDeletion.view (s.node n).table k

/-- Between calls the tables are in order, the directory has a bit for every block in a cache, and the
blocks hold the words of the objects that exist. -/
structure Inv (s : State cfg) : Prop where
  table : ∀ n, TableOk (s.node n).table
  covered : ∀ n k ws, s.view n k = some ws → s.directory k n = true
  fresh : ∀ n k ws, s.view n k = some ws → Fresh s.backend k ws

theorem inv_start (cfg : Config) (junk : Fin cfg.caches → Fin cacheSize → CacheBlock) (d : Dsm) :
    Inv (start cfg junk d) where
  table n := tableOk_fresh (junk n)
  covered n k ws h := by cases h
  fresh n k ws h := by cases h

/-! ## Writes -/

section Nodes

variable {nd : Node} {addr : Nat} {v : List Word} {b : Fin cacheSize}

theorem tableOk_stamp (h : TableOk nd.table) (b : Fin cacheSize) : TableOk (nd.stamp b).table := by
  have hmodify := h.modify b (fun blk => { blk with lru := nd.clock }) fun _ => rfl
  exact hmodify

theorem view_stamp (nd : Node) (b : Fin cacheSize) (k : Nat) : view (nd.stamp b).table k = view nd.table k :=
  view_modify_lru ..

theorem tableOk_patch (h : TableOk nd.table) (b : Fin cacheSize) : TableOk (nd.patch b addr v).table := by
  have hmodify := h.modify b
    (fun blk => { blk with cache := memcpy blk.cache (addr % blockSize) v }) fun _ => rfl
  exact hmodify

theorem view_patch (h : TableOk nd.table) (hb : nd.table.cache (blockBase addr) = some b) (k : Nat) :
    view (nd.patch b addr v).table k =
      if k = blockBase addr then (view nd.table k).map fun ws => memcpy ws (addr % blockSize) v
      else view nd.table k := by
  rw [Node.patch, view_modify]
  simp only [h.cache_iff hb]
  split
  · rename_i hk
    rw [hk, view, hb]
    rfl
  · rfl

/-- On Windows a renew patches the block if it is in the cache. -/
theorem serverRenew_windows (addr : Nat) (v : List Word) (h : TableOk nd.table) :
    TableOk (serverRenew .windows addr v nd).table ∧
      ∀ k, view (serverRenew .windows addr v nd).table k =
        if k = blockBase addr then (view nd.table k).map fun ws => memcpy ws (addr % blockSize) v
        else view nd.table k := by
  cases hb : nd.table.cache (blockBase addr) with
  | none =>
      have hsame : serverRenew .windows addr v nd = nd := by
        rw [serverRenew, hb]
      rw [hsame]
      refine ⟨h, fun k => ?_⟩
      split
      · rename_i hk
        rw [hk, view, hb]
        rfl
      · rfl
  | some b =>
      have hpatch : serverRenew .windows addr v nd = nd.patch b addr v := by
        simp only [serverRenew, hb, h.key_eq _ b hb, if_true]
      rw [hpatch]
      exact ⟨tableOk_patch h b, view_patch h hb⟩

/-- On POSIX it leaves the table alone. -/
theorem serverRenew_posix (nd : Node) : (serverRenew .posix addr v nd).table = nd.table := by
  rw [serverRenew]
  split
  · rfl
  · rfl

end Nodes

section Put

variable {s s' : State cfg} {n : Fin cfg.caches} {addr : Nat} {v : List Word} {b : Fin cacheSize}

/-- No renew is needed, or renews are made. -/
def Renewable (s : State cfg) (n : Fin cfg.caches) (addr : Nat) : Prop :=
  cfg.platform = .windows ∨ ∀ i, i ≠ n → s.view i (blockBase addr) = none

/-- The node `i` when the writer `n` has had the others renewed. -/
def State.renewed (s : State cfg) (n : Fin cfg.caches) (addr : Nat) (v : List Word) (i : Fin cfg.caches) : Node :=
  if s.directory (blockBase addr) i ∧ i ≠ n then serverRenew cfg.platform addr v (s.node i) else s.node i

theorem Inv.renewed (h : Inv s) (hfit : addr % blockSize + v.length ≤ blockSize)
    (hrenew : Renewable s n addr) {i : Fin cfg.caches} (hi : i ≠ n) :
    TableOk (s.renewed n addr v i).table ∧
      ∀ k ws, view (s.renewed n addr v i).table k = some ws →
        (∃ ws', s.view i k = some ws') ∧ Fresh (putWords s.backend addr v) k ws := by
  have hother : ∀ k ws, k ≠ blockBase addr → s.view i k = some ws →
      Fresh (putWords s.backend addr v) k ws := by
    intro k ws hne hview
    obtain ⟨b, hb, -⟩ := Option.map_eq_some_iff.mp hview
    exact (h.fresh i k ws hview).put_other hfit ((h.table i).aligned k b hb) hne
  unfold State.renewed
  cases hplatform : cfg.platform with
  | posix =>
      have htable : (if s.directory (blockBase addr) i ∧ i ≠ n then serverRenew .posix addr v (s.node i)
          else s.node i).table = (s.node i).table := by
        split
        · exact serverRenew_posix _
        · rfl
      have hnone : s.view i (blockBase addr) = none := by
        rcases hrenew with hwindows | hnone
        · rw [hplatform] at hwindows
          cases hwindows
        · exact hnone i hi
      rw [htable]
      refine ⟨h.table i, fun k ws hview => ⟨⟨ws, hview⟩, hother k ws ?_ hview⟩⟩
      rintro rfl
      rw [State.view] at hnone
      rw [hnone] at hview
      cases hview
  | windows =>
      by_cases hbit : s.directory (blockBase addr) i = true
      · rw [if_pos ⟨hbit, hi⟩]
        obtain ⟨hok, hview'⟩ := serverRenew_windows addr v (h.table i)
        refine ⟨hok, fun k ws hview => ?_⟩
        rw [hview'] at hview
        split at hview
        · rename_i hk
          subst hk
          obtain ⟨ws', hws', rfl⟩ := Option.map_eq_some_iff.mp hview
          exact ⟨⟨ws', hws'⟩, (h.fresh i _ ws' hws').memcpy hfit⟩
        · rename_i hk
          exact ⟨⟨ws, hview⟩, hother k ws hk hview⟩
      · rw [if_neg fun hand => hbit hand.1]
        refine ⟨h.table i, fun k ws hview => ⟨⟨ws, hview⟩, hother k ws ?_ hview⟩⟩
        rintro rfl
        exact hbit (h.covered i _ ws hview)

/-- A hit writes to the block, to the backend and to the other blocks. -/
theorem Inv.putHit (h : Inv s) (hfit : addr % blockSize + v.length ≤ blockSize)
    (hrenew : Renewable s n addr) (hb : (s.node n).table.cache (blockBase addr) = some b) :
    Inv (s.putHit n b addr v) ∧ (s.putHit n b addr v).backend = putWords s.backend addr v := by
  have hself : (s.putHit n b addr v).node n = ((s.node n).stamp b).patch b addr v := by
    simp [State.putHit, State.serverWrite, State.renewOthers, State.setNode]
  have hothers : ∀ i, i ≠ n → (s.putHit n b addr v).node i = s.renewed n addr v i := by
    intro i hi
    simp [State.putHit, State.serverWrite, State.renewOthers, State.setNode, hi, State.renewed]
  have hdirectory : (s.putHit n b addr v).directory = s.directory := rfl
  have hbackend : (s.putHit n b addr v).backend = putWords s.backend addr v := rfl
  have hstamp := tableOk_stamp (h.table n) b
  have hview : ∀ k, view (((s.node n).stamp b).patch b addr v).table k =
      if k = blockBase addr then (s.view n k).map fun ws => memcpy ws (addr % blockSize) v
      else s.view n k := by
    intro k
    rw [view_patch hstamp hb, view_stamp]
    rfl
  refine ⟨⟨?_, ?_, ?_⟩, hbackend⟩
  · intro i
    rcases eq_or_ne i n with rfl | hi
    · rw [hself]
      exact tableOk_patch hstamp b
    · rw [hothers i hi]
      exact (h.renewed hfit hrenew hi).1
  · intro i k ws hws
    rw [hdirectory]
    rcases eq_or_ne i n with rfl | hi
    · rw [State.view, hself, hview] at hws
      split at hws
      · obtain ⟨ws', hws', -⟩ := Option.map_eq_some_iff.mp hws
        exact h.covered i k ws' hws'
      · exact h.covered i k ws hws
    · rw [State.view, hothers i hi] at hws
      obtain ⟨⟨ws', hws'⟩, -⟩ := (h.renewed hfit hrenew hi).2 k ws hws
      exact h.covered i k ws' hws'
  · intro i k ws hws
    rw [hbackend]
    rcases eq_or_ne i n with rfl | hi
    · rw [State.view, hself, hview] at hws
      split at hws
      · rename_i hk
        subst hk
        obtain ⟨ws', hws', rfl⟩ := Option.map_eq_some_iff.mp hws
        exact (h.fresh i _ ws' hws').memcpy hfit
      · rename_i hk
        obtain ⟨b', hb', -⟩ := Option.map_eq_some_iff.mp hws
        exact (h.fresh i k ws hws).put_other hfit ((h.table i).aligned k b' hb') hk
    · rw [State.view, hothers i hi] at hws
      exact ((h.renewed hfit hrenew hi).2 k ws hws).2

/-- What `getblock` does on a miss: the block that it gives can be filled, and at most one other address
loses its block and its bit. -/
structure Claims (s s₁ : State cfg) (n : Fin cfg.caches) (k : Nat) (b : Fin cacheSize) : Prop where
  backend : s₁.backend = s.backend
  node : ∀ i, i ≠ n → s₁.node i = s.node i
  directory : ∀ k' i, i ≠ n → s₁.directory k' i = s.directory k' i
  table : ∀ words, TableOk ((s₁.node n).fill b k words).table
  view : ∀ words k' ws, view ((s₁.node n).fill b k words).table k' = some ws →
    k' = k ∧ ws = words ∨ k' ≠ k ∧ s.view n k' = some ws ∧ s₁.directory k' n = s.directory k' n

theorem setBit_directory (s : State cfg) (k k' : Nat) (n i : Fin cfg.caches) (bit : Bool) :
    (s.setBit k n bit).directory k' i = if k' = k ∧ i = n then bit else s.directory k' i := by
  show Function.update s.directory k (Function.update (s.directory k) n bit) k' i = _
  rcases eq_or_ne k' k with rfl | hk
  · rw [Function.update_self]
    rcases eq_or_ne i n with rfl | hi
    · rw [Function.update_self, if_pos ⟨rfl, rfl⟩]
    · rw [Function.update_of_ne hi, if_neg fun h => hi h.2]
  · rw [Function.update_of_ne hk, if_neg fun h => hk h.1]

theorem getblock_claims {s₁ : State cfg} {k : Nat} {pending : Bool} (hok : TableOk (s.node n).table)
    (hk : k % blockSize = 0) (hmiss : (s.node n).table.cache k = none)
    (hget : s.getblock n k = some (s₁, b, pending)) : pending = false ∧ Claims s s₁ n k b := by
  unfold State.getblock at hget
  rw [hmiss] at hget
  cases hqueue : (s.node n).table.queue with
  | cons b' rest =>
      rw [hqueue] at hget
      obtain ⟨rfl, hpair⟩ := Prod.mk.inj (Option.some.inj hget)
      obtain ⟨rfl, rfl⟩ := Prod.mk.inj hpair
      have hfill := hok.fill_free hk hmiss hqueue
      have hself : (s.setNode n { s.node n with table := (s.node n).table.takeFree b' rest k }).node n =
          { s.node n with table := (s.node n).table.takeFree b' rest k } := Function.update_self ..
      refine ⟨rfl, rfl, fun i hi => Function.update_of_ne hi .., fun _ _ _ => rfl, ?_, ?_⟩
      · intro words
        rw [hself]
        exact (hfill words).1
      · intro words k' ws hview
        rw [hself] at hview
        have hview := ((hfill words).2 k').symm.trans hview
        split at hview
        · rename_i hkk
          exact Or.inl ⟨hkk, (Option.some.inj hview).symm⟩
        · rename_i hkk
          exact Or.inr ⟨hkk, hview, rfl⟩
  | nil =>
      rw [hqueue] at hget
      obtain ⟨mini, hmini, hget⟩ := Option.bind_eq_some_iff.mp hget
      split at hget
      · cases hget
      · obtain ⟨rfl, hpair⟩ := Prod.mk.inj (Option.some.inj hget)
        obtain ⟨rfl, rfl⟩ := Prod.mk.inj hpair
        have hfill := hok.fill_victim hk hmiss (CacheTable.key_of_victim hmini)
        have hself : (s.setNode n { s.node n with table := (s.node n).table.swapOut mini k }).node n =
            { s.node n with table := (s.node n).table.swapOut mini k } := Function.update_self ..
        refine ⟨rfl, rfl, fun i hi => Function.update_of_ne hi .., ?_, ?_, ?_⟩
        · intro k' i hi
          rw [State.serverWriteback, setBit_directory, if_neg fun h => hi h.2]
          rfl
        · intro words
          show TableOk (((s.setNode n _).node n).fill mini k words).table
          rw [hself]
          exact (hfill words).1
        · intro words k' ws hview
          change CacheDeletion.view (((s.setNode n _).node n).fill mini k words).table k' = some ws at hview
          rw [hself] at hview
          have hview := ((hfill words).2 k').symm.trans hview
          split at hview
          · rename_i hkk
            exact Or.inl ⟨hkk, (Option.some.inj hview).symm⟩
          · rename_i hkk
            split at hview
            · cases hview
            · rename_i hold
              refine Or.inr ⟨hkk, hview, ?_⟩
              rw [State.serverWriteback, setBit_directory, if_neg fun h => hold h.1]
              rfl

/-- A miss: the block of `n` is filled with fresh words, and the other nodes are in order. -/
theorem Inv.miss (h : Inv s) {s₁ s₂ : State cfg} {k : Nat} (hclaims : Claims s s₁ n k b) (words : List Word)
    (hself : s₂.node n = ((s₁.node n).fill b k words).stamp b)
    (hdirectory : s₂.directory = (s₁.setBit k n true).directory) (hwords : Fresh s₂.backend k words)
    (hkept : ∀ k' ws, k' ≠ k → s.view n k' = some ws → Fresh s₂.backend k' ws)
    (hothers : ∀ i, i ≠ n → TableOk (s₂.node i).table ∧ ∀ k' ws, s₂.view i k' = some ws →
      (∃ ws', s.view i k' = some ws') ∧ Fresh s₂.backend k' ws) : Inv s₂ := by
  have hview : ∀ k' ws, s₂.view n k' = some ws → k' = k ∧ ws = words ∨
      k' ≠ k ∧ s.view n k' = some ws ∧ s₁.directory k' n = s.directory k' n := by
    intro k' ws hws
    rw [State.view, hself, view_stamp] at hws
    exact hclaims.view words k' ws hws
  constructor
  · intro i
    rcases eq_or_ne i n with rfl | hi
    · rw [hself]
      exact tableOk_stamp (hclaims.table words) b
    · exact (hothers i hi).1
  · intro i k' ws hws
    rw [hdirectory, setBit_directory]
    rcases eq_or_ne i n with rfl | hi
    · rcases hview k' ws hws with ⟨rfl, -⟩ | ⟨hk, hold, hbit⟩
      · exact if_pos ⟨rfl, rfl⟩
      · rw [if_neg fun h => hk h.1, hbit]
        exact h.covered i k' ws hold
    · obtain ⟨⟨ws', hws'⟩, -⟩ := (hothers i hi).2 k' ws hws
      rw [if_neg fun h => hi h.2, hclaims.directory k' i hi]
      exact h.covered i k' ws' hws'
  · intro i k' ws hws
    rcases eq_or_ne i n with rfl | hi
    · rcases hview k' ws hws with ⟨rfl, rfl⟩ | ⟨hk, hold, -⟩
      · exact hwords
      · exact hkept k' ws hk hold
    · exact ((hothers i hi).2 k' ws hws).2

theorem lookup_eq (hok : TableOk (s.node n).table) (k : Nat) :
    (s.node n).lookup k = (s.node n).table.cache k := by
  rw [Node.lookup]
  cases hb : (s.node n).table.cache k with
  | none => rfl
  | some b => simp [hok.key_eq k b hb]

/-- A write keeps the invariant; a miss at the home of the block writes one word to the backend. -/
theorem Inv.doput (h : Inv s) (hfit : addr % blockSize + v.length ≤ blockSize)
    (hrenew : Renewable s n addr) (hput : s.doput n addr v = some s') :
    Inv s' ∧ (s'.backend = putWords s.backend addr v ∨
      s'.backend = putWords s.backend addr (v.take 1) ∧ s.view n (blockBase addr) = none ∧
        cfg.home addr = n) := by
  rw [State.doput, lookup_eq (h.table n)] at hput
  cases hb : (s.node n).table.cache (blockBase addr) with
  | some b =>
      rw [hb] at hput
      obtain rfl := Option.some.inj hput
      obtain ⟨hinv, hbackend⟩ := h.putHit hfit hrenew hb
      exact ⟨hinv, Or.inl hbackend⟩
  | none =>
      rw [hb] at hput
      obtain ⟨⟨s₁, b, pending⟩, hget, hput⟩ := Option.bind_eq_some_iff.mp hput
      obtain ⟨rfl, hclaims⟩ := getblock_claims (h.table n) (DirectoryCache.blockBase_mod addr) hb hget
      obtain rfl := Option.some.inj hput
      generalize hwritten : (if cfg.home addr = n then v.take 1 else v) = written
      have hfit' : addr % blockSize + written.length ≤ blockSize := by
        rw [← hwritten]
        split
        · rw [List.length_take]
          omega
        · exact hfit
      have hbackend : (s₁.writeMiss n addr v b).backend = putWords s.backend addr written := by
        rw [← hclaims.backend, ← hwritten]
        rfl
      constructor
      · apply h.miss hclaims (backendBlock (putWords s.backend addr written).words (blockBase addr))
        · simp [State.writeMiss, State.serverWriteMiss, State.setNode, State.renewOthers, State.setBit,
            hwritten, hclaims.backend]
        · simp [State.writeMiss, State.serverWriteMiss, State.setNode, State.renewOthers, State.setBit]
        · show Fresh (s₁.writeMiss n addr v b).backend _ _
          rw [hbackend]
          exact fresh_backendBlock ..
        · intro k' ws hk hws
          show Fresh (s₁.writeMiss n addr v b).backend _ _
          rw [hbackend]
          obtain ⟨b', hb', -⟩ := Option.map_eq_some_iff.mp hws
          exact (h.fresh n k' ws hws).put_other hfit' ((h.table n).aligned k' b' hb') hk
        · intro i hi
          have hnode : ((s₁.writeMiss n addr v b).setNode n
              (((s₁.writeMiss n addr v b).node n).stamp b)).node i = s.renewed n addr written i := by
            simp [State.writeMiss, State.serverWriteMiss, State.setNode, State.renewOthers, State.setBit,
              hwritten, hi, State.renewed, hclaims.node i hi, hclaims.directory _ i hi]
          show TableOk (((s₁.writeMiss n addr v b).setNode n _).node i).table ∧ _
          unfold State.view
          rw [hnode]
          show _ ∧ ∀ k' ws, _ → _ ∧ Fresh (s₁.writeMiss n addr v b).backend _ _
          rw [hbackend]
          exact h.renewed hfit' hrenew hi
      · show (s₁.writeMiss n addr v b).backend = _ ∨ (s₁.writeMiss n addr v b).backend = _ ∧ _
        rw [hbackend, ← hwritten]
        split
        · rename_i hhome
          refine Or.inr ⟨rfl, ?_, hhome⟩
          rw [State.view, CacheDeletion.view, hb]
          rfl
        · exact Or.inl rfl

end Put

/-! ## Reads -/

section Get

variable {s s' : State cfg} {n : Fin cfg.caches} {addr : Nat} {b : Fin cacheSize}

theorem Inv.stamp (h : Inv s) (n : Fin cfg.caches) (b : Fin cacheSize) :
    Inv (s.setNode n ((s.node n).stamp b)) := by
  have hview : ∀ i k, (s.setNode n ((s.node n).stamp b)).view i k = s.view i k := by
    intro i k
    unfold State.view State.setNode
    rcases eq_or_ne i n with rfl | hi
    · simp only [Function.update_self]
      exact view_stamp ..
    · simp only [Function.update_of_ne hi]
  constructor
  · intro i
    unfold State.setNode
    rcases eq_or_ne i n with rfl | hi
    · simp only [Function.update_self]
      exact tableOk_stamp (h.table i) b
    · simp only [Function.update_of_ne hi]
      exact h.table i
  · intro i k ws hws
    rw [hview] at hws
    exact h.covered i k ws hws
  · intro i k ws hws
    rw [hview] at hws
    exact h.fresh i k ws hws

/-- A read passes on a block that is fresh. -/
theorem Inv.doget (h : Inv s) (hget : s.doget n addr = some (s', b)) :
    Inv s' ∧ s'.backend = s.backend ∧
      Fresh s.backend (blockBase addr) ((s'.node n).table.blocks b).cache := by
  rw [State.doget, lookup_eq (h.table n)] at hget
  cases hb : (s.node n).table.cache (blockBase addr) with
  | some b' =>
      rw [hb] at hget
      obtain ⟨rfl, rfl⟩ := Prod.mk.inj (Option.some.inj hget)
      refine ⟨h.stamp n b', rfl, ?_⟩
      have hcache : (((s.setNode n ((s.node n).stamp b')).node n).table.blocks b').cache =
          ((s.node n).table.blocks b').cache := by
        simp [State.setNode, Node.stamp, CacheTable.modify]
      rw [hcache]
      apply h.fresh n
      rw [State.view, view, hb]
      rfl
  | none =>
      rw [hb] at hget
      obtain ⟨⟨s₁, b', pending⟩, hblock, hget⟩ := Option.bind_eq_some_iff.mp hget
      obtain ⟨rfl, hclaims⟩ := getblock_claims (h.table n) (DirectoryCache.blockBase_mod addr) hb hblock
      obtain ⟨rfl, rfl⟩ := Prod.mk.inj (Option.some.inj hget)
      generalize hwords : backendBlock s.backend.words (blockBase addr) = words
      have hbackend : (s₁.readMiss n (blockBase addr) b').backend = s.backend := hclaims.backend
      have hfresh : Fresh s.backend (blockBase addr) words := by
        rw [← hwords]
        exact fresh_backendBlock ..
      refine ⟨?_, hbackend, ?_⟩
      · apply h.miss hclaims words
        · simp [State.readMiss, State.serverReadMiss, State.setNode, State.setBit, hclaims.backend, hwords]
        · simp [State.readMiss, State.serverReadMiss, State.setNode, State.setBit]
        · show Fresh (s₁.readMiss n (blockBase addr) b').backend _ _
          rw [hbackend]
          exact hfresh
        · intro k' ws _ hws
          show Fresh (s₁.readMiss n (blockBase addr) b').backend _ _
          rw [hbackend]
          exact h.fresh n k' ws hws
        · intro i hi
          have hnode : ((s₁.readMiss n (blockBase addr) b').setNode n
              (((s₁.readMiss n (blockBase addr) b').node n).stamp b')).node i = s.node i := by
            simp [State.readMiss, State.serverReadMiss, State.setNode, State.setBit, hi, hclaims.node i hi]
          unfold State.view
          rw [hnode]
          refine ⟨h.table i, fun k' ws hws => ⟨⟨ws, hws⟩, ?_⟩⟩
          show Fresh (s₁.readMiss n (blockBase addr) b').backend _ _
          rw [hbackend]
          exact h.fresh i k' ws hws
      · have hcache : ((((s₁.readMiss n (blockBase addr) b').setNode n
            (((s₁.readMiss n (blockBase addr) b').node n).stamp b')).node n).table.blocks b').cache = words := by
          simp [State.readMiss, State.serverReadMiss, State.setNode, State.setBit, Node.stamp, Node.fill,
            CacheTable.modify, hclaims.backend, hwords]
        rw [hcache]
        exact hfresh

/-- A miss finds a block: one is free, or the scan finds one whose lock is free. -/
def VictimExists (s : State cfg) (n : Fin cfg.caches) : Prop :=
  (s.node n).table.queue = [] →
    ∃ mini, CacheTable.victim (s.node n).table.blocks = some mini ∧ (s.node n).held mini = false

theorem doget_returns (h : Inv s) (hvictim : VictimExists s n) (addr : Nat) :
    ∃ s' b, s.doget n addr = some (s', b) := by
  rw [State.doget, lookup_eq (h.table n)]
  cases hb : (s.node n).table.cache (blockBase addr) with
  | some b => exact ⟨_, _, rfl⟩
  | none =>
      have hblock : ∃ s₁ b, s.getblock n (blockBase addr) = some (s₁, b, false) := by
        unfold State.getblock
        rw [hb]
        cases hqueue : (s.node n).table.queue with
        | cons b rest => exact ⟨_, _, rfl⟩
        | nil =>
            obtain ⟨mini, hmini, hheld⟩ := hvictim hqueue
            simp only [hmini, Option.bind_eq_bind, Option.bind_some, hheld, Bool.false_eq_true, if_false]
            exact ⟨_, _, rfl⟩
      obtain ⟨s₁, b, hblock⟩ := hblock
      rw [hblock]
      exact ⟨_, _, rfl⟩

theorem make64_split (key : ObjectKey) {fldid : Nat} (hlt : fldid < two32) :
    blockBase (make64 key fldid) / two32 = key ∧
      blockBase (make64 key fldid) % two32 + fldid % blockSize = fldid := by
  simp only [make64, blockBase, two32, blockSize] at *
  omega

theorem Inv.get {key : ObjectKey} {fldid : Nat} {w : Word} (h : Inv s)
    (hget : s.get n key fldid = some (s', w)) : Inv s' ∧ s'.backend = s.backend := by
  obtain ⟨⟨s₁, b⟩, hdoget, hget⟩ := Option.bind_eq_some_iff.mp hget
  obtain ⟨w', -, hget⟩ := Option.bind_eq_some_iff.mp hget
  obtain ⟨rfl, rfl⟩ := Prod.mk.inj (Option.some.inj hget)
  obtain ⟨hinv, hbackend, -⟩ := h.doget hdoget
  exact ⟨hinv, hbackend⟩

/-- A read of a word of an existing object returns what the backend has. -/
theorem Inv.get_live {key : ObjectKey} {fldid : Nat} (h : Inv s) (hvictim : VictimExists s n)
    (hlive : Live s.backend key fldid) :
    ∃ s', s.get n key fldid = some (s', s.backend.words key fldid) := by
  obtain ⟨s', b, hdoget⟩ := doget_returns h hvictim (make64 key fldid)
  obtain ⟨-, -, hfresh⟩ := h.doget hdoget
  have hlt : fldid < two32 := by
    obtain ⟨flag, size, -, hsize⟩ := hlive
    exact Nat.lt_trans hsize size.toNat_lt
  obtain ⟨hkey, hfld⟩ := make64_split key hlt
  have hword := hfresh.words (fldid % blockSize) (Nat.mod_lt _ (by decide))
  rw [hkey, hfld] at hword
  refine ⟨s', ?_⟩
  rw [State.get, hdoget]
  simp only [Option.bind_eq_bind, Option.bind_some, hword hlive]
  rfl

end Get

/-! ## Allocation and deletion -/

section Objects

variable {s : State cfg} {key : ObjectKey} {flag size : Word}

/-- Every block of the key that is in a cache has the words of the backend where the new object is to be. -/
def Unstale (s : State cfg) (key : ObjectKey) (size : Word) : Prop :=
  ∀ n k ws, s.view n k = some ws → k / two32 = key → ∀ i < blockSize, k % two32 + i < size.toNat →
    ws[i]? = some (s.backend.words key (k % two32 + i))

theorem Inv.alloc (h : Inv s) (hunstale : Unstale s key size) {d : Dsm}
    (halloc : alloc s.backend key flag size = some d) : Inv { s with backend := d } := by
  rw [CacheDeletion.alloc] at halloc
  split at halloc
  · cases halloc
  · rename_i hfree
    obtain rfl := Option.some.inj halloc
    have hnew : s.backend.newobj key flag size =
        { s.backend with info := Function.update s.backend.info key (some (flag, size)) } := if_neg hfree
    refine ⟨h.table, h.covered, fun n k ws hws => ?_⟩
    show Fresh (s.backend.newobj key flag size) k ws
    rw [hnew]
    rcases eq_or_ne (k / two32) key with hkey | hkey
    · refine ⟨(h.fresh n k ws hws).length, fun i hi hlive => ?_⟩
      obtain ⟨flag', size', hinfo, hlt⟩ := hlive
      rw [hkey] at hinfo ⊢
      simp only [Function.update_self] at hinfo
      obtain ⟨-, rfl⟩ := Prod.mk.inj (Option.some.inj hinfo)
      exact hunstale n k ws hws hkey i hi hlt
    · apply (h.fresh n k ws hws).congr
      rintro w ⟨flag', size', hinfo, hlt⟩
      simp only [Function.update_of_ne hkey] at hinfo
      exact ⟨⟨flag', size', hinfo, hlt⟩, rfl⟩

theorem Inv.del (h : Inv s) (junk : Word) (key : ObjectKey) :
    Inv { s with backend := del cfg.backend junk s.backend key } := by
  refine ⟨h.table, h.covered, fun n k ws hws => ?_⟩
  apply (h.fresh n k ws hws).congr
  rintro w ⟨flag, size, hinfo, hlt⟩
  rcases eq_or_ne (k / two32) key with hkey | hkey
  · simp only [CacheDeletion.del, hkey, Function.update_self] at hinfo
    cases hinfo
  · simp only [CacheDeletion.del, Function.update_of_ne hkey] at hinfo
    refine ⟨⟨flag, size, hinfo, hlt⟩, ?_⟩
    exact if_neg fun hand => hkey hand.1

end Objects

/-! ## Runs -/

/-- The words after the first are in the backend already, or the write is made as a whole. -/
def Handed (s : State cfg) (n : Fin cfg.caches) (p : Piece) : Prop :=
  s.view n (blockBase p.addr) = none → cfg.home p.addr = n → ∀ i, 1 ≤ i → i < p.words.length →
    s.backend.words (p.addr / two32) (p.addr % two32 + i) = p.words.getD i 0

/-- The calls that the caches do not get wrong. -/
def ok (s : State cfg) : Op cfg → Prop
  | .put n p => Renewable s n p.addr ∧ Handed s n p
  | .alloc _ key _ size => Unstale s key size
  | _ => True

theorem Piece.fits_addr (p : Piece) : p.addr % blockSize + p.words.length ≤ blockSize := by
  have hmod : p.addr % blockSize = p.fldid % blockSize := by
    simp only [Piece.addr, make64, two32, blockSize]
    omega
  rw [hmod]
  exact p.fits

/-- One call: the invariant is kept, and the backend gets what it gets without caches. -/
theorem inv_step {s s' : State cfg} {op : Op cfg} (h : Inv s) (hok : ok s op) (hstep : step s op = some s') :
    Inv s' ∧ noCacheStep s.backend op = some s'.backend := by
  cases op with
  | put n p =>
      obtain ⟨hinv, hbackend | ⟨hbackend, hmiss, hhome⟩⟩ := h.doput p.fits_addr hok.1 hstep
      · exact ⟨hinv, congrArg some hbackend.symm⟩
      · refine ⟨hinv, ?_⟩
        have hsame : putWords s.backend p.addr (p.words.take 1) = putWords s.backend p.addr p.words := by
          rw [putWords, DirectoryCache.backendPut_take_one (hok.2 hmiss hhome)]
          rfl
        rw [hbackend, hsame]
        rfl
  | get n key fldid =>
      obtain ⟨⟨s₁, w⟩, hget, rfl⟩ := Option.map_eq_some_iff.mp hstep
      obtain ⟨hinv, hbackend⟩ := h.get hget
      exact ⟨hinv, congrArg some hbackend.symm⟩
  | alloc n key flag size =>
      obtain ⟨d, halloc, rfl⟩ := Option.map_eq_some_iff.mp hstep
      exact ⟨h.alloc hok halloc, halloc⟩
  | del n key junk =>
      obtain rfl := Option.some.inj hstep
      exact ⟨h.del junk key, rfl⟩

theorem inv_run {s s' : State cfg} {ops : List (Op cfg)} (h : Inv s) (hok : Along step ok s ops)
    (hrun : run step s ops = some s') : Inv s' ∧ run noCacheStep s.backend ops = some s'.backend := by
  induction ops generalizing s with
  | nil =>
      obtain rfl := Option.some.inj hrun
      exact ⟨h, rfl⟩
  | cons op rest ih =>
      obtain ⟨t, ht, hrest⟩ := Option.bind_eq_some_iff.mp hrun
      obtain ⟨hinv, hbackend⟩ := inv_step h hok.1 ht
      obtain ⟨hinv', hrest'⟩ := ih hinv (hok.2 t ht) hrest
      exact ⟨hinv', run_of_step hbackend hrest'⟩

/-- In every state that is reached by calls that the caches do not get wrong, the backend is that of a
run without caches, and a read of a word of an existing object, by any node, returns what it
returns there. -/
theorem transparent_across_deletion {junk : Fin cfg.caches → Fin cacheSize → CacheBlock} {d : Dsm}
    {ops : List (Op cfg)} {s : State cfg} (hok : Along step ok (start cfg junk d) ops)
    (hrun : run step (start cfg junk d) ops = some s) :
    run noCacheStep d ops = some s.backend ∧
      ∀ n key fldid, Live s.backend key fldid → VictimExists s n →
        ∃ s', s.get n key fldid = some (s', s.backend.words key fldid) := by
  obtain ⟨hinv, hbackend⟩ := inv_run (inv_start cfg junk d) hok hrun
  exact ⟨hbackend, fun n key fldid hlive hvictim => hinv.get_live hvictim hlive⟩

/-! ## A key that is used again -/

theorem two_le_width : 2 ≤ 64 := by decide

def twoNodes : Config := ⟨2, Nat.two_pos, two_le_width, .windows, .chunkMemcached⟩

def node0 : Fin twoNodes.caches := ⟨0, by decide⟩

def node1 : Fin twoNodes.caches := ⟨1, by decide⟩

/-- The first word of object 5 is to be 7. -/
def sevenPiece : Piece := ⟨5, 0, [7], by decide, by decide⟩

def emptyCaches : State twoNodes := start twoNodes (fun _ _ => ⟨[], 0, 0⟩) Dsm.empty

/-- The key is used again before any cache has a block of it. -/
def reuseUncached : List (Op twoNodes) :=
  [.alloc node0 5 1 1, .del node1 5 0, .alloc node1 5 1 1, .put node0 sevenPiece]

theorem transparent_uncached :
    ∃ s, run step emptyCaches reuseUncached = some s ∧ s.backend.words 5 0 = 7 ∧
      ∃ s', s.get node1 5 0 = some (s', s.backend.words 5 0) := by
  have hmap : (run step emptyCaches reuseUncached).map (fun s =>
      (s.backend.words 5 0, s.backend.info 5, (s.node node1).table.queue.isEmpty)) =
        some (7, some (1, 1), false) := by
    decide +kernel
  obtain ⟨s, hrun, hs⟩ := Option.map_eq_some_iff.mp hmap
  obtain ⟨hword, hpair⟩ := Prod.mk.inj hs
  obtain ⟨hinfo, hqueue⟩ := Prod.mk.inj hpair
  have hok : Along step ok emptyCaches reuseUncached := by
    refine ⟨fun _ _ _ h => (by cases h), fun t ht => ?_⟩
    obtain rfl := Option.some.inj ht
    refine ⟨trivial, fun t ht => ?_⟩
    obtain rfl := Option.some.inj ht
    refine ⟨fun _ _ _ h => (by cases h), fun t ht => ?_⟩
    obtain rfl := Option.some.inj ht
    refine ⟨⟨Or.inl rfl, fun _ _ i hi hlt => ?_⟩, fun _ _ => trivial⟩
    exact absurd (Nat.lt_of_lt_of_le hlt hi) (Nat.lt_irrefl i)
  refine ⟨s, hrun, hword, ?_⟩
  apply (transparent_across_deletion hok hrun).2 node1 5 0
  · exact ⟨1, 1, hinfo, by decide⟩
  · intro hnil
    rw [hnil] at hqueue
    cases hqueue

/-- Node 1 has the block in its cache when node 0 deletes the object and allocates another one. -/
def reuseCached : List (Op twoNodes) :=
  [.alloc node0 5 1 1, .put node1 sevenPiece, .del node0 5 0, .alloc node0 5 1 1]

/-- Node 1 still reads the word of the old object. -/
theorem stale_word_after_reuse :
    ∃ s d, run step emptyCaches reuseCached = some s ∧ Live s.backend 5 0 ∧
      (∃ s', s.get node1 5 0 = some (s', 7)) ∧
      run noCacheStep Dsm.empty reuseCached = some d ∧ d.words 5 0 = 0 := by
  have hmap : (run step emptyCaches reuseCached).map (fun s =>
      (s.backend.info 5, (s.get node1 5 0).map Prod.snd)) = some (some (1, 1), some 7) := by
    decide +kernel
  have hnone : (run noCacheStep Dsm.empty reuseCached).map (fun d => d.words 5 0) = some 0 := by
    decide +kernel
  obtain ⟨s, hrun, hs⟩ := Option.map_eq_some_iff.mp hmap
  obtain ⟨hinfo, hget⟩ := Prod.mk.inj hs
  obtain ⟨⟨s', w⟩, hget, rfl⟩ := Option.map_eq_some_iff.mp hget
  obtain ⟨d, hd, hzero⟩ := Option.map_eq_some_iff.mp hnone
  exact ⟨s, d, hrun, ⟨1, 1, hinfo, by decide⟩, ⟨s', hget⟩, hd, hzero⟩

/-! ## The words of new objects -/

/-- What does not belong to an object is zero. -/
def Clear (d : Dsm) : Prop := ∀ key w, ¬Live d key w → d.words key w = 0

/-- A write stays within an object. -/
def InBounds (d : Dsm) : Op cfg → Prop
  | .put _ p => ∀ i < p.words.length, Live d p.key (p.fldid + i)
  | _ => True

theorem span_le (ty : BackendType) (size : Nat) : size ≤ ty.span size := by
  cases ty with
  | memcached => exact Nat.le_refl size
  | chunkMemcached =>
      rw [BackendType.span, blockSize]
      split <;> omega

theorem clear_step {d d' : Dsm} {op : Op cfg} (h : Clear d) (hbounds : InBounds d op)
    (hstep : noCacheStep d op = some d') : Clear d' := by
  cases op with
  | put n p =>
      obtain rfl := Option.some.inj hstep
      intro key w hdead
      show Memory.write _ _ _ _ _ _ = _
      rw [Memory.write, if_neg]
      · exact h key w hdead
      · rintro ⟨rfl, hlow, hhigh⟩
        obtain ⟨hkey, hfld⟩ : p.addr / two32 = p.key ∧ p.addr % two32 = p.fldid := by
          have hlt := p.lt
          simp only [Piece.addr, make64, two32] at *
          omega
        rw [hfld] at hlow hhigh
        have hlive := hbounds (w - p.fldid) (by omega)
        rw [← hkey, show p.fldid + (w - p.fldid) = w by omega] at hlive
        exact hdead hlive
  | get n key fldid =>
      obtain rfl := Option.some.inj hstep
      exact h
  | alloc n key flag size =>
      rw [noCacheStep, alloc] at hstep
      split at hstep
      · cases hstep
      · rename_i hfree
        obtain rfl := Option.some.inj hstep
        have hnew : d.newobj key flag size =
            { d with info := Function.update d.info key (some (flag, size)) } := if_neg hfree
        rw [hnew]
        intro key' w hdead
        apply h key' w
        rintro ⟨flag', size', hinfo, hlt⟩
        rcases eq_or_ne key' key with rfl | hne
        · rw [hinfo] at hfree
          exact hfree rfl
        · refine hdead ⟨flag', size', ?_, hlt⟩
          simp only [Function.update_of_ne hne]
          exact hinfo
  | del n key junk =>
      obtain rfl := Option.some.inj hstep
      intro key' w hdead
      show (if key' = key ∧ w < _ then 0 else d.words key' w) = 0
      split
      · rfl
      · rename_i hout
        apply h key' w
        rintro ⟨flag, size, hinfo, hlt⟩
        rcases eq_or_ne key' key with rfl | hne
        · apply hout
          refine ⟨rfl, ?_⟩
          rw [hinfo]
          exact Nat.lt_of_lt_of_le hlt (span_le ..)
        · refine hdead ⟨flag, size, ?_, hlt⟩
          simp only [CacheDeletion.del, Function.update_of_ne hne]
          exact hinfo

/-- Without caches, a new object is all zero when the program writes within its objects only. -/
theorem new_object_zero {d d' d'' : Dsm} {ops : List (Op cfg)} (h : Clear d)
    (hbounds : Along noCacheStep InBounds d ops) (hrun : run noCacheStep d ops = some d')
    {key : ObjectKey} {flag size : Word} (halloc : alloc d' key flag size = some d'') (w : Nat) :
    d''.words key w = 0 := by
  have hclear : Clear d' := invariant_run (fun _ _ _ => clear_step) h hbounds hrun
  rw [alloc] at halloc
  split at halloc
  · cases halloc
  · rename_i hfree
    obtain rfl := Option.some.inj halloc
    have hnew : d'.newobj key flag size =
        { d' with info := Function.update d'.info key (some (flag, size)) } := if_neg hfree
    rw [hnew]
    apply hclear key w
    rintro ⟨flag', size', hinfo, -⟩
    rw [hinfo] at hfree
    exact hfree rfl

end Dogee.CacheDeletion
