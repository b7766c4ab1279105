import Dogee.CacheTable
import Dogee.Transition

/-!
# The write-through cache on a single node

`DSMDirectoryCache` over a flat-memory backend, in a cluster of one node with one
thread: every block has its home here, so the protocol calls its server functions
directly, and no lock is ever contended. A failed assertion and a wait that
nothing can end are `none`.
-/

namespace Dogee.DirectoryCache

/-- The number of nodes. -/
def caches : Nat := 1

/-- The id of the only node. -/
def cacheId : Nat := 0

/-- The table, the clock of `CacheClock`, the bits of the directory, where an
erased entry has no bit set, and the backend. -/
structure State where
  table : CacheTable
  clock : Nat
  directory : Nat → Nat → Bool
  backend : Memory

/-- `backend->putchunk(addr >> 32, addr & 0xffffffff, len, v)` -/
def backendPut (m : Memory) (addr : Nat) (v : List Word) : Memory :=
  m.write (addr / two32) (addr % two32) v

/-- `backend->getblock(addr, buf)` -/
def backendBlock (m : Memory) (addr : Nat) : List Word :=
  m.read (addr / two32) (addr % two32) blockSize

/-- Stamp a block with the clock. -/
def stamp (s : State) (b : Fin cacheSize) : State :=
  { s with
    table := s.table.modify b fun blk => { blk with lru := s.clock }
    clock := (s.clock + 1) % two32 }

/-- `memcpy` of words into a block. -/
def patch (s : State) (b : Fin cacheSize) (addr : Nat) (v : List Word) : Option State := do
  let words ← copyWords (s.table.blocks b).cache (addr % blockSize) v
  return { s with table := s.table.modify b fun blk => { blk with cache := words } }

/-! ## The server functions -/

def serverRenew (s : State) (addr : Nat) (v : List Word) : Option State :=
  match s.table.cache (blockBase addr) with
  | none => some s
  | some b => if (s.table.blocks b).key = blockBase addr then patch s b addr v else some s

/-- The loop over the nodes whose bit is set in the entry `old`, the writer left out. -/
def renewOthers (s : State) (old : Nat → Bool) (srcId addr : Nat) (v : List Word) : Option State :=
  ((List.range caches).filter fun i => old i && i ≠ srcId).foldlM
    (fun s _ => serverRenew s addr v) s

def serverWrite (s : State) (addr srcId : Nat) (v : List Word) : Option State :=
  let s := { s with backend := backendPut s.backend addr v }
  renewOthers s (s.directory (blockBase addr)) srcId addr v

/-- Set the bit of node `srcId` in the entry of a block. -/
def setBit (s : State) (baddr srcId : Nat) : State :=
  { s with
    directory := Function.update s.directory baddr (Function.update (s.directory baddr) srcId true) }

def serverWriteback (s : State) (addr srcId : Nat) : State :=
  { s with
    directory := Function.update s.directory addr (Function.update (s.directory addr) srcId false) }

/-- Write the first `inLen` words and return the block. -/
def serverWriteMiss (s : State) (addr srcId : Nat) (v : List Word) (inLen : Nat) :
    Option (State × List Word) := do
  let s := { s with backend := backendPut s.backend addr (v.take inLen) }
  let old := s.directory (blockBase addr)
  let s ← renewOthers (setBit s (blockBase addr) srcId) old srcId addr (v.take inLen)
  return (s, backendBlock s.backend (blockBase addr))

def serverReadMiss (s : State) (addr srcId : Nat) : State × List Word :=
  (setBit s addr srcId, backendBlock s.backend addr)

/-! ## The cache -/

/-- The miss functions of the protocol put the block and its key in place. -/
def fill (s : State) (b : Fin cacheSize) (key : Nat) (words : List Word) : State :=
  { s with table := s.table.modify b fun blk => { blk with cache := words, key := key } }

/-- At its own node the protocol hands on one word of a write miss. -/
def writeMiss (s : State) (addr : Nat) (v : List Word) (b : Fin cacheSize) : Option State := do
  let (s, words) ← serverWriteMiss s addr cacheId v 1
  return fill s b (blockBase addr) words

def readMiss (s : State) (addr : Nat) (b : Fin cacheSize) : State :=
  let (s, words) := serverReadMiss s addr cacheId
  fill s b addr words

/-- A block for the address `k`, and whether another request for it is pending. -/
def getblock (s : State) (k : Nat) : Option (State × Fin cacheSize × Bool) :=
  match s.table.cache k, s.table.queue with
  | some b, _ => some (s, b, true)
  | none, b :: rest => some ({ s with table := s.table.takeFree b rest k }, b, false)
  | none, [] => do
      let mini ← CacheTable.victim s.table.blocks
      let oldkey := (s.table.blocks mini).key
      let s := { s with table := s.table.swapOut mini k }
      return (serverWriteback s oldkey cacheId, mini, false)

/-- The block of the address `k` if it is in the cache. -/
def lookup (s : State) (k : Nat) : Option (Fin cacheSize) :=
  (s.table.cache k).filter fun b => (s.table.blocks b).key = k

def putHit (s : State) (b : Fin cacheSize) (addr : Nat) (v : List Word) : Option State := do
  let s ← patch (stamp s b) b addr v
  serverWrite s addr cacheId v

def doput (s : State) (addr : Nat) (v : List Word) : Option State :=
  match lookup s (blockBase addr) with
  | some b => putHit s b addr v
  | none => do
      let (s, b, isPending) ← getblock s (blockBase addr)
      if isPending then
        -- with one thread nobody finishes a pending request
        if (s.table.blocks b).key = blockBase addr then putHit s b addr v else none
      else
        let s ← writeMiss s addr v b
        return stamp s b

/-- The state after `doget` and the block that it passes to `func`. -/
def doget (s : State) (addr : Nat) : Option (State × Fin cacheSize) :=
  match lookup s (blockBase addr) with
  | some b => some (stamp s b, b)
  | none => do
      let (s, b, isPending) ← getblock s (blockBase addr)
      if isPending then
        if (s.table.blocks b).key = blockBase addr then some (stamp s b, b) else none
      else
        return (stamp (readMiss s (blockBase addr) b) b, b)

/-- `len` words of one block from the address `k` on. -/
def getblockdata (s : State) (k len : Nat) : Option (State × List Word) := do
  let (s, b) ← doget s k
  let words ← slice (s.table.blocks b).cache (k % blockSize) len
  return (s, words)

def get (s : State) (okey fldid : Nat) : Option (State × Word) := do
  let (s, b) ← doget s (make64 okey fldid)
  let w ← (s.table.blocks b).cache[fldid % blockSize]?
  return (s, w)

/-- The part of a chunk call that lies in one block. -/
structure Piece where
  addr : Nat
  idx : Nat
  len : Nat
  deriving DecidableEq

/-- How `putchunk` and `getchunk` cut their range: up to the first block boundary,
whole blocks, and the rest. -/
def pieces (k len : Nat) : Option (List Piece) :=
  let kTail := (k + len) % two64
  let kStart := if k % blockSize ≠ 0 then (k / blockSize * blockSize + blockSize) % two64 else k
  let kEnd := kTail / blockSize * blockSize
  let copylen := if kStart < kTail then kStart - k else len
  let n := (kEnd - kStart + (blockSize - 1)) / blockSize
  let idx := copylen + n * blockSize
  -- the source asserts this
  if copylen ≤ blockSize then
    some ((if copylen > 0 then [⟨k, 0, copylen⟩] else []) ++
      (List.range n).map (fun j => ⟨kStart + j * blockSize, copylen + j * blockSize, blockSize⟩) ++
      (if idx < len then [⟨kEnd, idx, len - idx⟩] else []))
  else none

/-- `putblockdata` of one piece of the buffer. -/
def putPiece (buf : List Word) (s : State) (p : Piece) : Option State := do
  doput s p.addr (← slice buf p.idx p.len)

def putchunk (s : State) (okey fldid : Nat) (buf : List Word) : Option State := do
  let ps ← pieces (make64 okey fldid) buf.length
  Transition.run (putPiece buf) s ps

/-- `getblockdata` of one piece into the buffer. -/
def getPiece (s : State × List Word) (p : Piece) : Option (State × List Word) := do
  let (t, words) ← getblockdata s.1 p.addr p.len
  let buf ← copyWords s.2 p.idx words
  return (t, buf)

def getchunk (s : State) (okey fldid len : Nat) (buf : List Word) : Option (State × List Word) := do
  let ps ← pieces (make64 okey fldid) len
  Transition.run getPiece (s, buf) ps

/-- The calls of the cache; `getblock` of the storage interface is not one of them. -/
def call (s : State) : Call → Option (State × List Word)
  | .put key fldid v => (doput s (make64 key fldid) [v]).map (·, [])
  | .put64 key fldid v => (putchunk s key fldid (words64 v)).map (·, [])
  | .putchunk key fldid buf => (putchunk s key fldid buf).map (·, [])
  | .putchunk64 key fldid buf =>
      (putchunk s key fldid ((buf.flatMap words64).take (buf.length * 2 % two32))).map (·, [])
  | .get key fldid => (get s key fldid).map fun r => (r.1, [r.2])
  | .getchunk key fldid len buf => getchunk s key fldid len buf
  | .getchunk64 key fldid len buf => getchunk s key fldid (len * 2 % two32) buf
  | .getblock _ _ _ => none

/-- The calls one after another. -/
def serve : State → List Call → Option (State × List (List Word))
  | s, [] => some (s, [])
  | s, c :: cs => do
      let (s, r) ← call s c
      let (s, rs) ← serve s cs
      return (s, r :: rs)

/-- A new cache over a backend. -/
def start (junk : Fin cacheSize → CacheBlock) (m : Memory) : State where
  table := CacheTable.fresh junk
  clock := 0
  directory _ _ := false
  backend := m

end Dogee.DirectoryCache
