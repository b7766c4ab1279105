import Dogee.KeyValue
import Dogee.StorageCall

/-!
# The memcached backends

`SoStorageMemcached` stores every word under its own key, `SoStorageChunkMemcached`
every block of `blockSize` words under one key. Both are written as programs over
the memcached server, request by request, in the order of the source; loops that
only move words between buffers are `copyWords`. A 32-bit counter of the source
that can pass its range is reduced modulo `two32`; the loops whose end depends on
such a counter take a fuel argument.
-/

namespace Dogee.Memcached

/-- A program over memcached: 64-bit keys and values made of words. -/
abbrev Prog (α : Type) := KeyValue.Prog Nat (List Word) α

def fetch (ks : List Nat) : Prog (List (Nat × List Word)) := .mget ks .ret

def put (k : Nat) (v : List Word) : Prog Unit := .set k v (.ret ())

/-- A step on the program's own buffers. -/
def ownMemory {α : Type} (x : Option α) : Prog α := .ofOption x

/-! ## One key for each word -/

/-- The keys that `fetchchunk` asks for. -/
def fetchKeys (k len : Nat) : List Nat := (List.range len).map fun i => (k + i) % two64

/-- `MEMCACHED_FETCH_BATCH` -/
def fetchBatch : Nat := 490

/-- Store the answers of one batch: `buf[(*pkey) - k] = *pvalue`. -/
def storeReplies (k : Nat) (buf : List Word) (rs : List (Nat × List Word)) : Option (List Word) :=
  rs.foldlM (fun buf e => do
    let v ← e.2.head?
    copyWords buf ((e.1 + two64 - k) % two64) [v]) buf

def getChunkLoop (k len : Nat) : Nat → Nat → List Word → Prog (List Word)
  | 0, _, _ => .crash
  | fuel + 1, offset, buf =>
      if offset < len then do
        let mylen := if (offset + fetchBatch) % two32 < len then fetchBatch else len - offset
        let buf ← ownMemory (copyWords buf offset (List.replicate mylen 0))
        let rs ← fetch (fetchKeys (k + offset) mylen)
        let buf ← ownMemory (storeReplies k buf rs)
        getChunkLoop k len fuel ((offset + fetchBatch) % two32) buf
      else
        .ret buf

/-- Read `len` words into `buf`. -/
def memcachedGetChunk (k len : Nat) (buf : List Word) : Prog (List Word) :=
  getChunkLoop k len (len + 1) 0 buf

def memcachedPutChunk (key : Nat) : Nat → List Word → Prog Unit
  | _, [] => .ret ()
  | k, v :: vs => do
      put (make64 key k) [v]
      memcachedPutChunk key ((k + 1) % two32) vs

namespace Fine

def putchunk (key fldid : Nat) (buf : List Word) : Prog Unit := memcachedPutChunk key fldid buf

def put32 (key fldid : Nat) (v : Word) : Prog Unit := put (make64 key fldid) [v]

def put64 (key fldid : Nat) (v : UInt64) : Prog Unit := putchunk key fldid (words64 v)

/-- The 64-bit overload passes its buffer on as `len * 2` words. -/
def putchunk64 (key fldid : Nat) (buf : List UInt64) : Prog Unit :=
  putchunk key fldid ((buf.flatMap words64).take (buf.length * 2 % two32))

/-- A key that is not found reads as zero. -/
def get (key fldid : Nat) : Prog Word := do
  let rs ← fetch [make64 key fldid]
  match rs with
  | [] => .ret 0
  | e :: _ => ownMemory e.2.head?

def getchunk (key fldid len : Nat) (buf : List Word) : Prog (List Word) :=
  memcachedGetChunk (make64 key fldid) len buf

/-- The 64-bit overload, with the buffer seen as words. -/
def getchunk64 (key fldid len : Nat) (buf : List Word) : Prog (List Word) :=
  getchunk key fldid (len * 2 % two32) buf

def getblock (id : Nat) (buf : List Word) : Prog (List Word) :=
  memcachedGetChunk id blockSize buf

end Fine

/-! ## One key for each block -/

/-- The keys that `fetchchunk2` asks for: the blocks of `len` words. -/
def fetchBlocks (k len : Nat) : List Nat :=
  fetchKeys k (len / blockSize + if len % blockSize ≠ 0 then 1 else 0)

/-- Words `a, …, a + n - 1` of the object take the next values of the buffer:
`var[i & DSM_CACHE_LOW_MASK] = buf[idx]`. -/
def patchLoop (buf : List Word) : Nat → Nat → Nat → List Word → Option (List Word)
  | 0, _, _, var => some var
  | n + 1, i, idx, var => do
      let v ← buf[idx]?
      let var ← copyWords var (i % blockSize) [v]
      patchLoop buf n (i + 1) (idx + 1) var

/-- The blocks that a write covers whole, with the values of `i` and `idx` after
the loop. -/
def blockLoop (key : Nat) (buf : List Word) : Nat → Nat → Nat → Prog (Nat × Nat)
  | 0, i, idx => .ret (i, idx)
  | n + 1, i, idx => do
      let blk ← ownMemory (slice buf idx blockSize)
      put (make64 key (i / blockSize)) blk
      blockLoop key buf n (i + blockSize) (idx + blockSize)

namespace Chunk

def getblock (addr : Nat) (buf : List Word) : Prog (List Word) := do
  let k := addr / two32 * two32 + addr % two32 / blockSize
  let buf ← ownMemory (copyWords buf 0 (List.replicate blockSize 0))
  let rs ← fetch (fetchBlocks k blockSize)
  ownMemory (rs.foldlM (fun buf e => do copyWords buf 0 (← slice e.2 0 blockSize)) buf)

/-- The local array of a block, before `getblock` clears it. -/
def blockArray : List Word := List.replicate blockSize 0

/-- The whole blocks and the tail of `putchunk`, with `idx` words written before:
whole blocks are stored as they are, an unaligned tail is patched into its block. -/
def putBlocks (key : Nat) (buf : List Word) (kTail kStart idx : Nat) : Prog Unit := do
  let kEnd := kTail / blockSize * blockSize
  let (i, idx) ← blockLoop key buf ((kEnd - kStart + (blockSize - 1)) / blockSize) kStart idx
  if idx < buf.length ∧ kEnd ≠ kTail then do
    let var ← getblock (make64 key kEnd) blockArray
    let var ← ownMemory (patchLoop buf (kTail - i) i idx var)
    put (make64 key (kEnd / blockSize)) var
  else .ret ()

/-- An unaligned head is patched into its block before the blocks that follow. -/
def putchunk (key fldid : Nat) (buf : List Word) : Prog Unit := do
  let k := fldid
  let kTail := (k + buf.length) % two32
  let kStart := if k % blockSize ≠ 0 then (k / blockSize * blockSize + blockSize) % two32 else k
  if k < kStart then do
    let var ← getblock (make64 key k) blockArray
    -- the loop runs while `i < k_start && i < k_tail`
    let n := min kStart kTail - k
    let var ← ownMemory (patchLoop buf n k 0 var)
    put (make64 key (k / blockSize)) var
    putBlocks key buf kTail kStart n
  else
    putBlocks key buf kTail kStart 0

def put32 (key fldid : Nat) (v : Word) : Prog Unit := putchunk key fldid [v]

def put64 (key fldid : Nat) (v : UInt64) : Prog Unit := putchunk key fldid (words64 v)

/-- The 64-bit overload passes its buffer on as `len * 2` words. -/
def putchunk64 (key fldid : Nat) (buf : List UInt64) : Prog Unit :=
  putchunk key fldid ((buf.flatMap words64).take (buf.length * 2 % two32))

def get (key fldid : Nat) : Prog Word := do
  let k := make64 key fldid
  let buf ← getblock k blockArray
  ownMemory buf[k % blockSize]?

/-- One answer of `do_getchunk`: the words of its block that lie in the range go
to their places. -/
def placeReply (k offset len base : Nat) (buf : List Word) (e : Nat × List Word) :
    Option (List Word) := do
  let idx := (e.1 + two64 - k) % two64 % two32
  let i := if idx = 0 then offset else 0
  let j := (idx * blockSize + i + two32 - offset) % two32
  -- the loop runs while `i < DSM_CACHE_BLOCK_SIZE && j < len`
  let vs ← slice e.2 i (min (blockSize - i) (len - j))
  copyWords buf (base + j) vs

/-- Read `len` words into the buffer from position `base` on. -/
def doGetchunk (key fldid len : Nat) (buf : List Word) (base : Nat) : Prog (List Word) := do
  let k := make64 key (fldid / blockSize)
  let buf ← ownMemory (copyWords buf base (List.replicate len 0))
  let offset := fldid % blockSize
  let rs ← fetch (fetchBlocks k ((len + offset) % two32))
  ownMemory (rs.foldlM (placeReply k offset len base) buf)

/-- `CHUNK_MEMCACHED_FETCH_BATCH` -/
def chunkFetchBatch : Nat := 15000

def splitedLoop (key fldid limit : Nat) : Nat → Nat → List Word → Prog (Nat × List Word)
  | 0, _, _ => .crash
  | fuel + 1, l, buf =>
      if l < limit then do
        let buf ← doGetchunk key l chunkFetchBatch buf (l - fldid)
        splitedLoop key fldid limit fuel ((l + chunkFetchBatch) % two32) buf
      else
        .ret (l, buf)

/-- The batches of `splited_getchunk` before the last, with the next field id. -/
def splitedBatches (key fldid len : Nat) (buf : List Word) : Prog (Nat × List Word) :=
  if len ≥ chunkFetchBatch then
    splitedLoop key fldid ((fldid + len + two32 - chunkFetchBatch) % two32) (len + 1) fldid buf
  else
    .ret (fldid, buf)

def splitedGetchunk (key fldid len : Nat) (buf : List Word) : Prog (List Word) := do
  let (l, buf) ← splitedBatches key fldid len buf
  let remain := (fldid + len + two32 - l) % two32
  if remain ≠ 0 then doGetchunk key l remain buf (l - fldid) else .ret buf

def getchunk (key fldid len : Nat) (buf : List Word) : Prog (List Word) :=
  splitedGetchunk key fldid len buf

/-- The 64-bit overload, with the buffer seen as words. -/
def getchunk64 (key fldid len : Nat) (buf : List Word) : Prog (List Word) :=
  splitedGetchunk key fldid (len * 2 % two32) buf

end Chunk

end Dogee.Memcached
