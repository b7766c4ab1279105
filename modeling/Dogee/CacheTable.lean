import Dogee.StorageCall
import Mathlib.Logic.Function.Basic

/-!
# The block table of a cache

A cache holds `cacheSize` blocks, a queue of free ones and a hash table from
block addresses to blocks. A block that is free or being filled has the key
`badKey`, which is the address of no block. When no block is free, the one used
longest ago is swapped out.
-/

namespace Dogee

/-- `DSM_CACHE_SIZE`, the number of blocks of a cache. -/
def cacheSize : Nat := 1024

/-- `DSM_CACHE_BAD_KEY`, the key of a block without contents. -/
def badKey : Nat := blockSize - 1

/-- The value of `lru` while a block is swapped out. -/
def noStamp : Nat := two32 - 1

/-- `addr & DSM_CACHE_HIGH_MASK_64`, the address of the block of a word. -/
def blockBase (addr : Nat) : Nat := addr / blockSize * blockSize

structure CacheBlock where
  cache : List Word
  lru : Nat
  key : Nat

structure CacheTable where
  blocks : Fin cacheSize → CacheBlock
  queue : List (Fin cacheSize)
  cache : Nat → Option (Fin cacheSize)

namespace CacheTable

/-- The table of a new cache: every block is free. The contents and the stamps of
the blocks are not set. -/
def fresh (junk : Fin cacheSize → CacheBlock) : CacheTable where
  blocks i := { junk i with key := badKey }
  queue := List.finRange cacheSize
  cache _ := none

/-- Change one block. -/
def modify (t : CacheTable) (b : Fin cacheSize) (f : CacheBlock → CacheBlock) : CacheTable :=
  { t with blocks := Function.update t.blocks b (f (t.blocks b)) }

/-- The scan for the block with the smallest stamp below `0xffffffff`. -/
def victim (blocks : Fin cacheSize → CacheBlock) : Option (Fin cacheSize) :=
  ((List.finRange cacheSize).foldl (fun acc i =>
    if (blocks i).key ≠ badKey ∧ (blocks i).lru < acc.1 then ((blocks i).lru, some i) else acc)
    (noStamp, none)).2

/-- Give block `mini` to the address `k`; its old key is no longer mapped. -/
def swapOut (t : CacheTable) (mini : Fin cacheSize) (k : Nat) : CacheTable :=
  let oldkey := (t.blocks mini).key
  let t := t.modify mini fun blk => { blk with key := badKey, lru := noStamp }
  { t with cache := Function.update (Function.update t.cache oldkey none) k (some mini) }

/-- Give the first free block to the address `k`. -/
def takeFree (t : CacheTable) (b : Fin cacheSize) (rest : List (Fin cacheSize)) (k : Nat) :
    CacheTable :=
  { t with queue := rest, cache := Function.update t.cache k (some b) }

/-! ## The scan -/

theorem foldl_victim (blocks : Fin cacheSize → CacheBlock) (l : List (Fin cacheSize))
    (acc : Nat × Option (Fin cacheSize))
    (hacc : ∀ b, acc.2 = some b → (blocks b).key ≠ badKey ∧ (blocks b).lru = acc.1) :
    let r := l.foldl (fun acc i => if (blocks i).key ≠ badKey ∧ (blocks i).lru < acc.1 then
      ((blocks i).lru, some i) else acc) acc
    (∀ b, r.2 = some b → (blocks b).key ≠ badKey ∧ (blocks b).lru = r.1) ∧ r.1 ≤ acc.1 ∧
      (acc.2.isSome → r.2.isSome) ∧
      ∀ i ∈ l, (blocks i).key ≠ badKey → (blocks i).lru < acc.1 → r.2.isSome := by
  induction l generalizing acc with
  | nil => exact ⟨hacc, Nat.le_refl _, id, fun i hi => by cases hi⟩
  | cons j l ih =>
      rw [List.foldl_cons]
      by_cases hj : (blocks j).key ≠ badKey ∧ (blocks j).lru < acc.1
      · rw [if_pos hj]
        obtain ⟨hkey, hle, hsome, hmem⟩ := ih ((blocks j).lru, some j) (by
          intro b hb
          obtain rfl := Option.some.inj hb
          exact ⟨hj.1, rfl⟩)
        exact ⟨hkey, Nat.le_trans hle (Nat.le_of_lt hj.2), fun _ => hsome rfl, fun _ _ _ _ => hsome rfl⟩
      · rw [if_neg hj]
        obtain ⟨hkey, hle, hsome, hmem⟩ := ih acc hacc
        refine ⟨hkey, hle, hsome, fun i hi hbad hlt => ?_⟩
        rcases List.mem_cons.mp hi with rfl | hi
        · exact absurd ⟨hbad, hlt⟩ hj
        · exact hmem i hi hbad hlt

/-- The block that is swapped out has contents. -/
theorem key_of_victim {blocks : Fin cacheSize → CacheBlock} {b : Fin cacheSize}
    (h : victim blocks = some b) : (blocks b).key ≠ badKey :=
  ((foldl_victim blocks (List.finRange cacheSize) (noStamp, none)
    (fun b hb => by cases hb)).1 b h).1

/-- The scan finds a block when some block has a stamp below `0xffffffff`. -/
theorem exists_victim {blocks : Fin cacheSize → CacheBlock} {i : Fin cacheSize}
    (hkey : (blocks i).key ≠ badKey) (hlru : (blocks i).lru < noStamp) :
    ∃ b, victim blocks = some b :=
  Option.isSome_iff_exists.mp ((foldl_victim blocks (List.finRange cacheSize)
    (noStamp, none) (fun b hb => by cases hb)).2.2.2 i (List.mem_finRange i) hkey hlru)

/-- No block that could be swapped out has a smaller stamp than the scan has found. -/
theorem foldl_victim_le (blocks : Fin cacheSize → CacheBlock) (l : List (Fin cacheSize))
    (acc : Nat × Option (Fin cacheSize)) :
    let r := l.foldl (fun acc i => if (blocks i).key ≠ badKey ∧ (blocks i).lru < acc.1 then
      ((blocks i).lru, some i) else acc) acc
    r.1 ≤ acc.1 ∧ ∀ i ∈ l, (blocks i).key ≠ badKey → r.1 ≤ (blocks i).lru := by
  induction l generalizing acc with
  | nil => exact ⟨Nat.le_refl _, fun i hi => by cases hi⟩
  | cons j l ih =>
      rw [List.foldl_cons]
      obtain ⟨hacc, hle⟩ := ih (if (blocks j).key ≠ badKey ∧ (blocks j).lru < acc.1 then
        ((blocks j).lru, some j) else acc)
      refine ⟨Nat.le_trans hacc ?_, fun i hi hkey => ?_⟩
      · split
        · rename_i hj
          exact Nat.le_of_lt hj.2
        · exact Nat.le_refl _
      · rcases List.mem_cons.mp hi with rfl | hi
        · refine Nat.le_trans hacc ?_
          split
          · exact Nat.le_refl _
          · rename_i hj
            exact Nat.le_of_not_lt fun hlt => hj ⟨hkey, hlt⟩
        · exact hle i hi hkey

/-- The block with the smallest stamp is swapped out. -/
theorem victim_eq {blocks : Fin cacheSize → CacheBlock} {b : Fin cacheSize} (hkey : (blocks b).key ≠ badKey)
    (hlru : (blocks b).lru < noStamp)
    (hmin : ∀ i, i ≠ b → (blocks i).key ≠ badKey → (blocks b).lru < (blocks i).lru) :
    victim blocks = some b := by
  obtain ⟨b', hb'⟩ := exists_victim hkey hlru
  have hstamp := ((foldl_victim blocks (List.finRange cacheSize) (noStamp, none) (fun b hb => by cases hb)).1 b' hb').2
  have hle := (foldl_victim_le blocks (List.finRange cacheSize) (noStamp, none)).2 b (List.mem_finRange b) hkey
  rw [← hstamp] at hle
  by_cases hne : b' = b
  · rw [hb', hne]
  · have hlt := hmin b' hne (key_of_victim hb')
    omega

end CacheTable

end Dogee
