import Dogee.MemcachedFlat
import Mathlib.Data.List.GetD

/-!
# Shared arrays

An element of an array has four or eight bytes, one word of shared memory or
two. `operator[]` scales the index by the size of an element; `CopyTo` and
`CopyFrom` pass the index on as it is, and the typed calls of the storage
scale the length only. `Fill` goes through a local buffer of 256 elements.
The calls are those of the storage interface, and their meaning is that of flat
memory, which the block backend implements.
-/

namespace Dogee.SharedArray

/-- `sizeof(T)` -/
inductive Width
  | four
  | eight
deriving DecidableEq

/-- `DSMInterface<T>::dsm_size_of` -/
def Width.dsmSizeOf : Width → Nat
  | .four => 1
  | .eight => 2

/-- The type that `CopyType` casts to. -/
def Width.Elem : Width → Type
  | .four => Word
  | .eight => UInt64

/-- The words of an element, low half first. -/
def Width.words : (w : Width) → w.Elem → List Word
  | .four, v => [v]
  | .eight, v => words64 v

/-- `FieldKey key = k * dsm_size_of` -/
def arrayAccess (w : Width) (k : Nat) : Nat := k * w.dsmSizeOf % two32

/-- `DSMInterface<T>::get_value` -/
def getValue : Width → Nat → Nat → Call
  | .four, key, fldid => .get key fldid
  | .eight, key, fldid => .getchunk64 key fldid 1 [0, 0]

/-- `CopyTo`; the words of the local array are those of its elements. -/
def copyTo : Width → Nat → List Word → Nat → Nat → Call
  | .four, key, localarr, startIndex, copyLen => .getchunk key startIndex copyLen localarr
  | .eight, key, localarr, startIndex, copyLen => .getchunk64 key startIndex copyLen localarr

def copyFrom : (w : Width) → Nat → List w.Elem → Nat → Nat → Call
  | .four, key, localarr, startIndex, copyLen => .putchunk key startIndex (localarr.take copyLen)
  | .eight, key, localarr, startIndex, copyLen => .putchunk64 key startIndex (localarr.take copyLen)

/-- The words of the element `k` of the array `key`, read by `operator[]`. -/
def element (w : Width) (m : Memory) (key k : Nat) : List Word :=
  ((getValue w key (arrayAccess w k)).flat m).1

/-- The words of the element `j` of a local array. -/
def localElement (w : Width) (localarr : List Word) (j : Nat) : List Word :=
  (localarr.drop (j * w.dsmSizeOf)).take w.dsmSizeOf

/-- `CopyTo` gives the elements that `operator[]` reads. -/
def CopyToAgrees (w : Width) (key s n : Nat) (m : Memory) : Prop :=
  ∀ localarr, localarr.length = n * w.dsmSizeOf → ∀ j < n,
    localElement w ((copyTo w key localarr s n).flat m).1 j = element w m key (s + j)

/-- After `CopyFrom` the elements that `operator[]` reads are those of the local array, and all others
are unchanged. -/
def CopyFromAgrees (w : Width) (key s n : Nat) (m : Memory) (localarr : List w.Elem) : Prop :=
  (∀ j < n, ∀ v, localarr[j]? = some v →
    element w ((copyFrom w key localarr s n).flat m).2 key (s + j) = w.words v) ∧
  ∀ key' k, (k + 1) * w.dsmSizeOf ≤ two32 → ¬(key' = key ∧ s ≤ k ∧ k < s + n) →
    element w ((copyFrom w key localarr s n).flat m).2 key' k = element w m key' k

section Bulk

variable {w : Width} {key s n k : Nat} {m : Memory}

theorem length_words (w : Width) (v : w.Elem) : (w.words v).length = w.dsmSizeOf := by
  cases w with
  | four => rfl
  | eight => rfl

theorem dsmSizeOf_pos (w : Width) : 0 < w.dsmSizeOf := by
  cases w <;> decide

/-- `operator[]` reads at the scaled index. -/
theorem element_eq (h : (k + 1) * w.dsmSizeOf ≤ two32) :
    element w m key k = m.read key (k * w.dsmSizeOf) w.dsmSizeOf := by
  have hlt : k * w.dsmSizeOf < two32 := by
    have hpos := dsmSizeOf_pos w
    rw [Nat.add_mul] at h
    omega
  unfold element arrayAccess
  rw [Nat.mod_eq_of_lt hlt]
  cases w with
  | four => rfl
  | eight => rfl

/-- `CopyTo` reads at the index as it is. -/
theorem copyTo_eq (localarr : List Word) :
    ((copyTo w key localarr s n).flat m).1 = m.read key s (n * w.dsmSizeOf) := by
  cases w with
  | four => exact congrArg (m.read key s) (Nat.mul_one n).symm
  | eight => rfl

/-- `CopyFrom` writes at the index as it is. -/
theorem copyFrom_eq (localarr : List w.Elem) :
    ((copyFrom w key localarr s n).flat m).2 = m.write key s ((localarr.take n).flatMap w.words) := by
  cases w with
  | four =>
      have hwords : (localarr.take n).flatMap (Width.words .four) = localarr.take n :=
        List.flatMap_singleton' _
      rw [hwords]
      rfl
  | eight => rfl

theorem localElement_copyTo (localarr : List Word) {j : Nat} (hj : j < n) :
    localElement w ((copyTo w key localarr s n).flat m).1 j =
      m.read key (s + j * w.dsmSizeOf) w.dsmSizeOf := by
  rw [localElement, copyTo_eq]
  apply Memory.slice_read
  calc
    j * w.dsmSizeOf + w.dsmSizeOf = (j + 1) * w.dsmSizeOf := (Nat.succ_mul j w.dsmSizeOf).symm
    _ ≤ n * w.dsmSizeOf := Nat.mul_le_mul_right _ hj

theorem length_flatMap_words (localarr : List w.Elem) :
    (localarr.flatMap w.words).length = localarr.length * w.dsmSizeOf := by
  induction localarr with
  | nil => exact (Nat.zero_mul _).symm
  | cons v rest ih =>
      rw [List.flatMap_cons, List.length_append, length_words, ih, List.length_cons, Nat.succ_mul,
        Nat.add_comm]

/-- The words of one element of a local array. -/
theorem localElement_flatMap {localarr : List w.Elem} {j : Nat} {v : w.Elem}
    (hv : localarr[j]? = some v) : localElement w (localarr.flatMap w.words) j = w.words v := by
  unfold localElement
  induction localarr generalizing j with
  | nil => cases hv
  | cons u rest ih =>
      rw [List.flatMap_cons]
      cases j with
      | zero =>
          obtain rfl : u = v := Option.some.inj hv
          rw [Nat.zero_mul, List.drop_zero, List.take_left' (length_words w u)]
      | succ j =>
          rw [Nat.succ_mul, Nat.add_comm, ← List.drop_drop, List.drop_left' (length_words w u)]
          exact ih hv

/-- When scaling the start index changes nothing, `CopyTo` agrees. -/
theorem copyToAgrees_of_scaled (hscaled : s * w.dsmSizeOf = s) (hsize : (s + n) * w.dsmSizeOf ≤ two32)
    (m : Memory) : CopyToAgrees w key s n m := by
  intro localarr _ j hj
  have hin : (s + j + 1) * w.dsmSizeOf ≤ two32 :=
    Nat.le_trans (Nat.mul_le_mul_right _ (by omega)) hsize
  rw [localElement_copyTo localarr hj, element_eq hin, Nat.add_mul, hscaled]

theorem copyFromAgrees_of_scaled (hscaled : s * w.dsmSizeOf = s) (hsize : (s + n) * w.dsmSizeOf ≤ two32)
    (m : Memory) {localarr : List w.Elem} (hlength : n ≤ localarr.length) :
    CopyFromAgrees w key s n m localarr := by
  have htake : (localarr.take n).length = n := by
    rw [List.length_take]
    omega
  have hwords : ((localarr.take n).flatMap w.words).length = n * w.dsmSizeOf := by
    rw [length_flatMap_words, htake]
  constructor
  · intro j hj v hv
    have hin : (s + j + 1) * w.dsmSizeOf ≤ two32 :=
      Nat.le_trans (Nat.mul_le_mul_right _ (by omega)) hsize
    have hinside : j * w.dsmSizeOf + w.dsmSizeOf ≤ ((localarr.take n).flatMap w.words).length := by
      rw [hwords, ← Nat.succ_mul]
      exact Nat.mul_le_mul_right _ hj
    have hvn : (localarr.take n)[j]? = some v := by
      rw [List.getElem?_take_of_lt hj]
      exact hv
    rw [copyFrom_eq, element_eq hin, Nat.add_mul, hscaled, Memory.read_write_inside _ _ _ hinside]
    exact localElement_flatMap hvn
  · intro key' k hk hother
    rw [copyFrom_eq, element_eq hk, element_eq hk]
    apply Memory.read_write_outside
    rw [hwords]
    by_cases hkey : key' = key
    · right
      rcases Nat.lt_or_ge k s with hlt | hge
      · left
        calc
          k * w.dsmSizeOf + w.dsmSizeOf = (k + 1) * w.dsmSizeOf := (Nat.succ_mul k w.dsmSizeOf).symm
          _ ≤ s * w.dsmSizeOf := Nat.mul_le_mul_right _ hlt
          _ = s := hscaled
      · right
        have hle : s + n ≤ k := by
          by_contra hlt
          exact hother ⟨hkey, hge, Nat.lt_of_not_le hlt⟩
        calc
          s + n * w.dsmSizeOf = s * w.dsmSizeOf + n * w.dsmSizeOf := by rw [hscaled]
          _ = (s + n) * w.dsmSizeOf := (Nat.add_mul s n w.dsmSizeOf).symm
          _ ≤ k * w.dsmSizeOf := Nat.mul_le_mul_right _ hle
    · exact Or.inl hkey

/-- Copying nothing agrees. -/
theorem copyFromAgrees_of_empty (m : Memory) (localarr : List w.Elem) :
    CopyFromAgrees w key s 0 m localarr := by
  have hsame : ((copyFrom w key localarr s 0).flat m).2 = m := by
    rw [copyFrom_eq]
    exact Memory.write_nil m key s
  constructor
  · intro j hj
    exact absurd hj (Nat.not_lt_zero j)
  · intro key' k _ _
    rw [hsame]

theorem element_at (hsize : (s + n) * w.dsmSizeOf ≤ two32) (hn : 0 < n) :
    element w m key s = m.read key (s * w.dsmSizeOf) w.dsmSizeOf := by
  apply element_eq
  exact Nat.le_trans (Nat.mul_le_mul_right _ (Nat.add_le_add_left hn s)) hsize

/-- With eight bytes and a start index above 0, `CopyTo` reads other words than `operator[]`. -/
theorem copyTo_differs (key : Nat) (hs : 0 < s) (hn : 0 < n) (hsize : (s + n) * 2 ≤ two32) :
    ∃ m, ¬CopyToAgrees .eight key s n m := by
  refine ⟨fun _ i => if i = s * 2 then 1 else 0, ?_⟩
  intro hagrees
  have hfirst := hagrees (List.replicate (n * 2) 0) List.length_replicate 0 hn
  rw [localElement_copyTo _ hn, Nat.zero_mul, Nat.add_zero, element_at hsize hn] at hfirst
  have hhead := congrArg List.head? hfirst
  have hne : s ≠ s * 2 := by omega
  simp [Memory.read, Width.dsmSizeOf, List.range_succ_eq_map, hne] at hhead

/-- An element with a small value. -/
def Width.value : (w : Width) → Nat → w.Elem
  | .four, n => UInt32.ofNat n
  | .eight, n => UInt64.ofNat n

/-- A local array of one element that is 1, and zeros. -/
def oneThenZeros (n : Nat) : List Width.eight.Elem :=
  Width.eight.value 1 :: List.replicate (n - 1) (Width.eight.value 0)

theorem words_oneThenZeros (n : Nat) :
    (oneThenZeros n).flatMap Width.eight.words = 1 :: List.replicate ((n - 1) * 2 + 1) 0 := by
  have hzeros : ∀ k, (List.replicate k (Width.eight.value 0)).flatMap Width.eight.words =
      List.replicate (k * 2) 0 := by
    intro k
    induction k with
    | zero => rfl
    | succ k ih =>
        rw [List.replicate_succ, List.flatMap_cons, ih, Nat.succ_mul]
        rfl
  rw [oneThenZeros, List.flatMap_cons, hzeros]
  rfl

/-- With eight bytes and a start index above 0, `CopyFrom` writes other words than `operator[]` reads. -/
theorem copyFrom_differs (key : Nat) (hs : 0 < s) (hn : 0 < n) (hsize : (s + n) * 2 ≤ two32) :
    n ≤ (oneThenZeros n).length ∧ ¬CopyFromAgrees .eight key s n Memory.empty (oneThenZeros n) := by
  have hlength : (oneThenZeros n).length = n := by
    rw [oneThenZeros, List.length_cons, List.length_replicate]
    omega
  refine ⟨Nat.le_of_eq hlength.symm, ?_⟩
  rintro ⟨hwritten, -⟩
  have hfirst := hwritten 0 hn (Width.eight.value 1) rfl
  have htake : (oneThenZeros n).take n = oneThenZeros n := List.take_of_length_le (Nat.le_of_eq hlength)
  rw [copyFrom_eq, Nat.add_zero, element_at hsize hn, htake, words_oneThenZeros] at hfirst
  have hhead := congrArg List.head? hfirst
  -- the low half of the element is past the first word that was written
  have hword : Memory.empty.write key s (1 :: List.replicate ((n - 1) * 2 + 1) 0) key (s * 2) = 0 := by
    obtain ⟨k, rfl⟩ := Nat.exists_eq_succ_of_ne_zero (Nat.ne_of_gt hs)
    have hoffset : (k + 1) * 2 - (k + 1) = k + 1 := by omega
    unfold Memory.write
    split
    · rename_i hinside
      rw [hoffset, List.getD_cons_succ]
      apply List.getD_replicate
      rw [List.length_cons, List.length_replicate] at hinside
      omega
    · rfl
  have hone : (Width.eight.words (Width.eight.value 1)).head? = some 1 := rfl
  rw [hone] at hhead
  simp [Memory.read, Width.dsmSizeOf, List.range_succ_eq_map, hword] at hhead

/-! ## The block backend -/

open Memcached

/-- The block backend computes the three calls. -/
structure OnBlocks (w : Width) (key s n size : Nat) : Prop where
  copyTo : ∀ localarr, localarr.length = n * w.dsmSizeOf →
    Meets chunkCall Chunk.memory Chunk.Whole (copyTo w key localarr s n)
  copyFrom : ∀ localarr, n ≤ localarr.length →
    Meets chunkCall Chunk.memory Chunk.Whole (copyFrom w key localarr s n)
  element : ∀ k < size, Meets chunkCall Chunk.memory Chunk.Whole (getValue w key (arrayAccess w k))

theorem onBlocks {size : Nat} (hkey : key < two32) (hin : s + n ≤ size)
    (hsize : size * w.dsmSizeOf ≤ wordLimit) : OnBlocks w key s n size := by
  have hrange : s + n * w.dsmSizeOf ≤ wordLimit := by
    calc
      s + n * w.dsmSizeOf ≤ s * w.dsmSizeOf + n * w.dsmSizeOf :=
        Nat.add_le_add_right (Nat.le_mul_of_pos_right s (dsmSizeOf_pos w)) _
      _ = (s + n) * w.dsmSizeOf := (Nat.add_mul s n w.dsmSizeOf).symm
      _ ≤ size * w.dsmSizeOf := Nat.mul_le_mul_right _ hin
      _ ≤ wordLimit := hsize
  constructor
  · intro localarr hlength
    apply chunk_meets
    cases w with
    | four =>
        rw [Width.dsmSizeOf, Nat.mul_one] at hrange hlength
        exact ⟨hkey, hrange, hlength⟩
    | eight => exact ⟨hkey, hrange, hlength⟩
  · intro localarr hlength
    have htake : (localarr.take n).length = n := by
      rw [List.length_take]
      omega
    apply chunk_meets
    cases w with
    | four =>
        rw [Width.dsmSizeOf, Nat.mul_one] at hrange
        refine ⟨hkey, ?_⟩
        exact Nat.le_trans (Nat.le_of_eq (congrArg (s + ·) htake)) hrange
    | eight =>
        refine ⟨hkey, ?_⟩
        exact Nat.le_trans (Nat.le_of_eq (congrArg (fun l => s + l * 2) htake)) hrange
  · intro k hk
    have hlast : k * w.dsmSizeOf + w.dsmSizeOf ≤ wordLimit := by
      rw [← Nat.succ_mul]
      exact Nat.le_trans (Nat.mul_le_mul_right _ hk) hsize
    have hmod : arrayAccess w k = k * w.dsmSizeOf := by
      apply Nat.mod_eq_of_lt
      have hlimit := wordLimit_lt
      omega
    apply chunk_meets
    rw [hmod]
    cases w with
    | four => exact ⟨hkey, hlast⟩
    | eight => exact ⟨hkey, hlast, rfl⟩

end Bulk

/-- Bulk and element access agree, for every contents of the array and of the buffer, exactly when the
elements have four bytes, or the copy starts at 0, or it is empty. The block backend computes these calls
for every array below its limit. -/
theorem bulk_agrees_iff (w : Width) (key : Nat) {size s n : Nat} (hin : s + n ≤ size)
    (hsize : size * w.dsmSizeOf ≤ two32) :
    ((∀ m, CopyToAgrees w key s n m) ↔ w = .four ∨ s = 0 ∨ n = 0) ∧
    ((∀ m localarr, n ≤ localarr.length → CopyFromAgrees w key s n m localarr) ↔
      w = .four ∨ s = 0 ∨ n = 0) ∧
    (key < two32 → size * w.dsmSizeOf ≤ wordLimit → OnBlocks w key s n size) := by
  have hwords : (s + n) * w.dsmSizeOf ≤ two32 := Nat.le_trans (Nat.mul_le_mul_right _ hin) hsize
  have hscaled : w = .four ∨ s = 0 → s * w.dsmSizeOf = s := by
    rintro (rfl | rfl)
    · exact Nat.mul_one s
    · exact Nat.zero_mul _
  refine ⟨⟨?_, ?_⟩, ⟨?_, ?_⟩, fun hkey hlimit => onBlocks hkey hin hlimit⟩
  · intro hagrees
    cases w with
    | four => exact Or.inl rfl
    | eight =>
        by_contra hnot
        push Not at hnot
        obtain ⟨m, hm⟩ := copyTo_differs key (Nat.pos_of_ne_zero hnot.2.1) (Nat.pos_of_ne_zero hnot.2.2) hwords
        exact hm (hagrees m)
  · rintro (rfl | rfl | rfl) m
    · exact copyToAgrees_of_scaled (hscaled (Or.inl rfl)) hwords m
    · exact copyToAgrees_of_scaled (hscaled (Or.inr rfl)) hwords m
    · intro localarr _ j hj
      exact absurd hj (Nat.not_lt_zero j)
  · intro hagrees
    cases w with
    | four => exact Or.inl rfl
    | eight =>
        by_contra hnot
        push Not at hnot
        obtain ⟨hlength, hdiffers⟩ :=
          copyFrom_differs key (Nat.pos_of_ne_zero hnot.2.1) (Nat.pos_of_ne_zero hnot.2.2) hwords
        exact hdiffers (hagrees _ _ hlength)
  · rintro (rfl | rfl | rfl) m localarr hlength
    · exact copyFromAgrees_of_scaled (hscaled (Or.inl rfl)) hwords m hlength
    · exact copyFromAgrees_of_scaled (hscaled (Or.inr rfl)) hwords m hlength
    · exact copyFromAgrees_of_empty m localarr

/-- Five elements of an array of ten integers, from the fourth on. -/
theorem bulk_agrees_integers :
    (∀ m, CopyToAgrees .four 1 3 5 m) ∧
      ∀ m localarr, 5 ≤ localarr.length → CopyFromAgrees .four 1 3 5 m localarr := by
  have hagrees := bulk_agrees_iff .four 1 (show 3 + 5 ≤ 10 by decide) (by decide)
  exact ⟨hagrees.1.mpr (Or.inl rfl), hagrees.2.1.mpr (Or.inl rfl)⟩

/-- The second of two doubles: `CopyTo` gives the high half of the first and the low half of the second,
and `CopyFrom` writes there. -/
theorem second_double_differs :
    1 + 1 ≤ 2 ∧ 2 * Width.eight.dsmSizeOf ≤ wordLimit ∧
      ¬CopyToAgrees .eight 1 1 1 (fun _ i => if i = 2 then 20 else 0) ∧
      ¬CopyFromAgrees .eight 1 1 1 Memory.empty [Width.eight.value 7] := by
  refine ⟨by decide, by decide, ?_, ?_⟩
  · intro hagrees
    have hfirst := hagrees [0, 0] rfl 0 (by decide)
    exact absurd hfirst (by decide)
  · rintro ⟨hwritten, -⟩
    have hfirst := hwritten 0 (by decide) (Width.eight.value 7) rfl
    exact absurd hfirst (by decide)

/-! ## Filling an array -/

/-- The size of the local buffer, `DSM_CACHE_BLOCK_SIZE * 8`. -/
def bsize : Nat := blockSize * 8

/-- Where `Fill` is: its local buffer, the arguments that `func` has been called with, and the calls of the
storage. -/
structure Filling where
  blk : List Word
  called : List Nat
  calls : List Call

/-- `blk[j] = func(i)` -/
def Filling.assign (func : Nat → Word) (f : Filling) (j i : Nat) : Filling :=
  { f with blk := f.blk.set j (func i), called := f.called ++ [i] }

/-- `CopyFrom(blk, start_index, copy_len)` -/
def Filling.copyFrom (f : Filling) (key startIndex copyLen : Nat) : Filling :=
  { f with calls := f.calls ++ [SharedArray.copyFrom .four key f.blk startIndex copyLen] }

/-- One whole block. -/
def fillBlock (func : Nat → Word) (key startIndex : Nat) (f : Filling) (i : Nat) : Filling :=
  ((List.range bsize).foldl (fun f j => f.assign func j (i * bsize + j)) f).copyFrom key
    ((startIndex + i * bsize) % two32) bsize

/-- `Fill` for elements of four bytes; the local buffer is not initialised. -/
def fill (func : Nat → Word) (key startIndex len : Nat) (blk : List Word) : Filling :=
  let f := (List.range (len / bsize)).foldl (fillBlock func key startIndex) ⟨blk, [], []⟩
  let remainStart := len / bsize * bsize
  ((List.range' remainStart (len - remainStart)).foldl (fun f j => f.assign func (j - remainStart) j) f).copyFrom
    key ((startIndex + remainStart) % two32) (len - remainStart)

section Fill

variable (func : Nat → Word) (key : Nat) {s n : Nat}

/-- The elements that `func` gives from `base` on. -/
def values (func : Nat → Word) (base n : Nat) : List Word := (List.range n).map fun j => func (base + j)

theorem values_add (base a b : Nat) :
    values func base (a + b) = values func base a ++ values func (base + a) b := by
  unfold values
  rw [List.range_add, List.map_append, List.map_map]
  congr 1
  apply List.map_congr_left
  intro j _
  exact congrArg func (Nat.add_assoc base a j).symm

theorem length_values (base n : Nat) : (values func base n).length = n := by
  rw [values, List.length_map, List.length_range]

/-- The loop over the local buffer. -/
theorem assign_range (f : Filling) (base : Nat) (hn : n ≤ f.blk.length) :
    ∃ f', (List.range n).foldl (fun f j => f.assign func j (base + j)) f = f' ∧
      f'.blk.length = f.blk.length ∧ f'.blk.take n = values func base n ∧
      f'.called = f.called ++ List.range' base n ∧ f'.calls = f.calls := by
  induction n with
  | zero => exact ⟨f, rfl, rfl, rfl, (List.append_nil _).symm, rfl⟩
  | succ n ih =>
      obtain ⟨f', hfold, hlength, htake, hcalled, hcalls⟩ := ih (Nat.le_of_succ_le hn)
      refine ⟨f'.assign func n (base + n), ?_, ?_, ?_, ?_, hcalls⟩
      · rw [List.range_succ, List.foldl_append, hfold]
        rfl
      · rw [← hlength]
        exact List.length_set
      · have hlt : n < f'.blk.length := by omega
        show (f'.blk.set n (func (base + n))).take (n + 1) = values func base (n + 1)
        rw [List.take_add_one, List.take_set_of_le (Nat.le_refl n), List.getElem?_set_self hlt, htake, values_add]
        rfl
      · show f'.called ++ [base + n] = _
        rw [hcalled, List.append_assoc, List.range'_concat]
        simp

theorem flatRun_concat (calls : List Call) (c : Call) (m : Memory) :
    (flatRun (calls ++ [c]) m).2 = (c.flat (flatRun calls m).2).2 := by
  induction calls generalizing m with
  | nil => rfl
  | cons d calls ih => exact ih (d.flat m).2

/-- What has been filled: the first `n` values, from the start index on. -/
structure Filled (func : Nat → Word) (key s n : Nat) (f : Filling) : Prop where
  length : f.blk.length = bsize
  called : f.called = List.range n
  memory : ∀ m, (flatRun f.calls m).2 = m.write key s (values func 0 n)
  calls : ∀ c ∈ f.calls, ∃ start vs, c = .putchunk key start vs ∧ start + vs.length ≤ s + n

variable {func key}

/-- A local buffer with the next values is copied behind those that have been filled. -/
theorem Filled.next {f f' : Filling} {a b : Nat} (hf : Filled func key s a f) (hlength : f'.blk.length = bsize)
    (htake : f'.blk.take b = values func a b) (hcalled : f'.called = f.called ++ List.range' a b)
    (hcalls : f'.calls = f.calls) (hs : s + a + b ≤ two32) :
    Filled func key s (a + b) (f'.copyFrom key ((s + a) % two32) b) := by
  refine ⟨hlength, ?_, ?_, ?_⟩
  · show f'.called = List.range (a + b)
    rw [hcalled, hf.called, List.range_eq_range', List.range_eq_range', ← List.range'_append_1]
    simp
  · intro m
    have hcopied : (SharedArray.copyFrom .four key f'.blk ((s + a) % two32) b).flat (m.write key s (values func 0 a))
        = ([], (m.write key s (values func 0 a)).write key ((s + a) % two32) (values func a b)) := by
      rw [← htake]
      rfl
    show (flatRun (f'.calls ++ [SharedArray.copyFrom .four key f'.blk ((s + a) % two32) b]) m).2 = _
    rw [flatRun_concat, hcalls, hf.memory, hcopied, values_add, Nat.zero_add, Memory.write_append, length_values]
    -- the sum only wraps when nothing is left to copy
    rcases Nat.eq_zero_or_pos b with rfl | hb
    · exact (Memory.write_nil _ _ _).trans (Memory.write_nil _ _ _).symm
    · rw [Nat.mod_eq_of_lt (by omega)]
  · intro c hc
    rcases List.mem_append.mp hc with hold | hnew
    · obtain ⟨start, vs, hput, hle⟩ := hf.calls c (hcalls ▸ hold)
      exact ⟨start, vs, hput, by omega⟩
    · have hmod := Nat.mod_le (s + a) two32
      have hshort : (f'.blk.take b).length ≤ b := List.length_take_le b f'.blk
      exact ⟨_, _, List.mem_singleton.mp hnew, by omega⟩

theorem filled_fillBlock {f : Filling} {i : Nat} (hf : Filled func key s (i * bsize) f)
    (hs : s + i * bsize + bsize ≤ two32) :
    Filled func key s ((i + 1) * bsize) (fillBlock func key s f i) := by
  obtain ⟨f', hfold, hlength, htake, hcalled, hcalls⟩ :=
    assign_range func f (i * bsize) (Nat.le_of_eq hf.length.symm)
  rw [Nat.succ_mul]
  unfold fillBlock
  rw [hfold]
  exact hf.next (hlength.trans hf.length) htake hcalled hcalls hs

/-- The loop over the whole blocks. -/
theorem filled_blocks {blk : List Word} (hblk : blk.length = bsize) (count : Nat)
    (hs : s + count * bsize ≤ two32) :
    Filled func key s (count * bsize) ((List.range count).foldl (fillBlock func key s) ⟨blk, [], []⟩) := by
  induction count with
  | zero =>
      refine ⟨hblk, rfl, ?_, ?_⟩
      · intro m
        exact (Memory.write_nil m key s).symm
      · intro c hc
        cases hc
  | succ count ih =>
      rw [Nat.succ_mul] at hs
      rw [List.range_succ, List.foldl_append]
      exact filled_fillBlock (ih (by omega)) (by omega)

/-- `Fill` writes the values of `func` at 0, 1 and so on, from the start index on. -/
theorem filled_fill {blk : List Word} (hblk : blk.length = bsize) (hs : s + n ≤ two32) :
    Filled func key s n (fill func key s n blk) := by
  have hwhole : n / bsize * bsize ≤ n := Nat.div_mul_le_self n bsize
  have hrest : n - n / bsize * bsize ≤ bsize := by
    have hmod := Nat.mod_lt n (show 0 < bsize by decide)
    have hdiv := Nat.div_add_mod n bsize
    rw [Nat.mul_comm] at hdiv
    omega
  have hblocks : Filled func key s (n / bsize * bsize) _ := filled_blocks hblk (n / bsize) (by omega)
  obtain ⟨f', hfold, hlength, htake, hcalled, hcalls⟩ := assign_range func
    ((List.range (n / bsize)).foldl (fillBlock func key s) ⟨blk, [], []⟩) (n / bsize * bsize)
    (Nat.le_trans hrest (Nat.le_of_eq hblocks.length.symm))
  have hlast := hblocks.next (hlength.trans hblocks.length) htake hcalled hcalls (by omega)
  rw [Nat.add_sub_cancel' hwhole] at hlast
  unfold fill
  dsimp only
  rw [List.range'_eq_map_range, List.foldl_map]
  simp only [Nat.add_sub_cancel_left]
  rw [hfold]
  exact hlast

/-- After `Fill` every element in the range is the value of `func` at its index, every other element is
unchanged, and `func` has been called once for each index. -/
def FillMeets (func : Nat → Word) (key s n : Nat) (m : Memory) (blk : List Word) : Prop :=
  (∀ i, s ≤ i → i < s + n → element .four (flatRun (fill func key s n blk).calls m).2 key i = [func i]) ∧
  (∀ key' i, i < two32 → ¬(key' = key ∧ s ≤ i ∧ i < s + n) →
    element .four (flatRun (fill func key s n blk).calls m).2 key' i = element .four m key' i) ∧
  (fill func key s n blk).called.Perm (List.range' s n)

theorem element_four (m : Memory) (k : Nat) {i : Nat} (hi : i < two32) : element .four m k i = [m k i] := by
  have hbound : (i + 1) * Width.four.dsmSizeOf ≤ two32 := by
    rw [Width.dsmSizeOf, Nat.mul_one]
    exact hi
  rw [element_eq hbound, Width.dsmSizeOf, Nat.mul_one]
  rfl

/-- When the range starts at 0, the indices are the arguments of `func`. -/
theorem fillMeets_zero {blk : List Word} (hblk : blk.length = bsize) (hn : n ≤ two32) (m : Memory) :
    FillMeets func key 0 n m blk := by
  have hfill : Filled func key 0 n (fill func key 0 n blk) := filled_fill hblk (by omega)
  refine ⟨?_, ?_, ?_⟩
  · intro i _ hi
    rw [element_four _ _ (by omega), hfill.memory, Memory.write, length_values, if_pos ⟨rfl, by omega, hi⟩]
    rw [Nat.zero_add] at hi
    simp [values, hi]
  · intro key' i hi hother
    rw [element_four _ _ hi, element_four _ _ hi, hfill.memory, Memory.write, length_values, if_neg hother]
  · rw [hfill.called, List.range_eq_range']

theorem fillMeets_empty {blk : List Word} (hblk : blk.length = bsize) (hs : s ≤ two32) (m : Memory) :
    FillMeets func key s 0 m blk := by
  have hfill : Filled func key s 0 (fill func key s 0 blk) := filled_fill hblk hs
  refine ⟨?_, ?_, ?_⟩
  · intro i hle hlt
    omega
  · intro key' i _ _
    rw [hfill.memory]
    exact congrArg (fun m' => element .four m' key' i) (Memory.write_nil m key s)
  · rw [hfill.called]
    exact List.Perm.refl []

end Fill

/-- `Fill` does what it is documented to do exactly when it starts at 0 or fills nothing: `func` is called
with the position in the range, and never with the index. The block backend computes its calls for every
array below its limit. -/
theorem fill_meets_iff (func : Nat → Word) (key : Nat) {size s n : Nat} (m : Memory) {blk : List Word}
    (hblk : blk.length = bsize) (hin : s + n ≤ size) (hsize : size ≤ two32) :
    (FillMeets func key s n m blk ↔ s = 0 ∨ n = 0) ∧
    (key < two32 → size ≤ wordLimit → ∀ c ∈ (fill func key s n blk).calls,
      Memcached.Meets Memcached.chunkCall Memcached.Chunk.memory Memcached.Chunk.Whole c) := by
  have hfill : Filled func key s n (fill func key s n blk) := filled_fill hblk (Nat.le_trans hin hsize)
  refine ⟨⟨?_, ?_⟩, ?_⟩
  · rintro ⟨-, -, hcalled⟩
    rcases Nat.eq_zero_or_pos n with hn | hn
    · exact Or.inr hn
    · left
      rw [hfill.called] at hcalled
      have hmem := hcalled.subset (List.mem_range.mpr hn)
      exact Nat.le_zero.mp (List.mem_range'_1.mp hmem).1
  · rintro (rfl | rfl)
    · exact fillMeets_zero hblk (by omega) m
    · exact fillMeets_empty hblk (by omega) m
  · intro hkey hlimit c hc
    obtain ⟨start, vs, rfl, hle⟩ := hfill.calls c hc
    apply Memcached.chunk_meets
    exact ⟨hkey, by omega⟩

/-- The first three hundred elements of an array of a thousand. -/
theorem fill_meets_from_zero :
    FillMeets (fun i => UInt32.ofNat (i + 5)) 1 0 300 Memory.empty (List.replicate bsize 0) := by
  have hblk : (List.replicate bsize (0 : Word)).length = bsize := List.length_replicate
  have hfill := fill_meets_iff (fun i => UInt32.ofNat (i + 5)) 1 Memory.empty hblk
    (show 0 + 300 ≤ 1000 by decide) (by decide)
  exact hfill.1.mpr (Or.inl rfl)

/-- The second element of an array of two gets the value of `func` at 0. -/
theorem fill_second_element :
    1 + 1 ≤ 2 ∧ (List.replicate bsize (0 : Word)).length = bsize ∧
      ¬FillMeets (fun i => UInt32.ofNat (i + 5)) 1 1 1 Memory.empty (List.replicate bsize 0) := by
  refine ⟨by decide, List.length_replicate, ?_⟩
  rintro ⟨hvalue, -, -⟩
  have hsecond := hvalue 1 (Nat.le_refl 1) (by decide)
  exact absurd hsecond (by decide +kernel)

end Dogee.SharedArray
