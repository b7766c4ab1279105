import Dogee.AccumulatorBuffer
import Mathlib.Data.Set.BooleanAlgebra
import Mathlib.Order.CompletePartialOrder
import Mathlib.Order.Interval.Set.Basic
import Mathlib.Tactic.Ring

/-!
# Segments

On fewer than 2^27 nodes the 32-bit arithmetic does not wrap, and the segments of
the nodes cut the vector into consecutive parts. On more nodes it does: node
2^27 - 1 then has a segment that no sender knows of.
-/

namespace Dogee.Accumulator

theorem le_ceilDiv_mul (a : Nat) {b : Nat} (hb : 0 < b) : a ≤ ceilDiv a b * b := by
  have hdiv := Nat.div_add_mod a b
  have hmod := Nat.mod_lt a hb
  rw [ceilDiv]
  split
  · rw [Nat.mul_comm]
    omega
  · rw [Nat.add_mul, Nat.mul_comm]
    omega

theorem ceilDiv_mul_lt (a : Nat) {b : Nat} (hb : 0 < b) : ceilDiv a b * b < a + b := by
  have hdiv := Nat.div_add_mod a b
  rw [ceilDiv]
  split
  · rw [Nat.mul_comm]
    omega
  · rw [Nat.add_mul, Nat.mul_comm]
    omega

section

variable {sz n : Nat}

theorem le_blocks (sz : Nat) (hn : 0 < n) : sz ≤ n * segmentBlocks sz n * blockSize := by
  have hfirst := le_ceilDiv_mul sz (show 0 < blockSize by decide)
  have hsecond := le_ceilDiv_mul (ceilDiv sz blockSize) hn
  rw [segmentBlocks, Nat.mul_comm n]
  exact Nat.le_trans hfirst (Nat.mul_le_mul_right blockSize hsecond)

/-- With more nodes than blocks a segment has at most one block. -/
theorem segmentBlocks_le_one (h : ceilDiv sz blockSize ≤ n) (hn : 0 < n) :
    segmentBlocks sz n ≤ 1 := by
  have hlt := ceilDiv_mul_lt (ceilDiv sz blockSize) hn
  by_contra hgt
  have htwo : 2 * n ≤ segmentBlocks sz n * n := Nat.mul_le_mul_right n (by omega)
  rw [segmentBlocks] at htwo
  omega

theorem ceilDiv_le_of_small (hsz : sz ≤ maxWords) : ceilDiv sz blockSize ≤ 2 ^ 22 := by
  have hlt := ceilDiv_mul_lt sz (show 0 < blockSize by decide)
  simp only [blockSize, maxWords] at *
  omega

theorem blocks_lt (hsz : sz ≤ maxWords) (hn : 0 < n) (hsmall : n < 2 ^ 27) :
    n * segmentBlocks sz n * blockSize < two32 := by
  have hceil := ceilDiv_le_of_small hsz
  by_cases hmany : ceilDiv sz blockSize ≤ n
  · have hone := segmentBlocks_le_one hmany hn
    have hmul : n * segmentBlocks sz n ≤ n * 1 := Nat.mul_le_mul_left n hone
    simp only [blockSize, two32]
    omega
  · have hlt := ceilDiv_mul_lt (ceilDiv sz blockSize) hn
    rw [Nat.mul_comm n, segmentBlocks]
    simp only [blockSize, two32] at *
    omega

theorem mul_blocks_le (sz n : Nat) {i j : Nat} (h : i ≤ j) :
    i * segmentBlocks sz n * blockSize ≤ j * segmentBlocks sz n * blockSize :=
  Nat.mul_le_mul_right _ (Nat.mul_le_mul_right _ h)

theorem succ_mul_blocks (sz n i : Nat) : (i + 1) * segmentBlocks sz n * blockSize =
    i * segmentBlocks sz n * blockSize + segmentBlocks sz n * blockSize := by ring

/-- No sender's segment ends beyond the vector. -/
theorem segmentEnd_le (sz n i : Nat) : segmentEnd sz n i ≤ sz := by
  simp only [segmentEnd]
  split
  · exact Nat.le_refl sz
  · rename_i h
    rw [Nat.add_comm] at h
    exact Nat.le_of_not_lt h

theorem dvd_segmentStart {d : Nat} (hd : d ∣ blockSize) (sz n i : Nat) : d ∣ segmentStart sz n i := by
  rw [segmentStart]
  have hd32 : d ∣ two32 := hd.trans (by decide)
  exact (Nat.dvd_mod_iff hd32).mpr (hd.mul_left _)

theorem dvd_segmentEnd {d : Nat} (hd : d ∣ blockSize) (hsz : d ∣ sz) (n i : Nat) :
    d ∣ segmentEnd sz n i := by
  have hd32 : d ∣ two32 := hd.trans (by decide)
  simp only [segmentEnd]
  split
  · exact hsz
  · exact (Nat.dvd_mod_iff hd32).mpr (Nat.dvd_add (dvd_segmentStart hd sz n i)
      ((Nat.dvd_mod_iff hd32).mpr (hd.mul_left _)))

theorem nodeBase_eq (sz n i : Nat) : nodeBase sz n i = segmentStart sz n i := by
  rw [nodeBase, segmentStart, Nat.mul_comm (segmentBlocks sz n)]

section Small

variable (hsz : sz ≤ maxWords) (hsmall : n < 2 ^ 27) {i : Nat} (hi : i < n)
include hsz hsmall hi

theorem segmentStart_eq : segmentStart sz n i = i * segmentBlocks sz n * blockSize := by
  have hlt := blocks_lt hsz (Nat.zero_lt_of_lt hi) hsmall
  exact Nat.mod_eq_of_lt (Nat.lt_of_le_of_lt (mul_blocks_le sz n (Nat.le_of_lt hi)) hlt)

theorem segmentEnd_eq : segmentEnd sz n i = min sz ((i + 1) * segmentBlocks sz n * blockSize) := by
  have hlt := blocks_lt hsz (Nat.zero_lt_of_lt hi) hsmall
  have hle := mul_blocks_le sz n (Nat.add_one_le_iff.mpr hi)
  have hsucc := succ_mul_blocks sz n i
  have hlen : segmentBlocks sz n * blockSize % two32 = segmentBlocks sz n * blockSize :=
    Nat.mod_eq_of_lt (by omega)
  simp only [segmentEnd, segmentStart_eq hsz hsmall hi, hlen]
  rw [Nat.add_comm (segmentBlocks sz n * blockSize), ← hsucc, Nat.mod_eq_of_lt (by omega)]
  split <;> omega

/-- A node's buffer is for the segment that the senders send it. -/
theorem nodeBase_add_nodeSize :
    nodeBase sz n i + nodeSize sz n i = max (segmentStart sz n i) (segmentEnd sz n i) := by
  have hlt := blocks_lt hsz (Nat.zero_lt_of_lt hi) hsmall
  have hle := mul_blocks_le sz n (Nat.add_one_le_iff.mpr hi)
  have hsucc := succ_mul_blocks sz n i
  have hlen : segmentBlocks sz n * blockSize % two32 = segmentBlocks sz n * blockSize :=
    Nat.mod_eq_of_lt (by omega)
  have hnext : segmentBlocks sz n * blockSize * (i + 1) % two32 =
      (i + 1) * segmentBlocks sz n * blockSize := by
    rw [Nat.mul_comm, ← Nat.mul_assoc]
    exact Nat.mod_eq_of_lt (by omega)
  rw [nodeSize, hnext, hlen, nodeBase_eq, segmentEnd_eq hsz hsmall hi,
    segmentStart_eq hsz hsmall hi]
  split
  · split <;> omega
  · omega

/-- The segment of a node is empty when it starts at or beyond the end. -/
theorem segmentEnd_le_start_iff :
    segmentEnd sz n i ≤ segmentStart sz n i ↔ sz ≤ i * segmentBlocks sz n * blockSize := by
  rw [segmentEnd_eq hsz hsmall hi, segmentStart_eq hsz hsmall hi]
  constructor
  · intro h
    have hsucc := succ_mul_blocks sz n i
    have hle := le_blocks sz (Nat.zero_lt_of_lt hi)
    by_cases hB : segmentBlocks sz n = 0
    · rw [hB] at hle ⊢
      omega
    · have hpos : 0 < segmentBlocks sz n * blockSize := Nat.mul_pos (by omega) (by decide)
      omega
  · intro h
    exact Nat.le_trans (Nat.min_le_left _ _) h

/-- Different nodes have different words. -/
theorem segment_disjoint {j k : Nat} (hj : j < n) (hki : segmentStart sz n i ≤ k)
    (hki' : k < segmentEnd sz n i) (hkj : segmentStart sz n j ≤ k) (hkj' : k < segmentEnd sz n j) :
    i = j := by
  rw [segmentStart_eq hsz hsmall hi] at hki
  rw [segmentStart_eq hsz hsmall hj] at hkj
  rw [segmentEnd_eq hsz hsmall hi] at hki'
  rw [segmentEnd_eq hsz hsmall hj] at hkj'
  rcases Nat.lt_trichotomy i j with hij | hij | hij
  · have := mul_blocks_le sz n (Nat.add_one_le_iff.mpr hij)
    omega
  · exact hij
  · have := mul_blocks_le sz n (Nat.add_one_le_iff.mpr hij)
    omega

end Small

/-- A segment is not longer than the vector, up to a block. -/
theorem segmentBlocks_lt (hsz : sz ≤ maxWords) (hn : 0 < n) :
    segmentBlocks sz n * blockSize ≤ maxWords := by
  have hceil := ceilDiv_le_of_small hsz
  by_cases hmany : ceilDiv sz blockSize ≤ n
  · have hone := segmentBlocks_le_one hmany hn
    simp only [blockSize, maxWords]
    omega
  · have hlt := ceilDiv_mul_lt (ceilDiv sz blockSize) hn
    rw [segmentBlocks]
    have hdiv : ceilDiv (ceilDiv sz blockSize) n ≤ ceilDiv sz blockSize := by
      obtain rfl | htwo : n = 1 ∨ 2 ≤ n := by omega
      · omega
      · have hle := Nat.mul_le_mul_left (ceilDiv (ceilDiv sz blockSize) n) htwo
        omega
    simp only [blockSize, maxWords] at *
    omega

/-- Every word belongs to a node. -/
theorem exists_segment (hsz : sz ≤ maxWords) (hn : 0 < n) {k : Nat} (hk : k < sz) :
    ∃ i < n, segmentStart sz n i ≤ k ∧ k < segmentEnd sz n i := by
  have hle := le_blocks sz hn
  have hlen := segmentBlocks_lt hsz hn
  have hpos : 0 < segmentBlocks sz n * blockSize := by
    by_contra hzero
    have hB : segmentBlocks sz n * blockSize = 0 := by omega
    rw [Nat.mul_assoc, hB] at hle
    omega
  have hdiv := Nat.div_add_mod k (segmentBlocks sz n * blockSize)
  have hmod := Nat.mod_lt k hpos
  have hassoc : k / (segmentBlocks sz n * blockSize) * segmentBlocks sz n * blockSize =
      segmentBlocks sz n * blockSize * (k / (segmentBlocks sz n * blockSize)) := by
    rw [Nat.mul_assoc, Nat.mul_comm]
  have hi : k / (segmentBlocks sz n * blockSize) < n := by
    apply Nat.div_lt_of_lt_mul
    rw [Nat.mul_comm, ← Nat.mul_assoc]
    omega
  -- the segment starts before the word, so that its start does not wrap
  have hstart : segmentStart sz n (k / (segmentBlocks sz n * blockSize)) =
      k / (segmentBlocks sz n * blockSize) * segmentBlocks sz n * blockSize := by
    apply Nat.mod_eq_of_lt
    rw [hassoc]
    simp only [maxWords, two32] at *
    omega
  refine ⟨_, hi, ?_, ?_⟩
  · omega
  · have hwrap : segmentBlocks sz n * blockSize % two32 = segmentBlocks sz n * blockSize :=
      Nat.mod_eq_of_lt (by simp only [maxWords, two32] at *; omega)
    simp only [segmentEnd, hstart, hwrap]
    split
    · exact hk
    · rw [Nat.mod_eq_of_lt (by simp only [maxWords, two32] at *; omega)]
      omega

/-- A segment that is not empty is the node's buffer, however many nodes there are. -/
theorem segmentEnd_eq_of_lt (hsz : sz ≤ maxWords) (hn : 0 < n) {i : Nat}
    (hlt : segmentStart sz n i < segmentEnd sz n i) :
    segmentEnd sz n i = nodeBase sz n i + nodeSize sz n i := by
  have hlen := segmentBlocks_lt hsz hn
  have hend := segmentEnd_le sz n i
  have hmod : segmentBlocks sz n * blockSize % two32 = segmentBlocks sz n * blockSize :=
    Nat.mod_eq_of_lt (by simp only [maxWords, two32] at *; omega)
  have hnext : segmentBlocks sz n * blockSize * (i + 1) % two32 =
      (segmentBlocks sz n * blockSize + segmentStart sz n i) % two32 := by
    rw [segmentStart, Nat.add_mod_mod]
    congr 1
    ring
  rw [nodeBase_eq, nodeSize, nodeBase_eq, hnext, hmod]
  simp only [segmentEnd, hmod] at hlt hend ⊢
  rw [Nat.add_comm (segmentStart sz n i)] at *
  split at hlt
  · rename_i hgt
    rw [if_pos hgt, if_pos hgt, if_neg (by omega)]
    omega
  · rename_i hgt
    rw [if_neg hgt, if_neg hgt]
    simp only [maxWords, two32] at *
    omega

section Small

variable (hsz : sz ≤ maxWords) (hsmall : n < 2 ^ 27) {i : Nat} (hi : i < n)
include hsz hsmall hi

theorem nodeSize_eq_zero_iff : nodeSize sz n i = 0 ↔ segmentEnd sz n i ≤ segmentStart sz n i := by
  have hsum := nodeBase_add_nodeSize hsz hsmall hi
  rw [nodeBase_eq] at hsum
  omega

/-- Two words of one block are in one segment. -/
theorem segment_block {j k l : Nat} (hj : j < n) (hk : k ∈ Set.Ico (segmentStart sz n i) (segmentEnd sz n i))
    (hl : l ∈ Set.Ico (segmentStart sz n j) (segmentEnd sz n j)) (hblock : k / blockSize = l / blockSize) :
    i = j := by
  obtain ⟨hk, hk'⟩ := hk
  obtain ⟨hl, hl'⟩ := hl
  rw [segmentStart_eq hsz hsmall hi] at hk
  rw [segmentStart_eq hsz hsmall hj] at hl
  rw [segmentEnd_eq hsz hsmall hi, lt_min_iff] at hk'
  rw [segmentEnd_eq hsz hsmall hj, lt_min_iff] at hl'
  -- the block number of a word lies between those of the segment's ends
  have hpos : 0 < blockSize := by decide
  have hki := (Nat.le_div_iff_mul_le hpos).mpr hk
  have hki' := (Nat.div_lt_iff_lt_mul hpos).mpr hk'.2
  have hlj := (Nat.le_div_iff_mul_le hpos).mpr hl
  have hlj' := (Nat.div_lt_iff_lt_mul hpos).mpr hl'.2
  rcases Nat.lt_trichotomy i j with hij | hij | hij
  · have hle := Nat.mul_le_mul_right (segmentBlocks sz n) (Nat.add_one_le_iff.mpr hij)
    omega
  · exact hij
  · have hle := Nat.mul_le_mul_right (segmentBlocks sz n) (Nat.add_one_le_iff.mpr hij)
    omega

end Small

/-- Senders and receivers agree on the segments, which cut the vector into disjoint
parts that start at blocks, so that no block belongs to two nodes. -/
theorem partition_agrees (sz n : Nat) (hsz : sz ≤ maxWords) (hn : 1 ≤ n) (hsmall : n < 2 ^ 26) :
    (∀ i < n, segmentStart sz n i = nodeBase sz n i ∧
      Set.Ico (segmentStart sz n i) (segmentEnd sz n i) =
        Set.Ico (nodeBase sz n i) (nodeBase sz n i + nodeSize sz n i) ∧
      (segmentEnd sz n i ≤ segmentStart sz n i ↔ nodeSize sz n i = 0)) ∧
    (∀ i < n, ∀ j < n, i ≠ j → Disjoint (Set.Ico (segmentStart sz n i) (segmentEnd sz n i))
      (Set.Ico (segmentStart sz n j) (segmentEnd sz n j))) ∧
    (∀ k, k < sz ↔ ∃ i < n, k ∈ Set.Ico (segmentStart sz n i) (segmentEnd sz n i)) ∧
    (∀ i < n, blockSize ∣ segmentStart sz n i) ∧
    ∀ i < n, ∀ j < n, i ≠ j → ∀ k ∈ Set.Ico (segmentStart sz n i) (segmentEnd sz n i),
      ∀ l ∈ Set.Ico (segmentStart sz n j) (segmentEnd sz n j), k / blockSize ≠ l / blockSize := by
  have hsmall' : n < 2 ^ 27 := hsmall.trans (by decide)
  refine ⟨fun i hi => ⟨(nodeBase_eq sz n i).symm, ?_, ?_⟩, fun i hi j hj hij => ?_, fun k => ⟨?_, ?_⟩, ?_, ?_⟩
  · rw [nodeBase_add_nodeSize hsz hsmall' hi, nodeBase_eq]
    ext k
    simp only [Set.mem_Ico, lt_max_iff]
    omega
  · exact (nodeSize_eq_zero_iff hsz hsmall' hi).symm
  · apply Set.disjoint_left.mpr
    rintro k ⟨hki, hki'⟩ ⟨hkj, hkj'⟩
    exact hij (segment_disjoint hsz hsmall' hi hj hki hki' hkj hkj')
  · exact fun hk => exists_segment hsz hn hk
  · rintro ⟨i, -, hk⟩
    exact hk.2.trans_le (segmentEnd_le sz n i)
  · exact fun i _ => dvd_segmentStart (dvd_refl blockSize) sz n i
  · intro i hi j hj hij k hk l hl hblock
    exact hij (segment_block hsz hsmall' hi hj hk hl hblock)

/-- Seventy words on three nodes: the last segment is cut short. -/
theorem partition_agrees_three :
    (70 ≤ maxWords ∧ 1 ≤ 3 ∧ 3 < 2 ^ 26) ∧ ∀ k, k < 70 ↔ ∃ i < 3, k ∈ Set.Ico (segmentStart 70 3 i) (segmentEnd 70 3 i) :=
  ⟨by decide, (partition_agrees 70 3 (by decide) (by decide) (by decide)).2.2.1⟩

/-- On 2^27 nodes or more, node 2^27 - 1 has a segment at the end of the address
range, which the senders take to be empty. -/
theorem segment_wraps (hsz : sz ≤ maxWords) (hpos : 0 < sz) (hmany : 2 ^ 27 ≤ n) :
    nodeBase sz n (2 ^ 27 - 1) + nodeSize sz n (2 ^ 27 - 1) = two32 ∧
      nodeSize sz n (2 ^ 27 - 1) = blockSize ∧ segmentEnd sz n (2 ^ 27 - 1) = 0 := by
  have hceil := ceilDiv_le_of_small hsz
  have hone : segmentBlocks sz n = 1 := by
    have hle := segmentBlocks_le_one (n := n) (show ceilDiv sz blockSize ≤ n by omega) (by omega)
    have hcover := le_blocks sz (n := n) (by omega)
    by_contra hne
    have hzero : segmentBlocks sz n = 0 := by omega
    rw [hzero] at hcover
    omega
  simp only [nodeBase, nodeSize, segmentEnd, segmentStart, hone, blockSize, two32]
  refine ⟨?_, ?_, ?_⟩
  · split <;> omega
  · split <;> omega
  · split <;> omega

end

end Dogee.Accumulator
