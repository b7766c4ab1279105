import Dogee.MemcachedChunk

/-!
# Reading through the block backend

A read is split into batches of whole requests. Within a batch the answers come
in any order and each puts the words of its block into their places; the batches
fill the buffer from left to right.
-/

namespace Dogee.Memcached.Chunk

open KeyValue

variable {st : Nat → Option (List Word)} {key fldid : Nat}

theorem blockCount_eq (len : Nat) :
    len / blockSize + (if len % blockSize ≠ 0 then 1 else 0) = (len + 31) / blockSize := by
  by_cases h : len % blockSize = 0
  · rw [if_neg (not_not.mpr h)]
    simp only [blockSize] at *
    omega
  · rw [if_pos h]
    simp only [blockSize] at *
    omega

theorem mem_fetchBlocks {k len e : Nat} (hk : k + len < two64) :
    e ∈ fetchBlocks k len ↔ ∃ i, i * blockSize < len ∧ e = k + i := by
  have hcount : ∀ i, i < (len + 31) / blockSize ↔ i * blockSize < len := by
    intro i
    simp only [blockSize]
    omega
  have hmod : ∀ i, i * blockSize < len → (k + i) % two64 = k + i := by
    intro i hi
    refine Nat.mod_eq_of_lt ?_
    simp only [blockSize] at hi
    omega
  simp only [fetchBlocks, fetchKeys, blockCount_eq, List.mem_map, List.mem_range, hcount]
  constructor
  · rintro ⟨i, hi, rfl⟩
    exact ⟨i, hi, hmod i hi⟩
  · rintro ⟨i, hi, rfl⟩
    exact ⟨i, hi, hmod i hi⟩

/-- Where one answer goes: the words of its block, each in its place. -/
theorem placeReply_spec (hst : Whole st) {len base i : Nat} {e : Nat × List Word}
    {buf : List Word} (hrange : fldid + len + blockSize ≤ two32) (hbuf : base + len ≤ buf.length)
    (hi : i * blockSize < len + fldid % blockSize) (he : e.1 = make64 key (fldid / blockSize) + i)
    (hval : st e.1 = some e.2) :
    ∃ buf', placeReply (make64 key (fldid / blockSize)) (fldid % blockSize) len base buf e = some buf' ∧
      buf'.length = buf.length ∧
      ∀ x, (base ≤ x ∧ x < base + len ∧ (fldid % blockSize + (x - base)) / blockSize = i →
          buf'[x]? = some (memory st key (fldid + (x - base)))) ∧
        (¬(base ≤ x ∧ x < base + len ∧ (fldid % blockSize + (x - base)) / blockSize = i) →
          buf'[x]? = buf[x]?) := by
  have hkey' : make64 key (fldid / blockSize) + i = make64 key (fldid / blockSize + i) := by
    rw [make64, make64, Nat.add_assoc]
  rw [he, hkey'] at hval
  have hblen : e.2.length = blockSize := by
    refine hst key (fldid / blockSize + i) e.2 ?_ hval
    simp only [two32, blockSize] at *
    omega
  have hidx : (e.1 + two64 - make64 key (fldid / blockSize)) % two64 % two32 = i := by
    rw [he]
    simp only [two32, two64, blockSize] at *
    omega
  obtain ⟨a, ha⟩ : ∃ a, a = if i = 0 then fldid % blockSize else 0 := ⟨_, rfl⟩
  obtain ⟨j, hj⟩ : ∃ j, j = (i * blockSize + a + two32 - fldid % blockSize) % two32 := ⟨_, rfl⟩
  have ha32 : a < blockSize := by
    rw [ha]
    split
    · exact Nat.mod_lt _ (by decide)
    · decide
  have hj' : j + fldid % blockSize = i * blockSize + a := by
    by_cases h0 : i = 0
    · rw [if_pos h0] at ha
      simp only [two32, blockSize] at *
      omega
    · rw [if_neg h0] at ha
      simp only [two32, blockSize] at *
      omega
  have hjlen : j ≤ len := by
    by_cases h0 : i = 0
    · rw [if_pos h0, ] at ha
      simp only [blockSize] at *
      omega
    · rw [if_neg h0] at ha
      simp only [blockSize] at *
      omega
  have hslice : slice e.2 a (min (blockSize - a) (len - j)) =
      some ((e.2.drop a).take (min (blockSize - a) (len - j))) := by
    rw [slice, if_pos (by omega)]
  have hvs : ((e.2.drop a).take (min (blockSize - a) (len - j))).length =
      min (blockSize - a) (len - j) := by
    rw [List.length_take, List.length_drop]
    omega
  obtain ⟨buf', hrun, hlen', hget⟩ := copyWords_spec buf (base + j)
    ((e.2.drop a).take (min (blockSize - a) (len - j))) (by rw [hvs]; omega)
  rw [hvs] at hget
  -- the positions written are those whose word lies in block `i`
  have hcov : ∀ x, base ≤ x ∧ x < base + len ∧ (fldid % blockSize + (x - base)) / blockSize = i ↔
      base + j ≤ x ∧ x < base + j + min (blockSize - a) (len - j) := by
    intro x
    by_cases h0 : i = 0
    · rw [if_pos h0] at ha
      simp only [blockSize] at *
      omega
    · rw [if_neg h0] at ha
      simp only [blockSize] at *
      omega
  refine ⟨buf', ?_, hlen', fun x => ?_⟩
  · simp only [placeReply, hidx, ← ha, ← hj, hslice]
    exact hrun
  · rw [hcov, hget]
    constructor
    · intro hx
      have hin : x - (base + j) < min (blockSize - a) (len - j) := by omega
      have hword : fldid + (x - base) =
          (fldid / blockSize + i) * blockSize + (a + (x - (base + j))) := by
        simp only [blockSize] at *
        omega
      have hdiv : (fldid + (x - base)) / blockSize = fldid / blockSize + i := by
        rw [hword]
        simp only [blockSize] at *
        omega
      have hmod : (fldid + (x - base)) % blockSize = a + (x - (base + j)) := by
        rw [hword]
        simp only [blockSize] at *
        omega
      rw [if_pos hx, List.getElem?_take_of_lt hin, List.getElem?_drop, memory, hdiv, hmod, hval]
      simp only
      rw [List.getD_eq_getElem?_getD, List.getElem?_eq_getElem (by omega)]
      rfl
    · intro hx
      rw [if_neg hx]

/-- The answers of one batch, in any order, fill the cleared range with its words. -/
theorem foldlM_placeReply (hst : Whole st) {len base : Nat} {buf z : List Word}
    (hkey : key < two32) (hrange : fldid + len + blockSize ≤ two32)
    (hbuf : base + len ≤ buf.length) (hz : copyWords buf base (List.replicate len 0) = some z)
    {rs : List (Nat × List Word)}
    (hrs : ∀ e, e ∈ rs ↔ e.1 ∈ fetchBlocks (make64 key (fldid / blockSize))
      (len + fldid % blockSize) ∧ st e.1 = some e.2) :
    rs.foldlM (placeReply (make64 key (fldid / blockSize)) (fldid % blockSize) len base) z =
      copyWords buf base ((memory st).read key fldid len) := by
  obtain ⟨z', hz', hzlen, hzget⟩ :=
    copyWords_spec buf base (List.replicate len 0) (by simpa using hbuf)
  obtain rfl : z' = z := Option.some.inj (hz'.symm.trans hz)
  obtain ⟨d, hd, hdlen, hdget⟩ :=
    copyWords_spec buf base ((memory st).read key fldid len) (by simpa using hbuf)
  rw [List.length_replicate] at hzget
  rw [Memory.length_read] at hdget
  have hk64 : make64 key (fldid / blockSize) + (len + fldid % blockSize) < two64 := by
    simp only [make64, two32, two64, blockSize] at *
    omega
  obtain ⟨buf', hrun, hlen, hget⟩ := @foldlM_fill Word _
    (placeReply (make64 key (fldid / blockSize)) (fldid % blockSize) len base)
    (fun e x => base ≤ x ∧ x < base + len ∧
      e.1 = make64 key (fldid / blockSize) + (fldid % blockSize + (x - base)) / blockSize)
    (fun x => memory st key (fldid + (x - base))) z'.length rs (by
      intro e he buf₁ hbuf₁
      obtain ⟨hmem, hval⟩ := (hrs e).mp he
      obtain ⟨i, hi, hei⟩ := (mem_fetchBlocks hk64).mp hmem
      have hlong : base + len ≤ buf₁.length := by omega
      obtain ⟨buf', hrun, hlen, hget⟩ := placeReply_spec hst hrange hlong hi hei hval
      refine ⟨buf', hrun, hlen.trans hbuf₁, fun x => ?_⟩
      have hiff : e.1 = make64 key (fldid / blockSize) + (fldid % blockSize + (x - base)) / blockSize ↔
          (fldid % blockSize + (x - base)) / blockSize = i := by omega
      rw [hiff]
      exact hget x) z' rfl
  rw [hrun, hd]
  refine congrArg some (List.ext_getElem? fun x => ?_)
  rw [hdget]
  by_cases hx : base ≤ x ∧ x < base + len
  · rw [if_pos hx, Memory.getElem?_read (by omega)]
    obtain ⟨k, hk⟩ : ∃ k, k = make64 key (fldid / blockSize) +
        (fldid % blockSize + (x - base)) / blockSize := ⟨_, rfl⟩
    have hreq : k ∈ fetchBlocks (make64 key (fldid / blockSize)) (len + fldid % blockSize) := by
      refine (mem_fetchBlocks hk64).mpr ⟨_, ?_, hk⟩
      simp only [blockSize]
      omega
    cases hstore : st k with
    | some blk =>
        exact (hget x).1 ⟨(k, blk), (hrs _).mpr ⟨hreq, hstore⟩, hx.1, hx.2, hk⟩
    | none =>
        -- an absent block reads as zero, and the range was cleared
        have hnone : ∀ e ∈ rs, ¬(base ≤ x ∧ x < base + len ∧ e.1 = make64 key (fldid / blockSize) +
            (fldid % blockSize + (x - base)) / blockSize) := by
          rintro e he ⟨-, -, hek⟩
          have hval := ((hrs e).mp he).2
          rw [hek, ← hk, hstore] at hval
          cases hval
        have hword : make64 key ((fldid + (x - base)) / blockSize) = k := by
          rw [hk]
          simp only [make64, blockSize]
          omega
        rw [(hget x).2 hnone, hzget, if_pos hx, memory, hword, hstore,
          List.getElem?_replicate, if_pos (by omega)]
  · rw [if_neg hx, (hget x).2 fun e _ hc => hx ⟨hc.1, hc.2.1⟩, hzget, if_neg hx]

/-- A batch of `do_getchunk` reads its words into their places. -/
theorem doGetchunk_computes (hst : Whole st) (hkey : key < two32) {len base : Nat}
    {buf buf' : List Word} (hrange : fldid + len + blockSize ≤ two32)
    (hbuf : base + len ≤ buf.length)
    (hread : copyWords buf base ((memory st).read key fldid len) = some buf') :
    Computes (doGetchunk key fldid len buf base) st buf' st := by
  obtain ⟨z, hz, -, -⟩ := copyWords_spec buf base (List.replicate len 0) (by simpa using hbuf)
  have hsum : (len + fldid % blockSize) % two32 = len + fldid % blockSize := Nat.mod_eq_of_lt (by
    simp only [blockSize] at *
    omega)
  unfold doGetchunk
  simp only [hsum]
  refine .bind (.ofOption hz) (.mget fun rs hrs => .ofOption ?_)
  rw [foldlM_placeReply hst hkey hrange hbuf hz hrs, hread]

/-- The batches of `splited_getchunk`. -/
theorem splitedLoop_computes (hst : Whole st) (hkey : key < two32) {len limit : Nat}
    (hrange : fldid + len + blockSize ≤ two32) (hlimit : limit + chunkFetchBatch = fldid + len) :
    ∀ (fuel l : Nat) (buf : List Word), limit - l < fuel → fldid ≤ l → l ≤ fldid + len →
      buf.length = len → (memory st).Filled key fldid (l - fldid) buf →
      ∃ l' buf', Computes (splitedLoop key fldid limit fuel l buf) st (l', buf') st ∧
        fldid ≤ l' ∧ l' ≤ fldid + len ∧ buf'.length = len ∧
        (memory st).Filled key fldid (l' - fldid) buf' := by
  intro fuel
  induction fuel with
  | zero =>
      intro l buf hfuel
      exact absurd hfuel (Nat.not_lt_zero _)
  | succ fuel ih =>
      intro l buf hfuel hl hl' hbuf hfill
      rw [splitedLoop]
      split
      · rename_i hlt
        have hbatch : 0 < chunkFetchBatch := by decide
        have hnext : (l + chunkFetchBatch) % two32 = l + chunkFetchBatch :=
          Nat.mod_eq_of_lt (by simp only [blockSize] at *; omega)
        obtain ⟨buf₁, hread, hlen₁, hfill₁⟩ := hfill.extend chunkFetchBatch (by omega)
        rw [show fldid + (l - fldid) = l by omega] at hread
        obtain ⟨l', buf', hcomp, hend⟩ := ih (l + chunkFetchBatch) buf₁ (by omega) (by omega) (by omega)
          (hlen₁.trans hbuf) (by
            rw [show l + chunkFetchBatch - fldid = l - fldid + chunkFetchBatch by omega]
            exact hfill₁)
        refine ⟨l', buf', .bind (doGetchunk_computes hst hkey ?_ (by omega) hread) ?_, hend⟩
        · omega
        · rw [hnext]
          exact hcomp
      · exact ⟨l, buf, .ret _ st, hl, hl', hbuf, hfill⟩

/-- `getchunk` returns the words of its range. -/
theorem getchunk_computes (hst : Whole st) (hkey : key < two32) {len : Nat} {buf : List Word}
    (hrange : fldid + len + blockSize ≤ two32) (hbuf : buf.length = len) :
    Computes (getchunk key fldid len buf) st ((memory st).read key fldid len) st := by
  have hnil : (memory st).Filled key fldid (fldid - fldid) buf := by
    intro x hx
    omega
  obtain ⟨l, buf₁, hcomp, hl, hl', hlen₁, hfill₁⟩ : ∃ l buf₁,
      Computes (splitedBatches key fldid len buf) st (l, buf₁) st ∧ fldid ≤ l ∧ l ≤ fldid + len ∧
        buf₁.length = len ∧ (memory st).Filled key fldid (l - fldid) buf₁ := by
    unfold splitedBatches
    split
    · rename_i hlong
      have hlimit : (fldid + len + two32 - chunkFetchBatch) % two32 = fldid + len - chunkFetchBatch := by
        simp only [two32, blockSize, chunkFetchBatch] at *
        omega
      rw [hlimit]
      exact splitedLoop_computes hst hkey hrange (by omega) (len + 1) fldid buf (by omega)
        (Nat.le_refl _) (by omega) hbuf hnil
    · exact ⟨fldid, buf, .ret _ st, Nat.le_refl _, by omega, hbuf, hnil⟩
  have hremain : (fldid + len + two32 - l) % two32 = fldid + len - l := by
    simp only [two32, blockSize] at *
    omega
  unfold getchunk splitedGetchunk
  refine .bind hcomp ?_
  simp only [hremain]
  split
  · obtain ⟨buf', hread, hlen', hfill'⟩ := hfill₁.extend (fldid + len - l) (by omega)
    rw [show fldid + (l - fldid) = l by omega] at hread
    have hres : buf' = (memory st).read key fldid len := by
      refine Memory.eq_read (by omega) fun i hi => hfill' i (by omega)
    rw [← hres]
    exact doGetchunk_computes hst hkey (by omega) (by omega) hread
  · have hres : buf₁ = (memory st).read key fldid len := by
      refine Memory.eq_read (by omega) fun i hi => hfill₁ i (by omega)
    rw [← hres]
    exact .ret _ st

theorem get_computes (hst : Whole st) (hkey : key < two32) (hfld : fldid < two32) :
    Computes (get key fldid) st (memory st key fldid) st := by
  have harr : blockArray.length = blockSize := by simp [blockArray]
  refine .bind (getblock_computes hst hkey hfld harr) (.ofOption ?_)
  have hlen := hst.length_block (o := key) (blockIndex_lt hfld)
  have hmod : make64 key fldid % blockSize = fldid % blockSize := by
    simp only [make64, two32, blockSize]
    omega
  have hlt : fldid % blockSize < blockSize := Nat.mod_lt _ (by decide)
  rw [hmod, memory_eq, List.getD_eq_getElem?_getD, List.getElem?_eq_getElem (by omega)]
  rfl

/-- A block of the store is the read of its words. -/
theorem block_eq_read (hst : Whole st) (hb : fldid / blockSize < two32 / blockSize)
    (hal : fldid % blockSize = 0) :
    block st key (fldid / blockSize) = (memory st).read key fldid blockSize := by
  refine Memory.eq_read (hst.length_block hb) fun i hi => ?_
  have hdiv : (fldid + i) / blockSize = fldid / blockSize := by
    simp only [blockSize] at *
    omega
  have hmod : (fldid + i) % blockSize = i := by
    simp only [blockSize] at *
    omega
  have hlen := hst.length_block (o := key) hb
  rw [memory_eq, hdiv, hmod, List.getD_eq_getElem?_getD, List.getElem?_eq_getElem (by omega)]
  rfl

end Dogee.Memcached.Chunk
