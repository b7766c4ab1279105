import Dogee.Memcached

/-!
# Writing through the block backend

A store of whole blocks stands for a flat memory. A call of `putchunk` is a list
of block writes, each of which stores a whole block or patches the block it has
just read; alone on the server such a list performs the write in the flat memory.
-/

namespace Dogee.Memcached

open KeyValue

theorem make64_inj {o o' w w' : Nat} (hw : w < two32) (hw' : w' < two32)
    (h : make64 o w = make64 o' w') : o = o' ∧ w = w' := by
  simp only [make64, two32] at *
  omega

theorem make64_lt {o w : Nat} (ho : o < two32) (hw : w < two32) : make64 o w < two64 := by
  simp only [make64, two32, two64] at *
  omega

namespace Chunk

/-- The words that the blocks of a store stand for. -/
def memory (st : Nat → Option (List Word)) : Memory := fun o w =>
  match st (make64 o (w / blockSize)) with
  | some blk => blk.getD (w % blockSize) 0
  | none => 0

/-- Every block of the store is whole. -/
def Whole (st : Nat → Option (List Word)) : Prop :=
  ∀ o b blk, b < two32 / blockSize → st (make64 o b) = some blk → blk.length = blockSize

/-- A block of the store, all zero when it is absent. -/
def block (st : Nat → Option (List Word)) (o b : Nat) : List Word :=
  (st (make64 o b)).getD (List.replicate blockSize 0)

variable {st : Nat → Option (List Word)} {key fldid : Nat}

theorem Whole.length_block (hst : Whole st) {o b : Nat} (hb : b < two32 / blockSize) :
    (block st o b).length = blockSize := by
  unfold block
  cases h : st (make64 o b) with
  | none => simp
  | some blk => exact hst o b blk hb h

theorem memory_eq (o w : Nat) : memory st o w = (block st o (w / blockSize)).getD (w % blockSize) 0 := by
  unfold memory block
  cases st (make64 o (w / blockSize)) with
  | none => 
    simp only [Option.getD_none, List.getD_eq_getElem?_getD, List.getElem?_replicate]
    split <;> rfl
  | some blk => rfl

theorem blockIndex_lt (hfld : fldid < two32) : fldid / blockSize < two32 / blockSize := by
  simp only [two32, blockSize] at *
  omega

theorem lt_two32_of_block {b : Nat} (hb : b < two32 / blockSize) : b < two32 := by
  simp only [two32, blockSize] at *
  omega

/-- The answers to the request for one block, copied into a cleared array. -/
def fillBlock (rs : List (Nat × List Word)) : Option (List Word) :=
  rs.foldlM (fun buf e => do copyWords buf 0 (← slice e.2 0 blockSize)) blockArray

theorem getblock_eq (hkey : key < two32) (hfld : fldid < two32) {buf : List Word}
    (hbuf : buf.length = blockSize) :
    getblock (make64 key fldid) buf =
      .mget [make64 key (fldid / blockSize)] fun rs => ownMemory (fillBlock rs) := by
  have hk : make64 key fldid / two32 * two32 + make64 key fldid % two32 / blockSize =
      make64 key (fldid / blockSize) := by
    simp only [make64, two32, blockSize] at *
    omega
  have hlt : make64 key (fldid / blockSize) < two64 :=
    make64_lt hkey (lt_two32_of_block (blockIndex_lt hfld))
  have hkeys : fetchBlocks (make64 key (fldid / blockSize)) blockSize =
      [make64 key (fldid / blockSize)] := by
    have hone : blockSize / blockSize + (if blockSize % blockSize ≠ 0 then 1 else 0) = 1 := by decide
    rw [fetchBlocks, hone]
    simp [fetchKeys, Nat.mod_eq_of_lt hlt]
  have hclear : copyWords buf 0 (List.replicate blockSize 0) = some blockArray :=
    copyWords_all (by rw [List.length_replicate, hbuf])
  simp only [getblock, hk, hkeys, hclear]
  rfl

theorem fillBlock_eq {b : Nat} (hst : Whole st) (hb : b < two32 / blockSize)
    {rs : List (Nat × List Word)}
    (hrs : ∀ e, e ∈ rs ↔ e.1 ∈ [make64 key b] ∧ st e.1 = some e.2) :
    fillBlock rs = some (block st key b) := by
  cases h : st (make64 key b) with
  | none =>
      have hnil : rs = [] := by
        apply List.eq_nil_iff_forall_not_mem.mpr
        intro e he
        obtain ⟨hk, hv⟩ := (hrs e).mp he
        rw [List.mem_singleton.mp hk, h] at hv
        cases hv
      rw [hnil, block, h]
      rfl
  | some blk =>
      have hlen : blk.length = blockSize := hst key b blk hb h
      have hall : ∀ e ∈ rs, e.2 = blk := by
        intro e he
        obtain ⟨hk, hv⟩ := (hrs e).mp he
        rw [List.mem_singleton.mp hk, h] at hv
        exact (Option.some.inj hv).symm
      have hmem : (make64 key b, blk) ∈ rs := (hrs _).mpr ⟨by simp, h⟩
      -- every answer overwrites the array with the block
      have hfold : ∀ (l : List (Nat × List Word)) (buf : List Word), (∀ e ∈ l, e.2 = blk) →
          buf.length = blockSize →
          l.foldlM (fun buf e => do copyWords buf 0 (← slice e.2 0 blockSize)) buf =
            some (if l = [] then buf else blk) := by
        intro l
        induction l with
        | nil =>
            intro buf _ _
            rfl
        | cons e l ih =>
            intro buf hl hbuf
            have hstep : (do copyWords buf 0 (← slice e.2 0 blockSize)) = some blk := by
              rw [hl e (by simp), slice_all hlen]
              exact copyWords_all (by omega)
            rw [List.foldlM_cons, hstep]
            refine (ih blk (fun e he => hl e (by simp [he])) hlen).trans ?_
            simp
      rw [fillBlock, hfold rs blockArray hall (by simp [blockArray]),
        if_neg (List.ne_nil_of_mem hmem), block, h]
      rfl

theorem getblock_computes (hst : Whole st) (hkey : key < two32) (hfld : fldid < two32)
    {buf : List Word} (hbuf : buf.length = blockSize) :
    Computes (getblock (make64 key fldid) buf) st (block st key (fldid / blockSize)) st := by
  rw [getblock_eq hkey hfld hbuf]
  refine .mget fun rs hrs => .ofOption ?_
  exact fillBlock_eq hst (blockIndex_lt hfld) hrs

/-! ## A write as a list of block writes -/

/-- New values for consecutive words of one block. -/
structure BlockWrite where
  key : Nat
  block : Nat
  pos : Nat
  vals : List Word

namespace BlockWrite

/-- The words lie in one block of an object. -/
structure Valid (w : BlockWrite) : Prop where
  key_lt : w.key < two32
  block_lt : w.block < two32 / blockSize
  fits : w.pos + w.vals.length ≤ blockSize

/-- A whole block is stored; part of one is patched into the block read before. -/
def prog (w : BlockWrite) : Prog Unit :=
  if w.vals.length = blockSize then put (make64 w.key w.block) w.vals
  else do
    let var ← getblock (make64 w.key (w.block * blockSize)) blockArray
    let var ← ownMemory (copyWords var w.pos w.vals)
    put (make64 w.key w.block) var

/-- The block after the write, given the block before it. -/
def patched (w : BlockWrite) (blk : List Word) : List Word :=
  (copyWords blk w.pos w.vals).getD blk

/-- The write in a flat memory. -/
def write (w : BlockWrite) (m : Memory) : Memory :=
  m.write w.key (w.block * blockSize + w.pos) w.vals

def apply (w : BlockWrite) (st : Nat → Option (List Word)) : Nat → Option (List Word) :=
  Function.update st (make64 w.key w.block) (some (w.patched (Chunk.block st w.key w.block)))

end BlockWrite

def writeBlocks : List BlockWrite → Prog Unit
  | [] => .ret ()
  | w :: ws => do
      w.prog
      writeBlocks ws

theorem writeBlocks_append (ws ws' : List BlockWrite) :
    writeBlocks (ws ++ ws') = writeBlocks ws >>= fun _ => writeBlocks ws' := by
  induction ws with
  | nil => rfl
  | cons w ws ih =>
      simp only [List.cons_append, writeBlocks, ih, Prog.bind_assoc]

/-- The block writes of a write that starts at the beginning of a block. -/
def alignedWrites (key : Nat) : Nat → List Word → List BlockWrite
  | b, buf =>
      if buf = [] then []
      else ⟨key, b, 0, buf.take blockSize⟩ :: alignedWrites key (b + 1) (buf.drop blockSize)
termination_by _ buf => buf.length
decreasing_by
  rename_i h
  have hpos := List.length_pos_iff.mpr h
  rw [List.length_drop, blockSize]
  omega

/-- The number of words before the first block boundary. -/
def headLength (fldid len : Nat) : Nat := min (blockSize - fldid % blockSize) len

/-- The block writes of a write. -/
def blockWrites (key fldid : Nat) (buf : List Word) : List BlockWrite :=
  if fldid % blockSize = 0 then alignedWrites key (fldid / blockSize) buf
  else
    ⟨key, fldid / blockSize, fldid % blockSize, buf.take (headLength fldid buf.length)⟩ ::
      alignedWrites key (fldid / blockSize + 1) (buf.drop (headLength fldid buf.length))

theorem alignedWrites_nil (key b : Nat) : alignedWrites key b [] = [] := by
  rw [alignedWrites, if_pos rfl]

theorem alignedWrites_cons {key b : Nat} {buf : List Word} (h : buf ≠ []) :
    alignedWrites key b buf =
      ⟨key, b, 0, buf.take blockSize⟩ :: alignedWrites key (b + 1) (buf.drop blockSize) := by
  rw [alignedWrites, if_neg h]

/-- The loop over the whole blocks performs the writes of the words it covers. -/
theorem blockLoop_eq {γ : Type} (key : Nat) (buf : List Word) (n b idx : Nat)
    (f : Nat × Nat → Prog γ) (h : idx + n * blockSize ≤ buf.length) :
    (blockLoop key buf n (b * blockSize) idx >>= f) =
      writeBlocks (alignedWrites key b ((buf.drop idx).take (n * blockSize))) >>= fun _ =>
        f ((b + n) * blockSize, idx + n * blockSize) := by
  induction n generalizing b idx with
  | zero => simp [blockLoop, alignedWrites_nil, writeBlocks]
  | succ n ih =>
      have hsucc : (n + 1) * blockSize = blockSize + n * blockSize := by rw [Nat.add_mul]; omega
      rw [hsucc] at h
      have hsl : slice buf idx blockSize = some ((buf.drop idx).take blockSize) := by
        rw [slice, if_pos (by omega)]
      have hlen : ((buf.drop idx).take blockSize).length = blockSize := by
        rw [List.length_take, List.length_drop]
        omega
      have hne : (buf.drop idx).take (blockSize + n * blockSize) ≠ [] := by
        rw [Ne, ← List.length_eq_zero_iff, List.length_take, List.length_drop]
        simp only [blockSize] at *
        omega
      have htake : ((buf.drop idx).take (blockSize + n * blockSize)).take blockSize =
          (buf.drop idx).take blockSize := by
        rw [List.take_take, Nat.min_eq_left (by omega)]
      have hdrop : ((buf.drop idx).take (blockSize + n * blockSize)).drop blockSize =
          (buf.drop (idx + blockSize)).take (n * blockSize) := by
        rw [List.drop_take, List.drop_drop, Nat.add_sub_cancel_left]
      have hprog : BlockWrite.prog ⟨key, b, 0, (buf.drop idx).take blockSize⟩ =
          put (make64 key b) ((buf.drop idx).take blockSize) := if_pos hlen
      have hb : b * blockSize / blockSize = b := Nat.mul_div_cancel b (by decide)
      have hnext : b * blockSize + blockSize = (b + 1) * blockSize := by rw [Nat.add_mul]; omega
      rw [hsucc, alignedWrites_cons hne, htake, hdrop, writeBlocks, hprog, blockLoop, hsl, hb, hnext]
      have hrest := ih (b + 1) (idx + blockSize) (by omega)
      rw [show b + 1 + n = b + (n + 1) by omega,
        show idx + blockSize + n * blockSize = idx + (blockSize + n * blockSize) by omega] at hrest
      exact congrArg (Prog.set _ _) hrest

theorem patchLoop_eq (buf : List Word) (n i idx : Nat) (var : List Word)
    (hi : i % blockSize + n ≤ blockSize) (hidx : idx + n ≤ buf.length) :
    patchLoop buf n i idx var = copyWords var (i % blockSize) ((buf.drop idx).take n) := by
  induction n generalizing i idx var with
  | zero => simp [patchLoop, copyWords]
  | succ n ih =>
      have hlt : idx < buf.length := by omega
      have hget : buf[idx]? = some buf[idx] := List.getElem?_eq_getElem hlt
      have hdrop : buf.drop idx = buf[idx] :: buf.drop (idx + 1) := List.drop_eq_getElem_cons hlt
      rw [patchLoop, hget, hdrop, List.take_succ_cons, copyWords, Option.bind_eq_bind,
        Option.bind_some, copyWords]
      split
      · rw [copyWords, Option.bind_eq_bind, Option.bind_some]
        cases n with
        | zero => rfl
        | succ n =>
            have hmod : (i + 1) % blockSize = i % blockSize + 1 := by
              simp only [blockSize] at *
              omega
            rw [ih (i + 1) (idx + 1) _ (by omega) (by omega), hmod]
      · rfl

theorem alignedWrites_append (key b n : Nat) (xs ys : List Word) (h : xs.length = n * blockSize) :
    alignedWrites key b (xs ++ ys) = alignedWrites key b xs ++ alignedWrites key (b + n) ys := by
  induction n generalizing b xs with
  | zero =>
      obtain rfl : xs = [] := List.eq_nil_of_length_eq_zero (by omega)
      simp [alignedWrites_nil]
  | succ n ih =>
      rw [Nat.add_mul] at h
      have hle : blockSize ≤ xs.length := by omega
      have hpos : 0 < blockSize := by decide
      have hne : xs ≠ [] := by
        rintro rfl
        simp only [List.length_nil] at hle
        omega
      have hne' : xs ++ ys ≠ [] := by simp [hne]
      rw [alignedWrites_cons hne, alignedWrites_cons hne', List.take_append_of_le_length hle,
        List.drop_append_of_le_length hle, List.cons_append,
        ih (b + 1) (xs.drop blockSize) (by rw [List.length_drop]; omega)]
      rw [show b + 1 + n = b + (n + 1) by omega]

/-- From the beginning of a block on, the source performs the aligned writes. -/
theorem putBlocks_eq {key b idx : Nat} {buf : List Word} (hidx : idx ≤ buf.length) :
    putBlocks key buf (b * blockSize + (buf.length - idx)) (b * blockSize) idx =
      writeBlocks (alignedWrites key b (buf.drop idx)) := by
  obtain ⟨n, t, ht, hlen⟩ : ∃ n t, t < blockSize ∧ buf.length - idx = n * blockSize + t :=
    ⟨(buf.length - idx) / blockSize, (buf.length - idx) % blockSize,
      Nat.mod_lt _ (by decide), by simp only [blockSize]; omega⟩
  have hend : (b * blockSize + (n * blockSize + t)) / blockSize = b + n := by
    simp only [blockSize] at *
    omega
  have hcount : ((b + n) * blockSize - b * blockSize + (blockSize - 1)) / blockSize = n := by
    simp only [blockSize] at *
    omega
  have hmul : (b + n) * blockSize = b * blockSize + n * blockSize := Nat.add_mul ..
  have hdrop : buf.drop idx =
      (buf.drop idx).take (n * blockSize) ++ buf.drop (idx + n * blockSize) := by
    rw [← List.drop_drop, List.take_append_drop]
  have htake : ((buf.drop idx).take (n * blockSize)).length = n * blockSize := by
    rw [List.length_take, List.length_drop]
    omega
  rw [hdrop, alignedWrites_append key b n _ _ htake, writeBlocks_append, putBlocks, hlen]
  simp only [hend, hcount]
  rw [blockLoop_eq key buf n b idx _ (by omega)]
  refine congrArg (writeBlocks _ >>= ·) (funext fun _ => ?_)
  by_cases ht0 : t = 0
  · have hnil : buf.drop (idx + n * blockSize) = [] := List.drop_eq_nil_of_le (by omega)
    rw [if_neg (by omega), hnil, alignedWrites_nil]
    rfl
  · have hrest : (buf.drop (idx + n * blockSize)).length = t := by
      rw [List.length_drop]
      omega
    have hne : buf.drop (idx + n * blockSize) ≠ [] := by
      intro hnil
      rw [hnil] at hrest
      exact ht0 hrest.symm
    have hall : (buf.drop (idx + n * blockSize)).take blockSize = buf.drop (idx + n * blockSize) :=
      List.take_of_length_le (by omega)
    have hnone : (buf.drop (idx + n * blockSize)).drop blockSize = [] :=
      List.drop_eq_nil_of_le (by omega)
    have hcnt : b * blockSize + (n * blockSize + t) - (b + n) * blockSize = t := by omega
    have hzero : (b + n) * blockSize % blockSize = 0 := Nat.mul_mod_left ..
    have hblk : (b + n) * blockSize / blockSize = b + n := Nat.mul_div_cancel _ (by decide)
    have hpatch : ∀ var, patchLoop buf t ((b + n) * blockSize) (idx + n * blockSize) var =
        copyWords var 0 (buf.drop (idx + n * blockSize)) := by
      intro var
      rw [patchLoop_eq buf t _ _ var (by omega) (by omega), hzero, ← hrest, List.take_length]
    rw [if_pos (by omega), alignedWrites_cons hne, hall, hnone, alignedWrites_nil, writeBlocks,
      writeBlocks, BlockWrite.prog, if_neg (by simp only [hrest]; omega), hcnt, hblk]
    simp only [hpatch, Prog.bind_assoc]
    rfl

/-- The 32-bit counters of `putchunk` do not pass their range: the write ends
before the last word, and an unaligned write does not start in the last block. -/
structure NoWrap (fldid len : Nat) : Prop where
  tail_lt : fldid + len < two32
  start_lt : fldid % blockSize ≠ 0 → fldid + blockSize ≤ two32

/-- `putchunk` performs the block writes of its words. -/
theorem putchunk_eq {buf : List Word} (hkey : key < two32) (hrange : NoWrap fldid buf.length) :
    putchunk key fldid buf = writeBlocks (blockWrites key fldid buf) := by
  obtain ⟨htail_lt, hstart_lt⟩ := hrange
  have htail : (fldid + buf.length) % two32 = fldid + buf.length := Nat.mod_eq_of_lt htail_lt
  by_cases hal : fldid % blockSize = 0
  · have hk : fldid = fldid / blockSize * blockSize := by
      simp only [blockSize] at *
      omega
    have hgo := @putBlocks_eq key (fldid / blockSize) 0 buf (Nat.zero_le buf.length)
    rw [← hk, Nat.sub_zero, List.drop_zero] at hgo
    simp only [putchunk, blockWrites, htail, hal, ne_eq, not_true_eq_false, if_false, if_true,
      Nat.lt_irrefl, hgo]
  · have hstart_lt := hstart_lt hal
    have hstart : (fldid / blockSize * blockSize + blockSize) % two32 =
        (fldid / blockSize + 1) * blockSize := by
      rw [Nat.mod_eq_of_lt, Nat.add_mul, Nat.one_mul]
      simp only [blockSize] at *
      omega
    have hlt : fldid < (fldid / blockSize + 1) * blockSize := by
      simp only [blockSize] at *
      omega
    have hn : min ((fldid / blockSize + 1) * blockSize) (fldid + buf.length) - fldid =
        headLength fldid buf.length := by
      simp only [headLength, blockSize] at *
      omega
    have hpatch : ∀ var, patchLoop buf (headLength fldid buf.length) fldid 0 var =
        copyWords var (fldid % blockSize) (buf.take (headLength fldid buf.length)) := by
      intro var
      refine patchLoop_eq buf _ fldid 0 var ?_ ?_
      · simp only [headLength, blockSize]
        omega
      · simp only [headLength]
        omega
    have hpart : (buf.take (headLength fldid buf.length)).length ≠ blockSize := by
      rw [List.length_take]
      simp only [headLength, blockSize] at *
      omega
    have haddr : getblock (make64 key fldid) blockArray =
        getblock (make64 key (fldid / blockSize * blockSize)) blockArray := by
      have hlt' : fldid / blockSize * blockSize < two32 := by
        simp only [blockSize] at *
        omega
      rw [getblock_eq hkey (by simp only [blockSize] at *; omega) (by simp [blockArray]),
        getblock_eq hkey hlt' (by simp [blockArray]), Nat.mul_div_cancel _ (by decide)]
    have hgo : putBlocks key buf (fldid + buf.length) ((fldid / blockSize + 1) * blockSize)
        (headLength fldid buf.length) =
        writeBlocks (alignedWrites key (fldid / blockSize + 1)
          (buf.drop (headLength fldid buf.length))) := by
      by_cases hlong : blockSize - fldid % blockSize ≤ buf.length
      · have htail' : fldid + buf.length = (fldid / blockSize + 1) * blockSize +
            (buf.length - headLength fldid buf.length) := by
          simp only [headLength, blockSize] at *
          omega
        have hgo := @putBlocks_eq key (fldid / blockSize + 1) (headLength fldid buf.length) buf
          (by simp only [headLength]; omega)
        rw [htail', hgo]
      · -- the words end inside the first block
        have hall : headLength fldid buf.length = buf.length := by
          simp only [headLength]
          omega
        have hcount : ((fldid + buf.length) / blockSize * blockSize -
            (fldid / blockSize + 1) * blockSize + (blockSize - 1)) / blockSize = 0 := by
          simp only [blockSize] at *
          omega
        rw [hall, List.drop_length, alignedWrites_nil, putBlocks]
        simp only [hcount, blockLoop, Prog.ret_bind, Nat.lt_irrefl, false_and, if_false]
        rfl
    simp only [putchunk, blockWrites, htail, hal, ne_eq, not_false_eq_true, if_false, if_true,
      hstart, hlt, hn, hpatch, haddr, hgo, writeBlocks, BlockWrite.prog, hpart, Prog.bind_assoc]

/-! ## What block writes do to the store -/

namespace BlockWrite

variable {w : BlockWrite}

theorem Valid.copyWords_eq (hw : w.Valid) {blk : List Word} (hblk : blk.length = blockSize) :
    copyWords blk w.pos w.vals = some (w.patched blk) := by
  obtain ⟨d, hd, -, -⟩ := copyWords_spec blk w.pos w.vals (by rw [hblk]; exact hw.fits)
  rw [patched, hd]
  rfl

theorem Valid.length_patched (hw : w.Valid) {blk : List Word} (hblk : blk.length = blockSize) :
    (w.patched blk).length = blockSize := by
  rw [copyWords_length (hw.copyWords_eq hblk), hblk]

theorem Valid.getElem?_patched (hw : w.Valid) {blk : List Word} (hblk : blk.length = blockSize)
    (i : Nat) : (w.patched blk)[i]? =
      if w.pos ≤ i ∧ i < w.pos + w.vals.length then w.vals[i - w.pos]? else blk[i]? := by
  obtain ⟨d, hd, -, hget⟩ := copyWords_spec blk w.pos w.vals (by rw [hblk]; exact hw.fits)
  rw [hw.copyWords_eq hblk] at hd
  rw [Option.some.inj hd, hget]

/-- A whole block takes the new values whatever it held. -/
theorem Valid.patched_whole (hw : w.Valid) (hall : w.vals.length = blockSize) {blk : List Word}
    (hblk : blk.length = blockSize) : w.patched blk = w.vals := by
  have hpos : w.pos = 0 := by
    have hfits := hw.fits
    omega
  rw [patched, hpos, copyWords_all (by omega)]
  rfl

theorem Valid.computes (hw : w.Valid) (hst : Whole st) : Computes w.prog st () (w.apply st) := by
  have hlen := hst.length_block (o := w.key) hw.block_lt
  unfold prog
  split
  · rename_i hall
    refine .set ?_
    rw [apply, hw.patched_whole hall hlen]
    exact .ret () _
  · have hblk : w.block * blockSize < two32 := by
      have hlt := hw.block_lt
      simp only [two32, blockSize] at *
      omega
    have harr : blockArray.length = blockSize := by simp [blockArray]
    have hget := getblock_computes hst hw.key_lt hblk harr
    rw [Nat.mul_div_cancel _ (by decide)] at hget
    refine .bind hget (.bind (.ofOption (hw.copyWords_eq hlen)) (.set ?_))
    exact .ret () _

theorem Valid.whole_apply (hw : w.Valid) (hst : Whole st) : Whole (w.apply st) := by
  intro o b blk hb hblk
  rw [apply] at hblk
  by_cases heq : make64 o b = make64 w.key w.block
  · rw [heq, Function.update_self] at hblk
    rw [← Option.some.inj hblk]
    exact hw.length_patched (hst.length_block hw.block_lt)
  · rw [Function.update_of_ne heq] at hblk
    exact hst o b blk hb hblk

theorem Valid.memory_apply (hw : w.Valid) (hst : Whole st) :
    Memory.AgreeBelow two32 (memory (w.apply st)) (w.write (memory st)) := by
  intro o x hx
  have hlen := hst.length_block (o := w.key) hw.block_lt
  rw [memory_eq, write, Memory.write, memory_eq]
  by_cases heq : o = w.key ∧ x / blockSize = w.block
  · obtain ⟨rfl, hb⟩ := heq
    have hblk : Chunk.block (w.apply st) w.key (x / blockSize) =
        w.patched (Chunk.block st w.key w.block) := by
      rw [Chunk.block, apply, hb, Function.update_self]
      rfl
    rw [hblk, hb, List.getD_eq_getElem?_getD, hw.getElem?_patched hlen]
    have hfits := hw.fits
    have hin : (w.pos ≤ x % blockSize ∧ x % blockSize < w.pos + w.vals.length) ↔
        (w.block * blockSize + w.pos ≤ x ∧ x < w.block * blockSize + w.pos + w.vals.length) := by
      simp only [blockSize] at *
      omega
    have hoff : x % blockSize - w.pos = x - (w.block * blockSize + w.pos) := by
      simp only [blockSize] at *
      omega
    simp only [hin, hoff, List.getD_eq_getElem?_getD, true_and]
    split <;> rfl
  · have hkey : make64 o (x / blockSize) ≠ make64 w.key w.block := by
      intro h
      exact heq (make64_inj (lt_two32_of_block (blockIndex_lt hx)) (lt_two32_of_block hw.block_lt) h)
    have hblk : Chunk.block (w.apply st) o (x / blockSize) = Chunk.block st o (x / blockSize) := by
      rw [Chunk.block, apply, Function.update_of_ne hkey]
      rfl
    rw [hblk, if_neg]
    rintro ⟨rfl, h₁, h₂⟩
    have hfits := hw.fits
    refine heq ⟨rfl, ?_⟩
    simp only [blockSize] at *
    omega

end BlockWrite

/-- Performing valid block writes performs them in the flat memory. -/
theorem writeBlocks_computes {ws : List BlockWrite} (hws : ∀ w ∈ ws, w.Valid) (hst : Whole st) :
    ∃ st', Computes (writeBlocks ws) st () st' ∧ Whole st' ∧
      Memory.AgreeBelow two32 (memory st') (ws.foldl (fun m w => w.write m) (memory st)) := by
  induction ws generalizing st with
  | nil => exact ⟨st, .ret () st, hst, .refl _⟩
  | cons w ws ih =>
      have hw : w.Valid := hws w (by simp)
      obtain ⟨st', hcomp, hwhole, hagree⟩ := ih (fun w hw => hws w (by simp [hw])) (hw.whole_apply hst)
      refine ⟨st', .bind (hw.computes hst) hcomp, hwhole, hagree.trans ?_⟩
      rw [List.foldl_cons]
      have hfold : ∀ (l : List BlockWrite) {m m' : Memory}, Memory.AgreeBelow two32 m m' →
          Memory.AgreeBelow two32 (l.foldl (fun m w => w.write m) m)
            (l.foldl (fun m w => w.write m) m') := by
        intro l
        induction l with
        | nil => exact fun h => h
        | cons v l ihl => exact fun h => ihl (h.write _ _ _)
      exact hfold ws (hw.memory_apply hst)

theorem foldl_alignedWrites (key b : Nat) (buf : List Word) (m : Memory) :
    (alignedWrites key b buf).foldl (fun m w => w.write m) m = m.write key (b * blockSize) buf := by
  induction b, buf using alignedWrites.induct generalizing m with
  | case1 b => rw [alignedWrites_nil, Memory.write_nil]; rfl
  | case2 b buf h ih =>
      rw [alignedWrites_cons h, List.foldl_cons, ih, BlockWrite.write, Nat.add_zero]
      conv_rhs => rw [← List.take_append_drop blockSize buf, Memory.write_append]
      by_cases hlen : blockSize ≤ buf.length
      · rw [List.length_take, Nat.min_eq_left hlen, Nat.add_mul, Nat.one_mul]
      · rw [List.drop_eq_nil_of_le (by omega), Memory.write_nil, Memory.write_nil]

theorem foldl_blockWrites (key fldid : Nat) (buf : List Word) (m : Memory) :
    (blockWrites key fldid buf).foldl (fun m w => w.write m) m = m.write key fldid buf := by
  rw [blockWrites]
  split
  · rename_i hal
    rw [foldl_alignedWrites, show fldid / blockSize * blockSize = fldid by
      simp only [blockSize] at *
      omega]
  · rw [List.foldl_cons, foldl_alignedWrites, BlockWrite.write]
    have hpos : fldid / blockSize * blockSize + fldid % blockSize = fldid := by
      simp only [blockSize]
      omega
    rw [hpos]
    conv_rhs => rw [← List.take_append_drop (headLength fldid buf.length) buf, Memory.write_append]
    by_cases hlong : blockSize - fldid % blockSize ≤ buf.length
    · rw [List.length_take, show fldid + min (headLength fldid buf.length) buf.length =
          (fldid / blockSize + 1) * blockSize by
        simp only [headLength, blockSize] at *
        omega]
    · have hnil : buf.drop (headLength fldid buf.length) = [] := by
        apply List.drop_eq_nil_of_le
        simp only [headLength]
        omega
      rw [hnil, Memory.write_nil, Memory.write_nil]

theorem alignedWrites_valid {key b : Nat} {buf : List Word} (hkey : key < two32)
    (hrange : b * blockSize + buf.length < two32) : ∀ w ∈ alignedWrites key b buf, w.Valid := by
  induction b, buf using alignedWrites.induct with
  | case1 b => simp [alignedWrites_nil]
  | case2 b buf h ih =>
      have hpos := List.length_pos_iff.mpr h
      rw [alignedWrites_cons h]
      intro w hw
      rcases List.mem_cons.mp hw with rfl | hw
      · refine ⟨hkey, ?_, ?_⟩
        · simp only [two32, blockSize] at *
          omega
        · simp only [List.length_take]
          omega
      · by_cases hlen : blockSize ≤ buf.length
        · refine ih ?_ w hw
          rw [List.length_drop, Nat.add_mul]
          omega
        · rw [List.drop_eq_nil_of_le (by omega), alignedWrites_nil] at hw
          cases hw

theorem blockWrites_valid {buf : List Word} (hkey : key < two32) (hrange : NoWrap fldid buf.length) :
    ∀ w ∈ blockWrites key fldid buf, w.Valid := by
  obtain ⟨htail_lt, -⟩ := hrange
  rw [blockWrites]
  split
  · refine alignedWrites_valid hkey ?_
    simp only [blockSize] at *
    omega
  · intro w hw
    rcases List.mem_cons.mp hw with rfl | hw
    · refine ⟨hkey, ?_, ?_⟩
      · simp only [two32, blockSize] at *
        omega
      · simp only [List.length_take, headLength, blockSize]
        omega
    · by_cases hlong : blockSize - fldid % blockSize ≤ buf.length
      · refine alignedWrites_valid hkey ?_ w hw
        rw [List.length_drop]
        simp only [headLength, blockSize] at *
        omega
      · have hnil : buf.drop (headLength fldid buf.length) = [] := by
          apply List.drop_eq_nil_of_le
          simp only [headLength]
          omega
        rw [hnil, alignedWrites_nil] at hw
        cases hw

/-- `putchunk` writes its words and nothing else. -/
theorem putchunk_computes (buf : List Word) (hst : Whole st) (hkey : key < two32)
    (hrange : NoWrap fldid buf.length) :
    ∃ st', Computes (putchunk key fldid buf) st () st' ∧ Whole st' ∧
      Memory.AgreeBelow two32 (memory st') ((memory st).write key fldid buf) := by
  obtain ⟨st', hcomp, hwhole, hagree⟩ := writeBlocks_computes (blockWrites_valid hkey hrange) hst
  rw [foldl_blockWrites] at hagree
  rw [putchunk_eq hkey hrange]
  exact ⟨st', hcomp, hwhole, hagree⟩

end Chunk

end Dogee.Memcached
