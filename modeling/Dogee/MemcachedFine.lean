import Dogee.MemcachedChunk

/-!
# The backend with one key for each word

Writes store word after word. A read asks for batches of keys; its loop advances
a 32-bit offset, which passes its range when the read is longer than the last
multiple of the batch below `two32`. Up to that length the read is right, and
beyond it the loop leaves the buffer.
-/

namespace Dogee.Memcached

namespace Fine

open KeyValue

/-- The words that the values of a store stand for. -/
def memory (st : Nat → Option (List Word)) : Memory := fun o w =>
  match st (make64 o w) with
  | some (v :: _) => v
  | _ => 0

/-- Every value below the limit is one word long. -/
def Single (st : Nat → Option (List Word)) : Prop :=
  ∀ o w vs, w < wordLimit → st (make64 o w) = some vs → ∃ v, vs = [v]

variable {st : Nat → Option (List Word)} {key fldid : Nat}

theorem Single.update (hst : Single st) {k : Nat} (v : Word) :
    Single (Function.update st k (some [v])) := by
  intro o w vs hw h
  by_cases heq : make64 o w = k
  · rw [heq, Function.update_self] at h
    exact ⟨v, (Option.some.inj h).symm⟩
  · rw [Function.update_of_ne heq] at h
    exact hst o w vs hw h

theorem memory_update (hfld : fldid < two32) (v : Word) :
    Memory.AgreeBelow wordLimit (memory (Function.update st (make64 key fldid) (some [v])))
      ((memory st).write key fldid [v]) := by
  intro o w hw
  rw [Memory.write, List.length_singleton]
  by_cases heq : o = key ∧ w = fldid
  · obtain ⟨rfl, rfl⟩ := heq
    rw [if_pos ⟨rfl, Nat.le_refl _, Nat.lt_succ_self _⟩, memory, Function.update_self, Nat.sub_self]
    rfl
  · have hne : make64 o w ≠ make64 key fldid := fun h =>
      heq (make64_inj (Nat.lt_trans hw wordLimit_lt) hfld h)
    rw [if_neg (by omega), memory, Function.update_of_ne hne]
    rfl

theorem putchunk_computes (key : Nat) (buf : List Word) (hst : Single st)
    (hrange : fldid + buf.length ≤ wordLimit) :
    ∃ st', Computes (putchunk key fldid buf) st () st' ∧ Single st' ∧
      Memory.AgreeBelow wordLimit (memory st') ((memory st).write key fldid buf) := by
  unfold putchunk
  induction buf generalizing fldid st with
  | nil =>
      refine ⟨st, .ret () st, hst, ?_⟩
      rw [Memory.write_nil]
      exact .refl _
  | cons v vs ih =>
      have hlimit := wordLimit_lt
      rw [List.length_cons] at hrange
      have hnext : (fldid + 1) % two32 = fldid + 1 := Nat.mod_eq_of_lt (by omega)
      obtain ⟨st', hcomp, hsingle, hagree⟩ := ih (hst.update (k := make64 key fldid) v)
        (by omega : fldid + 1 + vs.length ≤ wordLimit)
      refine ⟨st', .set ?_, hsingle, hagree.trans ?_⟩
      · rw [hnext]
        exact hcomp
      · rw [show v :: vs = [v] ++ vs from rfl, Memory.write_append]
        exact (memory_update (by omega) v).write _ _ _

theorem put32_computes (key : Nat) (hst : Single st) (hfld : fldid < wordLimit) (v : Word) :
    ∃ st', Computes (put32 key fldid v) st () st' ∧ Single st' ∧
      Memory.AgreeBelow wordLimit (memory st') ((memory st).write key fldid [v]) :=
  ⟨_, .set (.ret () _), hst.update v, memory_update (Nat.lt_trans hfld wordLimit_lt) v⟩

theorem get_computes (hst : Single st) (hfld : fldid < wordLimit) :
    Computes (get key fldid) st (memory st key fldid) st := by
  refine .mget fun rs hrs => ?_
  cases hstore : st (make64 key fldid) with
  | none =>
      have hnil : rs = [] := by
        apply List.eq_nil_iff_forall_not_mem.mpr
        intro e he
        obtain ⟨hk, hv⟩ := (hrs e).mp he
        rw [List.mem_singleton.mp hk, hstore] at hv
        cases hv
      rw [hnil, memory, hstore]
      exact .ret 0 st
  | some vs =>
      obtain ⟨v, rfl⟩ := hst key fldid vs hfld hstore
      have hmem : (make64 key fldid, [v]) ∈ rs := (hrs _).mpr ⟨by simp, hstore⟩
      cases rs with
      | nil => cases hmem
      | cons e rs =>
          obtain ⟨hk, hv⟩ := (hrs e).mp (by simp)
          rw [List.mem_singleton.mp hk, hstore] at hv
          rw [memory, hstore]
          refine .ofOption ?_
          rw [← Option.some.inj hv]
          rfl

/-! ## The read loop -/

/-- The longest read whose offsets stay below `two32`. -/
def maxRead : Nat := two32 / fetchBatch * fetchBatch

theorem mem_fetchKeys {k len e : Nat} (hk : k + len ≤ two64) :
    e ∈ fetchKeys k len ↔ ∃ i < len, e = k + i := by
  have hmod : ∀ i < len, (k + i) % two64 = k + i := fun i hi => Nat.mod_eq_of_lt (by omega)
  simp only [fetchKeys, List.mem_map, List.mem_range]
  constructor
  · rintro ⟨i, hi, rfl⟩
    exact ⟨i, hi, hmod i hi⟩
  · rintro ⟨i, hi, rfl⟩
    exact ⟨i, hi, hmod i hi⟩

/-- The answers of one batch, in any order, fill the cleared part with its words. -/
theorem storeReplies_eq (hst : Single st) (hkey : key < two32) {offset mylen : Nat}
    {buf z : List Word} (hrange : fldid + (offset + mylen) ≤ wordLimit)
    (hbuf : offset + mylen ≤ buf.length)
    (hz : copyWords buf offset (List.replicate mylen 0) = some z)
    {rs : List (Nat × List Word)}
    (hrs : ∀ e, e ∈ rs ↔ e.1 ∈ fetchKeys (make64 key fldid + offset) mylen ∧ st e.1 = some e.2) :
    storeReplies (make64 key fldid) z rs =
      copyWords buf offset ((memory st).read key (fldid + offset) mylen) := by
  obtain ⟨z', hz', hzlen, hzget⟩ :=
    copyWords_spec buf offset (List.replicate mylen 0) (by simpa using hbuf)
  obtain rfl : z' = z := Option.some.inj (hz'.symm.trans hz)
  obtain ⟨d, hd, hdlen, hdget⟩ :=
    copyWords_spec buf offset ((memory st).read key (fldid + offset) mylen) (by simpa using hbuf)
  rw [List.length_replicate] at hzget
  rw [Memory.length_read] at hdget
  have hk64 : make64 key fldid + offset + mylen ≤ two64 := by
    simp only [make64, wordLimit, two32, two64, blockSize] at *
    omega
  have hword : ∀ x, make64 key fldid + x = make64 key (fldid + x) := fun x => by
    rw [make64, make64, Nat.add_assoc]
  obtain ⟨buf', hrun, hlen, hget⟩ := @foldlM_fill Word _
    (fun buf e => do
      let v ← e.2.head?
      copyWords buf ((e.1 + two64 - make64 key fldid) % two64) [v])
    (fun e x => e.1 = make64 key fldid + x)
    (fun x => memory st key (fldid + x)) z'.length rs (by
      intro e he buf₁ hbuf₁
      obtain ⟨hmem, hval⟩ := (hrs e).mp he
      obtain ⟨i, hi, hei⟩ := (mem_fetchKeys hk64).mp hmem
      rw [Nat.add_assoc] at hei
      rw [hei, hword] at hval
      obtain ⟨v, hv⟩ := hst key (fldid + (offset + i)) e.2 (by omega) hval
      have hidx : (e.1 + two64 - make64 key fldid) % two64 = offset + i := by
        rw [hei]
        simp only [make64, wordLimit, two32, two64, blockSize] at *
        omega
      obtain ⟨buf', hrun, hlen, hget⟩ := copyWords_spec buf₁ (offset + i) [v]
        (by rw [List.length_singleton]; omega)
      refine ⟨buf', ?_, hlen.trans hbuf₁, fun x => ⟨fun hx => ?_, fun hx => ?_⟩⟩
      · rw [hv, hidx]
        exact hrun
      · have hxi : x = offset + i := by omega
        rw [hget, hxi, List.length_singleton, if_pos (by omega), Nat.sub_self, memory, hval, hv]
        rfl
      · rw [hget, List.length_singleton, if_neg (by omega)]) z' rfl
  rw [storeReplies, hrun, hd]
  refine congrArg some (List.ext_getElem? fun x => ?_)
  rw [hdget]
  by_cases hx : offset ≤ x ∧ x < offset + mylen
  · rw [if_pos hx, Memory.getElem?_read (by omega), show fldid + offset + (x - offset) = fldid + x by omega]
    have hreq : make64 key fldid + x ∈ fetchKeys (make64 key fldid + offset) mylen :=
      (mem_fetchKeys hk64).mpr ⟨x - offset, by omega, by omega⟩
    cases hstore : st (make64 key fldid + x) with
    | some vs => exact (hget x).1 ⟨(_, vs), (hrs _).mpr ⟨hreq, hstore⟩, rfl⟩
    | none =>
        -- an absent word reads as zero, and the part was cleared
        have hnone : ∀ e ∈ rs, ¬e.1 = make64 key fldid + x := by
          intro e he hek
          have hval := ((hrs e).mp he).2
          rw [hek, hstore] at hval
          cases hval
        rw [hword] at hstore
        rw [(hget x).2 hnone, hzget, if_pos hx, memory, hstore, List.getElem?_replicate,
          if_pos (by omega)]
  · have hnone : ∀ e ∈ rs, ¬e.1 = make64 key fldid + x := by
      intro e he hek
      obtain ⟨i, hi, hei⟩ := (mem_fetchKeys hk64).mp ((hrs e).mp he).1
      omega
    rw [if_neg hx, (hget x).2 hnone, hzget, if_neg hx]

/-- The loop of a read that is not too long. -/
theorem getChunkLoop_computes (hst : Single st) (hkey : key < two32) {len : Nat}
    (hrange : fldid + len ≤ wordLimit) (hmax : len ≤ maxRead) :
    ∀ (fuel offset : Nat) (buf : List Word), len - offset < fuel → offset % fetchBatch = 0 →
      buf.length = len → (memory st).Filled key fldid (min offset len) buf →
      Computes (getChunkLoop (make64 key fldid) len fuel offset buf) st
        ((memory st).read key fldid len) st := by
  intro fuel
  induction fuel with
  | zero =>
      intro offset buf hfuel
      exact absurd hfuel (Nat.not_lt_zero _)
  | succ fuel ih =>
      intro offset buf hfuel hoff hbuf hfill
      rw [getChunkLoop]
      split
      · rename_i hlt
        have hnext : (offset + fetchBatch) % two32 = offset + fetchBatch := by
          refine Nat.mod_eq_of_lt ?_
          simp only [maxRead, fetchBatch, two32] at *
          omega
        have hpos : 0 < fetchBatch := by decide
        rw [hnext]
        obtain ⟨mylen, hmy⟩ : ∃ mylen, mylen =
            if offset + fetchBatch < len then fetchBatch else len - offset := ⟨_, rfl⟩
        have hsum : offset + mylen = min (offset + fetchBatch) len := by
          rw [hmy]
          split <;> omega
        rw [Nat.min_eq_left (Nat.le_of_lt hlt)] at hfill
        obtain ⟨buf₁, hread, hlen₁, hfill₁⟩ := hfill.extend mylen (by omega)
        obtain ⟨z, hz, -, -⟩ := copyWords_spec buf offset (List.replicate mylen 0)
          (by rw [List.length_replicate]; omega)
        rw [← hmy]
        refine .bind (.ofOption hz) (.mget fun rs hrs =>
          .bind (.ret rs st) (.bind (.ofOption (a := buf₁) ?_) ?_))
        · rw [storeReplies_eq hst hkey (by omega) (by omega) hz hrs, hread]
        · refine ih (offset + fetchBatch) buf₁ (by omega) (by rw [Nat.add_mod_right, hoff])
            (hlen₁.trans hbuf) ?_
          rw [← hsum]
          exact hfill₁
      · have hres : buf = (memory st).read key fldid len :=
          Memory.eq_read hbuf fun i hi => hfill i (by omega)
        rw [← hres]
        exact .ret _ st

theorem getchunk_computes (hst : Single st) (hkey : key < two32) {len : Nat} {buf : List Word}
    (hrange : fldid + len ≤ wordLimit) (hmax : len ≤ maxRead) (hbuf : buf.length = len) :
    Computes (getchunk key fldid len buf) st ((memory st).read key fldid len) st := by
  refine getChunkLoop_computes hst hkey hrange hmax (len + 1) 0 buf (by omega) rfl hbuf ?_
  intro x hx
  omega

theorem storeReplies_length {k : Nat} {buf buf' : List Word} {rs : List (Nat × List Word)}
    (h : storeReplies k buf rs = some buf') : buf'.length = buf.length := by
  unfold storeReplies at h
  induction rs generalizing buf with
  | nil =>
      cases h
      rfl
  | cons e rs ih =>
      rw [List.foldlM_cons, Option.bind_eq_bind, Option.bind_eq_some_iff] at h
      obtain ⟨buf₁, h₁, h₂⟩ := h
      rw [Option.bind_eq_bind, Option.bind_eq_some_iff] at h₁
      obtain ⟨v, -, hcopy⟩ := h₁
      rw [ih h₂, copyWords_length hcopy]

/-- A read that is too long ends in an access outside its buffer. -/
theorem getChunkLoop_crashes (o : Order Nat (List Word)) {k len : Nat} (hmax : maxRead < len)
    (hlen : len ≤ wordLimit) :
    ∀ (fuel offset : Nat) (buf : List Word) (s : Server Nat (List Word)), offset % fetchBatch = 0 →
      offset ≤ maxRead → buf.length = len → exec o (getChunkLoop k len fuel offset buf) s = none := by
  intro fuel
  induction fuel with
  | zero => exact fun _ _ _ _ _ _ => rfl
  | succ fuel ih =>
      intro offset buf s hoff hle hbuf
      by_cases hlast : offset = maxRead
      · -- the batch starts less than a batch before the end of the buffer
        have hmy : (offset + fetchBatch) % two32 < len := by
          rw [hlast]
          refine Nat.lt_trans ?_ hmax
          decide
        have hnone : copyWords buf offset (List.replicate fetchBatch 0) = none := by
          refine copyWords_eq_none (by decide) ?_
          rw [List.length_replicate, hlast, hbuf]
          refine Nat.lt_of_le_of_lt hlen ?_
          decide
        rw [getChunkLoop, if_pos (by omega), if_pos hmy, exec_bind, hnone]
        rfl
      · have hle' : offset + fetchBatch ≤ maxRead := by
          simp only [maxRead, two32, fetchBatch] at *
          omega
        have hnext : (offset + fetchBatch) % two32 = offset + fetchBatch :=
          Nat.mod_eq_of_lt (Nat.lt_of_le_of_lt hle' (by decide))
        rw [getChunkLoop, if_pos (by omega), hnext, if_pos (by omega), exec_bind]
        cases hz : copyWords buf offset (List.replicate fetchBatch 0) with
        | none => rfl
        | some z =>
            simp only [ownMemory, Prog.ofOption, exec, Option.bind_some, fetch, Prog.mget_bind,
              Prog.ret_bind]
            cases hz' : storeReplies k z (s.replies o (fetchKeys (k + offset) fetchBatch)) with
            | none => rfl
            | some buf' =>
                refine ih (offset + fetchBatch) buf' _ (by rw [Nat.add_mod_right, hoff]) hle' ?_
                rw [storeReplies_length hz', copyWords_length hz, hbuf]

/-- The length of a read beyond which the loop leaves its buffer. -/
theorem getchunk_crashes (o : Order Nat (List Word)) {len : Nat} {buf : List Word}
    (hmax : maxRead < len) (hlen : len ≤ wordLimit) (hbuf : buf.length = len)
    (s : Server Nat (List Word)) : exec o (getchunk key fldid len buf) s = none :=
  getChunkLoop_crashes o hmax hlen (len + 1) 0 buf s rfl (Nat.zero_le _) hbuf

end Fine

end Dogee.Memcached
