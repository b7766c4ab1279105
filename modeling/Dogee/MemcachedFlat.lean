import Dogee.MemcachedChunkRead
import Dogee.MemcachedFine
import Dogee.StorageCall

/-!
# The backends against flat memory

A sequence of storage calls is served by each backend and, as a specification,
by a flat word memory. Each call of a backend computes what the flat memory
gives, except a read of the word backend that is longer than `maxRead` words.
-/

namespace Dogee.Memcached

open KeyValue

/-- The call of `SoStorageMemcached`. -/
def fineCall : Call → Prog (List Word)
  | .put key fldid v => do Fine.put32 key fldid v; .ret []
  | .put64 key fldid v => do Fine.put64 key fldid v; .ret []
  | .putchunk key fldid buf => do Fine.putchunk key fldid buf; .ret []
  | .putchunk64 key fldid buf => do Fine.putchunk64 key fldid buf; .ret []
  | .get key fldid => do let v ← Fine.get key fldid; .ret [v]
  | .getchunk key fldid len buf => Fine.getchunk key fldid len buf
  | .getchunk64 key fldid len buf => Fine.getchunk64 key fldid len buf
  | .getblock key fldid buf => Fine.getblock (make64 key fldid) buf

/-- The call of `SoStorageChunkMemcached`. -/
def chunkCall : Call → Prog (List Word)
  | .put key fldid v => do Chunk.put32 key fldid v; .ret []
  | .put64 key fldid v => do Chunk.put64 key fldid v; .ret []
  | .putchunk key fldid buf => do Chunk.putchunk key fldid buf; .ret []
  | .putchunk64 key fldid buf => do Chunk.putchunk64 key fldid buf; .ret []
  | .get key fldid => do let v ← Chunk.get key fldid; .ret [v]
  | .getchunk key fldid len buf => Chunk.getchunk key fldid len buf
  | .getchunk64 key fldid len buf => Chunk.getchunk64 key fldid len buf
  | .getblock key fldid buf => Chunk.getblock (make64 key fldid) buf

/-- The calls one after another on a backend. -/
def serve (f : Call → Prog (List Word)) : List Call → Prog (List (List Word))
  | [] => .ret []
  | c :: cs => do
      let r ← f c
      let rs ← serve f cs
      .ret (r :: rs)

/-- In any order of the server's answers, the calls return what the flat memory
returns, and the words that the store then stands for are those of the flat memory. -/
def Implements (f : Call → Prog (List Word)) (mem : (Nat → Option (List Word)) → Memory)
    (st : Nat → Option (List Word)) (calls : List Call) : Prop :=
  ∀ o : Order Nat (List Word), ∃ s,
    exec o (serve f calls) ⟨st, 0⟩ = some ((flatRun calls Memory.empty).1, s) ∧
      Memory.AgreeBelow wordLimit (mem s.store) (flatRun calls Memory.empty).2

/-- A store in which no word has been written; object information may be there. -/
def Unwritten (st : Nat → Option (List Word)) : Prop :=
  ∀ o w, w < wordLimit → st (make64 o w) = none

/-- One call meets its specification: it returns what the flat memory returns and
keeps the store in step with it. -/
def Meets (f : Call → Prog (List Word)) (mem : (Nat → Option (List Word)) → Memory)
    (inv : (Nat → Option (List Word)) → Prop) (c : Call) : Prop :=
  ∀ st, inv st → ∃ st', Computes (f c) st (c.flat (mem st)).1 st' ∧ inv st' ∧
    Memory.AgreeBelow wordLimit (mem st') (c.flat (mem st)).2

/-- A sequence of calls that each meet the specification. -/
theorem serve_computes {f : Call → Prog (List Word)} {mem : (Nat → Option (List Word)) → Memory}
    {inv : (Nat → Option (List Word)) → Prop} {calls : List Call}
    (hspec : ∀ c ∈ calls, c.InRange ∧ Meets f mem inv c) :
    ∀ {st : Nat → Option (List Word)} {m : Memory}, inv st →
      Memory.AgreeBelow wordLimit (mem st) m →
      ∃ st', Computes (serve f calls) st (flatRun calls m).1 st' ∧
        Memory.AgreeBelow wordLimit (mem st') (flatRun calls m).2 := by
  induction calls with
  | nil => exact fun {st m} _ hm => ⟨st, .ret [] st, hm⟩
  | cons c calls ih =>
      intro st m hst hm
      obtain ⟨hrange, hc⟩ := hspec c (by simp)
      obtain ⟨st₁, hcomp, hinv, hagree⟩ := hc st hst
      obtain ⟨hres, hmem⟩ := Call.flat_congr hrange hm
      rw [hres] at hcomp
      obtain ⟨st', hcomp', hagree'⟩ :=
        ih (fun c hc => hspec c (by simp [hc])) hinv (hagree.trans hmem)
      exact ⟨st', .bind hcomp (.bind hcomp' (.ret _ st')), hagree'⟩

theorem implements_of_meets {f : Call → Prog (List Word)}
    {mem : (Nat → Option (List Word)) → Memory} {inv : (Nat → Option (List Word)) → Prop}
    {calls : List Call} {st : Nat → Option (List Word)}
    (hspec : ∀ c ∈ calls, c.InRange ∧ Meets f mem inv c) (hst : inv st)
    (hmem : Memory.AgreeBelow wordLimit (mem st) Memory.empty) : Implements f mem st calls := by
  intro o
  obtain ⟨st', hcomp, hagree⟩ := serve_computes hspec hst hmem
  obtain ⟨n, hn⟩ := hcomp o 0
  exact ⟨_, hn, hagree⟩

theorem blockSize_le_maxRead : blockSize ≤ Fine.maxRead := by decide

/-- Every call of the word backend whose read is not too long. -/
theorem fine_meets {c : Call} (hc : c.InRange) (hlen : c.readLength ≤ Fine.maxRead) :
    Meets fineCall Fine.memory Fine.Single c := by
  intro st hst
  cases c with
  | put key fldid v =>
      obtain ⟨st', hcomp, hinv, hagree⟩ := Fine.put32_computes key hst hc.2 v
      exact ⟨st', .bind hcomp (.ret [] st'), hinv, hagree⟩
  | put64 key fldid v =>
      obtain ⟨st', hcomp, hinv, hagree⟩ := Fine.putchunk_computes key (words64 v) hst hc.2
      exact ⟨st', .bind hcomp (.ret [] st'), hinv, hagree⟩
  | putchunk key fldid buf =>
      obtain ⟨st', hcomp, hinv, hagree⟩ := Fine.putchunk_computes key buf hst hc.2
      exact ⟨st', .bind hcomp (.ret [] st'), hinv, hagree⟩
  | putchunk64 key fldid buf =>
      obtain ⟨st', hcomp, hinv, hagree⟩ := Fine.putchunk_computes key (buf.flatMap words64) hst
        (by rw [length_flatMap_words64]; exact hc.2)
      rw [← take_words64 (lt_two32_of_range hc.2)] at hcomp
      exact ⟨st', .bind hcomp (.ret [] st'), hinv, hagree⟩
  | get key fldid => exact ⟨st, .bind (Fine.get_computes hst hc.2) (.ret _ st), hst, .refl _⟩
  | getchunk key fldid len buf =>
      exact ⟨st, Fine.getchunk_computes hst hc.1 hc.2.1 hlen hc.2.2, hst, .refl _⟩
  | getchunk64 key fldid len buf =>
      refine ⟨st, ?_, hst, .refl _⟩
      rw [fineCall, Fine.getchunk64, Nat.mod_eq_of_lt (lt_two32_of_range hc.2.1)]
      exact Fine.getchunk_computes hst hc.1 hc.2.1 hlen hc.2.2
  | getblock key fldid buf =>
      exact ⟨st, Fine.getchunk_computes hst hc.1 hc.2.1 blockSize_le_maxRead hc.2.2.2, hst, .refl _⟩

theorem range_block {fldid n : Nat} (h : fldid + n ≤ wordLimit) : fldid + n + blockSize ≤ two32 := by
  simp only [wordLimit, two32, blockSize] at *
  omega

theorem noWrap_of_range {fldid n : Nat} (h : fldid + n ≤ wordLimit) : Chunk.NoWrap fldid n := by
  constructor
  · exact Nat.lt_of_le_of_lt h wordLimit_lt
  · intro _
    simp only [wordLimit, two32, blockSize] at *
    omega

/-- Every call of the block backend. -/
theorem chunk_meets {c : Call} (hc : c.InRange) : Meets chunkCall Chunk.memory Chunk.Whole c := by
  intro st hst
  have hle : wordLimit ≤ two32 := Nat.le_of_lt wordLimit_lt
  cases c with
  | put key fldid v =>
      obtain ⟨st', hcomp, hinv, hagree⟩ := Chunk.putchunk_computes [v] hst hc.1 (noWrap_of_range hc.2)
      exact ⟨st', .bind hcomp (.ret [] st'), hinv, hagree.mono hle⟩
  | put64 key fldid v =>
      obtain ⟨st', hcomp, hinv, hagree⟩ :=
        Chunk.putchunk_computes (words64 v) hst hc.1 (noWrap_of_range hc.2)
      exact ⟨st', .bind hcomp (.ret [] st'), hinv, hagree.mono hle⟩
  | putchunk key fldid buf =>
      obtain ⟨st', hcomp, hinv, hagree⟩ := Chunk.putchunk_computes buf hst hc.1 (noWrap_of_range hc.2)
      exact ⟨st', .bind hcomp (.ret [] st'), hinv, hagree.mono hle⟩
  | putchunk64 key fldid buf =>
      obtain ⟨st', hcomp, hinv, hagree⟩ := Chunk.putchunk_computes (buf.flatMap words64) hst hc.1
        (by rw [length_flatMap_words64]; exact noWrap_of_range hc.2)
      rw [← take_words64 (lt_two32_of_range hc.2)] at hcomp
      exact ⟨st', .bind hcomp (.ret [] st'), hinv, hagree.mono hle⟩
  | get key fldid =>
      have hfld : fldid < two32 := Nat.lt_of_lt_of_le hc.2 hle
      exact ⟨st, .bind (Chunk.get_computes hst hc.1 hfld) (.ret _ st), hst, .refl _⟩
  | getchunk key fldid len buf =>
      exact ⟨st, Chunk.getchunk_computes hst hc.1 (range_block hc.2.1) hc.2.2, hst, .refl _⟩
  | getchunk64 key fldid len buf =>
      refine ⟨st, ?_, hst, .refl _⟩
      rw [chunkCall, Chunk.getchunk64, Nat.mod_eq_of_lt (lt_two32_of_range hc.2.1)]
      exact Chunk.getchunk_computes hst hc.1 (range_block hc.2.1) hc.2.2
  | getblock key fldid buf =>
      have hfld : fldid < two32 := Nat.lt_of_le_of_lt (Nat.le_add_right _ _)
        (Nat.lt_of_le_of_lt hc.2.1 wordLimit_lt)
      refine ⟨st, ?_, hst, .refl _⟩
      have hget := Chunk.getblock_computes hst hc.1 hfld hc.2.2.2
      rw [Chunk.block_eq_read hst (Chunk.blockIndex_lt hfld) hc.2.2.1] at hget
      exact hget

/-- A read that is too long never returns. -/
theorem fine_crashes (o : Order Nat (List Word)) {c : Call} (hc : c.InRange)
    (hlen : Fine.maxRead < c.readLength) (s : Server Nat (List Word)) : exec o (fineCall c) s = none := by
  cases c with
  | getchunk key fldid len buf =>
      exact Fine.getchunk_crashes o hlen (Nat.le_trans (Nat.le_add_left _ _) hc.2.1) hc.2.2 s
  | getchunk64 key fldid len buf =>
      rw [fineCall, Fine.getchunk64, Nat.mod_eq_of_lt (lt_two32_of_range hc.2.1)]
      exact Fine.getchunk_crashes o hlen (Nat.le_trans (Nat.le_add_left _ _) hc.2.1) hc.2.2 s
  | _ => exact absurd hlen (Nat.not_lt_zero _)

theorem serve_fine_crashes (o : Order Nat (List Word)) {calls : List Call} {c : Call}
    (hmem : c ∈ calls) (hcrash : ∀ s, exec o (fineCall c) s = none) (s : Server Nat (List Word)) :
    exec o (serve fineCall calls) s = none := by
  induction calls generalizing s with
  | nil => cases hmem
  | cons d calls ih =>
      rw [serve, exec_bind]
      rcases List.mem_cons.mp hmem with rfl | hmem
      · rw [hcrash]
        rfl
      · cases exec o (fineCall d) s with
        | none => rfl
        | some r =>
            rw [Option.bind_some, exec_bind, ih hmem]
            rfl

theorem Unwritten.single {st : Nat → Option (List Word)} (hst : Unwritten st) : Fine.Single st := by
  intro o w vs hw h
  rw [hst o w hw] at h
  cases h

theorem Unwritten.whole {st : Nat → Option (List Word)} (hst : Unwritten st) : Chunk.Whole st := by
  intro o b blk hb h
  rw [hst o b (Nat.lt_trans hb (by decide))] at h
  cases h

theorem Unwritten.fine_memory {st : Nat → Option (List Word)} (hst : Unwritten st) :
    Memory.AgreeBelow wordLimit (Fine.memory st) Memory.empty := by
  intro o w hw
  rw [Fine.memory, hst o w hw]
  rfl

theorem Unwritten.chunk_memory {st : Nat → Option (List Word)} (hst : Unwritten st) :
    Memory.AgreeBelow wordLimit (Chunk.memory st) Memory.empty := by
  intro o w hw
  rw [Chunk.memory, hst o _ (Nat.lt_of_le_of_lt (Nat.div_le_self _ _) hw)]
  rfl

/-- Both backends implement flat memory on a sequence of calls exactly when no
chunk read of the sequence is longer than `maxRead` words. -/
theorem backends_implement_iff (calls : List Call) (st : Nat → Option (List Word))
    (hrange : ∀ c ∈ calls, c.InRange) (hst : Unwritten st) :
    (Implements fineCall Fine.memory st calls ∧ Implements chunkCall Chunk.memory st calls) ↔
      ∀ c ∈ calls, c.readLength ≤ Fine.maxRead := by
  constructor
  · rintro ⟨hfine, -⟩ c hc
    apply Nat.le_of_not_lt
    intro hlong
    obtain ⟨s, hrun, -⟩ := hfine (.same _ _)
    rw [serve_fine_crashes _ hc (fine_crashes _ (hrange c hc) hlong)] at hrun
    cases hrun
  · intro hlen
    constructor
    · exact implements_of_meets (fun c hc => ⟨hrange c hc, fine_meets (hrange c hc) (hlen c hc)⟩)
        hst.single hst.fine_memory
    · exact implements_of_meets (fun c hc => ⟨hrange c hc, chunk_meets (hrange c hc)⟩)
        hst.whole hst.chunk_memory

/-- A write across a block boundary and its reads. -/
theorem backends_implement_short :
    let calls : List Call := [.putchunk 1 30 [5, 6, 7], .getchunk 1 29 4 [0, 0, 0, 0], .get 1 32]
    Implements fineCall Fine.memory (fun _ => none) calls ∧
      Implements chunkCall Chunk.memory (fun _ => none) calls := by
  refine (backends_implement_iff _ _ ?_ fun _ _ _ => rfl).mpr ?_
  · simp [Call.InRange, wordLimit, two32, blockSize]
  · simp [Call.readLength, Fine.maxRead, two32, fetchBatch]

/-- A call that crashes the word backend keeps it from implementing flat memory. -/
theorem not_implements_of_crashes {c : Call} {st : Nat → Option (List Word)} (hc : c.InRange)
    (hlen : Fine.maxRead < c.readLength) : ¬Implements fineCall Fine.memory st [c] := by
  intro h
  obtain ⟨s, hrun, -⟩ := h (.same _ _)
  rw [serve_fine_crashes _ (List.mem_singleton.mpr rfl) (fine_crashes _ hc hlen)] at hrun
  cases hrun

/-- A single read of all the words below the limit. -/
theorem longest_read_crashes :
    (Call.getchunk 1 0 wordLimit (List.replicate wordLimit 0)).InRange ∧
      Unwritten (fun _ => none) ∧
      ¬Implements fineCall Fine.memory (fun _ => none)
        [.getchunk 1 0 wordLimit (List.replicate wordLimit 0)] := by
  have hlimit : Fine.maxRead < wordLimit := by decide
  have hrange : (Call.getchunk 1 0 wordLimit (List.replicate wordLimit 0)).InRange :=
    ⟨by decide, Nat.le_of_eq (Nat.zero_add _), List.length_replicate⟩
  exact ⟨hrange, fun _ _ _ => rfl, not_implements_of_crashes hrange hlimit⟩

end Dogee.Memcached
