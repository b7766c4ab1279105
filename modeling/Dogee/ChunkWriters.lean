import Dogee.MemcachedFlat

/-!
# Several writers on the block backend

Clients of the block backend issue writes, and their requests reach the server in
any order. A write of part of a block reads the block and stores it back, so an
update that another client makes in between is lost. As long as no client stores
a block that another one has read and not yet stored, every word ends with the
value its writer gave it.
-/

namespace Dogee.Call

open KeyValue Memcached

/-- A write call whose 32-bit counters do not pass their range. -/
def IsPut : Call → Prop
  | put key fldid _ => key < two32 ∧ Chunk.NoWrap fldid 1
  | put64 key fldid _ => key < two32 ∧ Chunk.NoWrap fldid 2
  | putchunk key fldid buf => key < two32 ∧ Chunk.NoWrap fldid buf.length
  | putchunk64 key fldid buf => key < two32 ∧ Chunk.NoWrap fldid (buf.length * 2)
  | _ => False

/-- Where a write call writes, and its words. -/
def target : Call → Nat × Nat × List Word
  | put key fldid v => (key, fldid, [v])
  | put64 key fldid v => (key, fldid, words64 v)
  | putchunk key fldid buf => (key, fldid, buf)
  | putchunk64 key fldid buf => (key, fldid, buf.flatMap words64)
  | _ => (0, 0, [])

/-- The call writes word `w` of object `o`. -/
def Writes (c : Call) (o w : Nat) : Prop :=
  o = c.target.1 ∧ c.target.2.1 ≤ w ∧ w < c.target.2.1 + c.target.2.2.length

/-- The block writes that the call performs. -/
def blockWrites (c : Call) : List Chunk.BlockWrite :=
  Chunk.blockWrites c.target.1 c.target.2.1 c.target.2.2

theorem IsPut.range {c : Call} (hc : c.IsPut) :
    c.target.1 < two32 ∧ Chunk.NoWrap c.target.2.1 c.target.2.2.length := by
  cases c with
  | put key fldid v => exact hc
  | put64 key fldid v => exact hc
  | putchunk key fldid buf => exact hc
  | putchunk64 key fldid buf =>
      refine ⟨hc.1, ?_⟩
      rw [target, length_flatMap_words64]
      exact hc.2
  | _ => exact hc.elim

theorem IsPut.flat_eq {c : Call} (hc : c.IsPut) (m : Memory) :
    (c.flat m).2 = m.write c.target.1 c.target.2.1 c.target.2.2 := by
  cases c with
  | put key fldid v => rfl
  | put64 key fldid v => rfl
  | putchunk key fldid buf => rfl
  | putchunk64 key fldid buf => rfl
  | _ => exact hc.elim

theorem IsPut.chunk_eq {c : Call} (hc : c.IsPut) :
    Memcached.chunkCall c = Chunk.writeBlocks c.blockWrites >>= fun _ => .ret [] := by
  obtain ⟨hkey, hrange⟩ := hc.range
  rw [blockWrites, ← Chunk.putchunk_eq hkey hrange]
  cases c with
  | put key fldid v => rfl
  | put64 key fldid v => rfl
  | putchunk key fldid buf => rfl
  | putchunk64 key fldid buf =>
      have hlt : buf.length * 2 < two32 :=
        Nat.lt_of_le_of_lt (Nat.le_add_left _ fldid) hc.2.tail_lt
      rw [chunkCall, Chunk.putchunk64, take_words64 hlt]
      rfl
  | _ => exact hc.elim

end Dogee.Call

namespace Dogee.Memcached

open KeyValue Transition

/-- A client performs the block writes of its calls one after another. -/
theorem serve_chunk_eq {calls : List Call} (hput : ∀ c ∈ calls, c.IsPut) :
    serve chunkCall calls =
      Chunk.writeBlocks (calls.flatMap Call.blockWrites) >>= fun _ => .ret (calls.map fun _ => []) := by
  induction calls with
  | nil => rfl
  | cons c calls ih =>
      rw [serve, (hput c (by simp)).chunk_eq, ih fun c hc => hput c (by simp [hc]),
        List.flatMap_cons, Chunk.writeBlocks_append]
      simp only [Prog.bind_assoc, Prog.ret_bind, List.map_cons]

namespace Chunk

/-- The words that a block write writes. -/
def BlockWrite.Covers (w : BlockWrite) (o i : Nat) : Prop :=
  o = w.key ∧ w.block * blockSize + w.pos ≤ i ∧ i < w.block * blockSize + w.pos + w.vals.length

theorem BlockWrite.write_of_not_covers {w : BlockWrite} {o i : Nat} (h : ¬w.Covers o i) (m : Memory) :
    w.write m o i = m o i :=
  if_neg h

/-- The value of a word after some writes depends on the memory at that word only. -/
theorem foldl_write_congr {m m' : Memory} {o i : Nat} (h : m o i = m' o i) (ws : List BlockWrite) :
    ws.foldl (fun m w => w.write m) m o i = ws.foldl (fun m w => w.write m) m' o i := by
  induction ws generalizing m m' with
  | nil => exact h
  | cons w ws ih =>
      apply ih
      simp only [BlockWrite.write, Memory.write, h]

theorem alignedWrites_covers {key b : Nat} {buf : List Word} {w : BlockWrite} {o i : Nat}
    (hw : w ∈ alignedWrites key b buf) (hc : w.Covers o i) :
    o = key ∧ b * blockSize ≤ i ∧ i < b * blockSize + buf.length := by
  induction b, buf using alignedWrites.induct with
  | case1 b =>
      rw [alignedWrites_nil] at hw
      cases hw
  | case2 b buf h ih =>
      rw [alignedWrites_cons h] at hw
      rcases List.mem_cons.mp hw with rfl | hw
      · obtain ⟨ho, hlo, hhi⟩ := hc
        simp only [List.length_take] at hlo hhi
        exact ⟨ho, by omega, by omega⟩
      · obtain ⟨ho, hlo, hhi⟩ := ih hw
        rw [List.length_drop, Nat.add_mul] at hhi
        rw [Nat.add_mul] at hlo
        exact ⟨ho, by omega, by omega⟩

theorem blockWrites_covers {key fldid : Nat} {buf : List Word} {w : BlockWrite} {o i : Nat}
    (hw : w ∈ blockWrites key fldid buf) (hc : w.Covers o i) :
    o = key ∧ fldid ≤ i ∧ i < fldid + buf.length := by
  rw [blockWrites] at hw
  split at hw
  · obtain ⟨ho, hlo, hhi⟩ := alignedWrites_covers hw hc
    simp only [blockSize] at *
    exact ⟨ho, by omega, by omega⟩
  · rcases List.mem_cons.mp hw with rfl | hw
    · obtain ⟨ho, hlo, hhi⟩ := hc
      simp only [List.length_take, blockSize] at *
      exact ⟨ho, by omega, by omega⟩
    · obtain ⟨ho, hlo, hhi⟩ := alignedWrites_covers hw hc
      rw [List.length_drop] at hhi
      simp only [headLength, blockSize] at *
      exact ⟨ho, by omega, by omega⟩

/-! ## Requests of one client -/

variable {α : Type} {st : Nat → Option (List Word)}

/-- Where a client is: before its next block write, or with a block in hand that
it has read, patched and not yet stored. The block in hand is up to date. -/
inductive Phase (st : Nat → Option (List Word)) (last : Prog α) :
    List BlockWrite → Prog α → List Nat → Prop
  | ready (ws : List BlockWrite) : Phase st last ws (writeBlocks ws >>= fun _ => last) []
  | fetched (w : BlockWrite) (ws : List BlockWrite) :
      Phase st last (w :: ws)
        (.set (make64 w.key w.block) (w.patched (block st w.key w.block))
          (writeBlocks ws >>= fun _ => last))
        [make64 w.key w.block]

/-- A client is not affected by changes to blocks it does not hold. -/
theorem Phase.congr {st' : Nat → Option (List Word)} {last p : Prog α} {ws : List BlockWrite}
    {held : List Nat} (h : Phase st last ws p held) (heq : ∀ k ∈ held, st' k = st k) :
    Phase st' last ws p held := by
  cases h with
  | ready => exact .ready ws
  | fetched w ws =>
      have hblk : block st w.key w.block = block st' w.key w.block := by
        rw [block, block, heq _ (List.mem_singleton.mpr rfl)]
      rw [hblk]
      exact .fetched w ws

theorem BlockWrite.Valid.addr_lt {w : BlockWrite} (hw : w.Valid) : w.block * blockSize < two32 := by
  have hlt := hw.block_lt
  simp only [two32, blockSize] at *
  omega

/-- The request for a block is answered with the block, which is then patched. -/
theorem writeBlocks_cons_part {w : BlockWrite} (hw : w.Valid) (hpart : w.vals.length ≠ blockSize)
    (hst : Whole st) (ws : List BlockWrite) (last : Prog α) :
    ∃ next, (writeBlocks (w :: ws) >>= fun _ => last) = .mget [make64 w.key w.block] next ∧
      ∀ rs, (∀ e, e ∈ rs ↔ e.1 ∈ [make64 w.key w.block] ∧ st e.1 = some e.2) →
        next rs = .set (make64 w.key w.block) (w.patched (block st w.key w.block))
          (writeBlocks ws >>= fun _ => last) := by
  have harr : blockArray.length = blockSize := by simp [blockArray]
  have hget := getblock_eq hw.key_lt hw.addr_lt harr
  rw [Nat.mul_div_cancel _ (by decide)] at hget
  rw [writeBlocks, BlockWrite.prog, if_neg hpart, hget]
  refine ⟨_, rfl, fun rs hrs => ?_⟩
  have hcopy := hw.copyWords_eq (hst.length_block (o := w.key) hw.block_lt)
  simp only [fillBlock_eq hst hw.block_lt hrs, ownMemory, Prog.ofOption, Prog.bind, hcopy]
  rfl

theorem writeBlocks_cons_whole {w : BlockWrite} (hw : w.Valid) (hall : w.vals.length = blockSize)
    (hst : Whole st) (ws : List BlockWrite) (last : Prog α) :
    (writeBlocks (w :: ws) >>= fun _ => last) =
      .set (make64 w.key w.block) (w.patched (block st w.key w.block))
        (writeBlocks ws >>= fun _ => last) := by
  rw [writeBlocks, BlockWrite.prog, if_pos hall, hw.patched_whole hall (hst.length_block hw.block_lt)]
  rfl

/-- The next request of a client that has not ended: it asks for the block of its
next write, after which it holds that block, or it performs the write. -/
theorem Phase.next {last p : Prog α} {ws : List BlockWrite} {held : List Nat}
    (h : Phase st last ws p held) (hst : Whole st) (hws : ∀ w ∈ ws, w.Valid) :
    (ws = [] ∧ p = last) ∨
    (∃ w ws' next, ws = w :: ws' ∧ p = .mget [make64 w.key w.block] next ∧ held = [] ∧
      ∀ rs, (∀ e, e ∈ rs ↔ e.1 ∈ [make64 w.key w.block] ∧ st e.1 = some e.2) →
        Phase st last ws (next rs) [make64 w.key w.block]) ∨
    (∃ w ws', ws = w :: ws' ∧
      p = .set (make64 w.key w.block) (w.patched (block st w.key w.block))
        (writeBlocks ws' >>= fun _ => last)) := by
  cases h with
  | fetched w ws => exact Or.inr (Or.inr ⟨w, ws, rfl, rfl⟩)
  | ready =>
      cases ws with
      | nil => exact Or.inl ⟨rfl, rfl⟩
      | cons w ws =>
          have hw := hws w (by simp)
          by_cases hall : w.vals.length = blockSize
          · exact Or.inr (Or.inr ⟨w, ws, rfl, writeBlocks_cons_whole hw hall hst ws last⟩)
          · obtain ⟨next, heq, hnext⟩ := writeBlocks_cons_part hw hall hst ws last
            refine Or.inr (Or.inl ⟨w, ws, next, rfl, heq, rfl, fun rs hrs => ?_⟩)
            rw [hnext rs hrs]
            exact .fetched w ws

end Chunk

/-! ## Runs of several clients -/

section Writers

variable {ι : Type} [DecidableEq ι]

/-- The clients before their first request. -/
def startWriters (calls : ι → List Call) (st : Nat → Option (List Word)) :
    System ι Nat (List Word) (List (List Word)) where
  server := ⟨st, 0⟩
  progs c := serve chunkCall (calls c)
  held _ := []

/-- A client stores a block only while no other client has read that block and
not yet stored it. -/
def StoresAlone (s : System ι Nat (List Word) (List (List Word))) (c : ι) : Prop :=
  ∀ k v next, s.progs c = .set k v next → ∀ d, d ≠ c → k ∉ s.held d

/-- Some call of the list writes word `w` of object `o`. -/
def WrittenBy (calls : List Call) (o w : Nat) : Prop := ∃ c ∈ calls, c.Writes o w

/-- What a client has still to do, in the state of the server: its block writes
lead from the words now stored to the words its calls write. -/
structure Progress (st : Nat → Option (List Word)) (calls : List Call)
    (p : Prog (List (List Word))) (held : List Nat) (ws : List Chunk.BlockWrite) : Prop where
  phase : Chunk.Phase st (.ret (calls.map fun _ => [])) ws p held
  valid : ∀ w ∈ ws, w.Valid
  own : ∀ w ∈ ws, ∀ o i, w.Covers o i → WrittenBy calls o i
  result : ∀ o i, WrittenBy calls o i →
    ws.foldl (fun m w => w.write m) (Chunk.memory st) o i = (flatRun calls Memory.empty).2 o i

/-- The invariant of a run: whole blocks, and every client on its way. -/
structure Working (calls : ι → List Call) (s : System ι Nat (List Word) (List (List Word))) :
    Prop where
  whole : Chunk.Whole s.server.store
  progress : ∀ c, ∃ ws, Progress s.server.store (calls c) (s.progs c) (s.held c) ws

theorem WrittenBy.lt_two32 {calls : List Call} (hput : ∀ c ∈ calls, c.IsPut) {o w : Nat}
    (h : WrittenBy calls o w) : w < two32 := by
  obtain ⟨c, hc, -, -, hlt⟩ := h
  exact Nat.lt_trans hlt (hput c hc).range.2.tail_lt

theorem flatRun_puts {calls : List Call} (hput : ∀ c ∈ calls, c.IsPut) (m : Memory) :
    (flatRun calls m).2 = (calls.flatMap Call.blockWrites).foldl (fun m w => w.write m) m := by
  induction calls generalizing m with
  | nil => rfl
  | cons c calls ih =>
      rw [flatRun, ih fun c hc => hput c (by simp [hc]), List.flatMap_cons, List.foldl_append,
        (hput c (by simp)).flat_eq, Call.blockWrites, Chunk.foldl_blockWrites]

/-- The words that calls write do not depend on the memory before them. -/
theorem flatRun_written {calls : List Call} (hput : ∀ c ∈ calls, c.IsPut) {o w : Nat}
    (h : WrittenBy calls o w) (m m' : Memory) :
    (flatRun calls m).2 o w = (flatRun calls m').2 o w := by
  induction calls generalizing m m' with
  | nil =>
      obtain ⟨c, hc, -⟩ := h
      cases hc
  | cons c calls ih =>
      have hput' : ∀ c ∈ calls, c.IsPut := fun c hc => hput c (by simp [hc])
      have hflat := fun m => (hput c (by simp)).flat_eq m
      by_cases hlater : WrittenBy calls o w
      · exact ih hput' hlater _ _
      · obtain ⟨d, hd, hw⟩ := h
        rcases List.mem_cons.mp hd with rfl | hd
        · rw [flatRun, flatRun, flatRun_puts hput', flatRun_puts hput']
          apply Chunk.foldl_write_congr
          rw [hflat, hflat]
          exact (if_pos hw).trans (if_pos hw).symm
        · exact absurd ⟨d, hd, hw⟩ hlater

variable {calls : ι → List Call}

omit [DecidableEq ι] in
theorem working_start {st : Nat → Option (List Word)} (hst : Chunk.Whole st)
    (hput : ∀ c, ∀ x ∈ calls c, x.IsPut) : Working calls (startWriters calls st) where
  whole := hst
  progress c := by
    refine ⟨(calls c).flatMap Call.blockWrites, ?_, ?_, ?_, ?_⟩
    · have hprog : (startWriters calls st).progs c = serve chunkCall (calls c) := rfl
      rw [hprog, serve_chunk_eq (hput c)]
      exact .ready _
    · intro w hw
      obtain ⟨x, hx, hw⟩ := List.mem_flatMap.mp hw
      have hrange := (hput c x hx).range
      exact Chunk.blockWrites_valid hrange.1 hrange.2 w hw
    · intro w hw o i hcov
      obtain ⟨x, hx, hw⟩ := List.mem_flatMap.mp hw
      exact ⟨x, hx, Chunk.blockWrites_covers hw hcov⟩
    · intro o i hwritten
      rw [← flatRun_puts (hput c)]
      exact flatRun_written (hput c) hwritten _ _

/-- Storing a block that only its own client has in hand keeps the other clients
on their way: their blocks and their words do not change. -/
theorem Progress.store_other {st : Nat → Option (List Word)} {own other : List Call}
    {p : Prog (List (List Word))} {held : List Nat} {ws : List Chunk.BlockWrite}
    (h : Progress st other p held ws) (hput : ∀ c ∈ other, c.IsPut)
    (hdisj : ∀ o i, WrittenBy own o i → ¬WrittenBy other o i) (hst : Chunk.Whole st)
    {w : Chunk.BlockWrite} (hw : w.Valid) (hown : ∀ o i, w.Covers o i → WrittenBy own o i)
    (hheld : make64 w.key w.block ∉ held) : Progress (w.apply st) other p held ws where
  phase := by
    refine h.phase.congr fun k hk => ?_
    refine Function.update_of_ne ?_ _ _
    rintro rfl
    exact hheld hk
  valid := h.valid
  own := h.own
  result := by
    intro o i hi
    have hnot : ¬w.Covers o i := fun hcov => hdisj o i (hown o i hcov) hi
    rw [← h.result o i hi]
    apply Chunk.foldl_write_congr
    rw [hw.memory_apply hst o i (hi.lt_two32 hput), Chunk.BlockWrite.write_of_not_covers hnot]

/-- Storing a block is the next block write of its client. -/
theorem Progress.store_own {st : Nat → Option (List Word)} {own : List Call}
    {p : Prog (List (List Word))} {held : List Nat} {w : Chunk.BlockWrite}
    {ws : List Chunk.BlockWrite} (h : Progress st own p held (w :: ws))
    (hput : ∀ c ∈ own, c.IsPut) (hst : Chunk.Whole st) :
    Progress (w.apply st) own
      (Chunk.writeBlocks ws >>= fun _ => .ret (own.map fun _ => [])) [] ws where
  phase := .ready ws
  valid v hv := h.valid v (by simp [hv])
  own v hv := h.own v (by simp [hv])
  result := by
    intro o i hi
    rw [← h.result o i hi, List.foldl_cons]
    apply Chunk.foldl_write_congr
    exact (h.valid w (by simp)).memory_apply hst o i (hi.lt_two32 hput)

theorem working_step {o : Order Nat (List Word)} (hput : ∀ c, ∀ x ∈ calls c, x.IsPut)
    (hdisj : ∀ c d, c ≠ d → ∀ o i, WrittenBy (calls c) o i → ¬WrittenBy (calls d) o i)
    {s t : System ι Nat (List Word) (List (List Word))} {c : ι} (hs : Working calls s)
    (hok : StoresAlone s c) (hstep : s.step o c = some t) : Working calls t := by
  obtain ⟨hwhole, hprog⟩ := hs
  obtain ⟨ws, hc⟩ := hprog c
  rcases hc.phase.next hwhole hc.valid with ⟨-, hp⟩ | ⟨w, ws', next, hws, hp, hheld, hnext⟩ |
      ⟨w, ws', rfl, hp⟩
  · rcases System.step_cases hstep with ⟨ks, next, hp', -⟩ | ⟨k, v, next, hp', -⟩
    · rw [hp] at hp'
      cases hp'
    · rw [hp] at hp'
      cases hp'
  · -- the block is read and patched in the client's memory
    rcases System.step_cases hstep with ⟨ks, next', hp', rfl⟩ | ⟨k, v, next', hp', -⟩
    · rw [hp] at hp'
      cases hp'
      refine ⟨hwhole, fun d => ?_⟩
      by_cases hd : d = c
      · subst hd
        refine ⟨ws, ?_, hc.valid, hc.own, hc.result⟩
        simp only [Function.update_self, hheld, List.nil_append]
        exact hnext _ fun e => Server.mem_replies
      · simp only [Function.update_of_ne hd]
        exact hprog d
    · rw [hp] at hp'
      cases hp'
  · -- the block is stored
    rcases System.step_cases hstep with ⟨ks, next, hp', -⟩ | ⟨k, v, next, hp', rfl⟩
    · rw [hp] at hp'
      cases hp'
    · rw [hp] at hp'
      cases hp'
      have hw := hc.valid w (by simp)
      refine ⟨hw.whole_apply hwhole, fun d => ?_⟩
      by_cases hd : d = c
      · subst hd
        refine ⟨ws', ?_⟩
        simp only [Function.update_self]
        exact hc.store_own (hput d) hwhole
      · obtain ⟨wsd, hpd⟩ := hprog d
        refine ⟨wsd, ?_⟩
        simp only [Function.update_of_ne hd]
        refine hpd.store_other (hput d) (hdisj c d (Ne.symm hd)) hwhole hw
          (hc.own w (by simp)) ?_
        exact hok _ _ _ hp d hd

/-- A client on its way has ended or can make its next request. -/
theorem Working.enabled {s : System ι Nat (List Word) (List (List Word))} (hs : Working calls s)
    (o : Order Nat (List Word)) (c : ι) :
    (∃ r, s.progs c = .ret r) ∨ ∃ t, s.step o c = some t := by
  obtain ⟨ws, hc⟩ := hs.progress c
  rcases hc.phase.next hs.whole hc.valid with ⟨-, hp⟩ | ⟨w, ws', next, -, hp, -⟩ | ⟨w, ws', -, hp⟩
  · exact Or.inl ⟨_, hp⟩
  · exact Or.inr ⟨_, by rw [System.step, hp]⟩
  · exact Or.inr ⟨_, by rw [System.step, hp]⟩

omit [DecidableEq ι] in
theorem Working.returned {s : System ι Nat (List Word) (List (List Word))} (hs : Working calls s)
    {c : ι} {r : List (List Word)} (hret : s.progs c = .ret r) {o i : Nat}
    (hi : WrittenBy (calls c) o i) :
    Chunk.memory s.server.store o i = (flatRun (calls c) Memory.empty).2 o i := by
  obtain ⟨ws, hc⟩ := hs.progress c
  rcases hc.phase.next hs.whole hc.valid with ⟨rfl, -⟩ | ⟨w, ws', next, -, hp, -⟩ | ⟨w, ws', -, hp⟩
  · exact hc.result o i hi
  · rw [hret] at hp
    cases hp
  · rw [hret] at hp
    cases hp

/-- In every run in which a block is stored only while no other client has it in
hand, no client fails, and the words of a client whose calls have returned hold
the values that its calls stored. -/
theorem disjoint_writers (calls : ι → List Call) (st : Nat → Option (List Word))
    (o : Order Nat (List Word)) (hst : Chunk.Whole st) (hput : ∀ c, ∀ x ∈ calls c, x.IsPut)
    (hdisj : ∀ c d, c ≠ d → ∀ o i, WrittenBy (calls c) o i → ¬WrittenBy (calls d) o i)
    (sched : List ι) (s : System ι Nat (List Word) (List (List Word)))
    (hrun : run (System.step o) (startWriters calls st) sched = some s)
    (halone : Along (System.step o) StoresAlone (startWriters calls st) sched) :
    (∀ c, (∃ r, s.progs c = .ret r) ∨ ∃ t, s.step o c = some t) ∧
      ∀ c r, s.progs c = .ret r → ∀ o i, WrittenBy (calls c) o i →
        Chunk.memory s.server.store o i = (flatRun (calls c) Memory.empty).2 o i := by
  have hs : Working calls s :=
    invariant_run (fun s c t hs hok => working_step hput hdisj hs hok)
      (working_start hst hput) halone hrun
  exact ⟨hs.enabled o, fun c r hret o i => hs.returned hret⟩

end Writers

/-- Two clients that each write one word of the same block. -/
def neighbours : Bool → List Call
  | false => [.put 1 1 7]
  | true => [.put 1 2 9]

theorem storesAlone_of_held_nil {ι : Type} {s : System ι Nat (List Word) (List (List Word))} {c : ι}
    (h : ∀ d, d ≠ c → s.held d = []) : StoresAlone s c := by
  intro k v next _ d hd
  rw [h d hd]
  exact List.not_mem_nil

/-- The same two clients one after the other. -/
theorem neighbours_in_turn :
    ∃ s, run (System.step (.same _ _)) (startWriters neighbours fun _ => none)
        [false, false, true, true] = some s ∧
      Chunk.memory s.server.store 1 1 = 7 ∧ Chunk.memory s.server.store 1 2 = 9 := by
  obtain ⟨s, hrun⟩ : ∃ s, run (System.step (.same _ _)) (startWriters neighbours fun _ => none)
      [false, false, true, true] = some s := ⟨_, rfl⟩
  have hret : ∀ c, ∃ r, s.progs c = .ret r := by
    obtain rfl := Option.some.inj hrun
    rintro (_ | _)
    · exact ⟨_, rfl⟩
    · exact ⟨_, rfl⟩
  have hkeep := (disjoint_writers neighbours (fun _ => none) (.same _ _)
    (fun _ _ _ _ h => by cases h)
    (by
      rintro (_ | _) x hx
      · obtain rfl := List.mem_singleton.mp hx
        exact ⟨by decide, by decide, by decide⟩
      · obtain rfl := List.mem_singleton.mp hx
        exact ⟨by decide, by decide, by decide⟩)
    (by
      rintro (_ | _) (_ | _) hcd o i ⟨x, hx, hxo⟩ ⟨y, hy, hyo⟩
      · exact hcd rfl
      · obtain rfl := List.mem_singleton.mp hx
        obtain rfl := List.mem_singleton.mp hy
        exact Nat.not_le_of_lt hxo.2.2 hyo.2.1
      · obtain rfl := List.mem_singleton.mp hx
        obtain rfl := List.mem_singleton.mp hy
        exact Nat.not_le_of_lt hyo.2.2 hxo.2.1
      · exact hcd rfl)
    _ s hrun
    (by
      refine ⟨storesAlone_of_held_nil fun d hd => ?_, fun t ht => ?_⟩
      · rfl
      obtain rfl := Option.some.inj ht
      refine ⟨storesAlone_of_held_nil fun d hd => ?_, fun t ht => ?_⟩
      · cases d with
        | false => exact absurd rfl hd
        | true => rfl
      obtain rfl := Option.some.inj ht
      refine ⟨storesAlone_of_held_nil fun d hd => ?_, fun t ht => ?_⟩
      · cases d with
        | false => rfl
        | true => exact absurd rfl hd
      obtain rfl := Option.some.inj ht
      refine ⟨storesAlone_of_held_nil fun d hd => ?_, fun t ht => trivial⟩
      · cases d with
        | false => rfl
        | true => exact absurd rfl hd)).2
  obtain ⟨r, hr⟩ := hret false
  obtain ⟨r', hr'⟩ := hret true
  refine ⟨s, hrun, ?_, ?_⟩
  · rw [hkeep false r hr 1 1 ⟨_, List.mem_singleton.mpr rfl, rfl, by decide, by decide⟩]
    decide
  · rw [hkeep true r' hr' 1 2 ⟨_, List.mem_singleton.mpr rfl, rfl, by decide, by decide⟩]
    decide

/-- Both read the block before either stores it: the first word is lost. -/
theorem neighbour_update_lost :
    ∃ s, run (System.step (.same _ _)) (startWriters neighbours fun _ => none)
        [false, true, false, true] = some s ∧
      (∀ c, ∃ r, s.progs c = .ret r) ∧ WrittenBy (neighbours false) 1 1 ∧
      (flatRun (neighbours false) Memory.empty).2 1 1 = 7 ∧ Chunk.memory s.server.store 1 1 = 0 := by
  refine ⟨_, rfl, ?_, ?_, ?_, ?_⟩
  · rintro (_ | _)
    · exact ⟨_, rfl⟩
    · exact ⟨_, rfl⟩
  · exact ⟨_, List.mem_singleton.mpr rfl, rfl, by decide, by decide⟩
  · decide
  · decide +kernel

end Dogee.Memcached
