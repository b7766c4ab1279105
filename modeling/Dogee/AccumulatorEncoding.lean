import Dogee.AccumulatorPacket

/-!
# Encoding and decoding a segment

A sender prepares one payload after another until its index is at the end of the
segment, in the mode that is set at each message. The receiver adds them to its
buffer as they come. With threshold zero every element is added once, whatever
the modes.
-/

namespace Dogee.Accumulator

variable {T : Type}

/-- The size of a payload in bytes. -/
def Payload.bytes (d : Nat) : Payload T → Nat
  | dense data => 4 * d * data.length
  | sparse elements => sparseElementSize d * elements.length

section Encode

variable [Zero T] [Neg T] [LinearOrder T]

/-- The messages for one segment in `_DoAccumulateAndWait`, and where the index
`send_idx` is afterwards; `modes` is the mode at each message. -/
def encodeSegment (d : Nat) (modes : Nat → AccumulatorMode) (threshold : T) (src : List T)
    (threadId size : Nat) : Nat → Nat → Nat → Option (List (Packet T) × Nat)
  | 0, _, _ => none
  | fuel + 1, sent, idx =>
      if idx < size then do
        let r := acAccumulatePrepareBuffer d (modes sent) threshold src idx size
        let rest ← encodeSegment d modes threshold src threadId size fuel (sent + 1) (idx + r.1)
        return (⟨if idx + r.1 = size then threadId else 0, idx, r.2⟩ :: rest.1, rest.2)
      else some ([], idx)

/-- What `MakeSparseArray` writes fits behind what is already there. -/
theorem makeSparseArray_bytes (d : Nat) (threshold : T) (vec : List T) (i : Nat) {used : Nat}
    (hused : used ≤ dataProcessSize) :
    used + sparseElementSize d * (makeSparseArray d threshold vec i used).2.length ≤
      dataProcessSize := by
  induction vec generalizing i used with
  | nil => simpa [makeSparseArray] using hused
  | cons v vec ih =>
      rw [makeSparseArray]
      split
      · simpa using hused
      · rename_i hroom
        simp only
        split
        · exact ih (i + 1) hused
        · have hfits : used + sparseElementSize d ≤ dataProcessSize := by omega
          have hrest := ih (i + 1) hfits
          rw [List.length_cons, Nat.mul_add_one]
          omega

/-- Every payload fits into a message. -/
theorem prepare_bytes {d : Nat} (hd : 0 < d) (mode : AccumulatorMode) (threshold : T) (src : List T)
    {idx : Nat} (hidx : d ∣ idx) (size : Nat) :
    (acAccumulatePrepareBuffer d mode threshold src idx size).2.bytes d ≤ dataProcessSize := by
  rw [acAccumulatePrepareBuffer]
  split
  · have hsparse := makeSparseArray_bytes d threshold (window d src idx size) (idx / d) (Nat.zero_le _)
    simpa [Payload.bytes] using hsparse
  · obtain ⟨x, rfl⟩ := hidx
    obtain ⟨words, hwords⟩ : ∃ words, words =
      (if d * x + dataProcessSize / 4 > size then size - d * x else dataProcessSize / 4) := ⟨_, rfl⟩
    have hle : 4 * words ≤ dataProcessSize := by
      rw [hwords]
      split <;> simp only [dataProcessSize] at * <;> omega
    have hlen : d * (window d src (d * x) (d * x + words)).length ≤ words := by
      have htake : (window d src (d * x) (d * x + words)).length ≤ words / d := by
        refine (List.length_take_le _ _).trans ?_
        rw [Nat.mul_div_cancel_left _ hd, Nat.mul_add_div hd, Nat.add_sub_cancel_left]
      exact (Nat.mul_le_mul_left d htake).trans (Nat.mul_div_le words d)
    simp only [Payload.bytes, ← hwords]
    calc
      4 * d * (window d src (d * x) (d * x + words)).length =
          4 * (d * (window d src (d * x) (d * x + words)).length) := Nat.mul_assoc ..
      _ ≤ 4 * words := Nat.mul_le_mul_left 4 hlen
      _ ≤ dataProcessSize := hle

end Encode

section RoundTrip

variable [AddCommGroup T] [LinearOrder T]

/-- A packet that carries some words between two positions. -/
def CarriesWithin (d : Nat) (src : List T) (idx size : Nat) (p : Packet T) : Prop :=
  ∃ a c, a < c ∧ d ∣ a ∧ idx ≤ a ∧ c ≤ size ∧ Carries d src p a c

/-- The messages for a segment: the index comes to the end of the segment, and the
packets carry the words up to there. -/
theorem encodeSegment_gives {d : Nat} (hd : d = 1 ∨ d = 2) (modes : Nat → AccumulatorMode)
    {src : List T} {size : Nat} (threadId : Nat) (hsize : d ∣ size) (hbound : size ≤ d * src.length)
    (fuel : Nat) : ∀ (sent : Nat) {idx : Nat}, d ∣ idx → idx ≤ size → size - idx < fuel →
      ∃ ps, encodeSegment d modes 0 src threadId size fuel sent idx = some (ps, size) ∧
        Gives d src idx ps size ∧ ∀ p ∈ ps, p.data.bytes d ≤ dataProcessSize ∧
          CarriesWithin d src idx size p := by
  induction fuel with
  | zero =>
      intro sent idx _ _ hfuel
      exact absurd hfuel (Nat.not_lt_zero _)
  | succ fuel ih =>
      intro sent idx hidx hle hfuel
      rw [encodeSegment]
      by_cases hlt : idx < size
      · obtain ⟨hpos, hnext, hcarries⟩ := prepare_carries hd (modes sent) hidx hsize hlt hbound
        have hbytes := prepare_bytes (by omega : 0 < d) (modes sent) 0 src hidx size
        obtain ⟨r, hr⟩ : ∃ r, r = acAccumulatePrepareBuffer d (modes sent) 0 src idx size := ⟨_, rfl⟩
        rw [← hr] at hpos hnext hcarries hbytes
        obtain ⟨ps, hrun, hgives, hall⟩ := ih (sent + 1) (hcarries 0).whole hnext (by omega)
        refine ⟨⟨if idx + r.1 = size then threadId else 0, idx, r.2⟩ :: ps, ?_,
          ⟨_, hcarries _, hgives⟩, ?_⟩
        · simp [hlt, ← hr, hrun]
        intro p hp
        rcases List.mem_cons.mp hp with rfl | hp
        · exact ⟨hbytes, idx, _, Nat.lt_add_of_pos_right hpos, hidx, Nat.le_refl idx, hnext, hcarries _⟩
        · obtain ⟨hbytes, a, c, hac, hda, hlo, hhi, hcar⟩ := hall p hp
          exact ⟨hbytes, a, c, hac, hda, (Nat.le_add_right _ _).trans hlo, hhi, hcar⟩
      · obtain rfl : idx = size := by omega
        rw [if_neg hlt]
        exact ⟨[], rfl, rfl, by simp⟩

/-- The packets are added to the buffer one after another. -/
def decodePackets (d base len : Nat) (ps : List (Packet T)) (buf : List T) : Option (List T) :=
  ps.foldlM (fun buf p => doAccumulate d p.data p.offset buf base len) buf

theorem decodePackets_spec {d : Nat} (hd : 0 < d) {src : List T} {idx size base len : Nat}
    (hbase : d ∣ base) (hlo : base ≤ idx) (hhi : size ≤ base + len) (hmax : base + len ≤ two32 / 2)
    {ps : List (Packet T)} (hps : ∀ p ∈ ps, CarriesWithin d src idx size p) :
    ∀ {buf : List T}, buf.length = len / d →
      ∃ buf', decodePackets d base len ps buf = some buf' ∧ buf'.length = buf.length ∧
        ∀ j < len / d, buf'.getD j 0 = buf.getD j 0 + (ps.map fun p => p.part d (base / d + j)).sum := by
  induction ps with
  | nil =>
      intro buf _
      exact ⟨buf, rfl, rfl, fun j _ => by simp⟩
  | cons p ps ih =>
      intro buf hbuf
      obtain ⟨a, c, hac, hda, hlo', hhi', hcar⟩ := hps p List.mem_cons_self
      obtain ⟨buf₁, hrun₁, hlen₁, hget₁⟩ := doAccumulate_carries hd hcar hac hda hbase
        (hlo.trans hlo') (hhi'.trans hhi) hmax hbuf
      obtain ⟨buf', hrun, hlen, hget⟩ := ih (fun q hq => hps q (List.mem_cons_of_mem _ hq))
        (hlen₁.trans hbuf)
      refine ⟨buf', ?_, hlen.trans hlen₁, fun j hj => ?_⟩
      · rw [decodePackets, List.foldlM_cons, hrun₁]
        exact hrun
      · rw [hget j hj, hget₁ j hj, List.map_cons, List.sum_cons, add_assoc]

/-- Sending a segment ends with the index at its end, in payloads that fit into a
message, and adding them to a buffer that covers the segment fails no assertion
and adds every element of the segment once, at its own index. The positions are
`int`s in the interface of `AcAccumulatePrepareBuffer`. -/
theorem segment_added_once (d : Nat) (hd : d = 1 ∨ d = 2) (modes : Nat → AccumulatorMode)
    (src : List T) (threadId idx size base len fuel : Nat) (buf : List T) (hidx : d ∣ idx)
    (hsize : d ∣ size) (hle : idx ≤ size) (hbound : size ≤ d * src.length) (hbase : d ∣ base)
    (hlo : base ≤ idx) (hhi : size ≤ base + len) (hmax : base + len ≤ two32 / 2)
    (hbuf : buf.length = len / d) (hfuel : size - idx < fuel) :
    ∃ ps, encodeSegment d modes 0 src threadId size fuel 0 idx = some (ps, size) ∧
      (∀ p ∈ ps, p.data.bytes d ≤ dataProcessSize) ∧
      ∃ buf', decodePackets d base len ps buf = some buf' ∧ buf'.length = buf.length ∧
        ∀ j < len / d, buf'.getD j 0 = buf.getD j 0 +
          if idx ≤ d * (base / d + j) ∧ d * (base / d + j) < size then src.getD (base / d + j) 0 else 0 := by
  have hpos : 0 < d := by omega
  obtain ⟨ps, hrun, hgives, hall⟩ :=
    encodeSegment_gives hd modes threadId hsize hbound fuel 0 hidx hle hfuel
  obtain ⟨buf', hrun', hlen, hget⟩ := decodePackets_spec hpos hbase hlo hhi hmax
    (fun p hp => (hall p hp).2) hbuf
  refine ⟨ps, hrun, fun p hp => (hall p hp).1, buf', hrun', hlen, fun j hj => ?_⟩
  rw [hget j hj, hgives.sum_part hpos hidx]

end RoundTrip

/-- Three elements of eight bytes, the first message sparse and the second dense. -/
theorem segment_added_once_three :
    ∃ ps, encodeSegment 2 (fun k => if k = 0 then .sparse else .dense) 0 [5, 0, -7] 1 6 7 0 0 =
        some (ps, 6) ∧
      (∀ p ∈ ps, p.data.bytes 2 ≤ dataProcessSize) ∧
      ∃ buf', decodePackets 2 0 6 ps [1, 1, (1 : ℤ)] = some buf' ∧ buf'.length = [1, 1, (1 : ℤ)].length ∧
        ∀ j < 6 / 2, buf'.getD j 0 = [1, 1, (1 : ℤ)].getD j 0 +
          if 0 ≤ 2 * (0 / 2 + j) ∧ 2 * (0 / 2 + j) < 6 then [5, 0, (-7 : ℤ)].getD (0 / 2 + j) 0 else 0 := by
  apply segment_added_once
  · exact Or.inr rfl
  all_goals decide

end Dogee.Accumulator
