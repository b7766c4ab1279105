import Dogee.AccumulatorRounds
import Dogee.AccumulatorSegments
import Mathlib.Algebra.Order.BigOperators.Group.Finset
import Mathlib.Algebra.Order.Group.Defs

/-!
# What a call of `AccumulateAndWait` sends

The counter `done` of the send loop starts at one, for the caller's own segment,
and is incremented for every empty segment, the caller's own among them. A thread
whose own segment is empty therefore counts it twice and may leave the loop while
one node is still owed data. The other threads leave it when every node has got
its segment.
-/

namespace Dogee.Accumulator

open SyncManager (SyncThreadNode)
open Transition

/-! ## What a packet carries -/

section Carries

variable {T : Type} [AddCommGroup T] [LinearOrder T]

/-- The elements of a vector that are not zero, with their indices from `i` on. -/
def nonzeros (i : Nat) : List T → List (Nat × T)
  | [] => []
  | v :: vec => if v = 0 then nonzeros (i + 1) vec else (i, v) :: nonzeros (i + 1) vec

/-- The packet carries the words of a vector from `a` to `c`; zeros may be left out. -/
structure Carries (d : Nat) (src : List T) (p : Packet T) (a c : Nat) : Prop where
  le : a ≤ c
  whole : d ∣ c
  bound : a < c → c ≤ d * src.length
  offset : a < c → p.offset = a
  data : p.data = .dense (window d src a c) ∨
    p.data = .sparse (nonzeros (a / d) (window d src a c))

/-- The packets carry the words from `a` to `b`, each word once. -/
def Gives (d : Nat) (src : List T) : Nat → List (Packet T) → Nat → Prop
  | a, [], b => a = b
  | a, p :: ps, b => ∃ c, Carries d src p a c ∧ Gives d src c ps b

theorem Gives.append {d : Nat} {src : List T} {a b c : Nat} {ps qs : List (Packet T)}
    (hps : Gives d src a ps b) (hqs : Gives d src b qs c) : Gives d src a (ps ++ qs) c := by
  induction ps generalizing a with
  | nil =>
      obtain rfl : a = b := hps
      exact hqs
  | cons p ps ih =>
      obtain ⟨x, hp, hrest⟩ := hps
      exact ⟨x, hp, ih hrest⟩

theorem Gives.single {d : Nat} {src : List T} {p : Packet T} {a c : Nat}
    (h : Carries d src p a c) : Gives d src a [p] c := ⟨c, h, rfl⟩

theorem Gives.le {d : Nat} {src : List T} {a b : Nat} {ps : List (Packet T)}
    (h : Gives d src a ps b) : a ≤ b := by
  induction ps generalizing a with
  | nil => exact Nat.le_of_eq h
  | cons p ps ih =>
      obtain ⟨c, hp, hrest⟩ := h
      exact Nat.le_trans hp.le (ih hrest)

/-- Words beyond the end of the vector cannot be carried. -/
theorem Gives.eq_of_beyond {d : Nat} {src : List T} {a b : Nat} {ps : List (Packet T)}
    (h : Gives d src a ps b) (hbeyond : d * src.length ≤ a) : a = b := by
  induction ps generalizing a with
  | nil => exact h
  | cons p ps ih =>
      obtain ⟨c, hp, hrest⟩ := h
      have hac : a = c := by
        have hle := hp.le
        by_contra hne
        have := hp.bound (by omega)
        omega
      subst hac
      exact ih hrest hbeyond

theorem sparseValue_zero (val : T) : sparseValue 0 val = val := by
  rw [sparseValue, if_neg (fun h => absurd h.2 (not_lt_of_ge h.1)), neg_zero,
    if_neg (fun h => absurd h.2 (not_lt_of_gt h.1))]

/-- `MakeSparseArray` goes through some elements, at least one if there is room, and
writes those of them that are not below the threshold. -/
theorem makeSparseArray_spec (d : Nat) (threshold : T) (vec : List T) (i used : Nat) :
    (makeSparseArray d threshold vec i used).1 ≤ vec.length ∧
    (makeSparseArray d threshold vec i used).2 =
      nonzeros i ((vec.take (makeSparseArray d threshold vec i used).1).map (sparseValue threshold)) ∧
    (vec ≠ [] → used + sparseElementSize d < dataProcessSize →
      0 < (makeSparseArray d threshold vec i used).1) := by
  induction vec generalizing i used with
  | nil => exact ⟨Nat.le_refl 0, rfl, fun h => absurd rfl h⟩
  | cons v vec ih =>
      rw [makeSparseArray]
      by_cases hfull : dataProcessSize ≤ used + sparseElementSize d
      · rw [if_pos hfull]
        exact ⟨Nat.zero_le _, rfl, fun _ h => absurd h (Nat.not_lt_of_le hfull)⟩
      · rw [if_neg hfull]
        simp only
        by_cases hv : sparseValue threshold v = 0
        · obtain ⟨hle, hels, -⟩ := ih (i + 1) used
          rw [if_pos hv]
          refine ⟨Nat.succ_le_succ hle, ?_, fun _ _ => Nat.succ_pos _⟩
          rw [List.take_succ_cons, List.map_cons, nonzeros, if_pos hv]
          exact hels
        · obtain ⟨hle, hels, -⟩ := ih (i + 1) (used + sparseElementSize d)
          rw [if_neg hv]
          refine ⟨Nat.succ_le_succ hle, ?_, fun _ _ => Nat.succ_pos _⟩
          rw [List.take_succ_cons, List.map_cons, nonzeros, if_neg hv]
          exact congrArg _ hels

omit [AddCommGroup T] [LinearOrder T] in
theorem length_window {d : Nat} {src : List T} {a c : Nat} (hc : c ≤ d * src.length) :
    (window d src a c).length = c / d - a / d := by
  have hdiv : c / d ≤ src.length := by
    exact Nat.div_le_of_le_mul hc
  rw [window, List.length_take, List.length_drop]
  omega

/-- `AcAccumulatePrepareBuffer` goes through the next words, at least one. It sends
them as they are in dense mode and without those below the threshold in sparse mode. -/
theorem prepare_spec {d : Nat} (hd : d = 1 ∨ d = 2) (mode : AccumulatorMode) (threshold : T)
    {src : List T} {idx size : Nat} (hidx : d ∣ idx) (hsize : d ∣ size) (hlt : idx < size)
    (hbound : size ≤ d * src.length) :
    ∃ c, (acAccumulatePrepareBuffer d mode threshold src idx size).1 = c - idx ∧ idx < c ∧ c ≤ size ∧
      d ∣ c ∧ (mode ≠ .sparse ∧ (acAccumulatePrepareBuffer d mode threshold src idx size).2 =
          .dense (window d src idx c) ∨
        mode ≠ .dense ∧ (acAccumulatePrepareBuffer d mode threshold src idx size).2 =
          .sparse (nonzeros (idx / d) ((window d src idx c).map (sparseValue threshold)))) := by
  have hpos : 0 < d := by omega
  obtain ⟨x, rfl⟩ := hidx
  obtain ⟨y, rfl⟩ := hsize
  have hxy : x < y := Nat.lt_of_mul_lt_mul_left hlt
  rw [acAccumulatePrepareBuffer]
  split
  · -- sparse
    rename_i hsend
    obtain ⟨hle, hels, hprog⟩ :=
      makeSparseArray_spec d threshold (window d src (d * x) (d * y)) (d * x / d) 0
    obtain ⟨cnt, hcnt⟩ : ∃ cnt, cnt =
      (makeSparseArray d threshold (window d src (d * x) (d * y)) (d * x / d) 0).1 := ⟨_, rfl⟩
    have hlen := length_window (a := d * x) hbound
    rw [Nat.mul_div_cancel_left _ hpos, Nat.mul_div_cancel_left _ hpos] at hlen
    rw [← hcnt, hlen] at hle
    rw [← hcnt] at hels
    have hcpos : 0 < cnt := by
      rw [hcnt]
      apply hprog
      · intro hnil
        rw [hnil, List.length_nil] at hlen
        omega
      · simp only [sparseElementSize, dataProcessSize]
        omega
    have hsum : d * x + d * cnt = d * (x + cnt) := (Nat.mul_add d x cnt).symm
    refine ⟨d * (x + cnt), ?_, Nat.mul_lt_mul_of_pos_left (by omega) hpos,
      Nat.mul_le_mul_left d (by omega), Nat.dvd_mul_right d _, Or.inr ⟨?_, ?_⟩⟩
    · simp only [← hcnt]
      omega
    · rintro rfl
      exact Bool.false_ne_true hsend
    · simp only [hels]
      congr 3
      rw [window, window, List.take_take]
      simp only [Nat.mul_div_cancel_left _ hpos]
      congr 1
      omega
  · -- dense
    rename_i hsend
    obtain ⟨words, hwords⟩ : ∃ words, words =
      (if d * x + dataProcessSize / 4 > d * y then d * y - d * x else dataProcessSize / 4) := ⟨_, rfl⟩
    simp only [← hwords]
    have hw : 0 < words ∧ d * x + words ≤ d * y ∧ d ∣ d * x + words := by
      have hchunk : dataProcessSize / 4 = 4096 := rfl
      by_cases hlong : d * x + dataProcessSize / 4 > d * y
      · rw [if_pos hlong] at hwords
        have hsum : d * x + words = d * y := by omega
        exact ⟨by omega, Nat.le_of_eq hsum, hsum ▸ Nat.dvd_mul_right d y⟩
      · rw [if_neg hlong] at hwords
        refine ⟨by omega, by omega, Nat.dvd_add (Nat.dvd_mul_right d x) ?_⟩
        rw [hwords, hchunk]
        rcases hd with rfl | rfl <;> decide
    refine ⟨d * x + words, by omega, by omega, hw.2.1, hw.2.2, Or.inl ⟨?_, rfl⟩⟩
    rintro rfl
    exact hsend rfl

/-- What `AcAccumulatePrepareBuffer` prepares carries the next words, at least one. -/
theorem prepare_carries {d : Nat} (hd : d = 1 ∨ d = 2) (mode : AccumulatorMode) {src : List T}
    {idx size : Nat} (hidx : d ∣ idx) (hsize : d ∣ size) (hlt : idx < size)
    (hbound : size ≤ d * src.length) :
    0 < (acAccumulatePrepareBuffer d mode 0 src idx size).1 ∧
    idx + (acAccumulatePrepareBuffer d mode 0 src idx size).1 ≤ size ∧
    ∀ threadId, Carries d src
      ⟨threadId, idx, (acAccumulatePrepareBuffer d mode 0 src idx size).2⟩ idx
      (idx + (acAccumulatePrepareBuffer d mode 0 src idx size).1) := by
  obtain ⟨c, hwords, hic, hc, hwhole, hdata⟩ := prepare_spec hd mode 0 hidx hsize hlt hbound
  have hnext : idx + (c - idx) = c := by omega
  rw [hwords, hnext]
  refine ⟨by omega, hc, fun threadId => ⟨hic.le, hwhole, fun _ => hc.trans hbound, fun _ => rfl, ?_⟩⟩
  rcases hdata with ⟨-, hdata⟩ | ⟨-, hdata⟩
  · exact Or.inl hdata
  · right
    have hid : (sparseValue 0 : T → T) = id := funext sparseValue_zero
    rw [hid, List.map_id] at hdata
    exact hdata

end Carries

/-- A `DAddAccumulator` with threshold zero, and its users. -/
structure AddAccumulator (T : Type) [AddCommGroup T] [LinearOrder T] extends Config T where
  size_of : dsmSizeOf = 1 ∨ dsmSizeOf = 2
  mode : AccumulatorMode
  prepare_eq : prepare = acAccumulatePrepareBuffer dsmSizeOf mode 0
  accumulate_eq : accumulate = doAccumulate dsmSizeOf
  small : dsmSizeOf * len ≤ maxWords
  length_input : ∀ u r, (input u r).length = len

/-! ## The packets of a call -/

section Send

variable {T : Type}

/-- The packets for node `i` among what a thread has sent. -/
def packetsTo (i : Nat) (outs : List (Output T)) : List (Packet T) :=
  (outs.filter fun o => o.dst = i).map Output.packet

theorem packetsTo_append (i : Nat) (outs outs' : List (Output T)) :
    packetsTo i (outs ++ outs') = packetsTo i outs ++ packetsTo i outs' := by
  rw [packetsTo, List.filter_append, List.map_append]
  rfl

theorem packetsTo_self (i : Nat) (p : Packet T) : packetsTo i [⟨i, p⟩] = [p] := by
  simp [packetsTo]

theorem packetsTo_of_ne {i j : Nat} (h : j ≠ i) (p : Packet T) : packetsTo i [⟨j, p⟩] = [] := by
  simp [packetsTo, h]

/-- The last packet, and no other, has the thread id. -/
def FinalLast (u : SyncThreadNode) (ps : List (Packet T)) : Prop :=
  ∃ pre p, ps = pre ++ [p] ∧ p.threadId = u.threadId ∧ ∀ q ∈ pre, q.threadId = 0

/-- A thread sends: its local variables and all that it has sent in its call. -/
def transmit (cfg : Config T) (u : SyncThreadNode) (st : Thread × List (Output T))
    (ready : Nat → Bool) : Option (Thread × List (Output T)) :=
  (advance cfg u st.1 ready).map fun r => (r.1, st.2 ++ r.2.toList)

variable [AddCommGroup T] [LinearOrder T]

/-- A node has been sent its whole segment. -/
def Served (cfg : Config T) (u : SyncThreadNode) (r i : Nat) (ps : List (Packet T)) : Prop :=
  Gives cfg.dsmSizeOf (cfg.input u r) (cfg.start i) ps (max (cfg.start i) (cfg.stop i)) ∧
    FinalLast u ps

/-- A node has been sent its segment up to the word `idx`. -/
structure Underway (cfg : Config T) (u : SyncThreadNode) (r i idx : Nat) (ps : List (Packet T)) :
    Prop where
  lt : idx < cfg.stop i
  whole : cfg.dsmSizeOf ∣ idx
  gives : Gives cfg.dsmSizeOf (cfg.input u r) (cfg.start i) ps idx
  plain : ∀ p ∈ ps, p.threadId = 0

/-- A thread has looked at the segments of the first `k` nodes. -/
structure Scanned (cfg : Config T) (u : SyncThreadNode) (k : Nat) (th : Thread)
    (outs : List (Output T)) : Prop where
  idx_eq : ∀ i < k, th.sendIdx i = cfg.start i
  size_eq : ∀ i < k, th.sendSize i = cfg.stop i
  served : ∀ i < k, cfg.stop i ≤ cfg.start i → i ≠ u.machine →
    Served cfg u th.round i (packetsTo i outs)
  unsent : ∀ i, ¬(i < k ∧ cfg.stop i ≤ cfg.start i ∧ i ≠ u.machine) → packetsTo i outs = []
  done : th.done = 1 + (List.range k).countP fun i => cfg.stop i ≤ cfg.start i

/-- What the counter of a thread counts: the empty segments, its own among them, and
the segments that it has sent to the end. -/
def Counted (cfg : Config T) (u : SyncThreadNode) (sendIdx : Nat → Nat) (i : Nat) : Prop :=
  if i = u.machine then cfg.stop i ≤ cfg.start i else cfg.stop i ≤ sendIdx i

instance (cfg : Config T) (u : SyncThreadNode) (sendIdx : Nat → Nat) :
    DecidablePred (Counted cfg u sendIdx) := fun _ => by
  unfold Counted
  infer_instance

/-- A thread is in the loop that sends the segments, or behind it. -/
structure Looping (cfg : Config T) (u : SyncThreadNode) (th : Thread) (outs : List (Output T)) :
    Prop where
  size_eq : ∀ i < cfg.numNodes, th.sendSize i = cfg.stop i
  own_idx : th.sendIdx u.machine = cfg.stop u.machine
  own : Served cfg u th.round u.machine (packetsTo u.machine outs)
  others : ∀ i < cfg.numNodes, i ≠ u.machine →
    cfg.stop i ≤ th.sendIdx i ∧ Served cfg u th.round i (packetsTo i outs) ∨
      Underway cfg u th.round i (th.sendIdx i) (packetsTo i outs)
  done : th.done = 1 + (List.range cfg.numNodes).countP fun i => Counted cfg u th.sendIdx i

/-- The state of a thread in its call. -/
def Sending (cfg : Config T) (u : SyncThreadNode) (th : Thread) (outs : List (Output T)) : Prop :=
  match th.phase with
  | .idle => False
  | .scan k => k ≤ cfg.numNodes ∧ Scanned cfg u k th outs
  | .own => Scanned cfg u cfg.numNodes th outs
  | .select => Looping cfg u th outs
  | .pass _ i => i ≤ cfg.numNodes ∧ Looping cfg u th outs
  | .waiting => Looping cfg u th outs ∧ cfg.numNodes ≤ th.done

variable {acc : AddAccumulator T} {u : SyncThreadNode} {th : Thread} {outs : List (Output T)}

theorem AddAccumulator.sz_eq (acc : AddAccumulator T) : acc.sz = acc.dsmSizeOf * acc.len := by
  apply Nat.mod_eq_of_lt
  exact Nat.lt_of_le_of_lt acc.small (by decide)

theorem AddAccumulator.sz_le (acc : AddAccumulator T) : acc.sz ≤ maxWords := by
  rw [acc.sz_eq]
  exact acc.small

theorem AddAccumulator.dvd_blockSize (acc : AddAccumulator T) : acc.dsmSizeOf ∣ blockSize := by
  rcases acc.size_of with h | h <;> rw [h] <;> decide

theorem AddAccumulator.dvd_start (acc : AddAccumulator T) (i : Nat) : acc.dsmSizeOf ∣ acc.start i :=
  dvd_segmentStart acc.dvd_blockSize ..

theorem AddAccumulator.dvd_stop (acc : AddAccumulator T) (i : Nat) : acc.dsmSizeOf ∣ acc.stop i :=
  dvd_segmentEnd acc.dvd_blockSize (by rw [acc.sz_eq]; exact Nat.dvd_mul_right _ _) _ _

/-- A segment ends within the vector of every call. -/
theorem AddAccumulator.stop_le (acc : AddAccumulator T) (u : SyncThreadNode) (r i : Nat) :
    acc.stop i ≤ acc.dsmSizeOf * (acc.input u r).length := by
  rw [acc.length_input, ← acc.sz_eq]
  exact segmentEnd_le ..

omit [AddCommGroup T] [LinearOrder T] in
theorem window_of_le {d : Nat} {src : List T} {a c : Nat} (h : c ≤ a) : window d src a c = [] := by
  have hdiv : c / d ≤ a / d := Nat.div_le_div_right h
  rw [window, show c / d - a / d = 0 by omega, List.take_zero]

/-- One packet with the whole segment and the thread id serves a node. -/
theorem served_single (acc : AddAccumulator T) (u : SyncThreadNode) (r i offset : Nat)
    (hoff : acc.start i < acc.stop i → offset = acc.start i) :
    Served acc.toConfig u r i
      [⟨u.threadId, offset, .dense (window acc.dsmSizeOf (acc.input u r) (acc.start i) (acc.stop i))⟩] := by
  refine ⟨Gives.single ⟨Nat.le_max_left _ _, ?_, ?_, ?_, Or.inl ?_⟩, [], _, rfl, rfl, fun q hq => by
    cases hq⟩
  · rcases Nat.le_total (acc.start i) (acc.stop i) with h | h
    · rw [Nat.max_eq_right h]
      exact acc.dvd_stop i
    · rw [Nat.max_eq_left h]
      exact acc.dvd_start i
  · intro h
    rw [Nat.max_eq_right (by omega)]
    exact acc.stop_le u r i
  · intro h
    exact hoff (by omega)
  · rcases Nat.le_total (acc.start i) (acc.stop i) with h | h
    · rw [Nat.max_eq_right h]
    · rw [Nat.max_eq_left h, window_of_le h, window_of_le (Nat.le_refl _)]

theorem sending_begin (acc : AddAccumulator T) (u : SyncThreadNode) (th : Thread) :
    Sending acc.toConfig u (beginCall th) [] := by
  refine ⟨Nat.zero_le _, ?_, ?_, ?_, ?_, ?_⟩
  · exact fun i hi => absurd hi (Nat.not_lt_zero i)
  · exact fun i hi => absurd hi (Nat.not_lt_zero i)
  · exact fun i hi => absurd hi (Nat.not_lt_zero i)
  · exact fun i _ => rfl
  · rfl

/-- A turn of the loop over the segments. -/
theorem scanNode_sending {k : Nat} (hk : k < acc.numNodes) (h : Scanned acc.toConfig u k th outs) :
    Scanned acc.toConfig u (k + 1) (scanNode acc.toConfig u th k).1
      (outs ++ (scanNode acc.toConfig u th k).2.toList) := by
  have hout : ∀ i, i ≠ k → packetsTo i (outs ++ (scanNode acc.toConfig u th k).2.toList) =
      packetsTo i outs := by
    intro i hik
    rw [packetsTo_append]
    simp only [scanNode]
    split
    · rw [Option.toList_some, packetsTo_of_ne (Ne.symm hik), List.append_nil]
    · rw [Option.toList_none]
      exact List.append_nil _
  have hbefore : packetsTo k outs = [] := h.unsent k fun hlt => Nat.lt_irrefl k hlt.1
  constructor
  · intro i hi
    by_cases hik : i = k
    · subst hik
      simp only [scanNode, Function.update_self]
    · simp only [scanNode, Function.update_of_ne hik]
      exact h.idx_eq i (by omega)
  · intro i hi
    by_cases hik : i = k
    · subst hik
      simp only [scanNode, Function.update_self]
    · simp only [scanNode, Function.update_of_ne hik]
      exact h.size_eq i (by omega)
  · intro i hi hempty hself
    by_cases hik : i = k
    · subst hik
      have hsent : (scanNode acc.toConfig u th i).2 = some ⟨i, ⟨u.threadId, 0, .dense []⟩⟩ :=
        if_pos ⟨hempty, hself⟩
      rw [packetsTo_append, hbefore, hsent, Option.toList_some, packetsTo_self, List.nil_append]
      have hserved := served_single acc u th.round i 0 fun h =>
        absurd h (Nat.not_lt_of_le hempty)
      rw [window_of_le hempty] at hserved
      exact hserved
    · rw [hout i hik]
      exact h.served i (by omega) hempty hself
  · intro i hi
    by_cases hik : i = k
    · subst hik
      have hsent : (scanNode acc.toConfig u th i).2 = none :=
        if_neg fun hc => hi ⟨Nat.lt_succ_self i, hc.1, hc.2⟩
      rw [packetsTo_append, hbefore, hsent]
      rfl
    · rw [hout i hik]
      exact h.unsent i fun hc => hi ⟨by omega, hc.2⟩
  · simp only [scanNode]
    rw [h.done, List.range_succ, List.countP_append, List.countP_singleton]
    simp only [decide_eq_true_eq]
    split <;> omega

/-- The call for the own node. -/
theorem own_sending (hu : u ∈ acc.users) (h : Scanned acc.toConfig u acc.numNodes th outs) :
    Looping acc.toConfig u
      { th with
        phase := .select
        sendIdx := Function.update th.sendIdx u.machine (th.sendSize u.machine) }
      (outs ++ [⟨u.machine, ownPacket acc.toConfig u th⟩]) := by
  have hself := acc.placed u hu
  have hpacket : ownPacket acc.toConfig u th = ⟨u.threadId, acc.start u.machine,
      .dense (window acc.dsmSizeOf (acc.input u th.round) (acc.start u.machine)
        (acc.stop u.machine))⟩ := by
    rw [ownPacket, h.idx_eq _ hself, h.size_eq _ hself]
  constructor
  · exact h.size_eq
  · simp only [Function.update_self]
    exact h.size_eq _ hself
  · rw [packetsTo_append, packetsTo_self, h.unsent _ fun hc => hc.2.2 rfl, List.nil_append, hpacket]
    exact served_single acc u th.round u.machine _ fun _ => rfl
  · intro i hi hne
    rw [packetsTo_append, packetsTo_of_ne (Ne.symm hne), List.append_nil]
    simp only [Function.update_of_ne hne, h.idx_eq i hi]
    by_cases hempty : acc.stop i ≤ acc.start i
    · exact Or.inl ⟨hempty, h.served i hi hempty hne⟩
    · right
      rw [h.unsent i fun hc => hempty hc.2.1]
      exact ⟨Nat.lt_of_not_le hempty, acc.dvd_start i, rfl, fun p hp => by cases hp⟩
  · show th.done = _
    rw [h.done]
    congr 1
    apply List.countP_congr
    intro i hi
    by_cases hne : i = u.machine
    · simp [Counted, hne]
    · simp only [Counted, hne, if_false, Function.update_of_ne hne, h.idx_eq i (List.mem_range.mp hi)]

/-- A turn of the loop over the ready nodes that sends something. -/
theorem passNode_sends {ready : Nat → Bool} {i : Nat} (hi : i < acc.numNodes)
    (h : Looping acc.toConfig u th outs) (hlt : th.sendIdx i < acc.stop i) (hne : i ≠ u.machine)
    (hready : ready i = true) :
    ∃ r : Nat × Payload T, 0 < r.1 ∧ th.sendIdx i + r.1 ≤ acc.stop i ∧
      (∀ threadId, Carries acc.dsmSizeOf (acc.input u th.round) ⟨threadId, th.sendIdx i, r.2⟩
        (th.sendIdx i) (th.sendIdx i + r.1)) ∧
      Underway acc.toConfig u th.round i (th.sendIdx i) (packetsTo i outs) ∧
      passNode acc.toConfig u th ready i =
        ({ th with
            phase := .pass ready (i + 1)
            sendIdx := Function.update th.sendIdx i (th.sendIdx i + r.1)
            done := if th.sendIdx i + r.1 = acc.stop i then th.done + 1 else th.done },
          some ⟨i, ⟨if th.sendIdx i + r.1 = acc.stop i then u.threadId else 0,
            th.sendIdx i, r.2⟩⟩) := by
  have hway := (h.others i hi hne).resolve_left fun hc => Nat.not_lt_of_le hc.1 hlt
  obtain ⟨hpos, hle, hcarries⟩ := prepare_carries acc.size_of acc.mode hway.whole (acc.dvd_stop i)
    hlt (acc.stop_le u th.round i)
  refine ⟨_, hpos, hle, hcarries, hway, ?_⟩
  obtain ⟨r, hr⟩ : ∃ r, r = acAccumulatePrepareBuffer acc.dsmSizeOf acc.mode 0
    (acc.input u th.round) (th.sendIdx i) (acc.stop i) := ⟨_, rfl⟩
  rw [← hr] at hle ⊢
  have hmod : (th.sendIdx i + r.1) % two32 = th.sendIdx i + r.1 := by
    apply Nat.mod_eq_of_lt
    have hstop : acc.stop i ≤ acc.sz := segmentEnd_le ..
    have hsz := acc.sz_le
    simp only [maxWords, two32] at *
    omega
  rw [passNode, if_pos ⟨(h.size_eq i hi).symm ▸ hlt, hne, hready⟩]
  simp only [h.size_eq i hi, acc.prepare_eq, ← hr, hmod]

/-- A turn of the loop over the ready nodes. -/
theorem passNode_sending (ready : Nat → Bool) {i : Nat} (hi : i < acc.numNodes)
    (h : Looping acc.toConfig u th outs) :
    Looping acc.toConfig u (passNode acc.toConfig u th ready i).1
      (outs ++ (passNode acc.toConfig u th ready i).2.toList) := by
  by_cases hsend : th.sendIdx i < th.sendSize i ∧ i ≠ u.machine ∧ ready i
  · obtain ⟨hlt, hne, hready⟩ := hsend
    rw [h.size_eq i hi] at hlt
    obtain ⟨r, hpos, hle, hcarries, hway, heq⟩ := passNode_sends hi h hlt hne hready
    rw [heq, Option.toList_some]
    have hout : ∀ j p, j ≠ i → packetsTo j (outs ++ [⟨i, p⟩]) = packetsTo j outs := by
      intro j p hji
      rw [packetsTo_append, packetsTo_of_ne (Ne.symm hji), List.append_nil]
    constructor
    · exact h.size_eq
    · simp only [Function.update_of_ne (Ne.symm hne)]
      exact h.own_idx
    · rw [hout _ _ (Ne.symm hne)]
      exact h.own
    · intro j hj hjself
      by_cases hji : j = i
      · subst hji
        rw [packetsTo_append, packetsTo_self]
        simp only [Function.update_self]
        by_cases hlast : th.sendIdx j + r.1 = acc.stop j
        · left
          rw [if_pos hlast, hlast]
          have hmax : max (acc.start j) (acc.stop j) = acc.stop j :=
            Nat.max_eq_right (Nat.le_trans hway.gives.le (Nat.le_of_lt hway.lt))
          refine ⟨Nat.le_refl _, ?_, _, _, rfl, rfl, hway.plain⟩
          rw [hmax, ← hlast]
          exact hway.gives.append (Gives.single (hcarries u.threadId))
        · right
          rw [if_neg hlast]
          refine ⟨Nat.lt_of_le_of_ne hle hlast, (hcarries 0).whole,
            hway.gives.append (Gives.single (hcarries 0)), fun p hp => ?_⟩
          rcases List.mem_append.mp hp with hp | hp
          · exact hway.plain p hp
          · rw [List.mem_singleton.mp hp]
      · rw [hout j _ hji]
        simp only [Function.update_of_ne hji]
        exact h.others j hj hjself
    · simp only
      by_cases hlast : th.sendIdx i + r.1 = acc.stop i
      · rw [if_pos hlast, h.done, Nat.add_assoc]
        congr 1
        symm
        apply countP_eq_succ List.nodup_range (List.mem_range.mpr hi)
        · rw [Counted, if_neg hne]
          exact Nat.not_le_of_lt hlt
        · rw [Counted, if_neg hne, Function.update_self]
          exact Nat.le_of_eq hlast.symm
        · intro j hj hji
          rw [Counted, Counted, Function.update_of_ne hji]
      · rw [if_neg hlast, h.done]
        congr 1
        apply List.countP_congr
        intro j hj
        simp only [decide_eq_true_eq]
        by_cases hji : j = i
        · subst hji
          rw [Counted, Counted, if_neg hne, if_neg hne, Function.update_self]
          exact ⟨fun hc => absurd hc (Nat.not_le_of_lt hlt),
            fun hc => absurd (Nat.le_antisymm hle hc) hlast⟩
        · rw [Counted, Counted, Function.update_of_ne hji]
  · have heq : passNode acc.toConfig u th ready i = ({ th with phase := .pass ready (i + 1) }, none) :=
      if_neg hsend
    rw [heq, Option.toList_none, List.append_nil]
    exact { h with }

theorem Sending.of_pass {ready : Nat → Bool} {i : Nat} (hphase : th.phase = .pass ready i)
    (hi : i ≤ acc.numNodes) (h : Looping acc.toConfig u th outs) :
    Sending acc.toConfig u th outs := by
  rw [Sending, hphase]
  exact ⟨hi, h⟩

/-- A step of a thread in its call. -/
theorem sending_step (hu : u ∈ acc.users) (h : Sending acc.toConfig u th outs) {ready : Nat → Bool}
    {th' : Thread} {o : Option (Output T)} (hadv : advance acc.toConfig u th ready = some (th', o)) :
    Sending acc.toConfig u th' (outs ++ o.toList) := by
  rw [advance] at hadv
  rw [Sending] at h
  split at hadv
  · rename_i i hphase
    rw [hphase] at h
    split at hadv
    · rename_i hi
      obtain ⟨rfl, rfl⟩ := Prod.mk.inj (Option.some.inj hadv)
      exact ⟨hi, scanNode_sending hi h.2⟩
    · rename_i hi
      cases hadv
      obtain rfl : i = acc.numNodes := Nat.le_antisymm h.1 (Nat.le_of_not_lt hi)
      rw [Option.toList_none, List.append_nil]
      exact { h.2 with }
  · rename_i hphase
    rw [hphase] at h
    cases hadv
    exact own_sending hu h
  · rename_i hphase
    rw [hphase] at h
    cases hadv
    rw [Option.toList_none, List.append_nil]
    by_cases hdone : th.done < acc.numNodes
    · rw [Sending, if_pos hdone]
      exact ⟨Nat.zero_le _, { h with }⟩
    · rw [Sending, if_neg hdone]
      exact ⟨{ h with }, Nat.le_of_not_lt hdone⟩
  · rename_i ready' i hphase
    rw [hphase] at h
    split at hadv
    · rename_i hi
      obtain ⟨rfl, rfl⟩ := Prod.mk.inj (Option.some.inj hadv)
      have hloop := passNode_sending ready' hi h.2
      have hphase' : (passNode acc.toConfig u th ready' i).1.phase = .pass ready' (i + 1) := by
        rw [passNode]
        split <;> rfl
      exact .of_pass hphase' hi hloop
    · cases hadv
      rw [Option.toList_none, List.append_nil]
      exact { h.2 with }
  · cases hadv
  · cases hadv

/-- A node to which the thread sends nothing more has been served. -/
theorem Sending.served (h : Sending acc.toConfig u th outs) {i : Nat} (hi : i < acc.numNodes)
    (hclosed : th.Closed u i) : Served acc.toConfig u th.round i (packetsTo i outs) := by
  have hloop : Looping acc.toConfig u th outs → th.sendSize i ≤ th.sendIdx i →
      Served acc.toConfig u th.round i (packetsTo i outs) := by
    intro hl hle
    by_cases hself : i = u.machine
    · rw [hself]
      exact hl.own
    · rcases hl.others i hi hself with hs | hway
      · exact hs.2
      · rw [hl.size_eq i hi] at hle
        exact absurd hle (Nat.not_le_of_lt hway.lt)
  rw [Sending] at h
  rw [Thread.Closed] at hclosed
  split at h
  · exact h.elim
  · rename_i k hphase
    rw [hphase] at hclosed
    obtain ⟨hlt, hne, hle⟩ := hclosed
    rw [h.2.idx_eq i hlt, h.2.size_eq i hlt] at hle
    exact h.2.served i hlt hle hne
  · rename_i hphase
    rw [hphase] at hclosed
    obtain ⟨hne, hle⟩ := hclosed
    rw [h.idx_eq i hi, h.size_eq i hi] at hle
    exact h.served i hi hle hne
  · rename_i hphase
    rw [hphase] at hclosed
    exact hloop h hclosed
  · rename_i hphase
    rw [hphase] at hclosed
    exact hloop h.2 hclosed
  · rename_i hphase
    rw [hphase] at hclosed
    exact hloop h.1 hclosed

/-- When all but one elements are counted, an uncounted one is the only one. -/
theorem countP_all_but {α : Type*} [DecidableEq α] {l : List α} (hl : l.Nodup) {a : α} (ha : a ∈ l)
    {p : α → Prop} [DecidablePred p] (hp : ¬p a) (hcount : l.length ≤ 1 + l.countP fun b => p b) :
    ∀ b ∈ l, b ≠ a → p b := by
  have hsucc := countP_eq_succ hl ha (p := p) (q := fun b => p b ∨ b = a) hp (Or.inr rfl)
    fun b hb hba => by simp [hba]
  have hall : l.countP (fun b => p b ∨ b = a) = l.length :=
    Nat.le_antisymm List.countP_le_length (by omega)
  intro b hb hba
  have hor := of_decide_eq_true (List.countP_eq_length.mp hall b hb)
  exact hor.resolve_right hba

theorem le_countP_all_but {α : Type*} [DecidableEq α] {l : List α} (hl : l.Nodup) {a : α}
    {p : α → Prop} [DecidablePred p] (h : ∀ b ∈ l, b ≠ a → p b) :
    l.length ≤ 1 + l.countP fun b => p b := by
  induction l with
  | nil => exact Nat.zero_le _
  | cons b l ih =>
      rw [List.nodup_cons] at hl
      rw [List.length_cons, List.countP_cons]
      by_cases hba : b = a
      · have hall : l.countP (fun b => p b) = l.length := by
          apply List.countP_eq_length.mpr
          intro c hc
          apply decide_eq_true
          apply h c (List.mem_cons_of_mem b hc)
          rintro rfl
          exact hl.1 (hba ▸ hc)
        omega
      · have hrest := ih hl.2 fun c hc => h c (List.mem_cons_of_mem b hc)
        rw [if_pos (decide_eq_true (h b List.mem_cons_self hba))]
        omega

/-- A thread whose own segment is not empty leaves the loop when every node is served. -/
theorem Looping.all_served (h : Looping acc.toConfig u th outs) (hu : u ∈ acc.users)
    (hdone : acc.numNodes ≤ th.done) (hown : acc.start u.machine < acc.stop u.machine) {i : Nat}
    (hi : i < acc.numNodes) : Served acc.toConfig u th.round i (packetsTo i outs) := by
  by_cases hself : i = u.machine
  · rw [hself]
    exact h.own
  · have hcounted : Counted acc.toConfig u th.sendIdx i := by
      apply countP_all_but List.nodup_range (List.mem_range.mpr (acc.placed u hu)) ?_ ?_ i
        (List.mem_range.mpr hi) hself
      · rw [Counted, if_pos rfl]
        exact Nat.not_le_of_lt hown
      · rw [List.length_range, ← h.done]
        exact hdone
    rw [Counted, if_neg hself] at hcounted
    rcases h.others i hi hself with hs | hway
    · exact hs.2
    · exact absurd hcounted (Nat.not_le_of_lt hway.lt)

/-- Before it leaves the loop, a thread owes a node other than its own and `v` data,
if it does not count both its own and `v` as open. -/
theorem Looping.exists_owed (h : Looping acc.toConfig u th outs) (hdone : th.done < acc.numNodes)
    {v : Nat} (hv : ∀ i < acc.numNodes, ¬Counted acc.toConfig u th.sendIdx i → i = u.machine → i = v) :
    ∃ i < acc.numNodes, i ≠ u.machine ∧ i ≠ v ∧ th.sendIdx i < acc.stop i := by
  by_contra hnone
  have hall : ∀ i ∈ List.range acc.numNodes, i ≠ v → Counted acc.toConfig u th.sendIdx i := by
    intro i hi hiv
    have hi' := List.mem_range.mp hi
    by_contra hnot
    by_cases hself : i = u.machine
    · exact hiv (hv i hi' hnot hself)
    · rw [Counted, if_neg hself] at hnot
      exact hnone ⟨i, hi', hself, hiv, Nat.lt_of_not_le hnot⟩
  have hle : (List.range acc.numNodes).length ≤
      1 + (List.range acc.numNodes).countP fun i => Counted acc.toConfig u th.sendIdx i :=
    le_countP_all_but List.nodup_range hall
  rw [List.length_range, ← h.done] at hle
  omega

/-! ## The end of the loop -/

/-- With the same nodes ready all the time, the thread gets from one state to another. -/
def Leads (cfg : Config T) (u : SyncThreadNode) (ready : Nat → Bool)
    (a b : Thread × List (Output T)) : Prop :=
  ∃ m, run (transmit cfg u) a (List.replicate m ready) = some b

section Leads

variable {cfg : Config T} {ready : Nat → Bool} {a b c : Thread × List (Output T)}

omit [AddCommGroup T] [LinearOrder T] in
theorem Leads.refl (a : Thread × List (Output T)) : Leads cfg u ready a a := ⟨0, rfl⟩

omit [AddCommGroup T] [LinearOrder T] in
theorem Leads.trans (hab : Leads cfg u ready a b) (hbc : Leads cfg u ready b c) :
    Leads cfg u ready a c := by
  obtain ⟨m, hm⟩ := hab
  obtain ⟨n, hn⟩ := hbc
  refine ⟨m + n, ?_⟩
  rw [List.replicate_add, run_append, hm]
  exact hn

omit [AddCommGroup T] [LinearOrder T] in
theorem Leads.step (outs : List (Output T)) {th' : Thread} {o : Option (Output T)}
    (h : advance cfg u th ready = some (th', o)) :
    Leads cfg u ready (th, outs) (th', outs ++ o.toList) := by
  refine ⟨1, ?_⟩
  rw [List.replicate_one, run_cons, transmit, h]
  rfl

end Leads

/-- A pass ends; it sends something to every ready node that is owed something. -/
theorem pass_leads (ready rdy : Nat → Bool) (k : Nat) (hk : k ≤ acc.numNodes)
    (hphase : th.phase = .pass rdy (acc.numNodes - k)) (h : Looping acc.toConfig u th outs) :
    ∃ th' outs', Leads acc.toConfig u ready (th, outs) (th', outs') ∧ th'.phase = .select ∧
      Looping acc.toConfig u th' outs' ∧
      (∀ i, th.sendIdx i ≤ th'.sendIdx i) ∧
      (∀ i, rdy i = false → th'.sendIdx i = th.sendIdx i) ∧
      ∀ i, acc.numNodes - k ≤ i → i < acc.numNodes → i ≠ u.machine → rdy i = true →
        th.sendIdx i < acc.stop i → th.sendIdx i < th'.sendIdx i := by
  induction k generalizing th outs with
  | zero =>
      rw [Nat.sub_zero] at hphase
      have hadv : advance acc.toConfig u th ready = some ({ th with phase := .select }, none) := by
        rw [advance, hphase]
        simp
      have hlead := Leads.step outs hadv
      rw [Option.toList_none, List.append_nil] at hlead
      exact ⟨_, _, hlead, rfl, { h with }, fun i => Nat.le_refl _, fun i _ => rfl,
        fun i hlo hhi => by omega⟩
  | succ k ih =>
      have hi : acc.numNodes - (k + 1) < acc.numNodes := by omega
      obtain ⟨i, hidef⟩ : ∃ i, i = acc.numNodes - (k + 1) := ⟨_, rfl⟩
      rw [← hidef] at hphase hi
      have hnext : acc.numNodes - k = i + 1 := by omega
      have hadv : advance acc.toConfig u th ready = some (passNode acc.toConfig u th rdy i) := by
        rw [advance, hphase]
        simp [hi]
      have hlead := Leads.step outs hadv
      have hloop := passNode_sending rdy hi h
      have hphase' : (passNode acc.toConfig u th rdy i).1.phase =
          .pass rdy (acc.numNodes - k) := by
        rw [passNode, hnext]
        split <;> rfl
      obtain ⟨th', outs', hlead', hselect, hloop', hmono, hsame, hprog⟩ :=
        ih (by omega) hphase' hloop
      have hstep : ∀ j, th.sendIdx j ≤ (passNode acc.toConfig u th rdy i).1.sendIdx j ∧
          (j ≠ i ∨ rdy j = false →
            (passNode acc.toConfig u th rdy i).1.sendIdx j = th.sendIdx j) ∧
          (j = i → j ≠ u.machine → rdy j = true → th.sendIdx j < acc.stop j →
            th.sendIdx j < (passNode acc.toConfig u th rdy i).1.sendIdx j) := by
        intro j
        by_cases hsend : th.sendIdx i < th.sendSize i ∧ i ≠ u.machine ∧ rdy i
        · obtain ⟨hlt, hne, hready⟩ := hsend
          rw [h.size_eq i hi] at hlt
          obtain ⟨r, hpos, -, -, -, heq⟩ := passNode_sends hi h hlt hne hready
          rw [heq]
          by_cases hji : j = i
          · subst hji
            simp only [Function.update_self]
            refine ⟨Nat.le_add_right _ _, fun hj => ?_, fun _ _ _ _ => by omega⟩
            rcases hj with hj | hj
            · exact absurd rfl hj
            · rw [hready] at hj
              cases hj
          · simp only [Function.update_of_ne hji]
            exact ⟨Nat.le_refl _, fun _ => trivial, fun hc => absurd hc hji⟩
        · have heq : passNode acc.toConfig u th rdy i = ({ th with phase := .pass rdy (i + 1) }, none) :=
            if_neg hsend
          rw [heq]
          refine ⟨Nat.le_refl _, fun _ => rfl, fun hji hne hj hlt => absurd ⟨?_, ?_, ?_⟩ hsend⟩
          · rw [h.size_eq i hi, ← hji]
            exact hlt
          · rw [← hji]
            exact hne
          · rw [← hji]
            exact hj
      refine ⟨th', outs', hlead.trans hlead', hselect, hloop',
        fun j => Nat.le_trans (hstep j).1 (hmono j), fun j hj => ?_, fun j hlo hhi hne hj hlt => ?_⟩
      · rw [hsame j hj, (hstep j).2.1 (Or.inr hj)]
      · by_cases hji : j = i
        · exact Nat.lt_of_lt_of_le ((hstep j).2.2 hji hne hj hlt) (hmono j)
        · have heq := (hstep j).2.1 (Or.inl hji)
          have := hprog j (by omega) hhi hne hj (by rw [heq]; exact hlt)
          rwa [heq] at this

/-- The words that a thread still owes. -/
def owed (cfg : Config T) (th : Thread) : Nat :=
  ∑ i ∈ Finset.range cfg.numNodes, (cfg.stop i - th.sendIdx i)

/-- The loop ends when, as long as it runs, some node that is ready is owed something. -/
theorem loop_ends (ready : Nat → Bool)
    (hready : ∀ th outs, Looping acc.toConfig u th outs → th.done < acc.numNodes →
      ∃ i < acc.numNodes, i ≠ u.machine ∧ ready i = true ∧ th.sendIdx i < acc.stop i)
    (hphase : th.phase = .select) (h : Looping acc.toConfig u th outs) :
    ∃ th' outs', Leads acc.toConfig u ready (th, outs) (th', outs') ∧ th'.phase = .waiting ∧
      Sending acc.toConfig u th' outs' ∧ ∀ i, ready i = false → th'.sendIdx i = th.sendIdx i := by
  obtain ⟨n, hn⟩ : ∃ n, n = owed acc.toConfig th := ⟨_, rfl⟩
  induction n using Nat.strong_induction_on generalizing th outs with
  | _ n ih =>
      by_cases hdone : th.done < acc.numNodes
      · have hadv : advance acc.toConfig u th ready =
            some ({ th with phase := .pass ready 0 }, none) := by
          rw [advance, hphase]
          simp [hdone]
        have hlead := Leads.step outs hadv
        rw [Option.toList_none, List.append_nil] at hlead
        obtain ⟨th₁, outs₁, hlead₁, hselect, hloop, hmono, hsame, hprog⟩ :=
          pass_leads ready ready acc.numNodes (Nat.le_refl _)
            (show { th with phase := .pass ready 0 }.phase = .pass ready (acc.numNodes - acc.numNodes) by
              rw [Nat.sub_self]) ({ h with } : Looping acc.toConfig u { th with phase := .pass ready 0 } outs)
        obtain ⟨i, hi, hne, hrdy, hlt⟩ := hready th outs h hdone
        have hdecr : owed acc.toConfig th₁ < n := by
          rw [hn, owed, owed]
          apply Finset.sum_lt_sum
          · intro j _
            exact Nat.sub_le_sub_left (hmono j) _
          · refine ⟨i, Finset.mem_range.mpr hi, ?_⟩
            have hmore : th.sendIdx i < th₁.sendIdx i :=
              hprog i (by omega) hi hne hrdy hlt
            omega
        obtain ⟨th₂, outs₂, hlead₂, hwait, hsend, hkeep⟩ := ih _ hdecr hselect hloop rfl
        exact ⟨th₂, outs₂, (hlead.trans hlead₁).trans hlead₂, hwait, hsend,
          fun j hj => (hkeep j hj).trans (hsame j hj)⟩
      · have hadv : advance acc.toConfig u th ready = some ({ th with phase := .waiting }, none) := by
          rw [advance, hphase]
          simp [hdone]
        have hlead := Leads.step outs hadv
        rw [Option.toList_none, List.append_nil] at hlead
        exact ⟨_, _, hlead, rfl, ⟨{ h with }, Nat.le_of_not_lt hdone⟩, fun _ _ => rfl⟩

/-- The scan of the segments ends with the call for the own node. -/
theorem scan_leads (ready : Nat → Bool) (k : Nat) (hk : k ≤ acc.numNodes)
    (hphase : th.phase = .scan (acc.numNodes - k))
    (h : Scanned acc.toConfig u (acc.numNodes - k) th outs) :
    ∃ th' outs', Leads acc.toConfig u ready (th, outs) (th', outs') ∧ th'.phase = .own ∧
      Scanned acc.toConfig u acc.numNodes th' outs' := by
  induction k generalizing th outs with
  | zero =>
      rw [Nat.sub_zero] at hphase h
      have hadv : advance acc.toConfig u th ready = some ({ th with phase := .own }, none) := by
        rw [advance, hphase]
        simp
      have hlead := Leads.step outs hadv
      rw [Option.toList_none, List.append_nil] at hlead
      exact ⟨_, _, hlead, rfl, { h with }⟩
  | succ k ih =>
      have hi : acc.numNodes - (k + 1) < acc.numNodes := by omega
      obtain ⟨i, hidef⟩ : ∃ i, i = acc.numNodes - (k + 1) := ⟨_, rfl⟩
      rw [← hidef] at hphase h hi
      have hnext : acc.numNodes - k = i + 1 := by omega
      have hadv : advance acc.toConfig u th ready = some (scanNode acc.toConfig u th i) := by
        rw [advance, hphase]
        simp [hi]
      have hlead := Leads.step outs hadv
      have hscan := scanNode_sending hi h
      rw [← hnext] at hscan
      have hphase' : (scanNode acc.toConfig u th i).1.phase = .scan (acc.numNodes - k) := by
        rw [hnext]
        rfl
      obtain ⟨th', outs', hlead', hown, hscan'⟩ := ih (by omega) hphase' hscan
      exact ⟨th', outs', hlead.trans hlead', hown, hscan'⟩

/-- From anywhere in the scan a thread gets to the loop. -/
theorem own_leads (hu : u ∈ acc.users) (ready : Nat → Bool) (hphase : th.phase = .own)
    (h : Scanned acc.toConfig u acc.numNodes th outs) :
    ∃ th' outs', Leads acc.toConfig u ready (th, outs) (th', outs') ∧ th'.phase = .select ∧
      Looping acc.toConfig u th' outs' ∧ ∀ i < acc.numNodes, i ≠ u.machine →
        th'.sendIdx i = acc.start i := by
  have hadv : advance acc.toConfig u th ready =
      some ({ th with
          phase := .select
          sendIdx := Function.update th.sendIdx u.machine (th.sendSize u.machine) },
        some ⟨u.machine, ownPacket acc.toConfig u th⟩) := by
    rw [advance, hphase]
  refine ⟨_, _, Leads.step outs hadv, rfl, own_sending hu h, fun i hi hne => ?_⟩
  simp only [Function.update_of_ne hne]
  exact h.idx_eq i hi

/-- From everywhere in a call, if all nodes are ready all the time, the thread leaves
the loop. -/
theorem sending_ends (hu : u ∈ acc.users) (h : Sending acc.toConfig u th outs) :
    ∃ th' outs', Leads acc.toConfig u (fun _ => true) (th, outs) (th', outs') ∧
      th'.phase = .waiting := by
  have hselect : ∀ th outs, th.phase = .select → Looping acc.toConfig u th outs →
      ∃ th' outs', Leads acc.toConfig u (fun _ => true) (th, outs) (th', outs') ∧
        th'.phase = .waiting := by
    intro th outs hphase hl
    have howed : ∀ th outs, Looping acc.toConfig u th outs → th.done < acc.numNodes →
        ∃ i < acc.numNodes, i ≠ u.machine ∧ true = true ∧ th.sendIdx i < acc.stop i := by
      intro th outs hl hdone
      obtain ⟨i, hi, hne, -, hlt⟩ := hl.exists_owed hdone (v := u.machine) fun i _ _ heq => heq
      exact ⟨i, hi, hne, rfl, hlt⟩
    obtain ⟨th', outs', hlead, hwait, -, -⟩ := loop_ends (fun _ => true) howed hphase hl
    exact ⟨th', outs', hlead, hwait⟩
  have hown : ∀ th outs, th.phase = .own → Scanned acc.toConfig u acc.numNodes th outs →
      ∃ th' outs', Leads acc.toConfig u (fun _ => true) (th, outs) (th', outs') ∧
        th'.phase = .waiting := by
    intro th outs hphase hs
    obtain ⟨th₁, outs₁, hlead₁, hphase₁, hloop, -⟩ := own_leads hu (fun _ => true) hphase hs
    obtain ⟨th₂, outs₂, hlead₂, hwait⟩ := hselect th₁ outs₁ hphase₁ hloop
    exact ⟨th₂, outs₂, hlead₁.trans hlead₂, hwait⟩
  rw [Sending] at h
  split at h
  · exact h.elim
  · rename_i k hphase
    obtain ⟨hk, hs⟩ := h
    have hsub : acc.numNodes - (acc.numNodes - k) = k := by omega
    obtain ⟨th₁, outs₁, hlead₁, hphase₁, hs₁⟩ := scan_leads (fun _ => true) (acc.numNodes - k)
      (Nat.sub_le _ _) (by rw [hsub]; exact hphase) (by rw [hsub]; exact hs)
    obtain ⟨th₂, outs₂, hlead₂, hwait⟩ := hown th₁ outs₁ hphase₁ hs₁
    exact ⟨th₂, outs₂, hlead₁.trans hlead₂, hwait⟩
  · rename_i hphase
    exact hown th outs hphase h
  · rename_i hphase
    exact hselect th outs hphase h
  · rename_i ready' i hphase
    obtain ⟨hi, hl⟩ := h
    have hsub : acc.numNodes - (acc.numNodes - i) = i := by omega
    obtain ⟨th₁, outs₁, hlead₁, hphase₁, hloop, -⟩ := pass_leads (fun _ => true) ready'
      (acc.numNodes - i) (Nat.sub_le _ _) (by rw [hsub]; exact hphase) hl
    obtain ⟨th₂, outs₂, hlead₂, hwait⟩ := hselect th₁ outs₁ hphase₁ hloop
    exact ⟨th₂, outs₂, hlead₁.trans hlead₂, hwait⟩
  · rename_i hphase
    exact ⟨th, outs, Leads.refl _, hphase⟩

/-! ## When a call serves every node -/

/-- A node has got exactly the words of its segment, and last a message with the
thread id, and no other message with one. -/
def Complete (cfg : Config T) (u : SyncThreadNode) (r i : Nat) (ps : List (Packet T)) : Prop :=
  Gives cfg.dsmSizeOf (cfg.input u r) (nodeBase cfg.sz cfg.numNodes i) ps
    (nodeBase cfg.sz cfg.numNodes i + nodeSize cfg.sz cfg.numNodes i) ∧ FinalLast u ps

/-- In every call of the thread, whichever nodes are ready when: a node that has got
a message with the thread id has got its segment; when the thread leaves the loop,
every node has; and while all nodes are ready the loop comes to an end. -/
def CallsGive (cfg : Config T) (u : SyncThreadNode) : Prop :=
  ∀ th ready th' outs, run (transmit cfg u) (beginCall th, []) ready = some (th', outs) →
    (∀ i < cfg.numNodes, (∃ p ∈ packetsTo i outs, p.threadId ≠ 0) →
      Complete cfg u th'.round i (packetsTo i outs)) ∧
    (th'.phase = .waiting → ∀ i < cfg.numNodes, Complete cfg u th'.round i (packetsTo i outs)) ∧
    ∃ th'' outs', Leads cfg u (fun _ => true) (th', outs) (th'', outs') ∧ th''.phase = .waiting

/-- The condition: there is no data, or the arithmetic does not wrap and the thread's
own node has a segment. -/
def OwnSegment (cfg : Config T) (u : SyncThreadNode) : Prop :=
  cfg.sz = 0 ∨ cfg.numNodes < 2 ^ 27 ∧
    u.machine * segmentBlocks cfg.sz cfg.numNodes * blockSize < cfg.sz

theorem sending_run (hu : u ∈ acc.users) {ready : List (Nat → Bool)} {th₀ : Thread}
    (hrun : run (transmit acc.toConfig u) (beginCall th₀, []) ready = some (th, outs)) :
    Sending acc.toConfig u th outs := by
  have hinv : ∀ (st : Thread × List (Output T)) (rdy : Nat → Bool) (st' : Thread × List (Output T)),
      Sending acc.toConfig u st.1 st.2 → transmit acc.toConfig u st rdy = some st' →
        Sending acc.toConfig u st'.1 st'.2 := by
    rintro ⟨th, outs⟩ rdy ⟨th', outs'⟩ hs hstep
    obtain ⟨⟨th₁, o⟩, hadv, heq⟩ := Option.map_eq_some_iff.mp hstep
    obtain ⟨rfl, rfl⟩ := Prod.mk.inj heq
    exact sending_step hu hs hadv
  exact invariant_reachable hinv (sending_begin acc u th₀) hrun

/-- A node that has got a message with the thread id has been served. -/
theorem Sending.served_of_final (h : Sending acc.toConfig u th outs) {i : Nat}
    (hi : i < acc.numNodes) (hfinal : ∃ p ∈ packetsTo i outs, p.threadId ≠ 0) :
    Served acc.toConfig u th.round i (packetsTo i outs) := by
  obtain ⟨p, hp, hid⟩ := hfinal
  have hscan : ∀ k, Scanned acc.toConfig u k th outs →
      Served acc.toConfig u th.round i (packetsTo i outs) := by
    intro k hs
    by_cases hc : i < k ∧ acc.stop i ≤ acc.start i ∧ i ≠ u.machine
    · exact hs.served i hc.1 hc.2.1 hc.2.2
    · rw [hs.unsent i hc] at hp
      cases hp
  have hloop : Looping acc.toConfig u th outs →
      Served acc.toConfig u th.round i (packetsTo i outs) := by
    intro hl
    by_cases hself : i = u.machine
    · rw [hself]
      exact hl.own
    · rcases hl.others i hi hself with hs | hway
      · exact hs.2
      · exact absurd (hway.plain p hp) hid
  rw [Sending] at h
  split at h
  · exact h.elim
  · exact hscan _ h.2
  · exact hscan _ h
  · exact hloop h
  · exact hloop h.2
  · exact hloop h.1

/-- Where the sender and the node agree on the segment. -/
theorem complete_of_served {r i : Nat} (hi : i < acc.numNodes)
    (hcase : acc.sz = 0 ∨ acc.numNodes < 2 ^ 27) {ps : List (Packet T)}
    (h : Served acc.toConfig u r i ps) : Complete acc.toConfig u r i ps := by
  refine ⟨?_, h.2⟩
  rcases hcase with hzero | hsmall
  · have hB : segmentBlocks 0 acc.numNodes = 0 := by
      simp [segmentBlocks, ceilDiv]
    have hgives := h.1
    simp only [Config.start, Config.stop, hzero, segmentStart, segmentEnd, hB] at hgives
    simp only [hzero, nodeBase, nodeSize, hB]
    simpa using hgives
  · rw [nodeBase_add_nodeSize acc.sz_le hsmall hi, nodeBase_eq]
    exact h.1

theorem calls_give (hu : u ∈ acc.users) (hcond : OwnSegment acc.toConfig u) :
    CallsGive acc.toConfig u := by
  intro th₀ ready th outs hrun
  have hs := sending_run hu hrun
  have hcase : acc.sz = 0 ∨ acc.numNodes < 2 ^ 27 := hcond.imp id And.left
  refine ⟨fun i hi hfinal => complete_of_served hi hcase (hs.served_of_final hi hfinal),
    fun hwait i hi => complete_of_served hi hcase ?_, sending_ends hu hs⟩
  rw [Sending, hwait] at hs
  obtain ⟨hl, hdone⟩ := hs
  rcases hcond with hzero | ⟨hsmall, hown⟩
  · by_cases hself : i = u.machine
    · rw [hself]
      exact hl.own
    · rcases hl.others i hi hself with hserved | hway
      · exact hserved.2
      · have hstop : acc.stop i ≤ acc.sz := segmentEnd_le ..
        have := hway.lt
        omega
  · apply hl.all_served hu hdone ?_ hi
    have hiff := segmentEnd_le_start_iff acc.sz_le hsmall (acc.placed u hu)
    exact Nat.lt_of_not_le fun hle => Nat.not_lt_of_le (hiff.mp hle) hown

theorem not_final_of_plain (hu : u ∈ acc.users) {ps : List (Packet T)}
    (h : ∀ p ∈ ps, p.threadId = 0) : ¬FinalLast u ps := by
  rintro ⟨pre, p, rfl, hid, -⟩
  have := h p (by simp)
  exact acc.id_ne_zero u hu (hid.symm.trans this)

/-- The scan and the call for the own node, from the beginning of a call. -/
theorem begin_leads (hu : u ∈ acc.users) (ready : Nat → Bool) (th₀ : Thread) :
    ∃ th outs, Leads acc.toConfig u ready (beginCall th₀, []) (th, outs) ∧ th.phase = .select ∧
      Looping acc.toConfig u th outs ∧ ∀ i < acc.numNodes, i ≠ u.machine →
        th.sendIdx i = acc.start i := by
  have hbegin := sending_begin acc u th₀
  have hphase : (beginCall th₀).phase = .scan (acc.numNodes - acc.numNodes) := by
    rw [Nat.sub_self]
    rfl
  have hscanned : Scanned acc.toConfig u (acc.numNodes - acc.numNodes) (beginCall th₀) [] := by
    rw [Nat.sub_self]
    exact hbegin.2
  obtain ⟨th₁, outs₁, hlead₁, hown, hscan⟩ :=
    scan_leads ready acc.numNodes (Nat.le_refl _) hphase hscanned
  obtain ⟨th₂, outs₂, hlead₂, hselect, hloop, hidx⟩ := own_leads hu ready hown hscan
  exact ⟨th₂, outs₂, hlead₁.trans hlead₂, hselect, hloop, hidx⟩

/-- A thread whose own segment is empty can leave the loop while node 0 has got nothing. -/
theorem not_calls_give_of_empty (hu : u ∈ acc.users) (hpos : 0 < acc.sz)
    (hsmall : acc.numNodes < 2 ^ 27)
    (hempty : acc.sz ≤ u.machine * segmentBlocks acc.sz acc.numNodes * blockSize) :
    ¬CallsGive acc.toConfig u := by
  intro hgive
  have hown : acc.stop u.machine ≤ acc.start u.machine :=
    (segmentEnd_le_start_iff acc.sz_le hsmall (acc.placed u hu)).mpr hempty
  have hzero : acc.start 0 < acc.stop 0 := by
    apply Nat.lt_of_not_le
    intro hle
    have := (segmentEnd_le_start_iff acc.sz_le hsmall acc.pos).mp hle
    omega
  have hne : 0 ≠ u.machine := by
    intro h
    rw [← h] at hown
    omega
  -- every node is ready but node 0
  obtain ⟨ready, hready⟩ : ∃ ready : Nat → Bool, ready = fun i => decide (i ≠ 0) := ⟨_, rfl⟩
  have howed : ∀ th outs, Looping acc.toConfig u th outs → th.done < acc.numNodes →
      ∃ i < acc.numNodes, i ≠ u.machine ∧ ready i = true ∧ th.sendIdx i < acc.stop i := by
    intro th outs hl hdone
    obtain ⟨i, hi, hself, hi0, hlt⟩ := hl.exists_owed hdone (v := 0) fun i _ hnot heq => by
      rw [Counted, if_pos heq, heq] at hnot
      exact absurd hown hnot
    exact ⟨i, hi, hself, by simp [hready, hi0], hlt⟩
  obtain ⟨th₁, outs₁, hlead₁, hselect, hloop, hidx⟩ :=
    begin_leads hu ready ⟨0, .idle, fun _ => 0, fun _ => 0, 0⟩
  obtain ⟨th₂, outs₂, hlead₂, hwait, hsend, hkeep⟩ := loop_ends ready howed hselect hloop
  obtain ⟨m, hrun⟩ := hlead₁.trans hlead₂
  have hcomplete := (hgive _ _ _ _ hrun).2.1 hwait 0 acc.pos
  rw [Sending, hwait] at hsend
  have hidx₂ : th₂.sendIdx 0 = acc.start 0 :=
    (hkeep 0 (by simp [hready])).trans (hidx 0 acc.pos hne)
  rcases hsend.1.others 0 acc.pos hne with hserved | hway
  · rw [hidx₂] at hserved
    exact absurd hserved.1 (Nat.not_le_of_lt hzero)
  · exact not_final_of_plain hu hway.plain hcomplete.2

/-- On too many nodes a call never serves node 2^27 - 1. -/
theorem not_calls_give_of_many (hu : u ∈ acc.users) (hpos : 0 < acc.sz)
    (hmany : 2 ^ 27 ≤ acc.numNodes) : ¬CallsGive acc.toConfig u := by
  intro hgive
  obtain ⟨hbase, hsize, hstop⟩ := segment_wraps acc.sz_le hpos hmany
  have hi : 2 ^ 27 - 1 < acc.numNodes := by omega
  obtain ⟨th, outs, ⟨m, hrun⟩, -, hloop, -⟩ :=
    begin_leads hu (fun _ => true) ⟨0, .idle, fun _ => 0, fun _ => 0, 0⟩
  have hserved : Served acc.toConfig u th.round (2 ^ 27 - 1) (packetsTo (2 ^ 27 - 1) outs) := by
    by_cases hself : 2 ^ 27 - 1 = u.machine
    · rw [hself]
      exact hloop.own
    · rcases hloop.others _ hi hself with hs | hway
      · exact hs.2
      · have hlt := hway.lt
        rw [Config.stop, hstop] at hlt
        exact absurd hlt (Nat.not_lt_zero _)
  obtain ⟨pre, p, hps, hid, -⟩ := hserved.2
  have hcomplete := (hgive _ _ _ _ hrun).1 _ hi ⟨p, by rw [hps]; simp, by
    rw [hid]
    exact acc.id_ne_zero u hu⟩
  have hlen : acc.dsmSizeOf * (acc.input u th.round).length ≤
      nodeBase acc.sz acc.numNodes (2 ^ 27 - 1) := by
    have hsmall := acc.small
    rw [acc.length_input]
    simp only [maxWords, two32, blockSize] at *
    omega
  have heq := hcomplete.1.eq_of_beyond hlen
  rw [hsize] at heq
  simp only [blockSize] at heq
  omega

end Send

end Dogee.Accumulator
