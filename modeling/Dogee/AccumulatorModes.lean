import Dogee.AccumulatorEncoding

/-!
# Modes, placement and the threshold

A `DFunctionalAccumulator` calls its function for every element that it is sent. A
thread sends the other nodes their segments densely, sparsely or as the data
suggests; its own node gets its segment densely, without a message. Only the
sparse messages compare with the threshold, and they leave out the zeros, so that
the function is not called for them.

Messages of different threads arrive in any order, those of one thread in the
order in which it sends them. What a node's buffer holds at an element depends on
the order in which the messages with this element arrive.
-/

namespace Dogee.Accumulator

open SyncManager (SyncThreadNode)

variable {T : Type}

/-! ## `DFunctionalAccumulator` -/

/-- Call the function for elements of a buffer from the position `j` on. -/
def funcAt (func : T → Nat → T → T) : List T → Nat → Nat → List T → List T
  | out, _, _, [] => out
  | out, j, index, v :: vs => funcAt func (out.modify j (func v (index % two32))) (j + 1) (index + 1) vs

def functionalDense (func : T → Nat → T → T) (data : List T) (inIndex : Nat) (out : List T)
    (outIndex outLen : Nat) : Option (List T) :=
  let offset := (inIndex + two32 - outIndex) % two32
  if offset < two32 / 2 ∧ (offset + data.length) % two32 ≤ outLen then
    some (funcAt func out offset inIndex data)
  else none

def functionalSparse (func : T → Nat → T → T) (elements : List (Nat × T)) (out : List T)
    (outIndex outLen : Nat) : Option (List T) :=
  elements.foldlM (fun out e =>
    if outIndex ≤ e.1 ∧ e.1 < (outIndex + outLen) % two32 then
      some (out.modify (e.1 - outIndex) (func e.2 e.1))
    else none) out

/-- `BaseDoAccumulateDense` and `BaseDoAccumulateSparse`, by the type of the payload. -/
def functionalAccumulate (func : T → Nat → T → T) (d : Nat) (data : Payload T) (offset : Nat)
    (buf : List T) (base size : Nat) : Option (List T) :=
  match data with
  | .dense data => functionalDense func data (offset / d) buf (base / d) (size / d)
  | .sparse elements => functionalSparse func elements buf (base / d) (size / d)

theorem funcAt_add [Add T] (out : List T) (j index : Nat) (vs : List T) :
    funcAt (fun v _ x => x + v) out j index vs = addAt out j vs := by
  induction vs generalizing out j index with
  | nil => rfl
  | cons v vs ih => exact ih _ _ _

/-- Addition makes a `DAddAccumulator`. -/
theorem functionalAccumulate_add [Add T] (d : Nat) (data : Payload T) (offset : Nat) (buf : List T)
    (base size : Nat) : functionalAccumulate (fun v _ x => x + v) d data offset buf base size =
      doAccumulate d data offset buf base size := by
  cases data with
  | dense data => simp only [functionalAccumulate, functionalDense, funcAt_add, doAccumulate, doAccumulateDense]
  | sparse elements => rfl

/-! ## A round -/

/-- A `DFunctionalAccumulator` on a cluster, with the threshold that its users give. -/
structure FunctionalAccumulator (T : Type) where
  numNodes : Nat
  pos : 0 < numNodes
  dsmSizeOf : Nat
  size_of : dsmSizeOf = 1 ∨ dsmSizeOf = 2
  len : Nat
  small : dsmSizeOf * len ≤ maxWords
  func : T → Nat → T → T
  threshold : T

/-- What a thread contributes to a round. -/
structure Contribution (T : Type) where
  thread : SyncThreadNode
  vec : List T

/-- A message at a node: the number of the contribution that it belongs to, and the
packet. -/
abbrev Arrival (T : Type) := Nat × Packet T

namespace FunctionalAccumulator

/-- The length of the vector in words. -/
def sz (acc : FunctionalAccumulator T) : Nat := acc.dsmSizeOf * acc.len % two32

def start (acc : FunctionalAccumulator T) (i : Nat) : Nat := segmentStart acc.sz acc.numNodes i

def stop (acc : FunctionalAccumulator T) (i : Nat) : Nat := segmentEnd acc.sz acc.numNodes i

def base (acc : FunctionalAccumulator T) (i : Nat) : Nat := nodeBase acc.sz acc.numNodes i

def size (acc : FunctionalAccumulator T) (i : Nat) : Nat := nodeSize acc.sz acc.numNodes i

/-- A node with a part of the vector. -/
def Owns (acc : FunctionalAccumulator T) (i : Nat) : Prop := i < acc.numNodes ∧ acc.start i < acc.stop i

/-- The vector is spread over several nodes. -/
def Spread (acc : FunctionalAccumulator T) : Prop := ∃ i j, i ≠ j ∧ acc.Owns i ∧ acc.Owns j

/-- Where a thread can be whose call sends all its messages. A thread on a node without
a segment leaves the send loop one segment early, so that it sends everything only
if two segments are finished in the same pass of the loop. -/
def Placed (acc : FunctionalAccumulator T) (i : Nat) : Prop :=
  i < acc.numNodes ∧ (acc.Owns i ∨ acc.Spread)

section Round

variable [Zero T] [Neg T] [LinearOrder T] (acc : FunctionalAccumulator T)

/-- What a contribution sends to a node: the own segment, a message for an empty
segment, or the messages of the send loop. -/
def messagesTo (mode : AccumulatorMode) (c : Contribution T) (i : Nat) : Option (List (Packet T)) :=
  if i = c.thread.machine then
    some [⟨c.thread.threadId, acc.start i,
      .dense (window acc.dsmSizeOf c.vec (acc.start i) (acc.stop i))⟩]
  else if acc.stop i ≤ acc.start i then some [⟨c.thread.threadId, 0, .dense []⟩]
  else (encodeSegment acc.dsmSizeOf (fun _ => mode) acc.threshold c.vec c.thread.threadId (acc.stop i)
    (acc.sz + 1) 0 (acc.start i)).map Prod.fst

/-- The messages of the contributions have all arrived at a node, those of each
contribution in their order. -/
def Delivered (mode : AccumulatorMode) (cs : List (Contribution T)) (i : Nat) (arrivals : List (Arrival T)) :
    Prop :=
  (∀ m ∈ arrivals, m.1 < cs.length) ∧ ∀ j c, cs[j]? = some c →
    acc.messagesTo mode c i = some ((arrivals.filter fun m => m.1 = j).map Prod.snd)

/-- The order in which the contributions to the element `k` arrive: a contribution comes
with its last message that starts at or before the element. -/
def arrivalOrder (k : Nat) : List (Arrival T) → List Nat
  | [] => []
  | m :: arrivals =>
      if m.2.offset ≤ acc.dsmSizeOf * k ∧ ∀ m' ∈ arrivals, m'.1 = m.1 → acc.dsmSizeOf * k < m'.2.offset then
        m.1 :: arrivalOrder k arrivals
      else arrivalOrder k arrivals

/-- A message at a node changes its buffer if it has data. -/
def receive (i : Nat) (buf : List T) (m : Arrival T) : Option (List T) :=
  if m.2.data.isEmpty then some buf
  else functionalAccumulate acc.func acc.dsmSizeOf m.2.data m.2.offset buf (acc.base i) (acc.size i)

/-- The buffer of a node after its messages. -/
def nodeBuffer (i : Nat) (arrivals : List (Arrival T)) : Option (List T) :=
  arrivals.foldlM (acc.receive i) (List.replicate (acc.size i / acc.dsmSizeOf) 0)

/-- `putchunk` of the buffer of a node. -/
def putBuffer (out : Nat → T) (i : Nat) (buf : List T) : Nat → T := fun k =>
  if acc.base i / acc.dsmSizeOf ≤ k ∧ k < acc.base i / acc.dsmSizeOf + acc.size i / acc.dsmSizeOf then
    buf.getD (k - acc.base i / acc.dsmSizeOf) 0
  else out k

/-- The output array after the nodes in `writes` have written their segments. -/
def output (arrivals : Nat → List (Arrival T)) (writes : List Nat) (out : Nat → T) : Option (Nat → T) :=
  writes.foldlM (fun out i => (acc.nodeBuffer i (arrivals i)).map (acc.putBuffer out i)) out

/-- The contributions of a round: vectors of the right length from threads that send
all their messages. -/
def IsRound (cs : List (Contribution T)) : Prop :=
  ∀ c ∈ cs, c.vec.length = acc.len ∧ acc.Placed c.thread.machine

/-- Two rounds whose messages are all delivered, at each element in the same order, give
the same output array, and no assertion fails. -/
def Agree (mode mode' : AccumulatorMode) (cs cs' : List (Contribution T)) : Prop :=
  ∀ arrivals arrivals' : Nat → List (Arrival T),
    (∀ i < acc.numNodes, acc.Delivered mode cs i (arrivals i)) →
    (∀ i < acc.numNodes, acc.Delivered mode' cs' i (arrivals' i)) →
    (∀ i < acc.numNodes, ∀ k, acc.start i ≤ acc.dsmSizeOf * k → acc.dsmSizeOf * k < acc.stop i →
      acc.arrivalOrder k (arrivals i) = acc.arrivalOrder k (arrivals' i)) →
    ∀ writes : List Nat, writes.Perm (List.range acc.numNodes) → ∀ out,
      ∃ out', acc.output arrivals writes out = some out' ∧ acc.output arrivals' writes out = some out'

/-- The output does not depend on the modes and on where the threads are. -/
def IndependentOfTransport : Prop :=
  ∀ (mode mode' : AccumulatorMode) (cs cs' : List (Contribution T)), acc.IsRound cs → acc.IsRound cs' →
    cs.map Contribution.vec = cs'.map Contribution.vec → acc.Agree mode mode' cs cs'

/-- A contribution with zeros for the values below the threshold. -/
def cut (c : Contribution T) : Contribution T := { c with vec := c.vec.map (sparseValue acc.threshold) }

/-- Values of an absolute value below the threshold are treated as zero. -/
def TreatsSmallAsZero : Prop :=
  ∀ (mode : AccumulatorMode) (cs : List (Contribution T)), acc.IsRound cs →
    acc.Agree mode mode cs (cs.map acc.cut)

/-- What the function has to do: on values that may occur in the output at an element, a
value below the threshold changes nothing; if one node has the whole vector, it does
the same as zero. -/
def Neutral : Prop :=
  ∀ v, sparseValue acc.threshold v = 0 → ∀ k < acc.len, ∀ ws : List T,
    (acc.Spread → acc.func v k (ws.foldl (fun x w => acc.func w k x) 0) =
      ws.foldl (fun x w => acc.func w k x) 0) ∧
    acc.func v k (ws.foldl (fun x w => acc.func w k x) 0) =
      acc.func 0 k (ws.foldl (fun x w => acc.func w k x) 0)

end Round

end FunctionalAccumulator

/-! ## Steps one after another -/

/-- A step for every element of a list, one after another. -/
def Merges {α : Type*} (step : α → T → T → Prop) : List α → T → T → Prop
  | [], x, y => x = y
  | a :: as, x, y => ∃ z, step a x z ∧ Merges step as z y

section Merges

variable {α β : Type*} {x y y' : T}

theorem Merges.mono {step step' : α → T → T → Prop} {as : List α} (h : Merges step as x y)
    (hstep : ∀ a ∈ as, ∀ x y, step a x y → step' a x y) : Merges step' as x y := by
  induction as generalizing x with
  | nil => exact h
  | cons a as ih =>
      obtain ⟨z, hz, hrest⟩ := h
      exact ⟨z, hstep a List.mem_cons_self x z hz,
        ih hrest fun b hb => hstep b (List.mem_cons_of_mem _ hb)⟩

theorem merges_append {step : α → T → T → Prop} {as bs : List α} :
    Merges step (as ++ bs) x y ↔ ∃ z, Merges step as x z ∧ Merges step bs z y := by
  induction as generalizing x with
  | nil => simp [Merges]
  | cons a as ih =>
      constructor
      · rintro ⟨z, hz, hrest⟩
        obtain ⟨z', has, hbs⟩ := ih.mp hrest
        exact ⟨z', ⟨z, hz, has⟩, hbs⟩
      · rintro ⟨z', ⟨z, hz, has⟩, hbs⟩
        exact ⟨z, hz, ih.mpr ⟨z', has, hbs⟩⟩

theorem merges_map {step : β → T → T → Prop} {f : α → β} {as : List α} :
    Merges step (as.map f) x y ↔ Merges (fun a => step (f a)) as x y := by
  induction as generalizing x with
  | nil => rfl
  | cons a as ih =>
      constructor
      · rintro ⟨z, hz, hrest⟩
        exact ⟨z, hz, ih.mp hrest⟩
      · rintro ⟨z, hz, hrest⟩
        exact ⟨z, hz, ih.mpr hrest⟩

/-- Steps that are functions make a fold. -/
theorem merges_fold {f : T → α → T} {as : List α} :
    Merges (fun a x y => y = f x a) as x y ↔ y = as.foldl f x := by
  induction as generalizing x with
  | nil => exact eq_comm
  | cons a as ih =>
      constructor
      · rintro ⟨z, rfl, hrest⟩
        exact ih.mp hrest
      · intro h
        exact ⟨_, rfl, ih.mpr h⟩

/-- Steps for the numbers of the elements of a list. -/
theorem Merges.of_range {step : Nat → T → T → Prop} {step' : α → T → T → Prop} {as : List α} {off : Nat}
    (h : Merges step (List.range' off as.length) x y)
    (hstep : ∀ j a, as[j]? = some a → ∀ x y, step (off + j) x y → step' a x y) : Merges step' as x y := by
  induction as generalizing x off with
  | nil => exact h
  | cons a as ih =>
      obtain ⟨z, hz, hrest⟩ := h
      refine ⟨z, hstep 0 a rfl x z hz, ih hrest fun j b hb x y hxy => ?_⟩
      apply hstep (j + 1) b hb x y
      rwa [Nat.add_assoc, Nat.add_comm 1] at hxy

/-- Two sequences of steps that agree on the values that occur lead to the same value. -/
theorem Merges.unique {step step' : α → T → T → Prop} {P : T → Prop} {as : List α}
    (hstep : ∀ a ∈ as, ∀ x, P x → ∀ y y', step a x y → step' a x y' → y = y' ∧ P y) (hx : P x)
    (h : Merges step as x y) (h' : Merges step' as x y') : y = y' := by
  induction as generalizing x with
  | nil => exact Eq.trans (Eq.symm h) h'
  | cons a as ih =>
      obtain ⟨z, hz, hrest⟩ := h
      obtain ⟨z', hz', hrest'⟩ := h'
      obtain ⟨rfl, hPz⟩ := hstep a List.mem_cons_self x hx z z' hz hz'
      exact ih (fun b hb => hstep b (List.mem_cons_of_mem _ hb)) hPz hrest hrest'

end Merges

/-! ## What a message does to an element -/

section Element

variable [AddCommGroup T] [LinearOrder T]

omit [LinearOrder T] in
theorem funcAt_spec (func : T → Nat → T → T) (out : List T) (j index : Nat) (vs : List T) :
    (funcAt func out j index vs).length = out.length ∧ ∀ m < out.length,
      (funcAt func out j index vs).getD m 0 =
        if j ≤ m ∧ m < j + vs.length then
          func (vs.getD (m - j) 0) ((index + (m - j)) % two32) (out.getD m 0)
        else out.getD m 0 := by
  induction vs generalizing out j index with
  | nil =>
      refine ⟨rfl, fun m _ => ?_⟩
      rw [if_neg (by simp only [List.length_nil]; omega)]
      rfl
  | cons v vs ih =>
      obtain ⟨hlen, hget⟩ := ih (out.modify j (func v (index % two32))) (j + 1) (index + 1)
      rw [List.length_modify] at hlen hget
      refine ⟨hlen, fun m hm => ?_⟩
      rw [funcAt, hget m hm, getD_modify hm, List.length_cons]
      rcases Nat.lt_trichotomy m j with hlt | rfl | hgt
      · rw [if_neg (by omega), if_neg (by omega), if_neg (by omega)]
      · rw [if_neg (by omega), if_pos rfl, if_pos (by omega), Nat.sub_self, List.getD_cons_zero, Nat.add_zero]
      · rw [if_neg (by omega : ¬m = j), show m - j = (m - (j + 1)) + 1 by omega, List.getD_cons_succ]
        have hindex : index + 1 + (m - (j + 1)) = index + (m - (j + 1) + 1) := by omega
        rw [hindex]
        by_cases hin : m < j + 1 + vs.length
        · rw [if_pos (by omega), if_pos (by omega)]
        · rw [if_neg (by omega), if_neg (by omega)]

/-- The first value of a sparse message: nothing is called for zero. -/
theorem functionalSparse_cons (func : T → Nat → T → T) (v : T) (vs : List T) {x outIndex outLen : Nat}
    (hlo : outIndex ≤ x) (hhi : x < outIndex + outLen) (hlt : outIndex + outLen < two32) (out : List T) :
    ∃ out₁, functionalSparse func (nonzeros x (v :: vs)) out outIndex outLen =
        functionalSparse func (nonzeros (x + 1) vs) out₁ outIndex outLen ∧
      out₁.length = out.length ∧ ∀ m < out.length, out₁.getD m 0 =
        if outIndex + m = x ∧ v ≠ 0 then func v x (out.getD m 0) else out.getD m 0 := by
  rw [nonzeros]
  by_cases hv : v = 0
  · refine ⟨out, by rw [if_pos hv], rfl, fun m _ => ?_⟩
    rw [if_neg fun h => h.2 hv]
  · refine ⟨out.modify (x - outIndex) (func v x), ?_, List.length_modify .., fun m hm => ?_⟩
    · rw [if_neg hv, functionalSparse, List.foldlM_cons, Nat.mod_eq_of_lt hlt, if_pos ⟨hlo, hhi⟩,
        functionalSparse, Nat.mod_eq_of_lt hlt]
      rfl
    · rw [getD_modify hm]
      by_cases hm : outIndex + m = x
      · rw [if_pos (by omega), if_pos ⟨hm, hv⟩]
      · rw [if_neg (by omega), if_neg fun h => hm h.1]

theorem functionalSparse_spec (func : T → Nat → T → T) (vs : List T) {x outIndex outLen : Nat}
    (hlo : outIndex ≤ x) (hhi : x + vs.length ≤ outIndex + outLen) (hlt : outIndex + outLen < two32)
    (out : List T) :
    ∃ out', functionalSparse func (nonzeros x vs) out outIndex outLen = some out' ∧
      out'.length = out.length ∧ ∀ m < out.length, out'.getD m 0 =
        if x ≤ outIndex + m ∧ outIndex + m < x + vs.length ∧ vs.getD (outIndex + m - x) 0 ≠ 0 then
          func (vs.getD (outIndex + m - x) 0) (outIndex + m) (out.getD m 0)
        else out.getD m 0 := by
  induction vs generalizing x out with
  | nil =>
      refine ⟨out, rfl, rfl, fun m _ => ?_⟩
      rw [if_neg]
      rintro ⟨-, -, hne⟩
      exact hne rfl
  | cons v vs ih =>
      rw [List.length_cons] at hhi
      obtain ⟨out₁, hrun₁, hlen₁, hget₁⟩ :=
        functionalSparse_cons func v vs hlo (by omega) hlt out
      obtain ⟨out', hrun, hlen, hget⟩ := ih (x := x + 1) (by omega) (by omega) out₁
      refine ⟨out', hrun₁.trans hrun, hlen.trans hlen₁, fun m hm => ?_⟩
      rw [hget m (by omega), hget₁ m hm, List.length_cons]
      rcases Nat.lt_trichotomy (outIndex + m) x with hlt | heq | hgt
      · rw [if_neg (by omega), if_neg (by omega), if_neg (by omega)]
      · rw [if_neg (by omega), heq, Nat.sub_self, List.getD_cons_zero]
        by_cases hv : v = 0
        · rw [if_neg fun h => h.2 hv, if_neg fun h => h.2.2 hv]
        · rw [if_pos ⟨rfl, hv⟩, if_pos ⟨Nat.le_refl x, by omega, hv⟩]
      · have hpast : ¬(outIndex + m = x ∧ v ≠ 0) := fun h => Nat.ne_of_gt hgt h.1
        rw [if_neg hpast, show outIndex + m - x = (outIndex + m - (x + 1)) + 1 by omega, List.getD_cons_succ]
        congr 1
        simp only [eq_iff_iff]
        constructor
        · rintro ⟨-, hin, hne⟩
          exact ⟨by omega, by omega, hne⟩
        · rintro ⟨-, hin, hne⟩
          exact ⟨by omega, by omega, hne⟩

/-- A message for the words from `a` to `c` of a vector. -/
structure Covers (d : Nat) (mode : AccumulatorMode) (threshold : T) (src : List T) (p : Packet T)
    (a c : Nat) : Prop where
  lt : a < c
  whole : d ∣ c
  bound : c ≤ d * src.length
  offset : p.offset = a
  data : mode ≠ .sparse ∧ p.data = .dense (window d src a c) ∨
    mode ≠ .dense ∧ p.data = .sparse (nonzeros (a / d) ((window d src a c).map (sparseValue threshold)))

/-- Messages for the words from `a` to `b`, one after another. -/
def Chain (d : Nat) (mode : AccumulatorMode) (threshold : T) (src : List T) :
    Nat → List (Packet T) → Nat → Prop
  | a, [], b => a = b
  | a, p :: ps, b => ∃ c, Covers d mode threshold src p a c ∧ Chain d mode threshold src c ps b

section Chain

variable {d : Nat} {mode : AccumulatorMode} {threshold : T} {src : List T} {a b : Nat}
  {ps : List (Packet T)}

theorem Chain.le (h : Chain d mode threshold src a ps b) : a ≤ b := by
  induction ps generalizing a with
  | nil => exact Nat.le_of_eq h
  | cons p ps ih =>
      obtain ⟨c, hp, hrest⟩ := h
      exact hp.lt.le.trans (ih hrest)

theorem Chain.le_offset (h : Chain d mode threshold src a ps b) {p : Packet T} (hp : p ∈ ps) :
    a ≤ p.offset := by
  induction ps generalizing a with
  | nil => cases hp
  | cons q ps ih =>
      obtain ⟨c, hq, hrest⟩ := h
      rcases List.mem_cons.mp hp with rfl | hp
      · exact hq.offset.ge
      · exact hq.lt.le.trans (ih hrest hp)

/-- A position lies before the rest of the messages if all of them start behind it. -/
theorem Chain.lt_iff (h : Chain d mode threshold src a ps b) {x : Nat} (hx : x < b) :
    x < a ↔ ∀ p ∈ ps, x < p.offset := by
  constructor
  · intro hlt p hp
    exact hlt.trans_le (h.le_offset hp)
  · intro hall
    cases ps with
    | nil =>
        obtain rfl : a = b := h
        exact hx
    | cons p ps =>
        obtain ⟨c, hp, -⟩ := h
        rw [← hp.offset]
        exact hall p List.mem_cons_self

/-- The messages of the send loop for a segment. -/
theorem encodeSegment_chain (hd : d = 1 ∨ d = 2) (mode : AccumulatorMode) (threshold : T) {size : Nat}
    (threadId : Nat) (hsize : d ∣ size) (hbound : size ≤ d * src.length) (fuel : Nat) :
    ∀ (sent : Nat) {idx : Nat}, d ∣ idx → idx ≤ size → size - idx < fuel →
      ∃ ps, encodeSegment d (fun _ => mode) threshold src threadId size fuel sent idx = some (ps, size) ∧
        Chain d mode threshold src idx ps size := by
  induction fuel with
  | zero =>
      intro sent idx _ _ hfuel
      exact absurd hfuel (Nat.not_lt_zero _)
  | succ fuel ih =>
      intro sent idx hidx hle hfuel
      rw [encodeSegment]
      by_cases hlt : idx < size
      · obtain ⟨c, hwords, hic, hc, hwhole, hdata⟩ :=
          prepare_spec hd mode threshold hidx hsize hlt hbound
        have hnext : idx + (acAccumulatePrepareBuffer d mode threshold src idx size).1 = c := by omega
        obtain ⟨ps, hrun, hchain⟩ := ih (sent + 1) hwhole hc (by omega)
        refine ⟨⟨if c = size then threadId else 0, idx,
          (acAccumulatePrepareBuffer d mode threshold src idx size).2⟩ :: ps, ?_, c, ?_, hchain⟩
        · simp [hlt, hnext, hrun]
        · exact ⟨hic, hwhole, hc.trans hbound, rfl, hdata⟩
      · obtain rfl : idx = size := by omega
        rw [if_neg hlt]
        exact ⟨[], rfl, rfl⟩

end Chain

end Element

namespace FunctionalAccumulator

section Node

variable [AddCommGroup T] [LinearOrder T] (acc : FunctionalAccumulator T)

/-- What a value of a contribution may do to the output at the element `k`. -/
def Effect (mode : AccumulatorMode) (v : T) (k : Nat) (x y : T) : Prop :=
  mode ≠ .sparse ∧ y = acc.func v k x ∨
    mode ≠ .dense ∧ y = if sparseValue acc.threshold v = 0 then x
      else acc.func (sparseValue acc.threshold v) k x

variable {acc}

omit [AddCommGroup T] [LinearOrder T] in
theorem dsmSizeOf_pos : 0 < acc.dsmSizeOf := by
  have := acc.size_of
  omega

omit [AddCommGroup T] [LinearOrder T] in
theorem sz_eq : acc.sz = acc.dsmSizeOf * acc.len := by
  apply Nat.mod_eq_of_lt
  exact acc.small.trans_lt (by decide)

omit [AddCommGroup T] [LinearOrder T] in
theorem sz_le : acc.sz ≤ maxWords := by
  rw [sz_eq]
  exact acc.small

omit [AddCommGroup T] [LinearOrder T] in
theorem dvd_blockSize : acc.dsmSizeOf ∣ blockSize := by
  rcases acc.size_of with h | h <;> rw [h] <;> decide

omit [AddCommGroup T] [LinearOrder T] in
theorem dvd_start (i : Nat) : acc.dsmSizeOf ∣ acc.start i := dvd_segmentStart dvd_blockSize ..

omit [AddCommGroup T] [LinearOrder T] in
theorem dvd_stop (i : Nat) : acc.dsmSizeOf ∣ acc.stop i :=
  dvd_segmentEnd dvd_blockSize (by rw [sz_eq]; exact Nat.dvd_mul_right _ _) _ _

omit [AddCommGroup T] [LinearOrder T] in
theorem stop_le (i : Nat) : acc.stop i ≤ acc.sz := segmentEnd_le ..

omit [AddCommGroup T] [LinearOrder T] in
theorem base_eq (i : Nat) : acc.base i = acc.start i := nodeBase_eq ..

omit [AddCommGroup T] [LinearOrder T] in
theorem Owns.stop_eq {i : Nat} (hi : acc.Owns i) : acc.stop i = acc.start i + acc.size i := by
  rw [← base_eq]
  exact segmentEnd_eq_of_lt sz_le acc.pos hi.2

omit [AddCommGroup T] [LinearOrder T] in
/-- The elements of a segment are those of the buffer. -/
theorem Owns.elements {i : Nat} (hi : acc.Owns i) {k : Nat} (hk : acc.start i ≤ acc.dsmSizeOf * k)
    (hk' : acc.dsmSizeOf * k < acc.stop i) :
    acc.start i / acc.dsmSizeOf ≤ k ∧ k < acc.start i / acc.dsmSizeOf + acc.size i / acc.dsmSizeOf := by
  have hd : 0 < acc.dsmSizeOf := dsmSizeOf_pos
  rw [hi.stop_eq] at hk'
  obtain ⟨b, hb⟩ := acc.dvd_start i
  rw [hb] at hk hk' ⊢
  rw [Nat.mul_div_cancel_left _ hd]
  have hbk := Nat.le_of_mul_le_mul_left hk hd
  obtain ⟨m, rfl⟩ := Nat.exists_eq_add_of_le hbk
  refine ⟨hbk, Nat.add_lt_add_left ?_ b⟩
  obtain ⟨e, he⟩ : acc.dsmSizeOf ∣ acc.size i := by
    have hstop := acc.dvd_stop i
    rw [hi.stop_eq] at hstop
    exact (Nat.dvd_add_right (acc.dvd_start i)).mp hstop
  rw [he, Nat.mul_div_cancel_left _ hd]
  rw [he, ← Nat.mul_add] at hk'
  have := Nat.lt_of_mul_lt_mul_left hk'
  omega

/-- The value of a buffer of node `i` at the element `k`. -/
def held (acc : FunctionalAccumulator T) (i : Nat) (buf : List T) (k : Nat) : T :=
  buf.getD (k - acc.start i / acc.dsmSizeOf) 0

omit [LinearOrder T] in
/-- Receiving a dense message. -/
theorem receive_dense {i : Nat} {vs : List T} {x : Nat} {p : Packet T} (j : Nat)
    (hdata : p.data = .dense vs) (hoff : p.offset = acc.dsmSizeOf * x) (hne : vs ≠ [])
    (hlo : acc.start i / acc.dsmSizeOf ≤ x)
    (hhi : x + vs.length ≤ acc.start i / acc.dsmSizeOf + acc.size i / acc.dsmSizeOf)
    (hmax : acc.start i / acc.dsmSizeOf + acc.size i / acc.dsmSizeOf ≤ maxWords) {buf : List T}
    (hbuf : buf.length = acc.size i / acc.dsmSizeOf) :
    ∃ buf', acc.receive i buf (j, p) = some buf' ∧ buf'.length = buf.length ∧
      ∀ k, acc.start i / acc.dsmSizeOf ≤ k →
        k < acc.start i / acc.dsmSizeOf + acc.size i / acc.dsmSizeOf →
        acc.held i buf' k = if x ≤ k ∧ k < x + vs.length then acc.func (vs.getD (k - x) 0) k (acc.held i buf k)
          else acc.held i buf k := by
  obtain ⟨b, hb⟩ : ∃ b, acc.start i / acc.dsmSizeOf = b := ⟨_, rfl⟩
  have hempty : p.data.isEmpty = false := by
    rw [hdata]
    exact List.isEmpty_eq_false_iff.mpr hne
  have hoffset : (x + two32 - b) % two32 = x - b := by
    simp only [two32, maxWords] at *
    omega
  obtain ⟨hlen, hget⟩ := funcAt_spec acc.func buf (x - b) x vs
  refine ⟨_, ?_, hlen, fun k hk hk' => ?_⟩
  · rw [receive, hempty, if_neg (by simp), hdata, functionalAccumulate]
    simp only [hoff, Nat.mul_div_cancel_left _ acc.dsmSizeOf_pos, base_eq, hb]
    rw [functionalDense, hoffset, if_pos]
    simp only [two32, maxWords] at *
    omega
  · rw [held, held, hget _ (by omega), hb]
    by_cases hin : x ≤ k ∧ k < x + vs.length
    · rw [if_pos (by omega), if_pos hin, show k - b - (x - b) = k - x by omega,
        show x + (k - x) = k by omega, Nat.mod_eq_of_lt (by simp only [two32, maxWords] at *; omega)]
    · rw [if_neg (by omega), if_neg hin]

/-- Receiving a sparse message. -/
theorem receive_sparse {i : Nat} {vs : List T} {x : Nat} {p : Packet T} (j : Nat)
    (hdata : p.data = .sparse (nonzeros x vs)) (hlo : acc.start i / acc.dsmSizeOf ≤ x)
    (hhi : x + vs.length ≤ acc.start i / acc.dsmSizeOf + acc.size i / acc.dsmSizeOf)
    (hmax : acc.start i / acc.dsmSizeOf + acc.size i / acc.dsmSizeOf ≤ maxWords) {buf : List T}
    (hbuf : buf.length = acc.size i / acc.dsmSizeOf) :
    ∃ buf', acc.receive i buf (j, p) = some buf' ∧ buf'.length = buf.length ∧
      ∀ k, acc.start i / acc.dsmSizeOf ≤ k →
        k < acc.start i / acc.dsmSizeOf + acc.size i / acc.dsmSizeOf →
        acc.held i buf' k = if x ≤ k ∧ k < x + vs.length ∧ vs.getD (k - x) 0 ≠ 0 then
          acc.func (vs.getD (k - x) 0) k (acc.held i buf k) else acc.held i buf k := by
  obtain ⟨buf', hrun, hlen, hget⟩ := functionalSparse_spec acc.func vs hlo hhi
    (hmax.trans_lt (by decide)) buf
  refine ⟨buf', ?_, hlen, fun k hk hk' => ?_⟩
  · rw [receive, hdata, functionalAccumulate, base_eq]
    split
    · rename_i hempty
      -- without elements the function is not called either way
      rw [List.isEmpty_iff.mp hempty] at hrun
      exact hrun
    · exact hrun
  · have hsum : acc.start i / acc.dsmSizeOf + (k - acc.start i / acc.dsmSizeOf) = k := by omega
    rw [held, held, hget _ (by omega), hsum]

/-- Receiving the message for some words changes the elements of these words. -/
theorem receive_covers {i : Nat} (hi : acc.Owns i) {mode : AccumulatorMode} {src : List T}
    {p : Packet T} {a c : Nat} (h : Covers acc.dsmSizeOf mode acc.threshold src p a c)
    (ha : acc.dsmSizeOf ∣ a) (hlo : acc.start i ≤ a) (hhi : c ≤ acc.stop i) {buf : List T}
    (hbuf : buf.length = acc.size i / acc.dsmSizeOf) (j : Nat) :
    ∃ buf', acc.receive i buf (j, p) = some buf' ∧ buf'.length = buf.length ∧
      ∀ k, acc.start i ≤ acc.dsmSizeOf * k → acc.dsmSizeOf * k < acc.stop i →
        (a ≤ acc.dsmSizeOf * k → acc.dsmSizeOf * k < c →
          acc.Effect mode (src.getD k 0) k (acc.held i buf k) (acc.held i buf' k)) ∧
        (¬(a ≤ acc.dsmSizeOf * k ∧ acc.dsmSizeOf * k < c) → acc.held i buf' k = acc.held i buf k) := by
  have hd : 0 < acc.dsmSizeOf := dsmSizeOf_pos
  have hstop := hi.stop_eq
  have hle := (stop_le i).trans acc.sz_le
  obtain ⟨x, rfl⟩ := ha
  obtain ⟨y, rfl⟩ := h.whole
  obtain ⟨b, hb⟩ := acc.dvd_start i
  obtain ⟨e, he⟩ := acc.dvd_stop i
  have hsize : acc.size i = acc.dsmSizeOf * (e - b) := by
    rw [Nat.mul_sub]
    omega
  have hbdiv : acc.start i / acc.dsmSizeOf = b := by rw [hb, Nat.mul_div_cancel_left _ hd]
  have hsdiv : acc.size i / acc.dsmSizeOf = e - b := by rw [hsize, Nat.mul_div_cancel_left _ hd]
  have hbe : b < e := by
    apply Nat.lt_of_mul_lt_mul_left (a := acc.dsmSizeOf)
    rw [← hb, ← he]
    exact hi.2
  have hbx : b ≤ x := Nat.le_of_mul_le_mul_left (hb ▸ hlo) hd
  have hye : y ≤ e := Nat.le_of_mul_le_mul_left (he ▸ hhi) hd
  have hxy : x < y := Nat.lt_of_mul_lt_mul_left h.lt
  have hmax : acc.start i / acc.dsmSizeOf + acc.size i / acc.dsmSizeOf ≤ maxWords := by
    have : e ≤ acc.dsmSizeOf * e := Nat.le_mul_of_pos_left e hd
    omega
  have hlen : (window acc.dsmSizeOf src (acc.dsmSizeOf * x) (acc.dsmSizeOf * y)).length = y - x := by
    rw [length_window h.bound, Nat.mul_div_cancel_left _ hd, Nat.mul_div_cancel_left _ hd]
  have hvalue : ∀ k, x ≤ k → k < y →
      (window acc.dsmSizeOf src (acc.dsmSizeOf * x) (acc.dsmSizeOf * y)).getD (k - x) 0 = src.getD k 0 := by
    intro k hxk hky
    rw [getD_window, Nat.mul_div_cancel_left _ hd, Nat.mul_div_cancel_left _ hd, if_pos (by omega),
      show x + (k - x) = k by omega]
  have hmul : ∀ k, acc.dsmSizeOf * x ≤ acc.dsmSizeOf * k ↔ x ≤ k := fun k => Nat.mul_le_mul_left_iff hd
  have hmul' : ∀ k, acc.dsmSizeOf * k < acc.dsmSizeOf * y ↔ k < y := fun k => Nat.mul_lt_mul_left hd
  rcases h.data with ⟨hmode, hdata⟩ | ⟨hmode, hdata⟩
  · have hne : window acc.dsmSizeOf src (acc.dsmSizeOf * x) (acc.dsmSizeOf * y) ≠ [] := by
      intro hnil
      rw [hnil, List.length_nil] at hlen
      omega
    obtain ⟨buf', hrun, hlen', hget⟩ := receive_dense j hdata h.offset hne (by omega) (by omega) hmax hbuf
    refine ⟨buf', hrun, hlen', fun k hk hk' => ?_⟩
    obtain ⟨hbk, hke⟩ := hi.elements hk hk'
    rw [hget k hbk hke, hlen, Nat.add_sub_cancel' hxy.le, hmul k, hmul' k]
    constructor
    · intro hxk hky
      rw [if_pos ⟨hxk, hky⟩, hvalue k hxk hky]
      exact Or.inl ⟨hmode, rfl⟩
    · exact fun hout => if_neg hout
  · rw [Nat.mul_div_cancel_left _ hd] at hdata
    obtain ⟨buf', hrun, hlen', hget⟩ := receive_sparse j hdata (by omega) (by rw [List.length_map]; omega)
      hmax hbuf
    refine ⟨buf', hrun, hlen', fun k hk hk' => ?_⟩
    obtain ⟨hbk, hke⟩ := hi.elements hk hk'
    rw [hget k hbk hke, List.length_map, hlen, Nat.add_sub_cancel' hxy.le, hmul k, hmul' k]
    constructor
    · intro hxk hky
      have hsparse : ((window acc.dsmSizeOf src (acc.dsmSizeOf * x) (acc.dsmSizeOf * y)).map
          (sparseValue acc.threshold)).getD (k - x) 0 = sparseValue acc.threshold (src.getD k 0) := by
        rw [← hvalue k hxk hky, List.getD_eq_getElem?_getD, List.getElem?_map,
          List.getD_eq_getElem?_getD, List.getElem?_eq_getElem (by omega)]
        rfl
      rw [hsparse]
      refine Or.inr ⟨hmode, ?_⟩
      by_cases hzero : sparseValue acc.threshold (src.getD k 0) = 0
      · rw [if_pos hzero, if_neg fun hc => hc.2.2 hzero]
      · rw [if_neg hzero, if_pos ⟨hxk, hky, hzero⟩]
    · exact fun hout => if_neg fun hc => hout ⟨hc.1, hc.2.1⟩

/-- The mode in which a node gets its segment of a contribution. -/
def modeAt (mode : AccumulatorMode) (c : Contribution T) (i : Nat) : AccumulatorMode :=
  if i = c.thread.machine then .dense else mode

/-- The messages of a contribution to a node with a segment. -/
theorem messagesTo_chain (mode : AccumulatorMode) {c : Contribution T} (hc : c.vec.length = acc.len)
    {i : Nat} (hi : acc.Owns i) :
    ∃ ps, acc.messagesTo mode c i = some ps ∧
      Chain acc.dsmSizeOf (modeAt mode c i) acc.threshold c.vec (acc.start i) ps (acc.stop i) := by
  have hbound : acc.stop i ≤ acc.dsmSizeOf * c.vec.length := by
    rw [hc, ← sz_eq]
    exact stop_le i
  rw [messagesTo, modeAt]
  split
  · refine ⟨_, rfl, acc.stop i, ⟨hi.2, dvd_stop i, hbound, rfl, Or.inl ⟨by decide, rfl⟩⟩, rfl⟩
  · obtain ⟨ps, hrun, hchain⟩ := encodeSegment_chain acc.size_of mode acc.threshold c.thread.threadId
      (dvd_stop i) hbound (acc.sz + 1) 0 (dvd_start i) hi.2.le (by have := acc.stop_le i; omega)
    rw [if_neg (Nat.not_le_of_lt hi.2), hrun]
    exact ⟨ps, rfl, hchain⟩

/-- After its messages every element of a node's segment has the effects of the
contributions, in the order in which they arrive. `pos` is the position up to which
the messages of a contribution have been received. -/
theorem foldlM_receive {i : Nat} (hi : acc.Owns i) (modes : Nat → AccumulatorMode) (vecs : Nat → List T)
    (arrivals : List (Arrival T)) : ∀ (pos : Nat → Nat) {buf : List T},
      buf.length = acc.size i / acc.dsmSizeOf →
      (∀ m ∈ arrivals, acc.start i ≤ pos m.1 ∧ acc.dsmSizeOf ∣ pos m.1 ∧
        Chain acc.dsmSizeOf (modes m.1) acc.threshold (vecs m.1) (pos m.1)
          ((arrivals.filter fun m' => m'.1 = m.1).map Prod.snd) (acc.stop i)) →
      ∃ buf', arrivals.foldlM (acc.receive i) buf = some buf' ∧ buf'.length = buf.length ∧
        ∀ k, acc.start i ≤ acc.dsmSizeOf * k → acc.dsmSizeOf * k < acc.stop i →
          Merges (fun j => acc.Effect (modes j) ((vecs j).getD k 0) k) (acc.arrivalOrder k arrivals)
            (acc.held i buf k) (acc.held i buf' k) := by
  induction arrivals with
  | nil =>
      intro pos buf _ _
      exact ⟨buf, rfl, rfl, fun k _ _ => rfl⟩
  | cons m arrivals ih =>
      obtain ⟨j, p⟩ := m
      intro pos buf hbuf hall
      obtain ⟨hlo, hwhole, hchain⟩ := hall (j, p) List.mem_cons_self
      simp only [List.filter_cons, decide_true, if_pos, List.map_cons] at hchain
      obtain ⟨c, hcovers, hrest⟩ := hchain
      obtain ⟨buf₁, hrun₁, hlen₁, heffect⟩ := receive_covers hi hcovers hwhole hlo hrest.le hbuf j
      have hnext : ∀ m ∈ arrivals, acc.start i ≤ Function.update pos j c m.1 ∧
          acc.dsmSizeOf ∣ Function.update pos j c m.1 ∧
          Chain acc.dsmSizeOf (modes m.1) acc.threshold (vecs m.1) (Function.update pos j c m.1)
            ((arrivals.filter fun m' => m'.1 = m.1).map Prod.snd) (acc.stop i) := by
        intro m hm
        by_cases hj : m.1 = j
        · rw [hj, Function.update_self]
          exact ⟨hlo.trans hcovers.lt.le, hcovers.whole, hrest⟩
        · obtain ⟨hlo', hwhole', hchain'⟩ := hall m (List.mem_cons_of_mem _ hm)
          rw [Function.update_of_ne hj]
          rw [List.filter_cons_of_neg (by simpa using Ne.symm hj)] at hchain'
          exact ⟨hlo', hwhole', hchain'⟩
      obtain ⟨buf', hrun, hlen, hmerges⟩ := ih _ (hlen₁.trans hbuf) hnext
      refine ⟨buf', ?_, hlen.trans hlen₁, fun k hk hk' => ?_⟩
      · rw [List.foldlM_cons, hrun₁]
        exact hrun
      -- the message has the element if no later one of the contribution starts before it
      have hlast : acc.dsmSizeOf * k < c ↔
          ∀ m' ∈ arrivals, m'.1 = j → acc.dsmSizeOf * k < m'.2.offset := by
        rw [hrest.lt_iff hk']
        constructor
        · intro h m' hm' hj
          exact h _ (List.mem_map_of_mem (List.mem_filter.mpr ⟨hm', by simpa using hj⟩))
        · intro h q hq
          obtain ⟨m', hm', rfl⟩ := List.mem_map.mp hq
          obtain ⟨hm', hj⟩ := List.mem_filter.mp hm'
          exact h m' hm' (by simpa using hj)
      obtain ⟨hin, hout⟩ := heffect k hk hk'
      have hmerge := hmerges k hk hk'
      rw [arrivalOrder]
      simp only [hcovers.offset, ← hlast]
      by_cases hcov : pos j ≤ acc.dsmSizeOf * k ∧ acc.dsmSizeOf * k < c
      · rw [if_pos hcov]
        exact ⟨_, hin hcov.1 hcov.2, hmerge⟩
      · rw [if_neg hcov]
        rw [hout hcov] at hmerge
        exact hmerge

omit [AddCommGroup T] [LinearOrder T] in
theorem mem_arrivalOrder {k j : Nat} {arrivals : List (Arrival T)} (h : j ∈ acc.arrivalOrder k arrivals) :
    ∃ m ∈ arrivals, m.1 = j := by
  induction arrivals with
  | nil => cases h
  | cons m arrivals ih =>
      have htail : j ∈ acc.arrivalOrder k arrivals → ∃ m' ∈ m :: arrivals, m'.1 = j := by
        intro h
        obtain ⟨m', hm', hj⟩ := ih h
        exact ⟨m', List.mem_cons_of_mem _ hm', hj⟩
      rw [arrivalOrder] at h
      split at h
      · rcases List.mem_cons.mp h with rfl | h
        · exact ⟨m, List.mem_cons_self, rfl⟩
        · exact htail h
      · exact htail h

/-- The step of the contribution with the number `j` at an element. -/
def Step (acc : FunctionalAccumulator T) (mode : AccumulatorMode) (cs : List (Contribution T)) (i k j : Nat)
    (x y : T) : Prop :=
  ∃ c, cs[j]? = some c ∧ acc.Effect (modeAt mode c i) (c.vec.getD k 0) k x y

/-- The buffer of a node with a segment, after the messages of a round. -/
theorem nodeBuffer_merges {mode : AccumulatorMode} {cs : List (Contribution T)} (hcs : acc.IsRound cs)
    {i : Nat} (hi : acc.Owns i) {arrivals : List (Arrival T)} (h : acc.Delivered mode cs i arrivals) :
    ∃ buf, acc.nodeBuffer i arrivals = some buf ∧ buf.length = acc.size i / acc.dsmSizeOf ∧
      ∀ k, acc.start i ≤ acc.dsmSizeOf * k → acc.dsmSizeOf * k < acc.stop i →
        Merges (acc.Step mode cs i k) (acc.arrivalOrder k arrivals) 0 (acc.held i buf k) := by
  obtain ⟨hmem, hsent⟩ := h
  obtain ⟨modes, hmodes⟩ : ∃ modes : Nat → AccumulatorMode, ∀ j c, cs[j]? = some c → modes j = modeAt mode c i :=
    ⟨fun j => ((cs[j]?).map fun c => modeAt mode c i).getD mode, fun j c hj => by simp [hj]⟩
  obtain ⟨vecs, hvecs⟩ : ∃ vecs : Nat → List T, ∀ j c, cs[j]? = some c → vecs j = c.vec :=
    ⟨fun j => ((cs[j]?).map Contribution.vec).getD [], fun j c hj => by simp [hj]⟩
  have hall : ∀ m ∈ arrivals, acc.start i ≤ acc.start i ∧ acc.dsmSizeOf ∣ acc.start i ∧
      Chain acc.dsmSizeOf (modes m.1) acc.threshold (vecs m.1) (acc.start i)
        ((arrivals.filter fun m' => m'.1 = m.1).map Prod.snd) (acc.stop i) := by
    intro m hm
    have hget := List.getElem?_eq_getElem (hmem m hm)
    obtain ⟨ps, hps, hchain⟩ := messagesTo_chain mode (hcs _ (List.getElem_mem (hmem m hm))).1 hi
    rw [hsent m.1 _ hget] at hps
    obtain rfl := Option.some.inj hps
    rw [hmodes _ _ hget, hvecs _ _ hget]
    exact ⟨Nat.le_refl _, dvd_start i, hchain⟩
  obtain ⟨buf, hrun, hlen, hmerges⟩ := foldlM_receive hi modes vecs arrivals
    (fun _ => acc.start i) (List.length_replicate (a := (0 : T))) hall
  refine ⟨buf, hrun, hlen.trans List.length_replicate, fun k hk hk' => ?_⟩
  have hzero : acc.held i (List.replicate (acc.size i / acc.dsmSizeOf) 0) k = 0 := by
    rw [held, List.getD_eq_getElem?_getD, List.getElem?_replicate]
    split <;> rfl
  rw [← hzero]
  apply (hmerges k hk hk').mono
  intro j hj x y hxy
  obtain ⟨m, hm, rfl⟩ := mem_arrivalOrder hj
  have hget := List.getElem?_eq_getElem (hmem m hm)
  rw [hmodes _ _ hget, hvecs _ _ hget] at hxy
  exact ⟨_, hget, hxy⟩

/-- A node without a segment keeps its buffer. -/
theorem nodeBuffer_of_not_owns {mode : AccumulatorMode} {cs : List (Contribution T)} {i : Nat}
    (hi : acc.stop i ≤ acc.start i) {arrivals : List (Arrival T)} (h : acc.Delivered mode cs i arrivals) :
    acc.nodeBuffer i arrivals = some (List.replicate (acc.size i / acc.dsmSizeOf) 0) := by
  have hempty : ∀ m ∈ arrivals, m.2.data.isEmpty = true := by
    intro m hm
    have hsent := h.2 m.1 _ (List.getElem?_eq_getElem (h.1 m hm))
    have hmem : m.2 ∈ (arrivals.filter fun m' => m'.1 = m.1).map Prod.snd :=
      List.mem_map_of_mem (List.mem_filter.mpr ⟨hm, by simp⟩)
    rw [messagesTo, if_pos hi, window_of_le hi] at hsent
    split at hsent <;> rw [← Option.some.inj hsent, List.mem_singleton] at hmem <;> rw [hmem] <;> rfl
  rw [nodeBuffer]
  clear h
  induction arrivals with
  | nil => rfl
  | cons m arrivals ih =>
      rw [List.foldlM_cons, receive, if_pos (hempty m List.mem_cons_self)]
      exact ih fun m' hm' => hempty m' (List.mem_cons_of_mem _ hm')

end Node

end FunctionalAccumulator

end Dogee.Accumulator
