import Dogee.AccumulatorModes

/-!
# The threshold

An accumulator is independent of the modes and of the placement, and treats the
values below the threshold as zero, exactly if its function does nothing for them.
Contributions that arrive one after another show that the function must do so; that
it is enough holds for every order of arrival.
-/

namespace Dogee.Accumulator

variable {T : Type}

namespace FunctionalAccumulator

section Node

variable [AddCommGroup T] [LinearOrder T] {acc : FunctionalAccumulator T}

/-! ## The function leaves the values below the threshold out -/

theorem sparseValue_eq (threshold v : T) : sparseValue threshold v = 0 ∨ sparseValue threshold v = v := by
  rw [sparseValue]
  split
  · exact Or.inl rfl
  · split
    · exact Or.inl rfl
    · exact Or.inr rfl

theorem sparseValue_idem (threshold v : T) :
    sparseValue threshold (sparseValue threshold v) = sparseValue threshold v := by
  rcases sparseValue_eq threshold v with h | h
  · rw [h]
    exact (sparseValue_eq threshold 0).elim id id
  · rw [h, h]

/-- A value that occurs in the output at the element `k`. -/
def Occurs (acc : FunctionalAccumulator T) (k : Nat) (x : T) : Prop :=
  ∃ ws : List T, x = ws.foldl (fun x w => acc.func w k x) 0

omit [LinearOrder T] in
theorem Occurs.func {k : Nat} {x : T} (h : acc.Occurs k x) (v : T) : acc.Occurs k (acc.func v k x) := by
  obtain ⟨ws, rfl⟩ := h
  exact ⟨ws ++ [v], by rw [List.foldl_append]; rfl⟩

theorem Effect.occurs {mode : AccumulatorMode} {v : T} {k : Nat} {x y : T} (hx : acc.Occurs k x)
    (h : acc.Effect mode v k x y) : acc.Occurs k y := by
  rcases h with ⟨-, rfl⟩ | ⟨-, rfl⟩
  · exact hx.func v
  · split
    · exact hx
    · exact hx.func _

/-- What a value does if the vector is spread over several nodes. -/
theorem Effect.eq_of_spread (hneutral : acc.Neutral) (hspread : acc.Spread) {mode : AccumulatorMode} {v : T}
    {k : Nat} (hk : k < acc.len) {x y : T} (hx : acc.Occurs k x) (h : acc.Effect mode v k x y) :
    y = if sparseValue acc.threshold v = 0 then x else acc.func (sparseValue acc.threshold v) k x := by
  rcases h with ⟨-, rfl⟩ | ⟨-, rfl⟩
  · split
    · rename_i hv
      obtain ⟨ws, rfl⟩ := hx
      exact (hneutral v hv k hk ws).1 hspread
    · rename_i hv
      rw [(sparseValue_eq acc.threshold v).resolve_left hv]
  · rfl

/-- What a value does if one node has the whole vector. -/
theorem Effect.eq_of_dense (hneutral : acc.Neutral) {v : T} {k : Nat} (hk : k < acc.len) {x y : T}
    (hx : acc.Occurs k x) (h : acc.Effect .dense v k x y) :
    y = acc.func (sparseValue acc.threshold v) k x := by
  obtain ⟨-, rfl⟩ := h.resolve_right fun h => h.1 rfl
  rcases sparseValue_eq acc.threshold v with hv | hv
  · obtain ⟨ws, rfl⟩ := hx
    rw [hv]
    exact (hneutral v hv k hk ws).2
  · rw [hv]

/-- Contributions whose vectors differ below the threshold only. -/
def SameAbove (acc : FunctionalAccumulator T) (cs cs' : List (Contribution T)) : Prop :=
  ∀ (j : Nat) (c c' : Contribution T), cs[j]? = some c → cs'[j]? = some c' → ∀ k : Nat,
    sparseValue acc.threshold (c.vec.getD k 0) = sparseValue acc.threshold (c'.vec.getD k 0)

theorem Step.unique (hneutral : acc.Neutral) {mode mode' : AccumulatorMode} {cs cs' : List (Contribution T)}
    (hcs : acc.IsRound cs) (hcs' : acc.IsRound cs') (hsame : acc.SameAbove cs cs') {i : Nat}
    (hi : acc.Owns i) {k j : Nat} (hk : k < acc.len) {x y y' : T} (hx : acc.Occurs k x)
    (h : acc.Step mode cs i k j x y) (h' : acc.Step mode' cs' i k j x y') : y = y' ∧ acc.Occurs k y := by
  obtain ⟨c, hc, heffect⟩ := h
  obtain ⟨c', hc', heffect'⟩ := h'
  refine ⟨?_, heffect.occurs hx⟩
  have hvalue := hsame j c c' hc hc' k
  by_cases hspread : acc.Spread
  · rw [heffect.eq_of_spread hneutral hspread hk hx, heffect'.eq_of_spread hneutral hspread hk hx, hvalue]
  · -- all contributions come from the node itself
    have hown : ∀ c : Contribution T, acc.Placed c.thread.machine → i = c.thread.machine := by
      intro c hplaced
      by_contra hne
      exact hspread ⟨i, _, hne, hi, hplaced.2.resolve_right hspread⟩
    rw [modeAt, if_pos (hown c (hcs c (List.mem_of_getElem? hc)).2)] at heffect
    rw [modeAt, if_pos (hown c' (hcs' c' (List.mem_of_getElem? hc')).2)] at heffect'
    rw [heffect.eq_of_dense hneutral hk hx, heffect'.eq_of_dense hneutral hk hx, hvalue]

omit [AddCommGroup T] [LinearOrder T] in
/-- The words of an element of a segment lie in the vector. -/
theorem lt_len {i k : Nat} (hk : acc.dsmSizeOf * k < acc.stop i) : k < acc.len := by
  have hlt := hk.trans_le (acc.stop_le i)
  rw [sz_eq] at hlt
  exact Nat.lt_of_mul_lt_mul_left hlt

/-- Two rounds leave the same buffer at a node. -/
theorem nodeBuffer_agree (hneutral : acc.Neutral) {mode mode' : AccumulatorMode}
    {cs cs' : List (Contribution T)} (hcs : acc.IsRound cs) (hcs' : acc.IsRound cs')
    (hsame : acc.SameAbove cs cs') {i : Nat} (hn : i < acc.numNodes) {arrivals arrivals' : List (Arrival T)}
    (h : acc.Delivered mode cs i arrivals) (h' : acc.Delivered mode' cs' i arrivals')
    (horder : ∀ k, acc.start i ≤ acc.dsmSizeOf * k → acc.dsmSizeOf * k < acc.stop i →
      acc.arrivalOrder k arrivals = acc.arrivalOrder k arrivals') :
    ∃ buf, acc.nodeBuffer i arrivals = some buf ∧ acc.nodeBuffer i arrivals' = some buf := by
  by_cases hlt : acc.start i < acc.stop i
  · have hi : acc.Owns i := ⟨hn, hlt⟩
    obtain ⟨buf, hbuf, hlen, hmerges⟩ := nodeBuffer_merges hcs hi h
    obtain ⟨buf', hbuf', hlen', hmerges'⟩ := nodeBuffer_merges hcs' hi h'
    have hheld : ∀ k, acc.start i ≤ acc.dsmSizeOf * k → acc.dsmSizeOf * k < acc.stop i →
        acc.held i buf k = acc.held i buf' k := by
      intro k hk hk'
      have hmerge' := hmerges' k hk hk'
      rw [← horder k hk hk'] at hmerge'
      have hzero : acc.Occurs k 0 := ⟨[], rfl⟩
      refine Merges.unique ?_ hzero (hmerges k hk hk') hmerge'
      intro j _ x hx y y' hy hy'
      exact Step.unique hneutral hcs hcs' hsame hi (lt_len hk') hx hy hy'
    refine ⟨buf, hbuf, hbuf'.trans (congrArg some ?_)⟩
    apply List.ext_getElem (hlen'.trans hlen.symm)
    intro m hm' hm
    -- the element with the number `m` in the buffer
    obtain ⟨b, hb⟩ := acc.dvd_start i
    have hd : 0 < acc.dsmSizeOf := dsmSizeOf_pos
    have hm'' : acc.dsmSizeOf * m < acc.size i := by
      have hle := Nat.mul_le_mul_left acc.dsmSizeOf (Nat.succ_le_of_lt (hm.trans_eq hlen))
      have hdiv := Nat.mul_div_le (acc.size i) acc.dsmSizeOf
      rw [Nat.mul_succ] at hle
      omega
    have hfirst : acc.start i / acc.dsmSizeOf = b := by rw [hb, Nat.mul_div_cancel_left _ hd]
    have hstop := hi.stop_eq
    have hmul : acc.dsmSizeOf * (b + m) = acc.start i + acc.dsmSizeOf * m := by rw [Nat.mul_add, ← hb]
    have hat := hheld (b + m) (by omega) (by omega)
    rw [held, held, hfirst, Nat.add_sub_cancel_left, List.getD_eq_getElem?_getD, List.getD_eq_getElem?_getD,
      List.getElem?_eq_getElem hm, List.getElem?_eq_getElem hm'] at hat
    exact hat.symm
  · have hle := Nat.le_of_not_lt hlt
    exact ⟨_, nodeBuffer_of_not_owns hle h, nodeBuffer_of_not_owns hle h'⟩

omit [LinearOrder T] in
theorem output_congr {arrivals arrivals' : Nat → List (Arrival T)} {writes : List Nat}
    (h : ∀ i ∈ writes, ∃ buf, acc.nodeBuffer i (arrivals i) = some buf ∧
      acc.nodeBuffer i (arrivals' i) = some buf) (out : Nat → T) :
    ∃ out', acc.output arrivals writes out = some out' ∧ acc.output arrivals' writes out = some out' := by
  induction writes generalizing out with
  | nil => exact ⟨out, rfl, rfl⟩
  | cons i writes ih =>
      obtain ⟨buf, hbuf, hbuf'⟩ := h i List.mem_cons_self
      obtain ⟨out', hout, hout'⟩ := ih (fun i hi => h i (List.mem_cons_of_mem _ hi)) (acc.putBuffer out i buf)
      refine ⟨out', ?_, ?_⟩
      · rw [output, List.foldlM_cons, hbuf]
        exact hout
      · rw [output, List.foldlM_cons, hbuf']
        exact hout'

theorem agree_of_neutral (hneutral : acc.Neutral) (mode mode' : AccumulatorMode)
    {cs cs' : List (Contribution T)} (hcs : acc.IsRound cs) (hcs' : acc.IsRound cs')
    (hsame : acc.SameAbove cs cs') : acc.Agree mode mode' cs cs' := by
  intro arrivals arrivals' h h' horder writes hwrites out
  apply output_congr
  intro i hi
  have hn : i < acc.numNodes := List.mem_range.mp (hwrites.mem_iff.mp hi)
  exact nodeBuffer_agree hneutral hcs hcs' hsame hn (h i hn) (h' i hn) (horder i hn)

/-! ## Contributions that arrive one after another -/

/-- Messages of contributions that arrive in turn, numbered from `off` on. -/
def tagged (off : Nat) : List (List (Packet T)) → List (Arrival T)
  | [] => []
  | ps :: pss => ps.map (fun p => (off, p)) ++ tagged (off + 1) pss

omit [AddCommGroup T] [LinearOrder T] in
theorem tagged_bounds {off : Nat} {pss : List (List (Packet T))} {m : Arrival T} (h : m ∈ tagged off pss) :
    off ≤ m.1 ∧ m.1 < off + pss.length := by
  induction pss generalizing off with
  | nil => cases h
  | cons ps pss ih =>
      rw [List.length_cons]
      rcases List.mem_append.mp h with h | h
      · obtain ⟨p, -, rfl⟩ := List.mem_map.mp h
        exact ⟨Nat.le_refl _, by simp⟩
      · have := ih h
        omega

omit [AddCommGroup T] [LinearOrder T] in
theorem filter_tagged (off : Nat) {pss : List (List (Packet T))} {j : Nat} {ps : List (Packet T)}
    (h : pss[j]? = some ps) : ((tagged off pss).filter fun m => m.1 = off + j).map Prod.snd = ps := by
  induction pss generalizing off j with
  | nil => cases h
  | cons qs pss ih =>
      rw [tagged, List.filter_append, List.map_append]
      cases j with
      | zero =>
          obtain rfl : qs = ps := Option.some.inj h
          have hrest : (tagged (off + 1) pss).filter (fun m => decide (m.1 = off + 0)) = [] := by
            apply List.filter_eq_nil_iff.mpr
            intro m hm
            have := tagged_bounds hm
            simp only [decide_eq_true_eq]
            omega
          rw [hrest, List.filter_map, List.filter_eq_self.mpr (by simp), List.map_map, List.map_nil,
            List.append_nil]
          exact List.map_id _
      | succ j =>
          have hfirst : (qs.map fun p => (off, p)).filter (fun m => decide (m.1 = off + (j + 1))) = [] := by
            apply List.filter_eq_nil_iff.mpr
            intro m hm
            obtain ⟨p, -, rfl⟩ := List.mem_map.mp hm
            simp
          rw [hfirst, List.map_nil, List.nil_append, ← Nat.add_assoc, Nat.add_right_comm]
          exact ih (off + 1) h

omit [AddCommGroup T] [LinearOrder T] in
/-- Messages behind an element do not count for it. -/
theorem arrivalOrder_behind {k j : Nat} {ps : List (Packet T)} {rest : List (Arrival T)}
    (h : ∀ p ∈ ps, acc.dsmSizeOf * k < p.offset) :
    acc.arrivalOrder k (ps.map (fun p => (j, p)) ++ rest) = acc.arrivalOrder k rest := by
  induction ps with
  | nil => rfl
  | cons p ps ih =>
      rw [List.map_cons, List.cons_append, arrivalOrder, if_neg]
      · exact ih fun q hq => h q (List.mem_cons_of_mem _ hq)
      · exact fun hc => Nat.not_le_of_lt (h p List.mem_cons_self) hc.1

/-- The messages of a contribution, all together. -/
theorem arrivalOrder_chain {k j : Nat} {mode : AccumulatorMode} {src : List T} {ps : List (Packet T)} {b : Nat}
    {rest : List (Arrival T)} (hrest : ∀ m ∈ rest, m.1 ≠ j) (hk' : acc.dsmSizeOf * k < b) :
    ∀ {a : Nat}, Chain acc.dsmSizeOf mode acc.threshold src a ps b → a ≤ acc.dsmSizeOf * k →
      acc.arrivalOrder k (ps.map (fun p => (j, p)) ++ rest) = j :: acc.arrivalOrder k rest := by
  induction ps with
  | nil =>
      intro a h hk
      obtain rfl : a = b := h
      omega
  | cons p ps ih =>
      intro a h hk
      obtain ⟨c, hp, hchain⟩ := h
      rw [List.map_cons, List.cons_append, arrivalOrder]
      by_cases hlt : acc.dsmSizeOf * k < c
      · have hbehind := (hchain.lt_iff hk').mp hlt
        rw [if_pos, arrivalOrder_behind hbehind]
        refine ⟨hp.offset.trans_le hk, fun m hm hj => ?_⟩
        rcases List.mem_append.mp hm with hm | hm
        · obtain ⟨q, hq, rfl⟩ := List.mem_map.mp hm
          exact hbehind q hq
        · exact absurd hj (hrest m hm)
      · rw [if_neg, ih hchain (Nat.le_of_not_lt hlt)]
        rintro ⟨-, hall⟩
        apply hlt
        rw [hchain.lt_iff hk']
        intro q hq
        exact hall (j, q) (List.mem_append_left _ (List.mem_map_of_mem hq)) rfl

/-- Contributions that arrive in turn reach every element in turn. -/
theorem arrivalOrder_tagged {k a b : Nat} (hk : a ≤ acc.dsmSizeOf * k) (hk' : acc.dsmSizeOf * k < b)
    (off : Nat) {pss : List (List (Packet T))}
    (h : ∀ ps ∈ pss, ∃ mode src, Chain acc.dsmSizeOf mode acc.threshold src a ps b) :
    acc.arrivalOrder k (tagged off pss) = List.range' off pss.length := by
  induction pss generalizing off with
  | nil => rfl
  | cons ps pss ih =>
      obtain ⟨mode, src, hchain⟩ := h ps List.mem_cons_self
      have hrest : ∀ m ∈ tagged (off + 1) pss, m.1 ≠ off := by
        intro m hm
        have := tagged_bounds hm
        omega
      rw [tagged, arrivalOrder_chain hrest hk' hchain hk,
        ih (off + 1) fun qs hqs => h qs (List.mem_cons_of_mem _ hqs)]
      rfl

/-- A delivery to node `i` in which the contributions arrive in turn. -/
def inTurn (acc : FunctionalAccumulator T) (mode : AccumulatorMode) (cs : List (Contribution T)) (i : Nat) :
    List (Arrival T) :=
  tagged 0 (cs.map fun c => (acc.messagesTo mode c i).getD [])

theorem delivered_inTurn (mode : AccumulatorMode) {cs : List (Contribution T)} (hcs : acc.IsRound cs) {i : Nat}
    (hn : i < acc.numNodes) : acc.Delivered mode cs i (acc.inTurn mode cs i) := by
  constructor
  · intro m hm
    have := tagged_bounds hm
    rw [List.length_map] at this
    omega
  · intro j c hj
    have hsent : ∃ ps, acc.messagesTo mode c i = some ps := by
      by_cases hlt : acc.start i < acc.stop i
      · obtain ⟨ps, hps, -⟩ := messagesTo_chain mode (hcs c (List.mem_of_getElem? hj)).1 ⟨hn, hlt⟩
        exact ⟨ps, hps⟩
      · rw [messagesTo, if_pos (Nat.le_of_not_lt hlt)]
        split <;> exact ⟨_, rfl⟩
    obtain ⟨ps, hps⟩ := hsent
    have hget : (cs.map fun c => (acc.messagesTo mode c i).getD [])[j]? = some ps := by
      rw [List.getElem?_map, hj]
      simp [hps]
    have hfilter := filter_tagged 0 hget
    rw [Nat.zero_add] at hfilter
    rw [hps, inTurn, hfilter]

theorem arrivalOrder_inTurn (mode : AccumulatorMode) {cs : List (Contribution T)} (hcs : acc.IsRound cs)
    {i : Nat} (hn : i < acc.numNodes) {k : Nat} (hk : acc.start i ≤ acc.dsmSizeOf * k)
    (hk' : acc.dsmSizeOf * k < acc.stop i) :
    acc.arrivalOrder k (acc.inTurn mode cs i) = List.range' 0 cs.length := by
  rw [inTurn, arrivalOrder_tagged hk hk', List.length_map]
  intro ps hps
  obtain ⟨c, hc, rfl⟩ := List.mem_map.mp hps
  obtain ⟨ps, hps, hchain⟩ := messagesTo_chain mode (hcs c hc).1 ⟨hn, hk.trans_lt hk'⟩
  rw [hps]
  exact ⟨_, _, hchain⟩

/-- What the contributions do to an element of node `i`, if they arrive in turn. -/
def Effects (acc : FunctionalAccumulator T) (mode : AccumulatorMode) (cs : List (Contribution T)) (i k : Nat)
    (y : T) : Prop :=
  Merges (fun c => acc.Effect (modeAt mode c i) (c.vec.getD k 0) k) cs 0 y

theorem effects_inTurn {mode : AccumulatorMode} {cs : List (Contribution T)} (hcs : acc.IsRound cs)
    {i : Nat} (hi : acc.Owns i) {k : Nat} (hk : acc.start i ≤ acc.dsmSizeOf * k)
    (hk' : acc.dsmSizeOf * k < acc.stop i) {buf : List T}
    (hbuf : acc.nodeBuffer i (acc.inTurn mode cs i) = some buf) :
    acc.Effects mode cs i k (acc.held i buf k) := by
  obtain ⟨buf', hbuf', -, hmerges⟩ := nodeBuffer_merges hcs hi (delivered_inTurn mode hcs hi.1)
  obtain rfl := Option.some.inj (hbuf.symm.trans hbuf')
  have hmerge := hmerges k hk hk'
  rw [arrivalOrder_inTurn mode hcs hi.1 hk hk'] at hmerge
  apply hmerge.of_range
  rintro j c hj x y ⟨c', hj', heffect⟩
  rw [Nat.zero_add, hj] at hj'
  obtain rfl := Option.some.inj hj'
  exact heffect

omit [LinearOrder T] in
/-- The node that writes last determines the output at its elements. -/
theorem output_last {arrivals : Nat → List (Arrival T)} {writes : List Nat} {i : Nat} {out out' : Nat → T}
    (h : acc.output arrivals (writes ++ [i]) out = some out') :
    ∃ buf, acc.nodeBuffer i (arrivals i) = some buf ∧ ∃ out₁, out' = acc.putBuffer out₁ i buf := by
  rw [output, List.foldlM_append] at h
  obtain ⟨out₁, -, hlast⟩ := Option.bind_eq_some_iff.mp h
  rw [List.foldlM_cons] at hlast
  obtain ⟨out₂, hwrite, hlast⟩ := Option.bind_eq_some_iff.mp hlast
  obtain ⟨buf, hbuf, rfl⟩ := Option.map_eq_some_iff.mp hwrite
  exact ⟨buf, hbuf, out₁, (Option.some.inj hlast).symm⟩

/-- If two rounds agree, then their contributions, arriving in turn, lead to the same
value at every element. -/
theorem Agree.effects {mode mode' : AccumulatorMode} {cs cs' : List (Contribution T)}
    (h : acc.Agree mode mode' cs cs') (hcs : acc.IsRound cs) (hcs' : acc.IsRound cs')
    (hlen : cs.length = cs'.length) {i : Nat} (hi : acc.Owns i) {k : Nat}
    (hk : acc.start i ≤ acc.dsmSizeOf * k) (hk' : acc.dsmSizeOf * k < acc.stop i) :
    ∃ y, acc.Effects mode cs i k y ∧ acc.Effects mode' cs' i k y := by
  have horder : ∀ i < acc.numNodes, ∀ k, acc.start i ≤ acc.dsmSizeOf * k → acc.dsmSizeOf * k < acc.stop i →
      acc.arrivalOrder k (acc.inTurn mode cs i) = acc.arrivalOrder k (acc.inTurn mode' cs' i) := by
    intro i hn k hk hk'
    rw [arrivalOrder_inTurn mode hcs hn hk hk', arrivalOrder_inTurn mode' hcs' hn hk hk', hlen]
  have hperm : ((List.range acc.numNodes).erase i ++ [i]).Perm (List.range acc.numNodes) :=
    List.perm_append_comm.trans (List.perm_cons_erase (List.mem_range.mpr hi.1)).symm
  obtain ⟨out, hout, hout'⟩ := h (acc.inTurn mode cs) (acc.inTurn mode' cs')
    (fun i hn => delivered_inTurn mode hcs hn) (fun i hn => delivered_inTurn mode' hcs' hn) horder _ hperm
    (fun _ => 0)
  obtain ⟨buf, hbuf, out₁, rfl⟩ := output_last hout
  obtain ⟨buf', hbuf', out₁', hsame⟩ := output_last hout'
  have hput : ∀ (out : Nat → T) (buf : List T), acc.putBuffer out i buf k = acc.held i buf k := by
    intro out buf
    rw [putBuffer, base_eq, if_pos (hi.elements hk hk')]
    rfl
  have hheld : acc.held i buf k = acc.held i buf' k := by
    rw [← hput out₁, ← hput out₁', hsame]
  refine ⟨acc.held i buf k, effects_inTurn hcs hi hk hk' hbuf, ?_⟩
  rw [hheld]
  exact effects_inTurn hcs' hi hk hk' hbuf'

/-- A vector with the same value everywhere, from a thread on node `i`. -/
def constant (acc : FunctionalAccumulator T) (i : Nat) (v : T) : Contribution T :=
  ⟨⟨i, 1⟩, List.replicate acc.len v⟩

omit [AddCommGroup T] [LinearOrder T] in
theorem modeAt_constant (mode : AccumulatorMode) (q : Nat) (v : T) (i : Nat) :
    modeAt mode (acc.constant q v) i = if i = q then .dense else mode := rfl

omit [LinearOrder T] in
theorem getD_constant (i : Nat) (v : T) {k : Nat} (hk : k < acc.len) :
    (acc.constant i v).vec.getD k 0 = v := by
  rw [constant, List.getD_eq_getElem?_getD, List.getElem?_replicate, if_pos hk]
  rfl

/-- Contributions from the node itself are dense. -/
theorem effects_own {mode : AccumulatorMode} {ws : List T} {i k : Nat} (hk : k < acc.len) {c : Contribution T}
    {y : T} (h : acc.Effects mode (ws.map (acc.constant i) ++ [c]) i k y) :
    acc.Effect (modeAt mode c i) (c.vec.getD k 0) k (ws.foldl (fun x w => acc.func w k x) 0) y := by
  obtain ⟨z, hws, z', hc, rfl⟩ := merges_append.mp h
  have hfold : z = ws.foldl (fun x w => acc.func w k x) 0 := by
    apply merges_fold.mp
    refine (merges_map.mp hws).mono fun w _ x y hxy => ?_
    rw [getD_constant i w hk, modeAt_constant, if_pos rfl] at hxy
    exact (hxy.resolve_right fun h => h.1 rfl).2
  rwa [hfold] at hc

omit [AddCommGroup T] [LinearOrder T] in
theorem isRound_own (ws : List T) {i : Nat} (hi : acc.Owns i) {c : Contribution T}
    (hc : c.vec.length = acc.len) (hplaced : acc.Placed c.thread.machine) :
    acc.IsRound (ws.map (acc.constant i) ++ [c]) := by
  intro c' hc'
  rcases List.mem_append.mp hc' with hc' | hc'
  · obtain ⟨w, -, rfl⟩ := List.mem_map.mp hc'
    exact ⟨List.length_replicate, hi.1, Or.inl hi⟩
  · obtain rfl := List.mem_singleton.mp hc'
    exact ⟨hc, hplaced⟩

omit [AddCommGroup T] [LinearOrder T] in
theorem exists_owner {k : Nat} (hk : k < acc.len) :
    ∃ i, acc.Owns i ∧ acc.start i ≤ acc.dsmSizeOf * k ∧ acc.dsmSizeOf * k < acc.stop i := by
  have hlt : acc.dsmSizeOf * k < acc.sz := by
    rw [sz_eq]
    exact Nat.mul_lt_mul_of_pos_left hk dsmSizeOf_pos
  obtain ⟨i, hn, hlo, hhi⟩ := exists_segment sz_le acc.pos hlt
  exact ⟨i, ⟨hn, hlo.trans_lt hhi⟩, hlo, hhi⟩

/-- In dense mode a value below the threshold is added, in sparse mode it is left out. -/
theorem func_eq_self (h : acc.IndependentOfTransport) (hspread : acc.Spread) {v : T}
    (hv : sparseValue acc.threshold v = 0) {k : Nat} (hk : k < acc.len) (ws : List T) :
    acc.func v k (ws.foldl (fun x w => acc.func w k x) 0) = ws.foldl (fun x w => acc.func w k x) 0 := by
  obtain ⟨i, hi, hlo, hhi⟩ := exists_owner hk
  obtain ⟨q, hne, hq⟩ : ∃ q, i ≠ q ∧ acc.Owns q := by
    obtain ⟨p, q, hpq, hp, hq⟩ := hspread
    by_cases hip : i = p
    · exact ⟨q, fun hiq => hpq (hip.symm.trans hiq), hq⟩
    · exact ⟨p, hip, hp⟩
  have hround := isRound_own ws hi (c := acc.constant q v) List.length_replicate ⟨hq.1, Or.inl hq⟩
  obtain ⟨y, hdense, hsparse⟩ := (h .dense .sparse _ _ hround hround rfl).effects hround hround rfl hi hlo hhi
  have hdense := effects_own hk hdense
  have hsparse := effects_own hk hsparse
  rw [getD_constant q v hk, modeAt_constant, if_neg hne] at hdense hsparse
  obtain ⟨-, rfl⟩ := hdense.resolve_right fun h => h.1 rfl
  obtain ⟨-, hy⟩ := hsparse.resolve_left fun h => h.1 rfl
  rw [hy, if_pos hv]

/-- On the node itself a value below the threshold does the same as zero. -/
theorem func_eq_func_zero (h : acc.TreatsSmallAsZero) {v : T} (hv : sparseValue acc.threshold v = 0) {k : Nat}
    (hk : k < acc.len) (ws : List T) : acc.func v k (ws.foldl (fun x w => acc.func w k x) 0) =
      acc.func 0 k (ws.foldl (fun x w => acc.func w k x) 0) := by
  obtain ⟨i, hi, hlo, hhi⟩ := exists_owner hk
  have hround : ∀ (ws : List T) (v : T), acc.IsRound (ws.map (acc.constant i) ++ [acc.constant i v]) :=
    fun ws v => isRound_own ws hi List.length_replicate ⟨hi.1, Or.inl hi⟩
  have hcut : ∀ v : T, acc.cut (acc.constant i v) = acc.constant i (sparseValue acc.threshold v) := by
    intro v
    rw [cut, constant, List.map_replicate]
    rfl
  -- both values become zero, behind the same other values
  have hvalue : ∀ u, sparseValue acc.threshold u = 0 → acc.func u k (ws.foldl (fun x w => acc.func w k x) 0) =
      acc.func 0 k ((ws.map (sparseValue acc.threshold)).foldl (fun x w => acc.func w k x) 0) := by
    intro u hu
    have hmap : (ws.map (acc.constant i) ++ [acc.constant i u]).map acc.cut =
        (ws.map (sparseValue acc.threshold)).map (acc.constant i) ++ [acc.constant i 0] := by
      rw [List.map_append, List.map_map, List.map_map, List.map_singleton, hcut, hu]
      congr 1
      exact List.map_congr_left fun w _ => hcut w
    have hagree := h .dense _ (hround ws u)
    rw [hmap] at hagree
    obtain ⟨y, hleft, hright⟩ := hagree.effects (hround ws u) (hround _ 0) (by simp) hi hlo hhi
    have hleft := effects_own hk hleft
    have hright := effects_own hk hright
    rw [getD_constant _ _ hk, modeAt_constant, if_pos rfl] at hleft hright
    obtain ⟨-, rfl⟩ := hleft.resolve_right fun h => h.1 rfl
    exact (hright.resolve_right fun h => h.1 rfl).2
  have hzero : sparseValue acc.threshold (0 : T) = 0 := (sparseValue_eq _ 0).elim id id
  rw [hvalue v hv, hvalue 0 hzero]

/-- The output depends neither on the modes nor on the placement, and values below the
threshold count as zero, exactly if the function leaves the output as it is for such
values, or, with the whole vector on one node, does for them what it does for zero. -/
theorem independent_iff (acc : FunctionalAccumulator T) :
    acc.IndependentOfTransport ∧ acc.TreatsSmallAsZero ↔ acc.Neutral := by
  constructor
  · rintro ⟨hindependent, hsmall⟩ v hv k hk ws
    exact ⟨fun hspread => func_eq_self hindependent hspread hv hk ws, func_eq_func_zero hsmall hv hk ws⟩
  · intro hneutral
    constructor
    · intro mode mode' cs cs' hcs hcs' hvecs
      apply agree_of_neutral hneutral mode mode' hcs hcs'
      intro j c c' hj hj' k
      have hvec : (cs.map Contribution.vec)[j]? = (cs'.map Contribution.vec)[j]? := by rw [hvecs]
      rw [List.getElem?_map, List.getElem?_map, hj, hj'] at hvec
      rw [Option.some.inj hvec]
    · intro mode cs hcs
      have hcut : acc.IsRound (cs.map acc.cut) := by
        intro c' hc'
        obtain ⟨c, hc, rfl⟩ := List.mem_map.mp hc'
        obtain ⟨hlen, hplaced⟩ := hcs c hc
        exact ⟨(List.length_map _).trans hlen, hplaced⟩
      apply agree_of_neutral hneutral mode mode hcs hcut
      intro j c c' hj hj' k
      rw [List.getElem?_map, hj] at hj'
      obtain rfl := Option.some.inj hj'
      rw [cut, List.getD_eq_getElem?_getD, List.getD_eq_getElem?_getD, List.getElem?_map]
      cases c.vec[k]? with
      | none => rfl
      | some v => exact (sparseValue_idem acc.threshold v).symm

/-- Addition is neutral if no value but zero is below the threshold. -/
theorem neutral_add_iff (hadd : acc.func = fun v _ x => x + v) (hlen : 0 < acc.len) :
    acc.Neutral ↔ ∀ v, sparseValue acc.threshold v = 0 → v = 0 := by
  simp only [Neutral, hadd, add_zero]
  constructor
  · intro h v hv
    have hzero := (h v hv 0 hlen []).2
    rwa [List.foldl_nil, zero_add] at hzero
  · intro h v hv k _ ws
    rw [h v hv, add_zero]
    exact ⟨fun _ => rfl, rfl⟩

end Node

theorem one_size_of : 1 = 1 ∨ 1 = 2 := Or.inl rfl

/-- Sixty-four numbers on two nodes are added, with a threshold of five. -/
def addOnTwoNodes : FunctionalAccumulator Int where
  numNodes := 2
  pos := Nat.two_pos
  dsmSizeOf := 1
  size_of := one_size_of
  len := 64
  small := by decide
  func v _ x := x + v
  threshold := 5

/-- The value three is below the threshold. It is added in dense mode and not in sparse
mode, and it is added to the node's own segment in every mode. -/
theorem small_value_added :
    ¬addOnTwoNodes.IndependentOfTransport ∧ ¬addOnTwoNodes.TreatsSmallAsZero := by
  have hv : sparseValue addOnTwoNodes.threshold (3 : Int) = 0 := by decide
  have hk : 0 < addOnTwoNodes.len := by decide
  have hspread : addOnTwoNodes.Spread := ⟨0, 1, by decide, ⟨by decide, by decide⟩, ⟨by decide, by decide⟩⟩
  constructor
  · intro h
    exact absurd (func_eq_self h hspread hv hk []) (by decide)
  · intro h
    exact absurd (func_eq_func_zero h hv hk []) (by decide)

end FunctionalAccumulator

end Dogee.Accumulator
