import Dogee.AccumulatorSend

/-!
# What a packet adds

A packet adds to each element of the vector its own part; a node that takes it up adds
these parts to its buffer, and the packets that give a node its segment add up to the
words of the segment.
-/

namespace Dogee.Accumulator

open SyncManager (SyncThreadNode)
open Transition

variable {T : Type} [AddCommGroup T] [LinearOrder T]

/-! ## Adding a packet to a buffer -/

/-- What sparse elements add to the element `k` of the vector. -/
def sparsePart (elements : List (Nat × T)) (k : Nat) : T :=
  (elements.map fun e => if e.1 = k then e.2 else 0).sum

/-- What a packet adds to the element `k` of the vector. -/
def Packet.part (d : Nat) (p : Packet T) (k : Nat) : T :=
  match p.data with
  | .dense data => if p.offset / d ≤ k then data.getD (k - p.offset / d) 0 else 0
  | .sparse elements => sparsePart elements k

omit [LinearOrder T] in
theorem Packet.part_of_isEmpty {d : Nat} {p : Packet T} (h : p.data.isEmpty = true) (k : Nat) :
    p.part d k = 0 := by
  rw [part]
  cases hdata : p.data with
  | dense data =>
      rw [hdata] at h
      rw [List.isEmpty_iff.mp h]
      simp
  | sparse elements =>
      rw [hdata] at h
      rw [List.isEmpty_iff.mp h]
      rfl

theorem nonzeros_mem {i : Nat} {vec : List T} {e : Nat × T} (h : e ∈ nonzeros i vec) :
    i ≤ e.1 ∧ e.1 < i + vec.length := by
  induction vec generalizing i with
  | nil => cases h
  | cons v vec ih =>
      rw [nonzeros] at h
      rw [List.length_cons]
      split at h
      · have := ih h
        omega
      · rcases List.mem_cons.mp h with rfl | h
        · simp
        · have := ih h
          omega

theorem sparsePart_nonzeros (i : Nat) (vec : List T) (k : Nat) :
    sparsePart (nonzeros i vec) k = if i ≤ k then vec.getD (k - i) 0 else 0 := by
  induction vec generalizing i with
  | nil => simp [nonzeros, sparsePart]
  | cons v vec ih =>
      have hstep : sparsePart (nonzeros i (v :: vec)) k =
          (if i = k then v else 0) + sparsePart (nonzeros (i + 1) vec) k := by
        rw [nonzeros]
        split
        · rename_i hv
          rw [hv]
          simp
        · rfl
      rw [hstep, ih]
      rcases Nat.lt_trichotomy i k with hlt | rfl | hgt
      · rw [if_neg (by omega), if_pos (by omega), if_pos (by omega), zero_add,
          show k - i = (k - (i + 1)) + 1 by omega, List.getD_cons_succ]
      · rw [if_pos rfl, if_neg (by omega), if_pos (Nat.le_refl i), Nat.sub_self, add_zero,
          List.getD_cons_zero]
      · rw [if_neg (by omega), if_neg (by omega), if_neg (by omega), add_zero]

omit [LinearOrder T] in
theorem getD_window {d : Nat} (src : List T) (a c j : Nat) :
    (window d src a c).getD j 0 = if a / d + j < c / d then src.getD (a / d + j) 0 else 0 := by
  rw [window, List.getD_eq_getElem?_getD, List.getElem?_take]
  split
  · rw [if_pos (by omega), List.getElem?_drop, List.getD_eq_getElem?_getD]
  · rw [if_neg (by omega)]
    rfl

/-- A packet adds the words that it carries. -/
theorem Carries.part_eq {d : Nat} (hd : 0 < d) {src : List T} {p : Packet T} {a c : Nat}
    (h : Carries d src p a c) (ha : d ∣ a) (k : Nat) :
    p.part d k = if a ≤ d * k ∧ d * k < c then src.getD k 0 else 0 := by
  obtain ⟨x, rfl⟩ := ha
  obtain ⟨y, rfl⟩ := h.whole
  have hwindow : (if x ≤ k then (window d src (d * x) (d * y)).getD (k - x) 0 else 0) =
      if d * x ≤ d * k ∧ d * k < d * y then src.getD k 0 else 0 := by
    have hle : d * x ≤ d * k ↔ x ≤ k := Nat.mul_le_mul_left_iff hd
    have hlt : d * k < d * y ↔ k < y := Nat.mul_lt_mul_left hd
    rw [getD_window, Nat.mul_div_cancel_left _ hd, Nat.mul_div_cancel_left _ hd]
    by_cases hxk : x ≤ k
    · rw [if_pos hxk, show x + (k - x) = k by omega]
      by_cases hky : k < y
      · rw [if_pos hky, if_pos ⟨hle.mpr hxk, hlt.mpr hky⟩]
      · rw [if_neg hky, if_neg fun hc => hky (hlt.mp hc.2)]
    · rw [if_neg hxk, if_neg fun hc => hxk (hle.mp hc.1)]
  rw [Packet.part]
  rcases h.data with hdata | hdata
  · rw [hdata, ← hwindow]
    simp only
    by_cases hlt : d * x < d * y
    · rw [h.offset hlt, Nat.mul_div_cancel_left _ hd]
    · have hnil : window d src (d * x) (d * y) = [] := window_of_le (Nat.le_of_not_lt hlt)
      rw [hnil]
      simp
  · rw [hdata, ← hwindow]
    simp only
    rw [sparsePart_nonzeros, Nat.mul_div_cancel_left _ hd]

theorem Gives.sum_part {d : Nat} (hd : 0 < d) {src : List T} {ps : List (Packet T)} {a b : Nat}
    (h : Gives d src a ps b) (ha : d ∣ a) (k : Nat) :
    (ps.map fun p => p.part d k).sum = if a ≤ d * k ∧ d * k < b then src.getD k 0 else 0 := by
  induction ps generalizing a with
  | nil =>
      obtain rfl : a = b := h
      rw [if_neg (by omega)]
      rfl
  | cons p ps ih =>
      obtain ⟨c, hp, hrest⟩ := h
      have hle := hp.le
      have hle' := hrest.le
      rw [List.map_cons, List.sum_cons, hp.part_eq hd ha, ih hrest hp.whole]
      by_cases hfirst : a ≤ d * k ∧ d * k < c
      · rw [if_pos hfirst, if_neg (by omega), if_pos (by omega), add_zero]
      · rw [if_neg hfirst, zero_add]
        by_cases hlater : c ≤ d * k ∧ d * k < b
        · rw [if_pos hlater, if_pos (by omega)]
        · rw [if_neg hlater, if_neg (by omega)]

/-- A packet of the list carries whole elements. -/
theorem Gives.mem_whole {d : Nat} {src : List T} {a b : Nat} {ps : List (Packet T)} {p : Packet T}
    (h : Gives d src a ps b) (ha : d ∣ a) (hp : p ∈ ps) :
    ∃ x y, a ≤ x ∧ y ≤ b ∧ d ∣ x ∧ Carries d src p x y := by
  induction ps generalizing a with
  | nil => cases hp
  | cons q ps ih =>
      obtain ⟨c, hq, hrest⟩ := h
      rcases List.mem_cons.mp hp with rfl | hp
      · exact ⟨a, c, Nat.le_refl a, hrest.le, ha, hq⟩
      · obtain ⟨x, y, hx, hy, hxy⟩ := ih hrest hq.whole hp
        exact ⟨x, y, Nat.le_trans hq.le hx, hy, hxy⟩

omit [LinearOrder T] in
theorem getD_modify {out : List T} {m : Nat} (hm : m < out.length) (j : Nat) (f : T → T) :
    (out.modify j f).getD m 0 = if m = j then f (out.getD m 0) else out.getD m 0 := by
  rw [List.getD_eq_getElem?_getD, List.getElem?_modify, List.getElem?_eq_getElem hm,
    List.getD_eq_getElem?_getD, List.getElem?_eq_getElem hm]
  by_cases hmj : m = j
  · simp [hmj]
  · simp [hmj, Ne.symm hmj]

omit [LinearOrder T] in
theorem addAt_spec (out : List T) (j : Nat) (vs : List T) :
    (addAt out j vs).length = out.length ∧ ∀ m < out.length,
      (addAt out j vs).getD m 0 = out.getD m 0 + if j ≤ m then vs.getD (m - j) 0 else 0 := by
  induction vs generalizing out j with
  | nil => exact ⟨rfl, fun m _ => by simp [addAt]⟩
  | cons v vs ih =>
      obtain ⟨hlen, hget⟩ := ih (out.modify j (· + v)) (j + 1)
      rw [List.length_modify] at hlen hget
      refine ⟨hlen, fun m hm => ?_⟩
      rw [addAt, hget m hm]
      have hmod : (out.modify j (· + v)).getD m 0 = out.getD m 0 + if m = j then v else 0 := by
        rw [getD_modify hm]
        split
        · rfl
        · rw [add_zero]
      rw [hmod, add_assoc]
      congr 1
      rcases Nat.lt_trichotomy m j with hlt | rfl | hgt
      · rw [if_neg (by omega), if_neg (by omega), if_neg (by omega), add_zero]
      · rw [if_pos rfl, if_neg (by omega), if_pos (Nat.le_refl m), Nat.sub_self, add_zero,
          List.getD_cons_zero]
      · rw [if_neg (by omega), if_pos (by omega), if_pos (by omega), zero_add,
          show m - j = (m - (j + 1)) + 1 by omega, List.getD_cons_succ]

omit [LinearOrder T] in
theorem doAccumulateSparse_spec (elements : List (Nat × T)) {outIndex outLen : Nat}
    (hlt : outIndex + outLen < two32)
    (hmem : ∀ e ∈ elements, outIndex ≤ e.1 ∧ e.1 < outIndex + outLen) (out : List T) :
    ∃ out', doAccumulateSparse elements out outIndex outLen = some out' ∧
      out'.length = out.length ∧ ∀ m < out.length,
        out'.getD m 0 = out.getD m 0 + sparsePart elements (outIndex + m) := by
  induction elements generalizing out with
  | nil => exact ⟨out, rfl, rfl, fun m _ => by simp [sparsePart]⟩
  | cons e elements ih =>
      obtain ⟨hlo, hhi⟩ := hmem e List.mem_cons_self
      obtain ⟨out', hrun, hlen, hget⟩ := ih (fun e he => hmem e (List.mem_cons_of_mem _ he))
        (out.modify (e.1 - outIndex) (· + e.2))
      rw [List.length_modify] at hlen hget
      refine ⟨out', ?_, hlen, fun m hm => ?_⟩
      · rw [doAccumulateSparse, List.foldlM_cons, Nat.mod_eq_of_lt hlt, if_pos ⟨hlo, hhi⟩]
        rw [doAccumulateSparse, Nat.mod_eq_of_lt hlt] at hrun
        exact hrun
      · rw [hget m hm]
        have hmod : (out.modify (e.1 - outIndex) (· + e.2)).getD m 0 =
            out.getD m 0 + if e.1 = outIndex + m then e.2 else 0 := by
          rw [getD_modify hm]
          by_cases hem : e.1 = outIndex + m
          · rw [if_pos (by omega), if_pos hem]
          · rw [if_neg (by omega), if_neg hem, add_zero]
        rw [hmod, add_assoc]
        rfl

/-- A packet for words of a buffer is added without a failed assertion. -/
theorem doAccumulate_carries {d : Nat} (hd : 0 < d) {src : List T} {p : Packet T}
    {a c base size : Nat} (h : Carries d src p a c) (hac : a < c) (ha : d ∣ a) (hbase : d ∣ base)
    (hlo : base ≤ a) (hhi : c ≤ base + size) (hmax : base + size ≤ two32 / 2) {buf : List T}
    (hbuf : buf.length = size / d) :
    ∃ buf', doAccumulate d p.data p.offset buf base size = some buf' ∧
      buf'.length = buf.length ∧ ∀ j < size / d,
        buf'.getD j 0 = buf.getD j 0 + p.part d (base / d + j) := by
  obtain ⟨x, rfl⟩ := ha
  obtain ⟨b, rfl⟩ := hbase
  obtain ⟨y, rfl⟩ := h.whole
  have hbx : b ≤ x := Nat.le_of_mul_le_mul_left hlo hd
  have hsize : y - b ≤ size / d := by
    rw [Nat.le_div_iff_mul_le hd, Nat.mul_comm, Nat.mul_sub]
    omega
  have hxy : x < y := Nat.lt_of_mul_lt_mul_left hac
  have hylt : y ≤ two32 / 2 := by
    have : y ≤ d * y := Nat.le_mul_of_pos_left y hd
    omega
  have hbd : b + size / d ≤ two32 / 2 := by
    have h1 : b ≤ d * b := Nat.le_mul_of_pos_left b hd
    have h2 : size / d ≤ size := Nat.div_le_self size d
    omega
  have hlen : (window d src (d * x) (d * y)).length = y - x := by
    rw [length_window (h.bound hac), Nat.mul_div_cancel_left _ hd, Nat.mul_div_cancel_left _ hd]
  rcases h.data with hp | hp
  · have hoff := h.offset hac
    rw [hp, doAccumulate]
    simp only [hoff, Nat.mul_div_cancel_left _ hd]
    have hoffset : (x + two32 - b) % two32 = x - b := by
      simp only [two32] at *
      omega
    rw [doAccumulateDense, hoffset, hlen, if_pos (by simp only [two32] at *; omega)]
    obtain ⟨hlen', hget⟩ := addAt_spec buf (x - b) (window d src (d * x) (d * y))
    refine ⟨_, rfl, hlen', fun j hj => ?_⟩
    rw [hget j (by omega), Packet.part, hp]
    simp only [hoff, Nat.mul_div_cancel_left _ hd]
    congr 1
    by_cases hc : x - b ≤ j
    · rw [if_pos hc, if_pos (by omega), show b + j - x = j - (x - b) by omega]
    · rw [if_neg hc, if_neg (by omega)]
  · rw [hp, doAccumulate]
    simp only [Nat.mul_div_cancel_left _ hd]
    have hfits : b + size / d < two32 := Nat.lt_of_le_of_lt hbd (by decide)
    have hmem : ∀ e ∈ nonzeros x (window d src (d * x) (d * y)), b ≤ e.1 ∧ e.1 < b + size / d := by
      intro e he
      have hrange := nonzeros_mem he
      rw [hlen] at hrange
      omega
    obtain ⟨buf', hrun, hlen', hget⟩ := doAccumulateSparse_spec _ hfits hmem buf
    refine ⟨buf', hrun, hlen', fun j hj => ?_⟩
    rw [hget j (by omega), Packet.part, hp]
    simp only [Nat.mul_div_cancel_left _ hd]

/-- A packet with data for words of the node's segment is added. -/
theorem doAccumulate_spec {d : Nat} (hd : 0 < d) {src : List T} {p : Packet T} {a c base size : Nat}
    (h : Carries d src p a c) (ha : d ∣ a) (hbase : d ∣ base) (hlo : base ≤ a) (hhi : c ≤ base + size)
    (hdata : p.data.isEmpty = false) (hlt : a < c → base + size ≤ maxWords) {buf : List T}
    (hbuf : buf.length = size / d) :
    ∃ buf', doAccumulate d p.data p.offset buf base size = some buf' ∧
      buf'.length = buf.length ∧ ∀ j < size / d,
        buf'.getD j 0 = buf.getD j 0 + p.part d (base / d + j) := by
  have hac : a < c := by
    by_contra hnot
    have hnil : window d src a c = [] := window_of_le (Nat.le_of_not_lt hnot)
    rcases h.data with hp | hp <;> rw [hp, hnil] at hdata <;> cases hdata
  exact doAccumulate_carries hd h hac ha hbase hlo hhi ((hlt hac).trans (by decide)) hbuf

end Dogee.Accumulator
