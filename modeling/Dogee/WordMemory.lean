import Dogee.Address

/-!
# Buffers and flat word memory

A buffer is a list of known length; reading or writing outside it is `none`.
The flat memory gives every word of every object a value: it is what the
storage backends are meant to implement.
-/

namespace Dogee

section Buffer

variable {α : Type*}

/-- Write words one after another from position `j` on. -/
def copyWords : List α → Nat → List α → Option (List α)
  | dst, _, [] => some dst
  | dst, j, v :: vs => if j < dst.length then copyWords (dst.set j v) (j + 1) vs else none

/-- Read `n` words from position `i` on. -/
def slice (src : List α) (i n : Nat) : Option (List α) :=
  if i + n ≤ src.length then some ((src.drop i).take n) else none

theorem copyWords_spec (dst : List α) (j : Nat) (vs : List α) (h : j + vs.length ≤ dst.length) :
    ∃ d, copyWords dst j vs = some d ∧ d.length = dst.length ∧
      ∀ i, d[i]? = if j ≤ i ∧ i < j + vs.length then vs[i - j]? else dst[i]? := by
  induction vs generalizing dst j with
  | nil =>
      refine ⟨dst, rfl, rfl, fun i => ?_⟩
      rw [if_neg]
      simp only [List.length_nil, Nat.add_zero, not_and, Nat.not_lt]
      exact id
  | cons v vs ih =>
      rw [List.length_cons] at h
      obtain ⟨d, hd, hlen, hget⟩ := ih (dst.set j v) (j + 1) (by rw [List.length_set]; omega)
      refine ⟨d, ?_, by rw [hlen, List.length_set], fun i => ?_⟩
      · rw [copyWords, if_pos (by omega), hd]
      · rw [hget, List.length_cons]
        by_cases hij : i = j
        · subst hij
          rw [if_neg (by omega), if_pos (by omega), Nat.sub_self,
            List.getElem?_set_self (by omega)]
          rfl
        · by_cases hin : j ≤ i ∧ i < j + (vs.length + 1)
          · rw [if_pos (by omega), if_pos hin, show i - j = (i - (j + 1)) + 1 by omega,
              List.getElem?_cons_succ]
          · rw [if_neg (by omega), if_neg hin, List.getElem?_set_ne (by omega)]

/-- Overwriting a whole buffer. -/
theorem copyWords_all {dst vs : List α} (h : vs.length = dst.length) :
    copyWords dst 0 vs = some vs := by
  obtain ⟨d, hd, hlen, hget⟩ := copyWords_spec dst 0 vs (by omega)
  rw [hd]
  refine congrArg some (List.ext_getElem? fun i => ?_)
  rw [hget]
  split
  · rfl
  · rw [List.getElem?_eq_none (by omega), List.getElem?_eq_none (by omega)]

theorem slice_all {src : List α} {n : Nat} (h : src.length = n) : slice src 0 n = some src := by
  rw [slice, if_pos (by omega), List.drop_zero, List.take_of_length_le (by omega)]

theorem copyWords_length {dst d : List α} {j : Nat} {vs : List α} (h : copyWords dst j vs = some d) :
    d.length = dst.length := by
  induction vs generalizing dst j with
  | nil =>
      cases h
      rfl
  | cons v vs ih =>
      rw [copyWords] at h
      split at h
      · rw [ih h, List.length_set]
      · cases h

theorem copyWords_eq_none {dst : List α} {j : Nat} {vs : List α} (hvs : vs ≠ [])
    (h : dst.length < j + vs.length) : copyWords dst j vs = none := by
  induction vs generalizing dst j with
  | nil => exact absurd rfl hvs
  | cons v vs ih =>
      rw [copyWords]
      split
      · rename_i hj
        rw [List.length_cons] at h
        refine ih ?_ (by rw [List.length_set]; omega)
        rintro rfl
        simp only [List.length_nil] at h
        omega
      · rfl

/-- Filling a buffer from parts: when every part writes the right value at the
positions it covers and nothing elsewhere, the order of the parts does not matter. -/
theorem foldlM_fill {ε : Type*} {step : List α → ε → Option (List α)} {covers : ε → Nat → Prop}
    {val : Nat → α} {n : Nat} (l : List ε)
    (hstep : ∀ e ∈ l, ∀ buf, buf.length = n → ∃ buf', step buf e = some buf' ∧ buf'.length = n ∧
      ∀ x, (covers e x → buf'[x]? = some (val x)) ∧ (¬covers e x → buf'[x]? = buf[x]?)) :
    ∀ buf, buf.length = n → ∃ buf', l.foldlM step buf = some buf' ∧ buf'.length = n ∧
      ∀ x, ((∃ e ∈ l, covers e x) → buf'[x]? = some (val x)) ∧
        ((∀ e ∈ l, ¬covers e x) → buf'[x]? = buf[x]?) := by
  induction l with
  | nil =>
      intro buf hbuf
      exact ⟨buf, rfl, hbuf, fun x => ⟨by simp, fun _ => rfl⟩⟩
  | cons e l ih =>
      intro buf hbuf
      obtain ⟨buf₁, hrun₁, hlen₁, hget₁⟩ := hstep e (by simp) buf hbuf
      obtain ⟨buf₂, hrun₂, hlen₂, hget₂⟩ :=
        ih (fun e he => hstep e (by simp [he])) buf₁ hlen₁
      refine ⟨buf₂, ?_, hlen₂, fun x => ⟨?_, ?_⟩⟩
      · rw [List.foldlM_cons, hrun₁]
        exact hrun₂
      · rintro ⟨e', he', hcov⟩
        by_cases hlater : ∃ e ∈ l, covers e x
        · exact (hget₂ x).1 hlater
        · have hnone : ∀ e ∈ l, ¬covers e x := fun e he hc => hlater ⟨e, he, hc⟩
          rw [(hget₂ x).2 hnone]
          rcases List.mem_cons.mp he' with rfl | he'
          · exact (hget₁ x).1 hcov
          · exact absurd hcov (hnone e' he')
      · intro hnone
        rw [(hget₂ x).2 fun e he => hnone e (by simp [he])]
        exact (hget₁ x).2 (hnone e (by simp))

end Buffer

/-- The value of every word of every object. -/
abbrev Memory := Nat → Nat → Word

namespace Memory

/-- The memory in which no word has been written. -/
def empty : Memory := fun _ _ => 0

def read (m : Memory) (key fldid len : Nat) : List Word :=
  (List.range len).map fun i => m key (fldid + i)

def write (m : Memory) (key fldid : Nat) (vs : List Word) : Memory :=
  fun o w => if o = key ∧ fldid ≤ w ∧ w < fldid + vs.length then vs.getD (w - fldid) 0 else m o w

@[simp] theorem length_read (m : Memory) (key fldid len : Nat) :
    (m.read key fldid len).length = len := by
  rw [read, List.length_map, List.length_range]

theorem getElem?_read {m : Memory} {key fldid len i : Nat} (h : i < len) :
    (m.read key fldid len)[i]? = some (m key (fldid + i)) := by
  rw [read, List.getElem?_map, List.getElem?_range h, Option.map_some]

theorem read_append (m : Memory) (key fldid n n' : Nat) :
    m.read key fldid (n + n') = m.read key fldid n ++ m.read key (fldid + n) n' := by
  simp only [read, List.range_add, List.map_append, List.map_map]
  congr 1
  apply List.map_congr_left
  intro i _
  exact congrArg (m key) (Nat.add_assoc fldid n i).symm

/-- A buffer of the right length that agrees word by word is the read. -/
theorem eq_read {m : Memory} {key fldid len : Nat} {buf : List Word}
    (hlen : buf.length = len) (h : ∀ i < len, buf[i]? = some (m key (fldid + i))) :
    buf = m.read key fldid len := by
  apply List.ext_getElem?
  intro i
  by_cases hi : i < len
  · rw [h i hi, getElem?_read hi]
  · rw [List.getElem?_eq_none (by omega), List.getElem?_eq_none (by rw [length_read]; omega)]

/-- The first `n` words of a buffer hold the words of the memory from `fldid` on. -/
def Filled (m : Memory) (key fldid n : Nat) (buf : List Word) : Prop :=
  ∀ x < n, buf[x]? = some (m key (fldid + x))

/-- Reading the next words extends the filled part. -/
theorem Filled.extend {m : Memory} {key fldid n : Nat} {buf : List Word} (len : Nat)
    (hfill : m.Filled key fldid n buf) (hlen : n + len ≤ buf.length) :
    ∃ buf', copyWords buf n (m.read key (fldid + n) len) = some buf' ∧ buf'.length = buf.length ∧
      m.Filled key fldid (n + len) buf' := by
  obtain ⟨buf', hrun, hlen', hget⟩ := copyWords_spec buf n (m.read key (fldid + n) len) (by simpa using hlen)
  rw [Memory.length_read] at hget
  refine ⟨buf', hrun, hlen', fun x hx => ?_⟩
  rw [hget]
  by_cases hnew : n ≤ x
  · rw [if_pos ⟨hnew, hx⟩, Memory.getElem?_read (by omega), show fldid + n + (x - n) = fldid + x by omega]
  · rw [if_neg (by omega), hfill x (by omega)]

theorem write_nil (m : Memory) (key fldid : Nat) : m.write key fldid [] = m := by
  funext o w
  rw [write, if_neg]
  simp only [List.length_nil, Nat.add_zero, not_and, Nat.not_lt]
  exact fun _ h => h

/-- A write is a write of its first words followed by one of the others. -/
theorem write_append (m : Memory) (key fldid : Nat) (vs vs' : List Word) :
    m.write key fldid (vs ++ vs') = (m.write key fldid vs).write key (fldid + vs.length) vs' := by
  funext o w
  simp only [write, List.length_append, List.getD_eq_getElem?_getD]
  by_cases hlast : fldid + vs.length ≤ w ∧ w < fldid + vs.length + vs'.length
  · have hget : (vs ++ vs')[w - fldid]? = vs'[w - (fldid + vs.length)]? := by
      rw [List.getElem?_append_right (by omega), Nat.sub_sub]
    grind
  · have hget : w - fldid < vs.length → (vs ++ vs')[w - fldid]? = vs[w - fldid]? :=
      List.getElem?_append_left
    grind

/-- A part of what was read. -/
theorem slice_read (m : Memory) (key fldid : Nat) {len i n : Nat} (h : i + n ≤ len) :
    ((m.read key fldid len).drop i).take n = m.read key (fldid + i) n := by
  apply eq_read
  · rw [List.length_take, List.length_drop, length_read]
    omega
  · intro x hx
    rw [List.getElem?_take_of_lt hx, List.getElem?_drop, getElem?_read (by omega), Nat.add_assoc]

/-- Reading inside what was written. -/
theorem read_write_inside (m : Memory) (key fldid : Nat) {vs : List Word} {i n : Nat}
    (h : i + n ≤ vs.length) : (m.write key fldid vs).read key (fldid + i) n = (vs.drop i).take n := by
  symm
  apply eq_read
  · rw [List.length_take, List.length_drop]
    omega
  · intro x hx
    have hget : fldid + i + x - fldid = i + x := by omega
    rw [List.getElem?_take_of_lt hx, List.getElem?_drop, write, if_pos ⟨rfl, by omega, by omega⟩, hget,
      List.getD_eq_getElem?_getD, List.getElem?_eq_getElem (by omega)]
    rfl

/-- Reading outside what was written. -/
theorem read_write_outside (m : Memory) {key key' fldid fldid' n : Nat} {vs : List Word}
    (h : key' ≠ key ∨ fldid' + n ≤ fldid ∨ fldid + vs.length ≤ fldid') :
    (m.write key fldid vs).read key' fldid' n = m.read key' fldid' n := by
  unfold read
  apply List.map_congr_left
  intro i hi
  have hlt := List.mem_range.mp hi
  rw [write, if_neg (by omega)]

/-- Two memories agree on the words with an index below `n`. -/
def AgreeBelow (n : Nat) (m m' : Memory) : Prop := ∀ o w, w < n → m o w = m' o w

namespace AgreeBelow

variable {n : Nat} {m m' m'' : Memory}

theorem refl (m : Memory) : AgreeBelow n m m := fun _ _ _ => rfl

theorem trans (h : AgreeBelow n m m') (h' : AgreeBelow n m' m'') : AgreeBelow n m m'' :=
  fun o w hw => (h o w hw).trans (h' o w hw)

theorem mono {n' : Nat} (h : AgreeBelow n m m') (hn : n' ≤ n) : AgreeBelow n' m m' :=
  fun o w hw => h o w (Nat.lt_of_lt_of_le hw hn)

theorem write (h : AgreeBelow n m m') (key fldid : Nat) (vs : List Word) :
    AgreeBelow n (m.write key fldid vs) (m'.write key fldid vs) := by
  intro o w hw
  simp only [Memory.write, h o w hw]

theorem read (h : AgreeBelow n m m') {key fldid len : Nat} (hrange : fldid + len ≤ n) :
    m.read key fldid len = m'.read key fldid len := by
  simp only [Memory.read, List.map_inj_left, List.mem_range]
  intro i hi
  exact h key (fldid + i) (by omega)

end AgreeBelow

end Memory

end Dogee
