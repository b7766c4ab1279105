import Mathlib.Data.List.Basic
import Mathlib.Data.List.Count
import Mathlib.Logic.Function.Basic
import Mathlib.Tactic.Common

/-!
# Frames on byte streams

A connection is a stream of bytes, and a `recv` returns a non-empty part of its beginning, at most as
long as asked for; how long is up to the network. A listener reads frames of one size from
several connections with a single `recv` for each frame, and gives up when one is short.
-/

namespace Dogee.Framing

variable {β : Type*}

/-- The most that the `recv`s on a connection return, one after the other. -/
structure Segmentation where
  size : Nat → Nat
  pos : ∀ j, 0 < size j

/-- The `recv` number `j` on a connection. -/
def Segmentation.recv (seg : Segmentation) (j len : Nat) (stream : List β) : List β :=
  stream.take (min len (seg.size j))

/-- Every `recv` of a list of lengths, from number `j` on, returns all that is asked for. -/
def Segmentation.Whole (seg : Segmentation) : Nat → List Nat → Prop
  | _, [] => True
  | j, len :: rest => len ≤ seg.size j ∧ seg.Whole (j + 1) rest

instance Segmentation.decidableWhole (seg : Segmentation) :
    (j : Nat) → (lens : List Nat) → Decidable (seg.Whole j lens)
  | _, [] => isTrue trivial
  | j, len :: rest =>
      have := seg.decidableWhole (j + 1) rest
      inferInstanceAs (Decidable (len ≤ seg.size j ∧ seg.Whole (j + 1) rest))

section Recv

variable {seg : Segmentation} {j len : Nat} {frame rest : List β}

theorem length_recv (hlen : len ≤ frame.length) : (seg.recv j len frame).length = min len (seg.size j) := by
  rw [Segmentation.recv, List.length_take]
  omega

theorem recv_whole (hwhole : frame.length ≤ seg.size j) : seg.recv j frame.length (frame ++ rest) = frame := by
  rw [Segmentation.recv, Nat.min_eq_left hwhole, List.take_left]

end Recv

/-! ## A listener -/

/-- A listener: what is under way on each connection, how often it has called `recv` there, the frames
it has dispatched, and whether it has given up. -/
structure Listener (ι β μ : Type*) where
  stream : ι → List β
  recvs : ι → Nat
  dispatched : List (ι × μ)
  failed : Bool

section Listening

variable {ι μ : Type*} [DecidableEq ι] (seg : ι → Segmentation) (size : Nat) (decode : List β → μ)

/-- The listener before it has read anything. -/
def Listener.start (stream : ι → List β) : Listener ι β μ := ⟨stream, fun _ => 0, [], false⟩

/-- The frames of one connection. -/
def Listener.received (l : Listener ι β μ) (i : ι) : List μ :=
  l.dispatched.filterMap fun d => if d.1 = i then some d.2 else none

/-- One `recv` on the connection `i`, if there is anything to read. -/
def Listener.recv (l : Listener ι β μ) (i : ι) : Listener ι β μ :=
  if l.failed ∨ l.stream i = [] then l
  else
    let bytes := (seg i).recv (l.recvs i) size (l.stream i)
    { stream := Function.update l.stream i ((l.stream i).drop bytes.length)
      recvs := Function.update l.recvs i (l.recvs i + 1)
      dispatched := if bytes.length = size then l.dispatched ++ [(i, decode bytes)] else l.dispatched
      failed := bytes.length ≠ size }

/-- The connections are read in the order of a schedule. -/
def Listener.listen (l : Listener ι β μ) (schedule : List ι) : Listener ι β μ :=
  schedule.foldl (Listener.recv seg size decode) l

end Listening

section Listening

variable {ι μ : Type*} [DecidableEq ι] {seg : ι → Segmentation} {size : Nat} {decode : List β → μ}
  {encode : μ → List β} {ms : ι → List μ} {l : Listener ι β μ} {i : ι} {schedule : List ι}

/-- A listener that has not given up has read whole frames. -/
structure Listener.Inv (seg : ι → Segmentation) (size : Nat) (encode : μ → List β) (ms : ι → List μ)
    (l : Listener ι β μ) : Prop where
  recvs_le : ∀ i, l.recvs i ≤ (ms i).length
  stream : ∀ i, l.stream i = ((ms i).drop (l.recvs i)).flatMap encode
  received : ∀ i, l.received i = (ms i).take (l.recvs i)
  whole : ∀ i, ∀ j < l.recvs i, size ≤ (seg i).size j

theorem received_concat (l : Listener ι β μ) (i i' : ι) (m : μ) (stream : ι → List β) (recvs : ι → Nat)
    (failed : Bool) :
    Listener.received ⟨stream, recvs, l.dispatched ++ [(i, m)], failed⟩ i' =
      l.received i' ++ if i = i' then [m] else [] := by
  rw [Listener.received, List.filterMap_append]
  split <;> simp_all [Listener.received]

theorem recv_failed (h : l.failed = true) : l.recv seg size decode i = l := if_pos (Or.inl h)

theorem listen_failed (h : l.failed = true) : l.listen seg size decode schedule = l := by
  induction schedule with
  | nil => rfl
  | cons i schedule ih =>
      rw [Listener.listen, List.foldl_cons, recv_failed h]
      exact ih

/-- The listener when it has dispatched the next frame of the connection `i`. -/
def Listener.next (encode : μ → List β) (ms : ι → List μ) (l : Listener ι β μ) (i : ι) (m : μ) :
    Listener ι β μ :=
  ⟨Function.update l.stream i (((ms i).drop (l.recvs i + 1)).flatMap encode),
    Function.update l.recvs i (l.recvs i + 1), l.dispatched ++ [(i, m)], false⟩

theorem Listener.Inv.next (hinv : l.Inv seg size encode ms) (hlt : l.recvs i < (ms i).length)
    (hwhole : size ≤ (seg i).size (l.recvs i)) :
    (l.next encode ms i (ms i)[l.recvs i]).Inv seg size encode ms := by
  constructor
  · intro i'
    rcases eq_or_ne i' i with rfl | hi
    · simp only [Listener.next, Function.update_self]
      exact hlt
    · simp only [Listener.next, Function.update_of_ne hi]
      exact hinv.recvs_le i'
  · intro i'
    rcases eq_or_ne i' i with rfl | hi
    · simp only [Listener.next, Function.update_self]
    · simp only [Listener.next, Function.update_of_ne hi]
      exact hinv.stream i'
  · intro i'
    rw [Listener.next, received_concat, hinv.received]
    rcases eq_or_ne i' i with rfl | hi
    · simp only [if_true, Function.update_self]
      exact List.take_append_getElem hlt
    · simp only [if_neg (Ne.symm hi), List.append_nil, Function.update_of_ne hi]
  · intro i' j hj
    rcases eq_or_ne i' i with rfl | hi
    · simp only [Listener.next, Function.update_self] at hj
      rcases Nat.lt_succ_iff_lt_or_eq.mp hj with hj | rfl
      · exact hinv.whole i' j hj
      · exact hwhole
    · simp only [Listener.next, Function.update_of_ne hi] at hj
      exact hinv.whole i' j hj

/-- One `recv` of a listener in order: there is nothing to read, or the next frame is short, or it is
dispatched. -/
theorem recv_cases (hsize : ∀ m, (encode m).length = size) (hpos : 0 < size)
    (hdecode : ∀ m, decode (encode m) = m) (hinv : l.Inv seg size encode ms) (hok : l.failed = false) (i : ι) :
    (l.recv seg size decode i = l ∧ l.recvs i = (ms i).length) ∨
    ∃ hlt : l.recvs i < (ms i).length,
      ((l.recv seg size decode i).failed = true ∧ (seg i).size (l.recvs i) < size) ∨
      (l.recv seg size decode i = l.next encode ms i (ms i)[l.recvs i] ∧
        size ≤ (seg i).size (l.recvs i)) := by
  rcases Nat.eq_or_lt_of_le (hinv.recvs_le i) with hall | hlt
  · refine Or.inl ⟨if_pos (Or.inr ?_), hall⟩
    rw [hinv.stream, hall, List.drop_length, List.flatMap_nil]
  · refine Or.inr ⟨hlt, ?_⟩
    generalize hm : (ms i)[l.recvs i] = m
    have hstream : l.stream i = encode m ++ ((ms i).drop (l.recvs i + 1)).flatMap encode := by
      rw [hinv.stream, List.drop_eq_getElem_cons hlt, List.flatMap_cons, hm]
    have hne : ¬(l.failed = true ∨ l.stream i = []) := by
      rintro (hfail | hnil)
      · rw [hok] at hfail
        cases hfail
      · have hlength := congrArg List.length (hstream.symm.trans hnil)
        rw [List.length_append, hsize, List.length_nil] at hlength
        omega
    rcases Nat.lt_or_ge ((seg i).size (l.recvs i)) size with hshort | hwhole
    · have hlength : ((seg i).recv (l.recvs i) size (l.stream i)).length ≠ size := by
        rw [length_recv]
        · omega
        · rw [hstream, List.length_append, hsize]
          exact Nat.le_add_right ..
      refine Or.inl ⟨?_, hshort⟩
      rw [Listener.recv, if_neg hne]
      exact decide_eq_true hlength
    · have hbytes : (seg i).recv (l.recvs i) size (l.stream i) = encode m := by
        rw [hstream, ← hsize m]
        apply recv_whole
        rw [hsize m]
        exact hwhole
      refine Or.inr ⟨?_, hwhole⟩
      rw [Listener.recv, if_neg hne]
      simp only [hbytes, hsize, hdecode, if_true, ne_eq, not_true_eq_false, decide_false]
      rw [hstream, ← hsize m, List.drop_left]
      rfl

/-- What a listener that has not given up has read. -/
theorem listen_inv (hsize : ∀ m, (encode m).length = size) (hpos : 0 < size)
    (hdecode : ∀ m, decode (encode m) = m) (hinv : l.Inv seg size encode ms)
    (hok : (l.listen seg size decode schedule).failed = false) :
    (l.listen seg size decode schedule).Inv seg size encode ms ∧
      ∀ i, min (l.recvs i + schedule.count i) (ms i).length ≤ (l.listen seg size decode schedule).recvs i := by
  induction schedule generalizing l with
  | nil => exact ⟨hinv, fun i => Nat.min_le_left ..⟩
  | cons i schedule ih =>
      have hbefore : l.failed = false := by
        by_contra hfail
        rw [listen_failed (Bool.not_eq_false _ ▸ hfail)] at hok
        exact hfail hok
      rw [Listener.listen, List.foldl_cons] at hok ⊢
      rcases recv_cases hsize hpos hdecode hinv hbefore i with
        ⟨hsame, hall⟩ | ⟨hlt, ⟨hfail, -⟩ | ⟨hnext, hwhole⟩⟩
      · rw [hsame] at hok ⊢
        obtain ⟨hinv', hle⟩ := ih hinv hok
        refine ⟨hinv', fun i' => ?_⟩
        have hle' := hle i'
        rcases eq_or_ne i' i with rfl | hi
        · rw [hall] at hle'
          exact Nat.le_trans (by omega) hle'
        · rw [List.count_cons_of_ne (Ne.symm hi)]
          exact hle'
      · have hstop : (l.recv seg size decode i).listen seg size decode schedule =
            l.recv seg size decode i := listen_failed hfail
        rw [Listener.listen] at hstop
        rw [hstop, hfail] at hok
        cases hok
      · rw [hnext] at hok ⊢
        obtain ⟨hinv', hle⟩ := ih (hinv.next hlt hwhole) hok
        refine ⟨hinv', fun i' => ?_⟩
        have hle' := hle i'
        rcases eq_or_ne i' i with rfl | hi
        · rw [List.count_cons_self]
          simp only [Listener.next, Function.update_self] at hle'
          exact Nat.le_trans (by omega) hle'
        · rw [List.count_cons_of_ne (Ne.symm hi)]
          simp only [Listener.next, Function.update_of_ne hi] at hle'
          exact hle'

/-- A listener does not give up when every frame is returned whole. -/
theorem listen_whole (hsize : ∀ m, (encode m).length = size) (hpos : 0 < size)
    (hdecode : ∀ m, decode (encode m) = m) (hinv : l.Inv seg size encode ms) (hok : l.failed = false)
    (hwhole : ∀ i ∈ schedule, ∀ j < (ms i).length, size ≤ (seg i).size j) :
    (l.listen seg size decode schedule).failed = false := by
  induction schedule generalizing l with
  | nil => exact hok
  | cons i schedule ih =>
      have hrest : ∀ i ∈ schedule, ∀ j < (ms i).length, size ≤ (seg i).size j :=
        fun i' hmem => hwhole i' (List.mem_cons_of_mem _ hmem)
      rw [Listener.listen, List.foldl_cons]
      rcases recv_cases hsize hpos hdecode hinv hok i with
        ⟨hsame, -⟩ | ⟨hlt, ⟨-, hshort⟩ | ⟨hnext, hlong⟩⟩
      · rw [hsame]
        exact ih hinv hok hrest
      · have hlong := hwhole i List.mem_cons_self _ hlt
        omega
      · rw [hnext]
        exact ih (hinv.next hlt hlong) rfl hrest

theorem start_inv (seg : ι → Segmentation) (size : Nat) (encode : μ → List β) (ms : ι → List μ) :
    (Listener.start fun i => (ms i).flatMap encode).Inv seg size encode ms := by
  constructor
  · exact fun i => Nat.zero_le _
  · exact fun i => rfl
  · exact fun i => rfl
  · exact fun i j hj => absurd hj (Nat.not_lt_zero j)

/-- When every connection is read often enough, a listener that has not given up has dispatched all
frames of the connections. -/
theorem listen_received (hsize : ∀ m, (encode m).length = size) (hpos : 0 < size)
    (hdecode : ∀ m, decode (encode m) = m) (hfair : ∀ i, (ms i).length ≤ schedule.count i)
    (hok : ((Listener.start fun i => (ms i).flatMap encode).listen seg size decode schedule).failed = false)
    (i : ι) :
    ((Listener.start fun i => (ms i).flatMap encode).listen seg size decode schedule).received i = ms i ∧
      ∀ j < (ms i).length, size ≤ (seg i).size j := by
  obtain ⟨hinv, hle⟩ := listen_inv hsize hpos hdecode (start_inv seg size encode ms) hok
  have hall : ((Listener.start fun i => (ms i).flatMap encode).listen seg size decode schedule).recvs i =
      (ms i).length := by
    apply Nat.le_antisymm (hinv.recvs_le i)
    have hfair := hfair i
    calc (ms i).length = min (0 + schedule.count i) (ms i).length := by omega
      _ ≤ _ := hle i
  constructor
  · rw [hinv.received, hall, List.take_length]
  · rw [← hall]
    exact hinv.whole i

/-- It gives up exactly when some `recv` does not return a whole frame. -/
theorem listen_ok_iff (seg : ι → Segmentation) (ms : ι → List μ)
    (hsize : ∀ m, (encode m).length = size) (hpos : 0 < size) (hdecode : ∀ m, decode (encode m) = m)
    (hfair : ∀ i, (ms i).length ≤ schedule.count i) :
    ((Listener.start fun i => (ms i).flatMap encode).listen seg size decode schedule).failed = false ↔
      ∀ i, ∀ j < (ms i).length, size ≤ (seg i).size j := by
  constructor
  · intro hok i
    exact (listen_received hsize hpos hdecode hfair hok i).2
  · intro hwhole
    exact listen_whole hsize hpos hdecode (start_inv seg size encode ms) rfl fun i _ => hwhole i

end Listening

end Dogee.Framing
