import Dogee.DataMap

/-!
# When `Map` meets its purpose

The starts of the tasks are the multiples of `avg`, taken with 32 bits. Up to the largest multiple below
`2^32` they are exact, and the task that covers an index is the quotient of the index by `avg`; so the
ranges are disjoint, and no task reads or writes where another one writes. Beyond it the last range runs
over the end of the indices.
-/

namespace Dogee.DData

open Transition SharedArray

/-- The tasks that the loop, or the end, has still to wait for. -/
def State.unwaited (s : State) : List Nat :=
  match s.place with
  | .loop => s.events
  | .waiting rest _ => rest
  | .returned _ => []

/-- The loop has ended. -/
def State.ended (s : State) : Bool :=
  match s.place with
  | .waiting _ true => true
  | .returned _ => true
  | _ => false

section Lists

variable {α : Type*} {l : List α} {x y : α} {k j : Nat}

theorem getElem?_concat_cases (h : (l ++ [x])[k]? = some y) : l[k]? = some y ∨ k = l.length ∧ y = x := by
  rcases Nat.lt_trichotomy k l.length with hlt | rfl | hgt
  · rw [List.getElem?_append_left hlt] at h
    exact Or.inl h
  · rw [List.getElem?_concat_length] at h
    exact Or.inr ⟨rfl, (Option.some.inj h).symm⟩
  · rw [List.getElem?_eq_none (by rw [List.length_append]; exact hgt)] at h
    cases h

theorem getElem?_set_cases (h : (l.set k x)[j]? = some y) : j ≠ k ∧ l[j]? = some y ∨ j = k ∧ y = x := by
  by_cases hj : j = k
  · obtain ⟨hlt, hget⟩ := List.getElem?_eq_some_iff.mp h
    rw [List.length_set] at hlt
    rw [hj, List.getElem?_set_self (hj ▸ hlt)] at h
    exact Or.inr ⟨hj, (Option.some.inj h).symm⟩
  · rw [List.getElem?_set_ne (Ne.symm hj)] at h
    exact Or.inl ⟨hj, h⟩

/-- Another element is still there after one has been replaced. -/
theorem mem_set_of_ne (hx : l[k]? = some x) (hy : y ∈ l) (hne : y ≠ x) (z : α) : y ∈ l.set k z := by
  obtain ⟨j, hj⟩ := List.mem_iff_getElem?.mp hy
  have hjk : k ≠ j := by
    rintro rfl
    exact hne (Option.some.inj (hj.symm.trans hx))
  apply List.mem_of_getElem?
  rw [List.getElem?_set_ne hjk]
  exact hj

end Lists

namespace MapCall

variable {c : MapCall} {m : Memory} {s s' : State} {a : Act}

/-- What each step does. -/
inductive Moves (c : MapCall) (s : State) : Act → State → Prop
  | submit {pool : Events} (hplace : s.place = .loop) (hlt : s.i < c.data.len)
      (hfound : s.pool.findEvent (maxWaitEvents c.threadPoolMaxWait) = some pool) :
      Moves c s .submit (c.submitted s pool)
  | wait {k : Nat} {rest : List Nat} {last : Bool} {t : Task} (hplace : s.place = .waiting (k :: rest) last)
      (ht : s.tasks[k]? = some t) (hwritten : t.progress = .written) :
      Moves c s .wait { s with pool := { s.pool with queued := s.pool.queued + 1 }, place := .waiting rest last }
  | clear (hplace : s.place = .waiting [] false) :
      Moves c s .clear { s with i := c.next s.i, events := [], place := .loop }
  | leave (hplace : s.place = .loop) (hge : c.data.len ≤ s.i) :
      Moves c s .leave { s with place := .waiting s.events true }
  | ret (hplace : s.place = .waiting [] true) :
      Moves c s .ret { s with place := .returned ⟨c.outArr, c.outLen⟩ }
  | copyTo {k start step : Nat} (ht : s.tasks[k]? = some ⟨start, step, .submitted⟩) :
      Moves c s (.copyTo k) { s with tasks := s.tasks.set k ⟨start, step, .read (s.memory.read c.data.arr start step)⟩ }
  | copyFrom {k start step : Nat} {buf : List Word} (ht : s.tasks[k]? = some ⟨start, step, .read buf⟩) :
      Moves c s (.copyFrom k) { s with
        memory := s.memory.write c.outArr start ((buf.map c.fnarg).take step)
        tasks := s.tasks.set k ⟨start, step, .written⟩ }

theorem moves_of_step (h : c.step s a = some s') : Moves c s a s' := by
  cases a with
  | submit =>
      rw [step] at h
      split at h
      · rename_i hplace
        obtain ⟨pool, hfound, rfl⟩ := Option.map_eq_some_iff.mp h
        exact .submit hplace.1 hplace.2 hfound
      · cases h
  | wait =>
      rw [step] at h
      split at h
      · rename_i k rest last hplace
        split at h
        · rename_i hwritten
          obtain ⟨t, ht, hwritten⟩ := Option.map_eq_some_iff.mp hwritten
          obtain rfl := Option.some.inj h
          exact .wait hplace ht hwritten
        · cases h
      · cases h
  | clear =>
      rw [step] at h
      split at h
      · obtain rfl := Option.some.inj h
        exact .clear ‹_›
      · cases h
  | leave =>
      rw [step] at h
      split at h
      · rename_i hplace
        obtain rfl := Option.some.inj h
        exact .leave hplace.1 (Nat.le_of_not_lt hplace.2)
      · cases h
  | ret =>
      rw [step] at h
      split at h
      · obtain rfl := Option.some.inj h
        exact .ret ‹_›
      · cases h
  | copyTo k =>
      rw [step] at h
      split at h
      · obtain rfl := Option.some.inj h
        exact .copyTo ‹_›
      · cases h
  | copyFrom k =>
      rw [step] at h
      split at h
      · obtain rfl := Option.some.inj h
        exact .copyFrom ‹_›
      · cases h

/-- The start of the next task. -/
def upcoming (c : MapCall) (s : State) : Nat :=
  match s.place with
  | .waiting _ false => c.next s.i
  | _ => s.i

section Submitted

variable {pool : Events}

theorem submitted_eq :
    c.submitted s pool =
      if c.BatchEnds (s.events.length + 1) then
        { s with
          tasks := s.tasks ++ [Task.mk s.i (c.stepAt s.i) .submitted]
          events := s.events ++ [s.tasks.length]
          pool := pool
          place := .waiting (s.events ++ [s.tasks.length]) false }
      else
        { s with
          tasks := s.tasks ++ [Task.mk s.i (c.stepAt s.i) .submitted]
          events := s.events ++ [s.tasks.length]
          pool := pool
          i := c.next s.i } := by
  simp only [submitted, List.length_append, List.length_singleton]

@[simp] theorem submitted_tasks :
    (c.submitted s pool).tasks = s.tasks ++ [Task.mk s.i (c.stepAt s.i) .submitted] := by
  rw [submitted_eq]
  split <;> rfl

@[simp] theorem submitted_memory : (c.submitted s pool).memory = s.memory := by
  rw [submitted_eq]
  split <;> rfl

@[simp] theorem submitted_pool : (c.submitted s pool).pool = pool := by
  rw [submitted_eq]
  split <;> rfl

@[simp] theorem submitted_events : (c.submitted s pool).events = s.events ++ [s.tasks.length] := by
  rw [submitted_eq]
  split <;> rfl

theorem submitted_place (hplace : s.place = .loop) :
    (c.submitted s pool).place = .waiting (s.events ++ [s.tasks.length]) false ∧ c.BatchEnds (s.events.length + 1) ∨
      (c.submitted s pool).place = .loop ∧ ¬c.BatchEnds (s.events.length + 1) := by
  rw [submitted_eq]
  split
  · exact Or.inl ⟨rfl, ‹_›⟩
  · exact Or.inr ⟨hplace, ‹_›⟩

theorem submitted_unwaited (hplace : s.place = .loop) :
    (c.submitted s pool).unwaited = s.events ++ [s.tasks.length] := by
  rw [State.unwaited]
  rcases @submitted_place c s pool hplace with ⟨h, -⟩ | ⟨h, -⟩
  · rw [h]
  · rw [h]
    exact submitted_events

theorem submitted_upcoming (hplace : s.place = .loop) : c.upcoming (c.submitted s pool) = c.next s.i := by
  rw [submitted_eq]
  split
  · rfl
  · rw [upcoming, hplace]

end Submitted

/-- The ranges are those of the loop, with `avg` added in 32 bits. -/
structure Split (c : MapCall) (s : State) : Prop where
  range : ∀ k t, s.tasks[k]? = some t →
    t.start = k * c.avg % two32 ∧ t.start < c.data.len ∧ t.step = c.stepAt t.start
  upcoming : c.upcoming s = s.tasks.length * c.avg % two32
  ended : s.ended = true → c.data.len ≤ s.i

theorem next_mod (k : Nat) : c.next (k * c.avg % two32) = (k + 1) * c.avg % two32 := by
  rw [next, Nat.mod_add_mod, Nat.succ_mul]

/-- A task whose progress changes keeps its range. -/
theorem Split.set {k start step : Nat} {p p' : Progress} {m : Memory} (h : c.Split s)
    (ht : s.tasks[k]? = some ⟨start, step, p⟩) :
    c.Split { s with memory := m, tasks := s.tasks.set k ⟨start, step, p'⟩ } := by
  refine ⟨?_, ?_, h.ended⟩
  · intro j t hj
    rcases getElem?_set_cases hj with ⟨-, hj⟩ | ⟨rfl, rfl⟩
    · exact h.range j t hj
    · exact h.range j ⟨start, step, p⟩ ht
  · rw [List.length_set]
    exact h.upcoming

theorem Split.next (h : c.Split s) (hmove : c.Moves s a s') : c.Split s' := by
  cases hmove with
  | @submit pool hplace hlt hfound =>
      have hi : s.i = s.tasks.length * c.avg % two32 := by
        rw [← h.upcoming, MapCall.upcoming, hplace]
      refine ⟨?_, ?_, ?_⟩
      · intro k t ht
        rw [submitted_tasks] at ht
        rcases getElem?_concat_cases ht with ht | ⟨rfl, rfl⟩
        · exact h.range k t ht
        · exact ⟨hi, hlt, rfl⟩
      · rw [submitted_upcoming hplace, submitted_tasks, List.length_append, hi, next_mod]
        rfl
      · intro hended
        rcases @submitted_place c s pool hplace with ⟨hnew, -⟩ | ⟨hnew, -⟩
        · rw [State.ended, hnew] at hended
          cases hended
        · rw [State.ended, hnew] at hended
          cases hended
  | @wait k rest last t hplace ht hwritten =>
      refine ⟨h.range, ?_, ?_⟩
      · rw [← h.upcoming, MapCall.upcoming, MapCall.upcoming, hplace]
        cases last <;> rfl
      · intro hended
        apply h.ended
        rw [State.ended, hplace]
        cases last with
        | true => rfl
        | false => cases hended
  | clear hplace =>
      refine ⟨h.range, ?_, ?_⟩
      · rw [← h.upcoming, MapCall.upcoming, MapCall.upcoming, hplace]
      · intro hended
        cases hended
  | leave hplace hge =>
      refine ⟨h.range, ?_, fun _ => hge⟩
      rw [← h.upcoming, MapCall.upcoming, MapCall.upcoming, hplace]
  | ret hplace =>
      refine ⟨h.range, ?_, fun _ => h.ended ?_⟩
      · rw [← h.upcoming, MapCall.upcoming, MapCall.upcoming, hplace]
      · rw [State.ended, hplace]
  | copyTo ht => exact h.set ht
  | copyFrom ht => exact h.set ht

/-- How many times `avg` is added before the 32 bits run over. -/
def capacity (c : MapCall) : Nat := (two32 - 1) / c.avg

/-- The loop reaches the end of the indices before the 32 bits run over. -/
def Fits (c : MapCall) : Prop := c.data.len ≤ c.capacity * c.avg

theorem mul_lt_two32 {k : Nat} (hk : k ≤ c.capacity) : k * c.avg < two32 := by
  have hle : k * c.avg ≤ two32 - 1 :=
    calc
      k * c.avg ≤ c.capacity * c.avg := Nat.mul_le_mul_right _ hk
      _ ≤ two32 - 1 := Nat.div_mul_le_self _ _
  have hpos : 0 < two32 := by decide
  omega

theorem Fits.avg_pos (h : c.Fits) : 0 < c.avg := by
  apply Nat.pos_of_ne_zero
  intro hzero
  have hlen := c.len_pos
  rw [Fits, hzero, Nat.mul_zero] at h
  omega

theorem Fits.lt_capacity (h : c.Fits) {k : Nat} (hk : k * c.avg < c.data.len) : k < c.capacity :=
  Nat.lt_of_mul_lt_mul_right (Nat.lt_of_lt_of_le hk h)

/-- The end of the range that starts at a multiple of `avg`. -/
theorem Fits.end_eq (h : c.Fits) {k : Nat} (hk : k * c.avg < c.data.len) :
    k * c.avg + c.stepAt (k * c.avg) = min ((k + 1) * c.avg) c.data.len := by
  have hnext : c.next (k * c.avg) = (k + 1) * c.avg := by
    rw [MapCall.next, ← Nat.succ_mul, Nat.mod_eq_of_lt (mul_lt_two32 (h.lt_capacity hk))]
  rw [stepAt, hnext, Nat.succ_mul]
  split <;> omega

/-- No range has started beyond the capacity. -/
structure Tiled (c : MapCall) (s : State) : Prop extends c.Split s where
  count_le : s.tasks.length ≤ c.capacity

theorem Tiled.next (hfits : c.Fits) (h : c.Tiled s) (hmove : c.Moves s a s') : c.Tiled s' := by
  refine ⟨h.toSplit.next hmove, ?_⟩
  cases hmove with
  | submit hplace hlt _ =>
      have hi : s.i = s.tasks.length * c.avg := by
        rw [← Nat.mod_eq_of_lt (mul_lt_two32 h.count_le), ← h.upcoming, MapCall.upcoming, hplace]
      rw [submitted_tasks, List.length_append]
      exact hfits.lt_capacity (hi ▸ hlt)
  | copyTo _ | copyFrom _ =>
      rw [List.length_set]
      exact h.count_le
  | _ => exact h.count_le

/-- The task that covers an index is the quotient of the index by `avg`. -/
theorem Tiled.covers_iff (hfits : c.Fits) (h : c.Tiled s) {k : Nat} {t : Task} (ht : s.tasks[k]? = some t) (x : Nat) :
    t.Covers x ↔ x < c.data.len ∧ x / c.avg = k := by
  obtain ⟨hk, -⟩ := List.getElem?_eq_some_iff.mp ht
  obtain ⟨hstart, hlt, hstep⟩ := h.range k t ht
  rw [Nat.mod_eq_of_lt (mul_lt_two32 (Nat.le_trans (Nat.le_of_lt hk) h.count_le))] at hstart
  have hend : t.start + t.step = min ((k + 1) * c.avg) c.data.len := by
    rw [hstep, hstart]
    exact hfits.end_eq (hstart ▸ hlt)
  have hpos := hfits.avg_pos
  rw [Task.Covers, hend, hstart, Nat.div_eq_iff hpos, Nat.succ_mul]
  omega

theorem Tiled.disjoint (hfits : c.Fits) (h : c.Tiled s) {k k' : Nat} {t t' : Task} (ht : s.tasks[k]? = some t)
    (ht' : s.tasks[k']? = some t') {x : Nat} (hx : t.Covers x) (hx' : t'.Covers x) : k = k' := by
  rw [← ((h.covers_iff hfits ht x).mp hx).2]
  exact ((h.covers_iff hfits ht' x).mp hx').2

theorem Tiled.partition (hfits : c.Fits) (h : c.Tiled s) (hended : s.ended = true) : Partition s.tasks c.data.len := by
  have hi : s.i = s.tasks.length * c.avg := by
    rw [← Nat.mod_eq_of_lt (mul_lt_two32 h.count_le), ← h.upcoming, MapCall.upcoming]
    split
    · rename_i hplace
      rw [State.ended, hplace] at hended
      cases hended
    · rfl
  constructor
  · intro x
    constructor
    · rintro ⟨t, ht, hx⟩
      obtain ⟨k, hk⟩ := List.mem_iff_getElem?.mp ht
      exact ((h.covers_iff hfits hk x).mp hx).1
    · intro hx
      have hlt : x / c.avg < s.tasks.length := by
        rw [Nat.div_lt_iff_lt_mul hfits.avg_pos, ← hi]
        exact Nat.lt_of_lt_of_le hx (h.ended hended)
      have hk := List.getElem?_eq_getElem hlt
      exact ⟨s.tasks[x / c.avg], List.getElem_mem hlt, (h.covers_iff hfits hk x).mpr ⟨hx, rfl⟩⟩
  · rw [List.pairwise_iff_getElem]
    intro k k' hk hk' hlt x hboth
    have heq := h.disjoint hfits (List.getElem?_eq_getElem hk) (List.getElem?_eq_getElem hk') hboth.1 hboth.2
    omega

/-- The memory after a task has copied its results. -/
theorem write_results {mem : Memory} {buf : List Word} {start step : Nat} (hbuf : buf = m.read c.data.arr start step)
    (key x : Nat) :
    mem.write c.outArr start ((buf.map c.fnarg).take step) key x =
      if key = c.outArr ∧ start ≤ x ∧ x < start + step then c.fnarg (m c.data.arr x) else mem key x := by
  have hlength : (buf.map c.fnarg).length = step := by
    rw [List.length_map, hbuf, Memory.length_read]
  rw [List.take_of_length_le (Nat.le_of_eq hlength), Memory.write, hlength]
  split
  · rename_i hin
    have hlt : x - start < step := by omega
    have hread : buf[x - start]? = some (m c.data.arr x) := by
      rw [hbuf, Memory.getElem?_read hlt, Nat.add_sub_cancel' hin.2.1]
    rw [List.getD_eq_getElem?_getD, List.getElem?_map, hread]
    rfl
  · rfl

/-- The tasks that are done have written their results and nothing else; the buffers have what was there
at the beginning. -/
structure Worked (c : MapCall) (m : Memory) (s : State) : Prop where
  results : ∀ t ∈ s.tasks, t.progress = .written → ∀ x, t.Covers x →
    s.memory c.outArr x = c.fnarg (m c.data.arr x)
  kept : ∀ key x, ¬(key = c.outArr ∧ ∃ t ∈ s.tasks, t.progress = .written ∧ t.Covers x) →
    s.memory key x = m key x
  buffers : ∀ t ∈ s.tasks, ∀ buf, t.progress = .read buf → buf = m.read c.data.arr t.start t.step

/-- A task that is done covers no index of one that is not. -/
theorem Tiled.not_covers (hfits : c.Fits) (h : c.Tiled s) {k : Nat} {t u : Task} (hu : s.tasks[k]? = some u)
    (hpending : u.progress ≠ .written) (ht : t ∈ s.tasks) (hwritten : t.progress = .written) {x : Nat}
    (hx : t.Covers x) : ¬u.Covers x := by
  intro hux
  obtain ⟨j, hj⟩ := List.mem_iff_getElem?.mp ht
  obtain rfl := h.disjoint hfits hj hu hx hux
  obtain rfl : u = t := Option.some.inj (hu.symm.trans hj)
  exact hpending hwritten

theorem mem_set_of_written {tasks : List Task} {k : Nat} {t u : Task} (hu : tasks[k]? = some u)
    (hpending : u.progress ≠ .written) (ht : t ∈ tasks) (hwritten : t.progress = .written) (v : Task) :
    t ∈ tasks.set k v := by
  apply mem_set_of_ne hu ht
  rintro rfl
  exact hpending hwritten

theorem Worked.submit (h : c.Worked m s) (pool : Events) : c.Worked m (c.submitted s pool) := by
  refine ⟨?_, ?_, ?_⟩
  · intro t ht hwritten x hx
    rw [submitted_tasks, List.mem_append, List.mem_singleton] at ht
    rw [submitted_memory]
    rcases ht with ht | rfl
    · exact h.results t ht hwritten x hx
    · cases hwritten
  · intro key x hnot
    rw [submitted_memory]
    apply h.kept
    rintro ⟨hkey, t, ht, hdone⟩
    refine hnot ⟨hkey, t, ?_, hdone⟩
    rw [submitted_tasks]
    exact List.mem_append_left _ ht
  · intro t ht buf hread
    rw [submitted_tasks, List.mem_append, List.mem_singleton] at ht
    rcases ht with ht | rfl
    · exact h.buffers t ht buf hread
    · cases hread

theorem Worked.copyTo (hfits : c.Fits) (htiled : c.Tiled s) (h : c.Worked m s) {k start step : Nat}
    (ht : s.tasks[k]? = some ⟨start, step, .submitted⟩) :
    c.Worked m
      { s with tasks := s.tasks.set k ⟨start, step, .read (s.memory.read c.data.arr start step)⟩ } := by
  have hread : s.memory.read c.data.arr start step = m.read c.data.arr start step := by
    apply List.map_congr_left
    intro i hi
    apply h.kept
    rintro ⟨-, t, hmem, hwritten, hx⟩
    -- Another task is done with this index; the ranges are disjoint.
    apply htiled.not_covers hfits ht (by simp) hmem hwritten hx
    exact ⟨Nat.le_add_right _ _, Nat.add_lt_add_left (List.mem_range.mp hi) _⟩
  refine ⟨?_, ?_, ?_⟩
  · intro t hmem hwritten x hx
    rcases List.mem_or_eq_of_mem_set hmem with hmem | rfl
    · exact h.results t hmem hwritten x hx
    · cases hwritten
  · intro key x hnot
    apply h.kept
    rintro ⟨hkey, t, hmem, hwritten, hx⟩
    exact hnot ⟨hkey, t, mem_set_of_written ht (by simp) hmem hwritten _, hwritten, hx⟩
  · intro t hmem buf hbuf
    rcases List.mem_or_eq_of_mem_set hmem with hmem | rfl
    · exact h.buffers t hmem buf hbuf
    · cases hbuf
      exact hread

theorem Worked.copyFrom (hfits : c.Fits) (htiled : c.Tiled s) (h : c.Worked m s) {k start step : Nat}
    {buf : List Word} (ht : s.tasks[k]? = some ⟨start, step, .read buf⟩) :
    c.Worked m
      { s with
        memory := s.memory.write c.outArr start ((buf.map c.fnarg).take step)
        tasks := s.tasks.set k ⟨start, step, .written⟩ } := by
  have hbuf : buf = m.read c.data.arr start step := h.buffers _ (List.mem_of_getElem? ht) buf rfl
  have hlt : k < s.tasks.length := (List.getElem?_eq_some_iff.mp ht).1
  refine ⟨?_, ?_, ?_⟩
  · intro t hmem hwritten x hx
    refine (write_results hbuf _ _).trans ?_
    rcases List.mem_or_eq_of_mem_set hmem with hmem | rfl
    · rw [if_neg fun hin => htiled.not_covers hfits ht (by simp) hmem hwritten hx hin.2]
      exact h.results t hmem hwritten x hx
    · exact if_pos ⟨rfl, hx⟩
  · intro key x hnot
    refine (write_results hbuf _ _).trans ?_
    rw [if_neg fun hin => hnot ⟨hin.1, _, List.mem_set hlt _, rfl, hin.2⟩]
    apply h.kept
    rintro ⟨hkey, t, hmem, hwritten, hx⟩
    exact hnot ⟨hkey, t, mem_set_of_written ht (by simp) hmem hwritten _, hwritten, hx⟩
  · intro t hmem buf' hbuf'
    rcases List.mem_or_eq_of_mem_set hmem with hmem | rfl
    · exact h.buffers t hmem buf' hbuf'
    · cases hbuf'

theorem Worked.next (hfits : c.Fits) (htiled : c.Tiled s) (h : c.Worked m s) (hmove : c.Moves s a s') :
    c.Worked m s' := by
  cases hmove with
  | submit _ _ _ => exact h.submit _
  | copyTo ht => exact h.copyTo hfits htiled ht
  | copyFrom ht => exact h.copyFrom hfits htiled ht
  | _ => exact ⟨h.results, h.kept, h.buffers⟩

end MapCall

end Dogee.DData
