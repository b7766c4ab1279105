import Dogee.DataMapRuns

/-!
# `Map` ends

The events of the pool that are not queued are those of the tasks that have still to be waited for, and the
loop waits before the pool has none left. Each step lowers a measure, and as long as `Map` has not returned
there is a step to take.
-/

namespace Dogee.DData

open Transition SharedArray

/-- The steps that a task has still to take. -/
def Progress.left : Progress → Nat
  | submitted => 2
  | read _ => 1
  | written => 0

/-- A bound for the steps of `Map` itself, but for the submissions and the waits. -/
def Place.left : Place → Nat
  | loop => 2
  | waiting _ false => 3
  | waiting _ true => 1
  | returned _ => 0

namespace Events

variable {limit : Nat} {pool pool' : Events}

theorem findEvent_cases (h : pool.findEvent limit = some pool') :
    pool.queued = 0 ∧ pool'.queued = 0 ∧ pool.made < limit ∧ pool'.made = pool.made + 1 ∨
      pool.queued = pool'.queued + 1 ∧ pool'.made = pool.made := by
  rw [findEvent] at h
  split at h
  · rename_i hnew
    obtain rfl := Option.some.inj h
    exact Or.inl ⟨hnew.1, hnew.1, hnew.2, rfl⟩
  · split at h
    · rename_i hpos
      obtain rfl := Option.some.inj h
      exact Or.inr ⟨(Nat.succ_pred_eq_of_pos hpos).symm, rfl⟩
    · cases h

theorem exists_findEvent (h : 0 < pool.queued ∨ pool.made < limit) : ∃ pool', pool.findEvent limit = some pool' := by
  rw [findEvent]
  split
  · exact ⟨_, rfl⟩
  · rename_i hnot
    rw [if_pos (by omega)]
    exact ⟨_, rfl⟩

end Events

namespace MapCall

variable {c : MapCall} {m : Memory} {s s' : State} {a : Act}

/-- Every task that is not done is still waited for, and the pool has all other events. -/
structure Booked (c : MapCall) (s : State) : Prop where
  owed : ∀ k t, s.tasks[k]? = some t → t.progress ≠ .written → k ∈ s.unwaited
  below : ∀ k ∈ s.unwaited, k < s.tasks.length
  balanced : s.unwaited.length + s.pool.queued = s.pool.made
  made_le : s.pool.made ≤ maxWaitEvents c.threadPoolMaxWait
  batch : s.place = .loop → s.events = [] ∨ (s.events.length : Int) < c.threadPoolMaxWait - 20

theorem Booked.submit (h : c.Booked s) {pool : Events} (hplace : s.place = .loop)
    (hfound : s.pool.findEvent (maxWaitEvents c.threadPoolMaxWait) = some pool) : c.Booked (c.submitted s pool) := by
  have hbefore : s.unwaited = s.events := by rw [State.unwaited, hplace]
  have howed := h.owed
  have hbelow := h.below
  have hbalanced := h.balanced
  rw [hbefore] at howed hbelow hbalanced
  refine ⟨?_, ?_, ?_, ?_, ?_⟩
  · intro k t ht hpending
    rw [submitted_unwaited hplace, List.mem_append, List.mem_singleton]
    rw [submitted_tasks] at ht
    rcases getElem?_concat_cases ht with ht | ⟨rfl, -⟩
    · exact Or.inl (howed k t ht hpending)
    · exact Or.inr rfl
  · intro k hk
    rw [submitted_unwaited hplace, List.mem_append, List.mem_singleton] at hk
    rw [submitted_tasks, List.length_append, List.length_singleton]
    rcases hk with hk | rfl
    · exact Nat.lt_succ_of_lt (hbelow k hk)
    · exact Nat.lt_succ_self _
  · rw [submitted_unwaited hplace, submitted_pool, List.length_append, List.length_singleton]
    rcases Events.findEvent_cases hfound with hnew | htaken <;> omega
  · have hle := h.made_le
    rw [submitted_pool]
    rcases Events.findEvent_cases hfound with hnew | htaken <;> omega
  · intro hloop
    rcases @submitted_place c s pool hplace with ⟨hnew, -⟩ | ⟨-, hends⟩
    · rw [hnew] at hloop
      cases hloop
    · right
      rw [submitted_events, List.length_append, List.length_singleton]
      rw [BatchEnds, not_or] at hends
      rcases h.batch hplace with hnil | hlt
      · rw [hnil] at hends ⊢
        simp only [List.length_nil] at hends ⊢
        omega
      · omega

/-- A task that is not done goes on. -/
theorem Booked.set (h : c.Booked s) {k start step : Nat} {p p' : Progress} {m : Memory}
    (ht : s.tasks[k]? = some ⟨start, step, p⟩) (hp : p ≠ .written) :
    c.Booked { s with memory := m, tasks := s.tasks.set k ⟨start, step, p'⟩ } := by
  refine ⟨?_, ?_, h.balanced, h.made_le, h.batch⟩
  · intro j u hu hpending
    rcases getElem?_set_cases hu with ⟨-, hu⟩ | ⟨rfl, -⟩
    · exact h.owed j u hu hpending
    · exact h.owed j _ ht hp
  · intro j hj
    rw [List.length_set]
    exact h.below j hj

/-- `Map` goes to another place behind the loop. -/
theorem Booked.place {p : Place} (h : c.Booked s) (hsame : State.unwaited { s with place := p } = s.unwaited)
    (hp : p ≠ .loop) : c.Booked { s with place := p } := by
  refine ⟨?_, ?_, ?_, h.made_le, fun hloop => absurd hloop hp⟩
  · rw [hsame]
    exact h.owed
  · rw [hsame]
    exact h.below
  · rw [hsame]
    exact h.balanced

theorem Booked.next (h : c.Booked s) (hmove : c.Moves s a s') : c.Booked s' := by
  cases hmove with
  | submit hplace _ hfound => exact h.submit hplace hfound
  | @wait k rest last t hplace ht hwritten =>
      have hbefore : s.unwaited = k :: rest := by rw [State.unwaited, hplace]
      have hbalanced := h.balanced
      refine ⟨?_, ?_, ?_, h.made_le, ?_⟩
      · intro j u hu hpending
        have hmem := h.owed j u hu hpending
        rw [hbefore] at hmem
        rcases List.mem_cons.mp hmem with rfl | hmem
        · obtain rfl : t = u := Option.some.inj (ht.symm.trans hu)
          exact absurd hwritten hpending
        · exact hmem
      · intro j hj
        apply h.below
        rw [hbefore]
        exact List.mem_cons_of_mem _ hj
      · rw [hbefore, List.length_cons] at hbalanced
        change rest.length + (s.pool.queued + 1) = s.pool.made
        omega
      · intro hloop
        cases hloop
  | clear hplace =>
      have hbefore : s.unwaited = [] := by rw [State.unwaited, hplace]
      have howed := h.owed
      have hbalanced := h.balanced
      rw [hbefore] at howed hbalanced
      exact ⟨howed, fun k hk => absurd hk List.not_mem_nil, hbalanced, h.made_le, fun _ => Or.inl rfl⟩
  | leave hplace _ =>
      refine h.place ?_ ?_
      · rw [State.unwaited, State.unwaited, hplace]
      · intro hloop
        cases hloop
  | ret hplace =>
      refine h.place ?_ ?_
      · rw [State.unwaited, State.unwaited, hplace]
      · intro hloop
        cases hloop
  | copyTo ht =>
      refine h.set ht ?_
      intro hwritten
      cases hwritten
  | copyFrom ht =>
      refine h.set ht ?_
      intro hwritten
      cases hwritten

/-- The steps still to take, at most. -/
def left (c : MapCall) (s : State) : Nat :=
  6 * (c.capacity - s.tasks.length) + (s.tasks.map fun t => t.progress.left).sum + s.unwaited.length + s.place.left

theorem maxWaitEvents_pos (h : c.threadPoolMaxWait ≠ 0) : 0 < maxWaitEvents c.threadPoolMaxWait := by
  have hge := c.maxWait_ge
  have hlt := c.maxWait_lt
  rw [maxWaitEvents, two32]
  omega

/-- Before the last `Wait`, some step can be taken. -/
theorem Booked.proceeds (hmax : c.threadPoolMaxWait ≠ 0) (h : c.Booked s) : s.Returned ∨ ∃ a, (c.step s a).isSome := by
  cases hplace : s.place with
  | loop =>
      right
      by_cases hlt : s.i < c.data.len
      · have hroom : 0 < s.pool.queued ∨ s.pool.made < maxWaitEvents c.threadPoolMaxWait := by
          have hbefore : s.unwaited = s.events := by rw [State.unwaited, hplace]
          have hbalanced := h.balanced
          rw [hbefore] at hbalanced
          rcases h.batch hplace with hnil | hbatch
          · have hpos := maxWaitEvents_pos hmax
            rw [hnil, List.length_nil] at hbalanced
            omega
          · have hbound := c.maxWait_lt
            rw [maxWaitEvents, two32]
            omega
        obtain ⟨pool, hfound⟩ := Events.exists_findEvent hroom
        refine ⟨.submit, ?_⟩
        rw [step, if_pos ⟨hplace, hlt⟩, hfound]
        rfl
      · refine ⟨.leave, ?_⟩
        rw [step, if_pos ⟨hplace, hlt⟩]
        rfl
  | waiting rest last =>
      right
      cases rest with
      | nil =>
          cases last with
          | false =>
              refine ⟨.clear, ?_⟩
              simp only [step, hplace, Option.isSome_some]
          | true =>
              refine ⟨.ret, ?_⟩
              simp only [step, hplace, Option.isSome_some]
      | cons k rest =>
          have hk : k < s.tasks.length := by
            apply h.below
            rw [State.unwaited, hplace]
            exact List.mem_cons_self
          obtain ⟨⟨start, len, progress⟩, ht⟩ : ∃ t, s.tasks[k]? = some t := ⟨_, List.getElem?_eq_getElem hk⟩
          cases progress with
          | submitted =>
              refine ⟨.copyTo k, ?_⟩
              simp only [step, ht, Option.isSome_some]
          | read buf =>
              refine ⟨.copyFrom k, ?_⟩
              simp only [step, ht, Option.isSome_some]
          | written =>
              refine ⟨.wait, ?_⟩
              simp only [step, hplace, ht, Option.map_some, if_true, Option.isSome_some]
  | returned data => exact Or.inl ⟨data, hplace⟩

/-- What holds all along a run that reaches the end of the indices in time. -/
structure Good (c : MapCall) (m : Memory) (s : State) : Prop where
  tiled : c.Tiled s
  worked : c.Worked m s
  booked : c.Booked s

theorem Good.next (hfits : c.Fits) (h : c.Good m s) (hstep : c.step s a = some s') : c.Good m s' := by
  have hmove := moves_of_step hstep
  exact ⟨h.tiled.next hfits hmove, h.worked.next hfits h.tiled hmove, h.booked.next hmove⟩

theorem ended_of_returned (h : s.Returned) : s.ended = true := by
  obtain ⟨data, hplace⟩ := h
  rw [State.ended, hplace]

/-- At the end every task is done. -/
theorem Booked.written (h : c.Booked s) (hreturned : s.Returned) {t : Task} (ht : t ∈ s.tasks) :
    t.progress = .written := by
  obtain ⟨data, hplace⟩ := hreturned
  obtain ⟨k, hk⟩ := List.mem_iff_getElem?.mp ht
  by_contra hpending
  have hmem := h.owed k t hk hpending
  rw [State.unwaited, hplace] at hmem
  cases hmem

theorem Good.mapped (hfits : c.Fits) (h : c.Good m s) (hreturned : s.Returned) {i : Nat} (hi : i < c.data.len) :
    s.memory c.outArr i = c.fnarg (m c.data.arr i) := by
  have hpartition := h.tiled.partition hfits (ended_of_returned hreturned)
  obtain ⟨t, ht, hcovers⟩ := (hpartition.1 i).mpr hi
  exact h.worked.results t ht (h.booked.written hreturned ht) i hcovers

theorem Good.unchanged (hfits : c.Fits) (h : c.Good m s) (hreturned : s.Returned) {key i : Nat}
    (hother : ¬(key = c.outArr ∧ i < c.data.len)) : s.memory key i = m key i := by
  have hpartition := h.tiled.partition hfits (ended_of_returned hreturned)
  apply h.worked.kept
  rintro ⟨hkey, t, ht, -, hcovers⟩
  exact hother ⟨hkey, (hpartition.1 i).mp ⟨t, ht, hcovers⟩⟩

end MapCall

end Dogee.DData
