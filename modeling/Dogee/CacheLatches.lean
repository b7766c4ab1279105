import Dogee.CacheThreads
import Mathlib.Algebra.Order.BigOperators.Group.Finset
import Mathlib.Algebra.BigOperators.Ring.Finset

/-!
# The locks of a node and the steps of a call

Every lock of a node is held by a thread that is at a place where it goes on to release it. A call that
finds its block given to another address starts again at the label `MISS`; each time this costs another
call its only block, so that the steps that are left to the threads of a node are bounded together.
-/

namespace Dogee.CacheThreads

/-- The thread has the write lock of the block. -/
def Phase.writes (ph : Phase) (b : Fin cacheSize) : Prop :=
  match ph with
  | .writingBack _ b' _ => b' = b
  | .filling _ b' _ => b' = b
  | .filled _ b' => b' = b
  | _ => False

/-- The thread has the read lock of the block. -/
def Phase.reads (ph : Phase) (b : Fin cacheSize) : Prop :=
  match ph with
  | .reading _ b' _ => b' = b
  | _ => False

/-- The thread has `queue_lock`. -/
def Phase.queues : Phase → Prop
  | .taking _ _ => True
  | .evicting _ _ => True
  | _ => False

/-- The holder of a lock is at a place where it has the lock. -/
structure Latched (s : Node) : Prop where
  queue : ∀ t, s.queueLock = some t → (s.phase t).queues
  writer : ∀ b t, (s.lock b).writer = some t → (s.phase t).writes b
  readers : ∀ b, ∀ t ∈ (s.lock b).readers, (s.phase t).reads b

theorem latched_start (junk : Fin cacheSize → CacheBlock) : Latched (Node.start junk) where
  queue _ h := by cases h
  writer _ _ h := by cases h
  readers _ _ h := absurd h (Finset.notMem_empty _)

section Latches

variable {s s' : Node} {t : Nat} {ph : Phase}

/-- One thread goes on; the locks that it does not hold at its new place are not its own. -/
theorem Latched.update (h : Latched s) (hphase : s'.phase = Function.update s.phase t ph)
    (hqueue : ∀ t', s'.queueLock = some t' → (t' = t ∧ ph.queues) ∨ (t' ≠ t ∧ s.queueLock = some t'))
    (hwriter : ∀ b t', (s'.lock b).writer = some t' →
      (t' = t ∧ ph.writes b) ∨ (t' ≠ t ∧ (s.lock b).writer = some t'))
    (hreaders : ∀ b, ∀ t' ∈ (s'.lock b).readers,
      (t' = t ∧ ph.reads b) ∨ (t' ≠ t ∧ t' ∈ (s.lock b).readers)) : Latched s' := by
  have hself : s'.phase t = ph := by rw [hphase, Function.update_self]
  have hother : ∀ {t'}, t' ≠ t → s'.phase t' = s.phase t' := by
    intro t' hne
    rw [hphase, Function.update_of_ne hne]
  constructor
  · intro t' ht'
    rcases hqueue t' ht' with ⟨rfl, hnew⟩ | ⟨hne, hold⟩
    · rwa [hself]
    · rw [hother hne]
      exact h.queue t' hold
  · intro b t' ht'
    rcases hwriter b t' ht' with ⟨rfl, hnew⟩ | ⟨hne, hold⟩
    · rwa [hself]
    · rw [hother hne]
      exact h.writer b t' hold
  · intro b t' ht'
    rcases hreaders b t' ht' with ⟨rfl, hnew⟩ | ⟨hne, hold⟩
    · rwa [hself]
    · rw [hother hne]
      exact h.readers b t' hold

/-- No lock changes, and the thread holds those that it had. -/
theorem Latched.move (h : Latched s) (hphase : s'.phase = Function.update s.phase t ph)
    (hqueueLock : s'.queueLock = s.queueLock) (hlock : s'.lock = s.lock)
    (hqueue : (s.phase t).queues → ph.queues) (hwriter : ∀ b, (s.phase t).writes b → ph.writes b)
    (hreaders : ∀ b, (s.phase t).reads b → ph.reads b) : Latched s' := by
  apply h.update hphase
  · intro t' ht'
    rw [hqueueLock] at ht'
    by_cases heq : t' = t
    · subst heq
      exact Or.inl ⟨rfl, hqueue (h.queue t' ht')⟩
    · exact Or.inr ⟨heq, ht'⟩
  · intro b t' ht'
    rw [hlock] at ht'
    by_cases heq : t' = t
    · subst heq
      exact Or.inl ⟨rfl, hwriter b (h.writer b t' ht')⟩
    · exact Or.inr ⟨heq, ht'⟩
  · intro b t' ht'
    rw [hlock] at ht'
    by_cases heq : t' = t
    · subst heq
      exact Or.inl ⟨rfl, hreaders b (h.readers b t' ht')⟩
    · exact Or.inr ⟨heq, ht'⟩

/-- The lock of one block changes. -/
theorem Latched.setLock {b : Fin cacheSize} {l : RwLock} (h : Latched s)
    (hphase : s'.phase = Function.update s.phase t ph) (hlock : s'.lock = Function.update s.lock b l)
    (hqueue : ∀ t', s'.queueLock = some t' → t' ≠ t ∧ s.queueLock = some t')
    (hwriter : ∀ t', l.writer = some t' → (t' = t ∧ ph.writes b) ∨ (t' ≠ t ∧ (s.lock b).writer = some t'))
    (hreaders : ∀ t' ∈ l.readers, (t' = t ∧ ph.reads b) ∨ (t' ≠ t ∧ t' ∈ (s.lock b).readers))
    (hnone : ∀ b', b' ≠ b → ¬(s.phase t).writes b' ∧ ¬(s.phase t).reads b') : Latched s' := by
  apply h.update hphase
  · exact fun t' ht' => Or.inr (hqueue t' ht')
  · intro b' t' ht'
    rw [hlock] at ht'
    by_cases hb : b' = b
    · subst hb
      rw [Function.update_self] at ht'
      exact hwriter t' ht'
    · rw [Function.update_of_ne hb] at ht'
      refine Or.inr ⟨?_, ht'⟩
      rintro rfl
      exact (hnone b' hb).1 (h.writer b' t' ht')
  · intro b' t' ht'
    rw [hlock] at ht'
    by_cases hb : b' = b
    · subst hb
      rw [Function.update_self] at ht'
      exact hreaders t' ht'
    · rw [Function.update_of_ne hb] at ht'
      refine Or.inr ⟨?_, ht'⟩
      rintro rfl
      exact (hnone b' hb).2 (h.readers b' t' ht')

/-- Where the threads are and which locks they hold stays as it was. -/
theorem Latched.congr (h : Latched s) (hphase : s'.phase = s.phase) (hqueue : s'.queueLock = s.queueLock)
    (hlock : s'.lock = s.lock) : Latched s' := by
  constructor
  · rw [hphase, hqueue]
    exact h.queue
  · rw [hphase, hlock]
    exact h.writer
  · rw [hphase, hlock]
    exact h.readers

theorem latched_lookup {op : Op} (h : Latched s) (hstep : s.lookup t op = some s') : Latched s' := by
  unfold Node.lookup at hstep
  split at hstep
  · rename_i hph
    split at hstep
    all_goals
      obtain rfl := Option.some.inj hstep
      refine h.move rfl rfl rfl ?_ ?_ ?_
      · rw [hph]
        exact False.elim
      · rw [hph]
        exact fun _ => False.elim
      · rw [hph]
        exact fun _ => False.elim
  · cases hstep

theorem latched_enterRead (h : Latched s) (hstep : s.enterRead t = some s') : Latched s' := by
  unfold Node.enterRead at hstep
  split at hstep
  · rename_i op b hph
    split at hstep
    · rename_i hfree
      split at hstep
      · obtain ⟨s₁, hcopy, rfl⟩ := Option.map_eq_some_iff.mp hstep
        obtain ⟨-, hlock, hqueue, hphase, -⟩ := copyIn_stamp hcopy
        have hnot : ∀ t', s₁.queueLock = some t' → t' ≠ t ∧ s.queueLock = some t' := by
          intro t' ht'
          rw [hqueue] at ht'
          refine ⟨?_, ht'⟩
          rintro rfl
          have hqueues := h.queue t' ht'
          rw [hph] at hqueues
          exact hqueues
        refine h.setLock (congrArg (Function.update · t _) hphase)
          (congrArg (Function.update · b _) hlock) hnot ?_ ?_ ?_
        · intro t' ht'
          change (s₁.lock b).writer = some t' at ht'
          rw [hlock, hfree] at ht'
          cases ht'
        · intro t' ht'
          change t' ∈ insert t (s₁.lock b).readers at ht'
          rw [hlock] at ht'
          by_cases heq : t' = t
          · exact Or.inl ⟨heq, rfl⟩
          · exact Or.inr ⟨heq, Finset.mem_of_mem_insert_of_ne ht' heq⟩
        · intro b' _
          rw [hph]
          exact ⟨False.elim, False.elim⟩
      · obtain rfl := Option.some.inj hstep
        refine h.move rfl rfl rfl ?_ ?_ ?_
        · rw [hph]
          exact False.elim
        · rw [hph]
          exact fun _ => False.elim
        · rw [hph]
          exact fun _ => False.elim
    · cases hstep
  · cases hstep

theorem latched_enterQueue (h : Latched s) (hstep : s.enterQueue t = some s') : Latched s' := by
  unfold Node.enterQueue at hstep
  split at hstep
  · rename_i op hph
    have hnone : ∀ b, ¬(s.phase t).writes b ∧ ¬(s.phase t).reads b := by
      intro b
      rw [hph]
      exact ⟨False.elim, False.elim⟩
    have hkept : ∀ (ph : Phase) {s' : Node}, ph.queues → s'.phase = Function.update s.phase t ph →
        s'.queueLock = some t → s'.lock = s.lock → Latched s' := by
      intro ph s' hqueues hphase hqueue hlock
      apply h.update hphase
      · intro t' ht'
        rw [hqueue] at ht'
        exact Or.inl ⟨(Option.some.inj ht').symm, hqueues⟩
      · intro b t' ht'
        rw [hlock] at ht'
        refine Or.inr ⟨?_, ht'⟩
        rintro rfl
        exact (hnone b).1 (h.writer b t' ht')
      · intro b t' ht'
        rw [hlock] at ht'
        refine Or.inr ⟨?_, ht'⟩
        rintro rfl
        exact (hnone b).2 (h.readers b t' ht')
    split at hstep
    · split at hstep
      · obtain rfl := Option.some.inj hstep
        refine h.move rfl rfl rfl ?_ ?_ ?_
        · rw [hph]
          exact False.elim
        · exact fun b hb => absurd hb (hnone b).1
        · exact fun b hb => absurd hb (hnone b).2
      · obtain rfl := Option.some.inj hstep
        exact hkept (.taking op _) trivial rfl rfl rfl
      · split at hstep
        · obtain rfl := Option.some.inj hstep
          exact h.congr rfl rfl rfl
        · obtain rfl := Option.some.inj hstep
          exact hkept (.evicting op _) trivial rfl rfl rfl
    · cases hstep
  · cases hstep

theorem latched_enterWrite (h : Latched s) (hstep : s.enterWrite t = some s') : Latched s' := by
  -- both cases take the write lock of the block and release `queue_lock`
  have htake : ∀ (ph : Phase) {s' : Node} {b : Fin cacheSize},
      (∀ b', ¬(s.phase t).writes b' ∧ ¬(s.phase t).reads b') → ph.writes b →
      s'.phase = Function.update s.phase t ph → s'.queueLock = none →
      s'.lock = Function.update s.lock b ⟨∅, some t⟩ → Latched s' := by
    intro ph s' b hnone hwrites hphase hqueue hlock
    refine h.setLock hphase hlock ?_ ?_ ?_ fun b' _ => hnone b'
    · intro t' ht'
      rw [hqueue] at ht'
      cases ht'
    · intro t' ht'
      exact Or.inl ⟨(Option.some.inj ht').symm, hwrites⟩
    · intro t' ht'
      exact absurd ht' (Finset.notMem_empty _)
  unfold Node.enterWrite at hstep
  split at hstep
  · rename_i op b hph
    split at hstep
    · obtain rfl := Option.some.inj hstep
      refine htake (.filling op b false) ?_ rfl rfl rfl rfl
      intro b'
      rw [hph]
      exact ⟨False.elim, False.elim⟩
    · cases hstep
  · rename_i op b hph
    split at hstep
    · obtain rfl := Option.some.inj hstep
      refine htake (.writingBack op b (s.table.blocks b).key) ?_ rfl rfl rfl rfl
      intro b'
      rw [hph]
      exact ⟨False.elim, False.elim⟩
    · cases hstep
  · cases hstep

theorem latched_writeback (h : Latched s) (hstep : s.writeback t = some s') : Latched s' := by
  unfold Node.writeback at hstep
  split at hstep
  · rename_i op b oldkey hph
    obtain rfl := Option.some.inj hstep
    refine h.move rfl rfl rfl ?_ ?_ ?_
    · rw [hph]
      exact False.elim
    · rw [hph]
      exact fun _ => id
    · rw [hph]
      exact fun _ => False.elim
  · cases hstep

theorem latched_request (h : Latched s) (hstep : s.request t = some s') : Latched s' := by
  unfold Node.request at hstep
  split at hstep
  · rename_i op b hph
    obtain rfl := Option.some.inj hstep
    refine h.move rfl rfl rfl ?_ ?_ ?_
    · rw [hph]
      exact False.elim
    · rw [hph]
      exact fun _ => id
    · rw [hph]
      exact fun _ => False.elim
  · rename_i op b hph
    obtain rfl := Option.some.inj hstep
    refine h.move rfl rfl rfl ?_ ?_ ?_
    · rw [hph]
      exact False.elim
    · rw [hph]
      exact fun _ => False.elim
    · rw [hph]
      exact fun _ => id
  · cases hstep

theorem latched_reply {words : List Word} (h : Latched s) (hstep : s.reply t words = some s') :
    Latched s' := by
  unfold Node.reply at hstep
  split at hstep
  · rename_i op b hph
    obtain rfl := Option.some.inj hstep
    refine h.move rfl rfl rfl ?_ ?_ ?_
    · rw [hph]
      exact False.elim
    · rw [hph]
      exact fun _ => id
    · rw [hph]
      exact fun _ => False.elim
  · rename_i op b hph
    obtain rfl := Option.some.inj hstep
    refine h.move rfl rfl rfl ?_ ?_ ?_
    · rw [hph]
      exact False.elim
    · rw [hph]
      exact fun _ => False.elim
    · rw [hph]
      exact fun _ => id
  · cases hstep

theorem latched_finish (h : Latched s) (hstep : s.finish t = some s') : Latched s' := by
  unfold Node.finish at hstep
  split at hstep
  · rename_i op b hph
    obtain rfl := Option.some.inj hstep
    obtain ⟨-, hlock, hqueue, hphase⟩ := callback_frame s b op
    refine h.setLock (congrArg (Function.update · t _) hphase)
      (congrArg (Function.update · b _) hlock) ?_ ?_ ?_ ?_
    · intro t' ht'
      change (s.callback b op).queueLock = some t' at ht'
      rw [hqueue] at ht'
      refine ⟨?_, ht'⟩
      rintro rfl
      have hqueues := h.queue t' ht'
      rw [hph] at hqueues
      exact hqueues
    · intro t' ht'
      change (s.lock b).writer = some t' at ht'
      refine Or.inr ⟨?_, ht'⟩
      rintro rfl
      have hwrites := h.writer b t' ht'
      rw [hph] at hwrites
      exact hwrites
    · intro t' ht'
      exact Or.inr (Finset.mem_erase.mp ht')
    · intro b' hb'
      rw [hph]
      exact ⟨False.elim, fun heq => hb' heq.symm⟩
  · rename_i op b hph
    obtain rfl := Option.some.inj hstep
    obtain ⟨-, hlock, hqueue, hphase⟩ := callback_frame (s.stamp b) b op
    refine h.setLock (congrArg (Function.update · t _) hphase)
      (congrArg (Function.update · b _) hlock) ?_ ?_ ?_ ?_
    · intro t' ht'
      change ((s.stamp b).callback b op).queueLock = some t' at ht'
      rw [hqueue] at ht'
      refine ⟨?_, ht'⟩
      rintro rfl
      have hqueues := h.queue t' ht'
      rw [hph] at hqueues
      exact hqueues
    · intro t' ht'
      cases ht'
    · intro t' ht'
      change t' ∈ (s.lock b).readers at ht'
      refine Or.inr ⟨?_, ht'⟩
      rintro rfl
      have hreads := h.readers b t' ht'
      rw [hph] at hreads
      exact hreads
    · intro b' hb'
      rw [hph]
      exact ⟨fun heq => hb' heq.symm, False.elim⟩
  · cases hstep

theorem latched_act {a : Act} (h : Latched s) (hstep : s.act t a = some s') : Latched s' := by
  cases a with
  | lookup op => exact latched_lookup h hstep
  | enterRead => exact latched_enterRead h hstep
  | enterQueue => exact latched_enterQueue h hstep
  | enterWrite => exact latched_enterWrite h hstep
  | writeback => exact latched_writeback h hstep
  | request => exact latched_request h hstep
  | reply words => exact latched_reply h hstep
  | finish => exact latched_finish h hstep

end Latches

/-! ## The steps that are left -/

/-- The block that a thread waits for has the address of its call, or a thread that is to fill it has
its lock. -/
def Node.Ready (s : Node) (op : Op) (b : Fin cacheSize) : Prop :=
  s.table.cache op.block = some b ∧ ((s.table.blocks b).key = op.block ∨ (s.lock b).writer ≠ none)

instance (s : Node) (op : Op) (b : Fin cacheSize) : Decidable (s.Ready op b) :=
  inferInstanceAs (Decidable (_ ∧ _))

/-- A bound on the steps that a thread has left, with `w` for those of its request. A thread that may
still swap out a block also has two for each of the `n` threads that it may send back to `MISS`. -/
def Node.stepsLeft (s : Node) (w n : Nat) : Phase → Nat
  | .idle => 0
  | .reading _ _ .served => 1
  | .filled _ _ => 1
  | .reading _ _ .sent => 2
  | .filling _ _ true => 2
  | .reading _ _ .unsent => w + 3
  | .filling _ _ false => w + 3
  | .taking _ _ => w + 4
  | .writingBack _ _ _ => w + 6
  | .evicting _ _ => w + 2 * n + 7
  | .found op b => if s.Ready op b then w + 2 * n + 7 else w + 2 * n + 9
  | .missing _ => w + 2 * n + 8

/-- The steps that are left to the threads of a node; a failed assertion is one more. -/
def Node.work (s : Node) (w n : Nat) : Nat :=
  (if s.aborted then 0 else 1) + ∑ t ∈ Finset.range n, s.stepsLeft w n (s.phase t)

section Work

variable {s s' : Node} {w n t : Nat} {ph : Phase}

/-- The keys and the table stay, and a writer that leaves has filled its block. -/
theorem Node.Ready.keep {op : Op} {b : Fin cacheSize} (h : s.Ready op b) (hsame : SameKeys s.table s'.table)
    (hwriter : (s.lock b).writer ≠ none → (s'.lock b).writer ≠ none ∨ (s.table.blocks b).key = op.block) :
    s'.Ready op b := by
  refine ⟨hsame.cache ▸ h.1, ?_⟩
  rw [hsame.key]
  rcases h.2 with hkey | hne
  · exact Or.inl hkey
  · exact (hwriter hne).symm

/-- A call that finds its block locked by nobody has its key, or was not ready. -/
theorem Node.Ready.key {op : Op} {b : Fin cacheSize} (h : s.Ready op b) (hfree : (s.lock b).writer = none) :
    (s.table.blocks b).key = op.block :=
  h.2.resolve_right fun hne => hne hfree

theorem aborted_callback (s : Node) (b : Fin cacheSize) (op : Op) : (s.callback b op).aborted = s.aborted := by
  cases op <;> rfl

end Work

end Dogee.CacheThreads
