import Dogee.ThreadCounts
import Dogee.Transition
import Mathlib.Data.List.Infix

/-!
# The thread pool of one process

`submit` puts a job into a queue and notifies a semaphore; each of the workers waits for the semaphore,
takes the first job and runs it. The destructor sets `stop`, notifies the semaphore once for each worker and
joins them.

The semaphore is a counter with a mutex and a condition variable. A section under the mutex is a step. A
worker that finds the counter at zero sleeps; `notify` wakes one of the sleepers, whichever it likes, and a
sleeper may also wake up without a notification. A worker that is awake looks at the counter again. To pop
an empty queue is undefined behaviour; the model stops there.
-/

namespace Dogee.LocalThreadPool

open Transition ThreadCounts

/-- Where a worker is: before `sem.wait()`; in `cv.wait`, asleep or awake again; behind `sem.wait()`; behind
the check of `stop`; in a job; at the end of `dequeue`; and after it has popped an empty queue. -/
inductive Worker (α : Type*)
  | calling
  | sleeping
  | woken
  | passed
  | taking
  | running (job : α)
  | returned
  | crashed

/-- Where the destructor is: not called; behind some of its notifications; before the join of a worker; and
at its end. -/
inductive Owner
  | alive
  | stopping (notified : Nat)
  | joining (worker : Nat)
  | destroyed

/-- A pool; `late` counts the submissions between the push and the notification. `submitted` and `begun`
only record the jobs, in order. -/
structure State (α : Type*) where
  q : List α
  count : Nat
  stop : Bool
  worker : Nat → Worker α
  late : Nat
  owner : Owner
  submitted : List α
  begun : List α

variable {α : Type*}

def Worker.isAsleep : Worker α → Bool
  | .sleeping => true
  | _ => false

def State.setWorker (s : State α) (w : Nat) (place : Worker α) : State α :=
  { s with worker := Function.update s.worker w place }

section Step

variable (n : Nat)

/-- `notify_one`: a sleeper, if there is one. -/
def notifyOne (s : State α) : Option Nat → Option (State α)
  | some w => if w < n ∧ (s.worker w).isAsleep then some (s.setWorker w .woken) else none
  | none => if ∀ w < n, (s.worker w).isAsleep = false then some s else none

/-- `LSemaphore::notify` -/
def notify (s : State α) (w : Option Nat) : Option (State α) := notifyOne n { s with count := s.count + 1 } w

/-- The loop of `LSemaphore::wait`, from the check of the counter. -/
def tryPass (s : State α) (w : Nat) : State α :=
  if s.count = 0 then s.setWorker w .sleeping else { s.setWorker w .passed with count := s.count - 1 }

/-- The steps of a worker. -/
inductive Move
  | wait
  | wakeUp
  | recheck
  | checkStop
  | take
  | finish
deriving DecidableEq

inductive Act (α : Type*)
  | submit (job : α)
  | notify (w : Option Nat)
  | move (w : Nat) (move : Move)
  | destroy
  | notifyStop (w : Option Nat)
  | join

/-- The loop of the destructor over its notifications. -/
def notifyFrom (k : Nat) : Owner := if k < n then .stopping k else .joining 0

def moveWorker (s : State α) (w : Nat) (move : Move) : Option (State α) :=
  match move, s.worker w with
  | .wait, .calling => some (tryPass s w)
  | .wakeUp, .sleeping => some (s.setWorker w .woken)
  | .recheck, .woken => some (tryPass s w)
  | .checkStop, .passed => some (s.setWorker w (if s.stop then .returned else .taking))
  | .take, .taking =>
      match s.q with
      | [] => some (s.setWorker w .crashed)
      | job :: rest => some { s.setWorker w (.running job) with q := rest, begun := s.begun ++ [job] }
  | .finish, .running _ => some (s.setWorker w .calling)
  | _, _ => none

/-- A step of the pool with `n` workers. -/
def step (s : State α) (a : Act α) : Option (State α) :=
  match a with
  | .submit job => some { s with q := s.q ++ [job], late := s.late + 1, submitted := s.submitted ++ [job] }
  | .notify w => if 0 < s.late then notify n { s with late := s.late - 1 } w else none
  | .move w move => if w < n then moveWorker s w move else none
  | .destroy =>
      match s.owner with
      | .alive => some { s with stop := true, owner := notifyFrom n 0 }
      | _ => none
  | .notifyStop w =>
      match s.owner with
      | .stopping k => notify n { s with owner := notifyFrom n (k + 1) } w
      | _ => none
  | .join =>
      match s.owner with
      | .joining w =>
          if w < n then
            match s.worker w with
            | .returned => some { s with owner := .joining (w + 1) }
            | _ => none
          else some { s with owner := .destroyed }
      | _ => none

end Step

def start : State α := ⟨[], 0, false, fun _ => .calling, 0, .alive, [], []⟩

/-! ## What the workers have together -/

/-- The worker has passed the semaphore for a job that it has not taken. -/
def Worker.holds : Worker α → Nat
  | .passed => 1
  | .taking => 1
  | _ => 0

/-- The worker is going to take a job. -/
def Worker.takes : Worker α → Nat
  | .taking => 1
  | _ => 0

/-- The worker has passed the semaphore for its end. -/
def Worker.leaves : Worker α → Nat
  | .passed => 1
  | .returned => 1
  | _ => 0

/-- The worker is about to look at the counter again. -/
def Worker.awake : Worker α → Nat
  | .woken => 1
  | _ => 0

/-- The notifications of the destructor. -/
def Owner.notified (n : Nat) : Owner → Nat
  | .alive => 0
  | .stopping k => k
  | .joining _ => n
  | .destroyed => n

/-- The workers that have been joined. -/
def Owner.joined (n : Nat) : Owner → Nat
  | .joining w => w
  | .destroyed => n
  | _ => 0

def Owner.isAlive : Owner → Bool
  | .alive => true
  | _ => false

/-- What holds in every state, but for the sleepers. -/
structure Core (n : Nat) (s : State α) : Prop where
  fifo : s.submitted = s.begun ++ s.q
  tokens : s.stop = false → s.count + total n Worker.holds s.worker + s.late = s.q.length
  takes : total n Worker.takes s.worker ≤ s.q.length
  notified : s.stop = true → s.owner.notified n ≤ s.count + total n Worker.leaves s.worker
  alive : s.owner.isAlive = !s.stop
  joined : ∀ w < s.owner.joined n, s.worker w = .returned
  returned : ∀ w, s.worker w = .returned → s.stop = true
  sound : ∀ w, s.worker w ≠ .crashed

/-- As long as a worker sleeps, there is a worker awake for each permit. -/
def Wakes (n : Nat) (s : State α) : Prop :=
  (∀ w < n, (s.worker w).isAsleep = false) ∨ s.count ≤ total n Worker.awake s.worker

structure Inv (n : Nat) (s : State α) : Prop where
  core : Core n s
  wakes : Wakes n s

theorem inv_start (n : Nat) : Inv n (start : State α) := by
  have hzero : ∀ f : Worker α → Nat, f .calling = 0 → total n f (start : State α).worker = 0 :=
    fun f hf => total_eq_zero fun _ _ => hf
  refine ⟨⟨rfl, fun _ => ?_, ?_, nofun, rfl, ?_, nofun, nofun⟩, Or.inl fun _ _ => rfl⟩
  · rw [hzero Worker.holds rfl]
    rfl
  · rw [hzero Worker.takes rfl]
    exact Nat.le_refl 0
  · exact fun w hw => absurd hw (Nat.not_lt_zero w)

section Steps

variable {n w : Nat} {s s' : State α} {place : Worker α}

/-- One worker goes on. -/
theorem Core.move (h : Core n s) (hw : w < n) (hworker : s'.worker = Function.update s.worker w place)
    (hstop : s'.stop = s.stop) (howner : s'.owner = s.owner) (hlate : s'.late = s.late)
    (hfifo : s'.submitted = s'.begun ++ s'.q) (hplace : s.worker w ≠ .returned)
    (hreturned : place = .returned → s.stop = true) (hsound : place ≠ .crashed)
    (htokens : s.stop = false →
      s'.count + place.holds + s.q.length = s.count + (s.worker w).holds + s'.q.length)
    (htakes : total n Worker.takes s.worker + place.takes ≤ s'.q.length + (s.worker w).takes)
    (hnotified : s.stop = true → s.count + (s.worker w).leaves ≤ s'.count + place.leaves) : Core n s' := by
  have hself : s'.worker w = place := by rw [hworker, Function.update_self]
  have hother : ∀ {w'}, w' ≠ w → s'.worker w' = s.worker w' := by
    intro w' hw'
    rw [hworker, Function.update_of_ne hw']
  have htotal : ∀ f : Worker α → Nat, total n f s'.worker + f (s.worker w) = total n f s.worker + f place := by
    intro f
    rw [hworker]
    exact total_update hw f s.worker place
  constructor
  · exact hfifo
  · intro hrun
    rw [hstop] at hrun
    have hold := h.tokens hrun
    have hnew := htotal Worker.holds
    have hchange := htokens hrun
    omega
  · have hnew := htotal Worker.takes
    omega
  · intro hrun
    rw [hstop] at hrun
    have hold := h.notified hrun
    have hnew := htotal Worker.leaves
    have hchange := hnotified hrun
    rw [howner]
    omega
  · rw [howner, hstop]
    exact h.alive
  · intro w' hw'
    rw [howner] at hw'
    have hold := h.joined w' hw'
    by_cases heq : w' = w
    · subst heq
      exact absurd hold hplace
    · rw [hother heq]
      exact hold
  · intro w' hw'
    rw [hstop]
    by_cases heq : w' = w
    · subst heq
      rw [hself] at hw'
      exact hreturned hw'
    · rw [hother heq] at hw'
      exact h.returned w' hw'
  · intro w'
    by_cases heq : w' = w
    · subst heq
      rw [hself]
      exact hsound
    · rw [hother heq]
      exact h.sound w'

/-- A worker that goes to sleep finds no permit; one that goes on was awake, or leaves one permit less. -/
theorem Wakes.move (h : Wakes n s) (hw : w < n) (hworker : s'.worker = Function.update s.worker w place)
    (hwakes : s'.count = 0 ∨
      (place.isAsleep = false ∧ s'.count + (s.worker w).awake ≤ s.count + place.awake)) : Wakes n s' := by
  rcases hwakes with hzero | ⟨hawake, hchange⟩
  · right
    rw [hzero]
    exact Nat.zero_le _
  · rcases h with hnone | hle
    · left
      intro w' hw'
      rw [hworker]
      by_cases heq : w' = w
      · rw [heq, Function.update_self]
        exact hawake
      · rw [Function.update_of_ne heq]
        exact hnone w' hw'
    · right
      have hnew := total_update hw Worker.awake s.worker place
      rw [← hworker] at hnew
      omega

theorem isAsleep_spec (h : place.isAsleep = true) : place = .sleeping := by
  cases place with
  | sleeping => rfl
  | _ => cases h

/-- The semaphore gets a permit, and a sleeper is woken up. -/
theorem Inv.notify {s₀ : State α} {x : Option Nat} (hwakes : Wakes n s) (hstep : notify n s₀ x = some s')
    (hcore : Core n { s₀ with count := s₀.count + 1 }) (hworker : s₀.worker = s.worker)
    (hcount : s₀.count = s.count) : Inv n s' := by
  unfold LocalThreadPool.notify notifyOne at hstep
  split at hstep
  · rename_i w
    obtain ⟨⟨hw, hasleep⟩, heq⟩ := Option.ite_none_right_eq_some.mp hstep
    obtain rfl := Option.some.inj heq
    change (s₀.worker w).isAsleep = true at hasleep
    have hplace := isAsleep_spec hasleep
    refine ⟨?_, ?_⟩
    · refine hcore.move hw rfl rfl rfl rfl hcore.fifo ?_ nofun nofun ?_ ?_ ?_
      all_goals
        show _
        dsimp only
        rw [hplace]
      · exact nofun
      · exact fun _ => rfl
      · exact hcore.takes
      · exact fun _ => Nat.le_refl _
    · right
      show s₀.count + 1 ≤ total n Worker.awake (Function.update s₀.worker w .woken)
      have hnew := total_update hw Worker.awake s₀.worker .woken
      rw [hplace] at hnew
      change _ + 0 = _ + 1 at hnew
      rcases hwakes with hnone | hle
      · rw [hworker, hnone w hw] at hasleep
        cases hasleep
      · rw [hworker] at hnew ⊢
        omega
  · obtain ⟨hnone, heq⟩ := Option.ite_none_right_eq_some.mp hstep
    obtain rfl := Option.some.inj heq
    exact ⟨hcore, Or.inl hnone⟩

theorem notified_notifyFrom_le (n k : Nat) : (notifyFrom n k).notified n ≤ k := by
  unfold notifyFrom
  split
  · exact Nat.le_refl k
  · rename_i hk
    exact Nat.le_of_not_lt hk

theorem joined_notifyFrom (n k : Nat) : (notifyFrom n k).joined n = 0 := by
  unfold notifyFrom
  split <;> rfl

theorem isAlive_notifyFrom (n k : Nat) : (notifyFrom n k).isAlive = false := by
  unfold notifyFrom
  split <;> rfl

/-- The check of the counter: a worker sleeps, or takes a permit. -/
theorem inv_tryPass (h : Inv n s) (hw : w < n)
    (hplace : s.worker w = .calling ∨ s.worker w = .woken) : Inv n (tryPass s w) := by
  have hold : (s.worker w).holds = 0 ∧ (s.worker w).takes = 0 ∧ (s.worker w).leaves = 0 ∧
      (s.worker w).awake ≤ 1 ∧ s.worker w ≠ .returned := by
    rcases hplace with heq | heq
    · rw [heq]
      exact ⟨rfl, rfl, rfl, Nat.zero_le _, nofun⟩
    · rw [heq]
      exact ⟨rfl, rfl, rfl, Nat.le_refl _, nofun⟩
  obtain ⟨hholds, htakes, hleaves, hawake, hne⟩ := hold
  unfold tryPass
  split
  · rename_i hzero
    refine ⟨h.core.move hw rfl rfl rfl rfl h.core.fifo hne nofun nofun ?_ ?_ ?_, ?_⟩
    · intro _
      rw [hholds]
      rfl
    · rw [htakes]
      exact h.core.takes
    · intro _
      rw [hleaves]
      exact Nat.le_refl _
    · exact h.wakes.move hw rfl (Or.inl hzero)
  · rename_i hpos
    have hcount : s.count - 1 + 1 = s.count := Nat.sub_add_cancel (Nat.one_le_iff_ne_zero.mpr hpos)
    refine ⟨h.core.move hw rfl rfl rfl rfl h.core.fifo hne nofun nofun ?_ ?_ ?_, ?_⟩
    · intro _
      show s.count - 1 + 1 + s.q.length = _
      rw [hholds, hcount]
      rfl
    · rw [htakes]
      exact h.core.takes
    · intro _
      rw [hleaves]
      show s.count + 0 ≤ s.count - 1 + 1
      rw [hcount]
      exact Nat.le_refl _
    · refine h.wakes.move hw rfl (Or.inr ⟨rfl, ?_⟩)
      show s.count - 1 + _ ≤ s.count + 0
      omega

/-- A worker that is going to take a job finds one. -/
theorem Core.exists_job (h : Core n s) (hw : w < n) (hplace : s.worker w = .taking) : s.q ≠ [] := by
  intro hnil
  have hle := le_total hw Worker.takes s.worker
  have htakes := h.takes
  rw [hplace] at hle
  rw [hnil] at htakes
  exact Nat.not_succ_le_zero 0 (Nat.le_trans hle htakes)

/-- A worker that has passed the semaphore has a job in the queue. -/
theorem Core.takes_lt (h : Core n s) (hw : w < n) (hplace : s.worker w = .passed) (hrun : s.stop = false) :
    total n Worker.takes s.worker < s.q.length := by
  have hlt : total n Worker.takes s.worker < total n Worker.holds s.worker := by
    refine total_lt_total (fun place => ?_) hw ?_
    · cases place with
      | passed => exact Nat.zero_le 1
      | _ => exact Nat.le_refl _
    · rw [hplace]
      exact Nat.one_pos
  have htokens := h.tokens hrun
  omega

/-- Neither the counter nor the queue changes. -/
theorem Inv.setWorker (h : Inv n s) (hw : w < n) (hne : s.worker w ≠ .returned)
    (hreturned : place = .returned → s.stop = true) (hsound : place ≠ .crashed)
    (hholds : s.stop = false → place.holds = (s.worker w).holds)
    (htakes : total n Worker.takes s.worker + place.takes ≤ s.q.length + (s.worker w).takes)
    (hleaves : s.stop = true → (s.worker w).leaves ≤ place.leaves) (hasleep : place.isAsleep = false)
    (hawake : (s.worker w).awake ≤ place.awake) : Inv n (s.setWorker w place) := by
  refine ⟨h.core.move hw rfl rfl rfl rfl h.core.fifo hne hreturned hsound ?_ htakes ?_, ?_⟩
  · intro hrun
    rw [hholds hrun]
    rfl
  · exact fun hrun => Nat.add_le_add_left (hleaves hrun) _
  · exact h.wakes.move hw rfl (Or.inr ⟨hasleep, Nat.add_le_add_left hawake _⟩)

theorem inv_checkStop (h : Inv n s) (hw : w < n) (hplace : s.worker w = .passed) :
    Inv n (s.setWorker w (if s.stop then .returned else .taking)) := by
  cases hstop : s.stop with
  | true =>
      refine h.setWorker hw ?_ (fun _ => hstop) nofun ?_ ?_ ?_ rfl ?_
      all_goals rw [hplace]
      · exact nofun
      · rw [hstop]
        exact nofun
      · exact h.core.takes
      · exact fun _ => Nat.le_refl 1
      · exact Nat.le_refl 0
  | false =>
      refine h.setWorker hw ?_ nofun nofun ?_ ?_ ?_ rfl ?_
      all_goals rw [hplace]
      · exact nofun
      · exact fun _ => rfl
      · exact h.core.takes_lt hw hplace hstop
      · rw [hstop]
        exact nofun
      · exact Nat.le_refl 0

theorem inv_take {job : α} {rest : List α} (h : Inv n s) (hw : w < n) (hplace : s.worker w = .taking)
    (hq : s.q = job :: rest) :
    Inv n { s.setWorker w (.running job) with q := rest, begun := s.begun ++ [job] } := by
  have hfifo := h.core.fifo
  have htakes := h.core.takes
  rw [hq] at hfifo htakes
  refine ⟨h.core.move hw rfl rfl rfl rfl ?_ ?_ nofun nofun ?_ ?_ ?_, h.wakes.move hw rfl (Or.inr ⟨rfl, ?_⟩)⟩
  · show s.submitted = s.begun ++ [job] ++ rest
    rw [hfifo, List.append_assoc]
    rfl
  · rw [hplace]
    exact nofun
  · intro _
    rw [hplace, hq]
    show s.count + 0 + (rest.length + 1) = s.count + 1 + rest.length
    omega
  · rw [hplace]
    exact htakes
  · rw [hplace]
    exact fun _ => Nat.le_refl _
  · rw [hplace]
    exact Nat.le_refl _

theorem inv_move {move : Move} (h : Inv n s) (hw : w < n) (hstep : moveWorker s w move = some s') : Inv n s' := by
  unfold moveWorker at hstep
  split at hstep
  · rename_i hplace
    obtain rfl := Option.some.inj hstep
    exact inv_tryPass h hw (Or.inl hplace)
  · rename_i hplace
    obtain rfl := Option.some.inj hstep
    refine h.setWorker hw ?_ nofun nofun ?_ ?_ ?_ rfl ?_
    all_goals rw [hplace]
    · exact nofun
    · exact fun _ => rfl
    · exact h.core.takes
    · exact fun _ => Nat.le_refl 0
    · exact Nat.zero_le 1
  · rename_i hplace
    obtain rfl := Option.some.inj hstep
    exact inv_tryPass h hw (Or.inr hplace)
  · rename_i hplace
    obtain rfl := Option.some.inj hstep
    exact inv_checkStop h hw hplace
  · rename_i hplace
    split at hstep
    · rename_i hnil
      exact absurd hnil (h.core.exists_job hw hplace)
    · rename_i job rest hq
      obtain rfl := Option.some.inj hstep
      exact inv_take h hw hplace hq
  · rename_i job hplace
    obtain rfl := Option.some.inj hstep
    refine h.setWorker hw ?_ nofun nofun ?_ ?_ ?_ rfl ?_
    all_goals rw [hplace]
    · exact nofun
    · exact fun _ => rfl
    · exact h.core.takes
    · exact fun _ => Nat.le_refl 0
    · exact Nat.le_refl 0
  · cases hstep

theorem inv_submit (h : Inv n s) (job : α) :
    Inv n { s with q := s.q ++ [job], late := s.late + 1, submitted := s.submitted ++ [job] } := by
  have hlength : (s.q ++ [job]).length = s.q.length + 1 := List.length_append
  refine ⟨⟨?_, ?_, ?_, h.core.notified, h.core.alive, h.core.joined, h.core.returned, h.core.sound⟩, h.wakes⟩
  · show s.submitted ++ [job] = s.begun ++ (s.q ++ [job])
    rw [h.core.fifo, List.append_assoc]
  · intro hrun
    show s.count + total n Worker.holds s.worker + (s.late + 1) = (s.q ++ [job]).length
    rw [hlength, ← h.core.tokens hrun]
    rfl
  · show total n Worker.takes s.worker ≤ (s.q ++ [job]).length
    rw [hlength]
    exact Nat.le_succ_of_le h.core.takes

theorem inv_notify {x : Option Nat} (h : Inv n s) (hlate : 0 < s.late)
    (hstep : notify n { s with late := s.late - 1 } x = some s') : Inv n s' := by
  refine Inv.notify h.wakes hstep ?_ rfl rfl
  refine ⟨h.core.fifo, ?_, h.core.takes, ?_, h.core.alive, h.core.joined, h.core.returned, h.core.sound⟩
  · intro hrun
    have htokens := h.core.tokens hrun
    show s.count + 1 + total n Worker.holds s.worker + (s.late - 1) = s.q.length
    omega
  · intro hrun
    have hnotified := h.core.notified hrun
    show s.owner.notified n ≤ s.count + 1 + total n Worker.leaves s.worker
    omega

theorem inv_notifyStop {x : Option Nat} {k : Nat} (h : Inv n s) (howner : s.owner = .stopping k)
    (hstep : notify n { s with owner := notifyFrom n (k + 1) } x = some s') : Inv n s' := by
  have halive := h.core.alive
  rw [howner] at halive
  refine Inv.notify h.wakes hstep ?_ rfl rfl
  refine ⟨h.core.fifo, ?_, h.core.takes, ?_, ?_, ?_, h.core.returned, h.core.sound⟩
  · intro hrun
    change s.stop = false at hrun
    rw [hrun] at halive
    cases halive
  · intro hrun
    have hnotified := h.core.notified hrun
    rw [howner] at hnotified
    show (notifyFrom n (k + 1)).notified n ≤ s.count + 1 + total n Worker.leaves s.worker
    have hle := notified_notifyFrom_le n (k + 1)
    change k ≤ _ at hnotified
    omega
  · show (notifyFrom n (k + 1)).isAlive = !s.stop
    rw [isAlive_notifyFrom, ← halive]
    rfl
  · intro w hw
    change w < (notifyFrom n (k + 1)).joined n at hw
    rw [joined_notifyFrom] at hw
    exact absurd hw (Nat.not_lt_zero w)

theorem inv_destroy (h : Inv n s) : Inv n { s with stop := true, owner := notifyFrom n 0 } := by
  refine ⟨⟨h.core.fifo, nofun, h.core.takes, ?_, ?_, ?_, fun _ _ => rfl, h.core.sound⟩, h.wakes⟩
  · intro _
    exact Nat.le_trans (notified_notifyFrom_le n 0) (Nat.zero_le _)
  · exact isAlive_notifyFrom n 0
  · intro w hw
    change w < (notifyFrom n 0).joined n at hw
    rw [joined_notifyFrom] at hw
    exact absurd hw (Nat.not_lt_zero w)

/-- The destructor goes on behind the join of a worker. -/
theorem inv_join (h : Inv n s) {k : Nat} {owner : Owner} (howner : s.owner = .joining k)
    (hnew : owner = .joining (k + 1) ∧ s.worker k = .returned ∨ owner = .destroyed ∧ n ≤ k) :
    Inv n { s with owner := owner } := by
  have halive := h.core.alive
  have hjoined := h.core.joined
  have hnotified := h.core.notified
  rw [howner] at halive hjoined hnotified
  have hstop : s.stop = true := by
    cases hs : s.stop with
    | true => rfl
    | false =>
        rw [hs] at halive
        cases halive
  rcases hnew with ⟨rfl, hreturned⟩ | ⟨rfl, hall⟩
  · refine ⟨⟨h.core.fifo, h.core.tokens, h.core.takes, hnotified, halive, ?_, h.core.returned, h.core.sound⟩,
      h.wakes⟩
    intro w hw
    rcases Nat.lt_succ_iff_lt_or_eq.mp hw with hlt | rfl
    · exact hjoined w hlt
    · exact hreturned
  · refine ⟨⟨h.core.fifo, h.core.tokens, h.core.takes, hnotified, halive, ?_, h.core.returned, h.core.sound⟩,
      h.wakes⟩
    intro w hw
    exact hjoined w (Nat.lt_of_lt_of_le hw hall)

theorem inv_step {a : Act α} (h : Inv n s) (hstep : step n s a = some s') : Inv n s' := by
  unfold step at hstep
  cases a with
  | submit job =>
      obtain rfl := Option.some.inj hstep
      exact inv_submit h job
  | notify x =>
      obtain ⟨hlate, hstep⟩ := Option.ite_none_right_eq_some.mp hstep
      exact inv_notify h hlate hstep
  | move w move =>
      obtain ⟨hw, hstep⟩ := Option.ite_none_right_eq_some.mp hstep
      exact inv_move h hw hstep
  | destroy =>
      dsimp only at hstep
      split at hstep
      · obtain rfl := Option.some.inj hstep
        exact inv_destroy h
      · cases hstep
  | notifyStop x =>
      dsimp only at hstep
      split at hstep
      · rename_i k howner
        exact inv_notifyStop h howner hstep
      · cases hstep
  | join =>
      dsimp only at hstep
      split at hstep
      · rename_i k howner
        split at hstep
        · split at hstep
          · rename_i hreturned
            obtain rfl := Option.some.inj hstep
            exact inv_join h howner (Or.inl ⟨rfl, hreturned⟩)
          · cases hstep
        · rename_i hall
          obtain rfl := Option.some.inj hstep
          exact inv_join h howner (Or.inr ⟨rfl, Nat.le_of_not_lt hall⟩)
      · cases hstep

end Steps

/-! ## The steps that are left -/

/-- A step other than a submission, the call of the destructor, and a wake-up without a notification. -/
def innerStep (n : Nat) (s : State α) (a : Act α) : Option (State α) :=
  match a with
  | .submit _ => none
  | .move _ .wakeUp => none
  | .destroy => none
  | a => step n s a

def Worker.work : Worker α → Nat
  | .calling => 1
  | .sleeping => 0
  | .woken => 1
  | .passed => 2
  | .taking => 1
  | .running _ => 2
  | .returned => 0
  | .crashed => 0

def Owner.work (n : Nat) : Owner → Nat
  | .alive => 0
  | .stopping k => 4 * (n - k) + n + 5
  | .joining w => n - w + 1
  | .destroyed => 0

/-- A bound on the steps that are left, as long as nothing is submitted. -/
def stepsLeft (n : Nat) (s : State α) : Nat :=
  2 * s.q.length + 2 * s.count + 5 * s.late + total n Worker.work s.worker + s.owner.work n

section Ends

variable {n w : Nat} {s s' : State α}

theorem step_of_innerStep {a : Act α} (hstep : innerStep n s a = some s') : step n s a = some s' := by
  unfold innerStep at hstep
  split at hstep
  · cases hstep
  · cases hstep
  · cases hstep
  · exact hstep

theorem work_notify {s₀ : State α} {x : Option Nat} (hstep : notify n s₀ x = some s') :
    stepsLeft n s' ≤ stepsLeft n s₀ + 3 := by
  unfold notify notifyOne at hstep
  split at hstep
  · rename_i w
    obtain ⟨⟨hw, hasleep⟩, heq⟩ := Option.ite_none_right_eq_some.mp hstep
    obtain rfl := Option.some.inj heq
    have hnew := total_update hw Worker.work s₀.worker .woken
    change _ + _ = _ + 1 at hnew
    show 2 * s₀.q.length + 2 * (s₀.count + 1) + 5 * s₀.late +
      total n Worker.work (Function.update s₀.worker w .woken) + s₀.owner.work n ≤ _
    unfold stepsLeft
    omega
  · obtain ⟨-, heq⟩ := Option.ite_none_right_eq_some.mp hstep
    obtain rfl := Option.some.inj heq
    show 2 * s₀.q.length + 2 * (s₀.count + 1) + 5 * s₀.late + total n Worker.work s₀.worker + s₀.owner.work n ≤ _
    unfold stepsLeft
    omega

theorem work_setWorker (hw : w < n) (place : Worker α) :
    total n Worker.work (s.setWorker w place).worker + (s.worker w).work =
      total n Worker.work s.worker + place.work :=
  total_update hw Worker.work s.worker place

theorem work_tryPass (hw : w < n) (hplace : (s.worker w).work = 1) : stepsLeft n (tryPass s w) < stepsLeft n s := by
  unfold tryPass
  split
  · have hnew := work_setWorker (s := s) hw .sleeping
    rw [hplace] at hnew
    show 2 * s.q.length + 2 * s.count + 5 * s.late + total n Worker.work (s.setWorker w .sleeping).worker +
      s.owner.work n < _
    change _ + 1 = _ + 0 at hnew
    unfold stepsLeft
    omega
  · have hnew := work_setWorker (s := s) hw .passed
    rw [hplace] at hnew
    show 2 * s.q.length + 2 * (s.count - 1) + 5 * s.late + total n Worker.work (s.setWorker w .passed).worker +
      s.owner.work n < _
    change _ + 1 = _ + 2 at hnew
    unfold stepsLeft
    omega

theorem work_move {move : Move} (h : Inv n s) (hw : w < n) (hmove : move ≠ .wakeUp)
    (hstep : moveWorker s w move = some s') : stepsLeft n s' < stepsLeft n s := by
  have hless : ∀ place : Worker α, place.work < (s.worker w).work →
      stepsLeft n (s.setWorker w place) < stepsLeft n s := by
    intro place hplace
    have hnew := work_setWorker (s := s) hw place
    show 2 * s.q.length + 2 * s.count + 5 * s.late + total n Worker.work (s.setWorker w place).worker +
      s.owner.work n < _
    unfold stepsLeft
    omega
  unfold moveWorker at hstep
  split at hstep
  · rename_i hplace
    obtain rfl := Option.some.inj hstep
    exact work_tryPass hw (by rw [hplace]; rfl)
  · exact absurd rfl hmove
  · rename_i hplace
    obtain rfl := Option.some.inj hstep
    exact work_tryPass hw (by rw [hplace]; rfl)
  · rename_i hplace
    obtain rfl := Option.some.inj hstep
    apply hless
    rw [hplace]
    split
    · exact Nat.zero_lt_two
    · exact Nat.lt_succ_self 1
  · rename_i hplace
    split at hstep
    · rename_i hnil
      exact absurd hnil (h.core.exists_job hw hplace)
    · rename_i job rest hq
      obtain rfl := Option.some.inj hstep
      have hnew := work_setWorker (s := s) hw (.running job)
      rw [hplace] at hnew
      show 2 * rest.length + 2 * s.count + 5 * s.late + total n Worker.work (s.setWorker w (.running job)).worker +
        s.owner.work n < _
      change _ + 1 = _ + 2 at hnew
      unfold stepsLeft
      rw [hq, List.length_cons]
      omega
  · rename_i hplace
    obtain rfl := Option.some.inj hstep
    apply hless
    rw [hplace]
    exact Nat.lt_succ_self 1
  · cases hstep

theorem work_innerStep {a : Act α} (h : Inv n s) (hstep : innerStep n s a = some s') :
    stepsLeft n s' < stepsLeft n s := by
  have hstep' := step_of_innerStep hstep
  unfold step at hstep'
  cases a with
  | submit job => cases hstep
  | destroy => cases hstep
  | notify x =>
      obtain ⟨hlate, hnotify⟩ := Option.ite_none_right_eq_some.mp hstep'
      have hle := work_notify hnotify
      change _ ≤ 2 * s.q.length + 2 * s.count + 5 * (s.late - 1) + total n Worker.work s.worker +
        s.owner.work n + 3 at hle
      unfold stepsLeft at hle ⊢
      omega
  | move w move =>
      obtain ⟨hw, hmove⟩ := Option.ite_none_right_eq_some.mp hstep'
      refine work_move h hw ?_ hmove
      rintro rfl
      cases hstep
  | notifyStop x =>
      dsimp only at hstep'
      split at hstep'
      · rename_i k howner
        have hle := work_notify hstep'
        have howork : (notifyFrom n (k + 1)).work n + 3 < s.owner.work n := by
          rw [howner]
          unfold notifyFrom
          split
          · simp only [Owner.work]
            omega
          · simp only [Owner.work]
            omega
        change _ ≤ 2 * s.q.length + 2 * s.count + 5 * s.late + total n Worker.work s.worker +
          (notifyFrom n (k + 1)).work n + 3 at hle
        unfold stepsLeft at hle ⊢
        omega
      · cases hstep'
  | join =>
      have hless : ∀ owner : Owner, owner.work n < s.owner.work n →
          stepsLeft n { s with owner := owner } < stepsLeft n s := fun _ hlt => Nat.add_lt_add_left hlt _
      dsimp only at hstep'
      split at hstep'
      · rename_i k howner
        split at hstep'
        · split at hstep'
          · obtain rfl := Option.some.inj hstep'
            apply hless
            rw [howner]
            simp only [Owner.work]
            omega
          · cases hstep'
        · obtain rfl := Option.some.inj hstep'
          apply hless
          rw [howner]
          exact Nat.succ_pos _
      · cases hstep'

/-! ## Where nothing goes on -/

/-- The semaphore can always be notified. -/
theorem notify_isSome (n : Nat) (s : State α) : ∃ x s', notify n s x = some s' := by
  by_cases hnone : ∀ w < n, (s.worker w).isAsleep = false
  · exact ⟨none, _, if_pos hnone⟩
  · push Not at hnone
    obtain ⟨w, hw, hasleep⟩ := hnone
    exact ⟨some w, _, if_pos ⟨hw, eq_true_of_ne_false hasleep⟩⟩

/-- A worker sleeps or has returned. -/
theorem worker_of_stuck (hstuck : ∀ a, innerStep n s a = none) (h : Inv n s) (hw : w < n) :
    s.worker w = .sleeping ∨ s.worker w = .returned := by
  have hnone : ∀ move, move ≠ .wakeUp → moveWorker s w move = none := by
    intro move hmove
    have hinner := hstuck (.move w move)
    cases move with
    | wakeUp => exact absurd rfl hmove
    | _ =>
        change (if w < n then _ else none) = none at hinner
        rwa [if_pos hw] at hinner
  cases hplace : s.worker w with
  | sleeping => exact Or.inl rfl
  | returned => exact Or.inr rfl
  | crashed => exact absurd hplace (h.core.sound w)
  | calling =>
      have hwait := hnone .wait nofun
      simp only [moveWorker, hplace] at hwait
      cases hwait
  | woken =>
      have hrecheck := hnone .recheck nofun
      simp only [moveWorker, hplace] at hrecheck
      cases hrecheck
  | passed =>
      have hcheck := hnone .checkStop nofun
      simp only [moveWorker, hplace] at hcheck
      cases hcheck
  | taking =>
      have htake := hnone .take nofun
      simp only [moveWorker, hplace] at htake
      split at htake
      · cases htake
      · cases htake
  | running job =>
      have hfinish := hnone .finish nofun
      simp only [moveWorker, hplace] at hfinish
      cases hfinish

theorem late_of_stuck (hstuck : ∀ a, innerStep n s a = none) : s.late = 0 := by
  by_contra hlate
  obtain ⟨x, s', hnotify⟩ := notify_isSome n { s with late := s.late - 1 }
  have hnone : (if 0 < s.late then _ else none) = none := hstuck (.notify x)
  rw [if_pos (Nat.pos_of_ne_zero hlate), hnotify] at hnone
  cases hnone

/-- Where a worker sleeps, nobody is awake and there is no permit. -/
theorem count_of_stuck (hstuck : ∀ a, innerStep n s a = none) (h : Inv n s) (hw : w < n)
    (hplace : s.worker w = .sleeping) : s.count = 0 := by
  rcases h.wakes with hnone | hle
  · have hasleep := hnone w hw
    rw [hplace] at hasleep
    cases hasleep
  · have hzero : total n Worker.awake s.worker = 0 := by
      refine total_eq_zero fun w hw => ?_
      rcases worker_of_stuck hstuck h hw with heq | heq
      · rw [heq]
        rfl
      · rw [heq]
        rfl
    exact Nat.le_zero.mp (hzero ▸ hle)

theorem begun_of_stuck (hstuck : ∀ a, innerStep n s a = none) (h : Inv n s) (hn : 0 < n) (hrun : s.stop = false) :
    s.begun = s.submitted ∧ ∀ w < n, s.worker w = .sleeping := by
  have hall : ∀ w < n, s.worker w = .sleeping := by
    intro w hw
    rcases worker_of_stuck hstuck h hw with heq | heq
    · exact heq
    · have hstop := h.core.returned w heq
      rw [hrun] at hstop
      cases hstop
  refine ⟨?_, hall⟩
  have hzero : total n Worker.holds s.worker = 0 := by
    refine total_eq_zero fun w hw => ?_
    rw [hall w hw]
    rfl
  have htokens := h.core.tokens hrun
  rw [hzero, late_of_stuck hstuck, count_of_stuck hstuck h hn (hall 0 hn)] at htokens
  have hnil : s.q = [] := List.length_eq_zero_iff.mp htokens.symm
  rw [h.core.fifo, hnil, List.append_nil]

theorem destroyed_of_stuck (hstuck : ∀ a, innerStep n s a = none) (h : Inv n s) (hstop : s.stop = true) :
    ∀ w < n, s.worker w = .returned := by
  have halive := h.core.alive
  have hnotified := h.core.notified hstop
  rw [hstop] at halive
  cases howner : s.owner with
  | alive =>
      rw [howner] at halive
      cases halive
  | stopping k =>
      obtain ⟨x, s', hnotify⟩ := notify_isSome n { s with owner := notifyFrom n (k + 1) }
      have hnone := hstuck (.notifyStop x)
      simp only [innerStep, step, howner, hnotify] at hnone
      cases hnone
  | joining k =>
      exfalso
      have hnone := hstuck .join
      simp only [innerStep, step, howner] at hnone
      split at hnone
      · rename_i hk
        rcases worker_of_stuck hstuck h hk with hplace | hplace
        · -- the permits of the destructor have not been taken by workers that return
          have hlt : total n Worker.leaves s.worker < n := by
            refine total_lt (fun place => ?_) hk ?_
            · cases place with
              | passed => exact Nat.le_refl 1
              | returned => exact Nat.le_refl 1
              | _ => exact Nat.zero_le 1
            · rw [hplace]
              rfl
          rw [howner, count_of_stuck hstuck h hk hplace, Nat.zero_add] at hnotified
          exact Nat.not_le_of_lt hlt hnotified
        · simp only [hplace] at hnone
          cases hnone
      · cases hnone
  | destroyed =>
      have hjoined := h.core.joined
      rw [howner] at hjoined
      exact hjoined

end Ends

/-- In every state that the pool reaches, whichever sleeper a notification wakes up and whenever one wakes up
without it, no worker pops an empty queue, and the jobs that were begun are the first ones that were
submitted, in that order. As long as nothing is submitted, the pool takes a bounded number of steps. Where
none is left, each job that was submitted has been begun and has returned, and all workers sleep; or, if the
destructor was called, all workers have returned. -/
theorem pool_runs_jobs {n : Nat} {as : List (Act α)} {s : State α} (hrun : run (step n) start as = some s) :
    (∀ w, s.worker w ≠ .crashed) ∧ s.submitted = s.begun ++ s.q ∧
    (∃ bs s', run (innerStep n) s bs = some s' ∧ ∀ a, innerStep n s' a = none) ∧
    ∀ bs s', run (innerStep n) s bs = some s' → bs.length ≤ stepsLeft n s ∧
      ((∀ a, innerStep n s' a = none) →
        (s'.stop = false → 0 < n → s'.begun = s'.submitted ∧ ∀ w < n, s'.worker w = .sleeping) ∧
        (s'.stop = true → ∀ w < n, s'.worker w = .returned)) := by
  have h : Inv n s := invariant_reachable (fun _ _ _ h hstep => inv_step h hstep) (inv_start n) hrun
  have hlower : ∀ (s : State α) a s', Inv n s → innerStep n s a = some s' →
      Inv n s' ∧ stepsLeft n s' < stepsLeft n s :=
    fun _ _ _ h hstep => ⟨inv_step h (step_of_innerStep hstep), work_innerStep h hstep⟩
  have hbound : ∀ bs s', run (innerStep n) s bs = some s' → bs.length ≤ stepsLeft n s := by
    intro bs s' hrun'
    exact Nat.le_of_add_right_le (length_le_of_measure hlower h hrun')
  refine ⟨h.core.sound, h.core.fifo, exists_stuck_run hbound, ?_⟩
  intro bs s' hrun'
  refine ⟨hbound bs s' hrun', ?_⟩
  intro hstuck
  have h' : Inv n s' := invariant_reachable (fun _ _ _ h hstep => (hlower _ _ _ h hstep).1) h hrun'
  exact ⟨fun hrun hn => begun_of_stuck hstuck h' hn hrun, destroyed_of_stuck hstuck h'⟩

/-- The two workers sleep before two jobs are submitted; the second one takes the first job. -/
def twoJobs : List (Act Nat) :=
  [.move 0 .wait, .move 1 .wait, .submit 7, .submit 8, .notify (some 1), .move 1 .recheck, .move 1 .checkStop,
    .notify (some 0), .move 1 .take]

theorem twoJobs_run : ∃ s, run (step 2) start twoJobs = some s ∧ s.begun = [7] ∧ s.submitted = [7, 8] ∧
    ∃ bs s', run (innerStep 2) s bs = some s' ∧ ∀ a, innerStep 2 s' a = none := by
  have hmap : (run (step 2) start twoJobs).map (fun s => (s.begun, s.submitted)) = some ([7], [7, 8]) := by
    decide +kernel
  obtain ⟨s, hrun, hjobs⟩ := Option.map_eq_some_iff.mp hmap
  obtain ⟨hbegun, hsubmitted⟩ := Prod.mk.inj hjobs
  exact ⟨s, hrun, hbegun, hsubmitted, (pool_runs_jobs hrun).2.2.1⟩

end Dogee.LocalThreadPool
