import Dogee.CheckpointBarrier

/-!
# Crashes

A crash is safe when the checkpoint that `.master` names has a complete file of every node. What
carries this through the rounds: no thread is ahead of another by more than the inner barriers
allow, exactly one thread of a node dumps in each round, and a dump leaves the file of the last
round alone. The master's own dump is closed after `.master` names it.
-/

namespace Dogee.Checkpoint

open Transition

/-! ## Threads in order -/

/-- How often a thread has left an inner barrier. -/
def Part.left (isMaster : Bool) (pt : Part) : Nat :=
  match pt.pc with
  | .outside | .arrive1 _ | .wait1 _ => 2 * pt.round
  | .dump _ _ => 2 * pt.round + if isMaster then 1 else 0
  | .after1 _ | .resetting | .arrive2 | .wait2 => 2 * pt.round + 1

section Threads

variable {n : Nat} {part : Fin (n + 1) → Part} {node : Fin (n + 1) → Nat} {p : Fin (n + 1)} {pt : Part}

/-- No thread has left a barrier that another one has not entered. -/
def Ordered (part : Fin (n + 1) → Part) : Prop :=
  ∀ p q, (part p).left (p = 0) ≤ (part q).entries (q = 0)

/-- A thread moves and has not entered less often. -/
theorem Ordered.update (h : Ordered part)
    (hleft : ∀ q, pt.left (p = 0) ≤ (part q).entries (q = 0))
    (hentries : (part p).entries (p = 0) ≤ pt.entries (p = 0)) :
    Ordered (Function.update part p pt) := by
  intro q r
  have hr : (part r).entries (r = 0) ≤ (Function.update part p pt r).entries (r = 0) := by
    by_cases hrp : r = p
    · subst hrp
      rw [Function.update_self]
      exact hentries
    · rw [Function.update_of_ne hrp]
  have hq : (Function.update part p pt q).left (q = 0) ≤ (part r).entries (r = 0) := by
    by_cases hqp : q = p
    · subst hqp
      rw [Function.update_self]
      exact hleft r
    · rw [Function.update_of_ne hqp]
      exact h q r
  exact Nat.le_trans hq hr

/-! ## The locks -/

/-- The counter has been increased. -/
def Stage.counted : Stage → Nat
  | .closing _ => 1
  | _ => 0

/-- `.master` is open. -/
def Stage.opensMaster : Stage → Bool
  | .masterOpened _ => true
  | _ => false

/-- A thread of a node whose lock is free. -/
def Rested (d : Nat) (pt : Part) : Prop :=
  match pt.pc with
  | .outside => pt.round = d
  | .wait1 needrelease | .after1 needrelease => needrelease = false ∧ pt.round + 1 = d
  | .arrive2 | .wait2 => pt.round + 1 = d
  | _ => False

/-- The thread that holds the lock of its slave. -/
def Holder (d : Nat) (pt : Part) : Prop :=
  match pt.pc with
  | .dump c stage => (c = pt.round ∧ d = pt.round + stage.counted) ∧ stage.opensMaster = false
  | .arrive1 needrelease | .wait1 needrelease | .after1 needrelease =>
      needrelease = true ∧ d = pt.round + 1
  | _ => False

/-- Another thread of a node whose lock is held in round `r`. -/
def Beside (r : Nat) (pt : Part) : Prop :=
  match pt.pc with
  | .outside | .arrive2 => pt.round = r
  | .arrive1 needrelease | .wait1 needrelease | .after1 needrelease =>
      needrelease = false ∧ pt.round = r
  | .wait2 => pt.round = r ∨ pt.round + 1 = r
  | _ => False

/-- Where a thread of a slave holds the lock of its node. -/
def Pc.holdsLock : Pc → Bool
  | .dump _ _ | .resetting => true
  | .arrive1 needrelease | .wait1 needrelease | .after1 needrelease => needrelease
  | .outside | .arrive2 | .wait2 => false

theorem Rested.holdsLock {d : Nat} (h : Rested d pt) : pt.pc.holdsLock = false := by
  rw [Rested] at h
  cases hpc : pt.pc with
  | wait1 needrelease | after1 needrelease =>
      rw [hpc] at h
      exact h.1
  | outside | arrive2 | wait2 => rfl
  | dump _ _ | arrive1 _ | resetting =>
      rw [hpc] at h
      exact h.elim

theorem Holder.holdsLock {d : Nat} (h : Holder d pt) : pt.pc.holdsLock = true := by
  rw [Holder] at h
  cases hpc : pt.pc with
  | dump _ _ | resetting => rfl
  | arrive1 needrelease | wait1 needrelease | after1 needrelease =>
      rw [hpc] at h
      exact h.1
  | outside | arrive2 | wait2 =>
      rw [hpc] at h
      exact h.elim

theorem Beside.holdsLock {r : Nat} (h : Beside r pt) : pt.pc.holdsLock = false := by
  rw [Beside] at h
  cases hpc : pt.pc with
  | arrive1 needrelease | wait1 needrelease | after1 needrelease =>
      rw [hpc] at h
      exact h.1
  | outside | arrive2 | wait2 => rfl
  | dump _ _ | resetting =>
      rw [hpc] at h
      exact h.elim

/-- When a thread of the node begins round `r`, the others are in the round or in its last
barrier. -/
theorem Rested.beside {r : Nat} {isMaster : Bool} (h : Rested r pt) (hentries : 2 * r ≤ pt.entries isMaster) :
    Beside r pt := by
  rw [Rested] at h
  rw [Part.entries] at hentries
  rw [Beside]
  cases hpc : pt.pc with
  | outside =>
      rw [hpc] at h
      exact h
  | wait1 needrelease | after1 needrelease =>
      rw [hpc] at h hentries
      obtain ⟨-, h⟩ := h
      simp only at hentries
      omega
  | arrive2 =>
      rw [hpc] at h hentries
      simp only at h hentries
      omega
  | wait2 =>
      rw [hpc] at h
      exact Or.inr h
  | dump _ _ | arrive1 _ | resetting =>
      rw [hpc] at h
      exact h.elim

/-- When the lock is let go in round `r`, the others have entered the first barrier. -/
theorem Beside.rested {r : Nat} {isMaster : Bool} (h : Beside r pt)
    (hentries : 2 * r + 1 ≤ pt.entries isMaster) : Rested (r + 1) pt := by
  rw [Beside] at h
  rw [Part.entries] at hentries
  rw [Rested]
  cases hpc : pt.pc with
  | outside =>
      rw [hpc] at h hentries
      simp only at h hentries
      omega
  | arrive1 needrelease =>
      rw [hpc] at h hentries
      obtain ⟨-, h⟩ := h
      simp only at hentries
      omega
  | wait1 needrelease | after1 needrelease =>
      rw [hpc] at h
      exact ⟨h.1, congrArg (· + 1) h.2⟩
  | arrive2 =>
      rw [hpc] at h
      exact congrArg (· + 1) h
  | wait2 =>
      rw [hpc] at h hentries
      simp only at h hentries
      omega
  | dump _ _ | resetting =>
      rw [hpc] at h
      exact h.elim

theorem Holder.entries_le {d : Nat} {isMaster : Bool} (h : Holder d pt) :
    pt.entries isMaster ≤ 2 * pt.round + 1 := by
  rw [Holder] at h
  rw [Part.entries]
  cases hpc : pt.pc <;> simp only [hpc] at h ⊢ <;> first | exact h.elim | (split <;> omega) | omega

/-- A slave node with its lock and its counter. -/
inductive SlaveNode (node : Fin (n + 1) → Nat) (part : Fin (n + 1) → Part) (i d : Nat) : Bool → Prop
  | free (hentries : ∀ q, 2 * d ≤ (part q).entries (q = 0) + 1)
      (hrested : ∀ q, node q = i → Rested d (part q)) : SlaveNode node part i d false
  | held (p : Fin (n + 1)) (hp : node p = i) (hholder : Holder d (part p))
      (hbeside : ∀ q, node q = i → q ≠ p → Beside (part p).round (part q)) : SlaveNode node part i d true

/-- The master's lock and counter. -/
def MasterNode (pt : Part) (d : Nat) (locked : Bool) : Prop :=
  match pt.pc with
  | .outside | .arrive1 _ | .wait1 _ | .after1 _ => locked = false ∧ d = pt.round
  | .dump c stage => locked = true ∧ c = pt.round ∧ d = pt.round + stage.counted
  | .resetting => locked = true ∧ d = pt.round + 1
  | .arrive2 | .wait2 => locked = false ∧ d = pt.round + 1

variable {i d : Nat} {locked : Bool}

/-- A thread of another node moves. -/
theorem SlaveNode.other (h : SlaveNode node part i d locked) (hp : node p ≠ i)
    (hentries : (part p).entries (p = 0) ≤ pt.entries (p = 0)) :
    SlaveNode node (Function.update part p pt) i d locked := by
  have hother : ∀ q, node q = i → Function.update part p pt q = part q := by
    intro q hq
    apply Function.update_of_ne
    rintro rfl
    exact hp hq
  cases h with
  | free hall hrested =>
      refine .free (fun q => ?_) fun q hq => hother q hq ▸ hrested q hq
      by_cases hqp : q = p
      · subst hqp
        rw [Function.update_self]
        exact Nat.le_trans (hall q) (Nat.succ_le_succ hentries)
      · rw [Function.update_of_ne hqp]
        exact hall q
  | held h hh hholder hbeside =>
      refine .held h hh (hother h hh ▸ hholder) fun q hq hqh => ?_
      rw [hother h hh, hother q hq]
      exact hbeside q hq hqh

/-- A thread that does not hold the lock moves. -/
theorem SlaveNode.beside (h : SlaveNode node part i d locked)
    (hentries : (part p).entries (p = 0) ≤ pt.entries (p = 0))
    (hnot : (part p).pc.holdsLock = false) (hrested : locked = false → Rested d (part p) → Rested d pt)
    (hbeside : ∀ q, Holder d (part q) → Beside (part q).round (part p) → Beside (part q).round pt) :
    SlaveNode node (Function.update part p pt) i d locked := by
  cases h with
  | free hall hr =>
      refine .free (fun q => ?_) fun q hq => ?_
      · by_cases hqp : q = p
        · subst hqp
          rw [Function.update_self]
          exact Nat.le_trans (hall q) (Nat.succ_le_succ hentries)
        · rw [Function.update_of_ne hqp]
          exact hall q
      · by_cases hqp : q = p
        · subst hqp
          rw [Function.update_self]
          exact hrested rfl (hr q hq)
        · rw [Function.update_of_ne hqp]
          exact hr q hq
  | held h hh hholder hb =>
      have hne : h ≠ p := by
        rintro rfl
        exact absurd (hholder.holdsLock.symm.trans hnot) Bool.true_eq_false_eq_False
      have hh' : Function.update part p pt h = part h := Function.update_of_ne hne ..
      refine .held h hh (hh'.symm ▸ hholder) fun q hq hqh => ?_
      rw [hh']
      by_cases hqp : q = p
      · subst hqp
        rw [Function.update_self]
        exact hbeside h hholder (hb q hq hqh)
      · rw [Function.update_of_ne hqp]
        exact hb q hq hqh

/-- The thread that holds the lock moves on in its round. -/
theorem SlaveNode.holder (h : SlaveNode node part i d locked) (hp : node p = i)
    (hholder : Holder d (part p)) {d' : Nat} (hround : pt.round = (part p).round) (hpt : Holder d' pt) :
    SlaveNode node (Function.update part p pt) i d' locked := by
  cases h with
  | free hall hr =>
      exact absurd (hholder.holdsLock.symm.trans (hr p hp).holdsLock) Bool.true_eq_false_eq_False
  | held h hh hholder' hb =>
      have heq : h = p := by
        by_contra hne
        have hbeside := hb p hp (Ne.symm hne)
        exact absurd (hholder.holdsLock.symm.trans hbeside.holdsLock) Bool.true_eq_false_eq_False
      subst heq
      refine .held h hh (by rw [Function.update_self]; exact hpt) fun q hq hqh => ?_
      rw [Function.update_self, Function.update_of_ne hqh, hround]
      exact hb q hq hqh

end Threads

/-! ## The processes -/

section Processes

variable {g : Group} {P P' : Procs g} {disk disk' : Disk} {p : Fin (g.slaves + 1)} {pt : Part}

/-- What holds of the threads, locks and counters. -/
structure Procs.Inv (P : Procs g) : Prop where
  ordered : Ordered P.part
  master : MasterNode (P.part 0) (P.cnt 0) (P.lock 0)
  slave : ∀ i, i ≠ 0 → SlaveNode g.node P.part i (P.cnt i) (P.lock i)

theorem Group.node_zero (g : Group) : g.node 0 = 0 := (g.node_eq_zero 0).mpr rfl

theorem Group.node_ne (g : Group) {p : Fin (g.slaves + 1)} (hp : p ≠ 0) : g.node p ≠ 0 :=
  fun h => hp ((g.node_eq_zero p).mp h)

/-- The master's thread moves. -/
theorem Procs.Inv.masterMoves (h : P.Inv) (hpart : P'.part = Function.update P.part 0 pt)
    (hlock : ∀ i, i ≠ 0 → P'.lock i = P.lock i) (hcnt : ∀ i, i ≠ 0 → P'.cnt i = P.cnt i)
    (hleft : ∀ q, pt.left true ≤ P.entries q) (hentries : P.entries 0 ≤ pt.entries true)
    (hmaster : MasterNode pt (P'.cnt 0) (P'.lock 0)) : P'.Inv := by
  constructor
  · rw [hpart]
    exact h.ordered.update hleft hentries
  · rw [hpart, Function.update_self]
    exact hmaster
  · intro i hi
    rw [hpart, hlock i hi, hcnt i hi]
    apply (h.slave i hi).other _ hentries
    rw [g.node_zero]
    exact Ne.symm hi

/-- A thread of a slave moves. -/
theorem Procs.Inv.slaveMoves (h : P.Inv) (hp : p ≠ 0) (hpart : P'.part = Function.update P.part p pt)
    (hlock : ∀ i, i ≠ g.node p → P'.lock i = P.lock i) (hcnt : ∀ i, i ≠ g.node p → P'.cnt i = P.cnt i)
    (hleft : ∀ q, pt.left false ≤ P.entries q) (hentries : P.entries p ≤ pt.entries false)
    (hslave : SlaveNode g.node (Function.update P.part p pt) (g.node p) (P'.cnt (g.node p))
      (P'.lock (g.node p))) : P'.Inv := by
  have hfalse : decide (p = 0) = false := decide_eq_false hp
  have hnode := g.node_ne hp
  rw [← hfalse] at hleft hentries
  constructor
  · rw [hpart]
    exact h.ordered.update hleft hentries
  · rw [hpart, Function.update_of_ne (Ne.symm hp), hlock 0 (Ne.symm hnode), hcnt 0 (Ne.symm hnode)]
    exact h.master
  · intro i hi
    by_cases hpi : i = g.node p
    · subst hpi
      rw [hpart]
      exact hslave
    · rw [hpart, hlock i hpi, hcnt i hpi]
      exact (h.slave i hi).other (Ne.symm hpi) hentries

/-- A thread of a slave that does not hold the lock moves. -/
theorem Procs.Inv.besideMoves (h : P.Inv) (hp : p ≠ 0) (hpart : P'.part = Function.update P.part p pt)
    (hlock : P'.lock = P.lock) (hcnt : P'.cnt = P.cnt)
    (hleft : ∀ q, pt.left false ≤ P.entries q) (hentries : P.entries p ≤ pt.entries false)
    (hnot : (P.part p).pc.holdsLock = false)
    (hrested : P.lock (g.node p) = false → ∀ d, Rested d (P.part p) → Rested d pt)
    (hbeside : ∀ q, Holder (P.cnt (g.node p)) (P.part q) → Beside (P.part q).round (P.part p) →
      Beside (P.part q).round pt) : P'.Inv := by
  apply h.slaveMoves hp hpart (fun i _ => congrFun hlock i) (fun i _ => congrFun hcnt i) hleft hentries
  rw [hlock, hcnt]
  apply (h.slave _ (g.node_ne hp)).beside _ hnot (fun hfree => hrested hfree _) hbeside
  rw [decide_eq_false hp]
  have hentries' := hentries
  rw [Procs.entries, decide_eq_false hp] at hentries'
  exact hentries'

/-- The thread of a slave that holds the lock moves. -/
theorem Procs.Inv.holderMoves (h : P.Inv) (hp : p ≠ 0) (hpart : P'.part = Function.update P.part p pt)
    (hlock : P'.lock = P.lock) (hcnt : ∀ i, i ≠ g.node p → P'.cnt i = P.cnt i)
    (hleft : ∀ q, pt.left false ≤ P.entries q) (hentries : P.entries p ≤ pt.entries false)
    (hholder : Holder (P.cnt (g.node p)) (P.part p)) (hround : pt.round = (P.part p).round)
    (hpt : Holder (P'.cnt (g.node p)) pt) : P'.Inv := by
  apply h.slaveMoves hp hpart (fun i _ => congrFun hlock i) hcnt hleft hentries
  rw [hlock]
  exact (h.slave _ (g.node_ne hp)).holder rfl hholder hround hpt

/-- A step of the master's dump. -/
theorem Procs.Inv.dumpStep_master (h : P.Inv) (disk : Disk) {c : Nat} {stage : Stage}
    (hpc : (P.part 0).pc = .dump c stage) : (dumpStep disk P 0 c stage).2.Inv := by
  have hm := h.master
  rw [MasterNode, hpc] at hm
  obtain ⟨hlocked, rfl, hcnt⟩ := hm
  have hleft : ∀ q, 2 * (P.part 0).round + 1 ≤ P.entries q := by
    intro q
    have := h.ordered 0 q
    rw [Part.left, hpc] at this
    exact this
  have hentries : P.entries 0 = 2 * (P.part 0).round + 1 := by
    rw [Procs.entries, Part.entries, hpc]
    rfl
  cases stage with
  | opening =>
      exact h.masterMoves rfl (fun _ _ => rfl) (fun _ _ => rfl) hleft hentries.le ⟨hlocked, rfl, hcnt⟩
  | writing out todo =>
      cases todo with
      | nil => exact h.masterMoves rfl (fun _ _ => rfl) (fun _ _ => rfl) hleft hentries.le ⟨hlocked, rfl, hcnt⟩
      | cons t todo =>
          exact h.masterMoves rfl (fun _ _ => rfl) (fun _ _ => rfl) hleft hentries.le ⟨hlocked, rfl, hcnt⟩
  | masterOpened out =>
      exact h.masterMoves rfl (fun _ _ => rfl) (fun _ _ => rfl) hleft hentries.le ⟨hlocked, rfl, hcnt⟩
  | removing out =>
      exact h.masterMoves rfl (fun _ _ => rfl) (fun _ _ => rfl) hleft hentries.le ⟨hlocked, rfl, hcnt⟩
  | counting out =>
      refine h.masterMoves rfl (fun _ _ => rfl) (fun i hi => ?_) hleft hentries.le ⟨hlocked, rfl, ?_⟩
      · apply Function.update_of_ne
        rw [g.node_zero]
        exact hi
      · show Function.update P.cnt (g.node 0) (P.cnt (g.node 0) + 1) 0 = (P.part 0).round + 1
        rw [g.node_zero, Function.update_self, hcnt]
        rfl
  | closing out =>
      exact h.masterMoves rfl (fun _ _ => rfl) (fun _ _ => rfl) hleft hentries.le ⟨hlocked, hcnt⟩

/-- A step of a slave's dump. -/
theorem Procs.Inv.dumpStep_slave (h : P.Inv) (disk : Disk) (hp : p ≠ 0) {c : Nat} {stage : Stage}
    (hpc : (P.part p).pc = .dump c stage) (hholder : Holder (P.cnt (g.node p)) (P.part p)) :
    (dumpStep disk P p c stage).2.Inv := by
  have hheld := hholder
  rw [Holder, hpc] at hheld
  obtain ⟨⟨rfl, hcnt⟩, hopens⟩ := hheld
  have hleft : ∀ q, 2 * (P.part p).round ≤ P.entries q := by
    intro q
    have := h.ordered p q
    rw [Part.left, hpc, decide_eq_false hp] at this
    exact this
  have hentries : P.entries p = 2 * (P.part p).round := by
    rw [Procs.entries, Part.entries, hpc, decide_eq_false hp]
    rfl
  cases stage with
  | opening =>
      exact h.holderMoves hp rfl rfl (fun _ _ => rfl) hleft hentries.le hholder rfl ⟨⟨rfl, hcnt⟩, rfl⟩
  | writing out todo =>
      cases todo with
      | nil =>
          rw [dumpStep, if_neg hp]
          exact h.holderMoves hp rfl rfl (fun _ _ => rfl) hleft hentries.le hholder rfl ⟨⟨rfl, hcnt⟩, rfl⟩
      | cons t todo =>
          exact h.holderMoves hp rfl rfl (fun _ _ => rfl) hleft hentries.le hholder rfl ⟨⟨rfl, hcnt⟩, rfl⟩
  | masterOpened out => cases hopens
  | removing out =>
      exact h.holderMoves hp rfl rfl (fun _ _ => rfl) hleft hentries.le hholder rfl ⟨⟨rfl, hcnt⟩, rfl⟩
  | counting out =>
      refine h.holderMoves hp rfl rfl (fun i hi => Function.update_of_ne hi ..) hleft hentries.le hholder rfl
        ⟨⟨rfl, ?_⟩, rfl⟩
      show Function.update P.cnt (g.node p) (P.cnt (g.node p) + 1) (g.node p) = (P.part p).round + 1
      rw [Function.update_self, hcnt]
      rfl
  | closing out =>
      rw [dumpStep, if_neg hp]
      exact h.holderMoves hp rfl rfl (fun _ _ => rfl) hleft hentries.le hholder rfl ⟨rfl, hcnt⟩

/-- A step of the master's thread. -/
theorem Procs.Inv.enterStep_master (h : P.Inv) (hstep : enterStep disk P 0 = some (disk', P')) : P'.Inv := by
  have hm := h.master
  have hord := h.ordered 0
  have hentries : P.entries 0 = (P.part 0).entries true := rfl
  rw [MasterNode] at hm
  rw [Part.left] at hord
  rw [Part.entries] at hentries
  rw [enterStep] at hstep
  cases hpc : (P.part 0).pc with
  | outside =>
      simp only [hpc] at hm hord hentries hstep
      obtain ⟨-, rfl⟩ := Prod.mk.inj (Option.some.inj hstep)
      exact h.masterMoves rfl (fun _ _ => rfl) (fun _ _ => rfl) hord hentries.le hm
  | dump c stage =>
      simp only [hpc] at hstep
      have hinv := h.dumpStep_master disk hpc
      rw [Option.some.inj hstep] at hinv
      exact hinv
  | arrive1 needrelease =>
      simp only [hpc] at hm hord hentries hstep
      obtain ⟨-, rfl⟩ := Prod.mk.inj (Option.some.inj hstep)
      exact h.masterMoves rfl (fun _ _ => rfl) (fun _ _ => rfl) hord (Nat.le_succ_of_le hentries.le) hm
  | wait1 needrelease =>
      simp only [hpc] at hm hentries hstep
      split at hstep
      · rename_i hall
        obtain ⟨-, rfl⟩ := Prod.mk.inj (Option.some.inj hstep)
        exact h.masterMoves rfl (fun _ _ => rfl) (fun _ _ => rfl) hall hentries.le hm
      · cases hstep
  | after1 needrelease =>
      simp only [hpc] at hm hord hentries hstep
      obtain ⟨-, rfl⟩ := Prod.mk.inj (Option.some.inj hstep)
      have hfree : P.lock (g.node 0) = false := by
        rw [g.node_zero]
        exact hm.1
      rw [if_pos trivial, Procs.beginDump, hfree]
      refine h.masterMoves rfl (fun i hi => ?_) (fun _ _ => rfl) hord hentries.le ⟨?_, ?_, hm.2⟩
      · apply Function.update_of_ne
        rw [g.node_zero]
        exact hi
      · show Function.update P.lock (g.node 0) true 0 = true
        rw [g.node_zero, Function.update_self]
      · rw [g.node_zero]
        exact hm.2
  | resetting =>
      simp only [hpc] at hm hord hentries hstep
      obtain ⟨-, rfl⟩ := Prod.mk.inj (Option.some.inj hstep)
      refine h.masterMoves rfl (fun i hi => ?_) (fun _ _ => rfl) hord hentries.le ⟨?_, hm.2⟩
      · apply Function.update_of_ne
        rw [g.node_zero]
        exact hi
      · show Function.update P.lock (g.node 0) false 0 = false
        rw [g.node_zero, Function.update_self]
  | arrive2 =>
      simp only [hpc] at hm hord hentries hstep
      obtain ⟨-, rfl⟩ := Prod.mk.inj (Option.some.inj hstep)
      exact h.masterMoves rfl (fun _ _ => rfl) (fun _ _ => rfl) hord (Nat.le_succ_of_le hentries.le) hm
  | wait2 =>
      simp only [hpc] at hm hentries hstep
      split at hstep
      · rename_i hall
        obtain ⟨-, rfl⟩ := Prod.mk.inj (Option.some.inj hstep)
        exact h.masterMoves rfl (fun _ _ => rfl) (fun _ _ => rfl) hall hentries.le hm
      · cases hstep

/-- A thread of a slave that is where the lock is held is the one that holds it. -/
theorem Procs.Inv.holder (h : P.Inv) (hp : p ≠ 0) (hholds : (P.part p).pc.holdsLock = true) :
    Holder (P.cnt (g.node p)) (P.part p) := by
  have hslave := h.slave _ (g.node_ne hp)
  generalize P.lock (g.node p) = locked at hslave
  cases hslave with
  | free _ hr => exact absurd (hholds.symm.trans (hr p rfl).holdsLock) Bool.true_eq_false_eq_False
  | held q hq hholder hb =>
      by_cases hpq : p = q
      · rw [hpq]
        rw [hpq] at hholder
        exact hholder
      · exact absurd (hholds.symm.trans (hb p rfl hpq).holdsLock) Bool.true_eq_false_eq_False

/-- Only the master resets the lock. -/
theorem Procs.Inv.not_resetting (h : P.Inv) (hp : p ≠ 0) : (P.part p).pc ≠ .resetting := by
  intro hpc
  have hholder := h.holder hp (by rw [hpc, Pc.holdsLock])
  rw [Holder, hpc] at hholder
  exact hholder

/-- A thread of a slave finds the lock free. -/
theorem Procs.Inv.beginDump (h : P.Inv) (hp : p ≠ 0) (hpc : (P.part p).pc = .outside)
    (hfree : P.lock (g.node p) = false) :
    ((P.setLock (g.node p) true).setPc p (.dump (P.cnt (g.node p)) .opening)).Inv := by
  have hslave := h.slave _ (g.node_ne hp)
  rw [hfree] at hslave
  have hord : ∀ q, 2 * (P.part p).round ≤ (P.part q).entries (q = 0) := by
    intro q
    have := h.ordered p q
    rw [Part.left, hpc] at this
    exact this
  have hentries : P.entries p = 2 * (P.part p).round := by rw [Procs.entries, Part.entries, hpc]
  cases hslave with
  | free hall hrested =>
      have hround : (P.part p).round = P.cnt (g.node p) := by
        have hr := hrested p rfl
        rw [Rested, hpc] at hr
        exact hr
      refine h.slaveMoves hp rfl (fun i hi => Function.update_of_ne hi ..) (fun _ _ => rfl) hord hentries.le ?_
      show SlaveNode g.node _ (g.node p) (P.cnt (g.node p)) (Function.update P.lock (g.node p) true (g.node p))
      rw [Function.update_self]
      refine .held p rfl ?_ fun q hq hqp => ?_
      · rw [Function.update_self]
        exact ⟨⟨hround.symm, hround.symm⟩, rfl⟩
      · rw [Function.update_self, Function.update_of_ne hqp]
        have hr := hrested q hq
        rw [← hround] at hr
        exact hr.beside (hord q)

/-- The thread of a slave that holds the lock lets it go. -/
theorem Procs.Inv.release (h : P.Inv) (hp : p ≠ 0) (hpc : (P.part p).pc = .after1 true) :
    ((P.setLock (g.node p) false).setPc p .arrive2).Inv := by
  have hslave := h.slave _ (g.node_ne hp)
  have hholds : (P.part p).pc.holdsLock = true := by rw [hpc, Pc.holdsLock]
  have hord : ∀ q, 2 * (P.part p).round + 1 ≤ (P.part q).entries (q = 0) := by
    intro q
    have := h.ordered p q
    rw [Part.left, hpc] at this
    exact this
  have hentries : P.entries p = 2 * (P.part p).round + 1 := by rw [Procs.entries, Part.entries, hpc]
  refine h.slaveMoves hp rfl (fun i hi => Function.update_of_ne hi ..) (fun _ _ => rfl) hord hentries.le ?_
  show SlaveNode g.node _ (g.node p) (P.cnt (g.node p)) (Function.update P.lock (g.node p) false (g.node p))
  rw [Function.update_self]
  generalize P.lock (g.node p) = locked at hslave
  cases hslave with
  | free hall hrested => exact absurd (hholds.symm.trans (hrested p rfl).holdsLock) Bool.true_eq_false_eq_False
  | held q hq hholder hbeside =>
      have hqp : p = q := by
        by_contra hne
        exact absurd (hholds.symm.trans (hbeside p rfl hne).holdsLock) Bool.true_eq_false_eq_False
      subst hqp
      rw [Holder, hpc] at hholder
      obtain ⟨-, hcnt⟩ := hholder
      refine .free (fun q => ?_) fun q hq => ?_
      · by_cases hqp : q = p
        · subst hqp
          rw [Function.update_self, Part.entries, hcnt]
          show 2 * ((P.part q).round + 1) ≤ 2 * (P.part q).round + 1 + 1
          omega
        · rw [Function.update_of_ne hqp, hcnt]
          have := hord q
          omega
      · by_cases hqp : q = p
        · subst hqp
          rw [Function.update_self, hcnt]
          exact rfl
        · rw [Function.update_of_ne hqp, hcnt]
          exact (hbeside q hq hqp).rested (hord q)

/-- A step of a thread of a slave. -/
theorem Procs.Inv.enterStep_slave (h : P.Inv) (hp : p ≠ 0) (hstep : enterStep disk P p = some (disk', P')) :
    P'.Inv := by
  have hord := h.ordered p
  have hentries : P.entries p = (P.part p).entries (p = 0) := rfl
  rw [Part.left, decide_eq_false hp] at hord
  rw [Part.entries, decide_eq_false hp] at hentries
  rw [enterStep] at hstep
  cases hpc : (P.part p).pc with
  | outside =>
      simp only [hpc, if_neg hp] at hord hentries hstep
      obtain ⟨-, rfl⟩ := Prod.mk.inj (Option.some.inj hstep)
      rw [Procs.beginDump]
      split
      · rename_i hlocked
        refine h.besideMoves hp rfl rfl rfl hord hentries.le ?_ ?_ ?_
        · rw [hpc, Pc.holdsLock]
        · exact fun hfree => absurd (hlocked.symm.trans hfree) Bool.true_eq_false_eq_False
        · intro q _ hb
          rw [Beside, hpc] at hb
          exact ⟨rfl, hb⟩
      · rename_i hfree
        exact h.beginDump hp hpc (Bool.eq_false_of_not_eq_true hfree)
  | dump c stage =>
      simp only [hpc] at hstep
      have hholder := h.holder hp (by rw [hpc, Pc.holdsLock])
      have hinv := h.dumpStep_slave disk hp hpc hholder
      rw [Option.some.inj hstep] at hinv
      exact hinv
  | arrive1 needrelease =>
      simp only [hpc] at hord hentries hstep
      obtain ⟨-, rfl⟩ := Prod.mk.inj (Option.some.inj hstep)
      cases needrelease with
      | true =>
          have hholder := h.holder hp (by rw [hpc, Pc.holdsLock])
          refine h.holderMoves hp rfl rfl (fun _ _ => rfl) hord (Nat.le_succ_of_le hentries.le) hholder rfl ?_
          rw [Holder, hpc] at hholder
          exact hholder
      | false =>
          refine h.besideMoves hp rfl rfl rfl hord (Nat.le_succ_of_le hentries.le) ?_ ?_ ?_
          · rw [hpc, Pc.holdsLock]
          · intro _ d hr
            rw [Rested, hpc] at hr
            exact hr.elim
          · intro q _ hb
            rw [Beside, hpc] at hb
            exact hb
  | wait1 needrelease =>
      simp only [hpc] at hentries hstep
      split at hstep
      · rename_i hall
        obtain ⟨-, rfl⟩ := Prod.mk.inj (Option.some.inj hstep)
        cases needrelease with
        | true =>
            have hholder := h.holder hp (by rw [hpc, Pc.holdsLock])
            refine h.holderMoves hp rfl rfl (fun _ _ => rfl) hall hentries.le hholder rfl ?_
            rw [Holder, hpc] at hholder
            exact hholder
        | false =>
            refine h.besideMoves hp rfl rfl rfl hall hentries.le ?_ ?_ ?_
            · rw [hpc, Pc.holdsLock]
            · intro _ d hr
              rw [Rested, hpc] at hr
              exact hr
            · intro q _ hb
              rw [Beside, hpc] at hb
              exact hb
      · cases hstep
  | after1 needrelease =>
      simp only [hpc, if_neg hp] at hord hentries hstep
      obtain ⟨-, rfl⟩ := Prod.mk.inj (Option.some.inj hstep)
      cases needrelease with
      | true => exact h.release hp hpc
      | false =>
          refine h.besideMoves hp rfl rfl rfl hord hentries.le ?_ ?_ ?_
          · rw [hpc, Pc.holdsLock]
          · intro _ d hr
            rw [Rested, hpc] at hr
            exact hr.2
          · intro q _ hb
            rw [Beside, hpc] at hb
            exact hb.2
  | resetting => exact absurd hpc (h.not_resetting hp)
  | arrive2 =>
      simp only [hpc] at hord hentries hstep
      obtain ⟨-, rfl⟩ := Prod.mk.inj (Option.some.inj hstep)
      refine h.besideMoves hp rfl rfl rfl hord (Nat.le_succ_of_le hentries.le) ?_ ?_ ?_
      · rw [hpc, Pc.holdsLock]
      · intro _ d hr
        rw [Rested, hpc] at hr
        exact hr
      · intro q _ hb
        rw [Beside, hpc] at hb
        exact Or.inl hb
  | wait2 =>
      simp only [hpc] at hentries hstep
      split at hstep
      · rename_i hall
        obtain ⟨-, rfl⟩ := Prod.mk.inj (Option.some.inj hstep)
        refine h.besideMoves hp rfl rfl rfl hall hentries.le ?_ ?_ ?_
        · rw [hpc, Pc.holdsLock]
        · intro _ d hr
          rw [Rested, hpc] at hr
          exact hr
        · -- the thread that holds the lock has not entered the second barrier of its round
          intro q hholder hb
          have hq : P.entries q ≤ 2 * (P.part q).round + 1 := hholder.entries_le
          have hle := hall q
          rw [Beside, hpc] at hb
          rcases hb with hb | hb
          · omega
          · exact hb
      · cases hstep

theorem Procs.Inv.enterStep (h : P.Inv) (hstep : enterStep disk P p = some (disk', P')) : P'.Inv := by
  by_cases hp : p = 0
  · subst hp
    exact h.enterStep_master hstep
  · exact h.enterStep_slave hp hstep

/-- While a thread dumps, no other thread of its node does. -/
theorem Procs.Inv.alone (h : P.Inv) {c : Nat} {stage : Stage} (hpc : (P.part p).pc = .dump c stage)
    {q : Fin (g.slaves + 1)} (hnode : g.node q = g.node p) (hq : q ≠ p) (c' : Nat) (stage' : Stage) :
    (P.part q).pc ≠ .dump c' stage' := by
  by_cases hp : p = 0
  · rw [hp, g.node_zero] at hnode
    exact absurd ((g.node_eq_zero q).mp hnode) (hp ▸ hq)
  · intro hq'
    have hholds : (P.part p).pc.holdsLock = true := by rw [hpc, Pc.holdsLock]
    have hholds' : (P.part q).pc.holdsLock = true := by rw [hq', Pc.holdsLock]
    have hslave := h.slave _ (g.node_ne hp)
    generalize P.lock (g.node p) = locked at hslave
    cases hslave with
    | free _ hr => exact absurd (hholds.symm.trans (hr p rfl).holdsLock) Bool.true_eq_false_eq_False
    | held r hr hholder hbeside =>
        by_cases hpr : p = r
        · subst hpr
          exact absurd (hholds'.symm.trans (hbeside q hnode hq).holdsLock) Bool.true_eq_false_eq_False
        · exact absurd (hholds.symm.trans (hbeside p rfl hpr).holdsLock) Bool.true_eq_false_eq_False

/-- The number of a dump is the counter when it begins. -/
theorem Procs.Inv.number (h : P.Inv) {c : Nat} {stage : Stage} (hpc : (P.part p).pc = .dump c stage) :
    (c = (P.part p).round ∧ P.cnt (g.node p) = (P.part p).round + stage.counted) ∧
      (p ≠ 0 → stage.opensMaster = false) := by
  by_cases hp : p = 0
  · subst hp
    have hm := h.master
    rw [MasterNode, hpc] at hm
    rw [g.node_zero]
    exact ⟨hm.2, fun hp => absurd rfl hp⟩
  · have hholder := h.holder hp (by rw [hpc, Pc.holdsLock])
    rw [Holder, hpc] at hholder
    exact ⟨hholder.1, fun _ => hholder.2⟩

end Processes

/-! ## The files -/

/-- A file that a thread of the node leaves alone, when the counter is `d`. -/
def Leaves (d x : Nat) : Pc → Prop
  | .dump _ (.closing _) => x + 2 = d
  | .dump _ _ => x + 1 = d
  | _ => True

/-- The last two files of a node are complete, apart from the one that is being written or
removed. `base` is the first checkpoint after the start of the processes. -/
def Kept {n : Nat} (base : Nat) (node : Fin (n + 1) → Nat) (part : Fin (n + 1) → Part) (i d : Nat)
    (file : Nat → FileState) : Prop :=
  ∀ x, base ≤ x + 1 → x < d → d ≤ x + 2 → (∀ p, node p = i → Leaves d x (part p).pc) →
    ∃ bytes, file x = .closed bytes

/-- What `.master` holds. -/
def MasterFile (d : Nat) (m : Option (Option Nat)) : Pc → Prop
  | .dump _ (.masterOpened _) => True
  | .dump _ (.removing _) | .dump _ (.counting _) => m = some (some d)
  | _ => m = if d = 0 then none else some (some (d - 1))

section Files

variable {g : Group} {P P' : Procs g} {disk disk' : Disk} {p : Fin (g.slaves + 1)} {pt : Part} {base : Nat}

/-- What holds of the files. -/
structure DiskInv (base : Nat) (disk : Disk) (P : Procs g) : Prop where
  base_le : base ≤ P.cnt 0
  files : ∀ p, Kept base g.node P.part (g.node p) (P.cnt (g.node p)) (disk.file (g.node p))
  master : MasterFile (P.cnt 0) disk.master (P.part 0).pc

theorem Disk.setFile_self (disk : Disk) (i c : Nat) (f : FileState) :
    (disk.setFile i c f).file i = Function.update (disk.file i) c f :=
  Function.update_self ..

theorem Disk.setFile_other (disk : Disk) {i j : Nat} (h : j ≠ i) (c : Nat) (f : FileState) :
    (disk.setFile i c f).file j = disk.file j :=
  Function.update_of_ne h ..

/-- A thread of another node moves. -/
theorem Kept.other {i d : Nat} {file : Nat → FileState} (h : Kept base g.node P.part i d file)
    (hp : g.node p ≠ i) : Kept base g.node (Function.update P.part p pt) i d file := by
  intro x hbase hlt hle hleaves
  apply h x hbase hlt hle
  intro q hq
  have hqp : q ≠ p := by
    rintro rfl
    exact hp hq
  have := hleaves q hq
  rw [Function.update_of_ne hqp] at this
  exact this

/-- A thread of the node moves, and the files that it then leaves alone stay. -/
theorem Kept.own {i d d' : Nat} {file file' : Nat → FileState} (h : Kept base g.node P.part i d file)
    (hp : g.node p = i)
    (hstep : ∀ x, x < d' → d' ≤ x + 2 → Leaves d' x pt.pc → (∃ bytes, file' x = .closed bytes) ∨
      x < d ∧ d ≤ x + 2 ∧ Leaves d x (P.part p).pc ∧ file' x = file x)
    (hothers : ∀ q, g.node q = i → q ≠ p → ∀ x, Leaves d' x (P.part q).pc → Leaves d x (P.part q).pc) :
    Kept base g.node (Function.update P.part p pt) i d' file' := by
  intro x hbase hlt hle hleaves
  have hown := hleaves p hp
  rw [Function.update_self] at hown
  rcases hstep x hlt hle hown with hclosed | ⟨hlt', hle', hleaves', hfile⟩
  · exact hclosed
  · rw [hfile]
    apply h x hbase hlt' hle'
    intro q hq
    by_cases hqp : q = p
    · subst hqp
      exact hleaves'
    · have := hleaves q hq
      rw [Function.update_of_ne hqp] at this
      exact hothers q hq hqp x this

/-- A thread moves that is neither before nor after the move in `DoCheckPoint`, or before its
first statement. -/
theorem DiskInv.move (h : DiskInv base disk P) (hpart : P'.part = Function.update P.part p pt)
    (hcnt : P'.cnt = P.cnt) (hleaves : ∀ d x, Leaves d x (P.part p).pc)
    (hmaster : p = 0 → ∀ d m, MasterFile d m (P.part 0).pc → MasterFile d m pt.pc) :
    DiskInv base disk P' := by
  constructor
  · rw [hcnt]
    exact h.base_le
  · intro q
    rw [hpart, hcnt]
    by_cases hq : g.node p = g.node q
    · apply (h.files q).own hq
      · exact fun x hlt hle _ => Or.inr ⟨hlt, hle, hleaves _ _, rfl⟩
      · exact fun _ _ _ _ hl => hl
    · exact (h.files q).other hq
  · rw [hpart, hcnt]
    by_cases hp : p = 0
    · subst hp
      rw [Function.update_self]
      exact hmaster rfl _ _ h.master
    · rw [Function.update_of_ne (Ne.symm hp)]
      exact h.master

theorem leaves_of_not_dump {pc : Pc} (h : ∀ c stage, pc ≠ .dump c stage) (d x : Nat) : Leaves d x pc := by
  cases pc with
  | dump c stage => exact absurd rfl (h c stage)
  | _ => trivial

/-- A thread takes a step of `DoCheckPoint`. -/
theorem DiskInv.dumpMove (h : DiskInv base disk P) (hinv : P.Inv) {c : Nat} {stage : Stage}
    (hpc : (P.part p).pc = .dump c stage) (hpart : P'.part = Function.update P.part p pt)
    (hcnt : ∀ i, i ≠ g.node p → P'.cnt i = P.cnt i) (hle : P.cnt (g.node p) ≤ P'.cnt (g.node p))
    (hfile : ∀ i, i ≠ g.node p → disk'.file i = disk.file i)
    (hown : ∀ x, x < P'.cnt (g.node p) → P'.cnt (g.node p) ≤ x + 2 → Leaves (P'.cnt (g.node p)) x pt.pc →
      (∃ bytes, disk'.file (g.node p) x = .closed bytes) ∨
        x < P.cnt (g.node p) ∧ P.cnt (g.node p) ≤ x + 2 ∧ Leaves (P.cnt (g.node p)) x (P.part p).pc ∧
          disk'.file (g.node p) x = disk.file (g.node p) x)
    (hmaster : p = 0 → MasterFile (P'.cnt 0) disk'.master pt.pc)
    (hother : p ≠ 0 → disk'.master = disk.master) : DiskInv base disk' P' := by
  constructor
  · by_cases hp : p = 0
    · subst hp
      rw [g.node_zero] at hle
      exact Nat.le_trans h.base_le hle
    · rw [hcnt 0 (Ne.symm (g.node_ne hp))]
      exact h.base_le
  · intro q
    rw [hpart]
    by_cases hq : g.node p = g.node q
    · rw [← hq]
      have hkept := h.files p
      apply hkept.own rfl hown
      exact fun r hr hrp x _ => leaves_of_not_dump (hinv.alone hpc hr hrp) _ _
    · rw [hcnt _ (Ne.symm hq), hfile _ (Ne.symm hq)]
      exact (h.files q).other hq
  · rw [hpart]
    by_cases hp : p = 0
    · subst hp
      rw [Function.update_self]
      exact hmaster rfl
    · rw [Function.update_of_ne (Ne.symm hp), hcnt 0 (Ne.symm (g.node_ne hp)), hother hp]
      exact h.master

/-- The steps of `DoCheckPoint` on the files. -/
theorem DiskInv.dumpStep (h : DiskInv base disk P) (hinv : P.Inv) {c : Nat} {stage : Stage}
    (hpc : (P.part p).pc = .dump c stage) :
    DiskInv base (dumpStep disk P p c stage).1 (dumpStep disk P p c stage).2 := by
  obtain ⟨⟨hnumber, hcnt⟩, hopens⟩ := hinv.number hpc
  have hmaster : p = 0 → MasterFile (P.cnt 0) disk.master (.dump c stage) := by
    rintro rfl
    have := h.master
    rw [hpc] at this
    exact this
  -- nothing on disk changes and the thread leaves the same files alone
  have hsame : ∀ {stage' : Stage}, (∀ d x, Leaves d x (.dump c stage') → Leaves d x (P.part p).pc) →
      ∀ x, x < P.cnt (g.node p) → P.cnt (g.node p) ≤ x + 2 →
        Leaves (P.cnt (g.node p)) x (.dump c stage') →
        (∃ bytes, disk.file (g.node p) x = .closed bytes) ∨
          x < P.cnt (g.node p) ∧ P.cnt (g.node p) ≤ x + 2 ∧ Leaves (P.cnt (g.node p)) x (P.part p).pc ∧
            disk.file (g.node p) x = disk.file (g.node p) x :=
    fun hl x hlt hle hleaves => Or.inr ⟨hlt, hle, hl _ _ hleaves, rfl⟩
  rw [hpc] at hsame
  cases stage with
  | opening =>
      refine h.dumpMove hinv hpc rfl (fun _ _ => rfl) le_rfl
        (fun i hi => disk.setFile_other hi _ _) (fun x hlt hle hleaves => Or.inr ⟨hlt, hle, ?_, ?_⟩)
        hmaster fun _ => rfl
      · rw [hpc]
        exact hleaves
      · -- the file that is opened is the next one
        rw [Checkpoint.dumpStep, Disk.setFile_self]
        apply Function.update_of_ne
        change x < P.cnt (g.node p) at hlt
        rw [hnumber]
        rw [hcnt] at hlt
        exact Nat.ne_of_lt hlt
  | writing out todo =>
      cases todo with
      | nil =>
          rw [Checkpoint.dumpStep]
          split
          · rename_i hp
            refine h.dumpMove hinv hpc rfl (fun _ _ => rfl) le_rfl (fun _ _ => rfl) ?_ (fun _ => trivial)
              fun hp' => absurd hp hp'
            rw [hpc]
            exact hsame fun _ _ hl => hl
          · rename_i hp
            refine h.dumpMove hinv hpc rfl (fun _ _ => rfl) le_rfl (fun _ _ => rfl) ?_
              (fun hp' => absurd hp' hp) fun _ => rfl
            rw [hpc]
            exact hsame fun _ _ hl => hl
      | cons t todo =>
          refine h.dumpMove hinv hpc rfl (fun _ _ => rfl) le_rfl (fun _ _ => rfl) ?_ hmaster fun _ => rfl
          rw [hpc]
          exact hsame fun _ _ hl => hl
  | masterOpened out =>
      refine h.dumpMove hinv hpc rfl (fun _ _ => rfl) le_rfl (fun _ _ => rfl) ?_ ?_ ?_
      · rw [hpc]
        exact hsame fun _ _ hl => hl
      · rintro rfl
        show some (some (P.cnt (g.node 0))) = some (some (P.cnt 0))
        rw [g.node_zero]
      · exact fun hp => absurd (hopens hp) Bool.true_eq_false_eq_False
  | removing out =>
      refine h.dumpMove hinv hpc rfl (fun _ _ => rfl) le_rfl (fun i hi => ?_)
        (fun x hlt hle hleaves => Or.inr ⟨hlt, hle, ?_, ?_⟩) ?_ ?_
      · show (if _ then _ else _ : Disk).file i = _
        split
        · exact disk.setFile_other hi _ _
        · rfl
      · rw [hpc]
        exact hleaves
      · show (if _ then _ else _ : Disk).file _ x = _
        split
        · rw [Disk.setFile_self]
          apply Function.update_of_ne
          change x + 1 = P.cnt (g.node p) at hleaves
          omega
        · rfl
      · intro hp
        show MasterFile (P.cnt 0) (if _ then _ else _ : Disk).master _
        split <;> exact hmaster hp
      · intro hp
        show (if _ then _ else _ : Disk).master = _
        split <;> rfl
  | counting out =>
      have hcnt' : Function.update P.cnt (g.node p) (P.cnt (g.node p) + 1) (g.node p) = P.cnt (g.node p) + 1 :=
        Function.update_self ..
      refine h.dumpMove hinv hpc rfl (fun i hi => Function.update_of_ne hi ..) ?_ (fun _ _ => rfl)
        (fun x hlt hle hleaves => Or.inr ?_) ?_ fun _ => rfl
      · show P.cnt (g.node p) ≤ Function.update P.cnt (g.node p) (P.cnt (g.node p) + 1) (g.node p)
        rw [hcnt']
        exact Nat.le_succ _
      · change x + 2 = Function.update P.cnt (g.node p) (P.cnt (g.node p) + 1) (g.node p) at hleaves
        rw [hcnt'] at hleaves
        refine ⟨by omega, by omega, ?_, rfl⟩
        rw [hpc]
        show x + 1 = P.cnt (g.node p)
        omega
      · rintro rfl
        have hm := hmaster rfl
        show disk.master = if Function.update P.cnt (g.node 0) (P.cnt (g.node 0) + 1) 0 = 0 then none
          else some (some (Function.update P.cnt (g.node 0) (P.cnt (g.node 0) + 1) 0 - 1))
        rw [g.node_zero, Function.update_self, if_neg (Nat.succ_ne_zero _)]
        exact hm
  | closing out =>
      refine h.dumpMove hinv hpc rfl (fun _ _ => rfl) le_rfl
        (fun i hi => disk.setFile_other hi _ _) (fun x hlt hle hleaves => ?_) ?_ fun _ => rfl
      · by_cases hx : x = c
        · left
          rw [hx, Checkpoint.dumpStep, Disk.setFile_self, Function.update_self]
          exact ⟨out, rfl⟩
        · right
          change x < P.cnt (g.node p) at hlt
          change P.cnt (g.node p) ≤ x + 2 at hle
          have hcnt' : P.cnt (g.node p) = (P.part p).round + 1 := hcnt
          refine ⟨hlt, hle, ?_, ?_⟩
          · rw [hpc]
            show x + 2 = P.cnt (g.node p)
            omega
          · rw [Checkpoint.dumpStep, Disk.setFile_self]
            exact Function.update_of_ne hx ..
      · intro hp
        rw [if_pos hp]
        exact hmaster hp

theorem DiskInv.beginDump (h : DiskInv base disk P) {busy : Pc} (hleaves : ∀ d x, Leaves d x (P.part p).pc)
    (hbusy : p = 0 → ∀ d m, MasterFile d m (P.part 0).pc → MasterFile d m busy)
    (hopening : p = 0 → ∀ d m, MasterFile d m (P.part 0).pc →
      MasterFile d m (.dump (P.cnt (g.node p)) .opening)) : DiskInv base disk (P.beginDump p busy) := by
  rw [Procs.beginDump]
  split
  · exact h.move rfl rfl hleaves hbusy
  · exact h.move rfl rfl hleaves hopening

/-- The steps of `Enter` on the files. -/
theorem DiskInv.enterStep (h : DiskInv base disk P) (hinv : P.Inv)
    (hstep : enterStep disk P p = some (disk', P')) : DiskInv base disk' P' := by
  rw [Checkpoint.enterStep] at hstep
  cases hpc : (P.part p).pc with
  | dump c stage =>
      simp only [hpc] at hstep
      have hdisk := h.dumpStep hinv hpc
      rw [Option.some.inj hstep] at hdisk
      exact hdisk
  | outside =>
      simp only [hpc] at hstep
      obtain ⟨rfl, rfl⟩ := Prod.mk.inj (Option.some.inj hstep)
      have hleaves : ∀ d x, Leaves d x (P.part p).pc := fun _ _ => hpc ▸ trivial
      split
      · rename_i hp
        subst hp
        exact h.move rfl rfl hleaves fun _ d m hm => by rw [hpc] at hm; exact hm
      · rename_i hp
        exact h.beginDump hleaves (fun h0 => absurd h0 hp) fun h0 => absurd h0 hp
  | after1 needrelease =>
      simp only [hpc] at hstep
      obtain ⟨rfl, rfl⟩ := Prod.mk.inj (Option.some.inj hstep)
      have hleaves : ∀ d x, Leaves d x (P.part p).pc := fun _ _ => hpc ▸ trivial
      split
      · rename_i hp
        subst hp
        exact h.beginDump hleaves (fun _ d m hm => by rw [hpc] at hm; exact hm)
          fun _ d m hm => by rw [hpc] at hm; exact hm
      · rename_i hp
        split
        · exact h.move rfl rfl hleaves fun h0 => absurd h0 hp
        · exact h.move rfl rfl hleaves fun h0 => absurd h0 hp
  | wait1 needrelease =>
      simp only [hpc] at hstep
      split at hstep
      · obtain ⟨rfl, rfl⟩ := Prod.mk.inj (Option.some.inj hstep)
        refine h.move rfl rfl (fun _ _ => hpc ▸ trivial) fun h0 d m hm => ?_
        subst h0
        rw [hpc] at hm
        exact hm
      · cases hstep
  | wait2 =>
      simp only [hpc] at hstep
      split at hstep
      · obtain ⟨rfl, rfl⟩ := Prod.mk.inj (Option.some.inj hstep)
        refine h.move rfl rfl (fun _ _ => hpc ▸ trivial) fun h0 d m hm => ?_
        subst h0
        rw [hpc] at hm
        exact hm
      · cases hstep
  | arrive1 _ | resetting | arrive2 =>
      simp only [hpc] at hstep
      obtain ⟨rfl, rfl⟩ := Prod.mk.inj (Option.some.inj hstep)
      refine h.move rfl rfl (fun _ _ => hpc ▸ trivial) fun h0 d m hm => ?_
      subst h0
      rw [hpc] at hm
      exact hm

/-! ## Safe crashes -/

/-- `.master` is being written, or names a dump that is not closed. -/
def Stage.committing : Stage → Bool
  | .masterOpened _ | .removing _ | .counting _ | .closing _ => true
  | _ => false

/-- The master's thread is between the opening of `.master` and the end of `DoCheckPoint`. -/
def Procs.committing (P : Procs g) : Bool :=
  match (P.part 0).pc with
  | .dump _ stage => stage.committing
  | _ => false

/-- Every node has a complete file of the checkpoint that is read from `.master`. -/
def Recoverable (g : Group) (disk : Disk) : Prop :=
  ∀ c, masterCheckCheckPoint disk = some c → ∀ i < g.cluster.numNodes, ∃ bytes, disk.file i c = .closed bytes

/-- A thread of a slave that is not ahead of the counter of its node, and not far behind it. -/
theorem SlaveNode.exists_near {n : Nat} {node : Fin (n + 1) → Nat} {part : Fin (n + 1) → Part} {i d : Nat}
    {locked : Bool} (h : SlaveNode node part i d locked) {p : Fin (n + 1)} (hp : node p = i)
    (hne : ∀ q, node q = i → q ≠ 0) : ∃ q, q ≠ 0 ∧ (part q).entries false ≤ 2 * d ∧ 2 * d ≤ (part q).left false + 2 := by
  cases h with
  | free hall hrested =>
      refine ⟨p, hne p hp, ?_⟩
      have hr := hrested p hp
      rw [Rested] at hr
      rw [Part.entries, Part.left]
      cases hpc : (part p).pc <;> simp only [hpc] at hr ⊢ <;> first | exact hr.elim | omega
  | held q hq hholder hbeside =>
      refine ⟨q, hne q hq, ?_⟩
      rw [Holder] at hholder
      rw [Part.entries, Part.left]
      cases hpc : (part q).pc with
      | dump c stage =>
          simp only [hpc] at hholder ⊢
          have : stage.counted ≤ 1 := by cases stage <;> simp [Stage.counted]
          simp only [Bool.false_eq_true, if_false]
          omega
      | _ => simp only [hpc] at hholder ⊢ <;> first | exact hholder.elim | omega

/-- The master's counter agrees with the barriers that its thread has passed. -/
theorem MasterNode.near {pt : Part} {d : Nat} {locked : Bool} (h : MasterNode pt d locked)
    (hcommit : ∀ c stage, pt.pc = .dump c stage → stage.committing = false) :
    2 * d ≤ pt.left true + 1 ∧ pt.entries true ≤ 2 * d + 1 := by
  rw [MasterNode] at h
  rw [Part.left, Part.entries]
  cases hpc : pt.pc with
  | dump c stage =>
      simp only [hpc] at h ⊢
      have hstage := hcommit c stage hpc
      have hcounted : stage.counted = 0 := by
        cases stage with
        | closing out => cases hstage
        | _ => rfl
      rw [if_pos trivial]
      omega
  | _ =>
      simp only [hpc] at h ⊢
      omega

theorem Procs.committing_false (h : P.committing = false) {c : Nat} {stage : Stage}
    (hpc : (P.part 0).pc = .dump c stage) : stage.committing = false := by
  rw [Procs.committing, hpc] at h
  exact h

/-- Outside the window every node keeps the file before the master's counter. -/
theorem leaves_last (hinv : P.Inv) (hcommit : P.committing = false) {x : Nat} (hx : x + 1 = P.cnt 0)
    (p : Fin (g.slaves + 1)) :
    x < P.cnt (g.node p) ∧ P.cnt (g.node p) ≤ x + 2 ∧
      ∀ q, g.node q = g.node p → Leaves (P.cnt (g.node p)) x (P.part q).pc := by
  obtain ⟨hleft, hentries⟩ := hinv.master.near fun c stage => P.committing_false hcommit
  by_cases hp : p = 0
  · subst hp
    rw [g.node_zero]
    refine ⟨by omega, by omega, fun q hq => ?_⟩
    obtain rfl := (g.node_eq_zero q).mp hq
    cases hpc : (P.part 0).pc with
    | dump c stage =>
        have hstage := P.committing_false hcommit hpc
        cases stage with
        | closing out => cases hstage
        | _ => exact hx
    | _ => trivial
  · have hne : ∀ q, g.node q = g.node p → q ≠ 0 := by
      rintro q hq rfl
      rw [g.node_zero] at hq
      exact g.node_ne hp hq.symm
    obtain ⟨q, hq, hqe, hql⟩ := (hinv.slave _ (g.node_ne hp)).exists_near rfl hne
    have h0q := hinv.ordered 0 q
    have hq0 := hinv.ordered q 0
    rw [decide_eq_false hq] at h0q hq0
    change (P.part 0).left true ≤ _ at h0q
    change _ ≤ (P.part 0).entries true at hq0
    refine ⟨by omega, by omega, fun r hr => ?_⟩
    cases hpc : (P.part r).pc with
    | dump c stage =>
        -- a dump is in the round of the master
        obtain ⟨⟨-, hcnt⟩, -⟩ := hinv.number hpc
        have h0r := hinv.ordered 0 r
        have hr0 := hinv.ordered r 0
        rw [decide_eq_false (hne r hr), Part.entries, hpc] at h0r
        rw [decide_eq_false (hne r hr), Part.left, hpc] at hr0
        change (P.part 0).left true ≤ 2 * (P.part r).round at h0r
        change 2 * (P.part r).round ≤ (P.part 0).entries true at hr0
        rw [hr] at hcnt
        cases stage with
        | closing out =>
            change P.cnt (g.node p) = (P.part r).round + 1 at hcnt
            show x + 2 = P.cnt (g.node p)
            omega
        | _ =>
            change P.cnt (g.node p) = (P.part r).round at hcnt
            show x + 1 = P.cnt (g.node p)
            omega
    | _ => trivial

/-- `.master` is absent, or names a checkpoint of which every node has a complete file. -/
def Settled (g : Group) (disk : Disk) : Prop :=
  disk.master = none ∨ ∃ c, disk.master = some (some c) ∧
    ∀ i < g.cluster.numNodes, ∃ bytes, disk.file i c = .closed bytes

theorem Settled.recoverable (h : Settled g disk) : Recoverable g disk := by
  intro c hc
  rw [masterCheckCheckPoint] at hc
  rcases h with h | ⟨c', h, hfiles⟩
  · rw [h] at hc
    cases hc
  · rw [h] at hc
    obtain rfl : c' = c := Option.some.inj hc
    exact hfiles

/-- Outside the window a crash is safe. -/
theorem DiskInv.settled (h : DiskInv base disk P) (hinv : P.Inv) (hcommit : P.committing = false)
    (hcover : ∀ i < g.cluster.numNodes, ∃ p, g.node p = i) : Settled g disk := by
  have hmaster : disk.master = if P.cnt 0 = 0 then none else some (some (P.cnt 0 - 1)) := by
    have hm := h.master
    cases hpc : (P.part 0).pc with
    | dump c stage =>
        rw [hpc] at hm
        have hstage := P.committing_false hcommit hpc
        cases stage with
        | opening => exact hm
        | writing out todo => exact hm
        | _ => cases hstage
    | _ =>
        rw [hpc] at hm
        exact hm
  split at hmaster
  · exact Or.inl hmaster
  · rename_i hpos
    refine Or.inr ⟨P.cnt 0 - 1, hmaster, fun i hi => ?_⟩
    obtain ⟨p, rfl⟩ := hcover i hi
    have hx : P.cnt 0 - 1 + 1 = P.cnt 0 := Nat.succ_pred hpos
    obtain ⟨hlt, hle, hleaves⟩ := leaves_last hinv hcommit hx p
    apply h.files p _ _ hlt hle hleaves
    rw [hx]
    exact h.base_le

/-! ## Runs -/

/-- The invariant of the whole run. -/
def State.Inv (s : State g) : Prop :=
  match s.procs with
  | none => Settled g s.disk
  | some P => P.Inv ∧ ∃ base, DiskInv base s.disk P

/-- A crash comes only outside the window. -/
def Careful (s : State g) : Act g → Prop
  | .crash => ∀ P ∈ s.procs, P.committing = false
  | _ => True

theorem Procs.inv_launched (d : Dsm) (ps : Nat → Process) (round : Nat) :
    (Procs.launched d ps round : Procs g).Inv := by
  constructor
  · exact fun p q => Nat.le_refl (2 * round)
  · exact ⟨rfl, rfl⟩
  · exact fun i hi => .free (fun q => Nat.le_succ (2 * round)) fun q hq => rfl

theorem DiskInv.launched (d : Dsm) (ps : Nat → Process) {round : Nat}
    (hmaster : disk.master = if round = 0 then none else some (some (round - 1)))
    (hfiles : ∀ x, x + 1 = round → ∀ i < g.cluster.numNodes, ∃ bytes, disk.file i x = .closed bytes) :
    DiskInv round disk (Procs.launched d ps round : Procs g) := by
  constructor
  · exact Nat.le_refl round
  · intro p x hbase hlt _ _
    exact hfiles x (Nat.le_antisymm hlt hbase) _ (g.node_lt p)
  · exact hmaster

theorem State.Inv.launch {s : State g} (hs : Settled g s.disk) {fuel : Nat} {order : List Nat}
    (hlaunch : Checkpoint.launch g fuel order s.disk = some P) : State.Inv ⟨s.disk, some P⟩ := by
  rw [Checkpoint.launch, masterCheckCheckPoint] at hlaunch
  rcases hs with hnone | ⟨c, hc, hfiles⟩
  · rw [hnone] at hlaunch
    obtain rfl := Option.some.inj hlaunch
    refine ⟨Procs.inv_launched .., 0, DiskInv.launched _ _ hnone fun x hx => ?_⟩
    exact absurd hx (Nat.succ_ne_zero x)
  · rw [hc] at hlaunch
    obtain ⟨files, -, hlaunch⟩ := Option.bind_eq_some_iff.mp hlaunch
    obtain ⟨⟨d, ps⟩, -, heq⟩ := Option.bind_eq_some_iff.mp hlaunch
    obtain rfl := Option.some.inj heq
    refine ⟨Procs.inv_launched .., c + 1, DiskInv.launched _ _ hc fun x hx => ?_⟩
    obtain rfl : x = c := Nat.succ.inj hx
    exact hfiles

/-- A call of the program changes no thread, lock or counter. -/
theorem Procs.call_frame {i : Nat} {call : Call} (h : P.call i call = some P') :
    P'.part = P.part ∧ P'.lock = P.lock ∧ P'.cnt = P.cnt := by
  cases call with
  | put key w v =>
      obtain rfl := Option.some.inj h
      exact ⟨rfl, rfl, rfl⟩
  | newobj key flag size =>
      obtain rfl := Option.some.inj h
      exact ⟨rfl, rfl, rfl⟩
  | del key =>
      obtain rfl := Option.some.inj h
      exact ⟨rfl, rfl, rfl⟩
  | pushObject key | deleteObject key =>
      rw [Procs.call] at h
      split at h
      · cases h
      · obtain rfl := Option.some.inj h
        exact ⟨rfl, rfl, rfl⟩

theorem Procs.Inv.call (hinv : P.Inv) {i : Nat} {call : Call} (h : P.call i call = some P') : P'.Inv := by
  obtain ⟨hpart, hlock, hcnt⟩ := P.call_frame h
  constructor
  · rw [hpart]
    exact hinv.ordered
  · rw [hpart, hlock, hcnt]
    exact hinv.master
  · rw [hpart, hlock, hcnt]
    exact hinv.slave

theorem DiskInv.call (hdisk : DiskInv base disk P) {i : Nat} {call : Call} (h : P.call i call = some P') :
    DiskInv base disk P' := by
  obtain ⟨hpart, -, hcnt⟩ := P.call_frame h
  constructor
  · rw [hcnt]
    exact hdisk.base_le
  · rw [hpart, hcnt]
    exact hdisk.files
  · rw [hpart, hcnt]
    exact hdisk.master

theorem inv_step (hcover : ∀ i < g.cluster.numNodes, ∃ p, g.node p = i) {s t : State g} {a : Act g}
    (hs : s.Inv) (hok : Careful s a) (hstep : step s a = some t) : t.Inv := by
  rw [State.Inv] at hs
  cases hprocs : s.procs with
  | none =>
      rw [hprocs] at hs
      cases a with
      | launch fuel order =>
          simp only [step, hprocs] at hstep
          obtain ⟨P, hP, rfl⟩ := Option.map_eq_some_iff.mp hstep
          exact State.Inv.launch hs hP
      | crash | call _ _ | enter _ =>
          simp only [step, hprocs] at hstep
          cases hstep
  | some P =>
      rw [hprocs] at hs
      obtain ⟨hinv, base, hdisk⟩ := hs
      cases a with
      | launch fuel order =>
          simp only [step, hprocs] at hstep
          cases hstep
      | crash =>
          simp only [step, hprocs] at hstep
          obtain rfl := Option.some.inj hstep
          exact hdisk.settled hinv (hok P hprocs) hcover
      | call p call =>
          simp only [step, hprocs, Option.bind_some] at hstep
          split at hstep
          · obtain ⟨P', hP', rfl⟩ := Option.map_eq_some_iff.mp hstep
            exact ⟨hinv.call hP', base, hdisk.call hP'⟩
          · cases hstep
      | enter p =>
          simp only [step, hprocs, Option.bind_some] at hstep
          obtain ⟨⟨disk', P'⟩, hP', rfl⟩ := Option.map_eq_some_iff.mp hstep
          exact ⟨hinv.enterStep hP', base, hdisk.enterStep hinv hP'⟩

/-- In every run of rounds, crashes and restarts, if every node has a thread in the barrier and
no crash comes while the master is between the opening of `.master` and the end of its
`DoCheckPoint`, then after every crash all nodes have a complete file of the checkpoint that
`.master` names. -/
theorem crashes_recoverable (g : Group) (hcover : ∀ i < g.cluster.numNodes, ∃ p, g.node p = i)
    (file : Nat → Nat → FileState) (acts : List (Act g)) {s : State g}
    (hok : Along step Careful (State.start file) acts) (hrun : run step (State.start file) acts = some s)
    (hdown : s.procs = none) : Recoverable g s.disk := by
  have hinv : s.Inv := by
    apply invariant_run (fun _ _ _ hs hok hstep => inv_step hcover hs hok hstep) _ hok hrun
    exact Or.inl rfl
  rw [State.Inv, hdown] at hinv
  exact Settled.recoverable hinv

/-- A master and a slave with one thread each, no global variables and no members. -/
def twoNodes : Group where
  cluster := ⟨2, Nat.two_pos, [], fun _ => []⟩
  slaves := 1
  node := fun p => p.val
  node_lt := fun p => p.isLt
  node_eq_zero := fun _ => Fin.val_eq_zero_iff
  junk := fun _ _ => (0, 0)
  blank := fun _ => ⟨∅, []⟩

theorem twoNodes_cover : ∀ i < twoNodes.cluster.numNodes, ∃ p, twoNodes.node p = i :=
  fun i hi => ⟨⟨i, hi⟩, rfl⟩

/-- The slave's thread dumps and waits in the first barrier; the master's thread has `.master`
open. -/
def masterOpens : List (Act twoNodes) :=
  [.launch 0 []] ++ List.replicate 11 (.enter 1) ++ List.replicate 12 (.enter 0)

instance (s : State g) : ∀ a, Decidable (Careful s a)
  | .crash => inferInstanceAs (Decidable (∀ P ∈ s.procs, P.committing = false))
  | .launch _ _ | .call _ _ | .enter _ => inferInstanceAs (Decidable True)

theorem crashes_recoverable_after_dump :
    ∃ s, run step (State.start fun _ _ => .absent)
        (masterOpens ++ List.replicate 4 (.enter 0) ++ [.crash]) = some s ∧
      masterCheckCheckPoint s.disk = some 0 ∧ Recoverable twoNodes s.disk := by
  obtain ⟨acts, hacts⟩ : ∃ acts, acts = masterOpens ++ List.replicate 4 (.enter 0) ++ [.crash] := ⟨_, rfl⟩
  have hcrash : (run step (State.start fun _ _ => .absent) acts).map
      (fun s => (s.procs.isNone, masterCheckCheckPoint s.disk)) = some (true, some 0) := by
    rw [hacts]
    decide +kernel
  have hok : Along step Careful (State.start fun _ _ => .absent) acts := by
    rw [hacts]
    apply along_of_check
    decide +kernel
  rw [← hacts]
  obtain ⟨s, hs, heq⟩ := Option.map_eq_some_iff.mp hcrash
  obtain ⟨hdown, hmaster⟩ := Prod.mk.inj heq
  exact ⟨s, hs, hmaster,
    crashes_recoverable twoNodes twoNodes_cover _ acts hok hs (Option.isNone_iff_eq_none.mp hdown)⟩

def FileState.isClosed : FileState → Bool
  | .closed _ => true
  | _ => false

/-- When the master crashes after it has written `.master`, its own dump is not complete. -/
theorem master_named_too_early :
    ¬∀ (g : Group), (∀ i < g.cluster.numNodes, ∃ p, g.node p = i) → ∀ file (acts : List (Act g)) s,
      run step (State.start file) acts = some s → s.procs = none → Recoverable g s.disk := by
  intro hall
  obtain ⟨acts, hacts⟩ : ∃ acts, acts = masterOpens ++ [.enter 0, .crash] := ⟨_, rfl⟩
  have hcrash : (run step (State.start fun _ _ => .absent) acts).map
      (fun s => (s.procs.isNone, masterCheckCheckPoint s.disk, (s.disk.file 0 0).isClosed)) =
      some (true, some 0, false) := by
    rw [hacts]
    decide +kernel
  obtain ⟨s, hs, heq⟩ := Option.map_eq_some_iff.mp hcrash
  obtain ⟨hdown, heq⟩ := Prod.mk.inj heq
  obtain ⟨hmaster, hfile⟩ := Prod.mk.inj heq
  obtain ⟨bytes, hbytes⟩ := hall twoNodes twoNodes_cover _ acts s hs (Option.isNone_iff_eq_none.mp hdown) 0
    hmaster 0 Nat.two_pos
  rw [hbytes] at hfile
  cases hfile

end Files

end Dogee.Checkpoint
