import Mathlib.Data.Multiset.AddSub
import Mathlib.Control.Lawful

/-!
# Code that takes locks

Code runs with the locks that its thread holds. It may take a lock again, so that the
locks are a multiset. It returns, its process stops, it is still running, or it releases a
lock that it does not hold. `Runs` excludes the last two; its rules are equivalences, so
that they compute it.
-/

namespace Dogee.LockCode

/-- Why code does not return. -/
inductive Halt
  | stopped
  | running
  | notHeld
  deriving DecidableEq

abbrev Code (L : Type) := StateT (Multiset L) (Except Halt)

variable {L : Type} [DecidableEq L] {α β : Type}

def enter (l : L) : Code L Unit := fun held => .ok ((), l ::ₘ held)

def leave (l : L) : Code L Unit := fun held =>
  if l ∈ held then .ok ((), held.erase l) else .error .notHeld

def halt (why : Halt) : Code L α := fun _ => .error why

/-- The code returns with `post`, or the process stops. -/
def Runs (held : Multiset L) (c : Code L α) (post : α → Multiset L → Prop) : Prop :=
  match c held with
  | .ok r => post r.1 r.2
  | .error why => why = .stopped

/-- The code returns with the locks that it had at the start, or the process stops. -/
def Keeps (held : Multiset L) (c : Code L α) : Prop := Runs held c fun _ held' => held' = held

section Rules

variable {held : Multiset L} {post : α → Multiset L → Prop}

omit [DecidableEq L] in
@[simp] theorem runs_pure (a : α) : Runs held (pure a : Code L α) post ↔ post a held := Iff.rfl

omit [DecidableEq L] in
@[simp] theorem runs_bind (c : Code L β) (f : β → Code L α) :
    Runs held (c >>= f) post ↔ Runs held c fun b held' => Runs held' (f b) post := by
  have hbind : (c >>= f) held = (c held >>= fun r => f r.1 r.2) := rfl
  rw [Runs, hbind, Runs]
  cases c held with
  | ok r => rfl
  | error why => rfl

omit [DecidableEq L] in
@[simp] theorem runs_map (c : Code L β) (f : β → α) :
    Runs held (f <$> c) post ↔ Runs held c fun b held' => post (f b) held' := by
  rw [map_eq_pure_bind, runs_bind]
  rfl

omit [DecidableEq L] in
@[simp] theorem runs_enter (l : L) (post : Unit → Multiset L → Prop) :
    Runs held (enter l) post ↔ post () (l ::ₘ held) := Iff.rfl

@[simp] theorem runs_leave (l : L) (post : Unit → Multiset L → Prop) :
    Runs held (leave l) post ↔ l ∈ held ∧ post () (held.erase l) := by
  rw [Runs, leave]
  by_cases hl : l ∈ held
  · simp [hl]
  · simp [hl]

omit [DecidableEq L] in
@[simp] theorem runs_halt {why : Halt} : Runs held (halt why : Code L α) post ↔ why = .stopped := Iff.rfl

omit [DecidableEq L] in
theorem runs_ite (p : Prop) [Decidable p] (c c' : Code L α) :
    Runs held (if p then c else c') post ↔ (p → Runs held c post) ∧ (¬p → Runs held c' post) := by
  split
  · rename_i hp
    simp [hp]
  · rename_i hp
    simp [hp]

/-- Leaving a lock gives back what was held before entering it. -/
theorem mem_and_erase_eq {l : L} {held' : Multiset L} :
    l ∈ held' ∧ held'.erase l = held ↔ held' = l ::ₘ held := by
  constructor
  · rintro ⟨hl, rfl⟩
    exact (Multiset.cons_erase hl).symm
  · rintro rfl
    simp

/-- Code before a release gives back what was held before the lock if and only if it keeps the
locks. -/
theorem runs_section (l : L) (c : Code L α) :
    (Runs (l ::ₘ held) c fun _ held' => l ∈ held' ∧ held'.erase l = held) ↔ Keeps (l ::ₘ held) c := by
  simp only [Keeps, mem_and_erase_eq]

omit [DecidableEq L] in
theorem Runs.mono {c : Code L α} {post' : α → Multiset L → Prop} (h : Runs held c post)
    (hpost : ∀ a held', post a held' → post' a held') : Runs held c post' := by
  rw [Runs] at h ⊢
  cases hc : c held with
  | ok r =>
      rw [hc] at h
      exact hpost r.1 r.2 h
  | error why =>
      rw [hc] at h
      exact h

omit [DecidableEq L] in
theorem Keeps.runs {c : Code L α} (h : Keeps held c) (hpost : ∀ a, post a held) : Runs held c post := by
  apply Runs.mono h
  rintro a held' rfl
  exact hpost a

omit [DecidableEq L] in
theorem ne_cons (held : Multiset L) (l : L) : l ::ₘ held ≠ held := by
  intro h
  have := congrArg Multiset.card h
  rw [Multiset.card_cons] at this
  omega

theorem erase_ne {l : L} (hl : l ∈ held) : held.erase l ≠ held := by
  intro h
  apply ne_cons held l
  calc
    l ::ₘ held = l ::ₘ held.erase l := by rw [h]
    _ = held := Multiset.cons_erase hl

omit [DecidableEq L] in
/-- A loop in which one turn does something. -/
theorem forM_single {s : Nat} {c : Code L PUnit} {p : Nat → Prop} [DecidablePred p] {nodes : List Nat}
    (hnodup : nodes.Nodup) :
    (forM nodes fun i => if p i then (if i = s then c else pure ⟨⟩) else pure ⟨⟩) =
      if s ∈ nodes ∧ p s then c else pure ⟨⟩ := by
  induction nodes with
  | nil => simp
  | cons i nodes ih =>
      obtain ⟨hi, hnodup⟩ := List.nodup_cons.mp hnodup
      rw [List.forM_cons, ih hnodup]
      by_cases his : i = s
      · subst his
        by_cases hp : p i
        · simp [hi, hp]
        · simp [hp]
      · simp [his, Ne.symm his]

end Rules

end Dogee.LockCode
