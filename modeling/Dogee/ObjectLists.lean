import Dogee.Address
import Dogee.Transition
import Mathlib.Data.Finset.Sort
import Mathlib.Data.List.FinRange

/-!
# The object lists of the nodes

Every process keeps a set of the objects that it allocated. `AllocObjectId` adds the object to the
backend and then to the set of the process that calls it; `DelObj` takes the object out of the set of
the process that calls it and then out of the backend. A checkpoint of a node dumps the objects of its
own set.

Any number of threads run on each node; each access to the backend and each locked access to a set is a
step. `pending` has the objects that some call is about to add to a set or to delete: a program deletes
an object that is there and that no other call is about to delete.
-/

namespace Dogee.ObjectLists

open Transition

/-- `DOGEE_MAX_SHARED_KEY_TRIES` -/
def maxTries : Nat := 200

/-- Where a thread is. -/
inductive Phase
  | idle
  | trying (key : ObjectKey) (i : Nat)
  | pushing (key : ObjectKey)
  | deleting (key : ObjectKey)
  | aborted
deriving DecidableEq

structure State where
  objects : Finset ObjectKey
  objectList : Nat → Finset ObjectKey
  phase : Nat → Nat → Phase
  pending : Finset ObjectKey

def start : State := ⟨∅, fun _ => ∅, fun _ _ => .idle, ∅⟩

namespace State

def setPhase (s : State) (n t : Nat) (ph : Phase) : State :=
  { s with phase := Function.update s.phase n (Function.update (s.phase n) t ph) }

/-- `PushObject` -/
def pushObject (s : State) (n : Nat) (key : ObjectKey) : State :=
  { s with objectList := Function.update s.objectList n (insert key (s.objectList n)) }

/-- `DeleteObject` -/
def deleteObject (s : State) (n : Nat) (key : ObjectKey) : State :=
  { s with objectList := Function.update s.objectList n ((s.objectList n).erase key) }

/-- No call is in progress. -/
def Quiet (s : State) : Prop := ∀ n t, s.phase n t = .idle

end State

/-- The steps of the thread `t` of node `n`. -/
inductive Act
  | alloc (n t : Nat) (key : ObjectKey)
  | newobj (n t : Nat)
  | push (n t : Nat)
  | delete (n t : Nat) (key : ObjectKey)
  | del (n t : Nat)

/-- The node that takes the step. -/
def Act.node : Act → Nat
  | .alloc n _ _ => n
  | .newobj n _ => n
  | .push n _ => n
  | .delete n _ _ => n
  | .del n _ => n

def apply (s : State) : Act → Option State
  -- the first nonzero value of rand()
  | .alloc n t key => if s.phase n t = .idle ∧ key ≠ 0 then some (s.setPhase n t (.trying key 0)) else none
  | .newobj n t =>
      match s.phase n t with
      | .trying key i =>
          if i < maxTries then
            if key ∈ s.objects then some (s.setPhase n t (.trying key (i + 1)))
            else some ({ s with objects := insert key s.objects, pending := insert key s.pending }.setPhase n t
              (.pushing key))
          else some (s.setPhase n t .aborted)
      | _ => none
  | .push n t =>
      match s.phase n t with
      | .pushing key =>
          some (({ s with pending := s.pending.erase key }.pushObject n key).setPhase n t .idle)
      | _ => none
  | .delete n t key =>
      if s.phase n t = .idle ∧ key ∈ s.objects ∧ key ∉ s.pending then
        some (({ s with pending := insert key s.pending }.deleteObject n key).setPhase n t (.deleting key))
      else none
  | .del n t =>
      match s.phase n t with
      | .deleting key =>
          some ({ s with objects := s.objects.erase key, pending := s.pending.erase key }.setPhase n t .idle)
      | _ => none

def step (numNodes : Nat) (s : State) (a : Act) : Option State :=
  if a.node < numNodes then apply s a else none

/-- The keys that the checkpoints of the nodes dump, node by node. -/
def dumped (numNodes : Nat) (s : State) : List ObjectKey :=
  (List.range numNodes).flatMap fun n => (s.objectList n).sort (· ≤ ·)

/-- The sets have every object exactly once, and nothing else. -/
def Covered (s : State) : Prop :=
  (∀ key ∈ s.objects, ∃! n, key ∈ s.objectList n) ∧ ∀ n, ∀ key ∈ s.objectList n, key ∈ s.objects

/-- An object is deleted on the node whose set has it. -/
def DeletesOwn (s : State) : Act → Prop
  | .delete n _ key => key ∈ s.objectList n
  | _ => True

instance (s : State) (a : Act) : Decidable (DeletesOwn s a) :=
  match a with
  | .delete n _ key => inferInstanceAs (Decidable (key ∈ s.objectList n))
  | .alloc _ _ _ => inferInstanceAs (Decidable True)
  | .newobj _ _ => inferInstanceAs (Decidable True)
  | .push _ _ => inferInstanceAs (Decidable True)
  | .del _ _ => inferInstanceAs (Decidable True)

/-- What a step can do. -/
inductive Applied (s : State) : Act → State → Prop
  | alloc {n t : Nat} {key : ObjectKey} (hphase : s.phase n t = .idle) (hkey : key ≠ 0) :
      Applied s (.alloc n t key) (s.setPhase n t (.trying key 0))
  /-- The key is in use, or there are no tries left. -/
  | missed {n t : Nat} {key : ObjectKey} {i : Nat} {ph : Phase} (hphase : s.phase n t = .trying key i)
      (hph : ph = .trying key (i + 1) ∨ ph = .aborted) : Applied s (.newobj n t) (s.setPhase n t ph)
  | newobj {n t : Nat} {key : ObjectKey} {i : Nat} (hphase : s.phase n t = .trying key i) (hnew : key ∉ s.objects) :
      Applied s (.newobj n t)
        ({ s with objects := insert key s.objects, pending := insert key s.pending }.setPhase n t (.pushing key))
  | push {n t : Nat} {key : ObjectKey} (hphase : s.phase n t = .pushing key) :
      Applied s (.push n t) (({ s with pending := s.pending.erase key }.pushObject n key).setPhase n t .idle)
  | delete {n t : Nat} {key : ObjectKey} (hphase : s.phase n t = .idle) (hkey : key ∈ s.objects)
      (hfree : key ∉ s.pending) :
      Applied s (.delete n t key)
        (({ s with pending := insert key s.pending }.deleteObject n key).setPhase n t (.deleting key))
  | del {n t : Nat} {key : ObjectKey} (hphase : s.phase n t = .deleting key) :
      Applied s (.del n t)
        ({ s with objects := s.objects.erase key, pending := s.pending.erase key }.setPhase n t .idle)

theorem applied_of_apply {s s' : State} {a : Act} (hstep : apply s a = some s') : Applied s a s' := by
  cases a with
  | alloc n t key =>
      obtain ⟨⟨hphase, hkey⟩, heq⟩ := Option.ite_none_right_eq_some.mp hstep
      obtain rfl := Option.some.inj heq
      exact .alloc hphase hkey
  | newobj n t =>
      unfold apply at hstep
      dsimp only at hstep
      split at hstep
      · rename_i key i hphase
        split at hstep
        · split at hstep
          · obtain rfl := Option.some.inj hstep
            exact .missed hphase (Or.inl rfl)
          · rename_i hnew
            obtain rfl := Option.some.inj hstep
            exact .newobj hphase hnew
        · obtain rfl := Option.some.inj hstep
          exact .missed hphase (Or.inr rfl)
      · cases hstep
  | push n t =>
      unfold apply at hstep
      dsimp only at hstep
      split at hstep
      · rename_i key hphase
        obtain rfl := Option.some.inj hstep
        exact .push hphase
      · cases hstep
  | delete n t key =>
      obtain ⟨⟨hphase, hkey, hfree⟩, heq⟩ := Option.ite_none_right_eq_some.mp hstep
      obtain rfl := Option.some.inj heq
      exact .delete hphase hkey hfree
  | del n t =>
      unfold apply at hstep
      dsimp only at hstep
      split at hstep
      · rename_i key hphase
        obtain rfl := Option.some.inj hstep
        exact .del hphase
      · cases hstep

theorem apply_newobj_of {s : State} {n t i : Nat} {key : ObjectKey} (hphase : s.phase n t = .trying key i)
    (hi : i < maxTries) (hnew : key ∉ s.objects) :
    apply s (.newobj n t) = some ({ s with objects := insert key s.objects,
                                           pending := insert key s.pending }.setPhase n t (.pushing key)) := by
  simp only [apply, hphase, if_pos hi, if_neg hnew]

theorem apply_push_of {s : State} {n t : Nat} {key : ObjectKey} (hphase : s.phase n t = .pushing key) :
    apply s (.push n t) =
      some (({ s with pending := s.pending.erase key }.pushObject n key).setPhase n t .idle) := by
  simp only [apply, hphase]

/-! ## Who has an object -/

/-- A set or a thread. -/
inductive Owner
  | list (n : Nat)
  | thread (n t : Nat)

/-- The thread is about to add the object to a set, or to delete it. -/
def Phase.Owns (ph : Phase) (key : ObjectKey) : Prop := ph = .pushing key ∨ ph = .deleting key

def Owns (s : State) (key : ObjectKey) : Owner → Prop
  | .list n => key ∈ s.objectList n
  | .thread n t => (s.phase n t).Owns key

/-- Every object of the backend has one owner, and nothing else has any. -/
structure Inv (s : State) : Prop where
  unique : ∀ key o o', Owns s key o → Owns s key o' → o = o'
  object : ∀ key o, Owns s key o → key ∈ s.objects
  owned : ∀ key ∈ s.objects, ∃ o, Owns s key o
  pending : ∀ key n t, Owns s key (.thread n t) → key ∈ s.pending

theorem inv_start : Inv start where
  unique _ o _ h := by
    cases o with
    | list n => exact absurd h (Finset.notMem_empty _)
    | thread n t => rcases h with h | h <;> cases h
  object _ o h := by
    cases o with
    | list n => exact absurd h (Finset.notMem_empty _)
    | thread n t => rcases h with h | h <;> cases h
  owned _ h := absurd h (Finset.notMem_empty _)
  pending _ _ _ h := by rcases h with h | h <;> cases h

/-- One object gets a new owner, or loses its owner and is gone. -/
structure Moves (s s' : State) (key : ObjectKey) (new : Option Owner) : Prop where
  own : ∀ o, Owns s' key o ↔ new = some o
  other : ∀ k o, k ≠ key → (Owns s' k o ↔ Owns s k o)
  objects : ∀ k, k ∈ s'.objects ↔ if k = key then new.isSome = true else k ∈ s.objects
  pending : ∀ k, k ∈ s'.pending ↔ if k = key then ∃ n t, new = some (.thread n t) else k ∈ s.pending

section Moves

variable {s s' : State} {key : ObjectKey} {n t : Nat}

theorem inv_of_moves {new : Option Owner} (h : Inv s) (hmoves : Moves s s' key new) : Inv s' := by
  constructor
  · intro k o o' ho ho'
    by_cases hk : k = key
    · subst hk
      have hsame := ((hmoves.own o).mp ho).symm.trans ((hmoves.own o').mp ho')
      exact Option.some.inj hsame
    · exact h.unique k o o' ((hmoves.other k o hk).mp ho) ((hmoves.other k o' hk).mp ho')
  · intro k o ho
    rw [hmoves.objects]
    by_cases hk : k = key
    · subst hk
      rw [if_pos rfl, (hmoves.own o).mp ho]
      rfl
    · rw [if_neg hk]
      exact h.object k o ((hmoves.other k o hk).mp ho)
  · intro k hmem
    rw [hmoves.objects] at hmem
    by_cases hk : k = key
    · subst hk
      rw [if_pos rfl] at hmem
      obtain ⟨o, ho⟩ := Option.isSome_iff_exists.mp hmem
      exact ⟨o, (hmoves.own o).mpr ho⟩
    · rw [if_neg hk] at hmem
      obtain ⟨o, ho⟩ := h.owned k hmem
      exact ⟨o, (hmoves.other k o hk).mpr ho⟩
  · intro k n t ho
    rw [hmoves.pending]
    by_cases hk : k = key
    · subst hk
      rw [if_pos rfl]
      exact ⟨n, t, (hmoves.own _).mp ho⟩
    · rw [if_neg hk]
      exact h.pending k n t ((hmoves.other k _ hk).mp ho)

theorem phase_setPhase_self (s : State) (n t : Nat) (ph : Phase) : (s.setPhase n t ph).phase n t = ph := by
  simp [State.setPhase]

theorem phase_setPhase_of_ne (s : State) (n t : Nat) (ph : Phase) {n' t' : Nat} (hne : ¬(n' = n ∧ t' = t)) :
    (s.setPhase n t ph).phase n' t' = s.phase n' t' := by
  unfold State.setPhase
  by_cases hn : n' = n
  · subst hn
    have ht : t' ≠ t := fun ht => hne ⟨rfl, ht⟩
    simp [ht]
  · simp [hn]

theorem mem_update_insert (f : Nat → Finset ObjectKey) (n n' : Nat) (key k : ObjectKey) :
    k ∈ Function.update f n (insert key (f n)) n' ↔ (n' = n ∧ k = key) ∨ k ∈ f n' := by
  by_cases hn : n' = n
  · subst hn
    simp
  · simp [hn]

theorem mem_update_erase (f : Nat → Finset ObjectKey) (n n' : Nat) (key k : ObjectKey) :
    k ∈ Function.update f n ((f n).erase key) n' ↔ k ∈ f n' ∧ ¬(n' = n ∧ k = key) := by
  by_cases hn : n' = n
  · subst hn
    simp [and_comm]
  · simp [hn]

/-- A thread goes on that has nothing to do with any object. -/
theorem Inv.setPhase {ph' : Phase} (h : Inv s) (hold : ∀ k, ¬(s.phase n t).Owns k) (hnew : ∀ k, ¬ph'.Owns k) :
    Inv (s.setPhase n t ph') := by
  have howns : ∀ k o, Owns (s.setPhase n t ph') k o ↔ Owns s k o := by
    intro k o
    cases o with
    | list n' => exact Iff.rfl
    | thread n' t' =>
        show (((s.setPhase n t ph').phase n' t').Owns k) ↔ (s.phase n' t').Owns k
        by_cases heq : n' = n ∧ t' = t
        · rw [heq.1, heq.2, phase_setPhase_self]
          exact iff_of_false (hnew k) (hold k)
        · rw [phase_setPhase_of_ne s n t ph' heq]
  constructor
  · intro k o o' ho ho'
    exact h.unique k o o' ((howns k o).mp ho) ((howns k o').mp ho')
  · intro k o ho
    exact h.object k o ((howns k o).mp ho)
  · intro k hmem
    obtain ⟨o, ho⟩ := h.owned k hmem
    exact ⟨o, (howns k o).mpr ho⟩
  · intro k n' t' ho
    exact h.pending k n' t' ((howns k _).mp ho)

/-- One thread goes on with one object, which no other thread has. -/
theorem moves_of (key : ObjectKey) (new : Option Owner) {ph' : Phase} (hphase : s'.phase = (s.setPhase n t ph').phase)
    (hold : ∀ k, k ≠ key → ¬(s.phase n t).Owns k) (hnew : ∀ k, k ≠ key → ¬ph'.Owns k)
    (hother : ∀ n' t', ¬(n' = n ∧ t' = t) → ¬(s.phase n' t').Owns key)
    (hlist : ∀ k n', k ≠ key → (k ∈ s'.objectList n' ↔ k ∈ s.objectList n'))
    (hkey : ∀ n', key ∈ s'.objectList n' ↔ new = some (.list n'))
    (hown : ph'.Owns key ↔ new = some (.thread n t))
    (hthread : ∀ n' t', new = some (.thread n' t') → n' = n ∧ t' = t)
    (hobjects : ∀ k, k ∈ s'.objects ↔ if k = key then new.isSome = true else k ∈ s.objects)
    (hpending : ∀ k, k ∈ s'.pending ↔ if k = key then ∃ n t, new = some (.thread n t) else k ∈ s.pending) :
    Moves s s' key new := by
  refine ⟨?_, ?_, hobjects, hpending⟩
  · intro o
    cases o with
    | list n' => exact hkey n'
    | thread n' t' =>
        show (s'.phase n' t').Owns key ↔ _
        rw [hphase]
        by_cases heq : n' = n ∧ t' = t
        · rw [heq.1, heq.2, phase_setPhase_self]
          exact hown
        · rw [phase_setPhase_of_ne s n t ph' heq]
          exact iff_of_false (hother n' t' heq) fun h => heq (hthread n' t' h)
  · intro k o hk
    cases o with
    | list n' => exact hlist k n' hk
    | thread n' t' =>
        show (s'.phase n' t').Owns k ↔ (s.phase n' t').Owns k
        rw [hphase]
        by_cases heq : n' = n ∧ t' = t
        · rw [heq.1, heq.2, phase_setPhase_self]
          exact iff_of_false (hnew k hk) (hold k hk)
        · rw [phase_setPhase_of_ne s n t ph' heq]

theorem owns_pushing {k : ObjectKey} : (Phase.pushing key).Owns k ↔ k = key := by
  simp [Phase.Owns, eq_comm]

theorem owns_deleting {k : ObjectKey} : (Phase.deleting key).Owns k ↔ k = key := by
  simp [Phase.Owns, eq_comm]

theorem not_owns_idle {k : ObjectKey} : ¬Phase.idle.Owns k := by
  simp [Phase.Owns]

theorem not_owns_trying {k : ObjectKey} {i : Nat} : ¬(Phase.trying key i).Owns k := by
  simp [Phase.Owns]

/-- The thread that has the object is the only owner. -/
theorem Inv.only_thread (h : Inv s) (hown : (s.phase n t).Owns key) :
    (∀ n' t', ¬(n' = n ∧ t' = t) → ¬(s.phase n' t').Owns key) ∧ ∀ n', key ∉ s.objectList n' := by
  constructor
  · intro n' t' hne hown'
    have hsame := h.unique key (.thread n' t') (.thread n t) hown' hown
    injection hsame with hn ht
    exact hne ⟨hn, ht⟩
  · intro n' hmem
    have hsame := h.unique key (.list n') (.thread n t) hmem hown
    cases hsame

/-- The set that has the object is the only owner. -/
theorem Inv.only_list (h : Inv s) (hmem : key ∈ s.objectList n) :
    (∀ n' t', ¬(s.phase n' t').Owns key) ∧ ∀ n', key ∈ s.objectList n' → n' = n := by
  constructor
  · intro n' t' hown
    have hsame := h.unique key (.thread n' t') (.list n) hown hmem
    cases hsame
  · intro n' hmem'
    have hsame := h.unique key (.list n') (.list n) hmem' hmem
    injection hsame

theorem thread_inj {n' t' : Nat} (h : some (Owner.thread n t) = some (.thread n' t')) : n' = n ∧ t' = t := by
  injection h with h
  injection h with hn ht
  exact ⟨hn.symm, ht.symm⟩

theorem mem_insert_iff_ite {A : Finset ObjectKey} {p : Prop} (hp : p) (k : ObjectKey) :
    k ∈ insert key A ↔ if k = key then p else k ∈ A := by
  by_cases hk : k = key
  · simp [hk, hp]
  · simp [hk]

theorem mem_erase_iff_ite {A : Finset ObjectKey} {p : Prop} (hp : ¬p) (k : ObjectKey) :
    k ∈ A.erase key ↔ if k = key then p else k ∈ A := by
  by_cases hk : k = key
  · simp [hk, hp]
  · simp [hk]

theorem inv_newobj {i : Nat} (h : Inv s) (hphase : s.phase n t = .trying key i) (hnew : key ∉ s.objects) :
    Inv ({ s with objects := insert key s.objects, pending := insert key s.pending }.setPhase n t
      (.pushing key)) := by
  have hnone : ∀ o, ¬Owns s key o := fun o ho => hnew (h.object key o ho)
  refine inv_of_moves h (moves_of key (some (.thread n t)) rfl ?_ ?_ ?_ ?_ ?_ ?_ ?_ ?_ ?_)
  · intro k _
    rw [hphase]
    exact not_owns_trying
  · intro k hk hown
    exact hk (owns_pushing.mp hown)
  · intro n' t' _
    exact hnone (.thread n' t')
  · intro k n' _
    exact Iff.rfl
  · intro n'
    exact iff_of_false (hnone (.list n')) (by simp)
  · exact iff_of_true (owns_pushing.mpr rfl) rfl
  · exact fun n' t' => thread_inj
  · exact mem_insert_iff_ite rfl
  · exact mem_insert_iff_ite ⟨n, t, rfl⟩

theorem inv_push (h : Inv s) (hphase : s.phase n t = .pushing key) :
    Inv (({ s with pending := s.pending.erase key }.pushObject n key).setPhase n t .idle) := by
  have hown : (s.phase n t).Owns key := by
    rw [hphase]
    exact owns_pushing.mpr rfl
  obtain ⟨hthreads, hlists⟩ := h.only_thread hown
  have hobject := h.object key (.thread n t) hown
  refine inv_of_moves h (moves_of key (some (.list n)) rfl ?_ ?_ hthreads ?_ ?_ ?_ ?_ ?_ ?_)
  · intro k hk hown'
    rw [hphase] at hown'
    exact hk (owns_pushing.mp hown')
  · intro k _
    exact not_owns_idle
  · intro k n' hk
    refine (mem_update_insert s.objectList n n' key k).trans ?_
    simp [hk]
  · intro n'
    refine (mem_update_insert s.objectList n n' key key).trans ?_
    simp [hlists n', eq_comm]
  · exact iff_of_false not_owns_idle (by simp)
  · intro n' t' heq
    cases heq
  · intro k
    by_cases hk : k = key
    · rw [if_pos hk, hk]
      exact iff_of_true hobject rfl
    · rw [if_neg hk]
      exact Iff.rfl
  · exact mem_erase_iff_ite (by simp)

theorem inv_delete (h : Inv s) (hphase : s.phase n t = .idle) (hmem : key ∈ s.objectList n) :
    Inv (({ s with pending := insert key s.pending }.deleteObject n key).setPhase n t (.deleting key)) := by
  obtain ⟨hthreads, hlists⟩ := h.only_list hmem
  have hobject := h.object key (.list n) hmem
  refine inv_of_moves h (moves_of key (some (.thread n t)) rfl ?_ ?_ ?_ ?_ ?_ ?_ ?_ ?_ ?_)
  · intro k _
    rw [hphase]
    exact not_owns_idle
  · intro k hk hown
    exact hk (owns_deleting.mp hown)
  · intro n' t' _
    exact hthreads n' t'
  · intro k n' hk
    refine (mem_update_erase s.objectList n n' key k).trans ?_
    simp [hk]
  · intro n'
    refine (mem_update_erase s.objectList n n' key key).trans ?_
    refine iff_of_false ?_ (by simp)
    rintro ⟨hmem', hne⟩
    exact hne ⟨hlists n' hmem', rfl⟩
  · exact iff_of_true (owns_deleting.mpr rfl) rfl
  · exact fun n' t' => thread_inj
  · intro k
    by_cases hk : k = key
    · rw [if_pos hk, hk]
      exact iff_of_true hobject rfl
    · rw [if_neg hk]
      exact Iff.rfl
  · exact mem_insert_iff_ite ⟨n, t, rfl⟩

theorem inv_del (h : Inv s) (hphase : s.phase n t = .deleting key) :
    Inv ({ s with objects := s.objects.erase key, pending := s.pending.erase key }.setPhase n t .idle) := by
  have hown : (s.phase n t).Owns key := by
    rw [hphase]
    exact owns_deleting.mpr rfl
  obtain ⟨hthreads, hlists⟩ := h.only_thread hown
  refine inv_of_moves h (moves_of key none rfl ?_ ?_ hthreads ?_ ?_ ?_ ?_ ?_ ?_)
  · intro k hk hown'
    rw [hphase] at hown'
    exact hk (owns_deleting.mp hown')
  · intro k _
    exact not_owns_idle
  · intro k n' _
    exact Iff.rfl
  · intro n'
    exact iff_of_false (hlists n') (by simp)
  · exact iff_of_false not_owns_idle (by simp)
  · intro n' t' heq
    cases heq
  · exact mem_erase_iff_ite (by simp)
  · exact mem_erase_iff_ite (by simp)

/-- Every step keeps the owners, when objects are deleted where they are listed. -/
theorem inv_apply {a : Act} (h : Inv s) (hok : DeletesOwn s a) (hstep : apply s a = some s') : Inv s' := by
  cases applied_of_apply hstep with
  | @alloc n t key hphase _ =>
      refine h.setPhase (fun k => ?_) fun k => not_owns_trying
      rw [hphase]
      exact not_owns_idle
  | @missed n t key i ph hphase hph =>
      refine h.setPhase (fun k => ?_) fun k => ?_
      · rw [hphase]
        exact not_owns_trying
      · rcases hph with rfl | rfl <;> simp [Phase.Owns]
  | newobj hphase hnew => exact inv_newobj h hphase hnew
  | push hphase => exact inv_push h hphase
  | delete hphase _ _ => exact inv_delete h hphase hok
  | del hphase => exact inv_del h hphase

theorem objectList_apply {a : Act} (hstep : apply s a = some s') (hn : n ≠ a.node) :
    s'.objectList n = s.objectList n := by
  cases applied_of_apply hstep with
  | alloc _ _ => rfl
  | missed _ _ => rfl
  | newobj _ _ => rfl
  | push _ => exact Function.update_of_ne hn _ _
  | delete _ _ _ => exact Function.update_of_ne hn _ _
  | del _ => rfl

end Moves

/-! ## Runs -/

section Runs

variable {numNodes : Nat} {s s' : State}

/-- The owners, and no object is listed outside the cluster. -/
structure Listed (numNodes : Nat) (s : State) : Prop where
  inv : Inv s
  outside : ∀ n, numNodes ≤ n → s.objectList n = ∅

theorem listed_start (numNodes : Nat) : Listed numNodes start := ⟨inv_start, fun _ _ => rfl⟩

theorem listed_step {a : Act} (h : Listed numNodes s) (hok : DeletesOwn s a)
    (hstep : step numNodes s a = some s') : Listed numNodes s' := by
  obtain ⟨hnode, happly⟩ := Option.ite_none_right_eq_some.mp hstep
  refine ⟨inv_apply h.inv hok happly, ?_⟩
  intro n hn
  rw [objectList_apply happly (by omega)]
  exact h.outside n hn

/-- When no call is in progress only the sets own objects. -/
theorem covered_of_quiet (h : Inv s) (hquiet : s.Quiet) : Covered s := by
  constructor
  · intro key hkey
    obtain ⟨o, ho⟩ := h.owned key hkey
    cases o with
    | list n => exact ⟨n, ho, fun n' hn' => (h.only_list ho).2 n' hn'⟩
    | thread n t =>
        have hown : (s.phase n t).Owns key := ho
        rw [hquiet n t] at hown
        exact absurd hown not_owns_idle
  · intro n key hmem
    exact h.object key (.list n) hmem

theorem mem_dumped {key : ObjectKey} : key ∈ dumped numNodes s ↔ ∃ n < numNodes, key ∈ s.objectList n := by
  simp [dumped]

/-- The checkpoints of the nodes have every object exactly once. -/
theorem dumped_of_covered (hcovered : Covered s) (houtside : ∀ n, numNodes ≤ n → s.objectList n = ∅) :
    (dumped numNodes s).Nodup ∧ ∀ key, key ∈ dumped numNodes s ↔ key ∈ s.objects := by
  constructor
  · refine List.nodup_flatMap.mpr ⟨?_, ?_⟩
    · intro n _
      exact Finset.sort_nodup _ _
    · refine List.nodup_range.pairwise_of_forall_ne ?_
      intro n _ n' _ hne
      rw [Function.onFun_apply, List.disjoint_left]
      intro key hn hn'
      have hmem := (Finset.mem_sort _).mp hn
      have hmem' := (Finset.mem_sort _).mp hn'
      exact hne ((hcovered.1 key (hcovered.2 n key hmem)).unique hmem hmem')
  · intro key
    rw [mem_dumped]
    constructor
    · rintro ⟨n, -, hmem⟩
      exact hcovered.2 n key hmem
    · intro hkey
      obtain ⟨n, hmem, -⟩ := hcovered.1 key hkey
      refine ⟨n, ?_, hmem⟩
      by_contra hn
      rw [houtside n (Nat.le_of_not_lt hn)] at hmem
      exact absurd hmem (Finset.notMem_empty key)

/-- What a call of `DelObj` does from start to end. -/
theorem delete_call {n t : Nat} {key : ObjectKey}
    (hrun : run (step numNodes) s [.delete n t key, .del n t] = some s') :
    key ∈ s.objects ∧ s'.objects = s.objects.erase key ∧
      s'.objectList = Function.update s.objectList n ((s.objectList n).erase key) ∧
      ∀ n' t', s'.phase n' t' = if n' = n ∧ t' = t then .idle else s.phase n' t' := by
  obtain ⟨s₁, hdelete, hrest⟩ := Option.bind_eq_some_iff.mp hrun
  obtain ⟨s₂, hdel, hnil⟩ := Option.bind_eq_some_iff.mp hrest
  obtain rfl := Option.some.inj hnil
  obtain ⟨-, happly⟩ := Option.ite_none_right_eq_some.mp hdelete
  obtain ⟨⟨-, hkey, -⟩, heq⟩ := Option.ite_none_right_eq_some.mp happly
  obtain rfl := Option.some.inj heq
  obtain ⟨-, happly'⟩ := Option.ite_none_right_eq_some.mp hdel
  unfold apply at happly'
  dsimp only at happly'
  rw [phase_setPhase_self] at happly'
  obtain rfl := Option.some.inj happly'
  refine ⟨hkey, rfl, rfl, ?_⟩
  intro n' t'
  by_cases heq : n' = n ∧ t' = t
  · rw [if_pos heq, heq.1, heq.2, phase_setPhase_self]
  · rw [if_neg heq, phase_setPhase_of_ne _ n t _ heq]
    exact phase_setPhase_of_ne _ n t _ heq

/-- A call of `DelObj` keeps the sets right exactly when it is made on the node that lists the object. -/
theorem covered_delete_iff {n t : Nat} {key : ObjectKey} (h : Inv s) (hquiet : s.Quiet)
    (hrun : run (step numNodes) s [.delete n t key, .del n t] = some s') :
    Covered s' ↔ key ∈ s.objectList n := by
  obtain ⟨hkey, hobjects, hlists, hphase⟩ := delete_call hrun
  constructor
  · intro hcovered
    obtain ⟨m, hmem, -⟩ := (covered_of_quiet h hquiet).1 key hkey
    by_contra hnot
    have hne : m ≠ n := by
      rintro rfl
      exact hnot hmem
    -- the set of the other node still has the object
    have hstill : key ∈ s'.objectList m := by
      rw [hlists, Function.update_of_ne hne]
      exact hmem
    have hgone := hcovered.2 m key hstill
    rw [hobjects] at hgone
    exact Finset.notMem_erase key _ hgone
  · intro hmem
    have hquiet' : s'.Quiet := by
      intro n' t'
      rw [hphase]
      split
      · rfl
      · exact hquiet n' t'
    have hok : Along (step numNodes) DeletesOwn s [.delete n t key, .del n t] :=
      ⟨hmem, fun _ _ => ⟨trivial, fun _ _ => trivial⟩⟩
    have hinv : Inv s' := by
      refine invariant_run ?_ h hok hrun
      intro u a u' hu hdeletes hstep
      exact inv_apply hu hdeletes (Option.ite_none_right_eq_some.mp hstep).2
    exact covered_of_quiet hinv hquiet'

end Runs

/-- In every run in which objects are deleted on the nodes that list them, and in every state of it with
no call in progress, each object is in the set of exactly one node, no set has a deleted object, and the
checkpoints of the nodes dump each object once. A call of `DelObj` that is made then keeps this exactly
when it is made on the node that lists the object. -/
theorem objects_listed_once {numNodes : Nat} {as : List Act} {s : State}
    (hok : Along (step numNodes) DeletesOwn start as) (hrun : run (step numNodes) start as = some s)
    (hquiet : s.Quiet) :
    Covered s ∧
    ((dumped numNodes s).Nodup ∧ ∀ key, key ∈ dumped numNodes s ↔ key ∈ s.objects) ∧
    ∀ n t key s', run (step numNodes) s [.delete n t key, .del n t] = some s' →
      (Covered s' ↔ key ∈ s.objectList n) := by
  have hlisted : Listed numNodes s :=
    invariant_run (fun _ _ _ h hdeletes hstep => listed_step h hdeletes hstep) (listed_start numNodes) hok hrun
  have hcovered := covered_of_quiet hlisted.inv hquiet
  refine ⟨hcovered, dumped_of_covered hcovered hlisted.outside, ?_⟩
  intro n t key s' hcall
  exact covered_delete_iff hlisted.inv hquiet hcall

/-- Two nodes allocate an object each, and the first node deletes its own. -/
def deleteOwn : List Act :=
  [.alloc 0 0 5, .alloc 1 0 7, .newobj 1 0, .newobj 0 0, .push 0 0, .push 1 0, .delete 0 0 5, .del 0 0]

theorem deleteOwn_covered : ∃ s, run (step 2) start deleteOwn = some s ∧ s.objects = {7} ∧ Covered s := by
  have hok : Along (step 2) DeletesOwn start deleteOwn := along_of_check (by decide +kernel)
  refine ⟨_, rfl, by decide, (objects_listed_once hok rfl ?_).1⟩
  intro n t
  match n, t with
  | 0, 0 => rfl
  | 0, t + 1 => rfl
  | 1, 0 => rfl
  | 1, t + 1 => rfl
  | n + 2, t => rfl

/-- A node deletes an object that another node allocated. -/
def deleteOther : List Act := [.alloc 0 0 5, .newobj 0 0, .push 0 0, .delete 1 0 5, .del 1 0]

theorem deleteOther_uncovered : ∃ s, run (step 2) start deleteOther = some s ∧ s.Quiet ∧
    5 ∈ s.objectList 0 ∧ 5 ∉ s.objects ∧ ¬Covered s := by
  have hlisted : ∀ s, run (step 2) start deleteOther = some s → 5 ∈ s.objectList 0 ∧ 5 ∉ s.objects := by
    intro s hrun
    obtain rfl := Option.some.inj hrun
    decide
  refine ⟨_, rfl, ?_, (hlisted _ rfl).1, (hlisted _ rfl).2, ?_⟩
  · intro n t
    match n, t with
    | 0, 0 => rfl
    | 0, t + 1 => rfl
    | 1, 0 => rfl
    | 1, t + 1 => rfl
    | n + 2, t => rfl
  · rintro ⟨-, hobjects⟩
    exact (hlisted _ rfl).2 (hobjects 0 5 (hlisted _ rfl).1)

end Dogee.ObjectLists
