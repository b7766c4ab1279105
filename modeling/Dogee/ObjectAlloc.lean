import Dogee.MemcachedObjects
import Dogee.ObjectLists
import Mathlib.Order.Interval.Finset.Nat
import Mathlib.Data.Nat.Count

/-!
# Allocating object keys

`AllocObjectId` tries at most `maxTries` keys. A new value is drawn only while the key is zero, and
the key is never set back, so that every try is made with the first nonzero value: when that key is in
use, the call ends in `abort`. What a call returns was free, and among any number of calls on any nodes
no key is handed out while it is live.
-/

namespace Dogee.ObjectAlloc

open Transition

section Call

variable {σ : Type} (newobj : σ → ObjectKey → Option σ) (rand : Nat → ObjectKey) (fuel : Nat) (st : σ)
  (objectList : Finset ObjectKey)

/-- `while (key == 0) key = rand();`, with the number of values that were drawn before. -/
def draw (rand : Nat → ObjectKey) : Nat → Nat → ObjectKey → Option (ObjectKey × Nat)
  | 0, _, _ => none
  | fuel + 1, drawn, key => if key = 0 then draw rand fuel (drawn + 1) (rand drawn) else some (key, drawn)

/-- How a call ends: with a key, the store and the object list of the process, or in `abort`. -/
inductive Outcome (σ : Type)
  | returned (key : ObjectKey) (store : σ) (objectList : Finset ObjectKey)
  | aborted

/-- The tries that are left; the key is that of the try before. -/
def tryLoop : Nat → Nat → ObjectKey → Option (Outcome σ)
  | 0, _, _ => some .aborted
  | tries + 1, drawn, key => do
      let (key, drawn) ← draw rand fuel drawn key
      match newobj st key with
      | some st' => some (.returned key st' (insert key objectList))
      | none => tryLoop tries drawn key

/-- `AllocObjectId` on a backend; the result is `none` when no value drawn is nonzero. -/
def allocObjectId : Option (Outcome σ) := tryLoop newobj rand fuel st objectList ObjectLists.maxTries 0 0

/-- The draw at `p` is the first that is not zero. -/
structure FirstDraw (rand : Nat → ObjectKey) (p : Nat) : Prop where
  ne_zero : rand p ≠ 0
  zero_before : ∀ q < p, rand q = 0

end Call

/-- The key is one of the first `maxTries` nonzero draws. -/
def Drawn (rand : Nat → ObjectKey) (key : ObjectKey) : Prop :=
  key ≠ 0 ∧ ∃ p, rand p = key ∧ Nat.count (fun q => rand q ≠ 0) p < ObjectLists.maxTries

section Draws

variable {σ : Type} {newobj : σ → ObjectKey → Option σ} {rand : Nat → ObjectKey} {st : σ}
  {objectList : Finset ObjectKey} {p : Nat}

theorem exists_firstDraw {key : ObjectKey} (h : Drawn rand key) : ∃ p, FirstDraw rand p := by
  obtain ⟨hne, p, rfl, -⟩ := h
  have hex : ∃ q, rand q ≠ 0 := ⟨p, hne⟩
  refine ⟨Nat.find hex, Nat.find_spec hex, ?_⟩
  intro q hq
  exact not_not.mp (Nat.find_min hex hq)

/-- A key that is not zero is kept. -/
theorem draw_of_ne {fuel drawn : Nat} {key : ObjectKey} (hkey : key ≠ 0) {r : ObjectKey × Nat}
    (h : draw rand fuel drawn key = some r) : r = (key, drawn) := by
  cases fuel with
  | zero => cases h
  | succ fuel =>
      rw [draw, if_neg hkey] at h
      exact (Option.some.inj h).symm

/-- What the first try draws. -/
theorem draw_first (hp : FirstDraw rand p) {fuel drawn : Nat} (hdrawn : drawn ≤ p) {r : ObjectKey × Nat}
    (h : draw rand fuel drawn 0 = some r) : r.1 = rand p := by
  induction fuel generalizing drawn with
  | zero => cases h
  | succ fuel ih =>
      rw [draw, if_pos rfl] at h
      by_cases hlast : drawn = p
      · subst hlast
        rw [draw_of_ne hp.ne_zero h]
      · have hlt : drawn < p := Nat.lt_of_le_of_ne hdrawn hlast
        rw [hp.zero_before drawn hlt] at h
        exact ih hlt h

theorem draw_ne_zero {fuel drawn : Nat} {key : ObjectKey} {r : ObjectKey × Nat}
    (h : draw rand fuel drawn key = some r) : r.1 ≠ 0 := by
  induction fuel generalizing drawn key with
  | zero => cases h
  | succ fuel ih =>
      rw [draw] at h
      split at h
      · exact ih h
      · rename_i hkey
        rw [← Option.some.inj h]
        exact hkey

theorem draw_enough (hp : FirstDraw rand p) {n drawn : Nat} (hdrawn : drawn + n = p) :
    draw rand (n + 2) drawn 0 = some (rand p, p + 1) := by
  induction n generalizing drawn with
  | zero =>
      obtain rfl : drawn = p := hdrawn
      rw [draw, if_pos rfl, draw, if_neg hp.ne_zero]
  | succ n ih =>
      rw [draw, if_pos rfl, hp.zero_before drawn (by omega)]
      exact ih (by omega)

/-- When the first nonzero value is free, the first try takes it. -/
theorem alloc_first (hp : FirstDraw rand p) {st' : σ} (hnew : newobj st (rand p) = some st') :
    allocObjectId newobj rand (p + 2) st objectList =
      some (.returned (rand p) st' (insert (rand p) objectList)) := by
  have hdraw : draw rand (p + 2) 0 0 = some (rand p, p + 1) := draw_enough hp (Nat.zero_add p)
  have htries : ObjectLists.maxTries = 199 + 1 := rfl
  rw [allocObjectId, htries, tryLoop, hdraw, Option.bind_eq_bind, Option.bind_some]
  simp only [hnew]

/-- A key that is in use is tried again and again. -/
theorem tryLoop_stuck {key : ObjectKey} (hkey : key ≠ 0) (hused : newobj st key = none) (fuel tries drawn : Nat) :
    ∀ r, tryLoop newobj rand fuel st objectList tries drawn key = some r → r = .aborted := by
  induction tries with
  | zero =>
      intro r hr
      exact (Option.some.inj hr).symm
  | succ tries ih =>
      intro r hr
      obtain ⟨⟨key', drawn'⟩, hdraw, hrest⟩ := Option.bind_eq_some_iff.mp hr
      obtain ⟨rfl, rfl⟩ := Prod.mk.inj (draw_of_ne hkey hdraw)
      simp only [hused] at hrest
      exact ih r hrest

/-- When the first nonzero value is in use, no call returns. -/
theorem alloc_stuck (hp : FirstDraw rand p) (hused : newobj st (rand p) = none) {fuel : Nat} {r : Outcome σ}
    (hr : allocObjectId newobj rand fuel st objectList = some r) : r = .aborted := by
  obtain ⟨⟨key, drawn⟩, hdraw, hrest⟩ := Option.bind_eq_some_iff.mp hr
  obtain rfl : key = rand p := draw_first hp (Nat.zero_le p) hdraw
  simp only [hused] at hrest
  exact tryLoop_stuck hp.ne_zero hused fuel _ drawn r hrest

/-- How a call ended says what its tries found. -/
theorem tryLoop_ended {fuel tries drawn : Nat} {key₀ : ObjectKey} {r : Outcome σ}
    (hr : tryLoop newobj rand fuel st objectList tries drawn key₀ = some r) :
    (∃ key st', r = .returned key st' (insert key objectList) ∧ key ≠ 0 ∧ newobj st key = some st') ∨
      r = .aborted := by
  induction tries generalizing drawn key₀ with
  | zero => exact Or.inr (Option.some.inj hr).symm
  | succ tries ih =>
      obtain ⟨⟨key, drawn'⟩, hdraw, hrest⟩ := Option.bind_eq_some_iff.mp hr
      have hkey : key ≠ 0 := draw_ne_zero hdraw
      dsimp only at hrest
      split at hrest
      · rename_i st' hnew
        exact Or.inl ⟨key, st', (Option.some.inj hrest).symm, hkey, hnew⟩
      · exact ih hrest

end Draws

/-! ## Calls on memcached -/

open Memcached

/-- The key is in use on no node. -/
def Free (st : Store) (key : ObjectKey) : Prop := st (infoKey key) = none

/-- Some key among the first nonzero draws is free. -/
def SomeFree (st : Store) (rand : Nat → ObjectKey) : Prop := ∃ key, Drawn rand key ∧ Free st key

/-- The first nonzero draw is free. -/
def FirstFree (st : Store) (rand : Nat → ObjectKey) : Prop := ∃ p, FirstDraw rand p ∧ Free st (rand p)

/-- When there is a free key among the first nonzero draws, the call returns one that was free, after
`newobj` has succeeded for it and with the key in the object list. -/
def Returns (st : Store) (objectList : Finset ObjectKey) (rand : Nat → ObjectKey) (clsId size : Word) : Prop :=
  SomeFree st rand → ∃ fuel key st',
    allocObjectId (fun st key => newobj st key clsId size) rand fuel st objectList =
      some (.returned key st' (insert key objectList)) ∧
    key ≠ 0 ∧ Free st key ∧ newobj st key clsId size = some st'

theorem newobj_eq_none {st : Store} {key : ObjectKey} {clsId size : Word} :
    newobj st key clsId size = none ↔ ¬Free st key := by
  rw [newobj, add, Free]
  cases st (infoKey key) <;> simp

theorem returns_iff (st : Store) (objectList : Finset ObjectKey) (rand : Nat → ObjectKey) (clsId size : Word) :
    Returns st objectList rand clsId size ↔ (SomeFree st rand → FirstFree st rand) := by
  constructor
  · intro hreturns hsome
    obtain ⟨fuel, key, st', hrun, -⟩ := hreturns hsome
    obtain ⟨_, hdrawn, -⟩ := hsome
    obtain ⟨p, hp⟩ := exists_firstDraw hdrawn
    refine ⟨p, hp, ?_⟩
    by_contra hused
    have habort := alloc_stuck hp (newobj_eq_none.mpr hused) hrun
    cases habort
  · intro hfirst hsome
    obtain ⟨p, hp, hfree⟩ := hfirst hsome
    have hnew : newobj st (rand p) clsId size =
        some (Function.update st (infoKey (rand p)) (some [clsId, size])) := newobj_eq_some.mpr ⟨hfree, rfl⟩
    exact ⟨p + 2, rand p, _, alloc_first hp hnew, hp.ne_zero, hfree, hnew⟩

/-! ## Calls on several nodes -/

section Nodes

open ObjectLists

/-- The key that a call of `AllocObjectId` returns in this step. -/
def handsOut (s : State) : Act → Option ObjectKey
  | .push n t =>
      match s.phase n t with
      | .pushing key => some key
      | _ => none
  | _ => none

/-- The key whose deletion ends in this step. -/
def frees (s : State) : Act → Option ObjectKey
  | .del n t =>
      match s.phase n t with
      | .deleting key => some key
      | _ => none
  | _ => none

/-- The nodes together with the keys that are live: handed out and not deleted since. -/
structure Log where
  state : State
  live : Finset ObjectKey

def Log.start : Log := ⟨ObjectLists.start, ∅⟩

def Log.step (numNodes : Nat) (l : Log) (a : Act) : Option Log :=
  (ObjectLists.step numNodes l.state a).map fun s =>
    ⟨s, match handsOut l.state a, frees l.state a with
      | some key, _ => insert key l.live
      | none, some key => l.live.erase key
      | none, none => l.live⟩

/-- A key that is handed out is not zero and not live. -/
def HandsOutFree (l : Log) (a : Act) : Prop :=
  ∀ key, handsOut l.state a = some key → key ≠ 0 ∧ key ∉ l.live

/-- What every thread that has a key knows of it. -/
structure Inv (l : Log) : Prop where
  unique : ∀ key n t n' t', (l.state.phase n t).Owns key → (l.state.phase n' t').Owns key → n' = n ∧ t' = t
  object : ∀ key n t, (l.state.phase n t).Owns key → key ∈ l.state.objects ∧ key ∈ l.state.pending
  live : ∀ key ∈ l.live, key ∈ l.state.objects
  trying : ∀ key n t i, l.state.phase n t = .trying key i → key ≠ 0
  pushing : ∀ key n t, l.state.phase n t = .pushing key → key ≠ 0 ∧ key ∉ l.live

/-- `newobj` as the nodes see it: the keys that are in use. -/
def useKey (objects : Finset ObjectKey) (key : ObjectKey) : Option (Finset ObjectKey) :=
  if key ∈ objects then none else some (insert key objects)

/-- A call that returns, as steps of its thread. -/
theorem returned_steps {numNodes : Nat} {s : State} {n t : Nat} (hn : n < numNodes) (hidle : s.phase n t = .idle)
    {rand : Nat → ObjectKey} {fuel : Nat} {key : ObjectKey} {objects' list' : Finset ObjectKey}
    (hrun : allocObjectId useKey rand fuel s.objects (s.objectList n) = some (.returned key objects' list')) :
    ∃ s', run (ObjectLists.step numNodes) s [.alloc n t key, .newobj n t, .push n t] = some s' ∧
      s'.objects = objects' ∧ s'.objectList n = list' ∧ s'.phase n t = .idle := by
  rcases tryLoop_ended hrun with ⟨_, _, heq, hkey, hnew⟩ | heq
  · obtain ⟨rfl, rfl, rfl⟩ := Outcome.returned.inj heq
    obtain ⟨hfree, hobjects⟩ := Option.ite_none_left_eq_some.mp hnew
    have hstep : ∀ {u u' a}, a.node = n → apply u a = some u' → ObjectLists.step numNodes u a = some u' := by
      intro u u' a ha happly
      rw [ObjectLists.step, if_pos (ha.symm ▸ hn)]
      exact happly
    have halloc : apply s (.alloc n t key) = some (s.setPhase n t (.trying key 0)) := if_pos ⟨hidle, hkey⟩
    have hnewobj := apply_newobj_of (phase_setPhase_self s n t (.trying key 0)) (by decide) hfree
    have hpush := apply_push_of (phase_setPhase_self
      { s.setPhase n t (.trying key 0) with
        objects := insert key s.objects, pending := insert key s.pending } n t (.pushing key))
    refine ⟨_, run_of_step (hstep rfl halloc) (run_of_step (hstep rfl hnewobj)
      (run_of_step (hstep rfl hpush) rfl)), ?_, ?_, ?_⟩
    · exact Option.some.inj hobjects
    · exact Function.update_self _ _ _
    · exact phase_setPhase_self _ n t _
  · cases heq

theorem inv_start : Inv Log.start where
  unique _ _ _ _ _ h := by rcases h with h | h <;> cases h
  object _ _ _ h := by rcases h with h | h <;> cases h
  live _ h := absurd h (Finset.notMem_empty _)
  trying _ _ _ _ h := by cases h
  pushing _ _ _ h := by cases h

variable {l : Log} {n t : Nat} {key : ObjectKey}

/-- A key that another thread has is another key. -/
theorem Inv.other_key (h : Inv l) (hown : (l.state.phase n t).Owns key) {k : ObjectKey} {n' t' : Nat}
    (hne : ¬(n' = n ∧ t' = t)) (hk : (l.state.phase n' t').Owns k) : k ≠ key := by
  rintro rfl
  exact hne (h.unique k n t n' t' hown hk)

/-- One thread goes on; what the others have is still there. -/
theorem Inv.move (h : Inv l) {s' : State} {live' : Finset ObjectKey} {ph' : Phase}
    (hphase : s'.phase = (l.state.setPhase n t ph').phase)
    (hothers : ∀ k n' t', ¬(n' = n ∧ t' = t) → (l.state.phase n' t').Owns k →
      ¬ph'.Owns k ∧ k ∈ s'.objects ∧ k ∈ s'.pending ∧ (k ∈ live' → k ∈ l.live))
    (hown : ∀ k, ph'.Owns k → k ∈ s'.objects ∧ k ∈ s'.pending) (hlive : ∀ k ∈ live', k ∈ s'.objects)
    (htrying : ∀ k i, ph' = .trying k i → k ≠ 0) (hpushing : ∀ k, ph' = .pushing k → k ≠ 0 ∧ k ∉ live') :
    Inv ⟨s', live'⟩ := by
  have hself : s'.phase n t = ph' := by rw [hphase, phase_setPhase_self]
  have hother : ∀ {n' t'}, ¬(n' = n ∧ t' = t) → s'.phase n' t' = l.state.phase n' t' := by
    intro n' t' hne
    rw [hphase, phase_setPhase_of_ne _ n t ph' hne]
  constructor
  · intro k n₁ t₁ n₂ t₂ h₁ h₂
    dsimp only at h₁ h₂
    by_cases heq₁ : n₁ = n ∧ t₁ = t
    · obtain ⟨rfl, rfl⟩ := heq₁
      by_contra hne
      rw [hother hne] at h₂
      rw [hself] at h₁
      exact (hothers k n₂ t₂ hne h₂).1 h₁
    · rw [hother heq₁] at h₁
      by_cases heq₂ : n₂ = n ∧ t₂ = t
      · obtain ⟨rfl, rfl⟩ := heq₂
        rw [hself] at h₂
        exact absurd h₂ (hothers k n₁ t₁ heq₁ h₁).1
      · rw [hother heq₂] at h₂
        exact h.unique k n₁ t₁ n₂ t₂ h₁ h₂
  · intro k n' t' hk
    dsimp only at hk
    by_cases heq : n' = n ∧ t' = t
    · rw [heq.1, heq.2, hself] at hk
      exact hown k hk
    · rw [hother heq] at hk
      obtain ⟨-, hobject, hpending, -⟩ := hothers k n' t' heq hk
      exact ⟨hobject, hpending⟩
  · exact hlive
  · intro k n' t' i hk
    dsimp only at hk
    by_cases heq : n' = n ∧ t' = t
    · rw [heq.1, heq.2, hself] at hk
      exact htrying k i hk
    · rw [hother heq] at hk
      exact h.trying k n' t' i hk
  · intro k n' t' hk
    dsimp only at hk
    by_cases heq : n' = n ∧ t' = t
    · rw [heq.1, heq.2, hself] at hk
      exact hpushing k hk
    · rw [hother heq] at hk
      obtain ⟨-, -, -, hold⟩ := hothers k n' t' heq (Or.inl hk)
      obtain ⟨hne, hnot⟩ := h.pushing k n' t' hk
      exact ⟨hne, fun hmem => hnot (hold hmem)⟩

/-- A thread goes on that has no key. -/
theorem Inv.pass (h : Inv l) {ph' : Phase} (hnone : ∀ k, ¬ph'.Owns k) (htrying : ∀ k i, ph' = .trying k i → k ≠ 0) :
    Inv ⟨l.state.setPhase n t ph', l.live⟩ := by
  refine h.move rfl ?_ (fun k hk => absurd hk (hnone k)) h.live htrying ?_
  · intro k n' t' _ hk
    obtain ⟨hobject, hpending⟩ := h.object k n' t' hk
    exact ⟨hnone k, hobject, hpending, id⟩
  · rintro k rfl
    exact absurd (owns_pushing.mpr rfl) (hnone k)

theorem inv_newobj {i : Nat} (h : Inv l) (hphase : l.state.phase n t = .trying key i) (hnew : key ∉ l.state.objects) :
    Inv ⟨{ l.state with objects := insert key l.state.objects,
                        pending := insert key l.state.pending }.setPhase n t (.pushing key), l.live⟩ := by
  refine h.move rfl ?_ ?_ ?_ (fun _ _ hph => by cases hph) ?_
  · intro k n' t' _ hk
    obtain ⟨hobject, hpending⟩ := h.object k n' t' hk
    refine ⟨fun hown => ?_, Finset.mem_insert_of_mem hobject, Finset.mem_insert_of_mem hpending, id⟩
    rw [owns_pushing.mp hown] at hobject
    exact hnew hobject
  · intro k hk
    rw [owns_pushing.mp hk]
    exact ⟨Finset.mem_insert_self _ _, Finset.mem_insert_self _ _⟩
  · intro k hk
    exact Finset.mem_insert_of_mem (h.live k hk)
  · intro k hk
    obtain rfl := Phase.pushing.inj hk
    exact ⟨h.trying key n t i hphase, fun hmem => hnew (h.live key hmem)⟩

/-- The call returns, and its key is live from now on. -/
theorem inv_push (h : Inv l) (hphase : l.state.phase n t = .pushing key) :
    Inv ⟨({ l.state with pending := l.state.pending.erase key }.pushObject n key).setPhase n t .idle,
      insert key l.live⟩ := by
  have hown : (l.state.phase n t).Owns key := Or.inl hphase
  refine h.move rfl ?_ (fun k hk => absurd hk not_owns_idle) ?_ (fun _ _ hph => by cases hph)
    (fun _ hph => by cases hph)
  · intro k n' t' hne hk
    obtain ⟨hobject, hpending⟩ := h.object k n' t' hk
    have hkey := h.other_key hown hne hk
    exact ⟨not_owns_idle, hobject, Finset.mem_erase.mpr ⟨hkey, hpending⟩,
      fun hmem => (Finset.mem_insert.mp hmem).resolve_left hkey⟩
  · intro k hk
    rcases Finset.mem_insert.mp hk with rfl | hk
    · exact (h.object k n t hown).1
    · exact h.live k hk

theorem inv_delete (h : Inv l) (hkey : key ∈ l.state.objects) (hfree : key ∉ l.state.pending) :
    Inv ⟨({ l.state with pending := insert key l.state.pending }.deleteObject n key).setPhase n t (.deleting key),
      l.live⟩ := by
  refine h.move rfl ?_ ?_ h.live (fun _ _ hph => by cases hph) (fun _ hph => by cases hph)
  · intro k n' t' _ hk
    obtain ⟨hobject, hpending⟩ := h.object k n' t' hk
    refine ⟨fun hown => ?_, hobject, Finset.mem_insert_of_mem hpending, id⟩
    rw [owns_deleting.mp hown] at hpending
    exact hfree hpending
  · intro k hk
    rw [owns_deleting.mp hk]
    exact ⟨hkey, Finset.mem_insert_self _ _⟩

/-- The object is gone, and its key is not live any more. -/
theorem inv_del (h : Inv l) (hphase : l.state.phase n t = .deleting key) :
    Inv ⟨{ l.state with objects := l.state.objects.erase key,
                        pending := l.state.pending.erase key }.setPhase n t .idle, l.live.erase key⟩ := by
  have hown : (l.state.phase n t).Owns key := Or.inr hphase
  refine h.move rfl ?_ (fun k hk => absurd hk not_owns_idle) ?_ (fun _ _ hph => by cases hph)
    (fun _ hph => by cases hph)
  · intro k n' t' hne hk
    obtain ⟨hobject, hpending⟩ := h.object k n' t' hk
    have hkey := h.other_key hown hne hk
    exact ⟨not_owns_idle, Finset.mem_erase.mpr ⟨hkey, hobject⟩, Finset.mem_erase.mpr ⟨hkey, hpending⟩,
      Finset.mem_of_mem_erase⟩
  · intro k hk
    obtain ⟨hkey, hmem⟩ := Finset.mem_erase.mp hk
    exact Finset.mem_erase.mpr ⟨hkey, h.live k hmem⟩

theorem inv_step {numNodes : Nat} {l l' : Log} {a : Act} (h : Inv l) (hstep : Log.step numNodes l a = some l') :
    Inv l' := by
  obtain ⟨s', hs, rfl⟩ := Option.map_eq_some_iff.mp hstep
  cases applied_of_apply (Option.ite_none_right_eq_some.mp hs).2 with
  | alloc hphase hkey =>
      refine h.pass (fun k => not_owns_trying) ?_
      intro k i hph
      obtain ⟨rfl, -⟩ := Phase.trying.inj hph
      exact hkey
  | @missed n t key i ph hphase hph =>
      refine h.pass (fun k => ?_) fun k i' hph' => ?_
      · rcases hph with rfl | rfl <;> simp [Phase.Owns]
      · rcases hph with rfl | rfl
        · obtain ⟨rfl, -⟩ := Phase.trying.inj hph'
          exact h.trying _ n t i hphase
        · cases hph'
  | newobj hphase hnew => exact inv_newobj h hphase hnew
  | push hphase =>
      have hinv := inv_push h hphase
      simpa only [handsOut, frees, hphase] using hinv
  | delete _ hkey hfree => exact inv_delete h hkey hfree
  | del hphase =>
      have hinv := inv_del h hphase
      simpa only [handsOut, frees, hphase] using hinv

theorem Inv.handsOutFree (h : Inv l) (a : Act) : HandsOutFree l a := by
  intro key hkey
  cases a with
  | push n t =>
      unfold handsOut at hkey
      dsimp only at hkey
      split at hkey
      · rename_i key' hphase
        obtain rfl := Option.some.inj hkey
        exact h.pushing key' n t hphase
      · cases hkey
  | _ => cases hkey

end Nodes

/-- For every store and every stream of draws, the call meets its purpose exactly when no key among the
first nonzero draws is free or the very first of them is; and in every run of calls on any number of
nodes no key is handed out while it is live. -/
theorem alloc_meets_iff (st : Store) (objectList : Finset ObjectKey) (rand : Nat → ObjectKey) (clsId size : Word)
    (numNodes : Nat) (as : List ObjectLists.Act) :
    (Returns st objectList rand clsId size ↔ (SomeFree st rand → FirstFree st rand)) ∧
      Along (Log.step numNodes) HandsOutFree Log.start as := by
  refine ⟨returns_iff st objectList rand clsId size, ?_⟩
  have hstep : ∀ l a l', Inv l → True → Log.step numNodes l a = some l' → Inv l' :=
    fun l a l' h _ hs => inv_step h hs
  exact Along.imp hstep (fun l a h _ => h.handsOutFree a) inv_start (along_true _ as)

/-- The first value drawn is in use, the second is free: the call aborts. -/
theorem second_draw_not_tried :
    let st : Store := Function.update (fun _ => none) (infoKey 5) (some [1, 1])
    SomeFree st (fun p => 5 + p) ∧ ¬Returns st ∅ (fun p => 5 + p) 1 1 := by
  intro st
  have hsome : SomeFree st fun p => 5 + p := by
    refine ⟨6, ⟨by decide, 1, rfl, ?_⟩, rfl⟩
    exact Nat.lt_of_le_of_lt (Nat.count_le _) (by decide)
  refine ⟨hsome, fun hreturns => ?_⟩
  obtain ⟨fuel, key, st', hrun, -⟩ := hreturns hsome
  have hused : newobj st 5 1 1 = none := rfl
  cases alloc_stuck (p := 0) ⟨by decide, fun q hq => absurd hq (Nat.not_lt_zero q)⟩ hused hrun

end Dogee.ObjectAlloc
