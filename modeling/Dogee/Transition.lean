import Mathlib.Data.List.Basic

/-!
# Runs of partial step functions

A system is given by a step function `σ → α → Option σ`: the action `a` is
enabled in `s` when the result is `some`. A run follows a list of actions, the
schedule. `Along` says that every step of a schedule meets a condition on the
state it is taken from, and the invariant rule below is stated under it.
-/

namespace Dogee.Transition

variable {σ α : Type*} {step : σ → α → Option σ} {ok : σ → α → Prop} {Inv : σ → Prop}

/-- Follow a schedule, failing at the first action that is not enabled. -/
def run (step : σ → α → Option σ) : σ → List α → Option σ
  | s, [] => some s
  | s, a :: rest => (step s a).bind fun t => run step t rest

@[simp] theorem run_nil (s : σ) : run step s [] = some s := rfl

theorem run_cons (s : σ) (a : α) (rest : List α) :
    run step s (a :: rest) = (step s a).bind fun t => run step t rest := rfl

theorem run_of_step {s t u : σ} {a : α} {rest : List α} (hstep : step s a = some t) (hrest : run step t rest = some u) :
    run step s (a :: rest) = some u := by
  rw [run_cons, hstep]
  exact hrest

theorem run_append (s : σ) (as bs : List α) :
    run step s (as ++ bs) = (run step s as).bind fun t => run step t bs := by
  induction as generalizing s with
  | nil => rfl
  | cons a rest ih =>
      simp only [List.cons_append, run_cons, Option.bind_assoc]
      exact congrArg (Option.bind (step s a)) (funext ih)

theorem run_concat (s : σ) (as : List α) (a : α) :
    run step s (as ++ [a]) = (run step s as).bind fun t => step t a := by
  rw [run_append]
  congr 1
  funext t
  cases h : step t a <;> simp [run_cons, h]

/-- Every step of the schedule meets `ok` in the state it is taken from. -/
def Along (step : σ → α → Option σ) (ok : σ → α → Prop) : σ → List α → Prop
  | _, [] => True
  | s, a :: rest => ok s a ∧ ∀ t, step s a = some t → Along step ok t rest

/-- `Along` is decided by following the schedule. -/
def checkAlong (step : σ → α → Option σ) (ok : σ → α → Prop) [∀ s a, Decidable (ok s a)] :
    σ → List α → Bool
  | _, [] => true
  | s, a :: rest => ok s a && ((step s a).map fun t => checkAlong step ok t rest).getD true

theorem along_of_check [∀ s a, Decidable (ok s a)] {s : σ} {as : List α}
    (h : checkAlong step ok s as = true) : Along step ok s as := by
  induction as generalizing s with
  | nil => trivial
  | cons a rest ih =>
      rw [checkAlong, Bool.and_eq_true] at h
      refine ⟨of_decide_eq_true h.1, fun t ht => ih ?_⟩
      rw [ht] at h
      exact h.2

/-- What every step that meets the condition preserves, every run whose steps
all meet it preserves. -/
theorem invariant_run
    (hstep : ∀ s a t, Inv s → ok s a → step s a = some t → Inv t)
    {s t : σ} {as : List α} (hs : Inv s) (hok : Along step ok s as)
    (hrun : run step s as = some t) : Inv t := by
  induction as generalizing s with
  | nil =>
      obtain rfl : s = t := Option.some.inj hrun
      exact hs
  | cons a rest ih =>
      obtain ⟨u, hu, hrest⟩ := Option.bind_eq_some_iff.mp hrun
      exact ih (hstep s a u hs hok.1 hu) (hok.2 u hu) hrest

/-- A condition that holds with an invariant may take the place of the one that preserves it. -/
theorem Along.imp {ok' : σ → α → Prop} (hstep : ∀ s a t, Inv s → ok s a → step s a = some t → Inv t)
    (himp : ∀ s a, Inv s → ok s a → ok' s a) {s : σ} {as : List α} (hs : Inv s) (h : Along step ok s as) :
    Along step ok' s as := by
  induction as generalizing s with
  | nil => trivial
  | cons a rest ih => exact ⟨himp s a hs h.1, fun t ht => ih (hstep s a t hs h.1 ht) (h.2 t ht)⟩

theorem Along.mono {ok' : σ → α → Prop} (himp : ∀ s a, ok s a → ok' s a) {s : σ} {as : List α}
    (h : Along step ok s as) : Along step ok' s as := by
  induction as generalizing s with
  | nil => trivial
  | cons a rest ih => exact ⟨himp s a h.1, fun t ht => ih (h.2 t ht)⟩

theorem along_true (s : σ) (as : List α) : Along step (fun _ _ => True) s as := by
  induction as generalizing s with
  | nil => trivial
  | cons a rest ih => exact ⟨trivial, fun t _ => ih t⟩

/-- `t` is reached from `s` by steps that meet the condition. -/
def Reaches (step : σ → α → Option σ) (ok : σ → α → Prop) (s t : σ) : Prop :=
  ∃ as, Along step ok s as ∧ run step s as = some t

theorem Reaches.refl (s : σ) : Reaches step ok s s := ⟨[], trivial, rfl⟩

theorem Reaches.cons {s t u : σ} {a : α} (hok : ok s a) (hstep : step s a = some t) (h : Reaches step ok t u) :
    Reaches step ok s u := by
  obtain ⟨as, hrest, hrun⟩ := h
  refine ⟨a :: as, ⟨hok, fun t' ht' => ?_⟩, run_of_step hstep hrun⟩
  obtain rfl : t = t' := Option.some.inj (hstep.symm.trans ht')
  exact hrest

theorem Reaches.trans {s t u : σ} (h : Reaches step ok s t) (h' : Reaches step ok t u) : Reaches step ok s u := by
  obtain ⟨as, hok, hrun⟩ := h
  induction as generalizing s with
  | nil =>
      obtain rfl : s = t := Option.some.inj hrun
      exact h'
  | cons a rest ih =>
      obtain ⟨v, hv, hrest⟩ := Option.bind_eq_some_iff.mp hrun
      exact Reaches.cons hok.1 hv (ih (hok.2 v hv) hrest)

/-- The unconditional case: what every step preserves, every run preserves. -/
theorem invariant_reachable
    (hstep : ∀ s a t, Inv s → step s a = some t → Inv t)
    {s t : σ} {as : List α} (hs : Inv s) (hrun : run step s as = some t) : Inv t :=
  invariant_run (fun s a t h _ => hstep s a t h) hs (along_true s as) hrun

/-- When an invariant keeps every action enabled, every schedule can be followed. -/
theorem exists_run (hstep : ∀ s a, Inv s → ∃ t, step s a = some t ∧ Inv t) {s : σ} (hs : Inv s) (as : List α) :
    ∃ t, run step s as = some t := by
  induction as generalizing s with
  | nil => exact ⟨s, rfl⟩
  | cons a rest ih =>
      obtain ⟨t, ht, hinv⟩ := hstep s a hs
      obtain ⟨u, hu⟩ := ih hinv
      exact ⟨u, run_of_step ht hu⟩

/-- When every step lowers a measure, it bounds the length of the runs. -/
theorem length_le_of_measure {μ : σ → Nat}
    (hstep : ∀ s a t, Inv s → step s a = some t → Inv t ∧ μ t < μ s)
    {s t : σ} {as : List α} (hs : Inv s) (hrun : run step s as = some t) :
    as.length + μ t ≤ μ s := by
  induction as generalizing s with
  | nil =>
      obtain rfl : s = t := Option.some.inj hrun
      exact Nat.le_of_eq (Nat.zero_add _)
  | cons a rest ih =>
      obtain ⟨u, hu, hrest⟩ := Option.bind_eq_some_iff.mp hrun
      obtain ⟨hinv, hlt⟩ := hstep s a u hs hu
      have hle := ih hinv hrest
      rw [List.length_cons]
      omega

/-- When every step lowers a rank that the state may have in several ways, it bounds the length of the runs. -/
theorem length_le_of_rank {R : Nat → σ → Prop}
    (hstep : ∀ m s a t, R m s → step s a = some t → ∃ k < m, R k t)
    {m : Nat} {s t : σ} {as : List α} (hs : R m s) (hrun : run step s as = some t) :
    ∃ k, R k t ∧ as.length + k ≤ m := by
  induction as generalizing m s with
  | nil =>
      obtain rfl : s = t := Option.some.inj hrun
      exact ⟨m, hs, Nat.le_of_eq (Nat.zero_add m)⟩
  | cons a rest ih =>
      obtain ⟨u, hu, hrest⟩ := Option.bind_eq_some_iff.mp hrun
      obtain ⟨k, hk, hrank⟩ := hstep m s a u hs hu
      obtain ⟨l, hl, hle⟩ := ih hrank hrest
      refine ⟨l, hl, ?_⟩
      rw [List.length_cons]
      omega

/-- When the runs are bounded, one of them ends where nothing is enabled. -/
theorem exists_stuck_run {s : σ} {bound : Nat}
    (hbound : ∀ as t, run step s as = some t → as.length ≤ bound) :
    ∃ as t, run step s as = some t ∧ ∀ a, step t a = none := by
  by_contra hnone
  push Not at hnone
  have hlong : ∀ n, ∃ as t, run step s as = some t ∧ as.length = n := by
    intro n
    induction n with
    | zero => exact ⟨[], s, rfl, rfl⟩
    | succ n ih =>
        obtain ⟨as, t, hrun, hlen⟩ := ih
        obtain ⟨a, ha⟩ := hnone as t hrun
        obtain ⟨u, hu⟩ := Option.ne_none_iff_exists'.mp ha
        refine ⟨as ++ [a], u, ?_, ?_⟩
        · rw [run_concat, hrun]
          exact hu
        · rw [List.length_append, hlen]
          rfl
  obtain ⟨as, t, hrun, hlen⟩ := hlong (bound + 1)
  have hle := hbound as t hrun
  omega

/-- Follow a schedule along a relation. -/
inductive Follows {τ : Type*} (rel : τ → α → τ → Prop) : τ → List α → τ → Prop
  | nil {t : τ} : Follows rel t [] t
  | cons {t u v : τ} {a : α} {as : List α} : rel t a u → Follows rel u as v → Follows rel t (a :: as) v

/-- Forward simulation: when each allowed step is possible and is one of the relation, every schedule of
allowed steps can be followed and is one along the relation. `Sim n` relates states with `n` steps to go. -/
theorem exists_run_follows {τ : Type*} {rel : τ → α → τ → Prop} {Sim : Nat → σ → τ → Prop}
    (hstep : ∀ n s t a, Sim (n + 1) s t → ok s a → ∃ s' t', step s a = some s' ∧ rel t a t' ∧ Sim n s' t')
    {s : σ} {t : τ} {as : List α} (hsim : Sim as.length s t) (hok : Along step ok s as) :
    ∃ s' t', run step s as = some s' ∧ Follows rel t as t' ∧ Sim 0 s' t' := by
  induction as generalizing s t with
  | nil => exact ⟨s, t, rfl, .nil, hsim⟩
  | cons a rest ih =>
      obtain ⟨s₁, t₁, hs₁, hrel, hsim₁⟩ := hstep _ s t a hsim hok.1
      obtain ⟨s₂, t₂, hs₂, hrest, hsim₂⟩ := ih hsim₁ (hok.2 s₁ hs₁)
      exact ⟨s₂, t₂, run_of_step hs₁ hs₂, .cons hrel hrest, hsim₂⟩

end Dogee.Transition
