import Mathlib.Data.List.Basic

/-!
# Machines that answer

A machine handles every message in every state, and each message has an answer. One
machine refines another when an abstraction function carries its states and answers
over, message by message; whole sequences of messages then agree.
-/

namespace Dogee.Machine

variable {σ τ α β : Type*} {h : σ → α → σ × β} {g : τ → α → τ × β}

/-- The state after a sequence of messages. -/
def after (h : σ → α → σ × β) : σ → List α → σ
  | s, [] => s
  | s, a :: rest => after h (h s a).1 rest

/-- The answers to a sequence of messages. -/
def answers (h : σ → α → σ × β) : σ → List α → List β
  | _, [] => []
  | s, a :: rest => (h s a).2 :: answers h (h s a).1 rest

/-- The machine `h` behaves as `g`, seen through `abs`. -/
def Refines (h : σ → α → σ × β) (g : τ → α → τ × β) (abs : σ → τ) : Prop :=
  ∀ s a, abs (h s a).1 = (g (abs s) a).1 ∧ (h s a).2 = (g (abs s) a).2

theorem Refines.after_eq {abs : σ → τ} (href : Refines h g abs) (s : σ) (as : List α) :
    abs (after h s as) = after g (abs s) as := by
  induction as generalizing s with
  | nil => rfl
  | cons a rest ih =>
      rw [after, after, ih, (href s a).1]

theorem Refines.answers_eq {abs : σ → τ} (href : Refines h g abs) (s : σ) (as : List α) :
    answers h s as = answers g (abs s) as := by
  induction as generalizing s with
  | nil => rfl
  | cons a rest ih =>
      rw [answers, answers, ih, (href s a).1, (href s a).2]

/-- What every message preserves, every sequence of messages preserves. -/
theorem after_invariant (Inv : σ → Prop) (hstep : ∀ s a, Inv s → Inv (h s a).1) {s : σ} (hs : Inv s) (as : List α) :
    Inv (after h s as) := by
  induction as generalizing s with
  | nil => exact hs
  | cons a rest ih => exact ih (hstep s a hs)

end Dogee.Machine
