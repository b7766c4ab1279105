import Mathlib.Algebra.BigOperators.Group.Finset.Basic
import Mathlib.Algebra.BigOperators.Ring.Finset
import Mathlib.Algebra.Order.BigOperators.Group.Finset

/-!
# What the threads of a system have together

The threads are numbered, and each is at some place. A quantity that depends on the place of a thread only
is counted over the first `n` threads; one step moves one thread.
-/

namespace Dogee.ThreadCounts

variable {β : Type*} {n : Nat}

/-- What the first `n` threads have together. -/
def total (n : Nat) (f : β → Nat) (place : Nat → β) : Nat := ∑ t ∈ Finset.range n, f (place t)

theorem total_update {t : Nat} (ht : t < n) (f : β → Nat) (place : Nat → β) (x : β) :
    total n f (Function.update place t x) + f (place t) = total n f place + f x := by
  have hmem : t ∈ Finset.range n := Finset.mem_range.mpr ht
  have hrest : ∑ i ∈ (Finset.range n).erase t, f (Function.update place t x i) =
      ∑ i ∈ (Finset.range n).erase t, f (place i) := by
    apply Finset.sum_congr rfl
    intro i hi
    rw [Function.update_of_ne (Finset.ne_of_mem_erase hi)]
  unfold total
  rw [← Finset.add_sum_erase _ _ hmem, ← Finset.add_sum_erase _ (fun i => f (place i)) hmem, hrest,
    Function.update_self]
  omega

/-- A thread has no more than all of them together. -/
theorem le_total {t : Nat} (ht : t < n) (f : β → Nat) (place : Nat → β) : f (place t) ≤ total n f place :=
  Finset.single_le_sum (f := fun i => f (place i)) (fun _ _ => Nat.zero_le _) (Finset.mem_range.mpr ht)

theorem total_eq_zero {f : β → Nat} {place : Nat → β} (h : ∀ t < n, f (place t) = 0) : total n f place = 0 :=
  Finset.sum_eq_zero fun t ht => h t (Finset.mem_range.mp ht)

theorem total_eq {f : β → Nat} {place : Nat → β} (h : ∀ t < n, f (place t) = 1) : total n f place = n := by
  have hones : total n f place = ∑ _t ∈ Finset.range n, 1 :=
    Finset.sum_congr rfl fun t ht => h t (Finset.mem_range.mp ht)
  rw [hones, Finset.sum_const, Finset.card_range, nsmul_eq_mul, Nat.cast_id, Nat.mul_one]

/-- Where no thread has more of one thing than of another, and some thread has less. -/
theorem total_lt_total {f g : β → Nat} {place : Nat → β} (hle : ∀ x, f x ≤ g x) {t : Nat} (ht : t < n)
    (hlt : f (place t) < g (place t)) : total n f place < total n g place :=
  Finset.sum_lt_sum (fun i _ => hle (place i)) ⟨t, Finset.mem_range.mpr ht, hlt⟩

/-- Where no thread has more than one, and some thread has none. -/
theorem total_lt {f : β → Nat} {place : Nat → β} (hle : ∀ x, f x ≤ 1) {t : Nat} (ht : t < n)
    (hzero : f (place t) = 0) : total n f place < n := by
  have hlt : total n f place < total n (fun _ => 1) place :=
    total_lt_total hle ht (by rw [hzero]; exact Nat.one_pos)
  have hones : total n (fun _ => 1) place = n := total_eq fun _ _ => rfl
  rwa [hones] at hlt

/-- What listed threads have together, when one of them moves. -/
theorem sum_map_update {ι : Type*} [DecidableEq ι] {l : List ι} (hl : l.Nodup) {a : ι} (ha : a ∈ l)
    (f : ι → β → Nat) (place : ι → β) (x : β) :
    (l.map fun i => f i (Function.update place a x i)).sum + f a (place a) =
      (l.map fun i => f i (place i)).sum + f a x := by
  have hrest : (l.erase a).map (fun i => f i (Function.update place a x i)) =
      (l.erase a).map fun i => f i (place i) := by
    apply List.map_congr_left
    intro i hi
    rw [Function.update_of_ne]
    rintro rfl
    exact hl.not_mem_erase hi
  rw [← List.sum_map_erase (fun i => f i (Function.update place a x i)) ha,
    ← List.sum_map_erase (fun i => f i (place i)) ha, hrest, Function.update_self]
  omega

end Dogee.ThreadCounts
