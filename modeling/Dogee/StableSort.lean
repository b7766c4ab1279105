import Mathlib.Data.List.Basic
import Mathlib.Order.Basic
import Mathlib.Order.Lattice

/-!
# Stable sorting by a key

A list sorted by a key, with equal keys in their original order, is determined
by its order and by the elements of each key. Inserting an element behind every
element whose key is not larger therefore sorts the list with that element
appended.
-/

namespace Dogee.StableSort

variable {α κ : Type*} [LinearOrder κ] (key : α → κ)

/-- The elements with key `k`, in order. -/
def withKey (k : κ) (l : List α) : List α := l.filter fun a => decide (key a = k)

/-- Sort by key, equal keys in their original order. -/
def stableSort (l : List α) : List α := l.mergeSort fun a b => decide (key a ≤ key b)

/-- The list is in the order of its keys. -/
def SortedBy (l : List α) : Prop := l.Pairwise fun a b => key a ≤ key b

theorem stableSort_perm (l : List α) : (stableSort key l).Perm l := List.mergeSort_perm l _

theorem sortedBy_stableSort (l : List α) : SortedBy key (stableSort key l) := by
  have hpair : (stableSort key l).Pairwise fun a b => decide (key a ≤ key b) = true := by
    refine List.pairwise_mergeSort ?_ ?_ l
    · intro a b c hab hbc
      rw [decide_eq_true_eq] at *
      exact le_trans hab hbc
    · intro a b
      simpa using le_total (key a) (key b)
  exact hpair.imp fun h => of_decide_eq_true h

theorem withKey_stableSort (k : κ) (l : List α) :
    withKey key k (stableSort key l) = withKey key k l := by
  have hsub : (withKey key k l).Sublist (stableSort key l) := by
    refine List.sublist_mergeSort ?_ ?_ ?_ List.filter_sublist
    · intro a b c hab hbc
      rw [decide_eq_true_eq] at *
      exact le_trans hab hbc
    · intro a b
      simpa using le_total (key a) (key b)
    · refine List.pairwise_of_forall_mem_list fun a ha b hb => ?_
      simp only [withKey, List.mem_filter, decide_eq_true_eq] at ha hb
      simp [ha.2, hb.2]
  have hfil := hsub.filter fun a => decide (key a = k)
  have hself : (withKey key k l).filter (fun a => decide (key a = k)) = withKey key k l := by
    simp [withKey]
  rw [hself] at hfil
  exact (hfil.eq_of_length ((stableSort_perm key l).filter _).length_eq.symm).symm

variable {key}

/-- Two sorted lists that agree on each key are equal. -/
theorem SortedBy.ext {l l' : List α} (hl : SortedBy key l) (hl' : SortedBy key l')
    (h : ∀ k, withKey key k l = withKey key k l') : l = l' := by
  have hmem : ∀ {l₁ l₂ : List α}, (∀ k, withKey key k l₁ = withKey key k l₂) →
      ∀ {a}, a ∈ l₁ → a ∈ l₂ := by
    intro l₁ l₂ heq a ha
    have hin : a ∈ withKey key (key a) l₁ := by simp [withKey, ha]
    rw [heq] at hin
    exact List.mem_of_mem_filter hin
  induction l generalizing l' with
  | nil =>
      cases l' with
      | nil => rfl
      | cons b l' => exact absurd (hmem (fun k => (h k).symm) (List.mem_cons_self)) (by simp)
  | cons a l ih =>
      cases l' with
      | nil => exact absurd (hmem h (List.mem_cons_self)) (by simp)
      | cons b l' =>
          obtain ⟨ha, hl⟩ := List.pairwise_cons.mp hl
          obtain ⟨hb, hl''⟩ := List.pairwise_cons.mp hl'
          -- each head is bounded by the other, so they have one key
          have hab : key a ≤ key b := by
            rcases List.mem_cons.mp (hmem (fun k => (h k).symm) List.mem_cons_self) with hba | hba
            · rw [hba]
            · exact ha b hba
          have hba : key b ≤ key a := by
            rcases List.mem_cons.mp (hmem h List.mem_cons_self) with hab | hab
            · rw [hab]
            · exact hb a hab
          have hkey : key a = key b := le_antisymm hab hba
          have hhead := h (key a)
          simp only [withKey, List.filter_cons, decide_true, if_true, hkey] at hhead
          obtain ⟨rfl, -⟩ := List.cons.inj hhead
          refine congrArg (a :: ·) (ih hl hl'' fun k => ?_)
          have hk := h k
          simp only [withKey, List.filter_cons] at hk
          split at hk
          · exact (List.cons.inj hk).2
          · exact hk

/-- Sorting with one more element at the end puts it behind every element whose
key is not larger. -/
theorem stableSort_concat {l l₁ l₂ : List α} {a : α} (hl : stableSort key l = l₁ ++ l₂)
    (h₁ : ∀ b ∈ l₁, key b ≤ key a) (h₂ : ∀ b ∈ l₂, key a < key b) :
    stableSort key (l ++ [a]) = l₁ ++ a :: l₂ := by
  have hsort := sortedBy_stableSort key l
  rw [hl] at hsort
  obtain ⟨hs₁, hs₂, hs⟩ := List.pairwise_append.mp hsort
  refine (sortedBy_stableSort key (l ++ [a])).ext ?_ fun k => ?_
  · refine List.pairwise_append.mpr ⟨hs₁, List.pairwise_cons.mpr ⟨fun b hb => (h₂ b hb).le, hs₂⟩, ?_⟩
    intro b hb c hc
    rcases List.mem_cons.mp hc with rfl | hc
    · exact h₁ b hb
    · exact hs b hb c hc
  · have hk := withKey_stableSort key k l
    rw [withKey_stableSort]
    rw [hl] at hk
    simp only [withKey, List.filter_append, List.filter_cons] at hk ⊢
    rw [← hk]
    by_cases hka : key a = k
    · -- no element behind the new one has its key
      have hnil : l₂.filter (fun b => decide (key b = k)) = [] := by
        refine List.filter_eq_nil_iff.mpr fun b hb => ?_
        have hlt := h₂ b hb
        rw [hka] at hlt
        simpa using hlt.ne'
      simp [hka, hnil]
    · simp [hka]

end Dogee.StableSort
