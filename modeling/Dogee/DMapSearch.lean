import Dogee.DMapIteration

/-!
# Looking up a key in a shared map

The descent of `search` stops at the first node with the wanted key. An
insertion goes to the right of the nodes with an equal key, but a rotation can
bring such a node to the left afterwards, so the tree is only sorted in the weak
sense: what the descent relies on is that a smaller key is not in the right
subtree and a larger one not in the left.
-/

namespace Dogee.DMap

open RedBlack
open StableSort
open Transition

variable {T TV : Type}

/-- What a lookup among the given nodes may return: a node with the key, or
null when there is none. -/
def Finds (labels : List (Label T TV)) (k : T) (q : ObjectKey) : Prop :=
  (∃ a ∈ labels, a.key = k ∧ q = a.addr) ∨ ((∀ a ∈ labels, a.key ≠ k) ∧ q = 0)

theorem Finds.mono {labels labels' : List (Label T TV)} {k : T} {q : ObjectKey}
    (h : Finds labels k q) (hsub : ∀ a ∈ labels, a ∈ labels')
    (hother : ∀ a ∈ labels', a.key = k → a ∈ labels) : Finds labels' k q := by
  rcases h with ⟨a, ha, hk, hq⟩ | ⟨hno, hq⟩
  · exact Or.inl ⟨a, hsub a ha, hk, hq⟩
  · exact Or.inr ⟨fun a ha hk => hno a (hother a ha hk) hk, hq⟩

section Search

variable [LinearOrder T]

/-- `search(x, key)` -/
def searchFrom (s : State T TV) (key : T) : Nat → ObjectKey → Option ObjectKey
  | 0, _ => none
  | fuel + 1, x =>
      if x = 0 then some x
      else do
        if (← s.heap x).key = key then some x
        else if key < (← s.heap x).key then searchFrom s key fuel (← s.heap x).left
        else searchFrom s key fuel (← s.heap x).right

def search (fuel : Nat) (s : State T TV) (key : T) : Option ObjectKey :=
  searchFrom s key fuel s.mRoot

theorem searchFrom_finds {s : State T TV} {k : T} {q : ObjectKey} {t : RedBlack.Tree (Label T TV)}
    {fuel : Nat} (ht : Rep s.heap q t) (hsort : t.toList.Pairwise fun a b => a.key ≤ b.key)
    (hfuel : t.toList.length < fuel) :
    ∃ x, searchFrom s k fuel (rootAddr t) = some x ∧ Finds t.toList k x := by
  induction t generalizing q fuel with
  | nil =>
      obtain ⟨fuel, rfl⟩ := Nat.exists_eq_succ_of_ne_zero (Nat.ne_zero_of_lt hfuel)
      exact ⟨0, rfl, Or.inr ⟨by simp, rfl⟩⟩
  | node c l a r ihl ihr =>
      obtain ⟨hne, hcell, hl, hr⟩ := ht
      obtain ⟨fuel, rfl⟩ := Nat.exists_eq_succ_of_ne_zero (Nat.ne_zero_of_lt hfuel)
      rw [RedBlack.Tree.toList_node, List.length_append, List.length_cons] at hfuel
      obtain ⟨hsortl, hsortr, hbelow⟩ := List.pairwise_append.mp hsort
      obtain ⟨habove, hsortr⟩ := List.pairwise_cons.mp hsortr
      rcases lt_trichotomy k a.key with hlt | heq | hgt
      · obtain ⟨x, hx, hfinds⟩ := ihl hl hsortl (by omega : l.toList.length < fuel)
        refine ⟨x, ?_, hfinds.mono (fun b hb => by simp [hb]) fun b hb hk => ?_⟩
        · rw [← hx]
          simp [searchFrom, hne, hcell, Label.cell, hlt, hlt.ne']
        · simp only [RedBlack.Tree.toList_node, List.mem_append, List.mem_cons] at hb
          rcases hb with hb | rfl | hb
          · exact hb
          · exact absurd hk hlt.ne'
          · exact absurd hk (hlt.trans_le (habove b hb)).ne'
      · refine ⟨a.addr, ?_, Or.inl ⟨a, by simp, heq.symm, rfl⟩⟩
        simp [searchFrom, hne, hcell, Label.cell, heq]
      · obtain ⟨x, hx, hfinds⟩ := ihr hr hsortr (by omega : r.toList.length < fuel)
        refine ⟨x, ?_, hfinds.mono (fun b hb => by simp [hb]) fun b hb hk => ?_⟩
        · rw [← hx]
          simp [searchFrom, hne, hcell, Label.cell, hgt.not_gt, hgt.ne]
        · simp only [RedBlack.Tree.toList_node, List.mem_append, List.mem_cons] at hb
          rcases hb with hb | rfl | hb
          · exact absurd hk ((hbelow b hb a (by simp)).trans_lt hgt).ne
          · exact absurd hk hgt.ne
          · exact hb

theorem search_finds {s : State T TV} {t : RedBlack.Tree (Label T TV)} {fuel : Nat} (k : T)
    (hs : IsMap s t) (hsort : t.toList.Pairwise fun a b => a.key ≤ b.key)
    (hfuel : t.toList.length < fuel) : ∃ x, search fuel s k = some x ∧ Finds t.toList k x := by
  obtain ⟨x, hx, hfinds⟩ := searchFrom_finds (k := k) hs.rep hsort hfuel
  refine ⟨x, ?_, hfinds⟩
  rw [search, hs.root_eq, hx]

/-- After any insertions a lookup ends. It returns a node exactly when the key
has been inserted, and the node holds the key and a value inserted under it. -/
theorem lookup_after_insertions (fuel : Nat) (s₀ : State T TV) (calls : List (Label T TV)) (k : T)
    (hroot : s₀.mRoot = 0) (hfresh : FreshKeys s₀ calls) (hfuel : calls.length < fuel) :
    ∃ s x, run (insertLabel fuel) s₀ calls = some s ∧ search fuel s k = some x ∧
      (x ≠ 0 ↔ ∃ a ∈ calls, a.key = k) ∧
      (x ≠ 0 → ∃ n, s.heap x = some n ∧ n.key = k ∧
        ∃ a ∈ calls, a.key = k ∧ a.value = n.value) := by
  obtain ⟨s, t, hrun, hmap, hlist, -⟩ := run_insertLabel hroot hfresh hfuel.le
  have hperm : t.toList.Perm calls := by
    rw [hlist]
    exact stableSort_perm Label.key calls
  have hsort : t.toList.Pairwise fun a b => a.key ≤ b.key := by
    rw [hlist]
    exact sortedBy_stableSort Label.key calls
  obtain ⟨x, hx, hfinds⟩ := search_finds k hmap hsort (hperm.length_eq.trans_lt hfuel)
  refine ⟨s, x, hrun, hx, ?_, ?_⟩
  · rcases hfinds with ⟨a, ha, hk, rfl⟩ | ⟨hno, rfl⟩
    · exact iff_of_true (hfresh.2 a (hperm.mem_iff.mp ha)).1 ⟨a, hperm.mem_iff.mp ha, hk⟩
    · refine iff_of_false (fun h => h rfl) ?_
      rintro ⟨a, ha, hk⟩
      exact hno a (hperm.mem_iff.mpr ha) hk
  · intro hx0
    rcases hfinds with ⟨a, ha, hk, rfl⟩ | ⟨-, rfl⟩
    · obtain ⟨-, n, hcell, hkey, hvalue⟩ := hmap.rep.cell_of_mem ha
      exact ⟨n, hcell, hkey.trans hk, a, hperm.mem_iff.mp ha, hk, hvalue.symm⟩
    · exact absurd rfl hx0

/-- Two values under one key, and a lookup of that key. -/
theorem lookup_after_insertions_three :
    ∃ s x, run (@insertLabel ℕ ℕ _ 4) ⟨fun _ => none, 0⟩
        [⟨7, 2, 10⟩, ⟨4, 1, 20⟩, ⟨9, 2, 30⟩] = some s ∧ search 4 s 2 = some x ∧
      (x ≠ 0 ↔ ∃ a ∈ ([⟨7, 2, 10⟩, ⟨4, 1, 20⟩, ⟨9, 2, 30⟩] : List (Label ℕ ℕ)), a.key = 2) ∧
      (x ≠ 0 → ∃ n, s.heap x = some n ∧ n.key = 2 ∧
        ∃ a ∈ ([⟨7, 2, 10⟩, ⟨4, 1, 20⟩, ⟨9, 2, 30⟩] : List (Label ℕ ℕ)),
          a.key = 2 ∧ a.value = n.value) := by
  apply lookup_after_insertions
  · rfl
  · exact ⟨by decide, by simp⟩
  · decide

end Search

end Dogee.DMap
