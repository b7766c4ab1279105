import Dogee.DMapRemove
import Dogee.Transition

/-!
# Insertions and removals in any order

A map is used as a bag of entries: an insertion adds one, a removal takes one
with the key away if there is one. `Changes` says this of the entries in
symmetric order, and every schedule of calls is one of it. The reads see the
entries, a lookup after logarithmically many nodes, and the nodes in shared
memory are those of the entries.
-/

namespace Dogee.DMap

open RedBlack
open Transition

variable {T TV : Type}

/-- A call that changes the map. An insertion comes with the key the allocator gives its node. -/
inductive MapCall (T TV : Type)
  | insert (z : ObjectKey) (key : T) (value : TV)
  | remove (key : T)

/-- The entries in symmetric order before and after a call. -/
inductive Changes [LT T] [LE T] : List (Label T TV) → MapCall T TV → List (Label T TV) → Prop
  | insert {l₁ l₂ : List (Label T TV)} {z : ObjectKey} {k : T} {v : TV} :
      (∀ a ∈ l₁, a.key ≤ k) → (∀ a ∈ l₂, k < a.key) → Changes (l₁ ++ l₂) (.insert z k v) (l₁ ++ ⟨z, k, v⟩ :: l₂)
  | removeOne {l₁ l₂ : List (Label T TV)} {a : Label T TV} : Changes (l₁ ++ a :: l₂) (.remove a.key) (l₁ ++ l₂)
  | removeNone {l : List (Label T TV)} {k : T} : (∀ a ∈ l, a.key ≠ k) → Changes l (.remove k) l

theorem IsMap.focus {s : State T TV} {t : RedBlack.Tree (Label T TV)} (hs : IsMap s t) :
    Focus s.heap s.mRoot t [] := by
  refine ⟨hs.rep, trivial, ?_, hs.root_eq⟩
  rw [pathAddrs, List.append_nil]
  exact hs.nodup

section Calls

variable [LinearOrder T]

def mapStep (fuel : Nat) (s : State T TV) : MapCall T TV → Option (State T TV)
  | .insert z key value => insert fuel s z key value
  | .remove key => remove fuel s key

/-- The allocator gives a key that names no object. -/
def Allocates (s : State T TV) : MapCall T TV → Prop
  | .insert z _ _ => z ≠ 0 ∧ s.heap z = none
  | .remove _ => True

instance (s : State T TV) (c : MapCall T TV) : Decidable (Allocates s c) :=
  match c with
  | .insert z _ _ => inferInstanceAs (Decidable (z ≠ 0 ∧ s.heap z = none))
  | .remove _ => inferInstanceAs (Decidable True)

/-- One call changes how many entries a key has. -/
def countCall (k : T) (n : Nat) : MapCall T TV → Nat
  | .insert _ key _ => if key = k then n + 1 else n
  | .remove key => if key = k then n - 1 else n

/-- The number of entries under a key after the calls. -/
def entriesUnder (k : T) (calls : List (MapCall T TV)) : Nat := calls.foldl (countCall k) 0

/-- What the reads of a map see of its entries. -/
structure Shows (fuel : Nat) (s : State T TV) (l : List (Label T TV)) : Prop where
  isMap : ∃ t, IsMap s t ∧ t.toList = l
  sorted : l.Pairwise fun a b => a.key ≤ b.key
  cell : ∀ a ∈ l, ∃ n, s.heap a.addr = some n ∧ n.key = a.key ∧ n.value = a.value
  lookup : ∀ k, ∃ x, search (2 * Nat.log2 (l.length + 1) + 1) s k = some x ∧ Finds l k x
  lower : ∀ k, (lowerBound fuel s k).bind (walk fuel s fuel) = some (l.filter fun a => decide (k ≤ a.key))
  upper : ∀ k, (upperBound fuel s k).bind (walk fuel s fuel) = some (l.filter fun a => decide (k < a.key))
  neighbours : ∀ xs a ys, l = xs ++ a :: ys → successor fuel s a.addr = some (headAddr ys) ∧
    predecessor fuel s a.addr = some (headAddr xs.reverse)
  ends : minimum fuel s = some (headAddr l) ∧ maximum fuel s = some (headAddr l.reverse)

/-! ## The reads -/

/-- A lookup goes down one path. -/
theorem searchFrom_fuel {s : State T TV} {q : ObjectKey} {t : RedBlack.Tree (Label T TV)} {fuel fuel' : Nat}
    (k : T) (ht : Rep s.heap q t) (hfuel : t.height < fuel) (hfuel' : t.height < fuel') :
    searchFrom s k fuel (rootAddr t) = searchFrom s k fuel' (rootAddr t) := by
  induction t generalizing q fuel fuel' with
  | nil =>
      obtain ⟨fuel, rfl⟩ := Nat.exists_eq_succ_of_ne_zero (Nat.ne_zero_of_lt hfuel)
      obtain ⟨fuel', rfl⟩ := Nat.exists_eq_succ_of_ne_zero (Nat.ne_zero_of_lt hfuel')
      rfl
  | node c l a r ihl ihr =>
      obtain ⟨hne, hcell, hl, hr⟩ := ht
      obtain ⟨fuel, rfl⟩ := Nat.exists_eq_succ_of_ne_zero (Nat.ne_zero_of_lt hfuel)
      obtain ⟨fuel', rfl⟩ := Nat.exists_eq_succ_of_ne_zero (Nat.ne_zero_of_lt hfuel')
      obtain ⟨hleft, hright⟩ := Nat.max_lt.mp (Nat.lt_of_succ_lt_succ hfuel)
      obtain ⟨hleft', hright'⟩ := Nat.max_lt.mp (Nat.lt_of_succ_lt_succ hfuel')
      have hdownl := ihl hl hleft hleft'
      have hdownr := ihr hr hright hright'
      simp [searchFrom, hne, hcell, Label.cell, hdownl, hdownr]

/-- A lookup ends after at most twice the logarithm of the number of entries. -/
theorem search_log {s : State T TV} {t : RedBlack.Tree (Label T TV)} (k : T) (hs : IsMap s t)
    (hsort : t.toList.Pairwise fun a b => a.key ≤ b.key) :
    ∃ x, search (2 * Nat.log2 (t.toList.length + 1) + 1) s k = some x ∧ Finds t.toList k x := by
  obtain ⟨n, hb⟩ := hs.balanced
  have hheight := Nat.lt_succ_of_le hb.height_le_log
  have hlong : t.toList.length < t.toList.length + 1 + t.height := by omega
  obtain ⟨x, hx, hfinds⟩ := search_finds k hs hsort hlong
  refine ⟨x, ?_, hfinds⟩
  calc search (2 * Nat.log2 (t.toList.length + 1) + 1) s k
      = searchFrom s k (2 * Nat.log2 (t.toList.length + 1) + 1) (rootAddr t) := by rw [search, hs.root_eq]
    _ = searchFrom s k (t.toList.length + 1 + t.height) (rootAddr t) :=
        searchFrom_fuel k hs.rep hheight (by omega)
    _ = some x := by rw [← hs.root_eq, ← hx, search]

theorem IsMap.shows {s : State T TV} {t : RedBlack.Tree (Label T TV)} {fuel : Nat} (hs : IsMap s t)
    (hsort : t.toList.Pairwise fun a b => a.key ≤ b.key) (hfuel : t.toList.length < fuel) :
    Shows fuel s t.toList where
  isMap := ⟨t, hs, rfl⟩
  sorted := hsort
  cell a ha := (hs.rep.cell_of_mem ha).2
  lookup k := search_log k hs hsort
  lower k := by
    apply walk_bound _ hs.focus hsort hfuel
    intro k₁ k₂ hle h₁
    exact decide_eq_true ((of_decide_eq_true h₁).trans hle)
  upper k := by
    apply walk_bound _ hs.focus hsort hfuel
    intro k₁ k₂ hle h₁
    exact decide_eq_true (lt_of_lt_of_le (of_decide_eq_true h₁) hle)
  neighbours xs a ys hsplit := ⟨successor_eq hs.focus hsplit hfuel.le, predecessor_eq hs.focus hsplit hfuel.le⟩
  ends := ⟨minimum_eq hs.focus hfuel.le, maximum_eq hs.focus hfuel.le⟩

/-! ## The calls -/

/-- A lookup tells whether there is an entry. -/
theorem Shows.lookup_eq_zero_iff {fuel : Nat} {s : State T TV} {l : List (Label T TV)} (h : Shows fuel s l) (k : T) :
    search (2 * Nat.log2 (l.length + 1) + 1) s k = some 0 ↔ ∀ a ∈ l, a.key ≠ k := by
  obtain ⟨t, hs, rfl⟩ := h.isMap
  obtain ⟨x, hx, hfinds⟩ := h.lookup k
  rw [hx]
  constructor
  · intro hzero
    rcases hfinds with ⟨a, ha, -, haddr⟩ | ⟨hnone, -⟩
    · exact absurd (haddr.symm.trans (Option.some.inj hzero)) (hs.rep.cell_of_mem ha).1
    · exact hnone
  · intro hnone
    rcases hfinds with ⟨a, ha, hk, -⟩ | ⟨-, rfl⟩
    · exact absurd hk (hnone a ha)
    · rfl

/-- Removing a key that is there takes one of its entries away and frees its node. -/
theorem remove_changes {s : State T TV} {t : RedBlack.Tree (Label T TV)} {fuel : Nat} (k : T) (hs : IsMap s t)
    (hsort : t.toList.Pairwise fun a b => a.key ≤ b.key) (hfuel : t.toList.length < fuel) :
    ((∀ a ∈ t.toList, a.key ≠ k) ∧ remove fuel s k = some s) ∨
      ∃ s' t' l₁ a l₂, a.key = k ∧ remove fuel s k = some s' ∧ IsMap s' t' ∧ t.toList = l₁ ++ a :: l₂ ∧
        t'.toList = l₁ ++ l₂ ∧ ∀ q, (s'.heap q).isSome = ((s.heap q).isSome && q != a.addr) := by
  obtain ⟨x, hx, hfinds⟩ := search_finds k hs hsort hfuel
  rcases hfinds with ⟨a, ha, hk, rfl⟩ | ⟨hnone, rfl⟩
  · right
    obtain ⟨c, l, r, p, hplug⟩ := exists_focus ha []
    change plug (.node c l a r) p = t at hplug
    subst hplug
    obtain ⟨s', root', t', hrun, hf', hb', hlist', hnodes⟩ := removeNode_spec hs.focus.ofRoot hs.balanced hfuel
    refine ⟨{ s' with mRoot := root' }, t', before p ++ l.toList, a, r.toList ++ after p, hk, ?_,
      ⟨hf'.tree, hf'.root_eq, ?_, hb'⟩, ?_, ?_, hnodes⟩
    · rw [remove, hx, Option.bind_eq_bind, Option.bind_some, if_pos (hs.rep.cell_of_mem ha).1, hrun]
      rfl
    · have hnd := hf'.nodup
      rwa [pathAddrs, List.append_nil] at hnd
    · rw [toList_plug, Tree.toList_node]
      simp only [List.append_assoc, List.cons_append]
    · rw [hlist', List.append_assoc]
  · left
    refine ⟨hnone, ?_⟩
    rw [remove, hx]
    rfl

/-- The nodes in shared memory are those that were there at first and those of the entries. -/
structure Nodes (s₀ s : State T TV) (l : List (Label T TV)) : Prop where
  allocated : ∀ q, (s.heap q).isSome = ((s₀.heap q).isSome || decide (q ∈ l.map Label.addr))
  apart : ∀ a ∈ l, s₀.heap a.addr = none

/-- The entries, with room in the loops for `n` more insertions. -/
def Entries (s₀ : State T TV) (fuel n : Nat) (s : State T TV) (l : List (Label T TV)) : Prop :=
  (∃ t, IsMap s t ∧ t.toList = l) ∧ (l.Pairwise fun a b => a.key ≤ b.key) ∧ l.length + n < fuel ∧ Nodes s₀ s l

/-- An insertion adds its entry after those of an equal key. -/
theorem entries_insert {s₀ s : State T TV} {fuel n : Nat} {l : List (Label T TV)} {z : ObjectKey} {k : T} {v : TV}
    (h : Entries s₀ fuel (n + 1) s l) (hz0 : z ≠ 0) (hz : s.heap z = none) :
    ∃ s' l', insert fuel s z k v = some s' ∧ Changes l (.insert z k v) l' ∧ Entries s₀ fuel n s' l' := by
  obtain ⟨⟨t, hs, rfl⟩, hsort, hfuel, hnodes⟩ := h
  obtain ⟨s', t', l₁, l₂, hrun, hs', hl, hl', h₁, h₂, hdom⟩ :=
    insert_spec (k := k) (v := v) hs hsort hz0 hz (Nat.lt_of_le_of_lt (Nat.le_add_right _ _) hfuel)
  rw [hl] at hsort hfuel hnodes ⊢
  refine ⟨s', l₁ ++ ⟨z, k, v⟩ :: l₂, hrun, .insert h₁ h₂, ⟨t', hs', hl'⟩, ?_, ?_, fun q => ?_, fun a ha => ?_⟩
  · obtain ⟨hsort₁, hsort₂, hcross⟩ := List.pairwise_append.mp hsort
    apply List.pairwise_append.mpr
    refine ⟨hsort₁, List.pairwise_cons.mpr ⟨fun b hb => (h₂ b hb).le, hsort₂⟩, fun a ha b hb => ?_⟩
    rcases List.mem_cons.mp hb with rfl | hb
    · exact h₁ a ha
    · exact hcross a ha b hb
  · rw [List.length_append] at hfuel
    rw [List.length_append, List.length_cons]
    omega
  · rw [hdom, hnodes.allocated q]
    simp only [List.map_append, List.map_cons, List.mem_append, List.mem_cons, Bool.decide_or, Bool.or_assoc,
      beq_eq_decide]
    grind
  · have hfree : s₀.heap z = none := by
      have hnone := hnodes.allocated z
      rw [hz] at hnone
      simpa using (Bool.or_eq_false_iff.mp hnone.symm).1
    rcases List.mem_append.mp ha with ha | ha
    · exact hnodes.apart a (List.mem_append_left _ ha)
    · rcases List.mem_cons.mp ha with rfl | ha
      · exact hfree
      · exact hnodes.apart a (List.mem_append_right _ ha)

/-- A removal takes the entry that the lookup finds away. -/
theorem entries_remove {s₀ s : State T TV} {fuel n : Nat} {l : List (Label T TV)} (k : T)
    (h : Entries s₀ fuel (n + 1) s l) :
    ∃ s' l', remove fuel s k = some s' ∧ Changes l (.remove k) l' ∧ Entries s₀ fuel n s' l' := by
  obtain ⟨⟨t, hs, rfl⟩, hsort, hfuel, hnodes⟩ := h
  rcases remove_changes k hs hsort (Nat.lt_of_le_of_lt (Nat.le_add_right _ _) hfuel) with
    ⟨hnone, hrun⟩ | ⟨s', t', l₁, a, l₂, rfl, hrun, hs', hl, hl', hdom⟩
  · exact ⟨s, t.toList, hrun, .removeNone hnone, ⟨t, hs, rfl⟩, hsort, by omega, hnodes⟩
  · have hnd := hs.nodup
    rw [addrs, hl] at hnd
    rw [hl] at hsort hfuel hnodes ⊢
    have hsub : (l₁ ++ l₂).Sublist (l₁ ++ a :: l₂) := (List.sublist_cons_self a l₂).append_left l₁
    refine ⟨s', l₁ ++ l₂, hrun, .removeOne, ⟨t', hs', hl'⟩, hsort.sublist hsub, ?_, fun q => ?_, fun b hb => ?_⟩
    · have hle := hsub.length_le
      omega
    · have hnew : s₀.heap a.addr = none := hnodes.apart a (by simp)
      have hnot : a.addr ∉ (l₁ ++ l₂).map Label.addr := by
        have hperm : ((l₁ ++ a :: l₂).map Label.addr).Perm (a.addr :: (l₁ ++ l₂).map Label.addr) :=
          List.perm_middle.map Label.addr
        exact (List.nodup_cons.mp (hperm.nodup_iff.mp hnd)).1
      rw [hdom, hnodes.allocated q]
      by_cases hq : q = a.addr
      · rw [hq, decide_eq_false hnot, hnew]
        simp
      · simp [hq]
    · exact hnodes.apart b (hsub.subset hb)

theorem entries_step {s₀ s : State T TV} {fuel n : Nat} {l : List (Label T TV)} {c : MapCall T TV}
    (h : Entries s₀ fuel (n + 1) s l) (hc : Allocates s c) :
    ∃ s' l', mapStep fuel s c = some s' ∧ Changes l c l' ∧ Entries s₀ fuel n s' l' := by
  cases c with
  | insert z k v => exact entries_insert h hc.1 hc.2
  | remove k => exact entries_remove k h

theorem Changes.countP {l l' : List (Label T TV)} {c : MapCall T TV} (h : Changes l c l') (k : T) :
    l'.countP (fun a => decide (a.key = k)) = countCall k (l.countP fun a => decide (a.key = k)) c := by
  cases h with
  | @insert l₁ l₂ z key v h₁ h₂ =>
      rw [List.countP_append, List.countP_append, List.countP_cons, countCall]
      by_cases hk : key = k
      · simp [hk, Nat.add_assoc]
      · simp [hk]
  | @removeOne l₁ l₂ a =>
      rw [List.countP_append, List.countP_append, List.countP_cons, countCall]
      by_cases hk : a.key = k
      · simp [hk]
      · simp [hk]
  | removeNone hnone =>
      rename_i key
      rw [countCall]
      by_cases hk : key = k
      · subst hk
        have hzero : l.countP (fun a => decide (a.key = key)) = 0 := by
          apply List.countP_eq_zero.mpr
          exact fun a ha hkey => hnone a ha (of_decide_eq_true hkey)
        rw [if_pos rfl, hzero]
      · rw [if_neg hk]

/-- How many entries a key has depends only on the calls, not on the shape of the tree. -/
theorem follows_countP {l l' : List (Label T TV)} {calls : List (MapCall T TV)} (h : Follows Changes l calls l')
    (k : T) : l'.countP (fun a => decide (a.key = k)) =
      calls.foldl (countCall k) (l.countP fun a => decide (a.key = k)) := by
  induction h with
  | nil => rfl
  | cons hstep _ ih =>
      rw [ih, hstep.countP k]
      rfl

/-- Every entry has been inserted. -/
theorem follows_inserted {l l' : List (Label T TV)} {calls : List (MapCall T TV)} (h : Follows Changes l calls l') :
    ∀ a ∈ l', a ∈ l ∨ .insert a.addr a.key a.value ∈ calls := by
  induction h with
  | nil => exact fun a ha => Or.inl ha
  | cons hstep _ ih =>
      intro a ha
      rcases ih a ha with hmem | hcall
      · cases hstep with
        | insert h₁ h₂ =>
            rcases List.mem_append.mp hmem with hmem | hmem
            · exact Or.inl (List.mem_append_left _ hmem)
            · rcases List.mem_cons.mp hmem with rfl | hmem
              · exact Or.inr List.mem_cons_self
              · exact Or.inl (List.mem_append_right _ hmem)
        | @removeOne l₁ l₂ b => exact Or.inl (((List.sublist_cons_self b l₂).append_left l₁).subset hmem)
        | removeNone => exact Or.inl hmem
      · exact Or.inr (List.mem_cons_of_mem _ hcall)

/-- From the empty map every schedule of insertions and removals runs to its end, no loop running out and
no null reference being followed. It changes the entries one call at a time, all reads agree with the
entries that are left, a lookup sees logarithmically many nodes, and no node leaks or is freed too early. -/
theorem map_runs (fuel : Nat) (s₀ : State T TV) (calls : List (MapCall T TV)) (hroot : s₀.mRoot = 0)
    (halloc : Along (mapStep fuel) Allocates s₀ calls) (hfuel : calls.length < fuel) :
    ∃ s l, run (mapStep fuel) s₀ calls = some s ∧ Follows Changes [] calls l ∧ Shows fuel s l ∧ Nodes s₀ s l ∧
      (∀ a ∈ l, .insert a.addr a.key a.value ∈ calls) ∧
      ∀ k, l.countP (fun a => decide (a.key = k)) = entriesUnder k calls ∧
        (search (2 * Nat.log2 (l.length + 1) + 1) s k = some 0 ↔ entriesUnder k calls = 0) := by
  have hstart : Entries s₀ fuel calls.length s₀ [] := by
    refine ⟨⟨.nil, ⟨trivial, hroot, List.nodup_nil, 0, .nil⟩, rfl⟩, List.Pairwise.nil, ?_, fun q => ?_, ?_⟩
    · simpa using hfuel
    · simp
    · simp
  have hstep : ∀ n s l c, Entries s₀ fuel (n + 1) s l → Allocates s c →
      ∃ s' l', mapStep fuel s c = some s' ∧ Changes l c l' ∧ Entries s₀ fuel n s' l' :=
    fun _ _ _ _ h hc => entries_step h hc
  obtain ⟨s, l, hrun, hfollows, ⟨t, hs, rfl⟩, hsort, hlen, hnodes⟩ := exists_run_follows hstep hstart halloc
  have hshows := hs.shows hsort (Nat.lt_of_le_of_lt (Nat.le_add_right _ _) hlen)
  refine ⟨s, t.toList, hrun, hfollows, hshows, hnodes, fun a ha => ?_, fun k => ?_⟩
  · exact (follows_inserted hfollows a ha).resolve_left List.not_mem_nil
  · have hcount : t.toList.countP (fun a => decide (a.key = k)) = entriesUnder k calls := follows_countP hfollows k
    refine ⟨hcount, ?_⟩
    calc search (2 * Nat.log2 (t.toList.length + 1) + 1) s k = some 0
        ↔ ∀ a ∈ t.toList, a.key ≠ k := hshows.lookup_eq_zero_iff k
      _ ↔ t.toList.countP (fun a => decide (a.key = k)) = 0 := by
        simp only [List.countP_eq_zero, decide_eq_true_eq, ne_eq]
      _ ↔ entriesUnder k calls = 0 := by rw [hcount]

/-- A key inserted twice and removed, with the node of the removed entry used again. -/
theorem map_runs_five :
    let s₀ : State ℕ ℕ := ⟨fun _ => none, 0⟩
    let calls : List (MapCall ℕ ℕ) :=
      [.insert 7 2 10, .insert 9 2 30, .remove 2, .insert 7 1 20, .remove 5]
    ∃ s l, run (mapStep 6) s₀ calls = some s ∧ Follows Changes [] calls l ∧ Shows 6 s l ∧ Nodes s₀ s l ∧
      (∀ a ∈ l, .insert a.addr a.key a.value ∈ calls) ∧
      ∀ k, l.countP (fun a => decide (a.key = k)) = entriesUnder k calls ∧
        (search (2 * Nat.log2 (l.length + 1) + 1) s k = some 0 ↔ entriesUnder k calls = 0) := by
  exact map_runs 6 _ _ rfl (along_of_check (by decide)) (by decide)

end Calls

end Dogee.DMap
