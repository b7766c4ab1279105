import Dogee.DMapIteration
import Mathlib.Data.Set.Basic

/-!
# Destroying a shared map, and references to it

`destroy()` deletes the nodes of a map. A reference to a map holds a local `DMap`
object, so making one runs the constructor of `DMap`, which sets `mRoot` to null,
and dropping one runs its destructor, which calls `destroy()`. A deleted node is
no longer in the heap; following a link to it is `none`.
-/

namespace Dogee.DMap

open RedBlack
open StableSort
open Transition

variable {T TV : Type}

/-- `DelObj(tree)`: a node has no `Destroy()` of its own. -/
def delObj (s : State T TV) (tree : ObjectKey) : Option (State T TV) :=
  (s.heap tree).map fun _ => { s with heap := Function.update s.heap tree none }

/-- `destroy(tree)`, with the keys of the nodes it deletes. -/
def destroyFrom : Nat → State T TV → ObjectKey → Option (State T TV × List ObjectKey)
  | 0, _, _ => none
  | fuel + 1, s, tree =>
      if tree = 0 then some (s, [])
      else do
        if (← s.heap tree).left ≠ 0 then destroyFrom fuel s (← s.heap tree).left
        else if (← s.heap tree).right ≠ 0 then destroyFrom fuel s (← s.heap tree).right
        else (delObj s tree).map (·, [tree])

def destroy (fuel : Nat) (s : State T TV) : Option (State T TV × List ObjectKey) :=
  destroyFrom fuel s s.mRoot

/-- Each call passes the whole work on to one child, so that one leaf is deleted. -/
theorem destroyFrom_node {s : State T TV} {q : ObjectKey} {t : RedBlack.Tree (Label T TV)}
    {fuel : Nat} (ht : Rep s.heap q t) (hne : t ≠ .nil) (hfuel : t.toList.length ≤ fuel) :
    ∃ a ∈ t.toList, destroyFrom fuel s (rootAddr t) =
      some ({ s with heap := Function.update s.heap a.addr none }, [a.addr]) := by
  induction t generalizing q fuel with
  | nil => exact absurd rfl hne
  | node c l a r ihl ihr =>
      obtain ⟨ha0, hcell, hl, hr⟩ := ht
      rw [RedBlack.Tree.toList_node, List.length_append, List.length_cons] at hfuel
      obtain ⟨fuel, rfl⟩ := Nat.exists_eq_succ_of_ne_zero (by omega : fuel ≠ 0)
      cases l with
      | node c' l' b r' =>
          have hshort : (RedBlack.Tree.node c' l' b r').toList.length ≤ fuel := by omega
          obtain ⟨d, hd, hrun⟩ := ihl hl (by simp) hshort
          refine ⟨d, List.mem_append_left _ hd, ?_⟩
          rw [← hrun]
          simp [destroyFrom, ha0, hcell, Label.cell, hl.1]
      | nil =>
          cases r with
          | node c' l' b r' =>
              have hshort : (RedBlack.Tree.node c' l' b r').toList.length ≤ fuel := by omega
              obtain ⟨d, hd, hrun⟩ := ihr hr (by simp) hshort
              refine ⟨d, List.mem_append_right _ (List.mem_cons_of_mem _ hd), ?_⟩
              rw [← hrun]
              simp [destroyFrom, ha0, hcell, Label.cell, hr.1]
          | nil =>
              refine ⟨a, by simp, ?_⟩
              simp [destroyFrom, delObj, ha0, hcell, Label.cell]

theorem destroy_node {s : State T TV} {t : RedBlack.Tree (Label T TV)} {fuel : Nat}
    (hs : IsMap s t) (hne : t ≠ .nil) (hfuel : t.toList.length ≤ fuel) :
    ∃ a ∈ t.toList, destroy fuel s =
      some ({ s with heap := Function.update s.heap a.addr none }, [a.addr]) := by
  obtain ⟨a, ha, hrun⟩ := destroyFrom_node hs.rep hne hfuel
  refine ⟨a, ha, ?_⟩
  rw [← hrun, destroy, hs.root_eq]

theorem destroy_empty {s : State T TV} {fuel : Nat} (hroot : s.mRoot = 0) (hfuel : 0 < fuel) :
    destroy fuel s = some (s, []) := by
  obtain ⟨fuel, rfl⟩ := Nat.exists_eq_succ_of_ne_zero hfuel.ne'
  simp [destroy, destroyFrom, hroot]

theorem IsMap.mRoot_eq_zero_iff {s : State T TV} {t : RedBlack.Tree (Label T TV)} (hs : IsMap s t) :
    s.mRoot = 0 ↔ t = .nil := by
  rw [hs.root_eq]
  cases t with
  | nil => simp
  | node c l a r => simpa using hs.rep.1

theorem toList_eq_nil_iff {α : Type*} {t : RedBlack.Tree α} : t.toList = [] ↔ t = .nil := by
  cases t <;> simp

section Insertions

variable [LinearOrder T]

/-- After any insertions `destroy()` deletes every node once only if there is at
most one: it gives back one leaf and leaves the others in shared memory. -/
theorem destroy_deletes_all_iff (fuel : Nat) (s₀ : State T TV) (calls : List (Label T TV))
    (hroot : s₀.mRoot = 0) (hfresh : FreshKeys s₀ calls) (hfuel : calls.length < fuel) :
    ∃ s, run (insertLabel fuel) s₀ calls = some s ∧
      ((∃ s' deleted, destroy fuel s = some (s', deleted) ∧
          deleted.Perm (calls.map Label.addr)) ↔ calls.length ≤ 1) := by
  obtain ⟨s, t, hrun, hmap, hlist, -⟩ := run_insertLabel hroot hfresh hfuel.le
  have hperm : t.toList.Perm calls := by
    rw [hlist]
    exact stableSort_perm Label.key calls
  refine ⟨s, hrun, ?_⟩
  by_cases hnil : t = .nil
  · have hcalls : calls = [] := (hnil ▸ hperm).nil_eq.symm
    have hdel := destroy_empty (hmap.mRoot_eq_zero_iff.mpr hnil) (Nat.zero_lt_of_lt hfuel)
    refine iff_of_true ⟨s, [], hdel, ?_⟩ ?_
    · simp [hcalls]
    · simp [hcalls]
  · obtain ⟨a, ha, hdel⟩ := destroy_node hmap hnil (hperm.length_eq.trans_le hfuel.le)
    constructor
    · rintro ⟨s', deleted, hrun', hdeleted⟩
      rw [hdel] at hrun'
      obtain ⟨-, rfl⟩ := Prod.mk.inj (Option.some.inj hrun')
      simpa using hdeleted.length_eq.ge
    · intro hlen
      refine ⟨_, _, hdel, ?_⟩
      have hmem := hperm.mem_iff.mp ha
      match calls, hlen, hmem with
      | [b], _, hmem => simp [List.mem_singleton.mp hmem]

theorem destroy_deletes_all_one :
    ∃ s, run (@insertLabel ℕ ℕ _ 2) ⟨fun _ => none, 0⟩ [⟨7, 2, 10⟩] = some s ∧
      ((∃ s' deleted, destroy 2 s = some (s', deleted) ∧
          deleted.Perm ([(⟨7, 2, 10⟩ : Label ℕ ℕ)].map Label.addr)) ↔
        [(⟨7, 2, 10⟩ : Label ℕ ℕ)].length ≤ 1) := by
  apply destroy_deletes_all_iff
  · rfl
  · exact ⟨by decide, by simp⟩
  · decide

/-- With two entries the root stays: only its child is deleted. -/
theorem destroy_leaves_root :
    ∃ s s', run (@insertLabel ℕ ℕ _ 3) ⟨fun _ => none, 0⟩ [⟨7, 2, 10⟩, ⟨4, 1, 20⟩] = some s ∧
      destroy 3 s = some (s', [4]) ∧ (s'.heap 7).isSome ∧
      ¬[4].Perm ([(⟨7, 2, 10⟩ : Label ℕ ℕ), ⟨4, 1, 20⟩].map Label.addr) := by
  obtain ⟨s, hs, hdel⟩ := Option.map_eq_some_iff.mp
    (by decide +kernel : (run (@insertLabel ℕ ℕ _ 3) ⟨fun _ => none, 0⟩
      [⟨7, 2, 10⟩, ⟨4, 1, 20⟩]).map
        (fun s => (destroy 3 s).map fun r => (r.2, (r.1.heap 7).isSome)) = some (some ([4], true)))
  obtain ⟨⟨s', deleted⟩, hs', hpair⟩ := Option.map_eq_some_iff.mp hdel
  obtain ⟨rfl, hheap⟩ := Prod.mk.inj hpair
  exact ⟨s, s', hs, hs', hheap, by decide⟩

end Insertions

/-! ## What is found through the root -/

/-- The keys that the child links lead to from `mRoot`. -/
inductive Linked (s : State T TV) : ObjectKey → Prop
  | root : s.mRoot ≠ 0 → Linked s s.mRoot
  | left {q : ObjectKey} {n : RBTNode T TV} :
      Linked s q → s.heap q = some n → n.left ≠ 0 → Linked s n.left
  | right {q : ObjectKey} {n : RBTNode T TV} :
      Linked s q → s.heap q = some n → n.right ≠ 0 → Linked s n.right

/-- The entries found through `mRoot`. -/
def entriesFound (s : State T TV) : Set (Label T TV) :=
  {a | Linked s a.addr ∧ ∃ n, s.heap a.addr = some n ∧ n.key = a.key ∧ n.value = a.value}

/-- The child links of a node of a subtree stay in the subtree. -/
theorem Rep.links {h : ObjectKey → Option (RBTNode T TV)} {p q : ObjectKey}
    {t : RedBlack.Tree (Label T TV)} {n : RBTNode T TV} (ht : Rep h p t) (hq : q ∈ addrs t)
    (hn : h q = some n) :
    (n.left ≠ 0 → n.left ∈ addrs t) ∧ (n.right ≠ 0 → n.right ∈ addrs t) := by
  induction t generalizing p with
  | nil => simp at hq
  | node c l a r ihl ihr =>
      obtain ⟨-, hcell, hl, hr⟩ := ht
      rcases mem_addrs_node.mp hq with hq | rfl | hq
      · have hbelow := ihl hl hq
        exact ⟨fun h0 => by simp [hbelow.1 h0], fun h0 => by simp [hbelow.2 h0]⟩
      · obtain rfl := Option.some.inj (hcell.symm.trans hn)
        constructor
        · intro h0
          have hmem := (rootAddr_eq_zero_or_mem l).resolve_left h0
          simp [Label.cell, hmem]
        · intro h0
          have hmem := (rootAddr_eq_zero_or_mem r).resolve_left h0
          simp [Label.cell, hmem]
      · have hbelow := ihr hr hq
        exact ⟨fun h0 => by simp [hbelow.1 h0], fun h0 => by simp [hbelow.2 h0]⟩

/-- From the root of a subtree the links lead to every node of it. -/
theorem Linked.of_mem {s : State T TV} {p : ObjectKey} {t : RedBlack.Tree (Label T TV)}
    (ht : Rep s.heap p t) (hroot : rootAddr t ≠ 0 → Linked s (rootAddr t)) {a : Label T TV}
    (ha : a ∈ t.toList) : Linked s a.addr := by
  induction t generalizing p with
  | nil => cases ha
  | node c l b r ihl ihr =>
      obtain ⟨hb0, hcell, hl, hr⟩ := ht
      have hb := hroot hb0
      rw [RedBlack.Tree.toList_node, List.mem_append, List.mem_cons] at ha
      rcases ha with ha | rfl | ha
      · exact ihl hl (fun h0 => hb.left hcell h0) ha
      · exact hb
      · exact ihr hr (fun h0 => hb.right hcell h0) ha

theorem IsMap.linked_mem {s : State T TV} {t : RedBlack.Tree (Label T TV)} (hs : IsMap s t)
    {q : ObjectKey} (hq : Linked s q) : q ∈ addrs t := by
  induction hq with
  | root h0 =>
      rw [hs.root_eq] at h0 ⊢
      exact (rootAddr_eq_zero_or_mem t).resolve_left h0
  | left _ hn h0 ih => exact (hs.rep.links ih hn).1 h0
  | right _ hn h0 ih => exact (hs.rep.links ih hn).2 h0

/-- Through the root of a map exactly the labels of its tree are found. -/
theorem IsMap.entriesFound_eq {s : State T TV} {t : RedBlack.Tree (Label T TV)} (hs : IsMap s t) :
    entriesFound s = {a | a ∈ t.toList} := by
  ext a
  constructor
  · rintro ⟨hlinked, n, hn, hkey, hvalue⟩
    obtain ⟨b, hb, haddr⟩ := List.mem_map.mp (hs.linked_mem hlinked)
    obtain ⟨-, m, hm, hkey', hvalue'⟩ := hs.rep.cell_of_mem hb
    rw [haddr, hn] at hm
    obtain rfl := Option.some.inj hm
    have hab : a = b := by
      cases a
      cases b
      simp_all
    exact hab ▸ hb
  · intro ha
    have hlinked : Linked s a.addr := by
      refine Linked.of_mem hs.rep (fun h0 => ?_) ha
      rw [← hs.root_eq] at h0 ⊢
      exact .root h0
    exact ⟨hlinked, (hs.rep.cell_of_mem ha).2⟩

/-! ## References -/

/-- What happens to the references to a map. A copy of a variable that is not
constant takes the template constructor of `Ref`, which builds its `DMap` from the
object id again; a copy of a constant or of a temporary takes the implicit copy
constructor, which copies the id. The local variable of `get_value` is copied
out and dropped unless the compiler elides that copy. -/
inductive HandleEvent (T TV : Type)
  | create
  | copy
  | copyConst
  | getValue (elided : Bool)
  | release
  | insert (a : Label T TV)

/-- The constructor `DMap(ObjectKey)`. -/
def construct (s : State T TV) : State T TV := { s with mRoot := 0 }

/-- The events that run the constructor or the destructor of `DMap`. -/
def HandleEvent.runsDMap : HandleEvent T TV → Bool
  | .create | .copy | .getValue _ | .release => true
  | .copyConst | .insert _ => false

/-- The entries that a sequence of events inserts. -/
def inserted : List (HandleEvent T TV) → List (Label T TV)
  | [] => []
  | .insert a :: events => a :: inserted events
  | _ :: events => inserted events

theorem inserted_append (xs ys : List (HandleEvent T TV)) :
    inserted (xs ++ ys) = inserted xs ++ inserted ys := by
  induction xs with
  | nil => rfl
  | cons e xs ih => cases e <;> simp [inserted, ih]

theorem FreshKeys.of_initial {s₀ : State T TV} {done events : List (HandleEvent T TV)}
    (hpre : done <+: events) (hfresh : FreshKeys s₀ (inserted events)) : FreshKeys s₀ (inserted done) := by
  obtain ⟨rest, rfl⟩ := hpre
  rw [inserted_append] at hfresh
  obtain ⟨hnd, hkeys⟩ := hfresh
  rw [List.map_append] at hnd
  exact ⟨(List.nodup_append'.mp hnd).1, fun a ha => hkeys a (List.mem_append_left _ ha)⟩

theorem length_inserted_le {done events : List (HandleEvent T TV)} (hpre : done <+: events) :
    (inserted done).length ≤ (inserted events).length := by
  obtain ⟨rest, rfl⟩ := hpre
  rw [inserted_append, List.length_append]
  exact Nat.le_add_right _ _

theorem entriesFound_construct (s : State T TV) : entriesFound (construct s) = ∅ := by
  have hnone : ∀ q, ¬Linked (construct s) q := by
    intro q hq
    induction hq with
    | root h0 => exact h0 rfl
    | left _ _ _ ih => exact ih
    | right _ _ _ ih => exact ih
  ext a
  exact iff_of_false (fun ha => hnone a.addr ha.1) (fun ha => ha)

section Handles

variable [LinearOrder T]

def handleStep (fuel : Nat) (s : State T TV) : HandleEvent T TV → Option (State T TV)
  | .create => some (construct s)
  | .copy => some (construct s)
  | .copyConst => some s
  | .getValue elided =>
      if elided then some (construct s) else (destroy fuel (construct s)).map Prod.fst
  | .release => (destroy fuel s).map Prod.fst
  | .insert a => insertLabel fuel s a

/-- On an empty map the constructor and the destructor do nothing. -/
theorem handleStep_empty {fuel : Nat} {s : State T TV} {e : HandleEvent T TV} (hroot : s.mRoot = 0)
    (hfuel : 0 < fuel) (he : e.runsDMap = true) : handleStep fuel s e = some s := by
  have hconstruct : construct s = s := by
    cases s
    simp_all [construct]
  cases e with
  | create => simp [handleStep, hconstruct]
  | copy => simp [handleStep, hconstruct]
  | copyConst => cases he
  | getValue elided =>
      cases elided <;> simp [handleStep, hconstruct, destroy_empty hroot hfuel]
  | release => simp [handleStep, destroy_empty hroot hfuel]
  | insert a => cases he

/-- On a map with entries either of them loses an entry. -/
theorem handleStep_loses {fuel : Nat} {s s' : State T TV} {t : RedBlack.Tree (Label T TV)}
    {e : HandleEvent T TV} (hs : IsMap s t) (hne : t ≠ .nil) (hfuel : t.toList.length ≤ fuel)
    (he : e.runsDMap = true) (hstep : handleStep fuel s e = some s') :
    entriesFound s' ≠ {a | a ∈ t.toList} := by
  have hpos : 0 < t.toList.length := List.length_pos_iff.mpr (toList_eq_nil_iff.not.mpr hne)
  have hempty : entriesFound (construct s) ≠ {a | a ∈ t.toList} := by
    obtain ⟨a, ha⟩ := List.exists_mem_of_length_pos hpos
    rw [entriesFound_construct]
    exact (Set.nonempty_of_mem (s := {a | a ∈ t.toList}) ha).ne_empty.symm
  cases e with
  | create => exact Option.some.inj hstep ▸ hempty
  | copy => exact Option.some.inj hstep ▸ hempty
  | copyConst => cases he
  | getValue elided =>
      have hstep' : some (construct s) = some s' := by
        rw [← hstep]
        cases elided <;> simp [handleStep, destroy_empty (s := construct s) rfl (hpos.trans_le hfuel)]
      exact Option.some.inj hstep' ▸ hempty
  | release =>
      obtain ⟨a, ha, hdel⟩ := destroy_node hs hne hfuel
      rw [handleStep, hdel] at hstep
      obtain rfl := Option.some.inj hstep
      intro heq
      have hfound : a ∈ {a | a ∈ t.toList} := ha
      rw [← heq] at hfound
      obtain ⟨-, n, hn, -⟩ := hfound
      simp at hn
  | insert a => cases he

/-- References leave the map alone along a sequence of events: after each of its
initial parts exactly the entries inserted so far are found. -/
def KeepsEntries (fuel : Nat) (s₀ : State T TV) (events : List (HandleEvent T TV)) : Prop :=
  ∀ done, done <+: events →
    ∃ s, run (handleStep fuel) s₀ done = some s ∧ entriesFound s = {a | a ∈ inserted done}

/-- The constructor and the destructor run only before the first insertion. -/
def QuietOnceFilled (events : List (HandleEvent T TV)) : Prop :=
  ∀ done e, done ++ [e] <+: events → e.runsDMap = true → inserted done = []

variable {fuel : Nat} {s₀ : State T TV} {events : List (HandleEvent T TV)}

/-- One more event that does not hurt: the state is the one that the insertions alone lead to. -/
theorem run_handleStep_concat {done : List (HandleEvent T TV)} {e : HandleEvent T TV}
    (hroot : s₀.mRoot = 0) (hfuel : 0 < fuel)
    (hdone : run (handleStep fuel) s₀ done = run (insertLabel fuel) s₀ (inserted done))
    (he : e.runsDMap = true → inserted done = []) :
    run (handleStep fuel) s₀ (done ++ [e]) =
      run (insertLabel fuel) s₀ (inserted (done ++ [e])) := by
  rw [run_concat, hdone, inserted_append]
  cases hruns : e.runsDMap with
  | true =>
      have hnone : inserted [e] = [] := by
        cases e <;> first | rfl | cases hruns
      rw [he hruns, hnone, run_nil, List.append_nil, run_nil]
      exact handleStep_empty hroot hfuel hruns
  | false =>
      cases e with
      | copyConst =>
          have hnone : inserted [(.copyConst : HandleEvent T TV)] = [] := rfl
          rw [hnone, List.append_nil]
          exact Option.bind_fun_some _
      | insert a =>
          rw [inserted, inserted, run_concat]
          rfl
      | create | copy | getValue | release => cases hruns

/-- The map that the insertions of an initial part lead to. -/
theorem exists_map {done : List (HandleEvent T TV)} (hroot : s₀.mRoot = 0)
    (hfresh : FreshKeys s₀ (inserted events)) (hfuel : (inserted events).length < fuel)
    (hpre : done <+: events) :
    ∃ s t, run (insertLabel fuel) s₀ (inserted done) = some s ∧ IsMap s t ∧
      t.toList.Perm (inserted done) := by
  have hlen := (length_inserted_le hpre).trans hfuel.le
  obtain ⟨s, t, hrun, hmap, hlist, -⟩ := run_insertLabel hroot (hfresh.of_initial hpre) hlen
  refine ⟨s, t, hrun, hmap, ?_⟩
  rw [hlist]
  exact stableSort_perm Label.key _

/-- While every initial part keeps the entries, no event has hurt the map yet. -/
theorem KeepsEntries.quiet {done : List (HandleEvent T TV)} (hroot : s₀.mRoot = 0)
    (hfresh : FreshKeys s₀ (inserted events)) (hfuel : (inserted events).length < fuel)
    (hkeeps : KeepsEntries fuel s₀ events) (hpre : done <+: events) :
    run (handleStep fuel) s₀ done = run (insertLabel fuel) s₀ (inserted done) ∧
      QuietOnceFilled done := by
  induction done using List.reverseRecOn with
  | nil =>
      refine ⟨rfl, fun done e hdone => ?_⟩
      simp at hdone
  | append_singleton done e ih =>
      have hpre' : done <+: events := (List.prefix_append done [e]).trans hpre
      obtain ⟨hrun, hquiet⟩ := ih hpre'
      obtain ⟨s, t, hs, hmap, hperm⟩ := exists_map hroot hfresh hfuel hpre'
      have he : e.runsDMap = true → inserted done = [] := by
        intro hruns
        by_contra hsome
        -- the next state finds what was there before, but the event lost an entry
        have hne : t ≠ .nil := by
          rintro rfl
          exact hsome hperm.nil_eq.symm
        have hshort : t.toList.length ≤ fuel :=
          hperm.length_eq.trans_le ((length_inserted_le hpre').trans hfuel.le)
        obtain ⟨s', hs', hfound⟩ := hkeeps _ hpre
        rw [run_concat, hrun, hs] at hs'
        have hnone : inserted [e] = [] := by
          cases e <;> first | rfl | cases hruns
        refine handleStep_loses hmap hne hshort hruns hs' ?_
        rw [hfound, inserted_append, hnone, List.append_nil]
        ext a
        exact hperm.mem_iff.symm
      refine ⟨run_handleStep_concat hroot (Nat.zero_lt_of_lt hfuel) hrun he, fun done' e' hdone => ?_⟩
      rcases List.prefix_concat_iff.mp hdone with heq | hbefore
      · obtain ⟨rfl, rfl⟩ := List.append_singleton_inj.mp heq
        exact he
      · exact hquiet done' e' hbefore

theorem QuietOnceFilled.run_eq (hroot : s₀.mRoot = 0) (hfuel : 0 < fuel)
    (hquiet : QuietOnceFilled events) {done : List (HandleEvent T TV)} (hpre : done <+: events) :
    run (handleStep fuel) s₀ done = run (insertLabel fuel) s₀ (inserted done) := by
  induction done using List.reverseRecOn with
  | nil => rfl
  | append_singleton done e ih =>
      exact run_handleStep_concat hroot hfuel (ih ((List.prefix_append done [e]).trans hpre))
        (hquiet done e hpre)

/-- References leave a map alone exactly when its constructor and its destructor
run only while it is empty. -/
theorem references_keep_entries_iff (fuel : Nat) (s₀ : State T TV)
    (events : List (HandleEvent T TV)) (hroot : s₀.mRoot = 0)
    (hfresh : FreshKeys s₀ (inserted events)) (hfuel : (inserted events).length < fuel) :
    KeepsEntries fuel s₀ events ↔ QuietOnceFilled events := by
  constructor
  · intro hkeeps
    exact (hkeeps.quiet hroot hfresh hfuel (List.prefix_refl events)).2
  · intro hquiet done hpre
    obtain ⟨s, t, hs, hmap, hperm⟩ := exists_map hroot hfresh hfuel hpre
    refine ⟨s, ?_, ?_⟩
    · rw [hquiet.run_eq hroot (Nat.zero_lt_of_lt hfuel) hpre, hs]
    · rw [hmap.entriesFound_eq]
      ext a
      exact hperm.mem_iff

end Handles

/-- A reference is made, copied and dropped before the first insertion. -/
theorem references_before_insertions :
    FreshKeys (⟨fun _ => none, 0⟩ : State ℕ ℕ) (inserted [.create, .copy, .release, .insert ⟨7, 2, 10⟩]) ∧
      (KeepsEntries 2 (⟨fun _ => none, 0⟩ : State ℕ ℕ) [.create, .copy, .release, .insert ⟨7, 2, 10⟩] ↔
        QuietOnceFilled [.create, .copy, .release, .insert (⟨7, 2, 10⟩ : Label ℕ ℕ)]) := by
  have hfresh : FreshKeys (⟨fun _ => none, 0⟩ : State ℕ ℕ)
      (inserted [.create, .copy, .release, .insert ⟨7, 2, 10⟩]) :=
    ⟨by decide, by simp [inserted]⟩
  exact ⟨hfresh, references_keep_entries_iff _ _ _ rfl hfresh (by decide)⟩

/-- Copying a reference to a map with one entry empties the map. -/
theorem copied_reference_loses_entry :
    ∃ s, run (handleStep 2) (⟨fun _ => none, 0⟩ : State ℕ ℕ)
        [.create, .insert ⟨7, 2, 10⟩, .copy] = some s ∧
      entriesFound s ≠ {a | a ∈ inserted [.create, .insert (⟨7, 2, 10⟩ : Label ℕ ℕ), .copy]} := by
  obtain ⟨s, hs, -⟩ := Option.map_eq_some_iff.mp
    (by decide +kernel : (run (handleStep 2) (⟨fun _ => none, 0⟩ : State ℕ ℕ)
      [.create, .insert ⟨7, 2, 10⟩]).map (fun s => s.mRoot) = some 7)
  refine ⟨construct s, ?_, ?_⟩
  · have happend : ([.create, .insert ⟨7, 2, 10⟩, .copy] : List (HandleEvent ℕ ℕ)) =
        [.create, .insert ⟨7, 2, 10⟩] ++ [.copy] := rfl
    rw [happend, run_concat, hs]
    rfl
  · rw [entriesFound_construct]
    refine (Set.nonempty_of_mem (x := ⟨7, 2, 10⟩) ?_).ne_empty.symm
    simp [inserted]

end Dogee.DMap
