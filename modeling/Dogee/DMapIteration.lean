import Dogee.DMapInsert

/-!
# Iterating over a shared map

`lowerBound` and `upperBound` find the first node whose key is large enough,
and `successor` goes on from a node: down to the left in its right subtree, or
up the parent links to the first node that it comes to from the left.
`predecessor` and `maximum` are the same with left and right exchanged. The
null reference is the key `0`, and the loops take a fuel argument.
-/

namespace Dogee.DMap

open RedBlack
open StableSort
open Transition

variable {T TV : Type}

/-- `while (tree->left != nullptr) tree = tree->left` -/
def leftmost (s : State T TV) : Nat → ObjectKey → Option ObjectKey
  | 0, _ => none
  | fuel + 1, tree => do
      if (← s.heap tree).left ≠ 0 then leftmost s fuel (← s.heap tree).left else some tree

/-- `while (tree->right != nullptr) tree = tree->right` -/
def rightmost (s : State T TV) : Nat → ObjectKey → Option ObjectKey
  | 0, _ => none
  | fuel + 1, tree => do
      if (← s.heap tree).right ≠ 0 then rightmost s fuel (← s.heap tree).right else some tree

/-- `minimum(tree)` -/
def minimumOf (fuel : Nat) (s : State T TV) (tree : ObjectKey) : Option ObjectKey :=
  if tree = 0 then some 0 else leftmost s fuel tree

def minimum (fuel : Nat) (s : State T TV) : Option ObjectKey := minimumOf fuel s s.mRoot

/-- `maximum(tree)` -/
def maximumOf (fuel : Nat) (s : State T TV) (tree : ObjectKey) : Option ObjectKey :=
  if tree = 0 then some 0 else rightmost s fuel tree

def maximum (fuel : Nat) (s : State T TV) : Option ObjectKey := maximumOf fuel s s.mRoot

/-- `while ((y != nullptr) && (x == y->right)) { x = y; y = y->parent; }` -/
def climbRight (s : State T TV) : Nat → ObjectKey → ObjectKey → Option ObjectKey
  | 0, _, _ => none
  | fuel + 1, x, y =>
      if y = 0 then some 0
      else do
        if x = (← s.heap y).right then climbRight s fuel y (← s.heap y).parent else some y

/-- `while ((y != nullptr) && (x == y->left)) { x = y; y = y->parent; }` -/
def climbLeft (s : State T TV) : Nat → ObjectKey → ObjectKey → Option ObjectKey
  | 0, _, _ => none
  | fuel + 1, x, y =>
      if y = 0 then some 0
      else do
        if x = (← s.heap y).left then climbLeft s fuel y (← s.heap y).parent else some y

def successor (fuel : Nat) (s : State T TV) (x : ObjectKey) : Option ObjectKey := do
  if (← s.heap x).right ≠ 0 then minimumOf fuel s (← s.heap x).right
  else climbRight s fuel x (← s.heap x).parent

def predecessor (fuel : Nat) (s : State T TV) (x : ObjectKey) : Option ObjectKey := do
  if (← s.heap x).left ≠ 0 then maximumOf fuel s (← s.heap x).left
  else climbLeft s fuel x (← s.heap x).parent

/-- The search for the first node whose key is `past` the given one; `found` is the last such node that
was passed. -/
def boundFrom (s : State T TV) (past : T → Bool) : Nat → ObjectKey → ObjectKey → Option ObjectKey
  | 0, _, _ => none
  | fuel + 1, root, found =>
      if root = 0 then some found
      else do
        if past (← s.heap root).key then boundFrom s past fuel (← s.heap root).left root
        else boundFrom s past fuel (← s.heap root).right found

/-- `for (itr = x; itr != nullptr; itr = successor(itr))`, with the node, the key and the value that each
round sees. -/
def walk (fuel : Nat) (s : State T TV) : Nat → ObjectKey → Option (List (Label T TV))
  | 0, _ => none
  | rounds + 1, itr =>
      if itr = 0 then some []
      else do
        let n ← s.heap itr
        let rest ← walk fuel s rounds (← successor fuel s itr)
        return ⟨itr, n.key, n.value⟩ :: rest

section Bounds

variable [LinearOrder T]

def upperBound (fuel : Nat) (s : State T TV) (key : T) : Option ObjectKey :=
  boundFrom s (fun k => decide (k > key)) fuel s.mRoot 0

def lowerBound (fuel : Nat) (s : State T TV) (key : T) : Option ObjectKey :=
  boundFrom s (fun k => decide (k ≥ key)) fuel s.mRoot 0

end Bounds

/-- The node that a list of labels starts with, null if there is none. -/
def headAddr : List (Label T TV) → ObjectKey
  | [] => 0
  | a :: _ => a.addr

theorem headAddr_append {xs : List (Label T TV)} (hne : xs ≠ []) (ys : List (Label T TV)) :
    headAddr (xs ++ ys) = headAddr xs := by
  cases xs with
  | nil => exact absurd rfl hne
  | cons a xs => rfl

section Walk

variable {s : State T TV} {root q : ObjectKey} {t : RedBlack.Tree (Label T TV)}
  {p : List (Frame (Label T TV))} {a : Label T TV}

/-- Going down to the left comes to the first node of the subtree. -/
theorem leftmost_eq {fuel : Nat} (ht : Rep s.heap q t) (hne : t ≠ .nil) (hfuel : t.toList.length ≤ fuel) :
    leftmost s fuel (rootAddr t) = some (headAddr t.toList) := by
  induction t generalizing q fuel with
  | nil => exact absurd rfl hne
  | node c l a r ihl ihr =>
      obtain ⟨-, hcell, hl, -⟩ := ht
      rw [Tree.toList_node, List.length_append, List.length_cons] at hfuel
      obtain ⟨fuel, rfl⟩ := Nat.exists_eq_succ_of_ne_zero (by omega : fuel ≠ 0)
      cases l with
      | nil => simp [leftmost, hcell, Label.cell, headAddr]
      | node c' l' b r' =>
          have hlist : (RedBlack.Tree.node c' l' b r').toList ≠ [] := by simp
          have hshort : (RedBlack.Tree.node c' l' b r').toList.length ≤ fuel := by omega
          have hbelow := ihl hl (by simp) hshort
          rw [Tree.toList_node, headAddr_append hlist, ← hbelow]
          simp [leftmost, hcell, Label.cell, hl.1]

theorem minimumOf_eq {fuel : Nat} (ht : Rep s.heap q t) (hfuel : t.toList.length ≤ fuel) :
    minimumOf fuel s (rootAddr t) = some (headAddr t.toList) := by
  cases t with
  | nil => rfl
  | node c l a r =>
      have hne : rootAddr (.node c l a r) ≠ 0 := ht.1
      rw [minimumOf, if_neg hne]
      exact leftmost_eq ht (by simp) hfuel

/-- Going up comes to the first node after the hole. -/
theorem climbRight_eq {fuel : Nat} (hq : q ≠ 0) (hp : PathRep s.heap q p) (hnd : (q :: pathAddrs p).Nodup)
    (hfuel : p.length < fuel) : climbRight s fuel q (topAddr p) = some (headAddr (after p)) := by
  induction p generalizing q fuel with
  | nil =>
      obtain ⟨fuel, rfl⟩ := Nat.exists_eq_succ_of_ne_zero (Nat.ne_of_gt hfuel)
      rfl
  | cons f p ih =>
      obtain ⟨fuel, rfl⟩ := Nat.exists_eq_succ_of_ne_zero (Nat.ne_of_gt (Nat.zero_lt_of_lt hfuel))
      cases f with
      | left c a r =>
          obtain ⟨hne, hcell, -, -⟩ := hp
          have hright : q ≠ rootAddr r := by
            rcases rootAddr_eq_zero_or_mem r with hzero | hmem
            · rwa [hzero]
            · rintro rfl
              simp [pathAddrs, hmem] at hnd
          simp [climbRight, hne, hcell, Label.cell, hright, headAddr, after]
      | right c l a =>
          obtain ⟨hne, hcell, -, hp⟩ := hp
          have hnd' : (a.addr :: pathAddrs p).Nodup := by
            refine hnd.sublist (List.Sublist.cons _ ?_)
            exact (List.sublist_append_right (addrs l) (pathAddrs p)).cons_cons a.addr
          have hshort : p.length < fuel := Nat.lt_of_succ_lt_succ hfuel
          have habove := ih hne hp hnd' hshort
          rw [after, ← habove]
          simp [climbRight, hne, hcell, Label.cell]

/-- The successor of the root of a focus is the first node after it. -/
theorem successor_focus {fuel : Nat} {c : Color} {l r : RedBlack.Tree (Label T TV)}
    (hf : Focus s.heap root (.node c l a r) p) (hr : r.toList.length ≤ fuel) (hp : p.length < fuel) :
    successor fuel s a.addr = some (headAddr (r.toList ++ after p)) := by
  obtain ⟨⟨hne, hcell, -, hrep⟩, hpath, hnd, -⟩ := hf
  cases r with
  | nil =>
      have hnd' : (a.addr :: pathAddrs p).Nodup := by
        refine hnd.sublist (List.Sublist.append_right (show [a.addr].Sublist _ from ?_) _)
        simp [addrs]
      rw [Tree.toList_nil, List.nil_append, ← climbRight_eq hne hpath hnd' hp]
      simp [successor, hcell, Label.cell]
  | node c' l' b r' =>
      rw [headAddr_append (by simp), ← minimumOf_eq hrep hr]
      simp [successor, hcell, Label.cell, hrep.1]

/-- A focus may be anywhere in the tree. -/
theorem Focus.ofRoot (hf : Focus s.heap root (plug t p) []) : Focus s.heap root t p := by
  induction p generalizing t with
  | nil => exact hf
  | cons f p ih =>
      cases f with
      | left c a r => exact focus_left_iff.mpr (ih hf)
      | right c l a => exact focus_right_iff.mpr (ih hf)

/-- A node of the tree as a focus: the nodes before it and those after it. -/
theorem Focus.at_node {xs ys : List (Label T TV)} (hf : Focus s.heap root t [])
    (hlist : t.toList = xs ++ a :: ys) :
    ∃ c l r p, Focus s.heap root (.node c l a r) p ∧ before p ++ l.toList = xs ∧
      r.toList ++ after p = ys := by
  have ha : a ∈ t.toList := by
    rw [hlist]
    exact List.mem_append_right xs List.mem_cons_self
  have hnd : t.toList.Nodup := (List.nodup_append.mp hf.nodup).1.of_map Label.addr
  obtain ⟨c, l, r, p, hplug⟩ := exists_focus ha []
  change plug (.node c l a r) p = t at hplug
  have hsame : (before p ++ l.toList) ++ a :: (r.toList ++ after p) = xs ++ a :: ys := by
    rw [← hlist, ← hplug, toList_plug]
    simp
  rw [hlist, List.nodup_append] at hnd
  obtain ⟨-, hys, hdis⟩ := hnd
  have hx : a ∉ xs := fun hmem => hdis a hmem a List.mem_cons_self rfl
  obtain ⟨hbefore, -, hafter⟩ :=
    (List.append_cons_inj_of_notMem hx (List.nodup_cons.mp hys).1).mp hsame.symm
  refine ⟨c, l, r, p, ?_, hbefore.symm, hafter.symm⟩
  apply Focus.ofRoot
  rw [hplug]
  exact hf

/-- The successor of a node is the next node in symmetric order, null after the last. -/
theorem successor_eq {fuel : Nat} {xs ys : List (Label T TV)} (hf : Focus s.heap root t [])
    (hlist : t.toList = xs ++ a :: ys) (hfuel : t.toList.length ≤ fuel) :
    successor fuel s a.addr = some (headAddr ys) := by
  obtain ⟨c, l, r, p, hnode, rfl, rfl⟩ := hf.at_node hlist
  have hpath := length_path_le p
  simp only [hlist, List.length_append, List.length_cons] at hfuel
  apply successor_focus hnode
  · omega
  · omega

/-! ## Left and right exchanged -/

theorem rightmost_eq_mirror (fuel : Nat) (tree : ObjectKey) :
    rightmost s fuel tree = leftmost s.mirror fuel tree := by
  induction fuel generalizing tree with
  | zero => rfl
  | succ fuel ih =>
      simp only [rightmost, leftmost, State.mirror_heap, Option.bind_eq_bind, Option.bind_map, ih]
      rfl

theorem maximumOf_eq_mirror (fuel : Nat) (tree : ObjectKey) :
    maximumOf fuel s tree = minimumOf fuel s.mirror tree := by
  rw [maximumOf, minimumOf, rightmost_eq_mirror]

theorem climbLeft_eq_mirror (fuel : Nat) (x y : ObjectKey) :
    climbLeft s fuel x y = climbRight s.mirror fuel x y := by
  induction fuel generalizing x y with
  | zero => rfl
  | succ fuel ih =>
      simp only [climbLeft, climbRight, State.mirror_heap, Option.bind_eq_bind, Option.bind_map, ih]
      rfl

theorem predecessor_eq_mirror (fuel : Nat) (x : ObjectKey) :
    predecessor fuel s x = successor fuel s.mirror x := by
  simp only [predecessor, successor, State.mirror_heap, maximumOf_eq_mirror, climbLeft_eq_mirror,
    Option.bind_eq_bind, Option.bind_map]
  rfl

/-- The predecessor of a node is the node before it in symmetric order, null before the first. -/
theorem predecessor_eq {fuel : Nat} {xs ys : List (Label T TV)} (hf : Focus s.heap root t [])
    (hlist : t.toList = xs ++ a :: ys) (hfuel : t.toList.length ≤ fuel) :
    predecessor fuel s a.addr = some (headAddr xs.reverse) := by
  rw [predecessor_eq_mirror]
  have hmirror : t.mirror.toList = ys.reverse ++ a :: xs.reverse := by
    rw [Tree.toList_mirror, hlist]
    simp
  apply successor_eq hf.mirror hmirror
  rw [Tree.toList_mirror, List.length_reverse]
  exact hfuel

theorem minimum_eq {fuel : Nat} (hf : Focus s.heap s.mRoot t []) (hfuel : t.toList.length ≤ fuel) :
    minimum fuel s = some (headAddr t.toList) := by
  rw [minimum, hf.root_eq]
  exact minimumOf_eq hf.tree hfuel

theorem maximum_eq {fuel : Nat} (hf : Focus s.heap s.mRoot t []) (hfuel : t.toList.length ≤ fuel) :
    maximum fuel s = some (headAddr t.toList.reverse) := by
  have hroot : s.mRoot = rootAddr t.mirror := by
    rw [rootAddr_mirror]
    exact hf.root_eq
  rw [maximum, maximumOf_eq_mirror, hroot, ← Tree.toList_mirror]
  apply minimumOf_eq hf.mirror.tree
  rw [Tree.toList_mirror, List.length_reverse]
  exact hfuel

/-! ## Bounds and walks -/

/-- The node of a label holds its key and its value. -/
theorem Rep.cell_of_mem (ht : Rep s.heap q t) (ha : a ∈ t.toList) :
    a.addr ≠ 0 ∧ ∃ n, s.heap a.addr = some n ∧ n.key = a.key ∧ n.value = a.value := by
  induction t generalizing q with
  | nil => cases ha
  | node c l b r ihl ihr =>
      obtain ⟨hne, hcell, hl, hr⟩ := ht
      rw [Tree.toList_node, List.mem_append, List.mem_cons] at ha
      rcases ha with ha | rfl | ha
      · exact ihl hl ha
      · exact ⟨hne, _, hcell, rfl, rfl⟩
      · exact ihr hr ha

/-- A walk from a node sees that node and all that come after it, in symmetric order. -/
theorem walk_eq {fuel rounds : Nat} {xs ys : List (Label T TV)} (hf : Focus s.heap root t [])
    (hlist : t.toList = xs ++ ys) (hfuel : t.toList.length ≤ fuel) (hrounds : ys.length < rounds) :
    walk fuel s rounds (headAddr ys) = some ys := by
  induction ys generalizing xs rounds with
  | nil =>
      obtain ⟨rounds, rfl⟩ := Nat.exists_eq_succ_of_ne_zero (Nat.ne_of_gt hrounds)
      rfl
  | cons a ys ih =>
      obtain ⟨rounds, rfl⟩ := Nat.exists_eq_succ_of_ne_zero (Nat.ne_of_gt (Nat.zero_lt_of_lt hrounds))
      have ha : a ∈ t.toList := by
        rw [hlist]
        exact List.mem_append_right xs List.mem_cons_self
      obtain ⟨hne, n, hcell, hkey, hvalue⟩ := hf.tree.cell_of_mem ha
      have hnext := successor_eq hf hlist hfuel
      have hlist' : t.toList = (xs ++ [a]) ++ ys := by
        rw [hlist]
        simp
      have hrest := ih hlist' (Nat.lt_of_succ_lt_succ hrounds)
      rw [walk, headAddr, if_neg hne, hcell, hnext]
      simp [hrest, hkey, hvalue]

/-- The search comes to the first node whose key is past the given one. -/
theorem boundFrom_eq [LinearOrder T] {past : T → Bool} {fuel : Nat} (found : ObjectKey)
    (hpast : ∀ k k', k ≤ k' → past k = true → past k' = true) (ht : Rep s.heap q t)
    (hsort : t.toList.Pairwise fun a b => a.key ≤ b.key) (hfuel : t.toList.length < fuel) :
    boundFrom s past fuel (rootAddr t) found =
      some (((t.toList.filter fun a => past a.key).head?.map Label.addr).getD found) := by
  induction t generalizing q fuel found with
  | nil =>
      obtain ⟨fuel, rfl⟩ := Nat.exists_eq_succ_of_ne_zero (Nat.ne_of_gt hfuel)
      rfl
  | node c l a r ihl ihr =>
      obtain ⟨fuel, rfl⟩ := Nat.exists_eq_succ_of_ne_zero (Nat.ne_of_gt (Nat.zero_lt_of_lt hfuel))
      obtain ⟨hne, hcell, hl, hr⟩ := ht
      rw [Tree.toList_node] at hsort hfuel ⊢
      rw [List.length_append, List.length_cons] at hfuel
      obtain ⟨hsl, hsr, hless⟩ := List.pairwise_append.mp hsort
      by_cases hkey : past a.key = true
      · have hleft := ihl a.addr hl hsl (by omega : l.toList.length < fuel)
        simp [boundFrom, hne, hcell, Label.cell, hkey, hleft]
      · have hnone : l.toList.filter (fun b => past b.key) = [] := by
          rw [List.filter_eq_nil_iff]
          intro b hb hpastb
          exact hkey (hpast b.key a.key (hless b hb a List.mem_cons_self) hpastb)
        have hright := ihr found hr (List.pairwise_cons.mp hsr).2 (by omega : r.toList.length < fuel)
        simp [boundFrom, hne, hcell, Label.cell, hkey, hright, hnone]

/-- The labels of a tree are told apart by their nodes. -/
theorem Focus.eq_of_addr {b : Label T TV} (hf : Focus s.heap root t []) (ha : a ∈ t.toList)
    (hb : b ∈ t.toList) (haddr : a.addr = b.addr) : a = b :=
  List.inj_on_of_nodup_map (List.nodup_append.mp hf.nodup).1 ha hb haddr

/-- Going back from the next node comes to the node itself. -/
theorem predecessor_of_successor {fuel : Nat} {b : Label T TV} (hf : Focus s.heap root t [])
    (hfuel : t.toList.length ≤ fuel) (ha : a ∈ t.toList) (hb : b ∈ t.toList)
    (hnext : successor fuel s a.addr = some b.addr) : predecessor fuel s b.addr = some a.addr := by
  obtain ⟨xs, ys, hlist⟩ := List.append_of_mem ha
  rw [successor_eq hf hlist hfuel] at hnext
  have haddr := Option.some.inj hnext
  cases ys with
  | nil => exact absurd haddr.symm (hf.tree.cell_of_mem hb).1
  | cons b' ys =>
      have hb' : b' ∈ t.toList := by
        rw [hlist]
        simp
      obtain rfl := hf.eq_of_addr hb' hb haddr
      have hlist' : t.toList = (xs ++ [a]) ++ b' :: ys := by
        rw [hlist]
        simp
      rw [predecessor_eq hf hlist' hfuel]
      simp [headAddr]

theorem successor_eq_mirror (fuel : Nat) (x : ObjectKey) :
    successor fuel s x = predecessor fuel s.mirror x := by
  rw [predecessor_eq_mirror, State.mirror_mirror]

theorem mem_mirror (t : RedBlack.Tree (Label T TV)) : a ∈ t.mirror.toList ↔ a ∈ t.toList :=
  t.toList_mirror_perm.mem_iff

theorem successor_iff_predecessor {fuel : Nat} {b : Label T TV} (hf : Focus s.heap root t [])
    (hfuel : t.toList.length ≤ fuel) (ha : a ∈ t.toList) (hb : b ∈ t.toList) :
    successor fuel s a.addr = some b.addr ↔ predecessor fuel s b.addr = some a.addr := by
  constructor
  · exact predecessor_of_successor hf hfuel ha hb
  · intro hprev
    have hlength : t.mirror.toList.length ≤ fuel := by
      rwa [Tree.toList_mirror, List.length_reverse]
    rw [predecessor_eq_mirror] at hprev
    rw [successor_eq_mirror]
    exact predecessor_of_successor hf.mirror hlength ((mem_mirror t).mpr hb) ((mem_mirror t).mpr ha) hprev

/-- The minimum, and no other node, has no predecessor. -/
theorem predecessor_none_iff {fuel : Nat} (hf : Focus s.heap s.mRoot t []) (hfuel : t.toList.length ≤ fuel)
    (ha : a ∈ t.toList) : predecessor fuel s a.addr = some 0 ↔ minimum fuel s = some a.addr := by
  obtain ⟨xs, ys, hlist⟩ := List.append_of_mem ha
  rw [predecessor_eq hf hlist hfuel, minimum_eq hf hfuel, Option.some.injEq, Option.some.injEq]
  have hmem : ∀ b ∈ xs, b ∈ t.toList := by
    intro b hb
    rw [hlist]
    exact List.mem_append_left _ hb
  cases xs with
  | nil =>
      rw [hlist]
      exact ⟨fun _ => rfl, fun _ => rfl⟩
  | cons b xs =>
      have hne : headAddr (b :: xs).reverse ≠ 0 := by
        obtain ⟨b', rest, hrev⟩ := List.exists_cons_of_ne_nil (List.reverse_ne_nil_iff.mpr (List.cons_ne_nil b xs))
        rw [hrev]
        have hb' : b' ∈ b :: xs := List.mem_reverse.mp (hrev ▸ List.mem_cons_self)
        exact (hf.tree.cell_of_mem (hmem b' hb')).1
      have hfirst : headAddr t.toList ≠ a.addr := by
        rw [hlist]
        intro haddr
        have hsame := hf.eq_of_addr (hmem b List.mem_cons_self) ha haddr
        have hnd := (List.nodup_append.mp hf.nodup).1.of_map Label.addr
        rw [hlist, hsame] at hnd
        simp at hnd
      exact ⟨fun h => absurd h hne, fun h => absurd h hfirst⟩

theorem successor_none_iff {fuel : Nat} (hf : Focus s.heap s.mRoot t []) (hfuel : t.toList.length ≤ fuel)
    (ha : a ∈ t.toList) : successor fuel s a.addr = some 0 ↔ maximum fuel s = some a.addr := by
  have hlength : t.mirror.toList.length ≤ fuel := by
    rwa [Tree.toList_mirror, List.length_reverse]
  rw [successor_eq_mirror, maximum, maximumOf_eq_mirror]
  exact predecessor_none_iff (s := s.mirror) hf.mirror hlength ((mem_mirror t).mpr ha)

/-- When what is past is at the end of a list, filtering leaves that end. -/
theorem exists_append_filter {α : Type*} {l : List α} {past : α → Bool}
    (hpast : l.Pairwise fun a b => past a = true → past b = true) : ∃ xs, l = xs ++ l.filter past := by
  induction l with
  | nil => exact ⟨[], rfl⟩
  | cons a l ih =>
      obtain ⟨hall, htail⟩ := List.pairwise_cons.mp hpast
      cases ha : past a with
      | true =>
          have hself : l.filter past = l := List.filter_eq_self.mpr fun b hb => hall b hb ha
          refine ⟨[], ?_⟩
          rw [List.filter_cons_of_pos ha, hself, List.nil_append]
      | false =>
          obtain ⟨xs, hxs⟩ := ih htail
          refine ⟨a :: xs, ?_⟩
          rw [List.filter_cons_of_neg (by simp [ha]), List.cons_append, ← hxs]

/-- A search and the walk from where it ends see the nodes whose keys are past the given one. -/
theorem walk_bound [LinearOrder T] {past : T → Bool} {fuel : Nat}
    (hpast : ∀ k k', k ≤ k' → past k = true → past k' = true) (hf : Focus s.heap s.mRoot t [])
    (hsort : t.toList.Pairwise fun a b => a.key ≤ b.key) (hfuel : t.toList.length < fuel) :
    (boundFrom s past fuel s.mRoot 0).bind (walk fuel s fuel) =
      some (t.toList.filter fun a => past a.key) := by
  have hhead : ∀ ys : List (Label T TV), (ys.head?.map Label.addr).getD 0 = headAddr ys := by
    intro ys
    cases ys with
    | nil => rfl
    | cons a ys => rfl
  have hsearch := boundFrom_eq 0 hpast hf.tree hsort hfuel
  have hroot : s.mRoot = rootAddr t := hf.root_eq
  rw [hroot, hsearch, hhead, Option.bind_some]
  obtain ⟨xs, hxs⟩ := exists_append_filter
    (hsort.imp fun {a b} hle => hpast a.key b.key hle)
  have hshort : (t.toList.filter fun a => past a.key).length < fuel :=
    Nat.lt_of_le_of_lt (List.length_filter_le _ _) hfuel
  exact walk_eq hf hxs hfuel.le hshort

end Walk

/-- In a map that insertions have built, the walk from a lower or an upper bound sees the entries from
there on, each once and in symmetric order; each node is the predecessor of its successor; and the ends
are the minimum and the maximum. -/
theorem ordered_iteration [LinearOrder T] (fuel : Nat) (s₀ : State T TV) (calls : List (Label T TV))
    (hroot : s₀.mRoot = 0) (hfresh : FreshKeys s₀ calls) (hfuel : calls.length < fuel) :
    ∃ s t, run (insertLabel fuel) s₀ calls = some s ∧ IsMap s t ∧
      t.toList = stableSort Label.key calls ∧
      (∀ k, (lowerBound fuel s k).bind (walk fuel s fuel) =
        some (t.toList.filter fun a => decide (k ≤ a.key))) ∧
      (∀ k, (upperBound fuel s k).bind (walk fuel s fuel) =
        some (t.toList.filter fun a => decide (k < a.key))) ∧
      (∀ xs a ys, t.toList = xs ++ a :: ys → successor fuel s a.addr = some (headAddr ys) ∧
        predecessor fuel s a.addr = some (headAddr xs.reverse)) ∧
      (∀ a ∈ t.toList, ∀ b ∈ t.toList,
        successor fuel s a.addr = some b.addr ↔ predecessor fuel s b.addr = some a.addr) ∧
      minimum fuel s = some (headAddr t.toList) ∧
      (∀ a ∈ t.toList, predecessor fuel s a.addr = some 0 ↔ minimum fuel s = some a.addr) ∧
      maximum fuel s = some (headAddr t.toList.reverse) ∧
      ∀ a ∈ t.toList, successor fuel s a.addr = some 0 ↔ maximum fuel s = some a.addr := by
  obtain ⟨s, t, hrun, hmap, hlist, -⟩ := run_insertLabel hroot hfresh hfuel.le
  have hf : Focus s.heap s.mRoot t [] := by
    refine ⟨hmap.rep, trivial, ?_, hmap.root_eq⟩
    simpa [pathAddrs] using hmap.nodup
  have hlength : t.toList.length < fuel := by
    rwa [hlist, (stableSort_perm Label.key calls).length_eq]
  have hsort : t.toList.Pairwise fun a b => a.key ≤ b.key := by
    rw [hlist]
    exact sortedBy_stableSort Label.key calls
  refine ⟨s, t, hrun, hmap, hlist, ?_, ?_, ?_, ?_, minimum_eq hf hlength.le, ?_, maximum_eq hf hlength.le, ?_⟩
  · intro k
    refine walk_bound ?_ hf hsort hlength
    intro k₁ k₂ hle h₁
    exact decide_eq_true ((of_decide_eq_true h₁).trans hle)
  · intro k
    refine walk_bound ?_ hf hsort hlength
    intro k₁ k₂ hle h₁
    exact decide_eq_true (lt_of_lt_of_le (of_decide_eq_true h₁) hle)
  · intro xs a ys hsplit
    exact ⟨successor_eq hf hsplit hlength.le, predecessor_eq hf hsplit hlength.le⟩
  · intro a ha b hb
    exact successor_iff_predecessor hf hlength.le ha hb
  · intro a ha
    exact predecessor_none_iff hf hlength.le ha
  · intro a ha
    exact successor_none_iff hf hlength.le ha

/-- Three insertions with a repeated key, and the walk over the entries from that key on. -/
theorem ordered_iteration_three :
    ∃ s t, run (@insertLabel ℕ ℕ _ 4) ⟨fun _ => none, 0⟩
        [⟨7, 2, 10⟩, ⟨4, 1, 20⟩, ⟨9, 2, 30⟩] = some s ∧ IsMap s t ∧
      (lowerBound 4 s 2).bind (walk 4 s 4) = some (t.toList.filter fun a => decide (2 ≤ a.key)) := by
  have hfresh : FreshKeys (⟨fun _ => none, 0⟩ : State ℕ ℕ) [⟨7, 2, 10⟩, ⟨4, 1, 20⟩, ⟨9, 2, 30⟩] :=
    ⟨by decide, by simp⟩
  obtain ⟨s, t, hrun, hmap, -, hlower, -⟩ := ordered_iteration 4 _ _ rfl hfresh (by decide)
  exact ⟨s, t, hrun, hmap, hlower 2⟩

end Dogee.DMap
