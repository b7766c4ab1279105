import Dogee.DMapFixUp
import Dogee.DMapSearch
import Dogee.DMapHandles

/-!
# Removal from a shared map

A node with at most one child is unlinked, and its child takes its place. A node
with two children is replaced by its successor, which is the leftmost node of its
right subtree and may be its own right child. Where a black node disappears, the
repair loop makes up for it. The root reference that the functions pass on is
written back to `mRoot`, and the node is freed at the end.
-/

namespace Dogee.DMap

open RedBlack

variable {T TV : Type}

/-- `if (parent) { if (parent->left == node) parent->left = child; else parent->right = child; }
else root = child;` -/
def relink (s : State T TV) (root parent node child : ObjectKey) :
    Option (State T TV × ObjectKey) :=
  if parent ≠ 0 then do
    if (← s.heap parent).left = node then (s.setLeft parent child).map (·, root)
    else (s.setRight parent child).map (·, root)
  else some (s, child)

/-- What `remove` has at hand when the node is out of the tree: the arguments of
`removeFixUp` and the colour that is missing. -/
structure Spliced (T TV : Type) where
  state : State T TV
  root : ObjectKey
  child : ObjectKey
  parent : ObjectKey
  color : Color

/-- The part of `remove` for a node with at most one child. -/
def spliceOne (s : State T TV) (root node : ObjectKey) : Option (Spliced T TV) := do
  let n ← s.heap node
  let child := if n.left ≠ 0 then n.left else n.right
  let s ← adopt s child n.parent
  let (s, root) ← relink s root n.parent node child
  return ⟨s, root, child, n.parent, n.color⟩

/-- The replacement is not a child of the node: its own child takes its place under
`parent`, and it gets the right subtree of the node. -/
def detach (s : State T TV) (node replace child parent : ObjectKey) : Option (State T TV) := do
  let s ← adopt s child parent
  let s ← s.setLeft parent child
  let s ← s.setRight replace (← s.heap node).right
  s.setParent (← s.heap node).right replace

/-- The replacement gets the parent, the colour and the left subtree of the node. -/
def takePlace (s : State T TV) (node replace : ObjectKey) : Option (State T TV) := do
  let s ← s.setParent replace (← s.heap node).parent
  let s ← s.setColor replace (← s.heap node).color
  let s ← s.setLeft replace (← s.heap node).left
  s.setParent (← s.heap node).left replace

/-- The part of `remove` for a node with two children. -/
def spliceTwo (fuel : Nat) (s : State T TV) (root node : ObjectKey) : Option (Spliced T TV) := do
  let replace ← leftmost s fuel (← s.heap node).right
  let (s, root) ← relink s root (← s.heap node).parent node replace
  let child := (← s.heap replace).right
  let parent := (← s.heap replace).parent
  let color := (← s.heap replace).color
  let (s, parent) ←
    if parent = node then some (s, replace)
    else (detach s node replace child parent).map (·, parent)
  let s ← takePlace s node replace
  return ⟨s, root, child, parent, color⟩

def splice (fuel : Nat) (s : State T TV) (root node : ObjectKey) : Option (Spliced T TV) := do
  if (← s.heap node).left ≠ 0 ∧ (← s.heap node).right ≠ 0 then spliceTwo fuel s root node
  else spliceOne s root node

/-- `if (color == BLACK) removeFixUp(root, child, parent)` -/
def repair (fuel : Nat) (c : Spliced T TV) : Option (State T TV × ObjectKey) :=
  if c.color = .black then removeFixUp fuel c.state c.root c.child c.parent
  else some (c.state, c.root)

/-- `remove(root, node)` -/
def removeNode (fuel : Nat) (s : State T TV) (root node : ObjectKey) :
    Option (State T TV × ObjectKey) := do
  let (s, root) ← repair fuel (← splice fuel s root node)
  return (← delObj s node, root)

/-- `remove(key)` -/
def remove [LinearOrder T] (fuel : Nat) (s : State T TV) (key : T) : Option (State T TV) := do
  let node ← search fuel s key
  if node ≠ 0 then
    let (s, root) ← removeNode fuel s s.mRoot node
    return { s with mRoot := root }
  else return s

/-! ## Trees that are not empty -/

theorem rootAddr_mem {t : RedBlack.Tree (Label T TV)} (ht : t ≠ .nil) : rootAddr t ∈ addrs t := by
  cases t with
  | nil => exact absurd rfl ht
  | node c l a r => simp

theorem plug_ne_nil {t : RedBlack.Tree (Label T TV)} (ht : t ≠ .nil) (p : List (Frame (Label T TV))) :
    plug t p ≠ .nil := by
  induction p generalizing t with
  | nil => exact ht
  | cons f p ih => cases f <;> exact ih (by simp)

/-! ## Linking a child -/

theorem relink_eq {s : State T TV} {parent node child : ObjectKey} (root : ObjectKey)
    (hp : parent ≠ 0 → (s.heap parent).isSome) :
    relink s root parent node child =
      some ({ s with heap := relinkHeap s.heap parent node child },
        if parent = 0 then child else root) := by
  unfold relink
  by_cases h0 : parent = 0
  · simp [relinkHeap, h0]
  · obtain ⟨n, hn⟩ := Option.isSome_iff_exists.mp (hp h0)
    have hlink := link_eq hn h0 node child
    rw [if_pos h0, if_neg h0, hn]
    simpa [apply_ite] using congrArg (Option.map (·, root)) hlink

/-! ## Another subtree at the hole -/

/-- Unlinking a node with at most one child puts the child at the hole. -/
theorem unlink_focus {h : ObjectKey → Option (RBTNode T TV)} {root : ObjectKey} {c : Color}
    {l r t : RedBlack.Tree (Label T TV)} {a : Label T TV} {p : List (Frame (Label T TV))}
    (hf : Focus h root (.node c l a r) p) (ht : l = .nil ∧ t = r ∨ r = .nil ∧ t = l) :
    Focus (relinkHeap (adoptHeap h (rootAddr t) (topAddr p)) (topAddr p) a.addr (rootAddr t))
      (if topAddr p = 0 then rootAddr t else root) t p := by
  have hrep : Rep h a.addr t ∧ (a.addr :: (addrs t ++ pathAddrs p)).Nodup := by
    obtain ⟨⟨-, -, hl, hr⟩, -, hnd, -⟩ := hf
    rcases ht with ⟨rfl, rfl⟩ | ⟨rfl, rfl⟩
    · exact ⟨hr, by simpa [addrs] using hnd⟩
    · refine ⟨hl, ?_⟩
      have hperm : (addrs (.node c t a .nil) ++ pathAddrs p).Perm (a.addr :: (addrs t ++ pathAddrs p)) := by
        simp [addrs]
      exact hperm.nodup_iff.mp hnd
  obtain ⟨hrep, hnd⟩ := hrep
  simp only [List.nodup_cons, List.nodup_append, List.mem_append, not_or] at hnd
  have hroot := rootAddr_eq_zero_or_mem t
  have htop := topAddr_eq_zero_or_mem p
  have hpath : PathRep h a.addr p := hf.path
  constructor
  · apply hrep.reparent
    · exact hnd.2.1
    · intro h0
      have hne : rootAddr t ≠ topAddr p := by grind
      rw [relinkHeap_of_ne hne, adoptHeap, if_neg h0, alter_self]
    · intro q hq hqr
      have hne : q ≠ topAddr p := by
        have hq0 := (hrep.isSome hq).1
        grind
      rw [relinkHeap_of_ne hne, adoptHeap_of_ne hqr]
  · apply hpath.redirect
    · exact hnd.2.2.1
    · exact hf.tree.1
    · exact hnd.1.2
    · intro h0
      have hne : topAddr p ≠ rootAddr t := by grind
      simp [relinkHeap, h0, adoptHeap_of_ne hne]
    · intro q hq hqt
      have hne : q ≠ rootAddr t := by
        have hq0 := (hf.path.isSome hq).1
        grind
      rw [relinkHeap_of_ne hqt, adoptHeap_of_ne hne]
  · exact List.nodup_append.mpr hnd.2
  · exact hf.root_redirect t

theorem SameNodes.of_heap {s s' : State T TV} {h : ObjectKey → Option (RBTNode T TV)}
    (hs : s'.heap = h) (hsome : ∀ q, (h q).isSome = (s.heap q).isSome) : SameNodes s s' := by
  intro q
  rw [hs, hsome]

/-- The heap after `takePlace`, for a node with the fields `n`. -/
def takePlaceHeap (h : ObjectKey → Option (RBTNode T TV)) (n : RBTNode T TV) (replace : ObjectKey) :
    ObjectKey → Option (RBTNode T TV) :=
  alter (alter h replace fun m => { m with parent := n.parent, color := n.color, left := n.left })
    n.left fun m => { m with parent := replace }

theorem alter_alter (h : ObjectKey → Option (RBTNode T TV)) (p : ObjectKey)
    (f g : RBTNode T TV → RBTNode T TV) : alter (alter h p f) p g = alter h p (g ∘ f) := by
  funext q
  by_cases hq : q = p
  · subst hq
    simp
  · rw [alter_of_ne hq, alter_of_ne hq, alter_of_ne hq]

theorem takePlace_eq {s : State T TV} {node replace : ObjectKey} {n : RBTNode T TV}
    (hn : s.heap node = some n) (hne : node ≠ replace) (hr : (s.heap replace).isSome)
    (hl : (s.heap n.left).isSome) :
    takePlace s node replace = some { s with heap := takePlaceHeap s.heap n replace } := by
  have hread : ∀ f, alter s.heap replace f node = some n := by
    intro f
    rw [alter_of_ne hne, hn]
  simp only [takePlace, State.setParent, State.setColor, State.setLeft, hn, Option.bind_eq_bind,
    Option.bind_some]
  rw [State.modify_eq hr]
  simp only [Option.bind_some, hread]
  rw [State.modify_eq (by simpa using hr)]
  simp only [Option.bind_some, alter_alter, hread]
  rw [State.modify_eq (by simpa using hr)]
  simp only [Option.bind_some, alter_alter, hread]
  rw [State.modify_eq (by simpa using hl)]
  rfl

/-- The replacement in the place of the node, once it has the right subtree and the
parent refers to it. -/
theorem takePlace_focus {h : ObjectKey → Option (RBTNode T TV)} {root : ObjectKey}
    {a m : Label T TV} {nm : RBTNode T TV} {l r : RedBlack.Tree (Label T TV)}
    {p : List (Frame (Label T TV))} (n : RBTNode T TV) (hm0 : m.addr ≠ 0)
    (hm : h m.addr = some nm) (hkey : nm.key = m.key) (hvalue : nm.value = m.value)
    (hright : nm.right = rootAddr r) (hl : Rep h a.addr l) (hr : Rep h m.addr r)
    (hp : PathRep h m.addr p) (hleft : n.left = rootAddr l) (hparent : n.parent = topAddr p)
    (hnd : (addrs l ++ m.addr :: (addrs r ++ pathAddrs p)).Nodup)
    (hroot : root = rootAddr (plug (.node n.color l m r) p)) :
    Focus (takePlaceHeap h n m.addr) root (.node n.color l m r) p := by
  have hnd' := hnd
  simp only [List.nodup_append, List.nodup_cons, List.mem_cons, List.mem_append, not_or] at hnd'
  have hrl := rootAddr_eq_zero_or_mem l
  have hother : ∀ q, q ≠ m.addr → q ≠ rootAddr l → takePlaceHeap h n m.addr q = h q := by
    intro q hqm hql
    rw [takePlaceHeap, alter_of_ne (hleft ▸ hql), alter_of_ne hqm]
  have hml : m.addr ≠ rootAddr l := by grind
  refine ⟨⟨hm0, ?_, ?_, ?_⟩, ?_, ?_, hroot⟩
  · rw [takePlaceHeap, alter_of_ne (hleft ▸ hml), alter_self, hm, Option.map_some, Option.some.injEq,
      Label.cell, ← hkey, ← hvalue, ← hleft, ← hright, ← hparent]
  · apply hl.reparent
    · exact hnd'.1
    · intro h0
      rw [takePlaceHeap, hleft, alter_self, alter_of_ne hml.symm]
    · intro q hq hql
      exact hother q (by grind) hql
  · apply hr.congr
    intro q hq
    have hq0 := (hr.isSome hq).1
    exact hother q (by grind) (by grind)
  · apply hp.congr
    intro q hq
    have hq0 := (hp.isSome hq).1
    exact hother q (by grind) (by grind)
  · simpa [addrs] using hnd

/-- The heap after `detach`, with `x` the right child of the node. -/
def detachHeap (h : ObjectKey → Option (RBTNode T TV)) (x replace child parent : ObjectKey) :
    ObjectKey → Option (RBTNode T TV) :=
  alter (alter (alter (adoptHeap h child parent) parent fun n => { n with left := child })
    replace fun n => { n with right := x }) x fun n => { n with parent := replace }

theorem detach_eq {s : State T TV} {node replace child parent : ObjectKey} {n : RBTNode T TV}
    (hn : s.heap node = some n) (hnc : node ≠ child) (hnp : node ≠ parent) (hnr : node ≠ replace)
    (hc : child ≠ 0 → (s.heap child).isSome) (hp : (s.heap parent).isSome)
    (hr : (s.heap replace).isSome) (hx : (s.heap n.right).isSome) :
    detach s node replace child parent =
      some { s with heap := detachHeap s.heap n.right replace child parent } := by
  have hread : ∀ f, alter (adoptHeap s.heap child parent) parent f node = some n := by
    intro f
    rw [alter_of_ne hnp, adoptHeap_of_ne hnc, hn]
  simp only [detach, adopt_eq hc, State.setParent, State.setRight, State.setLeft, Option.bind_eq_bind,
    Option.bind_some]
  rw [State.modify_eq (by simpa using hp)]
  simp only [Option.bind_some, hread]
  rw [State.modify_eq (by simpa using hr)]
  simp only [Option.bind_some, alter_of_ne hnr, hread]
  rw [State.modify_eq (by simpa using hx)]
  rfl

/-! ## Taking the node out -/

/-- The node `a` is out: a red node was missing and the tree is still balanced, or
the subtree that has come up is one black node short. -/
def SplicedOut (s : State T TV) (labels : List (Label T TV)) (c : Spliced T TV) : Prop :=
  c.color = .red ∧ Restored s labels (some (c.state, c.root)) ∨
    c.color = .black ∧ SameNodes s c.state ∧
      ∃ ct p, c.parent = topAddr p ∧ Deficit c.state c.root c.child ct p labels

/-- What is missing when the only child of a node comes up in its place. -/
theorem splicedOut_child {s : State T TV} {labels : List (Label T TV)} {sp : Spliced T TV}
    {n : Nat} {ok : Bool} {l r t : RedBlack.Tree (Label T TV)} {a : Label T TV}
    {p : List (Frame (Label T TV))} (hb : ∃ cb, Balanced cb n (.node sp.color l a r) ∧
      (ok = false → cb = .black)) (ht : l = .nil ∧ t = r ∨ r = .nil ∧ t = l) (hp : Fits ok n p)
    (hf : Focus sp.state.heap sp.root t p) (hchild : sp.child = rootAddr t)
    (hparent : sp.parent = topAddr p) (hlabels : (plug t p).toList = labels)
    (hsame : SameNodes s sp.state) : SplicedOut s labels sp := by
  obtain ⟨cb, hb, hok⟩ := hb
  cases hcolor : sp.color with
  | red =>
      rw [hcolor] at hb
      cases hb with
      | red hl hr =>
          have hbt : Balanced .black n t := by
            rcases ht with ⟨-, rfl⟩ | ⟨-, rfl⟩
            · exact hr
            · exact hl
          have hplug : ∃ m, Balanced .black m (plug t p) := by
            by_cases hnil : p = []
            · subst hnil
              exact ⟨n, hbt⟩
            · exact hp.plug_balanced hbt (fun _ => rfl) hnil
          exact Or.inl ⟨hcolor, _, _, _, rfl, hf.toRoot, hplug, hlabels, hsame⟩
  | black =>
      rw [hcolor] at hb
      cases hb with
      | @black n cl cr _ _ _ hl hr =>
          have hbt : ∃ ct, Balanced ct n t := by
            rcases ht with ⟨-, rfl⟩ | ⟨-, rfl⟩
            · exact ⟨cr, hr⟩
            · exact ⟨cl, hl⟩
          obtain ⟨ct, hbt⟩ := hbt
          exact Or.inr ⟨hcolor, hsame, ct, p, hparent, n, ok, t, hf, hchild.symm, hbt.short, hp, hlabels⟩

theorem spliceOne_out {s : State T TV} {root : ObjectKey} {c cb : Color} {n : Nat} {ok : Bool}
    {l r : RedBlack.Tree (Label T TV)} {a : Label T TV} {p : List (Frame (Label T TV))}
    (hf : Focus s.heap root (.node c l a r) p) (hone : l = .nil ∨ r = .nil)
    (hb : Balanced cb n (.node c l a r)) (hp : Fits ok n p) (hok : ok = false → cb = .black) :
    ∃ sp, spliceOne s root a.addr = some sp ∧
      SplicedOut s (before p ++ l.toList ++ r.toList ++ after p) sp := by
  obtain ⟨t, ht, hchild⟩ : ∃ t, (l = .nil ∧ t = r ∨ r = .nil ∧ t = l) ∧
      (if rootAddr l ≠ 0 then rootAddr l else rootAddr r) = rootAddr t := by
    cases l with
    | nil => exact ⟨r, Or.inl ⟨rfl, rfl⟩, by simp⟩
    | node cl ll b lr =>
        have hr : r = .nil := hone.resolve_left (by simp)
        exact ⟨_, Or.inr ⟨hr, rfl⟩, if_pos hf.tree.2.2.1.1⟩
  have hcell : s.heap a.addr = some _ := hf.tree.2.1
  have hrep : ∃ q, Rep s.heap q t := by
    rcases ht with ⟨-, rfl⟩ | ⟨-, rfl⟩
    · exact ⟨_, hf.tree.2.2.2⟩
    · exact ⟨_, hf.tree.2.2.1⟩
  obtain ⟨q, hrep⟩ := hrep
  have hadopt : rootAddr t ≠ 0 → (s.heap (rootAddr t)).isSome := by
    intro h0
    exact Option.isSome_iff_exists.mpr (hrep.isSome ((rootAddr_eq_zero_or_mem t).resolve_left h0)).2
  have hrelink : topAddr p ≠ 0 →
      (adoptHeap s.heap (rootAddr t) (topAddr p) (topAddr p)).isSome := by
    intro h0
    rw [isSome_adoptHeap]
    exact Option.isSome_iff_exists.mpr
      (hf.path.isSome ((topAddr_eq_zero_or_mem p).resolve_left h0)).2
  let h := relinkHeap (adoptHeap s.heap (rootAddr t) (topAddr p)) (topAddr p) a.addr (rootAddr t)
  let root' := if topAddr p = 0 then rootAddr t else root
  refine ⟨⟨{ s with heap := h }, root', rootAddr t, topAddr p, c⟩, ?_, ?_⟩
  · simp only [spliceOne, hcell, Label.cell, Option.bind_eq_bind, Option.bind_some, hchild]
    rw [adopt_eq hadopt]
    simp only [Option.bind_some]
    rw [relink_eq root hrelink]
    rfl
  · apply splicedOut_child ⟨cb, hb, hok⟩ ht hp (unlink_focus hf ht) rfl rfl
    · rcases ht with ⟨rfl, rfl⟩ | ⟨rfl, rfl⟩ <;> simp [toList_plug]
    · exact .of_heap rfl (by simp [h])

theorem focus_append_iff {h : ObjectKey → Option (RBTNode T TV)} {root : ObjectKey}
    {t : RedBlack.Tree (Label T TV)} {q p : List (Frame (Label T TV))} :
    Focus h root t (q ++ p) ↔ Focus h root (plug t q) p := by
  induction q generalizing t with
  | nil => rfl
  | cons f q ih =>
      cases f with
      | left c a r => exact focus_left_iff.trans ih
      | right c l a => exact focus_right_iff.trans ih

/-- A path that goes down to the left only. -/
def AllLeft (q : List (Frame (Label T TV))) : Prop := ∀ f ∈ q, ∃ c a r, f = Frame.left c a r

theorem AllLeft.before_eq {q : List (Frame (Label T TV))} (hq : AllLeft q) : before q = [] := by
  induction q with
  | nil => rfl
  | cons f q ih =>
      obtain ⟨c, a, r, rfl⟩ := hq f List.mem_cons_self
      exact ih fun g hg => hq g (List.mem_cons_of_mem _ hg)

/-- Going down to the left from a subtree comes to a node without a left child. -/
theorem leftmost_focus {s : State T TV} {r : RedBlack.Tree (Label T TV)} (hne : r ≠ .nil) :
    ∀ {fuel n : Nat} {cb : Color} {ok : Bool} {x : ObjectKey} {p : List (Frame (Label T TV))},
      Rep s.heap x r → Balanced cb n r → Fits ok n p → (ok = false → cb = .black) → p ≠ [] →
      r.toList.length ≤ fuel →
      ∃ cm m rr q cb' n' ok', leftmost s fuel (rootAddr r) = some (Label.addr m) ∧ AllLeft q ∧
        r = plug (.node cm .nil m rr) q ∧ Balanced cb' n' (.node cm .nil m rr) ∧
        Fits ok' n' (q ++ p) ∧ (ok' = false → cb' = .black) := by
  induction r with
  | nil => exact absurd rfl hne
  | node c l a r ihl ihr =>
      intro fuel n cb ok x p ht hb hp hok hnil hfuel
      obtain ⟨ha0, hcell, hl, hr⟩ := ht
      rw [RedBlack.Tree.toList_node, List.length_append, List.length_cons] at hfuel
      obtain ⟨fuel, rfl⟩ := Nat.exists_eq_succ_of_ne_zero (by omega : fuel ≠ 0)
      cases l with
      | nil =>
          refine ⟨c, a, r, [], cb, n, ok, ?_, by simp [AllLeft], rfl, hb, hp, hok⟩
          simp [leftmost, hcell, Label.cell]
      | node c' l' b r' =>
          obtain ⟨c₁, n₁, ok₁, hb₁, hp₁, hok₁⟩ := hp.descend_left hb hok fun h => absurd h hnil
          have hshort : (RedBlack.Tree.node c' l' b r').toList.length ≤ fuel := by omega
          obtain ⟨cm, m, rr, q, cb', n', ok', hrun, hq, hplug, hb', hp', hok'⟩ :=
            ihl (by simp) hl hb₁ hp₁ hok₁ (by simp) hshort
          refine ⟨cm, m, rr, q ++ [.left c a r], cb', n', ok', ?_, ?_, ?_, hb', ?_, hok'⟩
          · rw [← hrun]
            simp [leftmost, hcell, Label.cell, hl.1]
          · intro f hf
            rcases List.mem_append.mp hf with hf | hf
            · exact hq f hf
            · exact ⟨c, a, r, List.mem_singleton.mp hf⟩
          · rw [plug_append, ← hplug]
            rfl
          · simpa using hp'

/-- The keys around a node `a` whose successor `m` is the leftmost node on its right. -/
theorem Focus.successor_nodup {h : ObjectKey → Option (RBTNode T TV)} {root : ObjectKey}
    {c cm : Color} {l rr : RedBlack.Tree (Label T TV)} {a m : Label T TV}
    {q p : List (Frame (Label T TV))} (hq : AllLeft q)
    (hf : Focus h root (.node c l a (plug (.node cm .nil m rr) q)) p) :
    (addrs l ++ a.addr :: m.addr :: (addrs (plug rr q) ++ pathAddrs p)).Nodup := by
  have hnd := hf.nodup
  simpa [addrs, toList_plug, hq.before_eq] using hnd

theorem relinkHeap_self {h : ObjectKey → Option (RBTNode T TV)} {parent node : ObjectKey}
    {n : RBTNode T TV} (h0 : parent ≠ 0) (hn : h parent = some n) (hleft : n.left = node)
    (child : ObjectKey) : relinkHeap h parent node child parent = some { n with left := child } := by
  simp [relinkHeap, h0, hn, hleft]

section Successor

variable {s : State T TV} {root : ObjectKey} {c cm : Color} {l rr : RedBlack.Tree (Label T TV)}
  {a m : Label T TV} {q p : List (Frame (Label T TV))} {fuel : Nat}

/-- The outcome of replacing the node `a` by its successor `m`. -/
def Replaced (fuel : Nat) (s : State T TV) (root : ObjectKey) (c cm : Color)
    (l rr : RedBlack.Tree (Label T TV)) (a m : Label T TV) (q p : List (Frame (Label T TV))) : Prop :=
  ∃ s' root', spliceTwo fuel s root a.addr =
      some ⟨s', root', rootAddr rr, topAddr (q ++ .right c l m :: p), cm⟩ ∧
    Focus s'.heap root' (.node c l m (plug rr q)) p ∧ SameNodes s s'

/-- The successor is the right child of the node. -/
theorem spliceTwo_child (hf : Focus s.heap root (.node c l a (.node cm .nil m rr)) p)
    (hl : l ≠ .nil) (hrun : leftmost s fuel m.addr = some m.addr) :
    Replaced fuel s root c cm l rr a m [] p := by
  have hnd := Focus.successor_nodup (q := []) (by simp [AllLeft]) hf
  simp only [List.nodup_append, List.nodup_cons, List.mem_cons, List.mem_append, not_or, plug] at hnd
  obtain ⟨⟨ha0, ha, hrl, hm0, hm, -, hrr⟩, hpath, -, -⟩ := id hf
  have htop := topAddr_eq_zero_or_mem p
  have hp : topAddr p ≠ 0 → (s.heap (topAddr p)).isSome := by
    intro h0
    exact Option.isSome_iff_exists.mpr (hpath.isSome (htop.resolve_left h0)).2
  obtain ⟨h₂, hh₂⟩ : ∃ h₂, h₂ = relinkHeap s.heap (topAddr p) a.addr m.addr := ⟨_, rfl⟩
  have hother : ∀ k, k ≠ topAddr p → h₂ k = s.heap k := by
    intro k hk
    rw [hh₂, relinkHeap_of_ne hk]
  have hma : m.addr ≠ topAddr p := by grind
  have haa : a.addr ≠ topAddr p := by grind
  have hne : a.addr ≠ m.addr := by grind
  have hlsome : (h₂ (rootAddr l)).isSome := by
    rw [hh₂, isSome_relinkHeap]
    exact Option.isSome_iff_exists.mpr (hrl.isSome (rootAddr_mem hl)).2
  have hmsome : (h₂ m.addr).isSome := by
    rw [hh₂, isSome_relinkHeap, hm]
    rfl
  let na := a.cell c (rootAddr l) m.addr (topAddr p)
  refine ⟨{ s with heap := takePlaceHeap h₂ na m.addr }, if topAddr p = 0 then m.addr else root, ?_, ?_, ?_⟩
  · have hread : h₂ a.addr = some na := (hother _ haa).trans ha
    have hreadm : h₂ m.addr = some _ := (hother _ hma).trans hm
    have htake := takePlace_eq (s := { s with heap := h₂ }) hread hne hmsome hlsome
    simp only [spliceTwo, ha, Label.cell, rootAddr_node, hrun, Option.bind_eq_bind, Option.bind_some]
    rw [relink_eq root hp, ← hh₂]
    simp [hreadm, Label.cell, na, htake]
  · apply takePlace_focus na hm0 ((hother _ hma).trans hm) rfl rfl rfl
    · exact hrl.congr fun k hk => hother k (by grind [hrl.isSome hk])
    · exact hrr.congr fun k hk => hother k (by grind [hrr.isSome hk])
    · have hpath' : PathRep s.heap a.addr p := hpath
      apply hpath'.redirect
      · grind
      · exact ha0
      · grind
      · exact fun _ => by rw [hh₂]
      · exact fun k _ hk => hother k hk
    · rfl
    · rfl
    · simp only [List.nodup_append, List.nodup_cons, List.mem_cons, List.mem_append, not_or]
      grind
    · exact hf.root_redirect (.node c l m rr)
  · exact .of_heap rfl (by simp [takePlaceHeap, hh₂])

/-- The right subtree when the successor, further down, has been detached from it
and the subtree hung below the successor. -/
theorem detach_rep {h g : ObjectKey → Option (RBTNode T TV)} {root : ObjectKey} {d : Color}
    {e : Label T TV} {u : RedBlack.Tree (Label T TV)} {k₀ : ObjectKey}
    (hf : Focus h root (.node cm .nil m rr) (.left d e u :: q ++ .right c l a :: p))
    (hg : ∀ k, k ≠ k₀ → g k = h k) (hk₀ : k₀ ∉ addrs (plug rr (.left d e u :: q)))
    (hm : m.addr ∉ addrs (plug rr (.left d e u :: q))) :
    Rep (detachHeap g (rootAddr (plug rr (.left d e u :: q))) m.addr (rootAddr rr) e.addr) m.addr
      (plug rr (.left d e u :: q)) := by
  have hunlinked := unlink_focus hf (Or.inl ⟨rfl, rfl⟩)
  have hup := focus_right_iff.mp (focus_append_iff.mp hunlinked)
  have hrep := hup.tree.2.2.2
  have hnd : (addrs (plug rr (.left d e u :: q))).Nodup := by
    have hall := hup.nodup
    simp only [addrs, RedBlack.Tree.toList_node, List.map_append, List.map_cons, List.append_assoc] at hall
    exact ((List.nodup_append.mp (List.nodup_append.mp hall).2.1).1 |> List.nodup_cons.mp).2
  have he : h e.addr = some _ := hf.path.2.1
  have he0 : e.addr ≠ 0 := hf.path.1
  have hmem : e.addr ∈ addrs (plug rr (.left d e u :: q)) := by
    simp [addrs, toList_plug, after]
  -- the two ways to write the heap agree away from `k₀`
  have hinner : ∀ k ∈ addrs (plug rr (.left d e u :: q)),
      alter (adoptHeap g (rootAddr rr) e.addr) e.addr (fun n => { n with left := rootAddr rr }) k =
        relinkHeap (adoptHeap h (rootAddr rr) e.addr) e.addr m.addr (rootAddr rr) k := by
    intro k hk
    have hkk : k ≠ k₀ := fun heq => hk₀ (heq ▸ hk)
    by_cases hke : k = e.addr
    · subst hke
      have hne : e.addr ≠ rootAddr rr := by
        intro heq
        have hin := (rootAddr_eq_zero_or_mem rr).resolve_left (heq ▸ he0)
        rw [← heq] at hin
        have htree : e.addr ∈ addrs (.node cm .nil m rr) := by simp [hin]
        exact (List.nodup_append'.mp hf.nodup).2.2 htree (by simp [pathAddrs])
      have hread : adoptHeap h (rootAddr rr) e.addr e.addr = some _ := (adoptHeap_of_ne hne).trans he
      have hlink := relinkHeap_self he0 hread rfl (rootAddr rr)
      rw [alter_self, adoptHeap_of_ne hne, hg _ hkk, he, Option.map_some]
      exact hlink.symm
    · rw [alter_of_ne hke, relinkHeap_of_ne hke, adoptHeap_congr (hg k hkk)]
  apply hrep.reparent hnd
  · intro h0
    have hin := (rootAddr_eq_zero_or_mem _).resolve_left h0
    have hxm : rootAddr (plug rr (.left d e u :: q)) ≠ m.addr := fun heq => hm (heq ▸ hin)
    rw [detachHeap, alter_self, alter_of_ne hxm, hinner _ hin]
    rfl
  · intro k hk hkx
    have hkm : k ≠ m.addr := fun heq => hm (heq ▸ hk)
    rw [detachHeap, alter_of_ne hkx, alter_of_ne hkm, hinner k hk]
    rfl

/-- The successor is further down in the right subtree of the node. -/
theorem spliceTwo_deep {d : Color} {e : Label T TV} {u : RedBlack.Tree (Label T TV)}
    (hq : AllLeft (.left d e u :: q))
    (hf : Focus s.heap root (.node c l a (plug (.node cm .nil m rr) (.left d e u :: q))) p)
    (hl : l ≠ .nil)
    (hrun : leftmost s fuel (rootAddr (plug (.node cm .nil m rr) (.left d e u :: q))) = some m.addr) :
    Replaced fuel s root c cm l rr a m (.left d e u :: q) p := by
  have hnd := hf.successor_nodup hq
  have hdown := focus_append_iff.mpr (focus_right_iff.mpr hf)
  have hx : rootAddr (plug (.node cm .nil m rr) (.left d e u :: q)) =
      rootAddr (plug rr (.left d e u :: q)) := rootAddr_plug_congr (List.cons_ne_nil _ _)
  obtain ⟨⟨ha0, ha, hrl, hrx⟩, hpath, -, -⟩ := id hf
  obtain ⟨⟨hm0, hm, -, hrr⟩, ⟨he0, he, -, -⟩, -, -⟩ := id hdown
  rw [hx] at ha hrun
  have hmem : e.addr ∈ addrs (plug rr (.left d e u :: q)) := by
    simp [addrs, toList_plug, after]
  have hchild : ∀ k ∈ addrs rr, k ∈ addrs (plug rr (.left d e u :: q)) := by
    intro k hk
    simp only [addrs, toList_plug, List.map_append, List.mem_append] at hk ⊢
    exact Or.inl (Or.inr hk)
  have hsome : ∀ k ∈ addrs (plug rr (.left d e u :: q)), k ≠ 0 ∧ ∃ n, s.heap k = some n := by
    intro k hk
    apply hrx.isSome
    simp only [addrs, toList_plug, RedBlack.Tree.toList_node, RedBlack.Tree.toList_nil, List.map_append,
      List.map_cons, List.mem_append, List.mem_cons] at hk ⊢
    tauto
  have hxmem : rootAddr (plug rr (.left d e u :: q)) ∈ addrs (plug rr (.left d e u :: q)) :=
    rootAddr_mem (plug_ne_nil (t := .node d rr e u) (by simp) q)
  simp only [List.nodup_append, List.nodup_cons, List.mem_cons, List.mem_append, not_or] at hnd
  have htop := topAddr_eq_zero_or_mem p
  have hrr0 := rootAddr_eq_zero_or_mem rr
  have hma : m.addr ≠ topAddr p := by grind
  have haa : a.addr ≠ topAddr p := by grind
  have hne : a.addr ≠ m.addr := by grind
  have hae : a.addr ≠ e.addr := by grind
  have hmrr : m.addr ≠ rootAddr rr := by grind
  have harr : a.addr ≠ rootAddr rr := by grind
  -- the parent of the node refers to the successor
  have hp : topAddr p ≠ 0 → (s.heap (topAddr p)).isSome := by
    intro h0
    exact Option.isSome_iff_exists.mpr (hpath.isSome (htop.resolve_left h0)).2
  obtain ⟨g, hg⟩ : ∃ g, g = relinkHeap s.heap (topAddr p) a.addr m.addr := ⟨_, rfl⟩
  have hgother : ∀ k, k ≠ topAddr p → g k = s.heap k := by
    intro k hk
    rw [hg, relinkHeap_of_ne hk]
  have hgsome : ∀ k, (∃ n, s.heap k = some n) → (g k).isSome := by
    intro k hk
    rw [hg, isSome_relinkHeap]
    exact Option.isSome_iff_exists.mpr hk
  have htopx : topAddr p ∉ addrs (plug rr (.left d e u :: q)) := by
    intro hin
    exact hnd.2.1.2.2.2.2 _ hin _ (htop.resolve_left (hsome _ hin).1) rfl
  -- the successor is detached
  have hrep := detach_rep hdown hgother htopx hnd.2.1.2.1.1
  obtain ⟨h₂, hh₂⟩ : ∃ h₂, h₂ = detachHeap g (rootAddr (plug rr (.left d e u :: q))) m.addr
    (rootAddr rr) e.addr := ⟨_, rfl⟩
  rw [← hh₂] at hrep
  have hother : ∀ k, k ≠ 0 → k ≠ m.addr → k ∉ addrs (plug rr (.left d e u :: q)) → h₂ k = g k := by
    intro k hk0 hkm hkx
    have hkrr : k ≠ rootAddr rr := by grind
    rw [hh₂, detachHeap, alter_of_ne (by grind), alter_of_ne hkm, alter_of_ne (by grind),
      adoptHeap_of_ne hkrr]
  have hreadm : h₂ m.addr = some (m.cell cm 0 (rootAddr (plug rr (.left d e u :: q))) e.addr) := by
    rw [hh₂, detachHeap, alter_of_ne (by grind), alter_self, alter_of_ne (by grind),
      adoptHeap_of_ne hmrr, hgother _ hma, hm]
    rfl
  have hreada : h₂ a.addr = some (a.cell c (rootAddr l) (rootAddr (plug rr (.left d e u :: q))) (topAddr p)) := by
    rw [hother _ ha0 hne (by grind), hgother _ haa, ha]
  let na := a.cell c (rootAddr l) (rootAddr (plug rr (.left d e u :: q))) (topAddr p)
  have hlsome : (h₂ (rootAddr l)).isSome := by
    have hmeml := rootAddr_mem hl
    obtain ⟨hl0, hln⟩ := hrl.isSome hmeml
    rw [hother _ hl0 (by grind) (by grind)]
    exact hgsome _ hln
  have hdetach := detach_eq (s := { s with heap := g }) ((hgother _ haa).trans ha) harr hae hne
    (fun h0 => hgsome _ (hsome _ (hchild _ (hrr0.resolve_left h0))).2) (hgsome _ ⟨_, he⟩)
    (hgsome _ ⟨_, hm⟩) (hgsome _ (hsome _ hxmem).2)
  have htake := takePlace_eq (s := { s with heap := h₂ }) hreada hne (by simp [hreadm]) hlsome
  refine ⟨{ s with heap := takePlaceHeap h₂ na m.addr }, if topAddr p = 0 then m.addr else root, ?_, ?_, ?_⟩
  · have hgm : g m.addr = some _ := (hgother _ hma).trans hm
    simp only [Label.cell] at hdetach
    rw [← hh₂] at hdetach
    simp only [spliceTwo, ha, Label.cell, hrun, Option.bind_eq_bind, Option.bind_some]
    rw [relink_eq root hp, ← hg]
    simp [hgm, Label.cell, hae.symm, hdetach, htake, na]
  · apply takePlace_focus na hm0 hreadm rfl rfl rfl
    · apply hrl.congr
      intro k hk
      have hk0 := (hrl.isSome hk).1
      rw [hother k hk0 (by grind) (by grind), hgother k (by grind)]
    · exact hrep
    · have hpath' : PathRep s.heap a.addr p := hpath
      apply hpath'.redirect
      · grind
      · exact ha0
      · grind
      · intro h0
        rw [hother _ h0 hma.symm htopx, hg]
      · intro k hk hkt
        have hk0 := (hpath.isSome hk).1
        rw [hother k hk0 (by grind) (by grind), hgother k hkt]
    · rfl
    · rfl
    · simp only [List.nodup_append, List.nodup_cons, List.mem_cons, List.mem_append, not_or]
      grind
    · exact hf.root_redirect (.node c l m _)
  · exact .of_heap rfl (by simp [takePlaceHeap, hh₂, detachHeap, hg])

end Successor

/-- A node with two children gives its place to its successor. -/
theorem spliceTwo_out {s : State T TV} {root : ObjectKey} {c cb : Color} {n fuel : Nat} {ok : Bool}
    {l r : RedBlack.Tree (Label T TV)} {a : Label T TV} {p : List (Frame (Label T TV))}
    (hf : Focus s.heap root (.node c l a r) p) (hl : l ≠ .nil) (hr : r ≠ .nil)
    (hb : Balanced cb n (.node c l a r)) (hp : Fits ok n p) (hok : ok = false → cb = .black)
    (htop : p = [] → cb = .black) (hfuel : r.toList.length ≤ fuel) :
    ∃ sp, spliceTwo fuel s root a.addr = some sp ∧
      SplicedOut s (before p ++ l.toList ++ r.toList ++ after p) sp := by
  obtain ⟨c₁, n₁, ok₁, hb₁, hp₁, hok₁⟩ := hp.descend_right hb hok htop
  obtain ⟨cm, m, rr, q, cb', n', ok', hrun, hq, rfl, hb', hp', hok'⟩ :=
    leftmost_focus hr hf.tree.2.2.2 hb₁ hp₁ hok₁ (List.cons_ne_nil _ _) hfuel
  have hreplaced : Replaced fuel s root c cm l rr a m q p := by
    cases q with
    | nil => exact spliceTwo_child hf hl hrun
    | cons f q =>
        obtain ⟨d, e, u, rfl⟩ := hq f List.mem_cons_self
        exact spliceTwo_deep hq hf hl hrun
  obtain ⟨s', root', hsplice, hf', hsame⟩ := hreplaced
  refine ⟨_, hsplice, ?_⟩
  apply splicedOut_child ⟨cb', hb', hok'⟩ (Or.inl ⟨rfl, rfl⟩) (hp'.relabel m)
    (focus_append_iff.mpr (focus_right_iff.mpr hf')) rfl rfl
  · simp [toList_plug, before_append, after_append, before, after, hq.before_eq]
  · exact hsame

theorem splice_out {s : State T TV} {root : ObjectKey} {c cb : Color} {n fuel : Nat} {ok : Bool}
    {l r : RedBlack.Tree (Label T TV)} {a : Label T TV} {p : List (Frame (Label T TV))}
    (hf : Focus s.heap root (.node c l a r) p) (hb : Balanced cb n (.node c l a r)) (hp : Fits ok n p)
    (hok : ok = false → cb = .black) (htop : p = [] → cb = .black) (hfuel : r.toList.length ≤ fuel) :
    ∃ sp, splice fuel s root a.addr = some sp ∧
      SplicedOut s (before p ++ l.toList ++ r.toList ++ after p) sp := by
  have hcell : s.heap a.addr = some _ := hf.tree.2.1
  have hnil : ∀ {t : RedBlack.Tree (Label T TV)}, Rep s.heap a.addr t → (rootAddr t = 0 ↔ t = .nil) := by
    intro t ht
    cases t with
    | nil => simp
    | node c' l' b r' => simpa using ht.1
  have hleft := hnil hf.tree.2.2.1
  have hright := hnil hf.tree.2.2.2
  by_cases htwo : l ≠ .nil ∧ r ≠ .nil
  · obtain ⟨sp, hsplice, hout⟩ := spliceTwo_out hf htwo.1 htwo.2 hb hp hok htop hfuel
    refine ⟨sp, ?_, hout⟩
    rw [← hsplice]
    simp [splice, hcell, Label.cell, hleft, hright, htwo]
  · obtain ⟨sp, hsplice, hout⟩ := spliceOne_out hf (by tauto) hb hp hok
    refine ⟨sp, ?_, hout⟩
    rw [← hsplice]
    have hne : ¬(rootAddr l ≠ 0 ∧ rootAddr r ≠ 0) := by
      rw [ne_eq, ne_eq, hleft, hright]
      exact htwo
    simp only [splice, hcell, Label.cell, Option.bind_eq_bind, Option.bind_some, if_neg hne]

/-- Removing a node of the tree: the result is balanced and has the other labels. -/
theorem removeNode_spec {s : State T TV} {root : ObjectKey} {c : Color}
    {l r : RedBlack.Tree (Label T TV)} {a : Label T TV} {p : List (Frame (Label T TV))} {fuel : Nat}
    (hf : Focus s.heap root (.node c l a r) p) (hb : ∃ n, Balanced .black n (plug (.node c l a r) p))
    (hfuel : (plug (.node c l a r) p).toList.length < fuel) :
    ∃ s' root' t, removeNode fuel s root a.addr = some (s', root') ∧ Focus s'.heap root' t [] ∧
      (∃ m, Balanced .black m t) ∧ t.toList = before p ++ l.toList ++ r.toList ++ after p ∧
      ∀ q, (s'.heap q).isSome = ((s.heap q).isSome && q != a.addr) := by
  obtain ⟨m, hb⟩ := hb
  obtain ⟨cb, n, ok, hbn, hp, hok, htop⟩ := hb.exists_fits
  obtain ⟨labels, hlabels⟩ : ∃ labels, labels = before p ++ l.toList ++ r.toList ++ after p := ⟨_, rfl⟩
  have hlen : labels.length + 1 < fuel := by
    simp only [hlabels, toList_plug, RedBlack.Tree.toList_node, List.length_append, List.length_cons] at hfuel ⊢
    omega
  have hnot : a.addr ∉ labels.map Label.addr := by
    have hnd := hf.toRoot.nodup
    simp only [pathAddrs, List.append_nil, addrs, toList_plug, RedBlack.Tree.toList_node] at hnd
    have hperm : (before p ++ (l.toList ++ a :: r.toList) ++ after p).Perm (a :: labels) := by
      have hmiddle : ((before p ++ l.toList) ++ a :: (r.toList ++ after p)).Perm
          (a :: ((before p ++ l.toList) ++ (r.toList ++ after p))) := List.perm_middle
      simpa [hlabels] using hmiddle
    exact (List.nodup_cons.mp ((hperm.map Label.addr).nodup_iff.mp hnd)).1
  have hright : r.toList.length ≤ fuel := by
    simp only [toList_plug, RedBlack.Tree.toList_node, List.length_append, List.length_cons] at hfuel
    omega
  obtain ⟨sp, hsplice, hout⟩ := splice_out hf hbn hp hok htop hright
  rw [← hlabels] at hout ⊢
  have hfixed : Restored s labels (repair fuel sp) := by
    rw [repair]
    rcases hout with ⟨hcolor, hrestored⟩ | ⟨hcolor, hsame, ct, p', hparent, hdeficit⟩
    · rw [hcolor, if_neg (by decide)]
      exact hrestored
    · have hpath : p'.length ≤ labels.length := by
        obtain ⟨n', ok', t', -, -, -, -, hlist⟩ := hdeficit
        have hle := length_path_le p'
        rw [← hlist, toList_plug, List.length_append, List.length_append]
        omega
      rw [if_pos hcolor, hparent]
      exact (removeFixUp_restores fuel hdeficit (Or.inr (by omega)) (by omega)).of_sameNodes hsame
  obtain ⟨s₂, root₂, t, hrun, hf₂, hb₂, hlist, hsame⟩ := hfixed
  have hdel : delObj s₂ a.addr = some { s₂ with heap := Function.update s₂.heap a.addr none } := by
    have hthere : (s₂.heap a.addr).isSome := by
      rw [hsame a.addr, hf.tree.2.1]
      rfl
    obtain ⟨na, hna⟩ := Option.isSome_iff_exists.mp hthere
    rw [delObj, hna, Option.map_some]
  have haway : ∀ q ∈ addrs t, Function.update s₂.heap a.addr none q = s₂.heap q := by
    intro q hq
    apply Function.update_of_ne
    rintro rfl
    rw [addrs, hlist] at hq
    exact hnot hq
  refine ⟨{ s₂ with heap := Function.update s₂.heap a.addr none }, root₂, t, ?_,
    ⟨hf₂.tree.congr haway, trivial, hf₂.nodup, hf₂.root_eq⟩, hb₂, hlist, ?_⟩
  · simp [removeNode, hsplice, hrun, hdel]
  · intro q
    by_cases hq : q = a.addr
    · simp [hq]
    · simp [hq, hsame q]

/-- Removing a key: without an entry of that key nothing changes; otherwise one
such entry disappears, its node is freed, and what is left is again a red-black
tree with agreeing links. In particular no loop runs out and no null reference is
followed. -/
theorem remove_spec [LinearOrder T] (fuel : Nat) (s : State T TV) (t : RedBlack.Tree (Label T TV))
    (k : T) (hs : IsMap s t) (hsort : t.toList.Pairwise fun a b => a.key ≤ b.key)
    (hfuel : t.toList.length < fuel) :
    ((∀ a ∈ t.toList, a.key ≠ k) → remove fuel s k = some s) ∧
      ((∃ a ∈ t.toList, a.key = k) → ∃ s' t' l₁ a l₂, remove fuel s k = some s' ∧ IsMap s' t' ∧
        a.key = k ∧ t.toList = l₁ ++ a :: l₂ ∧ t'.toList = l₁ ++ l₂ ∧
        ∀ q, (s'.heap q).isSome = ((s.heap q).isSome && q != a.addr)) := by
  obtain ⟨x, hx, hfinds⟩ := search_finds k hs hsort hfuel
  rcases hfinds with ⟨a, ha, hk, rfl⟩ | ⟨hnone, rfl⟩
  · refine ⟨fun hno => absurd hk (hno a ha), fun _ => ?_⟩
    obtain ⟨c, l, r, p, hplug⟩ := exists_focus ha []
    change plug (.node c l a r) p = t at hplug
    have hroot : Focus s.heap s.mRoot (plug (.node c l a r) p) [] := by
      rw [hplug]
      exact ⟨hs.rep, trivial, by simpa [pathAddrs] using hs.nodup, hs.root_eq⟩
    have hf := hroot.ofRoot
    rw [← hplug] at hfuel
    obtain ⟨s', root', t', hrun, hf', hb', hlist', hdom⟩ :=
      removeNode_spec hf (by rw [hplug]; exact hs.balanced) hfuel
    refine ⟨{ s' with mRoot := root' }, t', before p ++ l.toList, a, r.toList ++ after p, ?_, ?_, hk, ?_,
      ?_, hdom⟩
    · simp [remove, hx, hf.tree.1, hrun]
    · exact ⟨hf'.tree, hf'.root_eq, by simpa [pathAddrs] using hf'.nodup, hb'⟩
    · rw [← hplug, toList_plug]
      simp
    · simpa using hlist'
  · refine ⟨fun _ => ?_, ?_⟩
    · simp [remove, hx]
    · rintro ⟨a, ha, hk⟩
      exact absurd hk (hnone a ha)

/-- A map with two entries under one key, from which that key is removed. -/
theorem remove_spec_two :
    let s : State ℕ ℕ := ⟨Function.update (Function.update (fun _ => none)
      7 (some ⟨2, 10, .black, 0, 9, 0⟩)) 9 (some ⟨2, 30, .red, 0, 0, 7⟩), 7⟩
    let t : RedBlack.Tree (Label ℕ ℕ) :=
      .node .black .nil ⟨7, 2, 10⟩ (.node .red .nil ⟨9, 2, 30⟩ .nil)
    ((∀ a ∈ t.toList, a.key ≠ 2) → remove 3 s 2 = some s) ∧
      ((∃ a ∈ t.toList, a.key = 2) → ∃ s' t' l₁ a l₂, remove 3 s 2 = some s' ∧ IsMap s' t' ∧
        a.key = 2 ∧ t.toList = l₁ ++ a :: l₂ ∧ t'.toList = l₁ ++ l₂ ∧
        ∀ q, (s'.heap q).isSome = ((s.heap q).isSome && q != a.addr)) := by
  intro s t
  apply remove_spec
  · refine ⟨?_, rfl, by simp [t, addrs], 1, .black .nil (.red .nil .nil)⟩
    simp [t, s, Rep, Label.cell]
  · simp [t]
  · simp [t]

end Dogee.DMap
