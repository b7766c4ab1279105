import Dogee.Address
import Dogee.RedBlack
import Mathlib.Logic.Function.Basic
import Mathlib.Order.Defs.LinearOrder

/-!
# Ordered maps in shared memory

`DMap` keeps a red-black tree whose nodes are shared objects linked by object
keys in both directions. The functions below follow the source field access by
field access; reading or writing a field through a key that names no node is
`none`. The two loops take a fuel argument and are `none` when it runs out.

The proofs describe the heap by a focus and its path: `Rep` relates a subtree
to its cells and `PathRep` the frames above it. Each rotation is one step on
such a pair, and the repair loop moves the focus towards the root.
-/

namespace Dogee.DMap

open RedBlack

/-- A node of the tree. The null reference is the key `0`. -/
structure RBTNode (T TV : Type) where
  key : T
  value : TV
  color : Color
  left : ObjectKey
  right : ObjectKey
  parent : ObjectKey

/-- The nodes in shared memory and the map's own field `mRoot`. -/
structure State (T TV : Type) where
  heap : ObjectKey → Option (RBTNode T TV)
  mRoot : ObjectKey

variable {T TV : Type}

namespace State

/-- Replace the node at `p`. -/
def set (s : State T TV) (p : ObjectKey) (n : RBTNode T TV) : State T TV :=
  { s with heap := Function.update s.heap p (some n) }

/-- Write fields of the node at `p`. -/
def modify (s : State T TV) (p : ObjectKey) (f : RBTNode T TV → RBTNode T TV) :
    Option (State T TV) :=
  (s.heap p).map fun n => s.set p (f n)

def setColor (s : State T TV) (p : ObjectKey) (c : Color) : Option (State T TV) :=
  s.modify p fun n => { n with color := c }

def setLeft (s : State T TV) (p q : ObjectKey) : Option (State T TV) :=
  s.modify p fun n => { n with left := q }

def setRight (s : State T TV) (p q : ObjectKey) : Option (State T TV) :=
  s.modify p fun n => { n with right := q }

def setParent (s : State T TV) (p q : ObjectKey) : Option (State T TV) :=
  s.modify p fun n => { n with parent := q }

end State

/-- `if (c != nullptr) c->parent = p`. -/
def adopt (s : State T TV) (c p : ObjectKey) : Option (State T TV) :=
  if c ≠ 0 then s.setParent c p else some s

/-- Put `y` in the place of `x` under `xv`, looking at the left link first; a
node without a parent is the root, which the caller and the map both refer to. -/
def relinkLeftFirst (s : State T TV) (root xv x y : ObjectKey) :
    Option (State T TV × ObjectKey) :=
  if xv = 0 then some ({ s with mRoot := y }, y)
  else do
    if (← s.heap xv).left = x then (s.setLeft xv y).map (·, root)
    else (s.setRight xv y).map (·, root)

/-- The same, looking at the right link first. -/
def relinkRightFirst (s : State T TV) (root xv x y : ObjectKey) :
    Option (State T TV × ObjectKey) :=
  if xv = 0 then some ({ s with mRoot := y }, y)
  else do
    if (← s.heap xv).right = x then (s.setRight xv y).map (·, root)
    else (s.setLeft xv y).map (·, root)

/-- Rotate `x` down to the left; `root` is the caller's reference to the root. -/
def leftRotate (s : State T TV) (root x : ObjectKey) : Option (State T TV × ObjectKey) := do
  let y := (← s.heap x).right
  let yv := (← s.heap y).left
  let s ← s.setRight x yv
  let s ← adopt s (← s.heap y).left x
  let xv := (← s.heap x).parent
  let s ← s.setParent y xv
  let (s, root) ← relinkLeftFirst s root xv x y
  let s ← s.setLeft y x
  let s ← s.setParent x y
  return (s, root)

/-- Rotate `y` down to the right; `root` is the caller's reference to the root. -/
def rightRotate (s : State T TV) (root y : ObjectKey) : Option (State T TV × ObjectKey) := do
  let x := (← s.heap y).left
  let tempv := (← s.heap x).right
  let s ← s.setLeft y tempv
  let s ← adopt s (← s.heap x).right y
  let yv := (← s.heap y).parent
  let s ← s.setParent x yv
  let (s, root) ← relinkRightFirst s root yv y x
  let s ← s.setRight x y
  let s ← s.setParent y x
  return (s, root)

/-- `uncle != nullptr && rb_is_red(uncle)`. -/
def isRedRef (s : State T TV) (p : ObjectKey) : Option Bool :=
  if p = 0 then some false else (s.heap p).map fun n => n.color == .red

/-- The repair loop after an insertion; at its end the root is painted black. -/
def insertFixUp : Nat → State T TV → ObjectKey → ObjectKey → Option (State T TV × ObjectKey)
  | 0, _, _, _ => none
  | fuel + 1, s, root, node => do
      let parent := (← s.heap node).parent
      if !(← isRedRef s parent) then
        return (← s.setColor root .black, root)
      else
        let gparent := (← s.heap parent).parent
        if parent = (← s.heap gparent).left then
          let uncle := (← s.heap gparent).right
          if ← isRedRef s uncle then
            let s ← s.setColor uncle .black
            let s ← s.setColor parent .black
            let s ← s.setColor gparent .red
            insertFixUp fuel s root gparent
          else
            let (s, root, parent, node) ←
              if (← s.heap parent).right = node then
                (leftRotate s root parent).map fun r => (r.1, r.2, node, parent)
              else some (s, root, parent, node)
            let s ← s.setColor parent .black
            let s ← s.setColor gparent .red
            let (s, root) ← rightRotate s root gparent
            insertFixUp fuel s root node
        else
          let uncle := (← s.heap gparent).left
          if ← isRedRef s uncle then
            let s ← s.setColor uncle .black
            let s ← s.setColor parent .black
            let s ← s.setColor gparent .red
            insertFixUp fuel s root gparent
          else
            let (s, root, parent, node) ←
              if (← s.heap parent).left = node then
                (rightRotate s root parent).map fun r => (r.1, r.2, node, parent)
              else some (s, root, parent, node)
            let s ← s.setColor parent .black
            let s ← s.setColor gparent .red
            let (s, root) ← leftRotate s root gparent
            insertFixUp fuel s root node

section Insert

variable [LinearOrder T]

/-- The descent of `insertNode`: from `x` with `y` the node last passed, to the
node under which `node` is to be linked. -/
def findParent (s : State T TV) (node : ObjectKey) :
    Nat → ObjectKey → ObjectKey → Option ObjectKey
  | 0, _, _ => none
  | fuel + 1, y, x =>
      if x = 0 then some y
      else do
        if (← s.heap node).key < (← s.heap x).key then
          findParent s node fuel x (← s.heap x).left
        else
          findParent s node fuel x (← s.heap x).right

/-- The part of `insertNode` that hangs the node below `y` and paints it red. -/
def linkNode (s : State T TV) (root node y : ObjectKey) : Option (State T TV × ObjectKey) := do
  let s ← s.setParent node y
  let (s, root) ←
    if y ≠ 0 then do
      if (← s.heap node).key < (← s.heap y).key then (s.setLeft y node).map (·, root)
      else (s.setRight y node).map (·, root)
    else some (s, node)
  let s ← s.setColor node .red
  return (s, root)

/-- Link a node into the search tree, paint it red and repair. -/
def insertNode (fuel : Nat) (s : State T TV) (root node : ObjectKey) :
    Option (State T TV × ObjectKey) := do
  let y ← findParent s node fuel 0 root
  let (s, root) ← linkNode s root node y
  insertFixUp fuel s root node

/-- `NewObj`: the allocator hands out a nonzero key that names no object. -/
def newObj (s : State T TV) (z : ObjectKey) (n : RBTNode T TV) : Option (State T TV) :=
  if z = 0 ∨ (s.heap z).isSome then none else some (s.set z n)

/-- Insert a pair, with `z` the key the allocator gives the new node. -/
def insert (fuel : Nat) (s : State T TV) (z : ObjectKey) (key : T) (value : TV) :
    Option (State T TV) := do
  let s ← newObj s z ⟨key, value, .black, 0, 0, 0⟩
  let (s, outroot) ← insertNode fuel s s.mRoot z
  return { s with mRoot := outroot }

end Insert

/-! ## Single writes -/

/-- Write fields of one node of a heap. -/
def alter (h : ObjectKey → Option (RBTNode T TV)) (p : ObjectKey)
    (f : RBTNode T TV → RBTNode T TV) : ObjectKey → Option (RBTNode T TV) := fun q =>
  if q = p then (h q).map f else h q

@[simp] theorem alter_self (h : ObjectKey → Option (RBTNode T TV)) (p : ObjectKey)
    (f : RBTNode T TV → RBTNode T TV) : alter h p f p = (h p).map f := by
  simp [alter]

theorem alter_of_ne {h : ObjectKey → Option (RBTNode T TV)} {p q : ObjectKey} (hne : q ≠ p)
    (f : RBTNode T TV → RBTNode T TV) : alter h p f q = h q := by
  simp [alter, hne]

@[simp] theorem isSome_alter (h : ObjectKey → Option (RBTNode T TV)) (p q : ObjectKey)
    (f : RBTNode T TV → RBTNode T TV) : (alter h p f q).isSome = (h q).isSome := by
  unfold alter
  split <;> simp

theorem State.modify_eq {s : State T TV} {p : ObjectKey} (hp : (s.heap p).isSome)
    (f : RBTNode T TV → RBTNode T TV) : s.modify p f = some { s with heap := alter s.heap p f } := by
  obtain ⟨n, hn⟩ := Option.isSome_iff_exists.mp hp
  simp only [State.modify, State.set, hn, Option.map_some, Option.some.injEq, State.mk.injEq, and_true]
  funext q
  by_cases hq : q = p
  · subst hq
    simp [hn]
  · rw [Function.update_of_ne hq, alter_of_ne hq]

/-- The heap after `adopt`. -/
def adoptHeap (h : ObjectKey → Option (RBTNode T TV)) (c p : ObjectKey) :
    ObjectKey → Option (RBTNode T TV) :=
  if c = 0 then h else alter h c fun n => { n with parent := p }

/-- The heap after `relink`. -/
def relinkHeap (h : ObjectKey → Option (RBTNode T TV)) (parent node child : ObjectKey) :
    ObjectKey → Option (RBTNode T TV) :=
  if parent = 0 then h
  else alter h parent fun n =>
    if n.left = node then { n with left := child } else { n with right := child }

@[simp] theorem isSome_adoptHeap (h : ObjectKey → Option (RBTNode T TV)) (c p q : ObjectKey) :
    (adoptHeap h c p q).isSome = (h q).isSome := by
  unfold adoptHeap
  split <;> simp

@[simp] theorem isSome_relinkHeap (h : ObjectKey → Option (RBTNode T TV))
    (parent node child q : ObjectKey) : (relinkHeap h parent node child q).isSome = (h q).isSome := by
  unfold relinkHeap
  split <;> simp

theorem adoptHeap_of_ne {h : ObjectKey → Option (RBTNode T TV)} {c p q : ObjectKey} (hne : q ≠ c) :
    adoptHeap h c p q = h q := by
  unfold adoptHeap
  split
  · rfl
  · exact alter_of_ne hne _

theorem adoptHeap_zero (h : ObjectKey → Option (RBTNode T TV)) (c p : ObjectKey) : adoptHeap h c p 0 = h 0 := by
  unfold adoptHeap
  split
  · rfl
  · rename_i h0
    exact alter_of_ne (Ne.symm h0) _

theorem adoptHeap_congr {h g : ObjectKey → Option (RBTNode T TV)} {c p q : ObjectKey}
    (heq : g q = h q) : adoptHeap g c p q = adoptHeap h c p q := by
  unfold adoptHeap
  split
  · exact heq
  · simp only [alter, heq]

theorem relinkHeap_of_ne {h : ObjectKey → Option (RBTNode T TV)} {parent node child q : ObjectKey}
    (hne : q ≠ parent) : relinkHeap h parent node child q = h q := by
  unfold relinkHeap
  split
  · rfl
  · exact alter_of_ne hne _

theorem relinkHeap_zero (h : ObjectKey → Option (RBTNode T TV)) (parent node child : ObjectKey) :
    relinkHeap h parent node child 0 = h 0 := by
  unfold relinkHeap
  split
  · rfl
  · rename_i h0
    exact alter_of_ne (Ne.symm h0) _

theorem adopt_eq {s : State T TV} {c p : ObjectKey} (hc : c ≠ 0 → (s.heap c).isSome) :
    adopt s c p = some { s with heap := adoptHeap s.heap c p } := by
  unfold adopt adoptHeap
  by_cases h0 : c = 0
  · simp [h0]
  · rw [if_pos h0, if_neg h0]
    exact State.modify_eq (hc h0) _

/-- The side is read once, before the write. -/
theorem link_eq {s : State T TV} {parent : ObjectKey} {n : RBTNode T TV} (hn : s.heap parent = some n)
    (h0 : parent ≠ 0) (node child : ObjectKey) :
    (if n.left = node then s.setLeft parent child else s.setRight parent child) =
      some { s with heap := relinkHeap s.heap parent node child } := by
  have hwrite : ∀ f : RBTNode T TV → RBTNode T TV,
      (f n = if n.left = node then { n with left := child } else { n with right := child }) →
      s.modify parent f = some { s with heap := relinkHeap s.heap parent node child } := by
    intro f hfn
    rw [State.modify_eq (by rw [hn]; rfl), Option.some.injEq, State.mk.injEq, relinkHeap, if_neg h0]
    refine ⟨funext fun q => ?_, rfl⟩
    by_cases hq : q = parent
    · rw [hq, alter_self, alter_self, hn, Option.map_some, Option.map_some, hfn]
    · rw [alter_of_ne hq, alter_of_ne hq]
  split
  · rename_i hside
    exact hwrite _ (if_pos hside).symm
  · rename_i hside
    exact hwrite _ (if_neg hside).symm

theorem relinkLeftFirst_eq {s : State T TV} {xv x y : ObjectKey} (root : ObjectKey)
    (hp : xv ≠ 0 → (s.heap xv).isSome) :
    relinkLeftFirst s root xv x y =
      some (⟨relinkHeap s.heap xv x y, if xv = 0 then y else s.mRoot⟩, if xv = 0 then y else root) := by
  unfold relinkLeftFirst
  by_cases h0 : xv = 0
  · simp [relinkHeap, h0]
  · obtain ⟨n, hn⟩ := Option.isSome_iff_exists.mp (hp h0)
    have hlink := link_eq hn h0 x y
    rw [if_neg h0, hn]
    simpa [h0, apply_ite] using congrArg (Option.map (·, root)) hlink

/-! ## Rotations on the heap -/

/-- The heap after `x`, with right child `y`, has been rotated down to the left. -/
def rotatedLeft (h : ObjectKey → Option (RBTNode T TV)) (x y : ObjectKey) (nx ny : RBTNode T TV) :
    ObjectKey → Option (RBTNode T TV) := fun q =>
  if q = x then some { nx with right := ny.left, parent := y }
  else if q = y then some { ny with left := x, parent := nx.parent }
  else if q = 0 then h q
  else if q = ny.left then (h q).map fun n => { n with parent := x }
  else if q = nx.parent then
    (h q).map fun n => if n.left = x then { n with left := y } else { n with right := y }
  else h q

theorem leftRotate_heap {s : State T TV} {x y : ObjectKey} {nx ny : RBTNode T TV} (root : ObjectKey)
    (hx : s.heap x = some nx) (hy : s.heap y = some ny) (hxy : nx.right = y) (hne : x ≠ y)
    (hl : ny.left ≠ 0 → ∃ n, s.heap ny.left = some n) (hlx : ny.left ≠ x) (hly : ny.left ≠ y)
    (hp : nx.parent ≠ 0 → ∃ n, s.heap nx.parent = some n) (hpx : nx.parent ≠ x)
    (hpy : nx.parent ≠ y) (hpl : nx.parent ≠ 0 → nx.parent ≠ ny.left) :
    ∃ s', leftRotate s root x = some (s', if nx.parent = 0 then y else root) ∧
      s'.heap = rotatedLeft s.heap x y nx ny := by
  have hxsome : (s.heap x).isSome := by rw [hx]; rfl
  have hysome : (s.heap y).isSome := by rw [hy]; rfl
  have hlsome : ny.left ≠ 0 → (s.heap ny.left).isSome := fun h => Option.isSome_iff_exists.mpr (hl h)
  have hpsome : nx.parent ≠ 0 → (s.heap nx.parent).isSome := fun h => Option.isSome_iff_exists.mpr (hp h)
  have hright := State.modify_eq hxsome fun n => { n with right := ny.left }
  have hy₁ : alter s.heap x (fun n => { n with right := ny.left }) y = some ny := by
    rw [alter_of_ne hne.symm, hy]
  have hx₂ : adoptHeap (alter s.heap x fun n => { n with right := ny.left }) ny.left x x =
      some { nx with right := ny.left } := by
    rw [adoptHeap_of_ne hlx.symm, alter_self, hx]
    rfl
  refine ⟨⟨alter (alter (relinkHeap (alter (adoptHeap (alter s.heap x fun n => { n with right := ny.left })
    ny.left x) y fun n => { n with parent := nx.parent }) nx.parent x y) y fun n => { n with left := x }) x
    fun n => { n with parent := y }, if nx.parent = 0 then y else s.mRoot⟩, ?_, ?_⟩
  · simp only [leftRotate, hx, hy, hxy, Option.bind_eq_bind, Option.bind_some, State.setRight, hright, hy₁]
    rw [adopt_eq (by simpa using hlsome), Option.bind_some]
    simp only [hx₂, Option.bind_some, State.setParent]
    rw [State.modify_eq (by simpa using hysome), Option.bind_some, relinkLeftFirst_eq root (by simpa using hpsome),
      Option.bind_some]
    simp only [State.setLeft]
    rw [State.modify_eq (by simpa using hysome), Option.bind_some, State.modify_eq (by simpa using hxsome)]
    rfl
  · funext q
    dsimp only
    by_cases hqx : q = x
    · rw [hqx, alter_self, alter_of_ne hne, relinkHeap_of_ne hpx.symm, alter_of_ne hne, hx₂, rotatedLeft, if_pos rfl]
      rfl
    · by_cases hqy : q = y
      · rw [hqy, alter_of_ne hne.symm, alter_self, relinkHeap_of_ne hpy.symm, alter_self, adoptHeap_of_ne hly.symm,
          hy₁, rotatedLeft, if_neg hne.symm, if_pos rfl]
        rfl
      · -- beside the two, only the child that moves over and the parent are written
        have hadopt : adoptHeap (alter s.heap x fun n => { n with right := ny.left }) ny.left x q =
            adoptHeap s.heap ny.left x q := adoptHeap_congr (alter_of_ne hqx _)
        rw [alter_of_ne hqx, alter_of_ne hqy, rotatedLeft, if_neg hqx, if_neg hqy]
        by_cases hq0 : q = 0
        · subst hq0
          rw [if_pos rfl, relinkHeap_zero, alter_of_ne hqy, hadopt, adoptHeap_zero]
        · rw [if_neg hq0]
          by_cases hqp : q = nx.parent
          · subst hqp
            rw [relinkHeap, if_neg hq0, alter_self, alter_of_ne hqy, hadopt, adoptHeap_of_ne (hpl hq0), if_neg (hpl hq0),
              if_pos rfl]
          · rw [relinkHeap_of_ne hqp, alter_of_ne hqy, hadopt, if_neg hqp]
            by_cases hql : q = ny.left
            · subst hql
              rw [adoptHeap, if_neg hq0, alter_self, if_pos rfl]
            · rw [adoptHeap_of_ne hql, if_neg hql]

/-- A node with its two children exchanged. -/
def RBTNode.mirror (n : RBTNode T TV) : RBTNode T TV := { n with left := n.right, right := n.left }

/-- The state with left and right exchanged in every node. -/
def State.mirror (s : State T TV) : State T TV := { s with heap := fun q => (s.heap q).map RBTNode.mirror }

@[simp] theorem State.mirror_mirror (s : State T TV) : s.mirror.mirror = s := by
  cases s with
  | mk heap mRoot =>
      simp only [State.mirror, Option.map_map]
      congr 1
      funext q
      exact congrFun Option.map_id (heap q)

theorem State.mirror_heap (s : State T TV) (q : ObjectKey) :
    s.mirror.heap q = (s.heap q).map RBTNode.mirror := rfl

theorem State.mirror_set (s : State T TV) (p : ObjectKey) (n : RBTNode T TV) :
    s.mirror.set p n = (s.set p n.mirror).mirror := by
  simp only [State.mirror, State.set, State.mk.injEq, and_true]
  funext q
  by_cases h : q = p
  · subst h
    simp
    rfl
  · simp [Function.update_of_ne h]

theorem State.mirror_modify (s : State T TV) (p : ObjectKey) (f g : RBTNode T TV → RBTNode T TV)
    (h : ∀ n, f (RBTNode.mirror n) = (g n).mirror) :
    s.mirror.modify p f = (s.modify p g).map State.mirror := by
  cases hn : s.heap p with
  | none => simp [State.modify, State.mirror_heap, hn]
  | some n =>
      simp only [State.modify, State.mirror_heap, hn, Option.map_some, State.mirror_set, h]
      rfl

theorem State.mirror_setLeft (s : State T TV) (p q : ObjectKey) :
    s.mirror.setLeft p q = (s.setRight p q).map State.mirror :=
  State.mirror_modify s p _ _ fun _ => rfl

theorem State.mirror_setRight (s : State T TV) (p q : ObjectKey) :
    s.mirror.setRight p q = (s.setLeft p q).map State.mirror :=
  State.mirror_modify s p _ _ fun _ => rfl

theorem State.mirror_setParent (s : State T TV) (p q : ObjectKey) :
    s.mirror.setParent p q = (s.setParent p q).map State.mirror :=
  State.mirror_modify s p _ _ fun _ => rfl

theorem mirror_adopt (s : State T TV) (c p : ObjectKey) :
    adopt s.mirror c p = (adopt s c p).map State.mirror := by
  unfold adopt
  split
  · exact State.mirror_setParent s c p
  · rfl

theorem mirror_relink (s : State T TV) (root xv x y : ObjectKey) :
    relinkLeftFirst s.mirror root xv x y =
      (relinkRightFirst s root xv x y).map fun r => (r.1.mirror, r.2) := by
  unfold relinkLeftFirst relinkRightFirst
  split
  · rfl
  · cases hn : s.heap xv with
    | none => simp [State.mirror_heap, hn]
    | some n =>
        by_cases hside : n.right = x
        · simp [State.mirror_heap, hn, RBTNode.mirror, hside, State.mirror_setLeft, Function.comp_def]
        · simp [State.mirror_heap, hn, RBTNode.mirror, hside, State.mirror_setRight, Function.comp_def]

/-- The right rotation is the left rotation with left and right exchanged. -/
theorem rightRotate_eq_mirror (s : State T TV) (root y : ObjectKey) :
    rightRotate s root y =
      (leftRotate s.mirror root y).map fun r => (r.1.mirror, r.2) := by
  simp [leftRotate, rightRotate, State.mirror_heap, State.mirror_setRight, State.mirror_setLeft, RBTNode.mirror,
    mirror_adopt, mirror_relink, State.mirror_setParent, Function.comp_def, Option.map_bind, Option.bind_map]

end Dogee.DMap
