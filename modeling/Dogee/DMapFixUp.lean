import Dogee.DMapFocus

/-!
# The repair after a removal

When a black node has been taken out, the subtree in its place is one black node
short. `removeFixUp` moves this deficit towards the root until a red node can be
painted black or a rotation brings a black node in. The sibling of a short
subtree always has a black node, so that it is never null.
-/

namespace Dogee.DMap

open RedBlack

variable {T TV : Type}

/-- `!node || rb_is_black(node)` -/
def isBlackRef (s : State T TV) (p : ObjectKey) : Option Bool :=
  if p = 0 then some true else (s.heap p).map fun n => n.color == .black

/-- `if (node) rb_set_black(node)` -/
def blackenRef (s : State T TV) (p : ObjectKey) : Option (State T TV) :=
  if p ≠ 0 then s.setColor p .black else some s

/-- The two children of `other` are null or black. -/
def childrenBlack (s : State T TV) (other : ObjectKey) : Option Bool := do
  if ← isBlackRef s (← s.heap other).left then isBlackRef s (← s.heap other).right else some false

/-- Case 1 on the left: a red sibling is rotated up. -/
def leftCase1 (s : State T TV) (root parent other : ObjectKey) :
    Option (State T TV × ObjectKey × ObjectKey) := do
  if (← s.heap other).color = .red then
    let s ← s.setColor other .black
    let s ← s.setColor parent .red
    let (s, root) ← leftRotate s root parent
    return (s, root, (← s.heap parent).right)
  else return (s, root, other)

/-- Case 3 on the left: the sibling's red left child is rotated up. -/
def leftCase3 (s : State T TV) (root parent other : ObjectKey) :
    Option (State T TV × ObjectKey × ObjectKey) := do
  if ← isBlackRef s (← s.heap other).right then
    let s ← s.setColor (← s.heap other).left .black
    let s ← s.setColor other .red
    let (s, root) ← rightRotate s root other
    return (s, root, (← s.heap parent).right)
  else return (s, root, other)

/-- Case 4 on the left: the sibling is rotated up and the repair ends. -/
def leftCase4 (s : State T TV) (root parent other : ObjectKey) :
    Option (State T TV × ObjectKey) := do
  let s ← s.setColor other (← s.heap parent).color
  let s ← s.setColor parent .black
  let s ← s.setColor (← s.heap other).right .black
  leftRotate s root parent

/-- Cases 2 to 4 on the left; the result says whether the loop goes on, with the
parent as its node. -/
def leftCases (s : State T TV) (root parent other : ObjectKey) :
    Option (State T TV × ObjectKey × Bool) := do
  if ← childrenBlack s other then
    return (← s.setColor other .red, root, true)
  else
    let (s, root, other) ← leftCase3 s root parent other
    let (s, root) ← leftCase4 s root parent other
    return (s, root, false)

/-- One pass of the loop with the node on the left of its parent. -/
def fixLeft (s : State T TV) (root parent : ObjectKey) :
    Option (State T TV × ObjectKey × Bool) := do
  let (s, root, other) ← leftCase1 s root parent (← s.heap parent).right
  leftCases s root parent other

/-- Case 1 on the right. -/
def rightCase1 (s : State T TV) (root parent other : ObjectKey) :
    Option (State T TV × ObjectKey × ObjectKey) := do
  if (← s.heap other).color = .red then
    let s ← s.setColor other .black
    let s ← s.setColor parent .red
    let (s, root) ← rightRotate s root parent
    return (s, root, (← s.heap parent).left)
  else return (s, root, other)

/-- Case 3 on the right. -/
def rightCase3 (s : State T TV) (root parent other : ObjectKey) :
    Option (State T TV × ObjectKey × ObjectKey) := do
  if ← isBlackRef s (← s.heap other).left then
    let s ← s.setColor (← s.heap other).right .black
    let s ← s.setColor other .red
    let (s, root) ← leftRotate s root other
    return (s, root, (← s.heap parent).left)
  else return (s, root, other)

/-- Case 4 on the right. -/
def rightCase4 (s : State T TV) (root parent other : ObjectKey) :
    Option (State T TV × ObjectKey) := do
  let s ← s.setColor other (← s.heap parent).color
  let s ← s.setColor parent .black
  let s ← s.setColor (← s.heap other).left .black
  rightRotate s root parent

/-- Cases 2 to 4 on the right. -/
def rightCases (s : State T TV) (root parent other : ObjectKey) :
    Option (State T TV × ObjectKey × Bool) := do
  if ← childrenBlack s other then
    return (← s.setColor other .red, root, true)
  else
    let (s, root, other) ← rightCase3 s root parent other
    let (s, root) ← rightCase4 s root parent other
    return (s, root, false)

/-- One pass of the loop with the node on the right of its parent. -/
def fixRight (s : State T TV) (root parent : ObjectKey) :
    Option (State T TV × ObjectKey × Bool) := do
  let (s, root, other) ← rightCase1 s root parent (← s.heap parent).left
  rightCases s root parent other

/-- One pass of the loop. -/
def fixPass (s : State T TV) (root node parent : ObjectKey) :
    Option (State T TV × ObjectKey × Bool) := do
  if (← s.heap parent).left = node then fixLeft s root parent else fixRight s root parent

/-- The repair loop after a removal. A pass that ends the repair goes on with the
root as the node, which is painted black after the loop. -/
def removeFixUp : Nat → State T TV → ObjectKey → ObjectKey → ObjectKey →
    Option (State T TV × ObjectKey)
  | 0, _, _, _, _ => none
  | fuel + 1, s, root, node, parent => do
      if (← isBlackRef s node) && node ≠ root then
        let (s, root, again) ← fixPass s root node parent
        if again then removeFixUp fuel s root parent (← s.heap parent).parent
        else return (← blackenRef s root, root)
      else return (← blackenRef s node, root)

/-! ## The cases on a focus -/

theorem isBlackRef_short {s : State T TV} {q : ObjectKey} {c : Color} {n : Nat}
    {t : RedBlack.Tree (Label T TV)} (ht : Rep s.heap q t) (hb : Short c n t) :
    isBlackRef s (rootAddr t) = some (c == .black) := by
  cases hb with
  | red hl hr =>
      obtain ⟨hne, hcell, -, -⟩ := ht
      simp [isBlackRef, hne, hcell, Label.cell]
  | black hb =>
      cases hb with
      | nil => rfl
      | black hl hr =>
          obtain ⟨hne, hcell, -, -⟩ := ht
          simp [isBlackRef, hne, hcell, Label.cell]

theorem childrenBlack_eq {s : State T TV} {q : ObjectKey} {cl cr c : Color} {n : Nat}
    {l r : RedBlack.Tree (Label T TV)} {a : Label T TV} (ht : Rep s.heap q (.node c l a r))
    (hl : Balanced cl n l) (hr : Balanced cr n r) :
    childrenBlack s a.addr = some (cl == .black && cr == .black) := by
  obtain ⟨-, hcell, htl, htr⟩ := ht
  have hleft := isBlackRef_short htl hl.short
  have hright := isBlackRef_short htr hr.short
  cases cl <;> simp [childrenBlack, hcell, Label.cell, hleft, hright]

variable {s : State T TV} {root : ObjectKey} {cp : Color} {a b : Label T TV}
  {t : RedBlack.Tree (Label T TV)} {p : List (Frame (Label T TV))}

theorem leftCase1_red {ul ur : RedBlack.Tree (Label T TV)}
    (hf : Focus s.heap root (.node cp t a (.node .red ul b ur)) p) :
    ∃ s' root', leftCase1 s root a.addr b.addr = some (s', root', rootAddr ul) ∧
      Focus s'.heap root' (.node .black (.node .red t a ul) b ur) p ∧ SameNodes s s' := by
  obtain ⟨s₁, h₁, hf₁, hs₁⟩ := setColor_focus (focus_right_iff.mpr hf) .black
  obtain ⟨s₂, h₂, hf₂, hs₂⟩ := setColor_focus (focus_right_iff.mp hf₁) .red
  obtain ⟨s₃, root', h₃, hf₃, hs₃⟩ := leftRotate_focus hf₂
  refine ⟨s₃, root', ?_, hf₃, (hs₁.trans hs₂).trans hs₃⟩
  have hb : s.heap b.addr = some _ := hf.tree.2.2.2.2.1
  have ha : s₃.heap a.addr = some _ := hf₃.tree.2.2.1.2.1
  simp [leftCase1, hb, Label.cell, h₁, h₂, h₃, ha]

theorem leftCase4_focus {cb ce : Color} {wl l r : RedBlack.Tree (Label T TV)} {e : Label T TV}
    (hf : Focus s.heap root (.node cp t a (.node cb wl b (.node ce l e r))) p) :
    ∃ s' root', leftCase4 s root a.addr b.addr = some (s', root') ∧
      Focus s'.heap root' (.node cp (.node .black t a wl) b (.node .black l e r)) p ∧
      SameNodes s s' := by
  obtain ⟨s₁, h₁, hf₁, hs₁⟩ := setColor_focus (focus_right_iff.mpr hf) cp
  obtain ⟨s₂, h₂, hf₂, hs₂⟩ := setColor_focus (focus_right_iff.mp hf₁) .black
  obtain ⟨s₃, h₃, hf₃, hs₃⟩ :=
    setColor_focus (focus_right_iff.mpr (focus_right_iff.mpr hf₂)) .black
  obtain ⟨s₄, root', h₄, hf₄, hs₄⟩ :=
    leftRotate_focus (focus_right_iff.mp (focus_right_iff.mp hf₃))
  refine ⟨s₄, root', ?_, hf₄, ((hs₁.trans hs₂).trans hs₃).trans hs₄⟩
  have ha : s.heap a.addr = some _ := hf.tree.2.1
  have hb : s₂.heap b.addr = some _ := hf₂.tree.2.2.2.2.1
  simp [leftCase4, ha, Label.cell, h₁, h₂, hb, h₃, h₄]

/-- Case 3 leaves a sibling whose right child is red. -/
theorem leftCase3_inner {n : Nat} {l r wr : RedBlack.Tree (Label T TV)} {d : Label T TV}
    (hf : Focus s.heap root (.node cp t a (.node .black (.node .red l d r) b wr)) p)
    (hwr : Balanced .black n wr) :
    ∃ s' root', leftCase3 s root a.addr b.addr = some (s', root', d.addr) ∧
      Focus s'.heap root' (.node cp t a (.node .black l d (.node .red r b wr))) p ∧
      SameNodes s s' := by
  obtain ⟨s₁, h₁, hf₁, hs₁⟩ := setColor_focus (focus_left_iff.mpr (focus_right_iff.mpr hf)) .black
  obtain ⟨s₂, h₂, hf₂, hs₂⟩ := setColor_focus (focus_left_iff.mp hf₁) .red
  obtain ⟨s₃, root', h₃, hf₃, hs₃⟩ := rightRotate_focus hf₂
  refine ⟨s₃, root', ?_, focus_right_iff.mp hf₃, (hs₁.trans hs₂).trans hs₃⟩
  have hblack := isBlackRef_short hf.tree.2.2.2.2.2.2 hwr.short
  have hb : s.heap b.addr = some _ := hf.tree.2.2.2.2.1
  have ha : s₃.heap a.addr = some _ := hf₃.path.2.1
  simp [leftCase3, hb, Label.cell, hblack, h₁, h₂, h₃, ha]

theorem leftCase3_outer {c cb : Color} {wl l r : RedBlack.Tree (Label T TV)} {e : Label T TV}
    (hf : Focus s.heap root (.node c t a (.node cb wl b (.node .red l e r))) p) :
    leftCase3 s root a.addr b.addr = some (s, root, b.addr) := by
  obtain ⟨hb0, hb, -, he0, he, -⟩ := hf.tree.2.2.2
  simp [leftCase3, hb, Label.cell, isBlackRef, he0, he]

theorem rightCase1_red {ul ur : RedBlack.Tree (Label T TV)}
    (hf : Focus s.heap root (.node cp (.node .red ul b ur) a t) p) :
    ∃ s' root', rightCase1 s root a.addr b.addr = some (s', root', rootAddr ur) ∧
      Focus s'.heap root' (.node .black ul b (.node .red ur a t)) p ∧ SameNodes s s' := by
  obtain ⟨s₁, h₁, hf₁, hs₁⟩ := setColor_focus (focus_left_iff.mpr hf) .black
  obtain ⟨s₂, h₂, hf₂, hs₂⟩ := setColor_focus (focus_left_iff.mp hf₁) .red
  obtain ⟨s₃, root', h₃, hf₃, hs₃⟩ := rightRotate_focus hf₂
  refine ⟨s₃, root', ?_, hf₃, (hs₁.trans hs₂).trans hs₃⟩
  have hb : s.heap b.addr = some _ := hf.tree.2.2.1.2.1
  have ha : s₃.heap a.addr = some _ := hf₃.tree.2.2.2.2.1
  simp [rightCase1, hb, Label.cell, h₁, h₂, h₃, ha]

theorem rightCase4_focus {cb ce : Color} {wr l r : RedBlack.Tree (Label T TV)} {e : Label T TV}
    (hf : Focus s.heap root (.node cp (.node cb (.node ce l e r) b wr) a t) p) :
    ∃ s' root', rightCase4 s root a.addr b.addr = some (s', root') ∧
      Focus s'.heap root' (.node cp (.node .black l e r) b (.node .black wr a t)) p ∧
      SameNodes s s' := by
  obtain ⟨s₁, h₁, hf₁, hs₁⟩ := setColor_focus (focus_left_iff.mpr hf) cp
  obtain ⟨s₂, h₂, hf₂, hs₂⟩ := setColor_focus (focus_left_iff.mp hf₁) .black
  obtain ⟨s₃, h₃, hf₃, hs₃⟩ := setColor_focus (focus_left_iff.mpr (focus_left_iff.mpr hf₂)) .black
  obtain ⟨s₄, root', h₄, hf₄, hs₄⟩ := rightRotate_focus (focus_left_iff.mp (focus_left_iff.mp hf₃))
  refine ⟨s₄, root', ?_, hf₄, ((hs₁.trans hs₂).trans hs₃).trans hs₄⟩
  have ha : s.heap a.addr = some _ := hf.tree.2.1
  have hb : s₂.heap b.addr = some _ := hf₂.tree.2.2.1.2.1
  simp [rightCase4, ha, Label.cell, h₁, h₂, hb, h₃, h₄]

theorem rightCase3_inner {n : Nat} {l r wl : RedBlack.Tree (Label T TV)} {d : Label T TV}
    (hf : Focus s.heap root (.node cp (.node .black wl b (.node .red l d r)) a t) p)
    (hwl : Balanced .black n wl) :
    ∃ s' root', rightCase3 s root a.addr b.addr = some (s', root', d.addr) ∧
      Focus s'.heap root' (.node cp (.node .black (.node .red wl b l) d r) a t) p ∧
      SameNodes s s' := by
  obtain ⟨s₁, h₁, hf₁, hs₁⟩ := setColor_focus (focus_right_iff.mpr (focus_left_iff.mpr hf)) .black
  obtain ⟨s₂, h₂, hf₂, hs₂⟩ := setColor_focus (focus_right_iff.mp hf₁) .red
  obtain ⟨s₃, root', h₃, hf₃, hs₃⟩ := leftRotate_focus hf₂
  refine ⟨s₃, root', ?_, focus_left_iff.mp hf₃, (hs₁.trans hs₂).trans hs₃⟩
  have hblack := isBlackRef_short hf.tree.2.2.1.2.2.1 hwl.short
  have hb : s.heap b.addr = some _ := hf.tree.2.2.1.2.1
  have ha : s₃.heap a.addr = some _ := hf₃.path.2.1
  simp [rightCase3, hb, Label.cell, hblack, h₁, h₂, h₃, ha]

theorem rightCase3_outer {c cb : Color} {wr l r : RedBlack.Tree (Label T TV)} {e : Label T TV}
    (hf : Focus s.heap root (.node c (.node cb (.node .red l e r) b wr) a t) p) :
    rightCase3 s root a.addr b.addr = some (s, root, b.addr) := by
  obtain ⟨-, hb, ⟨he0, he, -⟩, -⟩ := hf.tree.2.2.1
  simp [rightCase3, hb, Label.cell, isBlackRef, he0, he]

/-! ## One pass -/

/-- The repair is over: the hole takes the subtree at the focus. -/
def Repaired (s : State T TV) (root : ObjectKey) (labels : List (Label T TV)) : Prop :=
  ∃ c n ok t p, Focus s.heap root t p ∧ Balanced c n t ∧ Fits ok n p ∧
    (ok = false → c = .black) ∧ (plug t p).toList = labels

/-- The subtree of `node`, at the hole of `p`, is one black node short. -/
def Deficit (s : State T TV) (root node : ObjectKey) (c : Color) (p : List (Frame (Label T TV)))
    (labels : List (Label T TV)) : Prop :=
  ∃ n ok t, Focus s.heap root t p ∧ rootAddr t = node ∧ Short c n t ∧ Fits ok (n + 1) p ∧
    (plug t p).toList = labels

/-- The hole takes a parent of colour `cp` whose children have black height `n`. -/
inductive Takes : Color → Nat → List (Frame (Label T TV)) → Prop
  | black {n ok p} : Fits ok (n + 1) p → Takes .black n p
  | red {n p} : Fits true n p → Takes .red n p

theorem Takes.repaired {n : Nat} {l r : RedBlack.Tree (Label T TV)} {labels : List (Label T TV)}
    (hp : Takes cp n p) (hf : Focus s.heap root (.node cp l a r) p) (hl : Balanced .black n l)
    (hr : Balanced .black n r) (hlabels : (plug (.node cp l a r) p).toList = labels) :
    Repaired s root labels := by
  cases hp with
  | black hp => exact ⟨_, _, _, _, _, hf, .black hl hr, hp, fun _ => rfl, hlabels⟩
  | red hp => exact ⟨_, _, _, _, _, hf, .red hl hr, hp, (fun h => by cases h), hlabels⟩

theorem Takes.deficit {n : Nat} {cl cr : Color} {l r : RedBlack.Tree (Label T TV)}
    {labels : List (Label T TV)} (hp : Takes cp (n + 1) p) (hf : Focus s.heap root (.node cp l a r) p)
    (hl : Balanced cl n l) (hr : Balanced cr n r)
    (hlabels : (plug (.node cp l a r) p).toList = labels) : Deficit s root a.addr cp p labels := by
  cases hp with
  | black hp => exact ⟨_, _, _, hf, rfl, .black (.black hl hr), hp, hlabels⟩
  | red hp => exact ⟨_, _, _, hf, rfl, .red hl hr, hp, hlabels⟩

/-- Below a black sibling: it is painted red and the deficit moves to the parent,
or a red child of it is rotated up and the repair is over. -/
theorem leftCases_focus {cl cr : Color} {n : Nat} {wl wr : RedBlack.Tree (Label T TV)}
    {labels : List (Label T TV)} (hf : Focus s.heap root (.node cp t a (.node .black wl b wr)) p)
    (ht : Balanced .black n t) (hl : Balanced cl n wl) (hr : Balanced cr n wr)
    (hp : Takes cp (n + 1) p)
    (hlabels : (plug (.node cp t a (.node .black wl b wr)) p).toList = labels) :
    ∃ s' root' again, leftCases s root a.addr b.addr = some (s', root', again) ∧ SameNodes s s' ∧
      (again = false ∧ Repaired s' root' labels ∨
        again = true ∧ Deficit s' root' a.addr cp p labels) := by
  have hchildren := childrenBlack_eq hf.tree.2.2.2 hl hr
  subst hlabels
  cases cr with
  | black =>
      cases cl with
      | black =>
          obtain ⟨s', hs', hf', hsame⟩ := setColor_focus (focus_right_iff.mpr hf) .red
          refine ⟨s', root, true, ?_, hsame, Or.inr ⟨rfl, ?_⟩⟩
          · simp [leftCases, hchildren, hs']
          · exact hp.deficit (focus_right_iff.mp hf') ht (.red hl hr) (by simp [toList_plug])
      | red =>
          obtain ⟨l, d, r, rfl, hl₁, hr₁⟩ := hl.red_cases
          obtain ⟨s₁, root₁, h₁, hf₁, hs₁⟩ := leftCase3_inner hf hr
          obtain ⟨s', root', h₂, hf₂, hs₂⟩ := leftCase4_focus hf₁
          refine ⟨s', root', false, ?_, hs₁.trans hs₂, Or.inl ⟨rfl, ?_⟩⟩
          · simp [leftCases, hchildren, h₁, h₂]
          · exact hp.repaired hf₂ (.black ht hl₁) (.black hr₁ hr) (by simp [toList_plug])
  | red =>
      obtain ⟨l, e, r, rfl, hl₁, hr₁⟩ := hr.red_cases
      obtain ⟨s', root', h₂, hf₂, hs₂⟩ := leftCase4_focus hf
      refine ⟨s', root', false, ?_, hs₂, Or.inl ⟨rfl, ?_⟩⟩
      · simp [leftCases, hchildren, leftCase3_outer hf, h₂]
      · exact hp.repaired hf₂ (.black ht hl) (.black hl₁ hr₁) (by simp [toList_plug])

theorem rightCases_focus {cl cr : Color} {n : Nat} {wl wr : RedBlack.Tree (Label T TV)}
    {labels : List (Label T TV)} (hf : Focus s.heap root (.node cp (.node .black wl b wr) a t) p)
    (ht : Balanced .black n t) (hl : Balanced cl n wl) (hr : Balanced cr n wr)
    (hp : Takes cp (n + 1) p)
    (hlabels : (plug (.node cp (.node .black wl b wr) a t) p).toList = labels) :
    ∃ s' root' again, rightCases s root a.addr b.addr = some (s', root', again) ∧ SameNodes s s' ∧
      (again = false ∧ Repaired s' root' labels ∨
        again = true ∧ Deficit s' root' a.addr cp p labels) := by
  have hchildren := childrenBlack_eq hf.tree.2.2.1 hl hr
  subst hlabels
  cases cl with
  | black =>
      cases cr with
      | black =>
          obtain ⟨s', hs', hf', hsame⟩ := setColor_focus (focus_left_iff.mpr hf) .red
          refine ⟨s', root, true, ?_, hsame, Or.inr ⟨rfl, ?_⟩⟩
          · simp [rightCases, hchildren, hs']
          · exact hp.deficit (focus_left_iff.mp hf') (.red hl hr) ht (by simp [toList_plug])
      | red =>
          obtain ⟨l, d, r, rfl, hl₁, hr₁⟩ := hr.red_cases
          obtain ⟨s₁, root₁, h₁, hf₁, hs₁⟩ := rightCase3_inner hf hl
          obtain ⟨s', root', h₂, hf₂, hs₂⟩ := rightCase4_focus hf₁
          refine ⟨s', root', false, ?_, hs₁.trans hs₂, Or.inl ⟨rfl, ?_⟩⟩
          · simp [rightCases, hchildren, h₁, h₂]
          · exact hp.repaired hf₂ (.black hl hl₁) (.black hr₁ ht) (by simp [toList_plug])
  | red =>
      obtain ⟨l, e, r, rfl, hl₁, hr₁⟩ := hl.red_cases
      obtain ⟨s', root', h₂, hf₂, hs₂⟩ := rightCase4_focus hf
      refine ⟨s', root', false, ?_, hs₂, Or.inl ⟨rfl, ?_⟩⟩
      · simp [rightCases, hchildren, rightCase3_outer hf, h₂]
      · exact hp.repaired hf₂ (.black hl₁ hr₁) (.black hr ht) (by simp [toList_plug])

/-- What a pass below the parent `a` achieves: the repair is over, or the deficit
is at the parent, with the path `p` above it or with a red root. -/
def PassDone (a : Label T TV) (p : List (Frame (Label T TV))) (labels : List (Label T TV))
    (s' : State T TV) (root' : ObjectKey) (again : Bool) : Prop :=
  again = false ∧ Repaired s' root' labels ∨
    again = true ∧ ∃ c q, (c = .red ∨ q = p) ∧ Deficit s' root' a.addr c q labels

/-- A pass with a short black node on the left. -/
theorem fixLeft_focus {n : Nat} {ok : Bool} {u : RedBlack.Tree (Label T TV)}
    (hf : Focus s.heap root t (.left cp a u :: p)) (ht : Balanced .black n t)
    (hp : Fits ok (n + 1) (.left cp a u :: p)) :
    ∃ s' root' again, fixLeft s root a.addr = some (s', root', again) ∧ SameNodes s s' ∧
      PassDone a p (plug t (.left cp a u :: p)).toList s' root' again := by
  have hup := focus_left_iff.mp hf
  have ha : s.heap a.addr = some _ := hup.tree.2.1
  -- a black sibling leaves the path as it is
  have hblack : ∀ {cl cr : Color} {wl wr : RedBlack.Tree (Label T TV)} {b : Label T TV},
      u = .node .black wl b wr → Balanced cl n wl → Balanced cr n wr → Takes cp (n + 1) p →
      ∃ s' root' again, fixLeft s root a.addr = some (s', root', again) ∧ SameNodes s s' ∧
        PassDone a p (plug t (.left cp a u :: p)).toList s' root' again := by
    rintro cl cr wl wr b rfl hl hr htakes
    obtain ⟨s', root', again, hrun, hsame, hdone⟩ := leftCases_focus hup ht hl hr htakes rfl
    have hb : s.heap b.addr = some _ := hup.tree.2.2.2.2.1
    refine ⟨s', root', again, ?_, hsame, hdone.imp id ?_⟩
    · simp [fixLeft, leftCase1, ha, Label.cell, hb, hrun]
    · exact fun h => ⟨h.1, _, _, Or.inr rfl, h.2⟩
  cases hp with
  | redLeft hu hne hp =>
      cases hu with
      | black hl hr => exact hblack rfl hl hr (.red hp)
  | blackLeft hu hp =>
      cases hu with
      | black hl hr => exact hblack rfl hl hr (.black hp)
      | @red _ ul b ur hul hur =>
          obtain ⟨s₁, root₁, h₁, hf₁, hs₁⟩ := leftCase1_red hup
          have hpath : Takes .red (n + 1) (.left .black b ur :: p) := .red (.blackLeft hur hp)
          cases hul with
          | @black _ _ _ wl d wr hl hr =>
              obtain ⟨s', root', again, hrun, hsame, hdone⟩ :=
                leftCases_focus (focus_left_iff.mpr hf₁) ht hl hr hpath rfl
              refine ⟨s', root', again, ?_, hs₁.trans hsame, ?_⟩
              · simp only [rootAddr_node] at h₁
                simp [fixLeft, ha, Label.cell, h₁, hrun]
              · have hlist : (plug (.node .red t a (.node .black wl d wr)) (.left .black b ur :: p)).toList =
                    (plug t (.left .black a (.node .red (.node .black wl d wr) b ur) :: p)).toList := by
                  simp [toList_plug, before, after]
                rw [hlist] at hdone
                exact hdone.imp id fun h => ⟨h.1, _, _, Or.inl rfl, h.2⟩

/-- A pass with a short black node on the right. -/
theorem fixRight_focus {n : Nat} {ok : Bool} {u : RedBlack.Tree (Label T TV)}
    (hf : Focus s.heap root t (.right cp u a :: p)) (ht : Balanced .black n t)
    (hp : Fits ok (n + 1) (.right cp u a :: p)) :
    ∃ s' root' again, fixRight s root a.addr = some (s', root', again) ∧ SameNodes s s' ∧
      PassDone a p (plug t (.right cp u a :: p)).toList s' root' again := by
  have hup := focus_right_iff.mp hf
  have ha : s.heap a.addr = some _ := hup.tree.2.1
  have hblack : ∀ {cl cr : Color} {wl wr : RedBlack.Tree (Label T TV)} {b : Label T TV},
      u = .node .black wl b wr → Balanced cl n wl → Balanced cr n wr → Takes cp (n + 1) p →
      ∃ s' root' again, fixRight s root a.addr = some (s', root', again) ∧ SameNodes s s' ∧
        PassDone a p (plug t (.right cp u a :: p)).toList s' root' again := by
    rintro cl cr wl wr b rfl hl hr htakes
    obtain ⟨s', root', again, hrun, hsame, hdone⟩ := rightCases_focus hup ht hl hr htakes rfl
    have hb : s.heap b.addr = some _ := hup.tree.2.2.1.2.1
    refine ⟨s', root', again, ?_, hsame, hdone.imp id ?_⟩
    · simp [fixRight, rightCase1, ha, Label.cell, hb, hrun]
    · exact fun h => ⟨h.1, _, _, Or.inr rfl, h.2⟩
  cases hp with
  | redRight hu hne hp =>
      cases hu with
      | black hl hr => exact hblack rfl hl hr (.red hp)
  | blackRight hu hp =>
      cases hu with
      | black hl hr => exact hblack rfl hl hr (.black hp)
      | @red _ ul b ur hul hur =>
          obtain ⟨s₁, root₁, h₁, hf₁, hs₁⟩ := rightCase1_red hup
          have hpath : Takes .red (n + 1) (.right .black ul b :: p) := .red (.blackRight hul hp)
          cases hur with
          | @black _ _ _ wl d wr hl hr =>
              obtain ⟨s', root', again, hrun, hsame, hdone⟩ :=
                rightCases_focus (focus_right_iff.mpr hf₁) ht hl hr hpath rfl
              refine ⟨s', root', again, ?_, hs₁.trans hsame, ?_⟩
              · simp only [rootAddr_node] at h₁
                simp [fixRight, ha, Label.cell, h₁, hrun]
              · have hlist : (plug (.node .red (.node .black wl d wr) a t) (.right .black ul b :: p)).toList =
                    (plug t (.right .black (.node .red ul b (.node .black wl d wr)) a :: p)).toList := by
                  simp [toList_plug, before, after]
                rw [hlist] at hdone
                exact hdone.imp id fun h => ⟨h.1, _, _, Or.inl rfl, h.2⟩

/-! ## The loop -/

/-- The repair has left a balanced tree with a black root and the given labels. -/
def Restored (s : State T TV) (labels : List (Label T TV)) (r : Option (State T TV × ObjectKey)) :
    Prop :=
  ∃ s' root' t, r = some (s', root') ∧ Focus s'.heap root' t [] ∧ (∃ m, Balanced .black m t) ∧
    t.toList = labels ∧ SameNodes s s'

theorem blackenRef_focus (hf : Focus s.heap root t p) :
    ∃ s', blackenRef s (rootAddr t) = some s' ∧ Focus s'.heap root t.blacken p ∧ SameNodes s s' := by
  cases t with
  | nil => exact ⟨s, rfl, hf, .refl s⟩
  | node c l a r =>
      obtain ⟨s', hs', hf', hsame⟩ := setColor_focus hf .black
      refine ⟨s', ?_, hf', hsame⟩
      simpa [blackenRef, hf.tree.1] using hs'

/-- Painting the root black after the last pass. -/
theorem Repaired.restored {labels : List (Label T TV)} (h : Repaired s root labels) :
    Restored s labels ((blackenRef s root).map (·, root)) := by
  obtain ⟨c, n, ok, t, p, hf, hb, hp, hok, rfl⟩ := h
  have hroot := hf.toRoot
  obtain ⟨s', hs', hf', hsame⟩ := blackenRef_focus hroot
  refine ⟨s', root, _, ?_, hf', hp.blacken_balanced hb hok, by simp, hsame⟩
  have hra : root = rootAddr (plug t p) := hroot.root_eq
  rw [← hra] at hs'
  rw [hs', Option.map_some]

theorem rootAddr_plug_mem (t : RedBlack.Tree (Label T TV)) (f : Frame (Label T TV))
    (p : List (Frame (Label T TV))) : rootAddr (plug t (f :: p)) ∈ pathAddrs (f :: p) := by
  induction p generalizing t f with
  | nil => cases f <;> simp [plug, pathAddrs]
  | cons g p ih =>
      cases f with
      | left c a r => exact List.mem_append_right _ (ih (.node c t a r) g)
      | right c l a => exact List.mem_append_right _ (ih (.node c l a t) g)

/-- Below the root a focus is not the root. -/
theorem Focus.ne_root {f : Frame (Label T TV)} (hf : Focus s.heap root t (f :: p)) :
    rootAddr t ≠ root := by
  have hmem := rootAddr_plug_mem t f p
  rw [← hf.root_eq] at hmem
  rcases rootAddr_eq_zero_or_mem t with hzero | hin
  · rw [hzero]
    exact (hf.path.isSome hmem).1.symm
  · intro heq
    rw [heq] at hin
    exact (List.nodup_append'.mp hf.nodup).2.2 hin hmem

/-- A red node is painted black, which ends the loop. -/
theorem removeFixUp_red {node parent : ObjectKey} {labels : List (Label T TV)} (fuel : Nat)
    (h : Deficit s root node .red p labels) :
    Restored s labels (removeFixUp (fuel + 1) s root node parent) := by
  obtain ⟨n, ok, t, hf, rfl, ht, hp, rfl⟩ := h
  have hred := isBlackRef_short hf.tree ht
  obtain ⟨s', hs', hf', hsame⟩ := blackenRef_focus hf
  refine ⟨s', root, _, ?_, hf'.toRoot, hp.blacken_short ht, ?_, hsame⟩
  · simp [removeFixUp, hred, hs']
  · simp [toList_plug]

/-- At the root the deficit is gone. -/
theorem removeFixUp_root {node parent : ObjectKey} {labels : List (Label T TV)} (fuel : Nat)
    (h : Deficit s root node .black [] labels) :
    Restored s labels (removeFixUp (fuel + 1) s root node parent) := by
  obtain ⟨n, ok, t, hf, rfl, ht, hp, rfl⟩ := h
  cases ht with
  | black ht =>
      have hrun : removeFixUp (fuel + 1) s root (rootAddr t) parent =
          (blackenRef s root).map (·, root) := by
        have hroot : root = rootAddr t := hf.root_eq
        have hblack := isBlackRef_short hf.tree (.black ht)
        rw [← hroot] at hblack ⊢
        cases hpaint : blackenRef s root <;> simp [removeFixUp, hblack, hpaint]
      rw [hrun]
      apply Repaired.restored
      exact ⟨_, _, _, _, _, hf, ht, .top, fun _ => rfl, rfl⟩

/-- The loop after a pass. -/
theorem removeFixUp_pass {n : Nat} {parent : ObjectKey} {s₁ : State T TV} {root₁ : ObjectKey}
    {again : Bool} (fuel : Nat) (hf : Focus s.heap root t p) (ht : Short .black n t) (hne : rootAddr t ≠ root)
    (hpass : fixPass s root (rootAddr t) parent = some (s₁, root₁, again)) :
    removeFixUp (fuel + 1) s root (rootAddr t) parent =
      if again then (s₁.heap parent).bind fun n => removeFixUp fuel s₁ root₁ parent n.parent
      else (blackenRef s₁ root₁).map (·, root₁) := by
  have hblack := isBlackRef_short hf.tree ht
  cases again with
  | true => simp [removeFixUp, hblack, hne, hpass]
  | false => cases hpaint : blackenRef s₁ root₁ <;> simp [removeFixUp, hblack, hne, hpass, hpaint]

/-- A pass below the first frame of the path. -/
theorem fixPass_focus {n : Nat} {ok : Bool} {f : Frame (Label T TV)}
    (hf : Focus s.heap root t (f :: p)) (ht : Balanced .black n t) (hp : Fits ok (n + 1) (f :: p)) :
    ∃ s' root' again, fixPass s root (rootAddr t) f.label.addr = some (s', root', again) ∧
      SameNodes s s' ∧ PassDone f.label p (plug t (f :: p)).toList s' root' again := by
  cases f with
  | left cp a u =>
      obtain ⟨s', root', again, hrun, hrest⟩ := fixLeft_focus hf ht hp
      refine ⟨s', root', again, ?_, hrest⟩
      have ha : s.heap a.addr = some _ := hf.path.2.1
      simpa [fixPass, Frame.label, ha, Label.cell] using hrun
  | right cp u a =>
      obtain ⟨s', root', again, hrun, hrest⟩ := fixRight_focus hf ht hp
      refine ⟨s', root', again, ?_, hrest⟩
      have ha : s.heap a.addr = some _ := hf.path.2.1
      -- the sibling has a black node and is not the short subtree
      have hu : ∃ cu, Balanced cu (n + 1) u := by
        cases hp with
        | blackRight hu _ => exact ⟨_, hu⟩
        | redRight hu _ _ => exact ⟨_, hu⟩
      obtain ⟨cu, hu⟩ := hu
      obtain ⟨c', ul, b, ur, rfl⟩ := hu.exists_node
      have hside : b.addr ≠ rootAddr t := by
        intro heq
        have hb0 : b.addr ≠ 0 := hf.path.2.2.1.1
        rw [heq] at hb0
        have hin := (rootAddr_eq_zero_or_mem t).resolve_left hb0
        refine (List.nodup_append'.mp hf.nodup).2.2 hin ?_
        simp [pathAddrs, ← heq]
      simpa [fixPass, Frame.label, ha, Label.cell, hside] using hrun

theorem Restored.of_sameNodes {s₁ : State T TV} {labels : List (Label T TV)}
    {r : Option (State T TV × ObjectKey)} (h : Restored s₁ labels r) (hs : SameNodes s s₁) :
    Restored s labels r := by
  obtain ⟨s', root', t, hr, hf, hb, hlist, hsame⟩ := h
  exact ⟨s', root', t, hr, hf, hb, hlist, hs.trans hsame⟩

/-- The loop makes up for the missing black node. A pass that goes on either moves
the deficit one frame up or leaves it at a red node, where the loop ends. -/
theorem removeFixUp_restores {labels : List (Label T TV)} (fuel : Nat) :
    ∀ {s : State T TV} {root node : ObjectKey} {c : Color} {p : List (Frame (Label T TV))},
      Deficit s root node c p labels → (c = .red ∨ p.length + 1 < fuel) → 0 < fuel →
      Restored s labels (removeFixUp fuel s root node (topAddr p)) := by
  induction fuel with
  | zero =>
      intro s root node c p _ _ hpos
      exact absurd hpos (Nat.lt_irrefl 0)
  | succ fuel ih =>
      intro s root node c p h hfuel _
      cases c with
      | red => exact removeFixUp_red fuel h
      | black =>
          have hlen : p.length < fuel := by simpa using hfuel
          cases p with
          | nil => exact removeFixUp_root fuel h
          | cons f p =>
              obtain ⟨n, ok, t, hf, rfl, ht, hp, rfl⟩ := h
              cases ht with
              | black ht =>
                  obtain ⟨s₁, root₁, again, hpass, hsame, hdone⟩ := fixPass_focus hf ht hp
                  have hrun := removeFixUp_pass fuel hf (.black ht) hf.ne_root hpass
                  rw [topAddr, hrun]
                  rcases hdone with ⟨rfl, hrepaired⟩ | ⟨rfl, c, q, hq, hdeficit⟩
                  · exact hrepaired.restored.of_sameNodes hsame
                  · have hparent : ∃ na, s₁.heap f.label.addr = some na ∧ na.parent = topAddr q := by
                      obtain ⟨m, ok', t', hf', hroot, -⟩ := hdeficit
                      have hne : f.label.addr ≠ 0 := by
                        cases f <;> exact hf.path.1
                      cases t' with
                      | nil => exact absurd hroot.symm hne
                      | node c' l b r =>
                          rw [← hroot]
                          exact ⟨_, hf'.tree.2.1, rfl⟩
                    obtain ⟨na, hna, hup⟩ := hparent
                    rw [if_pos rfl, hna, Option.bind_some, hup]
                    refine (ih hdeficit ?_ (Nat.zero_lt_of_lt hlen)).of_sameNodes hsame
                    rcases hq with rfl | rfl
                    · exact Or.inl rfl
                    · exact Or.inr (by simpa using hlen)

end Dogee.DMap
