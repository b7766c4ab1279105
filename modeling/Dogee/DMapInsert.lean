import Dogee.DMapFocus
import Dogee.StableSort
import Dogee.Transition
import Mathlib.Data.List.Induction
import Mathlib.Data.Nat.Basic

/-!
# Insertion into a shared map

The repair loop moves a focus towards the root until its parent is black. An
insertion descends to the place of its key, hangs a red leaf there and repairs;
a sequence of insertions sorts its pairs.
-/

namespace Dogee.DMap

open RedBlack StableSort Transition

variable {T TV : Type}

/-! ## The repair loop -/

/-- Recolouring below a grandparent whose left child is the red parent. -/
theorem recolour_left {s : State T TV} {root : ObjectKey} {cg cp cu : Color}
    {l r lu ru : RedBlack.Tree (Label T TV)} {a g u : Label T TV} {p : List (Frame (Label T TV))}
    (hf : Focus s.heap root (.node cg (.node cp l a r) g (.node cu lu u ru)) p) :
    ∃ s', (do
        let s ← s.setColor u.addr .black
        let s ← s.setColor a.addr .black
        s.setColor g.addr .red) = some s' ∧
      Focus s'.heap root (.node .red (.node .black l a r) g (.node .black lu u ru)) p ∧
      SameNodes s s' := by
  obtain ⟨s₁, h₁, hf₁, hs₁⟩ := setColor_focus (focus_right_iff.mpr hf) .black
  obtain ⟨s₂, h₂, hf₂, hs₂⟩ := setColor_focus (focus_left_iff.mpr (focus_right_iff.mp hf₁)) .black
  obtain ⟨s₃, h₃, hf₃, hs₃⟩ := setColor_focus (focus_left_iff.mp hf₂) .red
  refine ⟨s₃, ?_, hf₃, (hs₁.trans hs₂).trans hs₃⟩
  simp only [h₁, h₂, h₃, Option.bind_eq_bind, Option.bind_some]

/-- Recolouring below a grandparent whose right child is the red parent. -/
theorem recolour_right {s : State T TV} {root : ObjectKey} {cg cp cu : Color}
    {l r lu ru : RedBlack.Tree (Label T TV)} {a g u : Label T TV} {p : List (Frame (Label T TV))}
    (hf : Focus s.heap root (.node cg (.node cu lu u ru) g (.node cp l a r)) p) :
    ∃ s', (do
        let s ← s.setColor u.addr .black
        let s ← s.setColor a.addr .black
        s.setColor g.addr .red) = some s' ∧
      Focus s'.heap root (.node .red (.node .black lu u ru) g (.node .black l a r)) p ∧
      SameNodes s s' := by
  obtain ⟨s₁, h₁, hf₁, hs₁⟩ := setColor_focus (focus_left_iff.mpr hf) .black
  obtain ⟨s₂, h₂, hf₂, hs₂⟩ := setColor_focus (focus_right_iff.mpr (focus_left_iff.mp hf₁)) .black
  obtain ⟨s₃, h₃, hf₃, hs₃⟩ := setColor_focus (focus_right_iff.mp hf₂) .red
  refine ⟨s₃, ?_, hf₃, (hs₁.trans hs₂).trans hs₃⟩
  simp only [h₁, h₂, h₃, Option.bind_eq_bind, Option.bind_some]

/-- The last repair on the left: paint the parent black and the grandparent red,
and rotate the grandparent to the right. -/
theorem lift_left {s : State T TV} {root : ObjectKey} {cg cp : Color}
    {l r u : RedBlack.Tree (Label T TV)} {a g : Label T TV} {p : List (Frame (Label T TV))}
    (hf : Focus s.heap root (.node cg (.node cp l a r) g u) p) :
    ∃ s' root', (do
        let s ← s.setColor a.addr .black
        let s ← s.setColor g.addr .red
        rightRotate s root g.addr) = some (s', root') ∧
      Focus s'.heap root' (.node .black l a (.node .red r g u)) p ∧ SameNodes s s' := by
  obtain ⟨s₁, h₁, hf₁, hs₁⟩ := setColor_focus (focus_left_iff.mpr hf) .black
  obtain ⟨s₂, h₂, hf₂, hs₂⟩ := setColor_focus (focus_left_iff.mp hf₁) .red
  obtain ⟨s₃, root', h₃, hf₃, hs₃⟩ := rightRotate_focus hf₂
  refine ⟨s₃, root', ?_, hf₃, (hs₁.trans hs₂).trans hs₃⟩
  simp only [h₁, h₂, h₃, Option.bind_eq_bind, Option.bind_some]

/-- The last repair on the right. -/
theorem lift_right {s : State T TV} {root : ObjectKey} {cg cp : Color}
    {l r u : RedBlack.Tree (Label T TV)} {a g : Label T TV} {p : List (Frame (Label T TV))}
    (hf : Focus s.heap root (.node cg u g (.node cp l a r)) p) :
    ∃ s' root', (do
        let s ← s.setColor a.addr .black
        let s ← s.setColor g.addr .red
        leftRotate s root g.addr) = some (s', root') ∧
      Focus s'.heap root' (.node .black (.node .red u g l) a r) p ∧ SameNodes s s' := by
  obtain ⟨s₁, h₁, hf₁, hs₁⟩ := setColor_focus (focus_right_iff.mpr hf) .black
  obtain ⟨s₂, h₂, hf₂, hs₂⟩ := setColor_focus (focus_right_iff.mp hf₁) .red
  obtain ⟨s₃, root', h₃, hf₃, hs₃⟩ := leftRotate_focus hf₂
  refine ⟨s₃, root', ?_, hf₃, (hs₁.trans hs₂).trans hs₃⟩
  simp only [h₁, h₂, h₃, Option.bind_eq_bind, Option.bind_some]

/-- What the loop needs to know of the node it repairs and the two above it. -/
structure Above (s : State T TV) (node parent gparent : ObjectKey) (nn np ng : RBTNode T TV) :
    Prop where
  node_eq : s.heap node = some nn
  parent_eq : s.heap parent = some np
  gparent_eq : s.heap gparent = some ng
  up : nn.parent = parent
  up' : np.parent = gparent
  ne : parent ≠ 0
  red : np.color = .red

variable {s : State T TV} {node parent gparent : ObjectKey} {nn np ng : RBTNode T TV}

theorem Above.isRedRef (h : Above s node parent gparent nn np ng) :
    isRedRef s parent = some true := by
  simp [DMap.isRedRef, h.ne, h.parent_eq, h.red]

theorem insertFixUp_black (fuel : Nat) (root : ObjectKey) (hn : s.heap node = some nn)
    (hred : isRedRef s nn.parent = some false) :
    insertFixUp (fuel + 1) s root node = (s.setColor root .black).map (·, root) := by
  rw [insertFixUp]
  cases s.setColor root .black <;> simp [hn, hred]

theorem insertFixUp_left_recolour {fuel : Nat} {root uncle : ObjectKey} {s' : State T TV}
    (h : Above s node parent gparent nn np ng) (hl : ng.left = parent) (hu : ng.right = uncle)
    (hred : isRedRef s uncle = some true)
    (hs : (do
        let s ← s.setColor uncle .black
        let s ← s.setColor parent .black
        s.setColor gparent .red) = some s') :
    insertFixUp (fuel + 1) s root node = insertFixUp fuel s' root gparent := by
  rw [insertFixUp]
  simp only [Option.bind_eq_bind, Option.bind_eq_some_iff] at hs
  obtain ⟨s₂, h₂, s₃, h₃, h₄⟩ := hs
  simp [h.node_eq, h.up, h.parent_eq, h.up', h.gparent_eq, h.isRedRef, hl, hu, hred,
    h₂, h₃, h₄]

theorem insertFixUp_left_outer {fuel : Nat} {root root' uncle : ObjectKey} {s' : State T TV}
    (h : Above s node parent gparent nn np ng) (hl : ng.left = parent) (hu : ng.right = uncle)
    (hred : isRedRef s uncle = some false) (hside : np.right ≠ node)
    (hs : (do
        let s ← s.setColor parent .black
        let s ← s.setColor gparent .red
        rightRotate s root gparent) = some (s', root')) :
    insertFixUp (fuel + 1) s root node = insertFixUp fuel s' root' node := by
  rw [insertFixUp]
  simp only [Option.bind_eq_bind, Option.bind_eq_some_iff] at hs
  obtain ⟨s₂, h₂, s₃, h₃, h₄⟩ := hs
  simp [h.node_eq, h.up, h.parent_eq, h.up', h.gparent_eq, h.isRedRef, hl, hu, hred, hside,
    h₂, h₃, h₄]

theorem insertFixUp_left_inner {fuel : Nat} {root root₁ root' uncle : ObjectKey}
    {s₁ s' : State T TV} (h : Above s node parent gparent nn np ng) (hl : ng.left = parent)
    (hu : ng.right = uncle) (hred : isRedRef s uncle = some false) (hside : np.right = node)
    (hs₁ : leftRotate s root parent = some (s₁, root₁))
    (hs : (do
        let s ← s₁.setColor node .black
        let s ← s.setColor gparent .red
        rightRotate s root₁ gparent) = some (s', root')) :
    insertFixUp (fuel + 1) s root node = insertFixUp fuel s' root' parent := by
  rw [insertFixUp]
  simp only [Option.bind_eq_bind, Option.bind_eq_some_iff] at hs
  obtain ⟨s₂, h₂, s₃, h₃, h₄⟩ := hs
  simp [h.node_eq, h.up, h.parent_eq, h.up', h.gparent_eq, h.isRedRef, hl, hu, hred, hside, hs₁,
    h₂, h₃, h₄]

theorem insertFixUp_right_recolour {fuel : Nat} {root uncle : ObjectKey} {s' : State T TV}
    (h : Above s node parent gparent nn np ng) (hl : uncle ≠ parent) (hu : ng.left = uncle)
    (hred : isRedRef s uncle = some true)
    (hs : (do
        let s ← s.setColor uncle .black
        let s ← s.setColor parent .black
        s.setColor gparent .red) = some s') :
    insertFixUp (fuel + 1) s root node = insertFixUp fuel s' root gparent := by
  rw [insertFixUp]
  simp only [Option.bind_eq_bind, Option.bind_eq_some_iff] at hs
  obtain ⟨s₂, h₂, s₃, h₃, h₄⟩ := hs
  simp [h.node_eq, h.up, h.parent_eq, h.up', h.gparent_eq, h.isRedRef, hl.symm, hu, hred,
    h₂, h₃, h₄]

theorem insertFixUp_right_outer {fuel : Nat} {root root' uncle : ObjectKey} {s' : State T TV}
    (h : Above s node parent gparent nn np ng) (hl : uncle ≠ parent) (hu : ng.left = uncle)
    (hred : isRedRef s uncle = some false) (hside : np.left ≠ node)
    (hs : (do
        let s ← s.setColor parent .black
        let s ← s.setColor gparent .red
        leftRotate s root gparent) = some (s', root')) :
    insertFixUp (fuel + 1) s root node = insertFixUp fuel s' root' node := by
  rw [insertFixUp]
  simp only [Option.bind_eq_bind, Option.bind_eq_some_iff] at hs
  obtain ⟨s₂, h₂, s₃, h₃, h₄⟩ := hs
  simp [h.node_eq, h.up, h.parent_eq, h.up', h.gparent_eq, h.isRedRef, hl.symm, hu, hred, hside,
    h₂, h₃, h₄]

theorem insertFixUp_right_inner {fuel : Nat} {root root₁ root' uncle : ObjectKey}
    {s₁ s' : State T TV} (h : Above s node parent gparent nn np ng) (hl : uncle ≠ parent)
    (hu : ng.left = uncle) (hred : isRedRef s uncle = some false) (hside : np.left = node)
    (hs₁ : rightRotate s root parent = some (s₁, root₁))
    (hs : (do
        let s ← s₁.setColor node .black
        let s ← s.setColor gparent .red
        leftRotate s root₁ gparent) = some (s', root')) :
    insertFixUp (fuel + 1) s root node = insertFixUp fuel s' root' parent := by
  rw [insertFixUp]
  simp only [Option.bind_eq_bind, Option.bind_eq_some_iff] at hs
  obtain ⟨s₂, h₂, s₃, h₃, h₄⟩ := hs
  simp [h.node_eq, h.up, h.parent_eq, h.up', h.gparent_eq, h.isRedRef, hl.symm, hu, hred, hside, hs₁,
    h₂, h₃, h₄]

/-- What the repair loop achieves: it ends, the tree it leaves is balanced with a
black root, and the labels keep their order. -/
def Repairs (fuel : Nat) (s : State T TV) (root node : ObjectKey) (labels : List (Label T TV)) :
    Prop :=
  ∃ s' root' t, insertFixUp fuel s root node = some (s', root') ∧ Focus s'.heap root' t [] ∧
    (∃ m, Balanced .black m t) ∧ t.toList = labels ∧ SameNodes s s'

theorem Repairs.of_eq {fuel fuel' : Nat} {s s' : State T TV} {root root' node node' : ObjectKey}
    {labels labels' : List (Label T TV)} (h : Repairs fuel' s' root' node' labels')
    (heq : insertFixUp fuel s root node = insertFixUp fuel' s' root' node')
    (hlabels : labels' = labels) (hs : SameNodes s s') : Repairs fuel s root node labels := by
  obtain ⟨s'', root'', t, hrun, hf, hb, ht, hs'⟩ := h
  exact ⟨s'', root'', t, heq.trans hrun, hf, hb, ht.trans hlabels, hs.trans hs'⟩

/-- Painting the root black finishes the repair when the hole takes the focus. -/
theorem repairs_root {fuel : Nat} {s : State T TV} {root : ObjectKey} {n : Nat}
    {l r : RedBlack.Tree (Label T TV)} {a : Label T TV} {p : List (Frame (Label T TV))}
    (hf : Focus s.heap root (.node .red l a r) p) (hl : Balanced .black n l)
    (hr : Balanced .black n r) (hp : Fits true n p) (hred : isRedRef s (topAddr p) = some false) :
    Repairs (fuel + 1) s root a.addr (plug (.node .red l a r) p).toList := by
  obtain ⟨m, hm⟩ := hp.blacken_balanced (Balanced.red (a := a) hl hr) (fun h => by cases h)
  obtain ⟨-, hcell, -, -⟩ := hf.tree
  have hrun := insertFixUp_black fuel root hcell hred
  have hroot := hf.toRoot
  have hne : plug (.node .red l a r) p ≠ .nil := by
    intro hnil
    have hlen := congrArg (fun t => t.toList.length) hnil
    simp [toList_plug] at hlen
  obtain ⟨c, l', a', r', hplug⟩ : ∃ c l' a' r', plug (.node .red l a r) p = .node c l' a' r' := by
    cases h : plug (.node .red l a r) p with
    | nil => exact absurd h hne
    | node c l' a' r' => exact ⟨c, l', a', r', rfl⟩
  rw [hplug] at hroot hm
  obtain ⟨s', hs', hf', hsame⟩ := setColor_focus hroot .black
  have hra : root = a'.addr := hroot.root_eq
  refine ⟨s', root, _, ?_, hf', ⟨m, hm⟩, ?_, hsame⟩
  · rw [hrun, hra, hs']
    rfl
  · rw [hplug]
    rfl

theorem Focus.above_left_left {s : State T TV} {root : ObjectKey} {c cg : Color}
    {l r tp u : RedBlack.Tree (Label T TV)} {a b g : Label T TV} {p : List (Frame (Label T TV))}
    (hf : Focus s.heap root (.node c l a r) (.left .red b tp :: .left cg g u :: p)) :
    Above s a.addr b.addr g.addr (a.cell c (rootAddr l) (rootAddr r) b.addr)
      (b.cell .red a.addr (rootAddr tp) g.addr) (g.cell cg b.addr (rootAddr u) (topAddr p)) :=
  ⟨hf.tree.2.1, hf.path.2.1, hf.path.2.2.2.2.1, rfl, rfl, hf.path.1, rfl⟩

theorem Focus.above_right_left {s : State T TV} {root : ObjectKey} {c cg : Color}
    {l r tp u : RedBlack.Tree (Label T TV)} {a b g : Label T TV} {p : List (Frame (Label T TV))}
    (hf : Focus s.heap root (.node c l a r) (.right .red tp b :: .left cg g u :: p)) :
    Above s a.addr b.addr g.addr (a.cell c (rootAddr l) (rootAddr r) b.addr)
      (b.cell .red (rootAddr tp) a.addr g.addr) (g.cell cg b.addr (rootAddr u) (topAddr p)) :=
  ⟨hf.tree.2.1, hf.path.2.1, hf.path.2.2.2.2.1, rfl, rfl, hf.path.1, rfl⟩

theorem Focus.above_left_right {s : State T TV} {root : ObjectKey} {c cg : Color}
    {l r tp u : RedBlack.Tree (Label T TV)} {a b g : Label T TV} {p : List (Frame (Label T TV))}
    (hf : Focus s.heap root (.node c l a r) (.left .red b tp :: .right cg u g :: p)) :
    Above s a.addr b.addr g.addr (a.cell c (rootAddr l) (rootAddr r) b.addr)
      (b.cell .red a.addr (rootAddr tp) g.addr) (g.cell cg (rootAddr u) b.addr (topAddr p)) :=
  ⟨hf.tree.2.1, hf.path.2.1, hf.path.2.2.2.2.1, rfl, rfl, hf.path.1, rfl⟩

theorem Focus.above_right_right {s : State T TV} {root : ObjectKey} {c cg : Color}
    {l r tp u : RedBlack.Tree (Label T TV)} {a b g : Label T TV} {p : List (Frame (Label T TV))}
    (hf : Focus s.heap root (.node c l a r) (.right .red tp b :: .right cg u g :: p)) :
    Above s a.addr b.addr g.addr (a.cell c (rootAddr l) (rootAddr r) b.addr)
      (b.cell .red (rootAddr tp) a.addr g.addr) (g.cell cg (rootAddr u) b.addr (topAddr p)) :=
  ⟨hf.tree.2.1, hf.path.2.1, hf.path.2.2.2.2.1, rfl, rfl, hf.path.1, rfl⟩

/-- A left focus is not its parent's right child. -/
theorem Focus.sibling_left {h : ObjectKey → Option (RBTNode T TV)} {root : ObjectKey} {c c' : Color}
    {l r u : RedBlack.Tree (Label T TV)} {a b : Label T TV} {p : List (Frame (Label T TV))}
    (hf : Focus h root (.node c l a r) (.left c' b u :: p)) : rootAddr u ≠ a.addr := by
  have hdis := (List.nodup_append'.mp hf.nodup).2.2
  refine rootAddr_ne_of_notMem hf.tree.1 fun hmem => ?_
  exact hdis (by simp : a.addr ∈ addrs (.node c l a r)) (by simp [pathAddrs, hmem])

/-- A right focus is not its parent's left child. -/
theorem Focus.sibling_right {h : ObjectKey → Option (RBTNode T TV)} {root : ObjectKey} {c c' : Color}
    {l r u : RedBlack.Tree (Label T TV)} {a b : Label T TV} {p : List (Frame (Label T TV))}
    (hf : Focus h root (.node c l a r) (.right c' u b :: p)) : rootAddr u ≠ a.addr := by
  have hdis := (List.nodup_append'.mp hf.nodup).2.2
  refine rootAddr_ne_of_notMem hf.tree.1 fun hmem => ?_
  exact hdis (by simp : a.addr ∈ addrs (.node c l a r)) (by simp [pathAddrs, hmem])

/-- The repair loop, from a red node whose children are black and whose hole
takes trees of its black height: recolouring moves the focus two frames up, and
a rotation leaves it under a black node, where the loop ends. -/
theorem insertFixUp_repairs (fuel : Nat) :
    ∀ {s : State T TV} {root : ObjectKey} {ok : Bool} {n : Nat} {l r : RedBlack.Tree (Label T TV)}
      {a : Label T TV} {p : List (Frame (Label T TV))},
      Focus s.heap root (.node .red l a r) p → Balanced .black n l → Balanced .black n r →
      Fits ok n p → p.length < fuel →
      Repairs fuel s root a.addr (plug (.node .red l a r) p).toList := by
  induction fuel with
  | zero =>
      intro s root ok n l r a p _ _ _ _ hlen
      exact absurd hlen (Nat.not_lt_zero _)
  | succ fuel ih =>
      intro s root ok n l r a p hf hl hr hp hlen
      cases hp with
      | top => exact repairs_root hf hl hr .top rfl
      | @blackLeft _ cb ok' b tp p hb hp =>
          refine repairs_root hf hl hr (.blackLeft hb hp) ?_
          simp [isRedRef, hf.path.1, hf.path.2.1, Label.cell]
      | @blackRight _ cb ok' b tp p hb hp =>
          refine repairs_root hf hl hr (.blackRight hb hp) ?_
          simp [isRedRef, hf.path.1, hf.path.2.1, Label.cell]
      | @redLeft _ b tp p hb hne hp =>
          cases hp with
          | top => exact absurd rfl hne
          | @blackLeft _ cu ok' g u p hu hp =>
              have hab := hf.above_left_left
              have hup := focus_left_iff.mp (focus_left_iff.mp hf)
              have hred := isRedRef_rootAddr hup.tree.2.2.2 hu
              simp only [List.length_cons] at hlen
              cases cu with
              | red =>
                  obtain ⟨lu, e, ru, rfl, hlu, hru⟩ := hu.red_cases
                  obtain ⟨s', hs', hf', hsame⟩ := recolour_left hup
                  refine (ih hf' (.black (.red hl hr) hb) (.black hlu hru) hp (by omega)).of_eq
                    (insertFixUp_left_recolour hab rfl rfl hred hs') ?_ hsame
                  simp [toList_plug, plug]
              | black =>
                  obtain ⟨s', root', hs', hf', hsame⟩ := lift_left hup
                  refine (ih (focus_left_iff.mpr hf') hl hr (.blackLeft (.red hb hu) hp)
                    (by simp only [List.length_cons]; omega)).of_eq
                    (insertFixUp_left_outer hab rfl rfl hred ?_ hs') ?_ hsame
                  · exact hf.sibling_left
                  · simp [toList_plug, plug]
          | @blackRight _ cu ok' g u p hu hp =>
              have hab := hf.above_left_right
              have hup := focus_right_iff.mp (focus_left_iff.mp hf)
              have hred := isRedRef_rootAddr hup.tree.2.2.1 hu
              have hside := (focus_left_iff.mp hf).sibling_right
              simp only [List.length_cons] at hlen
              cases cu with
              | red =>
                  obtain ⟨lu, e, ru, rfl, hlu, hru⟩ := hu.red_cases
                  obtain ⟨s', hs', hf', hsame⟩ := recolour_right hup
                  refine (ih hf' (.black hlu hru) (.black (.red hl hr) hb) hp (by omega)).of_eq
                    (insertFixUp_right_recolour hab hside rfl hred hs') ?_ hsame
                  simp [toList_plug, plug]
              | black =>
                  obtain ⟨s₁, root₁, hs₁, hf₁, hsame₁⟩ := rightRotate_focus (focus_left_iff.mp hf)
                  obtain ⟨s', root', hs', hf', hsame⟩ := lift_right (focus_right_iff.mp hf₁)
                  refine (ih (focus_right_iff.mpr hf') hr hb (.blackRight (.red hu hl) hp)
                    (by simp only [List.length_cons]; omega)).of_eq
                    (insertFixUp_right_inner hab hside rfl hred rfl hs₁ hs') ?_ (hsame₁.trans hsame)
                  simp [toList_plug, plug]
      | @redRight _ b tp p hb hne hp =>
          cases hp with
          | top => exact absurd rfl hne
          | @blackLeft _ cu ok' g u p hu hp =>
              have hab := hf.above_right_left
              have hup := focus_left_iff.mp (focus_right_iff.mp hf)
              have hred := isRedRef_rootAddr hup.tree.2.2.2 hu
              simp only [List.length_cons] at hlen
              cases cu with
              | red =>
                  obtain ⟨lu, e, ru, rfl, hlu, hru⟩ := hu.red_cases
                  obtain ⟨s', hs', hf', hsame⟩ := recolour_left hup
                  refine (ih hf' (.black hb (.red hl hr)) (.black hlu hru) hp (by omega)).of_eq
                    (insertFixUp_left_recolour hab rfl rfl hred hs') ?_ hsame
                  simp [toList_plug, plug]
              | black =>
                  obtain ⟨s₁, root₁, hs₁, hf₁, hsame₁⟩ := leftRotate_focus (focus_right_iff.mp hf)
                  obtain ⟨s', root', hs', hf', hsame⟩ := lift_left (focus_left_iff.mp hf₁)
                  refine (ih (focus_left_iff.mpr hf') hb hl (.blackLeft (.red hr hu) hp)
                    (by simp only [List.length_cons]; omega)).of_eq
                    (insertFixUp_left_inner hab rfl rfl hred rfl hs₁ hs') ?_ (hsame₁.trans hsame)
                  simp [toList_plug, plug]
          | @blackRight _ cu ok' g u p hu hp =>
              have hab := hf.above_right_right
              have hup := focus_right_iff.mp (focus_right_iff.mp hf)
              have hred := isRedRef_rootAddr hup.tree.2.2.1 hu
              have hside := (focus_right_iff.mp hf).sibling_right
              simp only [List.length_cons] at hlen
              cases cu with
              | red =>
                  obtain ⟨lu, e, ru, rfl, hlu, hru⟩ := hu.red_cases
                  obtain ⟨s', hs', hf', hsame⟩ := recolour_right hup
                  refine (ih hf' (.black hlu hru) (.black hb (.red hl hr)) hp (by omega)).of_eq
                    (insertFixUp_right_recolour hab hside rfl hred hs') ?_ hsame
                  simp [toList_plug, plug]
              | black =>
                  obtain ⟨s', root', hs', hf', hsame⟩ := lift_right hup
                  refine (ih (focus_right_iff.mpr hf') hl hr (.blackRight (.red hu hb) hp)
                    (by simp only [List.length_cons]; omega)).of_eq
                    (insertFixUp_right_outer hab hside rfl hred ?_ hs') ?_ hsame
                  · exact hf.sibling_right
                  · simp [toList_plug, plug]

/-! ## Insertion -/

section Insert

variable [LinearOrder T]

/-- A path whose hole is the place of `k` after every equal key. -/
def Splits (k : T) (p : List (Frame (Label T TV))) : Prop :=
  (∀ a ∈ before p, a.key ≤ k) ∧ ∀ a ∈ after p, k < a.key

theorem Splits.left {k : T} {c : Color} {l r : RedBlack.Tree (Label T TV)} {a : Label T TV}
    {p : List (Frame (Label T TV))} (hp : Splits k p) (hk : k < a.key)
    (hsort : (RedBlack.Tree.node c l a r).toList.Pairwise fun a b => a.key ≤ b.key) :
    Splits k (.left c a r :: p) := by
  refine ⟨hp.1, fun b hb => ?_⟩
  have hr : ∀ b ∈ r.toList, a.key ≤ b.key := (List.pairwise_cons.mp (List.pairwise_append.mp hsort).2.1).1
  simp only [after, List.cons_append, List.mem_cons, List.mem_append] at hb
  rcases hb with rfl | hb | hb
  · exact hk
  · exact hk.trans_le (hr b hb)
  · exact hp.2 b hb

theorem Splits.right {k : T} {c : Color} {l r : RedBlack.Tree (Label T TV)} {a : Label T TV}
    {p : List (Frame (Label T TV))} (hp : Splits k p) (hk : ¬k < a.key)
    (hsort : (RedBlack.Tree.node c l a r).toList.Pairwise fun a b => a.key ≤ b.key) :
    Splits k (.right c l a :: p) := by
  refine ⟨fun b hb => ?_, hp.2⟩
  have hl : ∀ b ∈ l.toList, b.key ≤ a.key := fun b hb =>
    (List.pairwise_append.mp hsort).2.2 b hb a (by simp)
  simp only [before, List.mem_append, List.mem_singleton] at hb
  rcases hb with hb | hb | rfl
  · exact hp.1 b hb
  · exact (hl b hb).trans (not_lt.mp hk)
  · exact not_lt.mp hk

/-- The descent ends at the null link that is the place of the new key. -/
theorem findParent_spec {s : State T TV} {root node : ObjectKey} {nn : RBTNode T TV}
    (hnode : s.heap node = some nn) {t : RedBlack.Tree (Label T TV)} :
    ∀ {fuel : Nat} {c : Color} {ok : Bool} {n : Nat} {p : List (Frame (Label T TV))},
      Focus s.heap root t p → Splits nn.key p →
      t.toList.Pairwise (fun a b => a.key ≤ b.key) → Balanced c n t → Fits ok n p →
      (ok = false → c = .black) → (p = [] → c = .black) → t.toList.length < fuel →
      ∃ p' ok', findParent s node fuel (topAddr p) (rootAddr t) = some (topAddr p') ∧
        Focus s.heap root .nil p' ∧ Splits nn.key p' ∧ Fits ok' 0 p' ∧
        before p' ++ after p' = before p ++ t.toList ++ after p := by
  induction t with
  | nil =>
      intro fuel c ok n p hf hsp _ hb hp _ _ hfuel
      obtain ⟨fuel, rfl⟩ := Nat.exists_eq_succ_of_ne_zero (by omega : fuel ≠ 0)
      cases hb
      exact ⟨p, ok, rfl, hf, hsp, hp, by simp⟩
  | node c' l a r ihl ihr =>
      intro fuel c ok n p hf hsp hsort hb hp hok htop hfuel
      obtain ⟨fuel, rfl⟩ := Nat.exists_eq_succ_of_ne_zero (by omega : fuel ≠ 0)
      simp only [RedBlack.Tree.toList_node, List.length_append, List.length_cons] at hfuel
      obtain ⟨hne, hcell, -, -⟩ := hf.tree
      by_cases hk : nn.key < a.key
      · obtain ⟨c₁, n₁, ok₁, hb₁, hp₁, hok₁⟩ := hp.descend_left hb hok htop
        obtain ⟨p', ok', hrun, hf', hsp', hp', hlist⟩ := ihl (focus_left_iff.mpr hf)
          (hsp.left hk hsort) (List.pairwise_append.mp hsort).1 hb₁ hp₁ hok₁ (fun h => by cases h)
          (by omega : l.toList.length < fuel)
        refine ⟨p', ok', ?_, hf', hsp', hp', ?_⟩
        · rw [← hrun]
          simp [findParent, hne, hnode, hcell, Label.cell, hk]
        · rw [hlist]
          simp [before, after]
      · obtain ⟨c₁, n₁, ok₁, hb₁, hp₁, hok₁⟩ := hp.descend_right hb hok htop
        obtain ⟨p', ok', hrun, hf', hsp', hp', hlist⟩ := ihr (focus_right_iff.mpr hf)
          (hsp.right hk hsort) (List.pairwise_cons.mp (List.pairwise_append.mp hsort).2.1).2 hb₁ hp₁
          hok₁ (fun h => by cases h) (by omega : r.toList.length < fuel)
        refine ⟨p', ok', ?_, hf', hsp', hp', ?_⟩
        · rw [← hrun]
          simp [findParent, hne, hnode, hcell, Label.cell, hk]
        · rw [hlist]
          simp [before, after]

/-- The heap after a node `z` has been hung below `y`. -/
def linkedHeap (h : ObjectKey → Option (RBTNode T TV)) (z y : ObjectKey) (nz : RBTNode T TV) :
    ObjectKey → Option (RBTNode T TV) := fun q =>
  if q = z then some { nz with color := .red, parent := y }
  else if q = 0 then h q
  else if q = y then
    (h q).map fun n => if nz.key < n.key then { n with left := z } else { n with right := z }
  else h q

theorem linkNode_heap {s : State T TV} {z y : ObjectKey} {nz : RBTNode T TV} (root : ObjectKey)
    (hz : s.heap z = some nz) (hy : y ≠ 0 → ∃ n, s.heap y = some n) (hzy : y ≠ z) :
    ∃ s', linkNode s root z y = some (s', if y = 0 then z else root) ∧
      s'.heap = linkedHeap s.heap z y nz := by
  by_cases hy0 : y = 0
  · subst hy0
    refine ⟨_, by
      simp [linkNode, State.setParent, State.setColor, State.modify, State.set, hz]
      rfl, ?_⟩
    funext q
    simp only [linkedHeap, Function.update_apply]
    grind
  · obtain ⟨ny, hny⟩ := hy hy0
    by_cases hk : nz.key < ny.key
    · refine ⟨_, by
        simp [linkNode, State.setParent, State.setColor, State.setLeft, State.modify, State.set, hz,
          hy0, hny, hzy, hzy.symm, hk]
        rfl, ?_⟩
      funext q
      simp only [linkedHeap, Function.update_apply]
      grind
    · refine ⟨_, by
        simp [linkNode, State.setParent, State.setColor, State.setRight, State.modify, State.set, hz,
          hy0, hny, hzy, hzy.symm, hk]
        rfl, ?_⟩
      funext q
      simp only [linkedHeap, Function.update_apply]
      grind

/-- Hanging a node at its place puts a red leaf into the hole. -/
theorem linkNode_focus {s : State T TV} {root z : ObjectKey} {k : T} {v : TV} {c : Color}
    {p : List (Frame (Label T TV))} (hf : Focus s.heap root .nil p) (hz0 : z ≠ 0)
    (hz : s.heap z = some ⟨k, v, c, 0, 0, 0⟩) (hzp : z ∉ pathAddrs p) (hsp : Splits k p) :
    ∃ s' root', linkNode s root z (topAddr p) = some (s', root') ∧
      Focus s'.heap root' (.node .red .nil ⟨z, k, v⟩ .nil) p ∧ SameNodes s s' := by
  obtain ⟨-, hpath, hnd, hroot⟩ := hf
  have htop := topAddr_eq_zero_or_mem p
  have htz : topAddr p ≠ z := by
    rcases htop with h | h
    · rw [h]
      exact hz0.symm
    · rintro rfl
      exact hzp h
  obtain ⟨s', hrun, hheap⟩ := linkNode_heap root hz
    (fun h0 => (hpath.isSome (htop.resolve_left h0)).2) htz
  have hother : ∀ q, q ≠ z → q ≠ topAddr p → s'.heap q = s.heap q := by
    intro q hqz hqt
    simp [hheap, linkedHeap, hqz, hqt]
  have hcell : s'.heap z = some ⟨k, v, .red, 0, 0, topAddr p⟩ := by
    simp [hheap, linkedHeap]
  refine ⟨s', _, hrun, ⟨⟨hz0, hcell, trivial, trivial⟩, ?_, ?_, ?_⟩, fun q => ?_⟩
  · cases p with
    | nil => trivial
    | cons f p =>
        cases f with
        | left d e r =>
            obtain ⟨he0, hecell, her, hep⟩ := hpath
            have hke : k < e.key := hsp.2 e (by simp [after])
            simp only [addrs_nil, List.nil_append, pathAddrs, List.cons_append, List.nodup_cons,
              List.mem_append, not_or] at hnd
            simp only [pathAddrs, List.cons_append, List.mem_cons, List.mem_append, not_or] at hzp
            refine ⟨he0, ?_, her.congr fun q hq => hother q (by grind) ?_,
              hep.congr fun q hq => hother q (by grind) ?_⟩
            · simp [hheap, linkedHeap, hecell, Label.cell, he0, hke, Ne.symm hzp.1]
            · rw [topAddr_left]
              grind
            · rw [topAddr_left]
              grind
        | right d l e =>
            obtain ⟨he0, hecell, hel, hep⟩ := hpath
            have hke : ¬k < e.key := not_lt.mpr (hsp.1 e (by simp [before]))
            simp only [addrs_nil, List.nil_append, pathAddrs, List.cons_append, List.nodup_cons,
              List.mem_append, not_or] at hnd
            simp only [pathAddrs, List.cons_append, List.mem_cons, List.mem_append, not_or] at hzp
            refine ⟨he0, ?_, hel.congr fun q hq => hother q (by grind) ?_,
              hep.congr fun q hq => hother q (by grind) ?_⟩
            · simp [hheap, linkedHeap, hecell, Label.cell, he0, hke, Ne.symm hzp.1]
            · rw [topAddr_right]
              grind
            · rw [topAddr_right]
              grind
  · simpa [addrs, hzp] using hnd
  · cases p with
    | nil => rfl
    | cons f p =>
        have hf0 : topAddr (f :: p) ≠ 0 := by
          cases f <;> exact hpath.1
        rw [if_neg hf0, hroot]
        exact rootAddr_plug_congr (List.cons_ne_nil f p)
  · simp only [hheap, linkedHeap]
    split
    · simp_all
    · split
      · rfl
      · split <;> simp

omit [LinearOrder T] in
theorem mem_pathAddrs {q : ObjectKey} {p : List (Frame (Label T TV))} :
    q ∈ pathAddrs p ↔ q ∈ (before p ++ after p).map Label.addr := by
  induction p with
  | nil => simp [pathAddrs, before, after]
  | cons f p ih =>
      cases f with
      | left c a r =>
          simp only [pathAddrs, before, after, List.cons_append, List.mem_cons, List.mem_append, ih,
            List.map_append, List.map_cons, addrs]
          tauto
      | right c l a =>
          simp only [pathAddrs, before, after, List.cons_append, List.mem_cons, List.mem_append, ih,
            List.map_append, List.map_cons, addrs, List.map_nil, List.not_mem_nil]
          tauto

/-- A map whose nodes form the tree `t`: the links agree in both directions, the
root has no parent, and the tree is a red-black tree with a black root. -/
structure IsMap (s : State T TV) (t : RedBlack.Tree (Label T TV)) : Prop where
  rep : Rep s.heap 0 t
  root_eq : s.mRoot = rootAddr t
  nodup : (addrs t).Nodup
  balanced : ∃ n, Balanced .black n t

/-- The pairs of a tree in symmetric order. -/
def entries (t : RedBlack.Tree (Label T TV)) : List (T × TV) := t.toList.map fun a => (a.key, a.value)

/-- One insertion puts the pair after every pair whose key is not larger. -/
theorem insert_spec {s : State T TV} {t : RedBlack.Tree (Label T TV)} {fuel : Nat} {z : ObjectKey} {k : T}
    {v : TV} (hs : IsMap s t) (hsort : t.toList.Pairwise fun a b => a.key ≤ b.key) (hz0 : z ≠ 0)
    (hz : s.heap z = none) (hfuel : t.toList.length < fuel) :
    ∃ s' t' l₁ l₂, insert fuel s z k v = some s' ∧ IsMap s' t' ∧
      t.toList = l₁ ++ l₂ ∧ t'.toList = l₁ ++ ⟨z, k, v⟩ :: l₂ ∧ (∀ a ∈ l₁, a.key ≤ k) ∧
      (∀ a ∈ l₂, k < a.key) ∧ ∀ q, (s'.heap q).isSome = ((s.heap q).isSome || q == z) := by
  obtain ⟨hrep, hroot, hnd, n, hb⟩ := hs
  have hzt : z ∉ addrs t := fun hmem => by
    obtain ⟨n, hn⟩ := (hrep.isSome hmem).2
    rw [hz] at hn
    cases hn
  let s₀ := s.set z ⟨k, v, .black, 0, 0, 0⟩
  have hnew : newObj s z ⟨k, v, .black, 0, 0, 0⟩ = some s₀ := by
    simp [newObj, hz0, hz, s₀]
  have hz₀ : s₀.heap z = some ⟨k, v, .black, 0, 0, 0⟩ := Function.update_self ..
  have hf₀ : Focus s₀.heap s.mRoot t [] := by
    refine ⟨hrep.congr fun q hq => ?_, trivial, by simpa [pathAddrs] using hnd, hroot⟩
    refine Function.update_of_ne ?_ _ _
    rintro rfl
    exact hzt hq
  obtain ⟨p, ok, hfind, hf, hsp, hfits, hlist⟩ := findParent_spec hz₀ hf₀
    ⟨by simp [before], by simp [after]⟩ hsort hb .top (fun h => by cases h) (fun _ => rfl) hfuel
  simp only [before, after, List.nil_append, List.append_nil] at hlist
  have hzp : z ∉ pathAddrs p := by
    rw [mem_pathAddrs, hlist]
    exact hzt
  obtain ⟨s₁, root₁, hlink, hf₁, hsame₁⟩ := linkNode_focus hf hz0 hz₀ hzp hsp
  have hlen : p.length < fuel := by
    have h := length_path_le p
    rw [← List.length_append, hlist] at h
    omega
  obtain ⟨s₂, root₂, t', hrun, hf₂, hb₂, ht', hsame₂⟩ :=
    insertFixUp_repairs fuel hf₁ .nil .nil hfits hlen
  rw [toList_plug] at ht'
  refine ⟨{ s₂ with mRoot := root₂ }, t', before p, after p, ?_,
    ⟨hf₂.tree, hf₂.root_eq, ?_, hb₂⟩, hlist.symm, ?_, hsp.1, hsp.2, fun q => ?_⟩
  · have hm : s₀.mRoot = s.mRoot := rfl
    rw [topAddr_nil, ← hroot] at hfind
    simp [insert, hnew, insertNode, hm, hfind, hlink, hrun]
  · simpa [pathAddrs] using hf₂.nodup
  · simpa using ht'
  · have hq : (s₂.heap q).isSome = (s₀.heap q).isSome := hsame₁.trans hsame₂ q
    rw [hq]
    by_cases h : q = z
    · simp [h, hz₀]
    · simp [h, s₀, State.set]

/-! ## Sequences of insertions -/

/-- One call of `insert`, with the key that the allocator gives its node. -/
def insertLabel (fuel : Nat) (s : State T TV) (a : Label T TV) : Option (State T TV) :=
  insert fuel s a.addr a.key a.value

/-- The keys that the allocator hands out: nonzero, each once, none in use. -/
def FreshKeys (s : State T TV) (calls : List (Label T TV)) : Prop :=
  (calls.map Label.addr).Nodup ∧ ∀ a ∈ calls, a.addr ≠ 0 ∧ s.heap a.addr = none

theorem run_insertLabel {fuel : Nat} {s₀ : State T TV} {calls : List (Label T TV)} :
    s₀.mRoot = 0 → FreshKeys s₀ calls → calls.length ≤ fuel →
    ∃ s t, run (insertLabel fuel) s₀ calls = some s ∧ IsMap s t ∧
      t.toList = stableSort Label.key calls ∧
      ∀ q, (s.heap q).isSome = ((s₀.heap q).isSome || decide (q ∈ calls.map Label.addr)) := by
  induction calls using List.reverseRecOn with
  | nil =>
      intro hroot _ _
      refine ⟨s₀, .nil, rfl, ⟨trivial, hroot, List.nodup_nil, 0, .nil⟩, ?_, fun q => ?_⟩
      · simp [stableSort]
      · simp
  | append_singleton calls a ih =>
      intro hroot hfresh hfuel
      rw [List.length_append, List.length_singleton] at hfuel
      obtain ⟨hnd, hkeys⟩ := hfresh
      rw [List.map_append, List.nodup_append'] at hnd
      obtain ⟨s, t, hrun, hmap, hlist, hdom⟩ := ih hroot
        ⟨hnd.1, fun b hb => hkeys b (List.mem_append_left _ hb)⟩ (by omega)
      obtain ⟨ha0, ha⟩ := hkeys a (by simp)
      have hfree : s.heap a.addr = none := by
        have hq := hdom a.addr
        have hnot : a.addr ∉ calls.map Label.addr := fun hmem => hnd.2.2 hmem (by simp)
        rw [ha, decide_eq_false hnot] at hq
        simpa using hq
      have hsort : t.toList.Pairwise fun a b => a.key ≤ b.key := by
        rw [hlist]
        exact sortedBy_stableSort Label.key calls
      have hlen : t.toList.length < fuel := by
        rw [hlist, (stableSort_perm Label.key calls).length_eq]
        omega
      obtain ⟨s', t', l₁, l₂, hins, hmap', hl, hl', h₁, h₂, hdom'⟩ :=
        insert_spec (k := a.key) (v := a.value) hmap hsort ha0 hfree hlen
      refine ⟨s', t', ?_, hmap', ?_, fun q => ?_⟩
      · rw [run_concat, hrun]
        exact hins
      · rw [hl', ← stableSort_concat (hlist.symm.trans hl) h₁ h₂]
      · rw [hdom', hdom]
        simp [Bool.or_assoc, beq_eq_decide]

/-- Starting from the empty map, every sequence of insertions ends and leaves a
red-black tree with agreeing links, whose pairs in symmetric order are the
inserted pairs sorted by key, equal keys in insertion order. -/
theorem insert_sequence (fuel : Nat) (s₀ : State T TV) (calls : List (Label T TV))
    (hroot : s₀.mRoot = 0) (hfresh : FreshKeys s₀ calls) (hfuel : calls.length ≤ fuel) :
    ∃ s t, run (insertLabel fuel) s₀ calls = some s ∧ IsMap s t ∧
      entries t = stableSort Prod.fst (calls.map fun a => (a.key, a.value)) := by
  obtain ⟨s, t, hrun, hmap, hlist, -⟩ := run_insertLabel hroot hfresh hfuel
  refine ⟨s, t, hrun, hmap, ?_⟩
  rw [entries, hlist]
  exact List.map_mergeSort fun a _ b _ => rfl

/-- Three insertions with a repeated key. -/
theorem insert_sequence_three :
    ∃ s t, run (@insertLabel ℕ ℕ _ 3) ⟨fun _ => none, 0⟩
        [⟨7, 2, 10⟩, ⟨4, 1, 20⟩, ⟨9, 2, 30⟩] = some s ∧ IsMap s t ∧
      entries t = stableSort Prod.fst [(2, 10), (1, 20), (2, 30)] := by
  apply insert_sequence
  · rfl
  · exact ⟨by decide, by simp⟩
  · decide

end Insert

end Dogee.DMap
