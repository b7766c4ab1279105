import Dogee.DMap

/-!
# The nodes of a shared map as a focused tree

The heap is described by a focus and its path: `Rep` relates a subtree to its
cells and `PathRep` the frames above it. Rotating and painting a node are steps
on such a pair that leave the rest of the heap alone.
-/

namespace Dogee.DMap

open RedBlack

variable {T TV : Type}

/-- What a node holds besides its links and its colour, with its own key. -/
structure Label (T TV : Type) where
  addr : ObjectKey
  key : T
  value : TV

/-- The node of a label with the given colour and links. -/
def Label.cell (a : Label T TV) (c : Color) (l r p : ObjectKey) : RBTNode T TV :=
  ⟨a.key, a.value, c, l, r, p⟩

def rootAddr : RedBlack.Tree (Label T TV) → ObjectKey
  | .nil => 0
  | .node _ _ a _ => a.addr

def topAddr : List (Frame (Label T TV)) → ObjectKey
  | [] => 0
  | f :: _ => f.label.addr

@[simp] theorem rootAddr_nil : rootAddr (.nil : RedBlack.Tree (Label T TV)) = 0 := rfl

@[simp] theorem rootAddr_node (c : Color) (l r : RedBlack.Tree (Label T TV)) (a : Label T TV) :
    rootAddr (.node c l a r) = a.addr := rfl

@[simp] theorem topAddr_nil : topAddr ([] : List (Frame (Label T TV))) = 0 := rfl

@[simp] theorem topAddr_left (c : Color) (a : Label T TV) (r : RedBlack.Tree (Label T TV))
    (p : List (Frame (Label T TV))) : topAddr (.left c a r :: p) = a.addr := rfl

@[simp] theorem topAddr_right (c : Color) (l : RedBlack.Tree (Label T TV)) (a : Label T TV)
    (p : List (Frame (Label T TV))) : topAddr (.right c l a :: p) = a.addr := rfl

/-- The cells of a subtree whose root hangs under `p`. -/
def Rep (h : ObjectKey → Option (RBTNode T TV)) : ObjectKey → RedBlack.Tree (Label T TV) → Prop
  | _, .nil => True
  | p, .node c l a r =>
      a.addr ≠ 0 ∧ h a.addr = some (a.cell c (rootAddr l) (rootAddr r) p) ∧
        Rep h a.addr l ∧ Rep h a.addr r

/-- The cells of the frames above a focus whose root is `q`. -/
def PathRep (h : ObjectKey → Option (RBTNode T TV)) :
    ObjectKey → List (Frame (Label T TV)) → Prop
  | _, [] => True
  | q, .left c a r :: p =>
      a.addr ≠ 0 ∧ h a.addr = some (a.cell c q (rootAddr r) (topAddr p)) ∧
        Rep h a.addr r ∧ PathRep h a.addr p
  | q, .right c l a :: p =>
      a.addr ≠ 0 ∧ h a.addr = some (a.cell c (rootAddr l) q (topAddr p)) ∧
        Rep h a.addr l ∧ PathRep h a.addr p

/-- The keys of the nodes of a tree. -/
def addrs (t : RedBlack.Tree (Label T TV)) : List ObjectKey := t.toList.map Label.addr

/-- The keys of the nodes above a focus. -/
def pathAddrs : List (Frame (Label T TV)) → List ObjectKey
  | [] => []
  | .left _ a r :: p => a.addr :: addrs r ++ pathAddrs p
  | .right _ l a :: p => a.addr :: addrs l ++ pathAddrs p

@[simp] theorem addrs_nil : addrs (.nil : RedBlack.Tree (Label T TV)) = [] := rfl

@[simp] theorem mem_addrs_node {q : ObjectKey} {c : Color} {l r : RedBlack.Tree (Label T TV)}
    {a : Label T TV} :
    q ∈ addrs (.node c l a r) ↔ q ∈ addrs l ∨ q = a.addr ∨ q ∈ addrs r := by
  simp [addrs]

theorem rootAddr_eq_zero_or_mem (t : RedBlack.Tree (Label T TV)) : rootAddr t = 0 ∨ rootAddr t ∈ addrs t := by
  cases t with
  | nil => exact Or.inl rfl
  | node c l a r => exact Or.inr (by simp)

theorem topAddr_eq_zero_or_mem (p : List (Frame (Label T TV))) :
    topAddr p = 0 ∨ topAddr p ∈ pathAddrs p := by
  cases p with
  | nil => exact Or.inl rfl
  | cons f p => cases f <;> exact Or.inr (by simp [pathAddrs])

/-- A subtree does not depend on cells outside it. -/
theorem Rep.congr {h h' : ObjectKey → Option (RBTNode T TV)} {p : ObjectKey}
    {t : RedBlack.Tree (Label T TV)} (ht : Rep h p t) (heq : ∀ q ∈ addrs t, h' q = h q) : Rep h' p t := by
  induction t generalizing p with
  | nil => trivial
  | node c l a r ihl ihr =>
      obtain ⟨hne, hcell, hl, hr⟩ := ht
      refine ⟨hne, ?_, ihl hl fun q hq => ?_, ihr hr fun q hq => ?_⟩
      · rw [heq a.addr (by simp), hcell]
      · exact heq q (by simp [hq])
      · exact heq q (by simp [hq])

/-- The frames above a focus do not depend on cells outside them. -/
theorem PathRep.congr {h h' : ObjectKey → Option (RBTNode T TV)} {q : ObjectKey}
    {p : List (Frame (Label T TV))} (hp : PathRep h q p)
    (heq : ∀ x ∈ pathAddrs p, h' x = h x) : PathRep h' q p := by
  induction p generalizing q with
  | nil => trivial
  | cons f p ih =>
      cases f with
      | left c a r =>
          obtain ⟨hne, hcell, hr, hp⟩ := hp
          refine ⟨hne, ?_, hr.congr fun x hx => ?_, ih hp fun x hx => ?_⟩
          · rw [heq a.addr (by simp [pathAddrs]), hcell]
          · exact heq x (by simp [pathAddrs, hx])
          · exact heq x (by simp [pathAddrs, hx])
      | right c l a =>
          obtain ⟨hne, hcell, hl, hp⟩ := hp
          refine ⟨hne, ?_, hl.congr fun x hx => ?_, ih hp fun x hx => ?_⟩
          · rw [heq a.addr (by simp [pathAddrs]), hcell]
          · exact heq x (by simp [pathAddrs, hx])
          · exact heq x (by simp [pathAddrs, hx])

theorem Rep.isSome {h : ObjectKey → Option (RBTNode T TV)} {p : ObjectKey}
    {t : RedBlack.Tree (Label T TV)} (ht : Rep h p t) {q : ObjectKey} (hq : q ∈ addrs t) :
    q ≠ 0 ∧ ∃ n, h q = some n := by
  induction t generalizing p with
  | nil => simp at hq
  | node c l a r ihl ihr =>
      obtain ⟨hne, hcell, hl, hr⟩ := ht
      rcases mem_addrs_node.mp hq with hq | rfl | hq
      · exact ihl hl hq
      · exact ⟨hne, _, hcell⟩
      · exact ihr hr hq

theorem PathRep.isSome {h : ObjectKey → Option (RBTNode T TV)} {q : ObjectKey}
    {p : List (Frame (Label T TV))} (hp : PathRep h q p) {x : ObjectKey} (hx : x ∈ pathAddrs p) :
    x ≠ 0 ∧ ∃ n, h x = some n := by
  induction p generalizing q with
  | nil => simp [pathAddrs] at hx
  | cons f p ih =>
      cases f with
      | left c a r =>
          obtain ⟨hne, hcell, hr, hp⟩ := hp
          simp only [pathAddrs, List.cons_append, List.mem_cons, List.mem_append] at hx
          rcases hx with rfl | hx | hx
          · exact ⟨hne, _, hcell⟩
          · exact hr.isSome hx
          · exact ih hp hx
      | right c l a =>
          obtain ⟨hne, hcell, hl, hp⟩ := hp
          simp only [pathAddrs, List.cons_append, List.mem_cons, List.mem_append] at hx
          rcases hx with rfl | hx | hx
          · exact ⟨hne, _, hcell⟩
          · exact hl.isSome hx
          · exact ih hp hx

/-- The heap holds the tree `t` at the hole of `p`, and `root` is its root. -/
structure Focus (h : ObjectKey → Option (RBTNode T TV)) (root : ObjectKey)
    (t : RedBlack.Tree (Label T TV)) (p : List (Frame (Label T TV))) : Prop where
  tree : Rep h (topAddr p) t
  path : PathRep h (rootAddr t) p
  nodup : (addrs t ++ pathAddrs p).Nodup
  root_eq : root = rootAddr (plug t p)

/-- Two states that allocate the same nodes. -/
def SameNodes (s s' : State T TV) : Prop := ∀ q, (s'.heap q).isSome = (s.heap q).isSome

theorem SameNodes.refl (s : State T TV) : SameNodes s s := fun _ => rfl

theorem SameNodes.trans {s s' s'' : State T TV} (h : SameNodes s s') (h' : SameNodes s' s'') :
    SameNodes s s'' := fun q => (h' q).trans (h q)

/-! ## Rotations on a focus -/

theorem rootAddr_plug_congr {t t' : RedBlack.Tree (Label T TV)} {p : List (Frame (Label T TV))}
    (hp : p ≠ []) : rootAddr (plug t p) = rootAddr (plug t' p) := by
  induction p generalizing t t' with
  | nil => exact absurd rfl hp
  | cons f p ih =>
      by_cases hnil : p = []
      · subst hnil
        cases f <;> rfl
      · cases f <;> exact ih hnil

/-- Moving a subtree under another parent rewrites one field of its root. -/
theorem Rep.reparent {h h' : ObjectKey → Option (RBTNode T TV)} {p p' : ObjectKey}
    {t : RedBlack.Tree (Label T TV)} (ht : Rep h p t) (hnd : (addrs t).Nodup)
    (hroot : rootAddr t ≠ 0 → h' (rootAddr t) = (h (rootAddr t)).map fun n => { n with parent := p' })
    (heq : ∀ q ∈ addrs t, q ≠ rootAddr t → h' q = h q) : Rep h' p' t := by
  cases t with
  | nil => trivial
  | node c l a r =>
      obtain ⟨hne, hcell, hl, hr⟩ := ht
      have hnd' : (addrs l ++ a.addr :: addrs r).Nodup := by
        simpa [addrs] using hnd
      obtain ⟨-, hndr, hdis⟩ := List.nodup_append'.mp hnd'
      refine ⟨hne, ?_, hl.congr fun q hq => ?_, hr.congr fun q hq => ?_⟩
      · have hr := hroot hne
        simp only [rootAddr_node] at hr
        rw [hr, hcell]
        rfl
      · refine heq q (by simp [hq]) ?_
        rintro rfl
        exact hdis hq (by simp)
      · refine heq q (by simp [hq]) ?_
        rintro rfl
        exact (List.nodup_cons.mp hndr).1 hq

theorem rootAddr_ne_of_notMem {t : RedBlack.Tree (Label T TV)} {q : ObjectKey} (hq : q ≠ 0)
    (hmem : q ∉ addrs t) : rootAddr t ≠ q := by
  rcases rootAddr_eq_zero_or_mem t with h | h
  · rw [h]
    exact hq.symm
  · rintro rfl
    exact hmem h

/-- The frames above a focus when the link to it is redirected from `x` to `y`. -/
theorem PathRep.redirect {h h' : ObjectKey → Option (RBTNode T TV)} {x y : ObjectKey}
    {p : List (Frame (Label T TV))} (hp : PathRep h x p) (hnd : (pathAddrs p).Nodup) (hx0 : x ≠ 0)
    (hx : x ∉ pathAddrs p)
    (htop : topAddr p ≠ 0 → h' (topAddr p) = relinkHeap h (topAddr p) x y (topAddr p))
    (hother : ∀ q ∈ pathAddrs p, q ≠ topAddr p → h' q = h q) : PathRep h' y p := by
  cases p with
  | nil => trivial
  | cons f p =>
      cases f with
      | left c a r =>
          obtain ⟨ha0, hcell, hr, hp⟩ := hp
          simp only [pathAddrs, List.cons_append, List.nodup_cons, List.mem_append, not_or] at hnd
          refine ⟨ha0, ?_, hr.congr fun q hq => ?_, hp.congr fun q hq => ?_⟩
          · rw [topAddr_left] at htop
            rw [htop ha0]
            simp [relinkHeap, ha0, hcell, Label.cell]
          · refine hother q (by simp [pathAddrs, hq]) ?_
            rintro rfl
            exact hnd.1.1 hq
          · refine hother q (by simp [pathAddrs, hq]) ?_
            rintro rfl
            exact hnd.1.2 hq
      | right c l a =>
          obtain ⟨ha0, hcell, hl, hp⟩ := hp
          simp only [pathAddrs, List.cons_append, List.nodup_cons, List.mem_append, not_or] at hnd
          have hside : rootAddr l ≠ x := rootAddr_ne_of_notMem hx0 fun hmem => hx (by simp [pathAddrs, hmem])
          refine ⟨ha0, ?_, hl.congr fun q hq => ?_, hp.congr fun q hq => ?_⟩
          · rw [topAddr_right] at htop
            rw [htop ha0]
            simp [relinkHeap, ha0, hcell, Label.cell, hside]
          · refine hother q (by simp [pathAddrs, hq]) ?_
            rintro rfl
            exact hnd.1.1 hq
          · refine hother q (by simp [pathAddrs, hq]) ?_
            rintro rfl
            exact hnd.1.2 hq

/-- The root reference when the subtree at the hole is exchanged. -/
theorem Focus.root_redirect {h : ObjectKey → Option (RBTNode T TV)} {root : ObjectKey}
    {t : RedBlack.Tree (Label T TV)} {p : List (Frame (Label T TV))} (hf : Focus h root t p)
    (t' : RedBlack.Tree (Label T TV)) : (if topAddr p = 0 then rootAddr t' else root) =
      rootAddr (plug t' p) := by
  cases p with
  | nil => rfl
  | cons f p =>
      have hne : topAddr (f :: p) ≠ 0 := by
        cases f <;> exact hf.path.1
      rw [if_neg hne, hf.root_eq]
      exact rootAddr_plug_congr (List.cons_ne_nil f p)

/-- Rotating the focus to the left exchanges it for the rotated tree, on the same path. -/
theorem leftRotate_focus {s : State T TV} {root : ObjectKey} {c c' : Color}
    {lx ly ry : RedBlack.Tree (Label T TV)} {a b : Label T TV} {p : List (Frame (Label T TV))}
    (hf : Focus s.heap root (.node c lx a (.node c' ly b ry)) p) :
    ∃ s' root', leftRotate s root a.addr = some (s', root') ∧
      Focus s'.heap root' (.node c' (.node c lx a ly) b ry) p ∧
      SameNodes s s' := by
  obtain ⟨⟨ha0, hacell, hlx, hb0, hbcell, hly, hry⟩, hpath, hnd, -⟩ := id hf
  have hnd' : (addrs lx ++ a.addr :: (addrs ly ++ b.addr :: (addrs ry ++ pathAddrs p))).Nodup := by
    simpa [addrs] using hnd
  simp only [List.nodup_append, List.nodup_cons, List.mem_cons, List.mem_append, not_or] at hnd'
  have hrl := rootAddr_eq_zero_or_mem ly
  have htop := topAddr_eq_zero_or_mem p
  have hab : a.addr ≠ b.addr := by grind
  obtain ⟨s', hrun, hheap⟩ := leftRotate_heap root hacell hbcell rfl hab
    (fun h0 => (hly.isSome (hrl.resolve_left h0)).2)
    (by simp only [Label.cell]; grind) (by simp only [Label.cell]; grind)
    (fun h0 => (hpath.isSome (htop.resolve_left h0)).2)
    (by simp only [Label.cell]; grind) (by simp only [Label.cell]; grind)
    (by simp only [Label.cell]; grind)
  -- cells away from the rotation keep their contents
  have hother : ∀ q, q ≠ a.addr → q ≠ b.addr → (q = 0 ∨ q ≠ rootAddr ly ∧ q ≠ topAddr p) →
      s'.heap q = s.heap q := by
    intro q hqa hqb hq
    simp only [hheap, rotatedLeft, Label.cell, if_neg hqa, if_neg hqb]
    rcases hq with rfl | ⟨hql, hqp⟩
    · simp
    · simp [hql, hqp]
  have hA : s'.heap a.addr = some (a.cell c (rootAddr lx) (rootAddr ly) b.addr) := by
    simp [hheap, rotatedLeft, Label.cell]
  have hB : s'.heap b.addr = some (b.cell c' a.addr (rootAddr ry) (topAddr p)) := by
    simp [hheap, rotatedLeft, Label.cell, hab.symm]
  refine ⟨s', _, hrun, ⟨?_, ?_, ?_, ?_⟩, ?_⟩
  · refine ⟨hb0, hB, ⟨ha0, hA, hlx.congr fun q hq => ?_, hly.reparent ?_ ?_ ?_⟩,
      hry.congr fun q hq => ?_⟩
    · exact hother q (by grind) (by grind) (by grind)
    · grind
    · intro h0
      have hmem := hrl.resolve_left h0
      simp only [hheap, rotatedLeft, Label.cell]
      grind
    · intro q hq hqr
      exact hother q (by grind) (by grind) (by grind)
    · exact hother q (by grind) (by grind) (by grind)
  · apply hpath.redirect
    · grind
    · exact ha0
    · rw [rootAddr_node]
      grind
    · intro h0
      have hmem := htop.resolve_left h0
      have hpa : topAddr p ≠ a.addr := by grind
      have hpb : topAddr p ≠ b.addr := by grind
      have hpl : topAddr p ≠ rootAddr ly := by grind
      rw [relinkHeap, if_neg h0, alter_self]
      simp only [hheap, rotatedLeft, Label.cell, hpa, hpb, hpl, h0, if_false, if_true]
      rfl
    · intro q hq hqp
      exact hother q (by grind) (by grind) (by grind)
  · simpa [addrs] using hnd
  · exact hf.root_redirect (.node c' (.node c lx a ly) b ry)
  · intro q
    simp only [hheap, rotatedLeft]
    split
    · simp_all
    · split
      · simp_all
      · split
        · rfl
        · split
          · simp
          · split <;> simp

@[simp] theorem rootAddr_mirror (t : RedBlack.Tree (Label T TV)) : rootAddr t.mirror = rootAddr t := by
  cases t <;> rfl

@[simp] theorem topAddr_mirror (p : List (Frame (Label T TV))) :
    topAddr (p.map Frame.mirror) = topAddr p := by
  cases p with
  | nil => rfl
  | cons f p => cases f <;> rfl

theorem addrs_mirror_perm (t : RedBlack.Tree (Label T TV)) : (addrs t.mirror).Perm (addrs t) :=
  t.toList_mirror_perm.map _

theorem pathAddrs_mirror_perm (p : List (Frame (Label T TV))) :
    (pathAddrs (p.map Frame.mirror)).Perm (pathAddrs p) := by
  induction p with
  | nil => exact .refl _
  | cons f p ih =>
      cases f with
      | left c a r => exact ((addrs_mirror_perm r).append ih).cons _
      | right c l a => exact ((addrs_mirror_perm l).append ih).cons _

theorem plug_mirror (t : RedBlack.Tree (Label T TV)) (p : List (Frame (Label T TV))) :
    plug t.mirror (p.map Frame.mirror) = (plug t p).mirror := by
  induction p generalizing t with
  | nil => rfl
  | cons f p ih =>
      cases f with
      | left c a r => exact ih (.node c t a r)
      | right c l a => exact ih (.node c l a t)

theorem Rep.mirror {s : State T TV} {q : ObjectKey} {t : RedBlack.Tree (Label T TV)}
    (ht : Rep s.heap q t) : Rep s.mirror.heap q t.mirror := by
  induction t generalizing q with
  | nil => trivial
  | node c l a r ihl ihr =>
      obtain ⟨hne, hcell, hl, hr⟩ := ht
      refine ⟨hne, ?_, ihr hr, ihl hl⟩
      rw [State.mirror_heap, hcell, rootAddr_mirror, rootAddr_mirror]
      rfl

theorem PathRep.mirror {s : State T TV} {q : ObjectKey} {p : List (Frame (Label T TV))}
    (hp : PathRep s.heap q p) : PathRep s.mirror.heap q (p.map Frame.mirror) := by
  induction p generalizing q with
  | nil => trivial
  | cons f p ih =>
      cases f with
      | left c a r =>
          obtain ⟨hne, hcell, hr, hp⟩ := hp
          refine ⟨hne, ?_, hr.mirror, ih hp⟩
          rw [State.mirror_heap, hcell, rootAddr_mirror, topAddr_mirror]
          rfl
      | right c l a =>
          obtain ⟨hne, hcell, hl, hp⟩ := hp
          refine ⟨hne, ?_, hl.mirror, ih hp⟩
          rw [State.mirror_heap, hcell, rootAddr_mirror, topAddr_mirror]
          rfl

/-- A focus stays one when left and right are exchanged. -/
theorem Focus.mirror {s : State T TV} {root : ObjectKey} {t : RedBlack.Tree (Label T TV)}
    {p : List (Frame (Label T TV))} (hf : Focus s.heap root t p) :
    Focus s.mirror.heap root t.mirror (p.map Frame.mirror) where
  tree := by
    rw [topAddr_mirror]
    exact hf.tree.mirror
  path := by
    rw [rootAddr_mirror]
    exact hf.path.mirror
  nodup := ((addrs_mirror_perm t).append (pathAddrs_mirror_perm p)).nodup_iff.mpr hf.nodup
  root_eq := by rw [plug_mirror, rootAddr_mirror, hf.root_eq]

/-- Rotating the focus to the right exchanges it for the rotated tree, on the same path. -/
theorem rightRotate_focus {s : State T TV} {root : ObjectKey} {c c' : Color}
    {lx rx ry : RedBlack.Tree (Label T TV)} {a b : Label T TV} {p : List (Frame (Label T TV))}
    (hf : Focus s.heap root (.node c (.node c' lx b rx) a ry) p) :
    ∃ s' root', rightRotate s root a.addr = some (s', root') ∧
      Focus s'.heap root' (.node c' lx b (.node c rx a ry)) p ∧
      SameNodes s s' := by
  obtain ⟨s', root', hrun, hf', hdom⟩ := leftRotate_focus hf.mirror
  refine ⟨s'.mirror, root', ?_, ?_, fun q => ?_⟩
  · rw [rightRotate_eq_mirror, hrun]
    rfl
  · have hback := hf'.mirror
    simpa [Function.comp_def] using hback
  · have hq := hdom q
    simpa [State.mirror_heap] using hq

/-! ## Moving the focus and recolouring it -/

theorem focus_left_iff {h : ObjectKey → Option (RBTNode T TV)} {root : ObjectKey} {c : Color}
    {t r : RedBlack.Tree (Label T TV)} {a : Label T TV} {p : List (Frame (Label T TV))} :
    Focus h root t (.left c a r :: p) ↔ Focus h root (.node c t a r) p := by
  have hperm : (addrs t ++ pathAddrs (.left c a r :: p)).Nodup ↔
      (addrs (.node c t a r) ++ pathAddrs p).Nodup := by
    simp [addrs, pathAddrs]
  constructor
  · rintro ⟨htree, ⟨hne, hcell, hr, hp⟩, hnd, hroot⟩
    exact ⟨⟨hne, hcell, htree, hr⟩, hp, hperm.mp hnd, hroot⟩
  · rintro ⟨⟨hne, hcell, ht, hr⟩, hp, hnd, hroot⟩
    exact ⟨ht, ⟨hne, hcell, hr, hp⟩, hperm.mpr hnd, hroot⟩

theorem focus_right_iff {h : ObjectKey → Option (RBTNode T TV)} {root : ObjectKey} {c : Color}
    {t l : RedBlack.Tree (Label T TV)} {a : Label T TV} {p : List (Frame (Label T TV))} :
    Focus h root t (.right c l a :: p) ↔ Focus h root (.node c l a t) p := by
  have hperm : (addrs t ++ pathAddrs (.right c l a :: p)).Nodup ↔
      (addrs (.node c l a t) ++ pathAddrs p).Nodup := by
    apply List.Perm.nodup_iff
    simp only [addrs, pathAddrs, RedBlack.Tree.toList_node, List.map_append, List.map_cons,
      List.append_assoc, List.cons_append]
    calc
      (t.toList.map Label.addr ++ a.addr :: (l.toList.map Label.addr ++ pathAddrs p)).Perm
          (a.addr :: (t.toList.map Label.addr ++ (l.toList.map Label.addr ++ pathAddrs p))) :=
        List.perm_middle
      _ |>.Perm (a.addr :: (l.toList.map Label.addr ++ (t.toList.map Label.addr ++ pathAddrs p))) := by
        rw [← List.append_assoc, ← List.append_assoc]
        exact (List.perm_append_comm.append_right _).cons _
      _ |>.Perm (l.toList.map Label.addr ++ a.addr :: (t.toList.map Label.addr ++ pathAddrs p)) :=
        List.perm_middle.symm
  constructor
  · rintro ⟨htree, ⟨hne, hcell, hr, hp⟩, hnd, hroot⟩
    exact ⟨⟨hne, hcell, hr, htree⟩, hp, hperm.mp hnd, hroot⟩
  · rintro ⟨⟨hne, hcell, hl, ht⟩, hp, hnd, hroot⟩
    exact ⟨ht, ⟨hne, hcell, hl, hp⟩, hperm.mpr hnd, hroot⟩

/-- The focus can be moved up to the root. -/
theorem Focus.toRoot {h : ObjectKey → Option (RBTNode T TV)} {root : ObjectKey}
    {t : RedBlack.Tree (Label T TV)} {p : List (Frame (Label T TV))} (hf : Focus h root t p) :
    Focus h root (plug t p) [] := by
  induction p generalizing t with
  | nil => exact hf
  | cons f p ih =>
      cases f with
      | left c a r => exact ih (focus_left_iff.mp hf)
      | right c l a => exact ih (focus_right_iff.mp hf)

/-- Painting the root of the focus. -/
theorem setColor_focus {s : State T TV} {root : ObjectKey} {c : Color} {l r : RedBlack.Tree (Label T TV)}
    {a : Label T TV} {p : List (Frame (Label T TV))} (hf : Focus s.heap root (.node c l a r) p)
    (c' : Color) :
    ∃ s', s.setColor a.addr c' = some s' ∧ Focus s'.heap root (.node c' l a r) p ∧
      SameNodes s s' := by
  obtain ⟨⟨hne, hcell, hl, hr⟩, hp, hnd, hroot⟩ := hf
  have hnd' : (addrs l ++ a.addr :: (addrs r ++ pathAddrs p)).Nodup := by
    simpa [addrs] using hnd
  simp only [List.nodup_append, List.nodup_cons, List.mem_cons, List.mem_append, not_or] at hnd'
  obtain ⟨s', hs', hheap⟩ : ∃ s', s.setColor a.addr c' = some s' ∧
      s'.heap = Function.update s.heap a.addr (some (a.cell c' (rootAddr l) (rootAddr r) (topAddr p))) := by
    refine ⟨s.set a.addr (a.cell c' (rootAddr l) (rootAddr r) (topAddr p)), ?_, rfl⟩
    rw [State.setColor, State.modify, hcell]
    rfl
  have hother : ∀ q, q ≠ a.addr → s'.heap q = s.heap q := by
    intro q hq
    rw [hheap, Function.update_of_ne hq]
  refine ⟨s', hs', ⟨⟨hne, ?_, hl.congr fun q hq => ?_, hr.congr fun q hq => ?_⟩,
    hp.congr fun q hq => ?_, ?_, ?_⟩, fun q => ?_⟩
  · rw [hheap, Function.update_self]
  · exact hother q (by grind)
  · exact hother q (by grind)
  · exact hother q (by grind)
  · simpa [addrs] using hnd
  · cases p with
    | nil => exact hroot
    | cons f p =>
        rw [hroot]
        exact rootAddr_plug_congr (List.cons_ne_nil f p)
  · by_cases hq : q = a.addr
    · rw [hheap, hq, Function.update_self, hcell]
      rfl
    · rw [hother q hq]

/-- The colour test of the repair loop on the root of a balanced subtree. -/
theorem isRedRef_rootAddr {s : State T TV} {q : ObjectKey} {c : Color} {n : Nat}
    {t : RedBlack.Tree (Label T TV)} (ht : Rep s.heap q t) (hb : Balanced c n t) :
    isRedRef s (rootAddr t) = some (c == .red) := by
  cases hb with
  | nil => rfl
  | red hl hr =>
      obtain ⟨hne, hcell, -, -⟩ := ht
      simp [isRedRef, hne, hcell, Label.cell]
  | black hl hr =>
      obtain ⟨hne, hcell, -, -⟩ := ht
      simp [isRedRef, hne, hcell, Label.cell]

end Dogee.DMap
