import Mathlib.Algebra.GroupWithZero.Nat
import Mathlib.Data.List.Basic
import Mathlib.Data.List.Nodup
import Mathlib.Order.Basic

/-!
# Red-black trees with a focus

Binary trees coloured red and black over an arbitrary label type, and paths
from a focus to the root. A path is the list of frames above the focus, the
nearest first. `Fits` says which balanced trees a path accepts at its hole;
the two repair steps of an insertion, recolouring and rotation, are stated on
the pair of a focus and its path.
-/

namespace Dogee.RedBlack

inductive Color
  | red
  | black
deriving DecidableEq, Repr

inductive Tree (α : Type*)
  | nil
  | node (c : Color) (l : Tree α) (a : α) (r : Tree α)

/-- One step of a path: the hole is the left or the right child of this node. -/
inductive Frame (α : Type*)
  | left (c : Color) (a : α) (r : Tree α)
  | right (c : Color) (l : Tree α) (a : α)

variable {α : Type*}

namespace Tree

/-- The labels in symmetric order. -/
def toList : Tree α → List α
  | nil => []
  | node _ l a r => l.toList ++ a :: r.toList

@[simp] theorem toList_nil : (nil : Tree α).toList = [] := rfl

@[simp] theorem toList_node (c : Color) (l : Tree α) (a : α) (r : Tree α) :
    (node c l a r).toList = l.toList ++ a :: r.toList := rfl

/-- Exchange left and right everywhere. -/
def mirror : Tree α → Tree α
  | nil => nil
  | node c l a r => node c r.mirror a l.mirror

@[simp] theorem mirror_nil : (nil : Tree α).mirror = nil := rfl

@[simp] theorem mirror_node (c : Color) (l : Tree α) (a : α) (r : Tree α) :
    (node c l a r).mirror = node c r.mirror a l.mirror := rfl

@[simp] theorem mirror_mirror (t : Tree α) : t.mirror.mirror = t := by
  induction t with
  | nil => rfl
  | node c l a r ihl ihr => simp [ihl, ihr]

theorem toList_mirror (t : Tree α) : t.mirror.toList = t.toList.reverse := by
  induction t with
  | nil => rfl
  | node c l a r ihl ihr => simp [ihl, ihr]

theorem toList_mirror_perm (t : Tree α) : t.mirror.toList.Perm t.toList := by
  rw [toList_mirror]
  exact List.reverse_perm t.toList

/-- Paint the root black. -/
def blacken : Tree α → Tree α
  | nil => nil
  | node _ l a r => node .black l a r

@[simp] theorem toList_blacken (t : Tree α) : t.blacken.toList = t.toList := by
  cases t <;> rfl

end Tree

namespace Frame

def label : Frame α → α
  | left _ a _ => a
  | right _ _ a => a

def mirror : Frame α → Frame α
  | left c a r => right c r.mirror a
  | right c l a => left c a l.mirror

@[simp] theorem mirror_mirror (f : Frame α) : f.mirror.mirror = f := by
  cases f <;> simp [mirror]

end Frame

/-- Put a tree into the hole of a path. -/
def plug : Tree α → List (Frame α) → Tree α
  | t, [] => t
  | t, .left c a r :: p => plug (.node c t a r) p
  | t, .right c l a :: p => plug (.node c l a t) p

/-- The labels before the hole, in symmetric order. -/
def before : List (Frame α) → List α
  | [] => []
  | .left _ _ _ :: p => before p
  | .right _ l a :: p => before p ++ (l.toList ++ [a])

/-- The labels after the hole, in symmetric order. -/
def after : List (Frame α) → List α
  | [] => []
  | .left _ a r :: p => a :: r.toList ++ after p
  | .right _ _ _ :: p => after p

theorem toList_plug (t : Tree α) (p : List (Frame α)) :
    (plug t p).toList = before p ++ t.toList ++ after p := by
  induction p generalizing t with
  | nil => simp [plug, before, after]
  | cons f p ih => cases f <;> simp [plug, before, after, ih]

/-- Every label of a tree is the root of a focus. -/
theorem exists_focus {t : Tree α} {a : α} (ha : a ∈ t.toList) (p : List (Frame α)) :
    ∃ c l r p', plug (.node c l a r) p' = plug t p := by
  induction t generalizing p with
  | nil => cases ha
  | node c l b r ihl ihr =>
      rw [Tree.toList_node, List.mem_append, List.mem_cons] at ha
      rcases ha with hl | rfl | hr
      · exact ihl hl (.left c b r :: p)
      · exact ⟨c, l, r, p, rfl⟩
      · exact ihr hr (.right c l b :: p)

theorem plug_append (t : Tree α) (q p : List (Frame α)) : plug t (q ++ p) = plug (plug t q) p := by
  induction q generalizing t with
  | nil => rfl
  | cons f q ih => cases f <;> exact ih _

theorem before_append (q p : List (Frame α)) : before (q ++ p) = before p ++ before q := by
  induction q with
  | nil => simp [before]
  | cons f q ih => cases f <;> simp [before, ih]

theorem after_append (q p : List (Frame α)) : after (q ++ p) = after q ++ after p := by
  induction q with
  | nil => simp [after]
  | cons f q ih => cases f <;> simp [after, ih]

theorem length_path_le (p : List (Frame α)) :
    p.length ≤ (before p).length + (after p).length := by
  induction p with
  | nil => simp
  | cons f p ih => cases f <;> simp [before, after] <;> omega

/-! ## Balance -/

/-- No red node has a red child and every path down has `n` black nodes; the
index is the colour of the root, an empty tree counting as black. -/
inductive Balanced : Color → Nat → Tree α → Prop
  | nil : Balanced .black 0 .nil
  | red {n l a r} : Balanced .black n l → Balanced .black n r →
      Balanced .red n (.node .red l a r)
  | black {n c₁ c₂ l a r} : Balanced c₁ n l → Balanced c₂ n r →
      Balanced .black (n + 1) (.node .black l a r)

/-- `Fits ok n p`: the hole of `p` takes balanced trees of black height `n`,
a red one only when `ok`. The root above the hole is black. -/
inductive Fits : Bool → Nat → List (Frame α) → Prop
  | top {n} : Fits true n []
  | blackLeft {n c ok a r p} : Balanced c n r → Fits ok (n + 1) p →
      Fits true n (.left .black a r :: p)
  | blackRight {n c ok a l p} : Balanced c n l → Fits ok (n + 1) p →
      Fits true n (.right .black l a :: p)
  | redLeft {n a r p} : Balanced .black n r → p ≠ [] → Fits true n p →
      Fits false n (.left .red a r :: p)
  | redRight {n a l p} : Balanced .black n l → p ≠ [] → Fits true n p →
      Fits false n (.right .red l a :: p)

theorem Balanced.red_cases {n : Nat} {t : Tree α} (h : Balanced .red n t) :
    ∃ l a r, t = .node .red l a r ∧ Balanced .black n l ∧ Balanced .black n r := by
  cases h with
  | red hl hr => exact ⟨_, _, _, rfl, hl, hr⟩

/-- Filling the hole below the root with a tree it takes gives a balanced tree. -/
theorem Fits.plug_balanced {ok : Bool} {n : Nat} {p : List (Frame α)} (hp : Fits ok n p)
    {c : Color} {t : Tree α} (ht : Balanced c n t) (hc : ok = false → c = .black)
    (hne : p ≠ []) : ∃ m, Balanced .black m (plug t p) := by
  induction hp generalizing c t with
  | top => exact absurd rfl hne
  | @blackLeft n c' ok a r p hr hp ih =>
      have hnew : Balanced .black (n + 1) (.node .black t a r) := .black ht hr
      by_cases hnil : p = []
      · subst hnil
        exact ⟨_, hnew⟩
      · exact ih hnew (fun _ => rfl) hnil
  | @blackRight n c' ok a l p hl hp ih =>
      have hnew : Balanced .black (n + 1) (.node .black l a t) := .black hl ht
      by_cases hnil : p = []
      · subst hnil
        exact ⟨_, hnew⟩
      · exact ih hnew (fun _ => rfl) hnil
  | redLeft hr hnil hp ih =>
      obtain rfl := hc rfl
      exact ih (.red ht hr) (fun h => by cases h) hnil
  | redRight hl hnil hp ih =>
      obtain rfl := hc rfl
      exact ih (.red hl ht) (fun h => by cases h) hnil

/-- Filling a hole that takes the tree and painting the root black gives a
balanced tree with a black root. -/
theorem Fits.blacken_balanced {ok : Bool} {n : Nat} {p : List (Frame α)} (hp : Fits ok n p)
    {c : Color} {t : Tree α} (ht : Balanced c n t) (hc : ok = false → c = .black) :
    ∃ m, Balanced .black m (plug t p).blacken := by
  have hblack {m : Nat} {t : Tree α} (h : Balanced .black m t) :
      Balanced .black m t.blacken := by
    cases h with
    | nil => exact .nil
    | black hl hr => exact .black hl hr
  by_cases hnil : p = []
  · subst hnil
    cases ht with
    | nil => exact ⟨_, .nil⟩
    | red hl hr => exact ⟨_, .black hl hr⟩
    | black hl hr => exact ⟨_, .black hl hr⟩
  · obtain ⟨m, hm⟩ := hp.plug_balanced ht hc hnil
    exact ⟨m, hblack hm⟩

/-- Going down into the left child of a tree that fits its hole. -/
theorem Fits.descend_left {ok : Bool} {n : Nat} {p : List (Frame α)} (hp : Fits ok n p)
    {c c' : Color} {l r : Tree α} {a : α} (ht : Balanced c n (.node c' l a r))
    (hc : ok = false → c = .black) (htop : p = [] → c = .black) :
    ∃ c₁ n₁ ok₁, Balanced c₁ n₁ l ∧ Fits ok₁ n₁ (.left c' a r :: p) ∧
      (ok₁ = false → c₁ = .black) := by
  cases ht with
  | red hl hr =>
      have hok : ok = true := by
        cases ok with
        | false => exact absurd (hc rfl) (by decide)
        | true => rfl
      subst hok
      exact ⟨_, _, _, hl, .redLeft hr (fun h => absurd (htop h) (by decide)) hp, fun _ => rfl⟩
  | black hl hr => exact ⟨_, _, _, hl, .blackLeft hr hp, fun h => by cases h⟩

/-- Going down into the right child of a tree that fits its hole. -/
theorem Fits.descend_right {ok : Bool} {n : Nat} {p : List (Frame α)} (hp : Fits ok n p)
    {c c' : Color} {l r : Tree α} {a : α} (ht : Balanced c n (.node c' l a r))
    (hc : ok = false → c = .black) (htop : p = [] → c = .black) :
    ∃ c₁ n₁ ok₁, Balanced c₁ n₁ r ∧ Fits ok₁ n₁ (.right c' l a :: p) ∧
      (ok₁ = false → c₁ = .black) := by
  cases ht with
  | red hl hr =>
      have hok : ok = true := by
        cases ok with
        | false => exact absurd (hc rfl) (by decide)
        | true => rfl
      subst hok
      exact ⟨_, _, _, hr, .redRight hl (fun h => absurd (htop h) (by decide)) hp, fun _ => rfl⟩
  | black hl hr => exact ⟨_, _, _, hr, .blackRight hl hp, fun h => by cases h⟩

/-- In a balanced tree with a black root every hole takes the subtree there. -/
theorem Balanced.exists_fits {m : Nat} {t : Tree α} {p : List (Frame α)}
    (h : Balanced .black m (plug t p)) :
    ∃ c n ok, Balanced c n t ∧ Fits ok n p ∧ (ok = false → c = .black) ∧ (p = [] → c = .black) := by
  induction p generalizing t with
  | nil => exact ⟨_, _, true, h, .top, fun _ => rfl, fun _ => rfl⟩
  | cons f p ih =>
      cases f with
      | left c a r =>
          obtain ⟨c₁, n₁, ok₁, hb, hp, hok, htop⟩ := ih h
          obtain ⟨c₂, n₂, ok₂, hb₂, hp₂, hok₂⟩ := hp.descend_left hb hok htop
          exact ⟨c₂, n₂, ok₂, hb₂, hp₂, hok₂, by simp⟩
      | right c l a =>
          obtain ⟨c₁, n₁, ok₁, hb, hp, hok, htop⟩ := ih h
          obtain ⟨c₂, n₂, ok₂, hb₂, hp₂, hok₂⟩ := hp.descend_right hb hok htop
          exact ⟨c₂, n₂, ok₂, hb₂, hp₂, hok₂, by simp⟩

/-- What a path takes does not depend on the labels on it. -/
theorem Fits.relabel {ok : Bool} {n : Nat} {c : Color} {l : Tree α} {a : α} {q p : List (Frame α)}
    (h : Fits ok n (q ++ .right c l a :: p)) (b : α) : Fits ok n (q ++ .right c l b :: p) := by
  induction q generalizing ok n with
  | nil =>
      cases h with
      | blackRight hl hp => exact .blackRight hl hp
      | redRight hl hne hp => exact .redRight hl hne hp
  | cons f q ih =>
      cases h with
      | blackLeft hr hp => exact .blackLeft hr (ih hp)
      | blackRight hl hp => exact .blackRight hl (ih hp)
      | redLeft hr _ hp => exact .redLeft hr (by simp) (ih hp)
      | redRight hl _ hp => exact .redRight hl (by simp) (ih hp)

/-! ## One black node short -/

/-- A subtree that became one black node shorter: painting a red root black
makes it a balanced tree of black height `n + 1`, and with a black root it is a
balanced tree of black height `n`. -/
inductive Short : Color → Nat → Tree α → Prop
  | black {n t} : Balanced .black n t → Short .black n t
  | red {n c₁ c₂ l a r} : Balanced c₁ n l → Balanced c₂ n r → Short .red n (.node .red l a r)

theorem Balanced.short {c : Color} {n : Nat} {t : Tree α} (h : Balanced c n t) : Short c n t := by
  cases h with
  | nil => exact .black .nil
  | red hl hr => exact .red hl hr
  | black hl hr => exact .black (.black hl hr)

/-- A balanced tree with some black height is not empty. -/
theorem Balanced.exists_node {c : Color} {n : Nat} {t : Tree α} (h : Balanced c (n + 1) t) :
    ∃ c' l a r, t = .node c' l a r := by
  cases h with
  | red hl hr => exact ⟨_, _, _, _, rfl⟩
  | black hl hr => exact ⟨_, _, _, _, rfl⟩

/-- A red root painted black makes up for the missing node. -/
theorem Fits.blacken_short {ok : Bool} {n : Nat} {p : List (Frame α)} (hp : Fits ok (n + 1) p)
    {t : Tree α} (ht : Short .red n t) : ∃ m, Balanced .black m (plug t.blacken p) := by
  cases ht with
  | red hl hr =>
      by_cases hnil : p = []
      · subst hnil
        exact ⟨_, .black hl hr⟩
      · exact hp.plug_balanced (.black hl hr) (fun _ => rfl) hnil

/-! ## Height -/

/-- The number of nodes on the longest path down. -/
def Tree.height : Tree α → Nat
  | nil => 0
  | node _ l _ r => max l.height r.height + 1

/-- At most every other node on a path down is red. -/
theorem Balanced.height_le {c : Color} {n : Nat} {t : Tree α} (h : Balanced c n t) :
    t.height ≤ 2 * n + if c = .red then 1 else 0 := by
  induction h with
  | nil => exact Nat.le_refl 0
  | red hl hr ihl ihr =>
      rw [if_neg (by decide)] at ihl ihr
      exact Nat.succ_le_succ (Nat.max_le.mpr ⟨ihl, ihr⟩)
  | @black n c₁ c₂ l a r hl hr ihl ihr =>
      have hred : ∀ c : Color, (if c = .red then 1 else 0 : Nat) ≤ 1 := fun c => by cases c <;> decide
      have hl' : l.height ≤ 2 * n + 1 := Nat.le_trans ihl (Nat.add_le_add_left (hred c₁) _)
      have hr' : r.height ≤ 2 * n + 1 := Nat.le_trans ihr (Nat.add_le_add_left (hred c₂) _)
      exact Nat.succ_le_succ (Nat.max_le.mpr ⟨hl', hr'⟩)

/-- A tree has at least as many nodes as the complete tree of its black nodes. -/
theorem Balanced.two_pow_le {c : Color} {n : Nat} {t : Tree α} (h : Balanced c n t) :
    2 ^ n ≤ t.toList.length + 1 := by
  induction h with
  | nil => exact Nat.le_refl 1
  | red hl hr ihl ihr =>
      rw [Tree.toList_node, List.length_append, List.length_cons]
      omega
  | black hl hr ihl ihr =>
      rw [Tree.toList_node, List.length_append, List.length_cons, pow_succ]
      omega

/-- A balanced tree with a black root is at most twice as high as it has to be. -/
theorem Balanced.height_le_log {n : Nat} {t : Tree α} (h : Balanced .black n t) :
    t.height ≤ 2 * Nat.log2 (t.toList.length + 1) := by
  have hlog : n ≤ Nat.log2 (t.toList.length + 1) := (Nat.le_log2 (Nat.succ_ne_zero _)).mpr h.two_pow_le
  calc t.height ≤ 2 * n := h.height_le
    _ ≤ 2 * Nat.log2 (t.toList.length + 1) := Nat.mul_le_mul_left 2 hlog

end Dogee.RedBlack
