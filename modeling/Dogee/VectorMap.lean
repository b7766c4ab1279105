import Mathlib.Data.List.Nodup
import Mathlib.Data.List.Perm.Basic

/-!
# Maps from keys to vectors

A hash map from keys to vectors is the list of its entries, each key once, in the
order of its iterator. Values are appended to the vector of their key. `under`
collects the values of one key; it does not depend on the order of the entries.
-/

namespace Dogee.VectorMap

variable {K V : Type*}

/-- No key has two entries. -/
def WellFormed (m : List (K × List V)) : Prop := (m.map Prod.fst).Nodup

variable [DecidableEq K]

/-- `m[key].push_back(value)` -/
def pushBack (m : List (K × List V)) (key : K) (value : V) : List (K × List V) :=
  match m with
  | [] => [(key, [value])]
  | e :: m => if e.1 = key then (key, e.2 ++ [value]) :: m else e :: pushBack m key value

/-- `m[key].push_back(value)` for each of some pairs. -/
def pushAll (m : List (K × List V)) (ps : List (K × V)) : List (K × List V) :=
  ps.foldl (fun m p => pushBack m p.1 p.2) m

/-- The values under a key. -/
def under (key : K) (m : List (K × List V)) : List V := (m.filter fun e => e.1 = key).flatMap Prod.snd

/-- The values that some pairs have for a key. -/
def valuesFor (key : K) (ps : List (K × V)) : List V := (ps.filter fun p => p.1 = key).map Prod.snd

@[simp] theorem under_nil (key : K) : under key ([] : List (K × List V)) = [] := rfl

@[simp] theorem valuesFor_nil (key : K) : valuesFor key ([] : List (K × V)) = [] := rfl

theorem under_append (key : K) (m m' : List (K × List V)) : under key (m ++ m') = under key m ++ under key m' := by
  rw [under, List.filter_append, List.flatMap_append]
  rfl

theorem valuesFor_append (key : K) (ps qs : List (K × V)) :
    valuesFor key (ps ++ qs) = valuesFor key ps ++ valuesFor key qs := by
  rw [valuesFor, List.filter_append, List.map_append]
  rfl

theorem valuesFor_perm (key : K) {ps qs : List (K × V)} (h : ps.Perm qs) :
    (valuesFor key ps).Perm (valuesFor key qs) := (h.filter _).map _

theorem under_cons_of_ne {key : K} {e : K × List V} (hne : e.1 ≠ key) (m : List (K × List V)) :
    under key (e :: m) = under key m := by
  rw [under, List.filter_cons_of_neg (by simpa using hne)]
  rfl

theorem under_cons_self (e : K × List V) (m : List (K × List V)) :
    under e.1 (e :: m) = e.2 ++ under e.1 m := by
  rw [under, List.filter_cons_of_pos (by simp), List.flatMap_cons]
  rfl

/-- A key without an entry has no values. -/
theorem under_eq_nil {key : K} {m : List (K × List V)} (h : key ∉ m.map Prod.fst) : under key m = [] := by
  have hnone : m.filter (fun e => decide (e.1 = key)) = [] := by
    apply List.filter_eq_nil_iff.mpr
    intro e he hkey
    exact h (List.mem_map.mpr ⟨e, he, of_decide_eq_true hkey⟩)
  rw [under, hnone]
  rfl

theorem mem_keys_pushBack {m : List (K × List V)} {key k : K} {value : V} :
    k ∈ (pushBack m key value).map Prod.fst ↔ k ∈ m.map Prod.fst ∨ k = key := by
  induction m with
  | nil => simp [pushBack]
  | cons e m ih =>
      rw [pushBack]
      split
      · rename_i hkey
        subst hkey
        simp only [List.map_cons, List.mem_cons]
        tauto
      · rw [List.map_cons, List.map_cons, List.mem_cons, List.mem_cons, ih, or_assoc]

theorem WellFormed.pushBack {m : List (K × List V)} (h : WellFormed m) (key : K) (value : V) :
    WellFormed (pushBack m key value) := by
  induction m with
  | nil => exact List.nodup_singleton key
  | cons e m ih =>
      obtain ⟨hnot, hrest⟩ := List.nodup_cons.mp h
      rw [VectorMap.pushBack]
      split
      · rename_i hkey
        subst hkey
        exact List.nodup_cons.mpr ⟨hnot, hrest⟩
      · rename_i hkey
        apply List.nodup_cons.mpr
        refine ⟨fun hmem => ?_, ih hrest⟩
        rcases mem_keys_pushBack.mp hmem with hmem | heq
        · exact hnot hmem
        · exact hkey heq

theorem WellFormed.pushAll {m : List (K × List V)} (h : WellFormed m) (ps : List (K × V)) :
    WellFormed (pushAll m ps) := by
  induction ps generalizing m with
  | nil => exact h
  | cons p ps ih => exact ih (h.pushBack p.1 p.2)

/-- A value is appended to those of its key. -/
theorem under_pushBack {m : List (K × List V)} (h : WellFormed m) (k key : K) (value : V) :
    under k (pushBack m key value) = under k m ++ if key = k then [value] else [] := by
  induction m with
  | nil =>
      by_cases hk : key = k
      · simp [pushBack, under, hk]
      · simp [pushBack, under, hk]
  | cons e m ih =>
      obtain ⟨hnot, hrest⟩ := List.nodup_cons.mp h
      rw [pushBack]
      split
      · rename_i hkey
        subst hkey
        by_cases hk : e.1 = k
        · subst hk
          rw [under_cons_self, under_cons_self (e.1, e.2 ++ [value]), under_eq_nil hnot, if_pos rfl]
          simp
        · have hk' : (e.1, e.2 ++ [value]).1 ≠ k := hk
          rw [under_cons_of_ne hk, under_cons_of_ne hk', if_neg hk, List.append_nil]
      · by_cases hk : e.1 = k
        · subst hk
          rw [under_cons_self, under_cons_self, ih hrest, List.append_assoc]
        · rw [under_cons_of_ne hk, under_cons_of_ne hk, ih hrest]

/-- The values of each key are those of the pairs, in their order. -/
theorem under_pushAll {m : List (K × List V)} (h : WellFormed m) (k : K) (ps : List (K × V)) :
    under k (pushAll m ps) = under k m ++ valuesFor k ps := by
  induction ps generalizing m with
  | nil => exact (List.append_nil _).symm
  | cons p ps ih =>
      calc under k (pushAll m (p :: ps))
          = under k (pushBack m p.1 p.2) ++ valuesFor k ps := ih (h.pushBack p.1 p.2)
        _ = (under k m ++ if p.1 = k then [p.2] else []) ++ valuesFor k ps := by rw [under_pushBack h]
        _ = under k m ++ valuesFor k (p :: ps) := by
            by_cases hk : p.1 = k
            · simp [valuesFor, hk]
            · simp [valuesFor, hk]

/-- The order of the entries does not matter. -/
theorem under_perm {m m' : List (K × List V)} (h : WellFormed m) (hperm : m'.Perm m) (k : K) :
    under k m' = under k m := by
  have hone : ∀ {l l' : List (K × List V)}, l.length ≤ 1 → l'.Perm l → l' = l := by
    intro l l' hlen hl
    match l with
    | [] => exact hl.eq_nil
    | [e] => exact List.perm_singleton.mp hl
  have hshort : (m.filter fun e => decide (e.1 = k)).length ≤ 1 := by
    induction m generalizing m' with
    | nil => exact Nat.zero_le 1
    | cons e m ih =>
        obtain ⟨hnot, hrest⟩ := List.nodup_cons.mp h
        by_cases hk : e.1 = k
        · subst hk
          have hnone : m.filter (fun e' => decide (e'.1 = e.1)) = [] := by
            apply List.filter_eq_nil_iff.mpr
            intro e' he' hkey
            exact hnot (List.mem_map.mpr ⟨e', he', of_decide_eq_true hkey⟩)
          rw [List.filter_cons_of_pos (by simp), hnone]
          exact Nat.le_refl 1
        · rw [List.filter_cons_of_neg (by simpa using hk)]
          exact ih hrest (List.Perm.refl m)
  rw [under, under, hone hshort (hperm.filter _)]

end Dogee.VectorMap
