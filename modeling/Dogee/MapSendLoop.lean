import Dogee.MapReduceOnce

/-!
# The send loop of `_Map`

The loop runs while there are pairs. An iteration packs one buffer for the caller's own
node when it is its turn, and else one for each node whose socket is writable. A pair
that does not fit into an empty buffer is never packed: `PrepareBuf` then leaves the
iterator where it is, and the loop sends empty messages for ever.
-/

namespace Dogee.MapReduce

open Checkpoint (Byte)
open Serializer

/-- The variables of `_Map` and `Map` that the loop uses. -/
structure Sender (cfg : Config) where
  itr : List cfg.Pair
  turns : BitVec 32
  mybuf : List Byte

section Loop

variable {cfg : Config}

namespace Sender

/-- Pack a buffer and count the turn. -/
def prepare (s : Sender cfg) : Sender cfg :=
  let r := prepareBuf cfg s.itr s.mybuf
  ⟨r.1, s.turns + 1, r.2.2⟩

/-- It is the turn of the caller's own node. -/
def OwnTurn (s : Sender cfg) : Prop := s.turns.toInt.tmod cfg.numNodes = cfg.self

instance (s : Sender cfg) : Decidable s.OwnTurn := inferInstanceAs (Decidable (_ = _))

/-- The loop over the nodes, after `select` has said which sockets are writable. -/
def pass (ready : Nat → Bool) (nodes : List Nat) (s : Sender cfg) : Sender cfg :=
  nodes.foldl (fun s i => if i ≠ cfg.self ∧ ready i then s.prepare else s) s

/-- An iteration of the loop. -/
def iteration (ready : Nat → Bool) (s : Sender cfg) : Sender cfg :=
  if s.OwnTurn then s.prepare else s.pass ready (List.range cfg.numNodes)

/-- The variables after `k` iterations; `selects` are the outcomes of `select`. -/
def after (selects : Nat → Nat → Bool) (s : Sender cfg) : Nat → Sender cfg
  | 0 => s
  | k + 1 => if (after selects s k).itr = [] then after selects s k else (after selects s k).iteration (selects k)

/-- Every `select` finds a writable socket. -/
def Writable (selects : Nat → Nat → Bool) (s : Sender cfg) : Prop :=
  ∀ k, (s.after selects k).itr ≠ [] → ¬(s.after selects k).OwnTurn →
    ∃ i < cfg.numNodes, i ≠ cfg.self ∧ selects k i = true

end Sender

/-- The loop ends, and until then every iteration advances the iterator. -/
def SendLoopEnds (cfg : Config) : Prop :=
  ∀ (mybuf : List Byte) (selects : Nat → Nat → Bool),
    (Sender.mk cfg.inMap 0 mybuf).Writable selects →
    (∃ k, ((Sender.mk cfg.inMap 0 mybuf).after selects k).itr = []) ∧
    ∀ k, ((Sender.mk cfg.inMap 0 mybuf).after selects k).itr ≠ [] →
      ((Sender.mk cfg.inMap 0 mybuf).after selects (k + 1)).itr.length <
        ((Sender.mk cfg.inMap 0 mybuf).after selects k).itr.length

/-- What is left of the pairs after some of them, which fit into a buffer. -/
def Remains (cfg : Config) (itr rest : List cfg.Pair) : Prop :=
  ∃ ps, itr = ps ++ rest ∧ ∀ p ∈ ps, cfg.size p ≤ bufLen

theorem Remains.refl (itr : List cfg.Pair) : Remains cfg itr itr := ⟨[], rfl, by simp⟩

theorem Remains.trans {itr rest rest' : List cfg.Pair} (h : Remains cfg itr rest)
    (h' : Remains cfg rest rest') : Remains cfg itr rest' := by
  obtain ⟨ps, rfl, hps⟩ := h
  obtain ⟨ps', rfl, hps'⟩ := h'
  refine ⟨ps ++ ps', (List.append_assoc ..).symm, fun p hp => ?_⟩
  rcases List.mem_append.mp hp with hp | hp
  · exact hps p hp
  · exact hps' p hp

theorem Remains.length_le {itr rest : List cfg.Pair} (h : Remains cfg itr rest) : rest.length ≤ itr.length := by
  obtain ⟨ps, rfl, -⟩ := h
  rw [List.length_append]
  exact Nat.le_add_left ..

/-- A pair that does not fit into a buffer remains. -/
theorem Remains.mem {itr rest : List cfg.Pair} (h : Remains cfg itr rest) {p : cfg.Pair} (hp : p ∈ itr)
    (hsize : bufLen < cfg.size p) : p ∈ rest := by
  obtain ⟨ps, rfl, hps⟩ := h
  rcases List.mem_append.mp hp with hp | hp
  · exact absurd (hps p hp) (Nat.not_le_of_lt hsize)
  · exact hp

theorem Remains.subset {itr rest : List cfg.Pair} (h : Remains cfg itr rest) {p : cfg.Pair} (hp : p ∈ rest) :
    p ∈ itr := by
  obtain ⟨ps, rfl, -⟩ := h
  exact List.mem_append_right _ hp

/-- The loop of `PrepareBuf` takes pairs that fit. -/
theorem prepareLoop_remains (itr : List cfg.Pair) (elements idx : Nat) (mybuf : List Byte) :
    Remains cfg itr (prepareLoop cfg itr elements idx mybuf).1 := by
  induction itr generalizing elements idx mybuf with
  | nil => exact Remains.refl []
  | cons p itr ih =>
      rw [prepareLoop]
      split
      · split
        · rename_i hfits
          have hfirst : Remains cfg (p :: itr) itr := by
            refine ⟨[p], rfl, fun q hq => ?_⟩
            rw [List.mem_singleton.mp hq]
            exact (Nat.le_add_left ..).trans hfits
          dsimp only
          split
          · exact hfirst
          · exact hfirst.trans (ih _ _ _)
        · exact Remains.refl _
      · exact Remains.refl _

/-- `PrepareBuf` takes a pair that fits into an empty buffer. -/
theorem prepareBuf_advances {p : cfg.Pair} (itr : List cfg.Pair) (mybuf : List Byte)
    (hsize : cfg.size p ≤ bufLen) :
    (prepareBuf cfg (p :: itr) mybuf).1.length < (p :: itr).length := by
  have hroom : 0 < bufLen := by decide
  rw [prepareBuf, prepareLoop, if_pos hroom, if_pos (by omega)]
  dsimp only
  split
  · exact Nat.lt_succ_self _
  · exact Nat.lt_succ_of_le (prepareLoop_remains itr _ _ _).length_le

namespace Sender

theorem prepare_remains (s : Sender cfg) : Remains cfg s.itr s.prepare.itr := prepareLoop_remains ..

theorem prepare_advances {s : Sender cfg} (hne : s.itr ≠ []) (hfit : ∀ p ∈ s.itr, cfg.size p ≤ bufLen) :
    s.prepare.itr.length < s.itr.length := by
  obtain ⟨p, itr, hitr⟩ := List.exists_cons_of_ne_nil hne
  have hsize := hfit p (hitr ▸ List.mem_cons_self)
  rw [prepare, hitr]
  exact prepareBuf_advances itr s.mybuf hsize

theorem pass_remains (ready : Nat → Bool) (nodes : List Nat) (s : Sender cfg) :
    Remains cfg s.itr (s.pass ready nodes).itr := by
  induction nodes generalizing s with
  | nil => exact Remains.refl _
  | cons i nodes ih =>
      rw [pass, List.foldl_cons]
      split
      · exact s.prepare_remains.trans (ih s.prepare)
      · exact ih s

theorem pass_advances {ready : Nat → Bool} {nodes : List Nat} {s : Sender cfg} (hne : s.itr ≠ [])
    (hfit : ∀ p ∈ s.itr, cfg.size p ≤ bufLen) (hready : ∃ i ∈ nodes, i ≠ cfg.self ∧ ready i = true) :
    (s.pass ready nodes).itr.length < s.itr.length := by
  induction nodes generalizing s with
  | nil =>
      obtain ⟨i, hi, -⟩ := hready
      cases hi
  | cons i nodes ih =>
      rw [pass, List.foldl_cons]
      split
      · exact (pass_remains ready nodes s.prepare).length_le.trans_lt (prepare_advances hne hfit)
      · rename_i hskip
        obtain ⟨j, hj, hother⟩ := hready
        apply ih hne hfit
        rcases List.mem_cons.mp hj with rfl | hj
        · exact absurd hother hskip
        · exact ⟨j, hj, hother⟩

theorem iteration_remains (ready : Nat → Bool) (s : Sender cfg) :
    Remains cfg s.itr (s.iteration ready).itr := by
  rw [iteration]
  split
  · exact s.prepare_remains
  · exact s.pass_remains ready _

theorem after_remains (selects : Nat → Nat → Bool) (s : Sender cfg) (k : Nat) :
    Remains cfg s.itr (s.after selects k).itr := by
  induction k with
  | zero => exact Remains.refl _
  | succ k ih =>
      rw [after]
      split
      · exact ih
      · exact ih.trans (iteration_remains _ _)

theorem after_advances {selects : Nat → Nat → Bool} {s : Sender cfg} (hwritable : s.Writable selects)
    (hfit : ∀ p ∈ s.itr, cfg.size p ≤ bufLen) {k : Nat} (hne : (s.after selects k).itr ≠ []) :
    (s.after selects (k + 1)).itr.length < (s.after selects k).itr.length := by
  have hfit' : ∀ p ∈ (s.after selects k).itr, cfg.size p ≤ bufLen :=
    fun p hp => hfit p ((after_remains selects s k).subset hp)
  rw [after, if_neg hne, iteration]
  split
  · exact prepare_advances hne hfit'
  · rename_i hturn
    obtain ⟨i, hi, hother, hready⟩ := hwritable k hne hturn
    exact pass_advances hne hfit' ⟨i, List.mem_range.mpr hi, hother, hready⟩

theorem after_length {selects : Nat → Nat → Bool} {s : Sender cfg} (hwritable : s.Writable selects)
    (hfit : ∀ p ∈ s.itr, cfg.size p ≤ bufLen) (k : Nat) :
    (s.after selects k).itr.length ≤ s.itr.length - k := by
  induction k with
  | zero => exact Nat.le_refl _
  | succ k ih =>
      by_cases hnil : (s.after selects k).itr = []
      · rw [after, if_pos hnil, hnil]
        exact Nat.zero_le _
      · have hlt := after_advances hwritable hfit hnil
        omega

end Sender

/-- A pair that does not fit into a buffer keeps the loop running. -/
theorem not_sendLoopEnds {p : cfg.Pair} (hp : p ∈ cfg.inMap) (hsize : bufLen < cfg.size p) :
    ¬SendLoopEnds cfg := by
  intro h
  have hwritable : (Sender.mk cfg.inMap 0 []).Writable fun _ _ => true := by
    intro k _ hturn
    obtain ⟨i, hi, hother⟩ := exists_other hturn
    exact ⟨i, hi, hother, rfl⟩
  obtain ⟨⟨k, hk⟩, -⟩ := h [] (fun _ _ => true) hwritable
  have hstays := (Sender.after_remains (fun _ _ => true) (Sender.mk cfg.inMap 0 []) k).mem hp hsize
  rw [hk] at hstays
  cases hstays

/-- The send loop ends, every iteration advancing the iterator, exactly if every pair of the
map fits into a buffer. -/
theorem sendLoopEnds_iff (cfg : Config) : SendLoopEnds cfg ↔ ∀ p ∈ cfg.inMap, cfg.size p ≤ bufLen := by
  constructor
  · intro h p hp
    by_contra hsize
    exact not_sendLoopEnds hp (Nat.lt_of_not_le hsize) h
  · intro hfit mybuf selects hwritable
    refine ⟨⟨cfg.inMap.length, ?_⟩, fun k hne => Sender.after_advances hwritable hfit hne⟩
    have hlength := Sender.after_length hwritable hfit cfg.inMap.length
    rw [Nat.sub_self] at hlength
    exact List.length_eq_zero_iff.mp (Nat.le_zero.mp hlength)

end Loop

/-- A map with one line, on one node. -/
def oneLine (line : List Byte) : Config where
  numNodes := 1
  self := 0
  placed := Nat.one_pos
  threadId := 1
  id_ne_zero := Nat.one_ne_zero
  keyTy := .int
  valueTy := .string
  inMap := [((0 : Word), line)]
  nodup := List.nodup_singleton _
  ndebug := false

theorem not_sendLoopEnds_oneLine {line : List Byte} (h : bufLen < cellDivide 4 + InputSerializer.stringSize line) :
    ¬SendLoopEnds (oneLine line) := by
  have hmem : ∃ p ∈ (oneLine line).inMap, bufLen < (oneLine line).size p := ⟨_, List.mem_cons_self, h⟩
  obtain ⟨p, hp, hsize⟩ := hmem
  exact not_sendLoopEnds hp hsize

/-- A line of 16384 characters takes 4099 words with its length and its key, and a buffer
has 4096. -/
theorem long_line_never_sent : ¬SendLoopEnds (oneLine (List.replicate 16384 97)) := by
  apply not_sendLoopEnds_oneLine
  rw [InputSerializer.stringSize, List.length_replicate]
  decide

end Dogee.MapReduce
