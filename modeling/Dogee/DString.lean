import Dogee.Checkpoint
import Dogee.StorageCall
import Mathlib.Data.List.TakeWhile

/-!
# Strings in shared memory

A `DString` has its length in field 0 and its bytes, four to a word, from field 1 on. `Create` packs
the memory that `c_str` points to, which goes on behind the string; `getstr` reads the words back into
a local buffer, ends it at the length of the string and takes what a C string there is. A handle keeps
the string from its first `getstr` on.
-/

namespace Dogee.DString

open Checkpoint (Byte readWord readWords writeWord writeWords)

/-- `size / sizeof(uint32_t) + (has_tail ? 1 : 0)` -/
def wordCount (size : Nat) : Nat := (size / 4 + if size % 4 ≠ 0 then 1 else 0) % two32

/-- The storage calls of `Create` for the object `okey`; `past` is the memory behind the string. -/
def create (okey : ObjectKey) (str : List Byte) (past : Nat → Byte) : Option (List Call) := do
  let size := wordCount str.length
  let (ptr, _) ← readWords size (str ++ 0 :: (List.range (4 * size)).map past)
  return [.putchunk okey 1 ptr, .put okey 0 (UInt32.ofNat str.length)]

/-- A local object for the string `okey`. -/
structure Handle where
  okey : ObjectKey
  cached : Bool
  cachedString : List Byte

def Handle.new (okey : ObjectKey) : Handle := ⟨okey, false, []⟩

namespace Handle

def size (m : Memory) (d : Handle) : Word := ((Call.get d.okey 0).flat m).1.headD 0

/-- `fresh` is what the new buffer holds. -/
def getstr (m : Memory) (fresh : Nat → Byte) (d : Handle) : List Byte × Handle :=
  if d.cached then (d.cachedString, d)
  else
    let sz := (d.size m).toNat
    let size := wordCount sz
    let words := ((Call.getchunk d.okey 1 size (List.replicate size 0)).flat m).1
    let buffer := writeWords words ++ (List.range 4).map fresh
    let buffer := buffer.set sz 0
    -- `std::string(buffer)` ends at the first NUL
    let str := buffer.takeWhile (· ≠ 0)
    (str, { d with cached := true, cachedString := str })

/-- The results of several calls, each on the memory as it is then. -/
def getstrs : List (Memory × (Nat → Byte)) → Handle → List (List Byte)
  | [], _ => []
  | (m, fresh) :: rest, d => (d.getstr m fresh).1 :: getstrs rest (d.getstr m fresh).2

end Handle

/-- After `Create`, a handle of the string gives its length and, at every call of `getstr`, the string. -/
def RoundTrip (str : List Byte) : Prop :=
  ∀ (okey : ObjectKey) (m : Memory) (past fresh : Nat → Byte) (later : List (Memory × (Nat → Byte))),
    ∃ calls, create okey str past = some calls ∧
      ((Handle.new okey).size (flatRun calls m).2).toNat = str.length ∧
      ∀ r ∈ (Handle.new okey).getstrs (((flatRun calls m).2, fresh) :: later), r = str

/-! ## Words and bytes -/

theorem length_writeWords (ws : List Word) : (writeWords ws).length = 4 * ws.length := by
  induction ws with
  | nil => rfl
  | cons w ws ih =>
      have hsplit : writeWords (w :: ws) = writeWord w ++ writeWords ws := rfl
      rw [hsplit, List.length_append, ih, List.length_cons, Nat.mul_succ, Nat.add_comm]
      rfl

/-- The bytes of a word that was read are those that it was read from. -/
theorem writeWord_of_readWord {bytes rest : List Byte} {w : Word} (h : readWord bytes = some (w, rest)) :
    writeWord w ++ rest = bytes := by
  unfold readWord at h
  split at h
  · rename_i a b c d tail
    obtain ⟨rfl, rfl⟩ := Prod.mk.inj (Option.some.inj h)
    have ha := a.toNat_lt
    have hb := b.toNat_lt
    have hc := c.toNat_lt
    have hd := d.toNat_lt
    have hword : (UInt32.ofNat (a.toNat + 2 ^ 8 * b.toNat + 2 ^ 16 * c.toNat + 2 ^ 24 * d.toNat)).toNat =
        a.toNat + 2 ^ 8 * b.toNat + 2 ^ 16 * c.toNat + 2 ^ 24 * d.toNat := by
      rw [UInt32.toNat_ofNat']
      omega
    have hbyte : ∀ (x : Byte) (n : Nat), n % 2 ^ 8 = x.toNat → UInt8.ofNat n = x := by
      intro x n hn
      apply UInt8.toNat_inj.mp
      rw [UInt8.toNat_ofNat', hn]
    rw [writeWord, hword, hbyte a _ (by omega), hbyte b _ (by omega), hbyte c _ (by omega), hbyte d _ (by omega)]
    rfl
  · cases h

theorem exists_readWord {bytes : List Byte} (hlen : 4 ≤ bytes.length) :
    ∃ w rest, readWord bytes = some (w, rest) ∧ rest.length + 4 = bytes.length := by
  match bytes, hlen with
  | a :: b :: c :: d :: rest, _ => exact ⟨_, rest, rfl, rfl⟩

/-- Enough bytes can be read as words, and the words stand for the bytes. -/
theorem exists_readWords {n : Nat} {bytes : List Byte} (hlen : 4 * n ≤ bytes.length) :
    ∃ ws rest, readWords n bytes = some (ws, rest) ∧ ws.length = n ∧ writeWords ws ++ rest = bytes := by
  induction n generalizing bytes with
  | zero => exact ⟨[], bytes, rfl, rfl, rfl⟩
  | succ n ih =>
      obtain ⟨w, tail, hword, htail⟩ := @exists_readWord bytes (by omega)
      obtain ⟨ws, rest, hread, hws, hbytes⟩ := @ih tail (by omega)
      refine ⟨w :: ws, rest, ?_, congrArg (· + 1) hws, ?_⟩
      · rw [readWords, hword]
        simp only [Option.bind_eq_bind, Option.bind_some, hread]
        rfl
      · rw [← writeWord_of_readWord hword, ← hbytes]
        exact List.append_assoc ..

/-! ## What `getstr` finds -/

section Find

variable {okey : ObjectKey} {str : List Byte} {past fresh : Nat → Byte} {m : Memory}

theorem wordCount_eq {n : Nat} (hn : n < 2 ^ 31) : wordCount n = (n + 3) / 4 := by
  unfold wordCount
  split
  · rw [Nat.mod_eq_of_lt (by simp only [two32]; omega)]
    omega
  · rw [Nat.mod_eq_of_lt (by simp only [two32]; omega)]
    omega

/-- `Create` stores words that begin with the bytes of the string, and its length. -/
theorem create_eq (hlen : str.length < 2 ^ 31) (okey : ObjectKey) (past : Nat → Byte) :
    ∃ ws tail, create okey str past = some [.putchunk okey 1 ws, .put okey 0 (UInt32.ofNat str.length)] ∧
      ws.length = wordCount str.length ∧ writeWords ws = str ++ tail := by
  have hcount := wordCount_eq hlen
  obtain ⟨ws, rest, hread, hws, hbytes⟩ :=
    @exists_readWords (wordCount str.length) (str ++ 0 :: (List.range (4 * wordCount str.length)).map past)
      (by rw [List.length_append, List.length_cons, List.length_map, List.length_range]; omega)
  have hprefix : str <+: writeWords ws := by
    refine List.prefix_of_prefix_length_le (List.prefix_append str _) ⟨rest, hbytes⟩ ?_
    rw [length_writeWords, hws, hcount]
    omega
  obtain ⟨tail, htail⟩ := hprefix
  refine ⟨ws, tail, ?_, hws, htail.symm⟩
  rw [create, hread]
  rfl

/-- The words that the memory has after `Create`. -/
theorem memory_create {ws : List Word} (hlen : str.length < 2 ^ 31) (m : Memory) :
    let m' := (flatRun [.putchunk okey 1 ws, .put okey 0 (UInt32.ofNat str.length)] m).2
    ((Handle.new okey).size m').toNat = str.length ∧ m'.read okey 1 ws.length = ws := by
  intro m'
  have hm' : m' = (m.write okey 1 ws).write okey 0 [UInt32.ofNat str.length] := rfl
  constructor
  · have hword : m' okey 0 = UInt32.ofNat str.length := by
      rw [hm', Memory.write, if_pos ⟨rfl, Nat.le_refl 0, Nat.one_pos⟩]
      rfl
    have hsize : (Handle.new okey).size m' = m' okey 0 := rfl
    rw [hsize, hword, UInt32.toNat_ofNat']
    omega
  · rw [hm', Memory.read_write_outside _ (Or.inr (Or.inr (Nat.le_refl 1)))]
    have hinside : 0 + ws.length ≤ ws.length := by omega
    have hread := Memory.read_write_inside m okey 1 hinside
    rw [List.drop_zero, List.take_length] at hread
    exact hread

theorem takeWhile_append_zero (str rest : List Byte) :
    (str ++ 0 :: rest).takeWhile (· ≠ 0) = str.takeWhile (· ≠ 0) := by
  induction str with
  | nil => rfl
  | cons b str ih =>
      rw [List.cons_append, List.takeWhile_cons, List.takeWhile_cons, ih]

/-- The first `getstr` gives the string up to its first NUL. -/
theorem getstr_create (hlen : str.length < 2 ^ 31) (okey : ObjectKey) (m : Memory) (past fresh : Nat → Byte) :
    ∃ calls, create okey str past = some calls ∧
      ((Handle.new okey).size (flatRun calls m).2).toNat = str.length ∧
      (Handle.new okey).getstr (flatRun calls m).2 fresh =
        (str.takeWhile (· ≠ 0), ⟨okey, true, str.takeWhile (· ≠ 0)⟩) := by
  obtain ⟨ws, tail, hcreate, hws, hbytes⟩ := create_eq hlen okey past
  obtain ⟨hsize, hread⟩ := @memory_create okey str ws hlen m
  refine ⟨_, hcreate, hsize, ?_⟩
  have hbuffer : (writeWords ws ++ (List.range 4).map fresh).set str.length 0 =
      str ++ 0 :: (tail ++ (List.range 4).map fresh).tail := by
    rw [hbytes, List.append_assoc, List.set_append_right _ _ (Nat.le_refl _), Nat.sub_self]
    cases tail <;> rfl
  have hwords : ((Call.getchunk (Handle.new okey).okey 1 ws.length (List.replicate ws.length 0)).flat
      (flatRun [.putchunk okey 1 ws, .put okey 0 (UInt32.ofNat str.length)] m).2).1 = ws := hread
  have hnew : ¬(Handle.new okey).cached = true := Bool.false_ne_true
  rw [Handle.getstr, if_neg hnew]
  simp only [hsize, ← hws, hwords, hbuffer, takeWhile_append_zero]
  rfl

theorem getstrs_cached {d : Handle} (hcached : d.cached = true) (later : List (Memory × (Nat → Byte))) :
    ∀ r ∈ d.getstrs later, r = d.cachedString := by
  induction later with
  | nil =>
      intro r hr
      cases hr
  | cons call later ih =>
      have hcall : d.getstr call.1 call.2 = (d.cachedString, d) := if_pos hcached
      intro r hr
      rw [Handle.getstrs, hcall] at hr
      rcases List.mem_cons.mp hr with rfl | hr
      · rfl
      · exact ih r hr

end Find

theorem takeWhile_noNul_iff (str : List Byte) : str.takeWhile (· ≠ 0) = str ↔ 0 ∉ str := by
  rw [List.takeWhile_eq_self_iff]
  simp only [ne_eq, decide_eq_true_eq]
  constructor
  · intro h hmem
    exact h 0 hmem rfl
  · rintro h b hb rfl
    exact h hb

/-- A string survives exactly when it has no NUL byte. -/
theorem roundTrip_iff_noNul (str : List Byte) (hlen : str.length < 2 ^ 31) : RoundTrip str ↔ 0 ∉ str := by
  rw [← takeWhile_noNul_iff]
  constructor
  · intro h
    obtain ⟨calls, hcreate, -, hall⟩ := h 1 Memory.empty (fun _ => 0) (fun _ => 0) []
    obtain ⟨_, hcreate', -, hget⟩ := getstr_create hlen 1 Memory.empty (fun _ => 0) (fun _ => 0)
    obtain rfl := Option.some.inj (hcreate.symm.trans hcreate')
    have hfirst := hall _ List.mem_cons_self
    rw [hget] at hfirst
    exact hfirst
  · intro hstr okey m past fresh later
    obtain ⟨calls, hcreate, hsize, hget⟩ := getstr_create hlen okey m past fresh
    refine ⟨calls, hcreate, hsize, ?_⟩
    intro r hr
    rw [Handle.getstrs, hget] at hr
    rcases List.mem_cons.mp hr with rfl | hr
    · exact hstr
    · exact (getstrs_cached rfl later r hr).trans hstr

/-- A string of five bytes, with three bytes of other memory in its second word. -/
theorem roundTrip_five : RoundTrip [104, 101, 108, 108, 111] :=
  (roundTrip_iff_noNul _ (by decide)).mpr (by decide)

/-- A NUL byte in the middle: the length is 3, the string that comes back has one byte. -/
theorem nul_ends_string :
    ¬RoundTrip [97, 0, 98] ∧
      ((Handle.new 1).getstr (flatRun [.putchunk 1 1 [6422625], .put 1 0 3] Memory.empty).2 fun _ => 0).1 = [97] := by
  refine ⟨fun h => ?_, by decide +kernel⟩
  obtain ⟨calls, hcreate, -, hall⟩ := h 1 Memory.empty (fun _ => 0) (fun _ => 0) []
  obtain rfl := Option.some.inj hcreate
  exact absurd (hall _ List.mem_cons_self) (by decide +kernel)

end Dogee.DString
