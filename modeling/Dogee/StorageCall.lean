import Dogee.WordMemory

/-!
# The calls of the storage interface

`SoStorage` and `DSMCache` offer the same reads and writes of words. Their
meaning is given by a flat memory; a backend or a cache is right when it returns
what the flat memory returns.
-/

namespace Dogee

/-- The end of the words that calls may use: the last block is left out. -/
def wordLimit : Nat := two32 - blockSize

theorem wordLimit_lt : wordLimit < two32 := by decide

/-- The two words of a 64-bit value, low half first. -/
def words64 (v : UInt64) : List Word := [v.toUInt32, (v >>> 32).toUInt32]

/-- A call of the storage interface; a read comes with its caller's buffer. -/
inductive Call
  | put (key fldid : Nat) (v : Word)
  | put64 (key fldid : Nat) (v : UInt64)
  | putchunk (key fldid : Nat) (buf : List Word)
  | putchunk64 (key fldid : Nat) (buf : List UInt64)
  | get (key fldid : Nat)
  | getchunk (key fldid len : Nat) (buf : List Word)
  | getchunk64 (key fldid len : Nat) (buf : List Word)
  | getblock (key fldid : Nat) (buf : List Word)

namespace Call

/-- The calls in question: an object key of 32 bits, words below the limit, a
buffer of the length the call is told, and block reads at block boundaries. -/
def InRange : Call → Prop
  | put key fldid _ => key < two32 ∧ fldid + 1 ≤ wordLimit
  | put64 key fldid _ => key < two32 ∧ fldid + 2 ≤ wordLimit
  | putchunk key fldid buf => key < two32 ∧ fldid + buf.length ≤ wordLimit
  | putchunk64 key fldid buf => key < two32 ∧ fldid + buf.length * 2 ≤ wordLimit
  | get key fldid => key < two32 ∧ fldid + 1 ≤ wordLimit
  | getchunk key fldid len buf => key < two32 ∧ fldid + len ≤ wordLimit ∧ buf.length = len
  | getchunk64 key fldid len buf =>
      key < two32 ∧ fldid + len * 2 ≤ wordLimit ∧ buf.length = len * 2
  | getblock key fldid buf =>
      key < two32 ∧ fldid + blockSize ≤ wordLimit ∧ fldid % blockSize = 0 ∧ buf.length = blockSize

/-- The number of words a chunk read asks for. -/
def readLength : Call → Nat
  | getchunk _ _ len _ => len
  | getchunk64 _ _ len _ => len * 2
  | _ => 0

/-- The call on a flat memory: the words it returns and the memory after it. -/
def flat : Call → Memory → List Word × Memory
  | put key fldid v, m => ([], m.write key fldid [v])
  | put64 key fldid v, m => ([], m.write key fldid (words64 v))
  | putchunk key fldid buf, m => ([], m.write key fldid buf)
  | putchunk64 key fldid buf, m => ([], m.write key fldid (buf.flatMap words64))
  | get key fldid, m => ([m key fldid], m)
  | getchunk key fldid len _, m => (m.read key fldid len, m)
  | getchunk64 key fldid len _, m => (m.read key fldid (len * 2), m)
  | getblock key fldid _, m => (m.read key fldid blockSize, m)

end Call

/-- The calls one after another on a flat memory. -/
def flatRun : List Call → Memory → List (List Word) × Memory
  | [], m => ([], m)
  | c :: cs, m => ((c.flat m).1 :: (flatRun cs (c.flat m).2).1, (flatRun cs (c.flat m).2).2)

theorem length_words64 (v : UInt64) : (words64 v).length = 2 := rfl

theorem length_flatMap_words64 (buf : List UInt64) :
    (buf.flatMap words64).length = buf.length * 2 := by
  induction buf with
  | nil => rfl
  | cons v buf ih =>
      rw [List.flatMap_cons, List.length_append, length_words64, ih, List.length_cons]
      omega

theorem Call.flat_congr {c : Call} (hc : c.InRange) {m m' : Memory}
    (h : Memory.AgreeBelow wordLimit m m') :
    (c.flat m).1 = (c.flat m').1 ∧ Memory.AgreeBelow wordLimit (c.flat m).2 (c.flat m').2 := by
  cases c with
  | put key fldid v => exact ⟨rfl, h.write _ _ _⟩
  | put64 key fldid v => exact ⟨rfl, h.write _ _ _⟩
  | putchunk key fldid buf => exact ⟨rfl, h.write _ _ _⟩
  | putchunk64 key fldid buf => exact ⟨rfl, h.write _ _ _⟩
  | get key fldid => exact ⟨congrArg (fun v => [v]) (h key fldid hc.2), h⟩
  | getchunk key fldid len buf => exact ⟨h.read hc.2.1, h⟩
  | getchunk64 key fldid len buf => exact ⟨h.read hc.2.1, h⟩
  | getblock key fldid buf => exact ⟨h.read hc.2.1, h⟩

theorem take_words64 {buf : List UInt64} (h : buf.length * 2 < two32) :
    (buf.flatMap words64).take (buf.length * 2 % two32) = buf.flatMap words64 := by
  refine List.take_of_length_le (Nat.le_of_eq ?_)
  rw [length_flatMap_words64, Nat.mod_eq_of_lt h]

theorem lt_two32_of_range {fldid n : Nat} (h : fldid + n ≤ wordLimit) : n < two32 :=
  Nat.lt_of_le_of_lt (Nat.le_trans (Nat.le_add_left n fldid) h) wordLimit_lt

end Dogee
