import Dogee.Checkpoint
import Mathlib.Data.List.TakeWhile

/-!
# Serializers of the map phase

An `InputSerializer` writes a value to a buffer of words and reads it back. There is one for
`int`, one for `std::string` and one for vectors of a type that has one; these make up the types
of the keys and values of a map.

A buffer is the list of the bytes from a pointer on, and sizes count words. A string is written
with its length but read up to its first zero byte, and an assertion compares the two. `ndebug`
says that assertions are compiled out.
-/

namespace Dogee.Serializer

open Checkpoint (Byte writeWord readWord readWord_writeWord)

/-- The words that a value may take, `BD_DATA_PROCESS_SIZE / sizeof(uint32_t)`. -/
def bufLen : Nat := 4096

/-- `cell_divide`, the number of words that hold `a` bytes. -/
def cellDivide (a : Nat) : Nat := if a % 4 = 0 then a / 4 else a / 4 + 1

/-- `InputSerializer`. `serialize` gives the buffer after the call and the returned size;
`deserialize` is `none` when an assertion fails. -/
structure InputSerializer (α : Type) where
  getSize : α → Nat
  serialize : α → List Byte → List Byte × Nat
  deserialize : Bool → List Byte → Option (α × Nat)

namespace InputSerializer

/-- The general template; `Deserialize` is declared for `int` only. -/
def int : InputSerializer Word where
  getSize _ := cellDivide 4
  serialize w buf := (writeWord w ++ buf.drop 4, cellDivide 4)
  deserialize _ buf := (readWord buf).map fun r => (r.1, cellDivide 4)

def stringSize (str : List Byte) : Nat := cellDivide (str.length + 1) + 1

/-- The serializer of `std::string`. -/
def string : InputSerializer (List Byte) where
  getSize := stringSize
  serialize str buf :=
    (writeWord (UInt32.ofNat str.length) ++ (str ++ buf.drop (4 + str.length)), stringSize str)
  deserialize ndebug buf := do
    let (sz, str) ← readWord buf
    -- the terminator is written here, and the string ends at the first zero byte
    let out := (str.set sz.toNat 0).takeWhile (· ≠ 0)
    if ndebug ∨ sz.toNat = out.length then
      return (out, cellDivide (sz.toNat + 1) + 1)
    else none

section Vector

variable {α : Type} (ele : InputSerializer α)

def vectorSize (v : List α) : Nat := (v.map ele.getSize).sum + 1

/-- The loop of `Serialize` over the elements. -/
def serializeEach : List α → List Byte → List Byte
  | [], buf => buf
  | a :: v, buf =>
      let r := ele.serialize a buf
      r.1.take (4 * r.2) ++ serializeEach v (r.1.drop (4 * r.2))

/-- The loop of `Deserialize`: the elements and the words read. -/
def deserializeEach (ndebug : Bool) : Nat → List Byte → Option (List α × Nat)
  | 0, _ => some ([], 0)
  | n + 1, buf => do
      let (a, len) ← ele.deserialize ndebug buf
      let (v, cnt) ← deserializeEach ndebug n (buf.drop (4 * len))
      return (a :: v, len + cnt)

/-- The serializer of `std::vector`. -/
def vector : InputSerializer (List α) where
  getSize := vectorSize ele
  serialize v buf :=
    (writeWord (UInt32.ofNat v.length) ++ serializeEach ele v (buf.drop 4), vectorSize ele v)
  deserialize ndebug buf := do
    let (sz, buf) ← readWord buf
    let (v, cnt) ← deserializeEach ele ndebug sz.toNat buf
    return (v, 1 + cnt)

end Vector

end InputSerializer

/-- The types that have a serializer. -/
inductive Ty
  | int
  | string
  | vector (t : Ty)

namespace Ty

def Val : Ty → Type
  | .int => Word
  | .string => List Byte
  | .vector t => List t.Val

instance decidableEqVal : (t : Ty) → DecidableEq t.Val
  | .int => inferInstanceAs (DecidableEq Word)
  | .string => inferInstanceAs (DecidableEq (List Byte))
  | .vector t =>
      have := decidableEqVal t
      inferInstanceAs (DecidableEq (List t.Val))

def serializer : (t : Ty) → InputSerializer t.Val
  | .int => .int
  | .string => .string
  | .vector t => .vector t.serializer

/-- No string in the value has a zero byte. -/
def noNul : (t : Ty) → t.Val → Bool
  | .int, _ => true
  | .string, str => List.all str (· ≠ 0)
  | .vector t, v => List.all v t.noNul

/-- What is read back: each string up to its first zero byte. -/
def shown : (t : Ty) → t.Val → t.Val
  | .int, w => w
  | .string, str => List.takeWhile (· ≠ 0) str
  | .vector t, v => List.map t.shown v

end Ty

/-! ## What is read back -/

/-- The bytes hold the value `a`: reading them gives `shown` of it and its size, and goes through
unless an assertion meets a zero byte. -/
def Holds {α : Type} (ser : InputSerializer α) (noNul : α → Bool) (shown : α → α) (a : α)
    (bytes : List Byte) : Prop :=
  bytes.length = 4 * ser.getSize a ∧ ∀ ndebug rest r, ser.deserialize ndebug (bytes ++ rest) = some r ↔
    r = (shown a, ser.getSize a) ∧ (ndebug = true ∨ noNul a = true)

/-- What the map phase relies on in a serializer. -/
structure Lawful {α : Type} (ser : InputSerializer α) (noNul : α → Bool) (shown : α → α) : Prop where
  size_pos : ∀ a, 1 ≤ ser.getSize a
  noNul_shown : ∀ a, noNul (shown a) = true
  shown_eq : ∀ a, noNul a = true → shown a = a
  writes : ∀ a buf, ser.getSize a ≤ bufLen → 4 * ser.getSize a ≤ buf.length →
    ∃ bytes, ser.serialize a buf = (bytes ++ buf.drop (4 * ser.getSize a), ser.getSize a) ∧
      Holds ser noNul shown a bytes

theorem length_writeWord (w : Word) : (writeWord w).length = 4 := rfl

/-! ## The format -/

/-- The bytes of a string: its length, its bytes and at least one more, up to the end of a word. -/
def EncodesString (str bytes : List Byte) : Prop :=
  ∃ pad : List Byte, pad.length = 4 * cellDivide (str.length + 1) - str.length ∧
    bytes = writeWord (UInt32.ofNat str.length) ++ (str ++ pad)

/-- The bytes of the elements of a list, one after the other. -/
def EncodesEach {α : Type} (enc : α → List Byte → Prop) : List α → List Byte → Prop
  | [], bytes => bytes = []
  | a :: v, bytes => ∃ first rest, enc a first ∧ EncodesEach enc v rest ∧ bytes = first ++ rest

/-- The bytes of a vector: its length and its elements. -/
def EncodesVector {α : Type} (enc : α → List Byte → Prop) (v : List α) (bytes : List Byte) : Prop :=
  ∃ body, EncodesEach enc v body ∧ bytes = writeWord (UInt32.ofNat v.length) ++ body

/-- The bytes of a value. -/
def Ty.Encodes : (t : Ty) → t.Val → List Byte → Prop
  | .int => fun w bytes => bytes = writeWord w
  | .string => EncodesString
  | .vector t => EncodesVector t.Encodes

theorem EncodesEach.length {α : Type} {enc : α → List Byte → Prop} {size : α → Nat} {v : List α}
    {bytes : List Byte} (h : EncodesEach enc v bytes)
    (hsize : ∀ a bytes, enc a bytes → bytes.length = 4 * size a) :
    bytes.length = 4 * (v.map size).sum := by
  induction v generalizing bytes with
  | nil =>
      obtain rfl : bytes = [] := h
      rfl
  | cons a v ih =>
      obtain ⟨first, rest, hfirst, hrest, rfl⟩ := h
      rw [List.length_append, hsize a first hfirst, ih hrest, List.map_cons, List.sum_cons, Nat.mul_add]

/-- A serializer writes and reads the bytes of a format. -/
structure Faithful {α : Type} (ser : InputSerializer α) (enc : α → List Byte → Prop) (noNul : α → Bool)
    (shown : α → α) : Prop where
  size_pos : ∀ a, 1 ≤ ser.getSize a
  noNul_shown : ∀ a, noNul (shown a) = true
  shown_eq : ∀ a, noNul a = true → shown a = a
  length : ∀ {a bytes}, enc a bytes → bytes.length = 4 * ser.getSize a
  writes : ∀ a buf, 4 * ser.getSize a ≤ buf.length → ∃ bytes,
    ser.serialize a buf = (bytes ++ buf.drop (4 * ser.getSize a), ser.getSize a) ∧ enc a bytes
  reads : ∀ {a bytes}, enc a bytes → ser.getSize a < 2 ^ 30 → ∀ ndebug rest r,
    ser.deserialize ndebug (bytes ++ rest) = some r ↔
      r = (shown a, ser.getSize a) ∧ (ndebug = true ∨ noNul a = true)

theorem faithful_int : Faithful InputSerializer.int (fun w bytes => bytes = writeWord w) Ty.int.noNul
    Ty.int.shown where
  size_pos _ := Nat.le_refl 1
  noNul_shown _ := rfl
  shown_eq _ _ := rfl
  length h := by
    rw [h]
    rfl
  writes w buf _ := ⟨writeWord w, rfl, rfl⟩
  reads := by
    rintro w _ rfl _ ndebug rest r
    simp only [InputSerializer.int, readWord_writeWord, Option.map_some, Option.some.injEq]
    constructor
    · rintro rfl
      exact ⟨rfl, Or.inr rfl⟩
    · rintro ⟨rfl, -⟩
      rfl

theorem lt_four_mul_cellDivide (a : Nat) : a < 4 * cellDivide (a + 1) := by
  rw [cellDivide]
  split <;> omega

/-- The written bytes are cut at their own end or at the first zero byte. -/
theorem takeWhile_set_append (str : List Byte) (pad : List Byte) (hpad : pad ≠ []) :
    ((str ++ pad).set str.length 0).takeWhile (· ≠ 0) = str.takeWhile (· ≠ 0) := by
  obtain ⟨b, pad, rfl⟩ := List.exists_cons_of_ne_nil hpad
  rw [List.set_append_right _ _ (Nat.le_refl _), Nat.sub_self, List.set_cons_zero]
  induction str with
  | nil => simp
  | cons c str ih =>
      rw [List.cons_append, List.takeWhile_cons, List.takeWhile_cons, ih]

theorem length_takeWhile_eq_iff (str : List Byte) :
    str.length = (str.takeWhile (· ≠ 0)).length ↔ List.all str (· ≠ 0) = true := by
  rw [List.all_eq_true, ← List.takeWhile_eq_self_iff]
  constructor
  · exact fun h => (List.takeWhile_prefix _).eq_of_length h.symm
  · exact fun h => (congrArg List.length h).symm

/-- A length that fits into the words of a value is read back from its word. -/
theorem toNat_ofNat_length {n size : Nat} (hn : n ≤ 4 * size) (hsize : size < 2 ^ 30) :
    (UInt32.ofNat n).toNat = n := by
  apply UInt32.toNat_ofNat_of_lt
  show n < 2 ^ 32
  omega

theorem EncodesString.length {str bytes : List Byte} (h : EncodesString str bytes) :
    bytes.length = 4 * InputSerializer.stringSize str := by
  obtain ⟨pad, hpad, rfl⟩ := h
  have hlt := lt_four_mul_cellDivide str.length
  rw [List.length_append, List.length_append, length_writeWord, hpad, InputSerializer.stringSize]
  omega

theorem faithful_string : Faithful InputSerializer.string EncodesString Ty.string.noNul Ty.string.shown where
  size_pos _ := Nat.le_add_left ..
  noNul_shown _ := List.all_takeWhile
  shown_eq _ h := List.takeWhile_eq_self_iff.mpr (List.all_eq_true.mp h)
  length h := h.length
  writes str buf hbuf := by
    have hlt := lt_four_mul_cellDivide str.length
    change 4 * (cellDivide (str.length + 1) + 1) ≤ buf.length at hbuf
    -- the bytes after the string are what the buffer held before
    let pad := (buf.drop (4 + str.length)).take (4 * cellDivide (str.length + 1) - str.length)
    have hpad : pad.length = 4 * cellDivide (str.length + 1) - str.length := by
      rw [List.length_take, List.length_drop]
      omega
    have hsplit : buf.drop (4 + str.length) = pad ++ buf.drop (4 * (cellDivide (str.length + 1) + 1)) := by
      rw [← List.take_append_drop (4 * cellDivide (str.length + 1) - str.length)
        (buf.drop (4 + str.length)), List.drop_drop]
      congr 2
      omega
    refine ⟨writeWord (UInt32.ofNat str.length) ++ (str ++ pad), ?_, pad, hpad, rfl⟩
    show (writeWord _ ++ (str ++ buf.drop (4 + str.length)), _) = _
    rw [hsplit]
    simp only [List.append_assoc]
    rfl
  reads := by
    rintro str _ ⟨pad, hpad, rfl⟩ hsize ndebug rest r
    have hlt := lt_four_mul_cellDivide str.length
    change cellDivide (str.length + 1) + 1 < 2 ^ 30 at hsize
    have hword := toNat_ofNat_length (n := str.length) (by omega) hsize
    have hne : pad ++ rest ≠ [] := by
      intro hnil
      rw [(List.append_eq_nil_iff.mp hnil).1, List.length_nil] at hpad
      omega
    have hread := takeWhile_set_append str (pad ++ rest) hne
    simp only [InputSerializer.string, List.append_assoc, readWord_writeWord, Option.bind_eq_bind,
      Option.bind_some, hword, hread, length_takeWhile_eq_iff]
    rw [Option.pure_def, Option.ite_none_right_eq_some, Option.some.injEq, and_comm, eq_comm]
    rfl

section Vector

variable {α : Type} {ele : InputSerializer α} {enc : α → List Byte → Prop} {noNul : α → Bool}
  {shown : α → α}

theorem Faithful.length_le_sum (h : Faithful ele enc noNul shown) (v : List α) :
    v.length ≤ (v.map ele.getSize).sum := by
  induction v with
  | nil => exact Nat.le_refl 0
  | cons a v ih =>
      have hpos := h.size_pos a
      rw [List.length_cons, List.map_cons, List.sum_cons]
      omega

/-- The elements of a vector are written one after the other. -/
theorem Faithful.writes_each (h : Faithful ele enc noNul shown) (v : List α) (buf : List Byte)
    (hbuf : 4 * (v.map ele.getSize).sum ≤ buf.length) :
    ∃ bytes, InputSerializer.serializeEach ele v buf = bytes ++ buf.drop (4 * (v.map ele.getSize).sum) ∧
      EncodesEach enc v bytes := by
  induction v generalizing buf with
  | nil => exact ⟨[], rfl, rfl⟩
  | cons a v ih =>
      rw [List.map_cons, List.sum_cons] at hbuf ⊢
      obtain ⟨bytes, hfirst, hbytes⟩ := h.writes a buf (by omega)
      obtain ⟨bytes', hrest, hbytes'⟩ := ih (buf.drop (4 * ele.getSize a)) (by rw [List.length_drop]; omega)
      have hlen := h.length hbytes
      refine ⟨bytes ++ bytes', ?_, bytes, bytes', hbytes, hbytes', rfl⟩
      rw [InputSerializer.serializeEach]
      simp only [hfirst, ← hlen, List.take_left, List.drop_left]
      rw [hlen, hrest, List.drop_drop, List.append_assoc, Nat.mul_add]

/-- The elements of a vector are read one after the other. -/
theorem Faithful.reads_each (h : Faithful ele enc noNul shown) {v : List α} {bytes : List Byte}
    (hv : EncodesEach enc v bytes) (hsize : (v.map ele.getSize).sum < 2 ^ 30) (ndebug : Bool)
    (rest : List Byte) (r : List α × Nat) :
    InputSerializer.deserializeEach ele ndebug v.length (bytes ++ rest) = some r ↔
      r = (v.map shown, (v.map ele.getSize).sum) ∧ (ndebug = true ∨ v.all noNul = true) := by
  induction v generalizing bytes r with
  | nil => simp [InputSerializer.deserializeEach, eq_comm]
  | cons a v ih =>
      rw [List.map_cons, List.sum_cons] at hsize
      obtain ⟨first, others, hfirst, hothers, rfl⟩ := hv
      have hlen := h.length hfirst
      have hread := h.reads hfirst (by omega)
      have hread' := ih hothers (by omega)
      rw [List.length_cons, InputSerializer.deserializeEach, List.append_assoc]
      simp only [Option.bind_eq_bind, Option.bind_eq_some_iff, hread, Option.pure_def, Option.some.injEq]
      constructor
      · rintro ⟨_, ⟨rfl, hclean⟩, x, hx, rfl⟩
        rw [← hlen, List.drop_left] at hx
        obtain ⟨rfl, hclean'⟩ := (hread' x).mp hx
        refine ⟨rfl, ?_⟩
        rw [List.all_cons, Bool.and_eq_true]
        exact or_and_left.mpr ⟨hclean, hclean'⟩
      · rintro ⟨rfl, hclean⟩
        rw [List.all_cons, Bool.and_eq_true] at hclean
        refine ⟨_, ⟨rfl, hclean.imp_right And.left⟩, (v.map shown, (v.map ele.getSize).sum), ?_, rfl⟩
        rw [← hlen, List.drop_left]
        exact (hread' _).mpr ⟨rfl, hclean.imp_right And.right⟩

theorem faithful_vector (h : Faithful ele enc noNul shown) :
    Faithful (InputSerializer.vector ele) (EncodesVector enc) (fun v => v.all noNul) (fun v => v.map shown) where
  size_pos _ := Nat.le_add_left ..
  noNul_shown v := by
    rw [List.all_eq_true]
    intro a ha
    obtain ⟨b, -, rfl⟩ := List.mem_map.mp ha
    exact h.noNul_shown b
  shown_eq v hv := by
    rw [List.all_eq_true] at hv
    exact (List.map_congr_left fun a ha => h.shown_eq a (hv a ha)).trans (List.map_id v)
  length := by
    rintro v _ ⟨body, hbody, rfl⟩
    rw [List.length_append, length_writeWord, hbody.length fun a bytes => h.length]
    show _ = 4 * ((v.map ele.getSize).sum + 1)
    omega
  writes v buf hbuf := by
    change 4 * ((v.map ele.getSize).sum + 1) ≤ buf.length at hbuf
    obtain ⟨bytes, hser, hbytes⟩ := h.writes_each v (buf.drop 4) (by rw [List.length_drop]; omega)
    refine ⟨writeWord (UInt32.ofNat v.length) ++ bytes, ?_, bytes, hbytes, rfl⟩
    show (writeWord _ ++ InputSerializer.serializeEach ele v (buf.drop 4), _) = _
    rw [hser, List.drop_drop, List.append_assoc]
    show (_, (v.map ele.getSize).sum + 1) = (_ ++ (bytes ++ buf.drop (4 * ((v.map ele.getSize).sum + 1))), _)
    rw [Nat.mul_add, Nat.add_comm]
    rfl
  reads := by
    rintro v _ ⟨body, hbody, rfl⟩ hsize ndebug rest r
    change (v.map ele.getSize).sum + 1 < 2 ^ 30 at hsize
    have hcount := h.length_le_sum v
    have hword := toNat_ofNat_length (n := v.length) (by omega) hsize
    simp only [InputSerializer.vector, List.append_assoc, readWord_writeWord, Option.bind_eq_bind,
      Option.bind_some, hword, Option.bind_eq_some_iff, h.reads_each hbody (by omega), Option.pure_def,
      Option.some.injEq]
    constructor
    · rintro ⟨_, ⟨rfl, hclean⟩, rfl⟩
      exact ⟨congrArg (Prod.mk _) (Nat.add_comm ..), hclean⟩
    · rintro ⟨rfl, hclean⟩
      exact ⟨_, ⟨rfl, hclean⟩, congrArg (Prod.mk _) (Nat.add_comm ..)⟩

end Vector

theorem Ty.faithful (t : Ty) : Faithful t.serializer t.Encodes t.noNul t.shown := by
  induction t with
  | int => exact faithful_int
  | string => exact faithful_string
  | vector t ih => exact faithful_vector ih

/-- Every type of a key or a value has a lawful serializer. -/
theorem Ty.lawful (t : Ty) : Lawful t.serializer t.noNul t.shown where
  size_pos := t.faithful.size_pos
  noNul_shown := t.faithful.noNul_shown
  shown_eq := t.faithful.shown_eq
  writes a buf hsize hbuf := by
    obtain ⟨bytes, hser, hbytes⟩ := t.faithful.writes a buf hbuf
    exact ⟨bytes, hser, t.faithful.length hbytes, t.faithful.reads hbytes (hsize.trans_lt (by decide))⟩

end Dogee.Serializer
