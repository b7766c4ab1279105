import Dogee.Serializer

/-!
# Decoding in place

`Deserialize` of a string writes a zero byte behind the string, into the buffer that it
reads. Here the readers therefore give the buffer that they leave. The terminator is
within the words of the string, so that what follows is not touched, and the pairs of a
message are decoded as they were written.
-/

namespace Dogee.Serializer

open Checkpoint (Byte writeWord readWord readWord_writeWord)

/-- `Deserialize`: the value, the words read and the buffer afterwards, or `none` if an
assertion fails or a byte outside of the buffer is touched. -/
abbrev Reader (α : Type) := Bool → List Byte → Option (α × Nat × List Byte)

namespace Reader

def int : Reader Word := fun _ buf =>
  (readWord buf).map fun r => (r.1, cellDivide 4, buf)

def string : Reader (List Byte) := fun ndebug buf => do
  let (sz, str) ← readWord buf
  if sz.toNat < str.length then
    let str := str.set sz.toNat 0
    let out := str.takeWhile (· ≠ 0)
    if ndebug ∨ sz.toNat = out.length then
      return (out, cellDivide (sz.toNat + 1) + 1, buf.take 4 ++ str)
    else none
  else none

section Vector

variable {α : Type} (ele : Reader α)

/-- The loop over the elements of a vector. -/
def each (ndebug : Bool) : Nat → List Byte → Option (List α × Nat × List Byte)
  | 0, buf => some ([], 0, buf)
  | n + 1, buf => do
      let (a, len, buf) ← ele ndebug buf
      let (v, cnt, rest) ← each ndebug n (buf.drop (4 * len))
      return (a :: v, len + cnt, buf.take (4 * len) ++ rest)

def vector : Reader (List α) := fun ndebug buf => do
  let (sz, body) ← readWord buf
  let (v, cnt, body) ← each ele ndebug sz.toNat body
  return (v, 1 + cnt, buf.take 4 ++ body)

end Vector

end Reader

def Ty.reader : (t : Ty) → Reader t.Val
  | .int => Reader.int
  | .string => Reader.string
  | .vector t => Reader.vector t.reader

section Pairs

variable (kt vt : Ty)

/-- The words of a pair. -/
def pairSize (p : kt.Val × vt.Val) : Nat := kt.serializer.getSize p.1 + vt.serializer.getSize p.2

/-- Serialize pairs one after another: the buffer afterwards and the words written. -/
def serializePairs : List (kt.Val × vt.Val) → List Byte → List Byte × Nat
  | [], buf => (buf, 0)
  | p :: ps, buf =>
      let key := kt.serializer.serialize p.1 buf
      let value := vt.serializer.serialize p.2 (key.1.drop (4 * key.2))
      let rest := serializePairs ps (value.1.drop (4 * value.2))
      (key.1.take (4 * key.2) ++ (value.1.take (4 * value.2) ++ rest.1), key.2 + value.2 + rest.2)

/-- `DecodeKeyValue` -/
def decodeKeyValue (ndebug : Bool) (buf : List Byte) (len : Nat) :
    Option ((kt.Val × vt.Val) × Nat × List Byte) := do
  let (key, mylen, buf) ← kt.reader ndebug buf
  if ndebug ∨ mylen < len then
    let (value, vlen, rest) ← vt.reader ndebug (buf.drop (4 * mylen))
    if ndebug ∨ mylen + vlen ≤ len then
      return ((key, value), mylen + vlen, buf.take (4 * mylen) ++ rest)
    else none
  else none

/-- The loop of `BaseDoAccumulateDense` over `len` words: the pairs given to `DoMap` and the
buffer afterwards. -/
def decodePairs (ndebug : Bool) : Nat → List Byte → Nat → Option (List (kt.Val × vt.Val) × List Byte)
  | _, buf, 0 => some ([], buf)
  | 0, _, _ + 1 => none
  | fuel + 1, buf, len + 1 => do
      let (p, readlen, buf) ← decodeKeyValue kt vt ndebug buf (len + 1)
      let (ps, rest) ← decodePairs ndebug fuel (buf.drop (4 * readlen)) (len + 1 - readlen)
      return (p :: ps, buf.take (4 * readlen) ++ rest)

/-- `BaseDoAccumulateDense` -/
def baseDoAccumulateDense (ndebug : Bool) (data : List Byte) : Option (List (kt.Val × vt.Val) × List Byte) :=
  decodePairs kt vt ndebug (data.length / 4) data (data.length / 4)

end Pairs

/-! ## Readers keep to the words of the value -/

/-- Reading the bytes of a value gives the value and its size, and leaves other bytes for the
value but does not touch those behind it. -/
def ReadsInPlace {α : Type} (read : Reader α) (size : α → Nat) (noNul : α → Bool) (shown : α → α) (a : α)
    (bytes : List Byte) : Prop :=
  ∃ left : List Byte, left.length = bytes.length ∧ ∀ ndebug rest r, read ndebug (bytes ++ rest) = some r ↔
    r = (shown a, size a, left ++ rest) ∧ (ndebug = true ∨ noNul a = true)

theorem take_writeWord (w : Word) (rest : List Byte) : (writeWord w ++ rest).take 4 = writeWord w :=
  List.take_left' (length_writeWord w)

theorem readsInPlace_int (w : Word) :
    ReadsInPlace Reader.int InputSerializer.int.getSize Ty.int.noNul Ty.int.shown w (writeWord w) := by
  refine ⟨writeWord w, rfl, fun ndebug rest r => ?_⟩
  simp only [Reader.int, readWord_writeWord, Option.map_some, Option.some.injEq]
  constructor
  · rintro rfl
    exact ⟨rfl, Or.inr rfl⟩
  · rintro ⟨rfl, -⟩
    rfl

theorem readsInPlace_string {str bytes : List Byte} (h : EncodesString str bytes)
    (hsize : InputSerializer.stringSize str < 2 ^ 30) :
    ReadsInPlace Reader.string InputSerializer.stringSize Ty.string.noNul Ty.string.shown str bytes := by
  obtain ⟨pad, hpad, rfl⟩ := h
  have hlt := lt_four_mul_cellDivide str.length
  rw [InputSerializer.stringSize] at hsize
  have hword := toNat_ofNat_length (n := str.length) (by omega) hsize
  have hne : pad ≠ [] := by
    rintro rfl
    rw [List.length_nil] at hpad
    omega
  -- the terminator is the first of the bytes that follow the string
  obtain ⟨b, pad, rfl⟩ := List.exists_cons_of_ne_nil hne
  refine ⟨writeWord (UInt32.ofNat str.length) ++ (str ++ 0 :: pad), by simp, fun ndebug rest r => ?_⟩
  have hset : (str ++ (b :: pad ++ rest)).set str.length 0 = str ++ (0 :: pad ++ rest) := by
    rw [List.set_append_right _ _ (Nat.le_refl _), Nat.sub_self]
    rfl
  have hread := takeWhile_set_append str (b :: pad ++ rest) (List.cons_ne_nil _ _)
  have hin : str.length < (str ++ (b :: pad ++ rest)).length := by simp
  rw [hset] at hread
  simp only [Reader.string, List.append_assoc, readWord_writeWord, Option.bind_eq_bind, Option.bind_some, hword,
    if_pos hin, hset, hread, length_takeWhile_eq_iff, take_writeWord]
  rw [Option.pure_def, Option.ite_none_right_eq_some, Option.some.injEq, and_comm, eq_comm]
  rfl

section Vector

variable {α : Type} {ele : InputSerializer α} {enc : α → List Byte → Prop} {noNul : α → Bool}
  {shown : α → α} {read : Reader α}

/-- The elements of a vector are read one after the other. -/
theorem readsInPlace_each (h : Faithful ele enc noNul shown)
    (hread : ∀ {a bytes}, enc a bytes → ele.getSize a < 2 ^ 30 → ReadsInPlace read ele.getSize noNul shown a bytes)
    {v : List α} {bytes : List Byte} (hv : EncodesEach enc v bytes) (hsize : (v.map ele.getSize).sum < 2 ^ 30) :
    ∃ left : List Byte, left.length = bytes.length ∧ ∀ ndebug rest r,
      Reader.each read ndebug v.length (bytes ++ rest) = some r ↔
        r = (v.map shown, (v.map ele.getSize).sum, left ++ rest) ∧ (ndebug = true ∨ v.all noNul = true) := by
  induction v generalizing bytes with
  | nil =>
      obtain rfl : bytes = [] := hv
      refine ⟨[], rfl, fun ndebug rest r => ?_⟩
      simp [Reader.each, eq_comm]
  | cons a v ih =>
      rw [List.map_cons, List.sum_cons] at hsize
      obtain ⟨first, others, hfirst, hothers, rfl⟩ := hv
      have hlen := h.length hfirst
      obtain ⟨left, hleft, hfirst⟩ := hread hfirst (by omega)
      obtain ⟨left', hleft', hothers⟩ := ih hothers (by omega)
      have hsame : 4 * ele.getSize a = left.length := hlen.symm.trans hleft.symm
      refine ⟨left ++ left', by rw [List.length_append, List.length_append, hleft, hleft'], fun ndebug rest r => ?_⟩
      rw [List.length_cons, Reader.each, List.append_assoc, List.append_assoc]
      simp only [Option.bind_eq_bind, Option.bind_eq_some_iff, hfirst, Option.pure_def, Option.some.injEq]
      constructor
      · rintro ⟨_, ⟨rfl, hclean⟩, x, hx, rfl⟩
        simp only [hsame, List.drop_left] at hx
        obtain ⟨rfl, hclean'⟩ := (hothers ndebug rest x).mp hx
        constructor
        · simp only [hsame, List.take_left]
          rfl
        · rw [List.all_cons, Bool.and_eq_true]
          exact or_and_left.mpr ⟨hclean, hclean'⟩
      · rintro ⟨rfl, hclean⟩
        rw [List.all_cons, Bool.and_eq_true] at hclean
        refine ⟨_, ⟨rfl, hclean.imp_right And.left⟩, (v.map shown, (v.map ele.getSize).sum, left' ++ rest), ?_, ?_⟩
        · simp only [hsame, List.drop_left]
          exact (hothers ndebug rest _).mpr ⟨rfl, hclean.imp_right And.right⟩
        · simp only [hsame, List.take_left]
          rfl

theorem readsInPlace_vector (h : Faithful ele enc noNul shown)
    (hread : ∀ {a bytes}, enc a bytes → ele.getSize a < 2 ^ 30 → ReadsInPlace read ele.getSize noNul shown a bytes)
    {v : List α} {bytes : List Byte} (hv : EncodesVector enc v bytes)
    (hsize : InputSerializer.vectorSize ele v < 2 ^ 30) :
    ReadsInPlace (Reader.vector read) (InputSerializer.vectorSize ele) (fun v => v.all noNul)
      (fun v => v.map shown) v bytes := by
  obtain ⟨body, hbody, rfl⟩ := hv
  rw [InputSerializer.vectorSize] at hsize
  have hcount := h.length_le_sum v
  have hword := toNat_ofNat_length (n := v.length) (by omega) hsize
  obtain ⟨left, hleft, hbody⟩ := readsInPlace_each h hread hbody (by omega)
  refine ⟨writeWord (UInt32.ofNat v.length) ++ left, by rw [List.length_append, List.length_append, hleft],
    fun ndebug rest r => ?_⟩
  simp only [Reader.vector, List.append_assoc, readWord_writeWord, Option.bind_eq_bind, Option.bind_some, hword,
    Option.bind_eq_some_iff, hbody, Option.pure_def, Option.some.injEq, take_writeWord]
  constructor
  · rintro ⟨_, ⟨rfl, hclean⟩, rfl⟩
    refine ⟨?_, hclean⟩
    simp only [InputSerializer.vectorSize, Nat.add_comm]
  · rintro ⟨rfl, hclean⟩
    refine ⟨_, ⟨rfl, hclean⟩, ?_⟩
    simp only [InputSerializer.vectorSize, Nat.add_comm]

end Vector

/-- Every value is read in place. -/
theorem Ty.readsInPlace (t : Ty) {a : t.Val} {bytes : List Byte} (h : t.Encodes a bytes)
    (hsize : t.serializer.getSize a < 2 ^ 30) :
    ReadsInPlace t.reader t.serializer.getSize t.noNul t.shown a bytes := by
  induction t generalizing bytes with
  | int =>
      obtain rfl : bytes = writeWord a := h
      exact readsInPlace_int a
  | string => exact readsInPlace_string h hsize
  | vector t ih => exact readsInPlace_vector t.faithful (fun h hsize => ih h hsize) h hsize

/-- Since no reader touches the bytes of another value, `deserialize`, which leaves the buffer
as it is, reads the same. -/
theorem Ty.reader_eq_deserialize (t : Ty) {a : t.Val} {bytes : List Byte} (h : t.Encodes a bytes)
    (hsize : t.serializer.getSize a < 2 ^ 30) (ndebug : Bool) (rest : List Byte) :
    (t.reader ndebug (bytes ++ rest)).map (fun r => (r.1, r.2.1)) =
      t.serializer.deserialize ndebug (bytes ++ rest) := by
  obtain ⟨left, -, hread⟩ := t.readsInPlace h hsize
  ext r
  rw [Option.map_eq_some_iff, t.faithful.reads h hsize]
  constructor
  · rintro ⟨x, hx, rfl⟩
    obtain ⟨rfl, hclean⟩ := (hread ndebug rest x).mp hx
    exact ⟨rfl, hclean⟩
  · rintro ⟨rfl, hclean⟩
    exact ⟨_, (hread ndebug rest _).mpr ⟨rfl, hclean⟩, rfl⟩

/-! ## Pairs -/

section Pairs

variable {kt vt : Ty}

/-- The bytes of a pair. -/
def EncodesPair (kt vt : Ty) (p : kt.Val × vt.Val) (bytes : List Byte) : Prop :=
  ∃ kb vb, kt.Encodes p.1 kb ∧ vt.Encodes p.2 vb ∧ bytes = kb ++ vb

/-- No string in the pair has a zero byte. -/
def pairNoNul (kt vt : Ty) (p : kt.Val × vt.Val) : Bool := kt.noNul p.1 && vt.noNul p.2

theorem EncodesPair.length {p : kt.Val × vt.Val} {bytes : List Byte} (h : EncodesPair kt vt p bytes) :
    bytes.length = 4 * pairSize kt vt p := by
  obtain ⟨kb, vb, hkey, hvalue, rfl⟩ := h
  rw [List.length_append, kt.faithful.length hkey, vt.faithful.length hvalue, pairSize, Nat.mul_add]

/-- Pairs are written one after another. -/
theorem serializePairs_spec (ps : List (kt.Val × vt.Val)) (buf : List Byte)
    (hbuf : 4 * (ps.map (pairSize kt vt)).sum ≤ buf.length) :
    ∃ bytes, serializePairs kt vt ps buf =
        (bytes ++ buf.drop (4 * (ps.map (pairSize kt vt)).sum), (ps.map (pairSize kt vt)).sum) ∧
      EncodesEach (EncodesPair kt vt) ps bytes := by
  induction ps generalizing buf with
  | nil => exact ⟨[], rfl, rfl⟩
  | cons p ps ih =>
      rw [List.map_cons, List.sum_cons] at hbuf ⊢
      obtain ⟨size, hsize⟩ : ∃ size, size = (ps.map (pairSize kt vt)).sum := ⟨_, rfl⟩
      rw [← hsize] at hbuf ⊢
      rw [pairSize] at hbuf ⊢
      obtain ⟨kb, hkey, hkb⟩ := kt.faithful.writes p.1 buf (by omega)
      obtain ⟨vb, hvalue, hvb⟩ := vt.faithful.writes p.2 (buf.drop (4 * kt.serializer.getSize p.1))
        (by rw [List.length_drop]; omega)
      obtain ⟨bytes, hrest, hbytes⟩ := ih ((buf.drop (4 * kt.serializer.getSize p.1)).drop
        (4 * vt.serializer.getSize p.2)) (by rw [List.length_drop, List.length_drop]; omega)
      have hklen := kt.faithful.length hkb
      have hvlen := vt.faithful.length hvb
      refine ⟨kb ++ vb ++ bytes, ?_, kb ++ vb, bytes, ⟨kb, vb, hkb, hvb, rfl⟩, hbytes, rfl⟩
      rw [serializePairs]
      simp only [hkey, ← hklen, List.drop_left, List.take_left]
      rw [hklen, hvalue]
      simp only [← hvlen, List.drop_left, List.take_left]
      rw [hvlen, hrest, ← hsize, List.drop_drop, List.drop_drop]
      simp only [List.append_assoc, Nat.mul_add, Nat.add_assoc]

/-- A pair is decoded in place. -/
theorem decodeKeyValue_spec {p : kt.Val × vt.Val} {bytes : List Byte} (h : EncodesPair kt vt p bytes)
    (hsize : pairSize kt vt p < 2 ^ 30) (hclean : pairNoNul kt vt p = true) :
    ∃ left : List Byte, left.length = bytes.length ∧ ∀ ndebug rest len, pairSize kt vt p ≤ len →
      decodeKeyValue kt vt ndebug (bytes ++ rest) len = some (p, pairSize kt vt p, left ++ rest) := by
  obtain ⟨kb, vb, hkb, hvb, rfl⟩ := h
  rw [pairNoNul, Bool.and_eq_true] at hclean
  rw [pairSize] at hsize ⊢
  have hpos := vt.faithful.size_pos p.2
  obtain ⟨kleft, hkleft, hkey⟩ := kt.readsInPlace hkb (by omega)
  obtain ⟨vleft, hvleft, hvalue⟩ := vt.readsInPlace hvb (by omega)
  refine ⟨kleft ++ vleft, by rw [List.length_append, List.length_append, hkleft, hvleft],
    fun ndebug rest len hlen => ?_⟩
  have hkey := (hkey ndebug (vb ++ rest) _).mpr ⟨rfl, Or.inr hclean.1⟩
  have hvalue := (hvalue ndebug rest _).mpr ⟨rfl, Or.inr hclean.2⟩
  have hsame : 4 * kt.serializer.getSize p.1 = kleft.length :=
    (kt.faithful.length hkb).symm.trans hkleft.symm
  rw [decodeKeyValue, List.append_assoc, hkey]
  simp only [Option.bind_eq_bind, Option.bind_some]
  rw [if_pos (Or.inr (by omega)), hsame, List.drop_left, hvalue]
  simp only [Option.bind_some]
  rw [if_pos (Or.inr hlen), List.take_left, kt.faithful.shown_eq _ hclean.1, vt.faithful.shown_eq _ hclean.2,
    List.append_assoc]
  rfl

/-- The loop over the words of some pairs decodes them. -/
theorem decodePairs_spec {ps : List (kt.Val × vt.Val)} {bytes : List Byte}
    (h : EncodesEach (EncodesPair kt vt) ps bytes) (hsize : (ps.map (pairSize kt vt)).sum < 2 ^ 30)
    (hclean : ∀ p ∈ ps, pairNoNul kt vt p = true) (ndebug : Bool) :
    ∀ (fuel : Nat), (ps.map (pairSize kt vt)).sum ≤ fuel → ∃ left : List Byte, left.length = bytes.length ∧
      decodePairs kt vt ndebug fuel bytes (ps.map (pairSize kt vt)).sum = some (ps, left) := by
  induction ps generalizing bytes with
  | nil =>
      obtain rfl : bytes = [] := h
      intro fuel _
      refine ⟨[], rfl, ?_⟩
      cases fuel <;> rfl
  | cons p ps ih =>
      intro fuel hfuel
      rw [List.map_cons, List.sum_cons] at hsize hfuel ⊢
      obtain ⟨first, others, hfirst, hothers, rfl⟩ := h
      have hlen := hfirst.length
      have hpos : 1 ≤ pairSize kt vt p := (kt.faithful.size_pos p.1).trans (Nat.le_add_right ..)
      obtain ⟨left, hleft, hfirst⟩ := decodeKeyValue_spec hfirst (by omega) (hclean p List.mem_cons_self)
      obtain ⟨fuel, rfl⟩ : ∃ f, fuel = f + 1 := ⟨fuel - 1, by omega⟩
      obtain ⟨left', hleft', hrest⟩ := ih hothers (by omega)
        (fun q hq => hclean q (List.mem_cons_of_mem _ hq)) fuel (by omega)
      obtain ⟨len, hlen'⟩ : ∃ l, pairSize kt vt p + (ps.map (pairSize kt vt)).sum = l + 1 :=
        ⟨pairSize kt vt p + (ps.map (pairSize kt vt)).sum - 1, by omega⟩
      have hsame : 4 * pairSize kt vt p = left.length := hlen.symm.trans hleft.symm
      have hsub : len + 1 - pairSize kt vt p = (ps.map (pairSize kt vt)).sum := by omega
      refine ⟨left ++ left', by rw [List.length_append, List.length_append, hleft, hleft'], ?_⟩
      rw [hlen', decodePairs, hfirst ndebug others (len + 1) (by omega)]
      simp only [Option.bind_eq_bind, Option.bind_some, hsame, hsub, List.drop_left, List.take_left, hrest]
      rfl

/-- Pairs that are serialized one after another are decoded as they were, in as many words as
`GetSize` says. For every value `Serialize` writes and `Deserialize` reads as many words as
`GetSize` says, and reading leaves what follows as it is. -/
theorem pairs_round_trip (kt vt : Ty) (ndebug : Bool) (ps : List (kt.Val × vt.Val)) (buf : List Byte)
    (hclean : ∀ p ∈ ps, pairNoNul kt vt p = true) (hbuf : buf.length = 4 * (ps.map (pairSize kt vt)).sum)
    (hbytes : buf.length < 2 ^ 32) :
    (∃ bytes left, serializePairs kt vt ps buf = (bytes, (ps.map (pairSize kt vt)).sum) ∧
      baseDoAccumulateDense kt vt ndebug bytes = some (ps, left)) ∧
    ∀ (t : Ty) (a : t.Val) (buf : List Byte), 4 * t.serializer.getSize a ≤ buf.length → buf.length < 2 ^ 32 →
      (t.noNul a = true → t.shown a = a) ∧ ∃ bytes left,
        t.serializer.serialize a buf =
          (bytes ++ buf.drop (4 * t.serializer.getSize a), t.serializer.getSize a) ∧
        bytes.length = 4 * t.serializer.getSize a ∧ left.length = bytes.length ∧
        ∀ ndebug rest r, t.reader ndebug (bytes ++ rest) = some r ↔
          r = (t.shown a, t.serializer.getSize a, left ++ rest) ∧ (ndebug = true ∨ t.noNul a = true) := by
  constructor
  · obtain ⟨bytes, hser, henc⟩ := serializePairs_spec ps buf hbuf.ge
    have hlen := henc.length fun p bytes => EncodesPair.length
    obtain ⟨left, -, hdecode⟩ := decodePairs_spec henc (by omega) hclean ndebug _ (Nat.le_refl _)
    refine ⟨bytes, left, ?_, ?_⟩
    · rw [hser, ← hbuf, List.drop_length, List.append_nil]
    · rw [baseDoAccumulateDense, hlen, Nat.mul_div_cancel_left _ (by decide)]
      exact hdecode
  · intro t a buf hbuf hbytes
    obtain ⟨bytes, hser, henc⟩ := t.faithful.writes a buf hbuf
    obtain ⟨left, hleft, hread⟩ := t.readsInPlace henc (by omega)
    exact ⟨t.faithful.shown_eq a, bytes, left, hser, t.faithful.length henc, hleft, hread⟩

/-- Two pairs of a string and a vector: a string that ends within a word and an empty one. -/
def twoPairs : List (Ty.string.Val × (Ty.vector .int).Val) :=
  [([97, 98], [(1 : Word), (2 : Word)]), ([], [])]

theorem pairs_round_trip_two :
    ∃ bytes left, serializePairs .string (.vector .int) twoPairs (List.replicate 32 255) = (bytes, 8) ∧
      baseDoAccumulateDense .string (.vector .int) false bytes = some (twoPairs, left) :=
  (pairs_round_trip .string (.vector .int) false twoPairs (List.replicate 32 255)
    (by decide) (by decide) (by decide)).1

end Pairs

end Dogee.Serializer
