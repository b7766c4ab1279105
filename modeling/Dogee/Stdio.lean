import Mathlib.Data.List.TakeWhile
import Mathlib.Data.List.Infix

/-!
# C strings and line input

A buffer is a list of bytes; the string at a position ends before the first NUL behind it. A stream has
the bytes that are still to be read, the position in the file and the end-of-file indicator. `fgets`
reads at most one line. It looks for the end of the file only when it needs a further byte: a read that
ends with a newline, or at the length it was given, does not set the indicator. When the first byte it
needs is missing, it leaves the buffer as it is.
-/

namespace Dogee.Stdio

abbrev Byte := UInt8

/-- The character that ends a line. -/
def newline : Byte := 10

/-! ## Buffers -/

/-- The string at position `i`. -/
def cString (buf : List Byte) (i : Nat) : List Byte := (buf.drop i).takeWhile (· ≠ 0)

/-- Write bytes from position `i` on. -/
def store (buf : List Byte) (i : Nat) (bytes : List Byte) : List Byte :=
  buf.take i ++ bytes ++ buf.drop (i + bytes.length)

/-- `memmove(buf, buf + i, n)` -/
def moveToFront (buf : List Byte) (i n : Nat) : List Byte := (buf.drop i).take n ++ buf.drop n

structure Stream where
  rest : List Byte
  pos : Nat
  eof : Bool

/-- At most `n` bytes, up to and with the first newline. -/
def lineChunk : Nat → List Byte → List Byte
  | 0, _ => []
  | _, [] => []
  | n + 1, b :: rest => if b = newline then [b] else b :: lineChunk n rest

/-- `fgets(st, n, f)` for a positive `n`: the bytes that are stored at `st`, with a NUL behind them. -/
def Stream.fgets (n : Nat) (f : Stream) : Option (List Byte) × Stream :=
  if n ≤ 1 then (some [], f)
  else if f.rest = [] then (none, { f with eof := true })
  else
    let chunk := lineChunk (n - 1) f.rest
    (some chunk,
      { rest := f.rest.drop chunk.length
        pos := f.pos + chunk.length
        eof := f.eof || decide (chunk.length < n - 1 ∧ newline ∉ chunk) })

/-- `fopen` followed by `fseek(f, pos, SEEK_SET)`; a negative position is refused. -/
def Stream.openAt (content : List Byte) (pos : Int) : Stream :=
  if pos < 0 then ⟨content, 0, false⟩ else ⟨content.drop pos.toNat, pos.toNat, false⟩

section Chunk

variable {n : Nat} {rest : List Byte}

theorem lineChunk_isPrefix (n : Nat) (rest : List Byte) : lineChunk n rest <+: rest := by
  induction n generalizing rest with
  | zero => exact List.nil_prefix
  | succ n ih =>
      cases rest with
      | nil => exact List.nil_prefix
      | cons b rest =>
          rw [lineChunk]
          split
          · exact ⟨rest, rfl⟩
          · exact List.cons_prefix_cons.mpr ⟨rfl, ih rest⟩

theorem lineChunk_append_drop (n : Nat) (rest : List Byte) :
    lineChunk n rest ++ rest.drop (lineChunk n rest).length = rest := by
  exact List.prefix_iff_eq_append.mp (lineChunk_isPrefix n rest)

theorem length_lineChunk_le (n : Nat) (rest : List Byte) : (lineChunk n rest).length ≤ n := by
  induction n generalizing rest with
  | zero => exact Nat.le_refl 0
  | succ n ih =>
      cases rest with
      | nil => exact Nat.zero_le _
      | cons b rest =>
          rw [lineChunk]
          split
          · exact Nat.succ_le_succ (Nat.zero_le n)
          · exact Nat.succ_le_succ (ih rest)

end Chunk

end Dogee.Stdio
