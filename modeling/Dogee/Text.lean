import Mathlib.Algebra.Group.Int.Defs
import Mathlib.Data.List.TakeWhile
import Mathlib.Tactic.Common

/-!
# Text

Decimal numbers as a stream prints them and `atoi` reads them, and the splitting of a text at a
delimiter with `getline`.
-/

namespace Dogee

/-- `std::string` -/
abbrev Text := List Char

namespace Text

/-! ## Numbers -/

/-- `os << n` -/
def decimal (n : Int) : Text :=
  if n < 0 then '-' :: Nat.toDigits 10 n.natAbs else Nat.toDigits 10 n.natAbs

def isSpace (c : Char) : Bool := c ∈ [' ', '\t', '\n', '\x0b', '\x0c', '\r']

/-- The sign in front of a number, if there is one, and what follows it. -/
def sign : Text → Int × Text
  | '-' :: rest => (-1, rest)
  | '+' :: rest => (1, rest)
  | s => (1, s)

/-- `atoi`, which is undefined when the number is no `int`. -/
def atoi (s : Text) : Option Int :=
  let (sgn, rest) := sign (s.dropWhile isSpace)
  let n : Int := sgn * (Nat.ofDigitChars 10 (rest.takeWhile Char.isDigit) 0 : Nat)
  if -2 ^ 31 ≤ n ∧ n < 2 ^ 31 then some n else none

/-- `is >> n`, for numbers of any size; what is no number reads as 0. -/
def readInt (s : Text) : Int :=
  let (sgn, rest) := sign (s.dropWhile isSpace)
  sgn * (Nat.ofDigitChars 10 (rest.takeWhile Char.isDigit) 0 : Nat)

theorem takeWhile_toDigits (n : Nat) : (Nat.toDigits 10 n).takeWhile Char.isDigit = Nat.toDigits 10 n := by
  apply List.takeWhile_eq_self_iff.mpr
  intro c hc
  exact Nat.isDigit_of_mem_toDigits (by decide) (by decide) hc

/-- What is no digit is not in a number, a sign apart. -/
theorem notMem_toDigits {c : Char} (hc : c.isDigit = false) (n : Nat) : c ∉ Nat.toDigits 10 n := by
  intro hmem
  have hdigit := Nat.isDigit_of_mem_toDigits (by decide) (by decide) hmem
  rw [hc] at hdigit
  cases hdigit

theorem notMem_decimal {c : Char} (hc : c.isDigit = false) (hsign : c ≠ '-') (n : Int) : c ∉ decimal n := by
  rw [decimal]
  split
  · rw [List.mem_cons, not_or]
    exact ⟨hsign, notMem_toDigits hc _⟩
  · exact notMem_toDigits hc _

theorem decimal_ne_nil (n : Int) : decimal n ≠ [] := by
  rw [decimal]
  split
  · exact List.cons_ne_nil _ _
  · exact Nat.toDigits_ne_nil

theorem sign_toDigits (n : Nat) : sign ((Nat.toDigits 10 n).dropWhile isSpace) = (1, Nat.toDigits 10 n) := by
  cases hdigits : Nat.toDigits 10 n with
  | nil => exact absurd hdigits Nat.toDigits_ne_nil
  | cons c rest =>
      have hdigit : c.isDigit = true :=
        Nat.isDigit_of_mem_toDigits (by decide) (by decide) (hdigits ▸ List.mem_cons_self)
      have hspace : isSpace c = false := by
        rw [isSpace, decide_eq_false_iff_not]
        rintro hmem
        simp only [List.mem_cons, List.not_mem_nil, or_false] at hmem
        rcases hmem with rfl | rfl | rfl | rfl | rfl | rfl <;> exact absurd hdigit (by decide)
      rw [List.dropWhile_cons_of_neg (by rw [hspace]; decide)]
      unfold sign
      split
      · rename_i heq
        obtain ⟨rfl, -⟩ := List.cons.inj heq
        exact absurd hdigit (by decide)
      · rename_i heq
        obtain ⟨rfl, -⟩ := List.cons.inj heq
        exact absurd hdigit (by decide)
      · rfl

/-- A stream reads what a stream has printed. -/
theorem readInt_decimal (n : Int) : readInt (decimal n) = n := by
  have hread : ∀ s : Text, sign (s.dropWhile isSpace) =
      (if n < 0 then -1 else 1, Nat.toDigits 10 n.natAbs) → readInt s = n := by
    intro s hs
    unfold readInt
    rw [hs]
    simp only [takeWhile_toDigits, Nat.ofDigitChars_ten_toDigits]
    split <;> omega
  apply hread
  rw [decimal]
  split
  · rfl
  · exact sign_toDigits n.natAbs

/-- `atoi` reads what a stream has printed. -/
theorem atoi_decimal {n : Int} (hlow : -2 ^ 31 ≤ n) (hhigh : n < 2 ^ 31) : atoi (decimal n) = some n := by
  have hatoi : ∀ s : Text, atoi s = if -2 ^ 31 ≤ readInt s ∧ readInt s < 2 ^ 31 then some (readInt s) else none :=
    fun _ => rfl
  rw [hatoi, readInt_decimal, if_pos ⟨hlow, hhigh⟩]

theorem decimal_natCast (n : Nat) : decimal n = Nat.toDigits 10 n := by
  rw [decimal, if_neg (by omega), Int.natAbs_natCast]

theorem toDigits_inj {n n' : Nat} (h : Nat.toDigits 10 n = Nat.toDigits 10 n') : n = n' := by
  have hread := congrArg (Nat.ofDigitChars 10 · 0) h
  simpa only [Nat.ofDigitChars_ten_toDigits] using hread

/-! ## Splitting -/

/-- `str_split`: `item` is what `getline` has read so far. At the end of the text an item is given only
when something has been read. -/
def strSplit (delim : Char) (item : Text) : Text → List Text
  | [] => if item = [] then [] else [item]
  | c :: rest =>
      if c = delim then item :: strSplit delim [] rest else strSplit delim (item ++ [c]) rest

section Split

variable {delim : Char} {s : Text}

theorem strSplit_notMem (hs : delim ∉ s) (item : Text) :
    strSplit delim item s = if item ++ s = [] then [] else [item ++ s] := by
  induction s generalizing item with
  | nil =>
      rw [List.append_nil]
      rfl
  | cons c rest ih =>
      rw [List.mem_cons, not_or] at hs
      rw [strSplit, if_neg (Ne.symm hs.1), ih hs.2, List.append_assoc]
      rfl

theorem strSplit_append (hs : delim ∉ s) (item rest : Text) :
    strSplit delim item (s ++ delim :: rest) = (item ++ s) :: strSplit delim [] rest := by
  induction s generalizing item with
  | nil =>
      rw [List.nil_append, List.append_nil, strSplit, if_pos rfl]
  | cons c rest' ih =>
      rw [List.mem_cons, not_or] at hs
      rw [List.cons_append, strSplit, if_neg (Ne.symm hs.1), ih hs.2, List.append_assoc]
      rfl

/-- Two texts without the delimiter in front of it are the same when what they start is. -/
theorem append_delim_inj {s' rest rest' : Text} (hs : delim ∉ s) (hs' : delim ∉ s')
    (h : s ++ delim :: rest = s' ++ delim :: rest') : s = s' := by
  have hsplit := congrArg (strSplit delim []) h
  rw [strSplit_append hs, strSplit_append hs'] at hsplit
  exact (List.cons.inj hsplit).1

end Split

end Text

end Dogee
