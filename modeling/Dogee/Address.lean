import Mathlib.Algebra.Group.Int.Defs
import Mathlib.Algebra.GroupWithZero.Nat
import Mathlib.Data.List.Basic
import Mathlib.Order.Lattice

/-!
# Keys, words and blocks of the shared memory

The shared memory holds 32-bit words. A word is addressed by the key of its
object and a field id, or by both packed into one 64-bit key. Words are grouped
into blocks of `blockSize` words. Keys are natural numbers here; where the
source computes with them in 32 or 64 bits, the reduction is written out.
-/

namespace Dogee

/-- The key of an object in the shared memory; zero is the null reference. -/
abbrev ObjectKey := Nat

/-- The unit of the shared memory. -/
abbrev Word := UInt32

/-- `DSM_CACHE_BLOCK_SIZE`, the number of words in a block. -/
def blockSize : Nat := 32

/-- The range of a 32-bit unsigned integer. -/
def two32 : Nat := 2 ^ 32

/-- The range of a 64-bit unsigned integer. -/
def two64 : Nat := 2 ^ 64

/-- `MAKE64`: an object key in the high half, a field id in the low half. -/
def make64 (key fldid : Nat) : Nat := key * two32 + fldid

end Dogee
