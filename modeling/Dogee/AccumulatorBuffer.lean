import Dogee.Address
import Mathlib.Algebra.Group.Basic
import Mathlib.Order.Defs.LinearOrder
import Mathlib.Algebra.BigOperators.Group.List.Basic

/-!
# The vectors of an accumulator

An accumulator cuts its vector into one segment per node. Positions are counted
in words of the shared memory, in 32-bit arithmetic; an element takes `d` of
them (`dsm_size_of`), and every position that occurs here is a multiple of `d`,
so buffers are lists of elements. A failed assertion is `none`.
-/

namespace Dogee.Accumulator

variable {T : Type}

/-- `BD_DATA_PROCESS_SIZE`, the largest payload of a message in bytes. -/
def dataProcessSize : Nat := 16 * 1024

/-- The number of words from which on an accumulator is refused. -/
def maxWords : Nat := 1024 * 1024 * 128

/-! ## Segments -/

def ceilDiv (a b : Nat) : Nat := if a % b = 0 then a / b else a / b + 1

/-- The number of blocks in a segment, for `sz` words on `nodes` nodes. -/
def segmentBlocks (sz nodes : Nat) : Nat := ceilDiv (ceilDiv sz blockSize) nodes

/-- Where the sender's segment for node `i` starts. -/
def segmentStart (sz nodes i : Nat) : Nat :=
  i * segmentBlocks sz nodes * blockSize % two32

/-- Where the sender's segment for node `i` ends. -/
def segmentEnd (sz nodes i : Nat) : Nat :=
  let len := segmentBlocks sz nodes * blockSize % two32
  if (len + segmentStart sz nodes i) % two32 > sz then sz else (segmentStart sz nodes i + len) % two32

/-- `base` of the node `self` in `init_data_node`. -/
def nodeBase (sz nodes self : Nat) : Nat := segmentBlocks sz nodes * self * blockSize % two32

/-- `size` of the node `self` in `init_data_node`. -/
def nodeSize (sz nodes self : Nat) : Nat :=
  if segmentBlocks sz nodes * blockSize * (self + 1) % two32 > sz then
    if sz < nodeBase sz nodes self then 0 else sz - nodeBase sz nodes self
  else segmentBlocks sz nodes * blockSize % two32

/-! ## Payloads -/

inductive AccumulatorMode
  | dense
  | sparse
  | auto
  deriving DecidableEq

/-- The data of a message. -/
inductive Payload (T : Type)
  | dense (data : List T)
  | sparse (elements : List (Nat × T))
  deriving DecidableEq

/-- A message without data has the size zero. -/
def Payload.isEmpty : Payload T → Bool
  | dense data => data.isEmpty
  | sparse elements => elements.isEmpty

/-- `sizeof(SparseElement<T>)` -/
def sparseElementSize (d : Nat) : Nat := 4 + 4 * d

section Prepare

variable [Zero T] [Neg T] [LinearOrder T]

def IsSmall (threshold val : T) : Prop :=
  (0 ≤ val ∧ val ≤ threshold) ∨ (val < 0 ∧ -threshold ≤ val)

instance (threshold val : T) : Decidable (IsSmall threshold val) :=
  inferInstanceAs (Decidable (_ ∨ _))

/-- The loop of `IsProfitableToCompress`: the zeros and the elements it has counted. -/
def countZeros (d : Nat) (threshold : T) : List T → Nat → Nat → Nat → Nat × Nat
  | [], zeros, _, i => (zeros, i)
  | val :: vec, zeros, used, i =>
      if used < dataProcessSize then
        if IsSmall threshold val then countZeros d threshold vec (zeros + 1) used (i + 1)
        else countZeros d threshold vec zeros (used + sparseElementSize d) (i + 1)
      else (zeros, i)

/-- The test `zeros / i > 0.52`. For fewer than 2^27 elements the quotient of
doubles exceeds the double `0.52` exactly when the fraction exceeds 13/25. -/
def isProfitableToCompress (d : Nat) (threshold : T) (vec : List T) : Bool :=
  let r := countZeros d threshold vec 0 0 0
  13 * r.2 < 25 * r.1

/-- What `MakeSparseArray` sends for an element. -/
def sparseValue (threshold val : T) : T :=
  if 0 ≤ val ∧ val < threshold then 0 else if val < 0 ∧ -threshold < val then 0 else val

/-- `MakeSparseArray` from index `i` on, with `used` bytes written: the number of
elements it has gone through and what it has written. -/
def makeSparseArray (d : Nat) (threshold : T) : List T → Nat → Nat → Nat × List (Nat × T)
  | [], _, _ => (0, [])
  | v :: vec, i, used =>
      if dataProcessSize ≤ used + sparseElementSize d then (0, [])
      else
        let val := sparseValue threshold v
        if val = 0 then
          let r := makeSparseArray d threshold vec (i + 1) used
          (r.1 + 1, r.2)
        else
          let r := makeSparseArray d threshold vec (i + 1) (used + sparseElementSize d)
          (r.1 + 1, (i, val) :: r.2)

/-- The elements of a vector between two positions in words. -/
def window (d : Nat) (src : List T) (idx size : Nat) : List T :=
  (src.drop (idx / d)).take (size / d - idx / d)

/-- The mode in which a part of the vector is sent. -/
def sendSparse (d : Nat) (threshold : T) (vec : List T) : AccumulatorMode → Bool
  | .dense => false
  | .sparse => true
  | .auto => isProfitableToCompress d threshold vec

/-- `AcAccumulatePrepareBuffer`: the number of words it has gone through and the
payload, for the positions from `idx` to `size`. -/
def acAccumulatePrepareBuffer (d : Nat) (mode : AccumulatorMode) (threshold : T) (src : List T)
    (idx size : Nat) : Nat × Payload T :=
  if sendSparse d threshold (window d src idx size) mode then
    let r := makeSparseArray d threshold (window d src idx size) (idx / d) 0
    (d * r.1, .sparse r.2)
  else
    let words := if idx + dataProcessSize / 4 > size then size - idx else dataProcessSize / 4
    (words, .dense (window d src idx (idx + words)))

end Prepare

/-! ## `DAddAccumulator` -/

section Add

variable [Add T]

/-- Add elements to a buffer from a position on. -/
def addAt : List T → Nat → List T → List T
  | out, _, [] => out
  | out, j, v :: vs => addAt (out.modify j (· + v)) (j + 1) vs

def doAccumulateDense (data : List T) (inIndex : Nat) (out : List T) (outIndex outLen : Nat) :
    Option (List T) :=
  let offset := (inIndex + two32 - outIndex) % two32
  if offset < two32 / 2 ∧ (offset + data.length) % two32 ≤ outLen then some (addAt out offset data)
  else none

def doAccumulateSparse (elements : List (Nat × T)) (out : List T) (outIndex outLen : Nat) :
    Option (List T) :=
  elements.foldlM (fun out e =>
    if outIndex ≤ e.1 ∧ e.1 < (outIndex + outLen) % two32 then
      some (out.modify (e.1 - outIndex) (· + e.2))
    else none) out

/-- `BaseDoAccumulateDense` and `BaseDoAccumulateSparse`, by the type of the payload. -/
def doAccumulate (d : Nat) (data : Payload T) (offset : Nat) (buf : List T) (base size : Nat) :
    Option (List T) :=
  match data with
  | .dense data => doAccumulateDense data (offset / d) buf (base / d) (size / d)
  | .sparse elements => doAccumulateSparse elements buf (base / d) (size / d)

end Add

end Dogee.Accumulator
