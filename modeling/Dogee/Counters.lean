import Dogee.Address
import Dogee.Text
import Mathlib.Data.List.Induction
import Mathlib.Data.List.Infix
import Mathlib.Data.UInt
import Mathlib.Logic.Function.Basic

/-!
# Counters

The counters of the memcached backends. The server stores a counter as decimal text under the
64-bit key of its field; `setcounter` prints the number with `sprintf`, `getcounter` reads it with
`atoll`, and the server itself adds to it. Every call is one request, so calls of any number of
clients are served in some order, one after another.

`dec` asks the server to add as well. What a run of calls leaves is therefore the start with all
operands added, modulo `2 ^ 64`, and `getcounter` reads it where it is a `long long`.
-/

namespace Dogee.Counters

open Text (decimal readInt)

/-- The texts under the 64-bit keys. -/
abbrev Server := Nat → Option Text

/-- How a call can fail: `throw 1`, or a step that the language leaves undefined. -/
inductive Failure
  | thrown
  | undefined
  deriving DecidableEq, Repr

/-- What `memcached_increment` makes of a stored text and an operand: the new text and the number it
answers. On a number in decimal it adds modulo `2 ^ 64`. -/
structure Increment where
  apply : Text → UInt64 → Option (Text × UInt64)
  apply_decimal : ∀ n d : UInt64, apply (decimal n.toNat) d = some (decimal (n + d).toNat, n + d)

/-- The arithmetic of the server: a text of digits is the number it shows, anything else is refused. -/
def Increment.wrapping : Increment where
  apply text d :=
    if text ≠ [] ∧ text.all Char.isDigit ∧ Nat.ofDigitChars 10 text 0 < 2 ^ 64 then
      let n := UInt64.ofNat (Nat.ofDigitChars 10 text 0) + d
      some (decimal n.toNat, n)
    else
      none
  apply_decimal n d := by
    have hdigits : (Nat.toDigits 10 n.toNat).all Char.isDigit = true := by
      rw [List.all_eq_true]
      intro c hc
      exact Nat.isDigit_of_mem_toDigits (by decide) (by decide) hc
    have hvalue : Nat.ofDigitChars 10 (Nat.toDigits 10 n.toNat) 0 = n.toNat := Nat.ofDigitChars_ten_toDigits
    rw [Text.decimal_natCast n.toNat, hvalue,
      if_pos ⟨Nat.toDigits_ne_nil, hdigits, n.toNat_lt⟩, UInt64.ofNat_toNat]

/-! ## The calls -/

/-- `sprintf(ch2, "%lu", n)` into a buffer of `len` bytes, the terminator among them. -/
def sprintfLu (len : Nat) (n : UInt64) : Except Failure Text :=
  if (decimal n.toNat).length < len then .ok (decimal n.toNat) else .error .undefined

/-- `atoll`, undefined when the number is no `long long`. -/
def atoll (s : Text) : Except Failure Int :=
  if -2 ^ 63 ≤ readInt s ∧ readInt s < 2 ^ 63 then .ok (readInt s) else .error .undefined

def getcounter (server : Server) (key fldid : Nat) : Except Failure UInt64 :=
  match server (make64 key fldid) with
  | none => .error .thrown
  | some returnValue => do
      let ret ← atoll returnValue
      pure (UInt64.ofInt ret)

def setcounter (server : Server) (key fldid : Nat) (n : UInt64) : Except Failure Server := do
  let ch2 ← sprintfLu 65 n
  pure (Function.update server (make64 key fldid) (some ch2))

/-- `memcached_increment`: no answer stands for any return code but `MEMCACHED_SUCCESS`. -/
def memcachedIncrement (mc : Increment) (server : Server) (k : Nat) (offset : UInt64) :
    Option UInt64 × Server :=
  match (server k).bind (mc.apply · offset) with
  | none => (none, server)
  | some (text, ret) => (some ret, Function.update server k (some text))

/-- `if (rc != MEMCACHED_SUCCESS) throw 1; return ret;` -/
def returned : Option UInt64 → Except Failure UInt64
  | none => .error .thrown
  | some ret => .ok ret

def inc (mc : Increment) (server : Server) (key fldid : Nat) (n : UInt64) :
    Except Failure UInt64 × Server :=
  let answer := memcachedIncrement mc server (make64 key fldid) n
  (returned answer.1, answer.2)

/-- The request of `dec` is `memcached_increment` too. -/
def dec (mc : Increment) (server : Server) (key fldid : Nat) (n : UInt64) :
    Except Failure UInt64 × Server :=
  let answer := memcachedIncrement mc server (make64 key fldid) n
  (returned answer.1, answer.2)

/-! ## Runs of calls -/

inductive Op
  | inc (n : UInt64)
  | dec (n : UInt64)
  deriving DecidableEq, Repr

/-- A call of a client on the counter of a field. -/
structure Call where
  client : Nat
  key : Nat
  fldid : Nat
  op : Op
  deriving DecidableEq, Repr

namespace Call

/-- The key of the counter. -/
def longKey (call : Call) : Nat := make64 call.key call.fldid

def run (mc : Increment) (call : Call) (server : Server) : Except Failure UInt64 × Server :=
  match call.op with
  | .inc n => inc mc server call.key call.fldid n
  | .dec n => dec mc server call.key call.fldid n

/-- How much the call is to add to the counter `k`. -/
def increment (k : Nat) (call : Call) : Nat :=
  match call.op with
  | .inc n => if call.longKey = k then n.toNat else 0
  | .dec _ => 0

/-- How much the call is to take from the counter `k`. -/
def decrement (k : Nat) (call : Call) : Nat :=
  match call.op with
  | .inc _ => 0
  | .dec n => if call.longKey = k then n.toNat else 0

end Call

/-- The calls with what they returned, in the order of the server. -/
abbrev Trace := List (Call × Except Failure UInt64)

def runCalls (mc : Increment) (server : Server) (calls : List Call) : Trace × Server :=
  calls.foldl (fun s call =>
    let answer := call.run mc s.2
    (s.1 ++ [(call, answer.1)], answer.2)) ([], server)

/-- What the last call on the counter `k` returned. -/
def lastReturned (k : Nat) (trace : Trace) : Option (Except Failure UInt64) :=
  (trace.filter (·.1.longKey = k)).getLast?.map (·.2)

def increments (k : Nat) (calls : List Call) : Nat := (calls.map (Call.increment k)).sum

def decrements (k : Nat) (calls : List Call) : Nat := (calls.map (Call.decrement k)).sum

/-- The value that the counter `k` is meant to have. -/
def total (k : Nat) (n₀ : UInt64) (calls : List Call) : Int :=
  n₀.toNat + increments k calls - decrements k calls

/-- All through the run the value fits in 64 bits. -/
def InRange (k : Nat) (n₀ : UInt64) (calls : List Call) : Prop :=
  ∀ seen, seen <+: calls → 0 ≤ total k n₀ seen ∧ total k n₀ seen < 2 ^ 64

instance (k : Nat) (n₀ : UInt64) (calls : List Call) : Decidable (InRange k n₀ calls) :=
  decidable_of_iff (∀ seen ∈ calls.inits, 0 ≤ total k n₀ seen ∧ total k n₀ seen < 2 ^ 64)
    (by simp only [List.mem_inits, InRange])

/-- The counter holds its value after the calls: it is what `getcounter` returns, and what the last
`inc` or `dec` has returned. -/
structure Exact (mc : Increment) (server : Server) (key fldid : Nat) (calls : List Call) (value : Int) :
    Prop where
  last : ∀ r, lastReturned (make64 key fldid) (runCalls mc server calls).1 = some r →
    ∃ n, r = .ok n ∧ (n.toNat : Int) = value
  getcounter : ∃ n, getcounter (runCalls mc server calls).2 key fldid = .ok n ∧ (n.toNat : Int) = value

/-! ## What the calls do -/

theorem length_decimal_lt (n : UInt64) : (decimal n.toNat).length < 65 := by
  rw [Text.decimal_natCast]
  have hlength : (Nat.toDigits 10 n.toNat).length ≤ 20 := by
    rw [Nat.length_toDigits_le_iff (by decide) (by decide)]
    exact Nat.lt_trans n.toNat_lt (by decide)
  omega

/-- The buffer of `setcounter` has room for every number. -/
theorem setcounter_eq (server : Server) (key fldid : Nat) (n : UInt64) :
    setcounter server key fldid n =
      .ok (Function.update server (make64 key fldid) (some (decimal n.toNat))) := by
  rw [setcounter, sprintfLu, if_pos (length_decimal_lt n)]
  rfl

theorem atoll_decimal (n : UInt64) :
    atoll (decimal n.toNat) = if n.toNat < 2 ^ 63 then .ok (n.toNat : Int) else .error .undefined := by
  rw [atoll, Text.readInt_decimal]
  by_cases hn : n.toNat < 2 ^ 63
  · rw [if_pos hn, if_pos (by omega)]
  · rw [if_neg hn, if_neg (by omega)]

theorem ofInt_toNat (n : UInt64) : UInt64.ofInt (n.toNat : Int) = n := by
  have hmod : ((n.toNat : Int) % 2 ^ 64).toNat = n.toNat := by
    have hn := n.toNat_lt
    omega
  rw [UInt64.ofInt, hmod, UInt64.ofNat_toNat]

/-- A counter is read where it is a `long long`. -/
theorem getcounter_eq {server : Server} {key fldid : Nat} {n : UInt64}
    (h : server (make64 key fldid) = some (decimal n.toNat)) :
    getcounter server key fldid = if n.toNat < 2 ^ 63 then .ok n else .error .undefined := by
  rw [getcounter, h]
  simp only [atoll_decimal]
  split
  · change Except.ok (UInt64.ofInt (n.toNat : Int)) = _
    rw [ofInt_toNat]
  · rfl

section Run

variable {mc : Increment} {server : Server} {k : Nat}

theorem memcachedIncrement_self {n : UInt64} (h : server k = some (decimal n.toNat)) (d : UInt64) :
    memcachedIncrement mc server k d =
      (some (n + d), Function.update server k (some (decimal (n + d).toNat))) := by
  rw [memcachedIncrement, h, Option.bind_some, mc.apply_decimal]

theorem memcachedIncrement_of_ne {k' : Nat} (h : k' ≠ k) (d : UInt64) :
    (memcachedIncrement mc server k' d).2 k = server k := by
  unfold memcachedIncrement
  split
  · rfl
  · exact Function.update_of_ne (Ne.symm h) _ _

/-- The operand of a call. -/
def Call.operand (call : Call) : UInt64 :=
  match call.op with
  | .inc n => n
  | .dec n => n

/-- Both calls make the same request. -/
theorem Call.run_eq (call : Call) :
    call.run mc server =
      (returned (memcachedIncrement mc server call.longKey call.operand).1,
        (memcachedIncrement mc server call.longKey call.operand).2) := by
  unfold Call.run Call.operand
  split <;> rfl

theorem Call.increment_add_decrement (call : Call) :
    call.increment k + call.decrement k = if call.longKey = k then call.operand.toNat else 0 := by
  unfold Call.increment Call.decrement Call.operand
  split
  · exact Nat.add_zero _
  · exact Nat.zero_add _

theorem runCalls_append (calls : List Call) (call : Call) :
    runCalls mc server (calls ++ [call]) =
      ((runCalls mc server calls).1 ++ [(call, (call.run mc (runCalls mc server calls).2).1)],
        (call.run mc (runCalls mc server calls).2).2) := by
  rw [runCalls, List.foldl_append]
  rfl

theorem increments_append (calls : List Call) (call : Call) :
    increments k (calls ++ [call]) = increments k calls + call.increment k := by
  rw [increments, List.map_append, List.sum_append, List.map_singleton, List.sum_singleton]
  rfl

theorem decrements_append (calls : List Call) (call : Call) :
    decrements k (calls ++ [call]) = decrements k calls + call.decrement k := by
  rw [decrements, List.map_append, List.sum_append, List.map_singleton, List.sum_singleton]
  rfl

theorem lastReturned_append (trace : Trace) (call : Call) (r : Except Failure UInt64) :
    lastReturned k (trace ++ [(call, r)]) =
      if call.longKey = k then some r else lastReturned k trace := by
  unfold lastReturned
  rw [List.filter_append]
  split
  · rename_i hk
    rw [List.filter_cons_of_pos (by simpa using hk), List.filter_nil, List.getLast?_concat]
    rfl
  · rename_i hk
    rw [List.filter_cons_of_neg (by simpa using hk), List.filter_nil, List.append_nil]

/-- What the code makes of the start and the operands of a run. -/
def reached (k : Nat) (n₀ : UInt64) (calls : List Call) : Nat :=
  (n₀.toNat + increments k calls + decrements k calls) % 2 ^ 64

theorem reached_append (n₀ : UInt64) (calls : List Call) (call : Call) :
    reached k n₀ (calls ++ [call]) =
      (reached k n₀ calls + if call.longKey = k then call.operand.toNat else 0) % 2 ^ 64 := by
  have hcall := call.increment_add_decrement (k := k)
  unfold reached
  rw [increments_append, decrements_append]
  omega

/-- After a run the server holds the number reached, and the last call has returned it. -/
theorem runCalls_spec (mc : Increment) {n₀ : UInt64} (hserver : server k = some (decimal n₀.toNat))
    (calls : List Call) :
    ∃ n : UInt64, n.toNat = reached k n₀ calls ∧
      (runCalls mc server calls).2 k = some (decimal n.toNat) ∧
      ∀ r, lastReturned k (runCalls mc server calls).1 = some r → r = .ok n := by
  induction calls using List.reverseRecOn with
  | nil =>
      refine ⟨n₀, ?_, hserver, fun r hr => ?_⟩
      · exact (Nat.mod_eq_of_lt n₀.toNat_lt).symm
      · cases hr
  | append_singleton calls call ih =>
      obtain ⟨n, hn, hheld, hlast⟩ := ih
      rw [runCalls_append, reached_append, call.run_eq, lastReturned_append]
      by_cases hk : call.longKey = k
      · rw [if_pos hk, if_pos hk, hk, memcachedIncrement_self hheld]
        refine ⟨n + call.operand, ?_, Function.update_self _ _ _, fun r hr => (Option.some.inj hr).symm⟩
        rw [UInt64.toNat_add, hn]
      · rw [if_neg hk, if_neg hk, memcachedIncrement_of_ne hk]
        refine ⟨n, ?_, hheld, hlast⟩
        rw [hn, Nat.add_zero, reached, Nat.mod_mod]

end Run

/-! ## When the counter is exact -/

/-- Sums that agree where operands were added instead of taken away: those operands are a multiple of
`2 ^ 63`. -/
theorem reached_eq_total_iff {k : Nat} {n₀ : UInt64} {calls : List Call}
    (hrange : 0 ≤ total k n₀ calls ∧ total k n₀ calls < 2 ^ 64) :
    (reached k n₀ calls : Int) = total k n₀ calls ↔ 2 ^ 63 ∣ decrements k calls := by
  unfold reached total at *
  omega

theorem exact_iff (mc : Increment) {server : Server} {key fldid : Nat} {n₀ : UInt64} {calls : List Call}
    (hserver : server (make64 key fldid) = some (decimal n₀.toNat))
    (hrange : 0 ≤ total (make64 key fldid) n₀ calls ∧ total (make64 key fldid) n₀ calls < 2 ^ 64) :
    Exact mc server key fldid calls (total (make64 key fldid) n₀ calls) ↔
      2 ^ 63 ∣ decrements (make64 key fldid) calls ∧ total (make64 key fldid) n₀ calls < 2 ^ 63 := by
  obtain ⟨n, hn, hheld, hlast⟩ := runCalls_spec mc hserver calls
  have hget := getcounter_eq hheld
  rw [← reached_eq_total_iff hrange, ← hn]
  constructor
  · rintro ⟨-, m, hm, hvalue⟩
    rw [hget] at hm
    split at hm
    · rename_i hsmall
      cases hm
      exact ⟨hvalue, by omega⟩
    · cases hm
  · rintro ⟨hvalue, hsmall⟩
    refine ⟨fun r hr => ⟨n, hlast r hr, hvalue⟩, n, ?_, hvalue⟩
    rw [hget, if_pos (by omega)]

/-- After `setcounter` and a run of calls whose value fits in 64 bits all along, the counter is exact
just when the numbers passed to `dec` add up to a multiple of `2 ^ 63` and the value is a `long long`. -/
theorem counter_exact_iff (mc : Increment) (server : Server) (key fldid : Nat) (n₀ : UInt64)
    (calls : List Call) (hrange : InRange (make64 key fldid) n₀ calls) :
    (∃ server₀, setcounter server key fldid n₀ = .ok server₀ ∧
      Exact mc server₀ key fldid calls (total (make64 key fldid) n₀ calls)) ↔
    2 ^ 63 ∣ decrements (make64 key fldid) calls ∧ total (make64 key fldid) n₀ calls < 2 ^ 63 := by
  rw [setcounter_eq]
  rw [← exact_iff mc (Function.update_self _ _ server) (hrange calls (List.prefix_refl calls))]
  constructor
  · rintro ⟨server₀, hset, hexact⟩
    cases hset
    exact hexact
  · intro hexact
    exact ⟨_, rfl, hexact⟩

/-- Two clients add 7 and `2 ^ 63` to a counter that starts at 5, and a third takes the `2 ^ 63` back. -/
theorem counter_exact_of_dec_half :
    ∃ server₀, setcounter (fun _ => none) 3 1 5 = .ok server₀ ∧
      Exact Increment.wrapping server₀ 3 1
        [⟨0, 3, 1, .inc 7⟩, ⟨1, 3, 1, .inc (2 ^ 63)⟩, ⟨2, 3, 1, .dec (2 ^ 63)⟩]
        (total (make64 3 1) 5
          [⟨0, 3, 1, .inc 7⟩, ⟨1, 3, 1, .inc (2 ^ 63)⟩, ⟨2, 3, 1, .dec (2 ^ 63)⟩]) :=
  (counter_exact_iff Increment.wrapping (fun _ => none) 3 1 5 _ (by decide +kernel)).mpr (by decide +kernel)

/-- A counter at 5 from which a client takes 1: `dec` returns 6, and `getcounter` as well. -/
theorem dec_adds :
    InRange (make64 3 1) 5 [⟨0, 3, 1, .dec 1⟩] ∧ total (make64 3 1) 5 [⟨0, 3, 1, .dec 1⟩] = 4 ∧
      ∃ server₀, setcounter (fun _ => none) 3 1 5 = .ok server₀ ∧
        (runCalls Increment.wrapping server₀ [⟨0, 3, 1, .dec 1⟩]).1 = [(⟨0, 3, 1, .dec 1⟩, .ok 6)] ∧
        getcounter (runCalls Increment.wrapping server₀ [⟨0, 3, 1, .dec 1⟩]).2 3 1 = .ok 6 ∧
        ¬ Exact Increment.wrapping server₀ 3 1 [⟨0, 3, 1, .dec 1⟩]
          (total (make64 3 1) 5 [⟨0, 3, 1, .dec 1⟩]) := by
  refine ⟨by decide, by decide, _, setcounter_eq _ _ _ _, by rfl, by rfl, ?_⟩
  rintro ⟨-, n, hn, hvalue⟩
  have hsix : n = 6 := by
    have hget : getcounter (runCalls Increment.wrapping
      (Function.update (fun _ => none) (make64 3 1) (some (decimal (5 : UInt64).toNat)))
      [⟨0, 3, 1, .dec 1⟩]).2 3 1 = .ok 6 := by rfl
    rw [hget] at hn
    exact (Except.ok.inj hn).symm
  rw [hsix] at hvalue
  exact absurd hvalue (by decide)

end Dogee.Counters
