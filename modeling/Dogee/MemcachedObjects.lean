import Dogee.ChunkWriters

/-!
# Objects on the memcached backends

An object has an entry of its own, with its flag and its size, under the last field
id of its key. `newobj` adds that entry, `getinfo` reads it, and `del` deletes the
entries of the fields that the size in it gives before it deletes the entry itself.
The word backend has one field for each word, the block backend one for each block.
Memcached is an exact map here. When `getinfo` fails, `del` goes on with a size that
was never set; that value is a parameter.
-/

namespace Dogee.Call

/-- A write inside the first `size` words of the object `key`. -/
def Inside (key size : Nat) : Call → Prop
  | put k fldid _ => k = key ∧ fldid + 1 ≤ size
  | put64 k fldid _ => k = key ∧ fldid + 2 ≤ size
  | putchunk k fldid buf => k = key ∧ fldid + buf.length ≤ size
  | putchunk64 k fldid buf => k = key ∧ fldid + buf.length * 2 ≤ size
  | _ => False

theorem Inside.inRange {key size : Nat} {c : Call} (hc : c.Inside key size) (hkey : key < two32)
    (hsize : size ≤ wordLimit) : c.InRange ∧ c.readLength = 0 := by
  cases c with
  | put k fldid v => exact ⟨⟨hc.1 ▸ hkey, Nat.le_trans hc.2 hsize⟩, rfl⟩
  | put64 k fldid v => exact ⟨⟨hc.1 ▸ hkey, Nat.le_trans hc.2 hsize⟩, rfl⟩
  | putchunk k fldid buf => exact ⟨⟨hc.1 ▸ hkey, Nat.le_trans hc.2 hsize⟩, rfl⟩
  | putchunk64 k fldid buf => exact ⟨⟨hc.1 ▸ hkey, Nat.le_trans hc.2 hsize⟩, rfl⟩
  | _ => exact hc.elim

theorem Inside.isPut {key size : Nat} {c : Call} (hc : c.Inside key size) (hkey : key < two32)
    (hsize : size ≤ wordLimit) : c.IsPut := by
  cases c with
  | put k fldid v => exact ⟨hc.1 ▸ hkey, Memcached.noWrap_of_range (Nat.le_trans hc.2 hsize)⟩
  | put64 k fldid v => exact ⟨hc.1 ▸ hkey, Memcached.noWrap_of_range (Nat.le_trans hc.2 hsize)⟩
  | putchunk k fldid buf => exact ⟨hc.1 ▸ hkey, Memcached.noWrap_of_range (Nat.le_trans hc.2 hsize)⟩
  | putchunk64 k fldid buf => exact ⟨hc.1 ▸ hkey, Memcached.noWrap_of_range (Nat.le_trans hc.2 hsize)⟩
  | _ => exact hc.elim

theorem Inside.target_eq {key size : Nat} {c : Call} (hc : c.Inside key size) :
    c.target.1 = key ∧ c.target.2.1 + c.target.2.2.length ≤ size := by
  cases c with
  | put k fldid v => exact hc
  | put64 k fldid v => exact hc
  | putchunk k fldid buf => exact hc
  | putchunk64 k fldid buf =>
      refine ⟨hc.1, ?_⟩
      rw [target, length_flatMap_words64]
      exact hc.2
  | _ => exact hc.elim

end Dogee.Call

namespace Dogee.Memcached

open KeyValue

/-- What memcached holds. -/
abbrev Store := Nat → Option (List Word)

/-- `memcached_add` fails when the key is there. -/
def add (st : Store) (k : Nat) (v : List Word) : Option Store :=
  if (st k).isSome then none else some (Function.update st k (some v))

/-- `memcached_delete` -/
def delete (st : Store) (k : Nat) : Store := Function.update st k none

/-- `MAKE64(key, 0xFFFFFFFF)` -/
def infoKey (key : Nat) : Nat := make64 key 0xFFFFFFFF

def newobj (st : Store) (key : Nat) (flag size : Word) : Option Store :=
  add st (infoKey key) [flag, size]

def getinfo (st : Store) (key : Nat) : Option (Word × Word) :=
  match st (infoKey key) with
  | some (flag :: size :: _) => some (flag, size)
  | _ => none

/-- The loop of `del` over the fields `0, …, n - 1`. -/
def deleteFields (st : Store) (key : Nat) : Nat → Store
  | 0 => st
  | n + 1 => delete (deleteFields st key n) (make64 key n)

/-- `del`, with the number of fields that an object of a given size has. -/
def delFields (count : Nat → Nat) (unset : Word) (st : Store) (key : Nat) : Store :=
  let size := ((getinfo st key).map Prod.snd).getD unset
  delete (deleteFields st key (count size.toNat)) (infoKey key)

def Fine.del (unset : Word) (st : Store) (key : Nat) : Store :=
  delFields (fun size => size) unset st key

def Chunk.del (unset : Word) (st : Store) (key : Nat) : Store :=
  delFields (fun size => if size % blockSize = 0 then size / blockSize else size / blockSize + 1) unset st key

/-- `SoStorageMemcached` and `SoStorageChunkMemcached`. -/
inductive Backend
  | fine
  | chunk

namespace Backend

def call : Backend → Call → Prog (List Word)
  | fine => fineCall
  | chunk => chunkCall

def del : Backend → Word → Store → Nat → Store
  | fine => Fine.del
  | chunk => Chunk.del

/-- The number of fields of an object. -/
def fieldCount : Backend → Nat → Nat
  | fine, size => size
  | chunk, size => (size + (blockSize - 1)) / blockSize

/-- The values of the fields are whole. -/
def Shaped : Backend → Store → Prop
  | fine => Fine.Single
  | chunk => Chunk.Whole

def memory : Backend → Store → Memory
  | fine => Fine.memory
  | chunk => Chunk.memory

end Backend

/-- The stores that a program gets to when it writes inside of objects that are there and
deletes objects that are there. -/
inductive Reachable (b : Backend) : Store → Prop
  | empty : Reachable b fun _ => none
  | newobj {st st' : Store} {key : Nat} {flag size : Word} (h : Reachable b st) (hkey : key < two32)
      (hsize : size.toNat ≤ wordLimit) (hnew : newobj st key flag size = some st') : Reachable b st'
  | write {st : Store} {key : Nat} {flag size : Word} {c : Call} {o : Order Nat (List Word)} {n : Nat}
      {r : List Word} {s : Server Nat (List Word)} (h : Reachable b st) (hkey : key < two32)
      (hinfo : getinfo st key = some (flag, size)) (hc : c.Inside key size.toNat)
      (hrun : exec o (b.call c) ⟨st, n⟩ = some (r, s)) : Reachable b s.store
  | del {st : Store} {key : Nat} {unset : Word} (h : Reachable b st) (hlive : (getinfo st key).isSome) :
      Reachable b (b.del unset st key)

/-- Seen from the store before an object was made, its deletion leaves nothing behind. -/
structure Restored (b : Backend) (key size : Nat) (before after : Store) : Prop where
  entries : ∀ i < two32, after (make64 key i) = none
  words : ∀ w < size, Computes (b.call (.get key w)) after [0] after
  info : getinfo after key = none
  again : ∀ flag size, (newobj after key flag size).isSome
  others_words : ∀ key' < two32, key' ≠ key → ∀ w < wordLimit, ∃ v,
    Computes (b.call (.get key' w)) before [v] before ∧ Computes (b.call (.get key' w)) after [v] after
  others_info : ∀ key', key' ≠ key → getinfo after key' = getinfo before key'

/-! ## The fields that a write stores -/

/-- The keys of the fields of an object. -/
def Field (b : Backend) (key size k : Nat) : Prop := ∃ i < b.fieldCount size, k = make64 key i

section Fields

variable {b : Backend} {key size : Nat}

theorem memcachedPutChunk_storesOnly {fldid : Nat} {buf : List Word} (hlt : fldid + buf.length < two32) :
    (memcachedPutChunk key fldid buf).StoresOnly fun k => ∃ i, i < fldid + buf.length ∧ k = make64 key i := by
  induction buf generalizing fldid with
  | nil => trivial
  | cons v vs ih =>
      rw [List.length_cons] at hlt ⊢
      have hnext : (fldid + 1) % two32 = fldid + 1 := Nat.mod_eq_of_lt (by omega)
      have hrest := @ih (fldid + 1) (by omega)
      rw [show fldid + 1 + vs.length = fldid + (vs.length + 1) by omega] at hrest
      refine ⟨⟨fldid, by omega, rfl⟩, ?_⟩
      rw [hnext]
      exact hrest

theorem Chunk.writeBlocks_storesOnly {P : Nat → Prop} {ws : List Chunk.BlockWrite}
    (hws : ∀ w ∈ ws, P (make64 w.key w.block)) : (Chunk.writeBlocks ws).StoresOnly P := by
  induction ws with
  | nil => trivial
  | cons w ws ih =>
      refine .bind ?_ fun _ => ih fun w hw => hws w (by simp [hw])
      unfold Chunk.BlockWrite.prog
      split
      · exact ⟨hws w (by simp), trivial⟩
      · refine .bind ?_ fun _ => .bind (.ofOption _) fun _ => ⟨hws w (by simp), trivial⟩
        exact .bind (.ofOption _) fun _ => .bind (fun _ => trivial) fun _ => .ofOption _

/-- The blocks that a write stores begin before its end. -/
theorem Chunk.alignedWrites_block {bl : Nat} {buf : List Word} {w : Chunk.BlockWrite}
    (hw : w ∈ Chunk.alignedWrites key bl buf) : w.key = key ∧ w.block * blockSize < bl * blockSize + buf.length := by
  induction bl, buf using Chunk.alignedWrites.induct with
  | case1 bl =>
      rw [Chunk.alignedWrites_nil] at hw
      cases hw
  | case2 bl buf h ih =>
      have hpos := List.length_pos_iff.mpr h
      rw [Chunk.alignedWrites_cons h] at hw
      rcases List.mem_cons.mp hw with rfl | hw
      · exact ⟨rfl, Nat.lt_add_of_pos_right hpos⟩
      · obtain ⟨hkey, hlt⟩ := ih hw
        rw [List.length_drop, Nat.add_mul] at hlt
        refine ⟨hkey, ?_⟩
        by_cases hlen : blockSize ≤ buf.length
        · omega
        · rw [List.drop_eq_nil_of_le (by omega), Chunk.alignedWrites_nil] at hw
          cases hw

theorem Chunk.blockWrites_field {fldid : Nat} {buf : List Word} (hsize : fldid + buf.length ≤ size)
    {w : Chunk.BlockWrite} (hw : w ∈ Chunk.blockWrites key fldid buf) :
    Field .chunk key size (make64 w.key w.block) := by
  have hfield : w.key = key ∧ w.block < (size + (blockSize - 1)) / blockSize := by
    rw [Chunk.blockWrites] at hw
    split at hw
    · obtain ⟨hkey, hlt⟩ := Chunk.alignedWrites_block hw
      refine ⟨hkey, ?_⟩
      simp only [blockSize] at *
      omega
    · rcases List.mem_cons.mp hw with rfl | hw
      · -- an empty write that is not aligned stores its block, too
        refine ⟨rfl, ?_⟩
        simp only [blockSize] at *
        omega
      · obtain ⟨hkey, hlt⟩ := Chunk.alignedWrites_block hw
        refine ⟨hkey, ?_⟩
        rw [List.length_drop] at hlt
        simp only [Chunk.headLength, blockSize] at *
        omega
  exact ⟨w.block, hfield.2, by rw [hfield.1]⟩

/-- A write inside of an object stores fields of the object. -/
theorem inside_storesOnly {c : Call} (hc : c.Inside key size) (hkey : key < two32)
    (hsize : size ≤ wordLimit) : (b.call c).StoresOnly (Field b key size) := by
  obtain ⟨htarget, hend⟩ := hc.target_eq
  cases b with
  | fine =>
      have hchunk : (memcachedPutChunk c.target.1 c.target.2.1 c.target.2.2).StoresOnly
          (Field .fine key size) := by
        have hlt : c.target.2.1 + c.target.2.2.length < two32 :=
          Nat.lt_of_le_of_lt (Nat.le_trans hend hsize) wordLimit_lt
        refine (memcachedPutChunk_storesOnly hlt).mono ?_
        rintro k ⟨i, hi, rfl⟩
        exact ⟨i, Nat.lt_of_lt_of_le hi hend, by rw [htarget]⟩
      cases c with
      | put k fldid v => exact ⟨hchunk.1, trivial⟩
      | put64 k fldid v => exact .bind hchunk fun _ => trivial
      | putchunk k fldid buf => exact .bind hchunk fun _ => trivial
      | putchunk64 k fldid buf =>
          refine .bind ?_ fun _ => trivial
          rw [Fine.putchunk64, take_words64]
          · exact hchunk
          · exact lt_two32_of_range (Nat.le_trans hc.2 hsize)
      | _ => exact hc.elim
  | chunk =>
      rw [Backend.call, (hc.isPut hkey hsize).chunk_eq]
      refine .bind (Chunk.writeBlocks_storesOnly fun w hw => ?_) fun _ => trivial
      rw [Call.blockWrites, htarget] at hw
      exact Chunk.blockWrites_field hend hw

theorem fieldCount_lt (b : Backend) (hsize : size ≤ wordLimit) : b.fieldCount size < 0xFFFFFFFF := by
  cases b with
  | fine =>
      simp only [Backend.fieldCount, wordLimit, two32, blockSize] at *
      omega
  | chunk =>
      simp only [Backend.fieldCount, wordLimit, two32, blockSize] at *
      omega

theorem not_field_of_ne {key' i : Nat} (hsize : size ≤ wordLimit) (hne : key' ≠ key) (hi : i < two32) :
    ¬Field b key size (make64 key' i) := by
  rintro ⟨j, hj, heq⟩
  have hlt : j < two32 := by
    have hcount := fieldCount_lt b hsize
    rw [two32]
    omega
  exact hne (make64_inj hi hlt heq).1

theorem not_field_beyond {i : Nat} (hcount : b.fieldCount size ≤ i) (hi : i < two32) :
    ¬Field b key size (make64 key i) := by
  rintro ⟨j, hj, heq⟩
  have hsame := (make64_inj hi (Nat.lt_trans (Nat.lt_of_lt_of_le hj hcount) hi) heq).2
  omega

theorem not_field_infoKey (hsize : size ≤ wordLimit) (key' : Nat) : ¬Field b key size (infoKey key') := by
  by_cases hkey : key' = key
  · subst hkey
    exact not_field_beyond (Nat.le_of_lt (fieldCount_lt b hsize)) (by decide)
  · exact not_field_of_ne hsize hkey (by decide)

end Fields

/-! ## What `newobj` and `del` do to the store -/

section Objects

variable {b : Backend} {st st' : Store} {key : Nat} {flag size : Word}

theorem newobj_eq_some : newobj st key flag size = some st' ↔
    st (infoKey key) = none ∧ st' = Function.update st (infoKey key) (some [flag, size]) := by
  rw [newobj, add]
  cases st (infoKey key) with
  | none => simp [eq_comm]
  | some v => simp

theorem getinfo_of_entry (h : st (infoKey key) = some [flag, size]) : getinfo st key = some (flag, size) := by
  rw [getinfo, h]

theorem getinfo_congr (h : st' (infoKey key) = st (infoKey key)) : getinfo st' key = getinfo st key := by
  rw [getinfo, getinfo, h]

theorem deleteFields_self {n i : Nat} (hi : i < n) : deleteFields st key n (make64 key i) = none := by
  induction n with
  | zero => exact absurd hi (Nat.not_lt_zero i)
  | succ n ih =>
      rw [deleteFields, delete]
      by_cases hlast : make64 key i = make64 key n
      · rw [hlast, Function.update_self]
      · rw [Function.update_of_ne hlast]
        refine ih (Nat.lt_of_le_of_ne (Nat.le_of_lt_succ hi) ?_)
        rintro rfl
        exact hlast rfl

theorem deleteFields_of_ne {n k : Nat} (hk : ∀ i < n, k ≠ make64 key i) : deleteFields st key n k = st k := by
  induction n with
  | zero => rfl
  | succ n ih =>
      rw [deleteFields, delete, Function.update_of_ne (hk n (Nat.lt_succ_self n))]
      exact ih fun i hi => hk i (Nat.lt_succ_of_lt hi)

/-- `del` on an object that is there. -/
theorem del_eq (hinfo : getinfo st key = some (flag, size)) (unset : Word) :
    b.del unset st key = delete (deleteFields st key (b.fieldCount size.toNat)) (infoKey key) := by
  cases b with
  | fine =>
      rw [Backend.del, Fine.del, delFields, hinfo]
      rfl
  | chunk =>
      have hcount : (if size.toNat % blockSize = 0 then size.toNat / blockSize else size.toNat / blockSize + 1) =
          (size.toNat + (blockSize - 1)) / blockSize := by
        by_cases hmod : size.toNat % blockSize = 0
        · rw [if_pos hmod]
          simp only [blockSize] at *
          omega
        · rw [if_neg hmod]
          simp only [blockSize] at *
          omega
      rw [Backend.del, Chunk.del, delFields, hinfo, Backend.fieldCount, ← hcount]
      rfl

theorem del_field (hinfo : getinfo st key = some (flag, size)) (unset : Word) {k : Nat}
    (hk : k = infoKey key ∨ Field b key size.toNat k) : b.del unset st key k = none := by
  rw [del_eq hinfo, delete]
  by_cases hinfoKey : k = infoKey key
  · rw [hinfoKey, Function.update_self]
  · obtain ⟨i, hi, rfl⟩ := hk.resolve_left hinfoKey
    rw [Function.update_of_ne hinfoKey]
    exact deleteFields_self hi

theorem del_of_ne (hinfo : getinfo st key = some (flag, size)) (unset : Word) {k : Nat}
    (hinfoKey : k ≠ infoKey key) (hfield : ¬Field b key size.toNat k) : b.del unset st key k = st k := by
  rw [del_eq hinfo, delete, Function.update_of_ne hinfoKey]
  refine deleteFields_of_ne fun i hi heq => hfield ⟨i, hi, heq⟩

/-! ## Stores that a program gets to -/

theorem Backend.Shaped.congr (hst : b.Shaped st)
    (h : ∀ o i, i < wordLimit → st' (make64 o i) = none ∨ st' (make64 o i) = st (make64 o i)) : b.Shaped st' := by
  cases b with
  | fine =>
      intro o w vs hw hvs
      rcases h o w hw with hnone | hsame
      · rw [hnone] at hvs
        cases hvs
      · exact hst o w vs hw (hsame ▸ hvs)
  | chunk =>
      intro o i blk hi hblk
      rcases h o i (Nat.lt_trans hi (by decide)) with hnone | hsame
      · rw [hnone] at hblk
        cases hblk
      · exact hst o i blk hi (hsame ▸ hblk)

/-- A write inside of an object is performed, and stores only fields of the object. -/
theorem inside_computes {c : Call} {n : Nat} (hst : b.Shaped st) (hc : c.Inside key n) (hkey : key < two32)
    (hn : n ≤ wordLimit) : ∃ st', Computes (b.call c) st [] st' ∧ b.Shaped st' := by
  obtain ⟨hrange, hread⟩ := hc.inRange hkey hn
  have hresult : (c.flat (b.memory st)).1 = [] := by
    cases c with
    | put k fldid v => rfl
    | put64 k fldid v => rfl
    | putchunk k fldid buf => rfl
    | putchunk64 k fldid buf => rfl
    | _ => exact hc.elim
  cases b with
  | fine =>
      obtain ⟨st', hcomp, hshaped, -⟩ := fine_meets hrange (hread ▸ Nat.zero_le _) st hst
      exact ⟨st', hresult ▸ hcomp, hshaped⟩
  | chunk =>
      obtain ⟨st', hcomp, hshaped, -⟩ := chunk_meets hrange st hst
      exact ⟨st', hresult ▸ hcomp, hshaped⟩

/-- The object has no entry. -/
def Gone (st : Store) (key : Nat) : Prop := ∀ i < two32, st (make64 key i) = none

/-- The object has its information and entries only for its fields. -/
structure Present (b : Backend) (st : Store) (key : Nat) (flag size : Word) : Prop where
  entry : st (infoKey key) = some [flag, size]
  size_le : size.toNat ≤ wordLimit
  rest : ∀ i < two32, make64 key i ≠ infoKey key → ¬Field b key size.toNat (make64 key i) →
    st (make64 key i) = none

structure Tidy (b : Backend) (st : Store) : Prop where
  shaped : b.Shaped st
  object : ∀ key, Gone st key ∨ ∃ flag size, Present b st key flag size

/-- The entries of an object are the same. -/
def SameObject (st st' : Store) (key : Nat) : Prop := ∀ i < two32, st' (make64 key i) = st (make64 key i)

theorem SameObject.infoKey_eq (h : SameObject st st' key) : st' (infoKey key) = st (infoKey key) :=
  h _ (by decide)

theorem tidy_empty (b : Backend) : Tidy b fun _ => none where
  shaped := by
    cases b with
    | fine =>
        intro o w vs _ h
        cases h
    | chunk =>
        intro o i blk _ h
        cases h
  object _ := Or.inl fun _ _ => rfl

/-- When all other objects are unchanged, only one has to be looked at. -/
theorem Tidy.of_object (h : Tidy b st) (hshaped : b.Shaped st')
    (hothers : ∀ key', key' ≠ key → SameObject st st' key')
    (hobject : Gone st' key ∨ ∃ flag size, Present b st' key flag size) : Tidy b st' := by
  refine ⟨hshaped, fun k => ?_⟩
  by_cases hkey : k = key
  · subst hkey
    exact hobject
  · have hsame := hothers k hkey
    rcases h.object k with hgone | ⟨flag, size, hpresent⟩
    · left
      intro i hi
      rw [hsame i hi]
      exact hgone i hi
    · right
      refine ⟨flag, size, hsame.infoKey_eq.trans hpresent.entry, hpresent.size_le, ?_⟩
      intro i hi hne hfield
      rw [hsame i hi]
      exact hpresent.rest i hi hne hfield

theorem Tidy.present (h : Tidy b st) (hinfo : getinfo st key = some (flag, size)) :
    Present b st key flag size := by
  rcases h.object key with hgone | ⟨flag', size', hpresent⟩
  · have hnone : st (infoKey key) = none := hgone _ (by decide)
    rw [getinfo, hnone] at hinfo
    cases hinfo
  · rw [getinfo_of_entry hpresent.entry] at hinfo
    obtain ⟨rfl, rfl⟩ := Prod.mk.inj (Option.some.inj hinfo)
    exact hpresent

theorem infoKey_ne_of_ne {key' i : Nat} (hne : key' ≠ key) (hi : i < two32) : make64 key' i ≠ infoKey key :=
  fun heq => hne (make64_inj hi (by decide) heq).1

theorem infoKey_ne_word {key' i : Nat} (hi : i < wordLimit) : make64 key' i ≠ infoKey key := by
  intro heq
  have hinfo := (make64_inj (Nat.lt_trans hi wordLimit_lt) (by decide) heq).2
  simp only [wordLimit, two32, blockSize] at hi
  omega

theorem newobj_others (hnew : newobj st key flag size = some st') {key' : Nat} (hne : key' ≠ key) :
    SameObject st st' key' := by
  obtain ⟨-, rfl⟩ := newobj_eq_some.mp hnew
  intro i hi
  exact Function.update_of_ne (infoKey_ne_of_ne hne hi) _ _

/-- A new object has its information and nothing else. -/
theorem Tidy.newobj_present (h : Tidy b st) (hsize : size.toNat ≤ wordLimit)
    (hnew : newobj st key flag size = some st') : Present b st' key flag size := by
  obtain ⟨hfree, rfl⟩ := newobj_eq_some.mp hnew
  refine ⟨Function.update_self _ _ _, hsize, ?_⟩
  intro i hi hne _
  rw [Function.update_of_ne hne]
  rcases h.object key with hgone | ⟨_, _, hpresent⟩
  · exact hgone i hi
  · rw [hpresent.entry] at hfree
    cases hfree

theorem tidy_newobj (h : Tidy b st) (hsize : size.toNat ≤ wordLimit) (hnew : newobj st key flag size = some st') :
    Tidy b st' := by
  refine h.of_object (h.shaped.congr fun o i hi => Or.inr ?_) (fun _ => newobj_others hnew)
    (Or.inr ⟨flag, size, h.newobj_present hsize hnew⟩)
  obtain ⟨-, rfl⟩ := newobj_eq_some.mp hnew
  exact Function.update_of_ne (infoKey_ne_word hi) _ _

theorem fields_others (hsize : size.toNat ≤ wordLimit) (hsame : ∀ k, ¬Field b key size.toNat k → st' k = st k)
    {key' : Nat} (hne : key' ≠ key) : SameObject st st' key' :=
  fun _ hi => hsame _ (not_field_of_ne hsize hne hi)

/-- What changes only fields of an object that is there keeps the object. -/
theorem Present.of_fields (h : Present b st key flag size)
    (hsame : ∀ k, ¬Field b key size.toNat k → st' k = st k) : Present b st' key flag size := by
  refine ⟨?_, h.size_le, ?_⟩
  · rw [hsame _ (not_field_infoKey h.size_le key)]
    exact h.entry
  · intro i hi hne hfield
    rw [hsame _ hfield]
    exact h.rest i hi hne hfield

theorem del_others (h : Present b st key flag size) (unset : Word) {key' : Nat} (hne : key' ≠ key) :
    SameObject st (b.del unset st key) key' :=
  fun _ hi => del_of_ne (getinfo_of_entry h.entry) unset (infoKey_ne_of_ne hne hi)
    (not_field_of_ne h.size_le hne hi)

theorem Present.del_gone (h : Present b st key flag size) (unset : Word) : Gone (b.del unset st key) key := by
  have hinfo := getinfo_of_entry h.entry
  intro i hi
  by_cases hinfoKey : make64 key i = infoKey key
  · exact del_field hinfo unset (Or.inl hinfoKey)
  · by_cases hfield : Field b key size.toNat (make64 key i)
    · exact del_field hinfo unset (Or.inr hfield)
    · rw [del_of_ne hinfo unset hinfoKey hfield]
      exact h.rest i hi hinfoKey hfield

theorem tidy_del (h : Tidy b st) (hpresent : Present b st key flag size) (unset : Word) :
    Tidy b (b.del unset st key) := by
  refine h.of_object (h.shaped.congr fun o i hi => ?_) (fun _ => del_others hpresent unset)
    (Or.inl (hpresent.del_gone unset))
  have hi' : i < two32 := Nat.lt_trans hi wordLimit_lt
  by_cases hkey : o = key
  · subst hkey
    exact Or.inl (hpresent.del_gone unset i hi')
  · exact Or.inr (del_others hpresent unset hkey i hi')

/-- A sequence of writes inside of an object is performed, and changes fields of the object only. -/
theorem serve_inside {calls : List Call} (hst : b.Shaped st) (hkey : key < two32) (hsize : size.toNat ≤ wordLimit)
    (hcalls : ∀ c ∈ calls, c.Inside key size.toNat) :
    ∃ st', Computes (serve b.call calls) st (calls.map fun _ => []) st' ∧ b.Shaped st' ∧
      ∀ k, ¬Field b key size.toNat k → st' k = st k := by
  induction calls generalizing st with
  | nil => exact ⟨st, .ret [] st, hst, fun _ _ => rfl⟩
  | cons c calls ih =>
      have hc := hcalls c (by simp)
      obtain ⟨st₁, hcomp, hshaped⟩ := inside_computes hst hc hkey hsize
      obtain ⟨st', hcomp', hshaped', hsame⟩ := ih hshaped fun c hc => hcalls c (by simp [hc])
      refine ⟨st', .bind hcomp (.bind hcomp' (.ret _ st')), hshaped', fun k hk => ?_⟩
      obtain ⟨n, hrun⟩ := hcomp (.same _ _) 0
      rw [hsame k hk]
      exact (inside_storesOnly hc hkey hsize).frame hrun hk

theorem Reachable.tidy (h : Reachable b st) : Tidy b st := by
  induction h with
  | empty => exact tidy_empty b
  | newobj _ _ hsize hnew ih => exact tidy_newobj ih hsize hnew
  | write _ hkey hinfo hc hrun ih =>
      have hpresent := ih.present hinfo
      have hsame := fun k hk => (inside_storesOnly hc hkey hpresent.size_le).frame hrun (k := k) hk
      obtain ⟨st', hcomp, hshaped⟩ := inside_computes ih.shaped hc hkey hpresent.size_le
      obtain ⟨n', hrun'⟩ := hcomp _ _
      obtain ⟨-, rfl⟩ := Prod.mk.inj (Option.some.inj (hrun.symm.trans hrun'))
      exact ih.of_object hshaped (fun _ => fields_others hpresent.size_le hsame)
        (Or.inr ⟨_, _, hpresent.of_fields hsame⟩)
  | del _ hlive ih =>
      obtain ⟨⟨flag, size⟩, hinfo⟩ := Option.isSome_iff_exists.mp hlive
      exact tidy_del ih (ih.present hinfo) _

/-! ## Reading a word -/

theorem get_computes {w : Nat} (hst : b.Shaped st) (hkey : key < two32) (hw : w < wordLimit) :
    Computes (b.call (.get key w)) st [b.memory st key w] st := by
  cases b with
  | fine => exact .bind (Fine.get_computes hst hw) (.ret _ st)
  | chunk => exact .bind (Chunk.get_computes hst hkey (Nat.lt_trans hw wordLimit_lt)) (.ret _ st)

theorem memory_congr {w : Nat} (hsame : SameObject st st' key) (hw : w < two32) :
    b.memory st' key w = b.memory st key w := by
  cases b with
  | fine =>
      have hentry := hsame w hw
      simp only [Backend.memory, Fine.memory, hentry]
  | chunk =>
      have hentry := hsame (w / blockSize) (Nat.lt_of_le_of_lt (Nat.div_le_self _ _) hw)
      simp only [Backend.memory, Chunk.memory, hentry]

theorem Gone.memory_eq {w : Nat} (h : Gone st key) (hw : w < two32) : b.memory st key w = 0 := by
  cases b with
  | fine =>
      have hentry := h w hw
      simp only [Backend.memory, Fine.memory, hentry]
  | chunk =>
      have hentry := h (w / blockSize) (Nat.lt_of_le_of_lt (Nat.div_le_self _ _) hw)
      simp only [Backend.memory, Chunk.memory, hentry]

end Objects

/-- On both backends, in every store that a program gets to: after `newobj`, any writes inside of
the object, and `del`, no entry of the object is left, its words read as zero, it has no
information and can be made again, and all other objects are as they were before `newobj`. -/
theorem deletion_restores (b : Backend) {st st₁ : Store} (hreach : Reachable b st) {key : Nat}
    {flag size : Word} (hkey : key < two32) (hsize : size.toNat ≤ wordLimit)
    (hnew : newobj st key flag size = some st₁) {calls : List Call}
    (hcalls : ∀ c ∈ calls, c.Inside key size.toNat) (unset : Word) :
    ∃ st₂, Computes (serve b.call calls) st₁ (calls.map fun _ => []) st₂ ∧
      Restored b key size.toNat st (b.del unset st₂ key) := by
  have htidy := hreach.tidy
  have htidy₁ := tidy_newobj htidy hsize hnew
  obtain ⟨st₂, hcomp, hshaped, hsame⟩ := serve_inside htidy₁.shaped hkey hsize hcalls
  have hpresent := (htidy.newobj_present hsize hnew).of_fields hsame
  have htidy₂ := htidy₁.of_object hshaped (fun _ => fields_others hsize hsame) (Or.inr ⟨_, _, hpresent⟩)
  have htidy₃ := tidy_del htidy₂ hpresent unset
  have hgone := hpresent.del_gone unset
  -- the three calls leave the other objects alone
  have hothers : ∀ key', key' ≠ key → SameObject st (b.del unset st₂ key) key' := by
    intro key' hne i hi
    rw [del_others hpresent unset hne i hi, fields_others hsize hsame hne i hi, newobj_others hnew hne i hi]
  refine ⟨st₂, hcomp, hgone, ?_, ?_, ?_, ?_, ?_⟩
  · intro w hw
    have hlimit : w < wordLimit := Nat.lt_of_lt_of_le hw hsize
    have hget := get_computes htidy₃.shaped hkey hlimit
    rw [hgone.memory_eq (Nat.lt_trans hlimit wordLimit_lt)] at hget
    exact hget
  · have hnone : b.del unset st₂ key (infoKey key) = none := hgone _ (by decide)
    rw [getinfo, hnone]
  · intro flag' size'
    have hnone : b.del unset st₂ key (infoKey key) = none := hgone _ (by decide)
    rw [newobj_eq_some.mpr ⟨hnone, rfl⟩]
    rfl
  · intro key' hkey' hne w hw
    refine ⟨b.memory st key' w, get_computes htidy.shaped hkey' hw, ?_⟩
    have hget := get_computes htidy₃.shaped hkey' hw
    rw [memory_congr (hothers key' hne) (Nat.lt_trans hw wordLimit_lt)] at hget
    exact hget
  · intro key' hne
    exact getinfo_congr (hothers key' hne).infoKey_eq

/-- An unaligned write, one over two blocks and one of 64 bits on a new store. -/
theorem deletion_restores_new :
    ∃ st₂, Computes (serve (Backend.call .chunk) [.putchunk 7 30 [1, 2, 3, 4], .put64 7 0 5])
        (Function.update (fun _ => none) (infoKey 7) (some [3, 40])) [[], []] st₂ ∧
      Restored .chunk 7 40 (fun _ => none) (Backend.del .chunk 0 st₂ 7) := by
  refine deletion_restores .chunk .empty (by decide) (by decide) (newobj_eq_some.mpr ⟨rfl, rfl⟩) ?_ 0
  intro c hc
  rcases List.mem_cons.mp hc with rfl | hc
  · exact ⟨rfl, by decide⟩
  · obtain rfl := List.mem_singleton.mp hc
    exact ⟨rfl, by decide⟩

end Dogee.Memcached
