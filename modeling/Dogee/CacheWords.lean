import Dogee.CacheDirectory

/-!
# Single words in a cluster of caches

The word at an address is the word of the backend at its key and its field, and it has one place in
the block of its address. A message that carries the words from an address on carries a word for some
of the addresses after it, all of them in one block; a write changes these words and no others.
-/

namespace Dogee.CacheCluster

/-- The word of the backend at the address `w`. -/
def State.word (s : State) (w : Nat) : Word := s.backend (w / two32) (w % two32)

/-- The word for the address `w` among the words for the addresses from `addr` on. -/
def wordAt (addr : Nat) (v : List Word) (w : Nat) : Option Word :=
  if addr ≤ w then v[w - addr]? else none

/-- The word that a message has the home store at the address `w`. -/
def Message.storesAt (w : Nat) (msg : Message) : Option Word := msg.stores.bind fun p => wordAt p.1 p.2 w

/-- The word that a message renews at the address `w`. -/
def Message.renews (w : Nat) : Message → Option Word
  | .renew addr v => wordAt addr v w
  | _ => none

section Words

variable {m : Memory} {addr w : Nat} {u : Word} {v block words : List Word} {msg : Message}

theorem lt_of_wordAt (hword : wordAt addr v w = some u) : addr ≤ w ∧ w < addr + v.length := by
  obtain ⟨hle, hget⟩ := Option.ite_none_right_eq_some.mp hword
  have hlt := (List.getElem?_eq_some_iff.mp hget).1
  omega

/-- The words that a message carries are in the block of its address. -/
theorem blockBase_of_wordAt (hin : addr % blockSize + v.length ≤ blockSize) (hword : wordAt addr v w = some u) :
    blockBase w = blockBase addr := by
  obtain ⟨hle, hlt⟩ := lt_of_wordAt hword
  unfold blockBase
  unfold blockSize at hin ⊢
  omega

theorem home_of_wordAt (cfg : Config) (hin : addr % blockSize + v.length ≤ blockSize)
    (hword : wordAt addr v w = some u) :
    cfg.home w = cfg.home addr := by
  rw [← home_blockBase, blockBase_of_wordAt hin hword, home_blockBase]

end Words

end Dogee.CacheCluster
