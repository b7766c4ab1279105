import Dogee.CacheWords

/-!
# The copies of a block

A node has the words of a block in its place, or the home has sent them to it. A step brings words to
a node by the answer to a miss, which has the words of the backend; by a hit of `doput`, which copies
its words into the block; and by a renew.
-/

namespace Dogee.CacheCluster

open CacheThreads (Op Node Phase Inv SameKeys)

/-- The words that node `m` has of the block `b`, or that the home has sent to it. -/
def Copy (cfg : Config) (s : State) (m b : Nat) (words : List Word) : Prop :=
  (∃ x, At (s.nodes m) b x ∧ ((s.nodes m).table.blocks x).cache = words) ∨
    ∃ addr, Reply.block addr words ∈ s.data (cfg.home b) m ∧ blockBase addr = b

/-- The server function is about to renew the word `w` in the place `x` of its node. -/
def Renewing (s : State) (m : Nat) (c : Caller) (w : Nat) (v : List Word) (x : Fin cacheSize) : Prop :=
  (∃ src, s.calls m c = some ⟨src, .renew w v, .found x⟩) ∨
    ∃ src msg old i, s.calls m c = some ⟨src, msg, .inner old i x⟩ ∧ msg.stores = some (w, v)

section Node

variable {node node' : Node} {t addr b : Nat} {v : List Word} {x y : Fin cacheSize}

end Node

section Copies

variable {cfg : Config} {s s' : State} {m h b : Nat} {c : Caller} {a : Act} {words : List Word}
  {x : Fin cacheSize}

/-- A block has one place. -/
theorem At.unique {node : Node} {y : Fin cacheSize} (hx : At node b x) (hy : At node b y) : x = y :=
  Option.some.inj (hx.1.symm.trans hy.1)

theorem Copy.held (hcopy : Copy cfg s m b words) : Held cfg s m b := by
  rcases hcopy with ⟨x, hat, -⟩ | ⟨addr, hdata, hblock⟩
  · exact Or.inl ⟨x, hat⟩
  · exact Or.inr (Or.inl ⟨addr, words, hdata, hblock⟩)

end Copies

end Dogee.CacheCluster
