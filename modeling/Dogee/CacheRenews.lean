import Dogee.CacheWriters

/-!
# The renews on their way to a node

A renew of a word goes through the control socket from the home to a node, and then one of the two
threads that serve the socket has it in hand. It still counts when the thread has found the block of
the word, and no longer when the block that it has found was given to another address. The renews of a
word stay in order as long as only one of the two threads has one of them.
-/

namespace Dogee.CacheCluster

open CacheThreads (Op Node Phase Request Inv)

/-- What a server function has still to renew at the address `w` of its node. -/
def inHand (node : Node) (w : Nat) : Option Call → List Word
  | some ⟨_, .renew addr v, .entry⟩ => (wordAt addr v w).toList
  | some ⟨_, .renew addr v, .found x⟩ =>
      if node.table.cache (blockBase w) = some x then (wordAt addr v w).toList else []
  | _ => []

/-- What one of the two threads has in hand. -/
def hand (cfg : Config) (s : State) (m w : Nat) (second : Bool) : List Word :=
  inHand (s.nodes m) w (s.calls m (.handler (cfg.home w) second))

/-- The renews of `w` on their way to node `m`, in the order in which they come. -/
def renewsTo (cfg : Config) (s : State) (m w : Nat) : List Word :=
  hand cfg s m w false ++ (hand cfg s m w true ++ (s.control (cfg.home w) m).filterMap (Message.renews w))

/-- The server function is about a renew of `w`. -/
def RenewsWord (w : Nat) (call : Option Call) : Prop :=
  ∃ src addr v stage u, call = some ⟨src, .renew addr v, stage⟩ ∧ wordAt addr v w = some u

/-- A thread of node `m` takes a renew of the word from its socket when the other one has none. -/
def TakesInOrder (s : State) (a : Act) (m w : Nat) : Prop :=
  ∀ p second msg rest u, a = .receive m p second → s.control p m = msg :: rest → msg.renews w = some u →
    ¬RenewsWord w (s.calls m (.handler p (!second)))

/-- Renews come from the home of their word. -/
structure FromHome (cfg : Config) (s : State) : Prop where
  control : ∀ m h addr v, Message.renew addr v ∈ s.control m h → m = cfg.home addr
  calls : ∀ h c src addr v stage, s.calls h c = some ⟨src, .renew addr v, stage⟩ →
    ∃ b, c = .handler (cfg.home addr) b

section Renews

variable {cfg : Config} {s s' : State} {a : Act} {m h w : Nat} {c : Caller} {v : List Word}

end Renews

/-! ## The renews after a step -/

section Hands

variable {cfg : Config} {s s' : State} {a : Act} {m h w : Nat} {c : Caller} {v : List Word} {b : Bool}

end Hands

section Step

variable {cfg : Config} {s s' : State} {a : Act} {m h w k : Nat} {c : Caller} {v : List Word}

/-- A block that arrives is in the hash table. -/
theorem Arriving.mapped (ht : Tracked cfg s) (harriving : Arriving cfg s m k) :
    ∃ t op x, (s.nodes m).phase t = .filling op x true ∧ op.block = k ∧ (s.nodes m).table.cache k = some x ∧
      ((s.nodes m).lock x).writer = some t := by
  have hfilling : ∃ t op x, (s.nodes m).phase t = .filling op x true ∧ op.block = k := by
    rcases harriving with ⟨addr, words, hdata, rfl⟩ | ⟨c, addr, v, stage, hcall, -, rfl⟩
    · obtain ⟨t, op, x, hphase, hblock, -⟩ := filling_of_data ht.sound.wired ht.reads hdata
      exact ⟨t, op, x, hphase, hblock⟩
    · obtain ⟨t, op, x, hphase, hblock, -⟩ := filling_of_call ht.sound.wired ht.reads hcall rfl
      exact ⟨t, op, x, hphase, hblock⟩
  obtain ⟨t, op, x, hphase, rfl⟩ := hfilling
  have hthread := (ht.nodes m).thread t
  rw [hphase] at hthread
  exact ⟨t, op, x, hphase, rfl, hthread.2.1, hthread.1⟩

theorem Held.mapped (ht : Tracked cfg s) (hheld : Held cfg s m k) :
    ∃ x, (s.nodes m).table.cache k = some x := by
  rcases hheld with ⟨x, hat⟩ | harriving
  · exact ⟨x, hat.1⟩
  · obtain ⟨t, op, x, -, -, hsome, -⟩ := harriving.mapped ht
    exact ⟨x, hsome⟩

end Step

end Dogee.CacheCluster
