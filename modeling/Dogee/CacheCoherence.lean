import Dogee.CacheSending

/-!
# Coherence of the caches

What is on its way to a node that holds a block ends with the words of the backend, unless a write has
still to come to the node. So when the cluster is still, every block that a node has is the block of
the backend. This needs that the home hands the words of a block on in the order in which it stores
them, that no renew is overtaken or thrown away for nothing, and that the words which a node has copied
into its own block are there when the home stores them.
-/

namespace Dogee.CacheCluster

open Transition
open CacheThreads (Op Node Phase Request Inv SameKeys)

/-- The steps that keep the word `w` coherent at node `m`. -/
structure CarefulAt (cfg : Config) (m w : Nat) (s : State) (a : Act) : Prop where
  order : entered s a = some (m, blockBase w) → ¬WritebackDue cfg s m (blockBase w)
  stored : ∀ addr v u c, a = .serve (cfg.home w) c → s.calls (cfg.home w) c = some ⟨m, .write addr v, .entry⟩ →
    wordAt addr v w = some u → ComingBut cfg s c m w ∨ Settled cfg s m w u
  handsOn : HandsOnLast cfg s a m w
  fresh : entered s a = some (m, blockBase w) →
    Coming cfg s m w ∨ ∀ u ∈ (renewsTo cfg s m w).getLast?, u = s.word w
  sorted : TakesInOrder s a m w
  keeps : KeepsUp cfg s a m w

/-- A step that keeps every word coherent at every node. -/
def Careful (cfg : Config) (s : State) (a : Act) : Prop := ∀ m < cfg.caches, ∀ w, CarefulAt cfg m w s a

/-- What holds in every state of a cluster. -/
structure Lawful (cfg : Config) (s : State) : Prop where
  tracked : Tracked cfg s
  locked : Locked s
  origin : FromHome cfg s
  place : InPlace s
  aligned : ∀ m b, Held cfg s m b → blockBase b = b
  inCall : ∀ m t op, opOf ((s.nodes m).phase t) = some op → t < cfg.threads

section Step

variable {cfg : Config} {s s' : State} {a : Act} {m w addr : Nat} {u : Word} {c : Caller} {v words : List Word}

end Step

/-! ## What is to come in a careful step -/

section Careful

variable {cfg : Config} {s s' : State} {a : Act} {m w addr : Nat} {u : Word} {c : Caller} {v words old : List Word}

end Careful

/-! ## Careful runs -/

section Runs

variable {cfg : Config} {s s' : State} {a : Act} {m w : Nat}

/-- The words of every block that a node has are those of the backend. -/
def Agrees (cfg : Config) (s : State) : Prop :=
  ∀ m < cfg.caches, ∀ b x, At (s.nodes m) b x → ((s.nodes m).table.blocks x).cache = backendBlock s.backend b

end Runs

/-! ## A run without renews -/

/-- The server function renews nothing, and in its next step it stores no hit and hands nothing on. -/
def quietCall : Option Call → Bool
  | some ⟨_, .renew _ _, _⟩ => false
  | some ⟨_, .write _ _, .entry⟩ => false
  | some ⟨src, _, .loop old i⟩ => !old i || src == i
  | some ⟨_, _, .inner _ _ _⟩ => false
  | _ => true

def Message.isRenew : Message → Bool
  | .renew _ _ => true
  | _ => false

/-- No renew is on its way, and none is sent in the next step. -/
def Quiet (cfg : Config) (s : State) : Prop :=
  ∀ m < cfg.caches, (∀ h < cfg.caches, (s.control m h).all (fun msg => !msg.isRenew) = true ∧
      ∀ x, quietCall (s.calls m (.handler h x)) = true) ∧
    ∀ t < cfg.threads, quietCall (s.calls m (.thread t)) = true

instance (cfg : Config) (s : State) : Decidable (Quiet cfg s) :=
  inferInstanceAs (Decidable (∀ m < cfg.caches, _))

/-- The step begins no put of more than one word. -/
def Act.singleWord : Act → Prop
  | .cache _ _ (.lookup (.put _ v)) => v.length = 1
  | _ => True

/-- Both nodes have the block and write the same word; the write of node 0 is stored first. -/
def writeBoth : List Act :=
  readOther ++
    [.cache 1 0 (.lookup (.get 40)), .cache 1 0 .enterQueue, .cache 1 0 .enterWrite, .request 1 0,
      .serve 1 (.thread 0), .cache 1 0 .finish,
      .cache 0 0 (.lookup (.put 40 [5])), .cache 0 0 .enterRead, .request 0 0,
      .cache 1 0 (.lookup (.put 40 [6])), .cache 1 0 .enterRead,
      .receive 1 0 false, .serve 1 (.handler 0 false), .serve 1 (.handler 0 false), .serve 1 (.handler 0 false),
      .serve 1 (.handler 0 false), .serve 1 (.handler 0 false), .serve 1 (.handler 0 false), .reply 0 0,
      .cache 0 0 .finish,
      .request 1 0, .serve 1 (.thread 0), .serve 1 (.thread 0), .serve 1 (.thread 0), .serve 1 (.thread 0),
      .serve 1 (.thread 0), .cache 1 0 .finish,
      .receive 0 1 false, .serve 0 (.handler 1 false), .serve 0 (.handler 1 false)]

/-- The word of node 0 is written over that of node 1, which the home stores last. -/
theorem writeBoth_disagrees : ∃ s, run (step pair) (start (fun _ _ => ⟨[], 0, 0⟩) zeros) writeBoth = some s ∧
    (∀ a ∈ writeBoth, a.singleWord) ∧ Still pair s ∧ ¬Agrees pair s := by
  have hend : (run (step pair) (start (fun _ _ => ⟨[], 0, 0⟩) zeros) writeBoth).map
      (fun s => (decide (Still pair s), (s.nodes 1).table.cache 32, ((s.nodes 1).table.blocks ⟨0, by decide⟩).key,
        ((s.nodes 1).table.blocks ⟨0, by decide⟩).cache[8]?, (backendBlock s.backend 32)[8]?)) =
        some (true, some ⟨0, by decide⟩, 32, some 5, some 6) := by
    decide +kernel
  obtain ⟨s, hrun, hs⟩ := Option.map_eq_some_iff.mp hend
  obtain ⟨hstill, hs⟩ := Prod.mk.inj hs
  obtain ⟨hcache, hs⟩ := Prod.mk.inj hs
  obtain ⟨hkey, hs⟩ := Prod.mk.inj hs
  obtain ⟨hown, hbackend⟩ := Prod.mk.inj hs
  refine ⟨s, hrun, ?_, of_decide_eq_true hstill, ?_⟩
  · simp [writeBoth, readOther, Act.singleWord]
  · intro hagrees
    have hsame := hagrees 1 (by decide) 32 _ ⟨hcache, hkey, by decide⟩
    rw [hsame, hbackend] at hown
    cases hown

end Dogee.CacheCluster
