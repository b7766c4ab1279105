import Dogee.CacheThreads
import Mathlib.Data.Finset.Basic

/-!
# The caches of a cluster

Every node runs `DSMDirectoryCache` with any number of threads. Block `b` has its home at node
`(b >> 5) % caches`, whose directory has a bit for each node that holds the block. A miss and a write
go to the home, over the control socket; the answer comes back over the data socket, and the thread
holds the lock of the data socket while it waits. The home sends a renewed word to the nodes in the
directory and does not wait for them.

A node serves the control socket of each peer with one thread, and that of a peer with a smaller id
with two: `ListenSocketProc` starts one, and the constructor another. Sockets are first in, first out.
A server function is a `Call` that goes through its stages; each lock, each backend access and each
message is a step.

A server function that gets the address of another home and a thread that gets the answer to another
request stop at a breakpoint. `badAddress` says that one of them did; `asked` and `answered` only
record the requests and the answers of each pair of nodes.
-/

namespace Dogee.CacheCluster

open CacheThreads (Op Node Phase)

/-- A cluster; the entries of the directory have 64 bits. -/
structure Config where
  caches : Nat
  pos : 0 < caches
  small : caches ≤ 64
  threads : Nat

/-- The home of a block, `(addr >> DSM_CACHE_BITS) % caches`. -/
def Config.home (cfg : Config) (addr : Nat) : Nat := addr / blockSize % cfg.caches

/-- What goes over a control socket. -/
inductive Message
  | readMiss (addr : Nat)
  | writeMiss (addr : Nat) (v : List Word)
  | write (addr : Nat) (v : List Word)
  | writeback (addr : Nat)
  | renew (addr : Nat) (v : List Word)
deriving DecidableEq

/-- What goes over a data socket: the block of a miss, or the end of a write. -/
inductive Reply
  | block (addr : Nat) (words : List Word)
  | written (addr : Nat)
deriving DecidableEq

/-- The words for a thread of the home itself. -/
def Reply.words : Reply → List Word
  | .block _ words => words
  | .written _ => []

/-- Who runs a server function: a thread of the node itself, or a thread that serves the socket of a
peer. -/
inductive Caller
  | thread (t : Nat)
  | handler (peer : Nat) (second : Bool)
deriving DecidableEq

/-- How far a server function is: at its start; after the write to the backend; in the loop over the
nodes, with the lock of the directory; in the loop, with the own block found; and with the block of a
renew found. -/
inductive Stage
  | entry
  | stored
  | loop (old : Nat → Bool) (i : Nat)
  | inner (old : Nat → Bool) (i : Nat) (b : Fin cacheSize)
  | found (b : Fin cacheSize)

structure Call where
  src : Nat
  msg : Message
  stage : Stage

/-- `dir_lock` -/
structure DirLock where
  readers : Finset Caller
  writer : Option Caller

def DirLock.isFree (l : DirLock) : Prop := l.readers = ∅ ∧ l.writer = none

instance (l : DirLock) : Decidable l.isFree := inferInstanceAs (Decidable (_ ∧ _))

structure State where
  nodes : Nat → Node
  directory : Nat → Nat → Nat → Bool
  dirLock : Nat → DirLock
  backend : Memory
  control : Nat → Nat → List Message
  data : Nat → Nat → List Reply
  dataLock : Nat → Nat → Option Nat
  calls : Nat → Caller → Option Call
  asked : Nat → Nat → List Message
  answered : Nat → Nat → List Reply
  badAddress : Bool

section SetTwo

variable {α β γ : Type*} [DecidableEq α] [DecidableEq β]

/-- Change a function of two arguments at one place. -/
def setTwo (f : α → β → γ) (a : α) (b : β) (v : γ) : α → β → γ :=
  fun x y => if x = a ∧ y = b then v else f x y

theorem setTwo_self (f : α → β → γ) (a : α) (b : β) (v : γ) : setTwo f a b v a b = v :=
  if_pos ⟨rfl, rfl⟩

theorem setTwo_of_ne (f : α → β → γ) (a : α) (b : β) (v : γ) {x : α} {y : β} (h : ¬(x = a ∧ y = b)) :
    setTwo f a b v x y = f x y :=
  if_neg h

end SetTwo

namespace State

def setNode (s : State) (m : Nat) (node : Node) : State :=
  { s with nodes := Function.update s.nodes m node }

def setBit (s : State) (h b m : Nat) (bit : Bool) : State :=
  { s with directory := setTwo s.directory h b (Function.update (s.directory h b) m bit) }

def setDirLock (s : State) (h : Nat) (l : DirLock) : State :=
  { s with dirLock := Function.update s.dirLock h l }

def setControl (s : State) (src dst : Nat) (msgs : List Message) : State :=
  { s with control := setTwo s.control src dst msgs }

def setData (s : State) (src dst : Nat) (replies : List Reply) : State :=
  { s with data := setTwo s.data src dst replies }

def setDataLock (s : State) (m h : Nat) (holder : Option Nat) : State :=
  { s with dataLock := setTwo s.dataLock m h holder }

def setCall (s : State) (h : Nat) (c : Caller) (call : Option Call) : State :=
  { s with calls := setTwo s.calls h c call }

/-- `RcSend` on a control socket. -/
def send (s : State) (src dst : Nat) (msg : Message) : State :=
  s.setControl src dst (s.control src dst ++ [msg])

/-- `RcSend` on a data socket. -/
def sendData (s : State) (src dst : Nat) (r : Reply) : State :=
  { s.setData src dst (s.data src dst ++ [r]) with
    answered := setTwo s.answered src dst (s.answered src dst ++ [r]) }

/-- A request is on its way. -/
def ask (s : State) (m h : Nat) (msg : Message) : State :=
  { s.send m h msg with asked := setTwo s.asked m h (s.asked m h ++ [msg]) }

/-- The breakpoint for a bad address. -/
def bad (s : State) (m : Nat) : State :=
  { s.setNode m { s.nodes m with aborted := true } with badAddress := true }

end State

/-- `backend->putchunk(addr >> 32, addr & 0xffffffff, len, v)` -/
def backendPut (m : Memory) (addr : Nat) (v : List Word) : Memory :=
  m.write (addr / two32) (addr % two32) v

/-- `backend->getblock(addr, buf)` -/
def backendBlock (m : Memory) (addr : Nat) : List Word :=
  m.read (addr / two32) (addr % two32) blockSize

/-- The request of a thread that waits for the home of its block: a hit only writes. -/
def requestOf : Op → Bool → Message
  | .get addr, _ => .readMiss (blockBase addr)
  | .put addr v, true => .write addr v
  | .put addr v, false => .writeMiss addr v

/-- At its own node a write miss hands on one word. -/
def ownRequest : Op → Bool → Message
  | .put addr v, false => .writeMiss addr (v.take 1)
  | op, hit => requestOf op hit

/-- The words that an answer brings, if it is the answer to the request. -/
def fits : Message → Reply → Option (List Word)
  | .readMiss addr, .block addr' words => if addr' = addr then some words else none
  | .writeMiss addr _, .block addr' words => if addr' = addr then some words else none
  | .write addr _, .written addr' => if addr' = addr then some [] else none
  | _, _ => none

/-- The operation of a thread that is about to send its request, and whether it has its block. -/
def asks : Phase → Option (Op × Bool)
  | .filling op _ false => some (op, false)
  | .reading op _ .unsent => some (op, true)
  | _ => none

/-- The operation of a thread that waits for the answer to its request. -/
def waits : Phase → Option (Op × Bool)
  | .filling op _ true => some (op, false)
  | .reading op _ .sent => some (op, true)
  | _ => none

/-- `ServerRenew` after the block was found: the try-lock fails when a writer holds the block. -/
def tryRenew (node : Node) (addr : Nat) (v : List Word) (b : Fin cacheSize) : Option Node :=
  if (node.lock b).writer = none ∧ (node.table.blocks b).key = blockBase addr then
    (copyWords (node.table.blocks b).cache (addr % blockSize) v).map fun words =>
      { node with table := node.table.modify b fun blk => { blk with cache := words } }
  else some node

section Step

variable (cfg : Config)

/-- The answer to a miss or to a write: the own thread gets it in place. -/
def answer (s : State) (h : Nat) (c : Caller) (src : Nat) (r : Reply) : Option State :=
  match c with
  | .handler _ _ => some (s.sendData h src r)
  | .thread t => ((s.nodes h).reply t r.words).map fun node => s.setNode h node

/-- The message is for another home; a renew is not checked. -/
def Message.misses (msg : Message) (h src : Nat) : Prop :=
  match msg with
  | .readMiss addr => src ≠ h ∧ cfg.home addr ≠ h
  | .writeMiss addr _ => src ≠ h ∧ cfg.home addr ≠ h
  | .write addr _ => src ≠ h ∧ cfg.home addr ≠ h
  | .writeback addr => cfg.home addr ≠ h
  | .renew _ _ => False

instance (msg : Message) (h src : Nat) : Decidable (msg.misses cfg h src) :=
  match msg with
  | .readMiss _ => inferInstanceAs (Decidable (_ ∧ _))
  | .writeMiss _ _ => inferInstanceAs (Decidable (_ ∧ _))
  | .write _ _ => inferInstanceAs (Decidable (_ ∧ _))
  | .writeback addr => inferInstanceAs (Decidable (cfg.home addr ≠ h))
  | .renew _ _ => inferInstanceAs (Decidable False)

/-- The loop over the nodes whose bit is set, the writer left out. -/
def serveLoop (s : State) (h : Nat) (c : Caller) (call : Call) (addr : Nat) (v : List Word)
    (old : Nat → Bool) (i : Nat) : State :=
  let next := s.setCall h c (some { call with stage := .loop old (i + 1) })
  if old i ∧ call.src ≠ i then
    if i = h then
      match (s.nodes h).table.cache (blockBase addr) with
      | some b => s.setCall h c (some { call with stage := .inner old i b })
      | none => next
    else next.send h i (.renew addr v)
  else next

/-- The next step of a server function of node `h` that has checked the address. -/
def serveCall (s : State) (h : Nat) (c : Caller) (call : Call) : Option State :=
  match call.msg, call.stage with
  -- ServerRenew
  | .renew addr _, .entry =>
      match (s.nodes h).table.cache (blockBase addr) with
      | some b => some (s.setCall h c (some { call with stage := .found b }))
      | none => some (s.setCall h c none)
  | .renew addr v, .found b =>
      (tryRenew (s.nodes h) addr v b).map fun node => (s.setNode h node).setCall h c none
  -- ServerWriteback
  | .writeback addr, .entry =>
      if (s.dirLock h).isFree then some ((s.setBit h addr call.src false).setCall h c none) else none
  -- ServerReadMiss
  | .readMiss addr, .entry =>
      if (s.dirLock h).isFree then
        answer ((s.setBit h addr call.src true).setCall h c none) h c call.src
          (.block addr (backendBlock s.backend addr))
      else none
  -- ServerWrite
  | .write addr v, .entry =>
      some ({ s with backend := backendPut s.backend addr v }.setCall h c
        (some { call with stage := .stored }))
  | .write addr _, .stored =>
      if (s.dirLock h).writer = none then
        some ((s.setDirLock h { s.dirLock h with readers := insert c (s.dirLock h).readers }).setCall h c
          (some { call with stage := .loop (s.directory h (blockBase addr)) 0 }))
      else none
  | .write addr v, .loop old i =>
      if i < cfg.caches then some (serveLoop s h c call addr v old i)
      else
        answer ((s.setDirLock h
          { s.dirLock h with readers := (s.dirLock h).readers.erase c }).setCall h c none) h c call.src
            (.written addr)
  | .write addr v, .inner old i b =>
      (tryRenew (s.nodes h) addr v b).map fun node =>
        (s.setNode h node).setCall h c (some { call with stage := .loop old (i + 1) })
  -- ServerWriteMiss
  | .writeMiss addr v, .entry =>
      some ({ s with backend := backendPut s.backend addr v }.setCall h c
        (some { call with stage := .stored }))
  | .writeMiss addr _, .stored =>
      if (s.dirLock h).isFree then
        some (((s.setBit h (blockBase addr) call.src true).setDirLock h ⟨∅, some c⟩).setCall h c
          (some { call with stage := .loop (s.directory h (blockBase addr)) 0 }))
      else none
  | .writeMiss addr v, .loop old i =>
      if i < cfg.caches then some (serveLoop s h c call addr v old i)
      else
        answer ((s.setDirLock h ⟨∅, none⟩).setCall h c none) h c call.src
          (.block addr (backendBlock s.backend (blockBase addr)))
  | .writeMiss addr v, .inner old i b =>
      (tryRenew (s.nodes h) addr v b).map fun node =>
        (s.setNode h node).setCall h c (some { call with stage := .loop old (i + 1) })
  | _, _ => none

/-- The next step of a server function of node `h`. -/
def serve (s : State) (h : Nat) (c : Caller) : Option State :=
  match s.calls h c with
  | none => none
  | some call => if call.msg.misses cfg h call.src then some (s.bad h) else serveCall cfg s h c call

/-- The words of a call lie in one block. -/
def InBlock : Op → Prop
  | .get _ => True
  | .put addr v => addr % blockSize + v.length ≤ blockSize

instance (op : Op) : Decidable (InBlock op) :=
  match op with
  | .get _ => inferInstanceAs (Decidable True)
  | .put _ _ => inferInstanceAs (Decidable (_ ≤ _))

/-- A step of a thread that does not leave its node. -/
def cacheStep (s : State) (m t : Nat) (a : CacheThreads.Act) : Option State :=
  match a with
  | .writeback => none
  | .request => none
  | .reply _ => none
  | .lookup op => if InBlock op then ((s.nodes m).lookup t op).map fun node => s.setNode m node else none
  | a => ((s.nodes m).act t a).map fun node => s.setNode m node

/-- `Writeback` of the block that a thread has swapped out. -/
def writeback (s : State) (m t : Nat) : Option State :=
  match (s.nodes m).phase t with
  | .writingBack _ _ oldkey => do
      let node ← (s.nodes m).writeback t
      if cfg.home oldkey = m then
        if (s.dirLock m).isFree then some ((s.setNode m node).setBit m oldkey m false) else none
      else some ((s.setNode m node).send m (cfg.home oldkey) (.writeback oldkey))
  | _ => none

/-- A thread asks the home of its block. -/
def request (s : State) (m t : Nat) : Option State := do
  let (op, hit) ← asks ((s.nodes m).phase t)
  let node ← (s.nodes m).request t
  let h := cfg.home op.addr
  if h = m then
    some ((s.setNode m node).setCall m (.thread t) (some ⟨m, ownRequest op hit, .entry⟩))
  else if s.dataLock m h = none then
    some (((s.setNode m node).setDataLock m h (some t)).ask m h (requestOf op hit))
  else none

/-- A thread gets the answer of the home. An answer to another request is a breakpoint. -/
def reply (s : State) (m t : Nat) : Option State := do
  let (op, hit) ← waits ((s.nodes m).phase t)
  let h := cfg.home op.addr
  if s.dataLock m h = some t then
    match s.data h m with
    | [] => none
    | r :: rest =>
        match fits (requestOf op hit) r with
        | some words =>
            ((s.nodes m).reply t words).map fun node =>
              ((s.setNode m node).setData h m rest).setDataLock m h none
        | none => some (s.bad m)
  else none

/-- A thread that serves the socket of a peer takes the next message. -/
def receive (s : State) (h peer : Nat) (second : Bool) : Option State :=
  if peer ≠ h ∧ (second → peer < h) ∧ (s.calls h (.handler peer second)).isNone then
    match s.control peer h with
    | [] => none
    | msg :: rest =>
        some ((s.setControl peer h rest).setCall h (.handler peer second) (some ⟨peer, msg, .entry⟩))
  else none

inductive Act
  | cache (m t : Nat) (a : CacheThreads.Act)
  | writeback (m t : Nat)
  | request (m t : Nat)
  | reply (m t : Nat)
  | receive (h peer : Nat) (second : Bool)
  | serve (h : Nat) (c : Caller)

/-- The node that takes the step. -/
def Act.node : Act → Nat
  | .cache m _ _ => m
  | .writeback m _ => m
  | .request m _ => m
  | .reply m _ => m
  | .receive h _ _ => h
  | .serve h _ => h

/-- A step of a node that has not stopped at a failed assertion. -/
def Act.apply (s : State) : Act → Option State
  | .cache m t a => if t < cfg.threads then cacheStep s m t a else none
  | .writeback m t => if t < cfg.threads then CacheCluster.writeback cfg s m t else none
  | .request m t => if t < cfg.threads then CacheCluster.request cfg s m t else none
  | .reply m t => if t < cfg.threads then CacheCluster.reply cfg s m t else none
  | .receive h peer second => if peer < cfg.caches then CacheCluster.receive s h peer second else none
  | .serve h c => CacheCluster.serve cfg s h c

def step (s : State) (a : Act) : Option State :=
  if a.node < cfg.caches ∧ (s.nodes a.node).aborted = false then a.apply cfg s else none

/-- A new cluster; the backend and the unused blocks hold anything. -/
def start (junk : Nat → Fin cacheSize → CacheBlock) (backend : Memory) : State where
  nodes m := Node.start (junk m)
  directory _ _ _ := false
  dirLock _ := ⟨∅, none⟩
  backend := backend
  control _ _ := []
  data _ _ := []
  dataLock _ _ := none
  calls _ _ := none
  asked _ _ := []
  answered _ _ := []
  badAddress := false

end Step

/-! ## What a step does -/

/-- The steps of a thread that stay in its node. -/
inductive Acted (s : Node) (t : Nat) : CacheThreads.Act → Node → Prop
  | lookupFound {op : Op} {b : Fin cacheSize} (hphase : s.phase t = .idle)
      (hcache : s.table.cache op.block = some b) : Acted s t (.lookup op) (s.setPhase t (.found op b))
  | lookupMissing {op : Op} (hphase : s.phase t = .idle) (hcache : s.table.cache op.block = none) :
      Acted s t (.lookup op) (s.setPhase t (.missing op))
  | hitGet {addr : Nat} {b : Fin cacheSize} (hphase : s.phase t = .found (.get addr) b)
      (hlock : (s.lock b).writer = none) (hkey : (s.table.blocks b).key = blockBase addr) :
      Acted s t .enterRead (((s.stamp b).setLock b
        { s.lock b with readers := insert t (s.lock b).readers }).setPhase t
          (.reading (.get addr) b .served))
  | hitPut {addr : Nat} {v words : List Word} {b : Fin cacheSize}
      (hphase : s.phase t = .found (.put addr v) b) (hlock : (s.lock b).writer = none)
      (hkey : (s.table.blocks b).key = blockBase addr)
      (hcopy : copyWords (s.table.blocks b).cache (addr % blockSize) v = some words) :
      Acted s t .enterRead (({ s.stamp b with
        table := (s.stamp b).table.modify b fun blk => { blk with cache := words } }.setLock b
          { s.lock b with readers := insert t (s.lock b).readers }).setPhase t
            (.reading (.put addr v) b .unsent))
  | changed {op : Op} {b : Fin cacheSize} (hphase : s.phase t = .found op b) :
      Acted s t .enterRead (s.setPhase t (.missing op))
  | pending {op : Op} {b : Fin cacheSize} (hphase : s.phase t = .missing op) :
      Acted s t .enterQueue (s.setPhase t (.found op b))
  | take {op : Op} {b : Fin cacheSize} {rest : List (Fin cacheSize)} (hphase : s.phase t = .missing op)
      (hcache : s.table.cache op.block = none) (hqueue : s.table.queue = b :: rest) :
      Acted s t .enterQueue ({ s with
        table := s.table.takeFree b rest op.block
        queueLock := some t }.setPhase t (.taking op b))
  | evict {op : Op} {b : Fin cacheSize} (hphase : s.phase t = .missing op) :
      Acted s t .enterQueue ({ s with queueLock := some t }.setPhase t (.evicting op b))
  | abort {op : Op} (hphase : s.phase t = .missing op) :
      Acted s t .enterQueue { s with aborted := true }
  | lockTaken {op : Op} {b : Fin cacheSize} (hphase : s.phase t = .taking op b)
      (hfree : (s.lock b).isFree) :
      Acted s t .enterWrite
        (({ s with queueLock := none }.setLock b ⟨∅, some t⟩).setPhase t (.filling op b false))
  | lockEvicted {op : Op} {b : Fin cacheSize} (hphase : s.phase t = .evicting op b)
      (hfree : (s.lock b).isFree) :
      Acted s t .enterWrite (({ s with
        table := s.table.swapOut b op.block
        queueLock := none }.setLock b ⟨∅, some t⟩).setPhase t
          (.writingBack op b (s.table.blocks b).key))
  | finishHit {op : Op} {b : Fin cacheSize} (hphase : s.phase t = .reading op b .served) :
      Acted s t .finish (((s.callback b op).setLock b
        { s.lock b with readers := (s.lock b).readers.erase t }).setPhase t .idle)
  | finishMiss {op : Op} {b : Fin cacheSize} (hphase : s.phase t = .filled op b) :
      Acted s t .finish
        ((((s.stamp b).callback b op).setLock b { s.lock b with writer := none }).setPhase t .idle)

/-- The step of a thread stays in its node. -/
def Inside : CacheThreads.Act → Prop
  | .writeback => False
  | .request => False
  | .reply _ => False
  | _ => True

theorem acted_of_act {s s' : Node} {t : Nat} {a : CacheThreads.Act} (hact : s.act t a = some s')
    (ha : Inside a) : Acted s t a s' := by
  cases a with
  | writeback => exact ha.elim
  | request => exact ha.elim
  | reply words => exact ha.elim
  | lookup op =>
      simp only [Node.act, Node.lookup] at hact
      split at hact
      · rename_i hphase
        split at hact
        · rename_i b hcache
          obtain rfl := Option.some.inj hact
          exact .lookupFound hphase hcache
        · rename_i hcache
          obtain rfl := Option.some.inj hact
          exact .lookupMissing hphase hcache
      · cases hact
  | enterRead =>
      simp only [Node.act, Node.enterRead] at hact
      split at hact
      · rename_i op b hphase
        split at hact
        · rename_i hlock
          split at hact
          · rename_i hkey
            obtain ⟨s₁, hcopy, rfl⟩ := Option.map_eq_some_iff.mp hact
            cases op with
            | get addr =>
                obtain rfl := Option.some.inj hcopy
                exact .hitGet hphase hlock hkey
            | put addr v =>
                obtain ⟨words, hwords, rfl⟩ := Option.map_eq_some_iff.mp hcopy
                refine .hitPut hphase hlock hkey ?_
                rw [← hwords]
                simp only [Node.stamp, CacheTable.modify, Function.update_self]
          · obtain rfl := Option.some.inj hact
            exact .changed hphase
        · cases hact
      · cases hact
  | enterQueue =>
      simp only [Node.act, Node.enterQueue] at hact
      split at hact
      · rename_i op hphase
        split at hact
        · split at hact
          · obtain rfl := Option.some.inj hact
            exact .pending hphase
          · rename_i b rest hcache hqueue
            obtain rfl := Option.some.inj hact
            exact .take hphase hcache hqueue
          · split at hact
            · obtain rfl := Option.some.inj hact
              exact .abort hphase
            · obtain rfl := Option.some.inj hact
              exact .evict hphase
        · cases hact
      · cases hact
  | enterWrite =>
      simp only [Node.act, Node.enterWrite] at hact
      split at hact
      · rename_i op b hphase
        split at hact
        · rename_i hfree
          obtain rfl := Option.some.inj hact
          exact .lockTaken hphase hfree
        · cases hact
      · rename_i op b hphase
        split at hact
        · rename_i hfree
          obtain rfl := Option.some.inj hact
          exact .lockEvicted hphase hfree
        · cases hact
      · cases hact
  | finish =>
      simp only [Node.act, Node.finish] at hact
      split at hact
      · rename_i op b hphase
        obtain rfl := Option.some.inj hact
        exact .finishHit hphase
      · rename_i op b hphase
        obtain rfl := Option.some.inj hact
        exact .finishMiss hphase
      · cases hact

/-- The word that a server function is to store. -/
def Message.stores : Message → Option (Nat × List Word)
  | .write addr v => some (addr, v)
  | .writeMiss addr v => some (addr, v)
  | _ => none

/-- The steps of a server function. -/
inductive Served (cfg : Config) (s : State) (h : Nat) (c : Caller) : State → Prop
  | renewMiss {src addr : Nat} {v : List Word} (hcall : s.calls h c = some ⟨src, .renew addr v, .entry⟩)
      (hcache : (s.nodes h).table.cache (blockBase addr) = none) : Served cfg s h c (s.setCall h c none)
  | renewFound {src addr : Nat} {v : List Word} {b : Fin cacheSize}
      (hcall : s.calls h c = some ⟨src, .renew addr v, .entry⟩)
      (hcache : (s.nodes h).table.cache (blockBase addr) = some b) :
      Served cfg s h c (s.setCall h c (some ⟨src, .renew addr v, .found b⟩))
  | renewEnd {src addr : Nat} {v : List Word} {b : Fin cacheSize} {node : Node}
      (hcall : s.calls h c = some ⟨src, .renew addr v, .found b⟩)
      (hnode : tryRenew (s.nodes h) addr v b = some node) :
      Served cfg s h c ((s.setNode h node).setCall h c none)
  | writeback {src addr : Nat} (hcall : s.calls h c = some ⟨src, .writeback addr, .entry⟩)
      (hfree : (s.dirLock h).isFree) :
      Served cfg s h c ((s.setBit h addr src false).setCall h c none)
  | readMiss {src addr : Nat} {s' : State} (hcall : s.calls h c = some ⟨src, .readMiss addr, .entry⟩)
      (hfree : (s.dirLock h).isFree)
      (hanswer : answer ((s.setBit h addr src true).setCall h c none) h c src
        (.block addr (backendBlock s.backend addr)) = some s') : Served cfg s h c s'
  | store {src addr : Nat} {msg : Message} {v : List Word}
      (hcall : s.calls h c = some ⟨src, msg, .entry⟩) (hmsg : msg.stores = some (addr, v)) :
      Served cfg s h c ({ s with backend := backendPut s.backend addr v }.setCall h c
        (some ⟨src, msg, .stored⟩))
  | writeSection {src addr : Nat} {v : List Word} (hcall : s.calls h c = some ⟨src, .write addr v, .stored⟩)
      (hlock : (s.dirLock h).writer = none) :
      Served cfg s h c
        ((s.setDirLock h { s.dirLock h with readers := insert c (s.dirLock h).readers }).setCall h c
          (some ⟨src, .write addr v, .loop (s.directory h (blockBase addr)) 0⟩))
  | writeMissSection {src addr : Nat} {v : List Word}
      (hcall : s.calls h c = some ⟨src, .writeMiss addr v, .stored⟩) (hfree : (s.dirLock h).isFree) :
      Served cfg s h c
        (((s.setBit h (blockBase addr) src true).setDirLock h ⟨∅, some c⟩).setCall h c
          (some ⟨src, .writeMiss addr v, .loop (s.directory h (blockBase addr)) 0⟩))
  | loopSkip {src addr i : Nat} {msg : Message} {v : List Word} {old : Nat → Bool}
      (hcall : s.calls h c = some ⟨src, msg, .loop old i⟩) (hmsg : msg.stores = some (addr, v))
      (hi : i < cfg.caches)
      (hskip : old i = true → src ≠ i → i = h ∧ (s.nodes h).table.cache (blockBase addr) = none) :
      Served cfg s h c (s.setCall h c (some ⟨src, msg, .loop old (i + 1)⟩))
  | loopOwn {src addr : Nat} {msg : Message} {v : List Word} {old : Nat → Bool} {b : Fin cacheSize}
      (hcall : s.calls h c = some ⟨src, msg, .loop old h⟩) (hmsg : msg.stores = some (addr, v))
      (hsrc : src ≠ h) (hcache : (s.nodes h).table.cache (blockBase addr) = some b) :
      Served cfg s h c (s.setCall h c (some ⟨src, msg, .inner old h b⟩))
  | loopSend {src addr i : Nat} {msg : Message} {v : List Word} {old : Nat → Bool}
      (hcall : s.calls h c = some ⟨src, msg, .loop old i⟩) (hmsg : msg.stores = some (addr, v))
      (hi : i < cfg.caches) (hne : i ≠ h) (hsrc : src ≠ i) :
      Served cfg s h c ((s.setCall h c (some ⟨src, msg, .loop old (i + 1)⟩)).send h i (.renew addr v))
  | innerEnd {src addr i : Nat} {msg : Message} {v : List Word} {old : Nat → Bool} {b : Fin cacheSize}
      {node : Node} (hcall : s.calls h c = some ⟨src, msg, .inner old i b⟩)
      (hmsg : msg.stores = some (addr, v)) (hnode : tryRenew (s.nodes h) addr v b = some node) :
      Served cfg s h c ((s.setNode h node).setCall h c (some ⟨src, msg, .loop old (i + 1)⟩))
  | writeEnd {src addr i : Nat} {v : List Word} {old : Nat → Bool} {s' : State}
      (hcall : s.calls h c = some ⟨src, .write addr v, .loop old i⟩) (hi : cfg.caches ≤ i)
      (hanswer : answer ((s.setDirLock h
        { s.dirLock h with readers := (s.dirLock h).readers.erase c }).setCall h c none) h c src
          (.written addr) = some s') : Served cfg s h c s'
  | writeMissEnd {src addr i : Nat} {v : List Word} {old : Nat → Bool} {s' : State}
      (hcall : s.calls h c = some ⟨src, .writeMiss addr v, .loop old i⟩) (hi : cfg.caches ≤ i)
      (hanswer : answer ((s.setDirLock h ⟨∅, none⟩).setCall h c none) h c src
        (.block addr (backendBlock s.backend (blockBase addr))) = some s') : Served cfg s h c s'
  | bad {call : Call} (hcall : s.calls h c = some call) (hmiss : call.msg.misses cfg h call.src) :
      Served cfg s h c (s.bad h)

section Served

variable {cfg : Config} {s s' : State} {h : Nat} {c : Caller}

theorem served_of_serveLoop {src addr i : Nat} {msg : Message} {v : List Word} {old : Nat → Bool}
    (hcall : s.calls h c = some ⟨src, msg, .loop old i⟩) (hmsg : msg.stores = some (addr, v))
    (hi : i < cfg.caches) :
    Served cfg s h c (serveLoop s h c ⟨src, msg, .loop old i⟩ addr v old i) := by
  unfold serveLoop
  dsimp only
  split
  · rename_i hold
    split
    · rename_i hih
      subst hih
      split
      · rename_i b hcache
        exact .loopOwn hcall hmsg hold.2 hcache
      · rename_i hcache
        exact .loopSkip hcall hmsg hi fun _ _ => ⟨rfl, hcache⟩
    · rename_i hih
      exact .loopSend hcall hmsg hi hih hold.2
  · rename_i hold
    exact .loopSkip hcall hmsg hi fun hbit hsrc => absurd ⟨hbit, hsrc⟩ hold

theorem served_of_serveCall {call : Call} (hcall : s.calls h c = some call)
    (hserve : serveCall cfg s h c call = some s') : Served cfg s h c s' := by
  unfold serveCall at hserve
  obtain ⟨src, msg, stage⟩ := call
  dsimp only at hserve
  split at hserve
  · split at hserve
    · rename_i b hcache
      obtain rfl := Option.some.inj hserve
      exact .renewFound hcall hcache
    · rename_i hcache
      obtain rfl := Option.some.inj hserve
      exact .renewMiss hcall hcache
  · obtain ⟨node, hnode, rfl⟩ := Option.map_eq_some_iff.mp hserve
    exact .renewEnd hcall hnode
  · split at hserve
    · rename_i hfree
      obtain rfl := Option.some.inj hserve
      exact .writeback hcall hfree
    · cases hserve
  · split at hserve
    · rename_i hfree
      exact .readMiss hcall hfree hserve
    · cases hserve
  · obtain rfl := Option.some.inj hserve
    exact .store hcall rfl
  · split at hserve
    · rename_i hlock
      obtain rfl := Option.some.inj hserve
      exact .writeSection hcall hlock
    · cases hserve
  · split at hserve
    · rename_i hi
      obtain rfl := Option.some.inj hserve
      exact served_of_serveLoop hcall rfl hi
    · rename_i hi
      exact .writeEnd hcall (Nat.le_of_not_lt hi) hserve
  · obtain ⟨node, hnode, rfl⟩ := Option.map_eq_some_iff.mp hserve
    exact .innerEnd hcall rfl hnode
  · obtain rfl := Option.some.inj hserve
    exact .store hcall rfl
  · split at hserve
    · rename_i hfree
      obtain rfl := Option.some.inj hserve
      exact .writeMissSection hcall hfree
    · cases hserve
  · split at hserve
    · rename_i hi
      obtain rfl := Option.some.inj hserve
      exact served_of_serveLoop hcall rfl hi
    · rename_i hi
      exact .writeMissEnd hcall (Nat.le_of_not_lt hi) hserve
  · obtain ⟨node, hnode, rfl⟩ := Option.map_eq_some_iff.mp hserve
    exact .innerEnd hcall rfl hnode
  · cases hserve

theorem served_of_serve (hserve : serve cfg s h c = some s') : Served cfg s h c s' := by
  unfold serve at hserve
  split at hserve
  · cases hserve
  · rename_i call hcall
    split at hserve
    · rename_i hmiss
      obtain rfl := Option.some.inj hserve
      exact .bad hcall hmiss
    · exact served_of_serveCall hcall hserve

end Served

/-- The steps of a cluster. -/
inductive Stepped (cfg : Config) (s : State) : Act → State → Prop
  | cache {m t : Nat} {a : CacheThreads.Act} {node : Node} (hact : (s.nodes m).act t a = some node)
      (ha : Inside a) (hop : ∀ op, a = .lookup op → InBlock op) :
      Stepped cfg s (.cache m t a) (s.setNode m node)
  | writebackOwn {m t oldkey : Nat} {op : Op} {b : Fin cacheSize}
      (hphase : (s.nodes m).phase t = .writingBack op b oldkey) (hhome : cfg.home oldkey = m)
      (hfree : (s.dirLock m).isFree) :
      Stepped cfg s (.writeback m t)
        ((s.setNode m ((s.nodes m).setPhase t (.filling op b false))).setBit m oldkey m false)
  | writebackSend {m t oldkey : Nat} {op : Op} {b : Fin cacheSize}
      (hphase : (s.nodes m).phase t = .writingBack op b oldkey) (hhome : cfg.home oldkey ≠ m) :
      Stepped cfg s (.writeback m t)
        ((s.setNode m ((s.nodes m).setPhase t (.filling op b false))).send m (cfg.home oldkey)
          (.writeback oldkey))
  | requestOwn {m t : Nat} {op : Op} {hit : Bool} {node : Node}
      (hasks : asks ((s.nodes m).phase t) = some (op, hit)) (hnode : (s.nodes m).request t = some node)
      (hhome : cfg.home op.addr = m) :
      Stepped cfg s (.request m t)
        ((s.setNode m node).setCall m (.thread t) (some ⟨m, ownRequest op hit, .entry⟩))
  | requestSend {m t : Nat} {op : Op} {hit : Bool} {node : Node}
      (hasks : asks ((s.nodes m).phase t) = some (op, hit)) (hnode : (s.nodes m).request t = some node)
      (hhome : cfg.home op.addr ≠ m) (hlock : s.dataLock m (cfg.home op.addr) = none) :
      Stepped cfg s (.request m t)
        (((s.setNode m node).setDataLock m (cfg.home op.addr) (some t)).ask m (cfg.home op.addr)
          (requestOf op hit))
  | reply {m t : Nat} {op : Op} {hit : Bool} {r : Reply} {rest : List Reply} {words : List Word}
      {node : Node} (hwaits : waits ((s.nodes m).phase t) = some (op, hit))
      (hlock : s.dataLock m (cfg.home op.addr) = some t) (hdata : s.data (cfg.home op.addr) m = r :: rest)
      (hfits : fits (requestOf op hit) r = some words) (hnode : (s.nodes m).reply t words = some node) :
      Stepped cfg s (.reply m t)
        (((s.setNode m node).setData (cfg.home op.addr) m rest).setDataLock m (cfg.home op.addr) none)
  | replyBad {m t : Nat} {op : Op} {hit : Bool} {r : Reply} {rest : List Reply}
      (hwaits : waits ((s.nodes m).phase t) = some (op, hit))
      (hlock : s.dataLock m (cfg.home op.addr) = some t) (hdata : s.data (cfg.home op.addr) m = r :: rest)
      (hfits : fits (requestOf op hit) r = none) :
      Stepped cfg s (.reply m t) (s.bad m)
  | receive {h peer : Nat} {second : Bool} {msg : Message} {rest : List Message} (hpeer : peer ≠ h)
      (hcall : s.calls h (.handler peer second) = none) (hcontrol : s.control peer h = msg :: rest) :
      Stepped cfg s (.receive h peer second)
        ((s.setControl peer h rest).setCall h (.handler peer second) (some ⟨peer, msg, .entry⟩))
  | serve {h : Nat} {c : Caller} {s' : State} (hserve : Served cfg s h c s') : Stepped cfg s (.serve h c) s'

section Stepped

variable {cfg : Config} {s s' : State} {m t : Nat}

theorem stepped_of_cacheStep {a : CacheThreads.Act} (hstep : cacheStep s m t a = some s') :
    Stepped cfg s (.cache m t a) s' := by
  unfold cacheStep at hstep
  cases a with
  | writeback => cases hstep
  | request => cases hstep
  | reply words => cases hstep
  | lookup op =>
      obtain ⟨hop, hstep⟩ := Option.ite_none_right_eq_some.mp hstep
      obtain ⟨node, hact, rfl⟩ := Option.map_eq_some_iff.mp hstep
      refine .cache hact trivial ?_
      intro op' heq
      obtain rfl := CacheThreads.Act.lookup.inj heq
      exact hop
  | _ =>
      obtain ⟨node, hact, rfl⟩ := Option.map_eq_some_iff.mp hstep
      exact .cache hact trivial fun op heq => by cases heq

theorem stepped_of_writeback (hstep : writeback cfg s m t = some s') :
    Stepped cfg s (.writeback m t) s' := by
  unfold writeback at hstep
  split at hstep
  · rename_i op b oldkey hphase
    have hnode : (s.nodes m).writeback t = some ((s.nodes m).setPhase t (.filling op b false)) := by
      unfold Node.writeback
      rw [hphase]
    rw [hnode] at hstep
    simp only [Option.bind_eq_bind, Option.bind_some] at hstep
    split at hstep
    · rename_i hhome
      split at hstep
      · rename_i hfree
        obtain rfl := Option.some.inj hstep
        exact .writebackOwn hphase hhome hfree
      · cases hstep
    · rename_i hhome
      obtain rfl := Option.some.inj hstep
      exact .writebackSend hphase hhome
  · cases hstep

theorem stepped_of_request (hstep : request cfg s m t = some s') : Stepped cfg s (.request m t) s' := by
  unfold request at hstep
  obtain ⟨⟨op, hit⟩, hasks, hstep⟩ := Option.bind_eq_some_iff.mp hstep
  obtain ⟨node, hnode, hstep⟩ := Option.bind_eq_some_iff.mp hstep
  dsimp only at hstep
  split at hstep
  · rename_i hhome
    obtain rfl := Option.some.inj hstep
    exact .requestOwn hasks hnode hhome
  · rename_i hhome
    split at hstep
    · rename_i hlock
      obtain rfl := Option.some.inj hstep
      exact .requestSend hasks hnode hhome hlock
    · cases hstep

theorem stepped_of_reply (hstep : reply cfg s m t = some s') : Stepped cfg s (.reply m t) s' := by
  unfold reply at hstep
  obtain ⟨⟨op, hit⟩, hwaits, hstep⟩ := Option.bind_eq_some_iff.mp hstep
  dsimp only at hstep
  split at hstep
  · rename_i hlock
    split at hstep
    · cases hstep
    · rename_i r rest hdata
      split at hstep
      · rename_i words hfits
        obtain ⟨node, hnode, rfl⟩ := Option.map_eq_some_iff.mp hstep
        exact .reply hwaits hlock hdata hfits hnode
      · rename_i hfits
        obtain rfl := Option.some.inj hstep
        exact .replyBad hwaits hlock hdata hfits
  · cases hstep

theorem stepped_of_receive {h peer : Nat} {second : Bool} (hstep : receive s h peer second = some s') :
    Stepped cfg s (.receive h peer second) s' := by
  unfold receive at hstep
  split at hstep
  · rename_i hguard
    split at hstep
    · cases hstep
    · rename_i msg rest hcontrol
      obtain rfl := Option.some.inj hstep
      exact .receive hguard.1 (Option.isNone_iff_eq_none.mp hguard.2.2) hcontrol
  · cases hstep

theorem stepped_of_step {a : Act} (hstep : step cfg s a = some s') : Stepped cfg s a s' := by
  unfold step at hstep
  split at hstep
  · cases a with
    | cache m t a =>
        obtain ⟨-, hstep⟩ := Option.ite_none_right_eq_some.mp hstep
        exact stepped_of_cacheStep hstep
    | writeback m t =>
        obtain ⟨-, hstep⟩ := Option.ite_none_right_eq_some.mp hstep
        exact stepped_of_writeback hstep
    | request m t =>
        obtain ⟨-, hstep⟩ := Option.ite_none_right_eq_some.mp hstep
        exact stepped_of_request hstep
    | reply m t =>
        obtain ⟨-, hstep⟩ := Option.ite_none_right_eq_some.mp hstep
        exact stepped_of_reply hstep
    | receive h peer second =>
        obtain ⟨-, hstep⟩ := Option.ite_none_right_eq_some.mp hstep
        exact stepped_of_receive hstep
    | serve h c => exact .serve (served_of_serve hstep)
  · cases hstep

end Stepped

end Dogee.CacheCluster
