import Dogee.LockCode
import Dogee.CacheTable

/-!
# The locks of the cache

What the functions of the cache and of its protocol do to the locks of their thread, on
POSIX. What they find in the memory shared with other threads, and what they receive, is
given: the entry of the hash table, the outcome of the try-lock, the key of a block, the
entry of the directory, the outcome of a receive.

`UaTryEnterReadRWLock` is `pthread_rwlock_tryrdlock`, which returns zero if it has got the
lock. `_BreakPoint` raises a signal; `survives` says that the process goes on after it.
-/

namespace Dogee.CacheLocks

open LockCode

inductive Lock
  | queue
  | hash
  | dir
  | dataSocket (i : Nat)
  | block (b : Fin cacheSize)
  deriving DecidableEq

/-- A node with the cache `self` of `caches`. -/
structure Node where
  self : Nat
  caches : Nat
  placed : self < caches
  survives : Bool

/-- The cache that an address belongs to. -/
def Node.home (nd : Node) (addr : Nat) : Nat := addr / blockSize % nd.caches

/-- `EBUSY` -/
def ebusy : Nat := 16

/-- `UaTryEnterReadRWLock` on POSIX: the lock and the returned number. -/
def tryEnterReadRWLock (l : Lock) (got : Bool) : Code Lock Nat :=
  if got then do
    enter l
    return 0
  else return ebusy

/-- `_BreakPoint`, under a condition. -/
def breakPoint (nd : Node) (p : Prop) [Decidable p] : Code Lock Unit :=
  if p ∧ ¬nd.survives then halt .stopped else pure ()

/-! ## The server's side -/

/-- What a renewal meets: the block in the hash table, whether the try-lock gets its lock,
and the key of the block. -/
structure Renewal where
  found : Option (Fin cacheSize)
  got : Bool
  key : Nat

/-- The common code of `ServerRenew` and `ServerRenewChunk`: where it copies to, if it does.
`range` is the first word and the number of words. -/
def renew (range : Nat × Nat) (addr : Nat) (r : Renewal) : Code Lock (Option (Fin cacheSize × Nat × Nat)) := do
  enter .hash
  leave .hash
  match r.found with
  | none => return none
  | some b => do
      let ret ← tryEnterReadRWLock (.block b) r.got
      if ret ≠ 0 then do
        leave (.block b)
        return if r.key = blockBase addr then some (b, range) else none
      else return none

def serverRenew (addr len : Nat) (r : Renewal) : Code Lock (Option (Fin cacheSize × Nat × Nat)) :=
  renew (addr % blockSize, len) addr r

def serverRenewChunk (addr : Nat) (r : Renewal) : Code Lock (Option (Fin cacheSize × Nat × Nat)) :=
  renew (0, blockSize) addr r

/-- What the server finds: the entry of the directory, what a renewal of the own cache meets,
and whether the backend reads the block. -/
structure Found where
  old : BitVec 64
  renewal : Renewal
  readable : Bool

inductive CacheMessageKind
  | replyOK
  | replyBadAddress
  deriving DecidableEq

/-- The loop over the caches in the directory. -/
def sendRenews (nd : Node) (addr src len : Nat) (o : Found) : Code Lock PUnit :=
  forM (List.range nd.caches) fun i =>
    if o.old.getLsbD i ∧ src ≠ i then
      (if i = nd.self then do
        let _ ← serverRenew addr len o.renewal
        pure ⟨⟩
      else pure ⟨⟩)
    else pure ⟨⟩

def serverWrite (nd : Node) (addr src len : Nat) (o : Found) : Code Lock Unit :=
  if src ≠ nd.self ∧ nd.home addr ≠ nd.self then breakPoint nd True
  else do
    enter .dir
    sendRenews nd addr src len o
    leave .dir

def serverWriteback (nd : Node) (addr : Nat) : Code Lock Unit := do
  breakPoint nd (nd.home addr ≠ nd.self)
  enter .dir
  leave .dir

def serverWriteMiss (nd : Node) (addr src inLen : Nat) (o : Found) : Code Lock CacheMessageKind := do
  breakPoint nd (src ≠ nd.self ∧ nd.home addr ≠ nd.self)
  enter .dir
  sendRenews nd addr src inLen o
  if src = nd.self ∧ ¬o.readable then do
    leave .dir
    return .replyBadAddress
  else do
    leave .dir
    return .replyOK

def serverReadMiss (nd : Node) (addr src : Nat) (o : Found) : Code Lock CacheMessageKind := do
  breakPoint nd (src ≠ nd.self ∧ nd.home addr ≠ nd.self)
  enter .dir
  if src = nd.self ∧ ¬o.readable then do
    leave .dir
    return .replyBadAddress
  else do
    leave .dir
    return .replyOK

/-! ## The client's side -/

/-- What a receive brings: whether all bytes have come, and the address and the kind in them. -/
structure Received where
  complete : Bool
  addr : Nat
  kind : CacheMessageKind

def writeback (nd : Node) (addr : Nat) : Code Lock Unit :=
  if nd.home addr = nd.self then serverWriteback nd addr else pure ()

def write (nd : Node) (addr len : Nat) (o : Found) (x : Received) : Code Lock Unit :=
  if nd.home addr = nd.self then serverWrite nd addr nd.self len o
  else do
    enter (.dataSocket (nd.home addr))
    if ¬x.complete then leave (.dataSocket (nd.home addr))
    else if x.addr ≠ addr then breakPoint nd True
    else leave (.dataSocket (nd.home addr))

/-- `WriteMiss`, and whether it returns `SoOK`. -/
def writeMiss (nd : Node) (addr : Nat) (o : Found) (x : Received) : Code Lock Bool :=
  if nd.home addr = nd.self then do
    let kind ← serverWriteMiss nd addr nd.self 1 o
    return kind = .replyOK
  else do
    enter (.dataSocket (nd.home addr))
    if ¬x.complete then do
      leave (.dataSocket (nd.home addr))
      return false
    else do
      leave (.dataSocket (nd.home addr))
      return x.kind = .replyOK ∧ x.addr = addr

/-- `ReadMiss`, and whether it returns `SoOK`. -/
def readMiss (nd : Node) (addr : Nat) (o : Found) (x : Received) : Code Lock Bool :=
  if nd.home addr = nd.self then do
    let kind ← serverReadMiss nd addr nd.self o
    return kind = .replyOK
  else do
    enter (.dataSocket (nd.home addr))
    if ¬x.complete then return false
    else do
      leave (.dataSocket (nd.home addr))
      breakPoint nd (x.kind = .replyOK ∧ x.addr ≠ addr)
      return x.kind = .replyOK ∧ x.addr = addr

/-! ## The cache -/

/-- What `getblock` finds: the block is in the hash table, a free block is in the queue, a
block is swapped out with its old key, or there is none. -/
inductive Slot
  | pending (b : Fin cacheSize)
  | queued (b : Fin cacheSize)
  | swapped (b : Fin cacheSize) (oldkey : Nat)
  | full

/-- `getblock`: the block and `is_pending`. A block that is not pending is returned locked. -/
def getblock (nd : Node) (slot : Slot) : Code Lock (Fin cacheSize × Bool) := do
  enter .queue
  enter .hash
  match slot with
  | .pending b => do
      leave .hash
      leave .queue
      return (b, true)
  | .swapped b oldkey => do
      leave .hash
      enter (.block b)
      enter .hash
      leave .hash
      leave .queue
      writeback nd oldkey
      return (b, false)
  | .queued b => do
      leave .hash
      enter .hash
      leave .hash
      enter (.block b)
      leave .queue
      return (b, false)
  | .full => do
      leave .hash
      halt .stopped

/-- A turn at the label `MISS`, and the key of a pending block. -/
structure Attempt where
  slot : Slot
  key : Nat

/-- What a call finds: the block in the hash table with its key, the turns at `MISS`, what the
server finds and what is received. -/
structure Outcome where
  found : Option (Fin cacheSize × Nat)
  attempts : List Attempt
  server : Found
  received : Received

/-- The code from the label `MISS` on, that `doput` and `doget` have in common; `joined` is for
a block that another thread has asked for, and `missed` for an own one. -/
def missLoop (nd : Node) (k : Nat) (joined missed : Code Lock Unit) : List Attempt → Code Lock Unit
  | [] => halt .running
  | a :: attempts => do
      let blk ← getblock nd a.slot
      if blk.2 then do
        enter (.block blk.1)
        if a.key ≠ k then do
          leave (.block blk.1)
          missLoop nd k joined missed attempts
        else do
          joined
          leave (.block blk.1)
      else do
        missed
        leave (.block blk.1)

/-- The common code of `doput` and `doget`. -/
def access (nd : Node) (k : Nat) (joined missed : Code Lock Unit) (o : Outcome) : Code Lock Unit := do
  enter .hash
  leave .hash
  match o.found with
  | some (b, key) => do
      enter (.block b)
      if key ≠ k then do
        leave (.block b)
        missLoop nd k joined missed o.attempts
      else do
        joined
        leave (.block b)
  | none => missLoop nd k joined missed o.attempts

/-- A failed miss leaves another key in the block. -/
def doput (nd : Node) (addr len : Nat) (o : Outcome) : Code Lock Unit :=
  access nd (blockBase addr) (write nd addr len o.server o.received)
    (do
      let ok ← writeMiss nd addr o.server o.received
      breakPoint nd (¬ok))
    o

def doget (nd : Node) (addr : Nat) (o : Outcome) : Code Lock Unit :=
  access nd (blockBase addr) (pure ())
    (do
      let ok ← readMiss nd (blockBase addr) o.server o.received
      breakPoint nd (¬ok))
    o

/-! ## What the functions do to the locks -/

section Balance

variable {nd : Node} {held : Multiset Lock}

@[simp] theorem runs_breakPoint (p : Prop) [Decidable p] (post : Unit → Multiset Lock → Prop) :
    Runs held (breakPoint nd p) post ↔ ((p → nd.survives = true) → post () held) := by
  rw [breakPoint, runs_ite]
  by_cases hp : p
  · cases nd.survives with
    | false => simp [hp]
    | true => simp
  · simp [hp]

theorem runs_renew (range : Nat × Nat) (addr : Nat) (r : Renewal)
    (post : Option (Fin cacheSize × Nat × Nat) → Multiset Lock → Prop) :
    Runs held (renew range addr r) post ↔
      match r.found with
      | none => post none held
      | some b =>
          if r.got then post none (.block b ::ₘ held)
          else .block b ∈ held ∧
            post (if r.key = blockBase addr then some (b, range) else none) (held.erase (.block b)) := by
  rw [renew]
  cases r.found with
  | none => simp
  | some b =>
      cases r.got with
      | false => simp [tryEnterReadRWLock, ebusy]
      | true => simp [tryEnterReadRWLock]

/-- A renewal changes the locks if and only if it finds the block: it keeps the lock that it
gets, and releases the one that it does not get. -/
theorem keeps_renew (range : Nat × Nat) (addr : Nat) (r : Renewal) :
    Keeps held (renew range addr r) ↔ r.found = none := by
  rw [Keeps, runs_renew]
  cases r.found with
  | none => simp
  | some b =>
      cases r.got with
      | false => simpa using fun hb => erase_ne hb
      | true => simpa using ne_cons held (.block b)

/-- The own cache is in the directory, and the request is another cache's. -/
def RenewsSelf (nd : Node) (src : Nat) (o : Found) : Prop := o.old.getLsbD nd.self ∧ src ≠ nd.self

instance (src : Nat) (o : Found) : Decidable (RenewsSelf nd src o) :=
  inferInstanceAs (Decidable (_ ∧ _))

theorem sendRenews_eq (addr src len : Nat) (o : Found) :
    sendRenews nd addr src len o =
      if RenewsSelf nd src o then (do let _ ← serverRenew addr len o.renewal; pure ⟨⟩) else pure ⟨⟩ := by
  rw [sendRenews, forM_single List.nodup_range]
  apply if_congr
  · simp [nd.placed, RenewsSelf]
  · rfl
  · rfl

/-- The locks are as before after the renewals, or the locks after them are other ones. -/
theorem runs_sendRenews (addr src len : Nat) (o : Found) (l : Lock) :
    Runs (l ::ₘ held) (sendRenews nd addr src len o) (fun _ held' => l ∈ held' ∧ held'.erase l = held) ↔
      (RenewsSelf nd src o → o.renewal.found = none) := by
  rw [sendRenews_eq, runs_ite, runs_bind]
  simp only [runs_pure, mem_and_erase_eq, implies_true, and_true]
  exact imp_congr_right fun _ => keeps_renew _ _ _

theorem keeps_serverWrite (addr src len : Nat) (o : Found) :
    Keeps held (serverWrite nd addr src len o) ↔
      (src ≠ nd.self ∧ nd.home addr ≠ nd.self ∨ (RenewsSelf nd src o → o.renewal.found = none)) := by
  rw [Keeps, serverWrite, runs_ite]
  simp only [runs_breakPoint, runs_bind, runs_enter, runs_leave, runs_sendRenews, implies_true, true_and]
  exact or_iff_not_imp_left.symm

theorem keeps_serverWriteback (addr : Nat) : Keeps held (serverWriteback nd addr) := by
  simp [Keeps, serverWriteback]

theorem keeps_serverReadMiss (addr src : Nat) (o : Found) : Keeps held (serverReadMiss nd addr src o) := by
  rw [Keeps, serverReadMiss]
  simp [runs_ite]

theorem keeps_serverWriteMiss (addr src len : Nat) (o : Found) :
    Keeps held (serverWriteMiss nd addr src len o) ↔
      (src ≠ nd.self ∧ nd.home addr ≠ nd.self ∧ ¬nd.survives ∨
        (RenewsSelf nd src o → o.renewal.found = none)) := by
  rw [Keeps, serverWriteMiss]
  simp only [runs_breakPoint, runs_bind, runs_enter, runs_leave, runs_ite, runs_pure,
    Classical.imp_and_neg_imp_iff, runs_sendRenews]
  rw [← and_assoc, or_iff_not_imp_left]
  simp

/-! ### The client's side -/

/-- A reply that names another address ends the process. -/
def WriteClean (nd : Node) (addr : Nat) (x : Received) : Prop :=
  nd.home addr ≠ nd.self → x.complete → x.addr = addr ∨ ¬nd.survives

theorem keeps_write (addr len : Nat) (o : Found) (x : Received) :
    Keeps held (write nd addr len o x) ↔ WriteClean nd addr x := by
  rw [write, WriteClean]
  by_cases hhome : nd.home addr = nd.self
  · simp [hhome, keeps_serverWrite, RenewsSelf]
  · rw [if_neg hhome, Keeps]
    cases x.complete with
    | false => simp
    | true =>
        by_cases haddr : x.addr = addr
        · simp [haddr]
        · simp [haddr, hhome, ne_cons]

theorem keeps_writeMiss (addr : Nat) (o : Found) (x : Received) : Keeps held (writeMiss nd addr o x) := by
  rw [writeMiss]
  by_cases hhome : nd.home addr = nd.self
  · rw [if_pos hhome, Keeps, runs_bind]
    apply Keeps.runs _ (fun _ => by simp)
    rw [keeps_serverWriteMiss]
    simp [RenewsSelf]
  · rw [if_neg hhome, Keeps]
    cases x.complete with
    | false => simp
    | true => simp

/-- The receive brings all bytes. -/
def ReadClean (nd : Node) (addr : Nat) (x : Received) : Prop := nd.home addr ≠ nd.self → x.complete

theorem runs_readMiss (addr : Nat) (o : Found) (x : Received) (p : Bool → Prop) :
    Runs held (readMiss nd addr o x) (fun ok held' => p ok → held' = held) ↔
      (ReadClean nd addr x ∨ ¬p false) := by
  rw [readMiss, ReadClean]
  by_cases hhome : nd.home addr = nd.self
  · rw [if_pos hhome, runs_bind]
    refine iff_of_true ?_ (by simp [hhome])
    apply Keeps.runs (keeps_serverReadMiss _ _ _)
    simp
  · rw [if_neg hhome]
    cases x.complete with
    | false => simp [hhome, ne_cons]
    | true => simp

theorem keeps_readMiss (addr : Nat) (o : Found) (x : Received) :
    Keeps held (readMiss nd addr o x) ↔ ReadClean nd addr x := by
  simpa [Keeps] using @runs_readMiss nd held addr o x fun _ => True

/-! ### The cache -/

@[simp] theorem runs_writeback (addr : Nat) (post : Unit → Multiset Lock → Prop) :
    Runs held (writeback nd addr) post ↔ post () held := by
  rw [writeback, runs_ite, serverWriteback]
  by_cases hhome : nd.home addr = nd.self
  · simp [hhome]
  · simp [hhome]

theorem runs_getblock (slot : Slot) (post : Fin cacheSize × Bool → Multiset Lock → Prop) :
    Runs held (getblock nd slot) post ↔
      match slot with
      | .pending b => post (b, true) held
      | .queued b => post (b, false) (.block b ::ₘ held)
      | .swapped b _ => post (b, false) (.block b ::ₘ held)
      | .full => True := by
  cases slot with
  | pending b => simp [getblock]
  | queued b => simp [getblock]
  | swapped b oldkey => simp [getblock]
  | full => simp [getblock]

/-- The turn goes back to `MISS`: the pending block has another key. -/
def Attempt.retried (k : Nat) (a : Attempt) : Bool :=
  match a.slot with
  | .pending _ => a.key ≠ k
  | _ => false

/-- The turn gets a block that another thread has asked for. -/
def Attempt.joins (a : Attempt) : Bool :=
  match a.slot with
  | .pending _ => true
  | _ => false

/-- The turn gets a block of its own. -/
def Attempt.misses (a : Attempt) : Bool :=
  match a.slot with
  | .queued _ => true
  | .swapped _ _ => true
  | _ => false

/-- The turn that does not go back to `MISS`. -/
def settling (k : Nat) (attempts : List Attempt) : Option Attempt := attempts.find? fun a => !a.retried k

/-- The block in the hash table has the key. -/
def Outcome.hit (k : Nat) (o : Outcome) : Bool := o.found.any fun e => e.2 = k

/-- The call comes out of the loop at `MISS`, if it gets there. -/
def Outcome.settles (k : Nat) (o : Outcome) : Bool := o.hit k || (settling k o.attempts).isSome

/-- The call uses a block that it has found, at first or at `MISS`. -/
def Outcome.joins (k : Nat) (o : Outcome) : Bool := o.hit k || (settling k o.attempts).any Attempt.joins

/-- The call fetches the block. -/
def Outcome.misses (k : Nat) (o : Outcome) : Bool := !o.hit k && (settling k o.attempts).any Attempt.misses

section Access

variable {joined missed : Code Lock Unit} {J M : Prop}

theorem keeps_missLoop (hjoined : ∀ held, Keeps held joined ↔ J) (hmissed : ∀ held, Keeps held missed ↔ M)
    {k : Nat} {attempts : List Attempt} (hsettled : (settling k attempts).isSome) :
    Keeps held (missLoop nd k joined missed attempts) ↔
      ((settling k attempts).any Attempt.joins → J) ∧ ((settling k attempts).any Attempt.misses → M) := by
  induction attempts with
  | nil => cases hsettled
  | cons a attempts ih =>
      rw [Keeps] at ih
      rw [Keeps, missLoop, runs_bind, runs_getblock]
      rcases a with ⟨slot, key⟩
      cases slot with
      | pending b =>
          by_cases hkey : key = k
          · simp [settling, Attempt.retried, Attempt.joins, Attempt.misses, hkey, runs_section, hjoined]
          · have hsettling : settling k (⟨.pending b, key⟩ :: attempts) = settling k attempts := by
              simp [settling, Attempt.retried, hkey]
            rw [hsettling] at hsettled
            simpa [hsettling, hkey] using ih hsettled
      | queued b => simp [settling, Attempt.retried, Attempt.joins, Attempt.misses, runs_section, hmissed]
      | swapped b oldkey => simp [settling, Attempt.retried, Attempt.joins, Attempt.misses, runs_section, hmissed]
      | full => simp [settling, Attempt.retried, Attempt.joins, Attempt.misses]

theorem keeps_access (hjoined : ∀ held, Keeps held joined ↔ J) (hmissed : ∀ held, Keeps held missed ↔ M)
    {k : Nat} {o : Outcome} (hsettled : o.settles k) :
    Keeps held (access nd k joined missed o) ↔ (o.joins k → J) ∧ (o.misses k → M) := by
  have hloop (h : (settling k o.attempts).isSome) :=
    @keeps_missLoop nd held _ _ _ _ hjoined hmissed k o.attempts h
  simp only [Keeps] at hloop
  rw [Outcome.settles, Outcome.hit] at hsettled
  rw [Keeps, access, Outcome.joins, Outcome.misses, Outcome.hit]
  rcases hfound : o.found with _ | ⟨b, key⟩
  · simp only [hfound, Option.any_none, Bool.false_or] at hsettled
    simpa using hloop hsettled
  · by_cases hkey : key = k
    · simp [hkey, runs_section, hjoined]
    · simp only [hfound, Option.any_some, hkey, decide_false, Bool.false_or] at hsettled
      simpa [hkey] using hloop hsettled

theorem statePure_apply {α : Type} (a : α) (held : Multiset Lock) :
    (StateT.pure a : Code Lock α) held = .ok (a, held) := rfl

/-- A turn that goes back to `MISS` leaves the locks as they are. -/
theorem missLoop_retried {k : Nat} {a : Attempt} (ha : a.retried k) (attempts : List Attempt) :
    missLoop nd k joined missed (a :: attempts) held = missLoop nd k joined missed attempts held := by
  rcases a with ⟨slot, key⟩
  cases slot with
  | pending b =>
      have hkey : key ≠ k := by simpa [Attempt.retried] using ha
      simp [missLoop, getblock, enter, leave, hkey, bind, StateT.bind, Except.bind, pure, statePure_apply]
  | queued b => simp [Attempt.retried] at ha
  | swapped b oldkey => simp [Attempt.retried] at ha
  | full => simp [Attempt.retried] at ha

theorem missLoop_running {k : Nat} {attempts : List Attempt} (hrunning : settling k attempts = none) :
    missLoop nd k joined missed attempts held = .error .running := by
  induction attempts with
  | nil => rfl
  | cons a attempts ih =>
      rw [settling, List.find?_eq_none] at hrunning
      have ha : a.retried k := by simpa using hrunning a List.mem_cons_self
      rw [missLoop_retried ha]
      apply ih
      rw [settling, List.find?_eq_none]
      exact fun a' ha' => hrunning a' (List.mem_cons_of_mem a ha')

theorem access_running {k : Nat} {o : Outcome} (hrunning : ¬o.settles k) :
    access nd k joined missed o held = .error .running := by
  rw [Outcome.settles, Outcome.hit, Bool.or_eq_true, not_or, Option.not_isSome_iff_eq_none] at hrunning
  have hloop := @missLoop_running nd held joined missed _ _ hrunning.2
  rw [access]
  rcases hfound : o.found with _ | ⟨b, key⟩
  · simp [enter, leave, hloop, bind, StateT.bind, Except.bind]
  · have hkey : key ≠ k := by simpa [hfound] using hrunning.1
    simp [enter, leave, hkey, hloop, bind, StateT.bind, Except.bind]

end Access

/-- A miss of `doput` releases the lock of the socket on every path. -/
theorem keeps_doput {addr : Nat} (len : Nat) {o : Outcome} (hsettled : o.settles (blockBase addr)) :
    Keeps held (doput nd addr len o) ↔ (o.joins (blockBase addr) → WriteClean nd addr o.received) := by
  have hmissed : ∀ held, Keeps held (do
      let ok ← writeMiss nd addr o.server o.received
      breakPoint nd (¬ok)) ↔ True := by
    intro held
    rw [iff_true, Keeps, runs_bind]
    apply (keeps_writeMiss _ _ _).runs
    simp
  rw [doput, keeps_access (fun _ => keeps_write _ _ _ _) hmissed hsettled]
  simp

/-- A short receive of `doget` leaves the lock of the socket held, if the process goes on after
the key error that follows. -/
theorem keeps_doget {addr : Nat} {o : Outcome} (hsettled : o.settles (blockBase addr)) :
    Keeps held (doget nd addr o) ↔
      (o.misses (blockBase addr) → ReadClean nd (blockBase addr) o.received ∨ ¬nd.survives) := by
  have hmissed : ∀ held, Keeps held (do
      let ok ← readMiss nd (blockBase addr) o.server o.received
      breakPoint nd (¬ok)) ↔ ReadClean nd (blockBase addr) o.received ∨ ¬nd.survives := by
    intro held
    rw [Keeps, runs_bind]
    simpa using runs_readMiss (blockBase addr) o.server o.received fun ok => ¬ok → nd.survives = true
  have hjoined : ∀ held, Keeps held (pure () : Code Lock Unit) ↔ True := by
    intro held
    simp [Keeps]
  rw [doget, keeps_access hjoined hmissed hsettled]
  simp

end Balance

/-! ## The calls -/

/-- A call of a function of the cache or of its protocol, with what it meets. -/
inductive Call
  | serverRenew (addr len : Nat) (r : Renewal)
  | serverRenewChunk (addr : Nat) (r : Renewal)
  | serverWrite (addr src len : Nat) (o : Found)
  | serverWriteback (addr : Nat)
  | serverWriteMiss (addr src inLen : Nat) (o : Found)
  | serverReadMiss (addr src : Nat) (o : Found)
  | write (addr len : Nat) (o : Found) (x : Received)
  | writeMiss (addr : Nat) (o : Found) (x : Received)
  | readMiss (addr : Nat) (o : Found) (x : Received)
  | doput (addr len : Nat) (o : Outcome)
  | doget (addr : Nat) (o : Outcome)

/-- What a renewal is to copy: the words, if it has got the lock of a block with the key. -/
def Renewal.copies (r : Renewal) (range : Nat × Nat) (addr : Nat) : Option (Fin cacheSize × Nat × Nat) :=
  if r.got ∧ r.key = blockBase addr then r.found.map fun b => (b, range) else none

/-- The loop at `MISS` is left with the locks of the start, and goes on as long as the blocks have
other keys. -/
def Loops (held : Multiset Lock) (o : Outcome) (k : Nat) (c : Code Lock Unit) : Prop :=
  (o.settles k → Keeps held c) ∧ (¬o.settles k → c held = .error .running)

/-- The call keeps the locks, and a renewal copies if and only if it has got the lock of a
matching block. -/
def Call.Balanced (nd : Node) (held : Multiset Lock) : Call → Prop
  | .serverRenew addr len r =>
      Runs held (CacheLocks.serverRenew addr len r) fun copied held' =>
        held' = held ∧ copied = r.copies (addr % blockSize, len) addr
  | .serverRenewChunk addr r =>
      Runs held (CacheLocks.serverRenewChunk addr r) fun copied held' =>
        held' = held ∧ copied = r.copies (0, blockSize) addr
  | .serverWrite addr src len o => Keeps held (CacheLocks.serverWrite nd addr src len o)
  | .serverWriteback addr => Keeps held (CacheLocks.serverWriteback nd addr)
  | .serverWriteMiss addr src inLen o => Keeps held (CacheLocks.serverWriteMiss nd addr src inLen o)
  | .serverReadMiss addr src o => Keeps held (CacheLocks.serverReadMiss nd addr src o)
  | .write addr len o x => Keeps held (CacheLocks.write nd addr len o x)
  | .writeMiss addr o x => Keeps held (CacheLocks.writeMiss nd addr o x)
  | .readMiss addr o x => Keeps held (CacheLocks.readMiss nd addr o x)
  | .doput addr len o => Loops held o (blockBase addr) (CacheLocks.doput nd addr len o)
  | .doget addr o => Loops held o (blockBase addr) (CacheLocks.doget nd addr o)

/-- No renewal finds its block, no reply of a write names another address, and no receive of a read
is short. -/
def Call.Clean (nd : Node) : Call → Prop
  | .serverRenew _ _ r => r.found = none
  | .serverRenewChunk _ r => r.found = none
  | .serverWrite addr src _ o =>
      src ≠ nd.self ∧ nd.home addr ≠ nd.self ∨ (RenewsSelf nd src o → o.renewal.found = none)
  | .serverWriteMiss addr src _ o =>
      src ≠ nd.self ∧ nd.home addr ≠ nd.self ∧ ¬nd.survives ∨ (RenewsSelf nd src o → o.renewal.found = none)
  | .write addr _ _ x => WriteClean nd addr x
  | .readMiss addr _ x => ReadClean nd addr x
  | .doput addr _ o => o.joins (blockBase addr) → WriteClean nd addr o.received
  | .doget addr o => o.misses (blockBase addr) → ReadClean nd (blockBase addr) o.received ∨ ¬nd.survives
  | .serverWriteback _ => True
  | .serverReadMiss _ _ _ => True
  | .writeMiss _ _ _ => True

section Calls

variable {nd : Node} {held : Multiset Lock}

theorem renews_iff (range : Nat × Nat) (addr : Nat) (r : Renewal) :
    (Runs held (renew range addr r) fun copied held' => held' = held ∧ copied = r.copies range addr) ↔
      r.found = none := by
  constructor
  · intro h
    apply (@keeps_renew held range addr r).mp
    exact h.mono fun _ _ => And.left
  · intro h
    rw [runs_renew, h]
    simp [Renewal.copies, h]

theorem loops_iff {o : Outcome} {k : Nat} {c : Code Lock Unit} {P : Prop}
    (hkeeps : o.settles k → (Keeps held c ↔ P)) (hrunning : ¬o.settles k → c held = .error .running)
    (hvacuous : ¬o.settles k → P) : Loops held o k c ↔ P := by
  rw [Loops]
  by_cases hsettled : o.settles k
  · simp [hsettled, hkeeps hsettled]
  · exact iff_of_true ⟨fun h => absurd h hsettled, hrunning⟩ (hvacuous hsettled)

theorem Outcome.settles_of_joins {k : Nat} {o : Outcome} (h : o.joins k) : o.settles k := by
  rw [Outcome.joins, Bool.or_eq_true] at h
  rw [Outcome.settles, Bool.or_eq_true]
  apply h.imp_right
  cases settling k o.attempts with
  | none => simp
  | some a => simp

theorem Outcome.settles_of_misses {k : Nat} {o : Outcome} (h : o.misses k) : o.settles k := by
  rw [Outcome.misses, Bool.and_eq_true] at h
  rw [Outcome.settles, Bool.or_eq_true]
  right
  revert h
  cases settling k o.attempts with
  | none => simp
  | some a => simp

end Calls

/-- A call is balanced if and only if it meets none of the three slips. -/
theorem Call.balanced_iff (nd : Node) (held : Multiset Lock) (call : Call) :
    call.Balanced nd held ↔ call.Clean nd := by
  cases call with
  | serverRenew addr len r => exact renews_iff _ _ _
  | serverRenewChunk addr r => exact renews_iff _ _ _
  | serverWrite addr src len o => exact keeps_serverWrite _ _ _ _
  | serverWriteback addr => exact iff_of_true (keeps_serverWriteback _) trivial
  | serverWriteMiss addr src inLen o => exact keeps_serverWriteMiss _ _ _ _
  | serverReadMiss addr src o => exact iff_of_true (keeps_serverReadMiss _ _ _) trivial
  | write addr len o x => exact keeps_write _ _ _ _
  | writeMiss addr o x => exact iff_of_true (keeps_writeMiss _ _ _) trivial
  | readMiss addr o x => exact keeps_readMiss _ _ _
  | doput addr len o =>
      apply loops_iff (keeps_doput len) access_running
      exact fun hrunning hjoins => absurd (Outcome.settles_of_joins hjoins) hrunning
  | doget addr o =>
      apply loops_iff keeps_doget access_running
      exact fun hrunning hmisses => absurd (Outcome.settles_of_misses hmisses) hrunning

/-- A renewal that gets the lock of the block keeps it and copies nothing; one that does not get it
releases it. A read miss whose receive is short keeps the lock of the socket. -/
theorem renewal_with_lock_copies_nothing :
    let nd : Node := ⟨0, 2, by decide, true⟩
    let b : Fin cacheSize := ⟨0, by decide⟩
    serverRenew 0 1 ⟨some b, true, 0⟩ 0 = .ok (none, {.block b}) ∧
      serverRenew 0 1 ⟨some b, false, 0⟩ 0 = .error .notHeld ∧
      readMiss nd blockSize ⟨0, ⟨none, false, 0⟩, true⟩ ⟨false, 0, .replyOK⟩ 0 =
        .ok (false, {.dataSocket 1}) ∧
      ¬(Call.serverRenew 0 1 ⟨some b, true, 0⟩).Balanced nd 0 ∧
      ¬(Call.serverRenew 0 1 ⟨some b, false, 0⟩).Balanced nd 0 ∧
      ¬(Call.readMiss blockSize ⟨0, ⟨none, false, 0⟩, true⟩ ⟨false, 0, .replyOK⟩).Balanced nd 0 := by
  intro nd b
  refine ⟨rfl, rfl, rfl, ?_, ?_, ?_⟩
  · intro h
    cases (@renews_iff 0 (0 % blockSize, 1) 0 ⟨some b, true, 0⟩).mp h
  · intro h
    cases (@renews_iff 0 (0 % blockSize, 1) 0 ⟨some b, false, 0⟩).mp h
  · intro h
    cases (keeps_readMiss _ _ _).mp h (by decide)

end Dogee.CacheLocks
