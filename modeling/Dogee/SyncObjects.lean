import Dogee.SyncSystem
import Dogee.SemaphoreGrants

/-!
# New and deleted synchronisation objects

The manager makes the node of an object when the first message about it comes, from what the constructor
has left in the shared memory. Two things go wrong. The `Release` handler takes the count that it reads
for an address, so a semaphore cannot begin with a `Release`. And `DelObj` tells the manager nothing: the
node stays, and an object that gets the key of a deleted one is handled from it.
-/

namespace Dogee.SyncManager

open Transition SyncSystem

/-- A synchronisation object as its constructor is given it; a count is an `int` by its bits. -/
inductive Object
  | barrier (count : Word)
  | semaphore (count : Word)
  | event (autoReset isSignal : Bool)
deriving DecidableEq, Repr

namespace Object

def kind : Object → Kind
  | barrier _ => .barrier
  | semaphore _ => .semaphore
  | event _ _ => .event

/-- A `bool` that is stored as an `int`. -/
def flag (b : Bool) : Word := if b then 1 else 0

/-- What the constructor writes: a field takes two words. -/
def write (fields : Nat → Word) : Object → Nat → Word
  | barrier count => Function.update fields 0 count
  | semaphore count => Function.update fields 0 count
  | event autoReset isSignal => Function.update (Function.update fields 0 (flag autoReset)) 2 (flag isSignal)

/-- The node of an object that no message has reached, as its constructor says. -/
def node : Object → SyncNode
  | barrier count => ⟨.barrier, 0, toInt count, []⟩
  | semaphore count => newSemaphore (toInt count)
  | event autoReset isSignal => ⟨.event, if isSignal then 1 else 0, if autoReset then 1 else 0, []⟩

/-- The object is in the memory as its constructor has left it. -/
def Written (fields : Nat → Word) : Object → Prop
  | barrier count => fields 0 = count
  | semaphore count => fields 0 = count
  | event autoReset isSignal => fields 0 = flag autoReset ∧ fields 2 = flag isSignal

theorem written_write (fields : Nat → Word) (o : Object) : o.Written (o.write fields) := by
  cases o with
  | barrier count => exact Function.update_self 0 count fields
  | semaphore count => exact Function.update_self 0 count fields
  | event autoReset isSignal =>
      refine ⟨?_, ?_⟩
      · rw [write, Function.update_of_ne (by decide), Function.update_self]
      · rw [write, Function.update_self]

theorem toInt_flag (b : Bool) : toInt (flag b) = if b then 1 else 0 := by
  cases b <;> rfl

end Object

/-! ## Messages -/

/-- A message to the manager: the sender and its thread, and what it asks for. -/
inductive Message
  | wait (src threadId : Nat) (op : WaitOp)
  | post (op : PostOp)
deriving DecidableEq, Repr

namespace Message

def object : Message → ObjectKey
  | wait _ _ op => op.object
  | post op => op.object

/-- The kind of object that sends it. -/
def kind : Message → Kind
  | wait _ _ (.enterBarrier _) => .barrier
  | wait _ _ (.enterSemaphore _) => .semaphore
  | wait _ _ (.waitForEvent _) => .event
  | post (.leaveSemaphore _) => .semaphore
  | post (.setEvent _) => .event
  | post (.resetEvent _) => .event

def IsRelease : Message → Prop
  | post (.leaveSemaphore _) => True
  | _ => False

instance (msg : Message) : Decidable msg.IsRelease := by
  cases msg with
  | wait src threadId op => exact .isFalse id
  | post op =>
      cases op with
      | leaveSemaphore id => exact .isTrue trivial
      | setEvent id => exact .isFalse fun h => h
      | resetEvent id => exact .isFalse fun h => h

end Message

/-- The handler of a message. -/
def handle (dsm : Dsm) (m : Manager) : Message → Option (Manager × List SyncThreadNode)
  | .wait src threadId op => some (waitMsg dsm m src threadId op)
  | .post op => postMsg dsm m op

section Handle

variable {dsm : Dsm} {m : Manager} {msg : Message}

theorem Manager.put_put (m : Manager) (id : ObjectKey) (node node' : SyncNode) :
    (m.put id node).put id node' = m.put id node' := by
  rw [Manager.put, Manager.put, Manager.put, Function.update_idem]

theorem Manager.put_of_node {m : Manager} {id : ObjectKey} {node : SyncNode} (h : m.syncData id = some node) :
    m.put id node = m := by
  rw [Manager.put, ← h, Function.update_eq_self]

/-- The node that is made of what is in the memory. -/
def nodeFrom (dsm : Dsm) (id : ObjectKey) : Kind → SyncNode
  | .barrier => ⟨.barrier, 0, toInt (dsm id 0), []⟩
  | .semaphore => newSemaphore (toInt (dsm id 0))
  | .event => ⟨.event, toInt (dsm id 2), toInt (dsm id 0), []⟩

theorem nodeFrom_written {o : Object} {id : ObjectKey} (h : o.Written (dsm id)) : nodeFrom dsm id o.kind = o.node := by
  cases o with
  | barrier count =>
      have hcount : dsm id 0 = count := h
      rw [Object.kind, nodeFrom, hcount, Object.node]
  | semaphore count =>
      have hcount : dsm id 0 = count := h
      rw [Object.kind, nodeFrom, hcount, Object.node]
  | event autoReset isSignal =>
      obtain ⟨hauto, hsignal⟩ : dsm id 0 = Object.flag autoReset ∧ dsm id 2 = Object.flag isSignal := h
      rw [Object.kind, nodeFrom, hauto, hsignal, Object.toInt_flag, Object.toInt_flag, Object.node]

/-- The first message makes the node and is then handled as any other, unless it is a `Release`. -/
theorem handle_first (hnone : m.syncData msg.object = none) (hrelease : ¬ msg.IsRelease) :
    handle dsm m msg = handle dsm (m.put msg.object (nodeFrom dsm msg.object msg.kind)) msg := by
  cases msg with
  | wait src threadId op =>
      cases op with
      | enterBarrier id =>
          have hnone : m.syncData id = none := hnone
          simp only [Message.object, WaitOp.object, Message.kind, nodeFrom, handle, waitMsg, barrierMsg, hnone,
            Manager.put_syncData, Option.getD_some, Option.getD_none, Manager.put_put]
      | enterSemaphore id =>
          have hnone : m.syncData id = none := hnone
          simp only [Message.object, WaitOp.object, Message.kind, nodeFrom, handle, waitMsg, semaphoreMsg, hnone,
            Manager.put_syncData, Option.getD_some, Option.getD_none, Manager.put_put]
      | waitForEvent id =>
          have hnone : m.syncData id = none := hnone
          simp only [Message.object, WaitOp.object, Message.kind, nodeFrom, handle, waitMsg, eventWaitMsg,
            createEventNode, hnone, Manager.put_syncData, Option.getD_some, Option.getD_none, Manager.put_put]
  | post op =>
      cases op with
      | leaveSemaphore id => exact absurd trivial hrelease
      | setEvent id =>
          have hnone : m.syncData id = none := hnone
          simp only [Message.object, PostOp.object, Message.kind, nodeFrom, handle, postMsg, setEventMsg,
            createEventNode, hnone, Manager.put_syncData, Option.getD_some, Option.getD_none, Manager.put_put]
      | resetEvent id =>
          have hnone : m.syncData id = none := hnone
          simp only [Message.object, PostOp.object, Message.kind, nodeFrom, handle, postMsg, resetEventMsg,
            createEventNode, hnone, Manager.put_syncData, Option.getD_some, Option.getD_none, Manager.put_put]

/-- A handler changes the node of its object only. -/
theorem handle_put {r : Manager × List SyncThreadNode} (h : handle dsm m msg = some r) :
    ∃ node, r.1 = m.put msg.object node := by
  cases msg with
  | wait src threadId op =>
      cases op with
      | enterBarrier id =>
          cases h
          simp only [waitMsg, barrierMsg]
          split <;> exact ⟨_, rfl⟩
      | enterSemaphore id =>
          cases h
          simp only [waitMsg, semaphoreMsg]
          split <;> exact ⟨_, rfl⟩
      | waitForEvent id =>
          cases h
          simp only [waitMsg, eventWaitMsg]
          split <;> exact ⟨_, rfl⟩
  | post op =>
      cases op with
      | leaveSemaphore id =>
          obtain ⟨node, _, rfl⟩ := Option.map_eq_some_iff.mp h
          dsimp only
          split
          · split <;> exact ⟨_, rfl⟩
          · exact ⟨_, rfl⟩
      | setEvent id =>
          cases h
          simp only [setEventMsg]
          split
          · split <;> exact ⟨_, rfl⟩
          · exact ⟨_, rfl⟩
      | resetEvent id =>
          cases h
          exact ⟨_, rfl⟩

end Handle

/-! ## The first message about a semaphore -/

section Semaphore

variable (dsm : Dsm) (id : ObjectKey)

/-- The counter, the queue and the wakes after a sequence of messages about a semaphore. -/
def semaphoreOutcome (m : Manager) (calls : List SemaphoreCall) :
    Option (Int × List SyncThreadNode × List SyncThreadNode) :=
  (run (semaphoreLogStep dsm id) ⟨m, [], [], 0⟩ calls).map fun l =>
    let node := (l.manager.syncData id).getD (nodeFrom dsm id .semaphore)
    (node.val, node.waiting, l.woken)

variable {dsm id}

theorem semaphoreLogStep_isSome {l : SemaphoreLog} (hnode : (l.manager.syncData id).isSome) (call : SemaphoreCall) :
    ∃ l', semaphoreLogStep dsm id l call = some l' ∧ (l'.manager.syncData id).isSome := by
  cases call with
  | acquire src threadId => exact ⟨_, rfl, semaphoreMsg_isSome dsm l.manager src id threadId⟩
  | release src threadId =>
      obtain ⟨r, hr, hnode'⟩ := semaphoreLeaveMsg_isSome hnode
      exact ⟨_, by rw [semaphoreLogStep, hr]; rfl, hnode'⟩

/-- A semaphore with a node has an outcome. -/
theorem semaphoreOutcome_isSome {m : Manager} (hnode : (m.syncData id).isSome) (calls : List SemaphoreCall) :
    (semaphoreOutcome dsm id m calls).isSome := by
  obtain ⟨l, hl⟩ := @exists_run _ _ (semaphoreLogStep dsm id) (fun l => (l.manager.syncData id).isSome)
    (fun _ call hnode => semaphoreLogStep_isSome hnode call) ⟨m, [], [], 0⟩ hnode calls
  rw [semaphoreOutcome, hl]
  rfl

/-- The semaphore that the first message makes is the one that is made from the count beforehand, exactly
when that message is not a `Release`. -/
theorem semaphoreOutcome_eq_iff (dsm : Dsm) (id : ObjectKey) (m : Manager) (calls : List SemaphoreCall)
    (hnone : m.syncData id = none) :
    semaphoreOutcome dsm id m calls = semaphoreOutcome dsm id (m.put id (newSemaphore (toInt (dsm id 0)))) calls ↔
      ∀ call ∈ calls.head?, ¬ call.IsRelease := by
  cases calls with
  | nil =>
      refine iff_of_true ?_ fun call hcall => by simp at hcall
      simp only [semaphoreOutcome, run_nil, Option.map_some, hnone, Option.getD_none, Manager.put_syncData,
        Option.getD_some]
      rfl
  | cons call rest =>
      cases call with
      | acquire src threadId =>
          refine iff_of_true ?_ fun call hcall => by
            rw [List.head?_cons, Option.mem_some_iff] at hcall
            rw [← hcall]
            exact fun h => h
          have hfirst := @handle_first dsm m (.wait src threadId (.enterSemaphore id)) hnone (fun h => h)
          have hmsg : semaphoreMsg dsm m src id threadId =
              semaphoreMsg dsm (m.put id (newSemaphore (toInt (dsm id 0)))) src id threadId := Option.some.inj hfirst
          rw [semaphoreOutcome, semaphoreOutcome, run_cons, run_cons, semaphoreLogStep, semaphoreLogStep, hmsg]
      | release src threadId =>
          refine iff_of_false ?_ fun h => h (.release src threadId) rfl trivial
          have hleft : semaphoreOutcome dsm id m (.release src threadId :: rest) = none := by
            rw [semaphoreOutcome, run_cons, semaphoreLogStep, semaphoreLeaveMsg, hnone]
            rfl
          have hright := @semaphoreOutcome_isSome dsm id (m.put id (newSemaphore (toInt (dsm id 0))))
            (by rw [Manager.put_syncData]; rfl) (.release src threadId :: rest)
          intro heq
          rw [← heq, hleft] at hright
          exact absurd hright Bool.false_ne_true

theorem semaphoreOutcome_acquire_release :
    semaphoreOutcome (fun _ _ => 1) 7 ⟨fun _ => none⟩ [.acquire 1 3, .acquire 2 3, .release 1 3] =
      semaphoreOutcome (fun _ _ => 1) 7 (Manager.put ⟨fun _ => none⟩ 7 (newSemaphore 1))
        [.acquire 1 3, .acquire 2 3, .release 1 3] :=
  (semaphoreOutcome_eq_iff (fun _ _ => 1) 7 ⟨fun _ => none⟩ [.acquire 1 3, .acquire 2 3, .release 1 3] rfl).mpr
    fun call hcall => by
      rw [List.head?_cons, Option.mem_some_iff] at hcall
      rw [← hcall]
      exact id

/-- A semaphore of count 1 whose first message is a `Release` has no outcome; the counter of one that is
made beforehand goes up to 2. -/
theorem release_first_not_handled :
    (⟨fun _ => none⟩ : Manager).syncData 7 = none ∧
      semaphoreOutcome (fun _ _ => 1) 7 ⟨fun _ => none⟩ [.release 1 3] ≠
        semaphoreOutcome (fun _ _ => 1) 7 (Manager.put ⟨fun _ => none⟩ 7 (newSemaphore 1)) [.release 1 3] ∧
      semaphoreOutcome (fun _ _ => 1) 7 (Manager.put ⟨fun _ => none⟩ 7 (newSemaphore 1)) [.release 1 3] =
        some (2, [], []) := by
  decide

end Semaphore

/-! ## Creating and deleting objects -/

structure Objects where
  dsm : Dsm
  manager : Manager
  live : ObjectKey → Option Object
  /-- the live objects that no message has reached yet -/
  untouched : ObjectKey → Bool

namespace Objects

inductive Act
  | newObj (key : ObjectKey) (o : Object)
  | message (msg : Message)
  | delObj (key : ObjectKey)
deriving DecidableEq, Repr

/-- A new object gets a key that is not in use. An object is sent the messages of its kind. `DelObj`
leaves the manager alone; the words of the object are gone. -/
def step (s : Objects) : Act → Option Objects
  | .newObj key o =>
      if s.live key = none then
        some { s with
          dsm := Function.update s.dsm key (o.write (s.dsm key))
          live := Function.update s.live key (some o)
          untouched := Function.update s.untouched key true }
      else none
  | .message msg =>
      if (s.live msg.object).map Object.kind = some msg.kind then
        (handle s.dsm s.manager msg).map fun r =>
          { s with manager := r.1, untouched := Function.update s.untouched msg.object false }
      else none
  | .delObj key =>
      if s.live key = none then none
      else
        some { s with
          dsm := Function.update s.dsm key fun _ => 0
          live := Function.update s.live key none
          untouched := Function.update s.untouched key false }

def start : Objects := ⟨fun _ _ => 0, ⟨fun _ => none⟩, fun _ => none, fun _ => false⟩

/-- The first message about an object is handled from what its constructor has written. -/
def FirstFromConstructor (s : Objects) : Act → Prop
  | .message msg => ∀ o, s.live msg.object = some o → o.kind = msg.kind → s.untouched msg.object = true →
      handle s.dsm s.manager msg = handle s.dsm (s.manager.put msg.object o.node) msg
  | _ => True

/-- A new object gets a key that the manager does not know, or knows as it would know the new object; and
a semaphore that the manager does not know is not released. -/
def KeyUnknown (s : Objects) : Act → Prop
  | .newObj key o => s.manager.syncData key = none ∨ s.manager.syncData key = some o.node
  | .message msg => s.untouched msg.object = true → msg.IsRelease → s.manager.syncData msg.object ≠ none
  | .delObj _ => True

/-- What holds of the objects that no message has reached. -/
def Inv (s : Objects) : Prop :=
  ∀ key, s.untouched key = true → ∃ o, s.live key = some o ∧ o.Written (s.dsm key) ∧
    (s.manager.syncData key = none ∨ s.manager.syncData key = some o.node)

variable {s : Objects}

theorem inv_start : start.Inv := fun _ h => absurd h Bool.false_ne_true

theorem inv_step {a : Act} {t : Objects} (hs : s.Inv) (hok : s.KeyUnknown a) (hstep : s.step a = some t) : t.Inv := by
  cases a with
  | newObj key o =>
      rw [step] at hstep
      split at hstep
      · cases hstep
        intro key' h
        by_cases hkey : key' = key
        · subst hkey
          refine ⟨o, Function.update_self _ _ _, ?_, hok⟩
          dsimp only
          rw [Function.update_self]
          exact o.written_write _
        · dsimp only at h ⊢
          rw [Function.update_of_ne hkey] at h ⊢
          rw [Function.update_of_ne hkey]
          exact hs key' h
      · cases hstep
  | message msg =>
      rw [step] at hstep
      split at hstep
      · obtain ⟨r, hr, rfl⟩ := Option.map_eq_some_iff.mp hstep
        obtain ⟨node, hnode⟩ := handle_put hr
        intro key h
        by_cases hkey : key = msg.object
        · subst hkey
          dsimp only at h
          rw [Function.update_self] at h
          exact absurd h Bool.false_ne_true
        · dsimp only at h ⊢
          rw [Function.update_of_ne hkey] at h
          rw [hnode, Manager.put]
          dsimp only
          rw [Function.update_of_ne hkey]
          exact hs key h
      · cases hstep
  | delObj key =>
      rw [step] at hstep
      split at hstep
      · cases hstep
      · cases hstep
        intro key' h
        by_cases hkey : key' = key
        · subst hkey
          dsimp only at h
          rw [Function.update_self] at h
          exact absurd h Bool.false_ne_true
        · dsimp only at h ⊢
          rw [Function.update_of_ne hkey] at h ⊢
          rw [Function.update_of_ne hkey]
          exact hs key' h

theorem firstFromConstructor_of_inv (hs : s.Inv) {a : Act} (hok : s.KeyUnknown a) : s.FirstFromConstructor a := by
  cases a with
  | newObj key o => trivial
  | delObj key => trivial
  | message msg =>
      intro o hlive hkind huntouched
      obtain ⟨o', hlive', hwritten, hnode⟩ := hs msg.object huntouched
      obtain rfl : o = o' := Option.some.inj (hlive.symm.trans hlive')
      rcases hnode with hnone | hsome
      · have hrelease : ¬ msg.IsRelease := fun h => hok huntouched h hnone
        rw [handle_first hnone hrelease, ← hkind, nodeFrom_written hwritten]
      · rw [Manager.put_of_node hsome]

/-- In every run in which no new object gets a key that the manager knows from before, the first message
about every object is handled from what its constructor has written. -/
theorem first_from_constructor (acts : List Act) (hok : Along step KeyUnknown start acts) :
    Along step FirstFromConstructor start acts :=
  Along.imp (fun _ _ _ hs hok hstep => inv_step hs hok hstep)
    (fun _ _ hs hok => firstFromConstructor_of_inv hs hok) inv_start hok

instance (s : Objects) (a : Act) : Decidable (s.KeyUnknown a) :=
  match a with
  | .newObj _ _ => inferInstanceAs (Decidable (_ ∨ _))
  | .message _ => inferInstanceAs (Decidable (_ → _ → _))
  | .delObj _ => .isTrue trivial

/-- A semaphore is used and deleted, and an event is made under another key. -/
def twoKeys : List Act :=
  [.newObj 7 (.semaphore 1), .message (.wait 1 3 (.enterSemaphore 7)), .message (.post (.leaveSemaphore 7)),
    .delObj 7, .newObj 8 (.event true false), .message (.post (.setEvent 8)), .message (.wait 2 3 (.waitForEvent 8))]

theorem first_from_constructor_twoKeys :
    (run step start twoKeys).isSome ∧ Along step FirstFromConstructor start twoKeys :=
  ⟨by decide, first_from_constructor twoKeys (along_of_check (by decide))⟩

/-- A semaphore of count 1 is acquired and deleted, and a new one gets its key. -/
def keyUsedAgain : List Act :=
  [.newObj 7 (.semaphore 1), .message (.wait 1 3 (.enterSemaphore 7)), .delObj 7, .newObj 7 (.semaphore 1),
    .message (.wait 2 3 (.enterSemaphore 7))]

/-- The thread that acquires the new semaphore first has to wait, although its count is 1. -/
theorem deleted_node_used_again :
    (run step start keyUsedAgain).isSome ∧ ¬ Along step FirstFromConstructor start keyUsedAgain := by
  refine ⟨by decide, fun hall => ?_⟩
  have hlast := ((((hall.2 _ rfl).2 _ rfl).2 _ rfl).2 _ rfl).1
  have hwakes := congrArg (Option.map Prod.snd) (hlast (.semaphore 1) (by decide) rfl (by decide))
  exact absurd hwakes (by decide)

end Objects

end Dogee.SyncManager
