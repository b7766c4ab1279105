import Dogee.Machine
import Dogee.SyncManager

/-!
# Events

An event is documented as a flag and a queue of waiting threads. In automatic mode a
`Set` hands the signal to one thread, in manual mode to all of them. The node of an
event on the master behaves as that event, whatever the messages and wherever its
start state comes from; what the documentation says about whole histories follows
from it.
-/

namespace Dogee.SyncManager

open Machine

/-- A message about an event, with the thread it comes from. -/
inductive EventCall
  | wait (src threadId : Nat)
  | set (src : Nat)
  | reset (src : Nat)
deriving DecidableEq, Repr

namespace EventCall

def IsSet : EventCall → Prop
  | .set _ => True
  | _ => False

def IsReset : EventCall → Prop
  | .reset _ => True
  | _ => False

instance : DecidablePred IsSet := fun call => by
  cases call <;> unfold IsSet <;> infer_instance

end EventCall

/-- Handle one message about the event `id`. -/
def eventMsg (dsm : Dsm) (id : ObjectKey) (m : Manager) : EventCall → Manager × List SyncThreadNode
  | .wait src threadId => eventWaitMsg dsm m src id threadId
  | .set _ => setEventMsg dsm m id
  | .reset _ => resetEventMsg dsm m id

/-- The event as it is documented. -/
@[ext] structure Event where
  autoReset : Bool
  signalled : Bool
  queue : List SyncThreadNode
deriving DecidableEq, Repr

/-- What the event does with a message, and the threads it wakes. -/
def Event.handle (e : Event) : EventCall → Event × List SyncThreadNode
  | .wait src threadId =>
      if e.signalled then ({ e with signalled := !e.autoReset }, [⟨src, threadId⟩])
      else ({ e with queue := e.queue ++ [⟨src, threadId⟩] }, [])
  | .set _ =>
      if e.autoReset then
        match e.queue with
        | [] => ({ e with signalled := true }, [])
        | th :: rest => ({ e with signalled := false, queue := rest }, [th])
      else ({ e with signalled := true, queue := [] }, e.queue)
  | .reset _ => ({ e with signalled := false }, [])

/-- The event that a node of the manager stands for. -/
def eventOf (dsm : Dsm) (id : ObjectKey) (m : Manager) : Event :=
  let node := createEventNode dsm m id
  ⟨node.data ≠ 0, node.val ≠ 0, node.waiting⟩

/-- A manager that has no node for `id` yet. -/
def Manager.without (m : Manager) (id : ObjectKey) : Manager :=
  ⟨Function.update m.syncData id none⟩

variable (dsm : Dsm) (id : ObjectKey)

@[simp] theorem eventOf_put (m : Manager) (node : SyncNode) :
    eventOf dsm id (m.put id node) = ⟨node.data ≠ 0, node.val ≠ 0, node.waiting⟩ := by
  simp [eventOf, createEventNode]

/-- An event starts in the mode and the state that its object says. -/
theorem eventOf_without (m : Manager) :
    eventOf dsm id (m.without id) = ⟨toInt (dsm id 0) ≠ 0, toInt (dsm id 2) ≠ 0, []⟩ := by
  simp [eventOf, createEventNode, Manager.without]

/-- The manager's node behaves as the documented event. -/
theorem eventMsg_refines : Refines (eventMsg dsm id) Event.handle (eventOf dsm id) := by
  intro m call
  obtain ⟨node, hnode⟩ : ∃ node, createEventNode dsm m id = node := ⟨_, rfl⟩
  have heq : eventOf dsm id m = ⟨node.data ≠ 0, node.val ≠ 0, node.waiting⟩ := by
    rw [eventOf, hnode]
  rw [heq]
  cases call with
  | wait src threadId =>
      simp only [eventMsg, eventWaitMsg, Event.handle, hnode, decide_eq_true_eq]
      by_cases hval : node.val = 0
      · simp [hval]
      · by_cases hdata : node.data = 0 <;> simp [hval, hdata]
  | set src =>
      simp only [eventMsg, setEventMsg, Event.handle, hnode, decide_eq_true_eq]
      by_cases hdata : node.data = 0
      · simp [hdata]
      · cases hwaiting : node.waiting with
        | nil => simp [hdata]
        | cons th rest => simp [hdata]
  | reset src => simp [eventMsg, resetEventMsg, Event.handle, hnode]

/-! ## Histories of the documented event -/

namespace Event

variable {e : Event}

/-- No thread waits for a signalled event. -/
def Tight (e : Event) : Prop := e.signalled = true → e.queue = []

@[simp] theorem handle_autoReset (e : Event) (call : EventCall) :
    (e.handle call).1.autoReset = e.autoReset := by
  cases call with
  | wait src threadId =>
      rw [handle]
      split <;> rfl
  | set src =>
      rw [handle]
      split
      · split <;> rfl
      · rfl
  | reset src => rfl

theorem tight_handle (h : e.Tight) (call : EventCall) : (e.handle call).1.Tight := by
  cases call with
  | wait src threadId =>
      rw [handle]
      split
      · rename_i hs
        exact fun _ => h hs
      · rename_i hs
        exact fun hs' => absurd hs' hs
  | set src =>
      rw [handle]
      split
      · split
        · rename_i hq
          exact fun _ => hq
        · exact fun hs => Bool.noConfusion hs
      · exact fun _ => rfl
  | reset src => exact fun hs => Bool.noConfusion hs

theorem tight_after (h : e.Tight) (calls : List EventCall) : (after handle e calls).Tight :=
  after_invariant Tight (fun _ call h => tight_handle h call) h calls

/-- In automatic mode a message wakes no more threads than it has signals to spend. -/
theorem handle_spends (hauto : e.autoReset = true) (call : EventCall) :
    (e.handle call).2.length + (e.handle call).1.signalled.toNat ≤
      (if call.IsSet then 1 else 0) + e.signalled.toNat := by
  cases call with
  | wait src threadId =>
      rw [handle]
      split
      · rename_i hs
        simp [hauto, hs]
      · rename_i hs
        simp [hs]
  | set src =>
      have hset : EventCall.IsSet (.set src) := trivial
      rw [handle, if_pos hauto, if_pos hset]
      split <;> simp
  | reset src => simp [handle]

/-- In automatic mode the wakes never exceed the sets and the first signal. -/
theorem answers_spend (hauto : e.autoReset = true) (calls : List EventCall) :
    (answers handle e calls).flatten.length + (after handle e calls).signalled.toNat ≤
      calls.countP (fun call => call.IsSet) + e.signalled.toNat := by
  induction calls generalizing e with
  | nil => simp [answers, after]
  | cons call rest ih =>
      have hhead := handle_spends hauto call
      have hrest := ih ((handle_autoReset e call).trans hauto)
      simp only [answers, after, List.flatten_cons, List.length_append, List.countP_cons,
        decide_eq_true_eq]
      omega

/-- Until a reset, a manual event that is signalled stays so and lets every thread through. -/
theorem signalled_until_reset (hmanual : e.autoReset = false) (hs : e.signalled = true)
    {calls : List EventCall} (hno : ∀ call ∈ calls, ¬call.IsReset) :
    (after handle e calls).signalled = true := by
  induction calls generalizing e with
  | nil => exact hs
  | cons call rest ih =>
      apply ih ((handle_autoReset e call).trans hmanual)
      · cases call with
        | wait src threadId => simp [handle, hs, hmanual]
        | set src => simp [handle, hmanual]
        | reset src => exact absurd trivial (hno _ List.mem_cons_self)
      · exact fun call hmem => hno call (List.mem_cons_of_mem _ hmem)

/-- In automatic mode a signal waits through further sets. -/
theorem signalled_through_sets (hauto : e.autoReset = true) (hs : e.signalled = true)
    (hq : e.queue = []) {calls : List EventCall} (hsets : ∀ call ∈ calls, call.IsSet) :
    after handle e calls = e := by
  induction calls with
  | nil => rfl
  | cons call rest ih =>
      have hcall : (e.handle call).1 = e := by
        cases call with
        | wait src threadId => exact (hsets _ List.mem_cons_self).elim
        | set src =>
            obtain ⟨auto, signalled, queue⟩ := e
            subst hauto hs hq
            rfl
        | reset src => exact (hsets _ List.mem_cons_self).elim
      rw [after, hcall]
      exact ih fun call hmem => hsets call (List.mem_cons_of_mem _ hmem)

theorem answers_silent (hauto : e.autoReset = true) (hs : e.signalled = true)
    (hq : e.queue = []) {calls : List EventCall} (hsets : ∀ call ∈ calls, call.IsSet) :
    (answers handle e calls).flatten = [] := by
  obtain ⟨auto, signalled, queue⟩ := e
  subst hauto hs hq
  induction calls with
  | nil => rfl
  | cons call rest ih =>
      cases call with
      | wait src threadId => exact (hsets _ List.mem_cons_self).elim
      | set src => exact ih fun call hmem => hsets call (List.mem_cons_of_mem _ hmem)
      | reset src => exact (hsets _ List.mem_cons_self).elim

end Event

/-! ## Histories of the node -/

/-- What the documentation says about the event `id` in some state of the manager. -/
structure Documented (dsm : Dsm) (id : ObjectKey) (m : Manager) : Prop where
  /-- it is never signalled while a thread is queued -/
  tight : (eventOf dsm id m).signalled = true → (eventOf dsm id m).queue = []
  /-- automatic mode: a set wakes the thread that has waited longest and leaves the event
  unsignalled, or finds no thread and leaves it signalled -/
  set_auto : (eventOf dsm id m).autoReset = true → ∀ src,
    let r := eventMsg dsm id m (.set src)
    (∃ th rest, (eventOf dsm id m).queue = th :: rest ∧ r.2 = [th] ∧
      eventOf dsm id r.1 = ⟨true, false, rest⟩) ∨
    ((eventOf dsm id m).queue = [] ∧ r.2 = [] ∧ eventOf dsm id r.1 = ⟨true, true, []⟩)
  /-- automatic mode: a signal lasts through further sets until a wait, which is granted
  and consumes it, or a reset -/
  spent : (eventOf dsm id m).autoReset = true → (eventOf dsm id m).signalled = true →
    ∀ sets, (∀ call ∈ sets, EventCall.IsSet call) →
      let m' := after (eventMsg dsm id) m sets
      (answers (eventMsg dsm id) m sets).flatten = [] ∧ eventOf dsm id m' = ⟨true, true, []⟩ ∧
      (∀ src threadId, (eventMsg dsm id m' (.wait src threadId)).2 = [⟨src, threadId⟩] ∧
        eventOf dsm id (eventMsg dsm id m' (.wait src threadId)).1 = ⟨true, false, []⟩) ∧
      ∀ src, (eventMsg dsm id m' (.reset src)).2 = [] ∧
        eventOf dsm id (eventMsg dsm id m' (.reset src)).1 = ⟨true, false, []⟩
  /-- manual mode: a set wakes every queued thread once, and from then on until a reset
  every wait is granted at once -/
  set_manual : (eventOf dsm id m).autoReset = false → ∀ src,
    let r := eventMsg dsm id m (.set src)
    r.2 = (eventOf dsm id m).queue ∧ (eventOf dsm id r.1).queue = [] ∧
    ∀ calls, (∀ call ∈ calls, ¬EventCall.IsReset call) → ∀ src' threadId,
      (eventMsg dsm id (after (eventMsg dsm id) r.1 calls) (.wait src' threadId)).2 =
        [⟨src', threadId⟩]

/-- A manual event that starts signalled also grants every wait at once until a reset. -/
theorem wait_granted {m : Manager} (hmanual : (eventOf dsm id m).autoReset = false)
    (hs : (eventOf dsm id m).signalled = true) {calls : List EventCall}
    (hno : ∀ call ∈ calls, ¬call.IsReset) (src threadId : Nat) :
    (eventMsg dsm id (after (eventMsg dsm id) m calls) (.wait src threadId)).2 =
      [⟨src, threadId⟩] := by
  have hafter := (eventMsg_refines dsm id).after_eq m calls
  have hsignalled := Event.signalled_until_reset hmanual hs hno
  rw [← hafter] at hsignalled
  rw [(eventMsg_refines dsm id _ _).2, Event.handle, if_pos hsignalled]

theorem documented_of_tight {m : Manager} (h : (eventOf dsm id m).Tight) : Documented dsm id m := by
  have href := eventMsg_refines dsm id
  constructor
  · exact h
  · intro hauto src
    have hset := href m (.set src)
    rw [Event.handle, if_pos hauto] at hset
    cases hq : (eventOf dsm id m).queue with
    | nil =>
        simp only [hq, hauto] at hset
        exact Or.inr ⟨rfl, hset.2, hset.1⟩
    | cons th rest =>
        simp only [hq, hauto] at hset
        exact Or.inl ⟨th, rest, rfl, hset.2, hset.1⟩
  · intro hauto hs sets hsets
    have hstate : eventOf dsm id m = ⟨true, true, []⟩ :=
      Event.ext hauto hs (h hs)
    have hkept : after Event.handle ⟨true, true, []⟩ sets = ⟨true, true, []⟩ :=
      Event.signalled_through_sets rfl rfl rfl hsets
    have hafter : eventOf dsm id (after (eventMsg dsm id) m sets) = ⟨true, true, []⟩ := by
      rw [href.after_eq, hstate, hkept]
    refine ⟨?_, hafter, fun src threadId => ?_, fun src => ?_⟩
    · rw [href.answers_eq, hstate]
      exact Event.answers_silent rfl rfl rfl hsets
    · rw [(href _ _).1, (href _ _).2, hafter]
      exact ⟨rfl, rfl⟩
    · rw [(href _ _).1, (href _ _).2, hafter]
      exact ⟨rfl, rfl⟩
  · intro hmanual src
    have hset := href m (.set src)
    rw [Event.handle, hmanual] at hset
    have hset' : (eventOf dsm id (eventMsg dsm id m (.set src)).1).autoReset = false ∧
        (eventOf dsm id (eventMsg dsm id m (.set src)).1).signalled = true := by
      rw [hset.1]
      exact ⟨rfl, rfl⟩
    refine ⟨hset.2, ?_, fun calls hno src' threadId => ?_⟩
    · rw [hset.1]
      rfl
    · exact wait_granted dsm id hset'.1 hset'.2 hno src' threadId

/-- The node that the master makes for an event behaves as the documented event, message
by message: after every sequence of messages it is in a documented state, and in automatic
mode it has woken no more threads than there were sets and first signals. -/
theorem event_documented (m : Manager) (calls : List EventCall) :
    eventOf dsm id (m.without id) = ⟨toInt (dsm id 0) ≠ 0, toInt (dsm id 2) ≠ 0, []⟩ ∧
    answers (eventMsg dsm id) (m.without id) calls =
      answers Event.handle (eventOf dsm id (m.without id)) calls ∧
    eventOf dsm id (after (eventMsg dsm id) (m.without id) calls) =
      after Event.handle (eventOf dsm id (m.without id)) calls ∧
    Documented dsm id (after (eventMsg dsm id) (m.without id) calls) ∧
    (toInt (dsm id 0) ≠ 0 →
      (answers (eventMsg dsm id) (m.without id) calls).flatten.length ≤
        calls.countP (fun call => call.IsSet) + if toInt (dsm id 2) ≠ 0 then 1 else 0) := by
  have href := eventMsg_refines dsm id
  have hstart := eventOf_without dsm id m
  refine ⟨hstart, href.answers_eq _ _, href.after_eq _ _, ?_, fun hauto => ?_⟩
  · apply documented_of_tight
    rw [href.after_eq]
    apply Event.tight_after
    rw [hstart]
    exact fun _ => rfl
  · have hspend := Event.answers_spend (e := eventOf dsm id (m.without id))
      (by rw [hstart]; exact decide_eq_true hauto) calls
    rw [href.answers_eq]
    rw [hstart] at hspend ⊢
    by_cases hs : toInt (dsm id 2) = 0
    · simp only [hs, ne_eq, not_true_eq_false, decide_false, Bool.toNat_false, if_false] at hspend ⊢
      omega
    · simp only [hs, ne_eq, not_false_eq_true, decide_true, Bool.toNat_true, if_true] at hspend ⊢
      omega

end Dogee.SyncManager
