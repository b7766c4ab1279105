import Dogee.Accumulator
import Mathlib.Data.List.Range

/-!
# The rounds of an accumulator

A thread that is woken has had its data written everywhere: between two steps
every thread is in call `R` or `R + 1`, where `R` counts how often the master has
woken the threads, and everything in flight belongs to round `R + 1`. The counters
`val` and `doneNodeCnt` count the last messages and the reports of that round.
Nothing here depends on what the messages carry, or on whether a thread sends
all that it should.
-/

namespace Dogee.Accumulator

open SyncManager (SyncThreadNode)
open Transition

variable {T : Type}

/-! ## What a thread may still send -/

/-- The thread sends nothing more to node `i` in its current call. -/
def Thread.Closed (u : SyncThreadNode) (th : Thread) (i : Nat) : Prop :=
  match th.phase with
  | .idle => True
  | .scan k => i < k ∧ i ≠ u.machine ∧ th.sendSize i ≤ th.sendIdx i
  | .own => i ≠ u.machine ∧ th.sendSize i ≤ th.sendIdx i
  | .select => th.sendSize i ≤ th.sendIdx i
  | .pass _ _ => th.sendSize i ≤ th.sendIdx i
  | .waiting => th.sendSize i ≤ th.sendIdx i

/-- What one step of a thread may do: it sends to a node only while the node is
open, and with its last message it closes the node. -/
structure Advances (cfg : Config T) (u : SyncThreadNode) (th th' : Thread) (o : Option (Output T)) :
    Prop where
  active : th.phase ≠ .idle
  still_active : th'.phase ≠ .idle
  round_eq : th'.round = th.round
  closed : ∀ i, th.Closed u i → th'.Closed u i
  dst_lt : ∀ out, o = some out → out.dst < cfg.numNodes
  opened : ∀ out, o = some out → ¬th.Closed u out.dst
  last : ∀ out, o = some out → out.packet.threadId = 0 ∨
    (out.packet.threadId = u.threadId ∧ th'.Closed u out.dst)

theorem scanNode_advances {cfg : Config T} {u : SyncThreadNode} {th : Thread} {i : Nat}
    (hphase : th.phase = .scan i) (hi : i < cfg.numNodes) :
    Advances cfg u th (scanNode cfg u th i).1 (scanNode cfg u th i).2 := by
  constructor
  · rw [hphase]
    exact Phase.noConfusion
  · exact Phase.noConfusion
  · rfl
  · intro j hj
    simp only [Thread.Closed, hphase] at hj
    have hne : j ≠ i := Nat.ne_of_lt hj.1
    refine ⟨Nat.lt_succ_of_lt hj.1, hj.2.1, ?_⟩
    simp only [scanNode, Function.update_of_ne hne]
    exact hj.2.2
  · intro out hout
    simp only [scanNode] at hout
    split at hout
    · cases hout
      exact hi
    · cases hout
  · intro out hout hclosed
    simp only [scanNode] at hout
    split at hout
    · cases hout
      simp only [Thread.Closed, hphase] at hclosed
      exact Nat.lt_irrefl i hclosed.1
    · cases hout
  · intro out hout
    simp only [scanNode] at hout
    split at hout
    · rename_i hdone
      cases hout
      refine Or.inr ⟨rfl, Nat.lt_succ_self i, hdone.2, ?_⟩
      simp only [scanNode, Function.update_self]
      exact hdone.1
    · cases hout

theorem passNode_advances {cfg : Config T} {u : SyncThreadNode} {th : Thread} {ready : Nat → Bool}
    {i : Nat} (hphase : th.phase = .pass ready i) (hi : i < cfg.numNodes) :
    Advances cfg u th (passNode cfg u th ready i).1 (passNode cfg u th ready i).2 := by
  by_cases hsend : th.sendIdx i < th.sendSize i ∧ i ≠ u.machine ∧ ready i
  · have heq : passNode cfg u th ready i = (_, some _) := if_pos hsend
    rw [heq]
    constructor
    · rw [hphase]
      exact Phase.noConfusion
    · exact Phase.noConfusion
    · rfl
    · intro j hj
      simp only [Thread.Closed, hphase] at hj
      have hne : j ≠ i := by
        rintro rfl
        exact Nat.not_lt_of_le hj hsend.1
      simp only [Thread.Closed, Function.update_of_ne hne]
      exact hj
    · rintro out ⟨⟩
      exact hi
    · rintro out ⟨⟩ hclosed
      simp only [Thread.Closed, hphase] at hclosed
      exact Nat.not_lt_of_le hclosed hsend.1
    · rintro out ⟨⟩
      simp only [Thread.Closed, Function.update_self]
      split
      · rename_i hlast
        exact Or.inr ⟨rfl, Nat.le_of_eq hlast.symm⟩
      · exact Or.inl rfl
  · have heq : passNode cfg u th ready i = (_, none) := if_neg hsend
    rw [heq]
    constructor
    · rw [hphase]
      exact Phase.noConfusion
    · exact Phase.noConfusion
    · rfl
    · intro j hj
      simp only [Thread.Closed, hphase] at hj
      exact hj
    · rintro out ⟨⟩
    · rintro out ⟨⟩
    · rintro out ⟨⟩

/-- A step that sends nothing and moves to a phase in which the same nodes are closed. -/
theorem Advances.silent {cfg : Config T} {u : SyncThreadNode} {th : Thread} {phase : Phase}
    (h : th.phase ≠ .idle) (h' : phase ≠ .idle)
    (hclosed : ∀ i, th.Closed u i → { th with phase := phase }.Closed u i) :
    Advances cfg u th { th with phase := phase } none := by
  constructor
  · exact h
  · exact h'
  · rfl
  · exact hclosed
  · rintro out ⟨⟩
  · rintro out ⟨⟩
  · rintro out ⟨⟩

theorem advance_advances {cfg : Config T} {u : SyncThreadNode} (hu : u ∈ cfg.users)
    {th th' : Thread} {ready : Nat → Bool} {o : Option (Output T)}
    (h : advance cfg u th ready = some (th', o)) : Advances cfg u th th' o := by
  rw [advance] at h
  split at h
  · rename_i i hphase
    split at h
    · rename_i hi
      obtain ⟨rfl, rfl⟩ := Prod.mk.inj (Option.some.inj h)
      exact scanNode_advances hphase hi
    · cases h
      refine .silent (by rw [hphase]; exact Phase.noConfusion) Phase.noConfusion fun j hj => ?_
      simp only [Thread.Closed, hphase] at hj
      exact hj.2
  · rename_i hphase
    cases h
    constructor
    · rw [hphase]
      exact Phase.noConfusion
    · exact Phase.noConfusion
    · rfl
    · intro j hj
      simp only [Thread.Closed, hphase] at hj
      simp only [Thread.Closed, Function.update_of_ne hj.1]
      exact hj.2
    · rintro out ⟨⟩
      exact cfg.placed u hu
    · rintro out ⟨⟩ hclosed
      simp only [Thread.Closed, hphase] at hclosed
      exact hclosed.1 rfl
    · rintro out ⟨⟩
      refine Or.inr ⟨rfl, ?_⟩
      simp only [Thread.Closed, Function.update_self]
      exact Nat.le_refl _
  · rename_i hphase
    cases h
    refine .silent (by rw [hphase]; exact Phase.noConfusion) ?_ fun j hj => ?_
    · split <;> exact Phase.noConfusion
    · simp only [Thread.Closed, hphase] at hj
      split <;> exact hj
  · rename_i ready' i hphase
    split at h
    · rename_i hi
      obtain ⟨rfl, rfl⟩ := Prod.mk.inj (Option.some.inj h)
      exact passNode_advances hphase hi
    · cases h
      refine .silent (by rw [hphase]; exact Phase.noConfusion) Phase.noConfusion fun j hj => ?_
      simp only [Thread.Closed, hphase] at hj
      exact hj
  · cases h
  · cases h

/-! ## The invariant -/

/-- The calls up to number `n`. -/
def upTo (n : Nat) : List Nat := List.range' 1 n

theorem upTo_succ (n : Nat) : upTo n ++ [n + 1] = upTo (n + 1) := by
  rw [upTo, upTo, List.range'_1_concat, Nat.add_comm]

/-- The packets of thread `u` among some messages, with their calls. -/
def packetsOf (u : SyncThreadNode) (msgs : List (Message T)) : List (Packet T × Nat) :=
  msgs.filterMap fun
    | .accumulate p call => if call.1 = u then some (p, call.2) else none
    | .partialDone => none

def Message.isReport : Message T → Bool
  | .accumulate _ _ => false
  | .partialDone => true

namespace State

/-- The packets of thread `u` that are on the way to node `i`. -/
def inFlight (s : State T) (u : SyncThreadNode) (i : Nat) : List (Packet T × Nat) :=
  packetsOf u (s.channel u.machine i)

/-- The reports of node `i` that are on the way to the master. -/
def reports (s : State T) (i : Nat) : Nat := (s.channel i 0).countP Message.isReport

/-- How many last messages of thread `u` node `i` has handled. -/
def handled (s : State T) (i : Nat) (u : SyncThreadNode) : Nat := ((s.nodes i).finals u).length

/-- How often node `i` has written its segment. -/
def wrote (s : State T) (i : Nat) : Nat := (s.nodes i).written.length

/-- The wake messages on the way to thread `u`. -/
def wakesOf (s : State T) (u : SyncThreadNode) : Nat := (s.wakes u.machine).count u.threadId

end State

/-- A thread against the number `R` of completed rounds: it has begun `R` or `R + 1`
calls, and while it is in call `R` it has sent everything and its wake is due. -/
structure ThreadInv (cfg : Config T) (R : Nat) (u : SyncThreadNode) (th : Thread) (event : Bool)
    (wakes : Nat) : Prop where
  round : th.round = R ∨ th.round = R + 1 ∧ th.phase ≠ .idle
  inCall : th.round = R + 1 → event = false ∧ wakes = 0
  woken : th.round = R → th.phase ≠ .idle → (∀ i < cfg.numNodes, th.Closed u i) ∧
    (event = true ∧ wakes = 0 ∨ event = false ∧ wakes = 1)
  idle : th.phase = .idle → wakes = 0

/-- A thread against a node: the node has handled the last message of call `R + 1`
only after everything else the thread sends it in that call. -/
structure PairInv (R : Nat) (u : SyncThreadNode) (th : Thread) (i : Nat) (finals : List Nat)
    (flight : List (Packet T × Nat)) : Prop where
  finals_eq : finals = upTo R ∨ finals = upTo (R + 1)
  handled : finals = upTo (R + 1) → th.round = R + 1 ∧ th.Closed u i ∧ flight = []
  sent : flight ≠ [] → th.round = R + 1
  tag : ∀ x ∈ flight, x.2 = R + 1 ∧ (x.1.threadId = 0 ∨ x.1.threadId = u.threadId)
  last : ∀ pre x post, flight = pre ++ x :: post → x.1.threadId ≠ 0 → post = []
  closed : ∀ x ∈ flight, x.1.threadId ≠ 0 → th.Closed u i

/-- With nothing in flight. -/
theorem PairInv.of_nil {R : Nat} {u : SyncThreadNode} {th : Thread} {i : Nat} {finals : List Nat}
    (hfinals : finals = upTo R ∨ finals = upTo (R + 1))
    (hhandled : finals = upTo (R + 1) → th.round = R + 1 ∧ th.Closed u i) :
    PairInv R u th i finals ([] : List (Packet T × Nat)) := by
  refine ⟨hfinals, fun h => ⟨(hhandled h).1, (hhandled h).2, rfl⟩, fun h => absurd rfl h, ?_, ?_, ?_⟩
  · intro x hx
    cases hx
  · intro pre x post h
    cases pre <;> cases h
  · intro x hx
    cases hx

/-- A node: it has written its segment `R` or `R + 1` times, and its buffer holds
data of round `R + 1` only. -/
structure NodeInv (cfg : Config T) (R i : Nat) (node : DataSyncNode T) (reports : Nat) : Prop where
  written : node.written.length = R ∨ node.written.length = R + 1
  le_finals : ∀ u ∈ cfg.users, node.written.length ≤ (node.finals u).length
  val : node.val = cfg.users.countP fun u => (node.finals u).length = node.written.length + 1
  held : ∀ c ∈ node.held, c.2 = R + 1 ∧ node.written.length = R
  tags : ∀ r w, node.written[r]? = some w → ∀ c ∈ w, c.2 = r + 1
  reports_le : reports ≤ 1
  reported : reports = 1 → node.written.length = R + 1 ∧ i ≠ 0

/-- The state between two steps, or (`k = 1`) when a report is being handled. -/
structure Inv (cfg : Config T) (k : Nat) (s : State T) : Prop where
  thread : ∀ u ∈ cfg.users, ThreadInv cfg s.released u (s.threads u) (s.event u) (s.wakesOf u)
  pair : ∀ u ∈ cfg.users, ∀ i < cfg.numNodes,
    PairInv s.released u (s.threads u) i ((s.nodes i).finals u) (s.inFlight u i)
  node : ∀ i < cfg.numNodes, NodeInv cfg s.released i (s.nodes i) (s.reports i)
  done : (s.nodes 0).doneNodeCnt + k = (List.range cfg.numNodes).countP fun i =>
    s.wrote i = s.released + 1 ∧ s.reports i = 0
  done_lt : (s.nodes 0).doneNodeCnt < cfg.numNodes
  waiting : (s.nodes 0).waitlist.Nodup ∧ ∀ u, u ∈ (s.nodes 0).waitlist ↔
    u ∈ cfg.users ∧ s.handled 0 u = s.released + 1
  woken : ∀ u ∈ cfg.users, s.woken u = upTo s.released
  sender : ∀ src dst p c, .accumulate p c ∈ s.channel src dst →
    c.1 ∈ cfg.users ∧ c.1.machine = src ∧ dst < cfg.numNodes ∧ dst ≠ src
  reporter : ∀ src dst, .partialDone ∈ s.channel src dst → src < cfg.numNodes
  wake : ∀ machine threadId, threadId ∈ s.wakes machine → ⟨machine, threadId⟩ ∈ cfg.users
  idle : ∀ u, u ∉ cfg.users → (s.threads u).phase = .idle

/-- One more element of a list satisfies a predicate. -/
theorem countP_eq_succ {α : Type*} [DecidableEq α] {l : List α} (hl : l.Nodup) {a : α} (ha : a ∈ l)
    {p q : α → Prop} [DecidablePred p] [DecidablePred q] (hp : ¬p a) (hq : q a)
    (h : ∀ b ∈ l, b ≠ a → (q b ↔ p b)) :
    l.countP (fun b => q b) = l.countP (fun b => p b) + 1 := by
  induction l with
  | nil => cases ha
  | cons b l ih =>
      rw [List.nodup_cons] at hl
      by_cases hba : b = a
      · subst hba
        have hrest : l.countP (fun b => q b) = l.countP (fun b => p b) := by
          apply List.countP_congr
          intro c hc
          have hcb : c ≠ b := by
            rintro rfl
            exact hl.1 hc
          simp only [decide_eq_true_eq]
          exact h c (List.mem_cons_of_mem b hc) hcb
        rw [List.countP_cons_of_pos (by simpa using hq), List.countP_cons_of_neg (by simpa using hp),
          hrest]
      · have hmem : a ∈ l := (List.mem_cons.mp ha).resolve_left (Ne.symm hba)
        have hrest := ih hl.2 hmem fun c hc => h c (List.mem_cons_of_mem b hc)
        have hb := h b List.mem_cons_self hba
        rw [List.countP_cons, List.countP_cons, hrest]
        simp only [decide_eq_true_eq, hb]
        omega

theorem inv_start [Zero T] (cfg : Config T) (out : Nat → T) : Inv cfg 0 (start cfg out) := by
  constructor
  · intro u hu
    exact ⟨Or.inl rfl, (fun h => by cases h), fun _ h => absurd rfl h, fun _ => rfl⟩
  · intro u hu i hi
    apply PairInv.of_nil (Or.inl rfl)
    intro h
    cases h
  · intro i hi
    refine ⟨Or.inl rfl, fun _ _ => Nat.zero_le _, ?_, ?_, ?_, Nat.zero_le _, ?_⟩
    · symm
      apply List.countP_eq_zero.mpr
      intro u hu
      simp [start, initDataNode]
    · intro c hc
      cases hc
    · intro r w h
      simp [start, initDataNode] at h
    · intro h
      cases h
  · symm
    apply List.countP_eq_zero.mpr
    intro i hi
    simp [State.wrote, start, initDataNode]
  · exact cfg.pos
  · refine ⟨List.nodup_nil, fun u => ⟨(fun h => by cases h), fun h => ?_⟩⟩
    have := h.2
    simp [State.handled, start, initDataNode] at this
  · intro u hu
    rfl
  · intro src dst p c h
    cases h
  · intro src dst h
    cases h
  · intro machine threadId h
    cases h
  · intro u hu
    rfl

section Updates

variable {cfg : Config T} {k : Nat} {s : State T}

/-- A change to one thread and its event. -/
theorem Inv.setThread (hs : Inv cfg k s) {u : SyncThreadNode} (hu : u ∈ cfg.users) (th : Thread)
    (event : Bool) (ht : ThreadInv cfg s.released u th event (s.wakesOf u))
    (hp : ∀ i < cfg.numNodes,
      PairInv s.released u th i ((s.nodes i).finals u) (s.inFlight u i)) :
    Inv cfg k { s.setThread u th with event := Function.update s.event u event } := by
  refine { hs with thread := ?_, pair := ?_, idle := ?_ }
  · intro v hv
    by_cases hvu : v = u
    · subst hvu
      simp only [State.setThread, Function.update_self]
      exact ht
    · simp only [State.setThread, Function.update_of_ne hvu]
      exact hs.thread v hv
  · intro v hv i hi
    by_cases hvu : v = u
    · subst hvu
      simp only [State.setThread, Function.update_self]
      exact hp i hi
    · simp only [State.setThread, Function.update_of_ne hvu]
      exact hs.pair v hv i hi
  · intro v hv
    have hvu : v ≠ u := by
      rintro rfl
      exact hv hu
    simp only [State.setThread, Function.update_of_ne hvu]
    exact hs.idle v hv

/-- A change to one connection. -/
theorem Inv.setChannel (hs : Inv cfg k s) {src dst k' : Nat} {msgs : List (Message T)}
    (hpair : ∀ u ∈ cfg.users, u.machine = src → dst < cfg.numNodes →
      PairInv s.released u (s.threads u) dst ((s.nodes dst).finals u) (packetsOf u msgs))
    (hsender : ∀ p c, .accumulate p c ∈ msgs →
      c.1 ∈ cfg.users ∧ c.1.machine = src ∧ dst < cfg.numNodes ∧ dst ≠ src)
    (hreporter : .partialDone ∈ msgs → src < cfg.numNodes)
    (hnode : dst = 0 → src < cfg.numNodes →
      NodeInv cfg s.released src (s.nodes src) (msgs.countP Message.isReport))
    (hdone : (s.nodes 0).doneNodeCnt + k' = (List.range cfg.numNodes).countP fun i =>
      s.wrote i = s.released + 1 ∧ (s.setChannel src dst msgs).reports i = 0) :
    Inv cfg k' (s.setChannel src dst msgs) := by
  have hchan : ∀ src' dst', ¬(src' = src ∧ dst' = dst) →
      (s.setChannel src dst msgs).channel src' dst' = s.channel src' dst' := by
    intro src' dst' hne
    by_cases hsrc : src' = src
    · subst hsrc
      have hdst : dst' ≠ dst := fun h => hne ⟨rfl, h⟩
      simp only [State.setChannel, Function.update_self, Function.update_of_ne hdst]
    · simp only [State.setChannel, Function.update_of_ne hsrc]
  have hself : (s.setChannel src dst msgs).channel src dst = msgs := by
    simp only [State.setChannel, Function.update_self]
  refine { hs with pair := ?_, node := ?_, done := hdone, sender := ?_, reporter := ?_ }
  · intro u hu i hi
    rw [State.inFlight]
    by_cases hui : u.machine = src ∧ i = dst
    · obtain ⟨hsrc, rfl⟩ := hui
      rw [hsrc, hself]
      exact hpair u hu hsrc hi
    · rw [hchan _ _ hui]
      exact hs.pair u hu i hi
  · intro i hi
    rw [State.reports]
    by_cases hi0 : i = src ∧ 0 = dst
    · obtain ⟨rfl, rfl⟩ := hi0
      rw [hself]
      exact hnode rfl hi
    · rw [hchan _ _ hi0]
      exact hs.node i hi
  · intro src' dst' p c hmem
    by_cases hne : src' = src ∧ dst' = dst
    · obtain ⟨rfl, rfl⟩ := hne
      rw [hself] at hmem
      exact hsender p c hmem
    · rw [hchan _ _ hne] at hmem
      exact hs.sender src' dst' p c hmem
  · intro src' dst' hmem
    by_cases hne : src' = src ∧ dst' = dst
    · obtain ⟨rfl, rfl⟩ := hne
      rw [hself] at hmem
      exact hreporter hmem
    · rw [hchan _ _ hne] at hmem
      exact hs.reporter src' dst' hmem

theorem State.reports_setChannel (s : State T) (src dst : Nat) (msgs : List (Message T)) (i : Nat) :
    (s.setChannel src dst msgs).reports i =
      if i = src ∧ dst = 0 then msgs.countP Message.isReport else s.reports i := by
  by_cases hi : i = src
  · subst hi
    by_cases hdst : dst = 0
    · subst hdst
      simp [State.reports, State.setChannel]
    · simp [State.reports, State.setChannel, hdst, Function.update_of_ne (Ne.symm hdst)]
  · simp [State.reports, State.setChannel, hi]

/-- A change to one connection that leaves the reports on it as they are. -/
theorem Inv.setPackets (hs : Inv cfg k s) {src dst : Nat} {msgs : List (Message T)}
    (hpair : ∀ u ∈ cfg.users, u.machine = src → dst < cfg.numNodes →
      PairInv s.released u (s.threads u) dst ((s.nodes dst).finals u) (packetsOf u msgs))
    (hsender : ∀ p c, .accumulate p c ∈ msgs →
      c.1 ∈ cfg.users ∧ c.1.machine = src ∧ dst < cfg.numNodes ∧ dst ≠ src)
    (hreports : msgs.countP Message.isReport = (s.channel src dst).countP Message.isReport) :
    Inv cfg k (s.setChannel src dst msgs) := by
  have hsame : ∀ i, (s.setChannel src dst msgs).reports i = s.reports i := by
    intro i
    rw [State.reports_setChannel]
    split
    · rename_i h
      obtain ⟨rfl, rfl⟩ := h
      exact hreports
    · rfl
  apply hs.setChannel hpair hsender
  · intro hmem
    have hpos : 0 < msgs.countP Message.isReport := List.countP_pos_iff.mpr ⟨_, hmem, rfl⟩
    rw [hreports] at hpos
    obtain ⟨m, hm, hm'⟩ := List.countP_pos_iff.mp hpos
    cases m with
    | accumulate p c => cases hm'
    | partialDone => exact hs.reporter src dst hm
  · rintro rfl hsrc
    rw [hreports]
    exact hs.node src hsrc
  · simp only [hsame]
    exact hs.done

/-- A change to one node. -/
theorem Inv.setNode (hs : Inv cfg k s) {i k' : Nat} {node : DataSyncNode T} (hi : i < cfg.numNodes)
    (hpair : ∀ u ∈ cfg.users,
      PairInv s.released u (s.threads u) i (node.finals u) (s.inFlight u i))
    (hnode : NodeInv cfg s.released i node (s.reports i))
    (hlt : ((s.setNode i node).nodes 0).doneNodeCnt < cfg.numNodes)
    (hwait : i = 0 → node.waitlist.Nodup ∧ ∀ u, u ∈ node.waitlist ↔
      u ∈ cfg.users ∧ (node.finals u).length = s.released + 1)
    (hdone : ((s.setNode i node).nodes 0).doneNodeCnt + k' =
      (List.range cfg.numNodes).countP fun j =>
        (s.setNode i node).wrote j = s.released + 1 ∧ s.reports j = 0) :
    Inv cfg k' (s.setNode i node) := by
  refine { hs with pair := ?_, node := ?_, done := hdone, done_lt := hlt, waiting := ?_ }
  · intro u hu j hj
    by_cases hji : j = i
    · subst hji
      simp only [State.setNode, Function.update_self]
      exact hpair u hu
    · simp only [State.setNode, Function.update_of_ne hji]
      exact hs.pair u hu j hj
  · intro j hj
    by_cases hji : j = i
    · subst hji
      simp only [State.setNode, Function.update_self]
      exact hnode
    · simp only [State.setNode, Function.update_of_ne hji]
      exact hs.node j hj
  · by_cases hi0 : i = 0
    · subst hi0
      simp only [State.setNode, State.handled, Function.update_self]
      exact hwait rfl
    · simp only [State.setNode, State.handled, Function.update_of_ne (Ne.symm hi0)]
      exact hs.waiting

theorem State.doneNodeCnt_setNode (s : State T) {i : Nat} {node : DataSyncNode T}
    (h : node.doneNodeCnt = (s.nodes i).doneNodeCnt) :
    ((s.setNode i node).nodes 0).doneNodeCnt = (s.nodes 0).doneNodeCnt := by
  by_cases hi0 : i = 0
  · subst hi0
    simp only [State.setNode, Function.update_self]
    exact h
  · simp only [State.setNode, Function.update_of_ne (Ne.symm hi0)]

theorem State.wrote_setNode (s : State T) (i : Nat) (node : DataSyncNode T) (j : Nat) :
    (s.setNode i node).wrote j = if j = i then node.written.length else s.wrote j := by
  by_cases hji : j = i
  · subst hji
    simp [State.wrote, State.setNode]
  · simp [State.wrote, State.setNode, hji]

theorem State.wrote_setNode_of_eq (s : State T) {i : Nat} {node : DataSyncNode T}
    (h : node.written = (s.nodes i).written) (j : Nat) : (s.setNode i node).wrote j = s.wrote j := by
  rw [State.wrote_setNode]
  split
  · rename_i hji
    rw [hji, h]
    rfl
  · rfl

/-- A change to one node that leaves the counts of reports and writes as they are. -/
theorem Inv.setNode_same (hs : Inv cfg k s) {i : Nat} {node : DataSyncNode T}
    (hi : i < cfg.numNodes)
    (hpair : ∀ u ∈ cfg.users,
      PairInv s.released u (s.threads u) i (node.finals u) (s.inFlight u i))
    (hnode : NodeInv cfg s.released i node (s.reports i))
    (hcnt : node.doneNodeCnt = (s.nodes i).doneNodeCnt)
    (hwait : i = 0 → node.waitlist.Nodup ∧ ∀ u, u ∈ node.waitlist ↔
      u ∈ cfg.users ∧ (node.finals u).length = s.released + 1)
    (hwritten : node.written = (s.nodes i).written) : Inv cfg k (s.setNode i node) := by
  apply hs.setNode hi hpair hnode
  · rw [State.doneNodeCnt_setNode s hcnt]
    exact hs.done_lt
  · exact hwait
  · simp only [State.doneNodeCnt_setNode s hcnt, State.wrote_setNode_of_eq s hwritten]
    exact hs.done

/-- The output array and the buffers do not matter to the invariant. -/
theorem Inv.setOut (hs : Inv cfg k s) (out : Nat → T) : Inv cfg k { s with out := out } :=
  { hs with }

end Updates

section Threads

variable {cfg : Config T} {k : Nat} {s : State T} {u : SyncThreadNode}

theorem upTo_injective {m n : Nat} (h : upTo m = upTo n) : m = n := by
  have hlen := congrArg List.length h
  rw [upTo, upTo, List.length_range', List.length_range'] at hlen
  exact hlen

theorem length_upTo (n : Nat) : (upTo n).length = n := List.length_range'

theorem ThreadInv.round_of_idle {R : Nat} {th : Thread} {event : Bool} {wakes : Nat}
    (h : ThreadInv cfg R u th event wakes) (hidle : th.phase = .idle) : th.round = R := by
  rcases h.round with hround | ⟨-, hne⟩
  · exact hround
  · exact absurd hidle hne

/-- Beginning a call. -/
theorem inv_call (hs : Inv cfg k s) (hu : u ∈ cfg.users) (hidle : (s.threads u).phase = .idle) :
    Inv cfg k { s.setThread u (beginCall (s.threads u)) with
      event := Function.update s.event u false } := by
  have hth := hs.thread u hu
  have hround := hth.round_of_idle hidle
  apply hs.setThread hu (beginCall (s.threads u)) false
  · refine ⟨Or.inr ⟨?_, Phase.noConfusion⟩, fun _ => ⟨rfl, hth.idle hidle⟩, fun h => ?_,
      fun h => by cases h⟩
    · exact congrArg (· + 1) hround
    · have hnext : (s.threads u).round + 1 = s.released := h
      omega
  · intro i hi
    have hp := hs.pair u hu i hi
    have hflight : s.inFlight u i = [] := by
      by_contra hne
      have := hp.sent hne
      omega
    rw [hflight]
    apply PairInv.of_nil hp.finals_eq
    intro h
    have := (hp.handled h).1
    omega

/-- Returning from a call. -/
theorem inv_ret (hs : Inv cfg k s) (hu : u ∈ cfg.users) (hphase : (s.threads u).phase = .waiting)
    (hevent : s.event u = true) :
    Inv cfg k (s.setThread u { s.threads u with phase := .idle }) := by
  have hth := hs.thread u hu
  have hround : (s.threads u).round = s.released := by
    rcases hth.round with h | ⟨h, -⟩
    · exact h
    · have := (hth.inCall h).1
      rw [hevent] at this
      cases this
  have hwakes : s.wakesOf u = 0 := by
    rcases (hth.woken hround (by rw [hphase]; exact Phase.noConfusion)).2 with h | h
    · exact h.2
    · rw [hevent] at h
      cases h.1
  have hnew := hs.setThread hu { s.threads u with phase := .idle } (s.event u)
    ⟨Or.inl hround, fun h => absurd (hround.symm.trans h) (Nat.ne_of_lt (Nat.lt_succ_self _)),
      fun _ h => absurd rfl h, fun _ => hwakes⟩ fun i hi => ?_
  · rw [Function.update_eq_self] at hnew
    exact hnew
  · have hp := hs.pair u hu i hi
    exact ⟨hp.finals_eq, fun h => ⟨(hp.handled h).1, trivial, (hp.handled h).2.2⟩, hp.sent, hp.tag,
      hp.last, fun _ _ _ => trivial⟩

/-- A step of a thread, before what it sends is dispatched. -/
theorem inv_advances (hs : Inv cfg k s) (hu : u ∈ cfg.users) {th : Thread} {o : Option (Output T)}
    (ha : Advances cfg u (s.threads u) th o) : Inv cfg k (s.setThread u th) := by
  have hth := hs.thread u hu
  have hnew := hs.setThread hu th (s.event u) ⟨?_, ?_, ?_, ?_⟩ fun i hi => ?_
  · rw [Function.update_eq_self] at hnew
    exact hnew
  · rw [ha.round_eq]
    exact hth.round.imp id fun h => ⟨h.1, ha.still_active⟩
  · rw [ha.round_eq]
    exact hth.inCall
  · intro hround _
    rw [ha.round_eq] at hround
    obtain ⟨hclosed, hwake⟩ := hth.woken hround ha.active
    exact ⟨fun i hi => ha.closed i (hclosed i hi), hwake⟩
  · exact fun h => absurd h ha.still_active
  · have hp := hs.pair u hu i hi
    refine ⟨hp.finals_eq, fun h => ?_, ?_, hp.tag, hp.last,
      fun x hx hne => ha.closed i (hp.closed x hx hne)⟩
    · obtain ⟨hround, hclosed, hflight⟩ := hp.handled h
      exact ⟨ha.round_eq.trans hround, ha.closed i hclosed, hflight⟩
    · rw [ha.round_eq]
      exact hp.sent

/-- A thread that sends to a node is in call `R + 1`, and the node has handled
none of its last messages of that call. -/
theorem round_of_sends (hs : Inv cfg k s) (hu : u ∈ cfg.users) {th : Thread} {out : Output T}
    (ha : Advances cfg u (s.threads u) th (some out)) :
    (s.threads u).round = s.released + 1 ∧ (s.nodes out.dst).finals u = upTo s.released ∧
      ∀ x ∈ s.inFlight u out.dst, x.1.threadId = 0 := by
  have hth := hs.thread u hu
  have hlt := ha.dst_lt out rfl
  have hopen := ha.opened out rfl
  have hp := hs.pair u hu out.dst hlt
  refine ⟨?_, ?_, ?_⟩
  · rcases hth.round with h | ⟨h, -⟩
    · exact absurd ((hth.woken h ha.active).1 _ hlt) hopen
    · exact h
  · rcases hp.finals_eq with h | h
    · exact h
    · exact absurd (hp.handled h).2.1 hopen
  · intro x hx
    by_contra hne
    exact hopen (hp.closed x hx hne)

theorem packetsOf_append (u : SyncThreadNode) (msgs msgs' : List (Message T)) :
    packetsOf u (msgs ++ msgs') = packetsOf u msgs ++ packetsOf u msgs' := List.filterMap_append

/-- Sending a packet to another node. -/
theorem inv_send (hs : Inv cfg k s) (hu : u ∈ cfg.users) {out : Output T} {th : Thread}
    (ha : Advances cfg u (s.threads u) th (some out)) (hdst : out.dst ≠ u.machine) :
    Inv cfg k ((s.setThread u th).send u.machine out.dst
      (.accumulate out.packet (u, (s.threads u).round))) := by
  have hs' := inv_advances hs hu ha
  obtain ⟨hround, hfinals, hflight⟩ := round_of_sends hs hu ha
  have hlt := ha.dst_lt out rfl
  have hth : (s.setThread u th).threads u = th := Function.update_self ..
  apply hs'.setPackets
  · intro v hv hmachine hi
    have hp := hs'.pair v hv out.dst hi
    rw [packetsOf_append, ← hmachine]
    by_cases hvu : v = u
    · subst hvu
      have hflight' : packetsOf v ((s.setThread v th).channel v.machine out.dst) =
          s.inFlight v out.dst := rfl
      rw [hth] at hp ⊢
      have hpacket : packetsOf v [Message.accumulate out.packet (v, (s.threads v).round)] =
          [(out.packet, s.released + 1)] := by
        simp [packetsOf, hround]
      rw [hpacket, hflight']
      refine ⟨hp.finals_eq, fun h => ?_, fun _ => ha.round_eq.trans hround, fun x hx => ?_, ?_, ?_⟩
      · have hbad : upTo s.released = upTo (s.released + 1) := hfinals.symm.trans h
        exact absurd (upTo_injective hbad) (Nat.ne_of_lt (Nat.lt_succ_self _))
      · rcases List.mem_append.mp hx with hx | hx
        · exact hp.tag x hx
        · obtain rfl := List.mem_singleton.mp hx
          exact ⟨rfl, (ha.last out rfl).imp id And.left⟩
      · intro pre x post heq hne
        rcases List.append_eq_append_iff.mp heq with ⟨mid, hpre, hmid⟩ | ⟨mid, hpre, hmid⟩
        · cases mid with
          | nil =>
              obtain ⟨-, rfl⟩ := List.cons.inj hmid
              rfl
          | cons y mid =>
              have hlen := congrArg List.length hmid
              simp only [List.length_cons, List.length_nil, List.length_append] at hlen
              omega
        · cases mid with
          | nil =>
              obtain ⟨-, rfl⟩ := List.cons.inj hmid
              rfl
          | cons y mid =>
              obtain ⟨rfl, -⟩ := List.cons.inj hmid
              exact absurd (hflight x (by rw [hpre]; simp)) hne
      · intro x hx hne
        rcases List.mem_append.mp hx with hx | hx
        · exact absurd (hflight x hx) hne
        · obtain rfl := List.mem_singleton.mp hx
          exact ((ha.last out rfl).resolve_left hne).2
    · have hpacket : packetsOf v [Message.accumulate out.packet (u, (s.threads u).round)] = [] := by
        simp [packetsOf, Ne.symm hvu]
      rw [hpacket, List.append_nil]
      exact hp
  · intro p c hmem
    rcases List.mem_append.mp hmem with hmem | hmem
    · exact hs'.sender _ _ p c hmem
    · cases List.mem_singleton.mp hmem
      exact ⟨hu, rfl, hlt, hdst⟩
  · simp [List.countP_append, Message.isReport]

end Threads

section Nodes

variable {cfg : Config T} {k : Nat} {s : State T} {u : SyncThreadNode}

/-- A packet of call `R + 1` that a node is about to handle. -/
structure InHand (cfg : Config T) (s : State T) (u : SyncThreadNode) (i : Nat) (p : Packet T) :
    Prop where
  mem : u ∈ cfg.users
  lt : i < cfg.numNodes
  round : (s.threads u).round = s.released + 1
  finals : (s.nodes i).finals u = upTo s.released
  last : p.threadId = 0 ∨ p.threadId = u.threadId ∧ (s.threads u).Closed u i ∧ s.inFlight u i = []

/-- The node has not yet written its segment of the round of a packet in hand. -/
theorem InHand.written (hs : Inv cfg k s) {i : Nat} {p : Packet T} (h : InHand cfg s u i p) :
    (s.nodes i).written.length = s.released := by
  have hn := hs.node i h.lt
  have hle := hn.le_finals u h.mem
  rw [h.finals, length_upTo] at hle
  have hw := hn.written
  omega

theorem inv_addData (hs : Inv cfg k s) {i : Nat} {p : Packet T} (h : InHand cfg s u i p)
    {node : DataSyncNode T} (hadd : addData cfg (s.nodes i) p (u, s.released + 1) = some node) :
    Inv cfg k (s.setNode i node) ∧ node.finals = (s.nodes i).finals := by
  rw [addData] at hadd
  split at hadd
  · obtain rfl := Option.some.inj hadd
    have hsame : s.setNode i (s.nodes i) = s := by
      rw [State.setNode, Function.update_eq_self]
    rw [hsame]
    exact ⟨hs, rfl⟩
  · obtain ⟨buf, -, rfl⟩ := Option.map_eq_some_iff.mp hadd
    have hn := hs.node i h.lt
    refine ⟨hs.setNode_same h.lt (fun v hv => hs.pair v hv i h.lt) ?_ rfl ?_ rfl, rfl⟩
    · refine { hn with held := ?_ }
      intro c hc
      rcases List.mem_append.mp hc with hc | hc
      · exact hn.held c hc
      · obtain rfl := List.mem_singleton.mp hc
        exact ⟨rfl, h.written hs⟩
    · rintro rfl
      exact hs.waiting

theorem inv_arrive (hs : Inv cfg k s) {i : Nat} {p : Packet T} (h : InHand cfg s u i p)
    (hid : p.threadId ≠ 0) :
    Inv cfg k (s.setNode i (arrive (s.nodes i) i u.machine p (u, s.released + 1))) := by
  obtain ⟨hpid, hclosed, hflight⟩ := h.last.resolve_left hid
  have hn := hs.node i h.lt
  have hwritten := h.written hs
  have hself : Function.update (s.nodes i).finals u ((s.nodes i).finals u ++ [s.released + 1]) u =
      upTo (s.released + 1) := by
    rw [Function.update_self, h.finals, upTo_succ]
  have hlen : ∀ v, v ≠ u → Function.update (s.nodes i).finals u
      ((s.nodes i).finals u ++ [s.released + 1]) v = (s.nodes i).finals v :=
    fun v hv => Function.update_of_ne hv ..
  apply hs.setNode_same h.lt
  · intro v hv
    have hp := hs.pair v hv i h.lt
    simp only [arrive]
    by_cases hvu : v = u
    · subst hvu
      rw [hself]
      refine ⟨Or.inr rfl, fun _ => ⟨h.round, hclosed, hflight⟩, hp.sent, hp.tag, hp.last, hp.closed⟩
    · rw [hlen v hvu]
      exact hp
  · refine { hn with le_finals := ?_, val := ?_ }
    · intro v hv
      simp only [arrive]
      by_cases hvu : v = u
      · subst hvu
        rw [hself, length_upTo, hwritten]
        exact Nat.le_succ _
      · rw [hlen v hvu]
        exact hn.le_finals v hv
    · simp only [arrive]
      rw [hn.val]
      symm
      apply countP_eq_succ cfg.nodup h.mem
      · rw [h.finals, hwritten, length_upTo]
        exact Nat.ne_of_lt (Nat.lt_succ_self _)
      · exact (congrArg List.length hself).trans (by rw [length_upTo, hwritten])
      · intro v hv hvu
        rw [hlen v hvu]
  · rfl
  · rintro rfl
    obtain ⟨hnodup, hmem⟩ := hs.waiting
    have hnot : u ∉ (s.nodes 0).waitlist := by
      intro hu
      have := ((hmem u).mp hu).2
      rw [State.handled, h.finals, length_upTo] at this
      omega
    have hu : (⟨u.machine, p.threadId⟩ : SyncThreadNode) = u := by
      rw [hpid]
    simp only [arrive, if_true, hu]
    constructor
    · rw [List.nodup_append]
      refine ⟨hnodup, by simp, fun a ha b hb hab => ?_⟩
      rw [List.mem_singleton.mp hb] at hab
      exact hnot (hab ▸ ha)
    · intro v
      rw [List.mem_append, List.mem_singleton, hmem v, State.handled]
      by_cases hvu : v = u
      · subst hvu
        rw [hself, length_upTo]
        exact ⟨fun _ => ⟨h.mem, rfl⟩, fun _ => Or.inr rfl⟩
      · rw [hlen v hvu]
        exact ⟨fun h => h.resolve_right hvu, Or.inl⟩
  · rfl

/-- After the last message of the last thread the node writes its segment. -/
theorem inv_complete [Zero T] (hs : Inv cfg 0 s) {i : Nat} (hi : i < cfg.numNodes)
    (hwritten : (s.nodes i).written.length = s.released)
    (hval : cfg.users.length ≤ (s.nodes i).val) :
    Inv cfg 1 (complete cfg s i (s.nodes i)) ∧
      (complete cfg s i (s.nodes i)).wrote i = s.released + 1 := by
  have hn := hs.node i hi
  have hall : ∀ u ∈ cfg.users, ((s.nodes i).finals u).length = s.released + 1 := by
    have hcount := hn.val
    rw [hwritten] at hcount
    have heq : cfg.users.countP (fun u => decide (((s.nodes i).finals u).length = s.released + 1)) =
        cfg.users.length := Nat.le_antisymm List.countP_le_length (by omega)
    intro u hu
    have hmem := List.countP_eq_length.mp heq u hu
    exact of_decide_eq_true hmem
  have hreports : s.reports i = 0 := by
    have hle := hn.reports_le
    have hne : s.reports i ≠ 1 := fun h => by
      have := (hn.reported h).1
      omega
    omega
  constructor
  · apply Inv.setOut
    apply hs.setNode hi
    · exact fun u hu => hs.pair u hu i hi
    · refine ⟨?_, ?_, ?_, ?_, ?_, hn.reports_le, ?_⟩
      · rw [List.length_append, hwritten]
        exact Or.inr rfl
      · intro u hu
        rw [List.length_append, hwritten, List.length_singleton]
        exact Nat.le_of_eq (hall u hu).symm
      · symm
        apply List.countP_eq_zero.mpr
        intro u hu
        rw [List.length_append, hwritten, List.length_singleton]
        simp [hall u hu]
      · intro c hc
        cases hc
      · intro r w hr c hc
        by_cases hlt : r < (s.nodes i).written.length
        · rw [List.getElem?_append_left hlt] at hr
          exact hn.tags r w hr c hc
        · have hr' : r = s.released := by
            have hlast := (List.getElem?_eq_some_iff.mp hr).1
            rw [List.length_append, List.length_singleton] at hlast
            omega
          subst hr'
          rw [List.getElem?_append_right (by omega), hwritten, Nat.sub_self] at hr
          obtain rfl : (s.nodes i).held = w := Option.some.inj hr
          exact (hn.held c hc).1
      · rw [hreports]
        intro h
        cases h
    · rw [State.doneNodeCnt_setNode s]
      · exact hs.done_lt
      · rfl
    · rintro rfl
      exact hs.waiting
    · have hdone := hs.done
      rw [Nat.add_zero] at hdone
      rw [State.doneNodeCnt_setNode s (by exact rfl), hdone]
      symm
      apply countP_eq_succ List.nodup_range (List.mem_range.mpr hi)
      · intro h
        have hbad : (s.nodes i).written.length = s.released + 1 := h.1
        omega
      · refine ⟨?_, hreports⟩
        rw [State.wrote_setNode, if_pos rfl, List.length_append, hwritten]
        rfl
      · intro j hj hji
        rw [State.wrote_setNode, if_neg hji]
  · exact (State.wrote_setNode s i _ i).trans (by
      rw [if_pos rfl, List.length_append, hwritten]
      rfl)


/-- A node other than the master reports over its connection. -/
theorem inv_report (hs : Inv cfg 1 s) {i : Nat} (hi : i < cfg.numNodes) (hi0 : i ≠ 0)
    (hwrote : s.wrote i = s.released + 1) (hreports : s.reports i = 0) :
    Inv cfg 0 (s.send i 0 .partialDone) := by
  have hcount : (s.channel i 0 ++ [Message.partialDone]).countP Message.isReport = 1 := by
    have hzero : (s.channel i 0).countP Message.isReport = 0 := hreports
    rw [List.countP_append, hzero]
    rfl
  apply hs.setChannel
  · intro u hu hmachine h0
    have hnone : packetsOf u [(Message.partialDone : Message T)] = [] := rfl
    rw [packetsOf_append, hnone, List.append_nil, ← hmachine]
    exact hs.pair u hu 0 h0
  · intro p c hmem
    rcases List.mem_append.mp hmem with hmem | hmem
    · exact hs.sender i 0 p c hmem
    · cases List.mem_singleton.mp hmem
  · exact fun _ => hi
  · intro _ _
    rw [hcount]
    exact { hs.node i hi with
      reports_le := Nat.le_refl 1
      reported := fun _ => ⟨hwrote, hi0⟩ }
  · have hdone := hs.done
    apply Nat.succ_injective
    rw [Nat.add_zero, Nat.succ_eq_add_one, hdone]
    apply countP_eq_succ List.nodup_range (List.mem_range.mpr hi)
    · rw [State.reports_setChannel, if_pos ⟨rfl, rfl⟩, hcount]
      exact fun h => Nat.one_ne_zero h.2
    · exact ⟨hwrote, hreports⟩
    · intro j hj hji
      rw [State.reports_setChannel, if_neg fun h => hji h.1]

/-- What waking a list of threads does. -/
structure Wakes (l : List SyncThreadNode) (s s' : State T) : Prop where
  threads : s'.threads = s.threads
  nodes : s'.nodes = s.nodes
  channel : s'.channel = s.channel
  out : s'.out = s.out
  released : s'.released = s.released
  woken : ∀ u, s'.woken u = if u ∈ l then s.woken u ++ [(s.threads u).round] else s.woken u
  event : ∀ u, s'.event u = if u ∈ l ∧ u.machine = 0 then true else s.event u
  wakesOf : ∀ u, s'.wakesOf u = if u ∈ l ∧ u.machine ≠ 0 then s.wakesOf u + 1 else s.wakesOf u
  mem : ∀ machine threadId, threadId ∈ s'.wakes machine →
    threadId ∈ s.wakes machine ∨ ⟨machine, threadId⟩ ∈ l

theorem rcWakeRemoteThread_wakes (s : State T) (th : SyncThreadNode) :
    Wakes [th] s (s.rcWakeRemoteThread th) := by
  by_cases h0 : th.machine = 0
  · have heq : s.rcWakeRemoteThread th = { s with
        woken := Function.update s.woken th (s.woken th ++ [(s.threads th).round])
        event := Function.update s.event th true } := if_pos h0
    rw [heq]
    refine ⟨rfl, rfl, rfl, rfl, rfl, fun u => ?_, fun u => ?_, fun u => ?_, fun _ _ h => Or.inl h⟩
    · by_cases hu : u = th
      · subst hu
        simp
      · simp [hu]
    · by_cases hu : u = th
      · subst hu
        simp [h0]
      · simp [hu]
    · have hno : ¬(u ∈ [th] ∧ u.machine ≠ 0) := by
        rintro ⟨hmem, hne⟩
        rw [List.mem_singleton.mp hmem] at hne
        exact hne h0
      rw [if_neg hno]
      rfl
  · have heq : s.rcWakeRemoteThread th = { s with
        woken := Function.update s.woken th (s.woken th ++ [(s.threads th).round])
        wakes := Function.update s.wakes th.machine (s.wakes th.machine ++ [th.threadId]) } :=
      if_neg h0
    rw [heq]
    refine ⟨rfl, rfl, rfl, rfl, rfl, fun u => ?_, fun u => ?_, fun u => ?_, fun m t h => ?_⟩
    · by_cases hu : u = th
      · subst hu
        simp
      · simp [hu]
    · have hno : ¬(u ∈ [th] ∧ u.machine = 0) := by
        rintro ⟨hmem, heq⟩
        rw [List.mem_singleton.mp hmem] at heq
        exact h0 heq
      rw [if_neg hno]
    · simp only [State.wakesOf]
      by_cases hm : u.machine = th.machine
      · rw [hm, Function.update_self, List.count_append]
        by_cases hid : u.threadId = th.threadId
        · have hu : u = th := by
            cases u
            cases th
            simp only [SyncThreadNode.mk.injEq]
            exact ⟨hm, hid⟩
          subst hu
          simp [h0]
        · have hu : u ≠ th := fun h => hid (congrArg _ h)
          simp [hu, Ne.symm hid]
      · have hu : u ≠ th := fun h => hm (congrArg _ h)
        rw [Function.update_of_ne hm]
        simp [hu]
    · change t ∈ Function.update s.wakes th.machine (s.wakes th.machine ++ [th.threadId]) m at h
      by_cases hm : m = th.machine
      · subst hm
        rw [Function.update_self, List.mem_append, List.mem_singleton] at h
        exact h.imp id fun h => by rw [h]; exact List.mem_singleton.mpr rfl
      · rw [Function.update_of_ne hm] at h
        exact Or.inl h

theorem foldl_wakes {l : List SyncThreadNode} (hl : l.Nodup) (s : State T) :
    Wakes l s (l.foldl State.rcWakeRemoteThread s) := by
  induction l generalizing s with
  | nil => exact ⟨rfl, rfl, rfl, rfl, rfl, by simp, by simp, by simp, fun _ _ h => Or.inl h⟩
  | cons th l ih =>
      rw [List.nodup_cons] at hl
      have h₁ := rcWakeRemoteThread_wakes s th
      have h₂ := ih hl.2 (s.rcWakeRemoteThread th)
      rw [List.foldl_cons]
      refine ⟨h₂.threads.trans h₁.threads, h₂.nodes.trans h₁.nodes, h₂.channel.trans h₁.channel,
        h₂.out.trans h₁.out, h₂.released.trans h₁.released, fun u => ?_, fun u => ?_, fun u => ?_,
        fun m t h => ?_⟩
      · rw [h₂.woken, h₁.woken, h₁.threads]
        by_cases hu : u = th
        · subst hu
          simp [hl.1]
        · simp [hu]
      · rw [h₂.event, h₁.event]
        by_cases hu : u = th
        · subst hu
          simp [hl.1]
        · simp [hu]
      · rw [h₂.wakesOf, h₁.wakesOf]
        by_cases hu : u = th
        · subst hu
          simp [hl.1]
        · simp [hu]
      · rcases h₂.mem m t h with h | h
        · rcases h₁.mem m t h with h | h
          · exact Or.inl h
          · exact Or.inr (by rw [List.mem_singleton.mp h]; exact List.mem_cons_self)
        · exact Or.inr (List.mem_cons_of_mem th h)

/-- When every node has reported, round `R + 1` is over everywhere. -/
theorem Inv.all_wrote (hs : Inv cfg 1 s) (hall : cfg.numNodes ≤ (s.nodes 0).doneNodeCnt + 1) :
    ∀ i < cfg.numNodes, s.wrote i = s.released + 1 ∧ s.reports i = 0 := by
  have hdone := hs.done
  have hle : (List.range cfg.numNodes).countP (fun i =>
      decide (s.wrote i = s.released + 1 ∧ s.reports i = 0)) ≤ (List.range cfg.numNodes).length :=
    List.countP_le_length
  have hlen : (List.range cfg.numNodes).length = cfg.numNodes := List.length_range
  have heq := Nat.le_antisymm hle (by omega)
  intro i hi
  exact of_decide_eq_true (List.countP_eq_length.mp heq i (List.mem_range.mpr hi))

theorem Inv.all_finals (hs : Inv cfg 1 s) (hall : cfg.numNodes ≤ (s.nodes 0).doneNodeCnt + 1) :
    ∀ i < cfg.numNodes, ∀ u ∈ cfg.users, (s.nodes i).finals u = upTo (s.released + 1) := by
  intro i hi u hu
  have hle : s.wrote i ≤ ((s.nodes i).finals u).length := (hs.node i hi).le_finals u hu
  rcases (hs.pair u hu i hi).finals_eq with h | h
  · rw [h, length_upTo, (hs.all_wrote hall i hi).1] at hle
    omega
  · exact h

theorem Inv.all_wait (hs : Inv cfg 1 s) (hall : cfg.numNodes ≤ (s.nodes 0).doneNodeCnt + 1)
    (u : SyncThreadNode) : u ∈ (s.nodes 0).waitlist ↔ u ∈ cfg.users := by
  rw [hs.waiting.2 u]
  refine ⟨And.left, fun hu => ⟨hu, ?_⟩⟩
  rw [State.handled, hs.all_finals hall 0 cfg.pos u hu, length_upTo]

/-- A thread in a call that is over is woken by its event or by a message. -/
theorem ThreadInv.release {R : Nat} {u : SyncThreadNode} {th : Thread} {event : Bool} {wakes : Nat}
    (hth : ThreadInv cfg R u th event wakes) (hround : th.round = R + 1)
    (hclosed : ∀ i < cfg.numNodes, th.Closed u i) :
    ThreadInv cfg (R + 1) u th (decide (u.machine = 0)) (if u.machine = 0 then 0 else 1) := by
  have hne : th.phase ≠ .idle := by
    rcases hth.round with h | h
    · omega
    · exact h.2
  refine ⟨Or.inl hround, fun h => by omega, fun _ _ => ⟨hclosed, ?_⟩, fun h => absurd h hne⟩
  by_cases h0 : u.machine = 0
  · exact Or.inl (by simp [h0])
  · exact Or.inr (by simp [h0])

/-- The master wakes the threads. -/
theorem inv_release (hs : Inv cfg 1 s) (hall : cfg.numNodes ≤ (s.nodes 0).doneNodeCnt + 1)
    {s' : State T} (hw : Wakes (s.nodes 0).waitlist s s') {node : DataSyncNode T}
    (hnode : node = { s.nodes 0 with doneNodeCnt := 0, waitlist := [] }) :
    Inv cfg 0 { s'.setNode 0 node with released := s.released + 1 } := by
  have hwrote := hs.all_wrote hall
  have hfinals := hs.all_finals hall
  have hmem := hs.all_wait hall
  have hnodes : ∀ i, ((s'.setNode 0 node).nodes i).finals = (s.nodes i).finals ∧
      ((s'.setNode 0 node).nodes i).written = (s.nodes i).written ∧
      ((s'.setNode 0 node).nodes i).held = (s.nodes i).held ∧
      ((s'.setNode 0 node).nodes i).val = (s.nodes i).val := by
    intro i
    by_cases hi : i = 0
    · subst hi
      simp [State.setNode, hnode]
    · simp [State.setNode, hi, hw.nodes]
  have hreports : ∀ i, (s'.setNode 0 node).reports i = s.reports i := fun i => by
    rw [State.reports, State.reports, State.setNode, hw.channel]
  have hflight : ∀ u i, (s'.setNode 0 node).inFlight u i = s.inFlight u i := fun u i => by
    rw [State.inFlight, State.inFlight, State.setNode, hw.channel]
  have hself : (s'.setNode 0 node).nodes 0 = node := by
    simp [State.setNode]
  constructor
  · intro u hu
    have hth := hs.thread u hu
    obtain ⟨hround, -, -⟩ := (hs.pair u hu 0 cfg.pos).handled (hfinals 0 cfg.pos u hu)
    obtain ⟨hevent, hwakes⟩ := hth.inCall hround
    have hthreads : (s'.setNode 0 node).threads u = s.threads u := congrFun hw.threads u
    have hevent' : (s'.setNode 0 node).event u = decide (u.machine = 0) := by
      have h := hw.event u
      rw [hevent] at h
      rw [show (s'.setNode 0 node).event u = s'.event u from rfl, h]
      simp [(hmem u).mpr hu]
    have hwakes' : (s'.setNode 0 node).wakesOf u = if u.machine = 0 then 0 else 1 := by
      have h := hw.wakesOf u
      rw [hwakes] at h
      rw [show (s'.setNode 0 node).wakesOf u = s'.wakesOf u from rfl, h]
      simp [(hmem u).mpr hu]
    show ThreadInv cfg (s.released + 1) u ((s'.setNode 0 node).threads u)
      ((s'.setNode 0 node).event u) ((s'.setNode 0 node).wakesOf u)
    rw [hthreads, hevent', hwakes']
    apply hth.release hround
    exact fun i hi => ((hs.pair u hu i hi).handled (hfinals i hi u hu)).2.1
  · intro u hu i hi
    have hnone := ((hs.pair u hu i hi).handled (hfinals i hi u hu)).2.2
    show PairInv (s.released + 1) u ((s'.setNode 0 node).threads u) i
      (((s'.setNode 0 node).nodes i).finals u) ((s'.setNode 0 node).inFlight u i)
    rw [hflight, hnone, (hnodes i).1, hfinals i hi u hu]
    apply PairInv.of_nil (Or.inl rfl)
    intro h
    exact absurd (upTo_injective h) (Nat.ne_of_lt (Nat.lt_succ_self _))
  · intro i hi
    have hn := hs.node i hi
    obtain ⟨hfin, hwri, hheld, hval⟩ := hnodes i
    have hlen : (s.nodes i).written.length = s.released + 1 := (hwrote i hi).1
    show NodeInv cfg (s.released + 1) i ((s'.setNode 0 node).nodes i) ((s'.setNode 0 node).reports i)
    rw [hreports, (hwrote i hi).2]
    constructor
    · rw [hwri]
      exact Or.inl hlen
    · rw [hfin, hwri]
      exact hn.le_finals
    · rw [hval, hn.val]
      simp only [hfin, hwri]
    · intro c hc
      rw [hheld] at hc
      have := (hn.held c hc).2
      omega
    · rw [hwri]
      exact hn.tags
    · exact Nat.zero_le 1
    · intro h
      cases h
  · show ((s'.setNode 0 node).nodes 0).doneNodeCnt + 0 = (List.range cfg.numNodes).countP fun i =>
      (s'.setNode 0 node).wrote i = s.released + 1 + 1 ∧ (s'.setNode 0 node).reports i = 0
    have hzero : ((s'.setNode 0 node).nodes 0).doneNodeCnt = 0 := by
      rw [hself, hnode]
    rw [hzero]
    symm
    apply List.countP_eq_zero.mpr
    intro i hi
    have hwri : (s'.setNode 0 node).wrote i = s.released + 1 := by
      rw [State.wrote, (hnodes i).2.1]
      exact (hwrote i (List.mem_range.mp hi)).1
    simp [hwri]
  · show ((s'.setNode 0 node).nodes 0).doneNodeCnt < cfg.numNodes
    rw [hself, hnode]
    exact cfg.pos
  · show ((s'.setNode 0 node).nodes 0).waitlist.Nodup ∧ ∀ u,
      u ∈ ((s'.setNode 0 node).nodes 0).waitlist ↔
        u ∈ cfg.users ∧ (((s'.setNode 0 node).nodes 0).finals u).length = s.released + 1 + 1
    have hnil : ((s'.setNode 0 node).nodes 0).waitlist = [] := by
      rw [hself, hnode]
    rw [hnil, (hnodes 0).1]
    refine ⟨List.nodup_nil, fun u => ⟨(fun h => by cases h), fun ⟨hu, h⟩ => ?_⟩⟩
    rw [hfinals 0 cfg.pos u hu, length_upTo] at h
    omega
  · intro u hu
    obtain ⟨hround, -, -⟩ := (hs.pair u hu 0 cfg.pos).handled (hfinals 0 cfg.pos u hu)
    show s'.woken u = upTo (s.released + 1)
    rw [hw.woken, if_pos ((hmem u).mpr hu), hs.woken u hu, hround, upTo_succ]
  · intro src dst p c hc
    have hc' : .accumulate p c ∈ s'.channel src dst := hc
    rw [hw.channel] at hc'
    exact hs.sender src dst p c hc'
  · intro src dst hc
    have hc' : .partialDone ∈ s'.channel src dst := hc
    rw [hw.channel] at hc'
    exact hs.reporter src dst hc'
  · intro machine threadId h
    rcases hw.mem machine threadId h with h | h
    · exact hs.wake machine threadId h
    · exact (hmem _).mp h
  · intro u hu
    show (s'.threads u).phase = .idle
    rw [hw.threads]
    exact hs.idle u hu

theorem inv_partialDone (hs : Inv cfg 1 s) : Inv cfg 0 (acAccumulatePartialDoneMsg cfg s) := by
  rw [acAccumulatePartialDoneMsg]
  split
  · rename_i hall
    have hw := foldl_wakes hs.waiting.1 s
    have hrel : (List.foldl State.rcWakeRemoteThread s (s.nodes 0).waitlist).released =
        s.released := hw.released
    have hnew := inv_release hs hall hw rfl
    rw [← hrel] at hnew
    exact hnew
  · rename_i hnot
    have hdone := hs.done
    apply hs.setNode cfg.pos
    · exact fun u hu => hs.pair u hu 0 cfg.pos
    · exact { hs.node 0 cfg.pos with }
    · simp only [State.setNode, Function.update_self]
      exact Nat.lt_of_not_le hnot
    · exact fun _ => hs.waiting
    · have hwrote : ∀ j, (s.setNode 0 { s.nodes 0 with
          doneNodeCnt := (s.nodes 0).doneNodeCnt + 1 }).wrote j = s.wrote j :=
        State.wrote_setNode_of_eq s rfl
      simp only [hwrote]
      simp only [State.setNode, Function.update_self]
      exact hdone


/-- `AcAccumulateMsg` keeps the invariant. -/
theorem inv_acAccumulateMsg [Zero T] (hs : Inv cfg 0 s) {i : Nat} {p : Packet T}
    (h : InHand cfg s u i p) {s' : State T}
    (hmsg : acAccumulateMsg cfg s i u.machine p (u, s.released + 1) = some s') : Inv cfg 0 s' := by
  obtain ⟨node, hadd, hrest⟩ := Option.bind_eq_some_iff.mp hmsg
  obtain ⟨hs₁, hfinals⟩ := inv_addData hs h hadd
  have hnode : (s.setNode i node).nodes i = node := by
    simp [State.setNode]
  have h₁ : InHand cfg (s.setNode i node) u i p :=
    { h with
      finals := by
        rw [hnode, hfinals]
        exact h.finals }
  split at hrest
  · obtain rfl := Option.some.inj hrest
    exact hs₁
  · rename_i hid
    have hs₂ := inv_arrive hs₁ h₁ hid
    have hset : ∀ node', (s.setNode i node).setNode i node' = s.setNode i node' := fun node' => by
      simp [State.setNode]
    rw [hnode, hset] at hs₂
    obtain ⟨arrived, harrived⟩ : ∃ arrived, arrived =
      arrive node i u.machine p (u, s.released + 1) := ⟨_, rfl⟩
    change Inv cfg 0 (s.setNode i (arrive node i u.machine p (u, s.released + 1))) at hs₂
    simp only [← harrived] at hs₂ hrest
    split at hrest
    · rename_i hval
      have hself : (s.setNode i arrived).nodes i = arrived := by
        simp [State.setNode]
      have hwritten : ((s.setNode i arrived).nodes i).written.length = s.released := by
        have hold := h₁.written hs₁
        rw [hnode] at hold
        rw [hself, harrived]
        exact hold
      obtain ⟨hs₃, hwrote⟩ := inv_complete hs₂ h.lt hwritten (by rw [hself]; exact hval)
      have hcomplete : complete cfg (s.setNode i arrived) i ((s.setNode i arrived).nodes i) =
          complete cfg s i arrived := by
        rw [hself]
        simp [complete, State.setNode]
      rw [hcomplete] at hs₃ hwrote
      obtain rfl := Option.some.inj hrest
      split
      · exact inv_partialDone hs₃
      · rename_i hi0
        refine inv_report hs₃ h.lt hi0 hwrote ?_
        have hn := hs₂.node i h.lt
        have hle := hn.reports_le
        have hne : (s.setNode i arrived).reports i ≠ 1 := fun hone => by
          have := (hn.reported hone).1
          rw [hwritten] at this
          exact Nat.ne_of_lt (Nat.lt_succ_self _) this
        have hzero : (s.setNode i arrived).reports i = 0 := by omega
        exact hzero
    · obtain rfl := Option.some.inj hrest
      exact hs₂

/-- Taking a packet off its connection. -/
theorem inv_takePacket (hs : Inv cfg k s) {src dst : Nat} {p : Packet T} {c : Call}
    {rest : List (Message T)} (hchan : s.channel src dst = .accumulate p c :: rest) :
    Inv cfg k (s.setChannel src dst rest) ∧ InHand cfg (s.setChannel src dst rest) c.1 dst p ∧
      c.1.machine = src ∧ c.2 = s.released + 1 := by
  obtain ⟨hmem, hmachine, hlt, -⟩ := hs.sender src dst p c (by rw [hchan]; exact List.mem_cons_self)
  obtain ⟨u, round⟩ := c
  have hp := hs.pair u hmem dst hlt
  have hflight : s.inFlight u dst = (p, round) :: packetsOf u rest := by
    rw [State.inFlight, hmachine, hchan]
    simp [packetsOf]
  rw [hflight] at hp
  obtain ⟨rfl, hid⟩ := hp.tag (p, round) List.mem_cons_self
  refine ⟨?_, ?_, hmachine, rfl⟩
  · apply hs.setPackets
    · intro v hv hv' _
      have hpv := hs.pair v hv dst hlt
      by_cases hvu : v = u
      · subst hvu
        refine ⟨hp.finals_eq, fun hfin => ?_, fun _ => hp.sent (by simp), fun x hx => ?_, ?_, ?_⟩
        · have := (hp.handled hfin).2.2
          cases this
        · exact hp.tag x (List.mem_cons_of_mem _ hx)
        · intro pre x post heq
          exact hp.last (_ :: pre) x post (by rw [heq]; rfl)
        · exact fun x hx => hp.closed x (List.mem_cons_of_mem _ hx)
      · have hsame : s.inFlight v dst = packetsOf v rest := by
          rw [State.inFlight, hv', hchan]
          simp [packetsOf, Ne.symm hvu]
        rw [hsame] at hpv
        exact hpv
    · intro p' c' hmem'
      exact hs.sender src dst p' c' (by rw [hchan]; exact List.mem_cons_of_mem _ hmem')
    · rw [hchan]
      simp [Message.isReport]
  · refine ⟨hmem, hlt, hp.sent (by simp), ?_, ?_⟩
    · rcases hp.finals_eq with hfin | hfin
      · exact hfin
      · have := (hp.handled hfin).2.2
        cases this
    · by_cases h0 : p.threadId = 0
      · exact Or.inl h0
      · refine Or.inr ⟨hid.resolve_left h0, hp.closed _ List.mem_cons_self h0, ?_⟩
        have hself : (s.setChannel src dst rest).channel src dst = rest := by
          simp [State.setChannel]
        rw [State.inFlight, hmachine, hself]
        exact hp.last [] _ _ rfl h0

/-- Taking a report off its connection. -/
theorem inv_takeReport (hs : Inv cfg 0 s) {src dst : Nat} {rest : List (Message T)}
    (hchan : s.channel src dst = .partialDone :: rest) :
    Inv cfg (if dst = 0 then 1 else 0) (s.setChannel src dst rest) := by
  have hsrc := hs.reporter src dst (by rw [hchan]; exact List.mem_cons_self)
  have hsender : ∀ p c, .accumulate p c ∈ rest →
      c.1 ∈ cfg.users ∧ c.1.machine = src ∧ dst < cfg.numNodes ∧ dst ≠ src := by
    intro p c hmem
    exact hs.sender src dst p c (by rw [hchan]; exact List.mem_cons_of_mem _ hmem)
  have hpair : ∀ u ∈ cfg.users, u.machine = src → dst < cfg.numNodes →
      PairInv s.released u (s.threads u) dst ((s.nodes dst).finals u) (packetsOf u rest) := by
    intro u hu hmachine hlt
    have hp := hs.pair u hu dst hlt
    have hsame : s.inFlight u dst = packetsOf u rest := by
      rw [State.inFlight, hmachine, hchan]
      simp [packetsOf]
    rw [hsame] at hp
    exact hp
  split
  · rename_i hdst
    subst hdst
    have hn := hs.node src hsrc
    have hcount : s.reports src = rest.countP Message.isReport + 1 := by
      rw [State.reports, hchan, List.countP_cons_of_pos rfl]
    have hle := hn.reports_le
    have hzero : rest.countP Message.isReport = 0 := by omega
    have hone : s.reports src = 1 := by omega
    apply hs.setChannel hpair hsender
    · exact fun _ => hsrc
    · intro _ _
      rw [hzero]
      exact { hn with
        reports_le := Nat.zero_le 1
        reported := fun h => by cases h }
    · have hdone := hs.done
      rw [Nat.add_zero] at hdone
      rw [hdone]
      symm
      apply countP_eq_succ List.nodup_range (List.mem_range.mpr hsrc)
      · rw [hone]
        exact fun h => Nat.one_ne_zero h.2
      · rw [State.reports_setChannel, if_pos ⟨rfl, rfl⟩]
        exact ⟨(hn.reported hone).1, hzero⟩
      · intro j hj hji
        rw [State.reports_setChannel, if_neg fun h => hji h.1]
  · rename_i hdst
    apply hs.setChannel hpair hsender
    · exact fun _ => hsrc
    · exact fun h => absurd h hdst
    · have hsame : ∀ j, (s.setChannel src dst rest).reports j = s.reports j := by
        intro j
        rw [State.reports_setChannel, if_neg fun h => hdst h.2]
      simp only [hsame]
      exact hs.done

/-- Delivering a message. -/
theorem inv_deliver [Zero T] (hs : Inv cfg 0 s) {src dst : Nat} {m : Message T}
    {rest : List (Message T)} (hchan : s.channel src dst = m :: rest) {s' : State T}
    (hrecv : receive cfg (s.setChannel src dst rest) src dst m = some s') : Inv cfg 0 s' := by
  cases m with
  | accumulate p c =>
      obtain ⟨hs₁, hand, hmachine, hround⟩ := inv_takePacket hs hchan
      have hc : c = (c.1, s.released + 1) := by
        rw [← hround]
      rw [receive, hc, ← hmachine] at hrecv
      rw [← hmachine] at hs₁ hand
      exact inv_acAccumulateMsg hs₁ hand hrecv
  | partialDone =>
      have hs₁ := inv_takeReport hs hchan
      rw [receive] at hrecv
      split at hrecv
      · rename_i hdst
        obtain rfl := Option.some.inj hrecv
        rw [if_pos hdst] at hs₁
        exact inv_partialDone hs₁
      · rename_i hdst
        obtain rfl := Option.some.inj hrecv
        rw [if_neg hdst] at hs₁
        exact hs₁

end Nodes

/-! ## Runs -/

section Runs

variable [Zero T] {cfg : Config T} {s s' : State T}

omit [Zero T] in
/-- Delivering a wake message. -/
theorem inv_wake (hs : Inv cfg 0 s) {machine threadId : Nat} {rest : List Nat}
    (hwakes : s.wakes machine = threadId :: rest) :
    Inv cfg 0 { s with
      wakes := Function.update s.wakes machine rest
      event := Function.update s.event ⟨machine, threadId⟩ true } := by
  have hu := hs.wake machine threadId (by rw [hwakes]; exact List.mem_cons_self)
  refine { hs with thread := ?_, wake := ?_ }
  · intro v hv
    have hth := hs.thread v hv
    by_cases hvu : v = ⟨machine, threadId⟩
    · subst hvu
      have hcount : s.wakesOf ⟨machine, threadId⟩ = rest.count threadId + 1 := by
        simp [State.wakesOf, hwakes]
      have hwakes' : State.wakesOf { s with
          wakes := Function.update s.wakes machine rest
          event := Function.update s.event ⟨machine, threadId⟩ true } ⟨machine, threadId⟩ =
            rest.count threadId := by
        simp [State.wakesOf]
      have hround : (s.threads ⟨machine, threadId⟩).round = s.released := by
        rcases hth.round with h | h
        · exact h
        · have := (hth.inCall h.1).2
          omega
      have hidle : (s.threads ⟨machine, threadId⟩).phase ≠ .idle := fun h => by
        have := hth.idle h
        omega
      obtain ⟨hclosed, hdue⟩ := hth.woken hround hidle
      rw [hwakes']
      refine ⟨Or.inl hround,
        fun h => absurd (hround.symm.trans h) (Nat.ne_of_lt (Nat.lt_succ_self _)),
        fun _ _ => ⟨hclosed, Or.inl ⟨?_, by omega⟩⟩, fun h => absurd h hidle⟩
      simp
    · have hsame : State.wakesOf { s with
          wakes := Function.update s.wakes machine rest
          event := Function.update s.event ⟨machine, threadId⟩ true } v = s.wakesOf v := by
        simp only [State.wakesOf]
        by_cases hm : v.machine = machine
        · have hid : v.threadId ≠ threadId := fun h => hvu (by
            cases v
            simp only [SyncThreadNode.mk.injEq]
            exact ⟨hm, h⟩)
          rw [hm, Function.update_self, hwakes, List.count_cons_of_ne (Ne.symm hid)]
        · rw [Function.update_of_ne hm]
      rw [hsame]
      simp only [Function.update_of_ne hvu]
      exact hth
  · intro m t ht
    change t ∈ Function.update s.wakes machine rest m at ht
    by_cases hm : m = machine
    · subst hm
      rw [Function.update_self] at ht
      exact hs.wake m t (by rw [hwakes]; exact List.mem_cons_of_mem _ ht)
    · rw [Function.update_of_ne hm] at ht
      exact hs.wake m t ht

/-- A step keeps the invariant. -/
theorem inv_step (hs : Inv cfg 0 s) {a : Act} (hstep : step cfg s a = some s') : Inv cfg 0 s' := by
  have hmem : ∀ u, (s.threads u).phase ≠ .idle → u ∈ cfg.users := by
    intro u hne
    by_contra hu
    exact hne (hs.idle u hu)
  cases a with
  | call u =>
      simp only [step] at hstep
      split at hstep
      · rename_i hphase
        split at hstep
        · rename_i hu
          obtain rfl := Option.some.inj hstep
          exact inv_call hs hu hphase
        · cases hstep
      · cases hstep
  | advance u ready =>
      obtain ⟨⟨th, o⟩, hadv, hdisp⟩ := Option.bind_eq_some_iff.mp hstep
      have hu : u ∈ cfg.users := by
        apply hmem
        intro hidle
        rw [advance, hidle] at hadv
        cases hadv
      have ha := advance_advances hu hadv
      cases o with
      | none =>
          obtain rfl := Option.some.inj hdisp
          exact inv_advances hs hu ha
      | some out =>
          simp only [dispatch] at hdisp
          split at hdisp
          · rename_i hdst
            obtain ⟨hround, hfinals, -⟩ := round_of_sends hs hu ha
            have hs' := inv_advances hs hu ha
            have hth : (s.setThread u th).threads u = th := by
              simp [State.setThread]
            rw [hround] at hdisp
            refine inv_acAccumulateMsg hs' ⟨hu, cfg.placed u hu, ?_, ?_, ?_⟩ hdisp
            · rw [hth, ha.round_eq]
              exact hround
            · rw [← hdst]
              exact hfinals
            · refine (ha.last out rfl).imp id fun hlast => ⟨hlast.1, ?_, ?_⟩
              · rw [hth, ← hdst]
                exact hlast.2
              · -- nothing travels from a node to itself
                apply List.filterMap_eq_nil_iff.mpr
                intro m hm
                cases m with
                | accumulate p c => exact absurd rfl (hs.sender u.machine u.machine p c hm).2.2.2
                | partialDone => rfl
          · rename_i hdst
            obtain rfl := Option.some.inj hdisp
            exact inv_send hs hu ha hdst
  | ret u =>
      simp only [step] at hstep
      split at hstep
      · rename_i hphase
        split at hstep
        · rename_i hevent
          obtain rfl := Option.some.inj hstep
          exact inv_ret hs (hmem u (by rw [hphase]; exact Phase.noConfusion)) hphase hevent
        · cases hstep
      · cases hstep
  | deliver src dst =>
      simp only [step] at hstep
      split at hstep
      · cases hstep
      · rename_i m rest hchan
        exact inv_deliver hs hchan hstep
  | wake machine =>
      simp only [step] at hstep
      split at hstep
      · cases hstep
      · rename_i threadId rest hwakes
        obtain rfl := Option.some.inj hstep
        exact inv_wake hs hwakes

/-- Every state of every run. -/
theorem inv_run {out : Nat → T} {acts : List Act} (hrun : run (step cfg) (start cfg out) acts = some s) :
    Inv cfg 0 s :=
  invariant_reachable (fun _ _ _ h hstep => inv_step h hstep) (inv_start cfg out) hrun

/-- The thread has returned from its call number `r`. -/
def Returned (s : State T) (u : SyncThreadNode) (r : Nat) : Prop :=
  1 ≤ r ∧ (r < (s.threads u).round ∨ r = (s.threads u).round ∧ (s.threads u).phase = .idle)

end Runs

/-- Forty integers on two nodes, with one thread on each. -/
def twoNodes : Config Int where
  numNodes := 2
  pos := by decide
  users := [⟨0, 1⟩, ⟨1, 1⟩]
  nodup := by decide
  placed := by decide
  id_ne_zero := by decide
  dsmSizeOf := 1
  len := 40
  prepare := acAccumulatePrepareBuffer 1 .dense 0
  accumulate := doAccumulate 1
  input u _ := List.replicate 40 (u.machine + 1)
  junkBase _ := 0

end Dogee.Accumulator
