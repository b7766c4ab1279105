import Dogee.AccumulatorSum

/-!
# The last messages of an accumulator arrive

A thread that sends nothing more to a node has sent it a message with its id in
this call. As long as the node has not handled that message, it is on its way.
Together with the counters, which are reset as soon as they are full, this says
why a round that everybody has joined cannot stop halfway.
-/

namespace Dogee.Accumulator

open SyncManager (SyncThreadNode)
open Transition

variable {T : Type}

/-! ## What handling a message changes -/

section Handling

/-- What `AcAccumulatePartialDoneMsg` leaves as it is. -/
structure Announced (s s' : State T) : Prop where
  threads : s'.threads = s.threads
  finals : ∀ j, (s'.nodes j).finals = (s.nodes j).finals
  val : ∀ j, (s'.nodes j).val = (s.nodes j).val
  channel : s'.channel = s.channel
  released : s'.released = s.released ∨ s'.released = s.released + 1

/-- What waking a thread leaves as it is. -/
structure Quiet (s s' : State T) : Prop where
  threads : s'.threads = s.threads
  nodes : s'.nodes = s.nodes
  channel : s'.channel = s.channel
  released : s'.released = s.released

theorem rcWakeRemoteThread_quiet (s : State T) (th : SyncThreadNode) : Quiet s (s.rcWakeRemoteThread th) := by
  unfold State.rcWakeRemoteThread
  split
  · exact ⟨rfl, rfl, rfl, rfl⟩
  · exact ⟨rfl, rfl, rfl, rfl⟩

theorem foldl_quiet (l : List SyncThreadNode) (s : State T) : Quiet s (l.foldl State.rcWakeRemoteThread s) := by
  induction l generalizing s with
  | nil => exact ⟨rfl, rfl, rfl, rfl⟩
  | cons th l ih =>
      have hfirst := rcWakeRemoteThread_quiet s th
      have hrest := ih (s.rcWakeRemoteThread th)
      exact ⟨hrest.threads.trans hfirst.threads, hrest.nodes.trans hfirst.nodes,
        hrest.channel.trans hfirst.channel, hrest.released.trans hfirst.released⟩

theorem announced_partialDone (cfg : Config T) (s : State T) : Announced s (acAccumulatePartialDoneMsg cfg s) := by
  rw [acAccumulatePartialDoneMsg]
  split
  · have hquiet := foldl_quiet (s.nodes 0).waitlist s
    refine ⟨hquiet.threads, fun j => ?_, fun j => ?_, hquiet.channel, Or.inr ?_⟩
    · by_cases hj : j = 0
      · simp [State.setNode, hj]
      · simp [State.setNode, hj, hquiet.nodes]
    · by_cases hj : j = 0
      · simp [State.setNode, hj]
      · simp [State.setNode, hj, hquiet.nodes]
    · exact congrArg (· + 1) hquiet.released
  · refine ⟨rfl, fun j => ?_, fun j => ?_, rfl, Or.inl rfl⟩
    · by_cases hj : j = 0
      · simp [State.setNode, hj]
      · simp [State.setNode, hj]
    · by_cases hj : j = 0
      · simp [State.setNode, hj]
      · simp [State.setNode, hj]

/-- What `AcAccumulateMsg` at node `i` changes: it counts a last message, and it may
send a report or wake the threads, but not both. -/
structure Handled (cfg : Config T) (s s' : State T) (i : Nat) (p : Packet T) (call : Call) : Prop where
  threads : s'.threads = s.threads
  finals : ∀ j, (s'.nodes j).finals = if j = i ∧ p.threadId ≠ 0 then
    Function.update (s.nodes j).finals call.1 ((s.nodes j).finals call.1 ++ [call.2]) else (s.nodes j).finals
  val : ∀ j, (s'.nodes j).val = (s.nodes j).val ∨ (s'.nodes j).val = 0 ∨ (s'.nodes j).val < cfg.users.length
  released : s'.released = s.released ∨ s'.released = s.released + 1
  channel : s'.channel = s.channel ∨ s'.wakes = s.wakes ∧ s'.channel = (s.send i 0 .partialDone).channel

theorem addData_counters {cfg : Config T} {node node' : DataSyncNode T} {p : Packet T} {call : Call}
    (h : addData cfg node p call = some node') : node'.finals = node.finals ∧ node'.val = node.val := by
  unfold addData at h
  split at h
  · obtain rfl := Option.some.inj h
    exact ⟨rfl, rfl⟩
  · obtain ⟨buf, -, rfl⟩ := Option.map_eq_some_iff.mp h
    exact ⟨rfl, rfl⟩

variable [Zero T]

theorem handled_acAccumulateMsg {cfg : Config T} {s s' : State T} {i src : Nat} {p : Packet T} {call : Call}
    (h : acAccumulateMsg cfg s i src p call = some s') : Handled cfg s s' i p call := by
  obtain ⟨node, hadd, hrest⟩ := Option.bind_eq_some_iff.mp h
  obtain ⟨hfinals, hval⟩ := addData_counters hadd
  split at hrest
  · rename_i hid
    obtain rfl := Option.some.inj hrest
    refine ⟨rfl, fun j => ?_, fun j => Or.inl ?_, Or.inl rfl, Or.inl rfl⟩
    · rw [if_neg fun hc => hc.2 hid]
      by_cases hj : j = i
      · simp [State.setNode, hj, hfinals]
      · simp [State.setNode, hj]
    · by_cases hj : j = i
      · simp [State.setNode, hj, hval]
      · simp [State.setNode, hj]
  · rename_i hid
    obtain ⟨arrived, harrived⟩ : ∃ arrived, arrived = arrive node i src p call := ⟨_, rfl⟩
    simp only [← harrived] at hrest
    have hcount : ∀ j, ((s.setNode i arrived).nodes j).finals = if j = i ∧ p.threadId ≠ 0 then
        Function.update (s.nodes j).finals call.1 ((s.nodes j).finals call.1 ++ [call.2])
        else (s.nodes j).finals := by
      intro j
      by_cases hj : j = i
      · subst hj
        rw [if_pos ⟨rfl, hid⟩]
        simp [State.setNode, harrived, arrive, hfinals]
      · rw [if_neg fun hc => hj hc.1]
        simp [State.setNode, hj]
    split at hrest
    · have hwrite : ∀ j, ((complete cfg s i arrived).nodes j).finals = ((s.setNode i arrived).nodes j).finals ∧
          (((complete cfg s i arrived).nodes j).val = (s.nodes j).val ∨
            ((complete cfg s i arrived).nodes j).val = 0) := by
        intro j
        by_cases hj : j = i
        · simp [complete, State.setNode, hj]
        · simp [complete, State.setNode, hj]
      obtain rfl := Option.some.inj hrest
      split
      · have hdone := announced_partialDone cfg (complete cfg s i arrived)
        refine ⟨hdone.threads, fun j => ?_, fun j => ?_, hdone.released, Or.inl hdone.channel⟩
        · rw [hdone.finals, (hwrite j).1, hcount]
        · rw [hdone.val]
          exact (hwrite j).2.imp_right Or.inl
      · refine ⟨rfl, fun j => ?_, fun j => (hwrite j).2.imp_right Or.inl, Or.inl rfl, Or.inr ⟨rfl, rfl⟩⟩
        exact (hwrite j).1.trans (hcount j)
    · rename_i hnot
      obtain rfl := Option.some.inj hrest
      refine ⟨rfl, hcount, fun j => ?_, Or.inl rfl, Or.inl rfl⟩
      by_cases hj : j = i
      · exact Or.inr (Or.inr (by simpa [State.setNode, hj] using hnot))
      · exact Or.inl (by simp [State.setNode, hj])

end Handling

/-! ## The last message of a call -/

section Delivering

variable [AddCommGroup T] [LinearOrder T] {acc : AddAccumulator T} {s s' : State T} {u : SyncThreadNode}

/-- With the step that closes a node a thread sends it a message with its id. -/
theorem closed_of_advance {th th' : Thread} {outs : List (Output T)} {o : Option (Output T)}
    {ready : Nat → Bool} (h : Sending acc.toConfig u th outs)
    (hadv : advance acc.toConfig u th ready = some (th', o)) {i : Nat} (hi : i < acc.numNodes)
    (hclosed : th'.Closed u i) :
    th.Closed u i ∨ ∃ out, o = some out ∧ out.dst = i ∧ out.packet.threadId = u.threadId := by
  rw [advance] at hadv
  rw [Sending] at h
  rw [Thread.Closed]
  split at hadv
  · rename_i k hphase
    rw [hphase] at h ⊢
    split at hadv
    · obtain ⟨rfl, rfl⟩ := Prod.mk.inj (Option.some.inj hadv)
      obtain ⟨hlt, hne, hle⟩ := hclosed
      by_cases hik : i = k
      · subst hik
        right
        simp only [Function.update_self] at hle
        exact ⟨_, if_pos ⟨hle, hne⟩, rfl, rfl⟩
      · left
        simp only [Function.update_of_ne hik] at hle
        exact ⟨Nat.lt_of_le_of_ne (Nat.le_of_lt_succ hlt) hik, hne, hle⟩
    · rename_i hk
      cases hadv
      exact Or.inl ⟨Nat.lt_of_lt_of_le hi (Nat.le_of_not_lt hk), hclosed⟩
  · rename_i hphase
    rw [hphase]
    cases hadv
    by_cases hself : i = u.machine
    · exact Or.inr ⟨_, rfl, hself.symm, rfl⟩
    · left
      simp only [Thread.Closed, Function.update_of_ne hself] at hclosed
      exact ⟨hself, hclosed⟩
  · rename_i hphase
    rw [hphase]
    cases hadv
    left
    rw [Thread.Closed] at hclosed
    by_cases hdone : th.done < acc.numNodes
    · simpa only [hdone, if_true] using hclosed
    · simpa only [hdone, if_false] using hclosed
  · rename_i ready' k hphase
    rw [hphase] at h ⊢
    split at hadv
    · rename_i hk
      have hpair := Option.some.inj hadv
      by_cases hsend : th.sendIdx k < th.sendSize k ∧ k ≠ u.machine ∧ ready' k
      · obtain ⟨hlt, hne, hready⟩ := hsend
        rw [h.2.size_eq k hk] at hlt
        obtain ⟨r, -, hle, -, -, heq⟩ := passNode_sends hk h.2 hlt hne hready
        rw [heq] at hpair
        cases hpair
        simp only [Thread.Closed] at hclosed
        by_cases hik : i = k
        · subst hik
          right
          rw [h.2.size_eq i hi, Function.update_self] at hclosed
          exact ⟨_, rfl, rfl, if_pos (Nat.le_antisymm hle hclosed)⟩
        · left
          rwa [Function.update_of_ne hik] at hclosed
      · rw [passNode, if_neg hsend] at hpair
        cases hpair
        exact Or.inl hclosed
    · cases hadv
      exact Or.inl hclosed
  · cases hadv
  · cases hadv

/-- What is due in every state; `hand` says whose last message a node has in hand. -/
structure Delivering (acc : AddAccumulator T) (s : State T) (hand : SyncThreadNode → Nat → Prop) : Prop where
  sending : ∀ u ∈ acc.users, (s.threads u).phase ≠ .idle → ∃ outs, Sending acc.toConfig u (s.threads u) outs
  last : ∀ u ∈ acc.users, (s.threads u).round = s.released + 1 → ∀ i < acc.numNodes, (s.threads u).Closed u i →
    (s.nodes i).finals u = upTo (s.released + 1) ∨ (∃ x ∈ s.inFlight u i, x.1.threadId ≠ 0) ∨ hand u i
  val : acc.users ≠ [] → ∀ i, (s.nodes i).val < acc.users.length
  report : ∀ src dst, .partialDone ∈ s.channel src dst → dst = 0

/-- No node has a message in hand. -/
def noLast : SyncThreadNode → Nat → Prop := fun _ _ => False

theorem delivering_start (acc : AddAccumulator T) (out : Nat → T) :
    Delivering acc (start acc.toConfig out) noLast := by
  refine ⟨fun _ _ hne => absurd rfl hne, fun _ _ hround => ?_, fun hne _ => List.length_pos_of_ne_nil hne, ?_⟩
  · cases hround
  · exact fun _ _ hmem => absurd hmem List.not_mem_nil

variable {hand : SyncThreadNode → Nat → Prop}

/-- A call begins or ends. -/
theorem Delivering.setThread (h : Delivering acc s noLast) {th : Thread} (event : SyncThreadNode → Bool)
    (hsending : th.phase ≠ .idle → ∃ outs, Sending acc.toConfig u th outs)
    (hlast : th.round = s.released + 1 → ∀ i < acc.numNodes, ¬th.Closed u i) :
    Delivering acc { s.setThread u th with event := event } noLast := by
  refine ⟨fun v hv => ?_, fun v hv => ?_, h.val, h.report⟩
  · show (Function.update s.threads u th v).phase ≠ _ → _
    by_cases hvu : v = u
    · subst hvu
      rw [Function.update_self]
      exact fun hne => (by simpa [State.setThread] using hsending hne)
    · rw [Function.update_of_ne hvu]
      exact fun hne => (by simpa [State.setThread, hvu] using h.sending v hv hne)
  · show (Function.update s.threads u th v).round = _ → _
    by_cases hvu : v = u
    · subst hvu
      rw [Function.update_self]
      intro hround i hi hclosed
      refine absurd ?_ (hlast hround i hi)
      simpa [State.setThread] using hclosed
    · rw [Function.update_of_ne hvu]
      intro hround i hi hclosed
      apply h.last v hv hround i hi
      simpa [State.setThread, hvu] using hclosed

/-- A node handles the packet that it has in hand. -/
theorem Delivering.handle (hs : Inv acc.toConfig 0 s) {i : Nat} {p : Packet T}
    (h : Delivering acc s fun v j => v = u ∧ j = i ∧ p.threadId ≠ 0)
    (hfinals : (s.nodes i).finals u = upTo s.released) {s' : State T}
    (hhandled : Handled acc.toConfig s s' i p (u, s.released + 1)) : Delivering acc s' noLast := by
  have hflight : ∀ v j x, x ∈ s.inFlight v j → x ∈ s'.inFlight v j := by
    intro v j x hx
    rw [State.inFlight] at hx ⊢
    rcases hhandled.channel with hchan | ⟨-, hchan⟩
    · rwa [hchan]
    · rw [hchan]
      by_cases hsrc : v.machine = i ∧ j = 0
      · obtain ⟨hm, rfl⟩ := hsrc
        simp only [State.send, State.setChannel, hm, Function.update_self, packetsOf_append]
        rw [hm] at hx
        exact List.mem_append_left _ hx
      · by_cases hm : v.machine = i
        · have hj : j ≠ 0 := fun hj => hsrc ⟨hm, hj⟩
          simpa only [State.send, State.setChannel, hm, Function.update_self, Function.update_of_ne hj] using hx
        · simpa only [State.send, State.setChannel, Function.update_of_ne hm] using hx
  refine ⟨?_, fun v hv hround j hj hclosed => ?_, fun hne j => ?_, fun a b hmem => ?_⟩
  · rw [hhandled.threads]
    exact h.sending
  · rw [hhandled.threads] at hround hclosed
    have hrel : s'.released = s.released := by
      rcases hhandled.released with heq | heq
      · exact heq
      · rcases (hs.thread v hv).round with hr | ⟨hr, -⟩
        · omega
        · omega
    rw [hrel] at hround ⊢
    rw [hhandled.finals]
    rcases h.last v hv hround j hj hclosed with hfin | ⟨x, hx, hid⟩ | ⟨rfl, rfl, hid⟩
    · left
      by_cases hhand : j = i ∧ p.threadId ≠ 0
      · obtain ⟨rfl, hid⟩ := hhand
        rw [if_pos ⟨rfl, hid⟩]
        by_cases hvu : v = u
        · subst hvu
          rw [hfinals] at hfin
          exact absurd (upTo_injective hfin) (Nat.ne_of_lt (Nat.lt_succ_self _))
        · rw [Function.update_of_ne hvu]
          exact hfin
      · rw [if_neg hhand]
        exact hfin
    · exact Or.inr (Or.inl ⟨x, hflight v j x hx, hid⟩)
    · left
      rw [if_pos ⟨rfl, hid⟩, Function.update_self, hfinals]
      exact upTo_succ s.released
  · rcases hhandled.val j with heq | heq | hlt
    · rw [heq]
      exact h.val hne j
    · rw [heq]
      exact List.length_pos_of_ne_nil hne
    · exact hlt
  · rcases hhandled.channel with hchan | ⟨-, hchan⟩
    · rw [hchan] at hmem
      exact h.report a b hmem
    · rw [hchan] at hmem
      by_cases hb : b = 0
      · exact hb
      · apply h.report a b
        by_cases ha : a = i
        · simpa only [State.send, State.setChannel, ha, Function.update_self, Function.update_of_ne hb] using hmem
        · simpa only [State.send, State.setChannel, Function.update_of_ne ha] using hmem

/-- A step of a thread. -/
theorem delivering_advance (hs : Inv acc.toConfig 0 s) (h : Delivering acc s noLast) (hu : u ∈ acc.users)
    {ready : Nat → Bool} {th : Thread} {o : Option (Output T)}
    (hadv : advance acc.toConfig u (s.threads u) ready = some (th, o)) {s' : State T}
    (hdisp : dispatch acc.toConfig (s.setThread u th) u (s.threads u).round o = some s') :
    Delivering acc s' noLast := by
  have ha := advance_advances hu hadv
  obtain ⟨outs, hsending⟩ := h.sending u hu ha.active
  have hsending' := sending_step hu hsending hadv
  have hself : (s.setThread u th).threads u = th := Function.update_self ..
  have hother : ∀ v, v ≠ u → (s.setThread u th).threads v = s.threads v :=
    fun v hvu => Function.update_of_ne hvu ..
  -- what the step sends is in hand until it is dispatched
  have hset : Delivering acc (s.setThread u th) fun v j =>
      v = u ∧ ∃ out, o = some out ∧ out.dst = j ∧ out.packet.threadId = u.threadId := by
    refine ⟨fun v hv => ?_, fun v hv => ?_, h.val, h.report⟩
    · by_cases hvu : v = u
      · subst hvu
        rw [hself]
        exact fun _ => ⟨_, hsending'⟩
      · rw [hother v hvu]
        exact h.sending v hv
    · by_cases hvu : v = u
      · subst hvu
        rw [hself, ha.round_eq]
        intro hround i hi hclosed
        rcases closed_of_advance hsending hadv hi hclosed with hold | hout
        · rcases h.last v hv hround i hi hold with hfin | hflight | hnone
          · exact Or.inl hfin
          · exact Or.inr (Or.inl hflight)
          · exact hnone.elim
        · exact Or.inr (Or.inr ⟨rfl, hout⟩)
      · rw [hother v hvu]
        intro hround i hi hclosed
        rcases h.last v hv hround i hi hclosed with hfin | hflight | hnone
        · exact Or.inl hfin
        · exact Or.inr (Or.inl hflight)
        · exact hnone.elim
  cases o with
  | none =>
      obtain rfl := Option.some.inj hdisp
      refine ⟨hset.sending, fun v hv hround i hi hclosed => ?_, hset.val, hset.report⟩
      rcases hset.last v hv hround i hi hclosed with hfin | hflight | ⟨-, out, hout, -⟩
      · exact Or.inl hfin
      · exact Or.inr (Or.inl hflight)
      · cases hout
  | some out =>
      have hid : u.threadId ≠ 0 := acc.id_ne_zero u hu
      obtain ⟨hround, hfinals, -⟩ := round_of_sends hs hu ha
      by_cases hdst : out.dst = u.machine
      · rw [dispatch, if_pos hdst] at hdisp
        have hhandled := handled_acAccumulateMsg hdisp
        rw [hround] at hhandled
        refine Delivering.handle (inv_advances hs hu ha) ⟨hset.sending, ?_, hset.val, hset.report⟩
          (hdst ▸ hfinals) hhandled
        intro v hv hround' i hi hclosed
        refine (hset.last v hv hround' i hi hclosed).imp_right (Or.imp_right ?_)
        rintro ⟨rfl, out', heq, rfl, hout⟩
        obtain rfl := Option.some.inj heq
        exact ⟨rfl, hdst, hout ▸ hid⟩
      · rw [dispatch, if_neg hdst] at hdisp
        obtain rfl := Option.some.inj hdisp
        refine ⟨hset.sending, fun v hv hround' i hi hclosed => ?_, hset.val, fun src dst hmem => ?_⟩
        · have hflight : ∀ x ∈ (s.setThread u th).inFlight v i, x ∈ ((s.setThread u th).send u.machine out.dst
              (.accumulate out.packet (u, (s.threads u).round))).inFlight v i := by
            intro x hx
            rw [State.inFlight] at hx ⊢
            by_cases hsrc : v.machine = u.machine ∧ i = out.dst
            · obtain ⟨hm, rfl⟩ := hsrc
              rw [hm] at hx ⊢
              simp only [State.send, State.setChannel, Function.update_self, packetsOf_append]
              exact List.mem_append_left _ hx
            · by_cases hm : v.machine = u.machine
              · have hi' : i ≠ out.dst := fun heq => hsrc ⟨hm, heq⟩
                rw [hm] at hx ⊢
                simpa only [State.send, State.setChannel, Function.update_self, Function.update_of_ne hi'] using hx
              · simpa only [State.send, State.setChannel, Function.update_of_ne hm] using hx
          rcases hset.last v hv hround' i hi hclosed with hfin | ⟨x, hx, hne⟩ | ⟨rfl, out', heq, rfl, hout⟩
          · exact Or.inl hfin
          · exact Or.inr (Or.inl ⟨x, hflight x hx, hne⟩)
          · obtain rfl := Option.some.inj heq
            refine Or.inr (Or.inl ⟨(out.packet, (s.threads v).round), ?_, hout ▸ hid⟩)
            simp [State.inFlight, State.send, State.setChannel, State.setThread, packetsOf]
        · apply h.report src dst
          by_cases hsrc : src = u.machine
          · by_cases hd : dst = out.dst
            · subst hsrc hd
              simp only [State.send, State.setChannel, State.setThread, Function.update_self,
                List.mem_append, List.mem_singleton] at hmem
              exact hmem.resolve_right (fun heq => by cases heq)
            · simpa only [State.send, State.setChannel, State.setThread, hsrc, Function.update_self,
                Function.update_of_ne hd] using hmem
          · simpa only [State.send, State.setChannel, State.setThread, Function.update_of_ne hsrc] using hmem

/-- The delivery of a message. -/
theorem delivering_deliver (hs : Inv acc.toConfig 0 s) (h : Delivering acc s noLast) {src dst : Nat}
    {m : Message T} {rest : List (Message T)} (hchan : s.channel src dst = m :: rest) {s' : State T}
    (hrecv : receive acc.toConfig (s.setChannel src dst rest) src dst m = some s') :
    Delivering acc s' noLast := by
  have hreport : ∀ a b, .partialDone ∈ (s.setChannel src dst rest).channel a b → b = 0 := by
    intro a b hmem
    apply h.report a b
    by_cases hab : a = src ∧ b = dst
    · obtain ⟨rfl, rfl⟩ := hab
      simp only [State.setChannel, Function.update_self] at hmem
      rw [hchan]
      exact List.mem_cons_of_mem m hmem
    · by_cases ha : a = src
      · have hb : b ≠ dst := fun hb => hab ⟨ha, hb⟩
        simpa only [State.setChannel, ha, Function.update_self, Function.update_of_ne hb] using hmem
      · simpa only [State.setChannel, Function.update_of_ne ha] using hmem
  have hflight : ∀ v i x, x ∈ s.inFlight v i → x ∈ (s.setChannel src dst rest).inFlight v i ∨
      v.machine = src ∧ i = dst ∧ x ∈ packetsOf v [m] := by
    intro v i x hx
    rw [State.inFlight] at hx ⊢
    by_cases hvi : v.machine = src ∧ i = dst
    · obtain ⟨rfl, rfl⟩ := hvi
      have hsplit : packetsOf v (m :: rest) = packetsOf v [m] ++ packetsOf v rest :=
        packetsOf_append v [m] rest
      rw [hchan, hsplit, List.mem_append] at hx
      rcases hx with hm | hx
      · exact Or.inr ⟨rfl, rfl, hm⟩
      · left
        simpa only [State.setChannel, Function.update_self] using hx
    · left
      by_cases hv : v.machine = src
      · have hi : i ≠ dst := fun hi => hvi ⟨hv, hi⟩
        simpa only [State.setChannel, hv, Function.update_self, Function.update_of_ne hi] using hx
      · simpa only [State.setChannel, Function.update_of_ne hv] using hx
  cases m with
  | accumulate p c =>
      obtain ⟨hs₁, hand, hmachine, hround⟩ := inv_takePacket hs hchan
      have hc : c = (c.1, s.released + 1) := by
        rw [← hround]
      have hhandled := handled_acAccumulateMsg hrecv
      rw [hc] at hhandled
      refine Delivering.handle hs₁ ⟨h.sending, fun v hv hround' i hi hclosed => ?_, h.val, hreport⟩
        hand.finals hhandled
      rcases h.last v hv hround' i hi hclosed with hfin | ⟨x, hx, hne⟩ | hnone
      · exact Or.inl hfin
      · rcases hflight v i x hx with hold | ⟨-, rfl, hm⟩
        · exact Or.inr (Or.inl ⟨x, hold, hne⟩)
        · simp only [packetsOf, List.filterMap_cons, List.filterMap_nil] at hm
          by_cases hcv : c.1 = v
          · rw [if_pos hcv] at hm
            obtain rfl := List.mem_singleton.mp hm
            exact Or.inr (Or.inr ⟨hcv.symm, rfl, hne⟩)
          · rw [if_neg hcv] at hm
            cases hm
      · exact hnone.elim
  | partialDone =>
      have h₁ : Delivering acc (s.setChannel src dst rest) noLast := by
        refine ⟨h.sending, fun v hv hround' i hi hclosed => ?_, h.val, hreport⟩
        rcases h.last v hv hround' i hi hclosed with hfin | ⟨x, hx, hne⟩ | hnone
        · exact Or.inl hfin
        · rcases hflight v i x hx with hold | ⟨-, -, hm⟩
          · exact Or.inr (Or.inl ⟨x, hold, hne⟩)
          · cases hm
        · exact hnone.elim
      rw [receive] at hrecv
      split at hrecv
      · obtain rfl := Option.some.inj hrecv
        have hdone := announced_partialDone acc.toConfig (s.setChannel src dst rest)
        refine ⟨?_, fun v hv hround' i hi hclosed => ?_, fun hne j => ?_, ?_⟩
        · rw [hdone.threads]
          exact h.sending
        · rw [hdone.threads] at hround' hclosed
          have hrel : (acAccumulatePartialDoneMsg acc.toConfig (s.setChannel src dst rest)).released =
              s.released := by
            refine hdone.released.resolve_right fun heq => ?_
            rw [heq] at hround'
            rcases (hs.thread v hv).round with hr | ⟨hr, -⟩
            · change (s.threads v).round = s.released + 1 + 1 at hround'
              omega
            · change (s.threads v).round = s.released + 1 + 1 at hround'
              omega
          rw [hrel] at hround' ⊢
          rw [hdone.finals, State.inFlight, hdone.channel]
          exact h₁.last v hv hround' i hi hclosed
        · rw [hdone.val]
          exact h.val hne j
        · rw [hdone.channel]
          exact hreport
      · obtain rfl := Option.some.inj hrecv
        exact h₁

theorem delivering_step (hs : Inv acc.toConfig 0 s) (h : Delivering acc s noLast) {a : Act} {s' : State T}
    (hstep : step acc.toConfig s a = some s') : Delivering acc s' noLast := by
  have hmem : ∀ u, (s.threads u).phase ≠ .idle → u ∈ acc.users := by
    intro u hne
    by_contra hu
    exact hne (hs.idle u hu)
  cases a with
  | call u =>
      simp only [step] at hstep
      split at hstep
      · split at hstep
        · obtain rfl := Option.some.inj hstep
          apply h.setThread
          · exact fun _ => ⟨[], sending_begin acc u (s.threads u)⟩
          · exact fun _ i _ hclosed => Nat.not_lt_zero i hclosed.1
        · cases hstep
      · cases hstep
  | advance u ready =>
      obtain ⟨⟨th, o⟩, hadv, hdisp⟩ := Option.bind_eq_some_iff.mp hstep
      have hu : u ∈ acc.users := by
        apply hmem
        intro hidle
        rw [advance, hidle] at hadv
        cases hadv
      exact delivering_advance hs h hu hadv hdisp
  | ret u =>
      simp only [step] at hstep
      split at hstep
      · rename_i hphase
        split at hstep
        · rename_i hevent
          obtain rfl := Option.some.inj hstep
          have hu : u ∈ acc.users := hmem u (by rw [hphase]; exact Phase.noConfusion)
          apply h.setThread s.event (fun hne => absurd rfl hne)
          intro hround
          have hfalse := ((hs.thread u hu).inCall hround).1
          rw [hevent] at hfalse
          cases hfalse
        · cases hstep
      · cases hstep
  | deliver src dst =>
      simp only [step] at hstep
      split at hstep
      · cases hstep
      · rename_i m rest hchan
        exact delivering_deliver hs h hchan hstep
  | wake machine =>
      simp only [step] at hstep
      split at hstep
      · cases hstep
      · obtain rfl := Option.some.inj hstep
        exact ⟨h.sending, h.last, h.val, h.report⟩

end Delivering

end Dogee.Accumulator
