import Dogee.Transition
import Dogee.Address
import Mathlib.Logic.Function.Basic

/-!
# Shared constants

A shared constant is a word of object 0 with a copy in every process. The master assigns
constants and sends commands to the slaves, where they are handled in the order they were
sent. The main loop of a slave loads its copies when it has received a command, the first one
it receives, whichever that is: with checkpoints, a thread of the master sends `RcCmdAlive` to
every slave every two seconds. Threads that a command has created start later.

The shared memory is one memory here. `last` in the state and in a creation, and the copies
kept with a started thread, only record what happens.
-/

namespace Dogee.SharedConst

open Transition

variable {V : Type*} {slaves : Nat}

abbrev FieldKey := Nat

/-- The limit on the size of a function object. -/
def maxData : Nat := 2048

/-- A thread as the master creates it, and what the master had assigned by then. -/
structure Creation (V : Type*) where
  index : Nat
  param : Nat
  okey : ObjectKey
  data : List UInt8
  last : FieldKey → Option V

/-- The commands that a slave handles. -/
inductive Command (V : Type*)
  | close
  | createThread (c : Creation V)
  | wakeSync (thread : Nat)
  | alive
  | restart

/-- Where the main loop of a slave is: in `RcRecv`, in `InitSharedConst` with the constants that
are still to be loaded, or at its end. -/
inductive Phase (V : Type*)
  | receiving
  | loading (cmd : Command V) (rest : List FieldKey)
  | ended

/-- A slave: the commands under way to it, its main loop, the list of initialisers, its copies
of the constants, the threads that have not started and those that have. -/
structure Slave (V : Type*) where
  socket : List (Command V)
  phase : Phase V
  map : Option (List FieldKey)
  val : FieldKey → V
  threads : List (Creation V)
  started : List (Creation V × (FieldKey → V))

/-- A cluster: slave `n` is the node `n + 1`. `created` says that a thread was created. -/
structure State (V : Type*) (slaves : Nat) where
  dsm : FieldKey → V
  last : FieldKey → Option V
  created : Bool
  slave : Fin slaves → Slave V

namespace State

def setSlave (s : State V slaves) (n : Fin slaves) (sl : Slave V) : State V slaves :=
  { s with slave := Function.update s.slave n sl }

/-- `RcSend` to a slave. -/
def send (s : State V slaves) (n : Fin slaves) (cmd : Command V) : State V slaves :=
  s.setSlave n { s.slave n with socket := (s.slave n).socket ++ [cmd] }

end State

/-- `RegisterConstInit`. -/
def registerConstInit (map : Option (List FieldKey)) (fk : FieldKey) : Option (List FieldKey) :=
  some (map.getD [] ++ [fk])

/-- The list of initialisers when all constants are registered. -/
def registered (consts : List FieldKey) : Option (List FieldKey) := consts.foldl registerConstInit none

/-- A command is handled. The reply to `RcCmdAlive` and the wake of a waiting thread touch
nothing that is modelled here. -/
def Slave.handle (sl : Slave V) : Command V → Slave V
  | .close => { sl with phase := .ended }
  | .createThread c =>
      if c.data.length > maxData then { sl with phase := .receiving }
      else { sl with phase := .receiving, threads := sl.threads ++ [c] }
  | .wakeSync _ => { sl with phase := .receiving }
  | .alive => { sl with phase := .receiving }
  | .restart => { sl with phase := .ended }

/-- What can happen: the master assigns a constant, creates a thread or sends another command;
a slave receives a command, loads a constant or handles the command; a thread starts. -/
inductive Act (V : Type*) (slaves : Nat)
  | assign (fk : FieldKey) (v : V)
  | createThread (n : Fin slaves) (index param : Nat) (okey : ObjectKey) (data : List UInt8)
  | close (n : Fin slaves)
  | wakeSync (n : Fin slaves) (thread : Nat)
  | alive (n : Fin slaves)
  | restart (n : Fin slaves)
  | receive (n : Fin slaves)
  | load (n : Fin slaves)
  | handle (n : Fin slaves)
  | start (n : Fin slaves) (i : Nat)

/-- `RcRecv` in the main loop, up to the call of `InitSharedConst`. -/
def Slave.receive (sl : Slave V) : Option (Slave V) :=
  match sl.phase, sl.socket with
  | .receiving, cmd :: socket => some { sl with socket := socket, phase := .loading cmd (sl.map.getD []) }
  | _, _ => none

/-- One initialiser runs. -/
def Slave.load (dsm : FieldKey → V) (sl : Slave V) : Option (Slave V) :=
  match sl.phase with
  | .loading cmd (fk :: rest) =>
      some { sl with phase := .loading cmd rest, val := Function.update sl.val fk (dsm fk) }
  | _ => none

/-- All initialisers have run: the list is deleted, and the command is handled. -/
def Slave.finish (sl : Slave V) : Option (Slave V) :=
  match sl.phase with
  | .loading cmd [] => some ({ sl with map := none }.handle cmd)
  | _ => none

/-- A thread starts. -/
def Slave.start (sl : Slave V) (i : Nat) : Option (Slave V) :=
  (sl.threads[i]?).map fun c =>
    { sl with threads := sl.threads.eraseIdx i, started := sl.started ++ [(c, sl.val)] }

/-- One step of the cluster. -/
def step (s : State V slaves) : Act V slaves → Option (State V slaves)
  | .assign fk v =>
      some { s with dsm := Function.update s.dsm fk v, last := Function.update s.last fk (some v) }
  | .createThread n index param okey data =>
      if data.length ≤ maxData then
        some ({ s with created := true }.send n (.createThread ⟨index, param, okey, data, s.last⟩))
      else none
  | .close n => some (s.send n .close)
  | .wakeSync n thread => some (s.send n (.wakeSync thread))
  | .alive n => some (s.send n .alive)
  | .restart n => some (s.send n .restart)
  | .receive n => (s.slave n).receive.map (s.setSlave n)
  | .load n => ((s.slave n).load s.dsm).map (s.setSlave n)
  | .handle n => (s.slave n).finish.map (s.setSlave n)
  | .start n i => ((s.slave n).start i).map (s.setSlave n)

/-- The start: nothing is sent, and no copy is loaded. The shared memory and the copies hold
anything. -/
def start (consts : List FieldKey) (dsm : FieldKey → V) (val : Fin slaves → FieldKey → V) :
    State V slaves where
  dsm := dsm
  last := fun _ => none
  created := false
  slave n := ⟨[], .receiving, registered consts, val n, [], []⟩

/-! ## What threads see -/

/-- Every thread has started with the values assigned before it was created. -/
def Fetched (consts : List FieldKey) (s : State V slaves) : Prop :=
  ∀ n, ∀ p ∈ (s.slave n).started, ∀ fk ∈ consts, ∀ v, p.1.last fk = some v → p.2 fk = v

/-- The master assigns only before it creates its first thread. -/
def SetsFirst (s : State V slaves) : Act V slaves → Prop
  | .assign _ _ => s.created = false
  | _ => True

/-- A slave that has received no command. -/
def Slave.waiting (consts : List FieldKey) (sl : Slave V) : Bool :=
  match sl.phase with
  | .receiving => sl.map == registered consts
  | _ => false

/-- The master assigns only while no slave has received a command. -/
def Quiet (consts : List FieldKey) (s : State V slaves) : Act V slaves → Prop
  | .assign _ _ => ∀ n, (s.slave n).waiting consts = true
  | _ => True

instance (s : State V slaves) : ∀ a, Decidable (SetsFirst s a)
  | .assign _ _ => inferInstanceAs (Decidable (s.created = false))
  | .createThread .. | .close _ | .wakeSync .. | .alive _ | .restart _ | .receive _ | .load _ | .handle _
  | .start .. => inferInstanceAs (Decidable True)

instance (consts : List FieldKey) (s : State V slaves) : ∀ a, Decidable (Quiet consts s a)
  | .assign _ _ => inferInstanceAs (Decidable (∀ n, (s.slave n).waiting consts = true))
  | .createThread .. | .close _ | .wakeSync .. | .alive _ | .restart _ | .receive _ | .load _ | .handle _
  | .start .. => inferInstanceAs (Decidable True)

/-! ## The invariant -/

section Invariant

variable {consts : List FieldKey} {dsm : FieldKey → V} {last : FieldKey → Option V} {created : Bool}

/-- A creation after which the master has assigned nothing. -/
def Current (last : FieldKey → Option V) (created : Bool) (c : Creation V) : Prop :=
  created = true ∧ c.last = last

def Command.Current (last : FieldKey → Option V) (created : Bool) (cmd : Command V) : Prop :=
  ∀ c, cmd = .createThread c → SharedConst.Current last created c

/-- All copies are loaded. -/
def Loaded (consts : List FieldKey) (dsm val : FieldKey → V) : Prop :=
  ∀ fk ∈ consts, val fk = dsm fk

/-- What the phase of the main loop says about the copies. -/
def Phase.Inv (consts : List FieldKey) (dsm : FieldKey → V) (last : FieldKey → Option V) (created : Bool)
    (map : Option (List FieldKey)) (val : FieldKey → V) : Phase V → Prop
  | .receiving => map = registered consts ∨ Loaded consts dsm val
  | .loading cmd rest => cmd.Current last created ∧ ∀ fk ∈ consts, fk ∈ rest ∨ val fk = dsm fk
  | .ended => True

/-- The invariant of a slave. -/
structure Slave.Inv (consts : List FieldKey) (dsm : FieldKey → V) (last : FieldKey → Option V)
    (created : Bool) (sl : Slave V) : Prop where
  socket : ∀ cmd ∈ sl.socket, cmd.Current last created
  phase : sl.phase.Inv consts dsm last created sl.map sl.val
  threads : ∀ c ∈ sl.threads, Current last created c ∧ Loaded consts dsm sl.val
  started : ∀ p ∈ sl.started, ∀ fk ∈ consts, ∀ v, p.1.last fk = some v → p.2 fk = v

/-- The invariant of the cluster. -/
structure Inv (consts : List FieldKey) (s : State V slaves) : Prop where
  dsm : ∀ fk v, s.last fk = some v → s.dsm fk = v
  slave : ∀ n, (s.slave n).Inv consts s.dsm s.last s.created

theorem getD_registered (consts : List FieldKey) : (registered consts).getD [] = consts := by
  have hfold : ∀ (l : List FieldKey) (map : Option (List FieldKey)),
      (l.foldl registerConstInit map).getD [] = map.getD [] ++ l := by
    intro l
    induction l with
    | nil => exact fun map => (List.append_nil _).symm
    | cons fk rest ih =>
        intro map
        rw [List.foldl_cons, ih]
        exact List.append_assoc ..
  exact hfold consts none

theorem inv_start (consts : List FieldKey) (dsm : FieldKey → V) (val : Fin slaves → FieldKey → V) :
    Inv consts (start consts dsm val) := by
  constructor
  · intro fk v h
    cases h
  · intro n
    constructor
    · exact fun cmd h => absurd h List.not_mem_nil
    · exact Or.inl rfl
    · exact fun c h => absurd h List.not_mem_nil
    · exact fun p h => absurd h List.not_mem_nil

/-- A slave changes and the rest stays. -/
theorem Inv.setSlave {s : State V slaves} (hs : Inv consts s) (n : Fin slaves) {sl : Slave V}
    (hsl : sl.Inv consts s.dsm s.last s.created) : Inv consts (s.setSlave n sl) := by
  constructor
  · exact hs.dsm
  · intro k
    show (Function.update s.slave n sl k).Inv consts s.dsm s.last s.created
    by_cases hk : k = n
    · rw [hk, Function.update_self]
      exact hsl
    · rw [Function.update_of_ne hk]
      exact hs.slave k

theorem Inv.send {s : State V slaves} (hs : Inv consts s) (n : Fin slaves) {cmd : Command V}
    (hcmd : cmd.Current s.last s.created) : Inv consts (s.send n cmd) := by
  apply hs.setSlave
  have hsl := hs.slave n
  refine ⟨fun cmd' hmem => ?_, hsl.phase, hsl.threads, hsl.started⟩
  rcases List.mem_append.mp hmem with hmem | hmem
  · exact hsl.socket cmd' hmem
  · rw [List.mem_singleton.mp hmem]
    exact hcmd

/-- The first thread, or another one, is created. -/
theorem Slave.Inv.afterCreation {sl : Slave V} (h : sl.Inv consts dsm last created) :
    sl.Inv consts dsm last true := by
  constructor
  · exact fun cmd hmem c hc => ⟨rfl, (h.socket cmd hmem c hc).2⟩
  · have hphase := h.phase
    cases hp : sl.phase with
    | receiving =>
        rw [hp] at hphase
        exact hphase
    | loading cmd rest =>
        rw [hp] at hphase
        exact ⟨fun c hc => ⟨rfl, (hphase.1 c hc).2⟩, hphase.2⟩
    | ended => trivial
  · exact fun c hmem => ⟨⟨rfl, (h.threads c hmem).1.2⟩, (h.threads c hmem).2⟩
  · exact h.started

/-- Before the first creation, and before its first command, a slave holds nothing that an
assignment could make stale. -/
theorem Slave.Inv.assign {sl : Slave V} (h : sl.Inv consts dsm last false)
    (hwait : sl.waiting consts = true) (dsm' : FieldKey → V) (last' : FieldKey → Option V) :
    sl.Inv consts dsm' last' false := by
  constructor
  · exact fun cmd hmem c hc => absurd (h.socket cmd hmem c hc).1 Bool.false_ne_true
  · rw [Slave.waiting] at hwait
    cases hp : sl.phase with
    | receiving =>
        rw [hp] at hwait
        exact Or.inl (eq_of_beq hwait)
    | loading cmd rest =>
        rw [hp] at hwait
        cases hwait
    | ended => trivial
  · exact fun c hmem => absurd (h.threads c hmem).1.1 Bool.false_ne_true
  · exact h.started

theorem Slave.Inv.receive {sl sl' : Slave V} (h : sl.Inv consts dsm last created)
    (hstep : sl.receive = some sl') : sl'.Inv consts dsm last created := by
  rw [Slave.receive] at hstep
  split at hstep
  · rename_i cmd socket hphase hsocket
    obtain rfl := Option.some.inj hstep
    have hmem : ∀ cmd' ∈ cmd :: socket, cmd'.Current last created := hsocket ▸ h.socket
    refine ⟨fun cmd' h' => hmem cmd' (List.mem_cons_of_mem _ h'), ⟨hmem cmd List.mem_cons_self, ?_⟩,
      h.threads, h.started⟩
    intro fk hfk
    have hcopies := h.phase
    rw [hphase] at hcopies
    rcases hcopies with hmap | hloaded
    · left
      rw [hmap, getD_registered]
      exact hfk
    · exact Or.inr (hloaded fk hfk)
  · cases hstep

theorem Slave.Inv.load {sl sl' : Slave V} (h : sl.Inv consts dsm last created)
    (hstep : sl.load dsm = some sl') : sl'.Inv consts dsm last created := by
  rw [Slave.load] at hstep
  split at hstep
  · rename_i cmd fk rest hphase
    obtain rfl := Option.some.inj hstep
    have hcopies := h.phase
    rw [hphase] at hcopies
    -- a copy that is loaded holds what the memory holds, so loading keeps it
    have hkeep : ∀ fk', sl.val fk' = dsm fk' → Function.update sl.val fk (dsm fk) fk' = dsm fk' := by
      intro fk' hval
      by_cases hfk : fk' = fk
      · rw [hfk, Function.update_self]
      · rw [Function.update_of_ne hfk, hval]
    refine ⟨h.socket, ⟨hcopies.1, fun fk' hfk' => ?_⟩, fun c hc => ?_, h.started⟩
    · rcases hcopies.2 fk' hfk' with hmem | hval
      · rcases List.mem_cons.mp hmem with rfl | hmem
        · exact Or.inr (Function.update_self ..)
        · exact Or.inl hmem
      · exact Or.inr (hkeep fk' hval)
    · exact ⟨(h.threads c hc).1, fun fk' hfk' => hkeep fk' ((h.threads c hc).2 fk' hfk')⟩
  · cases hstep

theorem Slave.Inv.finish {sl sl' : Slave V} (h : sl.Inv consts dsm last created)
    (hstep : sl.finish = some sl') : sl'.Inv consts dsm last created := by
  rw [Slave.finish] at hstep
  split at hstep
  · rename_i cmd hphase
    obtain rfl := Option.some.inj hstep
    have hcopies := h.phase
    rw [hphase] at hcopies
    have hloaded : Loaded consts dsm sl.val := fun fk hfk =>
      (hcopies.2 fk hfk).resolve_left List.not_mem_nil
    have hrest : ∀ {ph : Phase V}, ph.Inv consts dsm last created none sl.val →
        Slave.Inv consts dsm last created { sl with map := none, phase := ph } :=
      fun hph => ⟨h.socket, hph, h.threads, h.started⟩
    cases cmd with
    | close => exact hrest trivial
    | createThread c =>
        rw [Slave.handle]
        split
        · exact hrest (Or.inr hloaded)
        · refine ⟨h.socket, Or.inr hloaded, fun c' hmem => ?_, h.started⟩
          rcases List.mem_append.mp hmem with hmem | hmem
          · exact h.threads c' hmem
          · rw [List.mem_singleton.mp hmem]
            exact ⟨hcopies.1 c rfl, hloaded⟩
    | wakeSync thread => exact hrest (Or.inr hloaded)
    | alive => exact hrest (Or.inr hloaded)
    | restart => exact hrest trivial
  · cases hstep

/-- A thread starts with what the memory holds, which is what was assigned last. -/
theorem Slave.Inv.start {sl sl' : Slave V} (h : sl.Inv consts dsm last created)
    (hdsm : ∀ fk v, last fk = some v → dsm fk = v) {i : Nat} (hstep : sl.start i = some sl') :
    sl'.Inv consts dsm last created := by
  obtain ⟨c, hc, rfl⟩ := Option.map_eq_some_iff.mp hstep
  have hthread := h.threads c (List.mem_of_getElem? hc)
  refine ⟨h.socket, h.phase, fun c' hmem => h.threads c' (List.mem_of_mem_eraseIdx hmem), ?_⟩
  intro p hmem fk hfk v hv
  rcases List.mem_append.mp hmem with hmem | hmem
  · exact h.started p hmem fk hfk v hv
  · obtain rfl := List.mem_singleton.mp hmem
    rw [hthread.1.2] at hv
    exact (hthread.2 fk hfk).trans (hdsm fk v hv)

theorem inv_step {s t : State V slaves} {a : Act V slaves} (hs : Inv consts s)
    (hok : SetsFirst s a ∧ Quiet consts s a) (hstep : step s a = some t) : Inv consts t := by
  cases a with
  | assign fk v =>
      obtain rfl := Option.some.inj hstep
      obtain ⟨hfirst, hquiet⟩ := hok
      constructor
      · intro fk' v' hlast
        change Function.update s.last fk (some v) fk' = some v' at hlast
        show Function.update s.dsm fk v fk' = v'
        by_cases hfk : fk' = fk
        · rw [hfk, Function.update_self] at hlast ⊢
          exact Option.some.inj hlast
        · rw [Function.update_of_ne hfk] at hlast ⊢
          exact hs.dsm fk' v' hlast
      · intro n
        have hsl := hs.slave n
        rw [show s.created = false from hfirst] at hsl
        show (s.slave n).Inv consts _ _ s.created
        rw [show s.created = false from hfirst]
        exact hsl.assign (hquiet n) _ _
  | createThread n index param okey data =>
      rw [step] at hstep
      split at hstep
      · obtain rfl := Option.some.inj hstep
        have hcreated : Inv consts { s with created := true } :=
          ⟨hs.dsm, fun k => (hs.slave k).afterCreation⟩
        apply hcreated.send
        intro c hc
        obtain rfl := Command.createThread.inj hc
        exact ⟨rfl, rfl⟩
      · cases hstep
  | close n =>
      obtain rfl := Option.some.inj hstep
      exact hs.send n fun c hc => by cases hc
  | wakeSync n thread =>
      obtain rfl := Option.some.inj hstep
      exact hs.send n fun c hc => by cases hc
  | alive n =>
      obtain rfl := Option.some.inj hstep
      exact hs.send n fun c hc => by cases hc
  | restart n =>
      obtain rfl := Option.some.inj hstep
      exact hs.send n fun c hc => by cases hc
  | receive n =>
      obtain ⟨sl, hsl, rfl⟩ := Option.map_eq_some_iff.mp hstep
      exact hs.setSlave n ((hs.slave n).receive hsl)
  | load n =>
      obtain ⟨sl, hsl, rfl⟩ := Option.map_eq_some_iff.mp hstep
      exact hs.setSlave n ((hs.slave n).load hsl)
  | handle n =>
      obtain ⟨sl, hsl, rfl⟩ := Option.map_eq_some_iff.mp hstep
      exact hs.setSlave n ((hs.slave n).finish hsl)
  | start n i =>
      obtain ⟨sl, hsl, rfl⟩ := Option.map_eq_some_iff.mp hstep
      exact hs.setSlave n ((hs.slave n).start hs.dsm hsl)

/-- In every run in which the master assigns before it creates threads, and before any slave has
received a command, threads start with the values assigned last. -/
theorem constants_fetched (consts : List FieldKey) (dsm : FieldKey → V) (val : Fin slaves → FieldKey → V)
    (acts : List (Act V slaves)) {s : State V slaves}
    (hok : Along step (fun s a => SetsFirst s a ∧ Quiet consts s a) (start consts dsm val) acts)
    (hrun : run step (start consts dsm val) acts = some s) : Fetched consts s := by
  have hinv : Inv consts s :=
    invariant_run (fun _ _ _ hs hok hstep => inv_step hs hok hstep) (inv_start consts dsm val) hok hrun
  exact fun n => (hinv.slave n).started

/-- The master assigns 7 and creates a thread; the heartbeat comes between. -/
def lateHeartbeat : List (Act Nat 1) :=
  [.assign 2 7, .alive 0, .createThread 0 0 0 1 [], .receive 0, .load 0, .handle 0, .receive 0, .handle 0,
    .start 0 0]

theorem constants_fetched_lateHeartbeat :
    ∃ s, run step (start [2] (fun _ => 0) fun _ _ => 0) lateHeartbeat = some s ∧
      (s.slave 0).started.length = 1 ∧ Fetched [2] s := by
  have hstarted : (run step (start [2] (fun _ => 0) fun _ _ => 0) lateHeartbeat).map
      (fun s => (s.slave 0).started.length) = some 1 := by decide
  obtain ⟨s, hs, hlen⟩ := Option.map_eq_some_iff.mp hstarted
  have hok : Along step (fun s a => SetsFirst s a ∧ Quiet [2] s a) (start [2] (fun _ => 0) fun _ _ => 0)
      lateHeartbeat := by
    apply along_of_check
    decide
  exact ⟨s, hs, hlen, constants_fetched [2] _ _ lateHeartbeat hok hs⟩

/-- A heartbeat reaches the slave before the master assigns 7, and the thread that is created
afterwards starts with 0. -/
theorem heartbeat_loads_early :
    ¬∀ (acts : List (Act Nat 1)) (s : State Nat 1),
      Along step SetsFirst (start [2] (fun _ => 0) fun _ _ => 0) acts →
      run step (start [2] (fun _ => 0) fun _ _ => 0) acts = some s → Fetched [2] s := by
  intro hall
  obtain ⟨acts, hacts⟩ : ∃ acts, acts = ([.alive 0, .receive 0, .load 0, .handle 0, .assign 2 7,
    .createThread 0 0 0 1 [], .receive 0, .handle 0, .start 0 0] : List (Act Nat 1)) := ⟨_, rfl⟩
  have hstarted : (run step (start [2] (fun _ => 0) fun _ _ => 0) acts).map
      (fun s => (s.slave 0).started.map fun p => (p.1.last 2, p.2 2)) = some [(some 7, 0)] := by
    rw [hacts]
    decide
  obtain ⟨s, hs, heq⟩ := Option.map_eq_some_iff.mp hstarted
  have hfirst : Along step SetsFirst (start [2] (fun _ => 0) fun _ _ => 0) acts := by
    rw [hacts]
    apply along_of_check
    decide
  have hmem : (some 7, 0) ∈ (s.slave 0).started.map fun p => (p.1.last 2, p.2 2) := by
    rw [heq]
    exact List.mem_singleton_self _
  obtain ⟨p, hp, hvals⟩ := List.mem_map.mp hmem
  obtain ⟨hlast, hval⟩ := Prod.mk.inj hvals
  have hseven := hall acts s hfirst hs 0 p hp 2 (List.mem_singleton_self 2) 7 hlast
  rw [hval] at hseven
  cases hseven

end Invariant

end Dogee.SharedConst
