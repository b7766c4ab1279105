import Dogee.Transition
import Mathlib.Data.Finset.Card
import Mathlib.Algebra.BigOperators.Group.Finset.Basic
import Mathlib.Algebra.Order.BigOperators.Group.Finset

/-!
# The caches connect to each other

Every cache opens a listening socket for the control connections and one for the data connections. Its
constructor connects to each cache with a larger id, one after another, first for control and then for
data: it says hello, and waits for the hello of the other side. Meanwhile `ListenSocketProc` accepts the
connections of the caches with a smaller id, in pairs: one on the control socket, and the next one on the
data socket. It takes the id of its peer from the hello.

A connection is a number. What is sent arrives in order; the backlog of a listening socket is first in,
first out. A connect to a cache that has not opened its sockets is refused; a control connection is tried
three times. The threads that serve the control sockets are started here, and have nothing to read before
the constructor of the peer has returned.
-/

namespace Dogee.CacheConnect

open Transition

/-- `CACHE_HELLO_MAGIC` -/
def helloMagic : Nat := 0x2e3a4f01

/-- `CacheHelloPackage` -/
structure Hello where
  magic : Nat
  cacheid : Nat
deriving DecidableEq

/-- The two kinds of connections, each with its listening socket. -/
inductive Line
  | control
  | data
deriving DecidableEq

/-- A connection: its ends, its kind, and what is on its way to either end. -/
structure Conn where
  client : Nat
  server : Nat
  line : Line
  toServer : List Hello
  toClient : List Hello

/-- Where the constructor is: not called; about to connect, after some tries; waiting for the hello of its
peer; at a breakpoint; waiting for `ListenSocketProc`; and returned. -/
inductive Main
  | closed
  | dialing (target : Nat) (line : Line) (tries : Nat)
  | greeted (target : Nat) (line : Line) (c : Nat)
  | stopped (target : Nat) (line : Line)
  | joining
  | ready

/-- Where `ListenSocketProc` is: not started; in `accept`; waiting for the hello of its peer; at its end;
and returned after an error. -/
inductive Listen
  | closed
  | accepting (i : Nat) (line : Line)
  | greeting (i : Nat) (line : Line) (c : Nat)
  | returned
  | failed

structure State where
  main : Nat → Main
  listen : Nat → Listen
  backlog : Nat → Line → List Nat
  sockets : Line → Nat → Nat → Option Nat
  conns : Nat → Conn
  count : Nat

namespace State

def setMain (s : State) (m : Nat) (main : Main) : State :=
  { s with main := Function.update s.main m main }

def setListen (s : State) (m : Nat) (listen : Listen) : State :=
  { s with listen := Function.update s.listen m listen }

def setBacklog (s : State) (m : Nat) (line : Line) (cs : List Nat) : State :=
  { s with backlog := Function.update s.backlog m (Function.update (s.backlog m) line cs) }

def setConn (s : State) (c : Nat) (conn : Conn) : State :=
  { s with conns := Function.update s.conns c conn }

/-- `controlsockets[peer] = c` or `datasockets[peer] = c` -/
def setSocket (s : State) (line : Line) (m peer c : Nat) : State :=
  { s with sockets := fun l a b => if l = line ∧ a = m ∧ b = peer then some c else s.sockets l a b }

end State

section Step

variable (n : Nat)

/-- The head of the loop over the caches with larger ids. -/
def dialFrom (t : Nat) : Main := if t < n then .dialing t .control 0 else .joining

/-- The head of the loop over the caches with smaller ids. -/
def acceptFrom (m i : Nat) : Listen := if i < m then .accepting i .control else .returned

/-- The constructor starts `ListenSocketProc`. -/
def start (s : State) (m : Nat) : Option State :=
  match s.main m with
  | .closed => some ((s.setMain m (dialFrom n (m + 1))).setListen m (acceptFrom m 0))
  | _ => none

def Listen.isOpen : Listen → Bool
  | .closed => false
  | _ => true

/-- `RcConnect` and the hello; a refused control connection is tried again. -/
def dial (s : State) (m : Nat) : Option State :=
  match s.main m with
  | .dialing t line tries =>
      if (s.listen t).isOpen then
        some (({ s.setConn s.count ⟨m, t, line, [⟨helloMagic, m⟩], []⟩ with count := s.count + 1 }.setBacklog
          t line (s.backlog t line ++ [s.count])).setMain m (.greeted t line s.count))
      else
        match line with
        | .control =>
            if tries + 1 < 3 then some (s.setMain m (.dialing t .control (tries + 1)))
            else some (s.setMain m (.stopped t .control))
        | .data => some (s.setMain m (.stopped t .data))
  | _ => none

/-- The connection after this one. -/
def afterAnswer (t : Nat) : Line → Main
  | .control => .dialing t .data 0
  | .data => dialFrom n (t + 1)

/-- The constructor gets the hello of its peer. -/
def answer (s : State) (m : Nat) : Option State :=
  match s.main m with
  | .greeted t line c =>
      match (s.conns c).toClient with
      | [] => none
      | hello :: rest =>
          if hello.magic = helloMagic ∧ hello.cacheid = t then
            some (((s.setConn c { s.conns c with toClient := rest }).setSocket line m t c).setMain m
              (afterAnswer n t line))
          else some (s.setMain m (.stopped t line))
  | _ => none

/-- `th.join()` -/
def join (s : State) (m : Nat) : Option State :=
  match s.main m, s.listen m with
  | .joining, .returned => some (s.setMain m .ready)
  | .joining, .failed => some (s.setMain m .ready)
  | _, _ => none

def accept (s : State) (m : Nat) : Option State :=
  match s.listen m with
  | .accepting i line =>
      match s.backlog m line with
      | [] => none
      | c :: rest => some ((s.setBacklog m line rest).setListen m (.greeting i line c))
  | _ => none

/-- The turn after this one. -/
def afterGreeting (m i : Nat) : Line → Listen
  | .control => .accepting i .data
  | .data => acceptFrom m (i + 1)

/-- `ListenSocketProc` gets the hello of its peer and answers it. -/
def greet (s : State) (m : Nat) : Option State :=
  match s.listen m with
  | .greeting i line c =>
      match (s.conns c).toServer with
      | [] => none
      | hello :: rest =>
          if hello.magic = helloMagic ∧ hello.cacheid < m then
            some (((s.setConn c { s.conns c with
              toServer := rest
              toClient := (s.conns c).toClient ++ [⟨helloMagic, m⟩] }).setSocket line m hello.cacheid c).setListen m
                (afterGreeting m i line))
          else some (s.setListen m .failed)
  | _ => none

inductive Act
  | start (m : Nat)
  | dial (m : Nat)
  | answer (m : Nat)
  | join (m : Nat)
  | accept (m : Nat)
  | greet (m : Nat)

def Act.node : Act → Nat
  | .start m => m
  | .dial m => m
  | .answer m => m
  | .join m => m
  | .accept m => m
  | .greet m => m

def Act.apply (s : State) : Act → Option State
  | .start m => CacheConnect.start n s m
  | .dial m => CacheConnect.dial s m
  | .answer m => CacheConnect.answer n s m
  | .join m => CacheConnect.join s m
  | .accept m => CacheConnect.accept s m
  | .greet m => CacheConnect.greet s m

/-- A step of one of the `n` caches. -/
def step (s : State) (a : Act) : Option State := if a.node < n then a.apply n s else none

end Step

/-- No constructor has been called. -/
def initial : State where
  main _ := .closed
  listen _ := .closed
  backlog _ _ := []
  sockets _ _ _ := none
  conns _ := ⟨0, 0, .control, [], []⟩
  count := 0

/-! ## How far a pair of caches is -/

/-- The turn of a connection in the loop of the constructor. -/
def Line.turn (t : Nat) : Line → Nat
  | .control => 2 * t
  | .data => 2 * t + 1

/-- A constructor has not made a connection yet, waits for the answer, or has made it. -/
inductive Level
  | before
  | asking (c : Nat)
  | made

/-- How far a constructor is with the connection of a turn. -/
def Main.level : Main → Nat → Level
  | .closed, _ => .before
  | .dialing t line _, p => if p < line.turn t then .made else .before
  | .greeted t line c, p => if p < line.turn t then .made else if p = line.turn t then .asking c else .before
  | .stopped t line, p => if p < line.turn t then .made else .before
  | .joining, _ => .made
  | .ready, _ => .made

/-- Where the constructor is to connect to. -/
def Main.target : Main → Option (Nat × Line)
  | .dialing t line _ => some (t, line)
  | .greeted t line _ => some (t, line)
  | .stopped t line => some (t, line)
  | _ => none

/-- The connection that was accepted last. -/
def Listen.held : Listen → Line → List Nat
  | .greeting _ l c, line => if l = line then [c] else []
  | _, _ => []

/-- The connections of a listening socket that have not been answered. -/
def State.waiting (s : State) (m : Nat) (line : Line) : List Nat := (s.listen m).held line ++ s.backlog m line

/-- The ends of the connection. -/
def Conn.joins (conn : Conn) (i j : Nat) (line : Line) : Prop :=
  conn.client = i ∧ conn.server = j ∧ conn.line = line

/-- The sockets of the caches `i < j` for each other. -/
def PairInv (s : State) (i j : Nat) (line : Line) : Level → Prop
  | .before => s.sockets line i j = none ∧ s.sockets line j i = none
  | .asking c => s.sockets line i j = none ∧ c < s.count ∧ (s.conns c).joins i j line ∧
      ((s.sockets line j i = none ∧ c ∈ s.waiting j line ∧ (s.conns c).toServer = [⟨helloMagic, i⟩] ∧
          (s.conns c).toClient = []) ∨
        (s.sockets line j i = some c ∧ (s.conns c).toClient = [⟨helloMagic, j⟩]))
  | .made => ∃ c, c < s.count ∧ (s.conns c).joins i j line ∧ s.sockets line i j = some c ∧
      s.sockets line j i = some c

/-- The caches with smaller ids whose connections have been accepted. -/
def State.served (s : State) (m : Nat) (line : Line) : Finset Nat :=
  (Finset.range m).filter fun i => (s.sockets line m i).isSome

/-- In each turn one control connection is accepted, and then one data connection. -/
def ListenInv (s : State) (m : Nat) : Listen → Prop
  | .closed => (s.served m .control).card = 0 ∧ (s.served m .data).card = 0
  | .accepting i .control => i < m ∧ (s.served m .control).card = i ∧ (s.served m .data).card = i
  | .accepting i .data => i < m ∧ (s.served m .control).card = i + 1 ∧ (s.served m .data).card = i
  | .greeting i .control _ => i < m ∧ (s.served m .control).card = i ∧ (s.served m .data).card = i
  | .greeting i .data _ => i < m ∧ (s.served m .control).card = i + 1 ∧ (s.served m .data).card = i
  | .returned => (s.served m .control).card = m ∧ (s.served m .data).card = m
  | .failed => False

/-- What holds in every state that the caches reach. -/
structure Inv (n : Nat) (s : State) : Prop where
  target : ∀ i t line, (s.main i).target = some (t, line) → i < t ∧ t < n
  pair : ∀ i j line, i < j → j < n → PairInv s i j line ((s.main i).level (line.turn j))
  waiting : ∀ j line, ∀ c ∈ s.waiting j line, ∃ i, i < j ∧ j < n ∧ s.main i = .greeted j line c ∧
    s.sockets line j i = none
  nodup : ∀ j line, (s.waiting j line).Nodup
  listen : ∀ j, ListenInv s j (s.listen j)
  closed : ∀ j, s.main j = .closed ↔ (s.listen j).isOpen = false
  refused : ∀ i t line, s.main i = .stopped t line → line = .control

theorem inv_initial (n : Nat) : Inv n initial where
  target _ _ _ h := by cases h
  pair _ _ _ _ _ := ⟨rfl, rfl⟩
  waiting _ _ _ h := by cases h
  nodup _ _ := List.nodup_nil
  listen j := by
    have hnone : ∀ line, (initial.served j line).card = 0 := by
      intro line
      rw [Finset.card_eq_zero]
      exact Finset.filter_false_of_mem fun _ _ h => Bool.false_ne_true h
    exact ⟨hnone _, hnone _⟩
  closed _ := ⟨fun _ => rfl, fun _ => rfl⟩
  refused _ _ _ h := by cases h

section Steps

variable {n m : Nat} {s s' : State}

/-- What the pair of caches has is as it was. -/
theorem PairInv.congr {i j : Nat} {line : Line} {level : Level} (h : PairInv s i j line level)
    (hfar : s'.sockets line i j = s.sockets line i j) (hnear : s'.sockets line j i = s.sockets line j i)
    (hcount : s.count ≤ s'.count)
    (hconns : ∀ c < s.count, (s.conns c).joins i j line → s'.conns c = s.conns c)
    (hwaiting : ∀ c ∈ s.waiting j line, (s.conns c).joins i j line → c ∈ s'.waiting j line) :
    PairInv s' i j line level := by
  cases level with
  | before => exact ⟨hfar.trans h.1, hnear.trans h.2⟩
  | asking c =>
      obtain ⟨hnone, hc, hjoins, hplace⟩ := h
      have hsame := hconns c hc hjoins
      refine ⟨hfar.trans hnone, Nat.lt_of_lt_of_le hc hcount, by rwa [hsame], ?_⟩
      rw [hnear, hsame]
      exact hplace.imp_left fun ⟨hnone, hmem, hsent⟩ => ⟨hnone, hwaiting c hmem hjoins, hsent⟩
  | made =>
      obtain ⟨c, hc, hjoins, hown, hpeer⟩ := h
      exact ⟨c, Nat.lt_of_lt_of_le hc hcount, by rwa [hconns c hc hjoins], hfar.trans hown, hnear.trans hpeer⟩

theorem waiting_congr (hlisten : s'.listen = s.listen) (hbacklog : s'.backlog = s.backlog) :
    s'.waiting = s.waiting := by
  funext j line
  unfold State.waiting
  rw [hlisten, hbacklog]

theorem ListenInv.congr {listen : Listen} (h : ListenInv s m listen)
    (hserved : ∀ line, s'.served m line = s.served m line) : ListenInv s' m listen := by
  cases listen with
  | closed => exact ⟨hserved _ ▸ h.1, hserved _ ▸ h.2⟩
  | accepting i line => cases line <;> exact ⟨h.1, hserved _ ▸ h.2.1, hserved _ ▸ h.2.2⟩
  | greeting i line c => cases line <;> exact ⟨h.1, hserved _ ▸ h.2.1, hserved _ ▸ h.2.2⟩
  | returned => exact ⟨hserved _ ▸ h.1, hserved _ ▸ h.2⟩
  | failed => exact h

/-- A cache goes on, without a change to its connections. -/
theorem Inv.move {main : Main} {listen : Listen} (h : Inv n s)
    (hmain : s'.main = Function.update s.main m main) (hlisten : s'.listen = Function.update s.listen m listen)
    (hsockets : s'.sockets = s.sockets) (hconns : s'.conns = s.conns) (hcount : s'.count = s.count)
    (hwaiting : s'.waiting = s.waiting)
    (htarget : ∀ t line, main.target = some (t, line) → m < t ∧ t < n)
    (hlevel : ∀ j line, m < j → j < n → main.level (Line.turn j line) = (s.main m).level (Line.turn j line))
    (hgreeted : ∀ t line c, s.main m = .greeted t line c → main = .greeted t line c)
    (hinv : ListenInv s m listen) (hclosed : main = .closed ↔ listen.isOpen = false)
    (hrefused : ∀ t line, main = .stopped t line → line = .control) : Inv n s' := by
  have hself : s'.main m = main := by rw [hmain, Function.update_self]
  have hother : ∀ {i}, i ≠ m → s'.main i = s.main i := by
    intro i hi
    rw [hmain, Function.update_of_ne hi]
  have hserved : ∀ j line, s'.served j line = s.served j line := by
    intro j line
    unfold State.served
    rw [hsockets]
  constructor
  · intro i t line ht
    by_cases hi : i = m
    · subst hi
      rw [hself] at ht
      exact htarget t line ht
    · rw [hother hi] at ht
      exact h.target i t line ht
  · intro i j line hij hj
    have hsame : (s'.main i).level (line.turn j) = (s.main i).level (line.turn j) := by
      by_cases hi : i = m
      · subst hi
        rw [hself]
        exact hlevel j line hij hj
      · rw [hother hi]
    rw [hsame]
    refine (h.pair i j line hij hj).congr ?_ ?_ (Nat.le_of_eq hcount.symm) ?_ ?_
    · rw [hsockets]
    · rw [hsockets]
    · intro c _ _
      rw [hconns]
    · intro c hc _
      rw [hwaiting]
      exact hc
  · intro j line c hc
    rw [hwaiting] at hc
    obtain ⟨i, hij, hj, hgreet, hnone⟩ := h.waiting j line c hc
    refine ⟨i, hij, hj, ?_, hsockets ▸ hnone⟩
    by_cases hi : i = m
    · subst hi
      rw [hself]
      exact hgreeted j line c hgreet
    · rw [hother hi]
      exact hgreet
  · intro j line
    rw [hwaiting]
    exact h.nodup j line
  · intro j
    rw [hlisten]
    by_cases hj : j = m
    · subst hj
      rw [Function.update_self]
      exact hinv.congr (hserved j)
    · rw [Function.update_of_ne hj]
      exact (h.listen j).congr (hserved j)
  · intro j
    rw [hlisten]
    by_cases hj : j = m
    · subst hj
      rw [hself, Function.update_self]
      exact hclosed
    · rw [hother hj, Function.update_of_ne hj]
      exact h.closed j
  · intro i t line hstopped
    by_cases hi : i = m
    · subst hi
      rw [hself] at hstopped
      exact hrefused t line hstopped
    · rw [hother hi] at hstopped
      exact h.refused i t line hstopped

theorem level_dialFrom {t j : Nat} {line : Line} (hj : j < n) :
    (dialFrom n t).level (line.turn j) = if line.turn j < 2 * t then .made else .before := by
  unfold dialFrom
  split
  · rfl
  · rw [if_pos]
    · rfl
    · cases line <;> simp only [Line.turn] <;> omega

theorem target_dialFrom {t t' : Nat} {line : Line} (h : (dialFrom n t).target = some (t', line)) :
    t' = t ∧ t < n := by
  unfold dialFrom at h
  split at h
  · rename_i ht
    obtain ⟨rfl, -⟩ := Prod.mk.inj (Option.some.inj h)
    exact ⟨rfl, ht⟩
  · cases h

theorem dialFrom_ne_closed (n t : Nat) : dialFrom n t ≠ .closed := by
  unfold dialFrom
  split <;> exact nofun

theorem dialFrom_ne_stopped (n t t' : Nat) (line : Line) : dialFrom n t ≠ .stopped t' line := by
  unfold dialFrom
  split <;> exact nofun

theorem isOpen_acceptFrom (m i : Nat) : (acceptFrom m i).isOpen = true := by
  unfold acceptFrom
  split <;> rfl

theorem held_acceptFrom (m i : Nat) (line : Line) : (acceptFrom m i).held line = [] := by
  unfold acceptFrom
  split <;> rfl

theorem inv_start (h : Inv n s) (hstep : start n s m = some s') : Inv n s' := by
  unfold start at hstep
  split at hstep
  · rename_i hmain
    obtain rfl := Option.some.inj hstep
    have hclosed := (h.closed m).mp hmain
    obtain ⟨hlisten, hinv⟩ : s.listen m = .closed ∧ ListenInv s m .closed := by
      have hinv := h.listen m
      cases hl : s.listen m with
      | closed => exact ⟨rfl, hl ▸ hinv⟩
      | _ =>
          rw [hl] at hclosed
          cases hclosed
    refine h.move rfl rfl rfl rfl rfl ?_ ?_ ?_ ?_ ?_ ?_ ?_
    · funext j line
      unfold State.waiting
      show (Function.update s.listen m (acceptFrom m 0) j).held line ++ s.backlog j line = _
      by_cases hj : j = m
      · subst hj
        rw [Function.update_self, hlisten, held_acceptFrom]
        rfl
      · rw [Function.update_of_ne hj]
    · intro t line ht
      obtain ⟨rfl, hn⟩ := target_dialFrom ht
      exact ⟨Nat.lt_succ_self m, hn⟩
    · intro j line hj hn
      rw [level_dialFrom hn, hmain, if_neg]
      · rfl
      · cases line <;> simp only [Line.turn] <;> omega
    · intro t line c hgreeted
      rw [hmain] at hgreeted
      cases hgreeted
    · unfold acceptFrom
      split
      · rename_i hm
        exact ⟨hm, hinv.1, hinv.2⟩
      · rename_i hm
        have hzero : m = 0 := Nat.eq_zero_of_not_pos hm
        exact ⟨hinv.1.trans hzero.symm, hinv.2.trans hzero.symm⟩
    · rw [isOpen_acceptFrom]
      exact ⟨fun heq => absurd heq (dialFrom_ne_closed n _), fun heq => absurd heq Bool.noConfusion⟩
    · exact fun t line heq => absurd heq (dialFrom_ne_stopped n _ t line)
  · cases hstep

theorem Inv.refuse {t tries : Nat} {line : Line} {main : Main} (h : Inv n s)
    (hmain : s.main m = .dialing t line tries)
    (hnew : main = .stopped t line ∧ line = .control ∨ ∃ tries', main = .dialing t line tries') :
    Inv n (s.setMain m main) := by
  have hkept : main.target = some (t, line) ∧ (∀ p, main.level p = (s.main m).level p) ∧ main ≠ .closed ∧
      ∀ t' line', main = .stopped t' line' → line' = .control := by
    rw [hmain]
    rcases hnew with ⟨rfl, hcontrol⟩ | ⟨tries', rfl⟩
    · refine ⟨rfl, fun _ => rfl, nofun, fun t' line' heq => ?_⟩
      obtain ⟨-, rfl⟩ := Main.stopped.inj heq
      exact hcontrol
    · exact ⟨rfl, fun _ => rfl, nofun, nofun⟩
  obtain ⟨htarget, hlevel, hclosed, hstopped⟩ := hkept
  refine h.move rfl (Function.update_eq_self ..).symm rfl rfl rfl (waiting_congr rfl rfl) ?_ ?_ ?_ (h.listen m) ?_
    hstopped
  · intro t' line' ht'
    rw [htarget] at ht'
    obtain ⟨rfl, rfl⟩ := Prod.mk.inj (Option.some.inj ht')
    exact h.target m t line (by rw [hmain]; rfl)
  · exact fun j line' _ _ => hlevel _
  · intro t' line' c hgreeted
    rw [hmain] at hgreeted
    cases hgreeted
  · have hopen := h.closed m
    rw [hmain] at hopen
    exact ⟨fun heq => absurd heq hclosed, fun hfalse => nomatch hopen.mpr hfalse⟩

/-- A connection that has not been answered is the one its client waits for. -/
theorem Inv.waits {j c : Nat} {line : Line} (h : Inv n s) (hc : c ∈ s.waiting j line) :
    ∃ i, i < j ∧ j < n ∧ s.main i = .greeted j line c ∧ s.sockets line i j = none ∧ s.sockets line j i = none ∧
      c < s.count ∧ (s.conns c).joins i j line ∧ (s.conns c).toServer = [⟨helloMagic, i⟩] ∧
      (s.conns c).toClient = [] := by
  obtain ⟨i, hij, hj, hmain, hnone⟩ := h.waiting j line c hc
  have hpair := h.pair i j line hij hj
  rw [hmain, Main.level, if_neg (Nat.lt_irrefl _), if_pos rfl] at hpair
  obtain ⟨hown, hcount, hjoins, ⟨-, -, hserver, hclient⟩ | ⟨hsome, -⟩⟩ := hpair
  · exact ⟨i, hij, hj, hmain, hown, hnone, hcount, hjoins, hserver, hclient⟩
  · rw [hnone] at hsome
    cases hsome

theorem turn_inj {t t' : Nat} {line line' : Line} (h : line.turn t = line'.turn t') : t = t' ∧ line = line' := by
  cases line <;> cases line' <;> simp only [Line.turn] at h <;> first | exact ⟨by omega, rfl⟩ | omega

/-- The constructor has made a connection, and its hello waits at the listening socket. -/
theorem Inv.connect {t tries : Nat} {line : Line} (h : Inv n s) (hmain : s.main m = .dialing t line tries)
    (hs' : s' = ({ s.setConn s.count ⟨m, t, line, [⟨helloMagic, m⟩], []⟩ with count := s.count + 1 }.setBacklog
      t line (s.backlog t line ++ [s.count])).setMain m (.greeted t line s.count)) : Inv n s' := by
  have hmain' : s'.main = Function.update s.main m (.greeted t line s.count) := hs' ▸ rfl
  have hlisten : s'.listen = s.listen := hs' ▸ rfl
  have hbacklog : s'.backlog = Function.update s.backlog t
    (Function.update (s.backlog t) line (s.backlog t line ++ [s.count])) := hs' ▸ rfl
  have hsockets : s'.sockets = s.sockets := hs' ▸ rfl
  have hconns : s'.conns = Function.update s.conns s.count ⟨m, t, line, [⟨helloMagic, m⟩], []⟩ := hs' ▸ rfl
  have hcount : s'.count = s.count + 1 := hs' ▸ rfl
  clear hs'
  obtain ⟨hmt, htn⟩ := h.target m t line (by rw [hmain]; rfl)
  have hself : s'.main m = .greeted t line s.count := by rw [hmain', Function.update_self]
  have hother : ∀ {i}, i ≠ m → s'.main i = s.main i := by
    intro i hi
    rw [hmain', Function.update_of_ne hi]
  have hwaiting : ∀ j l, s'.waiting j l =
      if j = t ∧ l = line then s.waiting j l ++ [s.count] else s.waiting j l := by
    intro j l
    unfold State.waiting
    rw [hlisten, hbacklog]
    by_cases hj : j = t
    · subst hj
      rw [Function.update_self]
      by_cases hl : l = line
      · subst hl
        rw [Function.update_self, if_pos ⟨rfl, rfl⟩, List.append_assoc]
      · rw [Function.update_of_ne hl, if_neg fun hc => hl hc.2]
    · rw [Function.update_of_ne hj, if_neg fun hc => hj hc.1]
  have hmem : ∀ {j l c}, c ∈ s.waiting j l → c ∈ s'.waiting j l := by
    intro j l c hc
    rw [hwaiting]
    split
    · exact List.mem_append_left _ hc
    · exact hc
  have hserved : ∀ j l, s'.served j l = s.served j l := by
    intro j l
    unfold State.served
    rw [hsockets]
  -- the constructor has made no connection of this turn before
  have hnone : s.sockets line m t = none ∧ s.sockets line t m = none := by
    have hpair := h.pair m t line hmt htn
    rw [hmain, Main.level, if_neg (Nat.lt_irrefl _)] at hpair
    exact hpair
  constructor
  · intro i t' line' ht'
    by_cases hi : i = m
    · subst hi
      rw [hself] at ht'
      obtain ⟨rfl, -⟩ := Prod.mk.inj (Option.some.inj ht')
      exact ⟨hmt, htn⟩
    · rw [hother hi] at ht'
      exact h.target i t' line' ht'
  · intro i j l hij hj
    have hpair := h.pair i j l hij hj
    have hkept : ∀ {level}, PairInv s i j l level → PairInv s' i j l level := by
      intro level hpair
      refine hpair.congr ?_ ?_ ?_ ?_ fun c hc _ => hmem hc
      · rw [hsockets]
      · rw [hsockets]
      · rw [hcount]
        exact Nat.le_succ _
      · intro c hc _
        rw [hconns, Function.update_of_ne (Nat.ne_of_lt hc)]
    by_cases hi : i = m
    · subst hi
      rw [hself]
      by_cases hturn : l.turn j = line.turn t
      · obtain ⟨rfl, rfl⟩ := turn_inj hturn
        rw [Main.level, if_neg (Nat.lt_irrefl _), if_pos rfl]
        refine ⟨hsockets ▸ hnone.1, by rw [hcount]; exact Nat.lt_succ_self _, ?_, Or.inl ⟨hsockets ▸ hnone.2, ?_, ?_⟩⟩
        · rw [hconns, Function.update_self]
          exact ⟨rfl, rfl, rfl⟩
        · rw [hwaiting, if_pos ⟨rfl, rfl⟩]
          exact List.mem_append_right _ (List.mem_singleton.mpr rfl)
        · rw [hconns, Function.update_self]
          exact ⟨rfl, rfl⟩
      · rw [hmain, Main.level] at hpair
        rw [Main.level, if_neg hturn]
        exact hkept hpair
    · rw [hother hi]
      exact hkept hpair
  · intro j l c hc
    have hold : c ∈ s.waiting j l → ∃ i, i < j ∧ j < n ∧ s'.main i = .greeted j l c ∧ s'.sockets l j i = none := by
      intro hc
      obtain ⟨i, hij, hj, hgreeted, hfree⟩ := h.waiting j l c hc
      refine ⟨i, hij, hj, ?_, hsockets ▸ hfree⟩
      rwa [hother]
      rintro rfl
      rw [hmain] at hgreeted
      cases hgreeted
    rw [hwaiting] at hc
    split at hc
    · rename_i heq
      obtain ⟨rfl, rfl⟩ := heq
      rcases List.mem_append.mp hc with hc | hc
      · exact hold hc
      · obtain rfl := List.mem_singleton.mp hc
        exact ⟨m, hmt, htn, hself, hsockets ▸ hnone.2⟩
    · exact hold hc
  · intro j l
    rw [hwaiting]
    split
    · refine List.nodup_append.mpr ⟨h.nodup j l, List.nodup_singleton _, ?_⟩
      intro c hc c' hc'
      obtain rfl := List.mem_singleton.mp hc'
      obtain ⟨-, -, -, -, -, -, hlt, -⟩ := h.waits hc
      exact Nat.ne_of_lt hlt
    · exact h.nodup j l
  · intro j
    rw [hlisten]
    exact (h.listen j).congr (hserved j)
  · intro j
    rw [hlisten]
    by_cases hj : j = m
    · subst hj
      rw [hself]
      have hopen := h.closed j
      rw [hmain] at hopen
      exact ⟨nofun, fun hfalse => nomatch hopen.mpr hfalse⟩
    · rw [hother hj]
      exact h.closed j
  · intro i t' line' hstopped
    by_cases hi : i = m
    · subst hi
      rw [hself] at hstopped
      cases hstopped
    · rw [hother hi] at hstopped
      exact h.refused i t' line' hstopped

theorem inv_dial (h : Inv n s) (hstep : dial s m = some s') : Inv n s' := by
  unfold dial at hstep
  split at hstep
  · rename_i t line tries hmain
    split at hstep
    · obtain rfl := Option.some.inj hstep
      exact h.connect hmain rfl
    · rename_i hclosed
      split at hstep
      · split at hstep
        · obtain rfl := Option.some.inj hstep
          exact h.refuse hmain (Or.inr ⟨_, rfl⟩)
        · obtain rfl := Option.some.inj hstep
          exact h.refuse hmain (Or.inl ⟨rfl, rfl⟩)
      · -- the control connection to this cache has been made
        exfalso
        obtain ⟨hmt, htn⟩ := h.target m t .data (by rw [hmain]; rfl)
        have hpair := h.pair m t .control hmt htn
        rw [hmain, Main.level, if_pos (by simp only [Line.turn]; omega)] at hpair
        obtain ⟨c, -, -, -, hsome⟩ := hpair
        have hmem : m ∈ s.served t .control :=
          Finset.mem_filter.mpr ⟨Finset.mem_range.mpr hmt, by rw [hsome]; rfl⟩
        have hinv := h.listen t
        cases hl : s.listen t with
        | closed =>
            rw [hl] at hinv
            rw [Finset.card_eq_zero.mp hinv.1] at hmem
            exact Finset.notMem_empty _ hmem
        | _ =>
            rw [hl] at hclosed
            exact hclosed rfl
  · cases hstep

theorem setSocket_self (s : State) (line : Line) (m peer c : Nat) :
    (s.setSocket line m peer c).sockets line m peer = some c :=
  if_pos ⟨rfl, rfl, rfl⟩

theorem setSocket_of_ne {line l : Line} {a b peer c : Nat} (h : ¬(l = line ∧ a = m ∧ b = peer)) :
    (s.setSocket line m peer c).sockets l a b = s.sockets l a b :=
  if_neg h

/-- The constructor waits for an answer, and the peer has sent it. -/
theorem Inv.answered {t c : Nat} {line : Line} {hello : Hello} {rest : List Hello} (h : Inv n s)
    (hmain : s.main m = .greeted t line c) (hclient : (s.conns c).toClient = hello :: rest) :
    hello = ⟨helloMagic, t⟩ ∧ rest = [] ∧ m < t ∧ t < n ∧ s.sockets line m t = none ∧ s.sockets line t m = some c ∧
      c < s.count ∧ (s.conns c).joins m t line := by
  obtain ⟨hmt, htn⟩ := h.target m t line (by rw [hmain]; rfl)
  have hpair := h.pair m t line hmt htn
  rw [hmain, Main.level, if_neg (Nat.lt_irrefl _), if_pos rfl] at hpair
  obtain ⟨hnone, hc, hjoins, ⟨-, -, -, hnil⟩ | ⟨hsome, hone⟩⟩ := hpair
  · rw [hnil] at hclient
    cases hclient
  · rw [hclient] at hone
    obtain ⟨rfl, rfl⟩ := List.cons.inj hone
    exact ⟨rfl, rfl, hmt, htn, hnone, hsome, hc, hjoins⟩

theorem level_afterAnswer {t j : Nat} {line l : Line} (hj : j < n) : (afterAnswer n t line).level (l.turn j) =
    if l.turn j < line.turn t + 1 then .made else .before := by
  cases line with
  | control => rfl
  | data =>
      rw [afterAnswer, level_dialFrom hj]
      exact if_congr (by simp only [Line.turn]; omega) rfl rfl

theorem target_afterAnswer {t t' : Nat} {line l : Line} (hmt : m < t) (htn : t < n)
    (h : (afterAnswer n t line).target = some (t', l)) : m < t' ∧ t' < n := by
  cases line with
  | control =>
      obtain ⟨rfl, -⟩ := Prod.mk.inj (Option.some.inj h)
      exact ⟨hmt, htn⟩
  | data =>
      obtain ⟨rfl, hn⟩ := target_dialFrom h
      exact ⟨Nat.lt_succ_of_lt hmt, hn⟩

theorem afterAnswer_ne (n t : Nat) (line : Line) : afterAnswer n t line ≠ .closed ∧
    ∀ t' l, afterAnswer n t line ≠ .stopped t' l := by
  cases line with
  | control => exact ⟨nofun, nofun⟩
  | data => exact ⟨dialFrom_ne_closed n _, dialFrom_ne_stopped n _⟩

theorem Inv.answer {t c : Nat} {line : Line} {hello : Hello} {rest : List Hello} (h : Inv n s)
    (hmain : s.main m = .greeted t line c) (hclient : (s.conns c).toClient = hello :: rest)
    (hs' : s' = ((s.setConn c { s.conns c with toClient := rest }).setSocket line m t c).setMain m
      (afterAnswer n t line)) : Inv n s' := by
  obtain ⟨-, -, hmt, htn, hnone, hpeer, hc, hjoins⟩ := h.answered hmain hclient
  have hmain' : s'.main = Function.update s.main m (afterAnswer n t line) := hs' ▸ rfl
  have hlisten : s'.listen = s.listen := hs' ▸ rfl
  have hwaiting : s'.waiting = s.waiting := hs' ▸ waiting_congr rfl rfl
  have hsockets : s'.sockets = (s.setSocket line m t c).sockets := hs' ▸ rfl
  have hconns : s'.conns = Function.update s.conns c { s.conns c with toClient := rest } := hs' ▸ rfl
  have hcount : s'.count = s.count := hs' ▸ rfl
  clear hs'
  have hself : s'.main m = afterAnswer n t line := by rw [hmain', Function.update_self]
  have hother : ∀ {i}, i ≠ m → s'.main i = s.main i := by
    intro i hi
    rw [hmain', Function.update_of_ne hi]
  -- the socket of the constructor is not one of those that a listening socket fills
  have hsocket : ∀ {l a b}, ¬(l = line ∧ a = m ∧ b = t) → s'.sockets l a b = s.sockets l a b := by
    intro l a b hne
    rw [hsockets, setSocket_of_ne hne]
  have hserved : ∀ j l, s'.served j l = s.served j l := by
    intro j l
    unfold State.served
    refine Finset.filter_congr fun i hi => ?_
    rw [hsocket]
    rintro ⟨-, rfl, rfl⟩
    exact Nat.lt_asymm hmt (Finset.mem_range.mp hi)
  have hconn : ∀ {i j l c'}, (s.conns c').joins i j l → i ≠ m → s'.conns c' = s.conns c' := by
    intro i j l c' hjoins' hi
    rw [hconns, Function.update_of_ne]
    rintro rfl
    exact hi (hjoins'.1.symm.trans hjoins.1)
  obtain ⟨hclosed, hstopped⟩ := afterAnswer_ne n t line
  constructor
  · intro i t' l ht'
    by_cases hi : i = m
    · subst hi
      rw [hself] at ht'
      exact target_afterAnswer hmt htn ht'
    · rw [hother hi] at ht'
      exact h.target i t' l ht'
  · intro i j l hij hj
    have hpair := h.pair i j l hij hj
    have hnear : s'.sockets l j i = s.sockets l j i := by
      apply hsocket
      rintro ⟨-, rfl, rfl⟩
      exact Nat.lt_asymm hmt hij
    by_cases hi : i = m
    · subst hi
      rw [hself, level_afterAnswer hj]
      rw [hmain, Main.level] at hpair
      by_cases hturn : l.turn j = line.turn t
      · obtain ⟨rfl, rfl⟩ := turn_inj hturn
        rw [if_pos (Nat.lt_succ_self _)]
        refine ⟨c, hcount ▸ hc, ?_, ?_, hnear.trans hpeer⟩
        · rw [hconns, Function.update_self]
          exact hjoins
        · rw [hsockets]
          exact setSocket_self s l i j c
      · have hfar : s'.sockets l i j = s.sockets l i j := by
          apply hsocket
          rintro ⟨rfl, -, rfl⟩
          exact hturn rfl
        by_cases hlt : l.turn j < line.turn t
        · rw [if_pos hlt] at hpair
          rw [if_pos (Nat.lt_succ_of_lt hlt)]
          obtain ⟨c', hc', hjoins', hown, hmade⟩ := hpair
          refine ⟨c', hcount ▸ hc', ?_, hfar.trans hown, hnear.trans hmade⟩
          rw [hconns]
          by_cases heq : c' = c
          · subst heq
            rw [Function.update_self]
            exact hjoins'
          · rwa [Function.update_of_ne heq]
        · rw [if_neg hlt, if_neg hturn] at hpair
          rw [if_neg (by omega)]
          exact ⟨hfar.trans hpair.1, hnear.trans hpair.2⟩
    · rw [hother hi]
      refine hpair.congr ?_ hnear (Nat.le_of_eq hcount.symm) (fun _ _ hjoins' => hconn hjoins' hi) ?_
      · exact hsocket fun hc => hi hc.2.1
      · intro c' hc' _
        rw [hwaiting]
        exact hc'
  · intro j l c' hc'
    rw [hwaiting] at hc'
    obtain ⟨i, hij, hj, hgreeted, hfree⟩ := h.waiting j l c' hc'
    have hi : i ≠ m := by
      rintro rfl
      rw [hmain] at hgreeted
      obtain ⟨rfl, rfl, rfl⟩ := Main.greeted.inj hgreeted
      rw [hpeer] at hfree
      cases hfree
    refine ⟨i, hij, hj, (hother hi).trans hgreeted, ?_⟩
    rw [hsocket, hfree]
    rintro ⟨-, rfl, rfl⟩
    exact Nat.lt_asymm hmt hij
  · intro j l
    rw [hwaiting]
    exact h.nodup j l
  · intro j
    rw [hlisten]
    exact (h.listen j).congr (hserved j)
  · intro j
    rw [hlisten]
    by_cases hj : j = m
    · subst hj
      rw [hself]
      have hopen := h.closed j
      rw [hmain] at hopen
      exact ⟨fun heq => absurd heq hclosed, fun hfalse => nomatch hopen.mpr hfalse⟩
    · rw [hother hj]
      exact h.closed j
  · intro i t' l hstop
    by_cases hi : i = m
    · subst hi
      rw [hself] at hstop
      exact absurd hstop (hstopped t' l)
    · rw [hother hi] at hstop
      exact h.refused i t' l hstop

theorem inv_answer (h : Inv n s) (hstep : CacheConnect.answer n s m = some s') : Inv n s' := by
  unfold CacheConnect.answer at hstep
  split at hstep
  · rename_i t line c hmain
    split at hstep
    · cases hstep
    · rename_i hello rest hclient
      split at hstep
      · obtain rfl := Option.some.inj hstep
        exact h.answer hmain hclient rfl
      · rename_i hbad
        obtain ⟨rfl, -⟩ := h.answered hmain hclient
        exact absurd ⟨rfl, rfl⟩ hbad
  · cases hstep

theorem inv_join (h : Inv n s) (hstep : join s m = some s') : Inv n s' := by
  have hkept : s.main m = .joining → Inv n (s.setMain m .ready) := by
    intro hmain
    refine h.move rfl (Function.update_eq_self ..).symm rfl rfl rfl (waiting_congr rfl rfl) nofun ?_ ?_
      (h.listen m) ?_ nofun
    · intro j line _ _
      rw [hmain]
      rfl
    · intro t line c hgreeted
      rw [hmain] at hgreeted
      cases hgreeted
    · have hopen := h.closed m
      rw [hmain] at hopen
      exact ⟨nofun, fun hfalse => nomatch hopen.mpr hfalse⟩
  unfold join at hstep
  split at hstep
  · rename_i hmain _
    obtain rfl := Option.some.inj hstep
    exact hkept hmain
  · rename_i hmain _
    obtain rfl := Option.some.inj hstep
    exact hkept hmain
  · cases hstep

theorem inv_accept (h : Inv n s) (hstep : accept s m = some s') : Inv n s' := by
  unfold accept at hstep
  split at hstep
  · rename_i i line hlisten
    split at hstep
    · cases hstep
    · rename_i c rest hbacklog
      obtain rfl := Option.some.inj hstep
      have hinv := h.listen m
      rw [hlisten] at hinv
      refine h.move (Function.update_eq_self ..).symm rfl rfl rfl rfl ?_ (fun t l => h.target m t l)
        (fun _ _ _ _ => rfl) (fun _ _ _ => id) ?_ ?_ (h.refused m)
      · -- the connection goes from the backlog to the thread
        funext j l
        unfold State.waiting
        show (Function.update s.listen m (.greeting i line c) j).held l ++
          Function.update s.backlog m (Function.update (s.backlog m) line rest) j l = _
        by_cases hj : j = m
        · subst hj
          rw [Function.update_self, Function.update_self, hlisten, Listen.held]
          by_cases hl : l = line
          · subst hl
            rw [Function.update_self, if_pos rfl, hbacklog]
            rfl
          · rw [Function.update_of_ne hl, if_neg (Ne.symm hl)]
            rfl
        · rw [Function.update_of_ne hj, Function.update_of_ne hj]
      · cases line <;> exact hinv
      · have hopen := h.closed m
        rw [hlisten] at hopen
        exact hopen
  · cases hstep

theorem held_afterGreeting (m i : Nat) (line l : Line) : (afterGreeting m i line).held l = [] := by
  cases line with
  | control => rfl
  | data => exact held_acceptFrom m (i + 1) l

theorem isOpen_afterGreeting (m i : Nat) (line : Line) : (afterGreeting m i line).isOpen = true := by
  cases line with
  | control => rfl
  | data => exact isOpen_acceptFrom m (i + 1)

/-- One more connection has been accepted. -/
theorem ListenInv.next {i c : Nat} {line : Line} (h : ListenInv s m (.greeting i line c))
    (hserved : (s'.served m line).card = (s.served m line).card + 1)
    (hother : ∀ l, l ≠ line → s'.served m l = s.served m l) : ListenInv s' m (afterGreeting m i line) := by
  cases line with
  | control =>
      obtain ⟨hi, hcontrol, hdata⟩ := h
      refine ⟨hi, by rw [hserved, hcontrol], ?_⟩
      rw [hother .data nofun, hdata]
  | data =>
      obtain ⟨hi, hcontrol, hdata⟩ := h
      have hcontrol' : (s'.served m .control).card = i + 1 := by rw [hother .control nofun, hcontrol]
      have hdata' : (s'.served m .data).card = i + 1 := by rw [hserved, hdata]
      unfold afterGreeting acceptFrom
      dsimp only
      split
      · rename_i hlt
        exact ⟨hlt, hcontrol', hdata'⟩
      · have hm : i + 1 = m := by omega
        exact ⟨hcontrol'.trans hm, hdata'.trans hm⟩

theorem Inv.greet {i k c : Nat} {line : Line} (h : Inv n s) (hlisten : s.listen m = .greeting k line c)
    (him : i < m) (hmn : m < n) (hmain : s.main i = .greeted m line c) (hnone : s.sockets line i m = none)
    (hfree : s.sockets line m i = none) (hc : c < s.count) (hjoins : (s.conns c).joins i m line)
    (hclient : (s.conns c).toClient = [])
    (hs' : s' = ((s.setConn c { s.conns c with
      toServer := []
      toClient := (s.conns c).toClient ++ [⟨helloMagic, m⟩] }).setSocket line m i c).setListen m
        (afterGreeting m k line)) : Inv n s' := by
  have hmain' : s'.main = s.main := hs' ▸ rfl
  have hlisten' : s'.listen = Function.update s.listen m (afterGreeting m k line) := hs' ▸ rfl
  have hbacklog : s'.backlog = s.backlog := hs' ▸ rfl
  have hsockets : s'.sockets = (s.setSocket line m i c).sockets := hs' ▸ rfl
  have hconns : s'.conns = Function.update s.conns c { s.conns c with
    toServer := []
    toClient := (s.conns c).toClient ++ [⟨helloMagic, m⟩] } := hs' ▸ rfl
  have hcount : s'.count = s.count := hs' ▸ rfl
  clear hs'
  have hsocket : ∀ {l a b}, ¬(l = line ∧ a = m ∧ b = i) → s'.sockets l a b = s.sockets l a b := by
    intro l a b hne
    rw [hsockets, setSocket_of_ne hne]
  have hself : s'.sockets line m i = some c := by
    rw [hsockets]
    exact setSocket_self s line m i c
  have hwaiting : ∀ j l, s.waiting j l = if j = m ∧ l = line then c :: s'.waiting j l else s'.waiting j l := by
    intro j l
    unfold State.waiting
    rw [hlisten', hbacklog]
    by_cases hj : j = m
    · subst hj
      rw [Function.update_self, hlisten, held_afterGreeting, Listen.held]
      by_cases hl : l = line
      · subst hl
        rw [if_pos rfl, if_pos ⟨rfl, rfl⟩]
        rfl
      · rw [if_neg (Ne.symm hl), if_neg fun hc => hl hc.2]
    · rw [Function.update_of_ne hj, if_neg fun hc => hj hc.1]
  have hold : ∀ {j l c'}, c' ∈ s'.waiting j l → c' ∈ s.waiting j l := by
    intro j l c' hc'
    rw [hwaiting]
    split
    · exact List.mem_cons_of_mem _ hc'
    · exact hc'
  have hserved : ∀ j l, ¬(j = m ∧ l = line) → s'.served j l = s.served j l := by
    intro j l hne
    unfold State.served
    refine Finset.filter_congr fun i' _ => ?_
    rw [hsocket]
    exact fun heq => hne ⟨heq.2.1, heq.1⟩
  have hinsert : (s'.served m line).card = (s.served m line).card + 1 := by
    have hnot : i ∉ s.served m line := by
      intro hmem
      have hsome := (Finset.mem_filter.mp hmem).2
      rw [hfree] at hsome
      cases hsome
    have heq : s'.served m line = insert i (s.served m line) := by
      ext i'
      unfold State.served
      rw [Finset.mem_insert, Finset.mem_filter, Finset.mem_filter]
      by_cases hi' : i' = i
      · subst hi'
        rw [hself]
        exact ⟨fun _ => Or.inl rfl, fun _ => ⟨Finset.mem_range.mpr him, rfl⟩⟩
      · rw [hsocket fun heq => hi' heq.2.2]
        exact ⟨Or.inr, fun hor => hor.resolve_left hi'⟩
    rw [heq, Finset.card_insert_of_notMem hnot]
  constructor
  · rw [hmain']
    exact h.target
  · intro i' j l hij hj
    have hpair := h.pair i' j l hij hj
    have hfar : s'.sockets l i' j = s.sockets l i' j := by
      apply hsocket
      rintro ⟨-, rfl, rfl⟩
      exact Nat.lt_asymm him hij
    rw [hmain']
    by_cases heq : i' = i ∧ j = m ∧ l = line
    · obtain ⟨rfl, rfl, rfl⟩ := heq
      rw [hmain, Main.level, if_neg (Nat.lt_irrefl _), if_pos rfl]
      refine ⟨hfar.trans hnone, hcount ▸ hc, ?_, Or.inr ⟨hself, ?_⟩⟩
      · rw [hconns, Function.update_self]
        exact hjoins
      · rw [hconns, Function.update_self, hclient]
        rfl
    · have hconn : ∀ c', (s.conns c').joins i' j l → s'.conns c' = s.conns c' := by
        intro c' hjoins'
        rw [hconns, Function.update_of_ne]
        rintro rfl
        obtain ⟨hi', hj', hl'⟩ := hjoins'
        exact heq ⟨hi'.symm.trans hjoins.1, hj'.symm.trans hjoins.2.1, hl'.symm.trans hjoins.2.2⟩
      refine hpair.congr hfar ?_ (Nat.le_of_eq hcount.symm) (fun c' _ => hconn c') ?_
      · exact hsocket fun hc => heq ⟨hc.2.2, hc.2.1, hc.1⟩
      · intro c' hc' hjoins'
        rw [hwaiting] at hc'
        split at hc'
        · rename_i hjl
          rcases List.mem_cons.mp hc' with rfl | hc'
          · exact absurd ⟨hjoins'.1.symm.trans hjoins.1, hjl⟩ heq
          · exact hc'
        · exact hc'
  · intro j l c' hc'
    obtain ⟨i', hij, hj, hgreeted, hfree'⟩ := h.waiting j l c' (hold hc')
    refine ⟨i', hij, hj, hmain' ▸ hgreeted, ?_⟩
    rw [hsocket, hfree']
    rintro ⟨rfl, rfl, rfl⟩
    -- the connection that was answered waits no longer
    rw [hmain] at hgreeted
    obtain ⟨-, -, rfl⟩ := Main.greeted.inj hgreeted
    have hnodup := h.nodup j l
    rw [hwaiting, if_pos ⟨rfl, rfl⟩] at hnodup
    exact (List.nodup_cons.mp hnodup).1 hc'
  · intro j l
    have hnodup := h.nodup j l
    rw [hwaiting] at hnodup
    split at hnodup
    · exact (List.nodup_cons.mp hnodup).2
    · exact hnodup
  · intro j
    rw [hlisten']
    by_cases hj : j = m
    · subst hj
      rw [Function.update_self]
      have hinv := h.listen j
      rw [hlisten] at hinv
      exact hinv.next hinsert fun l hl => hserved j l fun heq => hl heq.2
    · rw [Function.update_of_ne hj]
      exact (h.listen j).congr fun l => hserved j l fun heq => hj heq.1
  · intro j
    rw [hlisten', hmain']
    by_cases hj : j = m
    · subst hj
      rw [Function.update_self, isOpen_afterGreeting]
      have hopen := h.closed j
      rw [hlisten] at hopen
      exact hopen
    · rw [Function.update_of_ne hj]
      exact h.closed j
  · rw [hmain']
    exact h.refused

theorem inv_greet (h : Inv n s) (hstep : CacheConnect.greet s m = some s') : Inv n s' := by
  unfold CacheConnect.greet at hstep
  split at hstep
  · rename_i k line c hlisten
    have hmem : c ∈ s.waiting m line := by
      unfold State.waiting
      rw [hlisten, Listen.held, if_pos rfl]
      exact List.mem_cons_self
    obtain ⟨i, him, hmn, hmain, hnone, hfree, hc, hjoins, hserver, hclient⟩ := h.waits hmem
    rw [hserver] at hstep
    dsimp only at hstep
    rw [if_pos ⟨rfl, him⟩] at hstep
    exact h.greet hlisten him hmn hmain hnone hfree hc hjoins hclient (Option.some.inj hstep).symm
  · cases hstep

theorem inv_step {a : Act} (h : Inv n s) (hstep : step n s a = some s') : Inv n s' := by
  obtain ⟨-, happly⟩ := Option.ite_none_right_eq_some.mp hstep
  cases a with
  | start m => exact inv_start h happly
  | dial m => exact inv_dial h happly
  | answer m => exact inv_answer h happly
  | join m => exact inv_join h happly
  | accept m => exact inv_accept h happly
  | greet m => exact inv_greet h happly

end Steps

end Dogee.CacheConnect
