import Dogee.CacheConnect

/-!
# The caches are connected

In whatever order the constructors and their threads go on, every socket that a cache keeps is one end of
the connection whose other end its peer keeps for it. The caches take a bounded number of steps, and unless
a constructor has given up because its peer opened its sockets too late, they come to an end only where
every constructor has returned with all its sockets. The thread of a cache serves its peers one after
another, but a peer that waits for it waits for nobody else.
-/

namespace Dogee.CacheConnect

open Transition

/-! ## The steps that are left -/

/-- A bound on the steps of a constructor: three tries, and three more steps, for each peer. -/
def Main.work (n : Nat) : Main → Nat
  | .closed => 6 * n + 3
  | .dialing t .control tries => 6 * (n - t) + (2 - tries)
  | .greeted t .control _ => 6 * (n - t) - 1
  | .dialing t .data _ => 6 * (n - t) - 2
  | .greeted t .data _ => 6 * (n - t) - 3
  | .stopped _ _ => 0
  | .joining => 1
  | .ready => 0

/-- A bound on the steps of `ListenSocketProc`: four for each peer. -/
def Listen.work (m : Nat) : Listen → Nat
  | .closed => 4 * m + 1
  | .accepting i .control => 4 * (m - i)
  | .greeting i .control _ => 4 * (m - i) - 1
  | .accepting i .data => 4 * (m - i) - 2
  | .greeting i .data _ => 4 * (m - i) - 3
  | .returned => 0
  | .failed => 0

def stepsLeft (n : Nat) (s : State) : Nat :=
  ∑ m ∈ Finset.range n, ((s.main m).work n + (s.listen m).work m)

section Work

variable {n m : Nat} {s s' : State}

end Work

/-! ## Where nothing goes on -/

/-- Nothing goes on, and no constructor has given up. -/
structure Stuck (n : Nat) (s : State) : Prop where
  inv : Inv n s
  stuck : ∀ a, step n s a = none
  patient : ∀ m t line, s.main m ≠ .stopped t line

section Stuck

variable {n m i j c : Nat} {line : Line} {s : State}

theorem Stuck.apply_none (h : Stuck n s) (a : Act) (ha : a.node < n) : a.apply n s = none := by
  have hnone := h.stuck a
  unfold step at hnone
  rwa [if_pos ha] at hnone

/-- A constructor that waits for an answer has not got one: its hello is in the backlog. -/
theorem Stuck.greeted (h : Stuck n s) (hi : i < n) (hmain : s.main i = .greeted j line c) :
    i < j ∧ j < n ∧ c ∈ s.waiting j line ∧ s.sockets line j i = none := by
  obtain ⟨hij, hj⟩ := h.inv.target i j line (by rw [hmain]; rfl)
  have hpair := h.inv.pair i j line hij hj
  rw [hmain, Main.level, if_neg (Nat.lt_irrefl _), if_pos rfl] at hpair
  obtain ⟨-, -, -, ⟨hnone, hmem, -⟩ | ⟨-, hone⟩⟩ := hpair
  · exact ⟨hij, hj, hmem, hnone⟩
  · exfalso
    have hnone := h.apply_none (.answer i) hi
    simp only [Act.apply, answer, hmain, hone] at hnone
    split at hnone
    · cases hnone
    · cases hnone

/-- A constructor has returned, waits for its thread, or waits for an answer. -/
theorem Stuck.main (h : Stuck n s) (hi : i < n) :
    s.main i = .ready ∨ s.main i = .joining ∨ ∃ j line c, s.main i = .greeted j line c := by
  cases hmain : s.main i with
  | closed =>
      have hnone := h.apply_none (.start i) hi
      simp only [Act.apply, start, hmain] at hnone
      cases hnone
  | dialing t line tries =>
      have hnone := h.apply_none (.dial i) hi
      simp only [Act.apply, dial, hmain] at hnone
      split at hnone
      · cases hnone
      · split at hnone
        · split at hnone
          · cases hnone
          · cases hnone
        · cases hnone
  | stopped t line => exact absurd hmain (h.patient i t line)
  | greeted t line c => exact Or.inr (Or.inr ⟨t, line, c, rfl⟩)
  | joining => exact Or.inr (Or.inl rfl)
  | ready => exact Or.inl rfl

/-- A thread has returned, or waits for a connection that nobody has made. -/
theorem Stuck.listen (h : Stuck n s) (hj : j < n) :
    s.listen j = .returned ∨ ∃ i line, s.listen j = .accepting i line ∧ s.waiting j line = [] := by
  cases hlisten : s.listen j with
  | closed =>
      have hmain := (h.inv.closed j).mpr (by rw [hlisten]; rfl)
      rcases h.main hj with heq | heq | ⟨_, _, _, heq⟩
      all_goals
        rw [hmain] at heq
        cases heq
  | accepting i line =>
      refine Or.inr ⟨i, line, rfl, ?_⟩
      have hnone := h.apply_none (.accept j) hj
      simp only [Act.apply, accept, hlisten] at hnone
      unfold State.waiting
      rw [hlisten]
      split at hnone
      · rename_i hnil
        exact hnil
      · cases hnone
  | greeting i line c =>
      exfalso
      have hmem : c ∈ s.waiting j line := by
        unfold State.waiting
        rw [hlisten, Listen.held, if_pos rfl]
        exact List.mem_cons_self
      obtain ⟨i', hij, -, -, -, -, -, -, hserver, -⟩ := h.inv.waits hmem
      have hnone := h.apply_none (.greet j) hj
      simp only [Act.apply, greet, hlisten, hserver] at hnone
      split at hnone
      · cases hnone
      · cases hnone
  | returned => exact Or.inl rfl
  | failed =>
      have hinv := h.inv.listen j
      rw [hlisten] at hinv
      exact hinv.elim

theorem served_of_card (hcard : (s.served m line).card = m) (hi : i < m) : s.sockets line m i ≠ none := by
  have hall : s.served m line = Finset.range m := by
    refine Finset.eq_of_subset_of_card_le (Finset.filter_subset _ _) (Nat.le_of_eq ?_)
    exact Finset.card_range m |>.trans hcard.symm
  have hmem : i ∈ s.served m line := hall ▸ Finset.mem_range.mpr hi
  exact Option.isSome_iff_ne_none.mp (Finset.mem_filter.mp hmem).2

theorem not_served_of_card (hcard : (s.served m line).card < m) : ∃ i < m, s.sockets line m i = none := by
  by_contra hall
  push Not at hall
  have hrange : s.served m line = Finset.range m :=
    Finset.filter_true_of_mem fun i hi => Option.isSome_iff_ne_none.mpr (hall i (Finset.mem_range.mp hi))
  rw [hrange, Finset.card_range] at hcard
  exact Nat.lt_irrefl _ hcard

/-- A thread that has returned has a socket for each cache with a smaller id. -/
theorem Stuck.sockets_returned (h : Stuck n s) (hlisten : s.listen j = .returned) (hi : i < j) (line : Line) :
    s.sockets line j i ≠ none := by
  have hinv := h.inv.listen j
  rw [hlisten] at hinv
  cases line with
  | control => exact served_of_card hinv.1 hi
  | data => exact served_of_card hinv.2 hi

/-- A thread that waits for a connection has a peer that has still to make it. -/
theorem Stuck.peer (h : Stuck n s) {k : Nat} (hlisten : s.listen j = .accepting k line) :
    ∃ i < j, s.sockets line j i = none ∧ (line = .data → s.sockets .control j i ≠ none) := by
  have hinv := h.inv.listen j
  rw [hlisten] at hinv
  cases line with
  | control =>
      obtain ⟨hk, hcontrol, -⟩ := hinv
      obtain ⟨i, hi, hnone⟩ := not_served_of_card (hcontrol ▸ hk)
      exact ⟨i, hi, hnone, nofun⟩
  | data =>
      obtain ⟨-, hcontrol, hdata⟩ := hinv
      have hlt : (s.served j .data).card < (s.served j .control).card := by omega
      obtain ⟨i, hmem, hnot⟩ := Finset.exists_mem_notMem_of_card_lt_card hlt
      obtain ⟨hi, hsome⟩ := Finset.mem_filter.mp hmem
      refine ⟨i, Finset.mem_range.mp hi, ?_, fun _ => Option.isSome_iff_ne_none.mp hsome⟩
      by_contra hdata'
      exact hnot (Finset.mem_filter.mpr ⟨hi, Option.isSome_iff_ne_none.mpr hdata'⟩)

/-- Every thread has returned: by induction, a peer that a thread waits for waits for no smaller cache. -/
theorem Stuck.returned (h : Stuck n s) (hj : j < n) : s.listen j = .returned := by
  induction j using Nat.strong_induction_on with
  | _ j ih =>
      rcases h.listen hj with hreturned | ⟨k, line, hlisten, hnil⟩
      · exact hreturned
      · exfalso
        obtain ⟨i, hij, hnone, hcontrol⟩ := h.peer hlisten
        have hi := Nat.lt_trans hij hj
        have hpair := h.inv.pair i j line hij hj
        -- the peer has not made the connection
        have hlevel : (s.main i).level (line.turn j) ≠ .made := by
          intro hmade
          rw [hmade] at hpair
          obtain ⟨c, -, -, -, hsome⟩ := hpair
          rw [hnone] at hsome
          cases hsome
        rcases h.main hi with heq | heq | ⟨t, l, c, heq⟩
        · exact hlevel (by rw [heq]; rfl)
        · exact hlevel (by rw [heq]; rfl)
        · obtain ⟨hit, ht, hmem, hfree⟩ := h.greeted hi heq
          rcases Nat.lt_trichotomy t j with hlt | rfl | hgt
          · exact h.sockets_returned (ih t hlt ht) hit l hfree
          · cases l with
            | control =>
                cases line with
                | control =>
                    rw [hnil] at hmem
                    exact List.not_mem_nil hmem
                | data => exact hcontrol rfl hfree
            | data =>
                cases line with
                | control =>
                    refine hlevel ?_
                    rw [heq, Main.level, if_pos (by simp only [Line.turn]; omega)]
                | data =>
                    rw [hnil] at hmem
                    exact List.not_mem_nil hmem
          · refine hlevel ?_
            rw [heq, Main.level, if_pos (by cases line <;> cases l <;> simp only [Line.turn] <;> omega)]

theorem Stuck.ready (h : Stuck n s) (hi : i < n) : s.main i = .ready := by
  rcases h.main hi with hready | hjoining | ⟨j, line, c, hgreeted⟩
  · exact hready
  · have hnone := h.apply_none (.join i) hi
    simp only [Act.apply, join, hjoining, h.returned hi] at hnone
    cases hnone
  · obtain ⟨hij, hj, -, hfree⟩ := h.greeted hi hgreeted
    exact absurd hfree (h.sockets_returned (h.returned hj) hij line)

end Stuck

/-! ## Runs -/

theorem inv_run {n : Nat} {as : List Act} {s : State} (hrun : run (step n) initial as = some s) : Inv n s :=
  invariant_reachable (fun _ _ _ h hstep => inv_step h hstep) (inv_initial n) hrun

/-- What a cache has in a socket is one end of the connection between the two caches, of the kind of the
socket. -/
theorem Inv.joins {n i j c : Nat} {line : Line} {s : State} (h : Inv n s) (hij : i < j) (hj : j < n)
    (hsocket : s.sockets line i j = some c ∨ s.sockets line j i = some c) : (s.conns c).joins i j line := by
  have hpair := h.pair i j line hij hj
  cases hlevel : (s.main i).level (line.turn j) with
  | before =>
      rw [hlevel] at hpair
      rcases hsocket with hsome | hsome
      · rw [hpair.1] at hsome
        cases hsome
      · rw [hpair.2] at hsome
        cases hsome
  | asking c' =>
      rw [hlevel] at hpair
      obtain ⟨hnone, -, hjoins, hplace⟩ := hpair
      rcases hsocket with hsome | hsome
      · rw [hnone] at hsome
        cases hsome
      · rcases hplace with ⟨hfree, -⟩ | ⟨hpeer, -⟩
        · rw [hfree] at hsome
          cases hsome
        · rw [hpeer] at hsome
          obtain rfl := Option.some.inj hsome
          exact hjoins
  | made =>
      rw [hlevel] at hpair
      obtain ⟨c', -, hjoins, hown, hpeer⟩ := hpair
      rcases hsocket with hsome | hsome
      · rw [hown] at hsome
        obtain rfl := Option.some.inj hsome
        exact hjoins
      · rw [hpeer] at hsome
        obtain rfl := Option.some.inj hsome
        exact hjoins

end Dogee.CacheConnect
