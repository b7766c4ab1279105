import Dogee.CacheCopies

/-!
# Writes at the home

A server function goes through its stages in order and stores the words of a write in its first step.
A word of the backend changes only where a write of it is stored, and the thread that has asked for
the write is in its put until the answer.
-/

namespace Dogee.CacheCluster

open CacheThreads (Op Node Phase Request Inv)

/-! ## The calls after a step -/

section Calls

variable {cfg : Config} {s s' : State} {a : Act} {h h' src : Nat} {c c' : Caller} {call : Call} {msg : Message}
  {stage : Stage}

theorem served_calls_of_ne (hserve : Served cfg s h c s') (hne : ¬(h' = h ∧ c' = c)) :
    s'.calls h' c' = s.calls h' c' := by
  cases hserve with
  | readMiss _ _ hanswer =>
      rw [(control_answer hanswer).2]
      exact setTwo_of_ne _ _ _ _ hne
  | writeEnd _ _ hanswer =>
      rw [(control_answer hanswer).2]
      exact setTwo_of_ne _ _ _ _ hne
  | writeMissEnd _ _ hanswer =>
      rw [(control_answer hanswer).2]
      exact setTwo_of_ne _ _ _ _ hne
  | bad => rfl
  | _ => exact setTwo_of_ne _ _ _ _ hne

end Calls

/-! ## What is in the backend -/

section Stored

variable {cfg : Config} {s s' : State} {a : Act} {m h src w : Nat} {u : Word} {c c' : Caller} {v : List Word}
  {msg : Message}

theorem stores_cases {addr : Nat} (hmsg : msg.stores = some (addr, v)) :
    msg = .write addr v ∨ msg = .writeMiss addr v := by
  cases msg with
  | write addr' v' =>
      obtain ⟨rfl, rfl⟩ := Prod.mk.inj (Option.some.inj hmsg)
      exact Or.inl rfl
  | writeMiss addr' v' =>
      obtain ⟨rfl, rfl⟩ := Prod.mk.inj (Option.some.inj hmsg)
      exact Or.inr rfl
  | _ => cases hmsg

end Stored

end Dogee.CacheCluster
