import Dogee.Transition
import Mathlib.Logic.Function.Basic

/-!
# Programs over a key-value server

A program asks a server for the values of some keys or stores a value under a
key, one request at a time; `crash` is an access outside the program's own
memory. The server answers a request for several keys with the keys that are
present, once each and in an order of its choosing.

`exec` runs one program alone. `Computes` says that it ends with a given result
and store whatever order the server chooses; its rules follow the requests.
`StoresOnly` bounds the keys that a program stores under, whatever it is answered.
`System.step` performs one request of one of several programs.
-/

namespace Dogee.KeyValue

variable {κ β α γ : Type}

inductive Prog (κ β α : Type)
  | ret (a : α)
  | crash
  | mget (ks : List κ) (next : List (κ × β) → Prog κ β α)
  | set (k : κ) (v : β) (next : Prog κ β α)

namespace Prog

def bind : Prog κ β α → (α → Prog κ β γ) → Prog κ β γ
  | ret a, f => f a
  | crash, _ => crash
  | mget ks next, f => mget ks fun rs => (next rs).bind f
  | set k v next, f => set k v (next.bind f)

instance : Monad (Prog κ β) where
  pure := ret
  bind := bind

/-- The result of a computation on the program's own memory. -/
def ofOption : Option α → Prog κ β α
  | none => crash
  | some a => ret a

@[simp] theorem pure_eq (a : α) : (pure a : Prog κ β α) = ret a := rfl

@[simp] theorem ret_bind (a : α) (f : α → Prog κ β γ) : (ret a >>= f) = f a := rfl

@[simp] theorem crash_bind (f : α → Prog κ β γ) : (crash >>= f) = crash := rfl

@[simp] theorem mget_bind (ks : List κ) (next : List (κ × β) → Prog κ β α) (f : α → Prog κ β γ) :
    (mget ks next >>= f) = mget ks fun rs => next rs >>= f := rfl

@[simp] theorem set_bind (k : κ) (v : β) (next : Prog κ β α) (f : α → Prog κ β γ) :
    (set k v next >>= f) = set k v (next >>= f) := rfl

theorem bind_assoc {δ : Type} (p : Prog κ β α) (f : α → Prog κ β γ) (g : γ → Prog κ β δ) :
    (p >>= f >>= g) = p >>= fun a => f a >>= g := by
  induction p with
  | ret a => rfl
  | crash => rfl
  | mget ks next ih =>
      simp only [mget_bind]
      congr 1
      funext rs
      exact ih rs
  | set k v next ih =>
      simp only [set_bind]
      rw [ih]

end Prog

/-- What the server holds, and how many requests for keys it has answered. -/
structure Server (κ β : Type) where
  store : κ → Option β
  served : Nat

/-- The order in which the server sends the answers to each request. -/
structure Order (κ β : Type) where
  reorder : Nat → List (κ × β) → List (κ × β)
  perm : ∀ n l, (reorder n l).Perm l

/-- The server that answers in the order of the request. -/
def Order.same (κ β : Type) : Order κ β := ⟨fun _ l => l, fun _ l => .refl l⟩

/-- The answers to a request: the present keys with their values. -/
def Server.replies (o : Order κ β) (s : Server κ β) (ks : List κ) : List (κ × β) :=
  o.reorder s.served (ks.filterMap fun k => (s.store k).map fun v => (k, v))

theorem Server.mem_replies {o : Order κ β} {s : Server κ β} {ks : List κ} {e : κ × β} :
    e ∈ s.replies o ks ↔ e.1 ∈ ks ∧ s.store e.1 = some e.2 := by
  rw [Server.replies, (o.perm _ _).mem_iff, List.mem_filterMap]
  constructor
  · rintro ⟨k, hk, he⟩
    obtain ⟨v, hv, rfl⟩ := Option.map_eq_some_iff.mp he
    exact ⟨hk, hv⟩
  · rintro ⟨hk, hv⟩
    exact ⟨e.1, hk, by rw [hv]; rfl⟩

section Exec

variable [DecidableEq κ]

def Server.put (s : Server κ β) (k : κ) (v : β) : Server κ β :=
  { s with store := Function.update s.store k (some v) }

/-- Run a program alone to its end. -/
def exec (o : Order κ β) : Prog κ β α → Server κ β → Option (α × Server κ β)
  | .ret a, s => some (a, s)
  | .crash, _ => none
  | .mget ks next, s => exec o (next (s.replies o ks)) { s with served := s.served + 1 }
  | .set k v next, s => exec o next (s.put k v)

theorem exec_bind (o : Order κ β) (p : Prog κ β α) (f : α → Prog κ β γ) (s : Server κ β) :
    exec o (p >>= f) s = (exec o p s).bind fun r => exec o (f r.1) r.2 := by
  induction p generalizing s with
  | ret a => rfl
  | crash => rfl
  | mget ks next ih => exact ih _ _
  | set k v next ih => exact ih _

/-- Alone on the store `st`, in any order of the answers, the program ends with
result `a` and leaves the store `st'`. -/
def Computes (p : Prog κ β α) (st : κ → Option β) (a : α) (st' : κ → Option β) : Prop :=
  ∀ o n, ∃ n', exec o p ⟨st, n⟩ = some (a, ⟨st', n'⟩)

namespace Computes

variable {st st' st'' : κ → Option β} {a : α} {c : γ}

theorem ret (a : α) (st : κ → Option β) : Computes (.ret a) st a st :=
  fun _ n => ⟨n, rfl⟩

theorem bind {p : Prog κ β α} {f : α → Prog κ β γ} (hp : Computes p st a st')
    (hf : Computes (f a) st' c st'') : Computes (p >>= f) st c st'' := by
  intro o n
  obtain ⟨n', hn⟩ := hp o n
  obtain ⟨n'', hn'⟩ := hf o n'
  refine ⟨n'', ?_⟩
  rw [exec_bind, hn]
  exact hn'

theorem set {k : κ} {v : β} {next : Prog κ β α}
    (h : Computes next (Function.update st k (some v)) a st') :
    Computes (.set k v next) st a st' := h

theorem mget {ks : List κ} {next : List (κ × β) → Prog κ β α}
    (h : ∀ rs, (∀ e, e ∈ rs ↔ e.1 ∈ ks ∧ st e.1 = some e.2) → Computes (next rs) st a st') :
    Computes (.mget ks next) st a st' := by
  intro o n
  exact h _ (fun e => Server.mem_replies) o (n + 1)

theorem ofOption {x : Option α} (hx : x = some a) : Computes (.ofOption x) st a st := by
  rw [hx]
  exact ret a st

end Computes

/-! ## The keys a program stores under -/

/-- Whatever the answers are, the program stores only under keys with `P`. -/
def Prog.StoresOnly (P : κ → Prop) : Prog κ β α → Prop
  | .ret _ => True
  | .crash => True
  | .mget _ next => ∀ rs, (next rs).StoresOnly P
  | .set k _ next => P k ∧ next.StoresOnly P

namespace Prog.StoresOnly

variable {P : κ → Prop}

omit [DecidableEq κ] in
theorem bind {p : Prog κ β α} {f : α → Prog κ β γ} (hp : p.StoresOnly P) (hf : ∀ a, (f a).StoresOnly P) :
    (p >>= f).StoresOnly P := by
  induction p with
  | ret a => exact hf a
  | crash => trivial
  | mget ks next ih =>
      intro rs
      exact ih rs (hp rs)
  | set k v next ih => exact ⟨hp.1, ih hp.2⟩

omit [DecidableEq κ] in
theorem ofOption (x : Option α) : (Prog.ofOption x : Prog κ β α).StoresOnly P := by
  cases x <;> trivial

omit [DecidableEq κ] in
theorem mono {Q : κ → Prop} {p : Prog κ β α} (hp : p.StoresOnly P) (h : ∀ k, P k → Q k) : p.StoresOnly Q := by
  induction p with
  | ret a => trivial
  | crash => trivial
  | mget ks next ih =>
      intro rs
      exact ih rs (hp rs)
  | set k v next ih => exact ⟨h k hp.1, ih hp.2⟩

/-- The values of all other keys are unchanged. -/
theorem frame {o : Order κ β} {p : Prog κ β α} (hp : p.StoresOnly P) {s s' : Server κ β} {a : α}
    (hrun : exec o p s = some (a, s')) {k : κ} (hk : ¬P k) : s'.store k = s.store k := by
  induction p generalizing s with
  | ret b =>
      obtain ⟨-, rfl⟩ := Prod.mk.inj (Option.some.inj hrun)
      rfl
  | crash => cases hrun
  | mget ks next ih =>
      have hrest := ih _ (hp _) hrun
      exact hrest
  | set k' v next ih =>
      have hne : k ≠ k' := by
        rintro rfl
        exact hk hp.1
      refine (ih hp.2 hrun).trans ?_
      exact Function.update_of_ne hne _ _

end Prog.StoresOnly

/-! ## Several programs -/

/-- The server and the programs of its clients, with the keys each has read
since it last stored a value. -/
structure System (ι κ β α : Type) where
  server : Server κ β
  progs : ι → Prog κ β α
  held : ι → List κ

variable {ι : Type} [DecidableEq ι]

/-- The next request of client `c`; a client that has ended makes none. -/
def System.step (o : Order κ β) (s : System ι κ β α) (c : ι) : Option (System ι κ β α) :=
  match s.progs c with
  | .ret _ => none
  | .crash => none
  | .mget ks next =>
      some { server := { s.server with served := s.server.served + 1 }
             progs := Function.update s.progs c (next (s.server.replies o ks))
             held := Function.update s.held c (s.held c ++ ks) }
  | .set k v next =>
      some { server := s.server.put k v
             progs := Function.update s.progs c next
             held := Function.update s.held c [] }

/-- A step is a request of the client that takes it. -/
theorem System.step_cases {o : Order κ β} {s t : System ι κ β α} {c : ι} (h : s.step o c = some t) :
    (∃ ks next, s.progs c = .mget ks next ∧
      t = { server := { s.server with served := s.server.served + 1 }
            progs := Function.update s.progs c (next (s.server.replies o ks))
            held := Function.update s.held c (s.held c ++ ks) }) ∨
    (∃ k v next, s.progs c = .set k v next ∧
      t = { server := s.server.put k v
            progs := Function.update s.progs c next
            held := Function.update s.held c [] }) := by
  unfold System.step at h
  cases hp : s.progs c with
  | ret a =>
      rw [hp] at h
      cases h
  | crash =>
      rw [hp] at h
      cases h
  | mget ks next =>
      rw [hp] at h
      exact Or.inl ⟨ks, next, rfl, (Option.some.inj h).symm⟩
  | set k v next =>
      rw [hp] at h
      exact Or.inr ⟨k, v, next, rfl, (Option.some.inj h).symm⟩

end Exec

end Dogee.KeyValue
