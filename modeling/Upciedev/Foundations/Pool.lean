import Upciedev.Foundations.Program

/-!
# Interleaved programs

Any number of threads call programs over one shared state. The steps of a pool are the
start of a call, one operation of a running call, and its return; they interleave in
every order. What a thread does between its calls is a client: a local state that says
which call may come next.

A guarantee given by every program under assumptions that an invariant of the shared
state provides holds in all reachable pools, together with that invariant.
-/
namespace Upciedev.Foundations

open Program

variable {I : Interface} {C L α σ T : Type}

/-- The calls a thread may start in a local state, and where a result leaves it. -/
structure Client (C L α : Type) where
  allowed : L → C → Prop
  next : L → C → α → L

/-- A thread between two calls, or in a call with the trace of that call so far. -/
inductive Thread (I : Interface) (C L α : Type) : Type where
  | idle (l : L) : Thread I C L α
  | calling (l : L) (c : C) (tr : List (Event I)) (p : Program I α) : Thread I C L α

structure Pool (I : Interface) (C L α σ T : Type) where
  shared : σ
  thread : T → Thread I C L α

/-- Threads, the programs they call and the state they share. -/
structure System (I : Interface) (C L α σ T : Type) where
  handler : Handler I σ
  client : Client C L α
  program : T → C → Program I α

section
variable [DecidableEq T]

/-- The pool after a step of thread `t` that leaves the shared state `x`. -/
def Pool.update (s : Pool I C L α σ T) (x : σ) (t : T) (u : Thread I C L α) : Pool I C L α σ T :=
  { shared := x, thread := Function.update s.thread t u }

@[simp] theorem Pool.update_shared (s : Pool I C L α σ T) (x : σ) (t : T) (u : Thread I C L α) :
    (s.update x t u).shared = x := rfl

@[simp] theorem Pool.update_same (s : Pool I C L α σ T) (x : σ) (t : T) (u : Thread I C L α) :
    (s.update x t u).thread t = u := Function.update_self ..

@[simp] theorem Pool.update_other (s : Pool I C L α σ T) (x : σ) {t t' : T} (h : t' ≠ t)
    (u : Thread I C L α) : (s.update x t u).thread t' = s.thread t' := Function.update_of_ne h ..

theorem Pool.update_update (s : Pool I C L α σ T) (x y : σ) (t : T) (u v : Thread I C L α) :
    (s.update x t u).update y t v = s.update y t v := by
  simp [Pool.update]

theorem Pool.update_eq_self (s : Pool I C L α σ T) {t : T} {u : Thread I C L α}
    (h : s.thread t = u) : s.update s.shared t u = s := by
  subst h
  simp [Pool.update]

/-- What holds of every thread holds after a step of one of them that keeps it. -/
theorem Pool.update_forall {P : T → Thread I C L α → Prop} {s : Pool I C L α σ T}
    (h : ∀ t, P t (s.thread t)) {x : σ} {t : T} {u : Thread I C L α} (hu : P t u) (t' : T) :
    P t' ((s.update x t u).thread t') := by
  by_cases ht : t' = t
  · subst ht
    rwa [Pool.update_same]
  · rw [Pool.update_other _ _ ht]
    exact h t'

variable (S : System I C L α σ T)

namespace System

inductive Step : Pool I C L α σ T → Pool I C L α σ T → Prop
  | start {s : Pool I C L α σ T} {t : T} {l : L} {c : C} (hidle : s.thread t = .idle l)
      (hallowed : S.client.allowed l c) :
        Step s (s.update s.shared t (.calling l c [] (S.program t c)))
  | perform {s : Pool I C L α σ T} {t : T} {l : L} {c : C} {tr : List (Event I)} {op : I.Op}
      {k : I.Res op → Program I α} {r : I.Res op} {x : σ}
      (hcall : s.thread t = .calling l c tr (.call op k)) (hop : S.handler op s.shared r x) :
      Step s (s.update x t (.calling l c (tr ++ [⟨op, r⟩]) (k r)))
  | finish {s : Pool I C L α σ T} {t : T} {l : L} {c : C} {tr : List (Event I)} {a : α}
      (hret : s.thread t = .calling l c tr (.ret a)) :
      Step s (s.update s.shared t (.idle (S.client.next l c a)))

/-- Finitely many steps of any threads in any order. -/
def Steps : Pool I C L α σ T → Pool I C L α σ T → Prop := Relation.ReflTransGen S.Step

/-- Finitely many steps during which thread `t` stays in its call of `c`. -/
def During (t : T) (c : C) : Pool I C L α σ T → Pool I C L α σ T → Prop :=
  Relation.ReflTransGen fun s s' => S.Step s s' ∧ ∃ l tr p, s'.thread t = .calling l c tr p

variable {S}

theorem During.steps {t : T} {c : C} {s s' : Pool I C L α σ T} (h : S.During t c s s') :
    S.Steps s s' :=
  Relation.ReflTransGen.mono (fun _ _ hstep => hstep.1) _ _ h

/-- What every step preserves holds after any number of steps. -/
theorem Steps.invariant {P : Pool I C L α σ T → Prop} {s s' : Pool I C L α σ T} (h : S.Steps s s')
    (hstep : ∀ s s', P s → S.Step s s' → P s') (hs : P s) : P s' := by
  induction h with
  | refl => exact hs
  | tail _ hlast ih => exact hstep _ _ ih hlast

/-- Steps with an account of the operations made, which no program reads. -/
inductive Accounted {γ : Type} (S : System I C L α σ T) (note : γ → I.Op → γ)
    (s₀ : Pool I C L α σ T) (g₀ : γ) :
    Pool I C L α σ T → γ → Prop
  | refl : Accounted S note s₀ g₀ s₀ g₀
  | start {s : Pool I C L α σ T} {g : γ} {t : T} {l : L} {c : C} (h : Accounted S note s₀ g₀ s g)
      (hidle : s.thread t = .idle l) (hallowed : S.client.allowed l c) :
      Accounted S note s₀ g₀ (s.update s.shared t (.calling l c [] (S.program t c))) g
  | perform {s : Pool I C L α σ T} {g : γ} {t : T} {l : L} {c : C} {tr : List (Event I)} {op : I.Op}
      {k : I.Res op → Program I α} {r : I.Res op} {x : σ} (h : Accounted S note s₀ g₀ s g)
      (hcall : s.thread t = .calling l c tr (.call op k)) (hop : S.handler op s.shared r x) :
      Accounted S note s₀ g₀ (s.update x t (.calling l c (tr ++ [⟨op, r⟩]) (k r))) (note g op)
  | finish {s : Pool I C L α σ T} {g : γ} {t : T} {l : L} {c : C} {tr : List (Event I)} {a : α}
      (h : Accounted S note s₀ g₀ s g) (hret : s.thread t = .calling l c tr (.ret a)) :
      Accounted S note s₀ g₀ (s.update s.shared t (.idle (S.client.next l c a))) g

theorem Accounted.steps {γ : Type} {note : γ → I.Op → γ} {s₀ s : Pool I C L α σ T} {g₀ g : γ}
    (h : Accounted S note s₀ g₀ s g) : S.Steps s₀ s := by
  induction h with
  | refl => exact .refl
  | start _ hidle hallowed ih => exact ih.tail (.start hidle hallowed)
  | perform _ hcall hop ih => exact ih.tail (.perform hcall hop)
  | finish _ hret ih => exact ih.tail (.finish hret)

theorem Steps.rest {s : Pool I C L α σ T} {t : T} {l : L} {c : C} {tr tr' : List (Event I)}
    {p : Program I α} {a : α} {x : σ} (hcall : s.thread t = .calling l c tr p)
    (hrun : p.Run S.handler s.shared tr' a x) :
    S.Steps s (s.update x t (.calling l c (tr ++ tr') (.ret a))) := by
  induction p generalizing s tr tr' with
  | ret b =>
    obtain ⟨rfl, rfl, rfl⟩ := hrun
    rw [List.append_nil, s.update_eq_self hcall]
    exact .refl
  | call op k ih =>
    obtain ⟨r, y, rest, hop, rfl, hrun⟩ := hrun
    have hrest := ih r (s := s.update y t (.calling l c (tr ++ [⟨op, r⟩]) (k r)))
      (Pool.update_same ..) hrun
    rw [Pool.update_update, List.append_assoc] at hrest
    exact .head (.perform hcall hop) hrest

/-- A complete run of a call is one way in which a pool can proceed. -/
theorem Steps.run {s : Pool I C L α σ T} {t : T} {l : L} {c : C} {tr : List (Event I)} {a : α}
    {x : σ} (hidle : s.thread t = .idle l) (hallowed : S.client.allowed l c)
    (hrun : (S.program t c).Run S.handler s.shared tr a x) :
    S.Steps s (s.update x t (.idle (S.client.next l c a))) := by
  have hrest := Steps.rest (S := S) (s := s.update s.shared t (.calling l c [] (S.program t c)))
    (Pool.update_same ..) hrun
  have hfinish := Step.finish (S := S) (s := s.update x t (.calling l c tr (.ret a)))
    (Pool.update_same ..)
  rw [Pool.update_update] at hrest hfinish
  exact .head (.start hidle hallowed) (hrest.tail hfinish)

theorem During.reaches {p q : Program I α} {y x : σ} {es : List (Event I)}
    (hreach : Reaches S.handler p y es q x) {s : Pool I C L α σ T} (hshared : s.shared = y) {t : T}
    {l : L} {c : C} {tr : List (Event I)} (hcall : s.thread t = .calling l c tr p) :
    S.During t c s (s.update x t (.calling l c (tr ++ es) q)) := by
  induction hreach generalizing s tr with
  | start p y =>
    subst hshared
    rw [List.append_nil, s.update_eq_self hcall]
    exact .refl
  | @step op k _ y' _ r _ _ hop _ ih =>
    subst hshared
    have hrest :=
      ih (s := s.update y' t (.calling l c (tr ++ [⟨op, r⟩]) (k r))) rfl (Pool.update_same ..)
    rw [Pool.update_update, List.append_assoc] at hrest
    exact .head ⟨.perform hcall hop, _, _, _, Pool.update_same ..⟩ hrest

theorem Steps.reaches {p q : Program I α} {y x : σ} {es : List (Event I)}
    (hreach : Reaches S.handler p y es q x) {s : Pool I C L α σ T} (hshared : s.shared = y) {t : T}
    {l : L} {c : C} {tr : List (Event I)} (hcall : s.thread t = .calling l c tr p) :
    S.Steps s (s.update x t (.calling l c (tr ++ es) q)) :=
  (During.reaches hreach hshared hcall).steps

theorem Accounted.reaches {γ : Type} {note : γ → I.Op → γ} {s₀ s : Pool I C L α σ T} {g₀ g : γ}
    {p q : Program I α} {y x : σ} {es : List (Event I)} (hreach : Reaches S.handler p y es q x)
    (h : Accounted S note s₀ g₀ s g) (hshared : s.shared = y) {t : T} {l : L} {c : C}
    {tr : List (Event I)} (hcall : s.thread t = .calling l c tr p) :
    Accounted S note s₀ g₀ (s.update x t (.calling l c (tr ++ es) q))
      (es.foldl (fun g e => note g e.op) g) := by
  induction hreach generalizing s g tr with
  | start p y =>
    subst hshared
    rw [List.append_nil, s.update_eq_self hcall]
    exact h
  | step hop _ ih =>
    subst hshared
    have hrest := ih (h.perform hcall hop) rfl (Pool.update_same ..)
    rw [Pool.update_update, List.append_assoc] at hrest
    exact hrest

/-- The invariant of the shared state, and the guarantees of all running calls. -/
structure Guaranteed (A : (op : I.Op) → I.Res op → Prop) (G : I.Op → Prop)
    (Q : C → List (Event I) → α → Prop) (P : σ → Prop) (s : Pool I C L α σ T) : Prop where
  shared : P s.shared
  thread t l c tr p : s.thread t = .calling l c tr p → p.Sat A G fun tr' a => Q c (tr ++ tr') a

variable {A : (op : I.Op) → I.Res op → Prop} {G : I.Op → Prop}
  {Q : C → List (Event I) → α → Prop} {P : σ → Prop}

theorem Guaranteed.update {s : Pool I C L α σ T} (h : Guaranteed A G Q P s) {x : σ} (hx : P x)
    {t : T} {u : Thread I C L α}
    (hu : ∀ l c tr p, u = .calling l c tr p → p.Sat A G fun tr' a => Q c (tr ++ tr') a) :
    Guaranteed A G Q P (s.update x t u) where
  shared := hx
  thread t' l c tr p ht' := by
    rcases eq_or_ne t' t with rfl | hne
    · rw [Pool.update_same] at ht'
      exact hu l c tr p ht'
    · rw [Pool.update_other _ _ hne] at ht'
      exact h.thread t' l c tr p ht'

/-- Calls that keep the guarantee keep the invariant, whatever the interleaving. -/
theorem Guaranteed.step
    (hcall : ∀ t l c, S.client.allowed l c → (S.program t c).Sat A G (Q c))
    (hstep : ∀ op x r x', P x → G op → S.handler op x r x' → A op r ∧ P x')
    {s s' : Pool I C L α σ T} (h : Guaranteed A G Q P s) (hs : S.Step s s') :
    Guaranteed A G Q P s' := by
  cases hs with
  | start hidle hallowed =>
    apply h.update h.shared
    rintro _ _ _ _ ⟨⟩
    exact hcall _ _ _ hallowed
  | perform hrun hop =>
    have hsat := h.thread _ _ _ _ _ hrun
    have hnext := hstep _ _ _ _ h.shared hsat.1 hop
    apply h.update hnext.2
    rintro _ _ _ _ ⟨⟩
    simpa using hsat.2 _ hnext.1
  | finish hret => exact h.update h.shared (by simp)

theorem Guaranteed.steps
    (hcall : ∀ t l c, S.client.allowed l c → (S.program t c).Sat A G (Q c))
    (hstep : ∀ op x r x', P x → G op → S.handler op x r x' → A op r ∧ P x')
    {s s' : Pool I C L α σ T} (h : Guaranteed A G Q P s) (hs : S.Steps s s') :
    Guaranteed A G Q P s' :=
  hs.invariant (fun _ _ hg => hg.step hcall hstep) h

omit [DecidableEq T] in
/-- A call that has come to its end has the trace and the result it guarantees. -/
theorem Guaranteed.result {s : Pool I C L α σ T} (h : Guaranteed A G Q P s) {t : T} {l : L} {c : C}
    {tr : List (Event I)} {a : α} (hret : s.thread t = .calling l c tr (.ret a)) : Q c tr a := by
  simpa using h.thread t l c tr _ hret

end System
end
end Upciedev.Foundations
