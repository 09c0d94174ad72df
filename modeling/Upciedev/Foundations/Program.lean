import Mathlib.Tactic

/-!
# Programs over an interface of operations

A program either returns or calls one operation of an interface and continues
with its response. Interpreting the operations is left to a handler, a relation
between an operation, a state, a response and the next state. The same program
therefore runs against an open environment (every response is possible), against
a concrete one, and one operation at a time between the steps of other programs.

An operation whose response type is empty never returns: it models a fault.
-/
namespace Upciedev.Foundations

/-- Operations together with the type of their responses. -/
structure Interface where
  Op : Type
  Res : Op → Type

/-- Programs of finite depth; a call branches over every possible response. -/
inductive Program (I : Interface) (α : Type) : Type where
  | ret (a : α) : Program I α
  | call (op : I.Op) (k : I.Res op → Program I α) : Program I α

/-- One call and its response, as it appears in a trace. -/
structure Event (I : Interface) where
  op : I.Op
  res : I.Res op

/-- The responses and next states an environment allows for an operation. -/
abbrev Handler (I : Interface) (σ : Type) :=
  (op : I.Op) → σ → I.Res op → σ → Prop

namespace Program

variable {I : Interface} {α β σ : Type}

protected def bind : Program I α → (α → Program I β) → Program I β
  | ret a, f => f a
  | call op k, f => call op fun r => (k r).bind f

instance : Monad (Program I) where
  pure := ret
  bind := Program.bind

/-- The program that calls one operation and returns its response. -/
def perform (op : I.Op) : Program I (I.Res op) := call op ret

@[simp] theorem pure_eq (a : α) : (pure a : Program I α) = ret a := rfl

@[simp] theorem ret_bind (a : α) (f : α → Program I β) : (ret a >>= f) = f a := rfl

@[simp] theorem call_bind (op : I.Op) (k : I.Res op → Program I α) (f : α → Program I β) :
    (call op k >>= f) = call op fun r => k r >>= f := rfl

@[simp] theorem perform_eq (op : I.Op) : perform op = call op ret := rfl

theorem bind_ret (p : Program I α) : (p >>= ret) = p := by
  induction p with
  | ret a => rfl
  | call op k ih =>
    simp only [call_bind]
    exact congrArg _ (funext fun r => ih r)

theorem bind_assoc {γ : Type} (p : Program I α) (f : α → Program I β) (g : β → Program I γ) :
    (p >>= f >>= g) = (p >>= fun a => f a >>= g) := by
  induction p with
  | ret a => rfl
  | call op k ih =>
    simp only [call_bind]
    exact congrArg _ (funext fun r => ih r)

theorem ite_bind (c : Prop) [Decidable c] (p q : Program I α) (f : α → Program I β) :
    ((if c then p else q) >>= f) = if c then p >>= f else q >>= f := by
  split_ifs <;> rfl

/-- The program, started in `s`, calls the events of `tr` and returns `a` in state `t`. -/
def Run (h : Handler I σ) : Program I α → σ → List (Event I) → α → σ → Prop
  | ret b, s, tr, a, t => tr = [] ∧ a = b ∧ t = s
  | call op k, s, tr, a, t =>
      ∃ r s' rest, h op s r s' ∧ tr = ⟨op, r⟩ :: rest ∧ (k r).Run h s' rest a t

theorem run_bind (h : Handler I σ) (p : Program I α) (f : α → Program I β)
    (s : σ) (tr : List (Event I)) (b : β) (t : σ) :
    (p >>= f).Run h s tr b t ↔
      ∃ tr₁ a s' tr₂, p.Run h s tr₁ a s' ∧ tr = tr₁ ++ tr₂ ∧ (f a).Run h s' tr₂ b t := by
  induction p generalizing s tr with
  | ret a =>
    constructor
    · intro hr
      exact ⟨[], a, s, tr, ⟨rfl, rfl, rfl⟩, rfl, hr⟩
    · rintro ⟨tr₁, a', s', tr₂, ⟨rfl, rfl, rfl⟩, rfl, hr⟩
      exact hr
  | call op k ih =>
    constructor
    · rintro ⟨r, s₁, rest, hop, rfl, hr⟩
      obtain ⟨tr₁, a, s₂, tr₂, hp, rfl, hf⟩ := (ih r s₁ rest).mp hr
      exact ⟨⟨op, r⟩ :: tr₁, a, s₂, tr₂, ⟨r, s₁, tr₁, hop, rfl, hp⟩, rfl, hf⟩
    · rintro ⟨tr₁, a, s₂, tr₂, ⟨r, s₁, rest, hop, rfl, hp⟩, rfl, hf⟩
      exact ⟨r, s₁, rest ++ tr₂, hop, rfl, (ih r s₁ _).mpr ⟨rest, a, s₂, tr₂, hp, rfl, hf⟩⟩

/-- A run stays a run when the environment allows more. -/
theorem Run.mono {h h' : Handler I σ} (hle : ∀ op s r s', h op s r s' → h' op s r s')
    {p : Program I α} {s : σ} {tr : List (Event I)} {a : α} {t : σ}
    (hr : p.Run h s tr a t) : p.Run h' s tr a t := by
  induction p generalizing s tr with
  | ret b => exact hr
  | call op k ih =>
    obtain ⟨r, s', rest, hop, rfl, hr⟩ := hr
    exact ⟨r, s', rest, hle _ _ _ _ hop, rfl, ih r hr⟩

/-- Every complete run from `s` satisfies `Q` of its trace, result and final state. -/
def wp (h : Handler I σ) : Program I α → σ → (List (Event I) → α → σ → Prop) → Prop
  | ret a, s, Q => Q [] a s
  | call op k, s, Q =>
      ∀ r s', h op s r s' → (k r).wp h s' fun tr a t => Q (⟨op, r⟩ :: tr) a t

theorem wp_iff_run (h : Handler I σ) (p : Program I α) (s : σ)
    (Q : List (Event I) → α → σ → Prop) :
    p.wp h s Q ↔ ∀ tr a t, p.Run h s tr a t → Q tr a t := by
  induction p generalizing s Q with
  | ret b =>
    constructor
    · rintro hq tr a t ⟨rfl, rfl, rfl⟩
      exact hq
    · intro hq
      exact hq [] b s ⟨rfl, rfl, rfl⟩
  | call op k ih =>
    constructor
    · rintro hq tr a t ⟨r, s', rest, hop, rfl, hr⟩
      exact (ih r s' _).mp (hq r s' hop) rest a t hr
    · intro hq r s' hop
      exact (ih r s' _).mpr fun tr a t hr => hq _ a t ⟨r, s', tr, hop, rfl, hr⟩

theorem Run.of_wp {h : Handler I σ} {p : Program I α} {s : σ} {tr : List (Event I)} {a : α}
    {t : σ} {Q : List (Event I) → α → σ → Prop} (hr : p.Run h s tr a t) (hq : p.wp h s Q) :
    Q tr a t := (wp_iff_run h p s Q).mp hq tr a t hr

@[simp] theorem wp_ret (h : Handler I σ) (a : α) (s : σ) (Q : List (Event I) → α → σ → Prop) :
    (ret a).wp h s Q ↔ Q [] a s := Iff.rfl

theorem wp_mono {h : Handler I σ} {p : Program I α} {s : σ}
    {Q Q' : List (Event I) → α → σ → Prop} (hq : p.wp h s Q)
    (hle : ∀ tr a t, Q tr a t → Q' tr a t) : p.wp h s Q' :=
  (wp_iff_run h p s Q').mpr fun tr a t hr => hle tr a t (hr.of_wp hq)

theorem wp_of_forall {h : Handler I σ} {p : Program I α} {s : σ} {Q : List (Event I) → α → σ → Prop}
    (hq : ∀ tr a t, Q tr a t) : p.wp h s Q := (wp_iff_run h p s Q).mpr fun tr a t _ => hq tr a t

theorem wp_and {h : Handler I σ} {p : Program I α} {s : σ} {Q Q' : List (Event I) → α → σ → Prop}
    (hq : p.wp h s Q) (hq' : p.wp h s Q') : p.wp h s fun tr a t => Q tr a t ∧ Q' tr a t :=
  (wp_iff_run h p s _).mpr fun _ _ _ hr => ⟨hr.of_wp hq, hr.of_wp hq'⟩

theorem wp_forall {ι : Type} {h : Handler I σ} {p : Program I α} {s : σ}
    {Q : ι → List (Event I) → α → σ → Prop} :
    (p.wp h s fun tr a t => ∀ i, Q i tr a t) ↔ ∀ i, p.wp h s (Q i) := by
  simp only [wp_iff_run]
  exact ⟨fun hq i tr a t hr => hq tr a t hr i, fun hq tr a t hr i => hq i tr a t hr⟩

@[simp] theorem wp_bind (h : Handler I σ) (p : Program I α) (f : α → Program I β) (s : σ)
    (Q : List (Event I) → β → σ → Prop) :
    (p >>= f).wp h s Q ↔
      p.wp h s fun tr a t => (f a).wp h t fun tr' b u => Q (tr ++ tr') b u := by
  induction p generalizing s Q with
  | ret a => rfl
  | call op k ih =>
      exact forall_congr' fun r => forall_congr' fun s' => imp_congr_right fun _ => ih r s' _

theorem wp_ite (h : Handler I σ) (c : Prop) [Decidable c] (p q : Program I α) (s : σ)
    (Q : List (Event I) → α → σ → Prop) :
    (if c then p else q).wp h s Q ↔ (c → p.wp h s Q) ∧ (¬ c → q.wp h s Q) := by
  split_ifs with hc <;> simp [hc]

/-- Every operation on the way has a response, and every complete run satisfies `Q`. -/
def twp (h : Handler I σ) : Program I α → σ → (List (Event I) → α → σ → Prop) → Prop
  | ret a, s, Q => Q [] a s
  | call op k, s, Q =>
      (∃ r s', h op s r s') ∧
        ∀ r s', h op s r s' → (k r).twp h s' fun tr a t => Q (⟨op, r⟩ :: tr) a t

@[simp] theorem twp_ret (h : Handler I σ) (a : α) (s : σ) (Q : List (Event I) → α → σ → Prop) :
    (ret a).twp h s Q ↔ Q [] a s := Iff.rfl

theorem twp_mono {h : Handler I σ} {p : Program I α} {s : σ}
    {Q Q' : List (Event I) → α → σ → Prop} (hq : p.twp h s Q)
    (hle : ∀ tr a t, Q tr a t → Q' tr a t) : p.twp h s Q' := by
  induction p generalizing s Q Q' with
  | ret a => exact hle _ _ _ hq
  | call op k ih => exact ⟨hq.1, fun r s' hop => ih r (hq.2 r s' hop) fun tr a t => hle _ a t⟩

@[simp] theorem twp_bind (h : Handler I σ) (p : Program I α) (f : α → Program I β) (s : σ)
    (Q : List (Event I) → β → σ → Prop) :
    (p >>= f).twp h s Q ↔
      p.twp h s fun tr a t => (f a).twp h t fun tr' b u => Q (tr ++ tr') b u := by
  induction p generalizing s Q with
  | ret a => rfl
  | call op k ih =>
    refine and_congr_right fun _ => forall_congr' fun r => forall_congr' fun s' => ?_
    exact imp_congr_right fun _ => ih r s' _

theorem twp_ite (h : Handler I σ) (c : Prop) [Decidable c] (p q : Program I α) (s : σ)
    (Q : List (Event I) → α → σ → Prop) :
    (if c then p else q).twp h s Q ↔ (c → p.twp h s Q) ∧ (¬ c → q.twp h s Q) := by
  split_ifs with hc <;> simp [hc]

theorem twp.wp {h : Handler I σ} {p : Program I α} {s : σ} {Q : List (Event I) → α → σ → Prop}
    (hq : p.twp h s Q) : p.wp h s Q := by
  induction p generalizing s Q with
  | ret a => exact hq
  | call op k ih => exact fun r s' hop => ih r (hq.2 r s' hop)

theorem twp.and_wp {h : Handler I σ} {p : Program I α} {s : σ}
    {Q Q' : List (Event I) → α → σ → Prop} (hq : p.twp h s Q) (hq' : p.wp h s Q') :
    p.twp h s fun tr a t => Q tr a t ∧ Q' tr a t := by
  induction p generalizing s Q Q' with
  | ret a => exact ⟨hq, hq'⟩
  | call op k ih => exact ⟨hq.1, fun r s' hop => ih r (hq.2 r s' hop) (hq' r s' hop)⟩

theorem twp.exists_run {h : Handler I σ} {p : Program I α} {s : σ}
    {Q : List (Event I) → α → σ → Prop} (hq : p.twp h s Q) :
    ∃ tr a t, p.Run h s tr a t ∧ Q tr a t := by
  induction p generalizing s Q with
  | ret a => exact ⟨[], a, s, ⟨rfl, rfl, rfl⟩, hq⟩
  | call op k ih =>
    obtain ⟨r, s', hop⟩ := hq.1
    obtain ⟨tr, a, t, hrun, hpost⟩ := ih r (hq.2 r s' hop)
    exact ⟨_, a, t, ⟨r, s', tr, hop, rfl, hrun⟩, hpost⟩

/-- As long as the responses satisfy `A`, every call satisfies `G`, and at the end the trace
and the result satisfy `Q`. -/
def Sat (A : (op : I.Op) → I.Res op → Prop) (G : I.Op → Prop) :
    Program I α → (List (Event I) → α → Prop) → Prop
  | ret a, Q => Q [] a
  | call op k, Q => G op ∧ ∀ r, A op r → (k r).Sat A G fun tr a => Q (⟨op, r⟩ :: tr) a

variable {A : (op : I.Op) → I.Res op → Prop} {G : I.Op → Prop}

@[simp] theorem sat_ret (a : α) (Q : List (Event I) → α → Prop) :
    (ret a : Program I α).Sat A G Q ↔ Q [] a := Iff.rfl

@[simp] theorem sat_call (op : I.Op) (k : I.Res op → Program I α)
    (Q : List (Event I) → α → Prop) :
    (call op k).Sat A G Q ↔
      G op ∧ ∀ r, A op r → (k r).Sat A G fun tr a => Q (⟨op, r⟩ :: tr) a := Iff.rfl

theorem Sat.mono {A' : (op : I.Op) → I.Res op → Prop} {G' : I.Op → Prop}
    {Q Q' : List (Event I) → α → Prop} {p : Program I α} (hp : p.Sat A G Q)
    (hA : ∀ op r, G op → A' op r → A op r) (hG : ∀ op, G op → G' op)
    (hQ : ∀ tr a, Q tr a → Q' tr a) : p.Sat A' G' Q' := by
  induction p generalizing Q Q' with
  | ret a => exact hQ [] a hp
  | call op k ih =>
    exact ⟨hG op hp.1, fun r hr => ih r (hp.2 r (hA op r hp.1 hr)) fun tr a => hQ _ a⟩

theorem Sat.imp {Q Q' : List (Event I) → α → Prop} {p : Program I α} (hp : p.Sat A G Q)
    (hQ : ∀ tr a, Q tr a → Q' tr a) : p.Sat A G Q' :=
  hp.mono (fun _ _ _ hr => hr) (fun _ hop => hop) hQ

@[simp] theorem sat_bind (p : Program I α) (f : α → Program I β)
    (Q : List (Event I) → β → Prop) :
    (p >>= f).Sat A G Q ↔
      p.Sat A G fun tr a => (f a).Sat A G fun tr' b => Q (tr ++ tr') b := by
  induction p generalizing Q with
  | ret a => rfl
  | call op k ih =>
      exact and_congr_right fun _ => forall_congr' fun r => imp_congr_right fun _ => ih r _

theorem sat_ite (c : Prop) [Decidable c] (p q : Program I α) (Q : List (Event I) → α → Prop) :
    (if c then p else q).Sat A G Q ↔ (c → p.Sat A G Q) ∧ (¬ c → q.Sat A G Q) := by
  split_ifs with hc <;> simp [hc]

theorem Sat.and {Q Q' : List (Event I) → α → Prop} {p : Program I α} (hp : p.Sat A G Q)
    (hp' : p.Sat A G Q') : p.Sat A G fun tr a => Q tr a ∧ Q' tr a := by
  induction p generalizing Q Q' with
  | ret a => exact ⟨hp, hp'⟩
  | call op k ih => exact ⟨hp.1, fun r hr => ih r (hp.2 r hr) (hp'.2 r hr)⟩

/-- A run whose environment respects the assumption makes guaranteed calls only. -/
theorem Sat.run {h : Handler I σ} {P : σ → Prop} {Q : List (Event I) → α → Prop}
    {p : Program I α} (hp : p.Sat A G Q)
    (hstep : ∀ op s r s', P s → G op → h op s r s' → A op r ∧ P s')
    {s : σ} {tr : List (Event I)} {a : α} {t : σ} (hs : P s) (hr : p.Run h s tr a t) :
    (∀ e ∈ tr, G e.op) ∧ Q tr a ∧ P t := by
  induction p generalizing s tr Q with
  | ret b =>
    obtain ⟨rfl, rfl, rfl⟩ := hr
    exact ⟨by simp, hp, hs⟩
  | call op k ih =>
    obtain ⟨r, s', rest, hop, rfl, hr⟩ := hr
    have hnext := hstep op s r s' hs hp.1 hop
    have hrest := ih r (hp.2 r hnext.1) hnext.2 hr
    exact ⟨List.forall_mem_cons.mpr ⟨hp.1, hrest.1⟩, hrest.2⟩

theorem Sat.trace {G' : I.Op → Prop} {Q : List (Event I) → α → Prop} {p : Program I α}
    (hp : p.Sat A G Q) (hG : ∀ op, G op → G' op) :
    p.Sat A G' fun tr a => (∀ e ∈ tr, G e.op) ∧ Q tr a := by
  induction p generalizing Q with
  | ret a => exact ⟨by simp, hp⟩
  | call op k ih =>
    refine ⟨hG op hp.1, fun r hr => (ih r (hp.2 r hr)).imp fun tr a htr => ?_⟩
    exact ⟨List.forall_mem_cons.mpr ⟨hp.1, htr.1⟩, htr.2⟩

/-- Every call the program can make, whatever the responses, satisfies `G`. -/
def Only (G : I.Op → Prop) (p : Program I α) : Prop :=
  p.Sat (fun _ _ => True) G fun _ _ => True

@[simp] theorem only_ret (a : α) : (ret a : Program I α).Only G := trivial

@[simp] theorem only_call (op : I.Op) (k : I.Res op → Program I α) :
    (call op k).Only G ↔ G op ∧ ∀ r, (k r).Only G := by
  simp [Only]

@[simp] theorem only_ite (c : Prop) [Decidable c] (p q : Program I α) :
    (if c then p else q).Only G ↔ (c → p.Only G) ∧ (¬ c → q.Only G) := sat_ite c p q _

theorem Only.bind {p : Program I α} {f : α → Program I β} (hp : p.Only G)
    (hf : ∀ a, (f a).Only G) : (p >>= f).Only G := by
  rw [Only, sat_bind]
  exact hp.imp fun _ a _ => hf a

theorem Only.mono {G' : I.Op → Prop} {p : Program I α} (hp : p.Only G) (hG : ∀ op, G op → G' op) :
    p.Only G' := Sat.mono hp (fun _ _ _ hr => hr) hG fun _ _ ha => ha

theorem Only.run {h : Handler I σ} {p : Program I α} (hp : p.Only G)
    {s : σ} {tr : List (Event I)} {a : α} {t : σ} (hr : p.Run h s tr a t) :
    ∀ e ∈ tr, G e.op :=
  (Sat.run (P := fun _ => True) hp (fun _ _ _ _ _ _ _ => ⟨trivial, trivial⟩) trivial hr).1

theorem wp_and_only {h : Handler I σ} {p : Program I α} {s : σ}
    {Q : List (Event I) → α → σ → Prop} (hq : p.wp h s Q) (hp : p.Only G) :
    p.wp h s fun tr a t => Q tr a t ∧ ∀ e ∈ tr, G e.op :=
  (wp_iff_run h p s _).mpr fun _ _ _ hr => ⟨hr.of_wp hq, hp.run hr⟩

/-- Known calls are guaranteed calls, and can be assumed of the trace. -/
theorem Sat.of_only {G' : I.Op → Prop} {Q : List (Event I) → α → Prop} {p : Program I α}
    (hp : p.Only G') (hG : ∀ op, G' op → G op)
    (hQ : ∀ tr a, (∀ e ∈ tr, G' e.op) → Q tr a) : p.Sat A G Q := by
  induction p generalizing Q with
  | ret a => exact hQ [] a (by simp)
  | call op k ih =>
    rw [only_call] at hp
    exact ⟨hG op hp.1, fun r _ => ih r (hp.2 r) fun tr a htr =>
      hQ _ a (List.forall_mem_cons.mpr ⟨hp.1, htr⟩)⟩

theorem Sat.and_only {G' : I.Op → Prop} {Q : List (Event I) → α → Prop} {p : Program I α}
    (hp : p.Sat A G Q) (honly : p.Only G') :
    p.Sat A G fun tr a => Q tr a ∧ ∀ e ∈ tr, G' e.op := by
  induction p generalizing Q with
  | ret a => exact ⟨hp, by simp⟩
  | call op k ih =>
    rw [only_call] at honly
    refine ⟨hp.1, fun r hr => (ih r (hp.2 r hr) (honly.2 r)).imp fun tr a htr => ?_⟩
    exact ⟨htr.1, List.forall_mem_cons.mpr ⟨honly.1, htr.2⟩⟩

/-- An invariant of the state that every known call keeps. -/
theorem Only.wp_inv {h : Handler I σ} {P : σ → Prop} {p : Program I α} (hp : p.Only G) {s : σ}
    (hstep : ∀ op s r s', P s → G op → h op s r s' → P s') (hs : P s) :
    p.wp h s fun _ _ t => P t :=
  (wp_iff_run h p s _).mpr fun _ _ _ hr =>
    (Sat.run hp (fun op s r s' hP hop hh => ⟨trivial, hstep op s r s' hP hop hh⟩) hs hr).2.2

/-- The program, started in `s`, has called the events of `tr` and is about to run `q`. -/
inductive Reaches (h : Handler I σ) : Program I α → σ → List (Event I) → Program I α → σ → Prop
  | start (p : Program I α) (s : σ) : Reaches h p s [] p s
  | step {op : I.Op} {k : I.Res op → Program I α} {s s' t : σ} {r : I.Res op}
      {tr : List (Event I)} {q : Program I α} (hop : h op s r s') (hr : Reaches h (k r) s' tr q t) :
      Reaches h (call op k) s (⟨op, r⟩ :: tr) q t

theorem Reaches.snoc {h : Handler I σ} {p : Program I α} {s t u : σ} {tr : List (Event I)}
    {op : I.Op} {k : I.Res op → Program I α} {r : I.Res op} (hr : Reaches h p s tr (call op k) t)
    (hop : h op t r u) : Reaches h p s (tr ++ [⟨op, r⟩]) (k r) u := by
  generalize hq : call op k = q at hr
  induction hr with
  | start p s =>
    subst hq
    exact .step hop (.start ..)
  | step hfirst _ ih => exact .step hfirst (ih hop hq)

theorem Reaches.run {h : Handler I σ} {p : Program I α} {s t : σ} {tr : List (Event I)} {a : α}
    (hr : Reaches h p s tr (ret a) t) : p.Run h s tr a t := by
  generalize hq : ret a = q at hr
  induction hr with
  | start p s =>
    subst hq
    exact ⟨rfl, rfl, rfl⟩
  | step hop _ ih => exact ⟨_, _, _, hop, rfl, ih hq⟩

/-- What is guaranteed of a program is guaranteed of what is left of it in an interrupted run. -/
theorem Sat.rest {h : Handler I σ} {P : σ → Prop} {Q : List (Event I) → α → Prop}
    {p q : Program I α} {s t : σ} {tr : List (Event I)} (hr : Reaches h p s tr q t)
    (hp : p.Sat A G Q) (hstep : ∀ op s r s', P s → G op → h op s r s' → A op r ∧ P s')
    (hs : P s) : q.Sat A G fun tr' a => Q (tr ++ tr') a := by
  induction hr generalizing Q with
  | start p s => exact hp
  | step hop hr ih =>
    have hnext := hstep _ _ _ _ hs hp.1 hop
    exact ih (hp.2 _ hnext.1) hnext.2

theorem Run.reaches {h : Handler I σ} {p : Program I α} {s t : σ} {tr : List (Event I)} {a : α}
    (hr : p.Run h s tr a t) : Reaches h p s tr (ret a) t := by
  induction p generalizing s tr with
  | ret b =>
    obtain ⟨rfl, rfl, rfl⟩ := hr
    exact .start ..
  | call op k ih =>
    obtain ⟨r, s', rest, hop, rfl, hrest⟩ := hr
    exact .step hop (ih r hrest)

/-- The next call of an interrupted run is a guaranteed one, too. -/
theorem Sat.reaches {h : Handler I σ} {P : σ → Prop} {Q : List (Event I) → α → Prop}
    {p q : Program I α} {s t : σ} {tr : List (Event I)} (hr : Reaches h p s tr q t)
    (hp : p.Sat A G Q) (hstep : ∀ op s r s', P s → G op → h op s r s' → A op r ∧ P s')
    (hs : P s) : ∀ op k, q = call op k → G op := by
  rintro op k rfl
  exact (hp.rest hr hstep hs).1

/-- If every guaranteed call can be answered, the program comes to an end. -/
theorem Sat.exists_trace {Q : List (Event I) → α → Prop} {p : Program I α} (hp : p.Sat A G Q)
    (hanswer : ∀ op, G op → ∃ r, A op r) : ∃ tr a, Q tr a := by
  induction p generalizing Q with
  | ret a => exact ⟨[], a, hp⟩
  | call op k ih =>
    obtain ⟨r, hr⟩ := hanswer op hp.1
    obtain ⟨tr, a, hQ⟩ := ih r (hp.2 r hr)
    exact ⟨_, a, hQ⟩

/-- An interrupted run is never stuck: the call it stands before has a response. -/
theorem twp.progress {h : Handler I σ} {p q : Program I α} {s t : σ} {tr : List (Event I)}
    {Q : List (Event I) → α → σ → Prop} (hr : Reaches h p s tr q t) (hq : p.twp h s Q) :
    ∀ op k, q = call op k → ∃ r t', h op t r t' := by
  induction hr generalizing Q with
  | start p s =>
    rintro op k rfl
    exact hq.1
  | step hop hr ih => exact ih (hq.2 _ _ hop)

/-- A program whose calls always have a response comes to its end. -/
theorem Only.twp {h : Handler I σ} {p : Program I α} (hp : p.Only G)
    (hanswer : ∀ op s, G op → ∃ r s', h op s r s') (s : σ) : p.twp h s fun _ _ _ => True := by
  induction p generalizing s with
  | ret a => trivial
  | call op k ih =>
    rw [only_call] at hp
    exact ⟨hanswer op s hp.1, fun r s' _ => ih r (hp.2 r) s'⟩

/-- Every call of every run from `s`, complete or not, satisfies `G`. -/
def Guarded (h : Handler I σ) (G : I.Op → Prop) : Program I α → σ → Prop
  | ret _, _ => True
  | call op k, s => G op ∧ ∀ r s', h op s r s' → (k r).Guarded h G s'

section
variable {h : Handler I σ}

@[simp] theorem guarded_ret (a : α) (s : σ) : (ret a : Program I α).Guarded h G s ↔ True := Iff.rfl

theorem guarded_iff_reaches (p : Program I α) (s : σ) :
    p.Guarded h G s ↔ ∀ tr op k t, Reaches h p s tr (call op k) t → G op := by
  constructor
  · intro hp tr op k t hr
    generalize hq : call op k = q at hr
    induction hr with
    | start p s =>
      subst hq
      exact hp.1
    | step hop _ ih => exact ih (hp.2 _ _ hop) hq
  · intro hall
    induction p generalizing s with
    | ret a => trivial
    | call op k ih =>
      refine ⟨hall [] op k s (.start ..), fun r s' hop => ih r s' fun tr op' k' t hr => ?_⟩
      exact hall _ op' k' t (.step hop hr)

theorem guarded_bind (p : Program I α) (f : α → Program I β) (s : σ) :
    (p >>= f).Guarded h G s ↔ p.Guarded h G s ∧ p.wp h s fun _ a t => (f a).Guarded h G t := by
  induction p generalizing s with
  | ret a => exact (and_iff_right trivial).symm
  | call op k ih =>
    constructor
    · rintro ⟨hop, hrest⟩
      exact ⟨⟨hop, fun r s' hr => ((ih r s').mp (hrest r s' hr)).1⟩,
        fun r s' hr => ((ih r s').mp (hrest r s' hr)).2⟩
    · rintro ⟨⟨hop, hk⟩, hrest⟩
      exact ⟨hop, fun r s' hr => (ih r s').mpr ⟨hk r s' hr, hrest r s' hr⟩⟩

theorem guarded_ite (c : Prop) [Decidable c] (p q : Program I α) (s : σ) :
    (if c then p else q).Guarded h G s ↔ (c → p.Guarded h G s) ∧ (¬ c → q.Guarded h G s) := by
  split_ifs with hc <;> simp [hc]

theorem Only.guarded {p : Program I α} (hp : p.Only G) (s : σ) : p.Guarded h G s :=
  (guarded_iff_reaches p s).mpr fun _ op k _ hr =>
    Sat.reaches (P := fun _ => True) hr hp (fun _ _ _ _ _ _ _ => ⟨trivial, trivial⟩)
      trivial op k rfl

end

/-- What holds in all final states under the same condition holds under it of the program. -/
theorem twp.wp_iff {h : Handler I σ} {p : Program I α} {s : σ}
    {Q Q' : List (Event I) → α → σ → Prop} {c : Prop} (hq : p.twp h s Q)
    (hc : ∀ tr a t, Q tr a t → (Q' tr a t ↔ c)) : p.wp h s Q' ↔ c := by
  constructor
  · intro hq'
    obtain ⟨tr, a, t, hrun, hpost⟩ := hq.exists_run
    exact (hc tr a t hpost).mp (hrun.of_wp hq')
  · exact fun hall => wp_mono hq.wp fun tr a t hpost => (hc tr a t hpost).mpr hall

/-- The environment that remembers nothing and allows every response. -/
def anyHandler (I : Interface) : Handler I Unit := fun _ _ _ _ => True

theorem Run.forget {h : Handler I σ} {p : Program I α} {s : σ} {tr : List (Event I)} {a : α}
    {t : σ} (hr : p.Run h s tr a t) : p.Run (anyHandler I) () tr a () := by
  induction p generalizing s tr with
  | ret b =>
    obtain ⟨rfl, rfl, rfl⟩ := hr
    exact ⟨rfl, rfl, rfl⟩
  | call op k ih =>
    obtain ⟨r, s', rest, -, rfl, hr⟩ := hr
    exact ⟨r, (), rest, trivial, rfl, ih r hr⟩

/-- A complete run can be read off its trace: no other run starts with the same events. -/
theorem Run.prefix_unique {p : Program I α} {tr tr' rest rest' : List (Event I)} {a a' : α}
    (hr : p.Run (anyHandler I) () tr a ()) (hr' : p.Run (anyHandler I) () tr' a' ())
    (heq : tr ++ rest = tr' ++ rest') : tr = tr' ∧ a = a' := by
  induction p generalizing tr tr' with
  | ret b =>
    obtain ⟨rfl, rfl, -⟩ := hr
    obtain ⟨rfl, rfl, -⟩ := hr'
    exact ⟨rfl, rfl⟩
  | call op k ih =>
    obtain ⟨r, _, l, -, rfl, hl⟩ := hr
    obtain ⟨r', _, l', -, rfl, hl'⟩ := hr'
    obtain ⟨hhead, htail⟩ := List.cons_eq_cons.mp heq
    obtain rfl : r = r' := eq_of_heq (Event.mk.inj hhead).2
    obtain ⟨rfl, rfl⟩ := ih r hl hl' htail
    exact ⟨rfl, rfl⟩

/-- The trace that is spoken about is the trace of a run. -/
theorem Sat.runs {Q : List (Event I) → α → Prop} {p : Program I α} (hp : p.Sat A G Q) :
    p.Sat A G fun tr a => Q tr a ∧ p.Run (anyHandler I) () tr a () := by
  induction p generalizing Q with
  | ret a => exact ⟨hp, rfl, rfl, rfl⟩
  | call op k ih =>
    refine ⟨hp.1, fun r hr => (ih r (hp.2 r hr)).imp fun tr a hpost => ?_⟩
    obtain ⟨hQ, hrun⟩ := hpost
    exact ⟨hQ, r, (), tr, trivial, rfl, hrun⟩

/-- In the place of a program of which only the calls are known. -/
theorem Only.wp {h : Handler I σ} {p : Program I α} (hp : p.Only G) {s : σ}
    {Q : List (Event I) → α → σ → Prop}
    (hq : ∀ tr a t, (∀ e ∈ tr, G e.op) → Q tr a t) : p.wp h s Q :=
  (wp_iff_run h p s Q).mpr fun tr a t hr => hq tr a t (hp.run hr)

/-- Run against computed responses; `none` when an operation has no response. -/
def exec (f : (op : I.Op) → σ → Option (I.Res op × σ)) :
    Program I α → σ → Option (List (Event I) × α × σ)
  | ret a, s => some ([], a, s)
  | call op k, s =>
      match f op s with
      | none => none
      | some (r, s') =>
          match (k r).exec f s' with
          | none => none
          | some (tr, a, t) => some (⟨op, r⟩ :: tr, a, t)

/-- A computed execution is a run of every environment that allows its responses. -/
theorem run_of_exec {f : (op : I.Op) → σ → Option (I.Res op × σ)} {h : Handler I σ}
    (hf : ∀ op s r s', f op s = some (r, s') → h op s r s')
    {p : Program I α} {s : σ} {tr : List (Event I)} {a : α} {t : σ}
    (he : p.exec f s = some (tr, a, t)) : p.Run h s tr a t := by
  induction p generalizing s tr with
  | ret b =>
    simp only [exec, Option.some.injEq, Prod.mk.injEq] at he
    exact ⟨he.1.symm, he.2.1.symm, he.2.2.symm⟩
  | call op k ih =>
    unfold exec at he
    cases hop : f op s with
    | none => simp [hop] at he
    | some next =>
      obtain ⟨r, s'⟩ := next
      cases hrest : (k r).exec f s' with
      | none => simp [hop, hrest] at he
      | some out =>
        obtain ⟨rest, b, u⟩ := out
        simp only [hop, hrest, Option.some.injEq, Prod.mk.injEq] at he
        obtain ⟨rfl, rfl, rfl⟩ := he
        exact ⟨r, s', rest, hf op s r s' hop, rfl, ih r hrest⟩

/-- Where no other response is possible, the computed execution is the only run. -/
theorem Run.eq_of_exec {f : (op : I.Op) → σ → Option (I.Res op × σ)} {h : Handler I σ}
    (hf : ∀ op s r s' r' t, f op s = some (r, s') → h op s r' t → r' = r ∧ t = s')
    {p : Program I α} {s : σ} {tr tr' : List (Event I)} {a a' : α} {t t' : σ}
    (he : p.exec f s = some (tr, a, t)) (hrun : p.Run h s tr' a' t') :
    tr' = tr ∧ a' = a ∧ t' = t := by
  induction p generalizing s tr tr' with
  | ret b =>
    simp only [exec, Option.some.injEq, Prod.mk.injEq] at he
    obtain ⟨rfl, rfl, rfl⟩ := he
    exact hrun
  | call op k ih =>
    obtain ⟨r', u, rest', hop', rfl, hrest'⟩ := hrun
    unfold exec at he
    cases hop : f op s with
    | none => simp [hop] at he
    | some next =>
      obtain ⟨r, s'⟩ := next
      obtain ⟨rfl, rfl⟩ := hf op s r s' r' u hop hop'
      cases hrest : (k r').exec f u with
      | none => simp [hop, hrest] at he
      | some out =>
        obtain ⟨rest, b, v⟩ := out
        simp only [hop, hrest, Option.some.injEq, Prod.mk.injEq] at he
        obtain ⟨rfl, rfl, rfl⟩ := he
        obtain ⟨rfl, hend⟩ := ih r' hrest hrest'
        exact ⟨rfl, hend⟩

/-- The first `n` operations against computed responses, with the rest of the program. -/
def execTo (f : (op : I.Op) → σ → Option (I.Res op × σ)) :
    ℕ → Program I α → σ → Option (List (Event I) × Program I α × σ)
  | 0, p, s => some ([], p, s)
  | _ + 1, ret a, s => some ([], ret a, s)
  | n + 1, call op k, s =>
      match f op s with
      | none => none
      | some (r, s') =>
          match execTo f n (k r) s' with
          | none => none
          | some (tr, q, t) => some (⟨op, r⟩ :: tr, q, t)

theorem reaches_of_execTo {f : (op : I.Op) → σ → Option (I.Res op × σ)} {h : Handler I σ}
    (hf : ∀ op s r s', f op s = some (r, s') → h op s r s') {n : ℕ} {p q : Program I α} {s t : σ}
    {tr : List (Event I)} (he : execTo f n p s = some (tr, q, t)) : Reaches h p s tr q t := by
  induction n generalizing p s tr with
  | zero =>
    simp only [execTo, Option.some.injEq, Prod.mk.injEq] at he
    obtain ⟨rfl, rfl, rfl⟩ := he
    exact .start ..
  | succ n ih =>
    cases p with
    | ret a =>
      simp only [execTo, Option.some.injEq, Prod.mk.injEq] at he
      obtain ⟨rfl, rfl, rfl⟩ := he
      exact .start ..
    | call op k =>
      unfold execTo at he
      cases hop : f op s with
      | none => simp [hop] at he
      | some next =>
        obtain ⟨r, s'⟩ := next
        cases hrest : execTo f n (k r) s' with
        | none => simp [hop, hrest] at he
        | some out =>
          obtain ⟨rest, b, u⟩ := out
          simp only [hop, hrest, Option.some.injEq, Prod.mk.injEq] at he
          obtain ⟨rfl, rfl, rfl⟩ := he
          exact .step (hf op s r s' hop) (ih hrest)

end Program
end Upciedev.Foundations
