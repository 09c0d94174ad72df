import Upciedev.Foundations.Program

/-!
# Serial order of critical regions

Any number of clients call programs over one shared state, each call with a memory of its own.
Outside its critical region a call only reads what no call changes. Then every interleaving has
the outcome of the whole calls one at a time, in the order in which they leave the region.
-/
namespace Upciedev.Foundations

open Program

variable {I : Interface} {C α σ μ T : Type}

/-- The operations of a critical region and those allowed outside it, with the condition that all of
them keep. An operation outside gets its answer from that condition and the caller's memory. -/
structure Region (h : Handler I (σ × μ)) where
  own : I.Op → Prop
  enter : I.Op → Prop
  body : I.Op → Prop
  leave : I.Op → Prop
  Locked : σ → Prop
  Fixed : σ → Prop
  Answers : (op : I.Op) → I.Res op → Prop
  fixed {op : I.Op} {x x' : σ} {m m' : μ} {r : I.Res op} (hop : own op ∨ enter op ∨
    body op ∨ leave op)
    (hstep : h op (x, m) r (x', m')) (hx : Fixed x) : Fixed x'
  own_local {op : I.Op} {x x' : σ} {m m' : μ} {r : I.Res op} (hop : own op)
    (hstep : h op (x, m) r (x', m')) (hx : Fixed x) :
    x' = x ∧ Answers op r ∧ ∀ y, Fixed y → h op (y, m) r (y, m')
  enter_free {op : I.Op} {x x' : σ} {m m' : μ} {r : I.Res op} (hop : enter op)
    (hstep : h op (x, m) r (x', m')) : ¬ Locked x ∧ Locked x'
  enter_apart {op : I.Op} (hop : enter op) : ¬ body op ∧ ¬ leave op
  body_locked {op : I.Op} {x x' : σ} {m m' : μ} {r : I.Res op} (hop : body op)
    (hstep : h op (x, m) r (x', m')) (hx : Locked x) : Locked x'

namespace Region

variable {h : Handler I (σ × μ)} (R : Region h)

/-- The rest of a call inside the region; nothing follows the leave. -/
def Inside : Program I α → Prop
  | .ret _ => True
  | .call op k => (R.leave op ∧ ∀ r, ∃ a, k r = .ret a) ∨ (R.body op ∧ ∀ r, Inside (k r))

/-- The rest of a call that has not entered the region yet. -/
def Outside : Program I α → Prop
  | .ret _ => True
  | .call op k =>
      (R.enter op ∧ ∀ r, R.Inside (k r)) ∨ (R.own op ∧ ∀ r, R.Answers op r → Outside (k r))

variable {R} {β : Type} {p : Program I α} {f : α → Program I β}

theorem Inside.bind (hp : p.Only R.body) (hf : ∀ a, R.Inside (f a)) : R.Inside (p >>= f) := by
  induction p with
  | ret a => exact hf a
  | call op k ih =>
    obtain ⟨hop, hrest⟩ := (only_call ..).mp hp
    exact .inr ⟨hop, fun r => ih r (hrest r)⟩

theorem Outside.bind (hp : p.Only R.own) (hf : ∀ a, R.Outside (f a)) : R.Outside (p >>= f) := by
  induction p with
  | ret a => exact hf a
  | call op k ih =>
    obtain ⟨hop, hrest⟩ := (only_call ..).mp hp
    exact .inr ⟨hop, fun r _ => ih r (hrest r)⟩

end Region

/-- The calls, each with its program and the memory it starts with. -/
structure Clients (I : Interface) (C α σ μ : Type) where
  handler : Handler I (σ × μ)
  program : C → Program I α
  memory : C → μ
  allowed : C → Prop

/-- A running call. -/
structure Running (I : Interface) (C α μ : Type) where
  call : C
  trace : List (Event I)
  rest : Program I α
  memory : μ

/-- A call that has returned. -/
structure Record (I : Interface) (C α : Type) where
  call : C
  trace : List (Event I)
  result : α

structure Crowd (I : Interface) (C α σ μ T : Type) where
  shared : σ
  running : T → Option (Running I C α μ)
  done : T → List (Record I C α)

def Crowd.initial (x : σ) : Crowd I C α σ μ T :=
  { shared := x, running := fun _ => none, done := fun _ => [] }

section
variable [DecidableEq T]

def Crowd.update (s : Crowd I C α σ μ T) (x : σ) (t : T) (u : Option (Running I C α μ))
    (records : List (Record I C α)) : Crowd I C α σ μ T :=
  { shared := x, running := Function.update s.running t u
    done := Function.update s.done t (s.done t ++ records) }

variable (S : Clients I C α σ μ)

namespace Clients

inductive Step : Crowd I C α σ μ T → Crowd I C α σ μ T → Prop
  | start {s : Crowd I C α σ μ T} {t : T} (c : C) (hidle : s.running t = none)
    (hallowed : S.allowed c) :
      Step s (s.update s.shared t (some ⟨c, [], S.program c, S.memory c⟩) [])
  | perform {s : Crowd I C α σ μ T} {t : T} {c : C} {tr : List (Event I)} {op : I.Op}
      {k : I.Res op → Program I α} {m m' : μ} {r : I.Res op} {x : σ}
      (hcall : s.running t = some ⟨c, tr, .call op k, m⟩)
      (hop : S.handler op (s.shared, m) r (x, m')) :
      Step s (s.update x t (some ⟨c, tr ++ [⟨op, r⟩], k r, m'⟩) [])
  | finish {s : Crowd I C α σ μ T} {t : T} {c : C} {tr : List (Event I)} {a : α} {m : μ}
      (hret : s.running t = some ⟨c, tr, .ret a, m⟩) :
        Step s (s.update s.shared t none [⟨c, tr, a⟩])

/-- Finitely many steps of any clients in any order. -/
def Steps : Crowd I C α σ μ T → Crowd I C α σ μ T → Prop := Relation.ReflTransGen S.Step

omit [DecidableEq T] in
/-- Whole calls, one at a time. -/
inductive Serial : σ → List (T × Record I C α) → σ → Prop
  | nil (x : σ) : Serial x [] x
  | snoc {x y z : σ} {l : List (T × Record I C α)} {t : T} {c : C} {tr : List (Event I)} {a : α}
      {m : μ} (h : Serial x l y) (hrun : (S.program c).Run S.handler (y, S.memory c) tr a (z, m)) :
      Serial x (l ++ [(t, ⟨c, tr, a⟩)]) z

end Clients

/-- What client `t` has done in a serial execution, in its own order. -/
def ownOrder (l : List (T × Record I C α)) (t : T) : List (Record I C α) :=
  (l.filter fun e => e.1 = t).map Prod.snd

section
variable {l : List (T × Record I C α)} {d : Record I C α} {t t' : T}

@[simp] theorem ownOrder_snoc_same : ownOrder (l ++ [(t, d)]) t = ownOrder l t ++ [d] := by
  simp [ownOrder]

@[simp] theorem ownOrder_snoc_other (hne : t' ≠ t) :
    ownOrder (l ++ [(t, d)]) t' = ownOrder l t' := by
  simp [ownOrder, hne.symm]

end

/-- Where a client is relative to its region. -/
inductive Place where
  | outside
  | inside
  | left
  deriving DecidableEq

variable {S : Clients I C α σ μ} {R : Region S.handler}

omit [DecidableEq T] in
/-- The call has come so far, from the state `x` of the serial execution. -/
def CallInv (R : Region S.handler) (x shared : σ) : Place → Option (Running I C α μ) → Prop
  | .outside, none => True
  | .outside, some u => R.Outside u.rest ∧
      ∀ y, R.Fixed y →
        Reaches S.handler (S.program u.call) (y, S.memory u.call) u.trace u.rest (y, u.memory)
  | .inside, some u => R.Inside u.rest ∧ R.Locked shared ∧
      Reaches S.handler (S.program u.call) (x, S.memory u.call) u.trace u.rest (shared, u.memory)
  | .left, some u => ∃ a, u.rest = .ret a
  | _, none => False

/-- The record of a call that has left the region and not returned yet. -/
def pending : Place → Option (Running I C α μ) → List (Record I C α)
  | .left, some ⟨c, tr, .ret a, _⟩ => [⟨c, tr, a⟩]
  | _, _ => []

/-- The serial execution `l` has come to `x`; only the client inside the region has gone on from
there. -/
structure CrowdInv (R : Region S.handler) (x₀ : σ) (s : Crowd I C α σ μ T)
    (l : List (T × Record I C α)) (x : σ) (place : T → Place) : Prop where
  serial : S.Serial x₀ l x
  fixed : R.Fixed x
  fixed_shared : R.Fixed s.shared
  order t : ownOrder l t = s.done t ++ pending (place t) (s.running t)
  call t : CallInv R x s.shared (place t) (s.running t)
  nobody : (∀ t, place t ≠ .inside) → s.shared = x
  one t t' : place t = .inside → place t' = .inside → t = t'

namespace CrowdInv

variable {x₀ x : σ} {s : Crowd I C α σ μ T} {l : List (T × Record I C α)} {place : T → Place}

theorem initial (hfixed : R.Fixed x₀) :
    CrowdInv (T := T) R x₀ (.initial x₀) [] x₀ fun _ => .outside where
  serial := .nil x₀
  fixed := hfixed
  fixed_shared := hfixed
  order _ := rfl
  call _ := trivial
  nobody _ := rfl
  one _ _ h := by cases h

/-- As long as somebody is inside, the region is locked. -/
theorem locked (h : CrowdInv R x₀ s l x place) {t : T} (ht : place t = .inside) :
    R.Locked s.shared := by
  have hcall := h.call t
  rw [ht] at hcall
  cases hrun : s.running t with
  | none =>
    rw [hrun] at hcall
    exact hcall.elim
  | some u =>
    rw [hrun] at hcall
    exact hcall.2.1

omit [DecidableEq T] in
theorem callInv_other {shared x' shared' : σ} {pl : Place}
    {u : Option (Running I C α μ)} (h : CallInv R x shared pl u)
    (hinside : pl = .inside → x' = x ∧ shared' = shared) : CallInv R x' shared' pl u := by
  cases pl with
  | outside | left => cases u <;> exact h
  | inside =>
    obtain ⟨rfl, rfl⟩ := hinside rfl
    exact h

/-- The shared state is the end of the serial execution also if only others are looked at. -/
theorem nobody_else (h : CrowdInv R x₀ s l x place) {t : T} (ht : place t ≠ .inside)
    (hothers : ∀ t', t' ≠ t → place t' ≠ .inside) : s.shared = x := by
  apply h.nobody
  intro t'
  by_cases heq : t' = t
  · rwa [heq]
  · exact hothers t' heq

/-- A step of client `t`, which another client inside the region does not notice. -/
theorem update (h : CrowdInv R x₀ s l x place) {t : T} {x' z : σ} {l' : List (T × Record I C α)}
    {q : Place} {u : Option (Running I C α μ)} {records : List (Record I C α)}
    (hserial : S.Serial x₀ l' x') (hfixed : R.Fixed x') (hshared : R.Fixed z)
    (hown : ownOrder l' t = s.done t ++ records ++ pending q u)
    (horder : ∀ t', t' ≠ t → ownOrder l' t' = ownOrder l t') (hcall : CallInv R x' z q u)
    (hothers : ∀ t', t' ≠ t → place t' = .inside → q ≠ .inside ∧ x' = x ∧ z = s.shared)
    (hnobody : q ≠ .inside → (∀ t', t' ≠ t → place t' ≠ .inside) → z = x') :
    CrowdInv R x₀ (s.update z t u records) l' x' (Function.update place t q) where
  serial := hserial
  fixed := hfixed
  fixed_shared := hshared
  order t' := by
    by_cases ht : t' = t
    · subst ht
      simpa [Crowd.update] using hown
    · simp only [Crowd.update, Function.update_of_ne ht]
      exact (horder t' ht).trans (h.order t')
  call t' := by
    by_cases ht : t' = t
    · subst ht
      simpa [Crowd.update] using hcall
    · simp only [Crowd.update, Function.update_of_ne ht]
      exact callInv_other (h.call t') fun hin => (hothers t' ht hin).2
  nobody hnone := by
    refine hnobody ?_ fun t' ht => ?_
    · simpa using hnone t
    · simpa [Function.update_of_ne ht] using hnone t'
  one t₁ t₂ h₁ h₂ := by
    by_cases ht₁ : t₁ = t <;> by_cases ht₂ : t₂ = t
    · exact ht₁.trans ht₂.symm
    · rw [Function.update_of_ne ht₂] at h₂
      subst ht₁
      rw [Function.update_self] at h₁
      exact absurd h₁ (hothers t₂ ht₂ h₂).1
    · rw [Function.update_of_ne ht₁] at h₁
      subst ht₂
      rw [Function.update_self] at h₂
      exact absurd h₂ (hothers t₁ ht₁ h₁).1
    · rw [Function.update_of_ne ht₁] at h₁
      rw [Function.update_of_ne ht₂] at h₂
      exact h.one t₁ t₂ h₁ h₂

/-- One step of any client keeps the invariant; a call joins the serial execution when it leaves the
region, or when it returns without having left one. -/
theorem step (hallowed : ∀ c, S.allowed c → R.Outside (S.program c)) (h : CrowdInv R x₀ s l x place)
    {s' : Crowd I C α σ μ T} (hs : S.Step s s') :
    ∃ l' x' place', CrowdInv R x₀ s' l' x' place' := by
  cases hs with
  | @start t c hidle hc =>
    have hplace : place t = .outside := by
      have hcall := h.call t
      rw [hidle] at hcall
      cases hpl : place t with
      | outside => rfl
      | inside | left => simp [hpl, CallInv] at hcall
    have horder := h.order t
    rw [hplace, hidle] at horder
    refine ⟨l, x, _, h.update (q := .outside) h.serial h.fixed h.fixed_shared ?_ (fun _ _ => rfl) ?_
      (fun _ _ _ => ⟨by simp, rfl, rfl⟩) fun _ => h.nobody_else (by simp [hplace])⟩
    · simpa [pending] using horder
    · exact ⟨hallowed c hc, fun y _ => .start ..⟩
  | @perform t c tr op k m m' r z hrun hop =>
    have hcall := h.call t
    have horder := h.order t
    rw [hrun] at hcall horder
    cases hplace : place t with
    | left =>
      rw [hplace] at hcall
      obtain ⟨a, ha⟩ := hcall
      cases ha
    | outside =>
      rw [hplace] at hcall horder
      obtain ⟨hout, hreach⟩ := hcall
      rcases hout with ⟨henter, hrest⟩ | ⟨hown, hrest⟩
      · -- the region is free, and the client goes on from the end of the serial execution
        obtain ⟨hfree, hlocked⟩ := R.enter_free henter hop
        have hnone (t' : T) : place t' ≠ .inside := fun hin => hfree (h.locked hin)
        rw [h.nobody hnone] at hop
        refine ⟨l, x, _, h.update (q := .inside) h.serial h.fixed
          (R.fixed (.inr (.inl henter)) hop h.fixed) ?_ (fun _ _ => rfl) ?_
          (fun t' _ hin => absurd hin (hnone t')) fun hpl => absurd rfl hpl⟩
        · simpa [pending] using horder
        · exact ⟨hrest r, hlocked, (hreach x h.fixed).snoc hop⟩
      · obtain ⟨rfl, hanswer, hlocal⟩ := R.own_local hown hop h.fixed_shared
        refine ⟨l, x, _,
          h.update (q := .outside) h.serial h.fixed h.fixed_shared ?_ (fun _ _ => rfl) ?_
          (fun _ _ _ => ⟨by simp, rfl, rfl⟩) fun _ => h.nobody_else (by simp [hplace])⟩
        · simpa [pending] using horder
        · exact ⟨hrest r hanswer, fun y hy => (hreach y hy).snoc (hlocal y hy)⟩
    | inside =>
      rw [hplace] at hcall horder
      obtain ⟨hin, hlocked, hreach⟩ := hcall
      have halone (t' : T) (ht : t' ≠ t) : place t' ≠ .inside :=
        fun hin' => ht (h.one t' t hin' hplace)
      rcases hin with ⟨hleave, hrest⟩ | ⟨hbody, hrest⟩
      · obtain ⟨a, ha⟩ := hrest r
        have hend := hreach.snoc hop
        rw [ha] at hend
        have hfixed := R.fixed (.inr (.inr (.inr hleave))) hop h.fixed_shared
        refine ⟨_, z, _, h.update (q := .left) (h.serial.snoc (t := t) hend.run) hfixed hfixed ?_
          (fun t' ht => ownOrder_snoc_other ht) ⟨a, ha⟩ (fun t' ht hin' =>
            absurd hin' (halone t' ht))
          fun _ _ => rfl⟩
        rw [ownOrder_snoc_same, horder, ha]
        simp [pending]
      · refine ⟨l, x, _, h.update (q := .inside) h.serial h.fixed
          (R.fixed (.inr (.inr (.inl hbody))) hop h.fixed_shared) ?_ (fun _ _ => rfl) ?_
          (fun t' ht hin' => absurd hin' (halone t' ht)) fun hpl => absurd rfl hpl⟩
        · simpa [pending] using horder
        · exact ⟨hrest r, R.body_locked hbody hop hlocked, hreach.snoc hop⟩
  | @finish t c tr a m hret =>
    have hcall := h.call t
    have horder := h.order t
    rw [hret] at hcall horder
    cases hplace : place t with
    | outside =>
      rw [hplace] at hcall horder
      refine ⟨_, x, _,
        h.update (q := .outside) (h.serial.snoc (t := t) (hcall.2 x h.fixed).run) h.fixed
        h.fixed_shared ?_ (fun t' ht => ownOrder_snoc_other ht) trivial
        (fun _ _ _ => ⟨by simp, rfl, rfl⟩) fun _ => h.nobody_else (by simp [hplace])⟩
      · rw [ownOrder_snoc_same, horder]
        simp [pending]
    | inside =>
      rw [hplace] at hcall horder
      refine ⟨_, s.shared, _, h.update (q := .outside) (h.serial.snoc (t := t) hcall.2.2.run)
        h.fixed_shared h.fixed_shared ?_ (fun t' ht => ownOrder_snoc_other ht) trivial
        (fun t' ht hin => absurd (h.one t' t hin hplace) ht) fun _ _ => rfl⟩
      rw [ownOrder_snoc_same, horder]
      simp [pending]
    | left =>
      rw [hplace] at horder
      refine ⟨l, x, _,
        h.update (q := .outside) h.serial h.fixed h.fixed_shared ?_ (fun _ _ => rfl) trivial
        (fun _ _ _ => ⟨by simp, rfl, rfl⟩) fun _ => h.nobody_else (by simp [hplace])⟩
      · rw [horder]
        simp [pending]

end CrowdInv

/-- Whatever the interleaving, once every call has returned or waits before its region, there is an
order of the whole calls, one at a time, with the same final state, in which every client has the
same calls with the same traces and results in its own order. -/
theorem serializable (hallowed : ∀ c, S.allowed c → R.Outside (S.program c)) {x₀ : σ}
    (hfixed : R.Fixed x₀) {s : Crowd I C α σ μ T} (h : S.Steps (.initial x₀) s)
    (hwait : ∀ t u, s.running t = some u → ∃ op k, u.rest = .call op k ∧ R.enter op) :
    ∃ l : List (T × Record I C α), S.Serial x₀ l s.shared ∧ ∀ t, ownOrder l t = s.done t := by
  have hreach : ∃ l x place, CrowdInv R x₀ s l x place := by
    clear hwait
    induction h with
    | refl => exact ⟨_, _, _, .initial hfixed⟩
    | tail _ hlast ih =>
      obtain ⟨l, x, place, hinv⟩ := ih
      exact hinv.step hallowed hlast
  obtain ⟨l, x, place, hinv⟩ := hreach
  have houtside (t : T) : place t ≠ .inside ∧ pending (place t) (s.running t) = [] := by
    have hcall := hinv.call t
    cases hrun : s.running t with
    | none => cases hplace : place t <;> simp_all [CallInv, pending]
    | some u =>
      obtain ⟨op, k, hrest, henter⟩ := hwait t u hrun
      obtain ⟨hbody, hleave⟩ := R.enter_apart henter
      cases hplace : place t <;> simp_all [CallInv, pending, Region.Inside]
  rw [hinv.nobody fun t => (houtside t).1]
  refine ⟨l, hinv.serial, fun t => ?_⟩
  rw [hinv.order t, (houtside t).2, List.append_nil]

theorem Clients.Steps.rest {s : Crowd I C α σ μ T} {t : T} {c : C} {tr tr' : List (Event I)}
    {p : Program I α} {m m' : μ} {a : α} {x : σ} (hcall : s.running t = some ⟨c, tr, p, m⟩)
    (hrun : p.Run S.handler (s.shared, m) tr' a (x, m')) :
    S.Steps s (s.update x t none [⟨c, tr ++ tr', a⟩]) := by
  induction p generalizing s tr tr' m with
  | ret b =>
    obtain ⟨rfl, rfl, hend⟩ := hrun
    obtain ⟨rfl, rfl⟩ := Prod.mk.inj hend
    rw [List.append_nil]
    exact .single (.finish hcall)
  | call op k ih =>
    obtain ⟨r, ⟨y, m₁⟩, rest, hop, rfl, hrun⟩ := hrun
    have hcall' : (s.update y t (some ⟨c, tr ++ [⟨op, r⟩], k r, m₁⟩) []).running t =
        some ⟨c, tr ++ [⟨op, r⟩], k r, m₁⟩ := by
      simp [Crowd.update]
    have hrest := ih r hcall' hrun
    rw [List.append_assoc] at hrest
    have hupdate : (s.update y t (some ⟨c, tr ++ [⟨op, r⟩], k r, m₁⟩) []).update x t none
        [⟨c, tr ++ ([⟨op, r⟩] ++ rest), a⟩] =
          s.update x t none [⟨c, tr ++ ([⟨op, r⟩] ++ rest), a⟩] := by
      simp [Crowd.update]
    rw [hupdate] at hrest
    exact .head (.perform hcall hop) hrest

end
end Upciedev.Foundations
