import Upciedev.Foundations.Serial

/-!
# Calls shielded by their region

Next to the critical regions there are writes that enter none. A call which these writes do not
disturb while it is inside its region has the effect of the whole call, run in one piece at a moment
between its start and its end.
-/
namespace Upciedev.Foundations

open Program

variable {I : Interface} {C α σ μ T : Type}

/-- The operations of a critical region and those outside it. A read outside has the answer of any
other state with the same fixed part, up to what `Same` leaves open; a write outside that is `Still`
changes nothing. -/
structure Shield (h : Handler I (σ × μ)) where
  own : I.Op → Prop
  poke : I.Op → Prop
  enter : I.Op → Prop
  body : I.Op → Prop
  leave : I.Op → Prop
  Locked : σ → Prop
  Fixed : σ → Prop
  Answers : (op : I.Op) → I.Res op → Prop
  Same : (op : I.Op) → I.Res op → I.Res op → Prop
  Still : σ → σ → Prop
  fixed {op : I.Op} {x x' : σ} {m m' : μ} {r : I.Res op}
    (hop : own op ∨ poke op ∨ enter op ∨ body op ∨ leave op) (hstep : h op (x, m) r (x', m'))
    (hx : Fixed x) : Fixed x'
  own_local {op : I.Op} {x x' : σ} {m m' : μ} {r : I.Res op} (hop : own op)
    (hstep : h op (x, m) r (x', m')) (hx : Fixed x) :
    x' = x ∧ Answers op r ∧ ∀ y, Fixed y → ∃ r', Same op r r' ∧ h op (y, m) r' (y, m')
  poke_locked {op : I.Op} {x x' : σ} {m m' : μ} {r : I.Res op} (hop : poke op)
    (hstep : h op (x, m) r (x', m')) (hx : Locked x) : Locked x'
  poke_still {op : I.Op} {x x' : σ} {m m' : μ} {r : I.Res op} (hop : poke op)
    (hstep : h op (x, m) r (x', m')) (hstill : Still x x') : x' = x
  enter_free {op : I.Op} {x x' : σ} {m m' : μ} {r : I.Res op} (hop : enter op)
    (hstep : h op (x, m) r (x', m')) : ¬ Locked x ∧ Locked x'
  body_locked {op : I.Op} {x x' : σ} {m m' : μ} {r : I.Res op} (hop : body op)
    (hstep : h op (x, m) r (x', m')) (hx : Locked x) : Locked x'
  leave_last {op : I.Op} (hop : own op ∨ enter op ∨ body op) : ¬ leave op
  poke_apart {op : I.Op} (hop : poke op) : ¬ own op ∧ ¬ enter op

namespace Shield

variable {h : Handler I (σ × μ)} (R : Shield h)

/-- The rest of a call inside the region; nothing follows the leave. -/
def Inside : Program I α → Prop
  | .ret _ => True
  | .call op k => (R.leave op ∧ ∀ r, ∃ a, k r = .ret a) ∨ (R.body op ∧ ∀ r, Inside (k r))

/-- The rest of a call that has not entered the region yet, with or without writes outside of it.
What `Same` leaves open is not used. -/
def Outside (pokes : Prop) : Program I α → Prop
  | .ret _ => True
  | .call op k => (R.enter op ∧ ∀ r, R.Inside (k r)) ∨
      (R.own op ∧ ∀ r, R.Answers op r → Outside pokes (k r) ∧ ∀ r', R.Same op r r' → k r' = k r) ∨
      (pokes ∧ R.poke op ∧ ∀ r, Outside pokes (k r))

def Entered (tr : List (Event I)) : Prop := (∃ e ∈ tr, R.enter e.op) ∧ ∀ e ∈ tr, ¬ R.leave e.op

variable {R} {β : Type} {p : Program I α} {f : α → Program I β}

theorem Outside.mono {pokes pokes' : Prop} (hp : R.Outside pokes p) (hle : pokes → pokes') :
    R.Outside pokes' p := by
  induction p with
  | ret a => trivial
  | call op k ih =>
    rcases hp with henter | ⟨hown, hrest⟩ | ⟨hpokes, hpoke, hrest⟩
    · exact .inl henter
    · exact .inr (.inl ⟨hown, fun r hr => ⟨ih r (hrest r hr).1, (hrest r hr).2⟩⟩)
    · exact .inr (.inr ⟨hle hpokes, hpoke, fun r => ih r (hrest r)⟩)

theorem Outside.bind {pokes : Prop}
    (hp : p.Only fun op => R.own op ∧ ∀ r r', R.Same op r r' → r' = r)
    (hf : ∀ a, R.Outside pokes (f a)) : R.Outside pokes (p >>= f) := by
  induction p with
  | ret a => exact hf a
  | call op k ih =>
    obtain ⟨⟨hown, hsame⟩, hrest⟩ := (only_call ..).mp hp
    exact .inr (.inl ⟨hown, fun r _ => ⟨ih r (hrest r), fun r' hr => by rw [hsame r r' hr]⟩⟩)

theorem Inside.bind (hp : p.Only R.body) (hf : ∀ a, R.Inside (f a)) : R.Inside (p >>= f) := by
  induction p with
  | ret a => exact hf a
  | call op k ih =>
    obtain ⟨hop, hrest⟩ := (only_call ..).mp hp
    exact .inr ⟨hop, fun r => ih r (hrest r)⟩

end Shield

namespace Clients

variable [DecidableEq T] (S : Clients I C α σ μ)

/-- Steps during which client `t` stays in its call of `c`, each of them in `Ok`. -/
def During (t : T) (c : C) (Ok : Crowd I C α σ μ T → Crowd I C α σ μ T → Prop) :
    Crowd I C α σ μ T → Crowd I C α σ μ T → Prop :=
  Relation.ReflTransGen fun s s' => S.Step s s' ∧ Ok s s' ∧ ∃ u, s'.running t = some u ∧ u.call = c

variable {S}

theorem During.steps {t : T} {c : C} {Ok : Crowd I C α σ μ T → Crowd I C α σ μ T → Prop}
    {s s' : Crowd I C α σ μ T} (h : S.During t c Ok s s') : S.Steps s s' :=
  Relation.ReflTransGen.mono (fun _ _ hstep => hstep.1) _ _ h

theorem During.mono {t : T} {c : C} {Ok Ok' : Crowd I C α σ μ T → Crowd I C α σ μ T → Prop}
    {s s' : Crowd I C α σ μ T} (h : S.During t c Ok s s') (hle : ∀ s s', Ok s s' → Ok' s s') :
    S.During t c Ok' s s' :=
  Relation.ReflTransGen.mono (fun s s' hstep => ⟨hstep.1, hle s s' hstep.2.1, hstep.2.2⟩) _ _ h

/-- A part of a call of client `t`, run in one piece while client `d` stays in its call. -/
theorem During.reaches {P : σ → σ → Prop} {p q : Program I α} {y x : σ × μ} {es : List (Event I)}
    (hreach : Reaches (fun op y r y' => S.handler op y r y' ∧ P y.1 y'.1) p y es q x)
    {s : Crowd I C α σ μ T} {t d : T} {c c₀ : C} {tr : List (Event I)} (hshared : s.shared = y.1)
    (hcall : s.running t = some ⟨c, tr, p, y.2⟩)
    (hstays : ∀ z u, u.call = c → ∃ v, (s.update z t (some u) []).running d = some v ∧
      v.call = c₀) :
    S.During d c₀ (fun s s' => P s.shared s'.shared) s
      (s.update x.1 t (some ⟨c, tr ++ es, q, x.2⟩) []) := by
  induction hreach generalizing s tr with
  | start p y =>
    have hsame : s.update y.1 t (some ⟨c, tr ++ [], p, y.2⟩) [] = s := by
      rw [List.append_nil, ← hcall, ← hshared]
      simp [Crowd.update]
    rw [hsame]
    exact .refl
  | @step op k y y' x r es q hop _ ih =>
    have hnext : S.Step s (s.update y'.1 t (some ⟨c, tr ++ [⟨op, r⟩], k r, y'.2⟩) []) :=
      .perform hcall (by rw [hshared]; exact hop.1)
    have hupdate (z : σ) (u v : Option (Running I C α μ)) :
        (s.update y'.1 t u []).update z t v [] = s.update z t v [] := by
      simp [Crowd.update]
    have hcall' : (s.update y'.1 t (some ⟨c, tr ++ [⟨op, r⟩], k r, y'.2⟩) []).running t =
        some ⟨c, tr ++ [⟨op, r⟩], k r, y'.2⟩ := by simp [Crowd.update]
    have hrest := ih rfl hcall' fun z u hu => by rw [hupdate]; exact hstays z u hu
    rw [hupdate, List.append_assoc] at hrest
    have hkept : P s.shared y'.1 := by
      rw [hshared]
      exact hop.2
    exact .head ⟨hnext, hkept, hstays _ _ rfl⟩ hrest

end Clients

/-- No write from outside disturbs client `t` inside its region. -/
def Shield.Undisturbed {h : Handler I (σ × μ)} (R : Shield h) (t : T)
    (s s' : Crowd I C α σ μ T) : Prop :=
  ∀ u, s.running t = some u → R.Entered u.trace → R.Still s.shared s'.shared

section
variable {S : Clients I C α σ μ} {R : Shield S.handler}

def PlaceInv (R : Shield S.handler) (shared : σ) : Place → Option (Running I C α μ) → Prop
  | .outside, none => True
  | .outside, some u => R.Outside True u.rest
  | .inside, some u => u.trace ≠ [] ∧ R.Inside u.rest ∧ R.Locked shared
  | .left, some u => ∃ a, u.rest = .ret a
  | _, none => False

theorem placeInv_other {shared shared' : σ} {pl : Place} {u : Option (Running I C α μ)}
    (h : PlaceInv R shared pl u) (hlocked : pl = .inside → R.Locked shared') :
    PlaceInv R shared' pl u := by
  cases pl with
  | outside | left => cases u <;> exact h
  | inside =>
    cases u with
    | none => exact h
    | some u => exact ⟨h.1, h.2.1, hlocked rfl⟩

/-- At most one client is inside the region, which is then locked. -/
structure Disciplined (R : Shield S.handler) (s : Crowd I C α σ μ T)
    (place : T → Place) : Prop where
  fixed : R.Fixed s.shared
  call t : PlaceInv R s.shared (place t) (s.running t)
  one t t' : place t = .inside → place t' = .inside → t = t'

theorem Disciplined.initial {x₀ : σ} (hfixed : R.Fixed x₀) :
    Disciplined (T := T) R (.initial x₀) fun _ => .outside where
  fixed := hfixed
  call _ := trivial
  one _ _ h := by cases h

/-- From where to where an operation takes its caller. -/
inductive Move (R : Shield S.handler) (op : I.Op) (x x' : σ) : Place → Place → Prop
  | own (hop : R.own op) (hx : x' = x) : Move R op x x' .outside .outside
  | poke (hop : R.poke op) (hlocked : R.Locked x → R.Locked x')
      (hstill : R.Still x x' → x' = x) : Move R op x x' .outside .outside
  | enter (hop : R.enter op) (hfree : ¬ R.Locked x) : Move R op x x' .outside .inside
  | body (hop : R.body op) : Move R op x x' .inside .inside
  | leave (hop : R.leave op) : Move R op x x' .inside .left

variable {s s' : Crowd I C α σ μ T} {place : T → Place} {t t' : T}

theorem Disciplined.locked (h : Disciplined R s place) (ht : place t = .inside) :
    R.Locked s.shared := by
  have hcall := h.call t
  rw [ht] at hcall
  cases hrun : s.running t with
  | none =>
    rw [hrun] at hcall
    exact hcall.elim
  | some u =>
    rw [hrun] at hcall
    exact hcall.2.2

/-- While a client is inside, an undisturbing operation of another one changes nothing. -/
theorem Move.unnoticed {op : I.Op} {x' : σ} {q : Place} (hmove : Move R op s.shared x' (place t) q)
    (h : Disciplined R s place) (ht : t' ≠ t) (hin : place t' = .inside)
    (hstill : R.Still s.shared x') :
    x' = s.shared := by
  generalize hplace : place t = pl at hmove
  cases hmove with
  | own _ hx => exact hx
  | poke _ _ hsame => exact hsame hstill
  | enter _ hfree => exact absurd (h.locked hin) hfree
  | body | leave => exact absurd (h.one t' t hin hplace) ht

/-- Another client inside stays alone, in a locked region. -/
theorem Move.others {op : I.Op} {x' : σ} {q : Place} (hmove : Move R op s.shared x' (place t) q)
    (h : Disciplined R s place) (ht : t' ≠ t) (hin : place t' = .inside) :
    q ≠ .inside ∧ R.Locked x' := by
  have hlocked := h.locked hin
  generalize hplace : place t = pl at hmove
  cases hmove with
  | own _ hx => exact ⟨by simp, hx ▸ hlocked⟩
  | poke _ hkept _ => exact ⟨by simp, hkept hlocked⟩
  | enter _ hfree => exact absurd hlocked hfree
  | body | leave => exact absurd (h.one t' t hin hplace) ht

variable [DecidableEq T]

namespace Disciplined

/-- A step of client `t` that leaves the region locked if another client is inside. -/
theorem update (h : Disciplined R s place) {x : σ} {t : T} {q : Place}
    {u : Option (Running I C α μ)} {records : List (Record I C α)} (hfixed : R.Fixed x)
    (hcall : PlaceInv R x q u)
    (hothers : ∀ t', t' ≠ t → place t' = .inside → q ≠ .inside ∧ R.Locked x) :
    Disciplined R (s.update x t u records) (Function.update place t q) where
  fixed := hfixed
  call t' := by
    by_cases ht : t' = t
    · subst ht
      simpa [Crowd.update] using hcall
    · simp only [Crowd.update, Function.update_of_ne ht]
      exact placeInv_other (h.call t') fun hin => (hothers t' ht hin).2
  one t₁ t₂ h₁ h₂ := by
    by_cases ht₁ : t₁ = t <;> by_cases ht₂ : t₂ = t
    · exact ht₁.trans ht₂.symm
    · rw [Function.update_of_ne ht₂] at h₂
      subst ht₁
      rw [Function.update_self] at h₁
      exact absurd h₁ (hothers t₂ ht₂ h₂).1
    · rw [Function.update_of_ne ht₁] at h₁
      subst ht₂
      rw [Function.update_self] at h₂
      exact absurd h₂ (hothers t₁ ht₁ h₁).1
    · rw [Function.update_of_ne ht₁] at h₁
      rw [Function.update_of_ne ht₂] at h₂
      exact h.one t₁ t₂ h₁ h₂

omit [DecidableEq T] in
/-- Every operation is one of the region or one outside of it. -/
theorem kind (h : Disciplined R s place) {c : C} {tr : List (Event I)} {op : I.Op}
    {k : I.Res op → Program I α} {m : μ} (hcall : s.running t = some ⟨c, tr, .call op k, m⟩) :
    R.own op ∨ R.poke op ∨ R.enter op ∨ R.body op ∨ R.leave op := by
  have hplace := h.call t
  rw [hcall] at hplace
  cases hpl : place t with
  | left =>
    rw [hpl] at hplace
    obtain ⟨a, ha⟩ := hplace
    cases ha
  | outside =>
    rw [hpl] at hplace
    rcases hplace with ⟨henter, -⟩ | ⟨hown, -⟩ | ⟨-, hpoke, -⟩
    · exact .inr (.inr (.inl henter))
    · exact .inl hown
    · exact .inr (.inl hpoke)
  | inside =>
    rw [hpl] at hplace
    rcases hplace.2.1 with ⟨hleave, -⟩ | ⟨hbody, -⟩
    · exact .inr (.inr (.inr (.inr hleave)))
    · exact .inr (.inr (.inr (.inl hbody)))

/-- An operation moves its caller, and the others stay where they are. -/
theorem perform (h : Disciplined R s place) {c : C} {tr : List (Event I)} {op : I.Op}
    {k : I.Res op → Program I α} {m m' : μ} {r : I.Res op} {x : σ}
    (hcall : s.running t = some ⟨c, tr, .call op k, m⟩)
    (hop : S.handler op (s.shared, m) r (x, m')) :
    ∃ q, Move R op s.shared x (place t) q ∧
      Disciplined R (s.update x t (some ⟨c, tr ++ [⟨op, r⟩], k r, m'⟩) [])
        (Function.update place t q) := by
  have hplace := h.call t
  rw [hcall] at hplace
  have hmoved {q : Place} (hmove : Move R op s.shared x (place t) q)
      (hrest : PlaceInv R x q (some ⟨c, tr ++ [⟨op, r⟩], k r, m'⟩)) :
      ∃ q, Move R op s.shared x (place t) q ∧
        Disciplined R (s.update x t (some ⟨c, tr ++ [⟨op, r⟩], k r, m'⟩) [])
          (Function.update place t q) :=
    ⟨q, hmove, h.update (R.fixed (h.kind hcall) hop h.fixed) hrest fun _ ht hin =>
      hmove.others h ht hin⟩
  cases hpl : place t with
  | left =>
    rw [hpl] at hplace
    obtain ⟨a, ha⟩ := hplace
    cases ha
  | outside =>
    rw [hpl] at hplace hmoved
    rcases hplace with ⟨henter, hrest⟩ | ⟨hown, hrest⟩ | ⟨-, hpoke, hrest⟩
    · obtain ⟨hfree, hlocked⟩ := R.enter_free henter hop
      exact hmoved (.enter henter hfree) ⟨by simp, hrest r, hlocked⟩
    · obtain ⟨hx, hanswer, -⟩ := R.own_local hown hop h.fixed
      exact hmoved (.own hown hx) (hrest r hanswer).1
    · exact hmoved (.poke hpoke (R.poke_locked hpoke hop) (R.poke_still hpoke hop)) (hrest r)
  | inside =>
    rw [hpl] at hplace hmoved
    obtain ⟨-, ⟨hleave, hrest⟩ | ⟨hbody, hrest⟩, hlocked⟩ := hplace
    · exact hmoved (.leave hleave) (hrest r)
    · exact hmoved (.body hbody) ⟨by simp, hrest r, R.body_locked hbody hop hlocked⟩

theorem step (hallowed : ∀ c, S.allowed c → R.Outside True (S.program c))
    (h : Disciplined R s place) (hs : S.Step s s') : ∃ place', Disciplined R s' place' := by
  cases hs with
  | start c hidle hc =>
    exact ⟨_, h.update (q := .outside) h.fixed (hallowed c hc) fun t' _ hin =>
      ⟨by simp, h.locked hin⟩⟩
  | perform hcall hop =>
    obtain ⟨q, -, hnext⟩ := h.perform hcall hop
    exact ⟨_, hnext⟩
  | finish hret =>
    exact ⟨_, h.update (q := .outside) h.fixed trivial fun t' _ hin => ⟨by simp, h.locked hin⟩⟩

theorem steps (hallowed : ∀ c, S.allowed c → R.Outside True (S.program c)) {x₀ : σ}
    (hfixed : R.Fixed x₀) (hs : S.Steps (.initial x₀) s) : ∃ place, Disciplined R s place := by
  induction hs with
  | refl => exact ⟨_, initial hfixed⟩
  | tail _ hlast ih =>
    obtain ⟨place, h⟩ := ih
    exact h.step hallowed hlast

end Disciplined

/-- What all operations of the calls keep holds at all times. -/
theorem Shield.keeps {P : σ → Prop} (hallowed : ∀ c, S.allowed c → R.Outside True (S.program c))
    (hkeep : ∀ {op x m r x' m'}, R.own op ∨ R.poke op ∨ R.enter op ∨ R.body op ∨ R.leave op →
      S.handler op (x, m) r (x', m') → P x → P x') {x₀ : σ} (hfixed : R.Fixed x₀) (hx : P x₀)
    (hs : S.Steps (.initial x₀) s) : P s.shared := by
  induction hs with
  | refl => exact hx
  | tail hbefore hlast ih =>
    obtain ⟨place, h⟩ := Disciplined.steps hallowed hfixed hbefore
    cases hlast with
    | start => exact ih
    | perform hcall hop => exact hkeep (h.kind hcall) hop ih
    | finish => exact ih

/-- Client `t` has been in its call of `c` since `s₁`. Before it enters the region it would have
come as far from any state with the same fixed part; inside, it has come as far from the state `s'`
in which it entered; and once it has left, its result is that of the whole call, run from `s'` to
`s''`. -/
def ShieldInv (R : Shield S.handler) (t : T) (c : C) (s₁ s : Crowd I C α σ μ T) :
    Place → Running I C α μ → Prop
  | .outside, u => R.Outside False u.rest ∧ (∀ e ∈ u.trace, ¬ R.leave e.op) ∧ ∀ y, R.Fixed y →
      ∃ tr, Reaches S.handler (S.program c) (y, S.memory c) tr u.rest (y, u.memory)
  | .inside, u => R.Entered u.trace ∧ ∃ s', S.During t c (R.Undisturbed t) s₁ s' ∧
      S.During t c (R.Undisturbed t) s' s ∧
      ∃ tr, Reaches S.handler (S.program c) (s'.shared, S.memory c) tr u.rest (s.shared, u.memory)
  | .left, u =>
      ∃ s' s'' a, S.During t c (R.Undisturbed t) s₁ s' ∧ S.During t c (R.Undisturbed t) s' s'' ∧
      S.During t c (R.Undisturbed t) s'' s ∧ u.rest = .ret a ∧
      ∃ tr, (S.program c).Run S.handler (s'.shared, S.memory c) tr a (s''.shared, u.memory)

section
variable {c : C} {s₁ : Crowd I C α σ μ T} {u : Running I C α μ} {pl : Place}

theorem ShieldInv.other (h : ShieldInv R t c s₁ s pl u)
    (hstep : S.During t c (R.Undisturbed t) s s') (hsame : pl = .inside → s'.shared = s.shared) :
    ShieldInv R t c s₁ s' pl u := by
  cases pl with
  | outside => exact h
  | inside =>
    obtain ⟨hentered, s₀, hbefore, hsince, hreach⟩ := h
    rw [← hsame rfl] at hreach
    exact ⟨hentered, s₀, hbefore, hsince.trans hstep, hreach⟩
  | left =>
    obtain ⟨s₀, s₀', a, hbefore, hin, hsince, hrest⟩ := h
    exact ⟨s₀, s₀', a, hbefore, hin, hsince.trans hstep, hrest⟩

theorem ShieldInv.own {tr : List (Event I)} {op : I.Op} {k : I.Res op → Program I α} {m m' : μ}
    {r : I.Res op} {x : σ} {q : Place} (h : ShieldInv R t c s₁ s pl ⟨c, tr, .call op k, m⟩)
    (hdiscipline : Disciplined R s place) (hplace : place t = pl)
    (hcall : s.running t = some ⟨c, tr, .call op k, m⟩) (hop : S.handler op (s.shared, m) r (x, m'))
    (hmove : Move R op s.shared x pl q) (hfirst : S.During t c (R.Undisturbed t) s₁ s)
    (hnow : S.During t c (R.Undisturbed t) s
      (s.update x t (some ⟨c, tr ++ [⟨op, r⟩], k r, m'⟩) [])) :
    ShieldInv R t c s₁ (s.update x t (some ⟨c, tr ++ [⟨op, r⟩], k r, m'⟩) []) q
      ⟨c, tr ++ [⟨op, r⟩], k r, m'⟩ := by
  have happend {op' : I.Op} {r' : I.Res op'} (hlast : ¬ R.leave op') {l : List (Event I)}
      (hl : ∀ e ∈ l, ¬ R.leave e.op) : ∀ e ∈ l ++ [⟨op', r'⟩], ¬ R.leave e.op := by
    intro e he
    rcases List.mem_append.mp he with he | he
    · exact hl e he
    · rw [List.mem_singleton.mp he]
      exact hlast
  cases hmove with
  | own hown hx =>
    obtain ⟨hcalm, hnone, hreach⟩ := h
    rcases hcalm with ⟨henter, -⟩ | ⟨-, hrest⟩ | ⟨hfalse, -⟩
    · obtain ⟨hfree, hlocked⟩ := R.enter_free henter hop
      exact absurd (hx ▸ hlocked) hfree
    · obtain ⟨-, hanswer, hlocal⟩ := R.own_local hown hop hdiscipline.fixed
      refine ⟨(hrest r hanswer).1, happend (R.leave_last (.inl hown)) hnone, fun y hy => ?_⟩
      obtain ⟨r', hsame, hstep⟩ := hlocal y hy
      obtain ⟨tr', hprefix⟩ := hreach y hy
      have hnext := hprefix.snoc hstep
      rw [(hrest r hanswer).2 r' hsame] at hnext
      exact ⟨_, hnext⟩
    · exact hfalse.elim
  | poke hpoke =>
    obtain ⟨hown, henter⟩ := R.poke_apart hpoke
    rcases h.1 with ⟨h, -⟩ | ⟨h, -⟩ | ⟨hfalse, -⟩
    · exact absurd h henter
    · exact absurd h hown
    · exact hfalse.elim
  | enter henter hfree =>
    obtain ⟨-, hnone, hreach⟩ := h
    obtain ⟨tr', hprefix⟩ := hreach s.shared hdiscipline.fixed
    refine ⟨⟨⟨⟨op, r⟩, by simp, henter⟩, happend (R.leave_last (.inr (.inl henter))) hnone⟩, s,
      hfirst, hnow, ?_⟩
    exact ⟨_, hprefix.snoc hop⟩
  | body hbody =>
    obtain ⟨⟨⟨e, he, henter⟩, hnone⟩, s₀, hbefore, hsince, tr', hreach⟩ := h
    refine ⟨⟨⟨e, List.mem_append_left _ he, henter⟩,
      happend (R.leave_last (.inr (.inr hbody))) hnone⟩, s₀, hbefore, hsince.trans hnow, ?_⟩
    exact ⟨_, hreach.snoc hop⟩
  | leave hleave =>
    obtain ⟨-, s₀, hbefore, hsince, tr', hreach⟩ := h
    have hinside := hdiscipline.call t
    rw [hplace, hcall] at hinside
    obtain ⟨-, ⟨-, hrest⟩ | ⟨hbody, -⟩, -⟩ := hinside
    · obtain ⟨a, ha⟩ := hrest r
      have hend := hreach.snoc hop
      rw [ha] at hend
      exact ⟨s₀, _, a, hbefore, hsince.trans hnow, .refl, ha, _, hend.run⟩
    · exact absurd hleave (R.leave_last (.inr (.inr hbody)))

/-- During the call every undisturbing step of any client keeps what is known of it. -/
theorem ShieldInv.step {v : Running I C α μ} (hdiscipline : Disciplined R s place)
    (hallowed : ∀ c, S.allowed c → R.Outside True (S.program c)) (hu : s.running t = some u)
    (huc : u.call = c)
    (h : ShieldInv R t c s₁ s (place t) u) (hfirst : S.During t c (R.Undisturbed t) s₁ s)
    (hs : S.Step s s')
    (hok : R.Undisturbed t s s') (hv : s'.running t = some v) (hvc : v.call = c) :
    ∃ place', Disciplined R s' place' ∧ ShieldInv R t c s₁ s' (place' t) v := by
  have hnow : S.During t c (R.Undisturbed t) s s' := .single ⟨hs, hok, v, hv, hvc⟩
  -- a step of another client
  have hother {t' : T} {q : Place} {x : σ} {w : Option (Running I C α μ)}
    {records : List (Record I C α)}
      (ht : t ≠ t') (hs' : s' = s.update x t' w records)
      (hd : Disciplined R s' (Function.update place t' q)) (hsame : place t = .inside →
        x = s.shared) :
      ∃ place', Disciplined R s' place' ∧ ShieldInv R t c s₁ s' (place' t) v := by
    refine ⟨_, hd, ?_⟩
    have hsameu : v = u := by
      rw [hs'] at hv
      simpa [Crowd.update, Function.update_of_ne ht, hu] using hv.symm
    rw [Function.update_of_ne ht, hsameu]
    exact h.other hnow fun hin => by rw [hs']; exact hsame hin
  cases hs with
  | @start t' d hidle hd =>
    have ht : t ≠ t' := by
      rintro rfl
      simp [hu] at hidle
    exact hother ht rfl (hdiscipline.update (q := .outside) hdiscipline.fixed (hallowed d hd)
      fun _ _ hin => ⟨by simp, hdiscipline.locked hin⟩) fun _ => rfl
  | @finish t' d tr a m hret =>
    have ht : t ≠ t' := by
      rintro rfl
      simp [Crowd.update] at hv
    exact hother ht rfl (hdiscipline.update (q := .outside) hdiscipline.fixed trivial
      fun _ _ hin => ⟨by simp, hdiscipline.locked hin⟩) fun _ => rfl
  | @perform t' d tr op k m m' r x hcall hop =>
    obtain ⟨q, hmove, hd⟩ := hdiscipline.perform hcall hop
    by_cases ht : t = t'
    · subst ht
      obtain rfl : u = ⟨d, tr, .call op k, m⟩ := by
        rw [hcall] at hu; exact (Option.some.inj hu).symm
      obtain rfl : d = c := huc
      refine ⟨_, hd, ?_⟩
      obtain rfl : v = ⟨d, tr ++ [⟨op, r⟩], k r, m'⟩ := by
        simpa [Crowd.update] using hv.symm
      rw [Function.update_self]
      exact h.own hdiscipline rfl hcall hop hmove hfirst hnow
    · refine hother ht rfl hd fun hin => hmove.unnoticed hdiscipline ht hin ?_
      have hentered : R.Entered u.trace := by
        rw [hin] at h
        exact h.1
      exact hok u hu hentered

/-- A call that no write from outside disturbs inside its region has the result, and leaves the
shared state and its own memory, as the whole call in one piece from a state `s'` between its start
and its end. -/
theorem shielded (hallowed : ∀ c, S.allowed c → R.Outside True (S.program c)) {x₀ : σ}
    (hfixed : R.Fixed x₀) (hs₁ : S.Steps (.initial x₀) s₁) (hcalm : R.Outside False (S.program c))
    (hstart : s₁.running t = some ⟨c, [], S.program c, S.memory c⟩)
    (hduring : S.During t c (R.Undisturbed t) s₁ s) {tr : List (Event I)} {a : α} {m : μ}
    (hret : s.running t = some ⟨c, tr, .ret a, m⟩) :
    ∃ s' s'', S.During t c (R.Undisturbed t) s₁ s' ∧ S.During t c (R.Undisturbed t) s' s'' ∧
      S.During t c (R.Undisturbed t) s'' s ∧
      ∃ tr, (S.program c).Run S.handler (s'.shared, S.memory c) tr a (s''.shared, m) := by
  have hinv : ∃ place u, Disciplined R s place ∧ s.running t = some u ∧ u.call = c ∧
      ShieldInv R t c s₁ s (place t) u := by
    clear hret
    induction hduring with
    | refl =>
      obtain ⟨place, hdiscipline⟩ := Disciplined.steps hallowed hfixed hs₁
      refine ⟨place, _, hdiscipline, hstart, rfl, ?_⟩
      have hcall := hdiscipline.call t
      rw [hstart] at hcall
      cases hplace : place t with
      | outside => exact ⟨hcalm, by simp, fun y _ => ⟨[], .start ..⟩⟩
      | inside =>
        rw [hplace] at hcall
        exact absurd rfl hcall.1
      | left =>
        rw [hplace] at hcall
        obtain ⟨b, hb⟩ : ∃ b, S.program c = .ret b := hcall
        have hrun :
            (S.program c).Run S.handler (s₁.shared, S.memory c) [] b (s₁.shared, S.memory c) := by
          rw [hb]
          exact ⟨rfl, rfl, rfl⟩
        exact ⟨s₁, s₁, b, .refl, .refl, .refl, hb, [], hrun⟩
    | tail hbefore hlast ih =>
      obtain ⟨place, u, hdiscipline, hu, huc, h⟩ := ih
      obtain ⟨hs, hok, v, hv, hvc⟩ := hlast
      obtain ⟨place', hd, hnext⟩ := h.step hdiscipline hallowed hu huc hbefore hs hok hv hvc
      exact ⟨place', v, hd, hv, hvc, hnext⟩
  obtain ⟨place, u, hdiscipline, hu, huc, h⟩ := hinv
  obtain rfl : u = ⟨c, tr, .ret a, m⟩ := Option.some.inj (hu.symm.trans hret)
  cases hplace : place t with
  | outside =>
    rw [hplace] at h
    obtain ⟨tr', hreach⟩ := h.2.2 s.shared hdiscipline.fixed
    exact ⟨s, s, hduring, .refl, .refl, tr', hreach.run⟩
  | inside =>
    rw [hplace] at h
    obtain ⟨-, s', hbefore, hsince, tr', hreach⟩ := h
    exact ⟨s', s, hbefore, hsince, .refl, tr', hreach.run⟩
  | left =>
    rw [hplace] at h
    obtain ⟨s', s'', a', hbefore, hin, hsince, ha, tr', hrun⟩ := h
    cases ha
    exact ⟨s', s'', hbefore, hin, hsince, tr', hrun⟩

end
end
end Upciedev.Foundations
