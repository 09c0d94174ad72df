import Upciedev.Foundations.Shield

/-!
# Linear order of shielded calls

Calls that write the shared state inside their region only. At every moment of every interleaving
the calls that have returned, and some of those that are about to, have run one at a time, and later
moments only append to that order: a call that returns before another one starts comes before it.
-/
namespace Upciedev.Foundations

open Program

variable {I : Interface} {C α σ μ T : Type}

section
variable {h : Handler I (σ × μ)} (R : Shield h)

/-- Two events alike up to what an operation outside the region leaves open. -/
inductive Shield.SameEvent : Event I → Event I → Prop
  | refl (e : Event I) : SameEvent e e
  | own {op : I.Op} {r r' : I.Res op} (hop : R.own op) (hsame : R.Same op r r') :
      SameEvent ⟨op, r⟩ ⟨op, r'⟩

def Shield.SameTrace (tr tr' : List (Event I)) : Prop := List.Forall₂ R.SameEvent tr tr'

structure Shield.SameRecord (d d' : Record I C α) : Prop where
  call : d'.call = d.call
  trace : R.SameTrace d.trace d'.trace
  result : d'.result = d.result

variable {R}

theorem Shield.SameTrace.snoc {tr tr' : List (Event I)} {e e' : Event I} (h : R.SameTrace tr tr')
    (he : R.SameEvent e e') : R.SameTrace (tr ++ [e]) (tr' ++ [e']) :=
  List.rel_append h (.cons he .nil)

end

section
variable [DecidableEq T] (S : Clients I C α σ μ) (R : Shield S.handler)

/-- The order `l` accounts for the whole execution so far: every call that has returned is in it, in
the order of its client, with at most the call that the client is about to return from. -/
structure Explains (x₀ : σ) (s : Crowd I C α σ μ T) (l : List (T × Record I C α)) : Prop where
  serial : ∃ x, S.Serial x₀ l x ∧ ((∀ t, s.running t = none) → s.shared = x)
  order t :
    ∃ late, (late = [] ∨ ∃ u a, s.running t = some u ∧ u.rest = .ret a ∧
      late = [⟨u.call, u.trace, a⟩]) ∧
    List.Forall₂ R.SameRecord (s.done t ++ late) (ownOrder l t)

variable {S R}

/-- The call has come so far, up to what `Same` leaves open: before its region from any state with
the same fixed part, and inside from the state at the end of the order. -/
def LinearCall (R : Shield S.handler) (x shared : σ) : Place → Option (Running I C α μ) → Prop
  | .outside, some u => R.Outside False u.rest ∧ ∀ y, R.Fixed y → ∃ tr, R.SameTrace u.trace tr ∧
      Reaches S.handler (S.program u.call) (y, S.memory u.call) tr u.rest (y, u.memory)
  | .inside, some u => ∃ tr, R.SameTrace u.trace tr ∧
      Reaches S.handler (S.program u.call) (x, S.memory u.call) tr u.rest (shared, u.memory)
  | _, _ => True

/-- The order `l` has come to `x`, in which the invariant `P` of whole calls holds; only the client
inside the region has gone on from there. -/
structure LinearInv (R : Shield S.handler) (P : σ → Prop) (x₀ : σ) (s : Crowd I C α σ μ T)
    (l : List (T × Record I C α)) (x : σ) (place : T → Place) : Prop where
  disciplined : Disciplined R s place
  allowed t u : s.running t = some u → S.allowed u.call
  serial : S.Serial x₀ l x
  fixed : R.Fixed x
  whole : P x
  order t : List.Forall₂ R.SameRecord (s.done t ++ pending (place t) (s.running t)) (ownOrder l t)
  call t : LinearCall R x s.shared (place t) (s.running t)
  nobody : (∀ t, place t ≠ .inside) → s.shared = x

def Clients.Whole (S : Clients I C α σ μ) (R : Shield S.handler) (P : σ → Prop) : Prop :=
  ∀ c y tr a z m, S.allowed c → R.Fixed y → P y →
    (S.program c).Run S.handler (y, S.memory c) tr a (z, m) → P z

omit [DecidableEq T] in
theorem linearCall_other {x x' shared shared' : σ} {pl : Place} {u : Option (Running I C α μ)}
    (h : LinearCall R x shared pl u) (hinside : pl = .inside → x' = x ∧ shared' = shared) :
    LinearCall R x' shared' pl u := by
  cases pl with
  | outside | left => cases u <;> exact h
  | inside =>
    obtain ⟨rfl, rfl⟩ := hinside rfl
    exact h

namespace LinearInv

variable {P : σ → Prop} {x₀ x : σ} {s s' : Crowd I C α σ μ T} {l : List (T × Record I C α)}
  {place : T → Place}

theorem initial (hfixed : R.Fixed x₀) (hP : P x₀) :
    LinearInv (T := T) R P x₀ (.initial x₀) [] x₀ fun _ => .outside where
  disciplined := .initial hfixed
  allowed _ _ h := by cases h
  serial := .nil x₀
  fixed := hfixed
  whole := hP
  order _ := .nil
  call _ := trivial
  nobody _ := rfl

/-- The shared state is the end of the order also if only others are looked at. -/
theorem nobody_else (h : LinearInv R P x₀ s l x place) {t : T} (ht : place t ≠ .inside)
    (hothers : ∀ t', t' ≠ t → place t' ≠ .inside) : s.shared = x := by
  apply h.nobody
  intro t'
  by_cases heq : t' = t
  · rwa [heq]
  · exact hothers t' heq

/-- A step of client `t`, which another client inside the region does not notice. -/
theorem update (h : LinearInv R P x₀ s l x place) {t : T} {x' z : σ} {l' : List (T × Record I C α)}
    {q : Place} {u : Option (Running I C α μ)} {records : List (Record I C α)}
    (hd : Disciplined R (s.update z t u records) (Function.update place t q))
    (hallowed : ∀ v, u = some v → S.allowed v.call) (hserial : S.Serial x₀ l' x')
    (hfixed : R.Fixed x') (hwhole : P x')
    (hown : List.Forall₂ R.SameRecord (s.done t ++ records ++ pending q u) (ownOrder l' t))
    (horder : ∀ t', t' ≠ t → ownOrder l' t' = ownOrder l t') (hcall : LinearCall R x' z q u)
    (hothers : ∀ t', t' ≠ t → place t' = .inside → x' = x ∧ z = s.shared)
    (hnobody : q ≠ .inside → (∀ t', t' ≠ t → place t' ≠ .inside) → z = x') :
    LinearInv R P x₀ (s.update z t u records) l' x' (Function.update place t q) where
  disciplined := hd
  allowed t' v hv := by
    by_cases ht : t' = t
    · subst ht
      exact hallowed v (by simpa [Crowd.update] using hv)
    · simp only [Crowd.update, Function.update_of_ne ht] at hv
      exact h.allowed t' v hv
  serial := hserial
  fixed := hfixed
  whole := hwhole
  order t' := by
    by_cases ht : t' = t
    · subst ht
      simpa [Crowd.update] using hown
    · simp only [Crowd.update, Function.update_of_ne ht, horder t' ht]
      exact h.order t'
  call t' := by
    by_cases ht : t' = t
    · subst ht
      simpa [Crowd.update] using hcall
    · simp only [Crowd.update, Function.update_of_ne ht]
      exact linearCall_other (h.call t') fun hin => hothers t' ht hin
  nobody hnone := by
    refine hnobody ?_ fun t' ht => ?_
    · simpa using hnone t
    · simpa [Function.update_of_ne ht] using hnone t'

/-- A step outside the region that leaves the order as it is. -/
theorem stay (h : LinearInv R P x₀ s l x place) {t : T} {pl q : Place}
    {u v : Option (Running I C α μ)} (hrun : s.running t = u) (hplace : place t = pl)
    (hpl : pl ≠ .inside) (hd : Disciplined R (s.update s.shared t v []) (Function.update place t q))
    (hallowed : ∀ u', v = some u' → S.allowed u'.call) (hpending : pending q v = pending pl u)
    (hcall : LinearCall R x s.shared q v) :
    LinearInv R P x₀ (s.update s.shared t v []) l x (Function.update place t q) := by
  apply h.update hd hallowed h.serial h.fixed h.whole _ (fun _ _ => rfl) hcall
    (fun _ _ _ => ⟨rfl, rfl⟩)
  · exact fun _ => h.nobody_else (by rwa [hplace])
  · rw [List.append_nil, hpending, ← hplace, ← hrun]
    exact h.order t

theorem perform (hP : S.Whole R P) (h : LinearInv R P x₀ s l x place) {t : T} {c : C}
    {tr : List (Event I)} {op : I.Op} {k : I.Res op → Program I α} {m m' : μ} {r : I.Res op} {z : σ}
    (hcall : s.running t = some ⟨c, tr, .call op k, m⟩)
    (hop : S.handler op (s.shared, m) r (z, m')) :
    ∃ l' x' place',
      LinearInv R P x₀ (s.update z t (some ⟨c, tr ++ [⟨op, r⟩], k r, m'⟩) [])
        (l ++ l') x' place' := by
  obtain ⟨q, hmove, hd⟩ := h.disciplined.perform hcall hop
  have hc : S.allowed c := h.allowed t _ hcall
  have hstill (v : Running I C α μ) (hv : some ⟨c, tr ++ [⟨op, r⟩], k r, m'⟩ = some v) :
      S.allowed v.call := by
    obtain rfl := Option.some.inj hv
    exact hc
  have hplaced := h.disciplined.call t
  have hlinear := h.call t
  have horder := h.order t
  rw [hcall] at hplaced hlinear horder
  generalize hplace : place t = pl at hmove hplaced hlinear horder
  cases hmove with
  | own hown hx =>
    subst hx
    obtain ⟨hout, hreach⟩ := hlinear
    rcases hout with ⟨henter, -⟩ | ⟨-, hrest⟩ | ⟨hfalse, -⟩
    · obtain ⟨hfree, hlocked⟩ := R.enter_free henter hop
      exact absurd hlocked hfree
    · obtain ⟨-, hanswer, hlocal⟩ := R.own_local hown hop h.disciplined.fixed
      refine ⟨[], x, Function.update place t .outside, ?_⟩
      rw [List.append_nil]
      refine h.stay hcall hplace (by simp) hd hstill rfl ⟨(hrest r hanswer).1, fun y hy => ?_⟩
      obtain ⟨r', hsame, hstep⟩ := hlocal y hy
      obtain ⟨tr', htrace, hprefix⟩ := hreach y hy
      have hnext := hprefix.snoc hstep
      rw [(hrest r hanswer).2 r' hsame] at hnext
      exact ⟨_, htrace.snoc (.own hown hsame), hnext⟩
    · exact hfalse.elim
  | poke hpoke =>
    obtain ⟨hown, henter⟩ := R.poke_apart hpoke
    rcases hlinear.1 with ⟨hop, -⟩ | ⟨hop, -⟩ | ⟨hfalse, -⟩
    · exact absurd hop henter
    · exact absurd hop hown
    · exact hfalse.elim
  | enter henter hfree =>
    -- the region is free, and the client goes on from the end of the order
    have hnone (t' : T) : place t' ≠ .inside := fun hin => hfree (h.disciplined.locked hin)
    obtain ⟨tr', htrace, hprefix⟩ := hlinear.2 x h.fixed
    rw [h.nobody hnone] at hop
    refine ⟨[], x, Function.update place t .inside, ?_⟩
    rw [List.append_nil]
    apply h.update hd hstill h.serial h.fixed h.whole _ (fun _ _ => rfl) ⟨_, htrace.snoc (.refl _),
      hprefix.snoc hop⟩
      (fun t' _ hin => absurd hin (hnone t')) fun hpl => absurd rfl hpl
    simpa [pending] using horder
  | body hbody =>
    obtain ⟨tr', htrace, hreach⟩ := hlinear
    refine ⟨[], x, Function.update place t .inside, ?_⟩
    rw [List.append_nil]
    apply h.update hd hstill h.serial h.fixed h.whole _ (fun _ _ => rfl) ⟨_, htrace.snoc (.refl _),
      hreach.snoc hop⟩
      (fun t' ht hin => absurd (h.disciplined.one t' t hin hplace) ht) fun hpl => absurd rfl hpl
    simpa [pending] using horder
  | leave hleave =>
    obtain ⟨tr', htrace, hreach⟩ := hlinear
    obtain ⟨-, ⟨-, hrest⟩ | ⟨hbody, -⟩, -⟩ := hplaced
    · obtain ⟨a, ha⟩ := hrest r
      have hend := hreach.snoc hop
      rw [ha] at hend
      refine ⟨[(t, ⟨c, tr' ++ [⟨op, r⟩], a⟩)], z, Function.update place t .left, ?_⟩
      have hwhole := hP _ _ _ _ _ _ hc h.fixed h.whole hend.run
      apply h.update hd hstill (h.serial.snoc hend.run) hd.fixed hwhole
        _ (fun t' ht => ownOrder_snoc_other ht) trivial
        (fun t' ht hin => absurd (h.disciplined.one t' t hin hplace) ht) fun _ _ => rfl
      have hnew : R.SameRecord ⟨c, tr ++ [⟨op, r⟩], a⟩ ⟨c, tr' ++ [⟨op, r⟩], a⟩ :=
        ⟨rfl, htrace.snoc (.refl _), rfl⟩
      rw [ownOrder_snoc_same, ha]
      simp only [pending, List.append_nil] at horder ⊢
      exact List.rel_append horder (.cons hnew .nil)
    · exact absurd hleave (R.leave_last (.inr (.inr hbody)))

theorem finish (hP : S.Whole R P) (h : LinearInv R P x₀ s l x place) {t : T} {c : C}
    {tr : List (Event I)} {a : α} {m : μ} (hret : s.running t = some ⟨c, tr, .ret a, m⟩) :
    ∃ l' x' place',
      LinearInv R P x₀ (s.update s.shared t none [⟨c, tr, a⟩]) (l ++ l') x' place' := by
  have hd :
      Disciplined R (s.update s.shared t none [⟨c, tr, a⟩]) (Function.update place t .outside) :=
    h.disciplined.update h.disciplined.fixed trivial fun t' (_ : t' ≠ t) hin =>
      ⟨by simp, h.disciplined.locked hin⟩
  have hnone (v : Running I C α μ) (hv : none = some v) : S.allowed v.call := by cases hv
  have hlinear := h.call t
  have horder := h.order t
  rw [hret] at hlinear horder
  have hjoin {tr' : List (Event I)} (htrace : R.SameTrace tr tr') :
      R.SameRecord (C := C) ⟨c, tr, a⟩ ⟨c, tr', a⟩ := ⟨rfl, htrace, rfl⟩
  cases hplace : place t with
  | outside =>
    rw [hplace] at hlinear horder
    obtain ⟨tr', htrace, hreach⟩ := hlinear.2 x h.fixed
    refine ⟨[(t, ⟨c, tr', a⟩)], x, Function.update place t .outside, ?_⟩
    apply h.update hd hnone (h.serial.snoc hreach.run) h.fixed h.whole
      _ (fun t' ht => ownOrder_snoc_other ht) trivial
      (fun _ _ _ => ⟨rfl, rfl⟩) fun _ => h.nobody_else (by simp [hplace])
    rw [ownOrder_snoc_same]
    simp only [pending, List.append_nil] at horder ⊢
    exact List.rel_append horder (.cons (hjoin htrace) .nil)
  | inside =>
    rw [hplace] at hlinear horder
    obtain ⟨tr', htrace, hreach⟩ := hlinear
    refine ⟨[(t, ⟨c, tr', a⟩)], s.shared, Function.update place t .outside, ?_⟩
    have hwhole := hP _ _ _ _ _ _ (h.allowed t _ hret) h.fixed h.whole hreach.run
    apply h.update hd hnone (h.serial.snoc hreach.run) h.disciplined.fixed hwhole _
      (fun t' ht => ownOrder_snoc_other ht) trivial
        (fun t' ht hin => absurd (h.disciplined.one t' t hin hplace) ht) fun _ _ => rfl
    rw [ownOrder_snoc_same]
    simp only [pending, List.append_nil] at horder ⊢
    exact List.rel_append horder (.cons (hjoin htrace) .nil)
  | left =>
    rw [hplace] at horder
    refine ⟨[], x, Function.update place t .outside, ?_⟩
    rw [List.append_nil]
    apply h.update hd hnone h.serial h.fixed h.whole _ (fun _ _ => rfl) trivial
      (fun _ _ _ => ⟨rfl, rfl⟩) fun _ => h.nobody_else (by simp [hplace])
    simpa [pending] using horder

/-- One step of any client keeps the invariant and only appends to the order. A call joins the order
when it leaves the region, or when it returns without having left one. -/
theorem step (hallowed : ∀ c, S.allowed c → R.Outside False (S.program c)) (hP : S.Whole R P)
    (h : LinearInv R P x₀ s l x place) (hs : S.Step s s') :
    ∃ l' x' place', LinearInv R P x₀ s' (l ++ l') x' place' := by
  cases hs with
  | @start t c hidle hc =>
    have hplace : place t = .outside := by
      have hplaced := h.disciplined.call t
      rw [hidle] at hplaced
      cases hpl : place t with
      | outside => rfl
      | inside | left =>
        rw [hpl] at hplaced
        exact hplaced.elim
    have hout := hallowed c hc
    have hd : Disciplined R (s.update s.shared t (some ⟨c, [], S.program c, S.memory c⟩) [])
        (Function.update place t .outside) :=
      h.disciplined.update h.disciplined.fixed (hout.mono fun hfalse => hfalse.elim)
        fun t' (_ : t' ≠ t) hin => ⟨by simp, h.disciplined.locked hin⟩
    refine ⟨[], x, Function.update place t .outside, ?_⟩
    rw [List.append_nil]
    refine h.stay hidle hplace (by simp) hd (fun v hv => ?_) rfl ⟨hout, fun y _ =>
      ⟨[], .nil, .start ..⟩⟩
    obtain rfl := Option.some.inj hv
    exact hc
  | perform hcall hop => exact h.perform hP hcall hop
  | finish hret => exact h.finish hP hret

theorem steps (hallowed : ∀ c, S.allowed c → R.Outside False (S.program c)) (hP : S.Whole R P)
    (h : LinearInv R P x₀ s l x place) (hs : S.Steps s s') :
    ∃ l' x' place', LinearInv R P x₀ s' (l ++ l') x' place' := by
  induction hs with
  | refl =>
    refine ⟨[], x, place, ?_⟩
    rwa [List.append_nil]
  | tail _ hlast ih =>
    obtain ⟨l₁, x₁, place₁, hbefore⟩ := ih
    obtain ⟨l₂, x₂, place₂, hafter⟩ := hbefore.step hallowed hP hlast
    refine ⟨l₁ ++ l₂, x₂, place₂, ?_⟩
    rwa [← List.append_assoc]

omit [DecidableEq T] in
theorem pending_late (pl : Place) (u : Option (Running I C α μ)) :
    pending pl u = [] ∨ ∃ v a, u = some v ∧ v.rest = .ret a ∧
      pending pl u = [⟨v.call, v.trace, a⟩] := by
  unfold pending
  split
  · exact .inr ⟨_, _, rfl, rfl, rfl⟩
  · exact .inl rfl

theorem idle (h : LinearInv R P x₀ s l x place) (hidle : ∀ t, s.running t = none) :
    s.shared = x := by
  apply h.nobody
  intro t hin
  have hplaced := h.disciplined.call t
  rw [hidle t, hin] at hplaced
  exact hplaced

theorem explains (h : LinearInv R P x₀ s l x place) : Explains S R x₀ s l where
  serial := ⟨x, h.serial, h.idle⟩
  order t := ⟨_, pending_late .., h.order t⟩

end LinearInv

/-- Whatever the interleaving, there is an order of whole calls, one at a time, that accounts for
any moment of the execution, and it goes on in an order that accounts for any later moment. -/
theorem linearizable (hallowed : ∀ c, S.allowed c → R.Outside False (S.program c)) {x₀ : σ}
    (hfixed : R.Fixed x₀) {s s' : Crowd I C α σ μ T} (hs : S.Steps (.initial x₀) s)
    (hs' : S.Steps s s') :
    ∃ l l', Explains S R x₀ s l ∧ Explains S R x₀ s' (l ++ l') := by
  have hP : S.Whole R fun _ => True := fun _ _ _ _ _ _ _ _ _ _ => trivial
  obtain ⟨l, x, place, h⟩ := (LinearInv.initial hfixed trivial).steps hallowed hP hs
  obtain ⟨l', x', place', h'⟩ := h.steps hallowed hP hs'
  exact ⟨_, l', h.explains, h'.explains⟩

end
end Upciedev.Foundations
