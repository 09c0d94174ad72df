import Mathlib.Logic.Hydra
import Upciedev.Foundations.Linear

/-!
# Progress of shielded calls

If every call that runs alone comes to its end and frees its region, then so do any calls together:
no interleaving blocks, and without new calls all of them end.
-/
namespace Upciedev.Foundations

open Program Relation

variable {I : Interface} {C α σ μ T : Type}

/-- The rest of a program after its first operation. -/
inductive Program.Next : Program I α → Program I α → Prop
  | call (op : I.Op) (k : I.Res op → Program I α) (r : I.Res op) : Next (k r) (.call op k)

theorem Program.next_wf : WellFounded (Next : Program I α → Program I α → Prop) := by
  refine ⟨fun p => ?_⟩
  induction p with
  | ret a =>
    refine ⟨_, fun q hq => ?_⟩
    cases hq
  | call op k ih =>
    refine ⟨_, fun q hq => ?_⟩
    cases hq
    exact ih _

section
variable [DecidableEq T] (S : Clients I C α σ μ)

/-- The steps of the calls that have been made. -/
inductive Clients.Continues : Crowd I C α σ μ T → Crowd I C α σ μ T → Prop
  | perform {s : Crowd I C α σ μ T} {t : T} {c : C} {tr : List (Event I)} {op : I.Op}
      {k : I.Res op → Program I α} {m m' : μ} {r : I.Res op} {x : σ}
      (hcall : s.running t = some ⟨c, tr, .call op k, m⟩)
      (hop : S.handler op (s.shared, m) r (x, m')) :
      Continues s (s.update x t (some ⟨c, tr ++ [⟨op, r⟩], k r, m'⟩) [])
  | finish {s : Crowd I C α σ μ T} {t : T} {c : C} {tr : List (Event I)} {a : α} {m : μ}
      (hret : s.running t = some ⟨c, tr, .ret a, m⟩) :
        Continues s (s.update s.shared t none [⟨c, tr, a⟩])

variable {S}

theorem Clients.Continues.step {s s' : Crowd I C α σ μ T} (h : S.Continues s s') : S.Step s s' := by
  cases h with
  | perform hcall hop => exact .perform hcall hop
  | finish hret => exact .finish hret

theorem Clients.Continues.steps {s s' : Crowd I C α σ μ T} (h : ReflTransGen S.Continues s s') :
    S.Steps s s' :=
  ReflTransGen.mono (fun _ _ => Clients.Continues.step) _ _ h

def Crowd.Within (s : Crowd I C α σ μ T) (U : Finset T) : Prop := ∀ t, t ∉ U → s.running t = none

theorem Crowd.Within.update {s : Crowd I C α σ μ T} {U : Finset T} (h : s.Within U) {x : σ} {t : T}
    (ht : t ∈ U) {u : Option (Running I C α μ)} {records : List (Record I C α)} :
    (s.update x t u records).Within U := by
  intro t' ht'
  have hne : t' ≠ t := by
    rintro rfl
    exact ht' ht
  simpa [Crowd.update, Function.update_of_ne hne] using h t' ht'

theorem Crowd.Within.mem {s : Crowd I C α σ μ T} {U : Finset T} (h : s.Within U) {t : T}
    {u : Running I C α μ} (hrun : s.running t = some u) : t ∈ U := by
  by_contra hnot
  rw [h t hnot] at hrun
  cases hrun

theorem Clients.Steps.within {x₀ : σ} {s : Crowd I C α σ μ T} (hs : S.Steps (.initial x₀) s) :
    ∃ U, s.Within U := by
  induction hs with
  | refl => exact ⟨∅, fun _ _ => rfl⟩
  | tail _ hlast ih =>
    obtain ⟨U, h⟩ := ih
    cases hlast with
    | @start t c =>
      have hlarger : Crowd.Within _ (insert t U) := fun t' ht' => h t' fun hmem =>
        ht' (Finset.mem_insert_of_mem hmem)
      exact ⟨_, hlarger.update (Finset.mem_insert_self t U)⟩
    | perform hcall => exact ⟨U, h.update (h.mem hcall)⟩
    | finish hret => exact ⟨U, h.update (h.mem hret)⟩

def remaining : Option (Running I C α μ) → Multiset (Program I α)
  | none => 0
  | some u => {u.rest}

def Crowd.remaining (s : Crowd I C α σ μ T) (U : Finset T) : Multiset (Program I α) :=
  ∑ t ∈ U, Foundations.remaining (s.running t)

theorem Crowd.remaining_update (s : Crowd I C α σ μ T) {U : Finset T} {t : T} (ht : t ∈ U) {x : σ}
    {u v : Option (Running I C α μ)} (hu : s.running t = u) {records : List (Record I C α)} :
    ∃ others, s.remaining U = others + Foundations.remaining u ∧
      (s.update x t v records).remaining U = others + Foundations.remaining v := by
  refine ⟨∑ t' ∈ U.erase t, Foundations.remaining (s.running t'), ?_, ?_⟩
  · rw [← hu]
    exact (Finset.sum_erase_add U _ ht).symm
  · rw [Crowd.remaining, ← Finset.sum_erase_add U _ ht]
    congr 1
    · apply Finset.sum_congr rfl
      intro t' ht'
      simp [Crowd.update, Function.update_of_ne (Finset.ne_of_mem_erase ht')]
    · simp [Crowd.update]

theorem remaining_decreases {s s' : Crowd I C α σ μ T} {U : Finset T} (h : s.Within U)
    (hs : S.Continues s s') :
    s'.Within U ∧ CutExpand Next (s'.remaining U) (s.remaining U) := by
  cases hs with
  | perform hcall hop =>
    refine ⟨h.update (h.mem hcall), ?_⟩
    obtain ⟨others, hbefore, hafter⟩ := s.remaining_update (h.mem hcall) hcall
    rw [hbefore, hafter]
    exact cutExpand_add_single others (.call ..)
  | @finish t c tr a m hret =>
    refine ⟨h.update (h.mem hret), ?_⟩
    obtain ⟨others, hbefore, hafter⟩ := s.remaining_update (h.mem hret) hret
    rw [hbefore, hafter]
    refine ⟨0, .ret a, by simp, ?_⟩
    simp [Foundations.remaining]

/-- Without new calls there are finitely many steps only, in whatever order. -/
theorem continues_acc {s : Crowd I C α σ μ T} {U : Finset T} (h : s.Within U) :
    Acc (fun s₂ s₁ => S.Continues s₁ s₂) s := by
  generalize hrest : s.remaining U = rest
  induction rest using next_wf.cutExpand.induction generalizing s with
  | _ rest ih =>
    refine ⟨_, fun s' hs => ?_⟩
    obtain ⟨hwithin, hless⟩ := remaining_decreases h hs
    exact ih _ (hrest ▸ hless) hwithin rfl

section
variable {h : Handler I (σ × μ)} {R : Shield h} {A : (op : I.Op) → I.Res op → Prop}
  {G : I.Op → Prop} {P : σ → Prop} {Q : List (Event I) → α → Prop} {p : Program I α} {x : σ} {m : μ}
  (hapart : ∀ op, R.enter op → ¬ R.body op ∧ ¬ R.leave op)
  (hstep : ∀ op x m r x' m', P x → G op → h op (x, m) r (x', m') → A op r ∧ P x')
  (hanswer : ∀ op x m, R.own op ∨ R.enter op ∨ R.body op ∨ R.leave op → G op →
    (R.enter op → ¬ R.Locked x) →
    ∃ r z, h op (x, m) r z)
include hapart hstep hanswer

theorem Shield.Inside.twp (hin : R.Inside p) (hsat : p.Sat A G Q) (hx : P x) :
    p.twp h (x, m) fun _ _ _ => True := by
  induction p generalizing x m Q with
  | ret a => trivial
  | call op k ih =>
    obtain ⟨hop, hrest⟩ := hsat
    have hopen : R.enter op → ¬ R.Locked x := by
      intro henter
      rcases hin with ⟨hleave, -⟩ | ⟨hbody, -⟩
      · exact absurd hleave (hapart op henter).2
      · exact absurd hbody (hapart op henter).1
    rcases hin with ⟨hleave, hend⟩ | ⟨hbody, hin⟩
    · refine ⟨hanswer op x m (.inr (.inr (.inr hleave))) hop hopen, fun r z hz => ?_⟩
      obtain ⟨a, ha⟩ := hend r
      rw [ha]
      trivial
    · refine ⟨hanswer op x m (.inr (.inr (.inl hbody))) hop hopen, ?_⟩
      rintro r ⟨x', m'⟩ hz
      obtain ⟨hr, hx'⟩ := hstep op x m r x' m' hx hop hz
      exact ih r (hin r) (hrest r hr) hx'

theorem Shield.Outside.twp (hout : R.Outside False p) (hsat : p.Sat A G Q) (hx : P x)
    (hfixed : R.Fixed x) (hfree : ¬ R.Locked x) : p.twp h (x, m) fun _ _ _ => True := by
  induction p generalizing m Q with
  | ret a => trivial
  | call op k ih =>
    obtain ⟨hop, hrest⟩ := hsat
    rcases hout with ⟨henter, hin⟩ | ⟨hown, hout⟩ | ⟨hfalse, -⟩
    · refine ⟨hanswer op x m (.inr (.inl henter)) hop fun _ => hfree, ?_⟩
      rintro r ⟨x', m'⟩ hz
      obtain ⟨hr, hx'⟩ := hstep op x m r x' m' hx hop hz
      exact (hin r).twp hapart hstep hanswer (hrest r hr) hx'
    · refine ⟨hanswer op x m (.inl hown) hop fun _ => hfree, ?_⟩
      rintro r ⟨x', m'⟩ hz
      obtain ⟨hr, -⟩ := hstep op x m r x' m' hx hop hz
      obtain ⟨rfl, hown, -⟩ := R.own_local hown hz hfixed
      exact ih r (hout r hown).1 (hrest r hr)
    · exact hfalse.elim

end

/-- Every call that runs alone, with the region free, comes to its end and leaves the region
free. -/
def Clients.Alone (S : Clients I C α σ μ) (R : Shield S.handler) : Prop :=
  ∀ c y, S.allowed c → R.Fixed y → ¬ R.Locked y →
    (S.program c).twp S.handler (y, S.memory c) fun _ _ z => ¬ R.Locked z.1

variable {R : Shield S.handler}

omit [DecidableEq T] in
theorem Clients.Alone.whole (halone : S.Alone R) : S.Whole R fun x => ¬ R.Locked x :=
  fun c y _ _ _ _ hc hy hfree hrun => hrun.of_wp (halone c y hc hy hfree).wp

/-- A call in its region goes on. If nobody is, any call does. -/
theorem LinearInv.continues {x₀ x : σ} {s : Crowd I C α σ μ T} {l : List (T × Record I C α)}
    {place : T → Place} (halone : S.Alone R)
    (h : LinearInv R (fun x => ¬ R.Locked x) x₀ s l x place) {t : T} {u : Running I C α μ}
    (hrun : s.running t = some u) : ∃ s', S.Continues s s' := by
  have hgo {t : T} {c : C} {tr tr' : List (Event I)} {p : Program I α} {m : μ}
    (hcall : s.running t = some ⟨c, tr, p, m⟩)
      (hreach : Reaches S.handler (S.program c) (x, S.memory c) tr' p (s.shared, m)) :
        ∃ s', S.Continues s s' := by
    cases p with
    | ret a => exact ⟨_, .finish hcall⟩
    | call op k =>
      have hend := halone c x (h.allowed t _ hcall) h.fixed h.whole
      obtain ⟨r, z, hop⟩ := hend.progress hreach op k rfl
      exact ⟨_, .perform hcall hop⟩
  by_cases hin : ∃ t, place t = .inside
  · obtain ⟨t, ht⟩ := hin
    have hplaced := h.disciplined.call t
    have hlinear := h.call t
    rw [ht] at hplaced hlinear
    cases hcall : s.running t with
    | none =>
      rw [hcall] at hplaced
      exact hplaced.elim
    | some v =>
      rw [hcall] at hlinear
      obtain ⟨tr', -, hreach⟩ := hlinear
      exact hgo hcall hreach
  · have hshared : s.shared = x := h.nobody fun t ht => hin ⟨t, ht⟩
    have hplaced := h.disciplined.call t
    have hlinear := h.call t
    rw [hrun] at hplaced hlinear
    cases hplace : place t with
    | outside =>
      rw [hplace] at hlinear
      obtain ⟨tr', -, hreach⟩ := hlinear.2 x h.fixed
      have hnow :
          Reaches S.handler (S.program u.call) (x, S.memory u.call) tr' u.rest
            (s.shared, u.memory) := by
        rwa [hshared]
      exact hgo hrun hnow
    | inside => exact absurd ⟨t, hplace⟩ hin
    | left =>
      rw [hplace] at hplaced
      obtain ⟨a, ha⟩ := hplaced
      obtain ⟨c, tr, p, m⟩ := u
      obtain rfl : p = .ret a := ha
      exact ⟨_, .finish hrun⟩

/-- From any moment of any interleaving: without new calls there are finitely many steps only, in
whatever order; there is one as long as a call runs; and when none runs the region is free. -/
theorem all_return (hallowed : ∀ c, S.allowed c → R.Outside False (S.program c))
    (halone : S.Alone R) {x₀ : σ} (hfixed : R.Fixed x₀) (hfree : ¬ R.Locked x₀)
    {s : Crowd I C α σ μ T} (hs : S.Steps (.initial x₀) s) :
    Acc (fun s₂ s₁ => S.Continues s₁ s₂) s ∧
      ((∃ t u, s.running t = some u) → ∃ s', S.Continues s s') ∧
      ((∀ t, s.running t = none) → ¬ R.Locked s.shared) := by
  obtain ⟨U, hU⟩ := hs.within
  obtain ⟨l, x, place, h⟩ := (LinearInv.initial hfixed hfree).steps hallowed halone.whole hs
  refine ⟨continues_acc hU, ?_, fun hidle => ?_⟩
  · rintro ⟨t, u, hrun⟩
    exact h.continues halone hrun
  · rw [h.idle hidle]
    exact h.whole

end
end Upciedev.Foundations
