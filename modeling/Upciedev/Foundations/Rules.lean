import Upciedev.Foundations.Program

/-!
# Rules of use

Resources of one kind are used one by one, and the uses of all of them are kept in one log.
The rules say which uses a resource allows in which state. They are obeyed if the uses of every
resource, taken out of the log, are allowed from the first to the last. The log may be that of the
trace of a program, in which some events are uses.
-/
namespace Upciedev.Foundations

variable {κ σ α : Type}

/-- The state of a resource after a use, if the use is allowed. -/
structure Rules (σ α : Type) where
  use : σ → α → Option σ

namespace Rules

variable (R : Rules σ α)

/-- The state after some uses, if all of them are allowed. -/
def run (s : σ) (l : List α) : Option σ := l.foldlM R.use s

@[simp] theorem run_nil (s : σ) : R.run s [] = some s := rfl

@[simp] theorem run_cons (s : σ) (a : α) (l : List α) :
    R.run s (a :: l) = (R.use s a).bind fun s' => R.run s' l := rfl

@[simp] theorem run_append (s : σ) (l l' : List α) :
    R.run s (l ++ l') = (R.run s l).bind fun s' => R.run s' l' := List.foldlM_append

variable [DecidableEq κ]

def usesOf (k : κ) (log : List (κ × α)) : List α := (log.filter (·.1 = k)).map Prod.snd

@[simp] theorem usesOf_append (k : κ) (log log' : List (κ × α)) :
    usesOf k (log ++ log') = usesOf k log ++ usesOf k log' := by
  simp [usesOf]

@[simp] theorem usesOf_map (k k' : κ) (l : List α) :
    usesOf k (l.map (k', ·)) = if k' = k then l else [] := by
  by_cases hk : k' = k
  · simp [usesOf, List.filter_map, Function.comp_def, hk]
  · simp [usesOf, List.filter_map, Function.comp_def, hk]

variable {R} {s₀ s : σ} {log log' : List (κ × α)} {st : κ → σ} {k : κ} {l : List α}

variable (R) in
/-- From `s₀` on, every resource is used by the rules, and comes to the given state. -/
def Obeyed (s₀ : σ) (log : List (κ × α)) (st : κ → σ) : Prop :=
  ∀ k, R.run s₀ (usesOf k log) = some (st k)

theorem Obeyed.nil : R.Obeyed s₀ ([] : List (κ × α)) fun _ => s₀ := fun _ => rfl

theorem Obeyed.uses (h : R.Obeyed s₀ log st) (hl : R.run (st k) l = some s) :
    R.Obeyed s₀ (log ++ l.map (k, ·)) (Function.update st k s) := by
  intro k'
  rw [usesOf_append, usesOf_map, run_append, h k', Option.bind_some]
  by_cases hk : k = k'
  · subst hk
    rw [if_pos rfl, hl, Function.update_self]
  · rw [if_neg hk, Function.update_of_ne (Ne.symm hk), run_nil]

theorem Obeyed.of_append (h : R.Obeyed s₀ (log ++ log') st) :
    ∃ st₀, R.Obeyed s₀ log st₀ ∧ ∀ k, R.run (st₀ k) (usesOf k log') = some (st k) := by
  have hboth (k : κ) :
      ∃ s, R.run s₀ (usesOf k log) = some s ∧ R.run s (usesOf k log') = some (st k) := by
    have hk := h k
    rw [usesOf_append, run_append] at hk
    exact Option.bind_eq_some_iff.mp hk
  choose st₀ hst₀ hrest using hboth
  exact ⟨st₀, hst₀, hrest⟩

theorem Obeyed.of_snoc {a : α} (h : R.Obeyed s₀ (log ++ [(k, a)]) st) :
    ∃ st₀, R.Obeyed s₀ log st₀ ∧ R.use (st₀ k) a = some (st k) ∧ ∀ k', k' ≠ k → st k' = st₀ k' := by
  obtain ⟨st₀, hst₀, hrest⟩ := h.of_append
  have huses (k' : κ) : usesOf k' [(k, a)] = if k = k' then [a] else [] := usesOf_map k' k [a]
  refine ⟨st₀, hst₀, ?_, fun k' hk' => ?_⟩
  · have hk := hrest k
    rw [huses, if_pos rfl, run_cons] at hk
    obtain ⟨s, hs, hend⟩ := Option.bind_eq_some_iff.mp hk
    rw [hs, Option.some_injective _ hend]
  · have hk := hrest k'
    rw [huses, if_neg (Ne.symm hk'), run_nil] at hk
    exact (Option.some_injective _ hk).symm

/-- What holds of all states in the beginning and is kept by each allowed use holds in the end. -/
theorem Obeyed.invariant {P : List (κ × α) → (κ → σ) → Prop} (h : R.Obeyed s₀ log st)
    (hnil : P [] fun _ => s₀)
    (hstep : ∀ log st₀ st k a, R.Obeyed s₀ log st₀ → P log st₀ → R.use (st₀ k) a = some (st k) →
      (∀ k', k' ≠ k → st k' = st₀ k') → P (log ++ [(k, a)]) st) : P log st := by
  induction log using List.reverseRecOn generalizing st with
  | nil =>
    have hst : st = fun _ => s₀ := funext fun k => (Option.some_injective _ (h k)).symm
    rwa [hst]
  | append_singleton log e ih =>
    obtain ⟨st₀, hst₀, huse, hothers⟩ := h.of_snoc
    exact hstep log st₀ st e.1 e.2 hst₀ (ih hst₀) huse hothers

variable {I : Interface} {f : Event I → Option (κ × α)} {s' s'' : σ} {tr tr' : List (Event I)}

/-- Only resource `k` is used in the trace, by the rules, and goes from one state to the other. -/
def Along (R : Rules σ α) (f : Event I → Option (κ × α)) (k : κ) (s s' : σ)
    (tr : List (Event I)) : Prop :=
  ∃ uses, tr.filterMap f = uses.map (k, ·) ∧ R.run s uses = some s'

omit [DecidableEq κ] in
theorem Along.unused (h : tr.filterMap f = []) : R.Along f k s s tr := ⟨[], h, rfl⟩

omit [DecidableEq κ] in
theorem Along.append (h : R.Along f k s s' tr) (h' : R.Along f k s' s'' tr') :
    R.Along f k s s'' (tr ++ tr') := by
  obtain ⟨uses, hlog, hrun⟩ := h
  obtain ⟨uses', hlog', hrun'⟩ := h'
  refine ⟨uses ++ uses', by simp [hlog, hlog'], ?_⟩
  rw [run_append, hrun, Option.bind_some, hrun']

omit [DecidableEq κ] in
theorem Along.cons {e : Event I} {a : α} (he : f e = some (k, a)) (ha : R.use s a = some s')
    (h : R.Along f k s' s'' tr) : R.Along f k s s'' (e :: tr) := by
  obtain ⟨uses, hlog, hrun⟩ := h
  refine ⟨a :: uses, by simp [he, hlog], ?_⟩
  rw [run_cons, ha, Option.bind_some, hrun]

omit [DecidableEq κ] in
theorem Along.skip {e : Event I} (he : f e = none) (h : R.Along f k s s' tr) :
    R.Along f k s s' (e :: tr) := by
  obtain ⟨uses, hlog, hrun⟩ := h
  exact ⟨uses, by simp [he, hlog], hrun⟩

theorem Obeyed.along (h : R.Obeyed s₀ (tr.filterMap f) st) (halong : R.Along f k (st k) s tr') :
    R.Obeyed s₀ ((tr ++ tr').filterMap f) (Function.update st k s) := by
  obtain ⟨uses, hlog, hrun⟩ := halong
  rw [List.filterMap_append, hlog]
  exact h.uses hrun

end Rules
end Upciedev.Foundations
