import Upciedev.Foundations.Pool

/-!
# Refinement of an abstract machine

A pool of threads refines a machine when every step of the pool is matched by some steps of the
machine, possibly none. Then everything the pool does is done by the machine.
-/
namespace Upciedev.Foundations.System

variable {I : Interface} {C L α σ T β : Type} [DecidableEq T]

/-- Steps of the pool keep the relation to the machine, which goes on by itself. -/
structure Refines (S : System I C L α σ T) (R : Pool I C L α σ T → β → Prop)
    (M : β → β → Prop) : Prop where
  step {s s' : Pool I C L α σ T} {a : β} : R s a → S.Step s s' →
    ∃ a', Relation.ReflTransGen M a a' ∧ R s' a'

variable {S : System I C L α σ T} {R : Pool I C L α σ T → β → Prop} {M : β → β → Prop}

theorem Refines.steps (h : S.Refines R M) {s s' : Pool I C L α σ T} {a : β} (hs : S.Steps s s')
    (ha : R s a) : ∃ a', Relation.ReflTransGen M a a' ∧ R s' a' := by
  induction hs with
  | refl => exact ⟨a, .refl, ha⟩
  | tail _ hlast ih =>
    obtain ⟨a₁, hrun, ha₁⟩ := ih
    obtain ⟨a₂, hnext, ha₂⟩ := h.step ha₁ hlast
    exact ⟨a₂, hrun.trans hnext, ha₂⟩

end Upciedev.Foundations.System
