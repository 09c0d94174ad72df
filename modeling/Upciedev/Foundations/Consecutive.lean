import Mathlib.Tactic

/-!
# Consecutive rounds

A list that falls into rounds, where what a round may be depends on a position that
advances by one step from round to round.
-/
namespace Upciedev.Foundations

variable {ι β : Type} {next : ι → ι} {P : ι → List β → Prop}

/-- `n` rounds one after the other, the first one at position `i`. -/
inductive Consecutive (next : ι → ι) (P : ι → List β → Prop) : ι → ℕ → List β → Prop
  | nil (i : ι) : Consecutive next P i 0 []
  | cons {i : ι} {n : ℕ} {round l : List β} (h : P i round) (hl : Consecutive next P (next i) n l) :
      Consecutive next P i (n + 1) (round ++ l)

namespace Consecutive

variable {i : ι} {n : ℕ} {l : List β}

theorem forall_mem {Q : β → Prop} (hP : ∀ i round, P i round → ∀ x ∈ round, Q x)
    (h : Consecutive next P i n l) : ∀ x ∈ l, Q x := by
  induction h with
  | nil => simp
  | cons hround _ ih =>
    intro x hx
    rcases List.mem_append.mp hx with hx | hx
    · exact hP _ _ hround x hx
    · exact ih x hx

theorem sum_eq {f : β → ℕ} {size : ℕ} (hP : ∀ i round, P i round → (round.map f).sum = size)
    (h : Consecutive next P i n l) : (l.map f).sum = n * size := by
  induction h with
  | nil => simp
  | cons hround _ ih =>
    rw [List.map_append, List.sum_append, hP _ _ hround, ih]
    ring

theorem exists_first (h : Consecutive next P i n l) (hn : 0 < n) :
    ∃ round rest, P i round ∧ l = round ++ rest := by
  cases h with
  | nil => omega
  | cons hround _ => exact ⟨_, _, hround, rfl⟩

end Consecutive
end Upciedev.Foundations
