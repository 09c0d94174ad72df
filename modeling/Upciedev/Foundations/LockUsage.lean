import Mathlib.Tactic

/-!
# Use of a non-recursive lock

The attempts of one call to take and give back a lock, in order. A use is proper when
the lock is never asked for while held, never given back while not held, and given
back as often as it was obtained.
-/
namespace Upciedev.Foundations

/-- An attempt to take the lock, with its success, or a release. -/
inductive LockAct where
  | enter (ok : Bool)
  | leave
  deriving DecidableEq, Repr

namespace LockAct

def entered (l : List LockAct) : ℕ := l.count (enter true)
def left (l : List LockAct) : ℕ := l.count leave

def Holding (l : List LockAct) : Prop := left l < entered l

structure Proper (l : List LockAct) : Prop where
  enters_free : ∀ pre ok post, l = pre ++ enter ok :: post → ¬ Holding pre
  leaves_held : ∀ pre post, l = pre ++ leave :: post → Holding pre
  balanced : left l = entered l

/-- The same condition, checked from left to right. -/
def check : Bool → List LockAct → Bool
  | held, [] => !held
  | held, enter ok :: l => !held && check ok l
  | held, leave :: l => held && check false l

/-- `check` decides properness of what is left to do once the lock is held `n` times. -/
theorem check_iff (n : ℕ) (hn : n ≤ 1) (l : List LockAct) :
    check (n = 1) l = true ↔
      (∀ pre ok post, l = pre ++ enter ok :: post → entered pre + n ≤ left pre) ∧
      (∀ pre post, l = pre ++ leave :: post → left pre < entered pre + n) ∧
      left l = entered l + n := by
  induction l generalizing n with
  | nil => interval_cases n <;> simp [check, left, entered]
  | cons a l ih =>
    have hpre (P : List LockAct → List LockAct → Prop) (b : LockAct) :
        (∀ pre post, a :: l = pre ++ b :: post → P pre post) ↔
          (a = b → P [] l) ∧ ∀ pre post, l = pre ++ b :: post → P (a :: pre) post := by
      constructor
      · intro h
        exact ⟨fun hab => h [] l (by rw [hab]; rfl), fun pre post hl =>
          h (a :: pre) post (by rw [hl]; rfl)⟩
      · rintro ⟨h₀, h⟩ pre post heq
        cases pre with
        | nil =>
          obtain ⟨rfl, rfl⟩ := List.cons.inj heq
          exact h₀ rfl
        | cons c pre =>
          obtain ⟨rfl, rfl⟩ := List.cons.inj heq
          exact h pre post rfl
    have henter : (∀ pre ok post, a :: l = pre ++ enter ok :: post → entered pre + n ≤ left pre) ↔
        (∀ ok, a = enter ok → n = 0) ∧
          ∀ pre ok post, l = pre ++ enter ok :: post →
            entered (a :: pre) + n ≤ left (a :: pre) := by
      have h := fun ok => hpre (fun pre _ => entered pre + n ≤ left pre) (enter ok)
      constructor
      · intro hall
        refine ⟨fun ok ha => ?_, fun pre ok post hl =>
          ((h ok).mp fun p q => hall p ok q).2 pre post hl⟩
        have := ((h ok).mp fun p q => hall p ok q).1 ha
        simpa [entered, left] using this
      · rintro ⟨h₀, hall⟩ pre ok post heq
        exact (h ok).mpr ⟨fun ha => by simp [entered, left, h₀ ok ha],
          fun p q hl => hall p ok q hl⟩ pre post heq
    rw [henter, hpre (fun pre _ => left pre < entered pre + n) leave]
    cases a with
    | enter ok =>
      have hrest := ih (if ok then 1 else 0) (by split_ifs <;> omega)
      cases ok <;> interval_cases n <;> simp_all [check, entered, left]
    | leave =>
      have hrest := ih 0 (by omega)
      interval_cases n <;> simp_all [check, entered, left]

theorem proper_iff_check (l : List LockAct) : Proper l ↔ check false l = true := by
  have h := check_iff 0 (by omega) l
  simp only [Nat.zero_ne_one, decide_false, add_zero] at h
  rw [h]
  constructor
  · rintro ⟨h₁, h₂, h₃⟩
    exact ⟨fun pre ok post hl => Nat.not_lt.mp (h₁ pre ok post hl), h₂, h₃⟩
  · rintro ⟨h₁, h₂, h₃⟩
    exact ⟨fun pre ok post hl => Nat.not_lt.mpr (h₁ pre ok post hl), h₂, h₃⟩

instance (l : List LockAct) : Decidable (Proper l) := decidable_of_iff _ (proper_iff_check l).symm

end LockAct
end Upciedev.Foundations
