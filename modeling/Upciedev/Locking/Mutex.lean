import Upciedev.Locking.LockDiscipline

/-!
# The lock of the default build

`dev_mut` of every entry as a mutex: a call that enters a region waits until it is free, and the
leave frees it. The other operations are those of the driver.
-/
namespace Upciedev

open Foundations Program

variable {ε : Type}

/-- The driver data, and the entries whose `dev_mut` is taken. -/
@[ext]
structure Mutexed (ε : Type) where
  world : World ε
  locked : Entry → Bool

def mutexDriver (E : Environment ε) : Handler driverInterface (Mutexed ε)
  | .enterCritRegion d, s, r, s' =>
      s.locked d = false ∧ r = (0 : ℤ) ∧ s' = { s with locked := Function.update s.locked d true }
  | .leaveCritRegion d, s, r, s' =>
      r = (0 : ℤ) ∧ s' = { s with locked := Function.update s.locked d false }
  | op, s, r, s' => driver E op s.world r s'.world ∧ s'.locked = s.locked

theorem mutexDriver_quiet {E : Environment ε} {op : Op} (hop : op.Quiet) {s s' : Mutexed ε}
    {r : op.Res} : mutexDriver E op s r s' ↔ driver E op s.world r s'.world ∧
      s'.locked = s.locked := by
  cases op <;> first | exact Iff.rfl | exact hop.elim

def mutexStep (answer : Answers ε) : (op : Op) → Mutexed ε → Option (op.Res × Mutexed ε)
  | .enterCritRegion d, s =>
      if s.locked d then none else
        some ((0 : ℤ), { s with locked := Function.update s.locked d true })
  | .leaveCritRegion d, s => some ((0 : ℤ), { s with locked := Function.update s.locked d false })
  | op, s =>
      match driverStep answer op s.world with
      | none => none
      | some (r, w) => some (r, { s with world := w })

theorem mutexDriver_of_mutexStep {E : Environment ε} {answer : Answers ε}
    (hE : ∀ c e r e', answer c e = some (r, e') → E c e r e') (op : Op) (s : Mutexed ε) (r : op.Res)
    (s' : Mutexed ε) (h : mutexStep answer op s = some (r, s')) : mutexDriver E op s r s' := by
  have hquiet {op : Op} (hop : op.Quiet) {r : op.Res} (h : (match driverStep answer op s.world with
        | none => none
        | some (r, w) =>
            some (r, { s with world := w })) = some (r, s')) : mutexDriver E op s r s' := by
    cases hstep : driverStep answer op s.world with
    | none => simp [hstep] at h
    | some p =>
      obtain ⟨r', w⟩ := p
      simp only [hstep, Option.some.injEq, Prod.mk.injEq] at h
      obtain ⟨rfl, rfl⟩ := h
      exact (mutexDriver_quiet hop).mpr ⟨driver_of_driverStep hE _ _ _ _ hstep, rfl⟩
  cases op with
  | enterCritRegion d =>
    simp only [mutexStep] at h
    split_ifs at h with hfree
    obtain ⟨rfl, rfl⟩ := Prod.mk.inj (Option.some.inj h)
    exact ⟨by simpa using hfree, rfl, rfl⟩
  | leaveCritRegion d =>
    obtain ⟨rfl, rfl⟩ := Prod.mk.inj (Option.some.inj h)
    exact ⟨rfl, rfl⟩
  | _ => exact hquiet trivial h

theorem mutexStep_of_mutexDriver {E : Environment ε} {answer : Answers ε}
    (hE : ∀ c e r e', E c e r e' → answer c e = some (r, e')) {op : Op} (hop : op.inRange = true)
    {s s' : Mutexed ε} {r : op.Res} (h : mutexDriver E op s r s') :
    mutexStep answer op s = some (r, s') := by
  have hquiet {op : Op} (hop : op.inRange = true) {r : op.Res}
      (h : driver E op s.world r s'.world ∧ s'.locked = s.locked) :
      (match driverStep answer op s.world with
        | none => none
        | some (r, w) => some (r, { s with world := w })) = some (r, s') := by
    rw [driverStep_of_driver hE hop h.1]
    simp only [Mutexed.ext_iff, Option.some.injEq, Prod.mk.injEq, true_and]
    exact h.2.symm
  cases op with
  | enterCritRegion d =>
    obtain ⟨hfree, rfl, rfl⟩ := h
    simp [mutexStep, hfree]
  | leaveCritRegion d =>
    obtain ⟨rfl, rfl⟩ := h
    rfl
  | _ => exact hquiet hop h

end Upciedev
