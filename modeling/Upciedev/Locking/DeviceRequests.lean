import Upciedev.Locking.LockDiscipline
import Upciedev.Locking.LongLock

/-!
# Calls on a file as calls on the lock

The entry points reach the lock of a board through the functions of its own module only. Seen
from the lock, a call on a file is therefore one request, one locking or one unlocking of the
device, or nothing at all, except for the calls that lose the lock.
-/
namespace Upciedev

open Foundations Program SCriticalRegionLock

/-- What is left of a program once the operations that do nothing to a lock are answered, with
answers in `ok`, and those on a lock are the lock's own functions, called by `lnPID`. -/
inductive LockView (ok : Event driverInterface → Prop) (lnPID : ℤ) :
    Kernel ℤ → LockProgram ℤ → Prop
  | ret (a : ℤ) : LockView ok lnPID (.ret a) (.ret a)
  | answered {op : Op} {k : op.Res → Kernel ℤ} {q : LockProgram ℤ} (r : op.Res)
      (hop : op.LockFree) (hok : ok ⟨op, r⟩) (h : LockView ok lnPID (k r) q) :
      LockView ok lnPID (.call op k) q
  | enter {dev : Entry} {k : ℤ → Kernel ℤ} {f : ℤ → LockProgram ℤ}
      (h : ∀ r, LockView ok lnPID (k r) (f r)) :
      LockView ok lnPID (.call (.enterCritRegion dev) k)
        (SCriticalRegionLock.enterCritRegion lnPID >>= f)
  | leave {dev : Entry} {k : ℤ → Kernel ℤ} {f : ℤ → LockProgram ℤ}
      (h : ∀ r, LockView ok lnPID (k r) (f r)) :
      LockView ok lnPID (.call (.leaveCritRegion dev) k)
        (SCriticalRegionLock.leaveCritRegion lnPID >>= f)
  | lock {dev : Entry} {k : ℤ → Kernel ℤ} {f : ℤ → LockProgram ℤ}
      (h : ∀ r, LockView ok lnPID (k r) (f r)) :
      LockView ok lnPID (.call (.longLockOfCriticalRegion dev) k)
        (SCriticalRegionLock.longLockOfCriticalRegion lnPID >>= f)
  | unlock {dev : Entry} {k : ℤ → Kernel ℤ} {f : ℤ → LockProgram ℤ}
      (h : ∀ r, LockView ok lnPID (k r) (f r)) :
      LockView ok lnPID (.call (.unlockLongCritRegion dev) k)
        (SCriticalRegionLock.unlockLongCritRegion lnPID >>= f)

section
variable {ok : Event driverInterface → Prop} {lnPID : ℤ} {q : LockProgram ℤ}

theorem LockView.ret_eq {a : ℤ} (h : LockView ok lnPID (.ret a) q) : q = .ret a := by
  cases h
  rfl

theorem LockView.answer {op : Op} {k : op.Res → Kernel ℤ} (hop : op.LockFree)
    (h : LockView ok lnPID (.call op k) q) : ∃ r, ok ⟨op, r⟩ ∧ LockView ok lnPID (k r) q := by
  cases h with
  | answered r _ hok hk => exact ⟨r, hok, hk⟩
  | enter | leave | lock | unlock => exact hop.elim

theorem leavesAtEnd_view {dev : Entry} {p : Kernel ℤ} (hp : LeavesAtEnd ok dev p)
    (h : LockView ok lnPID p q) :
    ∃ a, q = SCriticalRegionLock.leaveCritRegion lnPID >>= fun _ => .ret a := by
  induction p with
  | ret a => exact hp.elim
  | call op k ih =>
    rcases hp with ⟨rfl, a, hk⟩ | ⟨hop, hk⟩
    · cases h with
      | answered _ hop => exact hop.elim
      | leave hrest =>
        refine ⟨a, congrArg _ (funext fun r => ?_)⟩
        exact (hk r ▸ hrest r).ret_eq
    · obtain ⟨r, hok, hrest⟩ := h.answer hop
      exact ih r (hk r hok) hrest

theorem withCritRegion_view {dev : Entry} {body : Kernel ℤ} (hbody : LeavesAtEnd ok dev body)
    (h : LockView ok lnPID (withCritRegion dev body) q) : ∃ retval, q = request lnPID retval := by
  cases h with
  | answered _ hop => exact hop.elim
  | @enter _ _ f hrest =>
    obtain ⟨retval, hleave⟩ := leavesAtEnd_view hbody (hrest 0)
    refine ⟨retval, congrArg _ (funext fun r => ?_)⟩
    have hanswer : LockView ok lnPID (if r ≠ 0 then ret eRestartSys else body) (f r) := hrest r
    by_cases hr : r = 0
    · subst hr
      exact hleave
    · rw [if_pos hr] at hanswer ⊢
      exact hanswer.ret_eq

theorem lockUse_view {p : Kernel ℤ} (hp : LockUse ok p) (h : LockView ok lnPID p q) :
    ∃ c : DeviceCall, q = c.program lnPID := by
  cases hp with
  | region dev hbody =>
    obtain ⟨retval, hq⟩ := withCritRegion_view hbody h
    exact ⟨.request retval, hq⟩
  | lock dev =>
    cases h with
    | answered _ hop => exact hop.elim
    | lock hrest =>
      refine ⟨.lockDevice, ?_⟩
      rw [funext fun r => (hrest r).ret_eq]
      exact bind_ret _
  | unlock dev =>
    cases h with
    | answered _ hop => exact hop.elim
    | unlock hrest =>
      refine ⟨.unlockDevice, ?_⟩
      rw [funext fun r => (hrest r).ret_eq]
      exact bind_ret _

theorem usesOneLock_view {p : Kernel ℤ} (hp : UsesOneLock ok p) (h : LockView ok lnPID p q) :
    (∃ a, q = .ret a) ∨ ∃ c : DeviceCall, q = c.program lnPID := by
  induction p with
  | ret a => exact .inl ⟨a, h.ret_eq⟩
  | call op k ih =>
    rcases hp with huse | ⟨hop, hk⟩
    · exact .inr (lockUse_view huse h)
    · obtain ⟨r, hok, hrest⟩ := h.answer hop
      exact ih r (hk r hok) hrest

end

/-- The clients of the lock make the calls that the files of a board make: as long as no answer
loses the lock, a call on a file is one of theirs, or does nothing to the lock. -/
theorem fileCall_view (c : FileCall) {lnPID : ℤ} {q : LockProgram ℤ}
    (h : LockView (fun e => ¬ c.LosesLock e) lnPID c.program q) :
    (∃ a, q = .ret a) ∨ ∃ c : DeviceCall, q = c.program lnPID :=
  usesOneLock_view (fileCall_losesOn c).uses h

end Upciedev
