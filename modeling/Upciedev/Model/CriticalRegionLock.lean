import Upciedev.Foundations.Pool
import Upciedev.Model.Kernel

/-!
# The semaphore lock (`criticalregionlock.c`, `USE_SEMAPHORE`)

The lock that a process can keep over several calls. A section between `spin_lock` and
`spin_unlock` is one function of the lock, and one operation of the interface; so are
`down_timeout`, which either takes the semaphore or expires, and the signal to the
process that lost its long lock. A thread is known by its pid.
-/
namespace Upciedev

open Foundations Program

/-- `enum _SEM_LOCK_TYPE_` -/
inductive SemLockType where
  | noLock
  | shortLockUnlock
  | longLockUnlock
  deriving DecidableEq, Repr

/-- `struct SCriticalRegionLock`; `mSemaphore` is the count of the semaphore. -/
structure SCriticalRegionLock where
  mSemaphore : ℕ
  mLnPID : ℤ
  mNInCriticalRegion : Bool
  mNShouldBeFreed : Bool
  mNLockingType : SemLockType
  mUlnJiffiesTmOut : UInt64
  mUllnStartJiffi : UInt64
  deriving DecidableEq, Repr

def timeout : ℤ := -3
def alreadyLocked : ℤ := -4
def notLockOwner : ℤ := -5
def eTime : ℤ := -62

/-- The time-out arrives in jiffies. -/
def initCritRegionLock (ulnJiffiesTmOut : UInt64) : SCriticalRegionLock :=
  { mSemaphore := 1, mLnPID := -1, mNInCriticalRegion := false, mNShouldBeFreed := false
    mNLockingType := .noLock, mUlnJiffiesTmOut := ulnJiffiesTmOut, mUllnStartJiffi := 0 }

namespace SCriticalRegionLock

/-- `up(&a_pLock->m_semaphore)` -/
def up (l : SCriticalRegionLock) : SCriticalRegionLock := { l with mSemaphore := l.mSemaphore + 1 }

/-- The section of `EnterCritRegion`: a long owner enters without the semaphore. -/
def enterSection (lnPID : ℤ) (l : SCriticalRegionLock) : Bool × SCriticalRegionLock :=
  if lnPID = l.mLnPID then (true, { l with mNInCriticalRegion := true }) else (false, l)

/-- The section of `LongLockOfCriticalRegion`. -/
def longSection (lnPID : ℤ) (l : SCriticalRegionLock) : Bool := lnPID = l.mLnPID

/-- `unlockSemaphore:` and what follows it. -/
def unlockSemaphore (l : SCriticalRegionLock) : SCriticalRegionLock :=
  { l.up with
    mLnPID := -1, mNShouldBeFreed := false, mNLockingType := .noLock, mNInCriticalRegion := false }

/-- The section of `UnlockCritRegionPrivate`. -/
def unlockSection (lnPID : ℤ) (nUnlockType : SemLockType) (l : SCriticalRegionLock) :
    ℤ × SCriticalRegionLock :=
  match nUnlockType with
  | .shortLockUnlock =>
    if l.mNLockingType = .shortLockUnlock then (0, l.unlockSemaphore)
    else if l.mNShouldBeFreed then (timeout, l.unlockSemaphore)
    else (0, { l with mNInCriticalRegion := false })
  | .longLockUnlock => if l.mLnPID = lnPID then (0, l.unlockSemaphore) else (notLockOwner, l)
  | .noLock => (notImplemented, l)

/-- The section of a waiter whose `down_timeout` expired at time `jiffies`: a long owner that has
had its time is marked if it is in the region, and loses the lock otherwise. The result is
`lnPidToKill`. -/
def expiredSection (jiffies : UInt64) (l : SCriticalRegionLock) : ℤ × SCriticalRegionLock :=
  if l.mNLockingType = .longLockUnlock ∧ l.mUlnJiffiesTmOut < jiffies - l.mUllnStartJiffi then
    if l.mNInCriticalRegion then (0, { l with mNShouldBeFreed := true })
    else (l.mLnPID, { l.up with mNLockingType := .noLock, mLnPID := -1 })
  else (0, l)

/-- The section of a waiter that got the semaphore at time `jiffies`. -/
def acquiredSection (lnPID : ℤ) (lockType : SemLockType) (jiffies : UInt64)
    (l : SCriticalRegionLock) : SCriticalRegionLock :=
  { l with
    mNLockingType := lockType, mNInCriticalRegion := true, mNShouldBeFreed := false
    mLnPID := lnPID, mUllnStartJiffi := jiffies }

inductive LockOp where
  | enterSection (lnPID : ℤ)
  | longSection (lnPID : ℤ)
  | unlockSection (lnPID : ℤ) (nUnlockType : SemLockType)
  | expiredSection
  | acquiredSection (lnPID : ℤ) (lockType : SemLockType)
  | downTimeout
  | killPid (lnPidToKill : ℤ)
  deriving DecidableEq, Repr

/-- `downTimeout` answers `true` when it expired. -/
@[reducible] def LockOp.Res : LockOp → Type
  | enterSection _ | longSection _ | downTimeout => Bool
  | unlockSection _ _ | expiredSection => ℤ
  | acquiredSection _ _ | killPid _ => Unit

@[reducible] def lockInterface : Interface := ⟨LockOp, LockOp.Res⟩

abbrev LockProgram (α : Type) := Program lockInterface α

/-- Waiters may expire at any time, and the clock may show any value. -/
def lockHandler : Handler lockInterface SCriticalRegionLock
  | .enterSection lnPID, l, r, l' => (r, l') = enterSection lnPID l
  | .longSection lnPID, l, r, l' => r = longSection lnPID l ∧ l' = l
  | .unlockSection lnPID nUnlockType, l, r, l' => (r, l') = unlockSection lnPID nUnlockType l
  | .expiredSection, l, r, l' => ∃ jiffies, (r, l') = expiredSection jiffies l
  | .acquiredSection lnPID lockType, l, _, l' =>
      ∃ jiffies, l' = acquiredSection lnPID lockType jiffies l
  | .downTimeout, l, r, l' =>
      r = true ∧ l' = l ∨
        r = false ∧ 0 < l.mSemaphore ∧ l' = { l with mSemaphore := l.mSemaphore - 1 }
  | .killPid _, l, _, l' => l' = l

abbrev performLock (op : LockOp) : LockProgram op.Res := perform (I := lockInterface) op

/-- The loop of `LockCritRegionPrivate`, with the number of rounds left. -/
def lockCritRegionLoop (lnPID : ℤ) (lockType : SemLockType) : ℕ → LockProgram ℤ
  | 0 => pure eTime
  | n + 1 => do
    if ← performLock .downTimeout then do
      let lnPidToKill ← performLock .expiredSection
      if lnPidToKill ≠ 0 then do
        performLock (.killPid lnPidToKill)
        lockCritRegionLoop lnPID lockType n
      else lockCritRegionLoop lnPID lockType n
    else do
      performLock (.acquiredSection lnPID lockType)
      pure 0

def lockCritRegionPrivate (lnPID : ℤ) (lockType : SemLockType) : LockProgram ℤ :=
  lockCritRegionLoop lnPID lockType 100

def unlockCritRegionPrivate (lnPID : ℤ) (nUnlockType : SemLockType) : LockProgram ℤ :=
  performLock (.unlockSection lnPID nUnlockType)

def enterCritRegion (lnPID : ℤ) : LockProgram ℤ := do
  if ← performLock (.enterSection lnPID) then pure 0
  else lockCritRegionPrivate lnPID .shortLockUnlock

def leaveCritRegion (lnPID : ℤ) : LockProgram ℤ := unlockCritRegionPrivate lnPID .shortLockUnlock

/-- The result of the wait is dropped: also a lock that was not taken is answered with 0. -/
def longLockOfCriticalRegion (lnPID : ℤ) : LockProgram ℤ := do
  if ← performLock (.longSection lnPID) then pure alreadyLocked
  else do
    let _ ← lockCritRegionPrivate lnPID .longLockUnlock
    pure 0

def unlockLongCritRegion (lnPID : ℤ) : LockProgram ℤ :=
  unlockCritRegionPrivate lnPID .longLockUnlock

inductive LockCall where
  | enterCritRegion
  | leaveCritRegion
  | longLockOfCriticalRegion
  | unlockLongCritRegion
  deriving DecidableEq, Repr

def LockCall.program (lnPID : ℤ) : LockCall → LockProgram ℤ
  | enterCritRegion => SCriticalRegionLock.enterCritRegion lnPID
  | leaveCritRegion => SCriticalRegionLock.leaveCritRegion lnPID
  | longLockOfCriticalRegion => SCriticalRegionLock.longLockOfCriticalRegion lnPID
  | unlockLongCritRegion => SCriticalRegionLock.unlockLongCritRegion lnPID

/-- Where a thread is between its calls of the lock. -/
inductive Place where
  | outside
  | inPair
  deriving DecidableEq, Repr

/-- Pairs of enter and leave do not nest and hold no long lock or unlock; an enter that failed
opens no pair. -/
def lockClient : Client LockCall Place ℤ where
  allowed
    | .inPair, c => c = .leaveCritRegion
    | .outside, c => c ≠ .leaveCritRegion
  next
    | _, .enterCritRegion, nReturn => if nReturn = 0 then .inPair else .outside
    | _, .leaveCritRegion, _ => .outside
    | l, _, _ => l

/-- Any number of threads with different pids. -/
def lockSystem : System lockInterface LockCall Place ℤ SCriticalRegionLock ℕ where
  handler := lockHandler
  client := lockClient
  program lnPID c := c.program lnPID

abbrev LockPool := Pool lockInterface LockCall Place ℤ SCriticalRegionLock ℕ

def initialPool (ulnJiffiesTmOut : UInt64) : LockPool :=
  { shared := initCritRegionLock ulnJiffiesTmOut, thread := fun _ => .idle .outside }

end SCriticalRegionLock
end Upciedev
