import Upciedev.Locking.MutualExclusion

/-!
# Keeping a long lock

The calls of a client in the semaphore build: locking and unlocking the device, and requests
that enter and leave the region. A client counts on its long lock until it unlocks the device or
is told of the loss, by the signal or by the result of its own request.
-/
namespace Upciedev.SCriticalRegionLock

open Foundations Program System

/-- A request of a client; `retval` is what its part inside the region comes to. -/
inductive DeviceCall where
  | request (retval : ℤ)
  | lockDevice
  | unlockDevice

def restartSys : ℤ := -512

def request (lnPID : ℤ) (retval : ℤ) : LockProgram ℤ := do
  if (← enterCritRegion lnPID) ≠ 0 then pure restartSys
  else do
    let _ ← leaveCritRegion lnPID
    pure retval

def DeviceCall.program (lnPID : ℤ) : DeviceCall → LockProgram ℤ
  | request retval => SCriticalRegionLock.request lnPID retval
  | lockDevice => longLockOfCriticalRegion lnPID
  | unlockDevice => unlockLongCritRegion lnPID

abbrev DevicePool := Pool lockInterface DeviceCall Unit ℤ SCriticalRegionLock ℕ
abbrev DeviceThread := Thread lockInterface DeviceCall Unit ℤ

def devicePool (ulnJiffiesTmOut : UInt64) : DevicePool :=
  { shared := initCritRegionLock ulnJiffiesTmOut, thread := fun _ => .idle () }

/-- An operation gives a long lock, takes it back, or tells a client that it has lost it. -/
def countAfter (counting : Set ℤ) : LockOp → Set ℤ
  | .acquiredSection lnPID .longLockUnlock => insert lnPID counting
  | .unlockSection lnPID .longLockUnlock => counting \ {lnPID}
  | .killPid lnPidToKill => counting \ {lnPidToKill}
  | _ => counting

def GivenUp (lnPID : ℤ) (tr : List (Event lockInterface)) : Prop :=
  (⟨.unlockSection lnPID .shortLockUnlock, timeout⟩ : Event lockInterface) ∈ tr

open Classical in
/-- A call that gave the lock up tells its client when its result is an error. -/
noncomputable def countAtEnd (counting : Set ℤ) (lnPID : ℤ) (tr : List (Event lockInterface))
    (a : ℤ) :
    Set ℤ :=
  if a < 0 ∧ GivenUp lnPID tr then counting \ {lnPID} else counting

/-- Runs of the clients, with the pids of those that count on their long lock. Every operation has
to meet `ok` in the pool in which it is made. -/
inductive CountRun (ok : DevicePool → (op : LockOp) → op.Res → Prop) (ulnJiffiesTmOut : UInt64) :
    DevicePool → Set ℤ → Prop
  | initial : CountRun ok ulnJiffiesTmOut (devicePool ulnJiffiesTmOut) ∅
  | start {s : DevicePool} {counting : Set ℤ} {t : ℕ} (c : DeviceCall)
      (h : CountRun ok ulnJiffiesTmOut s counting) (hidle : s.thread t = .idle ()) :
      CountRun ok ulnJiffiesTmOut (s.update s.shared t (.calling () c [] (c.program t))) counting
  | perform {s : DevicePool} {counting : Set ℤ} {t : ℕ} {c : DeviceCall}
      {tr : List (Event lockInterface)} {op : LockOp} {k : op.Res → LockProgram ℤ} {r : op.Res}
      {x : SCriticalRegionLock} (h : CountRun ok ulnJiffiesTmOut s counting)
      (hcall : s.thread t = .calling () c tr (.call op k)) (hop : lockHandler op s.shared r x)
      (hok : ok s op r) :
      CountRun ok ulnJiffiesTmOut (s.update x t (.calling () c (tr ++ [⟨op, r⟩]) (k r)))
        (countAfter counting op)
  | finish {s : DevicePool} {counting : Set ℤ} {t : ℕ} {c : DeviceCall}
      {tr : List (Event lockInterface)} {a : ℤ} (h : CountRun ok ulnJiffiesTmOut s counting)
      (hret : s.thread t = .calling () c tr (.ret a)) :
      CountRun ok ulnJiffiesTmOut (s.update s.shared t (.idle ())) (countAtEnd counting t tr a)

def restPhase : LockProgram ℤ → Phase
  | .call (.acquiredSection _ _) _ => .granted
  | .call (.unlockSection _ .shortLockUnlock) _ => .inRegion
  | _ => .neutral

def devicePhase : DeviceThread → Phase
  | .idle _ => .neutral
  | .calling _ _ _ p => restPhase p

def InRegion (u : DeviceThread) : Prop := devicePhase u = .inRegion

/-- A waiter that has taken the lock from its owner sends the signal next. -/
def SignalNext : (op : LockOp) → op.Res → LockProgram ℤ → Prop
  | .expiredSection, lnPID, p => lnPID ≠ 0 → ∃ k, p = .call (.killPid lnPID) k
  | _, _, _ => True

/-- The rest of a call of thread `t` makes operations of the lock's functions on its own behalf, and
its phases follow them. -/
def Own (t : ℕ) : LockProgram ℤ → Prop
  | .ret _ => True
  | .call op k => (∃ c, OpOf t c op ∧ restPhase (.call op k) = phaseBefore c op) ∧
      ∀ r, restPhase (k r) = phaseAfter op r ∧ SignalNext op r (k r) ∧ Own t (k r)

theorem lockCritRegionLoop_own {t : ℕ} {lockType : SemLockType} {c : LockCall}
    (hc : Waits c lockType) {f : ℤ → LockProgram ℤ}
    (htime : restPhase (f eTime) = .neutral ∧ Own t (f eTime))
    (hdone : restPhase (f 0) = phaseAfter (.acquiredSection t lockType) () ∧ Own t (f 0)) (n : ℕ) :
    restPhase (lockCritRegionLoop t lockType n >>= f) = .neutral ∧
      Own t (lockCritRegionLoop t lockType n >>= f) := by
  have hops : OpOf t c .downTimeout ∧ OpOf t c .expiredSection ∧ (∀ pid, OpOf t c (.killPid pid)) ∧
      OpOf t c (.acquiredSection t lockType) := by
    rcases hc with ⟨rfl, rfl⟩ | ⟨rfl, rfl⟩ <;> simp [OpOf]
  have hbefore {op : LockOp} (hop : ∀ pid ty, op ≠ .acquiredSection pid ty) :
      phaseBefore c op = .neutral := by
    rcases hc with ⟨rfl, rfl⟩ | ⟨rfl, rfl⟩ <;> cases op <;> simp_all [phaseBefore]
  have hgranted (pid : ℤ) (ty : SemLockType) :
      phaseBefore c (.acquiredSection pid ty) = .granted := by
    rcases hc with ⟨rfl, rfl⟩ | ⟨rfl, rfl⟩ <;> rfl
  induction n with
  | zero => exact htime
  | succ n ih =>
    simp only [lockCritRegionLoop, performLock, perform_eq, call_bind, ret_bind]
    refine ⟨rfl, ⟨c, hops.1, (hbefore (by simp)).symm⟩, ?_⟩
    rintro (_ | _)
    · exact ⟨rfl, trivial, ⟨c, hops.2.2.2, (hgranted _ _).symm⟩, fun _ =>
        ⟨hdone.1, trivial, hdone.2⟩⟩
    · refine ⟨rfl, trivial, ⟨c, hops.2.1, (hbefore (by simp)).symm⟩, fun pid => ?_⟩
      by_cases hpid : pid = 0
      · subst hpid
        exact ⟨ih.1, fun h => absurd rfl h, ih.2⟩
      · simp only [ne_eq, hpid, not_false_eq_true, if_true]
        exact ⟨rfl, fun _ => ⟨_, rfl⟩, ⟨c, hops.2.2.1 pid, (hbefore (by simp)).symm⟩,
          fun _ => ⟨ih.1, trivial, ih.2⟩⟩

theorem program_own (t : ℕ) (c : DeviceCall) : restPhase (c.program t) = .neutral ∧
    Own t (c.program t) := by
  cases c with
  | request retval =>
    have hleave : restPhase (leaveCritRegion t >>= fun _ => pure retval) = .inRegion ∧
        Own t (leaveCritRegion t >>= fun _ => pure retval) :=
      ⟨rfl, ⟨.leaveCritRegion, ⟨rfl, rfl⟩, rfl⟩, fun _ => ⟨rfl, trivial, trivial⟩⟩
    have hwait := lockCritRegionLoop_own (c := .enterCritRegion) (.inl ⟨rfl, rfl⟩)
      (f := fun nReturn => if nReturn ≠ 0 then pure restartSys
        else leaveCritRegion t >>= fun _ => pure retval) ⟨rfl, trivial⟩ hleave 100
    refine ⟨rfl, ⟨.enterCritRegion, rfl, rfl⟩, ?_⟩
    rintro (_ | _)
    · exact ⟨hwait.1, trivial, hwait.2⟩
    · exact ⟨hleave.1, trivial, hleave.2⟩
  | lockDevice =>
    have hwait := lockCritRegionLoop_own (c := .longLockOfCriticalRegion) (.inr ⟨rfl, rfl⟩)
      (f := fun _ => pure 0) (t := t) ⟨rfl, trivial⟩ ⟨rfl, trivial⟩ 100
    refine ⟨rfl, ⟨.longLockOfCriticalRegion, rfl, rfl⟩, ?_⟩
    rintro (_ | _)
    · exact ⟨hwait.1, trivial, hwait.2⟩
    · exact ⟨rfl, trivial, trivial⟩
  | unlockDevice =>
    exact ⟨rfl, ⟨.unlockLongCritRegion, ⟨rfl, rfl⟩, rfl⟩, fun _ => ⟨rfl, trivial, trivial⟩⟩

/-- Thread `t` is about to send the signal to a client. -/
def Signals (s : DevicePool) (t : ℕ) (lnPID : ℤ) : Prop :=
  ∃ c tr k, s.thread t = .calling () c tr (.call (.killPid lnPID) k)

/-- No operation takes the semaphore before a signal that is due has been sent, and none leaves the
region of a long owner that a waiter has marked. -/
def Considerate (s : DevicePool) : (op : LockOp) → op.Res → Prop
  | .downTimeout, expired => expired = false → ∀ t lnPID, ¬ Signals s t lnPID
  | .unlockSection _ .shortLockUnlock, _ =>
      s.shared.mNLockingType = .longLockUnlock → s.shared.mNShouldBeFreed = false
  | _, _ => True

/-- Whoever counts on the long lock has it, or the signal is due and the lock is free. -/
structure CountInv (s : DevicePool) (counting : Set ℤ) : Prop where
  lock : LockInv s.shared fun t => devicePhase (s.thread t)
  own t c tr p : s.thread t = .calling () c tr p → Own t p
  counting lnPID : lnPID ∈ counting → lnPID ≠ 0 →
    (s.shared.mNLockingType = .longLockUnlock ∧ s.shared.mLnPID = lnPID) ∨
      (s.shared.mSemaphore = 1 ∧ ∃ t, Signals s t lnPID)

section
variable {s : DevicePool} {counting : Set ℤ} {t : ℕ} {x : SCriticalRegionLock} {u : DeviceThread}

theorem devicePhase_update (s : DevicePool) (x : SCriticalRegionLock) (t : ℕ) (u : DeviceThread) :
    (fun t' => devicePhase ((s.update x t u).thread t')) =
      Function.update (fun t' => devicePhase (s.thread t')) t (devicePhase u) := by
  funext t'
  by_cases h : t' = t
  · subst h
    simp
  · simp [h]

theorem Signals.update {t' : ℕ} {lnPID : ℤ} (h : Signals s t' lnPID) (hne : t' ≠ t) :
    Signals (s.update x t u) t' lnPID := by
  obtain ⟨c, tr, k, hcall⟩ := h
  refine ⟨c, tr, k, ?_⟩
  rw [Pool.update_other _ _ hne]
  exact hcall

theorem CountInv.update (h : CountInv s counting) {counting' : Set ℤ}
    (hlock : LockInv x (Function.update (fun t' => devicePhase (s.thread t')) t (devicePhase u)))
    (hown : ∀ c tr p, u = .calling () c tr p → Own t p)
    (hcounting : ∀ lnPID ∈ counting', lnPID ≠ 0 →
      (x.mNLockingType = .longLockUnlock ∧ x.mLnPID = lnPID) ∨
        (x.mSemaphore = 1 ∧ ∃ t', Signals (s.update x t u) t' lnPID)) :
    CountInv (s.update x t u) counting' where
  lock := by rwa [Pool.update_shared, devicePhase_update]
  own t' c tr p ht' := by
    by_cases heq : t' = t
    · subst heq
      rw [Pool.update_same] at ht'
      exact hown c tr p ht'
    · rw [Pool.update_other _ _ heq] at ht'
      exact h.own t' c tr p ht'
  counting := hcounting

/-- A step that leaves the owner and the semaphore as they are, by a thread that owes no signal. -/
theorem CountInv.kept (h : CountInv s counting) (hquiet : ∀ lnPID, ¬ Signals s t lnPID)
    (htype : x.mNLockingType = s.shared.mNLockingType) (hpid : x.mLnPID = s.shared.mLnPID)
    (hsem : x.mSemaphore = s.shared.mSemaphore) {lnPID : ℤ} (hin : lnPID ∈ counting)
    (hne : lnPID ≠ 0) :
    (x.mNLockingType = .longLockUnlock ∧ x.mLnPID = lnPID) ∨
      (x.mSemaphore = 1 ∧ ∃ t', Signals (s.update x t u) t' lnPID) := by
  rw [htype, hpid, hsem]
  apply (h.counting lnPID hin hne).imp id
  intro hcounted
  obtain ⟨hone, t', hsignal⟩ := hcounted
  refine ⟨hone, t', hsignal.update ?_⟩
  rintro rfl
  exact hquiet lnPID hsignal

end

theorem enterSection_kept (pid : ℤ) (l : SCriticalRegionLock) :
    (enterSection pid l).2.mNLockingType = l.mNLockingType ∧
      (enterSection pid l).2.mLnPID = l.mLnPID ∧
      (enterSection pid l).2.mSemaphore = l.mSemaphore := by
  unfold enterSection
  split_ifs <;> exact ⟨rfl, rfl, rfl⟩

section
variable {s : DevicePool} {counting : Set ℤ} {t : ℕ} {lnPID : ℤ}

theorem CountInv.free (h : CountInv s counting) (hone : s.shared.mSemaphore = 1) :
    s.shared.mNLockingType = .noLock ∧ s.shared.mLnPID = -1 ∧
      ∀ t, devicePhase (s.thread t) = .neutral := by
  cases h.lock with
  | free _ htype hpid hothers => exact ⟨htype, hpid, hothers⟩
  | pending _ hzero | short _ hzero | long _ hzero => omega

theorem CountInv.taken (h : CountInv s counting)
    (htype : s.shared.mNLockingType = .longLockUnlock) : s.shared.mSemaphore = 0 := by
  cases h.lock with
  | free _ hno | pending _ _ hno | short _ _ hno => simp [hno] at htype
  | long _ hzero => exact hzero

/-- While a thread has the semaphore without being recorded, nobody counts on the lock. -/
theorem CountInv.nobody (h : CountInv s counting) (ht : devicePhase (s.thread t) = .granted)
    (hne : lnPID ≠ 0) : lnPID ∉ counting := by
  intro hold
  rcases h.counting lnPID hold hne with ⟨htype, _⟩ | ⟨hone, _⟩
  · cases h.lock with
    | free _ hno | pending _ _ hno | short _ _ hno => simp [hno] at htype
    | long owner _ _ _ howner _ hothers =>
      by_cases hthis : t = owner
      · exact howner (hthis ▸ ht)
      · rw [hothers t hthis] at ht
        cases ht
  · rw [(h.free hone).2.2] at ht
    cases ht

/-- The holder of the region leaves it, which keeps the long lock unless it is marked. -/
theorem CountInv.leave (h : CountInv s counting) (ht : devicePhase (s.thread t) ≠ .neutral)
    (hok : s.shared.mNLockingType = .longLockUnlock → s.shared.mNShouldBeFreed = false)
    (hin : lnPID ∈ counting) (hne : lnPID ≠ 0) :
    (unlockSection t .shortLockUnlock s.shared).2.mNLockingType = .longLockUnlock ∧
      (unlockSection t .shortLockUnlock s.shared).2.mLnPID = lnPID := by
  rcases h.counting lnPID hin hne with ⟨htype, hpid⟩ | ⟨hone, _⟩
  · have hkept : (unlockSection t .shortLockUnlock s.shared).2 =
        { s.shared with mNInCriticalRegion := false } := by
      simp [unlockSection, htype, hok htype]
    rw [hkept]
    exact ⟨htype, hpid⟩
  · exact absurd ((h.free hone).2.2 t) ht

/-- An unlock leaves the lock of another client alone. -/
theorem CountInv.unlock (h : CountInv s counting) (hin : lnPID ∈ counting) (hne : lnPID ≠ 0)
    (hother : lnPID ≠ t) : (unlockSection t .longLockUnlock s.shared).2 = s.shared := by
  have hnot : s.shared.mLnPID ≠ t := by
    intro howner
    rcases h.counting lnPID hin hne with ⟨_, hpid⟩ | ⟨hone, _⟩
    · exact hother (hpid.symm.trans howner)
    · have hnone := (h.free hone).2.1
      omega
  simp [unlockSection, hnot]

/-- An expired waiter leaves the owner and the semaphore as they are, or takes the lock from its
owner, whose signal is due then. -/
theorem CountInv.expired (h : CountInv s counting) (hin : lnPID ∈ counting) (hne : lnPID ≠ 0)
    (jiffies : UInt64) :
    ((expiredSection jiffies s.shared).2.mNLockingType = s.shared.mNLockingType ∧
        (expiredSection jiffies s.shared).2.mLnPID = s.shared.mLnPID ∧
        (expiredSection jiffies s.shared).2.mSemaphore = s.shared.mSemaphore) ∨
      (expiredSection jiffies s.shared).1 = lnPID ∧
        (expiredSection jiffies s.shared).2.mSemaphore = 1 := by
  by_cases hlong : s.shared.mNLockingType = .longLockUnlock ∧
      s.shared.mUlnJiffiesTmOut < jiffies - s.shared.mUllnStartJiffi
  · by_cases hcritical : s.shared.mNInCriticalRegion
    · left
      simp [expiredSection, hlong, hcritical]
    · right
      rcases h.counting lnPID hin hne with ⟨htype, hpid⟩ | ⟨hone, _⟩
      · simp [expiredSection, hlong, hcritical, hpid, up, h.taken htype]
      · rw [(h.free hone).1] at hlong
        cases hlong.1
  · left
    simp [expiredSection, hlong]

end

theorem CountInv.perform {s : DevicePool} {counting : Set ℤ} (h : CountInv s counting) {t : ℕ}
    {c : DeviceCall} {tr : List (Event lockInterface)} {op : LockOp} {k : op.Res → LockProgram ℤ}
    {r : op.Res} {x : SCriticalRegionLock} (hcall : s.thread t = .calling () c tr (.call op k))
    (hop : lockHandler op s.shared r x) (hok : Considerate s op r) :
    CountInv (s.update x t (.calling () c (tr ++ [⟨op, r⟩]) (k r))) (countAfter counting op) := by
  obtain ⟨⟨c', hopOf, hphase⟩, hrest⟩ := h.own t c tr _ hcall
  have hbefore : devicePhase (s.thread t) = phaseBefore c' op := by
    rw [hcall]
    exact hphase
  have hlock := lockInv_step h.lock hopOf hbefore hop
  rw [← (hrest r).1] at hlock
  have hown : ∀ c₁ tr₁ p, (Thread.calling () c (tr ++ [⟨op, r⟩]) (k r) : DeviceThread) =
      .calling () c₁ tr₁ p → Own t p := by
    rintro _ _ _ ⟨⟩
    exact (hrest r).2.2
  have hquiet (hkill : ∀ lnPID, op ≠ .killPid lnPID) (lnPID : ℤ) : ¬ Signals s t lnPID := by
    rintro ⟨_, _, _, hsignal⟩
    rw [hcall] at hsignal
    cases hsignal
    exact hkill lnPID rfl
  apply h.update hlock hown
  intro lnPID hin hne
  cases op with
  | enterSection pid =>
    obtain rfl : (enterSection pid s.shared).2 = x := (Prod.mk.inj hop).2.symm
    obtain ⟨htype, hpid, hsem⟩ := enterSection_kept pid s.shared
    exact h.kept (hquiet (by simp)) htype hpid hsem hin hne
  | longSection pid =>
    obtain ⟨-, rfl⟩ := hop
    exact h.kept (hquiet (by simp)) rfl rfl rfl hin hne
  | unlockSection pid nUnlockType =>
    obtain rfl : (unlockSection pid nUnlockType s.shared).2 = x := (Prod.mk.inj hop).2.symm
    cases c' with
    | leaveCritRegion =>
      obtain ⟨rfl, rfl⟩ := hopOf
      exact .inl (h.leave (by rw [hbefore]; simp [phaseBefore]) hok hin hne)
    | unlockLongCritRegion =>
      obtain ⟨rfl, rfl⟩ := hopOf
      rw [h.unlock hin.1 hne hin.2]
      exact h.kept (hquiet (by simp)) rfl rfl rfl hin.1 hne
    | enterCritRegion | longLockOfCriticalRegion => exact hopOf.elim
  | expiredSection =>
    obtain ⟨jiffies, hexpired⟩ := hop
    have hr : r = (expiredSection jiffies s.shared).1 := (Prod.mk.inj hexpired).1
    have hx : x = (expiredSection jiffies s.shared).2 := (Prod.mk.inj hexpired).2
    rcases h.expired hin hne jiffies with ⟨htype, hpid, hsem⟩ | ⟨hkill, hone⟩
    · rw [← hx] at htype hpid hsem
      exact h.kept (hquiet (by simp)) htype hpid hsem hin hne
    · rw [← hr] at hkill
      rw [← hx] at hone
      obtain ⟨k', hk'⟩ := (hrest r).2.1 (hkill ▸ hne)
      refine .inr ⟨hone, t, c, tr ++ [⟨.expiredSection, r⟩], hkill ▸ ⟨k', ?_⟩⟩
      rw [Pool.update_same, hk']
  | acquiredSection pid lockType =>
    obtain ⟨jiffies, rfl⟩ := hop
    have hgranted : devicePhase (s.thread t) = .granted := by
      rw [hbefore]
      cases c' <;> first | rfl | exact hopOf.elim
    have hnobody := h.nobody hgranted hne
    cases lockType with
    | longLockUnlock =>
      rcases Set.mem_insert_iff.mp hin with rfl | hold
      · exact .inl ⟨rfl, rfl⟩
      · exact absurd hold hnobody
    | noLock | shortLockUnlock => exact absurd hin hnobody
  | downTimeout =>
    rcases hop with ⟨rfl, rfl⟩ | ⟨rfl, hsem, rfl⟩
    · exact h.kept (hquiet (by simp)) rfl rfl rfl hin hne
    · rcases h.counting lnPID hin hne with ⟨htype, _⟩ | ⟨_, t', hsignal⟩
      · have hzero := h.taken htype
        omega
      · exact absurd hsignal (hok rfl t' lnPID)
  | killPid pid =>
    obtain rfl : x = s.shared := hop
    apply (h.counting lnPID hin.1 hne).imp id
    intro hcounted
    obtain ⟨hone, t', hsignal⟩ := hcounted
    refine ⟨hone, t', hsignal.update ?_⟩
    rintro rfl
    obtain ⟨_, _, _, hsame⟩ := hsignal
    rw [hcall] at hsame
    cases hsame
    exact hin.2 rfl

theorem CountRun.inv {ulnJiffiesTmOut : UInt64} {s : DevicePool} {counting : Set ℤ}
    (h : CountRun Considerate ulnJiffiesTmOut s counting) : CountInv s counting := by
  induction h with
  | initial =>
    exact ⟨.free rfl rfl rfl fun _ => rfl, fun _ _ _ _ h => (nomatch h), fun _ h => h.elim⟩
  | @start s counting t c _ hidle ih =>
    have hstart := program_own t c
    refine ih.update (ih.lock.same ?_) ?_ fun lnPID hin hne => ?_
    · rw [hidle]
      exact hstart.1.symm
    · rintro _ _ _ ⟨⟩
      exact hstart.2
    · refine ih.kept ?_ rfl rfl rfl hin hne
      rintro pid ⟨_, _, _, hsignal⟩
      rw [hidle] at hsignal
      cases hsignal
  | perform _ hcall hop hok ih => exact ih.perform hcall hop hok
  | @finish s counting t c tr a _ hret ih =>
    have hsub : countAtEnd counting t tr a ⊆ counting := by
      unfold countAtEnd
      split_ifs
      · exact Set.sdiff_subset
      · exact subset_rfl
    refine ih.update (ih.lock.same ?_) (fun _ _ _ h => by cases h) fun lnPID hin hne => ?_
    · rw [hret]
      rfl
    · refine ih.kept ?_ rfl rfl rfl (hsub hin) hne
      rintro pid ⟨_, _, _, hsignal⟩
      rw [hret] at hsignal
      cases hsignal

/-- As long as every signal is sent before the semaphore is taken again, and no long owner leaves
the region once it is marked, nobody else is in the region of a client that counts on its long lock.
Pid 0 is the idle task, which is no client. -/
theorem long_lock_kept {ulnJiffiesTmOut : UInt64} {s : DevicePool} {counting : Set ℤ}
    (h : CountRun Considerate ulnJiffiesTmOut s counting) {owner t : ℕ} (hpid : owner ≠ 0)
    (howner : (owner : ℤ) ∈ counting) (hother : t ≠ owner) : ¬ InRegion (s.thread t) := by
  intro ht
  have hinv := h.inv
  rcases hinv.counting owner howner (by omega) with ⟨htype, hrecorded⟩ | ⟨hone, _⟩
  · exact hother (hinv.lock.inRegion_owner htype hrecorded ht)
  · have hneutral := (hinv.free hone).2.2 t
    rw [ht] at hneutral
    cases hneutral

/-- Operations that one thread makes in a row, each of which meets `ok` in every pool. -/
theorem CountRun.performs {ok : DevicePool → (op : LockOp) → op.Res → Prop}
    {ulnJiffiesTmOut : UInt64} {p q : LockProgram ℤ} {l x : SCriticalRegionLock}
    {es : List (Event lockInterface)} (hreach : Reaches lockHandler p l es q x)
    (hok : ∀ e ∈ es, ∀ s, ok s e.op e.res) {s : DevicePool} {counting : Set ℤ}
    (h : CountRun ok ulnJiffiesTmOut s counting) (hshared : s.shared = l) {t : ℕ} {c : DeviceCall}
    {tr : List (Event lockInterface)} (hcall : s.thread t = .calling () c tr p) :
    CountRun ok ulnJiffiesTmOut (s.update x t (.calling () c (tr ++ es) q))
      (es.foldl (fun counting e => countAfter counting e.op) counting) := by
  induction hreach generalizing s counting tr with
  | start p l =>
    subst hshared
    rw [List.append_nil, s.update_eq_self hcall]
    exact h
  | step hop _ ih =>
    subst hshared
    have hrest := ih (fun e he => hok e (List.mem_cons_of_mem _ he))
      (h.perform hcall hop (hok _ List.mem_cons_self s)) rfl (Pool.update_same ..)
    rw [Pool.update_update, List.append_assoc] at hrest
    exact hrest

/-- Thread 1 locks the device, and thread 2 waits for it. -/
theorem long_lock_kept_locked : ∃ (s : DevicePool) (counting : Set ℤ),
    CountRun Considerate 0 s counting ∧ 1 ∈ counting ∧
    s.thread 2 = .calling () (.request 0)
      [⟨.enterSection 2, false⟩, ⟨.downTimeout, true⟩, ⟨.expiredSection, 0⟩]
      (lockCritRegionLoop (2 : ℕ) .shortLockUnlock 99 >>= fun nReturn =>
        if nReturn ≠ 0 then pure restartSys
        else leaveCritRegion (2 : ℕ) >>= fun _ => pure 0) ∧
    ¬ InRegion (s.thread 2) := by
  have hstart : CountRun Considerate 0 _ _ := .start (t := 1) .lockDevice .initial rfl
  have hlong := hstart.perform (t := 1) (r := false) (Pool.update_same ..) ⟨rfl, rfl⟩ trivial
  have hquiet : ∀ t lnPID, ¬ Signals (((devicePool 0).update (devicePool 0).shared 1
      (.calling () .lockDevice [] (DeviceCall.lockDevice.program (1 : ℕ)))).update
        (devicePool 0).shared 1 (.calling () .lockDevice ([] ++ [⟨.longSection (1 : ℕ), false⟩])
          (lockCritRegionPrivate (1 : ℕ) .longLockUnlock >>= fun _ => pure 0))) t lnPID := by
    rintro t lnPID ⟨c, tr, k, hcall⟩
    by_cases ht : t = 1
    · subst ht
      rw [Pool.update_same] at hcall
      cases hcall
    · rw [Pool.update_other _ _ ht, Pool.update_other _ _ ht] at hcall
      cases hcall
  have hdown := hlong.perform (t := 1) (r := false) (Pool.update_same ..)
    (.inr ⟨rfl, by decide, rfl⟩) fun _ => hquiet
  have hacquired := hdown.perform (t := 1) (r := ()) (Pool.update_same ..) ⟨0, rfl⟩ trivial
  have hlocked := hacquired.finish (t := 1) (a := 0) (Pool.update_same ..)
  have hwait : Reaches lockHandler (request (2 : ℕ) 0) ownedByOne
      [⟨.enterSection 2, false⟩, ⟨.downTimeout, true⟩, ⟨.expiredSection, 0⟩] _ ownedByOne :=
    .step rfl (.step (.inl ⟨rfl, rfl⟩) (.step ⟨0, rfl⟩ (.start ..)))
  have hwaiting := (hlocked.start (t := 2) (.request 0) rfl).performs hwait
    (by simp [Considerate]) rfl (Pool.update_same ..)
  have hcount : ((1 : ℕ) : ℤ) ∈ countAtEnd (countAfter (countAfter (countAfter ∅
      (.longSection (1 : ℕ))) .downTimeout) (.acquiredSection (1 : ℕ) .longLockUnlock)) (1 : ℕ)
        [⟨.longSection (1 : ℕ), false⟩, ⟨.downTimeout, false⟩,
          ⟨.acquiredSection (1 : ℕ) .longLockUnlock, ()⟩] 0 := by
    simp [countAtEnd, countAfter]
  exact ⟨_, _, hwaiting, hcount, rfl, long_lock_kept hwaiting one_ne_zero hcount (by decide)⟩

/-- Thread 2 marks the lock of thread 1, which leaves the region with result 0 and a lock that is
gone; thread 2 gets in while thread 1 still counts on it. -/
theorem marked_lock_lost : ∃ (s : DevicePool) (counting : Set ℤ),
    CountRun (fun _ _ _ => True) 0 s counting ∧ 1 ∈ counting ∧ InRegion (s.thread 2) := by
  have hmark : Reaches lockHandler (request (2 : ℕ) 0) ownedByOne
      [⟨.enterSection 2, false⟩, ⟨.downTimeout, true⟩, ⟨.expiredSection, 0⟩] _
      { ownedByOne with mNShouldBeFreed := true } :=
    .step rfl (.step (.inl ⟨rfl, rfl⟩) (.step ⟨1, rfl⟩ (.start ..)))
  have hleave : Reaches lockHandler (request (1 : ℕ) 0) { ownedByOne with mNShouldBeFreed := true }
      [⟨.enterSection 1, true⟩, ⟨.unlockSection 1 .shortLockUnlock, timeout⟩] (.ret 0)
      (initCritRegionLock 0) :=
    .step rfl (.step rfl (.start ..))
  have hwait : Reaches lockHandler
      (lockCritRegionLoop (2 : ℕ) .shortLockUnlock 99 >>= fun nReturn =>
        if nReturn ≠ 0 then pure restartSys else leaveCritRegion (2 : ℕ) >>= fun _ => pure 0)
      (initCritRegionLock 0) [⟨.downTimeout, false⟩, ⟨.acquiredSection 2 .shortLockUnlock, ()⟩]
      (leaveCritRegion (2 : ℕ) >>= fun _ => pure 0) _ :=
    .step (.inr ⟨rfl, by decide, rfl⟩) (.step ⟨0, rfl⟩ (.start ..))
  have hlock : Reaches lockHandler (longLockOfCriticalRegion (1 : ℕ)) (initCritRegionLock 0)
      [⟨.longSection 1, false⟩, ⟨.downTimeout, false⟩, ⟨.acquiredSection 1 .longLockUnlock, ()⟩]
      (.ret 0) ownedByOne :=
    .step ⟨rfl, rfl⟩ (.step (.inr ⟨rfl, by decide, rfl⟩) (.step ⟨0, rfl⟩ (.start ..)))
  have hlocking : CountRun (fun _ _ _ => True) 0 _ _ := .start (t := 1) .lockDevice .initial rfl
  have hlocked :=
    (hlocking.performs hlock (fun _ _ _ => trivial) rfl (Pool.update_same ..)).finish
      (Pool.update_same ..)
  have hwaiting := hlocked.start (t := 2) (.request 0) rfl
  have hmarked := hwaiting.performs hmark (fun _ _ _ => trivial) rfl (Pool.update_same ..)
  have hleaving := hmarked.start (t := 1) (.request 0) rfl
  have hleft :=
    (hleaving.performs hleave (fun _ _ _ => trivial) rfl (Pool.update_same ..)).finish
      (Pool.update_same ..)
  have hentered := hleft.performs (t := 2) hwait (fun _ _ _ => trivial) rfl rfl
  refine ⟨_, _, hentered, ?_, rfl⟩
  simp [countAfter, countAtEnd]

end Upciedev.SCriticalRegionLock
