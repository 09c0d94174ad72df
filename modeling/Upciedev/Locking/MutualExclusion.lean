import Upciedev.Model.CriticalRegionLock

/-!
# Mutual exclusion of the semaphore lock

The lock is free, granted to a thread that has not recorded itself yet, held by the
thread of a short pair, or kept by a long owner. One invariant ties the count, the
recorded owner and the flag of the region to the phases of all threads.
-/
namespace Upciedev.SCriticalRegionLock

open Foundations Program System

inductive Phase where
  | neutral
  | granted
  | inRegion
  deriving DecidableEq, Repr

/-- The phase of a call from its next operation: a leave is in the region until it has unlocked,
an enter is there once it has succeeded. -/
def callPhase : LockCall → LockProgram ℤ → Phase
  | .leaveCritRegion, .call _ _ => .inRegion
  | .enterCritRegion, .ret nReturn => if nReturn = 0 then .inRegion else .neutral
  | _, .call (.acquiredSection _ _) _ => .granted
  | _, _ => .neutral

def phase : Thread lockInterface LockCall Place ℤ → Phase
  | .idle .inPair => .inRegion
  | .idle .outside => .neutral
  | .calling _ c _ p => callPhase c p

/-- Between a successful enter and the section of its leave. -/
def InPair (u : Thread lockInterface LockCall Place ℤ) : Prop := phase u = .inRegion

def phaseAfter : (op : LockOp) → op.Res → Phase
  | .enterSection _, true => .inRegion
  | .downTimeout, false => .granted
  | .acquiredSection _ .shortLockUnlock, _ => .inRegion
  | _, _ => .neutral

/-- The operations of each call, made by thread `t` on its own behalf. -/
def OpOf (t : ℕ) : LockCall → LockOp → Prop
  | .enterCritRegion, .enterSection lnPID => lnPID = t
  | .enterCritRegion, .acquiredSection lnPID lockType => lnPID = t ∧ lockType = .shortLockUnlock
  | .enterCritRegion, .downTimeout | .enterCritRegion, .expiredSection => True
  | .enterCritRegion, .killPid _ => True
  | .longLockOfCriticalRegion, .longSection lnPID => lnPID = t
  | .longLockOfCriticalRegion, .acquiredSection lnPID lockType =>
      lnPID = t ∧ lockType = .longLockUnlock
  | .longLockOfCriticalRegion, .downTimeout | .longLockOfCriticalRegion, .expiredSection => True
  | .longLockOfCriticalRegion, .killPid _ => True
  | .leaveCritRegion, .unlockSection lnPID nUnlockType =>
      lnPID = t ∧ nUnlockType = .shortLockUnlock
  | .unlockLongCritRegion, .unlockSection lnPID nUnlockType =>
      lnPID = t ∧ nUnlockType = .longLockUnlock
  | _, _ => False

/-- The rest of a call makes operations of that call, and its phases follow them. -/
def Follows (t : ℕ) (c : LockCall) : LockProgram ℤ → Prop
  | .ret _ => True
  | .call op k => OpOf t c op ∧ ∀ r, callPhase c (k r) = phaseAfter op r ∧ Follows t c (k r)

/-- The calls that wait for the semaphore, and how they take it. -/
def Waits (c : LockCall) (lockType : SemLockType) : Prop :=
  c = .enterCritRegion ∧ lockType = .shortLockUnlock ∨
    c = .longLockOfCriticalRegion ∧ lockType = .longLockUnlock

/-- The wait for the semaphore, in front of a program that ends without further operations. -/
theorem lockCritRegionLoop_follows {t : ℕ} {c : LockCall} {lockType : SemLockType}
    (hc : Waits c lockType) {g : ℤ → ℤ} (htime : callPhase c (.ret (g eTime)) = .neutral)
    (hdone : callPhase c (.ret (g 0)) = phaseAfter (.acquiredSection t lockType) ()) (n : ℕ) :
    Follows t c (lockCritRegionLoop t lockType n >>= fun a => .ret (g a)) ∧
      callPhase c (lockCritRegionLoop t lockType n >>= fun a => .ret (g a)) = .neutral := by
  have hops : OpOf t c .downTimeout ∧ OpOf t c .expiredSection ∧ (∀ pid, OpOf t c (.killPid pid)) ∧
      OpOf t c (.acquiredSection t lockType) := by
    rcases hc with ⟨rfl, rfl⟩ | ⟨rfl, rfl⟩ <;> simp [OpOf]
  have hneutral (op : LockOp) (k : op.Res → LockProgram ℤ)
      (hop : ∀ pid ty, op ≠ .acquiredSection pid ty) : callPhase c (.call op k) = .neutral := by
    rcases hc with ⟨rfl, rfl⟩ | ⟨rfl, rfl⟩ <;> cases op <;> simp_all [callPhase]
  have hgranted (k : Unit → LockProgram ℤ) :
      callPhase c (.call (.acquiredSection t lockType) k) = .granted := by
    rcases hc with ⟨rfl, rfl⟩ | ⟨rfl, rfl⟩ <;> rfl
  induction n with
  | zero => exact ⟨trivial, htime⟩
  | succ n ih =>
    simp only [lockCritRegionLoop, performLock, perform_eq, call_bind, ret_bind]
    refine ⟨⟨hops.1, ?_⟩, hneutral _ _ (by simp)⟩
    rintro (_ | _)
    · refine ⟨hgranted _, hops.2.2.2, ?_⟩
      exact fun _ => ⟨hdone, trivial⟩
    · refine ⟨hneutral _ _ (by simp), hops.2.1, fun pid => ?_⟩
      by_cases hpid : pid = 0
      · subst hpid
        exact ⟨ih.2, ih.1⟩
      · simp only [ne_eq, hpid, not_false_eq_true, if_true]
        exact ⟨hneutral _ _ (by simp), hops.2.2.1 pid, fun _ => ⟨ih.2, ih.1⟩⟩

theorem program_follows (t : ℕ) (c : LockCall) : Follows t c (c.program t) := by
  cases c with
  | enterCritRegion =>
    have hloop := lockCritRegionLoop_follows (t := t) (g := id) (.inl ⟨rfl, rfl⟩) rfl rfl 100
    change Follows t _ (_ >>= ret) ∧ callPhase _ (_ >>= ret) = _ at hloop
    rw [bind_ret] at hloop
    refine ⟨rfl, ?_⟩
    rintro (_ | _)
    · exact ⟨hloop.2, hloop.1⟩
    · exact ⟨rfl, trivial⟩
  | leaveCritRegion => exact ⟨⟨rfl, rfl⟩, fun _ => ⟨rfl, trivial⟩⟩
  | longLockOfCriticalRegion =>
    have hloop :=
      lockCritRegionLoop_follows (t := t) (g := fun _ => 0) (.inr ⟨rfl, rfl⟩) rfl rfl 100
    refine ⟨rfl, ?_⟩
    rintro (_ | _)
    · exact ⟨hloop.2, hloop.1⟩
    · exact ⟨rfl, trivial⟩
  | unlockLongCritRegion => exact ⟨⟨rfl, rfl⟩, fun _ => ⟨rfl, trivial⟩⟩

/-- What the lock records, and which phases go with it. -/
inductive LockInv (l : SCriticalRegionLock) (ph : ℕ → Phase) : Prop
  | free (hsem : l.mSemaphore = 1) (htype : l.mNLockingType = .noLock) (hpid : l.mLnPID = -1)
      (hothers : ∀ t, ph t = .neutral)
  | pending (owner : ℕ) (hsem : l.mSemaphore = 0) (htype : l.mNLockingType = .noLock)
      (hpid : l.mLnPID = -1) (howner : ph owner = .granted)
      (hothers : ∀ t, t ≠ owner → ph t = .neutral)
  | short (owner : ℕ) (hsem : l.mSemaphore = 0) (htype : l.mNLockingType = .shortLockUnlock)
      (hpid : l.mLnPID = owner) (howner : ph owner = .inRegion)
      (hothers : ∀ t, t ≠ owner → ph t = .neutral)
  | long (owner : ℕ) (hsem : l.mSemaphore = 0) (htype : l.mNLockingType = .longLockUnlock)
      (hpid : l.mLnPID = owner) (howner : ph owner ≠ .granted)
      (hregion : ph owner = .inRegion → l.mNInCriticalRegion = true)
      (hothers : ∀ t, t ≠ owner → ph t = .neutral)

def phaseBefore : LockCall → LockOp → Phase
  | .leaveCritRegion, _ => .inRegion
  | _, .acquiredSection _ _ => .granted
  | _, _ => .neutral

section
variable {l : SCriticalRegionLock} {ph : ℕ → Phase} {t : ℕ}

theorem LockInv.same (h : LockInv l ph) {x : Phase} (ht : ph t = x) :
    LockInv l (Function.update ph t x) := by
  rwa [← ht, Function.update_eq_self]

theorem update_neutral {owner : ℕ} (hothers : ∀ u, u ≠ owner → ph u = .neutral) (u : ℕ) :
    Function.update ph owner .neutral u = .neutral := by
  rcases eq_or_ne u owner with rfl | hne
  · exact Function.update_self ..
  · rw [Function.update_of_ne hne]
    exact hothers u hne

theorem update_others {owner : ℕ} {x : Phase} (hothers : ∀ u, u ≠ owner → ph u = .neutral) (u : ℕ)
    (hne : u ≠ owner) : Function.update ph owner x u = .neutral := by
  rw [Function.update_of_ne hne]
  exact hothers u hne

theorem LockInv.enter (h : LockInv l ph) (ht : ph t = .neutral) :
    LockInv (enterSection t l).2
      (Function.update ph t (phaseAfter (.enterSection t) (enterSection t l).1)) := by
  unfold enterSection
  split_ifs with howner
  · cases h with
    | free _ _ hpid | pending _ _ _ hpid => omega
    | short owner _ _ hpid hown =>
      obtain rfl : t = owner := by omega
      simp [ht] at hown
    | long owner hsem htype hpid hown hregion hothers =>
      obtain rfl : t = owner := by omega
      exact .long t hsem htype hpid (by simp [phaseAfter]) (fun _ => rfl) (update_others hothers)
  · exact h.same ht

theorem LockInv.unlocked {owner : ℕ} (hsem : l.mSemaphore = 0)
    (hothers : ∀ u, u ≠ owner → ph u = .neutral) :
    LockInv l.unlockSemaphore (Function.update ph owner .neutral) :=
  .free (by simp [unlockSemaphore, up, hsem]) rfl rfl (update_neutral hothers)

/-- A thread in the region leaves it; the lock is freed unless a long owner keeps it. -/
theorem LockInv.leave (h : LockInv l ph) (ht : ph t = .inRegion) :
    LockInv (unlockSection t .shortLockUnlock l).2 (Function.update ph t .neutral) := by
  have howner {owner : ℕ} (hothers : ∀ u, u ≠ owner → ph u = .neutral) : t = owner := by
    by_contra hne
    simp [hothers t hne] at ht
  cases h with
  | free _ _ _ hothers => simp [hothers t] at ht
  | pending owner _ _ _ hown hothers =>
    obtain rfl := howner hothers
    simp [ht] at hown
  | short owner hsem htype hpid hown hothers =>
    obtain rfl := howner hothers
    simpa [unlockSection, htype] using LockInv.unlocked hsem hothers
  | long owner hsem htype hpid hown hregion hothers =>
    obtain rfl := howner hothers
    simp only [unlockSection, htype, reduceCtorEq, if_false]
    split_ifs
    · exact LockInv.unlocked hsem hothers
    · exact .long t hsem rfl hpid (by simp) (by simp) (update_others hothers)

theorem LockInv.unlockLong (h : LockInv l ph) (ht : ph t = .neutral) :
    LockInv (unlockSection t .longLockUnlock l).2 (Function.update ph t .neutral) := by
  simp only [unlockSection]
  split_ifs with hpid'
  · cases h with
    | free _ _ hpid | pending _ _ _ hpid => omega
    | short owner _ _ hpid hown =>
      obtain rfl : t = owner := by omega
      simp [ht] at hown
    | long owner hsem _ hpid _ _ hothers =>
      obtain rfl : t = owner := by omega
      exact LockInv.unlocked hsem hothers
  · exact h.same ht

theorem LockInv.expired (h : LockInv l ph) (ht : ph t = .neutral) (jiffies : UInt64) :
    LockInv (expiredSection jiffies l).2 (Function.update ph t .neutral) := by
  refine LockInv.same ?_ ht
  unfold expiredSection
  split_ifs with hlong hcritical
  · cases h with
    | free _ htype | pending _ _ htype | short _ _ htype => simp [htype] at hlong
    | long owner hsem htype hpid hown hregion hothers =>
      exact .long owner hsem htype hpid hown hregion hothers
  · cases h with
    | free _ htype | pending _ _ htype | short _ _ htype => simp [htype] at hlong
    | long owner hsem htype hpid hown hregion hothers =>
      refine .free (by simp [up, hsem]) rfl rfl fun u => ?_
      rcases eq_or_ne u owner with rfl | hne
      · cases hphase : ph u with
        | neutral => rfl
        | granted => exact absurd hphase hown
        | inRegion => exact absurd (hregion hphase) hcritical
      · exact hothers u hne
  · exact h

theorem LockInv.acquired (h : LockInv l ph) (ht : ph t = .granted) {lockType : SemLockType}
    (htype : lockType = .shortLockUnlock ∨ lockType = .longLockUnlock) (jiffies : UInt64) :
    LockInv (acquiredSection t lockType jiffies l)
      (Function.update ph t (phaseAfter (.acquiredSection t lockType) ())) := by
  have howner {owner : ℕ} (hothers : ∀ u, u ≠ owner → ph u = .neutral) : t = owner := by
    by_contra hne
    simp [hothers t hne] at ht
  cases h with
  | free _ _ _ hothers => simp [hothers t] at ht
  | short owner _ _ _ hown hothers | long owner _ _ _ hown _ hothers =>
    obtain rfl := howner hothers
    simp [ht] at hown
  | pending owner hsem _ _ _ hothers =>
    obtain rfl := howner hothers
    rcases htype with rfl | rfl
    · exact .short t hsem rfl rfl (by simp [phaseAfter]) (update_others hothers)
    · exact .long t hsem rfl rfl (by simp [phaseAfter]) (fun _ => rfl) (update_others hothers)

theorem LockInv.down (h : LockInv l ph) (hsem : 0 < l.mSemaphore) :
    LockInv { l with mSemaphore := l.mSemaphore - 1 } (Function.update ph t .granted) := by
  cases h with
  | free hone htype hpid hothers =>
    exact .pending t (by simp [hone]) htype hpid (by simp) (update_others fun u _ => hothers u)
  | pending _ hzero | short _ hzero | long _ hzero => omega

end

theorem lockInv_step {l l' : SCriticalRegionLock} {ph : ℕ → Phase} {t : ℕ} {c : LockCall}
    {op : LockOp} {r : op.Res} (hinv : LockInv l ph) (hop : OpOf t c op)
    (hbefore : ph t = phaseBefore c op) (hstep : lockHandler op l r l') :
    LockInv l' (Function.update ph t (phaseAfter op r)) := by
  cases op with
  | enterSection lnPID =>
    obtain ⟨rfl, rfl⟩ := Prod.mk.inj hstep
    cases c with
    | enterCritRegion =>
      obtain rfl : lnPID = t := hop
      exact hinv.enter hbefore
    | _ => exact hop.elim
  | longSection lnPID =>
    obtain ⟨-, rfl⟩ := hstep
    cases c with
    | longLockOfCriticalRegion => exact hinv.same hbefore
    | _ => exact hop.elim
  | unlockSection lnPID nUnlockType =>
    obtain ⟨rfl, rfl⟩ := Prod.mk.inj hstep
    cases c with
    | leaveCritRegion =>
      obtain ⟨rfl, rfl⟩ := hop
      exact hinv.leave hbefore
    | unlockLongCritRegion =>
      obtain ⟨rfl, rfl⟩ := hop
      exact hinv.unlockLong hbefore
    | _ => exact hop.elim
  | expiredSection =>
    obtain ⟨jiffies, hnext⟩ := hstep
    obtain ⟨rfl, rfl⟩ := Prod.mk.inj hnext
    cases c with
    | enterCritRegion | longLockOfCriticalRegion => exact hinv.expired hbefore jiffies
    | _ => exact hop.elim
  | acquiredSection lnPID lockType =>
    obtain ⟨jiffies, rfl⟩ := hstep
    cases c with
    | enterCritRegion =>
      obtain ⟨rfl, rfl⟩ := hop
      exact hinv.acquired hbefore (.inl rfl) jiffies
    | longLockOfCriticalRegion =>
      obtain ⟨rfl, rfl⟩ := hop
      exact hinv.acquired hbefore (.inr rfl) jiffies
    | _ => exact hop.elim
  | downTimeout =>
    rcases hstep with ⟨rfl, rfl⟩ | ⟨rfl, hsem, rfl⟩
    · cases c with
      | enterCritRegion | longLockOfCriticalRegion => exact hinv.same hbefore
      | _ => exact hop.elim
    · exact hinv.down hsem
  | killPid lnPidToKill =>
    obtain rfl : l' = l := hstep
    cases c with
    | enterCritRegion | longLockOfCriticalRegion => exact hinv.same hbefore
    | _ => exact hop.elim

/-- A call that the client allows, with a rest that belongs to it. -/
def ThreadInv (t : ℕ) : Thread lockInterface LockCall Place ℤ → Prop
  | .idle _ => True
  | .calling l c _ p => lockClient.allowed l c ∧ Follows t c p

structure PoolInv (s : LockPool) : Prop where
  lock : LockInv s.shared fun t => phase (s.thread t)
  thread t : ThreadInv t (s.thread t)

theorem poolInv_initial (ulnJiffiesTmOut : UInt64) : PoolInv (initialPool ulnJiffiesTmOut) where
  lock := .free rfl rfl rfl fun _ => rfl
  thread _ := trivial

theorem callPhase_call (c : LockCall) (op : LockOp) (k : op.Res → LockProgram ℤ) :
    callPhase c (.call op k) = phaseBefore c op := by
  cases c <;> cases op <;> rfl

/-- Phases before the first operation of a call are those of the idle thread. -/
theorem callPhase_start {l : Place} {c : LockCall} (h : lockClient.allowed l c) (t : ℕ) :
    callPhase c (c.program t) = phase (.idle l) := by
  cases l with
  | outside =>
    cases c with
    | leaveCritRegion => exact absurd rfl h
    | _ => rfl
  | inPair =>
    obtain rfl : c = .leaveCritRegion := h
    rfl

/-- The phase after the last operation is that of the thread after the call. -/
theorem callPhase_ret {l : Place} {c : LockCall} (h : lockClient.allowed l c) (nReturn : ℤ) :
    callPhase c (.ret nReturn) = phase (.idle (lockClient.next l c nReturn)) := by
  cases c with
  | enterCritRegion =>
    simp only [callPhase, lockClient]
    split_ifs <;> rfl
  | leaveCritRegion => rfl
  | longLockOfCriticalRegion | unlockLongCritRegion =>
    cases l with
    | outside => rfl
    | inPair => exact absurd h (by simp [lockClient])

theorem phase_update (s : LockPool) (x : SCriticalRegionLock) (t : ℕ)
    (u : Thread lockInterface LockCall Place ℤ) :
    (fun t' => phase ((s.update x t u).thread t')) =
      Function.update (fun t' => phase (s.thread t')) t (phase u) := by
  funext t'
  rcases eq_or_ne t' t with rfl | hne
  · simp
  · simp [hne]

theorem PoolInv.update {s : LockPool} (h : PoolInv s) {x : SCriticalRegionLock} {t : ℕ}
    {u : Thread lockInterface LockCall Place ℤ}
    (hlock : LockInv x (Function.update (fun t' => phase (s.thread t')) t (phase u)))
    (hu : ThreadInv t u) : PoolInv (s.update x t u) where
  lock := by rwa [Pool.update_shared, phase_update]
  thread t' := by
    rcases eq_or_ne t' t with rfl | hne
    · rwa [Pool.update_same]
    · rw [Pool.update_other _ _ hne]
      exact h.thread t'

theorem poolInv_step {s s' : LockPool} (h : PoolInv s) (hs : lockSystem.Step s s') :
    PoolInv s' := by
  cases hs with
  | @start t l c hidle hallowed =>
    refine h.update (h.lock.same ?_) ⟨hallowed, program_follows t c⟩
    rw [hidle]
    exact (callPhase_start hallowed t).symm
  | @perform t l c tr op k r x hcall hop =>
    have ht := h.thread t
    rw [hcall] at ht
    obtain ⟨hallowed, hops, hrest⟩ := ht
    refine h.update ?_ ⟨hallowed, (hrest r).2⟩
    have hbefore : phase (s.thread t) = phaseBefore c op := by
      rw [hcall]; exact callPhase_call c op k
    have hafter : phase (.calling l c (tr ++ [⟨op, r⟩]) (k r)) = phaseAfter op r := (hrest r).1
    rw [hafter]
    exact lockInv_step h.lock hops hbefore hop
  | @finish t l c tr nReturn hret =>
    have ht := h.thread t
    rw [hret] at ht
    refine h.update (h.lock.same ?_) trivial
    rw [hret]
    exact callPhase_ret ht.1 nReturn

theorem poolInv_steps {ulnJiffiesTmOut : UInt64} {s : LockPool}
    (h : lockSystem.Steps (initialPool ulnJiffiesTmOut) s) : PoolInv s :=
  h.invariant (fun _ _ => poolInv_step) (poolInv_initial _)

section
variable {l : SCriticalRegionLock} {ph : ℕ → Phase}

theorem LockInv.semaphore_le (h : LockInv l ph) : l.mSemaphore ≤ 1 := by
  cases h <;> omega

theorem inRegion_of_others {owner t : ℕ} (hothers : ∀ u, u ≠ owner → ph u = .neutral)
    (ht : ph t = .inRegion) : t = owner := by
  by_contra hne
  simp [hothers t hne] at ht

theorem LockInv.inRegion_unique (h : LockInv l ph) {t t' : ℕ} (ht : ph t = .inRegion)
    (ht' : ph t' = .inRegion) : t = t' := by
  cases h with
  | free _ _ _ hothers => simp [hothers t] at ht
  | pending owner _ _ _ _ hothers | short owner _ _ _ _ hothers | long owner _ _ _ _ _ hothers =>
    rw [inRegion_of_others hothers ht, inRegion_of_others hothers ht']

theorem LockInv.inRegion_owner (h : LockInv l ph) (htype : l.mNLockingType = .longLockUnlock)
    {t t' : ℕ} (hpid : l.mLnPID = t) (ht' : ph t' = .inRegion) : t' = t := by
  cases h with
  | free _ hno | pending _ _ hno | short _ _ hno => simp [hno] at htype
  | long owner _ _ hown _ _ hothers =>
    have hsame : owner = t := by omega
    rw [inRegion_of_others hothers ht', hsame]

theorem LockInv.forced_release (h : LockInv l ph) {jiffies : UInt64}
    (hup : (expiredSection jiffies l).2.mSemaphore ≠ l.mSemaphore) {t : ℕ} (hpid : l.mLnPID = t) :
    ph t ≠ .inRegion := by
  unfold expiredSection at hup
  split_ifs at hup with hlong hcritical
  · exact absurd rfl hup
  · cases h with
    | free _ hno | pending _ _ hno | short _ _ hno => simp [hno] at hlong
    | long owner _ _ hown _ hregion _ =>
      obtain rfl : owner = t := by omega
      exact fun hphase => hcritical (hregion hphase)
  · exact absurd rfl hup

end

/-- In every interleaving of any number of threads the semaphore count is at most one, at most one
thread is inside a pair, a long owner shares the lock with no thread inside a pair, and a waiter
that takes the lock from its long owner finds that owner outside its pairs. -/
theorem semaphore_lock_exclusive {ulnJiffiesTmOut : UInt64} {s : LockPool}
    (h : lockSystem.Steps (initialPool ulnJiffiesTmOut) s) :
    s.shared.mSemaphore ≤ 1 ∧
    (∀ t t', InPair (s.thread t) → InPair (s.thread t') → t = t') ∧
    (∀ t t' : ℕ, s.shared.mNLockingType = .longLockUnlock → s.shared.mLnPID = t →
      InPair (s.thread t') → t' = t) ∧
    ∀ (jiffies : UInt64) (t : ℕ),
      (expiredSection jiffies s.shared).2.mSemaphore ≠ s.shared.mSemaphore →
      s.shared.mLnPID = t → ¬ InPair (s.thread t) := by
  have hinv := (poolInv_steps h).lock
  exact ⟨hinv.semaphore_le, fun t t' => hinv.inRegion_unique,
    fun t t' htype hpid => hinv.inRegion_owner htype hpid, fun jiffies t hup hpid =>
      hinv.forced_release hup hpid⟩

def ownedByOne : SCriticalRegionLock :=
  { mSemaphore := 0, mLnPID := 1, mNInCriticalRegion := true, mNShouldBeFreed := false
    mNLockingType := .longLockUnlock, mUlnJiffiesTmOut := 0, mUllnStartJiffi := 0 }

theorem longLock_ownedByOne :
    ∃ tr, (LockCall.longLockOfCriticalRegion.program (1 : ℕ)).Run lockHandler
    (initCritRegionLock 0) tr 0 ownedByOne :=
  ⟨_, false, _, _, ⟨rfl, rfl⟩, rfl, false, _, _, .inr ⟨rfl, by decide, rfl⟩, rfl, (), _, _,
    ⟨0, rfl⟩, rfl, rfl, rfl, rfl⟩

theorem semaphore_lock_exclusive_longOwner : ∃ s, lockSystem.Steps (initialPool 0) s ∧
    s.shared = ownedByOne ∧ InPair (s.thread 1) ∧ s.shared.mSemaphore ≤ 1 ∧
    (∀ t' : ℕ, InPair (s.thread t') → t' = 1) ∧
    ∀ jiffies, (expiredSection jiffies s.shared).2.mSemaphore = s.shared.mSemaphore := by
  have henter : ∃ tr, (LockCall.enterCritRegion.program 1).Run lockHandler ownedByOne tr 0
      ownedByOne := ⟨_, true, _, _, rfl, rfl, rfl, rfl, rfl⟩
  obtain ⟨_, hlong⟩ := longLock_ownedByOne
  obtain ⟨_, henter⟩ := henter
  have howned : lockSystem.Steps (initialPool 0)
      ((initialPool 0).update ownedByOne 1 (.idle .outside)) :=
    Steps.run (S := lockSystem) (s := initialPool 0) (t := 1) (c := .longLockOfCriticalRegion) rfl
      (by simp [lockSystem, lockClient]) hlong
  have hentered := Steps.run (S := lockSystem)
    (s := (initialPool 0).update ownedByOne 1 (.idle .outside)) (t := 1) (c := .enterCritRegion)
    (Pool.update_same ..) (by simp [lockSystem, lockClient]) henter
  have hsteps := howned.trans hentered
  obtain ⟨hsem, hunique, -, hforced⟩ := semaphore_lock_exclusive hsteps
  have hpair : InPair ((((initialPool 0).update ownedByOne 1 (.idle .outside)).update ownedByOne 1
      (.idle (lockSystem.client.next .outside .enterCritRegion 0))).thread 1) := rfl
  refine ⟨_, hsteps, rfl, hpair, hsem, fun t' ht' => hunique t' 1 ht' hpair, fun jiffies => ?_⟩
  by_contra hup
  exact hforced jiffies 1 hup rfl hpair

end Upciedev.SCriticalRegionLock
