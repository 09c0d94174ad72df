import Upciedev.Locking.LongLock

/-!
# What the result of a lock call says

Threads call the four functions of the semaphore lock in any order, also where they hold nothing.
The result of an enter tells whether the thread owns the lock now; that of a long lock does not,
since the result of its wait is dropped.
-/
namespace Upciedev.SCriticalRegionLock

open Foundations Program System

/-- Every call is allowed at any time; a thread counts its open pairs. -/
def anyClient : Client LockCall ℕ ℤ where
  allowed _ _ := True
  next
    | depth, .enterCritRegion, nReturn => if nReturn = 0 then depth + 1 else depth
    | depth, .leaveCritRegion, _ => depth - 1
    | depth, _, _ => depth

def anySystem : System lockInterface LockCall ℕ ℤ SCriticalRegionLock ℕ where
  handler := lockHandler
  client := anyClient
  program lnPID c := c.program lnPID

abbrev AnyPool := Pool lockInterface LockCall ℕ ℤ SCriticalRegionLock ℕ
abbrev AnyThread := Thread lockInterface LockCall ℕ ℤ

def anyPool (ulnJiffiesTmOut : UInt64) : AnyPool :=
  { shared := initCritRegionLock ulnJiffiesTmOut, thread := fun _ => .idle 0 }

/-- A free lock, one whose semaphore is taken by a thread that has not recorded itself yet, or an
owned one. Only a long owner inside the region is marked. -/
inductive Counted (l : SCriticalRegionLock) (granted : Set ℕ) : Prop
  | free (hsem : l.mSemaphore = 1) (htype : l.mNLockingType = .noLock) (hpid : l.mLnPID = -1)
      (hnone : granted = ∅)
  | pending (taker : ℕ) (hsem : l.mSemaphore = 0) (htype : l.mNLockingType = .noLock)
      (hpid : l.mLnPID = -1) (htaker : granted = {taker})
  | owned (hsem : l.mSemaphore = 0) (htype : l.mNLockingType ≠ .noLock) (hnone : granted = ∅)

structure Settled (l : SCriticalRegionLock) (granted : Set ℕ) : Prop where
  counted : Counted l granted
  marked : l.mNShouldBeFreed = true → l.mNLockingType = .longLockUnlock ∧
    l.mNInCriticalRegion = true

/-- The threads that have the semaphore and are not recorded, after an operation of thread `t`. -/
def grantedAfter (t : ℕ) (granted : Set ℕ) : (op : LockOp) → op.Res → Set ℕ
  | .downTimeout, false => insert t granted
  | .acquiredSection _ _, _ => granted \ {t}
  | _, _ => granted

section
variable {l l' : SCriticalRegionLock} {granted : Set ℕ} {t : ℕ}

theorem Counted.congr (h : Counted l granted) (hsem : l'.mSemaphore = l.mSemaphore)
    (htype : l'.mNLockingType = l.mNLockingType) (hpid : l'.mLnPID = l.mLnPID) :
    Counted l' granted := by
  cases h with
  | free hone hno hnobody hnone =>
      exact .free (hsem.trans hone) (htype.trans hno) (hpid.trans hnobody) hnone
  | pending taker hzero hno hnobody htaker =>
    exact .pending taker (hsem.trans hzero) (htype.trans hno) (hpid.trans hnobody) htaker
  | owned hzero hown hnone => exact .owned (hsem.trans hzero) (htype ▸ hown) hnone

theorem Counted.of_type (h : Counted l granted) (htype : l.mNLockingType ≠ .noLock) :
    l.mSemaphore = 0 ∧ granted = ∅ := by
  cases h with
  | free _ hno | pending _ _ hno => exact absurd hno htype
  | owned hzero _ hnone => exact ⟨hzero, hnone⟩

theorem Counted.of_pid (h : Counted l granted) (hpid : l.mLnPID = t) :
    l.mSemaphore = 0 ∧ l.mNLockingType ≠ .noLock := by
  cases h with
  | free _ _ hnobody | pending _ _ _ hnobody => omega
  | owned hzero hown => exact ⟨hzero, hown⟩

theorem Settled.unlocked (h : Settled l granted) (htype : l.mNLockingType ≠ .noLock) :
    Settled l.unlockSemaphore granted := by
  obtain ⟨hzero, hnone⟩ := h.counted.of_type htype
  exact ⟨.free (by simp [unlockSemaphore, up, hzero]) rfl rfl hnone, fun hmark =>
    absurd hmark Bool.false_ne_true⟩

theorem Settled.step (h : Settled l granted) {c : LockCall} {op : LockOp} {r : op.Res}
    (hop : OpOf t c op) (htaken : ∀ pid ty, op = .acquiredSection pid ty → t ∈ granted)
    (hstep : lockHandler op l r l') :
    Settled l' (grantedAfter t granted op r) := by
  cases op with
  | enterSection pid =>
    obtain rfl : l' = (enterSection pid l).2 := congrArg Prod.snd hstep
    obtain ⟨htype, hpid, hsem⟩ := enterSection_kept pid l
    refine ⟨h.counted.congr hsem htype hpid, ?_⟩
    unfold enterSection
    split_ifs
    · exact fun hmarked => ⟨(h.marked hmarked).1, rfl⟩
    · exact h.marked
  | longSection pid =>
    obtain ⟨-, rfl⟩ := hstep
    exact h
  | unlockSection pid nUnlockType =>
    obtain rfl : l' = (unlockSection pid nUnlockType l).2 := congrArg Prod.snd hstep
    have hkept : nUnlockType ≠ .noLock := by
      rintro rfl
      cases c <;> simp [OpOf] at hop
    unfold unlockSection
    cases nUnlockType with
    | noLock => exact absurd rfl hkept
    | shortLockUnlock =>
      dsimp only
      split_ifs with hshort hmarked
      · exact h.unlocked (by simp [hshort])
      · exact h.unlocked (by simp [(h.marked hmarked).1])
      · exact ⟨h.counted.congr rfl rfl rfl, fun hmark => absurd hmark hmarked⟩
    | longLockUnlock =>
      dsimp only
      split_ifs with howner
      · have hown : l.mLnPID = t := by
          cases c <;> simp [OpOf] at hop
          rw [howner, hop]
        exact h.unlocked (h.counted.of_pid hown).2
      · exact h
  | expiredSection =>
    obtain ⟨jiffies, hexpired⟩ := hstep
    obtain rfl : l' = (expiredSection jiffies l).2 := congrArg Prod.snd hexpired
    unfold expiredSection
    split_ifs with hlong hcritical
    · exact ⟨h.counted.congr rfl rfl rfl, fun _ => ⟨hlong.1, hcritical⟩⟩
    · obtain ⟨hzero, hnone⟩ := h.counted.of_type (by simp [hlong.1])
      refine ⟨.free (by simp [up, hzero]) rfl rfl hnone, fun hmark => ?_⟩
      exact absurd (h.marked hmark).2 hcritical
    · exact h
  | acquiredSection pid lockType =>
    obtain ⟨jiffies, rfl⟩ := hstep
    have hlocks : lockType ≠ .noLock := by
      rintro rfl
      cases c <;> simp [OpOf] at hop
    have htaker := htaken pid lockType rfl
    cases h.counted with
    | free _ _ _ hnone | owned _ _ hnone =>
      rw [hnone] at htaker
      exact htaker.elim
    | pending taker hzero _ _ hthis =>
      refine ⟨.owned hzero hlocks ?_, fun hmark => absurd hmark Bool.false_ne_true⟩
      rw [hthis] at htaker
      obtain rfl : t = taker := htaker
      rw [grantedAfter, hthis, Set.sdiff_self]
  | downTimeout =>
    rcases hstep with ⟨rfl, rfl⟩ | ⟨rfl, hpos, rfl⟩
    · exact h
    · cases h.counted with
      | free hone htype hpid hnone =>
        refine ⟨.pending t (by simp [hone]) htype hpid ?_, h.marked⟩
        rw [grantedAfter, hnone, insert_empty_eq]
      | pending _ hzero | owned hzero => omega
  | killPid pid =>
    obtain rfl : l' = l := hstep
    exact h

end

def expirationOf : (op : LockOp) → op.Res → ℕ
  | .downTimeout, expired => expired.toNat
  | _, _ => 0

def expirations (tr : List (Event lockInterface)) : ℕ :=
  (tr.map fun e => expirationOf e.op e.res).sum

@[simp] theorem expirations_nil : expirations [] = 0 := rfl

@[simp] theorem expirations_cons (e : Event lockInterface) (tr : List (Event lockInterface)) :
    expirations (e :: tr) = expirationOf e.op e.res + expirations tr := rfl

@[simp] theorem expirations_append (tr tr' : List (Event lockInterface)) :
    expirations (tr ++ tr') = expirations tr + expirations tr' := by
  simp [expirations]

/-- A wait of `n` rounds ends with the semaphore or after `n` expirations. -/
inductive WaitEnd (t : ℕ) (lockType : SemLockType) (n : ℕ) : List (Event lockInterface) → ℤ → Prop
  | acquired (tr : List (Event lockInterface)) (hlt : expirations tr < n) :
      WaitEnd t lockType n (tr ++ [⟨.acquiredSection t lockType, ()⟩]) 0
  | exhausted (tr : List (Event lockInterface)) (hall : expirations tr = n)
      (hnone : ∀ pid ty, (⟨.acquiredSection pid ty, ()⟩ : Event lockInterface) ∉ tr) :
      WaitEnd t lockType n tr eTime

/-- The ends of the two calls that can wait. -/
inductive CallEnd (t : ℕ) : LockCall → List (Event lockInterface) → ℤ → Prop
  | entered : CallEnd t .enterCritRegion [⟨.enterSection t, true⟩] 0
  | enterWaited {tr : List (Event lockInterface)} {nReturn : ℤ}
      (h : WaitEnd t .shortLockUnlock 100 tr nReturn) :
      CallEnd t .enterCritRegion (⟨.enterSection t, false⟩ :: tr) nReturn
  | already : CallEnd t .longLockOfCriticalRegion [⟨.longSection t, true⟩] alreadyLocked
  | longWaited {tr : List (Event lockInterface)} {nReturn : ℤ}
      (h : WaitEnd t .longLockUnlock 100 tr nReturn) :
      CallEnd t .longLockOfCriticalRegion (⟨.longSection t, false⟩ :: tr) 0

theorem WaitEnd.cons {t : ℕ} {lockType : SemLockType} {n : ℕ} {tr : List (Event lockInterface)}
    {nReturn : ℤ} (h : WaitEnd t lockType n tr nReturn) (es : List (Event lockInterface))
    (hes : expirations es = 1)
    (hnone : ∀ pid ty, (⟨.acquiredSection pid ty, ()⟩ : Event lockInterface) ∉ es) :
    WaitEnd t lockType (n + 1) (es ++ tr) nReturn := by
  cases h with
  | acquired tr hlt =>
    rw [← List.append_assoc]
    apply WaitEnd.acquired
    rw [expirations_append]
    omega
  | exhausted tr hall hnone' =>
    apply WaitEnd.exhausted
    · rw [expirations_append]
      omega
    · intro pid ty hmem
      exact (List.mem_append.mp hmem).elim (hnone pid ty) (hnone' pid ty)

section
variable {G : LockOp → Prop} (t : ℕ)

theorem lockCritRegionLoop_ends (lockType : SemLockType) (n : ℕ) :
    (lockCritRegionLoop t lockType n).Sat (fun _ _ => True) (fun _ => True)
      (WaitEnd t lockType n) := by
  induction n with
  | zero => exact .exhausted [] rfl (by simp)
  | succ n ih =>
    simp only [lockCritRegionLoop, performLock, perform_eq, call_bind, ret_bind]
    refine ⟨trivial, fun expired _ => ?_⟩
    cases expired with
    | false =>
        exact ⟨trivial, fun _ _ => .acquired [⟨.downTimeout, false⟩] (by simp [expirationOf])⟩
    | true =>
      refine ⟨trivial, fun lnPidToKill _ => ?_⟩
      by_cases hkill : lnPidToKill = 0
      · subst hkill
        apply ih.imp
        intro tr nReturn hend
        exact hend.cons [⟨.downTimeout, true⟩, ⟨.expiredSection, (0 : ℤ)⟩] rfl (by simp)
      · simp only [ne_eq, hkill, not_false_eq_true, if_true]
        refine ⟨trivial, fun _ _ => ih.imp fun tr nReturn hend => ?_⟩
        exact hend.cons [⟨.downTimeout, true⟩, ⟨.expiredSection, lnPidToKill⟩,
          ⟨.killPid lnPidToKill, ()⟩]
          rfl (by simp)

theorem program_ends {c : LockCall} (hc : c = .enterCritRegion ∨ c = .longLockOfCriticalRegion) :
    (c.program t).Sat (fun _ _ => True) (fun _ => True) (CallEnd t c) := by
  rcases hc with rfl | rfl
  · refine ⟨trivial, fun owner _ => ?_⟩
    cases owner with
    | true => exact .entered
    | false => exact (lockCritRegionLoop_ends t _ 100).imp fun _ _ hend => .enterWaited hend
  · refine ⟨trivial, fun owner _ => ?_⟩
    cases owner with
    | true => exact .already
    | false =>
      change (lockCritRegionPrivate t .longLockUnlock >>= fun _ => ret 0).Sat _ _ _
      apply (sat_bind ..).mpr
      apply (lockCritRegionLoop_ends t _ 100).imp
      intro tr _ hend
      rw [sat_ret, List.append_nil]
      exact .longWaited hend

end

/-- A call has come to a rest of its program, and will end as such calls do. -/
def CallInv (t : ℕ) : AnyThread → Prop
  | .idle _ => True
  | .calling _ c tr p => Follows t c p ∧ (c = .enterCritRegion ∨ c = .longLockOfCriticalRegion →
      p.Sat (fun _ _ => True) (fun _ => True) fun tr' nReturn => CallEnd t c (tr ++ tr') nReturn)

def Granted : AnyThread → Prop
  | .idle _ => False
  | .calling _ c _ p => callPhase c p = .granted

structure AnyInv (s : AnyPool) : Prop where
  lock : Settled s.shared {t | Granted (s.thread t)}
  thread t : CallInv t (s.thread t)

theorem granted_update (s : AnyPool) (x : SCriticalRegionLock) (t : ℕ) (u : AnyThread) :
    {t' | Granted ((s.update x t u).thread t')} = {t' | if t' = t then Granted u else
      Granted (s.thread t')} := by
  ext t'
  by_cases h : t' = t
  · simp [h]
  · simp [h]

theorem granted_same {s : AnyPool} {x : SCriticalRegionLock} {t : ℕ} {u : AnyThread}
    (h : Granted u ↔ Granted (s.thread t)) :
    {t' | Granted ((s.update x t u).thread t')} = {t' | Granted (s.thread t')} := by
  rw [granted_update]
  ext t'
  by_cases ht : t' = t
  · simp [ht, h]
  · simp [ht]

theorem granted_perform {s : AnyPool} {t : ℕ} {c : LockCall} {op : LockOp} {r : op.Res}
    {u : AnyThread} (hbefore : Granted (s.thread t) ↔ phaseBefore c op = .granted)
    (hop : OpOf t c op)
    (hafter : Granted u ↔ phaseAfter op r = .granted) (x : SCriticalRegionLock) :
    {t' | Granted ((s.update x t u).thread t')} =
      grantedAfter t {t' | Granted (s.thread t')} op r := by
  cases op with
  | downTimeout =>
    cases r with
    | false =>
      rw [granted_update]
      ext t'
      by_cases ht : t' = t
      · simp [grantedAfter, ht, hafter, phaseAfter]
      · simp [grantedAfter, ht]
    | true =>
      apply granted_same
      cases c <;> simp_all [phaseBefore, phaseAfter, OpOf]
  | acquiredSection pid lockType =>
    rw [granted_update]
    ext t'
    by_cases ht : t' = t
    · cases lockType <;> simp [grantedAfter, ht, hafter, phaseAfter]
    · simp [grantedAfter, ht]
  | enterSection pid =>
    apply granted_same
    cases c <;> cases r <;> simp_all [phaseBefore, phaseAfter, OpOf]
  | longSection | unlockSection | expiredSection | killPid =>
    apply granted_same
    cases c <;> simp_all [phaseBefore, phaseAfter, OpOf]

theorem granted_start (t d : ℕ) (c : LockCall) : ¬ Granted (.calling d c [] (c.program t)) := by
  cases c <;> exact nofun

theorem anyInv_step {s s' : AnyPool} (h : AnyInv s) (hs : anySystem.Step s s') : AnyInv s' := by
  cases hs with
  | @start t d c hidle _ =>
    have hnot : ¬ Granted (s.thread t) := by
      rw [hidle]
      exact not_false
    constructor
    · have hlock := h.lock
      rwa [← granted_same (x := s.shared) (iff_of_false (granted_start t d c) hnot)] at hlock
    · exact Pool.update_forall h.thread ⟨program_follows t c, program_ends t⟩
  | @perform t d c tr op k r x hcall hop =>
    have ht := h.thread t
    rw [hcall] at ht
    obtain ⟨⟨hown, hrest⟩, hends⟩ := ht
    have hbefore : Granted (s.thread t) ↔ phaseBefore c op = .granted := by
      rw [hcall, ← callPhase_call c op k]
      rfl
    have hafter : Granted (.calling d c (tr ++ [⟨op, r⟩]) (k r)) ↔ phaseAfter op r = .granted := by
      rw [← (hrest r).1]
      rfl
    constructor
    · rw [granted_perform hbefore hown hafter]
      apply h.lock.step hown _ hop
      rintro pid ty rfl
      rw [Set.mem_ofPred_eq, hbefore]
      cases c <;> first | rfl | exact hown.elim
    · refine Pool.update_forall h.thread ⟨(hrest r).2, fun hc => ?_⟩
      simpa using (hends hc).2 r trivial
  | @finish t d c tr nReturn hret =>
    have hnot : ¬ Granted (s.thread t) := by
      rw [hret]
      cases c with
      | enterCritRegion =>
        simp only [Granted, callPhase]
        split_ifs <;> simp
      | _ => simp [Granted, callPhase]
    constructor
    · have hidle : ¬ Granted (.idle (anyClient.next d c nReturn)) := not_false
      have hlock := h.lock
      rwa [← granted_same (x := s.shared) (iff_of_false hidle hnot)] at hlock
    · exact Pool.update_forall h.thread trivial

theorem anyInv_steps {ulnJiffiesTmOut : UInt64} {s : AnyPool}
    (h : anySystem.Steps (anyPool ulnJiffiesTmOut) s) : AnyInv s := by
  refine h.invariant (fun _ _ => anyInv_step)
    ⟨⟨.free rfl rfl rfl ?_, fun hmark => absurd hmark Bool.false_ne_true⟩,
    fun _ => trivial⟩
  exact Set.eq_empty_of_forall_notMem fun _ => not_false

/-- What a result of an enter or of a long lock says about the lock: a success that the thread owns
it, a failure that it does not unless it did before. -/
structure TellsOwnership (t : ℕ) (before : SCriticalRegionLock) (nReturn : ℤ)
    (after : SCriticalRegionLock) :
    Prop where
  success : nReturn = 0 → after.mSemaphore = 0 ∧ after.mLnPID = t
  failure : nReturn ≠ 0 → before.mLnPID ≠ t → after.mLnPID ≠ t

def Missed (t : ℕ) (tr : List (Event lockInterface)) : Prop :=
  (⟨.enterSection t, false⟩ : Event lockInterface) ∈ tr ∨
    (⟨.longSection t, false⟩ : Event lockInterface) ∈ tr

/-- A thread that was not recorded stays so until it records itself. -/
def Unrecorded (t : ℕ) (before : SCriticalRegionLock) (s : AnyPool) : Prop :=
  ∀ d c tr p, s.thread t = .calling d c tr p → before.mLnPID ≠ t ∨ Missed t tr →
    (∀ ty, (⟨.acquiredSection t ty, ()⟩ : Event lockInterface) ∉ tr) → s.shared.mLnPID ≠ t

theorem mLnPID_step {l l' : SCriticalRegionLock} {t t' : ℕ} {c : LockCall} {op : LockOp}
    {r : op.Res} (hop : OpOf t' c op) (hstep : lockHandler op l r l') (hl : l.mLnPID ≠ t)
    (hother : t' = t → ∀ ty, op ≠ .acquiredSection t ty) : l'.mLnPID ≠ t := by
  cases op with
  | enterSection pid =>
    obtain rfl : l' = (enterSection pid l).2 := congrArg Prod.snd hstep
    rwa [(enterSection_kept pid l).2.1]
  | longSection pid =>
    obtain ⟨-, rfl⟩ := hstep
    exact hl
  | unlockSection pid nUnlockType =>
    obtain rfl : l' = (unlockSection pid nUnlockType l).2 := congrArg Prod.snd hstep
    have hfreed : l.unlockSemaphore.mLnPID ≠ t := by
      simp only [unlockSemaphore]
      omega
    unfold unlockSection
    cases nUnlockType with
    | noLock => exact hl
    | shortLockUnlock =>
      dsimp only
      split_ifs
      · exact hfreed
      · exact hfreed
      · exact hl
    | longLockUnlock =>
      dsimp only
      split_ifs
      · exact hfreed
      · exact hl
  | expiredSection =>
    obtain ⟨jiffies, hexpired⟩ := hstep
    obtain rfl : l' = (expiredSection jiffies l).2 := congrArg Prod.snd hexpired
    unfold expiredSection
    split_ifs
    · exact hl
    · dsimp only
      omega
    · exact hl
  | acquiredSection pid lockType =>
    obtain ⟨jiffies, rfl⟩ := hstep
    have hpid : pid = t' := by
      cases c <;> simp [OpOf] at hop <;> exact hop.1
    intro hthis
    have hsame : pid = t := hthis
    have hself : t' = t := by omega
    exact hother hself lockType (by rw [hsame])
  | downTimeout =>
    rcases hstep with ⟨-, rfl⟩ | ⟨-, -, rfl⟩ <;> exact hl
  | killPid pid =>
    obtain rfl : l' = l := hstep
    exact hl

theorem Missed.section {l l' : SCriticalRegionLock} {t : ℕ} {op : LockOp} {r : op.Res}
    (h : Missed t [⟨op, r⟩]) (hstep : lockHandler op l r l') : l'.mLnPID ≠ t := by
  rcases h with h | h
  · cases List.mem_singleton.mp h
    obtain rfl : l' = (enterSection t l).2 := congrArg Prod.snd hstep
    have hr : false = (enterSection t l).1 := congrArg Prod.fst hstep
    rw [(enterSection_kept t l).2.1]
    intro hpid
    simp [enterSection, hpid] at hr
  · cases List.mem_singleton.mp h
    obtain ⟨hr, rfl⟩ := hstep
    intro hpid
    simp [longSection, hpid] at hr

theorem Unrecorded.step {t : ℕ} {before : SCriticalRegionLock} {s s' : AnyPool} (hinv : AnyInv s)
    (h : Unrecorded t before s) (hcall : ∃ d c tr p, s.thread t = .calling d c tr p)
    (hs : anySystem.Step s s') : Unrecorded t before s' := by
  cases hs with
  | @start t' d c hidle _ =>
    have hne : t ≠ t' := by
      rintro rfl
      obtain ⟨_, _, _, _, hcall⟩ := hcall
      rw [hidle] at hcall
      cases hcall
    intro d' c' tr' p' ht'
    rw [Pool.update_other _ _ hne] at ht'
    exact h d' c' tr' p' ht'
  | @finish t' d c tr nReturn hret =>
    intro d' c' tr' p' ht'
    by_cases hne : t = t'
    · subst hne
      rw [Pool.update_same] at ht'
      cases ht'
    · rw [Pool.update_other _ _ hne] at ht'
      exact h d' c' tr' p' ht'
  | @perform t' d c tr op k r x hrun hop =>
    have hown := hinv.thread t'
    rw [hrun] at hown
    intro d' c' tr' p' ht' hmissed hnone
    by_cases hne : t = t'
    · subst hne
      rw [Pool.update_same] at ht'
      cases ht'
      have hother : ∀ ty, op ≠ .acquiredSection t ty := by
        rintro ty rfl
        exact hnone ty (List.mem_append_right _ (List.mem_singleton_self _))
      have hbefore : (∀ ty, (⟨.acquiredSection t ty, ()⟩ : Event lockInterface) ∉ tr) :=
        fun ty hmem =>
        hnone ty (List.mem_append_left _ hmem)
      have hsplit : (before.mLnPID ≠ t ∨ Missed t tr) ∨ Missed t [⟨op, r⟩] := by
        simp only [Missed, List.mem_append] at hmissed ⊢
        tauto
      rcases hsplit with hold | hnew
      · exact mLnPID_step hown.1.1 hop (h d c tr _ hrun hold hbefore) fun _ => hother
      · exact hnew.section hop
    · rw [Pool.update_other _ _ hne] at ht'
      exact mLnPID_step hown.1.1 hop (h d' c' tr' p' ht' hmissed hnone) fun hself =>
        absurd hself.symm hne

/-- Along a call the thread stays unrecorded, and the pool keeps its invariant. -/
theorem during_unrecorded {t : ℕ} {c : LockCall} {before : SCriticalRegionLock} {s s' : AnyPool}
    (h : anySystem.During t c s s') (hcall : ∃ d c tr p, s.thread t = .calling d c tr p)
    (hinv : AnyInv s) (hs : Unrecorded t before s) :
    (∃ d c tr p, s'.thread t = .calling d c tr p) ∧ AnyInv s' ∧ Unrecorded t before s' := by
  induction h with
  | refl => exact ⟨hcall, hinv, hs⟩
  | tail _ hlast ih =>
    obtain ⟨hcall', hinv', hs'⟩ := ih
    obtain ⟨d, tr, p, hstill⟩ := hlast.2
    exact ⟨⟨d, c, tr, p, hstill⟩, anyInv_step hinv' hlast.1, hs'.step hinv' hcall' hlast.1⟩

theorem recorded_at_end {l x : SCriticalRegionLock} {t : ℕ} {op : LockOp} {r : op.Res}
    (hop : lockHandler op l r x) (hend : (⟨op, r⟩ : Event lockInterface) = ⟨.enterSection t, true⟩ ∨
      ∃ ty, (⟨op, r⟩ : Event lockInterface) = ⟨.acquiredSection t ty, ()⟩) : x.mLnPID = t := by
  rcases hend with hend | ⟨ty, hend⟩
  · cases hend
    obtain rfl : x = (enterSection t l).2 := congrArg Prod.snd hop
    have hr : true = (enterSection t l).1 := congrArg Prod.fst hop
    unfold enterSection at hr ⊢
    split_ifs at hr ⊢ with howner
    exact howner.symm
  · cases hend
    obtain ⟨jiffies, rfl⟩ := hop
    rfl

/-- From any reachable state, thread `t` calls an enter or a long lock, and the last operation of
this call has just been made. The result tells whether it owns the lock, except for a long lock
whose hundred `down_timeout`s have all expired. -/
theorem lock_result_tells_iff {ulnJiffiesTmOut : UInt64} {s₀ s : AnyPool} {t d₀ d : ℕ}
    {c : LockCall} (hreach : anySystem.Steps (anyPool ulnJiffiesTmOut) s₀)
    (hidle : s₀.thread t = .idle d₀) (hc : c = .enterCritRegion ∨ c = .longLockOfCriticalRegion)
    (hcall : anySystem.During t c (s₀.update s₀.shared t (.calling d₀ c [] (c.program t))) s)
    {tr : List (Event lockInterface)} {op : LockOp} {k : op.Res → LockProgram ℤ} {r : op.Res}
    {nReturn : ℤ} {x : SCriticalRegionLock} (hrun : s.thread t = .calling d c tr (.call op k))
    (hop : lockHandler op s.shared r x) (hret : k r = .ret nReturn) :
    TellsOwnership t s₀.shared nReturn x ↔
      ¬ (c = .longLockOfCriticalRegion ∧ expirations (tr ++ [⟨op, r⟩]) = 100) := by
  have hstarted := anyInv_step (anyInv_steps hreach) (.start (c := c) hidle trivial)
  have hfirst :
      Unrecorded t s₀.shared (s₀.update s₀.shared t (.calling d₀ c [] (c.program t))) := by
    intro _ _ _ _ ht hbefore _
    rw [Pool.update_same] at ht
    cases ht
    exact hbefore.resolve_right (by simp [Missed])
  obtain ⟨-, hinv, hunrec⟩ :=
    during_unrecorded hcall ⟨_, _, _, _, Pool.update_same ..⟩ hstarted hfirst
  have hstep := Step.perform (S := anySystem) hrun hop
  have hinv' := anyInv_step hinv hstep
  have hunrec' := hunrec.step hinv ⟨_, _, _, _, hrun⟩ hstep d c _ _ (Pool.update_same ..)
  have howns (hpid : x.mLnPID = t) : x.mSemaphore = 0 ∧ x.mLnPID = t :=
    ⟨(hinv'.lock.counted.of_pid hpid).1, hpid⟩
  have hend : CallEnd t c (tr ++ [⟨op, r⟩]) nReturn := by
    have hthread := hinv'.thread t
    rw [Pool.update_same, hret] at hthread
    simpa using hthread.2 hc
  have hlast (tr₁ : List (Event lockInterface)) {e : Event lockInterface}
      (h : tr ++ [⟨op, r⟩] = tr₁ ++ [e]) : (⟨op, r⟩ : Event lockInterface) = e :=
    List.singleton_inj.mp (List.append_inj' h rfl).2
  have hrecorded := recorded_at_end (t := t) hop
  generalize htr : tr ++ [⟨op, r⟩] = es at hend hunrec' hlast ⊢
  cases hend with
  | entered =>
    have hpid := hrecorded (.inl (hlast [] rfl))
    exact iff_of_true ⟨fun _ => howns hpid, fun h => absurd rfl h⟩ fun h => nomatch h.1
  | already =>
    refine iff_of_true ⟨fun h => absurd h (by decide), fun _ hne => ?_⟩ fun h =>
      absurd h.2 (by simp [expirationOf])
    exact hunrec' (.inl hne) (by simp)
  | enterWaited hwait =>
    cases hwait with
    | acquired tr₁ =>
      have hpid := hrecorded (.inr ⟨_, hlast (_ :: tr₁) rfl⟩)
      exact iff_of_true ⟨fun _ => howns hpid, fun h => absurd rfl h⟩ fun h => nomatch h.1
    | exhausted =>
      next hnone =>
      refine iff_of_true ⟨fun h => absurd h (by decide), fun _ _ => ?_⟩ fun h => nomatch h.1
      exact hunrec' (.inr (.inl List.mem_cons_self)) (by simpa using hnone t)
  | longWaited hwait =>
    cases hwait with
    | acquired tr₁ hlt =>
      have hpid := hrecorded (.inr ⟨_, hlast (_ :: tr₁) rfl⟩)
      refine iff_of_true ⟨fun _ => howns hpid, fun h => absurd rfl h⟩ fun h => ?_
      have hall := h.2
      simp [expirationOf] at hall
      omega
    | exhausted =>
      next hall hnone =>
      -- the wait has failed, and the call answers 0
      have hpid := hunrec' (.inr (.inr List.mem_cons_self)) (by simpa using hnone t)
      refine iff_of_false (fun h => hpid (h.success rfl).2) (not_not.mpr ⟨rfl, ?_⟩)
      simpa [expirationOf] using hall

theorem lock_result_tells_iff_longLock : ∃ (s : AnyPool) (x : SCriticalRegionLock),
    anySystem.During 1 .longLockOfCriticalRegion ((anyPool 0).update (anyPool 0).shared 1
      (.calling 0 .longLockOfCriticalRegion [] (LockCall.longLockOfCriticalRegion.program (1 : ℕ))))
        s ∧
      lockHandler (.acquiredSection 1 .longLockUnlock) s.shared () x ∧
      TellsOwnership 1 (anyPool 0).shared 0 x := by
  have hreach :
      Reaches lockHandler (LockCall.longLockOfCriticalRegion.program (1 : ℕ)) (initCritRegionLock 0)
      [⟨.longSection 1, false⟩, ⟨.downTimeout, false⟩]
        _ { initCritRegionLock 0 with mSemaphore := 0 } :=
    .step ⟨rfl, rfl⟩ (.step (.inr ⟨rfl, by decide, rfl⟩) (.start ..))
  have hduring := During.reaches (S := anySystem) (s := (anyPool 0).update (anyPool 0).shared 1
    (.calling 0 .longLockOfCriticalRegion [] (LockCall.longLockOfCriticalRegion.program (1 : ℕ))))
    hreach rfl (Pool.update_same ..)
  refine ⟨_, _, hduring, ⟨0, rfl⟩, ?_⟩
  exact (lock_result_tells_iff (r := ()) .refl rfl (.inr rfl) hduring (Pool.update_same ..)
    ⟨0, rfl⟩ rfl).mpr
    (by simp [expirationOf])

theorem ownedByOne_expired : lockHandler .expiredSection ownedByOne (0 : ℤ) ownedByOne := ⟨0, rfl⟩

theorem lockCritRegionLoop_vain (t : ℕ) (lockType : SemLockType) (f : ℤ → LockProgram ℤ) (n : ℕ) :
    ∃ tr k, Reaches lockHandler (lockCritRegionLoop t lockType (n + 1) >>= f) ownedByOne tr
      (.call .expiredSection k) ownedByOne ∧ k (0 : ℤ) = f eTime := by
  induction n with
  | zero => exact ⟨_, _, .step (.inl ⟨rfl, rfl⟩) (.start ..), rfl⟩
  | succ n ih =>
    obtain ⟨tr, k, hrest, hk⟩ := ih
    exact ⟨_, k, .step (.inl ⟨rfl, rfl⟩) (.step ownedByOne_expired hrest), hk⟩

/-- The long lock of thread 2 answers 0, and thread 1 is the owner. -/
theorem long_lock_in_vain :
    ∃ (s₀ s : AnyPool) (tr : List (Event lockInterface)) (k : ℤ → LockProgram ℤ)
    (x : SCriticalRegionLock), anySystem.Steps (anyPool 0) s₀ ∧ s₀.thread 2 = .idle 0 ∧
      anySystem.During 2 .longLockOfCriticalRegion (s₀.update s₀.shared 2
        (.calling 0 .longLockOfCriticalRegion []
          (LockCall.longLockOfCriticalRegion.program (2 : ℕ)))) s ∧
      s.thread 2 = .calling 0 .longLockOfCriticalRegion tr (.call .expiredSection k) ∧
      lockHandler .expiredSection s.shared (0 : ℤ) x ∧ k 0 = .ret 0 ∧
        ¬ TellsOwnership 2 s₀.shared 0 x := by
  obtain ⟨_, hlong⟩ := longLock_ownedByOne
  have howned :=
    Steps.run (S := anySystem) (s := anyPool 0) (t := 1) (c := .longLockOfCriticalRegion) rfl
    trivial hlong
  obtain ⟨tr, k, hwait, hk⟩ := lockCritRegionLoop_vain 2 .longLockUnlock (fun _ => ret 0) 99
  have hreach : Reaches lockHandler (LockCall.longLockOfCriticalRegion.program (2 : ℕ)) ownedByOne
      (⟨.longSection 2, false⟩ :: tr) (.call .expiredSection k) ownedByOne := .step ⟨rfl, rfl⟩ hwait
  refine ⟨_, _, _, k, ownedByOne, howned, rfl,
    During.reaches (S := anySystem) hreach rfl (Pool.update_same ..),
    Pool.update_same .., ownedByOne_expired, hk, fun h => ?_⟩
  exact absurd (h.success rfl).2 (by decide)

end Upciedev.SCriticalRegionLock
