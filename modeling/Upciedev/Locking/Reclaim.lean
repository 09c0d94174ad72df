import Upciedev.Locking.Ownership

/-!
# Taking a long lock back

A waiter takes the lock of a long owner that has had its time, unless the flag of the region is set.
The flag is also set when the lock is taken for long, so it stands for a pair of the owner only
after the region has been left once.
-/
namespace Upciedev.SCriticalRegionLock

open Foundations Program System

/-- Whether the region was left since the lock was last taken. -/
def leftAfter (left : Bool) : LockOp → Bool
  | .acquiredSection _ _ => false
  | .unlockSection _ .shortLockUnlock => true
  | _ => left

def openPairs : AnyThread → ℕ
  | .idle depth => depth
  | .calling depth c _ (.ret nReturn) => anyClient.next depth c nReturn
  | .calling depth _ _ (.call _ _) => depth

/-- The waiter that comes to `expiredSection` frees the lock and sends the signal to its owner. -/
structure Reclaims (owner : ℕ) (jiffies : UInt64) (l : SCriticalRegionLock)
    (k : ℤ → LockProgram ℤ) : Prop where
  mSemaphore : (expiredSection jiffies l).2.mSemaphore = l.mSemaphore + 1
  mNLockingType : (expiredSection jiffies l).2.mNLockingType = .noLock
  mLnPID : (expiredSection jiffies l).2.mLnPID = -1
  signal : ∃ k', k (expiredSection jiffies l).1 = .call (.killPid owner) k'

/-- Every forced release is followed by its signal. -/
def Signalling : LockProgram ℤ → Prop
  | .ret _ => True
  | .call op k => ∀ r, SignalNext op r (k r) ∧ Signalling (k r)

theorem lockCritRegionLoop_signalling (t : ℕ) (lockType : SemLockType) {f : ℤ → LockProgram ℤ}
    (hf : ∀ nReturn, Signalling (f nReturn)) (n : ℕ) :
    Signalling (lockCritRegionLoop t lockType n >>= f) := by
  induction n with
  | zero => exact hf eTime
  | succ n ih =>
    simp only [lockCritRegionLoop, performLock, perform_eq, call_bind, ret_bind]
    rintro (_ | _)
    · exact ⟨trivial, fun _ => ⟨trivial, hf 0⟩⟩
    · refine ⟨trivial, fun lnPidToKill => ?_⟩
      by_cases hkill : lnPidToKill = 0
      · subst hkill
        exact ⟨fun h => absurd rfl h, ih⟩
      · simp only [ne_eq, hkill, not_false_eq_true, if_true]
        exact ⟨fun _ => ⟨_, rfl⟩, fun _ => ⟨trivial, ih⟩⟩

theorem program_signalling (t : ℕ) (c : LockCall) : Signalling (c.program t) := by
  cases c with
  | enterCritRegion =>
    have hloop := lockCritRegionLoop_signalling t .shortLockUnlock (f := ret) (fun _ => trivial) 100
    rw [bind_ret] at hloop
    rintro (_ | _)
    · exact ⟨trivial, hloop⟩
    · exact ⟨trivial, trivial⟩
  | longLockOfCriticalRegion =>
    have hloop :=
      lockCritRegionLoop_signalling t .longLockUnlock (f := fun _ => ret 0) (fun _ => trivial) 100
    rintro (_ | _)
    · exact ⟨trivial, hloop⟩
    · exact ⟨trivial, trivial⟩
  | leaveCritRegion | unlockLongCritRegion => exact fun _ => ⟨trivial, trivial⟩

theorem le_openPairs {d : ℕ} {c : LockCall} (hc : c ≠ .leaveCritRegion)
    (tr : List (Event lockInterface)) (p : LockProgram ℤ) : d ≤ openPairs (.calling d c tr p) := by
  cases p with
  | call => exact le_rfl
  | ret nReturn =>
    cases c with
    | enterCritRegion =>
      simp only [openPairs, anyClient]
      split_ifs <;> omega
    | leaveCritRegion => exact absurd rfl hc
    | longLockOfCriticalRegion | unlockLongCritRegion => exact le_rfl

theorem eq_ret_of_inRegion {p : LockProgram ℤ} (h : callPhase .enterCritRegion p = .inRegion) :
    p = .ret 0 := by
  cases p with
  | call op k => cases op <;> simp [callPhase] at h
  | ret nReturn =>
    simp only [callPhase] at h
    split_ifs at h with hzero
    rw [hzero]

/-- The flag of a long owner: set from the acquisition on, and after a leave only inside a pair. -/
structure FlagInv (s : AnyPool) (left : Bool) : Prop where
  set : s.shared.mNLockingType = .longLockUnlock → left = false → s.shared.mNInCriticalRegion = true
  inside (owner : ℕ) : s.shared.mNLockingType = .longLockUnlock → s.shared.mLnPID = owner →
    left = true →
    s.shared.mNInCriticalRegion = true → openPairs (s.thread owner) ≠ 0

section
variable {s : AnyPool} {left : Bool} {t : ℕ} {x : SCriticalRegionLock} {u : AnyThread}

/-- A step that leaves the owner and the flag as they are, and opens and closes no pair. -/
theorem FlagInv.kept (h : FlagInv s left) (htype : x.mNLockingType = s.shared.mNLockingType)
    (hpid : x.mLnPID = s.shared.mLnPID) (hflag : x.mNInCriticalRegion = s.shared.mNInCriticalRegion)
    (hpairs : openPairs (s.thread t) ≤ openPairs u) : FlagInv (s.update x t u) left where
  set hlong hleft := by
    rw [Pool.update_shared] at hlong ⊢
    rw [hflag]
    exact h.set (htype ▸ hlong) hleft
  inside owner hlong howner hleft hset := by
    rw [Pool.update_shared] at hlong howner hset
    have hopen := h.inside owner (htype ▸ hlong) (hpid ▸ howner) hleft (hflag ▸ hset)
    by_cases ht : owner = t
    · subst ht
      rw [Pool.update_same]
      omega
    · rwa [Pool.update_other _ _ ht]

theorem FlagInv.of_type (htype : x.mNLockingType ≠ .longLockUnlock) :
    FlagInv (s.update x t u) left where
  set hlong := absurd hlong htype
  inside _ hlong := absurd hlong htype

theorem FlagInv.perform (h : FlagInv s left) {d : ℕ} {c : LockCall}
    {tr : List (Event lockInterface)} {op : LockOp} {k : op.Res → LockProgram ℤ} {r : op.Res}
    (hcall : s.thread t = .calling d c tr (.call op k))
    (hfollows : Follows t c (.call op k)) (hop : lockHandler op s.shared r x) :
    FlagInv (s.update x t (.calling d c (tr ++ [⟨op, r⟩]) (k r))) (leftAfter left op) := by
  obtain ⟨hown, hrest⟩ := hfollows
  have hpairs (hc : c ≠ .leaveCritRegion) :
      openPairs (s.thread t) ≤ openPairs (.calling d c (tr ++ [⟨op, r⟩]) (k r)) := by
    rw [hcall]
    exact le_openPairs hc _ _
  cases op with
  | enterSection pid =>
    obtain rfl : c = .enterCritRegion := by cases c <;> first | rfl | exact hown.elim
    obtain rfl : pid = t := hown
    have hphase := (hrest r).1
    obtain ⟨hr, hx⟩ : r = (enterSection t s.shared).1 ∧ x = (enterSection t s.shared).2 :=
      ⟨congrArg Prod.fst hop, congrArg Prod.snd hop⟩
    unfold enterSection at hr hx
    split_ifs at hr hx with howner
    · subst hr hx
      refine ⟨fun _ _ => rfl, fun owner _ hpid _ _ => ?_⟩
      obtain rfl : owner = t := by
        exact_mod_cast (hpid : s.shared.mLnPID = owner).symm.trans howner.symm
      rw [Pool.update_same, eq_ret_of_inRegion hphase]
      exact Nat.succ_ne_zero d
    · subst hr hx
      exact h.kept rfl rfl rfl (hpairs (by simp))
  | longSection pid =>
    obtain ⟨-, rfl⟩ := hop
    exact h.kept rfl rfl rfl (hpairs (by rintro rfl; exact hown))
  | unlockSection pid nUnlockType =>
    obtain rfl : x = (unlockSection pid nUnlockType s.shared).2 := congrArg Prod.snd hop
    unfold unlockSection
    cases nUnlockType with
    | noLock => cases c <;> simp [OpOf] at hown
    | shortLockUnlock =>
      dsimp only
      split_ifs
      · exact .of_type (by simp [unlockSemaphore])
      · exact .of_type (by simp [unlockSemaphore])
      · exact ⟨fun _ hleft => absurd hleft.symm Bool.false_ne_true, fun _ _ _ _ hset =>
          absurd hset Bool.false_ne_true⟩
    | longLockUnlock =>
      dsimp only
      split_ifs
      · exact .of_type (by simp [unlockSemaphore])
      · refine h.kept rfl rfl rfl (hpairs ?_)
        rintro rfl
        cases hown.2
  | expiredSection =>
    have hc : c ≠ .leaveCritRegion := by
      rintro rfl
      exact hown
    obtain ⟨jiffies, hexpired⟩ := hop
    obtain rfl : x = (expiredSection jiffies s.shared).2 := congrArg Prod.snd hexpired
    unfold expiredSection
    split_ifs
    · exact h.kept rfl rfl rfl (hpairs hc)
    · exact .of_type (by simp)
    · exact h.kept rfl rfl rfl (hpairs hc)
  | acquiredSection pid lockType =>
    obtain ⟨jiffies, rfl⟩ := hop
    exact ⟨fun _ _ => rfl, fun _ _ _ hleft _ => absurd hleft Bool.false_ne_true⟩
  | downTimeout =>
    have hc : c ≠ .leaveCritRegion := by
      rintro rfl
      exact hown
    rcases hop with ⟨-, rfl⟩ | ⟨-, -, rfl⟩ <;> exact h.kept rfl rfl rfl (hpairs hc)
  | killPid pid =>
    obtain rfl : x = s.shared := hop
    exact h.kept rfl rfl rfl (hpairs (by rintro rfl; exact hown))

end

/-- The runs of any threads, with the account of leaves. -/
abbrev LeftRun (ulnJiffiesTmOut : UInt64) (s : AnyPool) (left : Bool) : Prop :=
  Accounted anySystem leftAfter (anyPool ulnJiffiesTmOut) false s left

theorem LeftRun.flagInv {ulnJiffiesTmOut : UInt64} {s : AnyPool} {left : Bool}
    (h : LeftRun ulnJiffiesTmOut s left) : FlagInv s left := by
  induction h with
  | refl => exact ⟨nofun, nofun⟩
  | @start s left t d c _ hidle _ ih =>
    apply ih.kept rfl rfl rfl
    rw [hidle]
    cases c <;> exact le_rfl
  | @perform s left t d c tr op k r x hrun hcall hop ih =>
    have hfollows := (anyInv_steps hrun.steps).thread t
    rw [hcall] at hfollows
    exact ih.perform hcall hfollows.1 hop
  | @finish s left t d c tr nReturn _ hret ih =>
    apply ih.kept rfl rfl rfl
    rw [hret]
    exact le_rfl

def CallSignals : AnyThread → Prop
  | .idle _ => True
  | .calling _ _ _ p => Signalling p

theorem callSignals_steps {ulnJiffiesTmOut : UInt64} {s : AnyPool}
    (h : anySystem.Steps (anyPool ulnJiffiesTmOut) s) (t : ℕ) : CallSignals (s.thread t) := by
  refine h.invariant (P := fun s => ∀ t, CallSignals (s.thread t)) ?_ (fun _ => trivial) t
  intro s s' hs hstep
  cases hstep with
  | @start t d c _ _ => exact Pool.update_forall hs (program_signalling t c)
  | @perform t d c tr op k r x hcall _ =>
    have ht := hs t
    rw [hcall] at ht
    exact Pool.update_forall hs (ht r).2
  | finish _ => exact Pool.update_forall hs trivial

/-- A waiter that finds a long owner outside its pairs after its time takes the lock from it,
exactly if the region was left since the lock was taken. -/
theorem long_lock_reclaimed_iff {ulnJiffiesTmOut : UInt64} {s : AnyPool} {left : Bool}
    (h : LeftRun ulnJiffiesTmOut s left) {owner : ℕ} (hpid : owner ≠ 0)
    (hlong : s.shared.mNLockingType = .longLockUnlock) (howner : s.shared.mLnPID = owner)
    (houtside : openPairs (s.thread owner) = 0) {t d : ℕ} {c : LockCall}
    {tr : List (Event lockInterface)}
    {k : ℤ → LockProgram ℤ} (hwaits : s.thread t = .calling d c tr (.call .expiredSection k))
    {jiffies : UInt64} (hlate : s.shared.mUlnJiffiesTmOut < jiffies - s.shared.mUllnStartJiffi) :
    Reclaims owner jiffies s.shared k ↔ left = true := by
  have hflag := h.flagInv
  have hsignals := callSignals_steps h.steps t
  rw [hwaits] at hsignals
  have hsection : expiredSection jiffies s.shared = if s.shared.mNInCriticalRegion
      then (0, { s.shared with mNShouldBeFreed := true })
      else (s.shared.mLnPID, { s.shared.up with mNLockingType := .noLock, mLnPID := -1 }) := by
    rw [expiredSection, if_pos ⟨hlong, hlate⟩]
  cases left with
  | false =>
    rw [if_pos (hflag.set hlong rfl)] at hsection
    refine iff_of_false (fun hreclaims => ?_) Bool.false_ne_true
    have hfreed := hreclaims.mNLockingType
    rw [hsection] at hfreed
    rw [hlong] at hfreed
    cases hfreed
  | true =>
    have hclear : ¬ s.shared.mNInCriticalRegion = true := fun hset =>
      hflag.inside owner hlong howner rfl hset houtside
    rw [if_neg hclear] at hsection
    refine iff_of_true ?_ rfl
    have hne : (owner : ℤ) ≠ 0 := by exact_mod_cast hpid
    constructor
    · rw [hsection]
      rfl
    · rw [hsection]
    · rw [hsection]
    · rw [hsection, howner]
      exact (hsignals (owner : ℤ)).1 hne

theorem longLock_reaches : Reaches lockHandler (LockCall.longLockOfCriticalRegion.program (1 : ℕ))
    (initCritRegionLock 0)
    [⟨.longSection 1, false⟩, ⟨.downTimeout, false⟩, ⟨.acquiredSection 1 .longLockUnlock, ()⟩]
    (.ret 0) ownedByOne :=
  .step ⟨rfl, rfl⟩ (.step (.inr ⟨rfl, by decide, rfl⟩) (.step ⟨0, rfl⟩ (.start ..)))

theorem long_lock_reclaimed_iff_left :
    ∃ (s : AnyPool) (d : ℕ) (c : LockCall) (tr : List (Event lockInterface))
    (k : ℤ → LockProgram ℤ), LeftRun 0 s true ∧
      s.thread 2 = .calling d c tr (.call .expiredSection k) ∧
      openPairs (s.thread 1) = 0 ∧ Reclaims 1 1 s.shared k := by
  have henter : Reaches lockHandler (LockCall.enterCritRegion.program (1 : ℕ)) ownedByOne
      [⟨.enterSection 1, true⟩] (.ret 0) ownedByOne := .step rfl (.start ..)
  have hleave : Reaches lockHandler (LockCall.leaveCritRegion.program (1 : ℕ)) ownedByOne
      [⟨.unlockSection 1 .shortLockUnlock, 0⟩] (.ret 0)
      { ownedByOne with mNInCriticalRegion := false } :=
    .step rfl (.start ..)
  have hwait : Reaches lockHandler (LockCall.enterCritRegion.program (2 : ℕ))
      { ownedByOne with mNInCriticalRegion := false } [⟨.enterSection 2, false⟩,
        ⟨.downTimeout, true⟩] _
      { ownedByOne with mNInCriticalRegion := false } :=
        .step rfl (.step (.inl ⟨rfl, rfl⟩) (.start ..))
  have hlocking : LeftRun 0 _ _ :=
    Accounted.refl.start (t := 1) (c := .longLockOfCriticalRegion) rfl trivial
  have hlocked :=
    (hlocking.reaches longLock_reaches rfl (Pool.update_same ..)).finish (Pool.update_same ..)
  have hentering := hlocked.start (t := 1) (c := .enterCritRegion) (Pool.update_same ..) trivial
  have hentered := (hentering.reaches henter rfl (Pool.update_same ..)).finish (Pool.update_same ..)
  have hleaving := hentered.start (t := 1) (c := .leaveCritRegion) (Pool.update_same ..) trivial
  have hleft := (hleaving.reaches hleave rfl (Pool.update_same ..)).finish (Pool.update_same ..)
  have hcalling := hleft.start (t := 2) (c := .enterCritRegion) rfl trivial
  have hwaits := hcalling.reaches hwait rfl (Pool.update_same ..)
  refine ⟨_, _, _, _, _, hwaits, Pool.update_same .., rfl, ?_⟩
  have hpid : (1 : ℕ) ≠ 0 := by decide
  exact (long_lock_reclaimed_iff hwaits hpid rfl rfl rfl (Pool.update_same ..) (by decide)).mpr rfl

/-- Thread 1 has not been in the region, and its lock is marked and kept. -/
theorem fresh_long_lock_kept :
    ∃ (s : AnyPool) (d : ℕ) (c : LockCall) (tr : List (Event lockInterface))
    (k : ℤ → LockProgram ℤ), anySystem.Steps (anyPool 0) s ∧ s.shared = ownedByOne ∧
      s.thread 2 = .calling d c tr (.call .expiredSection k) ∧ openPairs (s.thread 1) = 0 ∧
      s.shared.mUlnJiffiesTmOut < 1 - s.shared.mUllnStartJiffi ∧ ¬ Reclaims 1 1 s.shared k := by
  have hwait : Reaches lockHandler (LockCall.enterCritRegion.program (2 : ℕ)) ownedByOne
      [⟨.enterSection 2, false⟩, ⟨.downTimeout, true⟩] _ ownedByOne :=
    .step rfl (.step (.inl ⟨rfl, rfl⟩) (.start ..))
  have hlocking : LeftRun 0 _ _ :=
    Accounted.refl.start (t := 1) (c := .longLockOfCriticalRegion) rfl trivial
  have hlocked :=
    (hlocking.reaches longLock_reaches rfl (Pool.update_same ..)).finish (Pool.update_same ..)
  have hcalling := hlocked.start (t := 2) (c := .enterCritRegion) rfl trivial
  have hwaits := hcalling.reaches hwait rfl (Pool.update_same ..)
  refine ⟨_, _, _, _, _, hwaits.steps, rfl, Pool.update_same .., rfl, by decide,
    fun hreclaims => ?_⟩
  exact absurd hreclaims.mNLockingType (by decide)

end Upciedev.SCriticalRegionLock
