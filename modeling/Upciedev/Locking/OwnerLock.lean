import Upciedev.Foundations.Refinement
import Upciedev.Locking.Ownership

/-!
# The semaphore lock as a lock with an owner

What the lock is for, without its semaphore, its flags and its time-outs: it is free, held by a
thread for one pair, or kept by a thread over several calls. Threads that do not nest their pairs
get a lock that behaves so. Whatever threads do, the semaphore is not freed twice and not lost.
-/
namespace Upciedev.SCriticalRegionLock

open Foundations Program System

inductive OwnerLock where
  | free
  | held (owner : ℕ)
  | kept (owner : ℕ) (inside : Bool)
  deriving DecidableEq, Repr

/-- The owner of a kept lock gives it back, or loses it: outside its pairs at any time, in a pair
when it leaves. -/
inductive OwnerLock.Step : OwnerLock → OwnerLock → Prop
  | take (t : ℕ) : Step .free (.held t)
  | release (t : ℕ) : Step (.held t) .free
  | keep (t : ℕ) : Step .free (.kept t false)
  | enter (t : ℕ) : Step (.kept t false) (.kept t true)
  | leave (t : ℕ) : Step (.kept t true) (.kept t false)
  | leaveLost (t : ℕ) : Step (.kept t true) .free
  | giveBack (t : ℕ) : Step (.kept t false) .free

/-- What the lock records of an owner. -/
inductive Records (l : SCriticalRegionLock) (ph : ℕ → Phase) : OwnerLock → Prop
  | free (htype : l.mNLockingType = .noLock) (hnone : ∀ t, ph t ≠ .inRegion) : Records l ph .free
  | held (owner : ℕ) (htype : l.mNLockingType = .shortLockUnlock) (hpid : l.mLnPID = owner)
      (hinside : ∀ t, ph t = .inRegion ↔ t = owner) : Records l ph (.held owner)
  | kept (owner : ℕ) (inside : Bool) (htype : l.mNLockingType = .longLockUnlock)
      (hpid : l.mLnPID = owner) (hinside : ∀ t, ph t = .inRegion ↔ t = owner ∧ inside = true) :
        Records l ph (.kept owner inside)

section
variable {l l' : SCriticalRegionLock} {ph : ℕ → Phase} {t : ℕ} {a : OwnerLock}

/-- Some steps of the owner lock lead to one that is recorded. -/
def Goes (a : OwnerLock) (l : SCriticalRegionLock) (ph : ℕ → Phase) : Prop :=
  ∃ a', Relation.ReflTransGen OwnerLock.Step a a' ∧ Records l ph a'

theorem Records.goes (h : Records l ph a) : Goes a l ph := ⟨a, .refl, h⟩

theorem Records.congr (h : Records l ph a) {ph' : ℕ → Phase}
    (htype : l'.mNLockingType = l.mNLockingType) (hpid : l'.mLnPID = l.mLnPID)
    (hph : ∀ t, ph' t = .inRegion ↔ ph t = .inRegion) : Records l' ph' a := by
  cases h with
  | free hno hnone => exact .free (htype.trans hno) fun t => (not_congr (hph t)).mpr (hnone t)
  | held owner hshort hown hinside =>
    exact .held owner (htype.trans hshort) (hpid.trans hown) fun t => (hph t).trans (hinside t)
  | kept owner inside hlong hown hinside =>
    exact .kept owner inside (htype.trans hlong) (hpid.trans hown) fun t =>
      (hph t).trans (hinside t)

theorem update_inRegion {x : Phase} (hx : x = .inRegion ↔ ph t = .inRegion) (u : ℕ) :
    Function.update ph t x u = .inRegion ↔ ph u = .inRegion := by
  by_cases hu : u = t
  · subst hu
    rwa [Function.update_self]
  · rw [Function.update_of_ne hu]

/-- One thread enters the region or leaves it, and no other thread is in it. -/
theorem update_only {x : Phase} (hothers : ∀ u, u ≠ t → ph u = .neutral) (u : ℕ) :
    Function.update ph t x u = .inRegion ↔ u = t ∧ x = .inRegion := by
  by_cases hu : u = t
  · subst hu
    simp
  · simp [hu, hothers u hu]

theorem Records.enter (h : Records l ph a) (hinv : LockInv l ph) (ht : ph t = .neutral) :
    Goes a (enterSection t l).2
      (Function.update ph t (phaseAfter (.enterSection t) (enterSection t l).1)) := by
  unfold enterSection
  split_ifs with hpid
  · cases hinv with
    | free _ _ hnobody | pending _ _ _ hnobody => omega
    | short owner _ _ hown hregion =>
      obtain rfl : t = owner := by omega
      simp [ht] at hregion
    | long owner _ htype hown _ _ hothers =>
      obtain rfl : t = owner := by omega
      cases h with
      | free hno | held _ hno => simp [htype] at hno
      | kept owner' inside _ hown' hinside =>
        obtain rfl : t = owner' := by omega
        obtain rfl : inside = false := by simpa [ht] using hinside t
        refine ⟨_, .single (.enter t), .kept t true htype hown fun u => ?_⟩
        rw [update_only hothers]
        simp [phaseAfter]
  · refine (h.congr rfl rfl fun u => ?_).goes
    exact update_inRegion (by simp [phaseAfter, ht]) u

theorem records_freed (hinside : ∀ u, ph u = .inRegion → u = t) :
    Records l.unlockSemaphore (Function.update ph t .neutral) .free := by
  refine .free rfl fun u hu => ?_
  by_cases hut : u = t
  · subst hut
    simp at hu
  · rw [Function.update_of_ne hut] at hu
    exact hut (hinside u hu)

theorem Records.leave (h : Records l ph a) (ht : ph t = .inRegion) :
    Goes a (unlockSection t .shortLockUnlock l).2 (Function.update ph t .neutral) := by
  cases h with
  | free _ hnone => exact absurd ht (hnone t)
  | held owner htype hpid hinside =>
    obtain rfl := (hinside t).mp ht
    refine ⟨.free, .single (.release t), ?_⟩
    simpa [unlockSection, htype] using records_freed fun u hu => (hinside u).mp hu
  | kept owner inside htype hpid hinside =>
    obtain ⟨rfl, rfl⟩ := (hinside t).mp ht
    simp only [unlockSection, htype, reduceCtorEq, if_false]
    split_ifs
    · exact ⟨.free, .single (.leaveLost t), records_freed fun u hu => ((hinside u).mp hu).1⟩
    · refine ⟨.kept t false, .single (.leave t), .kept t false rfl hpid fun u => ?_⟩
      by_cases hu : u = t
      · simp [hu]
      · simp [hu, hinside u]

theorem Records.unlockLong (h : Records l ph a) (hinv : LockInv l ph) (ht : ph t = .neutral) :
    Goes a (unlockSection t .longLockUnlock l).2 (Function.update ph t .neutral) := by
  have hsame : Records l (Function.update ph t .neutral) a :=
    h.congr rfl rfl (update_inRegion (by simp [ht]))
  simp only [unlockSection]
  split_ifs with hpid
  · cases h with
    | free hno =>
      cases hinv with
      | free _ _ hnobody | pending _ _ _ hnobody => omega
      | short _ _ htype | long _ _ htype => simp [hno] at htype
    | held owner _ hown hinside =>
      obtain rfl : t = owner := by omega
      exact absurd ((hinside t).mpr rfl) (by simp [ht])
    | kept owner inside _ hown hinside =>
      obtain rfl : t = owner := by omega
      obtain rfl : inside = false := by simpa [ht] using hinside t
      exact ⟨.free, .single (.giveBack t), records_freed fun u hu => ((hinside u).mp hu).1⟩
  · exact hsame.goes

theorem Records.expired (h : Records l ph a) (hinv : LockInv l ph) (ht : ph t = .neutral)
    (jiffies : UInt64) :
    Goes a (expiredSection jiffies l).2 (Function.update ph t .neutral) := by
  have hsame : Records l (Function.update ph t .neutral) a :=
    h.congr rfl rfl (update_inRegion (by simp [ht]))
  unfold expiredSection
  split_ifs with hlong hcritical
  · have hmarked : Records { l with mNShouldBeFreed := true } (Function.update ph t .neutral) a :=
      hsame.congr rfl rfl fun _ => Iff.rfl
    exact hmarked.goes
  · cases hsame with
    | free hno | held _ hno => simp [hno] at hlong
    | kept owner inside _ hown hinside =>
      cases hinv with
      | free _ hno | pending _ _ hno | short _ _ hno => simp [hno] at hlong
      | long owner' _ _ hown' _ hregion hothers =>
        obtain rfl : owner = owner' := by omega
        have hout (u : ℕ) : Function.update ph t .neutral u ≠ .inRegion := by
          intro hu
          have hin : ph u = .inRegion := (update_inRegion (by simp [ht]) u).mp hu
          obtain rfl : u = owner := inRegion_of_others hothers hin
          exact hcritical (hregion hin)
        obtain rfl : inside = false := by simpa [hout] using hinside owner
        exact ⟨.free, .single (.giveBack owner), .free rfl hout⟩
  · exact hsame.goes

theorem Records.acquired (h : Records l ph a) (hinv : LockInv l ph) (ht : ph t = .granted)
    {lockType : SemLockType} (htype : lockType = .shortLockUnlock ∨ lockType = .longLockUnlock)
    (jiffies : UInt64) :
    Goes a (acquiredSection t lockType jiffies l)
      (Function.update ph t (phaseAfter (.acquiredSection t lockType) ())) := by
  have hself {owner : ℕ} (hothers : ∀ u, u ≠ owner → ph u = .neutral) : t = owner := by
    by_contra hne
    simp [hothers t hne] at ht
  obtain ⟨hothers, hno⟩ : (∀ u, u ≠ t → ph u = .neutral) ∧ l.mNLockingType = .noLock := by
    cases hinv with
    | free _ _ _ hothers => exact absurd ht (by simp [hothers t])
    | pending taker _ hno _ _ hothers =>
      obtain rfl := hself hothers
      exact ⟨hothers, hno⟩
    | short owner _ _ _ hown hothers | long owner _ _ _ hown _ hothers =>
      obtain rfl := hself hothers
      simp [ht] at hown
  obtain rfl : a = .free := by
    cases h with
    | free => rfl
    | held _ htype | kept _ _ htype => simp [hno] at htype
  rcases htype with rfl | rfl
  · refine ⟨.held t, .single (.take t), .held t rfl rfl fun u => ?_⟩
    rw [update_only hothers]
    simp [phaseAfter]
  · refine ⟨.kept t false, .single (.keep t), .kept t false rfl rfl fun u => ?_⟩
    rw [update_only hothers]
    simp [phaseAfter]

end

theorem Records.idle {s : LockPool} {a : OwnerLock}
    (h : Records s.shared (fun t => phase (s.thread t)) a) {t : ℕ}
    {u : Thread lockInterface LockCall Place ℤ} (hu : phase u = phase (s.thread t)) :
    Goes a s.shared (fun t' => phase ((s.update s.shared t u).thread t')) := by
  rw [phase_update, hu, Function.update_eq_self]
  exact h.goes

/-- Whatever calls the threads make, also leaves and unlocks of what they do not hold: the semaphore
is never freed twice, one thread at most has it without being recorded yet, it is free exactly when
nobody has it, and a lock that nobody has carries no mark. -/
theorem semaphore_counts_any {ulnJiffiesTmOut : UInt64} {s : AnyPool}
    (h : anySystem.Steps (anyPool ulnJiffiesTmOut) s) :
    s.shared.mSemaphore ≤ 1 ∧ {t | Granted (s.thread t)}.Subsingleton ∧
    (s.shared.mSemaphore = 1 ↔ s.shared.mNLockingType = .noLock ∧ ∀ t, ¬ Granted (s.thread t)) ∧
    (s.shared.mNLockingType = .noLock → s.shared.mLnPID = -1 ∧
      s.shared.mNShouldBeFreed = false) := by
  obtain ⟨hcounted, hmarked⟩ := (anyInv_steps h).lock
  have hunmarked (hno : s.shared.mNLockingType = .noLock) : s.shared.mNShouldBeFreed = false := by
    by_contra hmark
    have hlong := (hmarked (Bool.eq_true_of_not_eq_false hmark)).1
    simp [hno] at hlong
  cases hcounted with
  | free hsem htype hpid hnone =>
    have hnobody (t : ℕ) : ¬ Granted (s.thread t) := Set.eq_empty_iff_forall_notMem.mp hnone t
    exact ⟨hsem.le, hnone ▸ Set.subsingleton_empty, iff_of_true hsem ⟨htype, hnobody⟩,
      fun hno => ⟨hpid, hunmarked hno⟩⟩
  | pending taker hsem htype hpid htaker =>
    have hgranted : Granted (s.thread taker) := htaker.ge rfl
    exact ⟨by omega, htaker ▸ Set.subsingleton_singleton, iff_of_false (by omega) fun hno =>
      hno.2 taker hgranted, fun hno => ⟨hpid, hunmarked hno⟩⟩
  | owned hsem htype hnone =>
    exact ⟨by omega, hnone ▸ Set.subsingleton_empty, iff_of_false (by omega) fun hno => htype hno.1,
      fun hno => absurd hno htype⟩

/-- Thread 2 leaves the pair of thread 1, then thread 1 leaves it too. -/
theorem semaphore_counts_any_leftTwice : ∃ s : AnyPool, anySystem.Steps (anyPool 0) s ∧
    (∀ t, s.thread t = .idle 0) ∧ s.shared.mSemaphore ≤ 1 ∧
    (s.shared.mSemaphore = 1 ↔ s.shared.mNLockingType = .noLock ∧ ∀ t, ¬ Granted (s.thread t)) := by
  have henter :
      ∃ tr l, (LockCall.enterCritRegion.program (1 : ℕ)).Run lockHandler
        (initCritRegionLock 0) tr 0 l :=
    ⟨_, _, false, _, _, rfl, rfl, false, _, _, .inr ⟨rfl, by decide, rfl⟩, rfl, (), _, _, ⟨0, rfl⟩,
      rfl, rfl, rfl, rfl⟩
  have hleave (t : ℕ) (l : SCriticalRegionLock) :
      ∃ tr nReturn, (LockCall.leaveCritRegion.program t).Run lockHandler l
      tr nReturn (unlockSection t .shortLockUnlock l).2 := ⟨_, _, _, _, _, rfl, rfl, rfl, rfl, rfl⟩
  obtain ⟨_, l, henter⟩ := henter
  obtain ⟨_, _, hfirst⟩ := hleave 2 l
  obtain ⟨_, _, hsecond⟩ := hleave 1 (unlockSection (2 : ℕ) .shortLockUnlock l).2
  have hentered :=
    Steps.run (S := anySystem) (s := anyPool 0) (t := 1) (c := .enterCritRegion) rfl trivial henter
  have hleft :=
    hentered.trans (Steps.run (S := anySystem) (t := 2) (c := .leaveCritRegion) rfl trivial hfirst)
  have htwice :=
    hleft.trans (Steps.run (S := anySystem) (t := 1) (c := .leaveCritRegion) rfl trivial hsecond)
  obtain ⟨hle, -, hiff, -⟩ := semaphore_counts_any htwice
  refine ⟨_, htwice, fun t => ?_, hle, hiff⟩
  by_cases h1 : t = 1
  · subst h1
    rfl
  · by_cases h2 : t = 2
    · subst h2
      rfl
    · rw [Pool.update_other _ _ h1, Pool.update_other _ _ h2, Pool.update_other _ _ h1]
      rfl

end Upciedev.SCriticalRegionLock
