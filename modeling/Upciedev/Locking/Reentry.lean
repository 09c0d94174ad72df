import Upciedev.Locking.MutualExclusion

/-!
# Re-entry of an owner

One thread alone enters and leaves the region of the semaphore lock. It is let in again while it is
inside, but nothing counts how often: the first leave frees the lock, also that of an inner pair.
-/
namespace Upciedev.SCriticalRegionLock

open Foundations Program

variable {t : ℕ} {l : SCriticalRegionLock} {cs : List LockCall}

/-- Without other threads `down_timeout` takes a free semaphore at once and expires on a taken
one. -/
def aloneHandler : Handler lockInterface SCriticalRegionLock
  | .downTimeout, l, r, l' =>
      if 0 < l.mSemaphore then r = false ∧ l' = { l with mSemaphore := l.mSemaphore - 1 }
      else r = true ∧ l' = l
  | op, l, r, l' => lockHandler op l r l'

/-- Every leave matches an enter before it, and every enter a leave after it. -/
inductive Balanced : List LockCall → Prop
  | nil : Balanced []
  | pair {inner rest : List LockCall} (hinner : Balanced inner) (hrest : Balanced rest) :
      Balanced (.enterCritRegion :: inner ++ .leaveCritRegion :: rest)

def depthAfter : LockCall → ℕ → ℕ
  | .enterCritRegion, depth => depth + 1
  | .leaveCritRegion, depth => depth - 1
  | _, depth => depth

/-- Nobody has the lock; what an earlier owner left in the flags does not matter. -/
structure Free (l : SCriticalRegionLock) : Prop where
  mSemaphore : l.mSemaphore = 1
  mLnPID : l.mLnPID = -1
  mNLockingType : l.mNLockingType = .noLock

structure HeldBy (t : ℕ) (l : SCriticalRegionLock) : Prop where
  mSemaphore : l.mSemaphore = 0
  mLnPID : l.mLnPID = t

/-- Every state on the way has a semaphore count of at most one. -/
def AtMostOne {α : Type} : LockProgram α → SCriticalRegionLock → Prop
  | .ret _, l => l.mSemaphore ≤ 1
  | .call op k, l => l.mSemaphore ≤ 1 ∧ ∀ r l', aloneHandler op l r l' → AtMostOne (k r) l'

/-- An enter succeeds without waiting, and the lock is held exactly while a pair is open. -/
structure CallBalanced (t depth : ℕ) (c : LockCall) (tr : List (Event lockInterface)) (nReturn : ℤ)
    (l : SCriticalRegionLock) : Prop where
  result : c = .enterCritRegion → nReturn = 0
  noWait : (⟨.downTimeout, true⟩ : Event lockInterface) ∉ tr
  held : depthAfter c depth ≠ 0 → HeldBy t l
  free : depthAfter c depth = 0 → Free l

/-- The calls of thread `t`, made one after the other with `depth` pairs open, return, and each of
them is balanced. -/
def CallsBalanced (t : ℕ) : List LockCall → ℕ → SCriticalRegionLock → Prop
  | [], _, _ => True
  | c :: cs, depth, l =>
      AtMostOne (c.program t) l ∧ (c.program t).twp aloneHandler l fun tr nReturn l' =>
      CallBalanced t depth c tr nReturn l' ∧ CallsBalanced t cs (depthAfter c depth) l'

/-- The state of a short owner. -/
structure HeldShortBy (t : ℕ) (l : SCriticalRegionLock) : Prop extends HeldBy t l where
  mNLockingType : l.mNLockingType = .shortLockUnlock

theorem enterSection_other (hpid : l.mLnPID = -1) : enterSection t l = (false, l) := by
  rw [enterSection, if_neg]
  omega

theorem enterSection_owner (hpid : l.mLnPID = t) :
    enterSection t l = (true, { l with mNInCriticalRegion := true }) := by
  rw [enterSection, if_pos hpid.symm]

theorem lockCritRegionLoop_free (hone : l.mSemaphore = 1) (n : ℕ) :
    AtMostOne (lockCritRegionLoop t .shortLockUnlock (n + 1)) l ∧
      (lockCritRegionLoop t .shortLockUnlock (n + 1)).twp aloneHandler l fun tr nReturn l' =>
        nReturn = 0 ∧ (⟨.downTimeout, true⟩ : Event lockInterface) ∉ tr ∧ HeldShortBy t l' := by
  have hdown {r : Bool} {l' : SCriticalRegionLock} : aloneHandler .downTimeout l r l' ↔
      r = false ∧ l' = { l with mSemaphore := 0 } := by
    simp [aloneHandler, hone]
  simp only [lockCritRegionLoop, performLock, perform_eq, call_bind, ret_bind, pure_eq]
  constructor
  · refine ⟨hone.le, fun r l' hop => ?_⟩
    obtain ⟨rfl, rfl⟩ := hdown.mp hop
    refine ⟨Nat.zero_le 1, ?_⟩
    rintro _ _ ⟨jiffies, rfl⟩
    exact Nat.zero_le 1
  · refine ⟨⟨false, _, hdown.mpr ⟨rfl, rfl⟩⟩, fun r l' hop => ?_⟩
    obtain ⟨rfl, rfl⟩ := hdown.mp hop
    refine ⟨⟨(), _, 0, rfl⟩, ?_⟩
    rintro _ _ ⟨jiffies, rfl⟩
    exact ⟨rfl, by simp, ⟨rfl, rfl⟩, rfl⟩

theorem enter_free (h : Free l) :
    AtMostOne (enterCritRegion t) l ∧ (enterCritRegion t).twp aloneHandler l fun tr nReturn l' =>
      nReturn = 0 ∧ (⟨.downTimeout, true⟩ : Event lockInterface) ∉ tr ∧ HeldShortBy t l' := by
  have hsection {r : Bool} {l' : SCriticalRegionLock} : aloneHandler (.enterSection t) l r l' ↔
      r = false ∧ l' = l := by
    simp [aloneHandler, lockHandler, enterSection_other h.mLnPID]
  obtain ⟨hcount, hwait⟩ := lockCritRegionLoop_free (t := t) h.mSemaphore 99
  constructor
  · refine ⟨h.mSemaphore.le, fun r l' hop => ?_⟩
    obtain ⟨rfl, rfl⟩ := hsection.mp hop
    exact hcount
  · refine ⟨⟨false, l, hsection.mpr ⟨rfl, rfl⟩⟩, fun r l' hop => ?_⟩
    obtain ⟨rfl, rfl⟩ := hsection.mp hop
    apply twp_mono hwait
    intro tr nReturn l' hpost
    obtain ⟨hdone, hprompt, hheld⟩ := hpost
    exact ⟨hdone, by simpa using hprompt, hheld⟩

theorem enter_held (h : HeldShortBy t l) :
    AtMostOne (enterCritRegion t) l ∧ (enterCritRegion t).twp aloneHandler l fun tr nReturn l' =>
      nReturn = 0 ∧ (⟨.downTimeout, true⟩ : Event lockInterface) ∉ tr ∧ HeldShortBy t l' := by
  have hsection {r : Bool} {l' : SCriticalRegionLock} : aloneHandler (.enterSection t) l r l' ↔
      r = true ∧ l' = { l with mNInCriticalRegion := true } := by
    simp [aloneHandler, lockHandler, enterSection_owner h.mLnPID]
  have hle : l.mSemaphore ≤ 1 := h.mSemaphore.le.trans (Nat.zero_le 1)
  constructor
  · refine ⟨hle, fun r l' hop => ?_⟩
    obtain ⟨rfl, rfl⟩ := hsection.mp hop
    exact hle
  · refine ⟨⟨true, _, hsection.mpr ⟨rfl, rfl⟩⟩, fun r l' hop => ?_⟩
    obtain ⟨rfl, rfl⟩ := hsection.mp hop
    exact ⟨rfl, by simp, ⟨h.mSemaphore, h.mLnPID⟩, h.mNLockingType⟩

theorem leave_held (h : HeldShortBy t l) :
    AtMostOne (leaveCritRegion t) l ∧ (leaveCritRegion t).twp aloneHandler l fun tr _ l' =>
      (⟨.downTimeout, true⟩ : Event lockInterface) ∉ tr ∧ Free l' := by
  have hsection {r : ℤ} {l' : SCriticalRegionLock} :
      aloneHandler (.unlockSection t .shortLockUnlock) l r l' ↔ r = 0 ∧ l' = l.unlockSemaphore := by
    simp [aloneHandler, lockHandler, unlockSection, h.mNLockingType]
  have hfree : Free l.unlockSemaphore := ⟨by simp [unlockSemaphore, up, h.mSemaphore], rfl, rfl⟩
  constructor
  · refine ⟨h.mSemaphore.le.trans (Nat.zero_le 1), fun r l' hop => ?_⟩
    obtain ⟨rfl, rfl⟩ := hsection.mp hop
    exact hfree.mSemaphore.le
  · refine ⟨⟨0, _, hsection.mpr ⟨rfl, rfl⟩⟩, fun r l' hop => ?_⟩
    obtain ⟨rfl, rfl⟩ := hsection.mp hop
    exact ⟨by simp, hfree⟩

theorem not_callsBalanced_of_held (h : HeldShortBy t l) {depth : ℕ} (hdepth : 2 ≤ depth)
    (hcalls : ∀ c ∈ cs, c = .enterCritRegion ∨ c = .leaveCritRegion)
    (hleave : .leaveCritRegion ∈ cs) :
    ¬ CallsBalanced t cs depth l := by
  induction cs generalizing depth l with
  | nil => simp at hleave
  | cons c cs ih =>
    rintro ⟨-, hcall⟩
    obtain ⟨hthis, hrest⟩ := List.forall_mem_cons.mp hcalls
    rcases hthis with rfl | rfl
    · obtain ⟨_, _, l', -, ⟨-, hnext⟩, -, -, hheld⟩ := (hcall.and_wp (enter_held h).2.wp).exists_run
      exact ih hheld (by simp only [depthAfter]; omega) hrest (by simpa using hleave) hnext
    · obtain ⟨_, _, l', -, ⟨hbalanced, -⟩, -, hfree⟩ :=
        (hcall.and_wp (leave_held h).2.wp).exists_run
      have hkept := hbalanced.held (by simp only [depthAfter]; omega)
      have hzero := hkept.mSemaphore
      rw [hfree.mSemaphore] at hzero
      exact absurd hzero one_ne_zero

theorem Balanced.calls (h : Balanced cs) : ∀ c ∈ cs, c = .enterCritRegion ∨
    c = .leaveCritRegion := by
  induction h with
  | nil => simp
  | pair _ _ ihinner ihrest =>
    intro c hc
    simp only [List.cons_append, List.mem_cons, List.mem_append] at hc
    rcases hc with rfl | hc | rfl | hc
    · exact .inl rfl
    · exact ihinner c hc
    · exact .inr rfl
    · exact ihrest c hc

/-- Without a pair inside, the first pair leaves a free lock to the rest of the sequence. -/
theorem callsBalanced_flat (h : Free l) {rest : List LockCall} {P : Prop}
    (hrest : ∀ l', Free l' → (CallsBalanced t rest 0 l' ↔ P)) :
    CallsBalanced t (.enterCritRegion :: .leaveCritRegion :: rest) 0 l ↔ P := by
  constructor
  · rintro ⟨-, hcalls⟩
    obtain ⟨_, _, l', -, ⟨-, -, hcalls'⟩, -, -, hheld⟩ :=
      (hcalls.and_wp (enter_free h).2.wp).exists_run
    obtain ⟨_, _, l'', -, ⟨-, hnext⟩, -, hfree⟩ :=
      (hcalls'.and_wp (leave_held hheld).2.wp).exists_run
    exact (hrest l'' hfree).mp hnext
  · intro hP
    obtain ⟨hcount, henter⟩ := enter_free (t := t) h
    refine ⟨hcount, twp_mono henter fun _ nReturn l' hpost => ?_⟩
    obtain ⟨hdone, hprompt, hheld⟩ := hpost
    obtain ⟨hcount', hleave⟩ := leave_held hheld
    refine ⟨⟨fun _ => hdone, hprompt, fun _ => hheld.toHeldBy, nofun⟩, hcount', ?_⟩
    apply twp_mono hleave
    intro _ _ l'' hpost
    obtain ⟨hprompt', hfree⟩ := hpost
    exact ⟨⟨nofun, hprompt', fun hopen => absurd rfl hopen, fun _ => hfree⟩,
      (hrest l'' hfree).mpr hP⟩

/-- An enter inside a pair: the leave that comes next is followed by another one. -/
theorem not_callsBalanced_nested (h : Free l)
    (hcalls : ∀ c ∈ cs, c = .enterCritRegion ∨ c = .leaveCritRegion)
    (hleave : .leaveCritRegion ∈ cs) :
    ¬ CallsBalanced t (.enterCritRegion :: .enterCritRegion :: cs) 0 l := by
  rintro ⟨-, hfirst⟩
  obtain ⟨_, _, l', -, ⟨-, -, hsecond⟩, -, -, hheld⟩ :=
    (hfirst.and_wp (enter_free h).2.wp).exists_run
  obtain ⟨_, _, l'', -, ⟨-, hnext⟩, -, -, hheld'⟩ :=
    (hsecond.and_wp (enter_held hheld).2.wp).exists_run
  exact not_callsBalanced_of_held hheld' le_rfl hcalls hleave hnext

/-- A balanced sequence keeps the lock exactly if no pair is opened inside another one. -/
theorem reentry_balanced_iff (hcs : Balanced cs) (h : Free l) :
    CallsBalanced t cs 0 l ↔ ¬ [.enterCritRegion, .enterCritRegion] <:+: cs := by
  induction hcs generalizing l with
  | nil => simp [CallsBalanced]
  | @pair inner rest hinner hrest _ ih =>
    cases hinner with
    | nil =>
      have hpairs :
          [.enterCritRegion, .enterCritRegion] <:+: .enterCritRegion :: [] ++
            .leaveCritRegion :: rest ↔
          [.enterCritRegion, .enterCritRegion] <:+: rest := by
        simp [List.infix_cons_iff]
      rw [hpairs]
      exact callsBalanced_flat h fun l' => ih
    | @pair inner' rest' hinner' hrest' =>
      have hpairs : [.enterCritRegion, .enterCritRegion] <:+:
          .enterCritRegion :: (.enterCritRegion :: inner' ++ .leaveCritRegion :: rest') ++
            .leaveCritRegion :: rest := ⟨[], _, rfl⟩
      have hnested : ¬ CallsBalanced t (.enterCritRegion :: .enterCritRegion ::
          (inner' ++ .leaveCritRegion :: rest' ++ .leaveCritRegion :: rest)) 0 l := by
        apply not_callsBalanced_nested h
        · intro c hc
          apply (Balanced.pair (.pair hinner' hrest') hrest).calls c
          simp only [List.cons_append, List.mem_cons]
          exact .inr (.inr hc)
        · simp
      exact iff_of_false hnested (not_not.mpr hpairs)

/-- A pair after a pair. -/
theorem reentry_balanced_iff_twoPairs : CallsBalanced 1
    [.enterCritRegion, .leaveCritRegion, .enterCritRegion, .leaveCritRegion] 0
      (initCritRegionLock 0) :=
  (reentry_balanced_iff (.pair .nil (.pair .nil .nil)) ⟨rfl, rfl, rfl⟩).mpr (by decide)

/-- A pair in a pair: the inner leave frees the lock before the outer one. -/
theorem inner_leave_frees :
    Balanced [.enterCritRegion, .enterCritRegion, .leaveCritRegion, .leaveCritRegion] ∧
      ¬ CallsBalanced 1 [.enterCritRegion, .enterCritRegion, .leaveCritRegion, .leaveCritRegion] 0
        (initCritRegionLock 0) :=
  ⟨.pair (.pair .nil .nil) .nil, not_callsBalanced_nested ⟨rfl, rfl, rfl⟩ (by simp) (by simp)⟩

end Upciedev.SCriticalRegionLock
