import Upciedev.Foundations.Muted
import Upciedev.Access.VectorTransfer

/-!
# Vectors of requests

A vector of register accesses does what its descriptors do as single accesses, one after the other
up to the first one that cannot be copied, and returns the sum of their results as an `int`. Only
the lock is taken otherwise.
-/
namespace Upciedev

open Foundations Program

variable {ε : Type} {E : Environment ε} {w u : World ε} {t : Trace} {r : ℤ} {dev : Entry}

/-- The lock of the default build answers 0 and changes nothing. -/
def lockAnswer : (op : Op) → Option op.Res
  | .enterCritRegion _ | .leaveCritRegion _ => some (0 : ℤ)
  | _ => none

def unlocked (tr : Trace) : Trace := audible (I := driverInterface) lockAnswer tr

theorem idle_lock (E : Environment ε) : Idle (driver E) (I := driverInterface) lockAnswer := by
  intro op r hop s r' s'
  cases op with
  | enterCritRegion | leaveCritRegion =>
    obtain rfl := Option.some.inj hop
    exact Iff.rfl
  | _ => exact absurd hop (Option.some_ne_none _ ∘ Eq.symm)

def lockless {α : Type} (p : Kernel α) : Kernel α := mute (I := driverInterface) lockAnswer p

section
variable {α : Type}

theorem lockless_enter (dev : Entry) (k : ℤ → Kernel α) :
    lockless (call (I := driverInterface) (.enterCritRegion dev) k) = lockless (k 0) := rfl

theorem lockless_leave (dev : Entry) (k : ℤ → Kernel α) :
    lockless (call (I := driverInterface) (.leaveCritRegion dev) k) = lockless (k 0) := rfl

theorem lockless_kernel (c : KernelCall) (k : c.Res → Kernel α) :
    lockless (call (I := driverInterface) (.kernel c) k) =
      call (I := driverInterface) (.kernel c) fun r => lockless (k r) := rfl

@[simp] theorem lockless_ret (a : α) : lockless (ret a) = ret a := rfl

theorem lockless_withCritRegion (dev : Entry) (body : Kernel ℤ) :
    lockless (withCritRegion dev body) = lockless body := by
  simp [withCritRegion, lockless_enter]

theorem lockless_leaveWith (dev : Entry) (retval : ℤ) :
    lockless (leaveWith dev retval) = ret retval := by
  simp [leaveWith, lockless_leave]

end

def descriptorAccess (dev : Entry) (rw : DeviceIocRw) : Kernel ℤ := do
  let regSize ← correctFrom dev rw.registerSize.toNat
  transfer dev regSize rw

theorem lockless_singleIocTransfer (dev : Entry) (regSize : UInt16) (rw : DeviceIocRw) :
    lockless (singleIocTransfer dev regSize rw) =
      lockless (transfer dev regSize rw) >>= fun moved => ret (wrapInt moved) := by
  have hlocked (p : Kernel ℤ) :
      lockless (withCritRegion dev (p >>= fun retval => leaveWith dev (wrapInt retval))) =
        lockless p >>= fun moved => ret (wrapInt moved) := by
    rw [lockless_withCritRegion, lockless, mute_bind]
    congr 1
  unfold singleIocTransfer transfer
  split_ifs
  · exact hlocked _
  · exact mute_bind _ _
  · exact hlocked _

theorem lockless_ioctlSingleIocAccess (dev : Entry) (arg : UInt64) :
    lockless (ioctlSingleIocAccess dev arg) =
      call (I := driverInterface) (.kernel (.copyFromUser .deviceIocRw arg)) fun copied =>
        copied.elim (ret eFault) fun rw => lockless (descriptorAccess dev rw) >>= fun moved =>
          ret (wrapInt moved) := by
  unfold ioctlSingleIocAccess
  rw [lockless_withCritRegion]
  simp only [perform_eq, call_bind, ret_bind, lockless_kernel]
  congr 1
  funext copied
  cases copied with
  | none => exact lockless_leaveWith _ _
  | some rw' =>
    simp only [Option.elim_some, descriptorAccess, lockless, mute_bind, bind_assoc]
    congr 1
    funext regSize
    exact lockless_singleIocTransfer dev regSize rw'

theorem lockless_vectorLoop (dev : Entry) (n : ℕ) (src : UInt64) (retval : ℤ) :
    lockless (vectorLoop dev (n + 1) src retval) =
      call (I := driverInterface) (.kernel (.copyFromUser .deviceIocRw src)) fun copied =>
        copied.elim (ret retval) fun rw => lockless (descriptorAccess dev rw) >>= fun moved =>
          lockless (vectorLoop dev n (src + 32) (wrapInt (retval + moved))) := by
  rw [vectorLoop]
  simp only [perform_eq, call_bind, ret_bind, lockless_kernel]
  congr 1
  funext copied
  cases copied with
  | none => rfl
  | some rw' => simp only [Option.elim_some, descriptorAccess, lockless, mute_bind, bind_assoc]

theorem lockless_ioctlVectorRw (dev : Entry) (arg : UInt64) :
    lockless (ioctlVectorRw dev arg) =
      call (I := driverInterface) (.kernel (.copyFromUser .deviceVectorRw arg)) fun copied =>
        copied.elim (ret eFault) fun vector =>
          lockless
            (vectorLoop dev (cInt vector.numberOfRw.toUInt32).toNat vector.deviceIocRwPtr 0) := by
  unfold ioctlVectorRw
  simp only [perform_eq, call_bind, ret_bind, lockless_kernel]
  congr 1
  funext copied
  cases copied with
  | none => rfl
  | some vector =>
    simp only [Option.elim_some, lockless_withCritRegion]
    rw [lockless, mute_bind]
    exact bind_ret _

def Uncopied (src : UInt64) (t : Trace) : Prop :=
  t.head? = some ⟨.kernel (.copyFromUser .deviceIocRw src), none⟩

/-- Single accesses for `n` descriptors from `src` on, one after the other, with their results. -/
inductive InTurn (E : Environment ε) (dev : Entry) : ℕ → UInt64 → World ε → Trace → List ℤ →
    World ε → Prop
  | done {src : UInt64} {w : World ε} : InTurn E dev 0 src w [] [] w
  | stopped {n : ℕ} {src : UInt64} {w u : World ε} {tr : Trace} {r : ℤ}
      (hrun : (ioctlSingleIocAccess dev src).Run (driver E) w tr r u)
      (hcopy : Uncopied src (unlocked tr)) :
      InTurn E dev (n + 1) src w (unlocked tr) [] u
  | next {n : ℕ} {src : UInt64} {w u v : World ε} {tr t : Trace} {r : ℤ} {rs : List ℤ}
      (hrun : (ioctlSingleIocAccess dev src).Run (driver E) w tr r u)
      (hcopy : ¬ Uncopied src (unlocked tr)) (h : InTurn E dev n (src + 32) u t rs v) :
        InTurn E dev (n + 1) src w (unlocked tr ++ t) (r :: rs) v

theorem lockless_run (p : Kernel ℤ) : (lockless p).Run (driver E) w t r u ↔
    ∃ tr, p.Run (driver E) w tr r u ∧ unlocked tr = t := run_mute (idle_lock E) p w t r u

theorem single_run {src : UInt64} :
    (lockless (ioctlSingleIocAccess dev src)).Run (driver E) w t r u ↔
    (∃ e, E (.copyFromUser .deviceIocRw src) w.env none e ∧
      t = [⟨.kernel (.copyFromUser .deviceIocRw src), none⟩] ∧ r = eFault ∧ u = w.withEnv e) ∨
    ∃ rw e t' moved, E (.copyFromUser .deviceIocRw src) w.env (some rw) e ∧
      t = ⟨.kernel (.copyFromUser .deviceIocRw src), some rw⟩ :: t' ∧
      (lockless (descriptorAccess dev rw)).Run (driver E) (w.withEnv e) t' moved u ∧
        r = wrapInt moved := by
  rw [lockless_ioctlSingleIocAccess]
  constructor
  · rintro ⟨copied, w', rest, ⟨e, hE, rfl⟩, rfl, hrun⟩
    cases copied with
    | none =>
      obtain ⟨rfl, rfl, rfl⟩ := hrun
      exact .inl ⟨e, hE, rfl, rfl, rfl⟩
    | some rw' =>
      obtain ⟨t', moved, x, t'', haccess, rfl, rfl, rfl, rfl⟩ := (run_bind ..).mp hrun
      rw [List.append_nil]
      exact .inr ⟨rw', e, t', moved, hE, rfl, haccess, rfl⟩
  · rintro (⟨e, hE, rfl, rfl, rfl⟩ | ⟨rw', e, t', moved, hE, rfl, haccess, rfl⟩)
    · exact ⟨none, w.withEnv e, [], ⟨e, hE, rfl⟩, rfl, rfl, rfl, rfl⟩
    · refine ⟨some rw', w.withEnv e, t', ⟨e, hE, rfl⟩, rfl, (run_bind ..).mpr ?_⟩
      exact ⟨t', moved, u, [], haccess, (List.append_nil t').symm, rfl, rfl, rfl⟩

theorem wrapInt_add_right (x y z : ℤ) :
    wrapInt (wrapInt (x + y) + z) = wrapInt (x + (wrapInt y + z)) := by
  calc wrapInt (wrapInt (x + y) + z)
      = wrapInt (x + y + z) := wrapInt_add _ _
    _ = wrapInt (y + (z + x)) := by rw [add_assoc, add_comm x, add_assoc]
    _ = wrapInt (wrapInt y + (z + x)) := (wrapInt_add _ _).symm
    _ = wrapInt (x + (wrapInt y + z)) := by rw [← add_assoc, add_comm x]

theorem vectorLoop_inTurn (n : ℕ) (src : UInt64) (retval : ℤ) (hint : wrapInt retval = retval) :
    (lockless (vectorLoop dev n src retval)).Run (driver E) w t r u ↔
      ∃ rs, InTurn E dev n src w t rs u ∧ r = wrapInt (retval + rs.sum) := by
  induction n generalizing src retval w t with
  | zero =>
    constructor
    · rintro ⟨rfl, rfl, rfl⟩
      exact ⟨[], .done, by simp [hint]⟩
    · rintro ⟨rs, h, rfl⟩
      cases h with
      | done => exact ⟨rfl, by simp [hint], rfl⟩
  | succ n ih =>
    have hrest (moved : ℤ) : wrapInt (wrapInt (retval + moved)) = wrapInt (retval + moved) := by
      simpa using wrapInt_add (retval + moved) 0
    rw [lockless_vectorLoop]
    constructor
    · rintro ⟨copied, w', rest, ⟨e, hE, rfl⟩, rfl, hrun⟩
      cases copied with
      | none =>
        obtain ⟨rfl, rfl, rfl⟩ := hrun
        obtain ⟨tr, htr, hunlocked⟩ :=
          (lockless_run _).mp (single_run.mpr (.inl ⟨e, hE, rfl, rfl, rfl⟩))
        refine ⟨[], hunlocked ▸ .stopped htr ?_, by simp [hint]⟩
        rw [hunlocked]
        rfl
      | some rw' =>
        obtain ⟨t₁, moved, x, t₂, haccess, rfl, hloop⟩ := (run_bind ..).mp hrun
        obtain ⟨rs, hturn, rfl⟩ := (ih _ _ (hrest moved)).mp hloop
        obtain ⟨tr, htr, hunlocked⟩ := (lockless_run _).mp
          (single_run.mpr (.inr ⟨rw', e, t₁, moved, hE, rfl, haccess, rfl⟩))
        refine ⟨wrapInt moved :: rs, ?_, ?_⟩
        · have hturn' := InTurn.next htr (by simp [Uncopied, hunlocked]) hturn
          rwa [hunlocked] at hturn'
        · rw [List.sum_cons, wrapInt_add_right]
    · rintro ⟨rs, h, rfl⟩
      cases h with
      | stopped hrun hcopy =>
        rcases single_run.mp ((lockless_run _).mpr ⟨_, hrun, rfl⟩) with
          ⟨e, hE, htrace, -, rfl⟩ | ⟨rw', e, t', moved, -, htrace, -⟩
        · rw [htrace]
          exact ⟨none, w.withEnv e, [], ⟨e, hE, rfl⟩, rfl, rfl, by simp [hint], rfl⟩
        · exact absurd hcopy (by simp [Uncopied, htrace])
      | next hrun hcopy hturn =>
        rcases single_run.mp ((lockless_run _).mpr ⟨_, hrun, rfl⟩) with
          ⟨e, hE, htrace, -⟩ | ⟨rw', e, t', moved, hE, htrace, haccess, rfl⟩
        · exact absurd (by simp [Uncopied, htrace]) hcopy
        · rw [htrace]
          refine ⟨some rw', w.withEnv e, _, ⟨e, hE, rfl⟩, rfl, (run_bind ..).mpr ?_⟩
          refine ⟨t', moved, _, _, haccess, rfl, (ih _ _ (hrest moved)).mpr ⟨_, hturn, ?_⟩⟩
          rw [List.sum_cons, wrapInt_add_right]

/-- A vector whose header is copied does what its descriptors do as single accesses, in turn up to
the first one that cannot be copied, and returns the sum of what they return. -/
theorem vector_as_singles (arg : UInt64) :
    (∃ tr, (ioctlVectorRw dev arg).Run (driver E) w tr r u ∧ unlocked tr = t) ↔
      (∃ e, E (.copyFromUser .deviceVectorRw arg) w.env none e ∧
        t = [⟨.kernel (.copyFromUser .deviceVectorRw arg), none⟩] ∧ r = eFault ∧ u = w.withEnv e) ∨
      ∃ (vector : DeviceVectorRw) (e : ε) (t' : Trace) (rs : List ℤ),
        E (.copyFromUser .deviceVectorRw arg) w.env (some vector) e ∧
        t = ⟨.kernel (.copyFromUser .deviceVectorRw arg), some vector⟩ :: t' ∧
        InTurn E dev (cInt vector.numberOfRw.toUInt32).toNat vector.deviceIocRwPtr
          (w.withEnv e) t' rs u ∧
        r = wrapInt rs.sum := by
  rw [← lockless_run, lockless_ioctlVectorRw]
  constructor
  · rintro ⟨copied, w', rest, ⟨e, hE, rfl⟩, rfl, hrun⟩
    cases copied with
    | none =>
      obtain ⟨rfl, rfl, rfl⟩ := hrun
      exact .inl ⟨e, hE, rfl, rfl, rfl⟩
    | some vector =>
      obtain ⟨rs, hturn, hr⟩ := (vectorLoop_inTurn _ _ 0 rfl).mp hrun
      exact .inr ⟨vector, e, rest, rs, hE, rfl, hturn, by simpa using hr⟩
  · rintro (⟨e, hE, rfl, rfl, rfl⟩ | ⟨vector, e, t', rs, hE, rfl, hturn, rfl⟩)
    · exact ⟨none, w.withEnv e, [], ⟨e, hE, rfl⟩, rfl, rfl, rfl, rfl⟩
    · refine ⟨some vector, w.withEnv e, t', ⟨e, hE, rfl⟩, rfl, ?_⟩
      exact (vectorLoop_inTurn _ _ 0 rfl).mpr ⟨rs, hturn, by rw [zero_add]⟩

end Upciedev
