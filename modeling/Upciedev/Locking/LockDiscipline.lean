import Upciedev.Foundations.LockUsage
import Upciedev.Model.Execute
import Upciedev.Model.Footprint

/-!
# Lock discipline of the entry points

Every entry point takes and leaves the lock of the board entry by hand. Almost all
calls use it properly. The exceptions are a plain read or write whose request cannot
be copied, which keeps the lock, and `PCIEDEV_SINGLE_IOC_ACCESS` whose request was
copied, which takes the lock a second time or never leaves it.
-/
namespace Upciedev

open Foundations Program

/-- What an event of a run does to the lock of `d`. -/
def lockAct (d : Entry) : Event driverInterface → Option LockAct
  | ⟨.enterCritRegion d', r⟩ => if d' = d then some (.enter (decide (r = (0 : ℤ)))) else none
  | ⟨.leaveCritRegion d', _⟩ => if d' = d then some .leave else none
  | _ => none

def lockActs (d : Entry) (tr : Trace) : List LockAct := tr.filterMap (lockAct d)

@[reducible] def Op.Quiet : Op → Prop
  | .enterCritRegion _ | .leaveCritRegion _ => False
  | _ => True

/-- The operation does nothing to any lock, the long lock included. -/
@[reducible] def Op.LockFree : Op → Prop
  | .enterCritRegion _ | .leaveCritRegion _ => False
  | .longLockOfCriticalRegion _ | .unlockLongCritRegion _ => False
  | _ => True

theorem Op.LockFree.quiet {op : Op} (h : op.LockFree) : op.Quiet := by
  cases op <;> trivial

theorem lockAct_of_quiet {e : Event driverInterface} (h : e.op.Quiet) (d : Entry) :
    lockAct d e = none := by
  obtain ⟨op, r⟩ := e
  cases op <;> first | rfl | exact h.elim

@[simp] theorem lockActs_nil (d : Entry) : lockActs d [] = [] := rfl

@[simp] theorem lockActs_append (d : Entry) (tr tr' : Trace) :
    lockActs d (tr ++ tr') = lockActs d tr ++ lockActs d tr' := List.filterMap_append

theorem lockActs_of_quiet {tr : Trace} (h : ∀ e ∈ tr, e.op.Quiet) (d : Entry) :
    lockActs d tr = [] := by
  rw [lockActs, List.filterMap_eq_nil_iff]
  exact fun e he => lockAct_of_quiet (h e he) d

theorem lockActs_cons_quiet {op : Op} (h : op.Quiet) (r : op.Res) (d : Entry) (tr : Trace) :
    lockActs d (⟨op, r⟩ :: tr) = lockActs d tr := by
  rw [lockActs, List.filterMap_cons, lockAct_of_quiet h]
  rfl

theorem lockActs_enter (d dev : Entry) (r : ℤ) (tr : Trace) :
    lockActs d (⟨.enterCritRegion dev, r⟩ :: tr) =
      if dev = d then .enter (decide (r = 0)) :: lockActs d tr else lockActs d tr := by
  by_cases h : dev = d <;> simp [lockActs, lockAct, h]

theorem lockActs_leave (d dev : Entry) (r : ℤ) (tr : Trace) :
    lockActs d (⟨.leaveCritRegion dev, r⟩ :: tr) =
      if dev = d then .leave :: lockActs d tr else lockActs d tr := by
  by_cases h : dev = d <;> simp [lockActs, lockAct, h]

theorem inlineOp_lockFree {dev : Entry} {op : Op} (h : InlineOp dev op) : op.LockFree := by
  rcases h with h | ⟨c, rfl | rfl⟩
  · cases op <;> trivial
  · trivial
  · trivial

/-- Entered with the lock of `dev`, the program leaves it as its last operation, and does nothing
else to any lock, as long as the answers are in `ok`. -/
def LeavesAtEnd (ok : Event driverInterface → Prop) (dev : Entry) : Kernel ℤ → Prop
  | .ret _ => False
  | .call op k => (op = .leaveCritRegion dev ∧ ∃ a, ∀ r, k r = .ret a) ∨
      (op.LockFree ∧ ∀ r, ok ⟨op, r⟩ → LeavesAtEnd ok dev (k r))

/-- The ways in which a call uses a lock. -/
inductive LockUse (ok : Event driverInterface → Prop) : Kernel ℤ → Prop
  | region (dev : Entry) {body : Kernel ℤ} (h : LeavesAtEnd ok dev body) :
      LockUse ok (withCritRegion dev body)
  | lock (dev : Entry) : LockUse ok (longLockOfCriticalRegion dev)
  | unlock (dev : Entry) : LockUse ok (unlockLongCritRegion dev)

/-- The program uses a lock at most once, and nothing follows that use. -/
def UsesOneLock (ok : Event driverInterface → Prop) : Kernel ℤ → Prop
  | .ret _ => True
  | .call op k => LockUse ok (.call op k) ∨
      (op.LockFree ∧ ∀ r, ok ⟨op, r⟩ → UsesOneLock ok (k r))

section
variable {α : Type} {ok : Event driverInterface → Prop} {dev : Entry}

theorem leave_leaves (a : ℤ) :
    LeavesAtEnd ok dev (call (I := driverInterface) (.leaveCritRegion dev) fun _ => ret a) :=
  .inl ⟨rfl, a, fun _ => rfl⟩

@[simp] theorem leaveWith_leaves (retval : ℤ) : LeavesAtEnd ok dev (leaveWith dev retval) :=
  leave_leaves retval

@[simp] theorem leavesAtEnd_call {op : Op} (h : op.LockFree) (k : op.Res → Kernel ℤ) :
    LeavesAtEnd ok dev (call (I := driverInterface) op k) ↔
      ∀ r, ok ⟨op, r⟩ → LeavesAtEnd ok dev (k r) := by
  constructor
  · rintro (⟨rfl, -⟩ | ⟨-, hk⟩)
    · exact h.elim
    · exact hk
  · exact fun hk => .inr ⟨h, hk⟩

@[simp] theorem leavesAtEnd_ite (c : Prop) [Decidable c] (p q : Kernel ℤ) :
    LeavesAtEnd ok dev (if c then p else q) ↔
      (c → LeavesAtEnd ok dev p) ∧ (¬ c → LeavesAtEnd ok dev q) := by
  split_ifs with hc <;> simp [hc]

theorem LeavesAtEnd.after {p : Kernel α} {f : α → Kernel ℤ} (hp : p.Only Op.LockFree)
    (hf : ∀ a, LeavesAtEnd ok dev (f a)) : LeavesAtEnd ok dev (p >>= f) := by
  induction p with
  | ret a => exact hf a
  | call op k ih =>
    rw [only_call] at hp
    exact .inr ⟨hp.1, fun r _ => ih r (hp.2 r)⟩

@[simp] theorem answer_leaves (T : UserType) (arg : UInt64) (v : T.Val) :
    LeavesAtEnd ok dev (answer dev T arg v) := by
  simp [answer, Op.LockFree]

theorem UsesOneLock.call {op : Op} {k : op.Res → Kernel ℤ} (hop : op.LockFree)
    (hk : ∀ r, ok ⟨op, r⟩ → UsesOneLock ok (k r)) :
    UsesOneLock ok (call (I := driverInterface) op k) := .inr ⟨hop, hk⟩

theorem UsesOneLock.after {p : Kernel α} {f : α → Kernel ℤ} (hp : p.Only Op.LockFree)
    (hf : ∀ a, UsesOneLock ok (f a)) : UsesOneLock ok (p >>= f) := by
  induction p with
  | ret a => exact hf a
  | call op k ih =>
    rw [only_call] at hp
    exact .call hp.1 fun r _ => ih r (hp.2 r)

theorem UsesOneLock.of_only {p : Kernel ℤ} (h : p.Only Op.LockFree) : UsesOneLock ok p := by
  rw [← bind_ret p]
  exact .after h fun _ => trivial

theorem UsesOneLock.ite {c : Prop} [Decidable c] {p q : Kernel ℤ} (hp : c → UsesOneLock ok p)
    (hq : ¬ c → UsesOneLock ok q) : UsesOneLock ok (if c then p else q) := by
  split_ifs with hc
  · exact hp hc
  · exact hq hc

/-- A body that leaves the lock at its end is what belongs after `EnterCritRegion`. -/
theorem withCritRegion_uses {body : Kernel ℤ} (h : LeavesAtEnd ok dev body) :
    UsesOneLock ok (withCritRegion dev body) := .inl (.region dev h)

end

/-- The lock of `dev` is left once, and nothing else is done to any lock. -/
def LeavesOnce (dev : Entry) (acts : Entry → List LockAct) : Prop :=
  acts = fun d => if dev = d then [.leave] else []

def UsesProperly (acts : Entry → List LockAct) : Prop := ∀ d, LockAct.Proper (acts d)

theorem usesProperly_none : UsesProperly fun _ => [] := fun _ =>
  (LockAct.proper_iff_check []).mpr rfl

/-- In every run whose answers are in `ok`, the acts on the locks satisfy `Q`. -/
def LockEffect {α : Type} (ok : Event driverInterface → Prop)
    (Q : (Entry → List LockAct) → Prop) (p : Kernel α) : Prop :=
  p.wp (anyHandler driverInterface) () fun tr _ _ => (∀ e ∈ tr, ok e) → Q fun d => lockActs d tr

section
variable {ok : Event driverInterface → Prop} {dev : Entry} {Q : (Entry → List LockAct) → Prop}

theorem LockEffect.call {α : Type} {op : Op} {k : op.Res → Kernel α} (hop : op.Quiet)
    (hk : ∀ r, ok ⟨op, r⟩ → LockEffect ok Q (k r)) :
    LockEffect ok Q (call (I := driverInterface) op k) := by
  intro r _ _
  by_cases hr : ok ⟨op, r⟩
  · apply wp_mono (hk r hr)
    intro tr _ _ hQ hok
    simpa only [lockActs_cons_quiet hop] using hQ fun e he => hok e (List.mem_cons_of_mem _ he)
  · exact wp_of_forall fun tr _ _ hok => absurd (hok _ List.mem_cons_self) hr

theorem LeavesAtEnd.effect {p : Kernel ℤ} (h : LeavesAtEnd ok dev p) :
    LockEffect ok (LeavesOnce dev) p := by
  induction p with
  | ret a => exact h.elim
  | call op k ih =>
    rcases h with ⟨rfl, a, hk⟩ | ⟨hop, hk⟩
    · intro r _ _
      rw [hk r]
      intro _
      funext d
      rw [lockActs_leave, lockActs_nil]
    · exact .call hop.quiet fun r hr => ih r (hk r hr)

theorem LockUse.effect {p : Kernel ℤ} (h : LockUse ok p) : LockEffect ok UsesProperly p := by
  cases h with
  | region dev h =>
    intro r _ _
    refine (wp_ite ..).mpr ⟨fun hfailed _ d => ?_, fun hok => wp_mono h.effect ?_⟩
    · change LockAct.Proper (lockActs d [⟨.enterCritRegion dev, r⟩])
      rw [lockActs_enter, LockAct.proper_iff_check]
      split_ifs <;> simp [LockAct.check, hfailed]
    · intro tr _ _ hleft hall d
      have hleave := hleft fun e he => hall e (List.mem_cons_of_mem _ he)
      change LockAct.Proper (lockActs d (⟨.enterCritRegion dev, r⟩ :: tr))
      rw [lockActs_enter, congrFun hleave d, LockAct.proper_iff_check]
      split_ifs <;> simp_all [LockAct.check]
  | lock dev => exact .call trivial fun _ _ _ => usesProperly_none
  | unlock dev => exact .call trivial fun _ _ _ => usesProperly_none

theorem UsesOneLock.effect {p : Kernel ℤ} (h : UsesOneLock ok p) :
    LockEffect ok UsesProperly p := by
  induction p with
  | ret a => exact fun _ => usesProperly_none
  | call op k ih =>
    rcases h with h | ⟨hop, hk⟩
    · exact h.effect
    · exact .call hop.quiet fun r hr => ih r (hk r hr)

end

section
variable {ok : Event driverInterface → Prop} {dev : Entry}

theorem pciedevReadInline_lockFree (c : InlineCall) : (pciedevReadInline c).Only Op.LockFree :=
  (pciedevReadInline_only c).mono fun _ => inlineOp_lockFree

theorem pciedevWriteInline_lockFree (c : InlineCall) : (pciedevWriteInline c).Only Op.LockFree :=
  (pciedevWriteInline_only c).mono fun _ => inlineOp_lockFree

theorem correctFrom_lockFree (code : ℕ) : (correctFrom dev code).Only Op.LockFree :=
  (correctFrom_only dev code).mono fun _ h => inlineOp_lockFree (.inl h)

theorem transfer_lockFree (regSize : UInt16) (rw : DeviceIocRw) :
    (transfer dev regSize rw).Only Op.LockFree :=
  (transfer_only dev regSize rw).mono fun _ => inlineOp_lockFree

theorem readScratchReg_lockFree (base : IoPtr) (data : DeviceIoctrlData) :
    (readScratchReg dev base data).Only Op.LockFree := by
  simp [readScratchReg, Op.LockFree]

theorem vectorLoop_lockFree (n : ℕ) (pUserRWdata : UInt64) (retval : ℤ) :
    (vectorLoop dev n pUserRWdata retval).Only Op.LockFree := by
  induction n generalizing pUserRWdata retval with
  | zero => trivial
  | succ n ih =>
    simp only [vectorLoop, perform_eq, call_bind, ret_bind, only_call]
    refine ⟨trivial, fun copied => ?_⟩
    cases copied with
    | none => trivial
    | some rw =>
      apply (correctFrom_lockFree _).bind
      exact fun regSize => (transfer_lockFree regSize rw).bind fun _ => ih _ _

theorem transfer_leaves {code : ℕ} {move : UInt16 → Kernel ℤ}
    (hmove : ∀ s, (move s).Only Op.LockFree) (result : ℤ → ℤ) :
    LeavesAtEnd ok dev (correctFrom dev code >>= fun regSize =>
      move regSize >>= fun retval => leaveWith dev (result retval)) :=
  .after (correctFrom_lockFree code) fun regSize => .after (hmove regSize) fun _ =>
    leaveWith_leaves _

end

theorem ioctlCase_uses {ok : Event driverInterface → Prop} (dev : Entry) (arg : UInt64)
    (c : IoctlCmd) (hc : c ≠ .singleIocAccess) : UsesOneLock ok (ioctlCase dev arg c) := by
  cases c with
  | physicalSlot =>
    apply withCritRegion_uses
    simp only [perform_eq, call_bind, ret_bind, leavesAtEnd_call, Op.LockFree]
    rintro (_ | data) <;> simp [Op.LockFree]
  | driverVersion | udriverVersion | firmwareVersion | getStatus | getShapiDevinfo =>
    apply withCritRegion_uses
    simp [Op.LockFree, uninitIoctrlData]
  | scratchReg =>
    apply withCritRegion_uses
    simp only [perform_eq, call_bind, ret_bind, leavesAtEnd_call, Op.LockFree]
    rintro (_ | data)
    · simp
    · simp only [pciedevGetBaraddress, perform_eq, call_bind, ret_bind, leavesAtEnd_ite,
        leavesAtEnd_call, Op.LockFree, answer_leaves, leaveWith_leaves, implies_true, true_and,
        and_true]
      intros
      exact .after (readScratchReg_lockFree _ _) fun _ => answer_leaves _ _ _
  | setSwap =>
    apply withCritRegion_uses
    simp only [perform_eq, call_bind, ret_bind, leavesAtEnd_call, Op.LockFree]
    rintro (_ | nUserValue) <;> simp [Op.LockFree]
  | getSwap | getRegisterSize => exact .call trivial fun _ _ => trivial
  | lockDevice => exact .inl (.lock dev)
  | unlockDevice => exact .inl (.unlock dev)
  | setBits | swapBits =>
    apply withCritRegion_uses
    simp only [perform_eq, call_bind, ret_bind, leavesAtEnd_call, Op.LockFree]
    rintro (_ | rw)
    · simp
    · exact fun _ => transfer_leaves (fun _ => pciedevWriteInline_lockFree _) wrapInt
  | lockedRead =>
    simp only [ioctlCase, ioctlLockedRead, perform_eq, call_bind, ret_bind]
    refine .call trivial ?_
    rintro (_ | rw) _
    · trivial
    · refine .after (correctFrom_lockFree _) fun regSize => withCritRegion_uses ?_
      exact .after (pciedevReadInline_lockFree _) fun _ => leaveWith_leaves _
  | vectorRw =>
    simp only [ioctlCase, ioctlVectorRw, perform_eq, call_bind, ret_bind]
    refine .call trivial ?_
    rintro (_ | vector) _
    · trivial
    · apply withCritRegion_uses
      exact .after (vectorLoop_lockFree _ _ _) fun _ => leaveWith_leaves _
  | setRegisterSize =>
    refine .call trivial ?_
    rintro (_ | nUserValue) _
    · trivial
    · exact .call trivial fun _ _ => trivial
  | singleIocAccess => exact absurd rfl hc
  | getShapiModinfo =>
    apply withCritRegion_uses
    simp only [perform_eq, call_bind, ret_bind, leavesAtEnd_call, Op.LockFree]
    rintro (_ | info) <;> simp [Op.LockFree]

/-- In every run with an answer in `L`, the acts on the locks satisfy `Q`. -/
def AfterLoss {α : Type} (L : Event driverInterface → Prop) (Q : (Entry → List LockAct) → Prop)
    (p : Kernel α) : Prop :=
  p.wp (anyHandler driverInterface) () fun tr _ _ => (∃ e ∈ tr, L e) → Q fun d => lockActs d tr

section
variable {α β : Type} {L : Event driverInterface → Prop} {dev : Entry}
  {Q : (Entry → List LockAct) → Prop}

theorem AfterLoss.of_only {p : Kernel α} (h : p.Only fun op => ∀ r, ¬ L ⟨op, r⟩) :
    AfterLoss L Q p := by
  apply h.wp
  intro tr _ _ hnone hloss
  obtain ⟨e, he, hL⟩ := hloss
  exact absurd hL (hnone e he e.res)

theorem AfterLoss.call {op : Op} {k : op.Res → Kernel α} (hop : op.Quiet)
    (hk : ∀ r, ¬ L ⟨op, r⟩ → AfterLoss L Q (k r))
    (hloss : ∀ r, L ⟨op, r⟩ → LockEffect (fun _ => True) Q (k r)) :
    AfterLoss L Q (call (I := driverInterface) op k) := by
  intro r _ _
  by_cases hr : L ⟨op, r⟩
  · apply wp_mono (hloss r hr)
    intro tr _ _ hQ _
    simpa only [lockActs_cons_quiet hop] using hQ fun _ _ => trivial
  · apply wp_mono (hk r hr)
    intro tr _ _ hQ hex
    rw [List.exists_mem_cons_iff] at hex
    simpa only [lockActs_cons_quiet hop] using hQ (hex.resolve_left hr)

theorem AfterLoss.skip {op : Op} {k : op.Res → Kernel α} (hop : op.Quiet)
    (hL : ∀ r, ¬ L ⟨op, r⟩) (hk : ∀ r, AfterLoss L Q (k r)) :
    AfterLoss L Q (Program.call (I := driverInterface) op k) :=
  .call hop (fun r _ => hk r) fun r hr => absurd hr (hL r)

theorem AfterLoss.ite {c : Prop} [Decidable c] {p q : Kernel α} (hp : c → AfterLoss L Q p)
    (hq : ¬ c → AfterLoss L Q q) : AfterLoss L Q (if c then p else q) :=
  (wp_ite ..).mpr ⟨hp, hq⟩

/-- With the lock held, the rest of the call enters again or does not leave. -/
def WrongInside (dev : Entry) (acts : Entry → List LockAct) : Prop :=
  LockAct.check true (acts dev) = false

theorem withCritRegion_afterLoss {body : Kernel ℤ} (hL : ∀ d r, ¬ L ⟨.enterCritRegion d, r⟩)
    (h : AfterLoss L (WrongInside dev) body) :
    AfterLoss L (fun acts => ¬ UsesProperly acts) (withCritRegion dev body) := by
  intro r _ _
  refine (wp_ite ..).mpr ⟨fun _ => ?_, fun hok => wp_mono h fun tr _ _ hbody => ?_⟩
  · rintro ⟨e, he, hLe⟩
    rw [List.mem_singleton.mp he] at hLe
    exact absurd hLe (hL dev r)
  · intro hloss hproper
    have hr : r = 0 := not_not.mp hok
    rw [List.exists_mem_cons_iff] at hloss
    have hwrong := hbody (hloss.resolve_left (hL dev r))
    have hdev := hproper dev
    rw [WrongInside] at hwrong
    simp [lockActs_enter, LockAct.proper_iff_check, LockAct.check, hr, hwrong] at hdev

end

section
variable (buf : UInt64)

def RequestRefused (buf : UInt64) (e : Event driverInterface) : Prop :=
  e = ⟨.kernel (.copyFromUser .deviceRw buf), (none : Option DeviceRw)⟩

theorem inlineOp_not_refused {dev : Entry} {op : Op} (h : InlineOp dev op) (r : op.Res) :
    ¬ RequestRefused buf ⟨op, r⟩ := by
  intro heq
  cases heq
  rcases h with h | ⟨c, h | h⟩
  · exact h
  · cases h
  · cases h

/-- A corrected register size, a transfer and the end of the region, with no request copied. -/
theorem plainTransfer_not_refused (dev : Entry) {code : ℕ} {move : UInt16 → Kernel ℤ}
    (hmove : ∀ s, (move s).Only (InlineOp dev)) (result : ℤ) :
    (correctFrom dev code >>= fun regSize => move regSize >>= fun _ =>
      call (I := driverInterface) (.leaveCritRegion dev) fun _ => ret result).Only
        fun op => ∀ r, ¬ RequestRefused buf ⟨op, r⟩ := by
  have hinline {β : Type} {p : Kernel β} (hp : p.Only (InlineOp dev)) :
      p.Only fun op => ∀ r, ¬ RequestRefused buf ⟨op, r⟩ :=
    hp.mono fun _ => inlineOp_not_refused buf
  refine (hinline ((correctFrom_only dev code).mono fun _ => .inl)).bind fun regSize =>
    (hinline (hmove regSize)).bind fun _ => ?_
  simp [RequestRefused]

theorem plainTransfer_leaves {ok : Event driverInterface → Prop} {dev : Entry} {code : ℕ}
    {move : UInt16 → Kernel ℤ} (hmove : ∀ s, (move s).Only (InlineOp dev)) (result : ℤ) :
    LeavesAtEnd ok dev (correctFrom dev code >>= fun regSize => move regSize >>= fun _ =>
      call (I := driverInterface) (.leaveCritRegion dev) fun _ => ret result) :=
  .after (correctFrom_lockFree code) fun regSize =>
    .after ((hmove regSize).mono fun _ => inlineOp_lockFree) fun _ => leave_leaves _

end

/-- A body of read or write leaves the lock, unless its request cannot be copied. -/
structure LosesRefused (buf : UInt64) (dev : Entry) (p : Kernel ℤ) : Prop where
  leaves : LeavesAtEnd (fun e => ¬ RequestRefused buf e) dev p
  keeps : AfterLoss (RequestRefused buf) (WrongInside dev) p

section
variable {buf : UInt64}

theorem plainTransfer_losesRefused (dev : Entry) {code : ℕ} {move : UInt16 → Kernel ℤ}
    (hmove : ∀ s, (move s).Only (InlineOp dev)) (result : ℤ) :
    LosesRefused buf dev (correctFrom dev code >>= fun regSize => move regSize >>= fun _ =>
      call (I := driverInterface) (.leaveCritRegion dev) fun _ => ret result) :=
  ⟨plainTransfer_leaves hmove result, .of_only (plainTransfer_not_refused buf dev hmove result)⟩

/-- The plain path: a request that cannot be copied ends the call with the lock held. -/
theorem plainRequest_losesRefused {dev : Entry} {k : Option DeviceRw → Kernel ℤ} (error : ℤ)
    (hnone : k none = ret error) (hsome : ∀ v, LosesRefused buf dev (k (some v))) :
    LosesRefused buf dev
      (call (I := driverInterface) (.kernel (.copyFromUser .deviceRw buf)) k) := by
  constructor
  · refine .inr ⟨trivial, ?_⟩
    rintro (_ | v) hok
    · exact absurd rfl hok
    · exact (hsome v).leaves
  · refine .call trivial ?_ ?_
    · rintro (_ | v) hok
      · exact absurd rfl hok
      · exact (hsome v).keeps
    · rintro (_ | v) hrefused
      · rw [hnone]
        exact fun _ => rfl
      · simp [RequestRefused] at hrefused

end

/-- A call uses one lock, once, as long as no answer is in `L`, and uses one wrongly after such an
answer. -/
structure LosesOn (L : Event driverInterface → Prop) (p : Kernel ℤ) : Prop where
  uses : UsesOneLock (fun e => ¬ L e) p
  loses : AfterLoss L (fun acts => ¬ UsesProperly acts) p

theorem LosesOn.ret {L : Event driverInterface → Prop} (a : ℤ) : LosesOn L (ret a) :=
  ⟨trivial, .of_only trivial⟩

theorem LosesOn.call {L : Event driverInterface → Prop} {op : Op} {k : op.Res → Kernel ℤ}
    (hop : op.LockFree) (hL : ∀ r, ¬ L ⟨op, r⟩) (hk : ∀ r, LosesOn L (k r)) :
    LosesOn L (call (I := driverInterface) op k) :=
  ⟨.call hop fun r _ => (hk r).uses, .skip hop.quiet hL fun r => (hk r).loses⟩

theorem LosesOn.ite {L : Event driverInterface → Prop} {c : Prop} [Decidable c] {p q : Kernel ℤ}
    (hp : LosesOn L p) (hq : LosesOn L q) : LosesOn L (if c then p else q) :=
  ⟨.ite (fun _ => hp.uses) fun _ => hq.uses, .ite (fun _ => hp.loses) fun _ => hq.loses⟩

theorem UsesOneLock.losesOn {L : Event driverInterface → Prop} {p : Kernel ℤ}
    (h : UsesOneLock (fun e => ¬ L e) p) (hL : ∀ e, ¬ L e) : LosesOn L p :=
  ⟨h, wp_of_forall fun _ _ _ hloss => hloss.elim fun e he => absurd he.2 (hL e)⟩

section
variable (filp : File) (buf count fPosPtr fPos : UInt64)

/-- What read and write share: the liveness check, and the region around one of two bodies. -/
theorem checkedRegion_losesOn {dead : ℤ} {body : Entry → Kernel ℤ}
    (hbody : ∀ dev, LosesRefused buf dev (body dev)) :
    LosesOn (RequestRefused buf) (call (I := driverInterface) (.privateData filp) fun dev =>
      call (I := driverInterface) (.load dev) fun v : PciedevDev =>
        if v.devSts = 0 then ret dead else withCritRegion dev (body dev)) := by
  refine .call trivial (by simp [RequestRefused]) fun dev => ?_
  refine .call trivial (by simp [RequestRefused]) fun v => .ite (.ret dead) ?_
  exact ⟨withCritRegion_uses (hbody dev).leaves,
    withCritRegion_afterLoss (by simp [RequestRefused]) (hbody dev).keeps⟩

theorem LosesRefused.ite {dev : Entry} {c : Prop} [Decidable c] {p q : Kernel ℤ}
    (hp : LosesRefused buf dev p) (hq : LosesRefused buf dev q) :
    LosesRefused buf dev (if c then p else q) := by
  split_ifs
  · exact hp
  · exact hq

theorem pciedevReadExp_losesOn :
    LosesOn (RequestRefused buf) (pciedevReadExp filp buf count fPosPtr fPos) := by
  refine checkedRegion_losesOn filp buf fun dev => .ite buf ?_ ?_
  · refine plainTransfer_losesRefused dev ?_ _
    exact fun _ => pciedevReadInline_only _
  · refine plainRequest_losesRefused eIo rfl fun reading => plainTransfer_losesRefused dev ?_ _
    exact fun _ => pciedevReadInline_only _

theorem pciedevWriteExp_losesOn :
    LosesOn (RequestRefused buf) (pciedevWriteExp filp buf count fPosPtr fPos) := by
  refine checkedRegion_losesOn filp buf fun dev => .ite buf ?_ ?_
  · refine plainTransfer_losesRefused dev ?_ _
    exact fun _ => pciedevWriteInline_only _
  · refine plainRequest_losesRefused eFault rfl fun reading => plainTransfer_losesRefused dev ?_ _
    exact fun _ => pciedevWriteInline_only _

end

section
variable (arg : UInt64)

def RequestGranted (arg : UInt64) (e : Event driverInterface) : Prop :=
  ∃ rw : DeviceIocRw, e = ⟨.kernel (.copyFromUser .deviceIocRw arg), some rw⟩

/-- With the lock held, the rest of the case enters again or returns without leaving. -/
theorem singleIocTransfer_wrong (dev : Entry) (regSize : UInt16) (rw : DeviceIocRw) :
    (singleIocTransfer dev regSize rw).wp (anyHandler driverInterface) () fun tr _ _ =>
      WrongInside dev fun d => lockActs d tr := by
  have henter (body : Kernel ℤ) : (withCritRegion dev body).wp (anyHandler driverInterface) ()
      fun tr _ _ => WrongInside dev fun d => lockActs d tr := by
    intro r _ _
    apply (wp_iff_run ..).mpr
    intro tr _ _ _
    simp [WrongInside, lockActs_enter, LockAct.check]
  refine (wp_ite ..).mpr ⟨fun _ => (wp_ite ..).mpr ⟨fun _ => henter _, fun _ => ?_⟩,
    fun _ => henter _⟩
  refine (wp_bind ..).mpr ((pciedevReadInline_lockFree _).wp fun tr _ _ hfree => ?_)
  change WrongInside dev fun d => lockActs d (tr ++ [])
  rw [List.append_nil, WrongInside, lockActs_of_quiet fun e he => (hfree e he).quiet]
  rfl

theorem ioctlSingleIocAccess_losesOn (dev : Entry) :
    LosesOn (RequestGranted arg) (ioctlSingleIocAccess dev arg) := by
  constructor
  · apply withCritRegion_uses
    simp only [perform_eq, call_bind, ret_bind, leavesAtEnd_call, Op.LockFree]
    rintro (_ | rw) hok
    · exact leaveWith_leaves _
    · exact absurd ⟨rw, rfl⟩ hok
  · apply withCritRegion_afterLoss (by simp [RequestGranted])
    simp only [perform_eq, call_bind, ret_bind]
    refine .call trivial ?_ ?_
    · rintro (_ | rw) hok
      · exact .of_only (by simp [leaveWith, RequestGranted])
      · exact absurd ⟨rw, rfl⟩ hok
    · rintro (_ | rw) hgranted
      · simp [RequestGranted] at hgranted
      · refine (wp_bind ..).mpr ((correctFrom_lockFree _).wp fun tr regSize _ hfree => ?_)
        apply wp_mono (singleIocTransfer_wrong dev regSize rw)
        intro tr' _ _ hwrong _
        simpa only [lockActs_append, lockActs_of_quiet fun e he => (hfree e he).quiet,
          List.nil_append] using hwrong

end

/-- The events after which a call does not use the lock properly. -/
def FileCall.LosesLock : FileCall → Event driverInterface → Prop
  | readExp _ buf _ _ _, e | writeExp _ buf _ _ _, e => RequestRefused buf e
  | ioctlExp _ cmd arg, e => cmd = IoctlCmd.singleIocAccess.code ∧ RequestGranted arg e
  | _, _ => False

section
variable {ok : Event driverInterface → Prop}

theorem pciedevOpenExp_uses (dev : Entry) (minor : ℤ) (filp : File) :
    UsesOneLock ok (pciedevOpenExp dev minor filp) := by
  refine .call trivial fun _ _ => withCritRegion_uses ?_
  simp only [perform_eq, call_bind, ret_bind, leavesAtEnd_call, Op.LockFree, leavesAtEnd_ite, fault]
  refine fun _ _ _ _ _ _ _ _ => ⟨fun _ _ _ _ _ => leave_leaves _, fun _ r => r.elim⟩

theorem pciedevReleaseExp_uses (filp : File) : UsesOneLock ok (pciedevReleaseExp filp) := by
  refine .call trivial fun dev _ => withCritRegion_uses ?_
  simp only [perform_eq, call_bind, ret_bind, leavesAtEnd_call, Op.LockFree]
  exact fun _ _ _ _ => leave_leaves _

end

theorem pciedevIoctlExp_losesOn (filp : File) (cmd : UInt32) (arg : UInt64) :
    LosesOn (FileCall.ioctlExp filp cmd arg).LosesLock (pciedevIoctlExp filp cmd arg) := by
  have hL (op : Op) (hop : ∀ T src, op ≠ .kernel (.copyFromUser T src)) (r : op.Res) :
      ¬ (FileCall.ioctlExp filp cmd arg).LosesLock ⟨op, r⟩ := by
    rintro ⟨-, rw, heq⟩
    cases heq
    exact hop _ _ rfl
  have hcase (dev : Entry) (c : IoctlCmd) (hcmd : IoctlCmd.decode cmd = some c) :
      LosesOn (FileCall.ioctlExp filp cmd arg).LosesLock (ioctlCase dev arg c) := by
    obtain rfl := IoctlCmd.code_of_decode hcmd
    by_cases hc : c = .singleIocAccess
    · subst hc
      have hiff : (FileCall.ioctlExp filp IoctlCmd.singleIocAccess.code arg).LosesLock =
          RequestGranted arg := funext fun e => by simp [FileCall.LosesLock]
      exact hiff ▸ ioctlSingleIocAccess_losesOn arg dev
    · refine (ioctlCase_uses dev arg c hc).losesOn fun e he => hc ?_
      exact IoctlCmd.code_injective he.1
  have hdecoded (dev : Entry) (err : Bool) (p : Kernel ℤ)
      (hp : LosesOn (FileCall.ioctlExp filp cmd arg).LosesLock p) :
      LosesOn (FileCall.ioctlExp filp cmd arg).LosesLock (if err then ret eFault else p) :=
    .ite (.ret _) hp
  have hchecked (p : Entry → Kernel ℤ)
      (hp : ∀ dev, LosesOn (FileCall.ioctlExp filp cmd arg).LosesLock (p dev)) :
      LosesOn (FileCall.ioctlExp filp cmd arg).LosesLock (do
        let dev ← privateData filp
        if (← load dev).devSts = 0 then pure eFault
        else do
          let err ← accessError cmd arg
          if err then pure eFault else p dev) := by
    refine .call trivial (hL (.privateData filp) (by simp)) fun dev => ?_
    refine .call trivial (hL (.load dev) (by simp)) fun v => .ite (.ret _) ?_
    unfold accessError
    split_ifs
    · exact .call trivial (hL (.kernel (.accessOk arg _)) (by simp)) fun _ =>
        hdecoded dev _ _ (hp dev)
    · exact hdecoded dev false _ (hp dev)
  unfold pciedevIoctlExp
  cases hcmd : IoctlCmd.decode cmd with
  | none => exact hchecked _ fun _ => .ret _
  | some c => exact hchecked _ fun dev => hcase dev c hcmd

theorem fileCall_losesOn (c : FileCall) : LosesOn c.LosesLock c.program := by
  cases c with
  | openExp dev minor filp => exact (pciedevOpenExp_uses dev minor filp).losesOn fun _ h => h
  | releaseExp filp => exact (pciedevReleaseExp_uses filp).losesOn fun _ h => h
  | readExp filp buf count fPosPtr fPos => exact pciedevReadExp_losesOn filp buf count fPosPtr fPos
  | writeExp filp buf count fPosPtr fPos =>
    exact pciedevWriteExp_losesOn filp buf count fPosPtr fPos
  | llseek filp =>
    refine UsesOneLock.losesOn (.of_only ?_) fun _ h => h
    simp [FileCall.program, pciedevLlseek, Op.LockFree]
  | ioctlExp filp cmd arg => exact pciedevIoctlExp_losesOn filp cmd arg
  | remapMmapExp filp vma =>
    refine UsesOneLock.losesOn (.of_only ?_) fun _ h => h
    simp [FileCall.program, pciedevRemapMmapExp, Op.LockFree]

/-- In every run of every call the lock of every entry is used properly, exactly unless
one of the answers in `LosesLock` is met. -/
theorem fileCall_lock_discipline {ε : Type} (E : Environment ε) (c : FileCall) {w w' : World ε}
    {tr : Trace} {retval : ℤ} (hrun : c.program.Run (driver E) w tr retval w') :
    (∀ d, LockAct.Proper (lockActs d tr)) ↔ ∀ e ∈ tr, ¬ c.LosesLock e := by
  have huse := fileCall_losesOn c
  constructor
  · intro hproper e he hloss
    exact hrun.forget.of_wp huse.loses ⟨e, he, hloss⟩ hproper
  · exact hrun.forget.of_wp huse.uses.effect

def refuseCopies : Answers Unit
  | .copyFromUser _ _, e => some (none, e)
  | _, _ => none

abbrev plainRead : FileCall := .readExp 0 0 24 0 pciedFpos

theorem plainRead_run : ∃ tr w',
    plainRead.program.Run (driver openEnvironment) (.uniform { devSts := 1 }) tr eIo w' ∧
      lockActs 0 tr = [.enter true] :=
  ⟨_, _, run_of_answers refuseCopies (fun _ _ _ _ _ => trivial) rfl, rfl⟩

/-- The call answers `-EIO` and keeps the lock of the board. -/
theorem plainRead_keeps_lock : ∃ tr w',
    plainRead.program.Run (driver openEnvironment) (.uniform { devSts := 1 }) tr eIo w' ∧
      ¬ ∀ d, LockAct.Proper (lockActs d tr) := by
  obtain ⟨tr, w', hrun, hacts⟩ := plainRead_run
  refine ⟨tr, w', hrun, fun hproper => ?_⟩
  have hfree := (hproper 0).balanced
  rw [hacts] at hfree
  exact absurd hfree (by decide)

theorem fileCall_lock_discipline_plainRead : ∃ tr w',
    plainRead.program.Run (driver openEnvironment) (.uniform { devSts := 1 }) tr eIo w' ∧
      ((∀ d, LockAct.Proper (lockActs d tr)) ↔ ∀ e ∈ tr, ¬ plainRead.LosesLock e) := by
  obtain ⟨tr, w', hrun, -⟩ := plainRead_run
  exact ⟨tr, w', hrun, fileCall_lock_discipline openEnvironment plainRead hrun⟩

end Upciedev
