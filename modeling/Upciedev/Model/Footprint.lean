import Upciedev.Model.FileOps

/-!
# Operations of the register access functions

`pciedev_read_inline` and `pciedev_write_inline` read the board entry they are given,
move registers and copy single registers from and to the caller. In particular they
neither touch the lock nor store anything, and they copy no request structure.
-/
namespace Upciedev

open Foundations Program

/-- The operations around one register access or one element of a user copy. -/
def AccessOp (dev : Entry) : Op → Prop
  | .load d | .memmoryBase d _ => d = dev
  | .kernel (.ioread _ _) | .kernel (.iowrite _ _ _) | .kernel .uninit => True
  | .kernel (.copyFromUser (.data _) _) | .kernel (.copyToUser (.data _) _ _) => True
  | .note (.readWritePrivate _ _ _) => True
  | _ => False

/-- The operations on one register and on one element of a user copy. -/
def MoveOp (dev : Entry) : Op → Prop
  | .memmoryBase _ _ => False
  | op => AccessOp dev op

/-- The operations of the checks and of the window arithmetic. -/
def WindowOp (dev : Entry) : Op → Prop
  | .load d | .memmoryBase d _ | .memBase d _ | .memBaseEnd d _ => d = dev
  | .fault .divideByZero => True
  | _ => False

/-- The operations that follow the entry of one of the two inline functions. -/
def RegisterOp (dev : Entry) : Op → Prop
  | .memBase d _ | .memBaseEnd d _ => d = dev
  | .fault .divideByZero | .note .checkScratch | .note .scratchChecked => True
  | op => AccessOp dev op

/-- The operations the two inline functions are made of. -/
def InlineOp (dev : Entry) (op : Op) : Prop :=
  RegisterOp dev op ∨ ∃ c, op = .note (.readInline c) ∨ op = .note (.writeInline c)

section
variable (dev : Entry)

theorem umod_only (a b : UInt32) : (umod a b).Only (WindowOp dev) := by
  unfold umod
  split_ifs <;> simp [WindowOp, fault]

theorem udiv_only (a b : UInt32) : (udiv a b).Only (WindowOp dev) := by
  unfold udiv
  split_ifs <;> simp [WindowOp, fault]

theorem accessOp_registerOp {op : Op} (h : AccessOp dev op) : RegisterOp dev op := by
  cases op with
  | memBase d i | memBaseEnd d i | fault f => exact h.elim
  | note n => cases n <;> first | exact h | exact h.elim
  | _ => exact h

theorem windowOp_registerOp {op : Op} (h : WindowOp dev op) : RegisterOp dev op := by
  cases op with
  | fault f => cases f <;> exact h
  | load | memmoryBase | memBase | memBaseEnd => exact h
  | _ => exact h.elim

theorem moveOp_accessOp {op : Op} (h : MoveOp dev op) : AccessOp dev op := by
  cases op with
  | memmoryBase d i => exact h.elim
  | _ => exact h

theorem moveOp_registerOp {op : Op} (h : MoveOp dev op) : RegisterOp dev op :=
  accessOp_registerOp dev (moveOp_accessOp dev h)

theorem accessRegister_only (w : Width) (accessMode : UInt16) (a : IoAddr)
    (value mask extra : UInt32) :
    (accessRegister w accessMode a value mask extra).Only (MoveOp dev) := by
  unfold accessRegister
  split_ifs <;> simp [MoveOp, AccessOp]

theorem readWritePrivate_only (regSize accessMode : UInt16) (a : IoAddr)
    (value mask extra : UInt32) :
    (readWritePrivate regSize accessMode a value mask extra).Only (MoveOp dev) := by
  simpa [readWritePrivate, MoveOp, AccessOp] using accessRegister_only dev _ _ _ _ _ _

theorem deviceScrachTest_only : (deviceScrachTest dev).Only (MoveOp dev) := by
  simp [deviceScrachTest, MoveOp, AccessOp]

theorem readScratch_only : (readScratch dev).Only (AccessOp dev) := by
  simp only [readScratch, perform_eq, call_bind, ret_bind, pure_eq, only_call, only_ite, only_ret]
  simp only [AccessOp, true_and, implies_true]
  intro _ _ _ _ _ _
  refine ((deviceScrachTest_only dev).mono fun _ => moveOp_accessOp dev).bind fun scrachTest => ?_
  simp only [only_call, AccessOp, true_and]
  exact fun _ _ => ((readWritePrivate_only dev _ _ _ _ _ _).mono fun _ => moveOp_accessOp dev).bind
    fun _ => by simp

theorem pciedevCheckScratch_only : (pciedevCheckScratch dev).Only (RegisterOp dev) := by
  simp only [pciedevCheckScratch, perform_eq, call_bind, ret_bind, only_call]
  exact ⟨trivial, fun _ => ((readScratch_only dev).mono fun _ => accessOp_registerOp dev).bind
    fun _ => by simp [RegisterOp]⟩

end

section
variable (c : InlineCall)

theorem readLoop_only (unRegisterSize : UInt32) (n : ℕ) (pcUserBuf : UInt64)
    (addressDev : IoAddr) (tmpDataForRw : UInt32) (retval : ℤ) :
    (readLoop c unRegisterSize n pcUserBuf addressDev tmpDataForRw retval).Only
      (RegisterOp c.dev) := by
  induction n generalizing pcUserBuf addressDev tmpDataForRw retval with
  | zero => trivial
  | succ n ih =>
    unfold readLoop
    refine ((readWritePrivate_only c.dev _ _ _ _ _ _).mono fun _ => moveOp_registerOp c.dev).bind
      fun read => Only.bind ?_ fun failed => ?_
    · simp [pciedevCheckScratch_only]
    · simp only [ne_eq, only_ite, pure_eq, only_ret, implies_true, true_and]
      intro _
      simp only [perform_eq, call_bind, ret_bind, only_call]
      refine ⟨rfl, fun _ => Only.bind ?_ fun uncopied => ?_⟩
      · simp [RegisterOp, AccessOp]
      · simp [ih]

theorem copyWord_only (given : UInt64) (bytes : UInt32) (src : UInt64) (word : UInt32) :
    (copyWord given bytes src word).Only (MoveOp c.dev) := by
  simp [copyWord, MoveOp, AccessOp]

theorem writeLoop_only (unRegisterSize : UInt32) (n : ℕ) (pcUserData pcUserMask : UInt64)
    (addressDev : IoAddr) (tmpDataForRw tmpMaskForW : UInt32) (retval : ℤ) :
    (writeLoop c unRegisterSize n pcUserData pcUserMask addressDev tmpDataForRw tmpMaskForW
      retval).Only (MoveOp c.dev) := by
  induction n generalizing pcUserData pcUserMask addressDev tmpDataForRw tmpMaskForW retval with
  | zero => trivial
  | succ n ih =>
    unfold writeLoop
    apply (copyWord_only c _ _ _ _).bind
    intro data
    cases data with
    | none => simp
    | some data =>
      apply (copyWord_only c _ _ _ _).bind
      intro mask
      cases mask with
      | none => simp
      | some mask =>
        simp only [perform_eq, call_bind, ret_bind, only_call]
        refine ⟨rfl, fun _ => ?_⟩
        exact (readWritePrivate_only c.dev _ _ _ _ _ _).bind fun _ => ih _ _ _ _ _ _

theorem openWindow_only : (openWindow c).Only (WindowOp c.dev) := by
  simp only [openWindow, perform_eq, call_bind, ret_bind, only_call, only_ite, pure_eq, only_ret]
  simp only [WindowOp, true_and, implies_true]
  intro _ _ _
  apply (umod_only c.dev _ _).bind
  intro rest
  simp only [only_ite, only_ret, only_call, implies_true, true_and, WindowOp]
  exact fun _ _ _ => (udiv_only c.dev _ _).bind fun _ => by simp [WindowOp]

theorem readRegisters_only : (readRegisters c).Only (RegisterOp c.dev) := by
  refine ((openWindow_only c).mono fun _ => windowOp_registerOp c.dev).bind fun window => ?_
  cases window with
  | none => simp
  | some window =>
    simp only [perform_eq, call_bind, ret_bind, only_call]
    exact ⟨trivial, fun _ => readLoop_only c _ _ _ _ _ _⟩

theorem writeRegisters_only : (writeRegisters c).Only (RegisterOp c.dev) := by
  refine ((openWindow_only c).mono fun _ => windowOp_registerOp c.dev).bind fun window => ?_
  cases window with
  | none => simp
  | some window =>
    simp only [perform_eq, call_bind, ret_bind, only_call]
    exact ⟨trivial, fun _ => (writeLoop_only c _ _ _ _ _ _ _ _).mono fun _ =>
      moveOp_registerOp c.dev⟩

theorem pciedevReadInline_only : (pciedevReadInline c).Only (InlineOp c.dev) := by
  simp only [pciedevReadInline, perform_eq, call_bind, ret_bind, only_call]
  exact ⟨.inr ⟨c, .inl rfl⟩, fun _ => (readRegisters_only c).mono fun _ => .inl⟩

theorem pciedevWriteInline_only : (pciedevWriteInline c).Only (InlineOp c.dev) := by
  simp only [pciedevWriteInline, perform_eq, call_bind, ret_bind, only_call]
  exact ⟨.inr ⟨c, .inr rfl⟩, fun _ => (writeRegisters_only c).mono fun _ => .inl⟩

end

theorem correctFrom_only (dev : Entry) (code : ℕ) :
    (correctFrom dev code).Only (RegisterOp dev) := by
  simp [correctFrom, RegisterOp, AccessOp]

theorem transfer_only (dev : Entry) (regSize : UInt16) (rw : DeviceIocRw) :
    (transfer dev regSize rw).Only (InlineOp dev) := by
  simp only [transfer, only_ite]
  exact ⟨fun _ => pciedevReadInline_only _, fun _ => pciedevWriteInline_only _⟩

end Upciedev
