import Upciedev.Model.Requests

/-!
# What calls on files leave alone

No call on a file changes whether a board is there, where its BARs are or which BARs
are mapped, and none gives an entry a register size that is no size code.
-/
namespace Upciedev

open Foundations Program

/-- The register sizes `RW_D8`, `RW_D16` and `RW_D32`. -/
def ValidSize (registerSize : ℤ) : Prop := 0 ≤ registerSize ∧ registerSize < mtcaMaxRw

theorem validSize_correctRegisterSize (rwMode : ℤ) {default : ℤ} (h : ValidSize default) :
    ValidSize (correctRegisterSize rwMode default) := by
  unfold correctRegisterSize
  split_ifs with hout
  · exact h
  · exact ⟨by omega, by omega⟩

/-- An update of a board entry that a call on a file may make. -/
structure KeepsBoard (f : PciedevDev → PciedevDev) : Prop where
  devSts v : (f v).devSts = v.devSts
  binded v : (f v).binded = v.binded
  memBase v : (f v).memBase = v.memBase
  memBaseEnd v : (f v).memBaseEnd = v.memBaseEnd
  memmoryBase v : (f v).memmoryBase = v.memmoryBase
  registerSize v : ValidSize v.registerSize → ValidSize (f v).registerSize

/-- Operations a call on a file may make. -/
def FileOp : Op → Prop
  | .store _ f => KeepsBoard f
  | .setCdev _ | .setDrvdata _ _ | .setBaseRow _ _ _ | .setBaseBar _ _ _ _ => False
  | _ => True

theorem inlineOp_fileOp {dev : Entry} {op : Op} (h : InlineOp dev op) : FileOp op := by
  rcases h with h | ⟨c, rfl | rfl⟩
  · cases op <;> trivial
  · trivial
  · trivial

theorem withCritRegion_fileOp {dev : Entry} {body : Kernel ℤ} (h : body.Only FileOp) :
    (withCritRegion dev body).Only FileOp := by
  simp [withCritRegion, FileOp, h]

@[simp] theorem leaveWith_fileOp (dev : Entry) (retval : ℤ) :
    (leaveWith dev retval).Only FileOp := by
  simp [leaveWith, FileOp]

@[simp] theorem answer_fileOp (dev : Entry) (T : UserType) (arg : UInt64) (v : T.Val) :
    (answer dev T arg v).Only FileOp := by
  simp [answer, FileOp]

theorem correctFrom_fileOp (dev : Entry) (code : ℕ) : (correctFrom dev code).Only FileOp :=
  (correctFrom_only dev code).mono fun _ h => inlineOp_fileOp (.inl h)

theorem read_fileOp (c : InlineCall) : (pciedevReadInline c).Only FileOp :=
  (pciedevReadInline_only c).mono fun _ => inlineOp_fileOp

theorem write_fileOp (c : InlineCall) : (pciedevWriteInline c).Only FileOp :=
  (pciedevWriteInline_only c).mono fun _ => inlineOp_fileOp

theorem vectorLoop_fileOp (dev : Entry) (n : ℕ) (pUserRWdata : UInt64) (retval : ℤ) :
    (vectorLoop dev n pUserRWdata retval).Only FileOp := by
  induction n generalizing pUserRWdata retval with
  | zero => trivial
  | succ n ih =>
    simp only [vectorLoop, perform_eq, call_bind, ret_bind, only_call]
    refine ⟨trivial, fun copied => ?_⟩
    cases copied with
    | none => trivial
    | some rw =>
      refine (correctFrom_fileOp dev _).bind fun regSize => Only.bind ?_ fun _ => ih _ _
      exact (transfer_only dev regSize rw).mono fun _ => inlineOp_fileOp

theorem readScratchReg_fileOp (dev : Entry) (base : IoPtr) (data : DeviceIoctrlData) :
    (readScratchReg dev base data).Only FileOp := by
  simp [readScratchReg, FileOp]

theorem transfer_fileOp {dev : Entry} {code : ℕ} {move : UInt16 → Kernel ℤ}
    (hmove : ∀ s, (move s).Only FileOp) (result : ℤ → ℤ) :
    (correctFrom dev code >>= fun regSize =>
      move regSize >>= fun retval => leaveWith dev (result retval)).Only FileOp :=
  (correctFrom_fileOp dev code).bind fun regSize => (hmove regSize).bind fun _ =>
    leaveWith_fileOp _ _

theorem singleIocTransfer_fileOp (dev : Entry) (regSize : UInt16) (rw : DeviceIocRw) :
    (singleIocTransfer dev regSize rw).Only FileOp := by
  simp only [singleIocTransfer, only_ite]
  refine ⟨fun _ => ⟨fun _ => ?_, fun _ => ?_⟩, fun _ => ?_⟩
  · exact withCritRegion_fileOp ((read_fileOp _).bind fun _ => leaveWith_fileOp _ _)
  · exact (read_fileOp _).bind fun _ => trivial
  · exact withCritRegion_fileOp ((write_fileOp _).bind fun _ => leaveWith_fileOp _ _)

/-- The updates the ioctls make: two for the scratch register, one for the byte order and one
for the register size. -/
theorem ioctlCase_fileOp (dev : Entry) (arg : UInt64) (c : IoctlCmd) :
    (ioctlCase dev arg c).Only FileOp := by
  have hkeeps {f : PciedevDev → PciedevDev} (h : KeepsBoard f) : FileOp (.store dev f) := h
  cases c with
  | physicalSlot =>
    apply withCritRegion_fileOp
    simp only [perform_eq, call_bind, ret_bind, only_call]
    refine ⟨trivial, ?_⟩
    rintro (_ | data) <;> simp [FileOp]
  | driverVersion | udriverVersion | firmwareVersion | getStatus | getShapiDevinfo =>
    apply withCritRegion_fileOp
    simp [FileOp, uninitIoctrlData]
  | scratchReg =>
    apply withCritRegion_fileOp
    simp only [perform_eq, call_bind, ret_bind, only_call]
    refine ⟨trivial, ?_⟩
    rintro (_ | data)
    · simp
    · simp only [pciedevGetBaraddress, only_ite, only_call, FileOp, answer_fileOp, leaveWith_fileOp,
        perform_eq, call_bind, ret_bind, implies_true, true_and, and_true]
      refine fun _ => ⟨fun _ => ⟨?_, fun _ => ?_⟩, fun _ _ _ _ _ => ?_⟩
      · constructor <;> intro v <;> first | rfl | exact id
      · constructor <;> intro v <;> first | rfl | exact id
      · exact (readScratchReg_fileOp dev _ _).bind fun _ => answer_fileOp _ _ _ _
  | setSwap =>
    apply withCritRegion_fileOp
    simp only [perform_eq, call_bind, ret_bind, only_call]
    refine ⟨trivial, ?_⟩
    rintro (_ | nUserValue)
    · simp
    · refine (only_call _ _).mpr ⟨?_, fun _ => leaveWith_fileOp _ _⟩
      constructor <;> intro v <;> first | rfl | exact id
  | getSwap | getRegisterSize | lockDevice | unlockDevice =>
    simp [ioctlCase, ioctlGetSwap, ioctlGetRegisterSize, ioctlLockDevice, ioctlUnlockDevice, FileOp]
  | setBits | swapBits =>
    apply withCritRegion_fileOp
    simp only [perform_eq, call_bind, ret_bind, only_call]
    refine ⟨trivial, ?_⟩
    rintro (_ | rw)
    · simp
    · exact transfer_fileOp (fun _ => write_fileOp _) wrapInt
  | lockedRead =>
    simp only [ioctlCase, ioctlLockedRead, perform_eq, call_bind, ret_bind, only_call]
    refine ⟨trivial, ?_⟩
    rintro (_ | rw)
    · simp
    · refine (correctFrom_fileOp dev _).bind fun regSize => withCritRegion_fileOp ?_
      exact (read_fileOp _).bind fun _ => leaveWith_fileOp _ _
  | vectorRw =>
    simp only [ioctlCase, ioctlVectorRw, perform_eq, call_bind, ret_bind, only_call]
    refine ⟨trivial, ?_⟩
    rintro (_ | vector)
    · simp
    · exact withCritRegion_fileOp ((vectorLoop_fileOp dev _ _ _).bind fun _ => leaveWith_fileOp _ _)
  | setRegisterSize =>
    simp only [ioctlCase, ioctlSetRegisterSize, perform_eq, call_bind, ret_bind, only_call]
    refine ⟨trivial, ?_⟩
    rintro (_ | nUserValue)
    · simp
    · refine (only_call _ _).mpr ⟨?_, fun _ => trivial⟩
      constructor <;> intro v <;> try rfl
      exact fun _ => validSize_correctRegisterSize _ ⟨by decide, by decide⟩
  | singleIocAccess =>
    apply withCritRegion_fileOp
    simp only [perform_eq, call_bind, ret_bind, only_call]
    refine ⟨trivial, ?_⟩
    rintro (_ | rw)
    · simp
    · exact (correctFrom_fileOp dev _).bind fun regSize => singleIocTransfer_fileOp dev regSize rw
  | getShapiModinfo =>
    apply withCritRegion_fileOp
    simp only [perform_eq, call_bind, ret_bind, only_call]
    refine ⟨trivial, ?_⟩
    rintro (_ | info) <;> simp [FileOp]

theorem pciedevIoctlExp_fileOp (filp : File) (cmd : UInt32) (arg : UInt64) :
    (pciedevIoctlExp filp cmd arg).Only FileOp := by
  simp only [pciedevIoctlExp, perform_eq, call_bind, ret_bind, only_call, only_ite]
  refine ⟨trivial, fun dev =>
    ⟨trivial, fun v => ⟨fun _ => trivial, fun _ => Only.bind ?_ fun err => ?_⟩⟩⟩
  · simp [accessError, FileOp]
  · split_ifs
    · trivial
    · cases IoctlCmd.decode cmd with
      | none => trivial
      | some c => exact ioctlCase_fileOp dev arg c

theorem accessExp_fileOp (dir : Direction) (accessMode : UInt16) (dead refused : ℤ) (filp : File)
    (buf count fPosPtr fPos : UInt64) :
    (accessExp dir accessMode dead refused filp buf count fPosPtr fPos).Only FileOp := by
  have hregion (dev : Entry) (code : ℕ) (calls : UInt16 → InlineCall) :
      (accessRegion dir dev code calls).Only FileOp := by
    refine (correctFrom_fileOp dev code).bind fun regSize => Only.bind ?_ fun _ => by simp [FileOp]
    exact (dir.inline_only _).mono fun _ => inlineOp_fileOp
  simp only [accessExp, perform_eq, call_bind, ret_bind, only_call, only_ite]
  refine ⟨trivial, fun dev => ⟨trivial, fun v => ⟨fun _ => trivial, fun _ => ?_⟩⟩⟩
  refine withCritRegion_fileOp ((only_ite ..).mpr ⟨fun _ => hregion _ _ _, fun _ => ?_⟩)
  simp only [perform_eq, call_bind, ret_bind, only_call]
  refine ⟨trivial, ?_⟩
  rintro (_ | reading)
  · trivial
  · exact hregion _ _ _

theorem pciedevOpenExp_fileOp (dev : Entry) (minor : ℤ) (filp : File) :
    (pciedevOpenExp dev minor filp).Only FileOp := by
  refine (only_call _ _).mpr ⟨⟨fun _ => rfl, fun _ => rfl, fun _ => rfl, fun _ => rfl, fun _ => rfl,
    fun _ h => h⟩, fun _ => withCritRegion_fileOp ?_⟩
  simp only [perform_eq, call_bind, ret_bind, only_call, only_ite, fault, FileOp, true_and]
  refine ⟨?_, fun _ _ _ _ => ⟨fun _ _ => ⟨?_, fun _ _ => trivial⟩, fun _ r => r.elim⟩⟩
  · constructor <;> intro v <;> first | rfl | exact id
  · constructor <;> intro v <;> first | rfl | exact id

theorem pciedevReleaseExp_fileOp (filp : File) : (pciedevReleaseExp filp).Only FileOp := by
  refine (only_call _ _).mpr ⟨trivial, fun dev => withCritRegion_fileOp ?_⟩
  refine (only_call _ _).mpr ⟨?_, fun _ => (only_call _ _).mpr ⟨?_, fun _ =>
    (only_call _ _).mpr ⟨trivial, fun _ => trivial⟩⟩⟩
  · constructor <;> intro v <;> first | rfl | exact id
  · constructor <;> intro v <;> first | rfl | exact id

theorem fileCall_fileOp (c : FileCall) : c.program.Only FileOp := by
  cases c with
  | openExp dev minor filp => exact pciedevOpenExp_fileOp dev minor filp
  | releaseExp filp => exact pciedevReleaseExp_fileOp filp
  | readExp filp buf count fPosPtr fPos =>
    rw [FileCall.program, pciedevReadExp_eq]
    exact accessExp_fileOp ..
  | writeExp filp buf count fPosPtr fPos =>
    rw [FileCall.program, pciedevWriteExp_eq]
    exact accessExp_fileOp ..
  | llseek filp => simp [FileCall.program, pciedevLlseek, FileOp]
  | ioctlExp filp cmd arg => exact pciedevIoctlExp_fileOp filp cmd arg
  | remapMmapExp filp vma => simp [FileCall.program, pciedevRemapMmapExp, FileOp]

end Upciedev
