import Upciedev.Access.RequestTrace

/-!
# Where calls on files reach

What a call on a file can do at all: the updates of board entries and the calls into the kernel it
makes, and the mappings through which it gets to registers. A mapping is looked up in a BAR array,
compared with the null pointer and looked up again before it is used.
-/
namespace Upciedev

open Foundations Program

/-- The updates of a board entry that a call on a file makes. -/
inductive CallStore : (PciedevDev → PciedevDev) → Prop
  | devMinor (minor : ℤ) : CallStore fun v => { v with devMinor := minor }
  | opened : CallStore fun v => { v with devFileRef := v.devFileRef + 1 }
  | listed (n : UpciedevFileList) : CallStore fun v => { v with devFileList := n :: v.devFileList }
  | released : CallStore fun v => { v with devFileRef := v.devFileRef - 1 }
  | unlisted (filp : File) :
      CallStore fun v => { v with devFileList := v.devFileList.filter fun n => n.filp ≠ filp }
  | scratchBar (bar : UInt32) : CallStore fun v => { v with scratchBar := bar }
  | scratchOffset (offset : UInt32) : CallStore fun v => { v with scratchOffset := offset }
  | swap (swap : ℤ) : CallStore fun v => { v with swap := swap }
  | registerSize (size : ℤ) :
      CallStore fun v => { v with registerSize := correctRegisterSize size 2 }

def PciedevDev.scratch (v : PciedevDev) : UInt32 × UInt32 := (v.scratchBar, v.scratchOffset)

/-- How registers are accessed by default: their size and the byte order. -/
def PciedevDev.format (v : PciedevDev) : ℤ × ℤ := (v.registerSize, v.swap)

/-- What is known of the driver data while a call on file `filp` is made, and what the call may do:
open the file, move the scratch register, set the format of the registers, and use some of the
mappings. A mapping that was not null when it was looked up may be used. -/
structure Reach where
  filp : File
  opens : Prop
  moves : Prop
  sets : Prop
  owned : Entry → Prop
  scratch : Entry → UInt32 → Prop
  answers : Entry → UInt32 → IoPtr → Prop
  allowed : IoPtr → Prop
  tested {d : Entry} {i : UInt32} {r r' : IoPtr} :
    owned d → answers d i r → answers d i r' → r' ≠ none → allowed r

namespace Reach

/-- The test also counts when the index is read from the entry each time, as it is for scratch
BARs. -/
structure FixedScratch (R : Reach) : Prop where
  tested {d : Entry} {i i' : UInt32} {r r' : IoPtr} : R.owned d → R.scratch d i → R.scratch d i' →
    R.answers d i r → R.answers d i' r' → r' ≠ none → R.allowed r

def Answer (R : Reach) : (op : Op) → op.Res → Prop
  | .privateData _, d => R.owned d
  | .load d, v => R.scratch d v.scratchBar
  | .memmoryBase d i, r => R.answers d i r
  | _, _ => True

/-- The calls into the kernel that a call on a file makes. -/
def CallsKernel (R : Reach) : KernelCall → Prop
  | .accessOk _ _ | .copyFromUser _ _ | .copyToUser _ _ _ | .uninit => True
  | .kzalloc o => o = .upciedevFileList
  | .remapPfnRange _ _ => True
  | .ioread _ a | .iowrite _ a _ => R.allowed a.base
  | _ => False

def Allows (R : Reach) : Op → Prop
  | .store d f => R.owned d ∧ CallStore f ∧ (¬ R.moves → ∀ v, (f v).scratch = v.scratch) ∧
      (¬ R.sets → ∀ v, (f v).format = v.format)
  | .privateData filp => filp = R.filp
  | .setPrivateData _ _ => R.opens
  | .setCdev _ | .setDrvdata _ _ | .setBaseRow _ _ _ | .setBaseBar _ _ _ _ => False
  | .baseRow _ _ | .baseBar _ _ _ | .drvdata _ => False
  | .kernel c => R.CallsKernel c
  | _ => True

/-- Whatever is answered, the program stays in the reach. -/
def Covers {α : Type} (R : Reach) (p : Kernel α) : Prop := p.Sat R.Answer R.Allows fun _ _ => True

section
variable {α β : Type} {R : Reach} {dev : Entry}

@[simp] theorem covers_ret (a : α) : R.Covers (ret a) := trivial

@[simp] theorem covers_call (op : Op) (k : op.Res → Kernel α) :
    R.Covers (call (I := driverInterface) op k) ↔
      R.Allows op ∧ ∀ r, R.Answer op r → R.Covers (k r) := Iff.rfl

theorem covers_ite (c : Prop) [Decidable c] (p q : Kernel α) :
    R.Covers (if c then p else q) ↔ (c → R.Covers p) ∧ (¬ c → R.Covers q) := sat_ite c p q _

theorem Covers.bind {p : Kernel α} {f : α → Kernel β} (hp : R.Covers p) (hf : ∀ a, R.Covers (f a)) :
    R.Covers (p >>= f) := by
  rw [Covers, sat_bind]
  exact hp.imp fun _ a _ => hf a

@[reducible] def Plain : Op → Prop
  | .setFPos _ _ | .load _ | .memmoryBase _ _ => True
  | .memBase _ _ | .memBaseEnd _ _ | .cdev => True
  | .enterCritRegion _ | .leaveCritRegion _ => True
  | .longLockOfCriticalRegion _ | .unlockLongCritRegion _ => True
  | .kernel (.accessOk _ _) | .kernel (.copyFromUser _ _) | .kernel (.copyToUser _ _ _) => True
  | .kernel .uninit | .kernel (.remapPfnRange _ _) => True
  | .fault _ | .note _ => True
  | _ => False

theorem Plain.allows {op : Op} (h : Plain op) : R.Allows op := by
  cases op with
  | kernel c => cases c <;> trivial
  | _ => trivial

theorem covers_plain {p : Kernel α} (hp : p.Only Plain) : R.Covers p :=
  Sat.mono hp (fun _ _ _ _ => trivial) (fun _ => Plain.allows) fun _ _ _ => trivial

theorem covers_accessRegister {a : IoAddr} (ha : R.allowed a.base) (w : Width) (accessMode : UInt16)
    (value mask extra : UInt32) : R.Covers (accessRegister w accessMode a value mask extra) := by
  have hread (v : UInt32) : R.Allows (.kernel (.iowrite w a v)) := ha
  have hwrite : R.Allows (.kernel (.ioread w a)) := ha
  unfold accessRegister
  split_ifs <;> simp [hread, hwrite]

theorem covers_readWritePrivate {a : IoAddr} (ha : R.allowed a.base) (regSize accessMode : UInt16)
    (value mask extra : UInt32) :
    R.Covers (readWritePrivate regSize accessMode a value mask extra) :=
  ⟨trivial, fun _ _ => covers_accessRegister ha _ _ _ _ _⟩

theorem covers_readScratch (hR : R.FixedScratch) (hdev : R.owned dev) :
    R.Covers (readScratch dev) := by
  simp only [readScratch, perform_eq, call_bind, ret_bind, covers_call, covers_ite]
  refine ⟨trivial, fun v hv =>
    ⟨trivial, fun base hbase => ⟨trivial, fun _ _ => ⟨trivial, fun v' hv' => ?_⟩⟩⟩⟩
  refine ⟨trivial, fun tested htested => ⟨fun _ => trivial, fun hmapped => ?_⟩⟩
  have hallowed : R.allowed base := hR.tested hdev hv hv' hbase htested hmapped
  apply Covers.bind (covers_plain (by simp [deviceScrachTest, Plain]))
  intro scrachTest
  simp only [covers_call]
  refine ⟨trivial, fun _ _ => ⟨trivial, fun _ _ => ?_⟩⟩
  apply Covers.bind (covers_readWritePrivate hallowed _ _ _ _ _)
  intro _
  exact (covers_ite ..).mpr ⟨fun _ => trivial, fun _ => trivial⟩

theorem covers_readLoop (hR : R.FixedScratch) {c : InlineCall} (hdev : R.owned c.dev) (u : UInt32)
    (n : ℕ) (pcUserBuf : UInt64) {a : IoAddr} (ha : R.allowed a.base) (tmpDataForRw : UInt32)
    (retval : ℤ) : R.Covers (readLoop c u n pcUserBuf a tmpDataForRw retval) := by
  have hcopy (dst : UInt64) (x : UInt32) :
      R.Covers (if c.userData ≠ 0 then copyToUser (.data u) dst x else pure false) :=
    covers_plain (by simp [Plain])
  induction n generalizing pcUserBuf a tmpDataForRw retval with
  | zero => trivial
  | succ n ih =>
    unfold readLoop
    apply (covers_readWritePrivate ha _ _ _ _ _).bind
    intro read
    refine Covers.bind ((covers_ite ..).mpr ⟨fun _ => ?_, fun _ => trivial⟩) fun failed => ?_
    · refine ⟨trivial, fun _ _ => (covers_readScratch hR hdev).bind fun _ => ?_⟩
      exact ⟨trivial, fun _ _ => trivial⟩
    · refine (covers_ite ..).mpr ⟨fun _ => trivial, fun _ => ⟨trivial, fun _ _ => ?_⟩⟩
      apply (hcopy _ _).bind
      intro uncopied
      exact (covers_ite ..).mpr ⟨fun _ => trivial, fun _ => ih (a := a.add _) _ ha _ _⟩

theorem covers_writeLoop (c : InlineCall) (u : UInt32) (n : ℕ) (pcUserData pcUserMask : UInt64)
    {a : IoAddr} (ha : R.allowed a.base) (tmpDataForRw tmpMaskForW : UInt32) (retval : ℤ) :
    R.Covers (writeLoop c u n pcUserData pcUserMask a tmpDataForRw tmpMaskForW retval) := by
  have hcopy (given : UInt64) (bytes : UInt32) (src : UInt64) (word : UInt32) :
      R.Covers (copyWord given bytes src word) := covers_plain (by simp [copyWord, Plain])
  induction n generalizing pcUserData pcUserMask a tmpDataForRw tmpMaskForW retval with
  | zero => trivial
  | succ n ih =>
    unfold writeLoop
    apply (hcopy _ _ _ _).bind
    intro data
    cases data with
    | none => trivial
    | some data =>
      apply (hcopy _ _ _ _).bind
      intro mask
      cases mask with
      | none => trivial
      | some mask =>
        refine ⟨trivial, fun _ _ => ?_⟩
        apply (covers_readWritePrivate ha _ _ _ _ _).bind
        intro words
        obtain ⟨value, extra⟩ := words
        exact ih (a := a.add _) _ _ ha _ _ _

theorem openWindow_reach {c : InlineCall} (hdev : R.owned c.dev) :
    (openWindow c).Sat R.Answer R.Allows fun _ window =>
      ∀ u n a, window = some (u, n, a) → R.allowed a.base := by
  have hmod (a b : UInt32) : R.Covers (umod a b) := covers_plain (by
    unfold umod
    split_ifs <;> simp [Plain, fault])
  have hdiv (a b : UInt32) : R.Covers (udiv a b) := covers_plain (by
    unfold udiv
    split_ifs <;> simp [Plain, fault])
  simp only [openWindow, perform_eq, call_bind, ret_bind, sat_call, sat_ite, sat_bind]
  refine ⟨trivial, fun v _ => ⟨trivial, fun tested htested => ⟨by simp, fun hmapped => ?_⟩⟩⟩
  refine (hmod _ _).imp fun _ rest _ => ⟨by simp, fun _ => ?_⟩
  refine ⟨trivial, fun _ _ => ⟨trivial, fun _ _ => (hdiv _ _).imp fun _ cnt _ => ?_⟩⟩
  refine ⟨trivial, fun base hbase => ?_⟩
  simp only [pure_eq, sat_ret, Option.some.injEq, Prod.mk.injEq]
  rintro _ _ _ ⟨-, -, rfl⟩
  exact R.tested hdev hbase htested hmapped

theorem covers_registers (hR : R.FixedScratch) (dir : Direction) {c : InlineCall}
    (hdev : R.owned c.dev) :
    R.Covers (dir.registers c) := by
  cases dir with
  | read =>
    refine (sat_bind ..).mpr ((openWindow_reach hdev).imp fun _ window hwindow => ?_)
    cases window with
    | none => trivial
    | some window =>
      exact ⟨trivial, fun _ _ => covers_readLoop hR hdev _ _ _ (hwindow _ _ _ rfl) _ _⟩
  | write =>
    refine (sat_bind ..).mpr ((openWindow_reach hdev).imp fun _ window hwindow => ?_)
    cases window with
    | none => trivial
    | some window =>
      exact ⟨trivial, fun _ _ => covers_writeLoop c _ _ _ _ (hwindow _ _ _ rfl) _ _ _⟩

theorem covers_inline (hR : R.FixedScratch) (dir : Direction) {c : InlineCall}
    (hdev : R.owned c.dev) :
    R.Covers (dir.inline c) := by
  rw [dir.inline_eq]
  exact ⟨trivial, fun _ _ => covers_registers hR dir hdev⟩

theorem covers_correctFrom (code : ℕ) : R.Covers (correctFrom dev code) :=
  covers_plain (by simp [correctFrom, Plain])

theorem covers_withCritRegion {body : Kernel ℤ} (h : R.Covers body) :
    R.Covers (withCritRegion dev body) :=
  ⟨trivial, fun _ _ => (covers_ite ..).mpr ⟨fun _ => trivial, fun _ => h⟩⟩

@[simp] theorem covers_leaveWith (retval : ℤ) : R.Covers (leaveWith dev retval) :=
  ⟨trivial, fun _ _ => trivial⟩

@[simp] theorem covers_answer (T : UserType) (arg : UInt64) (v : T.Val) :
    R.Covers (answer dev T arg v) :=
  ⟨trivial, fun _ _ =>
    (covers_ite ..).mpr ⟨fun _ => covers_leaveWith _, fun _ => covers_leaveWith _⟩⟩

theorem covers_transfer (hR : R.FixedScratch) (hdev : R.owned dev) (regSize : UInt16)
    (rw : DeviceIocRw) : R.Covers (transfer dev regSize rw) :=
  (covers_ite ..).mpr ⟨fun _ => covers_inline hR .read hdev, fun _ => covers_inline hR .write hdev⟩

theorem covers_vectorLoop (hR : R.FixedScratch) (hdev : R.owned dev) (n : ℕ) (pUserRWdata : UInt64)
    (retval : ℤ) : R.Covers (vectorLoop dev n pUserRWdata retval) := by
  induction n generalizing pUserRWdata retval with
  | zero => trivial
  | succ n ih =>
    refine ⟨trivial, fun copied _ => ?_⟩
    cases copied with
    | none => trivial
    | some rw =>
      apply (covers_correctFrom _).bind
      intro regSize
      exact (covers_transfer hR hdev _ _).bind fun _ => ih _ _

theorem covers_accessRegion (hR : R.FixedScratch) (dir : Direction) (hdev : R.owned dev) (code : ℕ)
    {calls : UInt16 → InlineCall} (hcalls : ∀ s, (calls s).dev = dev) :
    R.Covers (accessRegion dir dev code calls) := by
  apply (covers_correctFrom _).bind
  intro s
  apply (covers_inline hR dir (by rwa [hcalls s])).bind
  intro _
  exact ⟨trivial, fun _ _ => trivial⟩

theorem covers_singleIocTransfer (hR : R.FixedScratch) (hdev : R.owned dev) (regSize : UInt16)
    (rw : DeviceIocRw) : R.Covers (singleIocTransfer dev regSize rw) := by
  simp only [singleIocTransfer, covers_ite]
  refine ⟨fun _ => ⟨fun _ => ?_, fun _ => ?_⟩, fun _ => ?_⟩
  · exact covers_withCritRegion ((covers_inline hR .read hdev).bind fun _ => covers_leaveWith _)
  · exact (covers_inline hR .read hdev).bind fun _ => trivial
  · exact covers_withCritRegion ((covers_inline hR .write hdev).bind fun _ => covers_leaveWith _)

/-- The command that moves the scratch register. It reads the register it has looked up itself. -/
theorem covers_ioctlScratchReg (hmoves : R.moves) (hdev : R.owned dev) (arg : UInt64) :
    R.Covers (ioctlScratchReg dev arg) := by
  apply covers_withCritRegion
  refine ⟨trivial, fun copied _ => ?_⟩
  cases copied with
  | none => exact covers_leaveWith _
  | some data =>
    refine (covers_ite ..).mpr ⟨fun _ =>
      ⟨trivial, fun _ _ => ⟨trivial, fun _ _ => covers_answer _ _ _⟩⟩,
      fun _ =>
        (covers_ite ..).mpr ⟨fun _ => ?_, fun _ =>
          (covers_ite ..).mpr ⟨fun _ => ?_, fun _ => covers_answer _ _ _⟩⟩⟩
    · refine ⟨⟨hdev, .scratchBar _, fun h => absurd hmoves h, fun _ _ => rfl⟩, fun _ _ => ?_⟩
      exact ⟨⟨hdev, .scratchOffset _, fun h => absurd hmoves h, fun _ _ => rfl⟩, fun _ _ =>
        covers_answer _ _ _⟩
    · refine ⟨trivial, fun v _ =>
        ⟨trivial, fun address haddress =>
          (covers_ite ..).mpr ⟨fun _ => covers_leaveWith _, fun hmapped => ?_⟩⟩⟩
      have hallowed : R.allowed address := R.tested hdev haddress haddress hmapped
      have hread (w : Width) (off : ℤ) : R.Allows (.kernel (.ioread w ⟨address, off⟩)) := hallowed
      refine Covers.bind ?_ fun _ => covers_answer _ _ _
      simp only [readScratchReg, perform_eq, call_bind, ret_bind, covers_call, covers_ite, hread]
      simp [Allows]

/-- The commands that set the format of the registers. -/
@[reducible] def SetsFormat (c : IoctlCmd) : Prop := c = .setSwap ∨ c = .setRegisterSize

theorem covers_ioctlCase (hR : R.FixedScratch) (hdev : R.owned dev) (arg : UInt64) {c : IoctlCmd}
    (hc : c ≠ .scratchReg) (hsets : SetsFormat c → R.sets) : R.Covers (ioctlCase dev arg c) := by
  cases c with
  | scratchReg => exact absurd rfl hc
  | physicalSlot | getShapiModinfo =>
    apply covers_withCritRegion
    refine ⟨trivial, fun copied _ => ?_⟩
    cases copied with
    | none => exact covers_leaveWith _
    | some data => exact ⟨trivial, fun _ _ => covers_answer _ _ _⟩
  | driverVersion | udriverVersion | firmwareVersion | getStatus | getShapiDevinfo =>
    apply covers_withCritRegion
    apply covers_plain
    simp [uninitIoctrlData, answer, leaveWith, Plain]
  | setSwap =>
    apply covers_withCritRegion
    refine ⟨trivial, fun copied _ => ?_⟩
    cases copied with
    | none => exact covers_leaveWith _
    | some nUserValue =>
      exact ⟨⟨hdev, .swap _, fun _ _ => rfl, fun h => absurd (hsets (.inl rfl)) h⟩, fun _ _ =>
        covers_leaveWith _⟩
  | getSwap | getRegisterSize | lockDevice | unlockDevice =>
    apply covers_plain
    simp [ioctlCase, ioctlGetSwap, ioctlGetRegisterSize, ioctlLockDevice, ioctlUnlockDevice, Plain]
  | setBits | swapBits =>
    apply covers_withCritRegion
    refine ⟨trivial, fun copied _ => ?_⟩
    cases copied with
    | none => exact covers_leaveWith _
    | some rw =>
      apply (covers_correctFrom _).bind
      intro s
      exact (covers_inline hR .write hdev).bind fun _ => covers_leaveWith _
  | lockedRead =>
    refine ⟨trivial, fun copied _ => ?_⟩
    cases copied with
    | none => trivial
    | some rw =>
      refine (covers_correctFrom _).bind fun s => covers_withCritRegion ?_
      exact (covers_inline hR .read hdev).bind fun _ => covers_leaveWith _
  | vectorRw =>
    refine ⟨trivial, fun copied _ => ?_⟩
    cases copied with
    | none => trivial
    | some vector =>
      exact covers_withCritRegion ((covers_vectorLoop hR hdev _ _ _).bind fun _ =>
        covers_leaveWith _)
  | setRegisterSize =>
    refine ⟨trivial, fun copied _ => ?_⟩
    cases copied with
    | none => trivial
    | some nUserValue =>
      exact ⟨⟨hdev, .registerSize _, fun _ _ => rfl, fun h => absurd (hsets (.inr rfl)) h⟩,
        fun _ _ => trivial⟩
  | singleIocAccess =>
    apply covers_withCritRegion
    refine ⟨trivial, fun copied _ => ?_⟩
    cases copied with
    | none => exact covers_leaveWith _
    | some rw =>
      exact (covers_correctFrom _).bind fun s => covers_singleIocTransfer hR hdev s rw

theorem covers_pciedevIoctlExp (cmd : UInt32) (arg : UInt64)
    (hcase : ∀ dev c, R.owned dev → IoctlCmd.decode cmd = some c → R.Covers (ioctlCase dev arg c)) :
    R.Covers (pciedevIoctlExp R.filp cmd arg) := by
  refine ⟨rfl, fun dev hdev =>
    ⟨trivial, fun v _ => (covers_ite ..).mpr ⟨fun _ => trivial, fun _ => ?_⟩⟩⟩
  apply Covers.bind (covers_plain (by simp [accessError, Plain]))
  intro err
  refine (covers_ite ..).mpr ⟨fun _ => trivial, fun _ => ?_⟩
  cases hdecode : IoctlCmd.decode cmd with
  | none => trivial
  | some c => exact hcase dev c hdev hdecode

theorem covers_accessExp (hR : R.FixedScratch) (dir : Direction) (accessMode : UInt16)
    (dead refused : ℤ) (buf count fPosPtr fPos : UInt64) :
    R.Covers (accessExp dir accessMode dead refused R.filp buf count fPosPtr fPos) := by
  refine ⟨rfl, fun dev hdev =>
    ⟨trivial, fun v _ => (covers_ite ..).mpr ⟨fun _ => trivial, fun _ => ?_⟩⟩⟩
  refine covers_withCritRegion
    ((covers_ite ..).mpr ⟨fun _ => ?_, fun _ => ⟨trivial, fun copied _ => ?_⟩⟩)
  · exact covers_accessRegion hR dir hdev _ fun _ => rfl
  · cases copied with
    | none => trivial
    | some reading => exact covers_accessRegion hR dir hdev _ fun _ => rfl

theorem covers_pciedevOpenExp (hopens : R.opens) (hdev : R.owned dev) (minor : ℤ) (filp : File) :
    R.Covers (pciedevOpenExp dev minor filp) := by
  refine ⟨⟨hdev, .devMinor minor, fun _ _ => rfl, fun _ _ => rfl⟩, fun _ _ =>
    covers_withCritRegion ?_⟩
  refine ⟨⟨hdev, .opened, fun _ _ => rfl, fun _ _ => rfl⟩, fun _ _ =>
    ⟨hopens, fun _ _ => ⟨trivial, fun _ _ => ?_⟩⟩⟩
  refine ⟨rfl, fun allocated _ =>
    (covers_ite ..).mpr ⟨fun _ => ⟨trivial, fun v _ => ?_⟩, fun _ => ?_⟩⟩
  · exact ⟨⟨hdev, .listed _, fun _ _ => rfl, fun _ _ => rfl⟩, fun _ _ =>
      ⟨trivial, fun _ _ => trivial⟩⟩
  · exact ⟨trivial, fun r => r.elim⟩

theorem covers_pciedevReleaseExp : R.Covers (pciedevReleaseExp R.filp) := by
  refine ⟨rfl, fun dev hdev =>
    covers_withCritRegion ⟨⟨hdev, .released, fun _ _ => rfl, fun _ _ => rfl⟩, fun _ _ => ?_⟩⟩
  exact ⟨⟨hdev, .unlisted _, fun _ _ => rfl, fun _ _ => rfl⟩, fun _ _ =>
    ⟨trivial, fun _ _ => trivial⟩⟩

theorem covers_pciedevLlseek : R.Covers (pciedevLlseek R.filp) := by
  simp [pciedevLlseek, covers_ite, Allows]

theorem covers_pciedevRemapMmapExp (vma : VmArea) : R.Covers (pciedevRemapMmapExp R.filp vma) := by
  simp [pciedevRemapMmapExp, covers_ite, Allows, CallsKernel]

end
end Reach

/-- The call is the command that reads and moves the scratch register. -/
def FileCall.MovesScratch : FileCall → Prop
  | .ioctlExp _ cmd _ => IoctlCmd.decode cmd = some .scratchReg
  | _ => False

/-- The call is a command that sets the format of the registers. -/
def FileCall.SetsFormat : FileCall → Prop
  | .ioctlExp _ cmd _ => ∃ c, IoctlCmd.decode cmd = some c ∧ Reach.SetsFormat c
  | _ => False

def FileCall.OpensOn : FileCall → Entry → Prop
  | .openExp dev _ _, d => d = dev
  | _, _ => False

section
variable {R : Reach} {c : FileCall}

/-- Every call on a file stays in a reach that allows its kind of call; the scratch BAR has to stay,
unless the call is the one that moves it. -/
theorem fileCall_covers (hfile : c.filp = R.filp) (hopens : ∀ d, c.OpensOn d → R.opens ∧ R.owned d)
    (hmoves : c.MovesScratch → R.moves) (hsets : c.SetsFormat → R.sets)
    (hfixed : ¬ c.MovesScratch → R.FixedScratch) : R.Covers c.program := by
  cases c with
  | openExp dev minor filp =>
    exact Reach.covers_pciedevOpenExp (hopens dev rfl).1 (hopens dev rfl).2 minor filp
  | releaseExp filp =>
    obtain rfl : filp = R.filp := hfile
    exact Reach.covers_pciedevReleaseExp
  | readExp filp buf count fPosPtr fPos =>
    obtain rfl : filp = R.filp := hfile
    rw [FileCall.program, pciedevReadExp_eq]
    exact Reach.covers_accessExp (hfixed id) .read _ _ _ buf count fPosPtr fPos
  | writeExp filp buf count fPosPtr fPos =>
    obtain rfl : filp = R.filp := hfile
    rw [FileCall.program, pciedevWriteExp_eq]
    exact Reach.covers_accessExp (hfixed id) .write _ _ _ buf count fPosPtr fPos
  | llseek filp =>
    obtain rfl : filp = R.filp := hfile
    exact Reach.covers_pciedevLlseek
  | ioctlExp filp cmd arg =>
    obtain rfl : filp = R.filp := hfile
    apply Reach.covers_pciedevIoctlExp cmd arg
    intro dev c hdev hdecode
    by_cases hc : c = .scratchReg
    · subst hc
      exact Reach.covers_ioctlScratchReg (hmoves hdecode) hdev arg
    · refine Reach.covers_ioctlCase (hfixed fun hscratch => hc ?_) hdev arg hc fun h =>
        hsets ⟨c, hdecode, h⟩
      exact Option.some_injective _ (hdecode.symm.trans hscratch)
  | remapMmapExp filp vma =>
    obtain rfl : filp = R.filp := hfile
    exact Reach.covers_pciedevRemapMmapExp vma

/-- The reach of a call when nothing is known of the driver data. -/
def openReach (c : FileCall) : Reach where
  filp := c.filp
  opens := True
  moves := c.MovesScratch
  sets := c.SetsFormat
  owned _ := True
  scratch _ _ := True
  answers _ _ _ := True
  allowed _ := True
  tested _ _ _ _ := trivial

theorem fileCall_allowed (c : FileCall) : c.program.Only (openReach c).Allows := by
  have hcovers : (openReach c).Covers c.program :=
    fileCall_covers rfl (fun _ _ => ⟨trivial, trivial⟩) id id fun _ => ⟨fun _ _ _ _ _ _ => trivial⟩
  refine Sat.mono hcovers (fun op r _ _ => ?_) (fun _ hop => hop) fun _ _ htr => htr
  cases op <;> trivial

end
end Upciedev
