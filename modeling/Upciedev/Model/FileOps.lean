import Upciedev.Model.ReadWriteExp
import Upciedev.Model.IoctlExp

/-!
# Files, mmap, slots and interrupts (`pciedev_ufn.c`)

The remaining entry points of a client driver's `file_operations` and the exported
helpers around a board entry.
-/
namespace Upciedev

open Foundations Program

/-- `inode` is given by the entry whose `cdev` it belongs to and by its minor number. -/
def pciedevOpenExp (dev : Entry) (minor : ℤ) (filp : File) : Kernel ℤ := do
  store dev fun v => { v with devMinor := minor }
  if (← enterCritRegion dev) ≠ 0 then pure eRestartSys
  else do
    store dev fun v => { v with devFileRef := v.devFileRef + 1 }
    setPrivateData filp dev
    setFPos filp pciedFpos
    if ← kzalloc .upciedevFileList then do
      let fileCnt := (← load dev).devFileRef
      store dev fun v => { v with devFileList := ⟨filp, fileCnt⟩ :: v.devFileList }
      let _ ← leaveCritRegion dev
      pure 0
    else fault .nullPointer

def pciedevReleaseExp (filp : File) : Kernel ℤ := do
  let dev ← privateData filp
  if (← enterCritRegion dev) ≠ 0 then pure eRestartSys
  else do
    store dev fun v => { v with devFileRef := v.devFileRef - 1 }
    store dev fun v => { v with devFileList := v.devFileList.filter fun n => n.filp ≠ filp }
    let _ ← leaveCritRegion dev
    pure 0

/-- The part of `struct vm_area_struct` the driver reads. -/
structure VmArea where
  vmStart : UInt64
  vmEnd : UInt64
  vmPgoff : UInt64
  deriving DecidableEq, Repr

def pageShift : UInt32 := 12
def pageSize : UInt64 := 4096

def pciedevRemapMmapExp (filp : File) (vma : VmArea) : Kernel ℤ := do
  let dev ← privateData filp
  let tmpBarNum := cInt vma.vmPgoff.toUInt32
  let tmpSize := vma.vmEnd - vma.vmStart
  if tmpBarNum < 0 ∨ (numberOfBars : ℤ) ≤ tmpBarNum then pure eNoEnt
  else do
    let bar := vma.vmPgoff.toUInt32
    if (← memBase dev bar) = 0 then pure eNoMem
    else do
      let tmpPsize := ((← memBaseEnd dev bar) - (← memBase dev bar)).toUInt64
      if pageSize < tmpPsize ∧ tmpPsize < tmpSize then pure eNoMem
      else do
        let tmpPhysical := (← memBase dev bar) >>> pageShift
        let err : ℤ ← kernel (.remapPfnRange tmpPhysical.toUInt64 tmpSize)
        if err ≠ 0 then pure eAgain else pure 0

/-- `struct device_phys_address`. -/
structure DevicePhysAddress where
  slot : UInt32
  bar : UInt32
  offset : UInt32
  phsAddress : UInt32
  phsEnd : UInt32
  phsFlag : UInt32
  reserved : UInt32
  sts : UInt32
  deriving DecidableEq, Repr

/-- The row of the slot table behind both lookups, copied into the caller's structure. -/
def slotBarInto (t : TranslationUnit) (slotdev : DevicePhysAddress) : Kernel DevicePhysAddress := do
  let bar ← baseBar t slotdev.slot.toNat slotdev.bar.toNat
  pure { slotdev with phsAddress := bar.resStart, phsEnd := bar.resEnd, phsFlag := bar.resFlag }

def pciedevGetPhysicalAddress (dev : Entry) (slotdev : DevicePhysAddress) :
    Kernel (UInt32 × DevicePhysAddress) := do
  if slotdev.slot = 0 then pure (UInt32.ofInt (-1), slotdev)
  else do
    let slotdev ← slotBarInto (← load dev).parentBaseDev slotdev
    pure (slotdev.phsAddress, slotdev)

def pciedevGetSlotPciedevp (dev : Entry) (slotdev : DevicePhysAddress) :
    Kernel (ℤ × DevicePhysAddress) := do
  if slotdev.slot = 0 then pure (-1, slotdev)
  else do
    let t := (← load dev).parentBaseDev
    let row ← baseRow t slotdev.slot.toNat
    let slotdev := { slotdev with offset := row.slotBus, reserved := row.slotDevice }
    let slotdev ← slotBarInto t slotdev
    let row ← baseRow t slotdev.slot.toNat
    pure (row.devStst, { slotdev with sts := UInt32.ofInt row.devStst })

/-- `1 << num` is meant for `0 ≤ num < 32`. -/
def pciedevSetupInterrupt (dev : Entry) (num : ℕ) : Kernel ℤ := do
  let irqnum := (← load dev).pciDevIrq + UInt32.ofNat num
  store dev fun v => { v with irqMode := 1 }
  let result : ℤ ← kernel (.requestIrq irqnum (← load dev).irqFlag)
  if result ≠ 0 then do
    store dev fun v => { v with irqMode := 0 }
    pure result
  else do
    store dev fun v => { v with enblIrqNum := v.enblIrqNum ||| (1 <<< UInt32.ofNat num) }
    pure result

/-- The calls a process can make on a client driver's files. -/
inductive FileCall where
  | openExp (dev : Entry) (minor : ℤ) (filp : File)
  | releaseExp (filp : File)
  | readExp (filp : File) (buf count fPosPtr fPos : UInt64)
  | writeExp (filp : File) (buf count fPosPtr fPos : UInt64)
  | llseek (filp : File)
  | ioctlExp (filp : File) (cmd : UInt32) (arg : UInt64)
  | remapMmapExp (filp : File) (vma : VmArea)
  deriving DecidableEq, Repr

def FileCall.program : FileCall → Kernel ℤ
  | openExp dev minor filp => pciedevOpenExp dev minor filp
  | releaseExp filp => pciedevReleaseExp filp
  | readExp filp buf count fPosPtr fPos => pciedevReadExp filp buf count fPosPtr fPos
  | writeExp filp buf count fPosPtr fPos => pciedevWriteExp filp buf count fPosPtr fPos
  | llseek filp => pciedevLlseek filp
  | ioctlExp filp cmd arg => pciedevIoctlExp filp cmd arg
  | remapMmapExp filp vma => pciedevRemapMmapExp filp vma

end Upciedev
