import Upciedev.Model.Io

/-!
# Driver data (`pciedev_ufn.h`)

The records the driver keeps for a board, for its client drivers and for the slots
of the crate. Every field of a record starts as `kzalloc` leaves it. Pointers into a
mapped BAR are a mapping together with an offset; `none` is the null mapping.
-/
namespace Upciedev

abbrev pciedevNrDevs : ℕ := 15
abbrev numberOfSlots : ℕ := 15
abbrev pciedFpos : UInt64 := 7

def asciiBoardMagicNum : UInt32 := 0x424F5244
def asciiProjMagicNum : UInt32 := 0x50524F4A
def asciiBoardMagicNumL : UInt32 := 0x626F7264
def shapiMagicDeviceNum : UInt32 := 0x00005348
def shapiMagicModuleNum : UInt32 := 0x0000534D

/-- Index of an entry of `pciedev_dev_m`; the last one is the null device. -/
abbrev Entry := Fin (pciedevNrDevs + 1)

instance (priority := high) pciedevNrDevs_neZero : NeZero (pciedevNrDevs + 1) := ⟨by decide⟩

def nullEntry : Entry := Fin.last pciedevNrDevs

/-- Identity of a `struct file`. -/
abbrev File := ℕ

/-- Identity of a `struct pci_dev`. -/
abbrev PciDev := ℕ

abbrev Bar := Fin numberOfBars

instance numberOfBars_neZero : NeZero numberOfBars := ⟨by decide⟩

/-- A result of `pci_iomap`; `none` is the null pointer. -/
abbrev IoPtr := Option ℕ

/-- An address in I/O memory: the pointer it was computed from and the offset added to it. -/
structure IoAddr where
  base : IoPtr
  off : ℤ
  deriving DecidableEq, Repr

def IoAddr.add (a : IoAddr) (n : ℤ) : IoAddr := ⟨a.base, a.off + n⟩

@[simp] theorem IoAddr.add_base (a : IoAddr) (n : ℤ) : (a.add n).base = a.base := rfl
@[simp] theorem IoAddr.add_off (a : IoAddr) (n : ℤ) : (a.add n).off = a.off + n := rfl

/-- The static `base_upciedev_dev` of the header exists once per translation unit. -/
inductive TranslationUnit where
  | upciedevDrv
  | pciedevUfn
  | pciedevProbeExp
  | pciedevRemoveExp
  | pciedevRwExp
  | pciedevIoctlExp
  | criticalregionlock
  deriving DecidableEq, Repr

structure UpciedevBarAddress where
  resStart : UInt32 := 0
  resEnd : UInt32 := 0
  resFlag : UInt32 := 0
  deriving DecidableEq, Repr

structure UpciedevPhysAddress where
  slotNum : ℤ := 0
  devStst : ℤ := 0
  bars : ℕ → UpciedevBarAddress := fun _ => {}
  slotBus : UInt32 := 0
  slotDevice : UInt32 := 0

structure UpciedevFileList where
  filp : File
  fileCnt : ℤ
  deriving DecidableEq, Repr

structure PciedevBrdInfo where
  pciedevBoardId : UInt32 := 0
  pciedevBoardVersion : UInt32 := 0
  pciedevBoardDate : UInt32 := 0
  pciedevHwVersion : UInt32 := 0
  pciedevBoardReserved : UInt32 := 0
  pciedevProjNext : UInt32 := 0
  deriving DecidableEq, Repr

structure PciedevPrjInfo where
  pciedevProjId : UInt32 := 0
  pciedevProjVersion : UInt32 := 0
  pciedevProjDate : UInt32 := 0
  pciedevProjReserved : UInt32 := 0
  pciedevProjNext : UInt32 := 0
  deriving DecidableEq, Repr

structure ShapiDeviceInfo where
  shapiVersion : UInt32 := 0
  shapiFirstModuleAddress : UInt32 := 0
  shapiHwIds : UInt32 := 0
  shapiFwIds : UInt32 := 0
  shapiFwVersion : UInt32 := 0
  shapiFwTimestamp : UInt32 := 0
  shapiFwName : Fin 3 → UInt32 := fun _ => 0
  shapiDeviceCap : UInt32 := 0
  shapiDeviceStatus : UInt32 := 0
  shapiDeviceControl : UInt32 := 0
  shapiIrqMask : UInt32 := 0
  shapiIrqFlag : UInt32 := 0
  shapiIrqActive : UInt32 := 0
  shapiScratchRegister : UInt32 := 0
  fwName : Fin 13 → UInt8 := fun _ => 0
  deriving DecidableEq

structure ShapiModuleInfo where
  shapiVersion : UInt32 := 0
  shapiNextModuleAddress : UInt32 := 0
  shapiModuleFwIds : UInt32 := 0
  shapiModuleVersion : UInt32 := 0
  shapiModuleName : Fin 2 → UInt32 := fun _ => 0
  shapiModuleCap : UInt32 := 0
  shapiModuleStatus : UInt32 := 0
  shapiModuleControl : UInt32 := 0
  shapiIrqId : UInt32 := 0
  shapiIrqFlagClear : UInt32 := 0
  shapiIrqMask : UInt32 := 0
  shapiIrqFlag : UInt32 := 0
  shapiIrqActive : UInt32 := 0
  moduleName : Fin 9 → UInt8 := fun _ => 0
  moduleNum : ℤ := 0
  deriving DecidableEq

/-- `struct pciedev_dev`. Lists start at the node the list head points to. -/
structure PciedevDev where
  pciedevPciDev : PciDev := 0
  devNameSlot : ℤ := 0
  binded : ℤ := 0
  brdNum : ℤ := 0
  devMinor : ℤ := 0
  devNum : ℤ := 0
  devSts : ℤ := 0
  devFileRef : ℤ := 0
  nullDev : ℤ := 0
  swap : ℤ := 0
  registerSize : ℤ := 0
  devFileList : List UpciedevFileList := []
  slotNum : ℤ := 0
  vendorId : UInt16 := 0
  deviceId : UInt16 := 0
  subvendorId : UInt16 := 0
  subdeviceId : UInt16 := 0
  classCode : UInt16 := 0
  revision : UInt8 := 0
  busFunc : ℤ := 0
  memBase : Bar → UInt32 := fun _ => 0
  memBaseEnd : Bar → UInt32 := fun _ => 0
  memBaseFlag : Bar → UInt32 := fun _ => 0
  rwOff : Bar → ℤ := fun _ => 0
  memmoryBase : Bar → IoPtr := fun _ => none
  devDma64mask : ℤ := 0
  pciedevAllMems : ℤ := 0
  scratchBar : UInt32 := 0
  scratchOffset : UInt32 := 0
  msi : UInt8 := 0
  msiNum : ℤ := 0
  irqFlag : UInt32 := 0
  irqMode : UInt16 := 0
  irqLine : UInt8 := 0
  irqPin : UInt8 := 0
  pciDevIrq : UInt32 := 0
  enblIrqNum : UInt32 := 0
  deviceIrqNum : UInt32 := 0
  parentBaseDev : TranslationUnit := .pciedevUfn
  brdInfoList : PciedevBrdInfo := {}
  prjInfoList : List PciedevPrjInfo := []
  startupBrd : ℤ := 0
  startupPrjNum : ℤ := 0
  deviceInfoList : ShapiDeviceInfo := {}
  moduleInfoList : List ShapiModuleInfo := []
  shapiBrd : ℤ := 0
  shapiModuleNum : ℤ := 0

/-- `struct pciedev_cdev` without the table itself, which is `World.pciedevDevM`. -/
structure PciedevCdev where
  upciedevVerMaj : UInt16 := 0
  upciedevVerMin : UInt16 := 0
  pciedevDrvVerMaj : UInt16 := 0
  pciedevDrvVerMin : UInt16 := 0
  pciedevMajor : ℤ := 0
  pciedevMinor : ℤ := 0
  pciedevModuleNum : ℤ := 0
  deriving DecidableEq, Repr

end Upciedev
