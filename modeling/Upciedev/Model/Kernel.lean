import Upciedev.Foundations.Program
import Upciedev.Model.Device

/-!
# What the driver calls

The operations through which the driver's functions act: reads and writes of the
shared driver data (one operation per access of the source), the lock of a board
entry, and calls into the kernel proper, which covers user copies, I/O memory,
allocation, the PCI core and the device model.

`Note` operations have no effect. They mark in a trace where one of the inline
functions is entered and with which arguments, and where the scratch check ends.
-/
namespace Upciedev

open Foundations

/-- Access size of `ioread8/16/32` and `iowrite8/16/32`. -/
inductive Width where
  | w8
  | w16
  | w32
  deriving DecidableEq, Repr

def Width.bytes : Width → ℕ
  | w8 => 1
  | w16 => 2
  | w32 => 4

/-- The PCI device a configuration access of the probe goes to. -/
inductive ConfigTarget where
  | self
  | bridge
  | parentBridge
  deriving DecidableEq, Repr

/-- What a `kzalloc` or `kfree` is about. -/
inductive KObject where
  | pciedevCdev
  | pciedevDev (d : Entry)
  | upciedevFileList
  | pciedevPrjInfo
  | shapiModuleInfo
  deriving DecidableEq, Repr

/-- Calls whose answer the driver does not decide. -/
inductive KernelCall where
  | accessOk (addr : UInt64) (size : ℕ)
  | copyFromUser (T : UserType) (src : UInt64)
  | copyToUser (T : UserType) (dst : UInt64) (v : T.Val)
  | ioread (w : Width) (a : IoAddr)
  | iowrite (w : Width) (a : IoAddr) (v : UInt32)
  | uninit
  | kzalloc (o : KObject)
  | kfree (o : KObject)
  | allocChrdevRegion
  | unregisterChrdevRegion
  | classCreate
  | classDestroy
  | moduleVersion
  | cdevAdd (d : Entry)
  | cdevDel (d : Entry)
  /-- The node of an entry. Its device number is left out, since the entry determines it: the probe
  takes `dev_minor`, which the set-up makes `PCIEDEV_MINOR` plus the index of the entry and `open`
  sets to the minor number of the node that leads to the entry; the remove takes
  `PCIEDEV_MINOR + brd_num`. -/
  | deviceCreate (d : Entry)
  | deviceDestroy (d : Entry)
  | registerProc (slot : ℤ) (d : Entry)
  | unregisterProc (slot : ℤ)
  | pciEnableDevice (dev : PciDev)
  | pciDisableDevice (dev : PciDev)
  | pciRequestRegions (dev : PciDev)
  | pciReleaseRegions (dev : PciDev)
  | pciSetMaster (dev : PciDev)
  | pciDevfn (dev : PciDev)
  | pciBusNumber (dev : PciDev)
  | pciFindCapability (dev : PciDev) (t : ConfigTarget)
  | pciReadConfigByte (dev : PciDev) (off : ℤ)
  | pciReadConfigWord (dev : PciDev) (off : ℤ)
  | pciReadConfigDword (dev : PciDev) (t : ConfigTarget) (off : ℤ)
  | pciSetDmaMask (dev : PciDev) (bits : ℕ)
  | pciSetConsistentDmaMask (dev : PciDev) (bits : ℕ)
  | pciResourceStart (dev : PciDev) (i : Bar)
  | pciResourceEnd (dev : PciDev) (i : Bar)
  | pciResourceFlags (dev : PciDev) (i : Bar)
  | pciIomap (dev : PciDev) (i : Bar) (maxlen : UInt32)
  | pciIounmap (dev : PciDev) (p : IoPtr)
  | pciMsiVecCount (dev : PciDev)
  | pciAllocIrqVectors (dev : PciDev) (maxVecs : ℤ) (flags : UInt32)
  | pciDisableMsi (dev : PciDev)
  | pciIrq (dev : PciDev)
  | requestIrq (irq : UInt32) (flags : UInt32)
  | freeIrq (irq : UInt32)
  | remapPfnRange (pfn : UInt64) (size : UInt64)

/-- `copyFromUser` answers `none` and `copyToUser` answers `true` when bytes are left
uncopied, `classCreate` answers `false` with an error pointer; `uninit` is the initial content of a
word of the kernel stack. -/
@[reducible] def KernelCall.Res : KernelCall → Type
  | accessOk _ _ => Bool
  | copyFromUser T _ => Option T.Val
  | copyToUser _ _ _ => Bool
  | ioread _ _ => UInt32
  | iowrite _ _ _ => Unit
  | uninit => UInt32
  | kzalloc _ => Bool
  | kfree _ => Unit
  | allocChrdevRegion => ℤ × ℤ
  | unregisterChrdevRegion => Unit
  | classCreate => Bool
  | classDestroy => Unit
  | moduleVersion => (UInt16 × UInt16) × (UInt16 × UInt16)
  | cdevAdd _ => ℤ
  | cdevDel _ => Unit
  | deviceCreate _ | deviceDestroy _ => Unit
  | registerProc _ _ | unregisterProc _ => Unit
  | pciEnableDevice _ | pciRequestRegions _ => ℤ
  | pciDisableDevice _ | pciReleaseRegions _ | pciSetMaster _ => Unit
  | pciDevfn _ | pciBusNumber _ => UInt32
  | pciFindCapability _ _ => ℤ
  | pciReadConfigByte _ _ => UInt8
  | pciReadConfigWord _ _ => UInt16
  | pciReadConfigDword _ _ _ => UInt32
  | pciSetDmaMask _ _ | pciSetConsistentDmaMask _ _ => ℤ
  | pciResourceStart _ _ | pciResourceEnd _ _ | pciResourceFlags _ _ => UInt64
  | pciIomap _ _ _ => IoPtr
  | pciIounmap _ _ => Unit
  | pciMsiVecCount _ | pciAllocIrqVectors _ _ _ => ℤ
  | pciDisableMsi _ => Unit
  | pciIrq _ => UInt32
  | requestIrq _ _ => ℤ
  | freeIrq _ => Unit
  | remapPfnRange _ _ => ℤ

/-- Ways of not coming back: an access the kernel does not survive, or a loop that
ran longer than the bound the caller of the model gave. -/
inductive Fault where
  | divideByZero
  | nullPointer
  | pastTable (index : ℕ)
  | outOfFuel
  deriving DecidableEq, Repr

/-- Arguments of `pciedev_read_inline` and `pciedev_write_inline`. -/
structure InlineCall where
  dev : Entry
  registerSize : UInt16
  rwAccessMode : UInt16
  bar : UInt32
  offset : UInt32
  userData : UInt64
  userMask : UInt64
  count : ℕ
  deriving DecidableEq, Repr

/-- Places of the source that change nothing in the model: the entry of an inline function, the
scratch check, and the pointer `*pciedev_cdev_pp`, which is set to the structure or cleared. -/
inductive Note where
  | readInline (c : InlineCall)
  | writeInline (c : InlineCall)
  | readWritePrivate (regSize : UInt16) (accessMode : UInt16) (a : IoAddr)
  | checkScratch
  | scratchChecked
  | pciedevCdevPp (set : Bool)
  deriving DecidableEq, Repr

inductive Op where
  | privateData (filp : File)
  | setPrivateData (filp : File) (d : Entry)
  | setFPos (filp : File) (pos : UInt64)
  | load (d : Entry)
  | store (d : Entry) (f : PciedevDev → PciedevDev)
  | memmoryBase (d : Entry) (i : UInt32)
  | memBase (d : Entry) (i : UInt32)
  | memBaseEnd (d : Entry) (i : UInt32)
  | cdev
  | setCdev (f : PciedevCdev → PciedevCdev)
  | drvdata (dev : PciDev)
  | setDrvdata (dev : PciDev) (d : Option Entry)
  | baseRow (t : TranslationUnit) (slot : ℕ)
  | setBaseRow (t : TranslationUnit) (slot : ℕ) (f : UpciedevPhysAddress → UpciedevPhysAddress)
  | baseBar (t : TranslationUnit) (slot bar : ℕ)
  | setBaseBar (t : TranslationUnit) (slot bar : ℕ) (v : UpciedevBarAddress)
  | enterCritRegion (d : Entry)
  | leaveCritRegion (d : Entry)
  | longLockOfCriticalRegion (d : Entry)
  | unlockLongCritRegion (d : Entry)
  | kernel (c : KernelCall)
  | fault (f : Fault)
  | note (n : Note)

@[reducible] def Op.Res : Op → Type
  | privateData _ => Entry
  | setPrivateData _ _ | setFPos _ _ => Unit
  | load _ => PciedevDev
  | store _ _ => Unit
  | memmoryBase _ _ => IoPtr
  | memBase _ _ | memBaseEnd _ _ => UInt32
  | cdev => PciedevCdev
  | setCdev _ => Unit
  | drvdata _ => Option Entry
  | setDrvdata _ _ => Unit
  | baseRow _ _ => UpciedevPhysAddress
  | setBaseRow _ _ _ => Unit
  | baseBar _ _ _ => UpciedevBarAddress
  | setBaseBar _ _ _ _ => Unit
  | enterCritRegion _ | leaveCritRegion _ => ℤ
  | longLockOfCriticalRegion _ | unlockLongCritRegion _ => ℤ
  | kernel c => c.Res
  | fault _ => Empty
  | note _ => Unit

@[reducible] def driverInterface : Interface := ⟨Op, Op.Res⟩

abbrev Kernel (α : Type) := Program driverInterface α
abbrev Trace := List (Event driverInterface)

section
open Program

abbrev privateData (filp : File) : Kernel Entry :=
  perform (I := driverInterface) (.privateData filp)
abbrev setPrivateData (filp : File) (d : Entry) : Kernel Unit :=
  perform (I := driverInterface) (.setPrivateData filp d)
abbrev setFPos (filp : File) (pos : UInt64) : Kernel Unit :=
  perform (I := driverInterface) (.setFPos filp pos)
abbrev load (d : Entry) : Kernel PciedevDev := perform (I := driverInterface) (.load d)
abbrev store (d : Entry) (f : PciedevDev → PciedevDev) : Kernel Unit :=
  perform (I := driverInterface) (.store d f)
abbrev memmoryBase (d : Entry) (i : UInt32) : Kernel IoPtr :=
  perform (I := driverInterface) (.memmoryBase d i)
abbrev memBase (d : Entry) (i : UInt32) : Kernel UInt32 :=
  perform (I := driverInterface) (.memBase d i)
abbrev memBaseEnd (d : Entry) (i : UInt32) : Kernel UInt32 :=
  perform (I := driverInterface) (.memBaseEnd d i)
abbrev cdev : Kernel PciedevCdev := perform (I := driverInterface) .cdev
abbrev setCdev (f : PciedevCdev → PciedevCdev) : Kernel Unit :=
  perform (I := driverInterface) (.setCdev f)
abbrev drvdata (dev : PciDev) : Kernel (Option Entry) :=
  perform (I := driverInterface) (.drvdata dev)
abbrev setDrvdata (dev : PciDev) (d : Option Entry) : Kernel Unit :=
  perform (I := driverInterface) (.setDrvdata dev d)
abbrev baseRow (t : TranslationUnit) (slot : ℕ) : Kernel UpciedevPhysAddress :=
  perform (I := driverInterface) (.baseRow t slot)
abbrev setBaseRow (t : TranslationUnit) (slot : ℕ)
    (f : UpciedevPhysAddress → UpciedevPhysAddress) : Kernel Unit :=
  perform (I := driverInterface) (.setBaseRow t slot f)
abbrev baseBar (t : TranslationUnit) (slot bar : ℕ) : Kernel UpciedevBarAddress :=
  perform (I := driverInterface) (.baseBar t slot bar)
abbrev setBaseBar (t : TranslationUnit) (slot bar : ℕ) (v : UpciedevBarAddress) : Kernel Unit :=
  perform (I := driverInterface) (.setBaseBar t slot bar v)
abbrev enterCritRegion (d : Entry) : Kernel ℤ := perform (I := driverInterface) (.enterCritRegion d)
abbrev leaveCritRegion (d : Entry) : Kernel ℤ := perform (I := driverInterface) (.leaveCritRegion d)
abbrev longLockOfCriticalRegion (d : Entry) : Kernel ℤ :=
  perform (I := driverInterface) (.longLockOfCriticalRegion d)
abbrev unlockLongCritRegion (d : Entry) : Kernel ℤ :=
  perform (I := driverInterface) (.unlockLongCritRegion d)
abbrev kernel (c : KernelCall) : Kernel c.Res := perform (I := driverInterface) (.kernel c)
abbrev copyFromUser (T : UserType) (src : UInt64) : Kernel (Option T.Val) :=
  kernel (.copyFromUser T src)
abbrev copyToUser (T : UserType) (dst : UInt64) (v : T.Val) : Kernel Bool :=
  kernel (.copyToUser T dst v)
abbrev ioread (w : Width) (a : IoAddr) : Kernel UInt32 := kernel (.ioread w a)
abbrev iowrite (w : Width) (a : IoAddr) (v : UInt32) : Kernel Unit := kernel (.iowrite w a v)
abbrev uninit : Kernel UInt32 := kernel .uninit
abbrev kzalloc (o : KObject) : Kernel Bool := kernel (.kzalloc o)
abbrev note (n : Note) : Kernel Unit := perform (I := driverInterface) (.note n)

/-- A fault answers nothing, so whatever follows it is never reached. -/
def fault {α : Type} (f : Fault) : Kernel α := call (I := driverInterface) (.fault f) Empty.elim

/-- Unsigned division, which traps on a zero divisor. -/
def udiv (a b : UInt32) : Kernel UInt32 :=
  if b = 0 then fault .divideByZero else pure (a / b)

/-- Unsigned remainder, which traps on a zero divisor. -/
def umod (a b : UInt32) : Kernel UInt32 :=
  if b = 0 then fault .divideByZero else pure (a % b)

end

/-- The driver data shared by all calls, and the environment's own state. -/
@[ext]
structure World (ε : Type) where
  privateData : File → Entry
  fPos : File → UInt64
  pciedevDevM : Entry → PciedevDev
  cdev : PciedevCdev
  drvdata : PciDev → Option Entry
  baseUpciedevDev : TranslationUnit → ℕ → UpciedevPhysAddress
  env : ε

variable {ε : Type}

@[simps -fullyApplied]
def World.updateDev (w : World ε) (d : Entry) (f : PciedevDev → PciedevDev) : World ε :=
  { w with pciedevDevM := Function.update w.pciedevDevM d (f (w.pciedevDevM d)) }

@[simps -fullyApplied]
def World.updateRow (w : World ε) (t : TranslationUnit) (slot : ℕ)
    (f : UpciedevPhysAddress → UpciedevPhysAddress) : World ε :=
  { w with
    baseUpciedevDev := Function.update w.baseUpciedevDev t
      (Function.update (w.baseUpciedevDev t) slot (f (w.baseUpciedevDev t slot))) }

/-- What the rest of the kernel may answer. -/
abbrev Environment (ε : Type) := (c : KernelCall) → ε → c.Res → ε → Prop

/-- The environment in which every call may be answered in every way. -/
def openEnvironment : Environment Unit := fun _ _ _ _ => True

/-- Reading one of the BAR arrays: an index past the end returns whatever lies there. -/
def barEntry {α : Type} (arr : Bar → α) (i : UInt32) (r : α) : Prop :=
  ∀ h : i.toNat < numberOfBars, r = arr ⟨i.toNat, h⟩

/-- `_NOT_IMPLEMENTED_`, the answer of the long lock in the default build. -/
def notImplemented : ℤ := -6

/-- The driver data as the operations see and change it, with the lock of the default
(mutex) build: entering succeeds, and the long lock is not implemented. -/
def driver (E : Environment ε) : Handler driverInterface (World ε)
  | .privateData filp, w, r, w' => r = w.privateData filp ∧ w' = w
  | .setPrivateData filp d, w, _, w' =>
      w' = { w with privateData := Function.update w.privateData filp d }
  | .setFPos filp pos, w, _, w' => w' = { w with fPos := Function.update w.fPos filp pos }
  | .load d, w, r, w' => r = w.pciedevDevM d ∧ w' = w
  | .store d f, w, _, w' => w' = w.updateDev d f
  | .memmoryBase d i, w, r, w' => barEntry (w.pciedevDevM d).memmoryBase i r ∧ w' = w
  | .memBase d i, w, r, w' => barEntry (w.pciedevDevM d).memBase i r ∧ w' = w
  | .memBaseEnd d i, w, r, w' => barEntry (w.pciedevDevM d).memBaseEnd i r ∧ w' = w
  | .cdev, w, r, w' => r = w.cdev ∧ w' = w
  | .setCdev f, w, _, w' => w' = { w with cdev := f w.cdev }
  | .drvdata dev, w, r, w' => r = w.drvdata dev ∧ w' = w
  | .setDrvdata dev d, w, _, w' => w' = { w with drvdata := Function.update w.drvdata dev d }
  | .baseRow t slot, w, r, w' => r = w.baseUpciedevDev t slot ∧ w' = w
  | .setBaseRow t slot f, w, _, w' => w' = w.updateRow t slot f
  | .baseBar t slot bar, w, r, w' => r = (w.baseUpciedevDev t slot).bars bar ∧ w' = w
  | .setBaseBar t slot bar v, w, _, w' =>
      w' = w.updateRow t slot fun row => { row with bars := Function.update row.bars bar v }
  | .enterCritRegion _, w, r, w' => r = (0 : ℤ) ∧ w' = w
  | .leaveCritRegion _, w, r, w' => r = (0 : ℤ) ∧ w' = w
  | .longLockOfCriticalRegion _, w, r, w' => r = notImplemented ∧ w' = w
  | .unlockLongCritRegion _, w, r, w' => r = notImplemented ∧ w' = w
  | .kernel c, w, r, w' => ∃ e, E c w.env r e ∧ w' = { w with env := e }
  | .fault _, _, r, _ => r.elim
  | .note _, w, _, w' => w' = w

end Upciedev
