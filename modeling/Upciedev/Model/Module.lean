import Upciedev.Model.Discovery

/-!
# Module set-up, probe and remove

`upciedev_init_module_exp` and `upciedev_cleanup_module_exp` (`pciedev_ufn.c`),
`pciedev_probe_exp` and `pciedev_remove_exp` for a kernel of version 4.13 or later
with `CONFIG_PCI_MSI`. The probe is cut into the stages its comments name. What it only
prints is left out, except for the reads of the slot table.
-/
namespace Upciedev

open Foundations Program

/-- A zeroed entry with the numbers it has when `cdev_add` is called. -/
def newEntry (cdevP : PciedevCdev) (i : Entry) : PciedevDev :=
  { devNum := cdevP.pciedevMajor * 2 ^ 20 + (cdevP.pciedevMinor + i.val)
    devMinor := cdevP.pciedevMinor + i.val }

/-- The fields `upciedev_init_module_exp` gives entry `i` after `cdev_add`. -/
def initEntry (i : Entry) (v : PciedevDev) : PciedevDev :=
  { v with
    prjInfoList := [], moduleInfoList := [], devFileList := []
    devSts := 0, devFileRef := 0, irqMode := 0, msi := 0, devDma64mask := 0
    pciedevAllMems := 0, brdNum := i.val
    binded := if i = nullEntry then 1 else 0
    nullDev := if i = nullEntry then 1 else 0
    parentBaseDev := .pciedevUfn }

/-- `kfree` of the entries allocated before the one that failed, in table order. -/
def freeEntries : List Entry → Kernel Unit
  | [] => pure ()
  | k :: ks => do
    kernel (.kfree (.pciedevDev k))
    freeEntries ks

/-- The loop over `pciedev_dev_m`; `done` holds the entries already added. -/
def initEntries (cdevP : PciedevCdev) : List Entry → List Entry → Kernel ℤ
  | _, [] => pure 0
  | done, i :: rest => do
    if ← kzalloc (.pciedevDev i) then do
      store i fun _ => newEntry cdevP i
      let result : ℤ ← kernel (.cdevAdd i)
      if result ≠ 0 then pure 1
      else do
        store i (initEntry i)
        initEntries cdevP (done ++ [i]) rest
    else do
      freeEntries done
      kernel (.kfree .pciedevCdev)
      pure eNoMem

/-- The result of `alloc_chrdev_region` is overwritten before it is looked at, that of
`class_create` is stored and not looked at. -/
def upciedevInitModuleExp : Kernel ℤ := do
  if ← kzalloc .pciedevCdev then do
    note (.pciedevCdevPp true)
    let (_, major) : ℤ × ℤ ← kernel .allocChrdevRegion
    let _ ← kernel .classCreate
    let ((upMaj, upMin), (drvMaj, drvMin)) : (UInt16 × UInt16) × (UInt16 × UInt16) ←
      kernel .moduleVersion
    setCdev fun _ =>
      { upciedevVerMaj := upMaj, upciedevVerMin := upMin, pciedevDrvVerMaj := drvMaj
        pciedevDrvVerMin := drvMin, pciedevMajor := major }
    initEntries (← cdev) [] (List.finRange (pciedevNrDevs + 1))
  else pure eNoMem

/-- The loop of `upciedev_cleanup_module_exp` over the entries whose pointer is not null. -/
def cleanupEntries : List Entry → Kernel Unit
  | [] => pure ()
  | k :: ks => do
    kernel (.cdevDel k)
    kernel (.kfree (.pciedevDev k))
    cleanupEntries ks

def upciedevCleanupModuleExp (allocated : List Entry) : Kernel Unit := do
  kernel .unregisterChrdevRegion
  kernel .classDestroy
  cleanupEntries allocated
  kernel (.kfree .pciedevCdev)
  note (.pciedevCdevPp false)

/-- The search for a free entry; it stops one past the null entry when all are bound. -/
def findUnbound : List Entry → Kernel ℕ
  | [] => pure (pciedevNrDevs + 1)
  | i :: rest => do
    if (← load i).binded = 0 then pure i.val else findUnbound rest

def pciExpSltcap : ℤ := 0x14

/-- `PCI_SLOT` and `PCI_FUNC` of a `devfn`. -/
def pciSlot (devfn : UInt32) : UInt32 := (devfn >>> 3) &&& (0x1f : UInt32)

/-- Slot number in the slot capabilities of a bridge. -/
def slotCapOf (dev : PciDev) (t : ConfigTarget) : Kernel UInt32 := do
  let pcieCap : ℤ ← kernel (.pciFindCapability dev t)
  let tmpSlotCap : UInt32 ← kernel (.pciReadConfigDword dev t (pcieCap + pciExpSltcap))
  pure (tmpSlotCap >>> 19)

/-- `tmp_slot_num`: from the bridge, from its parent, or fixed for an NTB device. -/
def probeSlotNum (dev : PciDev) (tmpParentNum : ℤ) : Kernel ℕ := do
  let own ← slotCapOf dev .bridge
  if tmpParentNum = 1 then do
    let parent ← slotCapOf dev .parentBridge
    pure parent.toNat
  else if tmpParentNum = 2 then pure 13
  else pure own.toNat

def setDma64mask (b : Entry) (x : ℤ) : Kernel Unit := store b fun v => { v with devDma64mask := x }

/-- The second choice of the DMA mask: without a 32-bit mask the field keeps its value. -/
def probeDma32 (dev : PciDev) (b : Entry) : Kernel Unit := do
  let err : ℤ ← kernel (.pciSetDmaMask dev 32)
  if err ≠ 0 then do
    let err : ℤ ← kernel (.pciSetConsistentDmaMask dev 32)
    if err ≠ 0 then pure () else setDma64mask b 0
  else setDma64mask b 0

def probeDmaMask (dev : PciDev) (b : Entry) : Kernel Unit := do
  let err : ℤ ← kernel (.pciSetDmaMask dev 64)
  if err = 0 then do
    let err : ℤ ← kernel (.pciSetConsistentDmaMask dev 64)
    if err = 0 then setDma64mask b 1 else probeDma32 dev b
  else probeDma32 dev b

/-- Identification words of the configuration space, and the scratch register reset. -/
def probeIdentity (dev : PciDev) (b : Entry) : Kernel Unit := do
  let vendorId : UInt16 ← kernel (.pciReadConfigWord dev 0x00)
  let deviceId : UInt16 ← kernel (.pciReadConfigWord dev 0x02)
  let subvendorId : UInt16 ← kernel (.pciReadConfigWord dev 0x2c)
  let subdeviceId : UInt16 ← kernel (.pciReadConfigWord dev 0x2e)
  let classCode : UInt16 ← kernel (.pciReadConfigWord dev 0x0a)
  let revision : UInt8 ← kernel (.pciReadConfigByte dev 0x08)
  let irqLine : UInt8 ← kernel (.pciReadConfigByte dev 0x3c)
  let irqPin : UInt8 ← kernel (.pciReadConfigByte dev 0x3d)
  store b fun v =>
    { v with vendorId, deviceId, subvendorId, subdeviceId, classCode, revision, irqLine, irqPin }
  store b fun v => { v with scratchBar := 0, scratchOffset := 0 }

/-- The row of the slot table, before the BARs are entered. -/
def probeBaseTable (b : Entry) (slot : ℕ) (busNumber devNumber : UInt32) : Kernel Unit := do
  let t := (← load b).parentBaseDev
  setBaseRow t slot fun row => { row with devStst := 1 }
  setBaseRow t slot fun row => { row with slotNum := slot }
  setBaseRow t slot fun row => { row with slotBus := busNumber }
  setBaseRow t slot fun row => { row with slotDevice := devNumber }

/-- One round of the BAR loop; `nToAdd` is `2 ^ i`. -/
def probeBar (dev : PciDev) (b : Entry) (slot : ℕ) (i : Bar) : Kernel Unit := do
  let start : UInt64 ← kernel (.pciResourceStart dev i)
  let resourceEnd : UInt64 ← kernel (.pciResourceEnd dev i)
  let flags : UInt64 ← kernel (.pciResourceFlags dev i)
  let resStart := start.toUInt32
  let resEnd := resourceEnd.toUInt32
  let resFlag := flags.toUInt32
  store b fun v => { v with memBase := Function.update v.memBase i resStart }
  store b fun v => { v with memBaseEnd := Function.update v.memBaseEnd i resEnd }
  store b fun v => { v with memBaseFlag := Function.update v.memBaseFlag i resFlag }
  if resStart ≠ 0 then do
    let p : IoPtr ← kernel (.pciIomap dev i (resEnd - resStart))
    store b fun v => { v with memmoryBase := Function.update v.memmoryBase i p }
    store b fun v => { v with rwOff := Function.update v.rwOff i (resEnd - resStart).toNat }
    store b fun v => { v with pciedevAllMems := v.pciedevAllMems + 2 ^ i.val }
    setBaseBar (← load b).parentBaseDev slot i.val { resStart, resEnd, resFlag }
  else do
    store b fun v => { v with memmoryBase := Function.update v.memmoryBase i none }
    store b fun v => { v with rwOff := Function.update v.rwOff i 0 }

def probeBars (dev : PciDev) (b : Entry) (slot : ℕ) : List Bar → Kernel Unit
  | [] => pure ()
  | i :: bars => do
    probeBar dev b slot i
    probeBars dev b slot bars

/-- The loop that prints the slot table; its bound is `NUMBER_OF_SLOTS + 1`. -/
def printBaseTable (b : Entry) : List ℕ → Kernel Unit
  | [] => pure ()
  | slot :: slots => do
    let t := (← load b).parentBaseDev
    let _ ← baseRow t slot
    let _ ← baseBar t slot 0
    let _ ← baseBar t slot 1
    let _ ← baseBar t slot 2
    let _ ← baseBar t slot 3
    let _ ← baseBar t slot 4
    let _ ← baseBar t slot 5
    printBaseTable b slots

def probeInfo (fuel : ℕ) (b : Entry) : Kernel Unit := do
  store b fun v => { v with enblIrqNum := 0, deviceIrqNum := 0 }
  let tmpInfo ← pciedevGetBrdinfo b
  if tmpInfo = 1 then do
    let _ ← pciedevGetPrjinfo fuel b
    pure ()
  else if tmpInfo = 2 then do
    let _ ← pciedevGetShapiModuleInfo fuel b
    pure ()
  else pure ()

def irqfShared : UInt32 := 0x80
def pciIrqAllTypes : UInt32 := 7

def probeInterrupts (dev : PciDev) (b : Entry) : Kernel Unit := do
  store b fun v => { v with irqFlag := irqfShared }
  let tmpMsiNum : ℤ ← kernel (.pciMsiVecCount dev)
  store b fun v => { v with irqFlag := if 0 < tmpMsiNum then pciIrqAllTypes else v.irqFlag }
  let msiNum : ℤ ← kernel (.pciAllocIrqVectors dev tmpMsiNum (← load b).irqFlag)
  store b fun v => { v with msiNum }
  store b fun v =>
    if 0 ≤ msiNum then { v with msi := 1, irqFlag := v.irqFlag &&& ~~~irqfShared }
    else { v with msi := 0 }
  let irq : UInt32 ← kernel (.pciIrq dev)
  store b fun v => { v with pciDevIrq := irq }
  store b fun v => { v with irqMode := 0 }

def destroyStale (b : Entry) : Kernel Unit := do
  if (← load b).devSts ≠ 0 then do
    store b fun v => { v with devSts := 0 }
    kernel (.deviceDestroy b)
  else pure ()

def probeCreate (b : Entry) (slot : ℕ) : Kernel Unit := do
  destroyStale b
  store b fun v => { v with devSts := 1 }
  store b fun v => { v with devNameSlot := slot }
  kernel (.deviceCreate b)
  kernel (.registerProc slot b)
  store b fun v => { v with registerSize := 2 }
  setCdev fun c => { c with pciedevModuleNum := c.pciedevModuleNum + 1 }

/-- The numbers of the board; the result is `tmp_slot_num` with the bus and device numbers. -/
def probeNumbers (dev : PciDev) (b : Entry) (tmpParentNum : ℤ) : Kernel (ℕ × UInt32 × UInt32) := do
  kernel (.pciSetMaster dev)
  let tmpDevfn : UInt32 ← kernel (.pciDevfn dev)
  let busNumber : UInt32 ← kernel (.pciBusNumber dev)
  let devNumber := pciSlot tmpDevfn
  let slot ← probeSlotNum dev tmpParentNum
  store b fun v => { v with swap := 0 }
  store b fun v => { v with slotNum := slot }
  store b fun v =>
    { v with busFunc := ((busNumber &&& 0xFF) <<< 8 + (devNumber &&& 0xFF)).toNat }
  store b fun v => { v with pciedevPciDev := dev }
  pure (slot, busNumber, devNumber)

/-- Everything between `pci_set_drvdata` and the registration of the board. -/
def probeResources (fuel : ℕ) (dev : PciDev) (b : Entry) (slot : ℕ) (busNumber devNumber : UInt32) :
    Kernel Unit := do
  probeDmaMask dev b
  probeIdentity dev b
  probeBaseTable b slot busNumber devNumber
  store b fun v => { v with pciedevAllMems := 0 }
  probeBars dev b slot (List.finRange numberOfBars)
  printBaseTable b (List.range (numberOfSlots + 1))
  probeInfo fuel b
  probeInterrupts dev b

/-- Everything after the entry is chosen and the device is enabled and claimed. -/
def probeBoard (fuel : ℕ) (dev : PciDev) (b : Entry) (tmpParentNum : ℤ) : Kernel Unit := do
  let (slot, busNumber, devNumber) ← probeNumbers dev b tmpParentNum
  setDrvdata dev (some b)
  probeResources fuel dev b slot busNumber devNumber
  probeCreate b slot

/-- `pci_request_regions` failed: the entry is given back. -/
def probeRegionsFailed (dev : PciDev) (b : Entry) : Kernel Unit := do
  kernel (.pciDisableDevice dev)
  setDrvdata dev none
  store b fun v => { v with binded := 0 }

/-- The probe of a free entry. -/
def probeEntry (fuel : ℕ) (dev : PciDev) (b : Entry) (tmpParentNum : ℤ) : Kernel ℤ := do
  store b fun v => { v with binded := 1 }
  let err : ℤ ← kernel (.pciEnableDevice dev)
  if err ≠ 0 then pure err
  else do
    let err : ℤ ← kernel (.pciRequestRegions dev)
    if err ≠ 0 then do
      probeRegionsFailed dev b
      pure err
    else do
      probeBoard fuel dev b tmpParentNum
      pure 0

/-- Result and `*brd_num`. With every entry bound the search ends past the table, and the
next statement writes through `pciedev_dev_m[PCIEDEV_NR_DEVS + 1]`. -/
def pciedevProbeExp (fuel : ℕ) (dev : PciDev) (tmpParentNum : ℤ) : Kernel (ℤ × ℕ) := do
  let mBrdNum ← findUnbound (List.finRange (pciedevNrDevs + 1))
  if mBrdNum = pciedevNrDevs then pure (-1, 0)
  else if h : mBrdNum < pciedevNrDevs + 1 then do
    let err ← probeEntry fuel dev ⟨mBrdNum, h⟩ tmpParentNum
    pure (err, mBrdNum)
  else fault (.pastTable mBrdNum)

/-- `free_irq` for the lines recorded in `enbl_irq_num`; the field is read anew per line. -/
def freeIrqs (d : Entry) : List ℕ → Kernel Unit
  | [] => pure ()
  | i :: is => do
    let v ← load d
    if (v.enblIrqNum >>> UInt32.ofNat i) &&& 1 ≠ 0 then do
      kernel (.freeIrq (v.pciDevIrq + UInt32.ofNat i))
      freeIrqs d is
    else freeIrqs d is

def removeInterrupts (d : Entry) : Kernel Unit := do
  if (← load d).irqMode ≠ 0 then freeIrqs d (List.range 32) else pure ()
  let v ← load d
  if v.msi ≠ 0 then kernel (.pciDisableMsi v.pciedevPciDev) else pure ()

def clearBaseBars (d : Entry) (slot : ℕ) : List Bar → Kernel Unit
  | [] => pure ()
  | i :: bars => do
    setBaseBar (← load d).parentBaseDev slot i.val {}
    clearBaseBars d slot bars

def removeBaseTable (d : Entry) (slot : ℕ) : Kernel Unit := do
  let t := (← load d).parentBaseDev
  setBaseRow t slot fun row => { row with slotNum := 0 }
  setBaseRow t slot fun row => { row with devStst := 0 }
  setBaseRow t slot fun row => { row with slotBus := 0 }
  setBaseRow t slot fun row => { row with slotDevice := 0 }
  clearBaseBars d slot (List.finRange numberOfBars)

def unmapBar (dev : PciDev) (d : Entry) (i : Bar) : Kernel Unit := do
  let p := (← load d).memmoryBase i
  if p = none then pure ()
  else do
    kernel (.pciIounmap dev p)
    store d fun v => { v with memmoryBase := Function.update v.memmoryBase i none }
    store d fun v => { v with memBase := Function.update v.memBase i 0 }
    store d fun v => { v with memBaseEnd := Function.update v.memBaseEnd i 0 }
    store d fun v => { v with memBaseFlag := Function.update v.memBaseFlag i 0 }
    store d fun v => { v with rwOff := Function.update v.rwOff i 0 }

def unmapBars (dev : PciDev) (d : Entry) : List Bar → Kernel Unit
  | [] => pure ()
  | i :: bars => do
    unmapBar dev d i
    unmapBars dev d bars

/-- The files of the removed board go to the null device. Each round deletes the node it
stands on, which is the first one left. -/
def orphanFiles (d : Entry) : List UpciedevFileList → Kernel Unit
  | [] => pure ()
  | n :: nodes => do
    setPrivateData n.filp nullEntry
    store d fun v => { v with devFileList := v.devFileList.drop 1 }
    store nullEntry fun v => { v with devFileRef := v.devFileRef + 1 }
    orphanFiles d nodes

/-- The part of the remove that runs with the entry's lock held. -/
def removeLocked (dev : PciDev) (d : Entry) (slot : ℤ) : Kernel ℤ := do
  unmapBars dev d (List.finRange numberOfBars)
  kernel (.pciReleaseRegions (← load d).pciedevPciDev)
  kernel (.deviceDestroy d)
  kernel (.unregisterProc slot)
  store d fun v => { v with devSts := 0 }
  store d fun v => { v with binded := 0 }
  setCdev fun c => { c with pciedevModuleNum := c.pciedevModuleNum - 1 }
  kernel (.pciDisableDevice dev)
  orphanFiles d (← load d).devFileList
  let _ ← leaveCritRegion d
  pure 0

/-- `while (nLock) { nLock = EnterCritRegion(..); }` -/
def lockUntil (d : Entry) (body : Kernel ℤ) : ℕ → Kernel ℤ
  | 0 => fault .outOfFuel
  | fuel + 1 => do
    if (← enterCritRegion d) ≠ 0 then lockUntil d body fuel else body

def pciedevRemoveExp (fuel : ℕ) (dev : PciDev) : Kernel ℤ := do
  match ← drvdata dev with
  | none => pure 0
  | some d => do
    let slot := (← load d).slotNum
    store d fun v => { v with prjInfoList := [] }
    removeInterrupts d
    removeBaseTable d slot.toNat
    lockUntil d (removeLocked dev d slot) fuel

def pciedevGetPciedata (dev : PciDev) : Kernel (Option Entry) := drvdata dev

/-- A device without driver data is not told from one with a board. -/
def pciedevGetBrdnum (dev : PciDev) : Kernel ℤ := do
  match ← drvdata dev with
  | none => fault .nullPointer
  | some pciedevdev => pure (← load pciedevdev).brdNum

end Upciedev
