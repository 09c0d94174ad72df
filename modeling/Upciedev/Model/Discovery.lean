import Upciedev.Model.Kernel

/-!
# Board discovery (`pciedev_ufn.c`)

Reading the board header and following the chain of project or module headers. The
`while` loops take a bound on their rounds; a loop that needs more than that ends in
the fault `outOfFuel`, so a complete run is one in which the C loop has ended.
-/
namespace Upciedev

open Foundations Program

def wordBoardId : ℤ := 0x04
def wordBoardVersion : ℤ := 0x08
def wordBoardDate : ℤ := 0x0C
def wordBoardHwVersion : ℤ := 0x10
def wordBoardToProj : ℤ := 0x18

def wordProjId : ℤ := 0x04
def wordProjVersion : ℤ := 0x08
def wordProjDate : ℤ := 0x0C
def wordProjReserved : ℤ := 0x10
def wordProjNext : ℤ := 0x18

def wordDeviceVersion : ℤ := 0x00
def wordFirstModuleAddress : ℤ := 0x04
def wordHwIds : ℤ := 0x08
def wordFwIds : ℤ := 0x0C
def wordFwVersion : ℤ := 0x10
def wordFwTimestamp : ℤ := 0x14
def wordFwName : ℤ := 0x18
def wordDeviceCap : ℤ := 0x24
def wordDeviceStatus : ℤ := 0x28
def wordDeviceControl : ℤ := 0x2C
def wordIrqMask : ℤ := 0x30
def wordIrqFlag : ℤ := 0x34
def wordIrqActive : ℤ := 0x38
def wordScratchRegister : ℤ := 0x3C

def wordModuleShapiVersion : ℤ := 0x00
def wordNextModuleAddress : ℤ := 0x04
def wordModuleIds : ℤ := 0x08
def wordModuleVersion : ℤ := 0x0C
def wordModuleName : ℤ := 0x10
def wordModuleCap : ℤ := 0x18
def wordModuleStatus : ℤ := 0x1C
def wordModuleControl : ℤ := 0x20
def wordModuleIrqId : ℤ := 0x24
def wordModuleIrqClear : ℤ := 0x28
def wordModuleIrqMask : ℤ := 0x2C
def wordModuleIrqFlag : ℤ := 0x30
def wordModuleIrqActive : ℤ := 0x34

/-- Byte `3 - i` of a register, the `i`-th character of a name word. -/
def nameByte (word : UInt32) (i : ℕ) : UInt8 := (word >>> UInt32.ofNat ((3 - i) * 8)).toUInt8

/-- The inner loop over the characters of one name word; `left` characters remain. A
blank or a zero ends the word, leaving the rest of its four bytes as they were. -/
def nameWord {n : ℕ} (word : UInt32) (k : ℕ) : ℕ → (Fin n → UInt8) → (Fin n → UInt8)
  | 0, name => name
  | left + 1, name =>
    let i := 4 - (left + 1)
    let ach := nameByte word i
    let put := fun c : UInt8 => fun j : Fin n => if j.val = i + k then c else name j
    if ach = 0x20 ∨ ach = 0 then put 0 else nameWord word k left (put ach)

/-- `address = baddress + WORD; tmp_data_32 = ioread32(address); field = tmp_data_32;` -/
def readField (dev : Entry) (baddress : IoAddr) (word : ℤ)
    (field : UInt32 → PciedevDev → PciedevDev) : Kernel Unit := do
  let tmpData32 ← ioread .w32 (baddress.add word)
  store dev (field tmpData32)

def setBrdInfo (f : UInt32 → PciedevBrdInfo → PciedevBrdInfo) (x : UInt32) (v : PciedevDev) :
    PciedevDev := { v with brdInfoList := f x v.brdInfoList }

def setDeviceInfo (f : UInt32 → ShapiDeviceInfo → ShapiDeviceInfo) (x : UInt32)
    (v : PciedevDev) : PciedevDev := { v with deviceInfoList := f x v.deviceInfoList }

/-- The DESY branch of `pciedev_get_brdinfo`. -/
def fillBrdInfo (dev : Entry) (baddress : IoAddr) : Kernel Unit := do
  readField dev baddress wordBoardId (setBrdInfo fun x b => { b with pciedevBoardId := x })
  readField dev baddress wordBoardVersion
    (setBrdInfo fun x b => { b with pciedevBoardVersion := x })
  readField dev baddress wordBoardDate (setBrdInfo fun x b => { b with pciedevBoardDate := x })
  readField dev baddress wordBoardHwVersion
    (setBrdInfo fun x b => { b with pciedevHwVersion := x })
  store dev (setBrdInfo (fun x b => { b with pciedevProjNext := x }) 0)
  readField dev baddress wordBoardToProj (setBrdInfo fun x b => { b with pciedevProjNext := x })

/-- One round of the name loop of the device header; `k` is `4 * i`. -/
def fillFwName (dev : Entry) (baddress : IoAddr) (i : Fin 3) : Kernel Unit :=
  readField dev baddress (wordFwName + 4 * i.val) (setDeviceInfo fun x d =>
    { d with shapiFwName := Function.update d.shapiFwName i x
             fwName := nameWord x (4 * i.val) 4 d.fwName })

/-- The SHAPI branch of `pciedev_get_brdinfo`. -/
def fillDeviceInfo (dev : Entry) (baddress : IoAddr) : Kernel Unit := do
  readField dev baddress wordDeviceVersion
    (setDeviceInfo fun x d => { d with shapiVersion := x &&& 0xFFFF })
  readField dev baddress wordFirstModuleAddress fun x v =>
    { setDeviceInfo (fun x d => { d with shapiFirstModuleAddress := x }) x v with
      shapiModuleNum := if x ≠ 0 then 1 else v.shapiModuleNum }
  readField dev baddress wordHwIds (setDeviceInfo fun x d => { d with shapiHwIds := x })
  readField dev baddress wordFwIds (setDeviceInfo fun x d => { d with shapiFwIds := x })
  readField dev baddress wordFwVersion (setDeviceInfo fun x d => { d with shapiFwVersion := x })
  readField dev baddress wordFwTimestamp
    (setDeviceInfo fun x d => { d with shapiFwTimestamp := x })
  readField dev baddress wordDeviceCap (setDeviceInfo fun x d => { d with shapiDeviceCap := x })
  readField dev baddress wordDeviceStatus
    (setDeviceInfo fun x d => { d with shapiDeviceStatus := x })
  readField dev baddress wordDeviceControl
    (setDeviceInfo fun x d => { d with shapiDeviceControl := x })
  readField dev baddress wordIrqMask (setDeviceInfo fun x d => { d with shapiIrqMask := x })
  readField dev baddress wordIrqFlag (setDeviceInfo fun x d => { d with shapiIrqFlag := x })
  readField dev baddress wordIrqActive (setDeviceInfo fun x d => { d with shapiIrqActive := x })
  readField dev baddress wordScratchRegister
    (setDeviceInfo fun x d => { d with shapiScratchRegister := x })
  store dev fun v =>
    { v with scratchBar := 0, scratchOffset := UInt32.ofInt wordScratchRegister }
  fillFwName dev baddress 0
  fillFwName dev baddress 1
  fillFwName dev baddress 2

def pciedevGetBrdinfo (dev : Entry) : Kernel ℤ := do
  store dev fun v => { v with startupBrd := 0, shapiBrd := 0, shapiModuleNum := 0 }
  let base := (← load dev).memmoryBase 0
  if base = none then pure 0
  else do
    let baddress : IoAddr := ⟨base, 0⟩
    let tmpData32 ← ioread .w32 baddress
    if tmpData32 = asciiBoardMagicNum ∨ tmpData32 = asciiBoardMagicNumL then do
      store dev fun v => { v with startupBrd := 1 }
      fillBrdInfo dev baddress
      pure (← load dev).startupBrd
    else if tmpData32 >>> 16 = shapiMagicDeviceNum then do
      store dev fun v => { v with startupBrd := 0, shapiBrd := 1 }
      fillDeviceInfo dev baddress
      pure 2
    else pure 0

/-- The project record a header at `baradress` is read into, field by field. -/
def readPrjInfo (baradress : IoAddr) : Kernel PciedevPrjInfo := do
  let pciedevProjId ← ioread .w32 (baradress.add wordProjId)
  let pciedevProjVersion ← ioread .w32 (baradress.add wordProjVersion)
  let pciedevProjDate ← ioread .w32 (baradress.add wordProjDate)
  let pciedevProjReserved ← ioread .w32 (baradress.add wordProjReserved)
  let pciedevProjNext ← ioread .w32 (baradress.add wordProjNext)
  pure { pciedevProjId, pciedevProjVersion, pciedevProjDate, pciedevProjReserved, pciedevProjNext }

def pciedevFillPrjInfo (dev : Entry) (baradress : IoAddr) : Kernel ℤ := do
  let tmpData32 ← ioread .w32 baradress
  if tmpData32 = asciiProjMagicNum then do
    store dev fun v => { v with startupPrjNum := v.startupPrjNum + 1 }
    if ← kzalloc .pciedevPrjInfo then do
      let prj ← readPrjInfo baradress
      store dev (setBrdInfo (fun x b => { b with pciedevProjNext := x }) 0)
      store dev fun v => { v with prjInfoList := prj :: v.prjInfoList }
      pure (cInt prj.pciedevProjNext)
    else fault .nullPointer
  else pure 0

/-- `while (tmp_next) { address = baddress + tmp_next; tmp_next = fill(bdev, address); }` -/
def followChain (fill : IoAddr → Kernel ℤ) (baddress : IoAddr) : ℕ → ℤ → Kernel Unit
  | 0, tmpNext => if tmpNext = 0 then pure () else fault .outOfFuel
  | fuel + 1, tmpNext =>
    if tmpNext = 0 then pure ()
    else do
      let tmpNext ← fill (baddress.add tmpNext)
      followChain fill baddress fuel tmpNext

/-- The loop of the BAR scan: `tmp_next_prj1` stays 0, so every round fills from offset 0. -/
def refillStart (fill : IoAddr → Kernel ℤ) (baddress : IoAddr) : ℕ → ℤ → Kernel Unit
  | 0, tmpNext => if tmpNext = 0 then pure () else fault .outOfFuel
  | fuel + 1, tmpNext =>
    if tmpNext = 0 then pure ()
    else do
      let tmpNext ← fill (baddress.add 0)
      refillStart fill baddress fuel tmpNext

/-- The `else` branch of both discovery functions, over the BARs listed. -/
def scanBars (fill : IoAddr → Kernel ℤ) (dev : Entry) (fuel : ℕ) : List Bar → Kernel Unit
  | [] => pure ()
  | i :: bars => do
    let base := (← load dev).memmoryBase i
    if base = none then scanBars fill dev fuel bars
    else do
      refillStart fill ⟨base, 0⟩ fuel 1
      scanBars fill dev fuel bars

/-- `for (i = 1; i < NUMBER_OF_BARS; ++i)` -/
def scannedBars : List Bar := [1, 2, 3, 4, 5]

def discover (fill : IoAddr → Kernel ℤ) (dev : Entry) (fuel : ℕ) (tmpNext : ℤ) : Kernel Unit :=
  if tmpNext = 0 then scanBars fill dev fuel scannedBars
  else do
    let base := (← load dev).memmoryBase 0
    followChain fill ⟨base, 0⟩ fuel tmpNext

def pciedevGetPrjinfo (fuel : ℕ) (dev : Entry) : Kernel ℤ := do
  store dev fun v => { v with startupPrjNum := 0 }
  let tmpNextPrj := cInt (← load dev).brdInfoList.pciedevProjNext
  discover (pciedevFillPrjInfo dev) dev fuel tmpNextPrj
  pure (← load dev).startupPrjNum

/-- The module record a header at `baradress` is read into, in the order of the source;
`moduleNum` is the counter after its increment. -/
def readModuleInfo (dev : Entry) (baradress : IoAddr) (moduleNum : ℤ) : Kernel ShapiModuleInfo := do
  let shapiVersion ← ioread .w32 (baradress.add wordModuleShapiVersion)
  let shapiModuleFwIds ← ioread .w32 (baradress.add wordModuleIds)
  let shapiModuleVersion ← ioread .w32 (baradress.add wordModuleVersion)
  let shapiModuleCap ← ioread .w32 (baradress.add wordModuleCap)
  let shapiModuleStatus ← ioread .w32 (baradress.add wordModuleStatus)
  let shapiModuleControl ← ioread .w32 (baradress.add wordModuleControl)
  let shapiIrqId ← ioread .w32 (baradress.add wordModuleIrqId)
  store dev fun v => { v with deviceIrqNum := v.deviceIrqNum ||| shapiIrqId }
  let shapiIrqFlagClear ← ioread .w32 (baradress.add wordModuleIrqClear)
  let shapiIrqMask ← ioread .w32 (baradress.add wordModuleIrqMask)
  let shapiIrqFlag ← ioread .w32 (baradress.add wordModuleIrqFlag)
  let shapiIrqActive ← ioread .w32 (baradress.add wordModuleIrqActive)
  let name0 ← ioread .w32 (baradress.add wordModuleName)
  let name1 ← ioread .w32 (baradress.add (wordModuleName + 4))
  let shapiNextModuleAddress ← ioread .w32 (baradress.add wordNextModuleAddress)
  pure { shapiVersion := shapiVersion &&& 0xFFFF
         shapiNextModuleAddress, shapiModuleFwIds, shapiModuleVersion
         shapiModuleName := ![name0, name1]
         shapiModuleCap, shapiModuleStatus, shapiModuleControl, shapiIrqId, shapiIrqFlagClear
         shapiIrqMask, shapiIrqFlag, shapiIrqActive
         moduleName := nameWord name1 4 4 (nameWord name0 0 4 fun _ => 0)
         moduleNum }

def pciedevFillShapiModuleInfo (dev : Entry) (baradress : IoAddr) : Kernel ℤ := do
  let tmpData32 ← ioread .w32 baradress
  if tmpData32 >>> 16 = shapiMagicModuleNum then do
    store dev fun v => { v with shapiModuleNum := v.shapiModuleNum + 1 }
    if ← kzalloc .shapiModuleInfo then do
      let moduleNum := (← load dev).shapiModuleNum
      let m ← readModuleInfo dev baradress moduleNum
      store dev fun v => { v with moduleInfoList := m :: v.moduleInfoList }
      pure (cInt m.shapiNextModuleAddress)
    else fault .nullPointer
  else pure 0

def pciedevGetShapiModuleInfo (fuel : ℕ) (dev : Entry) : Kernel ℤ := do
  store dev fun v => { v with shapiModuleNum := 0 }
  let tmpNextPrj := cInt (← load dev).deviceInfoList.shapiFirstModuleAddress
  discover (pciedevFillShapiModuleInfo dev) dev fuel tmpNextPrj
  pure (← load dev).shapiModuleNum

/-- The values `pciedev_proc_show` prints, in order; the project identity is printed twice
per project and kept once here. -/
structure ProcShow where
  upciedevVer : UInt16 × UInt16
  drvVer : UInt16 × UInt16
  boardNum : ℤ
  slotNum : ℤ
  boardId : UInt32
  boardVersion : UInt32
  boardDate : UInt32
  boardHwVer : UInt32
  boardNextPrj : UInt32
  boardReserved : UInt32
  numberOfProj : ℤ
  projects : List PciedevPrjInfo
  deriving DecidableEq

def pciedevProcShow (parent : PciedevCdev) (v : PciedevDev) : ProcShow :=
  { upciedevVer := (parent.upciedevVerMaj, parent.upciedevVerMin)
    drvVer := (parent.pciedevDrvVerMaj, parent.pciedevDrvVerMin)
    boardNum := v.brdNum
    slotNum := v.slotNum
    boardId := v.brdInfoList.pciedevBoardId
    boardVersion := v.brdInfoList.pciedevBoardVersion
    boardDate := v.brdInfoList.pciedevBoardDate
    boardHwVer := v.brdInfoList.pciedevHwVersion
    boardNextPrj := v.brdInfoList.pciedevProjNext
    boardReserved := v.brdInfoList.pciedevBoardReserved
    numberOfProj := v.startupPrjNum
    projects := v.prjInfoList }

end Upciedev
