import Upciedev.Model.ReadWriteInline

/-!
# The common ioctls (`pciedev_ioctl_exp.c`)

One definition per `case` of the switch, under the name of its command, and the
function that checks the request and dispatches. `return -ERESTARTSYS` stands where the
source tests the result of `EnterCritRegion`, also in the builds where it cannot fail.
-/
namespace Upciedev

open Foundations Program

/-- `if (EnterCritRegion(..)) return -ERESTARTSYS;` before the rest of a case. -/
def withCritRegion (dev : Entry) (body : Kernel ℤ) : Kernel ℤ := do
  if (← enterCritRegion dev) ≠ 0 then pure eRestartSys else body

/-- `LeaveCritRegion(..); return retval;`, whose own result the source drops. -/
def leaveWith (dev : Entry) (retval : ℤ) : Kernel ℤ := do
  let _ ← leaveCritRegion dev
  pure retval

/-- The end of every case that answers with a structure. -/
def answer (dev : Entry) (T : UserType) (arg : UInt64) (v : T.Val) : Kernel ℤ := do
  if ← copyToUser T arg v then leaveWith dev eFault else leaveWith dev 0

/-- The local `device_ioctrl_data data`, whose initial content is whatever the stack holds. -/
def uninitIoctrlData : Kernel DeviceIoctrlData := do
  let offset ← uninit
  let data ← uninit
  let cmd ← uninit
  let reserved ← uninit
  pure { offset, data, cmd, reserved }

def ioctlPhysicalSlot (dev : Entry) (arg : UInt64) : Kernel ℤ :=
  withCritRegion dev do
    match ← copyFromUser .deviceIoctrlData arg with
    | none => leaveWith dev eFault
    | some (data : DeviceIoctrlData) => do
      let slotNum := (← load dev).slotNum
      answer dev .deviceIoctrlData arg
        { data with data := UInt32.ofInt slotNum, cmd := IoctlCmd.physicalSlot.code }

def ioctlDriverVersion (dev : Entry) (arg : UInt64) : Kernel ℤ :=
  withCritRegion dev do
    let data ← uninitIoctrlData
    let maj := (← cdev).pciedevDrvVerMaj
    let min := (← cdev).pciedevDrvVerMin
    answer dev .deviceIoctrlData arg { data with data := maj.toUInt32, offset := min.toUInt32 }

def ioctlUdriverVersion (dev : Entry) (arg : UInt64) : Kernel ℤ :=
  withCritRegion dev do
    let data ← uninitIoctrlData
    let maj := (← cdev).upciedevVerMaj
    let min := (← cdev).upciedevVerMin
    answer dev .deviceIoctrlData arg { data with data := maj.toUInt32, offset := min.toUInt32 }

def ioctlFirmwareVersion (dev : Entry) (arg : UInt64) : Kernel ℤ :=
  withCritRegion dev do
    let data ← uninitIoctrlData
    let version := (← load dev).brdInfoList.pciedevBoardVersion
    answer dev .deviceIoctrlData arg { data with data := version }

def ioctlGetStatus (dev : Entry) (arg : UInt64) : Kernel ℤ :=
  withCritRegion dev do
    let data ← uninitIoctrlData
    let devSts := (← load dev).devSts
    answer dev .deviceIoctrlData arg { data with data := UInt32.ofInt devSts }

/-- Command 2 of `PCIEDEV_SCRATCH_REG`: the switch over `register_size` has no default. -/
def readScratchReg (dev : Entry) (base : IoPtr) (data : DeviceIoctrlData) :
    Kernel DeviceIoctrlData := do
  let registerSize := (← load dev).registerSize
  if registerSize = 0 then do
    let v ← ioread .w8 ⟨base, (← load dev).scratchOffset.toNat⟩
    pure { data with data := Width.w8.low v }
  else if registerSize = 1 then do
    let v ← ioread .w16 ⟨base, (← load dev).scratchOffset.toNat⟩
    pure { data with data := Width.w16.low v }
  else if registerSize = 2 then do
    let v ← ioread .w32 ⟨base, (← load dev).scratchOffset.toNat⟩
    pure { data with data := v }
  else pure data

/-- `pciedev_get_baraddress`; the bar number arrives as `int`. -/
def pciedevGetBaraddress (brNum : UInt32) (dev : Entry) : Kernel IoPtr := memmoryBase dev brNum

def ioctlScratchReg (dev : Entry) (arg : UInt64) : Kernel ℤ :=
  withCritRegion dev do
    match ← copyFromUser .deviceIoctrlData arg with
    | none => leaveWith dev eFault
    | some (data : DeviceIoctrlData) => do
      let tmpCmd := data.cmd
      if tmpCmd = 1 then do
        let scratchBar := (← load dev).scratchBar
        let scratchOffset := (← load dev).scratchOffset
        answer dev .deviceIoctrlData arg { data with data := scratchBar, offset := scratchOffset }
      else if tmpCmd = 0 then do
        store dev fun v => { v with scratchBar := data.data }
        store dev fun v => { v with scratchOffset := data.offset }
        answer dev .deviceIoctrlData arg data
      else if tmpCmd = 2 then do
        let address ← pciedevGetBaraddress (← load dev).scratchBar dev
        if address = none then leaveWith dev eFault
        else do
          let data ← readScratchReg dev address data
          answer dev .deviceIoctrlData arg data
      else answer dev .deviceIoctrlData arg data

def ioctlSetSwap (dev : Entry) (arg : UInt64) : Kernel ℤ :=
  withCritRegion dev do
    match ← copyFromUser .int arg with
    | none => leaveWith dev eFault
    | some (nUserValue : UInt32) => do
      store dev fun v => { v with swap := if nUserValue ≠ 0 then 1 else 0 }
      leaveWith dev 0

def ioctlGetSwap (dev : Entry) : Kernel ℤ := do pure (← load dev).swap

def ioctlLockDevice (dev : Entry) : Kernel ℤ := longLockOfCriticalRegion dev

def ioctlUnlockDevice (dev : Entry) : Kernel ℤ := unlockLongCritRegion dev

/-- The arguments a `device_ioc_rw` gives to one of the inline functions. -/
def DeviceIocRw.call (rw : DeviceIocRw) (dev : Entry) (regSize accessMode : UInt16)
    (userData userMask : UInt64) : InlineCall :=
  { dev, registerSize := regSize, rwAccessMode := accessMode, bar := rw.barxRw,
    offset := rw.offsetRw, userData, userMask, count := rw.countRw.toNat }

def ioctlSetBits (dev : Entry) (arg : UInt64) : Kernel ℤ :=
  withCritRegion dev do
    match ← copyFromUser .deviceIocRw arg with
    | none => leaveWith dev eFault
    | some (rw : DeviceIocRw) => do
      let regSize ← correctFrom dev rw.registerSize.toNat
      let retval ← pciedevWriteInline (rw.call dev regSize mtcaSetBits rw.dataPtr rw.maskPtr)
      leaveWith dev (wrapInt retval)

def ioctlSwapBits (dev : Entry) (arg : UInt64) : Kernel ℤ :=
  withCritRegion dev do
    match ← copyFromUser .deviceIocRw arg with
    | none => leaveWith dev eFault
    | some (rw : DeviceIocRw) => do
      let regSize ← correctFrom dev rw.registerSize.toNat
      let retval ← pciedevWriteInline (rw.call dev regSize mtcaSwapBits 0 rw.maskPtr)
      leaveWith dev (wrapInt retval)

/-- The only case that copies and corrects its request before it enters the region. -/
def ioctlLockedRead (dev : Entry) (arg : UInt64) : Kernel ℤ := do
  match ← copyFromUser .deviceIocRw arg with
  | none => pure eFault
  | some (rw : DeviceIocRw) => do
    let regSize ← correctFrom dev rw.registerSize.toNat
    withCritRegion dev do
      let retval ← pciedevReadInline (rw.call dev regSize mtcaLockedRead rw.dataPtr 0)
      leaveWith dev (wrapInt retval)

/-- `rw_access_mode < MTCA_SIMPLE_WRITE` selects the read function. -/
def transfer (dev : Entry) (regSize : UInt16) (rw : DeviceIocRw) : Kernel ℤ :=
  if rw.rwAccessMode < mtcaSimpleWrite then
    pciedevReadInline (rw.call dev regSize rw.rwAccessMode rw.dataPtr 0)
  else
    pciedevWriteInline (rw.call dev regSize rw.rwAccessMode rw.dataPtr rw.maskPtr)

/-- The descriptor loop of `PCIEDEV_VECTOR_RW`; it ends at the first descriptor that
cannot be copied, and `retval` is an `int`. -/
def vectorLoop (dev : Entry) : ℕ → UInt64 → ℤ → Kernel ℤ
  | 0, _, retval => pure retval
  | n + 1, pUserRWdata, retval => do
    match ← copyFromUser .deviceIocRw pUserRWdata with
    | none => pure retval
    | some (rw : DeviceIocRw) => do
      let regSize ← correctFrom dev rw.registerSize.toNat
      let moved ← transfer dev regSize rw
      vectorLoop dev n (pUserRWdata + 32) (wrapInt (retval + moved))

def ioctlVectorRw (dev : Entry) (arg : UInt64) : Kernel ℤ := do
  match ← copyFromUser .deviceVectorRw arg with
  | none => pure eFault
  | some (vector : DeviceVectorRw) => do
    let nMaxNumRW := cInt vector.numberOfRw.toUInt32
    withCritRegion dev do
      let retval ← vectorLoop dev nMaxNumRW.toNat vector.deviceIocRwPtr 0
      leaveWith dev retval

def ioctlGetRegisterSize (dev : Entry) : Kernel ℤ := do pure (← load dev).registerSize

def ioctlSetRegisterSize (dev : Entry) (arg : UInt64) : Kernel ℤ := do
  match ← copyFromUser .int arg with
  | none => pure eFault
  | some (nUserValue : UInt32) => do
    store dev fun v => { v with registerSize := correctRegisterSize (cInt nUserValue) 2 }
    pure 0

/-- `PCIEDEV_SINGLE_IOC_ACCESS` once the request is copied: the region is entered again
for locked reads and for writes, and not left at the end of the case. -/
def singleIocTransfer (dev : Entry) (regSize : UInt16) (rw : DeviceIocRw) : Kernel ℤ :=
  if rw.rwAccessMode < mtcaSimpleWrite then
    if rw.rwAccessMode = mtcaLockedRead then
      withCritRegion dev do
        let retval ← pciedevReadInline (rw.call dev regSize rw.rwAccessMode rw.dataPtr 0)
        leaveWith dev (wrapInt retval)
    else do
      let retval ← pciedevReadInline (rw.call dev regSize rw.rwAccessMode rw.dataPtr 0)
      pure (wrapInt retval)
  else
    withCritRegion dev do
      let retval ←
        pciedevWriteInline (rw.call dev regSize rw.rwAccessMode rw.dataPtr rw.maskPtr)
      leaveWith dev (wrapInt retval)

def ioctlSingleIocAccess (dev : Entry) (arg : UInt64) : Kernel ℤ :=
  withCritRegion dev do
    match ← copyFromUser .deviceIocRw arg with
    | none => leaveWith dev eFault
    | some (rw : DeviceIocRw) => do
      let regSize ← correctFrom dev rw.registerSize.toNat
      singleIocTransfer dev regSize rw

/-- The fields of `PCIEDEV_GET_SHAPI_DEVINFO`, assigned as in the source (`SHAPI_HW_IDS`
from `SHAPI_FW_IDS`). The source reads them one after the other; here they come from
one snapshot of the entry. -/
def shapiDevInfo (v : PciedevDev) (padding : BitVec 24) : PicmgShapiDeviceInfo :=
  { shapiVersion := v.deviceInfoList.shapiVersion
    shapiFirstModuleAddress := v.deviceInfoList.shapiFirstModuleAddress
    shapiHwIds := v.deviceInfoList.shapiFwIds
    shapiFwIds := v.deviceInfoList.shapiFwIds
    shapiFwVersion := v.deviceInfoList.shapiFwVersion
    shapiFwTimestamp := v.deviceInfoList.shapiFwTimestamp
    shapiFwName := v.deviceInfoList.shapiFwName
    shapiDeviceCap := v.deviceInfoList.shapiDeviceCap
    shapiDeviceStatus := v.deviceInfoList.shapiDeviceStatus
    shapiDeviceControl := v.deviceInfoList.shapiDeviceControl
    shapiIrqMask := v.deviceInfoList.shapiIrqMask
    shapiIrqFlag := v.deviceInfoList.shapiIrqFlag
    shapiIrqActive := v.deviceInfoList.shapiIrqActive
    shapiScratchRegister := v.deviceInfoList.shapiScratchRegister
    fwName := strncpy v.deviceInfoList.fwName
    padding
    numberOfModules := v.shapiModuleNum }

def ioctlGetShapiDevinfo (dev : Entry) (arg : UInt64) : Kernel ℤ :=
  withCritRegion dev do
    let padding ← uninit
    let v ← load dev
    answer dev .picmgShapiDeviceInfo arg (shapiDevInfo v (BitVec.ofNat 24 padding.toNat))

/-- The caller's structure after a list node with the requested number was found. -/
def ShapiModuleInfo.fill (m : ShapiModuleInfo) (info : PicmgShapiModuleInfo) :
    PicmgShapiModuleInfo :=
  { info with
    shapiVersion := m.shapiVersion
    shapiNextModuleAddress := m.shapiNextModuleAddress
    shapiModuleFwIds := m.shapiModuleFwIds
    shapiModuleVersion := m.shapiModuleVersion
    shapiModuleName := m.shapiModuleName
    shapiModuleCap := m.shapiModuleCap
    shapiModuleStatus := m.shapiModuleStatus
    shapiModuleControl := m.shapiModuleControl
    shapiIrqId := m.shapiIrqId
    shapiIrqFlagClear := m.shapiIrqFlagClear
    shapiIrqMask := m.shapiIrqMask
    shapiIrqFlag := m.shapiIrqFlag
    shapiIrqActive := m.shapiIrqActive
    moduleName := strncpy m.moduleName }

/-- `list_for_each` over the modules, without a `break`: a later match overwrites an
earlier one. -/
def shapiModInfo (modules : List ShapiModuleInfo) (info : PicmgShapiModuleInfo) :
    PicmgShapiModuleInfo :=
  modules.foldl (fun acc m => if m.moduleNum = info.moduleNum then m.fill acc else acc) info

def ioctlGetShapiModinfo (dev : Entry) (arg : UInt64) : Kernel ℤ :=
  withCritRegion dev do
    match ← copyFromUser .picmgShapiModuleInfo arg with
    | none => leaveWith dev eFault
    | some (info : PicmgShapiModuleInfo) => do
      let v ← load dev
      answer dev .picmgShapiModuleInfo arg (shapiModInfo v.moduleInfoList info)

/-- `access_ok` on the argument, for the commands whose direction bits ask for it. -/
def accessError (cmd : UInt32) (arg : UInt64) : Kernel Bool :=
  if iocDir cmd ≠ 0 then do
    let ok ← kernel (.accessOk arg (iocSize cmd))
    pure (Bool.not ok)
  else pure false

def ioctlCase (dev : Entry) (arg : UInt64) : IoctlCmd → Kernel ℤ
  | .physicalSlot => ioctlPhysicalSlot dev arg
  | .driverVersion => ioctlDriverVersion dev arg
  | .udriverVersion => ioctlUdriverVersion dev arg
  | .firmwareVersion => ioctlFirmwareVersion dev arg
  | .getStatus => ioctlGetStatus dev arg
  | .scratchReg => ioctlScratchReg dev arg
  | .setSwap => ioctlSetSwap dev arg
  | .getSwap => ioctlGetSwap dev
  | .lockDevice => ioctlLockDevice dev
  | .unlockDevice => ioctlUnlockDevice dev
  | .setBits => ioctlSetBits dev arg
  | .swapBits => ioctlSwapBits dev arg
  | .lockedRead => ioctlLockedRead dev arg
  | .vectorRw => ioctlVectorRw dev arg
  | .getRegisterSize => ioctlGetRegisterSize dev
  | .setRegisterSize => ioctlSetRegisterSize dev arg
  | .singleIocAccess => ioctlSingleIocAccess dev arg
  | .getShapiDevinfo => ioctlGetShapiDevinfo dev arg
  | .getShapiModinfo => ioctlGetShapiModinfo dev arg

def pciedevIoctlExp (filp : File) (cmd : UInt32) (arg : UInt64) : Kernel ℤ := do
  let dev ← privateData filp
  if (← load dev).devSts = 0 then pure eFault
  else do
    let err ← accessError cmd arg
    if err then pure eFault
    else
      match IoctlCmd.decode cmd with
      | none => pure eNoTty
      | some c => ioctlCase dev arg c

end Upciedev
