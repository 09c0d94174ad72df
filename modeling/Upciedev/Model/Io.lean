import Mathlib.Tactic

/-!
# Client interface (`pciedev_io.h`)

Register-size and access-mode codes, the structures exchanged with user space
and the ioctl commands. Structures keep their fields in memory order; the
padding bytes the C layout inserts are fields of their own, since a copy to user
space copies them too.
-/
namespace Upciedev

/-- Conversion of a 32-bit word to the C type `int`. -/
def cInt (x : UInt32) : ℤ :=
  if x.toNat < 2 ^ 31 then x.toNat else (x.toNat : ℤ) - 2 ^ 32

/-- Truncation of a wider signed value to the C type `int`. -/
def wrapInt (z : ℤ) : ℤ := Int.bmod z (2 ^ 32)

theorem cInt_of_lt {x : UInt32} (h : x.toNat < 2 ^ 31) : cInt x = x.toNat := if_pos h

abbrev numberOfBars : ℕ := 6

abbrev rwD08 : UInt16 := 0
abbrev rwD16 : UInt16 := 1
abbrev rwD32 : UInt16 := 2
abbrev mtcaMaxRw : ℤ := 3

abbrev mtcaSimpleRead : UInt16 := 0
abbrev mtcaLockedRead : UInt16 := 1
abbrev mtReadToExtraBuffer : UInt16 := 2
abbrev mtcaSimpleWrite : UInt16 := 5
abbrev mtcaSetBits : UInt16 := 6
abbrev mtcaSwapBits : UInt16 := 7

def prwRegSizeMask : UInt64 := 0xf000000000000000
def prwBarMask : UInt64 := 0x0f00000000000000
def prwOffsetMask : UInt64 := 0x00ffffffffffffff
def prwRegSizeShift : UInt64 := 60
def prwBarShift : UInt64 := 56

abbrev eNoEnt : ℤ := -2
abbrev eIo : ℤ := -5
abbrev eAgain : ℤ := -11
abbrev eNoMem : ℤ := -12
abbrev eFault : ℤ := -14
abbrev eNoDev : ℤ := -19
abbrev eNoTty : ℤ := -25
abbrev eRestartSys : ℤ := -512

def upciedevSwapl (x : UInt32) : UInt32 :=
  ((x >>> 24) &&& (0x000000FF : UInt32)) ||| ((x >>> 8) &&& (0x0000FF00 : UInt32)) |||
    ((x <<< 8) &&& (0x00FF0000 : UInt32)) ||| ((x <<< 24) &&& (0xFF000000 : UInt32))

def upciedevSwaps (x : UInt32) : UInt32 :=
  ((x >>> 8) &&& (0x00FF : UInt32)) ||| ((x <<< 8) &&& (0xFF00 : UInt32))

def upciedevSwapTot (size x : UInt32) : UInt32 :=
  if size = 1 then x else if size = 2 then upciedevSwaps x else upciedevSwapl x

/-- `CORRECT_REGISTER_SIZE`: a code outside `0 .. MTCA_MAX_RW - 1` becomes the default. -/
def correctRegisterSize (rwMode defaultRwMode : ℤ) : ℤ :=
  if rwMode < 0 ∨ mtcaMaxRw ≤ rwMode then defaultRwMode else rwMode

/-- Register width in bytes; the first argument arrives as `int16_t`. -/
def getRegisterSizeInBytes (mode : UInt16) (defaultRwMode : ℤ) : UInt32 :=
  UInt32.ofNat (2 ^ (correctRegisterSize mode.toInt16.toInt defaultRwMode).toNat)

/-- `dataSize`/`dataPtr` of the C union is not read by the driver and left out. -/
structure DeviceRw where
  offsetRw : UInt32
  dataRw : UInt32
  registerSize : UInt32
  barxRw : UInt32
  deriving DecidableEq, Repr

structure DeviceIocRw where
  registerSize : UInt16
  rwAccessMode : UInt16
  barxRw : UInt32
  offsetRw : UInt32
  countRw : UInt32
  dataPtr : UInt64
  maskPtr : UInt64
  deriving DecidableEq, Repr

structure DeviceVectorRw where
  numberOfRw : UInt64
  deviceIocRwPtr : UInt64
  deriving DecidableEq, Repr

structure DeviceIoctrlData where
  offset : UInt32
  data : UInt32
  cmd : UInt32
  reserved : UInt32
  deriving DecidableEq, Repr

structure PicmgShapiDeviceInfo where
  shapiVersion : UInt32
  shapiFirstModuleAddress : UInt32
  shapiHwIds : UInt32
  shapiFwIds : UInt32
  shapiFwVersion : UInt32
  shapiFwTimestamp : UInt32
  shapiFwName : Fin 3 → UInt32
  shapiDeviceCap : UInt32
  shapiDeviceStatus : UInt32
  shapiDeviceControl : UInt32
  shapiIrqMask : UInt32
  shapiIrqFlag : UInt32
  shapiIrqActive : UInt32
  shapiScratchRegister : UInt32
  fwName : Fin 13 → UInt8
  padding : BitVec 24
  numberOfModules : ℤ
  deriving DecidableEq

structure PicmgShapiModuleInfo where
  shapiVersion : UInt32
  shapiNextModuleAddress : UInt32
  shapiModuleFwIds : UInt32
  shapiModuleVersion : UInt32
  shapiModuleName : Fin 2 → UInt32
  shapiModuleCap : UInt32
  shapiModuleStatus : UInt32
  shapiModuleControl : UInt32
  shapiIrqId : UInt32
  shapiIrqFlagClear : UInt32
  shapiIrqMask : UInt32
  shapiIrqFlag : UInt32
  shapiIrqActive : UInt32
  moduleName : Fin 9 → UInt8
  padding : BitVec 24
  moduleNum : ℤ
  deriving DecidableEq

/-- The C types that cross the user boundary. `data w` is the value of a register of
`w` bytes, in the low bytes of a word. -/
inductive UserType where
  | int
  | deviceRw
  | deviceIocRw
  | deviceVectorRw
  | deviceIoctrlData
  | picmgShapiDeviceInfo
  | picmgShapiModuleInfo
  | data (w : UInt32)
  deriving DecidableEq, Repr

@[reducible] def UserType.Val : UserType → Type
  | int => UInt32
  | deviceRw => DeviceRw
  | deviceIocRw => DeviceIocRw
  | deviceVectorRw => DeviceVectorRw
  | deviceIoctrlData => DeviceIoctrlData
  | picmgShapiDeviceInfo => PicmgShapiDeviceInfo
  | picmgShapiModuleInfo => PicmgShapiModuleInfo
  | data _ => UInt32

def UserType.size : UserType → ℕ
  | int => 4
  | deviceRw => 24
  | deviceIocRw => 32
  | deviceVectorRw => 16
  | deviceIoctrlData => 16
  | picmgShapiDeviceInfo => 84
  | picmgShapiModuleInfo => 72
  | data w => w.toNat

/-- Offset of `data_rw` in `device_rw`. -/
def deviceRwDataOffset : UInt64 := 4

/-- `strncpy` into a buffer of the source's length: the bytes before the first zero,
then zeros. -/
def strncpy {n : ℕ} (src : Fin n → UInt8) : Fin n → UInt8 :=
  fun i => if ∀ j, j ≤ i → src j ≠ 0 then src i else 0

/-- `_IOC`: direction, argument size, magic number and command number in one word. -/
def ioc (dir nr size : ℕ) : UInt32 :=
  UInt32.ofNat (dir * 2 ^ 30 + size * 2 ^ 16 + 0x30 * 2 ^ 8 + nr)

abbrev iowr (nr size : ℕ) : UInt32 := ioc 3 nr size
abbrev io (nr : ℕ) : UInt32 := ioc 0 nr 0

def iocDir (cmd : UInt32) : ℕ := cmd.toNat / 2 ^ 30
def iocSize (cmd : UInt32) : ℕ := cmd.toNat / 2 ^ 16 % 2 ^ 14

inductive IoctlCmd where
  | physicalSlot
  | driverVersion
  | udriverVersion
  | firmwareVersion
  | getStatus
  | scratchReg
  | setSwap
  | getSwap
  | lockDevice
  | unlockDevice
  | setBits
  | swapBits
  | lockedRead
  | vectorRw
  | getRegisterSize
  | setRegisterSize
  | singleIocAccess
  | getShapiDevinfo
  | getShapiModinfo
  deriving DecidableEq, Repr

namespace IoctlCmd

def code : IoctlCmd → UInt32
  | physicalSlot => iowr 60 4
  | driverVersion => iowr 61 4
  | firmwareVersion => iowr 62 4
  | scratchReg => iowr 63 4
  | getStatus => iowr 64 4
  | setSwap => iowr 65 4
  | setBits => iowr 66 32
  | swapBits => iowr 67 32
  | vectorRw => iowr 68 16
  | singleIocAccess => iowr 69 32
  | udriverVersion => iowr 78 4
  | getSwap => iowr 79 4
  | lockDevice => io 80
  | unlockDevice => io 81
  | lockedRead => iowr 82 32
  | setRegisterSize => iowr 83 4
  | getRegisterSize => io 84
  | getShapiDevinfo => iowr 85 4
  | getShapiModinfo => iowr 86 4

def all : List IoctlCmd :=
  [physicalSlot, driverVersion, udriverVersion, firmwareVersion, getStatus, scratchReg, setSwap,
    getSwap, lockDevice, unlockDevice, setBits, swapBits, lockedRead, vectorRw, getRegisterSize,
    setRegisterSize, singleIocAccess, getShapiDevinfo, getShapiModinfo]

/-- The `switch (cmd)`: the case label a command word matches, if any. -/
def decode (cmd : UInt32) : Option IoctlCmd := all.find? fun c => c.code = cmd

/-- The case labels are pairwise different, so each command reaches its own case. -/
theorem decode_code (c : IoctlCmd) : decode c.code = some c := by cases c <;> decide

theorem code_injective : Function.Injective code := fun c c' h =>
  Option.some.inj (by rw [← decode_code c, h, decode_code c'])

theorem code_of_decode {cmd : UInt32} {c : IoctlCmd} (h : decode cmd = some c) : c.code = cmd := by
  simpa using List.find?_some h

end IoctlCmd
end Upciedev
