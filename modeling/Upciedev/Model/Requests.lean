import Upciedev.Model.Execute
import Upciedev.Model.Footprint

/-!
# Requests for register access

The two inline functions as one family, and `pciedev_read_exp` and `pciedev_write_exp`
as two instances of one function.
-/
namespace Upciedev

open Foundations Program

inductive Direction where
  | read
  | write
  deriving DecidableEq, Repr

namespace Direction

def inline : Direction → InlineCall → Kernel ℤ
  | read => pciedevReadInline
  | write => pciedevWriteInline

def registers : Direction → InlineCall → Kernel ℤ
  | read => readRegisters
  | write => writeRegisters

/-- The entry of the inline function in a trace. -/
def note : Direction → InlineCall → Note
  | read => .readInline
  | write => .writeInline

@[simp] theorem note_inj (dir : Direction) (c c' : InlineCall) :
    dir.note c = dir.note c' ↔ c = c' := by
  cases dir <;> simp [note]

theorem inline_eq (dir : Direction) (c : InlineCall) :
    dir.inline c = call (I := driverInterface) (.note (dir.note c)) fun _ => dir.registers c := by
  cases dir <;> rfl

theorem registers_only (dir : Direction) (c : InlineCall) :
    (dir.registers c).Only (RegisterOp c.dev) := by
  cases dir
  · exact readRegisters_only c
  · exact writeRegisters_only c

theorem inline_only (dir : Direction) (c : InlineCall) : (dir.inline c).Only (InlineOp c.dev) := by
  cases dir
  · exact pciedevReadInline_only c
  · exact pciedevWriteInline_only c

end Direction

/-- The direction that `transfer` chooses. -/
def DeviceIocRw.direction (rw : DeviceIocRw) : Direction :=
  if rw.rwAccessMode < mtcaSimpleWrite then .read else .write

/-- The call that `transfer` makes. -/
def DeviceIocRw.transferCall (rw : DeviceIocRw) (dev : Entry) (regSize : UInt16) : InlineCall :=
  rw.call dev regSize rw.rwAccessMode rw.dataPtr
    (if rw.rwAccessMode < mtcaSimpleWrite then 0 else rw.maskPtr)

theorem DeviceIocRw.direction_eq_read (rw : DeviceIocRw) :
    rw.direction = .read ↔ rw.rwAccessMode < mtcaSimpleWrite := by
  unfold direction
  split_ifs with hread <;> simp [hread]

theorem transfer_eq (dev : Entry) (regSize : UInt16) (rw : DeviceIocRw) :
    transfer dev regSize rw = rw.direction.inline (rw.transferCall dev regSize) := by
  unfold transfer DeviceIocRw.direction DeviceIocRw.transferCall
  split_ifs <;> rfl

/-- `CORRECT_REGISTER_SIZE` of a code, as a function of the entry. -/
def correctedSize (v : PciedevDev) (code : ℕ) : UInt16 :=
  if mtcaMaxRw ≤ (code : ℤ) then UInt16.ofInt v.registerSize else UInt16.ofNat code

/-- Both paths end with a corrected register size, one inline call and the end of the region. -/
def accessRegion (dir : Direction) (dev : Entry) (code : ℕ) (calls : UInt16 → InlineCall) :
    Kernel ℤ := do
  let regSize ← correctFrom dev code
  let _ ← dir.inline (calls regSize)
  let _ ← leaveCritRegion dev
  pure sizeofDeviceRw

/-- The body of the critical region of `pciedev_read_exp` and `pciedev_write_exp`, with the
answer to a request that cannot be copied. -/
def accessBody (dir : Direction) (accessMode : UInt16) (refused : ℤ) (dev : Entry)
    (buf count fPosPtr fPos : UInt64) : Kernel ℤ :=
  if fPos ≠ pciedFpos then
    accessRegion dir dev (posRegSize fPosPtr).toNat fun regSize =>
      { dev, registerSize := regSize, rwAccessMode := accessMode, bar := posBarx fPosPtr,
        offset := posOffset fPosPtr, userData := buf, userMask := 0, count := count.toNat }
  else do
    match ← copyFromUser .deviceRw buf with
    | none => pure refused
    | some (reading : DeviceRw) =>
      accessRegion dir dev reading.registerSize.toNat fun regSize =>
        { dev, registerSize := regSize, rwAccessMode := accessMode, bar := reading.barxRw,
          offset := reading.offsetRw, userData := buf + deviceRwDataOffset, userMask := 0,
          count := 1 }

/-- `pciedev_read_exp` and `pciedev_write_exp`, which differ in two error codes. -/
def accessExp (dir : Direction) (accessMode : UInt16) (dead refused : ℤ) (filp : File)
    (buf count fPosPtr fPos : UInt64) : Kernel ℤ := do
  let dev ← privateData filp
  if (← load dev).devSts = 0 then pure dead
  else withCritRegion dev (accessBody dir accessMode refused dev buf count fPosPtr fPos)

theorem pciedevReadExp_eq (filp : File) (buf count fPosPtr fPos : UInt64) :
     pciedevReadExp filp buf count fPosPtr fPos =
    accessExp .read mtcaSimpleRead eNoDev eIo filp buf count fPosPtr fPos := rfl

theorem pciedevWriteExp_eq (filp : File) (buf count fPosPtr fPos : UInt64) :
     pciedevWriteExp filp buf count fPosPtr fPos =
    accessExp .write mtcaSimpleWrite eFault eFault filp buf count fPosPtr fPos := rfl

end Upciedev
