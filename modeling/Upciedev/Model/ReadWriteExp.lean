import Upciedev.Model.ReadWriteInline

/-!
# read, write and llseek (`pciedev_rw_exp.c`)

A position other than the marker `PCIED_FPOS` selects the positional path. Both the
address of the position variable and the position stored there are arguments, because
the source converts the former (`(u_int64_t)f_pos`) and compares the latter.
-/
namespace Upciedev

open Foundations Program

/-- `sizeof(device_rw)`, the success value of read and write. -/
def sizeofDeviceRw : ℤ := 24

def posRegSize (llnPos : UInt64) : UInt32 :=
  ((llnPos &&& prwRegSizeMask) >>> prwRegSizeShift).toUInt32

def posBarx (llnPos : UInt64) : UInt32 := ((llnPos &&& prwBarMask) >>> prwBarShift).toUInt32

def posOffset (llnPos : UInt64) : UInt32 := (llnPos &&& prwOffsetMask).toUInt32

def pciedevReadExp (filp : File) (buf : UInt64) (count : UInt64) (fPosPtr fPos : UInt64) :
    Kernel ℤ := do
  let dev ← privateData filp
  if (← load dev).devSts = 0 then pure eNoDev
  else if (← enterCritRegion dev) ≠ 0 then pure eRestartSys
  else if fPos ≠ pciedFpos then do
    let llnPos := fPosPtr
    let regSize ← correctFrom dev (posRegSize llnPos).toNat
    let _ ← pciedevReadInline
      { dev, registerSize := regSize, rwAccessMode := mtcaSimpleRead, bar := posBarx llnPos,
        offset := posOffset llnPos, userData := buf, userMask := 0, count := count.toNat }
    let _ ← leaveCritRegion dev
    pure sizeofDeviceRw
  else do
    match ← copyFromUser .deviceRw buf with
    | none => pure eIo
    | some (reading : DeviceRw) => do
      let regSize ← correctFrom dev reading.registerSize.toNat
      let _ ← pciedevReadInline
        { dev, registerSize := regSize, rwAccessMode := mtcaSimpleRead, bar := reading.barxRw,
          offset := reading.offsetRw, userData := buf + deviceRwDataOffset, userMask := 0,
          count := 1 }
      let _ ← leaveCritRegion dev
      pure sizeofDeviceRw

def pciedevWriteExp (filp : File) (buf : UInt64) (count : UInt64) (fPosPtr fPos : UInt64) :
    Kernel ℤ := do
  let dev ← privateData filp
  if (← load dev).devSts = 0 then pure eFault
  else if (← enterCritRegion dev) ≠ 0 then pure eRestartSys
  else if fPos ≠ pciedFpos then do
    let llnPos := fPosPtr
    let regSize ← correctFrom dev (posRegSize llnPos).toNat
    let _ ← pciedevWriteInline
      { dev, registerSize := regSize, rwAccessMode := mtcaSimpleWrite, bar := posBarx llnPos,
        offset := posOffset llnPos, userData := buf, userMask := 0, count := count.toNat }
    let _ ← leaveCritRegion dev
    pure sizeofDeviceRw
  else do
    match ← copyFromUser .deviceRw buf with
    | none => pure eFault
    | some (reading : DeviceRw) => do
      let regSize ← correctFrom dev reading.registerSize.toNat
      let _ ← pciedevWriteInline
        { dev, registerSize := regSize, rwAccessMode := mtcaSimpleWrite, bar := reading.barxRw,
          offset := reading.offsetRw, userData := buf + deviceRwDataOffset, userMask := 0,
          count := 1 }
      let _ ← leaveCritRegion dev
      pure sizeofDeviceRw

def pciedevLlseek (filp : File) : Kernel ℤ := do
  let dev ← privateData filp
  setFPos filp pciedFpos
  if (← load dev).devSts = 0 then pure eFault else pure pciedFpos.toNat

end Upciedev
