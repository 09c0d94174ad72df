import Upciedev.Model.Kernel

/-!
# Register access (`read_write_inline.h`)

`Read_Write_Private` and the two loops that move registers between a BAR and user
memory. Local words are passed explicitly. An uninitialised one starts as the
answer of `uninit`, and a store through a narrow pointer keeps its upper bytes (the
low byte comes first in memory).
-/
namespace Upciedev

open Foundations Program

/-- What a pointer of the given width sees of a word. -/
def Width.low : Width → UInt32 → UInt32
  | w8, x => x &&& 0xff
  | w16, x => x &&& 0xffff
  | w32, x => x

/-- A word after a store through a pointer of the given width. -/
def Width.setLow : Width → UInt32 → UInt32 → UInt32
  | w8, old, new => (old &&& 0xffffff00) ||| (new &&& 0xff)
  | w16, old, new => (old &&& 0xffff0000) ||| (new &&& 0xffff)
  | w32, _, new => new

/-- The pointer width `Read_Write_Private` selects for a register-size code. -/
def Width.ofRegSize (regSize : UInt16) : Width :=
  if regSize = rwD08 then w8 else if regSize = rwD16 then w16 else w32

/-- The width of a user copy of 1, 2 or 4 bytes. -/
def Width.ofBytes (bytes : UInt32) : Width :=
  if bytes = 1 then w8 else if bytes = 2 then w16 else w32

/-- One of the three equal inner switches of `Read_Write_Private`. The words behind
`a_pValueKernel` and `a_pExtraR` are returned. -/
def accessRegister (w : Width) (accessMode : UInt16) (a : IoAddr) (value mask extra : UInt32) :
    Kernel (UInt32 × UInt32) :=
  if accessMode = mtcaSimpleWrite then do
    iowrite w a (w.low value)
    pure (value, extra)
  else if accessMode = mtcaSetBits then do
    let tmpDataMask := w.low mask
    let tmpData := w.low value &&& tmpDataMask
    let tmpDataPrev ← ioread w a
    iowrite w a (w.low (tmpData ||| (tmpDataPrev &&& ~~~tmpDataMask)))
    pure (value, extra)
  else if accessMode = mtcaSwapBits then do
    let tmpDataPrev ← ioread w a
    let tmpDataMask := w.low mask
    let tmpData := ~~~tmpDataPrev &&& tmpDataMask
    iowrite w a (w.low (tmpData ||| (tmpDataPrev &&& ~~~tmpDataMask)))
    pure (value, extra)
  else if accessMode = mtReadToExtraBuffer then do
    let r ← ioread w a
    pure (value, w.setLow extra r)
  else do
    let r ← ioread w a
    pure (w.setLow value r, extra)

def readWritePrivate (regSize accessMode : UInt16) (a : IoAddr) (value mask extra : UInt32) :
    Kernel (UInt32 × UInt32) := do
  note (.readWritePrivate regSize accessMode a)
  accessRegister (.ofRegSize regSize) accessMode a value mask extra

/-- All ones at the width of the device's own register size. -/
def deviceScrachTest (dev : Entry) : Kernel UInt32 := do
  if (← load dev).registerSize = 0 then pure 0xff
  else do
    if (← load dev).registerSize = 1 then pure 0xffff else pure 0xffffffff

/-- The body of `pciedev_check_scratch`: a mapped scratch register is read at the device's
own register size. -/
def readScratch (dev : Entry) : Kernel ℤ := do
  let base ← memmoryBase dev (← load dev).scratchBar
  let address : IoAddr := ⟨base, (← load dev).scratchOffset.toNat⟩
  let tested ← memmoryBase dev (← load dev).scratchBar
  if tested = none then pure 1
  else do
    let scrachTest ← deviceScrachTest dev
    let registerSize := (← load dev).registerSize
    let tmpDataForRw ← uninit
    let (tmpDataForRw, _) ←
      readWritePrivate (UInt16.ofInt registerSize) mtcaSimpleRead address tmpDataForRw 0 0
    if tmpDataForRw = scrachTest then pure 1 else pure 0

def pciedevCheckScratch (dev : Entry) : Kernel ℤ := do
  note .checkScratch
  let result ← readScratch dev
  note .scratchChecked
  pure result

/-- All ones at a register width, as the read loop compares it. -/
def scrachTestOf (unRegisterSize : UInt32) : UInt32 :=
  if unRegisterSize = 1 then 0xff else if unRegisterSize = 2 then 0xffff else 0xffffffff

/-- The counter of both loops is an `int` compared with a `size_t`: once it wraps to a
negative value the comparison fails, so no loop makes more than `2 ^ 31` rounds. -/
def loopRounds (count : ℕ) : ℕ := min count (2 ^ 31)

/-- The `for` loop of `pciedev_read_inline`; the three pointers handed to
`Read_Write_Private` are the same local word. -/
def readLoop (c : InlineCall) (unRegisterSize : UInt32) :
    ℕ → UInt64 → IoAddr → UInt32 → ℤ → Kernel ℤ
  | 0, _, _, _, retval => pure retval
  | n + 1, pcUserBuf, addressDev, tmpDataForRw, retval => do
    let (value, extra) ← readWritePrivate c.registerSize c.rwAccessMode addressDev
      tmpDataForRw tmpDataForRw tmpDataForRw
    let tmpDataForRw := if c.rwAccessMode = mtReadToExtraBuffer then extra else value
    let scrtchCheck ←
      (if tmpDataForRw = scrachTestOf unRegisterSize then pciedevCheckScratch c.dev else pure 0)
    if scrtchCheck ≠ 0 then pure eNoMem
    else do
      let tmpDataForRw :=
        if (← load c.dev).swap ≠ 0 then upciedevSwapTot unRegisterSize tmpDataForRw
        else tmpDataForRw
      let uncopied ←
        (if c.userData ≠ 0 then
          copyToUser (.data unRegisterSize) pcUserBuf
            ((Width.ofBytes unRegisterSize).low tmpDataForRw)
        else pure false)
      if uncopied then pure retval
      else
        readLoop c unRegisterSize n (pcUserBuf + unRegisterSize.toUInt64)
          (addressDev.add unRegisterSize.toNat) tmpDataForRw (retval + unRegisterSize.toNat)

/-- The part both inline functions share: the checks, the window arithmetic and the
bound on the number of registers. `none` stands for the early `-EFAULT`. -/
def openWindow (c : InlineCall) : Kernel (Option (UInt32 × ℕ × IoAddr)) := do
  let unRegisterSize := getRegisterSizeInBytes c.registerSize (← load c.dev).registerSize
  if (← memmoryBase c.dev c.bar) = none then pure none
  else if (← umod c.offset unRegisterSize) ≠ 0 then pure none
  else do
    let totalSizeRw := (← memBaseEnd c.dev c.bar) - (← memBase c.dev c.bar)
    let sizeAfterOffsetRw := if c.offset < totalSizeRw then totalSizeRw - c.offset else 0
    let cntAfterOffsetRw ← udiv sizeAfterOffsetRw unRegisterSize
    let base ← memmoryBase c.dev c.bar
    pure (some (unRegisterSize, min c.count cntAfterOffsetRw.toNat, ⟨base, c.offset.toNat⟩))

/-- The body of `pciedev_read_inline`. -/
def readRegisters (c : InlineCall) : Kernel ℤ := do
  match ← openWindow c with
  | none => pure eFault
  | some (unRegisterSize, count, addressDev) => do
    let tmpDataForRw ← uninit
    readLoop c unRegisterSize (loopRounds count) c.userData addressDev tmpDataForRw 0

def pciedevReadInline (c : InlineCall) : Kernel ℤ := do
  note (.readInline c)
  readRegisters c

/-- `ptr && copy_from_user(&word, ptr, n)`: nothing is copied through a null argument. -/
def copyWord (given : UInt64) (bytes : UInt32) (src : UInt64) (word : UInt32) :
    Kernel (Option UInt32) :=
  if given = 0 then pure (some word)
  else do
    let r ← copyFromUser (.data bytes) src
    pure (Option.map (fun v : UInt32 => (Width.ofBytes bytes).setLow word v) r)

/-- The `for` loop of `pciedev_write_inline`; `a_pExtraR` points to the mask word. -/
def writeLoop (c : InlineCall) (unRegisterSize : UInt32) :
    ℕ → UInt64 → UInt64 → IoAddr → UInt32 → UInt32 → ℤ → Kernel ℤ
  | 0, _, _, _, _, _, retval => pure retval
  | n + 1, pcUserData, pcUserMask, addressDev, tmpDataForRw, tmpMaskForW, retval => do
    match ← copyWord c.userData unRegisterSize pcUserData tmpDataForRw with
    | none => pure retval
    | some tmpDataForRw => do
      match ← copyWord c.userMask unRegisterSize pcUserMask tmpMaskForW with
      | none => pure retval
      | some tmpMaskForW => do
        let swap := (← load c.dev).swap
        let tmpDataForRw :=
          if swap ≠ 0 then upciedevSwapTot unRegisterSize tmpDataForRw else tmpDataForRw
        let tmpMaskForW :=
          if swap ≠ 0 then upciedevSwapTot unRegisterSize tmpMaskForW else tmpMaskForW
        let (tmpDataForRw, tmpMaskForW) ← readWritePrivate c.registerSize c.rwAccessMode
          addressDev tmpDataForRw tmpMaskForW tmpMaskForW
        writeLoop c unRegisterSize n (pcUserData + unRegisterSize.toUInt64)
          (pcUserMask + unRegisterSize.toUInt64) (addressDev.add unRegisterSize.toNat)
          tmpDataForRw tmpMaskForW (retval + unRegisterSize.toNat)

/-- The body of `pciedev_write_inline`. -/
def writeRegisters (c : InlineCall) : Kernel ℤ := do
  match ← openWindow c with
  | none => pure eFault
  | some (unRegisterSize, count, addressDev) => do
    let tmpDataForRw ← uninit
    writeLoop c unRegisterSize (loopRounds count) c.userData c.userMask addressDev
      tmpDataForRw 0xffffffff 0

def pciedevWriteInline (c : InlineCall) : Kernel ℤ := do
  note (.writeInline c)
  writeRegisters c

/-- `CORRECT_REGISTER_SIZE(code, dev->register_size)`, which reads the device only when
the code is out of range; the result is passed on as `u_int16_t`. -/
def correctFrom (dev : Entry) (code : ℕ) : Kernel UInt16 :=
  if mtcaMaxRw ≤ (code : ℤ) then do
    pure (UInt16.ofInt (← load dev).registerSize)
  else pure (UInt16.ofNat code)

end Upciedev
