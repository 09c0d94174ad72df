import Upciedev.Model.Kernel

/-!
# The universal driver itself (`upciedev_drv.c`)

Loading the driver clears the slot table through the exported pointer
`p_base_upciedev_dev`, which is the address of the static object of its own translation
unit. The fields of a BAR are written as one value.
-/
namespace Upciedev

open Foundations Program

def clearRowBars (slot : ℕ) : List Bar → Kernel Unit
  | [] => pure ()
  | k :: bars => do
    setBaseBar .upciedevDrv slot k.val {}
    clearRowBars slot bars

/-- The loop over the rows listed. -/
def clearRows : List ℕ → Kernel Unit
  | [] => pure ()
  | i :: slots => do
    setBaseRow .upciedevDrv i fun row => { row with devStst := 0 }
    setBaseRow .upciedevDrv i fun row => { row with slotBus := 0 }
    setBaseRow .upciedevDrv i fun row => { row with slotDevice := 0 }
    setBaseRow .upciedevDrv i fun row => { row with slotNum := 0 }
    clearRowBars i (List.finRange numberOfBars)
    clearRows slots

/-- The bound of the loop is `NUMBER_OF_SLOTS + 1`. -/
def pciedevInitModule : Kernel ℤ := do
  clearRows (List.range (numberOfSlots + 1))
  pure 0

end Upciedev
