import Upciedev.Discovery.Answers
import Upciedev.Discovery.ChainWalk
import Upciedev.Discovery.Names

/-!
# The lists of modules and projects

What the two discovery functions collect from a well-formed chain, and what a client reads
back of the modules by their number.
-/
namespace Upciedev

open Foundations Program

variable {ε : Type} {E : Environment ε} {base : IoPtr} {regs : ℤ → UInt32} {dev : Entry}

section
variable (regs)

/-- The record of the module whose header is at `a`. -/
def shapiModuleAt (a : ℤ) (moduleNum : ℤ) : ShapiModuleInfo :=
  { shapiVersion := regs (a + 0x00) &&& 0xFFFF
    shapiNextModuleAddress := regs (a + 0x04)
    shapiModuleFwIds := regs (a + 0x08)
    shapiModuleVersion := regs (a + 0x0C)
    shapiModuleName := ![regs (a + 0x10), regs (a + 0x14)]
    shapiModuleCap := regs (a + 0x18)
    shapiModuleStatus := regs (a + 0x1C)
    shapiModuleControl := regs (a + 0x20)
    shapiIrqId := regs (a + 0x24)
    shapiIrqFlagClear := regs (a + 0x28)
    shapiIrqMask := regs (a + 0x2C)
    shapiIrqFlag := regs (a + 0x30)
    shapiIrqActive := regs (a + 0x34)
    moduleName := nameWord (regs (a + 0x14)) 4 4 (nameWord (regs (a + 0x10)) 0 4 fun _ => 0)
    moduleNum }

def IsModule (a : ℤ) : Prop := regs a >>> 16 = shapiMagicModuleNum

def nextModule (a : ℤ) : UInt32 := regs (a + 0x04)

def addModule (a : ℤ) (v : PciedevDev) : PciedevDev :=
  { v with
    shapiModuleNum := v.shapiModuleNum + 1
    deviceIrqNum := v.deviceIrqNum ||| regs (a + 0x24)
    moduleInfoList := shapiModuleAt regs a (v.shapiModuleNum + 1) :: v.moduleInfoList }

def moduleRecords : ℤ → List UInt32 → List ShapiModuleInfo
  | _, [] => []
  | k, a :: l => shapiModuleAt regs a.toNat k :: moduleRecords (k + 1) l

end

variable (dev) in
theorem fillShapiModuleInfo_fills (hE : Registers E base regs) :
    Fills (IsModule regs) (nextModule regs) E dev base (pciedevFillShapiModuleInfo dev)
      (addModule regs) where
  header off h w := by
    have hmagic : regs off >>> 16 = shapiMagicModuleNum := h
    simp only [pciedevFillShapiModuleInfo, perform_eq, call_bind, ret_bind]
    apply hE.read
    intro e
    rw [if_pos hmagic, twp_store]
    apply hE.allocate
    intro e
    simp only [if_true, twp_load, readModuleInfo, perform_eq, call_bind, ret_bind]
    iterate 7 refine hE.read fun _ => ?_
    rw [twp_store]
    iterate 6 refine hE.read fun _ => ?_
    apply hE.read
    intro e
    simp only [pure_eq, ret_bind, twp_store, twp_ret]
    refine ⟨rfl, e, ?_⟩
    simp only [World.updateDev_withEnv, World.withEnv_withEnv, World.updateDev_updateDev,
      World.withEnv_pciedevDevM, World.updateDev_self]
    rfl
  other off h w := by
    have hmagic : regs off >>> 16 ≠ shapiMagicModuleNum := h
    simp only [pciedevFillShapiModuleInfo, perform_eq, call_bind, ret_bind]
    apply hE.read
    intro e
    rw [if_neg hmagic]
    exact ⟨rfl, e, rfl⟩

section
variable (regs) (l : List UInt32) (v : PciedevDev)

end

/-- What a request for the module whose header is at `a` is answered with: its registers, and its
name up to the first blank or zero. -/
def moduleReply (regs : ℤ → UInt32) (a : ℤ) (info : PicmgShapiModuleInfo) : PicmgShapiModuleInfo :=
  { shapiVersion := regs (a + 0x00) &&& 0xFFFF
    shapiNextModuleAddress := regs (a + 0x04)
    shapiModuleFwIds := regs (a + 0x08)
    shapiModuleVersion := regs (a + 0x0C)
    shapiModuleName := ![regs (a + 0x10), regs (a + 0x14)]
    shapiModuleCap := regs (a + 0x18)
    shapiModuleStatus := regs (a + 0x1C)
    shapiModuleControl := regs (a + 0x20)
    shapiIrqId := regs (a + 0x24)
    shapiIrqFlagClear := regs (a + 0x28)
    shapiIrqMask := regs (a + 0x2C)
    shapiIrqFlag := regs (a + 0x30)
    shapiIrqActive := regs (a + 0x34)
    moduleName := decodedName [regs (a + 0x10), regs (a + 0x14)]
    padding := info.padding
    moduleNum := info.moduleNum }

theorem fill_shapiModuleAt (regs : ℤ → UInt32) (a k : ℤ) (info : PicmgShapiModuleInfo) :
    (shapiModuleAt regs a k).fill info = moduleReply regs a info := by
  have hname : strncpy (shapiModuleAt regs a k).moduleName =
      decodedName [regs (a + 0x10), regs (a + 0x14)] :=
    strncpy_nameWords [regs (a + 0x10), regs (a + 0x14)] (fun _ => 0) rfl
  rw [ShapiModuleInfo.fill, hname]
  rfl

/-- The answer to a request for a module by its number: the module at that place of the chain, or
the request itself. -/
def modInfoReply (regs : ℤ → UInt32) (l : List UInt32) (info : PicmgShapiModuleInfo) :
    PicmgShapiModuleInfo :=
  if 1 ≤ info.moduleNum ∧ info.moduleNum ≤ l.length then
    moduleReply regs (l.getD (info.moduleNum - 1).toNat 0).toNat info
  else info

/-- The search over a list of numbered records, newest first, finds the one with the number. -/
theorem foldl_moduleRecords (regs : ℤ → UInt32) (l : List UInt32) (k : ℤ)
    (info : PicmgShapiModuleInfo) :
    shapiModInfo (moduleRecords regs k l).reverse info =
      if k ≤ info.moduleNum ∧ info.moduleNum < k + l.length then
        (shapiModuleAt regs (l.getD (info.moduleNum - k).toNat 0).toNat info.moduleNum).fill info
      else info := by
  induction l generalizing k with
  | nil =>
    rw [if_neg (by simp)]
    rfl
  | cons a l ih =>
    have hrest := ih (k + 1)
    unfold shapiModInfo at hrest ⊢
    rw [moduleRecords, List.reverse_cons, List.foldl_append, hrest]
    rw [List.foldl_cons, List.foldl_nil]
    by_cases hfirst : k = info.moduleNum
    · subst hfirst
      have hnone : ¬ (info.moduleNum + 1 ≤ info.moduleNum ∧
          info.moduleNum < info.moduleNum + 1 + l.length) := by omega
      have hthis : info.moduleNum ≤ info.moduleNum ∧
          info.moduleNum < info.moduleNum + (a :: l).length := by simp
      have hnum : (shapiModuleAt regs a.toNat info.moduleNum).moduleNum = info.moduleNum := rfl
      rw [if_pos hnum, if_neg hnone, if_pos hthis]
      simp
    · have hother : (shapiModuleAt regs a.toNat k).moduleNum ≠ info.moduleNum := hfirst
      rw [if_neg hother]
      by_cases hlater : k + 1 ≤ info.moduleNum ∧ info.moduleNum < k + 1 + l.length
      · have hin : k ≤ info.moduleNum ∧ info.moduleNum < k + (a :: l).length := by
          simp only [List.length_cons]
          omega
        have hindex : (info.moduleNum - k).toNat = (info.moduleNum - (k + 1)).toNat + 1 := by omega
        rw [if_pos hlater, if_pos hin, hindex, List.getD_cons_succ]
      · have hout : ¬ (k ≤ info.moduleNum ∧ info.moduleNum < k + (a :: l).length) := by
          simp only [List.length_cons]
          omega
        rw [if_neg hlater, if_neg hout]

theorem shapiModInfo_moduleRecords (regs : ℤ → UInt32) (l : List UInt32)
    (info : PicmgShapiModuleInfo) :
    shapiModInfo (moduleRecords regs 1 l).reverse info = modInfoReply regs l info := by
  rw [foldl_moduleRecords, modInfoReply, fill_shapiModuleAt]
  congr 1
  rw [eq_iff_iff]
  omega

section
variable (regs)

/-- The record of the project whose header is at `a`. -/
def pciedevPrjAt (a : ℤ) : PciedevPrjInfo :=
  { pciedevProjId := regs (a + 0x04)
    pciedevProjVersion := regs (a + 0x08)
    pciedevProjDate := regs (a + 0x0C)
    pciedevProjReserved := regs (a + 0x10)
    pciedevProjNext := regs (a + 0x18) }

def IsProject (a : ℤ) : Prop := regs a = asciiProjMagicNum

def nextProject (a : ℤ) : UInt32 := regs (a + 0x18)

def addProject (a : ℤ) (v : PciedevDev) : PciedevDev :=
  { v with
    startupPrjNum := v.startupPrjNum + 1
    brdInfoList := { v.brdInfoList with pciedevProjNext := 0 }
    prjInfoList := pciedevPrjAt regs a :: v.prjInfoList }

end

variable (dev) in
theorem fillPrjInfo_fills (hE : Registers E base regs) :
    Fills (IsProject regs) (nextProject regs) E dev base (pciedevFillPrjInfo dev)
      (addProject regs) where
  header off h w := by
    have hmagic : regs off = asciiProjMagicNum := h
    simp only [pciedevFillPrjInfo, perform_eq, call_bind, ret_bind]
    apply hE.read
    intro e
    rw [if_pos hmagic, twp_store]
    apply hE.allocate
    intro e
    simp only [if_true, readPrjInfo, perform_eq, call_bind, ret_bind]
    iterate 4 refine hE.read fun _ => ?_
    apply hE.read
    intro e
    simp only [pure_eq, ret_bind, twp_store, twp_ret]
    refine ⟨rfl, e, ?_⟩
    simp only [World.updateDev_withEnv, World.withEnv_withEnv, World.updateDev_updateDev]
    rfl
  other off h w := by
    have hmagic : regs off ≠ asciiProjMagicNum := h
    simp only [pciedevFillPrjInfo, perform_eq, call_bind, ret_bind]
    apply hE.read
    intro e
    rw [if_neg hmagic]
    exact ⟨rfl, e, rfl⟩

section
variable (regs) (l : List UInt32) (v : PciedevDev)

end

section
variable {w : World ε} {a₁ : UInt32} {l : List UInt32} {fuel : ℕ}

end

/-- A board with the modules `AB` at 0x100 and `C` at 0x200, and a project at 0x300. -/
def twoModules : Outcome :=
  { register := fun off =>
      if off = 0x100 ∨ off = 0x200 then 0x534D0001 else if off = 0x104 then 0x200
      else if off = 0x110 then 0x41422000 else if off = 0x210 then 0x43000000
      else if off = 0x124 then 1 else if off = 0x224 then 2
      else if off = 0x300 then asciiProjMagicNum else 0 }

end Upciedev
