import Upciedev.Model.Execute
import Upciedev.Model.Module

/-!
# What a probe leaves alone

Between the claim of a device and its registration a probe stores to its own entry only,
and there it leaves alone whether the entry is bound and live and which files are on it.
-/
namespace Upciedev

open Foundations Program

/-- An update of a board entry on the way from its claim to its registration. -/
def SetsUp (f : PciedevDev → PciedevDev) : Prop :=
  ∀ v, (f v).binded = v.binded ∧ (f v).devSts = v.devSts ∧ (f v).devFileList = v.devFileList

/-- Operations of the set-up of entry `b`. -/
def SetupOp (b : Entry) : Op → Prop
  | .store d f => d = b ∧ SetsUp f
  | .setPrivateData _ _ | .setFPos _ _ | .setCdev _ | .setDrvdata _ _ => False
  | _ => True

section
variable {G : Op → Prop} {fill : IoAddr → Kernel ℤ} {dev : Entry}

theorem followChain_only (hfuel : G (.fault .outOfFuel)) (hfill : ∀ a, (fill a).Only G)
    (baddress : IoAddr) (fuel : ℕ) (tmpNext : ℤ) :
    (followChain fill baddress fuel tmpNext).Only G := by
  induction fuel generalizing tmpNext with
  | zero => simp [followChain, fault, hfuel]
  | succ fuel ih =>
    exact (only_ite ..).mpr ⟨fun _ => trivial, fun _ => (hfill _).bind fun _ => ih _⟩

theorem refillStart_only (hfuel : G (.fault .outOfFuel)) (hfill : ∀ a, (fill a).Only G)
    (baddress : IoAddr) (fuel : ℕ) (tmpNext : ℤ) :
    (refillStart fill baddress fuel tmpNext).Only G := by
  induction fuel generalizing tmpNext with
  | zero => simp [refillStart, fault, hfuel]
  | succ fuel ih =>
    exact (only_ite ..).mpr ⟨fun _ => trivial, fun _ => (hfill _).bind fun _ => ih _⟩

/-- The discovery calls what its filling function calls, and reads the entry. -/
theorem discover_only (hfuel : G (.fault .outOfFuel)) (hload : G (.load dev))
    (hfill : ∀ a, (fill a).Only G) (fuel : ℕ) (tmpNext : ℤ) :
    (discover fill dev fuel tmpNext).Only G := by
  have hscan (bars : List Bar) : (scanBars fill dev fuel bars).Only G := by
    induction bars with
    | nil => trivial
    | cons i bars ih =>
      refine (only_call _ _).mpr ⟨hload, fun v => (only_ite ..).mpr ⟨fun _ => ih, fun _ => ?_⟩⟩
      exact (refillStart_only hfuel hfill _ _ _).bind fun _ => ih
  refine (only_ite ..).mpr ⟨fun _ => hscan _, fun _ => (only_call _ _).mpr ⟨hload, fun _ => ?_⟩⟩
  exact followChain_only hfuel hfill _ _ _

/-- What the probe does to discover a board, from the operations of the functions it calls. -/
theorem discovery_only (hfuel : G (.fault .outOfFuel)) (hload : G (.load dev))
    (hprj : G (.store dev fun v => { v with startupPrjNum := 0 }))
    (hmodule : G (.store dev fun v => { v with shapiModuleNum := 0 }))
    (hbrdinfo : (pciedevGetBrdinfo dev).Only G) (hfillPrj : ∀ a, (pciedevFillPrjInfo dev a).Only G)
    (hfillModule : ∀ a, (pciedevFillShapiModuleInfo dev a).Only G) (fuel : ℕ) :
    Only G (do
      let tmpInfo ← pciedevGetBrdinfo dev
      if tmpInfo = 1 then do
        let _ ← pciedevGetPrjinfo fuel dev
        pure ()
      else if tmpInfo = 2 then do
        let _ ← pciedevGetShapiModuleInfo fuel dev
        pure ()
      else pure ()) := by
  have hcount {α : Type} (f : PciedevDev → α) : Only G (do pure (f (← load dev))) :=
    (only_call _ _).mpr ⟨hload, fun _ => trivial⟩
  have hprjs : (pciedevGetPrjinfo fuel dev).Only G :=
    (only_call _ _).mpr ⟨hprj, fun _ => (only_call _ _).mpr ⟨hload, fun _ =>
      (discover_only hfuel hload hfillPrj _ _).bind fun _ => hcount _⟩⟩
  have hmodules : (pciedevGetShapiModuleInfo fuel dev).Only G :=
    (only_call _ _).mpr ⟨hmodule, fun _ => (only_call _ _).mpr ⟨hload, fun _ =>
      (discover_only hfuel hload hfillModule _ _).bind fun _ => hcount _⟩⟩
  apply hbrdinfo.bind
  intro tmpInfo
  split_ifs
  · exact hprjs.bind fun _ => trivial
  · exact hmodules.bind fun _ => trivial
  · trivial

end

section
variable {b : Entry}

theorem probeSlotNum_setup (dev : PciDev) (tmpParentNum : ℤ) :
    (probeSlotNum dev tmpParentNum).Only (SetupOp b) := by
  simp [probeSlotNum, slotCapOf, SetupOp]

theorem probeDmaMask_setup (dev : PciDev) : (probeDmaMask dev b).Only (SetupOp b) := by
  simp [probeDmaMask, probeDma32, setDma64mask, SetupOp, SetsUp]

theorem probeIdentity_setup (dev : PciDev) : (probeIdentity dev b).Only (SetupOp b) := by
  simp [probeIdentity, SetupOp, SetsUp]

theorem probeBaseTable_setup (slot : ℕ) (busNumber devNumber : UInt32) :
    (probeBaseTable b slot busNumber devNumber).Only (SetupOp b) := by
  simp [probeBaseTable, SetupOp]

theorem probeBars_setup (dev : PciDev) (slot : ℕ) (bars : List Bar) :
    (probeBars dev b slot bars).Only (SetupOp b) := by
  induction bars with
  | nil => trivial
  | cons i bars ih =>
    refine Only.bind ?_ fun _ => ih
    simp [probeBar, SetupOp, SetsUp]

theorem printBaseTable_setup (slots : List ℕ) : (printBaseTable b slots).Only (SetupOp b) := by
  induction slots with
  | nil => trivial
  | cons slot slots ih => simp [printBaseTable, SetupOp, ih]

theorem probeInterrupts_setup (dev : PciDev) : (probeInterrupts dev b).Only (SetupOp b) := by
  have hmsi (msiNum : ℤ) : SetsUp fun v =>
      if 0 ≤ msiNum then { v with msi := 1, irqFlag := v.irqFlag &&& ~~~irqfShared }
      else { v with msi := 0 } := by
    intro v
    split_ifs <;> exact ⟨rfl, rfl, rfl⟩
  simp [probeInterrupts, SetupOp, SetsUp, hmsi _ _]

theorem pciedevGetBrdinfo_setup : (pciedevGetBrdinfo b).Only (SetupOp b) := by
  simp [pciedevGetBrdinfo, fillBrdInfo, fillDeviceInfo, fillFwName, readField, setBrdInfo,
    setDeviceInfo, SetupOp, SetsUp]

theorem pciedevFillPrjInfo_setup (baradress : IoAddr) :
    (pciedevFillPrjInfo b baradress).Only (SetupOp b) := by
  simp [pciedevFillPrjInfo, readPrjInfo, setBrdInfo, fault, SetupOp, SetsUp]

theorem pciedevFillShapiModuleInfo_setup (baradress : IoAddr) :
    (pciedevFillShapiModuleInfo b baradress).Only (SetupOp b) := by
  simp [pciedevFillShapiModuleInfo, readModuleInfo, fault, SetupOp, SetsUp]

theorem probeInfo_setup (fuel : ℕ) : (probeInfo fuel b).Only (SetupOp b) :=
  (only_call _ _).mpr ⟨⟨rfl, fun _ => ⟨rfl, rfl, rfl⟩⟩, fun _ =>
    discovery_only trivial trivial ⟨rfl, fun _ => ⟨rfl, rfl, rfl⟩⟩ ⟨rfl, fun _ => ⟨rfl, rfl, rfl⟩⟩
      pciedevGetBrdinfo_setup pciedevFillPrjInfo_setup pciedevFillShapiModuleInfo_setup fuel⟩

theorem probeNumbers_setup (dev : PciDev) (tmpParentNum : ℤ) :
    (probeNumbers dev b tmpParentNum).Only (SetupOp b) := by
  simp only [probeNumbers, perform_eq, call_bind, ret_bind, only_call]
  refine ⟨trivial, fun _ => ⟨trivial, fun _ => ⟨trivial, fun _ => ?_⟩⟩⟩
  exact (probeSlotNum_setup _ _).bind fun slot => by simp [SetupOp, SetsUp]

theorem probeResources_setup (fuel : ℕ) (dev : PciDev) (slot : ℕ) (busNumber devNumber : UInt32) :
    (probeResources fuel dev b slot busNumber devNumber).Only (SetupOp b) := by
  refine (probeDmaMask_setup _).bind fun _ => (probeIdentity_setup _).bind fun _ => ?_
  refine (probeBaseTable_setup _ _ _).bind fun _ => (only_call _ _).mpr ?_
  refine ⟨⟨rfl, fun _ => ⟨rfl, rfl, rfl⟩⟩, fun _ => (probeBars_setup _ _ _).bind fun _ => ?_⟩
  refine (printBaseTable_setup _).bind fun _ => (probeInfo_setup _).bind fun _ => ?_
  exact probeInterrupts_setup _

end

section
variable {ε : Type} {E : Environment ε} {b : Entry} {w u u' : World ε}

/-- `u` differs from `w` by a set-up of entry `b`. -/
structure SetUpFrom (b : Entry) (w u : World ε) : Prop where
  others d : d ≠ b → u.pciedevDevM d = w.pciedevDevM d
  binded : (u.pciedevDevM b).binded = (w.pciedevDevM b).binded
  devSts : (u.pciedevDevM b).devSts = (w.pciedevDevM b).devSts
  devFileList : (u.pciedevDevM b).devFileList = (w.pciedevDevM b).devFileList
  cdev : u.cdev = w.cdev
  privateData : u.privateData = w.privateData
  drvdata : u.drvdata = w.drvdata

theorem SetUpFrom.refl (b : Entry) (w : World ε) : SetUpFrom b w w :=
  ⟨fun _ _ => rfl, rfl, rfl, rfl, rfl, rfl, rfl⟩

theorem SetUpFrom.trans (h : SetUpFrom b w u) (h' : SetUpFrom b u u') : SetUpFrom b w u' where
  others d hne := (h'.others d hne).trans (h.others d hne)
  binded := h'.binded.trans h.binded
  devSts := h'.devSts.trans h.devSts
  devFileList := h'.devFileList.trans h.devFileList
  cdev := h'.cdev.trans h.cdev
  privateData := h'.privateData.trans h.privateData
  drvdata := h'.drvdata.trans h.drvdata

theorem SetUpFrom.withEnv (h : SetUpFrom b w u) (e : ε) : SetUpFrom b w (u.withEnv e) where
  others := h.others
  binded := h.binded
  devSts := h.devSts
  devFileList := h.devFileList
  cdev := h.cdev
  privateData := h.privateData
  drvdata := h.drvdata

theorem SetUpFrom.setDrvdata (h : SetUpFrom b w u) (dev : PciDev) (d : Option Entry) :
    SetUpFrom b (w.setDrvdata dev d) (u.setDrvdata dev d) where
  others := h.others
  binded := h.binded
  devSts := h.devSts
  devFileList := h.devFileList
  cdev := h.cdev
  privateData := h.privateData
  drvdata := by simp [h.drvdata]

theorem setupOp_step {op : Op} {r : op.Res} (hop : SetupOp b op) (hstep : driver E op u r u') :
    SetUpFrom b u u' := by
  cases op with
  | store d f =>
    obtain ⟨rfl, hf⟩ := hop
    obtain rfl : u' = u.updateDev d f := hstep
    obtain ⟨hbinded, hdevSts, hlist⟩ := hf (u.pciedevDevM d)
    constructor
    · intro d' hne
      simp [World.updateDev, hne]
    · simpa [World.updateDev] using hbinded
    · simpa [World.updateDev] using hdevSts
    · simpa [World.updateDev] using hlist
    · rfl
    · rfl
    · rfl
  | setPrivateData | setFPos | setCdev | setDrvdata => exact hop.elim
  | fault f => exact r.elim
  | kernel c =>
    obtain ⟨e, -, rfl⟩ := hstep
    exact ⟨fun _ _ => rfl, rfl, rfl, rfl, rfl, rfl, rfl⟩
  | setBaseRow | setBaseBar | note =>
    subst hstep
    exact ⟨fun _ _ => rfl, rfl, rfl, rfl, rfl, rfl, rfl⟩
  | _ =>
    obtain ⟨-, rfl⟩ := hstep
    exact .refl _ _

theorem Program.Only.setUpFrom {α : Type} {p : Kernel α} (hp : p.Only (SetupOp b)) :
    p.wp (driver E) w fun _ _ u => SetUpFrom b w u :=
  hp.wp_inv (fun _ _ _ _ h hop hstep => h.trans (setupOp_step hop hstep)) (.refl b w)

end
end Upciedev
