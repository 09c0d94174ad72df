import Upciedev.Boards.Registration

/-!
# What a probe does to the slot table

A probe that gets past the claim of its device enters the board in the row of its slot; any
other leaves the table alone. What the PCI core answers about the device is given as a
description of the hardware.
-/
namespace Upciedev

open Foundations Program

variable {ε α : Type} {E : Environment ε} {w u : World ε}

/-- What the PCI core answers about one device. -/
structure PciHardware where
  enable : ℤ
  claim : ℤ
  bus : UInt32
  devfn : UInt32
  slotCap : ConfigTarget → UInt32
  res : Bar → BarResource
  map : Bar → IoPtr

structure PciHardware.Answers (hw : PciHardware) (E : Environment ε) (dev : PciDev) : Prop where
  enable e r e' : E (.pciEnableDevice dev) e r e' → r = hw.enable
  claim e r e' : E (.pciRequestRegions dev) e r e' → r = hw.claim
  bus e r e' : E (.pciBusNumber dev) e r e' → r = hw.bus
  devfn e r e' : E (.pciDevfn dev) e r e' → r = hw.devfn
  slotCap t off e r e' : E (.pciReadConfigDword dev t off) e r e' → r = hw.slotCap t
  bars : Bars E dev hw.res hw.map

namespace PciHardware

def Usable (hw : PciHardware) : Prop := hw.enable = 0 ∧ hw.claim = 0

/-- The slot number of the device, for the given `*brd_num`. -/
def slot (hw : PciHardware) (tmpParentNum : ℤ) : ℕ :=
  if tmpParentNum = 1 then (hw.slotCap .parentBridge >>> 19).toNat
  else if tmpParentNum = 2 then 13
  else (hw.slotCap .bridge >>> 19).toNat

/-- The row of the slot table with the board entered. -/
def enter (hw : PciHardware) (slot : ℕ) (row : UpciedevPhysAddress) : UpciedevPhysAddress :=
  (List.finRange numberOfBars).foldl (fun row i => row.enterBar i (hw.res i))
    { row with devStst := 1, slotNum := slot, slotBus := hw.bus, slotDevice := pciSlot hw.devfn }

end PciHardware

/-- Operations that neither touch the slot table nor move an entry to another table or slot. -/
def Apart : Op → Prop
  | .store _ f => ∀ v, (f v).parentBaseDev = v.parentBaseDev ∧ (f v).slotNum = v.slotNum
  | .baseRow _ _ | .setBaseRow _ _ _ | .baseBar _ _ _ | .setBaseBar _ _ _ _ => False
  | _ => True

/-- The slot table and the place of every entry in it are the same. -/
structure SameSlots (w u : World ε) : Prop where
  baseUpciedevDev : u.baseUpciedevDev = w.baseUpciedevDev
  parentBaseDev d : (u.pciedevDevM d).parentBaseDev = (w.pciedevDevM d).parentBaseDev
  slotNum d : (u.pciedevDevM d).slotNum = (w.pciedevDevM d).slotNum

theorem SameSlots.refl (w : World ε) : SameSlots w w := ⟨rfl, fun _ => rfl, fun _ => rfl⟩

theorem SameSlots.trans {x : World ε} (h : SameSlots w u) (h' : SameSlots u x) : SameSlots w x where
  baseUpciedevDev := h'.baseUpciedevDev.trans h.baseUpciedevDev
  parentBaseDev d := (h'.parentBaseDev d).trans (h.parentBaseDev d)
  slotNum d := (h'.slotNum d).trans (h.slotNum d)

theorem SameSlots.withEnv (h : SameSlots w u) (e : ε) : SameSlots w (u.withEnv e) :=
  ⟨h.baseUpciedevDev, h.parentBaseDev, h.slotNum⟩

theorem apart_step (op : Op) {r : op.Res} (hop : Apart op) (hstep : driver E op w r u) :
    SameSlots w u := by
  cases op with
  | store d f =>
    obtain rfl : u = w.updateDev d f := hstep
    constructor
    · rfl
    · intro d'
      by_cases hd : d' = d
      · subst hd
        rw [World.updateDev_self]
        exact (hop _).1
      · rw [World.updateDev_other _ hd]
    · intro d'
      by_cases hd : d' = d
      · subst hd
        rw [World.updateDev_self]
        exact (hop _).2
      · rw [World.updateDev_other _ hd]
  | baseRow | setBaseRow | baseBar | setBaseBar => exact hop.elim
  | fault f => exact r.elim
  | kernel c =>
    obtain ⟨e, -, rfl⟩ := hstep
    exact ⟨rfl, fun _ => rfl, fun _ => rfl⟩
  | setPrivateData | setFPos | setCdev | setDrvdata | note =>
    subst hstep
    exact ⟨rfl, fun _ => rfl, fun _ => rfl⟩
  | _ =>
    obtain ⟨-, rfl⟩ := hstep
    exact .refl _

theorem apart_wp {p : Kernel α} (hp : p.Only Apart) :
    p.wp (driver E) w fun _ _ u => SameSlots w u :=
  hp.wp_inv (fun _ _ _ _ h hop hstep => h.trans (apart_step _ hop hstep)) (.refl w)

section
variable (dev : PciDev) (b : Entry)

theorem probeDmaMask_apart : (probeDmaMask dev b).Only Apart := by
  simp [probeDmaMask, probeDma32, setDma64mask, Apart]

theorem probeIdentity_apart : (probeIdentity dev b).Only Apart := by
  simp [probeIdentity, Apart]

theorem probeInfo_apart (fuel : ℕ) : (probeInfo fuel b).Only Apart := by
  have hheader : (pciedevGetBrdinfo b).Only Apart := by
    simp [pciedevGetBrdinfo, fillBrdInfo, fillDeviceInfo, fillFwName, readField, setBrdInfo,
      setDeviceInfo, Apart]
  have hfillPrj (a : IoAddr) : (pciedevFillPrjInfo b a).Only Apart := by
    simp [pciedevFillPrjInfo, readPrjInfo, setBrdInfo, fault, Apart]
  have hfillModule (a : IoAddr) : (pciedevFillShapiModuleInfo b a).Only Apart := by
    simp [pciedevFillShapiModuleInfo, readModuleInfo, fault, Apart]
  exact (only_call _ _).mpr ⟨fun _ => ⟨rfl, rfl⟩, fun _ =>
    discovery_only trivial trivial (fun _ => ⟨rfl, rfl⟩) (fun _ => ⟨rfl, rfl⟩) hheader hfillPrj
      hfillModule fuel⟩

theorem probeInterrupts_apart : (probeInterrupts dev b).Only Apart := by
  have hmsi (msiNum : ℤ) (v : PciedevDev) :
      (if 0 ≤ msiNum then { v with msi := 1, irqFlag := v.irqFlag &&& ~~~irqfShared }
        else { v with msi := 0 }).parentBaseDev = v.parentBaseDev ∧
      (if 0 ≤ msiNum then { v with msi := 1, irqFlag := v.irqFlag &&& ~~~irqfShared }
        else { v with msi := 0 }).slotNum = v.slotNum := by
    split_ifs <;> exact ⟨rfl, rfl⟩
  simp [probeInterrupts, Apart, hmsi]

theorem probeCreate_apart (slot : ℕ) : (probeCreate b slot).Only Apart := by
  refine Only.bind ?_ fun _ => ?_
  · simp [destroyStale, Apart]
  · simp [Apart]

end

section
variable {hw : PciHardware} {dev : PciDev} {b : Entry}

theorem slotCapOf_wp (hE : hw.Answers E dev) (t : ConfigTarget) :
    (slotCapOf dev t).wp (driver E) w fun _ slot u =>
      slot = hw.slotCap t >>> 19 ∧ ∃ e, u = w.withEnv e := by
  simp only [slotCapOf, perform_eq, call_bind, ret_bind, wp_kernel, pure_eq, wp_ret]
  intro _ _ _ word e hword
  obtain rfl := hE.slotCap _ _ _ _ _ hword
  exact ⟨rfl, e, rfl⟩

theorem probeSlotNum_wp (hE : hw.Answers E dev) (tmpParentNum : ℤ) :
    (probeSlotNum dev tmpParentNum).wp (driver E) w fun _ slot u =>
      slot = hw.slot tmpParentNum ∧ ∃ e, u = w.withEnv e := by
  rw [probeSlotNum, wp_bind]
  apply wp_mono (slotCapOf_wp hE .bridge)
  intro _ own u hpost
  obtain ⟨hown, e, hu⟩ := hpost
  subst hown hu
  unfold PciHardware.slot
  by_cases hparent : tmpParentNum = 1
  · rw [if_pos hparent, if_pos hparent, wp_bind]
    apply wp_mono (slotCapOf_wp hE .parentBridge)
    intro _ parent u hpost
    obtain ⟨hslot, e', hu⟩ := hpost
    subst hslot
    exact ⟨rfl, e', hu⟩
  · rw [if_neg hparent, if_neg hparent]
    by_cases hfixed : tmpParentNum = 2
    · rw [if_pos hfixed, if_pos hfixed]
      exact ⟨rfl, e, rfl⟩
    · rw [if_neg hfixed, if_neg hfixed]
      exact ⟨rfl, e, rfl⟩

theorem probeNumbers_wp (hE : hw.Answers E dev) (tmpParentNum : ℤ) :
    (probeNumbers dev b tmpParentNum).wp (driver E) w fun _ numbers u =>
      numbers = (hw.slot tmpParentNum, hw.bus, pciSlot hw.devfn) ∧
      u.baseUpciedevDev = w.baseUpciedevDev ∧
      (u.pciedevDevM b).parentBaseDev = (w.pciedevDevM b).parentBaseDev ∧
      (u.pciedevDevM b).slotNum = hw.slot tmpParentNum := by
  simp only [probeNumbers, perform_eq, call_bind, ret_bind, wp_kernel]
  intro _ _ _ devfn _ hdevfn bus e hbus
  obtain rfl := hE.devfn _ _ _ hdevfn
  obtain rfl := hE.bus _ _ _ hbus
  rw [wp_bind]
  apply wp_mono (probeSlotNum_wp hE tmpParentNum)
  intro _ slot u hpost
  obtain ⟨hslot, e', hu⟩ := hpost
  subst hslot hu
  simp only [wp_store, pure_eq, wp_ret]
  refine ⟨trivial, rfl, ?_, ?_⟩
  · simp
  · simp

theorem probeBaseTable_wp (slot : ℕ) (busNumber devNumber : UInt32) :
    (probeBaseTable b slot busNumber devNumber).wp (driver E) w fun _ _ u =>
      u = w.updateRow (w.pciedevDevM b).parentBaseDev slot fun row =>
        { row with devStst := 1, slotNum := slot, slotBus := busNumber,
                   slotDevice := devNumber } := by
  simp only [probeBaseTable, perform_eq, call_bind, ret_bind, wp_load, wp_setBaseRow, wp_ret,
    World.updateRow_updateRow]

variable (hw) in
theorem foldl_mapBar_place (bars : List Bar) (v : PciedevDev) :
    let v' := bars.foldl (fun v i => v.mapBar i (hw.res i) (hw.map i)) v
    v'.parentBaseDev = v.parentBaseDev ∧ v'.slotNum = v.slotNum := by
  induction bars generalizing v with
  | nil => exact ⟨rfl, rfl⟩
  | cons i bars ih => exact ih _

theorem probeResources_table_wp (hE : hw.Answers E dev) (fuel slot : ℕ) :
    (probeResources fuel dev b slot hw.bus (pciSlot hw.devfn)).wp (driver E) w fun _ _ u =>
      (u.pciedevDevM b).parentBaseDev = (w.pciedevDevM b).parentBaseDev ∧
      (u.pciedevDevM b).slotNum = (w.pciedevDevM b).slotNum ∧
      u.baseUpciedevDev =
        (w.updateRow (w.pciedevDevM b).parentBaseDev slot (hw.enter slot)).baseUpciedevDev := by
  simp only [probeResources, perform_eq, call_bind, ret_bind, wp_store, wp_bind]
  apply wp_mono (apart_wp (probeDmaMask_apart dev b))
  intro _ _ x₁ h₁
  apply wp_mono (apart_wp (probeIdentity_apart dev b))
  intro _ _ x₂ h₂
  apply wp_mono (probeBaseTable_wp _ _ _)
  intro _ _ x₃ h₃
  apply wp_mono (probeBars_wp hE.bars _ _)
  intro _ _ x₄ hpost
  obtain ⟨e₄, h₄⟩ := hpost
  apply wp_mono (wp_steady (printBaseTable_steady b _))
  intro _ _ x₅ hpost
  obtain ⟨e₅, h₅⟩ := hpost
  apply wp_mono (apart_wp (probeInfo_apart b fuel))
  intro _ _ x₆ h₆
  apply wp_mono (apart_wp (probeInterrupts_apart dev b))
  intro _ _ x₇ h₇
  have hbefore := h₁.trans h₂
  have hafter := h₆.trans h₇
  have hentry : x₅.pciedevDevM b = (List.finRange numberOfBars).foldl
      (fun v i => v.mapBar i (hw.res i) (hw.map i))
      { x₂.pciedevDevM b with pciedevAllMems := 0 } := by
    rw [h₅, h₄, h₃]
    simp
  have hplace := foldl_mapBar_place hw (List.finRange numberOfBars)
    { x₂.pciedevDevM b with pciedevAllMems := 0 }
  refine ⟨?_, ?_, ?_⟩
  · rw [hafter.parentBaseDev, hentry, hplace.1]
    exact hbefore.parentBaseDev b
  · rw [hafter.slotNum, hentry, hplace.2]
    exact hbefore.slotNum b
  · have hparent : (x₃.pciedevDevM b).parentBaseDev = (w.pciedevDevM b).parentBaseDev := by
      rw [h₃]
      exact hbefore.parentBaseDev b
    have hx₃ : x₃.baseUpciedevDev = (w.updateRow (w.pciedevDevM b).parentBaseDev slot fun row =>
        { row with
          devStst := 1, slotNum := slot, slotBus := hw.bus
          slotDevice := pciSlot hw.devfn }).baseUpciedevDev := by
      rw [h₃, World.updateRow_baseUpciedevDev, hbefore.baseUpciedevDev, hbefore.parentBaseDev]
      rfl
    rw [hafter.baseUpciedevDev, h₅, h₄]
    simp only [World.withEnv_baseUpciedevDev, World.updateRow_baseUpciedevDev,
      World.updateDev_baseUpciedevDev, World.updateDev_self, hparent, hx₃, Function.update_self,
      Function.update_idem]
    rfl

/-- A probe enters its board in the table when the device is usable, and leaves the table alone
otherwise. -/
theorem probeEntry_table_wp (hE : hw.Answers E dev) (fuel : ℕ) (tmpParentNum : ℤ) :
    (probeEntry fuel dev b tmpParentNum).wp (driver E) w fun _ err u =>
      (hw.Usable → err = 0 ∧ (u.pciedevDevM b).slotNum = hw.slot tmpParentNum ∧
        (u.pciedevDevM b).parentBaseDev = (w.pciedevDevM b).parentBaseDev ∧
        u.baseUpciedevDev = (w.updateRow (w.pciedevDevM b).parentBaseDev (hw.slot tmpParentNum)
          (hw.enter (hw.slot tmpParentNum))).baseUpciedevDev) ∧
      (¬ hw.Usable → err ≠ 0 ∧ SameSlots w u) := by
  simp only [probeEntry, perform_eq, call_bind, ret_bind, wp_store, wp_kernel, wp_ite]
  intro enabled e henabled
  obtain rfl := hE.enable _ _ _ henabled
  have hbinded : SameSlots w (w.updateDev b fun v => { v with binded := 1 }) :=
    apart_step (E := E) (.store b fun v => { v with binded := 1 }) (r := ()) (fun _ =>
      ⟨rfl, rfl⟩) rfl
  refine ⟨fun hne => ⟨fun h => absurd h.1 hne, fun _ => ⟨hne, ?_⟩⟩,
    fun henable claimed e' hclaimed => ?_⟩
  · exact hbinded.withEnv e
  · obtain rfl := hE.claim _ _ _ hclaimed
    have hstart := (hbinded.withEnv e).withEnv e'
    refine ⟨fun hne => ?_, fun hclaim => ?_⟩
    · have hfailed : (probeRegionsFailed dev b).Only Apart := by simp [probeRegionsFailed, Apart]
      refine (wp_bind ..).mpr (wp_mono (apart_wp hfailed) fun _ _ u hu => ?_)
      exact ⟨fun h => absurd h.2 hne, fun _ => ⟨hne, hstart.trans hu⟩⟩
    · have husable : hw.Usable := ⟨not_not.mp henable, not_not.mp hclaim⟩
      refine (wp_bind ..).mpr ((wp_bind ..).mpr ?_)
      apply wp_mono (probeNumbers_wp hE tmpParentNum)
      intro _ numbers x hpost
      obtain ⟨hnumbers, hbase, hparent, hslot⟩ := hpost
      subst hnumbers
      simp only [perform_eq, call_bind, ret_bind, wp_setDrvdata, wp_bind]
      apply wp_mono (probeResources_table_wp hE fuel _)
      intro _ _ x' hpost
      obtain ⟨hparent', hslot', hbase'⟩ := hpost
      apply wp_mono (apart_wp (probeCreate_apart b _))
      intro _ _ x'' h
      refine ⟨fun _ => ⟨rfl, ?_, ?_, ?_⟩, fun h => absurd husable h⟩
      · rw [h.slotNum, hslot']
        exact hslot
      · rw [h.parentBaseDev, hparent']
        exact hparent.trans (hstart.parentBaseDev b)
      · rw [h.baseUpciedevDev, hbase']
        simp only [World.updateRow_baseUpciedevDev, World.setDrvdata_pciedevDevM,
          World.setDrvdata_baseUpciedevDev, hparent, hbase]
        rw [hstart.parentBaseDev, hstart.baseUpciedevDev]

end

def oneBarHardware : PciHardware :=
  { enable := 0, claim := 0, bus := 0, devfn := 0, slotCap := fun _ => 0, res := oneBar
    map := fun _ => some 1 }

theorem Outcome.oneBar_answers (o : Outcome) (dev : PciDev) :
    PciHardware.Answers { oneBarHardware with enable := o.enable } o.environment dev where
  enable _ _ _ h := (Prod.mk.inj (Option.some.inj h)).1.symm
  claim _ _ _ h := (Prod.mk.inj (Option.some.inj h)).1.symm
  bus _ _ _ h := (Prod.mk.inj (Option.some.inj h)).1.symm
  devfn _ _ _ h := (Prod.mk.inj (Option.some.inj h)).1.symm
  slotCap _ _ _ _ _ h := (Prod.mk.inj (Option.some.inj h)).1.symm
  bars := o.bars dev

theorem oneBarHardware_answers (dev : PciDev) :
    oneBarHardware.Answers (Outcome.environment {}) dev := Outcome.oneBar_answers {} dev

end Upciedev
