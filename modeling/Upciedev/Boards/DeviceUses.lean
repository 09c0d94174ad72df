import Upciedev.Access.CallReach
import Upciedev.Boards.Interrupts
import Upciedev.Foundations.Rules
import Upciedev.Model.FileFootprint

/-!
# Uses of a PCI device

The PCI core wants a device enabled before its regions are requested, BARs mapped only while the
regions are held, and everything given back in the opposite order. The functions of the driver are
followed through these states: a probe ends with the mappings its entry records, or with nothing,
and a remove gives back what is recorded.
-/
namespace Upciedev

open Foundations Program

variable {ε α : Type} {E : Environment ε} {w u : World ε}

/-- What the driver asks of the PCI core for one device, with the answers that matter. -/
inductive PciUse where
  | enable (done : Bool)
  | setMaster
  | requestRegions (done : Bool)
  | iomap (p : IoPtr)
  | iounmap (p : IoPtr)
  | releaseRegions
  | disable
  deriving DecidableEq

def pciUse : (op : Op) → op.Res → Option (PciDev × PciUse)
  | .kernel (.pciEnableDevice dev), err => some (dev, .enable (decide (err = (0 : ℤ))))
  | .kernel (.pciSetMaster dev), _ => some (dev, .setMaster)
  | .kernel (.pciRequestRegions dev), err => some (dev, .requestRegions (decide (err = (0 : ℤ))))
  | .kernel (.pciIomap dev _ _), p => some (dev, .iomap p)
  | .kernel (.pciIounmap dev p), _ => some (dev, .iounmap p)
  | .kernel (.pciReleaseRegions dev), _ => some (dev, .releaseRegions)
  | .kernel (.pciDisableDevice dev), _ => some (dev, .disable)
  | _, _ => none

def pciLog (tr : Trace) : List (PciDev × PciUse) := tr.filterMap fun e => pciUse e.op e.res

/-- What is held of a device: nothing, the enabled device, or its regions with some mappings. -/
inductive Held where
  | nothing
  | enabled
  | regions (mapped : Multiset ℕ)
  deriving DecidableEq

def pciRules : Rules Held PciUse where
  use
    | .nothing, .enable done => some (if done then .enabled else .nothing)
    | .enabled, .requestRegions done => some (if done then .regions 0 else .enabled)
    | .enabled, .disable => some .nothing
    | .regions mapped, .setMaster => some (.regions mapped)
    | .regions mapped, .iomap p => some (.regions (mapped + p.toList))
    | .regions mapped, .iounmap (some p) =>
        if p ∈ mapped then some (.regions (mapped.erase p)) else none
    | .regions mapped, .releaseRegions => if mapped = 0 then some .enabled else none
    | _, _ => none

@[simp] theorem pciLog_nil : pciLog [] = [] := rfl

@[simp] theorem pciLog_cons (e : Event driverInterface) (tr : Trace) :
    pciLog (e :: tr) = (pciUse e.op e.res).toList ++ pciLog tr := by
  cases h : pciUse e.op e.res <;> simp [pciLog, h]

@[simp] theorem pciLog_append (tr tr' : Trace) : pciLog (tr ++ tr') = pciLog tr ++ pciLog tr' :=
  List.filterMap_append

/-- In the trace only device `dev` is used, by the rules, and goes from one state to the other. -/
abbrev HeldAlong (dev : PciDev) (s s' : Held) (tr : Trace) : Prop :=
  pciRules.Along (fun e => pciUse e.op e.res) dev s s' tr

theorem HeldAlong.of_log {dev : PciDev} {s s' : Held} {tr : Trace} (uses : List PciUse)
    (hlog : pciLog tr = uses.map (dev, ·)) (hrun : pciRules.run s uses = some s') :
    HeldAlong dev s s' tr := ⟨uses, hlog, hrun⟩

def PciedevDev.device (v : PciedevDev) : (Bar → IoPtr) × PciDev := (v.memmoryBase, v.pciedevPciDev)

def PciedevDev.mapped (v : PciedevDev) : Multiset ℕ :=
  ((List.finRange numberOfBars).filterMap v.memmoryBase : List ℕ)

theorem mapped_congr {v v' : PciedevDev} (h : v'.device = v.device) : v'.mapped = v.mapped := by
  have hbase : v'.memmoryBase = v.memmoryBase := congrArg Prod.fst h
  rw [PciedevDev.mapped, PciedevDev.mapped, hbase]

@[reducible] def UsesNoDevice : Op → Prop
  | .kernel (.pciEnableDevice _) | .kernel (.pciDisableDevice _) => False
  | .kernel (.pciRequestRegions _) | .kernel (.pciReleaseRegions _) => False
  | .kernel (.pciIomap _ _ _) | .kernel (.pciIounmap _ _) | .kernel (.pciSetMaster _) => False
  | _ => True

/-- No device is used, nothing that a board owns is made or removed, nothing of the set-up given
back, and the records of devices stay. -/
@[reducible] def LeavesDevices : Op → Prop
  | .store _ f => ∀ v, (f v).device = v.device
  | .kernel (.deviceCreate _) | .kernel (.deviceDestroy _) => False
  | .kernel (.pciAllocIrqVectors _ _ _) | .kernel (.pciDisableMsi _) => False
  | .kernel (.kfree .pciedevCdev) | .kernel (.kfree (.pciedevDev _)) => False
  | .kernel .unregisterChrdevRegion | .kernel .classDestroy | .kernel (.cdevDel _) => False
  | op => UsesNoDevice op

theorem UsesNoDevice.unused {op : Op} (h : UsesNoDevice op) (r : op.Res) : pciUse op r = none := by
  cases op with
  | kernel c => cases c <;> first | rfl | exact h.elim
  | _ => rfl

theorem pciLog_unused {tr : Trace} (h : ∀ e ∈ tr, UsesNoDevice e.op) : pciLog tr = [] :=
  List.filterMap_eq_nil_iff.mpr fun e he => (h e he).unused e.res

theorem LeavesDevices.noDevice {op : Op} (h : LeavesDevices op) : UsesNoDevice op := by
  cases op with
  | kernel c =>
    cases c with
    | kfree o => cases o <;> trivial
    | _ => trivial
  | _ => trivial

theorem LeavesDevices.keeps {op : Op} (h : LeavesDevices op) : Keeps PciedevDev.device op := by
  cases op with
  | store d f => exact h
  | _ => trivial

theorem noDevice_wp {p : Kernel α} (hp : p.Only UsesNoDevice)
    (hkeeps : p.Only (Keeps PciedevDev.device)) :
    p.wp (driver E) w fun tr _ u => pciLog tr = [] ∧
      ∀ d, (u.pciedevDevM d).device = (w.pciedevDevM d).device :=
  wp_mono (wp_and_only (keeps_wp hkeeps) hp) fun _ _ _ h => ⟨pciLog_unused h.2, h.1⟩

theorem leavesDevices_wp {p : Kernel α} (hp : p.Only LeavesDevices) :
    p.wp (driver E) w fun tr _ u => pciLog tr = [] ∧
      ∀ d, (u.pciedevDevM d).device = (w.pciedevDevM d).device :=
  noDevice_wp (hp.mono fun _ => LeavesDevices.noDevice) (hp.mono fun _ => LeavesDevices.keeps)

section
variable (dev : PciDev) (b : Entry)

theorem probeDmaMask_device : (probeDmaMask dev b).Only LeavesDevices := by
  simp [probeDmaMask, probeDma32, setDma64mask, LeavesDevices, UsesNoDevice, PciedevDev.device]

theorem probeIdentity_device : (probeIdentity dev b).Only LeavesDevices := by
  simp [probeIdentity, LeavesDevices, UsesNoDevice, PciedevDev.device]

theorem probeBaseTable_device (slot : ℕ) (busNumber devNumber : UInt32) :
    (probeBaseTable b slot busNumber devNumber).Only LeavesDevices := by
  simp [probeBaseTable, LeavesDevices, UsesNoDevice]

theorem printBaseTable_device (slots : List ℕ) : (printBaseTable b slots).Only LeavesDevices := by
  induction slots with
  | nil => trivial
  | cons slot slots ih => simp [printBaseTable, LeavesDevices, UsesNoDevice, ih]

theorem probeInfo_device (fuel : ℕ) : (probeInfo fuel b).Only LeavesDevices := by
  have hbrdinfo : (pciedevGetBrdinfo b).Only LeavesDevices := by
    simp [pciedevGetBrdinfo, fillBrdInfo, fillDeviceInfo, fillFwName, readField, setBrdInfo,
      setDeviceInfo, LeavesDevices, UsesNoDevice, PciedevDev.device]
  have hprj (a : IoAddr) : (pciedevFillPrjInfo b a).Only LeavesDevices := by
    simp [pciedevFillPrjInfo, readPrjInfo, setBrdInfo, fault, LeavesDevices, UsesNoDevice,
      PciedevDev.device]
  have hmodule (a : IoAddr) : (pciedevFillShapiModuleInfo b a).Only LeavesDevices := by
    simp [pciedevFillShapiModuleInfo, readModuleInfo, fault, LeavesDevices, UsesNoDevice,
      PciedevDev.device]
  refine (only_call _ _).mpr ⟨fun _ => rfl, fun _ => ?_⟩
  exact discovery_only trivial trivial (fun _ => rfl) (fun _ => rfl) hbrdinfo hprj hmodule fuel

theorem probeInterrupts_noDevice : (probeInterrupts dev b).Only UsesNoDevice := by
  simp [probeInterrupts, UsesNoDevice]

theorem probeInterrupts_keepsDevice : (probeInterrupts dev b).Only (Keeps PciedevDev.device) := by
  have hmsi (msiNum : ℤ) (v : PciedevDev) : PciedevDev.device (if 0 ≤ msiNum then
      { v with msi := 1, irqFlag := v.irqFlag &&& ~~~irqfShared } else { v with msi := 0 }) =
      v.device := by
    split_ifs <;> rfl
  simp only [probeInterrupts, perform_eq, call_bind, ret_bind, only_call, only_ret, Keeps, hmsi]
  simp [PciedevDev.device]

theorem probeCreate_noDevice (slot : ℕ) : (probeCreate b slot).Only UsesNoDevice := by
  refine Only.bind ?_ fun _ => ?_
  · simp [destroyStale, UsesNoDevice]
  · simp [UsesNoDevice]

theorem probeCreate_keepsDevice (slot : ℕ) :
    (probeCreate b slot).Only (Keeps PciedevDev.device) := by
  refine Only.bind ?_ fun _ => ?_
  · simp [destroyStale, Keeps, PciedevDev.device]
  · simp [Keeps, PciedevDev.device]

theorem freeIrqs_device (is : List ℕ) : (freeIrqs b is).Only LeavesDevices := by
  induction is with
  | nil => trivial
  | cons i is ih => simp [freeIrqs, LeavesDevices, UsesNoDevice, ih]

theorem removeInterrupts_noDevice : (removeInterrupts b).Only UsesNoDevice := by
  have hfree := (freeIrqs_device b (List.range 32)).mono fun _ => LeavesDevices.noDevice
  simp only [removeInterrupts, perform_eq, call_bind, ret_bind, only_call, only_ite]
  exact ⟨trivial, fun v =>
    ⟨fun _ => hfree.bind fun _ => by simp [UsesNoDevice], fun _ => by simp [UsesNoDevice]⟩⟩

theorem removeInterrupts_keepsDevice : (removeInterrupts b).Only (Keeps PciedevDev.device) := by
  have hfree := (freeIrqs_device b (List.range 32)).mono fun _ => LeavesDevices.keeps
  simp only [removeInterrupts, perform_eq, call_bind, ret_bind, only_call, only_ite]
  exact ⟨trivial, fun v => ⟨fun _ => hfree.bind fun _ => by simp [Keeps], fun _ => by simp [Keeps]⟩⟩

theorem removeBaseTable_device (slot : ℕ) : (removeBaseTable b slot).Only LeavesDevices := by
  have hclear (bars : List Bar) : (clearBaseBars b slot bars).Only LeavesDevices := by
    induction bars with
    | nil => trivial
    | cons i bars ih => simp [clearBaseBars, LeavesDevices, UsesNoDevice, ih]
  simp [removeBaseTable, LeavesDevices, UsesNoDevice, hclear]

theorem orphanFiles_device (nodes : List UpciedevFileList) :
    (orphanFiles b nodes).Only LeavesDevices := by
  induction nodes with
  | nil => trivial
  | cons n nodes ih => simp [orphanFiles, LeavesDevices, UsesNoDevice, PciedevDev.device, ih]

theorem pciedevSetupInterrupt_device (num : ℕ) :
    (pciedevSetupInterrupt b num).Only LeavesDevices := by
  simp [pciedevSetupInterrupt, LeavesDevices, UsesNoDevice, PciedevDev.device]

end

theorem upciedevInitModuleExp_noDevice : upciedevInitModuleExp.Only UsesNoDevice := by
  have hfree (ds : List Entry) : (freeEntries ds).Only UsesNoDevice := by
    induction ds with
    | nil => trivial
    | cons d ds ih => simp [freeEntries, UsesNoDevice, ih]
  have hentries (cdevP : PciedevCdev) (added rest : List Entry) :
      (initEntries cdevP added rest).Only UsesNoDevice := by
    induction rest generalizing added with
    | nil => trivial
    | cons i rest ih =>
      simp only [initEntries, perform_eq, call_bind, ret_bind, only_call, only_ite]
      refine ⟨trivial, fun _ =>
        ⟨fun _ => ?_, fun _ => (hfree _).bind fun _ => by simp [UsesNoDevice]⟩⟩
      simp [UsesNoDevice, ih]
  simp [upciedevInitModuleExp, UsesNoDevice, hentries]

theorem fileCall_device (c : FileCall) : c.program.Only LeavesDevices := by
  apply (fileCall_allowed c).mono
  intro op hop
  cases op with
  | store d f => cases hop.2.1 <;> exact fun _ => rfl
  | kernel c => cases c <;> trivial
  | _ => trivial

section
variable {dev : PciDev} {b : Entry}

theorem probeBar_along (slot : ℕ) (i : Bar) (mapped : Multiset ℕ) :
    (probeBar dev b slot i).wp (driver E) w fun tr _ u => ∃ p : IoPtr,
      HeldAlong dev (.regions mapped) (.regions (mapped + p.toList)) tr ∧
        (u.pciedevDevM b).memmoryBase = Function.update (w.pciedevDevM b).memmoryBase i p ∧
          (u.pciedevDevM b).pciedevPciDev = (w.pciedevDevM b).pciedevPciDev := by
  simp only [probeBar, perform_eq, call_bind, ret_bind, wp_kernel, wp_store, wp_ite]
  intro start _ _ stop _ _ flags _ _
  refine ⟨fun _ => ?_, fun _ => ?_⟩
  · intro p _ _
    simp only [wp_load, wp_setBaseBar, wp_ret]
    refine ⟨p, ?_, by simp, by simp⟩
    exact ⟨[.iomap p], by simp [pciUse], by simp [pciRules]⟩
  · simp only [wp_ret]
    exact ⟨none, ⟨[], by simp [pciUse], by simp⟩, by simp, by simp⟩

theorem probeBars_along (slot : ℕ) {bars : List Bar} (hbars : bars.Nodup) (mapped : Multiset ℕ) :
    (probeBars dev b slot bars).wp (driver E) w fun tr _ u =>
      HeldAlong dev (.regions mapped)
          (.regions (mapped + (bars.filterMap (u.pciedevDevM b).memmoryBase : List ℕ))) tr ∧
        (∀ i ∉ bars, (u.pciedevDevM b).memmoryBase i = (w.pciedevDevM b).memmoryBase i) ∧
          (u.pciedevDevM b).pciedevPciDev = (w.pciedevDevM b).pciedevPciDev := by
  induction bars generalizing w mapped with
  | nil => exact ⟨⟨[], rfl, by simp⟩, fun _ _ => rfl, rfl⟩
  | cons i bars ih =>
    obtain ⟨hi, hrest⟩ := List.nodup_cons.mp hbars
    rw [probeBars, wp_bind]
    apply wp_mono (probeBar_along slot i mapped)
    rintro tr _ x ⟨p, halong, hbase, hdev⟩
    apply wp_mono (ih hrest (mapped + p.toList))
    rintro tr' _ y ⟨halong', hsame, hdev'⟩
    have hp : (y.pciedevDevM b).memmoryBase i = p := by
      rw [hsame i hi, hbase, Function.update_self]
    refine ⟨?_, fun j hj => ?_, hdev'.trans hdev⟩
    · have hlist : ((i :: bars).filterMap (y.pciedevDevM b).memmoryBase : List ℕ) =
          p.toList ++ bars.filterMap (y.pciedevDevM b).memmoryBase := by
        rw [List.filterMap_cons, hp]
        cases p <;> rfl
      rw [hlist, ← Multiset.coe_add, ← add_assoc]
      exact halong.append halong'
    · obtain ⟨hji, hj⟩ := not_or.mp (fun h => hj (List.mem_cons.mpr h))
      rw [hsame j hj, hbase, Function.update_of_ne hji]

theorem probeNumbers_along (tmpParentNum : ℤ) (mapped : Multiset ℕ) :
    (probeNumbers dev b tmpParentNum).wp (driver E) w fun tr _ u =>
      HeldAlong dev (.regions mapped) (.regions mapped) tr ∧
        (u.pciedevDevM b).pciedevPciDev = dev := by
  have hslot : (probeSlotNum dev tmpParentNum).Only LeavesDevices := by
    simp [probeSlotNum, slotCapOf, LeavesDevices, UsesNoDevice]
  simp only [probeNumbers, perform_eq, call_bind, ret_bind, wp_kernel]
  intro _ _ _ _ _ _ _ _ _
  apply (wp_bind ..).mpr
  apply wp_mono (leavesDevices_wp hslot)
  rintro tr slot x ⟨hunused, -⟩
  simp only [wp_store, pure_eq, wp_ret]
  refine ⟨?_, by simp⟩
  exact HeldAlong.of_log [.setMaster] (by simp [pciUse, hunused]) rfl

theorem HeldAlong.unusedStage {p : Kernel α} (hp : p.Only UsesNoDevice)
    (hkeeps : p.Only (Keeps PciedevDev.device)) {Q : Trace → α → World ε → Prop}
    (hQ : ∀ tr a u, (∀ {dev : PciDev} {s : Held}, HeldAlong dev s s tr) →
      (∀ d, (u.pciedevDevM d).device = (w.pciedevDevM d).device) → Q tr a u) :
    p.wp (driver E) w Q :=
  wp_mono (noDevice_wp hp hkeeps) fun tr a u h => hQ tr a u (.unused h.1) h.2

theorem HeldAlong.stage {p : Kernel α} (hp : p.Only LeavesDevices) {Q : Trace → α → World ε → Prop}
    (hQ : ∀ tr a u, (∀ {dev : PciDev} {s : Held}, HeldAlong dev s s tr) →
      (∀ d, (u.pciedevDevM d).device = (w.pciedevDevM d).device) → Q tr a u) :
    p.wp (driver E) w Q :=
  HeldAlong.unusedStage (hp.mono fun _ => LeavesDevices.noDevice)
    (hp.mono fun _ => LeavesDevices.keeps) hQ

theorem probeResources_along (fuel slot : ℕ) (busNumber devNumber : UInt32) :
    (probeResources fuel dev b slot busNumber devNumber).wp (driver E) w fun tr _ u =>
      HeldAlong dev (.regions 0) (.regions (u.pciedevDevM b).mapped) tr ∧
        (u.pciedevDevM b).pciedevPciDev = (w.pciedevDevM b).pciedevPciDev := by
  rw [probeResources, wp_bind]
  apply HeldAlong.stage (probeDmaMask_device dev b)
  intro tr₁ _ x₁ h₁ hsame₁
  apply (wp_bind ..).mpr
  apply HeldAlong.stage (probeIdentity_device dev b)
  intro tr₂ _ x₂ h₂ hsame₂
  apply (wp_bind ..).mpr
  apply HeldAlong.stage (probeBaseTable_device b _ _ _)
  intro tr₃ _ x₃ h₃ hsame₃
  simp only [perform_eq, call_bind, ret_bind, wp_store]
  apply (wp_bind ..).mpr
  apply wp_mono (probeBars_along _ (List.nodup_finRange _) 0)
  rintro tr₄ _ x₄ ⟨h₄, -, hdev₄⟩
  apply (wp_bind ..).mpr
  apply HeldAlong.stage (printBaseTable_device b _)
  intro tr₅ _ x₅ h₅ hsame₅
  apply (wp_bind ..).mpr
  apply HeldAlong.stage (probeInfo_device b fuel)
  intro tr₆ _ x₆ h₆ hsame₆
  apply HeldAlong.unusedStage (probeInterrupts_noDevice dev b) (probeInterrupts_keepsDevice dev b)
  intro tr₇ _ x₇ h₇ hsame₇
  have hafter : (x₇.pciedevDevM b).device = (x₄.pciedevDevM b).device :=
    (hsame₇ b).trans ((hsame₆ b).trans (hsame₅ b))
  have hbefore : (x₃.pciedevDevM b).device = (w.pciedevDevM b).device :=
    (hsame₃ b).trans ((hsame₂ b).trans (hsame₁ b))
  refine ⟨?_, ?_⟩
  · rw [mapped_congr hafter]
    rw [zero_add] at h₄
    refine h₁.append (h₂.append (h₃.append (.skip rfl (h₄.append (h₅.append (h₆.append h₇))))))
  · refine (congrArg Prod.snd hafter).trans (hdev₄.trans ?_)
    rw [World.updateDev_self]
    exact congrArg Prod.snd hbefore

/-- How a probe leaves the device: with the mappings its entry records, or as it was. -/
def ProbeUses (b : Entry) (dev : PciDev) (tr : Trace) (err : ℤ) (u : World ε) : Prop :=
  (err = 0 ∧ HeldAlong dev .nothing (.regions (u.pciedevDevM b).mapped) tr ∧
    (u.pciedevDevM b).pciedevPciDev = dev) ∨ (err ≠ 0 ∧ HeldAlong dev .nothing .nothing tr)

theorem probeEntry_uses (fuel : ℕ) (tmpParentNum : ℤ) :
    (probeEntry fuel dev b tmpParentNum).wp (driver E) w fun tr err u =>
      ProbeUses b dev tr err u := by
  simp only [probeEntry, perform_eq, call_bind, ret_bind, wp_store, wp_kernel, wp_ite]
  intro enabled _ _
  refine ⟨fun hne => .inr ⟨hne, [.enable false], by simp [pciUse, hne], rfl⟩, fun henabled => ?_⟩
  obtain rfl : enabled = (0 : ℤ) := not_not.mp henabled
  refine fun claimed _ _ => ⟨fun hne => ?_, fun hclaimed => ?_⟩
  · simp only [probeRegionsFailed, perform_eq, call_bind, ret_bind, wp_kernel, wp_setDrvdata,
      wp_store]
    intro _ _ _
    refine .inr ⟨hne, [.enable true, .requestRegions false, .disable], by simp [pciUse, hne], rfl⟩
  · obtain rfl : claimed = (0 : ℤ) := not_not.mp hclaimed
    refine (wp_bind ..).mpr ((wp_bind ..).mpr ?_)
    apply wp_mono (probeNumbers_along tmpParentNum 0)
    rintro tr₁ numbers x₁ ⟨h₁, hdev₁⟩
    simp only [perform_eq, call_bind, ret_bind, wp_setDrvdata, wp_bind]
    apply wp_mono (probeResources_along fuel _ _ _)
    rintro tr₂ _ x₂ ⟨h₂, hdev₂⟩
    apply HeldAlong.unusedStage (probeCreate_noDevice b _) (probeCreate_keepsDevice b _)
    intro tr₃ _ x₃ h₃ hsame₃
    simp only [pure_eq, wp_ret]
    refine .inl ⟨rfl, ?_, ?_⟩
    · rw [mapped_congr (hsame₃ b)]
      refine .skip rfl (.cons rfl rfl (.cons rfl rfl ?_))
      exact (h₁.append (.skip rfl (h₂.append h₃))).append (.unused rfl)
    · exact (congrArg Prod.snd (hsame₃ b)).trans (hdev₂.trans hdev₁)

theorem findUnbound_device (ds : List Entry) : (findUnbound ds).Only LeavesDevices := by
  induction ds with
  | nil => trivial
  | cons d ds ih => simp [findUnbound, LeavesDevices, UsesNoDevice, ih]

theorem pciedevProbeExp_uses (fuel : ℕ) (dev : PciDev) (tmpParentNum : ℤ) :
    (pciedevProbeExp fuel dev tmpParentNum).wp (driver E) w fun tr r u =>
      (w.pciedevDevM nullEntry).binded = 0 ∨ ∃ b : Entry, r.2 = b.val ∧
        ProbeUses b dev tr r.1 u := by
  rw [pciedevProbeExp, wp_bind]
  apply wp_mono (wp_and_only (findUnbound_wp _) (findUnbound_device _))
  rintro tr mBrdNum u ⟨⟨hu, -, hnum⟩, hdevice⟩
  subst hu
  have hunused : pciLog tr = [] := pciLog_unused fun e he => (hdevice e he).noDevice
  cases hfind : (List.finRange (pciedevNrDevs + 1)).find? fun d => (u.pciedevDevM d).binded = 0 with
  | none =>
    rw [hfind] at hnum
    subst hnum
    exact (wp_fault _).mpr trivial
  | some b =>
    rw [hfind] at hnum
    have hval : mBrdNum = b.val := hnum
    by_cases hnull : mBrdNum = pciedevNrDevs
    · rw [if_pos hnull]
      have hb : nullEntry = b := Fin.ext (hnull.symm.trans hval)
      exact .inl (hb ▸ by simpa using List.find?_some hfind)
    · have hlt : mBrdNum < pciedevNrDevs + 1 := hval ▸ b.isLt
      have hentry : (⟨mBrdNum, hlt⟩ : Entry) = b := Fin.ext hval
      rw [if_neg hnull, dif_pos hlt, hentry, wp_bind]
      apply wp_mono (probeEntry_uses fuel _)
      intro tr' err u' huses
      refine .inr ⟨b, hval, ?_⟩
      have hbefore {s : Held} (h : HeldAlong dev .nothing s tr') :
          HeldAlong dev .nothing s (tr ++ (tr' ++ [])) :=
        (Rules.Along.unused hunused).append (h.append (.unused rfl))
      rcases huses with ⟨hzero, halong, hdev⟩ | ⟨hne, halong⟩
      · exact .inl ⟨hzero, hbefore halong, hdev⟩
      · exact .inr ⟨hne, hbefore halong⟩

end

section
variable {dev : PciDev} {d : Entry}

theorem unmapBars_along {bars : List Bar} (hbars : bars.Nodup) :
    (unmapBars dev d bars).wp (driver E) w fun tr _ u =>
      HeldAlong dev (.regions (bars.filterMap (w.pciedevDevM d).memmoryBase : List ℕ))
        (.regions 0) tr ∧
        (u.pciedevDevM d).pciedevPciDev = (w.pciedevDevM d).pciedevPciDev := by
  induction bars generalizing w with
  | nil => exact ⟨.unused rfl, rfl⟩
  | cons i bars ih =>
    obtain ⟨hi, hrest⟩ := List.nodup_cons.mp hbars
    simp only [unmapBars, unmapBar, perform_eq, call_bind, ret_bind, wp_bind, wp_load]
    cases hp : (w.pciedevDevM d).memmoryBase i with
    | none =>
      rw [if_pos rfl, pure_eq, wp_ret]
      apply wp_mono (ih hrest)
      rintro tr _ u ⟨halong, hdev⟩
      rw [List.filterMap_cons_none hp]
      exact ⟨.skip rfl halong, hdev⟩
    | some p =>
      rw [if_neg (Option.some_ne_none p)]
      simp only [wp_kernel, wp_store, wp_ret]
      intro _ e _
      apply wp_mono (ih hrest)
      rintro tr _ u ⟨halong, hdev⟩
      have hsame : bars.filterMap (Function.update (w.pciedevDevM d).memmoryBase i none) =
          bars.filterMap (w.pciedevDevM d).memmoryBase :=
        List.filterMap_congr fun j hj => Function.update_of_ne (ne_of_mem_of_not_mem hj hi) _ _
      simp only [World.updateDev_self, World.withEnv_pciedevDevM, hsame] at halong
      rw [List.filterMap_cons_some hp]
      refine ⟨.skip rfl (.cons rfl ?_ halong), ?_⟩
      · simp [pciRules]
      · simpa using hdev

theorem pciedevRemoveExp_uses (fuel : ℕ) (hdrv : w.drvdata dev = some d)
    (hdev : (w.pciedevDevM d).pciedevPciDev = dev) :
    (pciedevRemoveExp fuel dev).wp (driver E) w fun tr _ _ =>
      HeldAlong dev (.regions (w.pciedevDevM d).mapped) .nothing tr := by
  simp only [pciedevRemoveExp, perform_eq, call_bind, ret_bind, wp_drvdata, hdrv, wp_load, wp_store,
    wp_bind]
  apply HeldAlong.unusedStage (removeInterrupts_noDevice d) (removeInterrupts_keepsDevice d)
  intro tr₁ _ x₁ h₁ hsame₁
  apply HeldAlong.stage (removeBaseTable_device d _)
  intro tr₂ _ x₂ h₂ hsame₂
  have hsame : (x₂.pciedevDevM d).device = (w.pciedevDevM d).device := by
    refine (hsame₂ d).trans ((hsame₁ d).trans ?_)
    rw [World.updateDev_self]
    rfl
  cases fuel with
  | zero => exact (wp_fault _).mpr trivial
  | succ fuel =>
    simp only [lockUntil, perform_eq, call_bind, ret_bind, wp_enterCritRegion, ne_eq,
      not_true_eq_false, if_false, removeLocked, wp_bind]
    apply wp_mono (unmapBars_along (List.nodup_finRange _))
    rintro tr₃ _ x₃ ⟨h₃, hdev₃⟩
    have hrelease : (x₃.pciedevDevM d).pciedevPciDev = dev :=
      hdev₃.trans ((congrArg Prod.snd hsame).trans hdev)
    simp only [wp_load, wp_kernel, wp_store, wp_setCdev, wp_bind]
    intro _ _ _ _ _ _ _ _ _ _ _ _
    apply wp_mono (leavesDevices_wp (orphanFiles_device d _))
    rintro tr₄ _ x₄ ⟨h₄, -⟩
    simp only [wp_leaveCritRegion, pure_eq, wp_ret]
    refine .skip rfl (.skip rfl (.skip rfl (h₁.append (h₂.append (.skip rfl ?_)))))
    rw [← mapped_congr hsame]
    refine h₃.append (HeldAlong.of_log [.releaseRegions, .disable] ?_ rfl)
    simp [pciUse, hrelease, h₄]

end

end Upciedev
