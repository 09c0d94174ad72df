import Upciedev.Boards.Registration
import Upciedev.Discovery.BoardLists

/-!
# The header of a board

What `pciedev_get_brdinfo` makes of the registers at the start of BAR 0, and what the
clients are told of it.
-/
namespace Upciedev

open Foundations Program

variable {ε : Type} {E : Environment ε} {base : IoPtr} {regs : ℤ → UInt32} {dev : Entry}
  {w : World ε}

/-- A board is one of the two known kinds, or neither. -/
inductive BoardKind where
  | desy
  | shapi
  | unknown
  deriving DecidableEq, Repr

/-- The kind of a board as its first word tells, provided that BAR 0 is mapped. -/
def boardKind (base : IoPtr) (word : UInt32) : BoardKind :=
  if base = none then .unknown
  else if word = asciiBoardMagicNum ∨ word = asciiBoardMagicNumL then .desy
  else if word >>> 16 = shapiMagicDeviceNum then .shapi
  else .unknown

def BoardKind.code : BoardKind → ℤ
  | desy => 1
  | shapi => 2
  | unknown => 0

section
variable (regs)

/-- The DESY header; the reserved word is not read. -/
def brdInfoAt (old : PciedevBrdInfo) : PciedevBrdInfo :=
  { pciedevBoardId := regs 0x04
    pciedevBoardVersion := regs 0x08
    pciedevBoardDate := regs 0x0C
    pciedevHwVersion := regs 0x10
    pciedevBoardReserved := old.pciedevBoardReserved
    pciedevProjNext := regs 0x18 }

/-- The SHAPI header; the name is written over the old one. -/
def deviceInfoAt (old : ShapiDeviceInfo) : ShapiDeviceInfo :=
  { shapiVersion := regs 0x00 &&& 0xFFFF
    shapiFirstModuleAddress := regs 0x04
    shapiHwIds := regs 0x08
    shapiFwIds := regs 0x0C
    shapiFwVersion := regs 0x10
    shapiFwTimestamp := regs 0x14
    shapiFwName := ![regs 0x18, regs 0x1C, regs 0x20]
    shapiDeviceCap := regs 0x24
    shapiDeviceStatus := regs 0x28
    shapiDeviceControl := regs 0x2C
    shapiIrqMask := regs 0x30
    shapiIrqFlag := regs 0x34
    shapiIrqActive := regs 0x38
    shapiScratchRegister := regs 0x3C
    fwName :=
      nameWord (regs 0x20) 8 4 (nameWord (regs 0x1C) 4 4 (nameWord (regs 0x18) 0 4 old.fwName)) }

def PciedevDev.withHeader (v : PciedevDev) : BoardKind → PciedevDev
  | .desy => { v with
      startupBrd := 1, shapiBrd := 0, shapiModuleNum := 0, brdInfoList :=
        brdInfoAt regs v.brdInfoList }
  | .shapi => { v with
      startupBrd := 0, shapiBrd := 1, shapiModuleNum := if regs 0x04 ≠ 0 then 1 else 0
      deviceInfoList := deviceInfoAt regs v.deviceInfoList
      scratchBar := 0, scratchOffset := 0x3C }
  | .unknown => { v with startupBrd := 0, shapiBrd := 0, shapiModuleNum := 0 }

end

def PciedevDev.mapBrdInfo (g : PciedevBrdInfo → PciedevBrdInfo) (v : PciedevDev) : PciedevDev :=
  { v with brdInfoList := g v.brdInfoList }

def PciedevDev.mapDeviceInfo (g : ShapiDeviceInfo → ShapiDeviceInfo) (v : PciedevDev) :
    PciedevDev :=
  { v with deviceInfoList := g v.deviceInfoList }

theorem setBrdInfo_eq (f : UInt32 → PciedevBrdInfo → PciedevBrdInfo) (x : UInt32) :
    setBrdInfo f x = PciedevDev.mapBrdInfo (f x) := rfl

theorem setDeviceInfo_eq (f : UInt32 → ShapiDeviceInfo → ShapiDeviceInfo) (x : UInt32) :
    setDeviceInfo f x = PciedevDev.mapDeviceInfo (f x) := rfl

theorem mapDeviceInfo_comp (g g' : ShapiDeviceInfo → ShapiDeviceInfo) :
    PciedevDev.mapDeviceInfo g ∘ PciedevDev.mapDeviceInfo g' = PciedevDev.mapDeviceInfo (g ∘ g') :=
  rfl

theorem mapBrdInfo_comp_assoc (g g' : PciedevBrdInfo → PciedevBrdInfo)
    (f : PciedevDev → PciedevDev) :
    PciedevDev.mapBrdInfo g ∘ PciedevDev.mapBrdInfo g' ∘ f = PciedevDev.mapBrdInfo (g ∘ g') ∘ f :=
  rfl

/-- The counter of modules starts with one when the header names a first module. -/
def PciedevDev.startModules (x : UInt32) (v : PciedevDev) : PciedevDev :=
  { v with shapiModuleNum := if x ≠ 0 then 1 else v.shapiModuleNum }

def PciedevDev.shapiScratch (v : PciedevDev) : PciedevDev :=
  { v with scratchBar := 0, scratchOffset := UInt32.ofInt wordScratchRegister }

theorem mapDeviceInfo_startModules (g : ShapiDeviceInfo → ShapiDeviceInfo) (x : UInt32)
    (f : PciedevDev → PciedevDev) :
    PciedevDev.mapDeviceInfo g ∘ PciedevDev.startModules x ∘ f =
      PciedevDev.startModules x ∘ PciedevDev.mapDeviceInfo g ∘ f := rfl

theorem mapDeviceInfo_shapiScratch (g : ShapiDeviceInfo → ShapiDeviceInfo)
    (f : PciedevDev → PciedevDev) :
    PciedevDev.mapDeviceInfo g ∘ PciedevDev.shapiScratch ∘ f =
      PciedevDev.shapiScratch ∘ PciedevDev.mapDeviceInfo g ∘ f := rfl

theorem update_three {α : Type} (f : Fin 3 → α) (x y z : α) :
    Function.update (Function.update (Function.update f 0 x) 1 y) 2 z = ![x, y, z] := by
  funext i
  fin_cases i <;> rfl

theorem fillDeviceInfo_wp (hE : Reads E base regs) :
    (fillDeviceInfo dev ⟨base, 0⟩).wp (driver E) w fun _ _ u => ∃ e,
      u = (w.updateDev dev (PciedevDev.shapiScratch ∘ PciedevDev.startModules (regs 0x04) ∘
        PciedevDev.mapDeviceInfo (deviceInfoAt regs))).withEnv e := by
  have hstart (x : UInt32) : (fun v => { setDeviceInfo (fun x d =>
      { d with shapiFirstModuleAddress := x }) x v with
      shapiModuleNum := if x ≠ 0 then 1 else v.shapiModuleNum }) =
      PciedevDev.startModules x ∘ PciedevDev.mapDeviceInfo fun d =>
        { d with shapiFirstModuleAddress := x } := rfl
  have hscratch : (fun v : PciedevDev =>
      { v with scratchBar := 0, scratchOffset := UInt32.ofInt wordScratchRegister }) =
      PciedevDev.shapiScratch := rfl
  simp only [fillDeviceInfo, fillFwName, readField, perform_eq, call_bind, ret_bind, hstart,
    hscratch]
  simp only [setDeviceInfo_eq]
  iterate 13
    apply hE.read
    intro _
    rw [wp_store]
  rw [wp_store]
  iterate 2
    apply hE.read
    intro _
    rw [wp_store]
  apply hE.read
  intro e
  simp only [wp_store, wp_ret, World.updateDev_withEnv, World.withEnv_withEnv,
    World.updateDev_updateDev, Function.comp_assoc, mapDeviceInfo_comp,
    mapDeviceInfo_startModules, mapDeviceInfo_shapiScratch]
  refine ⟨e, congrArg (World.withEnv · e) (congrArg (w.updateDev dev) ?_)⟩
  congr 3
  funext d
  simp only [Function.comp_apply, update_three]
  rfl

theorem fillBrdInfo_wp (hE : Reads E base regs) :
    (fillBrdInfo dev ⟨base, 0⟩).wp (driver E) w fun _ _ u => ∃ e,
      u = (w.updateDev dev (PciedevDev.mapBrdInfo (brdInfoAt regs))).withEnv e := by
  simp only [fillBrdInfo, readField, perform_eq, call_bind, ret_bind, setBrdInfo_eq]
  iterate 4
    apply hE.read
    intro _
    rw [wp_store]
  rw [wp_store]
  apply hE.read
  intro e
  simp only [wp_store, wp_ret, World.updateDev_withEnv, World.withEnv_withEnv,
    World.updateDev_updateDev, mapBrdInfo_comp_assoc]
  exact ⟨e, rfl⟩

theorem pciedevGetBrdinfo_wp (hreads : base ≠ none → Reads E base regs)
    (hbase : (w.pciedevDevM dev).memmoryBase 0 = base) :
    (pciedevGetBrdinfo dev).wp (driver E) w fun _ r u => r = (boardKind base (regs 0)).code ∧
      ∃ e, u =
        (w.updateDev dev fun v => v.withHeader regs (boardKind base (regs 0))).withEnv e := by
  have hcleared : ((w.updateDev dev fun v =>
      { v with startupBrd := 0, shapiBrd := 0, shapiModuleNum := 0 }).pciedevDevM
        dev).memmoryBase 0 =
      base := by
    rw [World.updateDev_self]
    exact hbase
  simp only [pciedevGetBrdinfo, perform_eq, call_bind, ret_bind, wp_store, wp_load]
  rw [hcleared]
  by_cases hnone : base = none
  · have hkind : boardKind base (regs 0) = .unknown := if_pos hnone
    rw [if_pos hnone, hkind]
    exact ⟨rfl, w.env, rfl⟩
  · have hE := hreads hnone
    rw [if_neg hnone]
    apply hE.read
    intro e
    by_cases hdesy : regs 0 = asciiBoardMagicNum ∨ regs 0 = asciiBoardMagicNumL
    · have hkind : boardKind base (regs 0) = .desy := (if_neg hnone).trans (if_pos hdesy)
      rw [if_pos hdesy, hkind]
      simp only [wp_store, wp_bind]
      apply wp_mono (fillBrdInfo_wp hE)
      intro _ _ u hpost
      obtain ⟨e', hu⟩ := hpost
      simp only [World.updateDev_withEnv, World.withEnv_withEnv, World.updateDev_updateDev] at hu
      subst hu
      simp only [wp_load, pure_eq, wp_ret, World.withEnv_pciedevDevM, World.updateDev_self]
      exact ⟨rfl, e', rfl⟩
    · rw [if_neg hdesy]
      by_cases hshapi : regs 0 >>> 16 = shapiMagicDeviceNum
      · have hkind : boardKind base (regs 0) = .shapi :=
          ((if_neg hnone).trans (if_neg hdesy)).trans (if_pos hshapi)
        rw [if_pos hshapi, hkind]
        simp only [wp_store, wp_bind]
        apply wp_mono (fillDeviceInfo_wp hE)
        intro _ _ u hpost
        obtain ⟨e', hu⟩ := hpost
        simp only [World.updateDev_withEnv, World.withEnv_withEnv, World.updateDev_updateDev] at hu
        subst hu
        exact ⟨rfl, e', rfl⟩
      · have hkind : boardKind base (regs 0) = .unknown :=
          ((if_neg hnone).trans (if_neg hdesy)).trans (if_neg hshapi)
        rw [if_neg hshapi, hkind]
        exact ⟨rfl, e, rfl⟩

/-- The counter of modules is the length of their list. -/
def Counted (v : PciedevDev) : Prop := v.shapiModuleNum = v.moduleInfoList.length

theorem readModuleInfo_keeps (baradress : IoAddr) (moduleNum : ℤ) :
    (readModuleInfo dev baradress moduleNum).Only (Keeps PciedevDev.info) := by
  simp [readModuleInfo, Keeps, PciedevDev.info]

variable (dev) in
theorem fillShapiModuleInfo_counted {d : ShapiDeviceInfo} (a : IoAddr) (w : World ε)
    (hw : Counted (w.pciedevDevM dev) ∧ (w.pciedevDevM dev).deviceInfoList = d) :
    (pciedevFillShapiModuleInfo dev a).wp (driver E) w fun _ _ u =>
      Counted (u.pciedevDevM dev) ∧ (u.pciedevDevM dev).deviceInfoList = d := by
  simp only [pciedevFillShapiModuleInfo, perform_eq, call_bind, ret_bind, wp_kernel, wp_ite,
    wp_store, pure_eq, wp_ret]
  intro word e _
  refine ⟨fun _ allocated e' _ => ⟨fun _ => ?_, fun _ => (wp_fault _).mpr trivial⟩, fun _ => hw⟩
  simp only [wp_load, wp_bind]
  apply wp_mono (keeps_wp (readModuleInfo_keeps a _))
  intro _ m u hu
  have hinfo := hu dev
  simp only [World.withEnv_pciedevDevM, World.updateDev_self, PciedevDev.info,
    BoardInfo.mk.injEq] at hinfo
  obtain ⟨-, -, -, hdevice, hlist, hnum⟩ := hinfo
  simp only [wp_store, wp_ret, World.updateDev_self, Counted, hlist, hnum, List.length_cons,
    Nat.cast_succ]
  exact ⟨congrArg (· + 1) hw.1, hdevice.trans hw.2⟩

theorem pciedevGetShapiModuleInfo_counted (fuel : ℕ)
    (hempty : (w.pciedevDevM dev).moduleInfoList = []) :
    (pciedevGetShapiModuleInfo fuel dev).wp (driver E) w fun _ _ u => Counted (u.pciedevDevM dev) ∧
      (u.pciedevDevM dev).deviceInfoList = (w.pciedevDevM dev).deviceInfoList := by
  simp only [pciedevGetShapiModuleInfo, perform_eq, call_bind, ret_bind, wp_store, wp_load, wp_bind]
  refine wp_mono (discover_inv (fillShapiModuleInfo_counted dev) dev fuel _ ⟨?_, rfl⟩) ?_
  · simp [Counted, hempty]
  · intro _ _ u hu
    refine ⟨hu.1, hu.2.trans ?_⟩
    simp

/-- The numeric fields of the device information have the contents of the header, and the number of
modules is the given one. -/
structure Unaltered (regs : ℤ → UInt32) (modules : ℕ) (v : PicmgShapiDeviceInfo) : Prop where
  shapiVersion : v.shapiVersion = regs 0x00 &&& 0xFFFF
  shapiFirstModuleAddress : v.shapiFirstModuleAddress = regs 0x04
  shapiHwIds : v.shapiHwIds = regs 0x08
  shapiFwIds : v.shapiFwIds = regs 0x0C
  shapiFwVersion : v.shapiFwVersion = regs 0x10
  shapiFwTimestamp : v.shapiFwTimestamp = regs 0x14
  shapiFwName : v.shapiFwName = ![regs 0x18, regs 0x1C, regs 0x20]
  shapiDeviceCap : v.shapiDeviceCap = regs 0x24
  shapiDeviceStatus : v.shapiDeviceStatus = regs 0x28
  shapiDeviceControl : v.shapiDeviceControl = regs 0x2C
  shapiIrqMask : v.shapiIrqMask = regs 0x30
  shapiIrqFlag : v.shapiIrqFlag = regs 0x34
  shapiIrqActive : v.shapiIrqActive = regs 0x38
  shapiScratchRegister : v.shapiScratchRegister = regs 0x3C
  numberOfModules : v.numberOfModules = modules

/-- Only the hardware ids can differ from their register: the reply has the firmware ids there. -/
theorem shapiDevInfo_unaltered {v : PciedevDev} {old : ShapiDeviceInfo}
    (hdevice : v.deviceInfoList = deviceInfoAt regs old) (hcounted : Counted v)
    (padding : BitVec 24) :
    Unaltered regs v.moduleInfoList.length (shapiDevInfo v padding) ↔ regs 0x08 = regs 0x0C := by
  have hids : (shapiDevInfo v padding).shapiHwIds = regs 0x0C :=
    congrArg ShapiDeviceInfo.shapiFwIds hdevice
  constructor
  · intro h
    exact h.shapiHwIds.symm.trans hids
  · intro heq
    have hnum : (shapiDevInfo v padding).numberOfModules = v.moduleInfoList.length := hcounted
    unfold shapiDevInfo at hids hnum ⊢
    rw [hdevice]
    constructor
    all_goals first | exact hnum | exact heq.symm | rfl

section
variable {dev : PciDev} {b : Entry} {res : Bar → BarResource} {map : Bar → IoPtr}

theorem probeInfo_shapi (fuel : ℕ) (hregs : Reads E base regs)
    (hbase : (w.pciedevDevM b).memmoryBase 0 = base)
    (hkind : boardKind base (regs 0) = .shapi) (hempty : (w.pciedevDevM b).moduleInfoList = []) :
    (probeInfo fuel b).wp (driver E) w fun _ _ u => Counted (u.pciedevDevM b) ∧
      (u.pciedevDevM b).deviceInfoList = deviceInfoAt regs (w.pciedevDevM b).deviceInfoList := by
  simp only [probeInfo, perform_eq, call_bind, ret_bind, wp_store, wp_bind]
  refine wp_mono (pciedevGetBrdinfo_wp (fun _ => hregs) ?_) fun _ tmpInfo u hpost => ?_
  · rwa [World.updateDev_self]
  · obtain ⟨hcode, e, hu⟩ := hpost
    rw [hkind] at hcode hu
    subst hcode
    rw [if_neg (by decide), if_pos (by rfl), wp_bind]
    have hentry : u.pciedevDevM b =
        { w.pciedevDevM b with enblIrqNum := 0, deviceIrqNum := 0 }.withHeader regs .shapi := by
      rw [hu]
      simp only [World.withEnv_pciedevDevM, World.updateDev_self]
    refine wp_mono (pciedevGetShapiModuleInfo_counted fuel ?_) fun _ _ u' hpost => ?_
    · rw [hentry]
      exact hempty
    · obtain ⟨hcounted, hdevice⟩ := hpost
      refine ⟨hcounted, hdevice.trans ?_⟩
      rw [hentry]
      rfl

/-- After the probe of a SHAPI board the answer to `PCIEDEV_GET_SHAPI_DEVINFO` shows the header
unaltered exactly when its hardware ids are its firmware ids. -/
theorem device_info_unaltered {n : ℤ} {fuel : ℕ} {tr : Trace} {u : World ε}
    (hbars : Bars E dev res map) (hpresent : (res 0).Present) (hmapped : map 0 ≠ none)
    (hregs : Reads E (map 0) regs) (hshapi : regs 0 >>> 16 = shapiMagicDeviceNum)
    (hfresh : (w.pciedevDevM b).moduleInfoList = [])
    (hrun : (pciedevProbeExp fuel dev n).Run (driver E) w tr (0, b.val) u) :
    (∀ v, DevinfoReply u b v → Unaltered regs (u.pciedevDevM b).moduleInfoList.length v) ↔
      regs 0x08 = regs 0x0C := by
  have hbase (x : World ε) (hx : BarsFilled res map (x.pciedevDevM b)) :
      (x.pciedevDevM b).memmoryBase 0 = map 0 := by
    rw [hx.memmoryBase, if_pos hpresent]
  have hkind : boardKind (map 0) (regs 0) = .shapi := by
    have hdesy : ¬ (regs 0 = asciiBoardMagicNum ∨ regs 0 = asciiBoardMagicNumL) := by
      rintro (h | h) <;> rw [h] at hshapi <;> exact absurd hshapi (by decide)
    unfold boardKind
    rw [if_neg hmapped, if_neg hdesy, if_pos hshapi]
  have hprobe : (pciedevProbeExp fuel dev n).wp (driver E) w fun _ r u => r = (0, b.val) →
      Counted (u.pciedevDevM b) ∧
        ∃ old, (u.pciedevDevM b).deviceInfoList = deviceInfoAt regs old := by
    refine wp_mono (pciedevProbeExp_entry (Q := fun b' err u => b' = b → err = 0 →
      Counted (u.pciedevDevM b) ∧ ∃ old, (u.pciedevDevM b).deviceInfoList = deviceInfoAt regs old)
      fuel dev n ?_) ?_
    · intro b' _ _
      by_cases hb : b' = b
      · subst hb
        have hinfo := probeEntry_filled_wp (w := w) (b := b') hbars (R := fun i =>
          i.shapiModuleNum = i.moduleInfoList.length ∧
            ∃ old, i.deviceInfoList = deviceInfoAt regs old)
          fuel n fun x hx hfilled => by
            have hempty : (x.pciedevDevM b').moduleInfoList = [] :=
              (congrArg BoardInfo.moduleInfoList hx).trans hfresh
            apply wp_mono (probeInfo_shapi fuel hregs (hbase x hfilled) hkind hempty)
            exact fun _ _ y hy => ⟨hy.1, _, hy.2⟩
        exact wp_mono hinfo fun _ err u hfound _ herr => (hfound herr).1
      · exact wp_of_forall fun _ _ _ h => absurd h hb
    · rintro _ r u (⟨hr, _⟩ | ⟨b', _, hb', hQ⟩) heq
      · subst hr
        have hfailed : (-1 : ℤ) = 0 := congrArg Prod.fst heq
        exact absurd hfailed (by decide)
      · subst heq
        exact hQ (Fin.ext hb'.symm) rfl
  obtain ⟨hcounted, old, hdevice⟩ := hrun.of_wp hprobe rfl
  constructor
  · intro h
    have hreply := (told_devinfo u b _).mpr ⟨0, rfl⟩
    exact (shapiDevInfo_unaltered hdevice hcounted 0).mp (h _ hreply)
  · intro heq v hv
    obtain ⟨padding, rfl⟩ := (told_devinfo u b v).mp hv
    exact (shapiDevInfo_unaltered hdevice hcounted padding).mpr heq

end

/-- A SHAPI board without modules whose registers differ, but for the ids. -/
def labelledBoard : Outcome :=
  { register := fun off => if off = 0 then 0x53480001 else if off = 4 then 0
      else if off = 8 then 0x0C else .ofNat off.toNat }

theorem Outcome.reads (o : Outcome) : Reads o.environment (some 1) o.register :=
  fun _ _ _ _ h => (Prod.mk.inj (Option.some.inj h)).1.symm

set_option maxRecDepth 8000 in
theorem device_info_unaltered_sameIds : ∃ (w u : World Unit) (tr : Trace),
    (pciedevProbeExp 3 0 0).Run (driver labelledBoard.environment) w tr ((0 : ℤ), 0) u ∧
    ∀ v, DevinfoReply u 0 v →
      Unaltered labelledBoard.register (u.pciedevDevM 0).moduleInfoList.length v := by
  obtain ⟨_, w, tr, u, _, hfresh, hprobe⟩ :
      ∃ (tr₀ : Trace) (w : World Unit) (tr : Trace) (u : World Unit),
      upciedevInitModuleExp.Run (driver labelledBoard.environment) (.uniform {}) tr₀ 0 w ∧
      (w.pciedevDevM 0).moduleInfoList = [] ∧
      (pciedevProbeExp 3 0 0).Run (driver labelledBoard.environment) w tr ((0 : ℤ), 0) u :=
    ⟨_, _, _, _, run_of_answers labelledBoard.answers (fun _ _ _ _ h => h) rfl, rfl,
      run_of_answers labelledBoard.answers (fun _ _ _ _ h => h) rfl⟩
  have hunaltered := device_info_unaltered (b := 0) (labelledBoard.bars 0) (by decide) (by simp)
    labelledBoard.reads (by decide) hfresh hprobe
  exact ⟨w, u, tr, hprobe, hunaltered.mpr (by decide)⟩

/-- A SHAPI board without modules whose firmware ids are 0. -/
def shapiBoard (hwIds : UInt32) : Outcome :=
  { register := fun off => if off = 0 then 0x53480001 else if off = 8 then hwIds else 0 }

set_option maxRecDepth 8000 in
/-- A client is told that hardware ids 1 are 0. -/
theorem hw_ids_overwritten : ∃ (tr₀ tr : Trace) (w u : World Unit) (v : PicmgShapiDeviceInfo),
    upciedevInitModuleExp.Run (driver (shapiBoard 1).environment) (.uniform {}) tr₀ 0 w ∧
    (pciedevProbeExp 3 0 0).Run (driver (shapiBoard 1).environment) w tr ((0 : ℤ), 0) u ∧
    DevinfoReply u 0 v ∧
    ¬ Unaltered (shapiBoard 1).register (u.pciedevDevM 0).moduleInfoList.length v := by
  obtain ⟨tr₀, tr, w, u, hset, hprobe, hids⟩ : ∃ (tr₀ tr : Trace) (w u : World Unit),
      upciedevInitModuleExp.Run (driver (shapiBoard 1).environment) (.uniform {}) tr₀ 0 w ∧
      (pciedevProbeExp 3 0 0).Run (driver (shapiBoard 1).environment) w tr ((0 : ℤ), 0) u ∧
      (u.pciedevDevM 0).deviceInfoList.shapiFwIds = 0 :=
    ⟨_, _, _, _, run_of_answers (shapiBoard 1).answers (fun _ _ _ _ h => h) rfl,
      run_of_answers (shapiBoard 1).answers (fun _ _ _ _ h => h) rfl, rfl⟩
  have hreply := (told_devinfo u 0 _).mpr ⟨0, rfl⟩
  refine ⟨tr₀, tr, w, u, _, hset, hprobe, hreply, fun h => ?_⟩
  have hwrong : (u.pciedevDevM 0).deviceInfoList.shapiFwIds = 1 := h.shapiHwIds
  rw [hids] at hwrong
  exact absurd hwrong (by decide)

end Upciedev
