import Upciedev.Boards.DriverLife

/-!
# Numbers of boards

An entry has its board number and its device number from the set-up of the driver on, whatever
boards come and go. A client driver finds the board of a device by the driver data, and its number
in the entry. -/
namespace Upciedev

open Foundations Program

variable {ε α : Type} {E : Environment ε} {w u : World ε} {tr : Trace}

def PciedevDev.numbers (v : PciedevDev) : ℤ × ℤ × ℤ := (v.brdNum, v.devNum, v.nullDev)

def PciedevCdev.region (c : PciedevCdev) : ℤ × ℤ := (c.pciedevMajor, c.pciedevMinor)

def KeepsNumbers : Op → Prop
  | .store _ f => ∀ v, (f v).numbers = v.numbers
  | .setCdev f => ∀ c, (f c).region = c.region
  | _ => True

structure SameNumbers (w u : World ε) : Prop where
  numbers d : (u.pciedevDevM d).numbers = (w.pciedevDevM d).numbers
  region : u.cdev.region = w.cdev.region

theorem SameNumbers.trans {x : World ε} (h : SameNumbers w u) (h' : SameNumbers u x) :
    SameNumbers w x :=
  ⟨fun d => (h'.numbers d).trans (h.numbers d), h'.region.trans h.region⟩

theorem driver_cdev {op : Op} {r : op.Res} (hstep : driver E op w r u) :
    (∃ f, op = .setCdev f ∧ u.cdev = f w.cdev) ∨ u.cdev = w.cdev := by
  cases op with
  | setCdev f =>
    subst hstep
    exact .inl ⟨f, rfl, rfl⟩
  | kernel c =>
    obtain ⟨e, -, rfl⟩ := hstep
    exact .inr rfl
  | fault f => exact r.elim
  | setPrivateData | setFPos | store | setDrvdata | setBaseRow | setBaseBar | note =>
    subst hstep
    exact .inr rfl
  | _ =>
    obtain ⟨-, rfl⟩ := hstep
    exact .inr rfl

theorem keepsNumbers_wp {p : Kernel α} (hp : p.Only KeepsNumbers) :
    p.wp (driver E) w fun _ _ u => SameNumbers w u := by
  refine hp.wp_inv (P := fun u => SameNumbers w u) ?_ ⟨fun _ => rfl, rfl⟩
  intro op x r y hx hop hstep
  constructor
  · intro d
    have hkeeps : Keeps PciedevDev.numbers op := by
      cases op with
      | store => exact hop
      | _ => trivial
    exact (keeps_step hkeeps hstep d).trans (hx.numbers d)
  · rcases driver_cdev hstep with ⟨f, rfl, hcdev⟩ | hcdev
    · rw [hcdev, hop]
      exact hx.region
    · rw [hcdev]
      exact hx.region

section
variable (dev : PciDev) (b : Entry)

theorem probeResources_keepsNumbers (fuel slot : ℕ) (busNumber devNumber : UInt32) :
    (probeResources fuel dev b slot busNumber devNumber).Only KeepsNumbers := by
  have hbars (bars : List Bar) : (probeBars dev b slot bars).Only KeepsNumbers := by
    induction bars with
    | nil => trivial
    | cons i bars ih =>
      apply Only.bind
      · simp [probeBar, KeepsNumbers, PciedevDev.numbers]
      · exact fun _ => ih
  have hprint (slots : List ℕ) : (printBaseTable b slots).Only KeepsNumbers := by
    induction slots with
    | nil => trivial
    | cons slot slots ih => simp [printBaseTable, KeepsNumbers, ih]
  have hbrdinfo : (pciedevGetBrdinfo b).Only KeepsNumbers := by
    simp [pciedevGetBrdinfo, fillBrdInfo, fillDeviceInfo, fillFwName, readField, setBrdInfo,
      setDeviceInfo, KeepsNumbers, PciedevDev.numbers]
  have hprj (a : IoAddr) : (pciedevFillPrjInfo b a).Only KeepsNumbers := by
    simp [pciedevFillPrjInfo, readPrjInfo, setBrdInfo, fault, KeepsNumbers, PciedevDev.numbers]
  have hmodule (a : IoAddr) : (pciedevFillShapiModuleInfo b a).Only KeepsNumbers := by
    simp [pciedevFillShapiModuleInfo, readModuleInfo, fault, KeepsNumbers, PciedevDev.numbers]
  have hinterrupts : (probeInterrupts dev b).Only KeepsNumbers := by
    have hmsi (msiNum : ℤ) : KeepsNumbers (.store b fun v =>
        if 0 ≤ msiNum then { v with msi := 1, irqFlag := v.irqFlag &&& ~~~irqfShared }
        else { v with msi := 0 }) := by
      intro v
      split_ifs <;> rfl
    simp only [probeInterrupts, perform_eq, call_bind, ret_bind, only_call, only_ret, hmsi]
    simp [KeepsNumbers, PciedevDev.numbers]
  apply Only.bind
  · simp [probeDmaMask, probeDma32, setDma64mask, KeepsNumbers, PciedevDev.numbers]
  intro _
  apply Only.bind
  · simp [probeIdentity, KeepsNumbers, PciedevDev.numbers]
  intro _
  apply Only.bind
  · simp [probeBaseTable, KeepsNumbers]
  intro _
  refine (only_call _ _).mpr ⟨fun _ => rfl, fun _ => (hbars _).bind fun _ =>
    (hprint _).bind fun _ => ?_⟩
  apply Only.bind
  · exact (only_call _ _).mpr ⟨fun _ => rfl, fun _ =>
      discovery_only trivial trivial (fun _ => rfl) (fun _ => rfl) hbrdinfo hprj hmodule fuel⟩
  · exact fun _ => hinterrupts

theorem probeEntry_keepsNumbers (fuel : ℕ) (tmpParentNum : ℤ) :
    (probeEntry fuel dev b tmpParentNum).Only KeepsNumbers := by
  have hnumbers : (probeNumbers dev b tmpParentNum).Only KeepsNumbers := by
    simp only [probeNumbers, perform_eq, call_bind, ret_bind, only_call]
    refine ⟨trivial, fun _ => ⟨trivial, fun _ => ⟨trivial, fun _ => ?_⟩⟩⟩
    apply Only.bind
    · simp [probeSlotNum, slotCapOf, KeepsNumbers]
    · simp [KeepsNumbers, PciedevDev.numbers]
  have hcreate (slot : ℕ) : (probeCreate b slot).Only KeepsNumbers := by
    apply Only.bind
    · simp [destroyStale, KeepsNumbers, PciedevDev.numbers]
    · simp [KeepsNumbers, PciedevDev.numbers, PciedevCdev.region]
  simp only [probeEntry, perform_eq, call_bind, ret_bind, only_call, only_ite]
  refine ⟨fun _ => rfl, fun _ =>
    ⟨trivial, fun _ => ⟨fun _ => trivial, fun _ => ⟨trivial, fun _ => ⟨?_, ?_⟩⟩⟩⟩⟩
  · intro _
    apply Only.bind
    · simp [probeRegionsFailed, KeepsNumbers, PciedevDev.numbers]
    · exact fun _ => trivial
  · intro _
    apply Only.bind
    · refine hnumbers.bind fun numbers => (only_call _ _).mpr ⟨trivial, fun _ => ?_⟩
      exact (probeResources_keepsNumbers dev b fuel _ _ _).bind fun _ => hcreate _
    · exact fun _ => trivial

theorem pciedevProbeExp_keepsNumbers (fuel : ℕ) (tmpParentNum : ℤ) :
    (pciedevProbeExp fuel dev tmpParentNum).Only KeepsNumbers := by
  have hfind (ds : List Entry) : (findUnbound ds).Only KeepsNumbers := by
    induction ds with
    | nil => trivial
    | cons d ds ih => simp [findUnbound, KeepsNumbers, ih]
  apply (hfind _).bind
  intro mBrdNum
  split_ifs
  · trivial
  · exact (probeEntry_keepsNumbers dev _ fuel tmpParentNum).bind fun _ => trivial
  · simp [fault, KeepsNumbers]

end

theorem pciedevSetupInterrupt_keepsNumbers (b : Entry) (num : ℕ) :
    (pciedevSetupInterrupt b num).Only KeepsNumbers := by
  simp [pciedevSetupInterrupt, KeepsNumbers, PciedevDev.numbers]

theorem fileCall_keepsNumbers (c : FileCall) : c.program.Only KeepsNumbers :=
  (fileCall_allowed c).mono fun op hop => by
    cases op with
    | store d f =>
      obtain ⟨-, hf, -⟩ := hop
      cases hf <;> exact fun _ => rfl
    | setCdev f => exact hop.elim
    | _ => trivial

theorem Removed.sameNumbers {b : Entry} (h : Removed b w u) : SameNumbers w u := by
  constructor
  · intro d
    have hremoved :
        ((w.updateDev b PciedevDev.removed).pciedevDevM d).numbers = (w.pciedevDevM d).numbers := by
      by_cases hd : d = b
      · subst hd
        obtain ⟨_, _, _, _, _, hunmap⟩ :=
          foldl_unmap_fields { w.pciedevDevM d with prjInfoList := [] } (List.finRange numberOfBars)
        rw [World.updateDev_self, PciedevDev.removed, PciedevDev.unlocked, hunmap]
        rfl
      · rw [World.updateDev_other _ hd]
    rw [h.pciedevDevM d, ← hremoved]
    unfold PciedevDev.orphan
    split_ifs <;> rfl
  · rw [h.cdev]
    rfl

/-- An entry with the numbers that the set-up gave it. -/
structure Numbered (w : World ε) (d : Entry) : Prop where
  brdNum : (w.pciedevDevM d).brdNum = d.val
  devNum : (w.pciedevDevM d).devNum = w.cdev.pciedevMajor * 2 ^ 20 + (w.cdev.pciedevMinor + d.val)
  nullDev : (w.pciedevDevM d).nullDev = if d = nullEntry then 1 else 0

theorem Numbered.congr {d : Entry} (h : Numbered w d) (hsame : SameNumbers w u) : Numbered u d := by
  have hnumbers := hsame.numbers d
  have hregion := hsame.region
  simp only [PciedevDev.numbers, PciedevCdev.region, Prod.mk.injEq] at hnumbers hregion
  obtain ⟨hbrd, hdev, hnull⟩ := hnumbers
  constructor
  · rw [hbrd, h.brdNum]
  · rw [hdev, hregion.1, hregion.2, h.devNum]
  · rw [hnull, h.nullDev]

section
variable {boards : PciDev → Option Entry}

/-- The set-up with which a run of the driver begins, the numbers of which it keeps. -/
theorem DriverRun.sameNumbers (h : DriverRun E w boards tr) : ∃ x w₀ tr₀ tr',
    upciedevInitModuleExp.Run (driver E) x tr₀ 0 w₀ ∧ tr = tr₀ ++ tr' ∧ SameNumbers w₀ w := by
  have hstep {w u : World ε} {tr tr₁ : Trace} (hsame : SameNumbers w u) (hsince : ∃ x w₀ tr₀ tr',
      upciedevInitModuleExp.Run (driver E) x tr₀ 0 w₀ ∧ tr = tr₀ ++ tr' ∧ SameNumbers w₀ w) :
      ∃ x w₀ tr₀ tr', upciedevInitModuleExp.Run (driver E) x tr₀ 0 w₀ ∧ tr ++ tr₁ = tr₀ ++ tr' ∧
        SameNumbers w₀ u := by
    obtain ⟨x, w₀, tr₀, tr', hset, rfl, hkept⟩ := hsince
    exact ⟨x, w₀, tr₀, tr' ++ tr₁, hset, List.append_assoc .., hkept.trans hsame⟩
  induction h with
  | setUp hrun => exact ⟨_, _, _, [], hrun, (List.append_nil _).symm, fun _ => rfl, rfl⟩
  | probed _ _ hrun ih | refused _ _ hrun _ ih =>
    exact hstep (hrun.of_wp (keepsNumbers_wp (pciedevProbeExp_keepsNumbers _ _ _))) ih
  | removed h hdev hrun ih =>
    exact hstep
      (hrun.of_wp (pciedevRemoveExp_wp _ _ (h.inv.paired _ _ hdev).drvdata)).sameNumbers ih
  | interrupt _ hrun ih =>
    exact hstep (hrun.of_wp (keepsNumbers_wp (pciedevSetupInterrupt_keepsNumbers _ _))) ih
  | call _ c hrun ih => exact hstep (hrun.of_wp (keepsNumbers_wp (fileCall_keepsNumbers c))) ih

/-- In every run the board of a device is found by the driver data, under the number that its probe
told, and no two entries have a board number or a device number in common. All these numbers, and
the region of the device numbers, are those of the set-up with which the run began. -/
theorem board_numbers (h : DriverRun E w boards tr) :
    (∃ x w₀ tr₀ tr', upciedevInitModuleExp.Run (driver E) x tr₀ 0 w₀ ∧ tr = tr₀ ++ tr' ∧
      SameNumbers w₀ w) ∧
    (∀ d, Numbered w d) ∧
    (∀ d d', d ≠ d' → (w.pciedevDevM d).brdNum ≠ (w.pciedevDevM d').brdNum ∧
      (w.pciedevDevM d).devNum ≠ (w.pciedevDevM d').devNum) ∧
    ∀ dev b, boards dev = some b → (w.pciedevDevM b).nullDev = 0 ∧
      ((pciedevGetPciedata dev).twp (driver E) w fun _ r u => r = some b ∧ u = w) ∧
      (pciedevGetBrdnum dev).twp (driver E) w fun _ r u => r = b.val ∧ u = w := by
  obtain ⟨x, w₀, tr₀, tr', hset, -, hsame⟩ := h.sameNumbers
  have hnumbered (d : Entry) : Numbered w d := by
    refine Numbered.congr ?_ hsame
    obtain ⟨-, htable⟩ := hset.of_wp upciedevInitModuleExp_wp rfl
    constructor <;> rw [htable d] <;> rfl
  refine ⟨h.sameNumbers, hnumbered, fun d d' hne => ⟨?_, ?_⟩, fun dev b hb => ⟨?_, ?_, ?_⟩⟩
  · rw [(hnumbered d).brdNum, (hnumbered d').brdNum]
    exact fun heq => hne (Fin.ext (Int.ofNat_inj.mp heq))
  · rw [(hnumbered d).devNum, (hnumbered d').devNum]
    exact fun heq => hne (Fin.ext (by omega))
  · rw [(hnumbered b).nullDev, if_neg (h.inv.paired _ _ hb).notNull]
  · simp only [pciedevGetPciedata, perform_eq, twp_drvdata, twp_ret]
    exact ⟨(h.inv.paired _ _ hb).drvdata, trivial⟩
  · simp only [pciedevGetBrdnum, perform_eq, call_bind, ret_bind, twp_drvdata,
      (h.inv.paired _ _ hb).drvdata, twp_load, pure_eq, twp_ret]
    exact ⟨(hnumbered b).brdNum, trivial⟩

set_option maxRecDepth 8000 in
theorem board_numbers_oneBoard : ∃ (w : World Unit) (tr : Trace),
    DriverRun openEnvironment w (Function.update (fun _ => none) 0 (some 0)) tr ∧
    (pciedevGetBrdnum 0).twp (driver openEnvironment) w fun _ r u => r = 0 ∧ u = w := by
  obtain ⟨tr₀, w₀, tr₁, w₁, hset, hprobe⟩ :
      ∃ (tr₀ : Trace) (w₀ : World Unit) (tr₁ : Trace) (w₁ : World Unit),
      upciedevInitModuleExp.Run (driver openEnvironment) (.uniform {}) tr₀ 0 w₀ ∧
      (pciedevProbeExp 0 0 0).Run (driver openEnvironment) w₀ tr₁ ((0 : ℤ), 0) w₁ :=
    ⟨_, _, _, _, run_of_answers (Outcome.answers {}) (fun _ _ _ _ _ => trivial) rfl,
      run_of_answers (Outcome.answers {}) (fun _ _ _ _ _ => trivial) rfl⟩
  have hrun := DriverRun.probed (.setUp hset) rfl (b := 0) hprobe
  obtain ⟨-, -, -, hboard⟩ := board_numbers hrun
  exact ⟨w₁, tr₀ ++ tr₁, hrun, (hboard 0 0 (Function.update_self ..)).2.2⟩

end

end Upciedev
