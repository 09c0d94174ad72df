import Upciedev.Boards.DeviceUses

/-!
# PCI devices from probe to remove

In every run of the driver each device is used by the rules of the PCI core, and what is held of it
is what the entry of its board records. Entries without a board record no mappings.
-/
namespace Upciedev

open Foundations Program

variable {ε α : Type} {E : Environment ε} {w u : World ε}

/-- The set-up of a client driver, then probes, removes, requests for interrupt lines and calls on
files, one after the other in any order. A device is probed only while no board is in it and removed
only while one is; the boards are those whose probe succeeded and which were not removed since. -/
inductive DriverRun (E : Environment ε) : World ε → (PciDev → Option Entry) → Trace → Prop
  | setUp {w u : World ε} {tr : Trace} (hrun : upciedevInitModuleExp.Run (driver E) w tr 0 u) :
      DriverRun E u (fun _ => none) tr
  | probed {w u : World ε} {boards : PciDev → Option Entry} {tr tr' : Trace} {fuel : ℕ}
      {dev : PciDev}
      {tmpParentNum : ℤ} {b : Entry} (h : DriverRun E w boards tr) (hdev : boards dev = none)
      (hrun : (pciedevProbeExp fuel dev tmpParentNum).Run (driver E) w tr' (0, b.val) u) :
      DriverRun E u (Function.update boards dev (some b)) (tr ++ tr')
  | refused {w u : World ε} {boards : PciDev → Option Entry} {tr tr' : Trace} {fuel : ℕ}
      {dev : PciDev}
      {tmpParentNum err : ℤ} {brdNum : ℕ} (h : DriverRun E w boards tr) (hdev : boards dev = none)
      (hrun : (pciedevProbeExp fuel dev tmpParentNum).Run (driver E) w tr' (err, brdNum) u)
      (hne : err ≠ 0) : DriverRun E u boards (tr ++ tr')
  | removed {w u : World ε} {boards : PciDev → Option Entry} {tr tr' : Trace} {fuel : ℕ}
      {dev : PciDev}
      {b : Entry} {result : ℤ} (h : DriverRun E w boards tr) (hdev : boards dev = some b)
      (hrun : (pciedevRemoveExp fuel dev).Run (driver E) w tr' result u) :
      DriverRun E u (Function.update boards dev none) (tr ++ tr')
  | interrupt {w u : World ε} {boards : PciDev → Option Entry} {tr tr' : Trace} {b : Entry}
      {num : ℕ} {result : ℤ} (h : DriverRun E w boards tr)
      (hrun : (pciedevSetupInterrupt b num).Run (driver E) w tr' result u) :
      DriverRun E u boards (tr ++ tr')
  | call {w u : World ε} {boards : PciDev → Option Entry} {tr tr' : Trace} {retval : ℤ}
      (h : DriverRun E w boards tr) (c : FileCall)
      (hrun : c.program.Run (driver E) w tr' retval u) :
      DriverRun E u boards (tr ++ tr')

/-- What has to be held of each device: the mappings that the entry of its board records. -/
def heldFor (w : World ε) (boards : PciDev → Option Entry) (dev : PciDev) : Held :=
  (boards dev).elim .nothing fun b => .regions (w.pciedevDevM b).mapped

/-- Devices and entries of boards know each other. -/
structure BoardOf (w : World ε) (dev : PciDev) (b : Entry) : Prop where
  notNull : b ≠ nullEntry
  binded : (w.pciedevDevM b).binded ≠ 0
  drvdata : w.drvdata dev = some b
  pciedevPciDev : (w.pciedevDevM b).pciedevPciDev = dev

/-- What every run of the driver keeps. -/
structure DeviceInv (w : World ε) (boards : PciDev → Option Entry) (tr : Trace) : Prop where
  nullBound : (w.pciedevDevM nullEntry).binded ≠ 0
  paired dev b : boards dev = some b → BoardOf w dev b
  unmapped d : (∀ dev, boards dev ≠ some d) → ∀ i, (w.pciedevDevM d).memmoryBase i = none
  obeyed : pciRules.Obeyed .nothing (pciLog tr) (heldFor w boards)

section
variable {boards : PciDev → Option Entry} {dev : PciDev} {b : Entry} {tr tr' : Trace}

theorem DeviceInv.entry_unique (h : DeviceInv w boards tr) {dev' : PciDev}
    (hb : boards dev = some b) (hb' : boards dev' = some b) : dev = dev' :=
  (h.paired _ _ hb).pciedevPciDev.symm.trans (h.paired _ _ hb').pciedevPciDev

theorem DeviceInv.stay (h : DeviceInv w boards tr) (hunused : pciLog tr' = [])
    (hdevice : ∀ d, (u.pciedevDevM d).device = (w.pciedevDevM d).device)
    (hbinded : ∀ d, (u.pciedevDevM d).binded = (w.pciedevDevM d).binded)
    (hdrv : u.drvdata = w.drvdata) :
    DeviceInv u boards (tr ++ tr') where
  nullBound := by rw [hbinded]; exact h.nullBound
  paired dev b hb := by
    obtain ⟨hnull, hbound, hdata, hdev⟩ := h.paired dev b hb
    refine ⟨hnull, by rwa [hbinded], by rwa [hdrv], ?_⟩
    exact (congrArg Prod.snd (hdevice b)).trans hdev
  unmapped d hd i := by
    rw [show (u.pciedevDevM d).memmoryBase = _ from congrArg Prod.fst (hdevice d)]
    exact h.unmapped d hd i
  obeyed := by
    rw [pciLog_append, hunused, List.append_nil]
    have hheld : heldFor u boards = heldFor w boards := by
      funext dev
      unfold heldFor
      cases boards dev with
      | none => rfl
      | some b => exact congrArg Held.regions (mapped_congr (hdevice b))
    rw [hheld]
    exact h.obeyed

theorem deviceInv_setUp (hrun : upciedevInitModuleExp.Run (driver E) w tr 0 u) :
    DeviceInv u (fun _ => none) tr := by
  obtain ⟨-, htable⟩ := hrun.of_wp upciedevInitModuleExp_wp rfl
  constructor
  · rw [htable nullEntry]
    simp [initEntry]
  · exact fun _ _ h => absurd h (Option.some_ne_none _ ∘ Eq.symm)
  · intro d _ i
    rw [htable d]
    rfl
  · rw [pciLog_unused (upciedevInitModuleExp_noDevice.run hrun)]
    exact Rules.Obeyed.nil

theorem DeviceInv.uses {s : Held} (h : DeviceInv w boards tr)
    (halong : HeldAlong dev (heldFor w boards dev) s tr') :
    pciRules.Obeyed .nothing (pciLog (tr ++ tr')) (Function.update (heldFor w boards) dev s) :=
  h.obeyed.along halong

theorem DeviceInv.probe (h : DeviceInv w boards tr) {fuel : ℕ} {tmpParentNum err : ℤ} {brdNum : ℕ}
    (hrun : (pciedevProbeExp fuel dev tmpParentNum).Run (driver E) w tr' (err, brdNum) u) :
    ∃ b : Entry, brdNum = b.val ∧ b ≠ nullEntry ∧ (w.pciedevDevM b).binded = 0 ∧
      ProbeEnd b dev w tr' err u ∧ ProbeUses b dev tr' err u := by
  obtain ⟨b, hnull, hfree, hnum, hend, -⟩ :=
    (hrun.of_wp (pciedevProbeExp_wp fuel dev tmpParentNum)).resolve_left h.nullBound
  obtain ⟨b', hnum', huses⟩ :=
    (hrun.of_wp (pciedevProbeExp_uses fuel dev tmpParentNum)).resolve_left h.nullBound
  obtain rfl : b = b' := Fin.ext (hnum.symm.trans hnum')
  exact ⟨b, hnum, hnull, hfree, hend, huses⟩

/-- The entry of a board is bound, so it is not the one that a probe takes. -/
theorem DeviceInv.other (h : DeviceInv w boards tr) (hfree : (w.pciedevDevM b).binded = 0)
    {dev' : PciDev} {b' : Entry} (hb' : boards dev' = some b') : b' ≠ b := by
  rintro rfl
  exact (h.paired _ _ hb').binded hfree

theorem DeviceInv.nullOther (h : DeviceInv w boards tr) (hfree : (w.pciedevDevM b).binded = 0) :
    nullEntry ≠ b := by
  rintro rfl
  exact h.nullBound hfree

theorem heldFor_congr {boards' : PciDev → Option Entry} {dev' : PciDev}
    (hboards : boards' dev' = boards dev')
    (hentry : ∀ b', boards dev' = some b' → u.pciedevDevM b' = w.pciedevDevM b') :
    heldFor u boards' dev' = heldFor w boards dev' := by
  unfold heldFor
  rw [hboards]
  cases hb : boards dev' with
  | none => rfl
  | some b' => simp [hentry b' hb]

theorem DeviceInv.probed (h : DeviceInv w boards tr) (hdev : boards dev = none) {fuel : ℕ}
    {tmpParentNum : ℤ}
    (hrun : (pciedevProbeExp fuel dev tmpParentNum).Run (driver E) w tr' (0, b.val) u) :
    DeviceInv u (Function.update boards dev (some b)) (tr ++ tr') := by
  obtain ⟨b', hnum, hnull, hfree, hend, huses⟩ := h.probe hrun
  obtain rfl : b = b' := Fin.ext hnum
  have hbound : Bound b dev w u := by
    cases hend with
    | disabled hne | unclaimed hne => exact absurd rfl hne
    | bound hbound => exact hbound
  obtain ⟨-, halong, hpci⟩ := huses.resolve_right fun hfailed => hfailed.1 rfl
  constructor
  · rw [hbound.others _ (h.nullOther hfree)]
    exact h.nullBound
  · intro dev' b' hb'
    by_cases hsame : dev' = dev
    · subst hsame
      rw [Function.update_self] at hb'
      obtain rfl := Option.some_injective _ hb'
      exact ⟨hnull, by rw [hbound.binded]; exact one_ne_zero, by rw [hbound.drvdata,
        Function.update_self], hpci⟩
    · rw [Function.update_of_ne hsame] at hb'
      obtain ⟨hnull', hbinded', hdrv', hpci'⟩ := h.paired _ _ hb'
      have hentry := hbound.others b' (h.other hfree hb')
      exact ⟨hnull', by rwa [hentry], by rwa [hbound.drvdata,
        Function.update_of_ne hsame], by rwa [hentry]⟩
  · intro d hd i
    have hdb : d ≠ b := by
      rintro rfl
      exact hd dev (Function.update_self ..)
    rw [hbound.others d hdb]
    refine h.unmapped d (fun dev' hdev' => ?_) i
    have hsame : dev' ≠ dev := by
      rintro rfl
      exact absurd (hdev.symm.trans hdev') (Option.some_ne_none _ ∘ Eq.symm)
    exact hd dev' ((Function.update_of_ne hsame _ _).trans hdev')
  · have hstart : heldFor w boards dev = .nothing := by
      rw [heldFor, hdev]
      rfl
    have hheld : heldFor u (Function.update boards dev (some b)) =
        Function.update (heldFor w boards) dev (.regions (u.pciedevDevM b).mapped) := by
      funext dev'
      by_cases hsame : dev' = dev
      · subst hsame
        rw [heldFor, Function.update_self, Function.update_self]
        rfl
      · rw [Function.update_of_ne hsame]
        apply heldFor_congr (Function.update_of_ne hsame _ _)
        exact fun b' hb' => hbound.others b' (h.other hfree hb')
    rw [hheld]
    exact h.uses (hstart ▸ halong)

theorem DeviceInv.refused (h : DeviceInv w boards tr) (hdev : boards dev = none) {fuel : ℕ}
    {tmpParentNum err : ℤ} {brdNum : ℕ}
    (hrun : (pciedevProbeExp fuel dev tmpParentNum).Run (driver E) w tr' (err, brdNum) u)
    (hne : err ≠ 0) :
    DeviceInv u boards (tr ++ tr') := by
  obtain ⟨b, -, -, hfree, hend, huses⟩ := h.probe hrun
  obtain ⟨-, halong⟩ := huses.resolve_left fun hdone => hne hdone.1
  obtain ⟨hothers, hbase, hdrv⟩ : (∀ d, d ≠ b → u.pciedevDevM d = w.pciedevDevM d) ∧
      (u.pciedevDevM b).memmoryBase = (w.pciedevDevM b).memmoryBase ∧
        ∀ dev', dev' ≠ dev → u.drvdata dev' = w.drvdata dev' := by
    cases hend with
    | disabled _ _ hu =>
      subst hu
      exact ⟨fun d hd => by simp [World.updateDev, hd], by simp, fun _ _ => rfl⟩
    | unclaimed _ hu =>
      subst hu
      exact ⟨fun d hd => by simp [World.updateDev, hd], by simp, fun dev' hdev' => by simp [hdev']⟩
    | bound => exact absurd rfl hne
  have hotherDev {dev' : PciDev} {b' : Entry} (hb' : boards dev' = some b') : dev' ≠ dev := by
    rintro rfl
    exact absurd (hdev.symm.trans hb') (Option.some_ne_none _ ∘ Eq.symm)
  constructor
  · rw [hothers _ (h.nullOther hfree)]
    exact h.nullBound
  · intro dev' b' hb'
    obtain ⟨hnull', hbinded', hdrv', hpci'⟩ := h.paired _ _ hb'
    have hentry := hothers b' (h.other hfree hb')
    exact ⟨hnull', by rwa [hentry], by rwa [hdrv _ (hotherDev hb')], by rwa [hentry]⟩
  · intro d hd i
    by_cases hdb : d = b
    · subst hdb
      rw [hbase]
      exact h.unmapped d hd i
    · rw [hothers d hdb]
      exact h.unmapped d hd i
  · have hstart : heldFor w boards dev = .nothing := by
      rw [heldFor, hdev]
      rfl
    have hheld : heldFor u boards = Function.update (heldFor w boards) dev .nothing := by
      rw [← hstart, Function.update_eq_self]
      exact funext fun dev' => heldFor_congr rfl fun b' hb' => hothers b' (h.other hfree hb')
    rw [hheld]
    exact h.uses (hstart ▸ halong)

theorem foldl_unmap_memmoryBase (v : PciedevDev) (bars : List Bar) (i : Bar) :
    (bars.foldl PciedevDev.unmap v).memmoryBase i = if i ∈ bars then none else v.memmoryBase i := by
  have hunmap (v : PciedevDev) (j : Bar) :
      (v.unmap j).memmoryBase i = if i = j then none else v.memmoryBase i := by
    unfold PciedevDev.unmap
    split_ifs with hnone hij hij
    · rw [hij, hnone]
    · rfl
    · rw [hij]
      exact Function.update_self ..
    · exact Function.update_of_ne hij ..
  induction bars generalizing v with
  | nil => simp
  | cons j bars ih =>
    rw [List.foldl_cons, ih, hunmap]
    by_cases hi : i ∈ bars <;> by_cases hj : i = j <;> simp [hi, hj]

theorem Removed.unmapped (h : Removed b w u) (i : Bar) :
    (u.pciedevDevM b).memmoryBase i = none := by
  rw [h.pciedevDevM b, World.updateDev_self]
  apply (foldl_unmap_memmoryBase _ _ i).trans
  rw [if_pos (List.mem_finRange i)]

theorem DeviceInv.removed (h : DeviceInv w boards tr) (hdev : boards dev = some b) {fuel : ℕ}
    {result : ℤ} (hrun : (pciedevRemoveExp fuel dev).Run (driver E) w tr' result u) :
    DeviceInv u (Function.update boards dev none) (tr ++ tr') := by
  obtain ⟨hnull, -, hdrv, hpci⟩ := h.paired _ _ hdev
  have hremoved := hrun.of_wp (pciedevRemoveExp_wp fuel dev hdrv)
  have halong := hrun.of_wp (pciedevRemoveExp_uses fuel hdrv hpci)
  have hdevice {d : Entry} (hd : d ≠ b) : (u.pciedevDevM d).device = (w.pciedevDevM d).device := by
    rw [hremoved.pciedevDevM d, World.updateDev_other _ hd]
    rfl
  have hotherEntry {dev' : PciDev} {b' : Entry} (hsame : dev' ≠ dev) (hb' : boards dev' = some b') :
      b' ≠ b := by
    rintro rfl
    exact hsame (h.entry_unique hb' hdev)
  constructor
  · rw [hremoved.binded, if_neg (Ne.symm hnull)]
    exact h.nullBound
  · intro dev' b' hb'
    by_cases hsame : dev' = dev
    · subst hsame
      rw [Function.update_self] at hb'
      exact absurd hb' (Option.some_ne_none _ ∘ Eq.symm)
    · rw [Function.update_of_ne hsame] at hb'
      obtain ⟨hnull', hbinded', hdrv', hpci'⟩ := h.paired _ _ hb'
      have hb := hotherEntry hsame hb'
      refine ⟨hnull', ?_, by rwa [hremoved.drvdata], (congrArg Prod.snd (hdevice hb)).trans hpci'⟩
      rwa [hremoved.binded, if_neg hb]
  · intro d hd i
    by_cases hdb : d = b
    · subst hdb
      exact hremoved.unmapped i
    · rw [show (u.pciedevDevM d).memmoryBase = _ from congrArg Prod.fst (hdevice hdb)]
      refine h.unmapped d (fun dev' hdev' => ?_) i
      have hsame : dev' ≠ dev := by
        rintro rfl
        exact hdb (Option.some_injective _ (hdev'.symm.trans hdev))
      exact hd dev' ((Function.update_of_ne hsame _ _).trans hdev')
  · have hstart : heldFor w boards dev = .regions (w.pciedevDevM b).mapped := by
      rw [heldFor, hdev]
      rfl
    have hheld : heldFor u (Function.update boards dev none) =
        Function.update (heldFor w boards) dev .nothing := by
      funext dev'
      by_cases hsame : dev' = dev
      · subst hsame
        rw [heldFor, Function.update_self, Function.update_self]
        rfl
      · rw [Function.update_of_ne hsame]
        unfold heldFor
        rw [Function.update_of_ne hsame]
        cases hb' : boards dev' with
        | none => rfl
        | some b' => exact congrArg Held.regions (mapped_congr (hdevice (hotherEntry hsame hb')))
    rw [hheld]
    exact h.uses (hstart ▸ halong)

theorem fileCall_keeps (c : FileCall) {retval : ℤ}
    (hrun : c.program.Run (driver E) w tr' retval u) :
    (∀ d, (u.pciedevDevM d).binded = (w.pciedevDevM d).binded) ∧ u.drvdata = w.drvdata := by
  constructor
  · have hkeeps :
        c.program.Only (Keeps PciedevDev.binded) := (fileCall_fileOp c).mono fun op hop => by
      cases op with
      | store d f => exact hop.binded
      | _ => trivial
    exact hrun.of_wp (keeps_wp hkeeps)
  · refine hrun.of_wp ((fileCall_fileOp c).wp_inv (P := fun u => u.drvdata = w.drvdata) ?_ rfl)
    intro op x r y hx hop hstep
    rw [← hx]
    cases op with
    | setDrvdata | setCdev | setBaseRow | setBaseBar => exact hop.elim
    | kernel c =>
      obtain ⟨e, -, rfl⟩ := hstep
      rfl
    | fault f => exact r.elim
    | store d f =>
      rw [show y = x.updateDev d f from hstep]
      rfl
    | setPrivateData | setFPos | note => rw [show y = _ from hstep]
    | _ => rw [hstep.2]

end

theorem DriverRun.inv {boards : PciDev → Option Entry} {tr : Trace} (h : DriverRun E w boards tr) :
    DeviceInv w boards tr := by
  induction h with
  | setUp hrun => exact deviceInv_setUp hrun
  | probed _ hdev hrun ih => exact ih.probed hdev hrun
  | refused _ hdev hrun hne ih => exact ih.refused hdev hrun hne
  | removed _ hdev hrun ih => exact ih.removed hdev hrun
  | interrupt _ hrun ih =>
    obtain ⟨-, -, e, hu⟩ := hrun.of_wp (pciedevSetupInterrupt_wp _)
    obtain ⟨hunused, hdevice⟩ := hrun.of_wp (leavesDevices_wp (pciedevSetupInterrupt_device _ _))
    have hkeeps (b : Entry) (num : ℕ) :
        (pciedevSetupInterrupt b num).Only (Keeps PciedevDev.binded) := by
      simp [pciedevSetupInterrupt, Keeps]
    exact ih.stay hunused hdevice (hrun.of_wp (keeps_wp (hkeeps _ _))) (by rw [hu]; rfl)
  | call _ c hrun ih =>
    obtain ⟨hunused, hdevice⟩ := hrun.of_wp (leavesDevices_wp (fileCall_device c))
    obtain ⟨hbinded, hdrv⟩ := fileCall_keeps c hrun
    exact ih.stay hunused hdevice hbinded hdrv

/-- In every run each device is used by the rules of the PCI core, and what is held of it in the end
is what the entry of its board records: nothing, if it has no board. -/
theorem devices_held {boards : PciDev → Option Entry} {tr : Trace} (h : DriverRun E w boards tr) :
    pciRules.Obeyed .nothing (pciLog tr) (heldFor w boards) := h.inv.obeyed

set_option maxRecDepth 8000 in
theorem devices_held_oneBoard : ∃ (w u : World Unit) (tr tr' : Trace),
    DriverRun openEnvironment w (Function.update (fun _ => none) 0 (some 0)) tr ∧
    heldFor w (Function.update (fun _ => none) 0 (some 0)) 0 = .regions {1} ∧
    DriverRun openEnvironment u (fun _ => none) (tr ++ tr') ∧
    pciRules.Obeyed .nothing (pciLog (tr ++ tr')) (heldFor u fun _ => none) := by
  obtain ⟨tr₀, w₀, tr₁, w₁, tr₂, w₂, hset, hprobe, hmapped, hremove⟩ :
      ∃ (tr₀ : Trace) (w₀ : World Unit)
      (tr₁ : Trace) (w₁ : World Unit) (tr₂ : Trace) (w₂ : World Unit),
      upciedevInitModuleExp.Run (driver openEnvironment) (.uniform {}) tr₀ 0 w₀ ∧
      (pciedevProbeExp 0 0 0).Run (driver openEnvironment) w₀ tr₁ ((0 : ℤ), 0) w₁ ∧
      (w₁.pciedevDevM 0).mapped = {1} ∧
      (pciedevRemoveExp 1 0).Run (driver openEnvironment) w₁ tr₂ 0 w₂ :=
    ⟨_, _, _, _, _, _, run_of_answers (Outcome.answers {}) (fun _ _ _ _ _ => trivial) rfl,
      run_of_answers (Outcome.answers {}) (fun _ _ _ _ _ => trivial) rfl, rfl,
      run_of_answers (Outcome.answers {}) (fun _ _ _ _ _ => trivial) rfl⟩
  have hbound := DriverRun.probed (.setUp hset) rfl (b := 0) hprobe
  have hgone := DriverRun.removed hbound (Function.update_self ..) hremove
  rw [Function.update_idem, Function.update_eq_self] at hgone
  refine ⟨w₁, w₂, tr₀ ++ tr₁, tr₂, hbound, ?_, hgone, devices_held hgone⟩
  rw [heldFor, Function.update_self]
  exact congrArg Held.regions hmapped

end Upciedev
