import Upciedev.Access.DataEvents
import Upciedev.Model.Module

/-!
# What a remove does

The whole effect of `pciedev_remove_exp` on the driver data, as one function of the state
before it. Entering the region always succeeds with a mutex, so the waiting loop makes one
round.
-/
namespace Upciedev

open Foundations Program

variable {ε : Type} {E : Environment ε} {w : World ε}

theorem Op.Steady.step {op : Op} {r : op.Res} {u : World ε} (hop : op.Steady)
    (hstep : driver E op w r u) : ∃ e, u = w.withEnv e := by
  cases op with
  | kernel c =>
    obtain ⟨e, -, rfl⟩ := hstep
    exact ⟨e, rfl⟩
  | note n => exact ⟨w.env, hstep⟩
  | fault f => exact r.elim
  | setPrivateData | setFPos | store | setCdev | setDrvdata | setBaseRow | setBaseBar =>
    exact hop.elim
  | _ => exact ⟨w.env, hstep.2⟩

theorem wp_steady {α : Type} {p : Kernel α} (hp : p.Only Op.Steady) :
    p.wp (driver E) w fun _ _ u => ∃ e, u = w.withEnv e := by
  refine hp.wp_inv (P := fun u => ∃ e, u = w.withEnv e) ?_ ⟨w.env, rfl⟩
  rintro op s r s' ⟨e, rfl⟩ hop hstep
  obtain ⟨e', rfl⟩ := hop.step hstep
  exact ⟨e', rfl⟩

theorem freeIrqs_steady (d : Entry) (is : List ℕ) : (freeIrqs d is).Only Op.Steady := by
  induction is with
  | nil => trivial
  | cons i is ih => simp [freeIrqs, Op.Steady, ih]

theorem removeInterrupts_steady (d : Entry) : (removeInterrupts d).Only Op.Steady := by
  have hmsi : Only Op.Steady (do
      let v ← load d
      if v.msi ≠ 0 then kernel (.pciDisableMsi v.pciedevPciDev) else pure ()) := by
    simp [Op.Steady]
  simp only [removeInterrupts, perform_eq, call_bind, ret_bind, only_call, only_ite]
  refine ⟨trivial, fun v => ⟨fun _ => ?_, fun _ => by simp [Op.Steady]⟩⟩
  · exact (freeIrqs_steady d _).bind fun _ => hmsi

/-- A row of the slot table with the listed BARs zeroed. -/
def UpciedevPhysAddress.clearBars (row : UpciedevPhysAddress) (bars : List Bar) :
    UpciedevPhysAddress :=
  bars.foldl (fun row i => { row with bars := Function.update row.bars i.val {} }) row

/-- A row of the slot table after `pciedev_remove_exp`. -/
def UpciedevPhysAddress.cleared (row : UpciedevPhysAddress) : UpciedevPhysAddress :=
  { slotNum := 0, devStst := 0, slotBus := 0, slotDevice := 0
    bars := fun i => if i < numberOfBars then {} else row.bars i }

theorem clearBaseBars_wp (d : Entry) (slot : ℕ) (bars : List Bar) :
    (clearBaseBars d slot bars).wp (driver E) w fun _ _ u =>
      u = w.updateRow (w.pciedevDevM d).parentBaseDev slot fun row => row.clearBars bars := by
  induction bars generalizing w with
  | nil =>
    simp [clearBaseBars, World.updateRow, UpciedevPhysAddress.clearBars]
  | cons i bars ih =>
    simp only [clearBaseBars, perform_eq, call_bind, ret_bind, wp_load, wp_setBaseBar]
    apply wp_mono ih
    intro _ _ u hu
    rw [hu, World.updateRow_pciedevDevM, World.updateRow_updateRow]
    rfl

theorem clearBars_all (row : UpciedevPhysAddress) :
    row.clearBars (List.finRange numberOfBars) =
      { row with bars := fun i => if i < numberOfBars then {} else row.bars i } := by
  have hbars (bars : List Bar) (row : UpciedevPhysAddress) : row.clearBars bars =
      { row with bars := fun i => if ∃ b ∈ bars, b.val = i then {} else row.bars i } := by
    induction bars generalizing row with
    | nil => simp [UpciedevPhysAddress.clearBars]
    | cons b bars ih =>
      rw [UpciedevPhysAddress.clearBars, List.foldl_cons]
      apply (ih _).trans
      congr 1
      funext i
      by_cases hrest : ∃ b ∈ bars, b.val = i
      · simp [hrest]
      · by_cases hi : b.val = i
        · simp [hi]
        · simp [hrest, hi, Function.update_of_ne (Ne.symm hi)]
  rw [hbars]
  congr 1
  funext i
  have hiff : (∃ b ∈ List.finRange numberOfBars, b.val = i) ↔ i < numberOfBars :=
    ⟨fun ⟨b, _, hb⟩ => hb ▸ b.isLt, fun hi => ⟨⟨i, hi⟩, List.mem_finRange _, rfl⟩⟩
  simp only [hiff]

theorem removeBaseTable_wp (d : Entry) (slot : ℕ) :
    (removeBaseTable d slot).wp (driver E) w fun _ _ u =>
      u = w.updateRow (w.pciedevDevM d).parentBaseDev slot UpciedevPhysAddress.cleared := by
  simp only [removeBaseTable, perform_eq, call_bind, ret_bind, wp_load, wp_setBaseRow]
  apply wp_mono (clearBaseBars_wp d slot _)
  intro _ _ u hu
  simp only [World.updateRow_pciedevDevM, World.updateRow_updateRow] at hu
  rw [hu]
  congr 1
  funext row
  simp [clearBars_all, UpciedevPhysAddress.cleared]

/-- An entry without the mapping of BAR `i`. The bounds of a BAR that is not mapped stay. -/
def PciedevDev.unmap (v : PciedevDev) (i : Bar) : PciedevDev :=
  if v.memmoryBase i = none then v
  else { v with
    memmoryBase := Function.update v.memmoryBase i none
    memBase := Function.update v.memBase i 0
    memBaseEnd := Function.update v.memBaseEnd i 0
    memBaseFlag := Function.update v.memBaseFlag i 0
    rwOff := Function.update v.rwOff i 0 }

theorem unmapBar_wp (dev : PciDev) (d : Entry) (i : Bar) :
    (unmapBar dev d i).wp (driver E) w fun _ _ u =>
      ∃ e, u = (w.updateDev d (·.unmap i)).withEnv e := by
  simp only [unmapBar, perform_eq, call_bind, ret_bind, wp_load]
  by_cases hnone : (w.pciedevDevM d).memmoryBase i = none
  · have hsame : w.updateDev d (·.unmap i) = w := w.updateDev_eq_self (if_pos hnone)
    rw [if_pos hnone, hsame]
    exact ⟨w.env, rfl⟩
  · rw [if_neg hnone]
    simp only [wp_kernel, wp_store, wp_ret, World.updateDev_withEnv, World.updateDev_updateDev]
    intro _ e _
    refine ⟨e, congrArg (World.withEnv · e) ?_⟩
    simp [World.updateDev, PciedevDev.unmap, hnone]

theorem unmapBars_wp (dev : PciDev) (d : Entry) (bars : List Bar) :
    (unmapBars dev d bars).wp (driver E) w fun _ _ u =>
      ∃ e, u = (w.updateDev d (bars.foldl PciedevDev.unmap)).withEnv e := by
  induction bars generalizing w with
  | nil =>
    refine ⟨w.env, ?_⟩
    rw [w.updateDev_eq_self rfl]
    rfl
  | cons i bars ih =>
    simp only [unmapBars, wp_bind]
    apply wp_mono (unmapBar_wp dev d i)
    intro _ _ u hpost
    obtain ⟨e, hu⟩ := hpost
    subst hu
    apply wp_mono ih
    intro _ _ u hpost
    obtain ⟨e', hu⟩ := hpost
    refine ⟨e', ?_⟩
    rw [hu, World.updateDev_withEnv, World.withEnv_withEnv, World.updateDev_updateDev]
    rfl

/-- Entry `d'` after `n` nodes of the list of `d` were handed to the null device. -/
def PciedevDev.orphan (v : PciedevDev) (d d' : Entry) (n : ℕ) : PciedevDev :=
  { v with
    devFileList := if d' = d then v.devFileList.drop n else v.devFileList
    devFileRef := if d' = nullEntry then v.devFileRef + n else v.devFileRef }

theorem PciedevDev.orphan_zero (v : PciedevDev) (d d' : Entry) : v.orphan d d' 0 = v := by
  unfold PciedevDev.orphan
  split_ifs <;> simp only [List.drop_zero, Nat.cast_zero, add_zero]

theorem PciedevDev.orphan_orphan (v : PciedevDev) (d d' : Entry) (m n : ℕ) :
    (v.orphan d d' m).orphan d d' n = v.orphan d d' (m + n) := by
  unfold PciedevDev.orphan
  split_ifs <;> simp only [List.drop_drop, Nat.cast_add, add_assoc]

/-- One round: the first node goes, and the null device counts a file more. -/
theorem updateDev_orphan (w : World ε) (d d' : Entry) :
    ((w.updateDev d fun v => { v with devFileList := v.devFileList.drop 1 }).updateDev nullEntry
      fun v => { v with devFileRef := v.devFileRef + 1 }).pciedevDevM d' =
      (w.pciedevDevM d').orphan d d' 1 := by
  unfold PciedevDev.orphan
  by_cases hnull : d' = nullEntry
  · subst hnull
    by_cases hd : nullEntry = d
    · subst hd
      simp only [World.updateDev_self, if_true, Nat.cast_one]
    · simp only [World.updateDev_self, World.updateDev_other _ hd, if_true, hd, if_false,
        Nat.cast_one]
  · rw [World.updateDev_other _ hnull, if_neg hnull]
    by_cases hd : d' = d
    · subst hd
      simp only [World.updateDev_self, if_true]
    · simp only [World.updateDev_other _ hd, hd, if_false]

/-- The files of the listed nodes on the null device. -/
def orphaned (owner : File → Entry) (nodes : List UpciedevFileList) : File → Entry := fun filp =>
  if filp ∈ nodes.map UpciedevFileList.filp then nullEntry else owner filp

theorem orphaned_cons (owner : File → Entry) (n : UpciedevFileList)
    (nodes : List UpciedevFileList) :
    orphaned (Function.update owner n.filp nullEntry) nodes = orphaned owner (n :: nodes) := by
  funext filp
  by_cases hfilp : filp = n.filp
  · simp [orphaned, hfilp]
  · simp [orphaned, hfilp]

theorem orphanFiles_wp (d : Entry) (nodes : List UpciedevFileList) :
    (orphanFiles d nodes).wp (driver E) w fun _ _ u =>
      u = { w with
        privateData := orphaned w.privateData nodes
        pciedevDevM := fun d' => (w.pciedevDevM d').orphan d d' nodes.length } := by
  induction nodes generalizing w with
  | nil =>
    refine World.ext ?_ rfl ?_ rfl rfl rfl rfl
    · funext filp
      simp [orphaned]
    · simp [PciedevDev.orphan_zero]
  | cons n nodes ih =>
    simp only [orphanFiles, perform_eq, call_bind, ret_bind, wp_setPrivateData, wp_store]
    apply wp_mono ih
    intro _ _ u hu
    simp only [updateDev_orphan, PciedevDev.orphan_orphan, Nat.add_comm 1] at hu
    rw [hu, List.length_cons, ← orphaned_cons]
    rfl

theorem foldl_unmap_fields (v : PciedevDev) (bars : List Bar) :
    ∃ memBase memBaseEnd memBaseFlag rwOff memmoryBase, bars.foldl PciedevDev.unmap v =
      { v with memBase, memBaseEnd, memBaseFlag, rwOff, memmoryBase } := by
  induction bars generalizing v with
  | nil => exact ⟨_, _, _, _, _, rfl⟩
  | cons i bars ih =>
    obtain ⟨memBase, memBaseEnd, memBaseFlag, rwOff, memmoryBase, h⟩ := ih (v.unmap i)
    refine ⟨memBase, memBaseEnd, memBaseFlag, rwOff, memmoryBase, ?_⟩
    rw [List.foldl_cons, h, PciedevDev.unmap]
    split_ifs <;> rfl

/-- The entry after the part of the remove that runs in the region. -/
def PciedevDev.unlocked (v : PciedevDev) : PciedevDev :=
  { (List.finRange numberOfBars).foldl PciedevDev.unmap v with devSts := 0, binded := 0 }

theorem PciedevDev.unlocked_devFileList (v : PciedevDev) :
    v.unlocked.devFileList = v.devFileList := by
  obtain ⟨_, _, _, _, _, hunmap⟩ := foldl_unmap_fields v (List.finRange numberOfBars)
  rw [PciedevDev.unlocked, hunmap]

theorem removeLocked_wp (dev : PciDev) (d : Entry) (slot : ℤ) :
    (removeLocked dev d slot).wp (driver E) w fun _ _ u => ∃ e,
      u = { (w.setCdev fun c =>
        { c with pciedevModuleNum := c.pciedevModuleNum - 1 }).withEnv e with
        privateData := orphaned w.privateData (w.pciedevDevM d).devFileList
        pciedevDevM := fun d' => ((w.updateDev d PciedevDev.unlocked).pciedevDevM d').orphan d d'
          (w.pciedevDevM d).devFileList.length } := by
  rw [removeLocked, wp_bind]
  apply wp_mono (unmapBars_wp dev d _)
  intro _ _ u hpost
  obtain ⟨e, hu⟩ := hpost
  subst hu
  simp only [perform_eq, call_bind, ret_bind, wp_load, wp_kernel, wp_store, wp_setCdev]
  intro _ _ _ _ _ _ _ _ _ _ e' _
  refine (wp_bind ..).mpr (wp_mono (orphanFiles_wp d _) fun _ _ u hu => ?_)
  simp only [wp_leaveCritRegion, pure_eq, wp_ret]
  refine ⟨e', ?_⟩
  rw [hu]
  simp only [World.updateDev_withEnv, World.withEnv_withEnv, World.updateDev_updateDev]
  have hunlocked := (w.pciedevDevM d).unlocked_devFileList
  refine World.ext ?_ rfl ?_ rfl rfl rfl rfl
  · simp only [World.withEnv_privateData, World.setCdev_privateData, World.updateDev_privateData,
      World.withEnv_pciedevDevM, World.setCdev_pciedevDevM, World.updateDev_self]
    exact congrArg _ hunlocked
  · funext d'
    simp only [World.withEnv_pciedevDevM, World.setCdev_pciedevDevM, World.updateDev_self]
    exact congrArg (PciedevDev.orphan _ d d') (congrArg List.length hunlocked)

def PciedevDev.removed (v : PciedevDev) : PciedevDev := { v with prjInfoList := [] }.unlocked

/-- How the driver data change when the board of entry `d` is removed. -/
structure Removed (d : Entry) (w u : World ε) : Prop where
  privateData : u.privateData = orphaned w.privateData (w.pciedevDevM d).devFileList
  fPos : u.fPos = w.fPos
  pciedevDevM d' :
    u.pciedevDevM d' = ((w.updateDev d PciedevDev.removed).pciedevDevM d').orphan d d'
    (w.pciedevDevM d).devFileList.length
  cdev : u.cdev = { w.cdev with pciedevModuleNum := w.cdev.pciedevModuleNum - 1 }
  drvdata : u.drvdata = w.drvdata
  baseUpciedevDev : u.baseUpciedevDev = (w.updateRow (w.pciedevDevM d).parentBaseDev
    (w.pciedevDevM d).slotNum.toNat UpciedevPhysAddress.cleared).baseUpciedevDev

theorem pciedevRemoveExp_wp (fuel : ℕ) (dev : PciDev) {d : Entry} (hd : w.drvdata dev = some d) :
    (pciedevRemoveExp fuel dev).wp (driver E) w fun _ _ u => Removed d w u := by
  simp only [pciedevRemoveExp, perform_eq, call_bind, ret_bind, wp_drvdata, hd, wp_load, wp_store,
    wp_bind]
  apply wp_mono (wp_steady (removeInterrupts_steady d))
  intro _ _ u hpost
  obtain ⟨e, hu⟩ := hpost
  subst hu
  apply wp_mono (removeBaseTable_wp d _)
  intro _ _ u hu
  cases fuel with
  | zero => exact (wp_fault _).mpr trivial
  | succ fuel =>
    simp only [lockUntil, perform_eq, call_bind, ret_bind, wp_enterCritRegion, ne_eq,
      not_true_eq_false, if_false]
    apply wp_mono (removeLocked_wp dev d _)
    intro _ _ u' hpost
    obtain ⟨e', hu'⟩ := hpost
    simp only [World.withEnv_pciedevDevM, World.updateDev_self] at hu
    subst hu
    have hentry : (((w.updateDev d fun v => { v with prjInfoList := [] }).withEnv e).updateRow
        (w.pciedevDevM d).parentBaseDev (w.pciedevDevM d).slotNum.toNat
        UpciedevPhysAddress.cleared).pciedevDevM d = { w.pciedevDevM d
          with prjInfoList := [] } := by
      simp only [World.updateRow_pciedevDevM, World.withEnv_pciedevDevM, World.updateDev_self]
    rw [hu', hentry]
    constructor
    · rfl
    · rfl
    · intro d'
      simp only [World.updateDev_pciedevDevM, World.updateRow_pciedevDevM,
        World.withEnv_pciedevDevM, Function.update_self, Function.update_idem]
      rfl
    · rfl
    · rfl
    · rfl

end Upciedev
