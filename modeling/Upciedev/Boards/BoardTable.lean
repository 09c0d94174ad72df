import Upciedev.Boards.Removal
import Upciedev.Model.ModuleFootprint

/-!
# The board table

Runs of the set-up of a client driver followed by probes and removes in any order, and the
boards that are there after each of them. Entries of the table are taken by probes and given
back by removes; the last entry is bound for good.
-/
namespace Upciedev

open Foundations Program

variable {ε : Type} {E : Environment ε} {w u : World ε}

theorem initEntries_wp (cdevP : PciedevCdev) (added rest : List Entry) :
    (initEntries cdevP added rest).wp (driver E) w fun _ result u => result = 0 →
      u.cdev = w.cdev ∧ ∀ d, u.pciedevDevM d =
        if d ∈ rest then initEntry d (newEntry cdevP d) else w.pciedevDevM d := by
  induction rest generalizing added w with
  | nil =>
    intro _
    exact ⟨rfl, fun d => rfl⟩
  | cons i rest ih =>
    simp only [initEntries, perform_eq, call_bind, ret_bind, wp_kernel]
    intro allocated e _
    cases allocated with
    | false =>
      refine (wp_bind ..).mpr (wp_of_forall fun _ _ u => ?_)
      simp only [wp_kernel, pure_eq, wp_ret]
      intro _ _ _ h
      exact absurd h (by decide)
    | true =>
      simp only [if_true, wp_store, wp_kernel, wp_ite]
      intro result e' _
      refine ⟨fun _ h => absurd h one_ne_zero, fun _ => ?_⟩
      apply wp_mono (ih (added ++ [i]))
      intro _ result u hu hresult
      obtain ⟨hcdev, htable⟩ := hu hresult
      refine ⟨hcdev, fun d => ?_⟩
      rw [htable d]
      by_cases hrest : d ∈ rest
      · simp [hrest]
      · by_cases hi : d = i
        · subst hi
          simp [hrest]
        · simp [hrest, hi]

/-- After a set-up that succeeded every entry is as `upciedev_init_module_exp` left it. -/
theorem upciedevInitModuleExp_wp :
    (upciedevInitModuleExp).wp (driver E) w fun _ result u => result = 0 →
      u.cdev.pciedevModuleNum = 0 ∧
        ∀ d, u.pciedevDevM d = initEntry d (newEntry u.cdev d) := by
  simp only [upciedevInitModuleExp, perform_eq, call_bind, ret_bind, wp_kernel]
  intro allocated e _
  cases allocated with
  | false =>
    intro h
    exact absurd h (by decide)
  | true =>
    simp only [if_true, wp_note, wp_kernel, wp_setCdev, wp_cdev]
    intro chrdev _ _ _ _ _ version _ _
    apply wp_mono (initEntries_wp _ _ _)
    intro _ result u hu hresult
    obtain ⟨hcdev, htable⟩ := hu hresult
    refine ⟨?_, fun d => ?_⟩
    · rw [hcdev]
      rfl
    · rw [htable d, if_pos (List.mem_finRange d), hcdev]

theorem findUnbound_wp (ds : List Entry) :
    (findUnbound ds).wp (driver E) w fun tr mBrdNum u => u = w ∧
      (∀ e ∈ tr, e.op.Steady) ∧
      mBrdNum = (ds.find? fun d => (w.pciedevDevM d).binded = 0).elim
        (pciedevNrDevs + 1) Fin.val := by
  induction ds with
  | nil => exact ⟨rfl, by simp, rfl⟩
  | cons d ds ih =>
    simp only [findUnbound, perform_eq, call_bind, ret_bind, wp_load]
    by_cases hfree : (w.pciedevDevM d).binded = 0
    · simp [hfree, Op.Steady]
    · rw [if_neg hfree, List.find?_cons_of_neg (by simpa using hfree)]
      apply wp_mono ih
      intro tr mBrdNum u hpost
      obtain ⟨hu, htr, hnum⟩ := hpost
      refine ⟨hu, ?_, hnum⟩
      exact List.forall_mem_cons.mpr ⟨trivial, htr⟩

/-- A registered board: its entry is bound and live, the device points to it. -/
structure Bound (b : Entry) (dev : PciDev) (w u : World ε) : Prop where
  others d : d ≠ b → u.pciedevDevM d = w.pciedevDevM d
  binded : (u.pciedevDevM b).binded = 1
  devSts : (u.pciedevDevM b).devSts = 1
  devFileList : (u.pciedevDevM b).devFileList = (w.pciedevDevM b).devFileList
  moduleNum : u.cdev.pciedevModuleNum = w.cdev.pciedevModuleNum + 1
  privateData : u.privateData = w.privateData
  drvdata : u.drvdata = Function.update w.drvdata dev (some b)

/-- The three ways in which the probe of entry `b` returns. -/
inductive ProbeEnd (b : Entry) (dev : PciDev) (w : World ε) (tr : Trace) : ℤ → World ε → Prop
  | disabled {err : ℤ} {u : World ε} {e : ε} (hne : err ≠ 0)
      (hcall : (⟨.kernel (.pciEnableDevice dev), err⟩ : Event driverInterface) ∈ tr)
      (hu : u = (w.updateDev b fun v => { v with binded := 1 }).withEnv e) :
        ProbeEnd b dev w tr err u
  | unclaimed {err : ℤ} {u : World ε} {e : ε} (hne : err ≠ 0)
      (hu : u = ((w.updateDev b fun v => { v with binded := 0 }).setDrvdata dev none).withEnv e) :
      ProbeEnd b dev w tr err u
  | bound {u : World ε} (h : Bound b dev w u) : ProbeEnd b dev w tr 0 u

theorem destroyStale_wp (b : Entry) :
    (destroyStale b).wp (driver E) w fun _ _ u =>
      ∃ e, u = w.withEnv e ∨ u = (w.updateDev b fun v => { v with devSts := 0 }).withEnv e := by
  simp only [destroyStale, perform_eq, call_bind, ret_bind, wp_load, wp_ite]
  refine ⟨fun _ => ?_, fun _ => ⟨w.env, .inl rfl⟩⟩
  simp only [wp_store, wp_kernel, wp_ret]
  exact fun _ e _ => ⟨e, .inr rfl⟩

theorem probeCreate_wp (b : Entry) (slot : ℕ) {dev : PciDev} {w₀ : World ε}
    (hdev : w.drvdata = Function.update w₀.drvdata dev (some b))
    (hset : SetUpFrom b
      ((w₀.updateDev b fun v => { v with binded := 1 }).setDrvdata dev (some b)) w) :
    (probeCreate b slot).wp (driver E) w fun _ _ u => Bound b dev w₀ u := by
  rw [probeCreate, wp_bind]
  apply wp_mono (destroyStale_wp b)
  intro _ _ u hpost
  obtain ⟨e, hu⟩ := hpost
  simp only [perform_eq, call_bind, ret_bind, wp_store, wp_kernel, wp_setCdev, wp_ret]
  intro _ e' _ _ e'' _
  have hbinded : (w.pciedevDevM b).binded = 1 := by
    rw [hset.binded, World.setDrvdata_pciedevDevM, World.updateDev_self]
  have hlist : (w.pciedevDevM b).devFileList = (w₀.pciedevDevM b).devFileList := by
    rw [hset.devFileList, World.setDrvdata_pciedevDevM, World.updateDev_self]
  have hothers d (hne : d ≠ b) : w.pciedevDevM d = w₀.pciedevDevM d := by
    rw [hset.others d hne, World.setDrvdata_pciedevDevM, World.updateDev_other _ hne]
  have hcdev : w.cdev = w₀.cdev := hset.cdev
  have hdata : w.privateData = w₀.privateData := hset.privateData
  rcases hu with rfl | rfl <;> constructor
  all_goals
    simp only [World.updateDev_withEnv, World.setCdev_pciedevDevM, World.withEnv_pciedevDevM,
      World.setCdev_cdev, World.withEnv_cdev, World.updateDev_cdev, World.updateDev_self,
      World.setCdev_privateData, World.withEnv_privateData, World.updateDev_privateData,
      World.setCdev_drvdata, World.withEnv_drvdata, World.updateDev_drvdata, hbinded, hlist, hcdev,
      hdata, hdev]
  all_goals
    intro d hne
    simp only [World.updateDev_other _ hne, hothers d hne]

theorem probeEntry_wp (fuel : ℕ) (dev : PciDev) (b : Entry) (tmpParentNum : ℤ) :
    (probeEntry fuel dev b tmpParentNum).wp (driver E) w fun tr err u =>
      ProbeEnd b dev w tr err u := by
  simp only [probeEntry, perform_eq, call_bind, ret_bind, wp_store, wp_kernel, wp_ite]
  intro enabled e _
  refine ⟨fun hne => ?_, fun _ => ?_⟩
  · exact .disabled hne (by simp) rfl
  · refine fun claimed e' _ => ⟨fun hne => ?_, fun _ => ?_⟩
    · simp only [probeRegionsFailed, perform_eq, call_bind, ret_bind, wp_kernel, wp_setDrvdata,
        wp_store]
      intro _ e'' _
      refine .unclaimed (e := e'') hne (World.ext rfl rfl ?_ rfl rfl rfl rfl)
      simp
    · refine (wp_bind ..).mpr ((wp_bind ..).mpr ?_)
      apply wp_mono (Program.Only.setUpFrom (probeNumbers_setup dev tmpParentNum))
      intro _ numbers u hnumbers
      simp only [perform_eq, call_bind, ret_bind, wp_setDrvdata, wp_bind]
      apply wp_mono (Program.Only.setUpFrom (probeResources_setup fuel dev _ _ _))
      intro _ _ u' hresources
      have hset := (((SetUpFrom.refl b (w.updateDev b fun v => { v with binded := 1 })).withEnv
        e').trans hnumbers).setDrvdata dev (some b) |>.trans hresources
      refine wp_mono (probeCreate_wp b numbers.1 (hset.drvdata.trans ?_) hset) fun _ _ u' hu =>
        .bound hu
      simp

def StoresTo (b : Entry) : Op → Prop
  | .store d _ => d = b
  | _ => True

theorem setupOp_storesTo {b : Entry} {op : Op} (h : SetupOp b op) : StoresTo b op := by
  cases op with
  | store d f => exact h.1
  | _ => trivial

theorem probeEntry_storesTo (fuel : ℕ) (dev : PciDev) (b : Entry) (tmpParentNum : ℤ) :
    (probeEntry fuel dev b tmpParentNum).Only (StoresTo b) := by
  have hcreate (slot : ℕ) : (probeCreate b slot).Only (StoresTo b) := by
    apply Only.bind (by simp [destroyStale, StoresTo])
    intro _
    simp [StoresTo]
  simp only [probeEntry, perform_eq, call_bind, ret_bind, only_call, only_ite]
  refine ⟨rfl, fun _ =>
    ⟨trivial, fun err => ⟨fun _ => trivial, fun _ => ⟨trivial, fun err => ⟨?_, ?_⟩⟩⟩⟩⟩
  · exact fun _ => Only.bind (by simp [probeRegionsFailed, StoresTo]) fun _ => trivial
  · refine fun _ => Only.bind ?_ fun _ => trivial
    refine ((probeNumbers_setup dev _).mono fun _ => setupOp_storesTo).bind fun numbers => ?_
    refine (only_call _ _).mpr ⟨trivial, fun _ => ?_⟩
    exact ((probeResources_setup fuel dev _ _ _).mono fun _ => setupOp_storesTo).bind fun _ =>
      hcreate _

/-- A probe ends in the null entry, which happens only when that is the first unbound one, or it
is the probe of an unbound entry; with every entry bound it does not end. -/
theorem pciedevProbeExp_wp (fuel : ℕ) (dev : PciDev) (tmpParentNum : ℤ) :
    (pciedevProbeExp fuel dev tmpParentNum).wp (driver E) w fun tr r u =>
      (w.pciedevDevM nullEntry).binded = 0 ∨
      ∃ b, b ≠ nullEntry ∧ (w.pciedevDevM b).binded = 0 ∧ r.2 = b.val ∧ ProbeEnd b dev w tr r.1 u ∧
        ∀ e ∈ tr, StoresTo b e.op := by
  rw [pciedevProbeExp, wp_bind]
  apply wp_mono (findUnbound_wp _)
  intro tr mBrdNum u hpost
  obtain ⟨hu, htr, hnum⟩ := hpost
  subst hu
  cases hfind : (List.finRange (pciedevNrDevs + 1)).find? fun d => (u.pciedevDevM d).binded = 0 with
  | none =>
    rw [hfind] at hnum
    subst hnum
    exact (wp_fault _).mpr trivial
  | some b =>
    rw [hfind] at hnum
    have hfree : (u.pciedevDevM b).binded = 0 := by simpa using List.find?_some hfind
    have hval : mBrdNum = b.val := hnum
    by_cases hnull : mBrdNum = pciedevNrDevs
    · rw [if_pos hnull]
      refine .inl ?_
      rwa [show nullEntry = b from Fin.ext (hnull.symm.trans hval)]
    · have hlt : mBrdNum < pciedevNrDevs + 1 := hval ▸ b.isLt
      have hentry : (⟨mBrdNum, hlt⟩ : Entry) = b := Fin.ext hval
      rw [if_neg hnull, dif_pos hlt, hentry, wp_bind]
      refine wp_mono
        (wp_and_only (probeEntry_wp fuel dev b _) (probeEntry_storesTo fuel dev b _)) ?_
      intro tr' err u' ⟨hend, hstores⟩
      refine .inr ⟨b, ?_, hfree, hval, ?_, ?_⟩
      · intro hb
        exact hnull (hval.trans (congrArg Fin.val hb))
      · simp only [List.append_nil]
        cases hend with
        | disabled hne hcall hu => exact .disabled hne (by simp [hcall]) hu
        | unclaimed hne hu => exact .unclaimed hne hu
        | bound h => exact .bound h
      · intro e he
        simp only [List.append_nil, List.mem_append] at he
        rcases he with he | he
        · have hsteady := htr e he
          generalize e.op = op at hsteady
          cases op with
          | store d f => exact hsteady.elim
          | _ => trivial
        · exact hstores e he

/-- Set-up, then probes and removes in any order. A device is probed only while no board of the
driver is in it, and removed only while one is; a probe has to meet `P`. The boards are those
whose probe returned 0 and which were not removed since, each with the number its probe gave. -/
inductive TableRun (E : Environment ε) (P : World ε → Trace → Prop) :
    World ε → Finset (PciDev × ℕ) → Prop
  | setUp {w u : World ε} {tr : Trace} (hrun : upciedevInitModuleExp.Run (driver E) w tr 0 u) :
      TableRun E P u ∅
  | probe {w u : World ε} {boards : Finset (PciDev × ℕ)} {fuel : ℕ} {dev : PciDev}
      {tmpParentNum err : ℤ}
      {brdNum : ℕ} {tr : Trace} (h : TableRun E P w boards) (hdev : ∀ b ∈ boards, b.1 ≠ dev)
      (hrun : (pciedevProbeExp fuel dev tmpParentNum).Run (driver E) w tr (err, brdNum) u)
      (hP : P w tr) : TableRun E P u (if err = 0 then insert (dev, brdNum) boards else boards)
  | remove {w u : World ε} {boards : Finset (PciDev × ℕ)} {fuel : ℕ} {dev : PciDev} {brdNum : ℕ}
      {tr : Trace} {result : ℤ} (h : TableRun E P w boards) (hdev : (dev, brdNum) ∈ boards)
      (hrun : (pciedevRemoveExp fuel dev).Run (driver E) w tr result u) :
      TableRun E P u (boards.erase (dev, brdNum))

def enables : (op : Op) → op.Res → Bool
  | .kernel (.pciEnableDevice _), (err : ℤ) => err = 0
  | _, _ => true

/-- A probe that finds an unbound entry besides the null one, and whose device can be enabled. -/
structure Orderly (w : World ε) (tr : Trace) : Prop where
  free : ∃ d, d ≠ nullEntry ∧ (w.pciedevDevM d).binded = 0
  enabled : tr.all fun e => enables e.op e.res

/-- The bound entries are the null device and the entries of the boards, and the boards are
counted. -/
structure Describes (w : World ε) (boards : Finset (PciDev × ℕ)) : Prop where
  binded d : (w.pciedevDevM d).binded ≠ 0 ↔ d = nullEntry ∨ ∃ dev, (dev, d.val) ∈ boards
  moduleNum : w.cdev.pciedevModuleNum = boards.card

/-- A probe stores to unbound entries below the null one, fails on a full table, and leaves the
table as it was when it fails. -/
structure ProbeKeeps (w : World ε) (tr : Trace) (err : ℤ) (u : World ε) : Prop where
  stores d f : (⟨.store d f, ()⟩ : Event driverInterface) ∈ tr →
    d.val < pciedevNrDevs ∧ (w.pciedevDevM d).binded = 0
  full : (∀ d, d ≠ nullEntry → (w.pciedevDevM d).binded ≠ 0) → err ≠ 0
  failed : err ≠ 0 → u.pciedevDevM = w.pciedevDevM ∧ u.cdev = w.cdev

/-- The invariant behind it: devices and entries are paired off, and the devices know theirs. -/
structure TableInv (w : World ε)
    (boards : Finset (PciDev × ℕ)) : Prop extends Describes w boards where
  device : ∀ b ∈ boards, ∀ b' ∈ boards, b.1 = b'.1 → b = b'
  entry : ∀ b ∈ boards, ∀ b' ∈ boards, b.2 = b'.2 → b = b'
  drvdata : ∀ b ∈ boards, ∃ d : Entry, d ≠ nullEntry ∧ d.val = b.2 ∧ w.drvdata b.1 = some d

theorem tableInv_setUp {tr : Trace} (hrun : upciedevInitModuleExp.Run (driver E) w tr 0 u) :
    TableInv u ∅ := by
  obtain ⟨hnum, htable⟩ := hrun.of_wp upciedevInitModuleExp_wp rfl
  constructor
  · constructor
    · intro d
      rw [htable d]
      by_cases hd : d = nullEntry <;> simp [initEntry, hd]
    · simpa using hnum
  · simp
  · simp
  · simp

section
variable {boards : Finset (PciDev × ℕ)} {b : Entry} {dev : PciDev} {tr : Trace} {err : ℤ}

theorem ProbeEnd.orderly (h : ProbeEnd b dev w tr err u) (hfree : (w.pciedevDevM b).binded = 0)
    (horder : Orderly w tr) : (err ≠ 0 ∧ u.pciedevDevM = w.pciedevDevM ∧ u.cdev = w.cdev ∧
      u.drvdata = Function.update w.drvdata dev none) ∨ (err = 0 ∧ Bound b dev w u) := by
  cases h with
  | disabled hne hcall hu =>
    have henabled := List.all_eq_true.mp horder.enabled _ hcall
    exact absurd (of_decide_eq_true henabled) hne
  | unclaimed hne hu =>
    refine .inl ⟨hne, ?_, ?_, ?_⟩
    · have hsame : w.updateDev b (fun v => { v with binded := 0 }) = w := by
        apply w.updateDev_eq_self
        rw [← hfree]
      rw [hu, hsame]
      rfl
    · rw [hu]
      rfl
    · rw [hu]
      rfl
  | bound h => exact .inr ⟨rfl, h⟩

theorem TableInv.failedProbe (h : TableInv w boards) (hdev : ∀ b ∈ boards, b.1 ≠ dev)
    (htable : u.pciedevDevM = w.pciedevDevM) (hcdev : u.cdev = w.cdev)
    (hdrvdata : u.drvdata = Function.update w.drvdata dev none) : TableInv u boards where
  binded d := by rw [htable, h.binded]
  moduleNum := by rw [hcdev, h.moduleNum]
  device := h.device
  entry := h.entry
  drvdata b hb := by
    rw [hdrvdata, Function.update_of_ne (hdev b hb)]
    exact h.drvdata b hb

theorem TableInv.bound (h : TableInv w boards) (hdev : ∀ b ∈ boards, b.1 ≠ dev)
    (hnull : b ≠ nullEntry) (hfree : (w.pciedevDevM b).binded = 0) (hbound : Bound b dev w u) :
    TableInv u (insert (dev, b.val) boards) := by
  have hfresh : ∀ b' ∈ boards, b'.2 ≠ b.val := by
    intro b' hb' heq
    have hbinded := (h.binded b).mpr (.inr ⟨b'.1, heq ▸ hb'⟩)
    exact hbinded hfree
  constructor
  · constructor
    · intro d
      by_cases hd : d = b
      · subst hd
        simp [hbound.binded]
      · have hval : d.val ≠ b.val := fun heq => hd (Fin.ext heq)
        rw [hbound.others d hd, h.binded]
        simp [hval]
    · have hnew : (dev, b.val) ∉ boards := fun hmem => hdev _ hmem rfl
      rw [hbound.moduleNum, h.moduleNum, Finset.card_insert_of_notMem hnew]
      push_cast
      rfl
  · intro b₁ h₁ b₂ h₂ heq
    rcases Finset.mem_insert.mp h₁ with rfl | h₁ <;> rcases Finset.mem_insert.mp h₂ with rfl | h₂
    · rfl
    · exact absurd heq.symm (hdev b₂ h₂)
    · exact absurd heq (hdev b₁ h₁)
    · exact h.device b₁ h₁ b₂ h₂ heq
  · intro b₁ h₁ b₂ h₂ heq
    rcases Finset.mem_insert.mp h₁ with rfl | h₁ <;> rcases Finset.mem_insert.mp h₂ with rfl | h₂
    · rfl
    · exact absurd heq.symm (hfresh b₂ h₂)
    · exact absurd heq (hfresh b₁ h₁)
    · exact h.entry b₁ h₁ b₂ h₂ heq
  · intro b' hb'
    rcases Finset.mem_insert.mp hb' with rfl | hb'
    · exact ⟨b, hnull, rfl, by simp [hbound.drvdata]⟩
    · rw [hbound.drvdata, Function.update_of_ne (hdev b' hb')]
      exact h.drvdata b' hb'

theorem TableInv.probe (h : TableInv w boards) (hdev : ∀ b ∈ boards, b.1 ≠ dev)
    (hnull : b ≠ nullEntry) (hfree : (w.pciedevDevM b).binded = 0)
    (hend : ProbeEnd b dev w tr err u) (horder : Orderly w tr) :
    TableInv u (if err = 0 then insert (dev, b.val) boards else boards) := by
  rcases hend.orderly hfree horder with ⟨hne, htable, hcdev, hdrvdata⟩ | ⟨hzero, hbound⟩
  · rw [if_neg hne]
    exact h.failedProbe hdev htable hcdev hdrvdata
  · rw [if_pos hzero]
    exact h.bound hdev hnull hfree hbound

theorem Removed.binded {d : Entry} (h : Removed d w u) (d' : Entry) :
    (u.pciedevDevM d').binded = if d' = d then 0 else (w.pciedevDevM d').binded := by
  rw [h.pciedevDevM d']
  by_cases hd : d' = d
  · subst hd
    simp [PciedevDev.orphan, PciedevDev.removed, PciedevDev.unlocked]
  · simp [PciedevDev.orphan, hd]

theorem TableInv.remove {brdNum : ℕ} (h : TableInv w boards) (hdev : (dev, brdNum) ∈ boards)
    {d : Entry} (hval : d.val = brdNum) (hnull : d ≠ nullEntry) (hremoved : Removed d w u) :
    TableInv u (boards.erase (dev, brdNum)) := by
  constructor
  · constructor
    · intro d'
      rw [hremoved.binded]
      by_cases hd : d' = d
      · subst hd
        have hgone : ¬ ∃ dev', (dev', d'.val) ∈ boards.erase (dev, brdNum) := by
          rintro ⟨dev', hmem⟩
          obtain ⟨hne, hmem⟩ := Finset.mem_erase.mp hmem
          exact hne (h.entry _ hmem _ hdev hval)
        rw [if_pos rfl]
        exact iff_of_false (fun hne => hne rfl) (not_or.mpr ⟨hnull, hgone⟩)
      · have hne : d'.val ≠ brdNum := fun heq => hd (Fin.ext (heq.trans hval.symm))
        rw [if_neg hd, h.binded]
        simp [hne]
    · have hcard := Finset.card_erase_add_one hdev
      rw [hremoved.cdev]
      show w.cdev.pciedevModuleNum - 1 = _
      rw [h.moduleNum]
      omega
  · exact fun b₁ h₁ b₂ h₂ =>
      h.device b₁ (Finset.mem_of_mem_erase h₁) b₂ (Finset.mem_of_mem_erase h₂)
  · exact fun b₁ h₁ b₂ h₂ => h.entry b₁ (Finset.mem_of_mem_erase h₁) b₂ (Finset.mem_of_mem_erase h₂)
  · intro b' hb'
    rw [hremoved.drvdata]
    exact h.drvdata b' (Finset.mem_of_mem_erase hb')

theorem TableInv.nullBound (h : TableInv w boards) : (w.pciedevDevM nullEntry).binded ≠ 0 :=
  (h.binded nullEntry).mpr (.inl rfl)

/-- A probe made from a table with the invariant is the probe of an unbound entry. -/
theorem TableInv.probeRun (h : TableInv w boards) {fuel : ℕ} {tmpParentNum : ℤ} {brdNum : ℕ}
    (hrun : (pciedevProbeExp fuel dev tmpParentNum).Run (driver E) w tr (err, brdNum) u) :
    ∃ b, b ≠ nullEntry ∧ (w.pciedevDevM b).binded = 0 ∧ brdNum = b.val ∧ ProbeEnd b dev w tr err u ∧
      ∀ e ∈ tr, StoresTo b e.op :=
  (hrun.of_wp (pciedevProbeExp_wp fuel dev tmpParentNum)).resolve_left h.nullBound

end

theorem TableRun.inv {boards : Finset (PciDev × ℕ)} (h : TableRun E Orderly w boards) :
    TableInv w boards := by
  induction h with
  | setUp hrun => exact tableInv_setUp hrun
  | probe _ hdev hrun horder ih =>
    obtain ⟨b, hnull, hfree, hnum, hend, -⟩ := ih.probeRun hrun
    subst hnum
    exact ih.probe hdev hnull hfree hend horder
  | remove _ hdev hrun ih =>
    obtain ⟨d, hnull, hval, hdrv⟩ := ih.drvdata _ hdev
    exact ih.remove hdev hval hnull (hrun.of_wp (pciedevRemoveExp_wp _ _ hdrv))

/-- While probes find a free entry and enable their device, the table describes the boards. -/
theorem board_table_orderly {boards : Finset (PciDev × ℕ)} (h : TableRun E Orderly w boards) :
    Describes w boards ∧ ∀ fuel dev tmpParentNum tr err brdNum u,
      (pciedevProbeExp fuel dev tmpParentNum).Run (driver E) w tr (err, brdNum) u → Orderly w tr →
      ProbeKeeps w tr err u := by
  have hinv := h.inv
  refine ⟨hinv.toDescribes, fun fuel dev tmpParentNum tr err brdNum u hrun horder => ?_⟩
  obtain ⟨b, hnull, hfree, hnum, hend, hstores⟩ := hinv.probeRun hrun
  have hlt : b.val < pciedevNrDevs := Fin.val_lt_last hnull
  constructor
  · intro d f hmem
    obtain rfl : d = b := hstores _ hmem
    exact ⟨hlt, hfree⟩
  · intro hfull
    exact absurd hfree (hfull b hnull)
  · intro hne
    rcases hend.orderly hfree horder with ⟨-, htable, hcdev, -⟩ | ⟨hzero, -⟩
    · exact ⟨htable, hcdev⟩
    · exact absurd hzero hne

/-- On a full table a probe does not come back: the search ends past the null entry. -/
theorem pciedevProbeExp_full (hfull : ∀ d, (w.pciedevDevM d).binded ≠ 0) {fuel : ℕ} {dev : PciDev}
    {tmpParentNum : ℤ} {tr : Trace} {r : ℤ × ℕ} :
    ¬ (pciedevProbeExp fuel dev tmpParentNum).Run (driver E) w tr r u := by
  intro hrun
  rcases hrun.of_wp (pciedevProbeExp_wp fuel dev tmpParentNum) with hnull | ⟨b, -, hfree, -⟩
  · exact hfull nullEntry hnull
  · exact hfull b hfree

def regionsBusy : Answers Unit
  | .pciRequestRegions _, e => some ((-16 : ℤ), e)
  | c, e => Outcome.answers {} c e

set_option maxRecDepth 8000 in
/-- Device 0 gets entry 0, device 1 cannot be claimed, device 2 gets entry 1, and device 0 is
removed. -/
theorem board_table_orderly_fourCalls : ∃ (w₁ w₂ w₄ : World Unit) (tr : Trace),
    TableRun openEnvironment Orderly w₁ {(0, 0)} ∧
    (pciedevProbeExp 0 1 0).Run (driver openEnvironment) w₁ tr (-16, 1) w₂ ∧
    TableRun openEnvironment Orderly w₄ {(2, 1)} ∧
    Describes w₄ {(2, 1)} ∧ ProbeKeeps w₁ tr (-16) w₂ := by
  obtain ⟨_, w₀, tr₁, w₁, tr₂, w₂, tr₃, w₃, _, w₄, hset, hfirst, hbusy, hthird, hremove,
      hfree₀, henabled₁, hfree₁, henabled₂, hfree₂, henabled₃⟩ :
      ∃ (tr₀ : Trace) (w₀ : World Unit) (tr₁ : Trace) (w₁ : World Unit) (tr₂ : Trace)
      (w₂ : World Unit) (tr₃ : Trace) (w₃ : World Unit) (tr₄ : Trace) (w₄ : World Unit),
      upciedevInitModuleExp.Run (driver openEnvironment) (.uniform {}) tr₀ 0 w₀ ∧
      (pciedevProbeExp 0 0 0).Run (driver openEnvironment) w₀ tr₁ ((0 : ℤ), 0) w₁ ∧
      (pciedevProbeExp 0 1 0).Run (driver openEnvironment) w₁ tr₂ ((-16 : ℤ), 1) w₂ ∧
      (pciedevProbeExp 0 2 0).Run (driver openEnvironment) w₂ tr₃ ((0 : ℤ), 1) w₃ ∧
      (pciedevRemoveExp 1 0).Run (driver openEnvironment) w₃ tr₄ 0 w₄ ∧
      (w₀.pciedevDevM 0).binded = 0 ∧ (tr₁.all fun e => enables e.op e.res) = true ∧
      (w₁.pciedevDevM 1).binded = 0 ∧ (tr₂.all fun e => enables e.op e.res) = true ∧
      (w₂.pciedevDevM 1).binded = 0 ∧ (tr₃.all fun e => enables e.op e.res) = true :=
    ⟨_, _, _, _, _, _, _, _, _, _,
      run_of_answers (Outcome.answers {}) (fun _ _ _ _ _ => trivial) rfl,
      run_of_answers (Outcome.answers {}) (fun _ _ _ _ _ => trivial) rfl,
      run_of_answers regionsBusy (fun _ _ _ _ _ => trivial) rfl,
      run_of_answers (Outcome.answers {}) (fun _ _ _ _ _ => trivial) rfl,
      run_of_answers (Outcome.answers {}) (fun _ _ _ _ _ => trivial) rfl,
      rfl, rfl, rfl, rfl, rfl, rfl⟩
  have horder₂ := Orderly.mk (w := w₁) ⟨1, by decide, hfree₁⟩ henabled₂
  have hone := TableRun.probe (.setUp hset) (by simp) hfirst
    (Orderly.mk (w := w₀) ⟨0, by decide, hfree₀⟩ henabled₁)
  have htwo := TableRun.probe hone (by simp) hbusy horder₂
  have hthree := TableRun.probe htwo (by simp) hthird
    (Orderly.mk (w := w₂) ⟨1, by decide, hfree₂⟩ henabled₃)
  have hfour := TableRun.remove hthree (by simp : ((0 : PciDev), (0 : ℕ)) ∈ _) hremove
  exact ⟨w₁, w₂, w₄, tr₂, hone, hbusy, hfour, (board_table_orderly hfour).1,
    (board_table_orderly hone).2 0 1 0 tr₂ (-16) 1 w₂ hbusy horder₂⟩

set_option maxRecDepth 8000 in
/-- A device that cannot be enabled keeps the entry its probe has bound. -/
theorem failed_enable_keeps_entry : ∃ w : World Unit,
    TableRun openEnvironment (fun _ _ => True) w ∅ ∧ ¬ Describes w ∅ := by
  obtain ⟨_, w₀, _, w, hset, hprobe, hbound⟩ : ∃ (tr₀ : Trace) (w₀ : World Unit) (tr : Trace)
      (w : World Unit), upciedevInitModuleExp.Run (driver openEnvironment) (.uniform {}) tr₀ 0 w₀ ∧
      (pciedevProbeExp 0 0 0).Run (driver openEnvironment) w₀ tr ((-5 : ℤ), 0) w ∧
      (w.pciedevDevM 0).binded = 1 :=
    ⟨_, _, _, _, run_of_answers (Outcome.answers {}) (fun _ _ _ _ _ => trivial) rfl,
      run_of_answers (Outcome.answers { enable := -5 }) (fun _ _ _ _ _ => trivial) rfl, rfl⟩
  refine ⟨w, TableRun.probe (.setUp hset) (by simp) hprobe trivial, fun hdescribes => ?_⟩
  have hlisted := (hdescribes.binded 0).mp (by rw [hbound]; decide)
  rcases hlisted with hnull | ⟨_, hmem⟩
  · exact absurd hnull (by decide)
  · exact absurd hmem (Finset.notMem_empty _)

end Upciedev
