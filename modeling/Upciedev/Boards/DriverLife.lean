import Upciedev.Boards.DeviceProtocol
import Upciedev.Boards.SetUpFailure

/-!
# The life of a client driver

A board owns a device node, and the interrupt vectors that were allocated for its device. In every
run these are made for a board that has none and removed only while the board has them. After all
boards are removed the cleanup of the driver leaves nothing behind.
-/
namespace Upciedev

open Foundations Program

variable {ε α : Type} {E : Environment ε} {w u : World ε} {boards : PciDev → Option Entry}
  {dev : PciDev} {b : Entry} {tr tr' : Trace}

inductive BoardResource where
  | node (d : Entry)
  | vectors (dev : PciDev)
  deriving DecidableEq, Repr

inductive BoardUse where
  | make
  | remove
  deriving DecidableEq, Repr

/-- A negative answer of `pci_alloc_irq_vectors` is an error. -/
def boardUse : (op : Op) → op.Res → Option (BoardResource × BoardUse)
  | .kernel (.deviceCreate d), _ => some (.node d, .make)
  | .kernel (.deviceDestroy d), _ => some (.node d, .remove)
  | .kernel (.pciAllocIrqVectors dev _ _), (msiNum : ℤ) =>
    if 0 ≤ msiNum then some (.vectors dev, .make) else none
  | .kernel (.pciDisableMsi dev), _ => some (.vectors dev, .remove)
  | _, _ => none

def boardLog (tr : Trace) : List (BoardResource × BoardUse) :=
  tr.filterMap fun e => boardUse e.op e.res

def boardRules : Rules Bool BoardUse where
  use
    | false, .make => some true
    | true, .remove => some false
    | _, _ => none

/-- What is there: the nodes of live entries, and the vectors that the entry of a board records. -/
def ownedFor (w : World ε) (boards : PciDev → Option Entry) : BoardResource → Bool
  | .node d => decide ((w.pciedevDevM d).devSts ≠ 0)
  | .vectors dev => (boards dev).elim false fun b => decide ((w.pciedevDevM b).msi ≠ 0)

@[reducible] def OwnsNoMore : Op → Prop
  | .kernel (.deviceCreate _) | .kernel (.deviceDestroy _) => False
  | .kernel (.pciAllocIrqVectors _ _ _) | .kernel (.pciDisableMsi _) => False
  | _ => True

theorem OwnsNoMore.unused {op : Op} (h : OwnsNoMore op) (r : op.Res) : boardUse op r = none := by
  cases op with
  | kernel c => cases c <;> first | rfl | exact h.elim
  | _ => rfl

theorem LeavesDevices.ownsNoMore {op : Op} (h : LeavesDevices op) : OwnsNoMore op := by
  cases op with
  | kernel c => cases c <;> trivial
  | _ => trivial

theorem boardLog_unused (h : ∀ e ∈ tr, OwnsNoMore e.op) : boardLog tr = [] :=
  List.filterMap_eq_nil_iff.mpr fun e he => (h e he).unused e.res

@[simp] theorem boardLog_nil : boardLog [] = [] := rfl

@[simp] theorem boardLog_cons (e : Event driverInterface) (tr : Trace) :
    boardLog (e :: tr) = (boardUse e.op e.res).toList ++ boardLog tr := by
  cases h : boardUse e.op e.res <;> simp [boardLog, h]

@[simp] theorem boardLog_append (tr tr' : Trace) :
    boardLog (tr ++ tr') = boardLog tr ++ boardLog tr' :=
  List.filterMap_append

theorem LeavesDevices.releasedBy {op : Op} (h : LeavesDevices op) : releasedBy op = none := by
  cases op with
  | kernel c =>
    cases c with
    | kfree o => cases o <;> first | rfl | exact h.elim
    | _ => first | rfl | exact h.elim
  | _ => rfl

def OwnAlong (dev : PciDev) (b : Entry) (vectors vectors' node node' : Bool) (tr : Trace) : Prop :=
  ∃ tr₁ tr₂, boardLog tr = boardLog tr₁ ++ boardLog tr₂ ∧
    boardRules.Along (fun e => boardUse e.op e.res) (.vectors dev) vectors vectors' tr₁ ∧
    boardRules.Along (fun e => boardUse e.op e.res) (.node b) node node' tr₂

theorem boardLog_wp {p : Kernel α} (hp : p.Only OwnsNoMore) :
    p.wp (driver E) w fun tr _ _ => boardLog tr = [] := hp.wp fun _ _ _ => boardLog_unused

theorem LeavesDevices.boardLog_wp {p : Kernel α} (hp : p.Only LeavesDevices) :
    p.wp (driver E) w fun tr _ _ => boardLog tr = [] :=
  Upciedev.boardLog_wp (hp.mono fun _ => LeavesDevices.ownsNoMore)

theorem probeNumbers_ownsNoMore (tmpParentNum : ℤ) :
    (probeNumbers dev b tmpParentNum).Only OwnsNoMore := by
  simp only [probeNumbers, perform_eq, call_bind, ret_bind, only_call]
  refine ⟨trivial, fun _ => ⟨trivial, fun _ => ⟨trivial, fun _ => Only.bind ?_ fun slot => ?_⟩⟩⟩
  · simp [probeSlotNum, slotCapOf, OwnsNoMore]
  · simp [OwnsNoMore]

theorem probeBars_ownsNoMore (slot : ℕ) (bars : List Bar) :
    (probeBars dev b slot bars).Only OwnsNoMore := by
  induction bars with
  | nil => trivial
  | cons i bars ih => exact Only.bind (by simp [probeBar, OwnsNoMore]) fun _ => ih

theorem probeInterrupts_owns : (probeInterrupts dev b).wp (driver E) w fun tr _ u =>
    boardRules.Along (fun e => boardUse e.op e.res) (.vectors dev) false
      (decide ((u.pciedevDevM b).msi ≠ 0)) tr := by
  simp only [probeInterrupts, perform_eq, call_bind, ret_bind, wp_store, wp_kernel, wp_load, wp_ret]
  intro _ _ _ msiNum _ _ _ _ _
  by_cases hmsi : 0 ≤ msiNum
  · refine ⟨[.make], by simp [boardUse, hmsi], ?_⟩
    simp [boardRules, hmsi]
  · refine ⟨[], by simp [boardUse, hmsi], ?_⟩
    simp [hmsi]

theorem probeResources_owns (fuel slot : ℕ) (busNumber devNumber : UInt32) :
    (probeResources fuel dev b slot busNumber devNumber).wp (driver E) w fun tr _ u =>
      boardRules.Along (fun e => boardUse e.op e.res) (.vectors dev) false
        (decide ((u.pciedevDevM b).msi ≠ 0)) tr := by
  rw [probeResources, wp_bind]
  apply wp_mono (LeavesDevices.boardLog_wp (probeDmaMask_device dev b))
  intro tr₁ _ _ h₁
  apply (wp_bind ..).mpr
  apply wp_mono (LeavesDevices.boardLog_wp (probeIdentity_device dev b))
  intro tr₂ _ _ h₂
  apply (wp_bind ..).mpr
  apply wp_mono (LeavesDevices.boardLog_wp (probeBaseTable_device b _ _ _))
  intro tr₃ _ _ h₃
  simp only [perform_eq, call_bind, ret_bind, wp_store]
  apply (wp_bind ..).mpr
  apply wp_mono (boardLog_wp (probeBars_ownsNoMore _ _))
  intro tr₄ _ _ h₄
  apply (wp_bind ..).mpr
  apply wp_mono (LeavesDevices.boardLog_wp (printBaseTable_device b _))
  intro tr₅ _ _ h₅
  apply (wp_bind ..).mpr
  apply wp_mono (LeavesDevices.boardLog_wp (probeInfo_device b fuel))
  intro tr₆ _ _ h₆
  apply wp_mono probeInterrupts_owns
  intro tr₇ _ _ h₇
  refine .append (.unused h₁) (.append (.unused h₂) (.append (.unused h₃) (.skip rfl ?_)))
  exact .append (.unused h₄) (.append (.unused h₅) (.append (.unused h₆) h₇))

theorem probeCreate_owns (slot : ℕ) : (probeCreate b slot).wp (driver E) w fun tr _ u =>
    boardRules.Along (fun e => boardUse e.op e.res) (.node b)
      (decide ((w.pciedevDevM b).devSts ≠ 0)) true tr ∧
      (u.pciedevDevM b).msi = (w.pciedevDevM b).msi := by
  simp only [probeCreate, destroyStale, perform_eq, call_bind, ret_bind, wp_bind, wp_load, wp_ite,
    wp_store, wp_kernel, wp_setCdev, wp_ret]
  refine ⟨fun hstale => ?_, fun hnone => ?_⟩
  · intro _ _ _ _ _ _ _ _ _
    refine ⟨⟨[.remove, .make], by simp [boardUse], ?_⟩, by simp⟩
    simp [boardRules, hstale]
  · intro _ _ _ _ _ _
    refine ⟨⟨[.make], by simp [boardUse], ?_⟩, by simp⟩
    simp [boardRules, not_not.mp hnone]

/-- A probe makes what its board owns, and nothing if it fails. -/
def ProbeOwns (dev : PciDev) (b : Entry) (w : World ε) (tr : Trace) (err : ℤ)
    (u : World ε) : Prop :=
  if err = 0 then OwnAlong dev b false (decide ((u.pciedevDevM b).msi ≠ 0))
    (decide ((w.pciedevDevM b).devSts ≠ 0)) true tr
  else boardLog tr = []

theorem probeEntry_owns (fuel : ℕ) (tmpParentNum : ℤ) :
    (probeEntry fuel dev b tmpParentNum).wp (driver E) w fun tr err u =>
      ProbeOwns dev b w tr err u := by
  simp only [probeEntry, perform_eq, call_bind, ret_bind, wp_store, wp_kernel, wp_ite]
  intro enabled _ _
  refine ⟨fun hne => ?_, fun _ => ?_⟩
  · simp [ProbeOwns, hne, boardUse]
  · refine fun claimed _ _ => ⟨fun hne => ?_, fun _ => ?_⟩
    · simp only [probeRegionsFailed, perform_eq, call_bind, ret_bind, wp_kernel, wp_setDrvdata,
        wp_store]
      intro _ _ _
      simp [ProbeOwns, hne, boardUse]
    · refine (wp_bind ..).mpr ((wp_bind ..).mpr ?_)
      apply wp_mono
        (wp_and (boardLog_wp (probeNumbers_ownsNoMore _))
          (Program.Only.setUpFrom (probeNumbers_setup dev _)))
      rintro tr₁ numbers x₁ ⟨h₁, hset₁⟩
      simp only [perform_eq, call_bind, ret_bind, wp_setDrvdata, wp_bind]
      apply wp_mono (wp_and (probeResources_owns fuel _ _ _)
        (Program.Only.setUpFrom (probeResources_setup fuel dev _ _ _)))
      rintro tr₂ _ x₂ ⟨h₂, hset₂⟩
      apply wp_mono (probeCreate_owns _)
      rintro tr₃ _ x₃ ⟨h₃, hmsi⟩
      have hsts : (x₂.pciedevDevM b).devSts = (w.pciedevDevM b).devSts := by
        rw [hset₂.devSts, World.setDrvdata_pciedevDevM, hset₁.devSts]
        simp
      rw [← hmsi] at h₂
      rw [hsts] at h₃
      simp only [pure_eq, wp_ret, ProbeOwns, if_true]
      refine ⟨tr₂, tr₃, ?_, h₂, h₃⟩
      simp [boardUse, h₁]

theorem pciedevProbeExp_owns (fuel : ℕ) (tmpParentNum : ℤ) :
    (pciedevProbeExp fuel dev tmpParentNum).wp (driver E) w fun tr r u =>
      (w.pciedevDevM nullEntry).binded = 0 ∨ ∃ b : Entry, r.2 = b.val ∧
        ProbeOwns dev b w tr r.1 u := by
  rw [pciedevProbeExp, wp_bind]
  apply wp_mono (wp_and_only (findUnbound_wp _) (findUnbound_device _))
  rintro tr mBrdNum u ⟨⟨hu, -, hnum⟩, hdevice⟩
  subst hu
  have hunused : boardLog tr = [] := boardLog_unused fun e he => (hdevice e he).ownsNoMore
  cases hfind : (List.finRange (pciedevNrDevs + 1)).find? fun d => (u.pciedevDevM d).binded = 0 with
  | none =>
    rw [hfind] at hnum
    subst hnum
    exact (wp_fault _).mpr trivial
  | some b =>
    rw [hfind] at hnum
    have hval : mBrdNum = b.val := hnum
    by_cases hnull : mBrdNum = pciedevNrDevs
    · rw [if_pos hnull]
      have hb : nullEntry = b := Fin.ext (hnull.symm.trans hval)
      exact .inl (hb ▸ by simpa using List.find?_some hfind)
    · have hlt : mBrdNum < pciedevNrDevs + 1 := hval ▸ b.isLt
      have hentry : (⟨mBrdNum, hlt⟩ : Entry) = b := Fin.ext hval
      rw [if_neg hnull, dif_pos hlt, hentry, wp_bind]
      apply wp_mono (probeEntry_owns fuel _)
      intro tr' err u' howns
      refine .inr ⟨b, hval, ?_⟩
      simpa [ProbeOwns, OwnAlong, hunused] using howns

theorem removeInterrupts_owns {d : Entry} : (removeInterrupts d).wp (driver E) w fun tr _ _ =>
    boardRules.Along (fun e => boardUse e.op e.res) (.vectors (w.pciedevDevM d).pciedevPciDev)
      (decide ((w.pciedevDevM d).msi ≠ 0)) false tr := by
  have hmsi {x : World ε} : (do
      let v ← load d
      if v.msi ≠ 0 then kernel (.pciDisableMsi v.pciedevPciDev) else
        pure ()).wp (driver E) x fun tr _ _ =>
        boardRules.Along (fun e => boardUse e.op e.res) (.vectors (x.pciedevDevM d).pciedevPciDev)
          (decide ((x.pciedevDevM d).msi ≠ 0)) false tr := by
    simp only [wp_load, wp_ite, wp_kernel, wp_ret, perform_eq, call_bind, ret_bind]
    refine ⟨fun hmsi => ?_, fun hnone => ?_⟩
    · intro _ _ _
      exact ⟨[.remove], by simp [boardUse], by simp [boardRules, hmsi]⟩
    · exact ⟨[], by simp [boardUse], by simp [not_not.mp hnone]⟩
  simp only [removeInterrupts, perform_eq, call_bind, ret_bind, wp_load]
  refine (wp_ite ..).mpr ⟨fun _ => (wp_bind ..).mpr ?_, fun _ =>
    wp_mono hmsi fun _ _ _ h => .skip rfl h⟩
  have hfree := freeIrqs_device d (List.range 32)
  apply wp_mono (wp_and (wp_steady (freeIrqs_steady d _)) (LeavesDevices.boardLog_wp hfree))
  rintro tr _ _ ⟨⟨e, rfl⟩, hunused⟩
  exact wp_mono hmsi fun _ _ _ h => .skip rfl (.append (.unused hunused) h)

theorem unmapBars_ownsNoMore {d : Entry} (bars : List Bar) :
    (unmapBars dev d bars).Only OwnsNoMore := by
  induction bars with
  | nil => trivial
  | cons i bars ih => exact Only.bind (by simp [unmapBar, OwnsNoMore]) fun _ => ih

theorem pciedevRemoveExp_owns (fuel : ℕ) {d : Entry} (hdrv : w.drvdata dev = some d)
    (hdev : (w.pciedevDevM d).pciedevPciDev = dev) :
    (pciedevRemoveExp fuel dev).wp (driver E) w fun tr _ _ =>
      OwnAlong dev d (decide ((w.pciedevDevM d).msi ≠ 0)) false true false tr := by
  simp only [pciedevRemoveExp, perform_eq, call_bind, ret_bind, wp_drvdata, hdrv, wp_load, wp_store,
    wp_bind]
  apply wp_mono removeInterrupts_owns
  intro tr₁ _ x₁ h₁
  apply wp_mono (LeavesDevices.boardLog_wp (removeBaseTable_device d _))
  intro tr₂ _ x₂ h₂
  cases fuel with
  | zero => exact (wp_fault _).mpr trivial
  | succ fuel =>
    simp only [lockUntil, perform_eq, call_bind, ret_bind, wp_enterCritRegion, ne_eq,
      not_true_eq_false, if_false, removeLocked, wp_bind]
    apply wp_mono (boardLog_wp (unmapBars_ownsNoMore _))
    intro tr₃ _ x₃ h₃
    simp only [wp_load, wp_kernel, wp_store, wp_setCdev, wp_bind]
    intro _ _ _ _ _ _ _ _ _ _ _ _
    apply wp_mono (LeavesDevices.boardLog_wp (orphanFiles_device d _))
    intro tr₄ _ x₄ h₄
    simp only [wp_leaveCritRegion, pure_eq, wp_ret]
    simp only [World.updateDev_self, hdev] at h₁
    refine ⟨tr₁, [⟨.kernel (.deviceDestroy d), ()⟩], ?_, ?_, [.remove], rfl, rfl⟩
    · simp [boardUse, h₂, h₃, h₄]
    · simpa using h₁

theorem OwnAlong.obeyed {st : BoardResource → Bool} {vectors node : Bool}
    (halong : OwnAlong dev b (st (.vectors dev)) vectors (st (.node b)) node tr')
    (h : boardRules.Obeyed false (boardLog tr) st) :
    boardRules.Obeyed false (boardLog (tr ++ tr'))
      (Function.update (Function.update st (.vectors dev) vectors) (.node b) node) := by
  obtain ⟨tr₁, tr₂, hlog, hvectors, hnode⟩ := halong
  have hboth : boardLog (tr ++ tr') = boardLog (tr ++ tr₁ ++ tr₂) := by simp [hlog]
  rw [hboth]
  apply (h.along hvectors).along
  rwa [Function.update_of_ne (by simp)]

/-- The resources of boards are used by the rules, and the live entries are those of boards. -/
structure OwnInv (w : World ε) (boards : PciDev → Option Entry) (tr : Trace) : Prop where
  live d : (w.pciedevDevM d).devSts ≠ 0 ↔ ∃ dev, boards dev = some d
  obeyed : boardRules.Obeyed false (boardLog tr) (ownedFor w boards)

theorem upciedevInitModuleExp_ownsNoMore : upciedevInitModuleExp.Only OwnsNoMore := by
  have hfree (ds : List Entry) : (freeEntries ds).Only OwnsNoMore := by
    induction ds with
    | nil => trivial
    | cons d ds ih => simp [freeEntries, OwnsNoMore, ih]
  have hentries (cdevP : PciedevCdev) (added rest : List Entry) :
      (initEntries cdevP added rest).Only OwnsNoMore := by
    induction rest generalizing added with
    | nil => trivial
    | cons i rest ih =>
      simp only [initEntries, perform_eq, call_bind, ret_bind, only_call, only_ite]
      refine ⟨trivial, fun _ =>
        ⟨fun _ => ?_, fun _ => (hfree _).bind fun _ => by simp [OwnsNoMore]⟩⟩
      simp [OwnsNoMore, ih]
  simp [upciedevInitModuleExp, OwnsNoMore, hentries]

theorem ownInv_setUp (hrun : upciedevInitModuleExp.Run (driver E) w tr 0 u) :
    OwnInv u (fun _ => none) tr := by
  obtain ⟨-, htable⟩ := hrun.of_wp upciedevInitModuleExp_wp rfl
  have hsts (d : Entry) : (u.pciedevDevM d).devSts = 0 := by
    rw [htable d]
    rfl
  constructor
  · simp [hsts]
  · have howned : ownedFor u (fun _ => none) = fun _ => false := by
      funext r
      cases r with
      | node d => simp [ownedFor, hsts]
      | vectors dev => rfl
    rw [boardLog_unused (upciedevInitModuleExp_ownsNoMore.run hrun), howned]
    exact .nil

theorem OwnInv.stay (h : OwnInv w boards tr) (hunused : boardLog tr' = [])
    (hsts : ∀ d, (u.pciedevDevM d).devSts = (w.pciedevDevM d).devSts)
    (hmsi : ∀ d, (u.pciedevDevM d).msi = (w.pciedevDevM d).msi) : OwnInv u boards (tr ++ tr') where
  live d := by rw [hsts, h.live]
  obeyed := by
    have howned : ownedFor u boards = ownedFor w boards := by
      funext r
      cases r with
      | node d => exact congrArg (fun x => decide (x ≠ 0)) (hsts d)
      | vectors dev => simp only [ownedFor, hmsi]
    rw [boardLog_append, hunused, List.append_nil, howned]
    exact h.obeyed

theorem OwnInv.refused (h : OwnInv w boards tr) (hdevices : DeviceInv w boards tr) {fuel : ℕ}
    {tmpParentNum err : ℤ} {brdNum : ℕ}
    (hrun : (pciedevProbeExp fuel dev tmpParentNum).Run (driver E) w tr' (err, brdNum) u)
    (hne : err ≠ 0) :
    OwnInv u boards (tr ++ tr') := by
  obtain ⟨b, -, -, -, hend, -⟩ := hdevices.probe hrun
  obtain ⟨b', -, howns⟩ : ∃ b' : Entry, brdNum = b'.val ∧ ProbeOwns dev b' w tr' err u :=
    (hrun.of_wp (pciedevProbeExp_owns fuel tmpParentNum)).resolve_left hdevices.nullBound
  rw [ProbeOwns, if_neg hne] at howns
  have hbinded (v : ℤ) (d : Entry) :
      ((w.updateDev b fun x => { x with binded := v }).pciedevDevM d).devSts =
      (w.pciedevDevM d).devSts ∧
        ((w.updateDev b fun x => { x with binded := v }).pciedevDevM d).msi =
      (w.pciedevDevM d).msi := by
    by_cases hd : d = b <;> simp [World.updateDev, hd]
  cases hend with
  | disabled _ _ hu =>
    subst hu
    exact h.stay howns (fun d => (hbinded 1 d).1) fun d => (hbinded 1 d).2
  | unclaimed _ hu =>
    subst hu
    exact h.stay howns (fun d => (hbinded 0 d).1) fun d => (hbinded 0 d).2
  | bound => exact absurd rfl hne

theorem OwnInv.probed (h : OwnInv w boards tr) (hdevices : DeviceInv w boards tr)
    (hdev : boards dev = none) {fuel : ℕ} {tmpParentNum : ℤ}
    (hrun : (pciedevProbeExp fuel dev tmpParentNum).Run (driver E) w tr' (0, b.val) u) :
    OwnInv u (Function.update boards dev (some b)) (tr ++ tr') := by
  obtain ⟨b', hnum, -, hfree, hend, -⟩ := hdevices.probe hrun
  obtain rfl : b = b' := Fin.ext hnum
  obtain ⟨b', hnum', howns⟩ : ∃ b' : Entry, b.val = b'.val ∧ ProbeOwns dev b' w tr' 0 u :=
    (hrun.of_wp (pciedevProbeExp_owns fuel tmpParentNum)).resolve_left hdevices.nullBound
  obtain rfl : b = b' := Fin.ext hnum'
  rw [ProbeOwns, if_pos rfl] at howns
  have hbound : Bound b dev w u := by
    cases hend with
    | disabled hne | unclaimed hne => exact absurd rfl hne
    | bound hbound => exact hbound
  constructor
  · intro d
    by_cases hd : d = b
    · subst hd
      simp only [hbound.devSts, ne_eq, one_ne_zero, not_false_eq_true, true_iff]
      exact ⟨dev, Function.update_self ..⟩
    · rw [hbound.others d hd, h.live d]
      apply exists_congr
      intro dev'
      by_cases hsame : dev' = dev
      · subst hsame
        simp [hdev, Ne.symm hd]
      · rw [Function.update_of_ne hsame]
  · have howned : ownedFor u (Function.update boards dev (some b)) =
        Function.update (Function.update (ownedFor w boards) (.vectors dev)
          (decide ((u.pciedevDevM b).msi ≠ 0))) (.node b) true := by
      funext r
      cases r with
      | node d =>
        by_cases hd : d = b
        · subst hd
          simp [ownedFor, hbound.devSts]
        · simp [ownedFor, hd, hbound.others d hd]
      | vectors dev' =>
        by_cases hsame : dev' = dev
        · subst hsame
          simp [ownedFor]
        · cases hb' : boards dev' with
          | none => simp [ownedFor, hsame, hb']
          | some b' => simp [ownedFor, hsame, hb', hbound.others b' (hdevices.other hfree hb')]
    rw [howned]
    have hstart : ownedFor w boards (.vectors dev) = false := by simp [ownedFor, hdev]
    rw [← hstart] at howns
    exact howns.obeyed h.obeyed

theorem Removed.owned (h : Removed b w u) (d : Entry) :
    (u.pciedevDevM d).devSts = (if d = b then 0 else (w.pciedevDevM d).devSts) ∧
      (d ≠ b → (u.pciedevDevM d).msi = (w.pciedevDevM d).msi) := by
  rw [h.pciedevDevM d]
  by_cases hd : d = b
  · subst hd
    simp [PciedevDev.orphan, PciedevDev.removed, PciedevDev.unlocked]
  · simp [PciedevDev.orphan, hd]

theorem OwnInv.removed (h : OwnInv w boards tr) (hdevices : DeviceInv w boards tr)
    (hdev : boards dev = some b) {fuel : ℕ} {result : ℤ}
    (hrun : (pciedevRemoveExp fuel dev).Run (driver E) w tr' result u) :
    OwnInv u (Function.update boards dev none) (tr ++ tr') := by
  obtain ⟨-, -, hdrv, hpci⟩ := hdevices.paired _ _ hdev
  have hremoved := hrun.of_wp (pciedevRemoveExp_wp fuel dev hdrv)
  have howns := hrun.of_wp (pciedevRemoveExp_owns fuel hdrv hpci)
  have hotherEntry {dev' : PciDev} {b' : Entry} (hsame : dev' ≠ dev) (hb' : boards dev' = some b') :
      b' ≠ b := by
    rintro rfl
    exact hsame (hdevices.entry_unique hb' hdev)
  constructor
  · intro d
    rw [(hremoved.owned d).1]
    by_cases hd : d = b
    · subst hd
      simp only [if_true, ne_eq, not_true_eq_false, false_iff, not_exists]
      intro dev' hdev'
      by_cases hsame : dev' = dev
      · subst hsame
        simp at hdev'
      · rw [Function.update_of_ne hsame] at hdev'
        exact hotherEntry hsame hdev' rfl
    · rw [if_neg hd, h.live d]
      apply exists_congr
      intro dev'
      by_cases hsame : dev' = dev
      · subst hsame
        simp [hdev, Ne.symm hd]
      · rw [Function.update_of_ne hsame]
  · have howned : ownedFor u (Function.update boards dev none) =
        Function.update (Function.update (ownedFor w boards) (.vectors dev) false)
          (.node b) false := by
      funext r
      cases r with
      | node d =>
        by_cases hd : d = b
        · subst hd
          simp [ownedFor, (hremoved.owned d).1]
        · simp [ownedFor, hd, (hremoved.owned d).1]
      | vectors dev' =>
        by_cases hsame : dev' = dev
        · subst hsame
          simp [ownedFor]
        · cases hb' : boards dev' with
          | none => simp [ownedFor, hsame, hb']
          | some b' => simp [ownedFor, hsame, hb', (hremoved.owned b').2 (hotherEntry hsame hb')]
    rw [howned]
    have hvectors : ownedFor w boards (.vectors dev) = decide ((w.pciedevDevM b).msi ≠ 0) := by
      simp [ownedFor, hdev]
    have hnode : ownedFor w boards (.node b) = true := decide_eq_true ((h.live b).mpr ⟨dev, hdev⟩)
    rw [← hvectors, ← hnode] at howns
    exact howns.obeyed h.obeyed

theorem DriverRun.owns (h : DriverRun E w boards tr) : OwnInv w boards tr := by
  induction h with
  | setUp hrun => exact ownInv_setUp hrun
  | probed h hdev hrun ih => exact ih.probed h.inv hdev hrun
  | refused h _ hrun hne ih => exact ih.refused h.inv hrun hne
  | removed h hdev hrun ih => exact ih.removed h.inv hdev hrun
  | interrupt _ hrun ih =>
    have hkeeps (b : Entry) (num : ℕ) :
        (pciedevSetupInterrupt b num).Only (Keeps fun v => (v.devSts, v.msi)) := by
      simp [pciedevSetupInterrupt, Keeps]
    have hsame := hrun.of_wp (keeps_wp (hkeeps _ _))
    exact ih.stay (hrun.of_wp (LeavesDevices.boardLog_wp (pciedevSetupInterrupt_device _ _)))
      (fun d => congrArg Prod.fst (hsame d)) fun d => congrArg Prod.snd (hsame d)
  | call _ c hrun ih =>
    have hkeeps :
        c.program.Only (Keeps fun v => (v.devSts, v.msi)) :=
          (fileCall_allowed c).mono fun op hop => by
      cases op with
      | store d f => cases hop.2.1 <;> exact fun _ => rfl
      | _ => trivial
    have hsame := hrun.of_wp (keeps_wp hkeeps)
    exact ih.stay (hrun.of_wp (LeavesDevices.boardLog_wp (fileCall_device c)))
      (fun d => congrArg Prod.fst (hsame d)) fun d => congrArg Prod.snd (hsame d)

/-- In every run what boards own is made and removed by the rules, and there are device nodes for
exactly the entries of boards. -/
theorem boards_own (h : DriverRun E w boards tr) :
    boardRules.Obeyed false (boardLog tr) (ownedFor w boards) ∧
      ∀ d, ownedFor w boards (.node d) = true ↔ ∃ dev, boards dev = some d :=
  ⟨h.owns.obeyed, fun d => decide_eq_true_iff.trans (h.owns.live d)⟩

/-- One board whose device has an interrupt vector. -/
def vectorAnswers : Answers Unit
  | .pciAllocIrqVectors _ _ _, _ => some ((1 : ℤ), ())
  | c, e => Outcome.answers {} c e

set_option maxRecDepth 8000 in
theorem boards_own_oneBoard : ∃ (w : World Unit) (tr : Trace),
    DriverRun openEnvironment w (Function.update (fun _ => none) 0 (some 0)) tr ∧
    (boardLog tr = [(.vectors 0, .make), (.node 0, .make)]) ∧
    boardRules.Obeyed false (boardLog tr)
      (ownedFor w (Function.update (fun _ => none) 0 (some 0))) := by
  obtain ⟨tr₀, w₀, tr₁, w₁, hset, hprobe, hlog⟩ :
      ∃ (tr₀ : Trace) (w₀ : World Unit) (tr₁ : Trace) (w₁ : World Unit),
      upciedevInitModuleExp.Run (driver openEnvironment) (.uniform {}) tr₀ 0 w₀ ∧
      (pciedevProbeExp 0 0 0).Run (driver openEnvironment) w₀ tr₁ ((0 : ℤ), 0) w₁ ∧
      boardLog (tr₀ ++ tr₁) = [(.vectors 0, .make), (.node 0, .make)] :=
    ⟨_, _, _, _, run_of_answers vectorAnswers (fun _ _ _ _ _ => trivial) rfl,
      run_of_answers vectorAnswers (fun _ _ _ _ _ => trivial) rfl, rfl⟩
  have hbound := DriverRun.probed (.setUp hset) rfl (b := 0) hprobe
  exact ⟨w₁, tr₀ ++ tr₁, hbound, hlog, (boards_own hbound).1⟩

@[reducible] def KeepsSetUp (op : Op) : Prop := releasedBy op = none

theorem released_eq_nil (h : ∀ e ∈ tr, KeepsSetUp e.op) : released tr = [] :=
  List.filterMap_eq_nil_iff.mpr h

theorem LeavesDevices.keepsSetUp {p : Kernel α} (hp : p.Only LeavesDevices) : p.Only KeepsSetUp :=
  hp.mono fun _ => LeavesDevices.releasedBy

theorem probeBars_keepsSetUp (slot : ℕ) (bars : List Bar) :
    (probeBars dev b slot bars).Only KeepsSetUp := by
  induction bars with
  | nil => trivial
  | cons i bars ih => exact Only.bind (by simp [probeBar, KeepsSetUp, releasedBy]) fun _ => ih

theorem probeEntry_keepsSetUp (fuel : ℕ) (tmpParentNum : ℤ) :
    (probeEntry fuel dev b tmpParentNum).Only KeepsSetUp := by
  have hnumbers : (probeNumbers dev b tmpParentNum).Only KeepsSetUp := by
    simp only [probeNumbers, perform_eq, call_bind, ret_bind, only_call]
    refine ⟨rfl, fun _ => ⟨rfl, fun _ => ⟨rfl, fun _ => Only.bind ?_ fun slot => ?_⟩⟩⟩
    · simp [probeSlotNum, slotCapOf, KeepsSetUp, releasedBy]
    · simp [KeepsSetUp, releasedBy]
  have hresources (slot : ℕ) (busNumber devNumber : UInt32) :
      (probeResources fuel dev b slot busNumber devNumber).Only KeepsSetUp := by
    apply (LeavesDevices.keepsSetUp (probeDmaMask_device dev b)).bind
    intro _
    apply (LeavesDevices.keepsSetUp (probeIdentity_device dev b)).bind
    intro _
    apply (LeavesDevices.keepsSetUp (probeBaseTable_device b _ _ _)).bind
    intro _
    refine (only_call _ _).mpr ⟨rfl, fun _ => (probeBars_keepsSetUp _ _).bind fun _ => ?_⟩
    apply (LeavesDevices.keepsSetUp (printBaseTable_device b _)).bind
    intro _
    apply (LeavesDevices.keepsSetUp (probeInfo_device b fuel)).bind
    intro _
    simp [probeInterrupts, KeepsSetUp, releasedBy]
  have hcreate (slot : ℕ) : (probeCreate b slot).Only KeepsSetUp :=
    Only.bind (by simp [destroyStale, KeepsSetUp, releasedBy]) fun _ => by
      simp [KeepsSetUp, releasedBy]
  simp only [probeEntry, perform_eq, call_bind, ret_bind, only_call, only_ite]
  refine ⟨rfl, fun _ =>
    ⟨rfl, fun err => ⟨fun _ => trivial, fun _ => ⟨rfl, fun err => ⟨fun _ => ?_, fun _ => ?_⟩⟩⟩⟩⟩
  · exact Only.bind (by simp [probeRegionsFailed, KeepsSetUp, releasedBy]) fun _ => trivial
  · refine Only.bind (hnumbers.bind fun numbers => ?_) fun _ => trivial
    exact (only_call _ _).mpr ⟨rfl, fun _ => (hresources _ _ _).bind fun _ => hcreate _⟩

theorem pciedevProbeExp_keepsSetUp (fuel : ℕ) (tmpParentNum : ℤ) :
    (pciedevProbeExp fuel dev tmpParentNum).Only KeepsSetUp := by
  apply (LeavesDevices.keepsSetUp (findUnbound_device _)).bind
  intro mBrdNum
  split_ifs
  · trivial
  · exact (probeEntry_keepsSetUp fuel _).bind fun _ => trivial
  · simp [fault, KeepsSetUp, releasedBy]

theorem unmapBars_keepsSetUp {d : Entry} (bars : List Bar) :
    (unmapBars dev d bars).Only KeepsSetUp := by
  induction bars with
  | nil => trivial
  | cons i bars ih => exact Only.bind (by simp [unmapBar, KeepsSetUp, releasedBy]) fun _ => ih

theorem pciedevRemoveExp_keepsSetUp (fuel : ℕ) : (pciedevRemoveExp fuel dev).Only KeepsSetUp := by
  have hinterrupts (d : Entry) : (removeInterrupts d).Only KeepsSetUp := by
    have hfree := LeavesDevices.keepsSetUp (freeIrqs_device d (List.range 32))
    simp only [removeInterrupts, perform_eq, call_bind, ret_bind, only_call, only_ite]
    refine ⟨rfl, fun v => ⟨fun _ => hfree.bind fun _ => ?_, fun _ => ?_⟩⟩
    all_goals simp [KeepsSetUp, releasedBy]
  have hlocked (d : Entry) (slot : ℤ) : (removeLocked dev d slot).Only KeepsSetUp := by
    apply (unmapBars_keepsSetUp _).bind
    intro _
    have horphan := fun nodes => LeavesDevices.keepsSetUp (orphanFiles_device d nodes)
    simp only [perform_eq, call_bind, ret_bind, only_call]
    refine ⟨rfl, fun _ =>
      ⟨rfl, fun _ => ⟨rfl, fun _ => ⟨rfl, fun _ => ⟨rfl, fun _ => ⟨rfl, fun _ => ⟨rfl, ?_⟩⟩⟩⟩⟩⟩⟩
    refine fun _ => ⟨rfl, fun _ => ⟨rfl, fun _ => (horphan _).bind fun _ => ?_⟩⟩
    simp [KeepsSetUp, releasedBy]
  have huntil (d : Entry) (slot : ℤ) (fuel : ℕ) :
      (lockUntil d (removeLocked dev d slot) fuel).Only KeepsSetUp := by
    induction fuel with
    | zero => simp [lockUntil, fault, KeepsSetUp, releasedBy]
    | succ fuel ih =>
      refine (only_call _ _).mpr ⟨rfl, fun _ =>
        (only_ite ..).mpr ⟨fun _ => ih, fun _ => hlocked d slot⟩⟩
  refine (only_call _ _).mpr ⟨rfl, fun r => ?_⟩
  cases r with
  | none => trivial
  | some d =>
    refine (only_call _ _).mpr ⟨rfl, fun _ =>
      (only_call _ _).mpr ⟨rfl, fun _ => (hinterrupts d).bind fun _ => ?_⟩⟩
    exact (LeavesDevices.keepsSetUp (removeBaseTable_device d _)).bind fun _ => huntil _ _ _

theorem upciedevInitModuleExp_keepsSetUp : upciedevInitModuleExp.wp (driver E) w fun tr result _ =>
    result = 0 → released tr = [] := by
  simp only [upciedevInitModuleExp, perform_eq, call_bind, ret_bind, wp_kernel]
  intro allocated e _
  cases allocated with
  | false =>
    simp only [Bool.false_eq_true, if_false, pure_eq, wp_ret]
    exact fun h => absurd h (by decide)
  | true =>
    simp only [if_true, wp_note, wp_kernel, wp_setCdev, wp_cdev]
    intro chrdev _ _ created _ _ version _ _
    apply wp_mono (initEntries_ends _ _ _)
    intro tr result _ hend hzero
    cases hend with
    | added _ hkept => simp [Upciedev.releasedBy, hkept]
    | notAllocated | notAdded => exact absurd hzero (by decide)

theorem DriverRun.released (h : DriverRun E w boards tr) : released tr = [] := by
  induction h with
  | setUp hrun => exact hrun.of_wp upciedevInitModuleExp_keepsSetUp rfl
  | probed _ _ hrun ih =>
    rw [released_append, ih, released_eq_nil ((pciedevProbeExp_keepsSetUp _ _).run hrun),
      List.nil_append]
  | refused _ _ hrun _ ih =>
    rw [released_append, ih, released_eq_nil ((pciedevProbeExp_keepsSetUp _ _).run hrun),
      List.nil_append]
  | removed _ _ hrun ih =>
    rw [released_append, ih, released_eq_nil ((pciedevRemoveExp_keepsSetUp _).run hrun),
      List.nil_append]
  | interrupt _ hrun ih =>
    have hkeeps (b : Entry) (num : ℕ) :=
      LeavesDevices.keepsSetUp (pciedevSetupInterrupt_device b num)
    rw [released_append, ih, released_eq_nil ((hkeeps _ _).run hrun), List.nil_append]
  | call _ c hrun ih =>
    have hkeeps := LeavesDevices.keepsSetUp (fileCall_device c)
    rw [released_append, ih, released_eq_nil (hkeeps.run hrun), List.nil_append]

theorem upciedevCleanupModuleExp_only (allocated : List Entry) :
    (upciedevCleanupModuleExp allocated).Only fun op => UsesNoDevice op ∧ OwnsNoMore op := by
  have hentries (ds : List Entry) : (cleanupEntries ds).Only fun op => UsesNoDevice op ∧
      OwnsNoMore op := by
    induction ds with
    | nil => trivial
    | cons d ds ih => simp [cleanupEntries, UsesNoDevice, OwnsNoMore, ih]
  simp only [upciedevCleanupModuleExp, perform_eq, call_bind, ret_bind, only_call]
  refine ⟨⟨trivial, trivial⟩, fun _ => ⟨⟨trivial, trivial⟩, fun _ => (hentries _).bind fun _ => ?_⟩⟩
  simp [UsesNoDevice, OwnsNoMore]

/-- When all boards are gone, the cleanup of the driver leaves nothing behind: no resource of the
set-up, no device that is still enabled, claimed or mapped, no node and no interrupt vectors. -/
theorem driver_gives_back (h : DriverRun E w boards tr) (hgone : ∀ dev, boards dev = none)
    (hrun : (upciedevCleanupModuleExp (List.finRange (pciedevNrDevs + 1))).Run
      (driver E) w tr' () u) :
    GivenBack (tr ++ tr') ∧ pciRules.Obeyed .nothing (pciLog (tr ++ tr')) (fun _ => .nothing) ∧
      boardRules.Obeyed false (boardLog (tr ++ tr')) fun _ => false := by
  have honly := (upciedevCleanupModuleExp_only _).run hrun
  have hheld : heldFor w boards = fun _ => .nothing := by
    funext dev
    simp [heldFor, hgone dev]
  have howned : ownedFor w boards = fun _ => false := by
    funext r
    cases r with
    | node d =>
      apply decide_eq_false
      rw [h.owns.live d]
      simp [hgone]
    | vectors dev => simp [ownedFor, hgone dev]
  refine ⟨cleanup_gives_back h.released hrun, ?_, ?_⟩
  · rw [pciLog_append, pciLog_unused fun e he => (honly e he).1, List.append_nil, ← hheld]
    exact h.inv.obeyed
  · rw [boardLog_append, boardLog_unused fun e he => (honly e he).2, List.append_nil, ← howned]
    exact h.owns.obeyed

set_option maxRecDepth 8000 in
theorem driver_gives_back_oneBoard : ∃ (w u : World Unit) (tr tr' : Trace),
    DriverRun openEnvironment w (fun _ => none) tr ∧
    (upciedevCleanupModuleExp (List.finRange (pciedevNrDevs + 1))).Run (driver openEnvironment)
      w tr' () u ∧
    boardLog tr = [(.vectors 0, .make), (.node 0, .make), (.vectors 0, .remove),
      (.node 0, .remove)] ∧
    GivenBack (tr ++ tr') := by
  obtain ⟨tr₀, w₀, tr₁, w₁, tr₂, w₂, tr₃, w₃, hset, hprobe, hremove, hcleanup, hlog⟩ :
      ∃ (tr₀ : Trace) (w₀ : World Unit) (tr₁ : Trace) (w₁ : World Unit) (tr₂ : Trace)
        (w₂ : World Unit) (tr₃ : Trace) (w₃ : World Unit),
      upciedevInitModuleExp.Run (driver openEnvironment) (.uniform {}) tr₀ 0 w₀ ∧
      (pciedevProbeExp 0 0 0).Run (driver openEnvironment) w₀ tr₁ ((0 : ℤ), 0) w₁ ∧
      (pciedevRemoveExp 1 0).Run (driver openEnvironment) w₁ tr₂ 0 w₂ ∧
      (upciedevCleanupModuleExp (List.finRange (pciedevNrDevs + 1))).Run (driver openEnvironment)
        w₂ tr₃ () w₃ ∧
      boardLog (tr₀ ++ tr₁ ++ tr₂) =
        [(.vectors 0, .make), (.node 0, .make), (.vectors 0, .remove), (.node 0, .remove)] :=
    ⟨_, _, _, _, _, _, _, _, run_of_answers vectorAnswers (fun _ _ _ _ _ => trivial) rfl,
      run_of_answers vectorAnswers (fun _ _ _ _ _ => trivial) rfl,
      run_of_answers vectorAnswers (fun _ _ _ _ _ => trivial) rfl,
      run_of_answers vectorAnswers (fun _ _ _ _ _ => trivial) rfl, rfl⟩
  have hbound := DriverRun.probed (.setUp hset) rfl (b := 0) hprobe
  have hgone := DriverRun.removed hbound (Function.update_self ..) hremove
  rw [Function.update_idem, Function.update_eq_self] at hgone
  exact ⟨w₂, w₃, tr₀ ++ tr₁ ++ tr₂, tr₃, hgone, hcleanup, hlog,
    (driver_gives_back hgone (fun _ => rfl) hcleanup).1⟩

end Upciedev
