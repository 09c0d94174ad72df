import Upciedev.Model.BaseModule
import Upciedev.Slots.ProbeTable

/-!
# Indices into the slot table

The rows and BARs of the slot table that each call uses. Two sweeps run one row past the
table, and neither the slot of a device nor that of a caller is checked.
-/
namespace Upciedev

open Foundations Program

variable {ε α : Type} {E : Environment ε} {w u : World ε}

/-- Every index into `dev_phys_addresses` and into `bars` is below the length of the array. -/
def InTable : Op → Prop
  | .baseRow _ slot | .setBaseRow _ slot _ => slot < numberOfSlots
  | .baseBar _ slot bar | .setBaseBar _ slot bar _ => slot < numberOfSlots ∧ bar < numberOfBars
  | _ => True

def OffTable : Op → Prop
  | .baseRow _ _ | .setBaseRow _ _ _ | .baseBar _ _ _ | .setBaseBar _ _ _ _ => False
  | _ => True

theorem OffTable.inTable {op : Op} (h : OffTable op) : InTable op := by
  cases op <;> first | exact h.elim | trivial

theorem Apart.offTable {op : Op} (h : Apart op) : OffTable op := by
  cases op <;> first | exact h.elim | trivial

theorem offTable_step {op : Op} {r : op.Res} (hop : OffTable op) (hstep : driver E op w r u) :
    u.baseUpciedevDev = w.baseUpciedevDev := by
  cases op with
  | baseRow | setBaseRow | baseBar | setBaseBar => exact hop.elim
  | kernel c =>
    obtain ⟨e, -, rfl⟩ := hstep
    rfl
  | fault f => exact r.elim
  | setPrivateData | setFPos | store | setCdev | setDrvdata | note =>
    subst hstep
    rfl
  | _ =>
    obtain ⟨-, rfl⟩ := hstep
    rfl

theorem offTable_wp {p : Kernel α} (hp : p.Only OffTable) :
    p.wp (driver E) w fun _ _ u => u.baseUpciedevDev = w.baseUpciedevDev :=
  hp.wp_inv (P := fun u : World ε => u.baseUpciedevDev = w.baseUpciedevDev)
    (fun _ _ _ _ h hop hstep => (offTable_step hop hstep).trans h) rfl

/-- The calls that use the slot table, and the set-up of a client driver. -/
inductive TableCall where
  | initModule
  | setUp
  | probe (fuel : ℕ) (dev : PciDev) (tmpParentNum : ℤ) (hw : PciHardware)
  | remove (fuel : ℕ) (dev : PciDev)
  | getPhysicalAddress (dev : Entry) (slotdev : DevicePhysAddress)
  | getSlotPciedevp (dev : Entry) (slotdev : DevicePhysAddress)

namespace TableCall

def program : TableCall → Kernel Unit
  | initModule => do let _ ← pciedevInitModule
  | setUp => do let _ ← upciedevInitModuleExp
  | probe fuel dev tmpParentNum _ => do let _ ← pciedevProbeExp fuel dev tmpParentNum
  | remove fuel dev => do let _ ← pciedevRemoveExp fuel dev
  | getPhysicalAddress dev slotdev => do let _ ← pciedevGetPhysicalAddress dev slotdev
  | getSlotPciedevp dev slotdev => do let _ ← pciedevGetSlotPciedevp dev slotdev

/-- The environment answers about a probed device as its hardware says. -/
def Answered (E : Environment ε) : TableCall → Prop
  | probe _ dev _ hw => hw.Answers E dev
  | _ => True

def Safe (w : World ε) : TableCall → Prop
  | initModule => False
  | setUp => True
  | probe _ _ _ hw => (∀ d, d ≠ nullEntry → (w.pciedevDevM d).binded ≠ 0) ∨ ¬ hw.Usable
  | remove _ dev => ∀ d, w.drvdata dev = some d → (w.pciedevDevM d).slotNum.toNat < numberOfSlots
  | getPhysicalAddress _ slotdev | getSlotPciedevp _ slotdev =>
      slotdev.slot = 0 ∨ (slotdev.slot.toNat < numberOfSlots ∧ slotdev.bar.toNat < numberOfBars)

end TableCall

def Sweeps (slots : List ℕ) (tr : Trace) : Prop :=
  ∀ slot ∈ slots, ∃ e ∈ tr, InTable e.op → slot < numberOfSlots

theorem Sweeps.append_left {slots : List ℕ} {tr : Trace} (h : Sweeps slots tr) (tr' : Trace) :
    Sweeps slots (tr' ++ tr) := by
  intro slot hslot
  obtain ⟨e, he, hin⟩ := h slot hslot
  exact ⟨e, List.mem_append_right _ he, hin⟩

theorem Sweeps.append_right {slots : List ℕ} {tr : Trace} (h : Sweeps slots tr) (tr' : Trace) :
    Sweeps slots (tr ++ tr') := by
  intro slot hslot
  obtain ⟨e, he, hin⟩ := h slot hslot
  exact ⟨e, List.mem_append_left _ he, hin⟩

theorem Sweeps.cons {slots : List ℕ} {tr : Trace} (h : Sweeps slots tr) {e : Event driverInterface}
    {slot : ℕ} (hin : InTable e.op → slot < numberOfSlots) : Sweeps (slot :: slots) (e :: tr) := by
  intro slot' hslot
  rcases List.mem_cons.mp hslot with rfl | hslot
  · exact ⟨e, List.mem_cons_self, hin⟩
  · obtain ⟨e', he', hin'⟩ := h slot' hslot
    exact ⟨e', List.mem_cons_of_mem _ he', hin'⟩

theorem Sweeps.leaves {tr : Trace} (h : Sweeps (List.range (numberOfSlots + 1)) tr) :
    ¬ ∀ e ∈ tr, InTable e.op := by
  intro hall
  obtain ⟨e, he, hlt⟩ := h numberOfSlots (List.mem_range.mpr (Nat.lt_succ_self _))
  exact absurd (hlt (hall e he)) (lt_irrefl _)

theorem clearRows_sweeps (slots : List ℕ) :
    (clearRows slots).wp (driver E) w fun tr _ _ => Sweeps slots tr := by
  induction slots generalizing w with
  | nil => exact fun _ h => absurd h List.not_mem_nil
  | cons i slots ih =>
    simp only [clearRows, perform_eq, call_bind, ret_bind, wp_setBaseRow, wp_bind]
    refine wp_of_forall fun tr _ x => wp_mono ih fun tr' _ y h => ?_
    exact Sweeps.cons ((h.append_left tr).append_left [_, _, _]) id

theorem printBaseTable_sweeps (b : Entry) (slots : List ℕ) :
    (printBaseTable b slots).wp (driver E) w fun tr _ _ => Sweeps slots tr := by
  induction slots generalizing w with
  | nil => exact fun _ h => absurd h List.not_mem_nil
  | cons i slots ih =>
    simp only [printBaseTable, perform_eq, call_bind, ret_bind, wp_load, wp_baseRow, wp_baseBar]
    apply wp_mono ih
    intro tr _ y h
    exact (Sweeps.cons (h.append_left [_, _, _, _, _, _]) id).append_left [_]

theorem findUnbound_offTable (ds : List Entry) : (findUnbound ds).Only OffTable := by
  induction ds with
  | nil => trivial
  | cons d ds ih => simp [findUnbound, OffTable, ih]

theorem find_nullEntry {p : Entry → Bool}
    (h : (List.finRange (pciedevNrDevs + 1)).find? p = some nullEntry) {d : Entry}
    (hd : d ≠ nullEntry) :
    p d = false := by
  obtain ⟨_, before, after, hlist, hbefore⟩ := List.find?_eq_some_iff_append.mp h
  have hsorted := List.pairwise_lt_finRange (pciedevNrDevs + 1)
  rw [hlist, List.pairwise_append, List.pairwise_cons] at hsorted
  have hmem : d ∈ before ++ nullEntry :: after := hlist ▸ List.mem_finRange d
  rcases List.mem_append.mp hmem with hmem | hmem
  · simpa using hbefore d hmem
  · rcases List.mem_cons.mp hmem with hnull | hafter
    · exact absurd hnull hd
    · exact absurd (hsorted.2.1.1 d hafter) (not_lt.mpr (Fin.le_last d))

section
variable {hw : PciHardware} {dev : PciDev} {b : Entry}

/-- The print of the table is part of every probe that gets past the claim of its device. -/
theorem probeBoard_sweeps (fuel : ℕ) (tmpParentNum : ℤ) :
    (probeBoard fuel dev b tmpParentNum).wp (driver E) w fun tr _ _ =>
      Sweeps (List.range (numberOfSlots + 1)) tr := by
  rw [probeBoard, wp_bind]
  apply wp_of_forall
  intro tr numbers x
  simp only [perform_eq, call_bind, ret_bind, wp_setDrvdata, wp_bind, probeResources, wp_store]
  refine wp_of_forall fun tr₁ _ x₁ => wp_of_forall fun tr₂ _ x₂ => wp_of_forall fun tr₃ _ x₃ => ?_
  refine wp_of_forall fun tr₄ _ x₄ => wp_mono (printBaseTable_sweeps b _) fun tr₅ _ x₅ h => ?_
  refine wp_of_forall fun tr₆ _ x₆ => wp_of_forall fun tr₇ _ x₇ => wp_of_forall fun tr₈ _ x₈ => ?_
  intro slot hslot
  obtain ⟨e, he, hin⟩ := h slot hslot
  exact ⟨e, by simp [he], hin⟩

theorem probeEntry_index (hE : hw.Answers E dev) (fuel : ℕ) (tmpParentNum : ℤ) :
    (probeEntry fuel dev b tmpParentNum).wp (driver E) w fun tr _ _ =>
      (∀ e ∈ tr, InTable e.op) ↔ ¬ hw.Usable := by
  simp only [probeEntry, perform_eq, call_bind, ret_bind, wp_store, wp_kernel, wp_ite]
  intro enabled e henabled
  obtain rfl := hE.enable _ _ _ henabled
  refine ⟨fun hne => ?_, fun henable claimed e' hclaimed => ?_⟩
  · exact iff_of_true (by simp [InTable]) fun h => hne h.1
  · obtain rfl := hE.claim _ _ _ hclaimed
    refine ⟨fun hne => ?_, fun hclaim => ?_⟩
    · have hfailed : (probeRegionsFailed dev b).Only Apart := by simp [probeRegionsFailed, Apart]
      refine (wp_bind ..).mpr (hfailed.wp fun tr _ _ htr => iff_of_true ?_ fun h => hne h.2)
      have hrest : ∀ e ∈ tr, InTable e.op := fun e he => (htr e he).offTable.inTable
      simpa [InTable] using hrest
    · refine (wp_bind ..).mpr (wp_mono (probeBoard_sweeps fuel tmpParentNum) fun tr _ _ h => ?_)
      refine iff_of_false ?_ fun hnot => hnot ⟨not_not.mp henable, not_not.mp hclaim⟩
      exact ((h.append_right []).append_left [_, _, _]).leaves

theorem pciedevProbeExp_index (hE : hw.Answers E dev) (fuel : ℕ) (tmpParentNum : ℤ) :
    (pciedevProbeExp fuel dev tmpParentNum).wp (driver E) w fun tr _ _ =>
      (∀ e ∈ tr, InTable e.op) ↔
        (∀ d, d ≠ nullEntry → (w.pciedevDevM d).binded ≠ 0) ∨ ¬ hw.Usable := by
  rw [pciedevProbeExp, wp_bind]
  apply wp_mono (wp_and_only (findUnbound_wp _) (findUnbound_offTable _))
  rintro tr mBrdNum u ⟨⟨hu, _, hnum⟩, htr⟩
  subst hu
  have hsearch : ∀ e ∈ tr, InTable e.op := fun e he => (htr e he).inTable
  cases hfind : (List.finRange (pciedevNrDevs + 1)).find? fun d => (u.pciedevDevM d).binded = 0 with
  | none =>
    rw [hfind] at hnum
    subst hnum
    exact (wp_fault _).mpr trivial
  | some b =>
    rw [hfind] at hnum
    have hval : mBrdNum = b.val := hnum
    have hfree : (u.pciedevDevM b).binded = 0 := by simpa using List.find?_some hfind
    by_cases hnull : mBrdNum = pciedevNrDevs
    · rw [if_pos hnull]
      have hb : b = nullEntry := Fin.ext (hval.symm.trans hnull)
      refine iff_of_true (by simpa using hsearch) (.inl fun d hne => ?_)
      exact of_decide_eq_false (find_nullEntry (hb ▸ hfind) hne)
    · have hlt : mBrdNum < pciedevNrDevs + 1 := hval ▸ b.isLt
      have hb : (⟨mBrdNum, hlt⟩ : Entry) = b := Fin.ext hval
      have hne : b ≠ nullEntry := fun h => hnull (hval.trans (congrArg Fin.val h))
      rw [if_neg hnull, dif_pos hlt, hb, wp_bind]
      apply wp_mono (probeEntry_index hE fuel tmpParentNum)
      intro tr' err u' h
      have hfull : ¬ ∀ d, d ≠ nullEntry → (u.pciedevDevM d).binded ≠ 0 :=
        fun hall => hall b hne hfree
      rw [or_iff_right hfull, ← h]
      simp only [pure_eq, wp_ret, List.forall_mem_append]
      exact ⟨fun h => h.2.1, fun h => ⟨hsearch, h, by simp⟩⟩

end

def RowOp (slot : ℕ) : Op → Prop
  | .setBaseRow _ s _ => s = slot
  | .setBaseBar _ s bar _ => s = slot ∧ bar < numberOfBars
  | .baseRow _ _ | .baseBar _ _ _ => False
  | _ => True

theorem RowOp.inTable {slot : ℕ} {op : Op} (h : RowOp slot op) (hlt : slot < numberOfSlots) :
    InTable op := by
  cases op with
  | setBaseRow t s f => exact h ▸ hlt
  | setBaseBar t s bar v => exact ⟨h.1 ▸ hlt, h.2⟩
  | baseRow | baseBar => exact h.elim
  | _ => trivial

theorem removeInterrupts_row (d : Entry) (slot : ℕ) : (removeInterrupts d).Only (RowOp slot) := by
  have hfree (is : List ℕ) : (freeIrqs d is).Only (RowOp slot) := by
    induction is with
    | nil => trivial
    | cons i is ih => simp [freeIrqs, RowOp, ih]
  have hmsi : Only (RowOp slot) (do
      let v ← load d
      if v.msi ≠ 0 then kernel (.pciDisableMsi v.pciedevPciDev) else pure ()) := by
    simp [RowOp]
  simp only [removeInterrupts, perform_eq, call_bind, ret_bind, only_call, only_ite]
  exact ⟨trivial, fun v => ⟨fun _ => (hfree _).bind fun _ => hmsi, fun _ => by simp [RowOp]⟩⟩

theorem clearBaseBars_row (d : Entry) (slot : ℕ) (bars : List Bar) :
    (clearBaseBars d slot bars).Only (RowOp slot) := by
  induction bars with
  | nil => trivial
  | cons i bars ih => simp [clearBaseBars, RowOp, ih]

theorem unmapBars_row (dev : PciDev) (d : Entry) (slot : ℕ) (bars : List Bar) :
    (unmapBars dev d bars).Only (RowOp slot) := by
  induction bars with
  | nil => trivial
  | cons i bars ih =>
    refine Only.bind ?_ fun _ => ih
    simp [unmapBar, RowOp]

theorem orphanFiles_row (d : Entry) (slot : ℕ) (nodes : List UpciedevFileList) :
    (orphanFiles d nodes).Only (RowOp slot) := by
  induction nodes with
  | nil => trivial
  | cons n nodes ih => simp [orphanFiles, RowOp, ih]

theorem removeLocked_row (dev : PciDev) (d : Entry) (tmpSlotNum : ℤ) (slot : ℕ) :
    (removeLocked dev d tmpSlotNum).Only (RowOp slot) := by
  apply (unmapBars_row dev d slot _).bind
  intro _
  simp only [perform_eq, call_bind, ret_bind, only_call, RowOp, true_and]
  intro _ _ _ _ _ _ _ _ _
  apply (orphanFiles_row d slot _).bind
  intro _
  simp [RowOp]

theorem lockUntil_row {d : Entry} {body : Kernel ℤ} {slot : ℕ} (hbody : body.Only (RowOp slot))
    (fuel : ℕ) : (lockUntil d body fuel).Only (RowOp slot) := by
  induction fuel with
  | zero => simp [lockUntil, fault, RowOp]
  | succ fuel ih => simp [lockUntil, RowOp, ih, hbody]

theorem pciedevRemoveExp_index (fuel : ℕ) (dev : PciDev) :
    (pciedevRemoveExp fuel dev).wp (driver E) w fun tr _ _ => (∀ e ∈ tr, InTable e.op) ↔
      ∀ d, w.drvdata dev = some d → (w.pciedevDevM d).slotNum.toNat < numberOfSlots := by
  simp only [pciedevRemoveExp, perform_eq, call_bind, ret_bind, wp_drvdata]
  cases hd : w.drvdata dev with
  | none =>
    refine iff_of_true (by simp [InTable]) fun d h => absurd h (by simp)
  | some d =>
    simp only [wp_load, wp_store]
    generalize hslot : (w.pciedevDevM d).slotNum = slot
    have hrow : (removeInterrupts d >>= fun _ => removeBaseTable d slot.toNat >>= fun _ =>
        lockUntil d (removeLocked dev d slot) fuel).Only (RowOp slot.toNat) := by
      refine (removeInterrupts_row d _).bind fun _ => Only.bind ?_ fun _ => ?_
      · simp [removeBaseTable, RowOp, clearBaseBars_row]
      · exact lockUntil_row (removeLocked_row dev d slot _) fuel
    have huses : (removeInterrupts d >>= fun _ => removeBaseTable d slot.toNat >>= fun _ =>
        lockUntil d (removeLocked dev d slot) fuel).wp (driver E)
        (w.updateDev d fun v => { v with prjInfoList := [] }) fun tr _ _ =>
          ∃ e ∈ tr, InTable e.op → slot.toNat < numberOfSlots := by
      rw [wp_bind]
      apply wp_of_forall
      intro tr _ x
      simp only [removeBaseTable, perform_eq, call_bind, ret_bind, wp_load, wp_setBaseRow, wp_bind]
      refine wp_of_forall fun tr' _ x' => wp_of_forall fun tr'' _ x'' => ?_
      exact ⟨⟨.setBaseRow (x.pciedevDevM d).parentBaseDev slot.toNat fun row =>
        { row with slotNum := 0 }, ()⟩, by simp, id⟩
    apply wp_mono (wp_and_only huses hrow)
    intro tr _ _ hpost
    obtain ⟨⟨e, he, hin⟩, htr⟩ := hpost
    constructor
    · rintro hall d' ⟨rfl⟩
      exact hslot ▸ hin (hall e (by simp [he]))
    · intro hlt
      have hrest : ∀ e ∈ tr, InTable e.op := fun e he =>
        (htr e he).inTable (hslot ▸ hlt d rfl)
      simpa [InTable] using hrest

section
variable {dev : Entry} {slotdev : DevicePhysAddress}

theorem pciedevGetPhysicalAddress_index :
    (pciedevGetPhysicalAddress dev slotdev).wp (driver E) w fun tr _ _ => (∀ e ∈ tr, InTable e.op) ↔
      slotdev.slot = 0 ∨
        (slotdev.slot.toNat < numberOfSlots ∧ slotdev.bar.toNat < numberOfBars) := by
  unfold pciedevGetPhysicalAddress
  by_cases hzero : slotdev.slot = 0
  · rw [if_pos hzero]
    exact iff_of_true (by simp) (.inl hzero)
  · rw [if_neg hzero, or_iff_right hzero]
    simp [slotBarInto, InTable]

theorem pciedevGetSlotPciedevp_index :
    (pciedevGetSlotPciedevp dev slotdev).wp (driver E) w fun tr _ _ => (∀ e ∈ tr, InTable e.op) ↔
      slotdev.slot = 0 ∨
        (slotdev.slot.toNat < numberOfSlots ∧ slotdev.bar.toNat < numberOfBars) := by
  unfold pciedevGetSlotPciedevp
  by_cases hzero : slotdev.slot = 0
  · rw [if_pos hzero]
    exact iff_of_true (by simp) (.inl hzero)
  · rw [if_neg hzero, or_iff_right hzero]
    simp only [slotBarInto, perform_eq, call_bind, ret_bind, wp_load, wp_baseRow, wp_baseBar,
      pure_eq, wp_ret]
    simp only [List.forall_mem_cons, InTable, true_and, List.not_mem_nil, false_imp_iff,
      implies_true, and_true]
    exact ⟨fun h => h.2.1, fun h => ⟨h.1, h, h.1⟩⟩

end

theorem upciedevInitModuleExp_offTable : upciedevInitModuleExp.Only OffTable := by
  have hfree (ks : List Entry) : (freeEntries ks).Only OffTable := by
    induction ks with
    | nil => trivial
    | cons k ks ih => simp [freeEntries, OffTable, ih]
  have hinit (cdevP : PciedevCdev) (added rest : List Entry) :
      (initEntries cdevP added rest).Only OffTable := by
    induction rest generalizing added with
    | nil => trivial
    | cons i rest ih =>
      simp only [initEntries, perform_eq, call_bind, ret_bind, only_call, only_ite]
      refine ⟨trivial, fun _ => ⟨fun _ => ?_, fun _ => (hfree _).bind fun _ => by simp [OffTable]⟩⟩
      exact ⟨trivial, fun _ =>
        ⟨trivial, fun _ => ⟨fun _ => trivial, fun _ => ⟨trivial, fun _ => ih _⟩⟩⟩⟩
  simp [upciedevInitModuleExp, OffTable, hinit]

theorem TableCall.index_wp (c : TableCall) (hE : c.Answered E) :
    c.program.wp (driver E) w fun tr _ _ => (∀ e ∈ tr, InTable e.op) ↔ c.Safe w := by
  have hdrop {β : Type} {p : Kernel β} {P : Prop}
      (hp : p.wp (driver E) w fun tr _ _ => (∀ e ∈ tr, InTable e.op) ↔ P) :
      Program.wp (driver E) (do let _ ← p) w fun tr _ _ => (∀ e ∈ tr, InTable e.op) ↔ P := by
    refine (wp_bind ..).mpr (wp_mono hp fun tr _ _ h => ?_)
    simpa using h
  cases c with
  | initModule =>
    refine hdrop ((wp_bind ..).mpr (wp_mono (clearRows_sweeps _) fun tr _ _ h => ?_))
    exact iff_of_false (h.append_right []).leaves id
  | setUp =>
    refine hdrop (Only.wp (G := OffTable) ?_ fun tr _ _ htr => ?_)
    · exact upciedevInitModuleExp_offTable
    · exact iff_of_true (fun e he => (htr e he).inTable) trivial
  | probe fuel dev n hw => exact hdrop (pciedevProbeExp_index hE fuel n)
  | remove fuel dev => exact hdrop (pciedevRemoveExp_index fuel dev)
  | getPhysicalAddress dev slotdev => exact hdrop pciedevGetPhysicalAddress_index
  | getSlotPciedevp dev slotdev => exact hdrop pciedevGetSlotPciedevp_index

/-- A completed call: the driver data it started from and what it did. -/
structure TableStep (ε : Type) where
  call : TableCall
  before : World ε
  trace : Trace

/-- Calls one after the other, the latest first. Between two of them the driver data may change in
any way, by other calls and by other client drivers. -/
inductive TableSteps : List (TableStep ε) → Prop
  | nil : TableSteps []
  | cons {steps : List (TableStep ε)} {c : TableCall} {E : Environment ε} {w u : World ε}
      {tr : Trace}
      (h : TableSteps steps) (hE : c.Answered E) (hrun : c.program.Run (driver E) w tr () u) :
      TableSteps (⟨c, w, tr⟩ :: steps)

/-- A run uses no index past an array exactly when every call of it is a safe one. -/
theorem slot_table_indices {steps : List (TableStep ε)} (h : TableSteps steps) :
    (∀ step ∈ steps, ∀ e ∈ step.trace, InTable e.op) ↔
      ∀ step ∈ steps, step.call.Safe step.before := by
  induction h with
  | nil => simp
  | cons h hE hrun ih =>
    rw [List.forall_mem_cons, List.forall_mem_cons, ih, hrun.of_wp (TableCall.index_wp _ hE)]

def lookUpSlot3 : TableCall :=
  .getSlotPciedevp 0 { slot := 3, bar := 0, offset := 0, phsAddress := 0, phsEnd := 0, phsFlag := 0,
                       reserved := 0, sts := 0 }

def deadDevice : PciHardware := { oneBarHardware with enable := -5 }

/-- Entry 0 has a board in slot 3, which device 0 leads to. -/
def boardInSlot3 : World Unit :=
  { World.uniform { binded := 1, devSts := 1, slotNum := 3 } with drvdata := fun _ => some 0 }

set_option maxRecDepth 8000 in
/-- A probe is refused, slot 3 is looked up, and the board in it is removed. -/
theorem slot_table_indices_threeCalls : ∃ (tr₁ tr₂ tr₃ : Trace),
    TableSteps [⟨.remove 1 0, boardInSlot3, tr₃⟩, ⟨lookUpSlot3, boardInSlot3, tr₂⟩,
      ⟨.probe 0 1 2 deadDevice, .uniform {}, tr₁⟩] ∧
    ∀ e ∈ tr₁ ++ tr₂ ++ tr₃, InTable e.op := by
  obtain ⟨tr₁, _, tr₂, _, tr₃, _, hprobe, hlookup, hremove⟩ : ∃ (tr₁ : Trace) (u₁ : World Unit)
      (tr₂ : Trace) (u₂ : World Unit) (tr₃ : Trace) (u₃ : World Unit),
      (TableCall.probe 0 1 2 deadDevice).program.Run
        (driver (Outcome.environment { enable := -5 })) (.uniform {}) tr₁ () u₁ ∧
      lookUpSlot3.program.Run (driver (Outcome.environment {})) boardInSlot3 tr₂ () u₂ ∧
      (TableCall.remove 1 0).program.Run (driver (Outcome.environment {})) boardInSlot3 tr₃ () u₃ :=
    ⟨_, _, _, _, _, _, run_of_answers (Outcome.answers { enable := -5 }) (fun _ _ _ _ h => h) rfl,
      run_of_answers (Outcome.answers {}) (fun _ _ _ _ h => h) rfl,
      run_of_answers (Outcome.answers {}) (fun _ _ _ _ h => h) rfl⟩
  have hanswers := Outcome.oneBar_answers { enable := -5 } 1
  have hsteps : TableSteps [⟨.remove 1 0, boardInSlot3, tr₃⟩, ⟨lookUpSlot3, boardInSlot3, tr₂⟩,
      ⟨.probe 0 1 2 deadDevice, .uniform {}, tr₁⟩] :=
    .cons (.cons (.cons .nil hanswers hprobe) trivial hlookup) trivial hremove
  have hunusable : ¬ deadDevice.Usable := fun h => absurd h.1 (by decide)
  have hindices := (slot_table_indices hsteps).mpr (by
    simp only [List.forall_mem_cons, List.not_mem_nil, false_implies, implies_true, and_true]
    refine ⟨?_, .inr ⟨by decide, by decide⟩, .inr hunusable⟩
    rintro d ⟨rfl⟩
    show 3 < numberOfSlots
    decide)
  simp only [List.forall_mem_cons, List.forall_mem_append] at hindices ⊢
  exact ⟨tr₁, tr₂, tr₃, hsteps, ⟨hindices.2.2.1, hindices.2.1⟩, hindices.1⟩

/-- Loading the driver clears a row behind the table. -/
theorem init_clears_past_table : ∃ tr : Trace, TableSteps [⟨.initModule, .uniform {}, tr⟩] ∧
    ¬ ∀ e ∈ tr, InTable e.op := by
  obtain ⟨tr, u, hrun⟩ : ∃ tr u, TableCall.initModule.program.Run (driver (Outcome.environment {}))
      (.uniform {}) tr () u := ⟨_, _, run_of_answers (Outcome.answers {}) (fun _ _ _ _ h => h) rfl⟩
  exact ⟨tr, .cons .nil trivial hrun, (hrun.of_wp (TableCall.index_wp .initModule trivial)).mp⟩

end Upciedev
