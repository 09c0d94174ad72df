import Upciedev.Model.FileOps

/-!
# Running the driver on given answers

The driver's operations computed, for an environment whose answers are a function. A
BAR array read past its end answers with the null pointer or with zero.
-/
namespace Upciedev

open Foundations

/-- Answers of the rest of the kernel; `none` where it does not answer. -/
abbrev Answers (ε : Type) := (c : KernelCall) → ε → Option (c.Res × ε)

variable {ε α : Type}

def barEntryOr {β : Type} (arr : Bar → β) (i : UInt32) (past : β) : β :=
  if h : i.toNat < numberOfBars then arr ⟨i.toNat, h⟩ else past

theorem barEntryOr_allowed {β : Type} (arr : Bar → β) (i : UInt32) (past : β) :
    barEntry arr i (barEntryOr arr i past) := fun h => dif_pos h

/-- The `driver` relation as a function. -/
def driverStep (answer : Answers ε) : (op : Op) → World ε → Option (op.Res × World ε)
  | .privateData filp, w => some (w.privateData filp, w)
  | .setPrivateData filp d, w =>
      some ((), { w with privateData := Function.update w.privateData filp d })
  | .setFPos filp pos, w => some ((), { w with fPos := Function.update w.fPos filp pos })
  | .load d, w => some (w.pciedevDevM d, w)
  | .store d f, w => some ((), w.updateDev d f)
  | .memmoryBase d i, w => some (barEntryOr (w.pciedevDevM d).memmoryBase i none, w)
  | .memBase d i, w => some (barEntryOr (w.pciedevDevM d).memBase i 0, w)
  | .memBaseEnd d i, w => some (barEntryOr (w.pciedevDevM d).memBaseEnd i 0, w)
  | .cdev, w => some (w.cdev, w)
  | .setCdev f, w => some ((), { w with cdev := f w.cdev })
  | .drvdata dev, w => some (w.drvdata dev, w)
  | .setDrvdata dev d, w => some ((), { w with drvdata := Function.update w.drvdata dev d })
  | .baseRow t slot, w => some (w.baseUpciedevDev t slot, w)
  | .setBaseRow t slot f, w => some ((), w.updateRow t slot f)
  | .baseBar t slot bar, w => some ((w.baseUpciedevDev t slot).bars bar, w)
  | .setBaseBar t slot bar v, w =>
      some ((), w.updateRow t slot fun row => { row with bars := Function.update row.bars bar v })
  | .enterCritRegion _, w => some ((0 : ℤ), w)
  | .leaveCritRegion _, w => some ((0 : ℤ), w)
  | .longLockOfCriticalRegion _, w => some (notImplemented, w)
  | .unlockLongCritRegion _, w => some (notImplemented, w)
  | .kernel c, w =>
      match answer c w.env with
      | none => none
      | some (r, e) => some (r, { w with env := e })
  | .fault _, _ => none
  | .note _, w => some ((), w)

theorem driver_of_driverStep {E : Environment ε} {answer : Answers ε}
    (hE : ∀ c e r e', answer c e = some (r, e') → E c e r e')
    (op : Op) (w : World ε) (r : op.Res) (w' : World ε)
    (h : driverStep answer op w = some (r, w')) : driver E op w r w' := by
  cases op with
  | kernel c =>
    simp only [driverStep] at h
    split at h
    · simp at h
    · next v e hv =>
      obtain ⟨rfl, rfl⟩ := Prod.mk.inj (Option.some.inj h)
      exact ⟨e, hE c w.env v e hv, rfl⟩
  | fault f => simp [driverStep] at h
  | memmoryBase d i | memBase d i | memBaseEnd d i =>
    obtain ⟨rfl, rfl⟩ := Prod.mk.inj (Option.some.inj h)
    exact ⟨barEntryOr_allowed _ _ _, rfl⟩
  | setPrivateData | setFPos | store | setCdev | setDrvdata | setBaseRow | setBaseBar | note =>
    exact (Prod.mk.inj (Option.some.inj h)).2.symm
  | _ =>
    obtain ⟨rfl, rfl⟩ := Prod.mk.inj (Option.some.inj h)
    exact ⟨rfl, rfl⟩

/-- No BAR array is read past its end. -/
def Op.inRange : Op → Bool
  | .memmoryBase _ i | .memBase _ i | .memBaseEnd _ i => i.toNat < numberOfBars
  | _ => true

theorem barEntryOr_unique {β : Type} {arr : Bar → β} {i : UInt32} {r past : β}
    (hi : i.toNat < numberOfBars) (h : barEntry arr i r) : barEntryOr arr i past = r :=
  (dif_pos hi).trans (h hi).symm

theorem driverStep_of_driver {E : Environment ε} {answer : Answers ε}
    (hE : ∀ c e r e', E c e r e' → answer c e = some (r, e')) {op : Op} (hop : op.inRange = true)
    {w w' : World ε} {r : op.Res} (h : driver E op w r w') :
    driverStep answer op w = some (r, w') := by
  cases op with
  | kernel c =>
    obtain ⟨e, hanswer, rfl⟩ := h
    simp only [driverStep, hE c w.env r e hanswer]
  | fault f => exact r.elim
  | memmoryBase d i | memBase d i | memBaseEnd d i =>
    obtain ⟨hentry, rfl⟩ := h
    simp only [driverStep, barEntryOr_unique (of_decide_eq_true hop) hentry]
  | setPrivateData | setFPos | store | setCdev | setDrvdata | setBaseRow | setBaseBar | note =>
    subst h
    rfl
  | _ =>
    obtain ⟨rfl, rfl⟩ := h
    rfl

theorem run_of_answers {E : Environment ε} (answer : Answers ε)
    (hE : ∀ c e r e', answer c e = some (r, e') → E c e r e')
    {p : Kernel α} {w w' : World ε} {tr : Trace} {a : α}
    (h : p.exec (driverStep answer) w = some (tr, a, w')) : p.Run (driver E) w tr a w' :=
  Program.run_of_exec (driver_of_driverStep hE) h

/-- What one hardware and one caller answer; everything they do not decide succeeds. -/
structure Outcome where
  request : (T : UserType) → Option T.Val := fun _ => none
  register : ℤ → UInt32 := fun _ => 0
  enable : ℤ := 0

/-- Every board has one BAR of 4 KiB, mapped at 1. -/
def Outcome.answers (o : Outcome) : Answers Unit
  | .accessOk _ _, _ => some (true, ())
  | .copyFromUser T _, _ => some (o.request T, ())
  | .copyToUser _ _ _, _ => some (false, ())
  | .ioread _ a, _ => some (o.register a.off, ())
  | .iowrite _ _ _, _ => some ((), ())
  | .uninit, _ => some ((0 : UInt32), ())
  | .kzalloc _, _ => some (true, ())
  | .kfree _, _ => some ((), ())
  | .allocChrdevRegion, _ => some (((0 : ℤ), (240 : ℤ)), ())
  | .classCreate, _ => some (true, ())
  | .unregisterChrdevRegion, _ | .classDestroy, _ | .cdevDel _, _ => some ((), ())
  | .moduleVersion, _ => some ((((2 : UInt16), (0 : UInt16)), ((1 : UInt16), (0 : UInt16))), ())
  | .cdevAdd _, _ => some ((0 : ℤ), ())
  | .deviceCreate _, _ | .deviceDestroy _, _ => some ((), ())
  | .registerProc _ _, _ | .unregisterProc _, _ => some ((), ())
  | .pciEnableDevice _, _ => some (o.enable, ())
  | .pciRequestRegions _, _ => some ((0 : ℤ), ())
  | .pciDisableDevice _, _ | .pciReleaseRegions _, _ | .pciSetMaster _, _ => some ((), ())
  | .pciDevfn _, _ | .pciBusNumber _, _ => some ((0 : UInt32), ())
  | .pciFindCapability _ _, _ => some ((0 : ℤ), ())
  | .pciReadConfigByte _ _, _ => some ((0 : UInt8), ())
  | .pciReadConfigWord _ _, _ => some ((0 : UInt16), ())
  | .pciReadConfigDword _ _ _, _ => some ((0 : UInt32), ())
  | .pciSetDmaMask _ _, _ | .pciSetConsistentDmaMask _ _, _ => some ((0 : ℤ), ())
  | .pciResourceStart _ i, _ => some (if i.val = 0 then (0x1000 : UInt64) else 0, ())
  | .pciResourceEnd _ i, _ => some (if i.val = 0 then (0x1fff : UInt64) else 0, ())
  | .pciResourceFlags _ _, _ => some ((0 : UInt64), ())
  | .pciIomap _ _ _, _ => some (some 1, ())
  | .pciIounmap _ _, _ => some ((), ())
  | .pciMsiVecCount _, _ | .pciAllocIrqVectors _ _ _, _ => some ((0 : ℤ), ())
  | .pciDisableMsi _, _ => some ((), ())
  | .pciIrq _, _ => some ((0 : UInt32), ())
  | .requestIrq _ _, _ => some ((0 : ℤ), ())
  | .freeIrq _, _ => some ((), ())
  | .remapPfnRange _ _, _ => some ((0 : ℤ), ())

/-- The environment that answers so, and not otherwise. -/
def Outcome.environment (o : Outcome) : Environment Unit :=
  fun c e r e' => o.answers c e = some (r, e')

section
variable (w : World ε)

@[simps -fullyApplied] def World.withEnv (e : ε) : World ε := { w with env := e }

@[simps -fullyApplied] def World.setPrivateData (filp : File) (d : Entry) : World ε :=
  { w with privateData := Function.update w.privateData filp d }

@[simps -fullyApplied] def World.setFPos (filp : File) (pos : UInt64) : World ε :=
  { w with fPos := Function.update w.fPos filp pos }

@[simps -fullyApplied] def World.setCdev (f : PciedevCdev → PciedevCdev) : World ε :=
  { w with cdev := f w.cdev }

@[simps -fullyApplied] def World.setDrvdata (dev : PciDev) (d : Option Entry) : World ε :=
  { w with drvdata := Function.update w.drvdata dev d }

@[simp] theorem World.withEnv_self : w.withEnv w.env = w := rfl

@[simp] theorem World.withEnv_withEnv (e e' : ε) : (w.withEnv e).withEnv e' = w.withEnv e' := rfl

@[simp] theorem World.updateDev_withEnv (e : ε) (d : Entry) (f : PciedevDev → PciedevDev) :
    (w.withEnv e).updateDev d f = (w.updateDev d f).withEnv e := rfl

theorem World.updateDev_updateDev (d : Entry) (f g : PciedevDev → PciedevDev) :
    (w.updateDev d f).updateDev d g = w.updateDev d (g ∘ f) := by
  simp [World.updateDev]

theorem World.updateDev_eq_self {d : Entry} {f : PciedevDev → PciedevDev}
    (h : f (w.pciedevDevM d) = w.pciedevDevM d) : w.updateDev d f = w := by
  simp [World.updateDev, h]

theorem World.updateRow_updateRow (t : TranslationUnit) (slot : ℕ)
    (f g : UpciedevPhysAddress → UpciedevPhysAddress) :
    (w.updateRow t slot f).updateRow t slot g = w.updateRow t slot fun row => g (f row) := by
  simp [World.updateRow]

theorem World.updateDev_self (d : Entry) (f : PciedevDev → PciedevDev) :
    (w.updateDev d f).pciedevDevM d = f (w.pciedevDevM d) := Function.update_self ..

theorem World.updateDev_other {d d' : Entry} (h : d' ≠ d) (f : PciedevDev → PciedevDev) :
    (w.updateDev d f).pciedevDevM d' = w.pciedevDevM d' := Function.update_of_ne h ..

end

section
open Program
variable {E : Environment ε} {w : World ε} {Q : Trace → α → World ε → Prop}

theorem wp_step (op : Op) {r : op.Res} {w' : World ε}
    (hstep : ∀ r' w'', driver E op w r' w'' ↔ r' = r ∧ w'' = w') (k : op.Res → Kernel α) :
    (call (I := driverInterface) op k).wp (driver E) w Q ↔
      (k r).wp (driver E) w' fun tr a u => Q (⟨op, r⟩ :: tr) a u := by
  constructor
  · exact fun h => h r w' ((hstep r w').mpr ⟨rfl, rfl⟩)
  · rintro h r' w'' hop
    obtain ⟨rfl, rfl⟩ := (hstep r' w'').mp hop
    exact h

theorem twp_step (op : Op) {r : op.Res} {w' : World ε}
    (hstep : ∀ r' w'', driver E op w r' w'' ↔ r' = r ∧ w'' = w') (k : op.Res → Kernel α) :
    (call (I := driverInterface) op k).twp (driver E) w Q ↔
      (k r).twp (driver E) w' fun tr a u => Q (⟨op, r⟩ :: tr) a u := by
  constructor
  · exact fun h => h.2 r w' ((hstep r w').mpr ⟨rfl, rfl⟩)
  · intro h
    refine ⟨⟨r, w', (hstep r w').mpr ⟨rfl, rfl⟩⟩, fun r' w'' hop => ?_⟩
    obtain ⟨rfl, rfl⟩ := (hstep r' w'').mp hop
    exact h

theorem guarded_step {G : Op → Prop} (op : Op) {r : op.Res} {w' : World ε}
    (hstep : ∀ r' w'', driver E op w r' w'' ↔ r' = r ∧ w'' = w') (k : op.Res → Kernel α) :
    (call (I := driverInterface) op k).Guarded (driver E) G w ↔
      G op ∧ (k r).Guarded (driver E) G w' := by
  constructor
  · exact fun h => ⟨h.1, h.2 r w' ((hstep r w').mpr ⟨rfl, rfl⟩)⟩
  · intro h
    refine ⟨h.1, fun r' w'' hop => ?_⟩
    obtain ⟨rfl, rfl⟩ := (hstep r' w'').mp hop
    exact h.2

theorem guarded_fault {G : Op → Prop} (f : Fault) :
    (fault f : Kernel α).Guarded (driver E) G w ↔ G (.fault f) :=
  and_iff_left fun r => nomatch r

@[simp] theorem twp_privateData (filp : File) (k : Entry → Kernel α) :
    (call (I := driverInterface) (.privateData filp) k).twp (driver E) w Q ↔
      (k (w.privateData filp)).twp (driver E) w
        fun tr a u => Q (⟨.privateData filp, w.privateData filp⟩ :: tr) a u :=
  twp_step (.privateData filp) (fun _ _ => Iff.rfl) k

@[simp] theorem twp_load (d : Entry) (k : PciedevDev → Kernel α) :
    (call (I := driverInterface) (.load d) k).twp (driver E) w Q ↔
      (k (w.pciedevDevM d)).twp (driver E) w
        fun tr a u => Q (⟨.load d, w.pciedevDevM d⟩ :: tr) a u :=
  twp_step (.load d) (fun _ _ => Iff.rfl) k

@[simp] theorem twp_drvdata (dev : PciDev) (k : Option Entry → Kernel α) :
    (call (I := driverInterface) (.drvdata dev) k).twp (driver E) w Q ↔
      (k (w.drvdata dev)).twp (driver E) w
        fun tr a u => Q (⟨.drvdata dev, w.drvdata dev⟩ :: tr) a u :=
  twp_step (.drvdata dev) (fun _ _ => Iff.rfl) k

@[simp] theorem twp_store (d : Entry) (f : PciedevDev → PciedevDev) (k : Unit → Kernel α) :
    (call (I := driverInterface) (.store d f) k).twp (driver E) w Q ↔
      (k ()).twp (driver E) (w.updateDev d f)
        fun tr a u => Q (⟨.store d f, ()⟩ :: tr) a u :=
  twp_step (.store d f) (fun _ _ => (and_iff_right rfl).symm) k

theorem barEntry_iff {β : Type} {arr : Bar → β} {i : UInt32} {j : Bar} (h : i.toNat = j.val)
    {r : β} :
    barEntry arr i r ↔ r = arr j := by
  have hj : (⟨i.toNat, h ▸ j.isLt⟩ : Bar) = j := Fin.ext h
  constructor
  · intro hr
    rw [hr (h ▸ j.isLt), hj]
  · intro hr hlt
    rw [hr, hj]

theorem twp_memBase {d : Entry} {i : UInt32} {j : Bar} (h : i.toNat = j.val)
    (k : UInt32 → Kernel α) :
    (call (I := driverInterface) (.memBase d i) k).twp (driver E) w Q ↔
      (k ((w.pciedevDevM d).memBase j)).twp (driver E) w
        fun tr a u => Q (⟨.memBase d i, (w.pciedevDevM d).memBase j⟩ :: tr) a u :=
  twp_step (.memBase d i) (fun _ _ => and_congr_left' (barEntry_iff h)) k

theorem twp_memBaseEnd {d : Entry} {i : UInt32} {j : Bar} (h : i.toNat = j.val)
    (k : UInt32 → Kernel α) :
    (call (I := driverInterface) (.memBaseEnd d i) k).twp (driver E) w Q ↔
      (k ((w.pciedevDevM d).memBaseEnd j)).twp (driver E) w
        fun tr a u => Q (⟨.memBaseEnd d i, (w.pciedevDevM d).memBaseEnd j⟩ :: tr) a u :=
  twp_step (.memBaseEnd d i) (fun _ _ => and_congr_left' (barEntry_iff h)) k

theorem twp_memmoryBase {d : Entry} {i : UInt32} {j : Bar} (h : i.toNat = j.val)
    (k : IoPtr → Kernel α) :
    (call (I := driverInterface) (.memmoryBase d i) k).twp (driver E) w Q ↔
      (k ((w.pciedevDevM d).memmoryBase j)).twp (driver E) w
        fun tr a u => Q (⟨.memmoryBase d i, (w.pciedevDevM d).memmoryBase j⟩ :: tr) a u :=
  twp_step (.memmoryBase d i) (fun _ _ => and_congr_left' (barEntry_iff h)) k

@[simp] theorem twp_note (n : Note) (k : Unit → Kernel α) :
    (call (I := driverInterface) (.note n) k).twp (driver E) w Q ↔
      (k ()).twp (driver E) w fun tr a u => Q (⟨.note n, ()⟩ :: tr) a u :=
  twp_step (.note n) (fun _ _ => (and_iff_right rfl).symm) k

theorem twp_kernel (c : KernelCall) (k : c.Res → Kernel α) :
    (call (I := driverInterface) (.kernel c) k).twp (driver E) w Q ↔
      (∃ r e, E c w.env r e) ∧ ∀ r e, E c w.env r e → (k r).twp (driver E) (w.withEnv e)
        fun tr a u => Q (⟨.kernel c, r⟩ :: tr) a u := by
  constructor
  · intro ⟨⟨r, w', e, hE, _⟩, h⟩
    exact ⟨⟨r, e, hE⟩, fun r e hE => h r _ ⟨e, hE, rfl⟩⟩
  · intro ⟨⟨r, e, hE⟩, h⟩
    refine ⟨⟨r, w.withEnv e, e, hE, rfl⟩, ?_⟩
    rintro r _ ⟨e, hE, rfl⟩
    exact h r e hE

@[simp] theorem wp_privateData (filp : File) (k : Entry → Kernel α) :
    (call (I := driverInterface) (.privateData filp) k).wp (driver E) w Q ↔
      (k (w.privateData filp)).wp (driver E) w
        fun tr a u => Q (⟨.privateData filp, w.privateData filp⟩ :: tr) a u :=
  wp_step (.privateData filp) (fun _ _ => Iff.rfl) k

@[simp] theorem wp_load (d : Entry) (k : PciedevDev → Kernel α) :
    (call (I := driverInterface) (.load d) k).wp (driver E) w Q ↔
      (k (w.pciedevDevM d)).wp (driver E) w
        fun tr a u => Q (⟨.load d, w.pciedevDevM d⟩ :: tr) a u :=
  wp_step (.load d) (fun _ _ => Iff.rfl) k

@[simp] theorem wp_cdev (k : PciedevCdev → Kernel α) :
    (call (I := driverInterface) .cdev k).wp (driver E) w Q ↔
      (k w.cdev).wp (driver E) w fun tr a u => Q (⟨.cdev, w.cdev⟩ :: tr) a u :=
  wp_step .cdev (fun _ _ => Iff.rfl) k

@[simp] theorem wp_drvdata (dev : PciDev) (k : Option Entry → Kernel α) :
    (call (I := driverInterface) (.drvdata dev) k).wp (driver E) w Q ↔
      (k (w.drvdata dev)).wp (driver E) w
        fun tr a u => Q (⟨.drvdata dev, w.drvdata dev⟩ :: tr) a u :=
  wp_step (.drvdata dev) (fun _ _ => Iff.rfl) k

@[simp] theorem wp_baseRow (t : TranslationUnit) (slot : ℕ) (k : UpciedevPhysAddress → Kernel α) :
    (call (I := driverInterface) (.baseRow t slot) k).wp (driver E) w Q ↔
      (k (w.baseUpciedevDev t slot)).wp (driver E) w
        fun tr a u => Q (⟨.baseRow t slot, w.baseUpciedevDev t slot⟩ :: tr) a u :=
  wp_step (.baseRow t slot) (fun _ _ => Iff.rfl) k

@[simp] theorem wp_baseBar (t : TranslationUnit) (slot bar : ℕ)
    (k : UpciedevBarAddress → Kernel α) :
    (call (I := driverInterface) (.baseBar t slot bar) k).wp (driver E) w Q ↔
      (k ((w.baseUpciedevDev t slot).bars bar)).wp (driver E) w
        fun tr a u => Q (⟨.baseBar t slot bar, ((w.baseUpciedevDev t slot).bars bar)⟩ :: tr) a u :=
  wp_step (.baseBar t slot bar) (fun _ _ => Iff.rfl) k

@[simp] theorem wp_enterCritRegion (d : Entry) (k : ℤ → Kernel α) :
    (call (I := driverInterface) (.enterCritRegion d) k).wp (driver E) w Q ↔
      (k (0 : ℤ)).wp (driver E) w fun tr a u => Q (⟨.enterCritRegion d, (0 : ℤ)⟩ :: tr) a u :=
  wp_step (.enterCritRegion d) (fun _ _ => Iff.rfl) k

@[simp] theorem wp_leaveCritRegion (d : Entry) (k : ℤ → Kernel α) :
    (call (I := driverInterface) (.leaveCritRegion d) k).wp (driver E) w Q ↔
      (k (0 : ℤ)).wp (driver E) w fun tr a u => Q (⟨.leaveCritRegion d, (0 : ℤ)⟩ :: tr) a u :=
  wp_step (.leaveCritRegion d) (fun _ _ => Iff.rfl) k

@[simp] theorem wp_longLockOfCriticalRegion (d : Entry) (k : ℤ → Kernel α) :
    (call (I := driverInterface) (.longLockOfCriticalRegion d) k).wp (driver E) w Q ↔
      (k notImplemented).wp (driver E) w
        fun tr a u => Q (⟨.longLockOfCriticalRegion d, notImplemented⟩ :: tr) a u :=
  wp_step (.longLockOfCriticalRegion d) (fun _ _ => Iff.rfl) k

@[simp] theorem wp_unlockLongCritRegion (d : Entry) (k : ℤ → Kernel α) :
    (call (I := driverInterface) (.unlockLongCritRegion d) k).wp (driver E) w Q ↔
      (k notImplemented).wp (driver E) w
        fun tr a u => Q (⟨.unlockLongCritRegion d, notImplemented⟩ :: tr) a u :=
  wp_step (.unlockLongCritRegion d) (fun _ _ => Iff.rfl) k

@[simp] theorem wp_setPrivateData (filp : File) (d : Entry) (k : Unit → Kernel α) :
    (call (I := driverInterface) (.setPrivateData filp d) k).wp (driver E) w Q ↔
      (k ()).wp (driver E) (w.setPrivateData filp d)
        fun tr a u => Q (⟨.setPrivateData filp d, ()⟩ :: tr) a u :=
  wp_step (.setPrivateData filp d) (fun _ _ => (and_iff_right rfl).symm) k

@[simp] theorem wp_setFPos (filp : File) (pos : UInt64) (k : Unit → Kernel α) :
    (call (I := driverInterface) (.setFPos filp pos) k).wp (driver E) w Q ↔
      (k ()).wp (driver E) (w.setFPos filp pos)
        fun tr a u => Q (⟨.setFPos filp pos, ()⟩ :: tr) a u :=
  wp_step (.setFPos filp pos) (fun _ _ => (and_iff_right rfl).symm) k

@[simp] theorem wp_store (d : Entry) (f : PciedevDev → PciedevDev) (k : Unit → Kernel α) :
    (call (I := driverInterface) (.store d f) k).wp (driver E) w Q ↔
      (k ()).wp (driver E) (w.updateDev d f)
        fun tr a u => Q (⟨.store d f, ()⟩ :: tr) a u :=
  wp_step (.store d f) (fun _ _ => (and_iff_right rfl).symm) k

@[simp] theorem wp_setCdev (f : PciedevCdev → PciedevCdev) (k : Unit → Kernel α) :
    (call (I := driverInterface) (.setCdev f) k).wp (driver E) w Q ↔
      (k ()).wp (driver E) (w.setCdev f)
        fun tr a u => Q (⟨.setCdev f, ()⟩ :: tr) a u :=
  wp_step (.setCdev f) (fun _ _ => (and_iff_right rfl).symm) k

@[simp] theorem wp_setDrvdata (dev : PciDev) (d : Option Entry) (k : Unit → Kernel α) :
    (call (I := driverInterface) (.setDrvdata dev d) k).wp (driver E) w Q ↔
      (k ()).wp (driver E) (w.setDrvdata dev d)
        fun tr a u => Q (⟨.setDrvdata dev d, ()⟩ :: tr) a u :=
  wp_step (.setDrvdata dev d) (fun _ _ => (and_iff_right rfl).symm) k

@[simp] theorem wp_setBaseRow (t : TranslationUnit) (slot : ℕ)
    (f : UpciedevPhysAddress → UpciedevPhysAddress) (k : Unit → Kernel α) :
    (call (I := driverInterface) (.setBaseRow t slot f) k).wp (driver E) w Q ↔
      (k ()).wp (driver E) (w.updateRow t slot f)
        fun tr a u => Q (⟨.setBaseRow t slot f, ()⟩ :: tr) a u :=
  wp_step (.setBaseRow t slot f) (fun _ _ => (and_iff_right rfl).symm) k

@[simp] theorem wp_setBaseBar (t : TranslationUnit) (slot bar : ℕ) (v : UpciedevBarAddress)
    (k : Unit → Kernel α) :
    (call (I := driverInterface) (.setBaseBar t slot bar v) k).wp (driver E) w Q ↔
      (k ()).wp (driver E)
        (w.updateRow t slot fun row => { row with bars := Function.update row.bars bar v })
        fun tr a u => Q (⟨.setBaseBar t slot bar v, ()⟩ :: tr) a u :=
  wp_step (.setBaseBar t slot bar v) (fun _ _ => (and_iff_right rfl).symm) k

@[simp] theorem wp_note (n : Note) (k : Unit → Kernel α) :
    (call (I := driverInterface) (.note n) k).wp (driver E) w Q ↔
      (k ()).wp (driver E) w
        fun tr a u => Q (⟨.note n, ()⟩ :: tr) a u :=
  wp_step (.note n) (fun _ _ => (and_iff_right rfl).symm) k

@[simp] theorem wp_fault (f : Fault) : (fault f : Kernel α).wp (driver E) w Q ↔ True :=
  iff_true_intro fun r => r.elim

theorem wp_kernel (c : KernelCall) (k : c.Res → Kernel α) :
    (call (I := driverInterface) (.kernel c) k).wp (driver E) w Q ↔
      ∀ r e, E c w.env r e → (k r).wp (driver E) (w.withEnv e) fun tr a u =>
        Q (⟨.kernel c, r⟩ :: tr) a u := by
  constructor
  · exact fun h r e hE => h r _ ⟨e, hE, rfl⟩
  · rintro h r _ ⟨e, hE, rfl⟩
    exact h r e hE

end

section
variable {E : Environment ε} {op : Op} {r : op.Res} {w w' : World ε}

theorem driver_pciedevDevM (h : driver E op w r w') :
    (∃ d f, op = .store d f ∧ w' = w.updateDev d f) ∨ w'.pciedevDevM = w.pciedevDevM := by
  cases op with
  | store d f => exact .inl ⟨d, f, rfl, h⟩
  | kernel c =>
    obtain ⟨e, -, rfl⟩ := h
    exact .inr rfl
  | fault f => exact r.elim
  | setPrivateData | setFPos | setCdev | setDrvdata | setBaseRow | setBaseBar | note =>
    subst h
    exact .inr rfl
  | _ =>
    obtain ⟨-, rfl⟩ := h
    exact .inr rfl

end

/-- The state in which every entry equals `v` and every file belongs to entry 0. -/
def World.uniform (v : PciedevDev) : World Unit :=
  { privateData := fun _ => 0
    fPos := fun _ => pciedFpos
    pciedevDevM := fun _ => v
    cdev := {}
    drvdata := fun _ => none
    baseUpciedevDev := fun _ _ => {}
    env := () }

end Upciedev
