import Upciedev.Access.MmapRange
import Upciedev.Access.RequestTrace
import Upciedev.Boards.BoardTable
import Upciedev.Hotplug.Parties
import Upciedev.Model.FileFootprint

/-!
# Files of a removed board

A remove moves the open files of its board to the null device. Nothing that any party does gives
the null device a BAR or a live state, so a call on such a file that starts after the remove fails
before it reaches a register.
-/
namespace Upciedev

open Foundations Program System

variable {ε : Type} {E : Environment ε}

/-- What makes every call on the null device fail, and keeps probes away from it. -/
structure Dead (v : PciedevDev) : Prop where
  devSts : v.devSts = 0
  memmoryBase i : v.memmoryBase i = none
  memBase i : v.memBase i = 0
  binded : v.binded ≠ 0

/-- The null device is dead, and no device of the bus points to it. -/
structure NullInv (w : World ε) : Prop where
  dead : Dead (w.pciedevDevM nullEntry)
  drvdata dev : w.drvdata dev ≠ some nullEntry

def NullOp : Op → Prop
  | .store d f => d = nullEntry → KeepsBoard f
  | .setDrvdata _ d => d ≠ some nullEntry
  | _ => True

def nullAnswers : (op : Op) → op.Res → Prop
  | .load d, v => d = nullEntry → Dead v
  | .memBase d i, r => d = nullEntry → i.toNat < numberOfBars → r = 0
  | .drvdata _, d => d ≠ some nullEntry
  | _, _ => True

theorem Dead.store {v : PciedevDev} (h : Dead v) {f : PciedevDev → PciedevDev} (hf : KeepsBoard f) :
    Dead (f v) where
  devSts := (hf.devSts v).trans h.devSts
  memmoryBase i := (congrFun (hf.memmoryBase v) i).trans (h.memmoryBase i)
  memBase i := (congrFun (hf.memBase v) i).trans (h.memBase i)
  binded := by
    rw [hf.binded]
    exact h.binded

theorem nullInv_driver {op : Op} {w w' : World ε} {r : op.Res} (h : NullInv w) (hop : NullOp op)
    (hstep : driver E op w r w') : nullAnswers op r ∧ NullInv w' := by
  cases op with
  | store d f =>
    obtain rfl : w' = w.updateDev d f := hstep
    refine ⟨trivial, ?_, h.drvdata⟩
    by_cases hd : d = nullEntry
    · subst hd
      rw [World.updateDev_self]
      exact h.dead.store (hop rfl)
    · rw [World.updateDev_other _ (Ne.symm hd)]
      exact h.dead
  | setDrvdata dev d =>
    obtain rfl : w' = w.setDrvdata dev d := hstep
    refine ⟨trivial, h.dead, fun dev' => ?_⟩
    by_cases hdev : dev' = dev
    · subst hdev
      simpa [NullOp] using hop
    · simpa [Function.update_of_ne hdev] using h.drvdata dev'
  | load d =>
    obtain ⟨rfl, rfl⟩ := hstep
    exact ⟨fun hd => hd ▸ h.dead, h⟩
  | memBase d i =>
    obtain ⟨hr, rfl⟩ := hstep
    refine ⟨fun hd hi => ?_, h⟩
    rw [hr hi, hd, h.dead.memBase]
  | drvdata dev =>
    obtain ⟨rfl, rfl⟩ := hstep
    exact ⟨h.drvdata dev, h⟩
  | kernel c =>
    obtain ⟨e, -, rfl⟩ := hstep
    exact ⟨trivial, h.dead, h.drvdata⟩
  | fault f => exact r.elim
  | setPrivateData | setFPos | setCdev | setBaseRow | setBaseBar | note =>
    subst hstep
    exact ⟨trivial, h.dead, h.drvdata⟩
  | _ =>
    obtain ⟨-, rfl⟩ := hstep
    exact ⟨trivial, h⟩

theorem nullInv_step {op : Op} {s s' : Mutexed ε} {r : op.Res} (h : NullInv s.world)
    (hop : NullOp op) (hstep : mutexDriver E op s r s') : nullAnswers op r ∧ NullInv s'.world := by
  cases op with
  | enterCritRegion d =>
    obtain ⟨-, -, rfl⟩ := hstep
    exact ⟨trivial, h⟩
  | leaveCritRegion d =>
    obtain ⟨-, rfl⟩ := hstep
    exact ⟨trivial, h⟩
  | _ => exact nullInv_driver h hop hstep.1

theorem Loaded.nullInv {w : World ε} (h : Loaded E w) : NullInv w where
  dead := by
    obtain ⟨w₀, tr, hrun⟩ := h.setUp
    rw [(hrun.of_wp upciedevInitModuleExp_wp rfl).2 nullEntry]
    exact ⟨rfl, fun _ => rfl, fun _ => rfl, by simp [initEntry]⟩
  drvdata dev := by
    rw [h.drvdata dev]
    exact (Option.some_ne_none nullEntry).symm

theorem fileOp_nullOp {op : Op} (h : FileOp op) : NullOp op := by
  cases op with
  | store d f => exact fun _ => h
  | setDrvdata => exact h.elim
  | _ => trivial

theorem storesTo_nullOp {b : Entry} (hb : b ≠ nullEntry) {op : Op} (h : SetupOp b op) :
    NullOp op := by
  cases op with
  | store d f =>
    intro hd
    exact absurd (h.1.symm.trans hd) hb
  | setDrvdata => exact h.elim
  | _ => trivial

theorem probeEntry_nullOp (fuel : ℕ) (dev : PciDev) {b : Entry} (hb : b ≠ nullEntry)
    (tmpParentNum : ℤ) :
    (probeEntry fuel dev b tmpParentNum).Only NullOp := by
  have hsome : some b ≠ some nullEntry := fun h => hb (Option.some.inj h)
  have hcreate (slot : ℕ) : (probeCreate b slot).Only NullOp := by
    apply Only.bind (by simp [destroyStale, NullOp, hb])
    intro _
    simp [NullOp, hb]
  simp only [probeEntry, perform_eq, call_bind, ret_bind, only_call, only_ite]
  refine ⟨fun h => absurd h hb, fun _ =>
    ⟨trivial, fun err => ⟨fun _ => trivial, fun _ => ⟨trivial, fun err => ?_⟩⟩⟩⟩
  refine ⟨fun _ => Only.bind (by simp [probeRegionsFailed, NullOp, hb]) fun _ =>
    trivial, fun _ => ?_⟩
  refine Only.bind ?_ fun _ => trivial
  refine ((probeNumbers_setup dev _).mono fun _ => storesTo_nullOp hb).bind fun numbers => ?_
  refine (only_call _ _).mpr ⟨hsome, fun _ => ?_⟩
  exact ((probeResources_setup fuel dev _ _ _).mono fun _ => storesTo_nullOp hb).bind fun _ =>
    hcreate _

theorem findUnbound_nullOp (ds : List Entry) : (findUnbound ds).Only NullOp := by
  induction ds with
  | nil => trivial
  | cons d ds ih => simp [findUnbound, NullOp, ih]

theorem pciedevProbeExp_nullOp (fuel : ℕ) (dev : PciDev) (tmpParentNum : ℤ) :
    (pciedevProbeExp fuel dev tmpParentNum).Only NullOp := by
  apply (findUnbound_nullOp _).bind
  intro mBrdNum
  split_ifs with hnull hlt
  · trivial
  · refine (probeEntry_nullOp fuel dev ?_ tmpParentNum).bind fun _ => trivial
    intro hb
    exact hnull (congrArg Fin.val hb)
  · simp [fault, NullOp]

theorem orphanFiles_nullOp {d : Entry} (hd : d ≠ nullEntry) (nodes : List UpciedevFileList) :
    (orphanFiles d nodes).Only NullOp := by
  have hcount : KeepsBoard fun v => { v with devFileRef := v.devFileRef + 1 } := by
    constructor <;> intro v <;> first | rfl | exact id
  induction nodes with
  | nil => trivial
  | cons n nodes ih => simp [orphanFiles, NullOp, hd, ih, hcount]

theorem removeLocked_nullOp (dev : PciDev) {d : Entry} (hd : d ≠ nullEntry) (slot : ℤ) :
    (removeLocked dev d slot).Only NullOp := by
  have hunmap (bars : List Bar) : (unmapBars dev d bars).Only NullOp := by
    induction bars with
    | nil => trivial
    | cons i bars ih => exact Only.bind (by simp [unmapBar, NullOp, hd]) fun _ => ih
  apply (hunmap _).bind
  intro _
  simp only [perform_eq, call_bind, ret_bind, only_call, NullOp, true_and]
  refine fun _ _ _ _ => ⟨fun h => absurd h hd, fun _ => ⟨fun h => absurd h hd, fun _ _ _ _ => ?_⟩⟩
  exact (orphanFiles_nullOp hd _).bind fun _ => by simp [NullOp]

theorem pciedevRemoveExp_nullOp (fuel : ℕ) (dev : PciDev) :
    (pciedevRemoveExp fuel dev).Sat nullAnswers NullOp fun _ _ => True := by
  have hbars (d : Entry) (slot : ℕ) (bars : List Bar) :
      (clearBaseBars d slot bars).Only NullOp := by
    induction bars with
    | nil => trivial
    | cons i bars ih => simp [clearBaseBars, NullOp, ih]
  have hlock {d : Entry} (hd : d ≠ nullEntry) (slot : ℤ) (n : ℕ) :
      (lockUntil d (removeLocked dev d slot) n).Only NullOp := by
    induction n with
    | zero => simp [lockUntil, fault, NullOp]
    | succ n ih => simp [lockUntil, NullOp, ih, removeLocked_nullOp dev hd slot]
  refine ⟨trivial, ?_⟩
  rintro (_ | d) hd
  · trivial
  · have hne : d ≠ nullEntry := fun h => hd (congrArg some h)
    have hrest : Only NullOp (do
        let slot := (← load d).slotNum
        store d fun v => { v with prjInfoList := [] }
        removeInterrupts d
        removeBaseTable d slot.toNat
        lockUntil d (removeLocked dev d slot) fuel) := by
      refine (only_call _ _).mpr ⟨trivial, fun v =>
        (only_call _ _).mpr ⟨fun h => absurd h hne, fun _ => ?_⟩⟩
      refine ((removeInterrupts_steady d).mono ?_).bind fun _ => Only.bind ?_ fun _ => hlock hne _ _
      · intro op hop
        cases op <;> trivial
      · simp [removeBaseTable, NullOp, hbars]
    exact Sat.of_only hrest (fun _ h => h) fun _ _ _ => trivial

theorem partyCall_nullOp {l : Station} {c : PartyCall} (h : kernelClient.allowed l c) :
    c.program.Sat nullAnswers NullOp fun _ _ => True := by
  have hany {p : Kernel ℤ} (hp : p.Only NullOp) : p.Sat nullAnswers NullOp fun _ _ => True :=
    Sat.of_only hp (fun _ h => h) fun _ _ _ => trivial
  cases c with
  | file c => exact hany ((fileCall_fileOp c).mono fun _ => fileOp_nullOp)
  | probe fuel dev tmpParentNum =>
    exact hany ((pciedevProbeExp_nullOp fuel dev tmpParentNum).bind fun _ => trivial)
  | remove fuel dev => exact pciedevRemoveExp_nullOp fuel dev

theorem null_guaranteed {w : World ε} (hw : Loaded E w) {s : HotplugPool ε}
    (h : (hotplugSystem E).Steps (hotplugPool w) s) :
    Guaranteed nullAnswers NullOp (fun _ _ _ => True) (fun x => NullInv x.world) s := by
  have hstart : Guaranteed nullAnswers NullOp (fun _ _ _ => True) (fun x => NullInv x.world)
      (hotplugPool w) := ⟨hw.nullInv, nofun⟩
  refine hstart.steps (S := hotplugSystem E) (fun _ _ _ => partyCall_nullOp) ?_ h
  intro op x r x' hx hop hstep
  exact nullInv_step hx hop hstep

/-- The end of `pciedev_remove_exp`: the files in the list it has read go to the null device. -/
def emptyFiles (d : Entry) (nodes : List UpciedevFileList) : Kernel ℤ := do
  orphanFiles d nodes
  let _ ← leaveCritRegion d
  pure 0

example (dev : PciDev) (d : Entry) (slot : ℤ) : removeLocked dev d slot = (do
    unmapBars dev d (List.finRange numberOfBars)
    kernel (.pciReleaseRegions (← load d).pciedevPciDev)
    kernel (.deviceDestroy d)
    kernel (.unregisterProc slot)
    store d fun v => { v with devSts := 0 }
    store d fun v => { v with binded := 0 }
    setCdev fun c => { c with pciedevModuleNum := c.pciedevModuleNum - 1 }
    kernel (.pciDisableDevice dev)
    emptyFiles d (← load d).devFileList) := rfl

/-- The step in which the remove of `dev` reads the list of files it empties. -/
def Empties (dev : PciDev) (d : Entry) (s s' : HotplugPool ε) : Prop :=
  ∃ l c tr, s.thread (.device dev) =
      .calling l c tr (.call (I := driverInterface) (.load d) fun v => emptyFiles d v.devFileList) ∧
    s' = s.update s.shared (.device dev)
      (.calling l c (tr ++ [⟨.load d, s.shared.world.pciedevDevM d⟩])
      (emptyFiles d (s.shared.world.pciedevDevM d).devFileList))

/-- The system while file `filp` is not opened anew. -/
def keepingFile (E : Environment ε) (filp : File) :
    System driverInterface PartyCall Station ℤ (Mutexed ε) Party :=
  { hotplugSystem E with
    handler := fun op s r s' => mutexDriver E op s r s' ∧ ∀ d, op = .setPrivateData filp d →
      d = nullEntry }

/-- Every run of the program moves the file to the null device. -/
def WillOrphan (filp : File) : Kernel ℤ → Prop
  | .ret _ => False
  | .call op k => op = .setPrivateData filp nullEntry ∨ ∀ r, WillOrphan filp (k r)

theorem orphanFiles_willOrphan {filp : File} (d : Entry) {nodes : List UpciedevFileList}
    (h : filp ∈ nodes.map (·.filp)) (f : Unit → Kernel ℤ) :
    WillOrphan filp (orphanFiles d nodes >>= f) := by
  induction nodes with
  | nil => simp at h
  | cons n nodes ih =>
    simp only [orphanFiles, perform_eq, call_bind, ret_bind]
    by_cases hn : filp = n.filp
    · subst hn
      exact .inl rfl
    · have hrest : filp ∈ nodes.map (·.filp) := by simpa [hn] using h
      exact .inr fun _ => .inr fun _ => .inr fun _ => ih hrest

/-- The file is at the null device, or the remove is on its way to move it there. -/
def Orphaned (dev : PciDev) (filp : File) (s : HotplugPool ε) : Prop :=
  s.shared.world.privateData filp = nullEntry ∨
    ∃ l c tr p, s.thread (.device dev) = .calling l c tr p ∧ WillOrphan filp p

theorem driver_privateData {op : Op} {w w' : World ε} {r : op.Res} (hstep : driver E op w r w') :
    (∃ filp d, op = .setPrivateData filp d ∧
      w'.privateData = Function.update w.privateData filp d) ∨
      ((∀ filp d, op ≠ .setPrivateData filp d) ∧ w'.privateData = w.privateData) := by
  cases op with
  | setPrivateData filp d =>
    obtain rfl : w' = w.setPrivateData filp d := hstep
    exact .inl ⟨filp, d, rfl, rfl⟩
  | kernel c =>
    obtain ⟨e, -, rfl⟩ := hstep
    exact .inr ⟨nofun, rfl⟩
  | fault f => exact r.elim
  | setFPos | store | setCdev | setDrvdata | setBaseRow | setBaseBar | note =>
    subst hstep
    exact .inr ⟨nofun, rfl⟩
  | _ =>
    obtain ⟨-, rfl⟩ := hstep
    exact .inr ⟨nofun, rfl⟩

theorem mutexDriver_privateData {op : Op} {s s' : Mutexed ε} {r : op.Res}
    (hstep : mutexDriver E op s r s') :
    (∃ filp d, op = .setPrivateData filp d ∧
        s'.world.privateData = Function.update s.world.privateData filp d) ∨
      ((∀ filp d, op ≠ .setPrivateData filp d) ∧ s'.world.privateData = s.world.privateData) := by
  cases op with
  | enterCritRegion d =>
    obtain ⟨-, -, rfl⟩ := hstep
    exact .inr ⟨nofun, rfl⟩
  | leaveCritRegion d =>
    obtain ⟨-, rfl⟩ := hstep
    exact .inr ⟨nofun, rfl⟩
  | _ => exact driver_privateData hstep.1

theorem keptFile_step {filp : File} {op : Op} {s s' : Mutexed ε} {r : op.Res}
    (hkeep : ∀ d, op = .setPrivateData filp d → d = nullEntry) (hstep : mutexDriver E op s r s')
    (h : s.world.privateData filp = nullEntry ∨ op = .setPrivateData filp nullEntry) :
    s'.world.privateData filp = nullEntry := by
  rcases mutexDriver_privateData hstep with ⟨filp', d, rfl, hset⟩ | ⟨hne, hsame⟩
  · rw [hset]
    by_cases hf : filp = filp'
    · subst hf
      rw [Function.update_self]
      exact hkeep d rfl
    · rw [Function.update_of_ne hf]
      exact h.resolve_right fun heq => hf (by cases heq; rfl)
  · rw [hsame]
    exact h.resolve_right (hne _ _)

theorem orphaned_step {dev : PciDev} {filp : File} {s s' : HotplugPool ε} (h : Orphaned dev filp s)
    (hs : (keepingFile E filp).Step s s') : Orphaned dev filp s' := by
  rcases h with hnull | ⟨l₀, c₀, tr₀, p₀, hrun, hwill⟩
  · cases hs with
    | start | finish => exact .inl hnull
    | perform hcall hop => exact .inl (keptFile_step hop.2 hop.1 (.inl hnull))
  · cases hs with
    | @start t l c hidle hallowed =>
      have ht : Party.device dev ≠ t := by
        rintro rfl
        rw [hrun] at hidle
        cases hidle
      exact .inr ⟨l₀, c₀, tr₀, p₀, by rw [Pool.update_other _ _ ht, hrun], hwill⟩
    | @finish t l c tr a hret =>
      have ht : Party.device dev ≠ t := by
        rintro rfl
        rw [hrun] at hret
        cases hret
        exact hwill
      exact .inr ⟨l₀, c₀, tr₀, p₀, by rw [Pool.update_other _ _ ht, hrun], hwill⟩
    | @perform t l c tr op k r x hcall hop =>
      by_cases ht : Party.device dev = t
      · subst ht
        rw [hrun] at hcall
        cases hcall
        rcases hwill with hset | hrest
        · exact .inl (keptFile_step hop.2 hop.1 (.inr hset))
        · exact .inr ⟨_, _, _, _, Pool.update_same .., hrest r⟩
      · exact .inr ⟨l₀, c₀, tr₀, p₀, by rw [Pool.update_other _ _ ht, hrun], hwill⟩

/-- Operations that always answer, without the lock and without a call of the kernel. -/
def DeadOp : Op → Prop
  | .privateData _ | .setFPos _ _ | .load _ | .memBase _ _ => True
  | _ => False

def orphanAnswers (filp : File) : (op : Op) → op.Res → Prop
  | .privateData filp', d => filp' = filp → d = nullEntry
  | op, r => nullAnswers op r

/-- The three tests of liveness: the state of the entry, and the address of the BAR that is
mapped. -/
theorem request_dead {c : FileCall} (hc : c.IsRequest) {filp : File} (hfile : c.filp = filp) :
    c.program.Sat (orphanAnswers filp) DeadOp fun _ result => result < 0 := by
  have htest {dead : ℤ} (hdead : dead < 0) {p : PciedevDev → Kernel ℤ} :
      (Program.call (I := driverInterface) (.load nullEntry) fun v =>
        if v.devSts = 0 then pure dead else p v).Sat (orphanAnswers filp) DeadOp fun _ result =>
          result < 0 := by
    refine ⟨trivial, fun v hv => ?_⟩
    dsimp only
    rw [if_pos (hv rfl).devSts]
    exact hdead
  cases c with
  | openExp | releaseExp => exact hc.elim
  | readExp | writeExp | ioctlExp =>
    refine ⟨trivial, fun d hd => ?_⟩
    obtain rfl : d = nullEntry := hd hfile
    exact htest (by decide)
  | llseek =>
    refine ⟨trivial, fun d hd => ⟨trivial, fun _ _ => ?_⟩⟩
    obtain rfl : d = nullEntry := hd hfile
    exact htest (by decide)
  | remapMmapExp filp vma =>
    refine ⟨trivial, fun d hd => ?_⟩
    obtain rfl : d = nullEntry := hd hfile
    change Sat _ _ (if _ then _ else _) _
    split_ifs with hbar
    · exact (by decide : eNoEnt < 0)
    · refine ⟨trivial, fun start hstart => ?_⟩
      have hzero : start = 0 := hstart rfl (not_le.mp fun hle => hbar ((cInt_bar_iff _).mpr hle))
      change Sat _ _ (if _ then _ else _) _
      rw [if_pos hzero]
      exact (by decide : eNoMem < 0)

/-- The call of client `n`, if it is one on the file, has made dead operations only and goes on
so. -/
def LateCall (filp : File) (n : ℕ) (s : HotplugPool ε) : Prop :=
  ∀ l request tr p, s.thread (.client n) = .calling l (.file request) tr p → request.filp = filp →
    (∀ e ∈ tr, DeadOp e.op) ∧ p.Sat (orphanAnswers filp) DeadOp fun _ result => result < 0

/-- The file is at the null device, and so are all calls of client `n` on it. -/
structure OrphanInv (filp : File) (n : ℕ) (s : HotplugPool ε) : Prop where
  guaranteed : Guaranteed nullAnswers NullOp (fun _ _ _ => True) (fun x => NullInv x.world) s
  home t : AtHome t (s.thread t)
  orphan : s.shared.world.privateData filp = nullEntry
  late : LateCall filp n s

theorem client_request {n : ℕ} {l : Station} {c : PartyCall} (hl : l.Of (.client n))
    (hc : kernelClient.allowed l c) : ∃ request : FileCall, request.IsRequest ∧
      c = .file request := by
  cases l with
  | client => exact hc
  | closed | opened | unbound | bound => cases hl

theorem hotplug_step {filp : File} {s s' : HotplugPool ε} (hs : (keepingFile E filp).Step s s') :
    (hotplugSystem E).Step s s' := by
  cases hs with
  | start hidle hallowed => exact .start hidle hallowed
  | perform hcall hop => exact .perform hcall hop.1
  | finish hret => exact .finish hret

theorem hotplug_steps {filp : File} {s s' : HotplugPool ε} (h : (keepingFile E filp).Steps s s') :
    (hotplugSystem E).Steps s s' := by
  induction h with
  | refl => exact .refl
  | tail _ hlast ih => exact ih.tail (hotplug_step hlast)

theorem orphanInv_step {filp : File} {n : ℕ} {s s' : HotplugPool ε} (h : OrphanInv filp n s)
    (hs : (keepingFile E filp).Step s s') : OrphanInv filp n s' := by
  have hguaranteed :
      Guaranteed nullAnswers NullOp (fun _ _ _ => True) (fun x => NullInv x.world) s' :=
    h.guaranteed.step (S := hotplugSystem E) (fun _ _ _ => partyCall_nullOp)
      (fun op x r x' hx hop hstep => nullInv_step hx hop hstep) (hotplug_step hs)
  have hhome := atHome_step h.home (hotplug_step hs)
  cases hs with
  | @start t l c hidle hallowed =>
    refine ⟨hguaranteed, hhome, h.orphan, fun l' request tr p hcall hfile => ?_⟩
    by_cases ht : Party.client n = t
    · subst ht
      rw [Pool.update_same] at hcall
      cases hcall
      have hl := h.home (.client n)
      rw [hidle] at hl
      obtain ⟨request', hrequest, heq⟩ := client_request hl hallowed
      cases heq
      exact ⟨by simp, request_dead hrequest hfile⟩
    · rw [Pool.update_other _ _ ht] at hcall
      exact h.late l' request tr p hcall hfile
  | @perform t l c tr op k r x hcall hop =>
    refine ⟨hguaranteed, hhome, keptFile_step hop.2 hop.1 (.inl h.orphan),
      fun l' request tr' p hcall' hfile => ?_⟩
    by_cases ht : Party.client n = t
    · subst ht
      rw [Pool.update_same] at hcall'
      cases hcall'
      obtain ⟨htr, hdead, hrest⟩ := h.late l request tr _ hcall hfile
      refine ⟨?_, hrest r ?_⟩
      · simpa [or_imp, forall_and] using ⟨htr, hdead⟩
      · have hnull :=
          (nullInv_step h.guaranteed.shared (h.guaranteed.thread _ _ _ _ _ hcall).1 hop.1).1
        cases op with
        | privateData filp' =>
          intro hf
          obtain ⟨⟨hr, -⟩, -⟩ := hop.1
          rw [hr, hf, h.orphan]
        | _ => exact hnull
    · rw [Pool.update_other _ _ ht] at hcall'
      exact h.late l' request tr' p hcall' hfile
  | @finish t l c tr a hret =>
    refine ⟨hguaranteed, hhome, h.orphan, fun l' request tr' p hcall hfile => ?_⟩
    by_cases ht : Party.client n = t
    · subst ht
      rw [Pool.update_same] at hcall
      cases hcall
    · rw [Pool.update_other _ _ ht] at hcall
      exact h.late l' request tr' p hcall hfile

/-- In every run the null device stays dead. A file that is in a board's list when a remove empties
it is at the null device when the remove has returned, and while it is not opened anew, every call
on it that starts then makes no operation that could wait, access a register or map memory, and
fails. -/
theorem orphan_stays_dead {w : World ε} (hw : Loaded E w) :
    (∀ s, (hotplugSystem E).Steps (hotplugPool w) s → Dead (s.shared.world.pciedevDevM nullEntry)) ∧
    ∀ {s₀ s₁ s₂ s₃ : HotplugPool ε} {dev : PciDev} {d : Entry} {filp : File} {n : ℕ}
      {l l' l₃ : Station} {request : FileCall} {tr : Trace} {p : Kernel ℤ},
      (hotplugSystem E).Steps (hotplugPool w) s₀ → Empties dev d s₀ s₁ →
      filp ∈ (s₀.shared.world.pciedevDevM d).devFileList.map (·.filp) →
      (keepingFile E filp).Steps s₁ s₂ → s₂.thread (.device dev) = .idle l →
      s₂.thread (.client n) = .idle l' → (keepingFile E filp).Steps s₂ s₃ →
      s₃.thread (.client n) = .calling l₃ (.file request) tr p → request.filp = filp →
      (∀ e ∈ tr, DeadOp e.op) ∧ (∀ op k, p = .call op k → DeadOp op) ∧ ∀ result, p = .ret result →
        result < 0 := by
  refine ⟨fun s hs => (null_guaranteed hw hs).shared.dead, ?_⟩
  intro s₀ s₁ s₂ s₃ dev d filp n l l' l₃ request tr p h₀ hempty hfile h₁ hreturned hclient h₂
    hcall hfilp
  obtain ⟨l₀, c₀, tr₀, hload, rfl⟩ := hempty
  have hstep : (hotplugSystem E).Step s₀ _ := .perform hload ⟨⟨rfl, rfl⟩, rfl⟩
  have horphan : Orphaned dev filp s₂ := by
    refine h₁.invariant (P := Orphaned dev filp) (fun _ _ h hs => orphaned_step h hs) (.inr ?_)
    exact ⟨_, _, _, _, Pool.update_same .., orphanFiles_willOrphan d hfile _⟩
  have hnull : s₂.shared.world.privateData filp = nullEntry := by
    apply horphan.resolve_right
    rintro ⟨_, _, _, _, hrun, -⟩
    rw [hreturned] at hrun
    cases hrun
  have hsteps : (hotplugSystem E).Steps (hotplugPool w) s₂ :=
    (h₀.tail hstep).trans (hotplug_steps h₁)
  have hstart : OrphanInv filp n s₂ :=
    { guaranteed := null_guaranteed hw hsteps
      home := hotplug_atHome hsteps
      orphan := hnull
      late := fun _ _ _ _ h => by
        rw [hclient] at h
        cases h }
  have hend : OrphanInv filp n s₃ :=
    h₂.invariant (P := OrphanInv filp n) (fun _ _ h hs => orphanInv_step h hs) hstart
  obtain ⟨htr, hsat⟩ := hend.late l₃ request tr p hcall hfilp
  refine ⟨htr, ?_, ?_⟩
  · rintro op k rfl
    exact hsat.1
  · rintro result rfl
    exact hsat

/-- The program on given answers, without opening the file anew. -/
def keepingStep (answer : Answers ε) (filp : File) : (op : Op) → Mutexed ε →
    Option (op.Res × Mutexed ε)
  | .setPrivateData filp' d, s =>
      if filp' = filp ∧ d ≠ nullEntry then none else mutexStep answer (.setPrivateData filp' d) s
  | op, s => mutexStep answer op s

theorem keepingFile_of_keepingStep {answer : Answers ε}
    (hE : ∀ c e r e', answer c e = some (r, e') → E c e r e') {filp : File} (op : Op)
    (s : Mutexed ε)
    (r : op.Res) (s' : Mutexed ε) (h : keepingStep answer filp op s = some (r, s')) :
    (keepingFile E filp).handler op s r s' := by
  cases op with
  | setPrivateData filp' d =>
    simp only [keepingStep] at h
    split_ifs at h with hother
    refine ⟨mutexDriver_of_mutexStep hE _ _ _ _ h, ?_⟩
    rintro _ ⟨⟩
    simpa using hother
  | _ => exact ⟨mutexDriver_of_mutexStep hE _ _ _ _ h, nofun⟩

def bootedBoard : World Unit :=
  match upciedevInitModuleExp.exec (driverStep (Outcome.answers {})) (.uniform {}) with
  | some (_, _, w) => w
  | none => .uniform {}

/-- The driver data after a call that nobody disturbs. -/
def Mutexed.after (s : Mutexed Unit) (c : PartyCall) : Mutexed Unit :=
  match c.program.exec (mutexStep (Outcome.answers {})) s with
  | some (_, _, x) => x
  | none => s

/-- The first board is there, and nothing else has happened. -/
def probedBoard : Mutexed Unit := (hotplugPool bootedBoard).shared.after (.probe 3 0 0)

def openedBoard : Mutexed Unit := probedBoard.after (.file (.openExp 0 0 0))

/-- The board in entry 0, with file 0 open on it, is being removed. -/
def removingPool : HotplugPool Unit :=
  (((hotplugPool bootedBoard).update probedBoard (.device 0) (.idle (.bound 0))).update openedBoard
    (.file 0) (.idle (.opened 0))).update openedBoard (.device 0)
      (.calling (.bound 0) (.remove 1 0) [] (pciedevRemoveExp 1 0))

theorem openEnvironment_step (op : Op) (s : Mutexed Unit) (r : op.Res) (s' : Mutexed Unit)
    (h : mutexStep (Outcome.answers {}) op s = some (r, s')) :
    mutexDriver openEnvironment op s r s' :=
  mutexDriver_of_mutexStep (fun _ _ _ _ _ => trivial) op s r s' h

set_option maxRecDepth 8000 in
theorem bootedBoard_loaded : Loaded openEnvironment bootedBoard where
  setUp := ⟨.uniform {}, _, run_of_answers (Outcome.answers {}) (fun _ _ _ _ _ => trivial) rfl⟩
  drvdata _ := rfl

set_option maxRecDepth 8000 in
theorem removingPool_reached :
    (hotplugSystem openEnvironment).Steps (hotplugPool bootedBoard) removingPool := by
  have hprobe : (PartyCall.probe 3 0 0).program.Run (mutexDriver openEnvironment)
      (hotplugPool bootedBoard).shared _ 0 probedBoard := run_of_exec openEnvironment_step rfl
  have hopen : (PartyCall.file (.openExp 0 0 0)).program.Run (mutexDriver openEnvironment)
      probedBoard _ 0 openedBoard := run_of_exec openEnvironment_step rfl
  have hprobed := Steps.run (S := hotplugSystem openEnvironment) (s := hotplugPool bootedBoard)
    (t := .device 0) rfl ⟨3, 0, rfl⟩ hprobe
  have hopened := Steps.run (S := hotplugSystem openEnvironment)
    (s := (hotplugPool bootedBoard).update probedBoard (.device 0) (.idle (.bound 0)))
    (t := .file 0) rfl ⟨0, 0, rfl⟩ hopen
  exact (hprobed.trans hopened).tail
    (Step.start (S := hotplugSystem openEnvironment) (t := Party.device 0)
    (c := .remove 1 0) rfl ⟨1, rfl⟩)

set_option maxRecDepth 8000 in
/-- A client asks for the position of the file after the remove. -/
theorem orphan_stays_dead_removed : ∃ (s₀ s₁ s : HotplugPool Unit) (l : Station) (tr : Trace),
    (hotplugSystem openEnvironment).Steps (hotplugPool bootedBoard) s₀ ∧ Empties 0 0 s₀ s₁ ∧
      (keepingFile openEnvironment 0).Steps s₁ s ∧
      s.thread (.client 0) = .calling l (.file (.llseek 0)) tr (.ret eFault) ∧
      (∀ e ∈ tr, DeadOp e.op) ∧ eFault < 0 := by
  have hkeep (op : Op) (s : Mutexed Unit) (r : op.Res) (s' : Mutexed Unit)
      (h : keepingStep (Outcome.answers {}) 0 op s = some (r, s')) :
      (keepingFile openEnvironment 0).handler op s r s' :=
    keepingFile_of_keepingStep (fun _ _ _ _ _ => trivial) op s r s' h
  obtain ⟨s₀, hremove, hlist, s₁, hempty, s₂, hrest, hreturned, hclient, s₃, hseek, tr, hcall⟩ :
      ∃ s₀ : HotplugPool Unit, (hotplugSystem openEnvironment).Steps removingPool s₀ ∧
        0 ∈ (s₀.shared.world.pciedevDevM 0).devFileList.map (·.filp) ∧ ∃ s₁, Empties 0 0 s₀ s₁ ∧
        ∃ s₂, (keepingFile openEnvironment 0).Steps s₁ s₂ ∧
          s₂.thread (.device 0) = .idle (.unbound 0) ∧
          s₂.thread (.client 0) = .idle .client ∧
            ∃ s₃, (keepingFile openEnvironment 0).Steps s₂ s₃ ∧
            ∃ tr, s₃.thread (.client 0) =
              .calling .client (.file (.llseek 0)) tr (.ret eFault) := by
    refine ⟨_, Steps.reaches (S := hotplugSystem openEnvironment) (t := Party.device 0)
      (reaches_of_execTo openEnvironment_step (n := 44) rfl) rfl rfl, by decide, ?_⟩
    refine ⟨_, ⟨_, _, _, rfl, rfl⟩, ?_⟩
    refine ⟨_, .tail (Steps.rest (t := Party.device 0) rfl (run_of_exec hkeep rfl))
      (.finish (t := Party.device 0) rfl), rfl, rfl, ?_⟩
    exact ⟨_,
      .head (.start (t := Party.client 0) (c := .file (.llseek 0)) rfl ⟨.llseek 0, trivial, rfl⟩)
      (Steps.rest (t := Party.client 0) rfl (run_of_exec hkeep rfl)), _, rfl⟩
  have hreached := removingPool_reached.trans hremove
  obtain ⟨hops, -, hresult⟩ := (orphan_stays_dead bootedBoard_loaded).2 hreached hempty hlist hrest
    hreturned hclient hseek hcall rfl
  exact ⟨s₀, s₁, s₃, .client, tr, hreached, hempty, hrest.trans hseek, hcall, hops, hresult _ rfl⟩

end Upciedev
