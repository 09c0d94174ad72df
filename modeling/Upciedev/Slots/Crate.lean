import Upciedev.Slots.TableIndex

/-!
# The slot table of a crate

Several client drivers enter their boards in one slot table, and take them out again by the
number of the slot. The rows of the table are followed over whole runs of set-ups, probes
and removes by any number of client drivers.
-/
namespace Upciedev

open Foundations Program

variable {ε : Type} {E : Environment ε} {w u : World ε}

/-- The slot table, and what each client driver has for itself. -/
structure Crate (ε : Type) where
  baseUpciedevDev : TranslationUnit → ℕ → UpciedevPhysAddress
  client : ℕ → World ε

namespace Crate

/-- The driver data of a client driver, with the table of all. -/
def view (s : Crate ε) (k : ℕ) : World ε := { s.client k with baseUpciedevDev := s.baseUpciedevDev }

/-- The crate after client driver `k` has left its data as `u`. -/
def put (s : Crate ε) (k : ℕ) (u : World ε) : Crate ε where
  baseUpciedevDev := u.baseUpciedevDev
  client := Function.update s.client k u

@[simp] theorem put_baseUpciedevDev (s : Crate ε) (k : ℕ) (u : World ε) :
    (s.put k u).baseUpciedevDev = u.baseUpciedevDev := rfl

@[simp] theorem put_same (s : Crate ε) (k : ℕ) (u : World ε) : (s.put k u).client k = u :=
  Function.update_self ..

@[simp] theorem put_other (s : Crate ε) {k k' : ℕ} (h : k' ≠ k) (u : World ε) :
    (s.put k u).client k' = s.client k' := Function.update_of_ne h ..

theorem view_put (s : Crate ε) (k : ℕ) (u : World ε) : (s.put k u).view k = u := by
  simp [view]

end Crate

/-- A board: the client driver and the entry it is bound to, and its hardware. -/
structure Board where
  client : ℕ
  dev : PciDev
  entry : Entry
  hw : PciHardware
  tmpParentNum : ℤ

def Board.slot (b : Board) : ℕ := b.hw.slot b.tmpParentNum

/-- The universal driver is loaded, then client drivers are set up and probe and remove boards in
any order. A device is probed only while no board is in it. Probes have to meet `P`, removes `R`. -/
inductive CrateRun (P R : Set Board → Board → Prop) : Crate ε → Set ℕ → Set Board → Prop
  | load {E : Environment ε} {w u : World ε} {tr : Trace} (client : ℕ → World ε)
      (hzero : w.baseUpciedevDev = fun _ _ => {})
      (hrun : pciedevInitModule.Run (driver E) w tr 0 u) :
      CrateRun P R ⟨u.baseUpciedevDev, client⟩ ∅ ∅
  | setUp {E : Environment ε} {s : Crate ε} {ready : Set ℕ} {boards : Set Board} {k : ℕ}
      {u : World ε} {tr : Trace} {result : ℤ} (h : CrateRun P R s ready boards) (hk : k ∉ ready)
      (hrun : upciedevInitModuleExp.Run (driver E) (s.view k) tr result u) :
      CrateRun P R (s.put k u) (if result = 0 then insert k ready else ready) boards
  | probe {E : Environment ε} {s : Crate ε} {ready : Set ℕ} {boards : Set Board} {b : Board}
      {fuel : ℕ}
      {u : World ε} {tr : Trace} {err : ℤ} (h : CrateRun P R s ready boards) (hk : b.client ∈ ready)
      (hdev : ∀ b' ∈ boards, b'.dev ≠ b.dev) (hE : b.hw.Answers E b.dev)
      (hrun : (pciedevProbeExp fuel b.dev b.tmpParentNum).Run (driver E) (s.view b.client) tr
        (err, b.entry.val) u) (hP : P boards b) :
      CrateRun P R (s.put b.client u) ready (if err = 0 then insert b boards else boards)
  | remove {E : Environment ε} {s : Crate ε} {ready : Set ℕ} {boards : Set Board} {b : Board}
      {fuel : ℕ}
      {u : World ε} {tr : Trace} {result : ℤ} (h : CrateRun P R s ready boards) (hb : b ∈ boards)
      (hrun : (pciedevRemoveExp fuel b.dev).Run (driver E) (s.view b.client) tr result u)
      (hR : R boards b) : CrateRun P R (s.put b.client u) ready (boards \ {b})

/-- The resource of BAR `i` of a board; zeros for a BAR that is not there. -/
def PciHardware.bar (hw : PciHardware) (i : Bar) : BarResource :=
  if (hw.res i).start ≠ 0 then hw.res i else ⟨0, 0, 0⟩

/-- The start, end and flags of a resource. -/
structure UpciedevBarAddress.Describes (a : UpciedevBarAddress) (r : BarResource) : Prop where
  resStart : a.resStart.toNat = r.start.toNat
  resEnd : a.resEnd.toNat = r.stop.toNat
  resFlag : a.resFlag.toNat = r.flags.toNat

/-- The BARs that are there fit the words of the slot table. -/
structure PciHardware.Narrow (hw : PciHardware) : Prop where
  start i : (hw.res i).start.toNat < 2 ^ 32
  stop i : (hw.res i).start ≠ 0 → (hw.res i).stop.toNat < 2 ^ 32
  flags i : (hw.res i).start ≠ 0 → (hw.res i).flags.toNat < 2 ^ 32

theorem PciHardware.Narrow.present_iff {hw : PciHardware} (h : hw.Narrow) (i : Bar) :
    (hw.res i).Present ↔ (hw.res i).start ≠ 0 := by
  have hlow : (hw.res i).start.toUInt32.toNat = (hw.res i).start.toNat := by
    rw [UInt64.toNat_toUInt32, Nat.mod_eq_of_lt (h.start i)]
  rw [BarResource.Present, ne_eq, ne_eq, ← UInt32.toNat_inj, ← UInt64.toNat_inj, hlow]
  rfl

theorem PciHardware.Narrow.describes {hw : PciHardware} (h : hw.Narrow) {i : Bar}
    (hthere : (hw.res i).start ≠ 0) : UpciedevBarAddress.Describes
      ⟨(hw.res i).start.toUInt32, (hw.res i).stop.toUInt32, (hw.res i).flags.toUInt32⟩
        (hw.bar i) := by
  rw [PciHardware.bar, if_pos hthere]
  constructor
  · exact UInt64.toNat_toUInt32 _ |>.trans (Nat.mod_eq_of_lt (h.start i))
  · exact UInt64.toNat_toUInt32 _ |>.trans (Nat.mod_eq_of_lt (h.stop i hthere))
  · exact UInt64.toNat_toUInt32 _ |>.trans (Nat.mod_eq_of_lt (h.flags i hthere))

theorem PciHardware.describes_absent {hw : PciHardware} {i : Bar}
    (habsent : ¬ (hw.res i).start ≠ 0) :
    UpciedevBarAddress.Describes {} (hw.bar i) := by
  rw [PciHardware.bar, if_neg habsent]
  exact ⟨rfl, rfl, rfl⟩

/-- The row of a board. -/
structure RowOf (hw : PciHardware) (row : UpciedevPhysAddress) : Prop where
  devStst : row.devStst = 1
  slotBus : row.slotBus = hw.bus
  slotDevice : row.slotDevice = pciSlot hw.devfn
  bars (i : Bar) : (row.bars i.val).Describes (hw.bar i)

/-- A row without a board. -/
structure BlankRow (row : UpciedevPhysAddress) : Prop where
  devStst : row.devStst = 0
  slotBus : row.slotBus = 0
  slotDevice : row.slotDevice = 0
  bars (i : Bar) : row.bars i.val = {}

section
variable (row : UpciedevPhysAddress) (r : BarResource) (i : Bar)

@[simp] theorem enterBar_devStst : (row.enterBar i r).devStst = row.devStst := by
  unfold UpciedevPhysAddress.enterBar
  split_ifs <;> rfl

@[simp] theorem enterBar_slotBus : (row.enterBar i r).slotBus = row.slotBus := by
  unfold UpciedevPhysAddress.enterBar
  split_ifs <;> rfl

@[simp] theorem enterBar_slotDevice : (row.enterBar i r).slotDevice = row.slotDevice := by
  unfold UpciedevPhysAddress.enterBar
  split_ifs <;> rfl

theorem enterBar_bars (j : Bar) : (row.enterBar i r).bars j.val = if j = i ∧ r.Present then
    ⟨r.start.toUInt32, r.stop.toUInt32, r.flags.toUInt32⟩ else row.bars j.val := by
  unfold UpciedevPhysAddress.enterBar
  by_cases hpresent : r.Present
  · by_cases hj : j = i
    · simp [hj, hpresent]
    · have hval : j.val ≠ i.val := fun h => hj (Fin.ext h)
      simp [hj, hpresent, Function.update_of_ne hval]
  · simp [hpresent]

end

theorem foldl_enterBar_fields (res : Bar → BarResource) (bars : List Bar)
    (row : UpciedevPhysAddress) :
    let row' := bars.foldl (fun row i => row.enterBar i (res i)) row
    row'.devStst = row.devStst ∧ row'.slotBus = row.slotBus ∧ row'.slotDevice = row.slotDevice ∧
      ∀ i : Bar, row'.bars i.val = if i ∈ bars ∧ (res i).Present then
        ⟨(res i).start.toUInt32, (res i).stop.toUInt32, (res i).flags.toUInt32⟩ else
          row.bars i.val := by
  induction bars generalizing row with
  | nil => simp
  | cons j bars ih =>
    obtain ⟨hstst, hbus, hdevice, hbars⟩ := ih (row.enterBar j (res j))
    refine ⟨hstst.trans (by simp), hbus.trans (by simp), hdevice.trans (by simp), fun i => ?_⟩
    apply (hbars i).trans
    rw [enterBar_bars]
    by_cases hi : i = j
    · subst hi
      by_cases hpresent : (res i).Present <;> simp [hpresent]
    · simp [hi]

/-- Entering a board makes its row, provided that its BARs fit and that the row had no BAR that the
board lacks. -/
theorem PciHardware.enter_rowOf (hw : PciHardware) (hnarrow : hw.Narrow) (slot : ℕ)
    {row : UpciedevPhysAddress} (hrow : ∀ i : Bar, ¬ (hw.res i).start ≠ 0 →
      (row.bars i.val).Describes (hw.bar i)) : RowOf hw (hw.enter slot row) := by
  obtain ⟨hstst, hbus, hdevice, hbars⟩ := foldl_enterBar_fields hw.res (List.finRange numberOfBars)
    { row with devStst := 1, slotNum := slot, slotBus := hw.bus, slotDevice := pciSlot hw.devfn }
  constructor
  · exact hstst
  · exact hbus
  · exact hdevice
  · intro i
    have hbar := hbars i
    by_cases hthere : (hw.res i).start ≠ 0
    · rw [if_pos ⟨List.mem_finRange i, (hnarrow.present_iff i).mpr hthere⟩] at hbar
      exact hbar.symm ▸ hnarrow.describes hthere
    · rw [if_neg fun h => hthere ((hnarrow.present_iff i).mp h.2)] at hbar
      exact hbar.symm ▸ hrow i hthere

theorem cleared_blankRow (row : UpciedevPhysAddress) : BlankRow row.cleared where
  devStst := rfl
  slotBus := rfl
  slotDevice := rfl
  bars i := if_pos i.isLt

/-- Operations that keep the zeros of a zeroed slot table. -/
def KeepsZero : Op → Prop
  | .setBaseRow _ _ f => f {} = {}
  | .setBaseBar _ _ _ v => v = {}
  | _ => True

theorem keepsZero_step {op : Op} {r : op.Res} (hop : KeepsZero op) (hstep : driver E op w r u)
    (hzero : w.baseUpciedevDev = fun _ _ => {}) : u.baseUpciedevDev = fun _ _ => {} := by
  cases op with
  | setBaseRow t slot f =>
    obtain rfl : u = w.updateRow t slot f := hstep
    have hrow : f {} = {} := hop
    simp [hzero, hrow]
  | setBaseBar t slot bar v =>
    obtain rfl : v = {} := hop
    obtain rfl : u = w.updateRow t slot fun row =>
      { row with bars := Function.update row.bars bar {} } := hstep
    simp [hzero]
  | kernel c =>
    obtain ⟨e, -, rfl⟩ := hstep
    exact hzero
  | fault f => exact r.elim
  | setPrivateData | setFPos | store | setCdev | setDrvdata | note =>
    subst hstep
    exact hzero
  | _ =>
    obtain ⟨-, rfl⟩ := hstep
    exact hzero

theorem keepsZero_wp {α : Type} {p : Kernel α} (hp : p.Only KeepsZero)
    (hzero : w.baseUpciedevDev = fun _ _ => {}) :
    p.wp (driver E) w fun _ _ u => u.baseUpciedevDev = fun _ _ => {} :=
  hp.wp_inv (P := fun u : World ε => u.baseUpciedevDev = fun _ _ => {})
    (fun _ _ _ _ h hop hstep => keepsZero_step hop hstep h) hzero

theorem pciedevInitModule_keepsZero : pciedevInitModule.Only KeepsZero := by
  have hbars (slot : ℕ) (bars : List Bar) : (clearRowBars slot bars).Only KeepsZero := by
    induction bars with
    | nil => trivial
    | cons k bars ih => simp [clearRowBars, KeepsZero, ih]
  have hrows (slots : List ℕ) : (clearRows slots).Only KeepsZero := by
    induction slots with
    | nil => trivial
    | cons i slots ih =>
      simp only [clearRows, perform_eq, call_bind, ret_bind, only_call]
      exact ⟨rfl, fun _ =>
        ⟨rfl, fun _ => ⟨rfl, fun _ => ⟨rfl, fun _ => (hbars _ _).bind fun _ => ih⟩⟩⟩⟩
  exact (hrows _).bind fun _ => trivial

/-- A board that was bound and entered in the table. -/
structure Entered (hw : PciHardware) (tmpParentNum : ℤ) (b : Entry) (dev : PciDev)
    (w u : World ε) : Prop extends Bound b dev w u where
  usable : hw.Usable
  slotNum : (u.pciedevDevM b).slotNum = hw.slot tmpParentNum
  parentBaseDev : (u.pciedevDevM b).parentBaseDev = (w.pciedevDevM b).parentBaseDev
  baseUpciedevDev :
    u.baseUpciedevDev = (w.updateRow (w.pciedevDevM b).parentBaseDev (hw.slot tmpParentNum)
    (hw.enter (hw.slot tmpParentNum))).baseUpciedevDev

/-- A device that was refused. -/
structure Refused (b : Entry) (dev : PciDev) (w u : World ε) : Prop extends SameSlots w u where
  others d : d ≠ b → u.pciedevDevM d = w.pciedevDevM d
  drvdata dev' : dev' ≠ dev → u.drvdata dev' = w.drvdata dev'

theorem pciedevProbeExp_effect {hw : PciHardware} {dev : PciDev} (hE : hw.Answers E dev) (fuel : ℕ)
    (tmpParentNum : ℤ) :
    (pciedevProbeExp fuel dev tmpParentNum).wp (driver E) w fun _ r u =>
      (r = (-1, 0) ∧ u = w) ∨ ∃ b, r.2 = b.val ∧ (w.pciedevDevM b).binded = 0 ∧
        ((r.1 = 0 ∧ Entered hw tmpParentNum b dev w u) ∨ (r.1 ≠ 0 ∧ Refused b dev w u)) := by
  refine wp_mono (pciedevProbeExp_entry (Q := fun b err u => (w.pciedevDevM b).binded = 0 ∧
    ((err = 0 ∧ Entered hw tmpParentNum b dev w u) ∨ (err ≠ 0 ∧ Refused b dev w u))) fuel dev
    tmpParentNum fun b _ hfree => ?_) fun _ r u h => ?_
  · refine wp_mono
      (wp_and (probeEntry_wp fuel dev b tmpParentNum) (probeEntry_table_wp hE fuel tmpParentNum)) ?_
    rintro _ err u ⟨hend, husable, hrefused⟩
    refine ⟨hfree, ?_⟩
    by_cases h : hw.Usable
    · obtain ⟨herr, hslot, hparent, hbase⟩ := husable h
      cases hend with
      | disabled hne => exact absurd herr hne
      | unclaimed hne => exact absurd herr hne
      | bound hbound => exact .inl ⟨rfl, hbound, h, hslot, hparent, hbase⟩
    · obtain ⟨herr, hsame⟩ := hrefused h
      refine .inr ⟨herr, hsame, ?_, ?_⟩
      · intro d hd
        cases hend with
        | disabled _ _ hu =>
          rw [hu, World.withEnv_pciedevDevM, World.updateDev_other _ hd]
        | unclaimed _ hu =>
          rw [hu, World.withEnv_pciedevDevM, World.setDrvdata_pciedevDevM,
            World.updateDev_other _ hd]
        | bound hbound => exact absurd rfl herr
      · intro dev' hdev'
        cases hend with
        | disabled _ _ hu =>
          rw [hu]
          rfl
        | unclaimed _ hu =>
          rw [hu, World.withEnv_drvdata, World.setDrvdata_drvdata, Function.update_of_ne hdev']
          rfl
        | bound hbound => exact absurd rfl herr
  · rcases h with h | ⟨b, _, hb, hQ⟩
    · exact .inl h
    · exact .inr ⟨b, hb, hQ⟩

theorem Removed.sameSlots {d : Entry} (h : Removed d w u) (d' : Entry) :
    (u.pciedevDevM d').parentBaseDev = (w.pciedevDevM d').parentBaseDev ∧
      (u.pciedevDevM d').slotNum = (w.pciedevDevM d').slotNum := by
  rw [h.pciedevDevM d']
  by_cases hd : d' = d
  · subst hd
    obtain ⟨_, _, _, _, _, hunmap⟩ := foldl_unmap_fields
      { w.pciedevDevM d' with prjInfoList := [] } (List.finRange numberOfBars)
    rw [World.updateDev_self, PciedevDev.removed, PciedevDev.unlocked, hunmap]
    exact ⟨rfl, rfl⟩
  · rw [World.updateDev_other _ hd]
    exact ⟨rfl, rfl⟩

/-- Boards and entries are paired off. -/
structure Paired (s : Crate ε) (ready : Set ℕ) (boards : Set Board) : Prop where
  parentBaseDev k : k ∈ ready → ∀ d, ((s.client k).pciedevDevM d).parentBaseDev = .pciedevUfn
  ready b : b ∈ boards → b.client ∈ ready
  binded b : b ∈ boards → ((s.client b.client).pciedevDevM b.entry).binded ≠ 0
  drvdata b : b ∈ boards → (s.client b.client).drvdata b.dev = some b.entry
  slotNum b : b ∈ boards → ((s.client b.client).pciedevDevM b.entry).slotNum = b.slot
  device b : b ∈ boards → ∀ b' ∈ boards, b.dev = b'.dev → b = b'
  entry b : b ∈ boards → ∀ b' ∈ boards, b.client = b'.client → b.entry = b'.entry → b = b'

section
variable {s : Crate ε} {ready : Set ℕ} {boards : Set Board} {k : ℕ}

theorem Paired.setUp (h : Paired s ready boards) (hk : k ∉ ready) {ready' : Set ℕ}
    (hsub : ready ⊆ ready') (hready : ∀ k' ∈ ready', k' ∈ ready ∨
      (k' = k ∧ ∀ d, (u.pciedevDevM d).parentBaseDev = .pciedevUfn)) :
    Paired (s.put k u) ready' boards := by
  have hother b (hb : b ∈ boards) : (s.put k u).client b.client = s.client b.client := by
    have hne : b.client ≠ k := fun heq => hk (heq ▸ h.ready b hb)
    exact s.put_other hne u
  constructor
  · intro k' hk' d
    rcases hready k' hk' with hmem | ⟨rfl, hparent⟩
    · have hne : k' ≠ k := fun heq => hk (heq ▸ hmem)
      rw [s.put_other hne]
      exact h.parentBaseDev k' hmem d
    · rw [s.put_same]
      exact hparent d
  · exact fun b hb => hsub (h.ready b hb)
  · intro b hb
    rw [hother b hb]
    exact h.binded b hb
  · intro b hb
    rw [hother b hb]
    exact h.drvdata b hb
  · intro b hb
    rw [hother b hb]
    exact h.slotNum b hb
  · exact h.device
  · exact h.entry

/-- What a call of client driver `k` leaves of the data of its boards. -/
structure KeepsBoards (w u : World ε) (k : ℕ) (boards : Set Board) : Prop where
  parentBaseDev d : (u.pciedevDevM d).parentBaseDev = (w.pciedevDevM d).parentBaseDev
  boards b : b ∈ boards → b.client = k → (u.pciedevDevM b.entry).binded ≠ 0 ∧
    u.drvdata b.dev = some b.entry ∧ (u.pciedevDevM b.entry).slotNum = b.slot

theorem Paired.keep (h : Paired s ready boards) {boards' : Set Board} (hsub : boards' ⊆ boards)
    (hkeep : KeepsBoards (s.view k) u k boards') : Paired (s.put k u) ready boards' := by
  have hboard b (hb : b ∈ boards') :
      (((s.put k u).client b.client).pciedevDevM b.entry).binded ≠ 0 ∧
      ((s.put k u).client b.client).drvdata b.dev = some b.entry ∧
      (((s.put k u).client b.client).pciedevDevM b.entry).slotNum = b.slot := by
    by_cases hclient : b.client = k
    · have hkept := hkeep.boards b hb hclient
      rw [hclient, s.put_same]
      exact hkept
    · rw [s.put_other hclient]
      exact ⟨h.binded b (hsub hb), h.drvdata b (hsub hb), h.slotNum b (hsub hb)⟩
  constructor
  · intro k' hk' d
    by_cases hclient : k' = k
    · subst hclient
      rw [s.put_same, hkeep.parentBaseDev]
      exact h.parentBaseDev k' hk' d
    · rw [s.put_other hclient]
      exact h.parentBaseDev k' hk' d
  · exact fun b hb => h.ready b (hsub hb)
  · exact fun b hb => (hboard b hb).1
  · exact fun b hb => (hboard b hb).2.1
  · exact fun b hb => (hboard b hb).2.2
  · exact fun b hb b' hb' => h.device b (hsub hb) b' (hsub hb')
  · exact fun b hb b' hb' => h.entry b (hsub hb) b' (hsub hb')

theorem Paired.refused (h : Paired s ready boards) {b : Entry} {dev : PciDev}
    (hfree : ((s.view k).pciedevDevM b).binded = 0) (hdev : ∀ b' ∈ boards, b'.dev ≠ dev)
    (hrefused : Refused b dev (s.view k) u) : Paired (s.put k u) ready boards := by
  refine h.keep subset_rfl ⟨hrefused.parentBaseDev, fun b' hb' hclient => ?_⟩
  subst hclient
  have hne : b'.entry ≠ b := fun heq => h.binded b' hb' (heq ▸ hfree)
  rw [hrefused.others _ hne, hrefused.drvdata _ (hdev b' hb')]
  exact ⟨h.binded b' hb', h.drvdata b' hb', h.slotNum b' hb'⟩

theorem Paired.entered (h : Paired s ready boards) {b : Board} (hk : b.client ∈ ready)
    (hfree : ((s.view b.client).pciedevDevM b.entry).binded = 0)
    (hdev : ∀ b' ∈ boards, b'.dev ≠ b.dev)
    (hentered : Entered b.hw b.tmpParentNum b.entry b.dev (s.view b.client) u) :
    Paired (s.put b.client u) ready (insert b boards) := by
  have hnew b' (hb' : b' ∈ boards) (hclient : b'.client = b.client) : b'.entry ≠ b.entry := by
    intro heq
    have hbinded := h.binded b' hb'
    rw [hclient, heq] at hbinded
    exact hbinded hfree
  have hboard b' (hb' : b' ∈ insert b boards) :
      (((s.put b.client u).client b'.client).pciedevDevM b'.entry).binded ≠ 0 ∧
      ((s.put b.client u).client b'.client).drvdata b'.dev = some b'.entry ∧
      (((s.put b.client u).client b'.client).pciedevDevM b'.entry).slotNum = b'.slot := by
    rcases Set.mem_insert_iff.mp hb' with rfl | hb'
    · rw [s.put_same, hentered.binded, hentered.drvdata, Function.update_self, hentered.slotNum]
      exact ⟨one_ne_zero, rfl, rfl⟩
    · have hold := And.intro (h.binded b' hb') (And.intro (h.drvdata b' hb') (h.slotNum b' hb'))
      by_cases hclient : b'.client = b.client
      · rw [hclient] at hold ⊢
        rw [s.put_same, hentered.others _ (hnew b' hb' hclient), hentered.drvdata,
          Function.update_of_ne (hdev b' hb')]
        exact hold
      · rw [s.put_other hclient]
        exact hold
  have hparent d :
      (u.pciedevDevM d).parentBaseDev = ((s.view b.client).pciedevDevM d).parentBaseDev := by
    by_cases hd : d = b.entry
    · rw [hd, hentered.parentBaseDev]
    · rw [hentered.others d hd]
  constructor
  · intro k' hk' d
    by_cases hclient : k' = b.client
    · rw [hclient, s.put_same, hparent]
      exact h.parentBaseDev b.client hk d
    · rw [s.put_other hclient]
      exact h.parentBaseDev k' hk' d
  · intro b' hb'
    rcases Set.mem_insert_iff.mp hb' with rfl | hb'
    · exact hk
    · exact h.ready b' hb'
  · exact fun b' hb' => (hboard b' hb').1
  · exact fun b' hb' => (hboard b' hb').2.1
  · exact fun b' hb' => (hboard b' hb').2.2
  · intro b₁ h₁ b₂ h₂ heq
    rcases Set.mem_insert_iff.mp h₁ with rfl | hm₁ <;>
      rcases Set.mem_insert_iff.mp h₂ with rfl | hm₂
    · rfl
    · exact absurd heq.symm (hdev b₂ hm₂)
    · exact absurd heq (hdev b₁ hm₁)
    · exact h.device b₁ hm₁ b₂ hm₂ heq
  · intro b₁ h₁ b₂ h₂ hclient heq
    rcases Set.mem_insert_iff.mp h₁ with rfl | hm₁ <;>
      rcases Set.mem_insert_iff.mp h₂ with rfl | hm₂
    · rfl
    · exact absurd heq.symm (hnew b₂ hm₂ hclient.symm)
    · exact absurd heq (hnew b₁ hm₁ hclient)
    · exact h.entry b₁ hm₁ b₂ hm₂ hclient heq

theorem Paired.removed (h : Paired s ready boards) {b : Board} (hb : b ∈ boards)
    (hremoved : Removed b.entry (s.view b.client) u) :
    Paired (s.put b.client u) ready (boards \ {b}) := by
  refine h.keep Set.sdiff_subset ⟨fun d => (hremoved.sameSlots d).1, fun b' hb' hclient => ?_⟩
  have hne : b'.entry ≠ b.entry := fun heq => hb'.2 (h.entry b' hb'.1 b hb hclient heq)
  rw [hremoved.binded, if_neg hne, hremoved.drvdata, (hremoved.sameSlots _).2, ← hclient]
  exact ⟨h.binded b' hb'.1, h.drvdata b' hb'.1, h.slotNum b' hb'.1⟩

def Board.enterIn (b : Board) (table : TranslationUnit → ℕ → UpciedevPhysAddress) :
    TranslationUnit → ℕ → UpciedevPhysAddress :=
  Function.update table .pciedevUfn
    (Function.update (table .pciedevUfn) b.slot (b.hw.enter b.slot (table .pciedevUfn b.slot)))

/-- The table after the row of a board was cleared. -/
def Board.clearIn (b : Board) (table : TranslationUnit → ℕ → UpciedevPhysAddress) :
    TranslationUnit → ℕ → UpciedevPhysAddress :=
  Function.update table .pciedevUfn
    (Function.update (table .pciedevUfn) b.slot (table .pciedevUfn b.slot).cleared)

/-- What holds of the zeroed table and is kept when a board is entered or taken out holds in every
state of a run. -/
theorem CrateRun.table_inv {P R : Set Board → Board → Prop}
    {M : (TranslationUnit → ℕ → UpciedevPhysAddress) → Set Board → Prop}
    (hload : M (fun _ _ => {}) ∅)
    (hentered : ∀ table boards b, P boards b → b.hw.Usable → M table boards →
      M (b.enterIn table) (insert b boards))
    (hremoved : ∀ table boards b, b ∈ boards → R boards b → M table boards →
      M (b.clearIn table) (boards \ {b}))
    (h : CrateRun (ε := ε) P R s ready boards) :
    Paired s ready boards ∧ M s.baseUpciedevDev boards := by
  induction h with
  | load client hzero hrun =>
    rw [hrun.of_wp (keepsZero_wp pciedevInitModule_keepsZero hzero)]
    exact ⟨by constructor <;> simp, hload⟩
  | @setUp E s ready boards k u tr result _ hk hrun ih =>
    have hbase : u.baseUpciedevDev = s.baseUpciedevDev :=
      hrun.of_wp (offTable_wp upciedevInitModuleExp_offTable)
    rw [Crate.put_baseUpciedevDev, hbase]
    refine ⟨?_, ih.2⟩
    by_cases hresult : result = 0
    · rw [if_pos hresult]
      apply ih.1.setUp hk (Set.subset_insert _ _)
      intro k' hk'
      rcases Set.mem_insert_iff.mp hk' with rfl | hk'
      · refine .inr ⟨rfl, fun d => ?_⟩
        rw [(hrun.of_wp upciedevInitModuleExp_wp hresult).2 d]
        rfl
      · exact .inl hk'
    · rw [if_neg hresult]
      exact ih.1.setUp hk subset_rfl fun k' hk' => .inl hk'
  | @probe E s ready boards b fuel u tr err _ hk hdev hE hrun hP ih =>
    rcases hrun.of_wp (pciedevProbeExp_effect hE fuel _) with ⟨hr, hu⟩ | ⟨b', hval, hfree, hend⟩
    · obtain rfl : err = -1 := congrArg Prod.fst hr
      rw [if_neg (by decide), hu]
      refine ⟨ih.1.keep subset_rfl ⟨fun _ => rfl, fun b' hb' hclient => ?_⟩, ih.2⟩
      rw [← hclient]
      exact ⟨ih.1.binded b' hb', ih.1.drvdata b' hb', ih.1.slotNum b' hb'⟩
    · obtain rfl : b.entry = b' := Fin.ext hval
      rcases hend with ⟨herr, hin⟩ | ⟨herr, hrefused⟩
      · have hufn : ((s.view b.client).pciedevDevM b.entry).parentBaseDev = .pciedevUfn :=
          ih.1.parentBaseDev b.client hk b.entry
        have hbase : u.baseUpciedevDev = b.enterIn s.baseUpciedevDev := by
          rw [hin.baseUpciedevDev, hufn]
          rfl
        rw [if_pos herr, Crate.put_baseUpciedevDev, hbase]
        exact ⟨ih.1.entered hk hfree hdev hin, hentered _ _ b hP hin.usable ih.2⟩
      · rw [if_neg herr, Crate.put_baseUpciedevDev, hrefused.baseUpciedevDev]
        exact ⟨ih.1.refused hfree hdev hrefused, ih.2⟩
  | @remove E s ready boards b fuel u tr result _ hb hrun hR ih =>
    have hout : Removed b.entry (s.view b.client) u :=
      hrun.of_wp (pciedevRemoveExp_wp _ _ (ih.1.drvdata b hb))
    have hufn : ((s.view b.client).pciedevDevM b.entry).parentBaseDev = .pciedevUfn :=
      ih.1.parentBaseDev b.client (ih.1.ready b hb) b.entry
    have hnum : ((s.view b.client).pciedevDevM b.entry).slotNum = b.slot := ih.1.slotNum b hb
    have hbase : u.baseUpciedevDev = b.clearIn s.baseUpciedevDev := by
      rw [hout.baseUpciedevDev, hufn, hnum, Int.toNat_natCast]
      rfl
    rw [Crate.put_baseUpciedevDev, hbase]
    exact ⟨ih.1.removed hb hout, hremoved _ _ b hb hR ih.2⟩

theorem CrateRun.paired {P R : Set Board → Board → Prop}
    (h : CrateRun (ε := ε) P R s ready boards) :
    Paired s ready boards :=
  (h.table_inv (M := fun _ _ => True) trivial (fun _ _ _ _ _ _ => trivial)
    fun _ _ _ _ _ _ => trivial).1

end

/-- The BARs of the new board fit, and no board in its slot has one that it lacks. -/
def Covers (boards : Set Board) (b : Board) : Prop :=
  b.slot ≠ 0 → b.hw.Narrow ∧ ∀ b' ∈ boards, b'.slot = b.slot → ∀ i, (b'.hw.res i).start ≠ 0 →
    (b.hw.res i).start ≠ 0

def Alone (boards : Set Board) (b : Board) : Prop :=
  b.slot ≠ 0 → ∀ b' ∈ boards, b'.slot = b.slot → b' = b

/-- Every row but that of slot 0 is the row of a board in its slot, or is blank when there is
none. -/
def Rows (table : TranslationUnit → ℕ → UpciedevPhysAddress) (boards : Set Board) : Prop :=
  ∀ slot, slot ≠ 0 → (∃ b ∈ boards, b.slot = slot ∧ RowOf b.hw (table .pciedevUfn slot)) ∨
    ((∀ b ∈ boards, b.slot ≠ slot) ∧ BlankRow (table .pciedevUfn slot))

section
variable {table : TranslationUnit → ℕ → UpciedevPhysAddress} {boards : Set Board} {b : Board}

theorem Rows.zero : Rows (fun _ _ => {}) ∅ := by
  intro slot _
  exact .inr ⟨by simp, rfl, rfl, rfl, fun _ => rfl⟩

theorem Rows.entered (h : Rows table boards) (hcovers : Covers boards b) :
    Rows (b.enterIn table) (insert b boards) := by
  intro slot hslot
  rw [Board.enterIn, Function.update_self]
  by_cases hsame : slot = b.slot
  · subst hsame
    rw [Function.update_self]
    obtain ⟨hnarrow, hcovers⟩ := hcovers hslot
    refine .inl ⟨b, Set.mem_insert _ _, rfl, b.hw.enter_rowOf hnarrow _ fun i hlacks => ?_⟩
    rcases h b.slot hslot with ⟨b', hb', hslot', hrow⟩ | ⟨_, hblank⟩
    · have hlacks' : ¬ (b'.hw.res i).start ≠ 0 := fun hp => hlacks (hcovers b' hb' hslot' i hp)
      have hrow' := hrow.bars i
      unfold PciHardware.bar at hrow' ⊢
      rw [if_neg hlacks'] at hrow'
      rwa [if_neg hlacks]
    · rw [hblank.bars i]
      exact PciHardware.describes_absent hlacks
  · rw [Function.update_of_ne hsame]
    rcases h slot hslot with ⟨b', hb', hrow⟩ | ⟨hnone, hblank⟩
    · exact .inl ⟨b', Set.mem_insert_of_mem _ hb', hrow⟩
    · refine .inr ⟨fun b' hb' => ?_, hblank⟩
      rcases Set.mem_insert_iff.mp hb' with rfl | hb'
      · exact Ne.symm hsame
      · exact hnone b' hb'

theorem Rows.removed (h : Rows table boards) (halone : Alone boards b) :
    Rows (b.clearIn table) (boards \ {b}) := by
  intro slot hslot
  rw [Board.clearIn, Function.update_self]
  by_cases hsame : slot = b.slot
  · subst hsame
    rw [Function.update_self]
    refine .inr ⟨fun b' hb' heq => ?_, cleared_blankRow _⟩
    exact hb'.2 (halone hslot b' hb'.1 heq)
  · rw [Function.update_of_ne hsame]
    rcases h slot hslot with ⟨b', hb', hslot', hrow⟩ | ⟨hnone, hblank⟩
    · have hne : b' ∉ ({b} : Set Board) :=
        fun heq => hsame (hslot'.symm.trans (congrArg Board.slot heq))
      exact .inl ⟨b', ⟨hb', hne⟩, hslot', hrow⟩
    · exact .inr ⟨fun b' hb' => hnone b' hb'.1, hblank⟩

theorem CrateRun.rows {s : Crate ε} {ready : Set ℕ} (h : CrateRun Covers Alone s ready boards) :
    Rows s.baseUpciedevDev boards :=
  (h.table_inv Rows.zero (fun _ _ _ hcovers _ hrows => hrows.entered hcovers)
    fun _ _ _ _ halone hrows => hrows.removed halone).2

end

end Upciedev
