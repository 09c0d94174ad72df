import Upciedev.Slots.Crate
import Upciedev.Model.FileOps

/-!
# Looking up a slot

What a client driver gets to know of a slot, compared with the boards that are bound.
-/
namespace Upciedev

open Foundations Program

variable {ε : Type} {E : Environment ε} {w u : World ε} {s : Crate ε} {ready : Set ℕ}
  {boards : Set Board}

def Crate.slotNum (s : Crate ε) (b : Board) : ℤ := ((s.client b.client).pciedevDevM b.entry).slotNum

/-- The answer to a lookup: the board of the given hardware is in the slot. -/
structure ReportsBoard (hw : PciHardware) (bar : Bar) (r : ℤ)
    (reply : DevicePhysAddress) : Prop where
  status : r = 1 ∧ reply.sts = 1
  bus : reply.offset = hw.bus
  device : reply.reserved = pciSlot hw.devfn
  resource :
    UpciedevBarAddress.Describes ⟨reply.phsAddress, reply.phsEnd, reply.phsFlag⟩ (hw.bar bar)

/-- The answer to a lookup: no board is in the slot. -/
structure ReportsNone (r : ℤ) (reply : DevicePhysAddress) : Prop where
  status : r = 0 ∧ reply.sts = 0
  bus : reply.offset = 0
  device : reply.reserved = 0
  resource : reply.phsAddress = 0 ∧ reply.phsEnd = 0 ∧ reply.phsFlag = 0

def LookupDescribes (s : Crate ε) (boards : Set Board) (slot : ℕ) (bar : Bar) (r : ℤ)
    (reply : DevicePhysAddress) : Prop :=
  ((∃ b ∈ boards, s.slotNum b = slot) → ∃ b ∈ boards, s.slotNum b = slot ∧
    ReportsBoard b.hw bar r reply) ∧
    ((∀ b ∈ boards, s.slotNum b ≠ slot) → ReportsNone r reply)

theorem pciedevGetSlotPciedevp_wp (dev : Entry) (slotdev : DevicePhysAddress)
    (hslot : slotdev.slot ≠ 0) :
    (pciedevGetSlotPciedevp dev slotdev).wp (driver E) w fun _ r _ =>
      let row := w.baseUpciedevDev (w.pciedevDevM dev).parentBaseDev slotdev.slot.toNat
      let bar := row.bars slotdev.bar.toNat
      r.1 = row.devStst ∧ r.2.sts = UInt32.ofInt row.devStst ∧ r.2.offset = row.slotBus ∧
        r.2.reserved = row.slotDevice ∧
          (⟨r.2.phsAddress, r.2.phsEnd, r.2.phsFlag⟩ : UpciedevBarAddress) = bar := by
  unfold pciedevGetSlotPciedevp
  rw [if_neg hslot]
  simp only [slotBarInto, perform_eq, call_bind, ret_bind, wp_load, wp_baseRow, wp_baseBar, pure_eq,
    wp_ret]
  exact ⟨trivial, trivial, trivial, trivial, trivial⟩

/-- As long as no board is removed from a slot it shares, and none is probed that has a BAR beyond
4 GiB or whose slot has a board with a BAR it lacks, a lookup describes the boards that are
bound. -/
theorem slot_lookup_describes_boards (h : CrateRun Covers Alone s ready boards) {k : ℕ}
    (hk : k ∈ ready) {dev : Entry} {slotdev : DevicePhysAddress} (hslot : slotdev.slot ≠ 0)
    {bar : Bar}
    (hbar : slotdev.bar.toNat = bar.val) {tr : Trace} {r : ℤ} {reply : DevicePhysAddress}
    (hrun : (pciedevGetSlotPciedevp dev slotdev).Run (driver E) (s.view k) tr (r, reply) u) :
    LookupDescribes s boards slotdev.slot.toNat bar r reply := by
  have hufn : ((s.view k).pciedevDevM dev).parentBaseDev = .pciedevUfn :=
    h.paired.parentBaseDev k hk dev
  have hne : slotdev.slot.toNat ≠ 0 := fun hzero => hslot (UInt32.toNat_inj.mp hzero)
  have hnum b (hb : b ∈ boards) : s.slotNum b = b.slot := h.paired.slotNum b hb
  obtain ⟨hr, hsts, hbus, hdevice, hresource⟩ :=
    hrun.of_wp (pciedevGetSlotPciedevp_wp dev slotdev hslot)
  rw [hufn] at hr hsts hbus hdevice hresource
  dsimp only at hr hsts
  rcases h.rows _ hne with ⟨b, hb, hbslot, hrow⟩ | ⟨hnone, hblank⟩
  · have hthis : s.slotNum b = slotdev.slot.toNat := by
      rw [hnum b hb, hbslot]
    refine ⟨fun _ => ⟨b, hb, hthis, ?_⟩, fun hall => absurd hthis (hall b hb)⟩
    constructor
    · rw [hr, hsts]
      exact ⟨hrow.devStst, (congrArg UInt32.ofInt hrow.devStst).trans rfl⟩
    · exact hbus.trans hrow.slotBus
    · exact hdevice.trans hrow.slotDevice
    · rw [hresource, hbar]
      exact hrow.bars bar
  · refine ⟨?_, fun _ => ?_⟩
    · rintro ⟨b, hb, hthis⟩
      rw [hnum b hb] at hthis
      exact absurd (by exact_mod_cast hthis) (hnone b hb)
    · have hzero : (⟨reply.phsAddress, reply.phsEnd, reply.phsFlag⟩ : UpciedevBarAddress) = {} := by
        rw [hresource, ← hblank.bars bar, ← hbar]
        rfl
      obtain ⟨haddress, hend, hflag⟩ := UpciedevBarAddress.mk.inj hzero
      constructor
      · rw [hr, hsts]
        exact ⟨hblank.devStst, (congrArg UInt32.ofInt hblank.devStst).trans rfl⟩
      · exact hbus.trans hblank.slotBus
      · exact hdevice.trans hblank.slotDevice
      · exact ⟨haddress, hend, hflag⟩

theorem oneBarHardware_narrow : oneBarHardware.Narrow := by
  constructor <;> decide

def ntbBoard (dev : PciDev) (entry : Entry) : Board := ⟨0, dev, entry, oneBarHardware, 2⟩

def slot13 : DevicePhysAddress :=
  { slot := 13, bar := 0, offset := 0, phsAddress := 0, phsEnd := 0, phsFlag := 0,
    reserved := 0, sts := 0 }

def Crate.single (w : World Unit) : Crate Unit :=
  Crate.put ⟨fun _ _ => {}, fun _ => .uniform {}⟩ 0 w

theorem single_setUp {P R : Set Board → Board → Prop} {w₀ w : World Unit} {tr₀ tr : Trace}
    (hload : pciedevInitModule.Run (driver (Outcome.environment {})) (.uniform {}) tr₀ 0 w₀)
    (hset : upciedevInitModuleExp.Run (driver (Outcome.environment {}))
      (Crate.view ⟨w₀.baseUpciedevDev, fun _ => .uniform {}⟩ 0) tr 0 w) :
    CrateRun P R (.single w) {0} ∅ := by
  have hloaded : CrateRun P R ⟨w₀.baseUpciedevDev, fun _ => .uniform {}⟩ ∅ ∅ := .load _ rfl hload
  have hrun := CrateRun.setUp hloaded (Set.notMem_empty 0) hset
  simpa [Crate.single, Crate.put] using hrun

theorem single_probe {P R : Set Board → Board → Prop} {w u : World Unit} {tr : Trace}
    {boards : Set Board} (dev : PciDev) (entry : Entry) (h : CrateRun P R (.single w) {0} boards)
    (hdev : ∀ b ∈ boards, b.dev ≠ dev)
    (hprobe : (pciedevProbeExp 0 dev 2).Run (driver (Outcome.environment {})) w tr (0, entry.val) u)
    (hP : P boards (ntbBoard dev entry)) :
    CrateRun P R (.single u) {0} (insert (ntbBoard dev entry) boards) := by
  have hview : (Crate.single w).view (ntbBoard dev entry).client = w := Crate.view_put _ _ _
  have hrun := CrateRun.probe (b := ntbBoard dev entry) h rfl hdev (oneBarHardware_answers dev)
    (hview ▸ hprobe) hP
  simpa [Crate.single, Crate.put, ntbBoard] using hrun

set_option maxRecDepth 8000 in
theorem slot_lookup_describes_boards_ntb : ∃ (s : Crate Unit) (tr : Trace) (r : ℤ)
    (reply : DevicePhysAddress) (u : World Unit), CrateRun Covers Alone s {0} {ntbBoard 0 0} ∧
    (pciedevGetSlotPciedevp 0 slot13).Run (driver (Outcome.environment {})) (s.view 0) tr
      (r, reply) u ∧
    LookupDescribes s {ntbBoard 0 0} 13 0 r reply := by
  obtain ⟨_, w₀, _, w₁, _, w₂, tr, reply, u, hload, hset, hprobe, hlookup⟩ : ∃ (tr₀ : Trace)
      (w₀ : World Unit) (tr₁ : Trace) (w₁ : World Unit) (tr₂ : Trace) (w₂ : World Unit) (tr : Trace)
      (reply : ℤ × DevicePhysAddress) (u : World Unit),
      pciedevInitModule.Run (driver (Outcome.environment {})) (.uniform {}) tr₀ 0 w₀ ∧
      upciedevInitModuleExp.Run (driver (Outcome.environment {}))
        (Crate.view ⟨w₀.baseUpciedevDev, fun _ => .uniform {}⟩ 0) tr₁ 0 w₁ ∧
      (pciedevProbeExp 0 0 2).Run (driver (Outcome.environment {})) w₁ tr₂ ((0 : ℤ), 0) w₂ ∧
      (pciedevGetSlotPciedevp 0 slot13).Run (driver (Outcome.environment {})) w₂ tr reply u :=
    ⟨_, _, _, _, _, _, _, _, _, run_of_answers (Outcome.answers {}) (fun _ _ _ _ h => h) rfl,
      run_of_answers (Outcome.answers {}) (fun _ _ _ _ h => h) rfl,
      run_of_answers (Outcome.answers {}) (fun _ _ _ _ h => h) rfl,
      run_of_answers (Outcome.answers {}) (fun _ _ _ _ h => h) rfl⟩
  have hcovers : Covers ∅ (ntbBoard 0 0) := fun _ =>
    ⟨oneBarHardware_narrow, fun _ hb => absurd hb (Set.notMem_empty _)⟩
  have hrun : CrateRun Covers Alone (.single w₂) {0} {ntbBoard 0 0} := by
    have hbound := single_probe (R := Alone) 0 0 (single_setUp hload hset) (by simp) hprobe hcovers
    simpa using hbound
  have hview : (Crate.single w₂).view 0 = w₂ := Crate.view_put _ _ _
  obtain ⟨r, reply⟩ := reply
  have hlookup' : (pciedevGetSlotPciedevp 0 slot13).Run (driver (Outcome.environment {}))
      ((Crate.single w₂).view 0) tr (r, reply) u := hview ▸ hlookup
  have hne : slot13.slot ≠ 0 := by decide
  have hbar : slot13.bar.toNat = (0 : Bar).val := rfl
  have hdescribes := slot_lookup_describes_boards hrun (k := 0) rfl hne hbar hlookup'
  exact ⟨_, tr, r, reply, u, hrun, hlookup', hdescribes⟩

theorem entered_of_probe {w u : World Unit} {tr : Trace} {dev : PciDev} {entry : Entry}
    (hprobe : (pciedevProbeExp 0 dev 2).Run (driver (Outcome.environment {})) w tr (0,
      entry.val) u) :
    Entered oneBarHardware 2 entry dev w u := by
  rcases hprobe.of_wp (pciedevProbeExp_effect (oneBarHardware_answers dev) 0 2) with
    ⟨hr, _⟩ | ⟨b, hval, _, hend⟩
  · have herr : (0 : ℤ) = -1 := congrArg Prod.fst hr
    omega
  · obtain rfl : entry = b := Fin.ext hval
    rcases hend with ⟨_, hentered⟩ | ⟨herr, _⟩
    · exact hentered
    · exact absurd rfl herr

set_option maxRecDepth 8000 in
/-- Two boards are bound in slot 13, and the first is removed: the slot looks empty. -/
theorem shared_slot_lost : ∃ (s : Crate Unit) (boards : Set Board) (tr : Trace) (r : ℤ)
    (reply : DevicePhysAddress) (u : World Unit),
      CrateRun (fun _ _ => True) (fun _ _ => True) s {0} boards ∧
    (pciedevGetSlotPciedevp 0 slot13).Run (driver (Outcome.environment {})) (s.view 0) tr
      (r, reply) u ∧
    ¬ LookupDescribes s boards 13 0 r reply := by
  obtain ⟨_, w₀, _, w₁, _, w₂, _, w₃, _, w₄, tr, ⟨r, reply⟩, u, hload, hset, hfirst,
      hsecond, hremove,
      hlookup⟩ : ∃ (tr₀ : Trace) (w₀ : World Unit) (tr₁ : Trace) (w₁ : World Unit) (tr₂ : Trace)
      (w₂ : World Unit) (tr₃ : Trace) (w₃ : World Unit) (tr₄ : Trace) (w₄ : World Unit) (tr : Trace)
      (reply : ℤ × DevicePhysAddress) (u : World Unit),
      pciedevInitModule.Run (driver (Outcome.environment {})) (.uniform {}) tr₀ 0 w₀ ∧
      upciedevInitModuleExp.Run (driver (Outcome.environment {}))
        (Crate.view ⟨w₀.baseUpciedevDev, fun _ => .uniform {}⟩ 0) tr₁ 0 w₁ ∧
      (pciedevProbeExp 0 0 2).Run (driver (Outcome.environment {})) w₁ tr₂ ((0 : ℤ), 0) w₂ ∧
      (pciedevProbeExp 0 1 2).Run (driver (Outcome.environment {})) w₂ tr₃ ((0 : ℤ), 1) w₃ ∧
      (pciedevRemoveExp 1 0).Run (driver (Outcome.environment {})) w₃ tr₄ 0 w₄ ∧
      (pciedevGetSlotPciedevp 0 slot13).Run (driver (Outcome.environment {})) w₄ tr reply u :=
    ⟨_, _, _, _, _, _, _, _, _, _, _, _, _,
      run_of_answers (Outcome.answers {}) (fun _ _ _ _ h => h) rfl,
      run_of_answers (Outcome.answers {}) (fun _ _ _ _ h => h) rfl,
      run_of_answers (Outcome.answers {}) (fun _ _ _ _ h => h) rfl,
      run_of_answers (Outcome.answers {}) (fun _ _ _ _ h => h) rfl,
      run_of_answers (Outcome.answers {}) (fun _ _ _ _ h => h) rfl,
      run_of_answers (Outcome.answers {}) (fun _ _ _ _ h => h) rfl⟩
  have hentered₀ : Entered oneBarHardware 2 0 0 w₁ w₂ := entered_of_probe hfirst
  have hentered₁ : Entered oneBarHardware 2 1 1 w₂ w₃ := entered_of_probe hsecond
  have hdrvdata : w₃.drvdata 0 = some 0 := by
    rw [hentered₁.drvdata, hentered₀.drvdata]
    rfl
  have hremoved : Removed 0 w₃ w₄ := hremove.of_wp (pciedevRemoveExp_wp _ _ hdrvdata)
  have hparent d : (w₁.pciedevDevM d).parentBaseDev = .pciedevUfn := by
    rw [(hset.of_wp upciedevInitModuleExp_wp rfl).2 d]
    rfl
  have hnum₀ : (w₃.pciedevDevM 0).slotNum = 13 := by
    rw [hentered₁.others 0 (by decide), hentered₀.slotNum]
    rfl
  have hparent₀ : (w₃.pciedevDevM 0).parentBaseDev = .pciedevUfn := by
    rw [hentered₁.others 0 (by decide), hentered₀.parentBaseDev, hparent]
  have hnum₁ : (w₄.pciedevDevM 1).slotNum = 13 := by
    rw [(hremoved.sameSlots 1).2, hentered₁.slotNum]
    rfl
  have hempty : r = 0 := by
    obtain ⟨hr, _⟩ := hlookup.of_wp (pciedevGetSlotPciedevp_wp 0 slot13 (by decide))
    dsimp only at hr
    rw [hr, (hremoved.sameSlots 0).1, hparent₀, hremoved.baseUpciedevDev, hparent₀, hnum₀]
    rfl
  have hfirstBound := single_probe (P := fun _ _ => True) (R := fun _ _ => True)
    0 0 (single_setUp hload hset) (by simp) hfirst trivial
  have hsecondBound := single_probe 1 1 hfirstBound (by simp [ntbBoard]) hsecond trivial
  have hrun : CrateRun (fun _ _ => True) (fun _ _ => True) (.single w₄) {0}
      (insert (ntbBoard 1 1) (insert (ntbBoard 0 0) ∅) \ {ntbBoard 0 0}) := by
    have hview : (Crate.single w₃).view (ntbBoard 0 0).client = w₃ := Crate.view_put _ _ _
    have hlast :=
      CrateRun.remove (b := ntbBoard 0 0) hsecondBound (by simp) (hview ▸ hremove) trivial
    simpa [Crate.single, Crate.put, ntbBoard] using hlast
  refine ⟨_, _, tr, r, reply, u, hrun, ?_, fun hdescribes => ?_⟩
  · have hview : (Crate.single w₄).view 0 = w₄ := Crate.view_put _ _ _
    exact hview ▸ hlookup
  · have hslot : (Crate.single w₄).slotNum (ntbBoard 1 1) = 13 := by
      simpa [Crate.slotNum, Crate.single, ntbBoard] using hnum₁
    obtain ⟨_, _, _, hreports⟩ := hdescribes.1 ⟨ntbBoard 1 1, by simp [ntbBoard], hslot⟩
    rw [hempty] at hreports
    exact absurd hreports.status.1 (by decide)

end Upciedev
