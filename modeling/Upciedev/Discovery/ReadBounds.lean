import Upciedev.Discovery.BarScan

/-!
# Where discovery reads

Offsets of headers are words of the device, and no size of a BAR is looked at. The reads stay
inside the mapped windows exactly if every offset that a search looks at leaves room for what is
read there.
-/
namespace Upciedev

open Foundations Program

variable {ε α : Type} {E : Environment ε} {w : World ε} {dev : Entry} {size : IoPtr → ℕ}

/-- A register read lies with all its bytes inside the window behind its base address. -/
def Inside (size : IoPtr → ℕ) : Op → Prop
  | .kernel (.ioread width a) => 0 ≤ a.off ∧ a.off + width.bytes ≤ size a.base
  | _ => True

/-- The words at the given distances from an offset lie in a window of `n` bytes. -/
def WordsFit (n : ℕ) (off : ℤ) (l : List ℤ) : Prop := ∀ o ∈ l, 0 ≤ off + o ∧ off + o + 4 ≤ n

theorem wordsFit_cons {n : ℕ} {off o : ℤ} {l : List ℤ} :
    WordsFit n off (o :: l) ↔ (0 ≤ off + o ∧ off + o + 4 ≤ n) ∧ WordsFit n off l :=
  List.forall_mem_cons

theorem wordsFit_nil {n : ℕ} {off : ℤ} : WordsFit n off [] := List.forall_mem_nil _

section
variable {base : IoPtr} {regs : ℤ → UInt32} {off : ℤ}

theorem guarded_store {f : PciedevDev → PciedevDev} {k : Unit → Kernel α} :
    (call (I := driverInterface) (.store dev f) k).Guarded (driver E) (Inside size) w ↔
      (k ()).Guarded (driver E) (Inside size) (w.updateDev dev f) :=
  (guarded_step (.store dev f) (fun _ _ => (and_iff_right rfl).symm) k).trans
    (and_iff_right trivial)

theorem guarded_load {k : PciedevDev → Kernel α} :
    (call (I := driverInterface) (.load dev) k).Guarded (driver E) (Inside size) w ↔
      (k (w.pciedevDevM dev)).Guarded (driver E) (Inside size) w :=
  (guarded_step (.load dev) (fun _ _ => Iff.rfl) k).trans (and_iff_right trivial)

variable (hE : Registers E base regs)
include hE

theorem Registers.guarded_ioread {k : UInt32 → Kernel α} {c : Prop}
    (hk : ∀ e, (k (regs off)).Guarded (driver E) (Inside size) (w.withEnv e) ↔ c) :
    (call (I := driverInterface) (.kernel (.ioread .w32 ⟨base, off⟩)) k).Guarded (driver E)
      (Inside size) w ↔ (0 ≤ off ∧ off + 4 ≤ size base) ∧ c := by
  constructor
  · rintro ⟨hinside, hrest⟩
    obtain ⟨r, e, hr⟩ := hE.answers (.ioread .w32 ⟨base, off⟩) w.env
    obtain rfl : r = regs off := hE.reads _ _ _ _ hr
    exact ⟨hinside, (hk e).mp (hrest _ _ ⟨e, hr, rfl⟩)⟩
  · rintro ⟨hinside, hc⟩
    refine ⟨hinside, ?_⟩
    rintro r _ ⟨e, hr, rfl⟩
    obtain rfl : r = regs off := hE.reads _ _ _ _ hr
    exact (hk e).mpr hc

theorem Registers.guarded_kzalloc {o : KObject} {k : Bool → Kernel α} {c : Prop}
    (hk : ∀ e, (k true).Guarded (driver E) (Inside size) (w.withEnv e) ↔ c) :
    (call (I := driverInterface) (.kernel (.kzalloc o)) k).Guarded (driver E) (Inside size) w ↔
      c := by
  constructor
  · rintro ⟨-, hrest⟩
    obtain ⟨r, e, hr⟩ := hE.answers (.kzalloc o) w.env
    obtain rfl : r = true := hE.kzalloc _ _ _ _ hr
    exact (hk e).mp (hrest _ _ ⟨e, hr, rfl⟩)
  · intro hc
    refine ⟨trivial, ?_⟩
    rintro r _ ⟨e, hr, rfl⟩
    obtain rfl : r = true := hE.kzalloc _ _ _ _ hr
    exact (hk e).mpr hc

theorem Registers.guarded_field {o : ℤ} {l : List ℤ} {k : UInt32 → Kernel α}
    (hk : ∀ e, (k (regs (off + o))).Guarded (driver E) (Inside size) (w.withEnv e) ↔
      WordsFit (size base) off l) :
    (call (I := driverInterface) (.kernel (.ioread .w32 ⟨base, off + o⟩)) k).Guarded (driver E)
      (Inside size) w ↔ WordsFit (size base) off (o :: l) :=
  (hE.guarded_ioread hk).trans wordsFit_cons.symm

variable (dev) in
theorem fillPrjInfo_guarded (w : World ε) :
    (pciedevFillPrjInfo dev ⟨base, off⟩).Guarded (driver E) (Inside size) w ↔
      (0 ≤ off ∧ off + 4 ≤ size base) ∧ (IsProject regs off → WordsFit (size base) off
        [0x04, 0x08, 0x0C, 0x10, 0x18]) := by
  simp only [pciedevFillPrjInfo, perform_eq, call_bind, ret_bind]
  apply hE.guarded_ioread
  intro e
  by_cases hheader : IsProject regs off
  · have hmagic : regs off = asciiProjMagicNum := hheader
    rw [if_pos hmagic, imp_iff_right hheader, guarded_store]
    apply hE.guarded_kzalloc
    intro _
    simp only [if_true, readPrjInfo, perform_eq, call_bind, ret_bind]
    iterate 5 refine hE.guarded_field fun _ => ?_
    simp only [pure_eq, ret_bind, guarded_store, guarded_ret, wordsFit_nil]
  · have hmagic : regs off ≠ asciiProjMagicNum := hheader
    rw [if_neg hmagic]
    exact iff_of_true trivial fun h => absurd h hheader

variable (dev) in
theorem fillShapiModuleInfo_guarded (w : World ε) :
    (pciedevFillShapiModuleInfo dev ⟨base, off⟩).Guarded (driver E) (Inside size) w ↔
      (0 ≤ off ∧ off + 4 ≤ size base) ∧ (IsModule regs off → WordsFit (size base) off
        [0x00, 0x08, 0x0C, 0x18, 0x1C, 0x20, 0x24, 0x28, 0x2C, 0x30, 0x34, 0x10, 0x14, 0x04]) := by
  simp only [pciedevFillShapiModuleInfo, perform_eq, call_bind, ret_bind]
  apply hE.guarded_ioread
  intro e
  by_cases hheader : IsModule regs off
  · have hmagic : regs off >>> 16 = shapiMagicModuleNum := hheader
    rw [if_pos hmagic, imp_iff_right hheader, guarded_store]
    apply hE.guarded_kzalloc
    intro _
    simp only [if_true, guarded_load, readModuleInfo, perform_eq, call_bind, ret_bind]
    iterate 7 refine hE.guarded_field fun _ => ?_
    rw [guarded_store]
    iterate 7 refine hE.guarded_field fun _ => ?_
    simp only [pure_eq, ret_bind, guarded_store, guarded_ret, wordsFit_nil]
  · have hmagic : regs off >>> 16 ≠ shapiMagicModuleNum := hheader
    rw [if_neg hmagic]
    exact iff_of_true trivial fun h => absurd h hheader

/-- The bytes of BAR 0 that the header of a board of this kind takes. -/
def BoardKind.headerBytes : BoardKind → ℕ
  | desy => 0x1C
  | shapi => 0x40
  | unknown => 0x04

theorem fillBrdInfo_guarded (w : World ε) :
    (fillBrdInfo dev ⟨base, off⟩).Guarded (driver E) (Inside size) w ↔ WordsFit (size base) off
      [0x04, 0x08, 0x0C, 0x10, 0x18] := by
  simp only [fillBrdInfo, readField, perform_eq, call_bind, ret_bind]
  iterate 4
    apply hE.guarded_field
    intro _
    rw [guarded_store]
  rw [guarded_store]
  apply hE.guarded_field
  intro _
  simp only [guarded_store, guarded_ret, wordsFit_nil]

theorem fillDeviceInfo_guarded (w : World ε) :
    (fillDeviceInfo dev ⟨base, off⟩).Guarded (driver E) (Inside size) w ↔ WordsFit (size base) off
      [0x00, 0x04, 0x08, 0x0C, 0x10, 0x14, 0x24, 0x28, 0x2C, 0x30, 0x34, 0x38, 0x3C, 0x18, 0x1C,
        0x20] := by
  simp only [fillDeviceInfo, fillFwName, readField, perform_eq, call_bind, ret_bind]
  iterate 13
    apply hE.guarded_field
    intro _
    rw [guarded_store]
  rw [guarded_store]
  iterate 3
    apply hE.guarded_field
    intro _
    rw [guarded_store]
  simp only [guarded_ret, wordsFit_nil]

end

/-- Operations of the header's reader, which all have a response on such a board. -/
def Answered : Op → Prop
  | .store _ _ | .load _ | .kernel _ => True
  | _ => False

theorem pciedevGetBrdinfo_answered : (pciedevGetBrdinfo dev).Only Answered := by
  simp [pciedevGetBrdinfo, fillBrdInfo, fillDeviceInfo, fillFwName, readField, Answered]

section
variable {base : IoPtr} {regs : ℤ → UInt32} (hregs : base ≠ none → Registers E base regs)
  (hbase : (w.pciedevDevM dev).memmoryBase 0 = base)
include hregs hbase

theorem pciedevGetBrdinfo_guarded :
    (pciedevGetBrdinfo dev).Guarded (driver E) (Inside size) w ↔
      (base ≠ none → (boardKind base (regs 0)).headerBytes ≤ size base) := by
  have hcleared : ((w.updateDev dev fun v =>
      { v with startupBrd := 0, shapiBrd := 0, shapiModuleNum := 0 }).pciedevDevM
        dev).memmoryBase 0 =
      base := by
    rw [World.updateDev_self]
    exact hbase
  simp only [pciedevGetBrdinfo, perform_eq, call_bind, ret_bind, guarded_store, guarded_load]
  rw [hcleared]
  by_cases hnone : base = none
  · rw [if_pos hnone]
    exact iff_of_true trivial fun h => absurd hnone h
  · have hE := hregs hnone
    rw [if_neg hnone, imp_iff_right hnone]
    by_cases hdesy : regs 0 = asciiBoardMagicNum ∨ regs 0 = asciiBoardMagicNumL
    · have hkind : boardKind base (regs 0) = .desy := (if_neg hnone).trans (if_pos hdesy)
      have hfields : WordsFit (size base) 0 [0x04, 0x08, 0x0C, 0x10, 0x18] ↔ 0x1C ≤ size base := by
        simp only [wordsFit_cons, wordsFit_nil, and_true]
        omega
      rw [hkind]
      refine (hE.guarded_ioread (c := 0x1C ≤ size base) fun e => ?_).trans ?_
      · rw [if_pos hdesy, guarded_store, guarded_bind, fillBrdInfo_guarded hE, hfields]
        exact and_iff_left (wp_of_forall fun _ _ _ => guarded_load.mpr trivial)
      · simp only [BoardKind.headerBytes]
        omega
    · by_cases hshapi : regs 0 >>> 16 = shapiMagicDeviceNum
      · have hkind : boardKind base (regs 0) = .shapi :=
          ((if_neg hnone).trans (if_neg hdesy)).trans (if_pos hshapi)
        have hfields :
            WordsFit (size base) 0 [0x00, 0x04, 0x08, 0x0C, 0x10, 0x14, 0x24, 0x28, 0x2C, 0x30,
            0x34, 0x38, 0x3C, 0x18, 0x1C, 0x20] ↔ 0x40 ≤ size base := by
          simp only [wordsFit_cons, wordsFit_nil, and_true]
          omega
        rw [hkind]
        refine (hE.guarded_ioread (c := 0x40 ≤ size base) fun e => ?_).trans ?_
        · rw [if_neg hdesy, if_pos hshapi, guarded_store, guarded_bind, fillDeviceInfo_guarded hE,
            hfields]
          exact and_iff_left (wp_of_forall fun _ _ _ => trivial)
        · simp only [BoardKind.headerBytes]
          omega
      · have hkind : boardKind base (regs 0) = .unknown :=
          ((if_neg hnone).trans (if_neg hdesy)).trans (if_neg hshapi)
        rw [hkind]
        refine (hE.guarded_ioread (c := True) fun e => ?_).trans ?_
        · rw [if_neg hdesy, if_neg hshapi]
          exact Iff.rfl
        · simp only [BoardKind.headerBytes, and_true]
          omega

end

/-- The offsets of BAR 0 that a walk from an offset looks at. -/
inductive Reached (isHeader : ℤ → Prop) (next : ℤ → UInt32) : ℤ → ℤ → Prop
  | here {a : ℤ} (hne : a ≠ 0) : Reached isHeader next a a
  | next {a p : ℤ} (hne : a ≠ 0) (hheader : isHeader a)
      (hrest : Reached isHeader next (cInt (next a)) p) :
      Reached isHeader next a p

/-- The BARs that the scan of a list looks at: no header before them keeps it back. -/
inductive Scanned (h : Headers) : List Bar → Bar → Prop
  | here {i : Bar} {bars : List Bar} (hmapped : h.mapped i) : Scanned h (i :: bars) i
  | later {i j : Bar} {bars : List Bar} (hlast : h.mapped j → h.isHeader j 0 → h.next j 0 = 0)
      (hrest : Scanned h bars i) : Scanned h (j :: bars) i

/-- The offsets that a search looks at which starts at an offset of BAR 0. -/
inductive Headers.Looks (h : Headers) (a : ℤ) : Bar → ℤ → Prop
  | chain {p : ℤ} (hreached : Reached (h.isHeader 0) (h.next 0) a p) : Looks h a 0 p
  | scan {i : Bar} (hzero : a = 0) (hscanned : Scanned h scannedBars i) : Looks h a i 0

/-- An offset leaves room for the first word of a header, and at a header for the given bytes. -/
def Headers.Fits (h : Headers) (window : Bar → ℕ) (bytes : ℕ) (i : Bar) (off : ℤ) : Prop :=
  0 ≤ off ∧ off + 4 ≤ window i ∧ (h.isHeader i off → off + bytes ≤ window i)

/-- One round of a search stays inside exactly if its offset leaves room. -/
def Headers.Bounded (h : Headers) (E : Environment ε) (base : Bar → IoPtr) (size : IoPtr → ℕ)
    (bytes : ℕ) (fill : IoAddr → Kernel ℤ) : Prop :=
  ∀ (i : Bar) (off : ℤ) (w : World ε), h.mapped i →
    ((fill ⟨base i, off⟩).Guarded (driver E) (Inside size) w ↔
      h.Fits (fun i => size (base i)) bytes i off)

theorem Reached.ne_zero {isHeader : ℤ → Prop} {next : ℤ → UInt32} {a p : ℤ}
    (hreached : Reached isHeader next a p) : a ≠ 0 := by
  cases hreached <;> assumption

section
variable {h : Headers} {base : Bar → IoPtr} {fill : IoAddr → Kernel ℤ} {bytes : ℕ}

theorem followChain_zero (baddress : IoAddr) (fuel : ℕ) :
    (followChain fill baddress fuel 0).Guarded (driver E) (Inside size) w := by
  cases fuel <;> exact trivial

section
variable (hbounded : h.Bounded E base size bytes fill)
include hbounded

theorem followChain_step (hmapped : h.mapped 0) {a : ℤ} (hne : a ≠ 0) (fuel : ℕ) :
    (followChain fill ⟨base 0, 0⟩ (fuel + 1) a).Guarded (driver E) (Inside size) w ↔
      h.Fits (fun i => size (base i)) bytes 0 a ∧ (fill ⟨base 0, a⟩).wp (driver E) w fun _ r u =>
        (followChain fill ⟨base 0, 0⟩ fuel r).Guarded (driver E) (Inside size) u := by
  have haddr : (⟨base 0, 0⟩ : IoAddr).add a = ⟨base 0, a⟩ := by simp [IoAddr.add]
  rw [followChain, if_neg hne, guarded_bind, haddr, hbounded 0 a w hmapped]

variable (hwalk : h.Walked E dev base fill)
include hwalk

theorem followChain_fits (hmapped : h.mapped 0) {a p : ℤ}
    (hreached : Reached (h.isHeader 0) (h.next 0) a p)
    (hbase : (w.pciedevDevM dev).memmoryBase = base)
    (hall : ∀ fuel, (followChain fill ⟨base 0, 0⟩ fuel a).Guarded (driver E) (Inside size) w) :
    h.Fits (fun i => size (base i)) bytes 0 p := by
  induction hreached generalizing w with
  | here hne => exact ((followChain_step hbounded hmapped hne 0).mp (hall 1)).1
  | next hne hheader _ ih =>
    obtain ⟨tr, r, u, hrun, hyes, -, hu⟩ := (hwalk 0 _ w hmapped hbase).exists_run
    apply ih hu
    intro fuel
    rw [← hyes hheader]
    exact hrun.of_wp ((followChain_step hbounded hmapped hne fuel).mp (hall (fuel + 1))).2

theorem followChain_guarded (hmapped : h.mapped 0) (fuel : ℕ) {a : ℤ}
    (hfits : ∀ p, Reached (h.isHeader 0) (h.next 0) a p → h.Fits (fun i => size (base i)) bytes 0 p)
    (hbase : (w.pciedevDevM dev).memmoryBase = base) :
    (followChain fill ⟨base 0, 0⟩ fuel a).Guarded (driver E) (Inside size) w := by
  induction fuel generalizing a w with
  | zero =>
    rw [followChain]
    split_ifs <;> simp [guarded_fault, Inside]
  | succ fuel ih =>
    by_cases hzero : a = 0
    · subst hzero
      exact followChain_zero _ _
    · refine (followChain_step hbounded hmapped hzero fuel).mpr ⟨hfits a (.here hzero), ?_⟩
      apply wp_mono (hwalk 0 a w hmapped hbase).wp
      rintro _ r u ⟨hyes, hno, hu⟩
      by_cases hheader : h.isHeader 0 a
      · rw [hyes hheader]
        exact ih (fun p hp => hfits p (.next hzero hheader hp)) hu
      · rw [hno hheader]
        exact followChain_zero _ _

theorem refillStart_guarded {i : Bar} (hmapped : h.mapped i) (fuel : ℕ) (a : ℤ)
    (hfits : h.Fits (fun i => size (base i)) bytes i 0)
    (hbase : (w.pciedevDevM dev).memmoryBase = base) :
    (refillStart fill ⟨base i, 0⟩ fuel a).Guarded (driver E) (Inside size) w := by
  induction fuel generalizing a w with
  | zero =>
    rw [refillStart]
    split_ifs <;> simp [guarded_fault, Inside]
  | succ fuel ih =>
    rw [refillStart]
    split_ifs
    · trivial
    · refine (guarded_bind ..).mpr ⟨(hbounded i 0 w hmapped).mpr hfits, ?_⟩
      apply wp_mono (hwalk i 0 w hmapped hbase).wp
      rintro _ r u ⟨-, -, hu⟩
      exact ih r hu

theorem scanBars_guarded (hmapped : ∀ i, h.mapped i ↔ base i ≠ none) (fuel : ℕ) (bars : List Bar)
    (hfits : ∀ i, Scanned h bars i → h.Fits (fun i => size (base i)) bytes i 0)
    (hbase : (w.pciedevDevM dev).memmoryBase = base) :
    (scanBars fill dev fuel bars).Guarded (driver E) (Inside size) w := by
  induction bars generalizing w with
  | nil => trivial
  | cons i bars ih =>
    simp only [scanBars, perform_eq, call_bind, ret_bind, guarded_load, hbase]
    split_ifs with hnone
    · have hlast : h.mapped i → h.isHeader i 0 → h.next i 0 = 0 :=
        fun hm => absurd hnone ((hmapped i).mp hm)
      exact ih (fun j hj => hfits j (.later hlast hj)) hbase
    · have hm := (hmapped i).mpr hnone
      refine (guarded_bind ..).mpr
        ⟨refillStart_guarded hbounded hwalk hm fuel 1 (hfits i (.here hm)) hbase, ?_⟩
      apply wp_mono (refillStart_ends hwalk hm fuel one_ne_zero hbase)
      rintro _ _ u ⟨hlast, hu⟩
      exact ih (fun j hj => hfits j (.later (fun _ => hlast) hj)) hu

theorem scanBars_fits (hmapped : ∀ i, h.mapped i ↔ base i ≠ none) {fuel : ℕ} {bars : List Bar}
    {i : Bar} (hscanned : Scanned h bars i) (hbase : (w.pciedevDevM dev).memmoryBase = base)
    (hall : (scanBars fill dev (fuel + 1) bars).Guarded (driver E) (Inside size) w) :
    h.Fits (fun i => size (base i)) bytes i 0 := by
  induction hscanned generalizing w with
  | @here i bars hm =>
    simp only [scanBars, perform_eq, call_bind, ret_bind, guarded_load, hbase] at hall
    rw [if_neg ((hmapped i).mp hm), guarded_bind, refillStart, if_neg one_ne_zero,
      guarded_bind] at hall
    exact (hbounded i 0 w hm).mp hall.1.1
  | @later i j bars hlast _ ih =>
    simp only [scanBars, perform_eq, call_bind, ret_bind, guarded_load, hbase] at hall
    split_ifs at hall with hnone
    · exact ih hbase hall
    · have hm := (hmapped j).mpr hnone
      obtain ⟨tr, _, u, hrun, hu⟩ :=
        (refillStart_returns hwalk hm (hlast hm) (Nat.succ_pos fuel) hbase).exists_run
      exact ih hu (hrun.of_wp ((guarded_bind ..).mp hall).2)

/-- A search stays inside exactly if every offset that it looks at leaves room. -/
theorem discover_guarded_iff (hmapped : ∀ i, h.mapped i ↔ base i ≠ none) {a : ℤ}
    (hzero : a ≠ 0 → h.mapped 0) (hbase : (w.pciedevDevM dev).memmoryBase = base) :
    (∀ fuel, (discover fill dev fuel a).Guarded (driver E) (Inside size) w) ↔
      ∀ i off, h.Looks a i off → h.Fits (fun i => size (base i)) bytes i off := by
  by_cases ha : a = 0
  · simp only [discover, if_pos ha]
    constructor
    · rintro hall i off (hreached | ⟨-, hscanned⟩)
      · exact absurd ha hreached.ne_zero
      · exact scanBars_fits hbounded hwalk hmapped hscanned hbase (hall 1)
    · intro hfits fuel
      exact scanBars_guarded hbounded hwalk hmapped fuel
        _ (fun i hi => hfits i 0 (.scan ha hi)) hbase
  · simp only [discover, if_neg ha, perform_eq, call_bind, ret_bind, guarded_load, hbase]
    constructor
    · rintro hall i off (hreached | ⟨hz, -⟩)
      · exact followChain_fits hbounded hwalk (hzero ha) hreached hbase hall
      · exact absurd hz ha
    · intro hfits fuel
      exact followChain_guarded hbounded hwalk (hzero ha) fuel
        (fun p hp => hfits 0 p (.chain hp)) hbase

end
end

/-- The board leaves room for what the probe reads of it: for the header of its kind, and at every
offset that the search for projects or modules looks at. -/
def DiscoveryFits (base : Bar → IoPtr) (regs : Bar → ℤ → UInt32) (size : IoPtr → ℕ) : Prop :=
  base 0 ≠ none → (boardKind (base 0) (regs 0 0)).headerBytes ≤ size (base 0) ∧
    match boardKind (base 0) (regs 0 0) with
    | .desy =>
        ∀ i off, (projectHeaders (fun i => base i ≠ none) regs).Looks (cInt (regs 0 0x18)) i off →
        (projectHeaders (fun i => base i ≠ none) regs).Fits (fun i => size (base i)) 0x1C i off
    | .shapi =>
        ∀ i off, (moduleHeaders (fun i => base i ≠ none) regs).Looks (cInt (regs 0 0x04)) i off →
        (moduleHeaders (fun i => base i ≠ none) regs).Fits (fun i => size (base i)) 0x38 i off
    | .unknown => True

section
variable {base : Bar → IoPtr} {regs : Bar → ℤ → UInt32} (hregs : BoardRegisters E base regs)
include hregs

theorem projects_bounded : (projectHeaders (fun i => base i ≠ none) regs).Bounded E base size 0x1C
    (pciedevFillPrjInfo dev) := by
  intro i off w hmapped
  rw [fillPrjInfo_guarded dev (hregs i hmapped)]
  unfold Headers.Fits
  rw [and_assoc]
  refine and_congr_right fun hstart => and_congr_right fun _ => imp_congr_right fun _ => ?_
  simp only [wordsFit_cons, wordsFit_nil, and_true]
  omega

theorem modules_bounded : (moduleHeaders (fun i => base i ≠ none) regs).Bounded E base size 0x38
    (pciedevFillShapiModuleInfo dev) := by
  intro i off w hmapped
  rw [fillShapiModuleInfo_guarded dev (hregs i hmapped)]
  unfold Headers.Fits
  rw [and_assoc]
  refine and_congr_right fun hstart => and_congr_right fun _ => imp_congr_right fun _ => ?_
  simp only [wordsFit_cons, wordsFit_nil, and_true]
  omega

section
variable (hbase : (w.pciedevDevM dev).memmoryBase = base) (hzero : base 0 ≠ none)
include hbase hzero

theorem pciedevGetPrjinfo_guarded :
    (∀ fuel, (pciedevGetPrjinfo fuel dev).Guarded (driver E) (Inside size) w) ↔
      ∀ i off, (projectHeaders (fun i => base i ≠ none) regs).Looks
        (cInt (w.pciedevDevM dev).brdInfoList.pciedevProjNext) i off →
        (projectHeaders (fun i => base i ≠ none) regs).Fits (fun i => size (base i))
          0x1C i off := by
  rw [← discover_guarded_iff (projects_bounded hregs) (projects_walked hregs) (fun _ => Iff.rfl)
    (fun _ => hzero) (w := w.updateDev dev fun v => { v with startupPrjNum := 0 })
    (by rw [World.updateDev_self, ← hbase])]
  apply forall_congr'
  intro fuel
  simp only [pciedevGetPrjinfo, perform_eq, call_bind, ret_bind, guarded_store, guarded_load,
    guarded_bind, World.updateDev_self]
  exact and_iff_left (wp_of_forall fun _ _ _ => trivial)

theorem pciedevGetShapiModuleInfo_guarded :
    (∀ fuel, (pciedevGetShapiModuleInfo fuel dev).Guarded (driver E) (Inside size) w) ↔
      ∀ i off, (moduleHeaders (fun i => base i ≠ none) regs).Looks
        (cInt (w.pciedevDevM dev).deviceInfoList.shapiFirstModuleAddress) i off →
        (moduleHeaders (fun i => base i ≠ none) regs).Fits (fun i => size (base i)) 0x38 i off := by
  rw [← discover_guarded_iff (modules_bounded hregs) (modules_walked hregs) (fun _ => Iff.rfl)
    (fun _ => hzero) (w := w.updateDev dev fun v => { v with shapiModuleNum := 0 })
    (by rw [World.updateDev_self, ← hbase])]
  apply forall_congr'
  intro fuel
  simp only [pciedevGetShapiModuleInfo, perform_eq, call_bind, ret_bind, guarded_store,
    guarded_load, guarded_bind, World.updateDev_self]
  exact and_iff_left (wp_of_forall fun _ _ _ => trivial)

end

theorem pciedevGetBrdinfo_twp (hbase : (w.pciedevDevM dev).memmoryBase = base)
    (hzero : base 0 ≠ none) :
    (pciedevGetBrdinfo dev).twp (driver E) w fun _ r u => r = (boardKind (base 0) (regs 0 0)).code ∧
      ∃ e, u = (w.updateDev dev fun v =>
        v.withHeader (regs 0) (boardKind (base 0) (regs 0 0))).withEnv e := by
  have hanswer (op : Op) (w : World ε) (hop : Answered op) : ∃ r w', driver E op w r w' := by
    cases op with
    | store d f => exact ⟨(), _, rfl⟩
    | load d => exact ⟨_, _, rfl, rfl⟩
    | kernel c =>
      obtain ⟨r, e, hr⟩ := (hregs 0 hzero).answers c w.env
      exact ⟨r, _, e, hr, rfl⟩
    | _ => exact hop.elim
  have hwp := pciedevGetBrdinfo_wp (fun hne => (hregs 0 hne).reads) (congrFun hbase 0)
  exact twp_mono ((pciedevGetBrdinfo_answered.twp hanswer w).and_wp hwp) fun _ _ _ h => h.2

/-- Every register read of the discovery lies inside the window of its BAR exactly if the board
leaves room for the header and for what is read at the offsets that the device names. -/
theorem discovery_reads_inside_iff (hbase : (w.pciedevDevM dev).memmoryBase = base) :
    (∀ fuel tr op k u, Reaches (driver E) (probeInfo fuel dev) w tr (call op k) u →
      Inside size op) ↔
      DiscoveryFits base regs size := by
  have hbase' :
      ((w.updateDev dev fun v => { v with enblIrqNum := 0, deviceIrqNum := 0 }).pciedevDevM
      dev).memmoryBase = base := by rw [World.updateDev_self, ← hbase]
  simp only [← guarded_iff_reaches, probeInfo, perform_eq, call_bind, ret_bind, guarded_store,
    guarded_bind, forall_const, forall_and, ← wp_forall]
  generalize w.updateDev dev (fun v => { v with enblIrqNum := 0, deviceIrqNum := 0 }) = x at hbase'
  have hbar := congrFun hbase' 0
  rw [pciedevGetBrdinfo_guarded (hregs 0) hbar]
  unfold DiscoveryFits
  by_cases hzero : base 0 = none
  · have hkind : boardKind (base 0) (regs 0 0) = .unknown := if_pos hzero
    refine iff_of_true ⟨fun hne => absurd hzero hne, ?_⟩ fun hne => absurd hzero hne
    refine wp_mono (pciedevGetBrdinfo_wp (fun hne => (hregs 0 hne).reads) hbar) ?_
    rintro _ r u ⟨hr, -⟩ fuel
    rw [hr, hkind]
    trivial
  · rw [imp_iff_right hzero, imp_iff_right hzero]
    apply and_congr_right
    intro _
    apply (pciedevGetBrdinfo_twp hregs hbase' hzero).wp_iff
    rintro _ r u ⟨hr, e, hu⟩
    have hmemory : (u.pciedevDevM dev).memmoryBase = base := by
      rw [hu, World.withEnv_pciedevDevM, World.updateDev_self, withHeader_memmoryBase, hbase']
    cases hkind : boardKind (base 0) (regs 0 0) with
    | desy =>
      have hnext : (u.pciedevDevM dev).brdInfoList.pciedevProjNext = regs 0 0x18 := by
        rw [hu, World.withEnv_pciedevDevM, World.updateDev_self, hkind]
        rfl
      rw [hkind] at hr
      subst hr
      rw [← hnext, ← pciedevGetPrjinfo_guarded hregs hmemory hzero]
      apply forall_congr'
      intro fuel
      rw [if_pos (by rfl), guarded_bind]
      exact and_iff_left (wp_of_forall fun _ _ _ => trivial)
    | shapi =>
      have hnext : (u.pciedevDevM dev).deviceInfoList.shapiFirstModuleAddress = regs 0 0x04 := by
        rw [hu, World.withEnv_pciedevDevM, World.updateDev_self, hkind]
        rfl
      rw [hkind] at hr
      subst hr
      rw [← hnext, ← pciedevGetShapiModuleInfo_guarded hregs hmemory hzero]
      apply forall_congr'
      intro fuel
      rw [if_neg (by decide), if_pos (by rfl), guarded_bind]
      exact and_iff_left (wp_of_forall fun _ _ _ => trivial)
    | unknown =>
      rw [hkind] at hr
      subst hr
      exact iff_of_true (fun _ => trivial) trivial

end

/-- The windows that a trace maps, with their BARs and lengths. -/
def mappedWindows (tr : Trace) : List (Bar × UInt32 × IoPtr) :=
  tr.filterMap fun
    | ⟨.kernel (.pciIomap _ i maxlen), p⟩ => some (i, maxlen, p)
    | _ => none

def registerReads (tr : Trace) : List IoAddr :=
  tr.filterMap fun e =>
    match e.op with
    | .kernel (.ioread _ a) => some a
    | _ => none

/-- A SHAPI board of 4 KiB that says its first module is at 0x2000. -/
def farModule : Outcome :=
  { register := fun off => if off = 0 then 0x53480001 else if off = 0x04 then 0x2000 else 0 }

set_option maxRecDepth 8000 in
theorem far_module_read : ∃ (tr : Trace) (u : World Unit),
    (pciedevProbeExp 1 0 0).Run (driver farModule.environment) (.uniform {}) tr ((0 : ℤ), 0) u ∧
    mappedWindows tr = [(0, 0xfff, some 1)] ∧ ⟨some 1, 0x2000⟩ ∈ registerReads tr ∧
    ¬ Inside (fun _ => 0xfff) (.kernel (.ioread .w32 ⟨some 1, 0x2000⟩)) := by
  obtain ⟨tr, u, hprobe, hwindows, hreads⟩ : ∃ (tr : Trace) (u : World Unit),
      (pciedevProbeExp 1 0 0).Run (driver farModule.environment) (.uniform {}) tr ((0 : ℤ), 0) u ∧
      mappedWindows tr = [(0, 0xfff, some 1)] ∧ ⟨some 1, 0x2000⟩ ∈ registerReads tr :=
    ⟨_, _, run_of_answers farModule.answers (fun _ _ _ _ h => h) rfl, rfl, by decide⟩
  refine ⟨tr, u, hprobe, hwindows, hreads, fun hinside => ?_⟩
  have hend := hinside.2
  simp only [Width.bytes] at hend
  omega

def nearModule : Outcome :=
  { register := fun off =>
      if off = 0 then 0x53480001 else if off = 0x04 then 0x200 else if off = 0x200 then
        0x534D0001 else 0 }

theorem discovery_reads_inside_iff_nearModule :
    DiscoveryFits (fun _ => some 1) (fun _ => nearModule.register) (fun _ => 0xfff) ∧
    ∀ fuel tr op k u, Reaches (driver nearModule.environment) (probeInfo fuel 0)
      (.uniform { memmoryBase := fun _ => some 1 }) tr (call op k) u →
        Inside (fun _ => 0xfff) op := by
  have hregs : BoardRegisters nearModule.environment (fun _ => some 1) fun _ =>
      nearModule.register :=
    fun _ _ => nearModule.registers
  have hfits : DiscoveryFits (fun _ => some 1) (fun _ => nearModule.register) (fun _ => 0xfff) := by
    refine fun _ => ⟨by decide, ?_⟩
    rintro i off (hreached | ⟨hzero, -⟩)
    · have hfirst : cInt (nearModule.register 0x04) = 0x200 := by decide
      rw [hfirst] at hreached
      cases hreached with
      | here => exact ⟨by decide, by decide, fun _ => by decide⟩
      | next _ _ hrest => exact absurd rfl hrest.ne_zero
    · exact absurd hzero (by decide)
  exact ⟨hfits, (discovery_reads_inside_iff hregs rfl).mpr hfits⟩

end Upciedev
