import Upciedev.Discovery.Termination

/-!
# The scan of the other BARs against their chains

Without a first offset in the board header the chains of BARs 1 to 5 are meant, each from
offset 0 on. The scan records them exactly if none of them goes on after its first header.
-/
namespace Upciedev

open Foundations Program

variable {ε : Type} {E : Environment ε} {w : World ε} {dev : Entry}

/-- The elements of the chains that start at offset 0 of the mapped BARs of a list, in BAR order and
chain order; all these chains are finite. -/
inductive BarChains (h : Headers) : List Bar → List (Bar × ℤ) → Prop
  | nil : BarChains h [] []
  | none {i : Bar} {bars : List Bar} {l : List (Bar × ℤ)} (hnone : ¬ (h.mapped i ∧ h.isHeader i 0))
      (hrest : BarChains h bars l) : BarChains h (i :: bars) l
  | chain {i : Bar} {bars : List Bar} {l : List (Bar × ℤ)} {offs : List ℤ}
      (hfirst : h.mapped i ∧ h.isHeader i 0)
      (hvisits : Visits (h.isHeader i) (h.next i) (cInt (h.next i 0)) offs)
      (hrest : BarChains h bars l) :
      BarChains h (i :: bars) ((i, 0) :: (offs.map fun off => (i, off)) ++ l)

/-- No header at the start of a mapped BAR of the list names a next one. -/
def Headers.Single (h : Headers) (bars : List Bar) : Prop :=
  ∀ i ∈ bars, h.mapped i → h.isHeader i 0 → h.next i 0 = 0

section
variable {h : Headers} {base : Bar → IoPtr} {fill : IoAddr → Kernel ℤ}
  {add : Bar → ℤ → BoardInfo → BoardInfo} {bars : List Bar} {l : List (Bar × ℤ)}

theorem BarChains.scans (hchains : BarChains h bars l) (hsingle : h.Single bars) :
    Scans (fun i => h.mapped i ∧ h.isHeader i 0) bars l := by
  induction hchains with
  | nil => exact .nil
  | none hnone _ ih =>
    obtain ⟨-, hothers⟩ := List.forall_mem_cons.mp hsingle
    exact .other hnone (ih hothers)
  | @chain i bars l offs hfirst hvisits _ ih =>
    obtain ⟨hthis, hothers⟩ := List.forall_mem_cons.mp hsingle
    rw [hthis hfirst.1 hfirst.2] at hvisits
    obtain rfl : offs = [] := hvisits.unique .zero
    exact .header hfirst (ih hothers)

theorem discover_scans (hwalk : h.Walked E dev base fill) (hrounds : Rounds h E dev base fill add)
    (hmapped : ∀ i, h.mapped i ↔ base i ≠ none) (hchains : BarChains h scannedBars l)
    (hsingle : h.Single scannedBars) :
    ∃ fuel, ∀ w : World ε, (w.pciedevDevM dev).memmoryBase = base →
      (discover fill dev fuel 0).twp (driver E) w fun _ _ u =>
        Notes dev base (addHeaders add l) w u := by
  have hends : h.Ends 0 := ⟨fun hne => absurd rfl hne, fun _ => hsingle⟩
  obtain ⟨fuel, hreturns⟩ := discover_returns hwalk hmapped (fun hne => absurd rfl hne) hends
  refine ⟨fuel, fun w hbase => ?_⟩
  have hfinds := scanBars_finds hrounds hmapped fuel scannedBars hbase
  apply twp_mono ((hreturns w hbase).and_wp hfinds)
  rintro _ _ u ⟨-, l', hl', hu⟩
  rwa [hl'.unique (hchains.scans hsingle)] at hu

end

section
variable {base : Bar → IoPtr} {regs : Bar → ℤ → UInt32} {l : List (Bar × ℤ)}

/-- The search for projects returns, having recorded the elements of `l` in order. -/
def RecordsProjects (E : Environment ε) (dev : Entry) (regs : Bar → ℤ → UInt32) (l : List (Bar × ℤ))
    (w : World ε) : Prop :=
  ∃ fuel, (pciedevGetPrjinfo fuel dev).twp (driver E) w fun _ n u => n = l.length ∧
    (u.pciedevDevM dev).prjInfoList = projectRecords regs l ++ (w.pciedevDevM dev).prjInfoList

/-- The search for modules returns, having recorded the elements of `l` in order. -/
def RecordsModules (E : Environment ε) (dev : Entry) (regs : Bar → ℤ → UInt32) (l : List (Bar × ℤ))
    (w : World ε) : Prop :=
  ∃ fuel, (pciedevGetShapiModuleInfo fuel dev).twp (driver E) w fun _ n u => n = l.length ∧
    (u.pciedevDevM dev).moduleInfoList =
      (recordsOf regs 1 l).reverse ++ (w.pciedevDevM dev).moduleInfoList

variable (hregs : BoardRegisters E base regs) (hbase : (w.pciedevDevM dev).memmoryBase = base)
include hregs hbase

theorem recordsProjects_iff (hfirst : (w.pciedevDevM dev).brdInfoList.pciedevProjNext = 0)
    (hchains : BarChains (projectHeaders (fun i => base i ≠ none) regs) scannedBars l) :
    RecordsProjects E dev regs l w ↔
      (projectHeaders (fun i => base i ≠ none) regs).Single scannedBars := by
  have hzero : cInt (w.pciedevDevM dev).brdInfoList.pciedevProjNext = 0 := by rw [hfirst]; rfl
  constructor
  · rintro ⟨fuel, hrecords⟩
    have hreturns : Returns E (fun fuel => pciedevGetPrjinfo fuel dev) w :=
      ⟨fuel, twp_mono hrecords fun _ _ _ _ => trivial⟩
    exact ((pciedevGetPrjinfo_returnsIff hregs hbase fun hne =>
      absurd hzero hne).1.mp hreturns).scan hzero
  · intro hsingle
    obtain ⟨fuel, hscans⟩ := discover_scans (projects_walked hregs)
      (fillPrjInfo_rounds fun i hi => (hregs i hi).reads) (fun _ => Iff.rfl) hchains hsingle
    refine ⟨fuel, ?_⟩
    simp only [pciedevGetPrjinfo, perform_eq, call_bind, ret_bind, twp_store, twp_load, twp_bind,
      World.updateDev_self, hzero]
    apply twp_mono (hscans _ (by rw [World.updateDev_self, ← hbase]))
    intro _ _ u hu
    have hinfo := hu.info
    rw [addProjects_eq, World.updateDev_self] at hinfo
    constructor
    · have hcount := congrArg BoardInfo.startupPrjNum hinfo
      simpa [PciedevDev.info] using hcount
    · exact congrArg BoardInfo.prjInfoList hinfo

theorem recordsModules_iff (hfirst : (w.pciedevDevM dev).deviceInfoList.shapiFirstModuleAddress = 0)
    (hchains : BarChains (moduleHeaders (fun i => base i ≠ none) regs) scannedBars l) :
    RecordsModules E dev regs l w ↔
      (moduleHeaders (fun i => base i ≠ none) regs).Single scannedBars := by
  have hzero : cInt (w.pciedevDevM dev).deviceInfoList.shapiFirstModuleAddress = 0 := by
    rw [hfirst]; rfl
  constructor
  · rintro ⟨fuel, hrecords⟩
    have hreturns : Returns E (fun fuel => pciedevGetShapiModuleInfo fuel dev) w :=
      ⟨fuel, twp_mono hrecords fun _ _ _ _ => trivial⟩
    exact ((pciedevGetShapiModuleInfo_returnsIff hregs hbase fun hne => absurd hzero hne).1.mp
      hreturns).scan hzero
  · intro hsingle
    obtain ⟨fuel, hscans⟩ := discover_scans (modules_walked hregs)
      (fillShapiModuleInfo_rounds fun i hi => (hregs i hi).reads) (fun _ => Iff.rfl) hchains hsingle
    refine ⟨fuel, ?_⟩
    simp only [pciedevGetShapiModuleInfo, perform_eq, call_bind, ret_bind, twp_store, twp_load,
      twp_bind, World.updateDev_self, hzero]
    apply twp_mono (hscans _ (by rw [World.updateDev_self, ← hbase]))
    intro _ _ u hu
    have hinfo := hu.info
    rw [addModules_eq, World.updateDev_self] at hinfo
    constructor
    · have hcount := congrArg BoardInfo.shapiModuleNum hinfo
      simpa [PciedevDev.info] using hcount
    · exact congrArg BoardInfo.moduleInfoList hinfo

/-- Without a first offset in the header, both searches record the chains of the other BARs exactly
if no header at the start of a mapped one names a next header. -/
theorem bar_scan_records_iff :
    (∀ l, (w.pciedevDevM dev).brdInfoList.pciedevProjNext = 0 →
      BarChains (projectHeaders (fun i => base i ≠ none) regs) scannedBars l →
      (RecordsProjects E dev regs l w ↔
        (projectHeaders (fun i => base i ≠ none) regs).Single scannedBars)) ∧
    ∀ l, (w.pciedevDevM dev).deviceInfoList.shapiFirstModuleAddress = 0 →
      BarChains (moduleHeaders (fun i => base i ≠ none) regs) scannedBars l →
      (RecordsModules E dev regs l w ↔
        (moduleHeaders (fun i => base i ≠ none) regs).Single scannedBars) :=
  ⟨fun _ => recordsProjects_iff hregs hbase, fun _ => recordsModules_iff hregs hbase⟩

end

def twoBars : Bar → IoPtr := fun i => if i.val < 2 then some i.val else none

/-- BAR 0 starts with a SHAPI header without modules; BAR 1 answers with the given registers. -/
def barRegisters (bar1 : ℤ → UInt32) : Bar → ℤ → UInt32 := fun i off =>
  if i.val = 0 then (if off = 0 then 0x53480001 else 0) else bar1 off

def barAnswers (bar1 : ℤ → UInt32) : Answers Unit
  | .ioread _ a, _ => some (if a.base = some 0 then barRegisters bar1 0 a.off else bar1 a.off, ())
  | c, e => Outcome.answers {} c e

def barEnvironment (bar1 : ℤ → UInt32) : Environment Unit :=
  fun c e r e' => barAnswers bar1 c e = some (r, e')

def chainedModules : ℤ → UInt32 := fun off =>
  if off = 0 ∨ off = 0x40 then 0x534D0001 else if off = 0x04 then 0x40 else 0

def singleModule : ℤ → UInt32 := fun off => if off = 0 then 0x534D0001 else 0

theorem barEnvironment_registers (bar1 : ℤ → UInt32) :
    BoardRegisters (barEnvironment bar1) twoBars (barRegisters bar1) := by
  intro i hi
  constructor
  · intro c e
    cases c <;> exact ⟨_, _, rfl⟩
  · intro off e r e' h
    have hr := (Prod.mk.inj (Option.some.inj h)).1
    rw [← hr]
    unfold twoBars at hi ⊢
    unfold barRegisters
    split_ifs at hi ⊢ <;> simp_all
  · exact fun _ _ _ _ h => (Prod.mk.inj (Option.some.inj h)).1.symm

theorem twoBars_chains {bar1 : ℤ → UInt32} {offs : List ℤ} (hheader : IsModule bar1 0)
    (hvisits : Visits (IsModule bar1) (nextModule bar1) (cInt (nextModule bar1 0)) offs) :
    BarChains (moduleHeaders (fun i => twoBars i ≠ none) (barRegisters bar1)) scannedBars
      ((1, 0) :: offs.map fun off => (1, off)) := by
  have hunmapped (i : Bar) (hi : twoBars i = none) :
      ¬ ((moduleHeaders (fun i => twoBars i ≠ none) (barRegisters bar1)).mapped i ∧
        (moduleHeaders (fun i => twoBars i ≠ none) (barRegisters bar1)).isHeader i 0) :=
          fun h => h.1 hi
  have hothers :
      BarChains (moduleHeaders (fun i => twoBars i ≠ none) (barRegisters bar1)) [2, 3, 4, 5] [] :=
    .none (hunmapped 2 rfl)
      (.none (hunmapped 3 rfl) (.none (hunmapped 4 rfl) (.none (hunmapped 5 rfl) .nil)))
  have hmapped : twoBars 1 ≠ none := by decide
  have hfirst : (moduleHeaders (fun i => twoBars i ≠ none) (barRegisters bar1)).mapped 1 ∧
      (moduleHeaders (fun i => twoBars i ≠ none) (barRegisters bar1)).isHeader 1 0 :=
        ⟨hmapped, hheader⟩
  have hall := BarChains.chain hfirst hvisits hothers
  rw [List.append_nil] at hall
  exact hall

theorem second_module_never_reached : ∃ (tr : Trace) (w : World Unit),
    (pciedevGetBrdinfo 0).Run (driver (barEnvironment chainedModules))
      (.uniform { memmoryBase := twoBars })
      tr 2 w ∧
    (w.pciedevDevM 0).deviceInfoList.shapiFirstModuleAddress = 0 ∧
    BarChains (moduleHeaders (fun i => twoBars i ≠ none) (barRegisters chainedModules)) scannedBars
      [(1, 0), (1, 0x40)] ∧
    ¬ RecordsModules (barEnvironment chainedModules) 0 (barRegisters chainedModules) [(1, 0),
      (1, 0x40)] w := by
  obtain ⟨tr, w, hrun, hbase, hfirst⟩ : ∃ (tr : Trace) (w : World Unit),
      (pciedevGetBrdinfo 0).Run (driver (barEnvironment chainedModules))
        (.uniform { memmoryBase := twoBars }) tr 2 w ∧
      (w.pciedevDevM 0).memmoryBase = twoBars ∧
      (w.pciedevDevM 0).deviceInfoList.shapiFirstModuleAddress = 0 :=
    ⟨_, _, run_of_answers (barAnswers chainedModules) (fun _ _ _ _ h => h) rfl, rfl, rfl⟩
  have hnext : cInt (nextModule chainedModules 0) = 0x40 := by decide
  have hvisits : Visits (IsModule chainedModules) (nextModule chainedModules)
      (cInt (nextModule chainedModules 0)) [0x40] := by
    rw [hnext]
    exact .header (by decide) rfl .zero
  have hheader : IsModule chainedModules 0 := rfl
  have hmapped : twoBars 1 ≠ none := by decide
  have hchains := twoBars_chains hheader hvisits
  refine ⟨tr, w, hrun, hfirst, hchains, fun hrecords => ?_⟩
  have hsingle := (recordsModules_iff (barEnvironment_registers _) hbase hfirst hchains).mp hrecords
  have hlast : nextModule chainedModules 0 = 0 := hsingle 1 (by decide) hmapped hheader
  exact absurd hlast (by decide)

theorem bar_scan_records_iff_single : RecordsModules (barEnvironment singleModule) 0
    (barRegisters singleModule) [(1, 0)] (.uniform { memmoryBase := twoBars }) := by
  have hvisits : Visits (IsModule singleModule) (nextModule singleModule)
      (cInt (nextModule singleModule 0)) [] := .zero
  have hheader : IsModule singleModule 0 := rfl
  refine ((bar_scan_records_iff (barEnvironment_registers singleModule) rfl).2 _ rfl
    (twoBars_chains hheader hvisits)).mpr fun i hi _ _ => ?_
  simp only [scannedBars, List.mem_cons, List.not_mem_nil, or_false] at hi
  rcases hi with rfl | rfl | rfl | rfl | rfl <;> rfl

end Upciedev
