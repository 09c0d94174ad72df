import Upciedev.Discovery.DeviceInfo

/-!
# What the discovery of a board finds

The headers that the two searches meet on a board are fixed by its registers. What is known of
a board after its probe is therefore a function of its registers and of what was known in the
entry before.
-/
namespace Upciedev

open Foundations Program

variable {ε : Type} {E : Environment ε} {w u : World ε} {dev : Entry}

/-- The headers from an offset on, followed until an offset is zero or there is no header. -/
inductive Visits (isHeader : ℤ → Prop) (next : ℤ → UInt32) : ℤ → List ℤ → Prop
  | zero : Visits isHeader next 0 []
  | stop {a : ℤ} (hne : a ≠ 0) (hother : ¬ isHeader a) : Visits isHeader next a []
  | header {a : ℤ} {l : List ℤ} (hne : a ≠ 0) (hheader : isHeader a)
      (hrest : Visits isHeader next (cInt (next a)) l) : Visits isHeader next a (a :: l)

theorem Visits.unique {isHeader : ℤ → Prop} {next : ℤ → UInt32} {a : ℤ} {l l' : List ℤ}
    (h : Visits isHeader next a l) (h' : Visits isHeader next a l') : l = l' := by
  induction h generalizing l' with
  | zero =>
    cases h' with
    | zero => rfl
    | stop hne => exact absurd rfl hne
    | header hne => exact absurd rfl hne
  | stop hne hother =>
    cases h' with
    | zero => exact absurd rfl hne
    | stop => rfl
    | header _ hheader => exact absurd hheader hother
  | header hne hheader _ ih =>
    cases h' with
    | zero => exact absurd rfl hne
    | stop _ hother => exact absurd hheader hother
    | header _ _ hrest => rw [ih hrest]

/-- The BARs of a list that start with a header. -/
inductive Scans (found : Bar → Prop) : List Bar → List (Bar × ℤ) → Prop
  | nil : Scans found [] []
  | header {i : Bar} {bars : List Bar} {l : List (Bar × ℤ)} (h : found i)
      (hrest : Scans found bars l) :
      Scans found (i :: bars) ((i, 0) :: l)
  | other {i : Bar} {bars : List Bar} {l : List (Bar × ℤ)} (h : ¬ found i)
      (hrest : Scans found bars l) :
      Scans found (i :: bars) l

theorem Scans.unique {found : Bar → Prop} {bars : List Bar} {l l' : List (Bar × ℤ)}
    (h : Scans found bars l) (h' : Scans found bars l') : l = l' := by
  induction h generalizing l' with
  | nil =>
    cases h'
    rfl
  | header hfound _ ih =>
    cases h' with
    | header _ hrest => rw [ih hrest]
    | other hother => exact absurd hfound hother
  | other hother _ ih =>
    cases h' with
    | header hfound => exact absurd hfound hother
    | other _ hrest => exact ih hrest

/-- The headers of one kind on a board: where they are, and the offset each names. -/
structure Headers where
  mapped : Bar → Prop
  isHeader : Bar → ℤ → Prop
  next : Bar → ℤ → UInt32

/-- What a search that starts at offset `a` of BAR 0 finds, in its order. -/
def Headers.Finds (h : Headers) (a : ℤ) (l : List (Bar × ℤ)) : Prop :=
  (a = 0 → Scans (fun i => h.mapped i ∧ h.isHeader i 0) scannedBars l) ∧
    (a ≠ 0 → ∃ offs, Visits (h.isHeader 0) (h.next 0) a offs ∧ l = offs.map fun off => (0, off))

theorem Headers.Finds.unique {h : Headers} {a : ℤ} {l l' : List (Bar × ℤ)} (hl : h.Finds a l)
    (hl' : h.Finds a l') : l = l' := by
  by_cases hzero : a = 0
  · exact (hl.1 hzero).unique (hl'.1 hzero)
  · obtain ⟨offs, hoffs, rfl⟩ := hl.2 hzero
    obtain ⟨offs', hoffs', rfl⟩ := hl'.2 hzero
    rw [hoffs.unique hoffs']

/-- What is known of a board after the given headers. -/
def addHeaders (add : Bar → ℤ → BoardInfo → BoardInfo) (l : List (Bar × ℤ))
    (v : BoardInfo) : BoardInfo :=
  l.foldl (fun v p => add p.1 p.2 v) v

section
variable {h : Headers} {base : Bar → IoPtr} {fill : IoAddr → Kernel ℤ}
  {add : Bar → ℤ → BoardInfo → BoardInfo}

/-- The effect on an entry, as far as the board is concerned. -/
structure Notes (dev : Entry) (base : Bar → IoPtr) (f : BoardInfo → BoardInfo)
    (w u : World ε) : Prop where
  info : (u.pciedevDevM dev).info = f (w.pciedevDevM dev).info
  memmoryBase : (u.pciedevDevM dev).memmoryBase = base

/-- One round of a search: a header is added, anything else ends the search. -/
structure Rounds (h : Headers) (E : Environment ε) (dev : Entry) (base : Bar → IoPtr)
    (fill : IoAddr → Kernel ℤ) (add : Bar → ℤ → BoardInfo → BoardInfo) : Prop where
  header (i : Bar) (off : ℤ) (hmapped : h.mapped i) (hheader : h.isHeader i off) (w : World ε)
    (hbase : (w.pciedevDevM dev).memmoryBase = base) : (fill ⟨base i, off⟩).wp (driver E) w
    fun _ r u => r = cInt (h.next i off) ∧ Notes dev base (add i off) w u
  other (i : Bar) (off : ℤ) (hmapped : h.mapped i) (hother : ¬ h.isHeader i off) (w : World ε)
    (hbase : (w.pciedevDevM dev).memmoryBase = base) : (fill ⟨base i, off⟩).wp (driver E) w
    fun _ r u => r = 0 ∧ Notes dev base id w u

variable (hfill : Rounds h E dev base fill add)
include hfill

theorem followChain_finds (hmapped : h.mapped 0) (fuel : ℕ) (a : ℤ)
    (hbase : (w.pciedevDevM dev).memmoryBase = base) :
    (followChain fill ⟨base 0, 0⟩ fuel a).wp (driver E) w fun _ _ u =>
      ∃ offs, Visits (h.isHeader 0) (h.next 0) a offs ∧
        Notes dev base (addHeaders add (offs.map fun off => (0, off))) w u := by
  induction fuel generalizing a w with
  | zero =>
    rw [followChain, wp_ite]
    refine ⟨fun hzero => ?_, fun _ => (wp_fault _).mpr trivial⟩
    subst hzero
    exact ⟨[], .zero, rfl, hbase⟩
  | succ fuel ih =>
    rw [followChain, wp_ite]
    refine ⟨fun hzero => ?_, fun hne => (wp_bind ..).mpr ?_⟩
    · subst hzero
      exact ⟨[], .zero, rfl, hbase⟩
    · have haddr : (⟨base 0, 0⟩ : IoAddr).add a = ⟨base 0, a⟩ := by simp [IoAddr.add]
      rw [haddr]
      by_cases hheader : h.isHeader 0 a
      · apply wp_mono (hfill.header 0 a hmapped hheader w hbase)
        intro _ r x hpost
        obtain ⟨hr, hx⟩ := hpost
        subst hr
        apply wp_mono (ih _ hx.memmoryBase)
        intro _ _ u hpost
        obtain ⟨offs, hoffs, hu⟩ := hpost
        refine ⟨a :: offs, .header hne hheader hoffs, hu.info.trans ?_, hu.memmoryBase⟩
        rw [hx.info]
        rfl
      · apply wp_mono (hfill.other 0 a hmapped hheader w hbase)
        intro _ r x hpost
        obtain ⟨hr, hx⟩ := hpost
        subst hr
        apply wp_mono (ih 0 hx.memmoryBase)
        intro _ _ u hpost
        obtain ⟨offs, hoffs, hu⟩ := hpost
        obtain rfl : offs = [] := hoffs.unique .zero
        exact ⟨[], .stop hne hheader, hu.info.trans hx.info, hu.memmoryBase⟩

theorem refillStart_endless {i : Bar} (hmapped : h.mapped i) (hheader : h.isHeader i 0)
    (hnext : h.next i 0 ≠ 0) (fuel : ℕ) {a : ℤ} (hne : a ≠ 0)
    (hbase : (w.pciedevDevM dev).memmoryBase = base) :
    (refillStart fill ⟨base i, 0⟩ fuel a).wp (driver E) w fun _ _ _ => False := by
  induction fuel generalizing a w with
  | zero =>
    rw [refillStart, if_neg hne]
    exact (wp_fault _).mpr trivial
  | succ fuel ih =>
    rw [refillStart, if_neg hne, wp_bind]
    apply wp_mono (hfill.header i 0 hmapped hheader w hbase)
    intro _ r x hpost
    obtain ⟨hr, hx⟩ := hpost
    subst hr
    exact ih (cInt_eq_zero.not.mpr hnext) hx.memmoryBase

theorem refillStart_finds {i : Bar} (hmapped : h.mapped i) (fuel : ℕ)
    (hbase : (w.pciedevDevM dev).memmoryBase = base) :
    (refillStart fill ⟨base i, 0⟩ fuel 1).wp (driver E) w fun _ _ u =>
      (h.isHeader i 0 → Notes dev base (add i 0) w u) ∧
        (¬ h.isHeader i 0 → Notes dev base id w u) := by
  have hstop (fuel : ℕ) (x : World ε) : (refillStart fill ⟨base i, 0⟩ fuel 0).wp (driver E) x
      fun _ _ u => u = x := by
    cases fuel <;> exact rfl
  cases fuel with
  | zero =>
    rw [refillStart, if_neg one_ne_zero]
    exact (wp_fault _).mpr trivial
  | succ fuel =>
    rw [refillStart, if_neg one_ne_zero, wp_bind]
    by_cases hheader : h.isHeader i 0
    · apply wp_mono (hfill.header i 0 hmapped hheader w hbase)
      intro _ r x hpost
      obtain ⟨hr, hx⟩ := hpost
      subst hr
      by_cases hnext : h.next i 0 = 0
      · rw [hnext]
        apply wp_mono (hstop fuel x)
        intro _ _ u hu
        subst hu
        exact ⟨fun _ => hx, fun hother => absurd hheader hother⟩
      · have hne : cInt (h.next i 0) ≠ 0 := cInt_eq_zero.not.mpr hnext
        apply wp_mono (refillStart_endless hfill hmapped hheader hnext fuel hne hx.memmoryBase)
        exact fun _ _ _ hfalse => hfalse.elim
    · apply wp_mono (hfill.other i 0 hmapped hheader w hbase)
      intro _ r x hpost
      obtain ⟨hr, hx⟩ := hpost
      subst hr
      apply wp_mono (hstop fuel x)
      intro _ _ u hu
      subst hu
      exact ⟨fun h => absurd h hheader, fun _ => hx⟩

theorem scanBars_finds (hmapped : ∀ i, h.mapped i ↔ base i ≠ none) (fuel : ℕ) (bars : List Bar)
    (hbase : (w.pciedevDevM dev).memmoryBase = base) :
    (scanBars fill dev fuel bars).wp (driver E) w fun _ _ u =>
      ∃ l, Scans (fun i => h.mapped i ∧ h.isHeader i 0) bars l ∧
        Notes dev base (addHeaders add l) w u := by
  induction bars generalizing w with
  | nil => exact ⟨[], .nil, rfl, hbase⟩
  | cons i bars ih =>
    simp only [scanBars, perform_eq, call_bind, ret_bind, wp_load, wp_ite, wp_bind, hbase]
    refine ⟨fun hnone => ?_, fun hsome => ?_⟩
    · apply wp_mono (ih hbase)
      intro _ _ u hpost
      obtain ⟨l, hl, hu⟩ := hpost
      refine ⟨l, .other ?_ hl, hu⟩
      exact fun hfound => (hmapped i).mp hfound.1 hnone
    · have hthis := (hmapped i).mpr hsome
      apply wp_mono (refillStart_finds hfill hthis fuel hbase)
      intro _ _ x hpost
      obtain ⟨hyes, hno⟩ := hpost
      by_cases hheader : h.isHeader i 0
      · have hx := hyes hheader
        apply wp_mono (ih hx.memmoryBase)
        intro _ _ u hpost
        obtain ⟨l, hl, hu⟩ := hpost
        refine ⟨(i, 0) :: l, .header ⟨hthis, hheader⟩ hl, hu.info.trans ?_, hu.memmoryBase⟩
        rw [hx.info]
        rfl
      · have hx := hno hheader
        apply wp_mono (ih hx.memmoryBase)
        intro _ _ u hpost
        obtain ⟨l, hl, hu⟩ := hpost
        exact ⟨l, .other (fun hfound => hheader hfound.2) hl,
          hu.info.trans (congrArg (addHeaders add l) hx.info), hu.memmoryBase⟩

theorem discover_finds (hmapped : ∀ i, h.mapped i ↔ base i ≠ none) (hzero : h.mapped 0) (fuel : ℕ)
    (a : ℤ) (hbase : (w.pciedevDevM dev).memmoryBase = base) :
    (discover fill dev fuel a).wp (driver E) w fun _ _ u =>
      ∃ l, h.Finds a l ∧ Notes dev base (addHeaders add l) w u := by
  rw [discover, wp_ite]
  refine ⟨fun ha => ?_, fun ha => ?_⟩
  · apply wp_mono (scanBars_finds hfill hmapped fuel _ hbase)
    intro _ _ u hpost
    obtain ⟨l, hl, hu⟩ := hpost
    exact ⟨l, ⟨fun _ => hl, fun hne => absurd ha hne⟩, hu⟩
  · simp only [perform_eq, call_bind, ret_bind, wp_load, hbase]
    apply wp_mono (followChain_finds hfill hzero fuel a hbase)
    intro _ _ u hpost
    obtain ⟨offs, hoffs, hu⟩ := hpost
    exact ⟨_, ⟨fun hz => absurd hz ha, fun _ => ⟨offs, hoffs, rfl⟩⟩, hu⟩

end

/-- What is known of a board and one more project of it. -/
def BoardInfo.addProject (regs : Bar → ℤ → UInt32) (i : Bar) (off : ℤ)
    (v : BoardInfo) : BoardInfo :=
  { v with
    startupPrjNum := v.startupPrjNum + 1
    brdInfoList := { v.brdInfoList with pciedevProjNext := 0 }
    prjInfoList := pciedevPrjAt (regs i) off :: v.prjInfoList }

/-- What is known of a board and one more module of it. -/
def BoardInfo.addModule (regs : Bar → ℤ → UInt32) (i : Bar) (off : ℤ) (v : BoardInfo) : BoardInfo :=
  { v with
    shapiModuleNum := v.shapiModuleNum + 1
    moduleInfoList := shapiModuleAt (regs i) off (v.shapiModuleNum + 1) :: v.moduleInfoList }

def projectHeaders (mapped : Bar → Prop) (regs : Bar → ℤ → UInt32) : Headers where
  mapped := mapped
  isHeader i := IsProject (regs i)
  next i := nextProject (regs i)

def moduleHeaders (mapped : Bar → Prop) (regs : Bar → ℤ → UInt32) : Headers where
  mapped := mapped
  isHeader i := IsModule (regs i)
  next i := nextModule (regs i)

section
variable {base : IoPtr} {regs : ℤ → UInt32} {off : ℤ} (hE : Reads E base regs)
include hE

theorem fillShapiModuleInfo_header (hheader : IsModule regs off) :
    (pciedevFillShapiModuleInfo dev ⟨base, off⟩).wp (driver E) w fun _ r u =>
      r = cInt (nextModule regs off) ∧
      (u.pciedevDevM dev).info = (w.pciedevDevM dev).info.addModule (fun _ => regs) 0 off ∧
      (u.pciedevDevM dev).memmoryBase = (w.pciedevDevM dev).memmoryBase := by
  have hmagic : regs off >>> 16 = shapiMagicModuleNum := hheader
  simp only [pciedevFillShapiModuleInfo, perform_eq, call_bind, ret_bind]
  apply hE.read
  intro _
  rw [if_pos hmagic, wp_store, wp_kernel]
  intro allocated _ _
  rw [wp_ite]
  refine ⟨fun _ => ?_, fun _ => (wp_fault _).mpr trivial⟩
  simp only [wp_load, readModuleInfo, perform_eq, call_bind, ret_bind]
  iterate 7 refine hE.read fun _ => ?_
  rw [wp_store]
  iterate 7 refine hE.read fun _ => ?_
  simp only [pure_eq, ret_bind, wp_store, wp_ret]
  refine ⟨rfl, ?_, ?_⟩
  · simp only [World.updateDev_self, World.withEnv_pciedevDevM]
    rfl
  · simp only [World.updateDev_self, World.withEnv_pciedevDevM]

theorem fillShapiModuleInfo_other (hother : ¬ IsModule regs off) :
    (pciedevFillShapiModuleInfo dev ⟨base, off⟩).wp (driver E) w fun _ r u =>
      r = 0 ∧ (u.pciedevDevM dev).info = (w.pciedevDevM dev).info ∧
      (u.pciedevDevM dev).memmoryBase = (w.pciedevDevM dev).memmoryBase := by
  have hmagic : regs off >>> 16 ≠ shapiMagicModuleNum := hother
  simp only [pciedevFillShapiModuleInfo, perform_eq, call_bind, ret_bind]
  apply hE.read
  intro _
  rw [if_neg hmagic]
  exact ⟨rfl, rfl, rfl⟩

end

section
variable {base : Bar → IoPtr} {mapped : Bar → Prop} {regs : Bar → ℤ → UInt32}
  (hregs : ∀ i, mapped i → Reads E (base i) (regs i))
include hregs

theorem fillPrjInfo_rounds : Rounds (projectHeaders mapped regs) E dev base (pciedevFillPrjInfo dev)
    (BoardInfo.addProject regs) where
  header i off hmapped hheader w hbase := by
    have hE := hregs i hmapped
    have hmagic : regs i off = asciiProjMagicNum := hheader
    simp only [pciedevFillPrjInfo, perform_eq, call_bind, ret_bind]
    apply hE.read
    intro _
    rw [if_pos hmagic, wp_store, wp_kernel]
    intro allocated _ _
    rw [wp_ite]
    refine ⟨fun _ => ?_, fun _ => (wp_fault _).mpr trivial⟩
    simp only [readPrjInfo, perform_eq, call_bind, ret_bind]
    iterate 5 refine hE.read fun _ => ?_
    simp only [pure_eq, ret_bind, wp_store, wp_ret]
    refine ⟨rfl, ?_, ?_⟩
    · simp only [World.updateDev_self, World.withEnv_pciedevDevM]
      rfl
    · simp only [World.updateDev_self, World.withEnv_pciedevDevM]
      exact hbase
  other i off hmapped hother w hbase := by
    have hmagic : regs i off ≠ asciiProjMagicNum := hother
    simp only [pciedevFillPrjInfo, perform_eq, call_bind, ret_bind]
    apply (hregs i hmapped).read
    intro _
    rw [if_neg hmagic]
    exact ⟨rfl, rfl, hbase⟩

theorem fillShapiModuleInfo_rounds : Rounds (moduleHeaders mapped regs) E dev base
    (pciedevFillShapiModuleInfo dev) (BoardInfo.addModule regs) where
  header i off hmapped hheader w hbase := by
    apply wp_mono (fillShapiModuleInfo_header (hregs i hmapped) hheader)
    intro _ r u hpost
    obtain ⟨hr, hinfo, hsame⟩ := hpost
    exact ⟨hr, hinfo, hsame.trans hbase⟩
  other i off hmapped hother w hbase := by
    apply wp_mono (fillShapiModuleInfo_other (hregs i hmapped) hother)
    intro _ r u hpost
    obtain ⟨hr, hinfo, hsame⟩ := hpost
    exact ⟨hr, hinfo, hsame.trans hbase⟩

end

/-- What is known of a board after its header was read. -/
def BoardInfo.withHeader (regs : ℤ → UInt32) (v : BoardInfo) : BoardKind → BoardInfo
  | .desy => { v with shapiModuleNum := 0, brdInfoList := brdInfoAt regs v.brdInfoList }
  | .shapi => { v with
      shapiModuleNum := if regs 0x04 ≠ 0 then 1 else 0
      deviceInfoList := deviceInfoAt regs v.deviceInfoList }
  | .unknown => { v with shapiModuleNum := 0 }

theorem withHeader_info (regs : ℤ → UInt32) (v : PciedevDev) (kind : BoardKind) :
    (v.withHeader regs kind).info = v.info.withHeader regs kind := by
  cases kind <;> rfl

theorem withHeader_memmoryBase (regs : ℤ → UInt32) (v : PciedevDev) (kind : BoardKind) :
    (v.withHeader regs kind).memmoryBase = v.memmoryBase := by
  cases kind <;> rfl

/-- What is known of a board of the given kind, with the headers found on it, after its probe. -/
def BoardInfo.probed (regs : Bar → ℤ → UInt32) (kind : BoardKind) (l : List (Bar × ℤ))
    (v : BoardInfo) :
    BoardInfo :=
  match kind with
  | .desy => addHeaders (addProject regs) l { v.withHeader (regs 0) .desy with startupPrjNum := 0 }
  | .shapi =>
      addHeaders (addModule regs) l { v.withHeader (regs 0) .shapi with shapiModuleNum := 0 }
  | .unknown => v.withHeader (regs 0) .unknown

def BoardFinds (mapped : Bar → Prop) (regs : Bar → ℤ → UInt32) (l : List (Bar × ℤ)) :
    BoardKind → Prop
  | .desy => (projectHeaders mapped regs).Finds (cInt (regs 0 0x18)) l
  | .shapi => (moduleHeaders mapped regs).Finds (cInt (regs 0 0x04)) l
  | .unknown => l = []

theorem BoardFinds.unique {mapped : Bar → Prop} {regs : Bar → ℤ → UInt32} {kind : BoardKind}
    {l l' : List (Bar × ℤ)} (h : BoardFinds mapped regs l kind)
    (h' : BoardFinds mapped regs l' kind) :
    l = l' := by
  cases kind with
  | desy => exact Headers.Finds.unique h h'
  | shapi => exact Headers.Finds.unique h h'
  | unknown => exact h.trans h'.symm

theorem boardKind_mapped {base : IoPtr} {word : UInt32} (h : boardKind base word ≠ .unknown) :
    base ≠ none :=
  fun hnone => h (if_pos hnone)

theorem probeInfo_finds {base : Bar → IoPtr} {regs : Bar → ℤ → UInt32}
    (hregs : ∀ i, base i ≠ none → Reads E (base i) (regs i)) (fuel : ℕ)
    (hbase : (w.pciedevDevM dev).memmoryBase = base) :
    (probeInfo fuel dev).wp (driver E) w fun _ _ u => ∃ l,
      BoardFinds (fun i => base i ≠ none) regs l (boardKind (base 0) (regs 0 0)) ∧
      (u.pciedevDevM dev).info =
        (w.pciedevDevM dev).info.probed regs (boardKind (base 0) (regs 0 0)) l := by
  simp only [probeInfo, perform_eq, call_bind, ret_bind, wp_store, wp_bind]
  have hheader := pciedevGetBrdinfo_wp (w := w.updateDev dev fun v =>
    { v with enblIrqNum := 0, deviceIrqNum := 0 }) (hregs 0) (by rw [World.updateDev_self, ← hbase])
  apply wp_mono hheader
  intro _ tmpInfo u hpost
  obtain ⟨hcode, e, hu⟩ := hpost
  have hinfo : (u.pciedevDevM dev).info =
      (w.pciedevDevM dev).info.withHeader (regs 0) (boardKind (base 0) (regs 0 0)) := by
    rw [hu]
    simp only [World.withEnv_pciedevDevM, World.updateDev_self, withHeader_info]
    rfl
  have hbase' : (u.pciedevDevM dev).memmoryBase = base := by
    rw [hu]
    simp only [World.withEnv_pciedevDevM, World.updateDev_self, withHeader_memmoryBase]
    exact hbase
  cases hkind : boardKind (base 0) (regs 0 0) with
  | desy =>
    have hzero : base 0 ≠ none := boardKind_mapped (by rw [hkind]; decide)
    rw [hkind] at hcode hinfo
    subst hcode
    rw [if_pos (by rfl), wp_bind]
    simp only [pciedevGetPrjinfo, perform_eq, call_bind, ret_bind, wp_store, wp_load, wp_bind,
      World.updateDev_self]
    have hfirst : (u.pciedevDevM dev).brdInfoList.pciedevProjNext = regs 0 0x18 :=
      congrArg (fun i => i.brdInfoList.pciedevProjNext) hinfo
    rw [hfirst]
    refine wp_mono (discover_finds (fillPrjInfo_rounds hregs)
      (fun _ => Iff.rfl) hzero fuel _ ?_) fun _ _ x hpost => ?_
    · rw [World.updateDev_self]
      exact hbase'
    · obtain ⟨l, hl, hx⟩ := hpost
      refine ⟨l, hl, hx.info.trans ?_⟩
      rw [World.updateDev_self, BoardInfo.probed, ← hinfo]
      rfl
  | shapi =>
    have hzero : base 0 ≠ none := boardKind_mapped (by rw [hkind]; decide)
    rw [hkind] at hcode hinfo
    subst hcode
    rw [if_neg (by decide), if_pos (by rfl), wp_bind]
    simp only [pciedevGetShapiModuleInfo, perform_eq, call_bind, ret_bind, wp_store, wp_load,
      wp_bind, World.updateDev_self]
    have hfirst : (u.pciedevDevM dev).deviceInfoList.shapiFirstModuleAddress = regs 0 0x04 :=
      congrArg (fun i => i.deviceInfoList.shapiFirstModuleAddress) hinfo
    rw [hfirst]
    refine wp_mono (discover_finds (fillShapiModuleInfo_rounds hregs)
      (fun _ => Iff.rfl) hzero fuel _ ?_) fun _ _ x hpost => ?_
    · rw [World.updateDev_self]
      exact hbase'
    · obtain ⟨l, hl, hx⟩ := hpost
      refine ⟨l, hl, hx.info.trans ?_⟩
      rw [World.updateDev_self, BoardInfo.probed, ← hinfo]
      rfl
  | unknown =>
    rw [hkind] at hcode hinfo
    subst hcode
    rw [if_neg (by decide), if_neg (by decide)]
    exact ⟨[], rfl, hinfo⟩

section
variable (regs : Bar → ℤ → UInt32)

/-- The records of the projects found, newest first. -/
def projectRecords (l : List (Bar × ℤ)) : List PciedevPrjInfo :=
  (l.map fun p => pciedevPrjAt (regs p.1) p.2).reverse

theorem addProjects_eq (l : List (Bar × ℤ)) (v : BoardInfo) :
    addHeaders (BoardInfo.addProject regs) l v = { v with
      startupPrjNum := v.startupPrjNum + l.length
      brdInfoList := if l = [] then v.brdInfoList else { v.brdInfoList with pciedevProjNext := 0 }
      prjInfoList := projectRecords regs l ++ v.prjInfoList } := by
  induction l generalizing v with
  | nil => simp [addHeaders, projectRecords]
  | cons p l ih =>
    have hrest := ih (v.addProject regs p.1 p.2)
    have hcount : v.startupPrjNum + 1 + l.length = v.startupPrjNum + (l.length + 1) := by omega
    refine Eq.trans
      (b := addHeaders (BoardInfo.addProject regs) l (v.addProject regs p.1 p.2)) rfl ?_
    rw [hrest]
    simp only [BoardInfo.addProject, projectRecords, List.map_cons, List.reverse_cons,
      List.append_assoc, List.singleton_append, List.length_cons, Nat.cast_succ, hcount,
        reduceCtorEq, if_false]
    by_cases hl : l = []
    · rw [if_pos hl]
    · rw [if_neg hl]

/-- The records of the modules found, numbered from `k` on. -/
def recordsOf : ℤ → List (Bar × ℤ) → List ShapiModuleInfo
  | _, [] => []
  | k, p :: l => shapiModuleAt (regs p.1) p.2 k :: recordsOf (k + 1) l

theorem addModules_eq (l : List (Bar × ℤ)) (v : BoardInfo) :
    addHeaders (BoardInfo.addModule regs) l v = { v with
      shapiModuleNum := v.shapiModuleNum + l.length
      moduleInfoList :=
  (recordsOf regs (v.shapiModuleNum + 1) l).reverse ++ v.moduleInfoList } := by
  induction l generalizing v with
  | nil => simp [addHeaders, recordsOf]
  | cons p l ih =>
    have hrest := ih (v.addModule regs p.1 p.2)
    have hcount : v.shapiModuleNum + 1 + l.length = v.shapiModuleNum + (l.length + 1) := by omega
    apply Eq.trans (b := addHeaders (BoardInfo.addModule regs) l (v.addModule regs p.1 p.2)) rfl
    rw [hrest]
    simp only [BoardInfo.addModule, recordsOf, List.reverse_cons, List.append_assoc,
      List.length_cons, Nat.cast_succ, hcount]
    rfl

end

end Upciedev
