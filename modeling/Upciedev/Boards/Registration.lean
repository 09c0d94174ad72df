import Upciedev.Boards.BoardTable

/-!
# What a probe fills in

The BARs of a board as its probe finds them, in the entry and in the slot table, and the
fields that only the discovery of projects and modules touches.
-/
namespace Upciedev

open Foundations Program

variable {ε α : Type} {E : Environment ε} {w u : World ε}

def Keeps {β : Type} (π : PciedevDev → β) : Op → Prop
  | .store _ f => ∀ v, π (f v) = π v
  | _ => True

theorem keeps_step {β : Type} {π : PciedevDev → β} {op : Op} {r : op.Res} (hop : Keeps π op)
    (hstep : driver E op w r u) (d : Entry) : π (u.pciedevDevM d) = π (w.pciedevDevM d) := by
  rcases driver_pciedevDevM hstep with ⟨d', f, rfl, rfl⟩ | hsame
  · by_cases hd : d = d'
    · subst hd
      rw [World.updateDev_self]
      exact hop _
    · rw [World.updateDev_other _ hd]
  · rw [hsame]

theorem keeps_wp {β : Type} {π : PciedevDev → β} {p : Kernel α} (hp : p.Only (Keeps π)) :
    p.wp (driver E) w fun _ _ u => ∀ d, π (u.pciedevDevM d) = π (w.pciedevDevM d) := by
  refine hp.wp_inv (P := fun u : World ε => ∀ d, π (u.pciedevDevM d) = π (w.pciedevDevM d)) ?_
    fun _ => rfl
  intro op x r y hx hop hstep d
  exact (keeps_step hop hstep d).trans (hx d)

/-- What the discovery of a board finds out. -/
structure BoardInfo where
  brdInfoList : PciedevBrdInfo
  prjInfoList : List PciedevPrjInfo
  startupPrjNum : ℤ
  deviceInfoList : ShapiDeviceInfo
  moduleInfoList : List ShapiModuleInfo
  shapiModuleNum : ℤ

def PciedevDev.info (v : PciedevDev) : BoardInfo :=
  { brdInfoList := v.brdInfoList
    prjInfoList := v.prjInfoList
    startupPrjNum := v.startupPrjNum
    deviceInfoList := v.deviceInfoList
    moduleInfoList := v.moduleInfoList
    shapiModuleNum := v.shapiModuleNum }

section
variable (dev : PciDev) (b : Entry)

theorem probeNumbers_keeps (tmpParentNum : ℤ) :
    (probeNumbers dev b tmpParentNum).Only (Keeps PciedevDev.info) := by
  simp only [probeNumbers, perform_eq, call_bind, ret_bind, only_call]
  refine ⟨trivial, fun _ => ⟨trivial, fun _ => ⟨trivial, fun _ => ?_⟩⟩⟩
  refine Only.bind ?_ fun slot => by simp [Keeps, PciedevDev.info]
  simp [probeSlotNum, slotCapOf, Keeps]

theorem probeDmaMask_keeps : (probeDmaMask dev b).Only (Keeps PciedevDev.info) := by
  simp [probeDmaMask, probeDma32, setDma64mask, Keeps, PciedevDev.info]

theorem probeIdentity_keeps : (probeIdentity dev b).Only (Keeps PciedevDev.info) := by
  simp [probeIdentity, Keeps, PciedevDev.info]

theorem probeBaseTable_keeps (slot : ℕ) (busNumber devNumber : UInt32) :
    (probeBaseTable b slot busNumber devNumber).Only (Keeps PciedevDev.info) := by
  simp [probeBaseTable, Keeps]

theorem printBaseTable_steady (slots : List ℕ) : (printBaseTable b slots).Only Op.Steady := by
  induction slots with
  | nil => trivial
  | cons slot slots ih => simp [printBaseTable, Op.Steady, ih]

theorem probeInterrupts_keeps : (probeInterrupts dev b).Only (Keeps PciedevDev.info) := by
  have hmsi (msiNum : ℤ) (v : PciedevDev) : PciedevDev.info (if 0 ≤ msiNum then
      { v with msi := 1, irqFlag := v.irqFlag &&& ~~~irqfShared } else { v with msi := 0 }) =
      v.info := by
    split_ifs <;> rfl
  simp only [probeInterrupts, perform_eq, call_bind, ret_bind, only_call, only_ret, Keeps, hmsi]
  simp [PciedevDev.info]

theorem probeCreate_keeps (slot : ℕ) : (probeCreate b slot).Only (Keeps PciedevDev.info) := by
  refine Only.bind ?_ fun _ => ?_
  · simp [destroyStale, Keeps, PciedevDev.info]
  · simp [Keeps, PciedevDev.info]

end

def PciedevDev.barFields (v : PciedevDev) :
    (Bar → UInt32) × (Bar → UInt32) × (Bar → UInt32) × (Bar → IoPtr) :=
  (v.memBase, v.memBaseEnd, v.memBaseFlag, v.memmoryBase)

section
variable (dev : PciDev) (b : Entry)

theorem pciedevGetBrdinfo_keepsBars : (pciedevGetBrdinfo b).Only (Keeps PciedevDev.barFields) := by
  simp [pciedevGetBrdinfo, fillBrdInfo, fillDeviceInfo, fillFwName, readField, setBrdInfo,
    setDeviceInfo, Keeps, PciedevDev.barFields]

theorem pciedevFillPrjInfo_keepsBars (baradress : IoAddr) :
    (pciedevFillPrjInfo b baradress).Only (Keeps PciedevDev.barFields) := by
  simp [pciedevFillPrjInfo, readPrjInfo, setBrdInfo, fault, Keeps, PciedevDev.barFields]

theorem pciedevFillShapiModuleInfo_keepsBars (baradress : IoAddr) :
    (pciedevFillShapiModuleInfo b baradress).Only (Keeps PciedevDev.barFields) := by
  simp [pciedevFillShapiModuleInfo, readModuleInfo, fault, Keeps, PciedevDev.barFields]

theorem probeInfo_keepsBars (fuel : ℕ) : (probeInfo fuel b).Only (Keeps PciedevDev.barFields) :=
  (only_call _ _).mpr ⟨fun _ => rfl, fun _ =>
    discovery_only trivial trivial (fun _ => rfl) (fun _ => rfl) (pciedevGetBrdinfo_keepsBars b)
      (pciedevFillPrjInfo_keepsBars b) (pciedevFillShapiModuleInfo_keepsBars b) fuel⟩

theorem probeInterrupts_keepsBars : (probeInterrupts dev b).Only (Keeps PciedevDev.barFields) := by
  have hmsi (msiNum : ℤ) (v : PciedevDev) : PciedevDev.barFields (if 0 ≤ msiNum then
      { v with msi := 1, irqFlag := v.irqFlag &&& ~~~irqfShared } else { v with msi := 0 }) =
      v.barFields := by
    split_ifs <;> rfl
  simp only [probeInterrupts, perform_eq, call_bind, ret_bind, only_call, only_ret, Keeps, hmsi]
  simp [PciedevDev.barFields]

theorem probeCreate_keepsBars (slot : ℕ) :
    (probeCreate b slot).Only (Keeps PciedevDev.barFields) := by
  refine Only.bind ?_ fun _ => ?_
  · simp [destroyStale, Keeps, PciedevDev.barFields]
  · simp [Keeps, PciedevDev.barFields]

end

/-- A resource of a PCI device as the kernel reports it. -/
structure BarResource where
  start : UInt64
  stop : UInt64
  flags : UInt64

/-- The probe takes a BAR for present when the low half of its start is not zero. -/
abbrev BarResource.Present (r : BarResource) : Prop := r.start.toUInt32 ≠ 0

/-- The device has the given resources, and their mappings are the given ones. -/
structure Bars (E : Environment ε) (dev : PciDev) (res : Bar → BarResource) (map : Bar → IoPtr) :
    Prop where
  start (i : Bar) (e : ε) (r : UInt64) (e' : ε) : E (.pciResourceStart dev i) e r e' →
    r = (res i).start
  stop (i : Bar) (e : ε) (r : UInt64) (e' : ε) : E (.pciResourceEnd dev i) e r e' → r = (res i).stop
  flags (i : Bar) (e : ε) (r : UInt64) (e' : ε) : E (.pciResourceFlags dev i) e r e' →
    r = (res i).flags
  iomap (i : Bar) (n : UInt32) (e : ε) (r : IoPtr) (e' : ε) :
    E (.pciIomap dev i n) e r e' → r = map i

def oneBar (i : Bar) : BarResource := if i.val = 0 then ⟨0x1000, 0x1fff, 0⟩ else ⟨0, 0, 0⟩

theorem Outcome.bars (o : Outcome) (dev : PciDev) :
    Bars o.environment dev oneBar fun _ => some 1 where
  start i e r e' h := by
    obtain ⟨rfl, _⟩ := Prod.mk.inj (Option.some.inj h)
    unfold oneBar
    split_ifs <;> rfl
  stop i e r e' h := by
    obtain ⟨rfl, _⟩ := Prod.mk.inj (Option.some.inj h)
    unfold oneBar
    split_ifs <;> rfl
  flags i e r e' h := by
    obtain ⟨rfl, _⟩ := Prod.mk.inj (Option.some.inj h)
    unfold oneBar
    split_ifs <;> rfl
  iomap i n e r e' h := (Prod.mk.inj (Option.some.inj h)).1.symm

def PciedevDev.mapBar (v : PciedevDev) (i : Bar) (r : BarResource) (p : IoPtr) : PciedevDev :=
  { v with
    memBase := Function.update v.memBase i r.start.toUInt32
    memBaseEnd := Function.update v.memBaseEnd i r.stop.toUInt32
    memBaseFlag := Function.update v.memBaseFlag i r.flags.toUInt32
    memmoryBase := Function.update v.memmoryBase i (if r.Present then p else none)
    rwOff := Function.update v.rwOff i
      (if r.Present then (r.stop.toUInt32 - r.start.toUInt32).toNat else 0)
    pciedevAllMems := if r.Present then v.pciedevAllMems + 2 ^ i.val else v.pciedevAllMems }

def UpciedevPhysAddress.enterBar (row : UpciedevPhysAddress) (i : Bar) (r : BarResource) :
    UpciedevPhysAddress :=
  if r.Present then
    { row with
      bars := Function.update row.bars i.val ⟨r.start.toUInt32, r.stop.toUInt32, r.flags.toUInt32⟩ }
  else row

section
variable {dev : PciDev} {b : Entry} {res : Bar → BarResource} {map : Bar → IoPtr}

theorem probeBar_wp (hE : Bars E dev res map) (slot : ℕ) (i : Bar) :
    (probeBar dev b slot i).wp (driver E) w fun _ _ u => ∃ e,
      u = ((w.updateDev b fun v => v.mapBar i (res i) (map i)).updateRow
        (w.pciedevDevM b).parentBaseDev slot fun row => row.enterBar i (res i)).withEnv e := by
  simp only [probeBar, perform_eq, call_bind, ret_bind, wp_kernel, wp_store, wp_ite]
  intro start _ hstart stop _ hstop flags e hflags
  obtain rfl := hE.start _ _ _ _ hstart
  obtain rfl := hE.stop _ _ _ _ hstop
  obtain rfl := hE.flags _ _ _ _ hflags
  refine ⟨fun hpresent => ?_, fun habsent => ?_⟩
  · intro p e' hp
    obtain rfl := hE.iomap _ _ _ _ _ hp
    simp only [wp_load, wp_setBaseBar, wp_ret]
    refine ⟨e', World.ext rfl rfl ?_ rfl rfl ?_ rfl⟩
    · simp [PciedevDev.mapBar, hpresent]
    · simp [UpciedevPhysAddress.enterBar, hpresent]
  · simp only [wp_ret]
    refine ⟨e, World.ext rfl rfl ?_ rfl rfl ?_ rfl⟩
    · simp [PciedevDev.mapBar, habsent]
    · simp [UpciedevPhysAddress.enterBar, habsent]

theorem foldl_mapBar_info (bars : List Bar) (v : PciedevDev) :
    (bars.foldl (fun v i => v.mapBar i (res i) (map i)) v).info = v.info := by
  induction bars generalizing v with
  | nil => rfl
  | cons i bars ih => exact ih _

theorem probeBars_wp (hE : Bars E dev res map) (slot : ℕ) (bars : List Bar) :
    (probeBars dev b slot bars).wp (driver E) w fun _ _ u => ∃ e,
      u = ((w.updateDev b fun v => bars.foldl (fun v i => v.mapBar i (res i) (map i)) v).updateRow
        (w.pciedevDevM b).parentBaseDev slot fun row =>
          bars.foldl (fun row i => row.enterBar i (res i)) row).withEnv e := by
  induction bars generalizing w with
  | nil =>
    refine ⟨w.env, ?_⟩
    simp [World.updateDev, World.updateRow]
  | cons i bars ih =>
    simp only [probeBars, wp_bind]
    apply wp_mono (probeBar_wp hE slot i)
    intro _ _ u hpost
    obtain ⟨e, hu⟩ := hpost
    subst hu
    apply wp_mono ih
    intro _ _ u hpost
    obtain ⟨e', hu⟩ := hpost
    refine ⟨e', ?_⟩
    rw [hu]
    refine World.ext rfl rfl ?_ rfl rfl ?_ rfl
    · simp
    · simp [PciedevDev.mapBar]

variable (res map) in
theorem foldl_mapBar_fields (bars : List Bar) (v : PciedevDev) (j : Bar) :
    let v' := bars.foldl (fun v i => v.mapBar i (res i) (map i)) v
    v'.memBase j = (if j ∈ bars then (res j).start.toUInt32 else v.memBase j) ∧
      v'.memBaseEnd j = (if j ∈ bars then (res j).stop.toUInt32 else v.memBaseEnd j) ∧
      v'.memBaseFlag j = (if j ∈ bars then (res j).flags.toUInt32 else v.memBaseFlag j) ∧
      v'.memmoryBase j =
        if j ∈ bars then (if (res j).Present then map j else none) else v.memmoryBase j := by
  induction bars generalizing v with
  | nil => simp
  | cons i bars ih =>
    have hrest := ih (v.mapBar i (res i) (map i))
    by_cases hj : j ∈ bars
    · simpa [hj] using hrest
    · by_cases hi : j = i
      · subst hi
        simpa [hj, PciedevDev.mapBar] using hrest
      · simpa [hj, hi, PciedevDev.mapBar] using hrest

/-- The entry once all BARs are filled in. -/
structure BarsFilled (res : Bar → BarResource) (map : Bar → IoPtr) (v : PciedevDev) : Prop where
  memBase i : v.memBase i = (res i).start.toUInt32
  memBaseEnd i : v.memBaseEnd i = (res i).stop.toUInt32
  memBaseFlag i : v.memBaseFlag i = (res i).flags.toUInt32
  memmoryBase i : v.memmoryBase i = if (res i).Present then map i else none

theorem BarsFilled.congr {v v' : PciedevDev} (h : BarsFilled res map v)
    (hsame : v'.barFields = v.barFields) : BarsFilled res map v' := by
  simp only [PciedevDev.barFields, Prod.mk.injEq] at hsame
  obtain ⟨hbase, hend, hflag, hmemmory⟩ := hsame
  constructor
  · exact fun i => hbase ▸ h.memBase i
  · exact fun i => hend ▸ h.memBaseEnd i
  · exact fun i => hflag ▸ h.memBaseFlag i
  · exact fun i => hmemmory ▸ h.memmoryBase i

theorem foldl_mapBar_filled (v : PciedevDev) : BarsFilled res map
    ((List.finRange numberOfBars).foldl (fun v i => v.mapBar i (res i) (map i)) v) := by
  have hfields (j : Bar) := foldl_mapBar_fields res map (List.finRange numberOfBars) v j
  simp only [List.mem_finRange, if_true] at hfields
  constructor
  · exact fun j => (hfields j).1
  · exact fun j => (hfields j).2.1
  · exact fun j => (hfields j).2.2.1
  · exact fun j => (hfields j).2.2.2

end

theorem pciedevProbeExp_entry {Q : Entry → ℤ → World ε → Prop} (fuel : ℕ) (dev : PciDev)
    (tmpParentNum : ℤ)
    (hentry : ∀ b, b ≠ nullEntry → (w.pciedevDevM b).binded = 0 →
      (probeEntry fuel dev b tmpParentNum).wp (driver E) w fun _ err u => Q b err u) :
    (pciedevProbeExp fuel dev tmpParentNum).wp (driver E) w fun _ r u =>
      (r = (-1, 0) ∧ u = w) ∨ ∃ b, b ≠ nullEntry ∧ r.2 = b.val ∧ Q b r.1 u := by
  rw [pciedevProbeExp, wp_bind]
  apply wp_mono (findUnbound_wp _)
  intro tr mBrdNum u hpost
  obtain ⟨hu, _, hnum⟩ := hpost
  subst hu
  cases hfind : (List.finRange (pciedevNrDevs + 1)).find? fun d => (u.pciedevDevM d).binded = 0 with
  | none =>
    rw [hfind] at hnum
    subst hnum
    exact (wp_fault _).mpr trivial
  | some b =>
    rw [hfind] at hnum
    have hval : mBrdNum = b.val := hnum
    by_cases hnull : mBrdNum = pciedevNrDevs
    · rw [if_pos hnull]
      exact .inl ⟨rfl, rfl⟩
    · have hlt : mBrdNum < pciedevNrDevs + 1 := hval ▸ b.isLt
      have hb : (⟨mBrdNum, hlt⟩ : Entry) = b := Fin.ext hval
      have hne : b ≠ nullEntry := fun h => hnull (hval.trans (congrArg Fin.val h))
      have hfree : (u.pciedevDevM b).binded = 0 := by simpa using List.find?_some hfind
      rw [if_neg hnull, dif_pos hlt, hb, wp_bind]
      apply wp_mono (hentry b hne hfree)
      intro _ err u' hQ
      exact .inr ⟨b, hne, hval, hQ⟩

/-- The discovery is the only stage of a probe that changes what is known of the board; it finds the
BARs filled in, and they stay so. -/
theorem probeEntry_filled_wp {dev : PciDev} {b : Entry} {res : Bar → BarResource}
    {map : Bar → IoPtr} (hE : Bars E dev res map) {R : BoardInfo → Prop} (fuel : ℕ)
    (tmpParentNum : ℤ)
    (hinfo : ∀ x : World ε, (x.pciedevDevM b).info = (w.pciedevDevM b).info →
      BarsFilled res map (x.pciedevDevM b) →
      (probeInfo fuel b).wp (driver E) x fun _ _ y => R (y.pciedevDevM b).info) :
    (probeEntry fuel dev b tmpParentNum).wp (driver E) w fun _ err u =>
      err = 0 → R (u.pciedevDevM b).info ∧ BarsFilled res map (u.pciedevDevM b) := by
  simp only [probeEntry, perform_eq, call_bind, ret_bind, wp_store, wp_kernel, wp_ite]
  intro enabled e _
  refine ⟨fun hne h => absurd h hne, fun _ claimed e' _ => ⟨fun hne => ?_, fun _ => ?_⟩⟩
  · exact (wp_bind ..).mpr (wp_of_forall fun _ _ _ h => absurd h hne)
  · refine (wp_bind ..).mpr ((wp_bind ..).mpr ?_)
    apply wp_mono (keeps_wp (probeNumbers_keeps dev b tmpParentNum))
    intro _ numbers x hx
    simp only [perform_eq, call_bind, ret_bind, wp_setDrvdata, wp_bind, probeResources]
    apply wp_mono (keeps_wp (probeDmaMask_keeps dev b))
    intro _ _ x₁ h₁
    apply wp_mono (keeps_wp (probeIdentity_keeps dev b))
    intro _ _ x₂ h₂
    apply wp_mono (keeps_wp (probeBaseTable_keeps b _ _ _))
    intro _ _ x₃ h₃
    simp only [wp_store, wp_bind]
    apply wp_mono (probeBars_wp hE _ _)
    intro _ _ x₄ hpost
    obtain ⟨e₄, h₄⟩ := hpost
    apply wp_mono (wp_steady (printBaseTable_steady b _))
    intro _ _ x₅ hpost
    obtain ⟨e₅, h₅⟩ := hpost
    have hentry : x₅.pciedevDevM b = (List.finRange numberOfBars).foldl
        (fun v i => v.mapBar i (res i) (map i)) { x₃.pciedevDevM b with pciedevAllMems := 0 } := by
      rw [h₅, h₄]
      simp
    have hsame : (x₅.pciedevDevM b).info = (w.pciedevDevM b).info := by
      rw [hentry, foldl_mapBar_info]
      refine ((h₃ b).trans (h₂ b)).trans ((h₁ b).trans ((hx b).trans ?_))
      simp [PciedevDev.info]
    have hfilled : BarsFilled res map (x₅.pciedevDevM b) := hentry ▸ foldl_mapBar_filled _
    apply wp_mono (wp_and (hinfo x₅ hsame hfilled) (keeps_wp (probeInfo_keepsBars b fuel)))
    rintro _ _ x₆ ⟨h₆, hbars₆⟩
    refine wp_mono (wp_and (keeps_wp (probeInterrupts_keeps dev b))
      (keeps_wp (probeInterrupts_keepsBars dev b))) fun _ _ x₇ hpost => ?_
    obtain ⟨h₇, hbars₇⟩ := hpost
    refine wp_mono
      (wp_and (keeps_wp (probeCreate_keeps b _)) (keeps_wp (probeCreate_keepsBars b _))) ?_
    rintro _ _ x₈ ⟨h₈, hbars₈⟩ _
    refine ⟨?_, hfilled.congr ?_⟩
    · rwa [h₈ b, h₇ b]
    · rw [hbars₈ b, hbars₇ b, hbars₆ b]

theorem probe_barsFilled {dev : PciDev} {b : Entry} {res : Bar → BarResource} {map : Bar → IoPtr}
    (hbars : Bars E dev res map) {fuel : ℕ} {n : ℤ} {tr : Trace}
    (hprobe : (pciedevProbeExp fuel dev n).Run (driver E) w tr (0, b.val) u) :
    BarsFilled res map (u.pciedevDevM b) := by
  have hprobed := hprobe.of_wp (pciedevProbeExp_entry (Q := fun b' err u => err = 0 →
    BarsFilled res map (u.pciedevDevM b')) fuel dev n fun b' _ _ => ?_)
  · rcases hprobed with ⟨hr, _⟩ | ⟨b', _, hb', hQ⟩
    · have hfailed : (0 : ℤ) = -1 := congrArg Prod.fst hr
      exact absurd hfailed (by decide)
    · obtain rfl : b = b' := Fin.ext hb'
      exact hQ rfl
  · refine wp_mono (probeEntry_filled_wp hbars (R := fun _ => True) fuel n fun y _ _ => ?_) ?_
    · exact wp_of_forall fun _ _ _ => trivial
    · exact fun _ err y hy herr => (hy herr).2

end Upciedev
