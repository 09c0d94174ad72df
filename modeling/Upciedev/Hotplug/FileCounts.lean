import Upciedev.Hotplug.Orphans

/-!
# Counting open files

Runs of whole calls: files are opened and released, devices probed and removed. The counter of an
entry is the number of files that are open on it, and of those that removes have taken from it: a
remove counts the files it moves at the null device, and does not uncount them at its board.
-/
namespace Upciedev

open Foundations Program

variable {ε α : Type} {E : Environment ε} {w u : World ε}

/-- The open files whose `private_data` is entry `d`. -/
def filesOn (owner : File → Entry) (opened : Finset File) (d : Entry) : Finset File :=
  opened.filter fun filp => owner filp = d

/-- A client driver is loaded, files are opened and released, devices probed and removed, one call
after the other. `opened` are the files that are open, `taken` counts for each entry the files that
were open on it when its board was removed. -/
inductive FileRun (E : Environment ε) : World ε → Finset File → (Entry → ℕ) → Prop
  | load {w : World ε} (h : Loaded E w) : FileRun E w ∅ fun _ => 0
  | openFile {w u : World ε} {opened : Finset File} {taken : Entry → ℕ} {dev : Entry} {minor : ℤ}
      {filp : File} {tr : Trace} (h : FileRun E w opened taken) (hfilp : filp ∉ opened)
      (hrun : (pciedevOpenExp dev minor filp).Run (driver E) w tr 0 u) :
      FileRun E u (insert filp opened) taken
  | release {w u : World ε} {opened : Finset File} {taken : Entry → ℕ} {filp : File} {tr : Trace}
      {result : ℤ} (h : FileRun E w opened taken) (hfilp : filp ∈ opened)
      (hrun : (pciedevReleaseExp filp).Run (driver E) w tr result u) :
      FileRun E u (opened.erase filp) taken
  | probe {w u : World ε} {opened : Finset File} {taken : Entry → ℕ} {fuel : ℕ} {dev : PciDev}
      {tmpParentNum : ℤ} {tr : Trace} {r : ℤ × ℕ} (h : FileRun E w opened taken)
      (hrun : (pciedevProbeExp fuel dev tmpParentNum).Run (driver E) w tr r u) :
      FileRun E u opened taken
  | remove {w u : World ε} {opened : Finset File} {taken : Entry → ℕ} {fuel : ℕ} {dev : PciDev}
      {d : Entry} {tr : Trace} {result : ℤ} (h : FileRun E w opened taken)
      (hd : w.drvdata dev = some d)
      (hrun : (pciedevRemoveExp fuel dev).Run (driver E) w tr result u) :
      FileRun E u opened (Function.update taken d (taken d + (filesOn w.privateData opened d).card))
  | removeUnbound {w u : World ε} {opened : Finset File} {taken : Entry → ℕ} {fuel : ℕ}
      {dev : PciDev}
      {tr : Trace} {result : ℤ} (h : FileRun E w opened taken) (hd : w.drvdata dev = none)
      (hrun : (pciedevRemoveExp fuel dev).Run (driver E) w tr result u) : FileRun E u opened taken

def PciedevDev.opened (v : PciedevDev) (minor : ℤ) (filp : File) : PciedevDev :=
  { v with
    devMinor := minor, devFileRef := v.devFileRef + 1
    devFileList := ⟨filp, v.devFileRef + 1⟩ :: v.devFileList }

def PciedevDev.released (v : PciedevDev) (filp : File) : PciedevDev :=
  { v with
    devFileRef := v.devFileRef - 1
    devFileList := v.devFileList.filter fun n => n.filp ≠ filp }

theorem pciedevOpenExp_wp (dev : Entry) (minor : ℤ) (filp : File) :
    (pciedevOpenExp dev minor filp).wp (driver E) w fun _ _ u => ∃ e,
      u = (((w.updateDev dev (·.opened minor filp)).setPrivateData filp dev).setFPos filp
        pciedFpos).withEnv e := by
  simp only [pciedevOpenExp, perform_eq, call_bind, ret_bind, wp_store, wp_enterCritRegion, ne_eq,
    not_true_eq_false, if_false, wp_setPrivateData, wp_setFPos, wp_kernel]
  intro allocated e _
  cases allocated with
  | false => exact (wp_fault _).mpr trivial
  | true =>
    simp only [if_true, wp_load, wp_store, wp_leaveCritRegion, pure_eq, wp_ret]
    refine ⟨e, World.ext rfl rfl ?_ rfl rfl rfl rfl⟩
    simp [PciedevDev.opened]

theorem pciedevReleaseExp_wp (filp : File) :
    (pciedevReleaseExp filp).wp (driver E) w fun _ _ u =>
      u = w.updateDev (w.privateData filp) (·.released filp) := by
  simp only [pciedevReleaseExp, perform_eq, call_bind, ret_bind, wp_privateData, wp_enterCritRegion,
    ne_eq, not_true_eq_false, if_false, wp_store, wp_leaveCritRegion, pure_eq, wp_ret,
      World.updateDev_updateDev]
  rfl

theorem pciedevRemoveExp_unbound (fuel : ℕ) {dev : PciDev} (hd : w.drvdata dev = none) :
    (pciedevRemoveExp fuel dev).wp (driver E) w fun _ _ u => u = w := by
  simp only [pciedevRemoveExp, perform_eq, call_bind, ret_bind, wp_drvdata, hd, pure_eq, wp_ret]

/-- Operations that leave the files of all entries alone. -/
def KeepsFiles : Op → Prop
  | .store _ f => ∀ v, (f v).devFileRef = v.devFileRef ∧ (f v).devFileList = v.devFileList
  | .setPrivateData _ _ => False
  | _ => True

/-- Nothing was opened, released or moved. -/
structure SameFiles (w u : World ε) : Prop where
  privateData : u.privateData = w.privateData
  devFileRef d : (u.pciedevDevM d).devFileRef = (w.pciedevDevM d).devFileRef
  devFileList d : (u.pciedevDevM d).devFileList = (w.pciedevDevM d).devFileList

theorem keepsFiles_step {op : Op} {r : op.Res} (hop : KeepsFiles op) (hstep : driver E op w r u) :
    SameFiles w u := by
  have hentry (d : Entry) : (u.pciedevDevM d).devFileRef = (w.pciedevDevM d).devFileRef ∧
      (u.pciedevDevM d).devFileList = (w.pciedevDevM d).devFileList := by
    rcases driver_pciedevDevM hstep with ⟨d', f, rfl, rfl⟩ | hsame
    · by_cases hd : d = d'
      · subst hd
        rw [World.updateDev_self]
        exact hop _
      · rw [World.updateDev_other _ hd]
        exact ⟨rfl, rfl⟩
    · rw [hsame]
      exact ⟨rfl, rfl⟩
  refine ⟨?_, fun d => (hentry d).1, fun d => (hentry d).2⟩
  rcases driver_privateData hstep with ⟨filp, d, rfl, -⟩ | ⟨-, hsame⟩
  · exact hop.elim
  · exact hsame

theorem keepsFiles_wp {p : Kernel α} (hp : p.Only KeepsFiles) :
    p.wp (driver E) w fun _ _ u => SameFiles w u := by
  refine hp.wp_inv (P := fun u => SameFiles w u) ?_ ⟨rfl, fun _ => rfl, fun _ => rfl⟩
  intro op x r y hx hop hstep
  have hy := keepsFiles_step hop hstep
  constructor
  · exact hy.privateData.trans hx.privateData
  · exact fun d => (hy.devFileRef d).trans (hx.devFileRef d)
  · exact fun d => (hy.devFileList d).trans (hx.devFileList d)

section
variable (dev : PciDev) (b : Entry)

theorem findUnbound_keepsFiles (ds : List Entry) : (findUnbound ds).Only KeepsFiles := by
  induction ds with
  | nil => trivial
  | cons d ds ih => simp [findUnbound, KeepsFiles, ih]

theorem probeBars_keepsFiles (slot : ℕ) (bars : List Bar) :
    (probeBars dev b slot bars).Only KeepsFiles := by
  induction bars with
  | nil => trivial
  | cons i bars ih =>
    refine Only.bind ?_ fun _ => ih
    simp [probeBar, KeepsFiles]

theorem printBaseTable_keepsFiles (slots : List ℕ) : (printBaseTable b slots).Only KeepsFiles := by
  induction slots with
  | nil => trivial
  | cons slot slots ih => simp [printBaseTable, KeepsFiles, ih]

theorem probeInfo_keepsFiles (fuel : ℕ) : (probeInfo fuel b).Only KeepsFiles := by
  have hbrdinfo : (pciedevGetBrdinfo b).Only KeepsFiles := by
    simp [pciedevGetBrdinfo, fillBrdInfo, fillDeviceInfo, fillFwName, readField, setBrdInfo,
      setDeviceInfo, KeepsFiles]
  have hfillPrj (a : IoAddr) : (pciedevFillPrjInfo b a).Only KeepsFiles := by
    simp [pciedevFillPrjInfo, readPrjInfo, setBrdInfo, fault, KeepsFiles]
  have hfillModule (a : IoAddr) : (pciedevFillShapiModuleInfo b a).Only KeepsFiles := by
    simp [pciedevFillShapiModuleInfo, readModuleInfo, fault, KeepsFiles]
  exact (only_call _ _).mpr ⟨fun _ => ⟨rfl, rfl⟩, fun _ =>
    discovery_only trivial trivial (fun _ => ⟨rfl, rfl⟩) (fun _ => ⟨rfl, rfl⟩) hbrdinfo hfillPrj
      hfillModule fuel⟩

theorem probeInterrupts_keepsFiles : (probeInterrupts dev b).Only KeepsFiles := by
  have hmsi (msiNum : ℤ) : KeepsFiles (.store b fun v =>
      if 0 ≤ msiNum then { v with msi := 1, irqFlag := v.irqFlag &&& ~~~irqfShared }
      else { v with msi := 0 }) := by
    intro v
    split_ifs <;> exact ⟨rfl, rfl⟩
  simp only [probeInterrupts, perform_eq, call_bind, ret_bind, only_call, only_ret, hmsi]
  simp [KeepsFiles]

theorem probeResources_keepsFiles (fuel slot : ℕ) (busNumber devNumber : UInt32) :
    (probeResources fuel dev b slot busNumber devNumber).Only KeepsFiles := by
  apply Only.bind (by simp [probeDmaMask, probeDma32, setDma64mask, KeepsFiles])
  intro _
  apply Only.bind (by simp [probeIdentity, KeepsFiles])
  intro _
  apply Only.bind (by simp [probeBaseTable, KeepsFiles])
  intro _
  refine (only_call _ _).mpr ⟨fun _ => ⟨rfl, rfl⟩, fun _ =>
    (probeBars_keepsFiles dev b _ _).bind fun _ => ?_⟩
  refine (printBaseTable_keepsFiles b _).bind fun _ => (probeInfo_keepsFiles b _).bind fun _ => ?_
  exact probeInterrupts_keepsFiles dev b

theorem probeEntry_keepsFiles (fuel : ℕ) (tmpParentNum : ℤ) :
    (probeEntry fuel dev b tmpParentNum).Only KeepsFiles := by
  have hnumbers : (probeNumbers dev b tmpParentNum).Only KeepsFiles := by
    simp only [probeNumbers, perform_eq, call_bind, ret_bind, only_call]
    refine ⟨trivial, fun _ => ⟨trivial, fun _ => ⟨trivial, fun _ => ?_⟩⟩⟩
    refine Only.bind ?_ fun slot => by simp [KeepsFiles]
    simp [probeSlotNum, slotCapOf, KeepsFiles]
  have hcreate (slot : ℕ) : (probeCreate b slot).Only KeepsFiles := by
    apply Only.bind (by simp [destroyStale, KeepsFiles])
    intro _
    simp [KeepsFiles]
  simp only [probeEntry, perform_eq, call_bind, ret_bind, only_call, only_ite]
  refine ⟨fun _ => ⟨rfl, rfl⟩, fun _ =>
    ⟨trivial, fun _ => ⟨fun _ => trivial, fun _ => ⟨trivial, fun _ => ?_⟩⟩⟩⟩
  refine ⟨fun _ => Only.bind (by simp [probeRegionsFailed, KeepsFiles]) fun _ =>
    trivial, fun _ => ?_⟩
  refine Only.bind (hnumbers.bind fun numbers => (only_call _ _).mpr ⟨trivial, fun _ => ?_⟩)
    fun _ => trivial
  exact (probeResources_keepsFiles dev b fuel _ _ _).bind fun _ => hcreate _

theorem pciedevProbeExp_keepsFiles (fuel : ℕ) (tmpParentNum : ℤ) :
    (pciedevProbeExp fuel dev tmpParentNum).Only KeepsFiles := by
  apply (findUnbound_keepsFiles _).bind
  intro mBrdNum
  split_ifs
  · trivial
  · exact (probeEntry_keepsFiles dev _ fuel tmpParentNum).bind fun _ => trivial
  · simp [fault, KeepsFiles]

end

section
variable {owner : File → Entry} {opened : Finset File} {filp : File}

theorem filesOn_open (hfilp : filp ∉ opened) (e d : Entry) :
    filesOn (Function.update owner filp e) (insert filp opened) d =
      if d = e then insert filp (filesOn owner opened d) else filesOn owner opened d := by
  have hsame : filesOn (Function.update owner filp e) opened d = filesOn owner opened d := by
    apply Finset.filter_congr
    intro f hf
    have hne : f ≠ filp := by
      rintro rfl
      exact hfilp hf
    rw [Function.update_of_ne hne]
  rw [filesOn, Finset.filter_insert, Function.update_self, ← filesOn, hsame]
  by_cases hd : d = e
  · simp [hd]
  · simp [hd, Ne.symm hd]

theorem card_filesOn_open (hfilp : filp ∉ opened) (e d : Entry) :
    (filesOn (Function.update owner filp e) (insert filp opened) d).card =
      (filesOn owner opened d).card + if d = e then 1 else 0 := by
  rw [filesOn_open hfilp]
  split_ifs
  · exact Finset.card_insert_of_notMem fun h => hfilp (Finset.mem_filter.mp h).1
  · rfl

theorem filesOn_erase (d : Entry) :
    filesOn owner (opened.erase filp) d = (filesOn owner opened d).erase filp :=
  Finset.filter_erase ..

theorem card_filesOn_erase (hfilp : filp ∈ opened) (d : Entry) :
    ((filesOn owner (opened.erase filp) d).card : ℤ) =
      (filesOn owner opened d).card - if d = owner filp then 1 else 0 := by
  rw [filesOn_erase]
  by_cases hd : d = owner filp
  · have hmem : filp ∈ filesOn owner opened d := Finset.mem_filter.mpr ⟨hfilp, hd.symm⟩
    have hcard := Finset.card_erase_add_one hmem
    rw [if_pos hd]
    omega
  · have hmem : filp ∉ filesOn owner opened d := fun h => hd (Finset.mem_filter.mp h).2.symm
    rw [if_neg hd, Finset.erase_eq_of_notMem hmem, sub_zero]

end

/-- The list of a board holds the files open on it, each once. -/
def Lists (nodes : List UpciedevFileList) (files : Finset File) : Prop :=
  (nodes.map (·.filp)).Nodup ∧ ∀ filp, filp ∈ nodes.map (·.filp) ↔ filp ∈ files

theorem Lists.length {nodes : List UpciedevFileList} {files : Finset File} (h : Lists nodes files) :
    nodes.length = files.card := by
  have hset : (nodes.map (·.filp)).toFinset = files := by
    ext filp
    rw [List.mem_toFinset]
    exact h.2 filp
  rw [← hset, List.toFinset_card_of_nodup h.1, List.length_map]

/-- The counters, and the lists they go with. -/
structure OpenCounts (w : World ε) (opened : Finset File) (taken : Entry → ℕ) : Prop where
  null : NullInv w
  lists d : d ≠ nullEntry → Lists (w.pciedevDevM d).devFileList (filesOn w.privateData opened d)
  count d : (w.pciedevDevM d).devFileRef = (filesOn w.privateData opened d).card + taken d

section
variable {opened : Finset File} {taken : Entry → ℕ} {filp : File}

theorem OpenCounts.load (h : Loaded E w) : OpenCounts w ∅ fun _ => 0 := by
  have htable (d : Entry) : w.pciedevDevM d = initEntry d (newEntry w.cdev d) := by
    obtain ⟨w₀, tr, hrun⟩ := h.setUp
    exact (hrun.of_wp upciedevInitModuleExp_wp rfl).2 d
  constructor
  · exact h.nullInv
  · intro d _
    rw [htable d]
    simp [Lists, initEntry, filesOn]
  · intro d
    rw [htable d]
    simp [initEntry, newEntry, filesOn]

theorem OpenCounts.openFile (h : OpenCounts w opened taken) (hfilp : filp ∉ opened) {dev : Entry}
    {minor : ℤ} (hnull : NullInv u) {e : ε}
    (hu : u = (((w.updateDev dev (·.opened minor filp)).setPrivateData
      filp dev).setFPos filp pciedFpos).withEnv e) : OpenCounts u (insert filp opened) taken := by
  subst hu
  refine ⟨hnull, fun d hd => ?_, fun d => ?_⟩
  · have hlists := h.lists d hd
    change Lists (((w.updateDev dev (·.opened minor filp)).pciedevDevM d).devFileList)
      (filesOn (Function.update w.privateData filp dev) (insert filp opened) d)
    rw [filesOn_open hfilp]
    by_cases hdev : d = dev
    · subst hdev
      have hfresh : filp ∉ (w.pciedevDevM d).devFileList.map (·.filp) := fun hmem =>
        hfilp (Finset.mem_filter.mp ((hlists.2 filp).mp hmem)).1
      rw [World.updateDev_self, if_pos rfl]
      constructor
      · exact List.nodup_cons.mpr ⟨hfresh, hlists.1⟩
      · intro f
        rw [Finset.mem_insert, ← hlists.2 f]
        exact List.mem_cons
    · rw [World.updateDev_other _ hdev, if_neg hdev]
      exact hlists
  · have hcount := h.count d
    change (((w.updateDev dev (·.opened minor filp)).pciedevDevM d).devFileRef) =
      (filesOn (Function.update w.privateData filp dev) (insert filp opened) d).card + (taken d : ℤ)
    rw [card_filesOn_open hfilp]
    by_cases hdev : d = dev
    · subst hdev
      rw [World.updateDev_self, if_pos rfl]
      simp only [PciedevDev.opened, hcount]
      push_cast
      ring
    · rw [World.updateDev_other _ hdev, if_neg hdev, hcount, add_zero]

theorem OpenCounts.release (h : OpenCounts w opened taken) (hfilp : filp ∈ opened)
    (hnull : NullInv u) (hu : u = w.updateDev (w.privateData filp) (·.released filp)) :
    OpenCounts u (opened.erase filp) taken := by
  subst hu
  refine ⟨hnull, fun d hd => ?_, fun d => ?_⟩
  · have hlists := h.lists d hd
    rw [World.updateDev_privateData, filesOn_erase]
    by_cases hdev : d = w.privateData filp
    · rw [hdev, World.updateDev_self, ← hdev]
      constructor
      · exact hlists.1.sublist (List.filter_sublist.map _)
      · intro f
        have hmem := hlists.2 f
        simp only [PciedevDev.released, List.mem_map, List.mem_filter, Finset.mem_erase, ← hmem]
        simp only [decide_eq_true_eq]
        constructor
        · rintro ⟨n, ⟨hn, hne⟩, rfl⟩
          exact ⟨hne, n, hn, rfl⟩
        · rintro ⟨hne, n, hn, rfl⟩
          exact ⟨n, ⟨hn, hne⟩, rfl⟩
    · have habsent : filp ∉ filesOn w.privateData opened d := fun hmem =>
        hdev (Finset.mem_filter.mp hmem).2.symm
      rw [World.updateDev_other _ hdev, Finset.erase_eq_of_notMem habsent]
      exact hlists
  · have hcount := h.count d
    rw [World.updateDev_privateData, card_filesOn_erase hfilp]
    by_cases hdev : d = w.privateData filp
    · rw [if_pos hdev, hdev, World.updateDev_self, ← hdev]
      simp only [PciedevDev.released, hcount]
      ring
    · rw [if_neg hdev, World.updateDev_other _ hdev, hcount, sub_zero]

theorem OpenCounts.same (h : OpenCounts w opened taken) (hnull : NullInv u) (hu : SameFiles w u) :
    OpenCounts u opened taken where
  null := hnull
  lists d hd := by
    rw [hu.devFileList, hu.privateData]
    exact h.lists d hd
  count d := by
    rw [hu.devFileRef, hu.privateData]
    exact h.count d

theorem filesOn_orphaned {owner : File → Entry} {nodes : List UpciedevFileList} {d : Entry}
    (hd : d ≠ nullEntry) (hlists : Lists nodes (filesOn owner opened d)) (d' : Entry) :
    filesOn (orphaned owner nodes) opened d' = if d' = d then ∅ else
      if d' = nullEntry then filesOn owner opened nullEntry ∪ filesOn owner opened d
      else filesOn owner opened d' := by
  have howner (f : File) (hf : f ∈ opened) : orphaned owner nodes f =
      if owner f = d then nullEntry else owner f := by
    have hmem : f ∈ nodes.map (·.filp) ↔ owner f = d :=
      (hlists.2 f).trans (Finset.mem_filter.trans (and_iff_right hf))
    unfold orphaned
    simp only [hmem]
  have hfilter : filesOn (orphaned owner nodes) opened d' =
      opened.filter fun f => (if owner f = d then nullEntry else owner f) = d' := by
    apply Finset.filter_congr
    intro f hf
    rw [howner f hf]
  rw [hfilter]
  ext f
  split_ifs with h₁ h₂
  · subst h₁
    simp only [Finset.mem_filter, Finset.notMem_empty, iff_false, not_and]
    intro _
    split_ifs with hf
    · exact Ne.symm hd
    · exact hf
  · subst h₂
    simp only [Finset.mem_filter, Finset.mem_union, filesOn, ← and_or_left]
    apply and_congr_right
    intro _
    split_ifs with hf
    · simp [hf]
    · simp [hf]
  · simp only [Finset.mem_filter, filesOn]
    apply and_congr_right
    intro _
    split_ifs with hf
    · rw [hf]
      exact iff_of_false (Ne.symm h₂) (Ne.symm h₁)
    · rfl

theorem OpenCounts.remove (h : OpenCounts w opened taken) {dev : PciDev} {d : Entry}
    (hdev : w.drvdata dev = some d) (hnull : NullInv u) (hu : Removed d w u) :
    OpenCounts u opened
      (Function.update taken d (taken d + (filesOn w.privateData opened d).card)) := by
  have hd : d ≠ nullEntry := by
    rintro rfl
    exact h.null.drvdata dev hdev
  have hlists := h.lists d hd
  have hentry (d' : Entry) : (u.pciedevDevM d').devFileList =
        (if d' = d then [] else (w.pciedevDevM d').devFileList) ∧
      (u.pciedevDevM d').devFileRef = (w.pciedevDevM d').devFileRef +
        if d' = nullEntry then ((filesOn w.privateData opened d).card : ℤ) else 0 := by
    rw [hu.pciedevDevM d', ← hlists.length]
    by_cases hd' : d' = d
    · subst hd'
      obtain ⟨_, _, _, _, _, hunmap⟩ :=
        foldl_unmap_fields { w.pciedevDevM d' with prjInfoList := [] }
        (List.finRange numberOfBars)
      rw [World.updateDev_self]
      simp [PciedevDev.orphan, PciedevDev.removed, PciedevDev.unlocked, hunmap, hd]
    · rw [World.updateDev_other _ hd']
      by_cases hn : d' = nullEntry
      · subst hn
        simp [PciedevDev.orphan, Ne.symm hd]
      · simp [PciedevDev.orphan, hd', hn]
  have hfiles := filesOn_orphaned hd hlists
  refine ⟨hnull, fun d' hd' => ?_, fun d' => ?_⟩
  · rw [(hentry d').1, hu.privateData, hfiles d', if_neg hd']
    split_ifs
    · exact ⟨List.nodup_nil, by simp⟩
    · exact h.lists d' hd'
  · have hcount := h.count d'
    rw [(hentry d').2, hu.privateData, hfiles d', hcount]
    by_cases hd' : d' = d
    · subst hd'
      rw [if_neg hd, if_pos rfl, Function.update_self, Finset.card_empty]
      push_cast
      ring
    · rw [Function.update_of_ne hd', if_neg hd']
      by_cases hn : d' = nullEntry
      · subst hn
        have hdisjoint :
            Disjoint (filesOn w.privateData opened nullEntry) (filesOn w.privateData opened d) := by
          rw [Finset.disjoint_left]
          intro f hf hf'
          exact hd' ((Finset.mem_filter.mp hf).2.symm.trans (Finset.mem_filter.mp hf').2)
        rw [if_pos rfl, if_pos rfl, Finset.card_union_of_disjoint hdisjoint]
        push_cast
        ring
      · rw [if_neg hn, if_neg hn, add_zero]

end

theorem nullInv_run {p : Kernel α} {Q : Trace → α → Prop} (hp : p.Sat nullAnswers NullOp Q)
    {tr : Trace} {a : α} (hrun : p.Run (driver E) w tr a u) (hw : NullInv w) : NullInv u :=
  (Sat.run (P := NullInv) hp (fun _ _ _ _ hx hop hstep => nullInv_driver hx hop hstep) hw hrun).2.2

theorem nullInv_only {p : Kernel α} (hp : p.Only NullOp) {tr : Trace} {a : α}
    (hrun : p.Run (driver E) w tr a u) (hw : NullInv w) : NullInv u :=
  nullInv_run (Q := fun _ _ => True) (Sat.of_only hp (fun _ h => h) fun _ _ _ => trivial) hrun hw

theorem FileRun.counts {opened : Finset File} {taken : Entry → ℕ} (h : FileRun E w opened taken) :
    OpenCounts w opened taken := by
  induction h with
  | load h => exact .load h
  | @openFile w u opened taken dev minor filp tr h hfilp hrun ih =>
    obtain ⟨e, hu⟩ := hrun.of_wp (pciedevOpenExp_wp dev minor filp)
    have hnull :=
      nullInv_only ((pciedevOpenExp_fileOp dev minor filp).mono fun _ => fileOp_nullOp) hrun ih.null
    exact ih.openFile hfilp hnull hu
  | @release w u opened taken filp tr result h hfilp hrun ih =>
    have hu := hrun.of_wp (pciedevReleaseExp_wp filp)
    have hnull :=
      nullInv_only ((pciedevReleaseExp_fileOp filp).mono fun _ => fileOp_nullOp) hrun ih.null
    exact ih.release hfilp hnull hu
  | @probe w u opened taken fuel dev tmpParentNum tr r h hrun ih =>
    have hnull := nullInv_only (pciedevProbeExp_nullOp fuel dev tmpParentNum) hrun ih.null
    exact ih.same hnull
      (hrun.of_wp (keepsFiles_wp (pciedevProbeExp_keepsFiles dev fuel tmpParentNum)))
  | @remove w u opened taken fuel dev d tr result h hd hrun ih =>
    have hnull := nullInv_run (pciedevRemoveExp_nullOp fuel dev) hrun ih.null
    exact ih.remove hd hnull (hrun.of_wp (pciedevRemoveExp_wp fuel dev hd))
  | @removeUnbound w u opened taken fuel dev tr result h hd hrun ih =>
    rw [hrun.of_wp (pciedevRemoveExp_unbound fuel hd)]
    exact ih

/-- After any calls one after the other, the counter of every entry, the null device included, is
the number of open files on it exactly when no remove found a file open on its board. -/
theorem open_counts_exact {opened : Finset File} {taken : Entry → ℕ}
    (h : FileRun E w opened taken) :
    (∀ d, (w.pciedevDevM d).devFileRef = (filesOn w.privateData opened d).card) ↔
      ∀ d, taken d = 0 := by
  apply forall_congr'
  intro d
  rw [h.counts.count d]
  omega

theorem openEnvironment_run {p : Kernel α} {w u : World Unit} {tr : Trace} {a : α}
    (h : p.exec (driverStep (Outcome.answers {})) w = some (tr, a, u)) :
    p.Run (driver openEnvironment) w tr a u :=
  run_of_answers (Outcome.answers {}) (fun _ _ _ _ _ => trivial) h

set_option maxRecDepth 8000 in
/-- A board is removed while one file is open on it: nobody is on its entry, which counts one. -/
theorem removed_board_counts_file : ∃ (w : World Unit) (opened : Finset File) (taken : Entry → ℕ),
    FileRun openEnvironment w opened taken ∧
      ¬ ∀ d, (w.pciedevDevM d).devFileRef = (filesOn w.privateData opened d).card := by
  have hopened := FileRun.openFile
    (.probe (.load bootedBoard_loaded) (show (pciedevProbeExp 3 0 0).Run _ _ _ _ _ from
      openEnvironment_run rfl)) (by decide)
    (show (pciedevOpenExp 0 0 0).Run _ _ _ 0 _ from openEnvironment_run rfl)
  have hremoved :=
    hopened.remove (d := 0) rfl (show (pciedevRemoveExp 1 0).Run _ _ _ _ _ from
      openEnvironment_run rfl)
  refine ⟨_, _, _, hremoved, fun hexact => ?_⟩
  exact absurd (hexact 0) (by decide)

set_option maxRecDepth 8000 in
/-- The counters while a file is open. -/
theorem open_counts_exact_oneFile : ∃ w : World Unit, (w.pciedevDevM 0).devFileRef = 1 ∧
    ∀ d, (w.pciedevDevM d).devFileRef = (filesOn w.privateData {0} d).card := by
  have hopened := FileRun.openFile
    (.probe (.load bootedBoard_loaded) (show (pciedevProbeExp 3 0 0).Run _ _ _ _ _ from
      openEnvironment_run rfl)) (by decide)
    (show (pciedevOpenExp 0 0 0).Run _ _ _ 0 _ from openEnvironment_run rfl)
  exact ⟨_, by decide, (open_counts_exact hopened).mpr fun _ => rfl⟩

end Upciedev
