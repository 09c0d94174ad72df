import Upciedev.Boards.Registration

/-!
# Interrupt lines of a board

A client driver asks for lines with `pciedev_setup_interrupt`, and the remove gives them back.
Which lines were granted is kept in a mask; whether any was is kept in a mode of its own, which
every call sets anew.
-/
namespace Upciedev

open Foundations Program

variable {ε α : Type} {E : Environment ε} {w u : World ε} {b : Entry}

abbrev LineSet (mask : UInt32) (i : ℕ) : Prop := (mask >>> UInt32.ofNat i) &&& 1 ≠ 0

theorem lineSet_iff {mask : UInt32} {i : ℕ} (hi : i < 32) : LineSet mask i ↔
    mask.toNat.testBit i := by
  have hshift : (mask >>> UInt32.ofNat i).toNat = mask.toNat >>> i := by
    rw [UInt32.toNat_shiftRight, UInt32.toNat_ofNat', Nat.mod_eq_of_lt (a := i) (by omega),
      Nat.mod_eq_of_lt hi]
  unfold LineSet
  rw [ne_eq, ← UInt32.toNat_inj, UInt32.toNat_and, hshift, Nat.testBit_eq_decide_div_mod_eq,
    Nat.shiftRight_eq_div_pow]
  simp only [UInt32.toNat_one, Nat.and_one_is_mod, UInt32.toNat_zero, decide_eq_true_eq]
  omega

theorem lineSet_or {mask : UInt32} {num i : ℕ} (hnum : num < 32) (hi : i < 32) :
    LineSet (mask ||| (1 <<< UInt32.ofNat num)) i ↔ LineSet mask i ∨ i = num := by
  have hbit : ((1 : UInt32) <<< UInt32.ofNat num).toNat = 2 ^ num := by
    rw [UInt32.toNat_shiftLeft, UInt32.toNat_ofNat', Nat.mod_eq_of_lt (a := num) (by omega),
      Nat.mod_eq_of_lt (a := num) hnum, UInt32.toNat_one, Nat.shiftLeft_eq, one_mul]
    exact Nat.mod_eq_of_lt (Nat.pow_lt_pow_right (by decide) hnum)
  rw [lineSet_iff hi, lineSet_iff hi, UInt32.toNat_or, hbit, Nat.testBit_or, Nat.testBit_two_pow]
  rw [Bool.or_eq_true, decide_eq_true_eq]
  exact or_congr_right eq_comm

def freedIrq : Event driverInterface → Option UInt32
  | ⟨.kernel (.freeIrq irq), _⟩ => some irq
  | _ => none

def grantedIrq : Event driverInterface → Option UInt32
  | ⟨.kernel (.requestIrq irq _), result⟩ => if (result : ℤ) = 0 then some irq else none
  | _ => none

def requestResult : Event driverInterface → Option ℤ
  | ⟨.kernel (.requestIrq _ _), result⟩ => some (result : ℤ)
  | _ => none

def freedIrqs (tr : Trace) : List UInt32 := tr.filterMap freedIrq

def grantedIrqs (tr : Trace) : List UInt32 := tr.filterMap grantedIrq

def requestResults (tr : Trace) : List ℤ := tr.filterMap requestResult

def FreesNothing : Op → Prop
  | .kernel (.freeIrq _) => False
  | _ => True

theorem freedIrqs_eq_nil {tr : Trace} (h : ∀ e ∈ tr, FreesNothing e.op) : freedIrqs tr = [] := by
  apply List.filterMap_eq_nil_iff.mpr
  intro e he
  have hop := h e he
  unfold freedIrq
  split
  · exact hop.elim
  · rfl

theorem freesNothing_wp {p : Kernel α} (hp : p.Only FreesNothing) :
    p.wp (driver E) w fun tr _ _ => freedIrqs tr = [] :=
  hp.wp fun _ _ _ => freedIrqs_eq_nil

/-- An entry after a request for line `num` was answered with `result`. -/
def PciedevDev.setLine (v : PciedevDev) (num : ℕ) (result : ℤ) : PciedevDev :=
  if result = 0 then
    { v with irqMode := 1, enblIrqNum := v.enblIrqNum ||| (1 <<< UInt32.ofNat num) }
  else { v with irqMode := 0 }

theorem pciedevSetupInterrupt_wp (num : ℕ) :
    (pciedevSetupInterrupt b num).wp (driver E) w fun tr result u =>
      requestResults tr = [result] ∧
      grantedIrqs tr =
        (if result = 0 then [(w.pciedevDevM b).pciDevIrq + UInt32.ofNat num] else []) ∧
      ∃ e, u = (w.updateDev b (·.setLine num result)).withEnv e := by
  simp only [pciedevSetupInterrupt, perform_eq, call_bind, ret_bind, wp_load, wp_store, wp_kernel,
    wp_ite, pure_eq, wp_ret, World.updateDev_withEnv, World.updateDev_updateDev]
  intro result e _
  refine ⟨fun hne => ⟨rfl, ?_, e, ?_⟩, fun hzero => ?_⟩
  · simp [grantedIrqs, grantedIrq, hne]
  · simp [World.updateDev, PciedevDev.setLine, hne]
  · obtain rfl : result = (0 : ℤ) := not_not.mp hzero
    exact ⟨rfl, rfl, e, by simp [World.updateDev, PciedevDev.setLine]⟩

/-- Calls of `pciedev_setup_interrupt` for entry `b`, with their numbers and all they did. -/
inductive Setups (E : Environment ε) (b : Entry) (w : World ε) : List ℕ → Trace → World ε → Prop
  | none : Setups E b w [] [] w
  | call {nums : List ℕ} {num : ℕ} {tr tr' : Trace} {result : ℤ} {u u' : World ε}
      (h : Setups E b w nums tr u)
      (hrun : (pciedevSetupInterrupt b num).Run (driver E) u tr' result u') :
      Setups E b w (nums ++ [num]) (tr ++ tr') u'

/-- The mask holds the granted lines, and the mode tells of the last request. -/
structure LinesKept (b : Entry) (w : World ε) (nums : List ℕ) (tr : Trace)
    (u : World ε) : Prop where
  drvdata : u.drvdata = w.drvdata
  pciDevIrq : (u.pciedevDevM b).pciDevIrq = (w.pciedevDevM b).pciDevIrq
  irqMode : (u.pciedevDevM b).irqMode ≠ 0 ↔ (requestResults tr).getLast? = some 0
  granted : ∃ l : List ℕ, l.Sublist nums ∧
    grantedIrqs tr = l.map (fun num => (w.pciedevDevM b).pciDevIrq + UInt32.ofNat num) ∧
    ∀ i < 32, LineSet (u.pciedevDevM b).enblIrqNum i ↔ i ∈ l

theorem Setups.linesKept {nums : List ℕ} {tr : Trace} (h : Setups E b w nums tr u)
    (hlines : ∀ num ∈ nums, num < 32) (hmode : (w.pciedevDevM b).irqMode = 0)
    (hmask : (w.pciedevDevM b).enblIrqNum = 0) : LinesKept b w nums tr u := by
  induction h with
  | none =>
    refine ⟨rfl, rfl, by simp [hmode, requestResults], [], List.nil_sublist _, rfl, fun i _ => ?_⟩
    simp [hmask, LineSet]
  | @call nums num tr tr' result u u' h hrun ih =>
    have hnum : num < 32 := hlines num (by simp)
    obtain ⟨hdrvdata, hirq, -, l, hsub, hgranted, hset⟩ := ih fun i hi => hlines i (by simp [hi])
    obtain ⟨hresults, hnew, e, rfl⟩ := hrun.of_wp (pciedevSetupInterrupt_wp num)
    have hall : requestResults (tr ++ tr') = requestResults tr ++ [result] := by
      rw [requestResults, List.filterMap_append]
      exact congrArg _ hresults
    have hlist : grantedIrqs (tr ++ tr') = grantedIrqs tr ++ grantedIrqs tr' :=
      List.filterMap_append
    have hentry : (((u.updateDev b (·.setLine num result)).withEnv e).pciedevDevM b) =
        (u.pciedevDevM b).setLine num result := by
      simp [World.updateDev]
    by_cases hzero : result = 0
    · subst hzero
      refine ⟨hdrvdata, ?_, ?_, l ++ [num], hsub.append_right _, ?_, fun i hi => ?_⟩
      · rw [hentry]
        exact hirq
      · rw [hentry, hall]
        simp [PciedevDev.setLine]
      · rw [hlist, hnew, hgranted, if_pos rfl, hirq, List.map_append]
        rfl
      · rw [hentry, List.mem_append, List.mem_singleton, ← hset i hi]
        exact lineSet_or hnum hi
    · refine ⟨hdrvdata, ?_, ?_, l, hsub.trans (List.sublist_append_left _ _), ?_, fun i hi => ?_⟩
      · rw [hentry, PciedevDev.setLine, if_neg hzero]
        exact hirq
      · rw [hentry, hall]
        simp [PciedevDev.setLine, hzero]
      · rw [hlist, hnew, hgranted, if_neg hzero, List.append_nil]
      · rw [hentry, PciedevDev.setLine, if_neg hzero]
        exact hset i hi

theorem freeIrqs_wp (is : List ℕ) :
    (freeIrqs b is).wp (driver E) w fun tr _ _ => freedIrqs tr =
      (is.filter fun i => LineSet (w.pciedevDevM b).enblIrqNum i).map
        fun i => (w.pciedevDevM b).pciDevIrq + UInt32.ofNat i := by
  induction is generalizing w with
  | nil => rfl
  | cons i is ih =>
    simp only [freeIrqs, perform_eq, call_bind, ret_bind, wp_load, wp_kernel, wp_ite]
    refine ⟨fun hset _ e _ => ?_, fun hset => ?_⟩
    · apply wp_mono ih
      intro tr _ _ htr
      rw [List.filter_cons_of_pos (by simpa using hset), List.map_cons]
      exact congrArg (List.cons _) htr
    · apply wp_mono ih
      intro tr _ _ htr
      rw [List.filter_cons_of_neg (by simpa using hset), ← htr]
      rfl

def PciedevDev.linesFreed (v : PciedevDev) : List UInt32 :=
  if v.irqMode ≠ 0 then
    ((List.range 32).filter fun i => LineSet v.enblIrqNum i).map fun i =>
      v.pciDevIrq + UInt32.ofNat i
  else []

theorem removeInterrupts_lines :
    (removeInterrupts b).wp (driver E) w fun tr _ _ =>
      freedIrqs tr = (w.pciedevDevM b).linesFreed := by
  have hmsi {x : World ε} : (do
      let v ← load b
      if v.msi ≠ 0 then kernel (.pciDisableMsi v.pciedevPciDev) else pure ()).wp (driver E) x
        fun tr _ _ => freedIrqs tr = [] := by
    apply freesNothing_wp
    simp [FreesNothing]
  simp only [removeInterrupts, perform_eq, call_bind, ret_bind, wp_load]
  refine (wp_ite ..).mpr ⟨fun hmode => (wp_bind ..).mpr ?_, fun hmode => ?_⟩
  · apply wp_mono (freeIrqs_wp _)
    intro tr _ _ htr
    apply wp_mono hmsi
    intro tr' _ _ htr'
    rw [PciedevDev.linesFreed, if_pos hmode, ← htr]
    exact List.filterMap_append.trans ((congrArg _ htr').trans (List.append_nil _))
  · apply wp_mono hmsi
    intro tr _ _ htr
    rw [PciedevDev.linesFreed, if_neg hmode]
    exact htr

theorem pciedevRemoveExp_lines (fuel : ℕ) {dev : PciDev} (hdev : w.drvdata dev = some b) :
    (pciedevRemoveExp fuel dev).wp (driver E) w fun tr _ _ =>
      freedIrqs tr = (w.pciedevDevM b).linesFreed := by
  have hbars (slot : ℕ) (bars : List Bar) : (clearBaseBars b slot bars).Only FreesNothing := by
    induction bars with
    | nil => trivial
    | cons i bars ih => simp [clearBaseBars, FreesNothing, ih]
  have hunmap (bars : List Bar) : (unmapBars dev b bars).Only FreesNothing := by
    induction bars with
    | nil => trivial
    | cons i bars ih => exact Only.bind (by simp [unmapBar, FreesNothing]) fun _ => ih
  have horphan (nodes : List UpciedevFileList) : (orphanFiles b nodes).Only FreesNothing := by
    induction nodes with
    | nil => trivial
    | cons n nodes ih => simp [orphanFiles, FreesNothing, ih]
  have hlocked (slot : ℤ) : (removeLocked dev b slot).Only FreesNothing := by
    apply (hunmap _).bind
    intro _
    simp only [perform_eq, call_bind, ret_bind, only_call, FreesNothing, true_and]
    exact fun _ _ _ _ _ _ _ _ _ => (horphan _).bind fun _ => by simp [FreesNothing]
  have hrest (slot : ℤ) : Only FreesNothing (do
      removeBaseTable b slot.toNat
      lockUntil b (removeLocked dev b slot) fuel) := by
    apply Only.bind (by simp [removeBaseTable, FreesNothing, hbars])
    intro _
    induction fuel with
    | zero => simp [lockUntil, fault, FreesNothing]
    | succ fuel ih => simp [lockUntil, FreesNothing, ih, hlocked]
  simp only [pciedevRemoveExp, perform_eq, call_bind, ret_bind, wp_drvdata, hdev, wp_load, wp_store]
  refine (wp_bind ..).mpr (wp_mono removeInterrupts_lines fun tr _ _ htr => ?_)
  apply wp_mono (freesNothing_wp (hrest _))
  intro tr' _ _ htr'
  have hsplit : freedIrqs (tr ++ tr') = freedIrqs tr ++ freedIrqs tr' := List.filterMap_append
  rw [htr, htr', World.updateDev_self, List.append_nil] at hsplit
  exact hsplit

/-- No line of the board is set up. -/
structure NoLines (v : PciedevDev) : Prop where
  irqMode : v.irqMode = 0
  enblIrqNum : v.enblIrqNum = 0

theorem probeInfo_noMask (fuel : ℕ) :
    (probeInfo fuel b).wp (driver E) w fun _ _ u => (u.pciedevDevM b).enblIrqNum = 0 := by
  have hbrdinfo : (pciedevGetBrdinfo b).Only (Keeps PciedevDev.enblIrqNum) := by
    simp [pciedevGetBrdinfo, fillBrdInfo, fillDeviceInfo, fillFwName, readField, setBrdInfo,
      setDeviceInfo, Keeps]
  have hfillPrj (a : IoAddr) : (pciedevFillPrjInfo b a).Only (Keeps PciedevDev.enblIrqNum) := by
    simp [pciedevFillPrjInfo, readPrjInfo, setBrdInfo, fault, Keeps]
  have hfillModule (a : IoAddr) :
      (pciedevFillShapiModuleInfo b a).Only (Keeps PciedevDev.enblIrqNum) := by
    simp [pciedevFillShapiModuleInfo, readModuleInfo, fault, Keeps]
  apply (wp_store ..).mpr
  refine wp_mono (keeps_wp (discovery_only trivial trivial (fun _ => rfl) (fun _ => rfl) hbrdinfo
    hfillPrj hfillModule fuel)) fun _ _ u hu => ?_
  rw [hu b, World.updateDev_self]

theorem probeInterrupts_noLines {dev : PciDev} (hmask : (w.pciedevDevM b).enblIrqNum = 0) :
    (probeInterrupts dev b).wp (driver E) w fun _ _ u => NoLines (u.pciedevDevM b) := by
  simp only [probeInterrupts, perform_eq, call_bind, ret_bind, wp_store, wp_kernel, wp_load, wp_ret,
    World.updateDev_withEnv, World.updateDev_updateDev]
  intro _ _ _ msiNum _ _ _ _ _
  constructor
  · simp
  · by_cases hmsi : 0 ≤ msiNum <;> simp [hmask, hmsi]

theorem probeEntry_noLines (fuel : ℕ) (dev : PciDev) (tmpParentNum : ℤ) :
    (probeEntry fuel dev b tmpParentNum).wp (driver E) w fun _ err u =>
      err = 0 → NoLines (u.pciedevDevM b) := by
  simp only [probeEntry, perform_eq, call_bind, ret_bind, wp_store, wp_kernel, wp_ite]
  refine fun _ _ _ => ⟨fun hne h => absurd h hne, fun _ _ _ _ => ⟨fun hne => ?_, fun _ => ?_⟩⟩
  · exact (wp_bind ..).mpr (wp_of_forall fun _ _ _ h => absurd h hne)
  · have hcreate (slot : ℕ) :
        (probeCreate b slot).Only (Keeps fun v => (v.irqMode, v.enblIrqNum)) := by
      refine Only.bind ?_ fun _ => ?_
      · simp [destroyStale, Keeps]
      · simp [Keeps]
    refine (wp_bind ..).mpr ((wp_bind ..).mpr (wp_of_forall fun _ numbers x => ?_))
    simp only [perform_eq, call_bind, ret_bind, wp_setDrvdata, wp_bind, probeResources]
    refine wp_of_forall fun _ _ _ => wp_of_forall fun _ _ _ => wp_of_forall fun _ _ _ => ?_
    simp only [wp_store, wp_bind]
    refine wp_of_forall fun _ _ _ => wp_of_forall fun _ _ _ => ?_
    apply wp_mono (probeInfo_noMask fuel)
    intro _ _ y hy
    apply wp_mono (probeInterrupts_noLines hy)
    intro _ _ z hz
    apply wp_mono (keeps_wp (hcreate _))
    intro _ _ u hu _
    obtain ⟨hmode, hmask⟩ := Prod.mk.inj (hu b)
    exact ⟨hmode.trans hz.irqMode, hmask.trans hz.enblIrqNum⟩

/-- After a probe that succeeded no line of the board is set up, and the device points to it. -/
theorem pciedevProbeExp_noLines {fuel : ℕ} {dev : PciDev} {tmpParentNum : ℤ} {tr : Trace}
    (hrun : (pciedevProbeExp fuel dev tmpParentNum).Run (driver E) w tr (0, b.val) u) :
    u.drvdata dev = some b ∧ NoLines (u.pciedevDevM b) := by
  have hwp := pciedevProbeExp_entry (E := E) (w := w) (Q := fun b err u => err = 0 →
    u.drvdata dev = some b ∧ NoLines (u.pciedevDevM b)) fuel dev tmpParentNum fun b _ _ => by
    refine wp_mono
      (wp_and (probeEntry_wp fuel dev b tmpParentNum) (probeEntry_noLines fuel dev tmpParentNum)) ?_
    intro tr err u ⟨hend, hlines⟩ hzero
    refine ⟨?_, hlines hzero⟩
    cases hend with
    | disabled hne | unclaimed hne => exact absurd hzero hne
    | bound h => simp [h.drvdata]
  rcases hrun.of_wp hwp with ⟨hfailed, -⟩ | ⟨b', -, hb, hQ⟩
  · cases hfailed
  · obtain rfl : b = b' := Fin.ext hb
    exact hQ rfl

theorem linesFreed_perm {nums : List ℕ} {tr : Trace} (h : LinesKept b w nums tr u)
    (hdistinct : nums.Nodup) (hlines : ∀ num ∈ nums, num < 32)
    (hmode : (u.pciedevDevM b).irqMode ≠ 0) :
    ((u.pciedevDevM b).linesFreed).Perm (grantedIrqs tr) := by
  obtain ⟨l, hsub, hgranted, hset⟩ := h.granted
  have hbound (i : ℕ) (hi : i ∈ l) : i < 32 := hlines i (hsub.subset hi)
  rw [PciedevDev.linesFreed, if_pos hmode, hgranted, h.pciDevIrq]
  apply List.Perm.map
  rw [List.perm_ext_iff_of_nodup (List.nodup_range.filter _) (hsub.nodup hdistinct)]
  intro i
  simp only [List.mem_filter, List.mem_range, decide_eq_true_eq]
  constructor
  · rintro ⟨hi, hmask⟩
    exact (hset i hi).mp hmask
  · intro hi
    exact ⟨hbound i hi, (hset i (hbound i hi)).mpr hi⟩

theorem grantedIrqs_eq_nil_iff (tr : Trace) : grantedIrqs tr = [] ↔ 0 ∉ requestResults tr := by
  unfold grantedIrqs requestResults
  rw [List.filterMap_eq_nil_iff, List.mem_filterMap]
  push Not
  apply forall₂_congr
  intro e _
  unfold grantedIrq requestResult
  split <;> simp

/-- The lines asked for by any calls of `pciedev_setup_interrupt` with distinct numbers below 32, on
a board just probed, are given back by the remove, each that was granted once and no other, exactly
when the last of the requests was granted or none was. -/
theorem interrupt_lines_released {w₀ w u u' : World ε} {fuel fuel' : ℕ} {dev : PciDev}
    {tmpParentNum r : ℤ} {nums : List ℕ} {tr₀ tr tr' : Trace}
    (hprobe : (pciedevProbeExp fuel dev tmpParentNum).Run (driver E) w₀ tr₀ (0, b.val) w)
    (hsetups : Setups E b w nums tr u) (hdistinct : nums.Nodup) (hlines : ∀ num ∈ nums, num < 32)
    (hremove : (pciedevRemoveExp fuel' dev).Run (driver E) u tr' r u') :
    (freedIrqs tr').Perm (grantedIrqs tr) ↔
      (requestResults tr).getLast? = some 0 ∨ 0 ∉ requestResults tr := by
  obtain ⟨hdev, hnone⟩ := pciedevProbeExp_noLines hprobe
  have hkept := hsetups.linesKept hlines hnone.irqMode hnone.enblIrqNum
  have hfreed := hremove.of_wp (pciedevRemoveExp_lines fuel' (b := b) (by rw [hkept.drvdata, hdev]))
  rw [hfreed, ← hkept.irqMode, ← grantedIrqs_eq_nil_iff]
  by_cases hmode : (u.pciedevDevM b).irqMode = 0
  · have hnothing : (u.pciedevDevM b).linesFreed = [] := if_neg (not_not.mpr hmode)
    rw [hnothing, List.nil_perm]
    simp [hmode]
  · exact iff_of_true (linesFreed_perm hkept hdistinct hlines hmode) (.inl hmode)

def oneLine : Answers Unit
  | .requestIrq irq _, _ => some ((if irq = 0 then 0 else -16 : ℤ), ())
  | c, e => ({} : Outcome).answers c e

set_option maxRecDepth 8000 in
/-- The second request fails, and the line of the first is never given back. -/
theorem interrupt_line_leaked : ∃ (w₀ w u u' : World Unit) (tr₀ tr tr' : Trace) (r : ℤ),
    (pciedevProbeExp 3 0 0).Run (driver fun c e r e' => oneLine c e = some (r, e')) w₀ tr₀
      (0, (0 : Entry).val) w ∧
    Setups (fun c e r e' => oneLine c e = some (r, e')) 0 w [0, 1] tr u ∧
    (pciedevRemoveExp 1 0).Run (driver fun c e r e' => oneLine c e = some (r, e')) u tr' r u' ∧
    ¬ (freedIrqs tr').Perm (grantedIrqs tr) := by
  refine ⟨.uniform {}, _, _, _, _, _, _, _, run_of_answers oneLine (fun _ _ _ _ h => h) rfl,
    .call (.call .none (run_of_answers oneLine (fun _ _ _ _ h => h) rfl))
      (run_of_answers oneLine (fun _ _ _ _ h => h) rfl),
    run_of_answers oneLine (fun _ _ _ _ h => h) rfl, ?_⟩
  decide

set_option maxRecDepth 8000 in
/-- Both requests are granted. -/
theorem interrupt_lines_released_two : ∃ (w₀ w u u' : World Unit) (tr₀ tr tr' : Trace) (r : ℤ),
    (pciedevProbeExp 3 0 0).Run (driver (Outcome.environment {})) w₀ tr₀ (0, (0 : Entry).val) w ∧
    Setups (Outcome.environment {}) 0 w [4, 2] tr u ∧
    (pciedevRemoveExp 1 0).Run (driver (Outcome.environment {})) u tr' r u' ∧
    (freedIrqs tr').Perm (grantedIrqs tr) := by
  obtain ⟨w₀, w, u, u', tr₀, tr, tr', r, hprobe, hsetups, hremove, hresults⟩ :
      ∃ (w₀ w u u' : World Unit) (tr₀ tr tr' : Trace) (r : ℤ),
        (pciedevProbeExp 3 0 0).Run (driver (Outcome.environment {})) w₀ tr₀
          (0, (0 : Entry).val) w ∧
        Setups (Outcome.environment {}) 0 w [4, 2] tr u ∧
        (pciedevRemoveExp 1 0).Run (driver (Outcome.environment {})) u tr' r u' ∧
        requestResults tr = [0, 0] :=
    ⟨.uniform {}, _, _, _, _, _, _, _, run_of_answers (Outcome.answers {}) (fun _ _ _ _ h => h) rfl,
      .call (.call .none (run_of_answers (Outcome.answers {}) (fun _ _ _ _ h => h) rfl))
        (run_of_answers (Outcome.answers {}) (fun _ _ _ _ h => h) rfl),
      run_of_answers (Outcome.answers {}) (fun _ _ _ _ h => h) rfl, rfl⟩
  refine ⟨w₀, w, u, u', tr₀, tr, tr', r, hprobe, hsetups, hremove, ?_⟩
  apply (interrupt_lines_released hprobe hsetups (by decide) (by decide) hremove).mpr
  rw [hresults]
  exact .inl rfl

end Upciedev
