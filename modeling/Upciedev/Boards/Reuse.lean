import Upciedev.Boards.Removal
import Upciedev.Discovery.Findings

/-!
# Boards in a used entry

A remove leaves most of what was known of the board in its entry, and a probe replaces only
what its own board has. What the clients and the proc file show of a board after its probe is
compared between a used entry and a new one.
-/
namespace Upciedev

open Foundations Program

variable {ε ε' : Type} {E : Environment ε} {w u : World ε}

section
variable {n : ℕ} {f g : Fin n → UInt8} {k : ℕ}

/-- Two buffers with the same text before position `k`: they agree up to there, or up to a zero. -/
def SameText (f g : Fin n → UInt8) (k : ℕ) : Prop :=
  (∃ i : Fin n, i.val < k ∧ f i = 0 ∧ ∀ j ≤ i, f j = g j) ∨ ∀ j : Fin n, j.val < k → f j = g j

def putChar (i : ℕ) (c : UInt8) (name : Fin n → UInt8) : Fin n → UInt8 :=
  fun j => if j.val = i then c else name j

theorem SameText.put (h : SameText f g k) (c : UInt8) :
    SameText (putChar k c f) (putChar k c g) (k + 1) := by
  rcases h with ⟨i, hi, hzero, hsame⟩ | hsame
  · have hbefore (j : Fin n) (hj : j ≤ i) : j.val ≠ k := by
      have hle : j.val ≤ i.val := hj
      omega
    refine .inl ⟨i, by omega, ?_, fun j hj => ?_⟩
    · rw [putChar, if_neg (hbefore i le_rfl)]
      exact hzero
    · rw [putChar, putChar, if_neg (hbefore j hj), if_neg (hbefore j hj)]
      exact hsame j hj
  · refine .inr fun j hj => ?_
    unfold putChar
    by_cases hk : j.val = k
    · rw [if_pos hk, if_pos hk]
    · rw [if_neg hk, if_neg hk]
      exact hsame j (by omega)

theorem SameText.end (h : SameText f g k) (hk : k < n) {k' : ℕ} (hlt : k < k') :
    SameText (putChar k 0 f) (putChar k 0 g) k' := by
  rcases h.put 0 with ⟨i, hi, hzero, hsame⟩ | hsame
  · exact .inl ⟨i, by omega, hzero, hsame⟩
  · refine .inl ⟨⟨k, hk⟩, hlt, if_pos rfl, fun j hj => hsame j ?_⟩
    have hle : j.val ≤ k := hj
    omega

theorem nameWord_sameText (word : UInt32) {left : ℕ} (hleft : left ≤ 4) (hn : k + 4 ≤ n)
    (h : SameText f g (k + (4 - left))) :
    SameText (nameWord word k left f) (nameWord word k left g) (k + 4) := by
  induction left generalizing f g with
  | zero => exact h
  | succ left ih =>
    have hplace : 4 - (left + 1) + k = k + (4 - (left + 1)) := Nat.add_comm _ _
    have hnext : k + (4 - (left + 1)) + 1 = k + (4 - left) := by omega
    unfold nameWord
    dsimp only
    rw [hplace]
    by_cases hend : nameByte word (4 - (left + 1)) = 0x20 ∨ nameByte word (4 - (left + 1)) = 0
    · rw [if_pos hend, if_pos hend]
      exact h.end (by omega) (by omega)
    · rw [if_neg hend, if_neg hend]
      exact ih (by omega) (hnext ▸ h.put _)

theorem strncpy_of_zero {i : Fin n} (hzero : f i = 0) {j : Fin n} (hle : i ≤ j) : strncpy f j = 0 :=
  if_neg fun h => h i hle hzero

theorem strncpy_congr {j : Fin n} (hsame : ∀ i ≤ j, f i = g i) : strncpy f j = strncpy g j := by
  have hiff : (∀ i, i ≤ j → f i ≠ 0) ↔ ∀ i, i ≤ j → g i ≠ 0 :=
    forall_congr' fun i => imp_congr_right fun hi => by rw [hsame i hi]
  unfold strncpy
  by_cases h : ∀ i, i ≤ j → f i ≠ 0
  · rw [if_pos h, if_pos (hiff.mp h), hsame j le_rfl]
  · rw [if_neg h, if_neg (hiff.not.mp h)]

/-- Buffers with the same text that does not reach the end are copied out alike. -/
theorem SameText.strncpy_eq (h : SameText f g k) (hend : ∀ j : Fin n, k ≤ j.val → f j = g j ∨
    ∃ i : Fin n, i.val < k ∧ g i = 0) : strncpy f = strncpy g := by
  funext j
  rcases h with ⟨i, _, hzero, hsame⟩ | hsame
  · by_cases hj : i ≤ j
    · rw [strncpy_of_zero hzero hj, strncpy_of_zero ((hsame i le_rfl).symm.trans hzero) hj]
    · exact strncpy_congr fun j' hj' => hsame j' (hj'.trans (le_of_not_ge hj))
  · by_cases hzero : ∃ i : Fin n, i ≤ j ∧ i.val < k ∧ g i = 0
    · obtain ⟨i, hi, hlt, hg⟩ := hzero
      rw [strncpy_of_zero ((hsame i hlt).trans hg) hi, strncpy_of_zero hg hi]
    · apply strncpy_congr
      intro j' hj'
      by_cases hk : j'.val < k
      · exact hsame j' hk
      · rcases hend j' (by omega) with heq | ⟨i, hi, hg⟩
        · exact heq
        · have hle : i ≤ j' := le_of_lt (show i.val < j'.val by omega)
          exact absurd ⟨i, hle.trans hj', hi, hg⟩ hzero

end

/-- The name of a SHAPI board as it is read over the given one. -/
def fwNameAt (regs : ℤ → UInt32) (old : Fin 13 → UInt8) : Fin 13 → UInt8 :=
  nameWord (regs 0x20) 8 4 (nameWord (regs 0x1C) 4 4 (nameWord (regs 0x18) 0 4 old))

theorem fwNameAt_sameText (regs : ℤ → UInt32) (f g : Fin 13 → UInt8) :
    SameText (fwNameAt regs f) (fwNameAt regs g) 12 := by
  have hnone : SameText f g (0 + (4 - 4)) := .inr fun j hj => absurd hj (Nat.not_lt_zero _)
  have hfirst := nameWord_sameText (regs 0x18) le_rfl (by decide) hnone
  have hsecond := nameWord_sameText (k := 4) (regs 0x1C) le_rfl (by decide) hfirst
  exact nameWord_sameText (k := 8) (regs 0x20) le_rfl (by decide) hsecond

theorem fwNameAt_last (regs : ℤ → UInt32) (f : Fin 13 → UInt8) : fwNameAt regs f 12 = f 12 := by
  unfold fwNameAt
  rw [nameWord_other le_rfl (.inr (by decide)), nameWord_other le_rfl (.inr (by decide)),
    nameWord_other le_rfl (.inr (by decide))]

/-- The name ends before the last byte of its buffer, which no board writes, or that byte is
zero. -/
def NameEnds (regs : ℤ → UInt32) (old : Fin 13 → UInt8) : Prop :=
  old 12 = 0 ∨ ∃ i : Fin 13, i.val < 12 ∧ fwNameAt regs (fun _ => 0) i = 0

theorem fwNameAt_shown (regs : ℤ → UInt32) (old : Fin 13 → UInt8) :
    strncpy (fwNameAt regs old) = strncpy (fwNameAt regs fun _ => 0) ↔ NameEnds regs old := by
  have hsame := fwNameAt_sameText regs old fun _ => 0
  constructor
  · intro heq
    by_contra hends
    obtain ⟨hlast, hlong⟩ := not_or.mp hends
    push Not at hlong
    have hall (j : Fin 13) (hj : j.val < 12) :
        fwNameAt regs old j = fwNameAt regs (fun _ => 0) j := by
      rcases hsame with ⟨i, hi, hzero, hagree⟩ | hagree
      · exact absurd ((hagree i le_rfl).symm.trans hzero) (hlong i hi)
      · exact hagree j hj
    have hnonzero : ∀ j, j ≤ (12 : Fin 13) → fwNameAt regs old j ≠ 0 := by
      intro j _
      by_cases hj : j.val < 12
      · rw [hall j hj]
        exact hlong j hj
      · have hj12 : j = 12 := Fin.ext (by have := j.isLt; simp; omega)
        rw [hj12, fwNameAt_last]
        exact hlast
    have hshown : strncpy (fwNameAt regs old) 12 = old 12 := by
      rw [strncpy, if_pos hnonzero, fwNameAt_last]
    have hzero : strncpy (fwNameAt regs fun _ => 0) 12 = 0 :=
      strncpy_of_zero (fwNameAt_last regs _) le_rfl
    rw [heq, hzero] at hshown
    exact hlast hshown.symm
  · intro hends
    apply hsame.strncpy_eq
    intro j hj
    have hj12 : j = 12 := Fin.ext (by have := j.isLt; simp; omega)
    rcases hends with hlast | hshort
    · exact .inl (by rw [hj12, fwNameAt_last, fwNameAt_last, hlast])
    · exact .inr hshort

/-- The last record of a list with the given number. -/
def lastNumbered (n : ℤ) (l : List ShapiModuleInfo) : Option ShapiModuleInfo :=
  (l.filter fun m => m.moduleNum = n).getLast?

theorem lastNumbered_append (n : ℤ) (l l' : List ShapiModuleInfo) :
    lastNumbered n (l ++ l') = (lastNumbered n l').or (lastNumbered n l) := by
  rw [lastNumbered, List.filter_append, List.getLast?_append]
  rfl

/-- The search over all records answers with the last one that has the number. -/
theorem shapiModInfo_eq (l : List ShapiModuleInfo) (info : PicmgShapiModuleInfo) :
    shapiModInfo l info = ((lastNumbered info.moduleNum l).map fun m => m.fill info).getD info := by
  induction l using List.reverseRecOn with
  | nil => rfl
  | append_singleton l m ih =>
    rw [lastNumbered_append]
    unfold shapiModInfo at ih ⊢
    rw [List.foldl_append, ih]
    by_cases hnum : m.moduleNum = info.moduleNum
    · have hlast : lastNumbered info.moduleNum [m] = some m := by
        simp [lastNumbered, hnum]
      rw [hlast]
      cases lastNumbered info.moduleNum l <;> exact if_pos hnum
    · have hlast : lastNumbered info.moduleNum [m] = none := by
        simp [lastNumbered, hnum]
      rw [hlast]
      exact if_neg hnum

/-- Records left in an entry do not show: the board has a module of the same number, with the same
contents. -/
def Hidden (own old : List ShapiModuleInfo) : Prop :=
  ∀ n m, lastNumbered n old = some m →
    ∃ m', lastNumbered n own = some m' ∧ ∀ info, m.fill info = m'.fill info

theorem hidden_nil (old : List ShapiModuleInfo) : Hidden [] old ↔ old = [] := by
  constructor
  · intro h
    by_contra hne
    obtain ⟨m, hm⟩ : ∃ m, lastNumbered (old.getLast hne).moduleNum old = some m := by
      apply Option.ne_none_iff_exists'.mp
      intro hnone
      have hempty := List.getLast?_eq_none_iff.mp hnone
      have hin : old.getLast hne ∈ old.filter fun m => m.moduleNum = (old.getLast hne).moduleNum :=
        List.mem_filter.mpr ⟨List.getLast_mem hne, by simp⟩
      rw [hempty] at hin
      exact List.not_mem_nil hin
    obtain ⟨m', hm', _⟩ := h _ m hm
    exact absurd hm' (by simp [lastNumbered])
  · rintro rfl n m hm
    exact absurd hm (by simp [lastNumbered])

theorem shapiModInfo_hidden (own old : List ShapiModuleInfo) :
    (∀ info, shapiModInfo (own ++ old) info = shapiModInfo own info) ↔ Hidden own old := by
  constructor
  · intro h n m hm
    have hm_num : m.moduleNum = n := by
      have hin := List.mem_of_getLast? hm
      simpa using (List.mem_filter.mp hin).2
    let blank : PicmgShapiModuleInfo :=
      m.fill ⟨0, 0, 0, 0, fun _ => 0, 0, 0, 0, 0, 0, 0, 0, 0, fun _ => 0, 0, n⟩
    let asked : PicmgShapiModuleInfo := { blank with shapiVersion := m.shapiVersion + 1 }
    have hasked : asked.moduleNum = n := rfl
    have hboth := h asked
    rw [shapiModInfo_eq, shapiModInfo_eq, lastNumbered_append, hasked, hm] at hboth
    cases hown : lastNumbered n own with
    | none =>
      rw [hown] at hboth
      have hversion : m.shapiVersion = m.shapiVersion + 1 :=
        congrArg PicmgShapiModuleInfo.shapiVersion hboth
      simp at hversion
    | some m' =>
      rw [hown] at hboth
      have hfill : m.fill asked = m'.fill asked := hboth
      refine ⟨m', rfl, fun info => ?_⟩
      have hcopy (r : ShapiModuleInfo) : r.fill info =
          { r.fill asked with moduleNum := info.moduleNum, padding := info.padding } := rfl
      rw [hcopy m, hcopy m', hfill]
  · intro h info
    rw [shapiModInfo_eq, shapiModInfo_eq, lastNumbered_append]
    cases hold : lastNumbered info.moduleNum old with
    | none => rfl
    | some m =>
      obtain ⟨m', hown, hfill⟩ := h _ m hold
      rw [hown]
      exact hfill info

/-- The fields of `PCIEDEV_GET_SHAPI_DEVINFO` but for the padding. -/
def devinfoOf (d : ShapiDeviceInfo) (modules : ℤ) : PicmgShapiDeviceInfo :=
  shapiDevInfo { deviceInfoList := d, shapiModuleNum := modules } 0

/-- What clients and the proc file show of a board. -/
structure Shown where
  brdInfo : PciedevBrdInfo
  numberOfProj : ℤ
  projects : List PciedevPrjInfo
  devinfo : PicmgShapiDeviceInfo
  modinfo : PicmgShapiModuleInfo → PicmgShapiModuleInfo

def BoardInfo.shown (v : BoardInfo) : Shown where
  brdInfo := v.brdInfoList
  numberOfProj := v.startupPrjNum
  projects := v.prjInfoList
  devinfo := devinfoOf v.deviceInfoList v.shapiModuleNum
  modinfo := shapiModInfo v.moduleInfoList

def BoardInfo.empty : BoardInfo where
  brdInfoList := {}
  prjInfoList := []
  startupPrjNum := 0
  deviceInfoList := {}
  moduleInfoList := []
  shapiModuleNum := 0

/-- What an entry keeps does not show through a board of the given kind with the given headers. -/
def Invisible (regs : Bar → ℤ → UInt32) (l : List (Bar × ℤ)) (old : BoardInfo) : BoardKind → Prop
  | .desy => old.brdInfoList.pciedevBoardReserved = 0 ∧
      devinfoOf old.deviceInfoList 0 = devinfoOf {} 0 ∧ old.moduleInfoList = []
  | .shapi => old.brdInfoList = {} ∧ old.startupPrjNum = 0 ∧
      NameEnds (regs 0) old.deviceInfoList.fwName ∧
      Hidden (recordsOf regs 1 l).reverse old.moduleInfoList
  | .unknown => old.brdInfoList = {} ∧ old.startupPrjNum = 0 ∧
      devinfoOf old.deviceInfoList 0 = devinfoOf {} 0 ∧ old.moduleInfoList = []

theorem shapiModInfo_nil_iff (old : List ShapiModuleInfo) :
    shapiModInfo old = shapiModInfo [] ↔ old = [] := by
  have h := shapiModInfo_hidden [] old
  rw [hidden_nil] at h
  exact funext_iff.trans h

theorem devinfoOf_deviceInfoAt (regs : ℤ → UInt32) (old : ShapiDeviceInfo) (modules : ℤ) :
    devinfoOf (deviceInfoAt regs old) modules = devinfoOf (deviceInfoAt regs {}) modules ↔
      NameEnds regs old.fwName := by
  rw [← fwNameAt_shown]
  constructor
  · exact fun h => congrArg PicmgShapiDeviceInfo.fwName h
  · intro h
    have hcopy (d : ShapiDeviceInfo) : devinfoOf (deviceInfoAt regs d) modules =
        { devinfoOf (deviceInfoAt regs {}) modules with
          fwName := strncpy (fwNameAt regs d.fwName) } := rfl
    rw [hcopy, hcopy {}, h]

/-- The board shows as it would in an empty entry exactly when nothing that was left is visible. -/
theorem probed_shown_iff (regs : Bar → ℤ → UInt32) (kind : BoardKind) (l : List (Bar × ℤ))
    {old : BoardInfo} (hprj : old.prjInfoList = []) :
    (old.probed regs kind l).shown = (BoardInfo.empty.probed regs kind l).shown ↔
      Invisible regs l old kind := by
  rw [Shown.mk.injEq]
  cases kind with
  | desy =>
    simp only [BoardInfo.probed, addProjects_eq, BoardInfo.withHeader, BoardInfo.shown,
      BoardInfo.empty, hprj, shapiModInfo_nil_iff, Invisible, true_and]
    apply and_congr_left'
    by_cases hl : l = []
    · rw [if_pos hl, if_pos hl]
      constructor
      · exact fun h => congrArg PciedevBrdInfo.pciedevBoardReserved h
      · intro h
        rw [brdInfoAt, h]
        rfl
    · rw [if_neg hl, if_neg hl]
      constructor
      · exact fun h => congrArg PciedevBrdInfo.pciedevBoardReserved h
      · intro h
        rw [brdInfoAt, h]
        rfl
  | shapi =>
    simp only [BoardInfo.probed, addModules_eq, BoardInfo.withHeader, BoardInfo.shown,
      BoardInfo.empty, hprj, devinfoOf_deviceInfoAt, Invisible, true_and, zero_add,
        List.append_nil, funext_iff,
      shapiModInfo_hidden]
  | unknown =>
    simp only [BoardInfo.probed, BoardInfo.withHeader, BoardInfo.shown, BoardInfo.empty, hprj,
      shapiModInfo_nil_iff, Invisible, true_and]

/-- The board fields and the project list among what the proc file prints. -/
def ProcShow.board (p : ProcShow) : PciedevBrdInfo × ℤ × List PciedevPrjInfo :=
  (⟨p.boardId, p.boardVersion, p.boardDate, p.boardHwVer, p.boardReserved, p.boardNextPrj⟩,
    p.numberOfProj, p.projects)

/-- Two entries answer alike. -/
structure SameAnswers (u : World ε) (b : Entry) (u' : World ε') (b' : Entry) : Prop where
  firmwareVersion x :
    (∃ v : DeviceIoctrlData, Told u b .firmwareVersion (Sends .deviceIoctrlData v) ∧ v.data = x) ↔
      ∃ v : DeviceIoctrlData, Told u' b' .firmwareVersion (Sends .deviceIoctrlData v) ∧ v.data = x
  devinfo v : Told u b .getShapiDevinfo (Sends .picmgShapiDeviceInfo v) ↔
    Told u' b' .getShapiDevinfo (Sends .picmgShapiDeviceInfo v)
  modinfo info v :
    Told u b .getShapiModinfo (fun tr => Takes .picmgShapiModuleInfo info tr ∧
      Sends .picmgShapiModuleInfo v tr) ↔
    Told u' b' .getShapiModinfo (fun tr => Takes .picmgShapiModuleInfo info tr ∧
      Sends .picmgShapiModuleInfo v tr)
  proc : (pciedevProcShow u.cdev (u.pciedevDevM b)).board =
    (pciedevProcShow u'.cdev (u'.pciedevDevM b')).board

theorem sameAnswers_iff (u : World ε) (b : Entry) (u' : World ε') (b' : Entry) :
    SameAnswers u b u' b' ↔ (u.pciedevDevM b).info.shown = (u'.pciedevDevM b').info.shown := by
  have hdevinfo {v v' : PciedevDev} :
      (∀ reply, (∃ p, reply = shapiDevInfo v p) ↔ ∃ p, reply = shapiDevInfo v' p) ↔
      shapiDevInfo v 0 = shapiDevInfo v' 0 := by
    have hcopy (v : PciedevDev) (p : BitVec 24) :
        shapiDevInfo v p = { shapiDevInfo v 0 with padding := p } := rfl
    constructor
    · intro h
      obtain ⟨p, hp⟩ := (h _).mp ⟨0, rfl⟩
      obtain rfl : (0 : BitVec 24) = p := congrArg PicmgShapiDeviceInfo.padding hp
      exact hp
    · intro h reply
      apply exists_congr
      intro p
      rw [hcopy v, hcopy v', h]
  constructor
  · intro h
    have hboard := h.proc
    have hinfo : shapiDevInfo (u.pciedevDevM b) 0 = shapiDevInfo (u'.pciedevDevM b') 0 :=
      hdevinfo.mp fun v =>
        (told_devinfo u b v).symm.trans ((h.devinfo v).trans (told_devinfo u' b' v))
    have hmodules : shapiModInfo (u.pciedevDevM b).info.moduleInfoList =
        shapiModInfo (u'.pciedevDevM b').info.moduleInfoList := by
      funext info
      have hthis := (h.modinfo info _).mp ((told_modinfo u b info _).mpr rfl)
      exact (told_modinfo u' b' info _).mp hthis
    obtain ⟨hbrd, hnum, hprojects⟩ :
        (u.pciedevDevM b).info.brdInfoList = (u'.pciedevDevM b').info.brdInfoList ∧
        (u.pciedevDevM b).info.startupPrjNum = (u'.pciedevDevM b').info.startupPrjNum ∧
        (u.pciedevDevM b).info.prjInfoList = (u'.pciedevDevM b').info.prjInfoList := by
      have hall := Prod.mk.inj hboard
      exact ⟨hall.1, Prod.mk.inj hall.2⟩
    exact Shown.mk.injEq .. ▸ ⟨hbrd, hnum, hprojects, hinfo, hmodules⟩
  · intro h
    obtain ⟨hbrd, hnum, hprojects, hinfo, hmodules⟩ := Shown.mk.inj h
    constructor
    · intro x
      rw [told_firmwareVersion, told_firmwareVersion, hbrd]
    · intro v
      rw [told_devinfo, told_devinfo]
      exact hdevinfo.mpr hinfo v
    · intro info v
      rw [told_modinfo, told_modinfo, hmodules]
    · exact Prod.ext hbrd (Prod.ext hnum hprojects)

section
variable {dev : PciDev} {b : Entry} {res : Bar → BarResource} {map : Bar → IoPtr}
  {regs : Bar → ℤ → UInt32}

def mappedBars (res : Bar → BarResource) (map : Bar → IoPtr) (i : Bar) : IoPtr :=
  if (res i).Present then map i else none

/-- A probe leaves in its entry what it finds out of the board, on top of what was known there. -/
theorem pciedevProbeExp_info {fuel : ℕ} {n : ℤ} {tr : Trace} (hbars : Bars E dev res map)
    (hregs : ∀ i, mappedBars res map i ≠ none → Reads E (mappedBars res map i) (regs i))
    (hrun : (pciedevProbeExp fuel dev n).Run (driver E) w tr (0, b.val) u) :
    ∃ l, BoardFinds (fun i => mappedBars res map i ≠ none) regs l
        (boardKind (mappedBars res map 0) (regs 0 0)) ∧
      (u.pciedevDevM b).info =
        (w.pciedevDevM b).info.probed regs (boardKind (mappedBars res map 0) (regs 0 0)) l := by
  have hprobe : (pciedevProbeExp fuel dev n).wp (driver E) w fun _ r u => r = (0, b.val) →
      ∃ l, BoardFinds (fun i => mappedBars res map i ≠ none) regs l
          (boardKind (mappedBars res map 0) (regs 0 0)) ∧
        (u.pciedevDevM b).info =
          (w.pciedevDevM b).info.probed regs (boardKind (mappedBars res map 0) (regs 0 0)) l := by
    refine wp_mono (pciedevProbeExp_entry (Q := fun b' err u => err = 0 →
      ∃ l, BoardFinds (fun i => mappedBars res map i ≠ none) regs l
          (boardKind (mappedBars res map 0) (regs 0 0)) ∧
        (u.pciedevDevM b').info =
          (w.pciedevDevM b').info.probed regs (boardKind (mappedBars res map 0) (regs 0 0)) l)
      fuel dev n ?_) ?_
    · intro b' _ _
      refine wp_mono (probeEntry_filled_wp (w := w) hbars (R := fun i => ∃ l,
        BoardFinds (fun i => mappedBars res map i ≠ none) regs l
          (boardKind (mappedBars res map 0) (regs 0 0)) ∧
        i = (w.pciedevDevM b').info.probed regs (boardKind (mappedBars res map 0) (regs 0 0)) l)
        fuel n fun x hx hfilled => ?_) fun _ err u h herr => (h herr).1
      rw [← hx]
      exact probeInfo_finds hregs fuel (funext hfilled.memmoryBase)
    · rintro _ r u (⟨hr, _⟩ | ⟨b', _, hb', hQ⟩) heq
      · have hfailed : (-1 : ℤ) = 0 := congrArg Prod.fst (hr.symm.trans heq)
        exact absurd hfailed (by decide)
      · subst heq
        obtain rfl : b = b' := Fin.ext hb'
        exact hQ rfl
  exact hrun.of_wp hprobe rfl

end

/-- A remove empties the list of projects, and keeps all else that is known of the board. -/
theorem Removed.info {b : Entry} (h : Removed b w u) :
    (u.pciedevDevM b).info = { (w.pciedevDevM b).info with prjInfoList := [] } := by
  obtain ⟨_, _, _, _, _, hunmap⟩ := foldl_unmap_fields
    { w.pciedevDevM b with prjInfoList := [] } (List.finRange numberOfBars)
  rw [h.pciedevDevM b, World.updateDev_self, PciedevDev.removed, PciedevDev.unlocked, hunmap]
  rfl

/-- After a remove, the next board in the entry shows as it would in a new entry exactly when
nothing that the entry keeps is visible through it. -/
theorem used_entry_answers_alike {res : Bar → BarResource} {regs : Bar → ℤ → UInt32}
    {l : List (Bar × ℤ)} {w₀ w u : World ε} {E₀ E : Environment ε} {dev₀ dev : PciDev}
    {map : Bar → IoPtr} {b : Entry} {fuel₀ fuel : ℕ} {n r₀ : ℤ} {tr₀ tr : Trace}
    {w₁ w' u' : World ε'} {E₁ E' : Environment ε'} {dev' : PciDev} {map' : Bar → IoPtr} {b' : Entry}
    {fuel' : ℕ} {n' : ℤ} {tr₁ tr' : Trace}
    (hbars : Bars E dev res map) (hbars' : Bars E' dev' res map')
    (hmap : ∀ i, (res i).Present → (map i = none ↔ map' i = none))
    (hregs : ∀ i, mappedBars res map i ≠ none → Reads E (mappedBars res map i) (regs i))
    (hregs' : ∀ i, mappedBars res map' i ≠ none → Reads E' (mappedBars res map' i) (regs i))
    (hfinite : BoardFinds (fun i => mappedBars res map i ≠ none) regs l
      (boardKind (mappedBars res map 0) (regs 0 0)))
    (hbound : w₀.drvdata dev₀ = some b)
    (hremove : (pciedevRemoveExp fuel₀ dev₀).Run (driver E₀) w₀ tr₀ r₀ w)
    (hprobe : (pciedevProbeExp fuel dev n).Run (driver E) w tr (0, b.val) u)
    (hnew : upciedevInitModuleExp.Run (driver E₁) w₁ tr₁ 0 w')
    (hprobe' : (pciedevProbeExp fuel' dev' n').Run (driver E') w' tr' (0, b'.val) u') :
    SameAnswers u b u' b' ↔
      Invisible regs l (w.pciedevDevM b).info (boardKind (mappedBars res map 0) (regs 0 0)) := by
  have hnone (i : Bar) : mappedBars res map i = none ↔ mappedBars res map' i = none := by
    unfold mappedBars
    by_cases hpresent : (res i).Present
    · rw [if_pos hpresent, if_pos hpresent]
      exact hmap i hpresent
    · rw [if_neg hpresent, if_neg hpresent]
  have hkind :
      boardKind (mappedBars res map' 0) (regs 0 0) =
        boardKind (mappedBars res map 0) (regs 0 0) := by
    unfold boardKind
    simp only [hnone 0]
  have hmapped : (fun i => mappedBars res map' i ≠ none) = fun i => mappedBars res map i ≠ none :=
    funext fun i => propext (hnone i).not.symm
  have hprj : (w.pciedevDevM b).info.prjInfoList = [] :=
    congrArg BoardInfo.prjInfoList (hremove.of_wp (pciedevRemoveExp_wp fuel₀ dev₀ hbound)).info
  have hempty : (w'.pciedevDevM b').info = .empty := by
    rw [(hnew.of_wp upciedevInitModuleExp_wp rfl).2 b']
    rfl
  obtain ⟨l₁, hl₁, hu⟩ := pciedevProbeExp_info hbars hregs hprobe
  obtain ⟨l₂, hl₂, hu'⟩ := pciedevProbeExp_info hbars' hregs' hprobe'
  rw [hmapped, hkind] at hl₂
  obtain rfl := hfinite.unique hl₁
  obtain rfl := hfinite.unique hl₂
  rw [sameAnswers_iff, hu, hu', hempty, hkind]
  exact probed_shown_iff regs _ l hprj

/-- BAR 0 of the boards of an `Outcome` is mapped, and the other BARs are not there. -/
theorem oneBar_mapped (i : Bar) : mappedBars oneBar (fun _ => some 1) i = if i = 0 then some 1 else
    none := by
  fin_cases i <;> decide

theorem oneBar_reads (o : Outcome) (i : Bar) : mappedBars oneBar (fun _ => some 1) i ≠ none →
    Reads o.environment (mappedBars oneBar (fun _ => some 1) i) o.register := by
  intro hmapped
  rw [oneBar_mapped] at hmapped ⊢
  by_cases hi : i = 0
  · rw [if_pos hi]
    exact o.reads
  · exact absurd (if_neg hi) hmapped

def Outcome.kind (o : Outcome) : BoardKind := boardKind (some 1) (o.register 0)

/-- What is left of the board of an `Outcome` when it was the first in its entry. -/
theorem left_info {o : Outcome} {w₁ x w : World Unit} {tr₁ tr tr₂ : Trace} {r : ℤ}
    (hnew : upciedevInitModuleExp.Run (driver o.environment) (.uniform {}) tr₁ 0 w₁)
    (hprobe : (pciedevProbeExp 3 0 0).Run (driver o.environment) w₁ tr (0, (0 : Entry).val) x)
    (hbound : x.drvdata 0 = some 0)
    (hremove : (pciedevRemoveExp 1 0).Run (driver o.environment) x tr₂ r w) :
    ∃ l, (w.pciedevDevM 0).info =
      { BoardInfo.empty.probed (fun _ => o.register) o.kind l with prjInfoList := [] } := by
  have hempty : (w₁.pciedevDevM 0).info = .empty := by
    rw [(hnew.of_wp upciedevInitModuleExp_wp rfl).2 0]
    rfl
  obtain ⟨l, _, hx⟩ := pciedevProbeExp_info (o.bars 0) (oneBar_reads o) hprobe
  refine ⟨l, (hremove.of_wp (pciedevRemoveExp_wp 1 0 hbound)).info.trans ?_⟩
  rw [hx, hempty]
  rfl

def oneModule : Outcome :=
  { register := fun off =>
      if off = 0 then 0x53480001 else if off = 0x04 then 0x100 else if off = 0x18 then 0x41420000
      else if off = 0x100 then 0x534D0001 else if off = 0x110 then 0x43000000 else 0 }

set_option maxRecDepth 8000 in
/-- A SHAPI board and its module after the same board: one record of a module is kept, and hidden by
that of the new board. -/
theorem used_entry_answers_alike_module : ∃ (w₁ x w u u' : World Unit)
    (tr₁ tr tr₂ tr₃ tr₄ : Trace) (r : ℤ),
    upciedevInitModuleExp.Run (driver oneModule.environment) (.uniform {}) tr₁ 0 w₁ ∧
    (pciedevProbeExp 3 0 0).Run (driver oneModule.environment) w₁ tr (0, (0 : Entry).val) x ∧
    (pciedevRemoveExp 1 0).Run (driver oneModule.environment) x tr₂ r w ∧
    (pciedevProbeExp 3 0 0).Run (driver oneModule.environment) w tr₃ (0, (0 : Entry).val) u ∧
    (pciedevProbeExp 3 0 0).Run (driver oneModule.environment) w₁ tr₄ (0, (0 : Entry).val) u' ∧
    (w.pciedevDevM 0).moduleInfoList.length = 1 ∧ SameAnswers u 0 u' 0 := by
  obtain ⟨w₁, x, w, u, u', tr₁, tr, tr₂, tr₃, tr₄, r, hbound, hkept, hnew, hfirst, hremove,
      hprobe, hprobe'⟩ :
      ∃ (w₁ x w u u' : World Unit) (tr₁ tr tr₂ tr₃ tr₄ : Trace) (r : ℤ), x.drvdata 0 = some 0 ∧
      (w.pciedevDevM 0).moduleInfoList.length = 1 ∧
      upciedevInitModuleExp.Run (driver oneModule.environment) (.uniform {}) tr₁ 0 w₁ ∧
      (pciedevProbeExp 3 0 0).Run (driver oneModule.environment) w₁ tr (0, (0 : Entry).val) x ∧
      (pciedevRemoveExp 1 0).Run (driver oneModule.environment) x tr₂ r w ∧
      (pciedevProbeExp 3 0 0).Run (driver oneModule.environment) w tr₃ (0, (0 : Entry).val) u ∧
      (pciedevProbeExp 3 0 0).Run (driver oneModule.environment) w₁ tr₄
        (0, (0 : Entry).val) u' :=
    ⟨_, _, _, _, _, _, _, _, _, _, _, rfl, rfl,
      run_of_answers oneModule.answers (fun _ _ _ _ h => h) rfl,
      run_of_answers oneModule.answers (fun _ _ _ _ h => h) rfl,
      run_of_answers oneModule.answers (fun _ _ _ _ h => h) rfl,
      run_of_answers oneModule.answers (fun _ _ _ _ h => h) rfl,
      run_of_answers oneModule.answers (fun _ _ _ _ h => h) rfl⟩
  have hshapi : oneModule.kind = .shapi := by decide
  obtain ⟨l, hfinds, hx⟩ := pciedevProbeExp_info (oneModule.bars 0) (oneBar_reads oneModule) hfirst
  have hempty : (w₁.pciedevDevM 0).info = .empty := by
    rw [(hnew.of_wp upciedevInitModuleExp_wp rfl).2 0]
    rfl
  have hleft : (w.pciedevDevM 0).info =
      { BoardInfo.empty.probed (fun _ => oneModule.register) .shapi l with prjInfoList := [] } := by
    rw [(hremove.of_wp (pciedevRemoveExp_wp 1 0 hbound)).info, hx, hempty]
    exact congrArg (fun kind => { BoardInfo.empty.probed (fun _ => oneModule.register) kind l with
      prjInfoList := [] }) hshapi
  have hsame := used_entry_answers_alike (oneModule.bars 0) (oneModule.bars 0)
    (fun _ _ => Iff.rfl) (oneBar_reads oneModule) (oneBar_reads oneModule) hfinds hbound hremove
    hprobe hnew hprobe'
  have hinvisible : Invisible (fun _ => oneModule.register) l (w.pciedevDevM 0).info
      oneModule.kind := by
    rw [hshapi, hleft, BoardInfo.probed, addModules_eq]
    refine ⟨rfl, rfl, .inr ⟨2, by decide, by decide⟩, fun n m hm => ⟨m, ?_, fun _ => rfl⟩⟩
    simpa [BoardInfo.withHeader, BoardInfo.empty] using hm
  exact ⟨w₁, x, w, u, u', tr₁, tr, tr₂, tr₃, tr₄, r, hnew, hfirst, hremove, hprobe, hprobe', hkept,
    hsame.mpr hinvisible⟩

set_option maxRecDepth 8000 in
/-- A plain board after a SHAPI board: the clients are still told the version of the header of the
SHAPI board. -/
theorem shapi_header_left : ∃ (w₁ x w u u' : World Unit) (tr₁ tr tr₂ tr₃ tr₄ : Trace) (r : ℤ),
    upciedevInitModuleExp.Run (driver (shapiBoard 1).environment) (.uniform {}) tr₁ 0 w₁ ∧
    (pciedevProbeExp 3 0 0).Run (driver (shapiBoard 1).environment) w₁ tr (0, (0 : Entry).val) x ∧
    (pciedevRemoveExp 1 0).Run (driver (shapiBoard 1).environment) x tr₂ r w ∧
    (pciedevProbeExp 3 0 0).Run (driver (Outcome.environment {})) w tr₃ (0, (0 : Entry).val) u ∧
    (pciedevProbeExp 3 0 0).Run (driver (Outcome.environment {})) w₁ tr₄ (0, (0 : Entry).val) u' ∧
    ¬ SameAnswers u 0 u' 0 := by
  obtain ⟨w₁, x, w, u, u', tr₁, tr, tr₂, tr₃, tr₄, r, hbound, hnew, hfirst, hremove,
    hprobe, hprobe'⟩ :
      ∃ (w₁ x w u u' : World Unit) (tr₁ tr tr₂ tr₃ tr₄ : Trace) (r : ℤ), x.drvdata 0 = some 0 ∧
      upciedevInitModuleExp.Run (driver (shapiBoard 1).environment) (.uniform {}) tr₁ 0 w₁ ∧
      (pciedevProbeExp 3 0 0).Run (driver (shapiBoard 1).environment) w₁ tr (0, (0 : Entry).val) x ∧
      (pciedevRemoveExp 1 0).Run (driver (shapiBoard 1).environment) x tr₂ r w ∧
      (pciedevProbeExp 3 0 0).Run (driver (Outcome.environment {})) w tr₃ (0, (0 : Entry).val) u ∧
      (pciedevProbeExp 3 0 0).Run (driver (Outcome.environment {})) w₁ tr₄
        (0, (0 : Entry).val) u' :=
    ⟨_, _, _, _, _, _, _, _, _, _, _, rfl,
      run_of_answers (Outcome.answers (shapiBoard 1)) (fun _ _ _ _ h => h) rfl,
      run_of_answers (Outcome.answers (shapiBoard 1)) (fun _ _ _ _ h => h) rfl,
      run_of_answers (Outcome.answers (shapiBoard 1)) (fun _ _ _ _ h => h) rfl,
      run_of_answers (Outcome.answers {}) (fun _ _ _ _ h => h) rfl,
      run_of_answers (Outcome.answers {}) (fun _ _ _ _ h => h) rfl⟩
  refine ⟨w₁, x, w, u, u', tr₁, tr, tr₂, tr₃, tr₄, r, hnew, hfirst, hremove, hprobe,
    hprobe', fun h => ?_⟩
  obtain ⟨l, hleft⟩ := left_info hnew hfirst hbound hremove
  obtain ⟨l₁, _, hu⟩ := pciedevProbeExp_info (Outcome.bars {} 0) (oneBar_reads {}) hprobe
  obtain ⟨l₂, _, hu'⟩ := pciedevProbeExp_info (Outcome.bars {} 0) (oneBar_reads {}) hprobe'
  have hempty : (w₁.pciedevDevM 0).info = .empty := by
    rw [(hnew.of_wp upciedevInitModuleExp_wp rfl).2 0]
    rfl
  have hshapi : (shapiBoard 1).kind = .shapi := by decide
  have hversion : (w.pciedevDevM 0).info.deviceInfoList.shapiVersion = 1 := by
    rw [hleft, hshapi, BoardInfo.probed, addModules_eq]
    rfl
  have hplain : boardKind (mappedBars oneBar (fun _ => some 1) 0) ((({} : Outcome)).register 0) =
      .unknown := by
    decide
  have hshown := congrArg (fun s => s.devinfo.shapiVersion) ((sameAnswers_iff u 0 u' 0).mp h)
  rw [hu, hu', hplain, hempty] at hshown
  have hzero : (w.pciedevDevM 0).info.deviceInfoList.shapiVersion = 0 := hshown
  rw [hversion] at hzero
  exact absurd hzero (by decide)

end Upciedev
