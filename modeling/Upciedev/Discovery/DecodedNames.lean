import Upciedev.Discovery.Findings

/-!
# Names as clients are told

What a client is told of the name of a board, and of the name of a module that was just read.
-/
namespace Upciedev

open Foundations Program

variable {ε : Type} {E : Environment ε} {base : IoPtr} {regs : ℤ → UInt32} {dev : Entry}
  {w u : World ε}

theorem foldl_fill (m : ShapiModuleInfo) (modules : List ShapiModuleInfo)
    (info : PicmgShapiModuleInfo) :
    modules.foldl (fun acc m => if m.moduleNum = info.moduleNum then m.fill acc else acc)
      (m.fill info) =
      if ∀ m' ∈ modules, m'.moduleNum ≠ info.moduleNum then m.fill info else
        shapiModInfo modules info := by
  unfold shapiModInfo
  induction modules with
  | nil => simp
  | cons m' modules ih =>
    by_cases hnum : m'.moduleNum = info.moduleNum
    · have hover : m'.fill (m.fill info) = m'.fill info := rfl
      simp [hnum, hover]
    · simpa [hnum] using ih

/-- The number of the next module, if no record has it already. -/
def NextNumber (v : PciedevDev) (n : ℤ) : Prop :=
  n = v.shapiModuleNum + 1 ∧ ∀ m ∈ v.moduleInfoList, m.moduleNum ≠ n

/-- A module that was just read answers for its number, unless an older record has it. -/
theorem shapiModInfo_next {v : PciedevDev} {m : ShapiModuleInfo}
    (hm : m.moduleNum = v.shapiModuleNum + 1) (info : PicmgShapiModuleInfo) :
    (NextNumber v info.moduleNum → shapiModInfo (m :: v.moduleInfoList) info = m.fill info) ∧
      (¬ NextNumber v info.moduleNum →
        shapiModInfo (m :: v.moduleInfoList) info = shapiModInfo v.moduleInfoList info) := by
  have hcons : shapiModInfo (m :: v.moduleInfoList) info = v.moduleInfoList.foldl
      (fun acc m => if m.moduleNum = info.moduleNum then m.fill acc else acc)
      (if m.moduleNum = info.moduleNum then m.fill info else info) := rfl
  rw [hcons]
  constructor
  · rintro ⟨hnum, hnew⟩
    rw [if_pos (hm.trans hnum.symm), foldl_fill, if_pos hnew]
  · intro hother
    by_cases hnum : m.moduleNum = info.moduleNum
    · rw [if_pos hnum, foldl_fill, if_neg fun hnew => hother ⟨hnum.symm.trans hm, hnew⟩]
    · rw [if_neg hnum]
      rfl

/-- The name that a client is told of a board whose header was read over an old name, and of a
module whose header was read, is the longest prefix of the bytes of its registers without a blank or
a zero, and zeros behind it. Of the other modules it is told what it was told before. -/
theorem names_decoded (hregs : Reads E base regs) :
    (∀ {w u : World ε} {tr : Trace} {r : ℤ}, (w.pciedevDevM dev).memmoryBase 0 = base →
      boardKind base (regs 0) = .shapi → (w.pciedevDevM dev).deviceInfoList.fwName 12 = 0 →
      (pciedevGetBrdinfo dev).Run (driver E) w tr r u →
        ∀ x, (∃ v, DevinfoReply u dev v ∧ v.fwName = x) ↔
        x = decodedName [regs 0x18, regs 0x1C, regs 0x20]) ∧
    ∀ {w u : World ε} (off : ℤ) {tr : Trace} {r : ℤ}, IsModule regs off →
      (pciedevFillShapiModuleInfo dev ⟨base, off⟩).Run (driver E) w tr r u → ∀ info,
        (NextNumber (w.pciedevDevM dev) info.moduleNum →
          ∀ x, (∃ v, ModinfoReply u dev info v ∧ v.moduleName = x) ↔
            x = decodedName [regs (off + 0x10), regs (off + 0x14)]) ∧
        (¬ NextNumber (w.pciedevDevM dev) info.moduleNum →
          ∀ v, ModinfoReply u dev info v ↔ ModinfoReply w dev info v) := by
  constructor
  · intro w u tr r hbase hkind hlast hrun x
    obtain ⟨-, e, hu⟩ := hrun.of_wp (pciedevGetBrdinfo_wp (fun _ => hregs) hbase)
    rw [hkind] at hu
    have hdevice : (u.pciedevDevM dev).deviceInfoList =
        deviceInfoAt regs (w.pciedevDevM dev).deviceInfoList := by
      rw [hu]
      simp only [World.withEnv_pciedevDevM, World.updateDev_self]
      rfl
    have hname (padding : BitVec 24) : (shapiDevInfo (u.pciedevDevM dev) padding).fwName =
        decodedName [regs 0x18, regs 0x1C, regs 0x20] := by
      have hcopied : (shapiDevInfo (u.pciedevDevM dev) padding).fwName =
        strncpy (u.pciedevDevM dev).deviceInfoList.fwName := rfl
      rw [hcopied, hdevice]
      exact strncpy_nameWords [regs 0x18, regs 0x1C, regs 0x20] _ hlast
    constructor
    · rintro ⟨v, hv, rfl⟩
      obtain ⟨padding, rfl⟩ := (told_devinfo u dev v).mp hv
      exact hname padding
    · rintro rfl
      exact ⟨_, (told_devinfo u dev _).mpr ⟨0, rfl⟩, hname 0⟩
  · intro w u off tr r hmodule hrun info
    obtain ⟨-, hinfo, -⟩ := hrun.of_wp (fillShapiModuleInfo_header hregs hmodule)
    have hlist : (u.pciedevDevM dev).info.moduleInfoList = shapiModuleAt regs off
        ((w.pciedevDevM dev).shapiModuleNum + 1) :: (w.pciedevDevM dev).info.moduleInfoList :=
      congrArg BoardInfo.moduleInfoList hinfo
    have hsearch := shapiModInfo_next (v := w.pciedevDevM dev) (m := shapiModuleAt regs off
      ((w.pciedevDevM dev).shapiModuleNum + 1)) rfl info
    have htold (v : PicmgShapiModuleInfo) : ModinfoReply u dev info v ↔
        v = shapiModInfo (shapiModuleAt regs off ((w.pciedevDevM dev).shapiModuleNum + 1) ::
          (w.pciedevDevM dev).moduleInfoList) info :=
      (told_modinfo u dev info v).trans (by rw [hlist]; rfl)
    constructor
    · intro hnext x
      simp only [htold, hsearch.1 hnext, fill_shapiModuleAt, exists_eq_left]
      exact eq_comm
    · intro hother v
      rw [htold, hsearch.2 hother]
      exact (told_modinfo w dev info v).symm

/-- The firmware name `AB D`, and a module with the name `EFGHI`. -/
def namedBoard : Outcome :=
  { register := fun off =>
      if off = 0 then 0x53480001 else if off = 0x18 then 0x41422044 else if off = 0x100 then
        0x534D0001
      else if off = 0x110 then 0x45464748 else if off = 0x114 then 0x49000000 else 0 }

set_option maxRecDepth 8000 in
/-- The firmware name is read over twelve bytes of an older one. -/
theorem names_decoded_namedBoard : ∃ (w u u' : World Unit) (tr tr' : Trace) (r r' : ℤ),
    (w.pciedevDevM 0).deviceInfoList.fwName 11 = 0x5A ∧
    (pciedevGetBrdinfo 0).Run (driver namedBoard.environment) w tr r u ∧
    (∀ x, (∃ v, DevinfoReply u 0 v ∧ v.fwName = x) ↔
      x = ![0x41, 0x42, 0, 0, 0, 0, 0, 0, 0, 0, 0, 0, 0]) ∧
    (pciedevFillShapiModuleInfo 0 ⟨some 1, 0x100⟩).Run (driver namedBoard.environment) u tr' r' u' ∧
    ∀ info, info.moduleNum = 1 → ∀ x, (∃ v, ModinfoReply u' 0 info v ∧ v.moduleName = x) ↔
      x = ![0x45, 0x46, 0x47, 0x48, 0x49, 0, 0, 0, 0] := by
  obtain ⟨w, u, u', tr, tr', r, r', hbase, hname, hold, hrun, hempty, hnum, hrun'⟩ :
      ∃ (w u u' : World Unit) (tr tr' : Trace) (r r' : ℤ),
        (w.pciedevDevM 0).memmoryBase 0 = some 1 ∧
        (w.pciedevDevM 0).deviceInfoList.fwName 12 = 0 ∧
          (w.pciedevDevM 0).deviceInfoList.fwName 11 = 0x5A ∧
        (pciedevGetBrdinfo 0).Run (driver namedBoard.environment) w tr r u ∧
        (u.pciedevDevM 0).moduleInfoList = [] ∧ (u.pciedevDevM 0).shapiModuleNum = 0 ∧
        (pciedevFillShapiModuleInfo 0 ⟨some 1, 0x100⟩).Run (driver namedBoard.environment)
          u tr' r' u' :=
    ⟨.uniform { memmoryBase := fun _ => some 1
                deviceInfoList := { fwName := fun i => if i = 12 then 0 else 0x5A } }, _, _,
                  _, _, _, _,
      rfl, rfl, rfl, run_of_answers namedBoard.answers (fun _ _ _ _ h => h) rfl, rfl, rfl,
      run_of_answers namedBoard.answers (fun _ _ _ _ h => h) rfl⟩
  have hdecoded := @names_decoded _ _ _ _ 0 namedBoard.reads
  have hboard := hdecoded.1 hbase (by decide) hname hrun
  have hmodule := hdecoded.2 0x100 rfl hrun'
  have htext : (decodedName [namedBoard.register 0x18, namedBoard.register 0x1C,
      namedBoard.register 0x20] : Fin 13 → UInt8) = ![0x41, 0x42, 0, 0, 0, 0, 0, 0, 0, 0, 0, 0,
        0] := by
    decide
  have htext' : (decodedName [namedBoard.register (0x100 + 0x10),
      namedBoard.register (0x100 + 0x14)] : Fin 9 → UInt8) =
        ![0x45, 0x46, 0x47, 0x48, 0x49, 0, 0, 0, 0] := by
    decide
  rw [htext] at hboard
  rw [htext'] at hmodule
  refine ⟨w, u, u', tr, tr', r, r', hold, hrun, hboard, hrun', fun info hinfo => ?_⟩
  apply (hmodule info).1
  simp [NextNumber, hempty, hnum, hinfo]

end Upciedev
