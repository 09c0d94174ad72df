import Upciedev.Boards.Reuse
import Upciedev.Foundations.Layout

/-!
# Boards as their designers lay them out

A designer gives the header of a board and a list of modules or projects with their places. Laid out
in the registers of BAR 0, linked in the order of the list, they are found again by the probe, and
the clients are told what the designer gave.
-/
namespace Upciedev

open Foundations Program

variable {ε : Type} {E : Environment ε} {w u : World ε}

/-- The word with the given halves; the upper one is below `2 ^ 16`. -/
def packHalves (hi : UInt32) (lo : UInt16) : UInt32 := .ofNat (hi.toNat * 2 ^ 16 + lo.toNat)

theorem packHalves_high {hi : UInt32} (hhi : hi.toNat < 2 ^ 16) (lo : UInt16) :
    packHalves hi lo >>> 16 = hi := by
  have hlo := lo.toNat_lt
  apply UInt32.toNat.inj
  rw [packHalves, UInt32.toNat_shiftRight, Nat.shiftRight_eq_div_pow]
  simp only [UInt32.toNat_ofNat', UInt32.reduceToNat, Nat.reduceMod, Nat.reducePow]
  omega

theorem packHalves_low (hi : UInt32) (lo : UInt16) : packHalves hi lo &&& 0xFFFF = lo.toUInt32 := by
  have hlo := lo.toNat_lt
  apply UInt32.toNat.inj
  have hmask : (0xFFFF : UInt32).toNat = 2 ^ 16 - 1 := rfl
  rw [packHalves, UInt32.toNat_and, hmask, Nat.and_two_pow_sub_one_eq_mod]
  simp only [UInt32.toNat_ofNat', UInt16.toNat_toUInt32]
  omega

/-- The word of four characters, the first one in the highest byte. -/
def packWord (c : ℕ → UInt8) : UInt32 :=
  .ofNat ((c 0).toNat * 2 ^ 24 + (c 1).toNat * 2 ^ 16 + (c 2).toNat * 2 ^ 8 + (c 3).toNat)

theorem nameByte_packWord (c : ℕ → UInt8) {i : ℕ} (hi : i < 4) : nameByte (packWord c) i = c i := by
  have h0 := (c 0).toNat_lt
  have h1 := (c 1).toNat_lt
  have h2 := (c 2).toNat_lt
  have h3 := (c 3).toNat_lt
  apply UInt8.toNat.inj
  rw [nameByte, packWord, UInt32.toNat_toUInt8, UInt32.toNat_shiftRight, Nat.shiftRight_eq_div_pow]
  simp only [UInt32.toNat_ofNat']
  interval_cases i <;> simp <;> omega

/-- A name for `n` registers; none of its characters ends it. -/
structure RegisterName (n : ℕ) where
  text : List UInt8
  fits : text.length ≤ 4 * n
  isName : ∀ c ∈ text, isNameChar c = true

namespace RegisterName

variable {n : ℕ} (name : RegisterName n)

def word (k : ℕ) : UInt32 := packWord fun i => name.text.getD (4 * k + i) 0

/-- The registers of the name from the given one on. -/
def words : ℕ → ℕ → List UInt32
  | _, 0 => []
  | k, m + 1 => name.word k :: words (k + 1) m

def buffer {m : ℕ} (i : Fin m) : UInt8 := name.text.getD i 0

theorem nameBytes_words (k m j : ℕ) :
    (nameBytes (name.words k m)).getD j 0 = if j < 4 * m then
      name.text.getD (4 * k + j) 0 else 0 := by
  induction m generalizing k j with
  | zero => simp [words, nameBytes]
  | succ m ih =>
    rw [words, nameBytes_cons]
    by_cases hj : j < 4
    · rw [if_pos hj, if_pos (by omega), word, nameByte_packWord _ hj]
    · have hbehind : 4 * (k + 1) + (j - 4) = 4 * k + j := by omega
      rw [if_neg hj, ih, hbehind]
      by_cases hin : j < 4 * (m + 1)
      · rw [if_pos hin, if_pos (by omega)]
      · rw [if_neg hin, if_neg (by omega)]

theorem nameBytes_eq (j : ℕ) : (nameBytes (name.words 0 n)).getD j 0 = name.text.getD j 0 := by
  rw [nameBytes_words]
  by_cases hj : j < 4 * n
  · rw [if_pos hj, Nat.mul_zero, Nat.zero_add]
  · rw [if_neg hj, List.getD_eq_default _ _ (name.fits.trans (not_lt.mp hj))]

theorem decodedName_words {m : ℕ} :
    (decodedName (name.words 0 n) : Fin m → UInt8) = name.buffer := by
  funext i
  rw [decodedName_eq]
  simp only [nameBytes_eq, buffer]
  by_cases hi : i.val < name.text.length
  · apply if_pos
    intro j hj
    rw [List.getD_eq_getElem _ _ (hj.trans_lt hi)]
    exact name.isName _ (List.getElem_mem _)
  · rw [List.getD_eq_default _ _ (not_lt.mp hi), ite_self]

end RegisterName

/-- How the headers of a kind of boards are written: the first one with the place of the first
record, and a record with the place of the next one. -/
structure HeaderFormat (δ ρ : Type) where
  device : δ → UInt32 → List UInt32
  record : ρ → UInt32 → List UInt32
  device_ne d x : device d x ≠ []
  record_ne r x : record r x ≠ []

section
variable {δ ρ : Type}

def HeaderFormat.records (F : HeaderFormat δ ρ) (l : List (UInt32 × ρ)) : List (Block UInt32) :=
  linked (fun a => (a.toNat : ℤ)) F.record 0 l

def HeaderFormat.blocks (F : HeaderFormat δ ρ) (d : δ) (l : List (UInt32 × ρ)) :
    List (Block UInt32) :=
  ⟨0, F.device d (firstOf 0 l)⟩ :: F.records l

/-- A board as it is designed, with whatever else there is in its registers. The headers do not
overlap, and the records are within the reach of a C `int`. -/
structure BoardLayout (F : HeaderFormat δ ρ) where
  device : δ
  records : List (UInt32 × ρ)
  other : ℤ → UInt32
  apart : (F.blocks device records).Pairwise (Block.Apart 4)
  inReach : ∀ p ∈ records, p.1.toNat < 2 ^ 31

variable {F : HeaderFormat δ ρ} (board : BoardLayout F)

namespace BoardLayout

def first : UInt32 := firstOf 0 board.records

def image : ℤ → UInt32 := layOut 4 board.other (F.blocks board.device board.records)

/-- The headers of the records, as the search of the probe notes them. -/
def found : List (Bar × ℤ) := board.records.map fun p => (0, (p.1.toNat : ℤ))

theorem image_device : Holds 4 board.image ⟨0, F.device board.device board.first⟩ :=
  layOut_holds (by decide) board.other board.apart List.mem_cons_self

theorem image_records {blk : Block UInt32} (h : blk ∈ F.records board.records) :
    Holds 4 board.image blk :=
  layOut_holds (by decide) board.other board.apart (List.mem_cons_of_mem _ h)

theorem place_pos {p : UInt32 × ρ} (hp : p ∈ board.records) : 0 < p.1.toNat := by
  obtain ⟨k, hk⟩ := List.mem_iff_getElem?.mp hp
  have hapart := (List.pairwise_cons.mp board.apart).1 _
    (mem_linked (fun a : UInt32 => (a.toNat : ℤ)) F.record 0 hk)
  have hdevice := List.length_pos_of_ne_nil (F.device_ne board.device (firstOf 0 board.records))
  have hrecord :=
    List.length_pos_of_ne_nil (F.record_ne p.2 (firstOf 0 (board.records.drop (k + 1))))
  simp only [Block.Apart, Block.stop] at hapart
  omega

end BoardLayout

theorem visits_linked {isHeader : ℤ → Prop} {next : ℤ → UInt32} {regs : ℤ → UInt32}
    (hheader : ∀ a r x, Holds 4 regs ⟨a, F.record r x⟩ → isHeader a ∧ next a = x)
    {l : List (UInt32 × ρ)} (hplace : ∀ p ∈ l, 0 < p.1.toNat ∧ p.1.toNat < 2 ^ 31)
    (hholds : ∀ blk ∈ F.records l, Holds 4 regs blk) :
    Visits isHeader next (cInt (firstOf 0 l)) (l.map fun p => (p.1.toNat : ℤ)) := by
  induction l with
  | nil => exact .zero
  | cons p l ih =>
    obtain ⟨hpos, hlt⟩ := hplace p List.mem_cons_self
    obtain ⟨hthis, hnext⟩ := hheader _ _ _ (hholds _ List.mem_cons_self)
    rw [List.map_cons, firstOf, cInt_of_lt hlt]
    apply Visits.header
    · exact_mod_cast hpos.ne'
    · exact hthis
    · rw [hnext]
      apply ih
      · exact fun q hq => hplace q (List.mem_cons_of_mem _ hq)
      · exact fun blk hblk => hholds blk (List.mem_cons_of_mem _ hblk)

theorem scans_none {found : Bar → Prop} {bars : List Bar} (h : ∀ i ∈ bars, ¬ found i) :
    Scans found bars [] := by
  induction bars with
  | nil => exact .nil
  | cons i bars ih =>
    apply Scans.other
    · exact h i List.mem_cons_self
    · exact ih fun j hj => h j (List.mem_cons_of_mem _ hj)

theorem BoardLayout.finds {h : Headers}
    (hheader : ∀ a r x, Holds 4 board.image ⟨a, F.record r x⟩ → h.isHeader 0 a ∧ h.next 0 a = x)
    (hscan : board.records = [] → ∀ i ∈ scannedBars, h.mapped i → ¬ h.isHeader i 0) :
    h.Finds (cInt board.first) board.found := by
  constructor
  · intro hzero
    cases hrecords : board.records with
    | nil =>
      rw [found, hrecords]
      exact scans_none fun i hi hfound => hscan hrecords i hi hfound.1 hfound.2
    | cons p l =>
      have hpos := board.place_pos (p := p) (by simp [hrecords])
      rw [first, hrecords, cInt_eq_zero] at hzero
      have hnone : p.1.toNat = 0 := congrArg UInt32.toNat hzero
      omega
  · intro _
    refine ⟨_, visits_linked hheader (fun p hp => ⟨board.place_pos hp, board.inReach p hp⟩)
      fun blk hblk => board.image_records hblk, ?_⟩
    rw [List.map_map]
    rfl

end

/-- The header of a module as it is designed, without its links. -/
structure ShapiModule where
  shapiVersion : UInt16
  shapiModuleFwIds : UInt32
  shapiModuleVersion : UInt32
  moduleName : RegisterName 2
  shapiModuleCap : UInt32
  shapiModuleStatus : UInt32
  shapiModuleControl : UInt32
  shapiIrqId : UInt32
  shapiIrqFlagClear : UInt32
  shapiIrqMask : UInt32
  shapiIrqFlag : UInt32
  shapiIrqActive : UInt32

/-- The header of a board as it is designed, without the place of its first module. -/
structure ShapiDevice where
  shapiVersion : UInt16
  shapiHwIds : UInt32
  shapiFwIds : UInt32
  shapiFwVersion : UInt32
  shapiFwTimestamp : UInt32
  fwName : RegisterName 3
  shapiDeviceCap : UInt32
  shapiDeviceStatus : UInt32
  shapiDeviceControl : UInt32
  shapiIrqMask : UInt32
  shapiIrqFlag : UInt32
  shapiIrqActive : UInt32
  shapiScratchRegister : UInt32

namespace ShapiModule

variable (m : ShapiModule) (next : UInt32)

/-- The registers of the module, with the place of the next one. -/
def words : List UInt32 :=
  [packHalves shapiMagicModuleNum m.shapiVersion, next, m.shapiModuleFwIds, m.shapiModuleVersion,
    m.moduleName.word 0, m.moduleName.word 1, m.shapiModuleCap, m.shapiModuleStatus,
      m.shapiModuleControl,
    m.shapiIrqId, m.shapiIrqFlagClear, m.shapiIrqMask, m.shapiIrqFlag, m.shapiIrqActive]

/-- What a client is told that asks for the module. -/
def reply (info : PicmgShapiModuleInfo) : PicmgShapiModuleInfo :=
  { info with
    shapiVersion := m.shapiVersion.toUInt32
    shapiNextModuleAddress := next
    shapiModuleFwIds := m.shapiModuleFwIds
    shapiModuleVersion := m.shapiModuleVersion
    shapiModuleName := ![m.moduleName.word 0, m.moduleName.word 1]
    shapiModuleCap := m.shapiModuleCap
    shapiModuleStatus := m.shapiModuleStatus
    shapiModuleControl := m.shapiModuleControl
    shapiIrqId := m.shapiIrqId
    shapiIrqFlagClear := m.shapiIrqFlagClear
    shapiIrqMask := m.shapiIrqMask
    shapiIrqFlag := m.shapiIrqFlag
    shapiIrqActive := m.shapiIrqActive
    moduleName := m.moduleName.buffer }

variable {m next} {regs : ℤ → UInt32} {a : ℤ} (h : Holds 4 regs ⟨a, m.words next⟩)
include h

theorem isModule_of_holds : IsModule regs a ∧ nextModule regs a = next := by
  have hmagic : regs (a + 0) = packHalves shapiMagicModuleNum m.shapiVersion := h.read (i := 0) rfl
  have hnext : regs (a + 4) = next := h.read (i := 1) rfl
  rw [add_zero] at hmagic
  constructor
  · rw [IsModule, hmagic, packHalves_high (by decide)]
  · exact hnext

theorem moduleReply_of_holds (info : PicmgShapiModuleInfo) :
    moduleReply regs a info = m.reply next info := by
  have hword : regs (a + 0x00) = packHalves shapiMagicModuleNum m.shapiVersion :=
    h.read (i := 0) rfl
  have hnext : regs (a + 0x04) = next := h.read (i := 1) rfl
  have hids : regs (a + 0x08) = m.shapiModuleFwIds := h.read (i := 2) rfl
  have hversion : regs (a + 0x0C) = m.shapiModuleVersion := h.read (i := 3) rfl
  have hname₀ : regs (a + 0x10) = m.moduleName.word 0 := h.read (i := 4) rfl
  have hname₁ : regs (a + 0x14) = m.moduleName.word 1 := h.read (i := 5) rfl
  have hcap : regs (a + 0x18) = m.shapiModuleCap := h.read (i := 6) rfl
  have hstatus : regs (a + 0x1C) = m.shapiModuleStatus := h.read (i := 7) rfl
  have hcontrol : regs (a + 0x20) = m.shapiModuleControl := h.read (i := 8) rfl
  have hirqId : regs (a + 0x24) = m.shapiIrqId := h.read (i := 9) rfl
  have hclear : regs (a + 0x28) = m.shapiIrqFlagClear := h.read (i := 10) rfl
  have hmask : regs (a + 0x2C) = m.shapiIrqMask := h.read (i := 11) rfl
  have hflag : regs (a + 0x30) = m.shapiIrqFlag := h.read (i := 12) rfl
  have hactive : regs (a + 0x34) = m.shapiIrqActive := h.read (i := 13) rfl
  have hname : (decodedName [regs (a + 0x10), regs (a + 0x14)] : Fin 9 → UInt8) =
      m.moduleName.buffer := by
    have hwords : [regs (a + 0x10), regs (a + 0x14)] = m.moduleName.words 0 2 := by
      simp [hname₀, hname₁, RegisterName.words]
    rw [hwords, RegisterName.decodedName_words]
  rw [moduleReply, hname]
  simp only [reply, hword, packHalves_low, hnext, hids, hversion, hname₀, hname₁, hcap,
    hstatus, hcontrol, hirqId, hclear, hmask, hflag, hactive]

end ShapiModule

namespace ShapiDevice

variable (d : ShapiDevice) (first : UInt32)

/-- The registers of the board, with the place of its first module. -/
def words : List UInt32 :=
  [packHalves shapiMagicDeviceNum d.shapiVersion, first, d.shapiHwIds, d.shapiFwIds,
    d.shapiFwVersion,
    d.shapiFwTimestamp, d.fwName.word 0, d.fwName.word 1, d.fwName.word 2, d.shapiDeviceCap,
    d.shapiDeviceStatus, d.shapiDeviceControl, d.shapiIrqMask, d.shapiIrqFlag, d.shapiIrqActive,
    d.shapiScratchRegister]

def reply (modules : ℤ) (padding : BitVec 24) : PicmgShapiDeviceInfo :=
  { shapiVersion := d.shapiVersion.toUInt32
    shapiFirstModuleAddress := first
    shapiHwIds := d.shapiHwIds
    shapiFwIds := d.shapiFwIds
    shapiFwVersion := d.shapiFwVersion
    shapiFwTimestamp := d.shapiFwTimestamp
    shapiFwName := ![d.fwName.word 0, d.fwName.word 1, d.fwName.word 2]
    shapiDeviceCap := d.shapiDeviceCap
    shapiDeviceStatus := d.shapiDeviceStatus
    shapiDeviceControl := d.shapiDeviceControl
    shapiIrqMask := d.shapiIrqMask
    shapiIrqFlag := d.shapiIrqFlag
    shapiIrqActive := d.shapiIrqActive
    shapiScratchRegister := d.shapiScratchRegister
    fwName := d.fwName.buffer
    padding
    numberOfModules := modules }

variable {d first} {regs : ℤ → UInt32} (h : Holds 4 regs ⟨0, d.words first⟩)
include h

theorem magic_of_holds : regs 0 = packHalves shapiMagicDeviceNum d.shapiVersion :=
  h.read (i := 0) rfl

theorem boardKind_of_holds {base : IoPtr} (hbase : base ≠ none) :
    boardKind base (regs 0) = .shapi := by
  have hmagic : regs 0 >>> 16 = shapiMagicDeviceNum := by
    rw [magic_of_holds h, packHalves_high (by decide)]
  have hdesy : ¬ (regs 0 = asciiBoardMagicNum ∨ regs 0 = asciiBoardMagicNumL) := by
    rintro (hword | hword) <;> rw [hword] at hmagic <;> exact absurd hmagic (by decide)
  rw [boardKind, if_neg hbase, if_neg hdesy, if_pos hmagic]

theorem reply_of_holds {v : PciedevDev} {old : ShapiDeviceInfo}
    (hdevice : v.deviceInfoList = deviceInfoAt regs old) (hlast : old.fwName 12 = 0)
    (padding : BitVec 24) : shapiDevInfo v padding =
      { d.reply first v.shapiModuleNum padding with shapiHwIds := d.shapiFwIds } := by
  have hword : regs 0x00 = packHalves shapiMagicDeviceNum d.shapiVersion := h.read (i := 0) rfl
  have hfirst : regs 0x04 = first := h.read (i := 1) rfl
  have hfwIds : regs 0x0C = d.shapiFwIds := h.read (i := 3) rfl
  have hversion : regs 0x10 = d.shapiFwVersion := h.read (i := 4) rfl
  have htimestamp : regs 0x14 = d.shapiFwTimestamp := h.read (i := 5) rfl
  have hname₀ : regs 0x18 = d.fwName.word 0 := h.read (i := 6) rfl
  have hname₁ : regs 0x1C = d.fwName.word 1 := h.read (i := 7) rfl
  have hname₂ : regs 0x20 = d.fwName.word 2 := h.read (i := 8) rfl
  have hcap : regs 0x24 = d.shapiDeviceCap := h.read (i := 9) rfl
  have hstatus : regs 0x28 = d.shapiDeviceStatus := h.read (i := 10) rfl
  have hcontrol : regs 0x2C = d.shapiDeviceControl := h.read (i := 11) rfl
  have hmask : regs 0x30 = d.shapiIrqMask := h.read (i := 12) rfl
  have hflag : regs 0x34 = d.shapiIrqFlag := h.read (i := 13) rfl
  have hactive : regs 0x38 = d.shapiIrqActive := h.read (i := 14) rfl
  have hscratch : regs 0x3C = d.shapiScratchRegister := h.read (i := 15) rfl
  have hname : strncpy (deviceInfoAt regs old).fwName = d.fwName.buffer := by
    have hdecoded :
        strncpy (deviceInfoAt regs old).fwName = decodedName [regs 0x18, regs 0x1C, regs 0x20] :=
      strncpy_nameWords [regs 0x18, regs 0x1C, regs 0x20] old.fwName hlast
    have hwords : [regs 0x18, regs 0x1C, regs 0x20] = d.fwName.words 0 3 := by
      simp [hname₀, hname₁, hname₂, RegisterName.words]
    rw [hdecoded, hwords, RegisterName.decodedName_words]
  rw [shapiDevInfo, hdevice, hname]
  simp only [deviceInfoAt, reply, hword, packHalves_low, hfirst, hfwIds, hversion, htimestamp,
    hname₀, hname₁, hname₂, hcap, hstatus, hcontrol, hmask, hflag, hactive, hscratch]

end ShapiDevice

def shapiFormat : HeaderFormat ShapiDevice ShapiModule where
  device := ShapiDevice.words
  record := ShapiModule.words
  device_ne _ _ := List.cons_ne_nil _ _
  record_ne _ _ := List.cons_ne_nil _ _

abbrev ShapiBoard := BoardLayout shapiFormat

namespace ShapiBoard

variable (board : ShapiBoard)

/-- What a client is told that asks for a module by its place in the list. -/
def modInfo (info : PicmgShapiModuleInfo) : PicmgShapiModuleInfo :=
  if 1 ≤ info.moduleNum then
    match board.records[info.moduleNum.toNat - 1]? with
    | some p => p.2.reply (firstOf 0 (board.records.drop info.moduleNum.toNat)) info
    | none => info
  else info

theorem modInfoReply_image (info : PicmgShapiModuleInfo) :
    modInfoReply board.image (board.records.map Prod.fst) info = board.modInfo info := by
  rw [modInfoReply, modInfo, List.length_map]
  by_cases hfirst : 1 ≤ info.moduleNum
  · have hindex : (info.moduleNum - 1).toNat = info.moduleNum.toNat - 1 := by omega
    have hsucc : info.moduleNum.toNat - 1 + 1 = info.moduleNum.toNat := by omega
    rw [if_pos hfirst, hindex]
    by_cases hlast : info.moduleNum ≤ board.records.length
    · have hlt : info.moduleNum.toNat - 1 < board.records.length := by omega
      have hget := List.getElem?_eq_getElem hlt
      have hblock := mem_linked (fun a : UInt32 => (a.toNat : ℤ)) shapiFormat.record 0 hget
      rw [hsucc] at hblock
      rw [if_pos ⟨hfirst, hlast⟩, hget, List.getD_eq_getElem _ _ (by simpa using hlt),
        List.getElem_map]
      exact ShapiModule.moduleReply_of_holds (board.image_records hblock) info
    · have hnone : board.records[info.moduleNum.toNat - 1]? = none :=
        List.getElem?_eq_none (by omega)
      rw [if_neg fun h => hlast h.2, hnone]
  · rw [if_neg hfirst, if_neg fun h => hfirst h.1]

theorem recordsOf_modules (regs : Bar → ℤ → UInt32) (k : ℤ) (l : List (UInt32 × ShapiModule)) :
    recordsOf regs k (l.map fun p => ((0 : Bar), (p.1.toNat : ℤ))) =
      moduleRecords (regs 0) k (l.map Prod.fst) := by
  induction l generalizing k with
  | nil => rfl
  | cons p l ih => exact congrArg (_ :: ·) (ih (k + 1))

end ShapiBoard

section
variable {dev : PciDev} {b : Entry} {res : Bar → BarResource} {map : Bar → IoPtr}
  {regs : Bar → ℤ → UInt32} {fuel : ℕ} {n : ℤ} {tr : Trace}

/-- After the probe of a board that is laid out as designed, a client that asks for a module by its
place in the list is told what the designer gave for it, and so is a client that asks for the board,
but for the hardware ids: it is told the firmware ids instead, and they are right in the record of
the driver only. -/
theorem shapi_board_read_back (board : ShapiBoard) (hbars : Bars E dev res map)
    (hregs : ∀ i, mappedBars res map i ≠ none → Reads E (mappedBars res map i) (regs i))
    (hmapped : mappedBars res map 0 ≠ none) (himage : regs 0 = board.image)
    (hscan : board.records = [] → ∀ i ∈ scannedBars, mappedBars res map i ≠ none →
      ¬ IsModule (regs i) 0)
    (hempty : (w.pciedevDevM b).moduleInfoList = [])
    (hlast : (w.pciedevDevM b).deviceInfoList.fwName 12 = 0)
    (hrun : (pciedevProbeExp fuel dev n).Run (driver E) w tr (0, b.val) u) :
    (∀ info v, Told u b .getShapiModinfo (fun tr => Takes .picmgShapiModuleInfo info tr ∧
      Sends .picmgShapiModuleInfo v tr) ↔ v = board.modInfo info) ∧
    (∀ v, Told u b .getShapiDevinfo (Sends .picmgShapiDeviceInfo v) ↔
      v = { board.device.reply board.first board.records.length v.padding with
        shapiHwIds := board.device.shapiFwIds }) ∧
    (u.pciedevDevM b).deviceInfoList.shapiHwIds = board.device.shapiHwIds := by
  have hheader : Holds 4 (regs 0) ⟨0, board.device.words board.first⟩ := himage ▸ board.image_device
  have hfirst : regs 0 0x04 = board.first := hheader.read (i := 1) rfl
  have hkind := ShapiDevice.boardKind_of_holds hheader hmapped
  have hfinds : BoardFinds (fun i => mappedBars res map i ≠ none) regs board.found .shapi := by
    rw [BoardFinds, hfirst]
    apply board.finds
    · rw [← himage]
      exact fun _ _ _ h => ShapiModule.isModule_of_holds h
    · exact hscan
  obtain ⟨l, hl, hinfo⟩ := pciedevProbeExp_info hbars hregs hrun
  rw [hkind] at hl hinfo
  obtain rfl := hl.unique hfinds
  rw [BoardInfo.probed, addModules_eq] at hinfo
  have hlist : (u.pciedevDevM b).info.moduleInfoList =
      (moduleRecords board.image 1 (board.records.map Prod.fst)).reverse := by
    have hrecords : (u.pciedevDevM b).info.moduleInfoList =
        (recordsOf regs (0 + 1) board.found).reverse ++ (w.pciedevDevM b).moduleInfoList :=
      congrArg BoardInfo.moduleInfoList hinfo
    rw [hrecords, zero_add, BoardLayout.found, ShapiBoard.recordsOf_modules, himage, hempty,
      List.append_nil]
  have hdevice :
      (u.pciedevDevM b).deviceInfoList = deviceInfoAt (regs 0) (w.pciedevDevM b).deviceInfoList :=
    congrArg BoardInfo.deviceInfoList hinfo
  have hnum : (u.pciedevDevM b).shapiModuleNum = board.records.length := by
    have hcount := congrArg BoardInfo.shapiModuleNum hinfo
    simpa [PciedevDev.info, BoardLayout.found] using hcount
  have hdevinfo (padding : BitVec 24) := ShapiDevice.reply_of_holds hheader hdevice hlast padding
  rw [hnum] at hdevinfo
  refine ⟨fun info v => ?_, fun v => (told_devinfo u b v).trans ⟨?_, fun hv => ?_⟩, ?_⟩
  · rw [told_modinfo, hlist, shapiModInfo_moduleRecords, board.modInfoReply_image]
  · rintro ⟨padding, rfl⟩
    exact hdevinfo padding
  · exact ⟨v.padding, hv.trans (hdevinfo v.padding).symm⟩
  · rw [hdevice]
    exact hheader.read (i := 2) rfl

/-- A board with the name `AB`, and the modules `C` at 0x100 and `D`, the second one, at 0x80. -/
def namedLayout : ShapiBoard where
  device := ⟨1, 2, 3, 4, 5, ⟨[0x41, 0x42], by decide, List.all_eq_true.mp rfl⟩, 0, 0, 0, 0, 0, 0, 0⟩
  records := [
    (0x100, ⟨1, 6, 7, ⟨[0x43], by decide, List.all_eq_true.mp rfl⟩, 0, 0, 0, 1, 0, 0, 0, 0⟩),
    (0x80, ⟨1, 8, 9, ⟨[0x44], by decide, List.all_eq_true.mp rfl⟩, 0, 0, 0, 2, 0, 0, 0, 0⟩)]
  other := fun _ => 0xFFFFFFFF
  apart := by decide
  inReach := by decide

set_option maxRecDepth 8000 in
theorem shapi_board_read_back_named : ∃ (tr₀ tr : Trace) (w u : World Unit),
    upciedevInitModuleExp.Run (driver (Outcome.environment { register := namedLayout.image }))
      (.uniform {}) tr₀ 0 w ∧
    (pciedevProbeExp 3 0 0).Run
      (driver (Outcome.environment { register := namedLayout.image })) w tr
      (0, (0 : Entry).val) u ∧
    (∀ info v, Told u 0 .getShapiModinfo (fun tr => Takes .picmgShapiModuleInfo info tr ∧
      Sends .picmgShapiModuleInfo v tr) ↔ v = namedLayout.modInfo info) ∧
    ∀ v, Told u 0 .getShapiDevinfo (Sends .picmgShapiDeviceInfo v) ↔
      v = { namedLayout.device.reply 0x100 2 v.padding with shapiHwIds := 3 } := by
  obtain ⟨tr₀, tr, w, u, hinit, hprobe, hempty, hlast⟩ : ∃ (tr₀ tr : Trace) (w u : World Unit),
      upciedevInitModuleExp.Run (driver (Outcome.environment { register := namedLayout.image }))
        (.uniform {}) tr₀ 0 w ∧
      (pciedevProbeExp 3 0 0).Run
        (driver (Outcome.environment { register := namedLayout.image })) w tr
        (0, (0 : Entry).val) u ∧
      (w.pciedevDevM 0).moduleInfoList = [] ∧ (w.pciedevDevM 0).deviceInfoList.fwName 12 = 0 :=
    ⟨_, _, _, _,
      run_of_answers (Outcome.answers { register := namedLayout.image }) (fun _ _ _ _ h => h) rfl,
      run_of_answers (Outcome.answers { register := namedLayout.image }) (fun _ _ _ _ h => h) rfl,
        rfl, rfl⟩
  have htold :=
    shapi_board_read_back namedLayout (Outcome.bars _ 0) (oneBar_reads _) (by decide) rfl
    (fun hnone => absurd hnone (by decide)) hempty hlast hprobe
  exact ⟨tr₀, tr, w, u, hinit, hprobe, htold.1, htold.2.1⟩

/-- The header of a project as it is designed, without its link; the driver reads no reset
register. -/
structure DesyProject where
  pciedevProjId : UInt32
  pciedevProjVersion : UInt32
  pciedevProjDate : UInt32
  pciedevProjReserved : UInt32
  pciedevProjReset : UInt32

/-- The header of a board as it is designed, without the place of its first project. -/
structure DesyDevice where
  magic : UInt32
  isMagic : magic = asciiBoardMagicNum ∨ magic = asciiBoardMagicNumL
  pciedevBoardId : UInt32
  pciedevBoardVersion : UInt32
  pciedevBoardDate : UInt32
  pciedevHwVersion : UInt32
  pciedevBoardReset : UInt32

namespace DesyProject

variable (p : DesyProject) (next : UInt32)

/-- The registers of the project, with the place of the next one. -/
def words : List UInt32 :=
  [asciiProjMagicNum, p.pciedevProjId, p.pciedevProjVersion, p.pciedevProjDate,
    p.pciedevProjReserved, p.pciedevProjReset, next]

def record : PciedevPrjInfo :=
  { pciedevProjId := p.pciedevProjId
    pciedevProjVersion := p.pciedevProjVersion
    pciedevProjDate := p.pciedevProjDate
    pciedevProjReserved := p.pciedevProjReserved
    pciedevProjNext := next }

variable {p next} {regs : ℤ → UInt32} {a : ℤ} (h : Holds 4 regs ⟨a, p.words next⟩)
include h

theorem isProject_of_holds : IsProject regs a ∧ nextProject regs a = next := by
  have hmagic : regs (a + 0) = asciiProjMagicNum := h.read (i := 0) rfl
  have hnext : regs (a + 0x18) = next := h.read (i := 6) rfl
  rw [add_zero] at hmagic
  exact ⟨hmagic, hnext⟩

theorem record_of_holds : pciedevPrjAt regs a = p.record next := by
  have hid : regs (a + 0x04) = p.pciedevProjId := h.read (i := 1) rfl
  have hversion : regs (a + 0x08) = p.pciedevProjVersion := h.read (i := 2) rfl
  have hdate : regs (a + 0x0C) = p.pciedevProjDate := h.read (i := 3) rfl
  have hreserved : regs (a + 0x10) = p.pciedevProjReserved := h.read (i := 4) rfl
  have hnext : regs (a + 0x18) = next := h.read (i := 6) rfl
  simp only [pciedevPrjAt, record, hid, hversion, hdate, hreserved, hnext]

end DesyProject

namespace DesyDevice

variable (d : DesyDevice) (first : UInt32)

/-- The registers of the board, with the place of its first project. -/
def words : List UInt32 :=
  [d.magic, d.pciedevBoardId, d.pciedevBoardVersion, d.pciedevBoardDate, d.pciedevHwVersion,
    d.pciedevBoardReset, first]

/-- What the proc file shows of the header; the place of the first project is gone once it was
followed. -/
def record (reserved : UInt32) : PciedevBrdInfo :=
  { pciedevBoardId := d.pciedevBoardId
    pciedevBoardVersion := d.pciedevBoardVersion
    pciedevBoardDate := d.pciedevBoardDate
    pciedevHwVersion := d.pciedevHwVersion
    pciedevBoardReserved := reserved
    pciedevProjNext := 0 }

variable {d first} {regs : ℤ → UInt32} (h : Holds 4 regs ⟨0, d.words first⟩)
include h

theorem boardKind_of_holds {base : IoPtr} (hbase : base ≠ none) :
    boardKind base (regs 0) = .desy := by
  have hmagic : regs 0 = d.magic := h.read (i := 0) rfl
  rw [boardKind, if_neg hbase, hmagic, if_pos d.isMagic]

theorem record_of_holds (old : PciedevBrdInfo) :
    { brdInfoAt regs old with pciedevProjNext := 0 } = d.record old.pciedevBoardReserved := by
  have hid : regs 0x04 = d.pciedevBoardId := h.read (i := 1) rfl
  have hversion : regs 0x08 = d.pciedevBoardVersion := h.read (i := 2) rfl
  have hdate : regs 0x0C = d.pciedevBoardDate := h.read (i := 3) rfl
  have hhw : regs 0x10 = d.pciedevHwVersion := h.read (i := 4) rfl
  simp only [brdInfoAt, record, hid, hversion, hdate, hhw]

end DesyDevice

def desyFormat : HeaderFormat DesyDevice DesyProject where
  device := DesyDevice.words
  record := DesyProject.words
  device_ne _ _ := List.cons_ne_nil _ _
  record_ne _ _ := List.cons_ne_nil _ _

abbrev DesyBoard := BoardLayout desyFormat

/-- The records of a list of projects, in its order. -/
def linkedRecords : List (UInt32 × DesyProject) → List PciedevPrjInfo
  | [] => []
  | p :: rest => p.2.record (firstOf 0 rest) :: linkedRecords rest

theorem pciedevPrjAt_linked {regs : ℤ → UInt32} {l : List (UInt32 × DesyProject)}
    (hholds : ∀ blk ∈ desyFormat.records l, Holds 4 regs blk) :
    (l.map fun p => pciedevPrjAt regs p.1.toNat) = linkedRecords l := by
  induction l with
  | nil => rfl
  | cons p l ih =>
    have hthis := DesyProject.record_of_holds (hholds _ List.mem_cons_self)
    rw [List.map_cons, linkedRecords, hthis, ih fun blk hblk =>
      hholds blk (List.mem_cons_of_mem _ hblk)]

/-- After the probe of a board that is laid out as designed, a client that asks for the firmware is
told the version of the board, and the proc file shows the header and the projects, the last one
first. -/
theorem desy_board_read_back (board : DesyBoard) (hbars : Bars E dev res map)
    (hregs : ∀ i, mappedBars res map i ≠ none → Reads E (mappedBars res map i) (regs i))
    (hmapped : mappedBars res map 0 ≠ none) (himage : regs 0 = board.image)
    (hscan : board.records = [] → ∀ i ∈ scannedBars, mappedBars res map i ≠ none →
      ¬ IsProject (regs i) 0)
    (hempty : (w.pciedevDevM b).prjInfoList = [])
    (hrun : (pciedevProbeExp fuel dev n).Run (driver E) w tr (0, b.val) u) :
    (∀ x, (∃ v : DeviceIoctrlData,
      Told u b .firmwareVersion (Sends .deviceIoctrlData v) ∧ v.data = x) ↔
      x = board.device.pciedevBoardVersion) ∧
    (pciedevProcShow u.cdev (u.pciedevDevM b)).board =
      (board.device.record (w.pciedevDevM b).brdInfoList.pciedevBoardReserved,
        (board.records.length : ℤ), (linkedRecords board.records).reverse) := by
  have hheader : Holds 4 (regs 0) ⟨0, board.device.words board.first⟩ := himage ▸ board.image_device
  have hfirst : regs 0 0x18 = board.first := hheader.read (i := 6) rfl
  have hkind := DesyDevice.boardKind_of_holds hheader hmapped
  have hfinds : BoardFinds (fun i => mappedBars res map i ≠ none) regs board.found .desy := by
    rw [BoardFinds, hfirst]
    apply board.finds
    · rw [← himage]
      exact fun _ _ _ h => DesyProject.isProject_of_holds h
    · exact hscan
  obtain ⟨l, hl, hinfo⟩ := pciedevProbeExp_info hbars hregs hrun
  rw [hkind] at hl hinfo
  obtain rfl := hl.unique hfinds
  rw [BoardInfo.probed, addProjects_eq] at hinfo
  have hbrd : (u.pciedevDevM b).info.brdInfoList =
      board.device.record (w.pciedevDevM b).brdInfoList.pciedevBoardReserved := by
    rw [← DesyDevice.record_of_holds hheader]
    apply (congrArg BoardInfo.brdInfoList hinfo).trans
    by_cases hnone : board.found = []
    · have hrecords : board.records = [] := List.map_eq_nil_iff.mp hnone
      have hzero : regs 0 0x18 = 0 := by
        rw [hfirst, BoardLayout.first, hrecords]
        rfl
      simp only [if_pos hnone, BoardInfo.withHeader, brdInfoAt, hzero, PciedevDev.info]
    · simp only [if_neg hnone]
      rfl
  have hnum : (u.pciedevDevM b).info.startupPrjNum = board.records.length := by
    apply (congrArg BoardInfo.startupPrjNum hinfo).trans
    simp [BoardLayout.found]
  have hlist : (u.pciedevDevM b).info.prjInfoList = (linkedRecords board.records).reverse := by
    have hrecords : (u.pciedevDevM b).info.prjInfoList =
        projectRecords regs board.found ++ (w.pciedevDevM b).prjInfoList :=
      congrArg BoardInfo.prjInfoList hinfo
    rw [hrecords, hempty, List.append_nil, projectRecords, BoardLayout.found, List.map_map,
      ← pciedevPrjAt_linked fun blk hblk => board.image_records hblk, ← himage]
    rfl
  refine ⟨fun x => ?_, Prod.ext hbrd (Prod.ext hnum hlist)⟩
  rw [told_firmwareVersion, hbrd]
  rfl

end

/-- A board of version 7 with two projects, the second one before the first. -/
def projectLayout : DesyBoard where
  device := ⟨asciiBoardMagicNum, .inl rfl, 1, 7, 2, 3, 0⟩
  records := [(0x100, ⟨1, 2, 3, 4, 0⟩), (0x20, ⟨5, 6, 7, 8, 0⟩)]
  other := fun _ => asciiProjMagicNum
  apart := by decide
  inReach := by decide

set_option maxRecDepth 8000 in
theorem desy_board_read_back_projects : ∃ (tr₀ tr : Trace) (w u : World Unit),
    upciedevInitModuleExp.Run (driver (Outcome.environment { register := projectLayout.image }))
      (.uniform {}) tr₀ 0 w ∧
    (pciedevProbeExp 3 0 0).Run
      (driver (Outcome.environment { register := projectLayout.image })) w tr
      (0, (0 : Entry).val) u ∧
    (pciedevProcShow u.cdev (u.pciedevDevM 0)).board =
      (⟨1, 7, 2, 3, 0, 0⟩, 2, [⟨5, 6, 7, 8, 0⟩, ⟨1, 2, 3, 4, 0x20⟩]) := by
  obtain ⟨tr₀, tr, w, u, hinit, hprobe, hempty, hreserved⟩ : ∃ (tr₀ tr : Trace) (w u : World Unit),
      upciedevInitModuleExp.Run (driver (Outcome.environment { register := projectLayout.image }))
        (.uniform {}) tr₀ 0 w ∧
      (pciedevProbeExp 3 0 0).Run
        (driver (Outcome.environment { register := projectLayout.image })) w tr
        (0, (0 : Entry).val) u ∧
      (w.pciedevDevM 0).prjInfoList = [] ∧ (w.pciedevDevM 0).brdInfoList.pciedevBoardReserved = 0 :=
    ⟨_, _, _, _,
      run_of_answers (Outcome.answers { register := projectLayout.image }) (fun _ _ _ _ h => h) rfl,
      run_of_answers (Outcome.answers { register := projectLayout.image }) (fun _ _ _ _ h => h) rfl,
        rfl, rfl⟩
  have hshown :=
    (desy_board_read_back projectLayout (Outcome.bars _ 0) (oneBar_reads _) (by decide) rfl
    (fun hnone => absurd hnone (by decide)) hempty hprobe).2
  rw [hreserved] at hshown
  exact ⟨tr₀, tr, w, u, hinit, hprobe, hshown⟩

end Upciedev
