import Upciedev.Boards.BoardIsolation
import Upciedev.Boards.Reuse

/-!
# What the clients set of a board

The register size, the byte order and the place of the scratch register of a board are what the
clients asked for since its probe, one request after the other, and that is what they are told of
them. -/
namespace Upciedev

open Foundations Program

variable {ε α : Type} {E : Environment ε} {w u : World ε} {tr : Trace}

/-- The settings of a board. -/
structure Settings where
  registerSize : ℤ
  swap : ℤ
  scratchBar : UInt32
  scratchOffset : UInt32
  deriving DecidableEq, Repr

inductive SettingRequest where
  | registerSize (code : ℤ)
  | swap (on : Bool)
  | scratch (bar offset : UInt32)
  deriving DecidableEq, Repr

/-- A code that is no register size asks for words. -/
def Settings.apply (s : Settings) : SettingRequest → Settings
  | .registerSize code => { s with registerSize := if 0 ≤ code ∧ code ≤ 2 then code else 2 }
  | .swap on => { s with swap := if on then 1 else 0 }
  | .scratch bar offset => { s with scratchBar := bar, scratchOffset := offset }

def Settings.applyAll (s : Settings) (rs : List SettingRequest) : Settings :=
  rs.foldl Settings.apply s

def PciedevDev.settings (v : PciedevDev) : Settings :=
  ⟨v.registerSize, v.swap, v.scratchBar, v.scratchOffset⟩

/-- The settings of a board that was probed: words, no swapping, and the scratch register of a SHAPI
board in its header. -/
def PciedevDev.probedSettings (v : PciedevDev) : Settings :=
  ⟨2, 0, 0, if v.shapiBrd = 1 then 0x3C else 0⟩

def copiedInt : (op : Op) → op.Res → Option UInt32
  | .kernel (.copyFromUser .int _), r => r
  | _, _ => none

/-- The `device_ioctrl_data` that an operation copies in. -/
def copiedData : (op : Op) → op.Res → Option DeviceIoctrlData
  | .kernel (.copyFromUser .deviceIoctrlData _), r => r
  | _, _ => none

/-- What a command asks to be set, as the structure tells that it copies in. -/
def IoctlCmd.request (tr : Trace) : IoctlCmd → Option SettingRequest
  | .setRegisterSize => (tr.findSome? fun e => copiedInt e.op e.res).map fun n =>
    .registerSize (cInt n)
  | .setSwap => (tr.findSome? fun e => copiedInt e.op e.res).map fun n => .swap (n ≠ 0)
  | .scratchReg => (tr.findSome? fun e => copiedData e.op e.res).bind fun data =>
      if data.cmd = 0 then some (.scratch data.data data.offset) else none
  | _ => none

/-- The structure of a command that sets something was copied in. -/
def IoctlCmd.copiedIn (tr : Trace) : IoctlCmd → Bool
  | .setRegisterSize | .setSwap => (tr.findSome? fun e => copiedInt e.op e.res).isSome
  | .scratchReg => (tr.findSome? fun e => copiedData e.op e.res).isSome
  | _ => true

def FileCall.request (tr : Trace) : FileCall → Option SettingRequest
  | .ioctlExp _ cmd _ => (IoctlCmd.decode cmd).bind fun c => c.request tr
  | _ => none

/-- The settings of all entries, when the request was made for entry `b`. -/
def Asked (b : Entry) (r : Option SettingRequest) (w u : World ε) : Prop :=
  ∀ d, (u.pciedevDevM d).settings =
    if d = b then (w.pciedevDevM d).settings.applyAll r.toList else (w.pciedevDevM d).settings

theorem asked_none {b : Entry} (h : ∀ d, (u.pciedevDevM d).settings = (w.pciedevDevM d).settings) :
    Asked b none w u := by
  intro d
  rw [h d, Option.toList_none]
  exact (ite_self _).symm

theorem asked_store {b : Entry} {r : SettingRequest} {f : PciedevDev → PciedevDev}
    (h : ∀ v, (f v).settings = v.settings.apply r) : Asked b (some r) w (w.updateDev b f) := by
  intro d
  by_cases hd : d = b
  · subst hd
    rw [if_pos rfl, World.updateDev_self, h]
    rfl
  · rw [if_neg hd, World.updateDev_other _ hd]

theorem request_cons {e : Event driverInterface} (hint : copiedInt e.op e.res = none)
    (hdata : copiedData e.op e.res = none) (c : IoctlCmd) : c.request (e :: tr) = c.request tr := by
  cases c <;> simp [IoctlCmd.request, hint, hdata]

section
variable {dev : Entry} {arg : UInt64}

theorem ioctlSetRegisterSize_asked : (ioctlSetRegisterSize dev arg).wp (driver E) w fun tr _ u =>
    Asked dev (IoctlCmd.setRegisterSize.request tr) w u := by
  simp only [ioctlSetRegisterSize, perform_eq, call_bind, ret_bind, wp_kernel]
  intro copied e _
  cases copied with
  | none => exact asked_none fun _ => rfl
  | some n =>
    have hsize : correctRegisterSize (cInt n) 2 = if 0 ≤ cInt n ∧ cInt n ≤ 2 then cInt n else
        2 := by
      unfold correctRegisterSize mtcaMaxRw
      split_ifs <;> omega
    simp only [wp_store, pure_eq, wp_ret, IoctlCmd.request, List.findSome?_cons, copiedInt,
      Option.map_some]
    apply asked_store
    intro v
    simp only [PciedevDev.settings, Settings.apply, hsize]

theorem ioctlSetSwap_asked : (ioctlSetSwap dev arg).wp (driver E) w fun tr _ u =>
    Asked dev (IoctlCmd.setSwap.request tr) w u := by
  simp only [ioctlSetSwap, withCritRegion, perform_eq, call_bind, ret_bind, wp_enterCritRegion,
    ne_eq, not_true_eq_false, if_false, wp_kernel]
  intro copied e _
  cases copied with
  | none =>
    simp only [leaveWith, perform_eq, call_bind, ret_bind, wp_leaveCritRegion, pure_eq, wp_ret]
    exact asked_none fun _ => rfl
  | some n =>
    simp only [leaveWith, perform_eq, call_bind, ret_bind, wp_store, wp_leaveCritRegion, pure_eq,
      wp_ret, IoctlCmd.request, List.findSome?_cons, copiedInt, Option.map_some]
    apply asked_store
    intro v
    simp [PciedevDev.settings, Settings.apply]

theorem ioctlScratchReg_asked : (ioctlScratchReg dev arg).wp (driver E) w fun tr _ u =>
    Asked dev (IoctlCmd.scratchReg.request tr) w u := by
  have hanswer (T : UserType) (v : T.Val) :
      (answer dev T arg v).Only (Keeps PciedevDev.settings) := by
    simp [answer, leaveWith, Keeps]
  have hread (base : IoPtr) (data : DeviceIoctrlData) :
      (readScratchReg dev base data).Only (Keeps PciedevDev.settings) := by
    simp [readScratchReg, Keeps]
  simp only [ioctlScratchReg, withCritRegion, perform_eq, call_bind, ret_bind, wp_enterCritRegion,
    ne_eq, not_true_eq_false, if_false, wp_kernel]
  intro copied e _
  cases copied with
  | none =>
    simp only [leaveWith, perform_eq, call_bind, ret_bind, wp_leaveCritRegion, pure_eq, wp_ret]
    exact asked_none fun _ => rfl
  | some data =>
    have hcopied (tr : Trace) : IoctlCmd.scratchReg.request
        (⟨.enterCritRegion dev, (0 : ℤ)⟩ :: ⟨.kernel (.copyFromUser .deviceIoctrlData arg),
          some data⟩ :: tr) =
        if data.cmd = 0 then some (.scratch data.data data.offset) else none := by
      simp [IoctlCmd.request, copiedData]
    have hkept {p : Kernel ℤ} (hcmd : data.cmd ≠ 0) (hp : p.Only (Keeps PciedevDev.settings)) :
        p.wp (driver E) (w.withEnv e) fun tr _ u => Asked dev (IoctlCmd.scratchReg.request
          (⟨.enterCritRegion dev, (0 : ℤ)⟩ :: ⟨.kernel (.copyFromUser .deviceIoctrlData arg),
            some data⟩ :: tr))
          w u := by
      apply wp_mono (keeps_wp hp)
      intro tr _ u hu
      rw [hcopied, if_neg hcmd]
      exact asked_none hu
    rw [wp_ite, wp_ite, wp_ite]
    refine ⟨fun hcmd => hkept ?_ ?_, fun _ =>
      ⟨fun hcmd => ?_, fun hcmd => ⟨fun _ => ?_, fun _ => ?_⟩⟩⟩
    · rw [hcmd]
      decide
    · simp only [only_call]
      exact ⟨trivial, fun _ => ⟨trivial, fun _ => hanswer _ _⟩⟩
    · simp only [wp_store, World.updateDev_updateDev]
      apply wp_mono (keeps_wp (hanswer _ _))
      intro tr _ u hu
      rw [hcopied, if_pos hcmd]
      have hasked :
          Asked dev (some (.scratch data.data data.offset)) (w.withEnv e)
            ((w.withEnv e).updateDev dev
          ((fun v => { v with scratchOffset := data.offset }) ∘ fun v =>
            { v with scratchBar := data.data })) :=
        asked_store fun _ => rfl
      exact fun d => (hu d).trans (hasked d)
    · apply hkept hcmd
      simp only [pciedevGetBaraddress, perform_eq, call_bind, ret_bind, only_call, only_ite]
      refine ⟨trivial, fun v => ⟨trivial, fun base => ⟨fun _ => ?_, fun _ => ?_⟩⟩⟩
      · simp [leaveWith, Keeps]
      · exact (hread _ _).bind fun _ => hanswer _ _
    · exact hkept hcmd (hanswer _ _)

end

/-- What a command does before it comes to its case. -/
def Checks : Op → Prop
  | .privateData _ | .load _ | .kernel (.accessOk _ _) => True
  | _ => False

/-- What comes of the case of a command comes of the command, unless a check fails. -/
theorem pciedevIoctlExp_wp {filp : File} {cmd : UInt32} {arg : UInt64} {c : IoctlCmd}
    {Q : Trace → ℤ → World ε → Prop} (hdecode : IoctlCmd.decode cmd = some c)
    (hcheck : ∀ (e : Event driverInterface) tr r u, Checks e.op → Q tr r u → Q (e :: tr) r u)
    (hfault : ∀ e, Q [] eFault (w.withEnv e))
    (hcase : ∀ e, (ioctlCase (w.privateData filp) arg c).wp (driver E) (w.withEnv e) Q) :
    (pciedevIoctlExp filp cmd arg).wp (driver E) w Q := by
  have hchecked {tr : Trace} {r : ℤ} {u : World ε} (v : PciedevDev) (hQ : Q tr r u) :
      Q (⟨.privateData filp, w.privateData filp⟩ :: ⟨.load (w.privateData filp), v⟩ :: tr) r u :=
    hcheck _ _ _ _ trivial (hcheck _ _ _ _ trivial hQ)
  simp only [pciedevIoctlExp, accessError, hdecode, perform_eq, call_bind, ret_bind, wp_privateData,
    wp_load, wp_ite, pure_eq, wp_ret]
  refine ⟨fun _ => hchecked _ (hfault w.env), fun _ => ?_⟩
  rw [wp_bind, wp_ite]
  refine ⟨fun _ => ?_, fun _ => ?_⟩
  · simp only [wp_kernel, wp_ret]
    intro ok e _
    cases ok with
    | false => exact hchecked _ (hcheck _ _ _ _ trivial (hfault e))
    | true => exact wp_mono (hcase e) fun _ _ _ hQ => hchecked _ (hcheck _ _ _ _ trivial hQ)
  · simp only [wp_ret, Bool.false_eq_true, if_false, List.nil_append]
    exact wp_mono (hcase w.env) fun _ _ _ hQ => hchecked _ hQ

theorem copiedIn_cons {e : Event driverInterface} {c : IoctlCmd} (h : c.copiedIn tr = true) :
    c.copiedIn (e :: tr) = true := by
  cases c <;> simp_all [IoctlCmd.copiedIn, List.isSome_findSome?]

/-- The case of a command that sets something fails unless it copies its structure in. -/
theorem ioctlCase_copied (dev : Entry) (arg : UInt64) (c : IoctlCmd) :
    (ioctlCase dev arg c).wp (driver E) w fun tr r _ => r = 0 → c.copiedIn tr = true := by
  have hfault : eFault ≠ 0 := by decide
  cases c with
  | setRegisterSize =>
    simp only [ioctlCase, ioctlSetRegisterSize, perform_eq, call_bind, ret_bind, wp_kernel]
    intro copied e _
    cases copied with
    | none => exact fun h => absurd h hfault
    | some n => exact wp_of_forall fun _ _ _ _ => rfl
  | setSwap =>
    simp only [ioctlCase, ioctlSetSwap, withCritRegion, perform_eq, call_bind, ret_bind,
      wp_enterCritRegion, ne_eq, not_true_eq_false, if_false, wp_kernel]
    intro copied e _
    cases copied with
    | none =>
      simp only [leaveWith, perform_eq, call_bind, ret_bind, wp_leaveCritRegion, pure_eq, wp_ret]
      exact fun h => absurd h hfault
    | some n => exact wp_of_forall fun _ _ _ _ => rfl
  | scratchReg =>
    simp only [ioctlCase, ioctlScratchReg, withCritRegion, perform_eq, call_bind, ret_bind,
      wp_enterCritRegion, ne_eq, not_true_eq_false, if_false, wp_kernel]
    intro copied e _
    cases copied with
    | none =>
      simp only [leaveWith, perform_eq, call_bind, ret_bind, wp_leaveCritRegion, pure_eq, wp_ret]
      exact fun h => absurd h hfault
    | some data => exact wp_of_forall fun _ _ _ _ => rfl
  | _ => exact wp_of_forall fun _ _ _ _ => rfl

theorem ioctl_copied (filp : File) (arg : UInt64) (c : IoctlCmd) :
    (pciedevIoctlExp filp c.code arg).wp (driver E) w fun tr r _ => r = 0 →
      c.copiedIn tr = true := by
  have hfault : eFault ≠ 0 := by decide
  apply pciedevIoctlExp_wp (IoctlCmd.decode_code c)
  · exact fun e tr r u _ hQ hr => copiedIn_cons (hQ hr)
  · exact fun _ h => absurd h hfault
  · exact fun e => ioctlCase_copied _ arg c

theorem fileCall_asked (c : FileCall) : c.program.wp (driver E) w fun tr _ u =>
    Asked (c.entry w.privateData) (c.request tr) w u := by
  by_cases hset : c.MovesScratch ∨ c.SetsFormat
  · cases c with
    | ioctlExp filp cmd arg =>
      obtain ⟨k, hdecode, hk⟩ : ∃ k, IoctlCmd.decode cmd = some k ∧
          (k = .scratchReg ∨ k = .setSwap ∨ k = .setRegisterSize) := by
        rcases hset with hmoves | ⟨k, hk, hsets⟩
        · exact ⟨_, hmoves, .inl rfl⟩
        · exact ⟨k, hk, .inr hsets⟩
      simp only [FileCall.program, FileCall.request, FileCall.entry, hdecode, Option.bind_some]
      refine pciedevIoctlExp_wp hdecode (fun e tr r u he hQ => ?_) (fun e => ?_) fun e => ?_
      · obtain ⟨op, res⟩ := e
        have hsame : k.request (⟨op, res⟩ :: tr) = k.request tr := by
          cases op with
          | kernel x => cases x <;> first | exact he.elim | exact request_cons rfl rfl k
          | privateData | load => exact request_cons rfl rfl k
          | _ => exact he.elim
        rw [hsame]
        exact hQ
      · have hnil : k.request [] = none := by cases k <;> rfl
        rw [hnil]
        exact asked_none fun _ => rfl
      rcases hk with rfl | rfl | rfl
      · exact ioctlScratchReg_asked
      · exact ioctlSetSwap_asked
      · exact ioctlSetRegisterSize_asked
    | _ => exact absurd hset (by simp [FileCall.MovesScratch, FileCall.SetsFormat])
  · obtain ⟨hmoves, hsets⟩ := not_or.mp hset
    have hkeeps :
        c.program.Only (Keeps PciedevDev.settings) := (fileCall_allowed c).mono fun op hop => by
      cases op with
      | store d f =>
        intro v
        obtain ⟨-, -, hscratch, hformat⟩ := hop
        have hplace := hscratch hmoves v
        have hsize := hformat hsets v
        simp only [PciedevDev.scratch, PciedevDev.format, Prod.mk.injEq] at hplace hsize
        simp only [PciedevDev.settings, hplace.1, hplace.2, hsize.1, hsize.2]
      | _ => trivial
    have hrequest (tr : Trace) : c.request tr = none := by
      cases c with
      | ioctlExp filp cmd arg =>
        cases hdecode : IoctlCmd.decode cmd with
        | none => simp [FileCall.request, hdecode]
        | some k =>
          simp only [FileCall.request, hdecode, Option.bind_some]
          cases k with
          | scratchReg => exact absurd hdecode hmoves
          | setSwap => exact absurd ⟨_, hdecode, .inl rfl⟩ hsets
          | setRegisterSize => exact absurd ⟨_, hdecode, .inr rfl⟩ hsets
          | _ => rfl
      | _ => rfl
    apply wp_mono (keeps_wp hkeeps)
    intro tr _ u hu
    rw [hrequest]
    exact asked_none hu

/-- The settings of a probed board but for the register size, which comes last. -/
structure Preset (v : PciedevDev) : Prop where
  swap : v.swap = 0
  scratchBar : v.scratchBar = 0
  scratchOffset : v.scratchOffset = if v.shapiBrd = 1 then 0x3C else 0

def PciedevDev.preset (v : PciedevDev) : ℤ × UInt32 × UInt32 × ℤ :=
  (v.swap, v.scratchBar, v.scratchOffset, v.shapiBrd)

theorem Preset.congr {v v' : PciedevDev} (h : Preset v) (hsame : v'.preset = v.preset) :
    Preset v' := by
  simp only [PciedevDev.preset, Prod.mk.injEq] at hsame
  obtain ⟨hswap, hbar, hoffset, hshapi⟩ := hsame
  constructor
  · rw [hswap, h.swap]
  · rw [hbar, h.scratchBar]
  · rw [hoffset, hshapi, h.scratchOffset]

section
variable {dev : PciDev} {b : Entry}

theorem probeNumbers_swap (tmpParentNum : ℤ) :
    (probeNumbers dev b tmpParentNum).wp (driver E) w fun _ _ u =>
    (u.pciedevDevM b).swap = 0 := by
  have hslot : (probeSlotNum dev tmpParentNum).Only (Keeps PciedevDev.preset) := by
    simp [probeSlotNum, slotCapOf, Keeps]
  simp only [probeNumbers, perform_eq, call_bind, ret_bind, wp_kernel, wp_bind]
  intro _ _ _ _ _ _ _ _ _
  apply wp_mono (keeps_wp hslot)
  intro _ slot x _
  simp [wp_store]

theorem probeIdentity_scratch : (probeIdentity dev b).wp (driver E) w fun _ _ u =>
    (u.pciedevDevM b).swap = (w.pciedevDevM b).swap ∧ (u.pciedevDevM b).scratchBar = 0 ∧
      (u.pciedevDevM b).scratchOffset = 0 := by
  simp only [probeIdentity, perform_eq, call_bind, ret_bind, wp_kernel, wp_store, wp_ret]
  intros
  simp

theorem fillDeviceInfo_preset (baddress : IoAddr) (hswap : (w.pciedevDevM b).swap = 0)
    (hshapi : (w.pciedevDevM b).shapiBrd = 1) :
    (fillDeviceInfo b baddress).wp (driver E) w fun _ _ u => Preset (u.pciedevDevM b) := by
  simp only [fillDeviceInfo, fillFwName, readField, perform_eq, call_bind, ret_bind, wp_kernel,
    wp_store, wp_ret]
  intros
  have hplace : UInt32.ofInt wordScratchRegister = 0x3C := by decide
  constructor
  · simp [setDeviceInfo, hswap]
  · simp [setDeviceInfo]
  · simp [setDeviceInfo, hshapi, hplace]

theorem pciedevGetBrdinfo_preset (hswap : (w.pciedevDevM b).swap = 0)
    (hbar : (w.pciedevDevM b).scratchBar = 0) (hoffset : (w.pciedevDevM b).scratchOffset = 0) :
    (pciedevGetBrdinfo b).wp (driver E) w fun _ _ u => Preset (u.pciedevDevM b) := by
  have hplain {x : World ε} (h : (x.pciedevDevM b).preset = (0, 0, 0, 0)) :
      Preset (x.pciedevDevM b) := by
    simp only [PciedevDev.preset, Prod.mk.injEq] at h
    obtain ⟨hswap, hbar, hoffset, hshapi⟩ := h
    exact ⟨hswap, hbar, by rw [hoffset, hshapi]; rfl⟩
  have hfill (a : IoAddr) : (fillBrdInfo b a).Only (Keeps PciedevDev.preset) := by
    simp [fillBrdInfo, readField, setBrdInfo, Keeps, PciedevDev.preset]
  simp only [pciedevGetBrdinfo, perform_eq, call_bind, ret_bind, wp_store, wp_load, wp_ite, pure_eq,
    wp_ret, wp_kernel]
  refine ⟨fun _ => hplain ?_, fun _ word e _ =>
    ⟨fun _ => ?_, fun _ => ⟨fun _ => ?_, fun _ => hplain ?_⟩⟩⟩
  · simp [PciedevDev.preset, hswap, hbar, hoffset]
  · rw [wp_bind]
    apply wp_mono (keeps_wp (hfill _))
    intro _ _ x hx
    simp only [wp_load, wp_ret]
    apply hplain
    rw [hx b]
    simp [PciedevDev.preset, hswap, hbar, hoffset]
  · rw [wp_bind]
    apply wp_mono (fillDeviceInfo_preset _ ?_ ?_)
    · exact fun _ _ x hx => hx
    · simp [hswap]
    · simp
  · simp [PciedevDev.preset, hswap, hbar, hoffset]

theorem discoveries_keepPreset (fuel : ℕ) :
    (pciedevGetPrjinfo fuel b).Only (Keeps PciedevDev.preset) ∧
    (pciedevGetShapiModuleInfo fuel b).Only (Keeps PciedevDev.preset) := by
  have hprj (a : IoAddr) : (pciedevFillPrjInfo b a).Only (Keeps PciedevDev.preset) := by
    simp [pciedevFillPrjInfo, readPrjInfo, setBrdInfo, fault, Keeps, PciedevDev.preset]
  have hmodule (a : IoAddr) : (pciedevFillShapiModuleInfo b a).Only (Keeps PciedevDev.preset) := by
    simp [pciedevFillShapiModuleInfo, readModuleInfo, fault, Keeps, PciedevDev.preset]
  constructor
  · refine (only_call _ _).mpr ⟨fun _ => rfl, fun _ => (only_call _ _).mpr ⟨trivial, fun _ => ?_⟩⟩
    exact (discover_only trivial trivial hprj _ _).bind fun _ =>
      (only_call _ _).mpr ⟨trivial, fun _ => trivial⟩
  · refine (only_call _ _).mpr ⟨fun _ => rfl, fun _ => (only_call _ _).mpr ⟨trivial, fun _ => ?_⟩⟩
    exact (discover_only trivial trivial hmodule _ _).bind fun _ =>
      (only_call _ _).mpr ⟨trivial, fun _ => trivial⟩

theorem probeInfo_preset (fuel : ℕ) (hswap : (w.pciedevDevM b).swap = 0)
    (hbar : (w.pciedevDevM b).scratchBar = 0) (hoffset : (w.pciedevDevM b).scratchOffset = 0) :
    (probeInfo fuel b).wp (driver E) w fun _ _ u => Preset (u.pciedevDevM b) := by
  obtain ⟨hprj, hmodule⟩ := discoveries_keepPreset (b := b) fuel
  simp only [probeInfo, perform_eq, call_bind, ret_bind, wp_store, wp_bind]
  apply wp_mono (pciedevGetBrdinfo_preset (by simp [hswap]) (by simp [hbar]) (by simp [hoffset]))
  intro _ tmpInfo x hx
  simp only [wp_ite, wp_bind, pure_eq, wp_ret]
  refine ⟨fun _ => ?_, fun _ => ⟨fun _ => ?_, fun _ => hx⟩⟩
  · exact wp_mono (keeps_wp hprj) fun _ _ y hy => hx.congr (hy b)
  · exact wp_mono (keeps_wp hmodule) fun _ _ y hy => hx.congr (hy b)

theorem probeResources_preset (fuel slot : ℕ) (busNumber devNumber : UInt32)
    (hswap : (w.pciedevDevM b).swap = 0) :
    (probeResources fuel dev b slot busNumber devNumber).wp (driver E) w
      fun _ _ u => Preset (u.pciedevDevM b) := by
  have hmask : (probeDmaMask dev b).Only (Keeps PciedevDev.preset) := by
    simp [probeDmaMask, probeDma32, setDma64mask, Keeps, PciedevDev.preset]
  have htable : (probeBaseTable b slot busNumber devNumber).Only (Keeps PciedevDev.preset) := by
    simp [probeBaseTable, Keeps]
  have hbars (bars : List Bar) : (probeBars dev b slot bars).Only (Keeps PciedevDev.preset) := by
    induction bars with
    | nil => trivial
    | cons i bars ih =>
      apply Only.bind
      · simp [probeBar, Keeps, PciedevDev.preset]
      · exact fun _ => ih
  have hprint (slots : List ℕ) : (printBaseTable b slots).Only (Keeps PciedevDev.preset) := by
    induction slots with
    | nil => trivial
    | cons slot slots ih => simp [printBaseTable, Keeps, ih]
  have hinterrupts : (probeInterrupts dev b).Only (Keeps PciedevDev.preset) := by
    have hmsi (msiNum : ℤ) (v : PciedevDev) : PciedevDev.preset (if 0 ≤ msiNum then
        { v with msi := 1, irqFlag := v.irqFlag &&& ~~~irqfShared } else
          { v with msi := 0 }) = v.preset := by
      split_ifs <;> rfl
    simp only [probeInterrupts, perform_eq, call_bind, ret_bind, only_call, only_ret, Keeps, hmsi]
    simp [PciedevDev.preset]
  simp only [probeResources, perform_eq, call_bind, ret_bind, wp_bind, wp_store]
  apply wp_mono (keeps_wp hmask)
  intro _ _ x₁ h₁
  apply wp_mono probeIdentity_scratch
  rintro _ _ x₂ ⟨hswap₂, hbar₂, hoffset₂⟩
  apply wp_mono (keeps_wp htable)
  intro _ _ x₃ h₃
  apply wp_mono (keeps_wp (hbars _))
  intro _ _ x₄ h₄
  apply wp_mono (keeps_wp (hprint _))
  intro _ _ x₅ h₅
  have hsame : (x₅.pciedevDevM b).preset = (x₂.pciedevDevM b).preset := by
    rw [h₅ b, h₄ b, World.updateDev_self]
    exact h₃ b
  have hswap₁ : (x₁.pciedevDevM b).swap = 0 := (congrArg Prod.fst (h₁ b)).trans hswap
  simp only [PciedevDev.preset, Prod.mk.injEq] at hsame
  obtain ⟨hswap₅, hbar₅, hoffset₅, -⟩ := hsame
  apply wp_mono
    (probeInfo_preset fuel (by rw [hswap₅, hswap₂, hswap₁]) (hbar₅.trans hbar₂)
      (hoffset₅.trans hoffset₂))
  intro _ _ x₆ h₆
  exact wp_mono (keeps_wp hinterrupts) fun _ _ x₇ h₇ => h₆.congr (h₇ b)

theorem probeCreate_settings (slot : ℕ) (hpreset : Preset (w.pciedevDevM b)) :
    (probeCreate b slot).wp (driver E) w fun _ _ u =>
      (u.pciedevDevM b).settings = (u.pciedevDevM b).probedSettings := by
  have hstale : (destroyStale b).Only (Keeps PciedevDev.preset) := by
    simp [destroyStale, Keeps, PciedevDev.preset]
  simp only [probeCreate, perform_eq, call_bind, ret_bind, wp_bind]
  apply wp_mono (keeps_wp hstale)
  intro _ _ x hx
  obtain ⟨hswap, hbar, hoffset⟩ := hpreset.congr (hx b)
  simp only [wp_store, wp_kernel, wp_setCdev, wp_ret]
  intros
  simp [PciedevDev.settings, PciedevDev.probedSettings, hswap, hbar, hoffset]

theorem pciedevProbeExp_settings {fuel : ℕ} {tmpParentNum : ℤ}
    (hrun : (pciedevProbeExp fuel dev tmpParentNum).Run (driver E) w tr (0, b.val) u) :
    (u.pciedevDevM b).settings = (u.pciedevDevM b).probedSettings := by
  have hprobe : (pciedevProbeExp fuel dev tmpParentNum).wp (driver E) w fun _ r u =>
    r = (0, b.val) →
      (u.pciedevDevM b).settings = (u.pciedevDevM b).probedSettings := by
    apply wp_mono (pciedevProbeExp_entry (Q := fun b' err u => err = 0 →
      (u.pciedevDevM b').settings = (u.pciedevDevM b').probedSettings) fuel dev tmpParentNum ?_)
    · rintro _ r u (⟨hr, -⟩ | ⟨b', -, hb', hset⟩) heq
      · have hfailed : (-1 : ℤ) = 0 := congrArg Prod.fst (hr.symm.trans heq)
        exact absurd hfailed (by decide)
      · subst heq
        obtain rfl : b = b' := Fin.ext hb'
        exact hset rfl
    · intro b' _ _
      simp only [probeEntry, perform_eq, call_bind, ret_bind, wp_store, wp_kernel, wp_ite, wp_bind]
      refine fun _ _ _ => ⟨fun hne h => absurd h hne, fun _ _ _ _ => ⟨fun hne => ?_, fun _ => ?_⟩⟩
      · exact wp_of_forall fun _ _ _ h => absurd h hne
      · simp only [probeBoard, perform_eq, call_bind, ret_bind, wp_bind]
        apply wp_mono (probeNumbers_swap _)
        intro _ numbers x hx
        simp only [wp_setDrvdata, wp_bind]
        have hswap : ((x.setDrvdata dev (some b')).pciedevDevM b').swap = 0 := hx
        apply wp_mono (probeResources_preset fuel _ _ _ hswap)
        intro _ _ y hy
        exact wp_mono (probeCreate_settings _ hy) fun _ _ z hz _ => hz
  exact hrun.of_wp hprobe rfl

end

/-- Runs of the driver, with what was asked for each entry since its last probe. -/
inductive SettingsRun (E : Environment ε) :
    World ε → (PciDev → Option Entry) → Trace → (Entry → List SettingRequest) → Prop
  | setUp {w u : World ε} {tr : Trace} (hrun : upciedevInitModuleExp.Run (driver E) w tr 0 u) :
      SettingsRun E u (fun _ => none) tr fun _ => []
  | probed {w u : World ε} {boards : PciDev → Option Entry} {tr tr' : Trace}
      {asked : Entry → List SettingRequest} {fuel : ℕ} {dev : PciDev} {tmpParentNum : ℤ} {b : Entry}
      (h : SettingsRun E w boards tr asked) (hdev : boards dev = none)
      (hrun : (pciedevProbeExp fuel dev tmpParentNum).Run (driver E) w tr' (0, b.val) u) :
      SettingsRun E u (Function.update boards dev (some b)) (tr ++ tr') (Function.update asked b [])
  | refused {w u : World ε} {boards : PciDev → Option Entry} {tr tr' : Trace}
      {asked : Entry → List SettingRequest} {fuel : ℕ} {dev : PciDev} {tmpParentNum err : ℤ}
      {brdNum : ℕ} (h : SettingsRun E w boards tr asked) (hdev : boards dev = none)
      (hrun : (pciedevProbeExp fuel dev tmpParentNum).Run (driver E) w tr' (err, brdNum) u)
      (hne : err ≠ 0) :
      SettingsRun E u boards (tr ++ tr') asked
  | removed {w u : World ε} {boards : PciDev → Option Entry} {tr tr' : Trace}
      {asked : Entry → List SettingRequest} {fuel : ℕ} {dev : PciDev} {b : Entry} {result : ℤ}
      (h : SettingsRun E w boards tr asked) (hdev : boards dev = some b)
      (hrun : (pciedevRemoveExp fuel dev).Run (driver E) w tr' result u) :
      SettingsRun E u (Function.update boards dev none) (tr ++ tr') asked
  | interrupt {w u : World ε} {boards : PciDev → Option Entry} {tr tr' : Trace}
      {asked : Entry → List SettingRequest} {b : Entry} {num : ℕ} {result : ℤ}
      (h : SettingsRun E w boards tr asked)
      (hrun : (pciedevSetupInterrupt b num).Run (driver E) w tr' result u) :
      SettingsRun E u boards (tr ++ tr') asked
  | call {w u : World ε} {boards : PciDev → Option Entry} {tr tr' : Trace}
      {asked : Entry → List SettingRequest} {retval : ℤ} (h : SettingsRun E w boards tr asked)
      (c : FileCall) (hrun : c.program.Run (driver E) w tr' retval u) :
      SettingsRun E u boards (tr ++ tr') (Function.update asked (c.entry w.privateData)
        (asked (c.entry w.privateData) ++ (c.request tr').toList))

section
variable {boards : PciDev → Option Entry} {asked : Entry → List SettingRequest} {dev : PciDev}
  {b : Entry}

theorem SettingsRun.driverRun (h : SettingsRun E w boards tr asked) : DriverRun E w boards tr := by
  induction h with
  | setUp hrun => exact .setUp hrun
  | probed _ hdev hrun ih => exact .probed ih hdev hrun
  | refused _ hdev hrun hne ih => exact .refused ih hdev hrun hne
  | removed _ hdev hrun ih => exact .removed ih hdev hrun
  | interrupt _ hrun ih => exact .interrupt ih hrun
  | call _ c hrun ih => exact .call ih c hrun

theorem DriverRun.settingsRun (h : DriverRun E w boards tr) :
    ∃ asked, SettingsRun E w boards tr asked := by
  induction h with
  | setUp hrun => exact ⟨_, .setUp hrun⟩
  | probed _ hdev hrun ih =>
    obtain ⟨asked, hasked⟩ := ih
    exact ⟨_, .probed hasked hdev hrun⟩
  | refused _ hdev hrun hne ih =>
    obtain ⟨asked, hasked⟩ := ih
    exact ⟨_, .refused hasked hdev hrun hne⟩
  | removed _ hdev hrun ih =>
    obtain ⟨asked, hasked⟩ := ih
    exact ⟨_, .removed hasked hdev hrun⟩
  | interrupt _ hrun ih =>
    obtain ⟨asked, hasked⟩ := ih
    exact ⟨_, .interrupt hasked hrun⟩
  | call _ c hrun ih =>
    obtain ⟨asked, hasked⟩ := ih
    exact ⟨_, .call hasked c hrun⟩

/-- The settings of a board with what they started from. -/
def PciedevDev.settled (v : PciedevDev) : Settings × Settings := (v.settings, v.probedSettings)

theorem Removed.settled (h : Removed b w u) {d : Entry} (hd : d ≠ b) :
    (u.pciedevDevM d).settled = (w.pciedevDevM d).settled := by
  rw [h.pciedevDevM d, World.updateDev_other _ hd]
  unfold PciedevDev.orphan
  split_ifs <;> rfl

theorem interrupt_settled {num : ℕ} {result : ℤ}
    (hrun : (pciedevSetupInterrupt b num).Run (driver E) w tr result u) (d : Entry) :
    (u.pciedevDevM d).settled = (w.pciedevDevM d).settled := by
  have hkeeps : (pciedevSetupInterrupt b num).Only (Keeps PciedevDev.settled) := by
    simp [pciedevSetupInterrupt, Keeps, PciedevDev.settled, PciedevDev.settings,
      PciedevDev.probedSettings]
  exact hrun.of_wp (keeps_wp hkeeps) d

theorem fileCall_settled {c : FileCall} {retval : ℤ} (hrun : c.program.Run (driver E) w tr retval u)
    (d : Entry) :
    (u.pciedevDevM d).probedSettings = (w.pciedevDevM d).probedSettings := by
  have hkeeps :
      c.program.Only (Keeps PciedevDev.probedSettings) := (fileCall_allowed c).mono fun op hop => by
    cases op with
    | store d f =>
      obtain ⟨-, hf, -⟩ := hop
      cases hf <;> exact fun _ => rfl
    | _ => trivial
  exact hrun.of_wp (keeps_wp hkeeps) d

def Settled (v : PciedevDev) (rs : List SettingRequest) : Prop :=
  v.settings = v.probedSettings.applyAll rs

theorem Settled.congr {v v' : PciedevDev} {rs : List SettingRequest} (h : Settled v rs)
    (hsame : v'.settled = v.settled) : Settled v' rs := by
  obtain ⟨hset, hprobed⟩ := Prod.mk.inj hsame
  rw [Settled, hset, hprobed]
  exact h

theorem SettingsRun.settled (h : SettingsRun E w boards tr asked) :
    ∀ dev b, boards dev = some b → Settled (w.pciedevDevM b) (asked b) := by
  induction h with
  | setUp _ => exact fun _ _ hb => absurd hb (Option.some_ne_none _ ∘ Eq.symm)
  | @probed w u boards tr tr' asked fuel dev tmpParentNum b h hdev hrun ih =>
    have hinv := h.driverRun.inv
    obtain ⟨b₁, hnum, -, hfree, hend, -⟩ := hinv.probe hrun
    obtain rfl : b = b₁ := Fin.ext hnum
    intro dev' b' hb'
    by_cases hsame : b' = b
    · subst hsame
      rw [Function.update_self]
      exact pciedevProbeExp_settings hrun
    · have hdev' : dev' ≠ dev := by
        rintro rfl
        rw [Function.update_self] at hb'
        exact hsame (Option.some_injective _ hb').symm
      rw [Function.update_of_ne hdev'] at hb'
      rw [Function.update_of_ne hsame]
      cases hend with
      | disabled hne | unclaimed hne => exact absurd rfl hne
      | bound hbound =>
        rw [hbound.others b' hsame]
        exact ih dev' b' hb'
  | @refused w u boards tr tr' asked fuel dev tmpParentNum err brdNum h hdev hrun hne ih =>
    have hinv := h.driverRun.inv
    obtain ⟨b, -, -, hfree, hend, -⟩ := hinv.probe hrun
    intro dev' b' hb'
    have hother := hinv.other hfree hb'
    have hsame : u.pciedevDevM b' = w.pciedevDevM b' := by
      cases hend with
      | disabled _ _ hu | unclaimed _ hu =>
        subst hu
        simp [World.updateDev, hother]
      | bound => exact absurd rfl hne
    rw [hsame]
    exact ih dev' b' hb'
  | @removed w u boards tr tr' asked fuel dev b result h hdev hrun ih =>
    have hinv := h.driverRun.inv
    have hremoved := hrun.of_wp (pciedevRemoveExp_wp fuel dev (hinv.paired _ _ hdev).drvdata)
    intro dev' b' hb'
    have hdev' : dev' ≠ dev := by
      rintro rfl
      rw [Function.update_self] at hb'
      exact Option.some_ne_none _ hb'.symm
    rw [Function.update_of_ne hdev'] at hb'
    have hother : b' ≠ b := by
      rintro rfl
      exact hdev' (hinv.entry_unique hb' hdev)
    exact (ih dev' b' hb').congr (hremoved.settled hother)
  | interrupt _ hrun ih => exact fun dev b hb => (ih dev b hb).congr (interrupt_settled hrun b)
  | @call w u boards tr tr' asked retval h c hrun ih =>
    intro dev b hb
    have hasked := hrun.of_wp (fileCall_asked c) b
    rw [Settled, hasked, fileCall_settled hrun b]
    by_cases hb' : b = c.entry w.privateData
    · subst hb'
      rw [if_pos rfl, Function.update_self, ih dev _ hb, Settings.applyAll, Settings.applyAll,
        Settings.applyAll, List.foldl_append]
    · rw [if_neg hb', Function.update_of_ne hb']
      exact ih dev b hb

section
variable {filp : File} {arg : UInt64} (hfile : w.privateData filp = b)
include hfile

theorem getRegisterSize_wp :
    (pciedevIoctlExp filp IoctlCmd.getRegisterSize.code arg).wp (driver E) w
    fun _ r _ => r = eFault ∨ r = (w.pciedevDevM b).settings.registerSize := by
  apply pciedevIoctlExp_wp (IoctlCmd.decode_code _)
  · exact fun _ _ _ _ _ h => h
  · exact fun _ => .inl rfl
  · intro e
    simp only [ioctlCase, ioctlGetRegisterSize, perform_eq, call_bind, ret_bind, wp_load, pure_eq,
      wp_ret, hfile]
    exact .inr rfl

theorem getSwap_wp : (pciedevIoctlExp filp IoctlCmd.getSwap.code arg).wp (driver E) w
    fun _ r _ => r = eFault ∨ r = (w.pciedevDevM b).settings.swap := by
  apply pciedevIoctlExp_wp (IoctlCmd.decode_code _)
  · exact fun _ _ _ _ _ h => h
  · exact fun _ => .inl rfl
  · intro e
    simp only [ioctlCase, ioctlGetSwap, perform_eq, call_bind, ret_bind, wp_load, pure_eq, wp_ret,
      hfile]
    exact .inr rfl

/-- The answer to command 1 of `PCIEDEV_SCRATCH_REG`. -/
def TellsScratch (s : Settings) (tr : Trace) : Prop :=
  ∀ data v : DeviceIoctrlData, (tr.findSome? fun e => copiedData e.op e.res) = some data →
    data.cmd = 1 →
    Sends .deviceIoctrlData v tr → v = { data with data := s.scratchBar, offset := s.scratchOffset }

theorem scratchReg_wp :
    (pciedevIoctlExp filp IoctlCmd.scratchReg.code arg).wp (driver E) w fun tr _ _ =>
    TellsScratch (w.pciedevDevM b).settings tr := by
  apply pciedevIoctlExp_wp (IoctlCmd.decode_code _)
  · intro e tr r u he h data v htakes hcmd hsends
    obtain ⟨op, res⟩ := e
    have hnone : copiedData op res = none ∧
        ∀ dst v, op ≠ .kernel (.copyToUser .deviceIoctrlData dst v) := by
      cases op with
      | kernel x => cases x <;> first | exact he.elim | exact ⟨rfl, fun _ _ h => by simp at h⟩
      | privateData | load => exact ⟨rfl, fun _ _ h => by simp at h⟩
      | _ => exact he.elim
    obtain ⟨dst, failed, hsends⟩ := hsends
    rw [List.findSome?_cons, hnone.1] at htakes
    refine h data v htakes hcmd ⟨dst, failed, (List.mem_cons.mp hsends).resolve_left fun heq => ?_⟩
    exact hnone.2 dst v (congrArg Event.op heq).symm
  · exact fun _ _ _ htakes => absurd htakes (by simp)
  · intro e
    simp only [ioctlCase, ioctlScratchReg, withCritRegion, perform_eq, call_bind, ret_bind,
      wp_enterCritRegion, ne_eq, not_true_eq_false, if_false, wp_kernel, hfile]
    intro copied e' _
    cases copied with
    | none => simp [leaveWith, TellsScratch, Sends]
    | some data =>
      rw [wp_ite]
      refine ⟨fun _ => ?_, fun hother => wp_of_forall fun tr r u data' v htakes hcmd _ => ?_⟩
      · simp only [answer, leaveWith, perform_eq, call_bind, ret_bind, wp_load, wp_kernel, wp_ite,
          wp_leaveCritRegion, pure_eq, wp_ret]
        have htold (failed : Bool) : TellsScratch (w.pciedevDevM b).settings
            [⟨.enterCritRegion b, (0 : ℤ)⟩,
              ⟨.kernel (.copyFromUser .deviceIoctrlData arg), some data⟩,
              ⟨.load b, w.pciedevDevM b⟩, ⟨.load b, w.pciedevDevM b⟩,
              ⟨.kernel (.copyToUser .deviceIoctrlData arg ⟨(w.pciedevDevM b).scratchOffset,
                (w.pciedevDevM b).scratchBar, data.cmd, data.reserved⟩), failed⟩,
              ⟨.leaveCritRegion b, (0 : ℤ)⟩] := by
          intro data' v htakes _ hsends
          obtain rfl : data = data' := by simpa [copiedData] using htakes
          obtain ⟨dst, failed', hsends⟩ := hsends
          simp at hsends
          exact hsends.1.2
        intro failed e'' _
        exact ⟨fun _ => htold failed, fun _ => htold failed⟩
      · obtain rfl : data = data' := by simpa [copiedData] using htakes
        exact absurd hcmd hother

end

/-- What the commands that ask for settings answer on the file `filp`. -/
structure TellsSettings (E : Environment ε) (w : World ε) (filp : File) (s : Settings) : Prop where
  registerSize : ∀ arg tr r u,
    (pciedevIoctlExp filp IoctlCmd.getRegisterSize.code arg).Run (driver E) w tr r u →
      r = eFault ∨ r = s.registerSize
  swap : ∀ arg tr r u,
    (pciedevIoctlExp filp IoctlCmd.getSwap.code arg).Run (driver E) w tr r u →
      r = eFault ∨ r = s.swap
  scratch : ∀ arg tr r u,
    (pciedevIoctlExp filp IoctlCmd.scratchReg.code arg).Run (driver E) w tr r u → TellsScratch s tr

/-- In every run, the settings of a board are those of its probe and of all that was asked for
since, in order, and they are what the commands that ask for them answer. A command that sets
something and returns 0 has asked for what it was given. -/
theorem settings_since_probe (h : SettingsRun E w boards tr asked) (hdev : boards dev = some b) :
    Settled (w.pciedevDevM b) (asked b) ∧ (∀ filp, w.privateData filp = b →
      TellsSettings E w filp ((w.pciedevDevM b).probedSettings.applyAll (asked b))) ∧
    ∀ filp (c : IoctlCmd) arg tr u,
      (pciedevIoctlExp filp c.code arg).Run (driver E) w tr 0 u → c.copiedIn tr = true := by
  have hset := h.settled dev b hdev
  refine ⟨hset, fun filp hfile => ?_, fun filp c arg tr u hrun =>
    hrun.of_wp (ioctl_copied filp arg c) rfl⟩
  rw [← hset]
  constructor
  · intro arg tr r u hrun
    exact hrun.of_wp (getRegisterSize_wp hfile)
  · intro arg tr r u hrun
    exact hrun.of_wp (getSwap_wp hfile)
  · intro arg tr r u hrun
    exact hrun.of_wp (scratchReg_wp hfile)

end

def halfWordRequest : Outcome :=
  { request := fun
      | .int => some 1
      | _ => none }

set_option maxRecDepth 8000 in
theorem settings_since_probe_halfWords :
    ∃ (w : World Unit) (tr : Trace) (asked : Entry → List SettingRequest),
    SettingsRun openEnvironment w (Function.update (fun _ => none) 0 (some 0)) tr asked ∧
    asked 0 = [.registerSize 1] ∧ TellsSettings openEnvironment w 7 ⟨1, 0, 0, 0⟩ := by
  obtain ⟨tr₀, w₀, tr₁, w₁, tr₂, w₂, tr₃, w₃, hset, hprobe, hopen, hioctl, hfile, hfile',
      hnone, hsize, hprobed⟩ :
      ∃ (tr₀ : Trace) (w₀ : World Unit) (tr₁ : Trace) (w₁ : World Unit) (tr₂ : Trace)
        (w₂ : World Unit) (tr₃ : Trace) (w₃ : World Unit),
      upciedevInitModuleExp.Run (driver openEnvironment) (.uniform {}) tr₀ 0 w₀ ∧
      (pciedevProbeExp 0 0 0).Run (driver openEnvironment) w₀ tr₁ ((0 : ℤ), 0) w₁ ∧
      (pciedevOpenExp 0 0 7).Run (driver openEnvironment) w₁ tr₂ 0 w₂ ∧
      (pciedevIoctlExp 7 IoctlCmd.setRegisterSize.code 0).Run (driver openEnvironment) w₂ tr₃ 0 w₃ ∧
      w₂.privateData 7 = 0 ∧ w₃.privateData 7 = 0 ∧
      (FileCall.openExp 0 0 7).request tr₂ = none ∧
      (FileCall.ioctlExp 7 IoctlCmd.setRegisterSize.code 0).request tr₃ = some (.registerSize 1) ∧
      (w₃.pciedevDevM 0).probedSettings = ⟨2, 0, 0, 0⟩ :=
    ⟨_, _, _, _, _, _, _, _, run_of_answers (Outcome.answers {}) (fun _ _ _ _ _ => trivial) rfl,
      run_of_answers (Outcome.answers {}) (fun _ _ _ _ _ => trivial) rfl,
      run_of_answers (Outcome.answers {}) (fun _ _ _ _ _ => trivial) rfl,
      run_of_answers halfWordRequest.answers (fun _ _ _ _ _ => trivial) rfl, rfl, rfl,
        rfl, rfl, rfl⟩
  have hrun :=
    SettingsRun.call (.call (.probed (.setUp hset) rfl (b := 0) hprobe) (.openExp 0 0 7) hopen)
    (.ioctlExp 7 IoctlCmd.setRegisterSize.code 0) hioctl
  obtain ⟨-, hanswered, -⟩ := settings_since_probe hrun (b := 0) (Function.update_self ..)
  have hentry : (FileCall.ioctlExp 7 IoctlCmd.setRegisterSize.code 0).entry w₂.privateData = 0 :=
    hfile
  rw [hentry, hnone, hsize] at hrun hanswered
  refine ⟨w₃, _, _, hrun, ?_, ?_⟩
  · simp [FileCall.entry]
  · have hanswer := hanswered 7 hfile'
    simp [hprobed, FileCall.entry] at hanswer
    exact hanswer

end Upciedev
