import Upciedev.Boards.Registration
import Upciedev.Model.IoctlExp

/-!
# What clients are told of a board

The three commands that tell what the probe found of a board, as a client sees them: the answers it
can come by, in any state that knows the same of the board.
-/
namespace Upciedev

open Foundations Program

variable {ε : Type} {E : Environment ε} {w : World ε}

/-- A client can come by `P` when it asks with command `c` about the board in entry `b`, in some
state in which the driver knows of that board what it knows in `u`. -/
def Told (u : World ε) (b : Entry) (c : IoctlCmd) (P : Trace → Prop) : Prop :=
  ∃ (E : Environment ε) (x y : World ε) (filp : File) (arg : UInt64) (tr : Trace) (r : ℤ),
    x.privateData filp = b ∧ (x.pciedevDevM b).info = (u.pciedevDevM b).info ∧
      (pciedevIoctlExp filp c.code arg).Run (driver E) x tr r y ∧ P tr

def Sends (T : UserType) (v : T.Val) (tr : Trace) : Prop :=
  ∃ dst failed, (⟨.kernel (.copyToUser T dst v), failed⟩ : Event driverInterface) ∈ tr

def Takes (T : UserType) (v : T.Val) (tr : Trace) : Prop :=
  ∃ src, (⟨.kernel (.copyFromUser T src), some v⟩ : Event driverInterface) ∈ tr

/-- A client that asks for the device information of the board in entry `b` can get `v`. -/
def DevinfoReply (u : World ε) (b : Entry) (v : PicmgShapiDeviceInfo) : Prop :=
  Told u b .getShapiDevinfo (Sends .picmgShapiDeviceInfo v)

/-- A client that asks with `info` for a module of the board in entry `b` can get `v`. -/
def ModinfoReply (u : World ε) (b : Entry) (info v : PicmgShapiModuleInfo) : Prop :=
  Told u b .getShapiModinfo fun tr =>
    Takes .picmgShapiModuleInfo info tr ∧ Sends .picmgShapiModuleInfo v tr

theorem shapiDevInfo_congr {v v' : PciedevDev} (h : v.info = v'.info) (padding : BitVec 24) :
    shapiDevInfo v padding = shapiDevInfo v' padding := by
  simp only [PciedevDev.info, BoardInfo.mk.injEq] at h
  obtain ⟨-, -, -, hdevice, -, hnum⟩ := h
  simp only [shapiDevInfo, hdevice, hnum]

section
variable {b : Entry} {filp : File} {arg : UInt64}

theorem firmwareVersion_wp (hfile : w.privateData filp = b) :
    (pciedevIoctlExp filp IoctlCmd.firmwareVersion.code arg).wp (driver E) w fun tr _ _ =>
      ∀ v : DeviceIoctrlData, Sends .deviceIoctrlData v tr →
        v.data = (w.pciedevDevM b).brdInfoList.pciedevBoardVersion := by
  have hdir : iocDir IoctlCmd.firmwareVersion.code ≠ 0 := by decide
  simp only [pciedevIoctlExp, accessError, if_pos hdir, IoctlCmd.decode_code, perform_eq, call_bind,
    ret_bind, wp_privateData, wp_load, hfile, wp_ite, pure_eq, wp_kernel, wp_ret]
  refine ⟨fun _ => by simp [Sends], fun _ ok e _ => ⟨fun _ => by simp [Sends], fun _ => ?_⟩⟩
  simp only [ioctlCase, ioctlFirmwareVersion, uninitIoctrlData, withCritRegion, answer, leaveWith,
    perform_eq, call_bind, ret_bind, wp_enterCritRegion, ne_eq, not_true_eq_false,
      if_false, wp_kernel,
    wp_load, wp_ite, wp_leaveCritRegion, pure_eq, wp_ret]
  intro _ _ _ _ _ _ _ _ _ _ _ _ failed e' _
  constructor <;> intro _ <;> simp [Sends]

theorem modinfo_wp (hfile : w.privateData filp = b) :
    (pciedevIoctlExp filp IoctlCmd.getShapiModinfo.code arg).wp (driver E) w fun tr _ _ =>
      ∀ info v, Takes .picmgShapiModuleInfo info tr → Sends .picmgShapiModuleInfo v tr →
        v = shapiModInfo (w.pciedevDevM b).moduleInfoList info := by
  have hdir : iocDir IoctlCmd.getShapiModinfo.code ≠ 0 := by decide
  simp only [pciedevIoctlExp, accessError, if_pos hdir, IoctlCmd.decode_code, perform_eq, call_bind,
    ret_bind, wp_privateData, wp_load, hfile, wp_ite, pure_eq, wp_kernel, wp_ret]
  refine ⟨fun _ => by simp [Sends], fun _ ok e _ => ⟨fun _ => by simp [Sends], fun _ => ?_⟩⟩
  simp only [ioctlCase, ioctlGetShapiModinfo, withCritRegion, perform_eq, call_bind, ret_bind,
    wp_enterCritRegion, ne_eq, not_true_eq_false, if_false, wp_kernel]
  intro copied e' _
  cases copied with
  | none => simp [leaveWith, Sends]
  | some taken =>
    simp only [answer, leaveWith, perform_eq, call_bind, ret_bind, wp_load, wp_kernel, wp_ite,
      wp_leaveCritRegion, pure_eq, wp_ret]
    intro failed e'' _
    constructor <;> intro _ <;> simp [Takes, Sends]

theorem getShapiDevinfo_wp (hfile : w.privateData filp = b) :
    (pciedevIoctlExp filp IoctlCmd.getShapiDevinfo.code arg).wp (driver E) w fun tr _ _ =>
      ∀ dst v failed, (⟨.kernel (.copyToUser .picmgShapiDeviceInfo dst v), failed⟩ :
        Event driverInterface) ∈ tr → ∃ padding, v = shapiDevInfo (w.pciedevDevM b) padding := by
  have hdir : iocDir IoctlCmd.getShapiDevinfo.code ≠ 0 := by decide
  simp only [pciedevIoctlExp, accessError, if_pos hdir, IoctlCmd.decode_code, perform_eq, call_bind,
    ret_bind, wp_privateData, wp_load, hfile, wp_ite, pure_eq, wp_kernel, wp_ret]
  refine ⟨fun _ => by simp, fun _ ok e _ => ⟨fun _ => by simp, fun _ => ?_⟩⟩
  simp only [ioctlCase, ioctlGetShapiDevinfo, withCritRegion, answer, leaveWith, perform_eq,
    call_bind, ret_bind, wp_enterCritRegion, ne_eq, not_true_eq_false, if_false, wp_kernel,
      wp_load, wp_ite,
    wp_leaveCritRegion, pure_eq, wp_ret]
  intro padding e' _ failed e'' _
  constructor <;> intro _ <;> simp only [List.mem_cons, Event.mk.injEq]
  all_goals
    simp
    exact fun _ v => ⟨fun _ hv _ => ⟨_, hv⟩, fun _ hv _ => ⟨_, hv⟩⟩

/-- The state of entry `b` with a live board and a file of it. -/
def asking (u : World ε) (b : Entry) : World ε :=
  (u.updateDev b fun v => { v with devSts := 1 }).setPrivateData 0 b

theorem told_of_case {c : IoctlCmd} (hdir : iocDir c.code ≠ 0) {P : Trace → Prop}
    (happend : ∀ tr' tr, P tr → P (tr' ++ tr)) {tr : Trace} {r : ℤ} {y : World ε}
    (hcase : (ioctlCase b 0 c).Run (driver fun _ _ _ _ => True) (asking u b) tr r y) (hP : P tr) :
    Told u b c P := by
  have hfile : (asking u b).privateData 0 = b := by simp [asking]
  have hentry : (asking u b).pciedevDevM b = { u.pciedevDevM b with devSts := 1 } := by
    simp [asking]
  have hlive : ¬ ((asking u b).pciedevDevM b).devSts = 0 := by
    rw [hentry]
    exact one_ne_zero
  have hrun : ∃ tr', (pciedevIoctlExp 0 c.code 0).Run (driver fun _ _ _ _ => True) (asking u b)
      (tr' ++ tr) r y := by
    simp only [pciedevIoctlExp, accessError, if_pos hdir, IoctlCmd.decode_code, perform_eq,
      call_bind, ret_bind, pure_eq]
    refine ⟨[⟨.privateData 0, b⟩, ⟨.load b, (asking u b).pciedevDevM b⟩,
      ⟨.kernel (.accessOk 0 (iocSize c.code)), true⟩], ?_⟩
    refine ⟨b, _, _, ⟨hfile.symm, rfl⟩, rfl, _, _, _, ⟨rfl, rfl⟩, rfl, ?_⟩
    beta_reduce
    rw [if_neg hlive]
    exact ⟨true, _, _, ⟨u.env, trivial, rfl⟩, rfl, hcase⟩
  obtain ⟨tr', hrun⟩ := hrun
  refine ⟨_, asking u b, y, 0, 0, tr' ++ tr, r, hfile, ?_, hrun, happend _ _ hP⟩
  rw [hentry]
  rfl

theorem told_firmwareVersion (u : World ε) (b : Entry) (x : UInt32) :
    (∃ v : DeviceIoctrlData, Told u b .firmwareVersion (Sends .deviceIoctrlData v) ∧ v.data = x) ↔
      x = (u.pciedevDevM b).info.brdInfoList.pciedevBoardVersion := by
  constructor
  · rintro ⟨v, ⟨E, y, _, filp, arg, tr, r, hfile, hinfo, hrun, hsends⟩, rfl⟩
    rw [← hinfo]
    exact hrun.of_wp (firmwareVersion_wp hfile) v hsends
  · rintro rfl
    have hinfo : (asking u b).pciedevDevM b = { u.pciedevDevM b with devSts := 1 } := by
      simp [asking]
    refine ⟨⟨0, (u.pciedevDevM b).brdInfoList.pciedevBoardVersion, 0, 0⟩, ?_, rfl⟩
    refine told_of_case (by decide) (fun tr' tr ⟨dst, failed, h⟩ =>
      ⟨dst, failed, List.mem_append_right _ h⟩)
      (r := 0) (y := asking u b) (P := Sends .deviceIoctrlData _)
      ⟨(0 : ℤ), _, _, ⟨rfl, rfl⟩, rfl, (0 : UInt32), _, _, ⟨u.env, trivial, rfl⟩, rfl,
        (0 : UInt32), _, _,
        ⟨u.env, trivial, rfl⟩, rfl, (0 : UInt32), _, _, ⟨u.env, trivial, rfl⟩, rfl,
          (0 : UInt32), _, _,
        ⟨u.env, trivial, rfl⟩, rfl, _, _, _, ⟨rfl, rfl⟩, rfl, false, _, _,
          ⟨u.env, trivial, rfl⟩, rfl,
        (0 : ℤ), _, _, ⟨rfl, rfl⟩, rfl, rfl, rfl, rfl⟩ ⟨0, false, ?_⟩
    rw [hinfo]
    simp

theorem told_devinfo (u : World ε) (b : Entry) (v : PicmgShapiDeviceInfo) :
    Told u b .getShapiDevinfo (Sends .picmgShapiDeviceInfo v) ↔
      ∃ padding, v = shapiDevInfo (u.pciedevDevM b) padding := by
  constructor
  · rintro ⟨E, x, y, filp, arg, tr, r, hfile, hinfo, hrun, dst, failed, hcopy⟩
    obtain ⟨padding, hv⟩ := hrun.of_wp (getShapiDevinfo_wp hfile) dst v failed hcopy
    exact ⟨padding, hv.trans (shapiDevInfo_congr hinfo padding)⟩
  · rintro ⟨padding, rfl⟩
    have hinfo : (asking u b).pciedevDevM b = { u.pciedevDevM b with devSts := 1 } := by
      simp [asking]
    have hpadding : BitVec.ofNat 24 (UInt32.ofNat padding.toNat).toNat = padding := by
      have hlt : padding.toNat < UInt32.size := lt_trans padding.isLt (by decide)
      rw [UInt32.toNat_ofNat', Nat.mod_eq_of_lt hlt, BitVec.ofNat_toNat, BitVec.setWidth_eq]
    refine told_of_case (by decide) (fun tr' tr ⟨dst, failed, h⟩ =>
      ⟨dst, failed, List.mem_append_right _ h⟩)
      (r := 0) (y := asking u b) (P := Sends .picmgShapiDeviceInfo _)
      ⟨(0 : ℤ), _, _, ⟨rfl, rfl⟩, rfl, UInt32.ofNat padding.toNat, _, _, ⟨u.env, trivial, rfl⟩, rfl,
        _, _, _, ⟨rfl, rfl⟩, rfl, false, _, _, ⟨u.env, trivial, rfl⟩, rfl, (0 : ℤ), _, _,
          ⟨rfl, rfl⟩, rfl,
        rfl, rfl, rfl⟩ ⟨0, false, ?_⟩
    rw [hinfo, hpadding]
    simp [shapiDevInfo]

theorem told_modinfo (u : World ε) (b : Entry) (info v : PicmgShapiModuleInfo) :
    Told u b .getShapiModinfo (fun tr => Takes .picmgShapiModuleInfo info tr ∧
      Sends .picmgShapiModuleInfo v tr) ↔
        v = shapiModInfo (u.pciedevDevM b).info.moduleInfoList info := by
  constructor
  · rintro ⟨E, x, y, filp, arg, tr, r, hfile, hinfo, hrun, htakes, hsends⟩
    rw [← hinfo]
    exact hrun.of_wp (modinfo_wp hfile) info v htakes hsends
  · rintro rfl
    have hinfo : (asking u b).pciedevDevM b = { u.pciedevDevM b with devSts := 1 } := by
      simp [asking]
    refine told_of_case (by decide) (fun tr' tr ⟨⟨src, h⟩, dst, failed, h'⟩ =>
        ⟨⟨src, List.mem_append_right _ h⟩, dst, failed, List.mem_append_right _ h'⟩)
      (r := 0) (y := asking u b) (P := fun tr => Takes .picmgShapiModuleInfo info tr ∧
        Sends .picmgShapiModuleInfo _ tr)
      ⟨(0 : ℤ), _, _, ⟨rfl, rfl⟩, rfl, some info, _, _, ⟨u.env, trivial, rfl⟩, rfl, _, _, _,
        ⟨rfl, rfl⟩, rfl,
        false, _, _, ⟨u.env, trivial, rfl⟩, rfl, (0 : ℤ), _, _, ⟨rfl, rfl⟩, rfl, rfl, rfl, rfl⟩
      ⟨⟨0, ?_⟩, 0, false, ?_⟩
    · simp
    · rw [hinfo]
      simp [PciedevDev.info]

end

end Upciedev
