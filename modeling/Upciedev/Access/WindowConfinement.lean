import Upciedev.Access.RequestTrace
import Upciedev.Access.Window
import Upciedev.Model.FileFootprint
import Upciedev.Model.Module

/-!
# Register-window confinement

After a successful probe the register size of the board is a size code and stays one,
whatever calls are made on its files. Every request for data then keeps each of its
inline calls inside the BAR it names.
-/
namespace Upciedev

open Foundations Program

theorem validCode_ofNat {n : ℕ} (h : n < 3) : ValidCode (UInt16.ofNat n) := by
  have hcases : n = 0 ∨ n = 1 ∨ n = 2 := by omega
  rcases hcases with rfl | rfl | rfl
  · exact .inl rfl
  · exact .inr (.inl rfl)
  · exact .inr (.inr rfl)

theorem validCode_correctedSize {v : PciedevDev} (h : ValidSize v.registerSize) (code : ℕ) :
    ValidCode (correctedSize v code) := by
  unfold correctedSize
  split_ifs with hcode
  · have hsize : v.registerSize < 3 := h.2
    have hzero := h.1
    exact validCode_ofNat (n := (v.registerSize % 2 ^ 16).toNat) (by omega)
  · have hlt : (code : ℤ) < 3 := not_le.mp hcode
    exact validCode_ofNat (by omega)

/-- The part of a trace that belongs to an inline call, and its data events. -/
structure ConfinedInline (dev : Entry) (v : PciedevDev) (c : InlineCall) (tr : Trace) : Prop where
  dev_eq : c.dev = dev
  events : ∃ dir l, dataEvents false tr = .call dir c :: l ∧ ConfinedCall v c l

section
variable {owner : File → Entry} {table : Entry → PciedevDev} {dev : Entry}

theorem inline_confined (hsize : ValidSize (table dev).registerSize) (dir : Direction)
    {c : InlineCall} {code : ℕ} (hdev : c.dev = dev)
    (hcode : c.registerSize = correctedSize (table dev) code) :
    (dir.inline c).Sat (tableAnswers owner table) Op.ReadOnly fun tr _ =>
      ConfinedInline dev (table dev) c tr := by
  have hvalid : ValidCode c.registerSize := hcode ▸ validCode_correctedSize hsize code
  have hcall : Emits owner table (dir.inline c) fun l _ =>
      ∃ events, l = .call dir c :: events ∧ ConfinedCall (table dev) c events := by
    subst hdev
    rw [dir.inline_eq]
    cases dir with
    | read =>
      apply Emits.call trivial (fun _ => rfl)
      intro _ _
      exact (registers_emits .read hvalid).imp fun l _ hl => ⟨l, rfl, hl⟩
    | write =>
      apply Emits.call trivial (fun _ => rfl)
      intro _ _
      exact (registers_emits .write hvalid).imp fun l _ hl => ⟨l, rfl, hl⟩
  apply Sat.imp hcall
  intro tr _ hpost
  obtain ⟨-, l, hevents, hl⟩ := hpost
  exact ⟨hdev, dir, l, hevents, hl⟩

theorem frameOp_readOnly {op : Op} (h : FrameOp op) : op.ReadOnly := by
  cases op with
  | kernel c => trivial
  | _ => trivial

theorem confined_logic (hsize : ValidSize (table dev).registerSize) :
    InlineLogic owner table dev (tableAnswers owner table) Op.ReadOnly
      (ConfinedInline dev (table dev)) where
  answers _ _ h := h
  allows _ := frameOp_readOnly
  inline dir _ _ hdev hcode := inline_confined hsize dir hdev hcode

end

/-- States after a successful probe of entry `d` and any calls on files. -/
inductive FromProbe {ε : Type} (E : Environment ε) (d : Entry) : World ε → Prop
  | probe {fuel : ℕ} {dev : PciDev} {tmpParentNum : ℤ} {w w' : World ε} {tr : Trace}
      (hrun : (pciedevProbeExp fuel dev tmpParentNum).Run (driver E) w tr (0, d.val) w') :
      FromProbe E d w'
  | call {w w' : World ε} {tr : Trace} {retval : ℤ} (h : FromProbe E d w) (c : FileCall)
      (hrun : c.program.Run (driver E) w tr retval w') : FromProbe E d w'

/-- A live board with a size code as its register size. -/
structure Live (v : PciedevDev) : Prop where
  devSts : v.devSts ≠ 0
  registerSize : ValidSize v.registerSize

section
variable {ε : Type} {E : Environment ε} {d : Entry} {w : World ε}

theorem validSize_two : ValidSize 2 := ⟨by decide, by decide⟩

theorem probeCreate_live (slot : ℕ) :
    (probeCreate d slot).wp (driver E) w fun _ _ u => Live (u.pciedevDevM d) := by
  rw [probeCreate, wp_bind]
  apply wp_of_forall
  intro _ _ u
  simp only [perform_eq, call_bind, ret_bind, wp_store, wp_kernel, wp_setCdev, wp_ret,
    World.updateDev_withEnv, World.setCdev_pciedevDevM, World.withEnv_pciedevDevM,
      World.updateDev_self]
  exact fun _ _ _ _ _ _ => ⟨one_ne_zero, validSize_two⟩

theorem probeEntry_live (fuel : ℕ) (dev : PciDev) (tmpParentNum : ℤ) :
    (probeEntry fuel dev d tmpParentNum).wp (driver E) w fun _ err u =>
      err = 0 → Live (u.pciedevDevM d) := by
  simp only [probeEntry, perform_eq, call_bind, ret_bind, wp_store, wp_kernel]
  intro enabled _ _
  refine (wp_ite ..).mpr ⟨fun hne heq => absurd heq hne, fun _ => ?_⟩
  refine (wp_kernel ..).mpr fun claimed _ _ => (wp_ite ..).mpr ⟨fun hne => ?_, fun _ => ?_⟩
  · exact wp_bind .. |>.mpr (wp_of_forall fun _ _ _ heq => absurd heq hne)
  · refine (wp_bind ..).mpr ((wp_bind ..).mpr (wp_of_forall fun _ numbers _ => ?_))
    simp only [perform_eq, call_bind, ret_bind, wp_setDrvdata]
    refine (wp_bind ..).mpr (wp_of_forall fun _ _ _ => ?_)
    exact wp_mono (probeCreate_live numbers.1) fun _ _ _ hlive _ => hlive

theorem pciedevProbeExp_live (fuel : ℕ) (dev : PciDev) (tmpParentNum : ℤ) :
    (pciedevProbeExp fuel dev tmpParentNum).wp (driver E) w fun _ r u =>
      r = (0, d.val) → Live (u.pciedevDevM d) := by
  rw [pciedevProbeExp, wp_bind]
  apply wp_of_forall
  intro _ mBrdNum u
  split_ifs with hnull hlt
  · simp
  · rw [wp_bind]
    apply wp_mono (probeEntry_live fuel dev tmpParentNum)
    intro _ err u' hlive hresult
    obtain ⟨rfl, rfl⟩ := Prod.mk.inj hresult
    exact hlive rfl
  · exact (wp_fault _).mpr trivial

theorem fileOp_live {op : Op} {r : op.Res} {w' : World ε} (hw : Live (w.pciedevDevM d))
    (hop : FileOp op) (hstep : driver E op w r w') : Live (w'.pciedevDevM d) := by
  rcases driver_pciedevDevM hstep with ⟨d', f, rfl, rfl⟩ | hsame
  · rcases eq_or_ne d d' with rfl | hne
    · have hkept : Live (f (w.pciedevDevM d)) :=
        ⟨(hop.devSts _).trans_ne hw.devSts, hop.registerSize _ hw.registerSize⟩
      simpa [World.updateDev] using hkept
    · simpa [World.updateDev, hne] using hw
  · rwa [hsame]

theorem FromProbe.live (h : FromProbe E d w) : Live (w.pciedevDevM d) := by
  induction h with
  | probe hrun => exact hrun.of_wp (pciedevProbeExp_live _ _ _) rfl
  | call _ c hrun ih =>
    exact (Sat.run (P := fun w => Live (w.pciedevDevM d)) (fileCall_fileOp c)
      (fun _ _ _ _ hw hop hstep => ⟨trivial, fileOp_live hw hop hstep⟩) ih hrun).2.2

/-- A data request on a probed board meets no fault, and every inline call in its trace keeps its
accesses, at one width, inside the BAR that the request names. -/
theorem dataRequest_confined (hw : FromProbe E d w) {c : FileCall} (hc : c.IsDataRequest)
    (hfile : w.privateData c.filp = d) :
    (∀ tr f k w', ¬ Reaches (driver E) c.program w tr
      (Program.call (I := driverInterface) (.fault f) k) w') ∧
    ∀ tr retval w', c.program.Run (driver E) w tr retval w' →
      DataTrace (ConfinedInline d (w.pciedevDevM d)) c.position tr := by
  have hsat := dataRequest_sat (confined_logic hw.live.registerSize) hc hfile hw.live.devSts
  exact ⟨fun tr f k w' => readOnly_no_fault hsat f k,
    fun tr retval w' => steady_run hsat fun _ => Op.ReadOnly.steady⟩

end

def plainRequest : Outcome :=
  { request := fun
      | .deviceRw => some { offsetRw := 4, dataRw := 0, registerSize := 2, barxRw := 0 }
      | _ => none }

set_option maxRecDepth 4000 in
theorem dataRequest_confined_plainRead : ∃ w tr w', FromProbe openEnvironment 0 w ∧
    (pciedevReadExp 0 0 0 0 pciedFpos).Run (driver openEnvironment) w tr sizeofDeviceRw w' ∧
    DataTrace (ConfinedInline 0 (w.pciedevDevM 0)) none tr := by
  obtain ⟨_, w, tr, w', hprobe, hfile, hrun⟩ : ∃ tr₀ w tr w',
      (pciedevProbeExp 0 0 0).Run (driver openEnvironment) (.uniform {}) tr₀ ((0 : ℤ), 0) w ∧
      w.privateData 0 = 0 ∧
      (pciedevReadExp 0 0 0 0 pciedFpos).Run (driver openEnvironment) w tr sizeofDeviceRw w' :=
    ⟨_, _, _, _, run_of_answers (Outcome.answers {}) (fun _ _ _ _ _ => trivial) rfl, rfl,
      run_of_answers plainRequest.answers (fun _ _ _ _ _ => trivial) rfl⟩
  have hboard : FromProbe openEnvironment 0 w := .probe hprobe
  exact ⟨w, tr, w', hboard, hrun, (dataRequest_confined (c := .readExp 0 0 0 0 pciedFpos) hboard
    trivial hfile).2 tr _ w' hrun⟩

end Upciedev
