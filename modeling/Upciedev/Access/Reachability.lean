import Upciedev.Access.InlineEnd
import Upciedev.Boards.Registration

/-!
# Which registers of a BAR can be reached

The end of a PCI resource is inclusive, but the driver takes the difference of end and start
for the length of a BAR, and it takes a BAR for absent when the low half of its start is
zero.
-/
namespace Upciedev

open Foundations Program

variable {ε : Type} {E : Environment ε} {w u x y : World ε}

/-- The call moves at least its first register and says so. -/
structure ReachesRegister (dir : Direction) (c : InlineCall) (v : PciedevDev) (width : UInt32)
    (a : IoAddr) (tr : Trace) (retval : ℤ) : Prop where
  moved : ∃ round rest, moves false tr = round ++ rest ∧
    dir.Round c v width ⟨c.userData, c.userMask, a⟩ round
  counted : (width.toNat : ℤ) ≤ retval

def CopiesSucceed (tr : Trace) : Prop := .lost ∉ moves false tr

instance (tr : Trace) : Decidable (CopiesSucceed tr) := inferInstanceAs (Decidable (_ ∉ _))

section
variable {dir : Direction} {c : InlineCall} {v : PciedevDev} {bar : Bar} {l : List Move}
  {scratch : Prop} {a : ℤ}

theorem TransferEnd.all_rounds {copies : Prop} {Round : Cursor → List Move → Prop} {u : UInt32}
    {p : Cursor} {n : ℕ} {retval : ℤ} (h : TransferEnd copies Round u p n scratch retval l a)
    (hcopies : .lost ∉ l) (hscratch : ¬ scratch) :
    Consecutive (Cursor.next u) Round p n l ∧ a = retval + n * u.toNat := by
  cases h with
  | complete _ hl => exact ⟨hl, rfl⟩
  | lost => exact absurd (by simp) hcopies
  | error hs => exact absurd hs hscratch

/-- Without a failing copy and without a scratch error, the first register is moved exactly if the
call is not refused and a round is left to it. -/
theorem InlineEnd.first_iff (h : InlineEnd dir c v bar l scratch a) (hcopies : .lost ∉ l)
    (hscratch : ¬ scratch) (hwidth : 0 < (c.width v).toNat) :
    ((∃ round rest, l = round ++ rest ∧ dir.Round c v (c.width v) (c.start v bar) round) ∧
        ((c.width v).toNat : ℤ) ≤ a) ↔
      c.Opens v bar ∧ 0 < c.rounds v bar := by
  by_cases hopen : c.Opens v bar
  · obtain ⟨hrounds, rfl⟩ := (h.of_opens hopen).all_rounds hcopies hscratch
    constructor
    · rintro ⟨-, hle⟩
      refine ⟨hopen, Nat.pos_of_ne_zero fun hzero => ?_⟩
      rw [hzero] at hle
      simp only [Nat.cast_zero, zero_mul, zero_add] at hle
      omega
    · rintro ⟨-, hpos⟩
      obtain ⟨round, rest, hround, hl⟩ := hrounds.exists_first hpos
      refine ⟨⟨round, rest, hl, hround⟩, ?_⟩
      have hmul : (c.width v).toNat ≤ c.rounds v bar * (c.width v).toNat :=
        Nat.le_mul_of_pos_left _ hpos
      rw [zero_add]
      exact_mod_cast hmul
  · obtain ⟨-, rfl⟩ := h.of_closed hopen
    refine iff_of_false (fun hround => ?_) fun h => hopen h.1
    have hle := hround.2
    have hneg : eFault < 0 := by decide
    omega

end

/-- At least one round is left exactly if the first register ends inside the window. -/
theorem rounds_pos_iff {c : InlineCall} {v : PciedevDev} {bar : Bar}
    (hwidth : 0 < (c.width v).toNat) (hcount : 0 < c.count) :
    0 < c.rounds v bar ↔
      c.offset.toNat + (c.width v).toNat ≤ (v.memBaseEnd bar - v.memBase bar).toNat := by
  have hroom := Nat.div_pos_iff (a := (v.memBaseEnd bar - v.memBase bar).toNat - c.offset.toNat)
    (b := (c.width v).toNat)
  unfold InlineCall.rounds loopRounds PciedevDev.registersAfter
  omega

section
variable {dev : PciDev} {res : Bar → BarResource} {map : Bar → IoPtr} {v : PciedevDev}

theorem BarsFilled.window (h : BarsFilled res map v) {i : Bar}
    (hordered : (res i).start.toNat ≤ (res i).stop.toNat)
    (hlength : (res i).stop.toNat - (res i).start.toNat + 1 < 2 ^ 31) :
    (v.memBaseEnd i - v.memBase i).toNat = (res i).stop.toNat - (res i).start.toNat := by
  rw [h.memBase, h.memBaseEnd, UInt32.toNat_sub, UInt64.toNat_toUInt32, UInt64.toNat_toUInt32]
  omega

/-- A register of a BAR that was probed is reached exactly if the BAR does not start at a multiple
of 4 GiB and the register is not its last one. -/
theorem register_reachable_iff {E' : Environment ε} {fuel : ℕ} {n : ℤ} {tr₀ : Trace}
    (hbars : Bars E dev res map) {b : Entry}
    (hprobe : (pciedevProbeExp fuel dev n).Run (driver E) w tr₀ (0, b.val) u)
    (hsame : (x.pciedevDevM b).barFields = (u.pciedevDevM b).barFields) {i : Bar}
    (hordered : (res i).start.toNat ≤ (res i).stop.toNat)
    (hlength : (res i).stop.toNat - (res i).start.toNat + 1 < 2 ^ 31) (hmapped : map i ≠ none)
    {dir : Direction} {c : InlineCall} (hdev : c.dev = b) (hbar : c.bar.toNat = i.val)
    (hcode : ValidCode c.registerSize) (hmode : dir = .read → c.rwAccessMode < mtcaSimpleWrite)
    (hcount : 1 ≤ c.count) (haligned : (Width.ofRegSize c.registerSize).bytes ∣ c.offset.toNat)
    {tr : Trace} {retval : ℤ} (hrun : (dir.inline c).Run (driver E') x tr retval y)
    (hcopies : CopiesSucceed tr) (hscratch : ¬ ScratchError b tr) :
    ReachesRegister dir c (x.pciedevDevM b) (c.width (x.pciedevDevM b)) ⟨map i, c.offset.toNat⟩ tr
        retval ↔
      (res i).Present ∧ c.offset.toNat + (Width.ofRegSize c.registerSize).bytes ≤
        (res i).stop.toNat - (res i).start.toNat := by
  have hfilled : BarsFilled res map (x.pciedevDevM b) := (probe_barsFilled hbars hprobe).congr hsame
  have hwidth := c.width_agrees hcode (x.pciedevDevM b)
  obtain ⟨-, hend⟩ :=
    steady_run (inline_moved dir hdev hcode hmode hbar) (fun _ => Op.ReadOnly.steady) hrun
  have hfirst := hend.first_iff hcopies hscratch hwidth.pos
  have hopens : c.Opens (x.pciedevDevM b) i ↔ (res i).Present := by
    have hbase := hfilled.memmoryBase i
    constructor
    · intro hopen hzero
      exact hopen.mapped (hbase.trans (if_neg (not_not.mpr hzero)))
    · intro hpresent
      refine ⟨?_, hwidth ▸ haligned⟩
      rwa [hbase, if_pos hpresent]
  rw [rounds_pos_iff hwidth.pos hcount, hfilled.window hordered hlength, hopens, hwidth] at hfirst
  by_cases hpresent : (res i).Present
  · have hstart :
        c.start (x.pciedevDevM b) i = ⟨c.userData, c.userMask, ⟨map i, c.offset.toNat⟩⟩ := by
      rw [InlineCall.start, hfilled.memmoryBase, if_pos hpresent]
    rw [hstart] at hfirst
    exact ⟨fun h => hfirst.mp ⟨h.moved, hwidth ▸ h.counted⟩,
      fun h => ⟨(hfirst.mpr h).1, hwidth ▸ (hfirst.mpr h).2⟩⟩
  · -- an absent BAR refuses the call
    refine iff_of_false (fun h => ?_) fun h => hpresent h.1
    have hcounted := h.counted
    rw [(hend.of_closed fun hopen => hpresent (hopens.mp hopen)).2] at hcounted
    have hneg : eFault < 0 := by decide
    omega

end

def oneRegister (offset : UInt32) : InlineCall :=
  { dev := 0, registerSize := rwD32, rwAccessMode := mtcaSimpleRead, bar := 0, offset
    userData := 0x1000, userMask := 0, count := 1 }

set_option maxRecDepth 8000 in
theorem last_register_unreachable : ∃ (tr₀ tr : Trace) (u y : World Unit),
    (pciedevProbeExp 0 0 0).Run (driver (Outcome.environment {})) (.uniform {}) tr₀ ((0 : ℤ), 0) u ∧
    (Direction.read.inline (oneRegister 0xffc)).Run (driver (Outcome.environment {})) u tr 0 y ∧
    CopiesSucceed tr ∧ ¬ ScratchError 0 tr ∧
    0xffc + 4 ≤ (oneBar 0).stop.toNat - (oneBar 0).start.toNat + 1 ∧
    ¬ ReachesRegister .read (oneRegister 0xffc) (u.pciedevDevM 0) 4 ⟨some 1, 0xffc⟩ tr 0 := by
  obtain ⟨tr₀, tr, u, y, hprobe, hread, hcopies, hcheck⟩ : ∃ (tr₀ tr : Trace) (u y : World Unit),
      (pciedevProbeExp 0 0 0).Run (driver (Outcome.environment {})) (.uniform {}) tr₀
        ((0 : ℤ), 0) u ∧
      (Direction.read.inline (oneRegister 0xffc)).Run (driver (Outcome.environment {})) u tr 0 y ∧
      CopiesSucceed tr ∧ ∀ e ∈ tr, ¬ e.op.startsCheck :=
    ⟨_, _, _, _, run_of_answers (Outcome.answers {}) (fun _ _ _ _ h => h) rfl,
      run_of_answers (Outcome.answers {}) (fun _ _ _ _ h => h) rfl, by decide, by decide⟩
  refine ⟨tr₀, tr, u, y, hprobe, hread, hcopies, not_scratchError hcheck, by decide, ?_⟩
  intro h
  exact absurd h.counted (by decide)

set_option maxRecDepth 8000 in
theorem register_reachable_iff_first : ∃ (tr₀ tr : Trace) (u y : World Unit),
    (pciedevProbeExp 0 0 0).Run (driver (Outcome.environment {})) (.uniform {}) tr₀ ((0 : ℤ), 0) u ∧
    (Direction.read.inline (oneRegister 0)).Run (driver (Outcome.environment {})) u tr 4 y ∧
    ReachesRegister .read (oneRegister 0) (u.pciedevDevM 0)
      ((oneRegister 0).width (u.pciedevDevM 0))
      ⟨some 1, 0⟩ tr 4 := by
  obtain ⟨tr₀, tr, u, y, hprobe, hread, hcopies, hcheck⟩ : ∃ (tr₀ tr : Trace) (u y : World Unit),
      (pciedevProbeExp 0 0 0).Run (driver (Outcome.environment {})) (.uniform {}) tr₀
        ((0 : ℤ), 0) u ∧
      (Direction.read.inline (oneRegister 0)).Run (driver (Outcome.environment {})) u tr 4 y ∧
      CopiesSucceed tr ∧ ∀ e ∈ tr, ¬ e.op.startsCheck :=
    ⟨_, _, _, _, run_of_answers (Outcome.answers {}) (fun _ _ _ _ h => h) rfl,
      run_of_answers (Outcome.answers {}) (fun _ _ _ _ h => h) rfl, by decide, by decide⟩
  refine ⟨tr₀, tr, u, y, hprobe, hread, ?_⟩
  exact (register_reachable_iff (Outcome.bars {} 0) (b := 0) hprobe rfl (i := 0)
    (by decide) (by decide)
    (by decide) (c := oneRegister 0) rfl rfl (.inr (.inr rfl)) (fun _ => by decide)
    (by decide) (by decide) hread hcopies (not_scratchError hcheck)).mpr (by decide)

end Upciedev
