import Upciedev.Access.Transfer

/-!
# How an inline call ends

An inline call on an existing BAR is refused, or it goes through rounds up to the number
of registers that the window leaves.
-/
namespace Upciedev

open Foundations Program

def InlineCall.width (c : InlineCall) (v : PciedevDev) : UInt32 :=
  getRegisterSizeInBytes c.registerSize v.registerSize

/-- Registers from an offset to the end of a BAR, as both inline functions count them. -/
def PciedevDev.registersAfter (v : PciedevDev) (bar : Bar) (offset width : ℕ) : ℕ :=
  ((v.memBaseEnd bar - v.memBase bar).toNat - offset) / width

/-- The BAR is mapped and the offset is a multiple of the width. -/
structure InlineCall.Opens (c : InlineCall) (v : PciedevDev) (bar : Bar) : Prop where
  mapped : v.memmoryBase bar ≠ none
  aligned : (c.width v).toNat ∣ c.offset.toNat

def InlineCall.rounds (c : InlineCall) (v : PciedevDev) (bar : Bar) : ℕ :=
  loopRounds (min c.count (v.registersAfter bar c.offset.toNat (c.width v).toNat))

def InlineCall.start (c : InlineCall) (v : PciedevDev) (bar : Bar) : Cursor :=
  ⟨c.userData, c.userMask, ⟨v.memmoryBase bar, c.offset.toNat⟩⟩

/-- The end of an inline call. -/
inductive InlineEnd (dir : Direction) (c : InlineCall) (v : PciedevDev) (bar : Bar) :
    List Move → Prop → ℤ → Prop
  | refused {scratch : Prop} (hs : ¬ scratch) (h : ¬ c.Opens v bar) :
      InlineEnd dir c v bar [] scratch eFault
  | ran {l : List Move} {scratch : Prop} {a : ℤ} (hopen : c.Opens v bar)
      (h : TransferEnd (dir.Copies c) (dir.Round c v (c.width v)) (c.width v) (c.start v bar)
        (c.rounds v bar) scratch 0 l a) : InlineEnd dir c v bar l scratch a

section
variable {dir : Direction} {c : InlineCall} {v : PciedevDev} {bar : Bar} {l : List Move}
  {scratch : Prop} {a : ℤ}

theorem InlineEnd.of_closed (h : InlineEnd dir c v bar l scratch a) (hclosed : ¬ c.Opens v bar) :
    l = [] ∧ a = eFault := by
  cases h with
  | refused => exact ⟨rfl, rfl⟩
  | ran hopen => exact absurd hopen hclosed

theorem InlineEnd.of_opens (h : InlineEnd dir c v bar l scratch a) (hopen : c.Opens v bar) :
    TransferEnd (dir.Copies c) (dir.Round c v (c.width v)) (c.width v) (c.start v bar)
      (c.rounds v bar) scratch 0 l a := by
  cases h with
  | refused _ hclosed => exact absurd hopen hclosed
  | ran _ hend => exact hend

end

section
variable {owner : File → Entry} {table : Entry → PciedevDev}

theorem InlineCall.width_agrees {c : InlineCall} (hcode : ValidCode c.registerSize)
    (v : PciedevDev) :
    WidthAgrees c (c.width v) := widthAgrees_getRegisterSizeInBytes hcode _

theorem WidthAgrees.pos {c : InlineCall} {u : UInt32} (h : WidthAgrees c u) : 0 < u.toNat :=
  h ▸ (Width.ofRegSize c.registerSize).bytes_pos

theorem WidthAgrees.ne_zero {c : InlineCall} {u : UInt32} (h : WidthAgrees c u) : u ≠ 0 := by
  rintro rfl
  exact absurd h.pos (by decide)

theorem registersLeft_eq (total offset u : UInt32) :
    ((if offset < total then total - offset else 0) / u).toNat =
      (total.toNat - offset.toNat) / u.toNat := by
  rw [UInt32.toNat_div]
  congr 1
  split_ifs with hlt
  · exact UInt32.toNat_sub_of_le _ _ (UInt32.le_of_lt hlt)
  · exact (Nat.sub_eq_zero_of_le (not_lt.mp fun h => hlt h)).symm

theorem registersAfter_eq (v : PciedevDev) (bar : Bar) (offset u : UInt32) :
    ((if offset < v.memBaseEnd bar - v.memBase bar then v.memBaseEnd bar - v.memBase bar - offset
      else 0) / u).toNat = v.registersAfter bar offset.toNat u.toNat :=
  registersLeft_eq _ _ _

theorem aligned_iff (offset u : UInt32) : offset % u = 0 ↔ u.toNat ∣ offset.toNat := by
  rw [Nat.dvd_iff_mod_eq_zero, ← UInt32.toNat_mod, ← UInt32.toNat_inj]
  rfl

theorem openWindow_moved {c : InlineCall} {dev : Entry} (hdev : c.dev = dev)
    (hcode : ValidCode c.registerSize) {bar : Bar} (hbar : c.bar.toNat = bar.val) :
    Moved owner table dev (openWindow c) fun l s r => l = [] ∧ ¬ s ∧
      ((r = none ∧ ¬ c.Opens (table dev) bar) ∨ (c.Opens (table dev) bar ∧
        r = some (c.width (table dev),
          min c.count ((table dev).registersAfter bar c.offset.toNat (c.width (table dev)).toNat),
          (c.start (table dev) bar).addr))) := by
  subst hdev
  have hwidth := c.width_agrees hcode (table c.dev)
  refine .call trivial (fun _ => rfl) fun v hv => ?_
  obtain rfl : v = table c.dev := hv
  refine .call trivial (fun _ => rfl) fun base hbase => ?_
  obtain rfl := barEntry_of_eq hbase hbar
  refine moved_ite (fun hnull => (moved_ret _).mpr ?_) fun hmapped => ?_
  · exact ⟨rfl, not_false, .inl ⟨rfl, fun hopen => hopen.mapped hnull⟩⟩
  have humod : Moved owner table c.dev (umod c.offset (c.width (table c.dev))) fun l s r =>
      l = [] ∧ ¬ s ∧ r = c.offset % c.width (table c.dev) := by
    rw [umod, if_neg hwidth.ne_zero]
    exact (moved_ret _).mpr ⟨rfl, not_false, rfl⟩
  have hudiv (x : UInt32) : Moved owner table c.dev (udiv x (c.width (table c.dev))) fun l s r =>
      l = [] ∧ ¬ s ∧ r = x / c.width (table c.dev) := by
    rw [udiv, if_neg hwidth.ne_zero]
    exact (moved_ret _).mpr ⟨rfl, not_false, rfl⟩
  apply humod.bind
  intro l₁ s₁ rest hpost
  obtain ⟨hl₁, hs₁, hrest⟩ := hpost
  refine moved_ite (fun hodd => ?_) fun heven => ?_
  · refine (moved_ret _).mpr ⟨by simp [hl₁, move], by simp [hs₁], .inl ⟨rfl, fun hopen => ?_⟩⟩
    exact hodd (hrest.trans ((aligned_iff ..).mpr hopen.aligned))
  · refine .call trivial (fun _ => rfl) fun last hlast =>
      .call trivial (fun _ => rfl) fun first hfirst => ?_
    obtain rfl := barEntry_of_eq hlast hbar
    obtain rfl := barEntry_of_eq hfirst hbar
    apply (hudiv _).bind
    intro l₂ s₂ cnt hpost
    obtain ⟨hl₂, hs₂, hcnt⟩ := hpost
    refine .call trivial (fun _ => rfl) fun base hbase => ?_
    obtain rfl := barEntry_of_eq hbase hbar
    refine (moved_ret _).mpr ⟨by simp [hl₁, hl₂, move], by simp [hs₁, hs₂],
      .inr ⟨⟨hmapped, ?_⟩, ?_⟩⟩
    · exact (aligned_iff ..).mp (hrest ▸ not_not.mp heven)
    · rw [hcnt, registersAfter_eq]
      rfl

/-- A call that is not refused makes its rounds, whatever the environment. -/
theorem openWindow_twp {ε : Type} {E : Environment ε} {w : World ε} {c : InlineCall}
    (hcode : ValidCode c.registerSize) {bar : Bar} (hbar : c.bar.toNat = bar.val)
    (hopen : c.Opens (w.pciedevDevM c.dev) bar) :
    (openWindow c).twp (driver E) w fun _ r u => u = w ∧
      r = some (c.width (w.pciedevDevM c.dev), min c.count ((w.pciedevDevM c.dev).registersAfter bar
        c.offset.toNat (c.width (w.pciedevDevM c.dev)).toNat),
          (c.start (w.pciedevDevM c.dev) bar).addr) := by
  have hwidth := (c.width_agrees hcode (w.pciedevDevM c.dev)).ne_zero
  have hrest : c.offset % c.width (w.pciedevDevM c.dev) = 0 := (aligned_iff ..).mpr hopen.aligned
  unfold InlineCall.width at hwidth hrest
  simp only [openWindow, umod, udiv, if_neg hwidth, perform_eq, call_bind, ret_bind, pure_eq,
    twp_load, twp_memmoryBase hbar, if_neg hopen.mapped, hrest, ne_eq, not_true_eq_false, if_false,
    twp_memBaseEnd hbar, twp_memBase hbar, twp_ret, true_and, registersAfter_eq]
  rfl

theorem registers_moved (dir : Direction) {c : InlineCall} {dev : Entry} (hdev : c.dev = dev)
    (hcode : ValidCode c.registerSize) (hmode : dir = .read → c.rwAccessMode < mtcaSimpleWrite)
    {bar : Bar} (hbar : c.bar.toNat = bar.val) :
    Moved owner table dev (dir.registers c) (InlineEnd dir c (table dev) bar) := by
  have hwidth := c.width_agrees hcode (table dev)
  cases dir with
  | read =>
    apply (openWindow_moved hdev hcode hbar).bind
    intro l₁ s₁ window hpost
    obtain ⟨hl₁, hs₁, hwindow⟩ := hpost
    rcases hwindow with ⟨rfl, hclosed⟩ | ⟨hopen, rfl⟩
    · apply (moved_ret _).mpr
      simpa [hl₁] using InlineEnd.refused (by simp [hs₁]) hclosed
    · refine .call trivial (fun _ => rfl) fun tmp _ => ?_
      refine (readLoop_moved hdev (hmode rfl) hwidth _ (c.start (table dev) bar) tmp 0).imp
        fun l₂ s₂ a hend => ?_
      have hran : InlineEnd .read c (table dev) bar _ _ _ := .ran hopen hend
      simpa [hl₁, hs₁, move] using hran
  | write =>
    apply (openWindow_moved hdev hcode hbar).bind
    intro l₁ s₁ window hpost
    obtain ⟨hl₁, hs₁, hwindow⟩ := hpost
    rcases hwindow with ⟨rfl, hclosed⟩ | ⟨hopen, rfl⟩
    · apply (moved_ret _).mpr
      simpa [hl₁] using InlineEnd.refused (by simp [hs₁]) hclosed
    · refine .call trivial (fun _ => rfl) fun tmp _ => ?_
      refine (writeLoop_moved hdev hwidth _ (c.start (table dev) bar) tmp 0xffffffff 0).imp
        fun l₂ s₂ a hend => ?_
      have hran : InlineEnd .write c (table dev) bar _ _ _ := .ran hopen hend
      simpa [hl₁, hs₁, move] using hran

theorem inline_moved (dir : Direction) {c : InlineCall} {dev : Entry} (hdev : c.dev = dev)
    (hcode : ValidCode c.registerSize) (hmode : dir = .read → c.rwAccessMode < mtcaSimpleWrite)
    {bar : Bar} (hbar : c.bar.toNat = bar.val) :
    Moved owner table dev (dir.inline c) (InlineEnd dir c (table dev) bar) := by
  rw [dir.inline_eq]
  refine .call trivial (fun b => by cases dir <;> rfl) fun r _ => ?_
  have hnone : move (.note (dir.note c)) r = none := by cases dir <;> rfl
  rw [hnone]
  exact registers_moved dir hdev hcode hmode hbar

end
end Upciedev
