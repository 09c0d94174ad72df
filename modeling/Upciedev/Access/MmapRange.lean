import Upciedev.Boards.Registration

/-!
# Mapping a BAR into a process

`pciedev_remap_mmap_exp` takes the BAR number from the page offset and compares the length
of the range with a size it computes from the low halves of the bounds of the BAR. Its
answer is compared with the resource itself.
-/
namespace Upciedev

open Foundations Program

variable {ε : Type} {E : Environment ε} {w x u : World ε}

namespace BarResource

def mappable (r : BarResource) : ℕ := (r.stop.toNat - r.start.toNat + 1 + 4095) / 4096 * 4096

def span (r : BarResource) : UInt64 := (r.stop.toUInt32 - r.start.toUInt32).toUInt64

/-- The test of the driver. -/
structure Accepts (r : BarResource) (size : UInt64) : Prop where
  present : r.Present
  small : ¬ (pageSize < r.span ∧ r.span < size)

theorem span_toNat (r : BarResource) (h : r.start.toNat ≤ r.stop.toNat) :
    r.span.toNat = (r.stop.toNat - r.start.toNat) % 2 ^ 32 := by
  have hspan :
      r.span.toNat = (2 ^ 32 - r.start.toNat % 2 ^ 32 + r.stop.toNat % 2 ^ 32) % 2 ^ 32 := by
    simp only [span, UInt32.toNat_toUInt64, UInt32.toNat_sub, UInt64.toNat_toUInt32]
  rw [hspan]
  omega

theorem present_iff (r : BarResource) : r.Present ↔ r.start.toNat % 2 ^ 32 ≠ 0 := by
  rw [Present, ne_eq, ← UInt32.toNat_inj]
  simp

end BarResource

/-- The ranges of physical pages that were mapped, in order. -/
def mappedRanges (tr : Trace) : List (UInt64 × UInt64) :=
  tr.filterMap fun e =>
    match e.op with
    | .kernel (.remapPfnRange pfn size) => some (pfn, size)
    | _ => none

def VmArea.size (vma : VmArea) : UInt64 := vma.vmEnd - vma.vmStart

/-- A request succeeds when it names a BAR that is there and fits into its pages, and then the pages
from the start of the BAR on are mapped. -/
structure MapsBar (res : Bar → BarResource) (vma : VmArea) (tr : Trace) (r : ℤ) : Prop where
  success : r = 0 ↔ ∃ i : Bar, vma.vmPgoff.toNat = i.val ∧ (res i).start ≠ 0 ∧
    vma.size.toNat ≤ (res i).mappable
  pages : r = 0 → ∃ (i : Bar) (pfn : UInt64), vma.vmPgoff.toNat = i.val ∧
    mappedRanges tr = [(pfn, vma.size)] ∧ pfn.toNat * 4096 = (res i).start.toNat

/-- Resources that start on a page and end where they start or later. -/
structure PageAligned (res : Bar → BarResource) : Prop where
  start i : (res i).start.toNat % 4096 = 0
  ordered i : (res i).start.toNat ≤ (res i).stop.toNat

/-- `remap_pfn_range` succeeds. -/
structure Remaps (E : Environment ε) : Prop where
  answers (pfn size : UInt64) (e : ε) : ∃ e', E (.remapPfnRange pfn size) e (0 : ℤ) e'
  succeeds (pfn size : UInt64) (e : ε) (r : ℤ) (e' : ε) : E (.remapPfnRange pfn size) e r e' → r = 0

/-- The requests of which the narrow arithmetic makes the right thing. -/
inductive ExactRequest (res : Bar → BarResource) (vma : VmArea) : Prop
  /-- The low half of the page offset names no BAR. -/
  | noBar (h : numberOfBars ≤ vma.vmPgoff.toUInt32.toNat)
  /-- The page offset is beyond the low half, and the BAR its low half names is refused. -/
  | beyond (i : Bar) (hbar : vma.vmPgoff.toUInt32.toNat = i.val) (h : 2 ^ 32 ≤ vma.vmPgoff.toNat)
      (hrefused : ¬ (res i).Accepts vma.size)
  /-- The BAR is not there. -/
  | absent (i : Bar) (hbar : vma.vmPgoff.toUInt32.toNat = i.val) (h : (res i).start = 0)
  /-- The range is longer than the pages of the BAR, and the computed size is more than a page or
  the low half of the start is zero. -/
  | tooLong (i : Bar) (hbar : vma.vmPgoff.toUInt32.toNat = i.val)
      (h : (res i).mappable < vma.size.toNat) (hspan : pageSize < (res i).span ∨ ¬ (res i).Present)
  /-- The BAR lies below 4 GiB, and the range is within its pages and, where the computed size is
  more than a page, within that. -/
  | fits (i : Bar) (hbar : vma.vmPgoff.toNat = i.val) (hlow : (res i).start.toNat < 2 ^ 32)
      (h : vma.size.toNat ≤ (res i).mappable)
      (hspan : ¬ (pageSize < (res i).span ∧ (res i).span < vma.size))

section
variable {res : Bar → BarResource} {map : Bar → IoPtr} {b : Entry} {filp : File} {vma : VmArea}

theorem cInt_bar_iff (y : UInt32) : (cInt y < 0 ∨ (numberOfBars : ℤ) ≤ cInt y) ↔
    numberOfBars ≤ y.toNat := by
  have hlt := y.toNat_lt
  unfold cInt numberOfBars
  split_ifs <;> omega

theorem remapMmap_noBar (h : numberOfBars ≤ vma.vmPgoff.toUInt32.toNat) :
    (pciedevRemapMmapExp filp vma).twp (driver E) x fun _ r _ => r ≠ 0 := by
  simp only [pciedevRemapMmapExp, perform_eq, call_bind, ret_bind, twp_privateData]
  rw [if_pos ((cInt_bar_iff _).mpr h)]
  exact (by decide : eNoEnt ≠ 0)

theorem remapMmap_twp (hfile : x.privateData filp = b)
    (hfilled : BarsFilled res map (x.pciedevDevM b)) (hE : Remaps E) {i : Bar}
    (hbar : vma.vmPgoff.toUInt32.toNat = i.val) :
    (pciedevRemapMmapExp filp vma).twp (driver E) x fun tr r _ =>
      (r = 0 ↔ (res i).Accepts vma.size) ∧ (r = 0 →
        mappedRanges tr = [(((res i).start.toUInt32 >>> pageShift).toUInt64, vma.size)]) := by
  have hin :
      ¬ (cInt vma.vmPgoff.toUInt32 < 0 ∨ (numberOfBars : ℤ) ≤ cInt vma.vmPgoff.toUInt32) := by
    rw [cInt_bar_iff, hbar]
    exact not_le.mpr i.isLt
  subst hfile
  simp only [pciedevRemapMmapExp, perform_eq, call_bind, ret_bind, twp_privateData]
  rw [if_neg hin, twp_memBase hbar, hfilled.memBase]
  by_cases hpresent : (res i).Present
  · rw [if_neg hpresent, twp_memBaseEnd hbar, twp_memBase hbar, hfilled.memBase, hfilled.memBaseEnd]
    have hspan : ((res i).stop.toUInt32 - (res i).start.toUInt32).toUInt64 = (res i).span := rfl
    have hsize : vma.vmEnd - vma.vmStart = vma.size := rfl
    rw [hspan, hsize]
    by_cases hsmall : pageSize < (res i).span ∧ (res i).span < vma.size
    · rw [if_pos hsmall]
      refine ⟨iff_of_false (by decide) fun h => h.small hsmall, fun h => absurd h (by decide)⟩
    · rw [if_neg hsmall, twp_memBase hbar, hfilled.memBase, twp_kernel]
      refine ⟨⟨0, hE.answers _ _ _⟩, fun r e hr => ?_⟩
      obtain rfl := hE.succeeds _ _ _ _ _ hr
      exact ⟨iff_of_true rfl ⟨hpresent, hsmall⟩, fun _ => rfl⟩
  · rw [if_pos (not_not.mp hpresent)]
    exact ⟨iff_of_false (by decide) fun h => hpresent h.present, fun h => absurd h (by decide)⟩

/-- The comparison, in natural numbers: `A` is the test of the driver on a BAR from `S` to `T`, a
range of `L` bytes and the page offset `P`, whose low half is `i`. -/
theorem accepted_exactly {S T L P i span M : ℕ} {A : Prop} (hP : P % 2 ^ 32 = i) (hS : S % 4096 = 0)
    (hspan : span = (T - S) % 2 ^ 32) (hM : M = (T - S + 1 + 4095) / 4096 * 4096)
    (hA : A ↔ S % 2 ^ 32 ≠ 0 ∧ ¬ (4096 < span ∧ span < L)) :
    ((A ↔ P = i ∧ S ≠ 0 ∧ L ≤ M) ∧ (A → P = i ∧ S % 2 ^ 32 / 4096 * 4096 = S)) ↔
      (2 ^ 32 ≤ P ∧ ¬ A) ∨ S = 0 ∨ (M < L ∧ (4096 < span ∨ S % 2 ^ 32 = 0)) ∨
        (P = i ∧ S < 2 ^ 32 ∧ L ≤ M ∧ ¬ (4096 < span ∧ span < L)) := by
  by_cases h : A
  · simp only [h, true_iff, not_true, and_false, false_or, forall_const] at hA ⊢
    omega
  · simp only [h, false_iff, not_false_iff, and_true, false_imp_iff] at hA ⊢
    omega

theorem accepts_iff (r : BarResource) (size : UInt64) :
    r.Accepts size ↔ r.start.toNat % 2 ^ 32 ≠ 0 ∧
      ¬ (4096 < r.span.toNat ∧ r.span.toNat < size.toNat) := by
  rw [← r.present_iff]
  exact ⟨fun h => ⟨h.present, h.small⟩, fun h => ⟨h.1, h.2⟩⟩

theorem pfn_toNat (x : UInt32) : (x >>> pageShift).toUInt64.toNat = x.toNat / 4096 := by
  simp [pageShift, Nat.shiftRight_eq_div_pow]

theorem exactRequest_iff (haligned : PageAligned res) {i : Bar}
    (hbar : vma.vmPgoff.toUInt32.toNat = i.val) :
    ExactRequest res vma ↔
      ((res i).Accepts vma.size ↔
        vma.vmPgoff.toNat = i.val ∧ (res i).start ≠ 0 ∧ vma.size.toNat ≤ (res i).mappable) ∧
      ((res i).Accepts vma.size → vma.vmPgoff.toNat = i.val ∧
        ((res i).start.toUInt32 >>> pageShift).toUInt64.toNat * 4096 = (res i).start.toNat) := by
  have hlow : vma.vmPgoff.toNat % 2 ^ 32 = i.val := by simpa using hbar
  have hordered := haligned.ordered i
  have hzero : (res i).start = 0 ↔ (res i).start.toNat = 0 := by
    rw [← UInt64.toNat_inj]
    rfl
  have hpresent : ¬ (res i).Present ↔ (res i).start.toNat % 2 ^ 32 = 0 := by
    rw [(res i).present_iff, not_not]
  have hexact := accepted_exactly (M := (res i).mappable) hlow (haligned.start i)
    ((res i).span_toNat hordered) rfl (accepts_iff (res i) vma.size)
  rw [pfn_toNat, UInt64.toNat_toUInt32, ne_eq, hzero]
  refine Iff.trans ?_ hexact.symm
  have hsame (j : Bar) (hj : vma.vmPgoff.toUInt32.toNat = j.val) : j = i :=
    Fin.ext (hj.symm.trans hbar)
  constructor
  · intro h
    cases h with
    | noBar h => exact absurd i.isLt (not_lt.mpr (hbar ▸ h))
    | beyond j hj h hrefused =>
      obtain rfl := hsame j hj
      exact .inl ⟨h, hrefused⟩
    | absent j hj h =>
      obtain rfl := hsame j hj
      exact .inr (.inl (hzero.mp h))
    | tooLong j hj h hspan =>
      obtain rfl := hsame j hj
      rw [hpresent] at hspan
      exact .inr (.inr (.inl ⟨h, hspan⟩))
    | fits j hj hlow' h hspan =>
      have hlt : j.val < 6 := j.isLt
      have hji : j = i := Fin.ext (by omega)
      subst hji
      exact .inr (.inr (.inr ⟨hj, hlow', h, hspan⟩))
  · rintro (⟨h, hrefused⟩ | h | ⟨h, hspan⟩ | ⟨hj, hlow', h, hspan⟩)
    · exact .beyond i hbar h hrefused
    · exact .absent i hbar (hzero.mpr h)
    · rw [← hpresent] at hspan
      exact .tooLong i hbar h hspan
    · exact .fits i hj hlow' h hspan

/-- Once a probe has filled in the BARs of entry `b`, a request on a file of it succeeds exactly
when it should and maps the pages it should if and only if it is an exact one. -/
theorem remap_confined_to_bar {dev : PciDev} {fuel : ℕ} {n : ℤ} {tr₀ : Trace} {E' : Environment ε}
    (hbars : Bars E dev res map) (haligned : PageAligned res)
    (hprobe : (pciedevProbeExp fuel dev n).Run (driver E) w tr₀ (0, b.val) u)
    (hsame : (x.pciedevDevM b).barFields = (u.pciedevDevM b).barFields)
    (hfile : x.privateData filp = b) (hE : Remaps E') :
    (∀ tr r y, (pciedevRemapMmapExp filp vma).Run (driver E') x tr r y → MapsBar res vma tr r) ↔
      ExactRequest res vma := by
  have hfilled : BarsFilled res map (x.pciedevDevM b) := (probe_barsFilled hbars hprobe).congr hsame
  by_cases hbar : numberOfBars ≤ vma.vmPgoff.toUInt32.toNat
  · refine iff_of_true (fun tr r y hrun => ?_) (.noBar hbar)
    have hrefused := hrun.of_wp (remapMmap_noBar hbar).wp
    have hnone (i : Bar) : vma.vmPgoff.toNat ≠ i.val := by
      rw [UInt64.toNat_toUInt32] at hbar
      have hlt := i.isLt
      omega
    exact ⟨iff_of_false hrefused fun ⟨i, hi, _⟩ => hnone i hi, fun h => absurd h hrefused⟩
  · have hin : vma.vmPgoff.toUInt32.toNat = (⟨_, not_le.mp hbar⟩ : Bar).val := rfl
    generalize (⟨_, not_le.mp hbar⟩ : Bar) = i at hin
    have hcode := remapMmap_twp hfile hfilled hE hin
    have hsingle {j : Bar} (hj : vma.vmPgoff.toNat = j.val) : j = i := by
      refine Fin.ext (hj.symm.trans ?_)
      rw [UInt64.toNat_toUInt32] at hin
      have hlt : j.val < 6 := j.isLt
      omega
    rw [exactRequest_iff haligned hin]
    constructor
    · intro h
      obtain ⟨tr, r, y, hrun, hr, hmapped⟩ := hcode.exists_run
      obtain ⟨hsuccess, hpages⟩ := h tr r y hrun
      refine ⟨?_, fun haccept => ?_⟩
      · rw [← hr, hsuccess]
        constructor
        · rintro ⟨j, hj, hfits⟩
          obtain rfl := hsingle hj
          exact ⟨hj, hfits⟩
        · rintro ⟨hi, hfits⟩
          exact ⟨i, hi, hfits⟩
      · obtain ⟨j, pfn, hj, hrange, hstart⟩ := hpages (hr.mpr haccept)
        obtain rfl := hsingle hj
        have heq := (hmapped (hr.mpr haccept)).symm.trans hrange
        obtain rfl : ((res j).start.toUInt32 >>> pageShift).toUInt64 = pfn := by simpa using heq
        exact ⟨hj, hstart⟩
    · rintro ⟨hshould, hpages⟩ tr r y hrun
      obtain ⟨hr, hmapped⟩ := hrun.of_wp hcode.wp
      constructor
      · rw [hr, hshould]
        constructor
        · exact fun ⟨hi, hfits⟩ => ⟨i, hi, hfits⟩
        · rintro ⟨j, hj, hfits⟩
          obtain rfl := hsingle hj
          exact ⟨hj, hfits⟩
      · intro hzero
        obtain ⟨hi, hstart⟩ := hpages (hr.mp hzero)
        exact ⟨i, _, hi, hmapped hzero, hstart⟩

end

theorem oneBar_pageAligned : PageAligned oneBar where
  start i := by
    unfold oneBar
    split_ifs <;> rfl
  ordered i := by
    unfold oneBar
    split_ifs <;> decide

theorem Outcome.remaps (o : Outcome) : Remaps o.environment where
  answers _ _ e := ⟨e, rfl⟩
  succeeds _ _ _ _ _ h := (Prod.mk.inj (Option.some.inj h)).1.symm

set_option maxRecDepth 8000 in
theorem remap_confined_to_bar_onePage : ∃ (tr₀ tr : Trace) (w u y : World Unit),
    (pciedevProbeExp 0 0 0).Run (driver (Outcome.environment {})) w tr₀ ((0 : ℤ), 0) u ∧
    (pciedevRemapMmapExp 0 ⟨0, 0x1000, 0⟩).Run (driver (Outcome.environment {})) u tr (0 : ℤ) y ∧
    MapsBar oneBar ⟨0, 0x1000, 0⟩ tr 0 := by
  obtain ⟨tr₀, tr, w, u, y, hprobe, hremap, hfile⟩ : ∃ (tr₀ tr : Trace) (w u y : World Unit),
      (pciedevProbeExp 0 0 0).Run (driver (Outcome.environment {})) w tr₀ ((0 : ℤ), 0) u ∧
      (pciedevRemapMmapExp 0 ⟨0, 0x1000, 0⟩).Run (driver (Outcome.environment {})) u tr (0 : ℤ) y ∧
      u.privateData 0 = 0 :=
    ⟨_, _, .uniform {}, _, _, run_of_answers (Outcome.answers {}) (fun _ _ _ _ h => h) rfl,
      run_of_answers (Outcome.answers {}) (fun _ _ _ _ h => h) rfl, rfl⟩
  have hexact : ExactRequest oneBar ⟨0, 0x1000, 0⟩ :=
    .fits 0 rfl (by decide) (by decide) (by decide)
  have hmaps :=
    (remap_confined_to_bar (b := 0) (Outcome.bars {} 0) oneBar_pageAligned hprobe rfl hfile
    (Outcome.remaps {})).mpr hexact
  exact ⟨tr₀, tr, w, u, y, hprobe, hremap, hmaps tr 0 y hremap⟩

set_option maxRecDepth 8000 in
/-- Two pages are mapped through a BAR of one page. -/
theorem second_page_mapped : ∃ (tr₀ tr : Trace) (w u y : World Unit),
    (pciedevProbeExp 0 0 0).Run (driver (Outcome.environment {})) w tr₀ ((0 : ℤ), 0) u ∧
    (pciedevRemapMmapExp 0 ⟨0, 0x2000, 0⟩).Run (driver (Outcome.environment {})) u tr (0 : ℤ) y ∧
    u.privateData 0 = 0 ∧ ¬ MapsBar oneBar ⟨0, 0x2000, 0⟩ tr 0 := by
  refine ⟨_, _, .uniform {}, _, _, run_of_answers (Outcome.answers {}) (fun _ _ _ _ h => h) rfl,
    run_of_answers (Outcome.answers {}) (fun _ _ _ _ h => h) rfl, rfl, fun h => ?_⟩
  obtain ⟨i, hi, _, hfits⟩ := h.success.mp rfl
  obtain rfl : i = 0 := Fin.ext hi.symm
  exact absurd hfits (by decide)

end Upciedev
