import Upciedev.Model.Discovery
import Upciedev.Model.Execute

/-!
# Following a chain of headers

Project and module headers form a list in the registers of BAR 0: each names the offset of
the next. Both discovery functions walk it with the same loop, which is treated here for any
kind of header, together with what the walk adds to the board entry.
-/
namespace Upciedev

open Foundations Program

variable {ε α : Type} {E : Environment ε} {base : IoPtr} {regs : ℤ → UInt32}

def Reads (E : Environment ε) (base : IoPtr) (regs : ℤ → UInt32) : Prop :=
  ∀ (off : ℤ) (e : ε) (r : UInt32) (e' : ε), E (.ioread .w32 ⟨base, off⟩) e r e' → r = regs off

/-- BAR 0 answers reads with fixed registers, and memory can be allocated. -/
structure Registers (E : Environment ε) (base : IoPtr) (regs : ℤ → UInt32) : Prop where
  answers (c : KernelCall) (e : ε) : ∃ r e', E c e r e'
  reads : Reads E base regs
  kzalloc (o : KObject) (e : ε) (r : Bool) (e' : ε) : E (.kzalloc o) e r e' → r = true

section
variable {w : World ε} {Q : Trace → α → World ε → Prop}

theorem Reads.read (hE : Reads E base regs) {off : ℤ} {k : UInt32 → Kernel α}
    (hk : ∀ e, (k (regs off)).wp (driver E) (w.withEnv e)
      fun tr a u => Q (⟨.kernel (.ioread .w32 ⟨base, off⟩), regs off⟩ :: tr) a u) :
    (call (I := driverInterface) (.kernel (.ioread .w32 ⟨base, off⟩)) k).wp (driver E) w Q := by
  apply (wp_kernel ..).mpr
  intro r e hr
  obtain rfl : r = regs off := hE _ _ _ _ hr
  exact hk e

theorem Registers.read (hE : Registers E base regs) {off : ℤ} {k : UInt32 → Kernel α}
    (hk : ∀ e, (k (regs off)).twp (driver E) (w.withEnv e)
      fun tr a u => Q (⟨.kernel (.ioread .w32 ⟨base, off⟩), regs off⟩ :: tr) a u) :
    (call (I := driverInterface) (.kernel (.ioread .w32 ⟨base, off⟩)) k).twp (driver E) w Q := by
  refine (twp_kernel ..).mpr ⟨hE.answers _ _, fun r e hr => ?_⟩
  obtain rfl : r = regs off := hE.reads _ _ _ _ hr
  exact hk e

theorem Registers.allocate (hE : Registers E base regs) {o : KObject} {k : Bool → Kernel α}
    (hk : ∀ e, (k true).twp (driver E) (w.withEnv e)
      fun tr a u => Q (⟨.kernel (.kzalloc o), true⟩ :: tr) a u) :
    (call (I := driverInterface) (.kernel (.kzalloc o)) k).twp (driver E) w Q := by
  refine (twp_kernel ..).mpr ⟨hE.answers _ _, fun r e hr => ?_⟩
  obtain rfl : r = true := hE.kzalloc _ _ _ _ hr
  exact hk e

end

theorem cInt_eq_zero {x : UInt32} : cInt x = 0 ↔ x = 0 := by
  have hlt := x.toNat_lt
  unfold cInt
  constructor
  · intro h
    split_ifs at h
    · exact UInt32.toNat.inj (by simpa using h)
    · omega
  · rintro rfl
    simp

section
variable (isHeader : ℤ → Prop) (next : ℤ → UInt32)

/-- The chain from an address: headers below `2 ^ 31` up to a zero address or to a word that is no
header. The walk computes offsets as C `int`s. -/
inductive Chain : UInt32 → List UInt32 → Prop
  | nil {a : UInt32} (hend : a = 0 ∨ ¬ isHeader (cInt a)) : Chain a []
  | cons {a : UInt32} {l : List UInt32} (hne : a ≠ 0) (hlt : a.toNat < 2 ^ 31)
      (hheader : isHeader a.toNat) (hrest : Chain (next a.toNat) l) : Chain a (a :: l)

/-- What one round of the walk does: at a header, `add` to the entry and go to the next address;
elsewhere nothing and stop. -/
structure Fills (E : Environment ε) (dev : Entry) (base : IoPtr) (fill : IoAddr → Kernel ℤ)
    (add : ℤ → PciedevDev → PciedevDev) : Prop where
  header (off : ℤ) (h : isHeader off) (w : World ε) : (fill ⟨base, off⟩).twp (driver E) w
    fun _ r u => r = cInt (next off) ∧ ∃ e, u = (w.updateDev dev (add off)).withEnv e
  other (off : ℤ) (h : ¬ isHeader off) (w : World ε) : (fill ⟨base, off⟩).twp (driver E) w
    fun _ r u => r = 0 ∧ ∃ e, u = w.withEnv e

end

/-- An entry after a walk over the given addresses. -/
def addAll (add : ℤ → PciedevDev → PciedevDev) (l : List UInt32) (v : PciedevDev) : PciedevDev :=
  l.foldl (fun v a => add a.toNat v) v

section
variable {isHeader : ℤ → Prop} {next : ℤ → UInt32} {add : ℤ → PciedevDev → PciedevDev}
  {fill : IoAddr → Kernel ℤ} {dev : Entry}

/-- With one round more than there are headers the walk ends, having added each of them. -/
theorem followChain_twp (hfill : Fills isHeader next E dev base fill add) {a : UInt32}
    {l : List UInt32} (hchain : Chain isHeader next a l) {fuel : ℕ} (hfuel : l.length < fuel)
    (w : World ε) :
    (followChain fill ⟨base, 0⟩ fuel (cInt a)).twp (driver E) w fun _ _ u =>
      ∃ e, u = (w.updateDev dev (addAll add l)).withEnv e := by
  induction hchain generalizing fuel w with
  | @nil a hend =>
    obtain ⟨fuel, rfl⟩ := Nat.exists_eq_add_one.mpr hfuel
    have hsame : w.updateDev dev (addAll add []) = w := w.updateDev_eq_self rfl
    rw [followChain, hsame]
    by_cases hzero : a = 0
    · rw [if_pos (cInt_eq_zero.mpr hzero)]
      exact ⟨w.env, rfl⟩
    · rw [if_neg (cInt_eq_zero.not.mpr hzero), twp_bind]
      have hstop := hfill.other (0 + cInt a) (by simpa using hend.resolve_left hzero) w
      apply twp_mono hstop
      intro _ r u hpost
      obtain ⟨hr, e, hu⟩ := hpost
      subst hr
      cases fuel with
      | zero => exact ⟨e, hu⟩
      | succ fuel => exact ⟨e, hu⟩
  | @cons a l hne hlt hheader _ ih =>
    obtain ⟨fuel, rfl⟩ := Nat.exists_eq_add_one.mpr (Nat.zero_lt_of_lt hfuel)
    rw [followChain, if_neg (cInt_eq_zero.not.mpr hne), twp_bind, cInt_of_lt hlt]
    have hround := hfill.header (0 + a.toNat) (by simpa using hheader) w
    apply twp_mono hround
    intro _ r u hpost
    obtain ⟨hr, e, hu⟩ := hpost
    rw [hr, zero_add]
    have hlength : l.length < fuel := Nat.lt_of_succ_lt_succ hfuel
    apply twp_mono (ih hlength u)
    intro _ _ u' hpost
    obtain ⟨e', hu'⟩ := hpost
    refine ⟨e', ?_⟩
    rw [hu', hu, World.updateDev_withEnv, World.withEnv_withEnv, World.updateDev_updateDev,
      zero_add]
    rfl

theorem discover_twp (hfill : Fills isHeader next E dev base fill add) {a : UInt32}
    {l : List UInt32} (hne : a ≠ 0) (hchain : Chain isHeader next a l) {fuel : ℕ}
    (hfuel : l.length < fuel) {w : World ε} (hbase : (w.pciedevDevM dev).memmoryBase 0 = base) :
    (discover fill dev fuel (cInt a)).twp (driver E) w fun _ _ u =>
      ∃ e, u = (w.updateDev dev (addAll add l)).withEnv e := by
  rw [discover, if_neg (cInt_eq_zero.not.mpr hne)]
  simp only [perform_eq, call_bind, ret_bind, twp_load, hbase]
  exact followChain_twp hfill hchain hfuel w

section
variable {P : World ε → Prop}
  (hfill : ∀ a w, P w → (fill a).wp (driver E) w fun _ _ u => P u)
include hfill

theorem followChain_inv (baddress : IoAddr) (fuel : ℕ) (tmpNext : ℤ) {w : World ε} (hw : P w) :
    (followChain fill baddress fuel tmpNext).wp (driver E) w fun _ _ u => P u := by
  induction fuel generalizing tmpNext w with
  | zero =>
    rw [followChain, wp_ite]
    exact ⟨fun _ => hw, fun _ => (wp_fault _).mpr trivial⟩
  | succ fuel ih =>
    rw [followChain, wp_ite]
    refine ⟨fun _ => hw, fun _ => (wp_bind ..).mpr ?_⟩
    exact wp_mono (hfill _ w hw) fun _ r u hu => ih r hu

theorem refillStart_inv (baddress : IoAddr) (fuel : ℕ) (tmpNext : ℤ) {w : World ε} (hw : P w) :
    (refillStart fill baddress fuel tmpNext).wp (driver E) w fun _ _ u => P u := by
  induction fuel generalizing tmpNext w with
  | zero =>
    rw [refillStart, wp_ite]
    exact ⟨fun _ => hw, fun _ => (wp_fault _).mpr trivial⟩
  | succ fuel ih =>
    rw [refillStart, wp_ite]
    refine ⟨fun _ => hw, fun _ => (wp_bind ..).mpr ?_⟩
    exact wp_mono (hfill _ w hw) fun _ r u hu => ih r hu

theorem scanBars_inv (dev : Entry) (fuel : ℕ) (bars : List Bar) {w : World ε} (hw : P w) :
    (scanBars fill dev fuel bars).wp (driver E) w fun _ _ u => P u := by
  induction bars generalizing w with
  | nil => exact hw
  | cons i bars ih =>
    simp only [scanBars, perform_eq, call_bind, ret_bind, wp_load, wp_ite, wp_bind]
    refine ⟨fun _ => ih hw, fun _ => ?_⟩
    exact wp_mono (refillStart_inv hfill _ _ _ hw) fun _ _ u hu => ih hu

theorem discover_inv (dev : Entry) (fuel : ℕ) (tmpNext : ℤ) {w : World ε} (hw : P w) :
    (discover fill dev fuel tmpNext).wp (driver E) w fun _ _ u => P u := by
  rw [discover, wp_ite]
  refine ⟨fun _ => scanBars_inv hfill dev fuel _ hw, fun _ => ?_⟩
  simp only [perform_eq, call_bind, ret_bind, wp_load]
  exact followChain_inv hfill _ _ _ hw

end
end
end Upciedev
