import Upciedev.Model.ReadWriteInline

/-!
# Byte order and partial words

The swaps and the narrow stores of the transfer loops, bit by bit. A swap at a width moves
the low bits of that width among themselves, so it is its own inverse there and commutes
with the bit operations.
-/
namespace Upciedev

def bitOf (x : UInt32) (i : ℕ) : Bool := x.toBitVec.getLsbD i

/-- Where bit `i` of an `n`-byte word comes from when its bytes are reversed. -/
def swapBit (n i : ℕ) : ℕ := i % 8 + 8 * (n - 1 - i / 8)

/-- A register word as a client with this swap setting sees it, and back. -/
def clientView (swap : ℤ) (unRegisterSize x : UInt32) : UInt32 :=
  if swap ≠ 0 then upciedevSwapTot unRegisterSize x else x

def Width.bits (w : Width) : ℕ := 8 * w.bytes

section
variable {x y : UInt32} {i n : ℕ}

@[simp] theorem bitOf_and : bitOf (x &&& y) i = (bitOf x i && bitOf y i) := by simp [bitOf]

@[simp] theorem bitOf_or : bitOf (x ||| y) i = (bitOf x i || bitOf y i) := by simp [bitOf]

@[simp] theorem bitOf_xor : bitOf (x ^^^ y) i = (bitOf x i ^^ bitOf y i) := by simp [bitOf]

theorem bitOf_not (hi : i < 32) : bitOf (~~~x) i = !bitOf x i := by simp [bitOf, hi]

theorem bitOf_eq (h : ∀ i < 32, bitOf x i = bitOf y i) : x = y :=
  UInt32.toBitVec_inj.mp (BitVec.eq_of_getLsbD_eq h)

theorem bitOf_ones (hi : i < 32) : bitOf 0xffffffff i = true := by
  interval_cases i <;> rfl

theorem swapBit_lt (hi : i < 8 * n) : swapBit n i < 8 * n := by
  unfold swapBit
  omega

theorem swapBit_swapBit (hi : i < 8 * n) : swapBit n (swapBit n i) = i := by
  unfold swapBit
  omega

theorem bitOf_upciedevSwapl (hi : i < 32) : bitOf (upciedevSwapl x) i = bitOf x (swapBit 4 i) := by
  unfold bitOf upciedevSwapl swapBit
  interval_cases i <;> simp

theorem bitOf_upciedevSwaps (hi : i < 16) : bitOf (upciedevSwaps x) i = bitOf x (swapBit 2 i) := by
  unfold bitOf upciedevSwaps swapBit
  interval_cases i <;> simp

end

namespace Width

variable {w : Width} {x y old : UInt32} {i : ℕ}

theorem bits_le (w : Width) : w.bits ≤ 32 := by cases w <;> decide

theorem bitOf_low (hi : i < 32) : bitOf (w.low x) i = (decide (i < w.bits) && bitOf x i) := by
  cases w with
  | w8 | w16 =>
    simp only [low, bits, bytes, bitOf_and]
    unfold bitOf
    interval_cases i <;> simp
  | w32 => simp [low, bits, bytes, hi]

theorem bitOf_setLow (hi : i < 32) :
    bitOf (w.setLow old x) i = if i < w.bits then bitOf x i else bitOf old i := by
  cases w with
  | w8 | w16 =>
    simp only [setLow, bits, bytes, bitOf_and, bitOf_or]
    unfold bitOf
    interval_cases i <;> simp
  | w32 => simp [setLow, bits, bytes, hi]

theorem low_eq_iff : w.low x = w.low y ↔ ∀ i < w.bits, bitOf x i = bitOf y i := by
  have hle := w.bits_le
  constructor
  · intro h i hi
    have hbit := congrArg (bitOf · i) h
    simpa [bitOf_low (hi.trans_le hle), hi] using hbit
  · intro h
    apply bitOf_eq
    intro i hi
    rw [bitOf_low hi, bitOf_low hi]
    by_cases hlow : i < w.bits
    · rw [h i hlow]
    · simp [hlow]

@[simp] theorem low_low : w.low (w.low x) = w.low x := by
  rw [low_eq_iff]
  intro i hi
  simp [bitOf_low (hi.trans_le w.bits_le), hi]

@[simp] theorem low_setLow : w.low (w.setLow old x) = w.low x := by
  rw [low_eq_iff]
  intro i hi
  simp [bitOf_setLow (hi.trans_le w.bits_le), hi]

end Width

namespace Width

variable {w : Width} {x old r : UInt32}

def Clear (w : Width) (x : UInt32) : Prop := w.setLow x 0 = 0

instance : Decidable (w.Clear x) := inferInstanceAs (Decidable (_ = _))

def AllOnes (w : Width) (x : UInt32) : Prop := w.low x = w.low 0xffffffff

instance : Decidable (w.AllOnes x) := inferInstanceAs (Decidable (_ = _))

theorem clear_iff : w.Clear x ↔ ∀ i < 32, w.bits ≤ i → bitOf x i = false := by
  have hzero (i : ℕ) : bitOf 0 i = false := by simp [bitOf]
  constructor
  · intro h i hi hle
    have hbit := congrArg (bitOf · i) h
    simpa [bitOf_setLow hi, hle.not_gt, hzero] using hbit
  · intro h
    apply bitOf_eq
    intro i hi
    rw [bitOf_setLow hi, hzero]
    split_ifs with hlow
    · rfl
    · exact h i hi (not_lt.mp hlow)

theorem setLow_clear : w.Clear (w.setLow old r) ↔ w.Clear old := by
  simp only [clear_iff]
  apply forall₃_congr
  intro i hi hle
  rw [bitOf_setLow hi, if_neg hle.not_gt]

theorem setLow_eq_iff (w : Width) (old r : UInt32) : w.setLow old r = w.low 0xffffffff ↔
    w.AllOnes r ∧ w.Clear old := by
  constructor
  · intro h
    have hclear : w.Clear (w.setLow old r) := by
      rw [h]
      cases w <;> decide
    refine ⟨?_, setLow_clear.mp hclear⟩
    have hlow : w.low (w.setLow old r) = w.low r := low_setLow
    rw [AllOnes, ← hlow, h, low_low]
  · rintro ⟨hones, hclear⟩
    apply bitOf_eq
    intro i hi
    rw [bitOf_setLow hi, bitOf_low hi]
    by_cases hlow : i < w.bits
    · rw [if_pos hlow, low_eq_iff.mp hones i hlow]
      simp [hlow]
    · rw [if_neg hlow, clear_iff.mp hclear i hi (not_lt.mp hlow)]
      simp [hlow]

theorem swap_clear {u : UInt32} (hu : u.toNat = w.bytes) :
    w.Clear (upciedevSwapTot u x) ↔ w = w16 ∨ w.Clear x := by
  have hu' : u = UInt32.ofNat w.bytes := by rw [← hu, UInt32.ofNat_toNat]
  subst hu'
  cases w with
  | w8 => exact (or_iff_right (by decide)).symm
  | w16 =>
    refine iff_of_true (clear_iff.mpr fun i hi hle => ?_) (.inl rfl)
    change bitOf (upciedevSwaps x) i = false
    have hhigh : 16 ≤ i := hle
    unfold bitOf upciedevSwaps
    interval_cases i <;> simp
  | w32 => exact iff_of_true rfl (.inr rfl)

end Width

section
variable {w : Width} {swap : ℤ} {u x y z : UInt32} {i : ℕ}

theorem bitOf_upciedevSwapTot (hu : u.toNat = w.bytes) (hi : i < w.bits) :
    bitOf (upciedevSwapTot u x) i = bitOf x (swapBit w.bytes i) := by
  have hu' : u = UInt32.ofNat w.bytes := by rw [← hu, UInt32.ofNat_toNat]
  subst hu'
  cases w with
  | w8 =>
    have hsame : swapBit 1 i = i := by
      have hbits : i < 8 := hi
      unfold swapBit
      omega
    exact congrArg (bitOf x) hsame.symm
  | w16 => exact bitOf_upciedevSwaps hi
  | w32 => exact bitOf_upciedevSwapl hi

/-- The view moves the low bits of its width by a fixed map, its own inverse. -/
theorem bitOf_clientView (swap : ℤ) (hu : u.toNat = w.bytes) :
    ∃ f : ℕ → ℕ, (∀ i < w.bits, f i < w.bits ∧ f (f i) = i) ∧
      ∀ x, ∀ i < w.bits, bitOf (clientView swap u x) i = bitOf x (f i) := by
  by_cases hswap : swap = 0
  · exact ⟨id, fun i hi => ⟨hi, rfl⟩, fun x i _ => by simp [clientView, hswap]⟩
  · refine ⟨swapBit w.bytes, fun i hi => ⟨swapBit_lt hi, swapBit_swapBit hi⟩, fun x i hi => ?_⟩
    simp only [clientView, ne_eq, hswap, not_false_eq_true, if_true]
    exact bitOf_upciedevSwapTot hu hi

/-- What the view shows at its width depends on what the word holds there. -/
theorem clientView_congr (hu : u.toNat = w.bytes) (h : w.low x = w.low y) :
    w.low (clientView swap u x) = w.low (clientView swap u y) := by
  obtain ⟨f, hf, hview⟩ := bitOf_clientView swap hu
  rw [Width.low_eq_iff] at h ⊢
  intro i hi
  rw [hview x i hi, hview y i hi]
  exact h _ (hf i hi).1

theorem clientView_setLow (hu : u.toNat = w.bytes) (swap : ℤ) (old x : UInt32) :
    w.low (clientView swap u (w.setLow old x)) = w.low (clientView swap u x) :=
  clientView_congr hu Width.low_setLow

theorem clientView_clientView (hu : u.toNat = w.bytes) :
    w.low (clientView swap u (clientView swap u x)) = w.low x := by
  obtain ⟨f, hf, hview⟩ := bitOf_clientView swap hu
  rw [Width.low_eq_iff]
  intro i hi
  rw [hview _ i hi, hview x _ (hf i hi).1, (hf i hi).2]

/-- A word that is read and turned is clear if it was before, or if two bytes were swapped. -/
theorem Width.clear_clientView {old r : UInt32} (hu : u.toNat = w.bytes) :
    w.Clear (clientView swap u (w.setLow old r)) ↔ w.Clear old ∨ w = .w16 ∧ swap ≠ 0 := by
  unfold clientView
  split_ifs with hswap
  · rw [Width.swap_clear hu, Width.setLow_clear]
    simp [hswap, or_comm]
  · rw [Width.setLow_clear]
    simp [not_not.mp hswap]

/-- An operation on the bits can be carried out on either side of the view. -/
theorem clientView_bitwise {op : UInt32 → UInt32 → UInt32 → UInt32} {g : Bool → Bool → Bool → Bool}
    (hop : ∀ x y z, ∀ i < 32, bitOf (op x y z) i = g (bitOf x i) (bitOf y i) (bitOf z i))
    (hu : u.toNat = w.bytes) :
    w.low (clientView swap u (op x y z)) =
      w.low (op (clientView swap u x) (clientView swap u y) (clientView swap u z)) := by
  obtain ⟨f, hf, hview⟩ := bitOf_clientView swap hu
  have hle := w.bits_le
  rw [Width.low_eq_iff]
  intro i hi
  have hfi := (hf i hi).1
  rw [hview _ i hi, hop _ _ _ _ (hfi.trans_le hle), hop _ _ _ _ (hi.trans_le hle), hview _ i hi,
    hview _ i hi, hview _ i hi]

theorem clientView_ones (hu : u.toNat = w.bytes) :
    w.low (clientView swap u 0xffffffff) = w.low 0xffffffff := by
  obtain ⟨f, hf, hview⟩ := bitOf_clientView swap hu
  have hle := w.bits_le
  rw [Width.low_eq_iff]
  intro i hi
  rw [hview _ i hi, bitOf_ones ((hf i hi).1.trans_le hle), bitOf_ones (hi.trans_le hle)]

end
end Upciedev
