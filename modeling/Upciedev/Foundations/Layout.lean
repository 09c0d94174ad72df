import Mathlib.Data.Int.DivMod
import Mathlib.Data.List.Basic
import Mathlib.Tactic.Linarith
import Mathlib.Tactic.Positivity

/-!
# Records in a memory

A memory is read word by word. Blocks of words are laid out in it, over whatever else it holds, and
can be read back as long as they are apart. Records that name each other's address make a list of
such blocks. -/
namespace Upciedev.Foundations

/-- Words that follow each other from an address on. -/
structure Block (ω : Type) where
  off : ℤ
  words : List ω

section
variable {ω : Type} (size : ℕ)

namespace Block

/-- The address behind the block, with words of `size` addresses. -/
def stop (b : Block ω) : ℤ := b.off + size * b.words.length

def get? (b : Block ω) (x : ℤ) : Option ω :=
  if b.off ≤ x ∧ (x - b.off) % size = 0 then b.words[((x - b.off) / size).toNat]? else none

def Apart (b b' : Block ω) : Prop := b.stop size ≤ b'.off ∨ b'.stop size ≤ b.off

instance (b b' : Block ω) : Decidable (b.Apart size b') := inferInstanceAs (Decidable (_ ∨ _))

end Block

def Holds (mem : ℤ → ω) (b : Block ω) : Prop :=
  ∀ i (h : i < b.words.length), mem (b.off + size * i) = b.words[i]

theorem Holds.read {size : ℕ} {mem : ℤ → ω} {b : Block ω} (h : Holds size mem b) {i : ℕ} {x : ω}
    (hx : b.words[i]? = some x) : mem (b.off + size * i) = x := by
  obtain ⟨hi, hword⟩ := List.getElem?_eq_some_iff.mp hx
  exact (h i hi).trans hword

/-- The memory with the blocks in it, and `other` everywhere else. -/
def layOut (other : ℤ → ω) (bs : List (Block ω)) (x : ℤ) : ω :=
  (bs.findSome? fun b => b.get? size x).getD (other x)

section
variable {size} (hsize : 0 < size)
include hsize

theorem Block.get?_word (b : Block ω) {i : ℕ} (h : i < b.words.length) :
    b.get? size (b.off + size * i) = some b.words[i] := by
  have hpos : (0 : ℤ) < size := by exact_mod_cast hsize
  have hoff : b.off + size * i - b.off = size * i := add_sub_cancel_left _ _
  have hle : b.off ≤ b.off + size * i := by
    have hmul : (0 : ℤ) ≤ size * i := by positivity
    linarith
  rw [get?, hoff, if_pos ⟨hle, Int.mul_emod_right _ _⟩, Int.mul_ediv_cancel_left _ hpos.ne']
  simp [h]

theorem Block.get?_outside {b : Block ω} {x : ℤ} (h : x < b.off ∨ b.stop size ≤ x) :
    b.get? size x = none := by
  have hpos : (0 : ℤ) < size := by exact_mod_cast hsize
  by_cases hin : b.off ≤ x ∧ (x - b.off) % size = 0
  · rw [get?, if_pos hin, List.getElem?_eq_none_iff]
    have hstop : b.off + size * b.words.length ≤ x := h.resolve_left (not_lt.mpr hin.1)
    have hquot : (b.words.length : ℤ) ≤ (x - b.off) / size := by
      rw [Int.le_ediv_iff_mul_le hpos]
      linarith
    omega
  · exact if_neg hin

/-- Blocks that are apart can all be read where they were laid out. -/
theorem layOut_holds (other : ℤ → ω) {bs : List (Block ω)} (hapart : bs.Pairwise (Block.Apart size))
    {b : Block ω} (hb : b ∈ bs) : Holds size (layOut size other bs) b := by
  intro i hi
  have hpos : (0 : ℤ) < size := by exact_mod_cast hsize
  have hnone {b' : Block ω} (h : b'.Apart size b) : b'.get? size (b.off + size * i) = none := by
    have hi' : (i : ℤ) + 1 ≤ b.words.length := by exact_mod_cast hi
    have hlast : b.off + size * i < b.stop size := by
      rw [Block.stop]
      nlinarith
    have hfirst : b.off ≤ b.off + size * i := by
      have hmul : (0 : ℤ) ≤ size * i := by positivity
      linarith
    apply Block.get?_outside hsize
    rcases h with hbefore | hbehind
    · exact .inr (hbefore.trans hfirst)
    · exact .inl (hlast.trans_le hbehind)
  have hfind : bs.findSome? (fun b' => b'.get? size (b.off + size * i)) = some b.words[i] := by
    induction bs with
    | nil => exact absurd hb List.not_mem_nil
    | cons c bs ih =>
      obtain ⟨hc, hrest⟩ := List.pairwise_cons.mp hapart
      rcases List.mem_cons.mp hb with rfl | hin
      · rw [List.findSome?_cons, b.get?_word hsize hi]
      · rw [List.findSome?_cons, hnone (hc b hin)]
        exact ih hrest hin
  rw [layOut, hfind]
  rfl

end
end

section
variable {α ρ ω : Type} (place : α → ℤ) (write : ρ → α → List ω) (last : α)

/-- The address of the first record, or the one that stands for none. -/
def firstOf : List (α × ρ) → α
  | [] => last
  | p :: _ => p.1

/-- The blocks of a list of records: each is written with the address of the next one. -/
def linked : List (α × ρ) → List (Block ω)
  | [] => []
  | p :: rest => ⟨place p.1, write p.2 (firstOf last rest)⟩ :: linked rest

theorem mem_linked {l : List (α × ρ)} {k : ℕ} {p : α × ρ} (h : l[k]? = some p) :
    ⟨place p.1, write p.2 (firstOf last (l.drop (k + 1)))⟩ ∈ linked place write last l := by
  induction l generalizing k with
  | nil => exact absurd h (by simp)
  | cons q l ih =>
    cases k with
    | zero =>
      obtain rfl : q = p := by simpa using h
      exact List.mem_cons_self
    | succ k => exact List.mem_cons_of_mem _ (ih (by simpa using h))

end

end Upciedev.Foundations
