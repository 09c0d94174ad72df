import Mathlib.Data.List.GetD
import Upciedev.Model.Discovery

/-!
# Names of boards and modules

A name is decoded word by word over the bytes of an older one: a blank or a zero ends the loop over
its own word only, and the next word is written behind the gap. What a client gets is cut at the
first zero, and is the name all the same.
-/
namespace Upciedev

open Foundations Program

theorem getD_takeWhile {α : Type} (p : α → Bool) (d : α) (l : List α) (i : ℕ) :
    (l.takeWhile p).getD i d = if ∀ j ≤ i, p (l.getD j d) = true then l.getD i d else d := by
  induction l generalizing i with
  | nil => simp
  | cons a l ih =>
    by_cases ha : p a = true
    · rw [List.takeWhile_cons_of_pos ha]
      cases i with
      | zero => simp [ha]
      | succ i =>
        have hsplit : (∀ j ≤ i + 1, p ((a :: l).getD j d) = true) ↔
            ∀ j ≤ i, p (l.getD j d) = true := by
          constructor
          · intro h j hj
            simpa using h (j + 1) (by omega)
          · rintro h (_ | j) hj
            · simpa using ha
            · simpa using h j (by omega)
        simp only [List.getD_cons_succ, ih, hsplit]
    · rw [List.takeWhile_cons_of_neg ha, if_neg]
      · simp
      · exact fun h => ha (by simpa using h 0 (by omega))

/-- A buffer that follows the bytes `b` up to the first one without `p`, and has a zero there, is
copied out as these bytes and zeros behind them. -/
theorem strncpy_prefix {n : ℕ} {p : UInt8 → Bool} (hzero : p 0 = false) {b : ℕ → UInt8}
    {src : Fin n → UInt8}
    (hsrc : ∀ i : Fin n, (∀ j < i.val, p (b j) = true) → src i = if p (b i) = true then b i else 0)
    (i : Fin n) : strncpy src i = if ∀ j ≤ i.val, p (b j) = true then b i else 0 := by
  have hne {c : UInt8} (hc : p c = true) : c ≠ 0 := by
    rintro rfl
    rw [hzero] at hc
    cases hc
  by_cases hall : ∀ j ≤ i.val, p (b j) = true
  · have hfollows (j : Fin n) (hj : j ≤ i) : src j = b j := by
      rw [hsrc j fun k hk => hall k (by omega), if_pos (hall j hj)]
    have hnone : ∀ j, j ≤ i → src j ≠ 0 := fun j hj => by
      rw [hfollows j hj]
      exact hne (hall j hj)
    rw [strncpy, if_pos hnone, if_pos hall, hfollows i le_rfl]
  · -- the first byte that ends the name is a zero in the buffer
    have hends : ∃ j, j ≤ i.val ∧ p (b j) ≠ true := by
      simpa using hall
    obtain ⟨hle, hend⟩ := Nat.find_spec hends
    have hbefore : ∀ j < Nat.find hends, p (b j) = true := fun j hj => by
      by_contra hj'
      exact Nat.find_min hends hj ⟨by omega, hj'⟩
    have hstop : src ⟨Nat.find hends, by omega⟩ = 0 := by
      rw [hsrc _ hbefore, if_neg hend]
    rw [strncpy, if_neg, if_neg hall]
    exact fun h => h _ (Fin.mk_le_of_le_val hle) hstop

/-- The bytes of the words of a name, from the highest to the lowest. -/
def nameBytes (words : List UInt32) : List UInt8 :=
  words.flatMap fun word => [nameByte word 0, nameByte word 1, nameByte word 2, nameByte word 3]

def isNameChar (ach : UInt8) : Bool := ach ≠ 0x20 ∧ ach ≠ 0

/-- The longest prefix of the bytes without a blank or a zero, and zeros behind it. -/
def decodedName {n : ℕ} (words : List UInt32) : Fin n → UInt8 :=
  fun i => ((nameBytes words).takeWhile isNameChar).getD i 0

theorem decodedName_eq {n : ℕ} (words : List UInt32) (i : Fin n) :
    decodedName words i = if ∀ j ≤ i.val, isNameChar ((nameBytes words).getD j 0) = true then
      (nameBytes words).getD i 0 else 0 := getD_takeWhile isNameChar _ _ _

section
variable {n : ℕ} {word : UInt32} {k left : ℕ} {name : Fin n → UInt8}

theorem nameWord_other (hleft : left ≤ 4) {i : Fin n}
    (hi : i.val < k + (4 - left) ∨ k + 4 ≤ i.val) :
    nameWord word k left name i = name i := by
  induction left generalizing name with
  | zero => rfl
  | succ left ih =>
    have hput (c : UInt8) : (if i.val = 4 - (left + 1) + k then c else name i) = name i :=
      if_neg (by omega)
    unfold nameWord
    dsimp only
    split_ifs
    · exact hput 0
    · exact (ih (by omega) (by omega)).trans (hput _)

/-- Up to the first byte that ends the name, and with a zero there, the word is written as it is. -/
theorem nameWord_at (hleft : left ≤ 4) {m : ℕ} (hm : 4 - left ≤ m) (hlt : m < 4) {i : Fin n}
    (hi : i.val = m + k)
    (hbefore : ∀ j, 4 - left ≤ j → j < m → isNameChar (nameByte word j) = true) :
    nameWord word k left name i = if isNameChar (nameByte word m) = true then
      nameByte word m else 0 := by
  induction left generalizing name with
  | zero => omega
  | succ left ih =>
    unfold nameWord
    dsimp only
    by_cases hfirst : m = 4 - (left + 1)
    · subst hfirst
      by_cases hend : nameByte word (4 - (left + 1)) = 0x20 ∨ nameByte word (4 - (left + 1)) = 0
      · have hstop : isNameChar (nameByte word (4 - (left + 1))) ≠ true := by
          simpa [isNameChar, or_iff_not_imp_left] using hend
        rw [if_pos hend, if_pos hi, if_neg hstop]
      · have hgoes : isNameChar (nameByte word (4 - (left + 1))) = true := by
          simpa [isNameChar, not_or] using hend
        rw [if_neg hend, if_pos hgoes, nameWord_other (by omega) (by omega), if_pos hi]
    · have hgoes := hbefore (4 - (left + 1)) le_rfl (by omega)
      have hend :
          ¬ (nameByte word (4 - (left + 1)) = 0x20 ∨ nameByte word (4 - (left + 1)) = 0) := by
        simpa [isNameChar, not_or] using hgoes
      rw [if_neg hend]
      exact ih (by omega) (by omega) fun j hj => hbefore j (by omega)

end

/-- The words of a name, written one after the other from byte `k` on. -/
def nameWords {n : ℕ} : List UInt32 → ℕ → (Fin n → UInt8) → (Fin n → UInt8)
  | [], _, name => name
  | word :: words, k, name => nameWords words (k + 4) (nameWord word k 4 name)

theorem length_nameBytes (words : List UInt32) : (nameBytes words).length = 4 * words.length := by
  induction words with
  | nil => rfl
  | cons word words ih =>
    have hcons : nameBytes (word :: words) =
        [nameByte word 0, nameByte word 1, nameByte word 2, nameByte word 3] ++ nameBytes words :=
          rfl
    rw [hcons, List.length_append, ih, List.length_cons]
    simp only [List.length_cons, List.length_nil]
    omega

theorem nameBytes_cons (word : UInt32) (words : List UInt32) (m : ℕ) :
    (nameBytes (word :: words)).getD m 0 =
      if m < 4 then nameByte word m else (nameBytes words).getD (m - 4) 0 := by
  rcases m with _ | _ | _ | _ | m <;> simp [nameBytes]

section
variable {n : ℕ} {words : List UInt32} {k : ℕ} {name : Fin n → UInt8}

theorem nameWords_other {i : Fin n} (hi : i.val < k ∨ k + 4 * words.length ≤ i.val) :
    nameWords words k name i = name i := by
  induction words generalizing k name with
  | nil => rfl
  | cons word words ih =>
    rw [List.length_cons] at hi
    rw [nameWords, ih (by omega)]
    exact nameWord_other le_rfl (by omega)

/-- Up to the first byte that ends the name, and with a zero there, the words are written as they
are. -/
theorem nameWords_at {m : ℕ} (hm : m < 4 * words.length) {i : Fin n} (hi : i.val = m + k)
    (hbefore : ∀ j < m, isNameChar ((nameBytes words).getD j 0) = true) :
    nameWords words k name i =
      if isNameChar ((nameBytes words).getD m 0) = true then (nameBytes words).getD m 0 else 0 := by
  induction words generalizing k name m with
  | nil => simp at hm
  | cons word words ih =>
    rw [List.length_cons] at hm
    simp only [nameBytes_cons] at hbefore ⊢
    rw [nameWords]
    by_cases hword : m < 4
    · rw [nameWords_other (by omega), nameWord_at le_rfl (by omega) hword hi, if_pos hword]
      intro j _ hj
      simpa [if_pos (show j < 4 by omega)] using hbefore j hj
    · rw [ih (m := m - 4) (by omega) (by omega), if_neg hword]
      intro j hj
      simpa using hbefore (j + 4) (by omega)

end

theorem strncpy_nameWords (words : List UInt32) (old : Fin (4 * words.length + 1) → UInt8)
    (hlast : old (Fin.last _) = 0) : strncpy (nameWords words 0 old) = decodedName words := by
  funext i
  rw [decodedName_eq]
  refine strncpy_prefix (b := fun j => (nameBytes words).getD j 0) rfl (fun i hi => ?_) i
  by_cases hword : i.val < 4 * words.length
  · exact nameWords_at hword rfl hi
  · obtain rfl : i = Fin.last _ := Fin.ext (by simp only [Fin.val_last]; omega)
    have hend : (nameBytes words).getD (Fin.last (4 * words.length)).val 0 = 0 := by
      rw [List.getD_eq_default]
      simp [length_nameBytes]
    rw [nameWords_other (by simp), hlast, hend, ite_self]

end Upciedev
