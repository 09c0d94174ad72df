import Mathlib.Tactic

/-!
# Little-endian values in byte stores

A value is kept in a store as its bytes, lowest first, at consecutive places. The places
are given by a function, so that a store may be addressed in any way.
-/
namespace Upciedev.Foundations

/-- The little-endian value of the first `n` bytes of `f`. -/
def leValue : ℕ → (ℕ → UInt8) → ℕ
  | 0, _ => 0
  | n + 1, f => (f 0).toNat + 256 * leValue n fun k => f (k + 1)

def byteAt (v k : ℕ) : UInt8 := UInt8.ofNat (v / 256 ^ k)

section
variable {n k v : ℕ} {f g : ℕ → UInt8}

theorem byteAt_succ : byteAt v (k + 1) = byteAt (v / 256) k := by
  rw [byteAt, byteAt, Nat.pow_succ', Nat.div_div_eq_div_mul]

theorem leValue_congr (h : ∀ k < n, f k = g k) : leValue n f = leValue n g := by
  induction n generalizing f g with
  | zero => rfl
  | succ n ih =>
    rw [leValue, leValue, h 0 (Nat.succ_pos n), ih fun k hk => h (k + 1) (Nat.succ_lt_succ hk)]

theorem leValue_lt : leValue n f < 256 ^ n := by
  induction n generalizing f with
  | zero => exact Nat.one_pos
  | succ n ih =>
    have hfirst := (f 0).toNat_lt
    have hrest := @ih fun k => f (k + 1)
    rw [leValue, Nat.pow_succ']
    omega

/-- The bytes of a value that was put together from bytes. -/
theorem byteAt_leValue (hk : k < n) : byteAt (leValue n f) k = f k := by
  induction n generalizing f k with
  | zero => omega
  | succ n ih =>
    have hfirst := (f 0).toNat_lt
    cases k with
    | zero =>
      apply UInt8.toNat_inj.mp
      rw [byteAt, leValue, UInt8.toNat_ofNat']
      omega
    | succ k =>
      have hrest : leValue (n + 1) f / 256 = leValue n fun k => f (k + 1) := by
        rw [leValue]
        omega
      rw [byteAt_succ, hrest, ih (Nat.lt_of_succ_lt_succ hk)]

/-- A value is put together from its bytes, as far as they reach. -/
theorem leValue_byteAt : leValue n (byteAt v) = v % 256 ^ n := by
  induction n generalizing v with
  | zero => rw [leValue, Nat.pow_zero, Nat.mod_one]
  | succ n ih =>
    have hrest : (fun k => byteAt v (k + 1)) = byteAt (v / 256) := funext fun _ => byteAt_succ
    have hfirst : (byteAt v 0).toNat = v % 256 := by
      rw [byteAt, UInt8.toNat_ofNat', Nat.pow_zero, Nat.div_one]
    rw [leValue, hrest, ih, hfirst, Nat.pow_succ', Nat.mod_mul]

end

section
variable {A β : Type} [DecidableEq A] {m : A → β} {place : ℕ → A} {n k : ℕ} {val : ℕ → β} {a : A}

/-- The store after values were put into the first `n` places. -/
def overwrite (m : A → β) (place : ℕ → A) : ℕ → (ℕ → β) → A → β
  | 0, _ => m
  | n + 1, val => Function.update (overwrite m place n val) (place n) (val n)

theorem overwrite_of_ne (h : ∀ k < n, a ≠ place k) : overwrite m place n val a = m a := by
  induction n with
  | zero => rfl
  | succ n ih =>
    rw [overwrite, Function.update_of_ne (h n (Nat.lt_succ_self n)), ih fun k hk =>
      h k (Nat.lt_succ_of_lt hk)]

/-- Whatever is read was there before or was put there. -/
theorem overwrite_eq_or (m : A → β) (place : ℕ → A) (n : ℕ) (val : ℕ → β) (a : A) :
    overwrite m place n val a = m a ∨ ∃ k, overwrite m place n val a = val k := by
  induction n with
  | zero => exact .inl rfl
  | succ n ih =>
    rw [overwrite]
    by_cases hlast : a = place n
    · rw [hlast, Function.update_self]
      exact .inr ⟨n, rfl⟩
    · rw [Function.update_of_ne hlast]
      exact ih

theorem overwrite_place (hplace : ∀ j < n, ∀ k < n, place j = place k → j = k) (hk : k < n) :
    overwrite m place n val (place k) = val k := by
  induction n with
  | zero => omega
  | succ n ih =>
    rw [overwrite]
    by_cases hlast : k = n
    · rw [hlast, Function.update_self]
    · have hne : place k ≠ place n := fun heq => hlast (hplace k hk n (Nat.lt_succ_self n) heq)
      have hinner (i : ℕ) (hi : i < n) (j : ℕ) (hj : j < n) : place i = place j → i = j :=
        hplace i (Nat.lt_succ_of_lt hi) j (Nat.lt_succ_of_lt hj)
      rw [Function.update_of_ne hne]
      exact ih hinner (by omega)

theorem leValue_overwrite {m : A → UInt8} {v : ℕ}
    (hplace : ∀ j < n, ∀ k < n, place j = place k → j = k) :
    leValue n (fun k => overwrite m place n (byteAt v) (place k)) = v % 256 ^ n := by
  rw [← leValue_byteAt]
  exact leValue_congr fun k hk => overwrite_place hplace hk

end
end Upciedev.Foundations
