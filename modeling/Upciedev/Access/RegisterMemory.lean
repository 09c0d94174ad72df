import Upciedev.Foundations.ByteStore
import Upciedev.Access.InlineEnd

/-!
# Memory-like registers

An environment whose registers hold what was last written to them, byte by byte, and in
which the bytes of the caller are there or not.
-/
namespace Upciedev

open Foundations Program

/-- The bytes behind the BARs, and the bytes of the caller that can be accessed. -/
structure Memory where
  io : IoAddr → UInt8
  user : UInt64 → Option UInt8

/-- The bytes that are memory-like, and what a register outside of them answers. -/
structure Hardware where
  memoryLike : IoAddr → Prop
  answers : Width → IoAddr → UInt32 → Prop
  answers_some : ∀ w a, ∃ r, answers w a r

namespace Memory

def register (m : Memory) (w : Width) (a : IoAddr) : UInt32 :=
  UInt32.ofNat (leValue w.bytes fun k => m.io (a.add k))

def setRegister (m : Memory) (w : Width) (a : IoAddr) (v : UInt32) : Memory :=
  { m with io := overwrite m.io (fun k => a.add k) w.bytes (byteAt v.toNat) }

def Accessible (m : Memory) (src : UInt64) (n : ℕ) : Prop :=
  ∀ k < n, (m.user (src + UInt64.ofNat k)).isSome

instance (m : Memory) (src : UInt64) (n : ℕ) : Decidable (m.Accessible src n) :=
  Nat.decidableBallLT n fun k _ => (m.user (src + UInt64.ofNat k)).isSome

def userWord (m : Memory) (src : UInt64) (n : ℕ) : UInt32 :=
  UInt32.ofNat (leValue n fun k => (m.user (src + UInt64.ofNat k)).getD 0)

def setUser (m : Memory) (dst : UInt64) (n : ℕ) (v : UInt32) : Memory :=
  { m with
    user := overwrite m.user (fun k => dst + UInt64.ofNat k) n fun k => some (byteAt v.toNat k) }

end Memory

def Hardware.Reads (H : Hardware) (m : Memory) (w : Width) (a : IoAddr) (r : UInt32) : Prop :=
  ((∀ k < w.bytes, H.memoryLike (a.add k)) → r = m.register w a) ∧
    ((¬ ∀ k < w.bytes, H.memoryLike (a.add k)) → H.answers w a r)

/-- Copies of elements and register accesses act on the memory; other calls may do anything. -/
def memoryEnvironment (H : Hardware) : Environment Memory
  | .copyFromUser (.data n) src, m, r, m' =>
      r = (if m.Accessible src n.toNat then some (m.userWord src n.toNat) else none) ∧ m' = m
  | .copyToUser (.data n) dst v, m, uncopied, m' =>
      if m.Accessible dst n.toNat then uncopied = false ∧ m' = m.setUser dst n.toNat v
      else uncopied = true ∧ m'.io = m.io ∧
        ∀ x, (∀ k < n.toNat, x ≠ dst + UInt64.ofNat k) → m'.user x = m.user x
  | .ioread w a, m, r, m' => H.Reads m w a r ∧ m' = m
  | .iowrite w a v, m, _, m' => m' = m.setRegister w a v
  | .uninit, m, _, m' => m' = m
  | _, _, _, _ => True

section
variable {m m' : Memory} {w : Width} {a b : IoAddr} {v x : UInt32}

theorem IoAddr.add_injective (a : IoAddr) (n : ℕ) :
    ∀ j < n, ∀ k < n, a.add (j : ℤ) = a.add (k : ℤ) → j = k := by
  intro j _ k _ h
  have hoff := congrArg IoAddr.off h
  simpa using hoff

theorem Width.low_toNat (w : Width) (x : UInt32) : (w.low x).toNat = x.toNat % 256 ^ w.bytes := by
  cases w with
  | w8 => exact (UInt32.toNat_and x 0xff).trans (Nat.and_two_pow_sub_one_eq_mod _ 8)
  | w16 => exact (UInt32.toNat_and x 0xffff).trans (Nat.and_two_pow_sub_one_eq_mod _ 16)
  | w32 => exact (Nat.mod_eq_of_lt x.toNat_lt).symm

theorem Width.toNat_leValue (w : Width) (f : ℕ → UInt8) :
    (UInt32.ofNat (leValue w.bytes f)).toNat = leValue w.bytes f := by
  have hlt : leValue w.bytes f < 256 ^ w.bytes := leValue_lt
  have hle : 256 ^ w.bytes ≤ 2 ^ 32 := by cases w <;> decide
  rw [UInt32.toNat_ofNat', Nat.mod_eq_of_lt (hlt.trans_le hle)]

theorem Width.low_leValue (w : Width) (f : ℕ → UInt8) :
    w.low (UInt32.ofNat (leValue w.bytes f)) = UInt32.ofNat (leValue w.bytes f) := by
  rw [← UInt32.toNat_inj, w.low_toNat, w.toNat_leValue, Nat.mod_eq_of_lt leValue_lt]

theorem Memory.register_setRegister : (m.setRegister w a v).register w a = w.low v := by
  rw [← UInt32.toNat_inj, w.low_toNat]
  exact (w.toNat_leValue _).trans (leValue_overwrite (a.add_injective w.bytes))

theorem Memory.register_congr (h : ∀ k < w.bytes, m'.io (a.add k) = m.io (a.add k)) :
    m'.register w a = m.register w a := congrArg UInt32.ofNat (leValue_congr h)

theorem Memory.setRegister_io_of_ne {y : IoAddr} (h : ∀ k < w.bytes, y ≠ a.add k) :
    (m.setRegister w a v).io y = m.io y := overwrite_of_ne h

end

section
variable {H : Hardware} {α : Type} {s : World Memory} {Q : Trace → α → World Memory → Prop}

theorem twp_ioread {w : Width} {a : IoAddr} (hmem : ∀ k < w.bytes, H.memoryLike (a.add k))
    (k : UInt32 → Kernel α) :
    (call (I := driverInterface) (.kernel (.ioread w a)) k).twp (driver (memoryEnvironment H)) s Q ↔
      (k (s.env.register w a)).twp (driver (memoryEnvironment H)) s
        fun tr b t => Q (⟨.kernel (.ioread w a), s.env.register w a⟩ :: tr) b t := by
  refine twp_step (.kernel (.ioread w a)) (fun r t => ?_) k
  constructor
  · rintro ⟨e, ⟨⟨hread, -⟩, rfl⟩, rfl⟩
    exact ⟨hread hmem, rfl⟩
  · rintro ⟨rfl, rfl⟩
    exact ⟨_, ⟨⟨fun _ => rfl, fun hnot => absurd hmem hnot⟩, rfl⟩, rfl⟩

theorem twp_iowrite (w : Width) (a : IoAddr) (v : UInt32) (k : Unit → Kernel α) :
    (call (I := driverInterface) (.kernel (.iowrite w a v)) k).twp
      (driver (memoryEnvironment H)) s Q ↔
      (k ()).twp (driver (memoryEnvironment H)) (s.withEnv (s.env.setRegister w a v))
        fun tr b t => Q (⟨.kernel (.iowrite w a v), ()⟩ :: tr) b t := by
  refine twp_step (.kernel (.iowrite w a v)) (fun r t => ?_) k
  constructor
  · rintro ⟨e, rfl, rfl⟩
    exact ⟨rfl, rfl⟩
  · rintro ⟨-, rfl⟩
    exact ⟨_, rfl, rfl⟩

theorem twp_copyFromUser (n : UInt32) (src : UInt64) (k : Option UInt32 → Kernel α) :
    (call (I := driverInterface) (.kernel (.copyFromUser (.data n) src)) k).twp
        (driver (memoryEnvironment H)) s Q ↔
      (k (if s.env.Accessible src n.toNat then some (s.env.userWord src n.toNat) else none)).twp
        (driver (memoryEnvironment H)) s fun tr b t => Q (⟨.kernel (.copyFromUser (.data n) src),
          if s.env.Accessible src n.toNat then some (s.env.userWord src n.toNat) else
            none⟩ :: tr) b t := by
  refine twp_step (.kernel (.copyFromUser (.data n) src)) (fun r t => ?_) k
  constructor
  · rintro ⟨e, ⟨rfl, rfl⟩, rfl⟩
    exact ⟨rfl, rfl⟩
  · rintro ⟨rfl, rfl⟩
    exact ⟨_, ⟨rfl, rfl⟩, rfl⟩

theorem twp_copyToUser {n : UInt32} {dst : UInt64} (h : s.env.Accessible dst n.toNat) (v : UInt32)
    (k : Bool → Kernel α) :
    (call (I := driverInterface) (.kernel (.copyToUser (.data n) dst v)) k).twp
        (driver (memoryEnvironment H)) s Q ↔
      (k false).twp (driver (memoryEnvironment H)) (s.withEnv (s.env.setUser dst n.toNat v))
        fun tr b t => Q (⟨.kernel (.copyToUser (.data n) dst v), false⟩ :: tr) b t := by
  refine twp_step (.kernel (.copyToUser (.data n) dst v)) (fun r t => ?_) k
  constructor
  · rintro ⟨e, hcopy, rfl⟩
    obtain ⟨rfl, rfl⟩ := (if_pos h).mp hcopy
    exact ⟨rfl, rfl⟩
  · rintro ⟨rfl, rfl⟩
    exact ⟨_, (if_pos h).mpr ⟨rfl, rfl⟩, rfl⟩

theorem twp_uninit {k : UInt32 → Kernel α} (h : ∀ x, (k x).twp (driver (memoryEnvironment H)) s
      fun tr b t => Q (⟨.kernel .uninit, x⟩ :: tr) b t) :
    (call (I := driverInterface) (.kernel .uninit) k).twp (driver (memoryEnvironment H)) s Q := by
  refine (twp_kernel .uninit k).mpr ⟨⟨0, s.env, rfl⟩, ?_⟩
  rintro x _ rfl
  exact h x

end
end Upciedev
