import Upciedev.Access.RegisterMemory
import Upciedev.Boards.Registration

/-!
# What a write leaves in the registers

The three write modes, seen in the byte order of the client, and the registers that
`pciedev_write_inline` changes on memory-like hardware.
-/
namespace Upciedev

open Foundations Program

/-- What an access mode makes of the data, the mask and the old word. -/
def bitwise (accessMode : UInt16) (data mask old : UInt32) : UInt32 :=
  if accessMode = mtcaSimpleWrite then data
  else if accessMode = mtcaSetBits then (old &&& ~~~mask) ||| (data &&& mask)
  else old ^^^ mask

def WriteMode (accessMode : UInt16) : Prop :=
  accessMode = mtcaSimpleWrite ∨ accessMode = mtcaSetBits ∨ accessMode = mtcaSwapBits

def bitwiseBit (accessMode : UInt16) (data mask old : Bool) : Bool :=
  if accessMode = mtcaSimpleWrite then data
  else if accessMode = mtcaSetBits then (old && !mask) || (data && mask)
  else old ^^ mask

section
variable {accessMode : UInt16} {data mask old : UInt32} {w : Width} {i : ℕ}

theorem bitOf_bitwise (hi : i < 32) : bitOf (bitwise accessMode data mask old) i =
    bitwiseBit accessMode (bitOf data i) (bitOf mask i) (bitOf old i) := by
  unfold bitwise bitwiseBit
  split_ifs <;> simp [bitOf_not hi]

theorem low_bitwise_congr {data' mask' old' : UInt32}
    (hdata : accessMode ≠ mtcaSwapBits → w.low data = w.low data')
    (hmask : w.low mask = w.low mask') (hold : w.low old = w.low old') :
    w.low (bitwise accessMode data mask old) = w.low (bitwise accessMode data' mask' old') := by
  rw [Width.low_eq_iff] at hmask hold ⊢
  intro i hi
  have hlt := hi.trans_le w.bits_le
  rw [bitOf_bitwise hlt, bitOf_bitwise hlt, hmask i hi, hold i hi]
  by_cases hswap : accessMode = mtcaSwapBits
  · subst hswap
    rfl
  · rw [Width.low_eq_iff.mp (hdata hswap) i hi]

theorem clientView_bitwise_eq {swap : ℤ} {u : UInt32} (hu : u.toNat = w.bytes) :
    w.low (clientView swap u (bitwise accessMode data mask old)) =
      w.low (bitwise accessMode (clientView swap u data) (clientView swap u mask)
        (clientView swap u old)) :=
  clientView_bitwise (fun _ _ _ _ hi => bitOf_bitwise hi) hu

end

section
variable {H : Hardware} {s : World Memory}

theorem readWritePrivate_writes {regSize accessMode : UInt16} (hmode : WriteMode accessMode)
    {a : IoAddr} (hmem : ∀ k < (Width.ofRegSize regSize).bytes, H.memoryLike (a.add k))
    (value mask extra : UInt32) :
    (readWritePrivate regSize accessMode a value mask extra).twp (driver (memoryEnvironment H)) s
      fun _ words t => words = (value, extra) ∧ ∃ v,
        (Width.ofRegSize regSize).low v = (Width.ofRegSize regSize).low
          (bitwise accessMode value mask (s.env.register (.ofRegSize regSize) a)) ∧
        t = s.withEnv (s.env.setRegister (.ofRegSize regSize) a v) := by
  simp only [readWritePrivate, perform_eq, call_bind, ret_bind, twp_note]
  generalize Width.ofRegSize regSize = w at hmem ⊢
  unfold accessRegister
  rcases hmode with rfl | rfl | rfl
  · rw [if_pos rfl]
    simp only [perform_eq, call_bind, ret_bind, twp_iowrite, pure_eq, twp_ret]
    exact ⟨trivial, _, Width.low_low, rfl⟩
  · rw [if_neg (by decide), if_pos rfl]
    simp only [perform_eq, call_bind, ret_bind, twp_ioread hmem, twp_iowrite, pure_eq, twp_ret]
    refine ⟨trivial, _, ?_, rfl⟩
    rw [Width.low_low, Width.low_eq_iff]
    intro i hi
    have hlt := hi.trans_le w.bits_le
    have hset : ¬ mtcaSetBits = mtcaSimpleWrite := by decide
    simp [bitOf_bitwise hlt, bitwiseBit, hset, bitOf_not hlt, Width.bitOf_low hlt, hi, Bool.or_comm]
  · rw [if_neg (by decide), if_neg (by decide), if_pos rfl]
    simp only [perform_eq, call_bind, ret_bind, twp_ioread hmem, twp_iowrite, pure_eq, twp_ret]
    refine ⟨trivial, _, ?_, rfl⟩
    rw [Width.low_low, Width.low_eq_iff]
    intro i hi
    have hlt := hi.trans_le w.bits_le
    simp only [bitOf_bitwise hlt, bitwiseBit, bitOf_or, bitOf_and, bitOf_not hlt,
      Width.bitOf_low hlt, hi, decide_true, Bool.true_and]
    cases bitOf mask i <;> cases bitOf (s.env.register w a) i <;> rfl

end

def Cursor.after (unRegisterSize : UInt32) (p : Cursor) (i : ℕ) : Cursor :=
  ⟨p.user + UInt64.ofNat (i * unRegisterSize.toNat),
    p.mask + UInt64.ofNat (i * unRegisterSize.toNat), p.addr.add (i * unRegisterSize.toNat : ℕ)⟩

namespace Memory

def Copies (m : Memory) (c : InlineCall) (u : UInt32) (p : Cursor) : Prop :=
  (c.userData ≠ 0 → m.Accessible p.user u.toNat) ∧ (c.userMask ≠ 0 → m.Accessible p.mask u.toNat)

instance (m : Memory) (c : InlineCall) (u : UInt32) (p : Cursor) : Decidable (m.Copies c u p) :=
  inferInstanceAs (Decidable (_ ∧ _))

/-- The first of `n` rounds from `p` on whose copy fails is round `j`; for `j = n` none fails. -/
structure CopiesUpTo (m : Memory) (c : InlineCall) (u : UInt32) (p : Cursor) (n j : ℕ) : Prop where
  le : j ≤ n
  before : ∀ i < j, m.Copies c u (p.after u i)
  failed : j < n → ¬ m.Copies c u (p.after u j)

/-- The mask of a round, all ones without a mask pointer. -/
def maskWord (m : Memory) (c : InlineCall) (u : UInt32) (p : Cursor) : UInt32 :=
  if c.userMask = 0 then 0xffffffff else m.userWord p.mask u.toNat

end Memory

/-- From `p` on `j` registers are written in the client's view, and nothing else changes. -/
structure Written (c : InlineCall) (swap : ℤ) (u : UInt32) (p : Cursor) (m m' : Memory) (j : ℕ) :
    Prop where
  register : ∀ i < j, (Width.ofRegSize c.registerSize).low (clientView swap u
      (m'.register (.ofRegSize c.registerSize) (p.after u i).addr)) =
    (Width.ofRegSize c.registerSize).low (bitwise c.rwAccessMode
      (m.userWord (p.after u i).user u.toNat) (m.maskWord c u (p.after u i))
      (clientView swap u (m.register (.ofRegSize c.registerSize) (p.after u i).addr)))
  frame : ∀ x, (∀ i < j, ∀ k < u.toNat, x ≠ (p.after u i).addr.add k) → m'.io x = m.io x

section
variable {c : InlineCall} {swap : ℤ} {u : UInt32} {p : Cursor} {m m' : Memory} {n j : ℕ}

theorem IoAddr.add_add (a : IoAddr) (x y : ℤ) : (a.add x).add y = a.add (x + y) := by
  simp [IoAddr.add, add_assoc]

@[simp] theorem Cursor.after_zero : p.after u 0 = p := by
  simp [Cursor.after, IoAddr.add]

theorem Cursor.after_next (i : ℕ) : (p.next u).after u i = p.after u (i + 1) := by
  have hstep : (i + 1) * u.toNat = u.toNat + i * u.toNat := by rw [add_mul, one_mul, add_comm]
  have hword : UInt64.ofNat ((i + 1) * u.toNat) = u.toUInt64 + UInt64.ofNat (i * u.toNat) := by
    rw [hstep, UInt64.ofNat_add, UInt64.ofNat_uInt32ToNat]
  have hoff : (p.addr.add u.toNat).add (i * u.toNat : ℕ) = p.addr.add ((i + 1) * u.toNat : ℕ) := by
    rw [hstep, IoAddr.add_add, Nat.cast_add]
  simp only [Cursor.after, Cursor.next, hword, hoff, UInt64.add_assoc]

theorem Cursor.after_ne {i k k' : ℕ} (hk : k < u.toNat) :
    p.addr.add k ≠ (p.after u (i + 1)).addr.add k' := by
  intro h
  have hoff := congrArg IoAddr.off h
  have hle : u.toNat ≤ (i + 1) * u.toNat := Nat.le_mul_of_pos_left _ (Nat.succ_pos i)
  simp only [Cursor.after, IoAddr.add_off, add_assoc, add_right_inj] at hoff
  norm_cast at hoff
  omega

theorem Memory.copies_congr (h : m'.user = m.user) : m'.Copies c u p ↔ m.Copies c u p := by
  rw [Memory.Copies, Memory.Copies, Memory.Accessible, Memory.Accessible, h]
  rfl

theorem Memory.CopiesUpTo.congr (h : m'.CopiesUpTo c u p n j) (huser : m'.user = m.user) :
    m.CopiesUpTo c u p n j where
  le := h.le
  before i hi := (copies_congr huser).mp (h.before i hi)
  failed hj hcopies := h.failed hj ((copies_congr huser).mpr hcopies)

theorem Memory.CopiesUpTo.failed_first (h : ¬ m.Copies c u p) : m.CopiesUpTo c u p (n + 1) 0 := by
  constructor <;> simp [h]

theorem Memory.CopiesUpTo.cons (hfirst : m.Copies c u p) (h : m.CopiesUpTo c u (p.next u) n j) :
    m.CopiesUpTo c u p (n + 1) (j + 1) where
  le := Nat.succ_le_succ h.le
  before i hi := by
    cases i with
    | zero => exact Cursor.after_zero ▸ hfirst
    | succ i => exact Cursor.after_next i ▸ h.before i (Nat.lt_of_succ_lt_succ hi)
  failed hj := Cursor.after_next j ▸ h.failed (Nat.lt_of_succ_lt_succ hj)

theorem Memory.CopiesUpTo.unique {j' : ℕ} (h : m.CopiesUpTo c u p n j)
    (h' : m.CopiesUpTo c u p n j') :
    j = j' := by
  rcases Nat.lt_trichotomy j j' with hlt | heq | hlt
  · exact absurd (h'.before j hlt) (h.failed (hlt.trans_le h'.le))
  · exact heq
  · exact absurd (h.before j' hlt) (h'.failed (hlt.trans_le h.le))

theorem Memory.CopiesUpTo.min (h : m.CopiesUpTo c u p n j) (k : ℕ) :
    m.CopiesUpTo c u p (Min.min n k) (Min.min j k) where
  le := by
    have hle := h.le
    omega
  before i hi := h.before i (by omega)
  failed hlt := by
    have heq : Min.min j k = j := by omega
    rw [heq]
    exact h.failed (by omega)

theorem Written.none : Written c swap u p m m 0 where
  register _ hi := absurd hi (Nat.not_lt_zero _)
  frame _ _ := rfl

theorem Written.cons (hu : WidthAgrees c u) {v : UInt32}
    (hv : (Width.ofRegSize c.registerSize).low (clientView swap u v) =
      (Width.ofRegSize c.registerSize).low (bitwise c.rwAccessMode (m.userWord p.user u.toNat)
        (m.maskWord c u p) (clientView swap u (m.register (.ofRegSize c.registerSize) p.addr))))
    (h : Written c swap u (p.next u) (m.setRegister (.ofRegSize c.registerSize) p.addr v) m' j) :
    Written c swap u p m m' (j + 1) where
  register i hi := by
    cases i with
    | zero =>
      have hkept : m'.register (.ofRegSize c.registerSize) p.addr =
          (Width.ofRegSize c.registerSize).low v := by
        rw [← Memory.register_setRegister]
        apply Memory.register_congr
        intro k hk
        apply h.frame
        intro i _ k' _
        rw [Cursor.after_next]
        exact Cursor.after_ne (hu ▸ hk)
      rw [Cursor.after_zero, hkept, clientView_congr hu Width.low_low, hv]
    | succ i =>
      have hold : (m.setRegister (.ofRegSize c.registerSize) p.addr v).register
          (.ofRegSize c.registerSize) (p.after u (i + 1)).addr =
            m.register (.ofRegSize c.registerSize) (p.after u (i + 1)).addr := by
        apply Memory.register_congr
        intro k _
        apply Memory.setRegister_io_of_ne
        intro k' hk'
        exact (Cursor.after_ne (hu ▸ hk')).symm
      have hround := h.register i (Nat.lt_of_succ_lt_succ hi)
      rw [Cursor.after_next, hold] at hround
      exact hround
  frame x hx := by
    rw [h.frame x fun i hi k hk =>
      Cursor.after_next (p := p) i ▸ hx (i + 1) (Nat.succ_lt_succ hi) k hk]
    apply Memory.setRegister_io_of_ne
    intro k hk
    have hfirst := hx 0 (Nat.succ_pos j) k (hu ▸ hk)
    rwa [Cursor.after_zero] at hfirst

end

section
variable {H : Hardware} {s : World Memory} {c : InlineCall} {u : UInt32}

theorem copyWord_twp (given : UInt64) (src : UInt64) (word : UInt32) :
    (copyWord given u src word).twp (driver (memoryEnvironment H)) s fun _ r t => t = s ∧
      r = if given = 0 then some word else if s.env.Accessible src u.toNat then
        some ((Width.ofBytes u).setLow word (s.env.userWord src u.toNat)) else none := by
  unfold copyWord
  split_ifs with hnull hfound
  · exact ⟨rfl, rfl⟩
  · simp only [copyFromUser, perform_eq, call_bind, ret_bind, pure_eq, twp_copyFromUser, hfound,
      if_true, twp_ret]
    exact ⟨trivial, rfl⟩
  · simp only [copyFromUser, perform_eq, call_bind, ret_bind, pure_eq, twp_copyFromUser, hfound,
      if_false, twp_ret]
    exact ⟨trivial, rfl⟩

/-- The words that a completed round copies; a word without a pointer stays. -/
theorem copyWord_copied {given src : UInt64} {word : UInt32} (hu : WidthAgrees c u)
    (h : given ≠ 0 → s.env.Accessible src u.toNat) :
    (copyWord given u src word).twp (driver (memoryEnvironment H)) s fun _ r t =>
      t = s ∧ ∃ x, r = some x ∧
      (given = 0 → x = word) ∧ (given ≠ 0 → (Width.ofRegSize c.registerSize).low x =
        (Width.ofRegSize c.registerSize).low (s.env.userWord src u.toNat)) := by
  apply twp_mono (copyWord_twp given src word)
  intro _ r t hpost
  obtain ⟨ht, hr⟩ := hpost
  refine ⟨ht, ?_⟩
  by_cases hnull : given = 0
  · rw [if_pos hnull] at hr
    exact ⟨word, hr, fun _ => rfl, fun hgiven => absurd hnull hgiven⟩
  · rw [if_neg hnull, if_pos (h hnull)] at hr
    refine ⟨_, hr, fun hgiven => absurd hgiven hnull, fun _ => ?_⟩
    rw [Width.ofBytes_eq hu, Width.low_setLow]

theorem clientView_written {m : Memory} {p : Cursor} {swap : ℤ} {data mask old v : UInt32}
    (hu : WidthAgrees c u) (hneeded : c.userData ≠ 0 ∨ c.rwAccessMode = mtcaSwapBits)
    (hdata : c.userData ≠ 0 → (Width.ofRegSize c.registerSize).low data =
      (Width.ofRegSize c.registerSize).low (m.userWord p.user u.toNat))
    (hmask : (Width.ofRegSize c.registerSize).low mask =
      (Width.ofRegSize c.registerSize).low (m.maskWord c u p))
    (hv : (Width.ofRegSize c.registerSize).low v = (Width.ofRegSize c.registerSize).low
      (bitwise c.rwAccessMode (clientView swap u data) (clientView swap u mask) old)) :
    (Width.ofRegSize c.registerSize).low (clientView swap u v) =
      (Width.ofRegSize c.registerSize).low
      (bitwise c.rwAccessMode (m.userWord p.user u.toNat) (m.maskWord c u p)
        (clientView swap u old)) := by
  rw [clientView_congr hu hv, clientView_bitwise_eq hu]
  apply low_bitwise_congr
  · intro hmode
    rw [clientView_clientView hu, hdata (hneeded.resolve_right hmode)]
  · rw [clientView_clientView hu, hmask]
  · rfl

theorem writeLoop_twp (hmode : WriteMode c.rwAccessMode)
    (hdata : c.userData ≠ 0 ∨ c.rwAccessMode = mtcaSwapBits) (hu : WidthAgrees c u) (n : ℕ)
    (p : Cursor) (tmpDataForRw tmpMaskForW : UInt32) (retval : ℤ)
    (hmem : ∀ x < n * u.toNat, H.memoryLike (p.addr.add x))
    (hmask : c.userMask = 0 → (Width.ofRegSize c.registerSize).low tmpMaskForW =
      (Width.ofRegSize c.registerSize).low 0xffffffff) :
    (writeLoop c u n p.user p.mask p.addr tmpDataForRw tmpMaskForW retval).twp
      (driver (memoryEnvironment H)) s fun _ a t => ∃ j, s.env.CopiesUpTo c u p n j ∧
        a = retval + j * u.toNat ∧ Written c (s.pciedevDevM c.dev).swap u p s.env t.env j ∧
        t = s.withEnv t.env ∧ t.env.user = s.env.user := by
  induction n generalizing p s tmpDataForRw tmpMaskForW retval with
  | zero => exact ⟨0, ⟨le_rfl, by simp, by simp⟩, by simp, .none, rfl, rfl⟩
  | succ n ih =>
    have hstop (hfailed : ¬ s.env.Copies c u p) : ∃ j, s.env.CopiesUpTo c u p (n + 1) j ∧
        retval = retval + j * u.toNat ∧ Written c (s.pciedevDevM c.dev).swap u p s.env s.env j ∧
        s = s.withEnv s.env ∧ s.env.user = s.env.user :=
      ⟨0, .failed_first hfailed, by simp, .none, rfl, rfl⟩
    unfold writeLoop
    rw [twp_bind]
    by_cases hfirst : c.userData ≠ 0 → s.env.Accessible p.user u.toNat
    swap
    · obtain ⟨hgiven, hlost⟩ := Classical.not_imp.mp hfirst
      apply twp_mono (copyWord_twp c.userData p.user tmpDataForRw)
      rintro _ _ t ⟨rfl, rfl⟩
      rw [if_neg hgiven, if_neg hlost]
      exact hstop fun hcopies => hlost (hcopies.1 hgiven)
    apply twp_mono (copyWord_copied hu hfirst)
    rintro _ _ t ⟨rfl, data, rfl, -, hcopied⟩
    simp only
    rw [twp_bind]
    by_cases hsecond : c.userMask ≠ 0 → t.env.Accessible p.mask u.toNat
    swap
    · obtain ⟨hgiven, hlost⟩ := Classical.not_imp.mp hsecond
      apply twp_mono (copyWord_twp c.userMask p.mask tmpMaskForW)
      rintro _ _ t ⟨rfl, rfl⟩
      rw [if_neg hgiven, if_neg hlost]
      exact hstop fun hcopies => hlost (hcopies.2 hgiven)
    apply twp_mono (copyWord_copied hu hsecond)
    rintro _ _ s ⟨rfl, mask, rfl, hnomask, hmasked⟩
    have hword : (Width.ofRegSize c.registerSize).low mask =
        (Width.ofRegSize c.registerSize).low (s.env.maskWord c u p) := by
      unfold Memory.maskWord
      split_ifs with hnull
      · rw [hnomask hnull, hmask hnull]
      · exact hmasked hnull
    have hhere (k : ℕ) (hk : k < (Width.ofRegSize c.registerSize).bytes) :
        H.memoryLike (p.addr.add k) := by
      apply hmem
      rw [← hu] at hk
      exact hk.trans_le (Nat.le_mul_of_pos_left _ (Nat.succ_pos n))
    have hthere (x : ℕ) (hx : x < n * u.toNat) : H.memoryLike ((p.next u).addr.add x) := by
      have hlater := hmem (u.toNat + x) (by rw [add_mul]; omega)
      rwa [Nat.cast_add, ← IoAddr.add_add] at hlater
    simp only [load, perform_eq, call_bind, ret_bind, twp_load]
    rw [twp_bind]
    apply twp_mono (readWritePrivate_writes hmode hhere _ _ _)
    rintro _ _ _ ⟨rfl, v, hv, rfl⟩
    have hones (hnull : c.userMask = 0) : (Width.ofRegSize c.registerSize).low
        (clientView (s.pciedevDevM c.dev).swap u mask) =
          (Width.ofRegSize c.registerSize).low 0xffffffff := by
      rw [hnomask hnull, clientView_congr hu (hmask hnull), clientView_ones hu]
    apply twp_mono (ih (p.next u) _ _ _ hthere hones)
    intro _ a t hpost
    obtain ⟨j, hj, ha, hw, ht, huser⟩ := hpost
    refine ⟨j + 1, .cons ⟨hfirst, hsecond⟩ (hj.congr rfl), ?_, .cons hu ?_ hw, ht, huser⟩
    · rw [ha]
      push_cast
      ring
    · exact clientView_written hu hdata hcopied hword hv

/-- The whole call: as many registers are written as copies succeed, but no more than rounds are
made. -/
theorem writeInline_twp {bar : Bar} (hcode : ValidCode c.registerSize)
    (hbar : c.bar.toNat = bar.val) (hmode : WriteMode c.rwAccessMode)
    (hdata : c.userData ≠ 0 ∨ c.rwAccessMode = mtcaSwapBits)
    (hopen : c.Opens (s.pciedevDevM c.dev) bar) (hu : c.width (s.pciedevDevM c.dev) = u)
    (hmem : ∀ x < c.rounds (s.pciedevDevM c.dev) bar * u.toNat,
      H.memoryLike ((c.start (s.pciedevDevM c.dev) bar).addr.add x)) :
    (pciedevWriteInline c).twp (driver (memoryEnvironment H)) s fun _ a t => ∃ j,
      s.env.CopiesUpTo c u (c.start (s.pciedevDevM c.dev) bar)
        (c.rounds (s.pciedevDevM c.dev) bar) j ∧
      a = j * u.toNat ∧ Written c (s.pciedevDevM c.dev).swap u (c.start (s.pciedevDevM c.dev) bar)
        s.env t.env j ∧ t = s.withEnv t.env ∧ t.env.user = s.env.user := by
  subst hu
  simp only [pciedevWriteInline, note, perform_eq, call_bind, ret_bind, twp_note, writeRegisters,
    twp_bind]
  apply twp_mono (openWindow_twp hcode hbar hopen)
  rintro _ _ t ⟨rfl, rfl⟩
  apply twp_uninit
  intro tmp
  have hloop := writeLoop_twp (s := t) hmode hdata (c.width_agrees hcode (t.pciedevDevM c.dev))
    (c.rounds (t.pciedevDevM c.dev) bar) (c.start (t.pciedevDevM c.dev) bar) tmp 0xffffffff 0 hmem
    fun _ => rfl
  simp only [zero_add] at hloop
  exact hloop

/-- A count within the window is not cut down, apart from what the counter can reach. -/
theorem InlineCall.rounds_of_inside {v : PciedevDev} {bar : Bar} (hu : 0 < (c.width v).toNat)
    (hinside : c.offset.toNat + c.count * (c.width v).toNat ≤
      (v.memBaseEnd bar - v.memBase bar).toNat) :
    c.rounds v bar = min c.count (2 ^ 31) := by
  have hle : c.count ≤ v.registersAfter bar c.offset.toNat (c.width v).toNat := by
    rw [PciedevDev.registersAfter, Nat.le_div_iff_mul_le hu]
    omega
  rw [InlineCall.rounds, loopRounds, Nat.min_eq_left hle]

section
variable {b : Bar} {j : ℕ} (hcode : ValidCode c.registerSize) (hbar : c.bar.toNat = b.val)
  (hmode : WriteMode c.rwAccessMode) (hdata : c.userData ≠ 0 ∨ c.rwAccessMode = mtcaSwapBits)
  (hopen : c.Opens (s.pciedevDevM c.dev) b) (hu : c.width (s.pciedevDevM c.dev) = u)
  (hinside : c.offset.toNat + c.count * u.toNat ≤
    ((s.pciedevDevM c.dev).memBaseEnd b - (s.pciedevDevM c.dev).memBase b).toNat)
  (hmem : ∀ x < c.count * u.toNat, H.memoryLike ((c.start (s.pciedevDevM c.dev) b).addr.add x))
  (hcopies : s.env.CopiesUpTo c u (c.start (s.pciedevDevM c.dev) b) c.count j)

include hcode hbar hmode hdata hopen hu hinside hmem hcopies

theorem writeInline_inside :
    (pciedevWriteInline c).twp (driver (memoryEnvironment H)) s fun _ retval t =>
      retval = (min j (2 ^ 31) : ℕ) * u.toNat ∧ Written c (s.pciedevDevM c.dev).swap u
        (c.start (s.pciedevDevM c.dev) b) s.env t.env (min j (2 ^ 31)) ∧
      t = s.withEnv t.env ∧ t.env.user = s.env.user := by
  subst hu
  have hpos := (c.width_agrees hcode (s.pciedevDevM c.dev)).pos
  have hrounds := InlineCall.rounds_of_inside hpos hinside
  have hmem' : ∀ x < c.rounds (s.pciedevDevM c.dev) b * (c.width (s.pciedevDevM c.dev)).toNat,
      H.memoryLike ((c.start (s.pciedevDevM c.dev) b).addr.add x) := by
    intro x hx
    apply hmem
    rw [hrounds] at hx
    exact hx.trans_le (Nat.mul_le_mul_right _ (min_le_left _ _))
  apply twp_mono (writeInline_twp hcode hbar hmode hdata hopen rfl hmem')
  rintro _ retval t ⟨k, hk, hretval, hwritten, hkept⟩
  rw [hrounds] at hk
  obtain rfl := hk.unique (hcopies.min (2 ^ 31))
  exact ⟨hretval, hwritten, hkept⟩

end
end

def memoryWorld (v : PciedevDev) (m : Memory) : World Memory := { World.uniform v with env := m }

/-- The caller can access everything up to an address. -/
def memoryUpTo (last : UInt64) : Memory := ⟨fun _ => 0, fun a => if a ≤ last then some 1 else none⟩

end Upciedev
