import Upciedev.Access.BitwiseWrite

/-!
# Reading back what was written

A read loop on memory-like registers delivers their client view, as long as the scratch
register is alive. After a plain write the caller gets its own bytes back.
-/
namespace Upciedev

open Foundations Program

theorem Hardware.reads_some (H : Hardware) (m : Memory) (w : Width) (a : IoAddr) :
    ∃ r, H.Reads m w a r := by
  by_cases hmem : ∀ k < w.bytes, H.memoryLike (a.add k)
  · exact ⟨_, fun _ => rfl, fun hnot => absurd hmem hnot⟩
  · obtain ⟨r, hr⟩ := H.answers_some w a
    exact ⟨r, fun hall => absurd hall hmem, fun _ => hr⟩

/-- The scratch BAR is mapped, and the scratch register does not read as all ones in its low
bits. -/
structure ScratchAlive (H : Hardware) (v : PciedevDev) (m : Memory) (scratch : Bar) : Prop where
  bar_eq : v.scratchBar.toNat = scratch.val
  mapped : v.memmoryBase scratch ≠ none
  reads : ∀ r, H.Reads m (.ofRegSize (UInt16.ofInt v.registerSize))
      ⟨v.memmoryBase scratch, v.scratchOffset.toNat⟩ r →
    (Width.ofRegSize (UInt16.ofInt v.registerSize)).low r ≠
      (Width.ofRegSize (UInt16.ofInt v.registerSize)).low 0xffffffff

section
variable {H : Hardware} {s : World Memory} {dev : Entry} {scratch : Bar}

theorem readWritePrivate_reads {accessMode : UInt16} (hmode : accessMode < mtcaSimpleWrite)
    (regSize : UInt16) (a : IoAddr) (value mask extra : UInt32) :
    (readWritePrivate regSize accessMode a value mask extra).twp (driver (memoryEnvironment H)) s
      fun _ words t => t = s ∧ ∃ r, H.Reads s.env (.ofRegSize regSize) a r ∧
        words = if accessMode = mtReadToExtraBuffer then
          (value, (Width.ofRegSize regSize).setLow extra r)
          else ((Width.ofRegSize regSize).setLow value r, extra) := by
  rw [readWritePrivate_eq hmode]
  obtain ⟨answer, hanswer⟩ := H.reads_some s.env (.ofRegSize regSize) a
  rw [twp_note, twp_kernel]
  refine ⟨⟨answer, s.env, hanswer, rfl⟩, ?_⟩
  rintro r _ ⟨hr, rfl⟩
  exact ⟨rfl, r, hr, rfl⟩

theorem readWritePrivate_fetched {regSize accessMode : UInt16}
    (hmode : accessMode < mtcaSimpleWrite) {a : IoAddr}
    (hmem : ∀ k < (Width.ofRegSize regSize).bytes, H.memoryLike (a.add k)) (tmp : UInt32) :
    (readWritePrivate regSize accessMode a tmp tmp tmp).twp (driver (memoryEnvironment H)) s
      fun _ words t => t = s ∧ (if accessMode = mtReadToExtraBuffer then words.2 else words.1) =
        (Width.ofRegSize regSize).setLow tmp (s.env.register (.ofRegSize regSize) a) := by
  apply twp_mono (readWritePrivate_reads hmode _ _ _ _ _)
  rintro _ _ t ⟨rfl, r, hr, rfl⟩
  obtain rfl := hr.1 hmem
  refine ⟨rfl, ?_⟩
  split_ifs <;> rfl

/-- All ones at the width of the device, as the scratch check compares them. -/
theorem deviceScrachTest_twp :
    (deviceScrachTest dev).twp (driver (memoryEnvironment H)) s fun _ test t =>
    t = s ∧ (Width.ofRegSize (UInt16.ofInt (s.pciedevDevM dev).registerSize)).low test =
      (Width.ofRegSize (UInt16.ofInt (s.pciedevDevM dev).registerSize)).low 0xffffffff := by
  simp only [deviceScrachTest, perform_eq, call_bind, ret_bind, pure_eq, twp_load]
  split_ifs with hbyte
  · rw [hbyte]
    exact ⟨rfl, rfl⟩
  · simp only [twp_load]
    split_ifs with hshort
    · rw [hshort]
      exact ⟨rfl, rfl⟩
    · exact ⟨rfl, rfl⟩

theorem pciedevCheckScratch_twp (h : ScratchAlive H (s.pciedevDevM dev) s.env scratch) :
    (pciedevCheckScratch dev).twp (driver (memoryEnvironment H)) s fun _ result t =>
      t = s ∧ result = 0 := by
  simp only [pciedevCheckScratch, perform_eq, call_bind, ret_bind, twp_note, readScratch, twp_bind,
    twp_load, twp_memmoryBase h.bar_eq, if_neg h.mapped]
  apply twp_mono deviceScrachTest_twp
  rintro _ test t ⟨rfl, htest⟩
  apply twp_uninit
  intro tmp
  rw [twp_bind]
  apply twp_mono (readWritePrivate_reads (by decide) _ _ _ _ _)
  rintro _ _ t ⟨rfl, r, hr, rfl⟩
  have hdifferent :
      ¬ (Width.ofRegSize (UInt16.ofInt (t.pciedevDevM dev).registerSize)).setLow tmp r =
      test := by
    intro heq
    apply h.reads r hr
    rw [← htest, ← heq, Width.low_setLow]
  have hplain : ¬ mtcaSimpleRead = mtReadToExtraBuffer := by decide
  simp only [hplain, if_false, hdifferent]
  exact ⟨rfl, rfl⟩

end

/-- From `p` on the caller holds the client view of `n` registers, and nothing else changed. -/
structure Delivered (c : InlineCall) (swap : ℤ) (u : UInt32) (p : Cursor) (m m' : Memory) (n : ℕ) :
    Prop where
  bytes : ∀ i < n, ∀ k < u.toNat, m'.user ((p.after u i).user + UInt64.ofNat k) =
    some (byteAt ((Width.ofRegSize c.registerSize).low (clientView swap u
      (m.register (.ofRegSize c.registerSize) (p.after u i).addr))).toNat k)
  frame : ∀ x, (∀ y < n * u.toNat, x ≠ p.user + UInt64.ofNat y) → m'.user x = m.user x
  io : m'.io = m.io

section
variable {c : InlineCall} {swap : ℤ} {u : UInt32} {p : Cursor} {m m' : Memory} {n : ℕ}

theorem Cursor.after_user (i k : ℕ) :
    (p.after u i).user + UInt64.ofNat k = p.user + UInt64.ofNat (i * u.toNat + k) := by
  rw [Cursor.after, UInt64.add_assoc, UInt64.ofNat_add]

theorem Cursor.next_user (k : ℕ) :
    (p.next u).user + UInt64.ofNat k = p.user + UInt64.ofNat (u.toNat + k) := by
  rw [Cursor.next, UInt64.add_assoc, UInt64.ofNat_add, UInt64.ofNat_uInt32ToNat]

theorem user_injective (dst : UInt64) {size : ℕ} (hfit : size ≤ 2 ^ 64) :
    ∀ j < size, ∀ k < size, dst + UInt64.ofNat j = dst + UInt64.ofNat k → j = k := by
  intro j hj k hk h
  have hword := congrArg UInt64.toNat ((UInt64.add_right_inj _).mp h)
  rw [UInt64.toNat_ofNat', UInt64.toNat_ofNat', Nat.mod_eq_of_lt (hj.trans_le hfit),
    Nat.mod_eq_of_lt (hk.trans_le hfit)] at hword
  exact hword

theorem Delivered.none : Delivered c swap u p m m 0 where
  bytes _ hi := absurd hi (Nat.not_lt_zero _)
  frame _ _ := rfl
  io := rfl

theorem Delivered.cons (hfit : (n + 1) * u.toNat ≤ 2 ^ 64) {v : UInt32}
    (hv : v = (Width.ofRegSize c.registerSize).low (clientView swap u
      (m.register (.ofRegSize c.registerSize) p.addr)))
    (h : Delivered c swap u (p.next u) (m.setUser p.user u.toNat v) m' n) :
    Delivered c swap u p m m' (n + 1) where
  bytes i hi k hk := by
    cases i with
    | zero =>
      have hkept : m'.user (p.user + UInt64.ofNat k) =
          (m.setUser p.user u.toNat v).user (p.user + UInt64.ofNat k) := by
        apply h.frame
        intro y hy heq
        rw [Cursor.next_user] at heq
        have hsame := user_injective p.user hfit k (by rw [add_mul]; omega) (u.toNat + y)
          (by rw [add_mul]; omega) heq
        omega
      have hle : u.toNat ≤ 2 ^ 64 := (Nat.le_mul_of_pos_left _ (Nat.succ_pos n)).trans hfit
      rw [Cursor.after_zero, hkept, ← hv]
      exact overwrite_place (user_injective p.user hle) hk
    | succ i =>
      have hround := h.bytes i (Nat.lt_of_succ_lt_succ hi) k hk
      rw [Cursor.after_next] at hround
      exact hround
  frame x hx := by
    rw [h.frame x fun y hy =>
      Cursor.next_user (p := p) y ▸ hx (u.toNat + y) (by rw [add_mul]; omega)]
    apply overwrite_of_ne
    intro k hk
    exact hx k (hk.trans_le (Nat.le_mul_of_pos_left _ (Nat.succ_pos n)))
  io := h.io

theorem Memory.Accessible.next (h : m.Accessible p.user ((n + 1) * u.toNat)) (v : UInt32) :
    (m.setUser p.user u.toNat v).Accessible (p.next u).user (n * u.toNat) := by
  intro k hk
  have hbefore := h (u.toNat + k) (by rw [add_mul]; omega)
  rw [Cursor.next_user]
  rcases overwrite_eq_or m.user (fun k => p.user + UInt64.ofNat k) u.toNat
    (fun k => some (byteAt v.toNat k)) (p.user + UInt64.ofNat (u.toNat + k)) with hkept | ⟨j, hput⟩
  · exact (congrArg Option.isSome hkept).trans hbefore
  · exact congrArg Option.isSome hput

theorem Memory.Accessible.first (h : m.Accessible p.user ((n + 1) * u.toNat)) :
    m.Accessible p.user u.toNat := fun k hk =>
  h k (hk.trans_le (Nat.le_mul_of_pos_left _ (Nat.succ_pos n)))

end

section
variable {H : Hardware} {s : World Memory} {c : InlineCall} {u : UInt32} {scratch : Bar}

theorem readLoop_twp (hmode : c.rwAccessMode < mtcaSimpleWrite) (hbuffer : c.userData ≠ 0)
    (hu : WidthAgrees c u) (n : ℕ) (p : Cursor) (tmpDataForRw : UInt32) (retval : ℤ)
    (hmem : ∀ x < n * u.toNat, H.memoryLike (p.addr.add x)) (hfit : n * u.toNat ≤ 2 ^ 64)
    (haccess : s.env.Accessible p.user (n * u.toNat))
    (halive : ScratchAlive H (s.pciedevDevM c.dev) s.env scratch) :
    (readLoop c u n p.user p.addr tmpDataForRw retval).twp (driver (memoryEnvironment H)) s
      fun _ a t => a = retval + n * u.toNat ∧
        Delivered c (s.pciedevDevM c.dev).swap u p s.env t.env n := by
  induction n generalizing p s tmpDataForRw retval with
  | zero => exact ⟨by simp, .none⟩
  | succ n ih =>
    have hhere (k : ℕ) (hk : k < (Width.ofRegSize c.registerSize).bytes) :
        H.memoryLike (p.addr.add k) := by
      apply hmem
      rw [← hu] at hk
      exact hk.trans_le (Nat.le_mul_of_pos_left _ (Nat.succ_pos n))
    have hthere (x : ℕ) (hx : x < n * u.toNat) : H.memoryLike ((p.next u).addr.add x) := by
      have hlater := hmem (u.toNat + x) (by rw [add_mul]; omega)
      rwa [Nat.cast_add, ← IoAddr.add_add] at hlater
    unfold readLoop
    rw [twp_bind]
    apply twp_mono (readWritePrivate_fetched hmode hhere _)
    rintro _ words s ⟨rfl, hword⟩
    simp only [hword]
    have hcheck (x y : UInt32) :
        (if x = y then pciedevCheckScratch c.dev else pure 0).twp (driver (memoryEnvironment H)) s
          fun _ result t => t = s ∧ result = 0 :=
      (twp_ite _ _ _ _ _ _).mpr ⟨fun _ => pciedevCheckScratch_twp halive, fun _ => ⟨rfl, rfl⟩⟩
    rw [twp_bind]
    apply twp_mono (hcheck _ _)
    rintro _ _ s ⟨rfl, rfl⟩
    have hcopied := haccess.first
    simp only [ne_eq, not_true_eq_false, if_false, hbuffer, not_false_eq_true, if_true, perform_eq,
      call_bind, ret_bind, twp_load]
    rw [twp_copyToUser hcopied]
    simp only [Bool.false_eq_true, if_false]
    have hvalue (x : UInt32) : (Width.ofBytes u).low
        (if ¬ (s.pciedevDevM c.dev).swap = 0 then
            upciedevSwapTot u ((Width.ofRegSize c.registerSize).setLow tmpDataForRw x)
          else (Width.ofRegSize c.registerSize).setLow tmpDataForRw x) =
        (Width.ofRegSize c.registerSize).low (clientView (s.pciedevDevM c.dev).swap u x) := by
      rw [← clientView_setLow hu _ tmpDataForRw, Width.ofBytes_eq hu]
      rfl
    have hrest : n * u.toNat ≤ 2 ^ 64 := (Nat.mul_le_mul_right _ (Nat.le_succ n)).trans hfit
    refine twp_mono (ih (p.next u) _ _ hthere hrest (haccess.next _) ?_) ?_
    · exact ⟨halive.bar_eq, halive.mapped, halive.reads⟩
    · rintro _ a t ⟨ha, hdelivered⟩
      refine ⟨?_, .cons hfit (hvalue _) hdelivered⟩
      rw [ha]
      push_cast
      ring

def InlineCall.readBack (c : InlineCall) (accessMode : UInt16) (dst : UInt64) : InlineCall :=
  { c with rwAccessMode := accessMode, userData := dst, userMask := 0 }

theorem readInline_twp {b : Bar} (hcode : ValidCode c.registerSize) (hbar : c.bar.toNat = b.val)
    (hmode : c.rwAccessMode < mtcaSimpleWrite) (hbuffer : c.userData ≠ 0)
    (hopen : c.Opens (s.pciedevDevM c.dev) b) (hu : c.width (s.pciedevDevM c.dev) = u)
    (hrounds : c.rounds (s.pciedevDevM c.dev) b = c.count)
    (hmem : ∀ x < c.count * u.toNat, H.memoryLike ((c.start (s.pciedevDevM c.dev) b).addr.add x))
    (hfit : c.count * u.toNat ≤ 2 ^ 64) (haccess : s.env.Accessible c.userData (c.count * u.toNat))
    (halive : ScratchAlive H (s.pciedevDevM c.dev) s.env scratch) :
    (pciedevReadInline c).twp (driver (memoryEnvironment H)) s fun _ a t => a = c.count * u.toNat ∧
      Delivered c (s.pciedevDevM c.dev).swap u (c.start (s.pciedevDevM c.dev) b) s.env
        t.env c.count := by
  subst hu
  simp only [pciedevReadInline, perform_eq, call_bind, ret_bind, twp_note, readRegisters, twp_bind]
  apply twp_mono (openWindow_twp hcode hbar hopen)
  rintro _ _ t ⟨rfl, rfl⟩
  apply twp_uninit
  intro tmp
  have hloop := readLoop_twp (s := t) hmode hbuffer (c.width_agrees hcode (t.pciedevDevM c.dev))
    c.count (c.start (t.pciedevDevM c.dev) b) tmp 0 hmem hfit haccess halive
  unfold InlineCall.rounds at hrounds
  rw [zero_add] at hloop
  rw [hrounds]
  exact hloop

end

theorem byteAt_userWord {m : Memory} {w : Width} {src : UInt64} {n k : ℕ} (hn : n = w.bytes)
    (hk : k < n) (hfound : (m.user (src + UInt64.ofNat k)).isSome) :
    some (byteAt (w.low (m.userWord src n)).toNat k) = m.user (src + UInt64.ofNat k) := by
  subst hn
  obtain ⟨b, hb⟩ := Option.isSome_iff_exists.mp hfound
  rw [Memory.userWord, w.low_leValue, w.toNat_leValue, byteAt_leValue hk, hb]
  rfl

/-- What a plain write took from one buffer is what a read of the same registers delivers to
another. -/
theorem Written.delivered {c c' : InlineCall} {swap : ℤ} {u : UInt32} {p p' : Cursor}
    {m m' m'' : Memory} {n : ℕ} (hwritten : Written c swap u p m m' n)
    (hdelivered : Delivered c' swap u p' m' m'' n)
    (hu : WidthAgrees c u) (hmode : c.rwAccessMode = mtcaSimpleWrite) (hdata : c.userData ≠ 0)
    (hcopies : ∀ i < n, m.Copies c u (p.after u i)) (hsize : c'.registerSize = c.registerSize)
    (haddr : p'.addr = p.addr) :
    ∀ x < n * u.toNat, m''.user (p'.user + UInt64.ofNat x) = m.user (p.user + UInt64.ofNat x) := by
  intro x hx
  have hround : x / u.toNat < n := Nat.div_lt_of_lt_mul (by rwa [Nat.mul_comm])
  have hbyte : x % u.toNat < u.toNat := Nat.mod_lt _ hu.pos
  have hplace : x / u.toNat * u.toNat + x % u.toNat = x := Nat.div_add_mod' x u.toNat
  have hafter : (p'.after u (x / u.toNat)).addr = (p.after u (x / u.toNat)).addr := by
    rw [Cursor.after, Cursor.after, haddr]
  have hread := hdelivered.bytes _ hround _ hbyte
  have hwrote := hwritten.register _ hround
  have hword := byteAt_userWord hu hbyte ((hcopies _ hround).1 hdata _ hbyte)
  rw [bitwise, if_pos hmode] at hwrote
  rw [hsize, hafter, hwrote, hword] at hread
  rwa [Cursor.after_user, Cursor.after_user, hplace] at hread

/-- On memory-like registers a plain write followed by a read with the same window returns the
whole count and the bytes that were written. -/
theorem write_then_read {H : Hardware} {s : World Memory} {c : InlineCall} {bar scratch : Bar}
    {u : UInt32} (hcode : ValidCode c.registerSize) (hbar : c.bar.toNat = bar.val)
    (hmode : c.rwAccessMode = mtcaSimpleWrite) (hdata : c.userData ≠ 0)
    (hopen : c.Opens (s.pciedevDevM c.dev) bar) (hu : c.width (s.pciedevDevM c.dev) = u)
    (hwindow :
      ((s.pciedevDevM c.dev).memBaseEnd bar - (s.pciedevDevM c.dev).memBase bar).toNat < 2 ^ 31)
    (hinside : c.offset.toNat + c.count * u.toNat ≤
      ((s.pciedevDevM c.dev).memBaseEnd bar - (s.pciedevDevM c.dev).memBase bar).toNat)
    (hmem : ∀ x < c.count * u.toNat, H.memoryLike ((c.start (s.pciedevDevM c.dev) bar).addr.add x))
    (hcopies : ∀ i < c.count, s.env.Copies c u ((c.start (s.pciedevDevM c.dev) bar).after u i))
    {accessMode : UInt16} (hread : accessMode < mtcaSimpleWrite) {dst : UInt64} (hdst : dst ≠ 0)
    (haccess : s.env.Accessible dst (c.count * u.toNat)) :
    (pciedevWriteInline c).twp (driver (memoryEnvironment H)) s fun _ written s' =>
      written = c.count * u.toNat ∧ (ScratchAlive H (s.pciedevDevM c.dev) s'.env scratch →
        (pciedevReadInline (c.readBack accessMode dst)).twp (driver (memoryEnvironment H)) s'
          fun _ retval t => retval = c.count * u.toNat ∧ ∀ k < c.count * u.toNat,
            t.env.user (dst + UInt64.ofNat k) = s.env.user (c.userData + UInt64.ofNat k)) := by
  have hwidth : WidthAgrees c u := hu ▸ c.width_agrees hcode (s.pciedevDevM c.dev)
  have hall : s.env.CopiesUpTo c u (c.start (s.pciedevDevM c.dev) bar) c.count c.count :=
    ⟨le_rfl, hcopies, fun h => absurd h (lt_irrefl _)⟩
  have hcount : c.count ≤ 2 ^ 31 := by
    have hle := Nat.le_mul_of_pos_right c.count hwidth.pos
    omega
  refine twp_mono
    (writeInline_inside hcode hbar (.inl hmode) (.inl hdata) hopen hu hinside hmem hall) ?_
  rintro _ written s' ⟨hwritten, hregisters, hs', huser⟩
  rw [min_eq_left hcount] at hwritten hregisters
  refine ⟨hwritten, fun halive => ?_⟩
  have hdev : s'.pciedevDevM c.dev = s.pciedevDevM c.dev := by rw [hs']; rfl
  have hrounds : c.rounds (s.pciedevDevM c.dev) bar = c.count :=
    (InlineCall.rounds_of_inside (hu ▸ hwidth.pos) (hu ▸ hinside)).trans (min_eq_left hcount)
  have haccess' : s'.env.Accessible dst (c.count * u.toNat) := by
    unfold Memory.Accessible
    rw [huser]
    exact haccess
  have hopen' : (c.readBack accessMode dst).Opens (s'.pciedevDevM c.dev) bar :=
    ⟨hdev ▸ hopen.mapped, hdev ▸ hopen.aligned⟩
  have hfit : c.count * u.toNat ≤ 2 ^ 64 := by omega
  have hreadback :=
    readInline_twp (H := H) (s := s') (c := c.readBack accessMode dst) (b := bar) (u := u)
    hcode hbar hread hdst hopen' (hdev ▸ hu) (hdev ▸ hrounds) (hdev ▸ hmem) hfit haccess'
      (hdev ▸ halive)
  apply twp_mono hreadback
  rintro _ retval t ⟨hretval, hd⟩
  have hdelivered : Delivered (c.readBack accessMode dst) (s.pciedevDevM c.dev).swap u
      ((c.readBack accessMode dst).start (s.pciedevDevM c.dev) bar) s'.env t.env c.count :=
        hdev ▸ hd
  exact ⟨hretval, hregisters.delivered hdelivered hwidth hmode hdata hcopies rfl rfl⟩

/-- Registers from offset 8 on are memory-like, the others read as zero. -/
def zeroHardware : Hardware := ⟨fun a => 8 ≤ a.off, fun _ _ r => r = 0, fun _ _ => ⟨0, rfl⟩⟩

def plainWrite : InlineCall :=
  { dev := 0, registerSize := rwD16, rwAccessMode := mtcaSimpleWrite, bar := 0, offset := 8
    userData := 0x1000, userMask := 0, count := 2 }

/-- A board whose BARs have 4 KiB, in the swapped byte order. -/
def smallBoard : PciedevDev :=
  { swap := 1, memBaseEnd := fun _ => 0xfff, memmoryBase := fun _ => some 1 }

theorem zeroHardware_scratchAlive (m : Memory) : ScratchAlive zeroHardware smallBoard m 0 where
  bar_eq := rfl
  mapped := by decide
  reads r hr := by
    have houtside : ¬ ∀ k < (Width.ofRegSize (UInt16.ofInt smallBoard.registerSize)).bytes,
        zeroHardware.memoryLike ((⟨some 1, 0⟩ : IoAddr).add k) := by
      intro hall
      have hfirst : (8 : ℤ) ≤ 0 := hall 0 (by decide)
      exact absurd hfirst (by decide)
    obtain rfl : r = 0 := hr.2 houtside
    decide

theorem write_then_read_two : ∃ (tr tr' : Trace) (s' t : World Memory),
    (pciedevWriteInline plainWrite).Run (driver (memoryEnvironment zeroHardware))
      (memoryWorld smallBoard (memoryUpTo 0x2fff)) tr 4 s' ∧
    (pciedevReadInline (plainWrite.readBack mtcaSimpleRead 0x2000)).Run
      (driver (memoryEnvironment zeroHardware)) s' tr' 4 t ∧
    ∀ k < 4,
      t.env.user (0x2000 + UInt64.ofNat k) =
        (memoryUpTo 0x2fff).user (0x1000 + UInt64.ofNat k) := by
  have hmem (x : ℕ) (_ : x < 4) : zeroHardware.memoryLike ((⟨some 1, 8⟩ : IoAddr).add x) :=
    le_add_of_nonneg_right (Int.natCast_nonneg x)
  obtain ⟨tr, written, s', hwrite, hwritten, hread⟩ := (write_then_read (H := zeroHardware)
    (s := memoryWorld smallBoard (memoryUpTo 0x2fff)) (c := plainWrite) (u := 2) (.inr (.inl rfl))
    (show plainWrite.bar.toNat = (0 : Bar).val from rfl) rfl (by decide) ⟨by decide, by decide⟩ rfl
    (by decide) (by decide) hmem (by decide) (show mtcaSimpleRead < mtcaSimpleWrite by decide)
    (show (0x2000 : UInt64) ≠ 0 by decide) (by decide)).exists_run
  obtain ⟨tr', retval, t, hrun, hretval, hbytes⟩ := (hread (zeroHardware_scratchAlive _)).exists_run
  subst hwritten hretval
  exact ⟨tr, tr', s', t, hwrite, hrun, hbytes⟩

end Upciedev
