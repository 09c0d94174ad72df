import Upciedev.Access.InlineEnd
import Upciedev.Access.WindowConfinement

/-!
# The buffer of a read or write

`read` and `write` copy a fixed structure, or as many registers as the byte count says. The bytes
they copy lie in the caller's buffer exactly if that structure, or these registers, fit into it.
-/
namespace Upciedev

open Foundations Program

def InBuffer (buf count a : UInt64) (size : ℕ) : Prop :=
  ∀ j < size, (a + UInt64.ofNat j - buf).toNat < count.toNat

/-- The bytes that a user copy is about lie in a buffer. -/
def CopiesWithin (buf count : UInt64) : Op → Prop
  | .kernel (.copyFromUser T src) => InBuffer buf count src T.size
  | .kernel (.copyToUser T dst _) => InBuffer buf count dst T.size
  | _ => True

/-- The user copies of every run, complete or not, lie in a buffer. -/
abbrev Foundations.Program.StaysIn {α : Type} (p : Kernel α) (buf count : UInt64)
    (w : World Unit) : Prop :=
  p.Guarded (driver openEnvironment) (CopiesWithin buf count) w

theorem inBuffer_iff {buf count : UInt64} {off size : ℕ} (h : off + size ≤ 2 ^ 64) :
    InBuffer buf count (buf + UInt64.ofNat off) size ↔ size = 0 ∨ off + size ≤ count.toNat := by
  have hbyte (j : ℕ) (hj : j < size) :
      (buf + UInt64.ofNat off + UInt64.ofNat j - buf).toNat = off + j := by
    have hsum : buf + UInt64.ofNat off + UInt64.ofNat j - buf = UInt64.ofNat (off + j) := by
      rw [UInt64.ofNat_add]
      grind
    rw [hsum, UInt64.toNat_ofNat_of_lt' (by simp [UInt64.size]; omega)]
  constructor
  · intro hin
    rcases Nat.eq_zero_or_pos size with hzero | hpos
    · exact .inl hzero
    · have hlast := hin (size - 1) (by omega)
      rw [hbyte _ (by omega)] at hlast
      omega
  · intro hfits j hj
    rw [hbyte j hj]
    omega

section
variable {α : Type} {w : World Unit} {buf count : UInt64}

@[simp] theorem staysIn_load {d : Entry} {k : PciedevDev → Kernel α} :
    (call (I := driverInterface) (.load d) k).StaysIn buf count w ↔
      (k (w.pciedevDevM d)).StaysIn buf count w :=
  (guarded_step (.load d) (fun _ _ => Iff.rfl) k).trans (and_iff_right trivial)

@[simp] theorem staysIn_privateData {filp : File} {k : Entry → Kernel α} :
    (call (I := driverInterface) (.privateData filp) k).StaysIn buf count w ↔
      (k (w.privateData filp)).StaysIn buf count w :=
  (guarded_step (.privateData filp) (fun _ _ => Iff.rfl) k).trans (and_iff_right trivial)

@[simp] theorem staysIn_enterCritRegion {d : Entry} {k : ℤ → Kernel α} :
    (call (I := driverInterface) (.enterCritRegion d) k).StaysIn buf count w ↔
      (k (0 : ℤ)).StaysIn buf count w :=
  (guarded_step (.enterCritRegion d) (fun _ _ => Iff.rfl) k).trans (and_iff_right trivial)

@[simp] theorem staysIn_note {n : Note} {k : Unit → Kernel α} :
    (call (I := driverInterface) (.note n) k).StaysIn buf count w ↔
      (k ()).StaysIn buf count w :=
  (guarded_step (.note n) (fun _ _ => (and_iff_right rfl).symm) k).trans (and_iff_right trivial)

theorem staysIn_choice (op : Op) {answers : op.Res → Prop}
    (hstep : ∀ r w', driver openEnvironment op w r w' ↔ answers r ∧ w' = w)
    (hop : CopiesWithin buf count op) {k : op.Res → Kernel α} :
    (call (I := driverInterface) op k).StaysIn buf count w ↔
      ∀ r, answers r → (k r).StaysIn buf count w := by
  constructor
  · exact fun h r hr => h.2 r w ((hstep r w).mpr ⟨hr, rfl⟩)
  · intro h
    refine ⟨hop, fun r w' hr => ?_⟩
    obtain ⟨hanswer, rfl⟩ := (hstep r w').mp hr
    exact h r hanswer

@[simp] theorem staysIn_memmoryBase {d : Entry} {i : UInt32} {k : IoPtr → Kernel α} :
    (call (I := driverInterface) (.memmoryBase d i) k).StaysIn buf count w ↔
      ∀ r, barEntry (w.pciedevDevM d).memmoryBase i r → (k r).StaysIn buf count w :=
  staysIn_choice (.memmoryBase d i) (fun _ _ => Iff.rfl) trivial

@[simp] theorem staysIn_memBase {d : Entry} {i : UInt32} {k : UInt32 → Kernel α} :
    (call (I := driverInterface) (.memBase d i) k).StaysIn buf count w ↔
      ∀ r, barEntry (w.pciedevDevM d).memBase i r → (k r).StaysIn buf count w :=
  staysIn_choice (.memBase d i) (fun _ _ => Iff.rfl) trivial

@[simp] theorem staysIn_memBaseEnd {d : Entry} {i : UInt32} {k : UInt32 → Kernel α} :
    (call (I := driverInterface) (.memBaseEnd d i) k).StaysIn buf count w ↔
      ∀ r, barEntry (w.pciedevDevM d).memBaseEnd i r → (k r).StaysIn buf count w :=
  staysIn_choice (.memBaseEnd d i) (fun _ _ => Iff.rfl) trivial

@[simp] theorem staysIn_kernel {c : KernelCall} {k : c.Res → Kernel α} :
    (call (I := driverInterface) (.kernel c) k).StaysIn buf count w ↔
      CopiesWithin buf count (.kernel c) ∧ ∀ r, (k r).StaysIn buf count w := by
  constructor
  · exact fun h => ⟨h.1, fun r => h.2 r w ⟨(), trivial, rfl⟩⟩
  · intro h
    refine ⟨h.1, ?_⟩
    rintro r _ ⟨e, -, rfl⟩
    exact h.2 r

/-- Blocks of `u` bytes from an address on, one after the other. -/
def BlocksWithin (buf count a : UInt64) (u n : ℕ) : Prop :=
  ∀ i < n, InBuffer buf count (a + UInt64.ofNat (i * u)) u

theorem blocksWithin_succ {a : UInt64} {u : UInt32} {n : ℕ} :
    BlocksWithin buf count a u.toNat (n + 1) ↔
    InBuffer buf count a u.toNat ∧ BlocksWithin buf count (a + u.toUInt64) u.toNat n := by
  have hnext (i : ℕ) :
      a + UInt64.ofNat ((i + 1) * u.toNat) = a + u.toUInt64 + UInt64.ofNat (i * u.toNat) := by
    rw [add_one_mul, UInt64.ofNat_add, UInt64.add_assoc, UInt64.add_comm u.toUInt64,
      UInt64.ofNat_uInt32ToNat]
  rw [BlocksWithin, Nat.forall_lt_succ_left, zero_mul]
  have hzero : a + UInt64.ofNat 0 = a := UInt64.add_zero a
  simp only [hnext, hzero, BlocksWithin]

theorem readWritePrivate_read {regSize : UInt16} {a : IoAddr} {value mask extra : UInt32}
    {k : UInt32 × UInt32 → Kernel α} :
    (readWritePrivate regSize mtcaSimpleRead a value mask extra >>= k).StaysIn buf count w ↔
      ∀ r, (k ((Width.ofRegSize regSize).setLow value r, extra)).StaysIn buf count w := by
  have hplain : mtcaSimpleRead ≠ mtReadToExtraBuffer := by decide
  rw [readWritePrivate_eq (by decide)]
  simp [hplain, CopiesWithin]

theorem readWritePrivate_write {regSize : UInt16} {a : IoAddr} {value mask extra : UInt32}
    {k : UInt32 × UInt32 → Kernel α} :
    (readWritePrivate regSize mtcaSimpleWrite a value mask extra >>= k).StaysIn buf count w ↔
      (k (value, extra)).StaysIn buf count w := by
  simp [readWritePrivate, accessRegister, CopiesWithin]

theorem readWritePrivate_silent (regSize accessMode : UInt16) (a : IoAddr)
    (value mask extra : UInt32) :
    (readWritePrivate regSize accessMode a value mask extra).Only (CopiesWithin buf count) := by
  unfold readWritePrivate accessRegister
  split_ifs <;> simp [CopiesWithin]

theorem checkScratch_silent (dev : Entry) :
    (pciedevCheckScratch dev).Only (CopiesWithin buf count) := by
  have htest : (deviceScrachTest dev).Only (CopiesWithin buf count) := by
    simp [deviceScrachTest, CopiesWithin]
  have hbody : (readScratch dev).Only (CopiesWithin buf count) := by
    simp only [readScratch, perform_eq, call_bind, ret_bind, pure_eq, only_call, only_ite, only_ret,
      CopiesWithin, true_and, implies_true]
    intro _ _ _ _ _ _
    apply htest.bind
    intro scrachTest
    simp only [only_call, CopiesWithin, true_and]
    exact fun _ _ => (readWritePrivate_silent _ _ _ _ _ _).bind fun _ => by simp
  simp only [pciedevCheckScratch, perform_eq, call_bind, ret_bind, only_call]
  exact ⟨trivial, fun _ => hbody.bind fun _ => ⟨trivial, fun _ _ => trivial⟩⟩

/-- A word of which a register was read over the low bytes, with a zero in the lowest. -/
theorem setLow_zero_ne (w : Width) (old u : UInt32) : w.setLow old 0 ≠ scrachTestOf u := by
  intro heq
  have hlow := congrArg w.low heq
  rw [Width.low_setLow] at hlow
  unfold scrachTestOf at hlow
  cases w <;> split_ifs at hlow <;> exact absurd hlow (by decide)

variable {c : InlineCall} {u : UInt32}

theorem readLoop_staysIn (hmode : c.rwAccessMode = mtcaSimpleRead) (hbuf : c.userData ≠ 0) (n : ℕ)
    (pcUserBuf : UInt64) (a : IoAddr) (tmpDataForRw : UInt32) (retval : ℤ) :
    (readLoop c u n pcUserBuf a tmpDataForRw retval).StaysIn buf count w ↔
      BlocksWithin buf count pcUserBuf u.toNat n := by
  induction n generalizing pcUserBuf a tmpDataForRw retval w with
  | zero => simp [readLoop, BlocksWithin]
  | succ n ih =>
    have hmode' : mtcaSimpleRead ≠ mtReadToExtraBuffer := by decide
    rw [blocksWithin_succ]
    unfold readLoop
    rw [hmode, readWritePrivate_read]
    have hcopy (word : UInt32) (w : World Unit) : (do
        let tmpDataForRw := if (← load c.dev).swap ≠ 0 then upciedevSwapTot u word else word
        let uncopied ← (if c.userData ≠ 0 then
          copyToUser (.data u) pcUserBuf ((Width.ofBytes u).low tmpDataForRw) else pure false)
        if uncopied then pure retval
        else
          readLoop c u n (pcUserBuf + u.toUInt64) (a.add u.toNat) tmpDataForRw
            (retval + u.toNat)).StaysIn buf count w ↔
        InBuffer buf count pcUserBuf u.toNat ∧
          BlocksWithin buf count (pcUserBuf + u.toUInt64) u.toNat n := by
      simp [hbuf, ih, CopiesWithin, UserType.size]
    simp only [hmode', if_false]
    constructor
    · intro h
      have hzero := h 0
      rw [if_neg (setLow_zero_ne _ _ _)] at hzero
      exact (hcopy _ _).mp hzero
    · rintro hwithin r
      refine (guarded_bind ..).mpr ⟨?_, ?_⟩
      · exact Only.guarded
          ((only_ite ..).mpr ⟨fun _ => checkScratch_silent c.dev, fun _ => only_ret _⟩) _
      · apply wp_of_forall
        intro _ scrtchCheck w'
        by_cases hfailed : scrtchCheck ≠ 0
        · rw [if_pos hfailed]
          trivial
        · rw [if_neg hfailed]
          exact (hcopy _ w').mpr hwithin

theorem writeLoop_staysIn (hmode : c.rwAccessMode = mtcaSimpleWrite) (hbuf : c.userData ≠ 0)
    (hmask : c.userMask = 0) (n : ℕ) (pcUserData pcUserMask : UInt64) (a : IoAddr)
    (tmpDataForRw tmpMaskForW : UInt32) (retval : ℤ) :
    (writeLoop c u n pcUserData pcUserMask a tmpDataForRw tmpMaskForW retval).StaysIn buf count w ↔
      BlocksWithin buf count pcUserData u.toNat n := by
  induction n generalizing pcUserData pcUserMask a tmpDataForRw tmpMaskForW retval w with
  | zero => simp [writeLoop, BlocksWithin]
  | succ n ih =>
    rw [blocksWithin_succ]
    unfold writeLoop
    simp only [hmode, hmask, copyWord, hbuf, if_false, if_true, perform_eq, call_bind, ret_bind,
      pure_eq, staysIn_kernel, Option.forall, Option.map_none, Option.map_some, guarded_ret,
        staysIn_load,
      readWritePrivate_write, ih, CopiesWithin, UserType.size, true_and, forall_const]

/-- From an offset on, a bar lets `n` of `count` registers through. A bar past the end of the table
can have any window. -/
def PciedevDev.Allows (v : PciedevDev) (bar offset u : UInt32) (count n : ℕ) : Prop :=
  ∃ base first last, barEntry v.memmoryBase bar base ∧ base ≠ none ∧ u.toNat ∣ offset.toNat ∧
    barEntry v.memBase bar first ∧ barEntry v.memBaseEnd bar last ∧
    n = loopRounds (min count (((last - first).toNat - offset.toNat) / u.toNat))

/-- What a call with no mask copies lies in a buffer. -/
def InlineCall.CopiesIn (c : InlineCall) (v : PciedevDev) (buf count : UInt64) : Prop :=
  c.userData = 0 ∨ ∀ n, v.Allows c.bar c.offset (c.width v) c.count n →
    BlocksWithin buf count c.userData (c.width v).toNat n

@[simp] theorem staysIn_fault {f : Fault} {k : Empty → Kernel α} :
    (call (I := driverInterface) (.fault f) k).StaysIn buf count w ↔ True :=
  iff_true_intro ⟨trivial, fun r => nomatch r⟩

theorem openWindow_staysIn {f : Option (UInt32 × ℕ × IoAddr) → Kernel ℤ} {P : ℕ → Prop}
    (hnone : (f none).StaysIn buf count w)
    (hsome : ∀ n a, (f (some (c.width (w.pciedevDevM c.dev), n, a))).StaysIn buf count w ↔
      P (loopRounds n))
    (hzero : P 0) :
    (openWindow c >>= f).StaysIn buf count w ↔
      ∀ n, (w.pciedevDevM c.dev).Allows c.bar c.offset (c.width (w.pciedevDevM c.dev)) c.count n →
        P n := by
  have hzeroAllows (n : ℕ) (hwidth : c.width (w.pciedevDevM c.dev) = 0)
      (hn : (w.pciedevDevM c.dev).Allows c.bar c.offset (c.width (w.pciedevDevM c.dev)) c.count n) :
        P n := by
    obtain ⟨_, _, _, -, -, -, -, -, rfl⟩ := hn
    simpa [hwidth, loopRounds] using hzero
  simp only [openWindow, perform_eq, call_bind, ret_bind, staysIn_load, staysIn_memmoryBase]
  by_cases hwidth : c.width (w.pciedevDevM c.dev) = 0
  · have hwidth' : getRegisterSizeInBytes c.registerSize (w.pciedevDevM c.dev).registerSize = 0 :=
      hwidth
    simp only [umod, hwidth', if_true, ite_bind, guarded_ite, fault, call_bind, ret_bind, pure_eq,
      staysIn_fault, hnone, implies_true, and_self, true_iff]
    exact fun n hn => hzeroAllows n hwidth hn
  · simp only [InlineCall.width] at hwidth hsome ⊢
    simp only [umod, udiv, ite_bind, guarded_ite, hwidth, if_false, ret_bind, pure_eq, hnone,
      call_bind, staysIn_memBase, staysIn_memBaseEnd, staysIn_memmoryBase, hsome, registersLeft_eq,
      implies_true, true_and, ne_eq, not_not, aligned_iff]
    constructor
    · rintro h _ ⟨base, first, last, hbase, hmapped, haligned, hfirst, hlast, rfl⟩
      exact h base hbase hmapped haligned last hlast first hfirst base hbase
    · intro h base hbase hmapped haligned last hlast first hfirst _ _
      exact h _ ⟨base, first, last, hbase, hmapped, haligned, hfirst, hlast, rfl⟩

theorem readLoop_silent (hnull : c.userData = 0) (n : ℕ) (pcUserBuf : UInt64) (a : IoAddr)
    (tmpDataForRw : UInt32) (retval : ℤ) :
    (readLoop c u n pcUserBuf a tmpDataForRw retval).Only (CopiesWithin buf count) := by
  induction n generalizing pcUserBuf a tmpDataForRw retval with
  | zero => trivial
  | succ n ih =>
    unfold readLoop
    apply (readWritePrivate_silent _ _ _ _ _ _).bind
    intro words
    refine Only.bind ((only_ite ..).mpr ⟨fun _ => checkScratch_silent c.dev, fun _ => only_ret _⟩)
      fun check => ?_
    refine (only_ite ..).mpr ⟨fun _ => only_ret _, fun _ => ?_⟩
    simp [hnull, ih, CopiesWithin]

theorem writeLoop_silent (hnull : c.userData = 0) (hmask : c.userMask = 0) (n : ℕ)
    (pcUserData pcUserMask : UInt64) (a : IoAddr) (tmpDataForRw tmpMaskForW : UInt32) (retval : ℤ) :
    (writeLoop c u n pcUserData pcUserMask a tmpDataForRw tmpMaskForW retval).Only
      (CopiesWithin buf count) := by
  induction n generalizing pcUserData pcUserMask a tmpDataForRw tmpMaskForW retval with
  | zero => trivial
  | succ n ih =>
    unfold writeLoop
    simp only [hnull, hmask, copyWord, if_true, perform_eq, call_bind, ret_bind, pure_eq, only_call,
      CopiesWithin, true_and]
    exact fun v => (readWritePrivate_silent _ _ _ _ _ _).bind fun words => ih _ _ _ _ _ _

/-- The access mode of `pciedev_read_exp` and of `pciedev_write_exp`. -/
def Direction.simpleMode : Direction → UInt16
  | read => mtcaSimpleRead
  | write => mtcaSimpleWrite

theorem inline_staysIn (dir : Direction) (hmode : c.rwAccessMode = dir.simpleMode)
    (hmask : c.userMask = 0) :
    (dir.inline c).StaysIn buf count w ↔ c.CopiesIn (w.pciedevDevM c.dev) buf count := by
  have hloop (n : ℕ) (a : IoAddr) (f : UInt32 → Kernel ℤ)
      (hsilent : c.userData = 0 → ∀ word, (f word).Only (CopiesWithin buf count))
      (hcopies : c.userData ≠ 0 → ∀ word, (f word).StaysIn buf count w ↔
        BlocksWithin buf count c.userData (c.width (w.pciedevDevM c.dev)).toNat n) :
      (uninit >>= f).StaysIn buf count w ↔
        c.userData = 0 ∨
          BlocksWithin buf count c.userData (c.width (w.pciedevDevM c.dev)).toNat n := by
    simp only [perform_eq, call_bind, ret_bind, staysIn_kernel, CopiesWithin, true_and]
    by_cases hbuf : c.userData = 0
    · simp only [hbuf, true_or, iff_true]
      exact fun word => (hsilent hbuf word).guarded w
    · simp [hbuf, hcopies]
  have hempty : c.userData = 0 ∨
      BlocksWithin buf count c.userData (c.width (w.pciedevDevM c.dev)).toNat 0 :=
    .inr fun i hi => absurd hi (Nat.not_lt_zero i)
  have hall :
      (∀ n, (w.pciedevDevM c.dev).Allows c.bar c.offset (c.width (w.pciedevDevM c.dev)) c.count n →
      c.userData = 0 ∨ BlocksWithin buf count c.userData (c.width (w.pciedevDevM c.dev)).toNat n) ↔
      c.CopiesIn (w.pciedevDevM c.dev) buf count := by
    by_cases hbuf : c.userData = 0 <;> simp [InlineCall.CopiesIn, hbuf]
  rw [dir.inline_eq, staysIn_note, ← hall]
  cases dir with
  | read =>
    refine openWindow_staysIn trivial
      (fun n a => hloop _ a _ (fun hnull word => ?_) fun hbuf word => ?_) hempty
    · exact readLoop_silent hnull ..
    · exact readLoop_staysIn hmode hbuf ..
  | write =>
    refine openWindow_staysIn trivial
      (fun n a => hloop _ a _ (fun hnull word => ?_) fun hbuf word => ?_) hempty
    · exact writeLoop_silent hnull hmask ..
    · exact writeLoop_staysIn hmode hbuf hmask ..

end

section
variable {w : World Unit} {buf count : UInt64} {dir : Direction} {dev : Entry}

theorem accessRegion_staysIn (code : ℕ) (calls : UInt16 → InlineCall)
    (hmode : ∀ regSize, (calls regSize).rwAccessMode = dir.simpleMode)
    (hmask : ∀ regSize, (calls regSize).userMask = 0)
    (hdev : ∀ regSize, (calls regSize).dev = dev) :
    (accessRegion dir dev code calls).StaysIn buf count w ↔
      (calls (correctedSize (w.pciedevDevM dev) code)).CopiesIn (w.pciedevDevM dev) buf count := by
  have hcall (regSize : UInt16) : (do
      let _ ← dir.inline (calls regSize)
      let _ ← leaveCritRegion dev
      pure sizeofDeviceRw).StaysIn buf count w ↔
        (calls regSize).CopiesIn (w.pciedevDevM dev) buf count := by
    have hleave (w : World Unit) : (do
        let _ ← leaveCritRegion dev
        pure sizeofDeviceRw).StaysIn buf count w :=
      Only.guarded ((only_call ..).mpr ⟨trivial, fun _ => only_ret _⟩) w
    have hinline : (dir.inline (calls regSize)).StaysIn buf count w ↔ _ :=
      inline_staysIn dir (hmode regSize) (hmask regSize)
    rw [hdev] at hinline
    exact (guarded_bind ..).trans
      ((and_iff_left (wp_of_forall fun _ _ w => hleave w)).trans hinline)
  unfold accessRegion correctFrom correctedSize
  by_cases hcode : mtcaMaxRw ≤ (code : ℤ)
  · simpa [hcode] using hcall _
  · simpa [hcode] using hcall _

/-- The width that an access with a register size code has. -/
def PciedevDev.accessWidth (v : PciedevDev) (code : ℕ) : UInt32 :=
  getRegisterSizeInBytes (correctedSize v code) v.registerSize

/-- The buffer of a read or write has room for the structure and for a register of the board's own
size in it, or for all registers of the window that the position names. -/
def RequestFits (v : PciedevDev) (buf count fPosPtr fPos : UInt64) : Prop :=
  if fPos = pciedFpos then
    UserType.deviceRw.size ≤ count.toNat ∧ (buf + deviceRwDataOffset = 0 ∨
      deviceRwDataOffset.toNat + (v.accessWidth mtcaMaxRw.toNat).toNat ≤ count.toNat)
  else
    buf = 0 ∨ ∀ n, v.Allows (posBarx fPosPtr) (posOffset fPosPtr)
      (v.accessWidth (posRegSize fPosPtr).toNat) count.toNat n →
      n * (v.accessWidth (posRegSize fPosPtr).toNat).toNat ≤ count.toNat

theorem accessWidth_of_code (v : PciedevDev) {code : ℕ} (hcode : ¬ mtcaMaxRw ≤ (code : ℤ)) :
    (v.accessWidth code).toNat ≤ 4 := by
  obtain rfl | rfl | rfl : code = 0 ∨ code = 1 ∨ code = 2 := by
    unfold mtcaMaxRw at hcode
    omega
  · exact (by decide : (1 : UInt32).toNat ≤ 4)
  · exact (by decide : (2 : UInt32).toNat ≤ 4)
  · exact (by decide : (4 : UInt32).toNat ≤ 4)

theorem accessWidth_default (v : PciedevDev) {code : ℕ} (hcode : mtcaMaxRw ≤ (code : ℤ)) :
    v.accessWidth code = v.accessWidth mtcaMaxRw.toNat := by
  simp [PciedevDev.accessWidth, correctedSize, hcode, mtcaMaxRw]

theorem blocksWithin_iff {off u n : ℕ} (h : off + n * u ≤ 2 ^ 64) :
    BlocksWithin buf count (buf + UInt64.ofNat off) u n ↔
      n * u = 0 ∨ off + n * u ≤ count.toNat := by
  have hblock (i : ℕ) (hi : i < n) :
      InBuffer buf count (buf + UInt64.ofNat off + UInt64.ofNat (i * u)) u ↔
      u = 0 ∨ off + (i + 1) * u ≤ count.toNat := by
    have hend : (i + 1) * u ≤ n * u := Nat.mul_le_mul_right u hi
    rw [UInt64.add_assoc, ← UInt64.ofNat_add, inBuffer_iff (by rw [add_one_mul] at hend; omega),
      add_one_mul, add_assoc]
  constructor
  · intro hin
    rcases Nat.eq_zero_or_pos n with rfl | hn
    · exact .inl (zero_mul u)
    · rcases (hblock (n - 1) (by omega)).mp (hin (n - 1) (by omega)) with hu | hlast
      · exact .inl (by rw [hu, mul_zero])
      · rw [Nat.sub_add_cancel hn] at hlast
        exact .inr hlast
  · intro hfits i hi
    have hend : (i + 1) * u ≤ n * u := Nat.mul_le_mul_right u hi
    rw [hblock i hi]
    rcases hfits with hzero | hfits
    · exact .inl ((Nat.mul_eq_zero.mp hzero).resolve_left (by omega))
    · exact .inr (by omega)

theorem PciedevDev.Allows.fits {v : PciedevDev} {bar offset u : UInt32} {count n off : ℕ}
    (h : v.Allows bar offset u count n) (hoff : off < 2 ^ 32) : off + n * u.toNat ≤ 2 ^ 64 := by
  obtain ⟨_, first, last, -, -, -, -, -, rfl⟩ := h
  have hrounds :=
    min_le_right (min count (((last - first).toNat - offset.toNat) / u.toNat)) (2 ^ 31)
  have hbytes := Nat.mul_le_mul hrounds u.toNat_lt.le
  unfold loopRounds
  omega

def plainCall (dev : Entry) (accessMode : UInt16) (buf : UInt64) (reading : DeviceRw)
    (regSize : UInt16) :
    InlineCall :=
  { dev, registerSize := regSize, rwAccessMode := accessMode, bar := reading.barxRw
    offset := reading.offsetRw, userData := buf + deviceRwDataOffset, userMask := 0, count := 1 }

/-- The structure can name a register of every BAR, also of one that the board does not have. -/
theorem plain_copiesIn (v : PciedevDev) (dev : Entry) (accessMode : UInt16)
    (hcount : UserType.deviceRw.size ≤ count.toNat) :
    (∀ reading, (plainCall dev accessMode buf reading
        (correctedSize v reading.registerSize.toNat)).CopiesIn v buf count) ↔
      buf + deviceRwDataOffset = 0 ∨
        deviceRwDataOffset.toNat + (v.accessWidth mtcaMaxRw.toNat).toNat ≤ count.toNat := by
  by_cases hnull : buf + deviceRwDataOffset = 0
  · simp [InlineCall.CopiesIn, plainCall, hnull]
  have hone (reading : DeviceRw) (n : ℕ) (hn : v.Allows reading.barxRw reading.offsetRw
      (v.accessWidth reading.registerSize.toNat) 1 n) :
      BlocksWithin buf count (buf + UInt64.ofNat deviceRwDataOffset.toNat)
        (v.accessWidth reading.registerSize.toNat).toNat n ↔ _ :=
          blocksWithin_iff (hn.fits (by decide))
  rw [UInt64.ofNat_toNat] at hone
  constructor
  · intro h
    right
    by_cases hwidth : v.accessWidth mtcaMaxRw.toNat = 0
    · rw [hwidth]
      exact hcount.trans' (by decide)
    · have hpos : 0 < (v.accessWidth mtcaMaxRw.toNat).toNat :=
        Nat.pos_of_ne_zero fun hzero => hwidth (UInt32.toNat_inj.mp hzero)
      have hallows : v.Allows 6 0 (v.accessWidth mtcaMaxRw.toNat) 1 1 := by
        refine ⟨some 0, 0, v.accessWidth mtcaMaxRw.toNat, nofun, nofun, Nat.dvd_zero _,
          nofun, nofun, ?_⟩
        rw [UInt32.sub_zero, UInt32.toNat_zero, Nat.sub_zero, Nat.div_self hpos]
        rfl
      have hnamed := (h ⟨0, 0, 3, 6⟩).resolve_left hnull 1 hallows
      rcases (hone ⟨0, 0, 3, 6⟩ 1 hallows).mp hnamed with hzero | hroom
      · exact absurd ((one_mul _).symm.trans hzero) hpos.ne'
      · rwa [one_mul] at hroom
  · rintro (hzero | hroom) reading
    · exact absurd hzero hnull
    · refine .inr fun n hn => (hone reading n hn).mpr (.inr ?_)
      have hregister : n * (v.accessWidth reading.registerSize.toNat).toNat ≤
          (v.accessWidth reading.registerSize.toNat).toNat := by
        obtain ⟨_, _, _, -, -, -, -, -, rfl⟩ := hn
        exact mul_le_of_le_one_left' ((min_le_left _ _).trans (min_le_left _ _))
      by_cases hcode : mtcaMaxRw ≤ (reading.registerSize.toNat : ℤ)
      · rw [accessWidth_default v hcode] at hregister ⊢
        omega
      · have hsmall := accessWidth_of_code v hcode
        have hoff : deviceRwDataOffset.toNat = 4 := rfl
        have hsize : UserType.deviceRw.size = 24 := rfl
        omega

def positionCall (dev : Entry) (accessMode : UInt16) (buf count fPosPtr : UInt64)
    (regSize : UInt16) :
    InlineCall :=
  { dev, registerSize := regSize, rwAccessMode := accessMode, bar := posBarx fPosPtr
    offset := posOffset fPosPtr, userData := buf, userMask := 0, count := count.toNat }

theorem positional_copiesIn (v : PciedevDev) (dev : Entry) (accessMode : UInt16)
    (fPosPtr : UInt64) :
    (positionCall dev accessMode buf count fPosPtr
        (correctedSize v (posRegSize fPosPtr).toNat)).CopiesIn v buf count ↔
      buf = 0 ∨ ∀ n, v.Allows (posBarx fPosPtr) (posOffset fPosPtr)
        (v.accessWidth (posRegSize fPosPtr).toNat) count.toNat n →
        n * (v.accessWidth (posRegSize fPosPtr).toNat).toNat ≤ count.toNat := by
  refine or_congr_right (forall_congr' fun n => imp_congr_right fun hn => ?_)
  have hblocks : BlocksWithin buf count (buf + UInt64.ofNat 0)
      (v.accessWidth (posRegSize fPosPtr).toNat).toNat n ↔ _ :=
        blocksWithin_iff (hn.fits (by decide))
  have hstart : buf + UInt64.ofNat 0 = buf := UInt64.add_zero buf
  rw [hstart, zero_add] at hblocks
  apply hblocks.trans
  omega

theorem accessBody_staysIn {fPosPtr fPos : UInt64} (refused : ℤ) :
    (accessBody dir dir.simpleMode refused dev buf count fPosPtr fPos).StaysIn buf count w ↔
        RequestFits (w.pciedevDevM dev) buf count fPosPtr fPos := by
  unfold accessBody RequestFits
  by_cases hpos : fPos = pciedFpos
  · have hstructure : InBuffer buf count buf UserType.deviceRw.size ↔
        UserType.deviceRw.size ≤ count.toNat := by
      have hblock : InBuffer buf count (buf + UInt64.ofNat 0) UserType.deviceRw.size ↔ _ :=
        inBuffer_iff (by decide)
      have hstart : buf + UInt64.ofNat 0 = buf := UInt64.add_zero buf
      rw [hstart, zero_add] at hblock
      exact hblock.trans (or_iff_right (by decide))
    simp only [hpos, ne_eq, not_true, if_false, perform_eq, call_bind, ret_bind, staysIn_kernel,
      Option.forall, CopiesWithin, hstructure]
    refine and_congr_right fun hcount => (and_iff_right trivial).trans ?_
    refine Iff.trans (forall_congr' fun reading => ?_) (plain_copiesIn _ dev dir.simpleMode hcount)
    exact accessRegion_staysIn _ (plainCall dev dir.simpleMode buf reading) (fun _ => rfl)
      (fun _ => rfl) fun _ => rfl
  · rw [if_pos hpos, if_neg hpos]
    refine Iff.trans ?_ (positional_copiesIn _ dev dir.simpleMode fPosPtr)
    exact accessRegion_staysIn _ (positionCall dev dir.simpleMode buf count fPosPtr) (fun _ => rfl)
      (fun _ => rfl) fun _ => rfl

theorem accessExp_staysIn {filp : File} {fPosPtr fPos : UInt64} (dead refused : ℤ) :
    (accessExp dir dir.simpleMode dead refused filp buf count fPosPtr fPos).StaysIn buf count w ↔
        (w.pciedevDevM (w.privateData filp)).devSts = 0 ∨
          RequestFits (w.pciedevDevM (w.privateData filp)) buf count fPosPtr fPos := by
  simp only [accessExp, withCritRegion, perform_eq, call_bind, ret_bind, staysIn_privateData,
    staysIn_load, guarded_ite, staysIn_enterCritRegion, pure_eq, guarded_ret,
      implies_true, true_and,
    accessBody_staysIn]
  simp [or_iff_not_imp_left]

end

/-- Every byte that a read or a write copies lies in the buffer of the caller exactly if the board
is gone or the request fits into the buffer. -/
theorem user_copies_in_buffer_iff (w : World Unit) (filp : File) (buf count fPosPtr fPos : UInt64) :
    ((pciedevReadExp filp buf count fPosPtr fPos).StaysIn buf count w ↔
      (w.pciedevDevM (w.privateData filp)).devSts = 0 ∨
        RequestFits (w.pciedevDevM (w.privateData filp)) buf count fPosPtr fPos) ∧
    ((pciedevWriteExp filp buf count fPosPtr fPos).StaysIn buf count w ↔
      (w.pciedevDevM (w.privateData filp)).devSts = 0 ∨
        RequestFits (w.pciedevDevM (w.privateData filp)) buf count fPosPtr fPos) := by
  rw [pciedevReadExp_eq, pciedevWriteExp_eq]
  exact ⟨accessExp_staysIn .., accessExp_staysIn ..⟩

set_option maxRecDepth 8000 in
/-- A plain read with a buffer of two bytes copies a whole request from it. -/
theorem copy_behind_buffer : ∃ (tr₀ tr : Trace) (w u : World Unit) (rw : DeviceRw),
    (pciedevProbeExp 0 0 0).Run (driver openEnvironment) (.uniform {}) tr₀ ((0 : ℤ), 0) w ∧
    (pciedevReadExp 0 1000 2 0 pciedFpos).Run (driver openEnvironment) w tr 24 u ∧
    (⟨.kernel (.copyFromUser .deviceRw 1000), some rw⟩ : Event driverInterface) ∈ tr ∧
    ¬ CopiesWithin 1000 2 (.kernel (.copyFromUser .deviceRw 1000)) := by
  refine ⟨_, _, _, _, _, run_of_answers (Outcome.answers {}) (fun _ _ _ _ _ => trivial) rfl,
    run_of_answers plainRequest.answers (fun _ _ _ _ _ => trivial) rfl,
    List.mem_of_getElem? (i := 3) rfl, ?_⟩
  intro hwithin
  exact absurd (hwithin 2 (by decide)) (by decide)

end Upciedev
