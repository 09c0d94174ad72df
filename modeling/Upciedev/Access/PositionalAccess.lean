import Upciedev.Model.Requests

/-!
# Positional access

A client encodes register size, BAR and offset in the position of a `pread` or
`pwrite`. The decoder is right on every such position, but the entry points apply it
to the address at which the position is stored, and one position is also the marker
of the plain path.
-/
namespace Upciedev

open Foundations Program

/-- The position a client passes for register size code `s`, BAR `b` and offset `o`. -/
def encodePosition (s b o : UInt64) : UInt64 :=
  (s <<< prwRegSizeShift) ||| (b <<< prwBarShift) ||| o

theorem posRegSize_toNat (p : UInt64) : (posRegSize p).toNat = p.toNat / 2 ^ 60 := by
  have hp := p.toNat_lt
  have h : (p.toNat &&& 0xf000000000000000) >>> 60 = p.toNat / 2 ^ 60 := by
    rw [Nat.shiftRight_and_distrib, Nat.shiftRight_eq_div_pow]
    change _ &&& (2 ^ 4 - 1) = _
    rw [Nat.and_two_pow_sub_one_eq_mod]
    omega
  simp only [posRegSize, prwRegSizeMask, prwRegSizeShift, UInt64.toNat_toUInt32,
    UInt64.toNat_shiftRight, UInt64.toNat_and, UInt64.reduceToNat]
  norm_num at h ⊢
  rw [h]
  omega

theorem posBarx_toNat (p : UInt64) : (posBarx p).toNat = p.toNat / 2 ^ 56 % 16 := by
  have h : (p.toNat &&& 0x0f00000000000000) >>> 56 = p.toNat / 2 ^ 56 % 16 := by
    rw [Nat.shiftRight_and_distrib, Nat.shiftRight_eq_div_pow]
    exact Nat.and_two_pow_sub_one_eq_mod _ 4
  simp only [posBarx, prwBarMask, prwBarShift, UInt64.toNat_toUInt32,
    UInt64.toNat_shiftRight, UInt64.toNat_and, UInt64.reduceToNat]
  norm_num at h ⊢
  rw [h]
  omega

theorem posOffset_toNat (p : UInt64) : (posOffset p).toNat = p.toNat % 2 ^ 32 := by
  have h : p.toNat &&& 0x00ffffffffffffff = p.toNat % 2 ^ 56 :=
    Nat.and_two_pow_sub_one_eq_mod _ 56
  simp only [posOffset, prwOffsetMask, UInt64.toNat_toUInt32, UInt64.toNat_and, UInt64.reduceToNat]
  norm_num at h ⊢
  rw [h]
  omega

theorem encodePosition_toNat {s b o : UInt64} (hs : s.toNat < 16) (hb : b.toNat < 16)
    (ho : o.toNat < 2 ^ 56) :
    (encodePosition s b o).toNat = s.toNat * 2 ^ 60 + b.toNat * 2 ^ 56 + o.toNat := by
  have hlow : b.toNat * 2 ^ 56 + o.toNat = b.toNat <<< 56 ||| o.toNat := by
    rw [← Nat.shiftLeft_add_eq_or_of_lt ho, Nat.shiftLeft_eq]
  have hfield : b.toNat * 2 ^ 56 + o.toNat < 2 ^ 60 := by omega
  have hhigh : s.toNat * 2 ^ 60 + (b.toNat * 2 ^ 56 + o.toNat) =
      s.toNat <<< 60 ||| (b.toNat * 2 ^ 56 + o.toNat) := by
    rw [← Nat.shiftLeft_add_eq_or_of_lt hfield, Nat.shiftLeft_eq]
  have hs' : s.toNat <<< 60 % 2 ^ 64 = s.toNat <<< 60 := by
    rw [Nat.shiftLeft_eq]
    omega
  have hb' : b.toNat <<< 56 % 2 ^ 64 = b.toNat <<< 56 := by
    rw [Nat.shiftLeft_eq]
    omega
  rw [Nat.add_assoc, hhigh, hlow, ← Nat.or_assoc]
  simp only [encodePosition, prwRegSizeShift, prwBarShift, UInt64.toNat_or, UInt64.toNat_shiftLeft,
    UInt64.reduceToNat, Nat.reduceMod, hs', hb']

/-- The decoder recovers what the client encoded, when it is given the position itself. -/
theorem decode_encodePosition {s b o : UInt64} (hs : s.toNat < 3) (hb : b.toNat < numberOfBars)
    (ho : o.toNat < 2 ^ 32) :
    posRegSize (encodePosition s b o) = s.toUInt32 ∧ posBarx (encodePosition s b o) = b.toUInt32 ∧
      posOffset (encodePosition s b o) = o.toUInt32 := by
  have hbar : b.toNat < 6 := hb
  have henc : (encodePosition s b o).toNat = s.toNat * 2 ^ 60 + b.toNat * 2 ^ 56 + o.toNat :=
    encodePosition_toNat (by omega) (by omega) (by omega)
  refine ⟨?_, ?_, ?_⟩ <;> rw [← UInt32.toNat_inj]
  · rw [posRegSize_toNat, henc, UInt64.toNat_toUInt32]
    omega
  · rw [posBarx_toNat, henc, UInt64.toNat_toUInt32]
    omega
  · rw [posOffset_toNat, henc, UInt64.toNat_toUInt32]
    omega

/-- The entries of the two inline functions, in order. -/
def inlineNotes (tr : Trace) : List Note :=
  tr.filterMap fun e => match e.op with
    | .note (.readInline c) => some (.readInline c)
    | .note (.writeInline c) => some (.writeInline c)
    | _ => none

@[simp] theorem inlineNotes_nil : inlineNotes [] = [] := rfl

@[simp] theorem inlineNotes_append (tr tr' : Trace) :
    inlineNotes (tr ++ tr') = inlineNotes tr ++ inlineNotes tr' := List.filterMap_append

theorem inlineNotes_of_registerOp {dev : Entry} {tr : Trace} (h : ∀ e ∈ tr, RegisterOp dev e.op) :
    inlineNotes tr = [] := by
  rw [inlineNotes, List.filterMap_eq_nil_iff]
  intro e he
  have hop := h e he
  split
  · next c hc => exact (hc ▸ hop : RegisterOp dev (.note (.readInline c))).elim
  · next c hc => exact (hc ▸ hop : RegisterOp dev (.note (.writeInline c))).elim
  · rfl

def positionalCall (dev : Entry) (accessMode : UInt16) (buf count s b o : UInt64) : InlineCall :=
  { dev, registerSize := s.toUInt16, rwAccessMode := accessMode, bar := b.toUInt32
    offset := o.toUInt32, userData := buf, userMask := 0, count := count.toNat }

/-- The word `p` decodes to register size `s`, BAR `b` and offset `o` on entry `v`. -/
def DecodesTo (v : PciedevDev) (p s b o : UInt64) : Prop :=
  correctedSize v (posRegSize p).toNat = s.toUInt16 ∧ posBarx p = b.toUInt32 ∧
    posOffset p = o.toUInt32

instance (v : PciedevDev) (p s b o : UInt64) : Decidable (DecodesTo v p s b o) :=
  inferInstanceAs (Decidable (_ ∧ _ ∧ _))

/-- An address that equals the encoded position decodes to what was encoded. -/
theorem decodesTo_encodePosition {s b o : UInt64} (v : PciedevDev) (hs : s.toNat < 3)
    (hb : b.toNat < numberOfBars) (ho : o.toNat < 2 ^ 32) :
    DecodesTo v (encodePosition s b o) s b o := by
  obtain ⟨hsize, hbar, hoffset⟩ := decode_encodePosition hs hb ho
  refine ⟨?_, hbar, hoffset⟩
  have hcode : s.toUInt32.toNat = s.toNat := by
    rw [UInt64.toNat_toUInt32]
    omega
  have hvalid : ¬ mtcaMaxRw ≤ (s.toNat : ℤ) := by
    simp only [mtcaMaxRw]
    omega
  rw [hsize, hcode, correctedSize, if_neg hvalid]
  rfl

section
variable {ε : Type} {E : Environment ε} {w : World ε}

theorem inline_notes (dir : Direction) (c : InlineCall) :
    (dir.inline c).wp (driver E) w fun tr _ _ => inlineNotes tr = [dir.note c] := by
  rw [dir.inline_eq, wp_note]
  apply (dir.registers_only c).wp
  intro tr _ _ htr
  rw [← List.singleton_append, inlineNotes_append, inlineNotes_of_registerOp htr]
  cases dir <;> rfl

theorem correctFrom_wp (dev : Entry) (code : ℕ) :
    (correctFrom dev code).wp (driver E) w fun tr a u =>
      inlineNotes tr = [] ∧ a = correctedSize (w.pciedevDevM dev) code ∧ u = w := by
  simp only [correctFrom, correctedSize, wp_ite, perform_eq, call_bind, ret_bind, wp_load, wp_ret,
    pure_eq]
  exact ⟨fun h => by simp [h, inlineNotes], fun h => by simp [h]⟩

theorem accessRegion_notes (dir : Direction) (dev : Entry) (code : ℕ)
    (calls : UInt16 → InlineCall) :
    (accessRegion dir dev code calls).wp (driver E) w fun tr _ _ =>
      inlineNotes tr = [dir.note (calls (correctedSize (w.pciedevDevM dev) code))] := by
  rw [accessRegion, wp_bind]
  apply wp_mono (correctFrom_wp dev code)
  intro tr regSize u hpost
  obtain ⟨hnone, hsize, hu⟩ := hpost
  subst hsize
  rw [wp_bind]
  apply wp_mono (inline_notes dir _)
  intro tr' _ _ hnoted
  simp only [perform_eq, call_bind, ret_bind, wp_leaveCritRegion, pure_eq, wp_ret,
    inlineNotes_append, hnone, hnoted]
  rfl

variable {filp : File} {buf count fPosPtr fPos : UInt64}

/-- The inline call the client meant is made exactly on the positional path, and there if the
word that is decoded decodes to the client's fields. -/
theorem accessBody_notes (dir : Direction) (accessMode : UInt16) (refused : ℤ) (dev : Entry)
    (s b o : UInt64) :
    (accessBody dir accessMode refused dev buf count fPosPtr fPos).wp (driver E) w fun tr _ _ =>
      inlineNotes tr = [dir.note (positionalCall dev accessMode buf count s b o)] ↔
        fPos ≠ pciedFpos ∧ DecodesTo (w.pciedevDevM dev) fPosPtr s b o := by
  refine (wp_ite ..).mpr ⟨fun hpos => ?_, fun hpos => ?_⟩
  · apply wp_mono (accessRegion_notes dir dev _ _)
    intro tr _ _ htr
    rw [htr, List.singleton_inj, dir.note_inj, positionalCall, InlineCall.mk.injEq]
    simp [DecodesTo, hpos]
  · -- the plain path reads into the structure, past the start of the caller's buffer
    have hshifted : buf + deviceRwDataOffset ≠ buf := by simp [deviceRwDataOffset]
    apply (wp_kernel ..).mpr
    intro reading e _
    cases reading with
    | none =>
      apply (wp_ret ..).mpr
      simp [inlineNotes, hpos]
    | some reading =>
      apply wp_mono (accessRegion_notes dir dev _ _)
      intro tr _ _ htr
      rw [← List.singleton_append, inlineNotes_append, htr]
      simp [inlineNotes, positionalCall, hpos, hshifted]

theorem accessExp_notes (dir : Direction) (accessMode : UInt16) (dead refused : ℤ) (s b o : UInt64)
    (hlive : (w.pciedevDevM (w.privateData filp)).devSts ≠ 0) :
    (accessExp dir accessMode dead refused filp buf count fPosPtr fPos).wp (driver E) w
      fun tr _ _ =>
      inlineNotes tr = [dir.note (positionalCall (w.privateData filp) accessMode buf count s b o)] ↔
        fPos ≠ pciedFpos ∧ DecodesTo (w.pciedevDevM (w.privateData filp)) fPosPtr s b o := by
  simp only [accessExp, perform_eq, call_bind, ret_bind, wp_privateData, wp_load, wp_ite, hlive,
    withCritRegion, wp_enterCritRegion, ne_eq, not_true, IsEmpty.forall_iff, true_and,
    not_false_eq_true, forall_const]
  exact wp_mono (accessBody_notes dir accessMode refused _ s b o) fun tr _ _ htr => htr

end

/-- A positional read or write makes the inline call the client encoded in the position exactly
if the position is not the marker of the plain path and the address at which it is stored
decodes to the same fields. -/
theorem positional_access_decodes {ε : Type} (E : Environment ε) (w : World ε) (filp : File)
    (buf count fPosPtr s b o : UInt64) (hlive : (w.pciedevDevM (w.privateData filp)).devSts ≠ 0) :
    (∀ tr retval w',
      (pciedevReadExp filp buf count fPosPtr (encodePosition s b o)).Run (driver E) w tr retval w' →
      (inlineNotes tr =
          [.readInline (positionalCall (w.privateData filp) mtcaSimpleRead buf count s b o)] ↔
        encodePosition s b o ≠ pciedFpos ∧
          DecodesTo (w.pciedevDevM (w.privateData filp)) fPosPtr s b o)) ∧
    ∀ tr retval w',
      (pciedevWriteExp filp buf count fPosPtr (encodePosition s b o)).Run (driver E) w
        tr retval w' →
      (inlineNotes tr =
          [.writeInline (positionalCall (w.privateData filp) mtcaSimpleWrite buf count s b o)] ↔
        encodePosition s b o ≠ pciedFpos ∧
          DecodesTo (w.pciedevDevM (w.privateData filp)) fPosPtr s b o) := by
  rw [pciedevReadExp_eq, pciedevWriteExp_eq]
  exact ⟨fun _ _ _ hrun => hrun.of_wp (accessExp_notes .read _ _ _ s b o hlive),
    fun _ _ _ hrun => hrun.of_wp (accessExp_notes .write _ _ _ s b o hlive)⟩

/-- No address of the upper half of the address space decodes to an existing BAR. -/
theorem kernelAddress_not_decodes {v : PciedevDev} {p s b o : UInt64}
    (hp : 0xffff000000000000 ≤ p.toNat) (hb : b.toNat < numberOfBars) :
    ¬ DecodesTo v p s b o := by
  rintro ⟨-, hbar, -⟩
  have hdecoded := congrArg UInt32.toNat hbar
  have hlt := p.toNat_lt
  rw [posBarx_toNat, UInt64.toNat_toUInt32] at hdecoded
  change b.toNat < 6 at hb
  omega

/-- Where the kernel keeps the position in its own memory, no read or write makes the inline call
that the client encoded. -/
theorem kernelAddress_misdirects {ε : Type} {E : Environment ε} {w : World ε} {filp : File}
    {buf count fPosPtr fPos s b o : UInt64} (dir : Direction) (accessMode : UInt16)
    (dead refused : ℤ) (hlive : (w.pciedevDevM (w.privateData filp)).devSts ≠ 0)
    (haddress : 0xffff000000000000 ≤ fPosPtr.toNat) (hb : b.toNat < numberOfBars) :
    (accessExp dir accessMode dead refused filp buf count fPosPtr fPos).wp (driver E) w
      fun tr _ _ =>
      inlineNotes tr ≠
        [dir.note (positionalCall (w.privateData filp) accessMode buf count s b o)] := by
  apply wp_mono (accessExp_notes dir accessMode dead refused s b o hlive)
  intro tr _ _ hmeant hnotes
  exact kernelAddress_not_decodes haddress hb (hmeant.mp hnotes).2

def answerNothing : Answers Unit := fun _ _ => none

/-- Register size `RW_D32`, BAR 1, offset 4, with the position stored at a kernel address. -/
theorem positional_read_misdirected : ∃ tr w',
    (pciedevReadExp 0 0 8 0xffff888000000000 (encodePosition 2 1 4)).Run (driver openEnvironment)
      (.uniform { devSts := 1 }) tr sizeofDeviceRw w' ∧
    inlineNotes tr ≠ [.readInline (positionalCall 0 mtcaSimpleRead 0 8 2 1 4)] := by
  obtain ⟨tr, w', hrun⟩ : ∃ tr w',
      (pciedevReadExp 0 0 8 0xffff888000000000 (encodePosition 2 1 4)).Run
        (driver openEnvironment) (.uniform { devSts := 1 }) tr sizeofDeviceRw w' :=
    ⟨_, _, run_of_answers answerNothing (fun _ _ _ _ _ => trivial) rfl⟩
  refine ⟨tr, w', hrun, ?_⟩
  rw [pciedevReadExp_eq] at hrun
  exact hrun.of_wp (kernelAddress_misdirects .read _ _ _ (by decide) (by decide) (by decide))

theorem positional_access_decodes_same : ∃ tr w',
    (pciedevReadExp 0 0 8 (encodePosition 2 1 4) (encodePosition 2 1 4)).Run
      (driver openEnvironment) (.uniform { devSts := 1 }) tr sizeofDeviceRw w' ∧
    inlineNotes tr = [.readInline (positionalCall 0 mtcaSimpleRead 0 8 2 1 4)] := by
  obtain ⟨tr, w', hrun⟩ : ∃ tr w',
      (pciedevReadExp 0 0 8 (encodePosition 2 1 4) (encodePosition 2 1 4)).Run
        (driver openEnvironment) (.uniform { devSts := 1 }) tr sizeofDeviceRw w' :=
    ⟨_, _, run_of_answers answerNothing (fun _ _ _ _ _ => trivial) rfl⟩
  have hdecodes := positional_access_decodes openEnvironment (.uniform { devSts := 1 }) 0 0 8
    (encodePosition 2 1 4) 2 1 4 (by decide)
  have hsame := decodesTo_encodePosition (s := 2) (b := 1) (o := 4) { devSts := 1 } (by decide)
    (by decide) (by decide)
  exact ⟨tr, w', hrun, (hdecodes.1 tr _ w' hrun).mpr ⟨by decide, hsame⟩⟩

end Upciedev
