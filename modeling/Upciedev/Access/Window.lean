import Upciedev.Access.DataEvents

/-!
# The register window of an inline call

With a register-size code below `MTCA_MAX_RW` both inline functions use one width for
the access, the stride and the user copies, and stay below the end of the BAR.
-/
namespace Upciedev

open Foundations Program

/-- The calls of `Read_Write_Private` among the events. -/
def accesses (l : List DataEvent) : List (UInt16 × IoAddr) :=
  l.filterMap fun
    | .access regSize a => some (regSize, a)
    | _ => none

@[simp] theorem accesses_nil : accesses [] = [] := rfl

@[simp] theorem accesses_append (l l' : List DataEvent) :
    accesses (l ++ l') = accesses l ++ accesses l' := List.filterMap_append

def IoAddr.next (a : IoAddr) (regSize : UInt16) (i : ℕ) : IoAddr :=
  a.add ((i * (Width.ofRegSize regSize).bytes : ℕ) : ℤ)

/-- `n` accesses from `a` on, one element after the other, with everything at one width. -/
structure Strided (regSize : UInt16) (a : IoAddr) (n : ℕ) (l : List DataEvent) : Prop where
  accesses_eq : accesses l =
    (List.range n).map fun i => (regSize, a.next regSize i)
  io_at : ∀ w b, .io w b ∈ l → w = .ofRegSize regSize ∧
    ∃ i < n, b = a.next regSize i
  copy_width : ∀ bytes, .copy bytes ∈ l → bytes.toNat = (Width.ofRegSize regSize).bytes
  no_call : ∀ dir c, .call dir c ∉ l

section
variable {regSize : UInt16} {a : IoAddr}

@[simp] theorem IoAddr.next_zero (a : IoAddr) : a.next regSize 0 = a := by
  simp [IoAddr.next, IoAddr.add]

theorem IoAddr.next_next (a : IoAddr) (m n : ℕ) :
    (a.next regSize m).next regSize n = a.next regSize (m + n) := by
  simp only [IoAddr.next, IoAddr.add, add_mul]
  push_cast
  rw [add_assoc]

theorem Strided.nil : Strided regSize a 0 [] := by
  constructor <;> simp

theorem Strided.copy {bytes : UInt32} (h : bytes.toNat = (Width.ofRegSize regSize).bytes) :
    Strided regSize a 0 [.copy bytes] := by
  constructor <;> simp [accesses, h]

theorem Strided.append {m n : ℕ} {l l' : List DataEvent} (h : Strided regSize a m l)
    (h' : Strided regSize (a.next regSize m) n l') :
    Strided regSize a (m + n) (l ++ l') where
  accesses_eq := by
    rw [accesses_append, h.accesses_eq, h'.accesses_eq, List.range_add, List.map_append,
      List.map_map]
    congr 2
    funext i
    simp [IoAddr.next_next]
  io_at w b hb := by
    rcases List.mem_append.mp hb with hb | hb
    · obtain ⟨hw, i, hi, heq⟩ := h.io_at w b hb
      exact ⟨hw, i, by omega, heq⟩
    · obtain ⟨hw, i, hi, heq⟩ := h'.io_at w b hb
      exact ⟨hw, m + i, by omega, by rw [heq, IoAddr.next_next]⟩
  copy_width bytes hb := by
    rcases List.mem_append.mp hb with hb | hb
    · exact h.copy_width bytes hb
    · exact h'.copy_width bytes hb
  no_call dir c hc := by
    rcases List.mem_append.mp hc with hc | hc
    · exact h.no_call dir c hc
    · exact h'.no_call dir c hc

end

theorem Strided.one {regSize : UInt16} {a : IoAddr} {l : List DataEvent}
    (hio : ∀ e ∈ l, e = .io (.ofRegSize regSize) a) :
    Strided regSize a 1 (.access regSize a :: l) where
  accesses_eq := by
    have hnone : accesses l = [] := List.filterMap_eq_nil_iff.mpr fun e he => by rw [hio e he]
    rw [← List.singleton_append, accesses_append, hnone]
    simp [accesses]
  io_at w b hb := by
    rcases List.mem_cons.mp hb with hb | hb
    · cases hb
    · cases hio _ hb
      exact ⟨rfl, 0, by omega, by simp⟩
  copy_width bytes hb := by
    rcases List.mem_cons.mp hb with hb | hb
    · cases hb
    · cases hio _ hb
  no_call dir c hc := by
    rcases List.mem_cons.mp hc with hc | hc
    · cases hc
    · cases hio _ hc

section
variable {owner : File → Entry} {table : Entry → PciedevDev}

theorem accessRegister_emits (w : Width) (accessMode : UInt16) (a : IoAddr)
    (value mask extra : UInt32) :
    Emits owner table (accessRegister w accessMode a value mask extra) fun l _ =>
      ∀ e ∈ l, e = .io w a := by
  simp [Emits, accessRegister, sat_ite, Op.ReadOnly, dataEvents, dataEvent, inScratchAfter]

theorem readWritePrivate_emits (regSize accessMode : UInt16) (a : IoAddr)
    (value mask extra : UInt32) :
    Emits owner table (readWritePrivate regSize accessMode a value mask extra) fun l _ =>
      Strided regSize a 1 l := by
  refine .call trivial (fun _ => rfl) fun _ _ => ?_
  exact (accessRegister_emits _ _ _ _ _ _).imp fun l _ hl => Strided.one hl

theorem accessOp_readOnly {dev : Entry} {op : Op} (h : AccessOp dev op) :
    op.ReadOnly ∧ ∀ b, inScratchAfter b op = b := by
  cases op with
  | note n => cases n <;> first | exact h.elim | exact ⟨trivial, fun _ => rfl⟩
  | _ => first | exact h.elim | exact ⟨trivial, fun _ => rfl⟩

theorem pciedevCheckScratch_emits (dev : Entry) :
    Emits owner table (pciedevCheckScratch dev) fun l _ => l = [] := by
  have hbody (tr : Trace) (htr : ∀ e ∈ tr, AccessOp dev e.op) :
      scratchAfter true tr = true ∧ dataEvents true tr = [] := by
    induction tr with
    | nil => exact ⟨rfl, rfl⟩
    | cons e tr ih =>
      rw [List.forall_mem_cons] at htr
      have hstay := (accessOp_readOnly htr.1).2 true
      simpa [dataEvents, hstay] using ih htr.2
  simp only [Emits, pciedevCheckScratch, perform_eq, call_bind, ret_bind, sat_call, sat_bind,
    sat_ret, pure_eq]
  refine ⟨trivial, fun _ _ => .of_only (readScratch_only dev)
    (fun _ hop => (accessOp_readOnly hop).1) fun tr result htr => ⟨trivial, fun _ _ => ?_⟩⟩
  obtain ⟨hin, hnone⟩ := hbody tr htr
  simp [dataEvents, dataEvent, inScratchAfter, hin, hnone]

/-- The width the loops use for the copies is the one `Read_Write_Private` uses. -/
def WidthAgrees (c : InlineCall) (unRegisterSize : UInt32) : Prop :=
  unRegisterSize.toNat = (Width.ofRegSize c.registerSize).bytes

theorem readLoop_emits {c : InlineCall} {u : UInt32} (hu : WidthAgrees c u) (n : ℕ)
    (pcUserBuf : UInt64) (a : IoAddr) (tmpDataForRw : UInt32) (retval : ℤ) :
    Emits owner table (readLoop c u n pcUserBuf a tmpDataForRw retval) fun l _ =>
      ∃ k ≤ n, Strided c.registerSize a k l := by
  induction n generalizing pcUserBuf a tmpDataForRw retval with
  | zero => exact (emits_ret _).mpr ⟨0, le_rfl, Strided.nil⟩
  | succ n ih =>
    unfold readLoop
    apply (readWritePrivate_emits _ _ _ _ _ _).bind
    intro l₁ read h₁
    have hcheck (x y : UInt32) :
        Emits owner table (if x = y then pciedevCheckScratch c.dev else pure 0) fun l _ => l = [] :=
      emits_ite (fun _ => pciedevCheckScratch_emits c.dev) fun _ => (emits_ret _).mpr rfl
    refine (hcheck _ _).bind fun l₂ failed h₂ => emits_ite (fun _ => ?_) fun _ => ?_
    · exact (emits_ret _).mpr ⟨1, by omega, by simpa [h₂] using h₁⟩
    · have hcopy (dst : UInt64) (v : UInt32) :
          Emits owner table (if c.userData ≠ 0 then copyToUser (.data u) dst v else pure false)
            fun l _ => Strided c.registerSize (a.next c.registerSize 1) 0 l :=
        emits_ite (fun _ => .call trivial (fun _ => rfl) fun _ _ => (emits_ret _).mpr (.copy hu))
          fun _ => (emits_ret _).mpr .nil
      refine .call trivial (fun _ => rfl) fun v _ => ?_
      apply (hcopy _ _).bind
      intro l₃ uncopied h₃
      have hround : Strided c.registerSize a 1 (l₁ ++ l₃) := h₁.append h₃
      refine emits_ite (fun _ => (emits_ret _).mpr ⟨1, by omega, ?_⟩) fun _ => ?_
      · simpa [h₂, dataEvent] using hround
      · apply (ih _ _ _ _).imp
        intro l₄ _ hpost
        obtain ⟨k, hk, h₄⟩ := hpost
        refine ⟨1 + k, by omega, ?_⟩
        have hnext : a.add u.toNat = a.next c.registerSize 1 := by rw [IoAddr.next, one_mul, hu]
        rw [hnext] at h₄
        simpa [h₂, dataEvent] using hround.append h₄

theorem copyWord_emits {c : InlineCall} {u : UInt32} (hu : WidthAgrees c u) (a : IoAddr)
    (given src : UInt64) (word : UInt32) :
    Emits owner table (copyWord given u src word) fun l _ => Strided c.registerSize a 0 l :=
  emits_ite (fun _ => (emits_ret _).mpr .nil) fun _ =>
    .call trivial (fun _ => rfl) fun _ _ => (emits_ret _).mpr (.copy hu)

theorem writeLoop_emits {c : InlineCall} {u : UInt32} (hu : WidthAgrees c u) (n : ℕ)
    (pcUserData pcUserMask : UInt64) (a : IoAddr) (tmpDataForRw tmpMaskForW : UInt32) (retval : ℤ) :
    Emits owner table (writeLoop c u n pcUserData pcUserMask a tmpDataForRw tmpMaskForW retval)
      fun l _ => ∃ k ≤ n, Strided c.registerSize a k l := by
  induction n generalizing pcUserData pcUserMask a tmpDataForRw tmpMaskForW retval with
  | zero => exact (emits_ret _).mpr ⟨0, le_rfl, .nil⟩
  | succ n ih =>
    unfold writeLoop
    apply (copyWord_emits hu a _ _ _).bind
    intro l₁ data h₁
    cases data with
    | none => exact (emits_ret _).mpr ⟨0, by omega, by simpa using h₁⟩
    | some data =>
      apply (copyWord_emits hu a _ _ _).bind
      intro l₂ mask h₂
      have hcopied : Strided c.registerSize a 0 (l₁ ++ l₂) := by
        simpa [IoAddr.add] using h₁.append (by simpa [IoAddr.add] using h₂)
      cases mask with
      | none => exact (emits_ret _).mpr ⟨0, by omega, by simpa using hcopied⟩
      | some mask =>
        refine .call trivial (fun _ => rfl) fun v _ => ?_
        apply (readWritePrivate_emits _ _ _ _ _ _).bind
        intro l₃ words h₃
        have hround : Strided c.registerSize a 1 (l₁ ++ l₂ ++ l₃) := by
          simpa using hcopied.append (by simpa using h₃)
        apply (ih _ _ _ _ _ _).imp
        intro l₄ _ hpost
        obtain ⟨k, hk, h₄⟩ := hpost
        refine ⟨1 + k, by omega, ?_⟩
        have hnext : a.add u.toNat = a.next c.registerSize 1 := by rw [IoAddr.next, one_mul, hu]
        rw [hnext] at h₄
        simpa [dataEvent] using hround.append h₄

def ValidCode (regSize : UInt16) : Prop := regSize = rwD08 ∨ regSize = rwD16 ∨ regSize = rwD32

theorem widthAgrees_getRegisterSizeInBytes {c : InlineCall} (h : ValidCode c.registerSize)
    (default : ℤ) : WidthAgrees c (getRegisterSizeInBytes c.registerSize default) := by
  unfold WidthAgrees
  rcases h with h | h | h <;> rw [h] <;> rfl

/-- The checked window of a call: `n` elements of `u` bytes from `a` on. -/
structure WindowOf (v : PciedevDev) (c : InlineCall) (u : UInt32) (n : ℕ) (a : IoAddr) : Prop where
  width : WidthAgrees c u
  count_le : n ≤ c.count
  aligned : u.toNat ∣ c.offset.toNat
  base_eq : barEntry v.memmoryBase c.bar a.base
  off_eq : a.off = c.offset.toNat
  room : ∃ first last, barEntry v.memBase c.bar first ∧ barEntry v.memBaseEnd c.bar last ∧
    ∀ i < n, c.offset.toNat + (i + 1) * u.toNat ≤ (last - first).toNat

theorem emits_umod {a b : UInt32} (hb : b ≠ 0) :
    Emits owner table (umod a b) fun l r => l = [] ∧ r = a % b := by
  rw [umod, if_neg hb]
  exact (emits_ret _).mpr ⟨rfl, rfl⟩

theorem emits_udiv {a b : UInt32} (hb : b ≠ 0) :
    Emits owner table (udiv a b) fun l r => l = [] ∧ r = a / b := by
  rw [udiv, if_neg hb]
  exact (emits_ret _).mpr ⟨rfl, rfl⟩

theorem Width.bytes_pos (w : Width) : 0 < w.bytes := by cases w <;> decide

/-- The bound on the number of registers keeps each of them below the end of the window. -/
theorem element_below_end {total offset u : UInt32} {i : ℕ} (hu : u ≠ 0)
    (hi : i < ((if offset < total then total - offset else 0) / u).toNat) :
    offset.toNat + (i + 1) * u.toNat ≤ total.toNat := by
  rw [UInt32.toNat_div] at hi
  have hpos : 0 < u.toNat := Nat.pos_of_ne_zero fun h => hu (UInt32.toNat_inj.mp h)
  split_ifs at hi with hlt
  · have hsub : (total - offset).toNat = total.toNat - offset.toNat :=
      UInt32.toNat_sub_of_le _ _ (UInt32.le_of_lt hlt)
    have hle : (i + 1) * u.toNat ≤ total.toNat - offset.toNat := by
      rw [← hsub]
      exact (Nat.le_div_iff_mul_le hpos).mp hi
    have hoff : offset.toNat < total.toNat := hlt
    omega
  · simp at hi

theorem openWindow_emits {c : InlineCall} (hcode : ValidCode c.registerSize) :
    Emits owner table (openWindow c) fun l r =>
      l = [] ∧ ∀ u n a, r = some (u, n, a) → WindowOf (table c.dev) c u n a := by
  refine .call trivial (fun _ => rfl) fun v _ => ?_
  have hwidth := widthAgrees_getRegisterSizeInBytes hcode v.registerSize
  have hu : getRegisterSizeInBytes c.registerSize v.registerSize ≠ 0 := by
    intro hzero
    rw [hzero] at hwidth
    exact (Width.ofRegSize c.registerSize).bytes_pos.ne hwidth
  refine .call trivial (fun _ => rfl) fun tested _ => emits_ite (fun _ => ?_) fun _ => ?_
  · exact (emits_ret _).mpr ⟨rfl, by simp⟩
  refine (emits_umod hu).bind fun l₁ rest ⟨h₁, hrest⟩ => emits_ite (fun _ => ?_) fun haligned => ?_
  · exact (emits_ret _).mpr ⟨by simp [h₁, dataEvent], by simp⟩
  refine .call trivial (fun _ => rfl) fun last hlast =>
    .call trivial (fun _ => rfl) fun first hfirst => ?_
  refine (emits_udiv hu).bind fun l₂ cnt ⟨h₂, hcnt⟩ =>
    .call trivial (fun _ => rfl) fun base hbase => ?_
  refine (emits_ret _).mpr ⟨by simp [h₁, h₂, dataEvent], ?_⟩
  rintro _ _ _ ⟨⟩
  refine ⟨hwidth, min_le_left _ _, ?_, hbase, rfl, first, last, hfirst, hlast, fun i hi => ?_⟩
  · have hzero : c.offset % getRegisterSizeInBytes c.registerSize v.registerSize = 0 := by
      rw [← hrest]; exact not_not.mp haligned
    rw [Nat.dvd_iff_mod_eq_zero, ← UInt32.toNat_mod, hzero]
    rfl
  · rw [hcnt] at hi
    exact element_below_end hu (lt_of_lt_of_le hi (min_le_right _ _))

/-- `n` accesses of one inline call, all of them inside the BAR and at one width. -/
structure Confined (v : PciedevDev) (c : InlineCall) (bar : Bar) (l : List DataEvent) (n : ℕ) :
    Prop where
  strided : Strided c.registerSize ⟨v.memmoryBase bar, c.offset.toNat⟩ n l
  count_le : n ≤ c.count
  aligned : n ≠ 0 → (Width.ofRegSize c.registerSize).bytes ∣ c.offset.toNat
  room : ∀ i < n, c.offset.toNat + (i + 1) * (Width.ofRegSize c.registerSize).bytes ≤
    (v.memBaseEnd bar - v.memBase bar).toNat

/-- What the events of an inline call have to be; nothing for a BAR that does not exist. -/
def ConfinedCall (v : PciedevDev) (c : InlineCall) (l : List DataEvent) : Prop :=
  ∀ bar : Bar, c.bar.toNat = bar.val → ∃ n, Confined v c bar l n

theorem ConfinedCall.none (v : PciedevDev) (c : InlineCall) : ConfinedCall v c [] :=
  fun _ _ => ⟨0, .nil, by omega, by simp, by simp⟩

theorem barEntry_of_eq {β : Type} {arr : Bar → β} {i : UInt32} {r : β} (h : barEntry arr i r)
    {bar : Bar} (hbar : i.toNat = bar.val) : r = arr bar := by
  rw [h (hbar ▸ bar.isLt)]
  exact congrArg arr (Fin.ext hbar)

theorem WindowOf.confined {v : PciedevDev} {c : InlineCall} {u : UInt32} {n k : ℕ} {a : IoAddr}
    {l : List DataEvent} (h : WindowOf v c u n a) (hk : k ≤ n)
    (hl : Strided c.registerSize a k l) : ConfinedCall v c l := by
  intro bar hbar
  obtain ⟨first, last, hfirst, hlast, hroom⟩ := h.room
  have ha : a = ⟨v.memmoryBase bar, c.offset.toNat⟩ := by
    rw [← barEntry_of_eq h.base_eq hbar, ← h.off_eq]
  refine ⟨k, ha ▸ hl, hk.trans h.count_le, fun _ => h.width ▸ h.aligned, fun i hi => ?_⟩
  rw [← barEntry_of_eq hfirst hbar, ← barEntry_of_eq hlast hbar, ← h.width]
  exact hroom i (by omega)

theorem registers_emits (dir : Direction) {c : InlineCall} (hcode : ValidCode c.registerSize) :
    Emits owner table (dir.registers c) fun l _ => ConfinedCall (table c.dev) c l := by
  cases dir with
  | read =>
    apply (openWindow_emits hcode).bind
    intro l₁ window hpost
    obtain ⟨h₁, hwindow⟩ := hpost
    subst h₁
    cases window with
    | none => exact (emits_ret _).mpr (.none _ _)
    | some window =>
      have hopen := hwindow _ _ _ rfl
      refine .call trivial (fun _ => rfl) fun _ _ => ?_
      apply (readLoop_emits hopen.width _ _ _ _ _).imp
      intro l₂ _ hpost
      obtain ⟨k, hk, h₂⟩ := hpost
      exact hopen.confined (hk.trans (min_le_left _ _)) h₂
  | write =>
    apply (openWindow_emits hcode).bind
    intro l₁ window hpost
    obtain ⟨h₁, hwindow⟩ := hpost
    subst h₁
    cases window with
    | none => exact (emits_ret _).mpr (.none _ _)
    | some window =>
      have hopen := hwindow _ _ _ rfl
      refine .call trivial (fun _ => rfl) fun _ _ => ?_
      apply (writeLoop_emits hopen.width _ _ _ _ _ _ _).imp
      intro l₂ _ hpost
      obtain ⟨k, hk, h₂⟩ := hpost
      exact hopen.confined (hk.trans (min_le_left _ _)) h₂

end
end Upciedev
