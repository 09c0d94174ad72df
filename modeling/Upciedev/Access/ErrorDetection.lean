import Upciedev.Access.TransferOutcome

/-!
# Detection of PCIe errors

A read request compares a whole word with all ones at its width, and so does the scratch check. The
comparisons only see the error if the words of the stack that the registers are read into have no
bits above the widths.
-/
namespace Upciedev

open Foundations Program

/-- The registers a read request reads, one after the other, the scratch register at the moment when
each of them has been read, and the stack words that the request and its scratch checks start
with. -/
structure Encounter where
  register : ℕ → UInt32
  scratch : ℕ → UInt32
  word : UInt32
  checkWord : ℕ → UInt32

/-- How many registers the request has read, and whether the scratch register is looked at now. -/
inductive Moment where
  | between (i : ℕ)
  | checking (i : ℕ)

/-- Every user copy succeeds, and what is read is what is met at this moment. -/
def Encounter.environment (m : Encounter) : Environment Moment
  | .ioread _ _, .between i, r, t' => r = m.register i ∧ t' = .between (i + 1)
  | .ioread _ _, .checking i, r, t' => r = m.scratch i ∧ t' = .between (i + 1)
  | .uninit, .between 0, r, t' => r = m.word ∧ t' = .between 0
  | .uninit, .between (i + 1), r, t' => r = m.checkWord i ∧ t' = .checking i
  | .copyToUser _ _ _, t, r, t' => r = false ∧ t' = t
  | _, t, _, t' => t' = t

section
variable {α : Type} {m : Encounter} {w : World Moment} {i : ℕ} {Q : Trace → α → World Moment → Prop}

theorem twp_answer {c : KernelCall} {r : c.Res} {t : Moment}
    (hanswer : ∀ r' t', m.environment c w.env r' t' ↔ r' = r ∧ t' = t) {k : c.Res → Kernel α} :
    (call (I := driverInterface) (.kernel c) k).twp (driver m.environment) w Q ↔
      (k r).twp (driver m.environment) (w.withEnv t) fun tr a u =>
        Q (⟨.kernel c, r⟩ :: tr) a u := by
  refine twp_step (.kernel c) (fun r' w' => ?_) k
  constructor
  · rintro ⟨t', ht, rfl⟩
    obtain ⟨rfl, rfl⟩ := (hanswer _ _).mp ht
    exact ⟨rfl, rfl⟩
  · rintro ⟨rfl, rfl⟩
    exact ⟨t, (hanswer _ _).mpr ⟨rfl, rfl⟩, rfl⟩

theorem twp_register {width : Width} {a : IoAddr} {k : UInt32 → Kernel α} (h : w.env = .between i) :
    (call (I := driverInterface) (.kernel (.ioread width a)) k).twp (driver m.environment) w Q ↔
      (k (m.register i)).twp (driver m.environment) (w.withEnv (.between (i + 1)))
        fun tr a' u => Q (⟨.kernel (.ioread width a), m.register i⟩ :: tr) a' u :=
  twp_answer fun _ _ => by rw [h]; rfl

theorem twp_scratch {width : Width} {a : IoAddr} {k : UInt32 → Kernel α} (h : w.env = .checking i) :
    (call (I := driverInterface) (.kernel (.ioread width a)) k).twp (driver m.environment) w Q ↔
      (k (m.scratch i)).twp (driver m.environment) (w.withEnv (.between (i + 1)))
        fun tr a' u => Q (⟨.kernel (.ioread width a), m.scratch i⟩ :: tr) a' u :=
  twp_answer fun _ _ => by rw [h]; rfl

theorem twp_word {k : UInt32 → Kernel α} (h : w.env = .between 0) :
    (call (I := driverInterface) (.kernel .uninit) k).twp (driver m.environment) w Q ↔
      (k m.word).twp (driver m.environment) w fun tr a u =>
        Q (⟨.kernel .uninit, m.word⟩ :: tr) a u := by
  have hsame : w.withEnv (.between 0) = w := by rw [← h, World.withEnv_self]
  conv_rhs => rw [← hsame]
  exact twp_answer fun _ _ => by rw [h]; rfl

theorem twp_checkWord {k : UInt32 → Kernel α} (h : w.env = .between (i + 1)) :
    (call (I := driverInterface) (.kernel .uninit) k).twp (driver m.environment) w Q ↔
      (k (m.checkWord i)).twp (driver m.environment) (w.withEnv (.checking i))
        fun tr a u => Q (⟨.kernel .uninit, m.checkWord i⟩ :: tr) a u :=
  twp_answer fun _ _ => by rw [h]; rfl

theorem twp_copied {T : UserType} {dst : UInt64} {v : T.Val} {k : Bool → Kernel α} :
    (call (I := driverInterface) (.kernel (.copyToUser T dst v)) k).twp (driver m.environment) w Q ↔
      (k false).twp (driver m.environment) w
        fun tr a u => Q (⟨.kernel (.copyToUser T dst v), false⟩ :: tr) a u :=
  twp_answer fun _ _ => Iff.rfl

end

section
variable {m : Encounter} {w : World Moment} {dev : Entry} {scratch : Bar} {i : ℕ}

theorem deviceScrachTest_ones (hsize : ValidSize (w.pciedevDevM dev).registerSize) :
    (deviceScrachTest dev).twp (driver m.environment) w fun _ test t => t = w ∧
      test = (w.pciedevDevM dev).scratchWidth.low 0xffffffff := by
  rw [← PciedevDev.scratchTest_eq hsize]
  by_cases hbyte : (w.pciedevDevM dev).registerSize = 0
  · simp [deviceScrachTest, hbyte]
  · by_cases hshort : (w.pciedevDevM dev).registerSize = 1 <;>
      simp [deviceScrachTest, hbyte, hshort]

theorem pciedevCheckScratch_detects (hsize : ValidSize (w.pciedevDevM dev).registerSize)
    (hscratch : (w.pciedevDevM dev).scratchBar.toNat = scratch.val)
    (hmoment : w.env = .between (i + 1)) :
    (pciedevCheckScratch dev).twp (driver m.environment) w fun _ result t => t = w ∧
      (result ≠ 0 ↔ (w.pciedevDevM dev).memmoryBase scratch = none ∨
        (w.pciedevDevM dev).scratchWidth.AllOnes (m.scratch i) ∧
          (w.pciedevDevM dev).scratchWidth.Clear (m.checkWord i)) := by
  simp only [pciedevCheckScratch, readScratch, perform_eq, call_bind, ret_bind, twp_note, twp_bind,
    twp_load, twp_memmoryBase hscratch]
  by_cases hmapped : (w.pciedevDevM dev).memmoryBase scratch = none
  · simp [hmapped]
  · rw [if_neg hmapped, twp_bind]
    apply twp_mono (deviceScrachTest_ones hsize)
    intro _ test t hpost
    obtain ⟨ht, htest⟩ := hpost
    subst ht
    have hsame : t.withEnv (.between (i + 1)) = t := by rw [← hmoment, World.withEnv_self]
    have hread : mtcaSimpleRead < mtcaSimpleWrite := by decide
    simp only [twp_load, twp_checkWord hmoment, readWritePrivate_eq hread,
      call_bind, ret_bind, twp_note]
    rw [twp_scratch rfl, World.withEnv_withEnv, hsame]
    have hplain : ¬ mtcaSimpleRead = mtReadToExtraBuffer := by decide
    simp only [hplain, if_false, htest]
    have hword := (t.pciedevDevM dev).scratchWidth.setLow_eq_iff (m.checkWord i) (m.scratch i)
    rw [PciedevDev.scratchWidth] at hword ⊢
    simp only [hmapped, false_or, ← hword]
    split_ifs with hones
    · exact ⟨rfl, iff_of_true one_ne_zero hones⟩
    · exact ⟨rfl, iff_of_false (by simp) hones⟩

end

/-- A register read as all ones, and the scratch BAR is unmapped or the scratch register reads as
all ones. -/
def Encounter.ErrorAt (m : Encounter) (v : PciedevDev) (scratch : Bar) (width : Width)
    (i : ℕ) : Prop :=
  width.AllOnes (m.register i) ∧
    (v.memmoryBase scratch = none ∨ v.scratchWidth.AllOnes (m.scratch i))

/-- The word of the request has no bits above the width, from the start or since a swap of two
bytes. -/
def Encounter.WordClear (m : Encounter) (v : PciedevDev) (width : Width) (i : ℕ) : Prop :=
  width.Clear m.word ∨ width = .w16 ∧ v.swap ≠ 0 ∧ i ≠ 0

/-- Neither has the word of the scratch check, if it reads the scratch register. -/
def Encounter.ClearAt (m : Encounter) (v : PciedevDev) (scratch : Bar) (width : Width)
    (i : ℕ) : Prop :=
  m.WordClear v width i ∧ (v.memmoryBase scratch = none ∨ v.scratchWidth.Clear (m.checkWord i))

section
variable {m : Encounter} {c : InlineCall} {v : PciedevDev} {scratch : Bar} {u word : UInt32} {i : ℕ}

theorem Encounter.wordClear_succ {width : Width} (hu : u.toNat = width.bytes)
    (h : width.Clear word ↔ m.WordClear v width i) (r : UInt32) :
    width.Clear (clientView v.swap u (width.setLow word r)) ↔ m.WordClear v width (i + 1) := by
  rw [Width.clear_clientView hu, h]
  unfold WordClear
  tauto

theorem readCheck_detects {w : World Moment} (hu : WidthAgrees c u) (hdev : w.pciedevDevM c.dev = v)
    (hsize : ValidSize v.registerSize) (hscratch : v.scratchBar.toNat = scratch.val)
    (hmoment : w.env = .between (i + 1))
    (hclear : (Width.ofRegSize c.registerSize).Clear word ↔
      m.WordClear v (.ofRegSize c.registerSize) i) :
    (if (Width.ofRegSize c.registerSize).setLow word (m.register i) = scrachTestOf u
      then pciedevCheckScratch c.dev else pure 0).twp (driver m.environment) w fun _ result t =>
        t = w ∧ (result ≠ 0 ↔ m.ErrorAt v scratch (.ofRegSize c.registerSize) i ∧
          m.ClearAt v scratch (.ofRegSize c.registerSize) i) := by
  subst hdev
  rw [scrachTestOf_eq hu, twp_ite, Width.setLow_eq_iff, hclear]
  constructor
  · rintro ⟨hones, hword⟩
    have hcheck := pciedevCheckScratch_detects (m := m) hsize hscratch hmoment
    apply twp_mono hcheck
    intro _ result t hpost
    obtain ⟨ht, hresult⟩ := hpost
    refine ⟨ht, ?_⟩
    rw [hresult, or_and_left]
    exact ⟨fun h => ⟨⟨hones, h.1⟩, hword, h.2⟩, fun h => ⟨h.1.2, h.2.2⟩⟩
  · intro hother
    refine (twp_ret ..).mpr ⟨rfl, iff_of_false (by simp) fun h => hother ⟨h.1.1, h.2.1⟩⟩

theorem readLoop_detects (hmode : c.rwAccessMode < mtcaSimpleWrite) (hu : WidthAgrees c u)
    (hsize : ValidSize v.registerSize) (hscratch : v.scratchBar.toNat = scratch.val) (n i : ℕ)
    {w : World Moment} (hdev : w.pciedevDevM c.dev = v) (hmoment : w.env = .between i)
    (pcUserBuf : UInt64) (a : IoAddr) {retval : ℤ} (hretval : 0 ≤ retval)
    (hclear : (Width.ofRegSize c.registerSize).Clear word ↔
      m.WordClear v (.ofRegSize c.registerSize) i) :
    (readLoop c u n pcUserBuf a word retval).twp (driver m.environment) w fun _ result _ =>
      result = eNoMem ↔ ∃ j < n, m.ErrorAt v scratch (.ofRegSize c.registerSize) (i + j) ∧
        m.ClearAt v scratch (.ofRegSize c.registerSize) (i + j) := by
  induction n generalizing i w pcUserBuf a word retval with
  | zero =>
    apply (twp_ret ..).mpr
    exact iff_of_false (fun h => absurd (h ▸ hretval) (by decide)) (by simp)
  | succ n ih =>
    have hnext : (w.withEnv (.between (i + 1))).pciedevDevM c.dev = v := hdev
    unfold readLoop
    rw [readWritePrivate_eq hmode]
    simp only [call_bind, ret_bind, twp_note, twp_register hmoment, readWord_eq]
    rw [twp_bind]
    refine twp_mono (readCheck_detects hu hnext hsize hscratch rfl hclear)
      fun _ failed t hpost => ?_
    obtain ⟨ht, hfailed⟩ := hpost
    subst ht
    by_cases herror : failed ≠ 0
    · rw [if_pos herror]
      apply (twp_ret ..).mpr
      exact iff_of_true rfl ⟨0, n.succ_pos, hfailed.mp herror⟩
    · rw [if_neg herror]
      have hnone := fun h => herror (hfailed.mpr h)
      have hrest := ih (i + 1) hnext rfl (pcUserBuf + u.toUInt64) (a.add u.toNat)
        (add_nonneg hretval (Int.natCast_nonneg u.toNat))
        (Encounter.wordClear_succ hu hclear (m.register i))
      have hshift : (∃ j < n, m.ErrorAt v scratch (.ofRegSize c.registerSize) (i + 1 + j) ∧
          m.ClearAt v scratch (.ofRegSize c.registerSize) (i + 1 + j)) ↔
          ∃ j < n + 1, m.ErrorAt v scratch (.ofRegSize c.registerSize) (i + j) ∧
            m.ClearAt v scratch (.ofRegSize c.registerSize) (i + j) := by
        refine Iff.trans ?_ (Nat.exists_lt_succ_left.trans (or_iff_right hnone)).symm
        simp only [add_assoc, add_comm 1]
      rw [hshift] at hrest
      simp only [perform_eq, call_bind, ret_bind, twp_load, hnext]
      by_cases hgiven : c.userData ≠ 0
      · simp only [if_pos hgiven, call_bind, ret_bind, twp_copied]
        exact hrest
      · simp only [if_neg hgiven, ret_bind, pure_eq]
        exact hrest

variable {w : World Moment} {bar : Bar}

/-- An opened request reports an error exactly if one of its registers has all ones while the
scratch register has them, too, and neither word of the stack hides it. -/
theorem pciedevReadInline_detects (hmode : c.rwAccessMode < mtcaSimpleWrite)
    (hcode : ValidCode c.registerSize) (hsize : ValidSize (w.pciedevDevM c.dev).registerSize)
    (hscratch : (w.pciedevDevM c.dev).scratchBar.toNat = scratch.val) (hbar : c.bar.toNat = bar.val)
    (hopen : c.Opens (w.pciedevDevM c.dev) bar) (hmoment : w.env = .between 0) :
    (pciedevReadInline c).twp (driver m.environment) w fun _ result _ => result = eNoMem ↔
      ∃ i < c.rounds (w.pciedevDevM c.dev) bar,
        m.ErrorAt (w.pciedevDevM c.dev) scratch (.ofRegSize c.registerSize) i ∧
          m.ClearAt (w.pciedevDevM c.dev) scratch (.ofRegSize c.registerSize) i := by
  simp only [pciedevReadInline, readRegisters, perform_eq, call_bind, ret_bind, twp_note, twp_bind]
  apply twp_mono (openWindow_twp hcode hbar hopen)
  intro _ window t hpost
  obtain ⟨ht, hwindow⟩ := hpost
  subst ht hwindow
  simp only [twp_word hmoment]
  have hclear : (Width.ofRegSize c.registerSize).Clear m.word ↔
      m.WordClear (t.pciedevDevM c.dev) (.ofRegSize c.registerSize) 0 := by
        simp [Encounter.WordClear]
  have hloop := readLoop_detects hmode (c.width_agrees hcode (t.pciedevDevM c.dev)) hsize hscratch
    (c.rounds (t.pciedevDevM c.dev) bar) 0 rfl hmoment c.userData
      (c.start (t.pciedevDevM c.dev) bar).addr
    le_rfl hclear
  simp only [zero_add] at hloop
  exact hloop

/-- A read request on an aligned window reports an error exactly when one of its registers and, at
that moment, the scratch register read as all ones, if and only if one of these registers is not
hidden by what the words of the stack hold above the widths. -/
theorem read_error_detected_iff (hmode : c.rwAccessMode < mtcaSimpleWrite)
    (hcode : ValidCode c.registerSize) (hsize : ValidSize (w.pciedevDevM c.dev).registerSize)
    (hscratch : (w.pciedevDevM c.dev).scratchBar.toNat = scratch.val) (hbar : c.bar.toNat = bar.val)
    (hopen : c.Opens (w.pciedevDevM c.dev) bar) (hmoment : w.env = .between 0) :
    ((pciedevReadInline c).twp (driver m.environment) w fun _ result _ => result = eNoMem ↔
      ∃ i < c.rounds (w.pciedevDevM c.dev) bar,
        m.ErrorAt (w.pciedevDevM c.dev) scratch (.ofRegSize c.registerSize) i) ↔
    ((∃ i < c.rounds (w.pciedevDevM c.dev) bar,
        m.ErrorAt (w.pciedevDevM c.dev) scratch (.ofRegSize c.registerSize) i) →
      ∃ i < c.rounds (w.pciedevDevM c.dev) bar,
        m.ErrorAt (w.pciedevDevM c.dev) scratch (.ofRegSize c.registerSize) i ∧
          m.ClearAt (w.pciedevDevM c.dev) scratch (.ofRegSize c.registerSize) i) := by
  have hdetects : (pciedevReadInline c).twp (driver m.environment) w _ :=
    pciedevReadInline_detects hmode hcode hsize hscratch hbar hopen hmoment
  constructor
  · intro hexact herror
    obtain ⟨_, result, _, -, hreported, hdetected⟩ := (hexact.and_wp hdetects.wp).exists_run
    exact hdetected.mp (hreported.mpr herror)
  · intro hnoticed
    apply twp_mono hdetects
    intro _ result _ hdetected
    exact hdetected.trans ⟨fun ⟨i, hi, herror, _⟩ => ⟨i, hi, herror⟩, hnoticed⟩

end

/-- A board of four-byte registers with one mapped BAR, before a request. -/
def fourByteBoard : World Moment :=
  { World.uniform { registerSize := 2, memmoryBase := fun _ => some 1,
                    memBaseEnd := fun _ => 0x1000 } with
    env := .between 0 }

def lostBoard (word : UInt32) : Encounter :=
  { register := fun _ => 0xffffffff, scratch := fun _ => 0xffffffff, word, checkWord := fun _ => 0 }

def readOne (registerSize : UInt16) : InlineCall :=
  { dev := 0, registerSize, rwAccessMode := mtcaSimpleRead, bar := 0, offset := 0,
    userData := 0x1000, userMask := 0, count := 1 }

theorem read_error_detected_iff_lostBoard :
    (pciedevReadInline (readOne rwD32)).twp (driver (lostBoard 0).environment) fourByteBoard
      fun _ result _ =>
      result = eNoMem ↔ ∃ i < (readOne rwD32).rounds (fourByteBoard.pciedevDevM 0) 0,
        (lostBoard 0).ErrorAt (fourByteBoard.pciedevDevM 0) 0 (.ofRegSize rwD32) i :=
  (read_error_detected_iff (by decide) (.inr (.inr rfl)) ⟨by decide, by decide⟩ rfl rfl
    ⟨Option.some_ne_none 1, dvd_zero _⟩ rfl).mpr
    fun _ => ⟨0, by decide, ⟨rfl, .inr rfl⟩, .inl rfl, .inr rfl⟩

/-- With a one-byte request, bits above the first byte of the stack word hide the error. -/
theorem error_hidden_by_stack : ∃ tr result u,
    (pciedevReadInline (readOne rwD08)).Run (driver (lostBoard 0x100).environment) fourByteBoard
      tr result u ∧
    result ≠ eNoMem ∧ ∃ i < (readOne rwD08).rounds (fourByteBoard.pciedevDevM 0) 0,
      (lostBoard 0x100).ErrorAt (fourByteBoard.pciedevDevM 0) 0 (.ofRegSize rwD08) i := by
  have hdetects :
      (pciedevReadInline (readOne rwD08)).twp (driver (lostBoard 0x100).environment) fourByteBoard
      fun _ result _ => result = eNoMem ↔
        ∃ i < (readOne rwD08).rounds (fourByteBoard.pciedevDevM 0) 0,
        (lostBoard 0x100).ErrorAt (fourByteBoard.pciedevDevM 0) 0 (.ofRegSize rwD08) i ∧
          (lostBoard 0x100).ClearAt (fourByteBoard.pciedevDevM 0) 0 (.ofRegSize rwD08) i :=
    pciedevReadInline_detects (by decide) (.inl rfl) ⟨by decide, by decide⟩ rfl rfl
      ⟨Option.some_ne_none 1, dvd_zero _⟩ rfl
  obtain ⟨tr, result, u, hrun, hresult⟩ := hdetects.exists_run
  refine ⟨tr, result, u, hrun, fun heq => ?_, 0, by decide, rfl, .inr rfl⟩
  obtain ⟨_, -, -, hword, -⟩ := hresult.mp heq
  rcases hword with hclear | ⟨hwidth, -⟩
  · exact absurd hclear (by decide)
  · exact absurd hwidth (by decide)

end Upciedev
